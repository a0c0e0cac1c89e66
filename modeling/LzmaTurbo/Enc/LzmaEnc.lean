import LzmaTurbo.Enc.RangeEncLaws
import LzmaTurbo.Lib.CodedPath
import LzmaTurbo.Enc.Price
import LzmaTurbo.Lzma.State

/-!
# Coding what the parser decided

`code_one_block` asks its parser for a length and a distance, codes them and goes on from
the position behind them. The parser's answers are a list here, its prices are no part of the
state. The window is the whole input, so the position is an index of it. An index outside the
table it is meant for is a fault.
-/
namespace LzmaTurbo.Enc
open Machine Lzma
open ExactCoder (Op)

deriving instance DecidableEq for LenSlot, DistSlot

abbrev lzmaNumReps : ℕ := 4
abbrev markLit : ℕ := 2 ^ 32 - 1
abbrev lzmaMatchLenMin : ℕ := 2
abbrev lzmaMatchLenMax : ℕ := lzmaMatchLenMin + kLenNumSymbolsTotal - 1
abbrev kProbInitValue : ℕ := kBitModelTotal >>> 1

def kLiteralNextStates : Vector ℕ kNumStates := #v[0, 0, 0, 0, 1, 2, 3, 4, 5, 6, 4, 5]
def kMatchNextStates : Vector ℕ kNumStates := #v[7, 7, 7, 7, 7, 7, 7, 10, 10, 10, 10, 10]
def kRepNextStates : Vector ℕ kNumStates := #v[8, 8, 8, 8, 8, 8, 8, 11, 11, 11, 11, 11]
def kShortRepNextStates : Vector ℕ kNumStates := #v[9, 9, 9, 9, 9, 9, 9, 11, 11, 11, 11, 11]

def isLitState (s : ℕ) : Prop := s < 7

instance (s : ℕ) : Decidable (isLitState s) := inferInstanceAs (Decidable (s < 7))

/-- One cell of the encoder's probability tables. -/
inductive ModelSlot where
  | isMatch (state posState : ℕ)
  | isRep (state : ℕ)
  | isRepG0 (state : ℕ)
  | isRepG1 (state : ℕ)
  | isRepG2 (state : ℕ)
  | isRep0Long (state posState : ℕ)
  | dist (slot : DistSlot)
  | len (slot : LenSlot)
  | repLen (slot : LenSlot)
  | lit (i : ℕ)
deriving DecidableEq

def LenSlot.InTable : LenSlot → Prop
  | .low i => i < lzmaNumPbStatesMax <<< (kLenNumLowBits + 1)
  | .high i => i < kLenNumHighSymbols

def DistSlot.InTable : DistSlot → Prop
  | .posSlot lps i => lps < kNumLenToPosStates ∧ i < 1 <<< kNumPosSlotBits
  | .pos i => i < kNumFullDistances
  | .align i => i < kAlignTableSize

/-- The indexes lie in the table's own dimensions; `litLen` is the length of `lit_probs`. -/
def ModelSlot.InTable (litLen : ℕ) : ModelSlot → Prop
  | .isMatch state posState => state < kNumStates ∧ posState < lzmaNumPbStatesMax
  | .isRep state => state < kNumStates
  | .isRepG0 state => state < kNumStates
  | .isRepG1 state => state < kNumStates
  | .isRepG2 state => state < kNumStates
  | .isRep0Long state posState => state < kNumStates ∧ posState < lzmaNumPbStatesMax
  | .dist slot => slot.InTable
  | .len slot => slot.InTable
  | .repLen slot => slot.InTable
  | .lit i => i < litLen

instance (slot : LenSlot) : Decidable slot.InTable := by
  cases slot <;> unfold LenSlot.InTable <;> infer_instance

instance (slot : DistSlot) : Decidable slot.InTable := by
  cases slot <;> unfold DistSlot.InTable <;> infer_instance

instance (litLen : ℕ) (slot : ModelSlot) : Decidable (slot.InTable litLen) := by
  cases slot <;> unfold ModelSlot.InTable <;> infer_instance

/-- `LitEnc_EncodeMatched`: while the bits agree with those of the match byte, `offs` picks
the tree by its next bit. -/
def litMatchedLoop {σ : Type} (slot : ℕ → σ) : ℕ → ℕ → ℕ → ℕ → List (Op σ)
  | 0, _, _, _ => []
  | fuel + 1, offs, sym, matchByte =>
      let matchByte := u32 (matchByte <<< 1)
      let i := offs + (matchByte &&& offs) + (sym >>> 8)
      let bit := (sym >>> 7) &&& 1
      let sym := u32 (sym <<< 1)
      let offs := offs &&& not32 (matchByte ^^^ sym)
      .bit (slot i) (decide (bit ≠ 0)) ::
        if 0x10000 ≤ sym then [] else litMatchedLoop slot fuel offs sym matchByte

def litEncodeMatched {σ : Type} (slot : ℕ → σ) (sym matchByte : ℕ) : List (Op σ) :=
  litMatchedLoop slot 8 0x100 (sym ||| 0x100) matchByte

/-- What the parser answers: how many bytes, and `back_res`. -/
structure Decision where
  len : ℕ
  back : ℕ
deriving DecidableEq, Repr

/-- The errors that `check_errors` gives. -/
inductive CodeError where
  | write
  | internalFailure
  | read
deriving DecidableEq, Repr

/-- What `check_errors` asks the match finder: `mt_failed`, and whether `result` is an error. -/
structure FinderStatus where
  mtFailed : Bool
  failed : Bool
deriving DecidableEq, Repr

/-- What coding reads and writes of `LzmaEnc`. -/
structure LzmaEnc extends Coding where
  cells : ModelSlot → ℕ
  litLen : ℕ
  state : ℕ
  reps : Reps
  lc : ℕ
  lpMask : ℕ
  pbMask : ℕ
  nowPos : ℕ
  writeEndMark : Bool
  result : Except CodeError Unit
  finished : Bool

namespace LzmaEnc

/-- `LzmaEnc_Init`. -/
def init (fails : ℕ → Bool) (prop : LzmaProps) (writeEndMark : Bool) : LzmaEnc where
  rc := .init
  out := { bytes := [], calls := 0, fails }
  cells _ := kProbInitValue
  litLen := 0x300 <<< (prop.lp + prop.lc)
  state := 0
  reps := ⟨1, 1, 1, 1⟩
  lc := prop.lc
  lpMask := (0x100 <<< prop.lp) - (0x100 >>> prop.lc)
  pbMask := (1 <<< prop.pb) - 1
  nowPos := 0
  writeEndMark := writeEndMark
  result := .ok ()
  finished := false

/-- One bit, the range written back. -/
def op (e : LzmaEnc) : Op ModelSlot → Except Fault LzmaEnc
  | .bit slot b =>
      if slot.InTable e.litLen then
        let (range, prob, st) := e.toCoding.encodeBitWithRange e.rc.range (e.cells slot) b.toNat
        .ok { e with rc := { st.rc with range }, out := st.out
                     cells := Function.update e.cells slot prob }
      else .error .index
  | .direct b =>
      let (range, st) := e.toCoding.encodeDirectBitWithRange e.rc.range
        (wrappingSub32 0 b.toNat)
      .ok { e with rc := { st.rc with range }, out := st.out }

def ops : List (Op ModelSlot) → LzmaEnc → Except Fault LzmaEnc
  | [], e => .ok e
  | o :: os, e => do
      let e ← e.op o
      ops os e

/-- One bit of which each value has its own code, the range written back. -/
def known (e : LzmaEnc) (slot : ModelSlot) (b : Bool) : Except Fault LzmaEnc :=
  if slot.InTable e.litLen then
    let (range, prob, st) :=
      if b then e.toCoding.encodeBit1WithRange e.rc.range (e.cells slot)
      else e.toCoding.encodeBit0WithRange e.rc.range (e.cells slot)
    .ok { e with rc := { st.rc with range }, out := st.out
                 cells := Function.update e.cells slot prob }
  else .error .index

def litProbsAt (e : LzmaEnc) (pos prev : ℕ) : ℕ :=
  3 * u32 ((wrappingAdd32 (u32 (pos <<< 8)) prev &&& e.lpMask) <<< e.lc)

/-- The literal that starts a stream. -/
def codeFirst (src : List UInt8) (e : LzmaEnc) : Except Fault LzmaEnc := do
  let e ← e.known (.isMatch 0 0) false
  let curByte ← byteAt src e.nowPos
  let e ← e.ops (litEncode .lit curByte)
  .ok { e with nowPos := e.nowPos + 1 }

def codeLit (src : List UInt8) (posState : ℕ) (e : LzmaEnc) : Except Fault LzmaEnc := do
  let e ← e.known (.isMatch e.state posState) false
  let data := e.nowPos
  let before ← sub data 1
  let prev ← byteAt src before
  let base := e.litProbsAt (u32 e.nowPos) prev
  let curByte ← byteAt src data
  let state := e.state
  let nextState ← read kLiteralNextStates state
  let e := { e with state := nextState }
  if isLitState state then e.ops (litEncode (fun i => .lit (base + i)) curByte)
  else do
    let i ← sub data e.reps.rep0
    let matchByte ← byteAt src i
    e.ops (litEncodeMatched (fun i => .lit (base + i)) curByte matchByte)

/-- Which of the last distances, and whether it is a single byte. -/
def codeRep (len index posState : ℕ) (e : LzmaEnc) : Except Fault LzmaEnc := do
  let e ← e.known (.isRep e.state) true
  if index = 0 then do
    let e ← e.known (.isRepG0 e.state) false
    let si := e.state
    let e ← e.known (.isRep0Long si posState) (decide (len ≠ 1))
    if len ≠ 1 then .ok e
    else do
      let state ← read kShortRepNextStates si
      .ok { e with state }
  else do
    let e ← e.known (.isRepG0 e.state) true
    let r := e.reps
    if index = 1 then do
      let e ← e.known (.isRepG1 e.state) false
      .ok { e with reps := ⟨r.rep1, r.rep0, r.rep2, r.rep3⟩ }
    else do
      let e ← e.known (.isRepG1 e.state) true
      if index = 2 then do
        let e ← e.known (.isRepG2 e.state) false
        .ok { e with reps := ⟨r.rep2, r.rep0, r.rep1, r.rep3⟩ }
      else do
        let e ← e.known (.isRepG2 e.state) true
        .ok { e with reps := ⟨r.rep3, r.rep0, r.rep1, r.rep2⟩ }

def codeRepMatch (len index posState : ℕ) (e : LzmaEnc) : Except Fault LzmaEnc := do
  let e ← e.codeRep len index posState
  if len ≠ 1 then do
    let sym ← sub len lzmaMatchLenMin
    let e ← e.ops ((LenEnc.encode sym posState).map (Op.map .repLen))
    let state ← read kRepNextStates e.state
    .ok { e with state }
  else .ok e

def codeMatch (build : SlotBuild) (len dist posState : ℕ) (e : LzmaEnc) :
    Except Fault LzmaEnc := do
  let e ← e.known (.isRep e.state) false
  let state ← read kMatchNextStates e.state
  let e := { e with state }
  let sym ← sub len lzmaMatchLenMin
  let e ← e.ops ((LenEnc.encode sym posState).map (Op.map .len))
  let r := e.reps
  let e := { e with reps := ⟨u32 (dist + 1), r.rep0, r.rep1, r.rep2⟩ }
  let os ← distEncode build len dist
  e.ops (os.map (Op.map .dist))

/-- One turn of the coding loop. -/
def codeDecision (build : SlotBuild) (src : List UInt8) (d : Decision) (e : LzmaEnc) :
    Except Fault LzmaEnc := do
  let posState := u32 e.nowPos &&& e.pbMask
  let e ←
    if d.back = markLit then e.codeLit src posState
    else do
      let e ← e.known (.isMatch e.state posState) true
      if d.back < lzmaNumReps then e.codeRepMatch d.len d.back posState
      else e.codeMatch build d.len (d.back - lzmaNumReps) posState
  .ok { e with nowPos := e.nowPos + d.len }

def codeDecisions (build : SlotBuild) (src : List UInt8) :
    List Decision → LzmaEnc → Except Fault LzmaEnc
  | [], e => .ok e
  | d :: ds, e => do
      let e ← e.codeDecision build src d
      codeDecisions build src ds e

/-- The bits of a tree's last leaf. -/
def onesLoop (slot : ℕ → ModelSlot) (size : ℕ) : ℕ → ℕ → List (Op ModelSlot)
  | 0, _ => []
  | fuel + 1, m =>
      let next := (m <<< 1) + 1
      .bit (slot m) true :: if size ≤ next then [] else onesLoop slot size fuel next

def writeEndMarker (posState : ℕ) (e : LzmaEnc) : Except Fault LzmaEnc := do
  let e ← e.known (.isMatch e.state posState) true
  let e ← e.known (.isRep e.state) false
  let state ← read kMatchNextStates e.state
  let e := { e with state }
  let e ← e.ops ((LenEnc.encode 0 posState).map (Op.map .len))
  let e ← e.ops (onesLoop (fun m => .dist (.posSlot 0 m)) (1 <<< kNumPosSlotBits)
    (1 <<< kNumPosSlotBits) 1)
  let e ← e.ops (List.replicate (30 - kNumAlignBits) (.direct true))
  e.ops (onesLoop (fun m => .dist (.align m)) kAlignTableSize kAlignTableSize 1)

/-- `check_errors`: the first error is kept, and of several at once the finder's. -/
def checkErrors (mf : FinderStatus) (e : LzmaEnc) : LzmaEnc :=
  match e.result with
  | .error _ => e
  | .ok () =>
      let result := if e.rc.res.isOk then .ok () else .error .write
      let result := if mf.mtFailed then .error .internalFailure else result
      let result := if mf.failed then .error .read else result
      { e with result, finished := e.finished || !result.isOk }

def flush (mf : FinderStatus) (e : LzmaEnc) : Except Fault LzmaEnc := do
  let e := { e with finished := true }
  let e ←
    if e.writeEndMark then e.writeEndMarker (u32 e.nowPos &&& e.pbMask) else .ok e
  let st := e.toCoding.flushData.flushStream
  .ok (checkErrors mf { e with rc := st.rc, out := st.out })

/-- From the first byte to the flush; the list is what the parser answers until the input is
used up, and `mf` what the match finder says at the end. -/
def encode (build : SlotBuild) (src : List UInt8) (ds : List Decision) (mf : FinderStatus)
    (e : LzmaEnc) : Except Fault LzmaEnc :=
  if src = [] then e.flush mf
  else do
    let e ← e.codeFirst src
    let e ← e.codeDecisions build src ds
    e.flush mf

end LzmaEnc
end LzmaTurbo.Enc
