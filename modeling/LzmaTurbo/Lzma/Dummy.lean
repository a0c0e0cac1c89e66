import LzmaTurbo.Lzma.Decode

/-!
# The careful path near buffer edges

One symbol decoded without touching the decoder, to learn how many bytes it
needs and of what kind it is. The early return of `NORMALIZE_CHECK` is the
exception `Stop.eof`.
-/
namespace LzmaTurbo.Lzma
open Machine

inductive Dummy where
  | inputEof
  | lit
  | matched
  | rep
deriving Repr, DecidableEq

def Dummy.endMarkerPossible (d : Dummy) : Bool := d == .matched

inductive Stop where
  | eof (pos : ℕ)
  | fault (f : Fault)
deriving DecidableEq

def liftFault {α : Type} : Except Fault α → Except Stop α
  | .ok a => .ok a
  | .error f => .error (.fault f)

structure Scan where
  range : ℕ
  code : ℕ
  pos : ℕ

def normalizeCheck (buf : List UInt8) (s : Scan) : Except Stop Scan :=
  if s.range < kTopValue then
    if buf.length ≤ s.pos then .error (.eof s.pos)
    else do
      let b ← liftFault (byteAt buf s.pos)
      .ok { range := u32 (s.range <<< 8), code := u32 (s.code <<< 8) ||| b, pos := s.pos + 1 }
  else .ok s

def getBitCheck (probs : Array ℕ) (buf : List UInt8) (slot : ℕ) (s : Scan) :
    Except Stop (Bool × Scan) := do
  let ttt ← liftFault (get probs slot)
  let s ← normalizeCheck buf s
  let bound := boundOf s.range ttt
  if s.code < bound then .ok (false, { s with range := bound })
  else do
    let range ← liftFault (sub s.range bound)
    let code ← liftFault (sub s.code bound)
    .ok (true, { s with range, code })

/-- `TREE_DECODE_CHECK`: bits are appended until `limit` is reached. -/
def treeCheck (probs : Array ℕ) (buf : List UInt8) (prob limit : ℕ) :
    ℕ → ℕ → Scan → Except Stop (ℕ × Scan)
  | 0, _, _ => .error (.fault .fuel)
  | fuel + 1, i, s => do
      let (bit, s) ← getBitCheck probs buf (prob + i) s
      let i := i + i + bit.toNat
      if limit ≤ i then .ok (i, s) else treeCheck probs buf prob limit fuel i s

def matchedCheck (probs : Array ℕ) (buf : List UInt8) (prob : ℕ) :
    ℕ → ℕ → ℕ → ℕ → Scan → Except Stop Scan
  | 0, _, _, _, _ => .error (.fault .fuel)
  | fuel + 1, symbol, matchByte, offs, s => do
      let matchByte := matchByte + matchByte
      let bit := offs
      let offs := offs &&& matchByte
      let (b, s) ← getBitCheck probs buf (prob + (offs + bit + symbol)) s
      let symbol := symbol + symbol + b.toNat
      let offs := if b then offs else offs ^^^ bit
      if 0x100 ≤ symbol then .ok s else matchedCheck probs buf prob fuel symbol matchByte offs s

def directCheck (buf : List UInt8) : ℕ → Scan → Except Stop Scan
  | 0, s => .ok s
  | n + 1, s => do
      let s ← normalizeCheck buf s
      let range := s.range >>> 1
      let mask := wrappingSub32 (wrappingSub32 s.code range >>> 31) 1
      let code ← liftFault (sub s.code (range &&& mask))
      directCheck buf n { s with range, code }

def revCheck (probs : Array ℕ) (buf : List UInt8) (prob : ℕ) :
    ℕ → ℕ → ℕ → Scan → Except Stop Scan
  | 0, _, _, s => .ok s
  | n + 1, i, m, s => do
      let (bit, s) ← getBitCheck probs buf (prob + i) s
      revCheck probs buf prob n (if bit then i + (m + m) else i + m) (m + m) s

def litProb (p : LzmaDec) : Except Stop ℕ :=
  if p.checkDicSize ≠ 0 ∨ p.processedPos ≠ 0 then do
    let at' ← liftFault (sub (if p.dicPos = 0 then p.dicBufSize else p.dicPos) 1)
    let prev ← liftFault (get p.dic at')
    .ok (literal + lzmaLitSize *
      (((p.processedPos &&& ((1 <<< p.prop.lp) - 1)) <<< p.prop.lc)
        + (prev.toNat >>> (8 - p.prop.lc))))
  else .ok literal

def litCheck (p : LzmaDec) (buf : List UInt8) (s : Scan) : Except Stop Scan := do
  let probBase ← litProb p
  if p.state < kNumLitStates then do
    let (_, s) ← treeCheck p.probs buf probBase 0x100 0x100 1 s
    .ok s
  else do
    let at' := wrappingAdd64 (wrappingSub64 p.dicPos p.reps.rep0)
      (if p.dicPos < p.reps.rep0 then p.dicBufSize else 0)
    let matchByte ← liftFault (get p.dic at')
    matchedCheck p.probs buf probBase 0x100 1 matchByte.toNat 0x100 s

/-- The length coder; the three trees differ in their root, size and offset. -/
def lenCheck (p : LzmaDec) (buf : List UInt8) (probBase posState : ℕ) (s : Scan) :
    Except Stop (ℕ × Scan) := do
  let (bit, s) ← getBitCheck p.probs buf (probBase + lenChoice) s
  let (probLen, offset, limit, s) ← if !bit then
      .ok (probBase + (lenLow + posState), 0, 1 <<< kLenNumLowBits, s)
    else do
      let (bit, s) ← getBitCheck p.probs buf (probBase + lenChoice2) s
      if !bit then
        .ok (probBase + (lenLow + posState + (1 <<< kLenNumLowBits)), kLenNumLowSymbols,
          1 <<< kLenNumLowBits, s)
      else .ok (probBase + lenHigh, kLenNumLowSymbols * 2, 1 <<< kLenNumHighBits, s)
  let (len, s) ← treeCheck p.probs buf probLen limit limit 1 s
  let len ← liftFault (sub len limit)
  .ok (len + offset, s)

def distanceCheck (p : LzmaDec) (buf : List UInt8) (len : ℕ) (s : Scan) :
    Except Stop Scan := do
  let temp := (if len < kNumLenToPosStates - 1 then len else kNumLenToPosStates - 1)
    <<< kNumPosSlotBits
  let (i, s) ← treeCheck p.probs buf (posSlot + temp) (1 <<< kNumPosSlotBits)
    (1 <<< kNumPosSlotBits) 1 s
  let slot ← liftFault (sub i (1 <<< kNumPosSlotBits))
  if kStartPosModelIndex ≤ slot then do
    let numDirectBits ← liftFault (sub (slot >>> 1) 1)
    if slot < kEndPosModelIndex then
      revCheck p.probs buf (specPos + ((2 ||| (slot &&& 1)) <<< numDirectBits)) numDirectBits 1 1 s
    else do
      let numDirectBits ← liftFault (sub numDirectBits kNumAlignBits)
      let s ← directCheck buf numDirectBits s
      revCheck p.probs buf align kNumAlignBits 1 1 s
  else .ok s

/-- The symbol up to, and without, its last normalisation. -/
def dummySymbol (p : LzmaDec) (buf : List UInt8) (s : Scan) : Except Stop (Dummy × Scan) := do
  let posState := (p.processedPos &&& ((1 <<< p.prop.pb) - 1)) <<< 4
  let (bit, s) ← getBitCheck p.probs buf (isMatch + (posState + p.state)) s
  if !bit then do
    let s ← litCheck p buf s
    .ok (.lit, s)
  else do
    let (bit, s) ← getBitCheck p.probs buf (isRep + p.state) s
    if !bit then do
      let (len, s) ← lenCheck p buf lenCoder posState s
      let s ← distanceCheck p buf len s
      .ok (.matched, s)
    else do
      let (bit, s) ← getBitCheck p.probs buf (isRepG0 + p.state) s
      if !bit then do
        let (bit, s) ← getBitCheck p.probs buf (isRep0Long + (posState + p.state)) s
        if !bit then .ok (.rep, s)
        else do
          let (_, s) ← lenCheck p buf repLenCoder posState s
          .ok (.rep, s)
      else do
        let (bit, s) ← getBitCheck p.probs buf (isRepG1 + p.state) s
        let s ← if !bit then .ok s else do
          let (_, s) ← getBitCheck p.probs buf (isRepG2 + p.state) s
          .ok s
        let (_, s) ← lenCheck p buf repLenCoder posState s
        .ok (.rep, s)

/-- The kind of the next symbol and how many bytes of `buf` it takes. -/
def lzmaDecTryDummy (p : LzmaDec) (buf : List UInt8) : Except Fault (Dummy × ℕ) :=
  let scanned := do
    let (res, s) ← dummySymbol p buf { range := p.range, code := p.code, pos := 0 }
    let s ← normalizeCheck buf s
    .ok (res, s)
  match scanned with
  | .ok (res, s) => .ok (res, s.pos)
  | .error (.eof pos) => .ok (.inputEof, pos)
  | .error (.fault f) => .error f

end LzmaTurbo.Lzma
