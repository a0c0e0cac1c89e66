import LzmaTurbo.Lzma.Decode

/-!
# One iteration of the fast loop, and the loop

The loop keeps the source's order: the symbol first, the two limit checks at
the bottom, the last normalisation after it. `Flow.outer` is `break 'outer`.
-/
namespace LzmaTurbo.Lzma
open Machine

/-- What the loop reads and never writes. -/
structure Env where
  src : List UInt8
  limit : ℕ
  bufLimit : ℕ
  pbMask : ℕ
  lc : ℕ
  lpMask : ℕ
  dicBufSize : ℕ
  checkDicSize : ℕ

/-- The loop's locals. -/
structure Regs where
  rc : Rc
  state : ℕ
  reps : Reps
  dic : Array UInt8
  dicPos : ℕ
  processedPos : ℕ
  len : ℕ

inductive Flow where
  | body
  | outer
deriving DecidableEq

/-- `dic_pos - rep0`, folded into the buffer. -/
def dicIndex (dicBufSize dicPos rep0 : ℕ) : ℕ :=
  wrappingAdd64 (wrappingSub64 dicPos rep0) (if dicPos < rep0 then dicBufSize else 0)

/-- The table entry the literal tree starts at. -/
def literalProb (e : Env) (r : Regs) : Except Fault ℕ :=
  if r.processedPos ≠ 0 ∨ e.checkDicSize ≠ 0 then do
    let at' ← sub (if r.dicPos = 0 then e.dicBufSize else r.dicPos) 1
    let prev ← get r.dic at'
    let index := u32 ((wrappingAdd32 (u32 (r.processedPos <<< 8)) prev.toNat &&& e.lpMask) <<< e.lc)
    .ok (literal + 3 * index)
  else .ok literal

def decodeLiteral (e : Env) (r : Regs) : Except Fault (Flow × Regs) := do
  let prob ← literalProb e r
  let processedPos := wrappingAdd32 r.processedPos 1
  if r.state < kNumLitStates then do
    let state ← sub r.state (if r.state < 4 then r.state else 3)
    let (symbol, rc) ← treeDecode e.src prob 7 r.rc
    let dic ← put r.dic r.dicPos (UInt8.ofNat symbol)
    .ok (.body, { r with rc, state, dic, dicPos := r.dicPos + 1, processedPos })
  else do
    let matchByte ← get r.dic (dicIndex e.dicBufSize r.dicPos r.reps.rep0)
    let state ← sub r.state (if r.state < 10 then 3 else 6)
    let (symbol, rc) ← matchedLiterDec e.src prob 8 1 matchByte.toNat 0x100 r.rc
    let dic ← put r.dic r.dicPos (UInt8.ofNat symbol)
    .ok (.body, { r with rc, state, dic, dicPos := r.dicPos + 1, processedPos })

/-- The pointer copy, taken when the match source does not cross the buffer's end. -/
def copyFlat : ℕ → Array UInt8 → ℕ → ℕ → Except Fault (Array UInt8)
  | 0, dic, _, _ => .ok dic
  | n + 1, dic, dest, src => do
      let b ← get dic src
      let dic ← put dic dest b
      copyFlat n dic (dest + 1) (src + 1)

/-- The copy whose source position wraps. -/
def copyWrap (dicBufSize : ℕ) : ℕ → Array UInt8 → ℕ → ℕ → Except Fault (Array UInt8)
  | 0, dic, _, _ => .ok dic
  | n + 1, dic, dest, pos => do
      let b ← get dic pos
      let dic ← put dic dest b
      copyWrap dicBufSize n dic (dest + 1) (if pos + 1 = dicBufSize then 0 else pos + 1)

/-- The copy of a match, cut at the output limit; `len` keeps what is owed. -/
def copyMatch (e : Env) (r : Regs) : Except Fault (Flow × Regs) := do
  let len := r.len + kMatchMinLen
  let rem ← sub e.limit r.dicPos
  if rem = 0 then .ok (.outer, { r with len })
  else do
    let curLen := if rem < len then rem else len
    let pos := dicIndex e.dicBufSize r.dicPos r.reps.rep0
    let processedPos := wrappingAdd32 r.processedPos curLen
    let owed ← sub len curLen
    let room ← sub e.dicBufSize pos
    let dic ← if curLen ≤ room then copyFlat curLen r.dic r.dicPos pos
      else copyWrap e.dicBufSize curLen r.dic r.dicPos pos
    .ok (.body, { r with dic, dicPos := r.dicPos + curLen, processedPos, len := owed })

/-- From the length coder to the end of the match; states from `kNumStates` up
mark a match that carries its own distance. -/
def decodeMatch (e : Env) (r : Regs) (posState prob : ℕ) : Except Fault (Flow × Regs) := do
  let (len, rc) ← lenDecode e.src prob posState r.rc
  if kNumStates ≤ r.state then do
    let (distance, rc) ← distanceDecode e.src len rc
    if distance = 0xFFFFFFFF then do
      let state ← sub r.state kNumStates
      .ok (.outer, { r with rc, state, len := kMatchSpecLenStart })
    else do
      let reps : Reps := ⟨wrappingAdd32 distance 1, r.reps.rep0, r.reps.rep1, r.reps.rep2⟩
      let state := if r.state < kNumStates + kNumLitStates then kNumLitStates
        else kNumLitStates + 3
      if (if e.checkDicSize = 0 then r.processedPos else e.checkDicSize) ≤ distance then
        .ok (.outer, { r with rc, state, reps
                              len := len + (kMatchSpecLenErrorData + kMatchMinLen) })
      else copyMatch e { r with rc, state, reps, len }
  else copyMatch e { r with rc, len }

def decodeShortRep (e : Env) (r : Regs) : Except Fault (Flow × Regs) := do
  let b ← get r.dic (dicIndex e.dicBufSize r.dicPos r.reps.rep0)
  let dic ← put r.dic r.dicPos b
  .ok (.body, { r with
    dic, dicPos := r.dicPos + 1, processedPos := wrappingAdd32 r.processedPos 1
    state := if r.state < kNumLitStates then 9 else 11 })

/-- Which of the four distances a rep match uses. -/
def selectRep (e : Env) (r : Regs) : Except Fault (Reps × Rc) := do
  let (bit, rc) ← ifBit e.src (isRepG1 + r.state) r.rc
  if !bit then .ok (⟨r.reps.rep1, r.reps.rep0, r.reps.rep2, r.reps.rep3⟩, rc)
  else do
    let (bit, rc) ← ifBit e.src (isRepG2 + r.state) rc
    if !bit then .ok (⟨r.reps.rep2, r.reps.rep0, r.reps.rep1, r.reps.rep3⟩, rc)
    else .ok (⟨r.reps.rep3, r.reps.rep0, r.reps.rep1, r.reps.rep2⟩, rc)

/-- One symbol: the body of `'outer`. -/
def decodeSymbol (e : Env) (r : Regs) : Except Fault (Flow × Regs) := do
  let posState := (r.processedPos &&& e.pbMask) <<< 4
  let (bit, rc) ← ifBit e.src (isMatch + (posState + r.state)) r.rc
  if !bit then decodeLiteral e { r with rc }
  else do
    let (bit, rc) ← ifBit e.src (isRep + r.state) rc
    if !bit then decodeMatch e { r with rc, state := r.state + kNumStates } posState lenCoder
    else do
      let (bit, rc) ← ifBit e.src (isRepG0 + r.state) rc
      let state := if r.state < kNumLitStates then 8 else 11
      if !bit then do
        let (bit, rc) ← ifBit e.src (isRep0Long + (posState + r.state)) rc
        if !bit then decodeShortRep e { r with rc }
        else decodeMatch e { r with rc, state } posState repLenCoder
      else do
        let (reps, rc) ← selectRep e { r with rc }
        decodeMatch e { r with rc, reps, state } posState repLenCoder

/-- `'outer: loop`, with a bound on its iterations. -/
def decodeLoop (e : Env) : ℕ → Regs → Except Fault Regs
  | 0, _ => .error .fuel
  | fuel + 1, r => do
      let (flow, r) ← decodeSymbol e r
      match flow with
      | .outer => .ok r
      | .body => if r.dicPos < e.limit ∧ r.rc.buf < e.bufLimit then decodeLoop e fuel r else .ok r

structure RealResult where
  p : LzmaDec
  buf : ℕ
  ok : Bool

def envOf (p : LzmaDec) (limit : ℕ) (src : List UInt8) (bufLimit : ℕ) : Env :=
  { src, limit, bufLimit
    pbMask := (1 <<< p.prop.pb) - 1
    lc := p.prop.lc
    lpMask := (0x100 <<< p.prop.lp) - (0x100 >>> p.prop.lc)
    dicBufSize := p.dicBufSize
    checkDicSize := p.checkDicSize }

def regsOf (p : LzmaDec) : Regs :=
  { rc := { range := p.range, code := p.code, buf := 0, probs := p.probs }
    state := p.state, reps := p.reps, dic := p.dic, dicPos := p.dicPos
    processedPos := p.processedPos, len := 0 }

/-- `src` is the readable slice that starts at `buf_start`. Every iteration but
the last writes a byte, so the fuel is more than the output can use. -/
def lzmaDecDecodeReal (p : LzmaDec) (limit : ℕ) (src : List UInt8) (bufLimit : ℕ) :
    Except Fault RealResult := do
  let r ← decodeLoop (envOf p limit src bufLimit) (limit - p.dicPos + 1) (regsOf p)
  let rc ← normalize src r.rc
  .ok { p := { p with probs := rc.probs, dic := r.dic, range := rc.range, code := rc.code
                      remainLen := r.len, dicPos := r.dicPos, processedPos := r.processedPos
                      reps := r.reps, state := r.state }
        buf := rc.buf
        ok := decide (r.len < kMatchSpecLenErrorData) }

/-- Lowers `limit` so that the loop cannot cross the point where `check_dic_size`
must change. -/
def LzmaDec.clampLimit (p : LzmaDec) (limit : ℕ) : Except Fault ℕ :=
  if p.checkDicSize = 0 then do
    let rem ← sub p.prop.dictSize p.processedPos
    let room ← sub limit p.dicPos
    .ok (if rem < room then p.dicPos + rem else limit)
  else .ok limit

def lzmaDecDecodeReal2 (p : LzmaDec) (limit : ℕ) (src : List UInt8) (bufLimit : ℕ) :
    Except Fault RealResult := do
  let limit ← p.clampLimit limit
  let res ← lzmaDecDecodeReal p limit src bufLimit
  if res.p.checkDicSize = 0 ∧ p.prop.dictSize ≤ res.p.processedPos then
    .ok { res with p := { res.p with checkDicSize := p.prop.dictSize } }
  else .ok res

end LzmaTurbo.Lzma
