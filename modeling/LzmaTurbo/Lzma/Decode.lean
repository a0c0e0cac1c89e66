import LzmaTurbo.Lzma.State

/-!
# The fast decode loop

The macros of the source become functions on the locals they thread: the range
coder triple with the table (`Rc`), and the rest of the loop's locals (`Regs`).
Reading past the slice that starts at `buf_start` is a fault.
-/
namespace LzmaTurbo.Lzma
open Machine

structure Rc where
  range : ℕ
  code : ℕ
  buf : ℕ
  probs : Array ℕ

def normalize (src : List UInt8) (rc : Rc) : Except Fault Rc :=
  if rc.range < kTopValue then do
    let b ← byteAt src rc.buf
    .ok { rc with range := u32 (rc.range <<< 8), code := u32 (rc.code <<< 8) ||| b
                  buf := rc.buf + 1 }
  else .ok rc

def boundOf (range ttt : ℕ) : ℕ := u32 ((range >>> kNumBitModelTotalBits) * ttt)

def update0 (slot bound ttt : ℕ) (rc : Rc) : Except Fault Rc := do
  let gap ← sub kBitModelTotal ttt
  let probs ← put rc.probs slot (asU16 (ttt + (gap >>> kNumMoveBits) : ℕ))
  .ok { rc with range := bound, probs }

def update1 (slot bound ttt : ℕ) (rc : Rc) : Except Fault Rc := do
  let range ← sub rc.range bound
  let code ← sub rc.code bound
  let next ← sub ttt (ttt >>> kNumMoveBits)
  let probs ← put rc.probs slot (asU16 next)
  .ok { rc with range, code, probs }

/-- `ttt = *prob; NORMALIZE; bound = ..; if code < bound { UPDATE_0 } else { UPDATE_1 }`. -/
def ifBit (src : List UInt8) (slot : ℕ) (rc : Rc) : Except Fault (Bool × Rc) := do
  let ttt ← get rc.probs slot
  let rc ← normalize src rc
  let bound := boundOf rc.range ttt
  if rc.code < bound then do
    let rc ← update0 slot bound ttt rc
    .ok (false, rc)
  else do
    let rc ← update1 slot bound ttt rc
    .ok (true, rc)

def csel (mask a b : ℕ) : ℕ := b ^^^ ((a ^^^ b) &&& mask)

/-- The branch-free core of `bit_tree`, `bit_tree_last`, `matched_liter_dec` and
`rev_bit_mask`: the bit comes back as a mask. -/
def maskedBit (src : List UInt8) (slot pv : ℕ) (rc : Rc) : Except Fault (ℕ × Rc) := do
  let rc ← normalize src rc
  let bound := boundOf rc.range pv
  let m := wrappingNeg32 (if bound ≤ rc.code then 1 else 0)
  let t := asI32 (wrappingSub32 pv (kBitModelOffset &&& not32 m))
  let probs ← put rc.probs slot (asU16 (pv - (t >>> kNumMoveBits)))
  let upper ← sub rc.range bound
  let code ← sub rc.code (bound &&& m)
  .ok (m, { rc with range := csel m upper bound, code, probs })

/-- Both children are loaded before the bit is known. -/
def bitTree (src : List UInt8) (probs sym pv : ℕ) (rc : Rc) : Except Fault (ℕ × ℕ × Rc) := do
  let c0 ← get rc.probs (probs + (sym + sym))
  let c1 ← get rc.probs (probs + (sym + sym + 1))
  let (m, rc) ← maskedBit src (probs + sym) pv rc
  .ok (sym + sym + (m &&& 1), csel m c1 c0, rc)

def bitTreeLast (src : List UInt8) (probs sym pv : ℕ) (rc : Rc) : Except Fault (ℕ × Rc) := do
  let (m, rc) ← maskedBit src (probs + sym) pv rc
  .ok (sym + sym + (m &&& 1), rc)

/-- `n` expansions of `bit_tree` and one of `bit_tree_last`. -/
def bitTrees (src : List UInt8) (probs : ℕ) : ℕ → ℕ → ℕ → Rc → Except Fault (ℕ × Rc)
  | 0, sym, pv, rc => bitTreeLast src probs sym pv rc
  | n + 1, sym, pv, rc => do
      let (sym, pv, rc) ← bitTree src probs sym pv rc
      bitTrees src probs n sym pv rc

/-- A whole tree of `n + 1` levels from its root. -/
def treeDecode (src : List UInt8) (probs n : ℕ) (rc : Rc) : Except Fault (ℕ × Rc) := do
  let pv ← get rc.probs (probs + 1)
  bitTrees src probs n 1 pv rc

/-- `n` expansions of `matched_liter_dec`. -/
def matchedLiterDec (src : List UInt8) (prob : ℕ) :
    ℕ → ℕ → ℕ → ℕ → Rc → Except Fault (ℕ × Rc)
  | 0, symbol, _, _, rc => .ok (symbol, rc)
  | n + 1, symbol, matchByte, offs, rc => do
      let matchByte := matchByte + matchByte
      let bit := offs
      let offs := offs &&& matchByte
      let probLit := prob + (offs + bit + symbol)
      let pv ← get rc.probs probLit
      let (m, rc) ← maskedBit src probLit pv rc
      matchedLiterDec src prob n (symbol + symbol + (m &&& 1)) matchByte
        (offs ^^^ (bit &&& not32 m)) rc

def revBitMask (src : List UInt8) (probs i : ℕ) (rc : Rc) : Except Fault (ℕ × Rc) := do
  let pv ← get rc.probs (probs + i)
  maskedBit src (probs + i) pv rc

/-- `numDirectBits` expansions of `rev_bit_var`; the final `m` comes back too. -/
def revBitVars (src : List UInt8) (probs : ℕ) : ℕ → ℕ → ℕ → Rc → Except Fault (ℕ × ℕ × Rc)
  | 0, i, m, rc => .ok (i, m, rc)
  | n + 1, i, m, rc => do
      let (mask, rc) ← revBitMask src probs i rc
      revBitVars src probs n (i + (m + (m &&& mask))) (m + m) rc

def revBitConst (src : List UInt8) (probs i m : ℕ) (rc : Rc) : Except Fault (ℕ × Rc) := do
  let (mask, rc) ← revBitMask src probs i rc
  .ok (i + (m + (m &&& mask)), rc)

def revBitLast (src : List UInt8) (probs i m : ℕ) (rc : Rc) : Except Fault (ℕ × Rc) := do
  let (mask, rc) ← revBitMask src probs i rc
  let i ← sub i (m &&& not32 mask)
  .ok (i, rc)

/-- The direct-bit loop: `t` is the sign of the wrapped difference. -/
def directBits (src : List UInt8) : ℕ → ℕ → Rc → Except Fault (ℕ × Rc)
  | 0, distance, rc => .ok (distance, rc)
  | n + 1, distance, rc => do
      let rc ← normalize src rc
      let range := rc.range >>> 1
      let code := wrappingSub32 rc.code range
      let t := wrappingSub32 0 (code >>> 31)
      let distance := wrappingAdd32 (u32 (distance <<< 1)) (wrappingAdd32 t 1)
      let code := wrappingAdd32 code (range &&& t)
      directBits src n distance { rc with range, code }

/-- The length coder at `prob`. -/
def lenDecode (src : List UInt8) (prob posState : ℕ) (rc : Rc) : Except Fault (ℕ × Rc) := do
  let (bit, rc) ← ifBit src (prob + lenChoice) rc
  if !bit then do
    let (len, rc) ← treeDecode src (prob + (lenLow + posState)) 2 rc
    let len ← sub len 8
    .ok (len, rc)
  else do
    let (bit, rc) ← ifBit src (prob + lenChoice2) rc
    if !bit then
      treeDecode src (prob + (lenLow + posState + (1 <<< kLenNumLowBits))) 2 rc
    else do
      let (len, rc) ← treeDecode src (prob + lenHigh) (kLenNumHighBits - 1) rc
      let len ← sub len (1 <<< kLenNumHighBits)
      .ok (len + kLenNumLowSymbols * 2, rc)

/-- The distance of a simple match, minus one; `0xFFFFFFFF` is the end marker. -/
def distanceDecode (src : List UInt8) (len : ℕ) (rc : Rc) : Except Fault (ℕ × Rc) := do
  let temp := (if len < kNumLenToPosStates then len else kNumLenToPosStates - 1)
    <<< kNumPosSlotBits
  let (distance, rc) ← treeDecode src (posSlot + temp) 5 rc
  let distance ← sub distance 0x40
  if kStartPosModelIndex ≤ distance then do
    let slot := distance
    let numDirectBits ← sub (distance >>> 1) 1
    let distance := 2 ||| (distance &&& 1)
    if slot < kEndPosModelIndex then do
      let distance := distance <<< numDirectBits
      let (distance, m, rc) ← revBitVars src specPos numDirectBits (distance + 1) 1 rc
      let distance ← sub distance m
      .ok (distance, rc)
    else do
      let numDirectBits ← sub numDirectBits kNumAlignBits
      let (distance, rc) ← directBits src numDirectBits distance rc
      let distance := u32 (distance <<< kNumAlignBits)
      let (i, rc) ← revBitConst src align 1 1 rc
      let (i, rc) ← revBitConst src align i 2 rc
      let (i, rc) ← revBitConst src align i 4 rc
      let (i, rc) ← revBitLast src align i 8 rc
      .ok (distance ||| i, rc)
  else .ok (distance, rc)

end LzmaTurbo.Lzma
