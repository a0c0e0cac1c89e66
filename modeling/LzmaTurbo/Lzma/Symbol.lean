import LzmaTurbo.Lib.BitProgram
import LzmaTurbo.Lzma.Consts
import Mathlib.Tactic.Ring
import Mathlib.Tactic.NormNum

/-!
# The LZMA symbol as a bit program

One symbol of the format, written once, with no input buffer, no dictionary
buffer and no limits: which model is asked next is a function of the bits so
far. The two decoders of the source are compared with this program.
-/
namespace LzmaTurbo.Lzma
open BitProgram

/-- A decoded symbol; lengths are real lengths, distances start at zero. -/
inductive Symbol where
  | lit (b : UInt8)
  | shortRep
  | rep (index len : ℕ)
  | simple (dist len : ℕ)
deriving DecidableEq

/-- What the models of a symbol depend on. -/
structure Ctx where
  posState : ℕ
  state : ℕ
  litProb : ℕ
  matchByte : ℕ
  canRep : Bool

/-- `n` bits below node `sym`, most significant first. -/
def tree (base : ℕ) : ℕ → ℕ → Prog ℕ ℕ
  | 0, sym => .pure sym
  | n + 1, sym => .bit (base + sym) fun b => tree base n (2 * sym + b.toNat)

/-- As long as the bits agree with those of the match byte, its next bit picks
one of two further trees. -/
def matchedTree (base matchByte : ℕ) : ℕ → ℕ → Bool → Prog ℕ ℕ
  | 0, sym, _ => .pure sym
  | n + 1, sym, same =>
      .bit (base + (if same then 256 * (1 + (matchByte.testBit n).toNat) else 0) + sym) fun b =>
        matchedTree base matchByte n (2 * sym + b.toNat) (same && (matchByte.testBit n == b))

/-- `n` bits, least significant first; `m` is the weight of the next one. -/
def revBits (base : ℕ) : ℕ → ℕ → ℕ → Prog ℕ ℕ
  | 0, _, v => .pure v
  | n + 1, m, v => .bit (base + (m + v)) fun b => revBits base n (2 * m) (v + b.toNat * m)

def directProg : ℕ → ℕ → Prog ℕ ℕ
  | 0, d => .pure d
  | n + 1, d => .direct fun b => directProg n (2 * d + b.toNat)

/-- A match length less two. -/
def lenProg (base posState : ℕ) : Prog ℕ ℕ :=
  .bit (base + lenChoice) fun
    | false => (tree (base + (lenLow + 16 * posState)) 3 1).bind fun s => .pure (s - 8)
    | true => .bit (base + lenChoice2) fun
        | false => tree (base + (lenLow + 16 * posState + 8)) 3 1
        | true => (tree (base + lenHigh) 8 1).bind fun s => .pure (s - 256 + 16)

def slotProg (slot : ℕ) : Prog ℕ ℕ :=
  if slot < kStartPosModelIndex then .pure slot
  else
    let n := slot / 2 - 1
    let d := 2 + slot % 2
    if slot < kEndPosModelIndex then
      (revBits (specPos + d * 2 ^ n) n 1 0).bind fun v => .pure (d * 2 ^ n + v)
    else
      (directProg (n - 4) d).bind fun d =>
        (revBits align 4 1 0).bind fun v => .pure (16 * d + v)

def distProg (len : ℕ) : Prog ℕ ℕ :=
  (tree (posSlot + 64 * min len 3) 6 1).bind fun s => slotProg (s - 64)

def litProg (c : Ctx) : Prog ℕ Symbol :=
  (if c.state < kNumLitStates then tree c.litProb 8 1
    else matchedTree c.litProb c.matchByte 8 1 true).bind fun s => .pure (.lit (UInt8.ofNat s))

def simpleProg (c : Ctx) : Prog ℕ Symbol :=
  (lenProg lenCoder c.posState).bind fun len =>
    (distProg len).bind fun dist => .pure (.simple dist (len + 2))

def repTail (c : Ctx) (index : ℕ) : Prog ℕ Symbol :=
  (lenProg repLenCoder c.posState).bind fun len => .pure (.rep index (len + 2))

def repProg (c : Ctx) : Prog ℕ Symbol :=
  .bit (isRepG0 + c.state) fun
    | false => .bit (isRep0Long + (16 * c.posState + c.state)) fun
        | false => .pure .shortRep
        | true => repTail c 0
    | true => .bit (isRepG1 + c.state) fun
        | false => repTail c 1
        | true => .bit (isRepG2 + c.state) fun b => repTail c (2 + b.toNat)

/-- One symbol. With nothing to repeat yet a rep is forbidden as soon as it shows. -/
def symbolProg (c : Ctx) : Prog ℕ Symbol :=
  .bit (isMatch + (16 * c.posState + c.state)) fun
    | false => litProg c
    | true => .bit (isRep + c.state) fun
        | false => simpleProg c
        | true => if c.canRep then repProg c else .fail

end LzmaTurbo.Lzma
