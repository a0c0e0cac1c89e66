import LzmaTurbo.Filters.BcjKernels
import LzmaTurbo.Filters.DeltaCalls
import Mathlib.Data.Nat.Notation
import Mathlib.Logic.Function.Basic

/-!
# BCJ2: branches, and the decoder

Four streams: the bytes outside converted branches, the targets of calls, those of jumps,
and a range-coded bit for every branch opcode. The decoder stops for want of any of them
or of room, in the middle of a target too, and goes on from there.

A pointer and its limit are the slice between them. `range`, `code` and the probabilities
are natural numbers; `code` wraps at 32 bits.
-/
namespace LzmaTurbo.Filters

/-- `NUM_STREAMS`. -/
def bcj2NumStreams : ℕ := 4
/-- `STREAM_MAIN`. -/
def streamMain : ℕ := 0
/-- `STREAM_CALL`. -/
def streamCall : ℕ := 1
/-- `STREAM_JUMP`. -/
def streamJump : ℕ := 2
/-- `STREAM_RC`. -/
def streamRc : ℕ := 3

/-- `TOP_VALUE`. -/
def bcj2TopValue : ℕ := 0x1000000
/-- `BIT_MODEL_TOTAL`. -/
def bcj2BitModelTotal : ℕ := 2048

inductive Bcj2Error where
  | data
  | unalignedStream
deriving Repr, DecidableEq

/-- `is_32bit_stream`. -/
def is32bitStream (state : ℕ) : Bool := state == streamCall || state == streamJump

def isBranchByte (b : UInt32) : Bool := ((b + (0x100 - 0xE8)) &&& 0xFE) == 0

def isLongJump (v : UInt32) : Bool := ((v - 0x0F000080) &&& 0xFFFFFFF0) == 0

/-- `prob_index`. -/
def probIndex (v : UInt32) : ℕ :=
  let c : UInt32 := ((v + 0x17) >>> 6) &&& 1
  let before : UInt32 := (v >>> 24) &&& 0xFF
  let bit : UInt32 := (v >>> 5) &&& 1
  (((0 - c) &&& before) + c + bit).toNat

/-- `branch_stream`. -/
def branchStream (v : UInt32) : ℕ :=
  let bit : UInt32 := ((v + 0x57) >>> 6) &&& 1
  bit.toNat + streamCall

/-- `get_be32`. -/
def getBe32 (a b c d : UInt8) : UInt32 :=
  a.toUInt32 <<< 24 ||| b.toUInt32 <<< 16 ||| c.toUInt32 <<< 8 ||| d.toUInt32

/-- The bytes written last, behind the next. -/
def rolled (v : UInt32) (b : UInt8) : UInt32 := (v <<< 24) ||| b.toUInt32

/-- The two tests of `ONE_ITER`. -/
def isMarker (v : UInt32) (b : UInt8) : Bool := isBranchByte b.toUInt32 || isLongJump (rolled v b)

/-- Up to `n` turns of `ONE_ITER`: how many bytes, the context behind them, and whether the
last is a marker. -/
def scanMain : ℕ → List UInt8 → UInt32 → ℕ × UInt32 × Bool
  | n + 1, b :: src, v =>
      if isMarker v b then (1, rolled v b, true)
      else
        let rest := scanMain n src (rolled v b)
        (rest.1 + 1, rest.2)
  | _, _, v => (0, v, false)

/-- A way to scan the main stream: it never goes past the slice, and a marker is a byte. -/
structure MainScan where
  scan : List UInt8 → ℕ → UInt32 → ℕ × UInt32 × Bool
  le_length : ∀ src room v, (scan src room v).1 ≤ src.length
  found_pos : ∀ src room v, (scan src room v).2.2 = true → 0 < (scan src room v).1

theorem scanMain_bounds (n : ℕ) (src : List UInt8) (v : UInt32) :
    (scanMain n src v).1 ≤ src.length ∧ (scanMain n src v).1 ≤ n ∧
      ((scanMain n src v).2.2 = true → 0 < (scanMain n src v).1) ∧
      ((scanMain n src v).2.2 = false → n ≤ src.length → (scanMain n src v).1 = n) := by
  fun_induction scanMain n src v with
  | case1 n b src v hm => simp
  | case2 n b src v hm rest ih =>
      obtain ⟨hsrc, hn, -, hwhole⟩ := ih
      refine ⟨Nat.succ_le_succ hsrc, Nat.succ_le_succ hn, fun _ => Nat.succ_pos _,
        fun hf hle => ?_⟩
      exact congrArg (· + 1) (hwhole hf (Nat.le_of_succ_le_succ hle))
  | case3 n src v hne =>
      refine ⟨by simp, by simp, by simp, fun _ hle => ?_⟩
      cases n with
      | zero => rfl
      | succ n =>
          cases src with
          | nil => simp at hle
          | cons b src => exact (hne n b src rfl rfl).elim

theorem scanMain_add (m n : ℕ) (src : List UInt8) (v : UInt32) (hm : m ≤ src.length) :
    scanMain (m + n) src v =
      if (scanMain m src v).2.2 then scanMain m src v
      else ((scanMain n (src.drop m) (scanMain m src v).2.1).1 + m,
        (scanMain n (src.drop m) (scanMain m src v).2.1).2) := by
  induction m generalizing src v with
  | zero => simp [scanMain]
  | succ m ih =>
      cases src with
      | nil => simp at hm
      | cons b src =>
          rw [Nat.succ_add, scanMain, scanMain]
          by_cases hb : isMarker v b
          · simp [hb]
          · simp only [hb, List.drop_succ_cons]
            rw [ih src (rolled v b) (by simpa using hm)]
            by_cases hf : (scanMain m src (rolled v b)).2.2
            · simp [hf]
            · simp [hf, Nat.add_assoc]

/-- The loop of `copy_main`: four turns while four bytes are left, then the rest. -/
def copyMainLoop (n : ℕ) (src : List UInt8) (v : UInt32) : ℕ × UInt32 × Bool :=
  if 4 ≤ n then
    let four := scanMain 4 src v
    if four.2.2 then four
    else
      let rest := copyMainLoop (n - 4) (src.drop 4) four.2.1
      (rest.1 + 4, rest.2)
  else scanMain n src v

def copyMain (src : List UInt8) (room : ℕ) (v : UInt32) : ℕ × UInt32 × Bool :=
  copyMainLoop (min src.length room) src v

theorem copyMainLoop_eq (n : ℕ) (src : List UInt8) (v : UInt32) (hn : n ≤ src.length) :
    copyMainLoop n src v = scanMain n src v := by
  fun_induction copyMainLoop n src v with
  | case1 n src v h4 four hf =>
      rw [show n = 4 + (n - 4) by omega, scanMain_add _ _ _ _ (by omega), if_pos hf]
  | case2 n src v h4 four hf rest ih =>
      rw [show n = 4 + (n - 4) by omega, scanMain_add _ _ _ _ (by omega), if_neg hf]
      exact congrArg (fun r => (r.1 + 4, r.2)) (ih (by rw [List.length_drop]; omega))
  | case3 => rfl

theorem copyMain_eq (src : List UInt8) (room : ℕ) (v : UInt32) :
    copyMain src room v = scanMain (min src.length room) src v :=
  copyMainLoop_eq _ _ _ (Nat.min_le_left _ _)

def copyMainScan : MainScan where
  scan := copyMain
  le_length src room v := by
    rw [copyMain_eq]
    exact (scanMain_bounds _ _ _).1
  found_pos src room v h := by
    rw [copyMain_eq] at h ⊢
    exact (scanMain_bounds _ _ _).2.2.1 h

/-- A bound neither nothing nor the whole range leaves enough on both sides of it. -/
theorem bound_splits {range p : ℕ} (hp : 31 ≤ p ∧ p ≤ 2017) (hrange : 0x1000000 ≤ range) :
    0x10000 ≤ range / bcj2BitModelTotal * p ∧ 0x10000 ≤ range - range / bcj2BitModelTotal * p := by
  have hbound : 0x2000 * 31 ≤ range / 2048 * p := Nat.mul_le_mul (by omega) hp.1
  have hrest : range / 2048 * p ≤ range / 2048 * 2017 := Nat.mul_le_mul_left _ hp.2
  change 0x10000 ≤ range / 2048 * p ∧ 0x10000 ≤ range - range / 2048 * p
  omega

theorem half_stays : 31 ≤ bcj2BitModelTotal / 2 ∧ bcj2BitModelTotal / 2 ≤ 2017 := by decide

theorem update_stays {probs : ℕ → ℕ} (h : ∀ i, 31 ≤ probs i ∧ probs i ≤ 2017) (k : ℕ) {p : ℕ}
    (hp : 31 ≤ p ∧ p ≤ 2017) (i : ℕ) :
    31 ≤ Function.update probs k p i ∧ Function.update probs k p i ≤ 2017 := by
  by_cases hi : i = k
  · rwa [hi, Function.update_self]
  · rw [Function.update_of_ne hi]
    exact h i

end LzmaTurbo.Filters
