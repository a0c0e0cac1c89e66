import LzmaTurbo.Filters.BcjBytewise
import LzmaTurbo.Filters.BcjRoundTrip

/-!
# The searches and the word kernel change nothing

A search that passes over words passes over none that would be converted, and both
Thumb converters make the steps of one rewriter until fewer than four bytes are left.
-/
namespace LzmaTurbo.Filters
open Machine Rewriter

variable {f g : ℕ → ℕ → ℕ} {i pc : ℕ} {data : List UInt8}

theorem eachWord_congr (h : ∀ i v, v < 2 ^ 32 → f i v = g i v) (i : ℕ) (data : List UInt8) :
    eachWord f i data = eachWord g i data := by
  fun_induction eachWord f i data with
  | case1 i a b c d rest ih => rw [eachWord, ih, h i _ (le32_lt a b c d)]
  | case2 i rest hrest =>
      rw [eachWord]
      exact hrest

theorem arm64Conv_plain (x8664 : Bool) (data : List UInt8) (pc : ℕ) (encoding : Bool) :
    arm64Conv x8664 data pc encoding =
      (eachWord (arm64Word pc encoding) 0 data, data.length / 4 * 4) := by
  rw [arm64Conv, eachWord_congr fun i v hv => arm64_searched x8664 pc i encoding hv]

theorem sparcConv_plain (x8664 : Bool) (data : List UInt8) (pc : ℕ) (encoding : Bool) :
    sparcConv x8664 data pc encoding =
      (eachWord (sparcWord pc encoding) 0 data, data.length / 4 * 4) := by
  rw [sparcConv, eachWord_congr fun i v hv => sparc_searched x8664 pc i encoding hv]

/-- The two Thumb converters are one: both stop where no four bytes are left. -/
theorem armtConv_bytewise (x8664 : Bool) (data : List UInt8) (pc : ℕ) (encoding : Bool) :
    armtConv x8664 data pc encoding = armtBytewiseConv data pc encoding := by
  obtain ⟨out, left, s, hconv, hleft, -, hreach⟩ := thumb_reaches x8664 encoding pc 0 data
  obtain ⟨out', left', s', hbyte, hleft', -, hreach'⟩ := thumb_reaches false encoding pc 0 data
  obtain ⟨rfl, -, rfl⟩ := hreach.unique hreach' (thumbStep_short (by omega))
    (thumbStep_short (by omega))
  rw [hconv, ← hbyte]
  rfl

/-- With or without a search, by words or by bytes, the converters are the plain loops: every
word where it stands, and for Thumb a halfword or a long branch at a time until fewer than
four bytes are left. -/
theorem kernels_plain (x8664 : Bool) (data : List UInt8) (pc : ℕ) (encoding : Bool) :
    arm64Conv x8664 data pc encoding =
        (eachWord (arm64Word pc encoding) 0 data, data.length / 4 * 4) ∧
      sparcConv x8664 data pc encoding =
        (eachWord (sparcWord pc encoding) 0 data, data.length / 4 * 4) ∧
      armtConv x8664 data pc encoding = armtBytewiseConv data pc encoding ∧
      ∃ out left s, armtConv x8664 data pc encoding = .ok (out ++ left, out.length) ∧
        left.length < 4 ∧ (thumbRewriter encoding).Reaches (u32 pc, 0) data out s left := by
  obtain ⟨out, left, s, hconv, hleft, -, hreach⟩ := thumb_reaches x8664 encoding pc 0 data
  exact ⟨arm64Conv_plain x8664 data pc encoding, sparcConv_plain x8664 data pc encoding,
    armtConv_bytewise x8664 data pc encoding, out, left, s, hconv, Nat.lt_succ_of_le hleft, hreach⟩

end LzmaTurbo.Filters
