import LzmaTurbo.Lib.ExactCoder

/-!
# Bytes held back for a carry

A coder that is not sure of a byte holds it back, with the `0xFF`s behind it. Bytes out, byte
held back and `low` are one number, whatever the carry will be.
-/
namespace LzmaTurbo.ExactCoder

theorem value_replicate_full (n : ℕ) : value (List.replicate n 255) + 1 = 256 ^ n := by
  induction n with
  | zero => rfl
  | succ n ih =>
      rw [List.replicate_succ', value_snoc, pow_succ, ← ih]
      change value (List.replicate n 255) * 256 + 255 + 1 = _
      omega

theorem value_replicate_zero (n : ℕ) : value (List.replicate n 0) = 0 := by
  induction n with
  | zero => rfl
  | succ n ih => rw [List.replicate_succ', value_snoc, ih]; rfl

/-- The pending bytes `0xFF` and the cached byte go out as one number, carry or not. -/
theorem value_pushed {w : List UInt8} {high : ℕ} (hh : high < 2) {c : ℕ} (hc : c + high ≤ 255)
    (k : ℕ) :
    value (w ++ UInt8.ofNat (c + high) :: List.replicate k (UInt8.ofNat (high + 255))) + 1 =
      (value w * 256 + (c + 1)) * 256 ^ k + high := by
  have hbyte : (UInt8.ofNat (c + high)).toNat = c + high := UInt8.toNat_ofNat_of_lt' (by
    change c + high < 256
    omega)
  rw [List.append_cons, value_append, value_snoc, hbyte, List.length_replicate]
  obtain rfl | rfl : high = 0 ∨ high = 1 := by omega
  · have hfull : value (List.replicate k (UInt8.ofNat (0 + 255))) + 1 = 256 ^ k :=
      value_replicate_full k
    rw [Nat.add_assoc, hfull]
    ring
  · have hzero : value (List.replicate k (UInt8.ofNat (1 + 255))) = 0 := value_replicate_zero k
    rw [hzero, Nat.add_zero]

section
variable {σ : Type} {w : List UInt8} {cache n low : ℕ} {e : Exact σ}

/-- The interval with one more digit made. -/
def Exact.wider (e : Exact σ) : Exact σ :=
  { e with low := e.low * 256, range := e.range * 256, digits := e.digits + 1 }

/-- Its lower end alone. -/
def Exact.point (e : Exact σ) : Exact σ := { e with range := 1 }

/-- The bytes `w` that are out, the byte held back, `n` bytes `0xFF` and `low` read as a
number are the lower end of `e`, and `e` does not reach past the bytes that are out. -/
structure Pending (w : List UInt8) (cache n low : ℕ) (e : Exact σ) : Prop where
  cache_lt : cache < 256
  digits : e.digits = w.length + n
  sums : e.low + 2 ^ 32 = (value w * 256 + (cache + 1)) * 256 ^ n * 2 ^ 32 + low
  sum_le : low + e.range ≤ 2 ^ 33
  cone : e.low + e.range ≤ (value w + 1) * 256 * 256 ^ n * 2 ^ 32

/-- A carry is at most one, and the byte held back has room for it. -/
theorem Pending.fits (h : Pending w cache n low e) (hr : 0 < e.range) :
    low / 2 ^ 32 ≤ 1 ∧ cache + low / 2 ^ 32 ≤ 255 := by
  have h1 := h.sum_le
  have h2 := h.cache_lt
  have h3 := h.sums
  have h4 := h.cone
  refine ⟨by omega, ?_⟩
  by_contra hlt
  have hc : cache = 255 := by omega
  rw [hc, show (value w * 256 + (255 + 1)) * 256 ^ n = (value w + 1) * 256 * 256 ^ n by ring]
    at h3
  omega

/-- A narrower interval with the same bytes out. -/
theorem Pending.narrow (h : Pending w cache n low e) {m : ℕ} {e' : Exact σ}
    (hd : e'.digits = e.digits) (hl : e'.low = e.low + m)
    (hr : e'.low + e'.range ≤ e.low + e.range) : Pending w cache n (low + m) e' where
  cache_lt := h.cache_lt
  digits := hd.trans h.digits
  sums := by
    have := h.sums
    omega
  sum_le := by
    have := h.sum_le
    omega
  cone := hr.trans h.cone

/-- The bytes held back go out, with the carry. -/
theorem Pending.push (h : Pending w cache n low e) (hr : 0 < e.range) (hs : e.range ≤ 2 ^ 24)
    (hout : low % 2 ^ 32 < 0xFF000000 ∨ low / 2 ^ 32 ≠ 0) :
    Pending (w ++ UInt8.ofNat (cache + low / 2 ^ 32) ::
        List.replicate n (UInt8.ofNat (low / 2 ^ 32 + 255)))
      (low % 2 ^ 32 / 2 ^ 24) 0 (low % 2 ^ 24 * 256) e.wider := by
  obtain ⟨hhigh, hcache⟩ := h.fits hr
  have hval := value_pushed (w := w) (show low / 2 ^ 32 < 2 by omega) hcache n
  have hlow := h.sums
  have hcone := h.cone
  have hdigits := h.digits
  have hsum := h.sum_le
  have hw : (value w * 256 + (cache + 1)) * 256 ^ n =
      value (w ++ UInt8.ofNat (cache + low / 2 ^ 32) ::
        List.replicate n (UInt8.ofNat (low / 2 ^ 32 + 255))) + 1 - low / 2 ^ 32 := by
    omega
  refine ⟨by omega, ?_, ?_, ?_, ?_⟩
  · simp only [Exact.wider, List.length_append, List.length_cons, List.length_replicate]
    omega
  · rw [hw] at hlow
    generalize value (w ++ _) = v at hval hlow ⊢
    simp only [Exact.wider, pow_zero, mul_one]
    omega
  · simp only [Exact.wider]
    omega
  · rw [hw] at hlow
    generalize value (w ++ _) = v at hval hlow ⊢
    simp only [Exact.wider, pow_zero, mul_one]
    omega

/-- One more byte waits. -/
theorem Pending.wait (h : Pending w cache n low e) (hs : e.range ≤ 2 ^ 24)
    (hwait : ¬(low % 2 ^ 32 < 0xFF000000 ∨ low / 2 ^ 32 ≠ 0)) :
    Pending w cache (n + 1) (low % 2 ^ 24 * 256) e.wider := by
  have hlow := h.sums
  have hcone := h.cone
  have hdigits := h.digits
  refine ⟨h.cache_lt, ?_, ?_, ?_, ?_⟩
  · simp only [Exact.wider]
    omega
  · simp only [Exact.wider, pow_succ]
    rw [show (value w * 256 + (cache + 1)) * (256 ^ n * 256) =
      (value w * 256 + (cache + 1)) * 256 ^ n * 256 by ring]
    omega
  · simp only [Exact.wider]
    omega
  · simp only [Exact.wider, pow_succ]
    rw [show (value w + 1) * 256 * (256 ^ n * 256) = (value w + 1) * 256 * 256 ^ n * 256 by ring]
    omega

theorem Pending.point (h : Pending w cache n low e) (hr : 0 < e.range) :
    Pending w cache n low e.point :=
  h.narrow (m := 0) rfl (Nat.add_zero _).symm (by
    change e.low + 1 ≤ e.low + e.range
    omega)

end
end LzmaTurbo.ExactCoder
