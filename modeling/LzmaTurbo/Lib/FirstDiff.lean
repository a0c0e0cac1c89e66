import Mathlib.Data.Nat.Bitwise
import Mathlib.Data.List.Basic
import Mathlib.Tactic.Linarith

/-!
# The first place where a test fails

A scan goes on while a test holds, at most so many places. Two byte strings are
scanned a word at a time: read with the first byte lowest, the words' exclusive
or has its lowest set bit in the first byte that differs.
-/
namespace LzmaTurbo.FirstDiff

/-- The first of `n` places from `i` on where `p` fails, or the place after them. -/
def stop (p : ℕ → Bool) : ℕ → ℕ → ℕ
  | 0, i => i
  | n + 1, i => if p i then stop p n (i + 1) else i

section
variable {p q : ℕ → Bool} {n i j k : ℕ}

theorem stop_le (p : ℕ → Bool) (n i : ℕ) : stop p n i ≤ i + n := by
  induction n generalizing i with
  | zero => exact le_rfl
  | succ n ih =>
      unfold stop
      split
      · have := ih (i + 1)
        omega
      · exact Nat.le_add_right _ _

theorem stop_fails (h : stop p n i < i + n) : p (stop p n i) = false := by
  induction n generalizing i with
  | zero => exact absurd h (Nat.lt_irrefl _)
  | succ n ih =>
      unfold stop at h ⊢
      by_cases hp : p i = true
      · rw [if_pos hp] at h ⊢
        exact ih (by omega)
      · rw [if_neg hp]
        simpa using hp

theorem stop_holds (h1 : i ≤ j) (h2 : j < stop p n i) : p j = true := by
  induction n generalizing i with
  | zero =>
      have : j < i := h2
      omega
  | succ n ih =>
      unfold stop at h2
      by_cases hp : p i = true
      · rw [if_pos hp] at h2
        rcases Nat.eq_or_lt_of_le h1 with rfl | hlt
        · exact hp
        · exact ih hlt h2
      · rw [if_neg hp] at h2
        omega

theorem stop_shift (h : ∀ j, i ≤ j → j < i + n → p j = q (j + k)) :
    stop p n i + k = stop q n (i + k) := by
  induction n generalizing i with
  | zero => rfl
  | succ n ih =>
      unfold stop
      rw [h i le_rfl (by omega)]
      split
      · rw [ih fun j h1 h2 => h j (by omega) (by omega), Nat.add_right_comm]
      · rfl

end

/-- Bytes as a number, the first lowest. -/
def leWord : List UInt8 → ℕ
  | [] => 0
  | b :: bs => b.toNat + 2 ^ 8 * leWord bs

/-- The bits below the lowest set one, among `w`. -/
def trailingZeros : ℕ → ℕ → ℕ
  | 0, _ => 0
  | w + 1, x => if x % 2 = 1 then 0 else trailingZeros w (x / 2) + 1

/-- How many bytes two strings have in common at their start. -/
def commonLen : List UInt8 → List UInt8 → ℕ
  | a :: as, b :: bs => if a = b then commonLen as bs + 1 else 0
  | _, _ => 0

section
variable {as bs : List UInt8} {a b x : ℕ}

theorem xor_byte (ha : a < 2 ^ 8) (hb : b < 2 ^ 8) (m n : ℕ) :
    (a + 2 ^ 8 * m) ^^^ (b + 2 ^ 8 * n) = (a ^^^ b) + 2 ^ 8 * (m ^^^ n) := by
  have hx : a ^^^ b < 2 ^ 8 := Nat.xor_lt_two_pow ha hb
  apply Nat.eq_of_testBit_eq
  intro i
  rw [Nat.testBit_xor, Nat.add_comm a, Nat.add_comm b, Nat.add_comm (a ^^^ b),
    Nat.testBit_two_pow_mul_add m ha, Nat.testBit_two_pow_mul_add n hb,
    Nat.testBit_two_pow_mul_add (m ^^^ n) hx]
  split <;> rw [Nat.testBit_xor]

theorem trailingZeros_byte {w : ℕ} (hx : x ≠ 0) (hlt : x < 2 ^ 8) (m : ℕ) :
    trailingZeros (w + 8) (x + 2 ^ 8 * m) < 8 := by
  have hbit : ∀ k w x, x ≠ 0 → x < 2 ^ k → ∀ m, trailingZeros (w + k) (x + 2 ^ k * m) < k := by
    intro k
    induction k with
    | zero => intro w x h0 h1; omega
    | succ k ih =>
        intro w x h0 h1 m
        have hhalf : (x + 2 ^ (k + 1) * m) / 2 = x / 2 + 2 ^ k * m := by
          rw [Nat.pow_succ, Nat.mul_comm (2 ^ k) 2, Nat.mul_assoc, Nat.add_mul_div_left _ _ two_pos]
        have hodd : (x + 2 ^ (k + 1) * m) % 2 = x % 2 := by
          rw [Nat.pow_succ, Nat.mul_comm (2 ^ k) 2, Nat.mul_assoc, Nat.add_mul_mod_self_left]
        rw [← Nat.add_assoc, trailingZeros, hodd, hhalf]
        split
        · exact Nat.succ_pos k
        · rw [Nat.pow_succ] at h1
          exact Nat.succ_lt_succ (ih w (x / 2) (by omega) (by omega) m)
  exact hbit 8 w x hx hlt m

theorem trailingZeros_shift (w m : ℕ) :
    trailingZeros (w + 8) (2 ^ 8 * m) = trailingZeros w m + 8 := by
  have hbit : ∀ k, trailingZeros (w + k) (2 ^ k * m) = trailingZeros w m + k := by
    intro k
    induction k with
    | zero => rw [Nat.pow_zero, Nat.one_mul, Nat.add_zero, Nat.add_zero]
    | succ k ih =>
        have heven : 2 ^ (k + 1) * m % 2 = 0 := by
          rw [Nat.pow_succ, Nat.mul_comm (2 ^ k) 2, Nat.mul_assoc, Nat.mul_mod_right]
        have hhalf : 2 ^ (k + 1) * m / 2 = 2 ^ k * m := by
          rw [Nat.pow_succ, Nat.mul_comm (2 ^ k) 2, Nat.mul_assoc, Nat.mul_div_cancel_left _ two_pos]
        rw [← Nat.add_assoc, trailingZeros, if_neg (by omega), hhalf, ih, Nat.add_assoc]
  exact hbit 8

/-- The lowest set bit of two words' exclusive or is in the first byte that differs. -/
theorem word_diff (hlen : as.length = bs.length) :
    (leWord as ^^^ leWord bs = 0 → commonLen as bs = as.length) ∧
    (leWord as ^^^ leWord bs ≠ 0 →
      trailingZeros (8 * as.length) (leWord as ^^^ leWord bs) / 8 = commonLen as bs ∧
      commonLen as bs < as.length) := by
  induction as generalizing bs with
  | nil =>
      obtain rfl : bs = [] := List.eq_nil_of_length_eq_zero hlen.symm
      exact ⟨fun _ => rfl, fun h => absurd rfl h⟩
  | cons a as ih =>
      rcases bs with _ | ⟨b, bs⟩
      · cases hlen
      obtain ⟨ih0, ih1⟩ := ih (Nat.succ.inj hlen)
      rw [leWord, leWord, xor_byte a.toNat_lt b.toNat_lt]
      by_cases hab : a = b
      · subst hab
        rw [Nat.xor_self, Nat.zero_add, commonLen, if_pos rfl, List.length_cons]
        refine ⟨fun h => by rw [ih0 (by omega)], fun h => ?_⟩
        obtain ⟨h1, h2⟩ := ih1 (by omega)
        rw [Nat.mul_add, Nat.mul_one, trailingZeros_shift, Nat.add_div_right _ (by norm_num), h1]
        exact ⟨rfl, Nat.succ_lt_succ h2⟩
      · have hne : a.toNat ^^^ b.toNat ≠ 0 := fun h =>
          hab (UInt8.toNat_inj.mp (Nat.xor_eq_zero_iff.mp h))
        rw [commonLen, if_neg hab, List.length_cons]
        refine ⟨fun h => absurd h (by omega), fun _ => ⟨?_, Nat.succ_pos _⟩⟩
        rw [Nat.mul_add, Nat.mul_one]
        exact Nat.div_eq_of_lt (trailingZeros_byte hne
          (Nat.xor_lt_two_pow a.toNat_lt b.toNat_lt) _)

theorem commonLen_cons (a b : UInt8) (as bs : List UInt8) :
    commonLen (a :: as) (b :: bs) = if a = b then commonLen as bs + 1 else 0 := rfl

theorem commonLen_append (hlen : as.length = bs.length) (h : commonLen as bs = as.length)
    (xs ys : List UInt8) : commonLen (as ++ xs) (bs ++ ys) = as.length + commonLen xs ys := by
  induction as generalizing bs with
  | nil =>
      obtain rfl : bs = [] := List.eq_nil_of_length_eq_zero hlen.symm
      rw [List.nil_append, List.nil_append, List.length_nil, Nat.zero_add]
  | cons a as ih =>
      rcases bs with _ | ⟨b, bs⟩
      · cases hlen
      rw [commonLen_cons, List.length_cons] at h
      rw [List.cons_append, List.cons_append, commonLen_cons, List.length_cons]
      by_cases hab : a = b
      · rw [if_pos hab] at h ⊢
        rw [ih (Nat.succ.inj hlen) (Nat.succ.inj h), Nat.add_right_comm]
      · rw [if_neg hab] at h
        cases h

theorem commonLen_parted (hlen : as.length = bs.length) (h : commonLen as bs < as.length)
    (xs ys : List UInt8) : commonLen (as ++ xs) (bs ++ ys) = commonLen as bs := by
  induction as generalizing bs with
  | nil => exact absurd h (Nat.not_lt_zero _)
  | cons a as ih =>
      rcases bs with _ | ⟨b, bs⟩
      · cases hlen
      rw [commonLen_cons, List.length_cons] at h
      rw [List.cons_append, List.cons_append, commonLen_cons, commonLen_cons]
      by_cases hab : a = b
      · rw [if_pos hab] at h ⊢
        rw [if_pos hab, ih (Nat.succ.inj hlen) (Nat.lt_of_succ_lt_succ h)]
      · rw [if_neg hab, if_neg hab]

/-- Where two strings part is where a scan over their places stops. -/
theorem commonLen_eq_stop (hlen : as.length = bs.length) :
    commonLen as bs = stop (fun i => as[i]? == bs[i]?) as.length 0 := by
  induction as generalizing bs with
  | nil => simp [commonLen, stop]
  | cons a as ih =>
      rcases bs with _ | ⟨b, bs⟩
      · cases hlen
      rw [commonLen, List.length_cons, stop]
      simp only [List.getElem?_cons_zero]
      by_cases hab : a = b
      · rw [if_pos hab, if_pos (by rw [hab]; exact beq_self_eq_true _), ih (Nat.succ.inj hlen)]
        exact stop_shift fun j _ _ => by simp only [List.getElem?_cons_succ]
      · rw [if_neg hab, if_neg (by simpa using hab)]

end

end LzmaTurbo.FirstDiff
