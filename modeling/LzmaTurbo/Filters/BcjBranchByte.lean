import LzmaTurbo.Filters.BcjX86

/-!
# The search for a branch byte

The words of the search have a set bit in the first branch byte and none before it, so
that the search finds what a look at every byte finds.
-/
namespace LzmaTurbo.Filters
open Machine BitFields FirstDiff Rewriter

section
variable {e : Bool} {x m n fuel off : ℕ} {bs hay : List UInt8}

/-- The place of the first branch byte. -/
def firstMark : List UInt8 → Option ℕ
  | [] => none
  | b :: bs => if x86Mark b then some 0 else (firstMark bs).map fun i => i + 1

theorem and_byte {a b : ℕ} (ha : a < 2 ^ 8) (hb : b < 2 ^ 8) (m n : ℕ) :
    (a + 2 ^ 8 * m) &&& (b + 2 ^ 8 * n) = (a &&& b) + 2 ^ 8 * (m &&& n) := by
  have hx : a &&& b < 2 ^ 8 := Nat.lt_of_le_of_lt Nat.and_le_left ha
  apply Nat.eq_of_testBit_eq
  intro i
  rw [Nat.testBit_and, Nat.add_comm a, Nat.add_comm b, Nat.add_comm (a &&& b),
    Nat.testBit_two_pow_mul_add m ha, Nat.testBit_two_pow_mul_add n hb,
    Nat.testBit_two_pow_mul_add (m &&& n) hx]
  split <;> rw [Nat.testBit_and]

theorem or_byte {a b : ℕ} (ha : a < 2 ^ 8) (hb : b < 2 ^ 8) (m n : ℕ) :
    (a + 2 ^ 8 * m) ||| (b + 2 ^ 8 * n) = (a ||| b) + 2 ^ 8 * (m ||| n) := by
  have hx : a ||| b < 2 ^ 8 := Nat.or_lt_two_pow ha hb
  apply Nat.eq_of_testBit_eq
  intro i
  rw [Nat.testBit_or, Nat.add_comm a, Nat.add_comm b, Nat.add_comm (a ||| b),
    Nat.testBit_two_pow_mul_add m ha, Nat.testBit_two_pow_mul_add n hb,
    Nat.testBit_two_pow_mul_add (m ||| n) hx]
  split <;> rw [Nat.testBit_or]

theorem leWord_lt (bs : List UInt8) : leWord bs < 2 ^ (8 * bs.length) := by
  induction bs with
  | nil => exact Nat.one_pos
  | cons b bs ih =>
      have hb := b.toNat_lt
      rw [leWord, List.length_cons, Nat.mul_succ, Nat.pow_add]
      omega

/-- A byte that becomes zero for the branch bytes only. -/
def markByte (b : UInt8) : ℕ := (b.toNat ||| 1) ^^^ 0xE9

theorem markByte_lt (b : UInt8) : markByte b < 2 ^ 8 :=
  Nat.xor_lt_two_pow (Nat.or_lt_two_pow b.toNat_lt (by norm_num)) (by norm_num)

theorem markByte_zero (b : UInt8) : markByte b = 0 ↔ x86Mark b := by
  have h : ∀ x < 2 ^ 8, (x ||| 1) ^^^ 0xE9 = 0 ↔ x / 2 = 0x74 := by decide +kernel
  exact h _ b.toNat_lt

/-- The search's word made of these bytes, and the bits it tests. -/
def markWord (bs : List UInt8) : ℕ := (leWord bs ||| ones bs.length) ^^^ e9s bs.length
def markHits (bs : List UInt8) : ℕ :=
  ((markWord bs + 2 ^ (8 * bs.length) - ones bs.length) % 2 ^ (8 * bs.length) &&&
    (2 ^ (8 * bs.length) - 1 - markWord bs)) &&& high bs.length

theorem ones_succ (n : ℕ) : ones (n + 1) = 1 + 2 ^ 8 * ones n := rfl
theorem e9s_succ (n : ℕ) : e9s (n + 1) = 0xE9 + 2 ^ 8 * e9s n := rfl
theorem high_succ (n : ℕ) : high (n + 1) = 0x80 + 2 ^ 8 * high n := rfl

theorem ones_lt (n : ℕ) : ones n < 2 ^ (8 * n) := by
  have h := leWord_lt (List.replicate n 0x01)
  rwa [List.length_replicate] at h

theorem markWord_cons (b : UInt8) (bs : List UInt8) :
    markWord (b :: bs) = markByte b + 2 ^ 8 * markWord bs := by
  have hor : b.toNat ||| 1 < 2 ^ 8 := Nat.or_lt_two_pow b.toNat_lt (by norm_num)
  rw [markWord, List.length_cons, leWord, ones_succ, e9s_succ,
    or_byte b.toNat_lt (by norm_num), xor_byte hor (by norm_num)]
  rfl

theorem markWord_lt (bs : List UInt8) : markWord bs < 2 ^ (8 * bs.length) := by
  induction bs with
  | nil => exact Nat.one_pos
  | cons b bs ih =>
      have hb := markByte_lt b
      rw [markWord_cons, List.length_cons, Nat.mul_succ, Nat.pow_add]
      omega

/-- One byte's part of the tested bits. -/
theorem markHits_cons (b : UInt8) (bs : List UInt8) :
    ∃ h, markHits (b :: bs) = (if markByte b = 0 then 0x80 else 0) + 2 ^ 8 * h ∧
      (markByte b ≠ 0 → h = markHits bs) := by
  have hb := markByte_lt b
  have hw := markWord_lt bs
  have ho := ones_lt bs.length
  have hpow : 2 ^ (8 * (b :: bs).length) = 2 ^ 8 * 2 ^ (8 * bs.length) := by
    rw [List.length_cons, Nat.mul_succ, Nat.pow_add, Nat.mul_comm]
  have hpos := Nat.two_pow_pos (8 * bs.length)
  have hnot : 2 ^ (8 * (b :: bs).length) - 1 - markWord (b :: bs) =
      (2 ^ 8 - 1 - markByte b) + 2 ^ 8 * (2 ^ (8 * bs.length) - 1 - markWord bs) := by
    rw [hpow, markWord_cons]
    generalize 2 ^ (8 * bs.length) = P at *
    omega
  by_cases h0 : markByte b = 0
  · obtain ⟨u, hsub⟩ : ∃ u, (markWord (b :: bs) + 2 ^ (8 * (b :: bs).length) - ones (b :: bs).length) %
        2 ^ (8 * (b :: bs).length) = (2 ^ 8 - 1) + 2 ^ 8 * u := by
      refine ⟨(markWord bs + 2 ^ (8 * bs.length) - ones bs.length - 1) % 2 ^ (8 * bs.length), ?_⟩
      have hval : markWord (b :: bs) + 2 ^ (8 * (b :: bs).length) - ones (b :: bs).length =
          (2 ^ 8 - 1) + 2 ^ 8 * (markWord bs + 2 ^ (8 * bs.length) - ones bs.length - 1) := by
        rw [hpow, markWord_cons, List.length_cons, ones_succ, h0]
        generalize 2 ^ (8 * bs.length) = P at *
        omega
      have hlow : (2 ^ 8 - 1) % 2 ^ 8 = 2 ^ 8 - 1 := rfl
      have hdiv : (2 ^ 8 - 1) / 2 ^ 8 = 0 := rfl
      rw [hval, hpow, Nat.mod_mul, Nat.add_mul_mod_self_left, Nat.add_mul_div_left _ _ (by norm_num),
        hlow, hdiv, Nat.zero_add]
    refine ⟨(u &&& (2 ^ (8 * bs.length) - 1 - markWord bs)) &&& high bs.length, ?_,
      fun h => absurd h0 h⟩
    rw [markHits, hsub, hnot, h0, List.length_cons, high_succ, and_byte (by norm_num) (by norm_num),
      and_byte (by decide) (by norm_num), if_pos rfl]
    rfl
  · refine ⟨markHits bs, ?_, fun _ => rfl⟩
    have hval : markWord (b :: bs) + 2 ^ (8 * (b :: bs).length) - ones (b :: bs).length =
        (markByte b - 1) + 2 ^ 8 * (markWord bs + 2 ^ (8 * bs.length) - ones bs.length) := by
      rw [hpow, markWord_cons, List.length_cons, ones_succ]
      generalize 2 ^ (8 * bs.length) = P at *
      omega
    have hlow : (markByte b - 1) % 2 ^ 8 = markByte b - 1 := Nat.mod_eq_of_lt (by omega)
    have hdiv : (markByte b - 1) / 2 ^ 8 = 0 := Nat.div_eq_of_lt (by omega)
    have hbyte : ∀ x < 2 ^ 8, x ≠ 0 → ((x - 1) &&& (2 ^ 8 - 1 - x)) &&& 0x80 = 0 := by decide +kernel
    have hand : (markByte b - 1) &&& (2 ^ 8 - 1 - markByte b) < 2 ^ 8 :=
      Nat.lt_of_le_of_lt Nat.and_le_left (by omega)
    rw [markHits, hval, hpow, Nat.mod_mul, Nat.add_mul_mod_self_left,
      Nat.add_mul_div_left _ _ (by norm_num), hlow, hdiv, Nat.zero_add, ← hpow, hnot,
      List.length_cons, high_succ, and_byte (by omega) (by omega), and_byte hand (by norm_num),
      hbyte _ hb h0, if_neg h0]
    rfl

theorem firstMark_word (bs : List UInt8) :
    firstMark bs = if markHits bs = 0 then none
      else some (trailingZeros (8 * bs.length) (markHits bs) / 8) := by
  induction bs with
  | nil => rfl
  | cons b bs ih =>
      obtain ⟨h, hcons, hrest⟩ := markHits_cons b bs
      rw [firstMark]
      by_cases h0 : markByte b = 0
      · rw [if_pos h0] at hcons
        rw [if_pos ((markByte_zero b).mp h0), hcons, if_neg (by omega), List.length_cons, Nat.mul_succ,
          Nat.div_eq_of_lt (trailingZeros_byte (by norm_num) (by norm_num) h)]
      · rw [if_neg h0, Nat.zero_add, hrest h0] at hcons
        rw [if_neg (mt (markByte_zero b).mpr h0), ih, hcons]
        by_cases hz : markHits bs = 0
        · rw [if_pos hz, if_pos (by omega)]
          rfl
        · rw [if_neg hz, if_neg (by omega), List.length_cons, Nat.mul_succ, trailingZeros_shift,
            Nat.add_div_right _ (by norm_num)]
          rfl

theorem firstMark_append (as bs : List UInt8) :
    firstMark (as ++ bs) = (firstMark as).or ((firstMark bs).map fun i => as.length + i) := by
  induction as with
  | nil => simp [firstMark]
  | cons a as ih =>
      rw [List.cons_append, firstMark, firstMark, ih]
      by_cases ha : x86Mark a
      · rw [if_pos ha, if_pos ha]
        rfl
      · rw [if_neg ha, if_neg ha]
        cases firstMark as with
        | none =>
            cases firstMark bs with
            | none => rfl
            | some i => simp [Nat.add_right_comm]
        | some i => rfl

theorem branchByteScalar_eq (hay : List UInt8) : branchByteScalar hay = firstMark hay := by
  induction hay with
  | nil => rfl
  | cons b bs ih =>
      have hmark : (b == 0xE8 || b == 0xE9) = decide (x86Mark b) := by
        have hb := b.toNat_lt
        have h8 : b = 0xE8 ↔ b.toNat = 0xE8 := by
          rw [← UInt8.toNat_inj]
          rfl
        have h9 : b = 0xE9 ↔ b.toNat = 0xE9 := by
          rw [← UInt8.toNat_inj]
          rfl
        rw [Bool.eq_iff_iff, Bool.or_eq_true, beq_iff_eq, beq_iff_eq, decide_eq_true_iff, h8, h9,
          x86Mark]
        omega
      rw [firstMark, ← ih, branchByteScalar, List.findIdx?_cons, hmark]
      by_cases hb : x86Mark b
      · simp [hb]
      · simp [hb, branchByteScalar]

theorem findBranchLoop_eq (hfuel : hay.length < fuel) :
    findBranchLoop fuel hay off = (firstMark hay).map fun i => off + i := by
  induction fuel generalizing hay off with
  | zero => omega
  | succ fuel ih =>
      rw [findBranchLoop]
      by_cases hlen : 8 ≤ hay.length
      · rw [if_pos hlen]
        have htake : (hay.take 8).length = 8 := by
          rw [List.length_take]
          omega
        have hhits : branchHits (leWord (hay.take 8)) = markHits (hay.take 8) := by
          rw [markHits, markWord, htake]
          rfl
        have hword := firstMark_word (hay.take 8)
        have happ := firstMark_append (hay.take 8) (hay.drop 8)
        rw [List.take_append_drop, hword, htake] at happ
        simp only [hhits]
        rw [happ]
        by_cases hz : markHits (hay.take 8) = 0
        · rw [if_neg (not_not.mpr hz), if_pos hz, ih (by rw [List.length_drop]; omega)]
          cases firstMark (hay.drop 8) with
          | none => rfl
          | some i => simp [Nat.add_assoc]
        · rw [if_pos hz, if_neg hz]
          rfl
      · rw [if_neg hlen, branchByteScalar_eq]

theorem findBranchByte_eq (hay : List UInt8) : findBranchByte hay = firstMark hay := by
  rw [findBranchByte, findBranchLoop_eq (Nat.lt_succ_self _)]
  cases firstMark hay with
  | none => rfl
  | some i => simp

end

end LzmaTurbo.Filters
