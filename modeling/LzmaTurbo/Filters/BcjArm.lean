import LzmaTurbo.Filters.Bcj
import LzmaTurbo.Lib.BitFields

/-!
# ARM and ARM64 instructions

What a conversion does to a word is written with remainders, and the other direction
takes it back. A page instruction in range is given by a page number and a register.
-/
namespace LzmaTurbo.Filters
open Machine BitFields

variable {v pc : ℕ}

theorem wordPc_lt (pc i : ℕ) : wordPc pc i < 2 ^ 32 := Nat.mod_lt _ (by norm_num)

theorem armWord_branch (pc i : ℕ) (e : Bool) (h : v / 2 ^ 24 = 0xEB) : armWord pc e i v =
    convertVal v ((wordPc pc i + 8) % 2 ^ 32 / 4) e % 2 ^ 24 + 0xEB * 2 ^ 24 := by
  have hlt : ∀ x, x % 2 ^ 24 < 2 ^ 24 := fun x => Nat.mod_lt _ (by norm_num)
  have hmask : ∀ x, x &&& 0x00FFFFFF = x % 2 ^ 24 := fun x => Nat.and_two_pow_sub_one_eq_mod x 24
  have hor : ∀ x, x % 2 ^ 24 ||| 0xEB000000 = 0xEB * 2 ^ 24 + x % 2 ^ 24 :=
    fun x => or_add (hlt x) 0xEB
  rw [armWord]
  simp only [if_pos h, hmask, hor, Nat.shiftRight_eq_div_pow]
  exact Nat.add_comm _ _

theorem armWord_undo (pc i v : ℕ) :
    armWord pc false i (armWord pc true i v) = v := by
  by_cases h : v / 2 ^ 24 = 0xEB
  · rw [armWord_branch pc i true h, armWord_branch _ _ _ (by omega)]
    simp only [convertVal, wrappingAdd32, wrappingSub32, Bool.false_eq_true, if_true, if_false]
    omega
  · rw [armWord, armWord, if_neg h, if_neg h]

theorem arm64_branch (hv : v < 2 ^ 32) :
    wrappingSub32 v 0x94000000 &&& 0xFC000000 = 0 ↔ v / 2 ^ 26 = 37 := by
  change wrappingSub32 v 0x94000000 &&& ((2 ^ 6 - 1) * 2 ^ 26) = 0 ↔ _
  rw [and_field_eq_zero, wrappingSub32]
  omega

theorem arm64_page (hv : v < 2 ^ 32) :
    wrappingSub32 v 0x90000000 &&& 0x9F000000 = 0 ↔ v / 2 ^ 31 = 1 ∧ v / 2 ^ 24 % 32 = 16 := by
  change wrappingSub32 v 0x90000000 &&& (((2 ^ 1 - 1) * 2 ^ 31) ||| ((2 ^ 5 - 1) * 2 ^ 24)) = 0 ↔ _
  rw [and_or_eq_zero, and_field_eq_zero, and_field_eq_zero, wrappingSub32]
  omega

theorem or_page {t : ℕ} (ht : t < 8) : 9 * 2 ^ 28 ||| t * 2 ^ 29 = 9 * 2 ^ 28 + t % 4 * 2 ^ 29 := by
  have h : ∀ t < 8, 9 * 2 ^ 28 ||| t * 2 ^ 29 = 9 * 2 ^ 28 + t % 4 * 2 ^ 29 := by decide
  exact h t ht

theorem page_top (t : ℕ) : (9 + t * 2) * 2 ^ 28 = 0x90000000 + t * 2 ^ 29 := by
  omega

theorem arm64_page_word (pc i : ℕ) (e : Bool) (hv : v < 2 ^ 32) (h1 : v / 2 ^ 26 ≠ 37)
    (h2 : v / 2 ^ 31 = 1 ∧ v / 2 ^ 24 % 32 = 16) :
    arm64Word pc e i v =
      if (v % 2 ^ 24 + 2 ^ 20) / 2 ^ 21 % 2 ^ 3 = 0 then
        let z := convertVal (v - 0x90000000 + 2 ^ 20 - v % 32 + v / 2 ^ 29 % 4 * 8)
          (wordPc pc i / 2 ^ 12 * 8) e
        v % 32 + 0x90000000 + z / 8 % 4 * 2 ^ 29 +
          (z % 2 ^ 21 + 2 ^ 32 - 2 ^ 20) % 2 ^ 32 / 2 ^ 5 % 2 ^ 19 * 2 ^ 5
      else v := by
  have hflag : 1 <<< (24 - 4) = 2 ^ 20 := rfl
  have hmask : (1 <<< 24) - (2 ^ 20 <<< 1) = (2 ^ 3 - 1) * 2 ^ 21 := rfl
  have hlow : 2 ^ 20 <<< 1 - 1 = 2 ^ 21 - 1 := rfl
  have h7 : not32 7 = (2 ^ 29 - 1) * 2 ^ 3 := rfl
  have hv2 : wrappingAdd32 (wrappingSub32 v 0x90000000) (2 ^ 20) = v - 0x90000000 + 2 ^ 20 := by
    unfold wrappingAdd32 wrappingSub32
    omega
  rw [arm64Word]
  simp only [hflag, hmask, hlow, h7, hv2]
  rw [if_neg ((arm64_branch hv).not.mpr h1), if_pos ((arm64_page hv).mpr h2)]
  have hc : wordPc pc i >>> (12 - 3) &&& (2 ^ 29 - 1) * 2 ^ 3 = wordPc pc i / 2 ^ 12 * 8 := by
    have hp := wordPc_lt pc i
    rw [and_field, Nat.shiftRight_eq_div_pow]
    omega
  have hz : (v - 0x90000000 + 2 ^ 20 &&& 0xFFFFFFE0) ||| (v - 0x90000000 + 2 ^ 20) >>> 26 =
      v - 0x90000000 + 2 ^ 20 - v % 32 + v / 2 ^ 29 % 4 * 8 := by
    have h5 : v - 0x90000000 + 2 ^ 20 &&& 0xFFFFFFE0 =
        (v - 0x90000000 + 2 ^ 20) / 2 ^ 5 % 2 ^ 27 * 2 ^ 5 := and_field _ 5 27
    rw [h5, add_or (by rw [Nat.shiftRight_eq_div_pow]; omega), Nat.shiftRight_eq_div_pow]
    omega
  rw [hc, hz]
  have hnz : (v - 0x90000000 + 2 ^ 20 &&& (2 ^ 3 - 1) * 2 ^ 21 ≠ 0) ↔
      ¬ (v % 2 ^ 24 + 2 ^ 20) / 2 ^ 21 % 2 ^ 3 = 0 := by
    rw [ne_eq, and_field_eq_zero]
    omega
  by_cases hm : (v % 2 ^ 24 + 2 ^ 20) / 2 ^ 21 % 2 ^ 3 = 0
  · rw [if_neg (by rw [hnz]; exact not_not.mpr hm), if_pos hm]
    generalize hzz : convertVal (v - 0x90000000 + 2 ^ 20 - v % 32 + v / 2 ^ 29 % 4 * 8)
      (wordPc pc i / 2 ^ 12 * 8) e = z
    have hz8 : z % 8 = 0 ∧ z < 2 ^ 32 := by
      have hp := wordPc_lt pc i
      rw [← hzz]
      unfold convertVal wrappingAdd32 wrappingSub32
      split <;> omega
    have h1f : v - 0x90000000 + 2 ^ 20 &&& 0x1F = v % 32 := by
      rw [show (0x1F : ℕ) = 2 ^ 5 - 1 from rfl, Nat.and_two_pow_sub_one_eq_mod]
      omega
    have hzs : u32 (z <<< 26) = z / 8 % 8 * 2 ^ 29 := by
      rw [u32, Nat.shiftLeft_eq]
      omega
    have hsx : 0x00FFFFE0 &&& wrappingSub32 (z &&& 2 ^ 21 - 1) (2 ^ 20) =
        (z % 2 ^ 21 + 2 ^ 32 - 2 ^ 20) % 2 ^ 32 / 2 ^ 5 % 2 ^ 19 * 2 ^ 5 := by
      rw [Nat.and_comm, Nat.and_two_pow_sub_one_eq_mod]
      exact and_field _ 5 19
    rw [h1f, hzs, hsx, Nat.or_assoc (v % 32), show (0x90000000 : ℕ) = 9 * 2 ^ 28 from rfl,
      or_page (by omega)]
    generalize hw : (z % 2 ^ 21 + 2 ^ 32 - 2 ^ 20) % 2 ^ 32 / 2 ^ 5 % 2 ^ 19 = w
    have hw' : w < 2 ^ 19 := by omega
    have hsplit : 9 * 2 ^ 28 + z / 8 % 8 % 4 * 2 ^ 29 = (9 + z / 8 % 4 * 2) * 2 ^ 28 := by omega
    have hlow5 : v % 32 ||| w * 2 ^ 5 = w * 2 ^ 5 + v % 32 := or_add (by omega) w
    have hlow24 : w * 2 ^ 5 + v % 32 < 2 ^ 28 := by omega
    rw [hsplit, Nat.or_comm (v % 32), Nat.or_assoc, hlow5, add_or hlow24]
    rw [page_top]
    omega
  · rw [if_pos (hnz.mpr hm), if_neg hm]

theorem arm64_branch_word (pc i : ℕ) (e : Bool) (hv : v < 2 ^ 32) (h : v / 2 ^ 26 = 37) :
    arm64Word pc e i v = convertVal v (wordPc pc i / 4) e % 2 ^ 26 + 37 * 2 ^ 26 := by
  have hlt : ∀ x, x % 2 ^ 26 < 2 ^ 26 := fun x => Nat.mod_lt _ (by norm_num)
  have hmask : ∀ x, x &&& 0x03FFFFFF = x % 2 ^ 26 := fun x => Nat.and_two_pow_sub_one_eq_mod x 26
  have hor : ∀ x, x % 2 ^ 26 ||| 0x94000000 = 37 * 2 ^ 26 + x % 2 ^ 26 := fun x => or_add (hlt x) 37
  rw [arm64Word]
  simp only [if_pos ((arm64_branch hv).mpr h), Nat.shiftRight_eq_div_pow, hmask, hor]
  exact Nat.add_comm _ _

theorem arm64_other (pc i : ℕ) (e : Bool) (hv : v < 2 ^ 32) (h1 : v / 2 ^ 26 ≠ 37)
    (h2 : ¬ (v / 2 ^ 31 = 1 ∧ v / 2 ^ 24 % 32 = 16)) : arm64Word pc e i v = v := by
  rw [arm64Word]
  simp only [if_neg ((arm64_branch hv).not.mpr h1), if_neg ((arm64_page hv).not.mpr h2)]

/-- The instruction with page number `n` and register `r`. -/
def page (n r : ℕ) : ℕ :=
  0x90000000 + n % 4 * 2 ^ 29 + (n / 4 % 2 ^ 16 + (2 ^ 19 - 2 ^ 15)) % 2 ^ 19 * 2 ^ 5 + r

theorem page_high (n r : ℕ) (hr : r < 32) : page n r < 2 ^ 32 ∧ page n r / 2 ^ 31 = 1 ∧
    page n r / 2 ^ 24 % 32 = 16 ∧ page n r / 2 ^ 26 ≠ 37 ∧ page n r % 32 = r := by
  have hk : (n / 4 % 2 ^ 16 + (2 ^ 19 - 2 ^ 15)) % 2 ^ 19 < 2 ^ 19 := Nat.mod_lt _ (by norm_num)
  have hl : n % 4 < 4 := Nat.mod_lt _ (by norm_num)
  unfold page
  generalize (n / 4 % 2 ^ 16 + (2 ^ 19 - 2 ^ 15)) % 2 ^ 19 = k at *
  generalize n % 4 = l at *
  omega

theorem page_wrap (a : ℕ) (ha : a < 2 ^ 16) : (a + (2 ^ 19 - 2 ^ 15)) % 2 ^ 19 =
    if a < 2 ^ 15 then a + (2 ^ 19 - 2 ^ 15) else a - 2 ^ 15 := by
  split <;> omega

/-- Every instruction in range is one of these. -/
theorem exists_page (hv : v < 2 ^ 32) (h : v / 2 ^ 31 = 1 ∧ v / 2 ^ 24 % 32 = 16)
    (hm : (v % 2 ^ 24 + 2 ^ 20) / 2 ^ 21 % 2 ^ 3 = 0) :
    ∃ n < 2 ^ 18, v = page n (v % 32) := by
  obtain ⟨l, k, r, hl, hk, hr, rfl⟩ : ∃ l k r, l < 4 ∧ k < 2 ^ 19 ∧ r < 32 ∧
      v = 0x90000000 + l * 2 ^ 29 + k * 2 ^ 5 + r :=
    ⟨v / 2 ^ 29 % 4, v / 2 ^ 5 % 2 ^ 19, v % 32, by omega, by omega, by omega, by omega⟩
  have hx : (0x90000000 + l * 2 ^ 29 + k * 2 ^ 5 + r) % 2 ^ 24 = k * 2 ^ 5 + r := by omega
  have hr' : (0x90000000 + l * 2 ^ 29 + k * 2 ^ 5 + r) % 32 = r := by omega
  rw [hx] at hm
  rw [hr']
  clear hv h hx hr'
  refine ⟨(k + 2 ^ 15) % 2 ^ 16 * 4 + l, by omega, ?_⟩
  have h1 : ((k + 2 ^ 15) % 2 ^ 16 * 4 + l) % 4 = l := by omega
  have h2 : ((k + 2 ^ 15) % 2 ^ 16 * 4 + l) / 4 % 2 ^ 16 = (k + 2 ^ 15) % 2 ^ 16 := by omega
  have h3 : k < 2 ^ 15 ∨ 2 ^ 19 - 2 ^ 15 ≤ k := by omega
  rw [page, h1, h2, page_wrap _ (Nat.mod_lt _ (by norm_num))]
  clear hm h1 h2
  rcases h3 with h3 | h3
  · have h4 : (k + 2 ^ 15) % 2 ^ 16 = k + 2 ^ 15 := by omega
    rw [h4, if_neg (by omega), Nat.add_sub_cancel]
  · have h4 : (k + 2 ^ 15) % 2 ^ 16 = k - (2 ^ 19 - 2 ^ 15) := by omega
    rw [h4, if_pos (by omega), Nat.sub_add_cancel h3]

theorem page_sign (z : ℕ) : (z % 2 ^ 21 + 2 ^ 32 - 2 ^ 20) % 2 ^ 32 / 2 ^ 5 % 2 ^ 19 =
    (z / 2 ^ 5 % 2 ^ 16 + (2 ^ 19 - 2 ^ 15)) % 2 ^ 19 := by
  have hz : z % 2 ^ 21 = z / 2 ^ 5 % 2 ^ 16 * 2 ^ 5 + z % 2 ^ 5 := by omega
  have ha : z / 2 ^ 5 % 2 ^ 16 < 2 ^ 16 := Nat.mod_lt _ (by norm_num)
  have hr : z % 2 ^ 5 < 2 ^ 5 := Nat.mod_lt _ (by norm_num)
  rw [hz, page_wrap _ ha]
  generalize z / 2 ^ 5 % 2 ^ 16 = a at *
  generalize z % 2 ^ 5 = r at *
  split
  · have h : (a * 2 ^ 5 + r + 2 ^ 32 - 2 ^ 20) % 2 ^ 32 = a * 2 ^ 5 + r + 2 ^ 32 - 2 ^ 20 := by omega
    rw [h]
    omega
  · have h : (a * 2 ^ 5 + r + 2 ^ 32 - 2 ^ 20) % 2 ^ 32 = a * 2 ^ 5 + r - 2 ^ 20 := by omega
    rw [h]
    omega

/-- The distance read from `page n r`. -/
def pageZ (n : ℕ) : ℕ :=
  n % 4 * 2 ^ 29 + (n / 4 % 2 ^ 16 + (2 ^ 19 - 2 ^ 15)) % 2 ^ 19 * 2 ^ 5 + 2 ^ 20 + n % 4 * 8

theorem pageZ_eq (n : ℕ) : pageZ n % 8 = 0 ∧ pageZ n / 8 % 2 ^ 18 = n % 2 ^ 18 := by
  have ha : n / 4 % 2 ^ 16 < 2 ^ 16 := Nat.mod_lt _ (by norm_num)
  have hn : n % 2 ^ 18 = n / 4 % 2 ^ 16 * 4 + n % 4 := by omega
  rw [pageZ, page_wrap _ ha, hn]
  generalize n / 4 % 2 ^ 16 = a at *
  generalize n % 4 = l at *
  split <;> omega

/-- The page number after a conversion. -/
def pageMove (q n : ℕ) (e : Bool) : ℕ := (if e then n + q else n + (2 ^ 29 - q)) % 2 ^ 18

theorem arm64_page_move (pc i n r : ℕ) (e : Bool) (hr : r < 32) :
    arm64Word pc e i (page n r) = page (pageMove (wordPc pc i / 2 ^ 12) n e) r := by
  obtain ⟨h1, h2, h3, h4, h5⟩ := page_high n r hr
  have hcond : (page n r % 2 ^ 24 + 2 ^ 20) / 2 ^ 21 % 2 ^ 3 = 0 := by
    have ha : n / 4 % 2 ^ 16 < 2 ^ 16 := Nat.mod_lt _ (by norm_num)
    rw [page, page_wrap _ ha]
    generalize n / 4 % 2 ^ 16 = a at *
    generalize n % 4 = l at *
    split <;> omega
  have hZ : page n r - 0x90000000 + 2 ^ 20 - page n r % 32 + page n r / 2 ^ 29 % 4 * 8 = pageZ n := by
    rw [h5, page, pageZ]
    have hk : (n / 4 % 2 ^ 16 + (2 ^ 19 - 2 ^ 15)) % 2 ^ 19 < 2 ^ 19 := Nat.mod_lt _ (by norm_num)
    have hl : n % 4 < 4 := Nat.mod_lt _ (by norm_num)
    generalize (n / 4 % 2 ^ 16 + (2 ^ 19 - 2 ^ 15)) % 2 ^ 19 = k at *
    generalize n % 4 = l at *
    omega
  rw [arm64_page_word pc i e h1 h4 ⟨h2, h3⟩, if_pos hcond, hZ, h5]
  simp only [page_sign]
  obtain ⟨hz8, hzn⟩ := pageZ_eq n
  have hp := wordPc_lt pc i
  have hmove : convertVal (pageZ n) (wordPc pc i / 2 ^ 12 * 8) e / 8 % 2 ^ 18 =
      pageMove (wordPc pc i / 2 ^ 12) n e := by
    generalize pageZ n = Z at *
    generalize wordPc pc i = w at *
    obtain ⟨y, rfl⟩ : ∃ y, Z = 8 * y := ⟨Z / 8, by omega⟩
    have hy : y % 2 ^ 18 = n % 2 ^ 18 := by omega
    have hq : w / 2 ^ 12 < 2 ^ 20 := by omega
    generalize w / 2 ^ 12 = q at *
    cases e
    · simp only [convertVal, wrappingSub32, pageMove, Bool.false_eq_true, if_false]
      omega
    · simp only [convertVal, wrappingAdd32, pageMove, if_true]
      omega
  generalize convertVal (pageZ n) (wordPc pc i / 2 ^ 12 * 8) e = z at *
  rw [page, ← hmove]
  have e1 : z / 8 % 2 ^ 18 % 4 = z / 8 % 4 := by omega
  have e2 : z / 8 % 2 ^ 18 / 4 % 2 ^ 16 = z / 2 ^ 5 % 2 ^ 16 := by omega
  rw [e1, e2]
  omega

theorem pageMove_undo (q n : ℕ) (hq : q < 2 ^ 20) (hn : n < 2 ^ 18) :
    pageMove q (pageMove q n true) false = n := by
  simp only [pageMove, Bool.false_eq_true, if_false, if_true]
  omega

theorem arm64Word_undo (pc i : ℕ) (hv : v < 2 ^ 32) :
    arm64Word pc false i (arm64Word pc true i v) = v := by
  have hp := wordPc_lt pc i
  by_cases h1 : v / 2 ^ 26 = 37
  · rw [arm64_branch_word pc i true hv h1, arm64_branch_word pc i false (by omega) (by omega)]
    simp only [convertVal, wrappingAdd32, wrappingSub32, Bool.false_eq_true, if_false, if_true]
    omega
  by_cases h2 : v / 2 ^ 31 = 1 ∧ v / 2 ^ 24 % 32 = 16
  · by_cases hm : (v % 2 ^ 24 + 2 ^ 20) / 2 ^ 21 % 2 ^ 3 = 0
    · obtain ⟨n, hn, hpage⟩ := exists_page hv h2 hm
      have hr : v % 32 < 32 := Nat.mod_lt _ (by norm_num)
      rw [hpage, arm64_page_move _ _ _ _ _ hr, arm64_page_move _ _ _ _ _ hr,
        pageMove_undo _ _ (by omega) hn]
    · have hsame : ∀ e, arm64Word pc e i v = v := fun e => by
        rw [arm64_page_word pc i e hv h1 h2, if_neg hm]
      rw [hsame, hsame]
  · rw [arm64_other pc i true hv h1 h2, arm64_other pc i false hv h1 h2]

theorem arm64Test_iff (v : ℕ) (hv : v < 2 ^ 32) :
    (v &&& 0xFC000000 = 0x94000000 ↔ v / 2 ^ 26 = 37) ∧
    (v &&& 0x9F000000 = 0x90000000 ↔ v / 2 ^ 31 = 1 ∧ v / 2 ^ 24 % 32 = 16) := by
  have h1 : v &&& 0xFC000000 = v / 2 ^ 26 % 2 ^ 6 * 2 ^ 26 := and_field v 26 6
  have h2 : v &&& 0x9F000000 = v / 2 ^ 31 % 2 ^ 1 * 2 ^ 31 + v / 2 ^ 24 % 2 ^ 5 * 2 ^ 24 := by
    change v &&& (((2 ^ 1 - 1) * 2 ^ 31) ||| ((2 ^ 5 - 1) * 2 ^ 24)) = _
    rw [Nat.and_or_distrib_left, and_field, and_field, add_or (by omega)]
  rw [h1, h2]
  omega

/-- The search passes over no instruction that is converted. -/
theorem arm64_searched (x8664 : Bool) (pc i : ℕ) (e : Bool) (hv : v < 2 ^ 32) :
    searched x8664 arm64Test (arm64Word pc e) i v = arm64Word pc e i v := by
  obtain ⟨h1, h2⟩ := arm64Test_iff v hv
  have htest : arm64Test v = true ↔
      v / 2 ^ 26 = 37 ∨ (v / 2 ^ 31 = 1 ∧ v / 2 ^ 24 % 32 = 16) := by
    unfold arm64Test
    rw [decide_eq_true_iff, h1, h2]
  unfold searched
  split
  next ht =>
      have hf : ¬ arm64Test v = true := by
        intro h
        rw [h] at ht
        simp at ht
      rw [htest, not_or] at hf
      exact (arm64_other pc i e hv hf.1 hf.2).symm
  next => rfl

end LzmaTurbo.Filters
