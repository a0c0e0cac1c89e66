import LzmaTurbo.Filters.BcjArm

/-!
# PowerPC and SPARC instructions

Words are read with the highest byte first. An address is a multiple of four, so the
low bits of a converted word stay.
-/
namespace LzmaTurbo.Filters
open Machine BitFields

variable {v pc : ℕ}

theorem wordPc_mod (i : ℕ) (h : pc % 4 = 0) : wordPc pc i % 4 = 0 := by
  unfold wordPc wrappingAdd32 u32
  omega

theorem swapBytes_eq (v : ℕ) : swapBytes v = v / 2 ^ 24 % 2 ^ 8 + 2 ^ 8 * (v / 2 ^ 16 % 2 ^ 8) +
    2 ^ 16 * (v / 2 ^ 8 % 2 ^ 8) + 2 ^ 24 * (v % 2 ^ 8) := by
  simp only [swapBytes, le32, UInt8.toNat_ofNat']

theorem swapBytes_lt (v : ℕ) : swapBytes v < 2 ^ 32 := by
  rw [swapBytes_eq]
  omega

theorem swapBytes_fields {a b c d : ℕ} (ha : a < 2 ^ 8) (hb : b < 2 ^ 8) (hc : c < 2 ^ 8)
    (hd : d < 2 ^ 8) : swapBytes (a + 2 ^ 8 * b + 2 ^ 16 * c + 2 ^ 24 * d) =
      d + 2 ^ 8 * c + 2 ^ 16 * b + 2 ^ 24 * a := by
  rw [swapBytes_eq]
  omega

theorem swapBytes_swapBytes (hv : v < 2 ^ 32) : swapBytes (swapBytes v) = v := by
  obtain ⟨a, b, c, d, ha, hb, hc, hd, rfl⟩ : ∃ a b c d, a < 2 ^ 8 ∧ b < 2 ^ 8 ∧ c < 2 ^ 8 ∧
      d < 2 ^ 8 ∧ v = a + 2 ^ 8 * b + 2 ^ 16 * c + 2 ^ 24 * d :=
    ⟨v % 2 ^ 8, v / 2 ^ 8 % 2 ^ 8, v / 2 ^ 16 % 2 ^ 8, v / 2 ^ 24 % 2 ^ 8, by omega, by omega,
      by omega, by omega, by omega⟩
  rw [swapBytes_fields ha hb hc hd, swapBytes_fields hd hc hb ha]

theorem ppc_test (hv : v < 2 ^ 32) : wrappingSub32 v 0x01000048 &&& 0x030000FC = 0 ↔
    swapBytes v / 2 ^ 26 = 18 ∧ swapBytes v % 4 = 1 := by
  change wrappingSub32 v 0x01000048 &&& (((2 ^ 2 - 1) * 2 ^ 24) ||| ((2 ^ 6 - 1) * 2 ^ 2)) = 0 ↔ _
  have h1 : swapBytes v / 2 ^ 26 = v % 2 ^ 8 / 4 := by
    rw [swapBytes_eq]
    omega
  have h2 : swapBytes v % 4 = v / 2 ^ 24 % 4 := by
    rw [swapBytes_eq]
    omega
  rw [and_or_eq_zero, and_field_eq_zero, and_field_eq_zero, wrappingSub32, h1, h2]
  omega

theorem ppcWord_branch (i : ℕ) (e : Bool) (hv : v < 2 ^ 32)
    (h : swapBytes v / 2 ^ 26 = 18 ∧ swapBytes v % 4 = 1) : ppcWord pc e i v =
      swapBytes (convertVal (swapBytes v) (wordPc pc i) e % 2 ^ 26 + 18 * 2 ^ 26) := by
  have hlt : ∀ x, x % 2 ^ 26 < 2 ^ 26 := fun x => Nat.mod_lt _ (by norm_num)
  have hmask : ∀ x, x &&& 0x03FFFFFF = x % 2 ^ 26 := fun x => Nat.and_two_pow_sub_one_eq_mod x 26
  have hor : ∀ x, x % 2 ^ 26 ||| 0x48000000 = 18 * 2 ^ 26 + x % 2 ^ 26 := fun x => or_add (hlt x) 18
  rw [ppcWord]
  simp only [if_pos ((ppc_test hv).mpr h), hmask, hor]
  rw [Nat.add_comm]

theorem ppcWord_undo (i : ℕ) (hpc : pc % 4 = 0) (hv : v < 2 ^ 32) :
    ppcWord pc false i (ppcWord pc true i v) = v := by
  have hp := wordPc_lt pc i
  have hp4 := wordPc_mod i hpc
  by_cases h : swapBytes v / 2 ^ 26 = 18 ∧ swapBytes v % 4 = 1
  · have hw := swapBytes_lt v
    have hback := swapBytes_swapBytes hv
    obtain ⟨c, hc⟩ : ∃ c, c = wordPc pc i := ⟨_, rfl⟩
    rw [ppcWord_branch i true hv h, ← hc]
    rw [← hc] at hp hp4
    generalize hx : convertVal (swapBytes v) c true % 2 ^ 26 + 18 * 2 ^ 26 = x
    have hxl : x < 2 ^ 32 := by omega
    have hxs := swapBytes_swapBytes hxl
    have hx4 : x / 2 ^ 26 = 18 ∧ x % 4 = 1 := by
      simp only [convertVal, wrappingAdd32, if_true] at hx
      omega
    rw [ppcWord_branch i false (swapBytes_lt x) (by rw [hxs]; exact hx4), hxs, ← hc]
    have hfin : convertVal x c false % 2 ^ 26 + 18 * 2 ^ 26 = swapBytes v := by
      simp only [convertVal, wrappingAdd32, if_true] at hx
      simp only [convertVal, wrappingSub32, Bool.false_eq_true, if_false]
      omega
    rw [hfin, hback]
  · rw [ppcWord, ppcWord, if_neg ((ppc_test hv).not.mpr h), if_neg ((ppc_test hv).not.mpr h)]


theorem rotateLeft_eq (hv : v < 2 ^ 32) : rotateLeft v 2 = v % 2 ^ 30 * 2 ^ 2 + v / 2 ^ 30 := by
  have h : u32 (v <<< 2) = v % 2 ^ 30 * 2 ^ 2 := by
    rw [u32, Nat.shiftLeft_eq]
    omega
  rw [rotateLeft, h, Nat.shiftRight_eq_div_pow]
  exact add_or (by omega) _

theorem rotateRight_eq (hv : v < 2 ^ 32) : rotateRight v 2 = v % 2 ^ 2 * 2 ^ 30 + v / 2 ^ 2 := by
  have h : u32 (v <<< (32 - 2)) = v % 2 ^ 2 * 2 ^ 30 := by
    rw [u32, Nat.shiftLeft_eq]
    omega
  rw [rotateRight, h, Nat.shiftRight_eq_div_pow]
  exact or_add (by omega) _

/-- The displacement of a branch, moved so that it is not negative, or a number too large. -/
def sparcField (v : ℕ) : ℕ := (rotateLeft (swapBytes v) 2 + (2 ^ 24 - 1)) % 2 ^ 32

theorem sparcWord_eq (i : ℕ) (e : Bool) : sparcWord pc e i v =
    if sparcField v / 2 ^ 25 = 0 ∧ sparcField v % 4 = 0 then
      swapBytes (rotateRight (wrappingSub32 (convertVal (sparcField v) (wordPc pc i) e % 2 ^ 25)
        (2 ^ 24 - 1)) 2)
    else v := by
  have hf : sparcField v < 2 ^ 32 := Nat.mod_lt _ (by norm_num)
  have htest : sparcField v &&& wrappingSub32 3 (1 <<< 22 <<< 3) = 0 ↔
      sparcField v / 2 ^ 25 = 0 ∧ sparcField v % 4 = 0 := by
    change sparcField v &&& (((2 ^ 7 - 1) * 2 ^ 25) ||| ((2 ^ 2 - 1) * 2 ^ 0)) = 0 ↔ _
    rw [and_or_eq_zero, and_field_eq_zero, and_field_eq_zero]
    omega
  have hmask : ∀ x, x &&& 1 <<< 22 <<< 3 - 1 = x % 2 ^ 25 :=
    fun x => Nat.and_two_pow_sub_one_eq_mod x 25
  have hfield : wrappingAdd32 (rotateLeft (swapBytes v) 2) (1 <<< 22 <<< 2 - 1) = sparcField v := rfl
  rw [sparcWord]
  simp only [hfield, htest, hmask]
  rfl

/-- The instruction of a displacement. -/
def sparcBack (z : ℕ) : ℕ := swapBytes (rotateRight (wrappingSub32 z (2 ^ 24 - 1)) 2)

theorem rotate_undo (hv : v < 2 ^ 32) : rotateLeft (rotateRight v 2) 2 = v ∧
    rotateRight (rotateLeft v 2) 2 = v ∧ rotateRight v 2 < 2 ^ 32 ∧ rotateLeft v 2 < 2 ^ 32 := by
  have hr : rotateRight v 2 < 2 ^ 32 := by
    rw [rotateRight_eq hv]
    omega
  have hl : rotateLeft v 2 < 2 ^ 32 := by
    rw [rotateLeft_eq hv]
    omega
  refine ⟨?_, ?_, hr, hl⟩
  · rw [rotateLeft_eq hr, rotateRight_eq hv]
    omega
  · rw [rotateRight_eq hl, rotateLeft_eq hv]
    omega

theorem sparcField_back {z : ℕ} (hz : z < 2 ^ 32) : sparcField (sparcBack z) = z := by
  have hs : wrappingSub32 z (2 ^ 24 - 1) < 2 ^ 32 := Nat.mod_lt _ (by norm_num)
  rw [sparcField, sparcBack, swapBytes_swapBytes (rotate_undo hs).2.2.1, (rotate_undo hs).1,
    wrappingSub32]
  omega

theorem sparcBack_field (hv : v < 2 ^ 32) : sparcBack (sparcField v) = v := by
  have hw := swapBytes_lt v
  have hl := (rotate_undo hw).2.2.2
  have h : wrappingSub32 (sparcField v) (2 ^ 24 - 1) = rotateLeft (swapBytes v) 2 := by
    unfold sparcField wrappingSub32
    omega
  rw [sparcBack, h, (rotate_undo hw).2.1, swapBytes_swapBytes hv]

theorem sparcWord_undo (i : ℕ) (hpc : pc % 4 = 0) (hv : v < 2 ^ 32) :
    sparcWord pc false i (sparcWord pc true i v) = v := by
  have hp := wordPc_lt pc i
  have hp4 := wordPc_mod i hpc
  by_cases h : sparcField v / 2 ^ 25 = 0 ∧ sparcField v % 4 = 0
  · obtain ⟨c, hc⟩ : ∃ c, c = wordPc pc i := ⟨_, rfl⟩
    rw [← hc] at hp hp4
    rw [sparcWord_eq i true, if_pos h, ← hc]
    obtain ⟨z, hz⟩ : ∃ z, z = convertVal (sparcField v) c true % 2 ^ 25 := ⟨_, rfl⟩
    have hzl : z < 2 ^ 25 ∧ z % 4 = 0 := by
      simp only [convertVal, wrappingAdd32, if_true] at hz
      omega
    have hfz : sparcField (sparcBack z) = z := sparcField_back (by omega)
    rw [← hz, ← sparcBack, sparcWord_eq i false, hfz, if_pos (by omega), ← hc]
    have hfin : convertVal z c false % 2 ^ 25 = sparcField v := by
      simp only [convertVal, wrappingAdd32, if_true] at hz
      simp only [convertVal, wrappingSub32, Bool.false_eq_true, if_false]
      omega
    rw [hfin, ← sparcBack, sparcBack_field hv]
  · rw [sparcWord_eq i true, if_neg h, sparcWord_eq i false, if_neg h]

theorem sparc_range {w : ℕ} (h1 : (w % 2 ^ 30 * 2 ^ 2 + w / 2 ^ 30 + (2 ^ 24 - 1)) % 2 ^ 32 / 2 ^ 25 = 0)
    (h2 : (w % 2 ^ 30 * 2 ^ 2 + w / 2 ^ 30 + (2 ^ 24 - 1)) % 2 ^ 32 % 4 = 0) (hw : w < 2 ^ 32) :
    w / 2 ^ 24 = 0x40 ∧ w / 2 ^ 22 % 4 = 0 ∨ w / 2 ^ 24 = 0x7F ∧ w / 2 ^ 22 % 4 = 3 := by
  have ha : w % 2 ^ 30 < 2 ^ 30 := Nat.mod_lt _ (by norm_num)
  have hb : w / 2 ^ 30 < 4 := by omega
  have hsplit : w = w / 2 ^ 30 * 2 ^ 30 + w % 2 ^ 30 := by omega
  generalize w % 2 ^ 30 = a at *
  generalize w / 2 ^ 30 = b at *
  have hb1 : b = 1 := by omega
  subst hb1
  have hr : a < 2 ^ 22 ∨ 2 ^ 30 - 2 ^ 22 ≤ a := by omega
  clear h1 h2
  omega

/-- A displacement in range is seen in the first two bytes. -/
theorem sparcTest_of_field (hv : v < 2 ^ 32) (h1 : sparcField v / 2 ^ 25 = 0)
    (h2 : sparcField v % 4 = 0) : sparcTest v = true := by
  have hand : v % 2 ^ 16 &&& 0xC0FF = v / 2 ^ 14 % 2 ^ 2 * 2 ^ 14 + v % 2 ^ 8 := by
    change v % 2 ^ 16 &&& (((2 ^ 2 - 1) * 2 ^ 14) ||| ((2 ^ 8 - 1) * 2 ^ 0)) = _
    rw [Nat.and_or_distrib_left, and_field, and_field, add_or (by omega)]
    omega
  have hwl := swapBytes_lt v
  rw [sparcField, rotateLeft_eq hwl] at h1 h2
  have hr := sparc_range h1 h2 hwl
  clear h1 h2
  obtain ⟨a, b, c, d, ha, hb, hc, hd, rfl⟩ : ∃ a b c d, a < 2 ^ 8 ∧ b < 2 ^ 8 ∧ c < 2 ^ 8 ∧
      d < 2 ^ 8 ∧ v = a + 2 ^ 8 * b + 2 ^ 16 * c + 2 ^ 24 * d :=
    ⟨v % 2 ^ 8, v / 2 ^ 8 % 2 ^ 8, v / 2 ^ 16 % 2 ^ 8, v / 2 ^ 24 % 2 ^ 8, by omega, by omega,
      by omega, by omega, by omega⟩
  rw [swapBytes_fields ha hb hc hd] at hr
  unfold sparcTest
  rw [decide_eq_true_iff]
  simp only [hand]
  have h0 : (a + 2 ^ 8 * b + 2 ^ 16 * c + 2 ^ 24 * d) % 2 ^ 8 = a := by omega
  have h14 : (a + 2 ^ 8 * b + 2 ^ 16 * c + 2 ^ 24 * d) / 2 ^ 14 % 2 ^ 2 = b / 2 ^ 6 := by
    have : (a + 2 ^ 8 * b + 2 ^ 16 * c + 2 ^ 24 * d) / 2 ^ 14 = b / 2 ^ 6 + 4 * (c + 2 ^ 8 * d) := by
      clear hr hand
      omega
    clear hr hand
    omega
  have h24 : (d + 2 ^ 8 * c + 2 ^ 16 * b + 2 ^ 24 * a) / 2 ^ 24 = a := by omega
  have h22 : (d + 2 ^ 8 * c + 2 ^ 16 * b + 2 ^ 24 * a) / 2 ^ 22 % 4 = b / 2 ^ 6 := by
    have : (d + 2 ^ 8 * c + 2 ^ 16 * b + 2 ^ 24 * a) / 2 ^ 22 = b / 2 ^ 6 + 4 * a := by
      clear hr hand
      omega
    clear hr hand
    omega
  rw [h24, h22] at hr
  rw [h0, h14]
  clear hand hv hwl h0 h14 h22 h24
  omega

theorem sparc_searched (x8664 : Bool) (pc i : ℕ) (e : Bool) (hv : v < 2 ^ 32) :
    searched x8664 sparcTest (sparcWord pc e) i v = sparcWord pc e i v := by
  unfold searched
  split
  next ht =>
      have hf : ¬ sparcTest v = true := by
        intro h
        rw [h] at ht
        simp at ht
      rw [sparcWord_eq i e, if_neg fun h => hf (sparcTest_of_field hv h.1 h.2)]
  next => rfl

end LzmaTurbo.Filters
