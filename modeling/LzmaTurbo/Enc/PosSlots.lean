import LzmaTurbo.Enc.Price
import Mathlib.Tactic.NormNum
import Mathlib.Tactic.Ring

/-!
# The slot of a distance

The table of the first builds holds what the others take from the leading zeros.
-/
namespace LzmaTurbo.Enc
open Machine Lzma

theorem posSlotClz_eq {k pos : ℕ} (hk : k ≤ 30) (h1 : 2 ^ (k + 1) ≤ pos) (h2 : pos < 2 ^ (k + 2)) :
    posSlotClz pos = 2 * k + pos / 2 ^ k := by
  have hge : 2 ≤ 2 ^ (k + 1) := by
    rw [pow_succ]
    have : 0 < 2 ^ k := by positivity
    omega
  have hlog : Nat.log2 pos = k + 1 := (Nat.log2_eq_iff (by omega)).mpr ⟨h1, h2⟩
  unfold posSlotClz
  rw [if_neg (by omega), hlog, show 30 - (31 - (k + 1)) = k by omega]
  change k * 2 + pos >>> k = 2 * k + pos / 2 ^ k
  rw [Nat.shiftRight_eq_div_pow, mul_comm k 2]

/-- A distance from two on has a top bit and one below it. -/
theorem exists_top {pos : ℕ} (h : 2 ≤ pos) : ∃ k, 2 ^ (k + 1) ≤ pos ∧ pos < 2 ^ (k + 2) := by
  have hne : pos ≠ 0 := by omega
  have h1 := Nat.log2_self_le hne
  have h2 := Nat.lt_log2_self (n := pos)
  have hpos : Nat.log2 pos ≠ 0 := by
    intro h0
    rw [h0] at h2
    omega
  obtain ⟨k, hk⟩ : ∃ k, Nat.log2 pos = k + 1 := ⟨Nat.log2 pos - 1, by omega⟩
  rw [hk] at h1 h2
  exact ⟨k, h1, h2⟩

/-- The table after the pairs of slots below `2 * n + 2`. -/
def fastPosBlocks (n : ℕ) : List ℕ :=
  0 :: 1 :: (List.range' 2 (2 * n)).flatMap fun slot =>
    List.replicate (1 <<< ((slot >>> 1) - 1)) slot

theorem fastPosBlocks_succ (n : ℕ) : fastPosBlocks (n + 1) =
    fastPosBlocks n ++ (List.replicate (2 ^ n) (2 * n + 2) ++ List.replicate (2 ^ n) (2 * n + 3)) := by
  have hrange : List.range' 2 (2 * (n + 1)) = List.range' 2 (2 * n) ++ [2 * n + 2, 2 * n + 3] := by
    rw [show 2 * (n + 1) = 2 * n + 1 + 1 by ring, List.range'_concat, List.range'_concat,
      List.append_assoc]
    congr 1
    simp only [one_mul, List.singleton_append]
    rw [show 2 + 2 * n = 2 * n + 2 by ring, show 2 + (2 * n + 1) = 2 * n + 3 by ring]
  have heven : ((2 * n + 2) >>> 1) - 1 = n := by
    rw [Nat.shiftRight_eq_div_pow, pow_one]
    omega
  have hodd : ((2 * n + 3) >>> 1) - 1 = n := by
    rw [Nat.shiftRight_eq_div_pow, pow_one]
    omega
  unfold fastPosBlocks
  rw [hrange, List.flatMap_append]
  simp only [List.flatMap_cons, List.flatMap_nil, List.append_nil, heven, hodd, Nat.shiftLeft_eq,
    one_mul, List.cons_append]

theorem fastPosBlocks_spec (n : ℕ) (hn : n ≤ 30) : (fastPosBlocks n).length = 2 ^ (n + 1) ∧
    ∀ pos < 2 ^ (n + 1), (fastPosBlocks n)[pos]? = some (posSlotClz pos) := by
  induction n with
  | zero =>
      refine ⟨rfl, fun pos hpos => ?_⟩
      obtain rfl | rfl : pos = 0 ∨ pos = 1 := by omega
      · rfl
      · rfl
  | succ n ih =>
      obtain ⟨hlen, hget⟩ := ih (by omega)
      have hpow : 2 ^ (n + 1) = 2 * 2 ^ n := by ring
      have hpow2 : 2 ^ (n + 1 + 1) = 4 * 2 ^ n := by ring
      rw [fastPosBlocks_succ]
      refine ⟨?_, fun pos hpos => ?_⟩
      · simp only [List.length_append, List.length_replicate, hlen]
        omega
      · by_cases hlt : pos < 2 ^ (n + 1)
        · rw [List.getElem?_append_left (by omega), hget pos hlt]
        · rw [List.getElem?_append_right (by omega), hlen,
            posSlotClz_eq (k := n) (by omega) (by omega) (by omega)]
          by_cases hhalf : pos - 2 ^ (n + 1) < 2 ^ n
          · have hdiv : pos / 2 ^ n = 2 :=
              Nat.div_eq_of_lt_le (by omega) (by omega)
            rw [List.getElem?_append_left (by rw [List.length_replicate]; exact hhalf),
              List.getElem?_replicate, if_pos hhalf, hdiv]
          · have hdiv : pos / 2 ^ n = 3 :=
              Nat.div_eq_of_lt_le (by omega) (by omega)
            rw [List.getElem?_append_right (by rw [List.length_replicate]; omega),
              List.length_replicate, List.getElem?_replicate, if_pos (by omega), hdiv]

theorem fastPos_eq {pos : ℕ} (h : pos < 2 ^ 14) : fastPos pos = .ok (posSlotClz pos) := by
  have hblocks : fastPosInit = fastPosBlocks 13 := rfl
  unfold fastPos
  rw [hblocks, (fastPosBlocks_spec 13 (by norm_num)).2 pos h]

theorem getPosSlot1_eq (build : SlotBuild) {pos : ℕ} (h : pos < 2 ^ 14) :
    getPosSlot1 build pos = .ok (posSlotClz pos) := by
  cases build with
  | table => exact fastPos_eq h
  | leadingZeros => rfl

/-- The slot of a far distance by the slot of its top bits. -/
theorem posSlotClz_shift {zz pos : ℕ} (hpos : pos < 2 ^ 32) (h : 2 ≤ pos / 2 ^ zz) :
    posSlotClz (pos / 2 ^ zz) + zz * 2 = posSlotClz pos := by
  obtain ⟨k, h1, h2⟩ := exists_top h
  have hle : 2 ^ (k + zz + 1) ≤ pos := by
    rw [Nat.le_div_iff_mul_le (by positivity)] at h1
    calc 2 ^ (k + zz + 1) = 2 ^ (k + 1) * 2 ^ zz := by ring
      _ ≤ pos := h1
  have hlt : pos < 2 ^ (k + zz + 2) := by
    rw [Nat.div_lt_iff_lt_mul (by positivity)] at h2
    calc pos < 2 ^ (k + 2) * 2 ^ zz := h2
      _ = 2 ^ (k + zz + 2) := by ring
  have hsmall : k + zz + 1 < 32 := by
    by_contra hge
    have : 2 ^ 32 ≤ 2 ^ (k + zz + 1) := Nat.pow_le_pow_right (by norm_num) (by omega)
    omega
  rw [posSlotClz_eq (k := k) (by omega) h1 h2, posSlotClz_eq (k := k + zz) (by omega) hle hlt,
    Nat.div_div_eq_div_mul, ← pow_add, add_comm zz k]
  ring

theorem getPosSlot_eq (build : SlotBuild) {pos : ℕ} (h : pos < 2 ^ 32) :
    getPosSlot build pos = .ok (posSlotClz pos) := by
  cases build with
  | leadingZeros => rfl
  | table =>
      have hfull : kNumFullDistances = 2 ^ 7 := by decide
      have hbig : 1 <<< (kNumLogBits + 6) = 2 ^ 20 := by decide
      simp only [getPosSlot, getPosSlot2, hfull, hbig, Nat.shiftRight_eq_div_pow]
      split
      · rename_i hlt
        rw [Nat.and_two_pow_sub_one_eq_mod, Nat.mod_eq_of_lt hlt]
        exact fastPos_eq (by omega)
      · rename_i hge
        split
        · rename_i hlt
          rw [fastPos_eq (by omega), ok_bind, posSlotClz_shift h (by omega)]
        · rename_i hge2
          have hzz : 6 + kNumLogBits - 1 = 19 := by decide
          rw [hzz]
          rw [fastPos_eq (by omega), ok_bind, posSlotClz_shift h (by omega)]

end LzmaTurbo.Enc
