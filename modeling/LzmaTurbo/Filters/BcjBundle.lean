import LzmaTurbo.Filters.BcjBytes

/-!
# IA-64 bundles

A bundle is a header byte and three slots of five bytes. A slot's address is a low
field and a bit of its own; the other bits say that it is one and stay as they are.
-/
namespace LzmaTurbo.Filters
open Machine BitFields Rewriter

section
variable {e : Bool} {q z m t word pc n fuel : ℕ} {xs ys done : List UInt8}

/-- The bits of a slot that hold no address. -/
def slotRest (z : ℕ) : ℕ := z / 2 ^ 21 % 2 ^ 3 * 2 ^ 21 + z / 2 ^ 25 * 2 ^ 25

theorem and_keep (z : ℕ) : ((0x8FFFFF <<< 1) ||| 1) &&& z = z % 2 ^ 21 + z / 2 ^ 24 % 2 * 2 ^ 24 := by
  rw [Nat.and_comm]
  change z &&& (((2 ^ 21 - 1) * 2 ^ 0) ||| ((2 ^ 1 - 1) * 2 ^ 24)) = _
  rw [Nat.and_or_distrib_left, and_field, and_field, or_add (by omega)]
  omega

theorem xor_keep {z : ℕ} (hz : z < 2 ^ 32) :
    z ^^^ (((0x8FFFFF <<< 1) ||| 1) &&& z) = z &&& 0xFEE00000 := by
  have hall : z &&& (((0x8FFFFF <<< 1) ||| 1) ^^^ 0xFEE00000) = z := by
    change z &&& (2 ^ 32 - 1) = z
    rw [Nat.and_two_pow_sub_one_eq_mod, Nat.mod_eq_of_lt hz]
  rw [Nat.and_xor_distrib_left] at hall
  calc z ^^^ (((0x8FFFFF <<< 1) ||| 1) &&& z)
      = ((z &&& ((0x8FFFFF <<< 1) ||| 1)) ^^^ (z &&& 0xFEE00000)) ^^^
          (z &&& ((0x8FFFFF <<< 1) ||| 1)) := by rw [hall, Nat.and_comm]
    _ = z &&& 0xFEE00000 := by
        rw [Nat.xor_comm (z &&& ((0x8FFFFF <<< 1) ||| 1)), Nat.xor_assoc, Nat.xor_self, Nat.xor_zero]

theorem rest_or {z lo b : ℕ} (hz : z < 2 ^ 32) (hlo : lo < 2 ^ 21) (hb : b < 2) :
    (z &&& 0xFEE00000) ||| (lo + b * 2 ^ 24) = slotRest z + lo + b * 2 ^ 24 := by
  have hand : z &&& 0xFEE00000 = z / 2 ^ 21 % 2 ^ 3 * 2 ^ 21 ||| z / 2 ^ 25 * 2 ^ 25 := by
    change z &&& (((2 ^ 3 - 1) * 2 ^ 21) ||| ((2 ^ 7 - 1) * 2 ^ 25)) = _
    rw [Nat.and_or_distrib_left, and_field, and_field, Nat.mod_eq_of_lt (b := 2 ^ 7) (by omega)]
  have hmid : z / 2 ^ 21 % 2 ^ 3 < 2 ^ 3 := Nat.mod_lt _ (by norm_num)
  unfold slotRest
  generalize z / 2 ^ 21 % 2 ^ 3 = mid at *
  generalize z / 2 ^ 25 = hi at *
  rw [hand, Nat.add_comm lo, ← add_or (n := 24) (by omega) b, Nat.or_comm (mid * 2 ^ 21), Nat.or_assoc,
    ← Nat.or_assoc (mid * 2 ^ 21), Nat.or_comm (mid * 2 ^ 21), Nat.or_assoc, add_or hlo,
    add_or (n := 24) (by omega), add_or (n := 25) (by omega)]
  omega

theorem slot_clear {s hi : ℕ} (hhi : hi < 2) (hs : s < 2 ^ 23) :
    (hi * 2 ^ 24 + s) &&& not32 (0x600000 <<< 1) = hi * 2 ^ 24 + s % 2 ^ 22 := by
  have hlo : (hi * 2 ^ 24 + s) / 2 ^ 0 % 2 ^ 22 * 2 ^ 0 = s % 2 ^ 22 := by omega
  have hhigh : (hi * 2 ^ 24 + s) / 2 ^ 24 % 2 ^ 8 = hi := by omega
  have hlt : s % 2 ^ 22 < 2 ^ 24 := by omega
  change (hi * 2 ^ 24 + s) &&& (((2 ^ 22 - 1) * 2 ^ 0) ||| ((2 ^ 8 - 1) * 2 ^ 24)) = _
  rw [Nat.and_or_distrib_left, and_field, and_field, hlo, hhigh, or_add hlt]

theorem slot_carry (s hi : ℕ) :
    (hi * 2 ^ 24 + s % 2 ^ 22 + 7 * 2 ^ 21) / 2 ^ 24 % 2 = (hi + s / 2 ^ 21) % 2 := by
  have hsplit : s % 2 ^ 22 = s / 2 ^ 21 % 2 * 2 ^ 21 + s % 2 ^ 21 := by omega
  have hr : s % 2 ^ 21 < 2 ^ 21 := Nat.mod_lt _ (by norm_num)
  have hquot : (hi * 2 ^ 24 + s % 2 ^ 22 + 7 * 2 ^ 21) / 2 ^ 24 =
      (hi * 8 + s / 2 ^ 21 % 2 + 7) / 8 := by
    rw [hsplit]
    generalize s / 2 ^ 21 % 2 = c
    generalize s % 2 ^ 21 = r at hr
    omega
  have hup : (hi * 8 + s / 2 ^ 21 % 2 + 7) / 8 = hi + s / 2 ^ 21 % 2 := by
    have hb : s / 2 ^ 21 % 2 < 2 := Nat.mod_lt _ two_pos
    generalize s / 2 ^ 21 % 2 = b at hb
    omega
  rw [hquot, hup, Nat.add_mod_mod]

/-- The sum of the address and its low field, whose carry turns the high bit around. -/
theorem slot_sum {s hi : ℕ} (hhi : hi < 2) (hs : s < 2 ^ 23) :
    ((0x8FFFFF <<< 1) ||| 1) &&&
      wrappingAdd32 ((hi * 2 ^ 24 + s) &&& not32 (0x600000 <<< 1)) (0x700000 <<< 1) =
    s % 2 ^ 21 + (hi + s / 2 ^ 21) % 2 * 2 ^ 24 := by
  have hadd : wrappingAdd32 (hi * 2 ^ 24 + s % 2 ^ 22) (0x700000 <<< 1) =
      hi * 2 ^ 24 + s % 2 ^ 22 + 7 * 2 ^ 21 := by
    have hbig : (0x700000 <<< 1 : ℕ) = 7 * 2 ^ 21 := rfl
    have hlt : hi * 2 ^ 24 + s % 2 ^ 22 + 7 * 2 ^ 21 < 2 ^ 32 := by omega
    rw [wrappingAdd32, hbig, Nat.mod_eq_of_lt hlt]
  have hlow : (hi * 2 ^ 24 + s % 2 ^ 22 + 7 * 2 ^ 21) % 2 ^ 21 = s % 2 ^ 21 := by omega
  rw [slot_clear hhi hs, hadd, and_keep, hlow, slot_carry s hi]

/-- The low field of a slot moved by an address's low bits `q`. -/
def slotSum (e : Bool) (q z : ℕ) : ℕ := z % 2 ^ 21 + if e then q else 2 ^ 22 - q

def slotMove (e : Bool) (q z : ℕ) : ℕ :=
  slotRest z + (slotSum e q z % 2 ^ 21 + (z / 2 ^ 24 % 2 + slotSum e q z / 2 ^ 21) % 2 * 2 ^ 24)

theorem ia64Value_eq (e : Bool) {pc z : ℕ} (m : ℕ) (hz : z < 2 ^ 32) (hpc : pc < 2 ^ 32) :
    ∃ pc' < 2 ^ 32, pc' % 2 ^ 22 = pc % 2 ^ 22 ∧
      ia64Value e pc z m = (u32 (slotMove e (pc % 2 ^ 22) z <<< m), pc') := by
  have hlow : (0x1FFFFF <<< 1) ||| 1 = 2 ^ 22 - 1 := rfl
  have hlo : z % 2 ^ 21 < 2 ^ 21 := Nat.mod_lt _ (by norm_num)
  have hhi : z / 2 ^ 24 % 2 < 2 := Nat.mod_lt _ (by norm_num)
  have hq : pc % 2 ^ 22 < 2 ^ 22 := Nat.mod_lt _ (by norm_num)
  have hs : slotSum e (pc % 2 ^ 22) z < 2 ^ 23 := by
    unfold slotSum
    split <;> omega
  have hb : (z / 2 ^ 24 % 2 + slotSum e (pc % 2 ^ 22) z / 2 ^ 21) % 2 < 2 := Nat.mod_lt _ two_pos
  have hl : slotSum e (pc % 2 ^ 22) z % 2 ^ 21 < 2 ^ 21 := Nat.mod_lt _ (by norm_num)
  have hfin : ∀ x, x = z / 2 ^ 24 % 2 * 2 ^ 24 + slotSum e (pc % 2 ^ 22) z →
      (z ^^^ (((0x8FFFFF <<< 1) ||| 1) &&& z)) |||
        (wrappingAdd32 (x &&& not32 (0x600000 <<< 1)) (0x700000 <<< 1) &&& ((0x8FFFFF <<< 1) ||| 1)) =
      slotMove e (pc % 2 ^ 22) z := by
    intro x hx
    rw [Nat.and_comm (wrappingAdd32 _ _), hx, slot_sum hhi hs, xor_keep hz, rest_or hz hl hb,
      Nat.add_assoc]
    rfl
  cases e
  · refine ⟨pc ||| not32 (2 ^ 22 - 1), ?_, ?_, ?_⟩
    · exact Nat.or_lt_two_pow hpc (by decide)
    · change (pc ||| (2 ^ 10 - 1) * 2 ^ 22) % 2 ^ 22 = _
      rw [Nat.or_mod_two_pow, Nat.mul_mod_left, Nat.or_zero]
    · have hor : pc ||| not32 (2 ^ 22 - 1) = (2 ^ 10 - 1) * 2 ^ 22 + pc % 2 ^ 22 := by
        have hpcq : pc = pc / 2 ^ 22 * 2 ^ 22 + pc % 2 ^ 22 := by omega
        have habs : pc / 2 ^ 22 ||| (2 ^ 10 - 1) = 2 ^ 10 - 1 := or_low (by omega)
        change pc ||| (2 ^ 10 - 1) * 2 ^ 22 = _
        rw [hpcq, ← add_or hq, Nat.or_assoc, Nat.or_comm (pc % 2 ^ 22), ← Nat.or_assoc,
          or_mul_two_pow, habs, add_or hq, add_or hq]
        omega
      have hx : wrappingSub32 (((0x8FFFFF <<< 1) ||| 1) &&& z) (pc ||| not32 (2 ^ 22 - 1)) =
          z / 2 ^ 24 % 2 * 2 ^ 24 + slotSum false (pc % 2 ^ 22) z := by
        rw [hor, and_keep, wrappingSub32, slotSum]
        simp only [Bool.false_eq_true, if_false]
        omega
      rw [ia64Value]
      simp only [Bool.false_eq_true, if_false, hlow, hfin _ hx]
  · refine ⟨pc &&& (2 ^ 22 - 1), ?_, ?_, ?_⟩
    · rw [Nat.and_two_pow_sub_one_eq_mod]
      omega
    · rw [Nat.and_two_pow_sub_one_eq_mod, Nat.mod_mod]
    · have hx : wrappingAdd32 (((0x8FFFFF <<< 1) ||| 1) &&& z) (pc &&& (2 ^ 22 - 1)) =
          z / 2 ^ 24 % 2 * 2 ^ 24 + slotSum true (pc % 2 ^ 22) z := by
        rw [and_keep, Nat.and_two_pow_sub_one_eq_mod, wrappingAdd32, slotSum]
        simp only [if_true]
        omega
      rw [ia64Value]
      simp only [if_true, hlow, hfin _ hx]

/-- A sum's low field and its carry, taken back. -/
theorem slot_back {q z : ℕ} (hq : q < 2 ^ 22) :
    z / 2 ^ 21 % 2 ^ 3 * 2 ^ 21 + z / 2 ^ 25 * 2 ^ 25 +
      (((z % 2 ^ 21 + q) % 2 ^ 21 + (2 ^ 22 - q)) % 2 ^ 21 +
        ((z / 2 ^ 24 % 2 + (z % 2 ^ 21 + q) / 2 ^ 21) % 2 +
          ((z % 2 ^ 21 + q) % 2 ^ 21 + (2 ^ 22 - q)) / 2 ^ 21) % 2 * 2 ^ 24) = z := by
  have hlo : ((z % 2 ^ 21 + q) % 2 ^ 21 + (2 ^ 22 - q)) % 2 ^ 21 = z % 2 ^ 21 := by omega
  have hcarry : ((z % 2 ^ 21 + q) / 2 ^ 21 +
      ((z % 2 ^ 21 + q) % 2 ^ 21 + (2 ^ 22 - q)) / 2 ^ 21) % 2 = 0 := by omega
  have hbit : ((z / 2 ^ 24 % 2 + (z % 2 ^ 21 + q) / 2 ^ 21) % 2 +
      ((z % 2 ^ 21 + q) % 2 ^ 21 + (2 ^ 22 - q)) / 2 ^ 21) % 2 = z / 2 ^ 24 % 2 := by
    generalize (z % 2 ^ 21 + q) / 2 ^ 21 = c at *
    generalize ((z % 2 ^ 21 + q) % 2 ^ 21 + (2 ^ 22 - q)) / 2 ^ 21 = c' at *
    omega
  rw [hlo, hbit]
  omega

theorem slotMove_high (e : Bool) (q z : ℕ) : slotMove e q z / 2 ^ 25 = z / 2 ^ 25 := by
  have hl : slotSum e q z % 2 ^ 21 < 2 ^ 21 := Nat.mod_lt _ (by norm_num)
  have hb : (z / 2 ^ 24 % 2 + slotSum e q z / 2 ^ 21) % 2 < 2 := Nat.mod_lt _ two_pos
  unfold slotMove slotRest
  omega

theorem slotMove_shift_lt (e : Bool) (q : ℕ) (hm : m = 1 ∨ m = 2 ∨ m = 3) (hw : word < 2 ^ 32) :
    slotMove e q (word / 2 ^ m) * 2 ^ m < 2 ^ 32 := by
  have hhigh := slotMove_high e q (word / 2 ^ m)
  generalize slotMove e q (word / 2 ^ m) = z' at hhigh
  rcases hm with rfl | rfl | rfl
  · omega
  · omega
  · omega

theorem slotMove_undo (hq : q < 2 ^ 22) :
    slotMove false q (slotMove true q z) = z := by
  have hl : slotSum true q z % 2 ^ 21 < 2 ^ 21 := Nat.mod_lt _ (by norm_num)
  have hb : (z / 2 ^ 24 % 2 + slotSum true q z / 2 ^ 21) % 2 < 2 := Nat.mod_lt _ two_pos
  have h25 := slotMove_high true q z
  have h21 : slotMove true q z / 2 ^ 21 % 2 ^ 3 = z / 2 ^ 21 % 2 ^ 3 := by
    unfold slotMove slotRest
    omega
  have hlow : slotMove true q z % 2 ^ 21 = slotSum true q z % 2 ^ 21 := by
    unfold slotMove slotRest
    omega
  have hbit : slotMove true q z / 2 ^ 24 % 2 = (z / 2 ^ 24 % 2 + slotSum true q z / 2 ^ 21) % 2 := by
    unfold slotMove slotRest
    omega
  have hsum : slotSum false q (slotMove true q z) = slotSum true q z % 2 ^ 21 + (2 ^ 22 - q) := by
    rw [slotSum, hlow]
    simp
  rw [slotMove, slotRest, h21, h25, hbit, hsum]
  have hs : slotSum true q z = z % 2 ^ 21 + q := by
    simp [slotSum]
  rw [hs]
  exact slot_back hq

/-- A slot's word where its first byte is `t`: only an address is moved. -/
def slotWord (e : Bool) (q m t word : ℕ) : ℕ :=
  if t < 2 ^ (m + 5) ∧ word % 2 ^ m = 0 ∧ word / 2 ^ m / 2 ^ 25 % 16 = 5 then
    slotMove e q (word / 2 ^ m) * 2 ^ m
  else word

theorem slotWord_undo (hm : m = 1 ∨ m = 2 ∨ m = 3) (hq : q < 2 ^ 22) (hw : word < 2 ^ 32) :
    slotWord true q m t word < 2 ^ 32 ∧ slotWord false q m t (slotWord true q m t word) = word := by
  by_cases h : t < 2 ^ (m + 5) ∧ word % 2 ^ m = 0 ∧ word / 2 ^ m / 2 ^ 25 % 16 = 5
  · obtain ⟨ht, hlow, hop⟩ := h
    have hpos : 0 < 2 ^ m := Nat.two_pow_pos m
    have hhigh := slotMove_high true q (word / 2 ^ m)
    have hback := slotMove_undo (z := word / 2 ^ m) hq
    have hlt := slotMove_shift_lt true q hm hw
    have htrue : slotWord true q m t word = slotMove true q (word / 2 ^ m) * 2 ^ m :=
      if_pos ⟨ht, hlow, hop⟩
    have hdiv : slotMove true q (word / 2 ^ m) * 2 ^ m / 2 ^ m = slotMove true q (word / 2 ^ m) :=
      Nat.mul_div_cancel _ hpos
    refine ⟨by rw [htrue]; exact hlt, ?_⟩
    rw [htrue, slotWord, hdiv, if_pos ⟨ht, Nat.mul_mod_left _ _, by rw [hhigh]; exact hop⟩, hback,
      Nat.mul_comm]
    have hsplit := Nat.div_add_mod word (2 ^ m)
    omega
  · have hid : ∀ e, slotWord e q m t word = word := fun e => if_neg h
    rw [hid, hid]
    exact ⟨hw, rfl⟩

/-- What the tests of the source say of a slot's first byte and its word. -/
theorem slot_test (hm : m = 1 ∨ m = 2 ∨ m = 3) (ht : t < 2 ^ 8) (hw : word < 2 ^ 32) :
    (((t + 2 ^ 8 * (word % 2 ^ 8)) >>> m) &&& (0x70 <<< 1) = 0 ∧
      wrappingSub32 (word >>> m) (0x05000000 <<< 1) &&& (0x0F000000 <<< 1) = 0) ↔
    (t < 2 ^ (m + 5) ∧ word % 2 ^ m = 0 ∧ word / 2 ^ m / 2 ^ 25 % 16 = 5) := by
  have hfirst : ∀ x, x &&& (0x70 <<< 1) = 0 ↔ x / 2 ^ 5 % 2 ^ 3 = 0 :=
    fun x => and_field_eq_zero x 5 3
  have hsecond : ∀ x, x &&& (0x0F000000 <<< 1) = 0 ↔ x / 2 ^ 25 % 2 ^ 4 = 0 :=
    fun x => and_field_eq_zero x 25 4
  have hop : (0x05000000 <<< 1 : ℕ) = 5 * 2 ^ 25 := rfl
  rw [hfirst, hsecond, hop, Nat.shiftRight_eq_div_pow, Nat.shiftRight_eq_div_pow]
  have hz : word / 2 ^ m < 2 ^ 32 := Nat.lt_of_le_of_lt (Nat.div_le_self _ _) hw
  have hsub : wrappingSub32 (word / 2 ^ m) (5 * 2 ^ 25) / 2 ^ 25 % 2 ^ 4 = 0 ↔
      word / 2 ^ m / 2 ^ 25 % 16 = 5 := by
    unfold wrappingSub32
    generalize word / 2 ^ m = z at hz
    omega
  have hlow : (t + 2 ^ 8 * (word % 2 ^ 8)) / 2 ^ m / 2 ^ 5 % 2 ^ 3 = 0 ↔
      t < 2 ^ (m + 5) ∧ word % 2 ^ m = 0 := by
    clear hsub hz hfirst hsecond hop
    rcases hm with rfl | rfl | rfl
    · omega
    · omega
    · omega
  rw [hsub, hlow, and_assoc]

/-- So many slots from the `m`th on. -/
def slotsFrom (e : Bool) (q : ℕ) : ℕ → ℕ → List UInt8 → List UInt8
  | n + 1, m, t :: a :: b :: c :: d :: rest =>
      t :: bytes32 (slotWord e q m t.toNat (le32 a b c d)) ++ slotsFrom e q n (m + 1) rest
  | _, _, xs => xs

theorem five_bytes (h : 5 ≤ xs.length) : ∃ t a b c d rest, xs = t :: a :: b :: c :: d :: rest := by
  rcases xs with _ | ⟨t, _ | ⟨a, _ | ⟨b, _ | ⟨c, _ | ⟨d, rest⟩⟩⟩⟩⟩
  · exact absurd h (by simp)
  · exact absurd h (by simp)
  · exact absurd h (by simp)
  · exact absurd h (by simp)
  · exact absurd h (by simp)
  · exact ⟨t, a, b, c, d, rest, rfl⟩

@[simp] theorem length_slotsFrom (e : Bool) (q n m : ℕ) (xs : List UInt8) :
    (slotsFrom e q n m xs).length = xs.length := by
  fun_induction slotsFrom e q n m xs with
  | case1 n m t a b c d rest ih =>
      simp [ih]
      omega
  | case2 => rfl

theorem slotsFrom_append (h : 5 * n ≤ xs.length) :
    slotsFrom e q n m (xs ++ ys) = slotsFrom e q n m xs ++ ys := by
  induction n generalizing m xs with
  | zero => simp [slotsFrom]
  | succ n ih =>
      obtain ⟨t, a, b, c, d, rest, rfl⟩ := @five_bytes xs (by omega)
      simp only [List.length_cons] at h
      simp only [List.cons_append, slotsFrom, @ih (m + 1) rest (by omega),
        List.append_assoc]

theorem slotsFrom_undo (hm : 1 ≤ m) (hn : m + n ≤ 4) (hq : q < 2 ^ 22) :
    slotsFrom false q n m (slotsFrom true q n m xs) = xs := by
  induction n generalizing m xs with
  | zero => simp [slotsFrom]
  | succ n ih =>
      by_cases hlen : 5 ≤ xs.length
      · obtain ⟨t, a, b, c, d, rest, rfl⟩ := five_bytes hlen
        obtain ⟨hlt, hback⟩ := slotWord_undo (t := t.toNat) (m := m) (by omega) hq (le32_lt a b c d)
        change t :: bytes32 (slotWord false q m t.toNat (le32 _ _ _ _)) ++
          slotsFrom false q n (m + 1) (slotsFrom true q n (m + 1) rest) = _
        rw [le32_bytes32 hlt, hback, bytes32_le32, ih (by omega) (by omega)]
        rfl
      · have hid : ∀ e, slotsFrom e q (n + 1) m xs = xs := by
          intro e
          rcases xs with _ | ⟨t, _ | ⟨a, _ | ⟨b, _ | ⟨c, _ | ⟨d, rest⟩⟩⟩⟩⟩
          · rfl
          · rfl
          · rfl
          · rfl
          · rfl
          · exact absurd (by simp) hlen
        rw [hid, hid]

/-- The slots the code walks are those from the `m`th to the third. -/
theorem ia64Slots_eq (hm : m = 1 ∨ m = 2 ∨ m = 3) (hfuel : 4 - m ≤ fuel) (hpc : pc < 2 ^ 32)
    (hlen : 5 * (4 - m) ≤ ys.length) :
    ∃ pc' < 2 ^ 32, pc' % 2 ^ 22 = pc % 2 ^ 22 ∧
      ia64Slots e fuel (done ++ ys) done.length pc m =
        .ok (done ++ slotsFrom e (pc % 2 ^ 22) (4 - m) m ys, done.length + 5 * (4 - m), pc') := by
  induction fuel generalizing m pc ys done with
  | zero => omega
  | succ fuel ih =>
      obtain ⟨t, a, b, c, d, rest, rfl⟩ := @five_bytes ys (by omega)
      obtain ⟨n, hn⟩ : ∃ n, 4 - m = n + 1 := ⟨3 - m, by omega⟩
      have ht : getU16le (done ++ t :: a :: b :: c :: d :: rest) done.length =
          .ok (t.toNat + 2 ^ 8 * a.toNat) := getU16le_behind done (t :: a :: b :: c :: d :: rest) 0
      have hword : getU32le (done ++ t :: a :: b :: c :: d :: rest) (done.length + 1) =
          .ok (le32 a b c d) := getU32le_behind done (t :: a :: b :: c :: d :: rest) 1
      have hset : ∀ v, setU32le (done ++ t :: a :: b :: c :: d :: rest) (done.length + 5 + 1 - 5) v =
          .ok (done ++ (t :: (bytes32 v ++ rest))) := by
        intro v
        rw [show done.length + 5 + 1 - 5 = done.length + 1 by omega, setU32le_behind]
        simp [setU32le]
      have ha : a.toNat = le32 a b c d % 2 ^ 8 := by
        have ha := a.toNat_lt
        unfold le32
        omega
      have hw := le32_lt a b c d
      obtain ⟨pc1, hpc1, hmod1, hbody⟩ : ∃ pc1 < 2 ^ 32, pc1 % 2 ^ 22 = pc % 2 ^ 22 ∧
          ia64Slots e (fuel + 1) (done ++ t :: a :: b :: c :: d :: rest) done.length pc m =
            if (m + 1) &&& 3 = 0 then
              .ok (done ++ t :: (bytes32 (slotWord e (pc % 2 ^ 22) m t.toNat (le32 a b c d)) ++ rest),
                done.length + 5, pc1)
            else ia64Slots e fuel
              (done ++ t :: (bytes32 (slotWord e (pc % 2 ^ 22) m t.toNat (le32 a b c d)) ++ rest))
              (done.length + 5) pc1 ((m + 1) &&& 3) := by
        have htest := slot_test hm t.toNat_lt hw
        by_cases h : t.toNat < 2 ^ (m + 5) ∧ le32 a b c d % 2 ^ m = 0 ∧
            le32 a b c d / 2 ^ m / 2 ^ 25 % 16 = 5
        · have hz : le32 a b c d >>> m < 2 ^ 32 :=
            Nat.lt_of_le_of_lt (by rw [Nat.shiftRight_eq_div_pow]; exact Nat.div_le_self _ _) hw
          obtain ⟨pc1, hpc1, hmod1, hval⟩ := ia64Value_eq e m hz hpc
          have hmove : u32 (slotMove e (pc % 2 ^ 22) (le32 a b c d >>> m) <<< m) =
              slotWord e (pc % 2 ^ 22) m t.toNat (le32 a b c d) := by
            have hlt := slotMove_shift_lt e (pc % 2 ^ 22) hm hw
            rw [slotWord, if_pos h, Nat.shiftRight_eq_div_pow, Nat.shiftLeft_eq, u32,
              Nat.mod_eq_of_lt hlt]
          refine ⟨pc1, hpc1, hmod1, ?_⟩
          rw [ia64Slots, ht, ok_bind, hword, ok_bind, ha, if_pos (htest.mpr h), hval]
          simp only [hset, hmove, ok_bind]
        · have hsame : slotWord e (pc % 2 ^ 22) m t.toNat (le32 a b c d) = le32 a b c d := if_neg h
          refine ⟨pc, hpc, rfl, ?_⟩
          rw [ia64Slots, ht, ok_bind, hword, ok_bind, ha, if_neg (mt htest.mp h), hsame, bytes32_le32]
          rfl
      have happ : done ++ t :: (bytes32 (slotWord e (pc % 2 ^ 22) m t.toNat (le32 a b c d)) ++ rest) =
          (done ++ t :: bytes32 (slotWord e (pc % 2 ^ 22) m t.toNat (le32 a b c d))) ++ rest := by
        simp
      have hdone : done.length + 5 =
          (done ++ t :: bytes32 (slotWord e (pc % 2 ^ 22) m t.toNat (le32 a b c d))).length := by
        simp
      rw [hbody, hn, slotsFrom]
      by_cases h3 : m = 3
      · subst h3
        refine ⟨pc1, hpc1, hmod1, ?_⟩
        obtain rfl : n = 0 := by omega
        rw [if_pos (by decide)]
        simp [slotsFrom]
      · have hnext : (m + 1) &&& 3 = m + 1 := by
          rcases hm with rfl | rfl | rfl
          · rfl
          · rfl
          · exact absurd rfl h3
        simp only [List.length_cons] at hlen
        obtain ⟨pc2, hpc2, hmod2, hrest⟩ := @ih (m + 1) pc1 rest
          (done ++ t :: bytes32 (slotWord e (pc % 2 ^ 22) m t.toNat (le32 a b c d)))
          (by omega) (by omega) hpc1 (by omega)
        refine ⟨pc2, hpc2, by rw [hmod2, hmod1], ?_⟩
        rw [hnext, if_neg (Nat.succ_ne_zero m), happ, hdone, hrest, hmod1,
          show 4 - (m + 1) = n by omega]
        simp
        omega

/-- The first slot a bundle's header names. -/
def bundleFirst (b : ℕ) : ℕ := (0x334B0000 >>> (b &&& 0x1E)) &&& 3

/-- A bundle; without a first slot it stays as it is. -/
def bundle (e : Bool) (q : ℕ) : List UInt8 → List UInt8
  | [] => []
  | b :: rest =>
      let m := bundleFirst b.toNat
      if m = 0 then b :: rest
      else b :: rest.take (5 * (m - 1)) ++ slotsFrom e q (4 - m) m (rest.drop (5 * (m - 1)))

theorem bundleFirst_lt (b : ℕ) : bundleFirst b < 4 :=
  Nat.lt_of_le_of_lt Nat.and_le_right (by decide)

@[simp] theorem length_bundle (e : Bool) (q : ℕ) (xs : List UInt8) :
    (bundle e q xs).length = xs.length := by
  rcases xs with _ | ⟨b, rest⟩
  · rfl
  · by_cases h0 : bundleFirst b.toNat = 0
    · simp [bundle, h0]
    · simp only [bundle, h0, if_false, List.cons_append, List.length_cons, List.length_append,
        List.length_take, length_slotsFrom, List.length_drop]
      omega

theorem bundle_undo (hq : q < 2 ^ 22) (h : 16 ≤ xs.length) :
    bundle false q (bundle true q xs) = xs := by
  rcases xs with _ | ⟨b, rest⟩
  · exact absurd h (by simp)
  · simp only [List.length_cons] at h
    have hm := bundleFirst_lt b.toNat
    by_cases h0 : bundleFirst b.toNat = 0
    · simp [bundle, h0]
    · generalize hb : bundleFirst b.toNat = m at *
      have htake : (rest.take (5 * (m - 1))).length = 5 * (m - 1) := by
        rw [List.length_take]
        omega
      simp only [bundle, hb, h0, if_false, List.cons_append]
      rw [List.take_left' htake, List.drop_left' htake, slotsFrom_undo (by omega) (by omega) hq,
        List.take_append_drop]

/-- The bits of a bundle's address that its slots are moved by. -/
def bundleAddress (pc : ℕ) : ℕ := pc / 2 ^ 3 % 2 ^ 22

def bundleStep (e : Bool) (s : Place) (xs : List UInt8) : Option (List UInt8 × Place) :=
  if 16 ≤ xs.length then some (bundle e (bundleAddress s.1) (xs.take 16), s.skip 16) else none

theorem bundleStep_some {s s' : Place} {out : List UInt8} (h : bundleStep e s xs = some (out, s')) :
    16 ≤ xs.length ∧ out = bundle e (bundleAddress s.1) (xs.take 16) ∧ out.length = 16 ∧
      s' = s.skip 16 := by
  unfold bundleStep at h
  by_cases hlen : 16 ≤ xs.length
  · rw [if_pos hlen] at h
    cases h
    refine ⟨hlen, rfl, ?_, rfl⟩
    rw [length_bundle, List.length_take]
    omega
  · rw [if_neg hlen] at h
    cases h

theorem bundleStep_pos {s s' : Place} {out : List UInt8} (h : bundleStep e s xs = some (out, s')) :
    0 < out.length := by
  obtain ⟨-, -, hlen, -⟩ := bundleStep_some h
  omega

theorem bundleStep_le {s s' : Place} {out : List UInt8} (h : bundleStep e s xs = some (out, s')) :
    out.length ≤ xs.length := by
  obtain ⟨hle, -, hlen, -⟩ := bundleStep_some h
  omega

theorem bundleStep_stable {s : Place} {r : List UInt8 × Place} (ys : List UInt8)
    (h : bundleStep e s xs = some r) : bundleStep e s (xs ++ ys) = some r := by
  obtain ⟨hle, hout, -, hs⟩ := @bundleStep_some _ _ _ r.2 r.1 h
  have hle' : 16 ≤ (xs ++ ys).length := by
    rw [List.length_append]
    omega
  rw [bundleStep, if_pos hle', List.take_append_of_le_length hle, ← hout, ← hs]

/-- A bundle at a time. -/
def bundleRewriter (e : Bool) : Rewriter UInt8 Place where
  step := bundleStep e
  pos := bundleStep_pos
  le := bundleStep_le
  stable := bundleStep_stable

theorem bundleStep_short {s : Place} (h : xs.length < 16) : bundleStep e s xs = none :=
  if_neg (Nat.not_le.mpr h)

theorem bundleRewriter_undo (s : Place) (xs : List UInt8) :
    (bundleRewriter false).whole s ((bundleRewriter true).whole s xs) = xs := by
  refine undo (fun _ => True) (fun _ _ => trivial) ?_ ?_ trivial xs
  · intro s xs out s' _ h
    obtain ⟨hle, hout, hlen, rfl⟩ := bundleStep_some h
    have htake : (xs.take 16).length = 16 := by
      rw [List.length_take]
      omega
    have hq : bundleAddress s.1 < 2 ^ 22 := Nat.mod_lt _ (by norm_num)
    change bundleStep false s (out ++ _) = _
    rw [bundleStep, if_pos (by rw [List.length_append]; omega), List.take_left' hlen, hlen, hout,
      bundle_undo hq htake.ge]
  · intro s xs _ h
    refine settled_none (bundleStep_short (Nat.not_le.mp fun hle => ?_))
    rw [show (bundleRewriter true).step s xs = bundleStep true s xs from rfl, bundleStep,
      if_pos hle] at h
    cases h

/-- The converter's own count of bundles is two behind the address until a bundle is read. -/
theorem bundleAddress_next {a : ℕ} (hpc : (pc + 2) % 2 ^ 22 = bundleAddress a) :
    (wrappingAdd32 pc 2 + 2) % 2 ^ 22 = bundleAddress (wrappingAdd32 a 16) := by
  unfold bundleAddress wrappingAdd32 at *
  omega

theorem bundle_append (h : 16 ≤ xs.length) :
    bundle e q (xs ++ ys) = bundle e q xs ++ ys := by
  rcases xs with _ | ⟨b, rest⟩
  · exact absurd h (by simp)
  · simp only [List.length_cons] at h
    have hm := bundleFirst_lt b.toNat
    by_cases h0 : bundleFirst b.toNat = 0
    · simp [bundle, h0]
    · have hle : 5 * (bundleFirst b.toNat - 1) ≤ rest.length := by omega
      have hslots : 5 * (4 - bundleFirst b.toNat) ≤
          (rest.drop (5 * (bundleFirst b.toNat - 1))).length := by
        rw [List.length_drop]
        omega
      simp only [bundle, h0, if_false, List.cons_append]
      rw [List.take_append_of_le_length hle, List.drop_append_of_le_length hle,
        slotsFrom_append hslots, List.append_assoc]

/-- One bundle of the code's loop. -/
theorem ia64Loop_turn {lim : ℕ} (hlim : done.length ≠ lim) (hlen : 16 ≤ ys.length) :
    ∃ pc' < 2 ^ 32, pc' % 2 ^ 22 = wrappingAdd32 pc 2 % 2 ^ 22 ∧
      ia64Loop e lim (fuel + 1) (done ++ ys) done.length pc =
        ia64Loop e lim fuel (done ++ bundle e (wrappingAdd32 pc 2 % 2 ^ 22) ys)
          (done.length + 16) pc' := by
  rcases ys with _ | ⟨b, rest⟩
  · exact absurd hlen (by simp)
  · simp only [List.length_cons] at hlen
    have hbyte : byteAt (done ++ b :: rest) done.length = .ok b.toNat := by
      rw [← Nat.add_zero done.length, byteAt_behind]
      rfl
    have hpc2 : wrappingAdd32 pc 2 < 2 ^ 32 := Nat.mod_lt _ (by norm_num)
    have hstep : ia64Loop e lim (fuel + 1) (done ++ b :: rest) done.length pc =
        (if bundleFirst b.toNat = 0 then
          ia64Loop e lim fuel (done ++ b :: rest) (done.length + 16) (wrappingAdd32 pc 2)
        else do
          let p ← sub (done.length + 16 + bundleFirst b.toNat * 5) 20
          let r ← ia64Slots e 4 (done ++ b :: rest) p (wrappingAdd32 pc 2) (bundleFirst b.toNat)
          ia64Loop e lim fuel r.1 r.2.1 r.2.2) := by
      rw [ia64Loop, if_neg hlim, hbyte]
      rfl
    by_cases h0 : bundleFirst b.toNat = 0
    · refine ⟨wrappingAdd32 pc 2, hpc2, rfl, ?_⟩
      rw [hstep, if_pos h0]
      simp [bundle, h0]
    · have hm := bundleFirst_lt b.toNat
      generalize hb : bundleFirst b.toNat = m at *
      have hsub : sub (done.length + 16 + m * 5) 20 =
          .ok (done ++ b :: rest.take (5 * (m - 1))).length := by
        rw [sub_ok (by omega), List.length_append, List.length_cons, List.length_take]
        exact congrArg _ (by omega)
      have hdata : done ++ b :: rest =
          (done ++ b :: rest.take (5 * (m - 1))) ++ rest.drop (5 * (m - 1)) := by
        simp
      have hdrop : 5 * (4 - m) ≤ (rest.drop (5 * (m - 1))).length := by
        rw [List.length_drop]
        omega
      obtain ⟨pc', hlt, hmod, hslots⟩ := @ia64Slots_eq e m _ 4 _
        (done ++ b :: rest.take (5 * (m - 1))) (by omega) (by omega) hpc2 hdrop
      refine ⟨pc', hlt, hmod, ?_⟩
      rw [hstep, if_neg h0, hsub, ok_bind, hdata, hslots, ok_bind]
      have hend : (done ++ b :: rest.take (5 * (m - 1))).length + 5 * (4 - m) =
          done.length + 16 := by
        rw [List.length_append, List.length_cons, List.length_take]
        omega
      simp only [hend, bundle, hb, h0, if_false, List.append_assoc, List.cons_append]

theorem ia64Loop_reaches {j a k : ℕ} (hfuel : j < fuel) (hlen : 16 * j ≤ ys.length)
    (hleft : ys.length < 16 * j + 16) (hq : (pc + 2) % 2 ^ 22 = bundleAddress a) :
    ∃ out left s', ia64Loop e (done.length + 16 * j) fuel (done ++ ys) done.length pc =
        .ok (done ++ out ++ left, done.length + out.length) ∧ left.length < 16 ∧ s'.2 = k ∧
      (bundleRewriter e).Reaches (a, k) ys out s' left := by
  induction fuel generalizing j a ys done pc with
  | zero => omega
  | succ fuel ih =>
      rcases j with _ | j
      · refine ⟨[], ys, (a, k), ?_, by omega, rfl, .refl _ _⟩
        rw [ia64Loop, if_pos (by omega)]
        simp
      · obtain ⟨pc', -, hmod, hturn⟩ :=
          @ia64Loop_turn e _ fuel ys done (done.length + 16 * (j + 1)) (by omega) (by omega)
        have hqa : wrappingAdd32 pc 2 % 2 ^ 22 = bundleAddress a := by
          rw [← hq, wrappingAdd32]
          omega
        have hnext : (pc' + 2) % 2 ^ 22 = bundleAddress (wrappingAdd32 a 16) := by
          rw [← bundleAddress_next hq, Nat.add_mod, hmod, ← Nat.add_mod]
        have htake : (ys.take 16).length = 16 := by
          rw [List.length_take]
          omega
        have hsplit : bundle e (bundleAddress a) ys =
            bundle e (bundleAddress a) (ys.take 16) ++ ys.drop 16 := by
          rw [← bundle_append htake.ge, List.take_append_drop]
        have hhead : (bundle e (bundleAddress a) (ys.take 16)).length = 16 := by
          rw [length_bundle, htake]
        obtain ⟨out, left, s', hrun, hl, hk, hreach⟩ := @ih pc'
          (ys.drop 16) (done ++ bundle e (bundleAddress a) (ys.take 16)) j (wrappingAdd32 a 16)
          (by omega) (by rw [List.length_drop]; omega) (by rw [List.length_drop]; omega) hnext
        have hdone : (done ++ bundle e (bundleAddress a) (ys.take 16)).length = done.length + 16 := by
          rw [List.length_append, hhead]
        rw [hdone, show done.length + 16 + 16 * j = done.length + 16 * (j + 1) by omega] at hrun
        refine ⟨bundle e (bundleAddress a) (ys.take 16) ++ out, left, s', ?_, hl, hk, ?_⟩
        · rw [hturn, hqa, hsplit, ← List.append_assoc, hrun, List.length_append, hhead]
          simp only [List.append_assoc, Nat.add_assoc]
        · refine .step (?_ : _ = some (_, (wrappingAdd32 a 16, k))) ?_
          · change bundleStep e (a, k) ys = _
            rw [bundleStep, if_pos (by omega)]
            rfl
          · rw [hhead]
            exact hreach

end

end LzmaTurbo.Filters
