import LzmaTurbo.Filters.BcjThumb

/-!
# RISC-V jumps and address pairs

The first word's low seven bits say what it is and its register which of the two forms
it has. A jump keeps its low twelve bits; a pair goes from one form to the other.
-/
namespace LzmaTurbo.Filters
open Machine BitFields Rewriter

section
variable {e : Bool} {pc x y o v n fuel : ℕ} {xs ys done out : List UInt8} {s s' : Place}

/-- A number's bits above `n`: a field of `k` bits and what is above that. -/
theorem div_field (x n k : ℕ) : x / 2 ^ n = x / 2 ^ n % 2 ^ k + x / 2 ^ (n + k) * 2 ^ k := by
  rw [Nat.pow_add, ← Nat.div_div_eq_div_mul]
  exact (Nat.mod_add_div' _ _).symm

theorem field_eq {f k : ℕ} (lo hi : ℕ) (hlo : lo < 2 ^ n) (hf : f < 2 ^ k)
    (h : x = lo + (f + hi * 2 ^ k) * 2 ^ n) : x / 2 ^ n % 2 ^ k = f := by
  rw [h, Nat.add_mul_div_right _ _ (Nat.two_pow_pos n), Nat.div_eq_of_lt hlo, Nat.zero_add,
    Nat.add_mul_mod_self_right, Nat.mod_eq_of_lt hf]

/-- The distance a jump holds, and the one its converted form does. -/
def jalImm (x : ℕ) : ℕ :=
  x / 2 ^ 31 * 2 ^ 20 + x / 2 ^ 12 % 2 ^ 8 * 2 ^ 12 + x / 2 ^ 20 % 2 ^ 1 * 2 ^ 11 +
    x / 2 ^ 21 % 2 ^ 10 * 2
def jalLoad (x : ℕ) : ℕ :=
  x / 2 ^ 12 % 2 ^ 4 * 2 ^ 17 + x / 2 ^ 16 % 2 ^ 8 * 2 ^ 9 + x / 2 ^ 24 * 2

/-- A jump with the low bits `o`, and its converted form. -/
def jalMake (o v : ℕ) : ℕ :=
  o + v / 2 ^ 12 % 2 ^ 8 * 2 ^ 12 + v / 2 ^ 11 % 2 ^ 1 * 2 ^ 20 + v / 2 ^ 1 % 2 ^ 10 * 2 ^ 21 +
    v / 2 ^ 20 % 2 ^ 1 * 2 ^ 31
def jalStore (o v : ℕ) : ℕ :=
  o + v / 2 ^ 17 % 2 ^ 4 * 2 ^ 12 + v / 2 ^ 9 % 2 ^ 8 * 2 ^ 16 + v / 2 ^ 1 % 2 ^ 8 * 2 ^ 24

theorem jal_split (x : ℕ) : x = x % 2 ^ 12 + x / 2 ^ 12 % 2 ^ 8 * 2 ^ 12 + x / 2 ^ 20 % 2 ^ 1 * 2 ^ 20 +
    x / 2 ^ 21 % 2 ^ 10 * 2 ^ 21 + x / 2 ^ 31 * 2 ^ 31 := by
  have h0 : x = x % 2 ^ 12 + x / 2 ^ 12 * 2 ^ 12 := by omega
  have h1 := div_field x 12 8
  have h2 := div_field x 20 1
  have h3 := div_field x 21 10
  omega

theorem jalMake_imm (hx : x < 2 ^ 32) : jalMake (x % 2 ^ 12) (jalImm x) = x := by
  have hy : x / 2 ^ 12 % 2 ^ 8 < 2 ^ 8 := Nat.mod_lt _ (by norm_num)
  have hb : x / 2 ^ 20 % 2 ^ 1 < 2 ^ 1 := Nat.mod_lt _ (by norm_num)
  have hz : x / 2 ^ 21 % 2 ^ 10 < 2 ^ 10 := Nat.mod_lt _ (by norm_num)
  have hs : x / 2 ^ 31 < 2 ^ 1 := by omega
  have hsplit := jal_split x
  unfold jalMake jalImm
  generalize x % 2 ^ 12 = o at *
  generalize x / 2 ^ 12 % 2 ^ 8 = y at *
  generalize x / 2 ^ 20 % 2 ^ 1 = b at *
  generalize x / 2 ^ 21 % 2 ^ 10 = z at *
  generalize x / 2 ^ 31 = t at *
  have h1 : (t * 2 ^ 20 + y * 2 ^ 12 + b * 2 ^ 11 + z * 2) / 2 ^ 12 % 2 ^ 8 = y :=
    field_eq (b * 2 ^ 11 + z * 2) t (by omega) hy (by omega)
  have h2 : (t * 2 ^ 20 + y * 2 ^ 12 + b * 2 ^ 11 + z * 2) / 2 ^ 11 % 2 ^ 1 = b :=
    field_eq (z * 2) (t * 2 ^ 8 + y) (by omega) hb (by omega)
  have h3 : (t * 2 ^ 20 + y * 2 ^ 12 + b * 2 ^ 11 + z * 2) / 2 ^ 1 % 2 ^ 10 = z :=
    field_eq 0 (t * 2 ^ 9 + y * 2 + b) (by omega) hz (by omega)
  have h4 : (t * 2 ^ 20 + y * 2 ^ 12 + b * 2 ^ 11 + z * 2) / 2 ^ 20 % 2 ^ 1 = t :=
    field_eq (y * 2 ^ 12 + b * 2 ^ 11 + z * 2) 0 (by omega) hs (by omega)
  rw [h1, h2, h3, h4, hsplit]

theorem jalMake_low (ho : o < 2 ^ 12) (v : ℕ) : jalMake o v % 2 ^ 12 = o := by
  unfold jalMake
  generalize v / 2 ^ 12 % 2 ^ 8 = y
  generalize v / 2 ^ 11 % 2 ^ 1 = b
  generalize v / 2 ^ 1 % 2 ^ 10 = z
  generalize v / 2 ^ 20 % 2 ^ 1 = t
  omega

theorem jalStore_low (ho : o < 2 ^ 12) (v : ℕ) : jalStore o v % 2 ^ 12 = o := by
  unfold jalStore
  generalize v / 2 ^ 17 % 2 ^ 4 = y
  generalize v / 2 ^ 9 % 2 ^ 8 = b
  generalize v / 2 ^ 1 % 2 ^ 8 = z
  omega

theorem jalStore_lt (ho : o < 2 ^ 12) (v : ℕ) : jalStore o v < 2 ^ 32 := by
  have hy : v / 2 ^ 17 % 2 ^ 4 < 2 ^ 4 := Nat.mod_lt _ (by norm_num)
  have hb : v / 2 ^ 9 % 2 ^ 8 < 2 ^ 8 := Nat.mod_lt _ (by norm_num)
  have hz : v / 2 ^ 1 % 2 ^ 8 < 2 ^ 8 := Nat.mod_lt _ (by norm_num)
  unfold jalStore
  omega

theorem jalLoad_store (ho : o < 2 ^ 12) (v : ℕ) (hv : v % 2 = 0) :
    jalLoad (jalStore o v) = v % 2 ^ 21 := by
  have hy : v / 2 ^ 17 % 2 ^ 4 < 2 ^ 4 := Nat.mod_lt _ (by norm_num)
  have hb : v / 2 ^ 9 % 2 ^ 8 < 2 ^ 8 := Nat.mod_lt _ (by norm_num)
  have hz : v / 2 ^ 1 % 2 ^ 8 < 2 ^ 8 := Nat.mod_lt _ (by norm_num)
  have h0 : v % 2 ^ 21 = v / 2 ^ 1 % 2 ^ 8 * 2 + v / 2 ^ 9 % 2 ^ 8 * 2 ^ 9 + v / 2 ^ 17 % 2 ^ 4 * 2 ^ 17 := by
    have h1 := div_field v 1 8
    have h2 := div_field v 9 8
    have h3 := div_field v 17 4
    omega
  rw [h0, jalLoad, jalStore]
  generalize v / 2 ^ 17 % 2 ^ 4 = y at *
  generalize v / 2 ^ 9 % 2 ^ 8 = b at *
  generalize v / 2 ^ 1 % 2 ^ 8 = z at *
  have h1 : (o + y * 2 ^ 12 + b * 2 ^ 16 + z * 2 ^ 24) / 2 ^ 12 % 2 ^ 4 = y :=
    field_eq o (b + z * 2 ^ 8) ho hy (by omega)
  have h2 : (o + y * 2 ^ 12 + b * 2 ^ 16 + z * 2 ^ 24) / 2 ^ 16 % 2 ^ 8 = b :=
    field_eq (o + y * 2 ^ 12) z (by omega) hb (by omega)
  have h3 : (o + y * 2 ^ 12 + b * 2 ^ 16 + z * 2 ^ 24) / 2 ^ 24 = z := by
    clear h0 h1 h2
    omega
  rw [h1, h2, h3]
  omega

theorem jalMake_mod (o v : ℕ) : jalMake o (v % 2 ^ 21) = jalMake o v := by
  have h1 : v % 2 ^ 21 / 2 ^ 12 % 2 ^ 8 = v / 2 ^ 12 % 2 ^ 8 := by omega
  have h2 : v % 2 ^ 21 / 2 ^ 11 % 2 ^ 1 = v / 2 ^ 11 % 2 ^ 1 := by omega
  have h3 : v % 2 ^ 21 / 2 ^ 1 % 2 ^ 10 = v / 2 ^ 1 % 2 ^ 10 := by omega
  have h4 : v % 2 ^ 21 / 2 ^ 20 % 2 ^ 1 = v / 2 ^ 20 % 2 ^ 1 := by omega
  rw [jalMake, jalMake, h1, h2, h3, h4]

/-- The word of a jump at `pc`, converted. -/
def jalWord (e : Bool) (pc x : ℕ) : ℕ :=
  if e then jalStore (x % 2 ^ 12) (convertVal (jalImm x) pc true)
  else jalMake (x % 2 ^ 12) (convertVal (jalLoad x) pc false)

theorem jalImm_lt (hx : x < 2 ^ 32) : jalImm x < 2 ^ 21 := by
  have hy : x / 2 ^ 12 % 2 ^ 8 < 2 ^ 8 := Nat.mod_lt _ (by norm_num)
  have hb : x / 2 ^ 20 % 2 ^ 1 < 2 ^ 1 := Nat.mod_lt _ (by norm_num)
  have hz : x / 2 ^ 21 % 2 ^ 10 < 2 ^ 10 := Nat.mod_lt _ (by norm_num)
  have hs : x / 2 ^ 31 < 2 := by omega
  unfold jalImm
  omega

theorem jalWord_undo (hx : x < 2 ^ 32) (hpc : pc < 2 ^ 32) (heven : pc % 2 = 0) :
    jalWord false pc (jalWord true pc x) = x := by
  have ho : x % 2 ^ 12 < 2 ^ 12 := Nat.mod_lt _ (by norm_num)
  have himm : jalImm x % 2 = 0 := by
    unfold jalImm
    generalize x / 2 ^ 31 = a
    generalize x / 2 ^ 12 % 2 ^ 8 = b
    generalize x / 2 ^ 20 % 2 ^ 1 = c
    omega
  have hv : convertVal (jalImm x) pc true % 2 = 0 := by
    rw [convertVal, if_pos rfl, wrappingAdd32, Nat.mod_mod_of_dvd _ (by norm_num : 2 ∣ 2 ^ 32),
      Nat.add_mod, himm, heven]
  have hback := convertVal_back (n := 21) (by omega) (jalImm_lt hx) hpc.le
  rw [jalWord, if_neg Bool.false_ne_true, jalWord, if_pos rfl, jalStore_low ho,
    jalLoad_store ho _ hv, ← jalMake_mod, hback, jalMake_imm hx]

/-- A pair of an upper and a lower part as the encoder writes it: the lower part's low
bits go first, and the sum of the parts and the address goes last, high byte first. -/
def pairSum (pc x y : ℕ) : ℕ :=
  wrappingAdd32 (wrappingAdd32 (x / 2 ^ 12 * 2 ^ 12) (wrappingSub32 (y / 2 ^ 20) (y / 2 ^ 31 * 2 ^ 12))) pc
def pairFar (pc x y : ℕ) : List UInt8 :=
  bytes32 (y % 2 ^ 20 * 2 ^ 12 + 0x117) ++ bytes32 (swapBytes (pairSum pc x y))

/-- The pair with the sum `z`, as the decoder writes it. -/
def pairNear (pc x z : ℕ) : List UInt8 :=
  let b := wrappingSub32 z pc
  bytes32 (wrappingAdd32 (x / 2 ^ 27 * 2 ^ 7 + 0x17) (wrappingAdd32 b 0x800 / 2 ^ 12 * 2 ^ 12)) ++
    bytes32 (x / 2 ^ 12 + b % 2 ^ 12 * 2 ^ 20)

/-- A pair that looks like a converted one, put aside and taken back. -/
def pairOut (x y : ℕ) : List UInt8 :=
  bytes32 (x / 2 ^ 27 * 2 ^ 7 + 0x17 + y / 2 ^ 12 * 2 ^ 12) ++
    bytes32 (x / 2 ^ 12 + y % 2 ^ 12 * 2 ^ 20)
def pairBack (x y : ℕ) : List UInt8 :=
  bytes32 (y % 2 ^ 20 * 2 ^ 12 + 0x117) ++ bytes32 (x / 2 ^ 12 * 2 ^ 12 + y / 2 ^ 20)

theorem pairSum_back (hx : x < 2 ^ 32) (hy : y < 2 ^ 32) (hpc : pc < 2 ^ 32) :
    wrappingAdd32 (wrappingSub32 (pairSum pc x y) pc) 0x800 / 2 ^ 12 = x / 2 ^ 12 ∧
      wrappingSub32 (pairSum pc x y) pc % 2 ^ 12 = y / 2 ^ 20 := by
  have hback : wrappingSub32 (pairSum pc x y) pc =
      wrappingAdd32 (x / 2 ^ 12 * 2 ^ 12) (wrappingSub32 (y / 2 ^ 20) (y / 2 ^ 31 * 2 ^ 12)) := by
    have hlt : wrappingAdd32 (x / 2 ^ 12 * 2 ^ 12) (wrappingSub32 (y / 2 ^ 20) (y / 2 ^ 31 * 2 ^ 12)) <
        2 ^ 32 := Nat.mod_lt _ (by norm_num)
    rw [pairSum]
    generalize wrappingAdd32 (x / 2 ^ 12 * 2 ^ 12) _ = w at hlt
    unfold wrappingSub32 wrappingAdd32
    omega
  have ha : x / 2 ^ 12 < 2 ^ 20 := by omega
  have hi : y / 2 ^ 20 < 2 ^ 12 := by omega
  have ht : y / 2 ^ 31 = y / 2 ^ 20 / 2 ^ 11 := by omega
  rw [hback, ht]
  generalize x / 2 ^ 12 = a at ha
  generalize y / 2 ^ 20 = i at hi
  clear hback ht hx hy hpc
  unfold wrappingSub32 wrappingAdd32
  omega

theorem pairNear_far (hx : x < 2 ^ 32) (hy : y < 2 ^ 32) (hpc : pc < 2 ^ 32)
    (hlow : x % 2 ^ 7 = 0x17) (hrd : y / 2 ^ 15 % 2 ^ 5 = x / 2 ^ 7 % 2 ^ 5) :
    pairNear pc (y % 2 ^ 20 * 2 ^ 12 + 0x117) (pairSum pc x y) = bytes32 x ++ bytes32 y := by
  obtain ⟨hhigh, hrest⟩ := pairSum_back hx hy hpc
  have hr : (y % 2 ^ 20 * 2 ^ 12 + 0x117) / 2 ^ 27 = y / 2 ^ 15 % 2 ^ 5 := by omega
  have hl : (y % 2 ^ 20 * 2 ^ 12 + 0x117) / 2 ^ 12 = y % 2 ^ 20 := by omega
  have hword : wrappingAdd32 (x / 2 ^ 7 % 2 ^ 5 * 2 ^ 7 + 0x17) (x / 2 ^ 12 * 2 ^ 12) = x := by
    unfold wrappingAdd32
    omega
  have hsecond : y % 2 ^ 20 + y / 2 ^ 20 * 2 ^ 20 = y := by omega
  rw [pairNear]
  simp only [hhigh, hrest, hr, hl, hrd, hword, hsecond]

theorem pairBack_out (hx : x < 2 ^ 32) (hlow : x % 2 ^ 12 = 0x117) :
    pairBack (x / 2 ^ 27 * 2 ^ 7 + 0x17 + y / 2 ^ 12 * 2 ^ 12)
      (x / 2 ^ 12 + y % 2 ^ 12 * 2 ^ 20) = bytes32 x ++ bytes32 y := by
  have h1 : (x / 2 ^ 12 + y % 2 ^ 12 * 2 ^ 20) % 2 ^ 20 * 2 ^ 12 + 0x117 = x := by omega
  have h2 : (x / 2 ^ 27 * 2 ^ 7 + 0x17 + y / 2 ^ 12 * 2 ^ 12) / 2 ^ 12 = y / 2 ^ 12 := by
    have hr : x / 2 ^ 27 * 2 ^ 7 + 0x17 < 2 ^ 12 := by omega
    generalize x / 2 ^ 27 * 2 ^ 7 + 0x17 = r at hr
    generalize y / 2 ^ 12 = u
    omega
  have h3 : (x / 2 ^ 12 + y % 2 ^ 12 * 2 ^ 20) / 2 ^ 20 = y % 2 ^ 12 := by
    have hr : x / 2 ^ 12 < 2 ^ 20 := by omega
    generalize x / 2 ^ 12 = r at hr
    generalize y % 2 ^ 12 = u
    omega
  have h4 : y / 2 ^ 12 * 2 ^ 12 + y % 2 ^ 12 = y := Nat.div_add_mod' _ _
  rw [pairBack, h1, h2, h3, h4]

/-- What a turn puts in place of the word `x` with `y` after it; `y` is looked at for some. -/
def riscvTurn (e : Bool) (pc x y : ℕ) : List UInt8 :=
  let rd := x / 2 ^ 7 % 2 ^ 5
  if x % 2 ^ 7 = 0x6F then
    if rd = 1 ∨ rd = 5 then bytes32 (jalWord e pc x) else (bytes32 x).take 2
  else if rd = 0 ∨ rd = 2 then
    if rd = 2 ∧ x / 2 ^ 12 % 2 ^ 2 = 3 ∧ x / 2 ^ 27 ≠ 0 ∧ x / 2 ^ 27 ≠ 2 then
      if e then pairOut x y else pairNear pc x (swapBytes y)
    else bytes32 x
  else if y % 2 ^ 2 = 3 ∧ y / 2 ^ 15 % 2 ^ 5 = rd then
    if e then pairFar pc x y else pairBack x y
  else bytes32 x ++ (bytes32 y).take 2

def riscvOpcode (b : UInt8) : Prop := b.toNat % 2 ^ 7 = 0x6F ∨ b.toNat % 2 ^ 7 = 0x17

instance (b : UInt8) : Decidable (riscvOpcode b) := inferInstanceAs (Decidable (_ ∨ _))

/-- A halfword that opens no instruction is passed over; one that does needs eight bytes. -/
def riscvStep (e : Bool) (s : Place) : List UInt8 → Option (List UInt8 × Place)
  | a :: b :: rest =>
      if riscvOpcode a then
        match rest with
        | c :: d :: w0 :: w1 :: w2 :: w3 :: _ =>
            let out := riscvTurn e s.1 (le32 a b c d) (le32 w0 w1 w2 w3)
            some (out, s.skip out.length)
        | _ => none
      else some ([a, b], s.skip 2)
  | _ => none

theorem eight_bytes (h : 8 ≤ xs.length) : ∃ a b c d w0 w1 w2 w3 rest,
    xs = a :: b :: c :: d :: w0 :: w1 :: w2 :: w3 :: rest := by
  rcases xs with _ | ⟨a, _ | ⟨b, _ | ⟨c, _ | ⟨d, _ | ⟨w0, _ | ⟨w1, _ | ⟨w2, _ | ⟨w3, rest⟩⟩⟩⟩⟩⟩⟩⟩
  · exact absurd h (by simp)
  · exact absurd h (by simp)
  · exact absurd h (by simp)
  · exact absurd h (by simp)
  · exact absurd h (by simp)
  · exact absurd h (by simp)
  · exact absurd h (by simp)
  · exact absurd h (by simp)
  · exact ⟨a, b, c, d, w0, w1, w2, w3, rest, rfl⟩

theorem riscvStep_pass {a b : UInt8} (ha : ¬riscvOpcode a) (s : Place) (xs : List UInt8) :
    riscvStep e s (a :: b :: xs) = some ([a, b], s.skip 2) := if_neg ha

theorem riscvStep_wait {a b : UInt8} (ha : riscvOpcode a) (h : xs.length < 6) (s : Place) :
    riscvStep e s (a :: b :: xs) = none := by
  rcases xs with _ | ⟨c, _ | ⟨d, _ | ⟨w0, _ | ⟨w1, _ | ⟨w2, _ | ⟨w3, rest⟩⟩⟩⟩⟩⟩
  · exact if_pos ha
  · exact if_pos ha
  · exact if_pos ha
  · exact if_pos ha
  · exact if_pos ha
  · exact if_pos ha
  · exact absurd h (by simp)

theorem riscvStep_turn {a : UInt8} (ha : riscvOpcode a) (b c d w0 w1 w2 w3 : UInt8) (s : Place)
    (xs : List UInt8) : riscvStep e s (a :: b :: c :: d :: w0 :: w1 :: w2 :: w3 :: xs) =
      some (riscvTurn e s.1 (le32 a b c d) (le32 w0 w1 w2 w3),
        s.skip (riscvTurn e s.1 (le32 a b c d) (le32 w0 w1 w2 w3)).length) := if_pos ha

/-- The shapes of a turn, each with what it is for. -/
theorem riscvTurn_length (e : Bool) (pc x y : ℕ) :
    0 < (riscvTurn e pc x y).length ∧ (riscvTurn e pc x y).length ≤ 8 := by
  have hfar : (pairFar pc x y).length = 8 := rfl
  have hnear : (pairNear pc x (swapBytes y)).length = 8 := rfl
  have hout : (pairOut x y).length = 8 := rfl
  have hback : (pairBack x y).length = 8 := rfl
  unfold riscvTurn
  simp only
  split_ifs <;> simp [hfar, hnear, hout, hback]

theorem riscvStep_some (h : riscvStep e s xs = some (out, s')) :
    (∃ a b rest, xs = a :: b :: rest ∧ ¬riscvOpcode a ∧ out = [a, b] ∧ s' = s.skip 2) ∨
    (∃ a b c d w0 w1 w2 w3 rest, xs = a :: b :: c :: d :: w0 :: w1 :: w2 :: w3 :: rest ∧
      riscvOpcode a ∧ out = riscvTurn e s.1 (le32 a b c d) (le32 w0 w1 w2 w3) ∧
      s' = s.skip out.length) := by
  rcases xs with _ | ⟨a, _ | ⟨b, rest⟩⟩
  · cases h
  · cases h
  · by_cases ha : riscvOpcode a
    · right
      by_cases hlen : 8 ≤ (a :: b :: rest).length
      · obtain ⟨a, b, c, d, w0, w1, w2, w3, tail, hxs⟩ := eight_bytes hlen
        cases hxs
        rw [riscvStep_turn ha] at h
        cases h
        exact ⟨_, _, _, _, _, _, _, _, _, rfl, ha, rfl, rfl⟩
      · rw [List.length_cons, List.length_cons] at hlen
        rw [riscvStep_wait ha (by omega)] at h
        cases h
    · rw [riscvStep_pass ha] at h
      cases h
      exact .inl ⟨_, _, _, rfl, ha, rfl, rfl⟩

theorem riscvStep_none (h : riscvStep e s xs = none) : xs.length < 8 := by
  by_contra hlen
  obtain ⟨a, b, c, d, w0, w1, w2, w3, rest, rfl⟩ := eight_bytes (Nat.not_lt.mp hlen)
  by_cases ha : riscvOpcode a
  · rw [riscvStep_turn ha] at h
    cases h
  · rw [riscvStep_pass ha] at h
    cases h

theorem riscvStep_pos (h : riscvStep e s xs = some (out, s')) : 0 < out.length := by
  obtain ⟨a, b, rest, -, -, rfl, -⟩ | ⟨a, b, c, d, w0, w1, w2, w3, rest, -, -, rfl, -⟩ :=
    riscvStep_some h
  · exact Nat.succ_pos 1
  · exact (riscvTurn_length _ _ _ _).1

theorem riscvStep_le (h : riscvStep e s xs = some (out, s')) : out.length ≤ xs.length := by
  obtain ⟨a, b, rest, rfl, -, rfl, -⟩ | ⟨a, b, c, d, w0, w1, w2, w3, rest, rfl, -, rfl, -⟩ :=
    riscvStep_some h
  · simp
  · exact (riscvTurn_length _ _ _ _).2.trans (by simp)

theorem riscvStep_stable {r : List UInt8 × Place} (ys : List UInt8)
    (h : riscvStep e s xs = some r) : riscvStep e s (xs ++ ys) = some r := by
  obtain ⟨a, b, rest, rfl, ha, h1, h2⟩ | ⟨a, b, c, d, w0, w1, w2, w3, rest, rfl, ha, h1, h2⟩ :=
    @riscvStep_some _ _ r.1 _ r.2 h
  · rw [List.cons_append, List.cons_append, riscvStep_pass ha, ← h1, ← h2]
  · simp only [List.cons_append]
    rw [riscvStep_turn ha, ← h1, ← h2]

/-- A halfword, a jump or a pair at a time. -/
def riscvRewriter (e : Bool) : Rewriter UInt8 Place where
  step := riscvStep e
  pos := riscvStep_pos
  le := riscvStep_le
  stable := riscvStep_stable

/-- Fewer than eight bytes stay as they are. -/
theorem riscv_settled (s : Place) (h : xs.length < 8) : (riscvRewriter e).Settled s xs := by
  induction hn : xs.length using Nat.strong_induction_on generalizing s xs with
  | _ n ih =>
      rcases hr : riscvStep e s xs with _ | ⟨o, s1⟩
      · exact settled_none hr
      · obtain ⟨a, b, rest, rfl, -, rfl, -⟩ | ⟨a, b, c, d, w0, w1, w2, w3, rest, rfl, -, -, -⟩ :=
          riscvStep_some hr
        · simp only [List.length_cons] at hn h
          have hstep : (riscvRewriter e).step s (a :: b :: rest) = some ([a, b], s1) := hr
          have hrest := ih rest.length (by omega) s1 (by omega) rfl
          rw [Settled, whole_some hstep]
          exact congrArg ([a, b] ++ ·) hrest
        · exact absurd h (by simp)

theorem le32_low (a b c d : UInt8) : le32 a b c d % 2 ^ 8 = a.toNat := by
  have ha := a.toNat_lt
  unfold le32
  omega

theorem bytes32_first (v : ℕ) : ∃ c t, bytes32 v = c :: t ∧ c.toNat % 2 ^ 7 = v % 2 ^ 7 := by
  refine ⟨_, _, rfl, ?_⟩
  rw [UInt8.toNat_ofNat']
  omega

theorem jalWord_low (e : Bool) (pc x : ℕ) : jalWord e pc x % 2 ^ 12 = x % 2 ^ 12 := by
  have hx : x % 2 ^ 12 < 2 ^ 12 := Nat.mod_lt _ (by norm_num)
  cases e
  · exact jalMake_low hx _
  · exact jalStore_low hx _

/-- Every turn keeps the low seven bits of its first byte. -/
theorem riscvTurn_first (e : Bool) (pc x y : ℕ) (hx : x % 2 ^ 7 = 0x6F ∨ x % 2 ^ 7 = 0x17) :
    ∃ c t, riscvTurn e pc x y = c :: t ∧ c.toNat % 2 ^ 7 = x % 2 ^ 7 := by
  have hid : ∀ t, ∃ c t', bytes32 x ++ t = c :: t' ∧ c.toNat % 2 ^ 7 = x % 2 ^ 7 := by
    intro t
    obtain ⟨c, t', hc, hlow⟩ := bytes32_first x
    exact ⟨c, t' ++ t, by rw [hc]; rfl, hlow⟩
  have hpair : ∀ w t, w % 2 ^ 7 = 0x17 → x % 2 ^ 7 ≠ 0x6F →
      ∃ c t', bytes32 w ++ t = c :: t' ∧ c.toNat % 2 ^ 7 = x % 2 ^ 7 := by
    intro w t hw hne
    obtain ⟨c, t', hc, hlow⟩ := bytes32_first w
    exact ⟨c, t' ++ t, by rw [hc]; rfl, by rw [hlow, hw, hx.resolve_left hne]⟩
  unfold riscvTurn
  simp only
  split_ifs with h1 h2 h3 h4 h5 h6 h7
  · obtain ⟨c, t, hc, hlow⟩ := bytes32_first (jalWord e pc x)
    have hkeep := jalWord_low e pc x
    refine ⟨c, t, hc, ?_⟩
    rw [hlow]
    omega
  · obtain ⟨c, t, hc, hlow⟩ := bytes32_first x
    exact ⟨c, t.take 1, by rw [hc]; rfl, hlow⟩
  · exact hpair _ _ (by omega) h1
  · refine hpair _ _ ?_ h1
    unfold wrappingAdd32
    omega
  · simpa using hid []
  · exact hpair _ _ (by omega) h1
  · exact hpair _ _ (by omega) h1
  · exact hid _

theorem riscv_first (s : Place) (c : UInt8) (rest : List UInt8) :
    ∃ c' rest', (riscvRewriter e).whole s (c :: rest) = c' :: rest' ∧
      c'.toNat % 2 ^ 7 = c.toNat % 2 ^ 7 := by
  rcases hr : riscvStep e s (c :: rest) with _ | ⟨o, s1⟩
  · exact ⟨c, rest, whole_none hr, rfl⟩
  · have hstep : (riscvRewriter e).step s (c :: rest) = some (o, s1) := hr
    obtain ⟨a, b, tail, hxs, -, rfl, -⟩ | ⟨a, b, c1, d, w0, w1, w2, w3, tail, hxs, ha, rfl, -⟩ :=
      riscvStep_some hr
    · cases hxs
      exact ⟨c, _, whole_some hstep, rfl⟩
    · cases hxs
      have hlow : le32 c b c1 d % 2 ^ 7 = c.toNat % 2 ^ 7 := by
        have h8 := le32_low c b c1 d
        omega
      obtain ⟨c', t, hout, hc⟩ := riscvTurn_first e s.1 (le32 c b c1 d) (le32 w0 w1 w2 w3)
        (by rw [hlow]; exact ha)
      rw [hout] at hstep
      exact ⟨c', _, whole_some hstep, by rw [hc, hlow]⟩

theorem le32_fields (a b c d : UInt8) : le32 a b c d % 2 ^ 16 = a.toNat + 2 ^ 8 * b.toNat ∧
    le32 a b c d / 2 ^ 16 = c.toNat + 2 ^ 8 * d.toNat := by
  have h := getU16le_word a b c d
  exact ⟨h.1.symm, h.2.symm⟩

/-- A turn of one direction is taken back by a turn of the other, whatever has become of the
bytes behind it. -/
theorem riscvTurn_back (hpc : pc < 2 ^ 32) (heven : pc % 2 = 0) (hx : x < 2 ^ 32) (hy : y < 2 ^ 32)
    (hop : x % 2 ^ 7 = 0x6F ∨ x % 2 ^ 7 = 0x17) :
    (∃ x', riscvTurn true pc x y = bytes32 x' ∧ x' < 2 ^ 32 ∧
      ∀ z, riscvTurn false pc x' z = bytes32 x) ∨
    (∃ x' y', riscvTurn true pc x y = bytes32 x' ++ bytes32 y' ∧ x' < 2 ^ 32 ∧ y' < 2 ^ 32 ∧
      riscvTurn false pc x' y' = bytes32 x ++ bytes32 y) ∨
    (riscvTurn true pc x y = (bytes32 x).take 2 ∧ ∀ x' z, x' % 2 ^ 16 = x % 2 ^ 16 →
      riscvTurn false pc x' z = (bytes32 x').take 2) ∨
    (riscvTurn true pc x y = bytes32 x ++ (bytes32 y).take 2 ∧ ∀ z, z % 2 ^ 16 = y % 2 ^ 16 →
      z / 2 ^ 16 % 2 ^ 7 = y / 2 ^ 16 % 2 ^ 7 →
      riscvTurn false pc x z = bytes32 x ++ (bytes32 z).take 2) := by
  by_cases h1 : x % 2 ^ 7 = 0x6F
  · by_cases h2 : x / 2 ^ 7 % 2 ^ 5 = 1 ∨ x / 2 ^ 7 % 2 ^ 5 = 5
    · left
      have hkeep := jalWord_low true pc x
      have hlow : jalWord true pc x % 2 ^ 7 = x % 2 ^ 7 := by omega
      have hrd : jalWord true pc x / 2 ^ 7 % 2 ^ 5 = x / 2 ^ 7 % 2 ^ 5 := by omega
      refine ⟨jalWord true pc x, ?_, jalStore_lt (Nat.mod_lt _ (by norm_num)) _, fun z => ?_⟩
      · simp only [riscvTurn, if_pos h1, if_pos h2]
      · simp only [riscvTurn, hlow, hrd, if_pos h1, if_pos h2, jalWord_undo hx hpc heven]
    · right; right; left
      refine ⟨by simp only [riscvTurn, if_pos h1, if_neg h2], fun x' z h => ?_⟩
      have hlow : x' % 2 ^ 7 = x % 2 ^ 7 := by omega
      have hrd : x' / 2 ^ 7 % 2 ^ 5 = x / 2 ^ 7 % 2 ^ 5 := by omega
      simp only [riscvTurn, hlow, hrd, if_pos h1, if_neg h2]
  · have h17 := hop.resolve_left h1
    by_cases h2 : x / 2 ^ 7 % 2 ^ 5 = 0 ∨ x / 2 ^ 7 % 2 ^ 5 = 2
    · by_cases h3 : x / 2 ^ 7 % 2 ^ 5 = 2 ∧ x / 2 ^ 12 % 2 ^ 2 = 3 ∧ x / 2 ^ 27 ≠ 0 ∧ x / 2 ^ 27 ≠ 2
      · right; left
        obtain ⟨hrd, hsec, h0, hne⟩ := id h3
        have hr : x / 2 ^ 27 < 2 ^ 5 := by omega
        have h7 : (x / 2 ^ 27 * 2 ^ 7 + 0x17 + y / 2 ^ 12 * 2 ^ 12) % 2 ^ 7 = 0x17 := by omega
        have hrd' : (x / 2 ^ 27 * 2 ^ 7 + 0x17 + y / 2 ^ 12 * 2 ^ 12) / 2 ^ 7 % 2 ^ 5 = x / 2 ^ 27 :=
          field_eq 0x17 (y / 2 ^ 12) (by norm_num) hr (by omega)
        have hsec' : (x / 2 ^ 12 + y % 2 ^ 12 * 2 ^ 20) % 2 ^ 2 = 3 := by omega
        have hfit : (x / 2 ^ 12 + y % 2 ^ 12 * 2 ^ 20) / 2 ^ 15 % 2 ^ 5 = x / 2 ^ 27 :=
          field_eq (x / 2 ^ 12 % 2 ^ 15) (y % 2 ^ 12) (Nat.mod_lt _ (by norm_num)) hr
            (by omega)
        have hlow : x % 2 ^ 12 = 0x117 := by omega
        refine ⟨x / 2 ^ 27 * 2 ^ 7 + 0x17 + y / 2 ^ 12 * 2 ^ 12,
          x / 2 ^ 12 + y % 2 ^ 12 * 2 ^ 20, ?_, by omega, by omega, ?_⟩
        · simp only [riscvTurn, if_neg h1, if_pos h2, if_pos h3, if_true]
          rfl
        · have h6f : ¬(x / 2 ^ 27 * 2 ^ 7 + 0x17 + y / 2 ^ 12 * 2 ^ 12) % 2 ^ 7 = 0x6F := by
            rw [h7]
            decide
          have hreg : ¬(x / 2 ^ 27 = 0 ∨ x / 2 ^ 27 = 2) := not_or.mpr ⟨h0, hne⟩
          simp only [riscvTurn, hrd', hsec', hfit, if_neg h6f, if_neg hreg, and_self, if_true,
            Bool.false_eq_true, if_false, pairBack_out hx hlow]
      · left
        refine ⟨x, by simp only [riscvTurn, if_neg h1, if_pos h2, if_neg h3], hx, fun z => ?_⟩
        simp only [riscvTurn, if_neg h1, if_pos h2, if_neg h3]
    · by_cases h3 : y % 2 ^ 2 = 3 ∧ y / 2 ^ 15 % 2 ^ 5 = x / 2 ^ 7 % 2 ^ 5
      · right; left
        obtain ⟨hsec, hrd⟩ := h3
        have hr : y / 2 ^ 15 % 2 ^ 5 < 2 ^ 5 := Nat.mod_lt _ (by norm_num)
        have h7 : (y % 2 ^ 20 * 2 ^ 12 + 0x117) % 2 ^ 7 = 0x17 := by omega
        have hrd' : (y % 2 ^ 20 * 2 ^ 12 + 0x117) / 2 ^ 7 % 2 ^ 5 = 2 := by omega
        have hsec' : (y % 2 ^ 20 * 2 ^ 12 + 0x117) / 2 ^ 12 % 2 ^ 2 = 3 := by omega
        have hfit : (y % 2 ^ 20 * 2 ^ 12 + 0x117) / 2 ^ 27 = x / 2 ^ 7 % 2 ^ 5 := by
          rw [← hrd]
          omega
        have hsum : pairSum pc x y < 2 ^ 32 := Nat.mod_lt _ (by norm_num)
        refine ⟨y % 2 ^ 20 * 2 ^ 12 + 0x117, swapBytes (pairSum pc x y), ?_, by omega,
          swapBytes_lt _, ?_⟩
        · simp only [riscvTurn, if_neg h1, if_neg h2, if_pos (And.intro hsec hrd), if_true]
          rfl
        · have h6f : ¬(y % 2 ^ 20 * 2 ^ 12 + 0x117) % 2 ^ 7 = 0x6F := by
            rw [h7]
            decide
          obtain ⟨h0, hne⟩ := not_or.mp h2
          simp only [riscvTurn, if_neg h6f, hrd', hsec', hfit, swapBytes_swapBytes hsum,
            pairNear_far hx hy hpc h17 hrd]
          rw [if_pos (Or.inr trivial), if_pos ⟨trivial, trivial, h0, hne⟩, if_neg Bool.false_ne_true]
      · right; right; right
        refine ⟨by simp only [riscvTurn, if_neg h1, if_neg h2, if_neg h3], fun z hz1 hz2 => ?_⟩
        have hlow : z % 2 ^ 2 = y % 2 ^ 2 := by omega
        have hrd : z / 2 ^ 15 % 2 ^ 5 = y / 2 ^ 15 % 2 ^ 5 := by omega
        simp only [riscvTurn, hlow, hrd, if_neg h1, if_neg h2, if_neg h3]

theorem Place.skip_even {n : ℕ} (hs : s.1 % 2 = 0) (hn : n % 2 = 0) : (s.skip n).1 % 2 = 0 := by
  unfold Place.skip wrappingAdd32
  omega

theorem Place.skip_lt (s : Place) (n : ℕ) : (s.skip n).1 < 2 ^ 32 := Nat.mod_lt _ (by norm_num)

theorem riscvTurn_even (e : Bool) (pc x y : ℕ) : (riscvTurn e pc x y).length % 2 = 0 := by
  have hfar : (pairFar pc x y).length = 8 := rfl
  have hnear : (pairNear pc x (swapBytes y)).length = 8 := rfl
  have hout : (pairOut x y).length = 8 := rfl
  have hback : (pairBack x y).length = 8 := rfl
  unfold riscvTurn
  simp only
  split_ifs <;> simp [hfar, hnear, hout, hback]

theorem riscv_opcode_le32 (a b c d : UInt8) :
    riscvOpcode a ↔ le32 a b c d % 2 ^ 7 = 0x6F ∨ le32 a b c d % 2 ^ 7 = 0x17 := by
  have h8 := le32_low a b c d
  have hlow : le32 a b c d % 2 ^ 7 = a.toNat % 2 ^ 7 := by omega
  rw [riscvOpcode, hlow]

theorem riscv_opcode_kept {x' : ℕ} {t : List UInt8}
    (hop : x % 2 ^ 7 = 0x6F ∨ x % 2 ^ 7 = 0x17) (h : riscvTurn e pc x y = bytes32 x' ++ t) :
    riscvOpcode (UInt8.ofNat x') := by
  obtain ⟨c, u, hc, hlow⟩ := riscvTurn_first e pc x y hop
  rw [hc] at h
  injection h with hfirst
  rw [riscvOpcode, ← hfirst, hlow]
  exact hop

theorem riscv_undo_turn {a b c d w0 w1 w2 w3 : UInt8} {rest : List UInt8} (hs : s.1 < 2 ^ 32)
    (heven : s.1 % 2 = 0) (ha : riscvOpcode a)
    (hout : out = riscvTurn true s.1 (le32 a b c d) (le32 w0 w1 w2 w3)) :
    riscvStep false s (out ++ (riscvRewriter true).whole (s.skip out.length)
        ((a :: b :: c :: d :: w0 :: w1 :: w2 :: w3 :: rest).drop out.length)) =
      some ((a :: b :: c :: d :: w0 :: w1 :: w2 :: w3 :: rest).take out.length,
        s.skip out.length) := by
  have hx := le32_lt a b c d
  have hy := le32_lt w0 w1 w2 w3
  have hop := (riscv_opcode_le32 a b c d).mp ha
  obtain ⟨hfst, hsnd⟩ := le32_fields w0 w1 w2 w3
  rcases riscvTurn_back hs heven hx hy hop with ⟨x', h, hx', hback⟩ | ⟨x', y', h, hx', hy', hback⟩ |
    ⟨h, hback⟩ | ⟨h, hback⟩
  · have ha' : riscvOpcode (UInt8.ofNat x') :=
      riscv_opcode_kept (t := []) hop (by rw [List.append_nil]; exact h)
    have hlen := length_whole (m := riscvRewriter true) (s.skip 4) (w0 :: w1 :: w2 :: w3 :: rest)
    rw [hout, h]
    change riscvStep false s (bytes32 x' ++ (riscvRewriter true).whole (s.skip 4)
      (w0 :: w1 :: w2 :: w3 :: rest)) = _
    generalize (riscvRewriter true).whole (s.skip 4) (w0 :: w1 :: w2 :: w3 :: rest) = ws at hlen
    obtain ⟨z0, ws, rfl⟩ := List.exists_cons_of_length_pos (l := ws) (by simp at hlen; omega)
    obtain ⟨z1, ws, rfl⟩ := List.exists_cons_of_length_pos (l := ws) (by simp at hlen; omega)
    obtain ⟨z2, ws, rfl⟩ := List.exists_cons_of_length_pos (l := ws) (by simp at hlen; omega)
    obtain ⟨z3, ws, rfl⟩ := List.exists_cons_of_length_pos (l := ws) (by simp at hlen; omega)
    apply (riscvStep_turn ha' _ _ _ z0 z1 z2 z3 s ws).trans
    rw [le32_bytes32 hx', hback, bytes32_le32]
    rfl
  · have ha' : riscvOpcode (UInt8.ofNat x') := riscv_opcode_kept hop h
    rw [hout, h]
    apply (riscvStep_turn ha' _ _ _ _ _ _ _ s _).trans
    rw [le32_bytes32 hx', le32_bytes32 hy', hback, bytes32_le32, bytes32_le32]
    rfl
  · rw [bytes32_le32] at h
    have hlen := length_whole (m := riscvRewriter true) (s.skip 2)
      (c :: d :: w0 :: w1 :: w2 :: w3 :: rest)
    rw [hout, h]
    change riscvStep false s (a :: b :: (riscvRewriter true).whole (s.skip 2)
      (c :: d :: w0 :: w1 :: w2 :: w3 :: rest)) = _
    generalize (riscvRewriter true).whole (s.skip 2) (c :: d :: w0 :: w1 :: w2 :: w3 :: rest) = ws
      at hlen
    obtain ⟨y0, ws, rfl⟩ := List.exists_cons_of_length_pos (l := ws) (by simp at hlen; omega)
    obtain ⟨y1, ws, rfl⟩ := List.exists_cons_of_length_pos (l := ws) (by simp at hlen; omega)
    obtain ⟨z0, ws, rfl⟩ := List.exists_cons_of_length_pos (l := ws) (by simp at hlen; omega)
    obtain ⟨z1, ws, rfl⟩ := List.exists_cons_of_length_pos (l := ws) (by simp at hlen; omega)
    obtain ⟨z2, ws, rfl⟩ := List.exists_cons_of_length_pos (l := ws) (by simp at hlen; omega)
    obtain ⟨z3, ws, rfl⟩ := List.exists_cons_of_length_pos (l := ws) (by simp at hlen; omega)
    have hsame : le32 a b y0 y1 % 2 ^ 16 = le32 a b c d % 2 ^ 16 := by
      rw [(le32_fields a b y0 y1).1, (le32_fields a b c d).1]
    apply (riscvStep_turn ha _ _ _ z0 z1 z2 z3 s ws).trans
    rw [hback _ _ hsame, bytes32_le32]
    rfl
  · rw [bytes32_le32, bytes32_le32] at h
    obtain ⟨z2, ws, hw, hz2⟩ := riscv_first (e := true) (s.skip 6) w2 (w3 :: rest)
    have hlen := length_whole (m := riscvRewriter true) (s.skip 6) (w2 :: w3 :: rest)
    rw [hout, h]
    change riscvStep false s (a :: b :: c :: d :: w0 :: w1 :: (riscvRewriter true).whole (s.skip 6)
      (w2 :: w3 :: rest)) = _
    rw [hw] at hlen ⊢
    obtain ⟨z3, ws, rfl⟩ := List.exists_cons_of_length_pos (l := ws) (by simp at hlen; omega)
    obtain ⟨hfst', hsnd'⟩ := le32_fields w0 w1 z2 z3
    apply (riscvStep_turn ha _ _ _ w0 w1 z2 z3 s ws).trans
    rw [hback _ (by rw [hfst', hfst]) (by rw [hsnd', hsnd]; omega), bytes32_le32, bytes32_le32]
    rfl

theorem riscvRewriter_undo (hs : s.1 < 2 ^ 32) (heven : s.1 % 2 = 0) (xs : List UInt8) :
    (riscvRewriter false).whole s ((riscvRewriter true).whole s xs) = xs := by
  refine undo (fun s => s.1 < 2 ^ 32 ∧ s.1 % 2 = 0) ?_ ?_ ?_ ⟨hs, heven⟩ xs
  · intro s xs out s' ⟨_, heven⟩ h
    obtain ⟨a, b, rest, -, -, rfl, rfl⟩ | ⟨a, b, c, d, w0, w1, w2, w3, rest, -, -, rfl, rfl⟩ :=
      riscvStep_some h
    · exact ⟨Place.skip_lt _ _, Place.skip_even heven rfl⟩
    · exact ⟨Place.skip_lt _ _, Place.skip_even heven (riscvTurn_even _ _ _ _)⟩
  · intro s xs out s' ⟨hs, heven⟩ h
    obtain ⟨a, b, rest, rfl, ha, rfl, rfl⟩ | ⟨a, b, c, d, w0, w1, w2, w3, rest, rfl, ha, hout, rfl⟩ :=
      riscvStep_some h
    · exact riscvStep_pass ha s _
    · exact riscv_undo_turn hs heven ha hout
  · intro s xs _ h
    exact riscv_settled s (riscvStep_none h)

end

end LzmaTurbo.Filters
