import LzmaTurbo.Filters.BcjRiscv

/-!
# The RISC-V converters

The source tests a key made of a halfword; a turn of either function puts the turn's
bytes in place, and its scan passes over what the rewriter passes over.
-/
namespace LzmaTurbo.Filters
open Machine BitFields Rewriter

section
variable {e : Bool} {pc x y h v n fuel lim : ℕ} {xs ys done out : List UInt8} {s s' : Place}

theorem riscvKey_split (hh : h < 2 ^ 16) :
    riscvKey h = h / 2 ^ 7 * 2 ^ 7 + ((h % 2 ^ 7 ^^^ 0x10) + 1) := by
  have hlow : h % 2 ^ 7 ^^^ 0x10 < 2 ^ 7 :=
    Nat.xor_lt_two_pow (Nat.mod_lt _ (by norm_num)) (by norm_num)
  have hmod : (h ^^^ 0x10) % 2 ^ 7 = h % 2 ^ 7 ^^^ 0x10 := Nat.xor_mod_two_pow
  have hdiv : (h ^^^ 0x10) / 2 ^ 7 = h / 2 ^ 7 := by
    rw [Nat.xor_div_two_pow]
    exact Nat.xor_zero _
  have hsplit := Nat.div_add_mod' (h ^^^ 0x10) (2 ^ 7)
  rw [hmod, hdiv] at hsplit
  rw [riscvKey, wrappingAdd32, ← hsplit]
  omega

theorem riscvKey_test (hh : h < 2 ^ 16) :
    riscvKey h &&& 0x77 = 0 ↔ h % 2 ^ 7 = 0x6F ∨ h % 2 ^ 7 = 0x17 := by
  have hlow : ∀ l < 2 ^ 7, ((l ^^^ 0x10) + 1) % 2 ^ 7 &&& 0x77 = 0 ↔ l = 0x6F ∨ l = 0x17 := by
    decide +kernel
  have hmask : riscvKey h &&& 0x77 = ((h % 2 ^ 7 ^^^ 0x10) + 1) % 2 ^ 7 &&& 0x77 := by
    have h77 : 0x77 = (2 ^ 7 - 1) &&& 0x77 := rfl
    rw [riscvKey_split hh, h77, ← Nat.and_assoc, Nat.and_two_pow_sub_one_eq_mod,
      Nat.mul_add_mod_self_right]
    rfl
  rw [hmask]
  exact hlow _ (Nat.mod_lt _ (by norm_num))

theorem riscvKey_jal (hh : h < 2 ^ 16) (hop : h % 2 ^ 7 = 0x6F) :
    riscvKey h = h / 2 ^ 7 * 2 ^ 7 + 2 ^ 7 := by
  rw [riscvKey_split hh, hop]
  rfl

theorem riscvKey_auipc (hh : h < 2 ^ 16) (hop : h % 2 ^ 7 = 0x17) :
    riscvKey h = h / 2 ^ 7 * 2 ^ 7 + 8 := by
  rw [riscvKey_split hh, hop]
  rfl

/-- A jump of the encoder: the register test. -/
theorem jal_register (hh : h < 2 ^ 16) (hop : h % 2 ^ 7 = 0x6F) :
    (wrappingSub32 (riscvKey h) 0x100 &&& 0xD80 = 0 ↔ h / 2 ^ 7 % 2 ^ 5 = 1 ∨ h / 2 ^ 7 % 2 ^ 5 = 5) ∧
    (wrappingSub32 (riscvKey h) (0x100 - 0x7F) &&& 0xD80 = 0 ↔
      h / 2 ^ 7 % 2 ^ 5 = 1 ∨ h / 2 ^ 7 % 2 ^ 5 = 5) := by
  have hmask : ∀ k, k &&& 0xD80 = 0 ↔ k / 2 ^ 7 % 2 ^ 2 = 0 ∧ k / 2 ^ 10 % 2 ^ 2 = 0 := by
    intro k
    have hconst : 0xD80 = ((2 ^ 2 - 1) * 2 ^ 7) ||| ((2 ^ 2 - 1) * 2 ^ 10) := rfl
    rw [hconst, and_or_eq_zero, and_field_eq_zero, and_field_eq_zero]
  have hq : h / 2 ^ 7 < 2 ^ 9 := by omega
  rw [riscvKey_jal hh hop, hmask, hmask]
  generalize h / 2 ^ 7 = q at hq
  clear hmask hop hh
  unfold wrappingSub32
  constructor
  · omega
  · omega

theorem auipc_register (hh : h < 2 ^ 16) (hop : h % 2 ^ 7 = 0x17) :
    riscvKey h &&& 0xE80 = 0 ↔ h / 2 ^ 7 % 2 ^ 5 = 0 ∨ h / 2 ^ 7 % 2 ^ 5 = 2 := by
  have hconst : 0xE80 = ((2 ^ 1 - 1) * 2 ^ 7) ||| ((2 ^ 3 - 1) * 2 ^ 9) := rfl
  rw [riscvKey_auipc hh hop, hconst, and_or_eq_zero, and_field_eq_zero, and_field_eq_zero]
  generalize h / 2 ^ 7 = q
  omega

theorem auipc_check2 {r : ℕ} (hh : h < 2 ^ 16) (hop : h % 2 ^ 7 = 0x17) (hr : r < 2 ^ 5) :
    riscvCheck2 (riscvKey h) r = true ↔
      h / 2 ^ 7 % 2 ^ 5 = 2 ∧ h / 2 ^ 12 % 2 ^ 2 = 3 ∧ r ≠ 0 ∧ r ≠ 2 := by
  have hconst : (3 <<< 12) ||| (2 <<< 7) ||| 8 = 0x3108 := rfl
  have hr1 : ∀ r < 2 ^ 5, 0 < r &&& 0x1D ↔ r ≠ 0 ∧ r ≠ 2 := by decide
  have hr2 : r &&& 0x1D ≤ 0x1D := Nat.and_le_right
  have hr3 := hr1 r hr
  have hs : h / 2 ^ 12 = h / 2 ^ 7 / 2 ^ 5 := by omega
  have hq : h / 2 ^ 7 < 2 ^ 9 := by omega
  rw [riscvCheck2, decide_eq_true_iff, hconst, riscvKey_auipc hh hop, ← hr3, hs, Nat.shiftLeft_eq]
  generalize h / 2 ^ 7 = q at hq
  generalize r &&& 0x1D = m at hr2
  clear hr1 hr3 hs hop hh hr hconst
  have hval : u32 (wrappingSub32 (q * 2 ^ 7 + 8) 0x3108 * 2 ^ 18) =
      (q % 2 ^ 7 + 2 ^ 7 - 0x62) % 2 ^ 7 * 2 ^ 25 := by
    unfold u32 wrappingSub32
    omega
  rw [hval]
  omega

theorem xor_field_eq_zero (x y n k : ℕ) :
    (x ^^^ y) / 2 ^ n % 2 ^ k = 0 ↔ x / 2 ^ n % 2 ^ k = y / 2 ^ n % 2 ^ k := by
  rw [Nat.xor_div_two_pow, Nat.xor_mod_two_pow, Nat.xor_eq_zero_iff]

theorem auipc_check1 (hh : h < 2 ^ 16) (hop : h % 2 ^ 7 = 0x17) (hy : y < 2 ^ 32) :
    riscvCheck1 (riscvKey h) y = true ↔ y % 2 ^ 2 = 3 ∧ y / 2 ^ 15 % 2 ^ 5 = h / 2 ^ 7 % 2 ^ 5 := by
  have hconst : 0xF8000 + 3 = ((2 ^ 2 - 1) * 2 ^ 0) ||| ((2 ^ 5 - 1) * 2 ^ 15) := rfl
  have hq : h / 2 ^ 7 < 2 ^ 9 := by omega
  rw [riscvCheck1, decide_eq_true_iff, hconst, and_or_eq_zero, and_field_eq_zero, and_field_eq_zero,
    xor_field_eq_zero, xor_field_eq_zero, riscvKey_auipc hh hop, Nat.shiftLeft_eq]
  generalize h / 2 ^ 7 = q at hq
  clear hop hh hconst
  have h1 : u32 ((q * 2 ^ 7 + 8) * 2 ^ 8) = q * 2 ^ 15 + 2 ^ 11 := by
    unfold u32
    omega
  have h2 : (q * 2 ^ 15 + 2 ^ 11) / 2 ^ 0 % 2 ^ 2 = 0 := by omega
  have h3 : (q * 2 ^ 15 + 2 ^ 11) / 2 ^ 15 % 2 ^ 5 = q % 2 ^ 5 := by omega
  rw [h1, h2, h3]
  unfold wrappingSub32
  clear h1 h2 h3
  omega

/-- The distance as the encoder gathers it. -/
theorem jalImm_gather (x : ℕ) (hx : x < 2 ^ 32) :
    ((x &&& (1 <<< 31)) >>> 11) ||| ((x &&& (0x3FF <<< 21)) >>> 20) ||| ((x &&& (1 <<< 20)) >>> 9) |||
      (x &&& (0xFF <<< 12)) = jalImm x := by
  have h31 : (x &&& (1 <<< 31)) >>> 11 = x / 2 ^ 31 * 2 ^ 20 := by
    have hf := and_field x 31 1
    have hconst : (1 <<< 31 : ℕ) = (2 ^ 1 - 1) * 2 ^ 31 := rfl
    rw [hconst, hf, Nat.shiftRight_eq_div_pow]
    omega
  have h21 : (x &&& (0x3FF <<< 21)) >>> 20 = x / 2 ^ 21 % 2 ^ 10 * 2 := by
    have hf := and_field x 21 10
    have hconst : (0x3FF <<< 21 : ℕ) = (2 ^ 10 - 1) * 2 ^ 21 := rfl
    rw [hconst, hf, Nat.shiftRight_eq_div_pow]
    omega
  have h20 : (x &&& (1 <<< 20)) >>> 9 = x / 2 ^ 20 % 2 ^ 1 * 2 ^ 11 := by
    have hf := and_field x 20 1
    have hconst : (1 <<< 20 : ℕ) = (2 ^ 1 - 1) * 2 ^ 20 := rfl
    rw [hconst, hf, Nat.shiftRight_eq_div_pow]
    omega
  have h12 : x &&& (0xFF <<< 12) = x / 2 ^ 12 % 2 ^ 8 * 2 ^ 12 := and_field x 12 8
  have hy : x / 2 ^ 12 % 2 ^ 8 < 2 ^ 8 := Nat.mod_lt _ (by norm_num)
  have hb : x / 2 ^ 20 % 2 ^ 1 < 2 ^ 1 := Nat.mod_lt _ (by norm_num)
  have hz : x / 2 ^ 21 % 2 ^ 10 < 2 ^ 10 := Nat.mod_lt _ (by norm_num)
  rw [h31, h21, h20, h12, jalImm]
  generalize x / 2 ^ 12 % 2 ^ 8 = y at hy
  generalize x / 2 ^ 20 % 2 ^ 1 = b at hb
  generalize x / 2 ^ 21 % 2 ^ 10 = z at hz
  generalize x / 2 ^ 31 = t
  calc t * 2 ^ 20 ||| z * 2 ||| b * 2 ^ 11 ||| y * 2 ^ 12
      = ((z * 2 ||| b * 2 ^ 11) ||| y * 2 ^ 12) ||| t * 2 ^ 20 := by
        rw [Nat.or_assoc, Nat.or_assoc, Nat.or_comm, ← Nat.or_assoc]
    _ = t * 2 ^ 20 + (y * 2 ^ 12 + (b * 2 ^ 11 + z * 2)) := by
        rw [or_add (n := 11) (by omega), or_add (n := 12) (by omega), or_add (n := 20) (by omega)]
    _ = t * 2 ^ 20 + y * 2 ^ 12 + b * 2 ^ 11 + z * 2 := by omega

/-- The word as the decoder puts it together. -/
theorem jalMake_gather {o : ℕ} (ho : o < 2 ^ 12) (v : ℕ) :
    o ||| (u32 (v <<< 11) &&& (1 <<< 31)) ||| (u32 (v <<< 20) &&& (0x3FF <<< 21)) |||
      (u32 (v <<< 9) &&& (1 <<< 20)) ||| (v &&& (0xFF <<< 12)) = jalMake o v := by
  have h31 : u32 (v <<< 11) &&& (1 <<< 31) = v / 2 ^ 20 % 2 ^ 1 * 2 ^ 31 := by
    have hf := and_field (u32 (v <<< 11)) 31 1
    have hconst : (1 <<< 31 : ℕ) = (2 ^ 1 - 1) * 2 ^ 31 := rfl
    rw [hconst, hf, Nat.shiftLeft_eq, u32]
    omega
  have h21 : u32 (v <<< 20) &&& (0x3FF <<< 21) = v / 2 ^ 1 % 2 ^ 10 * 2 ^ 21 := by
    have hf := and_field (u32 (v <<< 20)) 21 10
    have hconst : (0x3FF <<< 21 : ℕ) = (2 ^ 10 - 1) * 2 ^ 21 := rfl
    rw [hconst, hf, Nat.shiftLeft_eq, u32]
    omega
  have h20 : u32 (v <<< 9) &&& (1 <<< 20) = v / 2 ^ 11 % 2 ^ 1 * 2 ^ 20 := by
    have hf := and_field (u32 (v <<< 9)) 20 1
    have hconst : (1 <<< 20 : ℕ) = (2 ^ 1 - 1) * 2 ^ 20 := rfl
    rw [hconst, hf, Nat.shiftLeft_eq, u32]
    omega
  have h12 : v &&& (0xFF <<< 12) = v / 2 ^ 12 % 2 ^ 8 * 2 ^ 12 := and_field v 12 8
  have hy : v / 2 ^ 12 % 2 ^ 8 < 2 ^ 8 := Nat.mod_lt _ (by norm_num)
  have hb : v / 2 ^ 11 % 2 ^ 1 < 2 ^ 1 := Nat.mod_lt _ (by norm_num)
  have hz : v / 2 ^ 1 % 2 ^ 10 < 2 ^ 10 := Nat.mod_lt _ (by norm_num)
  rw [h31, h21, h20, h12, jalMake]
  generalize v / 2 ^ 12 % 2 ^ 8 = y at hy
  generalize v / 2 ^ 11 % 2 ^ 1 = b at hb
  generalize v / 2 ^ 1 % 2 ^ 10 = z at hz
  generalize v / 2 ^ 20 % 2 ^ 1 = t
  calc o ||| t * 2 ^ 31 ||| z * 2 ^ 21 ||| b * 2 ^ 20 ||| y * 2 ^ 12
      = (((o ||| y * 2 ^ 12) ||| b * 2 ^ 20) ||| z * 2 ^ 21) ||| t * 2 ^ 31 := by
        simp only [Nat.or_assoc, Nat.or_comm, Nat.or_left_comm]
    _ = t * 2 ^ 31 + (z * 2 ^ 21 + (b * 2 ^ 20 + (y * 2 ^ 12 + o))) := by
        rw [or_add (n := 12) ho, or_add (n := 20) (by omega), or_add (n := 21) (by omega),
          or_add (n := 31) (by omega)]
    _ = o + y * 2 ^ 12 + b * 2 ^ 20 + z * 2 ^ 21 + t * 2 ^ 31 := by omega

theorem jalLoad_gather (a b c d : UInt8) {k : ℕ}
    (hk : k / 2 ^ 12 % 2 ^ 4 = le32 a b c d / 2 ^ 12 % 2 ^ 4) :
    ((d.toNat <<< 1) ||| (c.toNat <<< 9)) ||| u32 ((k &&& 0xF000) <<< 5) = jalLoad (le32 a b c d) := by
  have hc : le32 a b c d / 2 ^ 16 % 2 ^ 8 = c.toNat := by
    have h := (le32_fields a b c d).2
    have hc := c.toNat_lt
    omega
  have hd : le32 a b c d / 2 ^ 24 = d.toNat := by
    have h := (le32_fields a b c d).2
    have hc := c.toNat_lt
    omega
  have hmask : k &&& 0xF000 = k / 2 ^ 12 % 2 ^ 4 * 2 ^ 12 := and_field k 12 4
  have hs : le32 a b c d / 2 ^ 12 % 2 ^ 4 < 2 ^ 4 := Nat.mod_lt _ (by norm_num)
  have hd8 := d.toNat_lt
  have hc8 := c.toNat_lt
  rw [jalLoad, hc, hd, hmask, hk, Nat.shiftLeft_eq, Nat.shiftLeft_eq, Nat.shiftLeft_eq, u32]
  generalize le32 a b c d / 2 ^ 12 % 2 ^ 4 = t at hs
  generalize d.toNat = z at hd8
  generalize c.toNat = y at hc8
  have hmod : t * 2 ^ 12 * 2 ^ 5 % 2 ^ 32 = t * 2 ^ 17 := by omega
  rw [hmod, or_add (n := 9) (by omega), or_add (n := 17) (by omega)]
  omega

section
variable (done : List UInt8) (a b c d w0 w1 w2 w3 : UInt8) (rest : List UInt8)

theorem read_first : getU32le (done ++ a :: b :: c :: d :: w0 :: w1 :: w2 :: w3 :: rest) done.length =
    .ok (le32 a b c d) := getU32le_behind done (a :: b :: c :: d :: w0 :: w1 :: w2 :: w3 :: rest) 0

theorem read_second : getU32le (done ++ a :: b :: c :: d :: w0 :: w1 :: w2 :: w3 :: rest)
    (done.length + 4) = .ok (le32 w0 w1 w2 w3) :=
  getU32le_behind done (a :: b :: c :: d :: w0 :: w1 :: w2 :: w3 :: rest) 4

theorem read_second_be : getU32be (done ++ a :: b :: c :: d :: w0 :: w1 :: w2 :: w3 :: rest)
    (done.length + 4) = .ok (swapBytes (le32 w0 w1 w2 w3)) := by
  have h := swapBytes_fields w0.toNat_lt w1.toNat_lt w2.toNat_lt w3.toNat_lt
  apply (getU32be_behind done (a :: b :: c :: d :: w0 :: w1 :: w2 :: w3 :: rest) 4).trans
  exact congrArg _ h.symm

theorem write_first (v : ℕ) : setU32le (done ++ a :: b :: c :: d :: w0 :: w1 :: w2 :: w3 :: rest)
    done.length v = .ok (done ++ (bytes32 v ++ w0 :: w1 :: w2 :: w3 :: rest)) := by
  apply (setU32le_behind done (a :: b :: c :: d :: w0 :: w1 :: w2 :: w3 :: rest) 0 v).trans
  simp [setU32le]

/-- Both words of a pair are written, the second in either order. -/
theorem write_second (u v : ℕ) : setU32le (done ++ (bytes32 u ++ w0 :: w1 :: w2 :: w3 :: rest))
    (done.length + 4) v = .ok (done ++ (bytes32 u ++ bytes32 v ++ rest)) := by
  apply (setU32le_behind done (bytes32 u ++ w0 :: w1 :: w2 :: w3 :: rest) 4 v).trans
  have hlen : 4 + 4 ≤ (bytes32 u ++ w0 :: w1 :: w2 :: w3 :: rest).length := by
    simp
    omega
  have htake : (bytes32 u ++ w0 :: w1 :: w2 :: w3 :: rest).take 4 = bytes32 u :=
    List.take_left' rfl
  have hdrop : (bytes32 u ++ w0 :: w1 :: w2 :: w3 :: rest).drop (4 + 4) = rest := rfl
  rw [setU32le, if_pos hlen, htake, hdrop, behind_ok]

/-- A turn that writes the whole of `t` over as many bytes. -/
def turned (t ys : List UInt8) : Except Fault (List UInt8 × ℕ) :=
  .ok (done ++ (t ++ ys.drop t.length), done.length + t.length)

theorem write_three (v1 v2 v3 : ℕ) : (do
      let data ← setByte (done ++ a :: b :: c :: d :: rest) (done.length + 1) v1
      let data ← setByte data (done.length + 2) v2
      let data ← setByte data (done.length + 3) v3
      .ok (data, done.length + 4)) =
    .ok (done ++ ([a, UInt8.ofNat v1, UInt8.ofNat v2, UInt8.ofNat v3] ++ rest), done.length + 4) := by
  rw [setByte_behind, setByte, if_pos (by simp), behind_ok, ok_bind, List.set, List.set,
    setByte_behind, setByte, if_pos (by simp), behind_ok, ok_bind, List.set, List.set, List.set,
    setByte_behind, setByte, if_pos (by simp), behind_ok, ok_bind, List.set, List.set, List.set,
    List.set]
  rfl

theorem jalStore_bytes (v : ℕ) : bytes32 (jalStore (le32 a b c d % 2 ^ 12) v) =
    [a, UInt8.ofNat (((v >>> 13) &&& 0xF0) ||| ((le32 a b c d >>> 8) &&& 0xF)),
      UInt8.ofNat (v >>> 9), UInt8.ofNat (v >>> 1)] := by
  have hbyte : ∀ m n : ℕ, m % 2 ^ 8 = n % 2 ^ 8 → UInt8.ofNat m = UInt8.ofNat n := fun m n h => by
    rw [← UInt8.toNat_inj, UInt8.toNat_ofNat', UInt8.toNat_ofNat', h]
  have ha : le32 a b c d % 2 ^ 12 % 2 ^ 8 = a.toNat := by
    have h := le32_low a b c d
    omega
  have hnib : ((v >>> 13) &&& 0xF0) ||| ((le32 a b c d >>> 8) &&& 0xF) =
      v / 2 ^ 17 % 2 ^ 4 * 2 ^ 4 + le32 a b c d % 2 ^ 12 / 2 ^ 8 := by
    have hhigh : (v >>> 13) &&& 0xF0 = v / 2 ^ 17 % 2 ^ 4 * 2 ^ 4 := by
      have hf := and_field (v >>> 13) 4 4
      have hconst : 0xF0 = (2 ^ 4 - 1) * 2 ^ 4 := rfl
      rw [hconst, hf, Nat.shiftRight_eq_div_pow, Nat.div_div_eq_div_mul, ← Nat.pow_add]
    have hl : (le32 a b c d >>> 8) &&& 0xF = le32 a b c d % 2 ^ 12 / 2 ^ 8 := by
      have hf : (le32 a b c d >>> 8) &&& 0xF = le32 a b c d >>> 8 % 2 ^ 4 :=
        Nat.and_two_pow_sub_one_eq_mod _ 4
      rw [hf, Nat.shiftRight_eq_div_pow]
      omega
    rw [hhigh, hl, add_or (by omega)]
  have hy : v / 2 ^ 17 % 2 ^ 4 < 2 ^ 4 := Nat.mod_lt _ (by norm_num)
  have hb : v / 2 ^ 9 % 2 ^ 8 < 2 ^ 8 := Nat.mod_lt _ (by norm_num)
  have hz : v / 2 ^ 1 % 2 ^ 8 < 2 ^ 8 := Nat.mod_lt _ (by norm_num)
  have ho : le32 a b c d % 2 ^ 12 < 2 ^ 12 := Nat.mod_lt _ (by norm_num)
  rw [hnib, jalStore, bytes32, Nat.shiftRight_eq_div_pow, Nat.shiftRight_eq_div_pow]
  generalize le32 a b c d % 2 ^ 12 = o at ha ho
  have h9 : v / 2 ^ 9 % 2 ^ 8 % 2 ^ 8 = v / 2 ^ 9 % 2 ^ 8 := Nat.mod_mod _ _
  have h1 : v / 2 ^ 1 % 2 ^ 8 % 2 ^ 8 = v / 2 ^ 1 % 2 ^ 8 := Nat.mod_mod _ _
  rw [hbyte (v / 2 ^ 9) _ h9.symm, hbyte (v / 2 ^ 1) _ h1.symm]
  generalize v / 2 ^ 17 % 2 ^ 4 = y at hy
  generalize v / 2 ^ 9 % 2 ^ 8 = u at hb
  generalize v / 2 ^ 1 % 2 ^ 8 = z at hz
  have e0 : (o + y * 2 ^ 12 + u * 2 ^ 16 + z * 2 ^ 24) % 2 ^ 8 = a.toNat := by omega
  have e1 : (o + y * 2 ^ 12 + u * 2 ^ 16 + z * 2 ^ 24) / 2 ^ 8 % 2 ^ 8 = (y * 2 ^ 4 + o / 2 ^ 8) % 2 ^ 8 := by
    omega
  have e2 : (o + y * 2 ^ 12 + u * 2 ^ 16 + z * 2 ^ 24) / 2 ^ 16 % 2 ^ 8 = u % 2 ^ 8 := by omega
  have e3 : (o + y * 2 ^ 12 + u * 2 ^ 16 + z * 2 ^ 24) / 2 ^ 24 % 2 ^ 8 = z % 2 ^ 8 := by omega
  have hfirst : UInt8.ofNat (o + y * 2 ^ 12 + u * 2 ^ 16 + z * 2 ^ 24) = a := by
    rw [← UInt8.toNat_inj, UInt8.toNat_ofNat', e0]
  rw [hfirst, hbyte _ _ e1, hbyte _ _ e2, hbyte _ _ e3]

theorem turned_pair (u v : ℕ) :
    turned done (bytes32 u ++ bytes32 v) (a :: b :: c :: d :: w0 :: w1 :: w2 :: w3 :: rest) =
      .ok (done ++ (bytes32 u ++ bytes32 v ++ rest), done.length + 8) := rfl

theorem riscvEncodeAt_jal (pc : ℕ) (hop : (a.toNat + 2 ^ 8 * b.toNat) % 2 ^ 7 = 0x6F) :
    riscvEncodeAt (done ++ a :: b :: c :: d :: w0 :: w1 :: w2 :: w3 :: rest) pc done.length
        (riscvKey (a.toNat + 2 ^ 8 * b.toNat)) =
      turned done (riscvTurn true (wrappingAdd32 pc done.length) (le32 a b c d) (le32 w0 w1 w2 w3))
        (a :: b :: c :: d :: w0 :: w1 :: w2 :: w3 :: rest) := by
  have ha := a.toNat_lt
  have hb := b.toNat_lt
  have hh : a.toNat + 2 ^ 8 * b.toNat < 2 ^ 16 := by omega
  have hx := le32_lt a b c d
  have hfst := (le32_fields a b c d).1
  obtain ⟨hreg, -⟩ := jal_register hh hop
  have h8 : riscvKey (a.toNat + 2 ^ 8 * b.toNat) &&& 8 = 0 := by
    rw [riscvKey_jal hh hop]
    have hconst : 8 = (2 ^ 1 - 1) * 2 ^ 3 := rfl
    rw [hconst, and_field_eq_zero]
    omega
  rw [← hfst] at hh hop hreg h8 ⊢
  have hlow : le32 a b c d % 2 ^ 7 = 0x6F := by omega
  have hrd : le32 a b c d % 2 ^ 16 / 2 ^ 7 % 2 ^ 5 = le32 a b c d / 2 ^ 7 % 2 ^ 5 := by omega
  rw [hrd] at hreg
  rw [riscvEncodeAt, read_first, ok_bind, if_pos h8]
  by_cases hr : le32 a b c d / 2 ^ 7 % 2 ^ 5 = 1 ∨ le32 a b c d / 2 ^ 7 % 2 ^ 5 = 5
  · rw [if_neg (not_not.mpr (hreg.mpr hr))]
    have hword : jalWord true (wrappingAdd32 pc done.length) (le32 a b c d) =
        jalStore (le32 a b c d % 2 ^ 12)
          (wrappingAdd32 (jalImm (le32 a b c d)) (wrappingAdd32 pc done.length)) := by
      rw [jalWord, if_pos rfl, convertVal, if_pos rfl]
    simp only [riscvTurn, if_pos hlow, if_pos hr, jalImm_gather _ hx, wrappingAdd32_u32]
    rw [hword, turned, jalStore_bytes]
    exact write_three done a b c d (w0 :: w1 :: w2 :: w3 :: rest) _ _ _
  · rw [if_pos (mt hreg.mp hr)]
    simp only [riscvTurn, if_pos hlow, if_neg hr, bytes32_le32]
    rfl

/-- What the source's halfword says of the first word. -/
theorem first_half {t : ℕ} (hop : (a.toNat + 2 ^ 8 * b.toNat) % 2 ^ 7 = t) :
    a.toNat + 2 ^ 8 * b.toNat < 2 ^ 16 ∧ le32 a b c d % 2 ^ 7 = t ∧
      (a.toNat + 2 ^ 8 * b.toNat) / 2 ^ 7 % 2 ^ 5 = le32 a b c d / 2 ^ 7 % 2 ^ 5 ∧
      (a.toNat + 2 ^ 8 * b.toNat) / 2 ^ 12 % 2 ^ 2 = le32 a b c d / 2 ^ 12 % 2 ^ 2 := by
  have ha := a.toNat_lt
  have hb := b.toNat_lt
  have hfst := (le32_fields a b c d).1
  rw [← hfst] at hop ⊢
  omega

theorem riscvDecodeAt_jal (pc : ℕ) (hop : (a.toNat + 2 ^ 8 * b.toNat) % 2 ^ 7 = 0x6F) :
    riscvDecodeAt (done ++ a :: b :: c :: d :: w0 :: w1 :: w2 :: w3 :: rest) pc done.length
        (riscvKey (a.toNat + 2 ^ 8 * b.toNat)) =
      turned done (riscvTurn false (wrappingAdd32 pc done.length) (le32 a b c d) (le32 w0 w1 w2 w3))
        (a :: b :: c :: d :: w0 :: w1 :: w2 :: w3 :: rest) := by
  obtain ⟨hh, hlow, hrd, -⟩ := first_half a b c d hop
  have hx := le32_lt a b c d
  have hfst := (le32_fields a b c d).1
  obtain ⟨-, hreg⟩ := jal_register hh hop
  have h8 : riscvKey (a.toNat + 2 ^ 8 * b.toNat) &&& 8 = 0 := by
    rw [riscvKey_jal hh hop]
    have hconst : 8 = (2 ^ 1 - 1) * 2 ^ 3 := rfl
    rw [hconst, and_field_eq_zero]
    omega
  rw [hrd] at hreg
  rw [riscvDecodeAt, if_pos h8]
  by_cases hr : le32 a b c d / 2 ^ 7 % 2 ^ 5 = 1 ∨ le32 a b c d / 2 ^ 7 % 2 ^ 5 = 5
  · have hkey := riscvKey_jal hh hop
    have hb3 : byteAt (done ++ a :: b :: c :: d :: w0 :: w1 :: w2 :: w3 :: rest) (done.length + 3) =
        .ok d.toNat := byteAt_behind done (a :: b :: c :: d :: w0 :: w1 :: w2 :: w3 :: rest) 3
    have hb2 : byteAt (done ++ a :: b :: c :: d :: w0 :: w1 :: w2 :: w3 :: rest) (done.length + 2) =
        .ok c.toNat := byteAt_behind done (a :: b :: c :: d :: w0 :: w1 :: w2 :: w3 :: rest) 2
    have hsub : wrappingSub32 (riscvKey (a.toNat + 2 ^ 8 * b.toNat)) (0x100 - 0x7F) =
        (a.toNat + 2 ^ 8 * b.toNat) / 2 ^ 7 * 2 ^ 7 - 1 := by
      rw [hkey, wrappingSub32]
      generalize a.toNat + 2 ^ 8 * b.toNat = h at hh hrd
      clear hop hreg h8 hkey hfst
      omega
    have hold : wrappingAdd32 ((a.toNat + 2 ^ 8 * b.toNat) / 2 ^ 7 * 2 ^ 7 - 1) (0xEF - 0x7F) &&& 0xFFF =
        le32 a b c d % 2 ^ 12 := by
      have hmask : ∀ k, k &&& 0xFFF = k % 2 ^ 12 := fun k => Nat.and_two_pow_sub_one_eq_mod k 12
      rw [hmask, wrappingAdd32]
      rw [← hfst] at hh hop hrd ⊢
      clear hreg h8 hkey hsub hmask hfst
      omega
    have htop : ((a.toNat + 2 ^ 8 * b.toNat) / 2 ^ 7 * 2 ^ 7 - 1) / 2 ^ 12 % 2 ^ 4 =
        le32 a b c d / 2 ^ 12 % 2 ^ 4 := by
      rw [← hfst] at hh hop hrd ⊢
      clear hreg h8 hkey hsub hold hfst
      omega
    have ho : le32 a b c d % 2 ^ 12 < 2 ^ 12 := Nat.mod_lt _ (by norm_num)
    have hword : jalWord false (wrappingAdd32 pc done.length) (le32 a b c d) =
        jalMake (le32 a b c d % 2 ^ 12)
          (wrappingSub32 (jalLoad (le32 a b c d)) (wrappingAdd32 pc done.length)) := by
      rw [jalWord, if_neg Bool.false_ne_true, convertVal, if_neg Bool.false_ne_true]
    have hzero := hreg.mpr hr
    rw [hsub] at hzero
    simp only [hsub, ne_eq, hzero, not_true_eq_false, if_false, hold, hb3, hb2, ok_bind,
      jalLoad_gather a b c d htop, wrappingAdd32_u32, jalMake_gather ho, write_first, ← hword,
      riscvTurn, if_pos hlow, if_pos hr]
    rfl
  · simp only [riscvTurn, if_pos hlow, if_neg hr, bytes32_le32, ne_eq, mt hreg.mp hr, not_false_eq_true,
      if_true]
    rfl

theorem auipc_key (hop : (a.toNat + 2 ^ 8 * b.toNat) % 2 ^ 7 = 0x17) :
    ¬riscvKey (a.toNat + 2 ^ 8 * b.toNat) &&& 8 = 0 := by
  have ha := a.toNat_lt
  have hb := b.toNat_lt
  have hconst : 8 = (2 ^ 1 - 1) * 2 ^ 3 := rfl
  rw [riscvKey_auipc (by omega) hop, hconst, and_field_eq_zero]
  omega

theorem high_mask (hv : v < 2 ^ 32) : v &&& 0xFFFFF000 = v / 2 ^ 12 * 2 ^ 12 := by
  have hf := and_field v 12 20
  have hconst : 0xFFFFF000 = (2 ^ 20 - 1) * 2 ^ 12 := rfl
  rw [hconst, hf, Nat.mod_eq_of_lt (by omega)]

theorem pair_first (v : ℕ) :
    u32 (v <<< 12) ||| (0x17 + (2 <<< 7)) = v % 2 ^ 20 * 2 ^ 12 + 0x117 := by
  have hshift : u32 (v <<< 12) = v % 2 ^ 20 * 2 ^ 12 := by
    rw [Nat.shiftLeft_eq, u32]
    omega
  have hconst : (0x17 + (2 <<< 7) : ℕ) = 0x117 := rfl
  rw [hshift, hconst, add_or (by norm_num)]

theorem pair_second (hx : x < 2 ^ 32) (v : ℕ) :
    (x >>> 12) ||| u32 (v <<< 20) = x / 2 ^ 12 + v % 2 ^ 12 * 2 ^ 20 := by
  have hshift : u32 (v <<< 20) = v % 2 ^ 12 * 2 ^ 20 := by
    rw [Nat.shiftLeft_eq, u32]
    omega
  rw [hshift, Nat.shiftRight_eq_div_pow, or_add (by omega), Nat.add_comm]

theorem pair_out_word (hx : x < 2 ^ 32) (hy : y < 2 ^ 32) :
    wrappingAdd32 ((x / 2 ^ 27) <<< 7 + 0x17) (y &&& 0xFFFFF000) =
      x / 2 ^ 27 * 2 ^ 7 + 0x17 + y / 2 ^ 12 * 2 ^ 12 := by
  have hr : x / 2 ^ 27 < 2 ^ 5 := by omega
  have hu : y / 2 ^ 12 < 2 ^ 20 := by omega
  rw [high_mask hy, Nat.shiftLeft_eq, wrappingAdd32]
  exact Nat.mod_eq_of_lt (by omega)

theorem pair_back_word (hx : x < 2 ^ 32) (hy : y < 2 ^ 32) :
    (x &&& 0xFFFFF000) ||| (y >>> 20) = x / 2 ^ 12 * 2 ^ 12 + y / 2 ^ 20 := by
  rw [high_mask hx, Nat.shiftRight_eq_div_pow, add_or (by omega)]

/-- The sign of the low part is a bit of it, moved. -/
theorem pair_sum_gather (hx : x < 2 ^ 32) (hy : y < 2 ^ 32) :
    wrappingAdd32 (wrappingAdd32 (x &&& 0xFFFFF000)
      (wrappingSub32 (y >>> 20) (y >>> 19 &&& 0x1000))) pc = pairSum pc x y := by
  have hsign : y >>> 19 &&& 0x1000 = y / 2 ^ 31 * 2 ^ 12 := by
    have hf := and_field (y >>> 19) 12 1
    have hconst : 0x1000 = (2 ^ 1 - 1) * 2 ^ 12 := rfl
    have htop : y / 2 ^ (19 + 12) % 2 ^ 1 = y / 2 ^ 31 := Nat.mod_eq_of_lt (by omega)
    rw [hconst, hf, Nat.shiftRight_eq_div_pow, Nat.div_div_eq_div_mul, ← Nat.pow_add, htop]
  rw [high_mask hx, hsign, Nat.shiftRight_eq_div_pow, pairSum]

theorem riscvEncodeAt_auipc (pc : ℕ) (hop : (a.toNat + 2 ^ 8 * b.toNat) % 2 ^ 7 = 0x17) :
    riscvEncodeAt (done ++ a :: b :: c :: d :: w0 :: w1 :: w2 :: w3 :: rest) pc done.length
        (riscvKey (a.toNat + 2 ^ 8 * b.toNat)) =
      turned done (riscvTurn true (wrappingAdd32 pc done.length) (le32 a b c d) (le32 w0 w1 w2 w3))
        (a :: b :: c :: d :: w0 :: w1 :: w2 :: w3 :: rest) := by
  obtain ⟨hh, hlow, hrd, hsec⟩ := first_half a b c d hop
  have hx := le32_lt a b c d
  have hy := le32_lt w0 w1 w2 w3
  have h6f : ¬le32 a b c d % 2 ^ 7 = 0x6F := by omega
  have hreg := auipc_register hh hop
  have hc1 := auipc_check1 (y := le32 w0 w1 w2 w3) hh hop hy
  have hc2 := auipc_check2 (r := le32 a b c d >>> 27) hh hop
    (by rw [Nat.shiftRight_eq_div_pow]; omega)
  rw [hrd, hsec, Nat.shiftRight_eq_div_pow] at hc2
  rw [hrd] at hreg hc1
  rw [riscvEncodeAt, read_first, ok_bind, if_neg (auipc_key a b hop)]
  by_cases hr : le32 a b c d / 2 ^ 7 % 2 ^ 5 = 0 ∨ le32 a b c d / 2 ^ 7 % 2 ^ 5 = 2
  · rw [if_neg (not_not.mpr (hreg.mpr hr))]
    by_cases hc : le32 a b c d / 2 ^ 7 % 2 ^ 5 = 2 ∧ le32 a b c d / 2 ^ 12 % 2 ^ 2 = 3 ∧
        le32 a b c d / 2 ^ 27 ≠ 0 ∧ le32 a b c d / 2 ^ 27 ≠ 2
    · have hw := pair_out_word hx hy
      simp only [Nat.shiftRight_eq_div_pow _ 27, hc2.mpr hc, if_true, read_second, ok_bind, hw,
        pair_second hx, write_first, write_second, riscvTurn, if_neg h6f, if_pos hr, if_pos hc,
        pairOut, turned_pair]
    · simp only [Nat.shiftRight_eq_div_pow _ 27, mt hc2.mp hc, Bool.false_eq_true, if_false, riscvTurn,
        if_neg h6f, if_pos hr, if_neg hc, bytes32_le32]
      rfl
  · rw [if_pos (mt hreg.mp hr)]
    by_cases hc : le32 w0 w1 w2 w3 % 2 ^ 2 = 3 ∧
        le32 w0 w1 w2 w3 / 2 ^ 15 % 2 ^ 5 = le32 a b c d / 2 ^ 7 % 2 ^ 5
    · have hsum := @pair_sum_gather (wrappingAdd32 pc done.length) _ _ hx hy
      have hturn : riscvTurn true (wrappingAdd32 pc done.length) (le32 a b c d) (le32 w0 w1 w2 w3) =
          pairFar (wrappingAdd32 pc done.length) (le32 a b c d) (le32 w0 w1 w2 w3) := by
        simp only [riscvTurn, if_neg h6f, if_neg hr, if_pos hc, if_true]
      rw [hturn, pairFar, turned_pair, read_second, ok_bind, if_pos (hc1.mpr hc)]
      simp only [wrappingAdd32_u32, hsum]
      rw [pair_first, write_first, ok_bind, setU32be, write_second, ok_bind]
    · have hturn : riscvTurn true (wrappingAdd32 pc done.length) (le32 a b c d) (le32 w0 w1 w2 w3) =
          [a, b, c, d, w0, w1] := by
        simp only [riscvTurn, if_neg h6f, if_neg hr, if_neg hc, bytes32_le32]
        rfl
      rw [hturn, read_second, ok_bind, if_neg (mt hc1.mp hc)]
      rfl

theorem riscvDecodeAt_auipc (pc : ℕ) (hop : (a.toNat + 2 ^ 8 * b.toNat) % 2 ^ 7 = 0x17) :
    riscvDecodeAt (done ++ a :: b :: c :: d :: w0 :: w1 :: w2 :: w3 :: rest) pc done.length
        (riscvKey (a.toNat + 2 ^ 8 * b.toNat)) =
      turned done (riscvTurn false (wrappingAdd32 pc done.length) (le32 a b c d) (le32 w0 w1 w2 w3))
        (a :: b :: c :: d :: w0 :: w1 :: w2 :: w3 :: rest) := by
  obtain ⟨hh, hlow, hrd, hsec⟩ := first_half a b c d hop
  have hx := le32_lt a b c d
  have hy := le32_lt w0 w1 w2 w3
  have h6f : ¬le32 a b c d % 2 ^ 7 = 0x6F := by omega
  have hreg := auipc_register hh hop
  have hc1 := auipc_check1 (y := le32 w0 w1 w2 w3) hh hop hy
  have hc2 := auipc_check2 (r := le32 a b c d >>> 27) hh hop
    (by rw [Nat.shiftRight_eq_div_pow]; omega)
  rw [hrd, hsec, Nat.shiftRight_eq_div_pow] at hc2
  rw [hrd] at hreg hc1
  rw [riscvDecodeAt, if_neg (auipc_key a b hop), read_first, ok_bind]
  by_cases hr : le32 a b c d / 2 ^ 7 % 2 ^ 5 = 0 ∨ le32 a b c d / 2 ^ 7 % 2 ^ 5 = 2
  · rw [if_pos (hreg.mpr hr)]
    by_cases hc : le32 a b c d / 2 ^ 7 % 2 ^ 5 = 2 ∧ le32 a b c d / 2 ^ 12 % 2 ^ 2 = 3 ∧
        le32 a b c d / 2 ^ 27 ≠ 0 ∧ le32 a b c d / 2 ^ 27 ≠ 2
    · have hlt : ∀ k, wrappingAdd32 k 0x800 < 2 ^ 32 := fun k => Nat.mod_lt _ (by norm_num)
      simp only [Nat.shiftRight_eq_div_pow _ 27, hc2.mpr hc, if_true, read_second_be, ok_bind,
        wrappingAdd32_u32, pair_second hx, high_mask (hlt _), Nat.shiftLeft_eq _ 7, write_first,
        write_second, riscvTurn, if_neg h6f, if_pos hr, if_pos hc,
        Bool.false_eq_true, if_false, pairNear, turned_pair]
    · simp only [Nat.shiftRight_eq_div_pow _ 27, mt hc2.mp hc, Bool.false_eq_true, if_false, riscvTurn,
        if_neg h6f, if_pos hr, if_neg hc, bytes32_le32]
      rfl
  · rw [if_neg (mt hreg.mp hr)]
    by_cases hc : le32 w0 w1 w2 w3 % 2 ^ 2 = 3 ∧
        le32 w0 w1 w2 w3 / 2 ^ 15 % 2 ^ 5 = le32 a b c d / 2 ^ 7 % 2 ^ 5
    · have hback := pair_back_word (y := le32 w0 w1 w2 w3) hx hy
      have hturn : riscvTurn false (wrappingAdd32 pc done.length) (le32 a b c d) (le32 w0 w1 w2 w3) =
          pairBack (le32 a b c d) (le32 w0 w1 w2 w3) := by
        simp only [riscvTurn, if_neg h6f, if_neg hr, if_pos hc, Bool.false_eq_true, if_false]
      rw [hturn, pairBack, turned_pair, read_second, ok_bind, if_pos (hc1.mpr hc)]
      simp only [hback]
      rw [pair_first, write_first, ok_bind, write_second, ok_bind]
    · have hturn : riscvTurn false (wrappingAdd32 pc done.length) (le32 a b c d) (le32 w0 w1 w2 w3) =
          [a, b, c, d, w0, w1] := by
        simp only [riscvTurn, if_neg h6f, if_neg hr, if_neg hc, bytes32_le32]
        rfl
      rw [hturn, read_second, ok_bind, if_neg (mt hc1.mp hc)]
      rfl

end

/-- Either direction's turn at an opcode. -/
def riscvAt (e : Bool) : List UInt8 → ℕ → ℕ → ℕ → Except Fault (List UInt8 × ℕ) :=
  if e then riscvEncodeAt else riscvDecodeAt

theorem riscvAt_eq {a : UInt8} (ha : riscvOpcode a) (e : Bool) (done : List UInt8) (pc : ℕ)
    (b c d w0 w1 w2 w3 : UInt8) (rest : List UInt8) :
    riscvAt e (done ++ a :: b :: c :: d :: w0 :: w1 :: w2 :: w3 :: rest) pc done.length
        (riscvKey (a.toNat + 2 ^ 8 * b.toNat)) =
      turned done (riscvTurn e (wrappingAdd32 pc done.length) (le32 a b c d) (le32 w0 w1 w2 w3))
        (a :: b :: c :: d :: w0 :: w1 :: w2 :: w3 :: rest) := by
  have hlow : (a.toNat + 2 ^ 8 * b.toNat) % 2 ^ 7 = a.toNat % 2 ^ 7 := by omega
  rw [riscvOpcode, ← hlow] at ha
  rcases ha with h | h
  · cases e
    · exact riscvDecodeAt_jal done a b c d w0 w1 w2 w3 rest pc h
    · exact riscvEncodeAt_jal done a b c d w0 w1 w2 w3 rest pc h
  · cases e
    · exact riscvDecodeAt_auipc done a b c d w0 w1 w2 w3 rest pc h
    · exact riscvEncodeAt_auipc done a b c d w0 w1 w2 w3 rest pc h

theorem riscvKey_opcode (a b : UInt8) :
    riscvKey (a.toNat + 2 ^ 8 * b.toNat) &&& 0x77 = 0 ↔ riscvOpcode a := by
  have ha := a.toNat_lt
  have hb := b.toNat_lt
  have hlow : (a.toNat + 2 ^ 8 * b.toNat) % 2 ^ 7 = a.toNat % 2 ^ 7 := by omega
  rw [riscvKey_test (by omega), hlow, riscvOpcode]

theorem riscvRewriter_pass {a b : UInt8} (ha : ¬riscvOpcode a) (s : Place) (xs : List UInt8) :
    (riscvRewriter e).step s (a :: b :: xs) = some ([a, b], s.skip 2) := if_neg ha

/-- Where the scan ends: short of eight bytes, or at an opcode. -/
theorem riscvScan_reaches {k : ℕ} (hfuel : ys.length < fuel) (heven : (done.length + lim) % 2 = 0)
    (hlen : lim + 6 ≤ done.length + ys.length) (hleft : done.length + ys.length < lim + 8) :
    ∃ out left, ys = out ++ left ∧ out.length % 2 = 0 ∧
      (riscvRewriter e).Reaches (wrappingAdd32 pc done.length, k) ys out
        (wrappingAdd32 pc (done ++ out).length, k) left ∧
      ((riscvScan (done ++ ys) lim fuel done.length = .ok ((done ++ out).length, none) ∧
          left.length < 8) ∨
        ∃ a b c d w0 w1 w2 w3 rest, left = a :: b :: c :: d :: w0 :: w1 :: w2 :: w3 :: rest ∧
          riscvOpcode a ∧ riscvScan (done ++ ys) lim fuel done.length =
            .ok ((done ++ out).length, some (riscvKey (a.toNat + 2 ^ 8 * b.toNat)))) := by
  induction fuel generalizing ys done with
  | zero => omega
  | succ fuel ih =>
      by_cases hlim : lim ≤ done.length
      · refine ⟨[], ys, rfl, rfl, by simpa using .refl _ _, .inl ⟨?_, by omega⟩⟩
        rw [riscvScan, if_pos hlim]
        simp
      · obtain ⟨a, b, c, d, w0, w1, w2, w3, rest, rfl⟩ := @eight_bytes ys (by omega)
        simp only [List.length_cons] at hfuel hlen hleft
        have hread : getU16le (done ++ a :: b :: c :: d :: w0 :: w1 :: w2 :: w3 :: rest) done.length =
            .ok (a.toNat + 2 ^ 8 * b.toNat) :=
          getU16le_behind done (a :: b :: c :: d :: w0 :: w1 :: w2 :: w3 :: rest) 0
        have hread2 : getU16le (done ++ a :: b :: c :: d :: w0 :: w1 :: w2 :: w3 :: rest)
            (done.length + 2) = .ok (c.toNat + 2 ^ 8 * d.toNat) :=
          getU16le_behind done (a :: b :: c :: d :: w0 :: w1 :: w2 :: w3 :: rest) 2
        by_cases ha : riscvOpcode a
        · refine ⟨[], _, rfl, rfl, by simpa using .refl _ _,
            .inr ⟨a, b, c, d, w0, w1, w2, w3, rest, rfl, ha, ?_⟩⟩
          simp only [riscvScan, if_neg hlim, hread, ok_bind, (riscvKey_opcode a b).mpr ha, if_true,
            List.append_nil]
        · have hpass : (riscvRewriter e).step (wrappingAdd32 pc done.length, k)
              (a :: b :: c :: d :: w0 :: w1 :: w2 :: w3 :: rest) =
                some ([a, b], Place.skip (wrappingAdd32 pc done.length, k) 2) := riscvRewriter_pass ha _ _
          have hone := Reaches.one hpass
          rw [Place.skip, wrappingAdd32_assoc] at hone
          have hlen2 : (done ++ [a, b]).length = done.length + 2 := List.length_append
          by_cases hc : riscvOpcode c
          · refine ⟨[a, b], c :: d :: w0 :: w1 :: w2 :: w3 :: rest, rfl, Nat.mod_self 2,
              by rw [hlen2]; exact hone, ?_⟩
            by_cases hend : lim ≤ done.length + 2
            · refine .inl ⟨?_, by simp only [List.length_cons]; omega⟩
              simp only [riscvScan, if_neg hlim, hread, hread2, ok_bind,
                mt (riscvKey_opcode a b).mp ha, (riscvKey_opcode c d).mpr hc, if_false, if_true,
                if_pos hend, hlen2]
            · obtain ⟨v0, v1, tail, rfl⟩ : ∃ v0 v1 tail, rest = v0 :: v1 :: tail := by
                rcases rest with _ | ⟨v0, _ | ⟨v1, tail⟩⟩
                · simp only [List.length_nil] at hlen
                  omega
                · simp only [List.length_cons, List.length_nil] at hlen
                  omega
                · exact ⟨v0, v1, tail, rfl⟩
              refine .inr ⟨c, d, w0, w1, w2, w3, v0, v1, tail, rfl, hc, ?_⟩
              simp only [riscvScan, if_neg hlim, hread, hread2, ok_bind,
                mt (riscvKey_opcode a b).mp ha, (riscvKey_opcode c d).mpr hc, if_false, if_true,
                if_neg hend, hlen2]
          · have hpass2 : (riscvRewriter e).step (wrappingAdd32 pc (done.length + 2), k)
                (c :: d :: w0 :: w1 :: w2 :: w3 :: rest) =
                  some ([c, d], Place.skip (wrappingAdd32 pc (done.length + 2), k) 2) :=
              riscvRewriter_pass hc _ _
            have htwo := hone.trans (Reaches.one hpass2)
            rw [Place.skip, wrappingAdd32_assoc] at htwo
            have hlen4 : (done ++ [a, b, c, d]).length = done.length + 2 + 2 := List.length_append
            obtain ⟨out, left, hsplit, hout, hreach, hend⟩ := @ih (w0 :: w1 :: w2 :: w3 :: rest)
              (done ++ [a, b, c, d]) (by simp only [List.length_cons]; omega)
              (by omega) (by simp only [List.length_cons]; omega)
              (by simp only [List.length_cons]; omega)
            have hscan : riscvScan (done ++ a :: b :: c :: d :: w0 :: w1 :: w2 :: w3 :: rest) lim
                (fuel + 1) done.length = riscvScan (done ++ [a, b, c, d] ++ w0 :: w1 :: w2 :: w3 :: rest)
                  lim fuel (done ++ [a, b, c, d]).length := by
              rw [hlen4, List.append_assoc]
              simp only [riscvScan, if_neg hlim, hread, hread2, ok_bind,
                mt (riscvKey_opcode a b).mp ha, mt (riscvKey_opcode c d).mp hc, if_false]
              rfl
            rw [hlen4] at hreach
            have happ : done ++ [a, b, c, d] ++ out = done ++ ([a, b, c, d] ++ out) :=
              List.append_assoc _ _ _
            rw [happ] at hreach hend
            refine ⟨[a, b, c, d] ++ out, left, by rw [List.append_assoc, ← hsplit]; rfl,
              by rw [List.length_append]; simp only [List.length_cons, List.length_nil]; omega,
              htwo.trans hreach, ?_⟩
            rw [hscan]
            exact hend

theorem riscvLoop_reaches {k : ℕ} (hfuel : ys.length < fuel) (heven : (done.length + lim) % 2 = 0)
    (hlen : lim + 6 ≤ done.length + ys.length) (hleft : done.length + ys.length < lim + 8) :
    ∃ out left s', riscvLoop (riscvAt e) pc lim fuel (done ++ ys) done.length =
        .ok (done ++ out ++ left, (done ++ out).length) ∧ left.length < 8 ∧ s'.2 = k ∧
      (riscvRewriter e).Reaches (wrappingAdd32 pc done.length, k) ys out s' left := by
  induction fuel generalizing ys done with
  | zero => omega
  | succ fuel ih =>
      obtain ⟨out, left, rfl, hout, hreach, hend⟩ :=
        @riscvScan_reaches e pc ((done ++ ys).length + 1) lim ys done k
        (by rw [List.length_append]; omega) heven hlen hleft
      rcases hend with ⟨hscan, hl⟩ | ⟨a, b, c, d, w0, w1, w2, w3, rest, rfl, ha, hscan⟩
      · refine ⟨out, left, _, ?_, hl, rfl, hreach⟩
        rw [riscvLoop, hscan, ok_bind, List.append_assoc]
      · have hturn := riscvAt_eq ha e (done ++ out) pc b c d w0 w1 w2 w3 rest
        have hstep : (riscvRewriter e).step (wrappingAdd32 pc (done ++ out).length, k)
            (a :: b :: c :: d :: w0 :: w1 :: w2 :: w3 :: rest) = some (
              riscvTurn e (wrappingAdd32 pc (done ++ out).length) (le32 a b c d) (le32 w0 w1 w2 w3),
              Place.skip (wrappingAdd32 pc (done ++ out).length, k)
                (riscvTurn e (wrappingAdd32 pc (done ++ out).length) (le32 a b c d)
                  (le32 w0 w1 w2 w3)).length) :=
          riscvStep_turn ha b c d w0 w1 w2 w3 (wrappingAdd32 pc (done ++ out).length, k) rest
        have hpos := riscvTurn_length e (wrappingAdd32 pc (done ++ out).length) (le32 a b c d)
          (le32 w0 w1 w2 w3)
        have hpar := riscvTurn_even e (wrappingAdd32 pc (done ++ out).length) (le32 a b c d)
          (le32 w0 w1 w2 w3)
        generalize riscvTurn e (wrappingAdd32 pc (done ++ out).length) (le32 a b c d)
          (le32 w0 w1 w2 w3) = t at hturn hstep hpos hpar
        have hone := hreach.trans (Reaches.one hstep)
        rw [Place.skip, wrappingAdd32_assoc] at hone
        generalize hys : a :: b :: c :: d :: w0 :: w1 :: w2 :: w3 :: rest = left at *
        have hll : 8 ≤ left.length := by
          rw [← hys]
          simp
        have hdone : (done ++ (out ++ t)).length = (done ++ out).length + t.length := by
          rw [← List.append_assoc, List.length_append]
        have hall : (done ++ (out ++ left)).length = (done ++ out).length + left.length := by
          rw [← List.append_assoc, List.length_append]
        rw [List.length_append] at hfuel hall
        rw [List.length_append] at hlen hleft
        obtain ⟨out', left', s', hrun, hl', hk, hrest⟩ := @ih (left.drop t.length)
          (done ++ (out ++ t)) (by rw [List.length_drop]; omega)
          (by rw [hdone, List.length_append]; omega)
          (by rw [hdone, List.length_drop, List.length_append]; omega)
          (by rw [hdone, List.length_drop, List.length_append]; omega)
        refine ⟨out ++ t ++ out', left', s', ?_, hl', hk, ?_⟩
        · have hdata : done ++ out ++ (t ++ left.drop t.length) =
              done ++ (out ++ t) ++ left.drop t.length := by
            simp only [List.append_assoc]
          rw [riscvLoop, hscan, ok_bind, ← List.append_assoc]
          simp only [hturn, turned, ok_bind]
          rw [hdata, ← hdone, hrun]
          simp only [List.append_assoc]
        · rw [← hdone] at hone
          exact hone.trans hrest

end

end LzmaTurbo.Filters
