import LzmaTurbo.Filters.BcjBundle
import LzmaTurbo.Filters.BcjThumb

/-!
# x86 calls and jumps

A branch byte and its operand are rewritten, or only passed over: the three bits that are
kept say where branch bytes just passed over are, and a byte of the operand that looks
like a high byte then forbids the conversion.
-/
namespace LzmaTurbo.Filters
open Machine BitFields Rewriter

section
variable {e : Bool} {c k m o v n fuel lim : ℕ} {xs ys done out : List UInt8} {s s' : Place}

theorem needConvMsByte_iff (b : ℕ) :
    needConvMsByte b = true ↔ b % 2 ^ 8 = 0 ∨ b % 2 ^ 8 = 0xFF := by
  have h : ∀ x < 2 ^ 8, (x + 1) % 2 ^ 8 &&& 0xFE = 0 ↔ x = 0 ∨ x = 0xFF := by decide +kernel
  rw [needConvMsByte, decide_eq_true_iff]
  exact h _ (Nat.mod_lt _ (by norm_num))

/-- A sum's low part turned around, with the summand added once more. -/
theorem turned_low {N v c : ℕ} (hN : 0 < N) :
    (N - 1 - (v + c) % N + c) % N = N - 1 - v % N := by
  have hr := Nat.mod_lt (v + c) hN
  have hv := Nat.mod_lt v hN
  have hx := Nat.mod_lt (N - 1 - (v + c) % N + c) hN
  have hsum : (N - 1 - (v + c) % N + c + v) % N = N - 1 := by
    have h1 : N - 1 - (v + c) % N + c + v = N - 1 - (v + c) % N + (v + c) := by omega
    have h2 : N - 1 - (v + c) % N + (v + c) % N = N - 1 := by omega
    rw [h1, ← Nat.add_mod_mod, h2, Nat.mod_eq_of_lt (by omega)]
  rw [Nat.add_mod] at hsum
  generalize (N - 1 - (v + c) % N + c) % N = x at *
  generalize v % N = y at *
  by_cases hlt : x + y < N
  · rw [Nat.mod_eq_of_lt hlt] at hsum
    omega
  · rw [Nat.mod_eq_sub_mod (by omega), Nat.mod_eq_of_lt (by omega)] at hsum
    omega

/-- The bits below a power and the byte at their top, turned around. -/
theorem turned_byte (hk : k = 0 ∨ k = 1 ∨ k = 2) {x y : ℕ}
    (h : x % 2 ^ (8 * k + 8) = 2 ^ (8 * k + 8) - 1 - y % 2 ^ (8 * k + 8)) :
    x / 2 ^ (8 * k) % 2 ^ 8 = 0xFF - y / 2 ^ (8 * k) % 2 ^ 8 := by
  rcases hk with rfl | rfl | rfl
  · simp only [Nat.mul_zero, Nat.zero_add, Nat.pow_zero, Nat.div_one] at *
    omega
  · simp only [Nat.mul_one] at *
    omega
  · simp only [show 8 * 2 = 16 by rfl, show 16 + 8 = 24 by rfl] at *
    omega

/-- The mask of a turned operand. -/
theorem turned_mask (hk : k = 0 ∨ k = 1 ∨ k = 2) :
    wrappingSub32 (u32 (0x100 <<< (k <<< 3))) 1 = 2 ^ (8 * k + 8) - 1 := by
  rcases hk with rfl | rfl | rfl
  · rfl
  · rfl
  · rfl

/-- Whether the byte `k` of a value looks like a high byte. -/
def msAt (k v : ℕ) : Prop := v / 2 ^ (8 * k) % 2 ^ 8 = 0 ∨ v / 2 ^ (8 * k) % 2 ^ 8 = 0xFF

theorem msAt_iff (k v : ℕ) : needConvMsByte (v >>> (k <<< 3)) = true ↔ msAt k v := by
  have hshift : k <<< 3 = 8 * k := by
    rw [Nat.shiftLeft_eq]
    omega
  rw [needConvMsByte_iff, hshift, Nat.shiftRight_eq_div_pow, msAt]

theorem x86Turned_eq (hk : k = 0 ∨ k = 1 ∨ k = 2) (v c : ℕ) (e : Bool) :
    x86Turned v c k e =
      if needConvMsByte (convertVal v c e >>> (k <<< 3)) then
        convertVal (convertVal v c e ^^^ (2 ^ (8 * k + 8) - 1)) c e
      else convertVal v c e := by
  rw [x86Turned]
  simp only [turned_mask hk]

theorem xor_mask_low (x n : ℕ) : (x ^^^ (2 ^ n - 1)) % 2 ^ n = 2 ^ n - 1 - x % 2 ^ n := by
  have hlt : 2 ^ n - 1 - x % 2 ^ n < 2 ^ n := by
    have h := Nat.two_pow_pos n
    omega
  rw [xor_low, Nat.mul_add_mod_self_right, Nat.mod_eq_of_lt hlt]

/-- Low bits decide about a byte among them. -/
theorem msAt_congr (hk : k = 0 ∨ k = 1 ∨ k = 2) {x y : ℕ} (h : x % 2 ^ 25 = y % 2 ^ 25) :
    msAt k x ↔ msAt k y := by
  have hbyte : x / 2 ^ (8 * k) % 2 ^ 8 = y / 2 ^ (8 * k) % 2 ^ 8 := by
    rcases hk with rfl | rfl | rfl
    · simp only [Nat.mul_zero, Nat.pow_zero, Nat.div_one]
      omega
    · simp only [Nat.mul_one]
      omega
    · simp only [show 8 * 2 = 16 by rfl]
      omega
  rw [msAt, msAt, hbyte]

theorem msAt_turned (hk : k = 0 ∨ k = 1 ∨ k = 2) {x y : ℕ}
    (h : x % 2 ^ (8 * k + 8) = 2 ^ (8 * k + 8) - 1 - y % 2 ^ (8 * k + 8)) :
    msAt k x ↔ msAt k y := by
  have hbyte := turned_byte hk h
  have hlt : y / 2 ^ (8 * k) % 2 ^ 8 < 2 ^ 8 := Nat.mod_lt _ (by norm_num)
  rw [msAt, msAt, hbyte]
  omega

/-- The operand's value moved, the low bits turned around when the kept bits say so. -/
def x86Moved (e : Bool) (c m v : ℕ) : ℕ :=
  if m = 0 then convertVal v c e else x86Turned v c (m >>> 1) e

def x86Word (e : Bool) (c m o : ℕ) : ℕ :=
  wrappingSub32 (x86Moved e c m (wrappingAdd32 o (1 <<< 24)) &&& ((1 <<< 25) - 1)) (1 <<< 24)

/-- With the address taken off a sum, its low bits are the summand's. -/
theorem convertVal_sub_add {u : ℕ} (hn : n ≤ 32) (hc : c ≤ 2 ^ 32)
    (hu : u % 2 ^ n = (v + c) % 2 ^ n) : convertVal u c false % 2 ^ n = v % 2 ^ n := by
  have hdvd : 2 ^ n ∣ 2 ^ 32 := Nat.pow_dvd_pow 2 hn
  simp only [convertVal, wrappingSub32, Bool.false_eq_true, if_false]
  generalize 2 ^ 32 = N at hdvd hc
  generalize 2 ^ n = q at hdvd hu
  rw [Nat.mod_mod_of_dvd _ hdvd, Nat.add_sub_assoc hc, ← Nat.mod_add_mod, hu, Nat.mod_add_mod,
    Nat.add_assoc, Nat.add_sub_cancel' hc, Nat.add_mod, Nat.mod_eq_zero_of_dvd hdvd, Nat.add_zero,
    Nat.mod_mod]

theorem convertVal_add (hn : n ≤ 32) (v c : ℕ) : convertVal v c true % 2 ^ n = (v + c) % 2 ^ n := by
  rw [convertVal, if_pos rfl, wrappingAdd32, Nat.mod_mod_of_dvd _ (Nat.pow_dvd_pow 2 hn)]

/-- A moved value shows no high byte where the kept bits look, and is moved back. -/
theorem x86Turned_back (hk : k = 0 ∨ k = 1 ∨ k = 2) (hc : c ≤ 2 ^ 32) (hv : ¬msAt k v) {u : ℕ}
    (hu : u % 2 ^ 25 = x86Turned v c k true % 2 ^ 25) :
    ¬msAt k u ∧ x86Turned u c k false % 2 ^ 25 = v % 2 ^ 25 := by
  have hL : 8 * k + 8 ≤ 25 := by omega
  have hd : 2 ^ (8 * k + 8) ∣ 2 ^ 25 := Nat.pow_dvd_pow 2 hL
  have hlow : ∀ {x y : ℕ}, x % 2 ^ 25 = y % 2 ^ 25 → x % 2 ^ (8 * k + 8) = y % 2 ^ (8 * k + 8) := by
    intro x y h
    rw [← Nat.mod_mod_of_dvd x hd, h, Nat.mod_mod_of_dvd y hd]
  rw [x86Turned_eq hk] at hu
  rw [x86Turned_eq hk]
  by_cases hms : msAt k (convertVal v c true)
  · rw [if_pos ((msAt_iff k _).mpr hms)] at hu
    generalize hy : convertVal v c true ^^^ (2 ^ (8 * k + 8) - 1) = y at hu
    have hylow : y % 2 ^ (8 * k + 8) = 2 ^ (8 * k + 8) - 1 - (v + c) % 2 ^ (8 * k + 8) := by
      rw [← hy, xor_mask_low, convertVal_add (by omega)]
    have hu25 : u % 2 ^ 25 = (y + c) % 2 ^ 25 := by
      rw [hu, convertVal_add (by omega)]
    have hulow : u % 2 ^ (8 * k + 8) = 2 ^ (8 * k + 8) - 1 - v % 2 ^ (8 * k + 8) := by
      rw [hlow hu25, Nat.add_mod, hylow, Nat.add_mod_mod, turned_low (Nat.two_pow_pos _)]
    have hback : convertVal u c false % 2 ^ 25 = y % 2 ^ 25 :=
      convertVal_sub_add (by omega) hc hu25
    have hyms : msAt k y ↔ msAt k (convertVal v c true) := by
      apply msAt_turned hk
      rw [hylow, convertVal_add (by omega)]
    have hdms : msAt k (convertVal u c false) := (msAt_congr hk hback).mpr (hyms.mpr hms)
    refine ⟨mt (msAt_turned hk hulow).mp hv, ?_⟩
    rw [if_pos ((msAt_iff k _).mpr hdms)]
    apply convertVal_sub_add (by omega) hc
    rw [Nat.xor_mod_two_pow, hback, ← Nat.xor_mod_two_pow, ← hy, Nat.xor_assoc, Nat.xor_self,
      Nat.xor_zero, convertVal_add (by omega)]
  · rw [if_neg (mt (msAt_iff k _).mp hms)] at hu
    have hu25 : u % 2 ^ 25 = (v + c) % 2 ^ 25 := by
      rw [hu, convertVal_add (by omega)]
    have hback : convertVal u c false % 2 ^ 25 = v % 2 ^ 25 :=
      convertVal_sub_add (by omega) hc hu25
    have hdms : ¬msAt k (convertVal u c false) := mt (msAt_congr hk hback).mp hv
    refine ⟨mt (msAt_congr hk hu).mp hms, ?_⟩
    rw [if_neg (mt (msAt_iff k _).mp hdms), hback]

/-- Whether an operand stays as it is. -/
def x86Skips (m o : ℕ) : Prop :=
  4 < m ∨ m = 3 ∨ (m ≠ 0 ∧ msAt (m >>> 1) o) ∨ ¬msAt 3 o

instance (k v : ℕ) : Decidable (msAt k v) := inferInstanceAs (Decidable (_ ∨ _))
instance (m o : ℕ) : Decidable (x86Skips m o) := inferInstanceAs (Decidable (_ ∨ _))

theorem not_skips (h : ¬x86Skips m o) :
    ¬4 < m ∧ m ≠ 3 ∧ (m ≠ 0 → ¬msAt (m >>> 1) o) ∧ msAt 3 o := by
  simpa only [x86Skips, not_or, not_and, not_not] using h

theorem x86Word_lt (e : Bool) (c m o : ℕ) : x86Word e c m o < 2 ^ 32 := Nat.mod_lt _ (by norm_num)

/-- A converted operand in terms of its moved value. -/
theorem x86Word_value (e : Bool) (c m o : ℕ) :
    wrappingAdd32 (x86Word e c m o) (1 <<< 24) =
      x86Moved e c m (wrappingAdd32 o (1 <<< 24)) % 2 ^ 25 := by
  have hmask : ∀ x, x &&& ((1 <<< 25) - 1) = x % 2 ^ 25 :=
    fun x => Nat.and_two_pow_sub_one_eq_mod x 25
  have hconst : (1 <<< 24 : ℕ) = 2 ^ 24 := rfl
  rw [x86Word, hmask, hconst]
  generalize x86Moved e c m (wrappingAdd32 o (2 ^ 24)) = x
  unfold wrappingAdd32 wrappingSub32
  omega

/-- An operand with a high byte, as a value of 25 bits. -/
theorem ms_high (o : ℕ) : msAt 3 o ↔ wrappingAdd32 o (1 <<< 24) < 2 ^ 25 := by
  have hconst : (1 <<< 24 : ℕ) = 2 ^ 24 := rfl
  rw [hconst, msAt, wrappingAdd32]
  omega

theorem ms_low (hk : k = 0 ∨ k = 1 ∨ k = 2) (o : ℕ) : msAt k (wrappingAdd32 o (1 <<< 24)) ↔ msAt k o := by
  have hconst : (1 <<< 24 : ℕ) = 2 ^ 24 := rfl
  have hbyte : wrappingAdd32 o (1 <<< 24) / 2 ^ (8 * k) % 2 ^ 8 = o / 2 ^ (8 * k) % 2 ^ 8 := by
    rw [hconst, wrappingAdd32]
    rcases hk with rfl | rfl | rfl
    · simp only [Nat.mul_zero, Nat.pow_zero, Nat.div_one]
      omega
    · simp only [Nat.mul_one]
      omega
    · simp only [show 8 * 2 = 16 by rfl]
      omega
  rw [msAt, msAt, hbyte]

theorem kept_bit (h4 : ¬4 < m) : m >>> 1 = 0 ∨ m >>> 1 = 1 ∨ m >>> 1 = 2 := by
  rw [Nat.shiftRight_eq_div_pow]
  omega

/-- An operand that was converted would be converted again, and the other way it goes back. -/
theorem x86Word_undo (ho : o < 2 ^ 32) (hc : c ≤ 2 ^ 32) (h : ¬x86Skips m o) :
    ¬x86Skips m (x86Word true c m o) ∧ x86Word false c m (x86Word true c m o) = o := by
  obtain ⟨h4, h3, hms, hhigh⟩ := not_skips h
  have hval := x86Word_value true c m o
  have hw := x86Word_lt true c m o
  have hfit := (ms_high o).mp hhigh
  have hu : wrappingAdd32 (x86Word true c m o) (1 <<< 24) < 2 ^ 25 := by
    rw [hval]
    exact Nat.mod_lt _ (by norm_num)
  have hboth : (m ≠ 0 → ¬msAt (m >>> 1) (x86Word true c m o)) ∧
      x86Moved false c m (wrappingAdd32 (x86Word true c m o) (1 <<< 24)) % 2 ^ 25 =
        wrappingAdd32 o (1 <<< 24) := by
    by_cases hm : m = 0
    · refine ⟨fun h => absurd hm h, ?_⟩
      rw [hval, x86Moved, if_pos hm, x86Moved, if_pos hm]
      exact convertVal_back (by omega) hfit hc
    · have hk := kept_bit h4
      have hback := x86Turned_back (u := wrappingAdd32 (x86Word true c m o) (1 <<< 24)) hk hc
        (mt (ms_low hk o).mp (hms hm)) (by rw [hval, Nat.mod_mod, x86Moved, if_neg hm])
      refine ⟨fun _ => mt (ms_low hk _).mpr hback.1, ?_⟩
      rw [x86Moved, if_neg hm, hback.2, Nat.mod_eq_of_lt hfit]
  constructor
  · rintro (hx | hx | ⟨hx, hx'⟩ | hx)
    · exact h4 hx
    · exact h3 hx
    · exact hboth.1 hx hx'
    · exact hx ((ms_high _).mpr hu)
  · have hmask : ∀ x, x &&& ((1 <<< 25) - 1) = x % 2 ^ 25 :=
      fun x => Nat.and_two_pow_sub_one_eq_mod x 25
    rw [x86Word, hmask, hboth.2, wrappingSub32, wrappingAdd32]
    have hconst : (1 <<< 24 : ℕ) = 2 ^ 24 := rfl
    rw [hconst]
    clear hboth hval hw hfit hu hmask hconst hms hhigh h
    omega

/-- A branch byte. -/
def x86Mark (b : UInt8) : Prop := b.toNat / 2 = 0x74

instance (b : UInt8) : Decidable (x86Mark b) := inferInstanceAs (Decidable (_ = _))

/-- A byte is passed over, or a branch byte and its operand are converted. -/
def x86Step (e : Bool) (s : Place) : List UInt8 → Option (List UInt8 × Place)
  | [] => none
  | b :: rest =>
      if x86Mark b then
        match rest with
        | o0 :: o1 :: o2 :: o3 :: _ =>
            if x86Skips s.2 (le32 o0 o1 o2 o3) then
              some ([b], (wrappingAdd32 s.1 1, (s.2 >>> 1) ||| 4))
            else some (b :: bytes32 (x86Word e (wrappingAdd32 s.1 5) s.2 (le32 o0 o1 o2 o3)),
              (wrappingAdd32 s.1 5, 0))
        | _ => none
      else some ([b], (wrappingAdd32 s.1 1, s.2 >>> 1))

theorem x86Step_pass {b : UInt8} (hb : ¬x86Mark b) (s : Place) (xs : List UInt8) :
    x86Step e s (b :: xs) = some ([b], (wrappingAdd32 s.1 1, s.2 >>> 1)) := if_neg hb

theorem x86Step_skip {b o0 o1 o2 o3 : UInt8} (hb : x86Mark b) (h : x86Skips s.2 (le32 o0 o1 o2 o3))
    (xs : List UInt8) : x86Step e s (b :: o0 :: o1 :: o2 :: o3 :: xs) =
      some ([b], (wrappingAdd32 s.1 1, (s.2 >>> 1) ||| 4)) := (if_pos hb).trans (if_pos h)

theorem x86Step_convert {b o0 o1 o2 o3 : UInt8} (hb : x86Mark b)
    (h : ¬x86Skips s.2 (le32 o0 o1 o2 o3)) (xs : List UInt8) :
    x86Step e s (b :: o0 :: o1 :: o2 :: o3 :: xs) =
      some (b :: bytes32 (x86Word e (wrappingAdd32 s.1 5) s.2 (le32 o0 o1 o2 o3)),
        (wrappingAdd32 s.1 5, 0)) := (if_pos hb).trans (if_neg h)

theorem x86Step_wait {b : UInt8} (hb : x86Mark b) (h : xs.length < 4) (s : Place) :
    x86Step e s (b :: xs) = none := by
  rcases xs with _ | ⟨o0, _ | ⟨o1, _ | ⟨o2, _ | ⟨o3, rest⟩⟩⟩⟩
  · exact if_pos hb
  · exact if_pos hb
  · exact if_pos hb
  · exact if_pos hb
  · exact absurd h (by simp)

theorem x86Step_some (h : x86Step e s xs = some (out, s')) : ∃ b rest, xs = b :: rest ∧
    ((¬x86Mark b ∧ out = [b] ∧ s' = (wrappingAdd32 s.1 1, s.2 >>> 1)) ∨
      ∃ o0 o1 o2 o3 tail, x86Mark b ∧ rest = o0 :: o1 :: o2 :: o3 :: tail ∧
        ((x86Skips s.2 (le32 o0 o1 o2 o3) ∧ out = [b] ∧
            s' = (wrappingAdd32 s.1 1, (s.2 >>> 1) ||| 4)) ∨
          (¬x86Skips s.2 (le32 o0 o1 o2 o3) ∧
            out = b :: bytes32 (x86Word e (wrappingAdd32 s.1 5) s.2 (le32 o0 o1 o2 o3)) ∧
            s' = (wrappingAdd32 s.1 5, 0)))) := by
  rcases xs with _ | ⟨b, rest⟩
  · cases h
  · refine ⟨b, rest, rfl, ?_⟩
    by_cases hb : x86Mark b
    · right
      rcases rest with _ | ⟨o0, _ | ⟨o1, _ | ⟨o2, _ | ⟨o3, tail⟩⟩⟩⟩
      · rw [x86Step_wait hb (by simp)] at h
        cases h
      · rw [x86Step_wait hb (by simp)] at h
        cases h
      · rw [x86Step_wait hb (by simp)] at h
        cases h
      · rw [x86Step_wait hb (by simp)] at h
        cases h
      · refine ⟨o0, o1, o2, o3, tail, hb, rfl, ?_⟩
        by_cases hs : x86Skips s.2 (le32 o0 o1 o2 o3)
        · rw [x86Step_skip hb hs] at h
          cases h
          exact .inl ⟨hs, rfl, rfl⟩
        · rw [x86Step_convert hb hs] at h
          cases h
          exact .inr ⟨hs, rfl, rfl⟩
    · rw [x86Step_pass hb] at h
      cases h
      exact .inl ⟨hb, rfl, rfl⟩

theorem x86Step_pos (h : x86Step e s xs = some (out, s')) : 0 < out.length := by
  obtain ⟨b, rest, -, ⟨-, rfl, -⟩ | ⟨o0, o1, o2, o3, tail, -, -, ⟨-, rfl, -⟩ | ⟨-, rfl, -⟩⟩⟩ :=
    x86Step_some h
  · exact Nat.succ_pos 0
  · exact Nat.succ_pos 0
  · exact Nat.succ_pos 4

theorem x86Step_le (h : x86Step e s xs = some (out, s')) : out.length ≤ xs.length := by
  obtain ⟨b, rest, rfl, ⟨-, rfl, -⟩ | ⟨o0, o1, o2, o3, tail, -, rfl, ⟨-, rfl, -⟩ | ⟨-, rfl, -⟩⟩⟩ :=
    x86Step_some h
  · simp
  · simp
  · simp

theorem x86Step_stable {r : List UInt8 × Place} (ys : List UInt8) (h : x86Step e s xs = some r) :
    x86Step e s (xs ++ ys) = some r := by
  obtain ⟨b, rest, rfl, ⟨hb, h1, h2⟩ |
    ⟨o0, o1, o2, o3, tail, hb, rfl, ⟨hs, h1, h2⟩ | ⟨hs, h1, h2⟩⟩⟩ :=
    @x86Step_some _ _ r.1 _ r.2 h
  · rw [List.cons_append, x86Step_pass hb, ← h1, ← h2]
  · simp only [List.cons_append]
    rw [x86Step_skip hb hs, ← h1, ← h2]
  · simp only [List.cons_append]
    rw [x86Step_convert hb hs, ← h1, ← h2]

/-- A byte or a branch at a time. -/
def x86Rewriter (e : Bool) : Rewriter UInt8 Place where
  step := x86Step e
  pos := x86Step_pos
  le := x86Step_le
  stable := x86Step_stable

/-- Fewer than five bytes stay as they are. -/
theorem x86_settled (s : Place) (h : xs.length < 5) : (x86Rewriter e).Settled s xs := by
  induction xs generalizing s with
  | nil => rfl
  | cons b rest ih =>
      rw [List.length_cons] at h
      by_cases hb : x86Mark b
      · exact settled_none (x86Step_wait hb (by omega) s)
      · have hstep : (x86Rewriter e).step s (b :: rest) = some ([b], (wrappingAdd32 s.1 1, s.2 >>> 1)) :=
          x86Step_pass hb s rest
        rw [Settled, whole_some hstep]
        exact congrArg ([b] ++ ·) (ih _ (by omega))

/-- Whether the byte at `i` looks like a high byte, where there is one. -/
def msByte (xs : List UInt8) (i : ℕ) : Option Bool := (xs[i]?).map fun b => needConvMsByte b.toNat

theorem x86_first (s : Place) (b : UInt8) (rest : List UInt8) :
    ∃ rest', (x86Rewriter e).whole s (b :: rest) = b :: rest' := by
  rcases hr : x86Step e s (b :: rest) with _ | ⟨o, s1⟩
  · exact ⟨rest, whole_none hr⟩
  · have hstep : (x86Rewriter e).step s (b :: rest) = some (o, s1) := hr
    obtain ⟨b', rest', hxs, hcase⟩ := x86Step_some hr
    cases hxs
    rw [whole_some hstep]
    rcases hcase with ⟨-, rfl, -⟩ | ⟨o0, o1, o2, o3, tail, -, -, ⟨-, rfl, -⟩ | ⟨-, rfl, -⟩⟩
    · exact ⟨_, rfl⟩
    · exact ⟨_, rfl⟩
    · exact ⟨_, rfl⟩

theorem msByte_first (s : Place) (xs : List UInt8) :
    msByte ((x86Rewriter e).whole s xs) 0 = msByte xs 0 := by
  rcases xs with _ | ⟨b, rest⟩
  · rfl
  · obtain ⟨rest', h⟩ := x86_first (e := e) s b rest
    rw [h]
    rfl

theorem msByte_cons (b : UInt8) (xs : List UInt8) (i : ℕ) :
    msByte (b :: xs) (i + 1) = msByte xs i := rfl

theorem msByte_cons_append (b : UInt8) (xs ys : List UInt8) (i : ℕ) :
    msByte (b :: xs ++ ys) (i + 1) = msByte (xs ++ ys) i := rfl

theorem msByte_bytes32 {i : ℕ} (hi : i ≤ 3) (w : ℕ) (t : List UInt8) :
    msByte (bytes32 w ++ t) i = some (decide (msAt i w)) := by
  have hbyte : ∀ x : ℕ, needConvMsByte (UInt8.ofNat x).toNat = decide (x % 2 ^ 8 = 0 ∨ x % 2 ^ 8 = 0xFF) := by
    intro x
    rw [Bool.eq_iff_iff, needConvMsByte_iff, decide_eq_true_iff, UInt8.toNat_ofNat', Nat.mod_mod]
  obtain rfl | rfl | rfl | rfl : i = 0 ∨ i = 1 ∨ i = 2 ∨ i = 3 := by omega
  · change some (needConvMsByte (UInt8.ofNat w).toNat) = _
    rw [hbyte]
    simp only [msAt, Nat.mul_zero, Nat.pow_zero, Nat.div_one]
  · change some (needConvMsByte (UInt8.ofNat (w / 2 ^ 8)).toNat) = _
    rw [hbyte]
    rfl
  · change some (needConvMsByte (UInt8.ofNat (w / 2 ^ 16)).toNat) = _
    rw [hbyte]
    rfl
  · change some (needConvMsByte (UInt8.ofNat (w / 2 ^ 24)).toNat) = _
    rw [hbyte]
    rfl

theorem msByte_le32 {i : ℕ} (hi : i ≤ 3) (a b c d : UInt8) (t : List UInt8) :
    msByte (a :: b :: c :: d :: t) i = some (decide (msAt i (le32 a b c d))) := by
  have h := msByte_bytes32 hi (le32 a b c d) t
  rw [bytes32_le32] at h
  exact h

/-- What the kept bits of a converted branch are. -/
theorem kept_of_bit (h4 : ¬4 < m) (h3 : m ≠ 3) (hbit : m.testBit k = true) : m >>> 1 = k ∧ m ≠ 0 := by
  obtain rfl | rfl | rfl | rfl : m = 0 ∨ m = 1 ∨ m = 2 ∨ m = 4 := by omega
  · simp at hbit
  · have hk : k = 0 := by
      by_contra hne
      rw [Nat.testBit_lt_two_pow (Nat.one_lt_two_pow hne)] at hbit
      cases hbit
    subst hk
    exact ⟨rfl, by decide⟩
  · have hk : k = 1 := (Nat.testBit_two_pow (n := 1)).symm.trans hbit |> of_decide_eq_true |> Eq.symm
    subst hk
    exact ⟨rfl, by decide⟩
  · have hk : k = 2 := (Nat.testBit_two_pow (n := 2)).symm.trans hbit |> of_decide_eq_true |> Eq.symm
    subst hk
    exact ⟨rfl, by decide⟩

/-- A kept bit says of a byte ahead that it goes on looking like a high byte, or not. -/
theorem msByte_kept (s : Place) (xs : List UInt8) (hk : k ≤ 2) (hbit : s.2.testBit k = true) :
    msByte ((x86Rewriter true).whole s xs) (k + 1) = msByte xs (k + 1) := by
  induction hn : xs.length using Nat.strong_induction_on generalizing s xs k with
  | _ n ih =>
      rcases hr : x86Step true s xs with _ | ⟨o, s1⟩
      · rw [whole_none (m := x86Rewriter true) hr]
      · have hstep : (x86Rewriter true).step s xs = some (o, s1) := hr
        rw [whole_some hstep]
        obtain ⟨b, rest, rfl, hcase⟩ := x86Step_some hr
        -- one byte further on a kept bit is one lower
        have hone : ∀ s1 : Place, (∀ j, s.2.testBit (j + 1) = true → s1.2.testBit j = true) →
            msByte ([b] ++ (x86Rewriter true).whole s1 rest) (k + 1) = msByte (b :: rest) (k + 1) := by
          intro s1 hs1
          change msByte ((x86Rewriter true).whole s1 rest) k = msByte rest k
          rcases k with _ | k
          · exact msByte_first s1 rest
          · exact ih rest.length (by rw [← hn]; simp) s1 rest (by omega) (hs1 k hbit) rfl
        rcases hcase with ⟨-, rfl, rfl⟩ | ⟨o0, o1, o2, o3, tail, -, rfl, hcase⟩
        · refine hone _ fun j hj => ?_
          rw [Nat.testBit_shiftRight, Nat.add_comm]
          exact hj
        · rcases hcase with ⟨-, rfl, rfl⟩ | ⟨hs, rfl, rfl⟩
          · refine hone _ fun j hj => ?_
            rw [Nat.testBit_or, Nat.testBit_shiftRight, Nat.add_comm, hj]
            rfl
          · obtain ⟨h4, h3, hms, -⟩ := not_skips hs
            obtain ⟨hshift, hne⟩ := kept_of_bit h4 h3 hbit
            have hc : wrappingAdd32 s.1 5 ≤ 2 ^ 32 := (Nat.mod_lt _ (by norm_num)).le
            have hback := (not_skips (x86Word_undo (le32_lt o0 o1 o2 o3) hc hs).1).2.2.1 hne
            rw [hshift] at hback hms
            rw [msByte_cons_append, msByte_cons, msByte_bytes32 (by omega), msByte_le32 (by omega),
              decide_eq_false hback, decide_eq_false (hms hne)]

theorem skips_kept {z0 z1 z2 z3 o0 o1 o2 o3 : UInt8} {t tail : List UInt8} (s : Place)
    (hs : s.2 = (m >>> 1) ||| 4)
    (hw : (x86Rewriter true).whole s (o0 :: o1 :: o2 :: o3 :: tail) = z0 :: z1 :: z2 :: z3 :: t)
    (h : x86Skips m (le32 o0 o1 o2 o3)) : x86Skips m (le32 z0 z1 z2 z3) := by
  have hsame : ∀ i ≤ 3, msByte ((x86Rewriter true).whole s (o0 :: o1 :: o2 :: o3 :: tail)) i =
      msByte (o0 :: o1 :: o2 :: o3 :: tail) i →
      (msAt i (le32 z0 z1 z2 z3) ↔ msAt i (le32 o0 o1 o2 o3)) := by
    intro i hi hb
    rw [hw, msByte_le32 hi, msByte_le32 hi, Option.some_inj] at hb
    exact decide_eq_decide.mp hb
  have h3 := hsame 3 le_rfl (msByte_kept s _ (k := 2) le_rfl (by
    rw [hs, Nat.testBit_or]
    simp
    right
    decide))
  by_cases h4 : 4 < m
  · exact .inl h4
  by_cases hm3 : m = 3
  · exact .inr (.inl hm3)
  rcases h with h | h | ⟨h, h'⟩ | h
  · exact absurd h h4
  · exact absurd h hm3
  · refine .inr (.inr (.inl ⟨h, ?_⟩))
    obtain rfl | rfl | rfl : m = 1 ∨ m = 2 ∨ m = 4 := by omega
    · exact (hsame 0 (by omega) (msByte_first s _)).mpr h'
    · exact (hsame 1 (by omega) (msByte_kept s _ (k := 0) (by omega) (by rw [hs]; decide))).mpr h'
    · exact (hsame 2 (by omega) (msByte_kept s _ (k := 1) (by omega) (by rw [hs]; decide))).mpr h'
  · exact .inr (.inr (.inr (mt h3.mp h)))

theorem x86Rewriter_undo (s : Place) (xs : List UInt8) :
    (x86Rewriter false).whole s ((x86Rewriter true).whole s xs) = xs := by
  refine undo (fun _ => True) (fun _ _ => trivial) ?_ ?_ trivial xs
  · intro s xs out s' _ h
    obtain ⟨b, rest, rfl, ⟨hb, rfl, rfl⟩ |
      ⟨o0, o1, o2, o3, tail, hb, rfl, ⟨hs, rfl, rfl⟩ | ⟨hs, rfl, rfl⟩⟩⟩ := x86Step_some h
    · exact x86Step_pass hb s _
    · have hlen := length_whole (m := x86Rewriter true) (wrappingAdd32 s.1 1, (s.2 >>> 1) ||| 4)
        (o0 :: o1 :: o2 :: o3 :: tail)
      change x86Step false s (b :: (x86Rewriter true).whole (wrappingAdd32 s.1 1, (s.2 >>> 1) ||| 4)
        (o0 :: o1 :: o2 :: o3 :: tail)) = _
      generalize hw : (x86Rewriter true).whole (wrappingAdd32 s.1 1, (s.2 >>> 1) ||| 4)
        (o0 :: o1 :: o2 :: o3 :: tail) = ws at hlen
      obtain ⟨z0, ws, rfl⟩ := List.exists_cons_of_length_pos (l := ws) (by simp at hlen; omega)
      obtain ⟨z1, ws, rfl⟩ := List.exists_cons_of_length_pos (l := ws) (by simp at hlen; omega)
      obtain ⟨z2, ws, rfl⟩ := List.exists_cons_of_length_pos (l := ws) (by simp at hlen; omega)
      obtain ⟨z3, ws, rfl⟩ := List.exists_cons_of_length_pos (l := ws) (by simp at hlen; omega)
      exact x86Step_skip hb (skips_kept _ rfl hw hs) ws
    · have hc : wrappingAdd32 s.1 5 ≤ 2 ^ 32 := (Nat.mod_lt _ (by norm_num)).le
      obtain ⟨hskip, hback⟩ := x86Word_undo (le32_lt o0 o1 o2 o3) hc hs
      have hlt := x86Word_lt true (wrappingAdd32 s.1 5) s.2 (le32 o0 o1 o2 o3)
      rw [← le32_bytes32 hlt] at hskip
      refine (x86Step_convert hb hskip
        ((x86Rewriter true).whole (wrappingAdd32 s.1 5, 0) tail)).trans ?_
      rw [le32_bytes32 hlt, hback, bytes32_le32]
      rfl
  · intro s xs _ h
    apply x86_settled s
    by_contra hlen
    obtain ⟨b, o0, o1, o2, o3, rest, rfl⟩ := five_bytes (Nat.not_lt.mp hlen)
    have hnone : x86Step true s (b :: o0 :: o1 :: o2 :: o3 :: rest) = none := h
    by_cases hb : x86Mark b
    · by_cases hs : x86Skips s.2 (le32 o0 o1 o2 o3)
      · rw [x86Step_skip hb hs] at hnone
        cases hnone
      · rw [x86Step_convert hb hs] at hnone
        cases hnone
    · rw [x86Step_pass hb] at hnone
      cases hnone

end

end LzmaTurbo.Filters
