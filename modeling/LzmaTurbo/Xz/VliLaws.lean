import LzmaTurbo.Xz.Vli
import Mathlib.Tactic.Ring

/-!
# An integer has one encoding
-/
namespace LzmaTurbo.Xz.Vli

theorem byte_bits : ∀ n < 256, (n ||| 128 = n % 128 + 128) ∧ (n &&& 128 = 0 ↔ n < 128) ∧
    n &&& 127 = n % 128 := by
  decide +kernel

theorem or_high (v : ℕ) : (UInt8.ofNat v ||| 0x80).toNat = v % 128 + 128 := by
  rw [UInt8.toNat_or, UInt8.toNat_ofNat']
  apply ((byte_bits (v % 2 ^ 8) (Nat.mod_lt _ (by decide))).1).trans
  omega

theorem high_clear (b : UInt8) : b &&& 0x80 = 0 ↔ b.toNat < 128 := by
  rw [← UInt8.toNat_inj, UInt8.toNat_and]
  exact (byte_bits b.toNat b.toNat_lt).2.1

theorem low_bits (b : UInt8) : b.toNat &&& 0x7F = b.toNat % 128 :=
  (byte_bits b.toNat b.toNat_lt).2.2

/-- A byte more goes on top of what has been read. -/
theorem or_shift {acc i : ℕ} (h : acc < 2 ^ (i * 7)) (x : ℕ) :
    acc ||| x <<< (i * 7) = acc + x * 2 ^ (i * 7) := by
  rw [Nat.shiftLeft_eq, Nat.or_comm, Nat.mul_comm x, ← Nat.two_pow_add_eq_or_of_lt h,
    Nat.add_comm]

theorem encodeLoop_small {v : ℕ} (h : v < 128) : encodeLoop v = [UInt8.ofNat v] := by
  rw [encodeLoop, if_neg (Nat.not_le.2 h)]

theorem encodeLoop_large {v : ℕ} (h : 128 ≤ v) :
    encodeLoop v = (UInt8.ofNat v ||| 0x80) :: encodeLoop (v / 128) := by
  rw [encodeLoop, if_pos h, Nat.shiftRight_eq_div_pow]

theorem encodeLoop_length (v : ℕ) : encodedLen v = (encodeLoop v).length := by
  unfold encodedLen
  induction v using Nat.strong_induction_on with
  | _ v ih =>
      rw [Nat.shiftRight_eq_div_pow, lenLoop]
      by_cases hv : v < 128
      · rw [encodeLoop_small hv, if_pos (Nat.div_eq_of_lt hv)]
        rfl
      · have hlarge := Nat.not_lt.1 hv
        rw [encodeLoop_large hlarge, if_neg (by omega), List.length_cons]
        exact congrArg (· + 1) (ih (v / 128) (by omega))

theorem encodeLoop_le (v : ℕ) {i : ℕ} (hi : 0 < i) (hv : v < 2 ^ (i * 7)) :
    (encodeLoop v).length ≤ i := by
  induction i generalizing v with
  | zero => omega
  | succ i ih =>
      by_cases hsmall : v < 128
      · rw [encodeLoop_small hsmall]
        exact hi
      · rw [encodeLoop_large (Nat.not_lt.1 hsmall), List.length_cons]
        have hdiv : v / 128 < 2 ^ (i * 7) := by
          rw [Nat.div_lt_iff_lt_mul (by decide)]
          rwa [show (i + 1) * 7 = i * 7 + 7 by omega, Nat.pow_add] at hv
        refine Nat.succ_le_succ (ih _ (Nat.pos_of_ne_zero ?_) hdiv)
        rintro rfl
        exact hsmall (Nat.lt_of_lt_of_le hv (by decide))

theorem encodedLen_le {v : ℕ} (hv : v ≤ vliMax) : encodedLen v ≤ vliMaxBytes := by
  rw [encodeLoop_length]
  refine encodeLoop_le v (i := 9) (by decide) (Nat.lt_of_le_of_lt hv ?_)
  decide

/-- What fits below the limit at byte `i` fits, a byte on, at `i + 1`. -/
theorem div_fits {v i : ℕ} (hi : i < 9) (h : v < 2 ^ ((9 - i) * 7)) :
    v / 128 < 2 ^ ((9 - (i + 1)) * 7) := by
  rw [Nat.div_lt_iff_lt_mul (by decide)]
  have hpow : 2 ^ ((9 - i) * 7) = 2 ^ ((9 - (i + 1)) * 7) * 128 := by
    rw [show (9 - i) * 7 = (9 - (i + 1)) * 7 + 7 by omega, Nat.pow_add]
  omega

theorem value_bound {acc v i : ℕ} (hi : i ≤ 9) (hacc : acc < 2 ^ (i * 7))
    (hv : v < 2 ^ ((9 - i) * 7)) : acc + v * 2 ^ (i * 7) ≤ vliMax := by
  have hsucc : (v + 1) * 2 ^ (i * 7) ≤ 2 ^ ((9 - i) * 7) * 2 ^ (i * 7) :=
    Nat.mul_le_mul_right _ hv
  rw [← Nat.pow_add, show (9 - i) * 7 + i * 7 = 63 by omega, Nat.succ_mul] at hsucc
  have hmax : vliMax = 2 ^ 63 - 1 := rfl
  omega

theorem acc_next {acc x i : ℕ} (hacc : acc < 2 ^ (i * 7)) (hx : x < 128) :
    acc + x * 2 ^ (i * 7) < 2 ^ ((i + 1) * 7) := by
  have hpow : 2 ^ ((i + 1) * 7) = 128 * 2 ^ (i * 7) := by
    rw [show (i + 1) * 7 = i * 7 + 7 by omega, Nat.pow_add, Nat.mul_comm]
  have hle : (x + 1) * 2 ^ (i * 7) ≤ 128 * 2 ^ (i * 7) := Nat.mul_le_mul_right _ hx
  rw [Nat.succ_mul] at hle
  omega

theorem split_value (acc v i : ℕ) :
    acc + v % 128 * 2 ^ (i * 7) + v / 128 * 2 ^ ((i + 1) * 7) = acc + v * 2 ^ (i * 7) := by
  have hpow : 2 ^ ((i + 1) * 7) = 128 * 2 ^ (i * 7) := by
    rw [show (i + 1) * 7 = i * 7 + 7 by omega, Nat.pow_add, Nat.mul_comm]
  calc acc + v % 128 * 2 ^ (i * 7) + v / 128 * 2 ^ ((i + 1) * 7)
      = acc + (v % 128 + 128 * (v / 128)) * 2 ^ (i * 7) := by rw [hpow]; ring
    _ = acc + v * 2 ^ (i * 7) := by rw [Nat.mod_add_div]

/-- The loop on the bytes of a positive number. -/
theorem decodeLoop_encode (v : ℕ) {i acc : ℕ} (hpos : 0 < v) (hi : i < 9)
    (hv : v < 2 ^ ((9 - i) * 7)) (hacc : acc < 2 ^ (i * 7)) (rest : List UInt8) :
    decodeLoop i acc (encodeLoop v ++ rest) =
      .ok (acc + v * 2 ^ (i * 7), i + (encodeLoop v).length) := by
  induction v using Nat.strong_induction_on generalizing i acc with
  | _ v ih =>
      have hi' : ¬vliMaxBytes ≤ i := Nat.not_le.2 hi
      by_cases hsmall : v < 128
      · have hbyte : (UInt8.ofNat v).toNat = v := by
          rw [UInt8.toNat_ofNat']
          omega
        have hnz : UInt8.ofNat v ≠ 0 := by
          intro h0
          have h := congrArg UInt8.toNat h0
          rw [hbyte] at h
          exact absurd h (Nat.ne_of_gt hpos)
        have hbound := value_bound (Nat.le_of_lt hi) hacc hv
        rw [encodeLoop_small hsmall]
        change decodeLoop i acc (UInt8.ofNat v :: rest) = _
        rw [decodeLoop, if_neg hi', if_neg hnz, low_bits, hbyte, Nat.mod_eq_of_lt hsmall,
          or_shift hacc]
        dsimp only
        rw [if_pos ((high_clear _).2 (by rwa [hbyte])), if_neg (Nat.not_lt.2 hbound)]
        rfl
      · have hlarge := Nat.not_lt.1 hsmall
        have hi8 : i + 1 < 9 := by
          by_contra hlast
          have h8 : i = 8 := by omega
          rw [h8] at hv
          exact hsmall hv
        have hnext := ih (v / 128) (by omega) (by omega) hi8 (div_fits hi hv)
          (acc_next hacc (Nat.mod_lt v (by decide)))
        have hnz : (UInt8.ofNat v ||| 0x80) ≠ 0 := by
          intro h0
          have h := congrArg UInt8.toNat h0
          rw [or_high] at h
          exact absurd h (Nat.succ_ne_zero _)
        have hhigh : ¬(UInt8.ofNat v ||| 0x80) &&& 0x80 = 0 := by
          rw [high_clear, or_high]
          omega
        rw [encodeLoop_large hlarge, List.cons_append, decodeLoop, if_neg hi', if_neg hnz,
          low_bits, or_high, Nat.add_mod_right, Nat.mod_mod, or_shift hacc]
        dsimp only
        rw [if_neg hhigh, hnext, split_value, List.length_cons]
        congr 2
        omega

theorem decode_encoded {v : ℕ} (hv : v ≤ vliMax) (rest : List UInt8) :
    decode (encodeLoop v ++ rest) = .ok (v, (encodeLoop v).length) := by
  by_cases hsmall : v < 128
  · have hbyte : (UInt8.ofNat v).toNat = v := by
      rw [UInt8.toNat_ofNat']
      omega
    rw [encodeLoop_small hsmall]
    change decode (UInt8.ofNat v :: rest) = _
    rw [decode, if_pos ((high_clear _).2 (by rwa [hbyte])), low_bits, hbyte,
      Nat.mod_eq_of_lt hsmall]
    rfl
  · have hlarge := Nat.not_lt.1 hsmall
    have hhigh : ¬(UInt8.ofNat v ||| 0x80) &&& 0x80 = 0 := by
      rw [high_clear, or_high]
      omega
    have hfits : v / 128 < 2 ^ ((9 - 1) * 7) := by
      have hmax : vliMax = 2 ^ 63 - 1 := rfl
      rw [Nat.div_lt_iff_lt_mul (by decide)]
      omega
    have hacc : v % 128 < 2 ^ (1 * 7) := Nat.mod_lt v (by decide)
    rw [encodeLoop_large hlarge, List.cons_append, decode, if_neg hhigh, low_bits, or_high,
      Nat.add_mod_right, Nat.mod_mod, decodeLoop_encode (v / 128) (by omega) (by decide) hfits
        hacc, List.length_cons]
    congr 2
    · omega
    · omega

/-- What the loop accepts are the bytes of a positive number. -/
theorem decodeLoop_accepts {i acc value n : ℕ} {buf : List UInt8} (hacc : acc < 2 ^ (i * 7))
    (h : decodeLoop i acc buf = .ok (value, n)) :
    ∃ v rest, 0 < v ∧ buf = encodeLoop v ++ rest ∧ value = acc + v * 2 ^ (i * 7) ∧
      n = i + (encodeLoop v).length ∧ value ≤ vliMax := by
  induction buf generalizing i acc with
  | nil =>
      rw [decodeLoop] at h
      split at h <;> cases h
  | cons b buf ih =>
      rw [decodeLoop] at h
      split at h
      · cases h
      · split at h
        · cases h
        next hnz =>
          have hpos : 0 < b.toNat := by
            rcases Nat.eq_zero_or_pos b.toNat with h0 | h0
            · exact absurd (UInt8.toNat_inj.1 h0) hnz
            · exact h0
          have hb := b.toNat_lt
          rw [low_bits, or_shift hacc] at h
          dsimp only at h
          split at h
          next hclear =>
            have hsmall := (high_clear b).1 hclear
            split at h
            · cases h
            next hle =>
              rw [Nat.mod_eq_of_lt hsmall] at h hle
              cases h
              refine ⟨b.toNat, buf, hpos, ?_, rfl, ?_, Nat.not_lt.1 hle⟩
              · rw [encodeLoop_small hsmall, UInt8.ofNat_toNat]
                rfl
              · rw [encodeLoop_small hsmall]
                rfl
          next hset =>
            have hlarge : 128 ≤ b.toNat := Nat.not_lt.1 fun hlt => hset ((high_clear b).2 hlt)
            obtain ⟨v, rest, hv, hbuf, hvalue, hn, hle⟩ :=
              ih (acc_next hacc (Nat.mod_lt b.toNat (by decide))) h
            have hmod : (b.toNat % 128 + 128 * v) % 128 = b.toNat % 128 := by omega
            have hdiv : (b.toNat % 128 + 128 * v) / 128 = v := by omega
            have henc : encodeLoop (b.toNat % 128 + 128 * v) = b :: encodeLoop v := by
              rw [encodeLoop_large (by omega), hdiv]
              congr 1
              apply UInt8.toNat_inj.1
              rw [or_high, hmod]
              omega
            refine ⟨b.toNat % 128 + 128 * v, rest, by omega, ?_, ?_, ?_, hle⟩
            · rw [henc, hbuf]
              rfl
            · rw [hvalue, ← split_value acc (b.toNat % 128 + 128 * v) i, hmod, hdiv]
            · rw [henc, hn, List.length_cons]
              omega

theorem decode_accepts {value n : ℕ} {buf : List UInt8} (h : decode buf = .ok (value, n)) :
    value ≤ vliMax ∧ n = (encodeLoop value).length ∧ buf.take n = encodeLoop value := by
  cases buf with
  | nil => cases h
  | cons b buf =>
      rw [decode, low_bits] at h
      have hb := b.toNat_lt
      split at h
      next hclear =>
        have hsmall := (high_clear b).1 hclear
        rw [Nat.mod_eq_of_lt hsmall] at h
        cases h
        rw [encodeLoop_small hsmall, UInt8.ofNat_toNat]
        exact ⟨Nat.le_trans (Nat.le_of_lt hsmall) (by decide), rfl, rfl⟩
      next hset =>
        have hlarge : 128 ≤ b.toNat := Nat.not_lt.1 fun hlt => hset ((high_clear b).2 hlt)
        obtain ⟨v, rest, hv, hbuf, hvalue, hn, hle⟩ :=
          decodeLoop_accepts (i := 1) (Nat.mod_lt b.toNat (by decide)) h
        have henc : encodeLoop value = b :: encodeLoop v := by
          rw [encodeLoop_large (by omega)]
          congr 1
          · apply UInt8.toNat_inj.1
            rw [or_high]
            omega
          · congr 1
            omega
        refine ⟨hle, ?_, ?_⟩
        · rw [henc, hn, List.length_cons]
          omega
        · rw [henc, hn, hbuf, Nat.add_comm, List.take_succ_cons, List.take_left]

/-- The loop runs out inside the bytes of a number. -/
theorem decodeLoop_prefix (v : ℕ) {i acc : ℕ} (hi : i < 9) (hv : v < 2 ^ ((9 - i) * 7))
    {p rest : List UInt8} (hp : encodeLoop v = p ++ rest) (hrest : rest ≠ []) :
    decodeLoop i acc p = .error .truncatedVli := by
  induction v using Nat.strong_induction_on generalizing i acc p with
  | _ v ih =>
      have hi' : ¬vliMaxBytes ≤ i := Nat.not_le.2 hi
      cases p with
      | nil => rw [decodeLoop, if_neg hi']
      | cons b p =>
          by_cases hsmall : v < 128
          · rw [encodeLoop_small hsmall] at hp
            have hnil := (List.cons.inj hp).2
            exact absurd (List.append_eq_nil_iff.1 hnil.symm).2 hrest
          · have hlarge := Nat.not_lt.1 hsmall
            rw [encodeLoop_large hlarge] at hp
            obtain ⟨rfl, htail⟩ := List.cons.inj hp
            have hi8 : i + 1 < 9 := by
              by_contra hlast
              have h8 : i = 8 := by omega
              rw [h8] at hv
              exact hsmall hv
            have hnz : (UInt8.ofNat v ||| 0x80) ≠ 0 := by
              intro h0
              have h := congrArg UInt8.toNat h0
              rw [or_high] at h
              exact absurd h (Nat.succ_ne_zero _)
            have hhigh : ¬(UInt8.ofNat v ||| 0x80) &&& 0x80 = 0 := by
              rw [high_clear, or_high]
              omega
            rw [decodeLoop, if_neg hi', if_neg hnz]
            dsimp only
            rw [if_neg hhigh]
            exact ih (v / 128) (by omega) hi8 (div_fits hi hv) htail

theorem decode_prefix {v : ℕ} (hv : v ≤ vliMax) {p rest : List UInt8}
    (hp : encodeLoop v = p ++ rest) (hrest : rest ≠ []) : decode p = .error .truncatedVli := by
  cases p with
  | nil => rfl
  | cons b p =>
      by_cases hsmall : v < 128
      · rw [encodeLoop_small hsmall] at hp
        have hnil := (List.cons.inj hp).2
        exact absurd (List.append_eq_nil_iff.1 hnil.symm).2 hrest
      · have hlarge := Nat.not_lt.1 hsmall
        rw [encodeLoop_large hlarge] at hp
        obtain ⟨rfl, htail⟩ := List.cons.inj hp
        have hhigh : ¬(UInt8.ofNat v ||| 0x80) &&& 0x80 = 0 := by
          rw [high_clear, or_high]
          omega
        have hfits : v / 128 < 2 ^ ((9 - 1) * 7) := by
          have hmax : vliMax = 2 ^ 63 - 1 := rfl
          rw [Nat.div_lt_iff_lt_mul (by decide)]
          omega
        rw [decode, if_neg hhigh]
        exact decodeLoop_prefix (v / 128) (by decide) hfits htail hrest

theorem encode_fits {v : ℕ} (hv : v ≤ vliMax) {buf : List UInt8}
    (hbuf : encodedLen v ≤ buf.length) :
    encode v buf = some (encodeLoop v ++ buf.drop (encodedLen v), encodedLen v) := by
  rw [encodeLoop_length] at hbuf ⊢
  rw [encode]
  exact if_neg (not_or.2 ⟨Nat.not_lt.2 hv, Nat.not_lt.2 hbuf⟩)

/-- Every integer has one encoding: it reads back under any trailing bytes, nothing else
reads back, and what is cut short is seen to be. -/
theorem one_encoding :
    (∀ v < 2 ^ 63, ∀ buf : List UInt8, encodedLen v ≤ buf.length →
      ∃ bytes, bytes.length = encodedLen v ∧
        encode v buf = some (bytes ++ buf.drop (encodedLen v), encodedLen v) ∧
        (∀ rest, decode (bytes ++ rest) = .ok (v, encodedLen v)) ∧
        (∀ p rest, bytes = p ++ rest → rest ≠ [] → decode p = .error .truncatedVli)) ∧
    (∀ (input : List UInt8) (v n : ℕ), decode input = .ok (v, n) →
      v < 2 ^ 63 ∧ n = encodedLen v ∧
        ∀ buf : List UInt8, encodedLen v ≤ buf.length →
          encode v buf = some (input.take n ++ buf.drop (encodedLen v), encodedLen v)) := by
  have hmax : vliMax = 2 ^ 63 - 1 := rfl
  refine ⟨fun v hv buf hbuf => ?_, fun input v n h => ?_⟩
  · have hv' : v ≤ vliMax := by omega
    refine ⟨encodeLoop v, (encodeLoop_length v).symm, encode_fits hv' hbuf, fun rest => ?_,
      fun p rest hp hrest => decode_prefix hv' hp hrest⟩
    rw [decode_encoded hv' rest, encodeLoop_length]
  · obtain ⟨hle, hn, htake⟩ := decode_accepts h
    refine ⟨by omega, by rw [hn, encodeLoop_length], fun buf hbuf => ?_⟩
    rw [encode_fits hle hbuf, htake]

end LzmaTurbo.Xz.Vli
