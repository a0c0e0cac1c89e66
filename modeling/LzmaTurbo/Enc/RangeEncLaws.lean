import LzmaTurbo.Enc.RangeEnc
import LzmaTurbo.Lib.PendingCarry
import LzmaTurbo.Lzma.Follows

/-!
# The range encoder keeps the exact interval

`Carry` reads the encoder's state as a number: the bytes that are out, the
cached byte, the pending ones as `0xFF`, and `low`. The number is the lower end
of the exact interval, and the interval never reaches past the bytes that are
out, so a carry stops at the cached byte.
-/
namespace LzmaTurbo.Enc
open Machine Lzma
open RangeDecoder (learn)
open ExactCoder (Op Exact Pending value)

section
variable {range prob : ℕ} {st : Coding}

theorem boundOf_small (hr : range < 2 ^ 32) (hp : prob ≤ 2048) :
    boundOf range prob = range / 2048 * prob := by
  have h : range / 2048 * prob ≤ range / 2048 * 2048 := Nat.mul_le_mul_left _ hp
  simp only [boundOf, u32, Nat.shiftRight_eq_div_pow, kNumBitModelTotalBits]
  norm_num
  omega

theorem learn_false_word (hp : prob ≤ 2017) :
    asU16 (prob + ((kBitModelTotal - prob) >>> kNumMoveBits) : ℕ) = learn false prob := by
  have hk : kBitModelTotal = 2048 := by decide
  rw [hk, Nat.shiftRight_eq_div_pow, moveBits, asU16_of_lt (by omega)]
  rfl

theorem learn_true_word (hp : prob ≤ 2017) :
    asU16 (prob - (prob >>> kNumMoveBits) : ℕ) = learn true prob := by
  rw [Nat.shiftRight_eq_div_pow, moveBits, asU16_of_lt (by omega)]
  rfl

/-- The branchless update is the rule of the decoder. -/
theorem learn_word (h1 : 31 ≤ prob) (h2 : prob ≤ 2017) (b : Bool) :
    asU16 (wrappingAdd32 prob (asU32 (asI32 (wrappingSub32 (wrappingAdd32
      (wrappingSub32 b.toNat 1 &&& (kBitModelTotal - ((1 <<< kNumMoveBits) - 1)))
      ((1 <<< kNumMoveBits) - 1)) prob) >>> kNumMoveBits)) : ℕ) = learn b prob := by
  have hm : (2 : ℤ) ^ kNumMoveBits = 32 := by decide
  rw [Int.shiftRight_eq_div_pow]
  push_cast
  rw [hm]
  cases b
  · have hmask : wrappingAdd32 (wrappingSub32 (false.toNat) 1 &&&
        (kBitModelTotal - ((1 <<< kNumMoveBits) - 1))) ((1 <<< kNumMoveBits) - 1) = 2048 := by
      decide
    have hs : asI32 (wrappingSub32 2048 prob) = 2048 - (prob : ℤ) := by
      unfold asI32 wrappingSub32
      split <;> omega
    have hq : asU32 ((2048 - (prob : ℤ)) / 32) = (2048 - prob) / 32 := by
      unfold asU32
      omega
    rw [hmask, hs, hq, show wrappingAdd32 prob ((2048 - prob) / 32) = prob + (2048 - prob) / 32 from
      Nat.mod_eq_of_lt (by omega), asU16_of_lt (by omega)]
    rfl
  · have hmask : wrappingAdd32 (wrappingSub32 (true.toNat) 1 &&&
        (kBitModelTotal - ((1 <<< kNumMoveBits) - 1))) ((1 <<< kNumMoveBits) - 1) = 31 := by
      decide
    have hs : asI32 (wrappingSub32 31 prob) = 31 - (prob : ℤ) := by
      unfold asI32 wrappingSub32
      split <;> omega
    have hq : asU32 ((31 - (prob : ℤ)) / 32) = (2 ^ 32 - prob / 32) % 2 ^ 32 := by
      unfold asU32
      omega
    have hadd : wrappingAdd32 prob ((2 ^ 32 - prob / 32) % 2 ^ 32) = prob - prob / 32 := by
      unfold wrappingAdd32
      omega
    rw [hmask, hs, hq, hadd, asU16_of_lt (by omega)]
    rfl

def Coding.addLow (st : Coding) (n : ℕ) : Coding :=
  { st with rc := { st.rc with low := st.rc.low + n } }

theorem and_allOnes {a : ℕ} (ha : a < 2 ^ 32) (b : Bool) :
    a &&& wrappingSub32 0 b.toNat = if b then a else 0 := by
  cases b
  · exact Nat.and_zero a
  · change a &&& (2 ^ 32 - 1) = a
    rw [Nat.and_two_pow_sub_one_eq_mod, Nat.mod_eq_of_lt ha]

/-- `RC_BIT` narrows the interval to the bit's part and learns the bit. -/
theorem bitWithRange_eq (hr : range < 2 ^ 32) (h1 : 31 ≤ prob) (h2 : prob ≤ 2017)
    (hl : st.rc.low ≤ 2 ^ 33) (b : Bool) : st.bitWithRange range prob b.toNat =
      (if b then range - range / 2048 * prob else range / 2048 * prob, learn b prob,
        st.addLow (if b then range / 2048 * prob else 0)) := by
  have hbound : range / 2048 * prob ≤ range / 2048 * 2048 := Nat.mul_le_mul_left _ (by omega)
  unfold Coding.bitWithRange Coding.addLow
  simp only [boundOf_small hr (show prob ≤ 2048 by omega), and_allOnes
    (show range / 2048 * prob < 2 ^ 32 by omega), learn_word h1 h2]
  cases b
  · simp only [Bool.toNat_false, if_true, Bool.false_eq_true, if_false, wrappingAdd64,
      Nat.add_zero, Nat.mod_eq_of_lt (show st.rc.low < 2 ^ 64 by omega)]
  · have hlow : wrappingAdd64 st.rc.low (range / 2048 * prob) =
        st.rc.low + range / 2048 * prob := Nat.mod_eq_of_lt (by omega)
    have hrange : wrappingSub32 range (range / 2048 * prob) = range - range / 2048 * prob := by
      unfold wrappingSub32
      omega
    simp only [Bool.toNat_true, one_ne_zero, if_false, if_true, hlow, hrange]

theorem directWithRange_eq (hr : range < 2 ^ 32) (hl : st.rc.low ≤ 2 ^ 33) (b : Bool) :
    st.directWithRange range (wrappingSub32 0 b.toNat) =
      (range / 2, st.addLow (if b then range / 2 else 0)) := by
  unfold Coding.directWithRange Coding.addLow
  simp only [Nat.shiftRight_eq_div_pow, pow_one, and_allOnes (show range / 2 < 2 ^ 32 by omega)]
  have hlow : wrappingAdd64 st.rc.low (if b then range / 2 else 0) =
      st.rc.low + if b then range / 2 else 0 := Nat.mod_eq_of_lt (by split <;> omega)
  rw [hlow]

theorem encodeBit0BaseWithRange_eq (hr : range < 2 ^ 32) (h2 : prob ≤ 2017) :
    st.encodeBit0BaseWithRange range prob = (range / 2048 * prob, learn false prob, st) := by
  unfold Coding.encodeBit0BaseWithRange
  simp only [boundOf_small hr (show prob ≤ 2048 by omega), learn_false_word h2]

theorem encodeBit1BaseWithRange_eq (hr : range < 2 ^ 32) (h2 : prob ≤ 2017)
    (hl : st.rc.low ≤ 2 ^ 33) : st.encodeBit1BaseWithRange range prob =
      (range - range / 2048 * prob, learn true prob, st.addLow (range / 2048 * prob)) := by
  have hbound : range / 2048 * prob ≤ range / 2048 * 2048 := Nat.mul_le_mul_left _ (by omega)
  have hlow : wrappingAdd64 st.rc.low (range / 2048 * prob) =
      st.rc.low + range / 2048 * prob := Nat.mod_eq_of_lt (by omega)
  unfold Coding.encodeBit1BaseWithRange Coding.addLow
  simp only [boundOf_small hr (show prob ≤ 2048 by omega), learn_true_word h2, hlow]

theorem addLow_zero : st.addLow 0 = st := rfl

/-- The bit that is known beforehand is coded as any other. -/
theorem encodeBit0BaseWithRange_known (hr : range < 2 ^ 32) (h1 : 31 ≤ prob) (h2 : prob ≤ 2017)
    (hl : st.rc.low ≤ 2 ^ 33) :
    st.encodeBit0BaseWithRange range prob = st.bitWithRange range prob false.toNat := by
  rw [encodeBit0BaseWithRange_eq hr h2, bitWithRange_eq hr h1 h2 hl]
  simp only [Bool.false_eq_true, if_false, addLow_zero]

theorem encodeBit1BaseWithRange_known (hr : range < 2 ^ 32) (h1 : 31 ≤ prob) (h2 : prob ≤ 2017)
    (hl : st.rc.low ≤ 2 ^ 33) :
    st.encodeBit1BaseWithRange range prob = st.bitWithRange range prob true.toNat := by
  rw [encodeBit1BaseWithRange_eq hr h2 hl, bitWithRange_eq hr h1 h2 hl]
  simp only [if_true]

end

/-- The bytes that are out, `w`, whether or not the stream took them. -/
structure Coding.Out (st : Coding) (w : List UInt8) : Prop where
  count : st.rc.processed + st.rc.buf.length = w.length
  kept : st.rc.res = .ok () → st.out.bytes ++ st.rc.buf = w

section
variable {st : Coding} {w : List UInt8}

theorem Coding.Out.flush (h : st.Out w) : st.flushStream.Out w ∧ st.flushStream.rc.buf = [] ∧
    st.flushStream.rc.low = st.rc.low ∧ st.flushStream.rc.cache = st.rc.cache ∧
    st.flushStream.rc.cacheSize = st.rc.cacheSize := by
  have hcount := h.count
  cases hres : st.rc.res with
  | error e =>
      refine ⟨⟨?_, ?_⟩, ?_, ?_, ?_, ?_⟩ <;> simp only [Coding.flushStream, hres]
      · rw [List.length_nil]
        omega
      · intro hok
        cases hok
  | ok u =>
      have hkept := h.kept hres
      by_cases hf : st.out.fails st.out.calls
      · refine ⟨⟨?_, ?_⟩, ?_, ?_, ?_, ?_⟩ <;>
          simp only [Coding.flushStream, hres, SeqOutStream.write, if_pos hf]
        · rw [List.length_nil]
          omega
        · intro hok
          cases hok
      · refine ⟨⟨?_, ?_⟩, ?_, ?_, ?_, ?_⟩ <;>
          simp only [Coding.flushStream, hres, SeqOutStream.write, if_neg hf]
        · rw [List.length_nil]
          omega
        · intro _
          rw [List.append_nil]
          exact hkept

theorem Coding.Out.push (h : st.Out w) (byte : ℕ) : (st.push byte).Out (w ++ [UInt8.ofNat byte]) ∧
    (st.push byte).rc.low = st.rc.low ∧ (st.push byte).rc.cache = st.rc.cache ∧
    (st.push byte).rc.cacheSize = st.rc.cacheSize := by
  have hcount := h.count
  have hput : ({ st with rc := { st.rc with buf := st.rc.buf ++ [UInt8.ofNat byte] } } :
      Coding).Out (w ++ [UInt8.ofNat byte]) := by
    refine ⟨?_, fun hok => ?_⟩
    · simp only [List.length_append, List.length_singleton]
      omega
    · rw [← h.kept hok, List.append_assoc]
  unfold Coding.push
  simp only
  split
  · obtain ⟨h1, -, h2, h3, h4⟩ := hput.flush
    exact ⟨h1, h2, h3, h4⟩
  · exact ⟨hput, rfl, rfl, rfl⟩

theorem Coding.Out.drain (high n : ℕ) (h : st.Out w) :
    (st.drain high n).Out (w ++ List.replicate n (UInt8.ofNat high)) ∧
    (st.drain high n).rc.low = st.rc.low ∧ (st.drain high n).rc.cache = st.rc.cache ∧
    (st.drain high n).rc.cacheSize = 0 := by
  induction n generalizing st w with
  | zero => exact ⟨⟨h.count.trans (by simp), fun hok => (h.kept hok).trans (by simp)⟩, rfl, rfl, rfl⟩
  | succ n ih =>
      obtain ⟨h1, h2, h3, -⟩ := h.push high
      obtain ⟨h4, h5, h6, h7⟩ := ih h1
      rw [List.append_assoc, List.singleton_append, ← List.replicate_succ] at h4
      exact ⟨h4, h5.trans h2, h6.trans h3, h7⟩

end

/-- The state read as a number, the lower end of the interval `e`: the bytes `w` that are
out, the cached byte, `cacheSize` bytes `0xFF`, and `low`. -/
structure Carry (st : Coding) (w : List UInt8) (e : Exact ℕ) : Prop where
  out : st.Out w
  cache_lt : st.rc.cache < 256
  digits : e.digits = w.length + st.rc.cacheSize
  low : e.low + 2 ^ 32 = (value w * 256 + (st.rc.cache + 1)) * 256 ^ st.rc.cacheSize * 2 ^ 32 +
    st.rc.low
  sum_le : st.rc.low + e.range ≤ 2 ^ 33
  cone : e.low + e.range ≤ (value w + 1) * 256 * 256 ^ st.rc.cacheSize * 2 ^ 32

section
variable {st : Coding} {w : List UInt8} {e : Exact ℕ}

theorem Carry.pending (h : Carry st w e) : Pending w st.rc.cache st.rc.cacheSize st.rc.low e :=
  ⟨h.cache_lt, h.digits, h.low, h.sum_le, h.cone⟩

theorem Carry.of_pending (hout : st.Out w)
    (h : Pending w st.rc.cache st.rc.cacheSize st.rc.low e) : Carry st w e :=
  ⟨hout, h.cache_lt, h.digits, h.sums, h.sum_le, h.cone⟩

/-- A narrower interval with the same bytes out. -/
theorem Carry.narrow (h : Carry st w e) {n : ℕ} {e' : Exact ℕ} (hd : e'.digits = e.digits)
    (hl : e'.low = e.low + n) (hr : e'.low + e'.range ≤ e.low + e.range) :
    Carry (st.addLow n) w e' :=
  .of_pending ⟨h.out.count, h.out.kept⟩ (h.pending.narrow hd hl hr)

/-- What `shiftLow` does to the state: the cached byte goes out, with the carry, when no
later carry can reach it; the top byte of `low` waits otherwise. -/
theorem shiftLow_cases (h : Carry st w e) (hr : 0 < e.range) :
    (∃ high < 2, st.rc.low = high * 2 ^ 32 + st.rc.low % 2 ^ 32 ∧ st.rc.cache + high ≤ 255 ∧
      (st.rc.low % 2 ^ 32 < 0xFF000000 ∨ high = 1) ∧
      st.shiftLow.Out (w ++ UInt8.ofNat (st.rc.cache + high) ::
        List.replicate st.rc.cacheSize (UInt8.ofNat (high + 255))) ∧
      st.shiftLow.rc.cacheSize = 0 ∧
      st.shiftLow.rc.cache = st.rc.low % 2 ^ 32 / 2 ^ 24 ∧
      st.shiftLow.rc.low = st.rc.low % 2 ^ 24 * 256) ∨
    (0xFF000000 ≤ st.rc.low ∧ st.rc.low < 2 ^ 32 ∧ st.shiftLow.Out w ∧
      st.shiftLow.rc.cacheSize = st.rc.cacheSize + 1 ∧ st.shiftLow.rc.cache = st.rc.cache ∧
      st.shiftLow.rc.low = st.rc.low % 2 ^ 24 * 256) := by
  obtain ⟨hhigh, hcache⟩ := h.pending.fits hr
  have hu : u32 (st.rc.low >>> 32) = st.rc.low / 2 ^ 32 := by
    rw [Nat.shiftRight_eq_div_pow, u32, Nat.mod_eq_of_lt (by omega)]
  have hl : u32 (u32 st.rc.low <<< 8) = st.rc.low % 2 ^ 24 * 256 := by
    rw [Nat.shiftLeft_eq, u32, u32]
    omega
  unfold Coding.shiftLow
  simp only [hu, hl]
  by_cases hpush : u32 st.rc.low < 0xFF000000 ∨ st.rc.low / 2 ^ 32 ≠ 0
  · rw [if_pos hpush]
    left
    refine ⟨st.rc.low / 2 ^ 32, by omega, by omega, hcache, ?_, ?_⟩
    · rw [u32] at hpush
      omega
    · have hin : ({ st with rc := { st.rc with low := st.rc.low % 2 ^ 24 * 256 } } : Coding).Out w :=
        ⟨h.out.count, h.out.kept⟩
      rw [show wrappingAdd32 st.rc.cache (st.rc.low / 2 ^ 32) = st.rc.cache + st.rc.low / 2 ^ 32 from
        Nat.mod_eq_of_lt (by omega), show wrappingAdd32 (st.rc.low / 2 ^ 32) 0xFF =
        st.rc.low / 2 ^ 32 + 255 from Nat.mod_eq_of_lt (by omega)]
      obtain ⟨h1, h2, -, h4⟩ := hin.push (st.rc.cache + st.rc.low / 2 ^ 32)
      generalize Coding.push _ _ = st₁ at h1 h2 h4 ⊢
      have hin₁ : ({ st₁ with rc := { st₁.rc with cache := u32 st.rc.low >>> 24 } } : Coding).Out _ :=
        ⟨h1.count, h1.kept⟩
      obtain ⟨h5, h6, h7, h8⟩ := hin₁.drain (st.rc.low / 2 ^ 32 + 255) st₁.rc.cacheSize
      simp only [h4] at h5 h6 h7 h8 ⊢
      rw [List.append_assoc, List.singleton_append] at h5
      refine ⟨h5, h8, h7.trans ?_, h6.trans h2⟩
      rw [Nat.shiftRight_eq_div_pow, u32]
  · rw [if_neg hpush]
    right
    rw [u32] at hpush
    exact ⟨by omega, by omega, ⟨h.out.count, h.out.kept⟩, rfl, rfl, rfl⟩

/-- A shift is a change of unit: the top byte of `low` becomes a digit. -/
theorem Carry.shift (h : Carry st w e) (hr : 0 < e.range) (hs : e.range ≤ 2 ^ 24) :
    ∃ w', Carry st.shiftLow w'
      { e with low := e.low * 256, range := e.range * 256, digits := e.digits + 1 } := by
  obtain ⟨high, hh, hsplit, -, hroom, hout, hsize, hc, hl⟩ | ⟨hge, hlt, hout, hsize, hc, hl⟩ :=
    shiftLow_cases h hr
  · have hpush := h.pending.push hr hs (by omega)
    have hhigh : st.rc.low / 2 ^ 32 = high := by omega
    rw [hhigh, ← hc, ← hsize, ← hl] at hpush
    exact ⟨_, .of_pending hout hpush⟩
  · have hwait := h.pending.wait hs (by omega)
    rw [← hc, ← hsize, ← hl] at hwait
    exact ⟨w, .of_pending hout hwait⟩

theorem Carry.low_shift (h : Carry st w e) (hr : 0 < e.range) :
    st.shiftLow.rc.low = st.rc.low % 2 ^ 24 * 256 ∧
    (st.rc.low = 0 → st.shiftLow.rc.cacheSize = 0 ∧ st.shiftLow.rc.cache = 0) := by
  obtain ⟨high, -, hsplit, -, -, -, hsize, hc, hl⟩ | ⟨hge, -, -, -, -, hl⟩ := shiftLow_cases h hr
  · refine ⟨hl, fun h0 => ⟨hsize, ?_⟩⟩
    rw [hc, h0]
    rfl
  · exact ⟨hl, fun h0 => by omega⟩

/-- A shift for the sake of the lower end alone. -/
theorem Carry.shiftPoint {low digits : ℕ} {probs : ℕ → ℕ} (h : Carry st w ⟨low, 1, digits, probs⟩) :
    ∃ w', Carry st.shiftLow w' ⟨low * 256, 1, digits + 1, probs⟩ := by
  obtain ⟨w', h'⟩ := h.shift (by show 0 < 1; omega) (by show 1 ≤ 2 ^ 24; norm_num)
  have hnarrow : Carry (st.shiftLow.addLow 0) w' ⟨low * 256, 1, digits + 1, probs⟩ :=
    h'.narrow rfl (Nat.add_zero _).symm (by show low * 256 + 1 ≤ low * 256 + 1 * 256; omega)
  exact ⟨w', hnarrow⟩

theorem Carry.point (h : Carry st w e) (hr : 0 < e.range) :
    Carry st w ⟨e.low, 1, e.digits, e.probs⟩ :=
  h.narrow (n := 0) rfl (Nat.add_zero _).symm (by show e.low + 1 ≤ e.low + e.range; omega)

theorem Carry.shiftPoints {low digits : ℕ} {probs : ℕ → ℕ}
    (h : Carry st w ⟨low, 1, digits, probs⟩) (n : ℕ) :
    ∃ w', Carry (Coding.shiftLow^[n] st) w' ⟨low * 256 ^ n, 1, digits + n, probs⟩ := by
  induction n with
  | zero =>
      rw [pow_zero, mul_one]
      exact ⟨w, h⟩
  | succ n ih =>
      obtain ⟨w', h'⟩ := ih
      obtain ⟨w'', h''⟩ := h'.shiftPoint
      rw [Function.iterate_succ_apply', pow_succ, ← mul_assoc]
      exact ⟨w'', h''⟩

/-- The bytes of a flushed encoder are the lower end of its interval. -/
theorem Carry.flushed (h : Carry st w e) (hr : 0 < e.range) :
    ∃ w', st.flushData.Out w' ∧ value w' = e.low ∧ w'.length = e.digits + 5 := by
  have hone : 0 < 1 := Nat.one_pos
  have h0 := h.point hr
  obtain ⟨w₁, h1⟩ := h0.shiftPoints 1
  obtain ⟨w₂, h2⟩ := h0.shiftPoints 2
  obtain ⟨w₃, h3⟩ := h0.shiftPoints 3
  obtain ⟨w₄, h4⟩ := h0.shiftPoints 4
  obtain ⟨w₅, h5⟩ := h0.shiftPoints 5
  have hl1 := (h0.low_shift hone).1
  have hl2 := (h1.low_shift hone).1
  have hl3 := (h2.low_shift hone).1
  have hl4 := (h3.low_shift hone).1
  have hzero : (Coding.shiftLow^[4] st).rc.low = 0 := by
    simp only [Function.iterate_succ, Function.iterate_zero, Function.comp, id] at *
    omega
  -- with `low` empty the last shift leaves nothing behind
  obtain ⟨hl5, hend⟩ := h4.low_shift hone
  obtain ⟨hsize, hc⟩ := hend hzero
  have hdigits := h5.digits
  have hlow := h5.low
  rw [Function.iterate_succ_apply'] at hdigits hlow
  rw [hsize] at hdigits
  rw [hsize, hc, hl5, hzero] at hlow
  refine ⟨w₅, h5.out, ?_, ?_⟩
  · simp only [pow_zero, mul_one] at hlow
    omega
  · simp only at hdigits
    omega

end
end LzmaTurbo.Enc
