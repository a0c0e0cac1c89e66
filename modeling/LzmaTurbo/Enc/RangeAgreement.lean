import LzmaTurbo.Enc.RangeEncLaws
import LzmaTurbo.Lzma.Header
import LzmaTurbo.Lzma.Procedures
import LzmaTurbo.Lzma.SymbolInterval

/-!
# The decoder reads what the range encoder wrote

One operation of the encoder is one of the exact coder, whatever the output
stream refuses. The decoder's bit procedures follow the questions of the same
operations, so the library's agreement of the exact coder and the decoder is
the agreement of the two range coders.
-/
namespace LzmaTurbo.Enc
open Machine Lzma BitProgram
open RangeDecoder (Coder learn InLearnt inLearnt_iff)
open ExactCoder (Op Ask Exact value value_cons asksProg)

/-- The operation's slot, if it has one, is in a table of `N`. -/
def InTable (N : ℕ) : Op ℕ → Prop
  | .bit slot _ => slot < N
  | .direct _ => True

/-- A carry fits into the cached byte. -/
structure Room (st : Coding) (range : ℕ) : Prop where
  sum_le : st.rc.low + range ≤ 2 ^ 33
  carry_le : st.rc.low / 2 ^ 32 ≤ 1
  cached : st.rc.cache + st.rc.low / 2 ^ 32 ≤ 255

theorem Carry.room {st : Coding} {w : List UInt8} {e : Exact ℕ} (h : Carry st w e)
    (hr : 0 < e.range) : Room st e.range :=
  ⟨h.sum_le, (h.pending.fits hr).1, (h.pending.fits hr).2⟩

/-- The encoder between two operations codes in the interval `x`. -/
structure Encoding.Models (e : Encoding) (w : List UInt8) (x : Exact ℕ) : Prop where
  carry : Carry e.toCoding w x
  ok : x.Ok
  range : e.rc.range = x.range
  probs : ∀ i < e.probs.size, e.probs[i]? = some (x.probs i)

section
variable {e : Encoding} {w : List UInt8} {x : Exact ℕ} {range : ℕ} {st : Coding}

theorem Carry.low_le (h : Carry st w x) : st.rc.low ≤ 2 ^ 33 :=
  (Nat.le_add_right _ _).trans h.sum_le

/-- Normalisation shifts out a digit when the interval is widened. -/
theorem normWithRange_widen (h : Carry st w x) (hr : 0 < x.range) (hlt : x.range < 2 ^ 32) :
    ∃ w', (st.normWithRange x.range).1 = x.widen.range ∧
      Carry (st.normWithRange x.range).2 w' x.widen := by
  unfold Coding.normWithRange Exact.widen
  rw [top_eq]
  by_cases hs : x.range < 2 ^ 24
  · simp only [if_pos hs]
    obtain ⟨w', h'⟩ := h.shift hr hs.le
    refine ⟨w', ?_, h'⟩
    rw [u32, Nat.shiftLeft_eq]
    omega
  · simp only [if_neg hs]
    exact ⟨w, trivial, h⟩

theorem encodeBitWithRange_of {prob bit range' prob' : ℕ} {st' : Coding}
    (h : st.bitWithRange range prob bit = (range', prob', st')) :
    st.encodeBitWithRange range prob bit =
      ((st'.normWithRange range').1, prob', (st'.normWithRange range').2) := by
  unfold Coding.encodeBitWithRange
  rw [h]

theorem encodeDirectBitWithRange_of {add range' : ℕ} {st' : Coding}
    (h : st.directWithRange range add = (range', st')) :
    st.encodeDirectBitWithRange range add = st'.normWithRange range' := by
  unfold Coding.encodeDirectBitWithRange
  rw [h]

/-- Before its normalisation a bit has narrowed the interval. -/
theorem Encoding.Models.bit (h : e.Models w x) (slot : ℕ) (b : Bool) :
    ∃ st, e.bitWithRange e.rc.range (x.probs slot) b.toNat =
      ((x.narrow (.bit slot b)).range, learn b (x.probs slot), st) ∧
      Carry st w (x.narrow (.bit slot b)) := by
  obtain ⟨hdigits, -, hhigh, -⟩ := h.ok.narrow (.bit slot b)
  refine ⟨e.addLow (if b then x.bound slot else 0), ?_, h.carry.narrow hdigits ?_ hhigh⟩
  · rw [h.range, bitWithRange_eq h.ok.range_lt (h.ok.probs_ge slot) (h.ok.probs_le slot)
      h.carry.low_le]
    rfl
  · cases b <;> rfl

theorem Encoding.Models.direct (h : e.Models w x) (b : Bool) :
    ∃ st, e.directWithRange e.rc.range (wrappingSub32 0 b.toNat) =
      ((x.narrow (.direct b)).range, st) ∧ Carry st w (x.narrow (.direct b)) := by
  obtain ⟨hdigits, -, hhigh, -⟩ := h.ok.narrow (.direct b)
  refine ⟨e.addLow (if b then x.range / 2 else 0), ?_, h.carry.narrow hdigits ?_ hhigh⟩
  · rw [h.range, directWithRange_eq h.ok.range_lt h.carry.low_le]
    rfl
  · cases b <;> rfl

theorem Carry.setRange (h : Carry st w x) (range : ℕ) :
    Carry { st with rc := { st.rc with range } } w x :=
  ⟨⟨h.out.count, h.out.kept⟩, h.cache_lt, h.digits, h.low, h.sum_le, h.cone⟩

theorem op_probs (o : Op ℕ) : (x.op o).probs = (x.narrow o).probs := by
  unfold Exact.op Exact.widen
  split <;> rfl

/-- The normalised range is written back. -/
def Encoding.next (normed : ℕ × Coding) (probs : Array ℕ) : Encoding :=
  { normed.2 with rc := { normed.2.rc with range := normed.1 }, probs }

theorem op_probs_get {probs : Array ℕ} {slot : ℕ} {b : Bool} (hs : slot < probs.size)
    (h : ∀ i < probs.size, probs[i]? = some (x.probs i)) :
    ∀ i < probs.size, (probs.setIfInBounds slot (learn b (x.probs slot)))[i]? =
      some ((x.op (.bit slot b)).probs i) := by
  intro i hi
  rw [op_probs, Array.getElem?_setIfInBounds]
  by_cases his : slot = i
  · subst his
    rw [if_pos rfl, if_pos hs]
    simp only [Exact.narrow, Function.update_self]
  · rw [if_neg his, h i hi]
    simp only [Exact.narrow, Function.update_of_ne (Ne.symm his)]

/-- One operation is one of the exact coder. -/
theorem Encoding.Models.encode (h : e.Models w x) {o : Op ℕ} (ho : InTable e.probs.size o) :
    ∃ e' w', e.encode o = .ok e' ∧ e'.Models w' (x.op o) ∧ e'.probs.size = e.probs.size := by
  obtain ⟨-, -, -, hpos, hlt, -⟩ := h.ok.narrow o
  cases o with
  | bit slot b =>
      obtain ⟨st, hst, hcarry⟩ := h.bit slot b
      obtain ⟨w', hrange, hwiden⟩ := normWithRange_widen hcarry (by omega) hlt
      have hsize : (e.probs.setIfInBounds slot (learn b (x.probs slot))).size = e.probs.size :=
        Array.size_setIfInBounds
      refine ⟨Encoding.next (st.normWithRange (x.narrow (.bit slot b)).range)
        (e.probs.setIfInBounds slot (learn b (x.probs slot))), w', ?_,
        ⟨hwiden.setRange _, h.ok.op _, hrange, ?_⟩, hsize⟩
      · rw [Encoding.encode, get_ok (h.probs slot ho), ok_bind, encodeBitWithRange_of hst]
        simp only
        rw [put_ok ho, ok_bind]
        rfl
      · intro i hi
        exact op_probs_get ho h.probs i (hsize ▸ hi)
  | direct b =>
      obtain ⟨st, hst, hcarry⟩ := h.direct b
      obtain ⟨w', hrange, hwiden⟩ := normWithRange_widen hcarry (by omega) hlt
      refine ⟨Encoding.next (st.normWithRange (x.narrow (.direct b)).range) e.probs, w', ?_,
        ⟨hwiden.setRange _, h.ok.op _, hrange, ?_⟩, rfl⟩
      · rw [Encoding.encode, encodeDirectBitWithRange_of hst]
        rfl
      · intro i hi
        rw [op_probs]
        exact h.probs i hi

theorem Encoding.Models.encodes {os : List (Op ℕ)} (h : e.Models w x)
    (ho : ∀ o ∈ os, InTable e.probs.size o) :
    ∃ e' w', Encoding.encodes os e = .ok e' ∧ e'.Models w' (x.ops os) ∧
      e'.probs.size = e.probs.size := by
  induction os generalizing e w x with
  | nil => exact ⟨e, w, rfl, h, rfl⟩
  | cons o os ih =>
      obtain ⟨e₁, w₁, h1, hm, hs⟩ := h.encode (ho o List.mem_cons_self)
      obtain ⟨e', w', h2, hm', hs'⟩ := ih hm fun o' ho' => by
        rw [hs]
        exact ho o' (List.mem_cons_of_mem _ ho')
      refine ⟨e', w', ?_, hm', hs'.trans hs⟩
      rw [Encoding.encodes, h1, ok_bind, h2]

end

section
variable {src : List UInt8} {size N : ℕ} {rc : Rc} {c : Coder ℕ} {rest : List UInt8}

end

section
variable {st : Coding} {w : List UInt8} {x : Exact ℕ}

/-- The interval before the first bit. -/
def wholeInterval (probs : Array ℕ) : Exact ℕ where
  low := 0
  range := 0xFFFFFFFF
  digits := 0
  probs i := probs.getD i 1024

theorem whole_ok {probs : Array ℕ} (hp : ∀ v ∈ probs, InLearnt v) : (wholeInterval probs).Ok := by
  have hin : ∀ i, InLearnt (probs.getD i 1024) := by
    intro i
    by_cases hi : i < probs.size
    · rw [Array.getD_eq_getD_getElem?, Array.getElem?_eq_getElem hi]
      exact hp _ (Array.getElem_mem hi)
    · rw [Array.getD_eq_getD_getElem?, Array.getElem?_eq_none (by omega)]
      exact inLearnt_iff.mpr (by norm_num [Option.getD])
  exact ⟨by show 2 ^ 24 ≤ 0xFFFFFFFF; norm_num, by show 0xFFFFFFFF < 2 ^ 32; norm_num,
    fun i => (inLearnt_iff.mp (hin i)).1, fun i => (inLearnt_iff.mp (hin i)).2⟩

theorem whole_probs {probs : Array ℕ} {i : ℕ} (hi : i < probs.size) :
    probs[i]? = some ((wholeInterval probs).probs i) := by
  simp only [wholeInterval, Array.getD_eq_getD_getElem?, Array.getElem?_eq_getElem hi,
    Option.getD_some]

theorem start_models (fails : ℕ → Bool) {probs : Array ℕ} (hp : ∀ v ∈ probs, InLearnt v) :
    (Encoding.start fails probs).Models [] (wholeInterval probs) where
  carry :=
    { out := ⟨rfl, fun _ => rfl⟩
      cache_lt := by show 0 < 256; norm_num
      digits := rfl
      low := by show 0 + 2 ^ 32 = (0 * 256 + (0 + 1)) * 256 ^ 0 * 2 ^ 32 + 0; norm_num
      sum_le := by show 0 + 0xFFFFFFFF ≤ 2 ^ 33; norm_num
      cone := by show 0 + 0xFFFFFFFF ≤ (0 + 1) * 256 * 256 ^ 0 * 2 ^ 32; norm_num }
  ok := whole_ok hp
  range := rfl
  probs _ hi := whole_probs hi

/-- A stream in the whole interval has the first byte zero and then the decoder's code. -/
theorem holds_header {probs : Array ℕ} (h : (wholeInterval probs).Holds w) :
    ∃ b1 b2 b3 b4 ys, w = 0 :: b1 :: b2 :: b3 :: b4 :: ys ∧
      b1.toNat * 2 ^ 24 + b2.toNat * 2 ^ 16 + b3.toNat * 2 ^ 8 + b4.toNat = value (w.take 5) := by
  obtain ⟨hlen, -, hhigh⟩ := h
  simp only [wholeInterval, Nat.zero_add] at hlen hhigh
  match w, hlen with
  | b0 :: b1 :: b2 :: b3 :: b4 :: ys, _ =>
    have hzero : b0.toNat = 0 := by
      rw [value_cons] at hhigh
      simp only [List.length_cons] at hhigh
      rw [show ys.length + 1 + 1 + 1 + 1 + 1 - 5 = ys.length by omega,
        show ys.length + 1 + 1 + 1 + 1 = ys.length + 4 by rfl, pow_add] at hhigh
      by_contra hne
      have hle : 1 * (256 ^ ys.length * 256 ^ 4) ≤ b0.toNat * (256 ^ ys.length * 256 ^ 4) :=
        Nat.mul_le_mul_right _ (by omega)
      have hpos : 0 < 256 ^ ys.length := by positivity
      omega
    obtain rfl : b0 = 0 := UInt8.toNat_inj.mp hzero
    refine ⟨b1, b2, b3, b4, ys, rfl, ?_⟩
    simp only [List.take_succ_cons, List.take_zero, value, List.foldl_cons, List.foldl_nil]
    change _ =
      ((((0 * 256 + 0) * 256 + b1.toNat) * 256 + b2.toNat) * 256 + b3.toNat) * 256 + b4.toNat
    omega

end

/-- The decoder's range coder after the header. -/
def decodeStart (bytes : List UInt8) (probs : Array ℕ) : Except Fault Rc := do
  let code ← headerCode bytes.toArray
  .ok { range := 0xFFFFFFFF, code, buf := 5, probs }

def decodes (bytes : List UInt8) (probs : Array ℕ) (asks : List (Bool × Ask ℕ)) :
    Except Fault (List Bool × Rc) := do
  let rc ← decodeStart bytes probs
  decodeAsks bytes asks rc

/-- Encoder and decoder after the operations `pre`, of which `w` is the encoding: the same
bits, range and probabilities. `rc` is the decoder when it has normalised. -/
structure Agree (w : List UInt8) (table : Array ℕ) (pre : List (Bool × Op ℕ)) (e : Encoding)
    (rc : Rc) : Prop where
  room : Room e.toCoding e.rc.range
  range : rc.range = e.rc.range
  probs : rc.probs = e.probs
  reads : ∃ rc₀, decodes w table (pre.map fun o => (o.1, o.2.ask)) =
      .ok (pre.map fun o => o.2.value, rc₀) ∧ normalize w rc₀ = .ok rc

section
variable {w : List UInt8} {probs : Array ℕ}

end

end LzmaTurbo.Enc
