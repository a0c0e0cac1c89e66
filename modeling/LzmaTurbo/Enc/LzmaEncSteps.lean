import LzmaTurbo.Enc.CodedSymbols
import LzmaTurbo.Enc.RangeAgreement

/-!
# Coding keeps the exact interval

What the encoder does between two decisions of its parser is a list of operations, and each of
them is one of the exact coder on the decoder's names of the cells. Nothing else of the encoder
is touched by it.
-/
namespace LzmaTurbo.Enc
open Machine Lzma BitProgram
open RangeDecoder (learn)
open ExactCoder (Op Path Exact)

/-- The range coder has an error exactly when a write of the run was refused. -/
structure Coding.Calm (fails : ℕ → Bool) (st : Coding) : Prop where
  stream : st.out.fails = fails
  taken : st.rc.res = .ok () ↔ ∀ n < st.out.calls, fails n = false

section
variable {st : Coding} {fails : ℕ → Bool}

theorem Coding.Calm.flush (h : st.Calm fails) : st.flushStream.Calm fails := by
  have htaken := h.taken
  unfold Coding.flushStream SeqOutStream.write
  cases hres : st.rc.res with
  | error e =>
      rw [hres] at htaken
      exact ⟨h.stream, htaken⟩
  | ok u =>
      have hbefore := htaken.1 hres
      by_cases hf : st.out.fails st.out.calls
      · simp only [if_pos hf]
        refine ⟨h.stream, ⟨nofun, fun hnone => ?_⟩⟩
        have hlast : fails st.out.calls = false := hnone _ (Nat.lt_succ_self _)
        rw [← h.stream, hf] at hlast
        cases hlast
      · simp only [if_neg hf]
        refine ⟨h.stream, ⟨fun _ n hn => ?_, fun _ => rfl⟩⟩
        rcases Nat.lt_succ_iff_lt_or_eq.1 hn with hn | rfl
        · exact hbefore n hn
        · rw [← h.stream]
          exact Bool.eq_false_iff.2 hf

theorem Coding.Calm.push (h : st.Calm fails) (byte : ℕ) : (st.push byte).Calm fails := by
  have hput : ({ st with rc := { st.rc with buf := st.rc.buf ++ [UInt8.ofNat byte] } } :
      Coding).Calm fails := ⟨h.stream, h.taken⟩
  unfold Coding.push
  simp only
  split
  · exact hput.flush
  · exact hput

theorem Coding.Calm.drain (h : st.Calm fails) (high n : ℕ) : (st.drain high n).Calm fails := by
  induction n generalizing st with
  | zero => exact ⟨h.stream, h.taken⟩
  | succ n ih => exact ih (h.push high)

theorem Coding.Calm.shiftLow (h : st.Calm fails) : st.shiftLow.Calm fails := by
  have hlow : ∀ low, ({ st with rc := { st.rc with low } } : Coding).Calm fails :=
    fun _ => ⟨h.stream, h.taken⟩
  unfold Coding.shiftLow
  simp only
  split
  · have hcache := (hlow (u32 (u32 st.rc.low <<< 8))).push
      (wrappingAdd32 st.rc.cache (u32 (st.rc.low >>> 32)))
    refine Coding.Calm.drain ?_ _ _
    exact ⟨hcache.stream, hcache.taken⟩
  · exact ⟨h.stream, h.taken⟩

theorem Coding.Calm.flushData (h : st.Calm fails) : st.flushData.Calm fails :=
  h.shiftLow.shiftLow.shiftLow.shiftLow.shiftLow

/-- Adding to `low` and normalising, the range written back. -/
theorem Coding.Calm.norm (h : st.Calm fails) (low range : ℕ) :
    Coding.Calm fails { ((st.addLow low).normWithRange range).2 with
      rc := { ((st.addLow low).normWithRange range).2.rc with
        range := ((st.addLow low).normWithRange range).1 } } := by
  have hadd : (st.addLow low).Calm fails := ⟨h.stream, h.taken⟩
  unfold Coding.normWithRange
  split
  · exact ⟨hadd.shiftLow.stream, hadd.shiftLow.taken⟩
  · exact ⟨hadd.stream, hadd.taken⟩

end

namespace LzmaEnc

/-- The encoder with another coder and other cells. -/
abbrev coded (e : LzmaEnc) (c : Coding) (cells : ModelSlot → ℕ) : LzmaEnc :=
  { e with rc := c.rc, out := c.out, cells }

/-- The encoder between two operations codes in the interval `x`. -/
structure Models (fails : ℕ → Bool) (e : LzmaEnc) (w : List UInt8) (x : Exact ℕ) : Prop where
  carry : Carry e.toCoding w x
  ok : x.Ok
  range : e.rc.range = x.range
  cells : ∀ s, s.InTable e.litLen → e.cells s = x.probs (place s)
  calm : e.toCoding.Calm fails

section
variable {e : LzmaEnc} {w : List UInt8} {x : Exact ℕ} {fails : ℕ → Bool}

theorem Models.bit (h : e.Models fails w x) {slot : ModelSlot} (hs : slot.InTable e.litLen)
    (b : Bool) : ∃ c cells w', e.op (.bit slot b) = .ok (e.coded c cells) ∧
      (e.coded c cells).Models fails w' (x.op (.bit (place slot) b)) := by
  obtain ⟨hdigits, -, hhigh, hpos, hlt, -⟩ := h.ok.narrow (.bit (place slot) b)
  have hcarry : Carry (e.toCoding.addLow (if b then x.bound (place slot) else 0)) w
      (x.narrow (.bit (place slot) b)) :=
    h.carry.narrow hdigits (by cases b <;> rfl) hhigh
  have hbit : e.toCoding.bitWithRange e.rc.range (e.cells slot) b.toNat =
      ((x.narrow (.bit (place slot) b)).range, learn b (x.probs (place slot)),
        e.toCoding.addLow (if b then x.bound (place slot) else 0)) := by
    rw [h.range, h.cells slot hs, bitWithRange_eq h.ok.range_lt (h.ok.probs_ge _)
      (h.ok.probs_le _) h.carry.low_le]
    rfl
  obtain ⟨w', hrange, hwiden⟩ := normWithRange_widen hcarry (by omega) hlt
  have hcalm := h.calm.norm (if b then x.bound (place slot) else 0)
    (x.narrow (.bit (place slot) b)).range
  generalize hst : (e.toCoding.addLow _).normWithRange _ = normed at hrange hwiden hcalm
  refine ⟨{ normed.2 with rc := { normed.2.rc with range := normed.1 } },
    Function.update e.cells slot (learn b (x.probs (place slot))), w', ?_,
    ⟨hwiden.setRange _, h.ok.op _, hrange, fun s hin => ?_, hcalm⟩⟩
  · rw [op, if_pos hs, encodeBitWithRange_of hbit, hst]
  · rw [op_probs]
    change Function.update e.cells slot _ s = Function.update x.probs (place slot) _ (place s)
    by_cases hslot : s = slot
    · rw [hslot, Function.update_self, Function.update_self]
    · rw [Function.update_of_ne hslot, Function.update_of_ne fun hp => hslot (place_inj hin hs hp)]
      exact h.cells s hin

theorem Models.direct (h : e.Models fails w x) (b : Bool) :
    ∃ c cells w', e.op (.direct b) = .ok (e.coded c cells) ∧
      (e.coded c cells).Models fails w' (x.op (.direct b)) := by
  obtain ⟨hdigits, -, hhigh, hpos, hlt, -⟩ := h.ok.narrow (.direct b)
  have hcarry : Carry (e.toCoding.addLow (if b then x.range / 2 else 0)) w
      (x.narrow (.direct b)) :=
    h.carry.narrow hdigits (by cases b <;> rfl) hhigh
  have hbit : e.toCoding.directWithRange e.rc.range (wrappingSub32 0 b.toNat) =
      ((x.narrow (.direct b)).range, e.toCoding.addLow (if b then x.range / 2 else 0)) := by
    rw [h.range, directWithRange_eq h.ok.range_lt h.carry.low_le]
    rfl
  obtain ⟨w', hrange, hwiden⟩ := normWithRange_widen hcarry (by omega) hlt
  have hcalm := h.calm.norm (if b then x.range / 2 else 0) (x.narrow (.direct b)).range
  generalize hst : (e.toCoding.addLow _).normWithRange _ = normed at hrange hwiden hcalm
  refine ⟨{ normed.2 with rc := { normed.2.rc with range := normed.1 } }, e.cells, w', ?_,
    ⟨hwiden.setRange _, h.ok.op _, hrange, fun s hin => ?_, hcalm⟩⟩
  · rw [op, encodeDirectBitWithRange_of hbit, hst]
  · rw [op_probs]
    exact h.cells s hin

theorem Models.op (h : e.Models fails w x) {o : Op ModelSlot} (ho : o.In (·.InTable e.litLen)) :
    ∃ c cells w', e.op o = .ok (e.coded c cells) ∧
      (e.coded c cells).Models fails w' (x.op (o.map place)) := by
  cases o with
  | bit slot b => exact h.bit ho b
  | direct b => exact h.direct b

/-- A bit that is known beforehand is coded as any other. -/
theorem Models.known_eq (h : e.Models fails w x) {slot : ModelSlot}
    (hs : slot.InTable e.litLen) (b : Bool) : e.known slot b = e.op (.bit slot b) := by
  have hr : e.rc.range < 2 ^ 32 := h.range ▸ h.ok.range_lt
  have h₁ : 31 ≤ e.cells slot := h.cells slot hs ▸ h.ok.probs_ge _
  have h₂ : e.cells slot ≤ 2017 := h.cells slot hs ▸ h.ok.probs_le _
  rw [LzmaEnc.known, LzmaEnc.op, if_pos hs, if_pos hs, Coding.encodeBitWithRange]
  cases b with
  | false =>
      rw [← encodeBit0BaseWithRange_known hr h₁ h₂ h.carry.low_le]
      rfl
  | true =>
      rw [← encodeBit1BaseWithRange_known hr h₁ h₂ h.carry.low_le]
      rfl

theorem Models.known (h : e.Models fails w x) {slot : ModelSlot} (hs : slot.InTable e.litLen)
    (b : Bool) : ∃ c cells w', e.known slot b = .ok (e.coded c cells) ∧
      (e.coded c cells).Models fails w' (x.op (.bit (place slot) b)) := by
  rw [h.known_eq hs]
  exact h.bit hs b

theorem Models.knownNext {c : Coding} {cells : ModelSlot → ℕ}
    (h : (e.coded c cells).Models fails w x) {slot : ModelSlot} (hs : slot.InTable e.litLen)
    (b : Bool) : ∃ c' cells' w', (e.coded c cells).known slot b = .ok (e.coded c' cells') ∧
      (e.coded c' cells').Models fails w' (x.op (.bit (place slot) b)) :=
  h.known hs b

theorem Models.ops {os : List (Op ModelSlot)} (h : e.Models fails w x)
    (ho : ∀ o ∈ os, o.In (·.InTable e.litLen)) :
    ∃ c cells w', e.ops os = .ok (e.coded c cells) ∧
      (e.coded c cells).Models fails w' (x.ops (os.map (Op.map place))) := by
  induction os generalizing e w x with
  | nil => exact ⟨e.toCoding, e.cells, w, rfl, h⟩
  | cons o os ih =>
      obtain ⟨c, cells, w₁, hop, h₁⟩ := h.op (ho o List.mem_cons_self)
      obtain ⟨c', cells', w', hops, h'⟩ := ih h₁ fun o' ho' => ho o' (List.mem_cons_of_mem _ ho')
      refine ⟨c', cells', w', ?_, h'⟩
      rw [LzmaEnc.ops, hop, ok_bind, hops]

theorem ops_cons (x : Exact ℕ) (o : Op ModelSlot) (os : List (Op ModelSlot)) :
    x.ops ((o :: os).map (Op.map place)) = (x.op (o.map place)).ops (os.map (Op.map place)) := rfl

theorem ops_append (x : Exact ℕ) (os os' : List (Op ModelSlot)) :
    x.ops ((os ++ os').map (Op.map place)) =
      (x.ops (os.map (Op.map place))).ops (os'.map (Op.map place)) := by
  rw [List.map_append, Exact.ops, List.foldl_append]
  rfl

theorem ops_nil (x : Exact ℕ) : x.ops (([] : List (Op ModelSlot)).map (Op.map place)) = x := rfl

/-- The parser's bookkeeping is none of the coder's. -/
theorem Models.moved (h : e.Models fails w x) (state : ℕ) (reps : Reps) (nowPos : ℕ) :
    LzmaEnc.Models fails { e with state, reps, nowPos } w x :=
  ⟨⟨⟨h.carry.out.count, h.carry.out.kept⟩, h.carry.cache_lt, h.carry.digits, h.carry.low,
    h.carry.sum_le, h.carry.cone⟩, h.ok, h.range, h.cells, ⟨h.calm.stream, h.calm.taken⟩⟩

end
end LzmaEnc
end LzmaTurbo.Enc
