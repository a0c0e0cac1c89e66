import LzmaTurbo.Filters.Bcj2Carry
import LzmaTurbo.Filters.Bcj2DecRuns

/-!
# The BCJ2 decoder goes where the encoder went

The decoder has read as much of the range-coded stream as the encoder's interval says, is
at the same address and has the same byte behind it. Every bit is then answered as it was
encoded, and a target is taken from the stream it was put into.
-/
namespace LzmaTurbo.Filters
open Supplies
open Bcj2Enc (Carry EncMicro EncSupply encMachine encStep copyStep markerStep getLe32)
open ExactCoder (Op Exact value)

theorem getBe32_bytes (v : UInt32) :
    getBe32 (v >>> 24).toUInt8 (v >>> 16).toUInt8 (v >>> 8).toUInt8 v.toUInt8 = v := by
  apply UInt32.toBitVec_inj.1
  apply BitVec.eq_of_getLsbD_eq
  intro i hi
  unfold getBe32
  simp [-UInt32.toUInt32_toUInt8]
  grind

theorem getLe32_bytes (a b c d : UInt8) :
    (getLe32 a b c d).toUInt8 = a ∧ (getLe32 a b c d >>> 8).toUInt8 = b ∧
      (getLe32 a b c d >>> 16).toUInt8 = c ∧ (getLe32 a b c d >>> 24).toUInt8 = d := by
  refine ⟨?_, ?_, ?_, ?_⟩ <;> apply UInt8.toBitVec_inj.1 <;>
    apply BitVec.eq_of_getLsbD_eq <;> intro i hi <;> unfold getLe32 getBe32 <;> simp
  · grind
  · grind
  · grind

theorem rolled_of_last {u v : UInt32} (h : v <<< 24 = u <<< 24) (b : UInt8) :
    rolled v b = rolled u b := by
  unfold rolled
  rw [h]

theorem isMarker_of_last {u v : UInt32} (h : v <<< 24 = u <<< 24) (b : UInt8) :
    isMarker v b = isMarker u b := by
  unfold isMarker
  rw [rolled_of_last h]

/-- The byte behind the next is the last of the context. -/
theorem rolled_last (v : UInt32) (b : UInt8) : rolled v b <<< 24 = b.toUInt32 <<< 24 := by
  have h := shifted_low (rolled v b)
  rw [rolled_byte] at h
  exact h.symm

namespace Bcj2Dec

/-- The range coder of a decoder. -/
def coder (d : Bcj2Dec) : RangeDecoder.Coder ℕ := ⟨d.range, d.code, d.probs⟩

theorem decodeBit_coder (d : Bcj2Dec) (v : UInt32) :
    (d.decodeBit v).1 = (d.coder.split (probIndex v)).1 ∧
      (d.decodeBit v).2.coder = (d.coder.split (probIndex v)).2.adapt (probIndex v)
        (d.coder.split (probIndex v)).1 ∧
      (d.decodeBit v).2.ip = d.ip := by
  unfold decodeBit RangeDecoder.Coder.split
  by_cases h : d.code < d.range / bcj2BitModelTotal * d.probs (probIndex v)
  · have h' : d.coder.code < d.coder.bound (probIndex v) := h
    simp only [if_pos h, if_pos h']
    exact ⟨trivial, rfl, trivial⟩
  · have h' : ¬d.coder.code < d.coder.bound (probIndex v) := h
    simp only [if_neg h, if_neg h']
    exact ⟨trivial, rfl, trivial⟩

variable {e : Exact ℕ} {xs rc : List UInt8} {d : Bcj2Dec}

theorem bit_reads {v : UInt32} {b : Bool} (hc : e.Reads xs d.coder rc)
    (h : (e.narrow (.bit (probIndex v) b)).Holds xs) :
    (d.decodeBit v).1 = b ∧
      (e.narrow (.bit (probIndex v) b)).Reads xs (d.decodeBit v).2.coder rc ∧
      (d.decodeBit v).2.ip = d.ip := by
  obtain ⟨hbit, hreads⟩ := hc.bit h
  obtain ⟨h1, h2, h3⟩ := decodeBit_coder d v
  exact ⟨h1.trans hbit, h2 ▸ hreads, h3⟩

/-- The normalization of a turn. -/
theorem top_steps (hc : e.Reads xs d.coder rc) (h : e.widen.Holds xs) :
    ∃ d' rc', (∀ (v : UInt32) (main call jump : List UInt8) (room : ℕ) (dest : List UInt8),
        machine.Steps (⟨.top, v, d⟩, ⟨main, call, jump, rc, room, dest⟩)
          (⟨.scan, v, d'⟩, ⟨main, call, jump, rc', room, dest⟩)) ∧
      e.widen.Reads xs d'.coder rc' ∧ d'.ip = d.ip := by
  obtain ⟨c', rc', hn, hreads⟩ := hc.widen h
  by_cases hlow : d.range < bcj2TopValue
  · have hlow' : d.coder.range < 2 ^ 24 := hlow
    cases rc with
    | nil =>
        rw [RangeDecoder.normalize_nil hlow'] at hn
        cases hn
    | cons b rc =>
        rw [RangeDecoder.normalize_cons hlow'] at hn
        cases hn
        refine ⟨d.normalized b, rc', fun v main call jump room dest => .one ?_, ?_, rfl⟩
        · change topStep _ _ = _
          simp only [topStep, if_pos hlow]
        · have hcode : (d.code * 256 + b.toNat) % 0x100000000 =
              d.code * 256 % 2 ^ 32 + b.toNat := by
            have hb := b.toNat_lt
            omega
          refine ⟨hreads.range, ?_, hreads.probs, hreads.rest⟩
          change (d.code * 256 + b.toNat) % 0x100000000 + _ = _
          rw [hcode]
          exact hreads.code
  · have hlow' : 2 ^ 24 ≤ d.coder.range := Nat.le_of_not_lt hlow
    rw [RangeDecoder.normalize_of_le hlow'] at hn
    cases hn
    refine ⟨d, rc, fun v main call jump room dest => .one ?_, hreads, rfl⟩
    change topStep _ _ = _
    simp only [topStep, if_neg hlow]

/-- A target that is there is turned back into its offset. -/
theorem target_steps (d : Bcj2Dec) (cj : ℕ) (relat u : UInt32) (rest : List UInt8)
    {s : Bcj2DecStreams} {absol : UInt32} (habsol : absol = d.ip + 4 + relat)
    (hside : s.side cj =
      (absol >>> 24).toUInt8 :: (absol >>> 16).toUInt8 :: (absol >>> 8).toUInt8 ::
        absol.toUInt8 :: rest)
    (hroom : 4 ≤ s.room) :
    machine.Steps (⟨.target cj, u, d⟩, s)
      (⟨.top, relat >>> 24, { d with ip := d.ip + 4 }⟩, putWhole relat (s.setSide cj rest)) := by
  have hrelat : absol - (d.ip + 4) = relat := by
    rw [habsol, UInt32.add_comm, UInt32.add_sub_cancel]
  have hstep : machine.step ⟨.target cj, u, d⟩ s =
      some (⟨.emit 4, relat, { d with ip := d.ip + 4 }⟩, s.setSide cj rest) := by
    change targetStep _ cj s = _
    unfold targetStep
    rw [hside]
    simp only [getBe32_bytes, hrelat]
  have hkeep : (s.setSide cj rest).room = s.room := by
    unfold Bcj2DecStreams.setSide
    split <;> rfl
  have hemit := (emit_steps 4 (by decide) relat { d with ip := d.ip + 4 } (s.setSide cj rest)).1
  rw [putWhole_eq _ _ (hkeep ▸ hroom)] at hemit
  exact .head hstep hemit

end Bcj2Dec

namespace Bcj2Enc

/-- An encoder between two steps of the loop, all of the source being there. -/
structure Between (core : Bcj2Enc) (x : EncSupply) (e : Exact ℕ) : Prop where
  carry : Carry core x.rc e
  ok : e.Ok
  range : e.range = core.range
  probs : e.probs = core.probs
  owes : core.flushRem = 5
  ended : x.ended = true

/-- What `encodeBit` changes. -/
def SameBit (core c : Bcj2Enc) (v : UInt32) (b : Bool) : Prop :=
  c = { core.encodeBit v b with ip64 := c.ip64, context := c.context }

/-- A bit, and the normalization behind it. -/
theorem Between.bit {core c : Bcj2Enc} {x : EncSupply} {e : Exact ℕ} (h : Between core x e)
    {v : UInt32} {b : Bool} (hc : SameBit core c v b) (x' : EncSupply) (hrc : x'.rc = x.rc)
    (hended : x'.ended = true) :
    ∃ c' rc, encMachine.Steps (⟨.loop, c⟩, x') (⟨.loop, c'⟩, { x' with rc }) ∧
      Between c' { x' with rc } (e.op (.bit (probIndex v) b)) ∧ c'.ip64 = c.ip64 ∧
      c'.context = c.context := by
  obtain ⟨hdigits, hlow, hhigh, hwide, -, -⟩ := h.ok.narrow (.bit (probIndex v) b)
  have hbound : e.bound (probIndex v) =
      core.range / bcj2BitModelTotal * core.probs (probIndex v) := by
    unfold Exact.bound
    rw [h.range, h.probs]
    rfl
  have hfields : (e.narrow (.bit (probIndex v) b)).range = c.range ∧
      (e.narrow (.bit (probIndex v) b)).probs = c.probs ∧ c.flushRem = core.flushRem ∧
      c.cacheSize = core.cacheSize ∧ c.cache = core.cache ∧
      c.low = core.low + (if b then e.bound (probIndex v) else 0) ∧
      (e.narrow (.bit (probIndex v) b)).low =
        e.low + (if b then e.bound (probIndex v) else 0) := by
    rw [hc]
    cases b with
    | true =>
        simp only [Exact.narrow, encodeBit, if_true, hbound, h.range, h.probs]
        exact ⟨trivial, rfl, trivial, trivial, trivial, trivial, trivial⟩
    | false =>
        simp only [Exact.narrow, encodeBit, Bool.false_eq_true, if_false, hbound, h.probs]
        exact ⟨trivial, rfl, trivial, trivial, trivial, rfl, rfl⟩
  obtain ⟨hrange, hprobs, hrem, hsize, hcache, hsum, hmoved⟩ := hfields
  have hcarry : Carry c x'.rc (e.narrow (.bit (probIndex v) b)) := by
    refine ⟨hsize ▸ h.carry.waits, ?_⟩
    rw [hrc, hsize, hcache, hsum]
    exact h.carry.pending.narrow hdigits hmoved hhigh
  obtain ⟨k, n, l, rc, hsteps, hcarry'⟩ := hcarry.widen hrange (by omega)
  have hkept : (e.narrow (.bit (probIndex v) b)).widen.probs =
      (e.narrow (.bit (probIndex v) b)).probs := by
    unfold Exact.widen
    split <;> rfl
  exact ⟨_, rc, hsteps, ⟨hcarry', h.ok.op _, rfl, hkept.trans hprobs, hrem.trans h.owes, hended⟩,
    rfl, rfl⟩

end Bcj2Enc
end LzmaTurbo.Filters
