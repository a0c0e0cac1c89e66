import LzmaTurbo.Lzma.Session
import LzmaTurbo.Lzma2.Decoder
import LzmaTurbo.Lzma2.Headers

/-!
# Where an LZMA2 decoder stands

Between two turns of its loop the decoder holds part of a chunk header or is
inside a chunk, and what it has written is what the grammar has written there.
-/
namespace LzmaTurbo.Lzma2
open Machine Lzma StreamMachine Window

/-- Between two chunks the LZMA decoder keeps the dictionary and the properties. -/
structure Idle (p : LzmaDec) (r : Ref2) : Prop extends p.Shape, p.Window r.s.hist where
  prop : p.prop = r.prop
  room : lzmaPropsGetNumProbs lzma2LclpMax 0 ≤ p.probs.size
  need : r.need = 0 ∨ 0xC0 ≤ r.need

/-- It also keeps the state for a chunk that does not reset it. -/
structure Kept (p : LzmaDec) (r : Ref2) : Prop where
  reps : p.reps = r.s.reps
  state : p.state = r.s.state
  table : Table p.probs (lzmaPropsGetNumProbs p.prop.lc p.prop.lp) r.s.coder
  base : r.s.Base p.prop
  hist : r.s.hist ≠ []

section
variable {p : LzmaDec} {r : Ref2} {prop : LzmaProps}

theorem numProbs_le {lc lp : ℕ} (h : lc + lp ≤ lzma2LclpMax) :
    lzmaPropsGetNumProbs lc lp ≤ lzmaPropsGetNumProbs lzma2LclpMax 0 := by
  have hpow : (2 : ℕ) ^ (lc + lp) ≤ 2 ^ (lzma2LclpMax + 0) := Nat.pow_le_pow_right (by norm_num) h
  unfold lzmaPropsGetNumProbs
  rw [Nat.shiftLeft_eq, Nat.shiftLeft_eq]
  exact Nat.add_le_add_left (Nat.mul_le_mul_left _ hpow) _

theorem checkOf_congr (h : prop.dictSize = p.prop.dictSize) (n : ℕ) :
    checkOf prop n = checkOf p.prop n := by
  unfold checkOf
  rw [h]

/-- A property byte changes no dictionary size. -/
theorem Idle.withProp (h : Idle p r) (hd : prop.dictSize = p.prop.dictSize)
    (hl : prop ≠ r.prop → prop.lc + prop.lp ≤ lzma2LclpMax) :
    Idle { p with prop } { r with prop } where
  pos_le := h.pos_le
  size_le := h.size_le
  size_lt := h.size_lt
  probs := by
    by_cases he : prop = r.prop
    · rw [he, ← h.prop]
      exact h.probs
    · exact (numProbs_le (hl he)).trans h.room
  tempBuf_size := h.tempBuf_size
  holds := h.holds
  fits := h.fits.imp_left fun hle => hd.trans_le hle
  processed := h.processed
  check := by rw [checkOf_congr hd]; exact h.check
  prop := rfl
  room := h.room
  need := h.need

theorem checkOf_nil (prop : LzmaProps) : checkOf prop ([] : List UInt8).length = 0 :=
  (position_zero.mpr rfl).2

/-- The first call on a packed chunk finds the resets of its control byte done. -/
theorem Idle.initPacked (h : Idle p r) {control : ℕ} (hk : control < 0xA0 → Kept p r) :
    (p.initDicAndState (decide (0xE0 ≤ control)) (decide (0xA0 ≤ control))).Before
      (if 0xA0 ≤ control then freshState (if 0xE0 ≤ control then r.resetDic else r).s.hist
        else (if 0xE0 ≤ control then r.resetDic else r).s) [] := by
  have hspec : kMatchSpecLenStart + 2 ≠ kMatchSpecLenStart + 1 := by decide
  by_cases hd : 0xE0 ≤ control
  · have hs : 0xA0 ≤ control := by omega
    rw [decide_eq_true hd, decide_eq_true hs, if_pos hs, if_pos hd]
    exact ⟨⟨h.pos_le, h.size_le, h.size_lt, h.probs, h.tempBuf_size⟩,
      ⟨.nil h.pos_le h.size_le, .inr (Nat.zero_le _), rfl, (checkOf_nil _).symm⟩, .inr rfl,
      fun _ => rfl, fun he => absurd he hspec, freshState_base _, Nat.zero_le _, List.take_zero⟩
  · rw [decide_eq_false hd]
    by_cases hs : 0xA0 ≤ control
    · rw [decide_eq_true hs, if_pos hs, if_neg hd]
      exact ⟨⟨h.pos_le, h.size_le, h.size_lt, h.probs, h.tempBuf_size⟩,
        ⟨h.holds, h.fits, h.processed, h.check⟩, .inr rfl, fun _ => rfl,
        fun he => absurd he hspec, freshState_base _, Nat.zero_le _, List.take_zero⟩
    · have hkept := hk (by omega)
      rw [decide_eq_false hs, if_neg hs, if_neg hd]
      exact ⟨⟨h.pos_le, h.size_le, h.size_lt, h.probs, h.tempBuf_size⟩,
        ⟨h.holds, h.fits, h.processed, h.check⟩, .inl rfl, fun he => absurd he hspec.symm,
        fun _ => ⟨hkept.reps, hkept.state, hkept.table, hkept.hist⟩, hkept.base, Nat.zero_le _,
        List.take_zero⟩

/-- A stored chunk resets at most the dictionary. -/
theorem Idle.initStored (h : Idle p r) :
    Idle (p.initDicAndState true false) { r.resetDic with need := 0xC0 } where
  pos_le := h.pos_le
  size_le := h.size_le
  size_lt := h.size_lt
  probs := h.probs
  tempBuf_size := h.tempBuf_size
  holds := .nil h.pos_le h.size_le
  fits := .inr (Nat.zero_le _)
  processed := rfl
  check := (checkOf_nil _).symm
  prop := h.prop
  room := h.room
  need := .inr le_rfl

theorem Idle.initStored_keep (h : Idle p r) : Idle (p.initDicAndState false false) r where
  pos_le := h.pos_le
  size_le := h.size_le
  size_lt := h.size_lt
  probs := h.probs
  tempBuf_size := h.tempBuf_size
  holds := h.holds
  fits := h.fits
  processed := h.processed
  check := h.check
  prop := h.prop
  room := h.room
  need := h.need

theorem Kept.initStored (h : Kept p r) : Kept (p.initDicAndState false false) r :=
  ⟨h.reps, h.state, h.table, h.base, h.hist⟩

/-- The output of stored bytes. -/
def Ref2.pushAll (r : Ref2) (bs : List UInt8) : Ref2 :=
  { r with s := { r.s with hist := bs.reverse ++ r.s.hist } }

theorem Ref2.pushAll_cons (r : Ref2) (b : UInt8) (bs : List UInt8) :
    r.pushAll (b :: bs) = (r.push b).pushAll bs := by
  simp only [Ref2.pushAll, Ref2.push, List.reverse_cons, List.append_assoc, List.singleton_append]

/-- A stored chunk a piece at a time. -/
theorem stored_moves (r : Ref2) (bs ys : List UInt8) (k : ℕ) (hb : bs ≠ []) :
    Moves2 (.stored r (bs.length + k)) (bs ++ ys)
      (if k = 0 then .chunk (r.pushAll bs) else .stored (r.pushAll bs) k) ys := by
  induction bs generalizing r with
  | nil => exact absurd rfl hb
  | cons b bs ih =>
      rw [Ref2.pushAll_cons, List.cons_append, List.length_cons]
      by_cases hnil : bs = []
      · subst hnil
        by_cases hk : k = 0
        · have hstep : storedStep r (0 + 1 + 0) (b :: ([] ++ ys)) =
              .next (.chunk (r.push b)) ([] ++ ys) := rfl
          rw [if_pos hk, hk]
          exact .single trivial hstep
        · have hstep : storedStep r (0 + 1 + k) (b :: ([] ++ ys)) =
              .next (.stored (r.push b) (0 + 1 + k - 1)) ([] ++ ys) := if_neg (by omega)
          rw [show 0 + 1 + k - 1 = k by omega] at hstep
          rw [if_neg hk]
          exact .single trivial hstep
      · have hpos := List.length_pos_of_ne_nil hnil
        have hstep : storedStep r (bs.length + 1 + k) (b :: (bs ++ ys)) =
            .next (.stored (r.push b) (bs.length + 1 + k - 1)) (bs ++ ys) := if_neg (by omega)
        rw [show bs.length + 1 + k - 1 = bs.length + k by omega] at hstep
        exact .step trivial hstep (ih (r.push b) hnil)

theorem copyInto_holds {size : ℕ} (xs : List UInt8) {dic : Array UInt8} {pos : ℕ}
    {h : List UInt8} (hw : Holds dic size pos h) (hle : pos + xs.length ≤ size) :
    ∃ dic', copyInto xs pos dic = .ok dic' ∧
      Holds dic' size (pos + xs.length) (xs.reverse ++ h) := by
  induction xs generalizing dic pos h with
  | nil => exact ⟨dic, rfl, hw⟩
  | cons x xs ih =>
      rw [List.length_cons] at hle
      obtain ⟨dic', h1, h2⟩ := ih (hw.push (by omega) x) (by omega)
      have hsize := hw.size_le
      refine ⟨dic', by rw [copyInto, put_ok (by omega), ok_bind]; exact h1, ?_⟩
      rw [List.length_cons, List.reverse_cons, List.append_assoc,
        show pos + (xs.length + 1) = pos + 1 + xs.length by omega]
      exact h2

end

/-- A decoder at a position of the grammar, with `held` taken in and not yet used by
the grammar's step, and `out` written, newest byte first. -/
inductive Lzma2Decoder.At2 (d : Lzma2Decoder) : Pos → List UInt8 → List UInt8 → Prop
  | header {r : Ref2} {pre : List UInt8} : Idle d.decoder r → (r.need = 0 → Kept d.decoder r) →
      HeaderAt r d.frame pre → d.At2 (.chunk r) pre (r.s.hist ++ r.base)
  | startStored {r : Ref2} : Idle d.decoder r → (r.need = 0 → Kept d.decoder r) →
      Opened d.frame → (d.frame.control = 1 ∨ d.frame.control = 2) →
      d.frame.needInitLevel = (if d.frame.control = 1 then 0xC0 else r.need) →
      d.At2 (r.openStored d.frame.control d.frame.unpackSize) [] (r.s.hist ++ r.base)
  | stored {r : Ref2} : Idle d.decoder r → (r.need = 0 → Kept d.decoder r) →
      d.frame.state = .dataCont → (d.frame.control = 1 ∨ d.frame.control = 2) →
      d.frame.needInitLevel = r.need → 0 < d.frame.unpackSize → d.frame.unpackSize < 2 ^ 32 →
      d.At2 (.stored r d.frame.unpackSize) [] (r.s.hist ++ r.base)
  | startPacked {r : Ref2} : Idle d.decoder r → (d.frame.control < 0xA0 → Kept d.decoder r) →
      Opened d.frame → isUncompressedState d.frame.control = false → d.frame.needInitLevel = 0 →
      d.frame.packSize < 2 ^ 32 →
      d.At2 (r.openPacked d.frame.control d.frame.unpackSize d.frame.packSize) []
        (r.s.hist ++ r.base)
  | packed {c : Config} {temp w : List UInt8} (base : List UInt8) : d.decoder.At c temp w →
      lzmaPropsGetNumProbs lzma2LclpMax 0 ≤ d.decoder.probs.size → d.frame.state = .dataCont →
      isUncompressedState d.frame.control = false → d.frame.needInitLevel = 0 → d.frame.unpackSize < 2 ^ 32 →
      d.frame.packSize < 2 ^ 32 → (∀ s, c = .header s → 0 < d.frame.unpackSize) →
      0 < w.length + d.frame.unpackSize →
      d.At2 (.packed d.decoder.prop base c (w.length + d.frame.unpackSize)
        (temp.length + d.frame.packSize)) temp (w ++ base)
  | lost {pos : Pos} {held out : List UInt8} : d.decoder.Dead → d.frame.state = .dataCont →
      isUncompressedState d.frame.control = false → d.frame.unpackSize < 2 ^ 32 → d.frame.packSize < 2 ^ 32 →
      Doomed pos held → out <:+ pos.out → d.At2 pos held out
  | failed {pos : Pos} {held out : List UInt8} : d.decoder.Shape → d.frame.state = .error →
      Doomed pos held → out <:+ pos.out → d.At2 pos held out
  | finished {r : Ref2} : Idle d.decoder r → d.frame.state = .finished →
      d.At2 (.chunk r) [0] (r.s.hist ++ r.base)

/-- Every state a decoder can be in. -/
def Lzma2Decoder.Sound (d : Lzma2Decoder) : Prop := ∃ pos held out, d.At2 pos held out

/-- When a packed chunk has all its output, what is held back must be an end mark. -/
def Exact (pos : Pos) (held out : List UInt8) : Prop :=
  ∀ prop base c target pack, pos = .packed prop base c target pack →
    out.length = target + base.length → ∃ s, c = .body s ∧ (held = [] ∨ s.coder.code ≠ 0)

section
variable {d : Lzma2Decoder} {pos : Pos} {held out : List UInt8}

theorem Lzma2Decoder.At2.shape (h : d.At2 pos held out) : d.decoder.Shape := by
  cases h with
  | header h => exact h.toShape
  | startStored h => exact h.toShape
  | stored h => exact h.toShape
  | startPacked h => exact h.toShape
  | packed _ h => exact h.shape
  | lost h => exact h.shape
  | failed h => exact h
  | finished h => exact h.toShape

theorem packed_out {prop : LzmaProps} {base : List UInt8} {c : Config} {target pack : ℕ}
    (h : c.hist.length ≤ target) : (Pos.packed prop base c target pack).out = c.hist ++ base := by
  rw [Pos.out, Nat.sub_eq_zero_of_le h, List.drop_zero]

/-- What is written is a prefix of what the grammar writes. -/
theorem Lzma2Decoder.At2.written (h : d.At2 pos held out) : out <:+ pos.out := by
  cases h with
  | header => exact List.suffix_rfl
  | startStored => rw [(Ref2.openStored_out _ _ _).1]; exact List.suffix_rfl
  | stored => exact List.suffix_rfl
  | @startPacked r _ _ ho =>
      rw [(r.openPacked_out r.prop _ _ _ ho.unpack_pos).1]
      exact List.suffix_rfl
  | @packed c temp w base h =>
      simp only [Pos.out]
      obtain ⟨t, ht⟩ : w <:+ c.hist.drop (c.hist.length - (w.length + d.frame.unpackSize)) := by
        apply List.suffix_of_suffix_length_le h.written (List.drop_suffix _ _)
        rw [List.length_drop]
        have := h.written.length_le
        omega
      exact ⟨t, by rw [← List.append_assoc, ht]⟩
  | lost _ _ _ _ _ _ h => exact h
  | failed _ _ _ h => exact h
  | finished => exact List.suffix_rfl

/-- Some position that nothing can finish. -/
theorem exists_doomed (prop : LzmaProps) (held : List UInt8) : ∃ pos, Doomed pos held :=
  ⟨.packed prop [] (.header (freshState [])) 0 1, .of_left rfl Nat.one_pos⟩

end
end LzmaTurbo.Lzma2
