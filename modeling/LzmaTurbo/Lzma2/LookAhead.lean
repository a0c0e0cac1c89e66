import LzmaTurbo.Lzma.Branches
import LzmaTurbo.Lzma2.Safety

/-!
# The dry run against the loop, in every state a decoder passes through

The states are those between calls and those inside them, for a decoder that is
used alone and for one that decodes the chunks of an LZMA2 stream. Whatever the
slice, the dry run names the branch and the length of what the loop decodes, and
it asks for more input exactly when the loop would.
-/
namespace LzmaTurbo.Lzma2
open Machine BitProgram Lzma StreamMachine Window
open RangeDecoder (Outcome run)

/-- The states of an LZMA2 decoder, between calls and between the turns of one. -/
inductive Passes : Lzma2Decoder → Prop
  | new {d : Lzma2Decoder} : d.Owns → Passes d
  | probsOnly {dictProp : ℕ} {d : Lzma2Decoder} : Lzma2Decoder.newProbsOnly dictProp = .ok d →
      Passes d
  | reset {d : Lzma2Decoder} : Passes d → Passes d.reset
  | nextBlock {d : Lzma2Decoder} (buf : Array UInt8) (size : ℕ) : Passes d → size ≤ buf.size →
      size < 2 ^ 63 → Passes (d.takeBlockDic.setBlockDic buf size)
  | wrapped {d : Lzma2Decoder} : Passes d → d.decoder.prop.dictSize ≤ d.decoder.dicBufSize →
      Passes d.wrapped
  | call {d : Lzma2Decoder} {dicLimit : ℕ} {src : List UInt8} {mode : FinishMode}
      {r : Dic2Result} : Passes d → d.decoder.dicPos ≤ dicLimit →
      dicLimit ≤ d.decoder.dicBufSize → d.decodeToDic dicLimit src mode = .ok r → Passes r.d
  | turn {d d' : Lzma2Decoder} {dicLimit n m : ℕ} {src : List UInt8} {mode : FinishMode} :
      Passes d → d.decoder.dicPos ≤ dicLimit → dicLimit ≤ d.decoder.dicBufSize →
      n ≤ src.length → dicTurn d dicLimit src mode n = .ok (.again d' m) → Passes d'

/-- The decoder a packed chunk is given to: the resets of a chunk just open are done. -/
def Lzma2Decoder.packed (d : Lzma2Decoder) : LzmaDec :=
  if d.frame.state = .data then
    d.decoder.initDicAndState (decide (0xE0 ≤ d.frame.control)) (decide (0xA0 ≤ d.frame.control))
  else d.decoder

/-- The states of an LZMA decoder: between calls, at the start of the main loop, past the
owed tail of a match, and after each turn. -/
inductive Reached : LzmaDec → Prop
  | new (prop : LzmaProps) : Reached (.new prop)
  | init {p : LzmaDec} : Reached p → Reached p.init
  | wrapped {p : LzmaDec} : Reached p → p.prop.dictSize ≤ p.dicBufSize → Reached p.wrapped
  | call {p : LzmaDec} {dicLimit : ℕ} {src : List UInt8} {mode : FinishMode} {r : DicResult} :
      Reached p → p.dicPos ≤ dicLimit → dicLimit ≤ p.dicBufSize →
      lzmaDecDecodeToDic p dicLimit src mode = .ok r → Reached r.p
  | started {p : LzmaDec} {src : List UInt8} {tempBuf : Array UInt8} {ahead code : ℕ} :
      Reached p → kMatchSpecLenStart < p.remainLen → p.remainLen ≤ kMatchSpecLenStart + 2 →
      fillTemp rcInitSize src p.tempBuf p.tempBufSize 0 = .ok (tempBuf, rcInitSize, ahead) →
      headerCode tempBuf = .ok code →
      ¬ (p.checkDicSize = 0 ∧ p.processedPos = 0 ∧ kBadRepCode ≤ code) →
      Reached (({ p with tempBuf, tempBufSize := rcInitSize } : LzmaDec).started code)
  | wroteRem {p q : LzmaDec} {dicLimit : ℕ} : Reached p → p.remainLen < kMatchSpecLenStart →
      p.dicPos ≤ dicLimit → dicLimit ≤ p.dicBufSize → lzmaDecWriteRem p dicLimit = .ok q →
      Reached q
  | turn {p q : LzmaDec} {dicLimit n m inSize srcLen : ℕ} {src : List UInt8} {mode : FinishMode} :
      Reached p → p.remainLen ≤ kMatchSpecLenStart → p.dicPos ≤ dicLimit →
      dicLimit ≤ p.dicBufSize → n ≤ src.length →
      decodeTurn p dicLimit src mode n (src.length - n) n = .ok (.again q m inSize srcLen) →
      Reached q
  | chunk {d : Lzma2Decoder} : Passes d → d.frame.state = .data ∨ d.frame.state = .dataCont →
      isUncompressedState d.frame.control = false → Reached d.packed

section
variable {d d' : Lzma2Decoder} {p q : LzmaDec}

theorem Passes.ready (h : Passes d) : Ready2 d := by
  induction h with
  | new h => exact h.ready.1
  | probsOnly h => exact ready2_newProbsOnly h
  | reset _ ih => exact ready2_reset ih.shape ih.room
  | nextBlock buf size _ hsize hlt ih =>
      have hs := ih.shape
      exact ready2_reset ⟨Nat.zero_le _, hsize, hlt, hs.probs, hs.tempBuf_size⟩ ih.room
  | @wrapped d _ hsize ih =>
      obtain ⟨pos, held, out, hat⟩ := ih.sound
      exact ⟨⟨pos, held, out, hat.wrapped hsize⟩, (wrapped_probs d.decoder).symm ▸ ih.room⟩
  | call _ hl hls hr ih =>
      obtain ⟨r, hr', hready, -⟩ := ih.decodeToDic _ _ hl hls
      rw [hr, Except.ok.injEq] at hr'
      exact hr' ▸ hready
  | @turn d d' _ _ _ _ mode _ hl hls hn ht ih =>
      obtain ⟨pos, held, out, hat⟩ := ih.sound
      obtain ⟨turn, ht', hend⟩ := dicTurn_end mode hat hn hl hls
      rw [ht, Except.ok.injEq] at ht'
      subst ht'
      cases hend with
      | again _ _ new pos' held' _ hframe hat' => exact ⟨⟨_, _, _, hat'⟩, hframe.probs ▸ ih.room⟩

/-- A packed chunk is decoded from a state the LZMA decoder can be in. -/
theorem Lzma2Decoder.At2.packed_sound {pos : Pos} {held out : List UInt8} (h : d.At2 pos held out)
    (hs : d.frame.state = .data ∨ d.frame.state = .dataCont)
    (hc : isUncompressedState d.frame.control = false) : d.packed.Sound := by
  unfold Lzma2Decoder.packed
  cases h with
  | header _ _ hH => exact absurd hs (not_or.mpr hH.state_header)
  | startStored _ _ ho hc' => rw [stored_control hc'] at hc; cases hc
  | stored _ _ _ hc' => rw [stored_control hc'] at hc; cases hc
  | startPacked hI hK ho =>
      rw [if_pos ho.state]
      exact .live (.header (hI.initPacked hK))
  | packed base hw hp hs' =>
      rw [if_neg (by rw [hs']; decide)]
      exact .live hw
  | lost hd hs' =>
      rw [if_neg (by rw [hs']; decide)]
      exact .dead hd
  | failed _ hs' => rcases hs with hs | hs <;> (rw [hs'] at hs; cases hs)
  | finished _ hs' => rcases hs with hs | hs <;> (rw [hs'] at hs; cases hs)

/-- The range coder starts from the five bytes read. -/
theorem started_sound {src : List UInt8} {tempBuf : Array UInt8} {ahead code : ℕ} (h : p.Sound)
    (hlo : kMatchSpecLenStart < p.remainLen) (hhi : p.remainLen ≤ kMatchSpecLenStart + 2)
    (hfill : fillTemp rcInitSize src p.tempBuf p.tempBufSize 0 = .ok (tempBuf, rcInitSize, ahead))
    (hcode : headerCode tempBuf = .ok code)
    (hrep : ¬ (p.checkDicSize = 0 ∧ p.processedPos = 0 ∧ kBadRepCode ≤ code)) :
    (({ p with tempBuf, tempBufSize := rcInitSize } : LzmaDec).started code).Sound := by
  have hspec := specLen
  cases h with
  | dead hd =>
      cases hd with
      | marked hm => have := hm.remain; omega
      | failed _ _ hr => omega
  | @live _ temp _ hat =>
      cases hat with
      | body hcore => have := hcore.remain_le; omega
      | @header s _ hb =>
          have hsize := hb.tempBuf_size
          obtain ⟨temp', a, hf1, hf2, hf3, hf4, hf5, hf6⟩ := fillTemp_spec rcInitSize
            src p.tempBuf p.tempBufSize 0 (by omega) hb.temp_le
          rw [hfill, Except.ok.injEq, Prod.mk.injEq, Prod.mk.injEq] at hf1
          obtain ⟨rfl, hfive, -⟩ := hf1
          rw [hb.bytes, ← hfive] at hf6
          obtain ⟨T, hT⟩ : ∃ T, T = temp ++ src.take a := ⟨_, rfl⟩
          rw [← hT] at hf6
          have hlen : T.length = 5 := by
            rw [← hf6, List.length_take, Array.length_toList]
            omega
          obtain ⟨b0, T', rfl⟩ := List.exists_cons_of_length_pos (show 0 < T.length by omega)
          obtain ⟨b1, b2, b3, b4, rfl⟩ := eq_four (show T'.length = 4 by
            rw [List.length_cons] at hlen
            omega)
          rw [headerCode_spec (s := s) hf6, Except.ok.injEq] at hcode
          subst hcode
          have hq := (hb.withTemp hf5 (le_of_eq rfl) hf6 p.code).started b1 b2 b3 b4 (fun hn => by
            by_contra hc
            refine hrep ⟨?_, ?_, by omega⟩
            · rw [hb.check, hn]
              exact (position_zero.mpr rfl).2
            · rw [hb.processed, hn]
              rfl)
          exact .live (.body hq (LzmaDec.held_nil (started_frame
            (p := { p with tempBuf, tempBufSize := rcInitSize })
            (s.start b1 b2 b3 b4).coder.code (le_refl p.dicPos)).2.1))

theorem turn_sound {dicLimit n m inSize srcLen : ℕ} {src : List UInt8} {mode : FinishMode}
    (h : p.Sound) (hr : p.remainLen ≤ kMatchSpecLenStart) (hl : p.dicPos ≤ dicLimit)
    (hls : dicLimit ≤ p.dicBufSize) (hn : n ≤ src.length)
    (ht : decodeTurn p dicLimit src mode n (src.length - n) n = .ok (.again q m inSize srcLen)) :
    q.Sound := by
  have hspec := specLen
  cases h with
  | dead hd =>
      cases hd with
      | marked hm =>
          unfold decodeTurn at ht
          rw [if_pos hm.remain] at ht
          split at ht <;> cases ht
      | failed _ _ hfail => omega
  | @live _ temp w hat =>
      cases hat with
      | header hb => have := hb.remain; omega
      | @body s _ _ hcore hheld =>
          have htop : w.length + dicLimit - p.dicPos + p.dicPos = w.length + dicLimit := by omega
          obtain ⟨turn, ht', hend, -⟩ := decodeTurn_end mode hcore hheld hn hl hls htop
          rw [ht, Except.ok.injEq] at ht'
          subst ht'
          cases hend with
          | again _ _ s' w' _ _ hq hz => exact .live (.body hq (LzmaDec.held_nil hz))
          | marked _ _ s' ys d len _ _ _ hmk => exact .dead (.marked hmk)

theorem wroteRem_sound {dicLimit : ℕ} (h : p.Sound) (hr : p.remainLen < kMatchSpecLenStart)
    (hl : p.dicPos ≤ dicLimit) (hls : dicLimit ≤ p.dicBufSize)
    (hw : lzmaDecWriteRem p dicLimit = .ok q) : q.Sound := by
  have hspec := specLen
  cases h with
  | dead hd =>
      cases hd with
      | marked hm => have := hm.remain; omega
      | failed _ _ hfail => omega
  | live hat =>
      cases hat with
      | header hb => have := hb.remain; omega
      | body hcore hheld =>
          by_cases h0 : p.remainLen = 0
          · rw [lzmaDecWriteRem_idle h0, Except.ok.injEq] at hw
            exact hw ▸ .live (.body hcore hheld)
          · obtain ⟨q', k, hq, hcore', -, -, -, hprop, -, -, hz, -⟩ :=
              lzmaDecWriteRem_core hcore hl hls
            rw [hw, Except.ok.injEq] at hq
            subst hq
            have hz' : p.tempBufSize = 0 := by
              by_contra hne
              exact h0 (hheld.idle hne)
            exact .live (.body hcore' (LzmaDec.held_nil (hz.trans hz')))

theorem Reached.sound (h : Reached p) : p.Sound := by
  induction h with
  | new prop => exact .live (.header (LzmaDec.new_before prop))
  | init _ ih => exact .live (.header (LzmaDec.init_before (sound_shape ih)))
  | wrapped _ hsize ih =>
      cases ih with
      | live hat => exact .live (hat.wrapped hsize)
      | dead hd => exact .dead (dead_wrapped hd hsize)
  | call _ hl hls hr ih =>
      obtain ⟨r, hr', hs, -⟩ := lzmaDecDecodeToDic_sound _ _ ih hl hls
      rw [hr, Except.ok.injEq] at hr'
      exact hr' ▸ hs
  | started _ hlo hhi hfill hcode hrep ih => exact started_sound ih hlo hhi hfill hcode hrep
  | wroteRem _ hr hl hls hw ih => exact wroteRem_sound ih hr hl hls hw
  | turn _ hr hl hls hn ht ih => exact turn_sound ih hr hl hls hn ht
  | chunk hd hs hc =>
      obtain ⟨pos, held, out, hat⟩ := hd.ready.sound
      exact hat.packed_sound hs hc

/-- Between two symbols the decoder stands for a state of the reference. -/
theorem Reached.core (h : Reached p) (hr : p.remainLen = 0) : ∃ s w, p.Core s w := by
  have hspec := specLen
  cases h.sound with
  | dead hd =>
      cases hd with
      | marked hm => have := hm.remain; omega
      | failed _ _ hfail => omega
  | live hat =>
      cases hat with
      | header hb => have := hb.remain; omega
      | body hcore => exact ⟨_, _, hcore⟩

/-- One iteration of the loop on the slice decodes a symbol of kind `kind`, and with the
last normalisation reads `n` bytes. -/
def RealTakes (p : LzmaDec) (limit : ℕ) (buf : List UInt8) (kind : Dummy) (n : ℕ) : Prop :=
  (∃ rc, symbolBranch (envOf p limit buf 0) (regsOf p) = .ok (kind, rc)) ∧
    ∃ res, lzmaDecDecodeReal p limit buf 0 = .ok res ∧ res.buf = n

/-- What the loop is called for: room for a byte, or a symbol that may be the end marker. -/
def MayDecode (p : LzmaDec) (limit : ℕ) (kind : Dummy) : Prop :=
  limit ≤ p.dicBufSize ∧ (p.dicPos < limit ∨ p.dicPos = limit ∧ kind = .matched)

section
variable {s : RefState} {w buf : List UInt8}

theorem real_takes (h : p.Core s w) (hr : p.remainLen = 0) {sym : Symbol}
    {d : RangeDecoder.Coder ℕ} {rest : List UInt8} {n limit : ℕ}
    (hrun : (run (symbolProg (s.ctx p.prop)) s.coder buf).flush = .done sym d rest)
    (hn : n ≤ buf.length) (hrest : buf.drop n = rest) (hm : MayDecode p limit (kindOf sym)) :
    RealTakes p limit buf (kindOf sym) n := by
  obtain ⟨hls, hroom⟩ := hm
  obtain ⟨hbranch, res, hres, hle, hdrop⟩ := lzmaDecDecodeReal_one h hr hrun
    (by omega) hls (hroom.imp_right And.right)
  refine ⟨hbranch, res, hres, ?_⟩
  have h1 := congrArg List.length (hdrop.trans hrest.symm)
  simp only [List.length_drop] at h1
  omega

/-- A slice is too short exactly when what follows it has to be read. -/
theorem eof_iff_short (h : p.Core s w) (hr : p.remainLen = 0) (more : List UInt8) {sym : Symbol}
    {d : RangeDecoder.Coder ℕ} {rest : List UInt8} {n : ℕ}
    (hrun : (run (symbolProg (s.ctx p.prop)) s.coder (buf ++ more)).flush = .done sym d rest)
    (hn : n ≤ (buf ++ more).length) (hrest : (buf ++ more).drop n = rest) :
    (∃ k, lzmaDecTryDummy p buf = .ok (.inputEof, k)) ↔ buf.length < n := by
  obtain ⟨hm, k, hk⟩ | ⟨sym', d', rest', k, hdone, hk, hle, hdrop⟩ := lzmaDecTryDummy_spec h hr buf
  · refine ⟨fun _ => ?_, fun _ => ⟨k, hk⟩⟩
    by_contra hlt
    obtain ⟨us, hus, hdone⟩ := RangeDecoder.flush_run_split hrun
    have hlen := congrArg List.length hus
    have hrl := congrArg List.length hrest
    simp only [List.length_append, List.length_drop] at hlen hrl hn
    have hpre : us <+: buf :=
      List.prefix_of_prefix_length_le ⟨rest, hus.symm⟩ (List.prefix_append buf more) (by omega)
    obtain ⟨vs, rfl⟩ := hpre
    rw [RangeDecoder.flush_run_append vs hdone] at hm
    cases hm
  · rw [RangeDecoder.flush_run_append more hdone, Outcome.done.injEq] at hrun
    obtain ⟨-, -, rfl⟩ := hrun
    have hlen := congrArg List.length hrest
    simp only [← hdrop, List.length_drop, List.length_append] at hlen hn
    refine ⟨fun ⟨k', hk'⟩ => ?_, fun hlt => by omega⟩
    rw [hk, Except.ok.injEq, Prod.mk.injEq] at hk'
    exact absurd hk'.1 (kindOf_ne_eof sym')

end

/-- The dry run and the loop agree on the kind and the length of the next symbol, and the
dry run asks for input exactly when the symbol does not end within the slice. -/
theorem tryDummy_agrees (h : Reached p) (hr : p.remainLen = 0) (buf : List UInt8) :
    (∀ kind n, lzmaDecTryDummy p buf = .ok (kind, n) → kind ≠ .inputEof →
      ∀ limit, MayDecode p limit kind → RealTakes p limit buf kind n) ∧
    ∀ more, lzmaRequiredInputMax ≤ (buf ++ more).length → ∃ kind n, kind ≠ .inputEof ∧
      lzmaDecTryDummy p (buf ++ more) = .ok (kind, n) ∧
      (∀ limit, MayDecode p limit kind → RealTakes p limit (buf ++ more) kind n) ∧
      ((∃ k, lzmaDecTryDummy p buf = .ok (.inputEof, k)) ↔ buf.length < n) := by
  obtain ⟨s, w, hcore⟩ := h.core hr
  refine ⟨fun kind n hdummy hkind limit hm => ?_, fun more hlong => ?_⟩
  · obtain ⟨-, k, hk⟩ | ⟨sym, d, rest, k, hrun, hk, hn, hrest⟩ := lzmaDecTryDummy_spec hcore hr buf
    · rw [hk, Except.ok.injEq, Prod.mk.injEq] at hdummy
      exact absurd hdummy.1.symm hkind
    · rw [hk, Except.ok.injEq, Prod.mk.injEq] at hdummy
      obtain ⟨rfl, rfl⟩ := hdummy
      exact real_takes hcore hr hrun hn hrest hm
  · obtain ⟨hmore, -⟩ | ⟨sym, d, rest, n, hrun, hk, hn, hrest⟩ :=
      lzmaDecTryDummy_spec hcore hr (buf ++ more)
    · exact absurd hmore (hcore.begun.not_more _ hlong)
    · exact ⟨_, n, kindOf_ne_eof sym, hk, fun limit hm => real_takes hcore hr hrun hn hrest hm,
        eof_iff_short hcore hr more hrun hn hrest⟩

end

/-- A decoder past the five bytes of an all-zero stream, with nothing to read. -/
theorem tryDummy_agrees_tiny : ∃ p, Reached p ∧ p.remainLen = 0 ∧
    ∀ more : List UInt8, lzmaRequiredInputMax ≤ ([] ++ more).length → ∃ kind n,
      kind ≠ .inputEof ∧ lzmaDecTryDummy p ([] ++ more) = .ok (kind, n) ∧
      (∀ limit, MayDecode p limit kind → RealTakes p limit ([] ++ more) kind n) ∧
      ((∃ k, lzmaDecTryDummy p [] = .ok (.inputEof, k)) ↔ ([] : List UInt8).length < n) := by
  have hfill : fillTemp rcInitSize [0, 0, 0, 0, 0] (LzmaDec.new tinyProps).tempBuf
      (LzmaDec.new tinyProps).tempBufSize 0 = .ok (Array.replicate 20 0, rcInitSize, 5) := rfl
  have hstart := Reached.started (.new tinyProps) (by decide) (by decide) hfill
    (show headerCode _ = .ok 0 from rfl) (by decide)
  exact ⟨_, hstart, rfl, (tryDummy_agrees hstart rfl []).2⟩

end LzmaTurbo.Lzma2
