import LzmaTurbo.Lzma.TwinCalls
import LzmaTurbo.Lzma2.Session

/-!
# Two LZMA2 decoders that answer alike

A header rewrites what it needs before a chunk reads it: two decoders whose frames agree take
every turn alike, whatever else the one has seen before.
-/
namespace LzmaTurbo.Lzma2
open Machine Lzma StreamMachine Window

/-- Between two chunks, the properties apart: they are read anew unless the last chunk's still
hold. -/
structure Between (p q : LzmaDec) (r : Ref2) : Prop where
  idle : Idle p r
  idle' : Idle q { r with prop := q.prop }
  kept : r.need = 0 → Kept p r ∧ Kept q { r with prop := q.prop }
  props : r.need = 0 → q.prop = p.prop

/-- What two frames that agree ask of their decoders. -/
inductive Phase (d d' : Lzma2Decoder) : Prop
  | header {r : Ref2} {pre : List UInt8} : Between d.decoder d'.decoder r →
      HeaderAt r d.frame pre → Phase d d'
  | stored {r : Ref2} : Between d.storedReady.decoder d'.storedReady.decoder r →
      d.frame.state = .data ∨ d.frame.state = .dataCont →
      (d.frame.control = 1 ∨ d.frame.control = 2) → d.frame.needInitLevel = r.need →
      0 < d.frame.unpackSize → d.frame.unpackSize < 2 ^ 32 → Phase d d'
  | opened {r : Ref2} : Idle d.decoder r → Idle d'.decoder r →
      (d.frame.control < 0xA0 → Kept d.decoder r ∧ Kept d'.decoder r) → Opened d.frame →
      isUncompressedState d.frame.control = false → d.frame.needInitLevel = 0 →
      d.frame.packSize < 2 ^ 32 → Phase d d'
  | packed {len org : ℕ} : LzmaDec.Alike len org d.decoder d'.decoder →
      lzmaPropsGetNumProbs lzma2LclpMax 0 ≤ d.decoder.probs.size →
      lzmaPropsGetNumProbs lzma2LclpMax 0 ≤ d'.decoder.probs.size →
      d.frame.state = .dataCont → isUncompressedState d.frame.control = false →
      d.frame.needInitLevel = 0 → d.frame.unpackSize < 2 ^ 32 → d.frame.packSize < 2 ^ 32 →
      org < len + d.decoder.dicPos + d.frame.unpackSize → Phase d d'
  | ended : d.frame.state = .error ∨ d.frame.state = .finished → Phase d d'

/-- Alike in everything a later call looks at. Before a control byte is read the last one is
not looked at. -/
structure Lzma2Decoder.Alike (d d' : Lzma2Decoder) : Prop where
  frame : d'.frame = { d.frame with control := d'.frame.control }
  control : d.frame.state ≠ .control → d'.frame.control = d.frame.control
  size : d'.decoder.dicBufSize = d.decoder.dicBufSize
  pos : d'.decoder.dicPos = d.decoder.dicPos
  dict : d'.decoder.prop.dictSize = d.decoder.prop.dictSize
  phase : Phase d d'

/-- Two decoders write the same. -/
structure Wrote (d d' : Lzma2Decoder) (dicLimit : ℕ) (e e' : Lzma2Decoder) : Prop where
  alike : e.Alike e'
  new : ∃ new, Frame2 d dicLimit new e ∧ Frame2 d' dicLimit new e'

structure Dic2Result.Alike (d d' : Lzma2Decoder) (dicLimit : ℕ) (r r' : Dic2Result) : Prop where
  wrote : Wrote d d' dicLimit r.d r'.d
  status : r'.status = r.status
  res : r'.res = r.res

def Turn2.Alike (d d' : Lzma2Decoder) (dicLimit size : ℕ) : Turn2 → Turn2 → Prop
  | .stop r, .stop r' => r.Alike d d' dicLimit r'
  | .again e m, .again e' m' => m' = m ∧ m ≤ size ∧ Wrote d d' dicLimit e e'
  | _, _ => False

section
variable {d d' e e' : Lzma2Decoder} {src pre : List UInt8} {r : Ref2} {f : Lzma2Frame}
  {dicLimit n : ℕ} {mode : FinishMode} {P Q : LzmaProps}

/-- A property byte sets the same bits whatever the properties were. -/
theorem propByte_twin (b : ℕ) (hd : Q.dictSize = P.dictSize) : propByte b Q = propByte b P := by
  unfold propByte LzmaProps.setLclppb
  simp only [hd]

theorem propByte_small {b : ℕ} {P₁ : LzmaProps} (h : propByte b P = some P₁) :
    P₁.dictSize = P.dictSize ∧ P₁.lc + P₁.lp ≤ lzma2LclpMax := by
  unfold propByte at h
  split at h
  · cases h
  · split at h
    · cases h
    · rename_i hle
      cases h
      exact ⟨rfl, not_lt.mp hle⟩

/-- The frame goes its way whatever the properties are, which only a property byte sets. -/
theorem updateState_twin (f : Lzma2Frame) (b : ℕ) (hd : Q.dictSize = P.dictSize) :
    (f.updateState b Q).1 = (f.updateState b P).1 ∧
    ((f.updateState b P).2 = P ∧ (f.updateState b Q).2 = Q ∧
        (f.state = .prop → (f.updateState b P).1.state = .error) ∨
      f.state = .prop ∧ (f.updateState b P).1.state = .data ∧
      (f.updateState b P).1.control = f.control ∧
      (f.updateState b Q).2 = (f.updateState b P).2 ∧ (f.updateState b P).2.dictSize = P.dictSize ∧
      (f.updateState b P).2.lc + (f.updateState b P).2.lp ≤ lzma2LclpMax) := by
  unfold Lzma2Frame.updateState
  cases hs : f.state with
  | prop =>
      simp only [propByte_twin b hd]
      cases hp : propByte b P with
      | none => exact ⟨rfl, .inl ⟨rfl, rfl, fun _ => rfl⟩⟩
      | some P₁ =>
          obtain ⟨h1, h2⟩ := propByte_small hp
          exact ⟨rfl, .inr ⟨trivial, rfl, rfl, rfl, h1, h2⟩⟩
  | control =>
      dsimp only
      split_ifs <;> exact ⟨rfl, .inl ⟨rfl, rfl, fun h => by cases h⟩⟩
  | unpack0 | unpack1 | pack0 | pack1 | data | dataCont | finished | error =>
      exact ⟨rfl, .inl ⟨rfl, rfl, fun h => by cases h⟩⟩

/-- The control byte before is not looked at. -/
theorem updateState_control (hs : f.state = .control) (c b : ℕ) (P : LzmaProps) :
    ({ f with control := c } : Lzma2Frame).updateState b P = f.updateState b P := by
  unfold Lzma2Frame.updateState
  simp only [hs]

theorem HeaderAt.control_ge (h : HeaderAt r f pre) (hs : f.state = .prop) : 0xC0 ≤ f.control := by
  cases h with
  | packed4 hb _ _ _ hc =>
      rw [hb.control]
      exact not_lt.mp hc
  | control hs' | stored0 _ hs' | stored1 _ hs' | packed0 _ hs' | packed1 _ hs' | packed2 _ hs'
  | packed3 _ hs' =>
      rw [hs'] at hs
      cases hs

/-- A packed chunk that brings properties opens only on its property byte. -/
theorem HeaderAt.props_read (h : HeaderAt r f pre) (b : UInt8)
    (hs : (f.updateState b.toNat P).1.state = .data)
    (hc : 0xC0 ≤ (f.updateState b.toNat P).1.control) : f.state = .prop := by
  cases h with
  | packed4 _ hs' => exact hs'
  | control hs' =>
      unfold Lzma2Frame.updateState at hs
      simp only [hs'] at hs
      split_ifs at hs
  | stored0 _ hs' | packed0 _ hs' | packed2 _ hs' =>
      unfold Lzma2Frame.updateState at hs
      simp only [hs'] at hs
      cases hs
  | stored1 hb hs' =>
      unfold Lzma2Frame.updateState at hc
      simp only [hs', hb.control] at hc
      have := hb.lt
      rw [UInt8.lt_iff_toNat_lt] at this
      have h80 : (0x80 : UInt8).toNat = 0x80 := rfl
      omega
  | packed1 hb hs' =>
      unfold Lzma2Frame.updateState at hs
      simp only [hs', hb.control, isUncompressedState_eq, decide_eq_false hb.kind,
        Bool.false_eq_true, if_false] at hs
      cases hs
  | @packed3 c _ _ _ hb hs' =>
      unfold Lzma2Frame.updateState at hs hc
      simp only [hs', hb.control, hasProps_iff hb.kind] at hs hc
      have hge : ¬ c < 0xC0 := fun hlt =>
        absurd (UInt8.lt_iff_toNat_lt.mp hlt) (not_lt.mpr hc)
      rw [if_pos hge] at hs
      cases hs

/-- A stored chunk opens. -/
theorem Between.openedStored {p q : LzmaDec} (h : Between p q r) (ho : Opened f)
    (hc : f.control = 1 ∨ f.control = 2)
    (hneed : f.needInitLevel = if f.control = 1 then 0xC0 else r.need) :
    Phase ⟨f, p⟩ ⟨f, q⟩ := by
  have hready : ∀ p : LzmaDec, (Lzma2Decoder.mk f p).storedReady =
      ⟨f, p.initDicAndState (f.control == lzma2ControlCopyResetDic) false⟩ := fun _ =>
    if_pos ho.state
  rcases hc with hc | hc
  · refine .stored (r := { r.resetDic with need := 0xC0 }) ?_ (.inl ho.state) (.inl hc)
      (hneed.trans (if_pos hc)) ho.unpack_pos ho.unpack_lt
    rw [hready, hready, hc]
    have hne : (0xC0 : ℕ) ≠ 0 := by decide
    exact ⟨h.idle.initStored, h.idle'.initStored, fun h0 => absurd h0 hne,
      fun h0 => absurd h0 hne⟩
  · refine .stored (r := r) ?_ (.inl ho.state) (.inr hc)
      (hneed.trans (if_neg (by omega))) ho.unpack_pos ho.unpack_lt
    rw [hready, hready, hc]
    exact ⟨h.idle.initStored_keep, h.idle'.initStored_keep, fun h0 =>
      ⟨(h.kept h0).1.initStored, (h.kept h0).2.initStored⟩, h.props⟩

/-- A header byte to both. -/
theorem Between.update {p q : LzmaDec} (h : Between p q r) (hH : HeaderAt r f pre)
    (hdict : q.prop.dictSize = p.prop.dictSize) (b : UInt8) :
    Phase ⟨(f.updateState b.toNat p.prop).1, { p with prop := (f.updateState b.toNat p.prop).2 }⟩
      ⟨(f.updateState b.toNat p.prop).1, { q with prop := (f.updateState b.toNat q.prop).2 }⟩ ∧
    (f.updateState b.toNat q.prop).2.dictSize = (f.updateState b.toNat p.prop).2.dictSize := by
  have hread := hH.props_read (P := p.prop) b
  have hge := hH.control_ge
  have hstep := hH.update h.idle.prop b
  obtain ⟨-, hcase⟩ := updateState_twin f b.toNat hdict
  generalize (f.updateState b.toNat p.prop).1 = g at hread hstep hcase
  generalize (f.updateState b.toNat p.prop).2 = P at hstep hcase
  generalize (f.updateState b.toNat q.prop).2 = Q at hcase
  have hprop := h.idle.prop
  have hdata : (Q.dictSize = P.dictSize) := by
    obtain ⟨rfl, rfl, -⟩ | ⟨-, -, -, rfl, -⟩ := hcase
    · exact hdict
    · rfl
  refine ⟨?_, hdata⟩
  cases hstep with
  | finished hs => exact .ended (.inr hs)
  | broken hs => exact .ended (.inl hs)
  | header hH' hp =>
      obtain ⟨rfl, rfl, -⟩ | ⟨-, hs, -⟩ := hcase
      · exact .header h hH'
      · exact absurd hs hH'.state_header.1
  | stored ho hc hneed hp =>
      obtain ⟨rfl, rfl, -⟩ | ⟨hs, -, hcontrol, -⟩ := hcase
      · exact h.openedStored ho hc hneed
      · have := hge hs
        omega
  | packed ho hc hlev hneed hpk hp hd hl4 =>
      have hI := h.idle.withProp (hd.trans (congrArg LzmaProps.dictSize hprop.symm)) hl4
      obtain ⟨rfl, rfl, herr⟩ | ⟨hs, -, hcontrol, rfl, hd', hl⟩ := hcase
      · -- no property byte was read: those of the chunk before still hold
        have hlow : g.control < 0xC0 := by
          by_contra hhigh
          have hdata := ho.state
          rw [herr (hread hdata (not_lt.mp hhigh))] at hdata
          cases hdata
        have h0 : r.need = 0 := by rcases h.idle.need with h0 | h0 <;> omega
        have hsame := h.props h0
        obtain ⟨hK, hK'⟩ := h.kept h0
        have hI' := h.idle'
        rw [hsame] at hI' hK'
        rw [hprop] at hI' hK'
        exact .opened (r := r) h.idle hI' (fun _ => ⟨hK, hK'⟩) ho hc hneed hpk
      · have := hge hs
        exact .opened hI (h.idle'.withProp (hd'.trans hdict.symm) fun _ => hl)
          (fun hlt => absurd hlt (by dsimp only; omega)) ho hc hneed hpk

theorem updateState_dict (f : Lzma2Frame) (b : ℕ) (P : LzmaProps) :
    (f.updateState b P).2.dictSize = P.dictSize := by
  obtain ⟨-, ⟨h, -⟩ | ⟨-, -, -, -, h, -⟩⟩ := updateState_twin (Q := P) f b rfl
  · rw [h]
  · exact h

theorem Lzma2Decoder.Alike.frame_eq (h : d.Alike d') (hs : d.frame.state ≠ .control) :
    d'.frame = d.frame := by
  rw [h.frame, h.control hs]

theorem Lzma2Decoder.Alike.update (h : d.Alike d') (b : ℕ) (P : LzmaProps) :
    d'.frame.updateState b P = d.frame.updateState b P := by
  by_cases hs : d.frame.state = .control
  · rw [h.frame]
    exact updateState_control hs _ b P
  · rw [h.frame_eq hs]

theorem Lzma2Decoder.Alike.state (h : d.Alike d') : d'.frame.state = d.frame.state := by
  rw [h.frame]

theorem Wrote.refl (h : d.Alike d') (hl : d.decoder.dicPos ≤ dicLimit) :
    Wrote d d' dicLimit d d' :=
  ⟨h, [], .refl hl, .refl (h.pos ▸ hl)⟩

/-- A step to equal frames. -/
theorem Lzma2Decoder.Alike.step (h : d.Alike d') {new : List UInt8} (hf : Frame2 d dicLimit new e)
    (hf' : Frame2 d' dicLimit new e') (hframe : e'.frame = e.frame) (hphase : Phase e e') :
    Wrote d d' dicLimit e e' where
  alike :=
    { frame := by rw [hframe]
      control := fun _ => by rw [hframe]
      size := hf'.size.trans (h.size.trans hf.size.symm)
      pos := by rw [hf'.pos, hf.pos, h.pos]
      dict := hf'.dict.trans (h.dict.trans hf.dict.symm)
      phase := hphase }
  new := ⟨new, hf, hf'⟩

theorem Frame2.withFrame {new : List UInt8} (h : Frame2 d dicLimit new e) (frame : Lzma2Frame) :
    Frame2 d dicLimit new ⟨frame, e.decoder⟩ :=
  ⟨h.dict, h.size, h.probs, h.pos, h.pos_le, h.wrote⟩

/-- The exit below the loop. -/
theorem Lzma2Decoder.Alike.corrupt (h : d.Alike d') {new : List UInt8}
    (hf : Frame2 d dicLimit new e) (hf' : Frame2 d' dicLimit new e') (hframe : e'.frame = e.frame) :
    (Lzma2.corrupt e).Alike d d' dicLimit (Lzma2.corrupt e') :=
  ⟨h.step (hf.withFrame _) (hf'.withFrame _)
    (by show { e'.frame with state := .error } = _; rw [hframe]; rfl) (.ended (.inl rfl)), rfl, rfl⟩

theorem headerTurn_alike (h : d.Alike d') (hB : Between d.decoder d'.decoder r)
    (hH : HeaderAt r d.frame pre) (hn : n ≤ src.length) (hl : d.decoder.dicPos ≤ dicLimit) :
    ∃ turn turn', headerTurn d dicLimit src n = .ok turn ∧
      headerTurn d' dicLimit src n = .ok turn' ∧ turn.Alike d d' dicLimit src.length turn' := by
  rcases hdrop : src.drop n with _ | ⟨b, rest⟩
  · have hend : n = src.length := le_antisymm hn (List.drop_eq_nil_iff.mp hdrop)
    unfold headerTurn
    rw [if_pos hend, if_pos hend]
    exact ⟨_, _, rfl, rfl, .refl h hl, rfl, rfl⟩
  have hlt : n + 1 ≤ src.length := by
    have := congrArg List.length hdrop
    rw [List.length_drop, List.length_cons] at this
    omega
  obtain ⟨g, P, d₁, hupd, hd₁, hturn⟩ := headerTurn_byte d dicLimit hdrop
  obtain ⟨g', Q, d₁', hupd', hd₁', hturn'⟩ := headerTurn_byte d' dicLimit hdrop
  rw [h.update] at hupd'
  obtain ⟨hphase, hdict⟩ := hB.update hH h.dict b
  have hsame := (updateState_twin d.frame b.toNat h.dict).1
  have hdP := updateState_dict d.frame b.toNat d.decoder.prop
  have hdQ := updateState_dict d.frame b.toNat d'.decoder.prop
  rw [hupd, hupd'] at hphase hdict hsame
  rw [hupd] at hdP
  rw [hupd'] at hdQ
  simp only at hphase hdict hsame hdP hdQ
  subst hsame
  have hf : Frame2 d dicLimit [] d₁ := by
    rw [hd₁]
    exact .of_eq hl hdP rfl rfl rfl rfl
  have hf' : Frame2 d' dicLimit [] d₁' := by
    rw [hd₁']
    exact .of_eq (h.pos ▸ hl) hdQ rfl rfl rfl rfl
  have hframe : d₁'.frame = d₁.frame := by rw [hd₁, hd₁']
  rw [hturn, hturn', h.pos]
  by_cases hstop : d.decoder.dicPos = dicLimit ∧ g'.state ≠ .finished
  · rw [if_pos hstop, if_pos hstop]
    exact ⟨_, _, rfl, rfl, h.corrupt hf hf' hframe⟩
  · rw [if_neg hstop, if_neg hstop]
    exact ⟨_, _, rfl, rfl, rfl, hlt, h.step hf hf' hframe (by rw [hd₁, hd₁']; exact hphase)⟩

theorem storedTurn_alike (h : d.Alike d')
    (hB : Between d.storedReady.decoder d'.storedReady.decoder r)
    (hs : d.frame.state = .data ∨ d.frame.state = .dataCont)
    (hc : d.frame.control = 1 ∨ d.frame.control = 2) (hneed : d.frame.needInitLevel = r.need)
    (hlt : d.frame.unpackSize < 2 ^ 32) (hn : n ≤ src.length) (hl : d.decoder.dicPos ≤ dicLimit)
    (hls : dicLimit ≤ d.decoder.dicBufSize) {outCur : ℕ} (ho : outCur ≤ d.frame.unpackSize)
    (hroom : d.decoder.dicPos + outCur ≤ dicLimit) :
    ∃ turn turn', storedTurn d src n (src.length - n) outCur = .ok turn ∧
      storedTurn d' src n (src.length - n) outCur = .ok turn' ∧
      turn.Alike d d' dicLimit src.length turn' := by
  have hframe := h.frame_eq (show d.frame.state ≠ .control by
    rcases hs with hs | hs <;> rw [hs] <;> decide)
  have hl' : d'.decoder.dicPos ≤ dicLimit := h.pos ▸ hl
  by_cases hin : src.length - n = 0
  · unfold storedTurn
    rw [if_pos hin, if_pos hin]
    exact ⟨_, _, rfl, rfl, .refl h hl, rfl, rfl⟩
  obtain ⟨k, hk⟩ : ∃ k, (if outCur < src.length - n then outCur else src.length - n) = k := ⟨_, rfl⟩
  have hkle : k ≤ outCur ∧ k ≤ src.length - n := by
    split at hk <;> omega
  by_cases hk0 : k = 0
  · refine ⟨.stop (corrupt d.storedReady), .stop (corrupt d'.storedReady), ?_, ?_,
      h.corrupt (storedReady_same hl) (storedReady_same hl')
        (by rw [storedReady_frame, storedReady_frame, hframe])⟩
    · unfold storedTurn
      rw [if_neg hin]
      exact if_pos (hk.trans hk0)
    · unfold storedTurn
      rw [if_neg hin]
      exact if_pos (hk.trans hk0)
  obtain ⟨e, ht, hfe, hw, hI, hp, hK⟩ := storedTurn_copy hB.idle hn hk hk0
    (hkle.1.trans ho) hlt (show d.decoder.dicPos + k ≤ dicLimit by omega) hls
  obtain ⟨e', ht', hfe', hw', hI', hp', hK'⟩ := storedTurn_copy hB.idle' hn hk hk0
    (hframe ▸ hkle.1.trans ho) (hframe ▸ hlt)
    (show d'.decoder.dicPos + k ≤ dicLimit by have := h.pos; omega) (h.size ▸ hls)
  have hB' : Between e.decoder e'.decoder (r.pushAll ((src.drop n).take k)) :=
    ⟨hI, hp' ▸ hI', fun h0 => ⟨hK (hB.kept h0).1, hp' ▸ hK' (hB.kept h0).2⟩, fun h0 =>
      hp'.trans ((hB.props h0).trans hp.symm)⟩
  refine ⟨_, _, ht, ht', rfl, by omega, h.step hw hw' (by rw [hfe, hfe', hframe]) ?_⟩
  by_cases hlast : d.frame.unpackSize - k = 0
  · exact .header hB' (.control (by rw [hfe]; exact if_pos hlast) (by rw [hfe]; exact hneed)
      (by rw [hfe]; exact hlast))
  · have hst : e.frame.state = .dataCont := by
      rw [hfe]
      exact if_neg hlast
    have hready : ∀ {e : Lzma2Decoder}, e.frame.state = .dataCont → e.storedReady = e := fun h =>
      if_neg (by rw [h]; decide)
    refine .stored (r := r.pushAll ((src.drop n).take k)) ?_ (.inr hst) (by rw [hfe]; exact hc)
      (by rw [hfe]; exact hneed) (by rw [hfe]; exact Nat.pos_of_ne_zero hlast)
      (by rw [hfe]; exact lt_of_le_of_lt (Nat.sub_le _ _) hlt)
    rw [hready hst, hready (show e'.frame.state = .dataCont by rw [hfe', hframe, ← hfe, hst])]
    exact hB'

end
end LzmaTurbo.Lzma2
