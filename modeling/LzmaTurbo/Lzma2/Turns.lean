import LzmaTurbo.Lzma2.Position

/-!
# One turn of the LZMA2 loop

A turn takes a header byte, a piece of a stored chunk, or what one call of the
LZMA decoder makes of a packed chunk. The grammar follows each of them.
-/
namespace LzmaTurbo.Lzma2
open Machine Lzma StreamMachine Window

/-- The fields a turn leaves alone, and the output `new` it writes. -/
structure Frame2 (d : Lzma2Decoder) (dicLimit : ℕ) (new : List UInt8) (d' : Lzma2Decoder) :
    Prop where
  dict : d'.decoder.prop.dictSize = d.decoder.prop.dictSize
  size : d'.decoder.dicBufSize = d.decoder.dicBufSize
  probs : d'.decoder.probs.size = d.decoder.probs.size
  pos : d'.decoder.dicPos = d.decoder.dicPos + new.length
  pos_le : d'.decoder.dicPos ≤ dicLimit
  wrote : d'.decoder.dic.toList.take d'.decoder.dicPos =
    d.decoder.dic.toList.take d.decoder.dicPos ++ new

/-- How a call ends that began at `pos` with `out` written and `X` to read, of which
`src` is new, and that has written `new`. -/
inductive Call2End (pos : Pos) (out X src : List UInt8) (dicLimit : ℕ) (mode : FinishMode)
    (new : List UInt8) (r : Dic2Result) : Prop
  | more (pos' : Pos) (held : List UInt8) : r.res = .ok src.length →
      r.status = .needsMoreInput → Moves2 pos X pos' held →
      r.d.At2 pos' held (new.reverse ++ out) → Exact pos' held (new.reverse ++ out) →
      pos'.out = new.reverse ++ out → pos'.step held = .more →
      Call2End pos out X src dicLimit mode new r
  | full (n : ℕ) (pos' : Pos) (held : List UInt8) : r.res = .ok n → n ≤ src.length →
      r.status = .notFinished → mode = .any → r.d.decoder.dicPos = dicLimit →
      Moves2 pos X pos' (held ++ src.drop n) → r.d.At2 pos' held (new.reverse ++ out) →
      Exact pos' held (new.reverse ++ out) → Call2End pos out X src dicLimit mode new r
  | finished (n : ℕ) (r' : Ref2) : r.res = .ok n → n ≤ src.length →
      r.status = .finishedWithMark → Moves2 pos X (.chunk r') (0 :: src.drop n) →
      r.d.At2 (.chunk r') [0] (new.reverse ++ out) → r.d.frame.state = .finished →
      (Pos.chunk r').out = new.reverse ++ out → Call2End pos out X src dicLimit mode new r
  | corrupt (pos' : Pos) (ys : List UInt8) : r.res = .error .corruptData →
      Moves2 pos X pos' ys → Doomed pos' ys → Call2End pos out X src dicLimit mode new r
  | past (pos' : Pos) (ys : List UInt8) : r.res = .error .corruptData → mode = .endMark →
      r.d.decoder.dicPos = dicLimit → Moves2 pos X pos' ys →
      (new.reverse ++ out).length < pos'.dueWith ys → Call2End pos out X src dicLimit mode new r

/-- A call ends in a state a decoder can be in and fails only on the input; when the
position it began at was exact it ends as the grammar says. -/
def Dic2End (d : Lzma2Decoder) (pos : Pos) (held out X src : List UInt8) (dicLimit : ℕ)
    (mode : FinishMode) (r : Dic2Result) : Prop :=
  ∃ new, Frame2 d dicLimit new r.d ∧ r.d.Sound ∧
    ((∃ k ≤ src.length, r.res = .ok k) ∨ r.res = .error .corruptData) ∧
    (Exact pos held out → Call2End pos out X src dicLimit mode new r)

/-- A chunk that is open may be closed by a turn that reads and writes nothing. -/
def Lzma2Decoder.bit (d : Lzma2Decoder) : ℕ :=
  if d.frame.state = .data ∨ d.frame.state = .dataCont then 1 else 0

/-- One turn: a result, or a position further on. -/
inductive Turn2End (d : Lzma2Decoder) (pos : Pos) (held out src : List UInt8) (n dicLimit : ℕ)
    (mode : FinishMode) : Turn2 → Prop
  | stop (r : Dic2Result) : Dic2End d pos held out (held ++ src.drop n) src dicLimit mode r →
      Turn2End d pos held out src n dicLimit mode (.stop r)
  | again (d' : Lzma2Decoder) (m : ℕ) (new : List UInt8) (pos' : Pos) (held' : List UInt8) :
      m ≤ src.length → Frame2 d dicLimit new d' → d'.At2 pos' held' (new.reverse ++ out) →
      (Exact pos held out → Moves2 pos (held ++ src.drop n) pos' (held' ++ src.drop m) ∧
        Exact pos' held' (new.reverse ++ out)) →
      n ≤ m → (n < m ∨ new ≠ [] ∨ d'.bit < d.bit) →
      Turn2End d pos held out src n dicLimit mode (.again d' m)

section
variable {d d' d'' : Lzma2Decoder} {pos pos' : Pos} {held out src new new' X : List UInt8}
  {r : Ref2} {dicLimit n : ℕ} {mode : FinishMode}

theorem Frame2.refl (hl : d.decoder.dicPos ≤ dicLimit) : Frame2 d dicLimit [] d :=
  ⟨rfl, rfl, rfl, rfl, hl, (List.append_nil _).symm⟩

/-- Only fields outside the dictionary differ. -/
theorem Frame2.of_eq (hl : d.decoder.dicPos ≤ dicLimit)
    (hdict : d'.decoder.prop.dictSize = d.decoder.prop.dictSize)
    (hsize : d'.decoder.dicBufSize = d.decoder.dicBufSize)
    (hprobs : d'.decoder.probs = d.decoder.probs)
    (hpos : d'.decoder.dicPos = d.decoder.dicPos) (hdic : d'.decoder.dic = d.decoder.dic) :
    Frame2 d dicLimit [] d' :=
  ⟨hdict, hsize, by rw [hprobs], hpos, hpos ▸ hl, by rw [hpos, hdic, List.append_nil]⟩

theorem Frame2.trans (h₁ : Frame2 d dicLimit new d') (h₂ : Frame2 d' dicLimit new' d'') :
    Frame2 d dicLimit (new ++ new') d'' :=
  ⟨h₂.dict.trans h₁.dict, h₂.size.trans h₁.size, h₂.probs.trans h₁.probs,
    by rw [h₂.pos, h₁.pos, List.length_append, Nat.add_assoc], h₂.pos_le,
    by rw [h₂.wrote, h₁.wrote, List.append_assoc]⟩

theorem sound_failed (d : Lzma2Decoder) (h : d.decoder.Shape) : (corrupt d).d.Sound := by
  obtain ⟨pos, hd⟩ := exists_doomed d.decoder.prop []
  exact ⟨pos, [], [], .failed h rfl hd (List.nil_suffix)⟩

theorem exact_of_ne (h : ∀ prop base c target pack, pos ≠ .packed prop base c target pack) :
    Exact pos held out :=
  fun prop base c target pack he => absurd he (h prop base c target pack)

theorem exact_chunk : Exact (.chunk r) held out := exact_of_ne (by simp)

/-- The exit below the loop, as an end of a call. -/
theorem corrupt_end (d₁ : Lzma2Decoder) (hf : Frame2 d dicLimit new d₁)
    (hs : d₁.decoder.Shape)
    (h : Exact pos held out → Call2End pos out X src dicLimit mode new (corrupt d₁)) :
    Dic2End d pos held out X src dicLimit mode (corrupt d₁) :=
  ⟨new, ⟨hf.dict, hf.size, hf.probs, hf.pos, hf.pos_le, hf.wrote⟩, sound_failed d₁ hs, .inr rfl, h⟩

theorem exact_opened {control unpack pack : ℕ} (hu : 0 < unpack) :
    Exact (r.openPacked control unpack pack) held (r.s.hist ++ r.base) := by
  intro prop base c target pack' he hlen
  obtain ⟨ho, hd⟩ := r.openPacked_out r.prop control unpack pack hu
  have hdue : (r.openPacked control unpack pack).due = target + base.length := by rw [he]; rfl
  rw [List.length_append] at hlen
  have hlt : r.s.hist.length + r.base.length < (r.openPacked control unpack pack).due := hd
  omega

theorem exact_stored {control size : ℕ} : Exact (r.openStored control size) held out := by
  refine exact_of_ne fun prop base c target pack => ?_
  unfold Ref2.openStored
  split <;> simp

/-- A header byte: the frame's next state, unless there is no room for what follows. -/
theorem headerTurn_byte (d : Lzma2Decoder) (dicLimit : ℕ) {b : UInt8} {rest : List UInt8}
    (hn : src.drop n = b :: rest) :
    ∃ f prop d₁, d.frame.updateState b.toNat d.decoder.prop = (f, prop) ∧
      d₁ = Lzma2Decoder.mk f { d.decoder with prop } ∧
      headerTurn d dicLimit src n = if d.decoder.dicPos = dicLimit ∧ f.state ≠ .finished then
        .ok (.stop (corrupt d₁)) else .ok (.again d₁ (n + 1)) := by
  have hlt : n ≠ src.length := by
    rintro rfl
    rw [List.drop_length] at hn
    cases hn
  obtain ⟨fp, hfp⟩ : ∃ fp, d.frame.updateState b.toNat d.decoder.prop = fp := ⟨_, rfl⟩
  refine ⟨fp.1, fp.2, _, hfp, rfl, ?_⟩
  unfold headerTurn
  rw [if_neg hlt, byteAt_drop hn, ok_bind, hfp]

/-- A byte of a chunk header. -/
theorem headerTurn_end {pre : List UInt8} (hI : Idle d.decoder r)
    (hK : r.need = 0 → Kept d.decoder r) (hH : HeaderAt r d.frame pre) (hn : n ≤ src.length)
    (hl : d.decoder.dicPos ≤ dicLimit) (hmode : d.decoder.dicPos = dicLimit → mode = .endMark) :
    ∃ turn, headerTurn d dicLimit src n = .ok turn ∧
      Turn2End d (.chunk r) pre (r.s.hist ++ r.base) src n dicLimit mode turn := by
  rcases hdrop : src.drop n with _ | ⟨b, rest⟩
  · have hend : n = src.length := le_antisymm hn (List.drop_eq_nil_iff.mp hdrop)
    unfold headerTurn
    rw [if_pos hend]
    refine ⟨_, rfl, .stop _ ⟨[], .refl hl, ⟨_, _, _, .header hI hK hH⟩,
      .inl ⟨n, hn, rfl⟩, fun _ => .more (.chunk r) pre (by rw [hend]) rfl ?_
      (.header hI hK hH) exact_chunk rfl hH.more⟩⟩
    rw [hdrop, List.append_nil]
    exact .refl _ _
  have hlt : n + 1 ≤ src.length := by
    have := congrArg List.length hdrop
    rw [List.length_drop, List.length_cons] at this
    omega
  have hX : pre ++ src.drop n = pre ++ [b] ++ src.drop (n + 1) := by
    rw [← List.drop_drop, hdrop, List.append_assoc]
    rfl
  obtain ⟨f, prop, d₁, hupd, hd₁, hturn⟩ := headerTurn_byte d dicLimit hdrop
  have hstep := hH.update hI.prop b
  rw [hupd] at hstep
  simp only at hstep
  have hframe : prop.dictSize = r.prop.dictSize → Frame2 d dicLimit [] d₁ := fun hd => by
    rw [hd₁]
    exact .of_eq hl (hd.trans (by rw [hI.prop])) rfl rfl rfl rfl
  have hsame : prop = r.prop → d₁.decoder = d.decoder := fun hp => by
    rw [hd₁, hp, ← hI.prop]
  have hfr : d₁.frame = f := by rw [hd₁]
  rw [hturn]
  cases hstep with
  | finished hs hp hpre =>
      rw [if_neg fun h => h.2 hs]
      refine ⟨_, rfl, .again d₁ (n + 1) [] (.chunk r) [0] hlt (hframe (by rw [hp]))
        (.finished (hsame hp ▸ hI) (hfr ▸ hs)) (fun _ => ⟨?_, exact_chunk⟩) (Nat.le_succ n)
        (.inl (Nat.lt_succ_self n))⟩
      rw [hX, hpre]
      exact .refl _ _
  | broken hs hp hrej =>
      have hshape : d₁.decoder.Shape := hsame hp ▸ hI.toShape
      have hdoom : Doomed (.chunk r) (pre ++ [b]) := .of_reject hrej
      by_cases hat : d.decoder.dicPos = dicLimit
      · rw [if_pos ⟨hat, by rw [hs]; decide⟩]
        refine ⟨_, rfl, .stop _ (corrupt_end d₁ (hframe (by rw [hp])) hshape fun _ =>
          .corrupt (.chunk r) _ rfl (.refl _ _) ?_)⟩
        rw [hX]
        exact hdoom.append _
      · rw [if_neg fun h => hat h.1]
        refine ⟨_, rfl, .again d₁ (n + 1) [] (.chunk r) (pre ++ [b]) hlt (hframe (by rw [hp]))
          (.failed hshape (hfr ▸ hs) hdoom List.suffix_rfl) (fun _ => ⟨?_, exact_chunk⟩)
          (Nat.le_succ n) (.inl (Nat.lt_succ_self n))⟩
        rw [hX]
        exact .refl _ _
  | header hH' hp =>
      by_cases hat : d.decoder.dicPos = dicLimit
      · rw [if_pos ⟨hat, hH'.state_ne⟩]
        refine ⟨_, rfl, .stop _ (corrupt_end d₁ (hframe (by rw [hp])) (hsame hp ▸ hI.toShape)
          fun _ => .past (.chunk r) _ rfl (hmode hat) (by
            change d₁.decoder.dicPos = dicLimit
            rw [hsame hp, hat]) (.refl _ _) ?_)⟩
        rw [hX, List.reverse_nil, List.nil_append, List.length_append]
        exact hH'.dueWith (by simp) _
      · rw [if_neg fun h => hat h.1]
        refine ⟨_, rfl, .again d₁ (n + 1) [] (.chunk r) (pre ++ [b]) hlt (hframe (by rw [hp]))
          (.header (hsame hp ▸ hI) (hsame hp ▸ hK) (hfr ▸ hH')) (fun _ => ⟨?_, exact_chunk⟩)
          (Nat.le_succ n) (.inl (Nat.lt_succ_self n))⟩
        rw [hX]
        exact .refl _ _
  | stored ho hc hneed hp hs =>
      have hmv : Moves2 (.chunk r) (pre ++ src.drop n) (r.openStored f.control f.unpackSize)
          ([] ++ src.drop (n + 1)) := by
        have hs' : (Pos.chunk r).step (pre ++ [b]) = .next _ [] := hs
        rw [hX]
        exact Moves2.append (.single trivial hs') _
      by_cases hat : d.decoder.dicPos = dicLimit
      · rw [if_pos ⟨hat, by rw [ho.state]; decide⟩]
        refine ⟨_, rfl, .stop _ (corrupt_end d₁ (hframe (by rw [hp])) (hsame hp ▸ hI.toShape)
          fun _ => .past _ _ rfl (hmode hat) (by
            change d₁.decoder.dicPos = dicLimit
            rw [hsame hp, hat]) hmv ?_)⟩
        rw [Ref2.openStored_dueWith, List.reverse_nil, List.nil_append, List.length_append]
        exact (r.openStored_out _ _).2
      · rw [if_neg fun h => hat h.1]
        have hat2 : d₁.At2 (r.openStored d₁.frame.control d₁.frame.unpackSize) []
            (r.s.hist ++ r.base) :=
          .startStored (hsame hp ▸ hI) (hsame hp ▸ hK) (hfr ▸ ho) (hfr ▸ hc) (hfr ▸ hneed)
        rw [hfr] at hat2
        exact ⟨_, rfl, .again d₁ (n + 1) [] _ [] hlt (hframe (by rw [hp])) hat2
          (fun _ => ⟨hmv, exact_stored⟩) (Nat.le_succ n) (.inl (Nat.lt_succ_self n))⟩
  | packed ho hc hneed hlev hpk hp hd hl4 hs =>
      obtain ⟨hout, hdue⟩ := r.openPacked_out prop f.control f.unpackSize f.packSize ho.unpack_pos
      have hI' : Idle d₁.decoder { r with prop } := by
        rw [hd₁]
        exact hI.withProp (hd.trans (by rw [hI.prop])) hl4
      have hmv : Moves2 (.chunk r) (pre ++ src.drop n)
          ({ r with prop }.openPacked f.control f.unpackSize f.packSize)
          ([] ++ src.drop (n + 1)) := by
        have hs' : (Pos.chunk r).step (pre ++ [b]) = .next _ [] := hs
        rw [hX]
        exact Moves2.append (.single trivial hs') _
      have hkept : f.control < 0xA0 → Kept d₁.decoder { r with prop } := fun hlt => by
        rw [hsame (hp (by omega)), hp (by omega)]
        exact hK (by rcases hI.need with h0 | h0 <;> omega)
      by_cases hat : d.decoder.dicPos = dicLimit
      · rw [if_pos ⟨hat, by rw [ho.state]; decide⟩]
        refine ⟨_, rfl, .stop _ (corrupt_end d₁ (hframe hd) hI'.toShape
          fun _ => .past _ _ rfl (hmode hat) (by
            change d₁.decoder.dicPos = dicLimit
            rw [hd₁]
            exact hat) hmv ?_)⟩
        rw [Ref2.openPacked_dueWith, List.reverse_nil, List.nil_append, List.length_append]
        exact hdue
      · rw [if_neg fun h => hat h.1]
        have hat2 := Lzma2Decoder.At2.startPacked (d := d₁) hI' (hfr ▸ hkept) (hfr ▸ ho)
          (hfr ▸ hc) (hfr ▸ hlev) (hfr ▸ hpk)
        rw [hfr] at hat2
        exact ⟨_, rfl, .again d₁ (n + 1) [] _ [] hlt (hframe hd) hat2
          (fun _ => ⟨hmv, exact_opened ho.unpack_pos⟩) (Nat.le_succ n)
          (.inl (Nat.lt_succ_self n))⟩

theorem initDicAndState_same (p : LzmaDec) (initDic initState : Bool) :
    (p.initDicAndState initDic initState).prop = p.prop ∧
    (p.initDicAndState initDic initState).dicBufSize = p.dicBufSize ∧
    (p.initDicAndState initDic initState).dicPos = p.dicPos ∧
    (p.initDicAndState initDic initState).dic = p.dic ∧
    (p.initDicAndState initDic initState).probs = p.probs := by
  cases initDic <;> cases initState <;> exact ⟨rfl, rfl, rfl, rfl, rfl⟩

theorem Frame2.init (frame : Lzma2Frame) (initDic initState : Bool)
    (hl : d.decoder.dicPos ≤ dicLimit) :
    Frame2 d dicLimit [] ⟨frame, d.decoder.initDicAndState initDic initState⟩ := by
  obtain ⟨h1, h2, h3, h4, h5⟩ := initDicAndState_same d.decoder initDic initState
  exact .of_eq hl (congrArg LzmaProps.dictSize h1) h2 h5 h3 h4

/-- The decoder a piece of a stored chunk is copied into. -/
def Lzma2Decoder.storedReady (d : Lzma2Decoder) : Lzma2Decoder :=
  if d.frame.state = .data then
    { d with decoder := d.decoder.initDicAndState (d.frame.control == lzma2ControlCopyResetDic) false }
  else d

/-- Inside a stored chunk, its resets done. -/
structure StoredAt (d d₁ : Lzma2Decoder) (r : Ref2) : Prop where
  idle : Idle d₁.decoder r
  kept : r.need = 0 → Kept d₁.decoder r
  frame : d₁.frame = d.frame
  same : ∀ dicLimit, d.decoder.dicPos ≤ dicLimit → Frame2 d dicLimit [] d₁
  kind : d.frame.control = 1 ∨ d.frame.control = 2
  need : d.frame.needInitLevel = r.need
  pos : 0 < d.frame.unpackSize
  lt : d.frame.unpackSize < 2 ^ 32

theorem storedReady_start (hI : Idle d.decoder r) (hK : r.need = 0 → Kept d.decoder r)
    (ho : Opened d.frame) (hc : d.frame.control = 1 ∨ d.frame.control = 2)
    (hn : d.frame.needInitLevel = if d.frame.control = 1 then 0xC0 else r.need) :
    ∃ r', StoredAt d d.storedReady r' ∧ r'.s.hist ++ r'.base = r.s.hist ++ r.base ∧
      r.openStored d.frame.control d.frame.unpackSize = .stored r' d.frame.unpackSize := by
  unfold Lzma2Decoder.storedReady
  rw [if_pos ho.state]
  rcases hc with hc | hc
  · refine ⟨{ r.resetDic with need := 0xC0 }, ⟨?_, fun h => absurd h (by decide : 0xC0 ≠ 0), rfl,
      fun l hl => .init _ _ _ hl, .inl hc, by rw [hn, if_pos hc], ho.unpack_pos,
      ho.unpack_lt⟩, rfl, ?_⟩
    · rw [hc]
      exact hI.initStored
    · rw [hc]
      rfl
  · refine ⟨r, ⟨?_, fun h => ?_, rfl, fun l hl => .init _ _ _ hl, .inr hc,
      by rw [hn, hc]; rfl, ho.unpack_pos, ho.unpack_lt⟩, rfl, ?_⟩
    · rw [hc]
      exact hI.initStored_keep
    · rw [hc]
      exact (hK h).initStored
    · rw [hc]
      rfl

theorem storedReady_cont (hI : Idle d.decoder r) (hK : r.need = 0 → Kept d.decoder r)
    (hs : d.frame.state = .dataCont) (hc : d.frame.control = 1 ∨ d.frame.control = 2)
    (hn : d.frame.needInitLevel = r.need) (hpos : 0 < d.frame.unpackSize)
    (hlt : d.frame.unpackSize < 2 ^ 32) : StoredAt d d.storedReady r := by
  unfold Lzma2Decoder.storedReady
  rw [if_neg (by rw [hs]; decide)]
  exact ⟨hI, hK, rfl, fun l hl => .refl hl, hc, hn, hpos, hlt⟩

/-- Stored bytes are output. -/
theorem Idle.copied {p : LzmaDec} {bs : List UInt8} (h : Idle p r)
    (hk : p.dicPos + bs.length ≤ p.dicBufSize) {dic : Array UInt8}
    (hcopy : copyInto bs p.dicPos p.dic = .ok dic) :
    Idle { p with
      dic, dicPos := p.dicPos + bs.length
      checkDicSize := checkOf p.prop (r.s.hist.length + bs.length)
      processedPos := wrappingAdd32 p.processedPos bs.length } (r.pushAll bs) ∧
    dic.toList.take (p.dicPos + bs.length) = p.dic.toList.take p.dicPos ++ bs := by
  have hle := h.size_le
  obtain ⟨dic₁, h1, hsize, htake⟩ := copyInto_spec bs p.dicPos p.dic (by omega)
  obtain ⟨dic₂, h2, hholds⟩ := copyInto_holds bs h.holds hk
  obtain rfl : dic = dic₁ := Except.ok.inj (hcopy.symm.trans h1)
  obtain rfl : dic = dic₂ := Except.ok.inj (hcopy.symm.trans h2)
  have hlen : (r.pushAll bs).s.hist.length = r.s.hist.length + bs.length := by
    simp only [Ref2.pushAll, List.length_append, List.length_reverse]
    omega
  refine ⟨⟨⟨hk, by rw [hsize]; exact h.size_le, h.size_lt, h.probs, h.tempBuf_size⟩,
    ⟨hholds, ?_, ?_, ?_⟩, h.prop, h.room, h.need⟩, htake⟩
  · rw [hlen]
    exact h.fits.add _
  · rw [hlen]
    change wrappingAdd32 p.processedPos bs.length = _
    rw [h.processed]
    exact wrappingAdd32_mod _ _
  · rw [hlen]

theorem Kept.copied {p q : LzmaDec} {bs : List UInt8} (h : Kept p r) (hprop : q.prop = p.prop)
    (hreps : q.reps = p.reps) (hstate : q.state = p.state) (hprobs : q.probs = p.probs) :
    Kept q (r.pushAll bs) where
  reps := hreps.trans h.reps
  state := hstate.trans h.state
  table := by rw [hprobs, hprop]; exact h.table
  base := by
    have hlen : r.s.hist.length ≤ (r.pushAll bs).s.hist.length := by
      simp only [Ref2.pushAll, List.length_append]
      omega
    rw [hprop]
    exact ⟨h.base.probs_ge, h.base.probs_le, h.base.state_lt, h.base.reps.mono hlen⟩
  hist := List.append_ne_nil_of_right_ne_nil _ h.hist

theorem storedReady_frame (d : Lzma2Decoder) : d.storedReady.frame = d.frame := by
  unfold Lzma2Decoder.storedReady
  split <;> rfl

theorem storedReady_same (hl : d.decoder.dicPos ≤ dicLimit) :
    Frame2 d dicLimit [] d.storedReady := by
  unfold Lzma2Decoder.storedReady
  split
  · exact .init _ _ _ hl
  · exact .refl hl

/-- A piece of a stored chunk is copied. -/
theorem storedTurn_copy (hI : Idle d.storedReady.decoder r) (hn : n ≤ src.length) {k outCur : ℕ}
    (hk : (if outCur < src.length - n then outCur else src.length - n) = k) (hk0 : k ≠ 0)
    (hu : k ≤ d.frame.unpackSize) (hult : d.frame.unpackSize < 2 ^ 32)
    (hl : d.decoder.dicPos + k ≤ dicLimit) (hls : dicLimit ≤ d.decoder.dicBufSize) :
    ∃ e, storedTurn d src n (src.length - n) outCur = .ok (.again e (n + k)) ∧
      e.frame = { d.frame with
        unpackSize := d.frame.unpackSize - k
        state := if d.frame.unpackSize - k = 0 then .control else .dataCont } ∧
      Frame2 d dicLimit ((src.drop n).take k) e ∧
      Idle e.decoder (r.pushAll ((src.drop n).take k)) ∧
      e.decoder.prop = d.storedReady.decoder.prop ∧
      (Kept d.storedReady.decoder r → Kept e.decoder (r.pushAll ((src.drop n).take k))) := by
  have hkle : k ≤ outCur ∧ k ≤ src.length - n := by
    split at hk <;> omega
  have hlen : ((src.drop n).take k).length = k := by
    rw [List.length_take, List.length_drop]
    omega
  have hslice : slice src n (n + k) = .ok ((src.drop n).take k) := by
    rw [slice_spec (by omega) (by omega), Nat.add_sub_cancel_left]
  generalize (src.drop n).take k = bs at hlen hslice ⊢
  have hsame : Frame2 d dicLimit [] d.storedReady := storedReady_same (by omega)
  have hpos := hsame.pos
  rw [List.length_nil, Nat.add_zero] at hpos
  have hbuf := hsame.size
  have hsize := hI.size_le
  obtain ⟨dic, hcopy, -⟩ := copyInto_spec bs d.storedReady.decoder.dicPos
    d.storedReady.decoder.dic (by omega)
  have hcheck := hI.toWindow.checkDicSizeAfter (show k < 2 ^ 32 by omega)
  have hcopied := hI.copied (by omega) hcopy
  rw [hlen] at hcopied
  obtain ⟨hI', htake⟩ := hcopied
  have hu32 : u32 k = k := Nat.mod_eq_of_lt (by omega)
  have hready : (if d.frame.state = .data then
      { d with decoder := d.decoder.initDicAndState (d.frame.control == lzma2ControlCopyResetDic)
                 false } else d) = d.storedReady := rfl
  refine ⟨⟨{ d.frame with
            unpackSize := d.frame.unpackSize - k
            state := if d.frame.unpackSize - k = 0 then .control else .dataCont },
          { d.storedReady.decoder with
            dic, dicPos := d.storedReady.decoder.dicPos + k
            checkDicSize := checkOf d.storedReady.decoder.prop (r.s.hist.length + k)
            processedPos := wrappingAdd32 d.storedReady.decoder.processedPos k }⟩, ?_, rfl, ?_,
    hI', rfl, fun hK => hK.copied rfl rfl rfl rfl⟩
  · unfold storedTurn
    simp only [hready]
    rw [if_neg (by omega : ¬ src.length - n = 0), hk, if_neg hk0]
    simp only [hslice, hcopy, ok_bind, hu32, hcheck, storedReady_frame, sub_ok hu]
  · have hw := hsame.wrote
    rw [List.append_nil] at hw
    exact ⟨hsame.dict, hsame.size, hsame.probs, by rw [hlen, ← hpos], by
      change d.storedReady.decoder.dicPos + k ≤ dicLimit
      omega, hw ▸ htake⟩

/-- A piece of a stored chunk, of `outCur` bytes at most. -/
theorem storedTurn_end (h : StoredAt d d.storedReady r)
    (hA : d.At2 (.stored r d.frame.unpackSize) [] (r.s.hist ++ r.base)) (hn : n ≤ src.length)
    (hl : d.decoder.dicPos ≤ dicLimit) (hls : dicLimit ≤ d.decoder.dicBufSize)
    (hmode : d.decoder.dicPos = dicLimit → mode = .endMark) {outCur : ℕ}
    (ho : outCur ≤ d.frame.unpackSize) (hroom : outCur ≤ dicLimit - d.decoder.dicPos)
    (hzero : outCur = 0 → d.decoder.dicPos = dicLimit) :
    ∃ turn, storedTurn d src n (src.length - n) outCur = .ok turn ∧
      Turn2End d (.stored r d.frame.unpackSize) [] (r.s.hist ++ r.base) src n dicLimit mode turn := by
  have hupos := h.pos
  have hult := h.lt
  by_cases hin : src.length - n = 0
  · unfold storedTurn
    rw [if_pos hin]
    have hend : n = src.length := by omega
    refine ⟨_, rfl, .stop _ ⟨[], .refl hl, ⟨_, _, _, hA⟩, .inl ⟨n, hn, rfl⟩, fun _ =>
      .more _ [] (by rw [hend]) rfl ?_ hA (exact_of_ne (by simp)) rfl rfl⟩⟩
    rw [hend, List.drop_length, List.append_nil]
    exact .refl _ _
  obtain ⟨k, hk⟩ : ∃ k, (if outCur < src.length - n then outCur else src.length - n) = k := ⟨_, rfl⟩
  have hkle : k ≤ outCur ∧ k ≤ src.length - n := by
    split at hk <;> omega
  by_cases hk0 : k = 0
  · have hfull : d.decoder.dicPos = dicLimit := hzero (by
      split at hk <;> omega)
    have hsame := h.same dicLimit hl
    have hpos := hsame.pos
    rw [List.length_nil, Nat.add_zero] at hpos
    refine ⟨.stop (corrupt d.storedReady), ?_, .stop _ (corrupt_end d.storedReady hsame
      h.idle.toShape fun _ => .past _ _ rfl (hmode hfull) (hpos.trans hfull) (.refl _ _) ?_)⟩
    · unfold storedTurn
      rw [if_neg hin]
      exact if_pos (hk.trans hk0)
    · simp only [Pos.dueWith, Pos.due, List.reverse_nil, List.nil_append, List.length_append]
      omega
  obtain ⟨e, ht, hfe, hwrote, hI, -, hK⟩ := storedTurn_copy h.idle hn hk hk0 (hkle.1.trans ho)
    hult (show d.decoder.dicPos + k ≤ dicLimit by omega) hls
  obtain ⟨bs, hbs⟩ : ∃ bs, bs = (src.drop n).take k := ⟨_, rfl⟩
  have hlen : bs.length = k := by
    rw [hbs, List.length_take, List.length_drop]
    omega
  rw [← hbs] at hwrote hI hK
  have hrest : (src.drop n).drop k = src.drop (n + k) := List.drop_drop
  have hX : [] ++ src.drop n = bs ++ src.drop (n + k) := by
    rw [List.nil_append, ← hrest, hbs, List.take_append_drop]
  have hout : bs.reverse ++ (r.s.hist ++ r.base) =
      (r.pushAll bs).s.hist ++ (r.pushAll bs).base := by
    simp only [Ref2.pushAll, List.append_assoc]
  have hmoves := stored_moves r bs (src.drop (n + k)) (d.frame.unpackSize - k)
    (List.ne_nil_of_length_pos (by omega))
  rw [hlen, Nat.add_sub_cancel' (by omega : k ≤ d.frame.unpackSize), ← hX] at hmoves
  have hneed : e.frame.needInitLevel = (r.pushAll bs).need := by
    rw [hfe]
    exact h.need
  have hsize : e.frame.unpackSize = d.frame.unpackSize - k := by rw [hfe]
  refine ⟨_, ht, ?_⟩
  by_cases hlast : d.frame.unpackSize - k = 0
  · rw [if_pos hlast] at hmoves
    have hstate : e.frame.state = .control := by
      rw [hfe]
      exact if_pos hlast
    exact .again e (n + k) bs _ [] (by omega) hwrote (hout ▸ .header hI (fun hz => hK (h.kept hz))
      (.control hstate hneed (hsize.trans hlast))) (fun _ => ⟨hmoves, exact_chunk⟩)
      (Nat.le_add_right _ _) (.inl (by omega))
  · rw [if_neg hlast, ← hsize] at hmoves
    have hstate : e.frame.state = .dataCont := by
      rw [hfe]
      exact if_neg hlast
    exact .again e (n + k) bs _ [] (by omega) hwrote (hout ▸ .stored hI (fun hz => hK (h.kept hz))
      hstate (by rw [hfe]; exact h.kind) hneed (by omega) (by omega)) (fun _ =>
        ⟨hmoves, exact_of_ne (by simp)⟩) (Nat.le_add_right _ _) (.inl (by omega))

end
end LzmaTurbo.Lzma2
