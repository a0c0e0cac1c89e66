import LzmaTurbo.Lzma2.Twins

/-!
# A call on two LZMA2 decoders that answer alike

Inside a packed chunk the calls of the LZMA decoder agree, and with them the turns, the loop and
whole calls of `decode`.
-/
namespace LzmaTurbo.Lzma2
open Machine Lzma StreamMachine Window

section
variable {d d' e e' : Lzma2Decoder} {src : List UInt8} {r : Ref2} {dicLimit n : ℕ}
  {mode : FinishMode}

theorem pair_window {p q : LzmaDec} {len org : ℕ} (h : LzmaDec.Pair len org p q) :
    ∃ w, p.Window w ∧ q.Window w ∧ w.length + org = len + p.dicPos := by
  cases h with
  | live hat hat' hw => exact ⟨_, hat.window, hat'.window, hw⟩
  | dead _ _ hw hw' h => exact ⟨_, hw, hw', h⟩

/-- A call on a pair writes one text to both dictionaries. -/
theorem pair_wrote {p q P Q : LzmaDec} {len org limit : ℕ} (h : LzmaDec.Alike len org p q)
    (h' : LzmaDec.Alike len org P Q) (hf : DicFrame p limit P) (hf' : DicFrame q limit Q) :
    ∃ new, new.length = P.dicPos - p.dicPos ∧
      P.dic.toList.take P.dicPos = p.dic.toList.take p.dicPos ++ new ∧
      Q.dic.toList.take Q.dicPos = q.dic.toList.take q.dicPos ++ new := by
  obtain ⟨w, -, -, hlen⟩ := pair_window h.pair
  obtain ⟨w', hw, hw', hlen'⟩ := pair_window h'.pair
  have hge := hf.pos_ge
  have hpos := h.pos
  have hpos' := h'.pos
  have hold : (w'.drop (P.dicPos - p.dicPos)).length = w'.length - (P.dicPos - p.dicPos) :=
    List.length_drop
  obtain ⟨new, hnew, hnlen, hslice⟩ := hw.slice (p := p) (w := w'.drop (P.dicPos - p.dicPos))
    (by unfold Grown; omega) (List.drop_suffix _ _) hge
  obtain ⟨new', hnew', hnlen', hslice'⟩ := hw'.slice (p := q) (w := w'.drop (P.dicPos - p.dicPos))
    (by unfold Grown; omega) (List.drop_suffix _ _) hf'.pos_ge
  obtain rfl : new' = new :=
    List.reverse_injective (List.append_cancel_right (hnew'.symm.trans hnew))
  have h1 := hw.holds.pos_le
  have h2 := hw.holds.size_le
  have h3 := hw'.holds.pos_le
  have h4 := hw'.holds.size_le
  exact ⟨new', hnlen, dic_wrote hf (h1.trans h2) hslice, dic_wrote hf' (h3.trans h4) hslice'⟩

/-- A chunk that may be at its end owes nothing. -/
theorem maybe_remain {p : LzmaDec} {input : List UInt8} {limit k : ℕ} {res : DicResult}
    (h : p.Sound) (hl : p.dicPos ≤ limit) (hls : limit ≤ p.dicBufSize)
    (hr : lzmaDecDecodeToDic p limit input mode = .ok res) (hres : res.res = .ok k)
    (hst : res.status = .maybeFinishedWithoutMark) : res.p.remainLen = 0 := by
  cases h with
  | @live c temp w hat =>
      obtain ⟨res', hr', hend, -⟩ := lzmaDecDecodeToDic_at input mode hat hl hls
        (show w.length + (limit - p.dicPos) + p.dicPos = _ by omega)
      rw [hr, Except.ok.injEq] at hr'
      subst hr'
      cases hend with
      | maybe n s temp' _ _ _ _ hat' =>
          cases hat' with
          | body hcore _ =>
              have := hcore.hist_length
              omega
      | more _ _ _ hst' => rw [hst] at hst'; cases hst'
      | notFinished _ _ _ _ _ _ hst' => rw [hst] at hst'; cases hst'
      | mark _ _ _ _ _ _ _ hst' => rw [hst] at hst'; cases hst'
      | reject _ _ hres' => rw [hres] at hres'; cases hres'
      | past _ _ _ _ hres' => rw [hres] at hres'; cases hres'
  | dead hd =>
      obtain ⟨res', hr', -, ⟨-, hst'⟩ | hres'⟩ := lzmaDecDecodeToDic_dead limit input mode hd
      · rw [hr, Except.ok.injEq] at hr'
        subst hr'
        rw [hst] at hst'
        cases hst'
      · rw [hr, Except.ok.injEq] at hr'
        subst hr'
        rw [hres] at hres'
        cases hres'

/-- A chunk at its end leaves both between chunks. -/
theorem between_of_body {p q : LzmaDec} {len org : ℕ} (h : LzmaDec.Alike len org p q)
    (hr : p.remainLen = 0) (hroom : lzmaPropsGetNumProbs lzma2LclpMax 0 ≤ p.probs.size)
    (hroom' : lzmaPropsGetNumProbs lzma2LclpMax 0 ≤ q.probs.size)
    (horg : org < len + p.dicPos) : ∃ r, Between p q r ∧ r.need = 0 := by
  have hspec := specLen
  have hr' := h.remain
  cases h.pair with
  | dead hd _ _ _ _ =>
      have := hd.remain_ge
      omega
  | @live c temp w hat hat' hlen =>
      cases hat with
      | header hb =>
          have := hb.remain
          omega
      | @body s _ _ hcore hheld =>
          cases hat' with
          | body hcore' hheld' =>
              have hw : w = s.hist := by
                have h1 := hcore.hist_length
                obtain ⟨t, ht⟩ : w <:+ s.hist := by
                  rw [hcore.owes.hist]
                  exact suffix_copyBack _ _ _
                have h2 := congrArg List.length ht
                rw [List.length_append] at h2
                rw [← ht, List.length_eq_zero_iff.mp (by omega : t.length = 0), List.nil_append]
              subst hw
              have hbody : Idle p ⟨p.prop, 0, [], s⟩ ∧ Kept p ⟨p.prop, 0, [], s⟩ :=
                idle_of_body [] (.body hcore hheld) hroom (by omega)
              have hbody' : Idle q ⟨q.prop, 0, [], s⟩ ∧ Kept q ⟨q.prop, 0, [], s⟩ :=
                idle_of_body [] (.body hcore' hheld') hroom' (by omega)
              exact ⟨_, ⟨hbody.1, hbody'.1, fun _ => ⟨hbody.2, hbody'.2⟩, fun _ => h.prop⟩, rfl⟩

theorem packedTurn_alike (h : d.Alike d') {len org : ℕ}
    (hA : LzmaDec.Alike len org d.decoder d'.decoder)
    (hp : lzmaPropsGetNumProbs lzma2LclpMax 0 ≤ d.decoder.probs.size)
    (hp' : lzmaPropsGetNumProbs lzma2LclpMax 0 ≤ d'.decoder.probs.size)
    (hs : d.frame.state = .dataCont) (hc : isUncompressedState d.frame.control = false)
    (hneed : d.frame.needInitLevel = 0) (hu : d.frame.unpackSize < 2 ^ 32)
    (hpk : d.frame.packSize < 2 ^ 32)
    (horg : org < len + d.decoder.dicPos + d.frame.unpackSize) (hn : n ≤ src.length)
    (hls : dicLimit ≤ d.decoder.dicBufSize) {outCur : ℕ} (ho : outCur ≤ d.frame.unpackSize)
    (hroom : d.decoder.dicPos + outCur ≤ dicLimit) (cur : FinishMode) :
    ∃ turn turn', packedTurn d src n (src.length - n) outCur cur = .ok turn ∧
      packedTurn d' src n (src.length - n) outCur cur = .ok turn' ∧
      turn.Alike d d' dicLimit src.length turn' := by
  have hframe := h.frame_eq (by rw [hs]; decide)
  obtain ⟨k, hk⟩ : ∃ k, (if d.frame.packSize < src.length - n then d.frame.packSize
    else src.length - n) = k := ⟨_, rfl⟩
  have hkle : k ≤ d.frame.packSize ∧ k ≤ src.length - n := by
    split at hk <;> omega
  obtain ⟨input, hinput⟩ : ∃ input, (src.drop n).take k = input := ⟨_, rfl⟩
  have hlen : input.length = k := by
    rw [← hinput, List.length_take, List.length_drop]
    omega
  have hslice : slice src n (n + k) = .ok input := by
    rw [slice_spec (by omega) (by omega), Nat.add_sub_cancel_left, hinput]
  obtain ⟨res, res', hr, hr', hf, hf', hAr, hres⟩ := lzmaDecDecodeToDic_alike input cur hA
    (show d.decoder.dicPos ≤ d.decoder.dicPos + outCur by omega) (hroom.trans hls)
  have hmaybe : ∀ m, res.res = .ok m → res.status = .maybeFinishedWithoutMark →
      res.p.remainLen = 0 := by
    have hsound : d.decoder.Sound := by
      cases hA.pair with
      | live hat => exact .live hat
      | dead hd => exact .dead hd
    exact fun m => maybe_remain hsound (by omega) (hroom.trans hls) hr
  obtain ⟨new, hnew, hw, hw'⟩ := pair_wrote hA hAr.p hf hf'
  have hpos := h.pos
  have hposr := hAr.p.pos
  have hge := hf.pos_ge
  have hle := hf.pos_le
  have hF : ∀ frame, Frame2 d dicLimit new ⟨frame, res.p⟩ := fun _ =>
    ⟨congrArg LzmaProps.dictSize hf.prop, hf.dicBufSize, hf.probs,
      (show res.p.dicPos = d.decoder.dicPos + new.length by omega),
      (show res.p.dicPos ≤ dicLimit by omega), hw⟩
  have hF' : ∀ frame, Frame2 d' dicLimit new ⟨frame, res'.p⟩ := fun _ =>
    ⟨congrArg LzmaProps.dictSize hf'.prop, hf'.dicBufSize, hf'.probs,
      (show res'.p.dicPos = d'.decoder.dicPos + new.length by omega),
      (show res'.p.dicPos ≤ dicLimit by omega), hw'⟩
  rw [← hpos] at hr' hf'
  refine ⟨_, _, packedTurn_eq hs hu (hk ▸ hslice) (by omega) hpk ho hr hres hf,
    packedTurn_eq (hframe ▸ hs) (hframe ▸ hu) (by rw [hframe, hk]; exact hslice)
      (by rw [hframe]; omega) (hframe ▸ hpk) (hframe ▸ ho) hr' (by rw [hAr.res]; exact hres)
      hf', ?_⟩
  have hroomr := hf.probs ▸ hp
  have hroomr' := hf'.probs ▸ hp'
  have hphase : ∀ unpack pack : ℕ, unpack ≤ d.frame.unpackSize → pack ≤ d.frame.packSize →
      org < len + res.p.dicPos + unpack → Phase
        ⟨{ d.frame with packSize := pack, unpackSize := unpack }, res.p⟩
        ⟨{ d.frame with packSize := pack, unpackSize := unpack }, res'.p⟩ :=
    fun _ _ h1 h2 h3 => .packed hAr.p hroomr hroomr' hs hc hneed (lt_of_le_of_lt h1 hu)
      (lt_of_le_of_lt h2 hpk) h3
  unfold packedNext
  rw [hAr.res, hAr.status, hframe, hposr, hpos]
  rcases hres with ⟨j, hj, hres⟩ | hres
  · have hwrote : ∀ frame, Phase ⟨frame, res.p⟩ ⟨frame, res'.p⟩ →
        Wrote d d' dicLimit ⟨frame, res.p⟩ ⟨frame, res'.p⟩ := fun frame =>
      h.step (hF frame) (hF' frame) rfl
    have hnext := hphase (d.frame.unpackSize - (res.p.dicPos - d.decoder.dicPos))
      (d.frame.packSize - j) (Nat.sub_le _ _) (Nat.sub_le _ _) (by omega)
    simp only [hres]
    split_ifs with h1 h2 h3 h4
    · exact h.corrupt (hF _) (hF' _) rfl
    · exact ⟨hwrote _ hnext, rfl, rfl⟩
    · exact h.corrupt (hF _) (hF' _) rfl
    · -- the chunk is closed
      rw [not_or, not_or, not_not, not_not, not_not] at h4
      obtain ⟨hst, (hzero : d.frame.unpackSize - (res.p.dicPos - d.decoder.dicPos) = 0), -⟩ := h4
      have horg' : org < len + res.p.dicPos := by omega
      obtain ⟨r, hB, h0⟩ := between_of_body hAr.p (hmaybe j hres hst) hroomr hroomr' horg'
      refine ⟨rfl, ?_, hwrote _ (.header hB (.control rfl (hneed.trans h0.symm) hzero))⟩
      omega
    · exact ⟨rfl, by omega, hwrote _ hnext⟩
  · simp only [hres]
    exact ⟨h.step (hF d.frame) (hF' d.frame) rfl (hphase d.frame.unpackSize
      d.frame.packSize le_rfl le_rfl (by omega)), rfl, rfl⟩

theorem Wrote.from {d₁ d₁' : Lzma2Decoder} {new : List UInt8} (h : Wrote d₁ d₁' dicLimit e e')
    (hf : Frame2 d dicLimit new d₁) (hf' : Frame2 d' dicLimit new d₁') :
    Wrote d d' dicLimit e e' := by
  obtain ⟨new₁, h₁, h₂⟩ := h.new
  exact ⟨h.alike, new ++ new₁, hf.trans h₁, hf'.trans h₂⟩

theorem Turn2.Alike.from {d₁ d₁' : Lzma2Decoder} {size : ℕ} {turn turn' : Turn2}
    (h : turn.Alike d₁ d₁' dicLimit size turn') (hf : Frame2 d dicLimit [] d₁)
    (hf' : Frame2 d' dicLimit [] d₁') : turn.Alike d d' dicLimit size turn' := by
  cases turn with
  | stop r =>
      cases turn' with
      | stop r' => exact ⟨h.wrote.from hf hf', h.status, h.res⟩
      | again => exact h.elim
  | again e m =>
      cases turn' with
      | stop => exact h.elim
      | again e' m' => exact ⟨h.1, h.2.1, h.2.2.from hf hf'⟩

theorem initDicAndState_remain (p q : LzmaDec) (initDic initState : Bool) :
    (q.initDicAndState initDic initState).remainLen =
      (p.initDicAndState initDic initState).remainLen ∧
    (p.initDicAndState initDic initState).tempBufSize = 0 ∧
    (p.initDicAndState initDic initState).remainLen ≠ kMatchSpecLenStart := by
  have hspec := specLen
  have h1 : kMatchSpecLenStart + 1 ≠ kMatchSpecLenStart := by omega
  have h2 : kMatchSpecLenStart + 2 ≠ kMatchSpecLenStart := by omega
  cases initDic <;> cases initState <;> exact ⟨rfl, rfl, by assumption⟩

/-- Whether the two stand at one place once the resets of a packed chunk are done. -/
theorem opened_alike (h : d.Alike d') (hI : Idle d.decoder r) (hI' : Idle d'.decoder r)
    (hK : d.frame.control < 0xA0 → Kept d.decoder r ∧ Kept d'.decoder r) :
    ∃ len, LzmaDec.Alike len d.decoder.dicPos
      (d.decoder.initDicAndState (decide (0xE0 ≤ d.frame.control))
        (decide (0xA0 ≤ d.frame.control)))
      (d'.decoder.initDicAndState (decide (0xE0 ≤ d.frame.control))
        (decide (0xA0 ≤ d.frame.control))) := by
  have hb := hI.initPacked fun hlt => (hK hlt).1
  have hb' := hI'.initPacked fun hlt => (hK hlt).2
  generalize decide (0xE0 ≤ d.frame.control) = initDic at hb hb' ⊢
  generalize decide (0xA0 ≤ d.frame.control) = initState at hb hb' ⊢
  obtain ⟨h1, h2, h3, -⟩ := initDicAndState_same d.decoder initDic initState
  obtain ⟨h1', h2', h3', -⟩ := initDicAndState_same d'.decoder initDic initState
  obtain ⟨hrem, hz, hne⟩ := initDicAndState_remain d.decoder d'.decoder initDic initState
  obtain ⟨-, hz', -⟩ := initDicAndState_remain d'.decoder d.decoder initDic initState
  exact ⟨_, ⟨h1'.trans (hI'.prop.trans (hI.prop.symm.trans h1.symm)),
    h2'.trans (h.size.trans h2.symm), h3'.trans (h.pos.trans h3.symm), hrem, hz'.trans hz.symm,
    fun h0 => absurd h0 hne⟩, .live (.header hb) (.header hb') (by rw [h3])⟩

theorem turnLimit_alike (h : d.Alike d') : d'.turnLimit dicLimit = d.turnLimit dicLimit := by
  unfold Lzma2Decoder.turnLimit
  rw [h.pos, h.frame]

theorem dicTurn_alike (mode : FinishMode) (h : d.Alike d') (hn : n ≤ src.length)
    (hl : d.decoder.dicPos ≤ dicLimit) (hls : dicLimit ≤ d.decoder.dicBufSize) :
    ∃ turn turn', dicTurn d dicLimit src mode n = .ok turn ∧
      dicTurn d' dicLimit src mode n = .ok turn' ∧ turn.Alike d d' dicLimit src.length turn' := by
  have hl' : d'.decoder.dicPos ≤ dicLimit := h.pos ▸ hl
  have hstate := h.state
  have hpos := h.pos
  by_cases herr : d.frame.state = .error
  · unfold dicTurn
    rw [if_pos herr, if_pos (hstate.trans herr)]
    exact ⟨_, _, rfl, rfl, h.corrupt (.refl hl) (.refl hl') (h.frame_eq (by rw [herr]; decide))⟩
  by_cases hfin : d.frame.state = .finished
  · unfold dicTurn
    rw [hstate, if_neg herr, if_neg herr, if_pos hfin, if_pos hfin]
    exact ⟨_, _, rfl, rfl, .refl h hl, rfl, rfl⟩
  by_cases hany : d.decoder.dicPos = dicLimit ∧ mode = .any
  · unfold dicTurn
    rw [hstate, hpos, if_neg herr, if_neg herr, if_neg hfin, if_neg hfin, if_pos hany, if_pos hany]
    exact ⟨_, _, rfl, rfl, .refl h hl, rfl, rfl⟩
  have hany' : ¬ (d'.decoder.dicPos = dicLimit ∧ mode = .any) := hpos ▸ hany
  obtain ⟨-, hroom, ho⟩ := turnLimit_spec (d := d) hl
  cases h.phase with
  | header hB hH =>
      obtain ⟨h1, h2⟩ := hH.state_header
      unfold dicTurn
      rw [hstate, hpos, if_neg herr, if_neg herr, if_neg hfin, if_neg hfin, if_neg hany,
        if_neg hany, if_pos ⟨h1, h2⟩, if_pos ⟨h1, h2⟩]
      exact headerTurn_alike h hB hH hn hl
  | stored hB hs hc hneed hpos hlt =>
      have hcu := stored_control hc
      rw [dicTurn_data hs hany hn hl, dicTurn_data (hstate ▸ hs) hany' hn hl', turnLimit_alike h,
        h.frame_eq (by rcases hs with hs | hs <;> rw [hs] <;> decide), if_pos hcu, if_pos hcu]
      exact storedTurn_alike h hB hs hc hneed hlt hn hl hls ho hroom
  | opened hI hI' hK hopen hc hneed hpk =>
      have hs := hopen.state
      have hframe := h.frame_eq (by rw [hs]; decide)
      have hcf : ¬ isUncompressedState d.frame.control = true := by rw [hc]; decide
      obtain ⟨len, hA⟩ := opened_alike h hI hI' hK
      rw [dicTurn_data (.inl hs) hany hn hl, dicTurn_data (.inl (hstate.trans hs)) hany' hn hl',
        turnLimit_alike h, hframe, if_neg hcf, if_neg hcf, packedTurn_data hs,
        packedTurn_data (hstate.trans hs), hframe]
      have hf : ∀ frame, Frame2 d dicLimit [] ⟨frame, d.decoder.initDicAndState
          (decide (0xE0 ≤ d.frame.control)) (decide (0xA0 ≤ d.frame.control))⟩ :=
        fun _ => .init _ _ _ hl
      have hf' : ∀ frame, Frame2 d' dicLimit [] ⟨frame, d'.decoder.initDicAndState
          (decide (0xE0 ≤ d.frame.control)) (decide (0xA0 ≤ d.frame.control))⟩ :=
        fun _ => .init _ _ _ hl'
      obtain ⟨h1, h2, h3, -, h5⟩ := initDicAndState_same d.decoder (decide (0xE0 ≤ d.frame.control))
        (decide (0xA0 ≤ d.frame.control))
      obtain ⟨-, -, -, -, h5'⟩ := initDicAndState_same d'.decoder
        (decide (0xE0 ≤ d.frame.control)) (decide (0xA0 ≤ d.frame.control))
      generalize d.decoder.initDicAndState (decide (0xE0 ≤ d.frame.control))
        (decide (0xA0 ≤ d.frame.control)) = p at hA hf h1 h2 h3 h5 ⊢
      generalize d'.decoder.initDicAndState (decide (0xE0 ≤ d.frame.control))
        (decide (0xA0 ≤ d.frame.control)) = q at hA hf' h5' ⊢
      have hupos := hopen.unpack_pos
      have hphase : Phase ⟨{ d.frame with state := .dataCont }, p⟩
          ⟨{ d.frame with state := .dataCont }, q⟩ := by
        refine .packed hA ?_ ?_ rfl hc hneed hopen.unpack_lt hpk ?_
        · rw [h5]
          exact hI.room
        · rw [h5']
          exact hI'.room
        · change d.decoder.dicPos < len + p.dicPos + d.frame.unpackSize
          omega
      obtain ⟨turn, turn', ht, ht', hturn⟩ := packedTurn_alike
        (h.step (hf _) (hf' _) rfl hphase).alike hA (by rw [h5]; exact hI.room)
        (by rw [h5']; exact hI'.room) rfl hc hneed hopen.unpack_lt hpk
        (show d.decoder.dicPos < len + p.dicPos + d.frame.unpackSize by omega) hn
        (h2.symm ▸ hls) ho (show p.dicPos + _ ≤ dicLimit by rw [h3]; exact hroom)
        (d.turnLimit dicLimit).2
      exact ⟨turn, turn', ht, ht', hturn.from (hf _) (hf' _)⟩
  | packed hA hp hp' hs hc hneed hu hpk horg =>
      have hcf : ¬ isUncompressedState d.frame.control = true := by rw [hc]; decide
      rw [dicTurn_data (.inr hs) hany hn hl, dicTurn_data (.inr (hstate.trans hs)) hany' hn hl',
        turnLimit_alike h, h.frame_eq (by rw [hs]; decide), if_neg hcf, if_neg hcf]
      exact packedTurn_alike h hA hp hp' hs hc hneed hu hpk horg hn hls ho hroom _
  | ended hs => exact absurd hs (not_or.mpr ⟨herr, hfin⟩)

/-- The loop, turn by turn. -/
theorem dicLoop_alike (mode : FinishMode) (fuel : ℕ) (h : d.Alike d') (hn : n ≤ src.length)
    (hl : d.decoder.dicPos ≤ dicLimit) (hls : dicLimit ≤ d.decoder.dicBufSize) :
    Paired (dicLoop dicLimit src mode fuel d n) (dicLoop dicLimit src mode fuel d' n)
      (Dic2Result.Alike d d' dicLimit) := by
  induction fuel generalizing d d' n with
  | zero => exact .error _
  | succ fuel ih =>
      obtain ⟨turn, turn', ht, ht', hturn⟩ := dicTurn_alike mode h hn hl hls
      rw [dicLoop, dicLoop, ht, ht', ok_bind, ok_bind]
      cases turn with
      | stop r =>
          cases turn' with
          | stop r' => exact .ok hturn
          | again => exact hturn.elim
      | again e m =>
          cases turn' with
          | stop => exact hturn.elim
          | again e' m' =>
              obtain ⟨rfl, hm, hwrote⟩ := hturn
              obtain ⟨new, hf, hf'⟩ := hwrote.new
              exact (ih hwrote.alike hm hf.pos_le (hf.size ▸ hls)).mono fun r r' hr =>
                ⟨hr.wrote.from hf hf', hr.status, hr.res⟩

theorem decodeToDic_alike (src : List UInt8) (mode : FinishMode) (h : d.Alike d')
    (hl : d.decoder.dicPos ≤ dicLimit) (hls : dicLimit ≤ d.decoder.dicBufSize) :
    Paired (d.decodeToDic dicLimit src mode) (d'.decodeToDic dicLimit src mode)
      (Dic2Result.Alike d d' dicLimit) := by
  unfold Lzma2Decoder.decodeToDic
  rw [h.pos]
  exact dicLoop_alike mode _ h (Nat.zero_le _) hl hls

end
end LzmaTurbo.Lzma2
