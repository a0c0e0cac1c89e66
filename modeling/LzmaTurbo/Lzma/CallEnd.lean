import LzmaTurbo.Lzma.Header

/-!
# One call of the decoder

Turns are composed into a whole call of `lzma_dec_decode_to_dic`, from any state
a decoder can be in.
-/
namespace LzmaTurbo.Lzma
open Machine BitProgram Window
open RangeDecoder (Coder Outcome run)

section
variable {p : LzmaDec} {s : RefState} {w temp src : List UInt8} {top dicLimit n : ℕ}
  {mode : FinishMode}

theorem LzmaDec.Held.of_eq {q : LzmaDec} (h : p.Held s temp) (hprop : q.prop = p.prop)
    (hbuf : q.tempBuf = p.tempBuf) (hsize : q.tempBufSize = p.tempBufSize)
    (hidle : p.tempBufSize ≠ 0 → q.remainLen = 0) : q.Held s temp := by
  refine ⟨hsize ▸ h.temp_le, by rw [hbuf, hsize]; exact h.bytes, ?_, hsize ▸ hidle⟩
  rw [hprop, hsize]
  exact h.short

theorem LzmaDec.Held.nil (h : p.Held s temp) (hz : p.tempBufSize = 0) : temp = [] := by
  rw [← h.bytes, hz, List.take_zero]

theorem lzmaDecWriteRem_idle (h : p.remainLen = 0) : lzmaDecWriteRem p dicLimit = .ok p := if_pos h

theorem lzmaDecWriteRem_full (h : p.dicPos = dicLimit) : lzmaDecWriteRem p dicLimit = .ok p := by
  unfold lzmaDecWriteRem
  by_cases h0 : p.remainLen = 0
  · rw [if_pos h0]
  · rw [if_neg h0, h, sub_ok le_rfl, ok_bind, Nat.sub_self, if_pos (Nat.pos_of_ne_zero h0)]
    rfl

/-- One turn between two symbols; nothing is decoded while a match is owed at the limit. -/
theorem decodeTurn_end (mode : FinishMode) (h : p.Core s w) (hh : p.Held s temp) (hn : n ≤ src.length)
    (hl : p.dicPos ≤ dicLimit) (hls : dicLimit ≤ p.dicBufSize)
    (htop : top + p.dicPos = w.length + dicLimit) :
    ∃ turn, decodeTurn p dicLimit src mode n (src.length - n) n = .ok turn ∧
      TurnEnd p w s (temp ++ src.drop n) src top dicLimit mode turn ∧
      (p.dicPos = dicLimit → p.remainLen ≠ 0 → ∃ r, turn = .stop r) := by
  have hspec := specLen
  have hrem := h.remain_le
  obtain ⟨q, k, hq, hcore, hpos, hle, hdone, hprop, hsize, hbuf, hbufSize, hprobs, hkeeps, hgo⟩ :=
    lzmaDecWriteRem_core h hl hls
  have howe := hcore.owes.hist
  have hgrown : Grown p w q (copyBack p.reps.rep0 k w) := by
    unfold Grown
    rw [length_copyBack]
    omega
  generalize copyBack p.reps.rep0 k w = w' at hcore howe hgrown
  have hidle : p.tempBufSize ≠ 0 → q = p := fun h0 => by
    rw [lzmaDecWriteRem_idle (hh.idle h0), Except.ok.injEq] at hq
    exact hq.symm
  have hkept : q.tempBufSize ≠ 0 → p.tempBufSize ≠ 0 ∧ p.code = q.code ∧ q.dicPos = p.dicPos := by
    intro h0
    rw [hbufSize] at h0
    exact ⟨h0, by rw [hidle h0], by rw [hidle h0]⟩
  have hframe : DicFrame p dicLimit q := ⟨hprop, hsize, by rw [hprobs], by omega, hle, hkeeps⟩
  have hheld := hh.of_eq hprop hbuf hbufSize fun h0 => by
    rw [hidle h0]
    exact hh.idle h0
  unfold decodeTurn
  rw [if_neg (by omega), hq, ok_bind]
  by_cases hmaybe : dicLimit ≤ q.dicPos ∧ q.remainLen = 0 ∧ q.code = 0
  · rw [if_pos hmaybe]
    obtain ⟨hat, hr, hcode⟩ := hmaybe
    obtain rfl := hcore.written hr
    refine ⟨_, rfl, .stop _ (.maybe n s temp rfl hn rfl (.refl _ _) ?_ hgrown ?_ ?_ ?_) hframe,
      fun _ _ => ⟨_, rfl⟩⟩
    · exact .body hcore hheld
    · change q.dicPos = _
      omega
    · rw [← hcore.code, hcode]
    · by_cases hz : p.tempBufSize = 0
      · exact .inl (hh.nil hz)
      · refine .inr ⟨hz, ?_, ?_⟩
        · rw [← hidle hz, hcode]
        · change q.dicPos = _
          rw [hidle hz]
  · rw [if_neg hmaybe]
    by_cases hany : dicLimit ≤ q.dicPos ∧ mode = .any
    · rw [if_pos hany]
      refine ⟨_, rfl, .stop _ (.notFinished n _ temp _ rfl hn rfl hany.2 (.refl _ _)
        (.body hcore hheld) hgrown ?_) hframe, fun _ _ => ⟨_, rfl⟩⟩
      change q.dicPos = _
      omega
    · rw [if_neg hany]
      have hmode : dicLimit ≤ q.dicPos → mode = .endMark := by
        intro hat
        cases mode with
        | any => exact absurd ⟨hat, rfl⟩ hany
        | endMark => rfl
      by_cases howed : dicLimit ≤ q.dicPos ∧ q.remainLen ≠ 0
      · rw [if_pos howed]
        refine ⟨_, rfl, .stop _ (.past _ temp (src.drop n) _ rfl (hmode howed.1) rfl (.refl _ _)
          (.body hcore hheld) hgrown ?_ (.inl fun he => ?_)) hframe, fun _ _ => ⟨_, rfl⟩⟩
        · change q.dicPos = _
          omega
        · have h1 := congrArg List.length howe
          have h2 : q.regs.len = q.remainLen := rfl
          rw [length_copyBack, he, h2] at h1
          omega
      · rw [if_neg howed]
        have hr : q.remainLen = 0 := by omega
        obtain rfl := hcore.written hr
        have hmode' : dicLimit ≤ q.dicPos → mode = .endMark ∧ q.code ≠ 0 := fun hat =>
          ⟨hmode hat, fun h0 => hmaybe ⟨hat, hr, h0⟩⟩
        have htop' : top + q.dicPos = s.hist.length + dicLimit := by
          unfold Grown at hgrown
          omega
        have hstop : p.dicPos = dicLimit → p.remainLen ≠ 0 → False := by
          intro hat hne
          rw [lzmaDecWriteRem_full hat, Except.ok.injEq] at hq
          exact hne (hq ▸ hr)
        by_cases hz : q.tempBufSize = 0
        · rw [if_pos hz]
          obtain ⟨turn, ht1, ht2⟩ := decodeFromSrc_end hcore hr hz hn hle (hsize ▸ hls) hmode'
            htop'
          obtain rfl := hheld.nil hz
          exact ⟨turn, ht1, ht2.trans hframe hgrown hkept, fun h1 h2 => (hstop h1 h2).elim⟩
        · rw [if_neg hz]
          obtain ⟨turn, ht1, ht2⟩ := decodeFromTemp_end hcore hr hheld hn hle (hsize ▸ hls)
            hmode' htop'
          exact ⟨turn, ht1, ht2.trans hframe hgrown hkept, fun h1 h2 => (hstop h1 h2).elim⟩

theorem LzmaDec.held_nil (hz : p.tempBufSize = 0) : p.Held s [] :=
  ⟨by omega, by rw [hz, List.take_zero], fun k hk => absurd hk (by omega), fun h => absurd hz h⟩

/-- The turn after an end marker only looks at the range code. -/
theorem decodeTurn_marked (top dicLimit : ℕ) (mode : FinishMode) {d : Coder ℕ}
    {ys : List UInt8} {len : ℕ} (h : p.Marked s d)
    (hn : n ≤ src.length)
    (hf : (run (symbolProg (s.ctx p.prop)) s.coder ys).flush =
      .done (.simple 0xFFFFFFFF len) d (src.drop n)) :
    ∃ r, decodeTurn p dicLimit src mode n (src.length - n) n = .ok (.stop r) ∧
      DicEnd p s.hist (.body s) ys src top dicLimit mode r ∧ r.p = p := by
  unfold decodeTurn
  rw [if_pos h.remain, h.code]
  by_cases hc : d.code = 0
  · rw [if_neg (not_not.mpr hc)]
    refine ⟨_, rfl, .mark n s { s with coder := d } ys d rfl hn rfl (.refl _ _) ?_ h hc rfl, rfl⟩
    simp only [RefState.step, hf, applySymbol, if_pos hc, Effect.leaving, if_true]
  · rw [if_pos hc]
    refine ⟨_, rfl, .reject (.body s) ys rfl (.refl _ _) ?_ (.inl (.marked h)) h.toWindow rfl, rfl⟩
    simp only [Config.step, RefState.step, hf, applySymbol, if_neg hc, Effect.leaving, if_true]

/-- The main loop, on enough fuel: each turn writes a byte or is the last but one. -/
theorem decodeMain_end (mode : FinishMode) (fuel : ℕ) (h : p.Core s w) (hh : p.Held s temp)
    (hn : n ≤ src.length)
    (hl : p.dicPos ≤ dicLimit) (hls : dicLimit ≤ p.dicBufSize)
    (hfuel : (p.dicPos = dicLimit ∧ p.remainLen ≠ 0 ∧ 1 ≤ fuel) ∨
      dicLimit - p.dicPos + 2 ≤ fuel) (htop : top + p.dicPos = w.length + dicLimit) :
    ∃ r, decodeMain dicLimit src mode fuel p n (src.length - n) n = .ok r ∧
      DicEnd p w (.body s) (temp ++ src.drop n) src top dicLimit mode r ∧
      DicFrame p dicLimit r.p := by
  induction fuel generalizing p s w temp n with
  | zero => omega
  | succ fuel ih =>
      obtain ⟨turn, ht, hend, hfull⟩ := decodeTurn_end mode h hh hn hl hls htop
      rw [decodeMain, ht, ok_bind]
      cases hend with
      | stop r hr hframe => exact ⟨r, rfl, hr, hframe⟩
      | again q m s' w' hm hmv hcore htemp hgrown hframe hprog =>
          have hroom : ¬ (p.dicPos = dicLimit ∧ p.remainLen ≠ 0) := fun hc => by
            obtain ⟨r, hr⟩ := hfull hc.1 hc.2
            cases hr
          have hle := hframe.pos_le
          obtain ⟨r, hr, hend', hframe'⟩ := ih hcore (LzmaDec.held_nil htemp) hm hle
            (hframe.dicBufSize ▸ hls) (by omega) (by unfold Grown at hgrown; omega)
          exact ⟨r, hr, hend'.from hframe.prop hmv hgrown fun h0 => absurd htemp h0,
            hframe.trans hframe'⟩
      | marked q m s' ys d len hm hmv hf hmk hz hgrown hframe =>
          obtain ⟨r, hr, hend', hp⟩ := decodeTurn_marked top dicLimit mode
            hmk hm (hframe.prop ▸ hf)
          have hroom : ¬ (p.dicPos = dicLimit ∧ p.remainLen ≠ 0) := fun hc => by
            obtain ⟨r, hr⟩ := hfull hc.1 hc.2
            cases hr
          obtain ⟨fuel, rfl⟩ : ∃ f, fuel = f + 1 := ⟨fuel - 1, by omega⟩
          refine ⟨r, ?_, hend'.from hframe.prop hmv hgrown fun h0 => absurd hz h0, hp ▸ hframe⟩
          change decodeMain dicLimit src mode (fuel + 1) q m (src.length - m) m = _
          rw [decodeMain, hr]
          rfl

theorem LzmaDec.Before.withTemp (h : p.Before s temp) {T : List UInt8} {tempBuf : Array UInt8}
    {tempBufSize : ℕ} (hs : tempBuf.size = p.tempBuf.size) (hle : tempBufSize ≤ rcInitSize)
    (ht : tempBuf.toList.take tempBufSize = T) (code : ℕ) :
    ({ p with tempBuf, tempBufSize, code } : LzmaDec).Before s T :=
  ⟨⟨h.pos_le, h.size_le, h.size_lt, h.probs, hs.trans h.tempBuf_size⟩,
    ⟨h.holds, h.fits, h.processed, h.check⟩, h.remain, h.fresh, h.kept, h.base, hle, ht⟩

/-- The decoder once the range coder is started. -/
def LzmaDec.started (p : LzmaDec) (code : ℕ) : LzmaDec :=
  let p := { p with code, range := 0xFFFFFFFF, tempBufSize := 0 }
  let p := if kMatchSpecLenStart + 1 < p.remainLen then p.resetState else p
  { p with remainLen := 0 }

theorem started_frame (code : ℕ) (hl : p.dicPos ≤ dicLimit) : (p.started code).dicPos = p.dicPos ∧
    (p.started code).tempBufSize = 0 ∧ DicFrame p dicLimit (p.started code) := by
  simp only [LzmaDec.started]
  split
  · exact ⟨rfl, rfl, rfl, rfl, Array.size_ofFn, le_rfl, hl, .refl _ _⟩
  · exact ⟨rfl, rfl, rfl, rfl, rfl, le_rfl, hl, .refl _ _⟩

theorem LzmaDec.Before.nil (h : p.Before s temp) (hn : s.hist = []) : s = freshState [] := by
  rcases h.remain with hr | hr
  · exact absurd hn (h.kept hr).2.2.2
  · rw [h.fresh hr, hn]

theorem LzmaDec.Before.started (h : p.Before s temp) (b1 b2 b3 b4 : UInt8)
    (hc : s.hist = [] → (s.start b1 b2 b3 b4).coder.code < kBadRepCode) :
    (p.started (s.start b1 b2 b3 b4).coder.code).Core (s.start b1 b2 b3 b4) s.hist := by
  have hspec := specLen
  have hbegun : (s.start b1 b2 b3 b4).Begun p.prop :=
    start_begun h.base h.nil hc
  simp only [LzmaDec.started]
  rcases h.remain with hr | hr
  · obtain ⟨hreps, hstate, htable, -⟩ := h.kept hr
    rw [if_neg (by omega)]
    exact ⟨⟨h.pos_le, h.size_le, h.size_lt, h.probs, h.tempBuf_size⟩,
      ⟨h.holds, h.fits, h.processed, h.check⟩,
      ⟨h.holds, h.fits, h.processed, hstate, hreps, rfl, fun h0 => absurd h0 (lt_irrefl 0)⟩,
      Nat.zero_le _, rfl, rfl, htable, hbegun⟩
  · have hfresh := h.fresh hr
    rw [if_pos (by omega)]
    refine ⟨⟨h.pos_le, h.size_le, h.size_lt, ?_, h.tempBuf_size⟩,
      ⟨h.holds, h.fits, h.processed, h.check⟩,
      ⟨h.holds, h.fits, h.processed, ?_, ?_, rfl, fun h0 => absurd h0 (lt_irrefl 0)⟩,
      Nat.zero_le _, rfl, rfl, ?_, hbegun⟩
    · simp only [LzmaDec.resetState, Array.size_ofFn]
      exact h.probs
    · rw [hfresh]
      rfl
    · rw [hfresh]
      rfl
    · rw [hfresh]
      exact resetState_table h.probs s.hist

theorem Config.step_short {prop : LzmaProps} {b : UInt8} (hb : b = 0) {T : List UInt8}
    (h : T.length < 4) : (Config.header s).step prop (b :: T) = .more := by
  have hb0 : ¬ b ≠ 0 := not_not.mpr hb
  match T, h with
  | [], _ => exact if_neg hb0
  | [_], _ => exact if_neg hb0
  | [_, _], _ => exact if_neg hb0
  | [_, _, _], _ => exact if_neg hb0
  | _ :: _ :: _ :: _ :: _, h => exact absurd h (by simp only [List.length_cons]; omega)

theorem eq_four {α : Type} {l : List α} (h : l.length = 4) : ∃ a b c d, l = [a, b, c, d] := by
  match l, h with
  | [a, b, c, d], _ => exact ⟨a, b, c, d, rfl⟩

/-- A call that finds the range coder not yet started. -/
theorem lzmaDecDecodeToDic_header (h : p.Before s temp) (hl : p.dicPos ≤ dicLimit)
    (hls : dicLimit ≤ p.dicBufSize) (htop : top + p.dicPos = s.hist.length + dicLimit) :
    ∃ r, lzmaDecDecodeToDic p dicLimit src mode = .ok r ∧
      DicEnd p s.hist (.header s) (temp ++ src) src top dicLimit mode r ∧
      DicFrame p dicLimit r.p := by
  have hspec := specLen
  have hsize := h.tempBuf_size
  have hle := h.temp_le
  have hrem := h.remain
  obtain ⟨temp', a, hf1, hf2, hf3, hf4, hf5, hf6⟩ := fillTemp_spec rcInitSize
    src p.tempBuf p.tempBufSize 0 (by omega) hle
  rw [h.bytes] at hf6
  obtain ⟨T, hT⟩ : ∃ T, T = temp ++ src.take a := ⟨_, rfl⟩
  rw [← hT] at hf6
  have hTlen : T.length = p.tempBufSize + a := by
    rw [← hf6, List.length_take, Array.length_toList]
    omega
  have hX : temp ++ src = T ++ src.drop a := by
    rw [hT, List.append_assoc, List.take_append_drop]
  obtain ⟨b, hb, hhead⟩ : ∃ b, get temp' 0 = .ok b ∧ ∀ b' T', T = b' :: T' → b' = b := by
    have h0 : 0 < temp'.size := by omega
    refine ⟨temp'[0], get_ok (Array.getElem?_eq_getElem h0), fun b' T' hcons => ?_⟩
    have hget : get temp' 0 = .ok b' := get_of_take (hf6.trans hcons) rfl
    rw [get_ok (Array.getElem?_eq_getElem h0), Except.ok.injEq] at hget
    exact hget.symm
  simp only [lzmaDecDecodeToDic, hf1, ok_bind, hb, zero_add]
  rw [if_pos (by omega), if_neg (by omega)]
  have hlive : ∀ code, LzmaDec.At
      { p with tempBuf := temp', tempBufSize := p.tempBufSize + a, code } (.header s) T s.hist :=
    fun code => .header (h.withTemp hf5 hf3 hf6 code)
  have hopen : Config.Open top (.header s) := by
    change s.hist.length ≤ top
    omega
  have hnot : ∀ s', Config.header s = .body s' → p.dicPos = dicLimit →
      s'.coder.code ≠ 0 := by
    intro s' he
    cases he
  have hkeep : ∀ code, DicFrame p dicLimit
      { p with tempBuf := temp', tempBufSize := p.tempBufSize + a, code } :=
    fun code => ⟨rfl, rfl, rfl, le_rfl, hl, .refl _ _⟩
  rw [hX]
  match T, hTlen, hf6, hlive, hhead with
  | [], hlen, hf6, hlive, hhead =>
      rw [List.length_nil] at hlen
      rw [if_neg (by omega), if_pos (by omega), List.drop_eq_nil_of_le (by omega)]
      refine ⟨_, rfl, .more (.header s) [] ?_ rfl (.refl _ _) (hlive p.code) rfl rfl hnot,
        hkeep p.code⟩
      change Except.ok a = _
      congr 1
      omega
  | b0 :: T', hlen, hf6, hlive, hhead =>
      rw [List.length_cons] at hlen
      obtain rfl := hhead b0 T' rfl
      by_cases hb0 : b0 ≠ 0
      · rw [if_pos ⟨by omega, hb0⟩]
        refine ⟨_, rfl, .reject (.header s) _ rfl (.refl _ _) (if_pos hb0)
          (.inr ⟨s, _, rfl, hlive p.code⟩)
          (h.withTemp hf5 hf3 hf6 p.code).toWindow rfl, hkeep p.code⟩
      · rw [if_neg (fun hc => hb0 hc.2)]
        by_cases hshort : p.tempBufSize + a < rcInitSize
        · rw [if_pos hshort, List.drop_eq_nil_of_le (by omega), List.append_nil]
          refine ⟨_, rfl, .more (.header s) (b0 :: T') ?_ rfl (.refl _ _) (hlive p.code) rfl ?_ hnot,
            hkeep p.code⟩
          · change Except.ok a = _
            congr 1
            omega
          · exact Config.step_short (not_not.mp hb0) (by omega)
        · rw [if_neg hshort]
          obtain ⟨b1, b2, b3, b4, rfl⟩ := eq_four (show T'.length = 4 by omega)
          have hfive : p.tempBufSize + a = 5 := by
            simp only [List.length_cons, List.length_nil] at hlen
            omega
          have hstep : (Config.header s).step p.prop ([b0, b1, b2, b3, b4] ++ src.drop a) =
              .next (.body (s.start b1 b2 b3 b4)) (src.drop a) := if_neg hb0
          rw [hfive] at hf6
          rw [headerCode_spec (s := s) hf6, ok_bind]
          by_cases hrep : p.checkDicSize = 0 ∧ p.processedPos = 0 ∧
              kBadRepCode ≤ (s.start b1 b2 b3 b4).coder.code
          · rw [if_pos hrep]
            obtain ⟨hcheck, hproc, hcode⟩ := hrep
            rw [h.check] at hcheck
            rw [h.processed] at hproc
            have hnil : s.hist = [] := List.eq_nil_of_length_eq_zero
              (position_zero.mp ⟨hproc, hcheck⟩)
            exact ⟨_, rfl, .reject (.body (s.start b1 b2 b3 b4)) _ rfl (.single hopen hstep)
              (start_reject (h.nil hnil) hcode _) (.inr ⟨s, _, rfl, hlive _⟩)
              (h.withTemp hf5 hf3 rfl _).toWindow rfl, hkeep _⟩
          · rw [if_neg hrep, sub_ok hf2, ok_bind]
            have hq := (h.withTemp hf5 hf3 rfl p.code).started b1 b2 b3 b4 (fun hn => by
                by_contra hc
                refine hrep ⟨?_, ?_, by omega⟩
                · rw [h.check, hn]
                  exact (position_zero.mpr rfl).2
                · rw [h.processed, hn]
                  rfl)
            obtain ⟨hpos, hzero, hframe⟩ := started_frame
              (p := { p with tempBuf := temp', tempBufSize := p.tempBufSize + a })
              (s.start b1 b2 b3 b4).coder.code hl
            obtain ⟨r, hr, hend, hframe'⟩ := decodeMain_end mode (dicLimit - p.dicPos + 3)
              hq (LzmaDec.held_nil hzero) hf2 hframe.pos_le (hls.trans_eq hframe.dicBufSize.symm)
              (.inr (by rw [hpos]; exact Nat.le_succ (dicLimit - p.dicPos + 2)))
              (by rw [hpos]; exact htop)
            exact ⟨r, hr, hend.from hframe.prop (.single hopen hstep) (by rw [Grown, hpos])
              (fun h0 => absurd hzero h0),
              (hkeep p.code).trans (hframe.trans hframe')⟩

/-- A call from any position of the reference. -/
theorem lzmaDecDecodeToDic_at (src : List UInt8) (mode : FinishMode) {c : Config}
    (h : p.At c temp w) (hl : p.dicPos ≤ dicLimit)
    (hls : dicLimit ≤ p.dicBufSize) (htop : top + p.dicPos = w.length + dicLimit) :
    ∃ r, lzmaDecDecodeToDic p dicLimit src mode = .ok r ∧
      DicEnd p w c (temp ++ src) src top dicLimit mode r ∧ DicFrame p dicLimit r.p := by
  have hspec := specLen
  cases h with
  | header h => exact lzmaDecDecodeToDic_header h hl hls htop
  | body h hh =>
      have hrem := h.remain_le
      simp only [lzmaDecDecodeToDic]
      rw [if_neg (by omega)]
      exact decodeMain_end mode _ h hh (Nat.zero_le _) hl hls (.inr (Nat.le_succ _)) htop

/-- After an end marker a call reports it again, or the code it came with. -/
theorem lzmaDecDecodeToDic_marked (dicLimit : ℕ) (src : List UInt8) (mode : FinishMode)
    {d : Coder ℕ} (h : p.Marked s d) :
    ∃ r, lzmaDecDecodeToDic p dicLimit src mode = .ok r ∧ r.p = p ∧
      ((p.code = 0 ∧ r.res = .ok 0 ∧ r.status = .finishedWithMark) ∨
        (p.code ≠ 0 ∧ r.res = .error .corruptData ∧ r.status = .notSpecified)) := by
  have hrem := h.remain
  simp only [lzmaDecDecodeToDic, decodeMain, decodeTurn]
  rw [if_neg (by omega), if_pos hrem]
  by_cases hc : p.code = 0
  · rw [if_neg (not_not.mpr hc)]
    exact ⟨_, rfl, rfl, .inl ⟨hc, rfl, rfl⟩⟩
  · rw [if_pos hc]
    exact ⟨_, rfl, rfl, .inr ⟨hc, rfl, rfl⟩⟩

theorem lzmaDecDecodeToDic_failed (dicLimit : ℕ) (src : List UInt8) (mode : FinishMode)
    (h : p.remainLen = kMatchSpecLenErrorData) :
    ∃ r, lzmaDecDecodeToDic p dicLimit src mode = .ok r ∧ r.p = p ∧
      r.res = .error .corruptData ∧ r.status = .notSpecified := by
  have hspec := specLen
  simp only [lzmaDecDecodeToDic]
  rw [if_pos (by omega), if_pos (by omega), if_neg (by omega)]
  exact ⟨_, rfl, rfl, rfl, rfl⟩

theorem DicEnd.sound {c : Config} {X : List UInt8} {r : DicResult}
    (h : DicEnd p w c X src top dicLimit mode r) : r.p.Sound ∧
      ((∃ n ≤ src.length, r.res = .ok n) ∨ r.res = .error .corruptData) := by
  cases h with
  | more c' temp hres hst hmv hat => exact ⟨.live hat, .inl ⟨_, le_rfl, hres⟩⟩
  | notFinished n c' temp w hres hn hst hmode hmv hat => exact ⟨.live hat, .inl ⟨n, hn, hres⟩⟩
  | maybe n s temp hres hn hst hmv hat => exact ⟨.live hat, .inl ⟨n, hn, hres⟩⟩
  | mark n s s' ys d hres hn hst hmv hstep hmk =>
      exact ⟨.dead (.marked hmk), .inl ⟨n, hn, hres⟩⟩
  | reject c' ys hres hmv hstep hs hw =>
      rcases hs with hd | ⟨s, temp, -, hat⟩
      · exact ⟨.dead hd, .inr hres⟩
      · exact ⟨.live hat, .inr hres⟩
  | past s temp rest w hres hmode hst hmv hat => exact ⟨.live hat, .inr hres⟩

/-- After an error or an end marker a call changes nothing and decodes nothing. -/
theorem lzmaDecDecodeToDic_dead (dicLimit : ℕ) (src : List UInt8) (mode : FinishMode)
    (h : p.Dead) :
    ∃ r, lzmaDecDecodeToDic p dicLimit src mode = .ok r ∧ r.p = p ∧
      (r.res = .ok 0 ∧ r.status = .finishedWithMark ∨ r.res = .error .corruptData) := by
  cases h with
  | marked h =>
      obtain ⟨r, hr, hp, hres⟩ := lzmaDecDecodeToDic_marked dicLimit src mode h
      exact ⟨r, hr, hp, hres.imp (fun h => h.2) fun h => h.2.1⟩
  | failed hshape hwin hrem =>
      obtain ⟨r, hr, hp, hres, -⟩ := lzmaDecDecodeToDic_failed dicLimit src mode hrem
      exact ⟨r, hr, hp, .inr hres⟩

/-- From any state a decoder can be in, a call returns, leaves such a state, and
fails only on the input. -/
theorem lzmaDecDecodeToDic_sound (src : List UInt8) (mode : FinishMode) (h : p.Sound) (hl : p.dicPos ≤ dicLimit)
    (hls : dicLimit ≤ p.dicBufSize) : ∃ r, lzmaDecDecodeToDic p dicLimit src mode = .ok r ∧
      r.p.Sound ∧ DicFrame p dicLimit r.p ∧
      ((∃ n ≤ src.length, r.res = .ok n) ∨ r.res = .error .corruptData) := by
  have hsame : DicFrame p dicLimit p := ⟨rfl, rfl, rfl, le_rfl, hl, .refl _ _⟩
  cases h with
  | @live c temp w h =>
      obtain ⟨r, hr, hend, hframe⟩ := lzmaDecDecodeToDic_at src mode h hl hls
        (show w.length + (dicLimit - p.dicPos) + p.dicPos = _ by omega)
      exact ⟨r, hr, hend.sound.1, hframe, hend.sound.2⟩
  | dead h =>
      obtain ⟨r, hr, hp, hres⟩ := lzmaDecDecodeToDic_dead dicLimit src mode h
      exact ⟨r, hr, hp ▸ .dead h, hp ▸ hsame, hres.imp_left fun h => ⟨0, Nat.zero_le _, h.1⟩⟩

end
end LzmaTurbo.Lzma
