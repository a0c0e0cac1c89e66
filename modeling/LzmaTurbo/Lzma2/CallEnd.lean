import LzmaTurbo.Lzma2.PackedTurns

/-!
# One call of the LZMA2 decoder

Turns are composed into a whole call of `decode_to_dic`, from any state a
decoder can be in.
-/
namespace LzmaTurbo.Lzma2
open Machine Lzma StreamMachine Window

section
variable {d d₁ : Lzma2Decoder} {pos : Pos} {held out src temp w X : List UInt8} {c : Config}
  {r : Ref2} {dicLimit n : ℕ} {mode : FinishMode}

theorem Dic2End.from {new₁ out₁ held₁ Y : List UInt8} {pos₁ : Pos} {res : Dic2Result}
    (hf : Frame2 d dicLimit new₁ d₁) (hout : out₁ = new₁.reverse ++ out)
    (hm : Exact pos held out → Moves2 pos X pos₁ Y ∧ Exact pos₁ held₁ out₁)
    (h : Dic2End d₁ pos₁ held₁ out₁ Y src dicLimit mode res) :
    Dic2End d pos held out X src dicLimit mode res := by
  subst hout
  obtain ⟨new, hframe, hsound, hres, hend⟩ := h
  have hrev : new.reverse ++ (new₁.reverse ++ out) = (new₁ ++ new).reverse ++ out := by
    rw [List.reverse_append, List.append_assoc]
  refine ⟨new₁ ++ new, hf.trans hframe, hsound, hres, fun hx => ?_⟩
  obtain ⟨hm, hx₁⟩ := hm hx
  cases hend hx₁ with
  | more pos' held' h1 h2 h3 h4 h5 h6 h7 =>
      rw [hrev] at h4 h5 h6
      exact .more pos' held' h1 h2 (hm.trans h3) h4 h5 h6 h7
  | full k pos' held' h1 h2 h3 h4 h5 h6 h7 h8 =>
      rw [hrev] at h7 h8
      exact .full k pos' held' h1 h2 h3 h4 h5 (hm.trans h6) h7 h8
  | finished k r' h1 h2 h3 h4 h5 h6 h7 =>
      rw [hrev] at h5 h7
      exact .finished k r' h1 h2 h3 (hm.trans h4) h5 h6 h7
  | corrupt pos' ys h1 h2 h3 => exact .corrupt pos' ys h1 (hm.trans h2) h3
  | past pos' ys h1 h2 h3 h4 h5 =>
      rw [hrev] at h5
      exact .past pos' ys h1 h2 h3 (hm.trans h4) h5

/-- A turn of a decoder that differs in nothing the caller sees. -/
theorem Turn2End.from {turn : Turn2} (hf : Frame2 d dicLimit [] d₁) (hbit : d₁.bit = d.bit)
    (h : Turn2End d₁ pos held out src n dicLimit mode turn) :
    Turn2End d pos held out src n dicLimit mode turn := by
  cases h with
  | stop res h => exact .stop res (h.from hf rfl fun hx => ⟨.refl _ _, hx⟩)
  | again d' m new pos' held' hm hframe hat hmv hle hprog =>
      exact .again d' m new pos' held' hm (hf.trans hframe) hat hmv hle (hbit ▸ hprog)

/-- A packed chunk, its resets done. -/
theorem packedTurn_end (base : List UInt8) (hw : d.decoder.At c temp w)
    (hp : lzmaPropsGetNumProbs lzma2LclpMax 0 ≤ d.decoder.probs.size)
    (hs : d.frame.state = .dataCont) (hc : isUncompressedState d.frame.control = false)
    (hneed : d.frame.needInitLevel = 0) (hu : d.frame.unpackSize < 2 ^ 32)
    (hpk : d.frame.packSize < 2 ^ 32) (hhead : ∀ s, c = .header s → 0 < d.frame.unpackSize)
    (htarget : 0 < w.length + d.frame.unpackSize) (hn : n ≤ src.length)
    (hls : dicLimit ≤ d.decoder.dicBufSize)
    (hmode : d.decoder.dicPos = dicLimit → mode = .endMark) {outCur : ℕ} {cur : FinishMode}
    (hlim : outCur = d.frame.unpackSize ∧ cur = .endMark ∨
      outCur < d.frame.unpackSize ∧ cur = .any ∧ d.decoder.dicPos + outCur = dicLimit)
    (hroom : d.decoder.dicPos + outCur ≤ dicLimit) :
    ∃ turn, packedTurn d src n (src.length - n) outCur cur = .ok turn ∧
      Turn2End d (d.here base c temp w) temp (w ++ base) src n dicLimit mode turn := by
  obtain ⟨k, hk⟩ : ∃ k, (if d.frame.packSize < src.length - n then d.frame.packSize
    else src.length - n) = k := ⟨_, rfl⟩
  have hkle : k ≤ d.frame.packSize ∧ n + k ≤ src.length ∧
      (k = d.frame.packSize ∨ n + k = src.length) := by
    split at hk <;> omega
  obtain ⟨input, hinput⟩ : ∃ input, input = (src.drop n).take k := ⟨_, rfl⟩
  have hlen : input.length = k := by
    rw [hinput, List.length_take, List.length_drop]
    omega
  have hslice : slice src n (n + k) = .ok input := by
    rw [slice_spec (by omega) (by omega), hinput, Nat.add_sub_cancel_left]
  obtain ⟨r, hr, hend, hframe⟩ := lzmaDecDecodeToDic_at input cur hw
    (show d.decoder.dicPos ≤ d.decoder.dicPos + outCur by omega) (by omega)
    (show w.length + outCur + d.decoder.dicPos = _ by omega)
  have hcall : PackedCall d c temp w src n dicLimit mode input outCur cur r :=
    ⟨hp, hs, hc, hneed, hu, hpk, by
      rw [hlen, ← List.drop_drop, hinput, List.take_append_drop],
      by omega, by omega, by omega, hroom, hlim, hmode, htarget, hframe⟩
  refine ⟨_, packedTurn_eq hs hu (by rw [hk]; exact hslice) (by omega) hpk hcall.outCur_le hr
    hend.sound.2 hframe, packed_end base hcall hhead hw hend⟩

/-- A decoder past an end mark or an error only fails. -/
theorem packedTurn_lost (hd : d.decoder.Dead) (hs : d.frame.state = .dataCont)
    (hc : isUncompressedState d.frame.control = false) (hu : d.frame.unpackSize < 2 ^ 32)
    (hpk : d.frame.packSize < 2 ^ 32) (hdoom : Doomed pos held) (hn : n ≤ src.length)
    (hl : d.decoder.dicPos ≤ dicLimit) {outCur : ℕ} {cur : FinishMode}
    (ho : outCur ≤ d.frame.unpackSize) :
    ∃ turn, packedTurn d src n (src.length - n) outCur cur = .ok turn ∧
      Turn2End d pos held out src n dicLimit mode turn := by
  obtain ⟨k, hk⟩ : ∃ k, (if d.frame.packSize < src.length - n then d.frame.packSize
    else src.length - n) = k := ⟨_, rfl⟩
  have hkle : k ≤ d.frame.packSize ∧ n + k ≤ src.length := by
    split at hk <;> omega
  obtain ⟨input, hinput⟩ : ∃ input, input = (src.drop n).take k := ⟨_, rfl⟩
  have hlen : input.length = k := by
    rw [hinput, List.length_take, List.length_drop]
    omega
  have hslice : slice src n (n + k) = .ok input := by
    rw [slice_spec (by omega) (by omega), hinput, Nat.add_sub_cancel_left]
  obtain ⟨r, hr, hp, hres⟩ := lzmaDecDecodeToDic_dead (d.decoder.dicPos + outCur) input cur hd
  have hframe : DicFrame d.decoder (d.decoder.dicPos + outCur) r.p := by
    rw [hp]
    exact ⟨rfl, rfl, rfl, le_rfl, Nat.le_add_right _ _, .refl _ _⟩
  refine ⟨_, packedTurn_eq hs hu (by rw [hk]; exact hslice) (by omega) hpk ho hr
    (hres.imp_left fun h => ⟨0, Nat.zero_le _, h.1⟩) hframe, ?_⟩
  have hgone : d.decoder.Shape := hd.shape
  unfold packedNext
  rcases hres with ⟨hres, hst⟩ | hres
  · simp only [hres, if_neg (show r.status ≠ .needsMoreInput by rw [hst]; decide), hp,
      Nat.sub_self, true_and, if_true]
    rw [if_pos (.inl (by rw [hst]; decide))]
    exact .stop _ (corrupt_end _ (.of_eq hl rfl rfl rfl rfl rfl) hgone fun _ =>
      .corrupt pos _ rfl (.refl _ _) (hdoom.append _))
  · simp only [hres, hp]
    obtain ⟨pos', hd'⟩ := exists_doomed d.decoder.prop []
    exact .stop _ ⟨[], .refl hl, ⟨pos', [], [], .lost hd hs hc hu hpk hd' List.nil_suffix⟩,
      .inr rfl, fun _ => .corrupt pos _ rfl (.refl _ _) (hdoom.append _)⟩

/-- The room of a turn inside a chunk, and whether it ends with the chunk. -/
def Lzma2Decoder.turnLimit (d : Lzma2Decoder) (dicLimit : ℕ) : ℕ × FinishMode :=
  if d.frame.unpackSize ≤ dicLimit - d.decoder.dicPos then (d.frame.unpackSize, .endMark)
  else (dicLimit - d.decoder.dicPos, .any)

theorem turnLimit_spec (hl : d.decoder.dicPos ≤ dicLimit) :
    ((d.turnLimit dicLimit).1 = d.frame.unpackSize ∧ (d.turnLimit dicLimit).2 = .endMark ∨
      (d.turnLimit dicLimit).1 < d.frame.unpackSize ∧ (d.turnLimit dicLimit).2 = .any ∧
        d.decoder.dicPos + (d.turnLimit dicLimit).1 = dicLimit) ∧
    d.decoder.dicPos + (d.turnLimit dicLimit).1 ≤ dicLimit ∧
    (d.turnLimit dicLimit).1 ≤ d.frame.unpackSize := by
  unfold Lzma2Decoder.turnLimit
  split
  · exact ⟨.inl ⟨rfl, rfl⟩, by show d.decoder.dicPos + d.frame.unpackSize ≤ dicLimit; omega, le_rfl⟩
  · exact ⟨.inr ⟨by show dicLimit - d.decoder.dicPos < _; omega, rfl, by
      show d.decoder.dicPos + (dicLimit - d.decoder.dicPos) = _; omega⟩, by
      show d.decoder.dicPos + (dicLimit - d.decoder.dicPos) ≤ _; omega, by
      change dicLimit - d.decoder.dicPos ≤ _; omega⟩

/-- A turn inside a chunk. -/
theorem dicTurn_data (hs : d.frame.state = .data ∨ d.frame.state = .dataCont)
    (hany : ¬ (d.decoder.dicPos = dicLimit ∧ mode = .any)) (hn : n ≤ src.length)
    (hl : d.decoder.dicPos ≤ dicLimit) : dicTurn d dicLimit src mode n =
      if isUncompressedState d.frame.control then
        storedTurn d src n (src.length - n) (d.turnLimit dicLimit).1
      else packedTurn d src n (src.length - n) (d.turnLimit dicLimit).1
        (d.turnLimit dicLimit).2 := by
  unfold dicTurn
  rw [if_neg (by rcases hs with hs | hs <;> rw [hs] <;> decide),
    if_neg (by rcases hs with hs | hs <;> rw [hs] <;> decide), if_neg hany,
    if_neg (fun h => hs.elim h.1 h.2), sub_ok hn, ok_bind, sub_ok hl, ok_bind]
  rfl

/-- A packed chunk that is just open is one whose resets are done. -/
theorem packedTurn_data (hs : d.frame.state = .data) (inCur outCur : ℕ) (cur : FinishMode) :
    packedTurn d src n inCur outCur cur = packedTurn
      ⟨{ d.frame with state := .dataCont }, d.decoder.initDicAndState
        (decide (0xE0 ≤ d.frame.control)) (decide (0xA0 ≤ d.frame.control))⟩
      src n inCur outCur cur := by
  have hne : Lzma2State.dataCont ≠ Lzma2State.data := by decide
  unfold packedTurn
  simp only [hs, if_true, if_neg hne]

/-- Where a packed chunk opens. -/
theorem openPacked_eq (r : Ref2) {control : ℕ} {s : RefState}
    (hs : (if 0xA0 ≤ control then
        freshState (if 0xE0 ≤ control then r.resetDic else r).s.hist
      else (if 0xE0 ≤ control then r.resetDic else r).s) = s) (unpack pack : ℕ) :
    r.openPacked control unpack pack = .packed r.prop
      (if 0xE0 ≤ control then r.resetDic else r).base (.header s) (s.hist.length + unpack)
      (([] : List UInt8).length + pack) ∧
    s.hist ++ (if 0xE0 ≤ control then r.resetDic else r).base = r.s.hist ++ r.base := by
  have hhist : s.hist = (if 0xE0 ≤ control then r.resetDic else r).s.hist := by
    rw [← hs]
    split <;> rfl
  unfold Ref2.openPacked
  constructor
  · have hprop : (if 0xE0 ≤ control then r.resetDic else r).prop = r.prop := by
      split <;> rfl
    simp only [hs, hprop, List.length_nil, Nat.zero_add]
  · rw [hhist]
    split <;> rfl

theorem stored_control (h : d.frame.control = 1 ∨ d.frame.control = 2) :
    isUncompressedState d.frame.control = true := by
  rcases h with h | h <;> rw [h] <;> decide

theorem Lzma2Decoder.At2.doomed (h : d.At2 pos held out) (hs : d.frame.state = .error) :
    Doomed pos held := by
  cases h with
  | header _ _ hH => exact absurd hs hH.state_ne_error
  | startStored _ _ ho | startPacked _ _ ho => rw [ho.state] at hs; cases hs
  | stored _ _ hs' | packed _ _ _ hs' | lost _ hs' | finished _ hs' => rw [hs'] at hs; cases hs
  | failed _ _ hd => exact hd

theorem Lzma2Decoder.At2.ended (h : d.At2 pos held out) (hs : d.frame.state = .finished) :
    ∃ r, pos = .chunk r ∧ held = [0] ∧ out = r.s.hist ++ r.base := by
  cases h with
  | header _ _ hH => exact absurd hs hH.state_ne
  | startStored _ _ ho | startPacked _ _ ho => rw [ho.state] at hs; cases hs
  | stored _ _ hs' | packed _ _ _ hs' | lost _ hs' | failed _ hs' => rw [hs'] at hs; cases hs
  | finished => exact ⟨_, rfl, rfl, rfl⟩

/-- One turn from any state. -/
theorem dicTurn_end (mode : FinishMode) (h : d.At2 pos held out) (hn : n ≤ src.length)
    (hl : d.decoder.dicPos ≤ dicLimit) (hls : dicLimit ≤ d.decoder.dicBufSize) :
    ∃ turn, dicTurn d dicLimit src mode n = .ok turn ∧
      Turn2End d pos held out src n dicLimit mode turn := by
  by_cases herr : d.frame.state = .error
  · unfold dicTurn
    rw [if_pos herr]
    exact ⟨_, rfl, .stop _ (corrupt_end d (.refl hl) h.shape fun _ =>
      .corrupt pos _ rfl (.refl _ _) ((h.doomed herr).append _))⟩
  by_cases hfin : d.frame.state = .finished
  · unfold dicTurn
    rw [if_neg herr, if_pos hfin]
    obtain ⟨r, rfl, rfl, rfl⟩ := h.ended hfin
    exact ⟨_, rfl, .stop _ ⟨[], .refl hl, ⟨_, _, _, h⟩, .inl ⟨n, hn, rfl⟩, fun _ =>
      .finished n r rfl hn rfl (.refl _ _) h hfin rfl⟩⟩
  by_cases hany : d.decoder.dicPos = dicLimit ∧ mode = .any
  · unfold dicTurn
    rw [if_neg herr, if_neg hfin, if_pos hany]
    exact ⟨_, rfl, .stop _ ⟨[], .refl hl, ⟨_, _, _, h⟩, .inl ⟨n, hn, rfl⟩, fun hx =>
      .full n pos held rfl hn rfl hany.2 hany.1 (.refl _ _) h hx⟩⟩
  have hmode : d.decoder.dicPos = dicLimit → mode = .endMark := by
    intro hat
    cases mode with
    | any => exact absurd ⟨hat, rfl⟩ hany
    | endMark => rfl
  obtain ⟨hlim, hroom, hle⟩ := turnLimit_spec (d := d) hl
  have hzero : 0 < d.frame.unpackSize → (d.turnLimit dicLimit).1 = 0 →
      d.decoder.dicPos = dicLimit := fun h0 hz => by
    rcases hlim with hc | hc <;> omega
  cases h with
  | @header r pre hI hK hH =>
      have hhead : dicTurn d dicLimit src mode n = headerTurn d dicLimit src n := by
        unfold dicTurn
        rw [if_neg herr, if_neg hfin, if_neg hany, if_pos hH.state_header]
      rw [hhead]
      exact headerTurn_end hI hK hH hn hl hmode
  | startStored hI hK ho hc hneed =>
      obtain ⟨r', hst, hout, hpos⟩ := storedReady_start hI hK ho hc hneed
      have hA := Lzma2Decoder.At2.startStored hI hK ho hc hneed
      rw [dicTurn_data (.inl ho.state) hany hn hl, if_pos (stored_control hc), hpos, ← hout]
      rw [hpos, ← hout] at hA
      exact storedTurn_end hst hA hn hl hls hmode hle (by omega) (hzero ho.unpack_pos)
  | stored hI hK hs hc hneed hu hult =>
      have hst := storedReady_cont hI hK hs hc hneed hu hult
      rw [dicTurn_data (.inr hs) hany hn hl, if_pos (stored_control hc)]
      exact storedTurn_end hst (.stored hI hK hs hc hneed hu hult) hn hl hls hmode hle (by omega)
        (hzero hu)
  | @startPacked r hI hK ho hc hneed hpk =>
      rw [dicTurn_data (.inl ho.state) hany hn hl, if_neg (by rw [hc]; decide),
        packedTurn_data ho.state]
      obtain ⟨hprop, hsize, hpos, -, hprobs⟩ := initDicAndState_same d.decoder
        (decide (0xE0 ≤ d.frame.control)) (decide (0xA0 ≤ d.frame.control))
      have hbefore := hI.initPacked hK
      obtain ⟨s, hs⟩ : ∃ s, (if 0xA0 ≤ d.frame.control then
          freshState (if 0xE0 ≤ d.frame.control then r.resetDic else r).s.hist
        else (if 0xE0 ≤ d.frame.control then r.resetDic else r).s) = s := ⟨_, rfl⟩
      obtain ⟨hpos₁, hout⟩ := openPacked_eq r hs d.frame.unpackSize d.frame.packSize
      rw [hs] at hbefore
      have hframe : Frame2 d dicLimit [] ⟨{ d.frame with state := .dataCont }, d.decoder.initDicAndState
          (decide (0xE0 ≤ d.frame.control)) (decide (0xA0 ≤ d.frame.control))⟩ := .init _ _ _ hl
      generalize d.decoder.initDicAndState (decide (0xE0 ≤ d.frame.control))
        (decide (0xA0 ≤ d.frame.control)) = p at *
      obtain ⟨d₁, hd₁⟩ : ∃ d₁, d₁ = Lzma2Decoder.mk { d.frame with state := .dataCont } p := ⟨_, rfl⟩
      have hp₁ : d₁.decoder = p := by rw [hd₁]
      have hf₁ : d₁.frame = { d.frame with state := .dataCont } := by rw [hd₁]
      have hmode₁ : d₁.decoder.dicPos = dicLimit → mode = .endMark := by
        rw [hp₁, hpos]
        exact hmode
      have hat₁ : d₁.decoder.At (.header s) [] s.hist := by
        rw [hp₁]
        exact .header hbefore
      obtain ⟨turn, ht, hend⟩ := packedTurn_end _ hat₁
        (by rw [hp₁, hprobs]; exact hI.room) (by rw [hf₁]) (by rw [hf₁]; exact hc)
        (by rw [hf₁]; exact hneed) (by rw [hf₁]; exact ho.unpack_lt) (by rw [hf₁]; exact hpk)
        (fun _ _ => by rw [hf₁]; exact ho.unpack_pos)
        (Nat.add_pos_right _ (by rw [hf₁]; exact ho.unpack_pos)) hn
        (by rw [hp₁, hsize]; exact hls) hmode₁ (by rw [hp₁, hpos, hf₁]; exact hlim)
        (by rw [hp₁, hpos]; exact hroom)
      rw [← hd₁] at hframe ⊢
      refine ⟨turn, ht, ?_⟩
      rw [hpos₁, ← hout]
      refine Turn2End.from hframe ?_ ?_
      · unfold Lzma2Decoder.bit
        rw [if_pos (.inr (by rw [hf₁])), if_pos (.inl ho.state)]
      · rw [Lzma2Decoder.here, hp₁, hf₁, hprop, hI.prop] at hend
        exact hend
  | packed base hw hp hs hc hneed hu hpk hhead htarget =>
      rw [dicTurn_data (.inr hs) hany hn hl, if_neg (by rw [hc]; decide)]
      exact packedTurn_end base hw hp hs hc hneed hu hpk hhead htarget hn hls hmode hlim hroom
  | lost hd hs hc hu hpk hdoom ho =>
      rw [dicTurn_data (.inr hs) hany hn hl, if_neg (by rw [hc]; decide)]
      exact packedTurn_lost hd hs hc hu hpk hdoom hn hl hle
  | failed _ hs => exact absurd hs herr
  | finished _ hs => exact absurd hs hfin

theorem bit_le (d : Lzma2Decoder) : d.bit ≤ 1 := by
  unfold Lzma2Decoder.bit
  split <;> omega

/-- The loop, on enough fuel: a turn reads or writes a byte, or closes a chunk. -/
theorem dicLoop_end (mode : FinishMode) (fuel : ℕ) (h : d.At2 pos held out)
    (hn : n ≤ src.length) (hl : d.decoder.dicPos ≤ dicLimit)
    (hls : dicLimit ≤ d.decoder.dicBufSize)
    (hfuel : 2 * (src.length - n + (dicLimit - d.decoder.dicPos)) + d.bit < fuel) :
    ∃ r, dicLoop dicLimit src mode fuel d n = .ok r ∧
      Dic2End d pos held out (held ++ src.drop n) src dicLimit mode r := by
  induction fuel generalizing d pos held out n with
  | zero => omega
  | succ fuel ih =>
      obtain ⟨turn, ht, hend⟩ := dicTurn_end mode h hn hl hls
      rw [dicLoop, ht, ok_bind]
      cases hend with
      | stop r hr => exact ⟨r, rfl, hr⟩
      | again d' m new pos' held' hm hframe hat hmv hle hprog =>
          have hpos := hframe.pos
          have hlim := hframe.pos_le
          have hbit := bit_le d'
          have hnew : new ≠ [] → 0 < new.length := List.length_pos_of_ne_nil
          obtain ⟨r, hr, hend'⟩ := ih hat hm hlim (by rw [hframe.size]; exact hls) (by
            rcases hprog with hp | hp | hp
            · omega
            · have := hnew hp
              omega
            · omega)
          exact ⟨r, hr, hend'.from hframe rfl hmv⟩

/-- A whole call. -/
theorem decodeToDic_end (src : List UInt8) (mode : FinishMode) (h : d.At2 pos held out)
    (hl : d.decoder.dicPos ≤ dicLimit) (hls : dicLimit ≤ d.decoder.dicBufSize) :
    ∃ r, d.decodeToDic dicLimit src mode = .ok r ∧
      Dic2End d pos held out (held ++ src) src dicLimit mode r := by
  have hbit := bit_le d
  exact dicLoop_end mode _ h (Nat.zero_le _) hl hls (by omega)

end
end LzmaTurbo.Lzma2
