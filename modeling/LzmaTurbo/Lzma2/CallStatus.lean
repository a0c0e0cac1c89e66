import LzmaTurbo.Lzma2.Session

/-!
# What a call's status says

A call that wants more input has read all of it, and one that is not finished has filled its
output, in whatever state the decoder is.
-/
namespace LzmaTurbo.Lzma2
open Machine Lzma

theorem sub_eq_ok {a b c : ℕ} (h : sub a b = .ok c) : b ≤ a ∧ c = a - b := by
  unfold sub at h
  split at h
  next hle =>
    cases h
    exact ⟨hle, rfl⟩
  · cases h

theorem slice_eq_ok {xs ys : List UInt8} {start stop : ℕ} (h : Lzma.slice xs start stop = .ok ys) :
    start ≤ stop ∧ stop ≤ xs.length ∧ ys.length = stop - start := by
  unfold Lzma.slice at h
  split at h
  next hle =>
    cases h
    rw [List.length_take, List.length_drop]
    exact ⟨hle.1, hle.2, by omega⟩
  · cases h

/-- A buffer with room left has taken all there was. -/
theorem fillTemp_short {bound : ℕ} {xs : List UInt8} {temp temp' : Array UInt8}
    {rem rem' ahead ahead' : ℕ} (h : fillTemp bound xs temp rem ahead = .ok (temp', rem', ahead'))
    (hr : rem' < bound) : ahead' = ahead + xs.length := by
  induction xs generalizing temp rem ahead with
  | nil =>
      cases h
      rfl
  | cons x xs ih =>
      rw [fillTemp] at h
      split at h
      · obtain ⟨a, -, h⟩ := bind_eq_ok h
        rw [ih h, List.length_cons]
        omega
      next hge =>
        cases h
        exact absurd hr hge

/-- Where a call is in its input. -/
def InStep (src : List UInt8) (srcPos inSize srcLen : ℕ) : Prop :=
  srcPos = srcLen ∧ srcLen + inSize = src.length

/-- A turn that stops for more input has taken it all, and one that goes on is in step. -/
def TurnNeeds (src : List UInt8) : Turn → Prop
  | .stop r => r.status = .needsMoreInput → ∀ n, r.res = .ok n → n = src.length
  | .again _ srcPos inSize srcLen => InStep src srcPos inSize srcLen

theorem afterReal_needs {src : List UInt8} {res : RealResult} {held tempBufSize : ℕ}
    {agrees : Bool} {srcPos inSize srcLen : ℕ} {turn : Turn} (hin : InStep src srcPos inSize srcLen)
    (h : afterReal res held agrees tempBufSize srcPos inSize srcLen = .ok turn) :
    TurnNeeds src turn := by
  unfold afterReal at h
  split at h
  · cases h
    exact fun hs => by cases hs
  · obtain ⟨processed, hp, h⟩ := bind_eq_ok h
    obtain ⟨inSize', hi, h⟩ := bind_eq_ok h
    obtain ⟨hle, rfl⟩ := sub_eq_ok hi
    dsimp only at h
    split at h
    · cases h
      exact fun hs => by cases hs
    · cases h
      exact ⟨by rw [hin.1], by have := hin.2; omega⟩

theorem decodeFromSrc_needs {p : LzmaDec} {dicLimit : ℕ} {src : List UInt8} {check : Bool}
    {srcPos inSize srcLen : ℕ} {turn : Turn} (hin : InStep src srcPos inSize srcLen)
    (h : decodeFromSrc p dicLimit src check srcPos inSize srcLen = .ok turn) :
    TurnNeeds src turn := by
  unfold decodeFromSrc at h
  split at h
  · obtain ⟨input, -, h⟩ := bind_eq_ok h
    obtain ⟨⟨dummyRes, dummyLen⟩, -, h⟩ := bind_eq_ok h
    dsimp only at h
    split at h
    · split at h
      · cases h
        exact fun hs => by cases hs
      · obtain ⟨tempBuf, -, h⟩ := bind_eq_ok h
        cases h
        intro _ n hn
        cases hn
        exact hin.2
    · split at h
      · cases h
        exact fun hs => by cases hs
      · split at h
        · obtain ⟨held, -, h⟩ := bind_eq_ok h
          obtain ⟨tempBuf, -, h⟩ := bind_eq_ok h
          cases h
          exact fun hs => by cases hs
        · obtain ⟨res, -, h⟩ := bind_eq_ok h
          exact afterReal_needs hin h
  · obtain ⟨bufLimit, -, h⟩ := bind_eq_ok h
    obtain ⟨res, -, h⟩ := bind_eq_ok h
    exact afterReal_needs hin h

theorem decodeFromTemp_needs {p : LzmaDec} {dicLimit : ℕ} {src : List UInt8} {check : Bool}
    {srcPos inSize srcLen : ℕ} {turn : Turn} (hin : InStep src srcPos inSize srcLen)
    (h : decodeFromTemp p dicLimit src check srcPos inSize srcLen = .ok turn) :
    TurnNeeds src turn := by
  unfold decodeFromTemp at h
  obtain ⟨input, hinput, h⟩ := bind_eq_ok h
  obtain ⟨⟨tempBuf, rem, ahead⟩, hfill, h⟩ := bind_eq_ok h
  dsimp only at h
  split at h
  · obtain ⟨temp, -, h⟩ := bind_eq_ok h
    obtain ⟨⟨dummyRes, dummyLen⟩, -, h⟩ := bind_eq_ok h
    dsimp only at h
    split at h
    · split at h
      · cases h
        exact fun hs => by cases hs
      next hlt =>
        cases h
        intro _ n hn
        cases hn
        have hahead := fillTemp_short hfill (Nat.lt_of_not_le hlt)
        have hlen := (slice_eq_ok hinput).2.2
        have hall := hin.2
        omega
    · split at h
      · cases h
        exact fun hs => by cases hs
      · split at h
        · cases h
          exact fun hs => by cases hs
        · obtain ⟨res, -, h⟩ := bind_eq_ok h
          exact afterReal_needs hin h
  · obtain ⟨res, -, h⟩ := bind_eq_ok h
    exact afterReal_needs hin h

theorem decodeTurn_needs {p : LzmaDec} {dicLimit : ℕ} {src : List UInt8} {mode : FinishMode}
    {srcPos inSize srcLen : ℕ} {turn : Turn} (hin : InStep src srcPos inSize srcLen)
    (h : decodeTurn p dicLimit src mode srcPos inSize srcLen = .ok turn) : TurnNeeds src turn := by
  unfold decodeTurn at h
  split at h
  · split at h <;>
    · cases h
      exact fun hs => by cases hs
  · obtain ⟨p', -, h⟩ := bind_eq_ok h
    split at h
    · cases h
      exact fun hs => by cases hs
    · split at h
      · cases h
        exact fun hs => by cases hs
      · split at h
        · cases h
          exact fun hs => by cases hs
        · dsimp only at h
          split at h
          · exact decodeFromSrc_needs hin h
          · exact decodeFromTemp_needs hin h

theorem decodeMain_needs {dicLimit fuel : ℕ} {src : List UInt8} {mode : FinishMode} {p : LzmaDec}
    {srcPos inSize srcLen n : ℕ} {r : DicResult} (hin : InStep src srcPos inSize srcLen)
    (h : decodeMain dicLimit src mode fuel p srcPos inSize srcLen = .ok r)
    (hs : r.status = .needsMoreInput) (hr : r.res = .ok n) : n = src.length := by
  induction fuel generalizing p srcPos inSize srcLen with
  | zero => cases h
  | succ fuel ih =>
      rw [decodeMain] at h
      obtain ⟨turn, hturn, h⟩ := bind_eq_ok h
      have hneeds := decodeTurn_needs hin hturn
      cases turn with
      | stop r' =>
          cases h
          exact hneeds hs n hr
      | again p' srcPos' inSize' srcLen' => exact ih hneeds h

/-- A call of the LZMA decoder that wants more input has read all of it. -/
theorem lzmaDecDecodeToDic_needs {p : LzmaDec} {dicLimit n : ℕ} {src : List UInt8}
    {mode : FinishMode} {r : DicResult} (h : lzmaDecDecodeToDic p dicLimit src mode = .ok r)
    (hs : r.status = .needsMoreInput) (hr : r.res = .ok n) : n = src.length := by
  unfold lzmaDecDecodeToDic at h
  dsimp only at h
  split at h
  · split at h
    · cases h
      cases hs
    · obtain ⟨⟨tempBuf, tempBufSize, ahead⟩, hfill, h⟩ := bind_eq_ok h
      obtain ⟨first, -, h⟩ := bind_eq_ok h
      dsimp only at h
      split at h
      · cases h
        cases hs
      · split at h
        next hlt =>
          cases h
          cases hr
          rw [fillTemp_short hfill hlt, Nat.zero_add]
        · obtain ⟨code, -, h⟩ := bind_eq_ok h
          split at h
          · cases h
            cases hs
          · obtain ⟨inSize, hin, h⟩ := bind_eq_ok h
            obtain ⟨hle, rfl⟩ := sub_eq_ok hin
            exact decodeMain_needs ⟨rfl, by omega⟩ h hs hr
  · exact decodeMain_needs ⟨rfl, Nat.zero_add _⟩ h hs hr

section
variable {d : Lzma2Decoder} {dicLimit n : ℕ} {src input : List UInt8} {mode : FinishMode}

/-- What a call that succeeds can say. -/
def Says (src : List UInt8) (dicLimit : ℕ) (mode : FinishMode) (r : Dic2Result) : Prop :=
  ∀ k, r.res = .ok k → r.status = .needsMoreInput ∧ k = src.length ∨ r.status = .finishedWithMark ∨
    r.status = .notFinished ∧ mode = .any ∧ r.d.decoder.dicPos = dicLimit

theorem headerTurn_says {r : Dic2Result} (h : headerTurn d dicLimit src n = .ok (.stop r)) :
    Says src dicLimit mode r := by
  unfold headerTurn at h
  split at h
  next hn =>
    cases h
    intro k hk
    cases hk
    exact .inl ⟨rfl, hn⟩
  · obtain ⟨b, -, h⟩ := bind_eq_ok h
    dsimp only at h
    split at h
    · cases h
      exact fun k hk => by cases hk
    · cases h

theorem storedTurn_says {inCur outCur : ℕ} {r : Dic2Result} (hin : n + inCur = src.length)
    (h : storedTurn d src n inCur outCur = .ok (.stop r)) : Says src dicLimit mode r := by
  unfold storedTurn at h
  split at h
  next hz =>
    cases h
    intro k hk
    cases hk
    exact .inl ⟨rfl, by omega⟩
  · dsimp only at h
    generalize (if outCur < inCur then outCur else inCur) = k at h
    generalize (if d.frame.state = .data then _ else d : Lzma2Decoder) = d' at h
    split at h
    · cases h
      exact fun k hk => by cases hk
    · obtain ⟨bytes, -, h⟩ := bind_eq_ok h
      obtain ⟨dic, -, h⟩ := bind_eq_ok h
      obtain ⟨check, -, h⟩ := bind_eq_ok h
      obtain ⟨unpack, -, h⟩ := bind_eq_ok h
      cases h

theorem packedTurn_says {inCur outCur : ℕ} {cur : FinishMode} {r : Dic2Result}
    (hpk : d.frame.packSize < 2 ^ 32) (hin : n + inCur = src.length)
    (h : packedTurn d src n inCur outCur cur = .ok (.stop r)) : Says src dicLimit mode r := by
  unfold packedTurn at h
  dsimp only at h
  obtain ⟨input, hinput, h⟩ := bind_eq_ok h
  obtain ⟨res, hres, h⟩ := bind_eq_ok h
  have hsame : (if d.frame.state = .data then
      (⟨{ d.frame with state := .dataCont }, d.decoder.initDicAndState
        (decide (0xE0 ≤ d.frame.control)) (decide (0xA0 ≤ d.frame.control))⟩ : Lzma2Decoder)
      else d).frame.packSize = d.frame.packSize := by
    split <;> rfl
  rw [hsame] at hinput h
  split at h
  · cases h
    exact fun k hk => by cases hk
  next used hused =>
    obtain ⟨packSize, hpack, h⟩ := bind_eq_ok h
    obtain ⟨outUsed, -, h⟩ := bind_eq_ok h
    obtain ⟨unpackSize, -, h⟩ := bind_eq_ok h
    split at h
    next hneeds =>
      split at h
      · cases h
        exact fun k hk => by cases hk
      next hne =>
        cases h
        intro k hk
        cases hk
        have hall := lzmaDecDecodeToDic_needs hres hneeds hused
        have hlen := (slice_eq_ok hinput).2.2
        obtain ⟨-, rfl⟩ := sub_eq_ok hpack
        refine .inl ⟨rfl, ?_⟩
        -- the chunk goes on, so its packed bytes were not what ended the input
        have hshort : ¬ d.frame.packSize < inCur := by
          intro hlt
          rw [if_pos hlt] at hlen
          apply hne
          rw [hall, hlen, Nat.add_sub_cancel_left, u32, Nat.mod_eq_of_lt hpk, Nat.sub_self]
        rw [if_neg hshort] at hlen
        omega
    · split at h
      · split at h
        · cases h
          exact fun k hk => by cases hk
        · cases h
      · cases h

/-- In every state the packed size of an open chunk fits its counter. -/
theorem Lzma2Decoder.At2.packSize_lt {pos : Pos} {held out : List UInt8} (h : d.At2 pos held out)
    (hs : d.frame.state = .data ∨ d.frame.state = .dataCont)
    (hc : isUncompressedState d.frame.control = false) : d.frame.packSize < 2 ^ 32 := by
  cases h with
  | header _ _ hH => exact absurd hs (by rintro (h | h) <;> exact absurd h (by
      have := hH.state_header
      tauto))
  | startStored _ _ _ hcon => rw [stored_control hcon] at hc; cases hc
  | stored _ _ _ hcon => rw [stored_control hcon] at hc; cases hc
  | startPacked _ _ _ _ _ hp => exact hp
  | packed _ _ _ _ _ _ _ hp => exact hp
  | lost _ _ _ _ hp => exact hp
  | failed _ he => rw [he] at hs; rcases hs with h | h <;> cases h
  | finished _ he => rw [he] at hs; rcases hs with h | h <;> cases h

theorem dicTurn_says {pos : Pos} {held out : List UInt8} {r : Dic2Result} (hat : d.At2 pos held out)
    (hn : n ≤ src.length) (h : dicTurn d dicLimit src mode n = .ok (.stop r)) :
    Says src dicLimit mode r := by
  unfold dicTurn at h
  split at h
  · cases h
    exact fun k hk => by cases hk
  · split at h
    · cases h
      exact fun k hk => .inr (.inl rfl)
    · split at h
      next hfull =>
        cases h
        exact fun k hk => .inr (.inr ⟨rfl, hfull.2, hfull.1⟩)
      · split at h
        · exact headerTurn_says h
        next hs =>
          have hs : d.frame.state = .data ∨ d.frame.state = .dataCont := by tauto
          obtain ⟨inCur, hin, h⟩ := bind_eq_ok h
          obtain ⟨outCur, -, h⟩ := bind_eq_ok h
          obtain ⟨-, rfl⟩ := sub_eq_ok hin
          dsimp only at h
          split at h
          · exact storedTurn_says (by omega) h
          next hc =>
            exact packedTurn_says (hat.packSize_lt hs (Bool.not_eq_true _ ▸ hc)) (by omega) h

theorem dicLoop_says {pos : Pos} {held out : List UInt8} {fuel : ℕ} {r : Dic2Result}
    (hat : d.At2 pos held out) (hn : n ≤ src.length) (hl : d.decoder.dicPos ≤ dicLimit)
    (hls : dicLimit ≤ d.decoder.dicBufSize) (h : dicLoop dicLimit src mode fuel d n = .ok r) :
    Says src dicLimit mode r := by
  induction fuel generalizing d pos held out n with
  | zero => cases h
  | succ fuel ih =>
      rw [dicLoop] at h
      obtain ⟨turn, ht, h⟩ := bind_eq_ok h
      obtain ⟨turn', ht', hend⟩ := dicTurn_end mode hat hn hl hls
      rw [ht] at ht'
      cases ht'
      cases hend with
      | stop r' =>
          cases h
          exact dicTurn_says hat hn ht
      | again d' m new pos' held' hm hframe hat' =>
          exact ih hat' hm hframe.pos_le (by rw [hframe.size]; exact hls) h

/-- What a call of `decode` that succeeds has read and written, `n` and `acc` before. -/
structure Buf2Says (input acc : List UInt8) (n outSize : ℕ) (mode : FinishMode) (out : List UInt8)
    (pr : Progress) : Prop where
  read : n ≤ pr.read ∧ pr.read ≤ input.length
  written : pr.written = out.length
  room : acc.length ≤ out.length ∧ out.length ≤ acc.length + outSize
  status : pr.status = .needsMoreInput ∧ pr.read = input.length ∨ pr.status = .finishedWithMark ∨
    pr.status = .notFinished ∧ mode = .any ∧ out.length = acc.length + outSize

theorem decodeBuf2_says {fuel outSize : ℕ} {acc : List UInt8} (h : d.Sound)
    (hsize : d.decoder.prop.dictSize ≤ d.decoder.dicBufSize) (hn : n ≤ input.length)
    {r : Buf2Result} (hr : decodeBuf2 input mode fuel d outSize n acc = .ok r) :
    r.out.length ≤ acc.length + outSize ∧
      ∀ pr, r.res = .ok pr → Buf2Says input acc n outSize mode r.out pr := by
  induction fuel generalizing d outSize n acc with
  | zero => cases hr
  | succ fuel ih =>
      obtain ⟨pos, held, out, hat⟩ := h
      obtain ⟨hprop, hbuf⟩ := wrapped_sizes d
      have hshape := hat.shape
      have hat := hat.wrapped hsize
      have hroom := wrapped_room (d := d) hshape hsize
      have hsub : sub d.wrapped.decoder.dicBufSize d.wrapped.decoder.dicPos = .ok _ :=
        sub_ok hroom.le
      have hsrc : Lzma.slice input n input.length = .ok (input.drop n) := by
        rw [slice_spec hn le_rfl, List.take_of_length_le (by rw [List.length_drop])]
      obtain ⟨outCur, cur, hlim, hcase⟩ : ∃ outCur cur,
          (if outSize ≤ d.wrapped.decoder.dicBufSize - d.wrapped.decoder.dicPos then
            (outSize, mode) else (d.wrapped.decoder.dicBufSize - d.wrapped.decoder.dicPos,
              FinishMode.any)) = (outCur, cur) ∧ outCur ≤ outSize ∧
            d.wrapped.decoder.dicPos + outCur ≤ d.wrapped.decoder.dicBufSize ∧
            (outCur = outSize ∧ cur = mode ∨ 0 < outCur ∧ outCur < outSize) := by
        split
        next hfit => exact ⟨_, _, rfl, le_rfl, by omega, .inl ⟨rfl, rfl⟩⟩
        next hfit => exact ⟨_, _, rfl, by omega, by omega, .inr ⟨by omega, by omega⟩⟩
      obtain ⟨houtle, hdic, hcase⟩ := hcase
      obtain ⟨r₁, hcall, new, hframe, hsound, hres, -⟩ := decodeToDic_end (input.drop n) cur hat
        (show d.wrapped.decoder.dicPos ≤ d.wrapped.decoder.dicPos + outCur by omega) hdic
      have htold := dicLoop_says hat (Nat.zero_le _) (Nat.le_add_right _ _) hdic hcall
      have hpos := hframe.pos
      have hple := hframe.pos_le
      rw [decodeBuf2] at hr
      simp only [hsub, ok_bind, hlim, hsrc, hcall] at hr
      rcases hres with ⟨k, hk, hres⟩ | hres
      · rw [List.length_drop] at hk
        have hslice := hframe.slice (hroom.le.trans hat.shape.size_le)
        simp only [hres, ok_bind,
          sub_ok (show d.wrapped.decoder.dicPos ≤ r₁.d.decoder.dicPos by omega),
          show r₁.d.decoder.dicPos - d.wrapped.decoder.dicPos = new.length by omega, hslice,
          sub_ok (show new.length ≤ outSize by omega)] at hr
        split at hr
        next hstop =>
          cases hr
          have hlen : (acc ++ new).length = acc.length + new.length := List.length_append
          refine ⟨by dsimp only; omega, fun pr hpr => ?_⟩
          cases hpr
          have hk' := htold k hres
          rw [List.length_drop] at hk'
          refine ⟨⟨by dsimp only; omega, by dsimp only; omega⟩, rfl, ?_, ?_⟩
          · dsimp only
            omega
          · dsimp only
            rcases hk' with ⟨hst, hall⟩ | hst | ⟨hst, hany, hfull⟩
            · exact .inl ⟨hst, by omega⟩
            · exact .inr (.inl hst)
            · refine .inr (.inr ⟨hst, ?_, ?_⟩)
              · rcases hcase with ⟨-, hc⟩ | hc
                · exact hc.symm.trans hany
                · omega
              · rw [List.length_append]
                omega
        next hgo =>
          have hdict := hframe.dict.trans (congrArg LzmaProps.dictSize hprop)
          have hbuf' := hframe.size.trans hbuf
          obtain ⟨hout, hrest⟩ := ih hsound (by rw [hdict, hbuf']; exact hsize) (by omega) hr
          rw [List.length_append] at hout
          refine ⟨by omega, fun pr hpr => ?_⟩
          obtain ⟨⟨h1, h2⟩, h3, ⟨h4, h5⟩, h6⟩ := hrest pr hpr
          rw [List.length_append] at h4 h5 h6
          refine ⟨⟨by omega, h2⟩, h3, ⟨by omega, by omega⟩, ?_⟩
          rcases h6 with h6 | h6 | ⟨h6, h7, h8⟩
          · exact .inl h6
          · exact .inr (.inl h6)
          · exact .inr (.inr ⟨h6, h7, by omega⟩)
      · simp only [hres] at hr
        cases hr
        exact ⟨Nat.le_add_right _ _, fun pr hpr => by cases hpr⟩

/-- A call from any state. -/
theorem Lzma2Decoder.Sound.decode (h : d.Sound)
    (hsize : d.decoder.prop.dictSize ≤ d.decoder.dicBufSize) (input : List UInt8) (outSize : ℕ)
    (mode : FinishMode) : ∃ r, d.decode input outSize mode = .ok r ∧ r.d.Sound ∧
      r.d.decoder.prop.dictSize ≤ r.d.decoder.dicBufSize ∧ r.out.length ≤ outSize ∧
      (r.res = .error .corruptData ∨
        ∃ pr, r.res = .ok pr ∧ Buf2Says input [] 0 outSize mode r.out pr) := by
  obtain ⟨r, hr, hs, hd, hb, -, hres⟩ := decodeBuf2_sound mode [] h hsize
    (Nat.zero_le input.length) (Nat.lt_succ_self outSize)
  obtain ⟨hout, htold⟩ := decodeBuf2_says h hsize (Nat.zero_le _) hr
  refine ⟨r, hr, hs, by rw [hd, hb]; exact hsize, by simpa using hout, ?_⟩
  rcases hres with ⟨pr, hpr⟩ | hres
  · exact .inr ⟨pr, hpr, htold pr hpr⟩
  · exact .inl hres

end
end LzmaTurbo.Lzma2
