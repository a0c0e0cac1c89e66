import LzmaTurbo.Lzma2.CallEnd

/-!
# Runs of calls on one LZMA2 stream

`Lzma2Decoder.decode` copies what it decodes out of the circular dictionary. A
session hands it one slice of the stream after another, each with its own room.
-/
namespace LzmaTurbo.Lzma2
open Machine Lzma StreamMachine Window

section
variable {d : Lzma2Decoder} {p : LzmaDec} {pos : Pos} {held out X input : List UInt8} {r : Ref2}
  {mode : FinishMode}

theorem shape_wrapped (h : p.Shape) : p.wrapped.Shape := by
  unfold LzmaDec.wrapped
  split
  · exact ⟨Nat.zero_le _, h.size_le, h.size_lt, h.probs, h.tempBuf_size⟩
  · exact h

theorem Idle.wrapped (h : Idle p r) (hsize : p.prop.dictSize ≤ p.dicBufSize) :
    Idle p.wrapped r := by
  unfold LzmaDec.wrapped
  by_cases hfull : p.dicPos = p.dicBufSize
  · rw [if_pos hfull]
    exact ⟨⟨Nat.zero_le _, h.size_le, h.size_lt, h.probs, h.tempBuf_size⟩,
      h.toWindow.wrap hfull hsize, h.prop, h.room, h.need⟩
  · rwa [if_neg hfull]

theorem Kept.wrapped (h : Kept p r) : Kept p.wrapped r := by
  unfold LzmaDec.wrapped
  split
  · exact ⟨h.reps, h.state, h.table, h.base, h.hist⟩
  · exact h

theorem dead_wrapped (h : p.Dead) (hsize : p.prop.dictSize ≤ p.dicBufSize) : p.wrapped.Dead := by
  cases h with
  | marked h => exact .marked (h.wrapped hsize)
  | @failed w hs hw hr =>
      have hw' : p.wrapped.Window w := by
        unfold LzmaDec.wrapped
        by_cases hfull : p.dicPos = p.dicBufSize
        · rw [if_pos hfull]
          exact hw.wrap hfull hsize
        · rwa [if_neg hfull]
      refine .failed (shape_wrapped hs) hw' ?_
      unfold LzmaDec.wrapped
      split <;> exact hr

theorem wrapped_probs (p : LzmaDec) : p.wrapped.probs = p.probs := by
  unfold LzmaDec.wrapped
  split <;> rfl

/-- The wrap changes no byte a distance can reach. -/
theorem Lzma2Decoder.At2.wrapped (h : d.At2 pos held out)
    (hsize : d.decoder.prop.dictSize ≤ d.decoder.dicBufSize) : d.wrapped.At2 pos held out := by
  cases h with
  | header hI hK hH => exact .header (hI.wrapped hsize) (fun hn => (hK hn).wrapped) hH
  | startStored hI hK ho hc hn =>
      exact Lzma2Decoder.At2.startStored (d := d.wrapped) (hI.wrapped hsize)
        (fun hn => (hK hn).wrapped) ho hc hn
  | stored hI hK hs hc hn hu hlt =>
      exact Lzma2Decoder.At2.stored (d := d.wrapped) (hI.wrapped hsize)
        (fun hn => (hK hn).wrapped) hs hc hn hu hlt
  | startPacked hI hK ho hc hn hp =>
      exact Lzma2Decoder.At2.startPacked (d := d.wrapped) (hI.wrapped hsize)
        (fun hn => (hK hn).wrapped) ho hc hn hp
  | packed base hat hp hs hc hn hu hpk hhead htarget =>
      rw [← d.decoder.wrapped_spec.1]
      exact Lzma2Decoder.At2.packed (d := d.wrapped) base (hat.wrapped hsize)
        (by rw [Lzma2Decoder.wrapped, wrapped_probs]; exact hp) hs hc hn hu hpk hhead htarget
  | lost hd hs hc hu hpk hdoom ho => exact .lost (dead_wrapped hd hsize) hs hc hu hpk hdoom ho
  | failed hs he hdoom ho => exact .failed (shape_wrapped hs) he hdoom ho
  | finished hI hs => exact .finished (hI.wrapped hsize) hs

/-- How a call of `decode` ends that began at `pos` with `out` written, `X` to read and
`room` bytes of output to fill; `acc` is what it had copied out before. -/
inductive Buf2End (pos : Pos) (out X input : List UInt8) (room : ℕ) (mode : FinishMode)
    (acc : List UInt8) (r : Buf2Result) : Prop
  | more (new : List UInt8) (pos' : Pos) (held : List UInt8) : r.out = acc ++ new →
      r.res = .ok ⟨input.length, r.out.length, .needsMoreInput⟩ → Moves2 pos X pos' held →
      r.d.At2 pos' held (new.reverse ++ out) → Exact pos' held (new.reverse ++ out) →
      pos'.out = new.reverse ++ out → pos'.step held = .more → new.length ≤ room →
      Buf2End pos out X input room mode acc r
  | full (n : ℕ) (new : List UInt8) (pos' : Pos) (held : List UInt8) : r.out = acc ++ new →
      n ≤ input.length → r.res = .ok ⟨n, r.out.length, .notFinished⟩ → mode = .any →
      Moves2 pos X pos' (held ++ input.drop n) → r.d.At2 pos' held (new.reverse ++ out) →
      Exact pos' held (new.reverse ++ out) → new.length = room →
      Buf2End pos out X input room mode acc r
  | finished (n : ℕ) (new : List UInt8) (r' : Ref2) : r.out = acc ++ new → n ≤ input.length →
      r.res = .ok ⟨n, r.out.length, .finishedWithMark⟩ →
      Moves2 pos X (.chunk r') (0 :: input.drop n) →
      r.d.At2 (.chunk r') [0] (new.reverse ++ out) → (Pos.chunk r').out = new.reverse ++ out →
      new.length ≤ room → Buf2End pos out X input room mode acc r
  | corrupt (new : List UInt8) (pos' : Pos) (ys : List UInt8) : r.out = acc ++ new →
      r.res = .error .corruptData → Moves2 pos X pos' ys → Doomed pos' ys →
      new.reverse ++ out <:+ pos'.out → Buf2End pos out X input room mode acc r
  | past (new : List UInt8) (pos' : Pos) (ys : List UInt8) : r.out = acc ++ new →
      r.res = .error .corruptData → mode = .endMark → Moves2 pos X pos' ys →
      new.reverse ++ out <:+ pos'.out → out.length + room < pos'.dueWith ys →
      Buf2End pos out X input room mode acc r

/-- A turn that went on only moved the start of the next. -/
theorem Buf2End.from {pos₁ : Pos} {Y new₁ acc : List UInt8} {room : ℕ} {r : Buf2Result}
    (hm : Moves2 pos X pos₁ Y) (hroom : new₁.length ≤ room)
    (h : Buf2End pos₁ (new₁.reverse ++ out) Y input (room - new₁.length) mode (acc ++ new₁) r) :
    Buf2End pos out X input room mode acc r := by
  have hrev : ∀ new : List UInt8, new.reverse ++ (new₁.reverse ++ out) =
      (new₁ ++ new).reverse ++ out := fun new => by rw [List.reverse_append, List.append_assoc]
  have hacc : ∀ new, acc ++ new₁ ++ new = acc ++ (new₁ ++ new) := fun new => List.append_assoc ..
  cases h with
  | more new pos' held h1 h2 h3 h4 h5 h6 h7 h8 =>
      rw [hrev] at h4 h5 h6
      exact .more (new₁ ++ new) pos' held (h1.trans (hacc new)) h2 (hm.trans h3) h4 h5 h6 h7
        (by rw [List.length_append]; omega)
  | full n new pos' held h1 h2 h3 h4 h5 h6 h7 h8 =>
      rw [hrev] at h6 h7
      exact .full n (new₁ ++ new) pos' held (h1.trans (hacc new)) h2 h3 h4 (hm.trans h5) h6 h7
        (by rw [List.length_append]; omega)
  | finished n new r' h1 h2 h3 h4 h5 h6 h7 =>
      rw [hrev] at h5 h6
      exact .finished n (new₁ ++ new) r' (h1.trans (hacc new)) h2 h3 (hm.trans h4) h5 h6
        (by rw [List.length_append]; omega)
  | corrupt new pos' ys h1 h2 h3 h4 h5 =>
      rw [hrev] at h5
      exact .corrupt (new₁ ++ new) pos' ys (h1.trans (hacc new)) h2 (hm.trans h3) h4 h5
  | past new pos' ys h1 h2 h3 h4 h5 h6 =>
      rw [hrev] at h5
      refine .past (new₁ ++ new) pos' ys (h1.trans (hacc new)) h2 h3 (hm.trans h4) h5 ?_
      rw [List.length_append, List.length_reverse] at h6
      omega

theorem Frame2.slice {new : List UInt8} {dicLimit : ℕ} {d' : Lzma2Decoder}
    (h : Frame2 d dicLimit new d') (hle : d.decoder.dicPos ≤ d.decoder.dic.size) :
    Lzma.slice d'.decoder.dic.toList d.decoder.dicPos (d.decoder.dicPos + new.length) =
      .ok new := by
  have hw := h.wrote
  have hlen := congrArg List.length hw
  simp only [List.length_take, List.length_append, Array.length_toList, h.pos] at hlen
  have hsize : d'.decoder.dic.toList.length = d'.decoder.dic.size := Array.length_toList
  rw [slice_spec (by omega) (by omega), Nat.add_sub_cancel_left, Except.ok.injEq]
  have hd := congrArg (List.drop d.decoder.dicPos) hw
  rw [List.drop_append_of_le_length (by rw [List.length_take, Array.length_toList]; omega),
    List.drop_take, h.pos, Nat.add_sub_cancel_left, List.drop_take, Nat.sub_self, List.take_zero,
    List.nil_append] at hd
  exact hd

/-- The limit of one turn: the caller's room, unless the dictionary ends before. -/
theorem wrapped_room (h : d.decoder.Shape) (hsize : d.decoder.prop.dictSize ≤ d.decoder.dicBufSize) :
    d.wrapped.decoder.dicPos < d.wrapped.decoder.dicBufSize :=
  LzmaDec.wrapped_lt h hsize

/-- A turn of `decodeBuf2`, whichever way its call ends. -/
theorem decodeBuf2_turn (fuel outSize : ℕ) (mode : FinishMode) (acc : List UInt8) {n : ℕ}
    (h : d.At2 pos held out) (hsize : d.decoder.prop.dictSize ≤ d.decoder.dicBufSize)
    (hn : n ≤ input.length) : ∃ r dicLimit cur, Dic2End d.wrapped pos held out
        (held ++ input.drop n) (input.drop n) dicLimit cur r ∧
      (dicLimit = d.wrapped.decoder.dicPos + outSize ∧ cur = mode ∨
        dicLimit < d.wrapped.decoder.dicPos + outSize ∧ cur = .any ∧
          d.wrapped.decoder.dicPos < dicLimit) ∧
      ((∀ e, r.res = .error e → decodeBuf2 input mode (fuel + 1) d outSize n acc =
          .ok { d := r.d, out := acc, res := .error e }) ∧
        ∀ k new, r.res = .ok k → Frame2 d.wrapped dicLimit new r.d →
          decodeBuf2 input mode (fuel + 1) d outSize n acc =
            if new.length = 0 ∨ outSize - new.length = 0 then
              .ok { d := r.d, out := acc ++ new
                    res := .ok ⟨n + k, (acc ++ new).length, r.status⟩ }
            else decodeBuf2 input mode fuel r.d (outSize - new.length) (n + k) (acc ++ new)) := by
  have hat := h.wrapped hsize
  have hroom := wrapped_room h.shape hsize
  have hshape := hat.shape
  have hle := hshape.size_le
  have hsrc : Lzma.slice input n input.length = .ok (input.drop n) := by
    rw [slice_spec hn le_rfl, List.take_of_length_le (by rw [List.length_drop])]
  obtain ⟨outCur, cur, hlim, hcase⟩ : ∃ outCur cur,
      (if outSize ≤ d.wrapped.decoder.dicBufSize - d.wrapped.decoder.dicPos then (outSize, mode)
        else (d.wrapped.decoder.dicBufSize - d.wrapped.decoder.dicPos, FinishMode.any)) =
        (outCur, cur) ∧ (outCur = outSize ∧ cur = mode ∧
          outSize ≤ d.wrapped.decoder.dicBufSize - d.wrapped.decoder.dicPos ∨
          outCur < outSize ∧ cur = .any ∧
            outCur = d.wrapped.decoder.dicBufSize - d.wrapped.decoder.dicPos) := by
    split
    · exact ⟨_, _, rfl, .inl ⟨rfl, rfl, by assumption⟩⟩
    · exact ⟨_, _, rfl, .inr ⟨by omega, rfl, rfl⟩⟩
  obtain ⟨r, hr, hend⟩ := decodeToDic_end (input.drop n) cur hat
    (show d.wrapped.decoder.dicPos ≤ d.wrapped.decoder.dicPos + outCur by omega)
    (by rcases hcase with hc | hc <;> omega)
  refine ⟨r, _, cur, hend, ?_, fun e he => ?_, fun k new hk hf => ?_⟩
  · rcases hcase with ⟨h1, h2, -⟩ | ⟨h1, h2, h3⟩
    · exact .inl ⟨by rw [h1], h2⟩
    · exact .inr ⟨by omega, h2, by omega⟩
  · rw [decodeBuf2]
    simp only [sub_ok hroom.le, ok_bind, hlim, hsrc, hr, he]
  · have hpos := hf.pos
    have hple := hf.pos_le
    have hslice := hf.slice (hroom.le.trans hle)
    have hnew : new.length ≤ outSize := by rcases hcase with hc | hc <;> omega
    rw [decodeBuf2]
    simp only [sub_ok hroom.le, ok_bind, hlim, hsrc, hr, hk,
      sub_ok (show d.wrapped.decoder.dicPos ≤ r.d.decoder.dicPos by omega),
      show r.d.decoder.dicPos - d.wrapped.decoder.dicPos = new.length by omega, hslice,
      sub_ok hnew]

theorem wrapped_sizes (d : Lzma2Decoder) : d.wrapped.decoder.prop = d.decoder.prop ∧
    d.wrapped.decoder.dicBufSize = d.decoder.dicBufSize := d.decoder.wrapped_spec

/-- From any state a call of `decode` returns, leaves such a state, and fails only on the input. -/
theorem decodeBuf2_sound {fuel outSize n : ℕ} (mode : FinishMode) (acc : List UInt8)
    (h : d.Sound) (hsize : d.decoder.prop.dictSize ≤ d.decoder.dicBufSize)
    (hn : n ≤ input.length) (hfuel : outSize < fuel) :
    ∃ r, decodeBuf2 input mode fuel d outSize n acc = .ok r ∧ r.d.Sound ∧
      r.d.decoder.prop.dictSize = d.decoder.prop.dictSize ∧
      r.d.decoder.dicBufSize = d.decoder.dicBufSize ∧
      r.d.decoder.probs.size = d.decoder.probs.size ∧
      ((∃ pr, r.res = .ok pr) ∨ r.res = .error .corruptData) := by
  induction fuel generalizing d outSize n acc with
  | zero => omega
  | succ fuel ih =>
      obtain ⟨pos, held, out, hat⟩ := h
      obtain ⟨hprop, hbuf⟩ := wrapped_sizes d
      obtain ⟨r, dicLimit, cur, ⟨new, hframe, hsound, hres, -⟩, hlim, herr, hok⟩ :=
        decodeBuf2_turn fuel outSize mode acc hat hsize hn
      have hdict := hframe.dict.trans (congrArg LzmaProps.dictSize hprop)
      have hbuf' := hframe.size.trans hbuf
      have hprobs := hframe.probs.trans (congrArg Array.size (wrapped_probs d.decoder))
      rcases hres with ⟨k, hk, hres⟩ | hres
      · rw [List.length_drop] at hk
        rw [hok k new hres hframe]
        by_cases hstop : new.length = 0 ∨ outSize - new.length = 0
        · rw [if_pos hstop]
          exact ⟨_, rfl, hsound, hdict, hbuf', hprobs, .inl ⟨_, rfl⟩⟩
        · rw [if_neg hstop]
          obtain ⟨r', hr', hs', hd', hb', hp', hres'⟩ := ih (acc ++ new) hsound
            (by rw [hdict, hbuf']; exact hsize) (show n + k ≤ input.length by omega)
            (show outSize - new.length < fuel by omega)
          exact ⟨r', hr', hs', hd'.trans hdict, hb'.trans hbuf', hp'.trans hprobs, hres'⟩
      · rw [herr _ hres]
        exact ⟨_, rfl, hsound, hdict, hbuf', hprobs, .inr rfl⟩

/-- A whole call of `decode`, by induction on the output it may still write. -/
theorem decodeBuf2_end {fuel outSize n : ℕ} (mode : FinishMode) (acc : List UInt8)
    (h : d.At2 pos held out) (hx : Exact pos held out) (hp : pos.Ok)
    (hsize : d.decoder.prop.dictSize ≤ d.decoder.dicBufSize) (hn : n ≤ input.length)
    (hfuel : outSize < fuel) : ∃ r, decodeBuf2 input mode fuel d outSize n acc = .ok r ∧
      Buf2End pos out (held ++ input.drop n) input outSize mode acc r ∧
      r.d.decoder.prop.dictSize = d.decoder.prop.dictSize ∧
      r.d.decoder.dicBufSize = d.decoder.dicBufSize := by
  induction fuel generalizing d pos held out outSize n acc with
  | zero => omega
  | succ fuel ih =>
      obtain ⟨hprop, hbuf⟩ := wrapped_sizes d
      obtain ⟨r, dicLimit, cur, ⟨new, hframe, -, -, hend⟩, hlim, herr, hok⟩ :=
        decodeBuf2_turn fuel outSize mode acc h hsize hn
      have hdict := hframe.dict.trans (congrArg LzmaProps.dictSize hprop)
      have hbuf' := hframe.size.trans hbuf
      have hpos := hframe.pos
      have hpos_le := hframe.pos_le
      have hroom : new.length ≤ outSize := by rcases hlim with hc | hc <;> omega
      have hgo : ∀ {k pos' held'}, n + k ≤ input.length → ¬ (new.length = 0 ∨
          outSize - new.length = 0) → Moves2 pos (held ++ input.drop n) pos'
            (held' ++ input.drop (n + k)) → r.d.At2 pos' held' (new.reverse ++ out) →
          Exact pos' held' (new.reverse ++ out) →
          ∃ r', decodeBuf2 input mode fuel r.d (outSize - new.length) (n + k) (acc ++ new) =
              .ok r' ∧ Buf2End pos out (held ++ input.drop n) input outSize mode acc r' ∧
            r'.d.decoder.prop.dictSize = d.decoder.prop.dictSize ∧
            r'.d.decoder.dicBufSize = d.decoder.dicBufSize := by
        intro k pos' held' hk hstop hm hat' hx'
        obtain ⟨r', hr', hend', hd', hb'⟩ := ih (acc ++ new) hat' hx' (Moves2.ok hm hp)
          (by rw [hdict, hbuf']; exact hsize) hk (show outSize - new.length < fuel by omega)
        exact ⟨r', hr', hend'.from hm hroom, hd'.trans hdict, hb'.trans hbuf'⟩
      cases hend hx with
      | more pos' held' hres hst hm hat' hx' hout hs =>
          have hall : n + (input.drop n).length = input.length := by
            rw [List.length_drop]
            omega
          rw [hok _ new hres hframe]
          by_cases hstop : new.length = 0 ∨ outSize - new.length = 0
          · rw [if_pos hstop]
            exact ⟨_, rfl, .more new pos' held' rfl (by rw [hall, hst]) hm hat' hx' hout hs hroom,
              hdict, hbuf'⟩
          · rw [if_neg hstop]
            refine hgo hall.le hstop ?_ hat' hx'
            rw [hall, List.drop_length, List.append_nil]
            exact hm
      | full k pos' held' hres hk hst hany hfull hm hat' hx' =>
          rw [List.length_drop] at hk
          rw [List.drop_drop] at hm
          rw [hok k new hres hframe]
          by_cases hstop : new.length = 0 ∨ outSize - new.length = 0
          · rw [if_pos hstop]
            refine ⟨_, rfl, .full (n + k) new pos' held' rfl (by omega) (by rw [hst]) ?_ hm hat' hx'
              ?_, hdict, hbuf'⟩
            · rcases hlim with ⟨-, hc⟩ | ⟨hlt, -, hc⟩
              · exact hc.symm.trans hany
              · omega
            · rcases hlim with hc | hc <;> omega
          · rw [if_neg hstop]
            exact hgo (by omega) hstop hm hat' hx'
      | finished k r' hres hk hst hm hat' hfin hout =>
          rw [List.length_drop] at hk
          rw [List.drop_drop] at hm
          rw [hok k new hres hframe]
          by_cases hstop : new.length = 0 ∨ outSize - new.length = 0
          · rw [if_pos hstop]
            exact ⟨_, rfl, .finished (n + k) new r' rfl (by omega) (by rw [hst]) hm hat' hout hroom,
              hdict, hbuf'⟩
          · rw [if_neg hstop]
            exact hgo (by omega) hstop hm hat' exact_chunk
      | corrupt pos' ys hres hm hd =>
          rw [herr _ hres]
          exact ⟨_, rfl, .corrupt [] pos' ys (List.append_nil _).symm rfl hm hd
            (h.written.trans (Moves2.out hm hp).1), hdict, hbuf'⟩
      | past pos' ys hres hmode hfull hm hdue =>
          rw [herr _ hres]
          obtain ⟨hlim', hcur⟩ := hlim.resolve_right fun hc => by
            rw [hmode] at hc
            cases hc.2.1
          refine ⟨_, rfl, .past [] pos' ys (List.append_nil _).symm rfl (hcur.symm.trans hmode) hm
            (h.written.trans (Moves2.out hm hp).1) ?_, hdict, hbuf'⟩
          rw [List.length_append, List.length_reverse] at hdue
          omega

end
end LzmaTurbo.Lzma2
