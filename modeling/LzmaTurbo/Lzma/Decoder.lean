import LzmaTurbo.Lzma.CallEnd

/-!
# The decoder a caller sees

`LzmaDecoder.decode` copies what it decodes out of the circular dictionary and
returns to the start of it when its end is reached.
-/
namespace LzmaTurbo.Lzma
open Machine BitProgram Window
open RangeDecoder (Coder run)

structure LzmaDecoder where
  p : LzmaDec

def LzmaDecoder.new (props : LzmaProps) : LzmaDecoder := ⟨LzmaDec.new props⟩

def LzmaDecoder.reset (d : LzmaDecoder) : LzmaDecoder := ⟨d.p.init⟩

/-- `out` is what was written to the caller's buffer, also by a call that fails. -/
structure BufResult where
  p : LzmaDec
  out : List UInt8
  res : Except Error Progress

/-- The write position goes back to the start of a full dictionary. -/
def LzmaDec.wrapped (p : LzmaDec) : LzmaDec :=
  if p.dicPos = p.dicBufSize then { p with dicPos := 0 } else p

/-- One turn's limit and mode: the caller's, unless the dictionary ends before. -/
def LzmaDec.outLimit (p : LzmaDec) (outSize : ℕ) (finish : FinishMode) :
    Except Fault (ℕ × FinishMode) := do
  let room ← sub p.dicBufSize p.dicPos
  .ok (if room < outSize then (p.dicBufSize, .any) else (p.dicPos + outSize, finish))

/-- The loop of `decode`: a turn that goes on has written a byte. -/
def decodeBuf (input : List UInt8) (finish : FinishMode) :
    ℕ → LzmaDec → ℕ → ℕ → ℕ → List UInt8 → Except Fault BufResult
  | 0, _, _, _, _, _ => .error .fuel
  | fuel + 1, p, outSize, inSize, srcPos, out => do
      let p := p.wrapped
      let (dicLimit, curFinishMode) ← p.outLimit outSize finish
      let src ← slice input srcPos input.length
      let r ← lzmaDecDecodeToDic p dicLimit src curFinishMode
      match r.res with
      | .error e => .ok { p := r.p, out, res := .error e }
      | .ok inSizeCur => do
          let inSize ← sub inSize inSizeCur
          let outSizeCur ← sub r.p.dicPos p.dicPos
          let bytes ← slice r.p.dic.toList p.dicPos (p.dicPos + outSizeCur)
          let outSize ← sub outSize outSizeCur
          let out := out ++ bytes
          if outSizeCur = 0 ∨ outSize = 0 then
            .ok { p := r.p, out
                  res := .ok { read := srcPos + inSizeCur, written := out.length
                               status := r.status } }
          else decodeBuf input finish fuel r.p outSize inSize (srcPos + inSizeCur) out

def LzmaDecoder.decode (d : LzmaDecoder) (input : List UInt8) (outSize : ℕ)
    (finish : FinishMode) : Except Fault BufResult :=
  decodeBuf input finish (outSize + 1) d.p outSize input.length 0 []

section
variable {p q : LzmaDec} {c : Config} {s : RefState} {temp w w' input : List UInt8}

theorem LzmaDec.At.shape (h : p.At c temp w) : p.Shape := by
  cases h with
  | header h => exact h.toShape
  | body h _ => exact h.toShape

theorem LzmaDec.Dead.shape (h : p.Dead) : p.Shape := by
  cases h with
  | marked h => exact h.toShape
  | failed h => exact h

theorem LzmaDec.At.window (h : p.At c temp w) : p.Window w := by
  cases h with
  | header h => exact h.toWindow
  | body h _ => exact h.toWindow

theorem LzmaDec.At.ok (h : p.At c temp w) : c.Ok p.prop := by
  cases h with
  | header h => exact h.base
  | body h _ => exact h.begun.toOk

/-- What is written is a prefix of what is decoded. -/
theorem LzmaDec.At.written (h : p.At c temp w) : w <:+ c.hist := by
  cases h with
  | header h => exact List.suffix_rfl
  | body h _ =>
      rw [Config.hist, h.owes.hist]
      exact suffix_copyBack _ _ _

theorem LzmaDec.Window.wrap (h : p.Window w) (hfull : p.dicPos = p.dicBufSize)
    (hsize : p.prop.dictSize ≤ p.dicBufSize) : ({ p with dicPos := 0 } : LzmaDec).Window w := by
  have hh := h.holds
  rw [hfull] at hh
  exact ⟨hh.wrap, .inl hsize, h.processed, h.check⟩

/-- The wrap changes no byte a distance can reach. -/
theorem LzmaDec.At.wrapped (h : p.At c temp w) (hsize : p.prop.dictSize ≤ p.dicBufSize) :
    p.wrapped.At c temp w := by
  unfold LzmaDec.wrapped
  by_cases hfull : p.dicPos = p.dicBufSize
  · rw [if_pos hfull]
    cases h with
    | header h =>
        exact .header ⟨⟨Nat.zero_le _, h.size_le, h.size_lt, h.probs, h.tempBuf_size⟩,
          h.toWindow.wrap hfull hsize, h.remain, h.fresh, h.kept, h.base, h.temp_le, h.bytes⟩
    | body h hh =>
        have hw := h.toWindow.wrap hfull hsize
        exact .body ⟨⟨Nat.zero_le _, h.size_le, h.size_lt, h.probs, h.tempBuf_size⟩, hw,
          ⟨hw.holds, hw.fits, hw.processed, h.owes.state, h.owes.reps, h.owes.hist, h.owes.reach⟩,
          h.remain_le, h.range, h.code, h.table, h.begun⟩ ⟨hh.temp_le, hh.bytes, hh.short, hh.idle⟩
  · rwa [if_neg hfull]

theorem LzmaDec.Marked.wrapped {d : Coder ℕ} (h : p.Marked s d)
    (hsize : p.prop.dictSize ≤ p.dicBufSize) : p.wrapped.Marked s d := by
  unfold LzmaDec.wrapped
  by_cases hfull : p.dicPos = p.dicBufSize
  · rw [if_pos hfull]
    exact ⟨⟨Nat.zero_le _, h.size_le, h.size_lt, h.probs, h.tempBuf_size⟩,
      h.toWindow.wrap hfull hsize, h.remain, h.code⟩
  · rwa [if_neg hfull]

/-- The bytes a call appended, read off the dictionary. -/
theorem LzmaDec.Window.slice (h : q.Window w') (hg : Grown p w q w') (hs : w <:+ w')
    (hle : p.dicPos ≤ q.dicPos) : ∃ new, w' = new.reverse ++ w ∧
      new.length = q.dicPos - p.dicPos ∧ slice q.dic.toList p.dicPos q.dicPos = .ok new := by
  obtain ⟨old, rfl⟩ := hs
  unfold Grown at hg
  rw [List.length_append] at hg
  have h1 := h.holds.pos_le
  have h2 := h.holds.size_le
  refine ⟨old.reverse, by rw [List.reverse_reverse], by rw [List.length_reverse]; omega, ?_⟩
  rw [slice_spec hle (by rw [Array.length_toList]; omega),
    ← h.holds.extract (show p.dicPos + old.length = _ by omega), Array.toList_extract, List.extract_eq_take_drop]

theorem LzmaDec.wrapped_spec (p : LzmaDec) : p.wrapped.prop = p.prop ∧
    p.wrapped.dicBufSize = p.dicBufSize := by
  unfold LzmaDec.wrapped
  split <;> exact ⟨rfl, rfl⟩

theorem LzmaDec.wrapped_lt (h : p.Shape) (hsize : p.prop.dictSize ≤ p.dicBufSize) :
    p.wrapped.dicPos < p.wrapped.dicBufSize := by
  have h1 := p.prop.dict_ge
  have h2 : (1 : ℕ) ≤ lzmaDicMin := by decide
  have h3 := h.pos_le
  unfold LzmaDec.wrapped
  split
  · change 0 < p.dicBufSize
    omega
  · omega

theorem LzmaDec.outLimit_spec (hp : p.dicPos < p.dicBufSize) (outSize : ℕ)
    (finish : FinishMode) : ∃ dicLimit mode, p.outLimit outSize finish = .ok (dicLimit, mode) ∧
      p.dicPos ≤ dicLimit ∧ dicLimit ≤ p.dicBufSize ∧
      (dicLimit = p.dicPos + outSize ∧ mode = finish ∨
        dicLimit < p.dicPos + outSize ∧ p.dicPos < dicLimit ∧ mode = .any) := by
  unfold LzmaDec.outLimit
  rw [sub_ok hp.le, ok_bind]
  by_cases hroom : p.dicBufSize - p.dicPos < outSize
  · rw [if_pos hroom]
    exact ⟨_, _, rfl, hp.le, le_rfl, .inr ⟨by omega, hp, rfl⟩⟩
  · rw [if_neg hroom]
    exact ⟨_, _, rfl, by omega, by omega, .inl ⟨rfl, rfl⟩⟩

/-- How a call of `decode` ends that began at `c` with `w` written, `X` to read and
`room` bytes of output to fill. -/
inductive BufEnd (prop : LzmaProps) (w : List UInt8) (c : Config) (X input : List UInt8)
    (room : ℕ) (mode : FinishMode) (out : List UInt8) (r : BufResult) : Prop
  | more (new temp : List UInt8) (c' : Config) : r.out = out ++ new →
      r.res = .ok ⟨input.length, r.out.length, .needsMoreInput⟩ → Moves prop c X c' temp →
      r.p.At c' temp c'.hist → c'.hist = new.reverse ++ w → new.length ≤ room →
      c'.step prop temp = .more →
      BufEnd prop w c X input room mode out r
  | full (n : ℕ) (new temp : List UInt8) (c' : Config) : r.out = out ++ new → n ≤ input.length →
      r.res = .ok ⟨n, r.out.length, .notFinished⟩ → Moves prop c X c' (temp ++ input.drop n) →
      r.p.At c' temp (new.reverse ++ w) → new.length = room → mode = .any →
      BufEnd prop w c X input room mode out r
  | maybe (n : ℕ) (new temp : List UInt8) (s : RefState) : r.out = out ++ new →
      n ≤ input.length → r.res = .ok ⟨n, r.out.length, .maybeFinishedWithoutMark⟩ →
      Moves prop c X (.body s) (temp ++ input.drop n) → r.p.At (.body s) temp s.hist →
      s.hist = new.reverse ++ w → new.length = room → s.coder.code = 0 →
      BufEnd prop w c X input room mode out r
  | mark (n : ℕ) (new ys : List UInt8) (s s' : RefState) (d : Coder ℕ) : r.out = out ++ new →
      n ≤ input.length → r.res = .ok ⟨n, r.out.length, .finishedWithMark⟩ →
      Moves prop c X (.body s) ys → s.step prop ys = .mark s' (input.drop n) → r.p.Marked s d →
      d.code = 0 → s.hist = new.reverse ++ w → new.length ≤ room → BufEnd prop w c X input room mode out r
  | reject (new ys : List UInt8) (c' : Config) : r.out = out ++ new →
      r.res = .error .corruptData → Moves prop c X c' ys → c'.step prop ys = .reject →
      r.p.Sound → r.p.Window c'.hist → new.reverse ++ w <:+ c'.hist →
      BufEnd prop w c X input room mode out r
  | past (new temp rest w' : List UInt8) (s : RefState) : r.out = out ++ new →
      r.res = .error .corruptData → mode = .endMark → Moves prop c X (.body s) (temp ++ rest) →
      r.p.At (.body s) temp w' → new.reverse ++ w <:+ w' → w'.length = w.length + room →
      (w' ≠ s.hist ∨ ∃ s' zs, s.step prop (temp ++ rest) = .next (.body s') zs) →
      BufEnd prop w c X input room mode out r

/-- A turn that went on only moved the start of the next. -/
theorem BufEnd.from {prop : LzmaProps} {c₁ : Config} {X Y new₁ out : List UInt8} {room : ℕ}
    {mode : FinishMode} {r : BufResult} (hm : Moves prop c X c₁ Y) (hroom : new₁.length ≤ room)
    (h : BufEnd prop (new₁.reverse ++ w) c₁ Y input (room - new₁.length) mode (out ++ new₁) r) :
    BufEnd prop w c X input room mode out r := by
  have hrev : ∀ new : List UInt8, new.reverse ++ (new₁.reverse ++ w) = (new₁ ++ new).reverse ++ w :=
    fun new => by rw [List.reverse_append, List.append_assoc]
  have hout : ∀ new, out ++ new₁ ++ new = out ++ (new₁ ++ new) := fun new => List.append_assoc ..
  cases h with
  | more new temp c' ho hres hmv hat hh hlen hs =>
      exact .more (new₁ ++ new) temp c' (ho.trans (hout new)) hres (hm.trans hmv) hat
        (hh.trans (hrev new)) (by rw [List.length_append]; omega) hs
  | full n new temp c' ho hn hres hmv hat hlen hmode =>
      exact .full n (new₁ ++ new) temp c' (ho.trans (hout new)) hn hres (hm.trans hmv)
        (hrev new ▸ hat) (by rw [List.length_append]; omega) hmode
  | maybe n new temp s ho hn hres hmv hat hh hlen hc =>
      exact .maybe n (new₁ ++ new) temp s (ho.trans (hout new)) hn hres (hm.trans hmv) hat
        (hh.trans (hrev new)) (by rw [List.length_append]; omega) hc
  | mark n new ys s s' d ho hn hres hmv hs hmk hc hh hlen =>
      exact .mark n (new₁ ++ new) ys s s' d (ho.trans (hout new)) hn hres (hm.trans hmv) hs hmk hc
        (hh.trans (hrev new)) (by rw [List.length_append]; omega)
  | reject new ys c' ho hres hmv hs hsound hw hsuf =>
      exact .reject (new₁ ++ new) ys c' (ho.trans (hout new)) hres (hm.trans hmv) hs hsound hw
        (hrev new ▸ hsuf)
  | past new temp rest w' s ho hres hmode hmv hat hsuf hlen hgo =>
      refine .past (new₁ ++ new) temp rest w' s (ho.trans (hout new)) hres hmode (hm.trans hmv)
        hat (hrev new ▸ hsuf) ?_ hgo
      rw [hlen, List.length_append, List.length_reverse]
      omega

/-- One turn of `decodeBuf`, once the call it makes is known to have succeeded. -/
theorem decodeBuf_ok (fuel : ℕ) (out : List UInt8) {outSize n m dicLimit : ℕ}
    {mode curMode : FinishMode} {r : DicResult} (hn : n ≤ input.length)
    (hlim : p.wrapped.outLimit outSize mode = .ok (dicLimit, curMode))
    (hr : lzmaDecDecodeToDic p.wrapped dicLimit (input.drop n) curMode = .ok r)
    (hres : r.res = .ok m) (hm : m ≤ (input.drop n).length)
    (hw : r.p.Window w') (hg : Grown p.wrapped w r.p w') (hs : w <:+ w')
    (hge : p.wrapped.dicPos ≤ r.p.dicPos) (hle : r.p.dicPos ≤ p.wrapped.dicPos + outSize) :
    ∃ new, w' = new.reverse ++ w ∧ new.length ≤ outSize ∧
      new.length = r.p.dicPos - p.wrapped.dicPos ∧ n + m ≤ input.length ∧
      (input.drop n).drop m = input.drop (n + m) ∧
      decodeBuf input mode (fuel + 1) p outSize (input.length - n) n out =
        if new.length = 0 ∨ outSize - new.length = 0 then
          .ok { p := r.p, out := out ++ new
                res := .ok ⟨n + m, (out ++ new).length, r.status⟩ }
        else decodeBuf input mode fuel r.p (outSize - new.length) (input.length - (n + m)) (n + m)
          (out ++ new) := by
  obtain ⟨new, hnew, hlen, hslice⟩ := hw.slice hg hs hge
  rw [List.length_drop] at hm
  refine ⟨new, hnew, by omega, hlen, by omega, List.drop_drop, ?_⟩
  have hsrc : Lzma.slice input n input.length = .ok (input.drop n) := by
    rw [slice_spec hn le_rfl, List.take_of_length_le (by rw [List.length_drop])]
  rw [show r.p.dicPos = p.wrapped.dicPos + new.length by omega] at hslice
  simp only [decodeBuf, hlim, hsrc, hr, hres, ok_bind, sub_ok hm, sub_ok hge, ← hlen, hslice,
    sub_ok (show new.length ≤ outSize by omega), Nat.sub_sub]

/-- After the end marker a call reports it again and writes nothing. -/
theorem decodeBuf_marked (fuel outSize : ℕ) (mode : FinishMode) (out : List UInt8) {n : ℕ}
    {d : Coder ℕ} (h : p.Marked s d) (hc : d.code = 0) (hsize : p.prop.dictSize ≤ p.dicBufSize)
    (hn : n ≤ input.length) :
    ∃ r, decodeBuf input mode (fuel + 1) p outSize (input.length - n) n out = .ok r ∧
      r.out = out ∧ r.res = .ok ⟨n, out.length, .finishedWithMark⟩ ∧ r.p.Marked s d ∧
      r.p.prop = p.prop ∧ r.p.dicBufSize = p.dicBufSize := by
  have hmk := h.wrapped hsize
  obtain ⟨hprop, hbuf⟩ := p.wrapped_spec
  obtain ⟨dicLimit, curMode, hlim, hl, hls, -⟩ := LzmaDec.outLimit_spec
    (LzmaDec.wrapped_lt h.toShape hsize) outSize mode
  obtain ⟨r, hr, hp, hres⟩ := lzmaDecDecodeToDic_marked dicLimit
    (input.drop n) curMode hmk
  obtain ⟨-, hok, hstatus⟩ : p.wrapped.code = 0 ∧ r.res = .ok 0 ∧ r.status = .finishedWithMark :=
    hres.resolve_right fun hne => hne.1 (hmk.code.trans hc)
  obtain ⟨new, hnew, -, hlen, -, -, heq⟩ := decodeBuf_ok fuel out hn hlim hr hok
    (Nat.zero_le _) (hp ▸ hmk.toWindow) (by rw [Grown, hp]) List.suffix_rfl (by rw [hp])
    (by rw [hp]; omega)
  have hnil : new = [] := List.eq_nil_of_length_eq_zero (by rw [hlen, hp, Nat.sub_self])
  subst hnil
  rw [heq, if_pos (.inl rfl), List.append_nil, hstatus]
  exact ⟨_, rfl, rfl, rfl, hp ▸ hmk, by rw [hp, hprop], by rw [hp, hbuf]⟩

/-- A turn that fails ends the call. -/
theorem decodeBuf_error {fuel outSize n dicLimit : ℕ} {mode curMode : FinishMode}
    {out : List UInt8} {r : DicResult} {e : Error} (hn : n ≤ input.length)
    (hlim : p.wrapped.outLimit outSize mode = .ok (dicLimit, curMode))
    (hr : lzmaDecDecodeToDic p.wrapped dicLimit (input.drop n) curMode = .ok r)
    (hres : r.res = .error e) :
    decodeBuf input mode (fuel + 1) p outSize (input.length - n) n out =
      .ok { p := r.p, out, res := .error e } := by
  have hsrc : Lzma.slice input n input.length = .ok (input.drop n) := by
    rw [slice_spec hn le_rfl, List.take_of_length_le (by rw [List.length_drop])]
  simp only [decodeBuf, hlim, hsrc, hr, hres, ok_bind]

/-- A whole call of `decode`, by induction on the output it may still write. -/
theorem decodeBuf_end {fuel outSize n : ℕ} (mode : FinishMode) (out : List UInt8)
    (h : p.At c temp w) (hsize : p.prop.dictSize ≤ p.dicBufSize) (hn : n ≤ input.length)
    (hfuel : outSize < fuel) :
    ∃ r, decodeBuf input mode fuel p outSize (input.length - n) n out = .ok r ∧
      BufEnd p.prop w c (temp ++ input.drop n) input outSize mode out r ∧
      r.p.prop = p.prop ∧ r.p.dicBufSize = p.dicBufSize := by
  induction fuel generalizing p c temp w outSize n out with
  | zero => omega
  | succ fuel ih =>
      have hat := h.wrapped hsize
      obtain ⟨hprop, hbuf⟩ := p.wrapped_spec
      obtain ⟨dicLimit, curMode, hlim, hl, hls, hcur⟩ := LzmaDec.outLimit_spec
        (LzmaDec.wrapped_lt h.shape hsize) outSize mode
      obtain ⟨r, hr, hend, hframe⟩ := lzmaDecDecodeToDic_at (input.drop n) curMode hat hl
        hls (show w.length + (dicLimit - p.wrapped.dicPos) + p.wrapped.dicPos = _ by omega)
      have hwin := hat.window
      have hlo := hframe.pos_ge
      have hhi := hframe.pos_le
      have hprop' := hframe.prop.trans hprop
      have hbuf' := hframe.dicBufSize.trans hbuf
      have hgrow : ∀ {c' : Config} {Y w' : List UInt8},
          Moves p.wrapped.prop c (temp ++ input.drop n) c' Y → w' <:+ c'.hist →
          Grown p.wrapped w r.p w' → w <:+ w' := by
        intro c' Y w' hm hw' hg
        unfold Grown at hg
        exact List.suffix_of_suffix_length_le (hat.written.trans (hm.suffix hat.ok)) hw' (by omega)
      have hend₀ := hend
      cases hend with
      | more c' temp' hres hst hm₀ hat' hg hstep =>
          have hm := hm₀.moves
          obtain ⟨new, hnew, hle, hlen, hnm, hdrop, heq⟩ := decodeBuf_ok fuel out
            hn hlim hr hres le_rfl hat'.window hg (hgrow hm List.suffix_rfl hg) hlo (by omega)
          have hall : n + (input.drop n).length = input.length := by
            rw [List.length_drop]
            omega
          rw [hprop] at hm hstep
          rw [heq]
          by_cases hstop : new.length = 0 ∨ outSize - new.length = 0
          · rw [if_pos hstop]
            exact ⟨_, rfl, .more new temp' c' rfl (by rw [hall, hst]) hm hat' hnew hle hstep,
              hprop', hbuf'⟩
          · rw [if_neg hstop]
            obtain ⟨r', hr', hend', hp, hb⟩ := ih (out ++ new) hat'
              (by rw [hprop', hbuf']; exact hsize) hnm
              (by omega : outSize - new.length < fuel)
            have hm' : Moves p.prop c (temp ++ input.drop n) c'
                (temp' ++ input.drop (n + (input.drop n).length)) := by
              rw [hall, List.drop_length, List.append_nil]
              exact hm
            exact ⟨r', hr', .from hm' hle (hnew ▸ hprop' ▸ hend'), hp.trans hprop', hb.trans hbuf'⟩
      | notFinished m c' temp' w' hres hm0 hst hmode hm₀ hat' hg hpos =>
          have hm := hm₀.moves
          obtain ⟨new, hnew, hle, hlen, hnm, hdrop, heq⟩ := decodeBuf_ok fuel out
            hn hlim hr hres hm0 hat'.window hg (hgrow hm hat'.written hg) hlo (by omega)
          rw [hprop, hdrop] at hm
          rw [heq]
          by_cases hstop : new.length = 0 ∨ outSize - new.length = 0
          · rw [if_pos hstop]
            exact ⟨_, rfl, .full (n + m) new temp' c' rfl hnm (by rw [hst]) hm (hnew ▸ hat')
              (by omega) (by
                rcases hcur with hcur | hcur
                · exact hcur.2.symm.trans hmode
                · omega), hprop', hbuf'⟩
          · rw [if_neg hstop]
            obtain ⟨r', hr', hend', hp, hb⟩ := ih (out ++ new) hat'
              (by rw [hprop', hbuf']; exact hsize) hnm
              (by omega : outSize - new.length < fuel)
            exact ⟨r', hr', .from hm hle (hnew ▸ hprop' ▸ hend'), hp.trans hprop', hb.trans hbuf'⟩
      | maybe m s temp' hres hm0 hst hm₀ hat' hg hpos hcode =>
          have hm := hm₀.moves
          obtain ⟨new, hnew, hle, hlen, hnm, hdrop, heq⟩ := decodeBuf_ok fuel out
            hn hlim hr hres hm0 hat'.window hg (hgrow hm List.suffix_rfl hg) hlo (by omega)
          rw [hprop, hdrop] at hm
          rw [heq]
          by_cases hstop : new.length = 0 ∨ outSize - new.length = 0
          · rw [if_pos hstop]
            exact ⟨_, rfl, .maybe (n + m) new temp' s rfl hnm (by rw [hst]) hm hat' hnew (by omega)
              hcode, hprop', hbuf'⟩
          · rw [if_neg hstop]
            obtain ⟨r', hr', hend', hp, hb⟩ := ih (out ++ new) hat'
              (by rw [hprop', hbuf']; exact hsize) hnm
              (by omega : outSize - new.length < fuel)
            exact ⟨r', hr', .from hm hle (hnew ▸ hprop' ▸ hend'), hp.trans hprop', hb.trans hbuf'⟩
      | mark m s s' ys d hres hm0 hst hm₀ hstep hmk hc hg =>
          have hm := hm₀.moves
          obtain ⟨new, hnew, hle, hlen, hnm, hdrop, heq⟩ := decodeBuf_ok fuel out
            hn hlim hr hres hm0 hmk.toWindow hg (hgrow hm List.suffix_rfl hg) hlo (by omega)
          rw [hprop] at hm hstep
          rw [hdrop] at hstep
          rw [heq]
          by_cases hstop : new.length = 0 ∨ outSize - new.length = 0
          · rw [if_pos hstop]
            exact ⟨_, rfl, .mark (n + m) new ys s s' d rfl hnm (by rw [hst]) hm hstep hmk hc
              hnew hle,
              hprop', hbuf'⟩
          · rw [if_neg hstop]
            obtain ⟨fuel, rfl⟩ : ∃ f, fuel = f + 1 := ⟨fuel - 1, by omega⟩
            obtain ⟨r', hr', hout, hres', hmk', hp, hb⟩ := decodeBuf_marked fuel
              (outSize - new.length) mode (out ++ new) hmk hc
              (by rw [hprop', hbuf']; exact hsize) hnm
            exact ⟨r', hr', .mark (n + m) new ys s s' d hout hnm (by rw [hres', hout]) hm hstep
              hmk' hc hnew hle, hp.trans hprop', hb.trans hbuf'⟩
      | reject c' ys hres hm₀ hstep hdead hwin' hg =>
          have hm := hm₀.moves
          rw [decodeBuf_error hn hlim hr hres]
          rw [hprop] at hm hstep
          exact ⟨_, rfl, .reject [] ys c' (List.append_nil _).symm rfl hm hstep hend₀.sound.1 hwin'
            (hat.written.trans (hm.suffix (hprop ▸ hat.ok))), hprop', hbuf'⟩
      | past s temp' rest w' hres hmode hst hm₀ hat' hg hpos hgo =>
          have hm := hm₀.moves
          rw [decodeBuf_error hn hlim hr hres]
          have hsuf := hgrow hm hat'.written hg
          rw [hprop] at hm hgo
          subst hmode
          obtain ⟨hlimit, hmode⟩ : dicLimit = p.wrapped.dicPos + outSize ∧ .endMark = mode := by
            rcases hcur with hcur | hcur
            · exact hcur
            · exact absurd hcur.2.2 (by decide)
          unfold Grown at hg
          exact ⟨_, rfl, .past [] temp' rest w' s (List.append_nil _).symm rfl hmode.symm hm hat'
            hsuf (by omega) (hgo.imp_right And.right), hprop', hbuf'⟩

end
end LzmaTurbo.Lzma
