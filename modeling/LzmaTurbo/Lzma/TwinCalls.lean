import LzmaTurbo.Lzma.CallEnd
import LzmaTurbo.Lzma.Twins

/-!
# A call on twins

Two decoders at one place of the reference, alike in every field that is read, end a call alike:
turn by turn they read the same bytes, move to the same position and stop for the same reason.
-/
namespace LzmaTurbo.Lzma
open Machine BitProgram Window
open RangeDecoder (Coder Outcome run)

structure DicResult.Twin (r r' : DicResult) : Prop where
  p : r.p.Twin r'.p
  status : r'.status = r.status
  res : r'.res = r.res

/-- Alike in what a call looks at before it has a range coder, or after an end marker. -/
structure LzmaDec.Loose (p q : LzmaDec) : Prop where
  prop : q.prop = p.prop
  size : q.dicBufSize = p.dicBufSize
  pos : q.dicPos = p.dicPos
  remain : q.remainLen = p.remainLen
  held : q.tempBufSize = p.tempBufSize
  code : p.remainLen = kMatchSpecLenStart → q.code = p.code

/-- Two decoders at one place of the reference, or past it. A history of `len` bytes went with
the position `org`; both grow together. -/
inductive LzmaDec.Pair (len org : ℕ) (p q : LzmaDec) : Prop
  | live {c : Config} {temp w : List UInt8} : p.At c temp w → q.At c temp w →
      w.length + org = len + p.dicPos → Pair len org p q
  | dead {w : List UInt8} : p.Dead → q.Dead → p.Window w → q.Window w →
      w.length + org = len + p.dicPos → Pair len org p q

structure LzmaDec.Alike (len org : ℕ) (p q : LzmaDec) : Prop extends p.Loose q where
  pair : LzmaDec.Pair len org p q

structure DicResult.Alike (len org : ℕ) (r r' : DicResult) : Prop where
  p : LzmaDec.Alike len org r.p r'.p
  status : r'.status = r.status
  res : r'.res = r.res

def Turn.Twin : Turn → Turn → Prop
  | .stop r, .stop r' => r.Twin r'
  | .again p n inSize srcLen, .again q n' inSize' srcLen' =>
      p.Twin q ∧ n' = n ∧ inSize' = inSize ∧ srcLen' = srcLen
  | _, _ => False

section
variable {p q : LzmaDec} {s : RefState} {w src temp : List UInt8} {dicLimit n : ℕ}

theorem lzmaDecWriteRem_twin (htwin : p.Twin q) (limit : ℕ) :
    Paired (lzmaDecWriteRem p limit) (lzmaDecWriteRem q limit) LzmaDec.Twin := by
  rw [htwin.eq]
  unfold lzmaDecWriteRem
  refine .ite (fun _ => .ok ⟨rfl⟩) fun _ => .bind (.same _) ?_
  rintro rem _ rfl
  refine .ite (fun _ => .ok ⟨rfl⟩) fun _ => .bind (.same _) ?_
  rintro checkDicSize _ rfl
  refine .bind (.same _) ?_
  rintro remainLen _ rfl
  exact .bind (.any _ _) fun _ _ _ => .ok ⟨rfl⟩

theorem afterReal_twin {res res' : RealResult} (h : res.Twin res') (held : ℕ) (agrees : Bool)
    (tempBufSize srcPos inSize srcLen : ℕ) :
    Paired (afterReal res held agrees tempBufSize srcPos inSize srcLen)
      (afterReal res' held agrees tempBufSize srcPos inSize srcLen) Turn.Twin := by
  unfold afterReal
  rw [h.buf, h.ok, h.p.eq]
  refine .ite (fun _ => .ok ⟨⟨rfl⟩, rfl, rfl⟩) fun _ => .bind (.same _) ?_
  rintro processed _ rfl
  refine .bind (.same _) ?_
  rintro inSize _ rfl
  exact .ite (fun _ => .ok ⟨⟨rfl⟩, rfl, rfl⟩) fun _ => .ok ⟨⟨rfl⟩, rfl, rfl, rfl⟩

/-- The dry run of twins. -/
theorem lzmaDecTryDummy_twin (h : p.Core s w) (h' : q.Core s w) (hr : p.remainLen = 0)
    (htwin : p.Twin q) (buf : List UInt8) :
    ((run (symbolProg (s.ctx p.prop)) s.coder buf).flush = .more ∧
      ∃ pos pos', lzmaDecTryDummy p buf = .ok (.inputEof, pos) ∧
        lzmaDecTryDummy q buf = .ok (.inputEof, pos')) ∨
    ∃ sym d rest k, (run (symbolProg (s.ctx p.prop)) s.coder buf).flush = .done sym d rest ∧
      lzmaDecTryDummy p buf = .ok (kindOf sym, k) ∧
      lzmaDecTryDummy q buf = .ok (kindOf sym, k) := by
  have hrem := htwin.remain.trans hr
  have hprop := htwin.prop
  have hq := lzmaDecTryDummy_spec h' hrem buf
  rw [hprop] at hq
  obtain ⟨hmore, pos, hd⟩ | ⟨sym, d, rest, k, hdone, hd, hk, hrest⟩ :=
    lzmaDecTryDummy_spec h hr buf
  · obtain ⟨-, pos', hd'⟩ | ⟨_, _, _, _, hdone', -⟩ := hq
    · exact .inl ⟨hmore, pos, pos', hd, hd'⟩
    · rw [hmore] at hdone'
      cases hdone'
  · obtain ⟨hmore', -⟩ | ⟨sym', d', rest', k', hdone', hd', hk', hrest'⟩ := hq
    · rw [hdone] at hmore'
      cases hmore'
    · rw [hdone, Outcome.done.injEq] at hdone'
      obtain ⟨rfl, rfl, rfl⟩ := hdone'
      have hlen := congrArg List.length (hrest.trans hrest'.symm)
      rw [List.length_drop, List.length_drop] at hlen
      obtain rfl : k' = k := by omega
      exact .inr ⟨_, _, _, _, hdone, hd, hd'⟩

theorem decodeFromSrc_twin (h : p.Core s w) (h' : q.Core s w) (hr : p.remainLen = 0)
    (htwin : p.Twin q) (hl : p.dicPos ≤ dicLimit) (hls : dicLimit ≤ p.dicBufSize) :
    Paired (decodeFromSrc p dicLimit src (decide (dicLimit ≤ p.dicPos)) n (src.length - n) n)
      (decodeFromSrc q dicLimit src (decide (dicLimit ≤ p.dicPos)) n (src.length - n) n)
      Turn.Twin := by
  have hsize := htwin.held
  have hreal : ∀ bufLimit, (bufLimit = 0 ∨ p.dicPos < dicLimit ∧
      bufLimit + 20 ≤ (src.drop n).length) → Paired
        (lzmaDecDecodeReal2 p dicLimit (src.drop n) bufLimit)
        (lzmaDecDecodeReal2 q dicLimit (src.drop n) bufLimit) RealResult.Twin :=
    fun _ hcase => lzmaDecDecodeReal2_twin h h' hr htwin hl hls hcase
  unfold decodeFromSrc
  rw [hsize]
  refine .ite (fun _ => ?_) fun hlarge => ?_
  · refine .bind (.same _) ?_
    rintro _ input rfl
    obtain ⟨-, pos, pos', hd, hd'⟩ | ⟨sym, d, rest, k, -, hd, hd'⟩ :=
      lzmaDecTryDummy_twin h h' hr htwin input
    · simp only [hd, hd', ok_bind, if_true]
      refine .ite (fun _ => .ok ⟨?_, rfl, rfl⟩) fun _ =>
        .bind (.any _ _) fun _ _ _ => .ok ⟨?_, rfl, rfl⟩
      · rw [htwin.eq]
        exact ⟨rfl⟩
      · rw [htwin.eq]
        exact ⟨rfl⟩
    · simp only [hd, hd', ok_bind, if_neg (kindOf_ne_eof sym)]
      refine .ite (fun _ => .ok ⟨?_, rfl, rfl⟩) fun _ => .ite (fun _ => .bind (.any _ _)
        fun _ _ _ => .bind (.any _ _) fun _ _ _ => .ok ⟨?_, rfl, rfl⟩) fun _ =>
        .bind (hreal 0 (.inl rfl)) fun res res' hres => ?_
      · rw [htwin.eq]
        exact ⟨rfl⟩
      · rw [htwin.eq]
        exact ⟨rfl⟩
      · rw [hres.buf]
        exact afterReal_twin hres _ _ _ _ _ _
  · rw [not_or, not_lt, decide_eq_true_eq, not_le] at hlarge
    have h20 : lzmaRequiredInputMax = 20 := rfl
    rw [sub_ok hlarge.1, ok_bind, ok_bind]
    refine .bind (hreal _ (.inr ⟨hlarge.2, ?_⟩)) fun res res' hres => ?_
    · rw [List.length_drop]
      omega
    · rw [hres.buf]
      exact afterReal_twin hres _ _ _ _ _ _

/-- The temporary buffers of twins are filled with the same bytes. -/
theorem decodeFromTemp_twin (h : p.Core s w) (h' : q.Core s w) (hr : p.remainLen = 0)
    (htwin : p.Twin q) (hh : p.Held s temp) (hh' : q.Held s temp) (hn : n ≤ src.length)
    (hl : p.dicPos ≤ dicLimit) (hls : dicLimit ≤ p.dicBufSize) :
    Paired (decodeFromTemp p dicLimit src (decide (dicLimit ≤ p.dicPos)) n (src.length - n) n)
      (decodeFromTemp q dicLimit src (decide (dicLimit ≤ p.dicPos)) n (src.length - n) n)
      Turn.Twin := by
  have hsize := htwin.held
  have h1 := h.tempBuf_size
  have h2 := h'.tempBuf_size
  have hle := hh.temp_le
  have hslice : slice src n (n + (src.length - n)) = .ok (src.drop n) := by
    rw [slice_spec (by omega) (by omega), List.take_of_length_le (by rw [List.length_drop]; omega)]
  obtain ⟨t₁, a, hf₁, ha, hb, hc, hs₁, hT₁⟩ := fillTemp_spec lzmaRequiredInputMax
    (src.drop n) p.tempBuf p.tempBufSize 0 (by omega) hle
  obtain ⟨t₂, a', hf₂, ha', hb', hc', hs₂, hT₂⟩ := fillTemp_spec lzmaRequiredInputMax
    (src.drop n) q.tempBuf q.tempBufSize 0 (by omega) (hsize ▸ hle)
  obtain rfl : a' = a := by omega
  rw [hh'.bytes, ← hh.bytes, ← hT₁, hsize] at hT₂
  rw [hsize] at hf₂
  have hcore := h.withTemp p.tempBufSize t₁ (by omega)
  have hcore' := h'.withTemp p.tempBufSize t₂ (by omega)
  have htwin' : LzmaDec.Twin { p with tempBufSize := p.tempBufSize, tempBuf := t₁ }
      { q with tempBufSize := p.tempBufSize, tempBuf := t₂ } := by
    rw [htwin.eq]
    exact ⟨rfl⟩
  obtain ⟨T, hT⟩ : ∃ T, T = t₁.toList.take (p.tempBufSize + a') := ⟨_, rfl⟩
  have hheld : ∀ t : Array UInt8, t.size = lzmaRequiredInputMax →
      t.toList.take (p.tempBufSize + a') = T →
      slice t.toList 0 (p.tempBufSize + a') = .ok T ∧
        t.toList = T ++ t.toList.drop (p.tempBufSize + a') := by
    intro t ht htake
    rw [slice_spec (Nat.zero_le _) (by rw [Array.length_toList]; omega), List.drop_zero,
      Nat.sub_zero, htake, ← htake, List.take_append_drop]
    exact ⟨rfl, rfl⟩
  obtain ⟨hslice₁, hsrc₁⟩ := hheld t₁ (hs₁.trans h1) hT.symm
  obtain ⟨hslice₂, hsrc₂⟩ := hheld t₂ (hs₂.trans h2) (hT₂.trans hT.symm)
  unfold decodeFromTemp
  simp only [hslice, ok_bind, hf₁, hf₂, zero_add, hsize]
  refine .ite (fun _ => ?_) fun hlarge => ?_
  · rw [hslice₁, hslice₂, ok_bind, ok_bind]
    obtain ⟨-, pos, pos', hd, hd'⟩ | ⟨sym, d, rest, k, hdone, hd, hd'⟩ :=
      lzmaDecTryDummy_twin hcore hcore' hr htwin' T
    · simp only [hd, hd', ok_bind, if_true]
      refine .ite (fun _ => .ok ⟨?_, rfl, rfl⟩) fun _ => .ok ⟨?_, rfl, rfl⟩
      · rw [htwin.eq]
        exact ⟨rfl⟩
      · rw [htwin.eq]
        exact ⟨rfl⟩
    · have hreal : Paired
          (lzmaDecDecodeReal2 { p with tempBufSize := p.tempBufSize, tempBuf := t₁ } dicLimit
            t₁.toList 0)
          (lzmaDecDecodeReal2 { q with tempBufSize := p.tempBufSize, tempBuf := t₂ } dicLimit
            t₂.toList 0) RealResult.Twin := by
        rw [hsrc₁, hsrc₂]
        refine lzmaDecDecodeReal2_twin_held hcore hcore' hr htwin' ?_ hdone
        rw [List.length_drop, List.length_drop, Array.length_toList, Array.length_toList]
        omega
      simp only [hd, hd', ok_bind, if_neg (kindOf_ne_eof sym)]
      refine .ite (fun _ => .ok ⟨?_, rfl, rfl⟩) fun _ =>
        .ite (fun _ => .ok ⟨?_, rfl, rfl⟩) fun _ => ?_
      · rw [htwin.eq]
        exact ⟨rfl⟩
      · rw [htwin.eq]
        exact ⟨rfl⟩
      · refine .bind hreal fun res res' hres => ?_
        rw [hres.buf]
        exact afterReal_twin hres _ _ _ _ _ _
  · rw [not_or, not_lt] at hlarge
    have hfull : t₂.toList = t₁.toList := by
      rw [hsrc₁, hsrc₂, List.drop_eq_nil_of_le (by rw [Array.length_toList]; omega),
        List.drop_eq_nil_of_le (by rw [Array.length_toList]; omega)]
    rw [hfull]
    refine .bind (lzmaDecDecodeReal2_twin hcore hcore' hr htwin' hl hls (.inl rfl))
      fun res res' hres => ?_
    rw [hres.buf]
    exact afterReal_twin hres _ _ _ _ _ _

end

section
variable {prop : LzmaProps} {c c₁ : Config} {s s' : RefState} {X Y Y' : List UInt8}

/-- Every symbol writes something. -/
theorem Moves.body_lt (hs : s.Ok prop) (h : (Config.body s).step prop X = .next c₁ Y)
    (hm : Moves prop c₁ Y (.body s') Y') : s.hist.length < s'.hist.length := by
  obtain ⟨s₁, rfl, hok, -, hlt, -⟩ := RefState.step_next hs h
  exact lt_of_lt_of_le hlt (hm.suffix hok).length_le

theorem Moves.from_body (h : Moves prop (.body s) X c Y) : ∃ s', c = .body s' := by
  generalize hb : Config.body s = b at h
  induction h generalizing s with
  | refl => exact ⟨s, hb.symm⟩
  | @step _ c₁ _ _ _ _ _ hs _ ih =>
      subst hb
      cases c₁ with
      | header s₁ => exact absurd hs (s.step_ne_header s₁)
      | body s₁ => exact ih rfl

/-- How much is written fixes the place between two symbols. -/
theorem Moves.body_unique (hc : c.Ok prop) (h : Moves prop c X (.body s) Y)
    (h' : Moves prop c X (.body s') Y') (hlen : s'.hist.length = s.hist.length) :
    s' = s ∧ Y' = Y := by
  generalize hb : Config.body s = b at h
  induction h with
  | refl =>
      subst hb
      cases h' with
      | refl => exact ⟨rfl, rfl⟩
      | step _ hs hm => exact absurd (Moves.body_lt hc hs hm) (by omega)
  | step _ hs hm ih =>
      subst hb
      cases h' with
      | refl => exact absurd (Moves.body_lt hc hs hm) (by omega)
      | step _ hs' hm' =>
          rw [hs, StreamMachine.Step.next.injEq] at hs'
          obtain ⟨rfl, rfl⟩ := hs'
          exact ih (Config.step_next hc hs).1 hm' rfl

end

section
variable {p q : LzmaDec} {s : RefState} {w src temp : List UInt8} {dicLimit n top : ℕ}

theorem decodeTurn_twin (mode : FinishMode) (h : p.Core s w) (h' : q.Core s w) (htwin : p.Twin q)
    (hh : p.Held s temp) (hh' : q.Held s temp) (hn : n ≤ src.length) (hl : p.dicPos ≤ dicLimit)
    (hls : dicLimit ≤ p.dicBufSize) :
    Paired (decodeTurn p dicLimit src mode n (src.length - n) n)
      (decodeTurn q dicLimit src mode n (src.length - n) n) Turn.Twin := by
  have hspec := specLen
  have hrem := h.remain_le
  have hrem' := h'.remain_le
  obtain ⟨p₁, k, hp, hcore, hpos, hle, hdone, hprop, hsize, hbuf, hbufSize, -⟩ :=
    lzmaDecWriteRem_core h hl hls
  obtain ⟨q₁, k', hq, hcore', hpos', -, -, hprop', -, hbuf', hbufSize', -⟩ :=
    lzmaDecWriteRem_core h' (htwin.pos ▸ hl) (htwin.size ▸ hls)
  have htwin₁ : p₁.Twin q₁ := lzmaDecWriteRem_twin htwin dicLimit _ _ hp hq
  obtain rfl : k' = k := by
    have h1 := htwin.pos
    have h2 := htwin₁.pos
    omega
  rw [show q.reps = p.reps from h'.owes.reps.trans h.owes.reps.symm] at hcore'
  generalize copyBack p.reps.rep0 k' w = w' at hcore hcore'
  have hheld : ∀ {P P₁ : LzmaDec}, P.Held s temp → lzmaDecWriteRem P dicLimit = .ok P₁ →
      P₁.prop = P.prop → P₁.tempBuf = P.tempBuf → P₁.tempBufSize = P.tempBufSize →
      P₁.Held s temp := by
    intro P P₁ hP hrun h1 h2 h3
    refine hP.of_eq h1 h2 h3 fun h0 => ?_
    rw [lzmaDecWriteRem_idle (hP.idle h0), Except.ok.injEq] at hrun
    exact hrun ▸ hP.idle h0
  unfold decodeTurn
  rw [if_neg (by omega), if_neg (by omega), hp, hq, ok_bind, ok_bind, htwin₁.pos, htwin₁.remain,
    htwin₁.code, htwin₁.held]
  refine .ite (fun _ => .ok ⟨htwin₁, rfl, rfl⟩) fun _ => .ite (fun _ => .ok ⟨htwin₁, rfl, rfl⟩)
    fun _ => .ite (fun _ => .ok ⟨htwin₁, rfl, rfl⟩) fun howed => ?_
  have hr : p₁.remainLen = 0 := by
    rcases hdone with h0 | hat
    · exact h0
    · by_contra hne
      exact howed ⟨hat.ge, hne⟩
  exact .ite (fun _ => decodeFromSrc_twin hcore hcore' hr htwin₁ hle (hsize ▸ hls)) fun _ =>
    decodeFromTemp_twin hcore hcore' hr htwin₁ (hheld hh hp hprop hbuf hbufSize)
      (hheld hh' hq hprop' hbuf' hbufSize') hn hle (hsize ▸ hls)

theorem LzmaDec.Twin.alike {len org : ℕ} (h : p.Twin q) (hpair : LzmaDec.Pair len org p q) :
    LzmaDec.Alike len org p q :=
  ⟨⟨h.prop, h.size, h.pos, h.remain, h.held, fun _ => h.code⟩, hpair⟩

/-- Past an end marker only the range code is looked at. -/
theorem decodeMain_twin_marked (mode : FinishMode) (fuel : ℕ) (htwin : p.Twin q)
    {d d' : Coder ℕ} {len org : ℕ} (hm : p.Marked s d) (hm' : q.Marked s d')
    (hlen : s.hist.length + org = len + p.dicPos) (srcPos inSize srcLen : ℕ) :
    Paired (decodeMain dicLimit src mode fuel p srcPos inSize srcLen)
      (decodeMain dicLimit src mode fuel q srcPos inSize srcLen) (DicResult.Alike len org) := by
  have hpair : LzmaDec.Alike len org p q :=
    htwin.alike (.dead (.marked hm) (.marked hm') hm.toWindow hm'.toWindow hlen)
  cases fuel with
  | zero => exact .error _
  | succ fuel =>
      rw [decodeMain, decodeMain, decodeTurn, decodeTurn, if_pos hm.remain,
        if_pos hm'.remain, htwin.code, bind_ite, bind_ite]
      exact .ite (fun _ => .ok ⟨hpair, rfl, rfl⟩) fun _ => .ok ⟨hpair, rfl, rfl⟩

theorem LzmaDec.Pair.rebase {n m len org : ℕ} (h : LzmaDec.Pair n m p q)
    (hlen : n + org = len + m) : LzmaDec.Pair len org p q := by
  cases h with
  | live hat hat' hw => exact .live hat hat' (by omega)
  | dead hd hd' hw hw' h => exact .dead hd hd' hw hw' (by omega)

/-- What is owed is what the history lacks. -/
theorem LzmaDec.Core.hist_length (h : p.Core s w) :
    s.hist.length = w.length + p.remainLen := by
  rw [h.owes.hist, length_copyBack]
  rfl

theorem LzmaDec.Core.written_eq {w' : List UInt8} (h : p.Core s w) (h' : q.Core s w')
    (hrem : q.remainLen = p.remainLen) : w' = w := by
  have h1 := h.hist_length
  have h2 := h'.hist_length
  obtain ⟨t, ht⟩ : w <:+ s.hist := by rw [h.owes.hist]; exact suffix_copyBack _ _ _
  obtain ⟨t', ht'⟩ : w' <:+ s.hist := by rw [h'.owes.hist]; exact suffix_copyBack _ _ _
  exact (List.append_inj' (ht'.trans ht.symm) (by omega)).2

theorem LzmaDec.Dead.remain_ge (h : p.Dead) : kMatchSpecLenStart ≤ p.remainLen := by
  have hspec := specLen
  cases h with
  | marked hm => exact hm.remain.ge
  | failed _ _ hr => omega

/-- Where a call ends that began between two symbols. -/
theorem DicEnd.place {X : List UInt8} {mode : FinishMode} {r : DicResult}
    (h : DicEnd p w (.body s) X src top dicLimit mode r) :
    (∃ s' temp' w' rest, Within p.prop top (.body s) X (.body s') (temp' ++ rest) ∧
      r.p.At (.body s') temp' w' ∧ Grown p w r.p w') ∨
      r.p.Dead ∧ ∃ s' ys, Moves p.prop (.body s) X (.body s') ys ∧ r.p.Window s'.hist ∧
        Grown p w r.p s'.hist := by
  have hbody : ∀ {c' : Config} {temp' w' rest : List UInt8},
      Within p.prop top (.body s) X c' (temp' ++ rest) → r.p.At c' temp' w' → Grown p w r.p w' →
      ∃ s' temp' w' rest, Within p.prop top (.body s) X (.body s') (temp' ++ rest) ∧
        r.p.At (.body s') temp' w' ∧ Grown p w r.p w' := by
    intro c' temp' w' rest hm hat hg
    obtain ⟨s', rfl⟩ := hm.moves.from_body
    exact ⟨s', temp', w', rest, hm, hat, hg⟩
  cases h with
  | more c' temp' _ _ hm hat hg =>
      rw [← List.append_nil temp'] at hm
      exact .inl (hbody hm hat hg)
  | notFinished n c' temp' w' _ _ _ _ hm hat hg => exact .inl (hbody hm hat hg)
  | maybe n s' temp' _ _ _ hm hat hg => exact .inl (hbody hm hat hg)
  | mark n s' s'' ys d _ _ _ hm _ hmk _ hg =>
      exact .inr ⟨.marked hmk, s', ys, hm.moves, hmk.toWindow, hg⟩
  | reject c' ys _ hm _ hdead hwin hg =>
      obtain ⟨s', rfl⟩ := hm.moves.from_body
      rcases hdead with hdead | ⟨s', temp', hc, -⟩
      · exact .inr ⟨hdead, _, ys, hm.moves, hwin, hg⟩
      · cases hc
  | past s' temp' rest w' _ _ _ hm hat hg => exact .inl (hbody hm hat hg)

/-- Equal counts put two runs at one place. -/
theorem DicEnd.pair {X : List UInt8} {mode : FinishMode} {r r' : DicResult} (hs : s.Ok p.prop)
    (htwin : p.Twin q) (h : DicEnd p w (.body s) X src top dicLimit mode r)
    (h' : DicEnd q w (.body s) X src top dicLimit mode r') (hr : r.p.Twin r'.p) :
    LzmaDec.Pair w.length p.dicPos r.p r'.p := by
  have hspec := specLen
  have hrem := hr.remain
  have hpos := htwin.pos
  have hpos₁ := hr.pos
  obtain ⟨s₁, temp₁, w₁, rest₁, hm₁, hat₁, hg₁⟩ | ⟨hdead, s₁, ys₁, hm₁, hw₁, hg₁⟩ := h.place
  · cases hat₁ with
    | body hcore₁ hheld₁ =>
        have hle := hcore₁.remain_le
        obtain ⟨s₂, temp₂, w₂, rest₂, hm₂, hat₂, hg₂⟩ | ⟨hdead', -⟩ := h'.place
        · cases hat₂ with
          | body hcore₂ hheld₂ =>
              have h1 := hcore₁.hist_length
              have h2 := hcore₂.hist_length
              have h3 := hheld₁.length hcore₁.toShape
              have h4 := hheld₂.length hcore₂.toShape
              have h5 := hr.held
              unfold Grown at hg₁ hg₂
              rw [htwin.prop] at hm₂
              obtain ⟨rfl, hrest⟩ := Moves.body_unique (c := .body s) hs hm₁.moves hm₂.moves
                (by omega)
              obtain ⟨rfl, -⟩ := List.append_inj hrest (by omega)
              obtain rfl := hcore₁.written_eq hcore₂ hrem
              exact .live (.body hcore₁ hheld₁) (.body hcore₂ hheld₂) hg₁
        · have hge := hdead'.remain_ge
          omega
  · have hge := hdead.remain_ge
    obtain ⟨s₂, temp₂, w₂, rest₂, hm₂, hat₂, hg₂⟩ | ⟨hdead', s₂, ys₂, hm₂, hw₂, hg₂⟩ := h'.place
    · cases hat₂ with
      | body hcore₂ _ =>
          have hle := hcore₂.remain_le
          omega
    · unfold Grown at hg₁ hg₂
      rw [htwin.prop] at hm₂
      obtain ⟨rfl, -⟩ := Moves.body_unique (c := .body s) hs hm₁ hm₂ (by omega)
      exact .dead hdead hdead' hw₁ hw₂ hg₁

/-- The main loop, turn by turn: twins stand for one state of the reference after each. -/
theorem decodeMain_twin (mode : FinishMode) (fuel : ℕ) (h : p.Core s w) (h' : q.Core s w)
    (htwin : p.Twin q) (hh : p.Held s temp) (hh' : q.Held s temp) (hn : n ≤ src.length)
    (hl : p.dicPos ≤ dicLimit) (hls : dicLimit ≤ p.dicBufSize)
    (htop : top + p.dicPos = w.length + dicLimit) {len org : ℕ}
    (hlen : w.length + org = len + p.dicPos) :
    Paired (decodeMain dicLimit src mode fuel p n (src.length - n) n)
      (decodeMain dicLimit src mode fuel q n (src.length - n) n) (DicResult.Alike len org) := by
  have hspec := specLen
  induction fuel generalizing p q s w temp n with
  | zero => exact .error _
  | succ fuel ih =>
      obtain ⟨turn, ht, hend, -⟩ := decodeTurn_end mode h hh hn hl hls htop
      obtain ⟨turn', ht', hend', -⟩ := decodeTurn_end mode h' hh' hn (htwin.pos ▸ hl)
        (htwin.size ▸ hls) (show top + q.dicPos = _ by rw [htwin.pos]; exact htop)
      have hturn := decodeTurn_twin mode h h' htwin hh hh' hn hl hls _ _ ht ht'
      rw [decodeMain, decodeMain, ht, ht', ok_bind, ok_bind]
      cases hend with
      | stop r hr _ =>
          cases hend' with
          | stop r' hr' _ =>
              have hpair := hr.pair h.begun.toOk htwin hr' hturn.p
              exact .ok ⟨hturn.p.alike (hpair.rebase hlen), hturn.status, hturn.res⟩
          | again => exact hturn.elim
          | marked => exact hturn.elim
      | again P m s' w₁ hm hmv hcore htemp hgrown hframe hprog =>
          have hrem := hcore.remain_le
          cases hend' with
          | stop => exact hturn.elim
          | marked Q _ _ _ _ _ _ _ _ hmk =>
              have h1 := hmk.remain
              have h2 := hturn.1.remain
              omega
          | again Q m' s'' w₂ _ hmv' hcore' _ hgrown' _ _ =>
              obtain ⟨htwin₁, rfl, -, -⟩ := hturn
              have hpos := htwin.pos
              have hpos₁ := htwin₁.pos
              have hrem₁ := htwin₁.remain
              have h1 := hcore.hist_length
              have h2 := hcore'.hist_length
              unfold Grown at hgrown hgrown'
              rw [htwin.prop] at hmv'
              obtain ⟨rfl, -⟩ := Moves.body_unique (c := .body s) h.begun.toOk hmv.moves hmv'.moves
                (by omega)
              obtain rfl := hcore.written_eq hcore' hrem₁
              have hle := hframe.pos_le
              have hz : Q.tempBufSize = 0 := htwin₁.held.trans htemp
              exact ih hcore hcore' htwin₁ (LzmaDec.held_nil htemp) (LzmaDec.held_nil hz) hm hle
                (hframe.dicBufSize ▸ hls) (by omega) (by omega)
      | marked P m s' ys d len _ hmv _ hmk _ hgrown =>
          have h1 := hmk.remain
          cases hend' with
          | stop => exact hturn.elim
          | again Q _ _ _ _ _ hcore' =>
              have h2 := hcore'.remain_le
              have h3 := hturn.1.remain
              omega
          | marked Q m' _ _ _ _ _ hmv' _ hmk' _ hgrown' =>
              obtain ⟨htwin₁, rfl, -, -⟩ := hturn
              have hpos := htwin.pos
              have hpos₁ := htwin₁.pos
              unfold Grown at hgrown hgrown'
              rw [htwin.prop] at hmv'
              obtain ⟨rfl, -⟩ := Moves.body_unique (c := .body s) h.begun.toOk hmv.moves hmv'.moves
                (by omega)
              exact decodeMain_twin_marked mode fuel htwin₁ hmk hmk' (by omega) _ _ _

/-- Between two symbols the reference fixes the rest. -/
theorem LzmaDec.Core.twin (h : p.Core s w) (h' : q.Core s w) (hl : p.Loose q) : p.Twin q := by
  have hrange := h'.range.trans h.range.symm
  have hcode := h'.code.trans h.code.symm
  have hproc := h'.processed.trans h.processed.symm
  have hcheck := h'.check.trans ((congrArg (checkOf · w.length) hl.prop).trans h.check.symm)
  have hreps : q.reps = p.reps := h'.owes.reps.trans h.owes.reps.symm
  have hstate : q.state = p.state := h'.owes.state.trans h.owes.state.symm
  obtain ⟨hprop, hsize, hpos, hrem, hheld, -⟩ := hl
  obtain ⟨⟩ := q
  refine ⟨?_⟩
  simp only at hrange hcode hproc hcheck hreps hstate hprop hsize hpos hrem hheld
  subst hrange hcode hproc hcheck hreps hstate hprop hsize hpos hrem hheld
  rfl

theorem LzmaDec.Loose.eq (h : p.Loose q) (hproc : q.processedPos = p.processedPos)
    (hcheck : q.checkDicSize = p.checkDicSize) :
    q = { p with
      probs := q.probs, dic := q.dic, range := q.range, code := q.code, reps := q.reps
      state := q.state, tempBuf := q.tempBuf } := by
  obtain ⟨hprop, hsize, hpos, hrem, hheld, -⟩ := h
  obtain ⟨⟩ := q
  simp only at hproc hcheck hprop hsize hpos hrem hheld
  subst hproc hcheck hprop hsize hpos hrem hheld
  rfl

/-- A call that finds the range coder not yet started. -/
theorem lzmaDecDecodeToDic_twin_header (mode : FinishMode) (h : p.Before s temp)
    (h' : q.Before s temp) (hloose : p.Loose q) (hl : p.dicPos ≤ dicLimit)
    (hls : dicLimit ≤ p.dicBufSize) {len org : ℕ} (hlen : s.hist.length + org = len + p.dicPos) :
    Paired (lzmaDecDecodeToDic p dicLimit src mode) (lzmaDecDecodeToDic q dicLimit src mode)
      (DicResult.Alike len org) := by
  have hspec := specLen
  have h1 := h.tempBuf_size
  have h2 := h'.tempBuf_size
  have hle := h.temp_le
  have hrem := h.remain
  have hproc : q.processedPos = p.processedPos := h'.processed.trans h.processed.symm
  have hcheck : q.checkDicSize = p.checkDicSize :=
    h'.check.trans ((congrArg (checkOf · s.hist.length) hloose.prop).trans h.check.symm)
  obtain ⟨t₁, a, hf₁, ha, hb, hc, hs₁, hT₁⟩ := fillTemp_spec rcInitSize
    src p.tempBuf p.tempBufSize 0 (by omega) hle
  obtain ⟨t₂, a', hf₂, ha', hb', hc', hs₂, hT₂⟩ := fillTemp_spec rcInitSize
    src q.tempBuf q.tempBufSize 0 (by omega) (hloose.held ▸ hle)
  rw [hloose.held] at hf₂ hb' hc' hT₂
  obtain rfl : a' = a := by omega
  have hbytes := h'.bytes
  rw [hloose.held] at hbytes
  rw [hbytes, ← h.bytes, ← hT₁] at hT₂
  have hne : p.remainLen ≠ kMatchSpecLenStart := by omega
  have hstay : ∀ (code code' : ℕ) (status : Status) (res : Except Error ℕ), DicResult.Alike len org
      { p := { p with tempBuf := t₁, tempBufSize := p.tempBufSize + a', code }, status, res }
      { p := { q with tempBuf := t₂, tempBufSize := p.tempBufSize + a', code := code' }, status
        res } :=
    fun code code' _ _ => ⟨⟨⟨hloose.prop, hloose.size, hloose.pos, hloose.remain, rfl,
      fun h0 => absurd h0 hne⟩, .live (.header (h.withTemp hs₁ hb rfl code))
        (.header (h'.withTemp hs₂ hb hT₂ code')) hlen⟩, rfl, rfl⟩
  rw [hloose.eq hproc hcheck] at hstay ⊢
  simp only [lzmaDecDecodeToDic]
  rw [if_pos (by omega), if_neg (by omega), if_pos (by omega), if_neg (by omega), hf₁, hf₂,
    ok_bind, ok_bind, zero_add]
  dsimp only
  have hfirst : ∀ t : Array UInt8, t.size = lzmaRequiredInputMax →
      ∃ b, get t 0 = .ok b ∧ t.toList[0]? = some b := by
    intro t ht
    have h0 : 0 < t.size := by omega
    refine ⟨t[0], get_ok (Array.getElem?_eq_getElem h0), ?_⟩
    rw [Array.getElem?_toList, Array.getElem?_eq_getElem h0]
  obtain ⟨b, hget, hb₁⟩ := hfirst t₁ (by omega)
  obtain ⟨b', hget', hb₂⟩ := hfirst t₂ (by omega)
  rw [hget, hget', ok_bind, ok_bind]
  by_cases hn : p.tempBufSize + a' = 0
  · have hno : ∀ x : UInt8, ¬ (p.tempBufSize + a' ≠ 0 ∧ x ≠ 0) := fun _ hc => hc.1 hn
    have hshort : p.tempBufSize + a' < rcInitSize := by omega
    rw [if_neg (hno b), if_neg (hno b'), if_pos hshort, if_pos hshort]
    exact .ok (hstay _ _ _ _)
  have hsame : b' = b := by
    have h0 := congrArg (fun l : List UInt8 => l[0]?) hT₂
    simp only [List.getElem?_take, if_pos (Nat.pos_of_ne_zero hn), hb₁, hb₂] at h0
    exact Option.some.inj h0
  subst hsame
  refine .ite (fun _ => .ok (hstay _ _ _ _)) fun hzero => .ite
    (fun _ => .ok (hstay _ _ _ _)) fun hfull => ?_
  have hfive : p.tempBufSize + a' = 5 := by
    have : rcInitSize = 5 := rfl
    omega
  rw [hfive] at hT₁ hT₂
  obtain ⟨T, hT⟩ : ∃ T, T = t₁.toList.take 5 := ⟨_, rfl⟩
  have hTlen : T.length = 5 := by
    rw [hT, List.length_take, Array.length_toList]
    omega
  obtain ⟨b0, T', rfl⟩ := List.exists_cons_of_length_pos (show 0 < T.length by omega)
  obtain ⟨b1, b2, b3, b4, rfl⟩ := eq_four (show T'.length = 4 by
    rw [List.length_cons] at hTlen
    omega)
  rw [headerCode_spec (s := s) hT.symm, headerCode_spec (s := s) (hT₂.trans hT.symm), ok_bind,
    ok_bind]
  refine .ite (fun _ => .ok (hstay _ _ _ _)) fun hrep => ?_
  rw [sub_ok ha, ok_bind, ok_bind]
  have hbad : s.hist = [] → (s.start b1 b2 b3 b4).coder.code < kBadRepCode := fun hnil => by
    by_contra hc
    refine hrep ⟨?_, ?_, by omega⟩
    · rw [h.check, hnil]
      exact (position_zero.mpr rfl).2
    · rw [h.processed, hnil]
      rfl
  have hstart : ∀ {P : LzmaDec} {t : Array UInt8}, P.Before s temp →
      t.size = lzmaRequiredInputMax → t.toList.take 5 = [b0, b1, b2, b3, b4] →
      (LzmaDec.started { P with tempBuf := t, tempBufSize := 5 }
        (s.start b1 b2 b3 b4).coder.code).Core (s.start b1 b2 b3 b4) s.hist :=
    fun hP ht htake => (hP.withTemp (ht.trans hP.tempBuf_size.symm) le_rfl htake _).started
      b1 b2 b3 b4 hbad
  have hcore := hstart h (hs₁.trans h1) hT.symm
  have hcore' := hstart h' (hs₂.trans h2) (hT₂.trans hT.symm)
  obtain ⟨hpos₁, hzero₁, hframe₁⟩ := started_frame
    (p := { p with tempBuf := t₁, tempBufSize := 5 }) (s.start b1 b2 b3 b4).coder.code hl
  obtain ⟨hpos₂, hzero₂, hframe₂⟩ := started_frame (p := { q with tempBuf := t₂, tempBufSize := 5 })
    (s.start b1 b2 b3 b4).coder.code (hloose.pos.trans_le hl)
  have htwin := hcore.twin hcore' ⟨hframe₂.prop.trans (hloose.prop.trans hframe₁.prop.symm),
    hframe₂.dicBufSize.trans (hloose.size.trans hframe₁.dicBufSize.symm),
    hpos₂.trans (hloose.pos.trans hpos₁.symm), rfl, hzero₂.trans hzero₁.symm, fun h0 =>
      absurd h0 (show (0 : ℕ) ≠ kMatchSpecLenStart by omega)⟩
  have hmain := decodeMain_twin mode (dicLimit - p.dicPos + 3) hcore hcore' htwin
    (LzmaDec.held_nil hzero₁) (LzmaDec.held_nil hzero₂) ha hframe₁.pos_le
    (hls.trans_eq hframe₁.dicBufSize.symm)
    (show s.hist.length + (dicLimit - p.dicPos) + _ = _ by rw [hpos₁]; dsimp only; omega)
    (show s.hist.length + org = len + _ by rw [hpos₁]; exact hlen)
  rw [hloose.eq hproc hcheck] at hmain
  exact hmain

/-- A call on an ended decoder looks at nothing else. -/
theorem lzmaDecDecodeToDic_twin_dead (dicLimit : ℕ) (src : List UInt8) (mode : FinishMode)
    (h : p.Dead) (h' : q.Dead)
    (hloose : p.Loose q) :
    ∃ r r', lzmaDecDecodeToDic p dicLimit src mode = .ok r ∧
      lzmaDecDecodeToDic q dicLimit src mode = .ok r' ∧ r.p = p ∧ r'.p = q ∧
      r'.status = r.status ∧ r'.res = r.res := by
  have hspec := specLen
  have hrem := hloose.remain
  cases h with
  | marked hm =>
      have h1 := hm.remain
      cases h' with
      | failed _ _ h2 => omega
      | marked hm' =>
          have hcode := hloose.code h1
          obtain ⟨r, hr, hp, hres⟩ := lzmaDecDecodeToDic_marked dicLimit src mode hm
          obtain ⟨r', hr', hp', hres'⟩ := lzmaDecDecodeToDic_marked dicLimit src mode hm'
          rw [hcode] at hres'
          refine ⟨r, r', hr, hr', hp, hp', ?_⟩
          obtain ⟨h0, ha, hb⟩ | ⟨h0, ha, hb⟩ := hres
          · obtain ⟨-, ha', hb'⟩ | ⟨h0', -⟩ := hres'
            · exact ⟨hb'.trans hb.symm, ha'.trans ha.symm⟩
            · exact absurd h0 h0'
          · obtain ⟨h0', -⟩ | ⟨-, ha', hb'⟩ := hres'
            · exact absurd h0' h0
            · exact ⟨hb'.trans hb.symm, ha'.trans ha.symm⟩
  | failed _ _ h1 =>
      cases h' with
      | marked hm' =>
          have h2 := hm'.remain
          omega
      | failed _ _ h2 =>
          obtain ⟨r, hr, hp, hres, hst⟩ := lzmaDecDecodeToDic_failed dicLimit src mode h1
          obtain ⟨r', hr', hp', hres', hst'⟩ := lzmaDecDecodeToDic_failed dicLimit src mode h2
          exact ⟨r, r', hr, hr', hp, hp', hst'.trans hst.symm, hres'.trans hres.symm⟩

theorem lzmaDecDecodeToDic_twin_at (mode : FinishMode) {c : Config} (h : p.At c temp w)
    (h' : q.At c temp w) (hloose : p.Loose q) (hl : p.dicPos ≤ dicLimit)
    (hls : dicLimit ≤ p.dicBufSize) {len org : ℕ} (hlen : w.length + org = len + p.dicPos) :
    Paired (lzmaDecDecodeToDic p dicLimit src mode) (lzmaDecDecodeToDic q dicLimit src mode)
      (DicResult.Alike len org) := by
  have hspec := specLen
  cases h with
  | header hb =>
      cases h' with
      | header hb' => exact lzmaDecDecodeToDic_twin_header mode hb hb' hloose hl hls hlen
  | body hcore hh =>
      cases h' with
      | body hcore' hh' =>
          have hrem := hcore.remain_le
          have hrem' := hcore'.remain_le
          have hmain := decodeMain_twin mode (dicLimit - p.dicPos + 3) hcore hcore'
            (hcore.twin hcore' hloose) hh hh' (Nat.zero_le src.length) hl hls
            (show w.length + (dicLimit - p.dicPos) + p.dicPos = _ by omega) hlen
          simp only [lzmaDecDecodeToDic]
          rw [if_neg (by omega), if_neg (by omega), hloose.pos]
          exact hmain

/-- A call on two decoders at one place answers once and leaves them at one place. -/
theorem lzmaDecDecodeToDic_alike (src : List UInt8) (mode : FinishMode) {len org : ℕ}
    (h : LzmaDec.Alike len org p q) (hl : p.dicPos ≤ dicLimit) (hls : dicLimit ≤ p.dicBufSize) :
    ∃ r r', lzmaDecDecodeToDic p dicLimit src mode = .ok r ∧
      lzmaDecDecodeToDic q dicLimit src mode = .ok r' ∧ DicFrame p dicLimit r.p ∧
      DicFrame q dicLimit r'.p ∧ DicResult.Alike len org r r' ∧
      ((∃ n ≤ src.length, r.res = .ok n) ∨ r.res = .error .corruptData) := by
  have hl' : q.dicPos ≤ dicLimit := h.pos ▸ hl
  have hls' : dicLimit ≤ q.dicBufSize := h.size ▸ hls
  have hsound : p.Sound ∧ q.Sound := by
    cases h.pair with
    | live hat hat' => exact ⟨.live hat, .live hat'⟩
    | dead hd hd' => exact ⟨.dead hd, .dead hd'⟩
  obtain ⟨r, hr, -, hframe, hres⟩ := lzmaDecDecodeToDic_sound src mode hsound.1 hl hls
  obtain ⟨r', hr', -, hframe', -⟩ := lzmaDecDecodeToDic_sound src mode hsound.2 hl' hls'
  refine ⟨r, r', hr, hr', hframe, hframe', ?_, hres⟩
  cases h.pair with
  | live hat hat' hlen =>
      exact lzmaDecDecodeToDic_twin_at mode hat hat' h.toLoose hl hls hlen _ _ hr hr'
  | dead hd hd' =>
      obtain ⟨r₁, r₂, h₁, h₂, hp₁, hp₂, hst, hres'⟩ :=
        lzmaDecDecodeToDic_twin_dead dicLimit src mode hd hd' h.toLoose
      rw [hr, Except.ok.injEq] at h₁
      rw [hr', Except.ok.injEq] at h₂
      subst h₁ h₂
      exact ⟨by rw [hp₁, hp₂]; exact h, hst, hres'⟩

end
end LzmaTurbo.Lzma
