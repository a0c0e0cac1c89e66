import LzmaTurbo.Lzma.DryRun

/-!
# One turn of the main loop

Where a decoder can be between calls, with the bytes it holds back in its
temporary buffer, and what one turn of `lzma_dec_decode_to_dic` makes of it.
-/
namespace LzmaTurbo.Lzma
open Machine BitProgram Window
open RangeDecoder (Coder Outcome run)

theorem take_set_succ {α : Type} {l : List α} {i : ℕ} (h : i < l.length) (x : α) :
    (l.set i x).take (i + 1) = l.take i ++ [x] := by
  rw [List.take_add_one, List.take_set_of_le le_rfl, List.getElem?_set_self h]
  rfl

theorem copyInto_spec (xs : List UInt8) (i : ℕ) (a : Array UInt8) (h : i + xs.length ≤ a.size) :
    ∃ a', copyInto xs i a = .ok a' ∧ a'.size = a.size ∧
      a'.toList.take (i + xs.length) = a.toList.take i ++ xs := by
  induction xs generalizing i a with
  | nil => exact ⟨a, rfl, rfl, by simp⟩
  | cons x xs ih =>
      rw [List.length_cons] at h
      obtain ⟨a', h1, h2, h3⟩ := ih (i + 1) (a.setIfInBounds i x)
        (by rw [Array.size_setIfInBounds]; omega)
      refine ⟨a', by rw [copyInto, put_ok (by omega), ok_bind]; exact h1,
        by rw [h2, Array.size_setIfInBounds], ?_⟩
      rw [List.length_cons, show i + (xs.length + 1) = i + 1 + xs.length by omega, h3,
        Array.toList_setIfInBounds, take_set_succ (by rw [Array.length_toList]; omega),
        List.append_assoc]
      rfl

theorem fillTemp_spec (bound : ℕ) (xs : List UInt8) (temp : Array UInt8) (rem ahead : ℕ)
    (hb : bound ≤ temp.size) (hr : rem ≤ bound) : ∃ temp' n,
      fillTemp bound xs temp rem ahead = .ok (temp', rem + n, ahead + n) ∧ n ≤ xs.length ∧
      rem + n ≤ bound ∧ (n = xs.length ∨ rem + n = bound) ∧ temp'.size = temp.size ∧
      temp'.toList.take (rem + n) = temp.toList.take rem ++ xs.take n := by
  induction xs generalizing temp rem ahead with
  | nil => exact ⟨temp, 0, rfl, le_rfl, hr, .inl rfl, rfl, by simp⟩
  | cons x xs ih =>
      by_cases h : rem < bound
      · obtain ⟨temp', n, h1, h2, h3, h4, h5, h6⟩ := ih (temp.setIfInBounds rem x)
          (rem + 1) (ahead + 1) (by rw [Array.size_setIfInBounds]; omega) (by omega)
        refine ⟨temp', n + 1, ?_, by rw [List.length_cons]; omega, by omega,
          by rw [List.length_cons]; omega, by rw [h5, Array.size_setIfInBounds], ?_⟩
        · rw [fillTemp, if_pos h, put_ok (by omega), ok_bind, h1,
            show rem + (n + 1) = rem + 1 + n by omega,
            show ahead + (n + 1) = ahead + 1 + n by omega]
        · rw [show rem + (n + 1) = rem + 1 + n by omega, h6, Array.toList_setIfInBounds,
            take_set_succ (by rw [Array.length_toList]; omega), List.append_assoc]
          rfl
      · exact ⟨temp, 0, by rw [fillTemp, if_neg h]; rfl, Nat.zero_le _, hr, .inr (by omega), rfl,
          by simp⟩

theorem slice_spec {xs : List UInt8} {start stop : ℕ} (h : start ≤ stop) (hs : stop ≤ xs.length) :
    slice xs start stop = .ok ((xs.drop start).take (stop - start)) := by
  rw [slice, if_pos ⟨h, hs⟩]

/-- Bytes read but not yet decoded: none of their proper prefixes is a symbol. -/
structure LzmaDec.Held (p : LzmaDec) (s : RefState) (temp : List UInt8) : Prop where
  temp_le : p.tempBufSize ≤ lzmaRequiredInputMax
  bytes : p.tempBuf.toList.take p.tempBufSize = temp
  short : ∀ k < p.tempBufSize,
    (run (symbolProg (s.ctx p.prop)) s.coder (temp.take k)).flush = .more
  idle : p.tempBufSize ≠ 0 → p.remainLen = 0

/-- Before the five bytes of a range coder, of which `temp` are read. -/
structure LzmaDec.Before (p : LzmaDec) (s : RefState) (temp : List UInt8) : Prop
    extends p.Shape, p.Window s.hist where
  remain : p.remainLen = kMatchSpecLenStart + 1 ∨ p.remainLen = kMatchSpecLenStart + 2
  fresh : p.remainLen = kMatchSpecLenStart + 2 → s = freshState s.hist
  kept : p.remainLen = kMatchSpecLenStart + 1 → p.reps = s.reps ∧ p.state = s.state ∧
    Table p.probs (lzmaPropsGetNumProbs p.prop.lc p.prop.lp) s.coder ∧ s.hist ≠ []
  base : s.Base p.prop
  temp_le : p.tempBufSize ≤ rcInitSize
  bytes : p.tempBuf.toList.take p.tempBufSize = temp

/-- A decoder at a position of the reference, with `temp` held back and `w` written. -/
inductive LzmaDec.At (p : LzmaDec) : Config → List UInt8 → List UInt8 → Prop
  | header {s : RefState} {temp : List UInt8} : p.Before s temp → p.At (.header s) temp s.hist
  | body {s : RefState} {temp w : List UInt8} : p.Core s w → p.Held s temp →
      p.At (.body s) temp w

/-- Past an end marker or an error. -/
inductive LzmaDec.Dead (p : LzmaDec) : Prop
  | marked {s : RefState} {d : Coder ℕ} : p.Marked s d → Dead p
  | failed {w : List UInt8} : p.Shape → p.Window w → p.remainLen = kMatchSpecLenErrorData →
      Dead p

/-- Every state a decoder can be in. -/
inductive LzmaDec.Sound (p : LzmaDec) : Prop
  | live {c : Config} {temp w : List UInt8} : p.At c temp w → Sound p
  | dead : p.Dead → Sound p

/-- The fields a call leaves alone, and the output it may write. -/
structure DicFrame (p : LzmaDec) (dicLimit : ℕ) (q : LzmaDec) : Prop where
  prop : q.prop = p.prop
  dicBufSize : q.dicBufSize = p.dicBufSize
  probs : q.probs.size = p.probs.size
  pos_ge : p.dicPos ≤ q.dicPos
  pos_le : q.dicPos ≤ dicLimit
  keeps : Keeps p.dic q.dic p.dicPos

/-- How a call of `p` ends that began at `c` with `w` written and `xs` to read, of
which `src` is new; at the limit the history has `top` bytes. -/
inductive DicEnd (p : LzmaDec) (w : List UInt8) (c : Config) (xs src : List UInt8)
    (top dicLimit : ℕ) (mode : FinishMode) (r : DicResult) : Prop
  | more (c' : Config) (temp : List UInt8) : r.res = .ok src.length →
      r.status = .needsMoreInput → Within p.prop top c xs c' temp → r.p.At c' temp c'.hist →
      Grown p w r.p c'.hist → c'.step p.prop temp = .more →
      (∀ s, c' = .body s → r.p.dicPos = dicLimit → s.coder.code ≠ 0) →
      DicEnd p w c xs src top dicLimit mode r
  | notFinished (n : ℕ) (c' : Config) (temp w' : List UInt8) : r.res = .ok n → n ≤ src.length →
      r.status = .notFinished → mode = .any → Within p.prop top c xs c' (temp ++ src.drop n) →
      r.p.At c' temp w' → Grown p w r.p w' → r.p.dicPos = dicLimit →
      DicEnd p w c xs src top dicLimit mode r
  | maybe (n : ℕ) (s : RefState) (temp : List UInt8) : r.res = .ok n → n ≤ src.length →
      r.status = .maybeFinishedWithoutMark →
      Within p.prop top c xs (.body s) (temp ++ src.drop n) →
      r.p.At (.body s) temp s.hist → Grown p w r.p s.hist → r.p.dicPos = dicLimit →
      s.coder.code = 0 → (temp = [] ∨ p.tempBufSize ≠ 0 ∧ p.code = 0 ∧ r.p.dicPos = p.dicPos) →
      DicEnd p w c xs src top dicLimit mode r
  | mark (n : ℕ) (s s' : RefState) (ys : List UInt8) (d : Coder ℕ) : r.res = .ok n →
      n ≤ src.length → r.status = .finishedWithMark → Within p.prop top c xs (.body s) ys →
      s.step p.prop ys = .mark s' (src.drop n) → r.p.Marked s d → d.code = 0 →
      Grown p w r.p s.hist → DicEnd p w c xs src top dicLimit mode r
  | reject (c' : Config) (ys : List UInt8) : r.res = .error .corruptData →
      Within p.prop top c xs c' ys → c'.step p.prop ys = .reject →
      (r.p.Dead ∨ ∃ s temp, c = .header s ∧ r.p.At (.header s) temp s.hist) →
      r.p.Window c'.hist → Grown p w r.p c'.hist → DicEnd p w c xs src top dicLimit mode r
  | past (s : RefState) (temp rest w' : List UInt8) : r.res = .error .corruptData →
      mode = .endMark → r.status = .notFinished →
      Within p.prop top c xs (.body s) (temp ++ rest) → r.p.At (.body s) temp w' →
      Grown p w r.p w' → r.p.dicPos = dicLimit → (w' ≠ s.hist ∨ s.coder.code ≠ 0 ∧
        ∃ s' zs, s.step p.prop (temp ++ rest) = .next (.body s') zs) →
      DicEnd p w c xs src top dicLimit mode r

/-- One turn from `s`, with `X` to read: a result, or a position further on. -/
inductive TurnEnd (p : LzmaDec) (w : List UInt8) (s : RefState) (X src : List UInt8)
    (top dicLimit : ℕ) (mode : FinishMode) : Turn → Prop
  | stop (r : DicResult) : DicEnd p w (.body s) X src top dicLimit mode r →
      DicFrame p dicLimit r.p → TurnEnd p w s X src top dicLimit mode (.stop r)
  | again (q : LzmaDec) (m : ℕ) (s' : RefState) (w' : List UInt8) : m ≤ src.length →
      Within p.prop top (.body s) X (.body s') (src.drop m) → q.Core s' w' →
      q.tempBufSize = 0 → Grown p w q w' → DicFrame p dicLimit q →
      (p.dicPos < q.dicPos ∨ (q.dicPos = dicLimit ∧ q.remainLen ≠ 0)) →
      TurnEnd p w s X src top dicLimit mode (.again q m (src.length - m) m)
  | marked (q : LzmaDec) (m : ℕ) (s' : RefState) (ys : List UInt8) (d : Coder ℕ) (len : ℕ) :
      m ≤ src.length → Within p.prop top (.body s) X (.body s') ys →
      (run (symbolProg (s'.ctx p.prop)) s'.coder ys).flush =
        .done (.simple 0xFFFFFFFF len) d (src.drop m) →
      q.Marked s' d → q.tempBufSize = 0 → Grown p w q s'.hist → DicFrame p dicLimit q →
      TurnEnd p w s X src top dicLimit mode (.again q m (src.length - m) m)

section
variable {p : LzmaDec} {s : RefState} {src : List UInt8} {top dicLimit : ℕ} {mode : FinishMode}

/-- One symbol read from a buffer with `T` at its start is that symbol of any input
that starts with `T`. -/
theorem RealEnd.extend {T rest left : List UInt8} (junk more : List UInt8) {sym : Symbol} {d : Coder ℕ}
    {limit : ℕ} {res : RealResult} (hopen : Config.Open top (.body s))
    (hT : (run (symbolProg (s.ctx p.prop)) s.coder T).flush = .done sym d rest)
    (h : RealEnd p s.hist (fun s' zs => s.step p.prop (T ++ junk) = .next (.body s') zs)
      (fun s' zs => s' = s ∧ zs = T ++ junk) limit left res) :
    left = rest ++ junk ∧
    RealEnd p s.hist (fun s' zs => Within p.prop top (.body s) (T ++ more) (.body s') zs)
      (fun s' zs => Within p.prop top (.body s) (T ++ more) (.body s') zs) limit (rest ++ more)
      res := by
  have hS := RangeDecoder.flush_run_append junk hT
  have hX := RangeDecoder.flush_run_append more hT
  cases h with
  | running s' w' hstep hok hcore hgrown hprog =>
      simp only [RefState.step, hS] at hstep
      cases ha : applySymbol p.prop s d sym with
      | reject => simp [ha, Effect.leaving] at hstep
      | mark s₁ => simp [ha, Effect.leaving] at hstep
      | next s₁ =>
          simp only [ha, Effect.leaving, StreamMachine.Step.next.injEq, Config.body.injEq] at hstep
          obtain ⟨rfl, rfl⟩ := hstep
          refine ⟨rfl, .running s₁ w' (.single hopen ?_) hok hcore hgrown hprog⟩
          simp only [Config.step, RefState.step, hX, ha, Effect.leaving]
  | marked s' ys d' len hB hb hf hok hm hgrown =>
      obtain ⟨rfl, rfl⟩ := hB
      rw [hS] at hf
      obtain ⟨rfl, rfl, rfl⟩ : sym = .simple 0xFFFFFFFF len ∧ d = d' ∧ rest ++ junk = left := by
        simpa using hf
      exact ⟨rfl, .marked s' _ d len (.refl _ _) hb hX hok hm hgrown⟩
  | rejected s' ys sym' d' hB hb hf hrej hok hshape hwin hgrown =>
      obtain ⟨rfl, rfl⟩ := hB
      rw [hS] at hf
      obtain ⟨rfl, rfl, rfl⟩ : sym = sym' ∧ d = d' ∧ rest ++ junk = left := by simpa using hf
      refine ⟨rfl, .rejected s' _ sym d (.refl _ _) hb hX ?_ hok hshape hwin hgrown⟩
      simp only [RefState.step, hS] at hrej
      simp only [RefState.step, hX]
      cases ha : applySymbol p.prop s' d sym with
      | reject => rfl
      | mark s₁ => simp [ha, Effect.leaving] at hrej
      | next s₁ => simp [ha, Effect.leaving] at hrej

theorem RealFrame.dic {limit : ℕ} {S : List UInt8} {res : RealResult}
    (h : RealFrame p limit S res) : DicFrame p limit res.p :=
  ⟨h.prop, h.dicBufSize, h.probs, h.pos_ge, h.pos_le, h.keeps⟩

/-- Only the temporary buffer's fields differ. -/
theorem LzmaDec.Core.withTemp {w : List UInt8} (h : p.Core s w) (tempBufSize : ℕ)
    (tempBuf : Array UInt8) (ht : tempBuf.size = lzmaRequiredInputMax) :
    ({ p with tempBufSize, tempBuf } : LzmaDec).Core s w :=
  ⟨⟨h.pos_le, h.size_le, h.size_lt, h.probs, ht⟩, ⟨h.holds, h.fits, h.processed, h.check⟩,
    ⟨h.owes.holds, h.owes.fits, h.owes.processed, h.owes.state, h.owes.reps, h.owes.hist,
      h.owes.reach⟩, h.remain_le, h.range, h.code, h.table, h.begun⟩

/-- After the fast loop: `k` new bytes are consumed, then an error or the next turn. -/
theorem afterReal_end (mode : FinishMode) {w X S : List UInt8} {res : RealResult} {held n k : ℕ}
    (hframe : RealFrame p dicLimit S res) (hk : held + k = res.buf) (hn : n + k ≤ src.length)
    (hend : RealEnd p w (fun s' zs => Within p.prop top (.body s) X (.body s') zs)
      (fun s' zs => Within p.prop top (.body s) X (.body s') zs) dicLimit (src.drop (n + k))
      res) : ∃ turn, afterReal res held true 0 n (src.length - n) n = .ok turn ∧
      TurnEnd p w s X src top dicLimit mode turn := by
  have hsub : sub res.buf held = .ok k := by
    rw [sub_ok (by omega)]
    congr 1
    omega
  unfold afterReal
  simp only [Bool.not_true, Bool.false_eq_true, if_false, hsub, ok_bind,
    sub_ok (show k ≤ src.length - n by omega), Nat.sub_sub]
  have hf := hframe.dic
  cases hend with
  | running s' w' hm hok hcore hgrown hprog =>
      have htemp := hcore.tempBuf_size
      rw [hok]
      exact ⟨_, rfl, .again _ (n + k) s' w' hn hm (hcore.withTemp 0 _ htemp) rfl
        hgrown ⟨hf.prop, hf.dicBufSize, hf.probs, hf.pos_ge, hf.pos_le, hf.keeps⟩ hprog⟩
  | marked s' ys d len hm hb hflush hok hmk hgrown =>
      rw [hok]
      exact ⟨_, rfl, .marked _ (n + k) s' ys d len hn hm hflush
        ⟨⟨hmk.pos_le, hmk.size_le, hmk.size_lt, hmk.probs, hmk.tempBuf_size⟩,
          ⟨hmk.holds, hmk.fits, hmk.processed, hmk.check⟩, hmk.remain, hmk.code⟩
        rfl hgrown ⟨hf.prop, hf.dicBufSize, hf.probs, hf.pos_ge, hf.pos_le, hf.keeps⟩⟩
  | rejected s' ys sym d hm hb hflush hrej hok hshape hwin hgrown =>
      rw [hok]
      exact ⟨_, rfl, .stop _ (.reject (.body s') ys rfl hm hrej
        (.inl (.failed ⟨hshape.pos_le, hshape.size_le, hshape.size_lt, hshape.probs,
          hshape.tempBuf_size⟩ ⟨hwin.holds, hwin.fits, hwin.processed, hwin.check⟩ rfl))
        ⟨hwin.holds, hwin.fits, hwin.processed, hwin.check⟩ hgrown)
        ⟨hf.prop, hf.dicBufSize, hf.probs, hf.pos_ge, hf.pos_le, hf.keeps⟩⟩

theorem RefState.short_of_more {prop : LzmaProps} {s : RefState} {T : List UInt8}
    (h : (run (symbolProg (s.ctx prop)) s.coder T).flush = .more) (k : ℕ) :
    (run (symbolProg (s.ctx prop)) s.coder (T.take k)).flush = .more := by
  cases hk : (run (symbolProg (s.ctx prop)) s.coder (T.take k)).flush with
  | more => rfl
  | fail =>
      have := RangeDecoder.flush_run_fail_append (T.drop k) hk
      rw [List.take_append_drop, h] at this
      cases this
  | done sym d rest =>
      have := RangeDecoder.flush_run_append (T.drop k) hk
      rw [List.take_append_drop, h] at this
      cases this

theorem RefState.short_of_done {prop : LzmaProps} {s : RefState} {T rest : List UInt8}
    {sym : Symbol} {d : Coder ℕ} {n : ℕ}
    (h : (run (symbolProg (s.ctx prop)) s.coder T).flush = .done sym d rest)
    (hn : n ≤ T.length) (hrest : T.drop n = rest) : ∀ k < n,
    (run (symbolProg (s.ctx prop)) s.coder (T.take k)).flush = .more := by
  obtain ⟨us, hus, hdone⟩ := RangeDecoder.flush_run_split h
  have hlen : us.length = n := by
    have h1 := congrArg List.length hus
    have h2 := congrArg List.length hrest
    rw [List.length_append] at h1
    rw [List.length_drop] at h2
    omega
  intro k hk
  have hsplit : us = us.take k ++ us.drop k := (List.take_append_drop k us).symm
  rw [hus, List.take_append_of_le_length (by omega)]
  rw [hsplit] at hdone
  apply RangeDecoder.flush_run_prefix hdone
  rw [ne_eq, List.drop_eq_nil_iff]
  omega

/-- Twenty bytes are enough for a whole symbol. -/
theorem RefState.Begun.symbol_le {prop : LzmaProps} {s : RefState} (h : s.Begun prop)
    {T rest : List UInt8} {sym : Symbol} {d : Coder ℕ}
    (hT : (run (symbolProg (s.ctx prop)) s.coder T).flush = .done sym d rest) :
    T.length ≤ rest.length + 20 := by
  by_contra hlt
  obtain ⟨us, hus, hdone⟩ := RangeDecoder.flush_run_split hT
  have hlen := congrArg List.length hus
  rw [List.length_append] at hlen
  have hmore := h.not_more (us.take 20) (by rw [List.length_take]; omega)
  rw [← List.take_append_drop 20 us] at hdone
  refine hmore (RangeDecoder.flush_run_prefix hdone ?_)
  rw [ne_eq, List.drop_eq_nil_iff]
  omega

/-- Anything but a match with its own distance goes on. -/
theorem RefState.Begun.step_other {prop : LzmaProps} {s : RefState} (h : s.Begun prop)
    {T rest : List UInt8} {sym : Symbol} {d : Coder ℕ}
    (hT : (run (symbolProg (s.ctx prop)) s.coder T).flush = .done sym d rest)
    (hk : kindOf sym ≠ .matched) : ∃ s', s.step prop T = .next (.body s') rest := by
  obtain ⟨c, xs, hr, -⟩ := RangeDecoder.flush_done hT
  by_cases ha : ∃ s', applySymbol prop s d sym = .next s'
  · obtain ⟨s', ha⟩ := ha
    exact ⟨s', by simp only [RefState.step, hT, ha, Effect.leaving]⟩
  · obtain ⟨dist, len, rfl⟩ := h.stops_simple hr (d := d) (not_exists.mp ha)
    exact absurd rfl hk

theorem kindOf_matched {sym : Symbol} (h : kindOf sym = .matched) :
    ∃ dist len, sym = .simple dist len := by
  cases sym with
  | simple dist len => exact ⟨dist, len, rfl⟩
  | lit b => cases h
  | shortRep => cases h
  | rep index len => cases h

theorem kindOf_ne_eof (sym : Symbol) : kindOf sym ≠ .inputEof := by
  cases sym <;> simp [kindOf]

theorem endMarker_kind (sym : Symbol) :
    (kindOf sym).endMarkerPossible = true ↔ kindOf sym = .matched := by
  cases sym <;> simp [kindOf, Dummy.endMarkerPossible]

/-- With room left, or a code that is not zero, there is something to decode. -/
theorem LzmaDec.Core.open (h : p.Core s s.hist) (hl : p.dicPos ≤ dicLimit)
    (hcode : dicLimit ≤ p.dicPos → p.code ≠ 0) (htop : top + p.dicPos = s.hist.length + dicLimit) :
    Config.Open top (.body s) := by
  by_cases hat : dicLimit ≤ p.dicPos
  · exact .inr ⟨by omega, h.code ▸ hcode hat⟩
  · exact .inl (by omega)

theorem LzmaDec.Core.code_ne {w : List UInt8} (h : p.Core s w)
    (hcode : dicLimit ≤ p.dicPos → p.code ≠ 0) (s' : RefState)
    (he : Config.body s = .body s') (hat : p.dicPos = dicLimit) : s'.coder.code ≠ 0 := by
  cases he
  exact h.code ▸ hcode hat.ge

/-- The turn that reads straight from the caller's input. -/
theorem decodeFromSrc_end (h : p.Core s s.hist) (hr : p.remainLen = 0) (htemp : p.tempBufSize = 0)
    {n : ℕ} (hn : n ≤ src.length) (hl : p.dicPos ≤ dicLimit) (hls : dicLimit ≤ p.dicBufSize)
    (hmode : dicLimit ≤ p.dicPos → mode = .endMark ∧ p.code ≠ 0)
    (htop : top + p.dicPos = s.hist.length + dicLimit) :
    ∃ turn, decodeFromSrc p dicLimit src (decide (dicLimit ≤ p.dicPos)) n (src.length - n) n =
      .ok turn ∧ TurnEnd p s.hist s (src.drop n) src top dicLimit mode turn := by
  have hspec := specLen
  have hopen := h.open hl (fun hat => (hmode hat).2) htop
  have hlen : (src.drop n).length = src.length - n := List.length_drop
  have hslice : slice src n (n + (src.length - n)) = .ok (src.drop n) := by
    rw [slice_spec (by omega) (by omega), List.take_of_length_le (by rw [hlen]; omega)]
  unfold decodeFromSrc
  rw [htemp]
  by_cases hsmall : src.length - n < lzmaRequiredInputMax ∨ decide (dicLimit ≤ p.dicPos) = true
  · rw [if_pos hsmall, hslice, ok_bind]
    obtain ⟨hmore, pos, hd⟩ | ⟨sym, d, rest, k, hdone, hd, hk, hrest⟩ :=
      lzmaDecTryDummy_spec h hr (src.drop n)
    · have hlt : ¬ lzmaRequiredInputMax ≤ src.length - n := fun hle =>
        h.begun.not_more _ (by omega) hmore
      obtain ⟨temp', hc1, hc2, hc3⟩ := copyInto_spec (src.drop n) 0 p.tempBuf
        (by rw [h.tempBuf_size]; omega)
      simp only [hd, ok_bind, if_true, if_neg hlt, hc1]
      rw [zero_add, List.take_zero, List.nil_append, hlen] at hc3
      refine ⟨_, rfl, .stop _ (.more (.body s) (src.drop n) ?_ rfl (.refl _ _) (.body
        (h.withTemp _ _ (hc2.trans h.tempBuf_size))
        ⟨by show src.length - n ≤ _; omega, hc3, ?_, fun _ => hr⟩) rfl ?_
        (h.code_ne fun hat => (hmode hat).2)) ⟨rfl, rfl, rfl, le_rfl, hl, .refl _ _⟩⟩
      · change Except.ok (n + (src.length - n)) = _
        congr 1
        omega
      · exact fun k _ => RefState.short_of_more hmore k
      · simp only [Config.step, RefState.step, hmore]
    · have hk20 := h.begun.symbol_le hdone
      have hkrest := congrArg List.length hrest
      rw [List.length_drop] at hkrest
      have hfit : ¬ lzmaRequiredInputMax < k := by omega
      simp only [hd, ok_bind, if_neg (kindOf_ne_eof sym), if_neg hfit]
      by_cases hover : (decide (dicLimit ≤ p.dicPos) && !(kindOf sym).endMarkerPossible) = true
      · rw [if_pos hover]
        simp only [Bool.and_eq_true, decide_eq_true_eq, Bool.not_eq_true'] at hover
        obtain ⟨hat, hkind⟩ := hover
        have hne : kindOf sym ≠ .matched := fun hm => by
          rw [(endMarker_kind sym).mpr hm] at hkind
          cases hkind
        obtain ⟨s', hstep⟩ := h.begun.step_other hdone hne
        have hheld : slice src n (n + k) = .ok ((src.drop n).take k) := by
          rw [slice_spec (by omega) (by omega), Nat.add_sub_cancel_left]
        obtain ⟨temp', hc1, hc2, hc3⟩ := copyInto_spec ((src.drop n).take k) 0 p.tempBuf
          (by rw [h.tempBuf_size, List.length_take]; omega)
        rw [zero_add, List.take_zero, List.nil_append, List.length_take, min_eq_left hk] at hc3
        rw [hheld, ok_bind, hc1, ok_bind]
        refine ⟨_, rfl, .stop _ (.past s ((src.drop n).take k) ((src.drop n).drop k) s.hist
          rfl (hmode hat).1 rfl ?_ (.body (h.withTemp _ _ (hc2.trans h.tempBuf_size))
            ⟨by show k ≤ _; omega, hc3, ?_, fun _ => hr⟩) rfl (by show p.dicPos = _; omega)
            (.inr ⟨h.code ▸ (hmode hat).2, s', rest, ?_⟩))
          ⟨rfl, rfl, rfl, le_rfl, hl, .refl _ _⟩⟩
        · rw [List.take_append_drop]
          exact .refl _ _
        · intro j hj
          have hj' : j < k := hj
          rw [List.take_take, min_eq_left hj'.le]
          exact RefState.short_of_done hdone hk hrest j hj'
        · rw [List.take_append_drop]
          exact hstep
      · rw [if_neg hover]
        have hroom : p.dicPos < dicLimit ∨ ∀ sym' d' zs,
            (run (symbolProg (s.ctx p.prop)) s.coder (src.drop n)).flush = .done sym' d' zs →
            ∃ dist len, sym' = .simple dist len := by
          by_cases hat : dicLimit ≤ p.dicPos
          · right
            intro sym' d' zs hf
            rw [hdone] at hf
            obtain ⟨rfl, -⟩ : sym = sym' ∧ _ := by simpa using hf
            refine kindOf_matched ((endMarker_kind sym).mp ?_)
            simpa [hat] using hover
          · exact .inl (by omega)
        obtain ⟨res, h1, hframe, hend⟩ := lzmaDecDecodeReal2_one (src.drop n) h hr hl hls
          (by rw [hdone]; simp) hroom
        have hext := RealEnd.extend [] [] hopen hdone
          (by simpa using hend)
        simp only [List.append_nil] at hext
        obtain ⟨hleft, hend'⟩ := hext
        have hbuf : k = res.buf := by
          have h2 := congrArg List.length hleft
          have h3 := hframe.buf_le
          rw [List.length_drop] at h2
          omega
        rw [h1, ok_bind, show (k == res.buf) = true from beq_iff_eq.mpr hbuf]
        apply afterReal_end mode hframe (show 0 + k = res.buf by omega) (by omega)
        rw [← List.drop_drop, hrest]
        exact hend'
  · rw [if_neg hsmall]
    simp only [not_or, decide_eq_true_eq, not_le, not_lt] at hsmall
    obtain ⟨hbig, hroom⟩ := hsmall
    rw [sub_ok (by omega), ok_bind]
    obtain ⟨res, h1, hframe, hend⟩ := lzmaDecDecodeReal2_many (src.drop n)
      (src.length - n - lzmaRequiredInputMax) h hr hroom hls (by omega) htop
    have hbuf := hframe.buf_le
    rw [h1, ok_bind, show decide (res.buf ≤ src.length - n) = true from
      decide_eq_true (by omega)]
    apply afterReal_end mode hframe (show 0 + res.buf = res.buf by omega) (by omega)
    rw [← List.drop_drop]
    exact hend

theorem DicFrame.trans {q r : LzmaDec} (h₁ : DicFrame p dicLimit q)
    (h₂ : DicFrame q dicLimit r) : DicFrame p dicLimit r :=
  ⟨h₂.prop.trans h₁.prop, h₂.dicBufSize.trans h₁.dicBufSize, h₂.probs.trans h₁.probs,
    h₁.pos_ge.trans h₂.pos_ge, h₂.pos_le, h₁.keeps.trans h₂.keeps h₁.pos_ge⟩

theorem Grown.trans {q r : LzmaDec} {w w' w'' : List UInt8} (h₁ : Grown p w q w')
    (h₂ : Grown q w' r w'') : Grown p w r w'' := by
  unfold Grown at *
  omega

/-- What came before a call's last position does not matter for how it ends. -/
theorem DicEnd.from {q : LzmaDec} {c : Config} {w w₁ X Y : List UInt8} {r : DicResult}
    (hq : q.prop = p.prop) (hm : Within p.prop top c X (.body s) Y) (hg : Grown p w q w₁)
    (htemp : q.tempBufSize ≠ 0 → p.tempBufSize ≠ 0 ∧ p.code = q.code ∧ q.dicPos = p.dicPos)
    (h : DicEnd q w₁ (.body s) Y src top dicLimit mode r) :
    DicEnd p w c X src top dicLimit mode r := by
  cases h with
  | more c' temp hres hst hmv hat hgr hstep hcode =>
      exact .more c' temp hres hst (hm.trans (hq ▸ hmv)) hat (hg.trans hgr) (hq ▸ hstep) hcode
  | notFinished n c' temp w hres hn hst hmode hmv hat hgr hpos =>
      exact .notFinished n c' temp w hres hn hst hmode (hm.trans (hq ▸ hmv)) hat (hg.trans hgr) hpos
  | maybe n s temp hres hn hst hmv hat hgr hpos hcode hheld =>
      refine .maybe n s temp hres hn hst (hm.trans (hq ▸ hmv)) hat (hg.trans hgr) hpos hcode
        (hheld.imp_right fun ⟨h1, h2, h3⟩ => ?_)
      obtain ⟨h4, h5, h6⟩ := htemp h1
      exact ⟨h4, h5.trans h2, h3.trans h6⟩
  | mark n s s' ys d hres hn hst hmv hstep hmk hc hgr =>
      exact .mark n s s' ys d hres hn hst (hm.trans (hq ▸ hmv)) (hq ▸ hstep) hmk hc (hg.trans hgr)
  | reject c' ys hres hmv hstep hs hw hgr =>
      exact .reject c' ys hres (hm.trans (hq ▸ hmv)) (hq ▸ hstep)
        (.inl (hs.resolve_right fun ⟨s', temp, he, _⟩ => by cases he)) hw (hg.trans hgr)
  | past s temp rest w hres hmode hst hmv hat hgr hpos hgo =>
      exact .past s temp rest w hres hmode hst (hm.trans (hq ▸ hmv)) hat (hg.trans hgr) hpos
        (hq ▸ hgo)

theorem TurnEnd.trans {q : LzmaDec} {w w₁ X : List UInt8} {turn : Turn}
    (h : TurnEnd q w₁ s X src top dicLimit mode turn) (hq : DicFrame p dicLimit q)
    (hg : Grown p w q w₁)
    (htemp : q.tempBufSize ≠ 0 → p.tempBufSize ≠ 0 ∧ p.code = q.code ∧ q.dicPos = p.dicPos) :
    TurnEnd p w s X src top dicLimit mode turn := by
  have hprop := hq.prop
  cases h with
  | stop r hend hf => exact .stop r (hend.from hprop (.refl _ _) hg htemp) (hq.trans hf)
  | again q' m s' w' hm hmv hcore hz hgr hf hprog =>
      refine .again q' m s' w' hm (hprop ▸ hmv) hcore hz (hg.trans hgr) (hq.trans hf)
        (hprog.imp_left ?_)
      exact lt_of_le_of_lt hq.pos_ge
  | marked q' m s' ys d len hm hmv hflush hmk hz hgr hf =>
      exact .marked q' m s' ys d len hm (hprop ▸ hmv) (hprop ▸ hflush) hmk hz (hg.trans hgr)
        (hq.trans hf)

theorem LzmaDec.Held.length {temp : List UInt8} (h : p.Held s temp) (hp : p.Shape) :
    temp.length = p.tempBufSize := by
  have h1 := h.temp_le
  have h2 := hp.tempBuf_size
  rw [← h.bytes, List.length_take, Array.length_toList]
  omega

/-- The held bytes are no more than the next symbol takes. -/
theorem LzmaDec.Held.long {temp rest : List UInt8} {sym : Symbol} {d : Coder ℕ} {k : ℕ}
    (ys : List UInt8) (h : p.Held s temp) (hp : p.Shape)
    (hdone : (run (symbolProg (s.ctx p.prop)) s.coder (temp ++ ys)).flush = .done sym d rest)
    (hk : k ≤ (temp ++ ys).length) (hrest : (temp ++ ys).drop k = rest) : p.tempBufSize ≤ k := by
  by_contra hlt
  have hlen := h.length hp
  have hmore := h.short k (by omega)
  obtain ⟨us, hus, hd⟩ := RangeDecoder.flush_run_split hdone
  have hrl := congrArg List.length hrest
  have hul := congrArg List.length hus
  rw [List.length_drop] at hrl
  rw [@List.length_append _ us] at hul
  have hu : us = temp.take k := by
    have h3 := congrArg (List.take k) hus
    rw [List.take_append_of_le_length (by omega), List.take_append_of_le_length (by omega),
      List.take_of_length_le (by omega : us.length ≤ k)] at h3
    exact h3.symm
  rw [hu, hmore] at hd
  cases hd

/-- The turn that completes the held bytes first: one symbol at most. -/
theorem decodeFromTemp_end (h : p.Core s s.hist) (hr : p.remainLen = 0) {temp : List UInt8}
    (hh : p.Held s temp) {n : ℕ} (hn : n ≤ src.length) (hl : p.dicPos ≤ dicLimit)
    (hls : dicLimit ≤ p.dicBufSize)
    (hmode : dicLimit ≤ p.dicPos → mode = .endMark ∧ p.code ≠ 0)
    (htop : top + p.dicPos = s.hist.length + dicLimit) :
    ∃ turn, decodeFromTemp p dicLimit src (decide (dicLimit ≤ p.dicPos)) n (src.length - n) n =
      .ok turn ∧ TurnEnd p s.hist s (temp ++ src.drop n) src top dicLimit mode turn := by
  have hspec := specLen
  have hopen := h.open hl (fun hat => (hmode hat).2) htop
  have hkept : p.tempBufSize ≠ 0 → p.tempBufSize ≠ 0 ∧ p.code = p.code ∧ p.dicPos = p.dicPos :=
    fun h0 => ⟨h0, rfl, rfl⟩
  have hsize := h.tempBuf_size
  have htl := hh.length h.toShape
  have hle := hh.temp_le
  have hlen : (src.drop n).length = src.length - n := List.length_drop
  have hslice : slice src n (n + (src.length - n)) = .ok (src.drop n) := by
    rw [slice_spec (by omega) (by omega), List.take_of_length_le (by rw [hlen]; omega)]
  obtain ⟨temp', a, hf1, hf2, hf3, hf4, hf5, hf6⟩ := fillTemp_spec lzmaRequiredInputMax
    (src.drop n) p.tempBuf p.tempBufSize 0 (by omega) hle
  rw [hh.bytes] at hf6
  rw [hlen] at hf2 hf4
  have hcore := h.withTemp p.tempBufSize temp' (by omega)
  have hsame : DicFrame p dicLimit { p with tempBuf := temp' } := ⟨rfl, rfl, rfl, le_rfl, hl, .refl _ _⟩
  obtain ⟨T, hT⟩ : ∃ T, T = temp ++ (src.drop n).take a := ⟨_, rfl⟩
  rw [← hT] at hf6
  have hTlen : T.length = p.tempBufSize + a := by
    rw [hT, List.length_append, List.length_take, hlen, htl]
    omega
  have hX : temp ++ src.drop n = T ++ src.drop (n + a) := by
    rw [hT, List.append_assoc, ← List.drop_drop, List.take_append_drop]
  have htake : slice temp'.toList 0 (p.tempBufSize + a) = .ok T := by
    rw [slice_spec (Nat.zero_le _) (by rw [Array.length_toList]; omega), List.drop_zero,
      Nat.sub_zero, hf6]
  have hS : temp'.toList = T ++ temp'.toList.drop (p.tempBufSize + a) := by
    rw [← hf6, List.take_append_drop]
  have hSlen := congrArg List.length hS
  rw [List.length_append] at hSlen
  unfold decodeFromTemp
  simp only [hslice, ok_bind, hf1, zero_add]
  rw [hX]
  by_cases hsmall : p.tempBufSize + a < lzmaRequiredInputMax ∨
      decide (dicLimit ≤ p.dicPos) = true
  · rw [if_pos hsmall, htake, ok_bind]
    obtain ⟨hmore, pos, hd⟩ | ⟨sym, d, rest, k, hdone, hd, hk, hrest⟩ :=
      lzmaDecTryDummy_spec hcore hr T
    · have hlt : ¬ lzmaRequiredInputMax ≤ p.tempBufSize + a := fun hle =>
        h.begun.not_more _ (by omega) hmore
      have ha : a = src.length - n := by omega
      simp only [hd, ok_bind, if_true, if_neg hlt]
      have hnil : src.drop (n + a) = [] := List.drop_eq_nil_of_le (by omega)
      rw [hnil, List.append_nil]
      refine ⟨_, rfl, .stop _ (.more (.body s) T ?_ rfl (.refl _ _) (.body
        (hcore.withTemp _ _ (by show temp'.size = _; omega))
        ⟨by show p.tempBufSize + a ≤ _; omega, hf6, ?_, fun _ => hr⟩) rfl ?_
        (h.code_ne fun hat => (hmode hat).2))
        ⟨rfl, rfl, rfl, le_rfl, hl, .refl _ _⟩⟩
      · change Except.ok (n + a) = _
        congr 1
        omega
      · exact fun j _ => RefState.short_of_more hmore j
      · simp only [Config.step, RefState.step]
        rw [show (run (symbolProg (s.ctx p.prop)) s.coder T).flush = .more from hmore]
    · have hk20 := h.begun.symbol_le hdone
      have hkrest := congrArg List.length hrest
      rw [List.length_drop] at hkrest
      have hlong : ¬ k < p.tempBufSize :=
        not_lt_of_ge (hh.long ((src.drop n).take a) h.toShape (hT ▸ hdone) (hT ▸ hk)
          (hT ▸ hrest))
      simp only [hd, ok_bind, if_neg (kindOf_ne_eof sym), if_neg hlong]
      by_cases hover : (decide (dicLimit ≤ p.dicPos) && !(kindOf sym).endMarkerPossible) = true
      · rw [if_pos hover]
        simp only [Bool.and_eq_true, decide_eq_true_eq, Bool.not_eq_true'] at hover
        obtain ⟨hat, hkind⟩ := hover
        have hne : kindOf sym ≠ .matched := fun hm => by
          rw [(endMarker_kind sym).mpr hm] at hkind
          cases hkind
        obtain ⟨s', hstep⟩ := h.begun.step_other hdone hne
        have hbytes : temp'.toList.take k = T.take k := by
          conv_lhs => rw [hS]
          rw [List.take_append_of_le_length hk]
        refine ⟨_, rfl, .stop _ (.past s (T.take k) (T.drop k ++ src.drop (n + a)) s.hist
          rfl (hmode hat).1 rfl ?_ (.body (hcore.withTemp _ _ (by show temp'.size = _; omega))
            ⟨by show k ≤ _; omega, hbytes, ?_, fun _ => hr⟩) rfl (by show p.dicPos = _; omega)
            (.inr ⟨h.code ▸ (hmode hat).2, s', rest ++ src.drop (n + a), ?_⟩))
          ⟨rfl, rfl, rfl, le_rfl, hl, .refl _ _⟩⟩
        · rw [← List.append_assoc, List.take_append_drop]
          exact .refl _ _
        · intro j hj
          have hj' : j < k := hj
          rw [List.take_take, min_eq_left hj'.le]
          exact RefState.short_of_done hdone hk hrest j hj'
        · rw [← List.append_assoc, List.take_append_drop]
          have hstep' : s.step p.prop T = .next (.body s') rest := hstep
          rw [RefState.step_append _ (by rw [hstep']; simp), hstep']
          rfl
      · rw [if_neg hover]
        have hroom : p.dicPos < dicLimit ∨ ∀ sym' d' zs,
            (run (symbolProg (s.ctx p.prop)) s.coder temp'.toList).flush = .done sym' d' zs →
            ∃ dist len, sym' = .simple dist len := by
          by_cases hat : dicLimit ≤ p.dicPos
          · right
            intro sym' d' zs hf
            rw [hS, RangeDecoder.flush_run_append _ hdone] at hf
            obtain ⟨rfl, -⟩ : sym = sym' ∧ _ := by simpa using hf
            refine kindOf_matched ((endMarker_kind sym).mp ?_)
            simpa [hat] using hover
          · exact .inl (by omega)
        obtain ⟨res, h1, hframe, hend⟩ := lzmaDecDecodeReal2_one temp'.toList hcore hr hl
          hls (by rw [hS, RangeDecoder.flush_run_append _ hdone]; simp) hroom
        rw [hS] at hend
        obtain ⟨hleft, hend'⟩ := @RealEnd.extend { p with tempBuf := temp' } s top T _ _ _
          (src.drop (n + a)) _ _ _ _ hopen hdone hend
        have hbuf : k = res.buf := by
          have h2 := congrArg List.length hleft
          have h3 := hframe.buf_le
          rw [← hS, List.length_drop, List.length_append] at h2
          omega
        rw [h1, ok_bind, show (k == res.buf) = true from beq_iff_eq.mpr hbuf]
        have hsrc : rest ++ src.drop (n + a) = src.drop (n + (k - p.tempBufSize)) := by
          rw [← hrest, ← List.drop_append_of_le_length hk, ← hX, List.drop_append,
            List.drop_eq_nil_of_le (by omega), List.nil_append, htl, List.drop_drop]
        have hstop : n + (k - p.tempBufSize) ≤ src.length := by omega
        obtain ⟨turn, ht1, ht2⟩ := afterReal_end mode hframe
          (show p.tempBufSize + (k - p.tempBufSize) = res.buf by omega) hstop (hsrc ▸ hend')
        exact ⟨turn, ht1, ht2.trans hsame rfl hkept⟩
  · rw [if_neg hsmall]
    simp only [not_or, decide_eq_true_eq, not_le, not_lt] at hsmall
    obtain ⟨hbig, hroom⟩ := hsmall
    have hfull : T.length = 20 := by omega
    have hjunk : temp'.toList.drop (p.tempBufSize + a) = [] :=
      List.drop_eq_nil_of_le (by rw [Array.length_toList]; omega)
    rw [hjunk, List.append_nil] at hS
    obtain ⟨res, h1, hframe, hend⟩ := lzmaDecDecodeReal2_one temp'.toList hcore hr hl
      hls (h.begun.not_more _ (by rw [hS]; omega)) (.inl hroom)
    cases hdone : (run (symbolProg (s.ctx p.prop)) s.coder T).flush with
    | more => exact absurd hdone (h.begun.not_more _ (by omega))
    | fail => exact absurd (RangeDecoder.flush_fail hdone) (h.begun.ne_fail T)
    | done sym d rest =>
        rw [hS] at hend
        obtain ⟨hleft, hend'⟩ := @RealEnd.extend { p with tempBuf := temp' } s top T _ _ []
          (src.drop (n + a)) _ _ _ _ hopen hdone (by rw [List.append_nil]; exact hend)
        rw [List.append_nil] at hleft
        have hbuf := hframe.buf_le
        have hlong : p.tempBufSize ≤ res.buf :=
          hh.long ((src.drop n).take a) h.toShape (hT ▸ hdone)
            (hT ▸ by rw [← hS]; exact hbuf) (hT ▸ hleft)
        rw [h1, ok_bind, show decide (res.buf ≤ lzmaRequiredInputMax ∧ p.tempBufSize ≤ res.buf) =
          true from decide_eq_true (by rw [Array.length_toList] at hbuf; omega)]
        have hsrc : rest ++ src.drop (n + a) = src.drop (n + (res.buf - p.tempBufSize)) := by
          have hle' : res.buf ≤ T.length := by rw [← hS]; exact hbuf
          rw [← hleft, ← List.drop_append_of_le_length hle', ← hX, List.drop_append,
            List.drop_eq_nil_of_le (by omega), List.nil_append, htl, List.drop_drop]
        have hstop : n + (res.buf - p.tempBufSize) ≤ src.length := by
          rw [Array.length_toList] at hbuf
          omega
        obtain ⟨turn, ht1, ht2⟩ := afterReal_end mode hframe
          (show p.tempBufSize + (res.buf - p.tempBufSize) = res.buf by omega) hstop
          (hsrc ▸ hend')
        exact ⟨turn, ht1, ht2.trans hsame rfl hkept⟩

end
end LzmaTurbo.Lzma
