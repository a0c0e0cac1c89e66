import LzmaTurbo.Lzma.Decoder

/-!
# Runs of calls on one stream

A session hands the decoder one slice of the stream after another, each with its
own room for output. Whatever the cuts, the decoder stands at a position the
reference decoder of the whole stream passes through.
-/
namespace LzmaTurbo.Lzma
open Machine BitProgram Window
open RangeDecoder (Coder run)

/-- One call of `decode`: at most `inLen` of the unread bytes, `outLen` bytes of room. -/
structure Call where
  inLen : ℕ
  outLen : ℕ
  finish : FinishMode

/-- A stream half handed over. `offered` is the length of the last call's slice, `limit` what
the earlier calls wrote and what the last one had room for; `last` is its own result. -/
structure Trace where
  d : LzmaDecoder
  out : List UInt8
  rest : List UInt8
  offered : ℕ
  limit : ℕ
  last : Option (Call × Except Error Progress)

def Trace.start (d : LzmaDecoder) (xs : List UInt8) : Trace :=
  { d, out := [], rest := xs, offered := 0, limit := 0, last := none }

def Trace.call (t : Trace) (call : Call) : Except Fault Trace := do
  let r ← t.d.decode (t.rest.take call.inLen) call.outLen call.finish
  .ok { d := ⟨r.p⟩
        out := t.out ++ r.out
        rest := match r.res with
          | .ok pr => t.rest.drop pr.read
          | .error _ => t.rest
        offered := (t.rest.take call.inLen).length
        limit := t.out.length + call.outLen
        last := some (call, r.res) }

def Trace.failed (t : Trace) : Bool :=
  match t.last with
  | some (_, .error _) => true
  | _ => false

/-- The calls one after the other, up to the first error. -/
def Trace.session : Trace → List Call → Except Fault Trace
  | t, [] => .ok t
  | t, call :: calls =>
      if t.failed then .ok t else do
        let t ← t.call call
        t.session calls

section
variable {prop : LzmaProps} {p : LzmaDec} {c : Config} {s : RefState}
  {xs ys rest out temp w : List UInt8}

theorem LzmaDec.init_before (h : p.Shape) : p.init.Before (freshState []) [] where
  pos_le := Nat.zero_le _
  size_le := h.size_le
  size_lt := h.size_lt
  probs := h.probs
  tempBuf_size := h.tempBuf_size
  holds := .nil (Nat.zero_le _) h.size_le
  fits := .inr le_rfl
  processed := rfl
  check := (position_zero.mpr rfl).2.symm
  remain := .inr rfl
  fresh := fun _ => rfl
  kept := fun h => absurd (show kMatchSpecLenStart + 2 = kMatchSpecLenStart + 1 from h) (by decide)
  base := freshState_base []
  temp_le := Nat.zero_le _
  bytes := List.take_zero

theorem LzmaDec.new_before (prop : LzmaProps) : (LzmaDec.new prop).Before (freshState []) [] := by
  refine LzmaDec.init_before ⟨Nat.zero_le _, ?_, ?_, ?_, Array.size_replicate⟩
  · simp only [Array.size_replicate, le_refl]
  · exact lt_of_lt_of_le prop.dicBufSize_lt (by norm_num)
  · simp only [Array.size_replicate, le_refl]

/-- Where a session is: `out` is written of the stream `xs`, `rest` is not yet handed over. -/
inductive Stands (prop : LzmaProps) (xs rest out : List UInt8) (p : LzmaDec) : Prop
  | live (c : Config) (temp w : List UInt8) : Moves prop start xs c (temp ++ rest) →
      p.At c temp w → out = w.reverse → Stands prop xs rest out p
  | marked (s s' : RefState) (ys : List UInt8) (d : Coder ℕ) : Moves prop start xs (.body s) ys →
      s.step prop ys = .mark s' rest → p.Marked s d → d.code = 0 → out = s.hist.reverse →
      Stands prop xs rest out p

/-- What a decoder that stands somewhere has written is a prefix of the reference's output. -/
theorem Stands.isPrefix (h : Stands prop xs rest out p) : out <+: (reference prop xs).out := by
  cases h with
  | live c temp w hm hat hout =>
      rw [hout]
      exact hm.isPrefix hat.written
  | marked s s' ys d hm hs hmk hc hout =>
      rw [hout]
      exact hm.isPrefix List.suffix_rfl

/-- The session and the reference decoder of the whole stream agree. -/
structure Agrees (prop : LzmaProps) (xs : List UInt8) (t : Trace) : Prop where
  isPrefix : t.out <+: (reference prop xs).out
  counts : ∀ call pr, t.last = some (call, .ok pr) → pr.read ≤ t.offered ∧
    t.out.length + call.outLen = t.limit + pr.written ∧ t.out.length ≤ t.limit
  hungry : ∀ call pr, t.last = some (call, .ok pr) → pr.status = .needsMoreInput →
    pr.read = t.offered ∧ ∃ given, xs = given ++ t.rest ∧
      (reference prop given).verdict = .more ∧ t.out = (reference prop given).out
  finished : ∀ call pr, t.last = some (call, .ok pr) → pr.status = .finishedWithMark →
    (reference prop xs).verdict = .mark ∧ t.out = (reference prop xs).out ∧
      t.rest = (reference prop xs).rest
  maybe : ∀ call pr, t.last = some (call, .ok pr) → pr.status = .maybeFinishedWithoutMark →
    ∃ s ys, Moves prop start xs (.body s) ys ∧ s.hist = t.out.reverse ∧ s.coder.code = 0
  progress : ∀ call pr, t.last = some (call, .ok pr) → pr.status = .needsMoreInput ∨
    pr.status = .finishedWithMark ∨ t.out.length = t.limit
  decided : ∀ call pr, t.last = some (call, .ok pr) → t.out.length < t.limit → t.rest = [] →
    pr.status = .finishedWithMark ∧ (reference prop xs).verdict = .mark ∨
      pr.status = .needsMoreInput ∧ (reference prop xs).verdict = .more
  corrupt : ∀ call e, t.last = some (call, .error e) → e = .corruptData ∧
    ((reference prop xs).verdict = .reject ∧ t.d.p.Window (reference prop xs).hist ∨
      call.finish = .endMark ∧ t.limit < (reference prop xs).out.length)

/-- A call that succeeds leaves the decoder standing. -/
theorem Agrees.of_ok {t : Trace} {call : Call} {pr : Progress}
    (hlast : t.last = some (call, .ok pr)) (hpre : t.out <+: (reference prop xs).out)
    (hcounts : pr.read ≤ t.offered ∧ t.out.length + call.outLen = t.limit + pr.written ∧
      t.out.length ≤ t.limit)
    (hhungry : pr.status = .needsMoreInput → pr.read = t.offered ∧ ∃ given, xs = given ++ t.rest ∧
      (reference prop given).verdict = .more ∧ t.out = (reference prop given).out)
    (hfin : pr.status = .finishedWithMark → (reference prop xs).verdict = .mark ∧
      t.out = (reference prop xs).out ∧ t.rest = (reference prop xs).rest)
    (hmaybe : pr.status = .maybeFinishedWithoutMark → ∃ s ys, Moves prop start xs (.body s) ys ∧
      s.hist = t.out.reverse ∧ s.coder.code = 0)
    (hprog : pr.status = .needsMoreInput ∨ pr.status = .finishedWithMark ∨
      t.out.length = t.limit) : Agrees prop xs t := by
  have hsame : ∀ {call' pr'}, t.last = some (call', .ok pr') → call' = call ∧ pr' = pr := by
    intro call' pr' h
    rw [hlast] at h
    simpa [eq_comm] using h
  refine ⟨hpre, ?_, ?_, ?_, ?_, ?_, ?_, ?_⟩
  · intro call' pr' h
    obtain ⟨rfl, rfl⟩ := hsame h
    exact hcounts
  · intro call' pr' h
    obtain ⟨rfl, rfl⟩ := hsame h
    exact hhungry
  · intro call' pr' h
    obtain ⟨rfl, rfl⟩ := hsame h
    exact hfin
  · intro call' pr' h
    obtain ⟨rfl, rfl⟩ := hsame h
    exact hmaybe
  · intro call' pr' h
    obtain ⟨rfl, rfl⟩ := hsame h
    exact hprog
  · intro call' pr' h hroom hrest
    obtain ⟨rfl, rfl⟩ := hsame h
    rcases hprog with hst | hst | hst
    · obtain ⟨-, given, hgiven, hmore, -⟩ := hhungry hst
      rw [hrest, List.append_nil] at hgiven
      rw [hgiven]
      exact .inr ⟨hst, hmore⟩
    · exact .inl ⟨hst, (hfin hst).1⟩
    · omega
  · intro call' e h
    rw [hlast] at h
    simp at h

theorem Agrees.of_error {t : Trace} {call : Call}
    (hlast : t.last = some (call, .error .corruptData)) (hpre : t.out <+: (reference prop xs).out)
    (h : (reference prop xs).verdict = .reject ∧ t.d.p.Window (reference prop xs).hist ∨
      call.finish = .endMark ∧ t.limit < (reference prop xs).out.length) : Agrees prop xs t := by
  refine ⟨hpre, ?_, ?_, ?_, ?_, ?_, ?_, fun call' e hl => ?_⟩
  · simp [hlast]
  · simp [hlast]
  · simp [hlast]
  · simp [hlast]
  · simp [hlast]
  · simp [hlast]
  · rw [hlast] at hl
    obtain ⟨rfl, rfl⟩ : call = call' ∧ Error.corruptData = e := by simpa using hl
    exact ⟨rfl, h⟩

/-- Output that is cut short, or that a further symbol adds to, is not all of it. -/
theorem Moves.beyond (h : Moves prop start xs (.body s) ys) (hw : w <:+ s.hist)
    (hgo : w ≠ s.hist ∨ ∃ s' zs, s.step prop ys = .next (.body s') zs) :
    w.length < (reference prop xs).out.length := by
  rcases hgo with hne | ⟨s', zs, hs⟩
  · have hpre := h.isPrefix (List.suffix_rfl : s.hist <:+ (Config.body s).hist)
    have hle := hpre.length_le
    have hlt : w.length < s.hist.length :=
      lt_of_le_of_ne hw.length_le fun hl => hne (hw.eq_of_length hl)
    rw [List.length_reverse] at hle
    omega
  · have hm' := h.trans
      (.single trivial (show (Config.body s).step prop ys = .next (.body s') zs from hs))
    have hle := (Moves.isPrefix hm' (List.suffix_rfl : s'.hist <:+ (Config.body s').hist)).length_le
    have hlt := (RefState.step_begun (h.ok start_header) hs).2
    have hws := hw.length_le
    rw [List.length_reverse] at hle
    omega

theorem drop_take_append {α : Type} {l : List α} {k n : ℕ} (h : n ≤ (l.take k).length) :
    (l.take k).drop n ++ l.drop k = l.drop n := by
  conv_rhs => rw [← List.take_append_drop k l]
  rw [List.drop_append_of_le_length h]

/-- One call from where a session stands. -/
theorem Stands.call {t : Trace} (hst : Stands prop xs t.rest t.out t.d.p)
    (hprop : t.d.p.prop = prop) (hsize : prop.dictSize ≤ t.d.p.dicBufSize) (call : Call) :
    ∃ t', t.call call = .ok t' ∧ Agrees prop xs t' ∧ t'.d.p.prop = prop ∧
      t'.d.p.dicBufSize = t.d.p.dicBufSize ∧
      (t'.failed = false → Stands prop xs t'.rest t'.out t'.d.p) := by
  obtain ⟨input, hinput⟩ : ∃ input, input = t.rest.take call.inLen := ⟨_, rfl⟩
  have hrest : ∀ {n}, n ≤ input.length →
      input.drop n ++ t.rest.drop call.inLen = t.rest.drop n := by
    rw [hinput]
    exact drop_take_append
  unfold Trace.call LzmaDecoder.decode
  rw [← hinput]
  subst hprop
  cases hst with
  | marked s s' ys d hm hs hmk hc hout =>
      obtain ⟨r, hr, hrout, hres, hmk', hp, hb⟩ := decodeBuf_marked call.outLen
        call.outLen call.finish [] hmk hc hsize (Nat.zero_le input.length)
      rw [Nat.sub_zero] at hr
      rw [hr, ok_bind, hrout, hres, List.append_nil]
      have hmark := hm.mark hs
      refine ⟨_, rfl, .of_ok rfl ?_ ⟨Nat.zero_le _, rfl, Nat.le_add_right _ _⟩ (by simp) ?_
        (by simp) (.inr (.inl rfl)), hp, hb, fun _ => .marked s s' ys d hm hs hmk' hc hout⟩
      · rw [hout]
        exact hm.isPrefix List.suffix_rfl
      · intro _
        rw [hmark, hout]
        exact ⟨rfl, rfl, rfl⟩
  | live c temp w hm hat hout =>
      obtain ⟨r, hr, hend, hp, hb⟩ := decodeBuf_end call.finish [] hat hsize
        (Nat.zero_le input.length) (Nat.lt_succ_self call.outLen)
      rw [Nat.sub_zero] at hr
      rw [hr, ok_bind]
      have hmoves : ∀ {c' Y}, Moves t.d.p.prop c (temp ++ input.drop 0) c' Y →
          Moves t.d.p.prop start xs c' (Y ++ t.rest.drop call.inLen) := by
        intro c' Y h
        have h' := h.append (t.rest.drop call.inLen)
        rw [List.append_assoc, hrest (Nat.zero_le _)] at h'
        exact hm.trans h'
      have hwritten : ∀ new, t.out ++ new = (new.reverse ++ w).reverse := fun new => by
        rw [List.reverse_append, List.reverse_reverse, hout]
      have hcounts : ∀ new : List UInt8, new.length ≤ call.outLen →
          (t.out ++ new).length + call.outLen = t.out.length + call.outLen + new.length ∧
            (t.out ++ new).length ≤ t.out.length + call.outLen := fun new hle => by
        rw [List.length_append]
        omega
      have hfull : ∀ new : List UInt8, new.length = call.outLen →
          (t.out ++ new).length = t.out.length + call.outLen := fun new hlen => by
        rw [List.length_append, hlen]
      cases hend with
      | more new temp' c' ho hres hm' hat' hh hlen hs =>
          rw [List.nil_append] at ho
          subst ho
          have hmv := hmoves hm'
          have hall := hrest le_rfl
          rw [List.drop_length, List.nil_append] at hall
          rw [hall] at hmv
          have heq : t.out ++ r.out = c'.hist.reverse := by rw [hwritten, hh]
          have hstands : Stands t.d.p.prop xs (t.rest.drop input.length) (t.out ++ r.out) r.p :=
            .live c' temp' _ hmv hat' heq
          rw [hres]
          refine ⟨_, rfl, .of_ok rfl hstands.isPrefix ⟨le_rfl, hcounts _ hlen⟩ (fun _ => ?_)
            (by simp) (by simp) (.inl rfl), hp, hb, fun _ => hstands⟩
          obtain ⟨given, hgiven, hmg⟩ := hmv.given (Config.lawful _)
          refine ⟨rfl, given, hgiven, ?_⟩
          rw [Moves.more hmg hs]
          exact ⟨rfl, heq⟩
      | full n new temp' c' ho hn hres hm' hat' hlen hmode =>
          rw [List.nil_append] at ho
          subst ho
          have hmv := hmoves hm'
          rw [List.append_assoc, hrest hn] at hmv
          have hstands : Stands t.d.p.prop xs (t.rest.drop n) (t.out ++ r.out) r.p :=
            .live c' temp' _ hmv hat' (hwritten _)
          rw [hres]
          exact ⟨_, rfl, .of_ok rfl hstands.isPrefix ⟨hn, hcounts _ hlen.le⟩ (by simp) (by simp)
            (by simp) (.inr (.inr (hfull _ hlen))), hp, hb, fun _ => hstands⟩
      | maybe n new temp' s ho hn hres hm' hat' hh hlen hcode =>
          rw [List.nil_append] at ho
          subst ho
          have hmv := hmoves hm'
          rw [List.append_assoc, hrest hn] at hmv
          have hstands : Stands t.d.p.prop xs (t.rest.drop n) (t.out ++ r.out) r.p :=
            .live (.body s) temp' _ hmv hat' (by rw [hwritten, hh])
          rw [hres]
          refine ⟨_, rfl, .of_ok rfl hstands.isPrefix ⟨hn, hcounts _ hlen.le⟩ (by simp) (by simp)
            (fun _ => ⟨s, _, hmv, ?_, hcode⟩) (.inr (.inr (hfull _ hlen))), hp, hb,
            fun _ => hstands⟩
          rw [hwritten, List.reverse_reverse, hh]
      | mark n new ys s s' d ho hn hres hm' hs hmk hc hh hlen =>
          rw [List.nil_append] at ho
          subst ho
          have hmv := hmoves hm'
          have hs' : s.step t.d.p.prop (ys ++ t.rest.drop call.inLen) =
              .mark s' (t.rest.drop n) := by
            rw [RefState.step_append _ (by rw [hs]; simp), hs, ← hrest hn]
            rfl
          have heq : t.out ++ r.out = s.hist.reverse := by rw [hwritten, hh]
          have hstands : Stands t.d.p.prop xs (t.rest.drop n) (t.out ++ r.out) r.p :=
            .marked s s' _ d hmv hs' hmk hc heq
          rw [hres]
          refine ⟨_, rfl, .of_ok rfl hstands.isPrefix ⟨hn, hcounts _ hlen⟩ (by simp) (fun _ => ?_)
            (by simp) (.inr (.inl rfl)), hp, hb, fun _ => hstands⟩
          rw [hmv.mark hs']
          exact ⟨rfl, heq, rfl⟩
      | reject new ys c' ho hres hm' hs hsound hw hsuf =>
          rw [List.nil_append] at ho
          subst ho
          have hmv := hmoves hm'
          have hs' : c'.step t.d.p.prop (ys ++ t.rest.drop call.inLen) = .reject := by
            rw [Config.step_append _ (by rw [hs]; simp), hs]
            rfl
          rw [hres]
          refine ⟨_, rfl, .of_error rfl ?_ ?_, hp, hb, by simp [Trace.failed]⟩
          · rw [hwritten]
            exact hmv.isPrefix hsuf
          · rw [hmv.reject hs']
            exact .inl ⟨rfl, hw⟩
      | past new temp' rest w' s ho hres hmode hm' hat' hsuf hlen hgo =>
          rw [List.nil_append] at ho
          subst ho
          have hmv := hmoves hm'
          rw [hres]
          refine ⟨_, rfl, .of_error rfl ?_ (.inr ⟨hmode, ?_⟩), hp, hb, by simp [Trace.failed]⟩
          · rw [hwritten]
            exact hmv.isPrefix (hsuf.trans hat'.written)
          · have hlen' : t.out.length + call.outLen = w'.length := by
              rw [hlen, hout, List.length_reverse]
            change t.out.length + call.outLen < _
            rw [hlen']
            exact hmv.beyond hat'.written (hgo.imp_right fun ⟨s'', zs, h⟩ => by
              refine ⟨s'', zs ++ t.rest.drop call.inLen, ?_⟩
              rw [RefState.step_append _ (by rw [h]; simp), h]
              rfl)

theorem Stands.session {t : Trace} (calls : List Call) (hag : Agrees prop xs t)
    (hst : t.failed = false → Stands prop xs t.rest t.out t.d.p) (hprop : t.d.p.prop = prop)
    (hsize : prop.dictSize ≤ t.d.p.dicBufSize) :
    ∃ t', t.session calls = .ok t' ∧ Agrees prop xs t' := by
  induction calls generalizing t with
  | nil => exact ⟨t, rfl, hag⟩
  | cons call calls ih =>
      rw [Trace.session]
      by_cases hf : t.failed = true
      · rw [if_pos hf]
        exact ⟨t, rfl, hag⟩
      · rw [if_neg hf]
        obtain ⟨t', ht', hag', hp, hb, hst'⟩ := (hst (by simpa using hf)).call hprop hsize call
        rw [ht', ok_bind]
        exact ih hag' hst' hp (hb ▸ hsize)

/-- However a stream is cut into slices and its output into pieces, the decoder
writes what the reference decoder writes, and stops where it stops. -/
theorem session_agrees (prop : LzmaProps) (xs : List UInt8) (calls : List Call) :
    ∃ t, (Trace.start (LzmaDecoder.new prop) xs).session calls = .ok t ∧ Agrees prop xs t := by
  refine Stands.session calls ⟨List.nil_prefix, ?_, ?_, ?_, ?_, ?_, ?_, ?_⟩ (fun _ => ?_) rfl
    prop.dictSize_le_dicBufSize
  · simp [Trace.start]
  · simp [Trace.start]
  · simp [Trace.start]
  · simp [Trace.start]
  · simp [Trace.start]
  · simp [Trace.start]
  · simp [Trace.start]
  · exact .live start [] [] (.refl _ _) (.header (LzmaDec.new_before prop)) rfl

/-- The smallest properties, and a stream of one literal and the end marker. -/
def tinyProps : LzmaProps where
  lc := 0
  lp := 0
  pb := 0
  dictSize := 4096
  lc_le := Nat.zero_le _
  lp_le := Nat.zero_le _
  pb_le := Nat.zero_le _
  dict_ge := by decide
  dict_lt := by decide

def tinyStream : List UInt8 := [0, 0, 67, 238, 239, 255, 255, 225, 0, 128, 0]

theorem tinyStream_reference : reference tinyProps tinyStream = ⟨[0], [], .mark⟩ := by
  change RefResult.of (StreamMachine.run _ _ start tinyStream) = _
  rw [(Config.lawful tinyProps).run_of_loop start_header (n := 4) (by decide +kernel)]
  decide +kernel

/-- With nothing decoded the range code is still the one the stream starts with. -/
theorem tinyStream_code (h : Moves tinyProps start tinyStream (.body s) ys) (hs : s.hist = []) :
    s.coder.code ≠ 0 := by
  cases h with
  | step _ hstep hm =>
      have hfirst : start.step tinyProps tinyStream =
          .next (.body ((freshState []).start 0 67 238 239)) [255, 255, 225, 0, 128, 0] := rfl
      rw [hfirst, StreamMachine.Step.next.injEq] at hstep
      obtain ⟨rfl, rfl⟩ := hstep
      cases hm with
      | refl => exact (by decide : (0 * 2 ^ 24 + 67 * 2 ^ 16 + 238 * 2 ^ 8 + 239 : ℕ) ≠ 0)
      | step _ hstep hm =>
          have hs₀ : ((freshState []).start 0 67 238 239).step tinyProps
              [255, 255, 225, 0, 128, 0] = .next _ _ := hstep
          obtain ⟨s₁, rfl, hok, -, hlt, -⟩ := RefState.step_next
            (start_ok (freshState_base []) 0 67 238 239) hs₀
          have hle := (Moves.suffix hm hok).length_le
          simp only [Config.hist, hs, List.length_nil] at hle
          omega

/-- A call that insists on the end of the stream fails on this one when it has no room,
though nothing is wrong with the stream. -/
theorem tinyStream_endMark : ∃ t,
    (Trace.start (LzmaDecoder.new tinyProps) tinyStream).session [⟨11, 0, .endMark⟩] = .ok t ∧
      t.failed = true ∧ (reference tinyProps tinyStream).verdict = .mark := by
  have href := tinyStream_reference
  obtain ⟨r, hr, hend, -⟩ := decodeBuf_end .endMark [] (.header (LzmaDec.new_before tinyProps))
    tinyProps.dictSize_le_dicBufSize (Nat.zero_le tinyStream.length) (Nat.lt_succ_self 0)
  have hres : r.res = .error .corruptData := by
    cases hend with
    | more new temp c' ho hres hm hat hh hlen hs =>
        cases congrArg RefResult.verdict (href.symm.trans (Moves.more hm hs))
    | full n new temp c' ho hn hres hm hat hlen hmode => cases hmode
    | maybe n new temp s ho hn hres hm hat hh hlen hcode =>
        rw [List.eq_nil_of_length_eq_zero hlen] at hh
        exact absurd hcode (tinyStream_code hm hh)
    | mark n new ys s s' d ho hn hres hm hs hmk hc hh hlen =>
        rw [List.eq_nil_of_length_eq_zero (Nat.le_zero.mp hlen)] at hh
        have hsame := congrArg RefResult.hist (href.symm.trans (hm.mark hs))
        rw [show (Config.body s).hist = s.hist from rfl, hh] at hsame
        cases hsame
    | reject new ys c' ho hres hm hs hsound hw hsuf => exact hres
    | past new temp rest w' s ho hres hmode hm hat hsuf hlen hgo => exact hres
  have hdecode : (LzmaDecoder.new tinyProps).decode (tinyStream.take 11) 0 .endMark = .ok r := hr
  obtain ⟨t, ht, hlast⟩ : ∃ t, (Trace.start (LzmaDecoder.new tinyProps) tinyStream).call
      ⟨11, 0, .endMark⟩ = .ok t ∧ t.last = some (⟨11, 0, .endMark⟩, .error .corruptData) := by
    unfold Trace.call
    exact ⟨_, by rw [Trace.start, hdecode, ok_bind], by rw [hres]⟩
  refine ⟨t, ?_, by rw [Trace.failed, hlast], by rw [href]⟩
  rw [Trace.session, if_neg (by decide), ht, ok_bind]
  rfl

end
end LzmaTurbo.Lzma
