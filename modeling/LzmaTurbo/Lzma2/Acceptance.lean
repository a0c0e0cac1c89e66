import LzmaTurbo.Lzma2.Session

/-!
# Sessions agree with the grammar

However a stream of chunks is cut, the decoder writes what the grammar writes
and stops where it stops.
-/
namespace LzmaTurbo.Lzma2
open Machine Lzma StreamMachine Window

/-- A stream half handed over, as `Trace` has it. -/
structure Trace2 where
  d : Lzma2Decoder
  out : List UInt8
  rest : List UInt8
  offered : ℕ
  limit : ℕ
  last : Option (Call × Except Error Progress)

def Trace2.start (d : Lzma2Decoder) (xs : List UInt8) : Trace2 :=
  { d, out := [], rest := xs, offered := 0, limit := 0, last := none }

def Trace2.call (t : Trace2) (call : Call) : Except Fault Trace2 := do
  let r ← t.d.decode (t.rest.take call.inLen) call.outLen call.finish
  .ok { d := r.d
        out := t.out ++ r.out
        rest := match r.res with
          | .ok pr => t.rest.drop pr.read
          | .error _ => t.rest
        offered := (t.rest.take call.inLen).length
        limit := t.out.length + call.outLen
        last := some (call, r.res) }

def Trace2.failed (t : Trace2) : Bool :=
  match t.last with
  | some (_, .error _) => true
  | _ => false

/-- The calls one after the other, up to the first error. -/
def Trace2.session : Trace2 → List Call → Except Fault Trace2
  | t, [] => .ok t
  | t, call :: calls =>
      if t.failed then .ok t else do
        let t ← t.call call
        t.session calls

/-- The session and the grammar agree on the stream `xs`. -/
structure Agrees2 (prop : LzmaProps) (xs : List UInt8) (t : Trace2) : Prop where
  isPrefix : t.out <+: (format2 prop xs).out
  counts : ∀ call pr, t.last = some (call, .ok pr) → pr.read ≤ t.offered ∧
    t.out.length + call.outLen = t.limit + pr.written ∧ t.out.length ≤ t.limit
  hungry : ∀ call pr, t.last = some (call, .ok pr) → pr.status = .needsMoreInput →
    pr.read = t.offered ∧ ∃ given, xs = given ++ t.rest ∧
      (format2 prop given).verdict = .more ∧ t.out = (format2 prop given).out
  finished : ∀ call pr, t.last = some (call, .ok pr) → pr.status = .finishedWithMark →
    (format2 prop xs).verdict = .mark ∧ t.out = (format2 prop xs).out ∧
      t.rest = (format2 prop xs).rest
  progress : ∀ call pr, t.last = some (call, .ok pr) → pr.status = .needsMoreInput ∨
    pr.status = .finishedWithMark ∨ pr.status = .notFinished ∧ t.out.length = t.limit
  decided : ∀ call pr, t.last = some (call, .ok pr) → t.out.length < t.limit → t.rest = [] →
    pr.status = .finishedWithMark ∧ (format2 prop xs).verdict = .mark ∨
      pr.status = .needsMoreInput ∧ (format2 prop xs).verdict = .more
  corrupt : ∀ call e, t.last = some (call, .error e) → e = .corruptData ∧
    ((∀ zs, (format2 prop (xs ++ zs)).verdict ≠ .mark) ∨
      call.finish = .endMark ∧ ∀ zs, (format2 prop (xs ++ zs)).verdict = .mark →
        t.limit < (format2 prop (xs ++ zs)).out.length)

/-- Where a session is: `out` is written of the stream `xs`, `rest` is not yet handed over. -/
structure Stands2 (prop : LzmaProps) (xs rest out : List UInt8) (d : Lzma2Decoder) : Prop where
  here : ∃ pos held, Moves2 (Pos.start prop) xs pos (held ++ rest) ∧
    d.At2 pos held out.reverse ∧ Exact pos held out.reverse

section
variable {prop : LzmaProps} {xs : List UInt8} {t : Trace2}

/-- A call that succeeds leaves the decoder standing. -/
theorem Agrees2.of_ok {call : Call} {pr : Progress} (hlast : t.last = some (call, .ok pr))
    (hpre : t.out <+: (format2 prop xs).out)
    (hcounts : pr.read ≤ t.offered ∧ t.out.length + call.outLen = t.limit + pr.written ∧
      t.out.length ≤ t.limit)
    (hhungry : pr.status = .needsMoreInput → pr.read = t.offered ∧ ∃ given, xs = given ++ t.rest ∧
      (format2 prop given).verdict = .more ∧ t.out = (format2 prop given).out)
    (hfin : pr.status = .finishedWithMark → (format2 prop xs).verdict = .mark ∧
      t.out = (format2 prop xs).out ∧ t.rest = (format2 prop xs).rest)
    (hprog : pr.status = .needsMoreInput ∨ pr.status = .finishedWithMark ∨
      pr.status = .notFinished ∧ t.out.length = t.limit) : Agrees2 prop xs t := by
  have hsame : ∀ {call' pr'}, t.last = some (call', .ok pr') → call' = call ∧ pr' = pr := by
    intro call' pr' h
    rw [hlast] at h
    simpa [eq_comm] using h
  refine ⟨hpre, ?_, ?_, ?_, ?_, ?_, ?_⟩
  · intro call' pr' h
    obtain ⟨rfl, rfl⟩ := hsame h
    exact hcounts
  · intro call' pr' h
    obtain ⟨rfl, rfl⟩ := hsame h
    exact hhungry
  · intro call' pr' h
    obtain ⟨rfl, rfl⟩ := hsame h
    exact hfin
  · intro call' pr' h
    obtain ⟨rfl, rfl⟩ := hsame h
    exact hprog
  · intro call' pr' h hroom hrest
    obtain ⟨rfl, rfl⟩ := hsame h
    rcases hprog with hst | hst | hst
    · obtain ⟨-, given, hgiven, hmore, -⟩ := hhungry hst
      rw [hrest, List.append_nil] at hgiven
      rw [hgiven]
      exact .inr ⟨hst, hmore⟩
    · exact .inl ⟨hst, (hfin hst).1⟩
    · omega
  · intro call' e h
    rw [hlast] at h
    simp at h

theorem Agrees2.of_error {call : Call} (hlast : t.last = some (call, .error .corruptData))
    (hpre : t.out <+: (format2 prop xs).out)
    (h : (∀ zs, (format2 prop (xs ++ zs)).verdict ≠ .mark) ∨
      call.finish = .endMark ∧ ∀ zs, (format2 prop (xs ++ zs)).verdict = .mark →
        t.limit < (format2 prop (xs ++ zs)).out.length) : Agrees2 prop xs t := by
  refine ⟨hpre, ?_, ?_, ?_, ?_, ?_, fun call' e hl => ?_⟩
  · simp [hlast]
  · simp [hlast]
  · simp [hlast]
  · simp [hlast]
  · simp [hlast]
  · rw [hlast] at hl
    obtain ⟨rfl, rfl⟩ : call = call' ∧ Error.corruptData = e := by simpa using hl
    exact ⟨rfl, h⟩

theorem Pos.dueWith_append (pos : Pos) (ys zs : List UInt8) :
    pos.dueWith ys ≤ pos.dueWith (ys ++ zs) := by
  cases pos with
  | stored r n => exact le_rfl
  | packed prop base c target pack => exact le_rfl
  | chunk r =>
      rcases ys with _ | ⟨b, ys⟩
      · rcases zs with _ | ⟨b, zs⟩
        · exact le_rfl
        · simp only [List.nil_append, Pos.dueWith]
          split <;> omega
      · exact le_rfl

/-- One call from where a session stands. -/
theorem Stands2.call (hst : Stands2 prop xs t.rest t.out t.d)
    (hsize : t.d.decoder.prop.dictSize ≤ t.d.decoder.dicBufSize) (call : Call) :
    ∃ t', t.call call = .ok t' ∧ Agrees2 prop xs t' ∧
      t'.d.decoder.prop.dictSize = t.d.decoder.prop.dictSize ∧
      t'.d.decoder.dicBufSize = t.d.decoder.dicBufSize ∧
      (t'.failed = false → Stands2 prop xs t'.rest t'.out t'.d) := by
  obtain ⟨pos, held, hm, hat, hx⟩ := hst.here
  have hp := Moves2.ok hm (Pos.start_ok prop)
  obtain ⟨input, hinput⟩ : ∃ input, input = t.rest.take call.inLen := ⟨_, rfl⟩
  have hrest : ∀ {n}, n ≤ input.length →
      input.drop n ++ t.rest.drop call.inLen = t.rest.drop n := by
    rw [hinput]
    exact drop_take_append
  unfold Trace2.call Lzma2Decoder.decode
  rw [← hinput]
  obtain ⟨r, hr, hend, hd, hb⟩ := decodeBuf2_end call.finish [] hat hx hp hsize
    (Nat.zero_le input.length) (Nat.lt_succ_self call.outLen)
  rw [hr, ok_bind]
  have hmoves : ∀ {pos' Y}, Moves2 pos (held ++ input.drop 0) pos' Y →
      Moves2 (Pos.start prop) xs pos' (Y ++ t.rest.drop call.inLen) := by
    intro pos' Y h
    have h' := Moves2.append h (t.rest.drop call.inLen)
    rw [List.append_assoc, hrest (Nat.zero_le _)] at h'
    exact hm.trans h'
  have hrev : ∀ new, (t.out ++ new).reverse = new.reverse ++ t.out.reverse := fun new =>
    List.reverse_append
  have hback : ∀ new : List UInt8, (new.reverse ++ t.out.reverse).reverse = t.out ++ new :=
    fun new => by rw [List.reverse_append, List.reverse_reverse, List.reverse_reverse]
  have hcounts : ∀ new : List UInt8, new.length ≤ call.outLen →
      (t.out ++ new).length + call.outLen = t.out.length + call.outLen + new.length ∧
        (t.out ++ new).length ≤ t.out.length + call.outLen := fun new hle => by
    rw [List.length_append]
    omega
  cases hend with
  | more new pos' held' ho hres hm' hat' hx' hout hs hlen =>
      rw [List.nil_append] at ho
      subst ho
      have hmv := hmoves hm'
      have hall := hrest le_rfl
      rw [List.drop_length, List.nil_append] at hall
      rw [hall] at hmv
      have heq : t.out ++ r.out = pos'.out.reverse := by rw [hout, hback]
      rw [hres]
      refine ⟨_, rfl, .of_ok rfl ?_ ⟨le_rfl, hcounts _ hlen⟩ (fun _ => ?_) (by simp) (.inl rfl),
        hd, hb, fun _ => ⟨pos', held', hmv, ?_, ?_⟩⟩
      · rw [heq]
        exact hmv.isPrefix List.suffix_rfl
      · obtain ⟨given, hgiven, hmg⟩ := hmv.given Pos.lawful
        refine ⟨rfl, given, hgiven, ?_⟩
        rw [Moves2.more hmg hs]
        exact ⟨rfl, heq⟩
      · rw [hrev]
        exact hat'
      · rw [hrev]
        exact hx'
  | full n new pos' held' ho hn hres hmode hm' hat' hx' hlen =>
      rw [List.nil_append] at ho
      subst ho
      have hmv := hmoves hm'
      rw [List.append_assoc, hrest hn] at hmv
      rw [hres]
      refine ⟨_, rfl, .of_ok rfl ?_ ⟨hn, hcounts _ hlen.le⟩ (by simp) (by simp)
        (.inr (.inr ⟨rfl, ?_⟩)), hd, hb, fun _ => ⟨pos', held', hmv, ?_, ?_⟩⟩
      · rw [← hback]
        exact hmv.isPrefix hat'.written
      · rw [List.length_append, hlen]
      · rw [hrev]
        exact hat'
      · rw [hrev]
        exact hx'
  | finished n new r' ho hn hres hm' hat' hout hlen =>
      rw [List.nil_append] at ho
      subst ho
      have hmv := hmoves hm'
      rw [List.cons_append, hrest hn] at hmv
      have hmark : (Pos.chunk r').step (0 :: t.rest.drop n) = .mark () (t.rest.drop n) := by
        simp only [Pos.step, chunkStep, if_true]
      have heq : t.out ++ r.out = (Pos.chunk r').out.reverse := by rw [hout, hback]
      rw [hres]
      refine ⟨_, rfl, .of_ok rfl ?_ ⟨hn, hcounts _ hlen⟩ (by simp) (fun _ => ?_)
        (.inr (.inl rfl)), hd, hb, fun _ => ⟨.chunk r', [0], hmv, ?_, exact_chunk⟩⟩
      · rw [heq]
        exact hmv.isPrefix List.suffix_rfl
      · rw [hmv.mark hmark]
        exact ⟨rfl, heq, rfl⟩
      · rw [hrev]
        exact hat'
  | corrupt new pos' ys ho hres hm' hdoom hsuf =>
      rw [List.nil_append] at ho
      subst ho
      have hmv := hmoves hm'
      rw [hres]
      refine ⟨_, rfl, .of_error rfl ?_ (.inl fun zs => ?_), hd, hb, by simp [Trace2.failed]⟩
      · rw [← hback]
        exact hmv.isPrefix hsuf
      · exact (hdoom.append _).never hmv zs
  | past new pos' ys ho hres hmode hm' hsuf hdue =>
      rw [List.nil_append] at ho
      subst ho
      have hmv := hmoves hm'
      rw [hres]
      refine ⟨_, rfl, .of_error rfl ?_ (.inr ⟨hmode, fun zs hv => ?_⟩), hd, hb,
        by simp [Trace2.failed]⟩
      · rw [← hback]
        exact hmv.isPrefix hsuf
      · have hle := (Moves2.append hmv zs).dueWith_le hv
        have h1 := Pos.dueWith_append pos' ys (t.rest.drop call.inLen)
        have h2 := Pos.dueWith_append pos' (ys ++ t.rest.drop call.inLen) zs
        rw [List.length_reverse] at hdue
        change t.out.length + call.outLen < _
        omega

theorem Stands2.session (calls : List Call) (hag : Agrees2 prop xs t)
    (hst : t.failed = false → Stands2 prop xs t.rest t.out t.d)
    (hsize : t.d.decoder.prop.dictSize ≤ t.d.decoder.dicBufSize) :
    ∃ t', t.session calls = .ok t' ∧ Agrees2 prop xs t' := by
  induction calls generalizing t with
  | nil => exact ⟨t, rfl, hag⟩
  | cons call calls ih =>
      rw [Trace2.session]
      by_cases hf : t.failed = true
      · rw [if_pos hf]
        exact ⟨t, rfl, hag⟩
      · rw [if_neg hf]
        obtain ⟨t', ht', hag', hd, hb, hst'⟩ := (hst (by simpa using hf)).call hsize call
        rw [ht', ok_bind]
        exact ih hag' hst' (by rw [hd, hb]; exact hsize)

theorem shape_alloc (prop : LzmaProps) {size : ℕ} (hs : size < 2 ^ 63) :
    (LzmaDec.alloc prop size).Shape :=
  ⟨Nat.zero_le _, by simp [LzmaDec.alloc, LzmaDec.init, LzmaDec.initDicAndState], hs,
    by simp [LzmaDec.alloc, LzmaDec.init, LzmaDec.initDicAndState], Array.size_replicate⟩

/-- With its dictionary empty a decoder waits for a chunk that resets it. -/
theorem idle_init {p : LzmaDec} (h : p.Shape)
    (hroom : lzmaPropsGetNumProbs lzma2LclpMax 0 ≤ p.probs.size) :
    Idle p.init ⟨p.prop, 0xE0, [], freshState []⟩ :=
  ⟨⟨Nat.zero_le _, h.size_le, h.size_lt, h.probs, h.tempBuf_size⟩,
    (LzmaDec.init_before h).toWindow, rfl, hroom, .inr (by decide : (0xC0 : ℕ) ≤ 0xE0)⟩

/-- A decoder that has been reset stands at the start of a stream. -/
theorem Lzma2Decoder.reset_at (d : Lzma2Decoder) (h : d.decoder.Shape)
    (hroom : lzmaPropsGetNumProbs lzma2LclpMax 0 ≤ d.decoder.probs.size) :
    d.reset.At2 (Pos.start d.decoder.prop) [] [] :=
  Lzma2Decoder.At2.header (d := d.reset) (idle_init h hroom)
    (fun hn => absurd hn (by decide : (0xE0 : ℕ) ≠ 0)) (.control rfl rfl rfl)

/-- As does one that was allocated; its dictionary has room. -/
theorem Lzma2Decoder.alloc_at (n : ℕ) (hn : n < 2 ^ 32) {d : Lzma2Decoder}
    (h : Lzma2Decoder.reset ⟨.new, .new (allocProps n hn)⟩ = d) :
    d.At2 (Pos.start d.decoder.prop) [] [] ∧ d.decoder.prop.dictSize ≤ d.decoder.dicBufSize ∧
      d.frame.state ≠ .finished := by
  subst h
  have hbuf : (allocProps n hn).dicBufSize < 2 ^ 63 :=
    lt_of_lt_of_le (allocProps n hn).dicBufSize_lt (by norm_num)
  refine ⟨Lzma2Decoder.reset_at ⟨.new, .new _⟩ (shape_alloc _ hbuf) ?_,
    (allocProps n hn).dictSize_le_dicBufSize, fun hs => by cases hs⟩
  simp [LzmaDec.new, LzmaDec.alloc, LzmaDec.init, LzmaDec.initDicAndState, allocProps]

theorem Lzma2Decoder.newCapped_at {dictProp cap : ℕ} {d : Lzma2Decoder}
    (h : Lzma2Decoder.newCapped dictProp cap = .ok d) :
    d.At2 (Pos.start d.decoder.prop) [] [] ∧ d.decoder.prop.dictSize ≤ d.decoder.dicBufSize ∧
      d.frame.state ≠ .finished := by
  unfold Lzma2Decoder.newCapped at h
  split at h
  · cases h
  · exact Lzma2Decoder.alloc_at _ _ (Except.ok.inj h)

/-- A new decoder, its properties and the room it has. -/
theorem Lzma2Decoder.new_at {dictProp : ℕ} (h : dictProp ≤ 40) :
    ∃ d, Lzma2Decoder.new dictProp = .ok d ∧
      d.decoder.prop = allocProps (dicSizeFromPropFull dictProp) (dicSizeFromPropFull_lt _) ∧
      d.At2 (Pos.start d.decoder.prop) [] [] ∧
      d.decoder.prop.dictSize ≤ d.decoder.dicBufSize := by
  obtain ⟨hat, hsize, -⟩ := Lzma2Decoder.alloc_at (dicSizeFromPropFull dictProp)
    (dicSizeFromPropFull_lt _) rfl
  exact ⟨_, if_neg (Nat.not_lt.2 h), rfl, hat, hsize⟩

/-- Calls on a decoder that stands at the start of the stream. -/
theorem Lzma2Decoder.At2.session {d : Lzma2Decoder} (hat : d.At2 (Pos.start prop) [] [])
    (hsize : d.decoder.prop.dictSize ≤ d.decoder.dicBufSize) (xs : List UInt8)
    (calls : List Call) : ∃ t, (Trace2.start d xs).session calls = .ok t ∧ Agrees2 prop xs t :=
  Stands2.session (t := Trace2.start d xs) calls
    ⟨List.nil_prefix, by simp [Trace2.start], by simp [Trace2.start], by simp [Trace2.start],
      by simp [Trace2.start], by simp [Trace2.start], by simp [Trace2.start]⟩
    (fun _ => ⟨Pos.start prop, [], .refl _ _, hat, exact_chunk⟩) hsize

/-- However a stream of chunks is cut into slices and its output into pieces, a new decoder
writes what the grammar writes, and stops where it stops. -/
theorem session2_agrees (dictProp : ℕ) (h : dictProp ≤ 40) (xs : List UInt8)
    (calls : List Call) : ∃ d t, Lzma2Decoder.new dictProp = .ok d ∧
      (Trace2.start d xs).session calls = .ok t ∧ Agrees2 d.decoder.prop xs t := by
  obtain ⟨d, hd, -, hat, hsize⟩ := Lzma2Decoder.new_at h
  obtain ⟨t, ht, hag⟩ := hat.session hsize xs calls
  exact ⟨d, t, hd, ht, hag⟩

/-- A stream of one stored byte, byte by byte, with nothing offered in between. -/
theorem session2_agrees_stored : ∃ d t, Lzma2Decoder.new 0 = .ok d ∧
    (Trace2.start d [1, 0, 0, 65, 0]).session [⟨1, 1, .any⟩, ⟨1, 1, .any⟩, ⟨0, 1, .any⟩,
      ⟨1, 1, .any⟩, ⟨1, 1, .any⟩, ⟨1, 0, .endMark⟩] = .ok t ∧
      Agrees2 d.decoder.prop [1, 0, 0, 65, 0] t :=
  session2_agrees 0 (by decide) _ _

/-- A session of one call. -/
theorem single_call {d : Lzma2Decoder} (hat : d.At2 (Pos.start prop) [] [])
    (hsize : d.decoder.prop.dictSize ≤ d.decoder.dicBufSize) (xs : List UInt8) (room : ℕ)
    (mode : FinishMode) : ∃ t r, (Trace2.start d xs).session [⟨xs.length, room, mode⟩] = .ok t ∧
      t.last = some (⟨xs.length, room, mode⟩, r.res) ∧
      Buf2End (Pos.start prop) [] xs xs room mode [] r := by
  obtain ⟨r, hr, hend, -⟩ := decodeBuf2_end mode [] hat exact_chunk (Pos.start_ok prop) hsize
    (Nat.zero_le xs.length) (Nat.lt_succ_self room)
  have hdecode : d.decode (xs.take xs.length) room mode = .ok r := by
    rw [List.take_length]
    exact hr
  have hcall : (Trace2.start d xs).call ⟨xs.length, room, mode⟩ = d.decode (xs.take xs.length)
      room mode >>= _ := rfl
  rw [Trace2.session, if_neg (by simp [Trace2.failed, Trace2.start]), hcall, hdecode, ok_bind]
  exact ⟨_, r, rfl, rfl, hend⟩

/-- The properties of the smallest dictionary. -/
def smallProps : LzmaProps := allocProps (dicSizeFromPropFull 0) (dicSizeFromPropFull_lt _)

def storedStream : List UInt8 := [1, 0, 0, 65, 0]

theorem storedStream_format : format2 smallProps storedStream = ⟨[65], [], .mark⟩ := by
  rw [format2, Pos.lawful.run_of_loop (Pos.start_ok smallProps) (n := 3) (by decide +kernel)]
  decide +kernel

/-- One literal in six packed bytes, the last of which leaves a range code of five. -/
def oddStream : List UInt8 := [0xE0, 0, 0, 0, 5, 0, 0, 0, 0, 0, 0, 5, 0]

theorem oddStream_format : format2 smallProps oddStream = ⟨[0], [0], .reject⟩ := by
  rw [format2, Pos.lawful.run_of_loop (Pos.start_ok smallProps) (n := 4) (by decide +kernel)]
  decide +kernel

/-- The properties of its chunk. -/
def oddProps : LzmaProps := smallProps.setLclppb 0 0 0 zero_le_eight zero_le_four zero_le_four

theorem new_small : ∃ d, Lzma2Decoder.new 0 = .ok d ∧ d.decoder.prop = smallProps ∧
    d.At2 (Pos.start smallProps) [] [] ∧ d.decoder.prop.dictSize ≤ d.decoder.dicBufSize := by
  obtain ⟨d, hd, hprop, hat, hsize⟩ := Lzma2Decoder.new_at (show 0 ≤ 40 by decide)
  rw [hprop] at hat
  exact ⟨d, hd, hprop, hat, hsize⟩

theorem storedStream_fails {r : Buf2Result}
    (h : Buf2End (Pos.start smallProps) [] storedStream storedStream 0 .endMark [] r) :
    r.res = .error .corruptData := by
  have href := storedStream_format
  cases h with
  | more new pos' held ho hres hm hat hx hout hs hlen =>
      cases congrArg Result2.verdict (href.symm.trans (Moves2.more hm hs))
  | full n new pos' held ho hn hres hmode => cases hmode
  | finished n new r' ho hn hres hm hat hout hlen =>
      have hmark : (Pos.chunk r').step (0 :: storedStream.drop n) =
          .mark () (storedStream.drop n) := by
        simp only [Pos.step, chunkStep, if_true]
      have hsame := congrArg Result2.out (href.symm.trans (Moves2.mark hm hmark))
      rw [hout, List.eq_nil_of_length_eq_zero (Nat.le_zero.mp hlen)] at hsame
      cases hsame
  | corrupt new pos' ys ho hres => exact hres
  | past new pos' ys ho hres => exact hres

theorem oddStream_fails {r : Buf2Result}
    (h : Buf2End (Pos.start smallProps) [] oddStream oddStream 10 .any [] r) :
    r.res = .error .corruptData := by
  have href := oddStream_format
  cases h with
  | more new pos' held ho hres hm hat hx hout hs hlen =>
      cases congrArg Result2.verdict (href.symm.trans (Moves2.more hm hs))
  | full n new pos' held ho hn hres hmode hm hat hx hlen =>
      have hle := (Moves2.isPrefix hm hat.written).length_le
      rw [href, List.append_nil, List.reverse_reverse, hlen] at hle
      exact absurd hle (by decide)
  | finished n new r' ho hn hres hm hat hout hlen =>
      have hmark : (Pos.chunk r').step (0 :: oddStream.drop n) = .mark () (oddStream.drop n) := by
        simp only [Pos.step, chunkStep, if_true]
      cases congrArg Result2.verdict (href.symm.trans (Moves2.mark hm hmark))
  | corrupt new pos' ys ho hres => exact hres
  | past new pos' ys ho hres => exact hres

/-- A call that insists on the end of the stream fails when its room ends before, and a
packed chunk that yields its bytes from all of its input fails on a range code left over. -/
theorem decode_rejects :
    (∃ d t, Lzma2Decoder.new 0 = .ok d ∧
      (Trace2.start d storedStream).session [⟨5, 0, .endMark⟩] = .ok t ∧ t.failed = true ∧
      (format2 d.decoder.prop storedStream).verdict = .mark) ∧
    ∃ d t, Lzma2Decoder.new 0 = .ok d ∧
      (Trace2.start d oddStream).session [⟨13, 10, .any⟩] = .ok t ∧ t.failed = true ∧
      reference oddProps [0, 0, 0, 0, 0, 5] = ⟨[0], [], .more⟩ := by
  obtain ⟨d, hd, hprop, hat, hsize⟩ := new_small
  constructor
  · obtain ⟨t, r, ht, hlast, hend⟩ := single_call hat hsize storedStream 0 .endMark
    rw [storedStream_fails hend] at hlast
    exact ⟨d, t, hd, ht, by rw [Trace2.failed, hlast], by rw [hprop, storedStream_format]⟩
  · obtain ⟨t, r, ht, hlast, hend⟩ := single_call hat hsize oddStream 10 .any
    rw [oddStream_fails hend] at hlast
    exact ⟨d, t, hd, ht, by rw [Trace2.failed, hlast], by decide +kernel⟩

end
end LzmaTurbo.Lzma2
