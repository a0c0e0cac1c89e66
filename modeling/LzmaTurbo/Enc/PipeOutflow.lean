import LzmaTurbo.Enc.PipeFlow

/-!
# The way back

What the caller's output has taken, what the caller has in hand, what is on its way and
what the thread has not yet sent are in this order the bytes that the encoder wrote.
-/
namespace LzmaTurbo.Enc
namespace Pipe
variable {s s' : Pipe}

/-- Where the encoder's bytes are. -/
structure Outflow (s : Pipe) : Prop where
  delivered : s.delivered <+: s.written
  kept : s.failed = false → s.writer.view.closed = false → s.out = s.written
  produced : s.produced = s.delivered.length
  buf : s.thread.encodes = false → s.thread.writes = true ∨ s.thread.result = some .ok → s.buf = []
  closed : ∀ n, s.writer = .closed (some (.ok n)) →
    s.delivered = s.written ∧ n = s.delivered.length ∧ s.thread.isEnded = true

theorem start_outflow : Outflow start := by
  constructor <;> simp [start, out, Writer.view, Sink.held]

/-- A step that neither writes nor delivers. -/
theorem Outflow.frame (h : Outflow s) (hwritten : s'.written = s.written)
    (hdelivered : s'.delivered = s.delivered) (hproduced : s'.produced = s.produced)
    (hbuf : s'.thread.encodes = false → s'.thread.writes = true ∨ s'.thread.result = some .ok →
      s'.buf = [])
    (hkept : s'.failed = false → s'.writer.view.closed = false →
      s.failed = false ∧ s.writer.view.closed = false ∧ s'.out = s.out)
    (hclosed : ∀ n, s'.writer = .closed (some (.ok n)) → s.writer = .closed (some (.ok n)) ∧
      (s.thread.isEnded = true → s'.thread.isEnded = true)) : Outflow s' := by
  obtain ⟨h1, h2, h3, -, h5⟩ := h
  constructor
  case delivered => rw [hdelivered, hwritten]; exact h1
  case kept =>
    intro hf hc
    obtain ⟨hf', hc', ho⟩ := hkept hf hc
    rw [ho, hwritten]
    exact h2 hf' hc'
  case produced => rw [hproduced, hdelivered]; exact h3
  case buf => exact hbuf
  case closed =>
    intro n hn
    obtain ⟨hw, ht⟩ := hclosed n hn
    obtain ⟨ha, hb, he⟩ := h5 n hw
    rw [hdelivered, hwritten]
    exact ⟨ha, hb, ht he⟩

theorem Outflow.resume (h : Outflow s) (after : After) (hgot : s.writer.view.got = [])
    (hclosed : s.writer.view.closed = false) : Outflow (s.resume after) := by
  have hbuf := h.buf
  unfold Pipe.resume
  split
  case h_2 =>
    split <;>
      exact h.frame rfl rfl rfl hbuf (by grind -ring -linarith -order [out])
        (by grind -ring -linarith -order)
  all_goals
    exact h.frame rfl rfl rfl hbuf (by grind -ring -linarith -order [out])
      (by grind -ring -linarith -order)

theorem Outflow.sendFill (h : Outflow s) (after : After) (hgot : s.writer.view.got = [])
    (hclosed : s.writer.view.closed = false) : Outflow (s.sendFill after) := by
  have hbuf := h.buf
  unfold Pipe.sendFill
  split
  · exact h.resume after hgot hclosed
  · exact h.frame rfl rfl rfl hbuf (by grind -ring -linarith -order [out])
      (by grind -ring -linarith -order)

theorem go_outflow (hs : Shape s) (h : Outflow s) (hgo : s.go = some s') : Outflow s' := by
  have hbuf := h.buf
  unfold go at hgo
  cases hw : s.writer with
  | idle result => simp [hw] at hgo
  | closed result => simp [hw] at hgo
  | loop rest =>
      simp only [hw] at hgo
      split at hgo
      · cases hgo
        exact h.frame rfl rfl rfl hbuf (by grind -ring -linarith -order [out])
          (by grind -ring -linarith -order)
      · split at hgo <;> cases hgo <;>
          exact h.frame rfl rfl rfl hbuf (by grind -ring -linarith -order [out])
            (by grind -ring -linarith -order)
  | lock chunk after =>
      simp only [hw, Option.some.injEq] at hgo
      subst hgo
      exact h.frame rfl rfl rfl hbuf (by grind -ring -linarith -order [out])
        (by grind -ring -linarith -order)
  | trySend chunk after =>
      simp only [hw] at hgo
      split at hgo
      · cases hgo
        exact h.frame rfl rfl rfl hbuf (by grind -ring -linarith -order [out, stop])
          (by grind -ring -linarith -order [stop])
      split at hgo
      · cases hgo
        exact h.frame rfl rfl rfl hbuf (by grind -ring -linarith -order [out, stop])
          (by grind -ring -linarith -order [stop])
      split at hgo <;> cases hgo <;>
        exact h.frame rfl rfl rfl hbuf (by grind -ring -linarith -order [out])
          (by grind -ring -linarith -order)
  | tryRecv chunk after =>
      simp only [hw] at hgo
      split at hgo
      · cases hgo
        exact h.frame rfl rfl rfl hbuf (by simp_all [out, Writer.view, Back.view])
          (by grind -ring -linarith -order)
      · split at hgo <;> cases hgo
        · exact h.frame rfl rfl rfl hbuf (by grind -ring -linarith -order [out])
            (by grind -ring -linarith -order)
        · exact h.frame rfl rfl rfl hbuf (by grind -ring -linarith -order [out, stop])
            (by grind -ring -linarith -order [stop])
  | asleep chunk after => simp [hw] at hgo
  | woken chunk after =>
      simp only [hw, Option.some.injEq] at hgo
      subst hgo
      exact h.frame rfl rfl rfl hbuf (by grind -ring -linarith -order [out])
        (by grind -ring -linarith -order)
  | append got back =>
      -- the caller's output takes what was in hand
      have hopen : s.failed = false ∧ s.writer.view.closed = false := by
        have hfailed := hs.failed
        cases back <;> simp_all [Writer.view, Back.view]
      have hout : s.delivered ++ got ++ s.output.flatten ++ s.sink.held ++ s.buf = s.written := by
        have := h.kept hopen.1 hopen.2
        cases back <;> simpa [out, hw, Writer.view, Back.view] using this
      have hstart : s.delivered ++ got <+: s.written :=
        ⟨s.output.flatten ++ s.sink.held ++ s.buf, by simpa using hout⟩
      have hproduced := h.produced
      simp only [hw] at hgo
      cases back <;> cases hgo <;>
        exact ⟨hstart, fun _ _ => by simpa [out, Writer.view] using hout, by simp [hproduced],
          hbuf, by simp⟩
  | drain after =>
      simp only [hw] at hgo
      split at hgo <;> cases hgo
      · exact h.frame rfl rfl rfl hbuf (by simp_all [out, Writer.view, Back.view])
          (by grind -ring -linarith -order)
      · exact h.resume after (by rw [hw]; rfl) (by rw [hw]; rfl)
  | last =>
      simp only [hw] at hgo
      split at hgo
      · cases hgo
        exact h.frame rfl rfl rfl hbuf (by simp_all [out, Writer.view, Back.view])
          (by grind -ring -linarith -order)
      · split at hgo <;> cases hgo
        exact h.frame rfl rfl rfl hbuf (by grind -ring -linarith -order [out])
          (by grind -ring -linarith -order)
  | stopping after =>
      simp only [hw] at hgo
      split at hgo
      · cases hgo
        unfold fail
        split
        · exact h.frame rfl rfl rfl hbuf (by grind -ring -linarith -order [out, close])
            (by grind -ring -linarith -order [close])
        · exact h.frame rfl rfl rfl hbuf (by grind -ring -linarith -order [out])
            (by grind -ring -linarith -order)
      · split at hgo <;> cases hgo
        unfold fail
        split
        · exact h.frame rfl rfl rfl hbuf (by grind -ring -linarith -order [out, close])
            (by grind -ring -linarith -order [close])
        · exact h.frame rfl rfl rfl hbuf (by grind -ring -linarith -order [out])
            (by grind -ring -linarith -order)
  | joining =>
      simp only [hw] at hgo
      split at hgo <;> cases hgo
      rename_i r hthread
      have hjoins := hs.joins (by rw [hw]; rfl)
      have hsink : s.sink.held = [] := by
        have hidle := hs.sinkIdle (by rw [hthread]; rfl)
        cases hsink : s.sink <;> simp_all [Sink.isIdle, Sink.held]
      have hfailed : s.failed = false := by
        by_contra hf
        have := hs.failed (by simpa using hf)
        simp [hw, Writer.view] at this
      have hout := h.kept hfailed (by rw [hw]; rfl)
      refine ⟨h.delivered, by simp [close, Writer.view], h.produced, hbuf, fun n hn => ?_⟩
      cases r with
      | ok =>
          have hempty := hbuf (by rw [hthread]; rfl) (.inr (by rw [hthread]; rfl))
          have hn : s.produced = n := by simpa [close, finishResult] using hn
          refine ⟨?_, hn ▸ h.produced, by simp [close, hthread, Thread.isEnded]⟩
          simpa [out, close, hw, Writer.view, hjoins.2, hsink, hempty] using hout
      | error e => simp [close, finishResult] at hn
      | panic => simp [close, finishResult] at hn

theorem refuse_outflow (h : Outflow s) (hgo : s.refuse = some s') : Outflow s' := by
  have hbuf := h.buf
  obtain ⟨rest, hw, -, rfl⟩ | ⟨e, hclosed, ⟨hending, rfl⟩ | rfl⟩ := refuse_cases hgo
  · exact h.frame rfl rfl rfl hbuf (by grind -ring -linarith -order [out])
      (by grind -ring -linarith -order)
  · exact h.frame rfl rfl rfl hbuf (by grind -ring -linarith -order)
      (by grind -ring -linarith -order)
  · exact h.frame rfl rfl rfl hbuf (by grind -ring -linarith -order [close])
      (by grind -ring -linarith -order [close])

theorem call_outflow (h : Outflow s) {c : Call} (hgo : s.call c = some s') : Outflow s' := by
  have hbuf := h.buf
  unfold call at hgo
  split at hgo
  case h_2 => cases hgo
  case h_1 _ _ hw =>
    have hgot : s.writer.view.got = [] := by rw [hw]; rfl
    have hclosed : s.writer.view.closed = false := by rw [hw]; rfl
    cases c with
    | write data =>
        cases hgo
        exact h.frame rfl rfl rfl hbuf (by grind -ring -linarith -order [out])
          (by grind -ring -linarith -order)
    | writeOwned data =>
        cases hgo
        have haccepted : Outflow { s with accepted := s.accepted ++ data } :=
          h.frame rfl rfl rfl hbuf (fun hf hc => ⟨hf, hc, rfl⟩) fun n hn => ⟨hn, id⟩
        exact haccepted.sendFill _ hgot hclosed
    | finish =>
        cases hgo
        exact h.sendFill _ hgot hclosed

theorem readCall_outflow (h : Outflow s) {n : ℕ} (hgo : s.readCall n = some s') : Outflow s' := by
  obtain rfl | ⟨-, -, -, ⟨k, rfl⟩ | ⟨-, rfl⟩⟩ := readCall_cases hgo
  · exact h
  all_goals exact h.frame rfl rfl rfl h.buf (fun hf hc => ⟨hf, hc, rfl⟩) fun n hn => ⟨hn, id⟩

/-- The thread is another place, or the caller woken. -/
theorem Outflow.woken (h : Outflow s) (hwritten : s'.written = s.written)
    (hdelivered : s'.delivered = s.delivered) (hproduced : s'.produced = s.produced)
    (hbuf : s'.thread.encodes = false → s'.thread.writes = true ∨ s'.thread.result = some .ok →
      s'.buf = [])
    (hfailed : s'.failed = s.failed) (houtput : s'.output = s.output)
    (hsink : s'.sink.held ++ s'.buf = s.sink.held ++ s.buf)
    (hwriter : s'.writer = s.writer ∨ s'.writer = s.writer.wake)
    (hended : s.thread.isEnded = true → s'.thread.isEnded = true) : Outflow s' := by
  have hview : s'.writer.view.got = s.writer.view.got ∧
      s'.writer.view.closed = s.writer.view.closed := by
    rcases hwriter with hw | hw <;> simp [hw, Writer.wake_view]
  refine h.frame hwritten hdelivered hproduced hbuf (fun hf hc => ?_) fun n hn => ⟨?_, hended⟩
  · refine ⟨hfailed ▸ hf, hview.2 ▸ hc, ?_⟩
    simp only [out, hdelivered, hview.1, houtput, List.append_assoc, hsink]
  · rcases hwriter with hw | hw
    · rw [← hw, hn]
    · rw [hw] at hn
      cases hs : s.writer <;> simp_all [Writer.wake]

theorem sourceGo_outflow (h : Outflow s) (hgo : s.sourceGo = some s') : Outflow s' := by
  obtain ⟨n, -, ⟨chunk, rest, -, rfl⟩ | ⟨-, -, rfl⟩⟩ |
    ⟨n, received, -, -, ⟨-, rfl⟩ | ⟨-, rfl⟩ | ⟨chunk, k, -, -, rfl⟩⟩ := sourceGo_cases hgo
  · exact h.woken rfl rfl rfl h.buf rfl rfl rfl (.inl rfl) id
  · exact h.woken rfl rfl rfl h.buf rfl rfl rfl (.inl rfl) id
  all_goals exact h.woken rfl rfl rfl h.buf rfl rfl rfl (.inr rfl) id

theorem put_outflow (h : Outflow s) {data : List UInt8} (hgo : s.put data = some s') :
    Outflow s' := by
  obtain ⟨hthread, ok, hsink, hput⟩ := put_cases hgo
  have hstart := h.delivered.trans (List.prefix_append s.written data)
  have hkept := h.kept
  have hclosed (n : ℕ) (hn : s.writer = .closed (some (.ok n))) : False := by
    have := (h.closed n hn).2.2
    simp [hthread, Thread.isEnded] at this
  have hencodes : ¬ s.thread.encodes = false := by simp [hthread, Thread.encodes]
  obtain rfl | rfl := hput
  · refine ⟨hstart, fun hf hc => ?_, h.produced, fun he => absurd he hencodes,
      fun n hn => (hclosed n hn).elim⟩
    simp [← hkept hf hc, out, hsink, Sink.held]
  · refine ⟨hstart, fun hf hc => ?_, h.produced, fun he => absurd he hencodes,
      fun n hn => (hclosed n hn).elim⟩
    simp [← hkept hf hc, out, hsink, Sink.held]

theorem sinkGo_outflow (hs : Shape s) (h : Outflow s) (hgo : s.sinkGo = some s') :
    Outflow s' := by
  obtain ⟨full, hsink, ⟨hclosed, rfl⟩ | ⟨-, rfl⟩⟩ | ⟨hsink, -, rfl⟩ := sinkGo_cases hgo
  · have hwriter := hs.outputClosed.mp hclosed
    refine h.frame rfl rfl rfl h.buf (fun _ hc => ?_) fun n hn => ⟨hn, id⟩
    simp [hwriter] at hc
  · refine h.frame rfl rfl rfl h.buf (fun hf hc => ⟨hf, hc, ?_⟩) fun n hn => ⟨hn, id⟩
    simp [out, hsink, Sink.held]
  · exact h.woken rfl rfl rfl h.buf rfl rfl (by simp [hsink, Sink.held]) (.inr rfl) id

theorem encoderEnds_outflow (h : Outflow s) {r : ThreadEnd} (hgo : s.encoderEnds r = some s') :
    Outflow s' := by
  obtain ⟨hthread, -, ok, hsink, hends⟩ := encoderEnds_cases hgo
  have hended : s.thread.isEnded = true → False := by simp [hthread, Thread.isEnded]
  obtain ⟨-, hbuf, rfl⟩ | ⟨-, rfl⟩ | ⟨hr, rfl⟩ := hends
  · exact h.woken rfl rfl rfl (fun _ _ => hbuf) rfl rfl rfl (.inl rfl) fun he => (hended he).elim
  · exact h.woken rfl rfl rfl (fun _ _ => rfl) rfl rfl (by simp [hsink, Sink.held]) (.inl rfl)
      fun he => (hended he).elim
  · refine h.woken rfl rfl rfl (fun _ he => ?_) rfl rfl rfl (.inl rfl) fun he => (hended he).elim
    exact absurd (by simpa [Thread.writes, Thread.result] using he) hr

theorem threadGo_outflow (h : Outflow s) (hgo : s.threadGo = some s') : Outflow s' := by
  have hbuf := h.buf
  obtain ⟨ok, r, hthread, -, rfl⟩ | ⟨r, hthread, rfl⟩ | ⟨r, hthread, rfl⟩ |
    ⟨r, hthread, -, rfl⟩ := threadGo_cases hgo
  · have hempty : s.buf = [] := hbuf (by rw [hthread]; rfl) (.inl (by rw [hthread]; rfl))
    exact h.woken rfl rfl rfl (fun _ _ => hempty) rfl rfl rfl (.inl rfl)
      (by simp [hthread, Thread.isEnded])
  all_goals
    simp only [hthread, Thread.encodes, Thread.writes, Thread.result, forall_const] at hbuf
  · exact h.woken rfl rfl rfl (fun _ => hbuf) rfl rfl rfl (.inl rfl)
      (by simp [hthread, Thread.isEnded])
  · exact h.woken rfl rfl rfl (fun _ => hbuf) rfl rfl rfl (.inl rfl)
      (by simp [hthread, Thread.isEnded])
  · exact h.woken rfl rfl rfl (fun _ => hbuf) rfl rfl rfl (.inr rfl)
      (by simp [hthread, Thread.isEnded])

theorem drop_outflow (h : Outflow s) (hgo : s.drop = some s') : Outflow s' := by
  obtain ⟨hidle, rfl⟩ := drop_cases hgo
  exact h.frame rfl rfl rfl h.buf (by grind -ring -linarith -order [close])
    (by grind -ring -linarith -order [close])

theorem wake_outflow (h : Outflow s) (hgo : s.wake = some s') : Outflow s' := by
  obtain rfl := wake_cases hgo
  exact h.woken rfl rfl rfl h.buf rfl rfl rfl (.inr rfl) id

theorem step_outflow (hs : Shape s) (h : Outflow s) {a : Act} (hgo : s.step a = some s') :
    Outflow s' := by
  cases a with
  | call c => exact call_outflow h hgo
  | drop => exact drop_outflow h hgo
  | go => exact go_outflow hs h hgo
  | refuse => exact refuse_outflow h hgo
  | wake => exact wake_outflow h hgo
  | read n => exact readCall_outflow h hgo
  | sourceGo => exact sourceGo_outflow h hgo
  | put data => exact put_outflow h hgo
  | sinkGo => exact sinkGo_outflow hs h hgo
  | encoderEnds r => exact encoderEnds_outflow h hgo
  | threadGo => exact threadGo_outflow h hgo

end Pipe
end LzmaTurbo.Enc
