import LzmaTurbo.Enc.PipeLaws

/-!
# Sleeping

The caller goes to sleep with the gate in hand, after it has found the input full and
the output empty. From then on either of the two is as it was, or the side that changed
it has still to take the gate and call.
-/
namespace LzmaTurbo.Enc
namespace Pipe
variable {s s' : Pipe}

/-- What is behind a caller that has found the input full, or sleeps. -/
structure Sleep (s : Pipe) : Prop where
  room : s.writer.view.needsRoom = true →
    inputDepth ≤ s.input.length ∨ s.source.notifies = true ∨ s.thread.isGone = true
  quiet : s.writer.view.sleeps = true → s.output = [] ∨ s.sink.notifies = true
  gone : s.thread.sourceOpen = false → s.input = []
  closed : s.writer.view.closed = true → s.inputOpen = false

theorem start_sleep : Sleep start := by
  constructor <;> simp [start, Writer.view, Thread.sourceOpen]

theorem gateHeld_eq (s : Pipe) : s.gateHeld = s.writer.view.locks := by
  unfold gateHeld
  cases s.writer with
  | append got back => cases back <;> rfl
  | _ => rfl

/-- A caller that has not found the input full waits for no call. -/
theorem Sleep.awake (hneeds : s'.writer.view.needsRoom = false)
    (hsleeps : s'.writer.view.sleeps = false)
    (hgone : s'.thread.sourceOpen = false → s'.input = [])
    (hclosed : s'.writer.view.closed = true → s'.inputOpen = false) : Sleep s' :=
  ⟨by simp [hneeds], by simp [hsleeps], hgone, hclosed⟩

theorem Sleep.resume (h : Sleep s) (after : After) : Sleep (s.resume after) := by
  cases after with
  | owned data =>
      unfold Pipe.resume
      dsimp only
      split <;> exact .awake rfl rfl h.gone (by simp [Writer.view])
  | _ => exact .awake rfl rfl h.gone (by simp [Pipe.resume, Writer.view])

theorem Sleep.sendFill (h : Sleep s) (after : After) : Sleep (s.sendFill after) := by
  unfold Pipe.sendFill
  split
  · exact h.resume after
  · exact .awake rfl rfl h.gone (by simp [Writer.view])

theorem Sleep.fail (h : Sleep s) (after : After) (e : PipeError) : Sleep (s.fail after e) := by
  unfold Pipe.fail
  split
  · exact .awake rfl rfl h.gone fun _ => rfl
  · exact .awake rfl rfl h.gone (by simp [Writer.view])

theorem go_sleep (h : Sleep s) (hgo : s.go = some s') : Sleep s' := by
  have hgone := h.gone
  cases hw : s.writer with
  | idle result => simp [go, hw] at hgo
  | closed result => simp [go, hw] at hgo
  | asleep chunk after => simp [go, hw] at hgo
  | loop rest =>
      simp only [go, hw] at hgo
      split at hgo
      · cases hgo
        exact .awake rfl rfl hgone (by simp [Writer.view])
      · split at hgo <;> cases hgo <;> exact .awake rfl rfl hgone (by simp [Writer.view])
  | lock chunk after | woken chunk after =>
      simp only [go, hw, Option.some.injEq] at hgo
      subst hgo
      exact .awake rfl rfl hgone (by simp [Writer.view])
  | trySend chunk after =>
      simp only [go, hw] at hgo
      split at hgo
      · cases hgo
        exact .awake rfl rfl hgone (by simp [stop, Writer.view])
      split at hgo
      · cases hgo
        exact .awake rfl rfl hgone (by simp [stop, Writer.view])
      split at hgo <;> cases hgo
      · exact .awake rfl rfl (fun hs => absurd hs ‹_›) (by simp [Writer.view])
      · -- the input is looked at with the gate in hand
        rename_i hfull
        exact ⟨fun _ => .inl (by simpa using hfull), by simp [Writer.view], hgone,
          by simp [Writer.view]⟩
  | tryRecv chunk after =>
      have hroom := h.room (by rw [hw]; rfl)
      simp only [go, hw] at hgo
      split at hgo
      · cases hgo
        exact .awake rfl rfl hgone (by simp [Writer.view, Back.view])
      · split at hgo <;> cases hgo
        · exact ⟨fun _ => hroom, fun _ => .inl ‹_›, hgone, by simp [Writer.view]⟩
        · exact .awake rfl rfl hgone (by simp [stop, Writer.view])
  | append got back =>
      simp only [go, hw] at hgo
      cases back <;> cases hgo <;> exact .awake rfl rfl hgone (by simp [Writer.view])
  | drain after =>
      simp only [go, hw] at hgo
      split at hgo <;> cases hgo
      · exact .awake rfl rfl hgone (by simp [Writer.view, Back.view])
      · exact h.resume after
  | last =>
      simp only [go, hw] at hgo
      split at hgo
      · cases hgo
        exact .awake rfl rfl hgone (by simp [Writer.view, Back.view])
      · split at hgo <;> cases hgo
        exact .awake rfl rfl hgone (by simp [Writer.view])
  | stopping after =>
      simp only [go, hw] at hgo
      split at hgo
      · cases hgo
        exact h.fail _ _
      · split at hgo <;> cases hgo
        rw [← hw]
        have hjoined : Sleep { s with joined := true } := ⟨h.room, h.quiet, h.gone, h.closed⟩
        exact hjoined.fail _ _
  | joining =>
      simp only [go, hw] at hgo
      split at hgo <;> cases hgo
      exact .awake rfl rfl hgone fun _ => rfl

theorem refuse_sleep (h : Sleep s) (hgo : s.refuse = some s') : Sleep s' := by
  obtain ⟨rest, -, -, rfl⟩ | ⟨e, -, ⟨-, rfl⟩ | rfl⟩ := refuse_cases hgo
  · exact .awake rfl rfl h.gone (by simp [Writer.view])
  · exact .awake rfl rfl h.gone (by simp [Writer.view])
  · exact .awake rfl rfl h.gone fun _ => rfl

theorem call_sleep (h : Sleep s) {c : Call} (hgo : s.call c = some s') : Sleep s' := by
  unfold call at hgo
  split at hgo
  case h_2 => cases hgo
  case h_1 =>
    cases c with
    | write data =>
        cases hgo
        exact .awake rfl rfl h.gone (by simp [Writer.view])
    | writeOwned data =>
        cases hgo
        have haccepted : Sleep { s with accepted := s.accepted ++ data } :=
          ⟨h.room, h.quiet, h.gone, h.closed⟩
        exact haccepted.sendFill _
    | finish =>
        cases hgo
        exact h.sendFill _

theorem readCall_sleep (h : Sleep s) {n : ℕ} (hgo : s.readCall n = some s') : Sleep s' := by
  obtain rfl | ⟨hthread, hsource, -, ⟨k, rfl⟩ | ⟨-, rfl⟩⟩ := readCall_cases hgo
  · exact h
  all_goals
    obtain ⟨h1, h2, h3, h4⟩ := h
    constructor <;> grind -ring -linarith -order

theorem sourceGo_sleep (h : Sleep s) (hgo : s.sourceGo = some s') : Sleep s' := by
  obtain ⟨h1, h2, h3, h4⟩ := h
  obtain ⟨n, hsource, ⟨chunk, rest, hinput, rfl⟩ | ⟨hinput, hopen, rfl⟩⟩ |
    ⟨n, received, hsource, hgate, ⟨-, rfl⟩ | ⟨-, rfl⟩ | ⟨chunk, k, -, -, rfl⟩⟩ := sourceGo_cases hgo
  -- the input has room: the gate is still to be taken
  · constructor <;> grind -ring -linarith -order
  · constructor <;> grind -ring -linarith -order
  all_goals
    rw [gateHeld_eq] at hgate
    constructor <;> grind -ring -linarith -order

theorem put_sleep (h : Sleep s) {data : List UInt8} (hgo : s.put data = some s') : Sleep s' := by
  obtain ⟨h1, h2, h3, h4⟩ := h
  obtain ⟨hthread, ok, hsink, rfl | rfl⟩ := put_cases hgo
  all_goals constructor <;> grind -ring -linarith -order

theorem sinkGo_sleep (h : Sleep s) (hgo : s.sinkGo = some s') : Sleep s' := by
  obtain ⟨h1, h2, h3, h4⟩ := h
  obtain ⟨full, hsink, ⟨hopen, rfl⟩ | ⟨hopen, rfl⟩⟩ | ⟨hsink, hgate, rfl⟩ := sinkGo_cases hgo
  · constructor <;> grind -ring -linarith -order
  · constructor <;> grind -ring -linarith -order
  · rw [gateHeld_eq] at hgate
    constructor <;> grind -ring -linarith -order

theorem encoderEnds_sleep (h : Sleep s) {r : ThreadEnd} (hgo : s.encoderEnds r = some s') :
    Sleep s' := by
  obtain ⟨h1, h2, h3, h4⟩ := h
  obtain ⟨hthread, hsource, ok, hsink, ⟨-, -, rfl⟩ | ⟨-, rfl⟩ | ⟨-, rfl⟩⟩ := encoderEnds_cases hgo
  all_goals constructor <;> grind -ring -linarith -order

theorem threadGo_sleep (h : Sleep s) (hgo : s.threadGo = some s') : Sleep s' := by
  obtain ⟨h1, h2, h3, h4⟩ := h
  obtain ⟨ok, r, hthread, hsink, rfl⟩ | ⟨r, hthread, rfl⟩ | ⟨r, hthread, rfl⟩ |
    ⟨r, hthread, hgate, rfl⟩ := threadGo_cases hgo
  · constructor <;> grind -ring -linarith -order
  · constructor <;> grind -ring -linarith -order
  · constructor <;> grind -ring -linarith -order
  · rw [gateHeld_eq] at hgate
    constructor <;> grind -ring -linarith -order

theorem drop_sleep (h : Sleep s) (hgo : s.drop = some s') : Sleep s' := by
  obtain ⟨-, rfl⟩ := drop_cases hgo
  exact .awake rfl rfl h.gone fun _ => rfl

theorem wake_sleep (h : Sleep s) (hgo : s.wake = some s') : Sleep s' := by
  obtain ⟨h1, h2, h3, h4⟩ := h
  obtain rfl := wake_cases hgo
  constructor <;> grind -ring -linarith -order

theorem step_sleep (h : Sleep s) {a : Act} (hgo : s.step a = some s') : Sleep s' := by
  cases a with
  | call c => exact call_sleep h hgo
  | drop => exact drop_sleep h hgo
  | go => exact go_sleep h hgo
  | refuse => exact refuse_sleep h hgo
  | wake => exact wake_sleep h hgo
  | read n => exact readCall_sleep h hgo
  | sourceGo => exact sourceGo_sleep h hgo
  | put data => exact put_sleep h hgo
  | sinkGo => exact sinkGo_sleep h hgo
  | encoderEnds r => exact encoderEnds_sleep h hgo
  | threadGo => exact threadGo_sleep h hgo

/-- The caller is inside a call and cannot go on. -/
def callerWaits (s : Pipe) : Prop :=
  s.writer.view.idle = false ∧ s.writer.view.closed = false ∧ s.go = none

/-- A hand of the thread is inside the pipe and cannot go on, or its closure cannot. -/
def threadWaits (s : Pipe) : Prop :=
  (s.source.isIdle = false ∧ s.sourceGo = none) ∨ (s.sink.isIdle = false ∧ s.sinkGo = none) ∨
    (s.thread.writes = false ∧ s.threadGo = none)

theorem sourceGo_waits (hidle : s.source.isIdle = false) (hgo : s.sourceGo = none) :
    s.gateHeld = true ∨ s.source.notifies = false ∧ s.input = [] ∧ s.inputOpen = true := by
  unfold sourceGo at hgo
  cases hsource : s.source <;> simp only [hsource] at hgo hidle ⊢ <;> grind -ring -linarith -order

theorem sinkGo_waits (hidle : s.sink.isIdle = false) (hgo : s.sinkGo = none) :
    s.gateHeld = true ∨ s.sink.notifies = false ∧ s.output ≠ [] ∧ s.outputOpen = true := by
  have hdepth : 0 < outputDepth := by decide
  unfold sinkGo at hgo
  cases hsink : s.sink <;> simp only [hsink] at hgo hidle ⊢ <;> grind -ring -linarith -order

theorem threadGo_waits (hwrites : s.thread.writes = false) (hgo : s.threadGo = none) :
    s.gateHeld = true ∨ s.thread.isEnded = true := by
  unfold threadGo at hgo
  cases hthread : s.thread <;> simp only [hthread] at hgo hwrites ⊢ <;> grind -ring -linarith -order

/-- A caller that waits has let the gate go, and sleeps, or waits for the last output, or
for a thread that has not ended. -/
theorem callerWaits_cases (h : s.callerWaits) : s.gateHeld = false ∧
    (s.writer.view.sleeps = true ∨
      s.writer.view.leaves = true ∧ s.output = [] ∧ s.thread.sinkOpen = true ∨
      (s.writer.view.stops = true ∨ s.writer.view.joins = true) ∧ s.thread.isEnded = false) := by
  obtain ⟨hidle, hclosed, hgo⟩ := h
  rw [gateHeld_eq]
  unfold go at hgo
  cases hw : s.writer with
  | append got back =>
      cases back <;> simp [hw] at hgo
  | stopping after =>
      simp only [hw] at hgo
      have hended : s.thread.isEnded = false := by
        cases hthread : s.thread <;> grind -ring -linarith -order
      simp [Writer.view, hended]
  | joining =>
      simp only [hw] at hgo
      have hended : s.thread.isEnded = false := by
        cases hthread : s.thread <;> grind -ring -linarith -order
      simp [Writer.view, hended]
  | _ =>
      simp only [hw] at hgo hidle hclosed ⊢
      grind -ring -linarith -order

theorem needsRoom_of_sleeps (w : Writer) (h : w.view.sleeps = true) : w.view.needsRoom = true := by
  cases w with
  | append got back => cases back <;> simp [Writer.view, Back.view] at h
  | asleep chunk after => rfl
  | _ => simp [Writer.view] at h

/-- What the thread cannot be doing while the caller sleeps for it. -/
theorem thread_of_sleep (hs : Shape s) (h : Sleep s) (hsleeps : s.writer.view.sleeps = true) :
    (s.source.isIdle = true ∨ s.source.notifies = true ∨ s.input ≠ []) ∧
      (s.output = [] ∨ s.sink.notifies = true) ∧ s.thread.isEnded = false := by
  have hdepth : 0 < inputDepth := by decide
  have hroom := h.room (needsRoom_of_sleeps _ hsleeps)
  have hgone := h.gone
  have hsource := hs.sourceIdle
  refine ⟨?_, h.quiet hsleeps, ?_⟩
  · rcases hroom with hfull | hnotifies | hthread
    · exact .inr (.inr fun he => by simp [he] at hfull; omega)
    · exact .inr (.inl hnotifies)
    · refine .inl (hsource ?_)
      cases ht : s.thread <;> simp_all [Thread.isGone, Thread.encodes]
  · cases ht : s.thread with
    | ended r =>
        have hinput : s.input = [] := hgone (by rw [ht]; rfl)
        have hidle : s.source.isIdle = true := hsource (by rw [ht]; rfl)
        rcases hroom with hfull | hnotifies | hthread
        · simp [hinput] at hfull
          omega
        · cases hsrc : s.source <;> simp_all [Source.isIdle, Source.notifies]
        · simp [ht, Thread.isGone] at hthread
    | _ => rfl

/-- The two sides never wait for each other. -/
theorem not_both_wait (hs : Shape s) (h : Sleep s) : ¬ (s.callerWaits ∧ s.threadWaits) := by
  rintro ⟨hcaller, hthread⟩
  obtain ⟨hgate, hcaller⟩ := callerWaits_cases hcaller
  have hgate : ¬ s.gateHeld = true := by simp [hgate]
  have hwait : (s.source.isIdle = false ∧ s.source.notifies = false ∧ s.input = [] ∧
      s.inputOpen = true) ∨ (s.sink.isIdle = false ∧ s.sink.notifies = false ∧ s.output ≠ []) ∨
      s.thread.isEnded = true := by
    rcases hthread with ⟨hi, hg⟩ | ⟨hi, hg⟩ | ⟨hi, hg⟩
    · exact .inl ⟨hi, (sourceGo_waits hi hg).resolve_left hgate⟩
    · have hsink := (sinkGo_waits hi hg).resolve_left hgate
      exact .inr (.inl ⟨hi, hsink.1, hsink.2.1⟩)
    · exact .inr (.inr ((threadGo_waits hi hg).resolve_left hgate))
  rcases hcaller with hsleeps | ⟨hleaves, houtput, hopen⟩ | ⟨hstops, hended⟩
  · have := thread_of_sleep hs h hsleeps
    grind -ring -linarith -order
  · have hinput := (hs.leaves hleaves).1
    have hended : s.thread.isEnded = false := by
      cases ht : s.thread <;> simp_all [Thread.sinkOpen, Thread.isEnded]
    grind -ring -linarith -order
  · -- the thread is past its last write, and neither hand is in the pipe
    have hopen : s.thread.sinkOpen = false := by
      rcases hstops with hstops | hjoins
      · exact hs.stops hstops
      · exact (hs.joins hjoins).1
    have hwrites := s.thread.writes_of_sinkOpen hopen
    have hsink := hs.sinkIdle hwrites
    have hsource : s.source.isIdle = true := by
      apply hs.sourceIdle
      cases ht : s.thread <;> simp_all [Thread.writes, Thread.encodes]
    grind -ring -linarith -order

/-- When the caller has let the pipe go, the thread waits for nothing. -/
theorem closed_releases (hs : Shape s) (h : Sleep s) (hclosed : s.writer.view.closed = true)
    (hthread : s.threadWaits) : s.thread.isEnded = true := by
  have houtput := hs.outputClosed.mpr hclosed
  have hgate : ¬ s.gateHeld = true := by
    rw [gateHeld_eq]
    cases hw : s.writer with
    | append got back => cases back <;> simp [Writer.view, Back.view]
    | _ => simp_all [Writer.view]
  rcases hthread with ⟨hi, hg⟩ | ⟨hi, hg⟩ | ⟨hi, hg⟩
  · have := ((sourceGo_waits hi hg).resolve_left hgate).2.2
    simp [h.closed hclosed] at this
  · have := ((sinkGo_waits hi hg).resolve_left hgate).2.2
    simp [houtput] at this
  · exact (threadGo_waits hi hg).resolve_left hgate

end Pipe
end LzmaTurbo.Enc
