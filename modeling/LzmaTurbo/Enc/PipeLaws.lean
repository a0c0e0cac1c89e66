import LzmaTurbo.Enc.Pipe
import Mathlib.Data.List.Infix

/-!
# What every step of the pipe keeps

The bytes on their way to the encoder and the bytes on their way back are laid out
in one line each, in the order in which they will arrive. A step of either side moves
a cut in one of the lines. What the two sides know of each other when one of them
sleeps is kept apart.
-/
namespace LzmaTurbo.Enc

def After.rest : After → List UInt8
  | .loop rest => rest
  | .owned data => data
  | .endInput => []
  | .lastOutput => []
  | .done => []

/-- The end of the input has been sent. -/
def After.isLast : After → Bool
  | .loop _ => false
  | .owned _ => false
  | .endInput => false
  | .lastOutput => true
  | .done => false

/-- What the caller has in hand and what it is about: `chunk` is to be sent, `rest` comes
after the chunk that is being filled, `got` is output; `needsRoom` is from finding the
input full, and `leaves` is for the last output. -/
structure View where
  sends : Bool := false
  drains : Bool := false
  leaves : Bool := false
  closed : Bool := false
  idle : Bool := false
  locks : Bool := false
  needsRoom : Bool := false
  sleeps : Bool := false
  stops : Bool := false
  joins : Bool := false
  after : After := .done
  chunk : List UInt8 := []
  rest : List UInt8 := []
  got : List UInt8 := []

def Back.view (got : List UInt8) : Back → View
  | .send chunk after => { sends := true, after, chunk, rest := after.rest, got }
  | .drain after => { drains := true, after, rest := after.rest, got }
  | .last => { leaves := true, got }

def Writer.view : Writer → View
  | .idle _ => { idle := true }
  | .loop rest => { rest }
  | .lock chunk after => { sends := true, after, chunk, rest := after.rest }
  | .trySend chunk after => { sends := true, locks := true, after, chunk, rest := after.rest }
  | .tryRecv chunk after =>
      { sends := true, locks := true, needsRoom := true, after, chunk, rest := after.rest }
  | .asleep chunk after =>
      { sends := true, needsRoom := true, sleeps := true, after, chunk, rest := after.rest }
  | .woken chunk after => { sends := true, after, chunk, rest := after.rest }
  | .append got back => back.view got
  | .drain after => { drains := true, after, rest := after.rest }
  | .last => { leaves := true }
  | .stopping _ => { stops := true }
  | .joining => { leaves := true, joins := true }
  | .closed _ => { closed := true }

/-- The end of the input is on its way. -/
def View.ending (v : View) : Bool :=
  v.leaves || v.closed || v.drains && v.after.isLast

def Source.isIdle : Source → Bool
  | .idle => true
  | .recv _ => false
  | .notify _ _ => false

def Source.notifies : Source → Bool
  | .idle => false
  | .recv _ => false
  | .notify _ _ => true

def Source.held : Source → Option (List UInt8)
  | .idle => none
  | .recv _ => none
  | .notify _ received => received

def Sink.isIdle : Sink → Bool
  | .idle _ => true
  | .send _ => false
  | .notify => false

def Sink.notifies : Sink → Bool
  | .idle _ => false
  | .send _ => false
  | .notify => true

def Sink.held : Sink → List UInt8
  | .idle _ => []
  | .send full => full
  | .notify => []

def Thread.encodes : Thread → Bool
  | .encoding => true
  | .flushing => false
  | .closing _ => false
  | .sinkGone _ => false
  | .sourceGone _ => false
  | .ended _ => false

def Thread.writes : Thread → Bool
  | .encoding => true
  | .flushing => true
  | .closing _ => false
  | .sinkGone _ => false
  | .sourceGone _ => false
  | .ended _ => false

/-- How the closure ends, when that is known. -/
def Thread.result : Thread → Option ThreadEnd
  | .encoding => none
  | .flushing => none
  | .closing r => some r
  | .sinkGone r => some r
  | .sourceGone r => some r
  | .ended r => some r

/-- The thread's ends of the channels are gone, and it is about to say so. -/
def Thread.isGone : Thread → Bool
  | .encoding => false
  | .flushing => false
  | .closing _ => false
  | .sinkGone _ => false
  | .sourceGone _ => true
  | .ended _ => false

def Thread.isEnded : Thread → Bool
  | .encoding => false
  | .flushing => false
  | .closing _ => false
  | .sinkGone _ => false
  | .sourceGone _ => false
  | .ended _ => true

attribute [grind =] After.rest After.isLast Back.view Writer.view View.ending
  Source.isIdle Source.notifies Source.held Sink.isIdle Sink.notifies Sink.held
  Thread.encodes Thread.writes Thread.result Thread.isGone Thread.isEnded Thread.sinkOpen
  Thread.sourceOpen After.finishing

theorem chunkSize_pos : 0 < chunkSize := by decide

theorem Thread.sinkOpen_of_sourceOpen (t : Thread) (h : t.sourceOpen = false) :
    t.sinkOpen = false := by
  cases t <;> simp_all [Thread.sourceOpen, Thread.sinkOpen]

theorem Thread.writes_of_sinkOpen (t : Thread) (h : t.sinkOpen = false) : t.writes = false := by
  cases t <;> simp_all [Thread.writes, Thread.sinkOpen]

theorem Writer.drains_only (w : Writer) (h : w.view.drains = true) :
    w.view.sends = false ∧ w.view.leaves = false ∧ w.view.closed = false ∧ w.view.idle = false := by
  cases w with
  | append got back => cases back <;> simp_all [Writer.view, Back.view]
  | _ => simp_all [Writer.view]

theorem Writer.idle_only (w : Writer) (h : w.view.idle = true) :
    w.view.sends = false ∧ w.view.drains = false ∧ w.view.leaves = false ∧
      w.view.closed = false := by
  cases w with
  | append got back => cases back <;> simp_all [Writer.view, Back.view]
  | _ => simp_all [Writer.view]

/-- A sleeper that is called looks at the channels again. -/
def Writer.wake : Writer → Writer
  | .asleep chunk after => .woken chunk after
  | w => w

/-- Waking takes nothing out of the caller's hand. -/
theorem Writer.wake_view (w : Writer) :
    w.wake.view = { w.view with needsRoom := w.view.needsRoom && w.view.locks, sleeps := false } := by
  cases w with
  | append got back => cases back <;> rfl
  | _ => rfl

attribute [grind =] Writer.wake_view

namespace Pipe
variable {s s' : Pipe}

theorem notify_eq (s : Pipe) : s.notify = { s with writer := s.writer.wake } := by
  unfold notify Writer.wake
  split <;> simp_all

/-- A write without memory leaves what it has not taken. A call whose output is refused returns
an error, or takes the pipe with it. -/
theorem refuse_cases (h : s.refuse = some s') :
    (∃ rest, s.writer = .loop rest ∧ s.fill = [] ∧
      s' = { s with
        accepted := s.accepted.take (s.accepted.length - rest.length)
        writer := .idle (.error .alloc) }) ∨
    ∃ e, s.writer.view.closed = false ∧
      ((s.writer.view.ending = false ∧
        s' = { s with failed := true, writer := .idle (.error e) }) ∨
      s' = { s with failed := true }.close (some (.error e))) := by
  unfold refuse at h
  cases hw : s.writer with
  | loop rest =>
      simp only [hw] at h
      split at h <;> cases h
      rename_i hnone
      exact .inl ⟨rest, rfl, hnone.2, rfl⟩
  | append got back =>
      refine .inr ⟨.sink, by cases back <;> rfl, ?_⟩
      cases back with
      | last =>
          simp only [hw, Option.some.injEq] at h
          exact .inr h.symm
      | send chunk after =>
          simp only [hw, fail] at h
          split at h <;> cases h
          · exact .inr rfl
          · exact .inl ⟨rfl, rfl⟩
      | drain after =>
          simp only [hw, fail] at h
          split at h <;> cases h
          · exact .inr rfl
          · refine .inl ⟨?_, rfl⟩
            cases after <;> simp_all [After.finishing, View.ending, Writer.view, Back.view,
              After.isLast]
  | _ => simp [hw] at h

/-- What the encoder asks for is at hand, or is asked for in turn. -/
theorem readCall_cases {n : ℕ} (h : s.readCall n = some s') :
    s' = s ∨ s.thread = .encoding ∧ s.source = .idle ∧ ¬ s.ended = true ∧
      ((∃ k, s' = { s with read := s.read ++ (s.cur.drop s.pos).take k, pos := s.pos + k }) ∨
        (s.cur.drop s.pos = [] ∧ s' = { s with cur := [], pos := 0, source := .recv n })) := by
  unfold readCall at h
  split at h
  case h_2 => cases h
  case h_1 hthread hsource =>
    split at h
    · cases h
      exact .inl rfl
    case isFalse hended =>
      refine .inr ⟨hthread, hsource, fun he => hended (.inr he), ?_⟩
      dsimp only at h
      split at h <;> cases h
      · exact .inl ⟨_, rfl⟩
      · exact .inr ⟨by rename_i hleft; simpa using hleft, rfl⟩

theorem sourceGo_cases (h : s.sourceGo = some s') :
    (∃ n, s.source = .recv n ∧
      ((∃ chunk rest, s.input = chunk :: rest ∧
        s' = { s with input := rest, source := .notify n (some chunk) }) ∨
        (s.input = [] ∧ s.inputOpen = false ∧ s' = { s with source := .notify n none }))) ∨
    (∃ n received, s.source = .notify n received ∧ s.gateHeld = false ∧
      ((received = none ∧ s' = { s with writer := s.writer.wake, source := .idle }) ∨
        (received = some [] ∧
          s' = { s with writer := s.writer.wake, source := .idle, ended := true }) ∨
        (∃ chunk k, received = some chunk ∧ chunk ≠ [] ∧
          s' = { s with
            writer := s.writer.wake, source := .idle, cur := chunk, pos := k
            read := s.read ++ chunk.take k }))) := by
  simp only [sourceGo, notify_eq] at h
  cases hsource : s.source with
  | idle => simp [hsource] at h
  | recv n =>
      refine .inl ⟨n, rfl, ?_⟩
      simp only [hsource] at h
      split at h
      case h_1 chunk rest hinput =>
        cases h
        exact .inl ⟨chunk, rest, hinput, rfl⟩
      case h_2 hinput =>
        split at h <;> cases h
        rename_i hopen
        exact .inr ⟨hinput, by simpa using hopen, rfl⟩
  | notify n received =>
      simp only [hsource] at h
      split at h
      · cases h
      rename_i hgate
      refine .inr ⟨n, received, rfl, by simpa using hgate, ?_⟩
      split at h <;> cases h
      · exact .inl ⟨rfl, rfl⟩
      · exact .inr (.inl ⟨rfl, rfl⟩)
      · rename_i chunk hne
        exact .inr (.inr ⟨chunk, _, rfl, hne, rfl⟩)

theorem put_cases {data : List UInt8} (h : s.put data = some s') : s.thread = .encoding ∧
    ∃ ok, s.sink = .idle ok ∧
      (s' = { s with written := s.written ++ data, buf := [], sink := .send (s.buf ++ data) } ∨
        s' = { s with written := s.written ++ data, buf := s.buf ++ data, sink := .idle true }) := by
  unfold put at h
  split at h
  case h_2 => cases h
  case h_1 ok hthread hsink =>
    refine ⟨hthread, ok, hsink, ?_⟩
    dsimp only at h
    split at h <;> cases h
    · exact .inl rfl
    · exact .inr rfl

theorem sinkGo_cases (h : s.sinkGo = some s') :
    (∃ full, s.sink = .send full ∧
      ((s.outputOpen = false ∧ s' = { s with sink := .idle false }) ∨
        (s.outputOpen = true ∧ s' = { s with output := s.output ++ [full], sink := .notify }))) ∨
    (s.sink = .notify ∧ s.gateHeld = false ∧
      s' = { s with writer := s.writer.wake, sink := .idle true }) := by
  simp only [sinkGo, notify_eq] at h
  cases hsink : s.sink with
  | idle ok => simp [hsink] at h
  | send full =>
      refine .inl ⟨full, rfl, ?_⟩
      simp only [hsink] at h
      split at h
      case isTrue hopen =>
        cases h
        exact .inl ⟨hopen, rfl⟩
      case isFalse hopen =>
        split at h <;> cases h
        exact .inr ⟨by simpa using hopen, rfl⟩
  | notify =>
      simp only [hsink] at h
      split at h <;> cases h
      rename_i hgate
      exact .inr ⟨rfl, by simpa using hgate, rfl⟩

theorem encoderEnds_cases {r : ThreadEnd} (h : s.encoderEnds r = some s') :
    s.thread = .encoding ∧ s.source = .idle ∧ ∃ ok, s.sink = .idle ok ∧
      ((r = .ok ∧ s.buf = [] ∧ s' = { s with thread := .closing .ok }) ∨
        (r = .ok ∧ s' = { s with buf := [], sink := .send s.buf, thread := .flushing }) ∨
        (r ≠ .ok ∧ s' = { s with thread := .closing r })) := by
  unfold encoderEnds at h
  split at h
  case h_2 => cases h
  case h_1 ok hthread hsource hsink =>
    refine ⟨hthread, hsource, ok, hsink, ?_⟩
    cases r with
    | ok =>
        dsimp only at h
        split at h <;> cases h
        · exact .inl ⟨rfl, ‹_›, rfl⟩
        · exact .inr (.inl ⟨rfl, rfl⟩)
    | error e =>
        cases h
        exact .inr (.inr ⟨ThreadEnd.noConfusion, rfl⟩)
    | panic =>
        cases h
        exact .inr (.inr ⟨ThreadEnd.noConfusion, rfl⟩)

theorem threadGo_cases (h : s.threadGo = some s') :
    (∃ ok r, s.thread = .flushing ∧ s.sink = .idle ok ∧ s' = { s with thread := .closing r }) ∨
    (∃ r, s.thread = .closing r ∧ s' = { s with thread := .sinkGone r }) ∨
    (∃ r, s.thread = .sinkGone r ∧ s' = { s with thread := .sourceGone r, input := [] }) ∨
    (∃ r, s.thread = .sourceGone r ∧ s.gateHeld = false ∧
      s' = { s with writer := s.writer.wake, thread := .ended r }) := by
  simp only [threadGo, notify_eq] at h
  cases hthread : s.thread with
  | encoding => simp [hthread] at h
  | flushing =>
      simp only [hthread] at h
      split at h <;> cases h
      · exact .inl ⟨_, _, rfl, ‹_›, rfl⟩
      · exact .inl ⟨_, _, rfl, ‹_›, rfl⟩
  | closing r =>
      simp only [hthread, Option.some.injEq] at h
      exact .inr (.inl ⟨r, rfl, h.symm⟩)
  | sinkGone r =>
      simp only [hthread, Option.some.injEq] at h
      exact .inr (.inr (.inl ⟨r, rfl, h.symm⟩))
  | sourceGone r =>
      simp only [hthread] at h
      split at h <;> cases h
      rename_i hgate
      exact .inr (.inr (.inr ⟨r, rfl, by simpa using hgate, rfl⟩))
  | ended r => simp [hthread] at h

theorem drop_cases (h : s.drop = some s') : s.writer.view.idle = true ∧ s' = s.close none := by
  unfold drop at h
  split at h
  case h_1 hw =>
    cases h
    exact ⟨by rw [hw]; rfl, rfl⟩
  case h_2 => cases h

theorem wake_cases (h : s.wake = some s') : s' = { s with writer := s.writer.wake } := by
  simp only [wake, notify_eq] at h
  split at h <;> cases h
  rfl

/-- What has been sent, in the order in which the encoder gets it. -/
def fed (s : Pipe) : List UInt8 :=
  s.read ++ s.cur.drop s.pos ++ s.source.held.getD [] ++ s.input.flatten

/-- What is still to be sent. -/
def toSend (s : Pipe) : List UInt8 := s.writer.view.chunk ++ s.fill ++ s.writer.view.rest

/-- What the encoder wrote, in the order in which the caller's output gets it. -/
def out (s : Pipe) : List UInt8 :=
  s.delivered ++ s.writer.view.got ++ s.output.flatten ++ s.sink.held ++ s.buf

/-- Where the two sides can be at one time. -/
structure Shape (s : Pipe) : Prop where
  sends : s.writer.view.sends = true → s.fill = []
  last : s.writer.view.sends = true → (s.writer.view.chunk = [] ↔ s.writer.view.after.isLast = true)
  drains : s.writer.view.drains = true → s.writer.view.after ≠ .done → s.fill = []
  sourceIdle : s.thread.encodes = false → s.source.isIdle = true
  sinkIdle : s.thread.writes = false → s.sink.isIdle = true
  joined : s.joined = true → s.thread.isEnded = true
  stops : s.writer.view.stops = true → s.thread.sinkOpen = false
  joins : s.writer.view.joins = true → s.thread.sinkOpen = false ∧ s.output = []
  leaves : s.writer.view.leaves = true → s.inputOpen = false ∧ s.fill = []
  inputClosed : s.inputOpen = false →
    s.thread.sinkOpen = false ∨ s.writer.view.leaves = true ∨ s.writer.view.closed = true
  outputClosed : s.outputOpen = false ↔ s.writer.view.closed = true
  failed : s.failed = true → s.writer.view.idle = true ∨ s.writer.view.closed = true

theorem start_shape : Shape start := by
  constructor <;> simp [start, Writer.view, Thread.encodes, Thread.writes]

theorem Shape.resume (h : Shape s) (after : After)
    (hw : s.writer.view.drains = true ∧ s.writer.view.after = after ∨
      s.writer.view.idle = true ∧ s.fill = [] ∧ s.failed = false) : Shape (s.resume after) := by
  have hdrains := s.writer.drains_only
  have hidle := s.writer.idle_only
  obtain ⟨h1, h2, h3, h4, h5, h6, h7, h8, h9, h10, h11, h12⟩ := h
  unfold Pipe.resume
  split
  all_goals try split
  all_goals constructor <;> grind -ring -linarith -order

theorem Shape.notFailed (h : Shape s) (hidle : s.writer.view.idle = false)
    (hclosed : s.writer.view.closed = false) : s.failed = false := by
  by_contra hf
  have := h.failed (by simpa using hf)
  simp [hidle, hclosed] at this

theorem Shape.close (h : Shape s) (result : Option (Except PipeError ℕ)) :
    Shape (s.close result) := by
  obtain ⟨h1, h2, h3, h4, h5, h6, h7, h8, h9, h10, h11, h12⟩ := h
  unfold Pipe.close
  constructor <;> grind -ring -linarith -order

theorem Shape.fail (h : Shape s) (after : After) (e : PipeError)
    (hclosed : s.writer.view.closed = false) (hleaves : s.writer.view.leaves = false) :
    Shape (s.fail after e) := by
  unfold Pipe.fail
  split
  · exact h.close _
  · obtain ⟨h1, h2, h3, h4, h5, h6, h7, h8, h9, h10, h11, h12⟩ := h
    constructor <;> grind -ring -linarith -order

theorem Shape.stop (h : Shape s) (after : After) (hopen : s.thread.sinkOpen = false)
    (hidle : s.writer.view.idle = false) (hclosed : s.writer.view.closed = false) :
    Shape (s.stop after) := by
  have hfailed := h.notFailed hidle hclosed
  obtain ⟨h1, h2, h3, h4, h5, h6, h7, h8, h9, h10, h11, h12⟩ := h
  unfold Pipe.stop
  constructor <;> grind -ring -linarith -order

theorem Shape.join (h : Shape s) (hended : s.thread.isEnded = true) :
    Shape { s with joined := true } :=
  ⟨h.sends, h.last, h.drains, h.sourceIdle, h.sinkIdle, fun _ => hended, h.stops, h.joins,
    h.leaves, h.inputClosed, h.outputClosed, h.failed⟩

/-- The caller sends, or finds that it cannot. -/
theorem trySend_shape (h : Shape s) {chunk : List UInt8} {after : After}
    (hw : s.writer = .trySend chunk after) (hgo : s.go = some s') : Shape s' := by
  have hidle : s.writer.view.idle = false := by rw [hw]; rfl
  have hclosed : s.writer.view.closed = false := by rw [hw]; rfl
  have hleaves : s.writer.view.leaves = false := by rw [hw]; rfl
  simp only [go, hw] at hgo
  split at hgo
  · cases hgo
    exact h.stop _ (by simpa [hclosed, hleaves] using h.inputClosed ‹_›) hidle hclosed
  split at hgo
  · cases hgo
    exact h.stop _ (s.thread.sinkOpen_of_sourceOpen ‹_›) hidle hclosed
  obtain ⟨h1, h2, h3, h4, h5, h6, h7, h8, h9, h10, h11, h12⟩ := h
  split at hgo <;> cases hgo
  · constructor <;> grind -ring -linarith -order
  · constructor <;> grind -ring -linarith -order

theorem tryRecv_shape (h : Shape s) {chunk : List UInt8} {after : After}
    (hw : s.writer = .tryRecv chunk after) (hgo : s.go = some s') : Shape s' := by
  simp only [go, hw] at hgo
  split at hgo
  · cases hgo
    obtain ⟨h1, h2, h3, h4, h5, h6, h7, h8, h9, h10, h11, h12⟩ := h
    constructor <;> grind -ring -linarith -order
  split at hgo <;> cases hgo
  · obtain ⟨h1, h2, h3, h4, h5, h6, h7, h8, h9, h10, h11, h12⟩ := h
    constructor <;> grind -ring -linarith -order
  · exact h.stop _ (by simpa using ‹¬ s.thread.sinkOpen = true›) (by rw [hw]; rfl) (by rw [hw]; rfl)

theorem go_shape (h : Shape s) (hgo : s.go = some s') : Shape s' := by
  cases hw : s.writer with
  | trySend chunk after => exact trySend_shape h hw hgo
  | tryRecv chunk after => exact tryRecv_shape h hw hgo
  | idle result => simp [go, hw] at hgo
  | closed result => simp [go, hw] at hgo
  | asleep chunk after => simp [go, hw] at hgo
  | loop rest =>
      have hsize := chunkSize_pos
      obtain ⟨h1, h2, h3, h4, h5, h6, h7, h8, h9, h10, h11, h12⟩ := h
      simp only [go, hw] at hgo
      split at hgo
      · cases hgo
        constructor <;> grind -ring -linarith -order
      · split at hgo <;> cases hgo
        · constructor <;> grind -ring -linarith -order
        · constructor <;> grind -ring -linarith -order
  | lock chunk after | woken chunk after =>
      simp only [go, hw, Option.some.injEq] at hgo
      subst hgo
      obtain ⟨h1, h2, h3, h4, h5, h6, h7, h8, h9, h10, h11, h12⟩ := h
      constructor <;> grind -ring -linarith -order
  | append got back =>
      simp only [go, hw] at hgo
      obtain ⟨h1, h2, h3, h4, h5, h6, h7, h8, h9, h10, h11, h12⟩ := h
      cases back <;> cases hgo <;> constructor <;> grind -ring -linarith -order
  | drain after =>
      simp only [go, hw] at hgo
      split at hgo <;> cases hgo
      · obtain ⟨h1, h2, h3, h4, h5, h6, h7, h8, h9, h10, h11, h12⟩ := h
        constructor <;> grind -ring -linarith -order
      · exact h.resume after (.inl ⟨by rw [hw]; rfl, by rw [hw]; rfl⟩)
  | last =>
      simp only [go, hw] at hgo
      obtain ⟨h1, h2, h3, h4, h5, h6, h7, h8, h9, h10, h11, h12⟩ := h
      split at hgo
      · cases hgo
        constructor <;> grind -ring -linarith -order
      · split at hgo <;> cases hgo
        constructor <;> grind -ring -linarith -order
  | stopping after =>
      have hclosed : s.writer.view.closed = false := by rw [hw]; rfl
      have hleaves : s.writer.view.leaves = false := by rw [hw]; rfl
      simp only [go, hw] at hgo
      split at hgo
      · cases hgo
        exact h.fail _ _ hclosed hleaves
      · split at hgo <;> cases hgo
        rename_i r hthread
        rw [← hw]
        exact (h.join (by rw [hthread]; rfl)).fail _ _ hclosed hleaves
  | joining =>
      simp only [go, hw] at hgo
      split at hgo <;> cases hgo
      rename_i r hthread
      rw [← hw]
      exact (h.join (by rw [hthread]; rfl)).close _

theorem refuse_shape (h : Shape s) (hgo : s.refuse = some s') : Shape s' := by
  obtain ⟨rest, hw, hfill, rfl⟩ | ⟨e, hclosed, ⟨hending, rfl⟩ | rfl⟩ := refuse_cases hgo
  · obtain ⟨h1, h2, h3, h4, h5, h6, h7, h8, h9, h10, h11, h12⟩ := h
    constructor <;> grind -ring -linarith -order
  · obtain ⟨h1, h2, h3, h4, h5, h6, h7, h8, h9, h10, h11, h12⟩ := h
    constructor <;> grind -ring -linarith -order
  · obtain ⟨h1, h2, h3, h4, h5, h6, h7, h8, h9, h10, h11, h12⟩ := h
    constructor <;> grind -ring -linarith -order [close]

theorem Shape.sendFill (h : Shape s) (after : After) (hlast : after.isLast = false)
    (hidle : s.writer.view.idle = true) (hfailed : s.failed = false) : Shape (s.sendFill after) := by
  have honly := s.writer.idle_only
  unfold Pipe.sendFill
  split
  · exact h.resume _ (.inr ⟨hidle, ‹_›, hfailed⟩)
  · obtain ⟨h1, h2, h3, h4, h5, h6, h7, h8, h9, h10, h11, h12⟩ := h
    constructor <;> grind -ring -linarith -order

theorem call_shape (h : Shape s) {c : Call} (hfailed : s.failed = false)
    (hgo : s.call c = some s') : Shape s' := by
  unfold call at hgo
  split at hgo
  case h_2 => cases hgo
  case h_1 _ _ hw =>
    have hidle : s.writer.view.idle = true := by rw [hw]; rfl
    cases c with
    | write data =>
        cases hgo
        obtain ⟨h1, h2, h3, h4, h5, h6, h7, h8, h9, h10, h11, h12⟩ := h
        constructor <;> grind -ring -linarith -order
    | writeOwned data =>
        cases hgo
        refine Shape.sendFill ?_ _ rfl hidle hfailed
        obtain ⟨h1, h2, h3, h4, h5, h6, h7, h8, h9, h10, h11, h12⟩ := h
        constructor <;> assumption
    | finish =>
        cases hgo
        exact h.sendFill _ rfl hidle hfailed

theorem readCall_shape (h : Shape s) {n : ℕ} (hgo : s.readCall n = some s') : Shape s' := by
  obtain rfl | ⟨hthread, hsource, -, ⟨k, rfl⟩ | ⟨-, rfl⟩⟩ := readCall_cases hgo
  · exact h
  all_goals
    obtain ⟨h1, h2, h3, h4, h5, h6, h7, h8, h9, h10, h11, h12⟩ := h
    constructor <;> grind -ring -linarith -order

theorem sourceGo_shape (h : Shape s) (hgo : s.sourceGo = some s') : Shape s' := by
  obtain ⟨n, hsource, ⟨chunk, rest, hinput, rfl⟩ | ⟨hinput, hopen, rfl⟩⟩ |
    ⟨n, received, hsource, hgate, ⟨-, rfl⟩ | ⟨-, rfl⟩ | ⟨chunk, k, -, -, rfl⟩⟩ := sourceGo_cases hgo
  all_goals
    obtain ⟨h1, h2, h3, h4, h5, h6, h7, h8, h9, h10, h11, h12⟩ := h
    constructor <;> grind -ring -linarith -order

theorem put_shape (h : Shape s) {data : List UInt8} (hgo : s.put data = some s') : Shape s' := by
  obtain ⟨hthread, ok, hsink, rfl | rfl⟩ := put_cases hgo
  all_goals
    obtain ⟨h1, h2, h3, h4, h5, h6, h7, h8, h9, h10, h11, h12⟩ := h
    constructor <;> grind -ring -linarith -order

theorem sinkGo_shape (h : Shape s) (hgo : s.sinkGo = some s') : Shape s' := by
  have hwrites := s.thread.writes_of_sinkOpen
  obtain ⟨full, hsink, ⟨hopen, rfl⟩ | ⟨hopen, rfl⟩⟩ | ⟨hsink, hgate, rfl⟩ := sinkGo_cases hgo
  all_goals
    obtain ⟨h1, h2, h3, h4, h5, h6, h7, h8, h9, h10, h11, h12⟩ := h
    constructor <;> grind -ring -linarith -order

theorem encoderEnds_shape (h : Shape s) {r : ThreadEnd} (hgo : s.encoderEnds r = some s') :
    Shape s' := by
  obtain ⟨hthread, hsource, ok, hsink, ⟨-, -, rfl⟩ | ⟨-, rfl⟩ | ⟨-, rfl⟩⟩ := encoderEnds_cases hgo
  all_goals
    obtain ⟨h1, h2, h3, h4, h5, h6, h7, h8, h9, h10, h11, h12⟩ := h
    constructor <;> grind -ring -linarith -order

theorem threadGo_shape (h : Shape s) (hgo : s.threadGo = some s') : Shape s' := by
  obtain ⟨ok, r, hthread, hsink, rfl⟩ | ⟨r, hthread, rfl⟩ | ⟨r, hthread, rfl⟩ |
    ⟨r, hthread, hgate, rfl⟩ := threadGo_cases hgo
  all_goals
    obtain ⟨h1, h2, h3, h4, h5, h6, h7, h8, h9, h10, h11, h12⟩ := h
    constructor <;> grind -ring -linarith -order

theorem drop_shape (h : Shape s) (hgo : s.drop = some s') : Shape s' := by
  obtain ⟨-, rfl⟩ := drop_cases hgo
  exact h.close none

theorem wake_shape (h : Shape s) (hgo : s.wake = some s') : Shape s' := by
  obtain rfl := wake_cases hgo
  obtain ⟨h1, h2, h3, h4, h5, h6, h7, h8, h9, h10, h11, h12⟩ := h
  constructor <;> grind -ring -linarith -order

theorem step_shape (h : Shape s) {a : Act} (hcall : ∀ c, a = .call c → s.failed = false)
    (hgo : s.step a = some s') : Shape s' := by
  cases a with
  | call c => exact call_shape h (hcall c rfl) hgo
  | drop => exact drop_shape h hgo
  | go => exact go_shape h hgo
  | refuse => exact refuse_shape h hgo
  | wake => exact wake_shape h hgo
  | read n => exact readCall_shape h hgo
  | sourceGo => exact sourceGo_shape h hgo
  | put data => exact put_shape h hgo
  | sinkGo => exact sinkGo_shape h hgo
  | encoderEnds r => exact encoderEnds_shape h hgo
  | threadGo => exact threadGo_shape h hgo

end Pipe
end LzmaTurbo.Enc
