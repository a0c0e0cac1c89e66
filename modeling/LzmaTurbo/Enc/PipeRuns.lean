import LzmaTurbo.Enc.PipeOutflow

/-!
# Runs of the pipe

Whatever turns the two sides take, the encoder reads the bytes of the writes and then
their end, the caller's output gets what the encoder wrote, and the two never wait for
each other, as long as no call is made after the caller's output has refused a chunk. A
call whose output is refused loses what it had in hand, and the pipe takes the next one.
-/
namespace LzmaTurbo.Enc
namespace Pipe
variable {s s' : Pipe}

def Act.isCall : Act → Bool
  | .call _ => true
  | _ => false

/-- No call is made after the caller's output has refused a chunk. -/
def spared (s : Pipe) : List Act → Bool
  | [] => true
  | a :: acts =>
      (!a.isCall || !s.failed) &&
        match s.step a with
        | none => true
        | some s' => s'.spared acts

/-- What the pipe is for. -/
structure Faithful (s : Pipe) : Prop where
  read : s.read <+: s.accepted
  ended : s.ended = true → s.read = s.accepted
  kept : s.failed = false → s.writer.view.closed = false → s.thread.sinkOpen = true →
    s.fed ++ s.toSend = s.accepted ∧ (s.writer.view.ending = true → s.endOnWay)
  delivered : s.delivered <+: s.written
  keptBack : s.failed = false → s.writer.view.closed = false → s.out = s.written
  finished : ∀ n, s.writer = .closed (some (.ok n)) →
    s.delivered = s.written ∧ n = s.delivered.length
  awake : ¬ (s.callerWaits ∧ s.threadWaits)
  released : s.writer.view.closed = true → s.threadWaits → s.thread.isEnded = true

/-- All that a step keeps. -/
structure Inv (s : Pipe) : Prop where
  shape : Shape s
  sleep : Sleep s
  flow : Flow s
  apart : Apart s
  outflow : Outflow s

theorem start_inv : Inv start := ⟨start_shape, start_sleep, start_flow, start_apart, start_outflow⟩

theorem step_inv (h : Inv s) {a : Act} (hcall : ∀ c, a = .call c → s.failed = false)
    (hgo : s.step a = some s') : Inv s' where
  shape := step_shape h.shape hcall hgo
  sleep := step_sleep h.sleep hgo
  flow := step_flow h.shape h.flow h.apart hgo
  apart := step_apart h.shape h.apart (step_flow h.shape h.flow h.apart hgo) hgo
  outflow := step_outflow h.shape h.outflow hgo

theorem Inv.faithful (h : Inv s) : Faithful s where
  read := h.flow.read_accepted
  ended he := (h.flow.ended he).1
  kept hf hc ho := ⟨h.flow.kept hf hc ho, h.flow.sent hf hc ho⟩
  delivered := h.outflow.delivered
  keptBack := h.outflow.kept
  finished n hn := ⟨(h.outflow.closed n hn).1, (h.outflow.closed n hn).2.1⟩
  awake := not_both_wait h.shape h.sleep
  released := closed_releases h.shape h.sleep

theorem run_inv {acts : List Act} (h : Inv s) (hspared : s.spared acts = true)
    (hrun : s.run acts = some s') : Inv s' := by
  induction acts generalizing s with
  | nil =>
      cases hrun
      exact h
  | cons a acts ih =>
      simp only [run] at hrun
      simp only [spared, Bool.and_eq_true] at hspared
      obtain ⟨hcall, hrest⟩ := hspared
      cases hstep : s.step a with
      | none => simp [hstep] at hrun
      | some t =>
          simp only [hstep] at hrun hrest
          refine ih (step_inv h ?_ hstep) hrest hrun
          rintro c rfl
          simpa [Act.isCall] using hcall

/-- In every state of a run in which no call follows one whose output was refused, the
encoder has read a prefix of the writes, all of them when it has seen their end, the
caller's output has a prefix of what the encoder wrote, all of it when `finish` succeeds,
and the two sides do not wait for each other. -/
theorem run_faithful (acts : List Act) (s : Pipe) (hspared : start.spared acts = true)
    (hrun : start.run acts = some s) : Faithful s :=
  (run_inv start_inv hspared hrun).faithful

/-- A write that finds no memory, one that is sent, the end, and what the encoder makes of them. -/
def plainRun : List Act :=
  [.call (.write [5]), .refuse, .call (.writeOwned [1]), .go, .go, .go, .read 1, .sourceGo,
    .sourceGo, .put [7], .call .finish, .go, .go, .go, .read 1, .sourceGo, .sourceGo,
    .encoderEnds .ok, .sinkGo, .sinkGo, .threadGo, .threadGo, .threadGo, .threadGo, .go, .go, .go,
    .go]

theorem run_faithful_plain : ∃ s, start.run plainRun = some s ∧ s.ended = true ∧
    s.accepted = [1] ∧ s.writer = .closed (some (.ok 1)) ∧ Faithful s :=
  ⟨_, rfl, rfl, rfl, rfl, run_faithful plainRun _ rfl rfl⟩

theorem run_append (s : Pipe) (acts rest : List Act) :
    s.run (acts ++ rest) = (s.run acts).bind fun s' => s'.run rest := by
  induction acts generalizing s with
  | nil => rfl
  | cons a acts ih =>
      simp only [List.cons_append, run]
      cases s.step a with
      | none => rfl
      | some t => exact ih t

/-- The input is full and a third write is in the chunk that is being filled. -/
def fullActs : List Act :=
  [.call (.writeOwned [1]), .go, .go, .go, .call (.writeOwned [2]), .go, .go, .go,
    .call (.write [9]), .go, .go, .go]

/-- The caller's output refuses a chunk when that one is to be sent, and the caller goes
on to `finish`. -/
def refusedActs : List Act :=
  [.sinkGo, .sinkGo, .call (.writeOwned []), .go, .go, .go, .refuse, .read 1, .sourceGo,
    .sourceGo, .read 1, .sourceGo, .sourceGo, .call .finish, .go, .go, .go, .read 1, .sourceGo,
    .sourceGo]

def full : Pipe := (start.run fullActs).getD start

theorem full_put (big : List UInt8) (hbig : outBatch ≤ big.length) :
    full.put big = some { full with written := big, sink := .send big } := by
  have hthread : full.thread = .encoding := rfl
  have hsink : full.sink = .idle true := rfl
  have hbuf : full.buf = [] := rfl
  have hwritten : full.written = [] := rfl
  simp [put, hthread, hsink, hbuf, hwritten, hbig]

theorem refused_ends (big : List UInt8) :
    ∃ s, run { full with written := big, sink := .send big } refusedActs = some s ∧
      s.ended = true ∧ s.read = [1, 2] ∧ s.accepted = [1, 2, 9] := by
  refine ⟨?state, ?hrun, ?rest⟩
  case hrun => rfl
  case rest => exact ⟨rfl, rfl, rfl⟩

/-- The caller's output refuses a chunk while a filled one is in hand: the filled one is
lost, and the encoder sees the end of the input all the same. -/
theorem run_unfaithful :
    ¬ ∀ (acts : List Act) (s : Pipe), start.run acts = some s → Faithful s := by
  intro hall
  obtain ⟨big, hbig⟩ : ∃ big : List UInt8, outBatch ≤ big.length :=
    ⟨List.replicate outBatch 0, by simp⟩
  obtain ⟨s, hrun, hended, hread, haccepted⟩ := refused_ends big
  have hwhole : start.run (fullActs ++ .put big :: refusedActs) = some s := by
    have hfull : start.run fullActs = some full := rfl
    rw [run_append, hfull, Option.bind_some, run]
    simp only [step, full_put _ hbig]
    exact hrun
  have := (hall _ s hwhole).ended hended
  rw [hread, haccepted] at this
  exact absurd this (by decide)

end Pipe
end LzmaTurbo.Enc
