import Mathlib.Data.List.Basic
import Mathlib.Data.Nat.Notation

/-!
# The pipe in front of the encoder

A caller's writes go to the encoder's thread over a bounded channel and its output
comes back over another. The caller and the thread are two machines that take turns
in any order; a step is one access to what they share. The thread may read with one
hand and write with the other, as a coder with block threads does.

Which buffers are used again is left out: a recycled buffer is cleared first.
-/
namespace LzmaTurbo.Enc

/-- `CHUNK`. -/
def chunkSize : ℕ := 256 <<< 10
/-- `INPUT_DEPTH`. -/
def inputDepth : ℕ := 2
/-- `OUTPUT_DEPTH`. -/
def outputDepth : ℕ := 2
/-- `OUT_BATCH`. -/
def outBatch : ℕ := 64 <<< 10

/-- What the pipe reports; `sink` is what the caller's output reported, `coder` what the
encoder did on its own account. -/
inductive PipeError where
  | alloc
  | read
  | write
  | sink
  | coder
  | internalFailure
deriving Repr, DecidableEq

/-- How the thread's closure ends. -/
inductive ThreadEnd where
  | ok
  | error (e : PipeError)
  | panic
deriving Repr, DecidableEq

/-- What a call goes on with when `send` or `drain` has returned. -/
inductive After where
  | loop (rest : List UInt8)
  | owned (data : List UInt8)
  | endInput
  | lastOutput
  | done
deriving Repr, DecidableEq

/-- `finish` takes the pipe with it. -/
def After.finishing : After → Bool
  | .loop _ => false
  | .owned _ => false
  | .endInput => true
  | .lastOutput => true
  | .done => false

/-- What a call goes on with when `append` has returned. -/
inductive Back where
  | send (chunk : List UInt8) (after : After)
  | drain (after : After)
  | last
deriving Repr, DecidableEq

/-- Where the caller is: between calls with the last one's result, or inside one. -/
inductive Writer where
  | idle (result : Except PipeError Unit)
  | loop (rest : List UInt8)
  | lock (chunk : List UInt8) (after : After)
  | trySend (chunk : List UInt8) (after : After)
  | tryRecv (chunk : List UInt8) (after : After)
  | asleep (chunk : List UInt8) (after : After)
  | woken (chunk : List UInt8) (after : After)
  | append (got : List UInt8) (back : Back)
  | drain (after : After)
  | last
  | stopping (after : After)
  | joining
  | closed (result : Option (Except PipeError ℕ))

/-- Where `Source::read` is. -/
inductive Source where
  | idle
  | recv (n : ℕ)
  | notify (n : ℕ) (received : Option (List UInt8))

/-- Where `Sink::write` or `Sink::flush` is; `idle` with whether the last one succeeded. -/
inductive Sink where
  | idle (ok : Bool)
  | send (full : List UInt8)
  | notify

/-- Where the thread's closure is; its locals go in turn, the sink first. -/
inductive Thread where
  | encoding
  | flushing
  | closing (r : ThreadEnd)
  | sinkGone (r : ThreadEnd)
  | sourceGone (r : ThreadEnd)
  | ended (r : ThreadEnd)

def Thread.sinkOpen : Thread → Bool
  | .encoding => true
  | .flushing => true
  | .closing _ => true
  | .sinkGone _ => false
  | .sourceGone _ => false
  | .ended _ => false

def Thread.sourceOpen : Thread → Bool
  | .encoding => true
  | .flushing => true
  | .closing _ => true
  | .sinkGone _ => true
  | .sourceGone _ => false
  | .ended _ => false

/-- The pipe, its thread, and what has passed: `accepted` is every byte of the writes, but for
what one that found no memory had not taken, `read` what the encoder was given, `written` what
it wrote, `delivered` what the caller's output took, `failed` that it refused a chunk. -/
structure Pipe where
  input : List (List UInt8)
  inputOpen : Bool
  output : List (List UInt8)
  outputOpen : Bool
  writer : Writer
  fill : List UInt8
  produced : ℕ
  joined : Bool
  source : Source
  cur : List UInt8
  pos : ℕ
  ended : Bool
  sink : Sink
  buf : List UInt8
  thread : Thread
  accepted : List UInt8
  read : List UInt8
  written : List UInt8
  delivered : List UInt8
  failed : Bool

namespace Pipe

def start : Pipe where
  input := []
  inputOpen := true
  output := []
  outputOpen := true
  writer := .idle (.ok ())
  fill := []
  produced := 0
  joined := false
  source := .idle
  cur := []
  pos := 0
  ended := false
  sink := .idle true
  buf := []
  thread := .encoding
  accepted := []
  read := []
  written := []
  delivered := []
  failed := false

/-- The caller holds the gate from taking it to letting it go or falling asleep. -/
def gateHeld (s : Pipe) : Bool :=
  match s.writer with
  | .trySend _ _ => true
  | .tryRecv _ _ => true
  | _ => false

/-- `Activity::notify`. -/
def notify (s : Pipe) : Pipe :=
  match s.writer with
  | .asleep chunk after => { s with writer := .woken chunk after }
  | _ => s

/-- The pipe is gone, and with it its ends of the channels. -/
def close (s : Pipe) (result : Option (Except PipeError ℕ)) : Pipe :=
  { s with
    writer := .closed result, inputOpen := false, outputOpen := false, output := [], fill := [] }

/-- A call returns an error. -/
def fail (s : Pipe) (after : After) (e : PipeError) : Pipe :=
  if after.finishing then s.close (some (.error e)) else { s with writer := .idle (.error e) }

/-- A call goes on. -/
def resume (s : Pipe) : After → Pipe
  | .loop rest => { s with writer := .loop rest }
  | .owned data =>
      if data = [] then { s with writer := .idle (.ok ()) }
      else { s with writer := .lock data .done }
  | .endInput => { s with writer := .lock [] .lastOutput }
  | .lastOutput => { s with writer := .last, inputOpen := false }
  | .done => { s with writer := .idle (.ok ()) }

def sendFill (s : Pipe) (after : After) : Pipe :=
  if s.fill = [] then s.resume after else { s with fill := [], writer := .lock s.fill after }

/-- `stopped`: the input is closed and the thread is waited for. -/
def stop (s : Pipe) (after : After) : Pipe :=
  { s with writer := .stopping after, inputOpen := false }

/-- What `stopped` makes of a thread's end. -/
def stoppedError : ThreadEnd → PipeError
  | .error e => e
  | _ => .internalFailure

/-- What `finish` makes of it. -/
def finishResult (produced : ℕ) : ThreadEnd → Except PipeError ℕ
  | .ok => .ok produced
  | .error e => .error e
  | .panic => .error .internalFailure

/-- The caller's next step inside a call, if it does not have to wait. -/
def go (s : Pipe) : Option Pipe :=
  match s.writer with
  | .idle _ => none
  | .closed _ => none
  | .loop rest =>
      if rest = [] then some { s with writer := .drain .done }
      else
        let take := min (chunkSize - s.fill.length) rest.length
        let fill := s.fill ++ rest.take take
        if fill.length = chunkSize then
          some { s with fill := [], writer := .lock fill (.loop (rest.drop take)) }
        else some { s with fill, writer := .loop (rest.drop take) }
  | .lock chunk after => some { s with writer := .trySend chunk after }
  | .trySend chunk after =>
      if s.inputOpen = false then some (s.stop after)
      else if s.thread.sourceOpen = false then some (s.stop after)
      else if s.input.length < inputDepth then
        some { s with input := s.input ++ [chunk], writer := .drain after }
      else some { s with writer := .tryRecv chunk after }
  | .tryRecv chunk after =>
      match s.output with
      | got :: rest => some { s with output := rest, writer := .append got (.send chunk after) }
      | [] =>
          if s.thread.sinkOpen then some { s with writer := .asleep chunk after }
          else some (s.stop after)
  | .asleep _ _ => none
  | .woken chunk after => some { s with writer := .lock chunk after }
  | .append got back =>
      let s := { s with delivered := s.delivered ++ got, produced := s.produced + got.length }
      match back with
      | .send chunk after => some { s with writer := .lock chunk after }
      | .drain after => some { s with writer := .drain after }
      | .last => some { s with writer := .last }
  | .drain after =>
      match s.output with
      | got :: rest => some { s with output := rest, writer := .append got (.drain after) }
      | [] => some (s.resume after)
  | .last =>
      match s.output with
      | got :: rest => some { s with output := rest, writer := .append got .last }
      | [] => if s.thread.sinkOpen then none else some { s with writer := .joining }
  | .stopping after =>
      if s.joined then some (s.fail after .internalFailure)
      else
        match s.thread with
        | .ended r => some ({ s with joined := true }.fail after (stoppedError r))
        | _ => none
  | .joining =>
      match s.thread with
      | .ended r => some ({ s with joined := true }.close (some (finishResult s.produced r)))
      | _ => none

/-- The caller's output refuses a chunk, or there is no memory for one to fill. -/
def refuse (s : Pipe) : Option Pipe :=
  match s.writer with
  | .loop rest =>
      if rest ≠ [] ∧ s.fill = [] then
        some { s with
          accepted := s.accepted.take (s.accepted.length - rest.length)
          writer := .idle (.error .alloc) }
      else none
  | .append _ (.send _ after) => some ({ s with failed := true }.fail after .sink)
  | .append _ (.drain after) => some ({ s with failed := true }.fail after .sink)
  | .append _ .last => some ({ s with failed := true }.close (some (.error .sink)))
  | _ => none

inductive Call where
  | write (data : List UInt8)
  | writeOwned (data : List UInt8)
  | finish

/-- The caller makes a call. -/
def call (s : Pipe) (c : Call) : Option Pipe :=
  match s.writer with
  | .idle _ =>
      match c with
      | .write data => some { s with accepted := s.accepted ++ data, writer := .loop data }
      | .writeOwned data =>
          some ({ s with accepted := s.accepted ++ data }.sendFill (.owned data))
      | .finish => some (s.sendFill .endInput)
  | _ => none

/-- The encoder asks for `n` bytes. -/
def readCall (s : Pipe) (n : ℕ) : Option Pipe :=
  match s.thread, s.source with
  | .encoding, .idle =>
      if n = 0 ∨ s.ended = true then some s
      else
        let left := s.cur.drop s.pos
        if left ≠ [] then
          let n := min n left.length
          some { s with read := s.read ++ left.take n, pos := s.pos + n }
        else some { s with cur := [], pos := 0, source := .recv n }
  | _, _ => none

/-- `Source::read` goes on, if it does not have to wait. -/
def sourceGo (s : Pipe) : Option Pipe :=
  match s.source with
  | .idle => none
  | .recv n =>
      match s.input with
      | chunk :: rest => some { s with input := rest, source := .notify n (some chunk) }
      | [] => if s.inputOpen then none else some { s with source := .notify n none }
  | .notify n received =>
      if s.gateHeld then none
      else
        match received with
        | none => some { s.notify with source := .idle }
        | some [] => some { s.notify with source := .idle, ended := true }
        | some chunk =>
            let n := min n chunk.length
            some { s.notify with
              source := .idle, cur := chunk, pos := n, read := s.read ++ chunk.take n }

/-- The encoder writes. -/
def put (s : Pipe) (data : List UInt8) : Option Pipe :=
  match s.thread, s.sink with
  | .encoding, .idle _ =>
      let buf := s.buf ++ data
      let s := { s with written := s.written ++ data }
      if outBatch ≤ buf.length then some { s with buf := [], sink := .send buf }
      else some { s with buf, sink := .idle true }
  | _, _ => none

/-- `Sink::flush` goes on, if it does not have to wait. -/
def sinkGo (s : Pipe) : Option Pipe :=
  match s.sink with
  | .idle _ => none
  | .send full =>
      if s.outputOpen = false then some { s with sink := .idle false }
      else if s.output.length < outputDepth then
        some { s with output := s.output ++ [full], sink := .notify }
      else none
  | .notify => if s.gateHeld then none else some { s.notify with sink := .idle true }

/-- The encoder returns, or panics. -/
def encoderEnds (s : Pipe) (r : ThreadEnd) : Option Pipe :=
  match s.thread, s.source, s.sink with
  | .encoding, .idle, .idle _ =>
      match r with
      | .ok =>
          if s.buf = [] then some { s with thread := .closing .ok }
          else some { s with buf := [], sink := .send s.buf, thread := .flushing }
      | r => some { s with thread := .closing r }
  | _, _, _ => none

/-- The thread's closure goes on, if it does not have to wait. -/
def threadGo (s : Pipe) : Option Pipe :=
  match s.thread with
  | .encoding => none
  | .flushing =>
      match s.sink with
      | .idle true => some { s with thread := .closing .ok }
      | .idle false => some { s with thread := .closing (.error .write) }
      | _ => none
  | .closing r => some { s with thread := .sinkGone r }
  | .sinkGone r => some { s with thread := .sourceGone r, input := [] }
  | .sourceGone r => if s.gateHeld then none else some { s.notify with thread := .ended r }
  | .ended _ => none

/-- The caller lets the pipe go. -/
def drop (s : Pipe) : Option Pipe :=
  match s.writer with
  | .idle _ => some (s.close none)
  | _ => none

/-- A condition variable may wake by itself. -/
def wake (s : Pipe) : Option Pipe :=
  match s.writer with
  | .asleep _ _ => some s.notify
  | _ => none

inductive Act where
  | call (c : Call)
  | drop
  | go
  | refuse
  | wake
  | read (n : ℕ)
  | sourceGo
  | put (data : List UInt8)
  | sinkGo
  | encoderEnds (r : ThreadEnd)
  | threadGo

/-- One step of either side. -/
def step (s : Pipe) : Act → Option Pipe
  | .call c => s.call c
  | .drop => s.drop
  | .go => s.go
  | .refuse => s.refuse
  | .wake => s.wake
  | .read n => s.readCall n
  | .sourceGo => s.sourceGo
  | .put data => s.put data
  | .sinkGo => s.sinkGo
  | .encoderEnds r => s.encoderEnds r
  | .threadGo => s.threadGo

/-- A run of so many steps in this order. -/
def run (s : Pipe) : List Act → Option Pipe
  | [] => some s
  | a :: acts =>
      match s.step a with
      | none => none
      | some s' => run s' acts

end Pipe

end LzmaTurbo.Enc
