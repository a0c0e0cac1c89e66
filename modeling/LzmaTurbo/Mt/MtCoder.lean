import Mathlib.Tactic.Linarith
import Mathlib.Logic.Function.Basic

/-!
# The block coder

Workers take the input block by block, code the blocks at the same time and write them in
order. Each is a machine of its own. A step holds one access that another worker can come
before or after; the others in it are to what the read token, the place in the ring or the
write turn keeps to this worker. What the input and the callback answer is a part of the step.

`seq`, `opened`, `retired`, `calls`, `emits` and `failed` are not in the source: they number
the blocks in the order in which they are read and note what the callback was asked to code,
what has gone out whole, and which read, code or write failed.
-/
namespace LzmaTurbo.Mt

/-- `THREADS_MAX`. -/
def threadsMax : ℕ := 256

/-- `num_blocks_from_threads`. -/
def numBlocksFromThreads (numThreads : ℕ) : ℕ := numThreads + numThreads / 8 + 1

/-- `BLOCKS_MAX`. -/
def blocksMax : ℕ := numBlocksFromThreads threadsMax + 3

/-- `MtCoder`: its input is a slice or a stream, and `coded` is what the callback makes of a
block that is or is not the last. -/
structure MtCoder where
  blockSize : ℕ
  numThreadsMax : ℕ
  expectedDataSize : ℕ
  stream : Bool
  source : List UInt8
  directOutput : Bool
  coded : List UInt8 → Bool → List UInt8

namespace MtCoder

def numThreads (c : MtCoder) : ℕ := min (max c.numThreadsMax 1) threadsMax

/-- `num_blocks_max`: small blocks get more of them in flight. -/
def numBlocksMax (c : MtCoder) : ℕ :=
  min (numBlocksFromThreads c.numThreads + (if c.blockSize < 2 ^ 26 then 1 else 0) +
    (if c.blockSize < 2 ^ 24 then 1 else 0) + (if c.blockSize < 2 ^ 22 then 1 else 0)) blocksMax

end MtCoder

/-- `Block`. -/
structure Block (E : Type) where
  res : Option E
  bufIndex : Option ℕ
  finished : Bool
  delivered : Bool
deriving Repr, DecidableEq

/-- The locals of a worker that has a block: `bi`, later `wi`, and `owns` once it has the
write turn. -/
structure Job (E : Type) where
  seq : ℕ
  bi : ℕ
  src : List UInt8
  finished : Bool
  res : Option E
  bufIndex : Option ℕ
  delivered : Bool
  owns : Bool
deriving Repr, DecidableEq

inductive Stage where
  | opened
  | claimed
  | coding
  | coded
  | writing
  | retiring
deriving Repr, DecidableEq

/-- Where a worker is: before `read_event`, with the read token before and after the read,
with a block, or on its way out with its place among those that have finished. -/
inductive Phase (E : Type) where
  | idle
  | wait
  | checked (res : Option E)
  | hasRead (src : List UInt8) (finished : Bool) (res : Option E)
  | job (stage : Stage) (j : Job E)
  | leaving
  | out (n : ℕ)
  | gone
deriving Repr, DecidableEq

/-- `Run`, with the callback's buffers and its sink. A result is the error in it. -/
structure Run (E : Type) where
  stopReading : Bool
  readRes : Option E
  readProcessed : ℕ
  blockIndex : ℕ
  numStartedThreads : ℕ
  freeBlockHead : ℕ
  freeBlockList : ℕ → ℕ
  readyBlocks : ℕ → Bool
  writeIndex : Option ℕ
  blocks : ℕ → Block E
  writeRes : Option E
  error : Option E
  readEvent : Bool
  semaphore : ℕ
  finishedEvent : Bool
  numFinishedThreads : ℕ
  threads : ℕ → Phase E
  bufs : ℕ → List UInt8
  sink : List UInt8
  opened : ℕ
  retired : ℕ
  calls : List (ℕ × List UInt8 × Bool)
  emits : List ℕ
  failed : List (ℕ × E)

/-- What the input or the callback answers: the error, if it fails, and after how many bytes
of output; and whether a block that owns the write turn has been delivered. -/
structure Reply (E : Type) where
  fails : Option E
  part : ℕ
  done : Bool
deriving Repr, DecidableEq

namespace Run
variable {E : Type} (c : MtCoder) (w : Run E) (i : ℕ)

def goTo (p : Phase E) : Run E := { w with threads := Function.update w.threads i p }

/-- `set_error`, which keeps the first, for the block `s`. -/
def setError (s : ℕ) (e : E) : Run E :=
  { w with error := w.error.or (some e), failed := w.failed ++ [(s, e)] }

/-- The next index of the ring of blocks. -/
def next (bi : ℕ) : ℕ := if c.numBlocksMax ≤ bi + 1 then 0 else bi + 1

/-- The read token, and the first look at the error. -/
def takeToken : Option (Run E) :=
  if w.readEvent = false then none
  else if w.stopReading then some (w.goTo i .leaving)
  else some (({ w with readEvent := false } : Run E).goTo i (.checked w.error))

/-- `read_max`, or the next part of the slice. -/
def readBlock (res : Option E) (reply : Reply E) : Run E :=
  let src := (c.source.drop w.readProcessed).take c.blockSize
  if res.isSome then w.goTo i (.hasRead [] true res)
  else if c.stream then
    match reply.fails with
    | some e =>
        (({ w with readRes := some e } : Run E).setError w.opened e).goTo i
          (.hasRead [] true (some e))
    | none =>
        ({ w with readProcessed := w.readProcessed + src.length } : Run E).goTo i
          (.hasRead src (src.length != c.blockSize) none)
  else
    ({ w with readProcessed := w.readProcessed + src.length } : Run E).goTo i
      (.hasRead src (w.readProcessed + src.length == c.source.length) none)

/-- A place in the ring, perhaps another worker, and the token back. -/
def openBlock (src : List UInt8) (finished : Bool) (res : Option E) : Option (Run E) :=
  if w.semaphore = 0 then none
  else
    let res := res.or w.error
    let finished := finished || res.isSome
    let spawns := !finished && decide (w.numStartedThreads < c.numThreads) &&
      c.expectedDataSize != w.readProcessed
    let job := { seq := w.opened, bi := w.blockIndex, src, finished, res, bufIndex := none
                 delivered := false, owns := false }
    some { w with
      semaphore := w.semaphore - 1
      blockIndex := next c w.blockIndex
      numStartedThreads := if spawns then w.numStartedThreads + 1 else w.numStartedThreads
      stopReading := w.stopReading || finished
      readEvent := true
      opened := w.opened + 1
      threads := Function.update
        (if spawns then Function.update w.threads w.numStartedThreads .wait else w.threads) i
        (.job .opened job) }

/-- A block whose turn it is may be written while it is coded. -/
def claimTurn (j : Job E) : Run E :=
  if j.res.isSome then w.goTo i (.job .coded j)
  else if c.directOutput && w.writeIndex == some j.bi then
    ({ w with writeIndex := none } : Run E).goTo i (.job .claimed { j with owns := true })
  else w.goTo i (.job .claimed j)

/-- A buffer from the free list. -/
def takeBuffer (j : Job E) : Run E :=
  ({ w with freeBlockHead := w.freeBlockList w.freeBlockHead } : Run E).goTo i
    (.job .coding { j with bufIndex := some w.freeBlockHead })

/-- The callback codes the block: into its buffer or, where it owns the turn, right out. -/
def codeBlock (j : Job E) (reply : Reply E) : Run E :=
  let out := c.coded j.src j.finished
  let buf := j.bufIndex.getD 0
  let w := { w with calls := w.calls ++ [(j.seq, j.src, j.finished)] }
  match reply.fails with
  | some e =>
      if j.owns then
        (({ w with sink := w.sink ++ out.take reply.part } : Run E).setError j.seq e).goTo i
          (.job .coded { j with res := some e })
      else (w.setError j.seq e).goTo i (.job .coded { j with res := some e })
  | none =>
      if j.owns && reply.done then
        ({ w with sink := w.sink ++ out, emits := w.emits ++ [j.seq] } : Run E).goTo i
          (.job .coded { j with delivered := true })
      else
        ({ w with bufs := Function.update w.bufs buf out } : Run E).goTo i (.job .coded j)

/-- After a block, or a row of them: another, or the end. -/
def onward (finished : Bool) (res : Option E) : Phase E :=
  if finished || res.isSome then .leaving else .wait

/-- The block is noted; its worker takes the write turn, or leaves the block to who has it. -/
def handOff (j : Job E) : Run E :=
  let w := { w with
    blocks := Function.update w.blocks j.bi ⟨j.res, j.bufIndex, j.finished, j.delivered⟩ }
  if j.owns then w.goTo i (.job .writing { j with res := w.writeRes.or j.res })
  else if w.writeIndex = some j.bi then
    ({ w with writeIndex := none } : Run E).goTo i
      (.job .writing { j with owns := true, res := w.writeRes.or j.res })
  else
    ({ w with readyBlocks := Function.update w.readyBlocks j.bi true } : Run E).goTo i
      (onward j.finished j.res)

/-- `write`, if there is something to write. -/
def writeBlock (j : Job E) (reply : Reply E) : Run E :=
  match j.res, j.bufIndex, j.delivered with
  | none, some buf, false =>
      match reply.fails with
      | some e =>
          (({ w with sink := w.sink ++ (w.bufs buf).take reply.part, writeRes := some e } :
            Run E).setError j.seq e).goTo i (.job .retiring { j with res := some e })
      | none =>
          ({ w with sink := w.sink ++ w.bufs buf, emits := w.emits ++ [j.seq] } : Run E).goTo i
            (.job .retiring j)
  | _, _, _ => w.goTo i (.job .retiring j)

/-- The buffer goes back, and the turn to the next block: at once if it is ready. -/
def retireBlock (j : Job E) : Run E :=
  let wi := next c j.bi
  let w := { w with
    freeBlockList := match j.bufIndex with
      | some b => Function.update w.freeBlockList b w.freeBlockHead
      | none => w.freeBlockList
    freeBlockHead := j.bufIndex.getD w.freeBlockHead
    semaphore := w.semaphore + 1
    retired := w.retired + 1 }
  if w.readyBlocks wi then
    let block := w.blocks wi
    ({ w with readyBlocks := Function.update w.readyBlocks wi false } : Run E).goTo i
      (.job .writing { seq := j.seq + 1, bi := wi, src := [], finished := block.finished
                       res := j.res.or block.res, bufIndex := block.bufIndex
                       delivered := block.delivered, owns := true })
  else ({ w with writeIndex := some wi } : Run E).goTo i (onward j.finished j.res)

def leave : Run E :=
  ({ w with numFinishedThreads := w.numFinishedThreads + 1 } : Run E).goTo i
    (.out (w.numFinishedThreads + 1))

/-- The last one out sets `finished_event`; it waits for the lock of the read state. -/
def countOut (n : ℕ) : Option (Run E) :=
  if w.readEvent = false then none
  else some (({ w with
    finishedEvent := w.finishedEvent || n == w.numStartedThreads } : Run E).goTo i .gone)

/-- What the worker `i` does next. -/
def step (reply : Reply E) : Option (Run E) :=
  match w.threads i with
  | .idle => none
  | .wait => w.takeToken i
  | .checked res => some (w.readBlock c i res reply)
  | .hasRead src finished res => w.openBlock c i src finished res
  | .job .opened j => some (w.claimTurn c i j)
  | .job .claimed j => some (w.takeBuffer i j)
  | .job .coding j => some (w.codeBlock c i j reply)
  | .job .coded j => some (w.handOff i j)
  | .job .writing j => some (w.writeBlock i j reply)
  | .job .retiring j => some (w.retireBlock c i j)
  | .leaving => some (w.leave i)
  | .out n => w.countOut i n
  | .gone => none

/-- `MtCoder::code`, up to its first worker. -/
def start : Run E :=
  { stopReading := false, readRes := none, readProcessed := 0, blockIndex := 0
    numStartedThreads := 1, freeBlockHead := 0
    freeBlockList := fun b => if b = blocksMax - 1 then 2 ^ 64 - 1 else b + 1
    readyBlocks := fun _ => false, writeIndex := some 0
    blocks := fun _ => ⟨none, none, false, false⟩, writeRes := none, error := none
    readEvent := true, semaphore := c.numBlocksMax, finishedEvent := false
    numFinishedThreads := 0, threads := Function.update (fun _ => .idle) 0 .wait
    bufs := fun _ => [], sink := [], opened := 0, retired := 0, calls := [], emits := []
    failed := [] }

/-- What `MtCoder::code` returns once `finished_event` is set. -/
def result : Option E := w.error.or (w.readRes.or w.writeRes)

/-- Who moves, and what it is answered. -/
structure Move (E : Type) where
  worker : ℕ
  reply : Reply E

def moves (w : Run E) : List (Move E) → Option (Run E)
  | [] => some w
  | m :: ms => do
      let w ← w.step c m.worker m.reply
      moves w ms

end Run
end LzmaTurbo.Mt
