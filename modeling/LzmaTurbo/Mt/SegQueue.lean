import Mathlib.Data.List.Dedup
import Mathlib.Data.Nat.Notation

/-!
# The input a fed decoder holds

The pieces as they arrived, the references to them that workers have, and the buffers kept for
the next piece. Buffers and handles are numbers, so that one can be used again.
-/
namespace LzmaTurbo.Mt

/-- `RECENT_PIECES`. -/
def recentPieces : ℕ := 8

/-- A subtraction of counters; nothing where it would go below zero. -/
def checkedSub (a b : ℕ) : Option ℕ := if b ≤ a then some (a - b) else none

/-- `Vec::swap_remove`. -/
def swapRemove {α : Type} (l : List α) (i : ℕ) : Option (α × List α) :=
  match l[i]?, l.getLast? with
  | some a, some z => some (a, (l.set i z).dropLast)
  | _, _ => none

/-- Where `min_by_key` of an enumeration finds the first of the smallest. -/
def minAt (key : ℕ → ℕ) : List ℕ → Option ℕ
  | [] => none
  | b :: bs =>
      match minAt key bs with
      | none => some 0
      | some i => if key b ≤ key (bs.getD i 0) then some 0 else some (i + 1)

/-- Where `max_by_key` of an enumeration finds the last of the largest. -/
def maxAt (key : ℕ → ℕ) : List ℕ → Option ℕ
  | [] => none
  | b :: bs =>
      match maxAt key bs with
      | none => some 0
      | some i => if key (bs.getD i 0) < key b then some 0 else some (i + 1)

/-- `Seg`: the numbers of its handle and of the buffer behind that, its range in the buffer and
its place in the stream. -/
structure Seg where
  handle : ℕ
  data : ℕ
  lo : ℕ
  hi : ℕ
  start : ℕ
  charge : ℕ
  owned : Bool
deriving Repr, DecidableEq

/-- `Seg::end`. -/
def Seg.stop (s : Seg) : ℕ := s.start + (s.hi - s.lo)

/-- `SegQueue`. -/
structure SegQueue where
  q : List Seg
  lent : List Seg
  base : ℕ
  stop : ℕ
  held : ℕ
  spare : List ℕ
  spareBytes : ℕ
  parkRoom : ℕ
  parkSlots : ℕ
  recent : List ℕ
  recentAt : ℕ
deriving Repr, DecidableEq

/-- An empty queue with its budget for what is parked. -/
def SegQueue.new (room slots : ℕ) : SegQueue :=
  ⟨[], [], 0, 0, 0, [], 0, room, slots, List.replicate recentPieces 0, 0⟩

/-- What the buffers hold, and how much each could. -/
structure Heap where
  bytes : ℕ → List UInt8
  capacity : ℕ → ℕ

def Heap.write (m : Heap) (buf : ℕ) (bytes : List UInt8) (capacity : ℕ) : Heap :=
  ⟨Function.update m.bytes buf bytes, Function.update m.capacity buf capacity⟩

/-- `Seg::bytes`. -/
def Seg.bytes (m : Heap) (s : Seg) : List UInt8 := ((m.bytes s.data).take s.hi).drop s.lo

/-- The queue among those it shares its pieces with: the claims out with workers, the buffers
that the caller keeps a reference to, what the workers let go of before each of the next looks
at a count, and, to compare with, everything that was ever pushed. -/
structure World where
  queue : SegQueue
  claims : List Seg
  shared : List ℕ
  heap : Heap
  handles : ℕ
  later : List (List ℕ)
  stream : List UInt8

namespace SegQueue

/-- `piece_size`. -/
def pieceSize (sq : SegQueue) : ℕ := sq.recent.foldl max 0

/-- `push`, of a range that is not empty. -/
def push (sq : SegQueue) (handle data lo hi charge : ℕ) (owned : Bool) : SegQueue :=
  { sq with
    q := sq.q ++ [⟨handle, data, lo, hi, sq.stop, charge, owned⟩]
    stop := sq.stop + (hi - lo)
    held := sq.held + charge
    recent := sq.recent.set sq.recentAt (hi - lo)
    recentAt := (sq.recentAt + 1) % recentPieces }

/-- `set_park_budget`. -/
def setParkBudget (sq : SegQueue) (room slots : ℕ) : SegQueue :=
  { sq with parkRoom := room, parkSlots := slots }

/-- `take_spare`. -/
def takeSpare (capacity : ℕ → ℕ) (sq : SegQueue) : Option (Option ℕ × SegQueue) :=
  match maxAt capacity sq.spare with
  | none => some (none, sq)
  | some i => do
      let (buf, spare) ← swapRemove sq.spare i
      let spareBytes ← checkedSub sq.spareBytes (capacity buf)
      let held ← checkedSub sq.held (capacity buf)
      return (some buf, { sq with spare, spareBytes, held })

/-- `shed_spare`. -/
def shedSpare (sq : SegQueue) : Option (ℕ × SegQueue) := do
  let held ← checkedSub sq.held sq.spareBytes
  return (sq.spareBytes, { sq with spare := [], held, spareBytes := 0 })

/-- The loop of `shed_spare_down`, over the spare buffers from the last. -/
def shedLoop (capacity : ℕ → ℕ) (want : ℕ) : ℕ → List ℕ → ℕ → List ℕ × ℕ
  | 0, spare, shed => (spare, shed)
  | n + 1, spare, shed =>
      if want ≤ shed then (spare, shed)
      else
        match spare.getLast? with
        | none => (spare, shed)
        | some buf => shedLoop capacity want n spare.dropLast (shed + capacity buf)

/-- `shed_spare_down`. -/
def shedSpareDown (capacity : ℕ → ℕ) (sq : SegQueue) (want : ℕ) : Option (ℕ × SegQueue) := do
  let (spare, shed) := shedLoop capacity want sq.spare.length sq.spare 0
  let held ← checkedSub sq.held shed
  let spareBytes ← checkedSub sq.spareBytes shed
  return (shed, { sq with spare, held, spareBytes })

/-- The search of `index_of`, between two positions. -/
def indexLoop (q : List Seg) (offset : ℕ) : ℕ → ℕ → ℕ → Option ℕ
  | 0, _, _ => none
  | n + 1, lo, hi =>
      if lo < hi then
        let mid := lo + (hi - lo) / 2
        match q[mid]? with
        | none => none
        | some seg =>
            if offset < seg.start then indexLoop q offset n lo mid
            else if seg.stop ≤ offset then indexLoop q offset n (mid + 1) hi
            else some mid
      else none

/-- `index_of`. -/
def indexOf (sq : SegQueue) (offset : ℕ) : Option ℕ :=
  indexLoop sq.q offset (sq.q.length + 1) 0 sq.q.length

/-- The loop of `claim` over the pieces from the first. -/
def claimLoop (start stop : ℕ) : List Seg → List Seg
  | [] => []
  | seg :: q =>
      if stop ≤ seg.start then []
      else
        let from' := max start seg.start - seg.start
        let to' := min stop seg.stop - seg.start
        { seg with
          lo := seg.lo + from', hi := seg.lo + to', start := seg.start + from'
          charge := 0, owned := false } :: claimLoop start stop q

/-- `claim`. -/
def claim (sq : SegQueue) (start stop : ℕ) : Option (List Seg) :=
  if start < sq.base ∨ sq.stop < stop ∨ stop ≤ start then none
  else do
    let first ← sq.indexOf start
    return claimLoop start stop (sq.q.drop first)

/-- `clear`. -/
def clear (sq : SegQueue) : SegQueue :=
  { sq with q := [], lent := [], spare := [], spareBytes := 0, held := 0, base := sq.stop }

end SegQueue

namespace World

/-- Every piece that someone holds. -/
def segs (w : World) : List Seg := w.queue.q ++ w.queue.lent ++ w.claims

/-- How many of them are by one handle. -/
def count (w : World) (handle : ℕ) : ℕ := w.segs.countP (·.handle = handle)

/-- The handles by which one buffer is held. -/
def handlesOf (w : World) (data : ℕ) : List ℕ :=
  ((w.segs.filter (·.data = data)).map (·.handle)).dedup

/-- Workers let go of some pieces of their claims. -/
def dropClaims (w : World) (ks : List ℕ) : World :=
  { w with claims := ks.foldl List.eraseIdx w.claims }

/-- What has been let go of by the next look at a count. -/
def look (w : World) : World :=
  { w.dropClaims (w.later.headD []) with later := w.later.tail }

/-- The end of `give_back`: a buffer of the decoder's own is parked, or freed. -/
def park (w : World) (buf : ℕ) : Option World :=
  let sq := w.queue
  let cap := w.heap.capacity buf
  let size := sq.pieceSize
  let parked (spare : List ℕ) (spareBytes held : ℕ) : World :=
    { w with
      heap := w.heap.write buf [] cap
      queue := { sq with spare := spare ++ [buf], spareBytes := spareBytes + cap
                         held := held + cap } }
  if size ≠ 0 ∧ min (size * 2) 0xFFFFFFFFFFFFFFFF < cap then some w
  else if sq.spare ≠ [] ∧
      (sq.parkSlots ≤ sq.spare.length ∨ sq.parkRoom < sq.spareBytes + cap) then
    match minAt w.heap.capacity sq.spare with
    | none => some w
    | some index =>
        let smallCap := w.heap.capacity (sq.spare.getD index 0)
        if cap ≤ smallCap ∨ sq.parkSlots < sq.spare.length then some w
        else do
          let spareBytes ← checkedSub sq.spareBytes smallCap
          if sq.parkRoom < spareBytes + cap then some w
          else do
            let (_, spare) ← swapRemove sq.spare index
            let held ← checkedSub sq.held smallCap
            some (parked spare spareBytes held)
  else some (parked sq.spare sq.spareBytes sq.held)

/-- `give_back`, of a piece that is in neither list any more. The two counts are those that
`Arc::try_unwrap` compares with one. -/
def giveBack (w : World) (seg : Seg) : Option World := do
  let held ← checkedSub w.queue.held seg.charge
  let w := { w with queue := { w.queue with held } }
  if seg.owned = false then some w
  else if 1 + w.count seg.handle ≠ 1 then some w
  else if 1 + (w.handlesOf seg.data).length + w.shared.count seg.data ≠ 1 then some w
  else w.park seg.data

/-- `release`, of a piece just taken from the queue. -/
def release (w : World) (seg : Seg) : Option World :=
  let w := w.look
  if 1 < 1 + w.count seg.handle then
    some { w with queue := { w.queue with lent := w.queue.lent ++ [seg] } }
  else w.giveBack seg

/-- The loop of `sweep` from position `i`, with `n` pieces to look at. -/
def sweepLoop : ℕ → ℕ → World → Option World
  | 0, _, w => some w
  | n + 1, i, w =>
      let w := w.look
      match w.queue.lent[i]? with
      | none => some w
      | some seg =>
          if w.count seg.handle = 1 then do
            let (seg, lent) ← swapRemove w.queue.lent i
            let w ← ({ w with queue := { w.queue with lent } } : World).giveBack seg
            sweepLoop n i w
          else sweepLoop n (i + 1) w

/-- `sweep`. -/
def sweep (w : World) : Option World := sweepLoop w.queue.lent.length 0 w

/-- The loop of `retain_from` over at most `n` pieces. -/
def retainLoop (cursor : ℕ) : ℕ → World → Option World
  | 0, w => some w
  | n + 1, w =>
      match w.queue.q with
      | [] => some w
      | front :: q =>
          if cursor < front.stop then some w
          else do
            let w ← ({ w with queue := { w.queue with q, base := front.stop } } : World).release
              front
            retainLoop cursor n w

/-- `retain_from`. -/
def retainFrom (w : World) (cursor : ℕ) : Option World := do
  let w ← retainLoop cursor w.queue.q.length w
  let base :=
    match w.queue.q with
    | front :: _ => if front.start < cursor then cursor else w.queue.base
    | [] => w.queue.base
  ({ w with queue := { w.queue with base } } : World).sweep

/-- `push`, by a new handle. -/
def push (w : World) (data lo hi charge : ℕ) (owned : Bool) : World :=
  if hi ≤ lo then w
  else
    { w with
      queue := w.queue.push w.handles data lo hi charge owned
      handles := w.handles + 1
      stream := w.stream ++ ((w.heap.bytes data).take hi).drop lo }

/-- Nobody holds a buffer: it was never allocated, or was freed, or was handed out as a spare. -/
def Free (w : World) (buf : ℕ) : Prop :=
  buf ∉ w.shared ∧ buf ∉ w.queue.spare ∧ ∀ s ∈ w.segs, s.data ≠ buf

end World

/-- What the decoder, its caller and its workers can do. A buffer that is pushed or shared is
written first, by whoever has it. -/
inductive SegEvent where
  | share (buf : ℕ) (bytes : List UInt8) (capacity : ℕ)
  | unshare (buf : ℕ)
  | pushOwned (buf : ℕ) (bytes : List UInt8) (capacity : ℕ)
  | pushShared (buf lo hi : ℕ)
  | claim (start stop : ℕ)
  | setParkBudget (room slots : ℕ)
  | retainFrom (cursor : ℕ) (later : List (List ℕ))
  | sweep (later : List (List ℕ))
  | takeSpare
  | shedSpare
  | shedSpareDown (want : ℕ)
  | dropClaims (ks : List ℕ)
  | clear

/-- The budget that an event sets. -/
def SegEvent.budgets : SegEvent → List (ℕ × ℕ)
  | .setParkBudget room slots => [(room, slots)]
  | _ => []

namespace World

/-- What the ownership of buffers and the callers' own checks allow. -/
def Allowed (w : World) : SegEvent → Prop
  | .share buf bytes capacity => w.Free buf ∧ bytes.length ≤ capacity
  | .pushOwned buf bytes capacity => w.Free buf ∧ bytes.length ≤ capacity
  | .pushShared buf lo hi => buf ∈ w.shared ∧ lo ≤ hi ∧ hi ≤ (w.heap.bytes buf).length
  | _ => True

instance (w : World) (buf : ℕ) : Decidable (w.Free buf) :=
  inferInstanceAs (Decidable (_ ∧ _ ∧ ∀ s ∈ w.segs, _))

instance (w : World) (e : SegEvent) : Decidable (w.Allowed e) :=
  match e with
  | .share _ _ _ | .pushOwned _ _ _ => inferInstanceAs (Decidable (w.Free _ ∧ _ ≤ _))
  | .pushShared _ _ _ => inferInstanceAs (Decidable (_ ∧ _ ∧ _))
  | .unshare _ | .claim _ _ | .setParkBudget _ _ | .retainFrom _ _ | .sweep _ | .takeSpare
  | .shedSpare | .shedSpareDown _ | .dropClaims _ | .clear => isTrue trivial

/-- One of these; nothing where a counter would go below zero. -/
def step (w : World) : SegEvent → Option World
  | .share buf bytes capacity =>
      some { w with heap := w.heap.write buf bytes capacity, shared := buf :: w.shared }
  | .unshare buf => some { w with shared := w.shared.erase buf }
  | .pushOwned buf bytes capacity =>
      some (({ w with heap := w.heap.write buf bytes capacity } : World).push buf 0 bytes.length
        capacity true)
  | .pushShared buf lo hi => some (w.push buf lo hi (hi - lo) false)
  | .claim start stop =>
      some { w with claims := w.claims ++ (w.queue.claim start stop).getD [] }
  | .setParkBudget room slots => some { w with queue := w.queue.setParkBudget room slots }
  | .retainFrom cursor later => ({ w with later } : World).retainFrom cursor
  | .sweep later => ({ w with later } : World).sweep
  | .takeSpare => do
      let (_, queue) ← w.queue.takeSpare w.heap.capacity
      return { w with queue }
  | .shedSpare => do
      let (_, queue) ← w.queue.shedSpare
      return { w with queue }
  | .shedSpareDown want => do
      let (_, queue) ← w.queue.shedSpareDown w.heap.capacity want
      return { w with queue }
  | .dropClaims ks => some (w.dropClaims ks)
  | .clear => some { w with queue := w.queue.clear }

/-- An empty queue with any budget, and what it can become under the budgets set so far. -/
inductive Reachable : List (ℕ × ℕ) → World → Prop
  | start (room slots : ℕ) (heap : Heap) :
      Reachable [(room, slots)] ⟨SegQueue.new room slots, [], [], heap, 0, [], []⟩
  | step {budgets : List (ℕ × ℕ)} {w w' : World} (e : SegEvent) : Reachable budgets w →
      w.Allowed e → w.step e = some w' → Reachable (e.budgets ++ budgets) w'

end World
end LzmaTurbo.Mt
