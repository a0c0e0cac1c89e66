import LzmaTurbo.Filters.Bcj2

/-!
# The BCJ2 decoder
-/
namespace LzmaTurbo.Filters

/-- `DEC_STATE_ORIG_0`. -/
def decStateOrig0 : ℕ := bcj2NumStreams
/-- `DEC_STATE_ORIG`. -/
def decStateOrig : ℕ := bcj2NumStreams + 4
/-- `DEC_STATE_ERROR`. -/
def decStateError : ℕ := bcj2NumStreams + 5

/-- What is left of the four slices of a call, the room left in its window, and what has
been written to it. -/
structure Bcj2DecStreams where
  main : List UInt8
  call : List UInt8
  jump : List UInt8
  rc : List UInt8
  room : ℕ
  dest : List UInt8
deriving Repr, DecidableEq

namespace Bcj2DecStreams

/-- The call or the jump slice. -/
def side (s : Bcj2DecStreams) (cj : ℕ) : List UInt8 := if cj = streamCall then s.call else s.jump

def setSide (s : Bcj2DecStreams) (cj : ℕ) (rest : List UInt8) : Bcj2DecStreams :=
  if cj = streamCall then { s with call := rest } else { s with jump := rest }

def put (s : Bcj2DecStreams) (b : UInt8) : Bcj2DecStreams :=
  { s with room := s.room - 1, dest := s.dest ++ [b] }

/-- `n` bytes of the main slice copied to the window. -/
def copy (s : Bcj2DecStreams) (n : ℕ) : Bcj2DecStreams :=
  { s with main := s.main.drop n, room := s.room - n, dest := s.dest ++ s.main.take n }

@[simp] theorem setSide_main (s : Bcj2DecStreams) (cj : ℕ) (rest : List UInt8) :
    (s.setSide cj rest).main = s.main := by
  unfold setSide
  split <;> rfl

/-- The call and the jump slices are whole words. -/
def Aligned (s : Bcj2DecStreams) : Prop := s.call.length % 4 = 0 ∧ s.jump.length % 4 = 0

instance (s : Bcj2DecStreams) : Decidable s.Aligned := inferInstanceAs (Decidable (_ ∧ _))

end Bcj2DecStreams

structure Bcj2Dec where
  state : ℕ
  ip : UInt32
  temp : UInt32
  range : ℕ
  code : ℕ
  probs : ℕ → ℕ

namespace Bcj2Dec

/-- `with_ip`; `new` is at address zero. -/
def withIp (ip : UInt32) : Bcj2Dec :=
  { state := streamRc, ip, temp := 0, range := 0, code := 0,
    probs := fun _ => bcj2BitModelTotal / 2 }

/-- A stream by its number. -/
def streamOf (s : Bcj2DecStreams) (i : ℕ) : List UInt8 :=
  if i = streamMain then s.main else if i = streamRc then s.rc else s.side i

/-- `required_input`. -/
def requiredInput (d : Bcj2Dec) : Option ℕ :=
  if d.state < bcj2NumStreams then some d.state else none

/-- `is_maybe_finished`. -/
def isMaybeFinished (d : Bcj2Dec) : Bool := d.state == streamMain && d.code == 0

/-- The code with the next byte of the range-coded stream. -/
def shifted (code : ℕ) (b : UInt8) : ℕ := (code * 256 + b.toNat) % 0x100000000

inductive Primed where
  | ready
  | starved
  | bad

/-- The first five bytes; `range` counts them. -/
def primeLoop (d : Bcj2Dec) : List UInt8 → Primed × Bcj2Dec × List UInt8
  | [] =>
      if d.range = 5 then (.ready, d, [])
      else if d.range = 1 ∧ d.code ≠ 0 then (.bad, d, [])
      else (.starved, d, [])
  | b :: rc =>
      if d.range = 5 then (.ready, d, b :: rc)
      else if d.range = 1 ∧ d.code ≠ 0 then (.bad, d, b :: rc)
      else primeLoop { d with code := shifted d.code b, range := d.range + 1 } rc

/-- The bytes of a branch target that are still to be written: how many are left when the
room is used up, and the value behind them. -/
def flushTarget : ℕ → UInt32 → Bcj2DecStreams → ℕ × UInt32 × Bcj2DecStreams
  | 0, v, s => (0, v, s)
  | left + 1, v, s =>
      if s.room = 0 then (left + 1, v, s)
      else if left = 0 then (0, v, s.put v.toUInt8)
      else flushTarget left (v >>> 8) (s.put v.toUInt8)

/-- The loop `for _ in 0..rem` over a target that does not fit. -/
def putPart : ℕ → UInt32 → Bcj2DecStreams → UInt32 × Bcj2DecStreams
  | 0, v, s => (v, s)
  | rem + 1, v, s => putPart rem (v >>> 8) (s.put v.toUInt8)

/-- `set_u32le`. -/
def putWhole (v : UInt32) (s : Bcj2DecStreams) : Bcj2DecStreams :=
  (((s.put v.toUInt8).put (v >>> 8).toUInt8).put (v >>> 16).toUInt8).put (v >>> 24).toUInt8

@[simp] theorem putWhole_main (v : UInt32) (s : Bcj2DecStreams) : (putWhole v s).main = s.main :=
  rfl

/-- One byte of the range-coded stream. -/
def normalized (d : Bcj2Dec) (b : UInt8) : Bcj2Dec :=
  { d with range := d.range * 256, code := shifted d.code b }

/-- The bit for the marker in `v`: whether its offset was converted. -/
def decodeBit (d : Bcj2Dec) (v : UInt32) : Bool × Bcj2Dec :=
  let ttt := d.probs (probIndex v)
  let bound := d.range / bcj2BitModelTotal * ttt
  if d.code < bound then
    (false, { d with
      range := bound
      probs := Function.update d.probs (probIndex v) (ttt + (bcj2BitModelTotal - ttt) / 32) })
  else
    (true, { d with
      range := d.range - bound
      code := d.code - bound
      probs := Function.update d.probs (probIndex v) (ttt - ttt / 32) })

/-- The last normalization of a call, if there is a byte for it. -/
def lastNormalize (d : Bcj2Dec) (s : Bcj2DecStreams) : Bcj2Dec × Bcj2DecStreams :=
  if d.range < bcj2TopValue then
    match s.rc with
    | [] => (d, s)
    | b :: rc => (d.normalized b, { s with rc })
  else (d, s)

/-- How a turn of the main loop ends: the call returns, or there is another turn. -/
inductive Turn where
  | stop (d : Bcj2Dec) (s : Bcj2DecStreams)
  | again (d : Bcj2Dec) (v : UInt32) (s : Bcj2DecStreams)

/-- A converted branch: an absolute target, turned back into an offset. -/
def branchTurn (d : Bcj2Dec) (v : UInt32) (s : Bcj2DecStreams) : Turn :=
  match s.side (branchStream v) with
  | a :: b :: c :: e :: rest =>
      let s := s.setSide (branchStream v) rest
      let d := { d with ip := d.ip + 4 }
      let v := getBe32 a b c e - d.ip
      if s.room < 4 then
        let part := putPart s.room v s
        let last := lastNormalize
          { d with temp := part.1, state := decStateOrig0 + s.room } part.2
        .stop last.1 last.2
      else .again d (v >>> 24) (putWhole v s)
  | _ =>
      let last := lastNormalize { d with state := branchStream v } s
      .stop last.1 last.2

/-- A turn past its normalization. -/
def scanTurn (scan : MainScan) (d : Bcj2Dec) (v : UInt32) (s : Bcj2DecStreams) : Turn :=
  let scanned := scan.scan s.main s.room v
  let s := s.copy scanned.1
  let d := { d with ip := d.ip + UInt32.ofNat scanned.1 }
  let v := scanned.2.1
  if scanned.2.2 then
    let bit := d.decodeBit v
    if bit.1 then branchTurn bit.2 v s else .again bit.2 v s
  -- Running out of input comes before running out of room.
  else .stop { d with state := if s.main = [] then streamMain else decStateOrig, temp := v } s

def mainTurn (scan : MainScan) (d : Bcj2Dec) (v : UInt32) (s : Bcj2DecStreams) : Turn :=
  if d.range < bcj2TopValue then
    match s.rc with
    | [] => .stop { d with state := streamRc, temp := v } s
    | b :: rc => scanTurn scan (d.normalized b) v { s with rc }
  else scanTurn scan d v s

theorem branchStream_side (v : UInt32) : is32bitStream (branchStream v) = true := by
  have hbit : ∀ w : UInt32, (w &&& 1).toNat = 0 ∨ (w &&& 1).toNat = 1 := by
    intro w
    rw [UInt32.toNat_and]
    have := Nat.and_one_is_mod w.toNat
    change w.toNat &&& 1 = 0 ∨ w.toNat &&& 1 = 1
    omega
  unfold branchStream
  rcases hbit ((v + 0x57) >>> 6) with h | h <;> simp [is32bitStream, h, streamCall, streamJump]

theorem scanTurn_shorter {scan : MainScan} {d d' : Bcj2Dec} {v v' : UInt32}
    {s s' : Bcj2DecStreams} (h : scanTurn scan d v s = .again d' v' s') :
    s'.main.length < s.main.length := by
  have hle := scan.le_length s.main s.room v
  have hdrop : (s.copy (scan.scan s.main s.room v).1).main.length =
      s.main.length - (scan.scan s.main s.room v).1 := List.length_drop
  unfold scanTurn at h
  dsimp only at h
  split at h
  next hf =>
    have hpos := scan.found_pos _ _ _ hf
    split at h
    · unfold branchTurn at h
      split at h
      · dsimp only at h
        split at h
        · cases h
        · cases h
          rw [putWhole_main, Bcj2DecStreams.setSide_main]
          omega
      · cases h
    · cases h
      omega
  · cases h

theorem mainTurn_shorter {scan : MainScan} {d d' : Bcj2Dec} {v v' : UInt32}
    {s s' : Bcj2DecStreams} (h : mainTurn scan d v s = .again d' v' s') :
    s'.main.length < s.main.length := by
  unfold mainTurn at h
  split at h
  · split at h
    · cases h
    next b rc hrc =>
      have hshort := scanTurn_shorter h
      exact hshort
  · exact scanTurn_shorter h

/-- The main loop. -/
def mainLoop (scan : MainScan) (d : Bcj2Dec) (v : UInt32) (s : Bcj2DecStreams) :
    Bcj2Dec × Bcj2DecStreams :=
  match _h : mainTurn scan d v s with
  | .stop d s => (d, s)
  | .again d v s => mainLoop scan d v s
  termination_by s.main.length
  decreasing_by exact mainTurn_shorter _h

/-- What is owed of a target goes out before the main loop. -/
def afterTarget (scan : MainScan) (d : Bcj2Dec) (left : ℕ) (v : UInt32) (s : Bcj2DecStreams) :
    Bcj2Dec × Bcj2DecStreams :=
  let flushed := flushTarget left v s
  if flushed.1 = 0 then mainLoop scan d flushed.2.1 flushed.2.2
  else ({ d with state := decStateOrig - flushed.1, temp := flushed.2.1 }, flushed.2.2)

/-- A call once the range coder is primed. -/
def resume (scan : MainScan) (d : Bcj2Dec) (s : Bcj2DecStreams) : Bcj2Dec × Bcj2DecStreams :=
  if is32bitStream d.state then
    match s.side d.state with
    | a :: b :: c :: e :: rest =>
        let ip := d.ip + 4
        afterTarget scan { d with ip } 4 (getBe32 a b c e - ip) (s.setSide d.state rest)
    | _ => (d, s)
  else if decStateOrig0 ≤ d.state ∧ d.state < decStateOrig then
    afterTarget scan d (decStateOrig - d.state) d.temp s
  else mainLoop scan d d.temp s

/-- `decode_checked`, with the scan it uses for the main stream. -/
def decodeWith (scan : MainScan) (d : Bcj2Dec) (s : Bcj2DecStreams) :
    Except Bcj2Error Unit × Bcj2Dec × Bcj2DecStreams :=
  if ¬s.Aligned then (.error .unalignedStream, d, s)
  else if d.range ≤ 5 then
    match primeLoop { d with state := decStateError } s.rc with
    | (.bad, d, rc) => (.error .data, d, { s with rc })
    | (.starved, d, rc) => (.ok (), { d with state := streamRc }, { s with rc })
    | (.ready, d, rc) =>
        if d.code = 0xFFFFFFFF then (.error .data, d, { s with rc })
        else (.ok (), resume scan { d with range := 0xFFFFFFFF } { s with rc })
  else (.ok (), resume scan d s)

/-- `decode_checked`. -/
def decodeChecked (d : Bcj2Dec) (s : Bcj2DecStreams) :
    Except Bcj2Error Unit × Bcj2Dec × Bcj2DecStreams :=
  decodeWith copyMainScan d s

end Bcj2Dec
end LzmaTurbo.Filters
