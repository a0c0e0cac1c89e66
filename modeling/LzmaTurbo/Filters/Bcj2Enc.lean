import LzmaTurbo.Filters.Bcj2

/-!
# The BCJ2 encoder

A source slice with a position is what is left of it. The position can move back: over a
marker whose offset is not there yet, and over bytes that were only looked at.
-/
namespace LzmaTurbo.Filters

/-- `ENC_STATE_ORIG`. -/
def encStateOrig : ℕ := bcj2NumStreams
/-- `ENC_STATE_FINISHED`. -/
def encStateFinished : ℕ := bcj2NumStreams + 1

inductive Bcj2EncFinishMode where
  | continue
  | endBlock
  | endStream
deriving Repr, DecidableEq

/-- One output window: what has been written and the room left. -/
structure Bcj2Window where
  written : List UInt8
  room : ℕ
deriving Repr, DecidableEq

namespace Bcj2Window

def put (w : Bcj2Window) (b : UInt8) : Bcj2Window := ⟨w.written ++ [b], w.room - 1⟩

def putAll (w : Bcj2Window) (bs : List UInt8) : Bcj2Window :=
  ⟨w.written ++ bs, w.room - bs.length⟩

/-- Takes the last byte back. -/
def back (w : Bcj2Window) : Bcj2Window := ⟨w.written.dropLast, w.room + 1⟩

end Bcj2Window

structure Bcj2EncOut where
  main : Bcj2Window
  call : Bcj2Window
  jump : Bcj2Window
  rc : Bcj2Window
deriving Repr, DecidableEq

namespace Bcj2EncOut

def side (out : Bcj2EncOut) (cj : ℕ) : Bcj2Window := if cj = streamCall then out.call else out.jump

def setSide (out : Bcj2EncOut) (cj : ℕ) (w : Bcj2Window) : Bcj2EncOut :=
  if cj = streamCall then { out with call := w } else { out with jump := w }

/-- `has_target_room`. -/
def hasTargetRoom (out : Bcj2EncOut) (cj : ℕ) : Bool := 4 ≤ (out.side cj).room

/-- `set_be32`. -/
def putTarget (out : Bcj2EncOut) (cj : ℕ) (v : UInt32) : Bcj2EncOut :=
  out.setSide cj ((out.side cj).putAll
    [(v >>> 24).toUInt8, (v >>> 16).toUInt8, (v >>> 8).toUInt8, v.toUInt8])

end Bcj2EncOut

structure Bcj2Enc where
  state : ℕ
  finishMode : Bcj2EncFinishMode
  context : UInt8
  flushRem : ℕ
  isFlushState : Bool
  cache : UInt8
  range : ℕ
  low : ℕ
  cacheSize : ℕ
  ip64 : UInt64
  fileIp64 : UInt64
  fileSize64Minus1 : UInt64
  relatLimit : UInt32
  tempTarget : UInt32
  /-- The bytes held back. -/
  temp : List UInt8
  probs : ℕ → ℕ

namespace Bcj2Enc

/-- `new`, with the settings a caller may make. -/
def new (ip fileIp fileSizeMinus1 : UInt64) (relatLimit : UInt32) : Bcj2Enc :=
  { state := encStateOrig, finishMode := .continue, context := 0, flushRem := 5,
    isFlushState := false, cache := 0, range := 0xFFFFFFFF, low := 0, cacheSize := 1,
    ip64 := ip, fileIp64 := fileIp, fileSize64Minus1 := fileSizeMinus1, relatLimit,
    tempTarget := 0, temp := [], probs := fun _ => bcj2BitModelTotal / 2 }

/-- `is_finished`. -/
def isFinished (e : Bcj2Enc) : Bool := e.flushRem == 0

/-- Whether `shift_low` has bytes to put out. -/
def shifts (e : Bcj2Enc) : Bool := e.low % 0x100000000 < 0xFF000000 || e.low / 0x100000000 != 0

/-- The loop of `shift_low`: the cached byte and the `FF`s behind it, with the carry. -/
def putCache (high : UInt8) : ℕ → UInt8 → Bcj2Window → ℕ × UInt8 × Bcj2Window
  | 0, cache, w => (0, cache, w)
  | n + 1, cache, w =>
      if w.room = 0 then (n + 1, cache, w) else putCache high n 0xFF (w.put (cache + high))

/-- The last lines of `shift_low`. -/
def shifted (e : Bcj2Enc) : Bcj2Enc :=
  { e with cacheSize := e.cacheSize + 1, low := e.low % 0x100000000 * 256 % 0x100000000 }

/-- `shift_low`: whether it ran out of room. -/
def shiftLow (e : Bcj2Enc) (out : Bcj2EncOut) : Bool × Bcj2Enc × Bcj2EncOut :=
  if e.shifts then
    let pushed := putCache (UInt8.ofNat (e.low / 0x100000000)) e.cacheSize e.cache out.rc
    let out := { out with rc := pushed.2.2 }
    let e := { e with cacheSize := pushed.1, cache := pushed.2.1 }
    if pushed.1 = 0 then
      (false, shifted { e with cache := UInt8.ofNat (e.low % 0x100000000 / 0x1000000) }, out)
    else (true, { e with state := streamRc }, out)
  else (false, e.shifted, out)

/-- The three conditions on the offset behind the marker in `v`, `ip` being behind it. -/
def converts (e : Bcj2Enc) (v : UInt32) (relat : UInt32) : Bool :=
  let ip := e.ip64 - e.fileIp64
  let two : UInt32 := ((v + 0x20) >>> 5) &&& 1
  let signed : UInt64 :=
    relat.toUInt64 ||| if relat &&& 0x80000000 = 0 then 0 else 0xFFFFFFFF00000000
  ip > two.toUInt64 && ip + 4 + signed ≤ e.fileSize64Minus1 &&
    (relat + e.relatLimit) >>> 1 < e.relatLimit

/-- `get_u32le`. -/
def getLe32 (a b c d : UInt8) : UInt32 := getBe32 d c b a

/-- The bit for the marker in `v`. -/
def encodeBit (e : Bcj2Enc) (v : UInt32) (converted : Bool) : Bcj2Enc :=
  let ttt := e.probs (probIndex v)
  let bound := e.range / bcj2BitModelTotal * ttt
  if converted then
    { e with
      low := e.low + bound
      range := e.range - bound
      probs := Function.update e.probs (probIndex v) (ttt - ttt / 32) }
  else
    { e with
      range := bound
      probs := Function.update e.probs (probIndex v) (ttt + (bcj2BitModelTotal - ttt) / 32) }

/-- How a turn of the loop ends: the call returns, the stream is to be flushed, or there is
another turn. -/
inductive EncTurn where
  | stop (e : Bcj2Enc) (out : Bcj2EncOut) (src : List UInt8)
  | flush (e : Bcj2Enc) (out : Bcj2EncOut) (src : List UInt8)
  | again (e : Bcj2Enc) (v : UInt32) (out : Bcj2EncOut) (src : List UInt8)

/-- A marker `b` in the context `v`, with `src` behind it. -/
def markerTurn (e : Bcj2Enc) (v : UInt32) (b : UInt8) (out : Bcj2EncOut) (src : List UInt8) :
    EncTurn :=
  match src with
  | a₀ :: a₁ :: a₂ :: a₃ :: rest =>
      let relat := getLe32 a₀ a₁ a₂ a₃
      if e.converts v relat then
        let e := e.encodeBit v true
        let e := { e with ip64 := e.ip64 + 4 }
        let cj := branchStream v
        let absol := e.ip64.toUInt32 + relat
        if out.hasTargetRoom cj then .again e (relat >>> 24) (out.putTarget cj absol) rest
        else
          .stop { e with state := cj, tempTarget := absol, context := (relat >>> 24).toUInt8 }
            out rest
      else .again (e.encodeBit v false) v out src
  | _ =>
      if e.finishMode = .continue then
        -- More is promised: the marker is given back.
        .stop { e with ip64 := e.ip64 - 1, context := (v >>> 24).toUInt8 }
          { out with main := out.main.back } (b :: src)
      else .again (e.encodeBit v false) v out src

/-- A turn past its normalization. -/
def copyTurn (e : Bcj2Enc) (v : UInt32) (out : Bcj2EncOut) (src : List UInt8) : EncTurn :=
  let scanned := scanMain (min out.main.room src.length) src v
  let out := { out with main := out.main.putAll (src.take scanned.1) }
  let e := { e with ip64 := e.ip64 + UInt64.ofNat scanned.1 }
  let v := scanned.2.1
  let rest := src.drop scanned.1
  if scanned.2.2 then markerTurn e v ((src.take scanned.1).getLastD 0) out rest
  else
    let e := { e with context := v.toUInt8 }
    if rest ≠ [] then .stop { e with state := streamMain } out rest
    else if e.finishMode ≠ .endStream then .stop e out rest
    else .flush { e with isFlushState := true } out rest

def encodeTurn (e : Bcj2Enc) (v : UInt32) (out : Bcj2EncOut) (src : List UInt8) : EncTurn :=
  if e.range < bcj2TopValue then
    let low := shiftLow { e with context := v.toUInt8 } out
    if low.1 then .stop low.2.1 low.2.2 src
    else
      copyTurn { low.2.1 with range := low.2.1.range * 256 } low.2.1.context.toUInt32 low.2.2 src
  else copyTurn e v out src

theorem markerTurn_length {e e' : Bcj2Enc} {v v' : UInt32} {b : UInt8} {out out' : Bcj2EncOut}
    {src src' : List UInt8} (h : markerTurn e v b out src = .again e' v' out' src') :
    src'.length ≤ src.length := by
  unfold markerTurn at h
  split at h
  · dsimp only at h
    split at h
    · split at h
      · cases h
        simp only [List.length_cons]
        omega
      · cases h
    · cases h
      exact Nat.le_refl _
  · split at h
    · cases h
    · cases h
      exact Nat.le_refl _

theorem copyTurn_shorter {e e' : Bcj2Enc} {v v' : UInt32} {out out' : Bcj2EncOut}
    {src src' : List UInt8} (h : copyTurn e v out src = .again e' v' out' src') :
    src'.length < src.length := by
  have hbounds := scanMain_bounds (min out.main.room src.length) src v
  unfold copyTurn at h
  dsimp only at h
  split at h
  next hf =>
    have hlen := markerTurn_length h
    have hpos := hbounds.2.2.1 hf
    rw [List.length_drop] at hlen
    omega
  · split at h
    · cases h
    · split at h <;> cases h

theorem encodeTurn_shorter {e e' : Bcj2Enc} {v v' : UInt32} {out out' : Bcj2EncOut}
    {src src' : List UInt8} (h : encodeTurn e v out src = .again e' v' out' src') :
    src'.length < src.length := by
  unfold encodeTurn at h
  dsimp only at h
  split at h
  · split at h
    · cases h
    · exact copyTurn_shorter h
  · exact copyTurn_shorter h

/-- The range coder's five flush bytes. -/
def flushLoop : ℕ → Bcj2Enc → Bcj2EncOut → Bcj2Enc × Bcj2EncOut
  | 0, e, out => ({ e with state := encStateFinished, flushRem := 0 }, out)
  | left + 1, e, out =>
      let low := shiftLow { e with flushRem := left + 1 } out
      if low.1 then low.2 else flushLoop left low.2.1 low.2.2

def flushAll (e : Bcj2Enc) (out : Bcj2EncOut) (src : List UInt8) :
    Bcj2Enc × Bcj2EncOut × List UInt8 :=
  ((flushLoop e.flushRem e out).1, (flushLoop e.flushRem e out).2, src)

/-- The loop of `encode_2`. -/
def encodeLoop (e : Bcj2Enc) (v : UInt32) (out : Bcj2EncOut) (src : List UInt8) :
    Bcj2Enc × Bcj2EncOut × List UInt8 :=
  match _h : encodeTurn e v out src with
  | .stop e out src => (e, out, src)
  | .flush e out src => flushAll e out src
  | .again e v out src => encodeLoop e v out src
  termination_by src.length
  decreasing_by exact encodeTurn_shorter _h

/-- `encode_2`. -/
def encode2 (e : Bcj2Enc) (out : Bcj2EncOut) (src : List UInt8) :
    Bcj2Enc × Bcj2EncOut × List UInt8 :=
  if e.isFlushState then flushAll e out src
  else if is32bitStream e.state then
    -- The target that the last call could not write.
    if out.hasTargetRoom e.state then
      encodeLoop { e with state := encStateOrig } e.context.toUInt32
        (out.putTarget e.state e.tempTarget) src
    else (e, out, src)
  else encodeLoop { e with state := encStateOrig } e.context.toUInt32 out src

/-- The end of `encode`: what the encoder could not decide about is held back. -/
def encodeSrc (e : Bcj2Enc) (out : Bcj2EncOut) (src : List UInt8) :
    Bcj2Enc × Bcj2EncOut × List UInt8 :=
  let r := encode2 e out src
  if r.1.state = encStateOrig ∧ r.2.2 ≠ [] then ({ r.1 with temp := r.2.2 }, r.2.1, []) else r

/-- The loop of `encode` over the bytes held back, to which it adds those of `src` one by
one; `extra` of them so far. -/
def tempLoop (e : Bcj2Enc) (out : Bcj2EncOut) (extra : ℕ) (src : List UInt8) :
    Bcj2Enc × Bcj2EncOut × List UInt8 :=
  let r := encode2 (if src = [] then e else { e with finishMode := .continue }) out e.temp
  let left := r.2.2
  let e' := { r.1 with temp := left, finishMode := e.finishMode }
  if e'.state ≠ encStateOrig then
    -- The bytes of `src` that were only looked at go back.
    let kept := left.length - min extra left.length
    ({ e' with temp := left.take kept }, r.2.1, left.drop kept ++ src)
  else
    match src with
    | [] => (e', r.2.1, [])
    | b :: src' =>
        if left.length ≤ extra then encodeSrc { e' with temp := [] } r.2.1 (left ++ src)
        else tempLoop { e' with temp := left ++ [b] } r.2.1 (extra + 1) src'
  termination_by src.length

/-- `encode`. -/
def encode (e : Bcj2Enc) (out : Bcj2EncOut) (src : List UInt8) :
    Bcj2Enc × Bcj2EncOut × List UInt8 :=
  if e.temp ≠ [] then tempLoop e out 0 src else encodeSrc e out src

end Bcj2Enc
end LzmaTurbo.Filters
