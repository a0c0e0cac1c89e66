import LzmaTurbo.Filters.Bcj2Dec
import LzmaTurbo.Machine

/-!
# The cursor port of the BCJ2 decoder

A pointer into each of the four slices and one into the window, compared with their limits before
anything is read or written. An access outside a slice is a fault, which the comparisons rule out.
-/
namespace LzmaTurbo.Filters
open Machine

/-- A pointer is an index into its slice. `window` is all of `dest`, written or not. -/
structure Cursors where
  slices : ℕ → List UInt8
  bufs : ℕ → ℕ
  window : List UInt8
  dest : ℕ

namespace Cursors

/-- `spare` is what the window holds behind the bytes written so far. -/
def start (s : Bcj2DecStreams) (spare : List UInt8) : Cursors where
  slices := Bcj2Dec.streamOf s
  bufs _ := 0
  window := s.dest ++ spare
  dest := s.dest.length

def lim (c : Cursors) (i : ℕ) : ℕ := (c.slices i).length
def destLim (c : Cursors) : ℕ := c.window.length

def load (c : Cursors) (i k : ℕ) : Except Fault UInt8 :=
  match (c.slices i)[k]? with
  | some b => .ok b
  | none => .error .index

/-- `cast::<u32>().read_unaligned()`, its bytes the other way round. -/
def loadBe32 (c : Cursors) (i k : ℕ) : Except Fault UInt32 := do
  let b0 ← c.load i k
  let b1 ← c.load i (k + 1)
  let b2 ← c.load i (k + 2)
  let b3 ← c.load i (k + 3)
  .ok (getBe32 b0 b1 b2 b3)

def store (c : Cursors) (k : ℕ) (b : UInt8) : Except Fault Cursors :=
  if k < c.destLim then .ok { c with window := c.window.set k b } else .error .index

def advance (c : Cursors) (i n : ℕ) : Cursors :=
  { c with bufs := Function.update c.bufs i (c.bufs i + n) }

/-- The low byte of `v`, and one place on. -/
def emit (c : Cursors) (v : UInt32) : Except Fault Cursors := do
  let c ← c.store c.dest v.toUInt8
  .ok { c with dest := c.dest + 1 }

/-- `cast::<u32>().write_unaligned(v.to_le())`, and four places on. -/
def emitLe32 (c : Cursors) (v : UInt32) : Except Fault Cursors := do
  let k := c.dest
  let c ← c.store k v.toUInt8
  let c ← c.store (k + 1) (v >>> 8).toUInt8
  let c ← c.store (k + 2) (v >>> 16).toUInt8
  let c ← c.store (k + 3) (v >>> 24).toUInt8
  .ok { c with dest := k + 4 }

/-- The slices behind their pointers, as the call hands them back. -/
def left (c : Cursors) : Bcj2DecStreams where
  main := (c.slices streamMain).drop (c.bufs streamMain)
  call := (c.slices streamCall).drop (c.bufs streamCall)
  jump := (c.slices streamJump).drop (c.bufs streamJump)
  rc := (c.slices streamRc).drop (c.bufs streamRc)
  room := c.destLim - c.dest
  dest := c.window.take c.dest

end Cursors

namespace Bcj2Dec

abbrev bcj2NumBitModelTotalBits : ℕ := 11
abbrev bcj2NumMoveBits : ℕ := 5

/-- `code` behind one more byte. -/
def codeBehind (code : ℕ) (b : UInt8) : ℕ := u32 (code <<< 8) ||| b.toNat

/-- The first five bytes. With an outcome the call returns. -/
def cursorPrime : ℕ → Bcj2Dec → Cursors →
    Except Fault (Option (Except Bcj2Error Unit) × Bcj2Dec × Cursors)
  | 0, _, _ => .error .fuel
  | fuel + 1, p, c =>
      if p.range = 5 then .ok (none, p, c)
      else if p.range = 1 ∧ p.code ≠ 0 then .ok (some (.error .data), p, c)
      else if c.bufs streamRc = c.lim streamRc then
        .ok (some (.ok ()), { p with state := streamRc }, c)
      else do
        let b ← c.load streamRc (c.bufs streamRc)
        cursorPrime fuel { p with code := codeBehind p.code b, range := p.range + 1 }
          (c.advance streamRc 1)

/-- The bytes that are owed of a target; the call returns when the window is full. -/
def cursorOwed (p : Bcj2Dec) : ℕ → ℕ → UInt32 → Cursors →
    Except Fault (Option Bcj2Dec × UInt32 × Cursors)
  | 0, _, _, _ => .error .fuel
  | fuel + 1, state, v, c =>
      if c.dest = c.destLim then .ok (some { p with state, temp := v }, v, c)
      else do
        let c ← c.emit v
        if state + 1 = decStateOrig then .ok (none, v, c)
        else cursorOwed p fuel (state + 1) (v >>> 8) c

/-- One more byte of the range-coded stream. -/
def cursorRefill (p : Bcj2Dec) (c : Cursors) : Except Fault (Bcj2Dec × Cursors) := do
  let b ← c.load streamRc (c.bufs streamRc)
  .ok ({ p with range := u32 (p.range <<< 8), code := codeBehind p.code b }, c.advance streamRc 1)

/-- `one_iter`, with the pointers of the scan: whether its byte is a marker. -/
def oneIter (c : Cursors) (src index dest : ℕ) (v : UInt32) :
    Except Fault (Bool × ℕ × UInt32 × Cursors) := do
  let b ← c.load streamMain (src + index)
  let c ← c.store dest b
  let v := (v <<< 24) ||| b.toUInt32
  .ok (isBranchByte b.toUInt32 || isLongJump v, dest + 1, v, c)

def iters (src : ℕ) : List ℕ → ℕ → UInt32 → Cursors → Except Fault (Bool × ℕ × UInt32 × Cursors)
  | [], dest, v, c => .ok (false, dest, v, c)
  | index :: rest, dest, v, c => do
      let (hit, dest, v, c) ← oneIter c src index dest v
      if hit then .ok (true, dest, v, c) else iters src rest dest v c

/-- Four bytes at a time. -/
def quads (srcLim : ℕ) : ℕ → ℕ → ℕ → UInt32 → Cursors →
    Except Fault (Bool × ℕ × ℕ × UInt32 × Cursors)
  | 0, _, _, _, _ => .error .fuel
  | fuel + 1, src, dest, v, c =>
      if src = srcLim then .ok (false, src, dest, v, c)
      else do
        let (hit, dest, v, c) ← iters src [0, 1, 2, 3] dest v c
        if hit then .ok (true, src, dest, v, c) else quads srcLim fuel (src + 4) dest v c

/-- Byte by byte, to the end of the slice or of the window. -/
def tail : ℕ → ℕ → ℕ → UInt32 → Cursors → Except Fault (Bool × ℕ × ℕ × UInt32 × Cursors)
  | 0, _, _, _, _ => .error .fuel
  | fuel + 1, src, dest, v, c =>
      if src = c.lim streamMain ∨ dest = c.destLim then .ok (false, src, dest, v, c)
      else do
        let (hit, dest, v, c) ← oneIter c src 0 dest v
        if hit then .ok (true, src, dest, v, c) else tail fuel (src + 1) dest v c

/-- The scan of the main slice: whether it ends at a marker, and its pointers. -/
def cursorScan (c : Cursors) (v : UInt32) : Except Fault (Bool × ℕ × ℕ × UInt32 × Cursors) := do
  let src := c.bufs streamMain
  let input ← sub (c.lim streamMain) src
  let output ← sub c.destLim c.dest
  let num := min input output / 4 * 4
  let (hit, src, dest, v, c) ← quads (src + num) (num + 1) src c.dest v c
  if hit then .ok (true, src, dest, v, c) else tail (input + 1) src dest v c

/-- How a turn of the main loop ends: the call returns, the loop is left for the last
normalization, or there is another turn. -/
inductive CursorTurn where
  | stop (p : Bcj2Dec) (c : Cursors)
  | leave (p : Bcj2Dec) (c : Cursors)
  | again (p : Bcj2Dec) (v : UInt32) (c : Cursors)

/-- `for _ in 0..rem`. -/
def cursorPart : ℕ → UInt32 → Cursors → Except Fault (UInt32 × Cursors)
  | 0, v, c => .ok (v, c)
  | rem + 1, v, c => do
      let c ← c.emit v
      cursorPart rem (v >>> 8) c

/-- A converted branch. -/
def cursorBranch (p : Bcj2Dec) (v : UInt32) (c : Cursors) : Except Fault CursorTurn :=
  let cj := branchStream v
  if c.bufs cj = c.lim cj then .ok (.leave { p with state := cj } c)
  else do
    let v ← c.loadBe32 cj (c.bufs cj)
    let c := c.advance cj 4
    let p := { p with ip := p.ip + 4 }
    let v := v - p.ip
    let rem ← sub c.destLim c.dest
    if rem < 4 then do
      let (v, c) ← cursorPart rem v c
      .ok (.leave { p with temp := v, state := decStateOrig0 + rem } c)
    else do
      let c ← c.emitLe32 v
      .ok (.again p (v >>> 24) c)

/-- The bit for a marker. -/
def cursorBit (p : Bcj2Dec) (v : UInt32) (c : Cursors) : Except Fault CursorTurn :=
  let ttt := p.probs (probIndex v)
  let bound := (p.range >>> bcj2NumBitModelTotalBits) * ttt
  if p.code < bound then
    .ok (.again { p with
      range := bound
      probs := Function.update p.probs (probIndex v)
        (ttt + ((bcj2BitModelTotal - ttt) >>> bcj2NumMoveBits)) } v c)
  else
    cursorBranch { p with
      range := p.range - bound
      code := p.code - bound
      probs := Function.update p.probs (probIndex v) (ttt - (ttt >>> bcj2NumMoveBits)) } v c

/-- Copying the main slice up to a marker. -/
def cursorCopy (p : Bcj2Dec) (v : UInt32) (c : Cursors) : Except Fault CursorTurn := do
  let (hit, src, dest, v, c) ← cursorScan c v
  if hit then do
    let consumed ← sub dest c.dest
    cursorBit { p with ip := p.ip + UInt32.ofNat consumed } v
      { c.advance streamMain consumed with dest }
  else do
    let consumed ← sub src (c.bufs streamMain)
    .ok (.stop { p with
      ip := p.ip + UInt32.ofNat consumed
      state := if src = c.lim streamMain then streamMain else decStateOrig
      temp := v } { c.advance streamMain consumed with dest })

def cursorTurn (p : Bcj2Dec) (v : UInt32) (c : Cursors) : Except Fault CursorTurn :=
  if p.range < bcj2TopValue then
    if c.bufs streamRc = c.lim streamRc then
      .ok (.stop { p with state := streamRc, temp := v } c)
    else do
      let (p, c) ← cursorRefill p c
      cursorCopy p v c
  else cursorCopy p v c

/-- The last normalization of a call. -/
def cursorLast (p : Bcj2Dec) (c : Cursors) : Except Fault (Bcj2Dec × Cursors) :=
  if p.range < bcj2TopValue ∧ c.bufs streamRc ≠ c.lim streamRc then cursorRefill p c
  else .ok (p, c)

def cursorLoop : ℕ → Bcj2Dec → UInt32 → Cursors → Except Fault (Bcj2Dec × Cursors)
  | 0, _, _, _ => .error .fuel
  | fuel + 1, p, v, c => do
      match ← cursorTurn p v c with
      | .stop p c => .ok (p, c)
      | .leave p c => cursorLast p c
      | .again p v c => cursorLoop fuel p v c

/-- What is owed of a target, then the main loop. -/
def cursorAfter (fuel : ℕ) (p : Bcj2Dec) (state : ℕ) (v : UInt32) (c : Cursors) :
    Except Fault (Bcj2Dec × Cursors) :=
  if decStateOrig0 ≤ state ∧ state < decStateOrig0 + 4 then do
    match ← cursorOwed p 4 state v c with
    | (some p, _, c) => .ok (p, c)
    | (none, v, c) => cursorLoop fuel p v c
  else cursorLoop fuel p v c

/-- Behind the start of the range coder. -/
def cursorResume (fuel : ℕ) (p : Bcj2Dec) (c : Cursors) : Except Fault (Bcj2Dec × Cursors) :=
  if is32bitStream p.state then
    if c.bufs p.state = c.lim p.state then .ok (p, c)
    else do
      let w ← c.loadBe32 p.state (c.bufs p.state)
      let c := c.advance p.state 4
      let p := { p with ip := p.ip + 4 }
      cursorAfter fuel p decStateOrig0 (w - p.ip) c
  else cursorAfter fuel p p.state p.temp c

def decodeInner (fuel : ℕ) (p : Bcj2Dec) (c : Cursors) :
    Except Fault (Except Bcj2Error Unit × Bcj2Dec × Cursors) :=
  if p.range ≤ 5 then do
    match ← cursorPrime 6 { p with state := decStateError } c with
    | (some r, p, c) => .ok (r, p, c)
    | (none, p, c) =>
        if p.code = 0xFFFFFFFF then .ok (.error .data, p, c)
        else do
          let (p, c) ← cursorResume fuel { p with range := 0xFFFFFFFF } c
          .ok (.ok (), p, c)
  else do
    let (p, c) ← cursorResume fuel p c
    .ok (.ok (), p, c)

/-- `cursor::decode`, with the bytes of the window that it does not write. Slices that are not
whole words go to the checked path. -/
def cursorDecode (p : Bcj2Dec) (s : Bcj2DecStreams) (spare : List UInt8) :
    Except Fault ((Except Bcj2Error Unit × Bcj2Dec × Bcj2DecStreams) × List UInt8) :=
  if ¬s.Aligned then .ok (p.decodeChecked s, spare)
  else do
    let (r, p, c) ← decodeInner (s.main.length + 1) p (.start s spare)
    .ok ((r, p, c.left), c.window.drop c.dest)

end Bcj2Dec
end LzmaTurbo.Filters
