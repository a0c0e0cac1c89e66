import LzmaTurbo.Lzma2.Decoder
import LzmaTurbo.Xz.Headers

/-!
# One block

LZMA2, then the chain's converters, then the check. Without converters a call decodes right
into the caller's buffer; with them it converts there in place, or, when the buffer is too
short for the tails that are held back, in a buffer of its own.
-/
namespace LzmaTurbo.Xz
open Machine Lzma Lzma2

/-- Whatever computes the check of a block (`RunningCheck`, over the caller's plan). -/
structure Checks where
  Running : Type
  new : CheckType → ℕ → Bool → Running
  update : Running → List UInt8 → Running
  finish : Running → List UInt8 → Except XzErrorKind Unit

/-- `SCRATCH`. -/
def scratchSize : ℕ := 0x10000
/-- `usize::MAX`, as large as `u64::MAX`. -/
def usizeMax : ℕ := 0xFFFFFFFFFFFFFFFF

/-- `BlockLimits`. -/
structure BlockLimits where
  memoryLimit : ℕ
  uncompressedSize : Option ℕ
  compressedSize : Option ℕ
  maxBlockSize : ℕ
deriving Repr, DecidableEq

/-- `BlockDecoder`. -/
structure BlockDecoder (C : Checks) where
  lzma2 : Lzma2Decoder
  converters : Converters
  check : C.Running
  limits : BlockLimits
  pending : List UInt8
  pendingLen : ℕ
  pendingPos : ℕ
  unpacked : ℕ
  packed : ℕ
  finished : Bool

/-- `dict_bytes`. -/
def dictBytes (dictProp : UInt8) (uncompressedSize : Option ℕ) : ℕ :=
  let declared := dicSizeFromPropFull dictProp.toNat
  match uncompressedSize with
  | some n => min declared (max n lzmaDicMin)
  | none => declared

namespace BlockDecoder
variable {C : Checks}

/-- `BlockDecoder::new`, without the allocation. -/
def new (chain : FilterChain) (check : CheckType) (unpackedOffset : ℕ) (verify : Bool)
    (limits : BlockLimits) : Except XzErrorKind (BlockDecoder C) :=
  if limits.uncompressedSize.any (limits.maxBlockSize < ·) then
    .error (.tooMuchOutput limits.maxBlockSize)
  else
    let dict := dictBytes chain.dictProp limits.uncompressedSize
    if limits.memoryLimit < dict then .error (.memoryLimit dict limits.memoryLimit)
    else
      match Lzma2Decoder.newCapped chain.dictProp.toNat (min dict 0xFFFFFFFF) with
      | .error e => .error (.lzma e)
      | .ok lzma2 => do
          let converters ← chain.build
          .ok { lzma2, converters, check := C.new check unpackedOffset verify, limits
                pending := [], pendingLen := 0, pendingPos := 0, unpacked := 0, packed := 0
                finished := false }

/-- The method `finished`. -/
def atEnd (d : BlockDecoder C) : Bool := d.finished && decide (d.pendingPos = d.pendingLen)

/-- `at_capacity`. -/
def atCapacity (d : BlockDecoder C) : XzErrorKind :=
  match d.limits.uncompressedSize with
  | some _ => .sizeMismatch
  | none => .tooMuchOutput d.limits.maxBlockSize

/-- `room`. -/
def room (d : BlockDecoder C) (want : ℕ) : Except XzErrorKind ℕ :=
  let cap := d.limits.uncompressedSize.getD d.limits.maxBlockSize
  if cap < d.unpacked then .error (.tooMuchOutput cap)
  else .ok (min (min (cap - d.unpacked) usizeMax) want)

/-- `note`. -/
def note (d : BlockDecoder C) (status : Status) : BlockDecoder C × Except XzErrorKind Unit :=
  if status = .finishedWithMark then
    let d := { d with finished := true }
    if d.limits.uncompressedSize.any (· ≠ d.unpacked) then (d, .error .sizeMismatch)
    else if d.limits.compressedSize.any (· ≠ d.packed) then (d, .error .sizeMismatch)
    else (d, .ok ())
  else (d, .ok ())

/-- How a call ends: the block, the caller's buffer, and what was read and written. -/
structure Decoded (C : Checks) where
  d : BlockDecoder C
  out : List UInt8
  res : Except XzErrorKind (ℕ × ℕ)

/-- `decode_lzma2`, into `buf` from `start` for at most `want` bytes: the decoder, the buffer
and the progress. -/
def decodeLzma2 (d : BlockDecoder C) (input buf : List UInt8) (start want : ℕ)
    (finish : FinishMode) :
    Except Fault (BlockDecoder C × List UInt8 × Except XzErrorKind Progress) := do
  let r ← d.lzma2.decode input want finish
  let buf ← copyTo buf start r.out
  let d := { d with lzma2 := r.d }
  match r.res with
  | .ok p => .ok (d, buf, .ok p)
  | .error e => .ok (d, buf, .error (if want = 0 then d.atCapacity else .lzma e))

/-- The path without converters. -/
def decodePlain (d : BlockDecoder C) (input out : List UInt8) : Except Fault (Decoded C) :=
  match d.room out.length with
  | .error k => .ok ⟨d, out, .error k⟩
  | .ok limit => do
      let finish := if limit = 0 then FinishMode.endMark else FinishMode.any
      let (d, out, res) ← d.decodeLzma2 input out 0 limit finish
      match res with
      | .error k => .ok ⟨d, out, .error k⟩
      | .ok p =>
          let d := { d with
            packed := d.packed + p.read, unpacked := d.unpacked + p.written
            check := C.update d.check (out.take p.written) }
          let (d, noted) := d.note p.status
          match noted with
          | .error k => .ok ⟨d, out, .error k⟩
          | .ok () =>
              if limit = 0 ∧ d.finished = false then .ok ⟨d, out, .error d.atCapacity⟩
              else .ok ⟨d, out, .ok (p.read, p.written)⟩

section
variable (x8664 kernel : Bool)

/-- LZMA2 and then the converters, in one buffer: what LZMA2 did and how much is converted. -/
def convertInto (d : BlockDecoder C) (input buf : List UInt8) (start want : ℕ)
    (finish : FinishMode) :
    Except Fault (BlockDecoder C × List UInt8 × Except XzErrorKind (Progress × ℕ)) := do
  let (d, buf, res) ← d.decodeLzma2 input buf start want finish
  match res with
  | .error k => .ok (d, buf, .error k)
  | .ok p => do
      let (converters, buf, written) ←
        d.converters.runBuffer x8664 kernel buf p.written (p.status == .finishedWithMark) false
      .ok ({ d with converters, check := C.update d.check (buf.take written) }, buf,
        .ok (p, written))

/-- The end of a turn with converters: what is converted is handed over, or kept for the next
calls where it is not in the caller's buffer. -/
def deliver (d : BlockDecoder C) (direct : Bool) (out : List UInt8) (consumed written : ℕ) :
    Except Fault (Decoded C) :=
  if direct then .ok ⟨d, out, .ok (consumed, written)⟩
  else do
    let n := min written out.length
    let made ← sliceOf d.pending 0 n
    let out ← copyTo out 0 made
    let (pendingLen, pendingPos) := if n = written then (0, 0) else (written, n)
    .ok ⟨{ d with pendingLen, pendingPos }, out, .ok (consumed, n)⟩

/-- The loop with converters. -/
def filterLoop (input : List UInt8) : ℕ → BlockDecoder C → List UInt8 → ℕ →
    Except Fault (Decoded C)
  | 0, _, _, _ => .error .fuel
  | fuel + 1, d, out, consumed =>
      let start := d.converters.carriedBytes
      match d.room usizeMax with
      | .error k => .ok ⟨d, out, .error k⟩
      | .ok remaining =>
          if remaining < start then .ok ⟨d, out, .error d.atCapacity⟩
          else do
            let direct := decide (start < out.length)
            let capacity := if direct then out.length else 2 * d.converters.maxCarry + 1
            let left ← sub capacity start
            let want := min (min (remaining - start) scratchSize) left
            let finish := if want = 0 then FinishMode.endMark else FinishMode.any
            let buf :=
              if direct then out
              else d.pending ++ List.replicate (capacity - d.pending.length) 0
            let (d, buf, res) ←
              d.convertInto x8664 kernel (input.drop consumed) buf start want finish
            let d := if direct then d else { d with pending := buf }
            let out := if direct then buf else out
            match res with
            | .error k => .ok ⟨d, out, .error k⟩
            | .ok (p, written) =>
                let consumed := consumed + p.read
                let d := { d with packed := d.packed + p.read, unpacked := d.unpacked + written }
                let (d, noted) := d.note p.status
                match noted with
                | .error k => .ok ⟨d, out, .error k⟩
                | .ok () =>
                    if want = 0 ∧ d.finished = false ∧ p.status ≠ .needsMoreInput then
                      .ok ⟨d, out, .error d.atCapacity⟩
                    else if written ≠ 0 ∨ d.finished then d.deliver direct out consumed written
                    else if p.read = 0 ∧ p.written = 0 then .ok ⟨d, out, .ok (consumed, 0)⟩
                    else filterLoop input fuel d out consumed

/-- The input up to the declared compressed size. -/
def offered (d : BlockDecoder C) (input : List UInt8) : List UInt8 :=
  match d.limits.compressedSize with
  | some c => input.take (c - d.packed)
  | none => input

/-- `BlockDecoder::decode`. A turn of the loop with converters that goes on reads a byte or
makes the converters hold back one more. -/
def decode (d : BlockDecoder C) (input out : List UInt8) : Except Fault (Decoded C) :=
  if d.pendingPos < d.pendingLen then do
    let n := min (d.pendingLen - d.pendingPos) out.length
    let made ← sliceOf d.pending d.pendingPos n
    let out ← copyTo out 0 made
    let (pendingLen, pendingPos) :=
      if d.pendingPos + n = d.pendingLen then (0, 0) else (d.pendingLen, d.pendingPos + n)
    .ok ⟨{ d with pendingLen, pendingPos }, out, .ok (0, n)⟩
  else if d.finished ∨ out = [] then .ok ⟨d, out, .ok (0, 0)⟩
  else if d.limits.compressedSize.any (· ≤ d.packed) then .ok ⟨d, out, .error .sizeMismatch⟩
  else
    let input := d.offered input
    if d.converters.stages = [] then d.decodePlain input out
    else d.filterLoop x8664 kernel input (input.length + d.converters.maxCarry + 1) out 0

end
end BlockDecoder
end LzmaTurbo.Xz
