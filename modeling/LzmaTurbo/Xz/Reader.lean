import LzmaTurbo.Mt.ChecksumTiles
import LzmaTurbo.Xz.BlockDec

/-!
# The sequential reader

A state machine over a buffered source. A call goes round its loop until it has output for
the caller or the file ends; a failed call says why and not where, and the reader it leaves is
not followed.
-/
namespace LzmaTurbo.Xz
open Machine LzmaTurbo.Mt

/-- `MAX_CHECK_SIZE`. -/
def maxCheckSize : ℕ := 64

/-- `XzOptions`, the caller's plan apart, and what the build can check. -/
structure XzOptions where
  memoryLimit : ℕ
  verifyChecks : Bool
  allowUnverifiable : Bool
  maxBlockSize : ℕ
  maxUnpackBytes : Option ℕ
  concatenated : Bool
  sha : Bool
deriving Repr, DecidableEq

/-- `State`. -/
inductive ReaderState where
  | streamHeader
  | blockOrIndex
  | block
  | blockTail
  | index
  | footer
  | padding
  | done
deriving Repr, DecidableEq

/-- `XzReader`. -/
structure XzReader (C : Checks) where
  src : Source
  opts : XzOptions
  state : ReaderState
  stream : ℕ
  blockNo : ℕ
  flags : StreamFlags
  checkSize : ℕ
  dec : Option (BlockDecoder C)
  blockHeaderSize : ℕ
  indexSize : ℕ
  totalOut : ℕ
  fold : IndexFold crc64Xz
  tailLeft : ℕ

/-- Why a call stops without a reader to go on with: a format error, a panic, or a loop that
was not given enough turns. -/
inductive Halt where
  | err (kind : XzErrorKind)
  | panic (f : Fault)
  | fuel
deriving Repr, DecidableEq

/-- What a fault is to a caller. -/
def Halt.ofFault : Fault → Halt
  | .fuel => .fuel
  | f => .panic f

namespace XzReader
variable {C : Checks}

/-- `with_options`. -/
def withOptions (src : Source) (opts : XzOptions) : XzReader C where
  src
  opts
  state := .streamHeader
  stream := 0
  blockNo := 0
  flags := ⟨.none, (0, 0)⟩
  checkSize := 0
  dec := none
  blockHeaderSize := 0
  indexSize := 0
  totalOut := 0
  fold := IndexFold.default crc64Xz
  tailLeft := 0

/-- A result of the parsers. -/
def fail {α : Type} : Except XzErrorKind α → Except Halt α
  | .ok a => .ok a
  | .error k => .error (.err k)

/-- A result of checked code. -/
def checked {α : Type} : Except Fault α → Except Halt α
  | .ok a => .ok a
  | .error f => .error (.ofFault f)

/-- `take_into`, where the input must not end. -/
def take (r : XzReader C) (n : ℕ) : Except Halt (List UInt8 × XzReader C) :=
  match r.src.takeInto n with
  | none => .error (.err .truncatedInput)
  | some (bytes, src) => .ok (bytes, { r with src })

/-- `stream_header`. -/
def streamHeader (r : XzReader C) : Except Halt (XzReader C) := do
  let (buf, r) ← r.take streamHeaderSize
  let flags ← fail (StreamHeader.parse crc32Iso buf)
  if r.opts.verifyChecks && !flags.check.isVerifiable r.opts.sha && !r.opts.allowUnverifiable then
    .error (.err .unsupportedCheck)
  else
    .ok { r with
      flags, checkSize := flags.check.size, blockNo := 0, fold := IndexFold.default crc64Xz
      state := .blockOrIndex }

/-- `block_cap`. -/
def blockCap (r : XzReader C) : ℕ :=
  match r.opts.maxUnpackBytes with
  | some cap => min r.opts.maxBlockSize (cap - r.totalOut)
  | none => r.opts.maxBlockSize

/-- `block_or_index`. -/
def blockOrIndex (r : XzReader C) : Except Halt (XzReader C) := do
  let (first, r) ← r.take 1
  match headerSizeFromFirstByte (first.getD 0 0) with
  | none => .ok { r with state := .index }
  | some size => do
      let (rest, r) ← r.take (size - 1)
      let header ← fail (BlockHeader.parse crc32Iso (first ++ rest))
      let limits : BlockLimits :=
        { memoryLimit := r.opts.memoryLimit, uncompressedSize := header.uncompressedSize
          compressedSize := header.compressedSize, maxBlockSize := r.blockCap }
      let dec ← fail (BlockDecoder.new header.chain r.flags.check r.totalOut r.opts.verifyChecks
        limits)
      .ok { r with dec := some dec, blockHeaderSize := size, state := .block }

/-- `block_tail`. -/
def blockTail (r : XzReader C) : Except Halt (XzReader C) := do
  let n := r.tailLeft
  let (buf, r) ← r.take n
  let padding ← checked (sub n r.checkSize)
  if (buf.take padding).any (· ≠ 0) then .error (.err .badPadding)
  else
    match r.dec with
    | none => .error (.panic .index)
    | some dec => do
        fail (C.finish dec.check (buf.drop padding))
        let unpadded := r.blockHeaderSize + dec.packed + r.checkSize
        let fold ← fail (r.fold.push unpadded dec.unpacked)
        .ok { r with dec := none, fold, blockNo := r.blockNo + 1, state := .blockOrIndex }

/-- The reader's call of `index`. -/
def indexTurn (r : XzReader C) : Except Halt (XzReader C) := do
  let (src, indexSize) ← fail (XzReader.index crc32Iso crc64Xz r.src r.fold.finish)
  .ok { r with src, indexSize, state := .footer }

/-- `footer`. -/
def footer (r : XzReader C) : Except Halt (XzReader C) := do
  let (buf, r) ← r.take streamHeaderSize
  let footer ← fail (StreamFooter.parse crc32Iso buf)
  if footer.flags.raw ≠ r.flags.raw then .error (.err .streamFlagsMismatch)
  else if footer.indexSize ≠ r.indexSize then .error (.err .indexMismatch)
  else .ok { r with stream := r.stream + 1, state := .padding }

/-- `padding`. -/
def padding : ℕ → XzReader C → Except Halt (XzReader C)
  | 0, _ => .error .fuel
  | fuel + 1, r =>
      let src := r.src.fillAtLeast 4
      let r := { r with src }
      if src.avail = [] then .ok { r with state := .done }
      else if r.opts.concatenated = false then .error (.err .trailingGarbage)
      else if src.avail.length < 4 then .error (.err .trailingGarbage)
      else if src.avail.take 4 = [0, 0, 0, 0] then padding fuel { r with src := src.consume 4 }
      else .ok { r with state := .streamHeader }

section
variable (x8664 kernel : Bool)

/-- `block`: the reader, the caller's buffer and how much of it is written. -/
def block : ℕ → XzReader C → List UInt8 → Except Halt (XzReader C × List UInt8 × ℕ)
  | 0, _, _ => .error .fuel
  | fuel + 1, r, out =>
      match r.dec with
      | none => .error (.panic .index)
      | some dec =>
          if dec.atEnd then
            let padding := (4 - dec.packed % 4) % 4
            .ok ({ r with tailLeft := padding + r.checkSize, state := .blockTail }, out, 0)
          else do
            let src := r.src.fillAtLeast 1
            let inputEmpty := src.avail.isEmpty
            let t ← checked (dec.decode x8664 kernel src.avail out)
            let (read, wrote) ← fail t.res
            let r := { r with src := src.consume read, dec := some t.d }
            if 0 < wrote then
              let r := { r with totalOut := r.totalOut + wrote }
              if r.opts.maxUnpackBytes.any (· < r.totalOut) then
                .error (.err (.tooMuchOutput (r.opts.maxUnpackBytes.getD 0)))
              else .ok (r, t.out, wrote)
            else if read = 0 ∧ inputEmpty then .error (.err .truncatedInput)
            else block fuel r t.out

/-- The loop of `read`, with `fuel` turns for it and for each loop inside. -/
def readLoop (turns : ℕ) : ℕ → XzReader C → List UInt8 → Except Halt (XzReader C × List UInt8 × ℕ)
  | 0, _, _ => .error .fuel
  | fuel + 1, r, out =>
      match r.state with
      | .done => .ok (r, out, 0)
      | .streamHeader => do readLoop turns fuel (← r.streamHeader) out
      | .blockOrIndex => do readLoop turns fuel (← r.blockOrIndex) out
      | .block => do
          let (r, out, n) ← r.block x8664 kernel turns out
          if 0 < n then .ok (r, out, n) else readLoop turns fuel r out
      | .blockTail => do readLoop turns fuel (← r.blockTail) out
      | .index => do readLoop turns fuel (← r.indexTurn) out
      | .footer => do readLoop turns fuel (← r.footer) out
      | .padding => do readLoop turns fuel (← r.padding turns) out

/-- `read`. -/
def read (fuel : ℕ) (r : XzReader C) (out : List UInt8) :
    Except Halt (XzReader C × List UInt8 × ℕ) :=
  if out = [] then .ok (r, out, 0) else r.readLoop x8664 kernel fuel fuel out

end
end XzReader
end LzmaTurbo.Xz
