import LzmaTurbo.Xz.Converters
import LzmaTurbo.Xz.Index

/-!
# Stream headers and footers, and block headers
-/
namespace LzmaTurbo.Xz
open LzmaTurbo.Crc LzmaTurbo.Filters Vli

/-- `STREAM_HEADER_SIZE` and `STREAM_FOOTER_SIZE`. -/
def streamHeaderSize : ℕ := 12
/-- `XZ_MAGIC`. -/
def xzMagic : List UInt8 := [0xFD, 0x37, 0x7A, 0x58, 0x5A, 0x00]
/-- `XZ_FOOTER_MAGIC`. -/
def xzFooterMagic : List UInt8 := [0x59, 0x5A]
/-- `MAX_BLOCK_HEADER_SIZE`. -/
def maxBlockHeaderSize : ℕ := 1024
/-- `MIN_BLOCK_HEADER_SIZE`. -/
def minBlockHeaderSize : ℕ := 8

/-- `CheckType`. -/
inductive CheckType where
  | none
  | crc32
  | crc64
  | sha256
  | reserved (id : UInt8)
deriving Repr, DecidableEq

namespace CheckType

/-- `CheckType::from_id`. -/
def fromId (id : UInt8) : Except XzErrorKind CheckType :=
  if id = 0x00 then .ok .none
  else if id = 0x01 then .ok .crc32
  else if id = 0x04 then .ok .crc64
  else if id = 0x0A then .ok .sha256
  else if id ≤ 0x0F then .ok (.reserved id)
  else .error .badStreamFlags

/-- `CheckType::id`. -/
def id : CheckType → UInt8
  | .none => 0x00
  | .crc32 => 0x01
  | .crc64 => 0x04
  | .sha256 => 0x0A
  | .reserved id => id

/-- `CheckType::size`. -/
def size (c : CheckType) : ℕ :=
  if c.id = 0 then 0 else 4 <<< ((c.id.toNat - 1) / 3)

/-- `CheckType::is_verifiable`, of a build with SHA-256 or without. -/
def isVerifiable (sha : Bool) : CheckType → Bool
  | .none | .crc32 | .crc64 => true
  | .sha256 => sha
  | .reserved _ => false

end CheckType

/-- `StreamFlags`. -/
structure StreamFlags where
  check : CheckType
  raw : UInt8 × UInt8
deriving Repr, DecidableEq

/-- `StreamFlags::parse`. -/
def StreamFlags.parse (a b : UInt8) : Except XzErrorKind StreamFlags :=
  if a ≠ 0 ∨ b &&& 0xF0 ≠ 0 then .error .badStreamFlags
  else do
    let check ← CheckType.fromId (b &&& 0x0F)
    .ok ⟨check, (a, b)⟩

section
variable (crc : Digest UInt32)

/-- `StreamHeader::parse`, of twelve bytes. -/
def StreamHeader.parse (buf : List UInt8) : Except XzErrorKind StreamFlags :=
  if buf.take 6 ≠ xzMagic then .error .badMagic
  else if crc.one ((buf.take 8).drop 6) ≠ fromLeBytes ((buf.take 12).drop 8) then .error .headerCrc
  else StreamFlags.parse (buf.getD 6 0) (buf.getD 7 0)

/-- `StreamFooter`. -/
structure StreamFooter where
  flags : StreamFlags
  indexSize : ℕ
deriving Repr, DecidableEq

/-- `StreamFooter::parse`, of twelve bytes. -/
def StreamFooter.parse (buf : List UInt8) : Except XzErrorKind StreamFooter :=
  if (buf.take 12).drop 10 ≠ xzFooterMagic then .error .badFooterMagic
  else if crc.one ((buf.take 10).drop 4) ≠ fromLeBytes (buf.take 4) then .error .headerCrc
  else do
    let backward := (fromLeBytes ((buf.take 8).drop 4)).toNat
    let flags ← StreamFlags.parse (buf.getD 8 0) (buf.getD 9 0)
    .ok ⟨flags, (backward + 1) * 4⟩

/-- `header_size_from_first_byte`. -/
def headerSizeFromFirstByte (b : UInt8) : Option ℕ :=
  if b = 0 then none else some ((b.toNat + 1) * 4)

/-- `FilterFlags::parse`. -/
def FilterFlags.parse (buf : List UInt8) (pos : ℕ) : Except XzErrorKind (FilterFlags × ℕ) := do
  let (id, pos) ← XzIndex.decodeAt buf pos
  let (size, pos) ← XzIndex.decodeAt buf pos
  let wantProps ←
    if id = filterLzma2 ∨ id = filterDelta then .ok 1
    else if (BcjKind.fromFilterId id).isSome then
      if size ≠ 0 ∧ size ≠ 4 then .error .badFilterChain else .ok size
    else .error .unsupportedFilter
  if size ≠ wantProps then .error .badFilterChain
  else if buf.length < pos + wantProps then .error .truncatedInput
  else
    let prop (i : ℕ) : UInt8 := if i < wantProps then buf.getD (pos + i) 0 else 0
    .ok ({ id, props := #v[prop 0, prop 1, prop 2, prop 3], propsLen := wantProps }, pos + wantProps)

/-- The loop of `BlockHeader::parse` over the filters. -/
def parseFilters (body : List UInt8) : ℕ → ℕ → List FilterFlags →
    Except XzErrorKind (List FilterFlags × ℕ)
  | 0, pos, filters => .ok (filters, pos)
  | n + 1, pos, filters => do
      let (f, pos) ← FilterFlags.parse body pos
      parseFilters body n pos (filters ++ [f])

/-- `BlockHeader`. -/
structure BlockHeader where
  headerSize : ℕ
  compressedSize : Option ℕ
  uncompressedSize : Option ℕ
  chain : FilterChain

/-- `BlockHeader::parse`. -/
def BlockHeader.parse (buf : List UInt8) : Except XzErrorKind BlockHeader :=
  if buf.length < minBlockHeaderSize ∨ maxBlockHeaderSize < buf.length ∨ buf.length % 4 ≠ 0 then
    .error .badBlockHeader
  else if headerSizeFromFirstByte (buf.getD 0 0) ≠ some buf.length then .error .badBlockHeader
  else
    let body := buf.take (buf.length - 4)
    if crc.one body ≠ fromLeBytes (buf.drop (buf.length - 4)) then .error .headerCrc
    else
      let flags := body.getD 1 0
      if flags &&& 0x3C ≠ 0 then .error .badBlockHeader
      else do
        let numFilters := (flags &&& 0x03).toNat + 1
        let (compressedSize, pos) ←
          if flags &&& 0x40 ≠ 0 then do
            let (v, pos) ← XzIndex.decodeAt body 2
            if v = 0 then .error .badBlockHeader else .ok (some v, pos)
          else .ok (none, 2)
        let (uncompressedSize, pos) ←
          if flags &&& 0x80 ≠ 0 then do
            let (v, pos) ← XzIndex.decodeAt body pos
            .ok (some v, pos)
          else .ok (none, pos)
        let (filters, pos) ← parseFilters body numFilters pos []
        if body.length < pos then .error .badBlockHeader
        else if (body.drop pos).any (· ≠ 0) then .error .badPadding
        else do
          let chain ← FilterChain.validate filters
          .ok { headerSize := buf.length, compressedSize, uncompressedSize, chain }

end
end LzmaTurbo.Xz
