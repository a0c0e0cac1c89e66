import LzmaTurbo.Mt.CrcFolder
import LzmaTurbo.Xz.Source
import LzmaTurbo.Xz.Vli

/-!
# The index of a stream, read three ways

A seekable reader parses it from one buffer, the sequential reader as it comes, and the
adaptive decoder tries again from its start whenever more of it has arrived. The last two
compare it with the blocks that went by.
-/
namespace LzmaTurbo.Xz
open LzmaTurbo.Crc Vli

/-- `MAX_INDEX_SIZE`. -/
def maxIndexSize : ℕ := 0x400000000
/-- `MIN_RECORD_BYTES`. -/
def minRecordBytes : ℕ := 2

/-- `checked_add` of a `u64`. -/
def checkedAdd (a b : ℕ) : Option ℕ := if u64Max < a + b then none else some (a + b)

/-- `to_le_bytes`, of `n` bytes. -/
def leBytes : ℕ → ℕ → List UInt8
  | 0, _ => []
  | n + 1, v => UInt8.ofNat v :: leBytes n (v >>> 8)

/-- `u32::from_le_bytes`. -/
def fromLeBytes (bytes : List UInt8) : UInt32 :=
  UInt32.ofNat (bytes.foldr (fun b v => b.toNat + 0x100 * v) 0)

/-- `XzIndexRecord`. -/
structure XzIndexRecord where
  unpaddedSize : ℕ
  uncompressedSize : ℕ
deriving Repr, DecidableEq

/-- `padded_size`. -/
def XzIndexRecord.paddedSize (r : XzIndexRecord) : Option ℕ :=
  (checkedAdd r.unpaddedSize 3).map (· &&& 0xFFFFFFFFFFFFFFFC)

/-- `IndexFold`. -/
structure IndexFold (K : Digest UInt64) where
  count : ℕ
  blocksSize : ℕ
  uncompressed : ℕ
  digest : K.State

/-- What a fold is closed to. -/
structure FoldTotals where
  count : ℕ
  blocksSize : ℕ
  uncompressed : ℕ
  digest : UInt64
deriving Repr, DecidableEq

namespace IndexFold
variable {K : Digest UInt64}

/-- `IndexFold::default`. -/
def default (K : Digest UInt64) : IndexFold K := ⟨0, 0, 0, K.new⟩

/-- `IndexFold::push`. -/
def push (f : IndexFold K) (unpadded uncompressed : ℕ) : Except XzErrorKind (IndexFold K) :=
  match checkedAdd unpadded 3 with
  | none => .error .sizeMismatch
  | some padded =>
      match checkedAdd f.blocksSize (padded &&& 0xFFFFFFFFFFFFFFFC) with
      | none => .error .sizeMismatch
      | some blocksSize =>
          match checkedAdd f.uncompressed uncompressed with
          | none => .error .sizeMismatch
          | some total =>
              .ok { count := f.count + 1, blocksSize, uncompressed := total
                    digest := K.update (K.update f.digest (leBytes 8 unpadded))
                      (leBytes 8 uncompressed) }

/-- `IndexFold::finish`. -/
def finish (f : IndexFold K) : FoldTotals :=
  ⟨f.count, f.blocksSize, f.uncompressed, K.finalize f.digest⟩

end IndexFold

/-- `XzIndex`. -/
structure XzIndex where
  records : List XzIndexRecord
  indexSize : ℕ
deriving Repr, DecidableEq

namespace XzIndex

/-- `decode_at`. -/
def decodeAt (buf : List UInt8) (pos : ℕ) : Except XzErrorKind (ℕ × ℕ) :=
  match decode (buf.drop pos) with
  | .error k => .error k
  | .ok (v, n) => .ok (v, pos + n)

/-- The loop of `parse` over the records. -/
def parseRecords (body : List UInt8) : ℕ → ℕ → ℕ → List XzIndexRecord →
    Except XzErrorKind (List XzIndexRecord × ℕ)
  | 0, pos, _, records => .ok (records, pos)
  | count + 1, pos, totalUnpadded, records => do
      let (unpaddedSize, pos) ← decodeAt body pos
      let (uncompressedSize, pos) ← decodeAt body pos
      if unpaddedSize < 5 then .error .indexMismatch
      else
        let r : XzIndexRecord := ⟨unpaddedSize, uncompressedSize⟩
        match r.paddedSize with
        | none => .error .indexMismatch
        | some padded =>
            match checkedAdd totalUnpadded padded with
            | none => .error .indexMismatch
            | some totalUnpadded => parseRecords body count pos totalUnpadded (records ++ [r])

/-- `XzIndex::parse`. -/
def parse (crc : Digest UInt32) (buf : List UInt8) : Except XzErrorKind XzIndex :=
  if buf.length < 8 ∨ buf.length % 4 ≠ 0 ∨ maxIndexSize < buf.length then
    .error .indexMismatch
  else
    let body := buf.take (buf.length - 4)
    let stored := fromLeBytes (buf.drop (buf.length - 4))
    if crc.one body ≠ stored then .error .headerCrc
    else if body.head? ≠ some 0 then .error .indexMismatch
    else do
      let (count, pos) ← decodeAt body 1
      let room := (body.length - pos) / minRecordBytes
      if room < count then .error .indexMismatch
      else do
        let (records, pos) ← parseRecords body count pos 0 []
        let pad := body.drop pos
        if 3 < pad.length ∨ pad.any (· ≠ 0) then .error .indexMismatch
        else .ok ⟨records, buf.length⟩

end XzIndex

/-- What the sequential reader keeps while it reads an index. -/
structure IndexRun (crc : Digest UInt32) where
  src : Source
  crc : crc.State
  size : ℕ

namespace XzReader
variable {crc : Digest UInt32} {K : Digest UInt64}

/-- `index_vli`. -/
def indexVli (r : IndexRun crc) : Except XzErrorKind (ℕ × IndexRun crc) :=
  let src := r.src.fillAtLeast vliMaxBytes
  match decode src.avail with
  | .error k => .error k
  | .ok (value, len) =>
      .ok (value, ⟨src.consume len, crc.update r.crc (src.avail.take len), r.size + len⟩)

/-- The loop of `index` over the records. -/
def indexRecords : ℕ → IndexRun crc → IndexFold K → Except XzErrorKind (IndexRun crc × IndexFold K)
  | 0, r, seen => .ok (r, seen)
  | count + 1, r, seen => do
      let (unpadded, r) ← indexVli r
      let (uncompressed, r) ← indexVli r
      if unpadded < 5 then .error .indexMismatch
      else do
        let seen ← seen.push unpadded uncompressed
        if maxIndexSize < r.size then .error .indexMismatch
        else indexRecords count r seen

/-- The loop of `index` over the padding, of at most `n` bytes. -/
def indexPadding : ℕ → IndexRun crc → Except XzErrorKind (IndexRun crc)
  | 0, r => .ok r
  | n + 1, r =>
      if r.size % 4 = 0 then .ok r
      else
        match r.src.takeInto 1 with
        | none => .error .truncatedInput
        | some (b, src) =>
            if b ≠ [0] then .error .badPadding
            else indexPadding n ⟨src, crc.update r.crc b, r.size + 1⟩

/-- `XzReader::index`, its indicator read: the source after it and its size. -/
def index (crc : Digest UInt32) (K : Digest UInt64) (src : Source) (folded : FoldTotals) :
    Except XzErrorKind (Source × ℕ) := do
  let (count, r) ← indexVli (⟨src, crc.update crc.new [0], 1⟩ : IndexRun crc)
  if count ≠ folded.count then .error .indexMismatch
  else do
    let (r, seen) ← indexRecords count r (IndexFold.default K)
    let totals := seen.finish
    if totals.digest ≠ folded.digest ∨ totals.blocksSize ≠ folded.blocksSize ∨
        totals.uncompressed ≠ folded.uncompressed then .error .indexMismatch
    else do
      let r ← indexPadding 3 r
      match r.src.takeInto 4 with
      | none => .error .truncatedInput
      | some (stored, src) =>
          if crc.finalize r.crc ≠ fromLeBytes stored then .error .headerCrc
          else .ok (src, r.size + 4)

end XzReader

/-- Why an attempt at the whole index ends early. -/
inductive IndexStop where
  | incomplete
  | err (kind : XzErrorKind)
deriving Repr, DecidableEq

/-- Where an attempt is in the bytes it has. -/
structure IndexTry (crc : Digest UInt32) where
  pos : ℕ
  size : ℕ
  crc : crc.State

namespace XzAdaptiveDecoder
variable {crc : Digest UInt32} {K : Digest UInt64}

/-- The closure `take_vli`. -/
def takeVli (body : List UInt8) (t : IndexTry crc) : Except IndexStop (ℕ × IndexTry crc) :=
  match decode (body.drop t.pos) with
  | .error .truncatedVli => .error .incomplete
  | .error k => .error (.err k)
  | .ok (v, n) =>
      .ok (v, ⟨t.pos + n, t.size + n, crc.update t.crc ((body.drop t.pos).take n)⟩)

/-- The loop of `index` over the records. -/
def tryRecords (body : List UInt8) : ℕ → IndexTry crc → IndexFold K →
    Except IndexStop (IndexTry crc × IndexFold K)
  | 0, t, seen => .ok (t, seen)
  | count + 1, t, seen => do
      let (unpadded, t) ← takeVli body t
      let (uncompressed, t) ← takeVli body t
      if unpadded < 5 then .error (.err .indexMismatch)
      else
        match seen.push unpadded uncompressed with
        | .error k => .error (.err k)
        | .ok seen =>
            if maxIndexSize < t.size then .error (.err .indexMismatch)
            else tryRecords body count t seen

/-- The loop of `index` over the padding, of at most `n` bytes. -/
def tryPadding (body : List UInt8) : ℕ → IndexTry crc → Except IndexStop (IndexTry crc)
  | 0, t => .ok t
  | n + 1, t =>
      if t.size % 4 = 0 then .ok t
      else
        match body[t.pos]? with
        | none => .error .incomplete
        | some b =>
            if b ≠ 0 then .error (.err .badPadding)
            else tryPadding body n ⟨t.pos + 1, t.size + 1, crc.update t.crc [0]⟩

/-- An attempt of `index` on what has arrived: how many bytes are used, and the size. -/
def tryIndex (crc : Digest UInt32) (K : Digest UInt64) (body : List UInt8)
    (folded : FoldTotals) : Except IndexStop (ℕ × ℕ) := do
  let (count, t) ← takeVli body (⟨0, 1, crc.update crc.new [0]⟩ : IndexTry crc)
  if count ≠ folded.count then .error (.err .indexMismatch)
  else do
    let (t, seen) ← tryRecords body count t (IndexFold.default K)
    let totals := seen.finish
    if totals.digest ≠ folded.digest ∨ totals.blocksSize ≠ folded.blocksSize ∨
        totals.uncompressed ≠ folded.uncompressed then .error (.err .indexMismatch)
    else do
      let t ← tryPadding body 3 t
      if body.length < t.pos + 4 then .error .incomplete
      else if crc.finalize t.crc ≠ fromLeBytes ((body.drop t.pos).take 4) then
        .error (.err .headerCrc)
      else .ok (t.pos + 4, t.size + 4)

/-- The fields of the decoder that its index state uses: what has arrived and is not used,
and how many bytes it holds elsewhere. -/
structure State where
  avail : List UInt8
  foldFinal : FoldTotals
  indexRetryAt : ℕ
  memoryLimit : ℕ
  held : ℕ
  inputDone : Bool
deriving Repr, DecidableEq

/-- What one step in the index state comes to. -/
inductive Step where
  | did (s : State) (indexSize : ℕ)
  | blocked (s : State)
  | err (kind : XzErrorKind)
deriving Repr, DecidableEq

/-- `incomplete_index`. -/
def incompleteIndex (s : State) : Step :=
  if s.inputDone then .err .truncatedInput
  else if s.memoryLimit ≤ s.avail.length + s.held then
    .err (.memoryLimit (s.avail.length + s.held + 1) s.memoryLimit)
  else .blocked { s with indexRetryAt := s.avail.length }

/-- `XzAdaptiveDecoder::index`. -/
def index (crc : Digest UInt32) (K : Digest UInt64) (s : State) : Step :=
  if s.avail.length ≤ s.indexRetryAt ∧ s.inputDone = false then .blocked s
  else
    match tryIndex crc K s.avail s.foldFinal with
    | .error .incomplete => incompleteIndex s
    | .error (.err k) => .err k
    | .ok (used, size) => .did { s with avail := s.avail.drop used } size

/-- `feed`: how much of the data is taken. -/
def feed (s : State) (data : List UInt8) : State :=
  let room := s.memoryLimit - (s.avail.length + s.held)
  let take := min room data.length
  let take := if take = 0 ∧ s.avail = [] then min data.length 0x10000 else take
  { s with avail := s.avail ++ data.take take }

/-- What can happen between two steps that are blocked. -/
inductive Event where
  | feed (data : List UInt8)
  | hold (n : ℕ)
  | endOfInput
  | step
deriving Repr, DecidableEq

/-- One event; nothing where a step is not blocked. -/
def event (crc : Digest UInt32) (K : Digest UInt64) (s : State) : Event → Option State
  | .feed data => some (feed s data)
  | .hold n => some { s with held := n }
  | .endOfInput => some { s with inputDone := true }
  | .step =>
      match index crc K s with
      | .blocked s => some s
      | _ => none

/-- A state with the indicator just read, and what can become of it. -/
inductive Reachable (crc : Digest UInt32) (K : Digest UInt64) : State → Prop
  | start {s : State} : s.indexRetryAt = 0 → Reachable crc K s
  | event {s s' : State} (e : Event) : Reachable crc K s → event crc K s e = some s' →
      Reachable crc K s'

end XzAdaptiveDecoder
end LzmaTurbo.Xz
