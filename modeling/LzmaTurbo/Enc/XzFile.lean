import LzmaTurbo.Enc.XzEncoder
import LzmaTurbo.Enc.Lzma2Stream
import LzmaTurbo.Machine

/-!
# The xz file of an input

Which file an input comes to is settled by the encoder's settings and the bytes alone: one
block without sizes when the input is longer than the dictionary and a thread can be
started for it, else blocks of the size that was set, each with its sizes.
-/
namespace LzmaTurbo.Enc
open Machine (bind_eq_ok map_eq_ok)
open WriteAdapter

/-- The data in blocks of `size`, the last of what is left. -/
def cutBlocks (size : ℕ) (data : List UInt8) : List (List UInt8) :=
  if data = [] ∨ size = 0 then []
  else data.take size :: cutBlocks size (data.drop size)
  termination_by data.length
  decreasing_by
    rename_i h
    rw [not_or] at h
    have hdata := List.length_pos_of_ne_nil h.1
    rw [List.length_drop]
    omega

@[simp] theorem cutBlocks_nil (size : ℕ) : cutBlocks size [] = [] := by
  unfold cutBlocks
  simp

theorem cutBlocks_short {size : ℕ} {data : List UInt8} (hdata : data ≠ [])
    (hshort : data.length ≤ size) : cutBlocks size data = [data] := by
  have hpos : size ≠ 0 := by
    have hlen := List.length_pos_of_ne_nil hdata
    omega
  unfold cutBlocks
  rw [if_neg (by simp [hdata, hpos]), List.take_of_length_le hshort,
    List.drop_of_length_le hshort, cutBlocks_nil]

/-- Whole blocks in front are cut off as they are. -/
theorem cutBlocks_append {size : ℕ} (hsize : 0 < size) (blocks : List (List UInt8))
    (hwhole : ∀ block ∈ blocks, block.length = size) (rest : List UInt8) :
    cutBlocks size (blocks.flatten ++ rest) = blocks ++ cutBlocks size rest := by
  induction blocks with
  | nil => rfl
  | cons block blocks ih =>
      have hblock : block.length = size := hwhole block (by simp)
      have hne : block ≠ [] := List.ne_nil_of_length_pos (by omega)
      have hih := ih fun b hb => hwhole b (by simp [hb])
      rw [List.flatten_cons, List.append_assoc, cutBlocks, if_neg (by simp [hne]; omega),
        List.take_left' hblock, List.drop_left' hblock, hih, List.cons_append]

/-- A block as it lies in the file. -/
def Block.bytes (block : Block) : List UInt8 :=
  block.header ++ block.compressed ++ padToFour block.compressed.length ++ block.checkBytes

/-- A block as the index lists it. -/
def Block.record (block : Block) : ℕ × ℕ := (block.unpadded, block.uncompressed)

variable {P : XzParts}

/-- What fresh converters have made of an input in several pieces. -/
inductive XzParts.Pushed (P : XzParts) (first : P.Converters) :
    List UInt8 → List UInt8 → P.Converters → Prop
  | start : Pushed P first [] [] first
  | push {data out : List UInt8} {convs : P.Converters} (part : List UInt8) :
      Pushed P first data out convs →
      Pushed P first (data ++ part) (out ++ (P.encodePush convs part).1)
        (P.encodePush convs part).2

/-- What the xz encoder relies on: its LZMA2 coders, which `Built` holds of, all write what
`encode` gives, whatever they have written before; converters and checks fed piece by
piece come to what they make of the whole. -/
structure XzParts.Lawful (P : XzParts) (Built : P.Lzma2Encoder → Prop) (dictSize : ℕ)
    (encode : List UInt8 → List UInt8) : Prop where
  pipes {enc : P.Lzma2Encoder} : Built enc → P.Pipes enc dictSize encode
  start {enc enc' : P.Lzma2Encoder} : Built enc → P.start enc = .error enc' → Built enc'
  newEncoder {enc : P.Lzma2Encoder} : P.newEncoder = .ok enc → Built enc
  encodeSolid {enc : P.Lzma2Encoder} {data out : List UInt8} : Built enc →
    (P.encodeSolid enc data).1 = .ok out → out = encode data
  encodeSolid_built {enc : P.Lzma2Encoder} (data : List UInt8) : Built enc →
    Built (P.encodeSolid enc data).2
  converters {filters : List FilterFlags} {prop : UInt8} {first convs : P.Converters}
    {data out : List UInt8} : P.buildChain filters prop = .ok first →
    P.Pushed first data out convs → out ++ P.encodeFinish convs = P.encodeInPlace first data
  /-- The filters keep the size. -/
  size {filters : List FilterFlags} {prop : UInt8} {convs : P.Converters} (data : List UInt8) :
    P.buildChain filters prop = .ok convs → (P.encodeInPlace convs data).length = data.length
  check {kind : UInt8} {first : P.RunningCheck} (parts : List (List UInt8)) :
    P.newCheck kind = .ok first →
    P.computeCheck kind parts.flatten = .ok (P.finishCheck (parts.foldl P.updateCheck first))

namespace XzEncoder

/-- The bytes the coder gets for a block. -/
def converted (e : XzEncoder P) (data : List UInt8) : Except Error (List UInt8) :=
  if e.filters = [] then .ok data
  else (P.buildChain e.filters e.dictProp).map fun convs => P.encodeInPlace convs data

/-- The block of `data`, its sizes declared or not. -/
def blockOf (e : XzEncoder P) (encode : List UInt8 → List UInt8) (declared : Bool)
    (data : List UInt8) : Except Error Block := do
  let checkBytes ← P.computeCheck e.check data
  let compressed := encode (← e.converted data)
  let header ← blockHeader P e.filters e.dictProp
    (if declared then some (compressed.length, data.length) else none)
  return { header, compressed, checkBytes,
           unpadded := header.length + compressed.length + P.checkSize e.check,
           uncompressed := data.length }

/-- Whether the input comes to one block that is compressed as it arrives. -/
def solid (e : XzEncoder P) (data : List UInt8) : Bool :=
  match e.lzma2.map P.start with
  | some (.ok _) => e.blockSize = defaultBlockSize && e.solidThreshold < data.length
  | _ => false

def parts (e : XzEncoder P) (data : List UInt8) : List (List UInt8) :=
  if e.solid data then [data] else cutBlocks e.blockSize data

def streamHeader (e : XzEncoder P) : List UInt8 :=
  xzMagic ++ e.streamFlags ++ toLeBytes (P.crc32 e.streamFlags)

/-- The index over these records, and the footer. -/
def trailer (e : XzEncoder P) (records : List (ℕ × ℕ)) : List UInt8 :=
  (writeFooter (writeIndex { e with out := [], records })).out

/-- The file of an input, for an encoder on which nothing was written. -/
def file (e : XzEncoder P) (encode : List UInt8 → List UInt8) (data : List UInt8) :
    Except Error (List UInt8) := do
  let blocks ← (e.parts data).mapM (e.blockOf encode (!e.solid data))
  return e.streamHeader ++ (blocks.map Block.bytes).flatten ++ e.trailer (blocks.map Block.record)

/-- An encoder on which nothing was written yet. -/
structure Fresh (e : XzEncoder P) (Built : P.Lzma2Encoder → Prop) : Prop where
  lzma2 : ∃ enc, e.lzma2 = some enc ∧ Built enc
  threshold : e.solidThreshold ≤ defaultBlockSize
  stream : e.stream = none
  mayStream : e.mayStream = true
  pending : e.pending = []
  records : e.records = []
  out : e.out = e.streamHeader
  finished : e.finished = false
  queue : e.queue = []
  pool : e.pool = []

theorem new_fresh {Built : P.Lzma2Encoder → Prop} {enc : P.Lzma2Encoder} (henc : Built enc)
    (dictProp : UInt8) (dictSize : UInt32) :
    (new enc dictProp dictSize.toNat : XzEncoder P).Fresh Built where
  lzma2 := ⟨enc, rfl, henc⟩
  threshold := Nat.le_trans (Nat.le_of_lt dictSize.toNat_lt) (by decide)
  stream := rfl
  mayStream := rfl
  pending := rfl
  records := rfl
  out := rfl
  finished := rfl
  queue := rfl
  pool := rfl

section
variable {Built : P.Lzma2Encoder → Prop} {e e' : XzEncoder P}

theorem Fresh.built (h : e.Fresh Built) {enc : P.Lzma2Encoder} (hlzma2 : e.lzma2 = some enc) :
    Built enc := by
  obtain ⟨enc', henc', hbuilt⟩ := h.lzma2
  obtain rfl := Option.some.inj (hlzma2.symm.trans henc')
  exact hbuilt

theorem setCheck_fresh (h : e.Fresh Built) {check : UInt8} (hset : e.setCheck check = .ok e') :
    e'.Fresh Built := by
  unfold setCheck at hset
  split at hset
  · cases hset
  · split at hset
    · cases hset
    · cases hset
      exact ⟨h.lzma2, h.threshold, h.stream, h.mayStream, h.pending, h.records, rfl, h.finished,
        h.queue, h.pool⟩

theorem setFilters_fresh (h : e.Fresh Built) {filters : List FilterFlags}
    (hset : e.setFilters filters = .ok e') : e'.Fresh Built := by
  unfold setFilters at hset
  split at hset
  · cases hset
  · split at hset
    · cases hset
    · obtain ⟨_, -, rfl⟩ := map_eq_ok hset
      exact ⟨h.lzma2, h.threshold, h.stream, h.mayStream, h.pending, h.records, h.out,
        h.finished, h.queue, h.pool⟩

theorem setBlockSize_fresh (h : e.Fresh Built) (bytes : ℕ) :
    (e.setBlockSize bytes).Fresh Built := by
  unfold setBlockSize
  split <;> exact ⟨h.lzma2, h.threshold, h.stream, h.mayStream, h.pending, h.records, h.out,
    h.finished, h.queue, h.pool⟩

theorem setThreads_fresh (h : e.Fresh Built) (threads : ℕ) : (e.setThreads threads).Fresh Built :=
  ⟨h.lzma2, h.threshold, h.stream, h.mayStream, h.pending, h.records, h.out, h.finished, h.queue,
    h.pool⟩

end

/-- The encoders that `new` and the setters give. -/
inductive Opened (Built : P.Lzma2Encoder → Prop) : XzEncoder P → Prop
  | new {enc : P.Lzma2Encoder} (dictProp : UInt8) (dictSize : UInt32) : Built enc →
      Opened Built (new enc dictProp dictSize.toNat)
  | setCheck {e e' : XzEncoder P} (check : UInt8) : Opened Built e →
      e.setCheck check = .ok e' → Opened Built e'
  | setFilters {e e' : XzEncoder P} (filters : List FilterFlags) : Opened Built e →
      e.setFilters filters = .ok e' → Opened Built e'
  | setBlockSize {e : XzEncoder P} (bytes : ℕ) : Opened Built e →
      Opened Built (e.setBlockSize bytes)
  | setThreads {e : XzEncoder P} (threads : ℕ) : Opened Built e →
      Opened Built (e.setThreads threads)

theorem Opened.fresh {Built : P.Lzma2Encoder → Prop} {e : XzEncoder P} (h : Opened Built e) :
    e.Fresh Built := by
  induction h with
  | new dictProp dictSize henc => exact new_fresh henc dictProp dictSize
  | setCheck check _ hset ih => exact setCheck_fresh ih hset
  | setFilters filters _ hset ih => exact setFilters_fresh ih hset
  | setBlockSize bytes _ ih => exact setBlockSize_fresh ih bytes
  | setThreads threads _ ih => exact setThreads_fresh ih threads

end XzEncoder
end LzmaTurbo.Enc
