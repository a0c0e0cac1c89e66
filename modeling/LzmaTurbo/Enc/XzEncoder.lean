import LzmaTurbo.Enc.Lzma2Writer

/-!
# The xz encoder

The encoder hands what it produces to a sink piece by piece. The LZMA2 coder, its pipe,
the converters, the checks and the CRC are parameters; headers, padding, records, index
and footer are made here. A call stops at the first piece its sink refuses, so what a call
hands over is a list of pieces.

Sizes are natural numbers, running out of memory is left out, and the batch of block
threads is taken in stream order, as its results are.
-/
namespace LzmaTurbo.Enc

/-- A filter as a block header lists it. -/
structure FilterFlags where
  id : ℕ
  props : List UInt8
deriving Repr, DecidableEq

structure XzParts extends Lzma2Parts where
  /-- `Lzma2Encoder::new` with the encoder's settings. -/
  newEncoder : Except Error Lzma2Encoder
  /-- `encode_solid_reusing` once the data size is set. -/
  encodeSolid : Lzma2Encoder → List UInt8 → Except Error (List UInt8) × Lzma2Encoder
  Converters : Type
  /-- `chain_for_props`. -/
  validateChain : List FilterFlags → UInt8 → Except Error Unit
  /-- `chain_for_props`, then `build`. -/
  buildChain : List FilterFlags → UInt8 → Except Error Converters
  encodePush : Converters → List UInt8 → List UInt8 × Converters
  encodeFinish : Converters → List UInt8
  encodeInPlace : Converters → List UInt8 → List UInt8
  RunningCheck : Type
  checkSupported : UInt8 → Bool
  newCheck : UInt8 → Except Error RunningCheck
  updateCheck : RunningCheck → List UInt8 → RunningCheck
  finishCheck : RunningCheck → List UInt8
  computeCheck : UInt8 → List UInt8 → Except Error (List UInt8)
  checkSize : UInt8 → ℕ
  crc32 : List UInt8 → UInt32

/-- `DEFAULT_BLOCK_SIZE`: one block for the whole input. -/
def defaultBlockSize : ℕ := 0xFFFFFFFFFFFFFFFF
/-- `MAX_BLOCK_HEADER_SIZE`. -/
def maxBlockHeaderSize : ℕ := 1024
/-- `MAX_FILTERS`. -/
def maxFilters : ℕ := 4
/-- `FILTER_LZMA2`. -/
def filterLzma2 : ℕ := 0x21
/-- `XZ_MAGIC`. -/
def xzMagic : List UInt8 := [0xFD, 0x37, 0x7A, 0x58, 0x5A, 0x00]
/-- `XZ_FOOTER_MAGIC`. -/
def xzFooterMagic : List UInt8 := [0x59, 0x5A]

/-- `u32::to_le_bytes`. -/
def toLeBytes (x : UInt32) : List UInt8 :=
  [x.toUInt8, (x >>> 8).toUInt8, (x >>> 16).toUInt8, (x >>> 24).toUInt8]

/-- `vli::push`. -/
def vliPush (value : ℕ) : List UInt8 :=
  if value < 0x80 then [UInt8.ofNat value]
  else UInt8.ofNat (value % 0x80 + 0x80) :: vliPush (value / 0x80)

/-- `vli::encoded_len`. -/
def vliEncodedLen (value : ℕ) : ℕ :=
  if value < 0x80 then 1 else 1 + vliEncodedLen (value / 0x80)

/-- `pad_to_four`: the bytes it appends. -/
def padToFour (written : ℕ) : List UInt8 :=
  List.replicate ((4 - written % 4) % 4) 0

/-- One compressed block, ready to be appended in stream order. -/
structure Block where
  header : List UInt8
  compressed : List UInt8
  checkBytes : List UInt8
  unpadded : ℕ
  uncompressed : ℕ

structure SolidStream (P : XzParts) where
  pipe : P.Lzma2Pipe
  check : P.RunningCheck
  convs : Option P.Converters
  headerLen : ℕ
  uncompressed : ℕ

structure XzEncoder (P : XzParts) where
  check : UInt8
  blockSize : ℕ
  blockSize_pos : 0 < blockSize
  lzma2 : Option P.Lzma2Encoder
  dictProp : UInt8
  solidThreshold : ℕ
  stream : Option (SolidStream P)
  mayStream : Bool
  filters : List FilterFlags
  pending : List UInt8
  /-- The unpadded and the uncompressed size of every block written. -/
  records : List (ℕ × ℕ)
  out : List UInt8
  finished : Bool
  threads : ℕ
  queue : List (List UInt8)
  pool : List P.Lzma2Encoder

variable {P : XzParts}

/-- `block_header`. -/
def blockHeader (P : XzParts) (filters : List FilterFlags) (dictProp : UInt8)
    (sizes : Option (ℕ × ℕ)) : Except Error (List UInt8) :=
  let flags : UInt8 := UInt8.ofNat filters.length ||| if sizes.isSome then 0xC0 else 0
  let body := 2 + 3 +
    (match sizes with
      | some (compressed, uncompressed) => vliEncodedLen compressed + vliEncodedLen uncompressed
      | none => 0) +
    filters.foldl (fun n f =>
      n + vliEncodedLen f.id + vliEncodedLen f.props.length + f.props.length) 0
  let size := (body + 3) / 4 * 4 + 4
  if maxBlockHeaderSize < size then .error .param
  else
    let fields := [UInt8.ofNat (size / 4 - 1), flags] ++
      (match sizes with
        | some (compressed, uncompressed) => vliPush compressed ++ vliPush uncompressed
        | none => []) ++
      (filters.map fun f => vliPush f.id ++ vliPush f.props.length ++ f.props).flatten ++
      vliPush filterLzma2 ++ vliPush 1 ++ [dictProp]
    let h := (fields ++ List.replicate (size - 4) 0).take (size - 4)
    .ok (h ++ toLeBytes (P.crc32 h))

namespace SolidStream

/-- The loop of `push` over pieces of at most 64 KiB. -/
def pushParts (pipe : P.Lzma2Pipe) (convs : P.Converters) :
    List (List UInt8) → Emitted (P.Lzma2Pipe × P.Converters) Unit
  | [] => ⟨[], (pipe, convs), .ok ()⟩
  | part :: parts =>
      let converted := P.encodePush convs part
      let sent := P.write pipe converted.1
      match sent.result with
      | .error e => ⟨sent.pieces, (sent.state, converted.2), .error e⟩
      | .ok _ =>
          let rest := pushParts sent.state converted.2 parts
          { rest with pieces := sent.pieces ++ rest.pieces }

/-- What both forms of `push` do first: the check covers what came in. -/
def count (s : SolidStream P) (data : List UInt8) : SolidStream P :=
  { s with check := P.updateCheck s.check data, uncompressed := s.uncompressed + data.length }

def push (s : SolidStream P) (data : List UInt8) : Emitted (SolidStream P) Unit :=
  let s := s.count data
  match s.convs with
  | some convs =>
      let r := pushParts s.pipe convs (data.toChunks (64 <<< 10))
      ⟨r.pieces, { s with pipe := r.state.1, convs := some r.state.2 }, r.result⟩
  | none =>
      let r := P.write s.pipe data
      ⟨r.pieces, { s with pipe := r.state }, r.result⟩

def pushOwned (s : SolidStream P) (held : List UInt8) : Emitted (SolidStream P) Unit :=
  match s.convs with
  | some _ => s.push held
  | none =>
      let s := s.count held
      let r := P.writeOwned s.pipe held
      ⟨r.pieces, { s with pipe := r.state }, r.result⟩

/-- What the converters still hold goes to the pipe. -/
def flushConvs (s : SolidStream P) : Emitted P.Lzma2Pipe Unit :=
  match s.convs with
  | some convs => P.write s.pipe (P.encodeFinish convs)
  | none => ⟨[], s.pipe, .ok ()⟩

/-- `finish_stream_output`: the block's record. -/
def finishOutput (s : SolidStream P) (check : UInt8) : Emitted Unit (ℕ × ℕ) :=
  let flushed := s.flushConvs
  match flushed.result with
  | .error e => ⟨flushed.pieces, (), .error e⟩
  | .ok _ =>
      let ended := P.finish flushed.state
      match ended.result with
      | .error e => ⟨flushed.pieces ++ ended.pieces, (), .error e⟩
      | .ok compressed =>
          let trailer := padToFour (compressed % 4) ++ P.finishCheck s.check
          ⟨flushed.pieces ++ ended.pieces ++ [trailer], (),
            .ok (s.headerLen + compressed + P.checkSize check, s.uncompressed)⟩

end SolidStream

/-- What is threaded through the encoder's calls: the encoder, and the pieces its sink got. -/
structure Handing (P : XzParts) where
  enc : XzEncoder P
  pieces : List (List UInt8)

abbrev ToSink (P : XzParts) := ExceptT Error (StateM (Handing P))

namespace XzEncoder

def modifyEnc (f : XzEncoder P → XzEncoder P) : ToSink P Unit :=
  modify fun h => { h with enc := f h.enc }

/-- `out.write`. -/
def emit (piece : List UInt8) : ToSink P Unit :=
  modify fun h => { h with pieces := h.pieces ++ [piece] }

/-- The encoder's own buffer as the sink. -/
def emitOut (bytes : List UInt8) : ToSink P Unit :=
  modifyEnc fun e => { e with out := e.out ++ bytes }

/-- Sends what the encoder buffered and clears it. -/
def emitHeld : ToSink P Unit := do
  emit (← get).enc.out
  modifyEnc fun e => { e with out := [] }

/-- Runs a call of the stream's with the sink as its sink. -/
def forward {σ ρ : Type} (r : Emitted σ ρ) (keep : σ → XzEncoder P → XzEncoder P) :
    ToSink P ρ := do
  modify fun h => ⟨keep r.state h.enc, h.pieces ++ r.pieces⟩
  MonadExcept.ofExcept r.result

def streamFlags (e : XzEncoder P) : List UInt8 := [0, e.check]

def writeStreamHeader (e : XzEncoder P) : XzEncoder P :=
  { e with out := e.out ++ xzMagic ++ e.streamFlags ++ toLeBytes (P.crc32 e.streamFlags) }

/-- `XzEncoder::new`, for settings whose encoder is `enc`. -/
def new (enc : P.Lzma2Encoder) (dictProp : UInt8) (dictSize : ℕ) : XzEncoder P :=
  writeStreamHeader
    { check := 4, blockSize := defaultBlockSize, blockSize_pos := by decide, lzma2 := some enc,
      dictProp, solidThreshold := dictSize, stream := none, mayStream := true, filters := [],
      pending := [], records := [], out := [], finished := false, threads := 1, queue := [],
      pool := [] }

/-- Whether any input has gone in. -/
def started (e : XzEncoder P) : Bool :=
  !e.records.isEmpty || !e.pending.isEmpty || e.stream.isSome

/-- The check type is in the stream header, which is made again. -/
def setCheck (e : XzEncoder P) (check : UInt8) : Except Error (XzEncoder P) :=
  if P.checkSupported check = false then .error .param
  else if e.started then .error .param
  else .ok (writeStreamHeader { e with check, out := [] })

def setFilters (e : XzEncoder P) (filters : List FilterFlags) : Except Error (XzEncoder P) :=
  if e.started then .error .param
  else if maxFilters ≤ filters.length then .error .param
  else (P.validateChain filters e.dictProp).map fun _ => { e with filters }

def setBlockSize (e : XzEncoder P) (bytes : ℕ) : XzEncoder P :=
  if h : bytes = 0 then { e with blockSize := defaultBlockSize, blockSize_pos := by decide }
  else { e with blockSize := bytes, blockSize_pos := Nat.pos_of_ne_zero h }

def setThreads (e : XzEncoder P) (threads : ℕ) : XzEncoder P := { e with threads := max threads 1 }

/-- `compress_block`. -/
def compressBlock (e : XzEncoder P) (lzma2 : P.Lzma2Encoder) (data : List UInt8) :
    Except Error Block × P.Lzma2Encoder :=
  let converted := if e.filters = [] then .ok data
    else (P.buildChain e.filters e.dictProp).map (P.encodeInPlace · data)
  match P.computeCheck e.check data, converted with
  | .error err, _ => (.error err, lzma2)
  | .ok _, .error err => (.error err, lzma2)
  | .ok checkBytes, .ok converted =>
      let packed := P.encodeSolid lzma2 converted
      (do
        let compressed ← packed.1
        let header ← blockHeader P e.filters e.dictProp (some (compressed.length, data.length))
        return { header, compressed, checkBytes,
                 unpadded := header.length + compressed.length + P.checkSize e.check,
                 uncompressed := data.length },
        packed.2)

/-- `compress_pending`: the held bytes are gone whatever comes of them. -/
def compressPending : ToSink P Block := do
  let e := (← get).enc
  modifyEnc fun e => { e with pending := [] }
  match e.lzma2 with
  | none => throw .internalFailure
  | some lzma2 =>
      let r := e.compressBlock lzma2 e.pending
      modifyEnc fun e => { e with lzma2 := some r.2 }
      MonadExcept.ofExcept r.1

/-- Adds to the pool of encoders until it has `want`. -/
def growPool : ℕ → ToSink P Unit
  | 0 => pure ()
  | missing + 1 => do
      let enc ← MonadExcept.ofExcept P.newEncoder
      modifyEnc fun e => { e with pool := e.pool ++ [enc] }
      growPool missing

/-- Every queued block with an encoder of the pool. -/
def compressAll (e : XzEncoder P) :
    List P.Lzma2Encoder → List (List UInt8) → List (Except Error Block) × List P.Lzma2Encoder
  | enc :: pool, data :: queue =>
      let r := e.compressBlock enc data
      let rest := e.compressAll pool queue
      (r.1 :: rest.1, r.2 :: rest.2)
  | pool, _ => ([], pool)

def compressQueue : ToSink P (List (Except Error Block)) := do
  let e := (← get).enc
  if e.queue = [] then return []
  growPool (e.queue.length - e.pool.length)
  let pool := (← get).enc.pool
  let r := e.compressAll pool e.queue
  modifyEnc fun e => { e with queue := [], pool := r.2 }
  return r.1

def addRecord (record : ℕ × ℕ) : ToSink P Unit :=
  modifyEnc fun e => { e with records := e.records ++ [record] }

def appendBlock (block : Block) : ToSink P Unit := do
  emitOut (block.header ++ block.compressed ++ padToFour block.compressed.length ++
    block.checkBytes)
  addRecord (block.unpadded, block.uncompressed)

def appendBlockTo (block : Block) : ToSink P Unit := do
  emit block.header
  emit block.compressed
  emit (padToFour block.compressed.length)
  emit block.checkBytes
  addRecord (block.unpadded, block.uncompressed)

/-- Appends the blocks of a batch in order, up to the first that failed. -/
def appendAll (append : Block → ToSink P Unit) : List (Except Error Block) → ToSink P Unit
  | [] => pure ()
  | block :: blocks => do
      append (← MonadExcept.ofExcept block)
      appendAll append blocks

def flushQueue : ToSink P Unit := do appendAll appendBlock (← compressQueue)

def flushQueueTo : ToSink P Unit := do appendAll appendBlockTo (← compressQueue)

/-- `queue_pending`: whether the batch is full. -/
def queuePending : ToSink P Bool := do
  modifyEnc fun e => { e with queue := e.queue ++ [e.pending], pending := [] }
  return (← get).enc.threads ≤ (← get).enc.queue.length

/-- `take_spare` and `take_spare_from_batch`: a cleared buffer to fill. -/
def takeSpare : ToSink P Unit := modifyEnc fun e => { e with pending := [] }

/-- A whole block is held: one of the two ways `block_ready` and `block_ready_to` take it. -/
def passBlock (flush : ToSink P Unit) (append : Block → ToSink P Unit) : ToSink P Unit := do
  if 1 < (← get).enc.threads then
    if ← queuePending then flush
  else append (← compressPending)

def blockReady : ToSink P Unit := do
  passBlock flushQueue appendBlock
  takeSpare

def blockReadyTo : ToSink P Unit := do
  passBlock flushQueueTo appendBlockTo
  takeSpare

/-- A call that ends by clearing the buffer leaves it empty. -/
theorem takeSpare_pending (m : ToSink P Unit) (h h' : Handing P)
    (hrun : (do m; takeSpare : ToSink P Unit) h = (.ok (), h')) : h'.enc.pending = [] := by
  have hbind : (do m; takeSpare : ToSink P Unit) h =
      ExceptT.bindCont (fun _ => takeSpare) (m h).1 (m h).2 := rfl
  rw [hbind] at hrun
  cases hm : (m h).1 with
  | ok a =>
      rw [hm] at hrun
      cases hrun
      rfl
  | error e =>
      rw [hm] at hrun
      cases hrun

/-- The last loop of `push_to`. Input held under another block size can already be past the
size, and the take is then nothing; the block is passed on and there is room again. -/
def pushBlocks (data : List UInt8) (h : Handing P) : Except Error Unit × Handing P :=
  if data = [] then (.ok (), h)
  else
    let e := h.enc
    let take := min (e.blockSize - e.pending.length) data.length
    let h := { h with enc := { e with pending := e.pending ++ data.take take } }
    if e.blockSize ≤ (e.pending ++ data.take take).length then
      match _hready : (blockReadyTo : ToSink P Unit) h with
      | (.ok _, h) => pushBlocks (data.drop take) h
      | (.error err, h) => (.error err, h)
    else pushBlocks (data.drop take) h
  termination_by 2 * data.length + if h.enc.blockSize ≤ h.enc.pending.length then 1 else 0
  decreasing_by
  -- A turn takes something, or passes on a block that was full before it.
  · have hpending : h.enc.pending = [] := takeSpare_pending _ _ _ _hready
    have hpos := h.enc.blockSize_pos
    have hdata := List.length_pos_of_ne_nil ‹¬data = []›
    rw [hpending, List.length_nil, if_neg (Nat.not_le.2 hpos), List.length_drop]
    split <;> omega
  · have hdata := List.length_pos_of_ne_nil ‹¬data = []›
    rw [if_neg ‹_›, List.length_drop]
    rename_i hroom
    rw [List.length_append] at hroom
    split <;> omega

/-- `start_stream_with`: the header goes to the encoder's buffer; `deliver` hands over the
buffer and the held bytes. Without a thread the block is held as before. -/
def startStreamWith (deliver : SolidStream P → List UInt8 → ToSink P (SolidStream P)) :
    ToSink P Unit := do
  flushQueue
  let e := (← get).enc
  match e.lzma2 with
  | none => throw .internalFailure
  | some lzma2 =>
      modifyEnc fun e => { e with lzma2 := none }
      match P.start lzma2 with
      | .error lzma2 => modifyEnc fun e => { e with lzma2 := some lzma2, mayStream := false }
      | .ok pipe =>
          let convs ← MonadExcept.ofExcept <|
            if e.filters = [] then .ok none else (P.buildChain e.filters e.dictProp).map some
          let header ← MonadExcept.ofExcept <| blockHeader P e.filters e.dictProp none
          emitOut header
          let check ← MonadExcept.ofExcept <| P.newCheck e.check
          modifyEnc fun e => { e with pending := [], pool := [] }
          let stream ← deliver
            { pipe, check, convs, headerLen := header.length, uncompressed := 0 } e.pending
          modifyEnc fun e => { e with stream := some stream }

/-- What `push_to` has `start_stream_with` deliver. -/
def deliverTo (stream : SolidStream P) (held : List UInt8) : ToSink P (SolidStream P) := do
  emitHeld
  let r := stream.pushOwned held
  forward r fun _ e => e
  return r.state

/-- More input for the solid block. -/
def pushStream (stream : SolidStream P) (data : List UInt8) : ToSink P Unit :=
  forward (stream.push data) fun stream e => { e with stream := some stream }

/-- `push_to` while the one block may still start to stream: input past the dictionary
starts it. -/
def pushHeld (data : List UInt8) : ToSink P Unit := do
  let e := (← get).enc
  let take := min (e.solidThreshold - e.pending.length) data.length
  modifyEnc fun e => { e with pending := e.pending ++ data.take take }
  if data.drop take = [] then return
  flushQueueTo
  startStreamWith deliverTo
  match (← get).enc.stream with
  | some stream => pushStream stream (data.drop take)
  | none => pushBlocks (data.drop take)

def pushTo (data : List UInt8) : ToSink P Unit := do
  if (← get).enc.finished then throw .param
  emitHeld
  let e := (← get).enc
  match e.stream with
  | some stream => pushStream stream data
  | none =>
      if e.blockSize = defaultBlockSize ∧ e.mayStream then pushHeld data
      else pushBlocks data

def writeIndex (e : XzEncoder P) : XzEncoder P :=
  let body := [0x00] ++ vliPush e.records.length ++
    (e.records.map fun r => vliPush r.1 ++ vliPush r.2).flatten
  let index := body ++ padToFour body.length
  { e with out := e.out ++ index ++ toLeBytes (P.crc32 index) }

def indexSize (e : XzEncoder P) : ℕ :=
  let n := 1 + vliEncodedLen e.records.length +
    e.records.foldl (fun n r => n + vliEncodedLen r.1 + vliEncodedLen r.2) 0
  (n + 3) / 4 * 4 + 4

def writeFooter (e : XzEncoder P) : XzEncoder P :=
  let fields := toLeBytes (UInt32.ofNat (e.indexSize / 4 - 1)) ++ e.streamFlags
  { e with out := e.out ++ toLeBytes (P.crc32 fields) ++ fields ++ xzFooterMagic }

def finish : ToSink P Unit := do
  if (← get).enc.finished then throw .param
  let e := (← get).enc
  match e.stream with
  | none => pure ()
  | some stream =>
      let r := stream.finishOutput e.check
      modifyEnc fun e => { e with stream := none, out := e.out ++ r.pieces.flatten }
      addRecord (← MonadExcept.ofExcept r.result)
  if (← get).enc.pending ≠ [] then blockReady
  flushQueue
  modifyEnc fun e => { e.writeIndex.writeFooter with finished := true }

def finishTo : ToSink P Unit := do
  if (← get).enc.finished then throw .param
  emitHeld
  let e := (← get).enc
  match e.stream with
  | none => pure ()
  | some stream =>
      addRecord (← forward (stream.finishOutput e.check) fun _ e => { e with stream := none })
  if (← get).enc.pending ≠ [] then blockReadyTo
  flushQueueTo
  finish
  emitHeld

/-- Runs a call of the encoder's: what it hands over, the encoder after it, how it ends. -/
def handOver (e : XzEncoder P) (call : ToSink P Unit) : Emitted (XzEncoder P) Unit :=
  let r := call ⟨e, []⟩
  ⟨r.2.pieces, r.2.enc, r.1⟩

end XzEncoder
end LzmaTurbo.Enc
