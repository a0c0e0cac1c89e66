import LzmaTurbo.Enc.XzFile
import LzmaTurbo.Lib.Outcomes

/-!
# Blocks with their sizes

While the encoder cuts its input into blocks, what it has handed over is the stream header
and a list of blocks, and the bytes it holds are a list of whole blocks and the rest. A call
that fails has handed over no block out of turn.
-/
namespace LzmaTurbo.Enc
open Machine (bind_eq_ok map_eq_ok)
open WriteAdapter Outcomes

namespace XzEncoder

variable {P : XzParts}

/-- What decides the bytes of a block, and how the input is cut. -/
def settings (e : XzEncoder P) : UInt8 × ℕ × UInt8 × ℕ × List FilterFlags :=
  (e.check, e.blockSize, e.dictProp, e.solidThreshold, e.filters)

/-- The blocks of `parts` are handed over, `got` of them in earlier calls; `queue` and
`pending` are held. -/
structure Wrote (e₀ : XzEncoder P) (Built : P.Lzma2Encoder → Prop)
    (encode : List UInt8 → List UInt8) (got : List UInt8) (may : Bool)
    (parts queue : List (List UInt8)) (pending : List UInt8) (h : Handing P) : Prop where
  settings : h.enc.settings = e₀.settings
  coder : ∀ enc, h.enc.lzma2 = some enc → Built enc
  pool : ∀ enc ∈ h.enc.pool, Built enc
  stream : h.enc.stream = none
  mayStream : h.enc.mayStream = may
  finished : h.enc.finished = false
  out : h.enc.out = []
  queued : h.enc.queue = queue
  /-- Only block threads leave blocks for later. -/
  single : h.enc.threads ≤ 1 → queue = []
  held : h.enc.pending = pending
  made : ∃ blocks, parts.mapM (e₀.blockOf encode true) = .ok blocks ∧
    h.enc.records = blocks.map Block.record ∧
    got ++ h.pieces.flatten = e₀.streamHeader ++ (blocks.map Block.bytes).flatten

/-- What is handed over comes first among the blocks of `parts`. -/
def Below (e₀ : XzEncoder P) (encode : List UInt8 → List UInt8) (got : List UInt8)
    (parts : List (List UInt8)) (h : Handing P) : Prop :=
  ∀ blocks, parts.mapM (e₀.blockOf encode true) = .ok blocks →
    got ++ h.pieces.flatten <+: e₀.streamHeader ++ (blocks.map Block.bytes).flatten

variable {e₀ : XzEncoder P} {Built : P.Lzma2Encoder → Prop} {encode : List UInt8 → List UInt8}
  {got : List UInt8} {may : Bool} {parts queue : List (List UInt8)} {pending : List UInt8}
  {h : Handing P}

theorem mapM_append {α β : Type} (f : α → Except Error β) (xs ys : List α) (zs : List β)
    (hall : (xs ++ ys).mapM f = .ok zs) :
    ∃ as bs, xs.mapM f = .ok as ∧ ys.mapM f = .ok bs ∧ zs = as ++ bs := by
  rw [List.mapM_append] at hall
  obtain ⟨as, has, hall⟩ := bind_eq_ok hall
  obtain ⟨bs, hbs, hall⟩ := bind_eq_ok hall
  cases hall
  exact ⟨as, bs, has, hbs, rfl⟩

theorem Wrote.below (hw : Wrote e₀ Built encode got may parts queue pending h)
    (more : List (List UInt8)) : Below e₀ encode got (parts ++ more) h := by
  intro blocks hall
  obtain ⟨made, hmade, -, hgot⟩ := hw.made
  obtain ⟨as, bs, has, -, rfl⟩ := mapM_append _ _ _ _ hall
  obtain rfl : made = as := Except.ok.inj (hmade.symm.trans has)
  rw [hgot, List.map_append, List.flatten_append, ← List.append_assoc]
  exact List.prefix_append _ _

/-- Blocks that were to follow do not change what comes first. -/
theorem Below.append (hb : Below e₀ encode got parts h) (more : List (List UInt8)) :
    Below e₀ encode got (parts ++ more) h := by
  intro blocks hall
  obtain ⟨as, bs, has, -, rfl⟩ := mapM_append _ _ _ _ hall
  rw [List.map_append, List.flatten_append, ← List.append_assoc]
  exact (hb as has).trans (List.prefix_append _ _)

section
variable (hl : P.Lawful Built e₀.solidThreshold encode)
include hl

/-- A block comes out as the settings and its data say, whichever coder makes it. -/
theorem compressBlock_spec {e : XzEncoder P} (hs : e.settings = e₀.settings)
    {enc : P.Lzma2Encoder} (henc : Built enc) (data : List UInt8) :
    Built (e.compressBlock enc data).2 ∧
      ∀ block, (e.compressBlock enc data).1 = .ok block →
        e₀.blockOf encode true data = .ok block := by
  simp only [settings, Prod.mk.injEq] at hs
  obtain ⟨hcheck, -, hprop, -, hfilters⟩ := hs
  unfold compressBlock blockOf converted
  rw [hcheck, hprop, hfilters]
  cases P.computeCheck e₀.check data with
  | error err => exact ⟨henc, fun block hb => by cases hb⟩
  | ok checkBytes =>
      cases hconv : (if e₀.filters = [] then Except.ok data
        else (P.buildChain e₀.filters e₀.dictProp).map fun convs =>
          P.encodeInPlace convs data) with
      | error err => exact ⟨henc, fun block hb => by cases hb⟩
      | ok converted =>
          refine ⟨hl.encodeSolid_built converted henc, fun block hb => ?_⟩
          dsimp only at hb
          cases hpacked : (P.encodeSolid enc converted).1 with
          | error err =>
              rw [hpacked] at hb
              cases hb
          | ok compressed =>
              rw [hpacked] at hb
              obtain rfl := hl.encodeSolid henc hpacked
              exact hb

theorem compressPending_ends (hw : Wrote e₀ Built encode got may parts queue pending h) :
    Ends compressPending h
      (fun block h' => Wrote e₀ Built encode got may parts queue [] h' ∧
        e₀.blockOf encode true pending = .ok block)
      (Below e₀ encode got parts) := by
  have hbelow := hw.below []
  rw [List.append_nil] at hbelow
  obtain ⟨hs, hcoder, hpool, hstream, hmay, hfinished, hout, hqueue, hsingle, hpending, hmade⟩ := hw
  unfold compressPending
  apply ends_get
  refine Ends.bind (ends_modify (Q := fun _ h' => h' = { h with enc.pending := [] }) rfl) ?_
  rintro _ _ rfl
  cases hlzma2 : h.enc.lzma2 with
  | none => exact ends_throw hbelow
  | some enc =>
      have hspec := compressBlock_spec hl hs (hcoder enc hlzma2) h.enc.pending
      refine Ends.bind (ends_modify (Q := fun _ h' => h' = { h with
        enc.pending := []
        enc.lzma2 := some (h.enc.compressBlock enc h.enc.pending).2 }) rfl) ?_
      rintro _ _ rfl
      refine ends_ofExcept (fun block hblock => ?_) (fun _ _ => hbelow)
      refine ⟨⟨hs, ?_, hpool, hstream, hmay, hfinished, hout, hqueue, hsingle, rfl, hmade⟩, ?_⟩
      · rintro _ ⟨⟩
        exact hspec.1
      · rw [← hpending]
        exact hspec.2 block hblock

end

/-- A block that is handed over is the next of the file. -/
theorem appendBlockTo_ends (hw : Wrote e₀ Built encode got may parts queue pending h)
    {data : List UInt8} {block : Block} (hblock : e₀.blockOf encode true data = .ok block)
    {E : Handing P → Prop} :
    Ends (appendBlockTo block) h
      (fun _ h' => Wrote e₀ Built encode got may (parts ++ [data]) queue pending h') E := by
  obtain ⟨hs, hcoder, hpool, hstream, hmay, hfinished, hout, hqueue, hsingle, hpending,
    blocks, hmade, hrecords, hgot⟩ := hw
  refine ends_of_eq rfl ⟨hs, hcoder, hpool, hstream, hmay, hfinished, hout, hqueue, hsingle,
    hpending, blocks ++ [block], ?_, ?_, ?_⟩
  · rw [List.mapM_append, hmade, List.mapM_cons, hblock]
    rfl
  · change h.enc.records ++ [_] = _
    rw [hrecords, List.map_append]
    rfl
  · simp only [List.flatten_append, List.map_append, ← List.append_assoc, ← hgot]
    simp [Block.bytes]

/-- A result of the block threads is the block of its data. -/
abbrev Made (e₀ : XzEncoder P) (encode : List UInt8 → List UInt8)
    (result : Except Error Block) (data : List UInt8) : Prop :=
  ∀ block, result = .ok block → e₀.blockOf encode true data = .ok block

/-- With a coder for each, the whole batch is compressed, in its order. -/
theorem compressAll_spec (hl : P.Lawful Built e₀.solidThreshold encode) {e : XzEncoder P}
    (hs : e.settings = e₀.settings) (queue : List (List UInt8)) (pool : List P.Lzma2Encoder)
    (hlen : queue.length ≤ pool.length) (hpool : ∀ enc ∈ pool, Built enc) :
    List.Forall₂ (Made e₀ encode) (e.compressAll pool queue).1 queue ∧
      ∀ enc ∈ (e.compressAll pool queue).2, Built enc := by
  induction queue generalizing pool with
  | nil =>
      unfold compressAll
      split
      next hq => cases hq
      · exact ⟨.nil, hpool⟩
  | cons data queue ih =>
      cases pool with
      | nil => simp at hlen
      | cons enc pool =>
          have hspec := compressBlock_spec hl hs (hpool enc (by simp)) data
          have hrest := ih pool (by simpa using hlen) fun enc' h' => hpool enc' (by simp [h'])
          rw [compressAll]
          refine ⟨.cons hspec.2 hrest.1, fun enc' h' => ?_⟩
          rcases List.mem_cons.1 h' with rfl | h'
          · exact hspec.1
          · exact hrest.2 enc' h'

theorem growPool_ends (hl : P.Lawful Built e₀.solidThreshold encode) (missing : ℕ)
    (hw : Wrote e₀ Built encode got may parts queue pending h) :
    Ends (growPool missing) h
      (fun _ h' => Wrote e₀ Built encode got may parts queue pending h' ∧
        h'.enc.pool.length = h.enc.pool.length + missing)
      (Below e₀ encode got parts) := by
  induction missing generalizing h with
  | zero => exact ends_pure ⟨hw, rfl⟩
  | succ missing ih =>
      have hbelow := hw.below []
      rw [List.append_nil] at hbelow
      unfold growPool
      refine Ends.bind (R := fun enc h' => Built enc ∧ h = h')
        (ends_ofExcept (fun enc henc => ⟨hl.newEncoder henc, rfl⟩) fun _ _ => hbelow) ?_
      rintro enc _ ⟨henc, rfl⟩
      refine Ends.bind (ends_modify (Q := fun _ h' => h' =
        { h with enc.pool := h.enc.pool ++ [enc] }) rfl) ?_
      rintro _ _ rfl
      have hpool : ∀ enc' ∈ h.enc.pool ++ [enc], Built enc' := by
        intro enc' h'
        rcases List.mem_append.1 h' with h' | h'
        · exact hw.pool enc' h'
        · obtain rfl := List.mem_singleton.1 h'
          exact henc
      have hw' : Wrote e₀ Built encode got may parts queue pending
          { h with enc.pool := h.enc.pool ++ [enc] } :=
        ⟨hw.settings, hw.coder, hpool, hw.stream, hw.mayStream, hw.finished, hw.out, hw.queued,
          hw.single, hw.held, hw.made⟩
      refine (ih hw').mono (fun _ h' hgrown => ⟨hgrown.1, ?_⟩) fun _ hb => hb
      rw [hgrown.2, List.length_append, List.length_singleton, Nat.add_assoc, Nat.add_comm 1]

theorem compressQueue_ends (hl : P.Lawful Built e₀.solidThreshold encode)
    (hw : Wrote e₀ Built encode got may parts queue pending h) :
    Ends compressQueue h
      (fun results h' => Wrote e₀ Built encode got may parts [] pending h' ∧
        List.Forall₂ (Made e₀ encode) results queue)
      (Below e₀ encode got parts) := by
  unfold compressQueue
  apply ends_get
  dsimp only
  rw [hw.queued]
  split
  next hempty =>
    subst hempty
    exact ends_pure ⟨hw, .nil⟩
  next hsome =>
    apply Ends.bind (growPool_ends hl _ hw)
    rintro _ h' ⟨hw', hlen⟩
    apply ends_get
    have hspec := compressAll_spec hl hw.settings queue h'.enc.pool (by omega) hw'.pool
    refine Ends.bind (ends_modify (Q := fun _ h'' => h'' = { h' with
      enc.queue := []
      enc.pool := (h.enc.compressAll h'.enc.pool queue).2 }) rfl) ?_
    rintro _ _ rfl
    exact ends_pure ⟨⟨hw'.settings, hw'.coder, hspec.2, hw'.stream, hw'.mayStream, hw'.finished,
      hw'.out, rfl, fun _ => rfl, hw'.held, hw'.made⟩, hspec.1⟩

theorem appendAll_ends {results : List (Except Error Block)} {batch : List (List UInt8)}
    (hmade : List.Forall₂ (Made e₀ encode) results batch)
    (hw : Wrote e₀ Built encode got may parts queue pending h) :
    Ends (appendAll appendBlockTo results) h
      (fun _ h' => Wrote e₀ Built encode got may (parts ++ batch) queue pending h')
      (Below e₀ encode got (parts ++ batch)) := by
  induction hmade generalizing parts h with
  | nil =>
      rw [List.append_nil]
      exact ends_pure hw
  | @cons result data results batch hdata hrest ih =>
      unfold appendAll
      refine Ends.bind (R := fun block h' => e₀.blockOf encode true data = .ok block ∧ h = h')
        (ends_ofExcept (fun block hblock => ⟨hdata block hblock, rfl⟩)
          fun _ _ => hw.below _) ?_
      rintro block _ ⟨hblock, rfl⟩
      refine Ends.bind (appendBlockTo_ends hw hblock) fun _ h' hw' => ?_
      rw [List.append_cons]
      exact ih hw'

/-- The batch is handed over whole, or up to its first block that failed. -/
theorem flushQueueTo_ends (hl : P.Lawful Built e₀.solidThreshold encode)
    (hw : Wrote e₀ Built encode got may parts queue pending h) :
    Ends flushQueueTo h
      (fun _ h' => Wrote e₀ Built encode got may (parts ++ queue) [] pending h')
      (Below e₀ encode got (parts ++ queue)) := by
  unfold flushQueueTo
  refine Ends.bind ((compressQueue_ends hl hw).mono (fun _ _ hq => hq)
    fun _ hb => hb.append queue) ?_
  rintro results h' ⟨hw', hmade⟩
  exact appendAll_ends hmade hw'

/-- A batch of no blocks leaves everything as it is. -/
theorem emptyQueue_ends (append : Block → ToSink P Unit) (hq : h.enc.queue = [])
    {E : Handing P → Prop} :
    Ends (do appendAll append (← compressQueue)) h (fun _ h' => h = h') E := by
  unfold compressQueue
  refine Ends.bind (R := fun results h' => results = [] ∧ h = h') ?_ ?_
  · apply ends_get
    dsimp only
    rw [hq, if_pos rfl]
    exact ends_pure ⟨rfl, rfl⟩
  · rintro _ _ ⟨rfl, rfl⟩
    exact ends_pure rfl

/-- A block that is full, or the last, leaves the buffer for the file or for the batch. -/
theorem blockReadyTo_ends (hl : P.Lawful Built e₀.solidThreshold encode)
    (hw : Wrote e₀ Built encode got may parts queue pending h) :
    Ends blockReadyTo h
      (fun _ h' => ∃ parts' queue', parts' ++ queue' = parts ++ queue ++ [pending] ∧
        Wrote e₀ Built encode got may parts' queue' [] h')
      (Below e₀ encode got (parts ++ queue ++ [pending])) := by
  unfold blockReadyTo
  refine Ends.bind (R := fun _ h' => ∃ parts' queue',
    parts' ++ queue' = parts ++ queue ++ [pending] ∧
      Wrote e₀ Built encode got may parts' queue' [] h') ?_ ?_
  · unfold passBlock
    apply ends_get
    split
    next hmany =>
      refine Ends.bind (R := fun _ h' =>
        Wrote e₀ Built encode got may parts (queue ++ [pending]) [] h') ?_ ?_
      · unfold queuePending
        refine Ends.bind (ends_modify (Q := fun _ h' => h' = { h with
          enc.queue := h.enc.queue ++ [h.enc.pending]
          enc.pending := [] }) rfl) ?_
        rintro _ _ rfl
        refine ends_get (ends_get (ends_pure ?_))
        exact ⟨hw.settings, hw.coder, hw.pool, hw.stream, hw.mayStream, hw.finished, hw.out,
          by rw [← hw.queued, ← hw.held], fun hone => absurd hmany (Nat.not_lt.2 hone), rfl,
          hw.made⟩
      · intro full h' hw'
        rw [List.append_assoc]
        split
        · refine (flushQueueTo_ends hl hw').mono (fun _ h'' hw'' => ?_) fun _ hb => hb
          exact ⟨_, [], List.append_nil _, hw''⟩
        · exact ends_pure ⟨_, _, rfl, hw'⟩
    next hfew =>
      have hnone : queue = [] := hw.single (Nat.not_lt.1 hfew)
      subst hnone
      refine Ends.bind ((compressPending_ends hl hw).mono (fun _ _ hq => hq) ?_) ?_
      · intro h' hb
        rw [List.append_assoc]
        exact hb.append _
      · rintro block h' ⟨hw', hblock⟩
        refine (appendBlockTo_ends hw' hblock).mono (fun _ h'' hw'' => ?_) fun _ hb => hb
        exact ⟨_, [], by simp only [List.append_nil], hw''⟩
  · rintro _ h' ⟨parts', queue', hparts, hw'⟩
    exact ends_modify ⟨parts', queue', hparts, hw'.settings, hw'.coder, hw'.pool, hw'.stream,
      hw'.mayStream, hw'.finished, hw'.out, hw'.queued, hw'.single, rfl, hw'.made⟩

/-- The input so far is cut into blocks: those handed over, those of the batch, and at most
one more. -/
def Cut (e₀ : XzEncoder P) (Built : P.Lzma2Encoder → Prop) (encode : List UInt8 → List UInt8)
    (got : List UInt8) (may : Bool) (data : List UInt8) (h : Handing P) : Prop :=
  ∃ parts queue pending, Wrote e₀ Built encode got may parts queue pending h ∧
    (∀ block ∈ parts ++ queue, block.length = e₀.blockSize) ∧ pending.length ≤ e₀.blockSize ∧
    (parts ++ queue).flatten ++ pending = data

/-- Whole blocks are the first that the rest of the input is cut into. -/
theorem Below.whole {e₀ : XzEncoder P} {blocks : List (List UInt8)}
    (hb : Below e₀ encode got blocks h)
    (hwhole : ∀ block ∈ blocks, block.length = e₀.blockSize) (rest : List UInt8) :
    Below e₀ encode got (cutBlocks e₀.blockSize (blocks.flatten ++ rest)) h := by
  rw [cutBlocks_append e₀.blockSize_pos blocks hwhole]
  exact hb.append _

/-- What is held takes up more of the input, up to a block. -/
theorem Cut.take {data : List UInt8} (hcut : Cut e₀ Built encode got may data h)
    (piece : List UInt8) :
    ∃ parts queue pending, Wrote e₀ Built encode got may parts queue pending { h with
        enc.pending := h.enc.pending ++
          piece.take (min (h.enc.blockSize - h.enc.pending.length) piece.length) } ∧
      (∀ block ∈ parts ++ queue, block.length = e₀.blockSize) ∧ pending.length ≤ e₀.blockSize ∧
      (parts ++ queue).flatten ++ pending =
        data ++ piece.take (min (h.enc.blockSize - h.enc.pending.length) piece.length) := by
  obtain ⟨parts, queue, pending, hw, hwhole, hshort, rfl⟩ := hcut
  have hsize : h.enc.blockSize = e₀.blockSize := congrArg (·.2.1) hw.settings
  refine ⟨parts, queue, _, ⟨hw.settings, hw.coder, hw.pool, hw.stream, hw.mayStream, hw.finished,
    hw.out, hw.queued, hw.single, rfl, hw.made⟩, hwhole, ?_, ?_⟩
  · rw [hw.held, hsize, List.length_append, List.length_take]
    omega
  · rw [hw.held, List.append_assoc]

/-- With the held block full, all of them are. -/
theorem filled (hw : Wrote e₀ Built encode got may parts queue pending h)
    (hwhole : ∀ block ∈ parts ++ queue, block.length = e₀.blockSize)
    (hshort : pending.length ≤ e₀.blockSize) (hfull : h.enc.blockSize ≤ h.enc.pending.length) :
    ∀ block ∈ parts ++ queue ++ [pending], block.length = e₀.blockSize := by
  have hsize : h.enc.blockSize = e₀.blockSize := congrArg (·.2.1) hw.settings
  intro block hblock
  rcases List.mem_append.1 hblock with hblock | hblock
  · exact hwhole block hblock
  · obtain rfl := List.mem_singleton.1 hblock
    rw [hw.held, hsize] at hfull
    exact Nat.le_antisymm hshort hfull

theorem pushBlocks_ends (hl : P.Lawful Built e₀.solidThreshold encode) (piece : List UInt8)
    (h : Handing P) {data : List UInt8} (hcut : Cut e₀ Built encode got may data h) :
    Ends (pushBlocks piece) h
      (fun _ h' => Cut e₀ Built encode got may (data ++ piece) h')
      (fun h' => ∀ more,
        Below e₀ encode got (cutBlocks e₀.blockSize (data ++ piece ++ more)) h') := by
  unfold Ends
  fun_induction pushBlocks piece h generalizing data with
  | case1 =>
      rw [List.append_nil]
      exact hcut
  | case2 piece h hne e take h₁ hfull done h₂ hready =>
      rename_i ih
      obtain ⟨parts, queue, pending, hw, hwhole, hshort, hdata⟩ := hcut.take piece
      have hlen : ∀ block ∈ parts ++ queue ++ [pending], block.length = e₀.blockSize :=
        filled hw hwhole hshort hfull
      obtain ⟨parts', queue', hparts, hw'⟩ := (blockReadyTo_ends hl hw).ok hready
      have hih := ih ⟨parts', queue', [], hw', hparts ▸ hlen, Nat.zero_le _, rfl⟩
      rw [hparts, List.flatten_append, List.flatten_singleton, List.append_nil, hdata,
        List.append_assoc, List.take_append_drop] at hih
      exact hih
  | case3 piece h hne e take h₁ hfull err h₂ =>
      rename_i hready
      obtain ⟨parts, queue, pending, hw, hwhole, hshort, hdata⟩ := hcut.take piece
      have hlen : ∀ block ∈ parts ++ queue ++ [pending], block.length = e₀.blockSize :=
        filled hw hwhole hshort hfull
      intro more
      have hbelow := ((blockReadyTo_ends hl hw).error hready).whole hlen (piece.drop take ++ more)
      rw [List.flatten_append, List.flatten_singleton, hdata, List.append_assoc,
        ← List.append_assoc _ _ more, List.take_append_drop, ← List.append_assoc] at hbelow
      exact hbelow
  | case4 piece h hne e take h₁ hroom =>
      rename_i ih
      obtain ⟨parts, queue, pending, hw, hwhole, hshort, hdata⟩ := hcut.take piece
      have hih := ih ⟨parts, queue, pending, hw, hwhole, hshort, hdata⟩
      rw [List.append_assoc, List.take_append_drop] at hih
      exact hih

end XzEncoder
end LzmaTurbo.Enc
