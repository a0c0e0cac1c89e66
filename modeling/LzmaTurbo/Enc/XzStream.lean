import LzmaTurbo.Enc.XzSolid
import LzmaTurbo.Enc.XzWriter

/-!
# What the xz writer's bytes come to

An encoder with one block for everything first holds the input, up to a dictionary. What
is longer makes it start the solid block, or cut the input into blocks where no thread can
be started. In each of the three states what was handed over is the first part of the file
of the input so far, and of every longer input.
-/
namespace LzmaTurbo.Enc
open Machine (bind_eq_ok map_eq_ok)
open WriteAdapter Outcomes

namespace XzEncoder

variable {P : XzParts}

/-- The solid block is under way and nothing is held. -/
structure Solid (e₀ : XzEncoder P) (got data : List UInt8) (h : Handing P) : Prop where
  settings : h.enc.settings = e₀.settings
  stream : ∃ stream, h.enc.stream = some stream ∧
    Streaming e₀ data stream (got ++ h.pieces.flatten)
  finished : h.enc.finished = false
  out : h.enc.out = []
  queue : h.enc.queue = []
  pending : h.enc.pending = []
  records : h.enc.records = []

/-- The encoder after it took `data`, with nothing left in its buffer. -/
inductive Holds (e₀ : XzEncoder P) (Built : P.Lzma2Encoder → Prop)
    (encode : List UInt8 → List UInt8) (got data : List UInt8) (h : Handing P) : Prop
  | whole : e₀.blockSize = defaultBlockSize → data.length ≤ e₀.solidThreshold →
      h.enc.lzma2 = e₀.lzma2 → Wrote e₀ Built encode got true [] [] data h →
      Holds e₀ Built encode got data h
  | cut (may : Bool) : (∀ more, e₀.solid (data ++ more) = false) →
      (e₀.blockSize = defaultBlockSize → may = false) → Cut e₀ Built encode got may data h →
      Holds e₀ Built encode got data h
  | solid : (∀ more, e₀.solid (data ++ more) = true) → Solid e₀ got data h →
      Holds e₀ Built encode got data h

/-- What is handed over comes first in the file of the input. -/
def PartOf (e₀ : XzEncoder P) (encode : List UInt8 → List UInt8) (handed data : List UInt8) :
    Prop :=
  ∀ file, e₀.file encode data = .ok file → handed <+: file

variable {e₀ : XzEncoder P} {Built : P.Lzma2Encoder → Prop} {encode : List UInt8 → List UInt8}
  {got data : List UInt8} {h : Handing P}

theorem file_ok {all : List UInt8} (hf : e₀.file encode data = .ok all) :
    ∃ blocks, (e₀.parts data).mapM (e₀.blockOf encode (!e₀.solid data)) = .ok blocks ∧
      all = e₀.streamHeader ++ (blocks.map Block.bytes).flatten ++
        e₀.trailer (blocks.map Block.record) := by
  unfold file at hf
  obtain ⟨blocks, hblocks, hf⟩ := bind_eq_ok hf
  cases hf
  exact ⟨blocks, hblocks, rfl⟩

theorem Below.partOf (hb : Below e₀ encode got (cutBlocks e₀.blockSize data) h)
    (hcut : e₀.solid data = false) : PartOf e₀ encode (got ++ h.pieces.flatten) data := by
  intro file hf
  obtain ⟨blocks, hblocks, rfl⟩ := file_ok hf
  rw [parts, hcut, if_neg Bool.false_ne_true] at hblocks
  exact (hb blocks hblocks).trans (List.prefix_append _ _)

theorem SolidBelow.partOf {handed : List UInt8} (hb : SolidBelow e₀ encode data handed)
    (hsolid : e₀.solid data = true) : PartOf e₀ encode handed data := by
  intro file hf
  obtain ⟨blocks, hblocks, rfl⟩ := file_ok hf
  rw [parts, hsolid, if_pos rfl, List.mapM_cons, List.mapM_nil] at hblocks
  obtain ⟨block, hblock, hblocks⟩ := bind_eq_ok hblocks
  cases hblocks
  apply (hb block hblock).trans
  rw [List.map_singleton, List.flatten_singleton]
  exact List.prefix_append _ _

theorem file_blocks {blocks : List Block} (hcut : e₀.solid data = false)
    (hblocks : (cutBlocks e₀.blockSize data).mapM (e₀.blockOf encode true) = .ok blocks) :
    e₀.file encode data = .ok (e₀.streamHeader ++ (blocks.map Block.bytes).flatten ++
      e₀.trailer (blocks.map Block.record)) := by
  unfold file parts
  rw [hcut, if_neg Bool.false_ne_true, Bool.not_false, hblocks]
  rfl

theorem file_solid {block : Block} (hsolid : e₀.solid data = true)
    (hblock : e₀.blockOf encode false data = .ok block) :
    e₀.file encode data =
      .ok (e₀.streamHeader ++ block.bytes ++ e₀.trailer [block.record]) := by
  unfold file parts
  rw [hsolid, if_pos rfl, Bool.not_true, List.mapM_cons, List.mapM_nil, hblock]
  change Except.ok (e₀.streamHeader ++ [block.bytes].flatten ++ e₀.trailer [block.record]) = _
  rw [List.flatten_singleton]

/-- A thread for `enc` decides which form the file of a long input has. -/
theorem solid_eq {enc : P.Lzma2Encoder} (hlzma2 : e₀.lzma2 = some enc) (data : List UInt8) :
    e₀.solid data = ((P.start enc).isOk &&
      (e₀.blockSize = defaultBlockSize && e₀.solidThreshold < data.length : Bool)) := by
  unfold solid
  rw [hlzma2, Option.map_some]
  cases P.start enc <;> rfl

theorem solid_long (hs : e₀.solid data = true) : e₀.solidThreshold < data.length := by
  unfold solid at hs
  split at hs
  · simp only [Bool.and_eq_true, decide_eq_true_eq] at hs
    exact hs.2
  · cases hs

theorem emitHeld_ends {Q : Unit → Handing P → Prop} {E : Handing P → Prop}
    (hQ : Q () ⟨{ h.enc with out := [] }, h.pieces ++ [h.enc.out]⟩) : Ends emitHeld h Q E :=
  hQ

theorem forward_ends {σ ρ : Type} {r : Emitted σ ρ} {keep : σ → XzEncoder P → XzEncoder P}
    {Q : ρ → Handing P → Prop} {E : Handing P → Prop}
    (hok : ∀ a, r.result = .ok a → Q a ⟨keep r.state h.enc, h.pieces ++ r.pieces⟩)
    (herror : ∀ e, r.result = .error e → E ⟨keep r.state h.enc, h.pieces ++ r.pieces⟩) :
    Ends (forward r keep) h Q E :=
  Ends.bind (ends_modify (Q := fun _ h' => h' = ⟨keep r.state h.enc, h.pieces ++ r.pieces⟩) rfl)
    fun _ h' hh => by
      subst hh
      exact ends_ofExcept hok herror

/-- The same bytes handed over in other pieces, or in another call. -/
theorem Wrote.again {may : Bool} {parts queue : List (List UInt8)} {pending got' : List UInt8}
    (hw : Wrote e₀ Built encode got may parts queue pending h) (pieces : List (List UInt8))
    (hsame : got' ++ pieces.flatten = got ++ h.pieces.flatten) :
    Wrote e₀ Built encode got' may parts queue pending ⟨{ h.enc with out := [] }, pieces⟩ := by
  obtain ⟨blocks, hmade, hrecords, hgot⟩ := hw.made
  exact ⟨hw.settings, hw.coder, hw.pool, hw.stream, hw.mayStream, hw.finished, rfl, hw.queued,
    hw.single, hw.held, blocks, hmade, hrecords, hsame.trans hgot⟩

theorem Wrote.none {may : Bool} {queue : List (List UInt8)} {pending : List UInt8}
    (hw : Wrote e₀ Built encode got may [] queue pending h) :
    h.enc.records = [] ∧ got ++ h.pieces.flatten = e₀.streamHeader := by
  obtain ⟨blocks, hmade, hrecords, hgot⟩ := hw.made
  rw [List.mapM_nil] at hmade
  cases hmade
  exact ⟨hrecords, by rw [hgot, List.map_nil, List.flatten_nil, List.append_nil]⟩

theorem Holds.again {got' : List UInt8} (hh : Holds e₀ Built encode got data h)
    (pieces : List (List UInt8)) (hsame : got' ++ pieces.flatten = got ++ h.pieces.flatten) :
    Holds e₀ Built encode got' data ⟨{ h.enc with out := [] }, pieces⟩ := by
  cases hh with
  | whole hone hshort hlzma2 hw => exact .whole hone hshort hlzma2 (hw.again pieces hsame)
  | cut may hform hmay hcut =>
      obtain ⟨parts, queue, pending, hw, hrest⟩ := hcut
      exact .cut may hform hmay ⟨parts, queue, pending, hw.again pieces hsame, hrest⟩
  | solid hform hs =>
      obtain ⟨stream, hstream, hstreaming⟩ := hs.stream
      exact .solid hform ⟨hs.settings, ⟨stream, hstream, hsame ▸ hstreaming⟩, hs.finished, rfl,
        hs.queue, hs.pending, hs.records⟩

theorem Holds.out (hh : Holds e₀ Built encode got data h) : h.enc.out = [] := by
  cases hh with
  | whole _ _ _ hw => exact hw.out
  | cut _ _ _ hcut =>
      obtain ⟨_, _, _, hw, _⟩ := hcut
      exact hw.out
  | solid _ hs => exact hs.out

theorem Holds.finished (hh : Holds e₀ Built encode got data h) : h.enc.finished = false := by
  cases hh with
  | whole _ _ _ hw => exact hw.finished
  | cut _ _ _ hcut =>
      obtain ⟨_, _, _, hw, _⟩ := hcut
      exact hw.finished
  | solid _ hs => exact hs.finished

/-- Converters that were just made have made nothing of nothing. -/
theorem along_start {convs : Option P.Converters}
    (h : (if e₀.filters = [] then .ok none
      else (P.buildChain e₀.filters e₀.dictProp).map some) = .ok convs) : Along e₀ convs [] [] := by
  split at h
  next hnone =>
    cases h
    exact .bare hnone
  next hsome =>
    obtain ⟨first, hbuild, rfl⟩ := map_eq_ok h
    exact .filtered hsome hbuild .start

section
variable (hl : P.Lawful Built e₀.solidThreshold encode) (hfresh : e₀.Fresh Built)
include hl hfresh

/-- The solid block is started with all that was held, or there is no thread for it. -/
theorem startStreamWith_ends {held : List UInt8} (hone : e₀.blockSize = defaultBlockSize)
    (hlzma2 : h.enc.lzma2 = e₀.lzma2) (hw : Wrote e₀ Built encode got true [] [] held h) :
    Ends (startStreamWith deliverTo) h
      (fun _ h' =>
        ((∀ more, e₀.solidThreshold < more.length → e₀.solid more = true) ∧
          Solid e₀ got held h') ∨
        ((∀ more, e₀.solid more = false) ∧ Wrote e₀ Built encode got false [] [] held h'))
      (fun h' => ∀ rest, e₀.solidThreshold < (held ++ rest).length →
        PartOf e₀ encode (got ++ h'.pieces.flatten) (held ++ rest)) := by
  obtain ⟨enc, henc, hbuilt⟩ := hfresh.lzma2
  obtain ⟨hrecords, hgot⟩ := hw.none
  -- Before anything of the block is out there is the stream header.
  have hheaderOnly : ∀ data, PartOf e₀ encode (got ++ h.pieces.flatten) data := by
    intro data all hall
    obtain ⟨blocks, -, rfl⟩ := file_ok hall
    rw [hgot, List.append_assoc]
    exact List.prefix_append _ _
  have hs := hw.settings
  simp only [XzEncoder.settings, Prod.mk.injEq] at hs
  obtain ⟨hcheck, -, hprop, -, hfilters⟩ := hs
  unfold startStreamWith
  apply Ends.bind (emptyQueue_ends appendBlock hw.queued)
  rintro _ _ rfl
  apply ends_get
  dsimp only
  rw [hlzma2, henc]
  refine Ends.bind (ends_modify (Q := fun _ h' => h' = { h with enc.lzma2 := none }) rfl) ?_
  rintro _ _ rfl
  cases hstart : P.start enc with
  | error enc' =>
      refine ends_modify (.inr ⟨fun more => ?_, hw.settings, ?_, hw.pool, hw.stream, rfl,
        hw.finished, hw.out, hw.queued, hw.single, hw.held, [], rfl, hrecords, ?_⟩)
      · rw [solid_eq henc, hstart]
        rfl
      · rintro _ ⟨⟩
        exact hl.start hbuilt hstart
      · rw [hgot, List.map_nil, List.flatten_nil, List.append_nil]
  | ok first =>
      have hform : ∀ more, e₀.solidThreshold < more.length → e₀.solid more = true := by
        intro more hlong
        rw [solid_eq henc, hstart, hone]
        simpa [Except.isOk, Except.toBool] using hlong
      refine Ends.bind (R := fun convs h' => { h with enc.lzma2 := none } = h' ∧
        Along e₀ convs [] []) (ends_ofExcept (fun convs hconvs => ⟨rfl, ?_⟩)
          fun _ _ rest _ => hheaderOnly _) ?_
      · rw [hfilters, hprop] at hconvs
        exact along_start hconvs
      rintro convs _ ⟨rfl, halong⟩
      refine Ends.bind (R := fun header h' => { h with enc.lzma2 := none } = h' ∧
        blockHeader P e₀.filters e₀.dictProp none = .ok header) (ends_ofExcept
          (fun header hheader => ⟨rfl, by rwa [hfilters, hprop] at hheader⟩)
          fun _ _ rest _ => hheaderOnly _) ?_
      rintro header _ ⟨rfl, hheader⟩
      refine Ends.bind (ends_modify (Q := fun _ h' => h' = { h with
        enc.lzma2 := none
        enc.out := h.enc.out ++ header }) rfl) ?_
      rintro _ _ rfl
      refine Ends.bind (R := fun check h' => { h with
        enc.lzma2 := none
        enc.out := h.enc.out ++ header } = h' ∧ P.newCheck e₀.check = .ok check) (ends_ofExcept
          (fun check hnew => ⟨rfl, by rwa [hcheck] at hnew⟩) fun _ _ rest _ => hheaderOnly _) ?_
      rintro check _ ⟨rfl, hnew⟩
      refine Ends.bind (ends_modify (Q := fun _ h' => h' = { h with
        enc.lzma2 := none
        enc.out := h.enc.out ++ header
        enc.pending := []
        enc.pool := [] }) rfl) ?_
      rintro _ _ rfl
      have hstreaming : Streaming e₀ [] ⟨first, check, convs, header.length, 0⟩
          (got ++ (h.pieces ++ [header]).flatten) := by
        refine ⟨⟨enc, first, [], [], header, henc, hstart, .start, halong, hheader, rfl, ?_⟩,
          ⟨check, [], hnew, rfl, rfl⟩, rfl⟩
        rw [List.flatten_append, ← List.append_assoc, hgot, List.flatten_singleton,
          List.append_nil]
      have hadvance := pushOwned_advances hl (fun _ => hfresh.built) hstreaming held
      rw [hw.held]
      unfold deliverTo
      generalize SolidStream.pushOwned _ held = r at hadvance ⊢
      refine Ends.bind (R := fun stream h' => h' = ⟨{ h.enc with
        lzma2 := none
        out := []
        pending := []
        pool := [] }, h.pieces ++ [header] ++ r.pieces⟩ ∧ stream = r.state ∧
          r.result = .ok ()) ?_ ?_
      · refine Ends.bind (emitHeld_ends (Q := fun _ h' => h' = ⟨{ h.enc with
          lzma2 := none
          out := []
          pending := []
          pool := [] }, h.pieces ++ [header]⟩) ?_) ?_
        · rw [hw.out, List.nil_append]
        rintro _ _ rfl
        refine Ends.bind (forward_ends (Q := fun _ h' => h' = ⟨{ h.enc with
          lzma2 := none
          out := []
          pending := []
          pool := [] }, h.pieces ++ [header] ++ r.pieces⟩ ∧ r.result = .ok ())
          (fun _ hok => ⟨rfl, hok⟩) fun err herr rest hlong => ?_) ?_
        · have hbelow := hadvance.2 rest hlong
          rw [List.append_assoc got, ← List.flatten_append] at hbelow
          exact hbelow.partOf (hform _ hlong)
        · rintro _ _ ⟨rfl, hok⟩
          exact ends_pure ⟨rfl, rfl, hok⟩
      · rintro _ _ ⟨rfl, rfl, hok⟩
        refine ends_modify (.inl ⟨hform, hw.settings, ⟨r.state, rfl, ?_⟩, hw.finished, rfl,
          hw.queued, rfl, hrecords⟩)
        have hgo := hadvance.1 hok
        rwa [List.append_assoc, ← List.flatten_append] at hgo

/-- The solid block takes more of the input. -/
theorem pushStream_ends {piece : List UInt8}
    (hform : ∀ more, e₀.solid (data ++ piece ++ more) = true) (hs : Solid e₀ got data h)
    {stream : SolidStream P} (hstream : h.enc.stream = some stream) :
    Ends (pushStream stream piece) h
      (fun _ h' => Holds e₀ Built encode got (data ++ piece) h')
      (fun h' => ∀ more, PartOf e₀ encode (got ++ h'.pieces.flatten) (data ++ piece ++ more)) := by
  obtain ⟨stream', hstream', hstreaming⟩ := hs.stream
  obtain rfl := Option.some.inj (hstream.symm.trans hstream')
  have hadvance := push_advances hl (fun _ => hfresh.built) hstreaming piece
  refine forward_ends (fun _ hok => ?_) fun _ _ more => ?_
  · have hgo := hadvance.1 hok
    rw [List.append_assoc got, ← List.flatten_append] at hgo
    exact .solid hform ⟨hs.settings, ⟨_, rfl, hgo⟩, hs.finished, hs.out, hs.queue, hs.pending,
      hs.records⟩
  · have hbelow := hadvance.2 more (solid_long (hform more))
    rw [List.append_assoc got, ← List.flatten_append] at hbelow
    exact hbelow.partOf (hform more)

omit hfresh in
/-- Where the file is one of blocks, more of the input makes more of them. -/
theorem pushBlocks_holds {may : Bool} (piece : List UInt8)
    (hform : ∀ more, e₀.solid (data ++ more) = false)
    (hmay : e₀.blockSize = defaultBlockSize → may = false)
    (hcut : Cut e₀ Built encode got may data h) :
    Ends (pushBlocks piece) h
      (fun _ h' => Holds e₀ Built encode got (data ++ piece) h')
      (fun h' => ∀ more, PartOf e₀ encode (got ++ h'.pieces.flatten) (data ++ piece ++ more)) := by
  refine (pushBlocks_ends hl piece h hcut).mono (fun _ h' hcut' => ?_) fun h' hbelow more => ?_
  · exact .cut may (fun more => by rw [List.append_assoc]; exact hform _) hmay hcut'
  · exact (hbelow more).partOf (by rw [List.append_assoc]; exact hform _)

/-- More input before the solid block has begun: it is held, or the block is begun. -/
theorem pushHeld_ends (piece : List UInt8) (hone : e₀.blockSize = defaultBlockSize)
    (hshort : data.length ≤ e₀.solidThreshold) (hlzma2 : h.enc.lzma2 = e₀.lzma2)
    (hw : Wrote e₀ Built encode got true [] [] data h) :
    Ends (pushHeld piece) h
      (fun _ h' => Holds e₀ Built encode got (data ++ piece) h')
      (fun h' => ∀ more, PartOf e₀ encode (got ++ h'.pieces.flatten) (data ++ piece ++ more)) := by
  have hlimit : h.enc.solidThreshold = e₀.solidThreshold := congrArg (·.2.2.2.1) hw.settings
  unfold pushHeld
  apply ends_get
  dsimp only
  rw [hlimit, hw.held]
  generalize htake : min (e₀.solidThreshold - data.length) piece.length = take
  have hsplit : data ++ piece.take take ++ piece.drop take = data ++ piece := by
    rw [List.append_assoc, List.take_append_drop]
  have hfit : (data ++ piece.take take).length ≤ e₀.solidThreshold := by
    rw [List.length_append, List.length_take]
    omega
  refine Ends.bind (ends_modify (Q := fun _ h' => h'.enc.lzma2 = e₀.lzma2 ∧
    Wrote e₀ Built encode got true [] [] (data ++ piece.take take) h') ⟨hlzma2, hw.settings,
      hw.coder, hw.pool, hw.stream, hw.mayStream, hw.finished, hw.out, hw.queued, hw.single,
      by rw [← hw.held], hw.made⟩) ?_
  rintro _ h₁ ⟨hlzma2', hw'⟩
  split
  next hnone =>
    rw [hnone, List.append_nil] at hsplit
    rw [hsplit] at hw' hfit
    exact ends_pure (.whole hone hfit hlzma2' hw')
  next hmore =>
    have hlong : ∀ more, e₀.solidThreshold < (data ++ piece ++ more).length := by
      intro more
      have hleft := List.length_pos_of_ne_nil hmore
      rw [List.length_drop] at hleft
      simp only [List.length_append]
      omega
    apply Ends.bind (emptyQueue_ends appendBlockTo hw'.queued)
    rintro _ _ rfl
    refine Ends.bind ((startStreamWith_ends hl hfresh hone hlzma2' hw').mono
      (fun _ _ hq => hq) fun h' hbelow more => ?_) ?_
    · have hpart := hbelow (piece.drop take ++ more)
      rw [← List.append_assoc, hsplit] at hpart
      exact hpart (hlong more)
    · rintro _ h₂ hstarted
      apply ends_get
      rw [← hsplit]
      rcases hstarted with ⟨hform, hs⟩ | ⟨hform, hw₂⟩
      · obtain ⟨stream, hstream, -⟩ := hs.stream
        rw [hstream]
        refine pushStream_ends hl hfresh (fun more => ?_) hs hstream
        rw [hsplit]
        exact hform _ (hlong more)
      · rw [hw₂.stream]
        refine pushBlocks_holds hl _ (fun more => hform _) (fun _ => rfl) ?_
        exact ⟨[], [], _, hw₂, by simp, Nat.le_trans hfit (hone ▸ hfresh.threshold), rfl⟩

/-- A write keeps the encoder in one of its three states, or fails with nothing handed over
that the file does not begin with. -/
theorem pushTo_ends (piece : List UInt8) (hh : Holds e₀ Built encode got data h) :
    Ends (pushTo piece) h
      (fun _ h' => Holds e₀ Built encode got (data ++ piece) h')
      (fun h' => ∀ more, PartOf e₀ encode (got ++ h'.pieces.flatten) (data ++ piece ++ more)) := by
  unfold pushTo
  apply ends_get
  rw [if_neg (by simp [hh.finished])]
  refine Ends.bind (emitHeld_ends (Q := fun _ h' => Holds e₀ Built encode got data h')
    (hh.again _ ?_)) ?_
  · simp [hh.out]
  intro _ h' hh'
  apply ends_get
  dsimp only
  cases hh' with
  | solid hform hs =>
      obtain ⟨stream, hstream, -⟩ := hs.stream
      rw [hstream]
      exact pushStream_ends hl hfresh (fun more => by rw [List.append_assoc]; exact hform _) hs
        hstream
  | cut may hform hmay hcut =>
      obtain ⟨parts, queue, pending, hw, hrest⟩ := hcut
      have hsize : h'.enc.blockSize = e₀.blockSize := congrArg (·.2.1) hw.settings
      rw [hw.stream]
      dsimp only
      rw [if_neg]
      · exact pushBlocks_holds hl piece hform hmay ⟨parts, queue, pending, hw, hrest⟩
      · rintro ⟨hone, hstart⟩
        rw [hw.mayStream, hmay (hsize.symm.trans hone)] at hstart
        cases hstart
  | whole hone hshort hlzma2 hw =>
      have hsize : h'.enc.blockSize = e₀.blockSize := congrArg (·.2.1) hw.settings
      rw [hw.stream]
      dsimp only
      rw [if_pos ⟨hsize.trans hone, hw.mayStream⟩]
      exact pushHeld_ends hl hfresh piece hone hshort hlzma2 hw

omit hl hfresh in
/-- The index and the footer go out behind everything else. -/
theorem close_ends (hs : h.enc.settings = e₀.settings) (hstream : h.enc.stream = none)
    (hfinished : h.enc.finished = false) (hout : h.enc.out = []) (hqueue : h.enc.queue = [])
    (hpending : h.enc.pending = []) {E : Handing P → Prop} :
    Ends (do finish; emitHeld) h
      (fun _ h' => h'.pieces.flatten = h.pieces.flatten ++ e₀.trailer h.enc.records) E := by
  have hcheck : h.enc.check = e₀.check := congrArg (·.1) hs
  refine Ends.bind (R := fun _ h' => h'.pieces = h.pieces ∧
    h'.enc.out = e₀.trailer h.enc.records) ?_ ?_
  · unfold finish
    apply ends_get
    rw [if_neg (by simp [hfinished])]
    apply ends_get
    dsimp only
    rw [hstream]
    dsimp only
    apply ends_get
    rw [if_neg (by simp [hpending])]
    apply Ends.bind (emptyQueue_ends appendBlock hqueue)
    rintro _ _ rfl
    refine ends_modify ⟨rfl, ?_⟩
    simp only [writeFooter, writeIndex, trailer, indexSize, streamFlags, hout, hcheck]
  · rintro _ h' ⟨hpieces, hout'⟩
    apply emitHeld_ends
    rw [List.flatten_append, List.flatten_singleton, hpieces, hout']

omit hfresh in
/-- The batch is the last of the blocks. -/
theorem lastBatch_ends {may : Bool} {parts queue : List (List UInt8)}
    (hform : e₀.solid data = false) (hall : cutBlocks e₀.blockSize data = parts ++ queue)
    (hw : Wrote e₀ Built encode got may parts queue [] h) :
    Ends (do flushQueueTo; finish; emitHeld) h
      (fun _ h' => e₀.file encode data = .ok (got ++ h'.pieces.flatten))
      (fun h' => PartOf e₀ encode (got ++ h'.pieces.flatten) data) := by
  refine Ends.bind ((flushQueueTo_ends hl hw).mono (fun _ _ hq => hq) fun h' hbelow => ?_) ?_
  · rw [← hall] at hbelow
    exact hbelow.partOf hform
  · intro _ h' hw'
    refine (close_ends hw'.settings hw'.stream hw'.finished hw'.out hw'.queued hw'.held).mono
      (fun _ h'' hpieces => ?_) fun _ hb => hb
    obtain ⟨blocks, hmade, hrecords, hgot⟩ := hw'.made
    rw [← hall] at hmade
    rw [file_blocks hform hmade, hpieces, ← List.append_assoc, hgot, hrecords]

omit hfresh in
/-- Without a solid block the last block is what is held. -/
theorem lastBlocks_ends {may : Bool} {parts queue : List (List UInt8)} {pending : List UInt8}
    (hform : e₀.solid data = false)
    (hw : Wrote e₀ Built encode got may parts queue pending h)
    (hrest : (∀ block ∈ parts ++ queue, block.length = e₀.blockSize) ∧
      pending.length ≤ e₀.blockSize ∧ (parts ++ queue).flatten ++ pending = data) :
    Ends (do
        if (← get).enc.pending ≠ [] then blockReadyTo
        flushQueueTo
        finish
        emitHeld) h
      (fun _ h' => e₀.file encode data = .ok (got ++ h'.pieces.flatten))
      (fun h' => PartOf e₀ encode (got ++ h'.pieces.flatten) data) := by
  obtain ⟨hwhole, hshort, rfl⟩ := hrest
  have hall := cutBlocks_append e₀.blockSize_pos _ hwhole pending
  apply ends_get
  rw [hw.held]
  split
  next hsome =>
    rw [cutBlocks_short hsome hshort] at hall
    refine Ends.bind ((blockReadyTo_ends hl hw).mono (fun _ _ hq => hq) fun h' hbelow => ?_) ?_
    · rw [← hall] at hbelow
      exact hbelow.partOf hform
    · rintro _ h' ⟨parts', queue', hparts, hw'⟩
      exact lastBatch_ends hl hform (hall.trans hparts.symm) hw'
  next hnone =>
    obtain rfl := not_not.1 hnone
    rw [cutBlocks_nil, List.append_nil (parts ++ queue)] at hall
    exact lastBatch_ends hl hform hall hw

/-- The end of the input: the file is complete, or what was handed over is its first part. -/
theorem finishTo_ends (hh : Holds e₀ Built encode got data h) :
    Ends finishTo h
      (fun _ h' => e₀.file encode data = .ok (got ++ h'.pieces.flatten))
      (fun h' => PartOf e₀ encode (got ++ h'.pieces.flatten) data) := by
  unfold finishTo
  apply ends_get
  rw [if_neg (by simp [hh.finished])]
  refine Ends.bind (emitHeld_ends (Q := fun _ h' => Holds e₀ Built encode got data h')
    (hh.again _ ?_)) ?_
  · simp [hh.out]
  intro _ h' hh'
  apply ends_get
  dsimp only
  cases hh' with
  | solid hform hs =>
      obtain ⟨stream, hstream, hstreaming⟩ := hs.stream
      have hcheck : h'.enc.check = e₀.check := congrArg (·.1) hs.settings
      have hsolid := hform []
      rw [List.append_nil] at hsolid
      obtain ⟨hbelow, hwhole⟩ :=
        finishOutput_spec hl (fun _ => hfresh.built) hstreaming (solid_long hsolid)
      rw [List.append_assoc, ← List.flatten_append] at hbelow hwhole
      rw [hstream, hcheck]
      dsimp only
      generalize stream.finishOutput e₀.check = r at hbelow hwhole ⊢
      refine Ends.bind (forward_ends (Q := fun record h'' => h'' = ⟨{ h'.enc with stream := none },
        h'.pieces ++ r.pieces⟩ ∧ r.result = .ok record) (fun _ hok => ⟨rfl, hok⟩)
        fun _ _ => hbelow.partOf hsolid) ?_
      rintro record _ ⟨rfl, hok⟩
      obtain ⟨block, hblock, rfl, hbytes⟩ := hwhole record hok
      refine Ends.bind (ends_modify (Q := fun _ h'' => h'' = ⟨{ h'.enc with
        stream := none
        records := h'.enc.records ++ [block.record] }, h'.pieces ++ r.pieces⟩) rfl) ?_
      rintro _ _ rfl
      apply ends_get
      rw [if_neg (by simp [hs.pending])]
      apply Ends.bind (emptyQueue_ends appendBlockTo (by exact hs.queue))
      rintro _ _ rfl
      refine (close_ends (by exact hs.settings) rfl (by exact hs.finished) (by exact hs.out)
        (by exact hs.queue) (by exact hs.pending)).mono (fun _ h'' hpieces => ?_) fun _ hb => hb
      rw [file_solid hsolid hblock, hpieces, ← List.append_assoc, hbytes, hs.records,
        List.nil_append]
  | cut may hform hmay hcut =>
      obtain ⟨parts, queue, pending, hw, hrest⟩ := hcut
      rw [hw.stream]
      dsimp only
      exact lastBlocks_ends hl (by simpa using hform []) hw hrest
  | whole hone hshort hlzma2 hw =>
      have hform : e₀.solid data = false :=
        Bool.eq_false_iff.2 fun hs => absurd (solid_long hs) (Nat.not_lt.2 hshort)
      rw [hw.stream]
      dsimp only
      exact lastBlocks_ends hl hform hw
        ⟨by simp, Nat.le_trans hshort (hone ▸ hfresh.threshold), rfl⟩

end

end XzEncoder

namespace XzWriter

variable {P : XzParts} {e₀ : XzEncoder P} {Built : P.Lzma2Encoder → Prop}
  {encode : List UInt8 → List UInt8}

/-- The writer in front of a steady inner writer that has `got`, after it took `data`: only the
stream header can still be in the encoder's buffer. -/
structure Held (e₀ : XzEncoder P) (Built : P.Lzma2Encoder → Prop)
    (encode : List UInt8 → List UInt8) (w : XzWriter P) (got data : List UInt8) : Prop where
  idle : w.out = []
  holds : XzEncoder.Holds e₀ Built encode (got ++ w.enc.out) data ⟨{ w.enc with out := [] }, []⟩

/-- An encoder on which nothing was written has cut nothing and begun nothing. -/
theorem held_fresh (h : e₀.Fresh Built) : Held e₀ Built encode ⟨e₀, []⟩ [] [] := by
  have hw : XzEncoder.Wrote e₀ Built encode ([] ++ e₀.out) true [] [] []
      ⟨{ e₀ with out := [] }, []⟩ :=
    ⟨rfl, fun _ => h.built, by simp [h.pool], h.stream, h.mayStream, h.finished, rfl, h.queue,
      fun _ => rfl, h.pending, [], rfl, h.records, by simp [h.out]⟩
  refine ⟨rfl, ?_⟩
  by_cases hone : e₀.blockSize = defaultBlockSize
  · exact .whole hone (Nat.zero_le _) rfl hw
  · obtain ⟨enc, henc, -⟩ := h.lzma2
    refine .cut true (fun more => ?_) (fun h' => absurd h' hone)
      ⟨[], [], [], hw, by simp, Nat.zero_le _, rfl⟩
    rw [XzEncoder.solid_eq henc]
    simp [hone]

section
variable (hl : P.Lawful Built e₀.solidThreshold encode) (hfresh : e₀.Fresh Built)
include hl hfresh

theorem write_held {w : XzWriter P} {got data : List UInt8} (piece : List UInt8)
    (hw : Held e₀ Built encode w got data) :
    (∃ w' got', w.write ⟨got, none⟩ piece = (w', ⟨got', none⟩, .ok) ∧
      Held e₀ Built encode w' got' (data ++ piece)) ∨
    (∃ w' got' e, w.write ⟨got, none⟩ piece = (w', ⟨got', none⟩, .broken e) ∧
      ∀ more, XzEncoder.PartOf e₀ encode got' (data ++ piece ++ more)) := by
  have hends := XzEncoder.pushTo_ends hl hfresh piece hw.holds
  simp only [write, drain_steady, if_true, accept, offerAll_steady, hw.idle, List.nil_append]
  unfold Ends at hends
  unfold XzEncoder.handOver
  generalize XzEncoder.pushTo piece ⟨{ w.enc with out := [] }, []⟩ = r at hends ⊢
  obtain ⟨result, h'⟩ := r
  cases result with
  | error e => exact .inr ⟨_, _, e, rfl, hends⟩
  | ok _ =>
      refine .inl ⟨_, _, rfl, rfl, ?_⟩
      have hholds := hends.again [] (List.append_nil _)
      simpa only [hends.out, List.append_nil, List.nil_append] using hholds

theorem finish_held {w : XzWriter P} {got data : List UInt8}
    (hw : Held e₀ Built encode w got data) :
    XzEncoder.PartOf e₀ encode (w.finish ⟨got, none⟩).1.accepted data ∧
      ((w.finish ⟨got, none⟩).2 = .ok →
        e₀.file encode data = .ok (w.finish ⟨got, none⟩).1.accepted) := by
  have hends := XzEncoder.finishTo_ends hl hfresh hw.holds
  simp only [finish, drain_steady, if_true, hw.idle, List.nil_append, Outlet.sendAll_steady]
  unfold Ends at hends
  unfold XzEncoder.handOver
  generalize XzEncoder.finishTo ⟨{ w.enc with out := [] }, []⟩ = r at hends ⊢
  obtain ⟨result, h'⟩ := r
  cases result with
  | error e => exact ⟨hends, fun hb => by cases hb⟩
  | ok _ =>
      refine ⟨fun all hall => ?_, fun _ => hends⟩
      obtain rfl := Except.ok.inj (hends.symm.trans hall)
      exact List.prefix_rfl

/-- The stream of the xz writer is the file of all that was written. -/
theorem delivers : Delivers (xzAdapter P) (Held e₀ Built encode)
    (XzEncoder.PartOf e₀ encode) (fun got data => e₀.file encode data = .ok got) where
  write piece hw := write_held hl hfresh piece hw
  finish hw := finish_held hl hfresh hw

end

end XzWriter
end LzmaTurbo.Enc
