import LzmaTurbo.Enc.XzBlocks

/-!
# The block that is compressed as it arrives

Its header is out before any of its input is in. Then the check, the converters and the pipe
each take the input in the pieces it comes in, and what they make of it is what they make of
the whole.
-/
namespace LzmaTurbo.Enc
open Machine (bind_eq_ok map_eq_ok)
open WriteAdapter Outcomes

theorem toChunks_go_flatten {α : Type} (n : ℕ) (xs : List α) (acc₁ : Array α)
    (acc₂ : Array (List α)) :
    (List.toChunks.go n xs acc₁ acc₂).flatten = acc₂.toList.flatten ++ acc₁.toList ++ xs := by
  induction xs generalizing acc₁ acc₂ with
  | nil => simp [List.toChunks.go]
  | cons x xs ih =>
      rw [List.toChunks.go]
      split <;> simp [ih]

/-- Cutting into chunks loses nothing. -/
theorem toChunks_flatten {α : Type} (n : ℕ) (xs : List α) : (xs.toChunks n).flatten = xs := by
  cases xs with
  | nil => simp [List.toChunks]
  | cons x xs =>
      cases n with
      | zero => simp [List.toChunks]
      | succ n => simp [List.toChunks, toChunks_go_flatten]

namespace XzEncoder

variable {P : XzParts}

/-- What the block's converters have made of the input so far. -/
inductive Along (e₀ : XzEncoder P) : Option P.Converters → List UInt8 → List UInt8 → Prop
  | bare {data : List UInt8} : e₀.filters = [] → Along e₀ none data data
  | filtered {first convs : P.Converters} {data out : List UInt8} : e₀.filters ≠ [] →
      P.buildChain e₀.filters e₀.dictProp = .ok first → P.Pushed first data out convs →
      Along e₀ (some convs) data out

variable {e₀ : XzEncoder P} {Built : P.Lzma2Encoder → Prop} {encode : List UInt8 → List UInt8}

section
variable (hl : P.Lawful Built e₀.solidThreshold encode)
include hl

/-- What converters have handed on stays right whatever comes after it. -/
theorem pushed_below {first convs : P.Converters} {data out : List UInt8}
    (hbuild : P.buildChain e₀.filters e₀.dictProp = .ok first)
    (hpushed : P.Pushed first data out convs) (more : List UInt8) :
    out <+: P.encodeInPlace first (data ++ more) := by
  rw [← hl.converters hbuild (hpushed.push more), List.append_assoc]
  exact List.prefix_append _ _

theorem converted_length {data whole : List UInt8} (h : e₀.converted data = .ok whole) :
    whole.length = data.length := by
  unfold converted at h
  split at h
  · cases h
    rfl
  · obtain ⟨convs, hbuild, rfl⟩ := map_eq_ok h
    exact hl.size data hbuild

theorem Along.below {convs : Option P.Converters} {data fed : List UInt8}
    (h : Along e₀ convs data fed) {more whole : List UInt8}
    (hwhole : e₀.converted (data ++ more) = .ok whole) : fed <+: whole := by
  unfold converted at hwhole
  cases h with
  | bare hnone =>
      rw [if_pos hnone] at hwhole
      cases hwhole
      exact List.prefix_append _ _
  | filtered hsome hbuild hpushed =>
      rw [if_neg hsome, hbuild] at hwhole
      cases hwhole
      exact pushed_below hl hbuild hpushed more

end

/-- The solid block under way: its header is out, and what the pipe has made of the input
so far; `handed` is all that was handed over. -/
structure Streaming (e₀ : XzEncoder P) (data : List UInt8) (stream : SolidStream P)
    (handed : List UInt8) : Prop where
  piped : ∃ enc first fed out header, e₀.lzma2 = some enc ∧ P.start enc = .ok first ∧
    P.Fed first fed out stream.pipe ∧ Along e₀ stream.convs data fed ∧
    blockHeader P e₀.filters e₀.dictProp none = .ok header ∧
    stream.headerLen = header.length ∧ handed = e₀.streamHeader ++ header ++ out
  check : ∃ first, ∃ pieces : List (List UInt8), P.newCheck e₀.check = .ok first ∧
    pieces.flatten = data ∧ stream.check = pieces.foldl P.updateCheck first
  uncompressed : stream.uncompressed = data.length

/-- What is handed over comes first in the file of one block without sizes. -/
def SolidBelow (e₀ : XzEncoder P) (encode : List UInt8 → List UInt8) (data handed : List UInt8) :
    Prop :=
  ∀ block, e₀.blockOf encode false data = .ok block → handed <+: e₀.streamHeader ++ block.bytes

/-- The parts of the solid block. -/
theorem blockOf_solid {data : List UInt8} {block : Block}
    (h : e₀.blockOf encode false data = .ok block) :
    ∃ checkBytes whole header, P.computeCheck e₀.check data = .ok checkBytes ∧
      e₀.converted data = .ok whole ∧ blockHeader P e₀.filters e₀.dictProp none = .ok header ∧
      block = ⟨header, encode whole, checkBytes,
        header.length + (encode whole).length + P.checkSize e₀.check, data.length⟩ := by
  unfold blockOf at h
  obtain ⟨checkBytes, hcheck, h⟩ := bind_eq_ok h
  obtain ⟨whole, hwhole, h⟩ := bind_eq_ok h
  obtain ⟨header, hheader, h⟩ := bind_eq_ok h
  cases h
  exact ⟨checkBytes, whole, header, hcheck, hwhole, hheader, rfl⟩

/-- More input: a call that goes through keeps the block under way, and in any case nothing is
handed over that the rest of the input could change. -/
def Advances (e₀ : XzEncoder P) (encode : List UInt8 → List UInt8) (data more : List UInt8)
    (handed : List UInt8) (r : Emitted (SolidStream P) Unit) : Prop :=
  (r.result = .ok () → Streaming e₀ (data ++ more) r.state (handed ++ r.pieces.flatten)) ∧
    ∀ rest, e₀.solidThreshold < (data ++ more ++ rest).length →
      SolidBelow e₀ encode (data ++ more ++ rest) (handed ++ r.pieces.flatten)

/-- What the pipe was fed and what it made of it decide what is handed over. -/
theorem solidBelow_of {data out header handed : List UInt8}
    (hheader : blockHeader P e₀.filters e₀.dictProp none = .ok header)
    (hhanded : handed = e₀.streamHeader ++ header ++ out)
    (hout : ∀ whole, e₀.converted data = .ok whole → out <+: encode whole) :
    SolidBelow e₀ encode data handed := by
  intro block hblock
  obtain ⟨checkBytes, whole, header', -, hwhole, hheader', rfl⟩ := blockOf_solid hblock
  obtain rfl : header = header' := Except.ok.inj (hheader.symm.trans hheader')
  obtain ⟨later, hlater⟩ := hout whole hwhole
  rw [hhanded]
  refine ⟨later ++ padToFour (encode whole).length ++ checkBytes, ?_⟩
  simp only [Block.bytes, ← hlater, List.append_assoc]

/-- The check takes the next piece of the input. -/
theorem updated {first check : P.RunningCheck} {pieces : List (List UInt8)} {data : List UInt8}
    (hnew : P.newCheck e₀.check = .ok first) (hpieces : pieces.flatten = data)
    (hcheck : check = pieces.foldl P.updateCheck first) (more : List UInt8) :
    ∃ first, ∃ pieces : List (List UInt8), P.newCheck e₀.check = .ok first ∧
      pieces.flatten = data ++ more ∧
      P.updateCheck check more = pieces.foldl P.updateCheck first := by
  refine ⟨first, pieces ++ [more], hnew, by simp [hpieces], ?_⟩
  rw [List.foldl_append, ← hcheck]
  rfl

/-- The input goes to the pipe as it is. -/
theorem bare_advances {data out header : List UInt8} {enc : P.Lzma2Encoder}
    {first : P.Lzma2Pipe} {stream : SolidStream P} (hlzma2 : e₀.lzma2 = some enc)
    (hstart : P.start enc = .ok first) (hnone : e₀.filters = []) (hconvs : stream.convs = none)
    (hheader : blockHeader P e₀.filters e₀.dictProp none = .ok header)
    (hlen : stream.headerLen = header.length) {more : List UInt8}
    (hcheck : ∃ first, ∃ pieces : List (List UInt8), P.newCheck e₀.check = .ok first ∧
      pieces.flatten = data ++ more ∧
      P.updateCheck stream.check more = pieces.foldl P.updateCheck first)
    (hcount : stream.uncompressed + more.length = (data ++ more).length)
    {r : Emitted P.Lzma2Pipe Unit}
    (hfed : r.result = .ok () → P.Fed first (data ++ more) (out ++ r.pieces.flatten) r.state)
    (hout : ∀ rest, e₀.solidThreshold < (data ++ more ++ rest).length →
      out ++ r.pieces.flatten <+: encode (data ++ more ++ rest)) :
    Advances e₀ encode data more (e₀.streamHeader ++ header ++ out)
      ⟨r.pieces, { stream.count more with pipe := r.state }, r.result⟩ := by
  constructor
  · intro hok
    refine ⟨⟨enc, first, _, _, header, hlzma2, hstart, hfed hok, ?_, hheader, hlen,
      List.append_assoc _ _ _⟩, hcheck, hcount⟩
    change Along e₀ stream.convs _ _
    rw [hconvs]
    exact .bare hnone
  · intro rest hlong
    refine solidBelow_of hheader (List.append_assoc _ _ _) fun whole hwhole => ?_
    unfold converted at hwhole
    rw [if_pos hnone] at hwhole
    cases hwhole
    exact hout rest hlong

section
variable (hl : P.Lawful Built e₀.solidThreshold encode)
include hl

theorem pushParts_spec {enc : P.Lzma2Encoder} {first : P.Lzma2Pipe} {firstConvs : P.Converters}
    (henc : Built enc) (hstart : P.start enc = .ok first)
    (hbuild : P.buildChain e₀.filters e₀.dictProp = .ok firstConvs) (parts : List (List UInt8))
    {pipe : P.Lzma2Pipe} {convs : P.Converters} {data fed out : List UInt8}
    (hfed : P.Fed first fed out pipe) (hpushed : P.Pushed firstConvs data fed convs) :
    ((SolidStream.pushParts pipe convs parts).result = .ok () →
      ∃ fed', P.Fed first fed' (out ++ (SolidStream.pushParts pipe convs parts).pieces.flatten)
          (SolidStream.pushParts pipe convs parts).state.1 ∧
        P.Pushed firstConvs (data ++ parts.flatten) fed'
          (SolidStream.pushParts pipe convs parts).state.2) ∧
    ∀ rest, e₀.solidThreshold < (data ++ parts.flatten ++ rest).length →
      out ++ (SolidStream.pushParts pipe convs parts).pieces.flatten <+:
        encode (P.encodeInPlace firstConvs (data ++ parts.flatten ++ rest)) := by
  induction parts generalizing pipe convs data fed out with
  | nil =>
      simp only [SolidStream.pushParts, List.flatten_nil, List.append_nil]
      refine ⟨fun _ => ⟨fed, hfed, hpushed⟩, fun rest hlong => ?_⟩
      obtain ⟨later, hlater⟩ := pushed_below hl hbuild hpushed rest
      rw [← hlater]
      apply (hl.pipes henc).below hstart hfed later
      rw [hlater, hl.size _ hbuild]
      exact hlong
  | cons part parts ih =>
      have hpushed' := hpushed.push part
      rw [SolidStream.pushParts]
      simp only [List.flatten_cons, ← List.append_assoc]
      cases hsent : (P.write pipe (P.encodePush convs part).1).result with
      | error err =>
          refine ⟨fun hb => (by cases hb), fun rest hlong => ?_⟩
          obtain ⟨later, hlater⟩ := pushed_below hl hbuild hpushed' (parts.flatten ++ rest)
          rw [← List.append_assoc] at hlater
          rw [← hlater]
          apply (hl.pipes henc).write _ later hstart hfed
          rw [hlater, hl.size _ hbuild]
          exact hlong
      | ok _ =>
          have hih := ih (hfed.write _ hsent) hpushed'
          simp only [List.flatten_append, ← List.append_assoc]
          exact hih

theorem push_advances (hbuilt : ∀ enc, e₀.lzma2 = some enc → Built enc) {data : List UInt8}
    {stream : SolidStream P} {handed : List UInt8} (hs : Streaming e₀ data stream handed)
    (more : List UInt8) : Advances e₀ encode data more handed (stream.push more) := by
  obtain ⟨⟨enc, first, fed, out, header, hlzma2, hstart, hfed, halong, hheader, hlen, rfl⟩,
    ⟨check, pieces, hnew, hpieces, hcheck⟩, huncompressed⟩ := hs
  have hpipes := hl.pipes (hbuilt enc hlzma2)
  have hcheck' := updated hnew hpieces hcheck more
  have hcount : stream.uncompressed + more.length = (data ++ more).length := by
    rw [huncompressed, List.length_append]
  unfold SolidStream.push
  dsimp only
  split
  next convs hconvs =>
      change stream.convs = _ at hconvs
      rw [hconvs] at halong
      cases halong with
      | filtered hsome hbuild hpushed =>
          rename_i firstConvs
          have hparts := pushParts_spec hl (hbuilt enc hlzma2) hstart hbuild
            (more.toChunks (64 <<< 10)) hfed hpushed
          rw [toChunks_flatten] at hparts
          refine ⟨fun hok => ?_, fun rest hlong => ?_⟩
          · obtain ⟨fed', hfed', hpushed'⟩ := hparts.1 hok
            exact ⟨⟨enc, first, _, _, header, hlzma2, hstart, hfed',
              .filtered hsome hbuild hpushed', hheader, hlen, List.append_assoc _ _ _⟩, hcheck',
              hcount⟩
          · refine solidBelow_of hheader (List.append_assoc _ _ _) fun whole hwhole => ?_
            unfold converted at hwhole
            rw [if_neg hsome, hbuild] at hwhole
            cases hwhole
            exact hparts.2 rest hlong
  next hconvs =>
      change stream.convs = _ at hconvs
      rw [hconvs] at halong
      cases halong with
      | bare hnone =>
          exact bare_advances hlzma2 hstart hnone hconvs hheader hlen hcheck' hcount
            (fun hok => hfed.write more hok) (fun rest => hpipes.write more rest hstart hfed)

/-- The bytes that were held are fed like any others. -/
theorem pushOwned_advances (hbuilt : ∀ enc, e₀.lzma2 = some enc → Built enc) {data : List UInt8}
    {stream : SolidStream P} {handed : List UInt8} (hs : Streaming e₀ data stream handed)
    (more : List UInt8) : Advances e₀ encode data more handed (stream.pushOwned more) := by
  unfold SolidStream.pushOwned
  cases hconvs : stream.convs with
  | some convs => exact push_advances hl hbuilt hs more
  | none =>
      obtain ⟨⟨enc, first, fed, out, header, hlzma2, hstart, hfed, halong, hheader, hlen, rfl⟩,
        ⟨check, pieces, hnew, hpieces, hcheck⟩, huncompressed⟩ := hs
      have hpipes := hl.pipes (hbuilt enc hlzma2)
      have hcheck' := updated hnew hpieces hcheck more
      have hcount : stream.uncompressed + more.length = (data ++ more).length := by
        rw [huncompressed, List.length_append]
      rw [hconvs] at halong
      cases halong with
      | bare hnone =>
          exact bare_advances hlzma2 hstart hnone hconvs hheader hlen hcheck' hcount
            (fun hok => hfed.writeOwned more hok)
            (fun rest => hpipes.writeOwned more rest hstart hfed)

/-- With what the converters held, the pipe has been fed the whole converted block. -/
theorem flushConvs_spec {enc : P.Lzma2Encoder} (henc : Built enc) {first : P.Lzma2Pipe}
    (hstart : P.start enc = .ok first) {data fed out : List UInt8} {stream : SolidStream P}
    (hfed : P.Fed first fed out stream.pipe) (halong : Along e₀ stream.convs data fed)
    (hlong : e₀.solidThreshold < data.length) :
    ∃ whole, e₀.converted data = .ok whole ∧
      (stream.flushConvs.result = .ok () →
        P.Fed first whole (out ++ stream.flushConvs.pieces.flatten) stream.flushConvs.state) ∧
      out ++ stream.flushConvs.pieces.flatten <+: encode whole := by
  have hpipes := hl.pipes henc
  unfold SolidStream.flushConvs converted
  cases hconvs : stream.convs with
  | none =>
      rw [hconvs] at halong
      cases halong with
      | bare hnone =>
          rw [if_pos hnone]
          simp only [List.flatten_nil, List.append_nil]
          have hbelow := hpipes.below hstart hfed [] (by rwa [List.append_nil])
          rw [List.append_nil] at hbelow
          exact ⟨_, rfl, fun _ => hfed, hbelow⟩
  | some convs =>
      rw [hconvs] at halong
      cases halong with
      | filtered hsome hbuild hpushed =>
          rename_i firstConvs
          rw [if_neg hsome, hbuild]
          have hall := hl.converters hbuild hpushed
          have hlen := hl.size data hbuild
          have hbelow := hpipes.write (P.encodeFinish convs) [] hstart hfed
            (by rw [List.append_nil, hall, hlen]; exact hlong)
          rw [List.append_nil, hall] at hbelow
          refine ⟨_, rfl, fun hok => ?_, hbelow⟩
          have hfed' := hfed.write (P.encodeFinish convs) hok
          rwa [hall] at hfed'

/-- The end of the block: the pipe's last bytes, the padding and the check. -/
theorem finishOutput_spec (hbuilt : ∀ enc, e₀.lzma2 = some enc → Built enc) {data : List UInt8}
    {stream : SolidStream P} {handed : List UInt8} (hs : Streaming e₀ data stream handed)
    (hlong : e₀.solidThreshold < data.length) :
    SolidBelow e₀ encode data (handed ++ (stream.finishOutput e₀.check).pieces.flatten) ∧
      ∀ record, (stream.finishOutput e₀.check).result = .ok record →
        ∃ block, e₀.blockOf encode false data = .ok block ∧ record = block.record ∧
          handed ++ (stream.finishOutput e₀.check).pieces.flatten =
            e₀.streamHeader ++ block.bytes := by
  obtain ⟨⟨enc, first, fed, out, header, hlzma2, hstart, hfed, halong, hheader, hlen, rfl⟩,
    ⟨check, pieces, hnew, hpieces, hcheck⟩, huncompressed⟩ := hs
  have hpipes := hl.pipes (hbuilt enc hlzma2)
  obtain ⟨whole, hwhole, hflushed, hbelow⟩ :=
    flushConvs_spec hl (hbuilt enc hlzma2) hstart hfed halong hlong
  have hsize : e₀.solidThreshold < whole.length := by rwa [converted_length hl hwhole]
  have hpart : ∀ more, out ++ more <+: encode whole →
      SolidBelow e₀ encode data (e₀.streamHeader ++ header ++ out ++ more) := by
    intro more hmore
    refine solidBelow_of hheader (List.append_assoc _ _ _) fun whole' hwhole' => ?_
    obtain rfl : whole = whole' := Except.ok.inj (hwhole.symm.trans hwhole')
    exact hmore
  unfold SolidStream.finishOutput
  dsimp only
  cases hflush : stream.flushConvs.result with
  | error err => exact ⟨hpart _ hbelow, fun record hr => by cases hr⟩
  | ok _ =>
      have hfed' := hflushed hflush
      cases hend : (P.finish stream.flushConvs.state).result with
      | error err =>
          refine ⟨?_, fun record hr => by cases hr⟩
          have hfinish := hpipes.finish hstart hfed' hsize
          rw [List.append_assoc, ← List.flatten_append] at hfinish
          exact hpart _ hfinish
      | ok compressed =>
          obtain ⟨hall, hcount⟩ := hpipes.finished hstart hfed' hsize hend
          have hblock : e₀.blockOf encode false data = .ok
              ⟨header, encode whole, P.finishCheck stream.check,
                header.length + (encode whole).length + P.checkSize e₀.check, data.length⟩ := by
            have hsum := hl.check pieces hnew
            rw [hpieces, ← hcheck] at hsum
            unfold blockOf
            rw [hsum, hwhole]
            simp only [Bool.false_eq_true, if_false]
            change (blockHeader P e₀.filters e₀.dictProp none >>= _) = _
            rw [hheader]
            rfl
          have hbytes : e₀.streamHeader ++ header ++ out ++
              (stream.flushConvs.pieces ++ (P.finish stream.flushConvs.state).pieces ++
                [padToFour (compressed % 4) ++ P.finishCheck stream.check]).flatten =
              e₀.streamHeader ++ Block.bytes ⟨header, encode whole, P.finishCheck stream.check,
                header.length + (encode whole).length + P.checkSize e₀.check, data.length⟩ := by
            have hpad : padToFour (compressed % 4) = padToFour (encode whole).length := by
              rw [hcount]
              simp [padToFour]
            simp only [Block.bytes, hpad, ← hall, List.flatten_append, List.flatten_singleton,
              List.append_assoc]
          constructor
          · intro block hb
            obtain rfl := Except.ok.inj (hblock.symm.trans hb)
            exact hbytes ▸ List.prefix_rfl
          · intro record hr
            cases hr
            refine ⟨_, hblock, ?_, hbytes⟩
            rw [hlen, huncompressed, hcount]
            rfl

end

end XzEncoder
end LzmaTurbo.Enc
