import LzmaTurbo.Lib.CyclicCode
import LzmaTurbo.Mt.ChecksumLaws

/-!
# Segments and pieces tile what they are of
-/
namespace LzmaTurbo.Mt
open LzmaTurbo.Crc LzmaTurbo.Crc.CrcFolder

/-- A segment as a piece. -/
def Segment.piece (s : Segment) : Piece SegmentCheck := ⟨s.offset, s.len, s.check⟩

/-- The segments tile the data, begin where it begins and at every split point inside it,
and carry the checksums of their bytes. -/
structure CutAt (sum : List UInt8 → SegmentCheck) (splits : List ℕ) (start : ℕ)
    (data : List UInt8) (segs : List Segment) : Prop where
  tiles : Tiles start (start + data.length) (segs.map Segment.piece)
  offsets : segs.map (·.offset) =
    if data = [] then []
    else start :: splits.filter fun c => start < c ∧ c < start + data.length
  checks : ∀ s ∈ segs, s.check = sum ((data.drop (s.offset - start)).take s.len)

section Cuts
variable {sum : List UInt8 → SegmentCheck}

theorem tiles_one {start : ℕ} {bytes : List UInt8} :
    Tiles start (start + bytes.length)
      ((if bytes = [] then [] else [(⟨start, bytes.length, sum bytes⟩ : Segment)]).map
        Segment.piece) := by
  by_cases hb : bytes = []
  · rw [if_pos hb, hb]
    rfl
  · rw [if_neg hb]
    exact ⟨rfl, List.length_pos_of_ne_nil hb, rfl⟩

theorem checks_one {start : ℕ} {bytes : List UInt8} :
    ∀ s ∈ (if bytes = [] then [] else [(⟨start, bytes.length, sum bytes⟩ : Segment)]),
      s.check = sum ((bytes.drop (s.offset - start)).take s.len) := by
  intro s hs
  split at hs
  · cases hs
  · rw [List.mem_singleton.1 hs]
    dsimp only
    rw [Nat.sub_self, List.drop_zero, List.take_length]

theorem segmentsOf_tiles {start : ℕ} {cuts : List ℕ} {bytes : List UInt8}
    (hcuts : (start :: cuts).Pairwise (· < ·)) :
    Tiles start (start + bytes.length) ((segmentsOf sum start cuts bytes).map Segment.piece) := by
  induction cuts generalizing start bytes with
  | nil => exact tiles_one
  | cons c cuts ih =>
      have hc := (List.pairwise_cons.1 hcuts).1 c List.mem_cons_self
      rw [segmentsOf]
      by_cases hlt : c < start + bytes.length
      · have hrest := @ih c (bytes.drop (c - start)) (List.pairwise_cons.1 hcuts).2
        rw [List.length_drop, show c + (bytes.length - (c - start)) = start + bytes.length by omega]
          at hrest
        rw [if_pos hlt]
        refine ⟨rfl, Nat.sub_pos_of_lt hc, ?_⟩
        change Tiles (start + (c - start)) _ _
        rwa [Nat.add_sub_of_le (Nat.le_of_lt hc)]
      · rw [if_neg hlt]
        exact tiles_one

theorem segmentsOf_offsets {start : ℕ} {cuts : List ℕ} {bytes : List UInt8}
    (hcuts : (start :: cuts).Pairwise (· < ·)) :
    (segmentsOf sum start cuts bytes).map (·.offset) =
      if bytes = [] then [] else start :: cuts.filter (· < start + bytes.length) := by
  induction cuts generalizing start bytes with
  | nil =>
      rw [segmentsOf]
      split <;> rfl
  | cons c cuts ih =>
      have hc := (List.pairwise_cons.1 hcuts).1 c List.mem_cons_self
      have htail := (List.pairwise_cons.1 hcuts).2
      rw [segmentsOf]
      by_cases hlt : c < start + bytes.length
      · have hrest := @ih c (bytes.drop (c - start)) htail
        have hdrop : bytes.drop (c - start) ≠ [] := by
          intro h
          have hlen := congrArg List.length h
          rw [List.length_drop, List.length_nil] at hlen
          omega
        have hne : bytes ≠ [] := by
          rintro rfl
          exact hdrop List.drop_nil
        rw [List.length_drop, show c + (bytes.length - (c - start)) = start + bytes.length by omega,
          if_neg hdrop] at hrest
        rw [if_pos hlt, if_neg hne, List.map_cons, hrest,
          List.filter_cons_of_pos (by simpa using hlt)]
      · have hnone : (c :: cuts).filter (· < start + bytes.length) = [] := by
          refine List.filter_eq_nil_iff.2 fun d hd => ?_
          rcases List.mem_cons.1 hd with rfl | hd
          · simpa using hlt
          · have hcd := (List.pairwise_cons.1 htail).1 d hd
            have hge : ¬d < start + bytes.length := by omega
            simpa using hge
        rw [if_neg hlt, hnone]
        split <;> rfl

theorem segmentsOf_checks {start : ℕ} {cuts : List ℕ} {bytes : List UInt8}
    (hcuts : (start :: cuts).Pairwise (· < ·)) :
    ∀ s ∈ segmentsOf sum start cuts bytes,
      s.check = sum ((bytes.drop (s.offset - start)).take s.len) := by
  induction cuts generalizing start bytes with
  | nil => exact checks_one
  | cons c cuts ih =>
      have hc := (List.pairwise_cons.1 hcuts).1 c List.mem_cons_self
      have htail := (List.pairwise_cons.1 hcuts).2
      intro s hs
      rw [segmentsOf] at hs
      by_cases hlt : c < start + bytes.length
      · rw [if_pos hlt] at hs
        rcases List.mem_cons.1 hs with rfl | hs
        · dsimp only
          rw [Nat.sub_self, List.drop_zero]
        · have hin := (segmentsOf_tiles htail).mem (List.mem_map_of_mem hs)
          have hoff : c ≤ s.offset := hin.1
          rw [ih htail s hs, List.drop_drop,
            show c - start + (s.offset - c) = s.offset - start by omega]
      · rw [if_neg hlt] at hs
        exact checks_one s hs

/-- The segments of a run are cut at the split points inside it. -/
theorem segmentsOf_cut (sum : List UInt8 → SegmentCheck) {splits : List ℕ}
    (hsplits : splits.Pairwise (· < ·)) (start : ℕ) (data : List UInt8) :
    CutAt sum splits start data (segmentsOf sum start (splits.filter (start < ·)) data) := by
  have hcuts : (start :: splits.filter (start < ·)).Pairwise (· < ·) :=
    List.pairwise_cons.2
      ⟨fun c hc => of_decide_eq_true (List.mem_filter.1 hc).2, hsplits.filter _⟩
  refine ⟨segmentsOf_tiles hcuts, ?_, segmentsOf_checks hcuts⟩
  rw [segmentsOf_offsets hcuts, List.filter_filter]
  congr 2
  refine List.filter_congr fun c _ => ?_
  rw [Bool.and_comm, ← Bool.decide_and]

end Cuts

section Widths
variable {W : Type}

/-- The checksums of one width. -/
def piecesOf (width : SegmentCheck → Option W) (segs : List Segment) : List (Piece W) :=
  segs.filterMap fun s => (width s.check).map fun v => ⟨s.offset, s.len, v⟩

variable {width : SegmentCheck → Option W} {sum : List UInt8 → SegmentCheck} {D : Digest W}
  {F : Foldable W}

theorem piecesOf_map (width : SegmentCheck → Option W) {f : Segment → W} {segs : List Segment}
    (h : ∀ s ∈ segs, width s.check = some (f s)) :
    piecesOf width segs = segs.map fun s => ⟨s.offset, s.len, f s⟩ := by
  induction segs with
  | nil => rfl
  | cons s segs ih =>
      have hs := h s List.mem_cons_self
      rw [List.map_cons, ← ih fun t ht => h t (List.mem_cons_of_mem s ht), piecesOf,
        List.filterMap_cons, hs]
      rfl

theorem tiles_map {V : Type} {start stop : ℕ} {f : Segment → V} {segs : List Segment}
    (h : Tiles start stop (segs.map Segment.piece)) :
    Tiles start stop (segs.map fun s => (⟨s.offset, s.len, f s⟩ : Piece V)) := by
  induction segs generalizing start with
  | nil => exact h
  | cons s segs ih => exact ⟨h.1, h.2.1, ih h.2.2⟩

/-- The pieces of a cut run, in any stream that has the run where it begins. -/
theorem CutAt.pieces (hwidth : ∀ data, width (sum data) = some (D.one data)) {splits : List ℕ}
    {start : ℕ} {data : List UInt8} {segs : List Segment} (h : CutAt sum splits start data segs) :
    Tiles start (start + data.length) (piecesOf width segs) ∧
      ∀ before after : List UInt8, before.length = start →
        ∀ p ∈ piecesOf width segs, PieceOf D (before ++ data ++ after) p := by
  have hmap := piecesOf_map width fun s hs => by
    rw [h.checks s hs]
    exact hwidth _
  refine ⟨by rw [hmap]; exact tiles_map h.tiles, fun before after hbefore p hp => ?_⟩
  rw [hmap] at hp
  obtain ⟨s, hs, rfl⟩ := List.mem_map.1 hp
  have hin := h.tiles.mem (List.mem_map_of_mem hs)
  have hlo : start ≤ s.offset := hin.1
  have hhi : s.offset + s.len ≤ start + data.length := hin.2.2
  constructor
  · change s.offset + s.len ≤ (before ++ data ++ after).length
    rw [List.length_append, List.length_append]
    omega
  · change D.one ((data.drop (s.offset - start)).take s.len) =
      D.one (((before ++ data ++ after).drop s.offset).take s.len)
    obtain ⟨k, hk⟩ := Nat.exists_eq_add_of_le hlo
    rw [hk] at hhi ⊢
    rw [Nat.add_sub_cancel_left, ← hbefore, List.append_assoc, List.drop_length_add_append,
      List.drop_append_of_le_length (by omega),
      List.take_append_of_le_length (by rw [List.length_drop]; omega)]

/-- The checksums of the segments fold into that of the run. -/
theorem CutAt.folds (hF : FoldsWith D F) (hwidth : ∀ data, width (sum data) = some (D.one data))
    {splits : List ℕ} {start : ℕ} {data : List UInt8} {segs : List Segment}
    (h : CutAt sum splits start data segs) :
    foldPieces F F.empty (piecesOf width segs) = D.one data := by
  have hp := h.pieces hwidth
  have hpieces := hp.2 (List.replicate start 0) [] List.length_replicate
  have hfold := foldPieces_tiles hF start hpieces hp.1 (Nat.le_refl _)
  rw [Nat.sub_self, List.take_zero, ← hF.empty, Nat.add_sub_cancel_left, List.append_nil,
    List.drop_left' List.length_replicate, List.take_length] at hfold
  exact hfold

/-- Pushed in any order, they answer for the run. -/
theorem CutAt.range (hF : FoldsWith D F) (hwidth : ∀ data, width (sum data) = some (D.one data))
    {splits : List ℕ} {start : ℕ} {data : List UInt8} {segs : List Segment}
    (h : CutAt sum splits start data segs) (hmax : start + data.length ≤ u64Max)
    {ps : List (Piece W)} (hps : ps.Perm (piecesOf width segs)) :
    (new.pushAll ps).range F start data.length = some (D.one data) := by
  have hp := h.pieces hwidth
  have hpieces := hp.2 (List.replicate start 0) [] List.length_replicate
  rw [List.append_nil] at hpieces
  have hlen : (List.replicate start 0 ++ data).length ≤ u64Max := by
    rwa [List.length_append, List.length_replicate]
  have hapart : ∀ p ∈ ps, ∀ q ∈ ps, 0 < p.len → 0 < q.len → Apart p q := by
    intro p hp' q hq' _ _
    exact hp.1.apart (hps.mem_iff.1 hp') (hps.mem_iff.1 hq')
  refine (range_pushed hF hlen (fun p hp' => hpieces p (hps.mem_iff.1 hp')) hapart start
    data.length (D.one data)).2 ⟨⟨_, fun q hq => hps.mem_iff.2 hq, hp.1⟩, ?_⟩
  rw [List.drop_left' List.length_replicate, List.take_length]

end Widths

/-- However a run is fed, its segments are cut at the split points inside it and fold into its
checksum, and a folder answers for a range exactly when its pieces tile it. -/
theorem checksums_exact (X : Crates) (F32 : Foldable UInt32) (F64 : Foldable UInt64)
    (hX : X.Lawful F32 F64) :
    (∀ (plan : ChecksumPlan) (start : ℕ) (chunks : List (List UInt8)),
      (plan.kind = .crc32 →
        CutAt (fun data => .crc32 (X.crc32.one data)) plan.splitPoints start chunks.flatten
            (chunks.foldl Segmenter.update (.new X plan start)).finish.segments ∧
          foldPieces F32 F32.empty (piecesOf SegmentCheck.asCrc32
            (chunks.foldl Segmenter.update (.new X plan start)).finish.segments) =
              X.crc32.one chunks.flatten ∧
          (start + chunks.flatten.length ≤ u64Max → ∀ ps, ps.Perm (piecesOf SegmentCheck.asCrc32
            (chunks.foldl Segmenter.update (.new X plan start)).finish.segments) →
              (new.pushAll ps).range F32 start chunks.flatten.length =
                some (X.crc32.one chunks.flatten))) ∧
      (plan.kind = .crc64Xz →
        CutAt (fun data => .crc64 (X.crc64Xz.one data)) plan.splitPoints start chunks.flatten
            (chunks.foldl Segmenter.update (.new X plan start)).finish.segments ∧
          foldPieces F64 F64.empty (piecesOf SegmentCheck.asCrc64
            (chunks.foldl Segmenter.update (.new X plan start)).finish.segments) =
              X.crc64Xz.one chunks.flatten ∧
          (start + chunks.flatten.length ≤ u64Max → ∀ ps, ps.Perm (piecesOf SegmentCheck.asCrc64
            (chunks.foldl Segmenter.update (.new X plan start)).finish.segments) →
              (new.pushAll ps).range F64 start chunks.flatten.length =
                some (X.crc64Xz.one chunks.flatten)))) ∧
    (∀ (W : Type) (D : Digest W) (F : Foldable W), FoldsWith D F →
      ∀ stream : List UInt8, stream.length ≤ u64Max →
      ∀ ps : List (Piece W), (∀ p ∈ ps, PieceOf D stream p) → ∀ (offset len : ℕ) (w : W),
        ((new.pushAll ps).range F offset len = some w ↔
          (∃ qs, qs <+: (new.pushAll ps).within offset (offset + len) ∧
            Tiles offset (offset + len) qs) ∧ w = D.one ((stream.drop offset).take len)) ∧
        ((∀ p ∈ ps, ∀ q ∈ ps, 0 < p.len → 0 < q.len → Apart p q) →
          ((new.pushAll ps).range F offset len = some w ↔
            (∃ qs, (∀ q ∈ qs, q ∈ ps) ∧ Tiles offset (offset + len) qs) ∧
              w = D.one ((stream.drop offset).take len)))) := by
  refine ⟨fun plan start chunks => ⟨fun hkind => ?_, fun hkind => ?_⟩, ?_⟩
  · have hsum : plan.kind.sum X = some fun data => .crc32 (X.crc32.one data) := by
      rw [hkind]
      rfl
    obtain ⟨-, -, hsegs⟩ := Segmenter.run_segments hX hsum start chunks
    have hcut := segmentsOf_cut (fun data => .crc32 (X.crc32.one data))
      plan.splitPoints_increasing start chunks.flatten
    rw [← hsegs] at hcut
    exact ⟨hcut, hcut.folds hX.crc32 fun _ => rfl,
      fun hmax ps hps => hcut.range hX.crc32 (fun _ => rfl) hmax hps⟩
  · have hsum : plan.kind.sum X = some fun data => .crc64 (X.crc64Xz.one data) := by
      rw [hkind]
      rfl
    obtain ⟨-, -, hsegs⟩ := Segmenter.run_segments hX hsum start chunks
    have hcut := segmentsOf_cut (fun data => .crc64 (X.crc64Xz.one data))
      plan.splitPoints_increasing start chunks.flatten
    rw [← hsegs] at hcut
    exact ⟨hcut, hcut.folds hX.crc64Xz fun _ => rfl,
      fun hmax ps hps => hcut.range hX.crc64Xz (fun _ => rfl) hmax hps⟩
  · intro W D F hF stream hmax ps hps offset len w
    refine ⟨range_iff hF hmax (fun p hp => ?_) offset len w,
      fun hapart => range_pushed hF hmax hps hapart offset len w⟩
    have hmem := (mem_pushAll hp).resolve_right (fun h => nomatch h)
    exact ⟨hps p hmem.1, hmem.2⟩

/-- The digest of one width. -/
def registerDigest {w : ℕ} {W : Type} (poly : BitVec w) (ofBits : BitVec w → W) : Digest W where
  State := BitVec w
  new := BitVec.allOnes w
  update := CyclicCode.register poly
  finalize := fun s => ofBits (s ^^^ BitVec.allOnes w)

/-- Its `Foldable`. -/
def registerFold {w : ℕ} {W : Type} (poly : BitVec w) (ofBits : BitVec w → W)
    (bits : W → BitVec w) : Foldable W where
  empty := ofBits 0#w
  fold := fun a b lenB => ofBits (CyclicCode.combine poly (bits a) (bits b) lenB)

theorem register_folds {w : ℕ} {W : Type} (poly : BitVec w) {ofBits : BitVec w → W}
    (bits : W → BitVec w) (hbits : ∀ s, bits (ofBits s) = s) :
    FoldsWith (registerDigest poly ofBits) (registerFold poly ofBits bits) where
  stream := by
    have hfold : ∀ (chunks : List (List UInt8)) (s : BitVec w),
        chunks.foldl (CyclicCode.register poly) s =
          CyclicCode.register poly s chunks.flatten := by
      intro chunks
      induction chunks with
      | nil => exact fun s => rfl
      | cons c chunks ih =>
          intro s
          rw [List.flatten_cons, CyclicCode.register_append, ← ih]
          rfl
    intro chunks
    exact congrArg (fun s => ofBits (s ^^^ BitVec.allOnes w)) (hfold chunks (BitVec.allOnes w))
  empty := congrArg ofBits (CyclicCode.check_nil poly).symm
  fold := by
    intro a b
    change ofBits (CyclicCode.combine poly (bits (ofBits (CyclicCode.check poly a)))
      (bits (ofBits (CyclicCode.check poly b))) b.length) = _
    rw [hbits, hbits, CyclicCode.combine_check]
    rfl

/-- CRC-32/ISO-HDLC. -/
def crc32Iso : Digest UInt32 := registerDigest 0xEDB88320#32 UInt32.ofBitVec
/-- CRC-64/XZ. -/
def crc64Xz : Digest UInt64 := registerDigest 0xC96C5795D7870F42#64 UInt64.ofBitVec

/-- Split points at the edge of a chunk, inside one and past the end. -/
def edgePlan : ChecksumPlan where
  kind := .crc32
  splits := some [13, 14, 40]
  increasing := fun s hs => by
    cases hs
    decide

/-- What "abcdef" from offset 10 is cut into, as it comes in three chunks. -/
def edgeSegments : List Segment :=
  ([[97, 98, 99], [], [100, 101, 102]].foldl Segmenter.update
    (.new ⟨crc32Iso, crc64Xz, ⟨List UInt8, [], (· ++ ·), id⟩⟩ edgePlan 10)).finish.segments

/-- They meet where the first chunk ends and one byte later, and the checks of "abc" and "de",
pushed last first, are folded. -/
theorem checksums_exact_witness :
    (CutAt (fun data => .crc32 (crc32Iso.one data)) [13, 14, 40] 10 [97, 98, 99, 100, 101, 102]
        edgeSegments ∧
      (edgeSegments.map fun s => (s.offset, s.len)) = [(10, 3), (13, 1), (14, 2)] ∧
      foldPieces (registerFold 0xEDB88320#32 UInt32.ofBitVec UInt32.toBitVec) 0
          (piecesOf SegmentCheck.asCrc32 edgeSegments) =
        crc32Iso.one [97, 98, 99, 100, 101, 102]) ∧
    (new.pushAll [⟨3, 2, crc32Iso.one [100, 101]⟩, ⟨0, 3, crc32Iso.one [97, 98, 99]⟩]).range
        (registerFold 0xEDB88320#32 UInt32.ofBitVec UInt32.toBitVec) 0 5 =
      some (crc32Iso.one [97, 98, 99, 100, 101]) := by
  have hF : FoldsWith crc32Iso (registerFold 0xEDB88320#32 UInt32.ofBitVec UInt32.toBitVec) :=
    register_folds 0xEDB88320#32 _ fun _ => rfl
  have hX : Crates.Lawful ⟨crc32Iso, crc64Xz, ⟨List UInt8, [], (· ++ ·), id⟩⟩
      (registerFold 0xEDB88320#32 UInt32.ofBitVec UInt32.toBitVec)
      (registerFold 0xC96C5795D7870F42#64 UInt64.ofBitVec UInt64.toBitVec) :=
    ⟨hF, register_folds 0xC96C5795D7870F42#64 _ fun _ => rfl⟩
  constructor
  · have hrun := ((checksums_exact _ _ _ hX).1 edgePlan 10
      [[97, 98, 99], [], [100, 101, 102]]).1 rfl
    exact ⟨hrun.1, by decide +kernel, hrun.2.1⟩
  · refine ((checksums_exact _ _ _ hX).2 UInt32 crc32Iso _ hF [97, 98, 99, 100, 101] (by decide)
      _ ?_ 0 5 _).1.2 ⟨⟨[⟨0, 3, crc32Iso.one [97, 98, 99]⟩, ⟨3, 2, crc32Iso.one [100, 101]⟩],
        ⟨[], rfl⟩, rfl, by decide, rfl, by decide, rfl⟩, rfl⟩
    intro p hp
    rcases List.mem_cons.1 hp with rfl | hp
    · exact ⟨by decide, rfl⟩
    · rw [List.mem_singleton.1 hp]
      exact ⟨by decide, rfl⟩

end LzmaTurbo.Mt
