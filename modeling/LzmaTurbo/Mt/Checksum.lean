import LzmaTurbo.Mt.CrcFolder
import Mathlib.Data.List.Sort
import Mathlib.Data.List.Dedup

/-!
# Checksums of segments

A worker checksums the run it decodes in one pass, cut where the consumer wants it cut. Every
offset is one of a stream, so none is near the end of a `u64`.
-/
namespace LzmaTurbo.Mt
open LzmaTurbo.Crc

/-- `Checksum`. -/
inductive Checksum where
  | none
  | crc32
  | crc64Xz
  | sha256
deriving Repr, DecidableEq

/-- `SegmentCheck`. -/
inductive SegmentCheck where
  | crc32 (v : UInt32)
  | crc64 (v : UInt64)
deriving Repr, DecidableEq

namespace SegmentCheck

/-- `SegmentCheck::crc32`. -/
def asCrc32 : SegmentCheck → Option UInt32
  | .crc32 v => some v
  | .crc64 _ => Option.none

/-- `SegmentCheck::crc64`. -/
def asCrc64 : SegmentCheck → Option UInt64
  | .crc64 v => some v
  | .crc32 _ => Option.none

end SegmentCheck

/-- `Segment`. -/
structure Segment where
  offset : ℕ
  len : ℕ
  check : SegmentCheck
deriving Repr, DecidableEq

/-- `BlockChecks`. -/
structure BlockChecks where
  unpackedOffset : ℕ
  len : ℕ
  digest : Option (List UInt8)
  segments : List Segment
deriving Repr, DecidableEq

/-- `ChecksumPlan`. -/
structure ChecksumPlan where
  kind : Checksum
  splits : Option (List ℕ)
  increasing : ∀ s ∈ splits, s.Pairwise (· < ·)

namespace ChecksumPlan

def new (kind : Checksum) : ChecksumPlan := ⟨kind, Option.none, fun _ h => nomatch h⟩

/-- The offsets sorted, each of them once. -/
def sortPoints (points : List ℕ) : List ℕ :=
  ((points.filter (· ≠ 0)).mergeSort (· ≤ ·)).dedup

theorem sortPoints_increasing (points : List ℕ) : (sortPoints points).Pairwise (· < ·) := by
  have hle : (sortPoints points).Pairwise (· ≤ ·) := by
    apply List.Pairwise.sublist (List.dedup_sublist _)
    have h := @List.pairwise_mergeSort ℕ (fun a b => decide (a ≤ b))
      (fun a b c hab hbc => decide_eq_true
        (Nat.le_trans (of_decide_eq_true hab) (of_decide_eq_true hbc)))
      (fun a b => by simpa using Nat.le_total a b) (points.filter (· ≠ 0))
    exact h.imp of_decide_eq_true
  exact (hle.and (List.nodup_dedup _)).imp fun h => Nat.lt_of_le_of_ne h.1 h.2

/-- `with_split_points`. -/
def withSplitPoints (plan : ChecksumPlan) (points : List ℕ) : ChecksumPlan :=
  if (sortPoints points).isEmpty then ⟨plan.kind, Option.none, fun _ h => nomatch h⟩
  else ⟨plan.kind, some (sortPoints points), fun _ h => Option.some.inj h ▸
    sortPoints_increasing points⟩

/-- `split_points`. -/
def splitPoints (plan : ChecksumPlan) : List ℕ := plan.splits.getD []

theorem splitPoints_increasing (plan : ChecksumPlan) : plan.splitPoints.Pairwise (· < ·) := by
  unfold splitPoints
  cases hs : plan.splits with
  | none => exact List.Pairwise.nil
  | some s => exact plan.increasing s hs

end ChecksumPlan

/-- The digests of the other crates. -/
structure Crates where
  crc32 : Digest UInt32
  crc64Xz : Digest UInt64
  sha256 : Digest (List UInt8)

/-- `Running`. -/
inductive Running (X : Crates) where
  | crc32 (d : X.crc32.State)
  | crc64 (d : X.crc64Xz.State)

namespace Running
variable {X : Crates}

/-- `start`. -/
def start (X : Crates) : Checksum → Option (Running X)
  | .crc32 => some (.crc32 X.crc32.new)
  | .crc64Xz => some (.crc64 X.crc64Xz.new)
  | _ => Option.none

/-- `update`. -/
def update (r : Running X) (data : List UInt8) : Running X :=
  match r with
  | .crc32 d => .crc32 (X.crc32.update d data)
  | .crc64 d => .crc64 (X.crc64Xz.update d data)

/-- `finish`. -/
def finish : Running X → SegmentCheck
  | .crc32 d => .crc32 (X.crc32.finalize d)
  | .crc64 d => .crc64 (X.crc64Xz.finalize d)

end Running

/-- `Segmenter`. -/
structure Segmenter (X : Crates) where
  kind : Checksum
  splits : Option (List ℕ)
  nextSplit : ℕ
  segStart : ℕ
  pos : ℕ
  start : ℕ
  running : Option (Running X)
  sha : Option X.sha256.State
  segments : List Segment

namespace Segmenter
variable {X : Crates}

/-- `Segmenter::new`. -/
def new (X : Crates) (plan : ChecksumPlan) (start : ℕ) : Segmenter X where
  kind := plan.kind
  splits := plan.splits
  nextSplit := match plan.splits with
    | Option.none => 0
    | some s => (s.takeWhile (· ≤ start)).length
  segStart := start
  pos := start
  start := start
  running := Running.start X plan.kind
  sha := match plan.kind with
    | .sha256 => some X.sha256.new
    | _ => Option.none
  segments := []

/-- The split points from `next_split` on. -/
def pending (s : Segmenter X) : List ℕ := (s.splits.getD []).drop s.nextSplit

/-- `close`. -/
def close (s : Segmenter X) : Segmenter X :=
  match s.running with
  | some r =>
      { s with
        running := Option.none
        segments := s.segments ++ [⟨s.segStart, s.pos - s.segStart, r.finish⟩]
        segStart := s.pos }
  | Option.none => { s with segStart := s.pos }

/-- The bytes go into the open segment. -/
def feed (s : Segmenter X) (data : List UInt8) : Segmenter X :=
  { s with running := s.running.map (·.update data), pos := s.pos + data.length }

/-- A cut where the segmenter stands. -/
def cut (s : Segmenter X) : Segmenter X :=
  let s := { s with nextSplit := s.nextSplit + 1 }
  let s := if s.pos ≠ s.segStart then s.close else s
  { s with running := Running.start X s.kind, segStart := s.pos }

/-- The loop of `update`, over the split points from `next_split` on. -/
def updateLoop : List ℕ → Segmenter X → List UInt8 → Segmenter X
  | _, s, [] => s
  | [], s, data => s.feed data
  | c :: pending, s, data =>
      if c < s.pos + data.length then
        updateLoop pending (s.feed (data.take (c - s.pos))).cut (data.drop (c - s.pos))
      else s.feed data

/-- `update`. -/
def update (s : Segmenter X) (data : List UInt8) : Segmenter X :=
  let s := { s with sha := s.sha.map (X.sha256.update · data) }
  if s.running.isNone then { s with pos := s.pos + data.length }
  else updateLoop s.pending s data

/-- `Segmenter::finish`. -/
def finish (s : Segmenter X) : BlockChecks :=
  let s := if s.pos ≠ s.segStart then s.close else s
  { unpackedOffset := s.start
    len := s.pos - s.start
    digest := s.sha.map X.sha256.finalize
    segments := s.segments }

end Segmenter
end LzmaTurbo.Mt
