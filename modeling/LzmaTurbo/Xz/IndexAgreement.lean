import LzmaTurbo.Mt.ChecksumTiles
import LzmaTurbo.Xz.IndexReaders

/-!
# One index, three readers
-/
namespace LzmaTurbo.Xz
open LzmaTurbo.Crc LzmaTurbo.Mt Machine Vli

variable {crc : Digest UInt32} {K : Digest UInt64}

namespace XzAdaptiveDecoder

/-- The last attempt on the bytes it had seen then found them incomplete. -/
def Tried (crc : Digest UInt32) (K : Digest UInt64) (s : State) : Prop :=
  s.indexRetryAt = 0 ∨ s.indexRetryAt ≤ s.avail.length ∧
    tryIndex crc K (s.avail.take s.indexRetryAt) s.foldFinal = .error .incomplete

theorem index_blocked {s s' : State} (h : index crc K s = .blocked s') :
    s' = s ∨ s' = { s with indexRetryAt := s.avail.length } ∧
      tryIndex crc K s.avail s.foldFinal = .error .incomplete := by
  unfold index at h
  split at h
  · cases h
    exact Or.inl rfl
  · split at h
    next htry =>
      unfold incompleteIndex at h
      split at h
      · cases h
      · split at h
        · cases h
        · cases h
          exact Or.inr ⟨rfl, htry⟩
    · cases h
    · cases h

theorem Tried.event {s s' : State} (h : Tried crc K s) {e : Event}
    (hs : event crc K s e = some s') : Tried crc K s' := by
  cases e with
  | feed data =>
      cases hs
      refine h.imp_right fun ⟨hle, htry⟩ => ⟨?_, ?_⟩
      · exact Nat.le_trans hle (by
          change s.avail.length ≤ (s.avail ++ _).length
          rw [List.length_append]
          exact Nat.le_add_right _ _)
      · change tryIndex crc K ((s.avail ++ _).take s.indexRetryAt) s.foldFinal = _
        rw [List.take_append_of_le_length hle]
        exact htry
  | hold n =>
      cases hs
      exact h
  | endOfInput =>
      cases hs
      exact h
  | step =>
      rw [XzAdaptiveDecoder.event] at hs
      split at hs
      next s₁ hindex =>
        cases hs
        rcases index_blocked hindex with rfl | ⟨rfl, htry⟩
        · exact h
        · refine Or.inr ⟨Nat.le_refl _, ?_⟩
          change tryIndex crc K (s.avail.take s.avail.length) s.foldFinal = _
          rw [List.take_length]
          exact htry
      next => cases hs

theorem Reachable.tried {s : State} (h : Reachable crc K s) : Tried crc K s := by
  induction h with
  | start hz => exact Or.inl hz
  | event e _ hs ih => exact ih.event hs

/-- What the adaptive decoder accepts. -/
theorem index_did (hcrc : crc.Streams) {s s' : State} {n : ℕ} (h : index crc K s = .did s' n) :
    ∃ rs bytes, IsIndex crc rs (0 :: bytes) ∧ FoldsTo K rs s.foldFinal ∧
      s.avail = bytes ++ s'.avail ∧ n = bytes.length + 1 := by
  have hagree := tryIndex_agrees crc K s.avail s.foldFinal
  unfold index at h
  split at h
  · cases h
  · split at h
    next => unfold incompleteIndex at h; split at h <;> [cases h; (split at h <;> cases h)]
    · cases h
    next used size htry =>
      cases h
      rw [htry] at hagree
      obtain ⟨rs, bytes, hindex, hfolds, hstream, hn⟩ :=
        XzReader.index_ok hcrc (buffered_sound s.avail 0) hagree
      have hall : (buffered s.avail 0).stream = s.avail := List.append_nil _
      have hrest : (buffered s.avail used).stream = s.avail.drop used := List.append_nil _
      rw [hall, hrest] at hstream
      exact ⟨rs, bytes, hindex, hfolds, hstream, hn⟩

/-- And what it does not refuse, once it has all arrived. -/
theorem index_did_of (hcrc : crc.Streams) {s : State} (h : Reachable crc K s)
    {rs : List XzIndexRecord} {bytes tail : List UInt8} (hindex : IsIndex crc rs (0 :: bytes))
    (hfolds : FoldsTo K rs s.foldFinal) (hs : s.avail = bytes ++ tail)
    (hmax : bytes.length + 1 ≤ maxIndexSize) :
    ∃ s', index crc K s = .did s' (bytes.length + 1) ∧ s'.avail = tail := by
  have hall : (buffered s.avail 0).stream = bytes ++ tail := (List.append_nil _).trans hs
  obtain ⟨src', hread, htail⟩ :=
    XzReader.index_of hcrc (buffered_sound s.avail 0) hindex hfolds hall hmax
  have hagree := tryIndex_agrees crc K s.avail s.foldFinal
  cases htry : tryIndex crc K s.avail s.foldFinal with
  | error e =>
      rw [htry] at hagree
      obtain ⟨k, hk⟩ := hagree
      rw [hread] at hk
      cases hk
  | ok a =>
      obtain ⟨used, size⟩ := a
      rw [htry] at hagree
      obtain ⟨hsrc, hsize⟩ := Prod.mk.inj (Except.ok.inj (hread.symm.trans hagree))
      have hgo : ¬(s.avail.length ≤ s.indexRetryAt ∧ s.inputDone = false) := by
        rintro ⟨hle, -⟩
        rcases h.tried with hz | ⟨-, hinc⟩
        · obtain ⟨-, -, stored, hfour, -, hform⟩ := hindex
          have hlen := congrArg List.length hs
          have hbytes := congrArg List.length hform
          have hchecked := indexChecked_length rs
          rw [List.length_append] at hlen
          rw [List.length_cons, List.length_append] at hbytes
          omega
        · rw [List.take_of_length_le hle, htry] at hinc
          cases hinc
      refine ⟨{ s with avail := s.avail.drop used }, ?_, ?_⟩
      · unfold index
        rw [if_neg hgo, htry, hsize]
      · rw [← htail, hsrc]
        exact (List.append_nil _).symm

end XzAdaptiveDecoder

/-- The parser accepts these bytes after the indicator, with records that fold as the blocks
did. -/
def Parses (crc : Digest UInt32) (K : Digest UInt64) (folded : FoldTotals)
    (bytes : List UInt8) : Prop :=
  ∃ rs, XzIndex.parse crc (0 :: bytes) = .ok ⟨rs, bytes.length + 1⟩ ∧ FoldsTo K rs folded

theorem parses_iff {folded : FoldTotals} {bytes : List UInt8}
    (hmax : bytes.length + 1 ≤ maxIndexSize) : Parses crc K folded bytes ↔
      ∃ rs, IsIndex crc rs (0 :: bytes) ∧ FoldsTo K rs folded := by
  constructor
  · rintro ⟨rs, hparse, hfolds⟩
    exact ⟨rs, (parse_ok_iff.1 hparse).1, hfolds⟩
  · rintro ⟨rs, hindex, hfolds⟩
    obtain ⟨f, hfold, hfin⟩ := hfolds
    have hsum := foldRecords_padded hfold
    refine ⟨rs, parse_ok_iff.2 ⟨hindex, ?_, rfl, hmax⟩, f, hfold, hfin⟩
    have hzero : (IndexFold.default K).blocksSize = 0 := rfl
    rw [hzero] at hsum
    rw [hsum]
    rfl

/-- Given what the blocks were folded to, the readers take as an index what the parser takes
with records that fold to that: with the same size, and however the bytes come. -/
theorem index_readers_agree (crc : Digest UInt32) (K : Digest UInt64) (hcrc : crc.Streams)
    (folded : FoldTotals) :
    (∀ (src : Source) (bytes tail : List UInt8), src.Sound → src.stream = bytes ++ tail →
      bytes.length + 1 ≤ maxIndexSize →
        ((∃ src', XzReader.index crc K src folded = .ok (src', bytes.length + 1) ∧
          src'.stream = tail) ↔ Parses crc K folded bytes)) ∧
    (∀ (s : XzAdaptiveDecoder.State) (bytes tail : List UInt8),
      XzAdaptiveDecoder.Reachable crc K s → s.foldFinal = folded → s.avail = bytes ++ tail →
      bytes.length + 1 ≤ maxIndexSize →
        ((∃ s', XzAdaptiveDecoder.index crc K s = .did s' (bytes.length + 1) ∧
          s'.avail = tail) ↔ Parses crc K folded bytes)) ∧
    (∀ (src src' : Source) (n : ℕ), src.Sound →
      XzReader.index crc K src folded = .ok (src', n) →
        ∃ bytes, src.stream = bytes ++ src'.stream ∧ n = bytes.length + 1) ∧
    (∀ (s s' : XzAdaptiveDecoder.State) (n : ℕ),
      XzAdaptiveDecoder.index crc K s = .did s' n →
        ∃ bytes, s.avail = bytes ++ s'.avail ∧ n = bytes.length + 1) := by
  refine ⟨fun src bytes tail hsound hs hmax => ?_, fun s bytes tail hreach hfold hs hmax => ?_,
    fun src src' n hsound h => ?_, fun s s' n h => ?_⟩
  · rw [parses_iff hmax]
    constructor
    · rintro ⟨src', hok, htail⟩
      obtain ⟨rs, bytes', hindex, hfolds, hstream, -⟩ := XzReader.index_ok hcrc hsound hok
      rw [hs, htail] at hstream
      rw [List.append_cancel_right hstream]
      exact ⟨rs, hindex, hfolds⟩
    · rintro ⟨rs, hindex, hfolds⟩
      exact XzReader.index_of hcrc hsound hindex hfolds hs hmax
  · rw [parses_iff hmax, ← hfold]
    constructor
    · rintro ⟨s', hdid, htail⟩
      obtain ⟨rs, bytes', hindex, hfolds, hstream, -⟩ := XzAdaptiveDecoder.index_did hcrc hdid
      rw [hs, htail] at hstream
      rw [List.append_cancel_right hstream]
      exact ⟨rs, hindex, hfolds⟩
    · rintro ⟨rs, hindex, hfolds⟩
      exact XzAdaptiveDecoder.index_did_of hcrc hreach hindex hfolds hs hmax
  · obtain ⟨rs, bytes, -, -, hstream, hn⟩ := XzReader.index_ok hcrc hsound h
    exact ⟨bytes, hstream, hn⟩
  · obtain ⟨rs, bytes, -, -, hstream, hn⟩ := XzAdaptiveDecoder.index_did hcrc h
    exact ⟨bytes, hstream, hn⟩

theorem crc32Iso_streams : crc32Iso.Streams :=
  (register_folds 0xEDB88320#32 UInt32.toBitVec fun _ => rfl).stream

/-- The index of one block of three bytes in fifteen. -/
def smallIndex : List UInt8 := [1, 15, 3, 0x5E, 0xF8, 0x17, 0x3E]

/-- And what that block is folded to. -/
def smallFold : FoldTotals := ⟨1, 16, 3, crc64Xz.one (leBytes 8 15 ++ leBytes 8 3)⟩

theorem index_readers_agree_witness :
    ∃ src', XzReader.index crc32Iso crc64Xz ⟨[], smallIndex, [1, 2, 1], false, 0⟩ smallFold =
      .ok (src', 8) ∧ src'.stream = [] :=
  ((index_readers_agree crc32Iso crc64Xz crc32Iso_streams smallFold).1
    ⟨[], smallIndex, [1, 2, 1], false, 0⟩ smallIndex [] (fun h => by cases h) rfl
    (by decide)).2 ⟨[⟨15, 3⟩], by decide +kernel, _, rfl, by decide +kernel⟩

/-- Three blocks whose lengths together are more than a counter holds. -/
def vastRecords : List XzIndexRecord := List.replicate 3 ⟨5, 0x7FFFFFFFFFFFFFFF⟩

/-- Their index, after its indicator. -/
def vastIndex : List UInt8 :=
  3 :: (List.replicate 3 (5 :: (List.replicate 8 0xFF ++ [0x7F]))).flatten ++
    [0x4C, 0xC5, 0xB1, 0x0C]

theorem vast_parses : XzIndex.parse crc32Iso (0 :: vastIndex) = .ok ⟨vastRecords, 36⟩ := by
  decide +kernel

theorem vast_not_folded (folded : FoldTotals) : ¬Parses crc32Iso crc64Xz folded vastIndex := by
  rintro ⟨rs, hparse, f, hfold, -⟩
  have hrs := (XzIndex.mk.inj (Except.ok.inj (vast_parses.symm.trans hparse))).1
  have hover : foldRecords (IndexFold.default crc64Xz) vastRecords = .error .sizeMismatch := rfl
  rw [← hrs, hover] at hfold
  cases hfold

/-- The parser takes an index that neither reader takes, whatever the blocks were folded to:
they sum the lengths and it does not. -/
theorem index_readers_agree_counterexample :
    XzIndex.parse crc32Iso (0 :: vastIndex) = .ok ⟨vastRecords, 36⟩ ∧
    (∀ (src src' : Source) (folded : FoldTotals), src.Sound → src.stream = vastIndex →
      XzReader.index crc32Iso crc64Xz src folded ≠ .ok (src', 36)) ∧
    (∀ s s' : XzAdaptiveDecoder.State, s.avail = vastIndex →
      XzAdaptiveDecoder.index crc32Iso crc64Xz s ≠ .did s' 36) := by
  have hmax : vastIndex.length + 1 ≤ maxIndexSize := by decide
  have hwhole : ∀ {bytes rest : List UInt8}, vastIndex = bytes ++ rest → 36 = bytes.length + 1 →
      bytes = vastIndex := fun {bytes rest} h hn =>
    (List.IsPrefix.eq_of_length ⟨rest, h.symm⟩ (Nat.succ.inj hn).symm)
  refine ⟨vast_parses, fun src src' folded hsound hs hok => ?_, fun s s' hs hdid => ?_⟩
  · obtain ⟨rs, bytes, hindex, hfolds, hstream, hn⟩ :=
      XzReader.index_ok crc32Iso_streams hsound hok
    rw [hwhole (hs ▸ hstream) hn] at hindex
    exact vast_not_folded folded ((parses_iff hmax).2 ⟨rs, hindex, hfolds⟩)
  · obtain ⟨rs, bytes, hindex, hfolds, hstream, hn⟩ :=
      XzAdaptiveDecoder.index_did crc32Iso_streams hdid
    rw [hwhole (hs ▸ hstream) hn] at hindex
    exact vast_not_folded s.foldFinal ((parses_iff hmax).2 ⟨rs, hindex, hfolds⟩)

end LzmaTurbo.Xz
