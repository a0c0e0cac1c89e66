import LzmaTurbo.Machine
import LzmaTurbo.Xz.Index
import LzmaTurbo.Xz.VliLaws

/-!
# What is accepted as an index

The accepted bytes are the one way to write the records down, up to the stored check.
-/
namespace LzmaTurbo.Xz
open LzmaTurbo.Crc Machine Vli

theorem decode_ok_iff {bytes : List UInt8} {v n : ℕ} : decode bytes = .ok (v, n) ↔
    v ≤ vliMax ∧ n = (encodeLoop v).length ∧ bytes = encodeLoop v ++ bytes.drop n := by
  constructor
  · intro h
    obtain ⟨hv, hn, htake⟩ := decode_accepts h
    refine ⟨hv, hn, ?_⟩
    rw [← htake, List.take_append_drop]
  · rintro ⟨hv, rfl, hbytes⟩
    rw [hbytes]
    exact decode_encoded hv _

def XzIndexRecord.bytes (r : XzIndexRecord) : List UInt8 :=
  encodeLoop r.unpaddedSize ++ encodeLoop r.uncompressedSize

/-- A record an index may have. -/
structure XzIndexRecord.Valid (r : XzIndexRecord) : Prop where
  unpadded_ge : 5 ≤ r.unpaddedSize
  unpadded_le : r.unpaddedSize ≤ vliMax
  uncompressed_le : r.uncompressedSize ≤ vliMax

def recordsBytes (rs : List XzIndexRecord) : List UInt8 := rs.flatMap XzIndexRecord.bytes

/-- The index up to its padding. -/
def indexBody (rs : List XzIndexRecord) : List UInt8 :=
  0 :: (encodeLoop rs.length ++ recordsBytes rs)

/-- How many bytes bring a size to a multiple of four. -/
def padTo4 (size : ℕ) : ℕ := (4 - size % 4) % 4

/-- Everything the check is of. -/
def indexChecked (rs : List XzIndexRecord) : List UInt8 :=
  indexBody rs ++ List.replicate (padTo4 (indexBody rs).length) 0

/-- The bytes of an index with these records. -/
structure IsIndex (crc : Digest UInt32) (rs : List XzIndexRecord) (bytes : List UInt8) : Prop where
  count_le : rs.length ≤ vliMax
  valid : ∀ r ∈ rs, r.Valid
  form : ∃ stored : List UInt8, stored.length = 4 ∧
    fromLeBytes stored = crc.one (indexChecked rs) ∧ bytes = indexChecked rs ++ stored

/-- The records folded as the readers fold them. -/
def foldRecords {K : Digest UInt64} : IndexFold K → List XzIndexRecord →
    Except XzErrorKind (IndexFold K)
  | f, [] => .ok f
  | f, r :: rs =>
      match f.push r.unpaddedSize r.uncompressedSize with
      | .error k => .error k
      | .ok f => foldRecords f rs

/-- The sum of the padded sizes, unless it overflows. -/
def paddedSum : ℕ → List XzIndexRecord → Option ℕ
  | total, [] => some total
  | total, r :: rs =>
      match r.paddedSize with
      | none => none
      | some padded =>
          match checkedAdd total padded with
          | none => none
          | some total => paddedSum total rs

variable {crc : Digest UInt32} {K : Digest UInt64}

theorem push_padded {f f' : IndexFold K} {r : XzIndexRecord}
    (h : f.push r.unpaddedSize r.uncompressedSize = .ok f') :
    ∃ padded, r.paddedSize = some padded ∧ checkedAdd f.blocksSize padded = some f'.blocksSize := by
  unfold IndexFold.push at h
  unfold XzIndexRecord.paddedSize
  split at h
  · cases h
  next p hp =>
    rw [hp]
    split at h
    · cases h
    next b hb =>
      split at h
      · cases h
      · cases h
        exact ⟨_, rfl, hb⟩

theorem foldRecords_padded {f f' : IndexFold K} {rs : List XzIndexRecord}
    (h : foldRecords f rs = .ok f') : paddedSum f.blocksSize rs = some f'.blocksSize := by
  induction rs generalizing f with
  | nil =>
      cases h
      rfl
  | cons r rs ih =>
      rw [foldRecords] at h
      split at h
      · cases h
      next f₁ hpush =>
        obtain ⟨padded, hp, hadd⟩ := push_padded hpush
        rw [paddedSum, hp]
        dsimp only
        rw [hadd]
        exact ih h

theorem encodeLoop_pos (v : ℕ) : 0 < (encodeLoop v).length := by
  rw [← encodeLoop_length]
  exact Nat.succ_pos _

theorem recordsBytes_length (rs : List XzIndexRecord) :
    minRecordBytes * rs.length ≤ (recordsBytes rs).length := by
  induction rs with
  | nil => exact Nat.zero_le _
  | cons r rs ih =>
      have h₁ := encodeLoop_pos r.unpaddedSize
      have h₂ := encodeLoop_pos r.uncompressedSize
      have hlen : (recordsBytes (r :: rs)).length =
          (encodeLoop r.unpaddedSize).length + (encodeLoop r.uncompressedSize).length +
            (recordsBytes rs).length := by
        rw [recordsBytes, List.flatMap_cons, List.length_append, XzIndexRecord.bytes,
          List.length_append]
        rfl
      have hmin : minRecordBytes = 2 := rfl
      rw [hlen, hmin, List.length_cons]
      rw [hmin] at ih
      omega

theorem recordsBytes_cons (r : XzIndexRecord) (rs : List XzIndexRecord) (tail : List UInt8) :
    recordsBytes (r :: rs) ++ tail =
      encodeLoop r.unpaddedSize ++ (encodeLoop r.uncompressedSize ++ (recordsBytes rs ++ tail)) := by
  rw [recordsBytes, List.flatMap_cons, XzIndexRecord.bytes, List.append_assoc, List.append_assoc]
  rfl

namespace XzIndex
variable {body : List UInt8} {pos pos' v : ℕ}

theorem decodeAt_ok_iff : decodeAt body pos = .ok (v, pos') ↔
    v ≤ vliMax ∧ pos' = pos + (encodeLoop v).length ∧
      body.drop pos = encodeLoop v ++ body.drop pos' := by
  unfold decodeAt
  constructor
  · intro h
    split at h
    · cases h
    next v n hdec =>
      cases h
      obtain ⟨hv, hn, hbytes⟩ := decode_ok_iff.1 hdec
      rw [List.drop_drop] at hbytes
      exact ⟨hv, by rw [hn], hbytes⟩
  · rintro ⟨hv, rfl, hbytes⟩
    rw [← List.drop_drop] at hbytes
    rw [decode_ok_iff.2 ⟨hv, rfl, hbytes⟩]

theorem parseRecords_ok {count total : ℕ} {acc rs' : List XzIndexRecord}
    (h : parseRecords body count pos total acc = .ok (rs', pos')) :
    ∃ rs, rs' = acc ++ rs ∧ rs.length = count ∧ (∀ r ∈ rs, r.Valid) ∧
      body.drop pos = recordsBytes rs ++ body.drop pos' := by
  induction count generalizing pos total acc with
  | zero =>
      cases h
      exact ⟨[], (List.append_nil _).symm, rfl, (fun r hr => nomatch hr), rfl⟩
  | succ count ih =>
      rw [parseRecords] at h
      obtain ⟨⟨unpadded, pos₁⟩, ha, h⟩ := bind_ok_iff.1 h
      obtain ⟨⟨uncompressed, pos₂⟩, hb, h⟩ := bind_ok_iff.1 h
      obtain ⟨hu, -, hbytes₁⟩ := decodeAt_ok_iff.1 ha
      obtain ⟨hc, -, hbytes₂⟩ := decodeAt_ok_iff.1 hb
      dsimp only at h
      split at h
      · cases h
      next hge =>
        split at h
        · cases h
        · split at h
          · cases h
          · obtain ⟨rs, hrs, hlen, hvalid, hbytes⟩ := ih h
            refine ⟨⟨unpadded, uncompressed⟩ :: rs, ?_, congrArg (· + 1) hlen, ?_, ?_⟩
            · rw [hrs, List.append_assoc]
              rfl
            · intro r hr
              rcases List.mem_cons.1 hr with rfl | hr
              · exact ⟨Nat.not_lt.1 hge, hu, hc⟩
              · exact hvalid r hr
            · rw [recordsBytes_cons, hbytes₁, hbytes₂, hbytes]

theorem paddedSum_cons {total : ℕ} {r : XzIndexRecord} {rs : List XzIndexRecord}
    (h : (paddedSum total (r :: rs)).isSome) : ∃ padded total', r.paddedSize = some padded ∧
      checkedAdd total padded = some total' ∧ (paddedSum total' rs).isSome := by
  rw [paddedSum] at h
  cases hp : r.paddedSize with
  | none =>
      rw [hp] at h
      cases h
  | some padded =>
      rw [hp] at h
      dsimp only at h
      cases ht : checkedAdd total padded with
      | none =>
          rw [ht] at h
          cases h
      | some total' =>
          rw [ht] at h
          exact ⟨padded, total', rfl, ht, h⟩

theorem parseRecords_of {total : ℕ} (acc : List XzIndexRecord) {rs : List XzIndexRecord}
    {tail : List UInt8}
    (hvalid : ∀ r ∈ rs, r.Valid) (hsum : (paddedSum total rs).isSome)
    (hbytes : body.drop pos = recordsBytes rs ++ tail) :
    parseRecords body rs.length pos total acc =
      .ok (acc ++ rs, pos + (recordsBytes rs).length) := by
  induction rs generalizing pos total acc with
  | nil =>
      rw [List.append_nil]
      rfl
  | cons r rs ih =>
      have hr := hvalid r List.mem_cons_self
      rw [recordsBytes_cons] at hbytes
      have hdrop₁ : body.drop (pos + (encodeLoop r.unpaddedSize).length) =
          encodeLoop r.uncompressedSize ++ (recordsBytes rs ++ tail) := by
        rw [← List.drop_drop, hbytes, List.drop_left]
      have hdrop₂ : body.drop (pos + (encodeLoop r.unpaddedSize).length +
          (encodeLoop r.uncompressedSize).length) = recordsBytes rs ++ tail := by
        rw [← List.drop_drop, hdrop₁, List.drop_left]
      have ha := decodeAt_ok_iff.2 ⟨hr.unpadded_le, rfl, hdrop₁ ▸ hbytes⟩
      have hb := decodeAt_ok_iff.2 ⟨hr.uncompressed_le, rfl, hdrop₂ ▸ hdrop₁⟩
      rw [List.length_cons, parseRecords, ha, ok_bind]
      dsimp only
      rw [hb, ok_bind]
      dsimp only
      rw [if_neg (Nat.not_lt.2 hr.unpadded_ge)]
      obtain ⟨padded, total', hp, htotal, hrest⟩ := paddedSum_cons hsum
      rw [hp]
      dsimp only
      rw [htotal]
      dsimp only
      rw [ih _ (fun r hr => hvalid r (List.mem_cons_of_mem _ hr)) hrest hdrop₂]
      have hlen : (recordsBytes (r :: rs)).length =
          (encodeLoop r.unpaddedSize).length + ((encodeLoop r.uncompressedSize).length +
            (recordsBytes rs).length) := by
        have h := congrArg List.length (recordsBytes_cons r rs [])
        rwa [List.append_nil, List.append_nil, List.length_append, List.length_append] at h
      rw [hlen, List.append_assoc, Nat.add_assoc, Nat.add_assoc]
      rfl

theorem paddedSum_of_ok {count total : ℕ} {acc rs' : List XzIndexRecord}
    (h : parseRecords body count pos total acc = .ok (rs', pos')) :
    ∃ rs, rs' = acc ++ rs ∧ (paddedSum total rs).isSome := by
  induction count generalizing pos total acc with
  | zero =>
      cases h
      exact ⟨[], (List.append_nil _).symm, rfl⟩
  | succ count ih =>
      rw [parseRecords] at h
      obtain ⟨⟨unpadded, pos₁⟩, -, h⟩ := bind_ok_iff.1 h
      obtain ⟨⟨uncompressed, pos₂⟩, -, h⟩ := bind_ok_iff.1 h
      dsimp only at h
      split at h
      · cases h
      · split at h
        · cases h
        next padded hp =>
          split at h
          · cases h
          next total' htotal =>
            obtain ⟨rs, hrs, hsum⟩ := ih h
            refine ⟨⟨unpadded, uncompressed⟩ :: rs, ?_, ?_⟩
            · rw [hrs, List.append_assoc]
              rfl
            · rw [paddedSum, hp]
              dsimp only
              rw [htotal]
              exact hsum

end XzIndex

theorem padTo4_spec (size : ℕ) : padTo4 size ≤ 3 ∧ (size + padTo4 size) % 4 = 0 ∧
    ∀ n ≤ 3, (size + n) % 4 = 0 → n = padTo4 size := by
  unfold padTo4
  exact ⟨by omega, by omega, fun n hn h => by omega⟩

theorem eq_replicate_of_any {pad : List UInt8} (h : ¬pad.any (· ≠ 0) = true) :
    pad = List.replicate pad.length 0 := by
  refine List.eq_replicate_iff.2 ⟨rfl, fun b hb => ?_⟩
  by_contra hne
  exact h (List.any_eq_true.2 ⟨b, hb, decide_eq_true hne⟩)

theorem indexBody_drop (rs : List XzIndexRecord) (tail : List UInt8) :
    (indexBody rs ++ tail).drop 1 = encodeLoop rs.length ++ (recordsBytes rs ++ tail) :=
  List.append_assoc _ _ _

theorem indexChecked_length (rs : List XzIndexRecord) :
    (indexChecked rs).length % 4 = 0 ∧ 4 ≤ (indexChecked rs).length := by
  have hpad := padTo4_spec (indexBody rs).length
  have hpos : 0 < (indexBody rs).length := Nat.succ_pos _
  rw [indexChecked, List.length_append, List.length_replicate]
  omega

theorem body_split {body : List UInt8} {count pos pos' : ℕ} {rs : List XzIndexRecord}
    (hhead : body.head? = some 0) (hcount : XzIndex.decodeAt body 1 = .ok (count, pos))
    (hrecs : XzIndex.parseRecords body count pos 0 [] = .ok (rs, pos')) :
    rs.length ≤ vliMax ∧ (∀ r ∈ rs, r.Valid) ∧ (paddedSum 0 rs).isSome ∧
      body = indexBody rs ++ body.drop pos' := by
  obtain ⟨hle, -, hbytes₀⟩ := XzIndex.decodeAt_ok_iff.1 hcount
  obtain ⟨rs₁, hrs₁, hlen, hvalid, hbytes⟩ := XzIndex.parseRecords_ok hrecs
  obtain ⟨rs₂, hrs₂, hsum⟩ := XzIndex.paddedSum_of_ok hrecs
  rw [List.nil_append] at hrs₁ hrs₂
  subst hrs₁
  subst hrs₂
  refine ⟨hlen ▸ hle, hvalid, hsum, ?_⟩
  obtain ⟨tail, rfl⟩ := List.head?_eq_some_iff.1 hhead
  rw [hbytes, ← hlen] at hbytes₀
  change 0 :: tail = 0 :: (encodeLoop rs.length ++ recordsBytes rs ++ (0 :: tail).drop pos')
  rw [List.append_assoc, ← hbytes₀]
  rfl

theorem take_drop_four {buf : List UInt8} (h : 4 ≤ buf.length) :
    (buf.drop (buf.length - 4)).length = 4 := by
  rw [List.length_drop]
  omega

/-- The whole-buffer parser accepts what is an index of its records. -/
theorem parse_ok_iff {buf : List UInt8} {rs : List XzIndexRecord} {n : ℕ} :
    XzIndex.parse crc buf = .ok ⟨rs, n⟩ ↔
      IsIndex crc rs buf ∧ (paddedSum 0 rs).isSome ∧ n = buf.length ∧ n ≤ maxIndexSize := by
  constructor
  · intro h
    unfold XzIndex.parse at h
    split at h
    · cases h
    next hsize =>
      dsimp only at h
      split at h
      · cases h
      next hcrc =>
        split at h
        · cases h
        next hhead =>
          obtain ⟨⟨count, pos⟩, hcount, h⟩ := bind_ok_iff.1 h
          dsimp only at h
          split at h
          · cases h
          · obtain ⟨⟨rs', pos'⟩, hrecs, h⟩ := bind_ok_iff.1 h
            dsimp only at h
            split at h
            · cases h
            next hpad =>
              obtain ⟨hrs, hn⟩ := XzIndex.mk.inj (Except.ok.inj h)
              subst hrs
              obtain ⟨hle, hvalid, hsum, hbody⟩ := body_split (not_not.1 hhead) hcount hrecs
              have hzero := eq_replicate_of_any (not_or.1 hpad).2
              have hshort := Nat.not_lt.1 (not_or.1 hpad).1
              generalize (buf.take (buf.length - 4)).drop pos' = pad at hbody hzero hshort
              have hlen := congrArg List.length hbody
              rw [List.length_append, List.length_take] at hlen
              have hcount := (padTo4_spec (indexBody rs').length).2.2 pad.length hshort (by omega)
              have hchecked : buf.take (buf.length - 4) = indexChecked rs' := by
                rw [hbody, hzero, hcount]
                rfl
              refine ⟨⟨hle, hvalid, buf.drop (buf.length - 4), take_drop_four (by omega), ?_, ?_⟩,
                hsum, hn.symm, by omega⟩
              · rw [← hchecked]
                exact (not_not.1 hcrc).symm
              · rw [← hchecked, List.take_append_drop]
  · rintro ⟨⟨hle, hvalid, stored, hstored, hcrc, rfl⟩, hsum, rfl, hmax⟩
    have hchecked := indexChecked_length rs
    have hlen : (indexChecked rs ++ stored).length = (indexChecked rs).length + 4 := by
      rw [List.length_append, hstored]
    have hpad := padTo4_spec (indexBody rs).length
    have htake : (indexChecked rs ++ stored).take ((indexChecked rs ++ stored).length - 4) =
        indexChecked rs := by
      rw [hlen, Nat.add_sub_cancel, List.take_left]
    have hdrop : (indexChecked rs ++ stored).drop ((indexChecked rs ++ stored).length - 4) =
        stored := by
      rw [hlen, Nat.add_sub_cancel, List.drop_left]
    have hd₁ : (indexChecked rs).drop 1 = encodeLoop rs.length ++ (recordsBytes rs ++
        List.replicate (padTo4 (indexBody rs).length) 0) := indexBody_drop rs _
    have hd₂ : (indexChecked rs).drop (1 + (encodeLoop rs.length).length) = recordsBytes rs ++
        List.replicate (padTo4 (indexBody rs).length) 0 := by
      rw [← List.drop_drop, hd₁, List.drop_left]
    have hd₃ : (indexChecked rs).drop (1 + (encodeLoop rs.length).length +
        (recordsBytes rs).length) = List.replicate (padTo4 (indexBody rs).length) 0 := by
      rw [← List.drop_drop, hd₂, List.drop_left]
    have hcount := XzIndex.decodeAt_ok_iff.2 ⟨hle, rfl, hd₂ ▸ hd₁⟩
    have hrecs := XzIndex.parseRecords_of [] hvalid hsum hd₂
    have hroom : ¬((indexChecked rs).length - (1 + (encodeLoop rs.length).length)) /
        minRecordBytes < rs.length := by
      have h := congrArg List.length hd₂
      have hrec := recordsBytes_length rs
      have hmin : minRecordBytes = 2 := rfl
      rw [List.length_drop, List.length_append] at h
      rw [hmin] at hrec ⊢
      omega
    unfold XzIndex.parse
    rw [if_neg (by omega)]
    dsimp only
    have hhead : (indexChecked rs).head? = some 0 := rfl
    rw [htake, hdrop, if_neg (not_not.2 hcrc.symm), if_neg (not_not.2 hhead), hcount, ok_bind]
    dsimp only
    rw [if_neg hroom, hrecs, ok_bind]
    dsimp only
    rw [hd₃, if_neg, List.nil_append]
    rw [List.length_replicate]
    refine not_or.2 ⟨by omega, fun hany => ?_⟩
    obtain ⟨b, hb, hne⟩ := List.any_eq_true.1 hany
    exact of_decide_eq_true hne (List.eq_of_mem_replicate hb)

end LzmaTurbo.Xz
