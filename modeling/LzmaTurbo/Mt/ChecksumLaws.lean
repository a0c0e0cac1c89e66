import LzmaTurbo.Mt.Checksum

/-!
# The segments do not depend on how the run is fed

Beside what the segmenter holds, what is still to be cut and the bytes of the open segment
say what the segments will be.
-/
namespace LzmaTurbo.Mt
open LzmaTurbo.Crc LzmaTurbo.Crc.CrcFolder

/-- The segments of some bytes, cut where they reach past a split point. -/
def segmentsOf (sum : List UInt8 → SegmentCheck) : ℕ → List ℕ → List UInt8 → List Segment
  | start, [], bytes => if bytes = [] then [] else [⟨start, bytes.length, sum bytes⟩]
  | start, c :: cuts, bytes =>
      if c < start + bytes.length then
        ⟨start, c - start, sum (bytes.take (c - start))⟩ ::
          segmentsOf sum c cuts (bytes.drop (c - start))
      else if bytes = [] then []
      else [⟨start, bytes.length, sum bytes⟩]

namespace Checksum

/-- The checksum of one segment. -/
def sum (X : Crates) : Checksum → Option (List UInt8 → SegmentCheck)
  | .crc32 => some fun data => .crc32 (X.crc32.one data)
  | .crc64Xz => some fun data => .crc64 (X.crc64Xz.one data)
  | _ => Option.none

end Checksum

variable {X : Crates}

/-- The running digest of some bytes, fed in any portions. -/
def Open (X : Crates) (kind : Checksum) (running : Option (Running X))
    (bytes : List UInt8) : Prop :=
  ∃ (r : Running X) (chunks : List (List UInt8)), Running.start X kind = some r ∧
    chunks.flatten = bytes ∧ running = some (chunks.foldl Running.update r)

theorem Open.start {kind : Checksum} {sum : List UInt8 → SegmentCheck}
    (h : kind.sum X = some sum) : Open X kind (Running.start X kind) [] := by
  cases kind
  · cases h
  · exact ⟨_, [], rfl, rfl, rfl⟩
  · exact ⟨_, [], rfl, rfl, rfl⟩
  · cases h

theorem Open.update {kind : Checksum} {running : Option (Running X)} {bytes : List UInt8}
    (h : Open X kind running bytes) (data : List UInt8) :
    Open X kind (running.map (·.update data)) (bytes ++ data) := by
  obtain ⟨r, chunks, hr, hbytes, hrun⟩ := h
  refine ⟨r, chunks ++ [data], hr, ?_, ?_⟩
  · rw [List.flatten_append, hbytes, List.flatten_singleton]
  · rw [hrun, List.foldl_append]
    rfl

theorem foldl_crc32 (chunks : List (List UInt8)) (d : X.crc32.State) :
    chunks.foldl Running.update (.crc32 d : Running X) =
      .crc32 (chunks.foldl X.crc32.update d) := by
  induction chunks generalizing d with
  | nil => rfl
  | cons c chunks ih => exact ih (X.crc32.update d c)

theorem foldl_crc64 (chunks : List (List UInt8)) (d : X.crc64Xz.State) :
    chunks.foldl Running.update (.crc64 d : Running X) =
      .crc64 (chunks.foldl X.crc64Xz.update d) := by
  induction chunks generalizing d with
  | nil => rfl
  | cons c chunks ih => exact ih (X.crc64Xz.update d c)

/-- What is relied on of both widths. -/
structure Crates.Lawful (X : Crates) (F32 : Foldable UInt32) (F64 : Foldable UInt64) : Prop where
  crc32 : FoldsWith X.crc32 F32
  crc64Xz : FoldsWith X.crc64Xz F64

theorem Open.finish {F32 : Foldable UInt32} {F64 : Foldable UInt64} (hX : X.Lawful F32 F64)
    {kind : Checksum} {sum : List UInt8 → SegmentCheck} (hsum : kind.sum X = some sum)
    {running : Option (Running X)} {bytes : List UInt8} (h : Open X kind running bytes) :
    ∃ r, running = some r ∧ r.finish = sum bytes := by
  obtain ⟨r, chunks, hr, hbytes, hrun⟩ := h
  refine ⟨_, hrun, ?_⟩
  cases kind
  · cases hsum
  · cases hsum
    cases hr
    rw [foldl_crc32]
    exact congrArg SegmentCheck.crc32 (by rw [hX.crc32.stream, hbytes])
  · cases hsum
    cases hr
    rw [foldl_crc64]
    exact congrArg SegmentCheck.crc64 (by rw [hX.crc64Xz.stream, hbytes])
  · cases hsum

namespace Segmenter

/-- Split points still to come and the bytes of the open segment. -/
structure Holds (s : Segmenter X) (pend : List ℕ) (bytes : List UInt8) : Prop where
  pending : s.pending = pend
  running : Open X s.kind s.running bytes
  pos : s.pos = s.segStart + bytes.length
  increasing : (s.segStart :: pend).Pairwise (· < ·)
  ahead : ∀ c ∈ pend, s.pos ≤ c

/-- What a call leaves as it was. -/
structure Keeps (s s' : Segmenter X) : Prop where
  kind : s'.kind = s.kind
  start : s'.start = s.start
  sha : s'.sha = s.sha

theorem Holds.feed {s : Segmenter X} {pend : List ℕ} {bytes data : List UInt8}
    (h : s.Holds pend bytes) (hahead : ∀ c ∈ pend, s.pos + data.length ≤ c) :
    (s.feed data).Holds pend (bytes ++ data) where
  pending := h.pending
  running := h.running.update data
  pos := by
    change s.pos + data.length = s.segStart + (bytes ++ data).length
    rw [h.pos, List.length_append, Nat.add_assoc]
  increasing := h.increasing
  ahead := hahead

variable {F32 : Foldable UInt32} {F64 : Foldable UInt64} {sum : List UInt8 → SegmentCheck}

/-- A cut at the next split point closes the segment that is open. -/
theorem Holds.cut (hX : X.Lawful F32 F64) {s : Segmenter X} (hsum : s.kind.sum X = some sum)
    {c : ℕ} {pend : List ℕ} {bytes : List UInt8} (h : s.Holds (c :: pend) bytes)
    (hc : s.pos = c) :
    s.cut.Holds pend [] ∧ s.Keeps s.cut ∧ s.cut.segStart = c ∧ s.cut.pos = c ∧
      s.cut.segments = s.segments ++ [⟨s.segStart, c - s.segStart, sum bytes⟩] := by
  have hlt : s.segStart < c := (List.pairwise_cons.1 h.increasing).1 c List.mem_cons_self
  have htail := (List.pairwise_cons.1 h.increasing).2
  obtain ⟨r, hr, hfin⟩ := h.running.finish hX hsum
  have hcut : s.cut = { s with
      nextSplit := s.nextSplit + 1, running := Running.start X s.kind, segStart := s.pos,
      segments := s.segments ++ [⟨s.segStart, s.pos - s.segStart, r.finish⟩] } := by
    unfold Segmenter.cut close
    dsimp only
    rw [if_pos (by omega), hr]
  rw [hcut]
  refine ⟨⟨?_, Open.start hsum, rfl, ?_, ?_⟩, ⟨rfl, rfl, rfl⟩, hc, hc, ?_⟩
  · have hdrop : (s.splits.getD []).drop s.nextSplit = c :: pend := h.pending
    change (s.splits.getD []).drop (s.nextSplit + 1) = pend
    rw [← List.drop_drop, hdrop]
    rfl
  · change (s.pos :: pend).Pairwise (· < ·)
    rwa [hc]
  · intro d hd
    exact Nat.le_trans (Nat.le_of_eq hc) (Nat.le_of_lt ((List.pairwise_cons.1 htail).1 d hd))
  · change s.segments ++ [⟨s.segStart, s.pos - s.segStart, r.finish⟩] = _
    rw [hc, hfin]

/-- After a call the segments there will be are the same, whatever follows. -/
structure Went (sum : List UInt8 → SegmentCheck) (s : Segmenter X) (pend : List ℕ)
    (bytes data : List UInt8) (s' : Segmenter X) (pend' : List ℕ) (bytes' : List UInt8) :
    Prop where
  holds : s'.Holds pend' bytes'
  keeps : s.Keeps s'
  pos : s'.pos = s.pos + data.length
  same : ∀ tail, s'.segments ++ segmentsOf sum s'.segStart pend' (bytes' ++ tail) =
    s.segments ++ segmentsOf sum s.segStart pend (bytes ++ (data ++ tail))

theorem Holds.went_feed {s : Segmenter X} {pend : List ℕ} {bytes data : List UInt8}
    (h : s.Holds pend bytes) (hahead : ∀ c ∈ pend, s.pos + data.length ≤ c) :
    Went sum s pend bytes data (s.feed data) pend (bytes ++ data) where
  holds := h.feed hahead
  keeps := ⟨rfl, rfl, rfl⟩
  pos := rfl
  same := fun tail => by
    rw [List.append_assoc]
    rfl

theorem updateLoop_went (hX : X.Lawful F32 F64) (pend : List ℕ) {s : Segmenter X}
    (hsum : s.kind.sum X = some sum) {bytes data : List UInt8} (h : s.Holds pend bytes) :
    ∃ pend' bytes', Went sum s pend bytes data (updateLoop pend s data) pend' bytes' := by
  induction pend generalizing s bytes data with
  | nil =>
      cases data with
      | nil => exact ⟨[], bytes, h, ⟨rfl, rfl, rfl⟩, rfl, fun _ => rfl⟩
      | cons b data =>
          exact ⟨[], _, h.went_feed fun c hc => nomatch hc⟩
  | cons c pend ih =>
      cases data with
      | nil => exact ⟨c :: pend, bytes, h, ⟨rfl, rfl, rfl⟩, rfl, fun _ => rfl⟩
      | cons b data =>
          have hc := h.ahead c List.mem_cons_self
          have hpend := (List.pairwise_cons.1 (List.pairwise_cons.1 h.increasing).2).1
          rw [updateLoop.eq_def]
          dsimp only
          by_cases hlt : c < s.pos + (b :: data).length
          · rw [if_pos hlt]
            have hlen : ((b :: data).take (c - s.pos)).length = c - s.pos := by
              rw [List.length_take]
              omega
            have hfed : (s.feed ((b :: data).take (c - s.pos))).Holds _ _ := h.feed (by
              rw [hlen]
              intro d hd
              rcases List.mem_cons.1 hd with rfl | hd
              · omega
              · have hcd := hpend d hd
                omega)
            have hpos : (s.feed ((b :: data).take (c - s.pos))).pos = c := by
              change s.pos + ((b :: data).take (c - s.pos)).length = c
              omega
            have hsum' : (s.feed ((b :: data).take (c - s.pos))).kind.sum X = some sum := hsum
            obtain ⟨hholds, hkeeps, hstart, hcpos, hsegs⟩ := Holds.cut hX hsum' hfed hpos
            obtain ⟨pend', bytes', hwent⟩ := @ih _ (hkeeps.kind ▸ hsum') []
              ((b :: data).drop (c - s.pos)) hholds
            refine ⟨pend', bytes', hwent.holds, ⟨hwent.keeps.kind.trans hkeeps.kind,
              hwent.keeps.start.trans hkeeps.start, hwent.keeps.sha.trans hkeeps.sha⟩, ?_,
              fun tail => ?_⟩
            · rw [hwent.pos, hcpos, List.length_drop]
              omega
            · have hb : s.segStart + bytes.length = s.pos := h.pos.symm
              have htake : (bytes ++ (b :: data ++ tail)).take (c - s.segStart) =
                  bytes ++ (b :: data).take (c - s.pos) := by
                rw [show c - s.segStart = bytes.length + (c - s.pos) by omega,
                  List.take_length_add_append, List.take_append_of_le_length (by omega)]
              have hdrop : (bytes ++ (b :: data ++ tail)).drop (c - s.segStart) =
                  (b :: data).drop (c - s.pos) ++ tail := by
                rw [show c - s.segStart = bytes.length + (c - s.pos) by omega,
                  List.drop_length_add_append, List.drop_append_of_le_length (by omega)]
              have hin : c < s.segStart + (bytes ++ (b :: data ++ tail)).length := by
                rw [List.length_append, List.length_append]
                omega
              rw [hwent.same, hsegs, hstart, segmentsOf, if_pos hin, htake, hdrop,
                List.append_assoc]
              rfl
          · rw [if_neg hlt]
            refine ⟨c :: pend, _, h.went_feed fun d hd => ?_⟩
            rcases List.mem_cons.1 hd with rfl | hd
            · exact Nat.not_lt.1 hlt
            · exact Nat.le_trans (Nat.not_lt.1 hlt) (Nat.le_of_lt (hpend d hd))

theorem Holds.running_some {s : Segmenter X} {pend : List ℕ} {bytes : List UInt8}
    (h : s.Holds pend bytes) : s.running.isNone = false := by
  obtain ⟨r, chunks, -, -, hrun⟩ := h.running
  rw [hrun]
  rfl

theorem update_went (hX : X.Lawful F32 F64) {s : Segmenter X} (hsum : s.kind.sum X = some sum)
    (hsha : s.sha = Option.none) {pend : List ℕ} {bytes : List UInt8} (data : List UInt8)
    (h : s.Holds pend bytes) :
    ∃ pend' bytes', Went sum s pend bytes data (s.update data) pend' bytes' := by
  have hupdate : s.update data = updateLoop pend s data := by
    have hs : { s with sha := s.sha.map (X.sha256.update · data) } = s := by
      cases s
      cases hsha
      rfl
    unfold update
    rw [hs]
    dsimp only
    rw [h.running_some, h.pending]
    rfl
  rw [hupdate]
  exact updateLoop_went hX pend hsum h

/-- Any number of calls are one call with all the data. -/
theorem updates_went (hX : X.Lawful F32 F64) (chunks : List (List UInt8)) {s : Segmenter X}
    (hsum : s.kind.sum X = some sum) (hsha : s.sha = Option.none) {pend : List ℕ}
    {bytes : List UInt8} (h : s.Holds pend bytes) :
    ∃ pend' bytes',
      Went sum s pend bytes chunks.flatten (chunks.foldl update s) pend' bytes' := by
  induction chunks generalizing s pend bytes with
  | nil => exact ⟨pend, bytes, h, ⟨rfl, rfl, rfl⟩, rfl, fun _ => rfl⟩
  | cons c chunks ih =>
      obtain ⟨pend₁, bytes₁, h₁⟩ := update_went hX hsum hsha c h
      obtain ⟨pend₂, bytes₂, h₂⟩ := ih (h₁.keeps.kind ▸ hsum) (h₁.keeps.sha ▸ hsha) h₁.holds
      refine ⟨pend₂, bytes₂, h₂.holds, ⟨h₂.keeps.kind.trans h₁.keeps.kind,
        h₂.keeps.start.trans h₁.keeps.start, h₂.keeps.sha.trans h₁.keeps.sha⟩, ?_, fun tail => ?_⟩
      · rw [List.flatten_cons, List.length_append, ← Nat.add_assoc, ← h₁.pos]
        exact h₂.pos
      · rw [List.flatten_cons, List.append_assoc, ← h₁.same]
        exact h₂.same tail

/-- `finish` closes what is open. -/
theorem finish_segments (hX : X.Lawful F32 F64) {s : Segmenter X}
    (hsum : s.kind.sum X = some sum) {pend : List ℕ} {bytes : List UInt8}
    (h : s.Holds pend bytes) :
    s.finish.segments = s.segments ++ segmentsOf sum s.segStart pend bytes := by
  have hlast : segmentsOf sum s.segStart pend bytes =
      if bytes = [] then [] else [⟨s.segStart, bytes.length, sum bytes⟩] := by
    cases pend with
    | nil => rfl
    | cons c pend =>
        have hc := h.ahead c List.mem_cons_self
        rw [h.pos] at hc
        rw [segmentsOf, if_neg (Nat.not_lt.2 hc)]
  obtain ⟨r, hr, hfin⟩ := h.running.finish hX hsum
  rw [hlast]
  unfold finish
  by_cases hb : bytes = []
  · have hpos : s.pos = s.segStart := by
      rw [h.pos, hb]
      rfl
    rw [if_neg (not_not.2 hpos), if_pos hb, List.append_nil]
  · have hpos : s.pos ≠ s.segStart := by
      have hlen := List.length_pos_of_ne_nil hb
      have h := h.pos
      omega
    rw [if_pos hpos, if_neg hb]
    unfold close
    rw [hr]
    change s.segments ++ [⟨s.segStart, s.pos - s.segStart, r.finish⟩] = _
    rw [hfin, h.pos, Nat.add_sub_cancel_left]

theorem close_rest (s : Segmenter X) : s.close.start = s.start ∧ s.close.pos = s.pos := by
  unfold close
  split <;> exact ⟨rfl, rfl⟩

theorem finish_rest (s : Segmenter X) :
    s.finish.unpackedOffset = s.start ∧ s.finish.len = s.pos - s.start := by
  unfold finish
  split
  · refine ⟨s.close_rest.1, ?_⟩
    change s.close.pos - s.close.start = s.pos - s.start
    rw [s.close_rest.1, s.close_rest.2]
  · exact ⟨rfl, rfl⟩

theorem takeWhile_increasing (start : ℕ) {l : List ℕ} (h : l.Pairwise (· < ·)) :
    l.drop (l.takeWhile (· ≤ start)).length = l.filter (start < ·) := by
  induction l with
  | nil => rfl
  | cons c l ih =>
      have hl := List.pairwise_cons.1 h
      by_cases hc : c ≤ start
      · rw [List.takeWhile_cons_of_pos (by simpa using hc),
          List.filter_cons_of_neg (by simpa using hc)]
        exact ih hl.2
      · have hc' := Nat.not_le.1 hc
        rw [List.takeWhile_cons_of_neg (by simpa using hc')]
        refine (List.filter_eq_self.2 fun d hd => ?_).symm
        rcases List.mem_cons.1 hd with rfl | hd
        · exact decide_eq_true hc'
        · exact decide_eq_true (Nat.lt_trans hc' (hl.1 d hd))

/-- A new segmenter has the split points after its start before it. -/
theorem new_holds {plan : ChecksumPlan} (hsum : plan.kind.sum X = some sum) (start : ℕ) :
    (new X plan start).Holds (plan.splitPoints.filter (start < ·)) [] where
  pending := by
    unfold pending new ChecksumPlan.splitPoints
    cases hs : plan.splits with
    | none => rfl
    | some s => exact takeWhile_increasing start (plan.increasing s hs)
  running := Open.start hsum
  pos := rfl
  increasing := by
    refine List.pairwise_cons.2 ⟨fun c hc => of_decide_eq_true (List.mem_filter.1 hc).2, ?_⟩
    exact plan.splitPoints_increasing.filter _
  ahead := fun c hc => Nat.le_of_lt (of_decide_eq_true (List.mem_filter.1 hc).2)

theorem new_sha {plan : ChecksumPlan} (hsum : plan.kind.sum X = some sum) (start : ℕ) :
    (new X plan start).sha = Option.none := by
  unfold new
  cases h : plan.kind
  · rfl
  · rfl
  · rfl
  · rw [h] at hsum
    cases hsum

/-- What a run of updates comes to, by its data alone. -/
theorem run_segments (hX : X.Lawful F32 F64) {plan : ChecksumPlan}
    (hsum : plan.kind.sum X = some sum) (start : ℕ) (chunks : List (List UInt8)) :
    let checks := (chunks.foldl update (new X plan start)).finish
    checks.unpackedOffset = start ∧ checks.len = chunks.flatten.length ∧
      checks.segments =
        segmentsOf sum start (plan.splitPoints.filter (start < ·)) chunks.flatten := by
  intro checks
  obtain ⟨pend, bytes, hwent⟩ :=
    updates_went hX chunks hsum (new_sha hsum start) (new_holds hsum start)
  have hkind : (chunks.foldl update (new X plan start)).kind.sum X = some sum := by
    rw [hwent.keeps.kind]
    exact hsum
  have hstart : (chunks.foldl update (new X plan start)).start = start := hwent.keeps.start
  have hpos : (chunks.foldl update (new X plan start)).pos = start + chunks.flatten.length :=
    hwent.pos
  obtain ⟨hoff, hlen⟩ := finish_rest (chunks.foldl update (new X plan start))
  refine ⟨hoff.trans hstart, ?_, ?_⟩
  · rw [hlen, hpos, hstart, Nat.add_sub_cancel_left]
  · have hsame := hwent.same []
    rw [List.append_nil, List.append_nil] at hsame
    exact (finish_segments hX hkind hwent.holds).trans hsame

end Segmenter
end LzmaTurbo.Mt
