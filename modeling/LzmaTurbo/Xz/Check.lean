import LzmaTurbo.Mt.ChecksumTiles
import LzmaTurbo.Xz.BlockDec

/-!
# The check of a block

It is computed in segments, which the caller's split points only make smaller, and folded into
one value at the end.
-/
namespace LzmaTurbo.Xz
open Machine Lzma2 LzmaTurbo.Crc LzmaTurbo.Mt

/-- The check `c`, begun at `c₀`, is over `bytes`, in whatever pieces. -/
def Checks.Over (C : Checks) (c₀ : C.Running) (bytes : List UInt8) (c : C.Running) : Prop :=
  ∃ chunks : List (List UInt8), chunks.flatten = bytes ∧ chunks.foldl C.update c₀ = c

/-- The answer of a check is one of the bytes, and not of their pieces. -/
def Checks.Lawful (C : Checks) : Prop :=
  ∀ (check : CheckType) (offset : ℕ) (verify : Bool) (bytes : List UInt8) (c c' : C.Running),
    C.Over (C.new check offset verify) bytes c → C.Over (C.new check offset verify) bytes c' →
      C.finish c = C.finish c'

theorem Checks.Over.update {C : Checks} {c₀ c : C.Running} {bytes : List UInt8}
    (h : C.Over c₀ bytes c) (data : List UInt8) : C.Over c₀ (bytes ++ data) (C.update c data) := by
  obtain ⟨chunks, hbytes, hc⟩ := h
  refine ⟨chunks ++ [data], ?_, ?_⟩
  · rw [List.flatten_append, hbytes, List.flatten_singleton]
  · rw [List.foldl_append, hc]
    rfl

/-- `BlockCheck`. -/
structure BlockCheck where
  unpackedOffset : ℕ
  len : ℕ
  segments : List Segment
  digest : Option (List UInt8)
deriving Repr, DecidableEq

/-- `u64::from_le_bytes`. -/
def fromLeBytes64 (bytes : List UInt8) : UInt64 :=
  UInt64.ofNat (bytes.foldr (fun b v => b.toNat + 0x100 * v) 0)

/-- `RunningCheck`. -/
structure RunningCheck (X : Crates) where
  kind : CheckType
  seg : Option (Segmenter X)
  start : ℕ

namespace RunningCheck
variable {X : Crates}

/-- What a build computes for a check; `sha` is whether it can compute SHA-256. -/
def planKind (sha : Bool) : CheckType → Checksum
  | .crc32 => .crc32
  | .crc64 => .crc64Xz
  | .sha256 => if sha then .sha256 else .none
  | .none | .reserved _ => .none

/-- `RunningCheck::new`. -/
def new (X : Crates) (sha : Bool) (splits : ChecksumPlan) (kind : CheckType) (start : ℕ)
    (verify : Bool) : RunningCheck X where
  kind
  seg :=
    if verify && planKind sha kind ≠ .none then
      let plan := (ChecksumPlan.new (planKind sha kind)).withSplitPoints splits.splitPoints
      some (Segmenter.new X plan start)
    else none
  start

/-- `update`. -/
def update (c : RunningCheck X) (data : List UInt8) : RunningCheck X :=
  { c with seg := c.seg.map (·.update data) }

/-- `push` of every segment of one width, and `range` over them all. -/
def foldAll {W : Type} (F : Foldable W) (width : SegmentCheck → Option W) (checks : BlockChecks) :
    Option W :=
  let pushed := checks.segments.foldl (fun (f : CrcFolder W) s =>
    match width s.check with
    | some v => f.push s.offset s.len v
    | none => f) CrcFolder.new
  pushed.range F checks.unpackedOffset checks.len

/-- What the check field is compared with. -/
def compare {W : Type} [DecidableEq W] (found : Option W) (size : ℕ) (read : List UInt8 → W)
    (stored : List UInt8) : Except XzErrorKind Unit :=
  match found with
  | none => .error .checkMismatch
  | some v =>
      if stored.length < size then .error .truncatedInput
      else if v ≠ read (stored.take size) then .error .checkMismatch
      else .ok ()

/-- What is computed, by its kind, against the check field. -/
def verdict (F32 : Foldable UInt32) (F64 : Foldable UInt64) (kind : CheckType)
    (checks : BlockChecks) (stored : List UInt8) : Except XzErrorKind Unit :=
  match kind with
  | .crc32 => compare (foldAll F32 SegmentCheck.asCrc32 checks) 4 fromLeBytes stored
  | .crc64 => compare (foldAll F64 SegmentCheck.asCrc64 checks) 8 fromLeBytes64 stored
  | .sha256 =>
      match checks.digest with
      | none => .error .unsupportedCheck
      | some digest => compare (some digest) 32 id stored
  | .none | .reserved _ => .ok ()

/-- `finish`. -/
def finish (F32 : Foldable UInt32) (F64 : Foldable UInt64) (c : RunningCheck X)
    (stored : List UInt8) : Except XzErrorKind BlockCheck :=
  match c.seg with
  | none => .ok { unpackedOffset := c.start, len := 0, segments := [], digest := none }
  | some seg => do
      let checks := seg.finish
      verdict F32 F64 c.kind checks stored
      .ok { unpackedOffset := checks.unpackedOffset, len := checks.len
            segments := checks.segments, digest := checks.digest }

/-- The checks of blocks, over the caller's plan. -/
def checks (X : Crates) (F32 : Foldable UInt32) (F64 : Foldable UInt64) (sha : Bool)
    (splits : ChecksumPlan) : Checks where
  Running := RunningCheck X
  new := new X sha splits
  update := update
  finish c stored := (c.finish F32 F64 stored).map fun _ => ()

section
variable {F32 : Foldable UInt32} {F64 : Foldable UInt64}

theorem foldl_update (chunks : List (List UInt8)) (c : RunningCheck X) :
    chunks.foldl update c = { c with seg := c.seg.map (chunks.foldl Segmenter.update ·) } := by
  induction chunks generalizing c with
  | nil =>
      show c = { c with seg := c.seg.map id }
      rw [Option.map_id]
      rfl
  | cons data chunks ih =>
      rw [List.foldl_cons, ih, update, Option.map_map]
      rfl

/-- The digest of a segmenter that computes SHA-256 is that of its bytes. -/
theorem digest_eq (hsha : X.sha256.Streams) {plan : ChecksumPlan} (hkind : plan.kind = .sha256)
    (start : ℕ) (chunks : List (List UInt8)) :
    (chunks.foldl Segmenter.update (.new X plan start)).finish.digest =
      some (X.sha256.one chunks.flatten) := by
  have hrun : ∀ (chunks : List (List UInt8)) (s : Segmenter X) (d : X.sha256.State),
      s.running = none → s.sha = some d →
        (chunks.foldl Segmenter.update s).sha = some (chunks.foldl X.sha256.update d) := by
    intro chunks
    induction chunks with
    | nil => exact fun s d _ hs => hs
    | cons data chunks ih =>
        intro s d hr hs
        have hnone : s.running.isNone = true := by rw [hr]; rfl
        have hstep : s.update data =
            { s with sha := some (X.sha256.update d data), pos := s.pos + data.length } := by
          unfold Segmenter.update
          dsimp only
          rw [if_pos hnone, hs, Option.map_some]
        rw [List.foldl_cons, List.foldl_cons, hstep]
        exact ih _ _ hr rfl
  have hfinish : ∀ s : Segmenter X, s.finish.digest = s.sha.map X.sha256.finalize := by
    intro s
    unfold Segmenter.finish Segmenter.close
    dsimp only
    split
    · split <;> rfl
    · rfl
  rw [hfinish, hrun chunks _ X.sha256.new, Option.map_some, hsha]
  · unfold Segmenter.new
    rw [hkind]
    rfl
  · unfold Segmenter.new
    rw [hkind]

theorem map_done {α : Type} (x : Except XzErrorKind Unit) (a : α) :
    (x >>= fun _ => .ok a).map (fun _ => ()) = x := by
  cases x <;> rfl

theorem foldAll_eq {W : Type} (F : Foldable W) (width : SegmentCheck → Option W)
    {a b : BlockChecks} (hoffset : a.unpackedOffset = b.unpackedOffset) (hlen : a.len = b.len)
    (hsegments : a.segments = b.segments) : foldAll F width a = foldAll F width b := by
  unfold foldAll
  rw [hoffset, hlen, hsegments]

/-- The answer of a check depends on its bytes only. -/
theorem lawful (hX : X.Lawful F32 F64) (hsha : X.sha256.Streams) (sha : Bool)
    (splits : ChecksumPlan) : (checks X F32 F64 sha splits).Lawful := by
  intro kind start verify bytes c c' ⟨chunks, hbytes, hc⟩ ⟨chunks', hbytes', hc'⟩
  have hall : chunks.flatten = chunks'.flatten := hbytes.trans hbytes'.symm
  have hc : c = chunks.foldl update (new X sha splits kind start verify) := hc.symm
  have hc' : c' = chunks'.foldl update (new X sha splits kind start verify) := hc'.symm
  rw [foldl_update] at hc hc'
  funext stored
  change (c.finish F32 F64 stored).map (fun _ => ()) = (c'.finish F32 F64 stored).map fun _ => ()
  rw [hc, hc']
  unfold new
  dsimp only
  by_cases hv : (verify && planKind sha kind ≠ .none) = true
  case neg =>
    rw [if_neg hv]
    rfl
  rw [if_pos hv]
  obtain ⟨plan, hplan⟩ : ∃ plan,
    (ChecksumPlan.new (planKind sha kind)).withSplitPoints splits.splitPoints = plan := ⟨_, rfl⟩
  have hkind : plan.kind = planKind sha kind := by
    rw [← hplan]
    unfold ChecksumPlan.withSplitPoints
    split <;> rfl
  rw [hplan, Option.map_some, Option.map_some]
  unfold finish
  dsimp only
  rw [map_done, map_done]
  have hne : planKind sha kind ≠ .none := of_decide_eq_true (Bool.and_eq_true_iff.1 hv).2
  unfold verdict
  cases kind with
  | none => exact absurd rfl hne
  | reserved id => exact absurd rfl hne
  | crc32 =>
      have hsum : plan.kind.sum X = some fun data => .crc32 (X.crc32.one data) := by
        rw [hkind]
        rfl
      obtain ⟨h₁, h₂, h₃⟩ := Segmenter.run_segments hX hsum start chunks
      obtain ⟨h₁', h₂', h₃'⟩ := Segmenter.run_segments hX hsum start chunks'
      rw [hall] at h₂ h₃
      exact congrArg (compare · 4 fromLeBytes stored) (foldAll_eq _ _ (h₁.trans h₁'.symm)
        (h₂.trans h₂'.symm) (h₃.trans h₃'.symm))
  | crc64 =>
      have hsum : plan.kind.sum X = some fun data => .crc64 (X.crc64Xz.one data) := by
        rw [hkind]
        rfl
      obtain ⟨h₁, h₂, h₃⟩ := Segmenter.run_segments hX hsum start chunks
      obtain ⟨h₁', h₂', h₃'⟩ := Segmenter.run_segments hX hsum start chunks'
      rw [hall] at h₂ h₃
      exact congrArg (compare · 8 fromLeBytes64 stored) (foldAll_eq _ _ (h₁.trans h₁'.symm)
        (h₂.trans h₂'.symm) (h₃.trans h₃'.symm))
  | sha256 =>
      have hsha' : planKind sha .sha256 = .sha256 := by
        cases sha
        · exact absurd rfl hne
        · rfl
      dsimp only
      rw [digest_eq hsha (hkind.trans hsha'), digest_eq hsha (hkind.trans hsha'), hall]

end

/-- Register CRCs, over a caller's split point inside a block. -/
def cutAtOne : Checks :=
  checks ⟨Mt.crc32Iso, Mt.crc64Xz, ⟨List UInt8, [], (· ++ ·), id⟩⟩
    (registerFold 0xEDB88320#32 UInt32.ofBitVec UInt32.toBitVec)
    (registerFold 0xC96C5795D7870F42#64 UInt64.ofBitVec UInt64.toBitVec) false
    ((ChecksumPlan.new .crc32).withSplitPoints [1])

theorem cutAtOne_lawful : cutAtOne.Lawful := by
  refine lawful ⟨register_folds 0xEDB88320#32 _ fun _ => rfl,
    register_folds 0xC96C5795D7870F42#64 _ fun _ => rfl⟩ (fun chunks => ?_) false _
  have hfold : ∀ (chunks : List (List UInt8)) (bytes : List UInt8),
      chunks.foldl (· ++ ·) bytes = bytes ++ chunks.flatten := by
    intro chunks
    induction chunks with
    | nil => exact fun bytes => (List.append_nil bytes).symm
    | cons c chunks ih =>
        intro bytes
        rw [List.foldl_cons, ih, List.flatten_cons, List.append_assoc]
  exact hfold chunks []

end RunningCheck
end LzmaTurbo.Xz
