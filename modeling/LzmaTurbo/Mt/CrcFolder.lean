import Mathlib.Data.List.Basic
import Mathlib.Data.UInt

/-!
# Checksums of pieces, folded

The pieces of a stream are pushed with their checksums in any order, and the checksum of a
range is folded from the pieces that tile it.
-/
namespace LzmaTurbo.Crc

/-- A running checksum of another crate: `new`, `update` and `finalize`. -/
structure Digest (W : Type) where
  State : Type
  new : State
  update : State → List UInt8 → State
  finalize : State → W

namespace Digest
variable {W : Type} (D : Digest W)

/-- The checksum of one buffer. -/
def one (data : List UInt8) : W := D.finalize (D.update D.new data)

/-- The checksum is of the bytes, in whatever portions they come. -/
def Streams : Prop := ∀ chunks : List (List UInt8),
  D.finalize (chunks.foldl D.update D.new) = D.one chunks.flatten

/-- A running checksum of some bytes. -/
def Fed (s : D.State) (bytes : List UInt8) : Prop :=
  ∃ chunks : List (List UInt8), chunks.foldl D.update D.new = s ∧ chunks.flatten = bytes

variable {D}

theorem Fed.new : D.Fed D.new [] := ⟨[], rfl, rfl⟩

theorem Fed.update {s : D.State} {bytes : List UInt8} (h : D.Fed s bytes) (data : List UInt8) :
    D.Fed (D.update s data) (bytes ++ data) := by
  obtain ⟨chunks, hs, hbytes⟩ := h
  refine ⟨chunks ++ [data], ?_, ?_⟩
  · rw [List.foldl_append, hs]
    rfl
  · rw [List.flatten_append, hbytes, List.flatten_singleton]

theorem Fed.finalize {s : D.State} {bytes : List UInt8} (h : D.Fed s bytes) (hD : D.Streams) :
    D.finalize s = D.one bytes := by
  obtain ⟨chunks, rfl, rfl⟩ := h
  exact hD chunks

end Digest

/-- The trait `Foldable`: `EMPTY` and `fold`. -/
structure Foldable (W : Type) where
  empty : W
  fold : W → W → ℕ → W

/-- What is relied on of the other crate: a digest depends on the bytes only, not on how
they come, and checksums combine as the bytes they are of. -/
structure FoldsWith {W : Type} (D : Digest W) (F : Foldable W) : Prop where
  stream : D.Streams
  empty : F.empty = D.one []
  fold : ∀ a b : List UInt8, F.fold (D.one a) (D.one b) b.length = D.one (a ++ b)

/-- A piece: where it begins, how long it is, and its checksum. -/
structure Piece (W : Type) where
  offset : ℕ
  len : ℕ
  checksum : W
deriving Repr, DecidableEq

/-- The largest `u64`. -/
def u64Max : ℕ := 0xFFFFFFFFFFFFFFFF

section Map
variable {W : Type}

/-- `BTreeMap::insert`, in the order of the offsets. -/
def insertPiece (p : Piece W) : List (Piece W) → List (Piece W)
  | [] => [p]
  | q :: qs =>
      if p.offset < q.offset then p :: q :: qs
      else if p.offset = q.offset then p :: qs
      else q :: insertPiece p qs

theorem mem_insertPiece {p x : Piece W} {qs : List (Piece W)} (h : x ∈ insertPiece p qs) :
    x = p ∨ x ∈ qs := by
  induction qs with
  | nil => exact Or.inl (List.mem_singleton.1 h)
  | cons q qs ih =>
      rw [insertPiece] at h
      split at h
      · exact List.mem_cons.1 h
      · split at h
        · exact (List.mem_cons.1 h).imp_right (List.mem_cons_of_mem q)
        · rcases List.mem_cons.1 h with rfl | h
          · exact Or.inr List.mem_cons_self
          · exact (ih h).imp_right (List.mem_cons_of_mem q)

theorem insertPiece_sorted (p : Piece W) {qs : List (Piece W)}
    (h : qs.Pairwise (·.offset < ·.offset)) :
    (insertPiece p qs).Pairwise (·.offset < ·.offset) := by
  induction qs with
  | nil => exact List.pairwise_singleton _ _
  | cons q qs ih =>
      have hq := List.pairwise_cons.1 h
      rw [insertPiece]
      split
      next hlt =>
        refine List.pairwise_cons.2 ⟨fun x hx => ?_, h⟩
        rcases List.mem_cons.1 hx with rfl | hx
        · exact hlt
        · exact Nat.lt_trans hlt (hq.1 x hx)
      next hge =>
        split
        next heq => exact List.pairwise_cons.2 ⟨fun x hx => heq ▸ hq.1 x hx, hq.2⟩
        next hne =>
          refine List.pairwise_cons.2 ⟨fun x hx => ?_, ih hq.2⟩
          rcases mem_insertPiece hx with rfl | hx
          · omega
          · exact hq.1 x hx

end Map

/-- The pieces pushed, by their offsets. -/
structure CrcFolder (W : Type) where
  pieces : List (Piece W)
  sorted : pieces.Pairwise (·.offset < ·.offset)

namespace CrcFolder
variable {W : Type}

def new : CrcFolder W := ⟨[], List.Pairwise.nil⟩

/-- `push`. -/
def push (f : CrcFolder W) (offset len : ℕ) (checksum : W) : CrcFolder W :=
  if len ≠ 0 then
    ⟨insertPiece ⟨offset, len, checksum⟩ f.pieces, insertPiece_sorted _ f.sorted⟩
  else f

/-- One more piece on what has been folded: the first one is taken as it is. -/
def foldPiece (F : Foldable W) : Option W → Piece W → W
  | none, p => p.checksum
  | some a, p => F.fold a p.checksum p.len

/-- The loop of `range`. -/
def rangeLoop (F : Foldable W) (stop : ℕ) : ℕ → Option W → List (Piece W) → Option W
  | pos, acc, [] => if pos = stop then acc else none
  | pos, acc, p :: ps =>
      if p.offset ≠ pos then none
      else
        let acc := foldPiece F acc p
        if u64Max < p.offset + p.len then none
        else
          let pos := p.offset + p.len
          if stop ≤ pos then (if pos = stop then some acc else none)
          else rangeLoop F stop pos (some acc) ps

/-- `BTreeMap::range`. -/
def within (f : CrcFolder W) (start stop : ℕ) : List (Piece W) :=
  f.pieces.filter fun p => start ≤ p.offset ∧ p.offset < stop

/-- `range`. -/
def range (f : CrcFolder W) (F : Foldable W) (offset len : ℕ) : Option W :=
  if len = 0 then some F.empty
  else if u64Max < offset + len then none
  else rangeLoop F (offset + len) offset none (f.within offset (offset + len))

/-- Any number of pushes. -/
def pushAll (f : CrcFolder W) (ps : List (Piece W)) : CrcFolder W :=
  ps.foldl (fun f p => f.push p.offset p.len p.checksum) f

/-- The pieces lie end to end from one offset to another. -/
def Tiles : ℕ → ℕ → List (Piece W) → Prop
  | start, stop, [] => start = stop
  | start, stop, p :: ps => p.offset = start ∧ 0 < p.len ∧ Tiles (start + p.len) stop ps

theorem Tiles.le {start stop : ℕ} {ps : List (Piece W)} (h : Tiles start stop ps) :
    start ≤ stop := by
  induction ps generalizing start with
  | nil => exact Nat.le_of_eq h
  | cons p ps ih =>
      have hle := ih h.2.2
      omega

/-- A tile of a tiling lies inside it. -/
theorem Tiles.mem {start stop : ℕ} {ps : List (Piece W)} (h : Tiles start stop ps)
    {p : Piece W} (hp : p ∈ ps) :
    start ≤ p.offset ∧ 0 < p.len ∧ p.offset + p.len ≤ stop := by
  induction ps generalizing start with
  | nil => cases hp
  | cons q ps ih =>
      obtain ⟨hq, hlen, hrest⟩ := h
      rcases List.mem_cons.1 hp with rfl | hp
      · have hle := hrest.le
        omega
      · have hin := ih hrest hp
        omega

theorem Tiles.sorted {start stop : ℕ} {ps : List (Piece W)} (h : Tiles start stop ps) :
    ps.Pairwise (·.offset < ·.offset) := by
  induction ps generalizing start with
  | nil => exact List.Pairwise.nil
  | cons q ps ih =>
      obtain ⟨hq, hlen, hrest⟩ := h
      refine List.pairwise_cons.2 ⟨fun p hp => ?_, ih hrest⟩
      have hin := hrest.mem hp
      omega

/-- Every offset of a tiled range is in a tile. -/
theorem Tiles.covers {start stop x : ℕ} {ps : List (Piece W)} (h : Tiles start stop ps)
    (hstart : start ≤ x) (hstop : x < stop) :
    ∃ p ∈ ps, p.offset ≤ x ∧ x < p.offset + p.len := by
  induction ps generalizing start with
  | nil =>
      have heq : start = stop := h
      omega
  | cons q ps ih =>
      obtain ⟨hq, hlen, hrest⟩ := h
      by_cases hx : x < q.offset + q.len
      · exact ⟨q, List.mem_cons_self, by omega, hx⟩
      · obtain ⟨p, hp, hin⟩ := ih hrest (by omega)
        exact ⟨p, List.mem_cons_of_mem q hp, hin⟩

/-- One piece, or two with no byte in common. -/
def Apart (p q : Piece W) : Prop :=
  p = q ∨ p.offset + p.len ≤ q.offset ∨ q.offset + q.len ≤ p.offset

theorem Tiles.apart {start stop : ℕ} {ps : List (Piece W)} (h : Tiles start stop ps)
    {p q : Piece W} (hp : p ∈ ps) (hq : q ∈ ps) : Apart p q := by
  induction ps generalizing start with
  | nil => cases hp
  | cons r ps ih =>
      obtain ⟨hr, -, hrest⟩ := h
      rcases List.mem_cons.1 hp with hpr | hp'
      · rcases List.mem_cons.1 hq with hqr | hq'
        · exact Or.inl (hpr.trans hqr.symm)
        · have hin := hrest.mem hq'
          exact Or.inr (Or.inl (by rw [hpr]; omega))
      · rcases List.mem_cons.1 hq with hqr | hq'
        · have hin := hrest.mem hp'
          exact Or.inr (Or.inr (by rw [hqr]; omega))
        · exact ih hrest hp' hq'

/-- The piece is one of the stream, with the checksum of its bytes. -/
structure PieceOf (D : Digest W) (stream : List UInt8) (p : Piece W) : Prop where
  inside : p.offset + p.len ≤ stream.length
  checksum : p.checksum = D.one ((stream.drop p.offset).take p.len)

section Range
variable {D : Digest W} {F : Foldable W} {stream : List UInt8}

theorem fold_slices (hF : FoldsWith D F) {offset pos len : ℕ} (hpos : offset ≤ pos)
    (hin : pos + len ≤ stream.length) :
    F.fold (D.one ((stream.drop offset).take (pos - offset)))
        (D.one ((stream.drop pos).take len)) len =
      D.one ((stream.drop offset).take (pos + len - offset)) := by
  have hlen : ((stream.drop pos).take len).length = len := by
    rw [List.length_take, List.length_drop]
    omega
  have hfold := hF.fold ((stream.drop offset).take (pos - offset)) ((stream.drop pos).take len)
  rw [hlen] at hfold
  rw [hfold, show pos + len - offset = (pos - offset) + len by omega, List.take_add,
    List.drop_drop, show offset + (pos - offset) = pos by omega]

/-- The checksums of pieces in order, folded. -/
def foldPieces (F : Foldable W) (acc : W) (ps : List (Piece W)) : W :=
  ps.foldl (fun acc p => F.fold acc p.checksum p.len) acc

theorem foldPieces_tiles (hF : FoldsWith D F) (offset : ℕ) {pos stop : ℕ} {ps : List (Piece W)}
    (hps : ∀ p ∈ ps, PieceOf D stream p) (htiles : Tiles pos stop ps) (hpos : offset ≤ pos) :
    foldPieces F (D.one ((stream.drop offset).take (pos - offset))) ps =
      D.one ((stream.drop offset).take (stop - offset)) := by
  induction ps generalizing pos with
  | nil =>
      have heq : pos = stop := htiles
      rw [heq]
      rfl
  | cons p ps ih =>
      obtain ⟨hoff, -, hrest⟩ := htiles
      have hp := hps p List.mem_cons_self
      have hin := hp.inside
      have hnext := ih (fun q hq => hps q (List.mem_cons_of_mem p hq)) hrest (by omega)
      rw [← hnext]
      change foldPieces F (F.fold _ p.checksum p.len) ps = _
      rw [hp.checksum, hoff, fold_slices hF hpos (by omega)]

/-- What has been folded on the way from `offset` to `pos`. -/
def Folded (D : Digest W) (stream : List UInt8) (offset pos : ℕ) (acc : Option W) : Prop :=
  (acc = none ∧ pos = offset) ∨
    (offset ≤ pos ∧ acc = some (D.one ((stream.drop offset).take (pos - offset))))

theorem rangeLoop_iff (hF : FoldsWith D F) (hmax : stream.length ≤ u64Max) {offset stop pos : ℕ}
    {acc : Option W} {ps : List (Piece W)} (hps : ∀ p ∈ ps, PieceOf D stream p ∧ 0 < p.len)
    (hacc : Folded D stream offset pos acc) (hpos : pos < stop) (w : W) :
    rangeLoop F stop pos acc ps = some w ↔
      (∃ qs, qs <+: ps ∧ Tiles pos stop qs) ∧
        w = D.one ((stream.drop offset).take (stop - offset)) := by
  induction ps generalizing pos acc with
  | nil =>
      rw [rangeLoop, if_neg (Nat.ne_of_lt hpos)]
      refine ⟨fun h => (by cases h), fun ⟨⟨qs, hqs, htiles⟩, _⟩ => ?_⟩
      rw [List.prefix_nil.1 hqs] at htiles
      exact absurd htiles (Nat.ne_of_lt hpos)
  | cons p ps ih =>
      have hp := hps p List.mem_cons_self
      rw [rangeLoop]
      by_cases hoff : p.offset = pos
      · rw [if_neg (not_not.2 hoff)]
        dsimp only
        have hin := hp.1.inside
        have hacc' : Folded D stream offset (p.offset + p.len)
            (some (foldPiece F acc p)) := by
          rcases hacc with ⟨rfl, hstart⟩ | ⟨hle, rfl⟩
          · refine Or.inr ⟨by omega, ?_⟩
            change some p.checksum = _
            rw [hp.1.checksum, hoff, hstart, Nat.add_sub_cancel_left]
          · refine Or.inr ⟨by omega, ?_⟩
            change some (F.fold _ p.checksum p.len) = _
            rw [hp.1.checksum, hoff, fold_slices hF hle (by omega)]
        rw [if_neg (by omega)]
        by_cases hend : stop ≤ p.offset + p.len
        · rw [if_pos hend]
          rcases hacc' with ⟨hnone, _⟩ | ⟨_, hsum⟩
          · cases hnone
          by_cases heq : p.offset + p.len = stop
          · rw [if_pos heq, hsum, heq]
            refine ⟨fun h => ⟨⟨[p], ⟨ps, rfl⟩, hoff, hp.2, ?_⟩, (Option.some.inj h).symm⟩,
              fun h => congrArg some h.2.symm⟩
            change pos + p.len = stop
            omega
          · rw [if_neg heq]
            refine ⟨fun h => (by cases h), fun ⟨⟨qs, hqs, htiles⟩, _⟩ => ?_⟩
            cases qs with
            | nil => exact absurd htiles (Nat.ne_of_lt hpos)
            | cons q qs =>
                obtain ⟨rfl, _⟩ := List.cons_prefix_cons.1 hqs
                have hle := htiles.2.2.le
                omega
        · rw [if_neg hend, ih (fun q hq => hps q (List.mem_cons_of_mem p hq)) hacc'
            (Nat.not_le.1 hend)]
          refine and_congr_left fun _ => ⟨?_, ?_⟩
          · rintro ⟨qs, hqs, htiles⟩
            refine ⟨p :: qs, List.cons_prefix_cons.2 ⟨rfl, hqs⟩, hoff, hp.2, ?_⟩
            rwa [← hoff]
          · rintro ⟨qs, hqs, htiles⟩
            cases qs with
            | nil => exact absurd htiles (Nat.ne_of_lt hpos)
            | cons q qs =>
                obtain ⟨rfl, hrest⟩ := List.cons_prefix_cons.1 hqs
                refine ⟨qs, hrest, ?_⟩
                rw [hoff]
                exact htiles.2.2
      · rw [if_pos hoff]
        refine ⟨fun h => (by cases h), fun ⟨⟨qs, hqs, htiles⟩, _⟩ => ?_⟩
        cases qs with
        | nil => exact absurd htiles (Nat.ne_of_lt hpos)
        | cons q qs =>
            obtain ⟨rfl, _⟩ := List.cons_prefix_cons.1 hqs
            exact absurd htiles.1 hoff

/-- A range is answered when the pieces held that begin in it tile it, up to where it ends. -/
theorem range_iff (hF : FoldsWith D F) (hmax : stream.length ≤ u64Max) {f : CrcFolder W}
    (hps : ∀ p ∈ f.pieces, PieceOf D stream p ∧ 0 < p.len) (offset len : ℕ) (w : W) :
    f.range F offset len = some w ↔
      (∃ qs, qs <+: f.within offset (offset + len) ∧ Tiles offset (offset + len) qs) ∧
        w = D.one ((stream.drop offset).take len) := by
  have hwithin : ∀ p ∈ f.within offset (offset + len), PieceOf D stream p ∧ 0 < p.len :=
    fun p hp => hps p (List.mem_filter.1 hp).1
  rw [range]
  by_cases hlen : len = 0
  · rw [if_pos hlen, hlen, List.take_zero, ← hF.empty]
    refine ⟨fun h => ⟨⟨[], List.nil_prefix, rfl⟩, (Option.some.inj h).symm⟩,
      fun h => congrArg some h.2.symm⟩
  · rw [if_neg hlen]
    by_cases hover : u64Max < offset + len
    · rw [if_pos hover]
      refine ⟨fun h => (by cases h), fun ⟨⟨qs, hqs, htiles⟩, _⟩ => ?_⟩
      -- the tile with the last byte of the range ends inside the stream
      obtain ⟨p, hp, hcov⟩ := htiles.covers (x := offset + len - 1) (by omega) (by omega)
      have hin := (hwithin p (hqs.subset hp)).1.inside
      omega
    · rw [if_neg hover, rangeLoop_iff hF hmax hwithin (Or.inl ⟨rfl, rfl⟩) (by omega),
        Nat.add_sub_cancel_left]

end Range

section Pushes

theorem mem_insertPiece_iff {p x : Piece W} {qs : List (Piece W)}
    (h : ∀ q ∈ qs, q.offset = p.offset → q = p) : x ∈ insertPiece p qs ↔ x = p ∨ x ∈ qs := by
  refine ⟨mem_insertPiece, fun hx => ?_⟩
  induction qs with
  | nil =>
      rcases hx with rfl | hx
      · exact List.mem_singleton_self x
      · cases hx
  | cons q qs ih =>
      have hrest := ih fun r hr => h r (List.mem_cons_of_mem q hr)
      rw [insertPiece]
      split
      · exact List.mem_cons.2 hx
      · split
        next heq =>
          have hq := h q List.mem_cons_self heq.symm
          rcases hx with rfl | hx
          · exact List.mem_cons_self
          · rcases List.mem_cons.1 hx with rfl | hx
            · exact List.mem_cons.2 (Or.inl hq)
            · exact List.mem_cons_of_mem p hx
        · rcases hx with rfl | hx
          · exact List.mem_cons_of_mem q (hrest (Or.inl rfl))
          · rcases List.mem_cons.1 hx with rfl | hx
            · exact List.mem_cons_self
            · exact List.mem_cons_of_mem q (hrest (Or.inr hx))

theorem mem_push {f : CrcFolder W} {p x : Piece W}
    (hx : x ∈ (f.push p.offset p.len p.checksum).pieces) :
    (x = p ∧ 0 < p.len) ∨ x ∈ f.pieces := by
  rw [push] at hx
  split at hx
  next hlen => exact (mem_insertPiece hx).imp_left fun h => ⟨h, Nat.pos_of_ne_zero hlen⟩
  next => exact Or.inr hx

/-- What is held was pushed, and is not empty. -/
theorem mem_pushAll {f : CrcFolder W} {ps : List (Piece W)} {x : Piece W}
    (hx : x ∈ (f.pushAll ps).pieces) : (x ∈ ps ∧ 0 < x.len) ∨ x ∈ f.pieces := by
  induction ps generalizing f with
  | nil => exact Or.inr hx
  | cons p ps ih =>
      rcases ih hx with ⟨hmem, hlen⟩ | hmem
      · exact Or.inl ⟨List.mem_cons_of_mem p hmem, hlen⟩
      · rcases mem_push hmem with ⟨rfl, hlen⟩ | hmem
        · exact Or.inl ⟨List.mem_cons_self, hlen⟩
        · exact Or.inr hmem

/-- Where no offset is used by two pieces, what is pushed is held. -/
theorem held_of_pushed {f : CrcFolder W} {ps : List (Piece W)}
    (hsame : ∀ p, (p ∈ ps ∧ 0 < p.len) ∨ p ∈ f.pieces →
      ∀ q, (q ∈ ps ∧ 0 < q.len) ∨ q ∈ f.pieces → q.offset = p.offset → q = p)
    {x : Piece W} (hx : (x ∈ ps ∧ 0 < x.len) ∨ x ∈ f.pieces) : x ∈ (f.pushAll ps).pieces := by
  induction ps generalizing f with
  | nil => exact hx.resolve_left fun h => nomatch h.1
  | cons p ps ih =>
      have hmem : ∀ y, (y ∈ ps ∧ 0 < y.len) ∨
          y ∈ (f.push p.offset p.len p.checksum).pieces →
          (y ∈ p :: ps ∧ 0 < y.len) ∨ y ∈ f.pieces := by
        rintro y (⟨hy, hlen⟩ | hy)
        · exact Or.inl ⟨List.mem_cons_of_mem p hy, hlen⟩
        · rcases mem_push hy with ⟨rfl, hlen⟩ | hy
          · exact Or.inl ⟨List.mem_cons_self, hlen⟩
          · exact Or.inr hy
      have hpush : ∀ y, (y = p ∧ 0 < p.len) ∨ y ∈ f.pieces →
          y ∈ (f.push p.offset p.len p.checksum).pieces := by
        intro y hy
        rw [push]
        by_cases hlen : p.len = 0
        · rw [if_neg (not_not.2 hlen)]
          exact hy.resolve_left fun h => Nat.ne_of_gt h.2 hlen
        · rw [if_pos hlen]
          have hp : (p ∈ p :: ps ∧ 0 < p.len) ∨ p ∈ f.pieces :=
            Or.inl ⟨List.mem_cons_self, Nat.pos_of_ne_zero hlen⟩
          exact (mem_insertPiece_iff fun q hq => hsame p hp q (Or.inr hq)).2
            (hy.imp_left And.left)
      refine ih (f := f.push p.offset p.len p.checksum)
        (fun y hy z hz => hsame y (hmem y hy) z (hmem z hz)) ?_
      rcases hx with ⟨hx, hlen⟩ | hx
      · rcases List.mem_cons.1 hx with rfl | hx
        · exact Or.inr (hpush x (Or.inl ⟨rfl, hlen⟩))
        · exact Or.inl ⟨hx, hlen⟩
      · exact Or.inr (hpush x (Or.inr hx))

/-- Two lists in order with the same members. -/
theorem sorted_eq {ps qs : List (Piece W)} (hp : ps.Pairwise (·.offset < ·.offset))
    (hq : qs.Pairwise (·.offset < ·.offset)) (hmem : ∀ x, x ∈ ps ↔ x ∈ qs) : ps = qs := by
  have hnodup : ∀ {l : List (Piece W)}, l.Pairwise (·.offset < ·.offset) → l.Nodup :=
    fun h => h.imp fun hlt heq => Nat.ne_of_lt hlt (congrArg Piece.offset heq)
  refine List.Perm.eq_of_pairwise (fun a b _ _ hab hba => ?_) hp hq
    ((List.perm_ext_iff_of_nodup (hnodup hp) (hnodup hq)).2 hmem)
  exact absurd (Nat.lt_trans hab hba) (Nat.lt_irrefl _)

variable {D : Digest W} {F : Foldable W} {stream : List UInt8}

/-- A range is answered exactly when pushed pieces tile it, whatever the order. -/
theorem range_pushed (hF : FoldsWith D F) (hmax : stream.length ≤ u64Max) {ps : List (Piece W)}
    (hps : ∀ p ∈ ps, PieceOf D stream p)
    (hapart : ∀ p ∈ ps, ∀ q ∈ ps, 0 < p.len → 0 < q.len → Apart p q) (offset len : ℕ) (w : W) :
    (new.pushAll ps).range F offset len = some w ↔
      (∃ qs, (∀ q ∈ qs, q ∈ ps) ∧ Tiles offset (offset + len) qs) ∧
        w = D.one ((stream.drop offset).take len) := by
  have hheld : ∀ x, x ∈ (new.pushAll ps).pieces ↔ x ∈ ps ∧ 0 < x.len := by
    refine fun x => ⟨fun hx => (mem_pushAll hx).resolve_right (fun h => nomatch h),
      fun hx => ?_⟩
    refine held_of_pushed (fun p hp q hq hoff => ?_) (Or.inl hx)
    have hp := hp.resolve_right fun h => nomatch h
    have hq := hq.resolve_right fun h => nomatch h
    rcases hapart p hp.1 q hq.1 hp.2 hq.2 with heq | hle | hle
    · exact heq.symm
    · omega
    · omega
  rw [range_iff hF hmax fun p hp => ⟨hps p ((hheld p).1 hp).1, ((hheld p).1 hp).2⟩]
  refine and_congr_left fun _ => ⟨?_, ?_⟩
  · rintro ⟨qs, hqs, htiles⟩
    exact ⟨qs, fun q hq => ((hheld q).1 (List.mem_filter.1 (hqs.subset hq)).1).1, htiles⟩
  · rintro ⟨qs, hqs, htiles⟩
    refine ⟨qs, ?_, htiles⟩
    have heq : (new.pushAll ps).within offset (offset + len) = qs := by
      refine sorted_eq ((new.pushAll ps).sorted.filter _) htiles.sorted fun x => ?_
      rw [within, List.mem_filter, hheld, decide_eq_true_iff]
      refine Iff.intro ?_ ?_
      · rintro ⟨⟨hx, hlen⟩, hstart, hstop⟩
        -- the tile that holds its first byte is the piece itself
        obtain ⟨q, hq, hin⟩ := htiles.covers hstart hstop
        rcases hapart x hx q (hqs q hq) hlen (htiles.mem hq).2.1 with heq | hle | hle
        · rwa [heq]
        · omega
        · omega
      · intro hx
        have hin := htiles.mem hx
        exact ⟨⟨hqs x hx, hin.2.1⟩, hin.1, by omega⟩
    rw [heq]

end Pushes

end CrcFolder

end LzmaTurbo.Crc
