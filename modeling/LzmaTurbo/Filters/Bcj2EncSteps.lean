import LzmaTurbo.Filters.Bcj2Enc
import LzmaTurbo.Lib.Supplies
import Mathlib.Tactic.Linarith

/-!
# The BCJ2 encoder, a byte at a time

The small machine behind the encoder has all the room it wants: a full window only makes a
call return between two of its steps. It looks four bytes past a marker before it takes it,
unless the source has ended, and holds nothing back: what the encoder keeps for later is
still in the machine's source.
-/
namespace LzmaTurbo.Filters.Bcj2Enc
open Supplies

inductive EncPhase where
  | loop
  | target (cj : ℕ) (absol : UInt32)
  | flush
deriving DecidableEq

/-- What an encoder is about, besides where it stands and what it holds. -/
def bare (e : Bcj2Enc) : Bcj2Enc :=
  { e with state := 0, finishMode := .continue, isFlushState := false, tempTarget := 0, temp := [] }

structure EncMicro where
  phase : EncPhase
  core : Bcj2Enc

/-- The source, whether it has ended, and the four streams. -/
structure EncSupply where
  src : List UInt8
  ended : Bool
  main : List UInt8
  call : List UInt8
  jump : List UInt8
  rc : List UInt8

/-- `shift_low` once its bytes are out. -/
def pushed (e : Bcj2Enc) : Bcj2Enc :=
  shifted { e with cacheSize := 0, cache := UInt8.ofNat (e.low % 0x100000000 / 0x1000000) }

/-- One byte of `shift_low`, or its end. -/
def shiftStep (e : Bcj2Enc) (rc : List UInt8) : Bool × Bcj2Enc × List UInt8 :=
  if e.shifts then
    match e.cacheSize with
    | 0 => (true, e.pushed, rc)
    | n + 1 =>
        (false, { e with cacheSize := n, cache := 0xFF },
          rc ++ [e.cache + UInt8.ofNat (e.low / 0x100000000)])
  else (true, e.shifted, rc)

/-- A step of `shift_low` and what follows its last. -/
def shiftPhase (after : Bcj2Enc → Bcj2Enc) (m : EncMicro) (x : EncSupply) :
    EncMicro × EncSupply :=
  let r := shiftStep m.core x.rc
  (⟨m.phase, if r.1 then after r.2.1 else r.2.1⟩, { x with rc := r.2.2 })

/-- The supply behind the byte just taken. -/
def EncSupply.take (x : EncSupply) (b : UInt8) (rest : List UInt8) : EncSupply :=
  { x with src := rest, main := x.main ++ [b] }

/-- The supply with a target written. -/
def EncSupply.putTarget (x : EncSupply) (cj : ℕ) (v : UInt32) : EncSupply :=
  let bs := [(v >>> 24).toUInt8, (v >>> 16).toUInt8, (v >>> 8).toUInt8, v.toUInt8]
  if cj = streamCall then { x with call := x.call ++ bs } else { x with jump := x.jump ++ bs }

/-- A marker in `v`, counted already. -/
def markerStep (core : Bcj2Enc) (v : UInt32) (b : UInt8) (rest : List UInt8) (x : EncSupply) :
    Option (EncMicro × EncSupply) :=
  match rest with
  | a₀ :: a₁ :: a₂ :: a₃ :: rest' =>
      let relat := getLe32 a₀ a₁ a₂ a₃
      if core.converts v relat then
        let core := core.encodeBit v true
        let core := { core with ip64 := core.ip64 + 4, context := (relat >>> 24).toUInt8 }
        some (⟨.target (branchStream v) (core.ip64.toUInt32 + relat), core⟩, x.take b rest')
      else some (⟨.loop, { core.encodeBit v false with context := b }⟩, x.take b rest)
  | _ =>
      if x.ended then some (⟨.loop, { core.encodeBit v false with context := b }⟩, x.take b rest)
      else none

def copyStep (m : EncMicro) (x : EncSupply) : Option (EncMicro × EncSupply) :=
  match x.src with
  | [] => if x.ended then some (⟨.flush, m.core⟩, x) else none
  | b :: rest =>
      let core := { m.core with ip64 := m.core.ip64 + 1 }
      if isMarker core.context.toUInt32 b then
        markerStep core (rolled core.context.toUInt32 b) b rest x
      else some (⟨.loop, { core with context := b }⟩, x.take b rest)

def encStep (m : EncMicro) (x : EncSupply) : Option (EncMicro × EncSupply) :=
  match m.phase with
  | .loop =>
      if m.core.range < bcj2TopValue then
        some (shiftPhase (fun e => { e with range := e.range * 256 }) m x)
      else copyStep m x
  | .target cj absol => some (⟨.loop, m.core⟩, x.putTarget cj absol)
  | .flush =>
      if m.core.flushRem = 0 then none
      else some (shiftPhase (fun e => { e with flushRem := e.flushRem - 1 }) m x)

/-- A piece of the source, and whether the source ends with it. -/
structure EncPiece where
  src : List UInt8
  ended : Bool

/-- A source that has ended gets no more. -/
def encMore (x : EncSupply) (e : EncPiece) : EncSupply :=
  { x with
    src := if x.ended then x.src else x.src ++ e.src
    ended := x.ended || e.ended }

theorem markerStep_more {core : Bcj2Enc} {v : UInt32} {b : UInt8} {rest : List UInt8}
    {m' : EncMicro} {x x' : EncSupply} (e : EncPiece)
    (h : markerStep core v b rest x = some (m', x')) :
    markerStep core v b (if x.ended then rest else rest ++ e.src) (encMore x e) =
      some (m', encMore x' e) := by
  unfold markerStep at h
  split at h
  next a₀ a₁ a₂ a₃ rest =>
    have hsrc : (if x.ended then a₀ :: a₁ :: a₂ :: a₃ :: rest
        else a₀ :: a₁ :: a₂ :: a₃ :: rest ++ e.src) =
        a₀ :: a₁ :: a₂ :: a₃ :: (if x.ended then rest else rest ++ e.src) := by
      split <;> rfl
    rw [hsrc]
    unfold markerStep
    dsimp only at h ⊢
    split at h
    next hc =>
      cases h
      rw [if_pos hc]
      rfl
    next hc =>
      cases h
      rw [if_neg hc, ← hsrc]
      rfl
  next hshort =>
    split at h
    next hended =>
      cases h
      have hended' : (encMore x e).ended = true := by
        change (x.ended || e.ended) = true
        rw [hended]
        rfl
      rw [if_pos hended]
      unfold markerStep
      split
      next a₀ a₁ a₂ a₃ rest => exact (hshort a₀ a₁ a₂ a₃ rest rfl).elim
      · rw [if_pos hended']
        simp only [encMore, EncSupply.take, hended, if_true]
    · cases h

theorem copyStep_more {m m' : EncMicro} {x x' : EncSupply} (e : EncPiece)
    (h : copyStep m x = some (m', x')) : copyStep m (encMore x e) = some (m', encMore x' e) := by
  unfold copyStep at h
  split at h
  next hsrc =>
    split at h
    next hended =>
      cases h
      simp only [copyStep, encMore, hsrc, hended, if_true, Bool.true_or]
    · cases h
  next b rest hsrc =>
    have hsrc' : (encMore x e).src = b :: (if x.ended then rest else rest ++ e.src) := by
      change (if x.ended then x.src else x.src ++ e.src) = _
      rw [hsrc]
      split <;> rfl
    unfold copyStep
    simp only [hsrc']
    dsimp only at h
    split at h
    next hm =>
      rw [if_pos hm]
      exact markerStep_more e h
    next hm =>
      cases h
      rw [if_neg hm]
      rfl

def encMachine : Supplies.Machine EncMicro EncSupply EncPiece where
  step := encStep
  more := encMore
  step_more := by
    intro m x m' x' e h
    unfold encStep at h ⊢
    split at h
    · split at h
      next hlow =>
        cases h
        rw [if_pos hlow]
        rfl
      next hlow =>
        rw [if_neg hlow]
        exact copyStep_more e h
    next cj absol hp =>
      cases h
      unfold EncSupply.putTarget
      dsimp only
      split <;> rfl
    · split at h
      · cases h
      next hrem =>
        cases h
        rw [if_neg hrem]
        rfl

end LzmaTurbo.Filters.Bcj2Enc
