import LzmaTurbo.Filters.Bcj2Dec
import LzmaTurbo.Lib.Supplies
import Mathlib.Data.UInt
import Mathlib.Tactic.Linarith

/-!
# The BCJ2 decoder, a byte at a time

The small machine behind the decoder takes a byte, four target bytes or a byte of room, or
is blocked. The decoder is never behind it; having met a target it cannot read or write, it
may already have made the normalization that comes next.
-/
namespace LzmaTurbo.Filters.Bcj2Dec
open Supplies

inductive Phase where
  | prime
  | top
  | scan
  | target (cj : ℕ)
  | emit (left : ℕ)
deriving DecidableEq

/-- What a decoder is about, besides where it stands and what it holds. -/
def bare (d : Bcj2Dec) : Bcj2Dec := { d with state := 0, temp := 0 }

structure Micro where
  phase : Phase
  v : UInt32
  core : Bcj2Dec

/-- The priming has failed. -/
def Micro.bad (m : Micro) : Prop :=
  m.phase = .prime ∧
    ((m.core.range = 1 ∧ m.core.code ≠ 0) ∨ (m.core.range = 5 ∧ m.core.code = 0xFFFFFFFF))

instance (m : Micro) : Decidable m.bad := inferInstanceAs (Decidable (_ ∧ _))

/-- Where the bit of a marker leads. -/
def decided (core : Bcj2Dec) (v : UInt32) : Micro :=
  if (core.decodeBit v).1 then ⟨.target (branchStream v), 0, (core.decodeBit v).2⟩
  else ⟨.top, v, (core.decodeBit v).2⟩

def primeStep (m : Micro) (s : Bcj2DecStreams) : Option (Micro × Bcj2DecStreams) :=
  if m.bad then none
  else if m.core.range = 5 then some (⟨.top, m.v, { m.core with range := 0xFFFFFFFF }⟩, s)
  else
    match s.rc with
    | [] => none
    | b :: rc =>
        some (⟨.prime, m.v, { m.core with code := shifted m.core.code b
                                          range := m.core.range + 1 }⟩, { s with rc })

def topStep (m : Micro) (s : Bcj2DecStreams) : Option (Micro × Bcj2DecStreams) :=
  if m.core.range < bcj2TopValue then
    match s.rc with
    | [] => none
    | b :: rc => some (⟨.scan, m.v, m.core.normalized b⟩, { s with rc })
  else some (⟨.scan, m.v, m.core⟩, s)

def scanStep (m : Micro) (s : Bcj2DecStreams) : Option (Micro × Bcj2DecStreams) :=
  match s.main with
  | [] => none
  | b :: _ =>
      if s.room = 0 then none
      else
        let core := { m.core with ip := m.core.ip + 1 }
        if isMarker m.v b then some (decided core (rolled m.v b), s.copy 1)
        else some (⟨.scan, rolled m.v b, core⟩, s.copy 1)

def targetStep (m : Micro) (cj : ℕ) (s : Bcj2DecStreams) : Option (Micro × Bcj2DecStreams) :=
  match s.side cj with
  | a :: b :: c :: e :: rest =>
      let ip := m.core.ip + 4
      some (⟨.emit 4, getBe32 a b c e - ip, { m.core with ip }⟩, s.setSide cj rest)
  | _ => none

def emitStep (m : Micro) (s : Bcj2DecStreams) : ℕ → Option (Micro × Bcj2DecStreams)
  | 0 => none
  | left + 1 =>
      if s.room = 0 then none
      else if left = 0 then some (⟨.top, m.v, m.core⟩, s.put m.v.toUInt8)
      else some (⟨.emit left, m.v >>> 8, m.core⟩, s.put m.v.toUInt8)

def microStep (m : Micro) (s : Bcj2DecStreams) : Option (Micro × Bcj2DecStreams) :=
  match m.phase with
  | .prime => primeStep m s
  | .top => topStep m s
  | .scan => scanStep m s
  | .target cj => targetStep m cj s
  | .emit left => emitStep m s left

/-- What a call adds to the streams, and the room of its window. -/
structure Refill where
  main : List UInt8
  call : List UInt8
  jump : List UInt8
  rc : List UInt8
  room : ℕ
deriving Repr, DecidableEq

def refill (s : Bcj2DecStreams) (e : Refill) : Bcj2DecStreams :=
  { s with
    main := s.main ++ e.main
    call := s.call ++ e.call
    jump := s.jump ++ e.jump
    rc := s.rc ++ e.rc }

/-- What a call is offered: the streams with more of each, and a window of its own. -/
def offer (s : Bcj2DecStreams) (e : Refill) : Bcj2DecStreams := { refill s e with room := e.room }

theorem refill_side (s : Bcj2DecStreams) (e : Refill) (cj : ℕ) :
    (refill s e).side cj = s.side cj ++ if cj = streamCall then e.call else e.jump := by
  unfold Bcj2DecStreams.side
  split <;> rfl

theorem refill_setSide (s : Bcj2DecStreams) (e : Refill) (cj : ℕ) (rest : List UInt8) :
    (refill s e).setSide cj (rest ++ if cj = streamCall then e.call else e.jump) =
      refill (s.setSide cj rest) e := by
  unfold Bcj2DecStreams.setSide
  split <;> rfl

theorem refill_copy {s : Bcj2DecStreams} {b : UInt8} {main : List UInt8} (e : Refill)
    (hmain : s.main = b :: main) : (refill s e).copy 1 = refill (s.copy 1) e := by
  simp [refill, Bcj2DecStreams.copy, hmain]

theorem primeStep_more {m m' : Micro} {s s' : Bcj2DecStreams} (e : Refill)
    (h : primeStep m s = some (m', s')) : primeStep m (refill s e) = some (m', refill s' e) := by
  unfold primeStep at h ⊢
  split at h
  · cases h
  next hbad =>
    rw [if_neg hbad]
    split at h
    next h5 =>
      cases h
      rw [if_pos h5]
    next h5 =>
      rw [if_neg h5]
      split at h
      · cases h
      next b rc hrc =>
        cases h
        simp [refill, hrc]

theorem topStep_more {m m' : Micro} {s s' : Bcj2DecStreams} (e : Refill)
    (h : topStep m s = some (m', s')) : topStep m (refill s e) = some (m', refill s' e) := by
  unfold topStep at h ⊢
  split at h
  next hlow =>
    rw [if_pos hlow]
    split at h
    · cases h
    next b rc hrc =>
      cases h
      simp [refill, hrc]
  next hhigh =>
    cases h
    rw [if_neg hhigh]

theorem scanStep_more {m m' : Micro} {s s' : Bcj2DecStreams} (e : Refill)
    (h : scanStep m s = some (m', s')) : scanStep m (refill s e) = some (m', refill s' e) := by
  unfold scanStep at h
  split at h
  · cases h
  next b main hmain =>
    split at h
    · cases h
    next hroom =>
      have hmain' : (refill s e).main = b :: (main ++ e.main) := by simp [refill, hmain]
      have hroom' : (refill s e).room ≠ 0 := hroom
      unfold scanStep
      simp only [hmain', hroom', if_false, refill_copy e hmain]
      dsimp only at h
      split at h
      next hm =>
        cases h
        rw [if_pos hm]
      next hm =>
        cases h
        rw [if_neg hm]

theorem targetStep_more {m m' : Micro} {cj : ℕ} {s s' : Bcj2DecStreams} (e : Refill)
    (h : targetStep m cj s = some (m', s')) :
    targetStep m cj (refill s e) = some (m', refill s' e) := by
  unfold targetStep at h
  split at h
  next a b c e' rest hside =>
    cases h
    unfold targetStep
    simp only [refill_side, hside, List.cons_append, refill_setSide]
  · cases h

theorem emitStep_more {m m' : Micro} {left : ℕ} {s s' : Bcj2DecStreams} (e : Refill)
    (h : emitStep m s left = some (m', s')) :
    emitStep m (refill s e) left = some (m', refill s' e) := by
  cases left with
  | zero => cases h
  | succ left =>
      rw [emitStep] at h ⊢
      split at h
      · cases h
      next hroom =>
        have hroom' : (refill s e).room ≠ 0 := hroom
        rw [if_neg hroom']
        split at h
        next hleft =>
          cases h
          rw [if_pos hleft]
          rfl
        next hleft =>
          cases h
          rw [if_neg hleft]
          rfl

def machine : Supplies.Machine Micro Bcj2DecStreams Refill where
  step := microStep
  more := refill
  step_more := by
    intro m s m' s' e h
    unfold microStep at h ⊢
    cases hp : m.phase with
    | prime => rw [hp] at h; exact primeStep_more e h
    | top => rw [hp] at h; exact topStep_more e h
    | scan => rw [hp] at h; exact scanStep_more e h
    | target cj => rw [hp] at h; exact targetStep_more e h
    | emit left => rw [hp] at h; exact emitStep_more e h

theorem scanStep_take {m : Micro} {s : Bcj2DecStreams} {b : UInt8} {main : List UInt8}
    (hmain : s.main = b :: main) (hroom : s.room ≠ 0) :
    scanStep m s =
      if isMarker m.v b then
        some (decided { m.core with ip := m.core.ip + 1 } (rolled m.v b), s.copy 1)
      else some (⟨.scan, rolled m.v b, { m.core with ip := m.core.ip + 1 }⟩, s.copy 1) := by
  simp only [scanStep, hmain, hroom, if_false]

/-- A step takes room for what it writes, and would be the same with any room left over. -/
theorem step_room {m m' : Micro} {s s' : Bcj2DecStreams} (h : microStep m s = some (m', s')) :
    s'.dest.length + s'.room = s.dest.length + s.room ∧ s'.room ≤ s.room ∧
      ∀ room, microStep m { s with room := s.room - s'.room + room } =
        some (m', { s' with room }) := by
  unfold microStep at h ⊢
  split at h
  next hp =>
    unfold primeStep at h ⊢
    split at h
    · cases h
    next hbad =>
      split at h
      next h5 =>
        cases h
        refine ⟨rfl, Nat.le_refl _, fun room => ?_⟩
        simp only [hbad, h5, if_false, if_true, Nat.sub_self, Nat.zero_add]
      next h5 =>
        split at h <;> cases h
        next b rc hrc =>
          refine ⟨rfl, Nat.le_refl _, fun room => ?_⟩
          simp only [hbad, h5, hrc, if_false, Nat.sub_self, Nat.zero_add]
  next hp =>
    unfold topStep at h ⊢
    split at h
    next hlow =>
      split at h <;> cases h
      next b rc hrc =>
        refine ⟨rfl, Nat.le_refl _, fun room => ?_⟩
        simp only [hlow, hrc, if_true, Nat.sub_self, Nat.zero_add]
    next hlow =>
      cases h
      refine ⟨rfl, Nat.le_refl _, fun room => ?_⟩
      simp only [hlow, if_false, Nat.sub_self, Nat.zero_add]
  next hp =>
    unfold scanStep at h
    split at h
    · cases h
    next b main hmain =>
      split at h
      · cases h
      next hroom =>
        have hlen : (s.copy 1).dest.length = s.dest.length + 1 := by
          simp [Bcj2DecStreams.copy, hmain]
        have hleft : (s.copy 1).room = s.room - 1 := rfl
        have hone (room : ℕ) : s.room - (s.room - 1) + room = room + 1 := by omega
        dsimp only at h
        have htake (room : ℕ) := scanStep_take (m := m) (s := { s with room := room + 1 }) hmain
          (Nat.succ_ne_zero room)
        split at h
        next hm =>
          cases h
          refine ⟨by omega, by omega, fun room => ?_⟩
          rw [hleft, hone, htake, if_pos hm]
          rfl
        next hm =>
          cases h
          refine ⟨by omega, by omega, fun room => ?_⟩
          rw [hleft, hone, htake, if_neg hm]
          rfl
  next cj hp =>
    unfold targetStep at h
    split at h
    next a b c e rest hside =>
      cases h
      have hkeep : (s.setSide cj rest).dest = s.dest ∧ (s.setSide cj rest).room = s.room := by
        unfold Bcj2DecStreams.setSide
        split <;> exact ⟨rfl, rfl⟩
      refine ⟨by rw [hkeep.1, hkeep.2], Nat.le_of_eq hkeep.2, fun room => ?_⟩
      have hside' : Bcj2DecStreams.side { s with room } cj = a :: b :: c :: e :: rest := hside
      have hset : Bcj2DecStreams.setSide { s with room } cj rest =
          { s.setSide cj rest with room } := by
        unfold Bcj2DecStreams.setSide
        split <;> rfl
      simp only [hkeep.2, Nat.sub_self, Nat.zero_add, targetStep, hside', hset]
    · cases h
  next left hp =>
    cases left with
    | zero => cases h
    | succ left =>
        rw [emitStep] at h
        split at h
        · cases h
        next hroom =>
          have hlen : (s.put m.v.toUInt8).dest.length = s.dest.length + 1 := by
            simp [Bcj2DecStreams.put]
          have hleft : (s.put m.v.toUInt8).room = s.room - 1 := rfl
          have hone (room : ℕ) : s.room - (s.room - 1) + room = room + 1 := by omega
          have hput (room : ℕ) : Bcj2DecStreams.put { s with room := room + 1 } m.v.toUInt8 =
              { s.put m.v.toUInt8 with room } := rfl
          split at h
          next h0 =>
            cases h
            refine ⟨by omega, by omega, fun room => ?_⟩
            simp only [emitStep, hleft, hone, Nat.succ_ne_zero, if_false, h0, if_true, hput]
          next h0 =>
            cases h
            refine ⟨by omega, by omega, fun room => ?_⟩
            simp only [emitStep, hleft, hone, Nat.succ_ne_zero, if_false, h0, hput]

theorem steps_room {a b : Micro × Bcj2DecStreams} (h : machine.Steps a b) :
    b.2.dest.length + b.2.room = a.2.dest.length + a.2.room ∧ b.2.room ≤ a.2.room ∧
      ∀ room, machine.Steps (a.1, { a.2 with room := a.2.room - b.2.room + room })
        (b.1, { b.2 with room }) := by
  induction h with
  | refl =>
      refine ⟨rfl, Nat.le_refl _, fun room => ?_⟩
      rw [Nat.sub_self, Nat.zero_add]
      exact .refl
  | @tail b c _ hstep ih =>
      obtain ⟨hsum, hle, hsteps⟩ := ih
      obtain ⟨hsum', hle', hone⟩ := step_room hstep
      refine ⟨by omega, by omega, fun room => ?_⟩
      have hfirst := hsteps (b.2.room - c.2.room + room)
      rw [show a.2.room - b.2.room + (b.2.room - c.2.room + room) =
        a.2.room - c.2.room + room by omega] at hfirst
      exact hfirst.trans (.one (hone room))

end LzmaTurbo.Filters.Bcj2Dec
