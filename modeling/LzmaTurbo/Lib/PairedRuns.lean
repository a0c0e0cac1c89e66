import Mathlib.Logic.Basic

/-!
# Two programs run side by side

Two fallible programs, possibly on different data: whatever they both return is related.
That one of them returns at all is no part of it.
-/
namespace LzmaTurbo

def Paired {ε α α' : Type} (E : Except ε α) (E' : Except ε α') (Q : α → α' → Prop) : Prop :=
  ∀ a a', E = .ok a → E' = .ok a' → Q a a'

namespace Paired
variable {ε α α' β β' : Type} {E F : Except ε α} {E' F' : Except ε α'} {Q R : α → α' → Prop}

theorem ok {a : α} {a' : α'} (h : Q a a') : Paired (.ok a : Except ε α) (.ok a') Q := by
  intro b b' hb hb'
  cases hb
  cases hb'
  exact h

theorem error (e : ε) : Paired (.error e : Except ε α) E' Q := fun _ _ h => by cases h

/-- A part both programs share. -/
theorem same (E : Except ε α) : Paired E E fun a a' => a' = a := by
  intro a a' h h'
  rw [h] at h'
  cases h'
  rfl

/-- A part whose results nothing is asked of. -/
theorem any (E : Except ε α) (E' : Except ε α') : Paired E E' fun _ _ => True :=
  fun _ _ _ _ => trivial

theorem mono (h : Paired E E' Q) (hQ : ∀ a a', Q a a' → R a a') : Paired E E' R :=
  fun a a' ha ha' => hQ a a' (h a a' ha ha')

theorem bind (h : Paired E E' Q) {G : α → Except ε β} {G' : α' → Except ε β'}
    {S : β → β' → Prop} (hG : ∀ a a', Q a a' → Paired (G a) (G' a') S) :
    Paired (E >>= G) (E' >>= G') S := by
  cases E with
  | error e => exact error e
  | ok a =>
      cases E' with
      | error e => exact fun _ _ _ h' => by cases h'
      | ok a' => exact hG a a' (h a a' rfl rfl)

theorem ite {P : Prop} [Decidable P] (ht : P → Paired E E' Q) (he : ¬ P → Paired F F' Q) :
    Paired (if P then E else F) (if P then E' else F') Q := by
  by_cases h : P
  · rw [if_pos h, if_pos h]
    exact ht h
  · rw [if_neg h, if_neg h]
    exact he h

end Paired
end LzmaTurbo
