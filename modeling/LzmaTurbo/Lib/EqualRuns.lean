import Mathlib.Logic.Basic

/-!
# Two programs with one outcome

Two fallible programs fail alike or return the same, and what they return has a property.
They are compared part by part, each part under what the parts before it leave.
-/
namespace LzmaTurbo

structure EqualRuns {ε α : Type} (E E' : Except ε α) (Q : α → Prop) : Prop where
  eq : E = E'
  post : ∀ a, E = .ok a → Q a

namespace EqualRuns
variable {ε α β : Type} {E E' F F' : Except ε α} {Q : α → Prop}

theorem ok {a : α} (h : Q a) : EqualRuns (.ok a : Except ε α) (.ok a) Q := by
  refine ⟨rfl, fun b hb => ?_⟩
  cases hb
  exact h

theorem error (e : ε) : EqualRuns (.error e : Except ε α) (.error e) Q :=
  ⟨rfl, fun _ h => by cases h⟩

/-- A part both programs share. -/
theorem shared (E : Except ε α) : EqualRuns E E fun _ => True := ⟨rfl, fun _ _ => trivial⟩

theorem bind (h : EqualRuns E E' Q) {G G' : α → Except ε β} {S : β → Prop}
    (hG : ∀ a, Q a → EqualRuns (G a) (G' a) S) : EqualRuns (E >>= G) (E' >>= G') S := by
  obtain ⟨rfl, hpost⟩ := h
  cases E with
  | error e => exact error e
  | ok a => exact hG a (hpost a rfl)

theorem ite {P : Prop} [Decidable P] (ht : P → EqualRuns E E' Q) (he : ¬ P → EqualRuns F F' Q) :
    EqualRuns (if P then E else F) (if P then E' else F') Q := by
  by_cases h : P
  · rw [if_pos h, if_pos h]
    exact ht h
  · rw [if_neg h, if_neg h]
    exact he h

end EqualRuns
end LzmaTurbo
