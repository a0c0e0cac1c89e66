import Mathlib.Logic.Relation

/-!
# Machines that draw on supplies

A step reads from one or more supplies (inputs, or room for output) or finds that one is
used up. When a step that can be made is the same step with more supplied, it does not
matter in which portions and in which order the supplies come.
-/
namespace LzmaTurbo.Supplies

variable {σ χ ε : Type}

/-- A machine on states `σ` with supplies `χ`; `more x e` is `x` with the portion `e` added. -/
structure Machine (σ χ ε : Type) where
  step : σ → χ → Option (σ × χ)
  more : χ → ε → χ
  step_more : ∀ {s x s' x'} (e : ε), step s x = some (s', x') →
    step s (more x e) = some (s', more x' e)

namespace Machine
variable (M : Machine σ χ ε)

/-- Any number of steps. -/
def Steps (a b : σ × χ) : Prop :=
  Relation.ReflTransGen (fun a b => M.step a.1 a.2 = some b) a b

def Blocked (a : σ × χ) : Prop := M.step a.1 a.2 = none

/-- The machine goes on until it is blocked. -/
def Stops (a b : σ × χ) : Prop := M.Steps a b ∧ M.Blocked b

variable {M} {a b c : σ × χ}

theorem Steps.refl : M.Steps a a := Relation.ReflTransGen.refl

theorem Steps.trans (h : M.Steps a b) (h' : M.Steps b c) : M.Steps a c :=
  Relation.ReflTransGen.trans h h'

theorem Steps.one (h : M.step a.1 a.2 = some b) : M.Steps a b :=
  Relation.ReflTransGen.single h

theorem Steps.head (h : M.step a.1 a.2 = some b) (h' : M.Steps b c) : M.Steps a c :=
  Relation.ReflTransGen.head h h'

theorem Steps.stops (h : M.Steps a b) (h' : M.Stops b c) : M.Stops a c :=
  ⟨h.trans h'.1, h'.2⟩

/-- A machine that can go on to `b` and stops at `c` goes by `b`. -/
theorem Stops.after (h : M.Stops a c) (h' : M.Steps a b) : M.Stops b c := by
  induction h' using Relation.ReflTransGen.head_induction_on with
  | refl => exact h
  | head hstep _ ih =>
      apply ih
      rcases Relation.ReflTransGen.cases_head h.1 with heq | ⟨d, hd, hrest⟩
      · have hb := h.2
        rw [Blocked, ← heq, hstep] at hb
        cases hb
      · rw [hstep] at hd
        cases hd
        exact ⟨hrest, h.2⟩

theorem Stops.unique (h : M.Stops a b) (h' : M.Stops a c) : b = c := by
  have hb := h'.after h.1
  rcases Relation.ReflTransGen.cases_head hb.1 with heq | ⟨d, hd, -⟩
  · exact heq
  · have hblocked := h.2
    rw [Blocked, hd] at hblocked
    cases hblocked

/-- What a machine can do it can do with more supplied. -/
theorem Steps.more (h : M.Steps a b) (e : ε) :
    M.Steps (a.1, M.more a.2 e) (b.1, M.more b.2 e) := by
  induction h using Relation.ReflTransGen.head_induction_on with
  | refl => exact Steps.refl
  | head hstep _ ih => exact Steps.head (M.step_more e hstep) ih

theorem Steps.mores (h : M.Steps a b) (es : List ε) :
    M.Steps (a.1, es.foldl M.more a.2) (b.1, es.foldl M.more b.2) := by
  induction es generalizing a b with
  | nil => exact h
  | cons e es ih => exact ih (h.more e)

/-- A run over portions that `give` hands over: after each the machine goes on until it is
blocked. -/
inductive Runs (M : Machine σ χ ε) (give : χ → ε → χ) : σ × χ → List ε → σ × χ → Prop
  | nil (a : σ × χ) : Runs M give a [] a
  | cons {s : σ} {x : χ} {e : ε} {b c : σ × χ} {es : List ε} :
      M.Stops (s, give x e) b → Runs M give b es c → Runs M give (s, x) (e :: es) c

/-- A machine that no supply sets going stays where it is. -/
theorem Runs.stuck {give : χ → ε → χ} {s : σ} (h : ∀ x, M.Blocked (s, x)) (es : List ε) (x : χ) :
    Runs M give (s, x) es (s, es.foldl give x) := by
  induction es generalizing x with
  | nil => exact .nil _
  | cons e es ih => exact .cons ⟨.refl, h _⟩ (ih _)

theorem Runs.keeps_blocked {give : χ → ε → χ} {es : List ε} (h : Runs M give a es b)
    (ha : M.Blocked a) : M.Blocked b := by
  induction h with
  | nil => exact ha
  | cons hstop _ ih => exact ih hstop.2

theorem Runs.blocked {give : χ → ε → χ} {e : ε} {es : List ε} (h : Runs M give a (e :: es) b) :
    M.Blocked b := by
  cases h with
  | cons hstop hrest => exact hrest.keeps_blocked hstop.2

end Machine
end LzmaTurbo.Supplies
