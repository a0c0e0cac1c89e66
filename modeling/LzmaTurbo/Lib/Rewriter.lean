import Mathlib.Data.List.Basic
import Mathlib.Data.Nat.Notation
import Mathlib.Tactic.Linarith

/-!
# Rewriting a list from the front

A rewriter looks at what is left of a list and either replaces a few items at its
front, as many as it takes away, or waits for more items. What it did with few items
it does with more, so a list may come in pieces.
-/
namespace LzmaTurbo

/-- A step gives the replaced items and the next state, or nothing. -/
structure Rewriter (α σ : Type) where
  step : σ → List α → Option (List α × σ)
  pos : ∀ {s xs out s'}, step s xs = some (out, s') → 0 < out.length
  le : ∀ {s xs out s'}, step s xs = some (out, s') → out.length ≤ xs.length
  stable : ∀ {s xs r} (ys), step s xs = some r → step s (xs ++ ys) = some r

namespace Rewriter

variable {α σ : Type} (m : Rewriter α σ)

/-- At most so many steps; what is left stays as it is. -/
def steps : ℕ → σ → List α → List α
  | 0, _, xs => xs
  | n + 1, s, xs =>
      match m.step s xs with
      | none => xs
      | some (out, s') => out ++ steps n s' (xs.drop out.length)

/-- The whole list rewritten. -/
def whole (s : σ) (xs : List α) : List α := m.steps xs.length s xs

/-- From `s` and `xs` on, `out` is given and `s'` and `left` are what remains. -/
inductive Reaches : σ → List α → List α → σ → List α → Prop
  | refl (s : σ) (xs : List α) : Reaches s xs [] s xs
  | step {s xs o s1 out s' left} : m.step s xs = some (o, s1) →
      Reaches s1 (xs.drop o.length) out s' left → Reaches s xs (o ++ out) s' left

/-- Nothing that is left will be changed. -/
def Settled (s : σ) (left : List α) : Prop := m.whole s left = left

variable {m} {s s' s'' : σ} {xs ys zs out out' left o left' : List α} {n k : ℕ}

theorem steps_none (h : m.step s xs = none) : m.steps n s xs = xs := by
  cases n with
  | zero => rfl
  | succ n => simp [steps, h]

theorem steps_some (h : m.step s xs = some (o, s')) :
    m.steps (n + 1) s xs = o ++ m.steps n s' (xs.drop o.length) := by
  simp [steps, h]

/-- More steps than items change nothing. -/
theorem steps_fuel (hn : xs.length ≤ n) (hk : xs.length ≤ k) :
    m.steps n s xs = m.steps k s xs := by
  induction n generalizing k s xs with
  | zero =>
      have hxs : xs = [] := List.eq_nil_of_length_eq_zero (Nat.le_zero.mp hn)
      subst hxs
      have hnone : m.step s [] = none := by
        rcases hr : m.step s [] with _ | ⟨o, s1⟩
        · rfl
        · have h1 := m.pos hr
          have h2 := m.le hr
          rw [List.length_nil] at h2
          omega
      rw [steps_none hnone, steps_none hnone]
  | succ n ih =>
      rcases hr : m.step s xs with _ | ⟨o, s1⟩
      · rw [steps_none hr, steps_none hr]
      · have hpos := m.pos hr
        have hle := m.le hr
        obtain ⟨k, rfl⟩ : ∃ k', k = k' + 1 := ⟨k - 1, by omega⟩
        have hn' : (xs.drop o.length).length ≤ n := by
          rw [List.length_drop]
          omega
        have hk' : (xs.drop o.length).length ≤ k := by
          rw [List.length_drop]
          omega
        rw [steps_some hr, steps_some hr, ih hn' hk']

theorem whole_none (h : m.step s xs = none) : m.whole s xs = xs := steps_none h

theorem whole_some (h : m.step s xs = some (o, s')) :
    m.whole s xs = o ++ m.whole s' (xs.drop o.length) := by
  have hpos := m.pos h
  have hle := m.le h
  unfold whole
  obtain ⟨n, hn⟩ : ∃ n, xs.length = n + 1 := ⟨xs.length - 1, by omega⟩
  rw [hn, steps_some h]
  exact congrArg (o ++ ·) (steps_fuel (by rw [List.length_drop]; omega) le_rfl)

theorem settled_none (h : m.step s xs = none) : m.Settled s xs := whole_none h

theorem whole_nil : m.whole s [] = [] := rfl

@[simp] theorem length_whole (s : σ) (xs : List α) : (m.whole s xs).length = xs.length := by
  induction hn : xs.length using Nat.strong_induction_on generalizing s xs with
  | _ n ih =>
      rcases hr : m.step s xs with _ | ⟨o, s1⟩
      · rw [whole_none hr, hn]
      · have hpos := m.pos hr
        have hle := m.le hr
        rw [whole_some hr, List.length_append,
          ih (xs.drop o.length).length (by rw [List.length_drop]; omega) _ _ rfl,
          List.length_drop]
        omega

namespace Reaches

theorem one (h : m.step s xs = some (o, s')) : m.Reaches s xs o s' (xs.drop o.length) := by
  simpa using Reaches.step h (Reaches.refl s' (xs.drop o.length))

theorem trans (h : m.Reaches s xs out s' left) (h' : m.Reaches s' left out' s'' left') :
    m.Reaches s xs (out ++ out') s'' left' := by
  induction h with
  | refl => exact h'
  | step hs _ ih =>
      rw [List.append_assoc]
      exact .step hs (ih h')

theorem whole_eq (h : m.Reaches s xs out s' left) : m.whole s xs = out ++ m.whole s' left := by
  induction h with
  | refl => rfl
  | step hs _ ih => rw [whole_some hs, ih, List.append_assoc]

theorem length_eq (h : m.Reaches s xs out s' left) :
    out.length + left.length = xs.length := by
  induction h with
  | refl => simp
  | @step s xs o s1 out s' left hs _ ih =>
      have hle := m.le hs
      rw [List.length_drop] at ih
      rw [List.length_append]
      omega

/-- Steps of whole units give whole units. -/
theorem length_mod {a : ℕ} (hm : ∀ {s xs o s'}, m.step s xs = some (o, s') → o.length % a = 0)
    (h : m.Reaches s xs out s' left) : out.length % a = 0 := by
  induction h with
  | refl => exact Nat.zero_mod a
  | step hs _ ih =>
      rw [List.length_append, Nat.add_mod, hm hs, ih, Nat.zero_add, Nat.zero_mod]

/-- With more items the same steps are made. -/
theorem append (h : m.Reaches s xs out s' left) (ys : List α) :
    m.Reaches s (xs ++ ys) out s' (left ++ ys) := by
  induction h with
  | refl s xs => exact .refl s _
  | @step s xs o s1 out s' left hs _ ih =>
      have hdrop : (xs ++ ys).drop o.length = xs.drop o.length ++ ys :=
        List.drop_append_of_le_length (m.le hs)
      exact .step (m.stable ys hs) (by rw [hdrop]; exact ih)

/-- A list in two pieces: what is left of the first goes before the second. -/
theorem pieces (h : m.Reaches s xs out s' left)
    (h' : m.Reaches s' (left ++ ys) out' s'' left') :
    m.Reaches s (xs ++ ys) (out ++ out') s'' left' := (h.append ys).trans h'

theorem settled_whole (h : m.Reaches s xs out s' left) (hl : m.Settled s' left) :
    m.whole s xs = out ++ left := by
  rw [h.whole_eq, hl]

/-- A rewriter that has come to a stop did so in one way. -/
theorem unique (h : m.Reaches s xs out s' left) (h' : m.Reaches s xs out' s'' left')
    (hn : m.step s' left = none) (hn' : m.step s'' left' = none) :
    out = out' ∧ s' = s'' ∧ left = left' := by
  induction h generalizing out' with
  | refl =>
      cases h' with
      | refl => exact ⟨rfl, rfl, rfl⟩
      | step hs _ =>
          rw [hn] at hs
          cases hs
  | step hs _ ih =>
      cases h' with
      | refl =>
          rw [hn'] at hs
          cases hs
      | step hs' hrest =>
          rw [hs] at hs'
          cases hs'
          obtain ⟨rfl, rfl, rfl⟩ := ih hrest hn
          exact ⟨rfl, rfl, rfl⟩

end Reaches

/-- One rewriter undoes another if it undoes each step, whatever the other makes of the rest. -/
theorem undo {e d : Rewriter α σ} (inv : σ → Prop)
    (hinv : ∀ {s xs out s'}, inv s → e.step s xs = some (out, s') → inv s')
    (hstep : ∀ {s xs out s'}, inv s → e.step s xs = some (out, s') →
      d.step s (out ++ e.whole s' (xs.drop out.length)) = some (xs.take out.length, s'))
    (hnone : ∀ {s xs}, inv s → e.step s xs = none → d.Settled s xs) {s : σ} (hs : inv s)
    (xs : List α) : d.whole s (e.whole s xs) = xs := by
  induction hn : xs.length using Nat.strong_induction_on generalizing s xs with
  | _ n ih =>
      rcases hr : e.step s xs with _ | ⟨o, s1⟩
      · rw [whole_none hr]
        exact hnone hs hr
      · have hpos := e.pos hr
        have hle := e.le hr
        have htake : (xs.take o.length).length = o.length := by
          rw [List.length_take]
          omega
        rw [whole_some hr, whole_some (hstep hs hr), htake, List.drop_left,
          ih (xs.drop o.length).length (by rw [List.length_drop]; omega) (hinv hs hr) _ rfl,
          List.take_append_drop]

end Rewriter

end LzmaTurbo
