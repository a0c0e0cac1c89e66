import Mathlib.Data.List.Basic
import Mathlib.Tactic.Linarith

/-!
# Machines that read a stream

A step looks at the unread input and either needs more of it, gives a verdict,
or goes to a further state and leaves the rest. When a step decided by a prefix
is not undone by what follows, it does not matter in which pieces the input
comes; that is all a streaming reader has to be compared with.
-/
namespace LzmaTurbo.StreamMachine

inductive Step (σ ρ β : Type) where
  | more
  | reject
  | mark (r : ρ) (rest : List β)
  | next (s : σ) (rest : List β)

inductive Verdict (ρ : Type) where
  | more
  | reject
  | mark (r : ρ)

def Verdict.decided {ρ : Type} : Verdict ρ → Bool
  | .more => false
  | _ => true

/-- Where a run ends, what it leaves unread, and why it ends. -/
structure Result (σ ρ β : Type) where
  last : σ
  rest : List β
  verdict : Verdict ρ

variable {σ ρ β : Type}

def Step.append (zs : List β) : Step σ ρ β → Step σ ρ β
  | .next s ys => .next s (ys ++ zs)
  | .mark r ys => .mark r (ys ++ zs)
  | .more => .more
  | .reject => .reject

def loop (step : σ → List β → Step σ ρ β) : ℕ → σ → List β → Result σ ρ β
  | 0, s, xs => ⟨s, xs, .more⟩
  | fuel + 1, s, xs =>
      match step s xs with
      | .more => ⟨s, xs, .more⟩
      | .reject => ⟨s, xs, .reject⟩
      | .mark r rest => ⟨s, rest, .mark r⟩
      | .next s rest => loop step fuel s rest

def run (step : σ → List β → Step σ ρ β) (measure : σ → List β → ℕ) (s : σ) (xs : List β) :
    Result σ ρ β :=
  loop step (measure s xs + 1) s xs

/-- Some whole number of steps, each from a state in `P`. -/
inductive Moves (P : σ → Prop) (step : σ → List β → Step σ ρ β) : σ → List β → σ → List β → Prop
  | refl (s : σ) (xs : List β) : Moves P step s xs s xs
  | step {s s₁ s₂ : σ} {xs ys zs : List β} : P s → step s xs = .next s₁ ys →
      Moves P step s₁ ys s₂ zs → Moves P step s xs s₂ zs

/-- What the rules below need of a machine: a step decides on the bytes it
consumes, keeps `Ok`, and comes nearer the end. -/
structure Lawful (step : σ → List β → Step σ ρ β) (Ok : σ → Prop) (measure : σ → List β → ℕ) :
    Prop where
  append : ∀ {s xs} (zs), step s xs ≠ .more → step s (xs ++ zs) = (step s xs).append zs
  split : ∀ {s s' xs ys}, step s xs = .next s' ys →
    ∃ us, xs = us ++ ys ∧ step s us = .next s' []
  next : ∀ {s s' xs ys}, Ok s → step s xs = .next s' ys → Ok s' ∧ measure s' ys < measure s xs

variable {step : σ → List β → Step σ ρ β} {Ok P Q : σ → Prop} {measure : σ → List β → ℕ}
  {s s₁ s₂ : σ} {xs ys zs : List β}

theorem Moves.single (hp : P s) (h : step s xs = .next s₁ ys) : Moves P step s xs s₁ ys :=
  .step hp h (.refl _ _)

theorem Moves.trans (h₁ : Moves P step s xs s₁ ys) (h₂ : Moves P step s₁ ys s₂ zs) :
    Moves P step s xs s₂ zs := by
  induction h₁ with
  | refl => exact h₂
  | step hp hs _ ih => exact .step hp hs (ih h₂)

theorem Moves.mono (hPQ : ∀ s, P s → Q s) (h : Moves P step s xs s₁ ys) :
    Moves Q step s xs s₁ ys := by
  induction h with
  | refl => exact .refl _ _
  | step hp hs _ ih => exact .step (hPQ _ hp) hs ih

theorem Moves.ok (L : Lawful step Ok measure) (h : Moves P step s xs s₁ ys) (hs : Ok s) :
    Ok s₁ := by
  induction h with
  | refl => exact hs
  | step _ hs' _ ih => exact ih (L.next hs hs').1

theorem Moves.append (L : Lawful step Ok measure) (h : Moves P step s xs s₁ ys) (zs : List β) :
    Moves P step s (xs ++ zs) s₁ (ys ++ zs) := by
  induction h with
  | refl => exact .refl _ _
  | step hp hs _ ih =>
      refine .step hp ?_ ih
      rw [L.append zs (by rw [hs]; simp), hs]
      rfl

/-- The steps looked only at the bytes they consumed. -/
theorem Moves.split (L : Lawful step Ok measure) (h : Moves P step s xs s₁ ys) :
    ∃ us, xs = us ++ ys ∧ Moves P step s us s₁ [] := by
  induction h with
  | refl => exact ⟨[], rfl, .refl _ _⟩
  | step hp hs _ ih =>
      obtain ⟨vs, hvs, hv⟩ := L.split hs
      obtain ⟨us, hus, hu⟩ := ih
      refine ⟨vs ++ us, by rw [hvs, hus, List.append_assoc], .step hp ?_ hu⟩
      rw [L.append us (by rw [hv]; simp), hv]
      rfl

/-- The bytes not yet handed over were not looked at. -/
theorem Moves.given {temp rest : List β} (L : Lawful step Ok measure)
    (h : Moves P step s xs s₁ (temp ++ rest)) :
    ∃ given, xs = given ++ rest ∧ Moves P step s given s₁ temp := by
  obtain ⟨us, hus, hm⟩ := h.split L
  exact ⟨us ++ temp, by rw [hus, List.append_assoc], by simpa using hm.append L temp⟩

/-- Enough fuel is enough. -/
theorem Lawful.loop_fuel (L : Lawful step Ok measure) (hs : Ok s) {m n : ℕ}
    (hm : measure s xs < m) (hn : measure s xs < n) : loop step m s xs = loop step n s xs := by
  induction m generalizing s xs n with
  | zero => omega
  | succ m ih =>
      obtain ⟨n, rfl⟩ : ∃ k, n = k + 1 := ⟨n - 1, by omega⟩
      simp only [loop]
      cases h : step s xs with
      | next s' ys =>
          obtain ⟨hs', hlt⟩ := L.next hs h
          exact ih hs' (by omega) (by omega)
      | _ => rfl

/-- A run is its own unfolding. -/
theorem Lawful.run_eq (L : Lawful step Ok measure) (hs : Ok s) (xs : List β) :
    run step measure s xs = match step s xs with
      | .more => ⟨s, xs, .more⟩
      | .reject => ⟨s, xs, .reject⟩
      | .mark r rest => ⟨s, rest, .mark r⟩
      | .next s' rest => run step measure s' rest := by
  unfold run
  rw [loop]
  cases h : step s xs with
  | next s' ys =>
      obtain ⟨hs', hlt⟩ := L.next hs h
      exact L.loop_fuel hs' hlt (by omega)
  | _ => rfl

theorem Moves.run_eq (L : Lawful step Ok measure) (h : Moves P step s xs s₁ ys) (hs : Ok s) :
    run step measure s xs = run step measure s₁ ys := by
  induction h with
  | refl => rfl
  | step _ hs' _ ih =>
      rw [L.run_eq hs, hs']
      exact ih (L.next hs hs').1

/-- A run is some steps and then one that does not go on. -/
theorem Lawful.run_moves (L : Lawful step Ok measure) (hs : Ok s) (xs : List β) :
    ∃ ys, Moves (fun _ => True) step s xs (run step measure s xs).last ys ∧
      match (run step measure s xs).verdict with
      | .more => step (run step measure s xs).last ys = .more
      | .reject => step (run step measure s xs).last ys = .reject
      | .mark r => step (run step measure s xs).last ys = .mark r (run step measure s xs).rest := by
  generalize hn : measure s xs = n
  induction n using Nat.strong_induction_on generalizing s xs with
  | _ n ih =>
      rw [L.run_eq hs]
      cases h : step s xs with
      | next s' ys =>
          obtain ⟨hs', hlt⟩ := L.next hs h
          obtain ⟨zs, hm, hrest⟩ := ih _ (hn ▸ hlt) hs' ys rfl
          exact ⟨zs, .step trivial h hm, hrest⟩
      | more => exact ⟨xs, .refl _ _, h⟩
      | reject => exact ⟨xs, .refl _ _, h⟩
      | mark r rest => exact ⟨xs, .refl _ _, h⟩

/-- A verdict reached in a few steps is the run's verdict. -/
theorem Lawful.run_of_loop (L : Lawful step Ok measure) (hs : Ok s) {n : ℕ}
    (h : (loop step n s xs).verdict.decided = true) : run step measure s xs = loop step n s xs := by
  induction n generalizing s xs with
  | zero => cases h
  | succ n ih =>
      rw [L.run_eq hs]
      rw [loop] at h ⊢
      cases hs' : step s xs with
      | next s' ys =>
          simp only [hs'] at h
          exact ih (L.next hs hs').1 h
      | _ => rfl

end LzmaTurbo.StreamMachine
