import Mathlib.Logic.Function.Basic
import Mathlib.Tactic.Ring
import Mathlib.Tactic.Linarith

/-!
# Adaptive bit programs and the binary range decoder that runs them

A program asks for one bit at a time, each either from a named adaptive model
or with equal odds, and its next question may depend on every bit so far. The
decoder below keeps an interval of 32 bits and one probability of 11 bits for
each model, refills one byte whenever the interval falls below `2^24`, and
stops with `more` when that byte is missing. Nothing here knows which format
the programs describe.
-/
namespace LzmaTurbo.BitProgram

/-- A decision tree over adaptive bits; `fail` is a branch the format forbids. -/
inductive Prog (σ : Type) (α : Type) where
  | pure (a : α) : Prog σ α
  | fail : Prog σ α
  | bit (slot : σ) (next : Bool → Prog σ α) : Prog σ α
  | direct (next : Bool → Prog σ α) : Prog σ α

namespace Prog
variable {σ α β : Type}

def bind : Prog σ α → (α → Prog σ β) → Prog σ β
  | .pure a, f => f a
  | .fail, _ => .fail
  | .bit slot next, f => .bit slot (fun b => (next b).bind f)
  | .direct next, f => .direct (fun b => (next b).bind f)

theorem bind_pure (p : Prog σ α) : p.bind .pure = p := by
  induction p with
  | pure a => rfl
  | fail => rfl
  | bit slot next ih => simp only [bind, ih]
  | direct next ih => simp only [bind, ih]

/-- Every model the program can ask for satisfies `S`. -/
def Slots (S : σ → Prop) : Prog σ α → Prop
  | .pure _ => True
  | .fail => True
  | .bit slot next => S slot ∧ ∀ b, (next b).Slots S
  | .direct next => ∀ b, (next b).Slots S

/-- No path asks the same model twice. -/
def Once : Prog σ α → Prop
  | .pure _ => True
  | .fail => True
  | .bit slot next => ∀ b, (next b).Slots (· ≠ slot) ∧ (next b).Once
  | .direct next => ∀ b, (next b).Once

/-- No path reaches a forbidden branch. -/
def Total : Prog σ α → Prop
  | .pure _ => True
  | .fail => False
  | .bit _ next => ∀ b, (next b).Total
  | .direct next => ∀ b, (next b).Total

/-- Every path costs at most `n` hundredths of a bit, where a modelled bit is
charged 6.05 bits (its least probability is 31/2048) and a direct one 1.01. -/
def Within : ℕ → Prog σ α → Prop
  | _, .pure _ => True
  | _, .fail => True
  | n, .bit _ next => 605 ≤ n ∧ ∀ b, (next b).Within (n - 605)
  | n, .direct next => 101 ≤ n ∧ ∀ b, (next b).Within (n - 101)

/-- Every value the program can return satisfies `P`. -/
def Returns (P : α → Prop) : Prog σ α → Prop
  | .pure a => P a
  | .fail => True
  | .bit _ next => ∀ b, (next b).Returns P
  | .direct next => ∀ b, (next b).Returns P

theorem Slots.mono {S T : σ → Prop} {p : Prog σ α} (h : p.Slots S)
    (hST : ∀ i, S i → T i) : p.Slots T := by
  induction p with
  | pure a => trivial
  | fail => trivial
  | bit slot next ih => exact ⟨hST _ h.1, fun b => ih b (h.2 b)⟩
  | direct next ih => exact fun b => ih b (h b)

theorem Slots.and {S T : σ → Prop} {p : Prog σ α} (hS : p.Slots S) (hT : p.Slots T) :
    p.Slots (fun i => S i ∧ T i) := by
  induction p with
  | pure a => trivial
  | fail => trivial
  | bit slot next ih => exact ⟨⟨hS.1, hT.1⟩, fun b => ih b (hS.2 b) (hT.2 b)⟩
  | direct next ih => exact fun b => ih b (hS b) (hT b)

theorem Returns.mono {P Q : α → Prop} {p : Prog σ α} (h : p.Returns P)
    (hPQ : ∀ a, P a → Q a) : p.Returns Q := by
  induction p with
  | pure a => exact hPQ a h
  | fail => trivial
  | bit slot next ih => exact fun b => ih b (h b)
  | direct next ih => exact fun b => ih b (h b)

theorem returns_true (p : Prog σ α) : p.Returns fun _ => True := by
  induction p with
  | pure a => trivial
  | fail => trivial
  | bit slot next ih => exact ih
  | direct next ih => exact ih

theorem Slots.bind {S : σ → Prop} {P : α → Prop} {p : Prog σ α} {f : α → Prog σ β}
    (hp : p.Slots S) (hr : p.Returns P) (hf : ∀ a, P a → (f a).Slots S) :
    (p.bind f).Slots S := by
  induction p with
  | pure a => exact hf a hr
  | fail => trivial
  | bit slot next ih => exact ⟨hp.1, fun b => ih b (hp.2 b) (hr b)⟩
  | direct next ih => exact fun b => ih b (hp b) (hr b)

/-- Two programs that ask disjoint sets of models may follow each other. -/
theorem Once.bind {S T : σ → Prop} {P : α → Prop} {p : Prog σ α} {f : α → Prog σ β}
    (hp : p.Once) (hS : p.Slots S) (hr : p.Returns P)
    (hf : ∀ a, P a → (f a).Once ∧ (f a).Slots T) (hST : ∀ i, S i → ¬ T i) :
    (p.bind f).Once := by
  induction p with
  | pure a => exact (hf a hr).1
  | fail => trivial
  | bit slot next ih =>
      intro b
      refine ⟨Slots.bind (hp b).1 (hr b) ?_, ih b (hp b).2 (hS.2 b) (hr b)⟩
      intro a ha
      exact (hf a ha).2.mono (fun i hi he => hST slot hS.1 (he ▸ hi))
  | direct next ih => exact fun b => ih b (hp b) (hS b) (hr b)

theorem Total.bind {P : α → Prop} {p : Prog σ α} {f : α → Prog σ β}
    (hp : p.Total) (hr : p.Returns P) (hf : ∀ a, P a → (f a).Total) :
    (p.bind f).Total := by
  induction p with
  | pure a => exact hf a hr
  | fail => exact hp.elim
  | bit slot next ih => exact fun b => ih b (hp b) (hr b)
  | direct next ih => exact fun b => ih b (hp b) (hr b)

theorem Returns.bind {P : α → Prop} {Q : β → Prop} {p : Prog σ α} {f : α → Prog σ β}
    (hr : p.Returns P) (hf : ∀ a, P a → (f a).Returns Q) : (p.bind f).Returns Q := by
  induction p with
  | pure a => exact hf a hr
  | fail => trivial
  | bit slot next ih => exact fun b => ih b (hr b)
  | direct next ih => exact fun b => ih b (hr b)

theorem Within.mono {p : Prog σ α} {m n : ℕ} (h : p.Within m) (hmn : m ≤ n) :
    p.Within n := by
  induction p generalizing m n with
  | pure a => trivial
  | fail => trivial
  | bit slot next ih => exact ⟨h.1.trans hmn, fun b => ih b (h.2 b) (by omega)⟩
  | direct next ih => exact ⟨h.1.trans hmn, fun b => ih b (h.2 b) (by omega)⟩

theorem Within.bind {P : α → Prop} {p : Prog σ α} {f : α → Prog σ β} {m n : ℕ}
    (hp : p.Within m) (hr : p.Returns P) (hf : ∀ a, P a → (f a).Within n) :
    (p.bind f).Within (m + n) := by
  induction p generalizing m with
  | pure a => exact (hf a hr).mono (by omega)
  | fail => trivial
  | bit slot next ih =>
      refine ⟨by have := hp.1; omega, fun b => ?_⟩
      have h := ih b (hp.2 b) (hr b)
      have := hp.1
      rwa [show m - 605 + n = m + n - 605 by omega] at h
  | direct next ih =>
      refine ⟨by have := hp.1; omega, fun b => ?_⟩
      have h := ih b (hp.2 b) (hr b)
      have := hp.1
      rwa [show m - 101 + n = m + n - 101 by omega] at h

/-- What a caller needs to know of a program it does not look into. -/
structure Spec (S : σ → Prop) (P : α → Prop) (n : ℕ) (p : Prog σ α) : Prop where
  slots : p.Slots S
  once : p.Once
  total : p.Total
  within : p.Within n
  returns : p.Returns P

theorem Spec.mono {S S' : σ → Prop} {P P' : α → Prop} {m n : ℕ} {p : Prog σ α}
    (h : p.Spec S P m) (hS : ∀ i, S i → S' i) (hP : ∀ a, P a → P' a) (hn : m ≤ n) :
    p.Spec S' P' n :=
  ⟨h.slots.mono hS, h.once, h.total, h.within.mono hn, h.returns.mono hP⟩

theorem Spec.pure {P : α → Prop} {a : α} (h : P a) :
    (Prog.pure a : Prog σ α).Spec (fun _ => False) P 0 :=
  ⟨trivial, trivial, trivial, trivial, h⟩

theorem Spec.bit {S : σ → Prop} {P : α → Prop} {n : ℕ} {slot : σ} {next : Bool → Prog σ α}
    (h : ∀ b, (next b).Spec S P n) (hs : ¬ S slot) :
    (Prog.bit slot next).Spec (fun i => i = slot ∨ S i) P (n + 605) where
  slots := ⟨.inl rfl, fun b => (h b).slots.mono fun _ hi => .inr hi⟩
  once := fun b => ⟨(h b).slots.mono fun i hi he => hs (he ▸ hi), (h b).once⟩
  total := fun b => (h b).total
  within := ⟨by omega, fun b => (h b).within.mono (by omega)⟩
  returns := fun b => (h b).returns

theorem Spec.bind {S T : σ → Prop} {P : α → Prop} {Q : β → Prop} {m n : ℕ} {p : Prog σ α}
    {f : α → Prog σ β} (hp : p.Spec S P m) (hf : ∀ a, P a → (f a).Spec T Q n)
    (hST : ∀ i, S i → ¬ T i) : (p.bind f).Spec (fun i => S i ∨ T i) Q (m + n) where
  slots := Slots.bind (hp.slots.mono fun _ hi => .inl hi) hp.returns
    fun a ha => (hf a ha).slots.mono fun _ hi => .inr hi
  once := Once.bind hp.once hp.slots hp.returns
    (fun a ha => ⟨(hf a ha).once, (hf a ha).slots⟩) hST
  total := Total.bind hp.total hp.returns fun a ha => (hf a ha).total
  within := Within.bind hp.within hp.returns fun a ha => (hf a ha).within
  returns := Returns.bind hp.returns fun a ha => (hf a ha).returns

theorem Spec.map {S : σ → Prop} {P : α → Prop} {Q : β → Prop} {m : ℕ} {p : Prog σ α}
    (g : α → β) (hp : p.Spec S P m) (hg : ∀ a, P a → Q (g a)) :
    (p.bind fun a => .pure (g a)).Spec S Q m :=
  (hp.bind (fun a ha => Spec.pure (hg a ha)) (fun _ _ h => h)).mono
    (fun _ hi => hi.elim id False.elim) (fun _ h => h) le_rfl

end Prog
end LzmaTurbo.BitProgram
