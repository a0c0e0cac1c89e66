import LzmaTurbo.Lib.ExactCoder

/-!
# The operations that answer a program

An encoder that knows the value picks the path of the program that returns it. Its models may
be kept elsewhere than the decoder's: `φ` is the decoder's name of a model, `T` says which the
encoder has. A coder whose interval holds the bytes runs the program to that value and stands in
the interval after those operations.
-/
namespace LzmaTurbo.ExactCoder
open BitProgram RangeDecoder

variable {σ τ α β : Type} {T : σ → Prop} {φ : σ → τ}

/-- The operations answer the questions of the program, which then returns `a`. -/
inductive Path (T : σ → Prop) (φ : σ → τ) : Prog τ α → List (Op σ) → α → Prop
  | pure (a : α) : Path T φ (.pure a) [] a
  | bit {slot : σ} {i : τ} {next : Bool → Prog τ α} {b : Bool} {os : List (Op σ)} {a : α} :
      T slot → φ slot = i → Path T φ (next b) os a →
      Path T φ (.bit i next) (.bit slot b :: os) a
  | direct {next : Bool → Prog τ α} {b : Bool} {os : List (Op σ)} {a : α} :
      Path T φ (next b) os a → Path T φ (.direct next) (.direct b :: os) a

theorem Path.bind {p : Prog τ α} {f : α → Prog τ β} {os os' : List (Op σ)} {a : α} {r : β}
    (h : Path T φ p os a) (h' : Path T φ (f a) os' r) : Path T φ (p.bind f) (os ++ os') r := by
  induction h with
  | pure a => exact h'
  | bit ht hi _ ih => exact .bit ht hi (ih h')
  | direct _ ih => exact .direct (ih h')

theorem Path.map {p : Prog τ α} {os : List (Op σ)} {a : α} (h : Path T φ p os a) (g : α → β) :
    Path T φ (p.bind fun a => .pure (g a)) os (g a) := by
  have h' := h.bind (f := fun a => .pure (g a)) (Path.pure (g a))
  rwa [List.append_nil] at h'

/-- The same operation under another name. -/
def Op.map (φ : σ → τ) : Op σ → Op τ
  | .bit slot b => .bit (φ slot) b
  | .direct b => .direct b

def Op.In (T : σ → Prop) : Op σ → Prop
  | .bit slot _ => T slot
  | .direct _ => True

theorem Path.inTable {p : Prog τ α} {os : List (Op σ)} {a : α} (h : Path T φ p os a) :
    ∀ o ∈ os, o.In T := by
  induction h with
  | pure a => exact fun o ho => absurd ho List.not_mem_nil
  | bit ht hi _ ih => exact List.forall_mem_cons.mpr ⟨ht, ih⟩
  | direct _ ih => exact List.forall_mem_cons.mpr ⟨trivial, ih⟩

/-- The models of a part are models of the whole. -/
theorem Path.embed {ρ : Type} {S : ρ → Prop} {ψ : ρ → τ} {f : σ → ρ} {p : Prog τ α}
    {os : List (Op σ)} {a : α} (h : Path T φ p os a) (hT : ∀ s, T s → S (f s))
    (hφ : ∀ s, ψ (f s) = φ s) : Path S ψ p (os.map (Op.map f)) a := by
  induction h with
  | pure a => exact .pure a
  | bit ht hi _ ih => exact .bit (hT _ ht) ((hφ _).trans hi) ih
  | direct _ ih => exact .direct ih

variable [DecidableEq τ]

/-- The decoder follows the path and stands in the interval the encoder has reached. -/
theorem Exact.Reads.path {p : Prog τ α} {os : List (Op σ)} {a : α} (hp : Path T φ p os a)
    {e : Exact τ} {xs rest rest₀ : List UInt8} {c c₀ : Coder τ} (he : e.Ok)
    (hn : normalize c₀ rest₀ = some (c, rest)) (hc : e.Reads xs c rest)
    (h : (e.ops (os.map (Op.map φ))).Holds xs) : ∃ d ys c' rest',
      RangeDecoder.run p c₀ rest₀ = .done a d ys ∧
      normalize d ys = some (c', rest') ∧ (e.ops (os.map (Op.map φ))).Reads xs c' rest' := by
  induction hp generalizing e c rest c₀ rest₀ with
  | pure a => exact ⟨c₀, rest₀, c, rest, rfl, hn, hc⟩
  | @bit slot i next b os a ht hi hpath ih =>
      subst hi
      have hop : (e.op (.bit (φ slot) b)).Holds xs := Exact.Holds.of_ops h (he.op _)
      obtain ⟨hb, hread⟩ := hc.bit hop.of_widen
      obtain ⟨c₁, rest₁, hn₁, hread₁⟩ := hread.widen hop
      obtain ⟨d, ys, c', rest', hrun, hn', hread'⟩ := ih (he.op _) hn₁ hread₁ h
      refine ⟨d, ys, c', rest', ?_, hn', hread'⟩
      simp only [RangeDecoder.run, hn]
      rw [hb] at hrun ⊢
      exact hrun
  | @direct next b os a hpath ih =>
      have hop : (e.op (.direct b)).Holds xs := Exact.Holds.of_ops h (he.op _)
      obtain ⟨hb, hread⟩ := hc.direct he hop.of_widen
      obtain ⟨c₁, rest₁, hn₁, hread₁⟩ := hread.widen hop
      obtain ⟨d, ys, c', rest', hrun, hn', hread'⟩ := ih (he.op _) hn₁ hread₁ h
      refine ⟨d, ys, c', rest', ?_, hn', hread'⟩
      simp only [RangeDecoder.run, hn]
      rw [hb]
      exact hrun

end LzmaTurbo.ExactCoder
