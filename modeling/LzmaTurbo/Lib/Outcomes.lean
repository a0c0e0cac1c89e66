import Mathlib.Init

/-!
# How a stateful call ends

Calls that thread a state and stop at their first error. `Ends` says of a call what holds of
its value and the state when it goes through, and what holds of the state when it does not.
-/
namespace LzmaTurbo.Outcomes

variable {ε σ α β : Type}

/-- From `s` the call ends well as `Q` allows, or with an error in a state that `E` allows. -/
def Ends (m : ExceptT ε (StateM σ) α) (s : σ) (Q : α → σ → Prop) (E : σ → Prop) : Prop :=
  match m s with
  | (.ok a, s') => Q a s'
  | (.error _, s') => E s'

variable {m : ExceptT ε (StateM σ) α} {f : α → ExceptT ε (StateM σ) β} {s : σ}
  {Q R : α → σ → Prop} {E F : σ → Prop}

theorem Ends.mono (h : Ends m s R F) (hQ : ∀ a s', R a s' → Q a s') (hE : ∀ s', F s' → E s') :
    Ends m s Q E := by
  unfold Ends at h ⊢
  split <;> rename_i hm <;> rw [hm] at h
  · exact hQ _ _ h
  · exact hE _ h

theorem Ends.ok (h : Ends m s Q E) {a : α} {s' : σ} (hm : m s = (.ok a, s')) : Q a s' := by
  unfold Ends at h
  rwa [hm] at h

theorem Ends.error (h : Ends m s Q E) {e : ε} {s' : σ} (hm : m s = (.error e, s')) : E s' := by
  unfold Ends at h
  rwa [hm] at h

theorem ends_of_eq {a : α} {s' : σ} (hm : m s = (.ok a, s')) (h : Q a s') : Ends m s Q E := by
  unfold Ends
  rwa [hm]

theorem ends_pure {a : α} (h : Q a s) : Ends (pure a : ExceptT ε (StateM σ) α) s Q E := h

theorem ends_throw {e : ε} (h : E s) : Ends (throw e : ExceptT ε (StateM σ) α) s Q E := h

theorem ends_modify {g : σ → σ} {Q : PUnit → σ → Prop} (h : Q ⟨⟩ (g s)) :
    Ends (modify g : ExceptT ε (StateM σ) PUnit) s Q E := h

theorem ends_ofExcept {r : Except ε α} (hok : ∀ a, r = .ok a → Q a s)
    (herror : ∀ e, r = .error e → E s) :
    Ends (MonadExcept.ofExcept r : ExceptT ε (StateM σ) α) s Q E := by
  cases r with
  | ok a => exact hok a rfl
  | error e => exact herror e rfl

/-- The two parts of a sequence meet at what the first leaves behind. -/
theorem Ends.bind {Q : β → σ → Prop} (h : Ends m s R E)
    (hf : ∀ a s', R a s' → Ends (f a) s' Q E) : Ends (m >>= f) s Q E := by
  have hbind : (m >>= f) s = ExceptT.bindCont f (m s).1 (m s).2 := rfl
  unfold Ends at h ⊢
  rw [hbind]
  split at h <;> rename_i hm <;> rw [hm]
  · exact hf _ _ h
  · exact h

theorem ends_get {f : σ → ExceptT ε (StateM σ) β} {Q : β → σ → Prop}
    (h : Ends (f s) s Q E) : Ends (get >>= f) s Q E := h

end LzmaTurbo.Outcomes
