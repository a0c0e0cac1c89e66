import LzmaTurbo.Mt.MtCoderSteps
import Mathlib.Data.Finset.Card
import Mathlib.Data.Finset.Range

/-!
# The workers

Each worker starts at most one more for a block that it reads, all are counted when they leave,
and the last one to be counted is the one that sets the event.
-/
namespace LzmaTurbo.Mt

/-- Counted among the finished. -/
def Phase.counted {E : Type} : Phase E → Bool
  | .out _ | .gone => true
  | _ => false

namespace Run
variable {E : Type} {c : MtCoder} {w w' : Run E} {i : ℕ} {reply : Reply E}
variable {T T' : ℕ → Option (Entry E)}

/-- The workers that have been counted. -/
def finishers (w : Run E) : Finset ℕ :=
  (Finset.range w.numStartedThreads).filter fun k => (w.threads k).counted = true

theorem mem_finishers {k : ℕ} :
    k ∈ w.finishers ↔ k < w.numStartedThreads ∧ (w.threads k).counted = true := by
  unfold finishers
  rw [Finset.mem_filter, Finset.mem_range]

/-- What is known of who has started and who has finished. -/
structure Crew (c : MtCoder) (w : Run E) : Prop where
  one : 0 < w.numStartedThreads
  limit : w.numStartedThreads ≤ c.numThreads
  idle : ∀ k, w.threads k = .idle ↔ w.numStartedThreads ≤ k
  count : w.numFinishedThreads = w.finishers.card
  told : w.numFinishedThreads = w.numStartedThreads →
    w.finishedEvent = true ∨ ∃ k, w.threads k = .out w.numStartedThreads
  event : w.finishedEvent = true → w.numFinishedThreads = w.numStartedThreads
  ticket : ∀ k n, w.threads k = .out n → n ≤ w.numFinishedThreads

namespace Crew

theorem started (h : Crew c w) (hi : w.threads i ≠ .idle) : i < w.numStartedThreads := by
  by_contra hge
  exact hi ((h.idle i).2 (Nat.not_lt.1 hge))

theorem lt_numThreads (h : Crew c w) (hi : w.threads i ≠ .idle) : i < c.numThreads :=
  (h.started hi).trans_le h.limit

theorem finished_le (h : Crew c w) : w.numFinishedThreads ≤ w.numStartedThreads := by
  rw [h.count]
  apply (Finset.card_filter_le _ _).trans
  rw [Finset.card_range]

/-- Once as many have finished as have started, all of them have. -/
theorem all_counted (h : Crew c w) (hall : w.numFinishedThreads = w.numStartedThreads) {k : ℕ}
    (hk : k < w.numStartedThreads) : (w.threads k).counted = true := by
  have heq : w.finishers = Finset.range w.numStartedThreads := by
    refine Finset.eq_of_subset_of_card_le (Finset.filter_subset _ _) ?_
    rw [Finset.card_range, ← h.count, hall]
  have hin := Finset.mem_range.2 hk
  rw [← heq] at hin
  exact (mem_finishers.1 hin).2

/-- While one that has started is not counted, not all are. -/
theorem finished_lt (h : Crew c w) (hidle : w.threads i ≠ .idle)
    (hi : (w.threads i).counted = false) : w.numFinishedThreads < w.numStartedThreads := by
  refine Nat.lt_of_le_of_ne h.finished_le fun hall => ?_
  rw [h.all_counted hall (h.started hidle)] at hi
  cases hi

/-- A worker that does not come or go. -/
theorem aside (h : Crew c w) {p : Phase E} (hidle : w.threads i ≠ .idle)
    (hold : (w.threads i).counted = false) (hp : p ≠ .idle) (hnew : p.counted = false)
    (hthreads : w'.threads = Function.update w.threads i p)
    (hstarted : w'.numStartedThreads = w.numStartedThreads)
    (hfinished : w'.numFinishedThreads = w.numFinishedThreads)
    (hevent : w'.finishedEvent = w.finishedEvent) : Crew c w' := by
  have hlt := h.finished_lt hidle hold
  refine ⟨?_, ?_, ?_, ?_, ?_, ?_, ?_⟩
  · rw [hstarted]
    exact h.one
  · rw [hstarted]
    exact h.limit
  · intro k
    rw [hthreads, hstarted, ← h.idle k]
    by_cases hki : k = i
    · subst hki
      rw [Function.update_self]
      exact ⟨fun hbad => absurd hbad hp, fun hbad => absurd hbad hidle⟩
    · rw [Function.update_of_ne hki]
  · rw [hfinished, h.count]
    unfold finishers
    rw [hstarted]
    refine congrArg _ (Finset.filter_congr fun k _ => ?_)
    rw [hthreads]
    by_cases hki : k = i
    · subst hki
      rw [Function.update_self, hold, hnew]
    · rw [Function.update_of_ne hki]
  · rw [hfinished, hstarted]
    exact fun hall => absurd hall hlt.ne
  · rw [hevent, hfinished, hstarted]
    exact h.event
  · intro k n hk
    rw [hthreads] at hk
    rw [hfinished]
    by_cases hki : k = i
    · subst hki
      rw [Function.update_self] at hk
      rw [hk] at hnew
      cases hnew
    · rw [Function.update_of_ne hki] at hk
      exact h.ticket k n hk

/-- A worker starts another. -/
theorem spawn (h : Crew c w) {p : Phase E} (hidle : w.threads i ≠ .idle)
    (hold : (w.threads i).counted = false) (hp : p ≠ .idle) (hnew : p.counted = false)
    (hroom : w.numStartedThreads < c.numThreads)
    (hthreads : w'.threads =
      Function.update (Function.update w.threads w.numStartedThreads .wait) i p)
    (hstarted : w'.numStartedThreads = w.numStartedThreads + 1)
    (hfinished : w'.numFinishedThreads = w.numFinishedThreads)
    (hevent : w'.finishedEvent = w.finishedEvent) : Crew c w' := by
  have hlt := h.finished_lt hidle hold
  have hi := h.started hidle
  have hat : ∀ k, k ≠ i → k ≠ w.numStartedThreads → w'.threads k = w.threads k := by
    intro k hki hks
    rw [hthreads, Function.update_of_ne hki, Function.update_of_ne hks]
  have hati : w'.threads i = p := by
    rw [hthreads, Function.update_self]
  have hats : w'.threads w.numStartedThreads = .wait := by
    rw [hthreads, Function.update_of_ne hi.ne', Function.update_self]
  refine ⟨?_, ?_, ?_, ?_, ?_, ?_, ?_⟩
  · omega
  · omega
  · intro k
    rw [hstarted]
    by_cases hki : k = i
    · subst hki
      rw [hati]
      exact ⟨fun hbad => absurd hbad hp, fun hbad => by omega⟩
    · by_cases hks : k = w.numStartedThreads
      · subst hks
        rw [hats]
        exact ⟨fun hbad => (by cases hbad), fun hbad => by omega⟩
      · rw [hat k hki hks, h.idle k]
        omega
  · rw [hfinished, h.count]
    refine congrArg _ (Finset.ext fun k => ?_)
    rw [mem_finishers, mem_finishers, hstarted]
    by_cases hki : k = i
    · subst hki
      rw [hati, hold, hnew]
      simp
    · by_cases hks : k = w.numStartedThreads
      · subst hks
        rw [hats]
        simp [Phase.counted]
      · rw [hat k hki hks]
        refine and_congr_left fun _ => ?_
        omega
  · rw [hfinished, hstarted]
    exact fun hall => by omega
  · rw [hevent, hfinished]
    exact fun hset => absurd (h.event hset) hlt.ne
  · intro k n hk
    rw [hfinished]
    by_cases hki : k = i
    · subst hki
      rw [← hati, hk] at hnew
      cases hnew
    · by_cases hks : k = w.numStartedThreads
      · subst hks
        rw [hats] at hk
        cases hk
      · rw [hat k hki hks] at hk
        exact h.ticket k n hk

/-- A worker is counted. -/
theorem leave (h : Crew c w) (hi : w.threads i = .leaving) : Crew c (w.leave i) := by
  have hidle : w.threads i ≠ .idle := by
    rw [hi]
    simp
  have hstart := h.started hidle
  have hat : ∀ k, k ≠ i → (w.leave i).threads k = w.threads k :=
    fun k hki => Function.update_of_ne hki _ _
  have hati : (w.leave i).threads i = .out (w.numFinishedThreads + 1) := Function.update_self ..
  refine ⟨h.one, h.limit, ?_, ?_, ?_, ?_, ?_⟩
  · intro k
    by_cases hki : k = i
    · subst hki
      rw [hati]
      exact ⟨fun hbad => (by cases hbad), fun hbad => absurd ((h.idle k).2 hbad) hidle⟩
    · rw [hat k hki]
      exact h.idle k
  · have hnot : i ∉ w.finishers := by
      rw [mem_finishers, hi]
      simp [Phase.counted]
    have heq : (w.leave i).finishers = insert i w.finishers := by
      refine Finset.ext fun k => ?_
      rw [Finset.mem_insert, mem_finishers, mem_finishers]
      by_cases hki : k = i
      · subst hki
        rw [hati]
        exact ⟨fun _ => Or.inl rfl, fun _ => ⟨hstart, rfl⟩⟩
      · rw [hat k hki]
        exact ⟨Or.inr, fun hk => hk.resolve_left hki⟩
    rw [heq, Finset.card_insert_of_notMem hnot, ← h.count]
    rfl
  · exact fun hall => Or.inr ⟨i, hati.trans (congrArg Phase.out hall)⟩
  · exact fun hset => absurd (h.event hset) (h.finished_lt hidle (by rw [hi]; rfl)).ne
  · intro k n hk
    by_cases hki : k = i
    · subst hki
      rw [hati] at hk
      cases hk
      exact le_rfl
    · rw [hat k hki] at hk
      exact (h.ticket k n hk).trans (Nat.le_succ _)

/-- A worker that has been counted looks whether it was the last. -/
theorem countOut (h : Crew c w) {n : ℕ} (hi : w.threads i = .out n)
    (hthreads : w'.threads = Function.update w.threads i .gone)
    (hstarted : w'.numStartedThreads = w.numStartedThreads)
    (hfinished : w'.numFinishedThreads = w.numFinishedThreads)
    (hevent : w'.finishedEvent = (w.finishedEvent || n == w.numStartedThreads)) :
    Crew c w' := by
  have hle := h.finished_le
  refine ⟨?_, ?_, ?_, ?_, ?_, ?_, ?_⟩
  · rw [hstarted]
    exact h.one
  · rw [hstarted]
    exact h.limit
  · intro k
    rw [hthreads, hstarted, ← h.idle k]
    by_cases hki : k = i
    · subst hki
      rw [Function.update_self, hi]
      simp
    · rw [Function.update_of_ne hki]
  · rw [hfinished, h.count]
    unfold finishers
    rw [hstarted]
    refine congrArg _ (Finset.filter_congr fun k _ => ?_)
    rw [hthreads]
    by_cases hki : k = i
    · subst hki
      rw [Function.update_self, hi]
      rfl
    · rw [Function.update_of_ne hki]
  · rw [hfinished, hstarted, hevent, hthreads]
    intro hall
    rcases h.told hall with hset | ⟨k, hk⟩
    · exact Or.inl (by rw [hset]; rfl)
    · by_cases hki : k = i
      · subst hki
        rw [hi] at hk
        cases hk
        exact Or.inl (by simp)
      · exact Or.inr ⟨k, by rw [Function.update_of_ne hki]; exact hk⟩
  · rw [hevent, hfinished, hstarted]
    intro hset
    rcases Bool.or_eq_true_iff.1 hset with hset | hlast
    · exact h.event hset
    · have := h.ticket i n hi
      rw [beq_iff_eq] at hlast
      omega
  · intro k m hk
    rw [hthreads] at hk
    rw [hfinished]
    by_cases hki : k = i
    · subst hki
      rw [Function.update_self] at hk
      cases hk
    · rw [Function.update_of_ne hki] at hk
      exact h.ticket k m hk

theorem onward_here (finished : Bool) (res : Option E) :
    onward finished res ≠ .idle ∧ (onward finished res).counted = false := by
  unfold onward
  split <;> simp [Phase.counted]

theorem does (h : Crew c w) (hd : Does c w i reply T w' T') : Crew c w' := by
  cases hd with
  | quit hi | take hi | skip hi | misread hi | read hi | fall hi | noClaim hi | claim hi =>
      exact h.aside (w := w) (i := i) (by rw [hi]; simp) (by rw [hi]; rfl) (by simp) rfl rfl rfl
        rfl rfl
  | buffer hi | miscode hi | deliver hi | code hi | ownTurn hi | takeTurn hi | miswrite hi =>
      exact h.aside (w := w) (i := i) (by rw [hi]; simp) (by rw [hi]; rfl) (by simp) rfl rfl rfl
        rfl rfl
  | write hi | noWrite hi | succeed hi =>
      exact h.aside (w := w) (i := i) (by rw [hi]; simp) (by rw [hi]; rfl) (by simp) rfl rfl rfl
        rfl rfl
  | park hi | pass hi =>
      exact h.aside (w := w) (i := i) (by rw [hi]; simp) (by rw [hi]; rfl) (onward_here _ _).1
        (onward_here _ _).2 rfl rfl rfl rfl
  | enter spawns hi hsem hspawns =>
      cases spawns with
      | false =>
          exact h.aside (w := w) (i := i) (by rw [hi]; simp) (by rw [hi]; rfl) (by simp) rfl rfl
            rfl rfl rfl
      | true =>
          exact h.spawn (i := i) (by rw [hi]; simp) (by rw [hi]; rfl) (by simp) rfl
            (hspawns rfl) rfl rfl rfl rfl
  | leave hi => exact h.leave hi
  | countOut hi => exact h.countOut hi rfl rfl rfl rfl

end Crew
end Run
end LzmaTurbo.Mt
