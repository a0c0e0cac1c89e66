import LzmaTurbo.Mt.MtCoderOrder
import Mathlib.Algebra.BigOperators.Group.Finset.Basic
import Mathlib.Algebra.Order.BigOperators.Group.Finset

/-!
# Runs of the block coder

Every run ends, with all workers counted. No block is coded twice, none shares its buffer, and
what has gone out is the beginning of what should, unless an error is handed on unseen.
-/
namespace LzmaTurbo.Mt

/-- On its way out, or gone. -/
def Phase.left {E : Type} : Phase E → Bool
  | .leaving | .out _ | .gone => true
  | _ => false

/-- How much a worker may still do on its own. -/
def Phase.weight {E : Type} : Phase E → ℕ
  | .idle => 0
  | .wait => 5
  | .checked _ => 4
  | .hasRead _ _ _ => 3
  | .job .opened _ => 11
  | .job .claimed _ => 10
  | .job .coding _ => 9
  | .job .coded _ => 8
  | .job .writing _ => 7
  | .job .retiring _ => 6
  | .leaving => 2
  | .out _ => 1
  | .gone => 0

namespace Run
variable {E : Type} {c : MtCoder} {w w' : Run E} {i k : ℕ} {reply : Reply E}
variable {T T' : ℕ → Option (Entry E)} {s : ℕ}

/-- The invariant of all runs. -/
structure Inv (c : MtCoder) (w : Run E) (T : ℕ → Option (Entry E)) : Prop where
  slots : Slots c w T
  reads : Reads c w
  crew : Crew c w
  fine : AllFine c w T
  buffers : Buffers w T
  ledger : Ledger c w
  left : ∀ k, (w.threads k).left = true → w.stopReading = true ∨ w.error ≠ none

/-- A worker leaves for a reason. -/
theorem left_does (h : Inv c w T) (hd : Does c w i reply T w' T') :
    ∀ k, (w'.threads k).left = true → w'.stopReading = true ∨ w'.error ≠ none := by
  have hT := h.slots.known i
  -- The others have left for the same reason as before.
  have key : ∀ {t : ℕ → Phase E} {p : Phase E} {u : Run E}, u.threads = Function.update t i p →
      (∀ k, k ≠ i → (t k).left = true → (w.threads k).left = true) →
      (w.stopReading = true → u.stopReading = true) → (w.error ≠ none → u.error ≠ none) →
      (p.left = true → u.stopReading = true ∨ u.error ≠ none) →
      ∀ k, (u.threads k).left = true → u.stopReading = true ∨ u.error ≠ none := by
    intro t p u ht hothers hstop herror hp k hk
    rw [ht] at hk
    by_cases hki : k = i
    · rw [hki, Function.update_self] at hk
      exact hp hk
    · rw [Function.update_of_ne hki] at hk
      exact (h.left k (hothers k hki hk)).imp hstop herror
  have honward : ∀ {st : Stage} {j : Job E}, w.threads i = .job st j →
      (onward j.finished j.res).left = true → w.stopReading = true ∨ w.error ≠ none := by
    intro st j hi hleft
    have hfine := h.fine _ _ (hT _ _ hi)
    cases hf : j.finished with
    | true => exact Or.inl (hfine.stop hf)
    | false =>
        cases hr : j.res with
        | some e => exact Or.inr (hfine.error (by simp only [hr]; simp))
        | none =>
            rw [hf, hr] at hleft
            cases hleft
  cases hd with
  | quit hi hfree hstop => exact key rfl (fun _ _ => id) id id fun _ => Or.inl hstop
  | take hi | skip hi | read hi | fall hi | claim hi | noClaim hi | buffer hi | deliver hi =>
      exact key rfl (fun _ _ => id) id id fun hbad => by cases hbad
  | code hi | ownTurn hi | takeTurn hi | write hi | noWrite hi | succeed hi =>
      exact key rfl (fun _ _ => id) id id fun hbad => by cases hbad
  | misread hi | miscode hi | miswrite hi =>
      exact key rfl (fun _ _ => id) id or_ne_none fun hbad => by cases hbad
  | park hi | pass hi => exact key rfl (fun _ _ => id) id id (honward hi)
  | leave hi => exact key rfl (fun _ _ => id) id id fun _ => h.left i (by rw [hi]; rfl)
  | countOut hi => exact key rfl (fun _ _ => id) id id fun _ => h.left i (by rw [hi]; rfl)
  | enter spawns hi =>
      refine key rfl (fun k _ => ?_) (fun hs => by simp only [hs, Bool.true_or]) id
        fun hbad => by cases hbad
      cases spawns with
      | false => exact id
      | true =>
          by_cases hks : k = w.numStartedThreads
          · subst hks
            simp only [↓reduceIte, Function.update_self]
            exact fun hbad => by cases hbad
          · simp only [↓reduceIte, Function.update_of_ne hks]
            exact id

theorem Inv.does (h : Inv c w T) (hsize : 0 < c.blockSize) (hd : Does c w i reply T w' T') :
    Inv c w' T' := by
  have hidle : ∀ k, w.numStartedThreads ≤ k → w.threads k = .idle := fun k => (h.crew.idle k).2
  exact
    { slots := h.slots.does hidle hd
      reads := h.reads.does hsize hidle hd
      crew := h.crew.does hd
      fine := h.fine.does h.slots h.reads h.buffers h.ledger hd
      buffers := h.buffers.does h.slots h.fine hd
      ledger := h.ledger.does h.slots h.fine hd
      left := left_does h hd }

theorem start_threads (k : ℕ) :
    (start c : Run E).threads k = .wait ∧ k = 0 ∨ (start c : Run E).threads k = .idle ∧ k ≠ 0 := by
  unfold start
  by_cases hk : k = 0
  · subst hk
    exact Or.inl ⟨rfl, rfl⟩
  · refine Or.inr ⟨?_, hk⟩
    simp only [Function.update_of_ne hk]

theorem start_inv (c : MtCoder) : Inv c (start c : Run E) fun _ => none := by
  have hcase := fun k => start_threads (E := E) (c := c) k
  have hphase : ∀ k, (start c : Run E).threads k = .wait ∨ (start c : Run E).threads k = .idle :=
    fun k => (hcase k).imp And.left And.left
  refine ⟨?_, ?_, ?_, fun s e hs => (by cases hs), ⟨List.range blocksMax, ?_⟩, ?_, ?_⟩
  · refine ⟨le_rfl, Nat.add_comm _ _, (Nat.zero_mod _).symm, ?_, ?_, ?_, ?_, ?_, ?_, ?_, ?_, ?_, ?_⟩
    · exact fun s => ⟨fun ⟨e, he⟩ => (by cases he), fun hs => absurd hs.2 (Nat.not_lt_zero s)⟩
    · exact fun s e hs => by cases hs
    · exact fun s i st j hs => by cases hs
    · intro i st j hi
      rcases hphase i with h | h <;> exact absurd (h.symm.trans hi) (by simp)
    · exact fun s j hs => by cases hs
    · exact fun k hk => by cases hk
    · exact fun s i st j hs => by cases hs
    · exact fun s e hs => by cases hs
    · rintro k ⟨⟩
      exact (Nat.zero_mod _).symm
    · exact fun hbad => by cases hbad
  · have hnot : ∀ k, ((start c : Run E).threads k).reading = false := by
      intro k
      rcases hphase k with h | h <;> rw [h] <;> rfl
    refine ⟨fun _ => hnot, fun hbad => (by cases hbad), ?_, fun _ => MtCoder.numBlocks_pos,
      Nat.zero_le _, fun hbad => (by cases hbad), fun _ _ => (Nat.zero_mul _).symm, ?_, ?_⟩
    · intro k k' hk
      rw [hnot k] at hk
      cases hk
    · intro k res hk
      have := hnot k
      rw [hk] at this
      cases this
    · intro k src finished res hk
      have := hnot k
      rw [hk] at this
      cases this
  · refine ⟨Nat.one_pos, numThreads_pos c, ?_, ?_, ?_, ?_, ?_⟩
    · intro k
      rcases hcase k with ⟨h, hk⟩ | ⟨h, hk⟩
      · rw [h, hk]
        exact ⟨fun hbad => (by cases hbad), fun hbad => absurd hbad (Nat.not_succ_le_zero 0)⟩
      · exact ⟨fun _ => Nat.one_le_iff_ne_zero.2 hk, fun _ => h⟩
    · rfl
    · exact fun hbad => by cases hbad
    · exact fun hbad => by cases hbad
    · intro k n hk
      rcases hphase k with h | h <;> exact absurd (h.symm.trans hk) (by simp)
  · refine Pool.start fun b hb => ?_
    unfold start
    simp only
    rw [if_neg (by omega)]
  · exact ⟨List.nodup_nil, fun x hx => (by cases hx), fun s hs => (by cases hs), rfl,
      fun hbad => absurd rfl hbad, fun hbad => absurd rfl hbad⟩
  · intro k hk
    rcases hphase k with h | h <;> rw [h] at hk <;> cases hk

/-- What there is still to do, at most. -/
def toDo (c : MtCoder) (w : Run E) : ℕ :=
  (Finset.range c.numThreads).sum (fun k => (w.threads k).weight) +
    14 * (c.numBlocks - w.opened) + 2 * (c.numBlocks - w.retired)

theorem weight_update {t : ℕ → Phase E} {n : ℕ} (hi : i < n) (p : Phase E) :
    (Finset.range n).sum (fun k => (Function.update t i p k).weight) + (t i).weight =
      (Finset.range n).sum (fun k => (t k).weight) + p.weight := by
  have hmem := Finset.mem_range.2 hi
  have hrest : ((Finset.range n).erase i).sum (fun k => (Function.update t i p k).weight) =
      ((Finset.range n).erase i).sum (fun k => (t k).weight) :=
    Finset.sum_congr rfl fun k hk => by rw [Function.update_of_ne (Finset.ne_of_mem_erase hk)]
  rw [← Finset.add_sum_erase _ (fun k => (Function.update t i p k).weight) hmem,
    ← Finset.add_sum_erase _ (fun k => (t k).weight) hmem, hrest]
  simp only [Function.update_self]
  omega

theorem onward_weight (finished : Bool) (res : Option E) : (onward finished res).weight ≤ 5 := by
  unfold onward
  split <;> simp [Phase.weight]

/-- A worker has less to do on its own. -/
theorem toDo_lt {p : Phase E} (hi : i < c.numThreads) (hp : p.weight < (w.threads i).weight)
    (hthreads : w'.threads = Function.update w.threads i p) (hopened : w'.opened = w.opened)
    (hretired : w'.retired = w.retired) : w'.toDo c < w.toDo c := by
  have hsum := weight_update (t := w.threads) hi p
  unfold toDo
  rw [hthreads, hopened, hretired]
  omega

/-- Every step brings the end nearer. -/
theorem toDo_does (h : Inv c w T) (hd : Does c w i reply T w' T') : w'.toDo c < w.toDo c := by
  have hT := h.slots.known i
  have hbounded := h.reads.bounded
  have hhere : ∀ {p : Phase E}, w.threads i = p → p ≠ .idle → i < c.numThreads :=
    fun hi hp => h.crew.lt_numThreads (hi ▸ hp)
  cases hd with
  | quit hi | take hi | skip hi | misread hi | read hi | fall hi | claim hi | noClaim hi =>
      exact toDo_lt (w := w) (hhere hi (by simp)) (by simp [hi, Phase.weight]) rfl rfl rfl
  | buffer hi | miscode hi | deliver hi | code hi | ownTurn hi | takeTurn hi | miswrite hi =>
      exact toDo_lt (w := w) (hhere hi (by simp)) (by simp [hi, Phase.weight]) rfl rfl rfl
  | write hi | noWrite hi | leave hi | countOut hi =>
      exact toDo_lt (w := w) (hhere hi (by simp)) (by simp [hi, Phase.weight]) rfl rfl rfl
  | @park j hi =>
      have hle := onward_weight j.finished j.res
      refine toDo_lt (w := w) (hhere hi (by simp)) ?_ rfl rfl rfl
      rw [hi]
      exact hle.trans_lt (by simp [Phase.weight])
  | @succeed j hi hready =>
      have hsum := weight_update (t := w.threads) (hhere hi (by simp))
        (.job .writing (w.nextJob c j))
      rw [hi] at hsum
      have hlt := (h.slots.bounds (hT _ _ hi)).2
      have hfirst := (h.slots.owns _ _ (hT _ _ hi) (h.slots.writer _ _ _ _ (hT _ _ hi) rfl)).1
      change _ + 6 = _ + 7 at hsum
      unfold toDo
      change (Finset.range c.numThreads).sum
        (fun k => (Function.update w.threads i (.job .writing (w.nextJob c j)) k).weight) +
        14 * (c.numBlocks - w.opened) + 2 * (c.numBlocks - (w.retired + 1)) < _
      omega
  | @pass j hi hready =>
      have hsum := weight_update (t := w.threads) (hhere hi (by simp))
        (onward j.finished j.res)
      have hle := onward_weight j.finished j.res
      rw [hi] at hsum
      change _ + 6 = _ at hsum
      unfold toDo
      change (Finset.range c.numThreads).sum
        (fun k => (Function.update w.threads i (onward j.finished j.res) k).weight) +
        14 * (c.numBlocks - w.opened) + 2 * (c.numBlocks - (w.retired + 1)) < _
      omega
  | @enter src finished res spawns hi hsem hspawns =>
      have hlt := h.reads.going (h.reads.hasRead _ _ _ _ hi).1
      have hin := hhere hi (by simp)
      have hstarted := h.crew.started (i := i) (by rw [hi]; simp)
      have hother : w.threads w.numStartedThreads = .idle := (h.crew.idle _).2 le_rfl
      unfold toDo
      cases spawns with
      | false =>
          have hsum := weight_update (t := w.threads) hin
            (.job .opened (w.openJob src finished res))
          rw [hi] at hsum
          change _ + 3 = _ + 11 at hsum
          simp only [Bool.false_eq_true, ↓reduceIte]
          omega
      | true =>
          have hsum := weight_update (t := w.threads) (hspawns rfl) .wait
          have hsum' := weight_update
            (t := Function.update w.threads w.numStartedThreads .wait) hin
            (.job .opened (w.openJob src finished res))
          rw [hother] at hsum
          rw [Function.update_of_ne hstarted.ne, hi] at hsum'
          change _ + 0 = _ + 5 at hsum
          change _ + 3 = _ + 11 at hsum'
          simp only [↓reduceIte]
          omega

theorem moves_inv (hsize : 0 < c.blockSize) {ms : List (Move E)} :
    ∀ {w w' : Run E} {T : ℕ → Option (Entry E)}, Inv c w T → moves c w ms = some w' →
      ∃ T', Inv c w' T' ∧ w'.toDo c + ms.length ≤ w.toDo c ∧
        (Ordered c w T → keepsErrors c w ms = true → Ordered c w' T') := by
  induction ms with
  | nil =>
      rintro w w' T h ⟨⟩
      exact ⟨T, h, le_rfl, fun hord _ => hord⟩
  | cons m ms ih =>
      intro w w' T h hrun
      obtain ⟨w₁, hstep, hrest⟩ := Option.bind_eq_some_iff.1 hrun
      obtain ⟨T₁, hd⟩ := step_does (T := T) hstep
      obtain ⟨T', hinv, hlen, hord'⟩ := ih (h.does hsize hd) hrest
      refine ⟨T', hinv, ?_, fun hord hkeep => ?_⟩
      · have := toDo_does h hd
        rw [List.length_cons]
        omega
      · rw [keepsErrors, hstep, Bool.and_eq_true] at hkeep
        exact hord' (hord.does h.slots h.reads h.fine (heeds_of_keepsError h.crew hkeep.1) hd)
          hkeep.2

theorem start_ordered (c : MtCoder) : Ordered c (start c : Run E) fun _ => none :=
  ⟨0, rfl, fun _ hf => (by cases hf),
    Or.inl ⟨rfl, rfl, fun _ => rfl, fun _ he => (by cases he)⟩⟩

theorem start_toDo (c : MtCoder) : (start c : Run E).toDo c = 16 * c.numBlocks + 5 := by
  have hsum := weight_update (t := fun _ => (.idle : Phase E)) (numThreads_pos c) .wait
  have hzero : (Finset.range c.numThreads).sum (fun _ => (.idle : Phase E).weight) = 0 :=
    Finset.sum_eq_zero fun _ _ => rfl
  rw [hzero] at hsum
  change _ + 0 = 0 + 5 at hsum
  unfold toDo start
  simp only
  omega

/-- A worker with a block can always move, and so can one that looked at the error or is on
its way out. -/
theorem step_busy (c : MtCoder) (reply : Reply E) {p : Phase E} (hi : w.threads i = p)
    (hp : (∃ st j, p = .job st j) ∨ (∃ res, p = .checked res) ∨ p = .leaving) :
    w.step c i reply ≠ none := by
  unfold step
  rw [hi]
  rcases hp with ⟨st, j, rfl⟩ | ⟨res, rfl⟩ | rfl
  · cases st <;> simp
  · simp
  · simp

/-- When nobody can move, everybody is gone. -/
theorem Inv.stuck (h : Inv c w T) (hno : ∀ i, w.step c i reply = none) (k : ℕ) :
    w.threads k = .idle ∨ w.threads k = .gone := by
  have hjob : ∀ k st j, w.threads k ≠ .job st j := fun k st j hk =>
    step_busy c reply hk (Or.inl ⟨st, j, rfl⟩) (hno k)
  have hchecked : ∀ k res, w.threads k ≠ .checked res := fun k res hk =>
    step_busy c reply hk (Or.inr (Or.inl ⟨res, rfl⟩)) (hno k)
  -- With the ring full, the oldest block is with a worker, so there is always a place.
  have hread : ∀ k src finished res, w.threads k ≠ .hasRead src finished res := by
    intro k src finished res hk
    have hstep := hno k
    unfold step at hstep
    rw [hk] at hstep
    simp only [openBlock] at hstep
    split at hstep
    · rename_i hsem
      have hroom := h.slots.room
      have hpos := numBlocksMax_pos c
      obtain ⟨n, st, j, hn, -⟩ := h.slots.oldest (by omega)
      exact hjob n st j hn
    · cases hstep
  have hfree : w.readEvent = true := by
    cases hevent : w.readEvent with
    | true => rfl
    | false =>
        obtain ⟨n, hn⟩ := h.reads.busy hevent
        cases hp : w.threads n with
        | checked res => exact absurd hp (hchecked n res)
        | hasRead src finished res => exact absurd hp (hread n src finished res)
        | _ =>
            rw [hp] at hn
            cases hn
  cases hk : w.threads k with
  | idle => exact Or.inl rfl
  | gone => exact Or.inr rfl
  | checked res => exact absurd hk (hchecked k res)
  | hasRead src finished res => exact absurd hk (hread k src finished res)
  | job st j => exact absurd hk (hjob k st j)
  | leaving =>
      exact absurd (hno k) (step_busy c reply hk (Or.inr (Or.inr rfl)))
  | wait =>
      have hstep := hno k
      unfold step at hstep
      rw [hk] at hstep
      simp only [takeToken] at hstep
      rw [hfree, if_neg (by decide)] at hstep
      split at hstep <;> cases hstep
  | out n =>
      have hstep := hno k
      unfold step at hstep
      rw [hk] at hstep
      simp only [countOut] at hstep
      rw [hfree, if_neg (by decide)] at hstep
      cases hstep

/-- Then the event is set. -/
theorem Inv.event (h : Inv c w T) (hno : ∀ i, w.step c i reply = none) :
    w.finishedEvent = true := by
  have hgone : ∀ k, k < w.numStartedThreads → w.threads k = .gone := by
    intro k hk
    refine (h.stuck hno k).resolve_left fun hidle => ?_
    have := (h.crew.idle k).1 hidle
    omega
  have hall : w.numFinishedThreads = w.numStartedThreads := by
    rw [h.crew.count]
    unfold finishers
    rw [Finset.filter_true_of_mem, Finset.card_range]
    intro k hk
    rw [hgone k (Finset.mem_range.1 hk)]
    rfl
  apply (h.crew.told hall).resolve_right
  rintro ⟨k, hk⟩
  have hstarted := h.crew.started (i := k) (by rw [hk]; simp)
  rw [hgone k hstarted] at hk
  cases hk

end Run
end LzmaTurbo.Mt
