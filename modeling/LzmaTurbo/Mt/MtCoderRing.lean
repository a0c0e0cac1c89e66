import LzmaTurbo.Mt.MtCoder
import Mathlib.Data.Nat.ModEq

/-!
# The blocks in flight

A block that has been read and not yet retired is with one worker, or noted in the ring and
waiting for the one that has the write turn. No two share a place in the ring, because no
more are in flight than it has places.
-/
namespace LzmaTurbo.Mt

/-- A block in flight: who has it and at which stage, unless it waits in the ring. -/
structure Entry (E : Type) where
  spot : Option (ℕ × Stage)
  job : Job E

/-- The stages with the write turn. -/
def Stage.writes : Stage → Bool
  | .writing | .retiring => true
  | _ => false

namespace Run
variable {E : Type} {c : MtCoder} {w w' : Run E} {T : ℕ → Option (Entry E)}

/-- `T` says which blocks are in flight, and where. -/
structure Slots (c : MtCoder) (w : Run E) (T : ℕ → Option (Entry E)) : Prop where
  order : w.retired ≤ w.opened
  room : w.semaphore + w.opened = w.retired + c.numBlocksMax
  index : w.blockIndex = w.opened % c.numBlocksMax
  live : ∀ s, (∃ e, T s = some e) ↔ w.retired ≤ s ∧ s < w.opened
  place : ∀ s e, T s = some e → e.job.seq = s ∧ e.job.bi = s % c.numBlocksMax
  worker : ∀ s i st j, T s = some ⟨some (i, st), j⟩ → w.threads i = .job st j
  known : ∀ i st j, w.threads i = .job st j → T j.seq = some ⟨some (i, st), j⟩
  parked : ∀ s j, T s = some ⟨none, j⟩ → w.retired < s ∧
    w.readyBlocks (s % c.numBlocksMax) = true ∧ j.owns = false ∧
    w.blocks (s % c.numBlocksMax) = ⟨j.res, j.bufIndex, j.finished, j.delivered⟩
  ready : ∀ k, w.readyBlocks k = true → ∃ s j, T s = some ⟨none, j⟩ ∧ k = s % c.numBlocksMax
  writer : ∀ s i st j, T s = some ⟨some (i, st), j⟩ → st.writes = true → j.owns = true
  owns : ∀ s e, T s = some e → e.job.owns = true → s = w.retired ∧ w.writeIndex = none
  turn : ∀ k, w.writeIndex = some k → k = w.retired % c.numBlocksMax
  owned : w.writeIndex = none → ∃ e, T w.retired = some e ∧ e.job.owns = true

theorem numThreads_pos (c : MtCoder) : 0 < c.numThreads := by
  unfold MtCoder.numThreads threadsMax
  omega

theorem numBlocksMax_pos (c : MtCoder) : 0 < c.numBlocksMax := by
  unfold MtCoder.numBlocksMax numBlocksFromThreads
  have h : 0 < blocksMax := by decide
  exact Nat.lt_min.2 ⟨by omega, h⟩

theorem numBlocksMax_le (c : MtCoder) : c.numBlocksMax ≤ blocksMax := Nat.min_le_right _ _

theorem next_mod (c : MtCoder) (s : ℕ) :
    next c (s % c.numBlocksMax) = (s + 1) % c.numBlocksMax := by
  have hlt := Nat.mod_lt s (numBlocksMax_pos c)
  unfold next
  by_cases h : c.numBlocksMax ≤ s % c.numBlocksMax + 1
  · rw [if_pos h, ← Nat.mod_add_mod, show s % c.numBlocksMax + 1 = c.numBlocksMax by omega,
      Nat.mod_self]
  · rw [if_neg h, ← Nat.mod_add_mod, Nat.mod_eq_of_lt (Nat.not_le.1 h)]

/-- Places in the ring tell the blocks in flight apart. -/
theorem ring_inj {R W n s s' : ℕ} (hfull : R ≤ W + n) (hs : W ≤ s) (hs' : W ≤ s') (hR : s < R)
    (hR' : s' < R) (hmod : s % n = s' % n) : s = s' := by
  have key : ∀ {a b : ℕ}, a ≤ b → W ≤ a → b < R → a % n = b % n → a = b := by
    intro a b hle ha hb hm
    have hdvd : n ∣ b - a := (Nat.modEq_iff_dvd' hle).1 hm
    rcases Nat.eq_zero_or_pos (b - a) with h0 | hpos
    · omega
    · have := Nat.le_of_dvd hpos hdvd
      omega
  rcases Nat.le_total s s' with h | h
  · exact key h hs hR' hmod
  · exact (key h hs' hR hmod.symm).symm

theorem update_cases {α : Type} {f : ℕ → Option α} {x : Option α} {s s' : ℕ} {a : α}
    (h : Function.update f s' x s = some a) : (s = s' ∧ x = some a) ∨ (s ≠ s' ∧ f s = some a) := by
  by_cases heq : s = s'
  · rw [heq, Function.update_self] at h
    exact Or.inl ⟨heq, h⟩
  · rw [Function.update_of_ne heq] at h
    exact Or.inr ⟨heq, h⟩

namespace Slots

theorem bounds (h : Slots c w T) {s : ℕ} {e : Entry E} (hs : T s = some e) :
    w.retired ≤ s ∧ s < w.opened :=
  (h.live s).1 ⟨e, hs⟩

theorem place_inj (h : Slots c w T) {s s' : ℕ} {e e' : Entry E} (hs : T s = some e)
    (hs' : T s' = some e') (hmod : s % c.numBlocksMax = s' % c.numBlocksMax) : s = s' := by
  have hroom := h.room
  exact ring_inj (by omega) (h.bounds hs).1 (h.bounds hs').1 (h.bounds hs).2 (h.bounds hs').2
    hmod

/-- The block whose turn it is, is the oldest. -/
theorem first (h : Slots c w T) {s : ℕ} {e : Entry E} (hs : T s = some e)
    (hturn : w.writeIndex = some e.job.bi) : s = w.retired := by
  have hk := h.turn _ hturn
  rw [(h.place s e hs).2] at hk
  have hroom := h.room
  obtain ⟨h1, h2⟩ := h.bounds hs
  exact ring_inj (by omega) h1 le_rfl h2 (by omega) hk

/-- The oldest block is with a worker. -/
theorem oldest (h : Slots c w T) (hlt : w.retired < w.opened) :
    ∃ i st j, w.threads i = .job st j ∧ j.seq = w.retired := by
  obtain ⟨⟨spot, j⟩, he⟩ := (h.live w.retired).2 ⟨le_rfl, hlt⟩
  cases spot with
  | none => exact absurd (h.parked _ _ he).1 (lt_irrefl _)
  | some p => exact ⟨p.1, p.2, j, h.worker _ _ _ _ he, (h.place _ _ he).1⟩

/-- A worker keeps to what it does between two blocks. -/
theorem aside (h : Slots c w T)
    (hthreads : ∀ k st j, w'.threads k = .job st j ↔ w.threads k = .job st j)
    (hopened : w'.opened = w.opened) (hretired : w'.retired = w.retired)
    (hsem : w'.semaphore = w.semaphore) (hindex : w'.blockIndex = w.blockIndex)
    (hready : w'.readyBlocks = w.readyBlocks) (hblocks : w'.blocks = w.blocks)
    (hturn : w'.writeIndex = w.writeIndex) : Slots c w' T := by
  refine ⟨?_, ?_, ?_, ?_, h.place, ?_, ?_, ?_, ?_, h.writer, ?_, ?_, ?_⟩
  · rw [hopened, hretired]
    exact h.order
  · rw [hsem, hopened, hretired]
    exact h.room
  · rw [hindex, hopened]
    exact h.index
  · rw [hopened, hretired]
    exact h.live
  · exact fun s i st j hs => (hthreads i st j).2 (h.worker s i st j hs)
  · exact fun i st j hi => h.known i st j ((hthreads i st j).1 hi)
  · rw [hretired, hready, hblocks]
    exact h.parked
  · rw [hready]
    exact h.ready
  · rw [hretired, hturn]
    exact h.owns
  · rw [hretired, hturn]
    exact h.turn
  · rw [hretired, hturn]
    exact h.owned

section
variable {i : ℕ} {st st' : Stage} {j j' : Job E}

/-- A worker goes on with its block, and may take the write turn for it. -/
theorem work (h : Slots c w T) (hi : w.threads i = .job st j)
    (hthreads : w'.threads = Function.update w.threads i (.job st' j'))
    (hseq : j'.seq = j.seq) (hbi : j'.bi = j.bi) (hwriter : st'.writes = true → j'.owns = true)
    (hopened : w'.opened = w.opened) (hretired : w'.retired = w.retired)
    (hsem : w'.semaphore = w.semaphore) (hindex : w'.blockIndex = w.blockIndex)
    (hready : w'.readyBlocks = w.readyBlocks)
    (hblocks : ∀ k, k ≠ j.bi → w'.blocks k = w.blocks k)
    (hturn : w'.writeIndex = w.writeIndex ∧ j'.owns = j.owns ∨
      w.writeIndex = some j.bi ∧ w'.writeIndex = none ∧ j'.owns = true) :
    Slots c w' (Function.update T j.seq (some ⟨some (i, st'), j'⟩)) := by
  have hTj := h.known i st j hi
  have hplace := (h.place _ _ hTj).2
  refine ⟨?_, ?_, ?_, ?_, ?_, ?_, ?_, ?_, ?_, ?_, ?_, ?_, ?_⟩
  · rw [hopened, hretired]
    exact h.order
  · rw [hsem, hopened, hretired]
    exact h.room
  · rw [hindex, hopened]
    exact h.index
  · intro s
    rw [hopened, hretired, ← h.live s]
    by_cases heq : s = j.seq
    · rw [heq, Function.update_self]
      exact ⟨fun _ => ⟨_, hTj⟩, fun _ => ⟨_, rfl⟩⟩
    · rw [Function.update_of_ne heq]
  · intro s e hs
    rcases update_cases hs with ⟨rfl, ⟨⟩⟩ | ⟨-, hs⟩
    · exact ⟨hseq, hbi.trans hplace⟩
    · exact h.place s e hs
  · intro s k st₁ j₁ hs
    rw [hthreads]
    rcases update_cases hs with ⟨-, he⟩ | ⟨hne, hold⟩
    · cases he
      exact Function.update_self ..
    · have hk := h.worker s k st₁ j₁ hold
      rw [Function.update_of_ne ?_]
      · exact hk
      · rintro rfl
        rw [hi] at hk
        cases hk
        exact hne (h.place _ _ hold).1.symm
  · intro k st₁ j₁ hk
    rw [hthreads] at hk
    by_cases hki : k = i
    · subst hki
      rw [Function.update_self] at hk
      cases hk
      rw [hseq, Function.update_self]
    · rw [Function.update_of_ne hki] at hk
      have hT := h.known k st₁ j₁ hk
      rw [Function.update_of_ne ?_]
      · exact hT
      · intro heq
        rw [heq, hTj] at hT
        cases hT
        exact hki rfl
  · intro s j₁ hs
    rcases update_cases hs with ⟨-, he⟩ | ⟨hne, hs⟩
    · cases he
    · obtain ⟨h1, h2, h3, h4⟩ := h.parked s j₁ hs
      rw [hretired, hready]
      refine ⟨h1, h2, h3, ?_⟩
      rw [hblocks _ ?_]
      · exact h4
      · intro heq
        rw [hplace] at heq
        exact hne (h.place_inj hs hTj heq)
  · intro k hk
    rw [hready] at hk
    obtain ⟨s, j₁, hs, hmod⟩ := h.ready k hk
    refine ⟨s, j₁, ?_, hmod⟩
    rw [Function.update_of_ne ?_]
    · exact hs
    · rintro rfl
      rw [hTj] at hs
      cases hs
  · intro s k st₁ j₁ hs hw
    rcases update_cases hs with ⟨-, he⟩ | ⟨-, hs⟩
    · cases he
      exact hwriter hw
    · exact h.writer s k st₁ j₁ hs hw
  · intro s e hs howns
    rw [hretired]
    rcases update_cases hs with ⟨rfl, ⟨⟩⟩ | ⟨hne, hs⟩
    · rcases hturn with ⟨hw, ho⟩ | ⟨hw, hn, -⟩
      · rw [hw]
        exact h.owns _ _ hTj (ho.symm.trans howns)
      · exact ⟨h.first hTj hw, hn⟩
    · obtain ⟨h1, h2⟩ := h.owns s e hs howns
      rcases hturn with ⟨hw, -⟩ | ⟨hw, hn, -⟩
      · rw [hw]
        exact ⟨h1, h2⟩
      · exact ⟨h1, hn⟩
  · intro k hk
    rw [hretired]
    rcases hturn with ⟨hw, -⟩ | ⟨-, hn, -⟩
    · rw [hw] at hk
      exact h.turn k hk
    · rw [hn] at hk
      cases hk
  · intro hnone
    rw [hretired]
    rcases hturn with ⟨hw, ho⟩ | ⟨hw, -, ho⟩
    · rw [hw] at hnone
      obtain ⟨e, he, howns⟩ := h.owned hnone
      by_cases heq : w.retired = j.seq
      · rw [heq, hTj] at he
        cases he
        rw [heq, Function.update_self]
        exact ⟨_, rfl, ho.trans howns⟩
      · rw [Function.update_of_ne heq]
        exact ⟨e, he, howns⟩
    · rw [← h.first hTj hw, Function.update_self]
      exact ⟨_, rfl, ho⟩

/-- A worker leaves its block in the ring. -/
theorem park (h : Slots c w T) (hi : w.threads i = .job st j) (howns : j.owns = false)
    (hturn : w.writeIndex ≠ some j.bi) {p : Phase E} (hp : ∀ st j, p ≠ .job st j)
    (hthreads : w'.threads = Function.update w.threads i p)
    (hopened : w'.opened = w.opened) (hretired : w'.retired = w.retired)
    (hsem : w'.semaphore = w.semaphore) (hindex : w'.blockIndex = w.blockIndex)
    (hready : w'.readyBlocks = Function.update w.readyBlocks j.bi true)
    (hblocks : w'.blocks =
      Function.update w.blocks j.bi ⟨j.res, j.bufIndex, j.finished, j.delivered⟩)
    (hsame : w'.writeIndex = w.writeIndex) :
    Slots c w' (Function.update T j.seq (some ⟨none, j⟩)) := by
  have hTj := h.known i st j hi
  have hplace := (h.place _ _ hTj).2
  -- The oldest block is the one whose turn it is, or has it; so this is not the oldest.
  have hlater : w.retired < j.seq := by
    rcases Nat.lt_or_eq_of_le (h.bounds hTj).1 with hlt | heq
    · exact hlt
    · exfalso
      cases hw : w.writeIndex with
      | some k =>
          have hk := h.turn k hw
          rw [heq, ← hplace] at hk
          exact hturn (hw.trans (congrArg some hk))
      | none =>
          obtain ⟨e, he, ho⟩ := h.owned hw
          rw [heq, hTj] at he
          cases he
          rw [howns] at ho
          cases ho
  refine ⟨?_, ?_, ?_, ?_, ?_, ?_, ?_, ?_, ?_, ?_, ?_, ?_, ?_⟩
  · rw [hopened, hretired]
    exact h.order
  · rw [hsem, hopened, hretired]
    exact h.room
  · rw [hindex, hopened]
    exact h.index
  · intro s
    rw [hopened, hretired, ← h.live s]
    by_cases heq : s = j.seq
    · rw [heq, Function.update_self]
      exact ⟨fun _ => ⟨_, hTj⟩, fun _ => ⟨_, rfl⟩⟩
    · rw [Function.update_of_ne heq]
  · intro s e hs
    rcases update_cases hs with ⟨rfl, ⟨⟩⟩ | ⟨-, hs⟩
    · exact ⟨rfl, hplace⟩
    · exact h.place s e hs
  · intro s k st₁ j₁ hs
    rw [hthreads]
    rcases update_cases hs with ⟨-, he⟩ | ⟨hne, hold⟩
    · cases he
    · have hk := h.worker s k st₁ j₁ hold
      rw [Function.update_of_ne ?_]
      · exact hk
      · rintro rfl
        rw [hi] at hk
        cases hk
        exact hne (h.place _ _ hold).1.symm
  · intro k st₁ j₁ hk
    rw [hthreads] at hk
    by_cases hki : k = i
    · subst hki
      rw [Function.update_self] at hk
      exact absurd hk (hp st₁ j₁)
    · rw [Function.update_of_ne hki] at hk
      have hT := h.known k st₁ j₁ hk
      rw [Function.update_of_ne ?_]
      · exact hT
      · intro heq
        rw [heq, hTj] at hT
        cases hT
        exact hki rfl
  · intro s j₁ hs
    rw [hretired, hready, hblocks]
    rcases update_cases hs with ⟨rfl, he⟩ | ⟨hne, hs⟩
    · cases he
      rw [← hplace, Function.update_self, Function.update_self]
      exact ⟨hlater, rfl, howns, rfl⟩
    · obtain ⟨h1, h2, h3, h4⟩ := h.parked s j₁ hs
      have hbi : s % c.numBlocksMax ≠ j.bi := by
        rw [hplace]
        exact fun heq => hne (h.place_inj hs hTj heq)
      rw [Function.update_of_ne hbi, Function.update_of_ne hbi]
      exact ⟨h1, h2, h3, h4⟩
  · intro k hk
    rw [hready] at hk
    by_cases hb : k = j.bi
    · exact ⟨j.seq, j, Function.update_self .., hb.trans hplace⟩
    · rw [Function.update_of_ne hb] at hk
      obtain ⟨s, j₁, hs, hmod⟩ := h.ready k hk
      refine ⟨s, j₁, ?_, hmod⟩
      rw [Function.update_of_ne ?_]
      · exact hs
      · rintro rfl
        rw [hTj] at hs
        cases hs
  · intro s k st₁ j₁ hs hw
    rcases update_cases hs with ⟨-, he⟩ | ⟨-, hs⟩
    · cases he
    · exact h.writer s k st₁ j₁ hs hw
  · intro s e hs ho
    rw [hretired, hsame]
    rcases update_cases hs with ⟨-, ⟨⟩⟩ | ⟨-, hs⟩
    · exact absurd (howns.symm.trans ho) (by decide)
    · exact h.owns s e hs ho
  · rw [hretired, hsame]
    exact h.turn
  · rw [hretired, hsame]
    intro hnone
    obtain ⟨e, he, ho⟩ := h.owned hnone
    rw [Function.update_of_ne hlater.ne]
    exact ⟨e, he, ho⟩

/-- A block is read, and a worker has it. -/
theorem enter (h : Slots c w T) (hno : ∀ st j, w.threads i ≠ .job st j)
    (hthreads : ∀ k, k ≠ i → ∀ st j, w'.threads k = .job st j ↔ w.threads k = .job st j)
    (hi : w'.threads i = .job st' j') (hseq : j'.seq = w.opened) (hbi : j'.bi = w.blockIndex)
    (howns : j'.owns = false) (hwriter : st'.writes = true → j'.owns = true)
    (hopened : w'.opened = w.opened + 1)
    (hretired : w'.retired = w.retired) (hsem : w'.semaphore + 1 = w.semaphore)
    (hindex : w'.blockIndex = next c w.blockIndex) (hready : w'.readyBlocks = w.readyBlocks)
    (hblocks : w'.blocks = w.blocks) (hturn : w'.writeIndex = w.writeIndex) :
    Slots c w' (Function.update T w.opened (some ⟨some (i, st'), j'⟩)) := by
  have hnew : T w.opened = none := by
    cases hT : T w.opened with
    | none => rfl
    | some e => exact absurd (h.bounds hT).2 (lt_irrefl _)
  have hroom := h.room
  have horder := h.order
  have hindex' := h.index
  refine ⟨?_, ?_, ?_, ?_, ?_, ?_, ?_, ?_, ?_, ?_, ?_, ?_, ?_⟩
  · omega
  · omega
  · rw [hindex, hindex', next_mod, hopened]
  · intro s
    rw [hopened, hretired]
    by_cases heq : s = w.opened
    · rw [heq, Function.update_self]
      exact ⟨fun _ => ⟨horder, Nat.lt_succ_self _⟩, fun _ => ⟨_, rfl⟩⟩
    · rw [Function.update_of_ne heq, h.live s]
      omega
  · intro s e hs
    rcases update_cases hs with ⟨rfl, ⟨⟩⟩ | ⟨-, hs⟩
    · exact ⟨hseq, hbi.trans hindex'⟩
    · exact h.place s e hs
  · intro s k st₁ j₁ hs
    rcases update_cases hs with ⟨-, ⟨⟩⟩ | ⟨-, hs⟩
    · exact hi
    · have hk := h.worker s k st₁ j₁ hs
      refine (hthreads k ?_ st₁ j₁).2 hk
      rintro rfl
      exact hno _ _ hk
  · intro k st₁ j₁ hk
    by_cases hki : k = i
    · subst hki
      rw [hi] at hk
      cases hk
      rw [hseq, Function.update_self]
    · have hT := h.known k st₁ j₁ ((hthreads k hki st₁ j₁).1 hk)
      rw [Function.update_of_ne (h.bounds hT).2.ne]
      exact hT
  · intro s j₁ hs
    rw [hretired, hready, hblocks]
    rcases update_cases hs with ⟨-, ⟨⟩⟩ | ⟨-, hs⟩
    exact h.parked s j₁ hs
  · intro k hk
    rw [hready] at hk
    obtain ⟨s, j₁, hs, hmod⟩ := h.ready k hk
    refine ⟨s, j₁, ?_, hmod⟩
    rw [Function.update_of_ne (h.bounds hs).2.ne]
    exact hs
  · intro s k st₁ j₁ hs hw
    rcases update_cases hs with ⟨-, he⟩ | ⟨-, hs⟩
    · cases he
      exact hwriter hw
    · exact h.writer s k st₁ j₁ hs hw
  · intro s e hs ho
    rw [hretired, hturn]
    rcases update_cases hs with ⟨-, ⟨⟩⟩ | ⟨-, hs⟩
    · exact absurd (howns.symm.trans ho) (by decide)
    · exact h.owns s e hs ho
  · rw [hretired, hturn]
    exact h.turn
  · rw [hretired, hturn]
    intro hnone
    obtain ⟨e, he, ho⟩ := h.owned hnone
    rw [Function.update_of_ne (h.bounds he).2.ne]
    exact ⟨e, he, ho⟩

/-- The block after the one with the write turn, if it waits in the ring. -/
theorem waiting (h : Slots c w T) (hi : w.threads i = .job st j) (howns : j.owns = true)
    (hready : w.readyBlocks (next c j.bi) = true) : ∃ j₁, T (j.seq + 1) = some ⟨none, j₁⟩ := by
  have hTj := h.known i st j hi
  obtain ⟨s, j₁, hs, hmod⟩ := h.ready _ hready
  rw [(h.place _ _ hTj).2, next_mod] at hmod
  have hfirst := (h.owns _ _ hTj howns).1
  have hroom := h.room
  obtain ⟨h1, h2⟩ := h.bounds hs
  have h3 := (h.parked s j₁ hs).1
  have heq : j.seq + 1 = s := by
    rcases Nat.lt_or_eq_of_le (show j.seq + 1 ≤ s by omega) with hlt | heq
    · exact ring_inj (show w.opened ≤ w.retired + c.numBlocksMax by omega) (by omega) h1
        (by omega) h2 hmod
    · exact heq
  rw [heq]
  exact ⟨j₁, hs⟩

/-- It is as the ring has it. -/
theorem noted (h : Slots c w T) (hi : w.threads i = .job st j) (howns : j.owns = true)
    (hready : w.readyBlocks (next c j.bi) = true) :
    ∃ j₁, T (j.seq + 1) = some ⟨none, j₁⟩ ∧ j₁.owns = false ∧
      w.blocks (next c j.bi) = ⟨j₁.res, j₁.bufIndex, j₁.finished, j₁.delivered⟩ := by
  obtain ⟨j₁, hj₁⟩ := h.waiting hi howns hready
  obtain ⟨-, -, howns₁, hblock⟩ := h.parked _ _ hj₁
  refine ⟨j₁, hj₁, howns₁, ?_⟩
  rw [(h.place _ _ (h.known i st j hi)).2, next_mod]
  exact hblock

/-- The writer is done with a block, and the turn is the next block's. -/
theorem pass (h : Slots c w T) (hi : w.threads i = .job st j) (howns : j.owns = true)
    {p : Phase E} (hp : ∀ st j, p ≠ .job st j)
    (hthreads : w'.threads = Function.update w.threads i p)
    (hopened : w'.opened = w.opened) (hretired : w'.retired = w.retired + 1)
    (hsem : w'.semaphore = w.semaphore + 1) (hindex : w'.blockIndex = w.blockIndex)
    (hready : w'.readyBlocks = w.readyBlocks) (hblocks : w'.blocks = w.blocks)
    (hturn : w'.writeIndex = some (next c j.bi)) (hnext : w.readyBlocks (next c j.bi) = false) :
    Slots c w' (Function.update T j.seq none) := by
  have hTj := h.known i st j hi
  have hplace := (h.place _ _ hTj).2
  have hfirst := (h.owns _ _ hTj howns).1
  have hroom := h.room
  obtain ⟨h1, h2⟩ := h.bounds hTj
  have hold : ∀ {s : ℕ} {e : Entry E}, Function.update T j.seq none s = some e →
      s ≠ j.seq ∧ T s = some e := by
    intro s e hs
    rcases update_cases hs with ⟨-, ⟨⟩⟩ | hs
    exact hs
  refine ⟨?_, ?_, ?_, ?_, ?_, ?_, ?_, ?_, ?_, ?_, ?_, ?_, ?_⟩
  · omega
  · omega
  · rw [hindex, hopened]
    exact h.index
  · intro s
    rw [hopened, hretired]
    by_cases heq : s = j.seq
    · rw [heq, Function.update_self]
      refine ⟨fun ⟨e, he⟩ => absurd he (by simp), fun hs => ?_⟩
      omega
    · rw [Function.update_of_ne heq, h.live s]
      omega
  · exact fun s e hs => h.place s e (hold hs).2
  · intro s k st₁ j₁ hs
    have hk := h.worker s k st₁ j₁ (hold hs).2
    rw [hthreads, Function.update_of_ne ?_]
    · exact hk
    · rintro rfl
      rw [hi] at hk
      cases hk
      exact (hold hs).1 (h.place _ _ (hold hs).2).1.symm
  · intro k st₁ j₁ hk
    rw [hthreads] at hk
    by_cases hki : k = i
    · subst hki
      rw [Function.update_self] at hk
      exact absurd hk (hp st₁ j₁)
    · rw [Function.update_of_ne hki] at hk
      have hT := h.known k st₁ j₁ hk
      rw [Function.update_of_ne ?_]
      · exact hT
      · intro heq
        rw [heq, hTj] at hT
        cases hT
        exact hki rfl
  · intro s j₁ hs
    obtain ⟨g1, g2, g3, g4⟩ := h.parked s j₁ (hold hs).2
    rw [hretired, hready, hblocks]
    refine ⟨?_, g2, g3, g4⟩
    rcases Nat.lt_or_eq_of_le (Nat.succ_le_of_lt g1) with hlt | heq
    · exact hlt
    · -- The next block is not ready.
      exfalso
      rw [hplace, next_mod, hfirst, show w.retired + 1 = s from heq, g2] at hnext
      cases hnext
  · intro k hk
    rw [hready] at hk
    obtain ⟨s, j₁, hs, hmod⟩ := h.ready k hk
    refine ⟨s, j₁, ?_, hmod⟩
    rw [Function.update_of_ne ?_]
    · exact hs
    · rintro rfl
      rw [hTj] at hs
      cases hs
  · exact fun s k st₁ j₁ hs => h.writer s k st₁ j₁ (hold hs).2
  · intro s e hs ho
    exact absurd (((h.owns s e (hold hs).2 ho).1).trans hfirst.symm) (hold hs).1
  · intro k hk
    rw [hturn, hplace, next_mod, hfirst] at hk
    rw [hretired]
    exact (Option.some.inj hk).symm
  · intro hnone
    rw [hturn] at hnone
    cases hnone

/-- The writer is done with a block, and goes on to the next one, which is ready. -/
theorem succeed (h : Slots c w T) (hi : w.threads i = .job st j) (howns : j.owns = true)
    (hthreads : w'.threads = Function.update w.threads i (.job st' j'))
    (hseq : j'.seq = j.seq + 1) (hbi : j'.bi = next c j.bi) (howns' : j'.owns = true)
    (hopened : w'.opened = w.opened) (hretired : w'.retired = w.retired + 1)
    (hsem : w'.semaphore = w.semaphore + 1) (hindex : w'.blockIndex = w.blockIndex)
    (hready : w'.readyBlocks = Function.update w.readyBlocks (next c j.bi) false)
    (hblocks : w'.blocks = w.blocks) (hturn : w'.writeIndex = w.writeIndex)
    (hnext : w.readyBlocks (next c j.bi) = true) :
    Slots c w' (Function.update (Function.update T j.seq none) (j.seq + 1)
      (some ⟨some (i, st'), j'⟩)) := by
  have hTj := h.known i st j hi
  have hplace := (h.place _ _ hTj).2
  obtain ⟨hfirst, hnone⟩ := h.owns _ _ hTj howns
  have hroom := h.room
  obtain ⟨h1, h2⟩ := h.bounds hTj
  obtain ⟨j₂, hj₂⟩ := h.waiting hi howns hnext
  have hnextPlace := (h.place _ _ hj₂).2
  have hlt := (h.bounds hj₂).2
  have hmod : next c j.bi = (j.seq + 1) % c.numBlocksMax := by
    rw [hplace, next_mod]
  have hold : ∀ {s : ℕ} {e : Entry E}, Function.update (Function.update T j.seq none)
      (j.seq + 1) (some ⟨some (i, st'), j'⟩) s = some e →
      (s = j.seq + 1 ∧ e = ⟨some (i, st'), j'⟩) ∨
        (s ≠ j.seq + 1 ∧ s ≠ j.seq ∧ T s = some e) := by
    intro s e hs
    rcases update_cases hs with ⟨rfl, ⟨⟩⟩ | ⟨hne, hs⟩
    · exact Or.inl ⟨rfl, rfl⟩
    · rcases update_cases hs with ⟨-, ⟨⟩⟩ | hs
      exact Or.inr ⟨hne, hs⟩
  refine ⟨?_, ?_, ?_, ?_, ?_, ?_, ?_, ?_, ?_, ?_, ?_, ?_, ?_⟩
  · omega
  · omega
  · rw [hindex, hopened]
    exact h.index
  · intro s
    rw [hopened, hretired]
    by_cases heq : s = j.seq + 1
    · rw [heq, Function.update_self]
      refine ⟨fun _ => ?_, fun _ => ⟨_, rfl⟩⟩
      omega
    · rw [Function.update_of_ne heq]
      by_cases heq' : s = j.seq
      · rw [heq', Function.update_self]
        refine ⟨fun ⟨e, he⟩ => absurd he (by simp), fun hs => ?_⟩
        omega
      · rw [Function.update_of_ne heq', h.live s]
        omega
  · intro s e hs
    rcases hold hs with ⟨rfl, rfl⟩ | ⟨-, -, hs⟩
    · exact ⟨hseq, hbi.trans hmod⟩
    · exact h.place s e hs
  · intro s k st₁ j₁ hs
    rw [hthreads]
    rcases hold hs with ⟨-, he⟩ | ⟨-, hne, hT⟩
    · cases he
      exact Function.update_self ..
    · have hk := h.worker s k st₁ j₁ hT
      rw [Function.update_of_ne ?_]
      · exact hk
      · rintro rfl
        rw [hi] at hk
        cases hk
        exact hne (h.place _ _ hT).1.symm
  · intro k st₁ j₁ hk
    rw [hthreads] at hk
    by_cases hki : k = i
    · subst hki
      rw [Function.update_self] at hk
      cases hk
      rw [hseq, Function.update_self]
    · rw [Function.update_of_ne hki] at hk
      have hT := h.known k st₁ j₁ hk
      have hne : j₁.seq ≠ j.seq := by
        intro heq
        rw [heq, hTj] at hT
        cases hT
        exact hki rfl
      have hne' : j₁.seq ≠ j.seq + 1 := by
        intro heq
        rw [heq, hj₂] at hT
        cases hT
      rw [Function.update_of_ne hne', Function.update_of_ne hne]
      exact hT
  · intro s j₁ hs
    rcases hold hs with ⟨-, he⟩ | ⟨hne, hne', hT⟩
    · cases he
    · obtain ⟨g1, g2, g3, g4⟩ := h.parked s j₁ hT
      rw [hretired, hready, hblocks, Function.update_of_ne ?_]
      · exact ⟨by omega, g2, g3, g4⟩
      · rw [hmod]
        exact fun heq => hne (h.place_inj hT hj₂ heq)
  · intro k hk
    rw [hready] at hk
    by_cases hb : k = next c j.bi
    · rw [hb, Function.update_self] at hk
      cases hk
    · rw [Function.update_of_ne hb] at hk
      obtain ⟨s, j₁, hs, hk'⟩ := h.ready k hk
      refine ⟨s, j₁, ?_, hk'⟩
      have hne : s ≠ j.seq := by
        rintro rfl
        rw [hTj] at hs
        cases hs
      have hne' : s ≠ j.seq + 1 := by
        rintro rfl
        exact hb (hk'.trans hmod.symm)
      rw [Function.update_of_ne hne', Function.update_of_ne hne]
      exact hs
  · intro s k st₁ j₁ hs hw
    rcases hold hs with ⟨-, he⟩ | ⟨-, -, hT⟩
    · cases he
      exact howns'
    · exact h.writer s k st₁ j₁ hT hw
  · intro s e hs ho
    rw [hretired, hturn]
    rcases hold hs with ⟨rfl, -⟩ | ⟨-, hne, hT⟩
    · exact ⟨by omega, hnone⟩
    · exact absurd (((h.owns s e hT ho).1).trans hfirst.symm) hne
  · intro k hk
    rw [hturn, hnone] at hk
    cases hk
  · intro _
    rw [hretired, ← hfirst, Function.update_self]
    exact ⟨_, rfl, howns'⟩

end
end Slots
end Run
end LzmaTurbo.Mt
