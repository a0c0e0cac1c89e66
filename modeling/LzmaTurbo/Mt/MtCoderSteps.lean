import LzmaTurbo.Mt.MtCoderRing

/-!
# What a step does

Every invariant of the block coder is read off this one relation, which says for each step
what becomes of the run and of the blocks in flight.
-/
namespace LzmaTurbo.Mt.Run
variable {E : Type} {c : MtCoder} {w w' : Run E} {i : ℕ} {reply : Reply E}
variable {T T' : ℕ → Option (Entry E)}

/-- The next part of the source. -/
def upcoming (c : MtCoder) (w : Run E) : List UInt8 :=
  (c.source.drop w.readProcessed).take c.blockSize

/-- Whether it is taken for the last. -/
def ends (c : MtCoder) (w : Run E) : Bool :=
  if c.stream then (w.upcoming c).length != c.blockSize
  else w.readProcessed + (w.upcoming c).length == c.source.length

/-- The locals of a worker whose block has its place in the ring. -/
def openJob (w : Run E) (src : List UInt8) (finished : Bool) (res : Option E) : Job E :=
  { seq := w.opened, bi := w.blockIndex, src, finished := finished || (res.or w.error).isSome
    res := res.or w.error, bufIndex := none, delivered := false, owns := false }

/-- A block is retired, and its buffer is free. -/
def freed (w : Run E) (j : Job E) : Run E :=
  { w with
    freeBlockList := match j.bufIndex with
      | some b => Function.update w.freeBlockList b w.freeBlockHead
      | none => w.freeBlockList
    freeBlockHead := j.bufIndex.getD w.freeBlockHead
    semaphore := w.semaphore + 1
    retired := w.retired + 1 }

/-- The locals of a writer that goes on to the next block, which is noted in the ring. -/
def nextJob (c : MtCoder) (w : Run E) (j : Job E) : Job E :=
  { seq := j.seq + 1, bi := next c j.bi, src := []
    finished := (w.blocks (next c j.bi)).finished
    res := j.res.or (w.blocks (next c j.bi)).res
    bufIndex := (w.blocks (next c j.bi)).bufIndex
    delivered := (w.blocks (next c j.bi)).delivered, owns := true }

/-- What the worker `i` does to the run and to the blocks in flight. -/
inductive Does (c : MtCoder) (w : Run E) (i : ℕ) (reply : Reply E) (T : ℕ → Option (Entry E)) :
    Run E → (ℕ → Option (Entry E)) → Prop
  | quit (hi : w.threads i = .wait) (hfree : w.readEvent = true)
      (hstop : w.stopReading = true) : Does c w i reply T (w.goTo i .leaving) T
  | take (hi : w.threads i = .wait) (hfree : w.readEvent = true)
      (hgo : w.stopReading = false) :
      Does c w i reply T (({ w with readEvent := false } : Run E).goTo i (.checked w.error)) T
  | skip {e : E} (hi : w.threads i = .checked (some e)) :
      Does c w i reply T (w.goTo i (.hasRead [] true (some e))) T
  | misread {e : E} (hi : w.threads i = .checked none) (hfails : reply.fails = some e) :
      Does c w i reply T
        ((({ w with readRes := some e } : Run E).setError w.opened e).goTo i
          (.hasRead [] true (some e))) T
  | read (hi : w.threads i = .checked none) :
      Does c w i reply T
        (({ w with readProcessed := w.readProcessed + (w.upcoming c).length } : Run E).goTo i
          (.hasRead (w.upcoming c) (w.ends c) none)) T
  | enter {src : List UInt8} {finished : Bool} {res : Option E} (spawns : Bool)
      (hi : w.threads i = .hasRead src finished res) (hsem : w.semaphore ≠ 0)
      (hspawns : spawns = true → w.numStartedThreads < c.numThreads) :
      Does c w i reply T
        { w with
          semaphore := w.semaphore - 1
          blockIndex := next c w.blockIndex
          numStartedThreads := if spawns then w.numStartedThreads + 1 else w.numStartedThreads
          stopReading := w.stopReading || (w.openJob src finished res).finished
          readEvent := true
          opened := w.opened + 1
          threads := Function.update
            (if spawns then Function.update w.threads w.numStartedThreads .wait else w.threads)
            i (.job .opened (w.openJob src finished res)) }
        (Function.update T w.opened (some ⟨some (i, .opened), w.openJob src finished res⟩))
  | fall {j : Job E} {e : E} (hi : w.threads i = .job .opened j) (hres : j.res = some e) :
      Does c w i reply T (w.goTo i (.job .coded j))
        (Function.update T j.seq (some ⟨some (i, .coded), j⟩))
  | claim {j : Job E} (hi : w.threads i = .job .opened j) (hres : j.res = none)
      (hdirect : c.directOutput = true) (hturn : w.writeIndex = some j.bi) :
      Does c w i reply T
        (({ w with writeIndex := none } : Run E).goTo i (.job .claimed { j with owns := true }))
        (Function.update T j.seq (some ⟨some (i, .claimed), { j with owns := true }⟩))
  | noClaim {j : Job E} (hi : w.threads i = .job .opened j) (hres : j.res = none) :
      Does c w i reply T (w.goTo i (.job .claimed j))
        (Function.update T j.seq (some ⟨some (i, .claimed), j⟩))
  | buffer {j : Job E} (hi : w.threads i = .job .claimed j) :
      Does c w i reply T (w.takeBuffer i j)
        (Function.update T j.seq
          (some ⟨some (i, .coding), { j with bufIndex := some w.freeBlockHead }⟩))
  | miscode {j : Job E} {e : E} (hi : w.threads i = .job .coding j)
      (hfails : reply.fails = some e) :
      Does c w i reply T
        ((({ w with
            calls := w.calls ++ [(j.seq, j.src, j.finished)]
            sink := w.sink ++
              if j.owns then (c.coded j.src j.finished).take reply.part else [] } :
          Run E).setError j.seq e).goTo i (.job .coded { j with res := some e }))
        (Function.update T j.seq (some ⟨some (i, .coded), { j with res := some e }⟩))
  | deliver {j : Job E} (hi : w.threads i = .job .coding j) (howns : j.owns = true) :
      Does c w i reply T
        (({ w with
            calls := w.calls ++ [(j.seq, j.src, j.finished)]
            sink := w.sink ++ c.coded j.src j.finished
            emits := w.emits ++ [j.seq] } : Run E).goTo i
          (.job .coded { j with delivered := true }))
        (Function.update T j.seq (some ⟨some (i, .coded), { j with delivered := true }⟩))
  | code {j : Job E} (hi : w.threads i = .job .coding j) :
      Does c w i reply T
        (({ w with
            calls := w.calls ++ [(j.seq, j.src, j.finished)]
            bufs := Function.update w.bufs (j.bufIndex.getD 0) (c.coded j.src j.finished) } :
          Run E).goTo i (.job .coded j))
        (Function.update T j.seq (some ⟨some (i, .coded), j⟩))
  | ownTurn {j : Job E} (hi : w.threads i = .job .coded j) (howns : j.owns = true) :
      Does c w i reply T
        (({ w with
            blocks := Function.update w.blocks j.bi
              ⟨j.res, j.bufIndex, j.finished, j.delivered⟩ } : Run E).goTo i
          (.job .writing { j with res := w.writeRes.or j.res }))
        (Function.update T j.seq
          (some ⟨some (i, .writing), { j with res := w.writeRes.or j.res }⟩))
  | takeTurn {j : Job E} (hi : w.threads i = .job .coded j)
      (hturn : w.writeIndex = some j.bi) :
      Does c w i reply T
        (({ w with
            blocks := Function.update w.blocks j.bi
              ⟨j.res, j.bufIndex, j.finished, j.delivered⟩
            writeIndex := none } : Run E).goTo i
          (.job .writing { j with owns := true, res := w.writeRes.or j.res }))
        (Function.update T j.seq
          (some ⟨some (i, .writing), { j with owns := true, res := w.writeRes.or j.res }⟩))
  | park {j : Job E} (hi : w.threads i = .job .coded j) (howns : j.owns = false)
      (hturn : w.writeIndex ≠ some j.bi) :
      Does c w i reply T
        (({ w with
            blocks := Function.update w.blocks j.bi
              ⟨j.res, j.bufIndex, j.finished, j.delivered⟩
            readyBlocks := Function.update w.readyBlocks j.bi true } : Run E).goTo i
          (onward j.finished j.res))
        (Function.update T j.seq (some ⟨none, j⟩))
  | miswrite {j : Job E} {b : ℕ} {e : E} (hi : w.threads i = .job .writing j)
      (hres : j.res = none) (hbuf : j.bufIndex = some b) (hnot : j.delivered = false)
      (hfails : reply.fails = some e) :
      Does c w i reply T
        ((({ w with sink := w.sink ++ (w.bufs b).take reply.part, writeRes := some e } :
            Run E).setError j.seq e).goTo i (.job .retiring { j with res := some e }))
        (Function.update T j.seq (some ⟨some (i, .retiring), { j with res := some e }⟩))
  | write {j : Job E} {b : ℕ} (hi : w.threads i = .job .writing j)
      (hres : j.res = none) (hbuf : j.bufIndex = some b) (hnot : j.delivered = false) :
      Does c w i reply T
        (({ w with sink := w.sink ++ w.bufs b, emits := w.emits ++ [j.seq] } : Run E).goTo i
          (.job .retiring j))
        (Function.update T j.seq (some ⟨some (i, .retiring), j⟩))
  | noWrite {j : Job E} (hi : w.threads i = .job .writing j)
      (hnone : j.res = none → j.bufIndex = none ∨ j.delivered = true) :
      Does c w i reply T (w.goTo i (.job .retiring j))
        (Function.update T j.seq (some ⟨some (i, .retiring), j⟩))
  | succeed {j : Job E} (hi : w.threads i = .job .retiring j)
      (hready : w.readyBlocks (next c j.bi) = true) :
      Does c w i reply T
        (({ w.freed j with
            readyBlocks := Function.update w.readyBlocks (next c j.bi) false } : Run E).goTo i
          (.job .writing (w.nextJob c j)))
        (Function.update (Function.update T j.seq none) (j.seq + 1)
          (some ⟨some (i, .writing), w.nextJob c j⟩))
  | pass {j : Job E} (hi : w.threads i = .job .retiring j)
      (hready : w.readyBlocks (next c j.bi) = false) :
      Does c w i reply T
        (({ w.freed j with writeIndex := some (next c j.bi) } : Run E).goTo i
          (onward j.finished j.res))
        (Function.update T j.seq none)
  | leave (hi : w.threads i = .leaving) : Does c w i reply T (w.leave i) T
  | countOut {n : ℕ} (hi : w.threads i = .out n) (hfree : w.readEvent = true) :
      Does c w i reply T
        (({ w with finishedEvent := w.finishedEvent || n == w.numStartedThreads } :
          Run E).goTo i .gone) T

theorem claimTurn_does {j : Job E} (hi : w.threads i = .job .opened j) :
    ∃ T', Does c w i reply T (w.claimTurn c i j) T' := by
  unfold claimTurn
  by_cases hres : j.res.isSome = true
  · rw [if_pos hres]
    obtain ⟨e, he⟩ := Option.isSome_iff_exists.1 hres
    exact ⟨_, .fall hi he⟩
  · rw [if_neg hres]
    have hnone : j.res = none := by
      rwa [Bool.not_eq_true, Option.isSome_eq_false_iff, Option.isNone_iff_eq_none] at hres
    split
    · rename_i h
      rw [Bool.and_eq_true, beq_iff_eq] at h
      exact ⟨_, .claim hi hnone h.1 h.2⟩
    · exact ⟨_, .noClaim hi hnone⟩

theorem codeBlock_does {j : Job E} (hi : w.threads i = .job .coding j) :
    ∃ T', Does c w i reply T (w.codeBlock c i j reply) T' := by
  unfold codeBlock
  cases hf : reply.fails with
  | some e =>
      have h := Does.miscode (c := c) (T := T) hi hf
      by_cases howns : j.owns = true
      · rw [if_pos howns] at h
        simp only [if_pos howns]
        exact ⟨_, h⟩
      · rw [if_neg howns, List.append_nil] at h
        simp only [if_neg howns]
        exact ⟨_, h⟩
  | none =>
      simp only
      split
      · rename_i h
        rw [Bool.and_eq_true] at h
        exact ⟨_, .deliver hi h.1⟩
      · exact ⟨_, .code hi⟩

theorem handOff_does {j : Job E} (hi : w.threads i = .job .coded j) :
    ∃ T', Does c w i reply T (w.handOff i j) T' := by
  unfold handOff
  by_cases howns : j.owns = true
  · simp only [if_pos howns]
    exact ⟨_, .ownTurn hi howns⟩
  · simp only [if_neg howns]
    split
    · rename_i hturn
      exact ⟨_, .takeTurn hi hturn⟩
    · rename_i hturn
      exact ⟨_, .park hi (Bool.not_eq_true _ ▸ howns) hturn⟩

theorem writeBlock_does {j : Job E} (hi : w.threads i = .job .writing j) :
    ∃ T', Does c w i reply T (w.writeBlock i j reply) T' := by
  unfold writeBlock
  split
  · rename_i b hres hbuf hnot
    cases hf : reply.fails with
    | some e => exact ⟨_, .miswrite hi hres hbuf hnot hf⟩
    | none => exact ⟨_, .write hi hres hbuf hnot⟩
  · rename_i h
    refine ⟨_, .noWrite hi fun hres => ?_⟩
    cases hbuf : j.bufIndex with
    | none => exact Or.inl rfl
    | some b =>
        cases hd : j.delivered with
        | true => exact Or.inr rfl
        | false => exact (h b hres hbuf hd).elim

theorem retireBlock_does {j : Job E} (hi : w.threads i = .job .retiring j) :
    ∃ T', Does c w i reply T (w.retireBlock c i j) T' := by
  unfold retireBlock
  by_cases hready : w.readyBlocks (next c j.bi) = true
  · simp only [if_pos hready]
    exact ⟨_, .succeed hi hready⟩
  · simp only [if_neg hready]
    exact ⟨_, .pass hi (Bool.not_eq_true _ ▸ hready)⟩

theorem readBlock_does {res : Option E} (hi : w.threads i = .checked res) :
    ∃ T', Does c w i reply T (w.readBlock c i res reply) T' := by
  unfold readBlock
  cases res with
  | some e => exact ⟨_, .skip hi⟩
  | none =>
      have hread := @Does.read E c w i reply T hi
      unfold ends upcoming at hread
      simp only [Option.isSome_none, Bool.false_eq_true, ↓reduceIte]
      by_cases hs : c.stream = true
      · simp only [if_pos hs] at hread ⊢
        cases hf : reply.fails with
        | some e => exact ⟨_, .misread hi hf⟩
        | none => exact ⟨_, hread⟩
      · simp only [if_neg hs] at hread ⊢
        exact ⟨_, hread⟩

theorem openBlock_does {src : List UInt8} {finished : Bool} {res : Option E}
    (hi : w.threads i = .hasRead src finished res)
    (h : w.openBlock c i src finished res = some w') : ∃ T', Does c w i reply T w' T' := by
  unfold openBlock at h
  by_cases hsem : w.semaphore = 0
  · rw [if_pos hsem] at h
    cases h
  · rw [if_neg hsem] at h
    cases h
    refine ⟨_, Does.enter _ hi hsem fun hspawns => ?_⟩
    simp only [Bool.and_eq_true, decide_eq_true_eq] at hspawns
    exact hspawns.1.2

theorem step_does (h : w.step c i reply = some w') : ∃ T', Does c w i reply T w' T' := by
  unfold step at h
  split at h
  · cases h
  · rename_i hi
    unfold takeToken at h
    by_cases hfree : w.readEvent = false
    · rw [if_pos hfree] at h
      cases h
    · rw [if_neg hfree] at h
      split at h
      · rename_i hstop
        cases h
        exact ⟨_, Does.quit hi (Bool.not_eq_false _ ▸ hfree) hstop⟩
      · rename_i hgo
        cases h
        exact ⟨_, Does.take hi (Bool.not_eq_false _ ▸ hfree) (Bool.not_eq_true _ ▸ hgo)⟩
  · cases h
    exact readBlock_does ‹_›
  · exact openBlock_does ‹_› h
  · cases h
    exact claimTurn_does ‹_›
  · cases h
    exact ⟨_, Does.buffer ‹_›⟩
  · cases h
    exact codeBlock_does ‹_›
  · cases h
    exact handOff_does ‹_›
  · cases h
    exact writeBlock_does ‹_›
  · rename_i j hi
    cases h
    exact retireBlock_does hi
  · cases h
    exact ⟨_, Does.leave ‹_›⟩
  · rename_i n hi
    unfold countOut at h
    by_cases hfree : w.readEvent = false
    · rw [if_pos hfree] at h
      cases h
    · rw [if_neg hfree] at h
      cases h
      exact ⟨_, Does.countOut hi (Bool.not_eq_false _ ▸ hfree)⟩
  · cases h

/-- A worker that has no block has none after it, and the others keep theirs. -/
theorem update_job_iff {t : ℕ → Phase E} {p : Phase E} (hold : ∀ st j, t i ≠ .job st j)
    (hp : ∀ st j, p ≠ .job st j) (k : ℕ) (st : Stage) (j : Job E) :
    Function.update t i p k = .job st j ↔ t k = .job st j := by
  by_cases hk : k = i
  · subst hk
    rw [Function.update_self]
    exact ⟨fun h => absurd h (hp st j), fun h => absurd h (hold st j)⟩
  · rw [Function.update_of_ne hk]

theorem onward_ne_job (finished : Bool) (res : Option E) (st : Stage) (j : Job E) :
    onward finished res ≠ .job st j := by
  unfold onward
  split <;> simp

/-- The blocks in flight after a step. -/
theorem Slots.does (h : Slots c w T) (hidle : ∀ k, w.numStartedThreads ≤ k → w.threads k = .idle)
    (hd : Does c w i reply T w' T') : Slots c w' T' := by
  have howner : ∀ {st : Stage} {j : Job E}, w.threads i = .job st j → st.writes = true →
      j.owns = true := fun hi => h.writer _ _ _ _ (h.known _ _ _ hi)
  cases hd with
  | quit hi | take hi | skip hi | misread hi | read hi | leave hi | countOut hi =>
      refine h.aside (update_job_iff (t := w.threads) ?_ ?_) rfl rfl rfl rfl rfl rfl rfl
      · rw [hi]
        simp
      · simp
  | enter spawns hi hsem hspawns =>
      refine h.enter (i := i) ?_ ?_ (Function.update_self ..) rfl rfl rfl (fun hw => by cases hw)
        rfl rfl ?_ rfl rfl rfl rfl
      · rw [hi]
        simp
      · intro k hk st j
        simp only [Function.update_of_ne hk]
        cases spawns with
        | false => rfl
        | true =>
            refine update_job_iff ?_ ?_ k st j
            · rw [hidle _ le_rfl]
              simp
            · simp
      · simp only
        omega
  | fall hi | noClaim hi | buffer hi | miscode hi | deliver hi | code hi =>
      exact h.work hi rfl rfl rfl (fun hw => by cases hw) rfl rfl rfl rfl rfl (fun _ _ => rfl)
        (Or.inl ⟨rfl, rfl⟩)
  | miswrite hi | write hi | noWrite hi =>
      have hown := howner hi rfl
      exact h.work hi rfl rfl rfl (fun _ => hown) rfl rfl rfl rfl rfl (fun _ _ => rfl)
        (Or.inl ⟨rfl, rfl⟩)
  | claim hi hres hdirect hturn =>
      exact h.work hi rfl rfl rfl (fun _ => rfl) rfl rfl rfl rfl rfl (fun _ _ => rfl)
        (Or.inr ⟨hturn, rfl, rfl⟩)
  | ownTurn hi howns =>
      exact h.work hi rfl rfl rfl (fun _ => howns) rfl rfl rfl rfl rfl
        (fun k hk => Function.update_of_ne hk _ _) (Or.inl ⟨rfl, rfl⟩)
  | takeTurn hi hturn =>
      exact h.work hi rfl rfl rfl (fun _ => rfl) rfl rfl rfl rfl rfl
        (fun k hk => Function.update_of_ne hk _ _) (Or.inr ⟨hturn, rfl, rfl⟩)
  | park hi howns hturn =>
      exact h.park hi howns hturn (onward_ne_job _ _) rfl rfl rfl rfl rfl rfl rfl rfl
  | succeed hi hready =>
      exact h.succeed hi (howner hi rfl) rfl rfl rfl rfl rfl rfl rfl rfl rfl rfl rfl hready
  | pass hi hready =>
      exact h.pass hi (howner hi rfl) (onward_ne_job _ _) rfl rfl rfl rfl rfl rfl rfl rfl hready

end LzmaTurbo.Mt.Run
