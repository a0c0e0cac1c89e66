import LzmaTurbo.Lzma.State
import LzmaTurbo.Mt.MtCoderRuns

/-!
# What the block coder keeps

Each block is coded once and goes out once, in turn; no worker and no buffer serves two blocks;
and a run ends with all workers counted and with an error that was reported, if any was. What
goes out after a failure is another matter: it is nothing more, as long as no worker hands the
write turn on with an error that the next block's worker does not find.
-/
namespace LzmaTurbo.Mt.Run
variable {E : Type} {c : MtCoder} {w : Run E} {T : ℕ → Option (Entry E)}

/-- The block `s` is with the worker, and so with the coder, `i`. -/
def HasCoder (w : Run E) (i s : ℕ) : Prop := ∃ st j, w.threads i = .job st j ∧ j.seq = s

/-- The block `s`, with a worker or in the ring, has the output buffer `b`. -/
def HasBuffer (c : MtCoder) (w : Run E) (b s : ℕ) : Prop :=
  (∃ i st j, w.threads i = .job st j ∧ j.seq = s ∧ j.bufIndex = some b) ∨
  w.retired < s ∧ s < w.opened ∧ w.readyBlocks (s % c.numBlocksMax) = true ∧
    (w.blocks (s % c.numBlocksMax)).bufIndex = some b

theorem HasBuffer.held (h : Slots c w T) {b s : ℕ} (hb : HasBuffer c w b s) :
    heldOf T s = some b := by
  unfold heldOf
  rcases hb with ⟨i, st, j, hi, rfl, hb⟩ | ⟨h1, h2, hready, hb⟩
  · rw [h.known i st j hi]
    exact hb
  · obtain ⟨e, he⟩ := (h.live s).2 ⟨h1.le, h2⟩
    obtain ⟨s', j, hs', hmod⟩ := h.ready _ hready
    have heq := h.place_inj he hs' hmod
    rw [heq, hs']
    rw [heq, (h.parked _ _ hs').2.2.2] at hb
    exact hb

/-- What is promised of every state of a run. -/
structure Scheduled (c : MtCoder) (w : Run E) : Prop where
  cut : ((List.range c.numBlocks).map c.block).flatten = c.source
  once : (w.calls.map Prod.fst).Nodup
  asked : ∀ x ∈ w.calls, x.1 < c.numBlocks ∧ x.2 = (c.block x.1, c.isLast x.1)
  coder : ∀ i s, w.HasCoder i s → i < c.numThreads ∧ ∀ i' s', w.HasCoder i' s' →
    (i' = i ↔ s' = s)
  buffer : ∀ b s s', HasBuffer c w b s → HasBuffer c w b s' → s' = s
  inOrder : ∃ k, k ≤ c.numBlocks ∧ w.emits = List.range k ∧ (∀ f ∈ w.failed, k ≤ f.1) ∧
    c.outputs k <+: w.sink ∧ w.sink <+: c.outputs c.numBlocks
  good : w.failed = [] → w.result = none
  bad : w.failed ≠ [] → ∃ f ∈ w.failed, w.result = some f.2
  ends : ∀ reply, (∀ i, w.step c i reply = none) → w.finishedEvent = true
  counted : w.finishedEvent = true → w.numFinishedThreads = w.numStartedThreads ∧
    ∀ i, i < w.numStartedThreads → (w.threads i).counted = true
  whole : w.finishedEvent = true → w.failed = [] →
    w.emits = List.range c.numBlocks ∧ w.sink = c.outputs c.numBlocks ∧
    ∀ s, s < c.numBlocks → w.Called s

theorem Inv.coder (h : Inv c w T) {i s : ℕ} (hs : w.HasCoder i s) :
    i < c.numThreads ∧ ∀ i' s', w.HasCoder i' s' → (i' = i ↔ s' = s) := by
  obtain ⟨st, j, hi, rfl⟩ := hs
  refine ⟨h.crew.lt_numThreads (by rw [hi]; simp), ?_⟩
  rintro i' s' ⟨st', j', hi', rfl⟩
  refine ⟨?_, fun hseq => ?_⟩
  · rintro rfl
    rw [hi] at hi'
    cases hi'
    rfl
  · have hT := h.slots.known i st j hi
    have hT' := h.slots.known i' st' j' hi'
    rw [hseq, hT] at hT'
    cases hT'
    rfl

theorem Inv.good (h : Inv c w T) (hnone : w.failed = []) : w.error = none ∧ w.result = none := by
  have herr : w.error = none := by
    rw [h.ledger.first, hnone]
    rfl
  have hread : w.readRes = none := by_contra fun hne => h.ledger.readRes hne herr
  have hwrite : w.writeRes = none := by_contra fun hne => h.ledger.writeRes hne herr
  refine ⟨herr, ?_⟩
  unfold result
  rw [herr, hread, hwrite]
  rfl

theorem Inv.bad (h : Inv c w T) (hsome : w.failed ≠ []) : ∃ f ∈ w.failed, w.result = some f.2 := by
  obtain ⟨f, fs, hf⟩ := List.exists_cons_of_ne_nil hsome
  refine ⟨f, by rw [hf]; exact List.mem_cons_self, ?_⟩
  unfold result
  rw [h.ledger.first, hf]
  rfl

theorem Ordered.inOrder (h : Ordered c w T) (hinv : Inv c w T) :
    ∃ k, k ≤ c.numBlocks ∧ w.emits = List.range k ∧ (∀ f ∈ w.failed, k ≤ f.1) ∧
      c.outputs k <+: w.sink ∧ w.sink <+: c.outputs c.numBlocks := by
  obtain ⟨k, hk, hf, g | g⟩ := h
  · have hle := (g.le_opened hinv.slots).trans hinv.reads.bounded
    refine ⟨k, hle, hk, hf, ?_, ?_⟩
    · rw [g.sink]
    · rw [g.sink]
      exact c.outputs_mono hle
  · obtain ⟨p, hp, hsink⟩ := g.sink
    refine ⟨k, g.short.le, hk, hf, ?_, ?_⟩
    · rw [hsink]
      exact List.prefix_append _ _
    · rw [hsink]
      refine List.IsPrefix.trans ?_ (c.outputs_mono g.short)
      rw [c.outputs_succ]
      exact (List.prefix_append_right_inj _).2 hp

/-- Without a failure, everything has gone out in the end. -/
theorem Ordered.whole (h : Ordered c w T) (hinv : Inv c w T) (hset : w.finishedEvent = true)
    (hnone : w.failed = []) :
    w.emits = List.range c.numBlocks ∧ w.sink = c.outputs c.numBlocks ∧
      ∀ s, s < c.numBlocks → w.Called s := by
  have herr := (hinv.good hnone).1
  have hall := hinv.crew.event hset
  have hidle : ∀ i st j, w.threads i ≠ .job st j := by
    intro i st j hi
    have hin := hinv.crew.all_counted hall (hinv.crew.started (i := i) (by rw [hi]; simp))
    rw [hi] at hin
    cases hin
  have hempty : w.retired = w.opened := by
    refine Nat.le_antisymm hinv.slots.order (Nat.not_lt.1 fun hlt => ?_)
    obtain ⟨i, st, j, hi, -⟩ := hinv.slots.oldest hlt
    exact hidle i st j hi
  have hread : w.opened = c.numBlocks := by
    have hfirst := hinv.crew.all_counted hall hinv.crew.one
    have hleft : (w.threads 0).left = true := by
      cases hp : w.threads 0 with
      | out n => rfl
      | gone => rfl
      | _ =>
          rw [hp] at hfirst
          cases hfirst
    have hstop := (hinv.left 0 hleft).resolve_right fun hne => hne herr
    exact (hinv.reads.stopped hstop).resolve_left fun hne => hne herr
  obtain ⟨k, hk, -, g | g⟩ := h
  · have hturn : w.writeIndex ≠ none := by
      intro hbad
      obtain ⟨e, he, -⟩ := hinv.slots.owned hbad
      have := (hinv.slots.bounds he).2
      omega
    have hk' : k = c.numBlocks := by
      rw [g.idle hturn, hempty, hread]
    rw [hk'] at hk
    refine ⟨hk, hk' ▸ g.sink, fun s hs => ?_⟩
    apply hinv.ledger.sent s
    rw [hk]
    exact List.mem_range.2 hs
  · exact absurd herr g.failing

/-- A run in which no error is handed on unseen. It is no longer than this, either. -/
theorem run_scheduled (hsize : 0 < c.blockSize) {ms : List (Move E)}
    (hrun : moves c (start c) ms = some w) (hkeep : keepsErrors c (start c) ms = true) :
    Scheduled c w ∧ ms.length ≤ 16 * c.numBlocks + 5 := by
  obtain ⟨T, h, hlen, hordered⟩ := moves_inv hsize (start_inv c) hrun
  have hord := hordered (start_ordered c) hkeep
  rw [start_toDo] at hlen
  refine ⟨?_, by omega⟩
  exact
    { cut := MtCoder.blocks_source hsize
      once := h.ledger.once
      asked := fun x hx =>
        ⟨(h.ledger.asked x hx).1.trans_le h.reads.bounded, (h.ledger.asked x hx).2⟩
      coder := fun i s hs => h.coder hs
      buffer := fun b s s' hs hs' => by
        obtain ⟨free, hpool⟩ := h.buffers
        exact hpool.single _ _ _ (hs'.held h.slots) (hs.held h.slots)
      inOrder := hord.inOrder h
      good := fun hnone => (h.good hnone).2
      bad := h.bad
      ends := fun reply hno => h.event hno
      counted := fun hset => ⟨h.crew.event hset, fun i => h.crew.all_counted (h.crew.event hset)⟩
      whole := hord.whole h }

/-- Two bytes, two blocks, two workers; what the callback makes of a block is the block. -/
def twoBlocks : MtCoder :=
  { blockSize := 1, numThreadsMax := 2, expectedDataSize := 2, stream := false
    source := [10, 20], directOutput := false, coded := fun src _ => src }

/-- A step that goes well, and one that does not. -/
def well (i : ℕ) : Move Lzma.Error := ⟨i, ⟨none, 0, false⟩⟩

def fails (i : ℕ) : Move Lzma.Error := ⟨i, ⟨some .internalFailure, 0, false⟩⟩

/-- The second block waits in the ring when the first one fails, and is not written. -/
def waitsInRing : List (Move Lzma.Error) :=
  List.replicate 5 (well 0) ++ List.replicate 7 (well 1) ++ [fails 0] ++
    List.replicate 7 (well 0) ++ List.replicate 2 (well 1)

theorem run_scheduled_ring : ∃ w, moves twoBlocks (start twoBlocks) waitsInRing = some w ∧
    w.finishedEvent = true ∧ w.result = some .internalFailure ∧ Scheduled twoBlocks w := by
  have hrun : (moves twoBlocks (start twoBlocks) waitsInRing).map
      (fun w => (w.finishedEvent, w.result)) = some (true, some .internalFailure) := by
    decide
  obtain ⟨w, hw, heq⟩ := Option.map_eq_some_iff.1 hrun
  rw [Prod.mk.injEq] at heq
  exact ⟨w, hw, heq.1, heq.2, (run_scheduled (by decide) hw (by decide)).1⟩

/-- The second block is still being coded when the first one fails, and is written. -/
def comesLater : List (Move Lzma.Error) :=
  List.replicate 5 (well 0) ++ List.replicate 5 (well 1) ++ [fails 0] ++
    List.replicate 3 (well 0) ++ List.replicate 3 (well 1)

theorem error_lost : ∃ w : Run Lzma.Error,
    moves twoBlocks (start twoBlocks) comesLater = some w ∧
    w.failed = [(0, .internalFailure)] ∧ w.emits = [1] ∧
    ¬ w.sink <+: twoBlocks.outputs twoBlocks.numBlocks := by
  have hrun : (moves twoBlocks (start twoBlocks) comesLater).map
      (fun w => (w.failed, w.emits, w.sink)) =
        some ([(0, .internalFailure)], [1], [20]) := by
    decide
  obtain ⟨w, hw, heq⟩ := Option.map_eq_some_iff.1 hrun
  rw [Prod.mk.injEq, Prod.mk.injEq] at heq
  obtain ⟨h1, h2, h3⟩ := heq
  refine ⟨w, hw, h1, h2, ?_⟩
  rw [h3]
  decide

end LzmaTurbo.Mt.Run
