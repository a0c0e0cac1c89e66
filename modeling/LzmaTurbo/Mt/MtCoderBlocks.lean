import LzmaTurbo.Lib.FreeList
import LzmaTurbo.Mt.MtCoderReads
import Mathlib.Order.Interval.Finset.Nat

/-!
# Blocks, buffers and calls

Each block in flight is the one that was read for it, the callback codes it once, and what it
made stays in the block's own buffer until the block is retired.
-/
namespace LzmaTurbo.Mt

/-- What the callback makes of the block `s`. -/
def MtCoder.output (c : MtCoder) (s : ℕ) : List UInt8 := c.coded (c.block s) (c.isLast s)

def Entry.stage {E : Type} (e : Entry E) : Option Stage := e.spot.map Prod.snd

namespace Run
variable {E : Type} {c : MtCoder} {w w' : Run E} {i : ℕ} {reply : Reply E}
variable {T T' : ℕ → Option (Entry E)} {s : ℕ} {e e' : Entry E} {j j' : Job E}

/-- The callback has been asked to code the block `s`. -/
def Called (w : Run E) (s : ℕ) : Prop := s ∈ w.calls.map Prod.fst

/-- The block `s` has been coded, unless something failed. -/
def Coded (c : MtCoder) (w : Run E) (s : ℕ) (j : Job E) : Prop :=
  j.res = none → w.Called s ∧
    ∃ b, j.bufIndex = some b ∧ (j.delivered = false → w.bufs b = c.output s)

/-- How far the block `s` has come, by its stage. -/
def Progress (c : MtCoder) (w : Run E) (s : ℕ) : Option Stage → Job E → Prop
  | some .opened, j => ¬ w.Called s ∧ j.delivered = false ∧ j.bufIndex = none ∧
      (j.res = none → j.src = c.block s)
  | some .claimed, j => ¬ w.Called s ∧ j.delivered = false ∧ j.bufIndex = none ∧
      j.res = none ∧ j.src = c.block s
  | some .coding, j => ¬ w.Called s ∧ j.delivered = false ∧ (∃ b, j.bufIndex = some b) ∧
      j.res = none ∧ j.src = c.block s
  | _, j => Coded c w s j

theorem Coded.mono (h : Coded c w s j) (hcalled : w'.Called s ↔ w.Called s)
    (hbufs : ∀ b, j.bufIndex = some b → w'.bufs b = w.bufs b) : Coded c w' s j := by
  intro hres
  obtain ⟨h1, b, hb, hout⟩ := h hres
  exact ⟨hcalled.2 h1, b, hb, fun hd => (hbufs b hb).trans (hout hd)⟩

theorem Progress.mono {o : Option Stage} (h : Progress c w s o j)
    (hcalled : w'.Called s ↔ w.Called s)
    (hbufs : ∀ b, j.bufIndex = some b → w'.bufs b = w.bufs b) : Progress c w' s o j := by
  cases o with
  | none => exact Coded.mono h hcalled hbufs
  | some st =>
      cases st with
      | opened | claimed | coding => exact ⟨fun hc => h.1 (hcalled.1 hc), h.2⟩
      | coded | writing | retiring => exact Coded.mono h hcalled hbufs

/-- What is known of the block `s` while it is in flight. -/
structure Fine (c : MtCoder) (w : Run E) (s : ℕ) (e : Entry E) : Prop where
  error : e.job.res ≠ none → w.error ≠ none
  stop : e.job.finished = true → w.stopReading = true
  last : e.job.res = none → e.job.finished = c.isLast s
  healthy : e.job.res = none → ∀ f ∈ w.failed, f.1 ≠ s
  direct : e.job.delivered = true → e.job.owns = true
  progress : Progress c w s e.stage e.job

namespace Fine

/-- What another worker does leaves a block as it is. -/
theorem mono (h : Fine c w s e) (herror : w.error ≠ none → w'.error ≠ none)
    (hstop : w.stopReading = true → w'.stopReading = true)
    (hcalled : w'.Called s ↔ w.Called s) (hfailed : ∀ f ∈ w'.failed, f ∈ w.failed ∨ f.1 ≠ s)
    (hbufs : ∀ b, e.job.bufIndex = some b → w'.bufs b = w.bufs b) : Fine c w' s e where
  error hres := herror (h.error hres)
  stop hf := hstop (h.stop hf)
  last := h.last
  healthy hres f hf := (hfailed f hf).elim (h.healthy hres f) id
  direct := h.direct
  progress := h.progress.mono hcalled hbufs

/-- A worker brings its block further, or hands it over. -/
theorem further (h : Fine c w s e) (herror : e'.job.res ≠ none → w'.error ≠ none)
    (hres : e'.job.res = none → e.job.res = none)
    (hfinished : e'.job.finished = e.job.finished)
    (hstop : w.stopReading = true → w'.stopReading = true)
    (hfailed : e'.job.res = none → w'.failed = w.failed)
    (hdirect : e'.job.delivered = true → e'.job.owns = true)
    (hprogress : Progress c w' s e'.stage e'.job) : Fine c w' s e' where
  error := herror
  stop hf := hstop (h.stop (hfinished ▸ hf))
  last hr := hfinished.trans (h.last (hres hr))
  healthy hr := by
    rw [hfailed hr]
    exact h.healthy (hres hr)
  direct := hdirect
  progress := hprogress

end Fine

/-- The blocks in flight are fine. -/
def AllFine (c : MtCoder) (w : Run E) (T : ℕ → Option (Entry E)) : Prop :=
  ∀ s e, T s = some e → Fine c w s e

theorem AllFine.set (h : AllFine c w T) {s₀ : ℕ} {x : Option (Entry E)}
    (hothers : ∀ s e, s ≠ s₀ → T s = some e → Fine c w s e → Fine c w' s e)
    (hnew : ∀ e, x = some e → Fine c w' s₀ e) : AllFine c w' (Function.update T s₀ x) := by
  intro s e hs
  rcases update_cases hs with ⟨rfl, hx⟩ | ⟨hne, hs⟩
  · exact hnew e hx
  · exact hothers s e hne hs (h s e hs)

theorem called_append {x : ℕ × List UInt8 × Bool} (hcalls : w'.calls = w.calls ++ [x]) :
    w'.Called s ↔ w.Called s ∨ s = x.1 := by
  unfold Called
  rw [hcalls, List.map_append, List.mem_append]
  simp

theorem mem_setError {x : ℕ} {f : ℕ × E} {err : E} (hf : f ∈ (w.setError x err).failed) :
    f ∈ w.failed ∨ f.1 = x := by
  rcases List.mem_append.1 hf with hf | hf
  · exact Or.inl hf
  · exact Or.inr (by rw [List.mem_singleton.1 hf])

theorem setError_ne_none (w : Run E) (x : ℕ) (err : E) : (w.setError x err).error ≠ none :=
  fun hnone => by cases (Option.or_eq_none_iff.1 hnone).2

/-- The buffer that a block has. -/
def heldOf (T : ℕ → Option (Entry E)) (s : ℕ) : Option ℕ := (T s).bind fun e => e.job.bufIndex

theorem heldOf_update (T : ℕ → Option (Entry E)) (s₀ : ℕ) (x : Option (Entry E)) :
    heldOf (Function.update T s₀ x) =
      Function.update (heldOf T) s₀ (x.bind fun e => e.job.bufIndex) := by
  funext s
  unfold heldOf
  by_cases hs : s = s₀
  · rw [hs, Function.update_self, Function.update_self]
  · rw [Function.update_of_ne hs, Function.update_of_ne hs]

/-- A block that stays in flight keeps its buffer. -/
theorem heldOf_same (hT : T s = some e) (hbuf : e'.job.bufIndex = e.job.bufIndex) :
    heldOf (Function.update T s (some e')) = heldOf T := by
  rw [heldOf_update]
  apply Function.update_eq_self_iff.2
  unfold heldOf
  rw [hT]
  exact hbuf

/-- The output buffers are free, or with one block in flight each. -/
def Buffers (w : Run E) (T : ℕ → Option (Entry E)) : Prop :=
  ∃ free, Pool blocksMax w.freeBlockHead w.freeBlockList (heldOf T) free

/-- What has been noted of the calls and of the errors. -/
structure Ledger (c : MtCoder) (w : Run E) : Prop where
  once : (w.calls.map Prod.fst).Nodup
  asked : ∀ x ∈ w.calls, x.1 < w.opened ∧ x.2 = (c.block x.1, c.isLast x.1)
  sent : ∀ s ∈ w.emits, w.Called s
  first : w.error = w.failed.head?.map Prod.snd
  readRes : w.readRes ≠ none → w.error ≠ none
  writeRes : w.writeRes ≠ none → w.error ≠ none

namespace Buffers

/-- A block that is not coded yet finds a buffer. -/
theorem take (h : Buffers w T) (hslots : Slots c w T) (hs : T s = some e)
    (hbare : e.job.bufIndex = none) (hbuf : e'.job.bufIndex = some w.freeBlockHead)
    (hhead : w'.freeBlockHead = w.freeBlockList w.freeBlockHead)
    (hlist : w'.freeBlockList = w.freeBlockList) :
    Buffers w' (Function.update T s (some e')) := by
  obtain ⟨free, hpool⟩ := h
  have hnone : heldOf T s = none := by
    unfold heldOf
    rw [hs]
    exact hbare
  have hin := hslots.bounds hs
  have hholders : ∀ s' b, heldOf T s' = some b →
      s' ∈ (Finset.Ico w.retired w.opened).erase s := by
    intro s' b hb
    rw [Finset.mem_erase, Finset.mem_Ico]
    constructor
    · rintro rfl
      rw [hnone] at hb
      cases hb
    · unfold heldOf at hb
      obtain ⟨e₁, he₁, -⟩ := Option.bind_eq_some_iff.1 hb
      exact hslots.bounds he₁
  obtain ⟨rest, hfree⟩ := hpool.exists_free hholders (by
    rw [Finset.card_erase_of_mem (Finset.mem_Ico.2 hin), Nat.card_Ico]
    have := numBlocksMax_le c
    have := hslots.room
    omega)
  rw [hfree] at hpool
  refine ⟨rest, ?_⟩
  rw [hhead, hlist, heldOf_update, show (some e').bind (fun e => e.job.bufIndex) =
    some w.freeBlockHead from hbuf]
  exact hpool.take hnone

/-- A block that is retired gives its buffer back. -/
theorem give (h : Buffers w T) {spot : Option (ℕ × Stage)} (hs : T s = some ⟨spot, j⟩)
    (hhead : w'.freeBlockHead = (w.freed j).freeBlockHead)
    (hlist : w'.freeBlockList = (w.freed j).freeBlockList) :
    Buffers w' (Function.update T s none) := by
  obtain ⟨free, hpool⟩ := h
  have hheld : heldOf T s = j.bufIndex := by
    unfold heldOf
    rw [hs]
    rfl
  unfold Buffers
  rw [hhead, hlist, heldOf_update]
  cases hbuf : j.bufIndex with
  | some b =>
      refine ⟨b :: free, ?_⟩
      unfold freed
      simp only [hbuf]
      exact hpool.give (hheld.trans hbuf)
  | none =>
      refine ⟨free, ?_⟩
      unfold freed
      simp only [hbuf]
      exact hpool.congr fun s' => congrFun
        (Function.update_eq_self_iff.2 (hheld.trans hbuf).symm) s'

theorem does (h : Buffers w T) (hslots : Slots c w T) (hfine : AllFine c w T)
    (hd : Does c w i reply T w' T') : Buffers w' T' := by
  obtain ⟨free, hpool⟩ := h
  have hT := hslots.known i
  cases hd with
  | quit hi | take hi | skip hi | misread hi | read hi | leave hi | countOut hi =>
      exact ⟨free, hpool⟩
  | enter spawns hi hsem hspawns =>
      refine ⟨free, hpool.congr fun s => ?_⟩
      rw [heldOf_update]
      refine congrFun (Function.update_eq_self_iff.2 ?_) s
      unfold heldOf
      cases hnew : T w.opened with
      | none => rfl
      | some e => exact absurd (hslots.bounds hnew).2 (lt_irrefl _)
  | fall hi | claim hi | noClaim hi | miscode hi | deliver hi | code hi | ownTurn hi =>
      refine ⟨free, ?_⟩
      rw [heldOf_same (hT _ _ hi) (by rfl)]
      exact hpool
  | takeTurn hi | park hi | miswrite hi | write hi | noWrite hi =>
      refine ⟨free, ?_⟩
      rw [heldOf_same (hT _ _ hi) (by rfl)]
      exact hpool
  | buffer hi =>
      exact take ⟨free, hpool⟩ hslots (hT _ _ hi) (hfine _ _ (hT _ _ hi)).progress.2.2.1 rfl rfl
        rfl
  | pass hi hready => exact give ⟨free, hpool⟩ (hT _ _ hi) rfl rfl
  | @succeed j hi hready =>
      have howns := hslots.writer _ _ _ _ (hT _ _ hi) rfl
      obtain ⟨j₁, hj₁, -, hblock⟩ := hslots.noted hi howns hready
      have hgive : Buffers (w.freed j) _ := give ⟨free, hpool⟩ (hT _ _ hi) rfl rfl
      obtain ⟨free', hgiven⟩ := hgive
      refine ⟨free', ?_⟩
      rw [heldOf_same (e := ⟨none, j₁⟩) ?_ ?_]
      · exact hgiven
      · rw [Function.update_of_ne (Nat.succ_ne_self _)]
        exact hj₁
      · unfold nextJob
        rw [hblock]

end Buffers

namespace Ledger

/-- Nothing is noted. -/
theorem aside (h : Ledger c w) (hcalls : w'.calls = w.calls) (hemits : w'.emits = w.emits)
    (hfailed : w'.failed = w.failed) (hopened : w.opened ≤ w'.opened)
    (herror : w'.error = w.error) (hread : w'.readRes = w.readRes)
    (hwrite : w'.writeRes = w.writeRes) : Ledger c w' := by
  refine ⟨?_, ?_, ?_, ?_, ?_, ?_⟩
  · rw [hcalls]
    exact h.once
  · rw [hcalls]
    exact fun x hx => ⟨(h.asked x hx).1.trans_le hopened, (h.asked x hx).2⟩
  · unfold Called
    rw [hcalls, hemits]
    exact h.sent
  · rw [herror, hfailed]
    exact h.first
  · rw [herror, hread]
    exact h.readRes
  · rw [herror, hwrite]
    exact h.writeRes

/-- The first error is the one that is kept. -/
theorem fail (h : Ledger c w) {x : ℕ} {err : E} (hcalls : w'.calls = w.calls)
    (hemits : w'.emits = w.emits) (hopened : w'.opened = w.opened)
    (herror : w'.error = w.error.or (some err)) (hfailed : w'.failed = w.failed ++ [(x, err)]) :
    Ledger c w' := by
  have hne : w'.error ≠ none := by
    rw [herror]
    exact fun hnone => by cases (Option.or_eq_none_iff.1 hnone).2
  refine ⟨?_, ?_, ?_, ?_, fun _ => hne, fun _ => hne⟩
  · rw [hcalls]
    exact h.once
  · rw [hcalls, hopened]
    exact h.asked
  · unfold Called
    rw [hcalls, hemits]
    exact h.sent
  · rw [herror, hfailed, h.first]
    cases w.failed <;> rfl

/-- The callback is asked for a block it has not been asked for. -/
theorem call (h : Ledger c w) (hnew : ¬ w.Called s) (hopened : s < w.opened) :
    Ledger c { w with calls := w.calls ++ [(s, c.block s, c.isLast s)] } where
  once := by
    rw [List.map_append, List.nodup_append]
    refine ⟨h.once, List.nodup_singleton _, ?_⟩
    rintro a ha b hb rfl
    rw [List.mem_singleton.1 hb] at ha
    exact hnew ha
  asked x hx := by
    rcases List.mem_append.1 hx with hx | hx
    · exact h.asked x hx
    · rw [List.mem_singleton.1 hx]
      exact ⟨hopened, rfl⟩
  sent t ht := (called_append rfl).2 (Or.inl (h.sent t ht))
  first := h.first
  readRes := h.readRes
  writeRes := h.writeRes

theorem emit (h : Ledger c w) (hs : w.Called s) (hcalls : w'.calls = w.calls)
    (hemits : w'.emits = w.emits ++ [s]) (hfailed : w'.failed = w.failed)
    (hopened : w'.opened = w.opened) (herror : w'.error = w.error)
    (hread : w'.readRes = w.readRes) (hwrite : w'.writeRes = w.writeRes) : Ledger c w' := by
  refine ⟨?_, ?_, ?_, ?_, ?_, ?_⟩
  · rw [hcalls]
    exact h.once
  · rw [hcalls, hopened]
    exact h.asked
  · unfold Called
    rw [hcalls, hemits]
    intro t ht
    rcases List.mem_append.1 ht with ht | ht
    · exact h.sent t ht
    · rw [List.mem_singleton.1 ht]
      exact hs
  · rw [herror, hfailed]
    exact h.first
  · rw [herror, hread]
    exact h.readRes
  · rw [herror, hwrite]
    exact h.writeRes

theorem does (h : Ledger c w) (hslots : Slots c w T) (hfine : AllFine c w T)
    (hd : Does c w i reply T w' T') : Ledger c w' := by
  have hT := hslots.known i
  cases hd with
  | quit hi | take hi | skip hi | read hi | leave hi | countOut hi | fall hi | noClaim hi =>
      exact h.aside rfl rfl rfl le_rfl rfl rfl rfl
  | claim hi | buffer hi | ownTurn hi | takeTurn hi | park hi | noWrite hi | succeed hi | pass hi =>
      exact h.aside rfl rfl rfl le_rfl rfl rfl rfl
  | enter spawns hi => exact h.aside rfl rfl rfl (Nat.le_succ _) rfl rfl rfl
  | misread hi hfails =>
      exact h.fail rfl rfl rfl rfl rfl
  | miscode hi hfails =>
      obtain ⟨hnew, -, -, hres, hsrc⟩ := (hfine _ _ (hT _ _ hi)).progress
      have hlast := (hfine _ _ (hT _ _ hi)).last hres
      have hcall := h.call hnew (hslots.bounds (hT _ _ hi)).2
      rw [← hsrc, ← hlast] at hcall
      exact hcall.fail rfl rfl rfl rfl rfl
  | deliver hi howns =>
      obtain ⟨hnew, -, -, hres, hsrc⟩ := (hfine _ _ (hT _ _ hi)).progress
      have hlast := (hfine _ _ (hT _ _ hi)).last hres
      have hcall := h.call hnew (hslots.bounds (hT _ _ hi)).2
      rw [← hsrc, ← hlast] at hcall
      exact hcall.emit ((called_append rfl).2 (Or.inr rfl)) rfl rfl rfl rfl rfl rfl rfl
  | code hi =>
      obtain ⟨hnew, -, -, hres, hsrc⟩ := (hfine _ _ (hT _ _ hi)).progress
      have hlast := (hfine _ _ (hT _ _ hi)).last hres
      have hcall := h.call hnew (hslots.bounds (hT _ _ hi)).2
      rw [← hsrc, ← hlast] at hcall
      exact hcall.aside rfl rfl rfl le_rfl rfl rfl rfl
  | miswrite hi hres hbuf hnot hfails =>
      exact h.fail rfl rfl rfl rfl rfl
  | write hi hres =>
      have hcoded : Coded c w _ _ := (hfine _ _ (hT _ _ hi)).progress
      exact h.emit (hcoded hres).1 rfl rfl rfl rfl rfl rfl rfl

end Ledger

namespace AllFine

/-- One block is called, or fails, and the others are as they were. -/
theorem others {s₀ : ℕ} (herror : w.error ≠ none → w'.error ≠ none)
    (hstop : w.stopReading = true → w'.stopReading = true)
    (hcalled : ∀ s, s ≠ s₀ → (w'.Called s ↔ w.Called s))
    (hfailed : ∀ f ∈ w'.failed, f ∈ w.failed ∨ f.1 = s₀)
    (hbufs : ∀ s e b, s ≠ s₀ → T s = some e → e.job.bufIndex = some b → w'.bufs b = w.bufs b) :
    ∀ s e, s ≠ s₀ → T s = some e → Fine c w s e → Fine c w' s e := by
  intro s e hne hs hf
  refine hf.mono herror hstop (hcalled s hne) (fun f hf' => ?_) (fun b => hbufs s e b hne hs)
  exact (hfailed f hf').imp_right fun heq => by rw [heq]; exact hne.symm

/-- Nothing changes but where the blocks are. -/
theorem quiet {s₀ : ℕ} (herror : w'.error = w.error) (hstop : w'.stopReading = w.stopReading)
    (hcalls : w'.calls = w.calls) (hfailed : w'.failed = w.failed) (hbufs : w'.bufs = w.bufs) :
    ∀ s e, s ≠ s₀ → T s = some e → Fine c w s e → Fine c w' s e := by
  refine others (fun h => herror ▸ h) (fun h => hstop ▸ h) (fun s _ => ?_)
    (fun f hf => Or.inl (hfailed ▸ hf)) (fun s e b _ _ _ => hbufs ▸ rfl)
  unfold Called
  rw [hcalls]

theorem enter (h : AllFine c w T) (hreads : Reads c w) (hledger : Ledger c w)
    {src : List UInt8} {finished : Bool} {res : Option E}
    (hi : w.threads i = .hasRead src finished res) (herror : w'.error = w.error)
    (hstop : w'.stopReading = (w.stopReading || (w.openJob src finished res).finished))
    (hcalls : w'.calls = w.calls) (hfailed : w'.failed = w.failed) (hbufs : w'.bufs = w.bufs) :
    AllFine c w' (Function.update T w.opened
      (some ⟨some (i, .opened), w.openJob src finished res⟩)) := by
  obtain ⟨-, hbad, hgood⟩ := hreads.hasRead i src finished res hi
  refine h.set (fun s e _ _ hf => ?_) ?_
  · refine hf.mono (fun hne => herror ▸ hne) (fun hs => ?_) ?_ (fun f hf' => Or.inl (hfailed ▸ hf'))
      (fun b _ => hbufs ▸ rfl)
    · rw [hstop, hs]
      rfl
    · unfold Called
      rw [hcalls]
  · rintro e ⟨⟩
    have hnone : res.or w.error = none → res = none ∧ w.error = none := Option.or_eq_none_iff.1
    refine ⟨?_, ?_, ?_, ?_, ?_, ?_, rfl, rfl, ?_⟩
    · intro hres
      rw [herror]
      intro herr
      cases res with
      | none => exact hres herr
      | some e => exact hbad (by simp) herr
    · intro hf
      rw [hstop]
      exact Bool.or_eq_true_iff.2 (Or.inr hf)
    · intro hres
      obtain ⟨h1, h2⟩ := hnone hres
      rw [← (hgood h1).2.1]
      unfold openJob
      simp only [h1, h2, Option.or_none, Option.isSome_none, Bool.or_false]
    · intro hres f hf
      have hfirst := hledger.first
      rw [(hnone hres).2] at hfirst
      rw [hfailed] at hf
      cases hfs : w.failed with
      | nil =>
          rw [hfs] at hf
          cases hf
      | cons g gs =>
          rw [hfs] at hfirst
          cases hfirst
    · exact fun hbad => by cases hbad
    · unfold Called
      rw [hcalls]
      intro hin
      obtain ⟨x, hx, heq⟩ := List.mem_map.1 hin
      have := (hledger.asked x hx).1
      omega
    · exact fun hres => (hgood (hnone hres).1).1

theorem does (h : AllFine c w T) (hslots : Slots c w T) (hreads : Reads c w)
    (hbuffers : Buffers w T) (hledger : Ledger c w) (hd : Does c w i reply T w' T') :
    AllFine c w' T' := by
  have hT := hslots.known i
  have hown : ∀ {st : Stage} {j : Job E}, w.threads i = .job st j →
      Fine c w j.seq ⟨some (i, st), j⟩ := fun hi => h _ _ (hT _ _ hi)
  cases hd with
  | quit hi | take hi | skip hi | read hi | leave hi | countOut hi =>
      exact fun s e hs => (h s e hs).mono id id Iff.rfl (fun _ => Or.inl) (fun _ _ => rfl)
  | misread hi hfails =>
      refine fun s e hs => (h s e hs).mono or_ne_none id Iff.rfl (fun f hf => ?_) (fun _ _ => rfl)
      exact (mem_setError (w := w) hf).imp_right fun heq => by
        rw [heq]
        exact (hslots.bounds hs).2.ne'
  | enter spawns hi => exact h.enter hreads hledger hi rfl rfl rfl rfl rfl
  | fall hi hres =>
      refine h.set (quiet rfl rfl rfl rfl rfl) ?_
      rintro e ⟨⟩
      refine (hown hi).further (hown hi).error id rfl id (fun _ => rfl) (hown hi).direct ?_
      exact fun hbad => by rw [hres] at hbad; cases hbad
  | claim hi hres =>
      refine h.set (quiet rfl rfl rfl rfl rfl) ?_
      rintro e ⟨⟩
      obtain ⟨g1, g2, g3, g4⟩ := (hown hi).progress
      exact (hown hi).further (hown hi).error id rfl id (fun _ => rfl) (fun _ => rfl)
        ⟨g1, g2, g3, hres, g4 hres⟩
  | noClaim hi hres =>
      refine h.set (quiet rfl rfl rfl rfl rfl) ?_
      rintro e ⟨⟩
      obtain ⟨g1, g2, g3, g4⟩ := (hown hi).progress
      exact (hown hi).further (hown hi).error id rfl id (fun _ => rfl) (hown hi).direct
        ⟨g1, g2, g3, hres, g4 hres⟩
  | buffer hi =>
      refine h.set (quiet rfl rfl rfl rfl rfl) ?_
      rintro e ⟨⟩
      obtain ⟨g1, g2, g3, g4, g5⟩ := (hown hi).progress
      exact (hown hi).further (hown hi).error id rfl id (fun _ => rfl) (hown hi).direct
        ⟨g1, g2, ⟨_, rfl⟩, g4, g5⟩
  | @miscode j err hi hfails =>
      refine h.set (others or_ne_none id (fun s hne => ?_) (fun f => mem_setError (w := w))
        (fun _ _ _ _ _ _ => rfl)) ?_
      · rw [called_append (w := w) rfl]
        exact or_iff_left hne
      · rintro e ⟨⟩
        exact (hown hi).further (fun _ => setError_ne_none w j.seq err) (fun hbad => by cases hbad)
          rfl id (fun hbad => by cases hbad) (hown hi).direct (fun hbad => by cases hbad)
  | deliver hi howns =>
      obtain ⟨g1, g2, ⟨b, hb⟩, g4, g5⟩ := (hown hi).progress
      refine h.set (others id id (fun s hne => ?_) (fun f => Or.inl) (fun _ _ _ _ _ _ => rfl)) ?_
      · rw [called_append (w := w) rfl]
        exact or_iff_left hne
      · rintro e ⟨⟩
        refine (hown hi).further (hown hi).error id rfl id (fun _ => rfl) (fun _ => howns) ?_
        exact fun _ => ⟨(called_append rfl).2 (Or.inr rfl), b, hb, fun hbad => by cases hbad⟩
  | @code j hi =>
      obtain ⟨g1, g2, ⟨b, hb⟩, g4, g5⟩ := (hown hi).progress
      obtain ⟨free, hpool⟩ := hbuffers
      refine h.set (others id id (fun s hne => ?_) (fun f => Or.inl)
        (fun s e b' hne hs hb' => ?_)) ?_
      · rw [called_append (w := w) rfl]
        exact or_iff_left hne
      · refine Function.update_of_ne ?_ _ _
        rintro rfl
        rw [hb] at hb'
        refine hne (hpool.single s j.seq b ?_ ?_)
        · unfold heldOf
          rw [hs]
          exact hb'
        · unfold heldOf
          rw [hT _ _ hi]
          exact hb
      · rintro e ⟨⟩
        refine (hown hi).further (hown hi).error id rfl id (fun _ => rfl) (hown hi).direct ?_
        refine fun _ => ⟨(called_append rfl).2 (Or.inr rfl), b, hb, fun _ => ?_⟩
        unfold MtCoder.output
        rw [← g5, ← (hown hi).last g4, hb]
        exact Function.update_self ..
  | ownTurn hi howns =>
      refine h.set (quiet rfl rfl rfl rfl rfl) ?_
      rintro e ⟨⟩
      refine (hown hi).further ?_ (fun hres => (Option.or_eq_none_iff.1 hres).2) rfl id
        (fun _ => rfl) (hown hi).direct ?_
      · intro hres herr
        refine hres (Option.or_eq_none_iff.2 ⟨?_, ?_⟩)
        · exact by_contra fun hne => hledger.writeRes hne herr
        · exact by_contra fun hne => (hown hi).error hne herr
      · have hcoded : Coded c w _ _ := (hown hi).progress
        exact fun hres => hcoded (Option.or_eq_none_iff.1 hres).2
  | takeTurn hi hturn =>
      refine h.set (quiet rfl rfl rfl rfl rfl) ?_
      rintro e ⟨⟩
      refine (hown hi).further ?_ (fun hres => (Option.or_eq_none_iff.1 hres).2) rfl id
        (fun _ => rfl) (fun _ => rfl) ?_
      · intro hres herr
        refine hres (Option.or_eq_none_iff.2 ⟨?_, ?_⟩)
        · exact by_contra fun hne => hledger.writeRes hne herr
        · exact by_contra fun hne => (hown hi).error hne herr
      · have hcoded : Coded c w _ _ := (hown hi).progress
        exact fun hres => hcoded (Option.or_eq_none_iff.1 hres).2
  | park hi | write hi | noWrite hi =>
      refine h.set (quiet rfl rfl rfl rfl rfl) ?_
      rintro e ⟨⟩
      have hcoded : Coded c w _ _ := (hown hi).progress
      exact (hown hi).further (hown hi).error id rfl id (fun _ => rfl) (hown hi).direct hcoded
  | @miswrite j b err hi =>
      refine h.set (others or_ne_none id (fun s hne => Iff.rfl) (fun f => mem_setError (w := w))
        (fun _ _ _ _ _ _ => rfl)) ?_
      rintro e ⟨⟩
      exact (hown hi).further (fun _ => setError_ne_none w j.seq err) (fun hbad => by cases hbad)
        rfl id (fun hbad => by cases hbad) (hown hi).direct (fun hbad => by cases hbad)
  | pass hi =>
      refine h.set (quiet rfl rfl rfl rfl rfl) ?_
      rintro e ⟨⟩
  | @succeed j hi hready =>
      have howns := hslots.writer _ _ _ _ (hT _ _ hi) rfl
      obtain ⟨j₁, hj₁, -, hblock⟩ := hslots.noted hi howns hready
      have hnext := h _ _ hj₁
      have hfreed : AllFine c (w.freed j) (Function.update T j.seq none) :=
        h.set (quiet rfl rfl rfl rfl rfl) (by rintro e ⟨⟩)
      refine hfreed.set (quiet rfl rfl rfl rfl rfl) ?_
      rintro e ⟨⟩
      have hjob : w.nextJob c j = { seq := j.seq + 1, bi := next c j.bi, src := []
                                    finished := j₁.finished, res := j.res.or j₁.res
                                    bufIndex := j₁.bufIndex, delivered := j₁.delivered
                                    owns := true } := by
        unfold nextJob
        rw [hblock]
      rw [hjob]
      refine hnext.further ?_ (fun hres => (Option.or_eq_none_iff.1 hres).2) rfl id
        (fun _ => rfl) (fun _ => rfl) ?_
      · intro hres herr
        refine hres (Option.or_eq_none_iff.2 ⟨?_, ?_⟩)
        · exact by_contra fun hne => (hown hi).error hne herr
        · exact by_contra fun hne => hnext.error hne herr
      · have hcoded : Coded c w _ _ := hnext.progress
        exact fun hres => hcoded (Option.or_eq_none_iff.1 hres).2

end AllFine

end Run
end LzmaTurbo.Mt
