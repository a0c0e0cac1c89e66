import LzmaTurbo.Mt.MtCoderBlocks
import LzmaTurbo.Mt.MtCoderCrew

/-!
# The order of what is written

As long as nothing fails, the blocks go out in turn. Once the block whose turn it is has
failed, nothing goes out any more, provided that the error is not lost with the turn.
-/
namespace LzmaTurbo.Mt

/-- What the first blocks come to. -/
def MtCoder.outputs (c : MtCoder) (k : ℕ) : List UInt8 := ((List.range k).map c.output).flatten

theorem MtCoder.outputs_succ (c : MtCoder) (k : ℕ) :
    c.outputs (k + 1) = c.outputs k ++ c.output k := by
  unfold MtCoder.outputs
  rw [List.range_succ, List.map_append, List.flatten_append]
  simp

theorem MtCoder.outputs_mono (c : MtCoder) {k n : ℕ} (h : k ≤ n) :
    c.outputs k <+: c.outputs n := by
  obtain ⟨m, rfl⟩ := Nat.exists_eq_add_of_le h
  clear h
  induction m with
  | zero => exact List.prefix_rfl
  | succ m ih =>
      apply ih.trans
      rw [← Nat.add_assoc, c.outputs_succ]
      exact List.prefix_append _ _

/-- The block has gone out, by its own worker's coding or by its writer. -/
def Entry.sent {E : Type} (e : Entry E) : Prop :=
  e.job.delivered = true ∨ e.stage = some .retiring

theorem Entry.sent_congr {E : Type} {e e' : Entry E} (h : e.stage ≠ some .retiring)
    (h' : e'.stage ≠ some .retiring) (hdelivered : e'.job.delivered = e.job.delivered) :
    e'.sent ↔ e.sent := by
  unfold Entry.sent
  rw [hdelivered, or_iff_left h, or_iff_left h']

theorem Entry.not_sent {E : Type} {e : Entry E} (h : e.stage ≠ some .retiring)
    (hdelivered : e.job.delivered = false) : ¬ e.sent := by
  unfold Entry.sent
  rw [hdelivered, or_iff_left h]
  decide

namespace Run
variable {E : Type} {c : MtCoder} {w w' : Run E} {i k : ℕ} {reply : Reply E}
variable {T T' : ℕ → Option (Entry E)} {s : ℕ} {e e' : Entry E}

/-- The block after `s`, if it has been read, has an error, or will find the error of a write. -/
def silenced (c : MtCoder) (w : Run E) (s : ℕ) : Phase E → Bool
  | .job st j => j.seq != s + 1 || j.res.isSome ||
      w.writeRes.isSome && !(c.directOutput && st == .opened)
  | _ => true

/-- A worker that hands the write turn on with an error in its hands does not hand it to a
block that would be written. -/
def keepsError (c : MtCoder) (w : Run E) (i : ℕ) : Bool :=
  match w.threads i with
  | .job .retiring j => j.res.isNone || w.readyBlocks (next c j.bi) ||
      (List.range c.numThreads).all fun k => silenced c w j.seq (w.threads k)
  | _ => true

/-- No worker of the run loses an error. -/
def keepsErrors (c : MtCoder) (w : Run E) : List (Move E) → Bool
  | [] => true
  | m :: ms => keepsError c w m.worker &&
      match w.step c m.worker m.reply with
      | some w' => keepsErrors c w' ms
      | none => true

/-- What `keepsError` says. -/
def Heeds (c : MtCoder) (w : Run E) (i : ℕ) : Prop :=
  ∀ j, w.threads i = .job .retiring j → j.res ≠ none → w.readyBlocks (next c j.bi) = false →
    ∀ k st j', w.threads k = .job st j' → j'.seq = j.seq + 1 →
      j'.res ≠ none ∨ w.writeRes ≠ none ∧ ¬ (c.directOutput = true ∧ st = .opened)

theorem heeds_of_keepsError (hcrew : Crew c w) (h : keepsError c w i = true) : Heeds c w i := by
  intro j hi hres hready k st j' hk hseq
  unfold keepsError at h
  rw [hi] at h
  simp only [hready, Bool.or_false, Bool.or_eq_true, Option.isNone_iff_eq_none] at h
  have hall := List.all_eq_true.1 (h.resolve_left hres) k
    (List.mem_range.2 (hcrew.lt_numThreads (by rw [hk]; simp)))
  rw [hk] at hall
  simp only [silenced, hseq, bne_self_eq_false, Bool.false_or, Bool.or_eq_true, Bool.and_eq_true,
    Bool.not_eq_true', Bool.and_eq_false_iff, beq_eq_false_iff_ne] at hall
  refine hall.imp (fun h' => ?_) fun h' => ⟨?_, fun hbad => ?_⟩
  · exact Option.isSome_iff_ne_none.1 h'
  · exact Option.isSome_iff_ne_none.1 h'.1
  · rcases h'.2 with hd | hs
    · exact absurd (hd.symm.trans hbad.1) (by decide)
    · exact hs hbad.2

/-- The first `k` blocks are out, and the next one may follow. -/
structure Clean (c : MtCoder) (w : Run E) (T : ℕ → Option (Entry E)) (k : ℕ) : Prop where
  noWriteRes : w.writeRes = none
  sink : w.sink = c.outputs k
  idle : w.writeIndex ≠ none → k = w.retired
  owner : ∀ e, T w.retired = some e → e.job.owns = true → e.job.res = none ∧
    (e.sent → k = w.retired + 1) ∧ (¬ e.sent → k = w.retired)

/-- The first `k` blocks are out, and nothing follows but a part of the next. -/
structure Silent (c : MtCoder) (w : Run E) (T : ℕ → Option (Entry E)) (k : ℕ) : Prop where
  before : k ≤ w.retired
  short : k < c.numBlocks
  failing : w.error ≠ none
  sink : ∃ p, p <+: c.output k ∧ w.sink = c.outputs k ++ p
  owner : ∀ e, T w.retired = some e → e.job.owns = true → e.job.res ≠ none
  waits : ∀ e, T w.retired = some e → e.job.owns = false → e.job.res ≠ none ∨
    w.writeRes ≠ none ∧ ¬ (c.directOutput = true ∧ e.stage = some .opened)

/-- What has gone out is in order, and nothing that failed is in it. -/
def Ordered (c : MtCoder) (w : Run E) (T : ℕ → Option (Entry E)) : Prop :=
  ∃ k, w.emits = List.range k ∧ (∀ f ∈ w.failed, k ≤ f.1) ∧ (Clean c w T k ∨ Silent c w T k)

namespace Clean

/-- No more is out than the block whose turn it is. -/
theorem le_owner (h : Clean c w T k) (hslots : Slots c w T) (hs : T s = some e)
    (hnot : ¬ (e.job.owns = true ∧ e.sent)) : k ≤ s := by
  obtain ⟨h1, h2⟩ := hslots.bounds hs
  cases hturn : w.writeIndex with
  | some n => exact (h.idle (by rw [hturn]; simp)).trans_le h1
  | none =>
      obtain ⟨e₁, he₁, howns⟩ := hslots.owned hturn
      obtain ⟨-, hsent, hunsent⟩ := h.owner e₁ he₁ howns
      by_cases hse : e₁.sent
      · rcases Nat.lt_or_eq_of_le h1 with hlt | heq
        · exact (hsent hse).trans_le hlt
        · rw [← heq, he₁] at hs
          cases hs
          exact absurd ⟨howns, hse⟩ hnot
      · exact (hunsent hse).trans_le h1

theorem le_opened (h : Clean c w T k) (hslots : Slots c w T) : k ≤ w.opened := by
  cases hturn : w.writeIndex with
  | some n => exact (h.idle (by rw [hturn]; simp)).trans_le hslots.order
  | none =>
      obtain ⟨e₁, he₁, howns⟩ := hslots.owned hturn
      obtain ⟨-, hsent, hunsent⟩ := h.owner e₁ he₁ howns
      have hlt := (hslots.bounds he₁).2
      by_cases hse : e₁.sent
      · exact (hsent hse).trans_le hlt
      · exact (hunsent hse).trans_le hlt.le

/-- A block goes on, and nothing goes out. -/
theorem keep (h : Clean c w T k) (hs : T s = some e) (howns : e'.job.owns = e.job.owns)
    (hres : e.job.owns = true → e.job.res = none → e'.job.res = none)
    (hsent : e.job.owns = true → e.job.res = none → (e'.sent ↔ e.sent))
    (hwrite : w'.writeRes = w.writeRes) (hsink : w'.sink = w.sink)
    (hturn : w'.writeIndex = w.writeIndex) (hretired : w'.retired = w.retired) :
    Clean c w' (Function.update T s (some e')) k := by
  refine ⟨hwrite.trans h.noWriteRes, hsink.trans h.sink, ?_, ?_⟩
  · rw [hturn, hretired]
    exact h.idle
  · rw [hretired]
    intro e₁ he₁ ho
    rcases update_cases he₁ with ⟨heq, ⟨⟩⟩ | ⟨-, he₁⟩
    · rw [howns] at ho
      obtain ⟨g1, g2, g3⟩ := h.owner e (heq ▸ hs) ho
      rw [hsent ho g1]
      exact ⟨hres ho g1, g2, g3⟩
    · exact h.owner e₁ he₁ ho

end Clean

namespace Silent

theorem keep (h : Silent c w T k) (hs : T s = some e) (howns : e'.job.owns = e.job.owns)
    (hres : e.job.res ≠ none → e'.job.res ≠ none) (hstage : e'.stage ≠ some .opened)
    (hwrite : w'.writeRes = w.writeRes) (herror : w.error ≠ none → w'.error ≠ none)
    (hsink : w'.sink = w.sink) (hretired : w'.retired = w.retired) :
    Silent c w' (Function.update T s (some e')) k := by
  refine ⟨hretired ▸ h.before, h.short, herror h.failing, hsink ▸ h.sink, ?_, ?_⟩
  · rw [hretired]
    intro e₁ he₁ ho
    rcases update_cases he₁ with ⟨heq, ⟨⟩⟩ | ⟨-, he₁⟩
    · exact hres (h.owner e (heq ▸ hs) (howns ▸ ho))
    · exact h.owner e₁ he₁ ho
  · rw [hretired, hwrite]
    intro e₁ he₁ ho
    rcases update_cases he₁ with ⟨heq, ⟨⟩⟩ | ⟨-, he₁⟩
    · exact (h.waits e (heq ▸ hs) (howns ▸ ho)).imp hres fun g => ⟨g.1, fun hbad => hstage hbad.2⟩
    · exact h.waits e₁ he₁ ho

end Silent

namespace Ordered

/-- The blocks in flight are what they were. -/
theorem aside (h : Ordered c w T) (hemits : w'.emits = w.emits) (hfailed : w'.failed = w.failed)
    (hwrite : w'.writeRes = w.writeRes) (herror : w'.error = w.error) (hsink : w'.sink = w.sink)
    (hturn : w'.writeIndex = w.writeIndex) (hretired : w'.retired = w.retired) :
    Ordered c w' T := by
  obtain ⟨k, hk, hf, hor⟩ := h
  refine ⟨k, hemits.trans hk, hfailed ▸ hf, hor.imp (fun g => ?_) fun g => ?_⟩
  · refine ⟨hwrite.trans g.noWriteRes, hsink.trans g.sink, ?_, ?_⟩
    · rw [hturn, hretired]
      exact g.idle
    · rw [hretired]
      exact g.owner
  · refine ⟨hretired ▸ g.before, g.short, herror ▸ g.failing, hsink ▸ g.sink, ?_, ?_⟩
    · rw [hretired]
      exact g.owner
    · rw [hretired, hwrite]
      exact g.waits

theorem keep (h : Ordered c w T) (hs : T s = some e) (howns : e'.job.owns = e.job.owns)
    (hres : e'.job.res = e.job.res)
    (hsent : e.job.owns = true → e.job.res = none → (e'.sent ↔ e.sent))
    (hstage : e'.stage ≠ some .opened) (hemits : w'.emits = w.emits)
    (hfailed : w'.failed = w.failed) (hwrite : w'.writeRes = w.writeRes)
    (herror : w'.error = w.error) (hsink : w'.sink = w.sink)
    (hturn : w'.writeIndex = w.writeIndex) (hretired : w'.retired = w.retired) :
    Ordered c w' (Function.update T s (some e')) := by
  obtain ⟨k, hk, hf, hor⟩ := h
  refine ⟨k, hemits.trans hk, hfailed ▸ hf, hor.imp (fun g => ?_) fun g => ?_⟩
  · exact g.keep hs howns (fun _ hn => hres.trans hn) hsent hwrite hsink hturn hretired
  · exact g.keep hs howns (fun hn => hres ▸ hn) hstage hwrite (fun hn => herror ▸ hn) hsink
      hretired

/-- A read fails. -/
theorem misread (h : Ordered c w T) (hslots : Slots c w T) (err : E) {p : Phase E} :
    Ordered c ((({ w with readRes := some err } : Run E).setError w.opened err).goTo i p) T := by
  obtain ⟨k, hk, hf, hor⟩ := h
  refine ⟨k, hk, fun f hf' => ?_, hor.imp (fun g => ?_) fun g => ?_⟩
  · rcases mem_setError (w := w) hf' with hin | heq
    · exact hf f hin
    · rw [heq]
      exact hor.elim (fun g => g.le_opened hslots) fun g => g.before.trans hslots.order
  · exact ⟨g.noWriteRes, g.sink, g.idle, g.owner⟩
  · exact ⟨g.before, g.short, setError_ne_none w 0 err, g.sink, g.owner, g.waits⟩

/-- A block is read. -/
theorem enter (h : Ordered c w T) (hnot : e'.job.owns = false)
    (hres : w.error ≠ none → e'.job.res ≠ none) (hemits : w'.emits = w.emits)
    (hfailed : w'.failed = w.failed) (hwrite : w'.writeRes = w.writeRes)
    (herror : w'.error = w.error) (hsink : w'.sink = w.sink)
    (hturn : w'.writeIndex = w.writeIndex) (hretired : w'.retired = w.retired) :
    Ordered c w' (Function.update T w.opened (some e')) := by
  obtain ⟨k, hk, hf, hor⟩ := h
  refine ⟨k, hemits.trans hk, hfailed ▸ hf, hor.imp (fun g => ?_) fun g => ?_⟩
  · refine ⟨hwrite.trans g.noWriteRes, hsink.trans g.sink, ?_, ?_⟩
    · rw [hturn, hretired]
      exact g.idle
    · rw [hretired]
      intro e₁ he₁ ho
      rcases update_cases he₁ with ⟨-, ⟨⟩⟩ | ⟨-, he₁⟩
      · exact absurd (hnot.symm.trans ho) (by decide)
      · exact g.owner e₁ he₁ ho
  · refine ⟨hretired ▸ g.before, g.short, herror ▸ g.failing, hsink ▸ g.sink, ?_, ?_⟩
    · rw [hretired]
      intro e₁ he₁ ho
      rcases update_cases he₁ with ⟨-, ⟨⟩⟩ | ⟨-, he₁⟩
      · exact absurd (hnot.symm.trans ho) (by decide)
      · exact g.owner e₁ he₁ ho
    · rw [hretired, hwrite]
      intro e₁ he₁ ho
      rcases update_cases he₁ with ⟨-, ⟨⟩⟩ | ⟨-, he₁⟩
      · exact Or.inl (hres g.failing)
      · exact g.waits e₁ he₁ ho

section
variable {st st' : Stage} {j j' : Job E}

/-- The turn is taken, perhaps with an error. -/
theorem takeTurn (h : Ordered c w T) (hslots : Slots c w T) (hreads : Reads c w)
    (hfine : AllFine c w T) (hi : w.threads i = .job st j) (hturn : w.writeIndex = some j.bi)
    (howns : j'.owns = true) (hsent : ¬ (⟨some (i, st'), j'⟩ : Entry E).sent)
    (hclean : w.writeRes = none → j'.res = j.res)
    (hsilent : (j.res ≠ none ∨ w.writeRes ≠ none ∧ ¬ (c.directOutput = true ∧ st = .opened)) →
      j'.res ≠ none)
    (hemits : w'.emits = w.emits) (hfailed : w'.failed = w.failed)
    (hwrite : w'.writeRes = w.writeRes) (herror : w'.error = w.error) (hsink : w'.sink = w.sink)
    (hnone : w'.writeIndex = none) (hretired : w'.retired = w.retired) :
    Ordered c w' (Function.update T j.seq (some ⟨some (i, st'), j'⟩)) := by
  obtain ⟨k, hk, hf, hor⟩ := h
  have hT := hslots.known i st j hi
  have hfirst := hslots.first hT hturn
  have hlt := (hslots.bounds hT).2
  have hnot : j.owns = false := by
    cases ho : j.owns with
    | false => rfl
    | true =>
        have := (hslots.owns _ _ hT ho).2
        rw [hturn] at this
        cases this
  refine ⟨k, hemits.trans hk, hfailed ▸ hf, ?_⟩
  rcases hor with g | g
  · have hk' := g.idle (by rw [hturn]; simp)
    by_cases hres : j.res = none
    · refine Or.inl ⟨hwrite.trans g.noWriteRes, hsink.trans g.sink, ?_, ?_⟩
      · exact fun hbad => absurd hnone hbad
      · rw [hretired]
        intro e₁ he₁ _
        rcases update_cases he₁ with ⟨-, ⟨⟩⟩ | ⟨hne, -⟩
        · exact ⟨(hclean g.noWriteRes).trans hres, fun hbad => absurd hbad hsent, fun _ => hk'⟩
        · exact absurd hfirst.symm hne
    · refine Or.inr ⟨?_, ?_, ?_, ?_, ?_, ?_⟩
      · rw [hretired]
        exact hk'.le
      · have := hreads.bounded
        omega
      · rw [herror]
        exact (hfine _ _ hT).error hres
      · exact ⟨[], List.nil_prefix, by rw [hsink, g.sink, List.append_nil]⟩
      · rw [hretired]
        intro e₁ he₁ _
        rcases update_cases he₁ with ⟨-, ⟨⟩⟩ | ⟨hne, -⟩
        · exact hsilent (Or.inl hres)
        · exact absurd hfirst.symm hne
      · rw [hretired]
        intro e₁ he₁ ho
        rcases update_cases he₁ with ⟨-, ⟨⟩⟩ | ⟨hne, -⟩
        · exact absurd (howns.symm.trans ho) (by decide)
        · exact absurd hfirst.symm hne
  · have hwaits := g.waits _ (hfirst ▸ hT) hnot
    have hres : j'.res ≠ none := by
      refine hsilent (hwaits.imp_right fun hw => ⟨hw.1, fun hbad => hw.2 ⟨hbad.1, ?_⟩⟩)
      rw [hbad.2]
      rfl
    refine Or.inr ⟨hretired ▸ g.before, g.short, herror ▸ g.failing, hsink ▸ g.sink, ?_, ?_⟩
    · rw [hretired]
      intro e₁ he₁ _
      rcases update_cases he₁ with ⟨-, ⟨⟩⟩ | ⟨hne, -⟩
      · exact hres
      · exact absurd hfirst.symm hne
    · rw [hretired]
      intro e₁ he₁ ho
      rcases update_cases he₁ with ⟨-, ⟨⟩⟩ | ⟨hne, -⟩
      · exact absurd (howns.symm.trans ho) (by decide)
      · exact absurd hfirst.symm hne

/-- The block whose turn it is goes out. -/
theorem emit (h : Ordered c w T) (hslots : Slots c w T) (hfine : AllFine c w T)
    (hi : w.threads i = .job st j) (howns : j.owns = true) (hres : j.res = none)
    (hnot : ¬ (⟨some (i, st), j⟩ : Entry E).sent) (hres' : j'.res = none)
    (hsent : (⟨some (i, st'), j'⟩ : Entry E).sent)
    (hemits : w'.emits = w.emits ++ [j.seq]) (hfailed : w'.failed = w.failed)
    (hwrite : w'.writeRes = w.writeRes) (hsink : w'.sink = w.sink ++ c.output j.seq)
    (hturn : w'.writeIndex = w.writeIndex) (hretired : w'.retired = w.retired) :
    Ordered c w' (Function.update T j.seq (some ⟨some (i, st'), j'⟩)) := by
  obtain ⟨k, hk, hf, hor⟩ := h
  have hT := hslots.known i st j hi
  obtain ⟨hfirst, hnone⟩ := hslots.owns _ _ hT howns
  rcases hor with g | g
  · have hk' : k = w.retired := (g.owner _ (hfirst ▸ hT) howns).2.2 hnot
    refine ⟨k + 1, ?_, fun f hf' => ?_, Or.inl ⟨hwrite.trans g.noWriteRes, ?_, ?_, ?_⟩⟩
    · rw [hemits, hk, List.range_succ, hfirst, hk']
    · rw [hfailed] at hf'
      have h1 := hf f hf'
      have h2 := (hfine _ _ hT).healthy hres f hf'
      omega
    · rw [hsink, g.sink, c.outputs_succ, hfirst, hk']
    · rw [hturn]
      exact fun hbad => absurd hnone hbad
    · rw [hretired]
      intro e₁ he₁ _
      rcases update_cases he₁ with ⟨-, ⟨⟩⟩ | ⟨hne, -⟩
      · exact ⟨hres', fun _ => congrArg (· + 1) hk', fun hbad => absurd hsent hbad⟩
      · exact absurd hfirst.symm hne
  · exact absurd hres (g.owner _ (hfirst ▸ hT) howns)

/-- The block whose turn it is fails, after a part of it has gone out. -/
theorem cutOff (h : Ordered c w T) (hslots : Slots c w T) (hreads : Reads c w)
    (hi : w.threads i = .job st j) (howns : j.owns = true) (hres : j.res = none)
    (hnot : ¬ (⟨some (i, st), j⟩ : Entry E).sent) {err : E} {part : List UInt8}
    (hpart : part <+: c.output j.seq) (hres' : j'.res ≠ none) (howns' : j'.owns = true)
    (hemits : w'.emits = w.emits) (hfailed : w'.failed = w.failed ++ [(j.seq, err)])
    (herror : w'.error ≠ none) (hsink : w'.sink = w.sink ++ part)
    (hretired : w'.retired = w.retired) :
    Ordered c w' (Function.update T j.seq (some ⟨some (i, st'), j'⟩)) := by
  obtain ⟨k, hk, hf, hor⟩ := h
  have hT := hslots.known i st j hi
  have hlt := (hslots.bounds hT).2
  obtain ⟨hfirst, hnone⟩ := hslots.owns _ _ hT howns
  rcases hor with g | g
  · have hk' : k = w.retired := (g.owner _ (hfirst ▸ hT) howns).2.2 hnot
    refine ⟨k, hemits.trans hk, fun f hf' => ?_, Or.inr ⟨?_, ?_, herror, ?_, ?_, ?_⟩⟩
    · rw [hfailed] at hf'
      rcases List.mem_append.1 hf' with hin | hin
      · exact hf f hin
      · rw [List.mem_singleton.1 hin]
        omega
    · rw [hretired]
      exact hk'.le
    · have := hreads.bounded
      omega
    · refine ⟨part, ?_, ?_⟩
      · rw [hk', ← hfirst]
        exact hpart
      · rw [hsink, g.sink]
    · rw [hretired]
      intro e₁ he₁ _
      rcases update_cases he₁ with ⟨-, ⟨⟩⟩ | ⟨hne, -⟩
      · exact hres'
      · exact absurd hfirst.symm hne
    · rw [hretired]
      intro e₁ he₁ ho
      rcases update_cases he₁ with ⟨-, ⟨⟩⟩ | ⟨hne, -⟩
      · exact absurd (howns'.symm.trans ho) (by decide)
      · exact absurd hfirst.symm hne
  · exact absurd hres (g.owner _ (hfirst ▸ hT) howns)

/-- A block whose turn it is not fails. -/
theorem miscode (h : Ordered c w T) (hslots : Slots c w T) (hi : w.threads i = .job st j)
    (hnot : j.owns = false) (hnot' : j'.owns = false) {err : E} (hres' : j'.res ≠ none)
    (hemits : w'.emits = w.emits) (hfailed : w'.failed = w.failed ++ [(j.seq, err)])
    (hwrite : w'.writeRes = w.writeRes) (herror : w'.error ≠ none) (hsink : w'.sink = w.sink)
    (hturn : w'.writeIndex = w.writeIndex) (hretired : w'.retired = w.retired)
    (hstage : st' ≠ .opened) :
    Ordered c w' (Function.update T j.seq (some ⟨some (i, st'), j'⟩)) := by
  obtain ⟨k, hk, hf, hor⟩ := h
  have hT := hslots.known i st j hi
  have howns : (⟨some (i, st'), j'⟩ : Entry E).job.owns = j.owns := hnot'.trans hnot.symm
  refine ⟨k, hemits.trans hk, fun f hf' => ?_, hor.imp (fun g => ?_) fun g => ?_⟩
  · rw [hfailed] at hf'
    rcases List.mem_append.1 hf' with hin | hin
    · exact hf f hin
    · rw [List.mem_singleton.1 hin]
      refine hor.elim (fun g => g.le_owner hslots hT fun hbad => ?_) fun g => ?_
      · exact absurd (hnot.symm.trans hbad.1) (by decide)
      · exact g.before.trans (hslots.bounds hT).1
  · refine g.keep hT howns ?_ ?_ hwrite hsink hturn hretired
    · exact fun ho => absurd (hnot.symm.trans ho) (by decide)
    · exact fun ho => absurd (hnot.symm.trans ho) (by decide)
  · exact g.keep hT howns (fun _ => hres') (fun hbad => hstage (Option.some.inj hbad)) hwrite
      (fun _ => herror) hsink hretired

/-- The worker that has the turn goes on to write. -/
theorem onTurn (h : Ordered c w T) (hslots : Slots c w T) (hi : w.threads i = .job st j)
    (howns : j.owns = true) (howns' : j'.owns = true)
    (hclean : w.writeRes = none → j'.res = j.res) (hsilent : j.res ≠ none → j'.res ≠ none)
    (hsent : j.res = none → ((⟨some (i, st'), j'⟩ : Entry E).sent ↔
      (⟨some (i, st), j⟩ : Entry E).sent))
    (hemits : w'.emits = w.emits) (hfailed : w'.failed = w.failed)
    (hwrite : w'.writeRes = w.writeRes) (herror : w'.error = w.error) (hsink : w'.sink = w.sink)
    (hturn : w'.writeIndex = w.writeIndex) (hretired : w'.retired = w.retired) :
    Ordered c w' (Function.update T j.seq (some ⟨some (i, st'), j'⟩)) := by
  obtain ⟨k, hk, hf, hor⟩ := h
  have hT := hslots.known i st j hi
  refine ⟨k, hemits.trans hk, hfailed ▸ hf, hor.imp (fun g => ?_) fun g => ?_⟩
  · exact g.keep hT (howns'.trans howns.symm) (fun _ hn => (hclean g.noWriteRes).trans hn)
      (fun _ => hsent) hwrite hsink hturn hretired
  · refine ⟨hretired ▸ g.before, g.short, herror ▸ g.failing, hsink ▸ g.sink, ?_, ?_⟩
    · rw [hretired]
      intro e₁ he₁ ho
      rcases update_cases he₁ with ⟨heq, ⟨⟩⟩ | ⟨-, he₁⟩
      · exact hsilent (g.owner _ (heq ▸ hT) howns)
      · exact g.owner e₁ he₁ ho
    · rw [hretired, hwrite]
      intro e₁ he₁ ho
      rcases update_cases he₁ with ⟨-, ⟨⟩⟩ | ⟨-, he₁⟩
      · exact absurd (howns'.symm.trans ho) (by decide)
      · exact g.waits e₁ he₁ ho

/-- The turn is handed on. -/
theorem pass (h : Ordered c w T) (hslots : Slots c w T) (hheeds : Heeds c w i)
    (hi : w.threads i = .job .retiring j) (howns : j.owns = true)
    (hready : w.readyBlocks (next c j.bi) = false)
    (hemits : w'.emits = w.emits) (hfailed : w'.failed = w.failed)
    (hwrite : w'.writeRes = w.writeRes) (herror : w'.error = w.error) (hsink : w'.sink = w.sink)
    (hretired : w'.retired = w.retired + 1) :
    Ordered c w' (Function.update T j.seq none) := by
  obtain ⟨k, hk, hf, hor⟩ := h
  have hT := hslots.known i _ j hi
  obtain ⟨hfirst, hnone⟩ := hslots.owns _ _ hT howns
  have hnext : ∀ e₁, Function.update T j.seq none (w.retired + 1) = some e₁ →
      T (w.retired + 1) = some e₁ ∧ e₁.job.owns = false := by
    intro e₁ he₁
    rw [Function.update_of_ne (by omega)] at he₁
    refine ⟨he₁, ?_⟩
    cases ho : e₁.job.owns with
    | false => rfl
    | true => exact absurd (hslots.owns _ _ he₁ ho).1 (Nat.succ_ne_self _)
  refine ⟨k, hemits.trans hk, hfailed ▸ hf, hor.imp (fun g => ?_) fun g => ?_⟩
  · have hk' : k = w.retired + 1 := (g.owner _ (hfirst ▸ hT) howns).2.1 (Or.inr rfl)
    refine ⟨hwrite.trans g.noWriteRes, hsink.trans g.sink, fun _ => hk'.trans hretired.symm, ?_⟩
    rw [hretired]
    intro e₁ he₁ ho
    exact absurd ((hnext e₁ he₁).2.symm.trans ho) (by decide)
  · refine ⟨by have := g.before; omega, g.short, herror ▸ g.failing, hsink ▸ g.sink, ?_, ?_⟩
    · rw [hretired]
      intro e₁ he₁ ho
      exact absurd ((hnext e₁ he₁).2.symm.trans ho) (by decide)
    · rw [hretired, hwrite]
      rintro ⟨spot, j₁⟩ he₁ -
      have hin := (hnext _ he₁).1
      cases spot with
      | none =>
          -- It would be ready.
          exfalso
          have hbusy := (hslots.parked _ _ hin).2.1
          rw [← hfirst, ← next_mod, ← (hslots.place _ _ hT).2, hready] at hbusy
          cases hbusy
      | some spot =>
          have hseq : j₁.seq = w.retired + 1 := (hslots.place _ _ hin).1
          refine (hheeds j hi (g.owner _ (hfirst ▸ hT) howns) hready spot.1 spot.2 j₁
            (hslots.worker _ _ _ _ hin) (by omega)).imp_right fun hw => ⟨hw.1, fun hbad => ?_⟩
          exact hw.2 ⟨hbad.1, Option.some.inj hbad.2⟩

/-- The writer goes on to the next block. -/
theorem succeed (h : Ordered c w T) (hslots : Slots c w T) (hreads : Reads c w)
    (hfine : AllFine c w T) (hi : w.threads i = .job .retiring j) (howns : j.owns = true)
    {j₁ : Job E} (hj₁ : T (j.seq + 1) = some ⟨none, j₁⟩) (hnot : j₁.owns = false)
    (howns' : j'.owns = true) (hres' : j'.res = j.res.or j₁.res)
    (hdelivered : j'.delivered = j₁.delivered)
    (hemits : w'.emits = w.emits) (hfailed : w'.failed = w.failed)
    (hwrite : w'.writeRes = w.writeRes) (herror : w'.error = w.error) (hsink : w'.sink = w.sink)
    (hretired : w'.retired = w.retired + 1) :
    Ordered c w' (Function.update (Function.update T j.seq none) (j.seq + 1)
      (some ⟨some (i, .writing), j'⟩)) := by
  obtain ⟨k, hk, hf, hor⟩ := h
  have hT := hslots.known i _ j hi
  obtain ⟨hfirst, hnone⟩ := hslots.owns _ _ hT howns
  have hlt := (hslots.bounds hj₁).2
  have hbounded := hreads.bounded
  have hnow : ∀ e₁, Function.update (Function.update T j.seq none) (j.seq + 1)
      (some ⟨some (i, .writing), j'⟩) (w.retired + 1) = some e₁ →
      e₁ = ⟨some (i, .writing), j'⟩ := by
    intro e₁ he₁
    rw [hfirst, Function.update_self] at he₁
    exact (Option.some.inj he₁).symm
  have hunsent : ¬ (⟨some (i, .writing), j'⟩ : Entry E).sent := by
    rintro (hd | hstage)
    · have hd' : j₁.delivered = true := hdelivered.symm.trans hd
      exact absurd (hnot.symm.trans ((hfine _ _ hj₁).direct hd')) (by decide)
    · cases hstage
  have hsilent : j'.res ≠ none → w.error ≠ none := by
    rw [hres']
    intro hres herr
    refine hres (Option.or_eq_none_iff.2 ⟨?_, ?_⟩)
    · exact by_contra fun hne => (hfine _ _ hT).error hne herr
    · exact by_contra fun hne => (hfine _ _ hj₁).error hne herr
  have howner : j'.res ≠ none → ∀ n p, n ≤ w.retired + 1 → n < c.numBlocks →
      p <+: c.output n → w.sink = c.outputs n ++ p →
      Silent c w' (Function.update (Function.update T j.seq none) (j.seq + 1)
        (some ⟨some (i, .writing), j'⟩)) n := by
    intro hres n p hn hshort hp hout
    refine ⟨hretired ▸ hn, hshort, herror ▸ hsilent hres, ⟨p, hp, hsink.trans hout⟩, ?_, ?_⟩
    · rw [hretired]
      intro e₁ he₁ _
      rw [hnow e₁ he₁]
      exact hres
    · rw [hretired]
      intro e₁ he₁ ho
      rw [hnow e₁ he₁] at ho
      exact absurd (howns'.symm.trans ho) (by decide)
  refine ⟨k, hemits.trans hk, hfailed ▸ hf, ?_⟩
  rcases hor with g | g
  · obtain ⟨hres, hsent, -⟩ := g.owner _ (hfirst ▸ hT) howns
    have hk' : k = w.retired + 1 := hsent (Or.inr rfl)
    by_cases hres₁ : j'.res = none
    · refine Or.inl ⟨hwrite.trans g.noWriteRes, hsink.trans g.sink,
        fun _ => hk'.trans hretired.symm, ?_⟩
      rw [hretired]
      intro e₁ he₁ _
      rw [hnow e₁ he₁]
      exact ⟨hres₁, fun hbad => absurd hbad hunsent, fun _ => hk'⟩
    · exact Or.inr (howner hres₁ k [] hk'.le (by omega) List.nil_prefix
        (by rw [g.sink, List.append_nil]))
  · have hres : j.res ≠ none := g.owner _ (hfirst ▸ hT) howns
    obtain ⟨p, hp, hout⟩ := g.sink
    refine Or.inr (howner ?_ k p (g.before.trans (Nat.le_succ _)) g.short hp hout)
    rw [hres']
    exact or_ne_none hres

end

theorem does (h : Ordered c w T) (hslots : Slots c w T) (hreads : Reads c w)
    (hfine : AllFine c w T) (hheeds : Heeds c w i) (hd : Does c w i reply T w' T') :
    Ordered c w' T' := by
  have hT := hslots.known i
  have hown : ∀ {st : Stage} {j : Job E}, w.threads i = .job st j →
      Fine c w j.seq ⟨some (i, st), j⟩ := fun hi => hfine _ _ (hT _ _ hi)
  cases hd with
  | quit hi | take hi | skip hi | read hi | leave hi | countOut hi =>
      exact h.aside rfl rfl rfl rfl rfl rfl rfl
  | misread hi => exact h.misread hslots _
  | enter spawns hi =>
      refine h.enter rfl (fun herr hnone => ?_) rfl rfl rfl rfl rfl rfl rfl
      exact herr (Option.or_eq_none_iff.1 hnone).2
  | fall hi | noClaim hi | buffer hi =>
      exact h.keep (hT _ _ hi) rfl rfl
        (fun _ _ => Entry.sent_congr (by simp [Entry.stage]) (by simp [Entry.stage]) rfl)
        (by simp [Entry.stage]) rfl rfl rfl rfl rfl rfl rfl
  | code hi | park hi =>
      exact h.keep (hT _ _ hi) rfl rfl
        (fun _ _ => Entry.sent_congr (by simp [Entry.stage]) (by simp [Entry.stage]) rfl)
        (by simp [Entry.stage]) rfl rfl rfl rfl rfl rfl rfl
  | claim hi hres hdirect hturn =>
      refine h.takeTurn hslots hreads hfine hi hturn rfl
        (Entry.not_sent (by simp [Entry.stage]) (hown hi).progress.2.1) (fun _ => rfl) ?_ rfl rfl
        rfl rfl rfl rfl rfl
      · rintro (hbad | ⟨-, hbad⟩)
        · exact absurd hres hbad
        · exact absurd ⟨hdirect, rfl⟩ hbad
  | @miscode j err hi hfails =>
      obtain ⟨-, hnot, -, hres, hsrc⟩ := (hown hi).progress
      cases howns : j.owns with
      | true =>
          have hout : c.coded j.src j.finished = c.output j.seq := by
            rw [hsrc, (hown hi).last hres]
            rfl
          have htake : (c.output j.seq).take reply.part <+: c.output j.seq := List.take_prefix _ _
          refine h.cutOff hslots hreads hi howns hres
            (Entry.not_sent (by simp [Entry.stage]) hnot) htake (by simp) rfl rfl rfl
            (setError_ne_none w j.seq err) ?_ rfl
          simp only [↓reduceIte, hout]
          rfl
      | false =>
          refine h.miscode hslots hi howns rfl (by simp) rfl rfl rfl
            (setError_ne_none w j.seq err) ?_ rfl rfl (by simp)
          simp only [Bool.false_eq_true, ↓reduceIte, List.append_nil]
          rfl
  | deliver hi howns =>
      obtain ⟨-, hnot, -, hres, hsrc⟩ := (hown hi).progress
      refine h.emit hslots hfine hi howns hres (Entry.not_sent (by simp [Entry.stage]) hnot) hres
        (Or.inl rfl) rfl rfl rfl ?_ rfl rfl
      unfold MtCoder.output
      rw [← hsrc, ← (hown hi).last hres]
      rfl
  | ownTurn hi howns =>
      refine h.onTurn hslots hi howns howns (fun hnone => ?_) (fun hres hnone => ?_)
        (fun _ => Entry.sent_congr (by simp [Entry.stage]) (by simp [Entry.stage]) rfl) rfl rfl rfl
        rfl rfl rfl rfl
      · simp only [hnone, Option.none_or]
      · exact hres (Option.or_eq_none_iff.1 hnone).2
  | @takeTurn j hi hturn =>
      have hnot : j.delivered = false := by
        cases hd : j.delivered with
        | false => rfl
        | true =>
            have := (hslots.owns _ _ (hT _ _ hi) ((hown hi).direct hd)).2
            rw [hturn] at this
            cases this
      refine h.takeTurn hslots hreads hfine hi hturn rfl
        (Entry.not_sent (by simp [Entry.stage]) hnot) (fun hnone => ?_) (fun hbad hnone => ?_) rfl
        rfl rfl rfl rfl rfl rfl
      · simp only [hnone, Option.none_or]
      · obtain ⟨h1, h2⟩ := Option.or_eq_none_iff.1 hnone
        exact hbad.elim (fun g => g h2) fun g => g.1 h1
  | @miswrite j b err hi hres hbuf hnot =>
      have howns := hslots.writer _ _ _ _ (hT _ _ hi) rfl
      have hcoded : Coded c w _ _ := (hown hi).progress
      obtain ⟨-, b', hb', hout⟩ := hcoded hres
      have hbufs : w.bufs b = c.output j.seq := by
        rw [← hout hnot]
        exact congrArg w.bufs (Option.some.inj (hbuf.symm.trans hb'))
      have htake : (w.bufs b).take reply.part <+: w.bufs b := List.take_prefix _ _
      refine h.cutOff hslots hreads hi howns hres (Entry.not_sent (by simp [Entry.stage]) hnot)
        (hbufs ▸ htake) (by simp) howns rfl rfl
        (setError_ne_none w j.seq err) rfl rfl
  | @write j b hi hres hbuf hnot =>
      have howns := hslots.writer _ _ _ _ (hT _ _ hi) rfl
      have hcoded : Coded c w _ _ := (hown hi).progress
      obtain ⟨-, b', hb', hout⟩ := hcoded hres
      have hbufs : w.bufs b = c.output j.seq := by
        rw [← hout hnot]
        exact congrArg w.bufs (Option.some.inj (hbuf.symm.trans hb'))
      exact h.emit hslots hfine hi howns hres (Entry.not_sent (by simp [Entry.stage]) hnot) hres
        (Or.inr rfl) rfl rfl rfl (congrArg (w.sink ++ ·) hbufs) rfl rfl
  | noWrite hi hnone =>
      have howns := hslots.writer _ _ _ _ (hT _ _ hi) rfl
      have hcoded : Coded c w _ _ := (hown hi).progress
      refine h.onTurn hslots hi howns howns (fun _ => rfl) id (fun hres => ?_) rfl rfl rfl rfl rfl
        rfl rfl
      -- What is not written has gone out already.
      have hdelivered := (hnone hres).resolve_left fun hbuf => by
        obtain ⟨-, b, hb, -⟩ := hcoded hres
        cases hbuf.symm.trans hb
      exact ⟨fun _ => Or.inl hdelivered, fun _ => Or.inr rfl⟩
  | pass hi hready =>
      have howns := hslots.writer _ _ _ _ (hT _ _ hi) rfl
      exact h.pass hslots hheeds hi howns hready rfl rfl rfl rfl rfl rfl
  | succeed hi hready =>
      have howns := hslots.writer _ _ _ _ (hT _ _ hi) rfl
      obtain ⟨j₁, hj₁, hnot, hblock⟩ := hslots.noted hi howns hready
      refine h.succeed hslots hreads hfine hi howns hj₁ hnot rfl ?_ ?_ rfl rfl rfl rfl rfl rfl
      · unfold nextJob
        rw [hblock]
      · unfold nextJob
        rw [hblock]

end Ordered

end Run
end LzmaTurbo.Mt
