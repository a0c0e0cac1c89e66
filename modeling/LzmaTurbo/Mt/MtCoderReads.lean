import LzmaTurbo.Mt.MtCoderSteps

/-!
# The read token

One worker at a time reads, and it reads the next block.
-/
namespace LzmaTurbo.Mt

namespace MtCoder
variable (c : MtCoder)

/-- The part of the source that is the block `s`. -/
def block (s : ℕ) : List UInt8 := (c.source.drop (s * c.blockSize)).take c.blockSize

/-- A slice ends with its last byte, a stream with the first block that is not full. -/
def isLast (s : ℕ) : Bool :=
  if c.stream then (c.block s).length != c.blockSize
  else s * c.blockSize + (c.block s).length == c.source.length

def numBlocks : ℕ :=
  if c.stream then c.source.length / c.blockSize + 1
  else (c.source.length - 1) / c.blockSize + 1

theorem length_block (s : ℕ) :
    (c.block s).length = min c.blockSize (c.source.length - s * c.blockSize) := by
  unfold block
  rw [List.length_take, List.length_drop]

variable {c}

/-- A block that is not the last is full, and another comes after it. -/
theorem more_blocks (hsize : 0 < c.blockSize) {s : ℕ} (hs : s < c.numBlocks)
    (hlast : c.isLast s = false) :
    s + 1 < c.numBlocks ∧ (c.block s).length = c.blockSize := by
  have hlen := c.length_block s
  unfold isLast at hlast
  unfold numBlocks at hs ⊢
  by_cases hst : c.stream = true
  · rw [if_pos hst] at hlast hs ⊢
    rw [bne_eq_false_iff_eq] at hlast
    refine ⟨Nat.succ_lt_succ (Nat.lt_of_succ_le ?_), hlast⟩
    rw [Nat.le_div_iff_mul_le hsize, Nat.succ_mul]
    omega
  · rw [if_neg hst] at hlast hs ⊢
    rw [beq_eq_false_iff_ne] at hlast
    have hle := (Nat.le_div_iff_mul_le hsize).1 (Nat.le_of_lt_succ hs)
    refine ⟨Nat.succ_lt_succ (Nat.lt_of_succ_le ?_), by omega⟩
    rw [Nat.le_div_iff_mul_le hsize, Nat.succ_mul]
    omega

theorem last_block (hsize : 0 < c.blockSize) {s : ℕ} (hs : s < c.numBlocks)
    (hlast : c.isLast s = true) : s + 1 = c.numBlocks := by
  have hlen := c.length_block s
  unfold isLast at hlast
  unfold numBlocks at hs ⊢
  by_cases hst : c.stream = true
  · rw [if_pos hst] at hlast hs ⊢
    rw [bne_iff_ne] at hlast
    have hlt : c.source.length / c.blockSize < s + 1 := by
      rw [Nat.div_lt_iff_lt_mul hsize, Nat.succ_mul]
      omega
    omega
  · rw [if_neg hst] at hlast hs ⊢
    rw [beq_iff_eq] at hlast
    have hlt : (c.source.length - 1) / c.blockSize < s + 1 := by
      rw [Nat.div_lt_iff_lt_mul hsize, Nat.succ_mul]
      omega
    omega

/-- The blocks are the source, cut up. -/
theorem blocks_source (hsize : 0 < c.blockSize) :
    ((List.range c.numBlocks).map c.block).flatten = c.source := by
  have key : ∀ k, ((List.range k).map c.block).flatten = c.source.take (k * c.blockSize) := by
    intro k
    induction k with
    | zero => simp
    | succ k ih =>
        rw [List.range_succ, List.map_append, List.flatten_append, ih, Nat.succ_mul,
          List.take_add]
        simp [block]
  rw [key]
  apply List.take_of_length_le
  unfold numBlocks
  split
  · exact (Nat.lt_mul_of_div_lt (Nat.lt_succ_self _) hsize).le
  · have hlt : c.source.length - 1 < ((c.source.length - 1) / c.blockSize + 1) * c.blockSize :=
      Nat.lt_mul_of_div_lt (Nat.lt_succ_self _) hsize
    omega

theorem numBlocks_pos : 0 < c.numBlocks := by
  unfold numBlocks
  split <;> exact Nat.succ_pos _

end MtCoder

/-- With the read token. -/
def Phase.reading {E : Type} : Phase E → Bool
  | .checked _ | .hasRead _ _ _ => true
  | _ => false

namespace Run
variable {E : Type} {c : MtCoder} {w w' : Run E} {i : ℕ} {reply : Reply E}
variable {T T' : ℕ → Option (Entry E)}

theorem or_ne_none {x y : Option E} (h : x ≠ none) : x.or y ≠ none := by
  cases x with
  | none => exact absurd rfl h
  | some e => simp

/-- What is known of the input while it is read. -/
structure Reads (c : MtCoder) (w : Run E) : Prop where
  token : w.readEvent = true → ∀ k, (w.threads k).reading = false
  busy : w.readEvent = false → ∃ k, (w.threads k).reading = true
  alone : ∀ k k', (w.threads k).reading = true → (w.threads k').reading = true → k = k'
  going : w.stopReading = false → w.opened < c.numBlocks
  bounded : w.opened ≤ c.numBlocks
  stopped : w.stopReading = true → w.error ≠ none ∨ w.opened = c.numBlocks
  offset : w.stopReading = false → w.readEvent = true →
    w.readProcessed = w.opened * c.blockSize
  checked : ∀ k res, w.threads k = .checked res → w.stopReading = false ∧
    w.readProcessed = w.opened * c.blockSize ∧ (res ≠ none → w.error ≠ none)
  hasRead : ∀ k src finished res, w.threads k = .hasRead src finished res →
    w.stopReading = false ∧ (res ≠ none → w.error ≠ none) ∧
    (res = none → src = c.block w.opened ∧ finished = c.isLast w.opened ∧
      w.readProcessed = w.opened * c.blockSize + src.length)

namespace Reads

/-- The reading is not touched by a worker that has not got the token. -/
theorem aside (h : Reads c w) {p : Phase E} (hold : (w.threads i).reading = false)
    (hp : p.reading = false) (hthreads : w'.threads = Function.update w.threads i p)
    (hevent : w'.readEvent = w.readEvent) (hstop : w'.stopReading = w.stopReading)
    (hopened : w'.opened = w.opened) (hread : w'.readProcessed = w.readProcessed)
    (herror : w.error ≠ none → w'.error ≠ none) : Reads c w' := by
  have hphase : ∀ k, (w'.threads k).reading = true → w'.threads k = w.threads k := by
    intro k hk
    rw [hthreads] at hk ⊢
    by_cases hki : k = i
    · subst hki
      rw [Function.update_self, hp] at hk
      cases hk
    · exact Function.update_of_ne hki _ _
  refine ⟨?_, ?_, ?_, ?_, ?_, ?_, ?_, ?_, ?_⟩
  · intro hfree k
    rw [hevent] at hfree
    cases hk : (w'.threads k).reading with
    | false => rfl
    | true =>
        have heq := hphase k hk
        rw [heq, h.token hfree k] at hk
        cases hk
  · rw [hevent]
    intro hbusy
    obtain ⟨k, hk⟩ := h.busy hbusy
    refine ⟨k, ?_⟩
    rw [hthreads, Function.update_of_ne ?_]
    · exact hk
    · rintro rfl
      rw [hold] at hk
      cases hk
  · intro k k' hk hk'
    have heq := hphase k hk
    have heq' := hphase k' hk'
    rw [heq] at hk
    rw [heq'] at hk'
    exact h.alone k k' hk hk'
  · rw [hstop, hopened]
    exact h.going
  · rw [hopened]
    exact h.bounded
  · rw [hstop, hopened]
    exact fun hs => (h.stopped hs).imp_left herror
  · rw [hstop, hevent, hread, hopened]
    exact h.offset
  · intro k res hk
    have heq := hphase k (by rw [hk]; rfl)
    rw [heq] at hk
    rw [hstop, hread, hopened]
    obtain ⟨h1, h2, h3⟩ := h.checked k res hk
    exact ⟨h1, h2, fun hres => herror (h3 hres)⟩
  · intro k src finished res hk
    have heq := hphase k (by rw [hk]; rfl)
    rw [heq] at hk
    rw [hstop, hread, hopened]
    obtain ⟨h1, h2, h3⟩ := h.hasRead k src finished res hk
    exact ⟨h1, fun hres => herror (h2 hres), h3⟩

/-- The worker with the token has read. -/
theorem gotBlock (h : Reads c w) {res : Option E} (hi : w.threads i = .checked res)
    {src : List UInt8} {finished : Bool} {res' : Option E}
    (hthreads : w'.threads = Function.update w.threads i (.hasRead src finished res'))
    (hevent : w'.readEvent = w.readEvent) (hstop : w'.stopReading = w.stopReading)
    (hopened : w'.opened = w.opened) (herror : w.error ≠ none → w'.error ≠ none)
    (hbad : res' ≠ none → w'.error ≠ none)
    (hgood : res' = none → src = c.block w.opened ∧ finished = c.isLast w.opened ∧
      w'.readProcessed = w.opened * c.blockSize + src.length) : Reads c w' := by
  have hbusy : w.readEvent = false := by
    cases hfree : w.readEvent with
    | false => rfl
    | true =>
        have := h.token hfree i
        rw [hi] at this
        cases this
  have hi' : (w.threads i).reading = true := by
    rw [hi]
    rfl
  have hother : ∀ k, (w'.threads k).reading = true → k = i := by
    intro k hk
    by_contra hne
    rw [hthreads, Function.update_of_ne hne] at hk
    exact hne (h.alone k i hk hi')
  refine ⟨?_, ?_, ?_, ?_, ?_, ?_, ?_, ?_, ?_⟩
  · rw [hevent, hbusy]
    exact fun hfree => by cases hfree
  · refine fun _ => ⟨i, ?_⟩
    rw [hthreads, Function.update_self]
    rfl
  · exact fun k k' hk hk' => (hother k hk).trans (hother k' hk').symm
  · rw [hstop, hopened]
    exact h.going
  · rw [hopened]
    exact h.bounded
  · rw [hstop, hopened]
    exact fun hs => (h.stopped hs).imp_left herror
  · rw [hevent, hbusy]
    exact fun _ hfree => by cases hfree
  · intro k res₁ hk
    have hki := hother k (by rw [hk]; rfl)
    rw [hki, hthreads, Function.update_self] at hk
    cases hk
  · intro k src₁ finished₁ res₁ hk
    have hki := hother k (by rw [hk]; rfl)
    rw [hki, hthreads, Function.update_self] at hk
    cases hk
    rw [hstop, hopened]
    exact ⟨(h.checked i res hi).1, hbad, hgood⟩

/-- The worker with the token gives it back, with a block or without. -/
theorem giveBack (h : Reads c w) (hi : (w.threads i).reading = true)
    (hthreads : ∀ k, k ≠ i → (w'.threads k).reading = (w.threads k).reading)
    (hi' : (w'.threads i).reading = false) (hevent : w'.readEvent = true)
    (hgoing : w'.stopReading = false → w'.opened < c.numBlocks ∧
      w'.readProcessed = w'.opened * c.blockSize)
    (hbounded : w'.opened ≤ c.numBlocks)
    (hstopped : w'.stopReading = true → w'.error ≠ none ∨ w'.opened = c.numBlocks) :
    Reads c w' := by
  have hnone : ∀ k, (w'.threads k).reading = false := by
    intro k
    by_cases hki : k = i
    · rw [hki]
      exact hi'
    · cases hk : (w'.threads k).reading with
      | false => rfl
      | true =>
          rw [hthreads k hki] at hk
          exact absurd (h.alone k i hk hi) hki
  refine ⟨fun _ => hnone, fun hbusy => ?_, ?_, fun hs => (hgoing hs).1, hbounded, hstopped,
    fun hs _ => (hgoing hs).2, ?_, ?_⟩
  · rw [hevent] at hbusy
    cases hbusy
  · intro k k' hk
    rw [hnone k] at hk
    cases hk
  · intro k res hk
    have := hnone k
    rw [hk] at this
    cases this
  · intro k src finished res hk
    have := hnone k
    rw [hk] at this
    cases this

theorem onward_reading (finished : Bool) (res : Option E) :
    (onward finished res).reading = false := by
  unfold onward
  split <;> rfl

/-- The token is taken, and the error looked at. -/
theorem take (h : Reads c w) (hfree : w.readEvent = true) (hgo : w.stopReading = false)
    (hthreads : w'.threads = Function.update w.threads i (.checked w.error))
    (hevent : w'.readEvent = false) (hstop : w'.stopReading = w.stopReading)
    (hopened : w'.opened = w.opened) (hread : w'.readProcessed = w.readProcessed)
    (herror : w'.error = w.error) : Reads c w' := by
  have hother : ∀ k, (w'.threads k).reading = true → k = i := by
    intro k hk
    by_contra hne
    rw [hthreads, Function.update_of_ne hne, h.token hfree k] at hk
    cases hk
  refine ⟨?_, ?_, ?_, ?_, ?_, ?_, ?_, ?_, ?_⟩
  · rw [hevent]
    exact fun hbad => by cases hbad
  · refine fun _ => ⟨i, ?_⟩
    rw [hthreads, Function.update_self]
    rfl
  · exact fun k k' hk hk' => (hother k hk).trans (hother k' hk').symm
  · rw [hstop, hopened]
    exact h.going
  · rw [hopened]
    exact h.bounded
  · rw [hstop, hopened, herror]
    exact h.stopped
  · rw [hevent]
    exact fun _ hbad => by cases hbad
  · intro k res hk
    have hki := hother k (by rw [hk]; rfl)
    rw [hki, hthreads, Function.update_self] at hk
    cases hk
    rw [hstop, hread, hopened, herror]
    exact ⟨hgo, h.offset hgo hfree, id⟩
  · intro k src finished res hk
    have hki := hother k (by rw [hk]; rfl)
    rw [hki, hthreads, Function.update_self] at hk
    cases hk

/-- A block that has been read gets its place. -/
theorem enter (h : Reads c w) (hsize : 0 < c.blockSize) {src : List UInt8} {finished : Bool}
    {res : Option E} (hi : w.threads i = .hasRead src finished res) {p : Phase E}
    {t : ℕ → Phase E} (hp : p.reading = false)
    (ht : ∀ k, k ≠ i → (t k).reading = (w.threads k).reading)
    (hthreads : w'.threads = Function.update t i p) (hevent : w'.readEvent = true)
    (hstop : w'.stopReading = (w.stopReading || (w.openJob src finished res).finished))
    (hopened : w'.opened = w.opened + 1) (hread : w'.readProcessed = w.readProcessed)
    (herror : w'.error = w.error) : Reads c w' := by
  obtain ⟨hgo, hbad, hgood⟩ := h.hasRead i src finished res hi
  have hlt := h.going hgo
  rw [hgo, Bool.false_or] at hstop
  refine h.giveBack (i := i) ?_ ?_ ?_ hevent ?_ ?_ ?_
  · rw [hi]
    rfl
  · intro k hk
    rw [hthreads, Function.update_of_ne hk]
    exact ht k hk
  · rw [hthreads, Function.update_self]
    exact hp
  · intro hmore
    rw [hstop] at hmore
    unfold openJob at hmore
    rw [Bool.or_eq_false_iff] at hmore
    cases res with
    | some e => simp at hmore
    | none =>
        obtain ⟨hsrc, hlast, hoff⟩ := hgood rfl
        rw [hmore.1] at hlast
        obtain ⟨h1, h2⟩ := MtCoder.more_blocks hsize hlt hlast.symm
        rw [hopened, hread, hoff, hsrc, h2, Nat.succ_mul]
        exact ⟨h1, rfl⟩
  · omega
  · intro hend
    rw [hstop] at hend
    unfold openJob at hend
    rw [herror, hopened]
    cases herr : w.error with
    | some e => exact Or.inl (by simp)
    | none =>
        right
        cases res with
        | some e => exact absurd herr (hbad (by simp))
        | none =>
            simp only [herr, Option.or_none, Option.isSome_none, Bool.or_false] at hend
            rw [hend] at hgood
            exact MtCoder.last_block hsize hlt (hgood rfl).2.1.symm

theorem does (h : Reads c w) (hsize : 0 < c.blockSize)
    (hidle : ∀ k, w.numStartedThreads ≤ k → w.threads k = .idle)
    (hd : Does c w i reply T w' T') : Reads c w' := by
  cases hd with
  | quit hi =>
      exact h.aside (by rw [hi]; rfl) rfl rfl rfl rfl rfl rfl id
  | take hi hfree hgo => exact h.take hfree hgo rfl rfl rfl rfl rfl rfl
  | skip hi =>
      have herr := (h.checked _ _ hi).2.2 (by simp)
      exact h.gotBlock (w := w) hi rfl rfl rfl rfl id (fun _ => herr) (fun hbad => by cases hbad)
  | misread hi hfails =>
      refine h.gotBlock (w := w) hi rfl rfl rfl rfl or_ne_none (fun _ => ?_)
        (fun hbad => by cases hbad)
      exact fun hnone => by cases (Option.or_eq_none_iff.1 hnone).2
  | read hi =>
      have hoff := (h.checked _ _ hi).2.1
      refine h.gotBlock (w := w) hi rfl rfl rfl rfl id (fun hbad => absurd rfl hbad) fun _ => ?_
      have hsrc : w.upcoming c = c.block w.opened := by
        unfold upcoming MtCoder.block
        rw [hoff]
      refine ⟨hsrc, ?_, ?_⟩
      · unfold ends MtCoder.isLast
        rw [hsrc, hoff]
      · exact congrArg (· + _) hoff
  | enter spawns hi hsem hspawns =>
      refine h.enter hsize hi rfl ?_ rfl rfl rfl rfl rfl rfl
      intro k hk
      cases spawns with
      | false => rfl
      | true =>
          by_cases hks : k = w.numStartedThreads
          · subst hks
            simp only [↓reduceIte, Function.update_self, hidle _ le_rfl]
            rfl
          · simp only [↓reduceIte, Function.update_of_ne hks]
  | fall hi | noClaim hi | claim hi | buffer hi | deliver hi | code hi | ownTurn hi | takeTurn hi =>
      exact h.aside (w := w) (by rw [hi]; rfl) rfl rfl rfl rfl rfl rfl id
  | write hi | noWrite hi | succeed hi | leave hi =>
      exact h.aside (w := w) (by rw [hi]; rfl) rfl rfl rfl rfl rfl rfl id
  | miscode hi | miswrite hi =>
      exact h.aside (w := w) (by rw [hi]; rfl) rfl rfl rfl rfl rfl rfl or_ne_none
  | park hi | pass hi =>
      exact h.aside (w := w) (by rw [hi]; rfl) (onward_reading _ _) rfl rfl rfl rfl rfl id
  | countOut hi =>
      exact h.aside (w := w) (by rw [hi]; rfl) rfl rfl rfl rfl rfl rfl id

end Reads

end Run
end LzmaTurbo.Mt
