import LzmaTurbo.Enc.LzmaEncSteps

/-!
# Decisions of the parser and symbols of the format

A decision can be coded when the bytes it stands for are the window's: a literal always, a match
when the bytes repeat at its distance. Coding it is the path of a symbol, and the symbol writes
those bytes.
-/
namespace LzmaTurbo.Enc
open Machine Lzma BitProgram Window
open RangeDecoder (Coder)
open ExactCoder (Op Path Exact)

/-- The `len` bytes from `pos` on are those `dist` bytes before them. -/
structure Repeats (src : List UInt8) (pos dist len : ℕ) : Prop where
  dist_pos : 1 ≤ dist
  dist_le : dist ≤ pos
  fits : pos + len ≤ src.length
  same : ∀ i < len, src[pos + i]? = src[pos + i - dist]?

instance (src : List UInt8) (pos dist len : ℕ) : Decidable (Repeats src pos dist len) :=
  decidable_of_iff (1 ≤ dist ∧ dist ≤ pos ∧ pos + len ≤ src.length ∧
    ∀ i < len, src[pos + i]? = src[pos + i - dist]?)
    ⟨fun ⟨h1, h2, h3, h4⟩ => ⟨h1, h2, h3, h4⟩, fun ⟨h1, h2, h3, h4⟩ => ⟨h1, h2, h3, h4⟩⟩

/-- What the coder may be asked for at `pos`. -/
def Decision.Codable (src : List UInt8) (dictSize pos : ℕ) (reps : Reps) (d : Decision) : Prop :=
  if d.back = markLit then d.len = 1 ∧ pos < src.length
  else if d.back < lzmaNumReps then
    (d.len = 1 ∧ d.back = 0 ∨ lzmaMatchLenMin ≤ d.len ∧ d.len ≤ lzmaMatchLenMax) ∧
      Repeats src pos (reps.nth d.back) d.len ∧ reps.nth d.back ≤ dictSize
  else
    (lzmaMatchLenMin ≤ d.len ∧ d.len ≤ lzmaMatchLenMax) ∧
      Repeats src pos (d.back - lzmaNumReps + 1) d.len ∧ d.back - lzmaNumReps + 1 ≤ dictSize

instance (src : List UInt8) (dictSize pos : ℕ) (reps : Reps) (d : Decision) :
    Decidable (d.Codable src dictSize pos reps) := by
  unfold Decision.Codable
  infer_instance

def Decision.nextReps (reps : Reps) (d : Decision) : Reps :=
  if d.back = markLit then reps
  else if d.back < lzmaNumReps then reps.front d.back
  else ⟨d.back - lzmaNumReps + 1, reps.rep0, reps.rep1, reps.rep2⟩

/-- The decisions lead from `pos` to the end of the input, each of them codable there. -/
def Covers (src : List UInt8) (dictSize : ℕ) : ℕ → Reps → List Decision → Prop
  | pos, _, [] => pos = src.length
  | pos, reps, d :: ds => d.Codable src dictSize pos reps ∧
      Covers src dictSize (pos + d.len) (d.nextReps reps) ds

def Covers.decide (src : List UInt8) (dictSize : ℕ) :
    (pos : ℕ) → (reps : Reps) → (ds : List Decision) → Decidable (Covers src dictSize pos reps ds)
  | pos, _, [] => inferInstanceAs (Decidable (pos = src.length))
  | pos, reps, d :: ds =>
      have := Covers.decide src dictSize (pos + d.len) (d.nextReps reps) ds
      inferInstanceAs (Decidable (_ ∧ _))

instance (src : List UInt8) (dictSize pos : ℕ) (reps : Reps) (ds : List Decision) :
    Decidable (Covers src dictSize pos reps ds) := Covers.decide src dictSize pos reps ds

section
variable {src : List UInt8} {pos dist len : ℕ}

theorem byteAt_ok {i : ℕ} {b : UInt8} (h : src[i]? = some b) : byteAt src i = .ok b.toNat := by
  rw [byteAt, h]

/-- Copying from that distance writes the bytes of the window. -/
theorem Repeats.copyBack (h : Repeats src pos dist len) :
    copyBack dist len (src.take pos).reverse = (src.take (pos + len)).reverse := by
  have hfits := h.fits
  have hle : ∀ n ≤ len, Window.copyBack dist n (src.take pos).reverse =
      (src.take (pos + n)).reverse := by
    intro n hn
    induction n with
    | zero => rfl
    | succ n ih =>
        have h1 := h.dist_pos
        have h2 := h.dist_le
        have hlt : pos + n < src.length := by omega
        have hsame := h.same n (by omega)
        rw [copyBack_succ, ih (by omega), ← Nat.add_assoc, List.take_succ_eq_append_getElem hlt,
          List.reverse_append, List.reverse_singleton, List.singleton_append]
        congr 1
        rw [List.getElem?_eq_getElem hlt, eq_comm] at hsame
        have hlen : (src.take (pos + n)).length = pos + n := by
          rw [List.length_take, Nat.min_eq_left hlt.le]
        rw [List.getD_eq_getElem?_getD, List.getElem?_reverse (by omega), hlen,
          show pos + n - 1 - (dist - 1) = pos + n - dist by omega,
          List.getElem?_take_of_lt (by omega), hsame]
        rfl
  exact hle len le_rfl

end

/-- What a symbol does to the state does not depend on the coder, the mark apart. -/
theorem applySymbol_coder {prop : LzmaProps} {s s' : RefState} {c : Coder ℕ} {sym : Symbol}
    (h : applySymbol prop s c sym = .next s') (c₁ c₂ : Coder ℕ) :
    applySymbol prop { s with coder := c₁ } c₂ sym = .next { s' with coder := c₂ } := by
  cases sym with
  | lit b =>
      simp only [applySymbol, Effect.next.injEq] at h ⊢
      subst h
      rfl
  | shortRep =>
      simp only [applySymbol] at h ⊢
      split at h
      · rename_i hr
        rw [if_pos (show _ ≤ RefState.reach prop { s with coder := c₁ } from hr)]
        cases h
        rfl
      · cases h
  | rep index len =>
      simp only [applySymbol] at h ⊢
      split at h
      · rename_i hr
        rw [if_pos (show _ ≤ RefState.reach prop { s with coder := c₁ } from hr)]
        cases h
        rfl
      · cases h
  | simple dist len =>
      simp only [applySymbol] at h ⊢
      split at h
      · split at h <;> cases h
      · rename_i hm
        rw [if_neg hm]
        split at h
        · rename_i hr
          rw [if_pos (show _ < RefState.reach prop { s with coder := c₁ } from hr)]
          cases h
          rfl
        · cases h

/-- The operations are the paths of symbols one after the other. -/
inductive Spells (prop : LzmaProps) (T : ModelSlot → Prop) :
    RefState → List (Op ModelSlot) → RefState → Prop
  | nil (s : RefState) : Spells prop T s [] s
  | cons {s s₁ s₂ : RefState} {os os' : List (Op ModelSlot)} {sym : Symbol} :
      Path T place (symbolProg (s.ctx prop)) os sym → applySymbol prop s s.coder sym = .next s₁ →
      Spells prop T s₁ os' s₂ → Spells prop T s (os ++ os') s₂

theorem Spells.append {prop : LzmaProps} {T : ModelSlot → Prop} {s s₁ s₂ : RefState}
    {os os' : List (Op ModelSlot)} (h : Spells prop T s os s₁) (h' : Spells prop T s₁ os' s₂) :
    Spells prop T s (os ++ os') s₂ := by
  induction h with
  | nil s => exact h'
  | cons hpath happly _ ih =>
      rw [List.append_assoc]
      exact .cons hpath happly (ih h')

/-- The reference decoder reads the symbols back, one step for each. -/
theorem Spells.moves {prop : LzmaProps} {T : ModelSlot → Prop} {s s' : RefState}
    {os : List (Op ModelSlot)} (h : Spells prop T s os s') {x : Exact ℕ} {xs rest : List UInt8}
    {c : Coder ℕ} (hx : x.Ok) (hc : x.Reads xs c rest)
    (hw : (x.ops (os.map (Op.map place))).Holds xs) : ∃ c' rest',
      Moves prop (.body { s with coder := c }) rest (.body { s' with coder := c' }) rest' ∧
      (x.ops (os.map (Op.map place))).Reads xs c' rest' := by
  induction h generalizing x c rest with
  | nil s => exact ⟨c, rest, .refl _ _, hc⟩
  | @cons s s₁ s₂ os os' sym hpath happly _ ih =>
      rw [List.map_append, Exact.ops, List.foldl_append] at hw ⊢
      have hn : RangeDecoder.normalize c rest = some (c, rest) :=
        RangeDecoder.normalize_of_le (by rw [hc.range]; exact hx.range_ge) _
      obtain ⟨d, ys, c₁, rest₁, hrun, hn₁, hread⟩ := hc.path hpath hx hn (hw.of_ops (hx.ops _))
      obtain ⟨c', rest', hmoves, hread'⟩ := ih (hx.ops _) hread hw
      refine ⟨c', rest', .step trivial ?_ hmoves, hread'⟩
      have hctx : ({ s with coder := c } : RefState).ctx prop = s.ctx prop := rfl
      change RefState.step prop _ rest = _
      rw [RefState.step, hctx, hrun]
      simp only [RangeDecoder.Outcome.flush, hn₁]
      rw [applySymbol_coder happly]
      rfl

end LzmaTurbo.Enc
