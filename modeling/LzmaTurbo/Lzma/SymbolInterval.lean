import LzmaTurbo.Lib.RunTrace
import LzmaTurbo.Lzma.Session

/-!
# The range coder through one symbol

Whatever the interval, the code and the probabilities are before a symbol, its
bits and its last normalisation keep the probabilities learnable, never meet an
empty or a full bound and take at most twenty bytes. The code stays below the
range unless a direct bit halves an odd range of which it is the last value.
-/
namespace LzmaTurbo.Lzma
open Machine BitProgram Window
open RangeDecoder (Coder Outcome run Along InLearnt inLearnt_iff)

/-- The range coder's locals between two symbols, with `N` probabilities in use. -/
structure Rc.Between (rc : Rc) (N : ℕ) : Prop where
  range_ge : 2 ^ 24 ≤ rc.range
  range_lt : rc.range < 2 ^ 32
  code_lt : rc.code < rc.range
  probs : ∀ i < N, ∃ v, rc.probs[i]? = some v ∧ InLearnt v

/-- The locals as a coder of the library; an unused probability is one half. -/
def Rc.coder (rc : Rc) (N : ℕ) : Coder ℕ where
  range := rc.range
  code := rc.code
  probs i := if i < N then rc.probs.getD i 1024 else 1024

/-- Every bound met is inside its interval. -/
def BoundsInside : Prog ℕ Symbol → Coder ℕ → List UInt8 → Prop :=
  Along (fun d slot => 0 < d.bound slot ∧ d.bound slot < d.range) fun _ => True

/-- No direct bit halves an odd range of which the code is the last value. -/
def HalvesEvenly : Prog ℕ Symbol → Coder ℕ → List UInt8 → Prop :=
  Along (fun _ _ => True) fun d => ¬ (d.range % 2 = 1 ∧ d.code + 1 = d.range)

section
variable {rc : Rc} {N : ℕ} {src : List UInt8}

theorem Rc.Between.prob (h : rc.Between N) {i : ℕ} (hi : i < N) :
    rc.probs[i]? = some ((rc.coder N).probs i) ∧ 31 ≤ (rc.coder N).probs i ∧
      (rc.coder N).probs i ≤ 2017 := by
  obtain ⟨v, hv, hl⟩ := h.probs i hi
  have hp : (rc.coder N).probs i = v := by
    simp only [Rc.coder, if_pos hi, Array.getD_eq_getD_getElem?, hv, Option.getD_some]
  rw [hp]
  exact ⟨hv, inLearnt_iff.mp hl⟩

theorem Rc.Between.good (h : rc.Between N) : (rc.coder N).Good := by
  have h1 := h.range_ge
  have h2 := h.range_lt
  have h3 := h.code_lt
  refine ⟨by show 2 ^ 16 ≤ rc.range; omega, h2, by show rc.code < 2 ^ 32; omega, ?_, ?_⟩
  · intro i
    by_cases hi : i < N
    · exact (h.prob hi).2.1
    · simp [Rc.coder, hi]
  · intro i
    by_cases hi : i < N
    · exact (h.prob hi).2.2
    · simp [Rc.coder, hi]

theorem Rc.Between.tracks (h : rc.Between N) (hbuf : rc.buf ≤ src.length) :
    Tracks src rc.probs.size N rc (rc.coder N) (src.drop rc.buf) :=
  ⟨rfl, rfl, fun _ hi => (h.prob hi).1, rfl, rfl, hbuf, h.good⟩

end

section
variable {prop : LzmaProps} {e : Env} {r r' : Regs} {s : RefState} {flow : Flow} {rc rc' : Rc}

theorem copyMatch_rc (h : copyMatch e r = .ok (flow, r')) : r'.rc = r.rc := by
  unfold copyMatch at h
  obtain ⟨rem, -, h⟩ := bind_eq_ok h
  split at h
  · cases h
    rfl
  · obtain ⟨owed, -, h⟩ := bind_eq_ok h
    obtain ⟨room, -, h⟩ := bind_eq_ok h
    rw [← bind_ite] at h
    obtain ⟨dic, -, h⟩ := bind_eq_ok h
    cases h
    rfl

/-- What follows the bits of a symbol leaves the range coder alone. -/
theorem finishSymbol_rc {sym : Symbol} (h : finishSymbol e r sym rc = .ok (flow, r')) :
    r'.rc = rc := by
  cases sym with
  | lit b =>
      obtain ⟨dic, -, h⟩ := bind_eq_ok h
      cases h
      rfl
  | shortRep =>
      obtain ⟨b, -, h⟩ := bind_eq_ok h
      obtain ⟨dic, -, h⟩ := bind_eq_ok h
      cases h
      rfl
  | rep index len => exact copyMatch_rc h
  | simple dist len =>
      simp only [finishSymbol] at h
      split at h
      · cases h
        rfl
      · by_cases hfar : (if e.checkDicSize = 0 then r.processedPos else e.checkDicSize) ≤ dist
        · rw [if_pos hfar] at h
          cases h
          rfl
        · rw [if_neg hfar] at h
          exact copyMatch_rc h

/-- A loop about to decode a symbol, its range coder in any state. -/
structure SymbolStart (prop : LzmaProps) (e : Env) (r : Regs) (s : RefState) : Prop where
  env : e.For prop
  state_lt : s.state < kNumStates
  plain : s.Plain
  reps : s.reps.Ok prop s.hist
  mirrors : Mirrors prop e r s
  size : lzmaPropsGetNumProbs prop.lc prop.lp ≤ r.rc.probs.size
  rc : r.rc.Between (lzmaPropsGetNumProbs prop.lc prop.lp)
  buf_le : r.rc.buf ≤ e.src.length

theorem SymbolStart.follows (h : SymbolStart prop e r s) :
    Follows e.src r.rc.probs.size (lzmaPropsGetNumProbs prop.lc prop.lp) (decodeSymbol e r)
      (symbolProg { s.ctx prop with canRep := true })
      (r.rc.coder (lzmaPropsGetNumProbs prop.lc prop.lp)) (e.src.drop r.rc.buf)
      (finishSymbol e r) :=
  decodeSymbol_follows h.size h.env (RefState.ctx_ok h.state_lt) h.plain h.reps h.mirrors rfl
    (h.rc.tracks h.buf_le)

/-- The symbol's bits and the last normalisation, when the bytes for them are there. -/
theorem SymbolStart.ends (h : SymbolStart prop e r s) {sym : Symbol} {d : Coder ℕ}
    {ys : List UInt8}
    (hrun : (run (symbolProg { s.ctx prop with canRep := true })
      (r.rc.coder (lzmaPropsGetNumProbs prop.lc prop.lp)) (e.src.drop r.rc.buf)).flush =
      .done sym d ys) :
    ∃ rc rc', decodeSymbol e r = finishSymbol e r sym rc ∧ normalize e.src rc = .ok rc' ∧
      Tracks e.src r.rc.probs.size (lzmaPropsGetNumProbs prop.lc prop.lp) rc' d ys := by
  obtain ⟨c, xs, hdone, hn⟩ := RangeDecoder.flush_done hrun
  have hfol := h.follows
  unfold Follows at hfol
  rw [hdone] at hfol
  obtain ⟨rc, ht, hE⟩ := hfol
  obtain ⟨rc', hrc', ht'⟩ := (⟨c, xs, ht, hn⟩ : Settles _ _ _ rc d ys).normalize
  exact ⟨rc, rc', hE, hrc', ht'⟩

/-- One symbol from any interval, code and probabilities. -/
theorem decodeSymbol_interval (h : SymbolStart prop e r s) :
    BoundsInside (symbolProg { s.ctx prop with canRep := true })
      (r.rc.coder (lzmaPropsGetNumProbs prop.lc prop.lp)) (e.src.drop r.rc.buf) ∧
    (r.rc.buf + lzmaRequiredInputMax ≤ e.src.length → ∃ sym rc rc',
      decodeSymbol e r = finishSymbol e r sym rc ∧ normalize e.src rc = .ok rc') ∧
    ∀ flow r' rc', decodeSymbol e r = .ok (flow, r') → normalize e.src r'.rc = .ok rc' →
      (∀ i < lzmaPropsGetNumProbs prop.lc prop.lp, ∃ v, rc'.probs[i]? = some v ∧ InLearnt v) ∧
      2 ^ 24 ≤ rc'.range ∧ rc'.range < 2 ^ 32 ∧ rc'.buf ≤ r.rc.buf + lzmaRequiredInputMax ∧
      (HalvesEvenly (symbolProg { s.ctx prop with canRep := true })
        (r.rc.coder (lzmaPropsGetNumProbs prop.lc prop.lp)) (e.src.drop r.rc.buf) →
        rc'.code < rc'.range) := by
  have hfol := h.follows
  have hends := @SymbolStart.ends _ _ _ _ h
  obtain ⟨-, hst, -, -, -, -, hrc, -⟩ := h
  have hc : (s.ctx prop).Ok (lzmaPropsGetNumProbs prop.lc prop.lp) := s.ctx_ok hst
  have hc' : ({ s.ctx prop with canRep := true } : Ctx).Ok (lzmaPropsGetNumProbs prop.lc prop.lp) :=
    ⟨hc.posState_lt, hc.state_lt, hc.lit_ge, hc.lit_le⟩
  have hspec := symbolProg_spec hc' rfl
  generalize lzmaPropsGetNumProbs prop.lc prop.lp = N at *
  have hmax : lzmaRequiredInputMax = 20 := rfl
  have hne : ∀ xs, run (symbolProg { s.ctx prop with canRep := true }) (r.rc.coder N) xs ≠ .fail :=
    RangeDecoder.run_ne_fail hspec.total _
  have hbudget := RangeDecoder.run_budget hspec.within hrc.good
    (covers_symbol hrc.range_ge) (e.src.drop r.rc.buf)
  rw [List.length_drop] at hbudget
  refine ⟨RangeDecoder.along_bounds hrc.good _, fun hlong => ?_, fun flow r' rc' hsym hnorm => ?_⟩
  · cases hr : (run (symbolProg { s.ctx prop with canRep := true }) (r.rc.coder N)
      (e.src.drop r.rc.buf)).flush with
    | fail => exact absurd (RangeDecoder.flush_fail hr) (hne _)
    | more =>
        have := hbudget.1 hr
        omega
    | done sym d ys =>
        obtain ⟨rc, rc', hE, hn, -⟩ := hends hr
        exact ⟨sym, rc, rc', hE, hn⟩
  · unfold Follows at hfol
    cases hr : run (symbolProg { s.ctx prop with canRep := true }) (r.rc.coder N)
      (e.src.drop r.rc.buf) with
    | fail => exact absurd hr (hne _)
    | more =>
        rw [hr] at hfol
        rw [hsym] at hfol
        cases hfol
    | done sym c' rest' =>
        rw [hr] at hfol hbudget
        obtain ⟨rc₁, ht, hE⟩ := hfol
        rw [hsym] at hE
        obtain rfl := finishSymbol_rc hE.symm
        obtain ⟨-, h2⟩ | ⟨d, ys, rc₂, h1, h2, ht', -, -, hge⟩ := normalize_tracks ht
        · rw [hnorm] at h2
          cases h2
        · rw [hnorm, Except.ok.injEq] at h2
          subst h2
          have hlen := hbudget.2 sym d ys (by simp only [Outcome.flush, h1])
          have hdrop := congrArg List.length ht'.drop
          have hle := ht'.buf_le
          rw [List.length_drop] at hdrop
          refine ⟨fun i hi => ⟨_, ht'.probs i hi, inLearnt_iff.mpr ⟨ht'.good.probs_ge i,
            ht'.good.probs_le i⟩⟩, by rw [ht'.range]; exact hge, by
            rw [ht'.range]; exact ht'.good.range_lt, ?_, fun heven => ?_⟩
          · change rc'.buf ≤ r.rc.buf + 20
            omega
          · rw [ht'.range, ht'.code]
            exact RangeDecoder.normalize_code_lt
              (RangeDecoder.run_code_lt hrc.good hrc.code_lt heven hr) h1

end

section
variable {prop : LzmaProps} {N : ℕ}

/-- Nothing decoded yet, every probability at its least, and twenty bytes of ones. -/
def lowEnv : Env := envOf (.new tinyProps) 4096 (List.replicate 20 255) 0

def lowRegs (range code : ℕ) : Regs :=
  { regsOf (.new tinyProps) with
    rc := { range, code, buf := 0, probs := Array.replicate 2752 31 }, reps := ⟨1, 1, 1, 1⟩ }

theorem lowRegs_start {range code : ℕ} (h1 : 2 ^ 24 ≤ range) (h2 : range < 2 ^ 32)
    (h3 : code < range) : SymbolStart tinyProps lowEnv (lowRegs range code) (freshState []) where
  env := envOf_for _ (by decide) _ _ _
  state_lt := by decide
  plain := fun _ => rfl
  reps := (freshState_base []).reps
  mirrors := by
    have hb := LzmaDec.new_before tinyProps
    exact ⟨hb.holds, hb.fits, hb.processed, hb.check, rfl, rfl⟩
  size := by
    change _ ≤ (Array.replicate 2752 31).size
    rw [Array.size_replicate]
    decide
  rc := by
    refine ⟨h1, h2, h3, fun i hi => ⟨31, ?_, inLearnt_iff.mpr ⟨le_rfl, by norm_num⟩⟩⟩
    have hi' : i < 2752 := hi
    change (Array.replicate 2752 31)[i]? = some 31
    rw [Array.getElem?_replicate, if_pos hi']
  buf_le := Nat.zero_le _

theorem coder_replicate (range code n : ℕ) :
    (Rc.mk range code 0 (Array.replicate n 31)).coder n =
      ⟨range, code, fun i => if i < n then 31 else 1024⟩ := by
  simp only [Rc.coder, Coder.mk.injEq, true_and]
  funext i
  split
  · rename_i hi
    rw [Array.getD_eq_getD_getElem?, Array.getElem?_replicate, if_pos hi, Option.getD_some]
  · rfl

/-- Twenty bytes of ones hold a symbol whatever the interval. -/
theorem decodeSymbol_interval_low : ∃ sym rc rc',
    decodeSymbol lowEnv (lowRegs (2 ^ 32 - 1) 0) =
      finishSymbol lowEnv (lowRegs (2 ^ 32 - 1) 0) sym rc ∧ normalize lowEnv.src rc = .ok rc' :=
  (decodeSymbol_interval (@lowRegs_start (2 ^ 32 - 1) 0 (by norm_num) (by norm_num)
    (by norm_num))).2.1 (by decide)

/-- The interval and the code of a finished outcome, once it is flushed. -/
def endsAt (o : Outcome ℕ Symbol) : Option (Symbol × ℕ × ℕ) :=
  match o.flush with
  | .done sym d _ => some (sym, d.range, d.code)
  | _ => none

theorem endsAt_some {o : Outcome ℕ Symbol} {sym : Symbol} {range code : ℕ}
    (h : endsAt o = some (sym, range, code)) :
    ∃ d ys, o.flush = .done sym d ys ∧ d.range = range ∧ d.code = code := by
  unfold endsAt at h
  split at h
  · rename_i sym' d ys heq
    simp only [Option.some.injEq, Prod.mk.injEq] at h
    obtain ⟨rfl, hr, hc⟩ := h
    exact ⟨d, ys, heq, hr, hc⟩
  · cases h

/-- A far match whose direct bits halve an odd range leaves the code above the range. -/
theorem decodeSymbol_code_above : ∃ e r s, SymbolStart tinyProps e r s ∧ ∃ flow r' rc',
    decodeSymbol e r = .ok (flow, r') ∧ normalize e.src r'.rc = .ok rc' ∧
      rc'.range ≤ rc'.code := by
  have h := @lowRegs_start 998672957 30004434 (by norm_num) (by norm_num) (by norm_num)
  refine ⟨lowEnv, lowRegs 998672957 30004434, freshState [], h, ?_⟩
  have hend : endsAt (run (symbolProg { (freshState []).ctx tinyProps with canRep := true })
      ⟨998672957, 30004434, fun i => if i < 2752 then 31 else 1024⟩ (List.replicate 20 255)) =
      some (.simple 0xFFFFFFFF 273, 702311558, 786197637) := by
    decide +kernel
  obtain ⟨d, ys, hrun, hrange, hcode⟩ := endsAt_some hend
  rw [← coder_replicate] at hrun
  obtain ⟨rc, rc', hE, hn, ht⟩ := SymbolStart.ends h hrun
  refine ⟨.outer, _, rc', hE, hn, ?_⟩
  rw [ht.range, ht.code, hrange, hcode]
  norm_num

end
end LzmaTurbo.Lzma
