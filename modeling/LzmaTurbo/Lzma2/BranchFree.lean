import LzmaTurbo.Lzma.BranchingLoop
import LzmaTurbo.Lzma2.LookAhead

/-!
# The macros without branches, wherever a decoder passes

Between two symbols every decoder has its interval and its table in use, and so has the loop
after any number of symbols.
-/
namespace LzmaTurbo.Lzma2
open Machine BitProgram Lzma

/-- The registers the loop passes through: those it starts with, and those after each symbol. -/
inductive LoopPasses (e : Env) (r₀ : Regs) : Regs → Prop
  | start : LoopPasses e r₀ r₀
  | symbol {r r' : Regs} : LoopPasses e r₀ r → decodeSymbol e r = .ok (.body, r') →
      LoopPasses e r₀ r'

theorem LoopPasses.inUse {e : Env} {r₀ r : Regs} {N : ℕ} (h : LoopPasses e r₀ r)
    (he : e.Within N) (h₀ : r₀.rc.InUse N) : r.rc.InUse N := by
  induction h with
  | start => exact h₀
  | symbol _ hs ih => exact (decodeSymbol_same he ih).post _ hs

theorem Reached.inUse {p : LzmaDec} (h : Reached p) (hr : p.remainLen = 0) :
    (regsOf p).rc.InUse (lzmaPropsGetNumProbs p.prop.lc p.prop.lp) := by
  obtain ⟨s, w, hcore⟩ := h.core hr
  have hk : kBitModelTotal = 2048 := by decide
  refine ⟨?_, fun i hi => ⟨s.coder.probs i, ?_, hcore.table i hi⟩⟩
  · change p.range < 2 ^ 32
    rw [hcore.range]
    exact hcore.begun.good.range_lt
  · have hle := hcore.begun.good.probs_le i
    omega

/-- With the interval in 32 bits and a table of probabilities, every macro runs as its form
with branches. Every decoder that is between two symbols is so, and stays so in the loop,
which runs as the loop with branches does. -/
theorem branch_free_agrees :
    (∀ (src : List UInt8) (N : ℕ) (rc : Rc), rc.InUse N → N < 2 ^ 32 →
      MacrosAgree src N rc) ∧
    ∀ p, Reached p → p.remainLen = 0 → ∀ limit src bufLimit,
      (∀ r, LoopPasses (envOf p limit src bufLimit) (regsOf p) r →
        MacrosAgree src (lzmaPropsGetNumProbs p.prop.lc p.prop.lp) r.rc) ∧
      lzmaDecDecodeReal p limit src bufLimit =
        Branching.lzmaDecDecodeReal p limit src bufLimit := by
  refine ⟨fun src N rc h hN => h.macros hN, fun p h hr limit src bufLimit => ⟨fun r hp => ?_, ?_⟩⟩
  · have he := envOf_within p limit src bufLimit
    exact (hp.inUse he (h.inUse hr)).macros he.lt
  · exact (lzmaDecDecodeReal_same (h.inUse hr) limit src bufLimit).eq

/-- A tree of one level over three entries, and a decoder past the five bytes of an all-zero
stream. -/
theorem branch_free_agrees_tiny :
    MacrosAgree [7] 4 ⟨2 ^ 24 - 1, 5, 0, Array.replicate 4 1024⟩ ∧
    ∃ p, Reached p ∧ p.remainLen = 0 ∧ ∀ limit src bufLimit,
      (∀ r, LoopPasses (envOf p limit src bufLimit) (regsOf p) r →
        MacrosAgree src (lzmaPropsGetNumProbs p.prop.lc p.prop.lp) r.rc) ∧
      lzmaDecDecodeReal p limit src bufLimit =
        Branching.lzmaDecDecodeReal p limit src bufLimit := by
  have hfill : fillTemp rcInitSize [0, 0, 0, 0, 0] (LzmaDec.new tinyProps).tempBuf
      (LzmaDec.new tinyProps).tempBufSize 0 = .ok (Array.replicate 20 0, rcInitSize, 5) := rfl
  have hstart := Reached.started (.new tinyProps) (by decide) (by decide) hfill
    (show headerCode _ = .ok 0 from rfl) (by decide)
  refine ⟨branch_free_agrees.1 _ _ _ ⟨by decide, fun i hi => ⟨1024, by decide, ?_⟩⟩ (by norm_num),
    _, hstart, rfl, branch_free_agrees.2 _ hstart rfl⟩
  rw [Array.getElem?_replicate, if_pos hi]

end LzmaTurbo.Lzma2
