import LzmaTurbo.Lzma.Turns

/-!
# The branch the loop takes is the one the dry run names

The first two bits of a symbol say whether the loop's body decodes a literal, a
match with its own distance or a repeated match. One iteration of the loop and
its last normalisation are compared with the dry run on the same slice.
-/
namespace LzmaTurbo.Lzma
open Machine BitProgram Window
open RangeDecoder (Coder Outcome run)

/-- The branch of the loop's body, with the range coder where that branch begins. -/
def symbolBranch (e : Env) (r : Regs) : Except Fault (Dummy × Rc) := do
  let posState := (r.processedPos &&& e.pbMask) <<< 4
  let (bit, rc) ← ifBit e.src (isMatch + (posState + r.state)) r.rc
  if !bit then .ok (.lit, rc)
  else do
    let (bit, rc) ← ifBit e.src (isRep + r.state) rc
    if !bit then .ok (.matched, rc) else .ok (.rep, rc)

def decodeRep (e : Env) (r : Regs) (posState : ℕ) : Except Fault (Flow × Regs) := do
  let (bit, rc) ← ifBit e.src (isRepG0 + r.state) r.rc
  let state := if r.state < kNumLitStates then 8 else 11
  if !bit then do
    let (bit, rc) ← ifBit e.src (isRep0Long + (posState + r.state)) rc
    if !bit then decodeShortRep e { r with rc }
    else decodeMatch e { r with rc, state } posState repLenCoder
  else do
    let (reps, rc) ← selectRep e { r with rc }
    decodeMatch e { r with rc, reps, state } posState repLenCoder

/-- What each branch goes on with; `symbolBranch` never answers `inputEof`. -/
def decodeBranch (e : Env) (r : Regs) : Dummy × Rc → Except Fault (Flow × Regs)
  | (.inputEof, _) => .error .index
  | (.lit, rc) => decodeLiteral e { r with rc }
  | (.matched, rc) => decodeMatch e { r with rc, state := r.state + kNumStates }
      ((r.processedPos &&& e.pbMask) <<< 4) lenCoder
  | (.rep, rc) => decodeRep e { r with rc } ((r.processedPos &&& e.pbMask) <<< 4)

theorem decodeSymbol_eq (e : Env) (r : Regs) :
    decodeSymbol e r = symbolBranch e r >>= decodeBranch e r := by
  unfold decodeSymbol symbolBranch
  simp only [bind_assoc]
  refine bind_congr fun x => ?_
  obtain ⟨_ | _, rc⟩ := x
  · rfl
  · simp only [Bool.not_true, Bool.false_eq_true, if_false, bind_assoc]
    refine bind_congr fun y => ?_
    obtain ⟨_ | _, rc'⟩ := y <;> rfl

/-- The questions that settle the kind of a symbol. -/
def kindProg (c : Ctx) : Prog ℕ Dummy :=
  .bit (isMatch + (16 * c.posState + c.state)) fun
    | false => .pure .lit
    | true => .bit (isRep + c.state) fun
        | false => .pure .matched
        | true => .pure .rep

def bodyProg (c : Ctx) : Dummy → Prog ℕ Symbol
  | .inputEof => .fail
  | .lit => litProg c
  | .matched => simpleProg c
  | .rep => if c.canRep then repProg c else .fail

theorem symbolProg_kind (c : Ctx) : symbolProg c = (kindProg c).bind (bodyProg c) := by
  unfold symbolProg kindProg
  simp only [Prog.bind]
  congr 1
  funext b
  cases b with
  | false => rfl
  | true =>
      simp only [Prog.bind]
      congr 1
      funext b
      cases b <;> rfl

theorem bodyProg_returns (c : Ctx) (kind : Dummy) :
    (bodyProg c kind).Returns fun sym => kindOf sym = kind := by
  cases kind with
  | inputEof => trivial
  | lit => exact (Prog.returns_true _).bind fun _ _ => rfl
  | matched => exact (Prog.returns_true _).bind fun _ _ => (Prog.returns_true _).bind fun _ _ => rfl
  | rep =>
      have htail : ∀ index, (repTail c index).Returns fun sym => kindOf sym = .rep :=
        fun index => (Prog.returns_true _).bind fun _ _ => rfl
      change (if c.canRep then repProg c else .fail).Returns _
      split
      · intro b
        cases b with
        | false =>
            intro b
            cases b with
            | false => rfl
            | true => exact htail 0
        | true =>
            intro b
            cases b with
            | false => exact htail 1
            | true => exact fun b => htail (2 + b.toNat)
      · trivial

/-- A finished symbol is of the kind its first bits say. -/
theorem run_kindProg {c : Ctx} {cd d : Coder ℕ} {xs rest : List UInt8} {sym : Symbol}
    (h : run (symbolProg c) cd xs = .done sym d rest) :
    ∃ d' ys, run (kindProg c) cd xs = .done (kindOf sym) d' ys := by
  rw [symbolProg_kind, RangeDecoder.run_bind] at h
  cases hk : run (kindProg c) cd xs with
  | more => rw [hk] at h; cases h
  | fail => rw [hk] at h; cases h
  | done kind d' ys =>
      rw [hk] at h
      exact ⟨d', ys, by rw [RangeDecoder.run_returns (bodyProg_returns c kind) h]⟩

section
variable {prop : LzmaProps} {e : Env} {r : Regs} {s : RefState} {src : List UInt8} {size N : ℕ}
  {c : Coder ℕ} {rest : List UInt8}

theorem symbolBranch_follows (hN : N ≤ size) (he : e.For prop) (hc : (s.ctx prop).Ok N)
    (h : Mirrors prop e r s) (hsrc : e.src = src) (ht : Tracks src size N r.rc c rest) :
    Follows src size N (symbolBranch e r) (kindProg (s.ctx prop)) c rest
      (fun kind rc => .ok (kind, rc)) := by
  have hl := layout
  have h1 := hc.lit_ge
  have h2 := hc.lit_le
  have hst : s.state < kNumStates := hc.state_lt
  have hps := hc.posState_lt
  have hposState : (r.processedPos &&& e.pbMask) <<< 4 = 16 * (s.ctx prop).posState := by
    rw [he.pbMask, Nat.one_shiftLeft, Nat.and_two_pow_sub_one_eq_mod, h.processed,
      Nat.shiftLeft_eq, Nat.mod_mod_of_dvd _ (Nat.pow_dvd_pow 2 (by have := prop.pb_le; omega)),
      mul_comm]
    rfl
  unfold symbolBranch kindProg
  simp only [hposState, hsrc, h.state]
  refine follows_ifBit ht hN (by omega) (fun b rc₁ c₁ rest₁ h₁ => ?_)
  cases b with
  | false => exact follows_pure h₁ rfl
  | true =>
      refine follows_ifBit h₁ hN (by omega) (fun b rc₂ c₂ rest₂ h₂ => ?_)
      cases b with
      | false => exact follows_pure h₂ rfl
      | true => exact follows_pure h₂ rfl

end

section
variable {p : LzmaDec} {s : RefState} {w : List UInt8}

theorem LzmaDec.Core.branch (h : p.Core s w) (hr : p.remainLen = 0) (limit : ℕ)
    {src rest : List UInt8} {sym : Symbol} {d : Coder ℕ}
    (hrun : (run (symbolProg (s.ctx p.prop)) s.coder src).flush = .done sym d rest) :
    ∃ rc, symbolBranch (envOf p limit src 0) (regsOf p) = .ok (kindOf sym, rc) := by
  obtain ⟨c, xs, hdone, -⟩ := RangeDecoder.flush_done hrun
  obtain ⟨d', ys, hkind⟩ := run_kindProg hdone
  have ht : Tracks src p.probs.size (lzmaPropsGetNumProbs p.prop.lc p.prop.lp) (regsOf p).rc
      s.coder src :=
    ⟨h.range, h.code, h.table, rfl, rfl, Nat.zero_le _, h.begun.good⟩
  have hfol := symbolBranch_follows h.probs (envOf_for p h.size_lt limit src 0)
    (s.ctx_ok h.begun.state_lt) (h.mirrors hr limit src 0) rfl ht
  unfold Follows at hfol
  rw [hkind] at hfol
  obtain ⟨rc, -, hE⟩ := hfol
  exact ⟨rc, hE⟩

/-- One iteration of the loop and its last normalisation, on a slice that holds the symbol:
the branch is that of the symbol, and the bytes read are those of the symbol. -/
theorem lzmaDecDecodeReal_one (h : p.Core s w) (hr : p.remainLen = 0) {limit : ℕ}
    {src rest : List UInt8} {sym : Symbol} {d : Coder ℕ}
    (hrun : (run (symbolProg (s.ctx p.prop)) s.coder src).flush = .done sym d rest)
    (hl : p.dicPos ≤ limit) (hls : limit ≤ p.dicBufSize)
    (hroom : p.dicPos < limit ∨ kindOf sym = .matched) :
    (∃ rc, symbolBranch (envOf p limit src 0) (regsOf p) = .ok (kindOf sym, rc)) ∧
    ∃ res, lzmaDecDecodeReal p limit src 0 = .ok res ∧ res.buf ≤ src.length ∧
      src.drop res.buf = rest := by
  refine ⟨h.branch hr limit hrun, ?_⟩
  have hmore : (run (symbolProg (s.ctx p.prop)) s.coder src).flush ≠ .more := by
    rw [hrun]
    simp
  obtain ⟨flow, r', hsym, hend, -⟩ := decodeSymbol_step h.probs rfl
    (envOf_for p h.size_lt limit src 0) h.begun (h.mirrors hr limit src 0) rfl rfl (h.settles src)
    hmore hl hls (hroom.imp_right fun hk sym' d' zs hrun' => by
      rw [hrun, Outcome.done.injEq] at hrun'
      exact kindOf_matched (hrun'.1 ▸ hk))
  have hset : ∃ d', Settles src p.probs.size (lzmaPropsGetNumProbs p.prop.lc p.prop.lp) r'.rc d'
      rest := by
    cases hend with
    | running s' ys n w' hstep hb hset =>
        simp only [RefState.step, hrun] at hstep
        cases ha : applySymbol p.prop s d sym with
        | reject => simp [ha, Effect.leaving] at hstep
        | mark s₁ => simp [ha, Effect.leaving] at hstep
        | next s₁ =>
            simp only [ha, Effect.leaving, StreamMachine.Step.next.injEq, Config.body.injEq]
              at hstep
            obtain ⟨-, rfl⟩ := hstep
            exact ⟨_, hset⟩
    | marked s' ys zs d' len n r₁ hB hb hf hset =>
        obtain ⟨rfl, rfl⟩ := hB
        rw [hrun, Outcome.done.injEq] at hf
        exact ⟨d', hf.2.2 ▸ hset⟩
    | rejected s' ys zs sym' d' n r₁ hB hb hf hrej hset =>
        obtain ⟨rfl, rfl⟩ := hB
        rw [hrun, Outcome.done.injEq] at hf
        exact ⟨d', hf.2.2 ▸ hset⟩
  obtain ⟨d', hset⟩ := hset
  obtain ⟨rc, hrc, ht⟩ := hset.normalize
  have hloop : decodeLoop (envOf p limit src 0) (limit - p.dicPos + 1) (regsOf p) = .ok r' :=
    decodeLoop_one rfl hsym
  refine ⟨_, by rw [lzmaDecDecodeReal, hloop, ok_bind, hrc, ok_bind], ht.buf_le, ht.drop⟩

end
end LzmaTurbo.Lzma
