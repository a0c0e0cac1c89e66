import LzmaTurbo.Lzma.Reference

/-!
# Laws of the reference decoder

A step looks at no byte past the ones it consumes, only appends to the history,
and keeps the state's invariant; a run is the same whether its input comes at
once or in two pieces.
-/
namespace LzmaTurbo.Lzma
open BitProgram RangeDecoder Window

variable {prop : LzmaProps}

/-- The distances lie inside the history, or are the initial ones. -/
def Reps.Ok (r : Reps) (prop : LzmaProps) (hist : List UInt8) : Prop :=
  ∀ i, 1 ≤ r.nth i ∧ r.nth i ≤ max 1 hist.length ∧ r.nth i ≤ prop.dictSize

structure RefState.Base (prop : LzmaProps) (s : RefState) : Prop where
  probs_ge : ∀ slot, 31 ≤ s.coder.probs slot
  probs_le : ∀ slot, s.coder.probs slot ≤ 2017
  state_lt : s.state < 12
  reps : s.reps.Ok prop s.hist

structure RefState.Ok (prop : LzmaProps) (s : RefState) : Prop extends s.Base prop where
  good : s.coder.Good
  norm : 2 ^ 24 ≤ s.coder.range

def Config.Ok (prop : LzmaProps) : Config → Prop
  | .header s => s.Base prop
  | .body s => s.Ok prop

theorem Reps.Ok.mono {r : Reps} {h h' : List UInt8} (hr : r.Ok prop h)
    (hl : h.length ≤ h'.length) : r.Ok prop h' := by
  intro i
  have := hr i
  omega

theorem Reps.Ok.front {r : Reps} {h : List UInt8} (hr : r.Ok prop h) (index : ℕ) :
    (r.front index).Ok prop h := by
  intro i
  have h0 := hr 0
  have h1 := hr 1
  have h2 := hr 2
  have h3 := hr 3
  match index with
  | 0 => exact hr i
  | 1 => match i with
    | 0 => exact h1
    | 1 => exact h0
    | 2 => exact h2
    | _ + 3 => exact h3
  | 2 => match i with
    | 0 => exact h2
    | 1 => exact h0
    | 2 => exact h1
    | _ + 3 => exact h3
  | _ + 3 => match i with
    | 0 => exact h3
    | 1 => exact h0
    | 2 => exact h1
    | _ + 3 => exact h2

theorem Reps.Ok.push {r : Reps} {h : List UInt8} (hr : r.Ok prop h) {d : ℕ} (h1 : 1 ≤ d)
    (hd : d ≤ h.length) (hp : d ≤ prop.dictSize) :
    Reps.Ok ⟨d, r.rep0, r.rep1, r.rep2⟩ prop h := by
  intro i
  have h0 := hr 0
  have h1 := hr 1
  have h2 := hr 2
  match i with
  | 0 => exact ⟨‹_›, by show d ≤ _; omega, hp⟩
  | 1 => exact h0
  | 2 => exact h1
  | _ + 3 => exact h2

theorem freshState_base (hist : List UInt8) : (freshState hist).Base prop := by
  refine ⟨fun _ => (by decide : 31 ≤ 1024), fun _ => (by decide : 1024 ≤ 2017),
    (by decide : 0 < 12), ?_⟩
  have hd := prop.dict_ge
  have h1 : (1 : ℕ) ≤ lzmaDicMin := by decide
  intro i
  have hn : (freshState hist).reps.nth i = 1 := by
    match i with
    | 0 => rfl
    | 1 => rfl
    | 2 => rfl
    | _ + 3 => rfl
  rw [hn]
  omega

theorem start_ok {s : RefState} (hs : s.Base prop) (b1 b2 b3 b4 : UInt8) :
    (s.start b1 b2 b3 b4).Ok prop := by
  have h1 := b1.toNat_lt
  have h2 := b2.toNat_lt
  have h3 := b3.toNat_lt
  have h4 := b4.toNat_lt
  refine ⟨⟨hs.probs_ge, hs.probs_le, hs.state_lt, hs.reps⟩,
    ⟨?_, ?_, ?_, hs.probs_ge, hs.probs_le⟩, ?_⟩ <;> simp only [RefState.start] <;> omega

/-- Every symbol but the end marker writes at least one byte. -/
theorem applySymbol_next {s s' : RefState} {c : Coder ℕ} {sym : Symbol} (hl : sym.Legal)
    (h : applySymbol prop s c sym = .next s') :
    s'.coder = c ∧ s.hist <:+ s'.hist ∧ s.hist.length < s'.hist.length ∧
      (s.Base prop → s'.state < 12 ∧ s'.reps.Ok prop s'.hist) := by
  have hd := prop.dict_ge
  cases sym with
  | lit b =>
      simp only [applySymbol, Effect.next.injEq] at h
      subst h
      refine ⟨rfl, List.suffix_cons _ _, by simp, fun hb => ⟨?_, hb.reps.mono (by simp)⟩⟩
      have := hb.state_lt
      simp only [litState]
      split
      · omega
      · split <;> omega
  | shortRep =>
      simp only [applySymbol] at h
      split at h
      · simp only [Effect.next.injEq] at h
        subst h
        refine ⟨rfl, suffix_copyBack _ _ _, by simp, fun hb => ⟨?_, hb.reps.mono (by simp)⟩⟩
        simp only [shortRepState]
        split <;> omega
      · simp at h
  | rep index len =>
      simp only [applySymbol] at h
      split at h
      · simp only [Effect.next.injEq] at h
        subst h
        have h2 : 2 ≤ len := hl.2.1
        refine ⟨rfl, suffix_copyBack _ _ _, by simp; omega, fun hb =>
          ⟨?_, (hb.reps.front index).mono (by simp)⟩⟩
        simp only [repState]
        split <;> omega
      · simp at h
  | simple dist len =>
      simp only [applySymbol] at h
      split at h
      · split at h <;> simp at h
      · split at h
        · rename_i hr
          simp only [Effect.next.injEq] at h
          subst h
          have h2 : 2 ≤ len := hl.2.1
          simp only [RefState.reach, lt_min_iff] at hr
          refine ⟨rfl, suffix_copyBack _ _ _, by simp; omega, fun hb =>
            ⟨?_, (hb.reps.push (by omega) (by omega) (by omega)).mono (by simp)⟩⟩
          simp only [matchState]
          split <;> omega
        · simp at h

theorem litProbOf_bounds (prop : LzmaProps) (hist : List UInt8) : literal ≤ litProbOf prop hist ∧
    litProbOf prop hist + lzmaLitSize ≤ lzmaPropsGetNumProbs prop.lc prop.lp := by
  have hl := layout
  have hlc := prop.lc_le
  have hb : (hist.headD 0).toNat < 2 ^ (8 - prop.lc) * 2 ^ prop.lc := by
    rw [← pow_add, show 8 - prop.lc + prop.lc = 8 by omega]
    exact (hist.headD 0).toNat_lt
  have h1 : (hist.headD 0).toNat / 2 ^ (8 - prop.lc) < 2 ^ prop.lc :=
    Nat.div_lt_of_lt_mul hb
  have h2 : hist.length % 2 ^ prop.lp + 1 ≤ 2 ^ prop.lp := Nat.mod_lt _ (by positivity)
  have h3 : (hist.length % 2 ^ prop.lp + 1) * 2 ^ prop.lc ≤ 2 ^ prop.lp * 2 ^ prop.lc :=
    Nat.mul_le_mul_right _ h2
  have h4 : (2 : ℕ) ^ prop.lp * 2 ^ prop.lc = 2 ^ (prop.lc + prop.lp) := by
    rw [← pow_add, add_comm]
  rw [Nat.add_mul] at h3
  unfold litProbOf lzmaPropsGetNumProbs
  rw [Nat.shiftLeft_eq]
  refine ⟨Nat.le_add_right _ _, ?_⟩
  have h5 : lzmaLitSize * (hist.length % 2 ^ prop.lp * 2 ^ prop.lc +
      (hist.headD 0).toNat / 2 ^ (8 - prop.lc) + 1) ≤ lzmaLitSize * 2 ^ (prop.lc + prop.lp) :=
    Nat.mul_le_mul_left _ (by omega)
  rw [Nat.mul_add, mul_one] at h5
  omega

theorem RefState.ctx_ok {s : RefState} (hs : s.state < 12) :
    (s.ctx prop).Ok (lzmaPropsGetNumProbs prop.lc prop.lp) where
  posState_lt := by
    have h1 : (2 : ℕ) ^ prop.pb ≤ 2 ^ 4 := Nat.pow_le_pow_right (by norm_num) prop.pb_le
    have h2 : s.hist.length % 2 ^ prop.pb < 2 ^ prop.pb := Nat.mod_lt _ (by positivity)
    change s.hist.length % 2 ^ prop.pb < 16
    omega
  state_lt := hs
  lit_ge := (litProbOf_bounds prop s.hist).1
  lit_le := (litProbOf_bounds prop s.hist).2

theorem symbolProg_returns {c : Ctx} {size : ℕ} (hc : c.Ok size) :
    (symbolProg c).Returns Symbol.Legal := by
  intro b
  cases b with
  | false => exact (litProg_spec hc).returns
  | true =>
      intro b
      cases b with
      | false => exact (simpleProg_spec hc).returns
      | true =>
          simp only
          split
          · exact (repProg_spec hc).returns
          · trivial

/-- One symbol: it extends the history and takes a byte or narrows the interval. -/
theorem RefState.step_next {s : RefState} (hs : s.Ok prop) {xs ys : List UInt8} {c' : Config}
    (h : s.step prop xs = .next c' ys) : ∃ s', c' = .body s' ∧ s'.Ok prop ∧
      s.hist <:+ s'.hist ∧ s.hist.length < s'.hist.length ∧
      (ys.length < xs.length ∨ (ys = xs ∧ s'.coder.range < s.coder.range)) := by
  unfold RefState.step at h
  cases hr : (run (symbolProg (s.ctx prop)) s.coder xs).flush with
  | more => simp [hr] at h
  | fail => simp [hr] at h
  | done sym c rest =>
      simp only [hr] at h
      have hl := flush_run_returns (symbolProg_returns (s.ctx_ok hs.state_lt)) hr
      obtain ⟨hg, hn⟩ := flush_run_good hs.good hr
      have hp := flush_run_bit_progress hs.good hr
      cases he : applySymbol prop s c sym with
      | reject => simp [he, Effect.leaving] at h
      | mark s' => simp [he, Effect.leaving] at h
      | next s' =>
          simp only [he, Effect.leaving, StreamMachine.Step.next.injEq] at h
          obtain ⟨rfl, rfl⟩ := h
          obtain ⟨rfl, hsuf, hlt, hb⟩ := applySymbol_next hl he
          obtain ⟨hst, hreps⟩ := hb hs.toBase
          exact ⟨s', rfl, ⟨⟨hg.probs_ge, hg.probs_le, hst, hreps⟩, hg, hn⟩, hsuf, hlt, hp⟩

theorem RefState.step_ne_header (s s' : RefState) {xs ys : List UInt8} :
    s.step prop xs ≠ .next (.header s') ys := by
  intro h
  unfold RefState.step at h
  cases hr : (run (symbolProg (s.ctx prop)) s.coder xs).flush with
  | more => simp [hr] at h
  | fail => simp [hr] at h
  | done sym c rest =>
      simp only [hr] at h
      cases he : applySymbol prop s c sym <;> simp [he, Effect.leaving] at h

theorem litProg_returns (k : Ctx) : (litProg k).Returns fun sym => ∃ b, sym = .lit b :=
  Prog.Returns.bind (Prog.returns_true _) fun _ _ => ⟨_, rfl⟩

/-- A zero code reads as a literal. -/
theorem RefState.step_code_zero {s : RefState} (hs : s.Ok prop) (hc : s.coder.code = 0) (xs : List UInt8) :
    s.step prop xs = .more ∨ ∃ s' zs, s.step prop xs = .next (.body s') zs := by
  obtain ⟨k, hk⟩ : ∃ k, k = s.ctx prop := ⟨_, rfl⟩
  have hkok : k.Ok (lzmaPropsGetNumProbs prop.lc prop.lp) := hk ▸ s.ctx_ok hs.state_lt
  obtain ⟨slot, hslot⟩ : ∃ slot, slot = isMatch + (16 * k.posState + k.state) := ⟨_, rfl⟩
  have hbound := (bound_pos hs.good hs.norm slot).1
  have hnorm := hs.norm
  have hbit : (s.coder.split slot).1 = false := by
    rw [Coder.split, if_pos (by omega)]
  obtain ⟨d, hd⟩ : ∃ d, d = (s.coder.split slot).2.adapt slot false := ⟨_, rfl⟩
  have hrun : run (symbolProg k) s.coder xs = run (litProg k) d xs := by
    rw [symbolProg, run, normalize_of_le hs.norm]
    simp only [← hslot, hbit, ← hd]
  unfold RefState.step
  rw [← hk, hrun]
  cases hf : (run (litProg k) d xs).flush with
  | more => exact .inl rfl
  | fail =>
      exact absurd (flush_fail hf)
        (run_ne_fail (litProg_spec hkok).total d xs)
  | done sym c rest =>
      obtain ⟨b, rfl⟩ := flush_run_returns (litProg_returns k) hf
      exact .inr ⟨_, rest, rfl⟩

theorem Effect.leaving_append (e : Effect) (ys zs : List UInt8) :
    e.leaving (ys ++ zs) = (e.leaving ys).append zs := by
  cases e <;> rfl

/-- Any verdict but `more` is final: further input is only handed on. -/
theorem RefState.step_append {s : RefState} {xs : List UInt8} (zs : List UInt8)
    (h : s.step prop xs ≠ .more) : s.step prop (xs ++ zs) = (s.step prop xs).append zs := by
  unfold RefState.step at h ⊢
  cases hr : (run (symbolProg (s.ctx prop)) s.coder xs).flush with
  | more => simp [hr] at h
  | fail => simp only [flush_run_fail_append zs hr, StreamMachine.Step.append]
  | done sym c rest => simp only [flush_run_append zs hr, Effect.leaving_append]

theorem Config.step_append {c : Config} {xs : List UInt8} (zs : List UInt8)
    (h : c.step prop xs ≠ .more) : c.step prop (xs ++ zs) = (c.step prop xs).append zs := by
  cases c with
  | body s => exact s.step_append zs h
  | header s =>
      match xs with
      | [] => simp [Config.step] at h
      | b0 :: ys =>
          simp only [Config.step, List.cons_append] at h ⊢
          by_cases hb : b0 = 0
          · match ys with
            | [] => simp [hb] at h
            | [_] => simp [hb] at h
            | [_, _] => simp [hb] at h
            | [_, _, _] => simp [hb] at h
            | _ :: _ :: _ :: _ :: rest => simp [hb, StreamMachine.Step.append]
          · simp [hb, StreamMachine.Step.append]

/-- The range coder's start is a zero byte and four more. -/
theorem Config.step_header {s : RefState} {c' : Config} {xs ys : List UInt8}
    (h : (Config.header s).step prop xs = .next c' ys) :
    ∃ b1 b2 b3 b4, xs = 0 :: b1 :: b2 :: b3 :: b4 :: ys ∧ c' = .body (s.start b1 b2 b3 b4) := by
  match xs with
  | [] => simp [Config.step] at h
  | b0 :: zs =>
      by_cases hb : b0 = 0
      · match zs with
        | [] => simp [Config.step, hb] at h
        | [_] => simp [Config.step, hb] at h
        | [_, _] => simp [Config.step, hb] at h
        | [_, _, _] => simp [Config.step, hb] at h
        | b1 :: b2 :: b3 :: b4 :: rest =>
            simp only [Config.step, hb, ne_eq, not_true_eq_false, if_false,
              StreamMachine.Step.next.injEq] at h
            obtain ⟨rfl, rfl⟩ := h
            exact ⟨b1, b2, b3, b4, by rw [hb], rfl⟩
      · simp [Config.step, hb] at h

/-- What a step consumed is all it looked at. -/
theorem Config.step_split {c c' : Config} {xs ys : List UInt8}
    (h : c.step prop xs = .next c' ys) :
    ∃ us, xs = us ++ ys ∧ c.step prop us = .next c' [] := by
  cases c with
  | header s =>
      obtain ⟨b1, b2, b3, b4, rfl, rfl⟩ := Config.step_header h
      exact ⟨[0, b1, b2, b3, b4], rfl, by simp [Config.step]⟩
  | body s =>
      simp only [Config.step, RefState.step] at h ⊢
      cases hr : (RangeDecoder.run (symbolProg (s.ctx prop)) s.coder xs).flush with
      | more => simp [hr] at h
      | fail => simp [hr] at h
      | done sym d rest =>
          obtain ⟨us, hus, hru⟩ := flush_run_split hr
          simp only [hr] at h
          cases he : applySymbol prop s d sym with
          | reject => simp [he, Effect.leaving] at h
          | mark s' => simp [he, Effect.leaving] at h
          | next s' =>
              simp only [he, Effect.leaving, StreamMachine.Step.next.injEq] at h
              obtain ⟨rfl, rfl⟩ := h
              exact ⟨us, hus, by simp only [hru, he, Effect.leaving]⟩

/-- The same of a step that reads an end mark. -/
theorem RefState.step_mark_split {s s' : RefState} {xs ys : List UInt8}
    (h : s.step prop xs = .mark s' ys) : ∃ us, xs = us ++ ys ∧ s.step prop us = .mark s' [] := by
  unfold RefState.step at h ⊢
  cases hr : (run (symbolProg (s.ctx prop)) s.coder xs).flush with
  | more => simp [hr] at h
  | fail => simp [hr] at h
  | done sym d rest =>
      obtain ⟨us, hus, hru⟩ := flush_run_split hr
      simp only [hr] at h
      cases he : applySymbol prop s d sym with
      | reject => simp [he, Effect.leaving] at h
      | next s₁ => simp [he, Effect.leaving] at h
      | mark s₁ =>
          simp only [he, Effect.leaving, StreamMachine.Step.mark.injEq] at h
          obtain ⟨rfl, rfl⟩ := h
          exact ⟨us, hus, by simp only [hru, he, Effect.leaving]⟩

/-- A step ends in a state of the invariant, further on in the output, and nearer
the end of the input. -/
theorem Config.step_next {c c' : Config} (hc : c.Ok prop) {xs ys : List UInt8}
    (h : c.step prop xs = .next c' ys) :
    c'.Ok prop ∧ c.hist <:+ c'.hist ∧ c'.measure ys < c.measure xs := by
  cases c with
  | body s =>
      obtain ⟨s', rfl, hs', hsuf, -, hp⟩ := RefState.step_next hc h
      refine ⟨hs', hsuf, ?_⟩
      have h1 := hs'.good.range_lt
      simp only [Config.measure]
      rcases hp with hp | ⟨rfl, hp⟩ <;> omega
  | header s =>
      obtain ⟨b1, b2, b3, b4, rfl, rfl⟩ := Config.step_header h
      refine ⟨start_ok hc b1 b2 b3 b4, List.suffix_rfl, ?_⟩
      simp only [Config.measure, RefState.start, List.length_cons]
      omega

theorem Config.lawful (prop : LzmaProps) :
    StreamMachine.Lawful (Config.step prop) (Config.Ok prop) Config.measure where
  append zs h := Config.step_append zs h
  split h := Config.step_split h
  next hc h := ⟨(Config.step_next hc h).1, (Config.step_next hc h).2.2⟩

/-- `Moves prop c xs c' ys`: from `c` some whole number of steps on `xs` leads to `c'`
with `ys` unread. A streaming decoder is right when it always stands at such a `c'`. -/
abbrev Moves (prop : LzmaProps) : Config → List UInt8 → Config → List UInt8 → Prop :=
  StreamMachine.Moves (fun _ => True) (Config.step prop)

/-- Where a decoder that may write up to `top` bytes of history still decodes: below
it, or at it to see whether an end marker follows. -/
def Config.Open (top : ℕ) : Config → Prop
  | .header s => s.hist.length ≤ top
  | .body s => s.hist.length < top ∨ s.hist.length = top ∧ s.coder.code ≠ 0

/-- The moves of a decoder whose output is limited. -/
abbrev Within (prop : LzmaProps) (top : ℕ) : Config → List UInt8 → Config → List UInt8 → Prop :=
  StreamMachine.Moves (Config.Open top) (Config.step prop)

section
variable {c c₁ : Config} {xs ys zs rest w : List UInt8} {top top' : ℕ}

theorem Within.moves (h : Within prop top c xs c₁ ys) : Moves prop c xs c₁ ys :=
  h.mono fun _ _ => trivial

theorem Within.mono (h : Within prop top c xs c₁ ys) (hle : top ≤ top') :
    Within prop top' c xs c₁ ys := by
  refine StreamMachine.Moves.mono (fun c hc => ?_) h
  cases c with
  | header s => exact le_trans hc hle
  | body s =>
      rcases hc with hc | ⟨hc, h0⟩
      · exact .inl (by omega)
      · rcases hle.lt_or_eq with hlt | rfl
        · exact .inl (by omega)
        · exact .inr ⟨hc, h0⟩

theorem Moves.ok (h : Moves prop c xs c₁ ys) (hc : c.Ok prop) : c₁.Ok prop :=
  StreamMachine.Moves.ok (Config.lawful prop) h hc

theorem Moves.append (h : Moves prop c xs c₁ ys) (zs : List UInt8) :
    Moves prop c (xs ++ zs) c₁ (ys ++ zs) :=
  StreamMachine.Moves.append (Config.lawful prop) h zs

theorem Moves.suffix (h : Moves prop c xs c₁ ys) (hc : c.Ok prop) : c.hist <:+ c₁.hist := by
  induction h with
  | refl => exact List.suffix_rfl
  | step _ hs _ ih =>
      obtain ⟨hc', hsuf, -⟩ := Config.step_next hc hs
      exact hsuf.trans (ih hc')

theorem start_header : start.Ok prop := freshState_base []

theorem reference_eq (h : Moves prop start xs c ys) : reference prop xs = .of (c.run prop ys) :=
  congrArg RefResult.of (h.run_eq (Config.lawful prop) start_header)

/-- Before its verdict the reference's output only grows. -/
theorem Moves.isPrefix (h : Moves prop start xs c ys) (hw : w <:+ c.hist) :
    w.reverse <+: (reference prop xs).out := by
  have hc := h.ok start_header
  obtain ⟨zs, hm, -⟩ := (Config.lawful prop).run_moves hc ys
  rw [RefResult.out, List.reverse_prefix, reference_eq h]
  exact hw.trans (Moves.suffix hm hc)

theorem Moves.reject (h : Moves prop start xs c ys) (hs : c.step prop ys = .reject) :
    reference prop xs = ⟨c.hist, ys, .reject⟩ := by
  rw [reference_eq h, Config.run, (Config.lawful prop).run_eq (h.ok start_header), hs]
  rfl

theorem Moves.mark {s' : RefState} (h : Moves prop start xs c ys)
    (hs : c.step prop ys = .mark s' rest) : reference prop xs = ⟨c.hist, rest, .mark⟩ := by
  rw [reference_eq h, Config.run, (Config.lawful prop).run_eq (h.ok start_header), hs]
  rfl

theorem Moves.more (h : Moves prop start xs c ys) (hs : c.step prop ys = .more) :
    reference prop xs = ⟨c.hist, ys, .more⟩ := by
  rw [reference_eq h, Config.run, (Config.lawful prop).run_eq (h.ok start_header), hs]
  rfl

end
end LzmaTurbo.Lzma
