import LzmaTurbo.Lib.PairedRuns
import LzmaTurbo.Lzma.Position

/-!
# The fast loop on twins

Twins differ in what nothing later reads: table entries the properties do not use, places of the
dictionary not written yet, bytes of the temporary buffer past its size. Decoded side by side
they take the same symbols from the same bytes.
-/
namespace LzmaTurbo.Lzma
open Machine BitProgram Window
open RangeDecoder (Coder Outcome run)

structure Regs.Twin (r r' : Regs) : Prop where
  eq : r' = { r with rc := { r.rc with probs := r'.rc.probs }, dic := r'.dic }

structure LzmaDec.Twin (p q : LzmaDec) : Prop where
  eq : q = { p with probs := q.probs, dic := q.dic, tempBuf := q.tempBuf }

structure RealResult.Twin (a b : RealResult) : Prop where
  p : a.p.Twin b.p
  buf : b.buf = a.buf
  ok : b.ok = a.ok

/-- The loop does the same about a symbol that leaves the coders `rc` and `rc'`. -/
structure SymbolTwin (rc rc' : Rc) (a b : Flow × Regs) : Prop where
  flow : b.1 = a.1
  regs : a.2.Twin b.2
  left : a.2.rc = rc
  right : b.2.rc = rc'

section
variable {prop : LzmaProps} {e : Env} {r r' : Regs} {s : RefState} {src ys rest : List UInt8}
  {size size' N : ℕ}

theorem Regs.Twin.loose (h : r.Twin r') : r' = { r with rc := r'.rc, dic := r'.dic } := by
  have heq := h.eq
  obtain ⟨rc, state, reps, dic, dicPos, processedPos, len⟩ := r'
  simp only [Regs.mk.injEq, true_and] at heq ⊢
  exact heq.2

theorem Regs.Twin.pos (h : r.Twin r') : r'.dicPos = r.dicPos := (congrArg Regs.dicPos h.eq :)

theorem Regs.Twin.owed (h : r.Twin r') : r'.len = r.len := (congrArg Regs.len h.eq :)

theorem Regs.Twin.read (h : r.Twin r') : r'.rc.buf = r.rc.buf :=
  (congrArg (fun r => r.rc.buf) h.eq :)

theorem decodeShortRep_twin (e : Env) (r : Regs) (probs : Array ℕ) (dic : Array UInt8) :
    Paired (decodeShortRep e r)
      (decodeShortRep e { r with rc := { r.rc with probs }, dic })
      (SymbolTwin r.rc { r.rc with probs }) := by
  unfold decodeShortRep
  exact .bind (.any _ _) fun _ _ _ => .bind (.any _ _) fun _ _ _ => .ok ⟨rfl, ⟨rfl⟩, rfl, rfl⟩

theorem copyMatch_twin (e : Env) (r : Regs) (probs : Array ℕ) (dic : Array UInt8) :
    Paired (copyMatch e r) (copyMatch e { r with rc := { r.rc with probs }, dic })
      (SymbolTwin r.rc { r.rc with probs }) := by
  unfold copyMatch
  refine .bind (.same _) ?_
  rintro rem _ rfl
  refine .ite (fun _ => .ok ⟨rfl, ⟨rfl⟩, rfl, rfl⟩) fun _ => .bind (.same _) ?_
  rintro owed _ rfl
  refine .bind (.same _) ?_
  rintro room _ rfl
  exact .ite (fun _ => .bind (.any _ _) fun _ _ _ => .ok ⟨rfl, ⟨rfl⟩, rfl, rfl⟩)
    fun _ => .bind (.any _ _) fun _ _ _ => .ok ⟨rfl, ⟨rfl⟩, rfl, rfl⟩

theorem finishSymbol_twin (e : Env) (r : Regs) (rc₀ rc : Rc) (probs : Array ℕ)
    (dic : Array UInt8) (sym : Symbol) :
    Paired (finishSymbol e r sym rc)
      (finishSymbol e { r with rc := rc₀, dic } sym { rc with probs })
      (SymbolTwin rc { rc with probs }) := by
  cases sym with
  | lit b => exact .bind (.any _ _) fun _ _ _ => .ok ⟨rfl, ⟨rfl⟩, rfl, rfl⟩
  | shortRep => exact decodeShortRep_twin e { r with rc } probs dic
  | rep index len => exact copyMatch_twin e { r with rc, reps := _, state := _, len := _ } probs dic
  | simple dist len =>
      simp only [finishSymbol]
      refine .ite (fun _ => .ok ⟨rfl, ⟨rfl⟩, rfl, rfl⟩) fun _ =>
        .ite (fun _ => .ok ⟨rfl, ⟨rfl⟩, rfl, rfl⟩) fun _ => ?_
      exact copyMatch_twin e { r with rc, reps := _, state := _, len := _ } probs dic

/-- The table aside. -/
def SameCoder (a b : Rc) : Prop := b = { a with probs := b.probs }

/-- What the loop's coder stands for fixes all of it but the unused entries. -/
theorem Tracks.twin {src' rest' : List UInt8} {rc rc' : Rc} {c : Coder ℕ}
    (h : Tracks src size N rc c rest) (h' : Tracks src' size' N rc' c rest')
    (hsrc : src'.length = src.length) (hrest : rest'.length = rest.length) :
    SameCoder rc rc' := by
  have h1 := h.buf_le
  have h2 := h'.buf_le
  rw [← h.drop, ← h'.drop, List.length_drop, List.length_drop] at hrest
  obtain ⟨range, code, buf, probs⟩ := rc'
  simp only [SameCoder, Rc.mk.injEq, and_true] at hrest h2 ⊢
  exact ⟨h'.range.trans h.range.symm, h'.code.trans h.code.symm, by omega⟩

theorem Settles.tracks_twin {rc rc' : Rc} {d : Coder ℕ} (h : Settles src size N rc d ys)
    (h' : Settles src size' N rc' d ys) (hrc : rc' = { rc with probs := rc'.probs }) :
    ∃ c rest, Tracks src size N rc c rest ∧ Tracks src size' N rc' c rest ∧
      RangeDecoder.normalize c rest = some (d, ys) := by
  obtain ⟨c, rest, ht, hn⟩ := h.tracks
  obtain ⟨c', rest', ht', hn'⟩ := h'.tracks
  have hprobs : c'.probs = c.probs :=
    (RangeDecoder.normalize_probs hn').symm.trans (RangeDecoder.normalize_probs hn)
  have hc : c' = c := by
    obtain ⟨range, code, probs⟩ := c
    obtain ⟨range', code', probs'⟩ := c'
    have h1 := ht.range.symm.trans ((congrArg Rc.range hrc).symm.trans ht'.range)
    have h2 := ht.code.symm.trans ((congrArg Rc.code hrc).symm.trans ht'.code)
    simp only at h1 h2 hprobs
    rw [h1, h2, hprobs]
  have hrest : rest' = rest := by
    rw [← ht'.drop, ← ht.drop, hrc]
  exact ⟨c, rest, ht, hc ▸ hrest ▸ ht', hn⟩

theorem decodeSymbol_twin (hN : N ≤ size) (hN' : N ≤ size')
    (hprobs : lzmaPropsGetNumProbs prop.lc prop.lp = N) (he : e.For prop) (hs : s.Begun prop)
    (h : Mirrors prop e r s) (h' : Mirrors prop e r' s) (hsrc : e.src = src)
    (ht : Settles src size N r.rc s.coder ys) (ht' : Settles src size' N r'.rc s.coder ys)
    (htwin : r.Twin r') : Paired (decodeSymbol e r) (decodeSymbol e r')
      fun a b => b.1 = a.1 ∧ a.2.Twin b.2 := by
  have hc : (s.ctx prop).Ok N := hprobs ▸ s.ctx_ok hs.state_lt
  obtain ⟨c, rest, ht, ht', -⟩ := ht.tracks_twin ht' (congrArg Regs.rc htwin.eq)
  have hfol := decodeSymbol_follows hN he hc hs.plain hs.reps h hsrc ht
  have hfol' := decodeSymbol_follows hN' he hc hs.plain hs.reps h' hsrc ht'
  unfold Follows at hfol hfol'
  cases hr : run (symbolProg { s.ctx prop with canRep := true }) c rest with
  | more =>
      rw [hr] at hfol
      rw [show decodeSymbol e r = _ from hfol]
      exact .error _
  | fail =>
      refine absurd ?_ (RangeDecoder.run_ne_fail (symbolProg_spec (c := { s.ctx prop with
        canRep := true }) ⟨hc.posState_lt, hc.state_lt, hc.lit_ge, hc.lit_le⟩ rfl).total c rest)
      exact hr
  | done sym d zs =>
      rw [hr] at hfol hfol'
      obtain ⟨rc₁, ht₁, h₁⟩ := hfol
      obtain ⟨rc₂, ht₂, h₂⟩ := hfol'
      have hfin := finishSymbol_twin e r r'.rc rc₁ rc₂.probs r'.dic sym
      have hrc : rc₂ = { rc₁ with probs := rc₂.probs } := ht₁.twin ht₂ rfl rfl
      rw [← hrc, ← h₁] at hfin
      rw [h₂, htwin.loose]
      exact hfin.mono fun a b hab => ⟨hab.flow, hab.regs⟩

/-- One symbol, which the loop always decodes. -/
theorem decodeLoop_twin_one {e e' : Env} {fuel : ℕ} {Q : Regs → Regs → Prop}
    (hbuf : e.bufLimit = 0) (hbuf' : e'.bufLimit = 0)
    (h : Paired (decodeSymbol e r) (decodeSymbol e' r') fun a b => b.1 = a.1 ∧ Q a.2 b.2) :
    Paired (decodeLoop e (fuel + 1) r) (decodeLoop e' (fuel + 1) r') Q := by
  refine .bind h fun a b hab => ?_
  obtain ⟨flow, r₁⟩ := a
  obtain ⟨flow', r₂⟩ := b
  obtain ⟨rfl, h₂⟩ := hab
  cases flow' with
  | outer => exact .ok h₂
  | body =>
      simp only [hbuf, hbuf', Nat.not_lt_zero, and_false, if_false]
      exact .ok h₂

/-- The whole loop, by induction on its fuel: between two symbols both stand for one state. -/
theorem decodeLoop_twin (fuel : ℕ) (hN : N ≤ size) (hN' : N ≤ size')
    (hprobs : lzmaPropsGetNumProbs prop.lc prop.lp = N) (he : e.For prop) (hsrc : e.src = src)
    (hls : e.limit ≤ e.dicBufSize) (hmargin : e.bufLimit + 20 ≤ src.length)
    (hs : s.Begun prop) (h : Mirrors prop e r s) (h' : Mirrors prop e r' s) (hlen : r.len = 0)
    (ht : Settles src size N r.rc s.coder ys) (ht' : Settles src size' N r'.rc s.coder ys)
    (hlong : 20 ≤ ys.length) (hl : r.dicPos < e.limit)
    (hcheck : e.checkDicSize = 0 → s.hist.length + (e.limit - r.dicPos) ≤ prop.dictSize)
    (htwin : r.Twin r') : Paired (decodeLoop e fuel r) (decodeLoop e fuel r') Regs.Twin := by
  induction fuel generalizing r r' s ys with
  | zero => exact .error _
  | succ fuel ih =>
      have hpos := htwin.pos
      have hlen' : r'.len = 0 := htwin.owed.trans hlen
      have hmore := hs.not_more _ hlong
      obtain ⟨flow, r₁, h₁, hend, hbody⟩ := decodeSymbol_step hN hprobs he hs h hlen hsrc ht hmore
        hl.le hls (.inl hl)
      obtain ⟨flow', r₂, h₂, hend', hbody'⟩ := decodeSymbol_step hN' hprobs he hs h' hlen' hsrc ht'
        hmore (hpos ▸ hl.le) hls (.inl (hpos ▸ hl))
      obtain ⟨hflow, htwin₁⟩ :=
        decodeSymbol_twin hN hN' hprobs he hs h h' hsrc ht ht' htwin _ _ h₁ h₂
      obtain rfl : flow' = flow := hflow
      rw [decodeLoop, decodeLoop, h₁, h₂, ok_bind, ok_bind]
      cases flow' with
      | outer => exact .ok htwin₁
      | body =>
          have hpos₁ : r₂.dicPos = r₁.dicPos := htwin₁.pos
          have hbuf₁ : r₂.rc.buf = r₁.rc.buf := htwin₁.read
          simp only [hpos₁, hbuf₁]
          refine .ite (fun hgo => ?_) fun _ => .ok htwin₁
          have hcheck' : e.checkDicSize = 0 →
              s.hist.length + (e.limit - r'.dicPos) ≤ prop.dictSize := hpos.symm ▸ hcheck
          obtain ⟨s₁, ys₁, n, hm, hb, hset, ha, -, hlen₁, hmir⟩ :=
            hend.goes_on h (hbody rfl).1 hgo.1 hcheck
          obtain ⟨s₂, ys₂, n', hm', -, hset', ha', -, -, hmir'⟩ :=
            hend'.goes_on h' (hbody' rfl).1 (hpos₁ ▸ hgo.1) hcheck'
          rw [hm, StreamMachine.Step.next.injEq, Config.body.injEq] at hm'
          obtain ⟨rfl, rfl⟩ := hm'
          have hrest := hset.length
          have hgrow := ha.length
          have hmove := ha.pos
          exact ih hb hmir hmir' hlen₁ hset hset' (by omega) hgo.1
            (fun h0 => by have := hcheck h0; omega) htwin₁

end

section
variable {p q : LzmaDec} {s : RefState} {w src : List UInt8} {limit bufLimit : ℕ}

theorem LzmaDec.Twin.prop (h : p.Twin q) : q.prop = p.prop := (congrArg LzmaDec.prop h.eq :)

theorem LzmaDec.Twin.size (h : p.Twin q) : q.dicBufSize = p.dicBufSize :=
  (congrArg LzmaDec.dicBufSize h.eq :)

theorem LzmaDec.Twin.pos (h : p.Twin q) : q.dicPos = p.dicPos := (congrArg LzmaDec.dicPos h.eq :)

theorem LzmaDec.Twin.code (h : p.Twin q) : q.code = p.code := (congrArg LzmaDec.code h.eq :)

theorem LzmaDec.Twin.remain (h : p.Twin q) : q.remainLen = p.remainLen :=
  (congrArg LzmaDec.remainLen h.eq :)

theorem LzmaDec.Twin.held (h : p.Twin q) : q.tempBufSize = p.tempBufSize :=
  (congrArg LzmaDec.tempBufSize h.eq :)

theorem normalize_twin (src : List UInt8) (rc : Rc) (probs : Array ℕ) :
    Paired (normalize src rc) (normalize src { rc with probs }) SameCoder := by
  unfold normalize
  refine .ite (fun _ => .bind (.same _) ?_) fun _ => .ok rfl
  rintro b _ rfl
  exact .ok rfl

theorem lzmaDecDecodeReal_twin {src src' : List UInt8} (htwin : p.Twin q)
    (h : Paired (decodeLoop (envOf p limit src bufLimit) (limit - p.dicPos + 1) (regsOf p))
      (decodeLoop (envOf p limit src' bufLimit) (limit - p.dicPos + 1) (regsOf q)) fun r r' =>
        r.Twin r' ∧ Paired (normalize src r.rc) (normalize src' r'.rc) SameCoder) :
    Paired (lzmaDecDecodeReal p limit src bufLimit) (lzmaDecDecodeReal q limit src' bufLimit)
      RealResult.Twin := by
  have henv : envOf q limit src' bufLimit = envOf p limit src' bufLimit := by rw [htwin.eq]; rfl
  have hpos := htwin.pos
  unfold lzmaDecDecodeReal
  rw [henv, hpos]
  refine .bind h fun r r' ⟨hr, hnorm⟩ => .bind hnorm fun rc rc' hrc => .ok ?_
  rw [show rc' = { rc with probs := rc'.probs } from hrc, htwin.eq, hr.eq]
  exact ⟨⟨rfl⟩, rfl, rfl⟩

theorem lzmaDecDecodeReal2_pair {src src' : List UInt8} (htwin : p.Twin q)
    (h : ∀ l, p.clampLimit limit = .ok l → Paired (lzmaDecDecodeReal p l src bufLimit)
      (lzmaDecDecodeReal q l src' bufLimit) RealResult.Twin) :
    Paired (lzmaDecDecodeReal2 p limit src bufLimit) (lzmaDecDecodeReal2 q limit src' bufLimit)
      RealResult.Twin := by
  have hclamp : q.clampLimit limit = p.clampLimit limit := by rw [htwin.eq]; rfl
  have hprop := htwin.prop
  unfold lzmaDecDecodeReal2
  rw [hclamp, hprop]
  cases hl : p.clampLimit limit with
  | error e => exact .error e
  | ok l =>
      refine .bind (h l hl) fun res res' hres => ?_
      have hcheck : res'.p.checkDicSize = res.p.checkDicSize := by rw [hres.p.eq]
      have hproc : res'.p.processedPos = res.p.processedPos := by rw [hres.p.eq]
      rw [hcheck, hproc]
      refine .ite (fun _ => .ok ⟨?_, hres.buf, hres.ok⟩) fun _ => .ok hres
      rw [hres.p.eq]
      exact ⟨rfl⟩

theorem regsOf_twin (htwin : p.Twin q) : (regsOf p).Twin (regsOf q) := by
  rw [htwin.eq]
  exact ⟨rfl⟩

/-- Twins are at the same place of the reference. -/
theorem LzmaDec.Core.mirrors_twin (h' : q.Core s w) (htwin : p.Twin q) (hr : p.remainLen = 0)
    (l : ℕ) (src : List UInt8) (bufLimit : ℕ) :
    Mirrors p.prop (envOf p l src bufLimit) (regsOf q) s := by
  have hmir := h'.mirrors (htwin.remain.trans hr) l src bufLimit
  have henv : envOf q l src bufLimit = envOf p l src bufLimit := by rw [htwin.eq]; rfl
  rw [henv, htwin.prop] at hmir
  exact hmir

theorem LzmaDec.Core.settles_twin (h' : q.Core s w) (htwin : p.Twin q) (src : List UInt8) :
    lzmaPropsGetNumProbs p.prop.lc p.prop.lp ≤ q.probs.size ∧ Settles src q.probs.size
      (lzmaPropsGetNumProbs p.prop.lc p.prop.lp) (regsOf q).rc s.coder src := by
  have hprop := htwin.prop
  have ht := h'.settles src
  have hprobs := h'.probs
  rw [hprop] at ht hprobs
  exact ⟨hprobs, ht⟩

/-- One symbol, or a run of them with a margin of input. -/
theorem lzmaDecDecodeReal2_twin (h : p.Core s w) (h' : q.Core s w) (hr : p.remainLen = 0)
    (htwin : p.Twin q) (hl : p.dicPos ≤ limit) (hls : limit ≤ p.dicBufSize)
    (hcase : bufLimit = 0 ∨ p.dicPos < limit ∧ bufLimit + 20 ≤ src.length) :
    Paired (lzmaDecDecodeReal2 p limit src bufLimit) (lzmaDecDecodeReal2 q limit src bufLimit)
      RealResult.Twin := by
  obtain rfl := h.written hr
  obtain ⟨l, hc1, hc2, hc3, hc4, hc5⟩ := h.toWindow.clampLimit hl
  refine lzmaDecDecodeReal2_pair htwin fun l' hl' => lzmaDecDecodeReal_twin htwin ?_
  rw [hc1, Except.ok.injEq] at hl'
  subst hl'
  have he := envOf_for p h.size_lt l src bufLimit
  have hmir := h.mirrors hr l src bufLimit
  have hmir' := h'.mirrors_twin htwin hr l src bufLimit
  obtain ⟨hprobs', ht'⟩ := h'.settles_twin htwin src
  have hboth : ∀ r r' : Regs, r.Twin r' →
      r.Twin r' ∧ Paired (normalize src r.rc) (normalize src r'.rc) SameCoder := by
    intro r r' hrr
    refine ⟨hrr, ?_⟩
    rw [hrr.eq]
    exact normalize_twin src r.rc _
  rcases hcase with h0 | ⟨hlt, hmargin⟩
  · have hsym := decodeSymbol_twin h.probs hprobs' rfl he h.begun hmir hmir' rfl
      (h.settles src) ht' (regsOf_twin htwin)
    exact decodeLoop_twin_one h0 h0 (hsym.mono fun a b hab => ⟨hab.1, hboth _ _ hab.2⟩)
  · refine Paired.mono ?_ hboth
    exact decodeLoop_twin _ h.probs hprobs' rfl he rfl (hc3.trans hls) hmargin h.begun hmir
      hmir' rfl (h.settles src) ht' (by omega) (by show p.dicPos < l; omega) hc5
      (regsOf_twin htwin)

theorem finishSymbol_src (e : Env) (src : List UInt8) (r : Regs) (sym : Symbol) (rc : Rc) :
    finishSymbol { e with src } r sym rc = finishSymbol e r sym rc := by
  cases sym <;> rfl

/-- One symbol that lies within `T`, whatever follows it. -/
theorem lzmaDecDecodeReal2_twin_held {T junk junk' zs : List UInt8} {sym : Symbol} {d : Coder ℕ}
    (h : p.Core s w) (h' : q.Core s w) (hr : p.remainLen = 0) (htwin : p.Twin q)
    (hjunk : junk'.length = junk.length)
    (hT : (run (symbolProg (s.ctx p.prop)) s.coder T).flush = .done sym d zs) :
    Paired (lzmaDecDecodeReal2 p limit (T ++ junk) 0) (lzmaDecDecodeReal2 q limit (T ++ junk') 0)
      RealResult.Twin := by
  obtain rfl := h.written hr
  refine lzmaDecDecodeReal2_pair htwin fun l _ =>
    lzmaDecDecodeReal_twin htwin (decodeLoop_twin_one rfl rfl ?_)
  obtain ⟨c, rest, hrun, hnorm⟩ := RangeDecoder.flush_done hT
  rw [← h.begun.run_eq] at hrun
  have hprop := htwin.prop
  have hc : (s.ctx p.prop).Ok _ := s.ctx_ok h.begun.state_lt
  have htracks : ∀ {P : LzmaDec} (hP : P.Core s s.hist) (src : List UInt8),
      Tracks src P.probs.size (lzmaPropsGetNumProbs P.prop.lc P.prop.lp) (regsOf P).rc s.coder
        src := fun hP src => ⟨hP.range, hP.code, hP.table, rfl, rfl, Nat.zero_le _, hP.begun.good⟩
  have ht' := htracks h' (T ++ junk')
  rw [hprop] at ht'
  have hfol := decodeSymbol_follows h.probs (envOf_for p h.size_lt l (T ++ junk) 0) hc
    h.begun.plain h.begun.reps (h.mirrors hr l (T ++ junk) 0) rfl (htracks h (T ++ junk))
  have hfol' := decodeSymbol_follows (h'.settles_twin htwin T).1
    (envOf_for p h.size_lt l (T ++ junk') 0) hc h.begun.plain h.begun.reps
    (h'.mirrors_twin htwin hr l (T ++ junk') 0) rfl ht'
  unfold Follows at hfol hfol'
  rw [RangeDecoder.run_append junk hrun] at hfol
  rw [RangeDecoder.run_append junk' hrun] at hfol'
  obtain ⟨rc₁, ht₁, h₁⟩ := hfol
  obtain ⟨rc₂, ht₂, h₂⟩ := hfol'
  have hlen : (T ++ junk').length = (T ++ junk).length := by simp only [List.length_append, hjunk]
  have hrc : rc₂ = { rc₁ with probs := rc₂.probs } :=
    ht₁.twin ht₂ hlen (by simp only [List.length_append, hjunk])
  have hfin := finishSymbol_twin (envOf p l (T ++ junk) 0) (regsOf p) (regsOf q).rc rc₁ rc₂.probs
    (regsOf q).dic sym
  rw [← hrc, ← h₁, ← (regsOf_twin htwin).loose,
    ← finishSymbol_src (envOf p l (T ++ junk) 0) (T ++ junk')] at hfin
  rw [h₂]
  refine hfin.mono fun a b hab => ⟨hab.flow, hab.regs, ?_⟩
  obtain ⟨hn, -⟩ | ⟨d₁, ys₁, rc₁', hn₁, hn₁', hs₁, -⟩ := normalize_tracks ht₁
  · rw [RangeDecoder.normalize_append junk hnorm] at hn
    cases hn
  obtain ⟨hn, -⟩ | ⟨d₂, ys₂, rc₂', hn₂, hn₂', hs₂, -⟩ := normalize_tracks ht₂
  · rw [RangeDecoder.normalize_append junk' hnorm] at hn
    cases hn
  rw [RangeDecoder.normalize_append junk hnorm, Option.some.injEq, Prod.mk.injEq] at hn₁
  rw [RangeDecoder.normalize_append junk' hnorm, Option.some.injEq, Prod.mk.injEq] at hn₂
  obtain ⟨rfl, rfl⟩ := hn₁
  obtain ⟨rfl, rfl⟩ := hn₂
  rw [hab.left, hab.right, show normalize (T ++ junk) rc₁ = _ from hn₁',
    show normalize (T ++ junk') rc₂ = _ from hn₂']
  exact .ok (hs₁.twin hs₂ hlen (by simp only [List.length_append, hjunk]))

end
end LzmaTurbo.Lzma
