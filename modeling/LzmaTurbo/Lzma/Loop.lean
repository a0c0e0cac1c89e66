import LzmaTurbo.Lzma.Effects

/-!
# The fast loop runs the reference decoder

One symbol lemma and, by induction on the loop's fuel, a run lemma: the loop
ends at a position the reference decoder passes through. Between symbols the
loop leaves the last normalisation undone, so its coder is compared with the
reference's through `normalize`.
-/
namespace LzmaTurbo.Lzma
open Machine BitProgram Window
open RangeDecoder (Coder Outcome run)

section
variable {prop : LzmaProps}

/-- A reachable state. With nothing decoded yet the code excludes a repeat, which
is what the check against `kBadRepCode` is for. -/
structure RefState.Begun (prop : LzmaProps) (s : RefState) : Prop extends s.Ok prop where
  plain : s.Plain
  noRep : s.hist = [] → ∀ xs, run (symbolProg { s.ctx prop with canRep := true }) s.coder xs =
    run (symbolProg (s.ctx prop)) s.coder xs

theorem RefState.Begun.run_eq {s : RefState} (h : s.Begun prop) (xs : List UInt8) :
    run (symbolProg { s.ctx prop with canRep := true }) s.coder xs =
      run (symbolProg (s.ctx prop)) s.coder xs := by
  by_cases hh : s.hist = []
  · exact h.noRep hh xs
  · have hc : (s.ctx prop).canRep = true := by simp [RefState.ctx, hh]
    rw [← hc]

/-- Every later state has written something. -/
theorem RefState.step_begun {s : RefState} (hs : s.Ok prop) {xs ys : List UInt8} {s' : RefState}
    (h : s.step prop xs = .next (.body s') ys) :
    s'.Begun prop ∧ s.hist.length < s'.hist.length := by
  obtain ⟨s₁, he, hok, -, hlt, -⟩ := RefState.step_next hs h
  obtain rfl : s' = s₁ := by injection he
  have hne : s'.hist ≠ [] := List.length_pos_iff.mp (by omega)
  exact ⟨⟨hok, fun h => absurd h hne, fun h => absurd h hne⟩, hlt⟩

/-- Twenty bytes cover the dearest symbol. -/
theorem covers_symbol {c : Coder ℕ} (h : 2 ^ 24 ≤ c.range) : c.Covers 15936 20 := by
  unfold Coder.Covers
  calc 2 ^ (2400 + 15936) ≤ (2 ^ 24) ^ 100 * 2 ^ (800 * 20) := by
        rw [← pow_mul, ← pow_add]
        exact Nat.pow_le_pow_right (by norm_num) (by norm_num)
    _ ≤ c.range ^ 100 * 2 ^ (800 * 20) := Nat.mul_le_mul_right _ (Nat.pow_le_pow_left h 100)

/-- Twenty bytes hold any symbol. -/
theorem RefState.Begun.not_more {s : RefState} (h : s.Begun prop) (xs : List UInt8)
    (hx : 20 ≤ xs.length) : (run (symbolProg (s.ctx prop)) s.coder xs).flush ≠ .more := by
  have hc : ({ s.ctx prop with canRep := true } : Ctx).Ok
      (lzmaPropsGetNumProbs prop.lc prop.lp) :=
    let h : (s.ctx prop).Ok _ := s.ctx_ok h.state_lt
    ⟨h.posState_lt, h.state_lt, h.lit_ge, h.lit_le⟩
  have hw := (symbolProg_spec hc rfl).within
  intro hm
  have := (RangeDecoder.run_budget hw h.good (covers_symbol h.norm) xs).1 (by rw [h.run_eq]; exact hm)
  omega

theorem RefState.Begun.ne_fail {s : RefState} (h : s.Begun prop) (xs : List UInt8) :
    run (symbolProg (s.ctx prop)) s.coder xs ≠ .fail := by
  have hc : ({ s.ctx prop with canRep := true } : Ctx).Ok
      (lzmaPropsGetNumProbs prop.lc prop.lp) :=
    let h : (s.ctx prop).Ok _ := s.ctx_ok h.state_lt
    ⟨h.posState_lt, h.state_lt, h.lit_ge, h.lit_le⟩
  rw [← h.run_eq]
  exact RangeDecoder.run_ne_fail (symbolProg_spec hc rfl).total _ _

/-- Before the first byte no symbol repeats a distance. -/
theorem symbolProg_noRep {c : Ctx} (h : c.canRep = false) : (symbolProg c).Returns
    fun sym => (∃ b, sym = .lit b) ∨ ∃ dist len, sym = .simple dist len := by
  intro b
  cases b with
  | false => exact (Prog.returns_true _).bind fun s _ => .inl ⟨_, rfl⟩
  | true =>
      intro b
      cases b with
      | false => exact (Prog.returns_true _).bind fun len _ =>
          (Prog.returns_true _).bind fun dist _ => .inr ⟨_, _, rfl⟩
      | true =>
          simp only [h, Bool.false_eq_true, if_false]
          trivial

/-- Only a match with its own distance can end a run. -/
theorem RefState.Begun.stops_simple {s : RefState} (h : s.Begun prop) {xs ys : List UInt8}
    {c d : Coder ℕ} {sym : Symbol} (hr : run (symbolProg (s.ctx prop)) s.coder xs = .done sym c ys)
    (ha : ∀ s', applySymbol prop s d sym ≠ .next s') : ∃ dist len, sym = .simple dist len := by
  by_cases hh : s.hist = []
  · have hc : (s.ctx prop).canRep = false := by simp [RefState.ctx, hh]
    rcases RangeDecoder.run_returns (symbolProg_noRep hc) hr with ⟨b, rfl⟩ | hsim
    · exact absurd rfl (ha _)
    · exact hsim
  · have hlen := List.length_pos_iff.mpr hh
    have hreach : ∀ i, s.reps.nth i ≤ s.reach prop := by
      intro i
      have := h.reps i
      rw [RefState.reach, le_min_iff]
      omega
    cases sym with
    | lit b => exact absurd rfl (ha _)
    | shortRep => exact absurd (if_pos (hreach 0)) (ha _)
    | rep index len => exact absurd (if_pos (hreach index)) (ha _)
    | simple dist len => exact ⟨dist, len, rfl⟩

/-- The coder and the unread bytes once the pending normalisation is done. -/
structure Settles (src : List UInt8) (size N : ℕ) (rc : Rc) (d : Coder ℕ) (ys : List UInt8) :
    Prop where
  tracks : ∃ c rest, Tracks src size N rc c rest ∧ RangeDecoder.normalize c rest = some (d, ys)

/-- Where the loop can be after some symbols from `r₀`, which stands for `s₀`:
`A` says which states it may go on from, `B` at which a symbol may have stopped it. -/
inductive LoopEnd (prop : LzmaProps) (e : Env) (src : List UInt8) (size N : ℕ) (r₀ : Regs)
    (s₀ : RefState) (A B : RefState → List UInt8 → Prop) (r' : Regs) : Prop
  | running (s : RefState) (ys : List UInt8) (n : ℕ) (w : List UInt8) : A s ys → s.Begun prop →
      Settles src size N r'.rc s.coder ys → Advance prop e r₀ r' s₀.hist s n w →
      s₀.hist.length < s.hist.length → LoopEnd prop e src size N r₀ s₀ A B r'
  | marked (s : RefState) (ys zs : List UInt8) (d : Coder ℕ) (len n : ℕ) (r₁ : Regs) :
      B s ys → s.Begun prop →
      (run (symbolProg (s.ctx prop)) s.coder ys).flush = .done (.simple 0xFFFFFFFF len) d zs →
      Settles src size N r'.rc d zs → Advance prop e r₀ r₁ s₀.hist s n s.hist →
      r' = { r₁ with rc := r'.rc, len := kMatchSpecLenStart } →
      LoopEnd prop e src size N r₀ s₀ A B r'
  | rejected (s : RefState) (ys zs : List UInt8) (sym : Symbol) (d : Coder ℕ) (n : ℕ)
      (r₁ : Regs) : B s ys → s.Begun prop →
      (run (symbolProg (s.ctx prop)) s.coder ys).flush = .done sym d zs →
      s.step prop ys = .reject →
      Settles src size N r'.rc d zs → Advance prop e r₀ r₁ s₀.hist s n s.hist →
      r'.dic = r₁.dic → r'.dicPos = r₁.dicPos → r'.processedPos = r₁.processedPos →
      kMatchSpecLenErrorData ≤ r'.len → LoopEnd prop e src size N r₀ s₀ A B r'

variable {e : Env} {r : Regs} {s : RefState} {src ys : List UInt8} {size N : ℕ}

theorem Advance.refl (h : Mirrors prop e r s) (hlen : r.len = 0) (hl : r.dicPos ≤ e.limit) :
    Advance prop e r r s.hist s 0 s.hist where
  pos := rfl
  le := hl
  owes := ⟨h.holds, h.fits, h.processed, h.state, h.reps, by rw [hlen]; rfl, fun h0 => by omega⟩
  length := rfl
  len_le := by omega
  full := fun h0 => by omega
  keeps := .refl _ _

/-- The next symbol of the loop, from a position where it is all there. -/
theorem decodeSymbol_step (hN : N ≤ size) (hprobs : lzmaPropsGetNumProbs prop.lc prop.lp = N)
    (he : e.For prop) (hs : s.Begun prop) (h : Mirrors prop e r s) (hlen : r.len = 0)
    (hsrc : e.src = src) (ht : Settles src size N r.rc s.coder ys)
    (hmore : (run (symbolProg (s.ctx prop)) s.coder ys).flush ≠ .more)
    (hl : r.dicPos ≤ e.limit) (hls : e.limit ≤ e.dicBufSize)
    (hroom : r.dicPos < e.limit ∨ ∀ sym d zs,
      (run (symbolProg (s.ctx prop)) s.coder ys).flush = .done sym d zs →
      ∃ dist len, sym = .simple dist len) :
    ∃ flow r', decodeSymbol e r = .ok (flow, r') ∧
      LoopEnd prop e src size N r s (fun s' zs => s.step prop ys = .next (.body s') zs)
        (fun s' zs => s' = s ∧ zs = ys) r' ∧ (flow = .body → r'.len < 274 ∧ r.dicPos < r'.dicPos) := by
  obtain ⟨c, rest, ht, hn⟩ := ht.tracks
  have hc : (s.ctx prop).Ok N := hprobs ▸ s.ctx_ok hs.state_lt
  have hfol := decodeSymbol_follows hN he hc hs.plain hs.reps h hsrc ht
  have hrun : run (symbolProg { s.ctx prop with canRep := true }) c rest =
      run (symbolProg (s.ctx prop)) s.coder ys := by
    rw [← hs.run_eq]
    exact RangeDecoder.run_bit_normalize ht.good hn
  unfold Follows at hfol
  rw [hrun] at hfol
  cases hr : run (symbolProg (s.ctx prop)) s.coder ys with
  | more => exact absurd (by rw [hr]; rfl) hmore
  | fail => exact absurd hr (hs.ne_fail ys)
  | done sym c' rest' =>
      rw [hr] at hfol hmore hroom
      obtain ⟨rc', ht', hE⟩ := hfol
      cases hn' : RangeDecoder.normalize c' rest' with
      | none => exact absurd (by simp only [Outcome.flush, hn']) hmore
      | some dz =>
          obtain ⟨d, zs⟩ := dz
          have hflush : (Outcome.done sym c' rest').flush = .done sym d zs := by
            simp only [Outcome.flush, hn']
          have hsettle : Settles src size N rc' d zs := ⟨c', rest', ht', hn'⟩
          have hlegal : sym.Legal :=
            RangeDecoder.run_returns (symbolProg_returns (s.ctx_ok hs.state_lt)) hr
          have hstep : s.step prop ys = (applySymbol prop s d sym).leaving zs := by
            simp only [RefState.step, hr, hflush]
          have hroom' : r.dicPos < e.limit ∨ ∃ dist len, sym = .simple dist len :=
            hroom.imp_right fun hsym => hsym sym d zs hflush
          have hadv := Advance.refl h hlen hl
          rw [hE]
          cases ha : applySymbol prop s d sym with
          | next s' =>
              obtain ⟨flow, r', n, w, h1, rfl, h3, h4, h5⟩ := finishSymbol_next he h hs.toBase hlen
                hl hls hlegal hroom' ha rc'
              have hnext : s.step prop ys = .next (.body s') zs := by rw [hstep, ha]; rfl
              obtain ⟨hbegun, hlt⟩ := RefState.step_begun hs.toOk hnext
              have hcoder : s'.coder = d := (applySymbol_next hlegal ha).1
              refine ⟨flow, r', h1, .running s' zs n w hnext hbegun
                (hcoder ▸ hsettle) h3 hlt, fun hf => ⟨?_, ?_⟩⟩
              · have := h3.len_le
                omega
              · have := h5 hf
                rw [h3.pos]
                omega
          | mark s' =>
              obtain ⟨dist, len, rfl⟩ := hs.stops_simple hr (d := d) (by simp [ha])
              obtain rfl : dist = 0xFFFFFFFF := by
                by_contra hne
                simp only [applySymbol, if_neg hne] at ha
                split at ha <;> cases ha
              exact ⟨.outer, _, rfl, .marked s ys zs d len 0 r ⟨rfl, rfl⟩ hs (hr ▸ hflush) hsettle
                hadv rfl, by simp⟩
          | reject =>
              obtain ⟨dist, len, rfl⟩ := hs.stops_simple hr (d := d) (by simp [ha])
              by_cases hmark : dist = 0xFFFFFFFF
              · subst hmark
                exact ⟨.outer, _, rfl, .marked s ys zs d len 0 r ⟨rfl, rfl⟩ hs (hr ▸ hflush)
                  hsettle hadv rfl, by simp⟩
              · have hfar : ¬ dist < s.reach prop := by
                  intro hlt
                  simp only [applySymbol, if_neg hmark, if_pos hlt] at ha
                  cases ha
                obtain ⟨st, reps, len', h1, h2⟩ := finishSymbol_far len h hmark hfar rc'
                exact ⟨.outer, _, h1, .rejected s ys zs _ d 0 r ⟨rfl, rfl⟩ hs
                  (hr ▸ hflush) (by rw [hstep, ha]; rfl) hsettle hadv rfl rfl rfl h2, by simp⟩

theorem Advance.written {r' : Regs} {h : List UInt8} {s' : RefState} {n : ℕ} {w : List UInt8}
    (h₁ : Advance prop e r r' h s' n w) (hlen : r'.len = 0) : w = s'.hist := by
  rw [h₁.owes.hist, hlen]
  rfl

theorem Advance.trans {r' r'' : Regs} {h : List UInt8} {s' s'' : RefState} {n n' : ℕ}
    {w w' : List UInt8} (h₁ : Advance prop e r r' h s' n w) (hlen : r'.len = 0)
    (h₂ : Advance prop e r' r'' s'.hist s'' n' w') : Advance prop e r r'' h s'' (n + n') w' where
  pos := by rw [h₂.pos, h₁.pos]; omega
  le := h₂.le
  owes := h₂.owes
  length := by rw [h₂.length, ← h₁.written hlen, h₁.length]; omega
  len_le := h₂.len_le
  full := h₂.full
  keeps := h₁.keeps.trans h₂.keeps (by rw [h₁.pos]; omega)

theorem LoopEnd.trans {r₁ r' : Regs} {s₁ : RefState} {n : ℕ} {w : List UInt8}
    {A B : RefState → List UInt8 → Prop} (ha : Advance prop e r r₁ s.hist s₁ n w)
    (hlen : r₁.len = 0) (hlt : s.hist.length < s₁.hist.length)
    (h : LoopEnd prop e src size N r₁ s₁ A B r') : LoopEnd prop e src size N r s A B r' := by
  cases h with
  | running s' ys' n' w' hm hb hset ha' hlt' =>
      exact .running s' ys' _ w' hm hb hset (ha.trans hlen ha') (hlt.trans hlt')
  | marked s' ys' zs d len n' r₂ hm hb hf hset ha' hr =>
      exact .marked s' ys' zs d len _ r₂ hm hb hf hset (ha.trans hlen ha') hr
  | rejected s' ys' zs sym d n' r₂ hm hb hf hrej hset ha' h1 h2 h3 h4 =>
      exact .rejected s' ys' zs sym d _ r₂ hm hb hf hrej hset (ha.trans hlen ha') h1 h2 h3 h4

theorem LoopEnd.mono {r' : Regs} {A A' B B' : RefState → List UInt8 → Prop}
    (h : LoopEnd prop e src size N r s A B r') (hA : ∀ s ys, A s ys → A' s ys)
    (hB : ∀ s ys, B s ys → B' s ys) : LoopEnd prop e src size N r s A' B' r' := by
  cases h with
  | running s' ys' n w hm => exact .running s' ys' n w (hA _ _ hm) ‹_› ‹_› ‹_› ‹_›
  | marked s' ys' zs d len n r₁ hm => exact .marked s' ys' zs d len n r₁ (hB _ _ hm) ‹_› ‹_› ‹_› ‹_› ‹_›
  | rejected s' ys' zs sym d n r₁ hm =>
      exact .rejected s' ys' zs sym d n r₁ (hB _ _ hm) ‹_› ‹_› ‹_› ‹_› ‹_› ‹_› ‹_› ‹_› ‹_›

theorem Settles.length {rc : Rc} {d : Coder ℕ} (h : Settles src size N rc d ys) :
    src.length ≤ rc.buf + ys.length + 1 := by
  obtain ⟨c, rest, ht, hn⟩ := h.tracks
  have h1 := congrArg List.length ht.drop
  rw [List.length_drop] at h1
  have h2 := ht.buf_le
  obtain ⟨-, -, rfl⟩ | ⟨-, x, rfl, -⟩ := RangeDecoder.normalize_cases hn
  · omega
  · rw [List.length_cons] at h1
    omega

/-- With nothing to read past its start the loop decodes exactly one symbol. -/
theorem decodeLoop_one {fuel : ℕ} (hbuf : e.bufLimit = 0) {r' : Regs} {flow : Flow}
    (h : decodeSymbol e r = .ok (flow, r')) : decodeLoop e (fuel + 1) r = .ok r' := by
  rw [decodeLoop, h, ok_bind]
  cases flow with
  | outer => rfl
  | body => simp [hbuf]

/-- A loop that goes on stands between two symbols. -/
theorem LoopEnd.goes_on {A B : RefState → List UInt8 → Prop} {r₁ : Regs}
    (h : LoopEnd prop e src size N r s A B r₁) (hmir : Mirrors prop e r s)
    (hlen : r₁.len < 274) (hgo : r₁.dicPos < e.limit)
    (hcheck : e.checkDicSize = 0 → s.hist.length + (e.limit - r.dicPos) ≤ prop.dictSize) :
    ∃ s₁ ys₁ n, A s₁ ys₁ ∧ s₁.Begun prop ∧ Settles src size N r₁.rc s₁.coder ys₁ ∧
      Advance prop e r r₁ s.hist s₁ n s₁.hist ∧ s.hist.length < s₁.hist.length ∧ r₁.len = 0 ∧
      Mirrors prop e r₁ s₁ := by
  have hspec := specLen
  cases h with
  | marked _ _ _ _ _ _ r₂ _ _ _ _ _ hr =>
      rw [hr] at hlen
      simp only at hlen
      omega
  | rejected _ _ _ _ _ _ _ _ _ _ _ _ _ _ _ _ hl512 => omega
  | running s₁ ys₁ n w hm hb hset ha hlt =>
      have hlen₁ : r₁.len = 0 := by
        by_contra hne
        have := ha.full (by omega)
        omega
      obtain rfl := ha.written hlen₁
      have hpos₁ := ha.pos
      have hlen₂ := ha.length
      refine ⟨s₁, ys₁, n, hm, hb, hset, ha, hlt, hlen₁, ha.owes.holds, ha.owes.fits,
        ha.owes.processed, ?_, ha.owes.state, ha.owes.reps⟩
      have hc := hmir.check
      unfold checkOf at hc ⊢
      split_ifs at hc ⊢ <;> omega

/-- The whole loop: by induction on the room left, one symbol at a time. -/
theorem decodeLoop_end (fuel : ℕ) (hN : N ≤ size)
    (hprobs : lzmaPropsGetNumProbs prop.lc prop.lp = N) (he : e.For prop) (hsrc : e.src = src)
    (hls : e.limit ≤ e.dicBufSize) (hmargin : e.bufLimit + 20 ≤ src.length)
    (hs : s.Begun prop) (h : Mirrors prop e r s) (hlen : r.len = 0)
    (ht : Settles src size N r.rc s.coder ys) (hlong : 20 ≤ ys.length) (hl : r.dicPos < e.limit)
    (hcheck : e.checkDicSize = 0 → s.hist.length + (e.limit - r.dicPos) ≤ prop.dictSize)
    (hfuel : e.limit - r.dicPos < fuel) :
    ∃ r', decodeLoop e fuel r = .ok r' ∧ LoopEnd prop e src size N r s
      (fun s' zs => Within prop (s.hist.length + (e.limit - r.dicPos)) (.body s) ys (.body s') zs)
      (fun s' zs => Within prop (s.hist.length + (e.limit - r.dicPos)) (.body s) ys (.body s') zs)
      r' := by
  induction fuel generalizing r s ys with
  | zero => omega
  | succ fuel ih =>
      obtain ⟨flow, r₁, h1, hone, hbody⟩ := decodeSymbol_step hN hprobs he hs h hlen hsrc ht
        (hs.not_more _ hlong) hl.le hls (.inl hl)
      obtain ⟨top, htop⟩ : ∃ top, top = s.hist.length + (e.limit - r.dicPos) := ⟨_, rfl⟩
      have hopen : Config.Open top (.body s) := .inl (by omega)
      rw [← htop]
      have hend : LoopEnd prop e src size N r s
          (fun s' zs => Within prop top (.body s) ys (.body s') zs)
          (fun s' zs => Within prop top (.body s) ys (.body s') zs) r₁ :=
        hone.mono (fun _ _ hn => .single hopen hn) (fun _ _ ⟨h1, h2⟩ => h1 ▸ h2 ▸ .refl _ _)
      rw [decodeLoop, h1, ok_bind]
      cases flow with
      | outer => exact ⟨r₁, rfl, hend⟩
      | body =>
          obtain ⟨hl274, hpos⟩ := hbody rfl
          by_cases hgo : r₁.dicPos < e.limit ∧ r₁.rc.buf < e.bufLimit
          · simp only [if_pos hgo]
            obtain ⟨s₁, ys₁, n, hm, hb, hset, ha, hlt, hlen₁, hmir⟩ :=
              hend.goes_on h hl274 hgo.1 hcheck
            have hpos₁ := ha.pos
            have hlen₂ := ha.length
            have hrest := hset.length
            have hle := ha.le
            have htop₁ : s₁.hist.length + (e.limit - r₁.dicPos) = top := by omega
            obtain ⟨r₂, h2, hend₂⟩ := ih hb hmir hlen₁ hset (by omega) hgo.1
              (fun h0 => by have := hcheck h0; omega) (by omega)
            rw [htop₁] at hend₂
            exact ⟨r₂, h2, (hend₂.mono (fun _ _ hm₂ => hm.trans hm₂)
              (fun _ _ hm₂ => hm.trans hm₂)).trans ha hlen₁ hlt⟩
          · simp only [if_neg hgo]
            exact ⟨r₁, rfl, hend⟩

end
end LzmaTurbo.Lzma
