import LzmaTurbo.Enc.LzmaEncTurns

/-!
# What the encoder writes decodes to its input

The decoder that reads the bytes stands where the encoder stood after every symbol, and the
flush leaves it a zero code and nothing unread.
-/
namespace LzmaTurbo.Enc
open Machine Lzma BitProgram Window
open RangeDecoder (Coder)
open ExactCoder (Op Path Exact value)

namespace LzmaEnc

section
variable {prop : LzmaProps} {src : List UInt8} {e : LzmaEnc} {s : RefState} {w : List UInt8}
  {x : Exact ℕ} {fails : ℕ → Bool}

theorem At.coded (h : e.At prop src s) (c : Coding) (cells : ModelSlot → ℕ) :
    (e.coded c cells).At prop src s :=
  ⟨h.litLen, h.lc, h.lpMask, h.pbMask, h.state, h.reps, h.pos_le, h.hist, h.base, h.clean⟩

/-- The encoder after a symbol stands where the reference decoder does. -/
theorem At.next (h : e.At prop src s) {s' : RefState} (sym : Symbol) (hl : sym.Legal)
    (happly : applySymbol prop s s.coder sym = .next s') (len : ℕ)
    (hle : e.nowPos + len ≤ src.length) (hhist : s'.hist = (src.take (e.nowPos + len)).reverse)
    (c : Coding) (cells : ModelSlot → ℕ) :
    LzmaEnc.At prop src (LzmaEnc.coded { e with
      state := s'.state, reps := s'.reps, nowPos := e.nowPos + len } c cells) s' := by
  obtain ⟨hcoder, -, -, hbase⟩ := applySymbol_next hl happly
  obtain ⟨hstate, hreps⟩ := hbase h.base
  exact ⟨h.litLen, h.lc, h.lpMask, h.pbMask, rfl, rfl, hle, hhist,
    ⟨fun slot => hcoder ▸ h.base.probs_ge slot, fun slot => hcoder ▸ h.base.probs_le slot, hstate,
      hreps⟩, h.clean⟩

/-- What a turn leaves: the symbol `sym` is spelled, and the decoder's state is `s'`. -/
structure Turned (fails : ℕ → Bool) (prop : LzmaProps) (src : List UInt8) (e : LzmaEnc)
    (s : RefState) (x : Exact ℕ) (e' : LzmaEnc) (s' : RefState) (os : List (Op ModelSlot))
    (sym : Symbol) : Prop where
  stands : e'.At prop src s'
  models : ∃ w', e'.Models fails w' (x.ops (os.map (Op.map place)))
  path : Path (·.InTable e.litLen) place (symbolProg (s.ctx prop)) os sym
  applies : applySymbol prop s s.coder sym = .next s'
  writeEndMark : e'.writeEndMark = e.writeEndMark

theorem take_snoc {i : ℕ} {b : UInt8} (h : src[i]? = some b) :
    b :: (src.take i).reverse = (src.take (i + 1)).reverse := by
  obtain ⟨hi, hget⟩ := List.getElem?_eq_some_iff.mp h
  rw [List.take_succ_eq_append_getElem hi, List.reverse_append, hget]
  rfl

/-- The turn of a symbol that writes the next `len` bytes of the window. -/
theorem At.turned (h : e.At prop src s) (c : Coding) (cells : ModelSlot → ℕ)
    {os : List (Op ModelSlot)} (sym : Symbol) {s' : RefState} (len : ℕ) {w' : List UInt8}
    (hl : sym.Legal) (happly : applySymbol prop s s.coder sym = .next s')
    (hle : e.nowPos + len ≤ src.length) (hhist : s'.hist = (src.take (e.nowPos + len)).reverse)
    (hm : (LzmaEnc.coded { e with state := s'.state, reps := s'.reps } c cells).Models fails w'
      (x.ops (os.map (Op.map place))))
    (hpath : Path (·.InTable e.litLen) place (symbolProg (s.ctx prop)) os sym) :
    Turned fails prop src e s x (LzmaEnc.coded { e with
      state := s'.state, reps := s'.reps, nowPos := e.nowPos + len } c cells) s' os sym :=
  ⟨h.next sym hl happly len hle hhist c cells, ⟨w', hm.moved s'.state s'.reps (e.nowPos + len)⟩,
    hpath, happly, rfl⟩

theorem codeDecision_lit (build : SlotBuild) (h : e.Models fails w x) (ha : e.At prop src s)
    (hpos : 0 < e.nowPos) (hlt : e.nowPos < src.length) {d : Decision} (hback : d.back = markLit)
    (hlen : d.len = 1) : ∃ e' s' os sym, e.codeDecision build src d = .ok e' ∧
      Turned fails prop src e s x e' s' os sym ∧ e'.nowPos = e.nowPos + 1 ∧ e'.reps = e.reps := by
  have hb : src[e.nowPos]? = some src[e.nowPos] := List.getElem?_eq_getElem hlt
  generalize src[e.nowPos] = b at hb
  obtain ⟨os, c, cells, w', hcode, hm, hpath⟩ := codeLit_spec h ha hpos hb
  obtain ⟨s', hs'⟩ : ∃ s' : RefState, s' =
    { s with coder := s.coder, state := litState s.state, hist := b :: s.hist } := ⟨_, rfl⟩
  have happly : applySymbol prop s s.coder (.lit b) = .next s' := by rw [hs']; rfl
  have hturned := ha.turned c cells (.lit b) 1 trivial happly hlt
    (by rw [hs', ← take_snoc hb, ha.hist]) (by rw [hs', ← ha.reps]; exact hm) hpath
  refine ⟨_, s', os, .lit b, ?_, hturned, rfl, ?_⟩
  · rw [codeDecision]
    simp only [hback, if_true, ha.posState, hcode, ok_bind, hlen]
    rw [hs', ha.reps]
  · rw [hs', ha.reps]

/-- The bit that says it is no literal comes first. -/
theorem codeDecision_match (build : SlotBuild) {d : Decision} (h : e.Models fails w x)
    (ha : e.At prop src s) (hback : d.back ≠ markLit) : ∃ c cells w₁,
      (e.coded c cells).Models fails w₁ (x.op ((Op.bit (.isMatch e.state (s.ctx prop).posState)
        true).map place)) ∧
      e.codeDecision build src d = (do
        let e' ←
          if d.back < lzmaNumReps then
            (e.coded c cells).codeRepMatch d.len d.back (s.ctx prop).posState
          else (e.coded c cells).codeMatch build d.len (d.back - lzmaNumReps) (s.ctx prop).posState
        .ok { e' with nowPos := e'.nowPos + d.len }) ∧
      ∀ os sym, Path (·.InTable e.litLen) place (matchProg (s.ctx prop)) os sym →
        Path (·.InTable e.litLen) place (symbolProg (s.ctx prop))
          (.bit (.isMatch e.state (s.ctx prop).posState) true :: os) sym := by
  have hin : ModelSlot.InTable e.litLen (.isMatch e.state (s.ctx prop).posState) :=
    ⟨ha.state_lt, ha.posState_lt⟩
  obtain ⟨c, cells, w₁, hop, h₁⟩ := h.known hin true
  refine ⟨c, cells, w₁, h₁, ?_, fun os sym hpath => .bit hin (by rw [ha.state]; rfl) hpath⟩
  rw [codeDecision]
  simp only [if_neg hback, ha.posState, hop, ok_bind]

theorem codeDecision_rep (build : SlotBuild) (h : e.Models fails w x) (ha : e.At prop src s)
    {d : Decision} (hback : d.back < lzmaNumReps)
    (hlen : d.len = 1 ∧ d.back = 0 ∨ lzmaMatchLenMin ≤ d.len ∧ d.len ≤ lzmaMatchLenMax)
    (hr : Repeats src e.nowPos (e.reps.nth d.back) d.len)
    (hdict : e.reps.nth d.back ≤ prop.dictSize) : ∃ e' s' os sym,
      e.codeDecision build src d = .ok e' ∧ Turned fails prop src e s x e' s' os sym ∧
      e'.nowPos = e.nowPos + d.len ∧ e'.reps = e.reps.front d.back := by
  have hpos : 0 < e.nowPos := lt_of_lt_of_le hr.dist_pos hr.dist_le
  have hne : d.back ≠ markLit := by
    have hlt : lzmaNumReps < markLit := by decide
    omega
  have hreach : s.reps.nth d.back ≤ s.reach prop := by
    rw [RefState.reach, ha.length, ← ha.reps]
    exact le_min hr.dist_le hdict
  have hcopy : copyBack (s.reps.nth d.back) d.len s.hist =
      (src.take (e.nowPos + d.len)).reverse := by
    rw [ha.hist, ← ha.reps, hr.copyBack]
  obtain ⟨c₁, cells₁, w₁, hm₁, hcode, hfirst⟩ := codeDecision_match build h ha hne
  have ha₁ := ha.coded c₁ cells₁
  rw [hcode]
  simp only [if_pos hback]
  rcases hlen with ⟨hone, hzero⟩ | ⟨h2, h273⟩
  · -- a single byte
    obtain ⟨os, c, cells, w', hrep, hm, hpath⟩ := codeRepMatch_short hm₁ ha₁ hpos
    rw [hone, hzero] at hcopy ⊢
    rw [hzero] at hreach
    obtain ⟨s', hs'⟩ : ∃ s' : RefState, s' = { s with
      coder := s.coder, state := shortRepState s.state
      hist := copyBack s.reps.rep0 1 s.hist } := ⟨_, rfl⟩
    have happly : applySymbol prop s s.coder .shortRep = .next s' := by
      rw [hs']
      exact if_pos hreach
    have hturned := ha.turned c cells .shortRep 1 trivial happly (hone ▸ hr.fits)
      (by rw [hs']; exact hcopy) (by rw [hs', ← ha.state, ← ha.reps]; exact hm)
      (hfirst os .shortRep hpath)
    refine ⟨_, s', _, .shortRep, ?_, hturned, rfl, ?_⟩
    · rw [hrep, ok_bind, hs', ha.state, ha.reps]
    · rw [hs', ha.reps]
      rfl
  · obtain ⟨os, c, cells, w', hrep, hm, hpath⟩ := codeRepMatch_long hm₁ ha₁ hpos hback h2 h273
    obtain ⟨s', hs'⟩ : ∃ s' : RefState, s' = { s with
      coder := s.coder, state := repState s.state, reps := s.reps.front d.back
      hist := copyBack (s.reps.nth d.back) d.len s.hist } := ⟨_, rfl⟩
    have happly : applySymbol prop s s.coder (.rep d.back d.len) = .next s' := by
      rw [hs']
      exact if_pos hreach
    have hturned := ha.turned c cells (.rep d.back d.len) d.len ⟨hback, h2, h273⟩
      happly hr.fits (by rw [hs']; exact hcopy)
      (by rw [hs', ← ha.state, ← ha.reps]; exact hm) (hfirst os (.rep d.back d.len) hpath)
    refine ⟨_, s', _, .rep d.back d.len, ?_, hturned, rfl, ?_⟩
    · rw [hrep, ok_bind, hs', ha.state, ha.reps]
    · rw [hs', ha.reps]

theorem codeDecision_simple (build : SlotBuild) (h : e.Models fails w x) (ha : e.At prop src s)
    {d : Decision} (hback : d.back ≠ markLit) (hback' : ¬ d.back < lzmaNumReps)
    (hlen : lzmaMatchLenMin ≤ d.len ∧ d.len ≤ lzmaMatchLenMax)
    (hr : Repeats src e.nowPos (d.back - lzmaNumReps + 1) d.len)
    (hdict : d.back - lzmaNumReps + 1 ≤ prop.dictSize) : ∃ e' s' os sym,
      e.codeDecision build src d = .ok e' ∧ Turned fails prop src e s x e' s' os sym ∧
      e'.nowPos = e.nowPos + d.len ∧
      e'.reps = ⟨d.back - lzmaNumReps + 1, e.reps.rep0, e.reps.rep1, e.reps.rep2⟩ := by
  have hdlt := prop.dict_lt
  obtain ⟨c₁, cells₁, w₁, hm₁, hcode, hfirst⟩ := codeDecision_match build h ha hback
  have ha₁ := ha.coded c₁ cells₁
  rw [hcode]
  simp only [if_neg hback']
  generalize d.back - lzmaNumReps = dist at hr hdict ⊢
  have hdist : dist + 1 < 2 ^ 32 := by omega
  obtain ⟨os, c, cells, w', hmatch, hm, hpath⟩ :=
    codeMatch_spec build hm₁ ha₁ hlen.1 hlen.2 hdist
  obtain ⟨s', hs'⟩ : ∃ s' : RefState, s' = { s with
    coder := s.coder, state := matchState s.state
    reps := ⟨dist + 1, s.reps.rep0, s.reps.rep1, s.reps.rep2⟩
    hist := copyBack (dist + 1) d.len s.hist } := ⟨_, rfl⟩
  have happly : applySymbol prop s s.coder (.simple dist d.len) = .next s' := by
    have hmark : ¬ dist = 0xFFFFFFFF := by omega
    have hreach : dist < s.reach prop := by
      rw [RefState.reach, ha.length]
      exact lt_min hr.dist_le hdict
    rw [hs', applySymbol, if_neg hmark, if_pos hreach]
  have hturned := ha.turned c cells (.simple dist d.len) d.len
    ⟨by omega, hlen.1, hlen.2⟩ happly hr.fits
    (by rw [hs']; show copyBack _ _ _ = _; rw [ha.hist, hr.copyBack])
    (by rw [hs', ← ha.state, ← ha.reps]; exact hm) (hfirst os (.simple dist d.len) hpath)
  refine ⟨_, s', _, .simple dist d.len, ?_, hturned, rfl, ?_⟩
  · rw [hmatch, ok_bind, hs', ha.state, ha.reps]
  · rw [hs', ha.reps]

/-- A codable decision is one symbol of the format, and the decoder that reads it has the bytes
of the window up to the next position. -/
theorem codeDecision_spec (build : SlotBuild) (h : e.Models fails w x) (ha : e.At prop src s)
    (hpos : 0 < e.nowPos) {d : Decision}
    (hd : d.Codable src prop.dictSize e.nowPos e.reps) : ∃ e' s' os sym,
      e.codeDecision build src d = .ok e' ∧ Turned fails prop src e s x e' s' os sym ∧
      e'.nowPos = e.nowPos + d.len ∧ e'.reps = d.nextReps e.reps := by
  unfold Decision.Codable at hd
  unfold Decision.nextReps
  split at hd
  · rename_i hback
    rw [if_pos hback, hd.1]
    exact codeDecision_lit build h ha hpos hd.2 hback hd.1
  · rename_i hback
    rw [if_neg hback]
    split at hd
    · rename_i hrep
      rw [if_pos hrep]
      exact codeDecision_rep build h ha hrep hd.1 hd.2.1 hd.2.2
    · rename_i hrep
      rw [if_neg hrep]
      exact codeDecision_simple build h ha hback hrep hd.1 hd.2.1 hd.2.2

end
end LzmaEnc
end LzmaTurbo.Enc
