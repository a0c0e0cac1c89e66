import LzmaTurbo.Lzma.LoopSymbol
import LzmaTurbo.Lzma.DecodeToDic

/-!
# What a symbol writes

The three byte loops of the source, the pointer copy, the wrapping copy and the
tail copy of a cut match, all extend the history in the dictionary by
`copyBack`. `Owes` is the state between symbols: the dictionary holds the
history but for the last bytes of a match cut by the output limit.
-/
namespace LzmaTurbo.Lzma
open Machine BitProgram Window
open RangeDecoder (Coder)

section
variable {dic : Array UInt8} {size dest k n : ℕ} {w : List UInt8}

theorem Holds.copy_step (h : Holds dic size dest w) (hd : dest < size) (hk : 1 ≤ k)
    (hw : k ≤ w.length) (hs : k ≤ size) :
    get dic (back size dest k) = .ok (w.getD (k - 1) 0) ∧
    put dic dest (w.getD (k - 1) 0) = .ok (dic.setIfInBounds dest (w.getD (k - 1) 0)) ∧
    Holds (dic.setIfInBounds dest (w.getD (k - 1) 0)) size (dest + 1) (w.getD (k - 1) 0 :: w) := by
  have hsize := h.size_le
  have hg := h.get (k := k - 1) (by omega) (by omega)
  rw [show k - 1 + 1 = k by omega] at hg
  exact ⟨get_ok hg, put_ok (by omega) _, h.push hd _⟩

/-- `src` may run off the end once nothing is left to copy. -/
theorem copyFlat_holds {src : ℕ} (h : Holds dic size dest w) (hk : 1 ≤ k) (hw : k ≤ w.length)
    (hs : k ≤ size) (hd : dest + n ≤ size) (hsrc : 0 < n → src = back size dest k)
    (hn : src + n ≤ size) :
    ∃ dic', copyFlat n dic dest src = .ok dic' ∧
      Holds dic' size (dest + n) (copyBack k n w) ∧ Keeps dic dic' dest := by
  induction n generalizing dic dest w src with
  | zero => exact ⟨dic, rfl, h, .refl _ _⟩
  | succ n ih =>
      obtain ⟨h1, h2, h3⟩ := Holds.copy_step h (by omega) hk hw hs
      obtain rfl := hsrc (by omega)
      have hnext : 0 < n → back size dest k + 1 = back size (dest + 1) k := by
        intro h0
        unfold back at hn ⊢
        split_ifs at hn ⊢ <;> omega
      obtain ⟨dic', h4, h5, h6⟩ := ih h3 (by simp; omega) (by omega) hnext (by omega)
      refine ⟨dic', ?_, by rw [show dest + (n + 1) = dest + 1 + n by omega]; exact h5,
        (Keeps.set dic le_rfl _).trans h6 (Nat.le_succ _)⟩
      rw [copyFlat, h1, ok_bind, h2, ok_bind]
      exact h4

theorem copyWrap_holds (h : Holds dic size dest w) (hk : 1 ≤ k) (hw : k ≤ w.length)
    (hs : k ≤ size) (hd : dest + n ≤ size) :
    ∃ dic', copyWrap size n dic dest (back size dest k) = .ok dic' ∧
      Holds dic' size (dest + n) (copyBack k n w) ∧ Keeps dic dic' dest := by
  induction n generalizing dic dest w with
  | zero => exact ⟨dic, rfl, h, .refl _ _⟩
  | succ n ih =>
      obtain ⟨h1, h2, h3⟩ := Holds.copy_step h (by omega) hk hw hs
      have hnext : (if back size dest k + 1 = size then 0 else back size dest k + 1) =
          back size (dest + 1) k := by
        unfold back
        split_ifs <;> omega
      obtain ⟨dic', h4, h5, h6⟩ := ih h3 (by simp; omega) (by omega)
      refine ⟨dic', ?_, by rw [show dest + (n + 1) = dest + 1 + n by omega]; exact h5,
        (Keeps.set dic le_rfl _).trans h6 (Nat.le_succ _)⟩
      rw [copyWrap, h1, ok_bind, h2, ok_bind, hnext]
      exact h4

theorem copyRem_holds (h : Holds dic size dest w) (hk : 1 ≤ k) (hw : k ≤ w.length)
    (hs : k ≤ size) (hd : dest + n ≤ size) (hlt : size < 2 ^ 63) :
    ∃ dic', copyRem size k n dic dest = .ok dic' ∧
      Holds dic' size (dest + n) (copyBack k n w) ∧ Keeps dic dic' dest := by
  induction n generalizing dic dest w with
  | zero => exact ⟨dic, rfl, h, .refl _ _⟩
  | succ n ih =>
      obtain ⟨h1, h2, h3⟩ := Holds.copy_step h (by omega) hk hw hs
      obtain ⟨dic', h4, h5, h6⟩ := ih h3 (by simp; omega) (by omega)
      refine ⟨dic', ?_, by rw [show dest + (n + 1) = dest + 1 + n by omega]; exact h5,
        (Keeps.set dic le_rfl _).trans h6 (Nat.le_succ _)⟩
      rw [copyRem, dicIndex_eq hlt h.pos_le hs, h1, ok_bind, h2, ok_bind]
      exact h4

end

theorem bind_ite {α β : Type} (c : Prop) [Decidable c] (x y : Except Fault α)
    (f : α → Except Fault β) :
    (if c then x else y) >>= f = if c then x >>= f else y >>= f := by
  split <;> rfl

/-- The dictionary holds `w`; the reference is `r.len` bytes of a match ahead. -/
structure Owes (prop : LzmaProps) (size : ℕ) (r : Regs) (s : RefState) (w : List UInt8) :
    Prop where
  holds : Holds r.dic size r.dicPos w
  fits : Fits prop size r.dicPos w.length
  processed : r.processedPos = w.length % 2 ^ 32
  state : r.state = s.state
  reps : r.reps = s.reps
  hist : s.hist = copyBack r.reps.rep0 r.len w
  reach : 0 < r.len → 1 ≤ r.reps.rep0 ∧ r.reps.rep0 ≤ w.length ∧ r.reps.rep0 ≤ prop.dictSize

section
variable {prop : LzmaProps} {e : Env} {r : Regs} {s : RefState}

theorem Fits.add {size pos len : ℕ} (h : Fits prop size pos len) (n : ℕ) :
    Fits prop size (pos + n) (len + n) := by
  unfold Fits at h ⊢
  omega

theorem wrappingAdd32_mod (a b : ℕ) : wrappingAdd32 (a % 2 ^ 32) b = (a + b) % 2 ^ 32 := by
  unfold wrappingAdd32
  omega

/-- A match whose distance is in reach, cut at the limit. -/
theorem copyMatch_owes (he : e.For prop) (h : Holds r.dic e.dicBufSize r.dicPos s.hist)
    (hf : Fits prop e.dicBufSize r.dicPos s.hist.length)
    (hp : r.processedPos = s.hist.length % 2 ^ 32) {k : ℕ} (hk : r.reps.rep0 = k) (h1 : 1 ≤ k)
    (hw : k ≤ s.hist.length) (hd : k ≤ prop.dictSize) (hl : r.dicPos ≤ e.limit)
    (hls : e.limit ≤ e.dicBufSize) (s' : RefState) (hst : r.state = s'.state)
    (hr : r.reps = s'.reps) (hh : s'.hist = copyBack k (r.len + 2) s.hist) :
    ∃ flow r' n, copyMatch e r = .ok (flow, r') ∧ r'.rc = r.rc ∧
      r'.dicPos = r.dicPos + n ∧ r'.dicPos ≤ e.limit ∧
      Owes prop e.dicBufSize r' s' (copyBack k n s.hist) ∧ r'.len + n = r.len + 2 ∧
      (flow = .outer ∨ 0 < r'.len → r'.dicPos = e.limit) ∧ (flow = .body → 0 < n) ∧
      Keeps r.dic r'.dic r.dicPos := by
  unfold copyMatch
  rw [sub_ok hl, ok_bind, show kMatchMinLen = 2 from rfl]
  by_cases hrem : e.limit - r.dicPos = 0
  · refine ⟨.outer, { r with len := r.len + 2 }, 0, by rw [if_pos hrem], rfl, rfl, hl, ?_, rfl,
      fun _ => by show r.dicPos = e.limit; omega, by simp, .refl _ _⟩
    exact ⟨h, hf, hp, hst, hr, by rw [hh, ← hk]; rfl, fun _ => by
      change 1 ≤ r.reps.rep0 ∧ r.reps.rep0 ≤ s.hist.length ∧ r.reps.rep0 ≤ prop.dictSize
      omega⟩
  · rw [if_neg hrem]
    have hks := hf.back_le h.pos_le hw hd
    set n := if e.limit - r.dicPos < r.len + 2 then e.limit - r.dicPos else r.len + 2 with hn
    have hnle : n ≤ r.len + 2 ∧ n ≤ e.limit - r.dicPos ∧ 0 < n ∧
        (n = r.len + 2 ∨ n = e.limit - r.dicPos) := by
      rw [hn]
      split <;> omega
    have hb : back e.dicBufSize r.dicPos k < e.dicBufSize := by
      have hpos := h.pos_le
      unfold back
      split <;> omega
    have hcopy : ∃ dic', (if n ≤ e.dicBufSize - back e.dicBufSize r.dicPos k then
          copyFlat n r.dic r.dicPos (back e.dicBufSize r.dicPos k)
        else copyWrap e.dicBufSize n r.dic r.dicPos (back e.dicBufSize r.dicPos k)) = .ok dic' ∧
        Holds dic' e.dicBufSize (r.dicPos + n) (copyBack k n s.hist) ∧
        Keeps r.dic dic' r.dicPos := by
      by_cases hc : n ≤ e.dicBufSize - back e.dicBufSize r.dicPos k
      · rw [if_pos hc]
        exact copyFlat_holds h h1 hw hks (by omega) (fun _ => rfl) (by omega)
      · rw [if_neg hc]
        exact copyWrap_holds h h1 hw hks (by omega)
    obtain ⟨dic', hc1, hc2, hc3⟩ := hcopy
    simp only [hk, dicIndex_eq he.size_lt h.pos_le hks, sub_ok hnle.1, sub_ok hb.le, ok_bind]
    rw [← bind_ite, hc1, ok_bind]
    refine ⟨.body, _, n, rfl, rfl, rfl, by show r.dicPos + n ≤ e.limit; omega, ?_, ?_, ?_,
      fun _ => hnle.2.2.1, hc3⟩
    · refine ⟨hc2, ?_, ?_, hst, hr, ?_, fun _ => ?_⟩
      · rw [length_copyBack]
        exact hf.add n
      · rw [length_copyBack, hp]
        exact wrappingAdd32_mod _ _
      · change s'.hist = copyBack r.reps.rep0 (r.len + 2 - n) (copyBack k n s.hist)
        rw [hh, hk, ← copyBack_add, Nat.add_sub_cancel' hnle.1]
      · change 1 ≤ r.reps.rep0 ∧ r.reps.rep0 ≤ _ ∧ r.reps.rep0 ≤ prop.dictSize
        rw [length_copyBack]
        omega
    · change r.len + 2 - n + n = r.len + 2
      omega
    · intro hor
      change r.dicPos + n = e.limit
      rcases hor with hor | hor
      · cases hor
      · have : 0 < r.len + 2 - n := hor
        omega

/-- The loop's locals `r'` after `n` more bytes than `r`: `w` is written of a
history that was `h` and is now that of `s'`. -/
structure Advance (prop : LzmaProps) (e : Env) (r r' : Regs) (h : List UInt8) (s' : RefState)
    (n : ℕ) (w : List UInt8) : Prop where
  pos : r'.dicPos = r.dicPos + n
  le : r'.dicPos ≤ e.limit
  owes : Owes prop e.dicBufSize r' s' w
  length : w.length = h.length + n
  len_le : r'.len ≤ 273
  full : 0 < r'.len → r'.dicPos = e.limit
  keeps : Keeps r.dic r'.dic r.dicPos

/-- A literal or a short repeat writes one byte. -/
theorem push_advance (h : Mirrors prop e r s) (hlen : r.len = 0)
    (hl : r.dicPos < e.limit) (hls : e.limit ≤ e.dicBufSize) (s' : RefState) {b : UInt8}
    (hh : s'.hist = b :: s.hist) (hr : s'.reps = s.reps) (st : ℕ) (hst : st = s'.state) (rc : Rc) :
    put r.dic r.dicPos b = .ok (r.dic.setIfInBounds r.dicPos b) ∧
    Advance prop e r { r with
      rc, state := st, dic := r.dic.setIfInBounds r.dicPos b, dicPos := r.dicPos + 1
      processedPos := wrappingAdd32 r.processedPos 1 } s.hist s' 1 (b :: s.hist) := by
  have hsize := h.holds.size_le
  refine ⟨put_ok (by omega) b, ⟨rfl, hl, ⟨h.holds.push (by omega) b, ?_, ?_, hst, ?_, ?_, ?_⟩, ?_,
    ?_, ?_, .set r.dic le_rfl b⟩⟩
  · rw [List.length_cons]
    exact h.fits.add 1
  · rw [List.length_cons, h.processed]
    exact wrappingAdd32_mod _ _
  · rw [hr]
    exact h.reps
  · change s'.hist = copyBack r.reps.rep0 r.len _
    rw [hh, hlen]
    rfl
  · intro h0
    exact absurd hlen (by have : 0 < r.len := h0; omega)
  · rw [List.length_cons]
  · change r.len ≤ 273
    omega
  · intro h0
    exact absurd hlen (by have : 0 < r.len := h0; omega)

theorem finishSymbol_next (he : e.For prop) (h : Mirrors prop e r s) (hb : s.Base prop)
    (hlen : r.len = 0) (hl : r.dicPos ≤ e.limit) (hls : e.limit ≤ e.dicBufSize) {sym : Symbol}
    (hlegal : sym.Legal) (hroom : r.dicPos < e.limit ∨ ∃ d l, sym = .simple d l) {c : Coder ℕ}
    {s' : RefState} (ha : applySymbol prop s c sym = .next s') (rc : Rc) :
    ∃ flow r' n w, finishSymbol e r sym rc = .ok (flow, r') ∧ r'.rc = rc ∧
      Advance prop e r r' s.hist s' n w ∧ (flow = .outer → r'.dicPos = e.limit) ∧
      (flow = .body → 0 < n) := by
  cases sym with
  | lit b =>
      simp only [applySymbol, Effect.next.injEq] at ha
      subst ha
      obtain ⟨hput, hadv⟩ := push_advance h hlen (hroom.resolve_right (by simp)) hls
        { s with coder := c, state := litState s.state, hist := b :: s.hist } rfl rfl
        (litState r.state) (by rw [h.state]) rc
      refine ⟨.body, _, 1, _, ?_, rfl, hadv, by simp, by simp⟩
      rw [finishSymbol, hput, ok_bind]
  | shortRep =>
      simp only [applySymbol] at ha
      split at ha
      · rename_i hreach
        simp only [Effect.next.injEq] at ha
        subst ha
        have hr0 := hb.reps 0
        simp only [RefState.reach, le_min_iff, Reps.nth] at hreach hr0
        have hget := h.get_back he (k := s.reps.rep0 - 1) (by omega) (by omega)
        rw [show s.reps.rep0 - 1 + 1 = s.reps.rep0 by omega] at hget
        obtain ⟨hput, hadv⟩ := push_advance h hlen (hroom.resolve_right (by simp)) hls
          { s with coder := c, state := shortRepState s.state,
                   hist := copyBack s.reps.rep0 1 s.hist }
          (b := s.hist.getD (s.reps.rep0 - 1) 0) rfl rfl (shortRepState r.state) (by rw [h.state]) rc
        refine ⟨.body, _, 1, _, ?_, rfl, hadv, by simp, by simp⟩
        rw [finishSymbol, decodeShortRep, h.reps, hget, ok_bind, hput, ok_bind]
        rfl
      · cases ha
  | rep index len =>
      simp only [applySymbol] at ha
      split at ha
      · rename_i hreach
        simp only [Effect.next.injEq] at ha
        subst ha
        have hr0 := hb.reps index
        have hf0 : ∀ r : Reps, (r.front index).rep0 = r.nth index := by
          intro r
          rcases index with _ | _ | _ | _
          all_goals rfl
        simp only [RefState.reach, le_min_iff] at hreach
        obtain ⟨-, h2, h273⟩ := hlegal
        obtain ⟨flow, r', n, h1, h3, h4, h5, h6, h7, h8, h9, h10⟩ := copyMatch_owes
          (r := { r with rc, reps := r.reps.front index, state := repState r.state,
                         len := len - 2 }) he h.holds h.fits h.processed
          (k := s.reps.nth index) (by rw [h.reps]; exact hf0 _) hr0.1 hreach.1 hreach.2 hl hls
          { s with coder := c, state := repState s.state, reps := s.reps.front index,
                   hist := copyBack (s.reps.nth index) len s.hist }
          (by rw [h.state]) (by rw [h.reps])
          (by show _ = copyBack _ (len - 2 + 2) _; rw [Nat.sub_add_cancel h2])
        have hlen' : r'.len + n = len - 2 + 2 := h7
        exact ⟨flow, r', n, _, h1, h3, ⟨h4, h5, h6, length_copyBack _ _ _, by omega,
          fun h0 => h8 (.inr h0), h10⟩, fun h0 => h8 (.inl h0), h9⟩
      · cases ha
  | simple dist len =>
      simp only [applySymbol] at ha
      split at ha
      · split at ha <;> cases ha
      · rename_i hmark
        split at ha
        · rename_i hreach
          simp only [Effect.next.injEq] at ha
          subst ha
          simp only [RefState.reach, lt_min_iff] at hreach
          obtain ⟨hdist, h2, h273⟩ := hlegal
          have hdlt := prop.dict_lt
          have hadd : wrappingAdd32 dist 1 = dist + 1 := by
            unfold wrappingAdd32
            omega
          obtain ⟨flow, r', n, h1, h3, h4, h5, h6, h7, h8, h9, h10⟩ := copyMatch_owes
            (r := { r with rc, state := matchState r.state
                           reps := ⟨wrappingAdd32 dist 1, r.reps.rep0, r.reps.rep1, r.reps.rep2⟩
                           len := len - 2 }) he h.holds h.fits h.processed
            (k := dist + 1) hadd (by omega) hreach.1 hreach.2 hl hls
            { s with coder := c, state := matchState s.state
                     reps := ⟨dist + 1, s.reps.rep0, s.reps.rep1, s.reps.rep2⟩
                     hist := copyBack (dist + 1) len s.hist }
            (by rw [h.state]) (by rw [h.reps, hadd])
            (by show _ = copyBack _ (len - 2 + 2) _; rw [Nat.sub_add_cancel h2])
          have hlen' : r'.len + n = len - 2 + 2 := h7
          refine ⟨flow, r', n, _, ?_, h3, ⟨h4, h5, h6, length_copyBack _ _ _, by omega,
            fun h0 => h8 (.inr h0), h10⟩, fun h0 => h8 (.inl h0), h9⟩
          have hnot : ¬ (if e.checkDicSize = 0 then r.processedPos else e.checkDicSize) ≤ dist := by
            rw [h.check, h.processed]
            unfold checkOf
            split_ifs <;> omega
          simp only [finishSymbol, if_neg hmark, if_neg hnot]
          exact h1
        · cases ha

/-- A distance out of reach stops the loop with a length that is an error. -/
theorem finishSymbol_far {dist : ℕ} (len : ℕ) (h : Mirrors prop e r s) (hmark : dist ≠ 0xFFFFFFFF)
    (hfar : ¬ dist < s.reach prop) (rc : Rc) :
    ∃ st reps len', finishSymbol e r (.simple dist len) rc =
      .ok (.outer, { r with rc, state := st, reps, len := len' }) ∧
      kMatchSpecLenErrorData ≤ len' := by
  have hspec := specLen
  have hdlt := prop.dict_lt
  have hdge := prop.dict_ge
  have hmin : (1 : ℕ) ≤ lzmaDicMin := by decide
  have hle : (if e.checkDicSize = 0 then r.processedPos else e.checkDicSize) ≤ dist := by
    rw [h.check, h.processed]
    simp only [RefState.reach, lt_min_iff] at hfar
    unfold checkOf
    split_ifs <;> omega
  simp only [finishSymbol, if_neg hmark, if_pos hle]
  exact ⟨_, _, _, rfl, by omega⟩

end
end LzmaTurbo.Lzma
