import LzmaTurbo.Lzma.Loop

/-!
# What a decoder stands for between calls

`Core` relates a decoder to a reference state between two symbols; the two calls
that move it, the tail copy and the fast loop, are specified here once.
-/
namespace LzmaTurbo.Lzma
open Machine BitProgram Window
open RangeDecoder (Coder run)

def LzmaDec.regs (p : LzmaDec) : Regs := { regsOf p with len := p.remainLen }

/-- The sizes no call changes, and that every index relies on. -/
structure LzmaDec.Shape (p : LzmaDec) : Prop where
  pos_le : p.dicPos ≤ p.dicBufSize
  size_le : p.dicBufSize ≤ p.dic.size
  size_lt : p.dicBufSize < 2 ^ 63
  probs : lzmaPropsGetNumProbs p.prop.lc p.prop.lp ≤ p.probs.size
  tempBuf_size : p.tempBuf.size = lzmaRequiredInputMax

/-- The dictionary holds the history `w`, and both position counters agree. -/
structure LzmaDec.Window (p : LzmaDec) (w : List UInt8) : Prop where
  holds : Holds p.dic p.dicBufSize p.dicPos w
  fits : Fits p.prop p.dicBufSize p.dicPos w.length
  processed : p.processedPos = w.length % 2 ^ 32
  check : p.checkDicSize = checkOf p.prop w.length

/-- Between two symbols: `s` is the reference's state, of which `w` is written. -/
structure LzmaDec.Core (p : LzmaDec) (s : RefState) (w : List UInt8) : Prop
    extends p.Shape, p.Window w where
  owes : Owes p.prop p.dicBufSize p.regs s w
  remain_le : p.remainLen ≤ 273
  range : p.range = s.coder.range
  code : p.code = s.coder.code
  table : ∀ i < lzmaPropsGetNumProbs p.prop.lc p.prop.lp, p.probs[i]? = some (s.coder.probs i)
  begun : s.Begun p.prop

section
variable {p : LzmaDec} {s : RefState} {w : List UInt8}

theorem LzmaDec.Core.written (h : p.Core s w) (hr : p.remainLen = 0) : w = s.hist := by
  rw [h.owes.hist, show p.regs.len = 0 from hr]
  rfl

theorem checkOf_add {prop : LzmaProps} {len n : ℕ} (hn : n < 2 ^ 32)
    (h : len < prop.dictSize) : prop.dictSize - len % 2 ^ 32 ≤ n ↔ ¬ len + n < prop.dictSize := by
  have hd := prop.dict_lt
  omega

theorem LzmaDec.Window.checkDicSizeAfter (h : p.Window w) {n : ℕ} (hn : n < 2 ^ 32) :
    p.checkDicSizeAfter n = .ok (checkOf p.prop (w.length + n)) := by
  have hdlt := p.prop.dict_lt
  unfold LzmaDec.checkDicSizeAfter
  rw [h.check, h.processed]
  by_cases hw : w.length < p.prop.dictSize
  · rw [if_pos (checkOf_zero.mpr hw), sub_ok (by omega), ok_bind]
    simp only [checkOf_add hn hw]
    unfold checkOf
    split_ifs
    · rfl
    · rfl
  · rw [if_neg (checkOf_zero.not.mpr hw)]
    unfold checkOf
    rw [if_neg hw, if_neg (by omega)]

/-- The tail copy: as much of the owed match as the limit allows. -/
theorem lzmaDecWriteRem_core (h : p.Core s w) {limit : ℕ} (hl : p.dicPos ≤ limit)
    (hls : limit ≤ p.dicBufSize) : ∃ p' n, lzmaDecWriteRem p limit = .ok p' ∧
      p'.Core s (copyBack p.reps.rep0 n w) ∧ p'.dicPos = p.dicPos + n ∧ p'.dicPos ≤ limit ∧
      (p'.remainLen = 0 ∨ p'.dicPos = limit) ∧ p'.prop = p.prop ∧
      p'.dicBufSize = p.dicBufSize ∧ p'.tempBuf = p.tempBuf ∧ p'.tempBufSize = p.tempBufSize ∧
      p'.probs = p.probs ∧ Keeps p.dic p'.dic p.dicPos ∧
      (p.remainLen = 0 ∨ p.dicPos < p'.dicPos ∨ p.dicPos = limit) := by
  unfold lzmaDecWriteRem
  by_cases h0 : p.remainLen = 0
  · exact ⟨p, 0, by rw [if_pos h0], h, rfl, hl, .inl h0, rfl, rfl, rfl, rfl, rfl,
      .refl _ _, .inl h0⟩
  · rw [if_neg h0, sub_ok hl, ok_bind]
    have hrem := h.remain_le
    set n := if limit - p.dicPos < p.remainLen then u32 (limit - p.dicPos) else p.remainLen with hn
    have hnle : n ≤ p.remainLen ∧ n ≤ limit - p.dicPos ∧
        (n = p.remainLen ∨ n = limit - p.dicPos) := by
      rw [hn]
      unfold u32
      split <;> omega
    by_cases hz : n = 0
    · exact ⟨p, 0, by rw [if_pos hz], h, rfl, hl, by omega, rfl, rfl, rfl, rfl, rfl,
        .refl _ _, by omega⟩
    · rw [if_neg hz]
      obtain ⟨hk, hkw, hkd⟩ := h.owes.reach (Nat.pos_of_ne_zero h0)
      have hks := h.fits.back_le h.holds.pos_le hkw hkd
      obtain ⟨dic', hc1, hc2, hc3⟩ := copyRem_holds (n := n) h.holds hk hkw hks (by omega) h.size_lt
      have hcheck := h.toWindow.checkDicSizeAfter (show n < 2 ^ 32 by omega)
      have hrep : p.regs.reps.rep0 = p.reps.rep0 := rfl
      rw [hrep] at hk hkw hkd hks hc1 hc2
      simp only [hcheck, ok_bind, sub_ok hnle.1, hc1]
      refine ⟨_, n, rfl, ?_, rfl, by show p.dicPos + n ≤ limit; omega, by
        change p.remainLen - n = 0 ∨ p.dicPos + n = limit; omega, rfl, rfl, rfl, rfl, rfl, hc3,
        .inr (.inl (by show p.dicPos < p.dicPos + n; omega))⟩
      refine ⟨⟨by show p.dicPos + n ≤ p.dicBufSize; omega, hc3.size ▸ h.size_le, h.size_lt, h.probs,
        h.tempBuf_size⟩, ⟨hc2, ?_, ?_, by rw [length_copyBack]⟩, ?_, ?_, h.range, h.code, h.table, h.begun⟩
      · rw [length_copyBack]
        exact h.fits.add n
      · rw [length_copyBack, h.processed]
        exact wrappingAdd32_mod _ _
      · refine ⟨hc2, ?_, ?_, h.owes.state, h.owes.reps, ?_, fun _ => ?_⟩
        · rw [length_copyBack]
          exact h.fits.add n
        · rw [length_copyBack, h.processed]
          exact wrappingAdd32_mod _ _
        · change s.hist = copyBack p.reps.rep0 (p.remainLen - n) (copyBack p.reps.rep0 n w)
          rw [← copyBack_add, Nat.add_sub_cancel' hnle.1]
          exact h.owes.hist
        · change 1 ≤ p.reps.rep0 ∧ p.reps.rep0 ≤ _ ∧ p.reps.rep0 ≤ p.prop.dictSize
          rw [length_copyBack]
          omega
      · change p.remainLen - n ≤ 273
        omega

theorem LzmaDec.Window.clampLimit (h : p.Window w) {limit : ℕ} (hl : p.dicPos ≤ limit) :
    ∃ l, p.clampLimit limit = .ok l ∧ p.dicPos ≤ l ∧ l ≤ limit ∧
      (l = p.dicPos → limit = p.dicPos) ∧
      (p.checkDicSize = 0 → w.length + (l - p.dicPos) ≤ p.prop.dictSize) := by
  have hdlt := p.prop.dict_lt
  unfold LzmaDec.clampLimit
  rw [h.check, h.processed]
  by_cases hw : w.length < p.prop.dictSize
  · rw [if_pos (checkOf_zero.mpr hw), sub_ok (by omega), ok_bind, sub_ok hl, ok_bind]
    refine ⟨_, rfl, ?_⟩
    split <;> omega
  · rw [if_neg (checkOf_zero.not.mpr hw)]
    exact ⟨limit, rfl, hl, le_rfl, fun h => h, fun h0 => absurd h0 (checkOf_zero.not.mpr hw)⟩

theorem Settles.normalize {src : List UInt8} {size N : ℕ} {rc : Rc} {d : Coder ℕ}
    {ys : List UInt8} (h : Settles src size N rc d ys) :
    ∃ rc', Lzma.normalize src rc = .ok rc' ∧ Tracks src size N rc' d ys := by
  obtain ⟨c, rest, ht, hn⟩ := h.tracks
  obtain ⟨h1, -⟩ | ⟨d', ys', rc', h1, h2, h3, -⟩ := normalize_tracks ht
  · rw [h1] at hn
    cases hn
  · rw [h1] at hn
    obtain ⟨rfl, rfl⟩ : d' = d ∧ ys' = ys := by simpa using hn
    exact ⟨rc', h2, h3⟩

/-- Right after an end marker, before its code is looked at. -/
structure LzmaDec.Marked (p : LzmaDec) (s : RefState) (d : Coder ℕ) : Prop
    extends p.Shape, p.Window s.hist where
  remain : p.remainLen = kMatchSpecLenStart
  code : p.code = d.code

/-- As many bytes are written as the position has moved. -/
def Grown (p : LzmaDec) (w : List UInt8) (q : LzmaDec) (w' : List UInt8) : Prop :=
  w'.length + p.dicPos = w.length + q.dicPos

/-- What the fast loop leaves of a decoder that had written `w`, `rest` being unread;
`A` and `B` are as in `LoopEnd`. -/
inductive RealEnd (p : LzmaDec) (w : List UInt8) (A B : RefState → List UInt8 → Prop) (limit : ℕ)
    (rest : List UInt8) (res : RealResult) : Prop
  | running (s' : RefState) (w' : List UInt8) : A s' rest → res.ok = true →
      res.p.Core s' w' → Grown p w res.p w' → (p.dicPos < res.p.dicPos ∨
        (res.p.dicPos = limit ∧ res.p.remainLen ≠ 0)) → RealEnd p w A B limit rest res
  | marked (s' : RefState) (ys : List UInt8) (d : Coder ℕ) (len : ℕ) : B s' ys →
      s'.Begun p.prop → (run (symbolProg (s'.ctx p.prop)) s'.coder ys).flush =
        .done (.simple 0xFFFFFFFF len) d rest → res.ok = true →
      res.p.Marked s' d → Grown p w res.p s'.hist → RealEnd p w A B limit rest res
  | rejected (s' : RefState) (ys : List UInt8) (sym : Symbol) (d : Coder ℕ) : B s' ys →
      s'.Begun p.prop → (run (symbolProg (s'.ctx p.prop)) s'.coder ys).flush =
        .done sym d rest → s'.step p.prop ys = .reject → res.ok = false →
      res.p.Shape → res.p.Window s'.hist → Grown p w res.p s'.hist →
      RealEnd p w A B limit rest res

/-- The fields the loop does not touch, and the bounds on the others. -/
structure RealFrame (p : LzmaDec) (limit : ℕ) (src : List UInt8) (res : RealResult) : Prop where
  prop : res.p.prop = p.prop
  dicBufSize : res.p.dicBufSize = p.dicBufSize
  tempBuf : res.p.tempBuf = p.tempBuf
  tempBufSize : res.p.tempBufSize = p.tempBufSize
  probs : res.p.probs.size = p.probs.size
  buf_le : res.buf ≤ src.length
  pos_ge : p.dicPos ≤ res.p.dicPos
  pos_le : res.p.dicPos ≤ limit
  keeps : Keeps p.dic res.p.dic p.dicPos

theorem envOf_for (p : LzmaDec) (h : p.dicBufSize < 2 ^ 63) (limit : ℕ) (src : List UInt8)
    (bufLimit : ℕ) : (envOf p limit src bufLimit).For p.prop := ⟨rfl, rfl, rfl, h⟩

theorem LzmaDec.Core.mirrors (h : p.Core s w) (hr : p.remainLen = 0) (limit : ℕ)
    (src : List UInt8) (bufLimit : ℕ) :
    Mirrors p.prop (envOf p limit src bufLimit) (regsOf p) s := by
  obtain rfl := h.written hr
  exact ⟨h.holds, h.fits, h.processed, h.check, h.owes.state, h.owes.reps⟩

theorem LzmaDec.Core.settles (h : p.Core s w) (src : List UInt8) :
    Settles src p.probs.size (lzmaPropsGetNumProbs p.prop.lc p.prop.lp) (regsOf p).rc s.coder
      src :=
  ⟨s.coder, src, ⟨h.range, h.code, h.table, rfl, rfl, Nat.zero_le _, h.begun.good⟩,
    RangeDecoder.normalize_of_le h.begun.norm src⟩

/-- `check_dic_size` follows the history, because the loop was stopped in time. -/
theorem checkOf_advance {prop : LzmaProps} {len n : ℕ}
    (h : checkOf prop len = 0 → len + n ≤ prop.dictSize) :
    (if checkOf prop len = 0 ∧ prop.dictSize ≤ (len + n) % 2 ^ 32 then prop.dictSize
      else checkOf prop len) = checkOf prop (len + n) := by
  have hdlt := prop.dict_lt
  by_cases hw : len < prop.dictSize
  · have hz := checkOf_zero.mpr hw
    have hle := h hz
    rw [hz]
    unfold checkOf
    split_ifs <;> omega
  · rw [if_neg (fun hc => hw (checkOf_zero.mp hc.1))]
    unfold checkOf
    rw [if_neg hw, if_neg (by omega)]

/-- A decoder that took over the loop's locals keeps its shape and its window. -/
theorem Advance.window {q : LzmaDec} {l bufLimit n : ℕ} {src h w' : List UInt8} {r₁ : Regs}
    {s' : RefState} (hp : p.Shape)
    (hadv : Advance p.prop (envOf p l src bufLimit) (regsOf p) r₁ h s' n w')
    (hl : l ≤ p.dicBufSize) (hdic : q.dic = r₁.dic) (hpos : q.dicPos = r₁.dicPos)
    (hproc : q.processedPos = r₁.processedPos) (hsize : q.dicBufSize = p.dicBufSize)
    (hprop : q.prop = p.prop) (htemp : q.tempBuf = p.tempBuf)
    (hprobs : q.probs.size = p.probs.size)
    (hcheck : q.checkDicSize = checkOf p.prop w'.length) : q.Shape ∧ q.Window w' := by
  have hle : r₁.dicPos ≤ l := hadv.le
  refine ⟨⟨by omega, ?_, by rw [hsize]; exact hp.size_lt, ?_, by rw [htemp]; exact hp.tempBuf_size⟩,
    ⟨?_, ?_, ?_, ?_⟩⟩
  · rw [hsize, hdic, hadv.keeps.size]
    exact hp.size_le
  · rw [hprop, hprobs]
    exact hp.probs
  · rw [hdic, hsize, hpos]
    exact hadv.owes.holds
  · rw [hprop, hsize, hpos]
    exact hadv.owes.fits
  · rw [hproc]
    exact hadv.owes.processed
  · rw [hprop]
    exact hcheck

/-- From the loop's locals back to the decoder. -/
theorem LoopEnd.real {l limit bufLimit : ℕ} {src : List UInt8} {r' : Regs}
    {A B : RefState → List UInt8 → Prop} (h : p.Core s s.hist)
    (hls : limit ≤ p.dicBufSize) (hc1 : p.clampLimit limit = .ok l) (hc3 : l ≤ limit)
    (hc4 : l = p.dicPos → limit = p.dicPos)
    (hc5 : p.checkDicSize = 0 → s.hist.length + (l - p.dicPos) ≤ p.prop.dictSize)
    (hloop : decodeLoop (envOf p l src bufLimit) (l - p.dicPos + 1) (regsOf p) = .ok r')
    (hend : LoopEnd p.prop (envOf p l src bufLimit) src p.probs.size
      (lzmaPropsGetNumProbs p.prop.lc p.prop.lp) (regsOf p) s A B r') :
    ∃ res, lzmaDecDecodeReal2 p limit src bufLimit = .ok res ∧ RealFrame p limit src res ∧
      RealEnd p s.hist A B limit (src.drop res.buf) res := by
  have hcheck : ∀ {n : ℕ} {w' : List UInt8} {r₁ : Regs} {s' : RefState},
      Advance p.prop (envOf p l src bufLimit) (regsOf p) r₁ s.hist s' n w' →
      (if p.checkDicSize = 0 ∧ p.prop.dictSize ≤ r₁.processedPos then p.prop.dictSize
        else p.checkDicSize) = checkOf p.prop w'.length := by
    intro n w' r₁ s' hadv
    have hpos : r₁.dicPos = p.dicPos + n := hadv.pos
    have hle : r₁.dicPos ≤ l := hadv.le
    rw [hadv.owes.processed, hadv.length, h.check]
    exact checkOf_advance fun h0 => by have := hc5 (h.check.trans h0); omega
  have hreal : ∀ {rc : Rc}, normalize src r'.rc = .ok rc →
      lzmaDecDecodeReal2 p limit src bufLimit = .ok
        { p := { p with probs := rc.probs, dic := r'.dic, range := rc.range, code := rc.code
                        remainLen := r'.len, dicPos := r'.dicPos, processedPos := r'.processedPos
                        reps := r'.reps, state := r'.state
                        checkDicSize := if p.checkDicSize = 0 ∧ p.prop.dictSize ≤ r'.processedPos
                          then p.prop.dictSize else p.checkDicSize }
          buf := rc.buf, ok := decide (r'.len < kMatchSpecLenErrorData) } := by
    intro rc hrc
    rw [lzmaDecDecodeReal2, hc1, ok_bind, lzmaDecDecodeReal, hloop, ok_bind, hrc, ok_bind, ok_bind]
    simp only
    split <;> rfl
  have hspec := specLen
  cases hend with
  | running s' ys n w' hm hb hset hadv hlt =>
      obtain ⟨rc, hrc, ht⟩ := hset.normalize
      have hpos : r'.dicPos = p.dicPos + n := hadv.pos
      have hle : r'.dicPos ≤ l := hadv.le
      have h273 := hadv.len_le
      refine ⟨_, hreal hrc, ⟨rfl, rfl, rfl, rfl, ht.size_eq, ht.buf_le, by show _ ≤ r'.dicPos; omega,
        by show r'.dicPos ≤ _; omega, hadv.keeps⟩, .running s' w' (ht.drop.symm ▸ hm) (by
        change decide (r'.len < _) = true
        rw [decide_eq_true_eq]
        omega) ?_ ?_ ?_⟩
      · obtain ⟨hshape, hwindow⟩ := Advance.window (q := { p with
          probs := rc.probs, dic := r'.dic, range := rc.range, code := rc.code
          remainLen := r'.len, dicPos := r'.dicPos, processedPos := r'.processedPos
          reps := r'.reps, state := r'.state
          checkDicSize := if p.checkDicSize = 0 ∧ p.prop.dictSize ≤ r'.processedPos
            then p.prop.dictSize else p.checkDicSize }) h.toShape hadv (by omega) rfl rfl rfl rfl rfl
          rfl ht.size_eq (hcheck hadv)
        exact ⟨hshape, hwindow, ⟨hadv.owes.holds, hadv.owes.fits, hadv.owes.processed,
          hadv.owes.state, hadv.owes.reps, hadv.owes.hist, hadv.owes.reach⟩, h273, ht.range,
          ht.code, ht.probs, hb⟩
      · have hlen := hadv.length
        change w'.length + p.dicPos = s.hist.length + r'.dicPos
        omega
      · by_cases hn : n = 0
        · right
          have hlen : r'.len ≠ 0 := by
            intro h0
            have := hadv.written h0
            have hw := hadv.length
            rw [this] at hw
            omega
          have hfull : r'.dicPos = l := hadv.full (Nat.pos_of_ne_zero hlen)
          exact ⟨by show r'.dicPos = limit; omega, hlen⟩
        · left
          change p.dicPos < r'.dicPos
          omega
  | marked s' ys zs d len n r₁ hm hb hf hset hadv hr' =>
      obtain ⟨rc, hrc, ht⟩ := hset.normalize
      have hpos : r₁.dicPos = p.dicPos + n := hadv.pos
      have hle : r₁.dicPos ≤ l := hadv.le
      have hpos' : r'.dicPos = r₁.dicPos := by rw [hr']
      have hlen' : r'.len = kMatchSpecLenStart := by rw [hr']
      have hproc' : r'.processedPos = r₁.processedPos := by rw [hr']
      refine ⟨_, hreal hrc, ⟨rfl, rfl, rfl, rfl, ht.size_eq, ht.buf_le, by show _ ≤ r'.dicPos; omega,
        by show r'.dicPos ≤ _; omega, by show Keeps _ r'.dic _; rw [hr']; exact hadv.keeps⟩,
        .marked s' ys d len hm hb (ht.drop.symm ▸ hf) (by
        change decide (r'.len < _) = true
        rw [decide_eq_true_eq]
        omega) ?_ ?_⟩
      swap
      · have hlen := hadv.length
        change s'.hist.length + p.dicPos = s.hist.length + r'.dicPos
        omega
      obtain ⟨hshape, hwindow⟩ := Advance.window (q := { p with
        probs := rc.probs, dic := r'.dic, range := rc.range, code := rc.code
        remainLen := r'.len, dicPos := r'.dicPos, processedPos := r'.processedPos
        reps := r'.reps, state := r'.state
        checkDicSize := if p.checkDicSize = 0 ∧ p.prop.dictSize ≤ r'.processedPos
          then p.prop.dictSize else p.checkDicSize }) h.toShape hadv (by omega) (by rw [hr']) hpos'
        hproc' rfl rfl rfl ht.size_eq (by
          change (if _ ∧ _ ≤ r'.processedPos then _ else _) = _
          rw [hproc']
          exact hcheck hadv)
      exact ⟨hshape, hwindow, hlen', ht.code⟩
  | rejected s' ys zs sym d n r₁ hm hb hf hrej hset hadv hdic hpos' hproc' h512 =>
      obtain ⟨rc, hrc, ht⟩ := hset.normalize
      have hpos : r₁.dicPos = p.dicPos + n := hadv.pos
      have hle : r₁.dicPos ≤ l := hadv.le
      obtain ⟨hshape, hwindow⟩ := Advance.window (q := { p with
        probs := rc.probs, dic := r'.dic, range := rc.range, code := rc.code
        remainLen := r'.len, dicPos := r'.dicPos, processedPos := r'.processedPos
        reps := r'.reps, state := r'.state
        checkDicSize := if p.checkDicSize = 0 ∧ p.prop.dictSize ≤ r'.processedPos
          then p.prop.dictSize else p.checkDicSize }) h.toShape hadv (by omega) hdic hpos'
        hproc' rfl rfl rfl ht.size_eq (by
          change (if _ ∧ _ ≤ r'.processedPos then _ else _) = _
          rw [hproc']
          exact hcheck hadv)
      exact ⟨_, hreal hrc, ⟨rfl, rfl, rfl, rfl, ht.size_eq, ht.buf_le, by show _ ≤ r'.dicPos; omega,
        by show r'.dicPos ≤ _; omega, by show Keeps _ r'.dic _; rw [hdic]; exact hadv.keeps⟩,
        .rejected s' ys sym d hm hb (ht.drop.symm ▸ hf) hrej (by
        change decide (r'.len < _) = false
        rw [decide_eq_false_iff_not]
        omega) hshape hwindow (by
        have hlen := hadv.length
        change s'.hist.length + p.dicPos = s.hist.length + r'.dicPos
        omega)⟩

/-- One symbol, known to be all there: the call whose `bufLimit` is its start. -/
theorem lzmaDecDecodeReal2_one (src : List UInt8) (h : p.Core s w) (hr : p.remainLen = 0) {limit : ℕ}
    (hl : p.dicPos ≤ limit) (hls : limit ≤ p.dicBufSize)
    (hmore : (run (symbolProg (s.ctx p.prop)) s.coder src).flush ≠ .more)
    (hroom : p.dicPos < limit ∨ ∀ sym d zs,
      (run (symbolProg (s.ctx p.prop)) s.coder src).flush = .done sym d zs →
      ∃ dist len, sym = .simple dist len) :
    ∃ res, lzmaDecDecodeReal2 p limit src 0 = .ok res ∧ RealFrame p limit src res ∧
      RealEnd p s.hist (fun s' zs => s.step p.prop src = .next (.body s') zs)
        (fun s' zs => s' = s ∧ zs = src) limit (src.drop res.buf) res := by
  obtain rfl := h.written hr
  obtain ⟨l, hc1, hc2, hc3, hc4, hc5⟩ := h.toWindow.clampLimit hl
  obtain ⟨flow, r', h1, hend, -⟩ := decodeSymbol_step h.probs rfl (envOf_for p h.size_lt l src 0)
    h.begun (h.mirrors hr l src 0) rfl rfl (h.settles src) hmore hc2
    (by show l ≤ p.dicBufSize; omega) (hroom.imp_left fun hlt => by show p.dicPos < l; omega)
  exact LoopEnd.real h hls hc1 hc3 hc4 hc5 (decodeLoop_one rfl h1) hend

/-- As many symbols as end before the margin. -/
theorem lzmaDecDecodeReal2_many (src : List UInt8) (bufLimit : ℕ) (h : p.Core s w)
    (hr : p.remainLen = 0) {limit : ℕ} (hl : p.dicPos < limit) (hls : limit ≤ p.dicBufSize)
    (hmargin : bufLimit + 20 ≤ src.length) {top : ℕ}
    (htop : top + p.dicPos = s.hist.length + limit) :
    ∃ res, lzmaDecDecodeReal2 p limit src bufLimit = .ok res ∧ RealFrame p limit src res ∧
      RealEnd p s.hist (fun s' zs => Within p.prop top (.body s) src (.body s') zs)
        (fun s' zs => Within p.prop top (.body s) src (.body s') zs) limit (src.drop res.buf)
        res := by
  obtain rfl := h.written hr
  obtain ⟨l, hc1, hc2, hc3, hc4, hc5⟩ := h.toWindow.clampLimit hl.le
  obtain ⟨r', hloop, hend⟩ := decodeLoop_end (l - p.dicPos + 1) h.probs rfl
    (envOf_for p h.size_lt l src bufLimit) rfl (by show l ≤ p.dicBufSize; omega) hmargin h.begun
    (h.mirrors hr l src bufLimit) rfl (h.settles src) (by omega) (by show p.dicPos < l; omega) hc5
    (by show l - p.dicPos < _; omega)
  have hle : s.hist.length + (l - p.dicPos) ≤ top := by omega
  exact LoopEnd.real h hls hc1 hc3 hc4 hc5 hloop
    (hend.mono (fun _ _ hm => Within.mono hm hle) fun _ _ hm => Within.mono hm hle)

end
end LzmaTurbo.Lzma
