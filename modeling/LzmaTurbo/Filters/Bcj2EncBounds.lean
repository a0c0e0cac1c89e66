import LzmaTurbo.Filters.Bcj2EncStops

/-!
# How much the BCJ2 encoder writes
-/
namespace LzmaTurbo.Filters.Bcj2Enc
open Supplies

/-- A target that is still to be written. -/
def EncPhase.pending : EncPhase → ℕ
  | .target _ _ => 4
  | _ => 0

/-- A normalization that is still to be made. -/
def EncMicro.lags (m : EncMicro) : ℕ :=
  if m.phase = .flush then 0 else if m.core.range < bcj2TopValue then 1 else 0

/-- What is written is a byte for a byte of the source, but for the range coder's stream: there
it is a byte for a marker, and those of the start and of the flush. -/
structure Within (n : ℕ) (m : EncMicro) (x : EncSupply) : Prop where
  probs : ∀ i, 31 ≤ m.core.probs i ∧ m.core.probs i ≤ 2017
  range : 0x10000 ≤ m.core.range
  spent : x.main.length + x.call.length + x.jump.length + x.src.length + m.phase.pending ≤ n
  owed : x.rc.length + m.core.cacheSize + m.core.flushRem + m.lags ≤ 6 + x.main.length

theorem shiftStep_owed (e : Bcj2Enc) (rc : List UInt8) :
    (shiftStep e rc).2.2.length + (shiftStep e rc).2.1.cacheSize =
        rc.length + e.cacheSize + (if (shiftStep e rc).1 then 1 else 0) ∧
      (shiftStep e rc).2.1.probs = e.probs ∧ (shiftStep e rc).2.1.range = e.range ∧
      (shiftStep e rc).2.1.flushRem = e.flushRem := by
  unfold shiftStep
  split
  · split
    next h0 => exact ⟨by rw [h0]; rfl, rfl, rfl, rfl⟩
    next n hn =>
      refine ⟨?_, rfl, rfl, rfl⟩
      change (rc ++ [_]).length + n = rc.length + e.cacheSize + 0
      rw [List.length_append, hn]
      simp only [List.length_cons, List.length_nil]
      omega
  · exact ⟨rfl, rfl, rfl, rfl⟩

theorem encodeBit_within {e : Bcj2Enc} (v : UInt32) (converted : Bool)
    (hprobs : ∀ i, 31 ≤ e.probs i ∧ e.probs i ≤ 2017) (hrange : 0x1000000 ≤ e.range) :
    (∀ i, 31 ≤ (e.encodeBit v converted).probs i ∧ (e.encodeBit v converted).probs i ≤ 2017) ∧
      0x10000 ≤ (e.encodeBit v converted).range ∧
      (e.encodeBit v converted).cacheSize = e.cacheSize ∧
      (e.encodeBit v converted).flushRem = e.flushRem := by
  have hgood := @encodeBit_good { e with isFlushState := true } v converted
    ⟨hprobs, by show 0x10000 ≤ e.range; omega, fun h => by cases h⟩ hrange
  cases converted <;> exact ⟨hgood.probs, hgood.range, rfl, rfl⟩

theorem lags_le (m : EncMicro) : m.lags ≤ 1 := by
  unfold EncMicro.lags
  split
  · exact Nat.zero_le _
  · split
    · exact Nat.le_refl _
    · exact Nat.zero_le _

theorem markerStep_within {n : ℕ} {core : Bcj2Enc} {v : UInt32} {b : UInt8}
    {rest : List UInt8} {m' : EncMicro} {x x' : EncSupply}
    (hprobs : ∀ i, 31 ≤ core.probs i ∧ core.probs i ≤ 2017) (hrange : 0x1000000 ≤ core.range)
    (hspent : x.main.length + x.call.length + x.jump.length + (rest.length + 1) ≤ n)
    (howed : x.rc.length + core.cacheSize + core.flushRem ≤ 6 + x.main.length)
    (h : markerStep core v b rest x = some (m', x')) : Within n m' x' := by
  have hmain (rest : List UInt8) : (x.take b rest).main.length = x.main.length + 1 := by
    change (x.main ++ [b]).length = _
    rw [List.length_append]
    rfl
  have hpassed (rest : List UInt8)
      (hspent : x.main.length + x.call.length + x.jump.length + (rest.length + 1) ≤ n) :
      Within n ⟨.loop, { core.encodeBit v false with context := b }⟩ (x.take b rest) := by
    obtain ⟨hp, hr, hcache, hrem⟩ := encodeBit_within v false hprobs hrange
    have hlags := lags_le ⟨.loop, { core.encodeBit v false with context := b }⟩
    refine ⟨hp, hr, ?_, ?_⟩
    · rw [hmain]
      change x.main.length + 1 + x.call.length + x.jump.length + rest.length + 0 ≤ n
      omega
    · rw [hmain]
      change x.rc.length + (core.encodeBit v false).cacheSize +
        (core.encodeBit v false).flushRem + _ ≤ _
      omega
  unfold markerStep at h
  split at h
  next a₀ a₁ a₂ a₃ rest' =>
    dsimp only at h
    split at h
    · cases h
      obtain ⟨hp, hr, hcache, hrem⟩ := encodeBit_within v true hprobs hrange
      refine ⟨hp, hr, ?_, ?_⟩
      · rw [hmain]
        simp only [List.length_cons] at hspent
        change x.main.length + 1 + x.call.length + x.jump.length + rest'.length + 4 ≤ n
        omega
      · rw [hmain]
        apply Nat.le_trans (Nat.add_le_add_left (lags_le _) _)
        change x.rc.length + (core.encodeBit v true).cacheSize +
          (core.encodeBit v true).flushRem + 1 ≤ _
        omega
    · cases h
      exact hpassed _ hspent
  · split at h <;> cases h
    exact hpassed _ hspent

theorem copyStep_within {n : ℕ} {m m' : EncMicro} {x x' : EncSupply} (hw : Within n m x)
    (hphase : m.phase = .loop) (hhigh : 0x1000000 ≤ m.core.range)
    (h : copyStep m x = some (m', x')) : Within n m' x' := by
  obtain ⟨hprobs, hrange, hspent, howed⟩ := hw
  have howed' : x.rc.length + m.core.cacheSize + m.core.flushRem ≤ 6 + x.main.length := by omega
  unfold copyStep at h
  split at h
  next hsrc =>
    split at h <;> cases h
    rw [hphase] at hspent
    exact ⟨hprobs, hrange, hspent, howed'⟩
  next b rest hsrc =>
    rw [hsrc, List.length_cons] at hspent
    have hspent' : x.main.length + x.call.length + x.jump.length + (rest.length + 1) ≤ n := by
      omega
    dsimp only at h
    split at h
    · exact @markerStep_within n { m.core with ip64 := m.core.ip64 + 1 } _ b rest m' x x' hprobs
        hhigh hspent' howed' h
    · cases h
      have hmain : (x.take b rest).main.length = x.main.length + 1 := by
        change (x.main ++ [b]).length = _
        rw [List.length_append]
        rfl
      refine ⟨hprobs, hrange, ?_, ?_⟩
      · rw [hmain]
        change x.main.length + 1 + x.call.length + x.jump.length + rest.length + 0 ≤ n
        omega
      · rw [hmain]
        apply Nat.le_trans (Nat.add_le_add_left (lags_le _) _)
        change x.rc.length + m.core.cacheSize + m.core.flushRem + 1 ≤ _
        omega

/-- A step of `shift_low`, if what follows its last makes up for the byte that is left. -/
theorem shiftPhase_within {n : ℕ} {m : EncMicro} {x : EncSupply} (hw : Within n m x)
    {f : Bcj2Enc → Bcj2Enc} (hprobs : ∀ e, (f e).probs = e.probs)
    (hrange : ∀ e, e.range ≤ (f e).range) (hcache : ∀ e, (f e).cacheSize = e.cacheSize)
    (hlags : ∀ e, e.range = m.core.range → e.flushRem = m.core.flushRem →
      (f e).flushRem + EncMicro.lags ⟨m.phase, f e⟩ + 1 = m.core.flushRem + m.lags) :
    Within n (shiftPhase f m x).1 (shiftPhase f m x).2 := by
  obtain ⟨hprobs', hrange', hspent, howed⟩ := hw
  obtain ⟨hcount, hp, hr, hrem⟩ := shiftStep_owed m.core x.rc
  unfold shiftPhase
  dsimp only
  rcases hlast : (shiftStep m.core x.rc).1 with _ | _
  · rw [hlast] at hcount
    have hsame : EncMicro.lags ⟨m.phase, (shiftStep m.core x.rc).2.1⟩ = m.lags := by
      unfold EncMicro.lags
      dsimp only
      rw [hr]
    refine ⟨fun i => ?_, ?_, hspent, ?_⟩
    · change 31 ≤ (shiftStep m.core x.rc).2.1.probs i ∧ (shiftStep m.core x.rc).2.1.probs i ≤ 2017
      rw [hp]
      exact hprobs' i
    · change 0x10000 ≤ (shiftStep m.core x.rc).2.1.range
      rw [hr]
      exact hrange'
    · change (shiftStep m.core x.rc).2.2.length + (shiftStep m.core x.rc).2.1.cacheSize +
        (shiftStep m.core x.rc).2.1.flushRem +
        EncMicro.lags ⟨m.phase, (shiftStep m.core x.rc).2.1⟩ ≤ 6 + x.main.length
      rw [if_neg Bool.false_ne_true] at hcount
      omega
  · rw [hlast] at hcount
    have hmakes := hlags (shiftStep m.core x.rc).2.1 hr hrem
    have hgrows := hrange (shiftStep m.core x.rc).2.1
    refine ⟨fun i => ?_, ?_, hspent, ?_⟩
    · change 31 ≤ (f (shiftStep m.core x.rc).2.1).probs i ∧
        (f (shiftStep m.core x.rc).2.1).probs i ≤ 2017
      rw [hprobs, hp]
      exact hprobs' i
    · change 0x10000 ≤ (f (shiftStep m.core x.rc).2.1).range
      omega
    · change (shiftStep m.core x.rc).2.2.length + (f (shiftStep m.core x.rc).2.1).cacheSize +
        (f (shiftStep m.core x.rc).2.1).flushRem +
        EncMicro.lags ⟨m.phase, f (shiftStep m.core x.rc).2.1⟩ ≤ 6 + x.main.length
      rw [hcache]
      rw [if_pos rfl] at hcount
      omega

theorem putTarget_within {n cj : ℕ} {absol : UInt32} {m : EncMicro} {x : EncSupply}
    (hw : Within n m x) (hphase : m.phase = .target cj absol) :
    Within n ⟨.loop, m.core⟩ (x.putTarget cj absol) := by
  obtain ⟨hprobs, hrange, hspent, howed⟩ := hw
  rw [hphase] at hspent
  change x.main.length + x.call.length + x.jump.length + x.src.length + 4 ≤ n at hspent
  have hlags : EncMicro.lags ⟨.loop, m.core⟩ = m.lags := by
    unfold EncMicro.lags
    rw [hphase]
    rfl
  have hkeep : (x.putTarget cj absol).main = x.main ∧ (x.putTarget cj absol).rc = x.rc ∧
      (x.putTarget cj absol).src = x.src ∧
      (x.putTarget cj absol).call.length + (x.putTarget cj absol).jump.length =
        x.call.length + x.jump.length + 4 := by
    unfold EncSupply.putTarget
    dsimp only
    split
    · refine ⟨rfl, rfl, rfl, ?_⟩
      rw [List.length_append]
      change x.call.length + 4 + x.jump.length = _
      omega
    · refine ⟨rfl, rfl, rfl, ?_⟩
      rw [List.length_append]
      rfl
  obtain ⟨hmain, hrc, hsrc, hside⟩ := hkeep
  refine ⟨hprobs, hrange, ?_, ?_⟩
  · rw [hmain, hsrc]
    change x.main.length + _ + _ + x.src.length + 0 ≤ n
    omega
  · rw [hmain, hrc, hlags]
    exact howed

theorem encStep_within {n : ℕ} {m m' : EncMicro} {x x' : EncSupply} (hw : Within n m x)
    (h : encStep m x = some (m', x')) : Within n m' x' := by
  have hrange := hw.range
  unfold encStep at h
  split at h
  next hphase =>
    split at h
    next hlow =>
      cases h
      refine shiftPhase_within hw (f := fun e => { e with range := e.range * 256 })
        (fun _ => rfl) (fun e => Nat.le_mul_of_pos_right e.range (Nat.succ_pos 255))
        (fun _ => rfl) fun e hr hrem => ?_
      have hbefore : m.lags = 1 := by
        unfold EncMicro.lags
        rw [hphase, if_neg (by decide), if_pos hlow]
      have hafter : EncMicro.lags ⟨m.phase, { e with range := e.range * 256 }⟩ = 0 := by
        unfold EncMicro.lags
        dsimp only
        rw [hphase, if_neg (by decide), if_neg]
        change ¬e.range * 256 < 0x1000000
        omega
      rw [hbefore, hafter]
      change e.flushRem + 0 + 1 = _
      omega
    next hlow => exact copyStep_within hw hphase (Nat.not_lt.1 hlow) h
  next cj absol hphase =>
    cases h
    exact putTarget_within hw hphase
  next hphase =>
    split at h
    · cases h
    next hleft =>
      cases h
      refine shiftPhase_within hw (f := fun e => { e with flushRem := e.flushRem - 1 })
        (fun _ => rfl) (fun _ => Nat.le_refl _) (fun _ => rfl) fun e hr hrem => ?_
      have hnone (c : Bcj2Enc) : EncMicro.lags ⟨m.phase, c⟩ = 0 := by
        unfold EncMicro.lags
        exact if_pos hphase
      have hbefore : m.lags = 0 := hnone m.core
      rw [hbefore, hnone]
      change e.flushRem - 1 + 0 + 1 = _
      omega

theorem encSteps_within {n : ℕ} {a b : EncMicro × EncSupply} (h : encMachine.Steps a b)
    (hw : Within n a.1 a.2) : Within n b.1 b.2 := by
  induction h with
  | refl => exact hw
  | tail _ hstep ih => exact encStep_within ih hstep

/-- A window's room and what it has taken of it. -/
def Bcj2Window.size (w : Bcj2Window) : ℕ := w.written.length + w.room

/-- The four windows keep their sizes. -/
structure SameSizes (out out' : Bcj2EncOut) : Prop where
  main : Bcj2Window.size out'.main = Bcj2Window.size out.main
  call : Bcj2Window.size out'.call = Bcj2Window.size out.call
  jump : Bcj2Window.size out'.jump = Bcj2Window.size out.jump
  rc : Bcj2Window.size out'.rc = Bcj2Window.size out.rc

theorem SameSizes.refl (out : Bcj2EncOut) : SameSizes out out := ⟨rfl, rfl, rfl, rfl⟩

theorem SameSizes.trans {a b c : Bcj2EncOut} (h : SameSizes a b) (h' : SameSizes b c) :
    SameSizes a c :=
  ⟨h'.main.trans h.main, h'.call.trans h.call, h'.jump.trans h.jump, h'.rc.trans h.rc⟩

theorem putAll_size {w : Bcj2Window} {bs : List UInt8} (h : bs.length ≤ w.room) :
    Bcj2Window.size (w.putAll bs) = Bcj2Window.size w := by
  change (w.written ++ bs).length + (w.room - bs.length) = w.written.length + w.room
  rw [List.length_append]
  omega

theorem putCache_size (high : UInt8) (n : ℕ) (b : UInt8) (w : Bcj2Window) :
    Bcj2Window.size (putCache high n b w).2.2 = Bcj2Window.size w := by
  induction n generalizing b w with
  | zero => rfl
  | succ n ih =>
      rw [putCache]
      split
      · rfl
      next hroom =>
        rw [ih]
        change (w.written ++ [_]).length + (w.room - 1) = w.written.length + w.room
        rw [List.length_append]
        change w.written.length + 1 + (w.room - 1) = _
        omega

theorem shiftLow_sizes (e : Bcj2Enc) (out : Bcj2EncOut) :
    SameSizes out (shiftLow e out).2.2 := by
  unfold shiftLow
  dsimp only
  split
  · split <;> exact ⟨rfl, rfl, rfl, putCache_size _ _ _ _⟩
  · exact .refl _

theorem putTarget_sizes {out : Bcj2EncOut} {cj : ℕ} (v : UInt32)
    (h : out.hasTargetRoom cj = true) : SameSizes out (out.putTarget cj v) := by
  have hroom : 4 ≤ (out.side cj).room := of_decide_eq_true h
  unfold Bcj2EncOut.putTarget Bcj2EncOut.setSide
  unfold Bcj2EncOut.side at hroom ⊢
  split at hroom
  next hcj =>
    simp only [if_pos hcj]
    exact ⟨rfl, @putAll_size out.call [_, _, _, _] hroom, rfl, rfl⟩
  next hcj =>
    simp only [if_neg hcj]
    exact ⟨rfl, rfl, @putAll_size out.jump [_, _, _, _] hroom, rfl⟩

/-- What a turn of the loop leaves of the windows. -/
def EncTurn.out : EncTurn → Bcj2EncOut
  | .stop _ out _ => out
  | .flush _ out _ => out
  | .again _ _ out _ => out

theorem markerTurn_sizes (e : Bcj2Enc) (v : UInt32) (b : UInt8) {out : Bcj2EncOut}
    (src : List UInt8) (h : out.main.written ≠ []) :
    SameSizes out (markerTurn e v b out src).out := by
  unfold markerTurn
  split
  · dsimp only
    split
    · split
      next hroom => exact putTarget_sizes _ hroom
      · exact .refl _
    · exact .refl _
  · split
    · refine ⟨?_, rfl, rfl, rfl⟩
      have hpos := List.length_pos_iff.2 h
      change out.main.written.dropLast.length + (out.main.room + 1) = _
      rw [List.length_dropLast]
      change _ = out.main.written.length + out.main.room
      omega
    · exact .refl _

theorem copyTurn_sizes (e : Bcj2Enc) (v : UInt32) (out : Bcj2EncOut) (src : List UInt8) :
    SameSizes out (copyTurn e v out src).out := by
  obtain ⟨hlen, hmin, hpos, -⟩ := scanMain_bounds (min out.main.room src.length) src v
  have htaken : SameSizes out { out with
      main := out.main.putAll (src.take (scanMain (min out.main.room src.length) src v).1) } := by
    refine ⟨putAll_size ?_, rfl, rfl, rfl⟩
    rw [List.length_take]
    omega
  unfold copyTurn
  dsimp only
  split
  next hf =>
    refine htaken.trans (markerTurn_sizes _ _ _ _ fun hnil => ?_)
    have hzero := congrArg List.length hnil
    change (out.main.written ++ _).length = 0 at hzero
    rw [List.length_append, List.length_take] at hzero
    have hone := hpos hf
    omega
  · split
    · exact htaken
    · split <;> exact htaken

theorem encodeTurn_sizes (e : Bcj2Enc) (v : UInt32) (out : Bcj2EncOut) (src : List UInt8) :
    SameSizes out (encodeTurn e v out src).out := by
  have hlow := shiftLow_sizes { e with context := v.toUInt8 } out
  unfold encodeTurn
  dsimp only
  split
  · split
    · exact hlow
    · exact hlow.trans (copyTurn_sizes ..)
  · exact copyTurn_sizes ..

theorem flushLoop_sizes (left : ℕ) (e : Bcj2Enc) (out : Bcj2EncOut) :
    SameSizes out (flushLoop left e out).2 := by
  induction left generalizing e out with
  | zero => exact .refl _
  | succ left ih =>
      have hlow := shiftLow_sizes { e with flushRem := left + 1 } out
      rw [flushLoop]
      split
      · exact hlow
      · exact hlow.trans (ih _ _)

theorem encodeLoop_sizes (e : Bcj2Enc) (v : UInt32) (out : Bcj2EncOut) (src : List UInt8) :
    SameSizes out (encodeLoop e v out src).2.1 := by
  fun_induction encodeLoop e v out src with
  | case1 e v out src e' out' src' hturn =>
      have hsizes := encodeTurn_sizes e v out src
      rwa [hturn] at hsizes
  | case2 e v out src e' out' src' hturn =>
      have hsizes := encodeTurn_sizes e v out src
      rw [hturn] at hsizes
      exact hsizes.trans (flushLoop_sizes ..)
  | case3 e v out src e' v' out' src' hturn ih =>
      have hsizes := encodeTurn_sizes e v out src
      rw [hturn] at hsizes
      exact hsizes.trans ih

theorem encode2_sizes (e : Bcj2Enc) (out : Bcj2EncOut) (src : List UInt8) :
    SameSizes out (encode2 e out src).2.1 := by
  unfold encode2
  split
  · exact flushLoop_sizes ..
  · split
    · split
      next hroom => exact (putTarget_sizes _ hroom).trans (encodeLoop_sizes ..)
      · exact .refl _
    · exact encodeLoop_sizes ..

theorem encodeSrc_sizes (e : Bcj2Enc) (out : Bcj2EncOut) (src : List UInt8) :
    SameSizes out (encodeSrc e out src).2.1 := by
  have hsizes := encode2_sizes e out src
  unfold encodeSrc
  dsimp only
  split <;> exact hsizes

theorem tempLoop_sizes (e : Bcj2Enc) (out : Bcj2EncOut) (extra : ℕ) (src : List UInt8) :
    SameSizes out (tempLoop e out extra src).2.1 := by
  induction src generalizing e out extra with
  | nil =>
      have hsizes := encode2_sizes e out e.temp
      unfold tempLoop
      dsimp only
      rw [if_pos rfl]
      split <;> exact hsizes
  | cons b src ih =>
      have hsizes := encode2_sizes { e with finishMode := .continue } out e.temp
      unfold tempLoop
      dsimp only
      rw [if_neg (List.cons_ne_nil b src)]
      split
      · exact hsizes
      · split
        · exact hsizes.trans (encodeSrc_sizes ..)
        · exact hsizes.trans (ih ..)

theorem encode_sizes (e : Bcj2Enc) (out : Bcj2EncOut) (src : List UInt8) :
    SameSizes out (encode e out src).2.1 := by
  unfold encode
  split
  · exact tempLoop_sizes ..
  · exact encodeSrc_sizes ..

end LzmaTurbo.Filters.Bcj2Enc
