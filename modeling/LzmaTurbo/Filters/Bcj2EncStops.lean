import LzmaTurbo.Filters.Bcj2EncRuns

/-!
# Why a call of the BCJ2 encoder returns
-/
namespace LzmaTurbo.Filters.Bcj2Enc

/-- `full_stream`. -/
def fullStream (e : Bcj2Enc) : Option ℕ := if e.state < bcj2NumStreams then some e.state else none

/-- A stream whose window has no room for what comes next: a byte, or a target. -/
def isFull (out : Bcj2EncOut) (i : ℕ) : Prop :=
  if i = streamMain then out.main.room = 0
  else if i = streamRc then out.rc.room = 0
  else out.hasTargetRoom i = false

/-- The call has finished, or a window is full, or more of the source is to come. -/
def Stopped (e : Bcj2Enc) (out : Bcj2EncOut) (ended : Bool) : Prop :=
  e.isFinished = true ∨ (∃ i, e.fullStream = some i ∧ isFull out i) ∨
    e.state = encStateOrig ∧ ended = false

theorem putCache_full (high : UInt8) (n : ℕ) (b : UInt8) (w : Bcj2Window)
    (h : (putCache high n b w).1 ≠ 0) : (putCache high n b w).2.2.room = 0 := by
  induction n generalizing b w with
  | zero => exact absurd rfl h
  | succ n ih =>
      rw [putCache] at h ⊢
      split at h
      next hroom =>
        rw [if_pos hroom]
        exact hroom
      next hroom =>
        rw [if_neg hroom]
        exact ih _ _ h

theorem shiftLow_full {e : Bcj2Enc} {out : Bcj2EncOut} (h : (shiftLow e out).1 = true) :
    (shiftLow e out).2.2.rc.room = 0 := by
  unfold shiftLow at h ⊢
  dsimp only at h ⊢
  split at h
  next hs =>
    rw [if_pos hs]
    split at h
    · cases h
    next hleft =>
      rw [if_neg hleft]
      exact putCache_full _ _ _ _ hleft
  · cases h

theorem stopped_rc {e : Bcj2Enc} {out : Bcj2EncOut} {ended : Bool}
    (h : (shiftLow e out).1 = true) :
    Stopped (shiftLow e out).2.1 (shiftLow e out).2.2 ended := by
  have hstate := (shiftLow_kept e out).2
  rw [if_pos h] at hstate
  refine .inr (.inl ⟨streamRc, ?_, shiftLow_full h⟩)
  unfold fullStream
  rw [hstate]
  rfl

theorem stopped_side {e : Bcj2Enc} {out : Bcj2EncOut} {ended : Bool}
    (hside : is32bitStream e.state = true) (hroom : ¬out.hasTargetRoom e.state = true) :
    Stopped e out ended := by
  have hfull : out.hasTargetRoom e.state = false := Bool.not_eq_true _ ▸ hroom
  have hcases : e.state = streamCall ∨ e.state = streamJump := by
    simpa only [is32bitStream, Bool.or_eq_true, beq_iff_eq] using hside
  refine .inr (.inl ⟨e.state, ?_, ?_⟩)
  · unfold fullStream
    rcases hcases with hcj | hcj <;> rw [hcj] <;> rfl
  · unfold isFull
    rcases hcases with hcj | hcj <;> rw [hcj] at hfull ⊢ <;> exact hfull

theorem markerTurn_stopped {e e' : Bcj2Enc} {ended : Bool} (h : Ready e ended) {v : UInt32}
    {b : UInt8} {out out' : Bcj2EncOut} {src src' : List UInt8}
    (hstop : markerTurn e v b out src = .stop e' out' src') : Stopped e' out' ended := by
  unfold markerTurn at hstop
  split at hstop
  · dsimp only at hstop
    split at hstop
    · split at hstop
      · cases hstop
      next hroom =>
        cases hstop
        exact stopped_side (branchStream_side v) hroom
    · cases hstop
  · split at hstop
    next hmode =>
      cases hstop
      refine .inr (.inr ⟨h.state, ?_⟩)
      cases ended with
      | false => rfl
      | true => exact absurd (h.mode.symm.trans hmode) (by decide)
    · cases hstop

theorem copyTurn_stopped {e e' : Bcj2Enc} {ended : Bool} (h : Ready e ended) {v : UInt32}
    {out out' : Bcj2EncOut} {src src' : List UInt8}
    (hstop : copyTurn e v out src = .stop e' out' src') : Stopped e' out' ended := by
  have hbounds := scanMain_bounds (min out.main.room src.length) src v
  unfold copyTurn at hstop
  dsimp only at hstop
  split at hstop
  next hf =>
    have hready (n : ℕ) : Ready { e with ip64 := e.ip64 + UInt64.ofNat n } ended :=
      ⟨⟨h.probs, h.range, h.owes⟩, h.loops, h.state, h.mode⟩
    exact markerTurn_stopped (hready _) hstop
  next hf =>
    have hwhole := hbounds.2.2.2 (Bool.not_eq_true _ ▸ hf) (Nat.min_le_right _ _)
    split at hstop
    next hrest =>
      cases hstop
      refine .inr (.inl ⟨streamMain, rfl, ?_⟩)
      have hleft := List.length_pos_iff.2 hrest
      rw [List.length_drop] at hleft
      change out.main.room - (src.take _).length = 0
      rw [List.length_take]
      omega
    · split at hstop
      next hmode =>
        cases hstop
        refine .inr (.inr ⟨h.state, ?_⟩)
        cases ended with
        | false => rfl
        | true => exact absurd h.mode hmode
      · cases hstop

theorem encodeTurn_stopped {e e' : Bcj2Enc} {ended : Bool} (h : Ready e ended) {v : UInt32}
    {out out' : Bcj2EncOut} {src src' : List UInt8}
    (hstop : encodeTurn e v out src = .stop e' out' src') : Stopped e' out' ended := by
  unfold encodeTurn at hstop
  dsimp only at hstop
  split at hstop
  next hlow =>
    obtain ⟨hkept, hstate⟩ := shiftLow_kept { e with context := v.toUInt8 } out
    split at hstop
    next hfull =>
      cases hstop
      exact stopped_rc hfull
    next hfull =>
      rw [if_neg hfull] at hstate
      have hgood := hkept.good ⟨h.probs, h.range, h.owes⟩
      have hrange := hgood.range
      have hready : Ready { (shiftLow { e with context := v.toUInt8 } out).2.1 with
          range := (shiftLow { e with context := v.toUInt8 } out).2.1.range * 256 } ended :=
        ⟨⟨hgood.probs, by dsimp only; omega, hgood.owes⟩, hkept.isFlushState.trans h.loops,
          hstate.trans h.state, hkept.finishMode.trans h.mode⟩
      exact copyTurn_stopped hready hstop
  · exact copyTurn_stopped h hstop

theorem flushLoop_stopped (left : ℕ) (e : Bcj2Enc) (out : Bcj2EncOut) (ended : Bool) :
    Stopped (flushLoop left e out).1 (flushLoop left e out).2 ended := by
  induction left generalizing e out with
  | zero => exact .inl rfl
  | succ left ih =>
      rw [flushLoop]
      split
      next hfull => exact stopped_rc hfull
      · exact ih _ _

theorem encodeLoop_stopped {e : Bcj2Enc} {ended : Bool} (h : Ready e ended) (v : UInt32)
    (out : Bcj2EncOut) (src : List UInt8) :
    Stopped (encodeLoop e v out src).1 (encodeLoop e v out src).2.1 ended := by
  fun_induction encodeLoop e v out src with
  | case1 e v out src e' out' src' hturn => exact encodeTurn_stopped h hturn
  | case2 e v out src e' out' src' hturn => exact flushLoop_stopped _ _ _ _
  | case3 e v out src e' v' out' src' hturn ih =>
      have hreach := encodeTurn_reaches h v out src
      rw [hturn] at hreach
      exact ih hreach.2.1

theorem encode2_stopped {e : Bcj2Enc} {ended : Bool} (hgood : Good e)
    (hmode : e.finishMode = if ended then .endStream else .continue) (out : Bcj2EncOut)
    (src : List UInt8) :
    Stopped (encode2 e out src).1 (encode2 e out src).2.1 ended := by
  unfold encode2
  split
  · exact flushLoop_stopped _ _ _ _
  next hloops =>
    have hready : Ready { e with state := encStateOrig } ended :=
      ⟨⟨hgood.probs, hgood.range, hgood.owes⟩, Bool.not_eq_true _ ▸ hloops, rfl, hmode⟩
    split
    next hside =>
      split
      · exact encodeLoop_stopped hready _ _ _
      next hroom => exact stopped_side hside hroom
    · exact encodeLoop_stopped hready _ _ _

theorem encodeSrc_stopped {e : Bcj2Enc} {ended : Bool} (hgood : Good e)
    (hmode : e.finishMode = if ended then .endStream else .continue) (out : Bcj2EncOut)
    (src : List UInt8) :
    Stopped (encodeSrc e out src).1 (encodeSrc e out src).2.1 ended := by
  have hstopped := encode2_stopped hgood hmode out src
  unfold encodeSrc
  dsimp only
  split
  · exact hstopped
  · exact hstopped

/-- Short of a full window the encoder has looked at everything: it has finished, or more of
the source is to come. -/
theorem encode_stopped {e : Bcj2Enc} {ended : Bool} (hgood : Good e)
    (hmode : e.finishMode = if ended then .endStream else .continue) (out : Bcj2EncOut)
    (src : List UInt8) :
    Stopped (encode e out src).1 (encode e out src).2.1 ended := by
  have htemp (e : Bcj2Enc) (hgood : Good e)
      (hmode : e.finishMode = if ended then .endStream else .continue) (out : Bcj2EncOut)
      (extra : ℕ) :
      Stopped (tempLoop e out extra src).1 (tempLoop e out extra src).2.1 ended := by
    induction src generalizing e out extra with
    | nil =>
        have hstopped := encode2_stopped hgood hmode out e.temp
        unfold tempLoop
        dsimp only
        rw [if_pos rfl]
        split <;> exact hstopped
    | cons b src ih =>
        have hgood' := (@encode2_went { e with finishMode := .continue } false
          ⟨hgood.probs, hgood.range, hgood.owes⟩ rfl out e.temp).2.1
        have hstopped := @encode2_stopped { e with finishMode := .continue } false
          ⟨hgood.probs, hgood.range, hgood.owes⟩ rfl out e.temp
        unfold tempLoop
        dsimp only
        rw [if_neg (List.cons_ne_nil b src)]
        split
        next hstate =>
          rcases hstopped with hfin | hfull | ⟨horig, -⟩
          · exact .inl hfin
          · exact .inr (.inl hfull)
          · exact absurd horig hstate
        · split
          · exact @encodeSrc_stopped
              { (encode2 { e with finishMode := .continue } out e.temp).1 with
                temp := [], finishMode := e.finishMode } ended
              ⟨hgood'.probs, hgood'.range, hgood'.owes⟩ hmode _ _
          · exact ih { (encode2 { e with finishMode := .continue } out e.temp).1 with
                temp := (encode2 { e with finishMode := .continue } out e.temp).2.2 ++ [b]
                finishMode := e.finishMode }
              ⟨hgood'.probs, hgood'.range, hgood'.owes⟩ hmode _ _
  unfold encode
  split
  · exact htemp e hgood hmode out 0
  · exact encodeSrc_stopped hgood hmode out src

end LzmaTurbo.Filters.Bcj2Enc
