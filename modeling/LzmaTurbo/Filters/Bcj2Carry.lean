import LzmaTurbo.Filters.Bcj2EncRuns
import LzmaTurbo.Lib.PendingCarry

/-!
# The BCJ2 encoder keeps the exact interval

The byte held back is one of the `cacheSize` that wait. A shift takes as many steps as
there are bytes to put out; between them the interval cannot be read off.
-/
namespace LzmaTurbo.Filters.Bcj2Enc
open Supplies
open ExactCoder (Op Exact Pending value)

/-- What is out and what waits are the lower end of `e`. -/
structure Carry (core : Bcj2Enc) (rc : List UInt8) (e : Exact ℕ) : Prop where
  waits : core.cacheSize ≠ 0
  pending : Pending rc core.cache.toNat (core.cacheSize - 1) core.low e

/-- With room for them all the bytes that wait go out. -/
theorem putCache_whole (high : UInt8) (n : ℕ) (b : UInt8) (rc : List UInt8) :
    putCache high (n + 1) b ⟨rc, n + 1⟩ =
      (0, 0xFF, ⟨rc ++ (b + high) :: List.replicate n (0xFF + high), 0⟩) := by
  induction n generalizing b rc with
  | zero => rfl
  | succ n ih =>
      rw [putCache, if_neg (Nat.succ_ne_zero _)]
      have hput : Bcj2Window.put ⟨rc, n + 1 + 1⟩ (b + high) = ⟨rc ++ [b + high], n + 1⟩ := rfl
      rw [hput, ih, List.append_assoc, List.singleton_append, List.replicate_succ]

/-- `shift_low` makes a digit; with `low` empty nothing is left behind it. -/
theorem Carry.shift {p : EncPhase} {f : Bcj2Enc → Bcj2Enc} {core : Bcj2Enc} {x : EncSupply}
    {e : Exact ℕ} (h : Carry core x.rc e) (hr : 0 < e.range) (hs : e.range ≤ 2 ^ 24)
    (hstep : ∀ n b x, encStep ⟨p, { core with cacheSize := n, cache := b }⟩ x =
      some (shiftPhase f ⟨p, { core with cacheSize := n, cache := b }⟩ x)) :
    ∃ b n rc, encMachine.Steps (⟨p, core⟩, x)
        (⟨p, f { core with cacheSize := n, cache := b, low := core.low % 2 ^ 24 * 256 }⟩,
          { x with rc }) ∧
      Carry { core with cacheSize := n, cache := b, low := core.low % 2 ^ 24 * 256 } rc e.wider ∧
      (core.low = 0 → n = 1 ∧ b = 0) := by
  obtain ⟨n, hn⟩ := Nat.exists_eq_succ_of_ne_zero h.waits
  have hlow : core.low % 0x100000000 * 256 % 0x100000000 = core.low % 2 ^ 24 * 256 := by omega
  have hp := h.pending
  rw [hn, Nat.succ_sub_one] at hp
  by_cases hshifts : core.shifts = true
  · have hout : core.low % 2 ^ 32 < 0xFF000000 ∨ core.low / 2 ^ 32 ≠ 0 := by
      simpa [shifts] using hshifts
    have hsteps := putCache_steps hshifts hstep (n + 1) core.cache ⟨x.rc, n + 1⟩ x rfl
    rw [putCache_whole, if_pos rfl] at hsteps
    have hcore : { core with cacheSize := n + 1, cache := core.cache } = core := by
      rw [← Nat.succ_eq_add_one, ← hn]
    have hpushed : core.pushed = { core with
        cacheSize := 1
        cache := UInt8.ofNat (core.low % 2 ^ 32 / 2 ^ 24)
        low := core.low % 2 ^ 24 * 256 } := by
      simp only [pushed, shifted, hlow]
      rfl
    rw [hcore, hpushed] at hsteps
    refine ⟨_, _, _, hsteps, ⟨Nat.one_ne_zero, ?_⟩, fun h0 => ⟨rfl, ?_⟩⟩
    · have hpush := hp.push hr hs hout
      have hbyte : core.cache + UInt8.ofNat (core.low / 0x100000000) =
          UInt8.ofNat (core.cache.toNat + core.low / 2 ^ 32) := by
        rw [UInt8.ofNat_add, UInt8.ofNat_toNat]
        rfl
      have hfull : (0xFF : UInt8) + UInt8.ofNat (core.low / 0x100000000) =
          UInt8.ofNat (core.low / 2 ^ 32 + 255) := by
        rw [UInt8.ofNat_add, UInt8.add_comm]
        rfl
      have hcache : (UInt8.ofNat (core.low % 2 ^ 32 / 2 ^ 24)).toNat =
          core.low % 2 ^ 32 / 2 ^ 24 :=
        UInt8.toNat_ofNat_of_lt' (by show _ < 256; omega)
      simp only [hbyte, hfull, hcache]
      exact hpush
    · rw [h0]
      rfl
  · have hwait : ¬(core.low % 2 ^ 32 < 0xFF000000 ∨ core.low / 2 ^ 32 ≠ 0) := by
      simpa [shifts] using hshifts
    refine ⟨core.cache, core.cacheSize + 1, x.rc, .one ?_, ⟨Nat.succ_ne_zero _, ?_⟩,
      fun h0 => absurd (.inl (by rw [h0]; decide)) hwait⟩
    · apply (hstep core.cacheSize core.cache x).trans
      have hshifts' : ¬Bcj2Enc.shifts { core with
          cacheSize := core.cacheSize, cache := core.cache } = true := hshifts
      simp only [shiftPhase, shiftStep, hshifts', shifted, hlow]
      rfl
    · change Pending x.rc core.cache.toNat (core.cacheSize + 1 - 1) _ e.wider
      rw [hn]
      exact hp.wait hs hwait

/-- The normalization before the next byte, if the interval has become narrow. -/
theorem Carry.widen {core : Bcj2Enc} {x : EncSupply} {e : Exact ℕ} (h : Carry core x.rc e)
    (hrange : e.range = core.range) (hr : 0 < e.range) :
    ∃ b n l rc, encMachine.Steps (⟨.loop, core⟩, x)
        (⟨.loop, { core with cacheSize := n, cache := b, low := l, range := e.widen.range }⟩,
          { x with rc }) ∧
      Carry { core with cacheSize := n, cache := b, low := l, range := e.widen.range } rc
        e.widen := by
  unfold Exact.widen
  by_cases hlow : e.range < 2 ^ 24
  · have hlow' : core.range < bcj2TopValue := hrange ▸ hlow
    obtain ⟨b, n, rc, hsteps, hcarry, -⟩ := h.shift (p := .loop)
      (f := fun e => { e with range := e.range * 256 }) hr hlow.le
      (fun n b x => if_pos hlow')
    rw [if_pos hlow]
    refine ⟨b, n, _, rc, ?_, hcarry.waits, hcarry.pending⟩
    rw [hrange]
    exact hsteps
  · rw [if_neg hlow, hrange]
    exact ⟨core.cache, core.cacheSize, core.low, x.rc, .refl, h.waits, h.pending⟩

/-- One of the bytes of the flush. -/
theorem Carry.flushOne {core : Bcj2Enc} {x : EncSupply} {e : Exact ℕ} (h : Carry core x.rc e)
    (hr : e.range = 1) (hrem : core.flushRem ≠ 0) :
    ∃ core' rc, encMachine.Steps (⟨.flush, core⟩, x) (⟨.flush, core'⟩, { x with rc }) ∧
      Carry core' rc e.wider.point ∧ core'.low = core.low % 2 ^ 24 * 256 ∧
      core'.flushRem = core.flushRem - 1 ∧
      (core.low = 0 → core'.cacheSize = 1 ∧ core'.cache = 0) := by
  obtain ⟨b, n, rc, hsteps, hcarry, hempty⟩ := h.shift (p := .flush)
    (f := fun e => { e with flushRem := e.flushRem - 1 }) (by omega)
    (by rw [hr]; norm_num) (fun n b x => if_neg hrem)
  refine ⟨_, rc, hsteps, ⟨hcarry.waits, ?_⟩, rfl, rfl, hempty⟩
  exact hcarry.pending.point (by show 0 < e.range * 256; omega)

/-- A flushed encoder has written the lower end of its interval. -/
theorem Carry.flush {core : Bcj2Enc} {x : EncSupply} {e : Exact ℕ} (h : Carry core x.rc e)
    (hr : 0 < e.range) (hrem : core.flushRem = 5) :
    ∃ core' rc, encMachine.Stops (⟨.flush, core⟩, x) (⟨.flush, core'⟩, { x with rc }) ∧
      value rc = e.low ∧ rc.length = e.digits + 5 := by
  have h0 : Carry core x.rc e.point := ⟨h.waits, h.pending.point hr⟩
  obtain ⟨c₁, rc₁, hs1, h1, hl1, hf1, -⟩ := h0.flushOne rfl (by omega)
  obtain ⟨c₂, rc₂, hs2, h2, hl2, hf2, -⟩ := Carry.flushOne (x := { x with rc := rc₁ }) h1 rfl
    (by omega)
  obtain ⟨c₃, rc₃, hs3, h3, hl3, hf3, -⟩ := Carry.flushOne (x := { x with rc := rc₂ }) h2 rfl
    (by omega)
  obtain ⟨c₄, rc₄, hs4, h4, hl4, hf4, -⟩ := Carry.flushOne (x := { x with rc := rc₃ }) h3 rfl
    (by omega)
  obtain ⟨c₅, rc₅, hs5, h5, hl5, hf5, hend⟩ := Carry.flushOne (x := { x with rc := rc₄ }) h4 rfl
    (by omega)
  -- With `low` empty the last of the five leaves nothing behind.
  have hempty : c₄.low = 0 := by omega
  obtain ⟨hsize, hcache⟩ := hend hempty
  have hdigits := h5.pending.digits
  have hsums := h5.pending.sums
  rw [hsize, hcache, hl5, hempty] at hsums
  rw [hsize] at hdigits
  refine ⟨c₅, rc₅, ⟨hs1.trans (hs2.trans (hs3.trans (hs4.trans hs5))), ?_⟩, ?_, ?_⟩
  · exact if_pos (by show c₅.flushRem = 0; omega)
  · simp only [Exact.wider, Exact.point, UInt8.toNat_zero, pow_zero, mul_one, Nat.sub_self]
      at hsums
    omega
  · simp only [Exact.wider, Exact.point] at hdigits
    omega

end LzmaTurbo.Filters.Bcj2Enc
