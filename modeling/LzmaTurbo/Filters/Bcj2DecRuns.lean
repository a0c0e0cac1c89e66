import LzmaTurbo.Filters.Bcj2DecSteps

/-!
# The BCJ2 decoder goes on until it is blocked
-/
namespace LzmaTurbo.Filters.Bcj2Dec
open Supplies

/-- The probabilities stay where a bound is neither nothing nor the whole range, so the range
is never below what one byte makes up for. -/
structure Good (m : Micro) : Prop where
  probs : ∀ i, 31 ≤ m.core.probs i ∧ m.core.probs i ≤ 2017
  range : m.phase ≠ .prime → 0x10000 ≤ m.core.range
  scan : m.phase = .scan → 0x1000000 ≤ m.core.range

theorem decodeBit_good {d : Bcj2Dec} (v : UInt32)
    (hprobs : ∀ i, 31 ≤ d.probs i ∧ d.probs i ≤ 2017) (hrange : 0x1000000 ≤ d.range) :
    (∀ i, 31 ≤ (d.decodeBit v).2.probs i ∧ (d.decodeBit v).2.probs i ≤ 2017) ∧
      0x10000 ≤ (d.decodeBit v).2.range := by
  have hp := hprobs (probIndex v)
  obtain ⟨hbelow, habove⟩ := bound_splits hp hrange
  by_cases hc : d.code < d.range / bcj2BitModelTotal * d.probs (probIndex v)
  · unfold decodeBit
    dsimp only
    rw [if_pos hc]
    refine ⟨update_stays hprobs _ ?_, hbelow⟩
    simp only [bcj2BitModelTotal]
    omega
  · unfold decodeBit
    dsimp only
    rw [if_neg hc]
    exact ⟨update_stays hprobs _ (by omega), habove⟩

theorem decided_good {d : Bcj2Dec} (v : UInt32)
    (hprobs : ∀ i, 31 ≤ d.probs i ∧ d.probs i ≤ 2017) (hrange : 0x1000000 ≤ d.range) :
    Good (decided d v) ∧ (decided d v).phase ≠ .prime := by
  obtain ⟨hp, hr⟩ := decodeBit_good v hprobs hrange
  unfold decided
  split <;> exact ⟨⟨hp, fun _ => hr, fun h => by cases h⟩, fun h => by cases h⟩

theorem copy_copy {s : Bcj2DecStreams} (n : ℕ) : (s.copy 1).copy n = s.copy (n + 1) := by
  have htake : s.main.take 1 ++ (s.main.drop 1).take n = s.main.take (n + 1) := by
    rw [Nat.add_comm n 1, List.take_add]
  have hroom : s.room - 1 - n = s.room - (n + 1) := by omega
  simp only [Bcj2DecStreams.copy, List.drop_drop, List.append_assoc, htake, hroom,
    Nat.add_comm 1 n]

theorem copy_zero (s : Bcj2DecStreams) : s.copy 0 = s := by
  simp [Bcj2DecStreams.copy]

theorem ip_add (ip : UInt32) (n : ℕ) : ip + 1 + UInt32.ofNat n = ip + UInt32.ofNat (n + 1) := by
  rw [UInt32.ofNat_add, UInt32.add_assoc, UInt32.add_comm 1]
  rfl

/-- Where a scan leaves the machine. -/
def scanned (core : Bcj2Dec) (r : ℕ × UInt32 × Bool) : Micro :=
  if r.2.2 then decided { core with ip := core.ip + UInt32.ofNat r.1 } r.2.1
  else ⟨.scan, r.2.1, { core with ip := core.ip + UInt32.ofNat r.1 }⟩

/-- The copy loop byte by byte: to a marker and its bit, or as far as it may go. -/
theorem scan_steps (n : ℕ) (v : UInt32) (core : Bcj2Dec) (s : Bcj2DecStreams)
    (hn : n ≤ min s.main.length s.room) :
    machine.Steps (⟨.scan, v, core⟩, s)
      (scanned core (scanMain n s.main v), s.copy (scanMain n s.main v).1) := by
  induction n generalizing v core s with
  | zero =>
      have hip : core.ip + UInt32.ofNat 0 = core.ip := UInt32.add_zero _
      simp only [scanMain, copy_zero, scanned, hip]
      exact .refl
  | succ n ih =>
      cases hmain : s.main with
      | nil => rw [hmain] at hn; simp at hn
      | cons b main =>
          have hroom : s.room ≠ 0 := by omega
          have hlen : s.main.length = main.length + 1 := by rw [hmain]; rfl
          rw [scanMain]
          by_cases hb : isMarker v b
          · refine .one ?_
            show scanStep _ s = _
            simp [scanStep, hmain, hroom, hb, scanned]
          · have hstep : machine.step ⟨.scan, v, core⟩ s =
                some (⟨.scan, rolled v b, { core with ip := core.ip + 1 }⟩, s.copy 1) := by
              change scanStep _ s = _
              simp [scanStep, hmain, hroom, hb]
            have hnext : (s.copy 1).main = main := by simp [Bcj2DecStreams.copy, hmain]
            have hfits : n ≤ min (s.copy 1).main.length (s.copy 1).room := by
              rw [hnext]
              change n ≤ min main.length (s.room - 1)
              omega
            have hrest := ih (rolled v b) { core with ip := core.ip + 1 } (s.copy 1) hfits
            rw [hnext] at hrest
            refine .head hstep ?_
            simpa only [hb, scanned, ip_add, copy_copy, if_false, Bool.false_eq_true] using hrest

/-- The bytes of a target go out while there is room. -/
theorem emit_steps (left : ℕ) (hleft : left ≠ 0) (v : UInt32) (core : Bcj2Dec)
    (s : Bcj2DecStreams) :
    machine.Steps (⟨.emit left, v, core⟩, s)
        (⟨if (flushTarget left v s).1 = 0 then .top else .emit (flushTarget left v s).1,
          (flushTarget left v s).2.1, core⟩, (flushTarget left v s).2.2) ∧
      ((flushTarget left v s).1 ≠ 0 → (flushTarget left v s).2.2.room = 0) := by
  induction left generalizing v s with
  | zero => exact absurd rfl hleft
  | succ left ih =>
      rw [flushTarget]
      by_cases hroom : s.room = 0
      · simp only [hroom, if_true]
        exact ⟨.refl, fun _ => trivial⟩
      · rw [if_neg hroom]
        by_cases h0 : left = 0
        · rw [if_pos h0]
          refine ⟨.one ?_, fun h => absurd rfl h⟩
          change emitStep _ s (left + 1) = _
          simp [emitStep, hroom, h0]
        · rw [if_neg h0]
          have hrest := ih h0 (v >>> 8) (s.put v.toUInt8)
          refine ⟨.head (b := (⟨.emit left, v >>> 8, core⟩, s.put v.toUInt8)) ?_ hrest.1, hrest.2⟩
          change emitStep _ s (left + 1) = _
          simp [emitStep, hroom, h0]

theorem putPart_eq (left : ℕ) (v : UInt32) (s : Bcj2DecStreams) (h : s.room < left) :
    flushTarget left v s = (left - s.room, putPart s.room v s) := by
  induction left generalizing v s with
  | zero => omega
  | succ left ih =>
      rw [flushTarget]
      cases hroom : s.room with
      | zero => rfl
      | succ room =>
          have hnext : (s.put v.toUInt8).room = room := by
            change s.room - 1 = room
            omega
          rw [if_neg (Nat.succ_ne_zero _), if_neg (by omega), ih _ _ (by omega), hnext, putPart]
          congr 1
          omega

theorem shift_shift (v : UInt32) : v >>> 8 >>> 8 = v >>> 16 ∧ v >>> 16 >>> 8 = v >>> 24 := by
  constructor <;> apply UInt32.toNat_inj.1 <;>
    simp [UInt32.toNat_shiftRight, ← Nat.shiftRight_add]

theorem putWhole_eq (v : UInt32) (s : Bcj2DecStreams) (h : 4 ≤ s.room) :
    flushTarget 4 v s = (0, v >>> 24, putWhole v s) := by
  have hput (s : Bcj2DecStreams) (b : UInt8) : (s.put b).room = s.room - 1 := rfl
  have h0 : s.room ≠ 0 := by omega
  have h1 : s.room - 1 ≠ 0 := by omega
  have h2 : s.room - 1 - 1 ≠ 0 := by omega
  have h3 : s.room - 1 - 1 - 1 ≠ 0 := by omega
  simp only [flushTarget, hput, h0, h1, h2, h3, if_false, if_true, (shift_shift v).1,
    (shift_shift v).2, putWhole]
  rfl

/-- What `state` says once the range coder is primed. -/
def placed (state : ℕ) (v : UInt32) (core : Bcj2Dec) : Micro :=
  if is32bitStream state then ⟨.target state, 0, core⟩
  else if decStateOrig0 ≤ state ∧ state < decStateOrig then
    ⟨.emit (decStateOrig - state), v, core⟩
  else if state = streamRc then ⟨.top, v, core⟩
  else ⟨.scan, v, core⟩

/-- Where a decoder stands between two calls. -/
def abs (d : Bcj2Dec) : Micro :=
  if d.range ≤ 5 then ⟨.prime, d.temp, d.bare⟩ else placed d.state d.temp d.bare

def Micro.normalized (m : Micro) (b : UInt8) : Micro := { m with core := m.core.normalized b }

/-- In the middle of a converted branch, where the range coder is not looked at. -/
def Micro.midTarget (m : Micro) : Bool :=
  match m.phase with
  | .target _ | .emit _ => true
  | _ => false

/-- The decoder stands where the machine does, or is one normalization ahead. -/
inductive Stands : Bcj2Dec → Bcj2DecStreams → Micro → Bcj2DecStreams → Prop
  | same (d : Bcj2Dec) (s : Bcj2DecStreams) : Stands d s (abs d) s
  | ahead {d : Bcj2Dec} {s : Bcj2DecStreams} {m : Micro} (b : UInt8) :
      m.midTarget = true → m.core.range < bcj2TopValue → abs d = m.normalized b →
        Stands d s m { s with rc := b :: s.rc }

theorem abs_normalized {d : Bcj2Dec} (b : UInt8) (h : 5 < d.range) :
    abs (d.normalized b) = (abs d).normalized b := by
  have h' : ¬(d.normalized b).range ≤ 5 := by
    change ¬d.range * 256 ≤ 5
    omega
  have hplaced : placed d.state d.temp (d.bare.normalized b) =
      (placed d.state d.temp d.bare).normalized b := by
    unfold placed Micro.normalized
    split_ifs <;> rfl
  rw [abs, if_neg h', abs, if_neg (Nat.not_le.2 h)]
  exact hplaced

theorem lastNormalize_stands {d : Bcj2Dec} (s : Bcj2DecStreams) (h : 5 < d.range)
    (hmid : (abs d).midTarget = true) (hcore : (abs d).core.range = d.range) :
    Stands (d.lastNormalize s).1 (d.lastNormalize s).2 (abs d) s := by
  unfold lastNormalize
  split
  next hlow =>
    split
    · exact .same d s
    next b rc hrc =>
      have hs : s = { { s with rc } with rc := b :: rc } := by rw [← hrc]
      conv => rhs; rw [hs]
      exact .ahead b hmid (hcore ▸ hlow) (abs_normalized b h)
  · exact .same d s

@[simp] theorem lastNormalize_requiredInput (d : Bcj2Dec) (s : Bcj2DecStreams) :
    (d.lastNormalize s).1.requiredInput = d.requiredInput := by
  unfold lastNormalize
  split
  · split <;> rfl
  · rfl

theorem requiredInput_side {d : Bcj2Dec} (h : is32bitStream d.state = true) :
    d.requiredInput = some d.state := by
  have hlt : d.state < bcj2NumStreams := by
    simp only [is32bitStream, streamCall, streamJump, Bool.or_eq_true, beq_iff_eq] at h
    simp only [bcj2NumStreams]
    omega
  exact if_pos hlt

theorem requiredInput_owing {d : Bcj2Dec} (h : decStateOrig0 ≤ d.state) :
    d.requiredInput = none :=
  if_neg (Nat.not_lt.2 h)

theorem bare_decodeBit (d : Bcj2Dec) (v : UInt32) :
    d.bare.decodeBit v = ((d.decodeBit v).1, (d.decodeBit v).2.bare) := by
  unfold decodeBit
  by_cases hc : d.code < d.range / bcj2BitModelTotal * d.probs (probIndex v)
  · have hc' : d.bare.code <
        d.bare.range / bcj2BitModelTotal * d.bare.probs (probIndex v) := hc
    dsimp only
    rw [if_pos hc, if_pos hc']
    rfl
  · have hc' : ¬d.bare.code <
        d.bare.range / bcj2BitModelTotal * d.bare.probs (probIndex v) := hc
    dsimp only
    rw [if_neg hc, if_neg hc']
    rfl

/-- The stream a blocked machine waits for, if it does not wait for room. -/
def wants (m : Micro) (t : Bcj2DecStreams) : Option ℕ :=
  match m.phase with
  | .prime | .top => some streamRc
  | .scan => if t.main = [] then some streamMain else none
  | .target cj => some cj
  | .emit _ => none

/-- What a turn of the main loop comes to for the machine. -/
def Turned (a : Micro × Bcj2DecStreams) : Turn → Prop
  | .stop d s => ∃ m t, machine.Stops a (m, t) ∧ Stands d s m t ∧ Good m ∧ m.phase ≠ .prime ∧
      d.requiredInput = wants m t
  | .again d v s => machine.Steps a (⟨.top, v, d.bare⟩, s) ∧ Good ⟨.top, v, d.bare⟩

theorem Turned.from {a b : Micro × Bcj2DecStreams} {t : Turn} (hab : machine.Steps a b)
    (h : Turned b t) : Turned a t := by
  cases t with
  | stop d s =>
      obtain ⟨m, t, hstop, hrest⟩ := h
      exact ⟨m, t, hab.stops hstop, hrest⟩
  | again d v s => exact ⟨hab.trans h.1, h.2⟩

theorem abs_target {d : Bcj2Dec} {cj : ℕ} (hcj : is32bitStream cj = true) (h : 5 < d.range) :
    abs { d with state := cj } = ⟨.target cj, 0, d.bare⟩ := by
  rw [abs, if_neg (Nat.not_le.2 h), placed, if_pos hcj]
  rfl

theorem abs_emit {d : Bcj2Dec} {state : ℕ} {v : UInt32} (h : 5 < d.range)
    (hlo : decStateOrig0 ≤ state) (hhi : state < decStateOrig) :
    abs { d with state, temp := v } = ⟨.emit (decStateOrig - state), v, d.bare⟩ := by
  have hside : is32bitStream state = false := by
    simp only [decStateOrig0, bcj2NumStreams] at hlo
    simp only [is32bitStream, streamCall, streamJump, Bool.or_eq_false_iff, beq_eq_false_iff_ne]
    omega
  rw [abs, if_neg (Nat.not_le.2 h), placed, if_neg (by simp [hside]), if_pos ⟨hlo, hhi⟩]
  rfl

/-- Without room for a whole target the call ends with the rest of it owed. -/
theorem emitted_stops {d : Bcj2Dec} {v : UInt32} {s : Bcj2DecStreams} {left : ℕ}
    (hgood : Good ⟨.emit left, v, d.bare⟩) (hroom : s.room = 0) :
    machine.Blocked (⟨.emit left, v, d.bare⟩, s) := by
  change emitStep _ s left = none
  cases left with
  | zero => rfl
  | succ left => simp [emitStep, hroom]

theorem branchTurn_turned {d : Bcj2Dec} (v : UInt32) (s : Bcj2DecStreams)
    (hgood : Good ⟨.target (branchStream v), 0, d.bare⟩) :
    Turned (⟨.target (branchStream v), 0, d.bare⟩, s) (branchTurn d v s) := by
  have hside := branchStream_side v
  have hrange : 0x10000 ≤ d.range := hgood.range (fun h => by cases h)
  unfold branchTurn
  split
  next a b c e rest hword =>
    dsimp only
    have hfetch : machine.Steps (⟨.target (branchStream v), 0, d.bare⟩, s)
        (⟨.emit 4, getBe32 a b c e - (d.ip + 4), { d with ip := d.ip + 4 }.bare⟩,
          s.setSide (branchStream v) rest) := by
      refine .one ?_
      show targetStep _ _ s = _
      simp only [targetStep, hword]
      rfl
    have hemit := (emit_steps 4 (by decide) (getBe32 a b c e - (d.ip + 4))
      { d with ip := d.ip + 4 }.bare (s.setSide (branchStream v) rest))
    split
    next hroom =>
      rw [putPart_eq _ _ _ hroom] at hemit
      have hleft : 4 - (s.setSide (branchStream v) rest).room ≠ 0 := by omega
      simp only [if_neg hleft] at hemit
      apply Turned.from (hfetch.trans hemit.1)
      have habs : abs { { d with ip := d.ip + 4 } with
            state := decStateOrig0 + (s.setSide (branchStream v) rest).room
            temp := (putPart (s.setSide (branchStream v) rest).room
              (getBe32 a b c e - (d.ip + 4)) (s.setSide (branchStream v) rest)).1 } =
          ⟨.emit (4 - (s.setSide (branchStream v) rest).room),
            (putPart (s.setSide (branchStream v) rest).room
              (getBe32 a b c e - (d.ip + 4)) (s.setSide (branchStream v) rest)).1,
            { d with ip := d.ip + 4 }.bare⟩ := by
        rw [abs_emit (by show 5 < d.range; omega) (Nat.le_add_right _ _)
          (by simp only [decStateOrig0, decStateOrig]; omega)]
        congr 2
        simp only [decStateOrig0, decStateOrig]
        omega
      have hlast := lastNormalize_stands
        (putPart (s.setSide (branchStream v) rest).room (getBe32 a b c e - (d.ip + 4))
          (s.setSide (branchStream v) rest)).2
        (d := { { d with ip := d.ip + 4 } with
            state := decStateOrig0 + (s.setSide (branchStream v) rest).room
            temp := (putPart (s.setSide (branchStream v) rest).room
              (getBe32 a b c e - (d.ip + 4)) (s.setSide (branchStream v) rest)).1 })
        (by show 5 < d.range; omega) (by rw [habs]; rfl) (by rw [habs]; rfl)
      rw [habs] at hlast
      refine ⟨_, _, ⟨.refl, ?_⟩, hlast, ⟨hgood.probs, fun _ => hrange, fun h => by cases h⟩,
        (fun h => by cases h), ?_⟩
      rotate_left
      · rw [lastNormalize_requiredInput]
        exact requiredInput_owing (Nat.le_add_right _ _)
      exact emitted_stops ⟨hgood.probs, fun _ => hrange, fun h => by cases h⟩ (hemit.2 hleft)
    next hroom =>
      rw [putWhole_eq _ _ (Nat.not_lt.1 hroom)] at hemit
      exact ⟨hfetch.trans hemit.1, ⟨hgood.probs, fun _ => hrange, fun h => by cases h⟩⟩
  next hword =>
    have habs := abs_target (d := d) hside (by omega)
    have hlast := lastNormalize_stands s (d := { d with state := branchStream v })
      (by show 5 < d.range; omega) (by rw [habs]; rfl) (by rw [habs]; rfl)
    rw [habs] at hlast
    refine ⟨_, _, ⟨.refl, ?_⟩, hlast, hgood, (fun h => by cases h), ?_⟩
    rotate_left
    · rw [lastNormalize_requiredInput]
      exact requiredInput_side hside
    change targetStep _ _ s = none
    unfold targetStep
    split
    next a b c e rest hword' => exact absurd hword' (hword a b c e rest)
    · rfl

theorem decided_turned {d : Bcj2Dec} (v : UInt32) (s : Bcj2DecStreams)
    (hprobs : ∀ i, 31 ≤ d.probs i ∧ d.probs i ≤ 2017) (hrange : 0x1000000 ≤ d.range) :
    Turned (decided d.bare v, s)
      (if (d.decodeBit v).1 then branchTurn (d.decodeBit v).2 v s
        else .again (d.decodeBit v).2 v s) := by
  have hgood := (decided_good (d := d.bare) v hprobs hrange).1
  unfold decided at hgood ⊢
  rw [bare_decodeBit] at hgood ⊢
  split
  next hbit =>
    rw [if_pos hbit] at hgood
    exact branchTurn_turned v s hgood
  next hbit =>
    rw [if_neg hbit] at hgood
    exact ⟨.refl, hgood⟩

/-- A scan that ends without a marker has used up the input or the room. -/
theorem copy_blocked {core : Bcj2Dec} {v : UInt32} {s : Bcj2DecStreams} {n : ℕ}
    (h : n = min s.main.length s.room) :
    machine.Blocked (⟨.scan, v, core⟩, s.copy n) := by
  change scanStep _ (s.copy n) = none
  unfold scanStep
  split
  · rfl
  next b main hmain =>
    have hleft : (s.copy n).main.length = s.main.length - n := List.length_drop
    rw [hmain, List.length_cons] at hleft
    rw [if_pos]
    change s.room - n = 0
    omega

theorem abs_scan {d : Bcj2Dec} {state : ℕ} {v : UInt32} (h : 5 < d.range)
    (hstate : state = streamMain ∨ state = decStateOrig) :
    abs { d with state, temp := v } = ⟨.scan, v, d.bare⟩ := by
  rw [abs, if_neg (Nat.not_le.2 h)]
  rcases hstate with rfl | rfl <;> rfl

/-- Where a call stops that met no marker. -/
theorem unmarked_turned {d : Bcj2Dec} (v : UInt32) {s : Bcj2DecStreams} {n : ℕ}
    (hprobs : ∀ i, 31 ≤ d.probs i ∧ d.probs i ≤ 2017) (hrange : 0x1000000 ≤ d.range)
    (h : n = min s.main.length s.room) :
    Turned (⟨.scan, v, d.bare⟩, s.copy n) (.stop { d with
      state := if (s.copy n).main = [] then streamMain else decStateOrig, temp := v }
      (s.copy n)) := by
  have habs := @abs_scan d (if (s.copy n).main = [] then streamMain else decStateOrig) v
    (by omega) (by split <;> simp)
  exact ⟨_, _, ⟨.refl, copy_blocked h⟩, habs ▸ Stands.same _ _,
    ⟨hprobs, fun _ => by show 0x10000 ≤ d.range; omega, fun _ => hrange⟩,
    (fun h => by cases h), by unfold requiredInput wants; dsimp only; split <;> rfl⟩

theorem scanTurn_turned {d : Bcj2Dec} (v : UInt32) (s : Bcj2DecStreams)
    (hgood : Good ⟨.scan, v, d.bare⟩) :
    Turned (⟨.scan, v, d.bare⟩, s) (scanTurn copyMainScan d v s) := by
  have hrange : 0x1000000 ≤ d.range := hgood.scan rfl
  have hsteps := scan_steps (min s.main.length s.room) v d.bare s (Nat.le_refl _)
  have hscan : copyMainScan.scan s.main s.room v =
      scanMain (min s.main.length s.room) s.main v := copyMain_eq _ _ _
  have hbounds := scanMain_bounds (min s.main.length s.room) s.main v
  unfold scanTurn
  rw [hscan]
  dsimp only
  split
  next hf =>
    rw [scanned, if_pos hf] at hsteps
    exact Turned.from hsteps (decided_turned _ _ hgood.probs hrange)
  next hf =>
    rw [scanned, if_neg hf] at hsteps
    have hwhole := hbounds.2.2.2 (Bool.not_eq_true _ ▸ hf) (Nat.min_le_left _ _)
    exact Turned.from hsteps
      (unmarked_turned (d := { d with ip := _ }) _ hgood.probs hrange hwhole)

theorem mainTurn_turned {d : Bcj2Dec} (v : UInt32) (s : Bcj2DecStreams)
    (hgood : Good ⟨.top, v, d.bare⟩) :
    Turned (⟨.top, v, d.bare⟩, s) (mainTurn copyMainScan d v s) := by
  have hrange : 0x10000 ≤ d.range := hgood.range (fun h => by cases h)
  unfold mainTurn
  split
  next hlow =>
    split
    next hrc =>
      refine ⟨_, _, ⟨.refl, ?_⟩, ?_, hgood, (fun h => by cases h), rfl⟩
      · change topStep _ s = none
        have hlow' : d.bare.range < bcj2TopValue := hlow
        simp only [topStep, hlow', if_true, hrc]
      · have habs : abs { d with state := streamRc, temp := v } = ⟨.top, v, d.bare⟩ := by
          rw [abs, if_neg (by show ¬d.range ≤ 5; omega)]
          rfl
        exact habs ▸ Stands.same _ s
    next b rc hrc =>
      refine Turned.from (b := (⟨.scan, v, (d.normalized b).bare⟩, { s with rc })) (.one ?_)
        (scanTurn_turned _ _ ⟨hgood.probs, fun _ => ?_, fun _ => ?_⟩)
      · change topStep _ s = _
        have hlow' : d.bare.range < bcj2TopValue := hlow
        simp only [topStep, hlow', if_true, hrc]
        rfl
      · change 0x10000 ≤ d.range * 256
        omega
      · change 0x1000000 ≤ d.range * 256
        omega
  next hhigh =>
    have hhigh' : ¬d.bare.range < bcj2TopValue := hhigh
    refine Turned.from (b := (⟨.scan, v, d.bare⟩, s)) (.one ?_)
      (scanTurn_turned _ _ ⟨hgood.probs, fun _ => hrange, fun _ => Nat.not_lt.1 hhigh⟩)
    change topStep _ s = _
    simp only [topStep, hhigh', if_false]

/-- The main loop goes on until the machine is blocked. -/
theorem mainLoop_stands {d : Bcj2Dec} (v : UInt32) (s : Bcj2DecStreams)
    (hgood : Good ⟨.top, v, d.bare⟩) :
    Turned (⟨.top, v, d.bare⟩, s)
      (.stop (mainLoop copyMainScan d v s).1 (mainLoop copyMainScan d v s).2) := by
  fun_induction mainLoop copyMainScan d v s with
  | case1 d v s d' s' h => exact h ▸ mainTurn_turned v s hgood
  | case2 d v s d' v' s' h ih =>
      have hturn := h ▸ mainTurn_turned v s hgood
      exact Turned.from hturn.1 (ih hturn.2)

/-- The streams of the machine: those of the decoder, or one byte more. -/
theorem Stands.streams {d : Bcj2Dec} {s t : Bcj2DecStreams} {m : Micro} (h : Stands d s m t) :
    t.main = s.main ∧ t.call = s.call ∧ t.jump = s.jump ∧ t.room = s.room ∧ t.dest = s.dest := by
  cases h with
  | same => exact ⟨rfl, rfl, rfl, rfl, rfl⟩
  | ahead => exact ⟨rfl, rfl, rfl, rfl, rfl⟩

theorem Stands.offer {d : Bcj2Dec} {s t : Bcj2DecStreams} {m : Micro} (h : Stands d s m t)
    (e : Refill) : Stands d (offer s e) m (Bcj2Dec.offer t e) := by
  cases h with
  | same => exact .same d _
  | ahead b hmid hlow habs => exact .ahead b hmid hlow habs

/-- The core of a machine whose decoder has made the next normalization. -/
def Ahead (d : Bcj2Dec) (s : Bcj2DecStreams) (core : Bcj2Dec) (t : Bcj2DecStreams) : Prop :=
  (core = d.bare ∧ t = s) ∨
    ∃ b, core.range < bcj2TopValue ∧ d.bare = core.normalized b ∧
      t = { s with rc := b :: s.rc }

/-- At its top the main loop makes the normalization that the decoder may have made. -/
theorem mainLoop_ahead {d core : Bcj2Dec} {v : UInt32} {s t : Bcj2DecStreams}
    (h : Ahead d s core t) (hgood : Good ⟨.top, v, core⟩) :
    Turned (⟨.top, v, core⟩, t)
      (.stop (mainLoop copyMainScan d v s).1 (mainLoop copyMainScan d v s).2) := by
  rcases h with ⟨rfl, rfl⟩ | ⟨b, hlow, hcore, rfl⟩
  · exact mainLoop_stands v _ hgood
  · have hrange : 0x10000 ≤ core.range := hgood.range (fun h => by cases h)
    have hd : d.range = core.range * 256 := congrArg Bcj2Dec.range hcore
    have hprobs : d.bare.probs = (core.normalized b).probs := by rw [hcore]
    have hgood' : Good ⟨.top, v, d.bare⟩ :=
      ⟨fun i => by show 31 ≤ d.probs i ∧ d.probs i ≤ 2017; exact hprobs ▸ hgood.probs i,
        fun _ => by show 0x10000 ≤ d.range; omega, fun h => by cases h⟩
    obtain ⟨m, t, hstop, hrest⟩ := mainLoop_stands v s hgood'
    have hexact : machine.Steps (⟨.top, v, d.bare⟩, s) (⟨.scan, v, d.bare⟩, s) := by
      refine .one ?_
      show topStep _ s = _
      have hhigh : ¬d.bare.range < bcj2TopValue := by
        change ¬d.range < 0x1000000
        omega
      simp only [topStep, hhigh, if_false]
    have hlag : machine.Steps (⟨.top, v, core⟩, { s with rc := b :: s.rc })
        (⟨.scan, v, d.bare⟩, s) := by
      refine .one ?_
      show topStep _ _ = _
      simp only [topStep, hlow, if_true, hcore]
    exact ⟨m, t, hlag.stops (hstop.after hexact), hrest⟩

theorem flushTarget_rc (left : ℕ) (v : UInt32) (s : Bcj2DecStreams) (rc : List UInt8) :
    (flushTarget left v s).2.2.rc = s.rc ∧
      flushTarget left v { s with rc } = ((flushTarget left v s).1, (flushTarget left v s).2.1,
        { (flushTarget left v s).2.2 with rc }) := by
  induction left generalizing v s with
  | zero => exact ⟨rfl, rfl⟩
  | succ left ih =>
      rw [flushTarget, flushTarget]
      by_cases hroom : s.room = 0
      · rw [if_pos hroom, if_pos hroom]
        exact ⟨rfl, rfl⟩
      · rw [if_neg hroom, if_neg hroom]
        by_cases h0 : left = 0
        · rw [if_pos h0, if_pos h0]
          exact ⟨rfl, rfl⟩
        · rw [if_neg h0, if_neg h0]
          exact ih (v >>> 8) (s.put v.toUInt8)

theorem flushTarget_le (left : ℕ) (v : UInt32) (s : Bcj2DecStreams) :
    (flushTarget left v s).1 ≤ left := by
  fun_induction flushTarget left v s <;> omega

theorem Ahead.flush {d core : Bcj2Dec} {s t : Bcj2DecStreams} (h : Ahead d s core t)
    (left : ℕ) (v : UInt32) :
    (flushTarget left v t).1 = (flushTarget left v s).1 ∧
      (flushTarget left v t).2.1 = (flushTarget left v s).2.1 ∧
      Ahead d (flushTarget left v s).2.2 core (flushTarget left v t).2.2 := by
  rcases h with ⟨rfl, rfl⟩ | ⟨b, hlow, hcore, rfl⟩
  · exact ⟨rfl, rfl, .inl ⟨rfl, rfl⟩⟩
  · obtain ⟨hrc, hflush⟩ := flushTarget_rc left v s (b :: s.rc)
    rw [hflush]
    exact ⟨rfl, rfl, .inr ⟨b, hlow, hcore, by rw [hrc]⟩⟩

/-- A decoder in the middle of a target stands where its machine does or ahead of it. -/
theorem Ahead.stands {d core : Bcj2Dec} {s t : Bcj2DecStreams} (h : Ahead d s core t)
    {phase : Phase} {v : UInt32} (hmid : Micro.midTarget ⟨phase, v, core⟩ = true)
    (habs : abs d = ⟨phase, v, d.bare⟩) : Stands d s ⟨phase, v, core⟩ t := by
  rcases h with ⟨rfl, rfl⟩ | ⟨b, hlow, hcore, rfl⟩
  · exact habs ▸ .same d _
  · exact .ahead b hmid hlow (by rw [habs, hcore]; rfl)

theorem Ahead.range {d core : Bcj2Dec} {s t : Bcj2DecStreams} (h : Ahead d s core t)
    (hrange : 0x10000 ≤ core.range) : 5 < d.range := by
  rcases h with ⟨rfl, rfl⟩ | ⟨b, hlow, hcore, rfl⟩
  · change 5 < d.bare.range
    omega
  · have hd : d.range = core.range * 256 := congrArg Bcj2Dec.range hcore
    omega

theorem afterTarget_ahead {d core : Bcj2Dec} {left : ℕ} (v : UInt32) {s t : Bcj2DecStreams}
    (h : Ahead d s core t) (hleft : left ≠ 0) (hle : left ≤ 4)
    (hgood : Good ⟨.emit left, v, core⟩) :
    Turned (⟨.emit left, v, core⟩, t)
      (.stop (afterTarget copyMainScan d left v s).1 (afterTarget copyMainScan d left v s).2) := by
  have hrange : 0x10000 ≤ core.range := hgood.range (fun h => by cases h)
  obtain ⟨hsteps, hfull⟩ := emit_steps left hleft v core t
  obtain ⟨hcount, hv, hahead⟩ := h.flush left v
  rw [hcount, hv] at hsteps
  rw [hcount] at hfull
  apply Turned.from hsteps
  unfold afterTarget
  dsimp only
  split
  next h0 =>
    exact mainLoop_ahead hahead ⟨hgood.probs, fun _ => hrange, fun h => by cases h⟩
  next h0 =>
    have hcount_le := flushTarget_le left v s
    have hgood' : Good ⟨.emit (flushTarget left v s).1, (flushTarget left v s).2.1, core⟩ :=
      ⟨hgood.probs, fun _ => hrange, fun h => by cases h⟩
    have habs := @abs_emit d (decStateOrig - (flushTarget left v s).1) (flushTarget left v s).2.1
      (h.range hrange)
      (by simp only [decStateOrig0, decStateOrig]; omega)
      (by simp only [decStateOrig, bcj2NumStreams]; omega)
    have hcancel : decStateOrig - (decStateOrig - (flushTarget left v s).1) =
        (flushTarget left v s).1 := by
      simp only [decStateOrig, bcj2NumStreams]
      omega
    rw [hcancel] at habs
    refine ⟨_, _, ⟨.refl, ?_⟩, Ahead.stands (d := { d with
      state := decStateOrig - (flushTarget left v s).1
      temp := (flushTarget left v s).2.1 }) hahead rfl habs, hgood', (fun h => by cases h),
      requiredInput_owing (by simp only [decStateOrig0, decStateOrig]; omega)⟩
    change emitStep _ _ _ = none
    cases hf : (flushTarget left v s).1 with
    | zero => rfl
    | succ n => simp [emitStep, hfull h0]

theorem Stands.split {d : Bcj2Dec} {s t : Bcj2DecStreams} {m : Micro} (h : Stands d s m t) :
    m = ⟨(abs d).phase, (abs d).v, m.core⟩ ∧ Ahead d s m.core t ∧
      (m.midTarget = true ∨ m = abs d ∧ t = s) := by
  have hcore : (abs d).core = d.bare := by
    unfold abs placed
    split_ifs <;> rfl
  cases h with
  | same => exact ⟨rfl, .inl ⟨hcore, rfl⟩, .inr ⟨rfl, rfl⟩⟩
  | ahead b hmid hlow habs =>
      refine ⟨by rw [habs]; rfl, .inr ⟨b, hlow, ?_, rfl⟩, .inl hmid⟩
      rw [← hcore, habs]
      rfl

theorem Ahead.setSide {d core : Bcj2Dec} {s t : Bcj2DecStreams} (h : Ahead d s core t)
    (cj : ℕ) (rest : List UInt8) (ip : UInt32) :
    t.side cj = s.side cj ∧ core.ip = d.ip ∧
      Ahead { d with ip } (s.setSide cj rest) { core with ip } (t.setSide cj rest) := by
  rcases h with ⟨rfl, rfl⟩ | ⟨b, hlow, hcore, rfl⟩
  · exact ⟨rfl, rfl, .inl ⟨rfl, rfl⟩⟩
  · have hip : d.bare.ip = (core.normalized b).ip := by rw [hcore]
    refine ⟨by unfold Bcj2DecStreams.side; split <;> rfl, hip.symm, .inr ⟨b, hlow, ?_, ?_⟩⟩
    · change { d.bare with ip } = { core.normalized b with ip }
      rw [hcore]
    · unfold Bcj2DecStreams.setSide
      split <;> rfl

/-- A call on a primed decoder goes on until the machine is blocked. -/
theorem resume_turned {d : Bcj2Dec} {s t : Bcj2DecStreams} {m : Micro} (h : Stands d s m t)
    (hgood : Good m) (hprimed : 5 < d.range) :
    Turned (m, t) (.stop (resume copyMainScan d s).1 (resume copyMainScan d s).2) := by
  have habs : abs d = placed d.state d.temp d.bare := if_neg (Nat.not_le.2 hprimed)
  obtain ⟨hm, hahead, hmid⟩ := h.split
  rw [habs] at hm
  unfold resume
  split
  next hside =>
    rw [placed, if_pos hside] at hm
    rw [hm] at hgood
    have hrange : 0x10000 ≤ m.core.range := hgood.range (fun h => by cases h)
    obtain ⟨hword, hip, -⟩ := hahead.setSide d.state [] 0
    split
    next a b c e rest hd =>
      obtain ⟨-, -, hahead'⟩ := hahead.setSide d.state rest (d.ip + 4)
      have hfetch : machine.Steps (m, t)
          (⟨.emit 4, getBe32 a b c e - (d.ip + 4), { m.core with ip := d.ip + 4 }⟩,
            t.setSide d.state rest) := by
        refine .one ?_
        rw [hm]
        change targetStep _ _ t = _
        simp only [targetStep, hword, hd, hip]
      exact Turned.from hfetch (afterTarget_ahead _ hahead' (by decide) (Nat.le_refl _)
        ⟨hgood.probs, fun _ => hrange, fun h => by cases h⟩)
    next hd =>
      refine ⟨m, t, ⟨.refl, ?_⟩, h, hm ▸ hgood, (by rw [hm]; exact fun h => by cases h),
        by rw [hm]; exact requiredInput_side hside⟩
      rw [hm]
      change targetStep _ _ t = none
      unfold targetStep
      rw [hword]
      split
      next a b c e rest hd' => exact absurd hd' (hd a b c e rest)
      · rfl
  next hside =>
    rw [placed, if_neg hside] at hm
    split
    next howes =>
      rw [if_pos howes] at hm
      rw [hm] at hgood ⊢
      simp only [decStateOrig0, decStateOrig, bcj2NumStreams] at howes
      exact afterTarget_ahead _ hahead (by simp only [decStateOrig, bcj2NumStreams]; omega)
        (by simp only [decStateOrig, bcj2NumStreams]; omega) hgood
    next howes =>
      rw [if_neg howes] at hm
      -- Past a target the decoder is not ahead.
      have hsame : m = abs d ∧ t = s := by
        rcases hmid with hmid | hsame
        · rw [hm] at hmid
          split at hmid <;> cases hmid
        · exact hsame
      obtain ⟨hmabs, rfl⟩ := hsame
      rw [hmabs, habs, placed, if_neg hside, if_neg howes] at hgood ⊢
      split
      next hrc =>
        rw [if_pos hrc] at hgood
        exact mainLoop_stands _ _ hgood
      next hrc =>
        rw [if_neg hrc] at hgood
        have hrange : 0x1000000 ≤ d.range := hgood.scan rfl
        have hgood' : Good ⟨.top, d.temp, d.bare⟩ :=
          ⟨hgood.probs, fun _ => by show 0x10000 ≤ d.range; omega, fun h => by cases h⟩
        obtain ⟨m', t', hstop, hrest⟩ := mainLoop_stands d.temp t hgood'
        have htop : machine.Steps (⟨.top, d.temp, d.bare⟩, t) (⟨.scan, d.temp, d.bare⟩, t) := by
          refine .one ?_
          show topStep _ t = _
          have hhigh : ¬d.bare.range < bcj2TopValue := Nat.not_lt.2 hrange
          simp only [topStep, hhigh, if_false]
        exact ⟨m', t', hstop.after htop, hrest⟩

end LzmaTurbo.Filters.Bcj2Dec
