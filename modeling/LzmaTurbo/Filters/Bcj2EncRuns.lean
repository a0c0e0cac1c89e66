import LzmaTurbo.Filters.Bcj2EncSteps
import Mathlib.Data.UInt

/-!
# What the BCJ2 encoder does its machine can do
-/
namespace LzmaTurbo.Filters

theorem shifted_low (v : UInt32) : v.toUInt8.toUInt32 <<< 24 = v <<< 24 := by
  apply UInt32.toNat_inj.1
  rw [UInt32.toNat_shiftLeft, UInt32.toNat_shiftLeft]
  have h : v.toUInt8.toUInt32.toNat = v.toNat % 256 := rfl
  rw [h]
  simp only [Nat.shiftLeft_eq]
  change v.toNat % 256 * 0x1000000 % 0x100000000 = v.toNat * 0x1000000 % 0x100000000
  omega

/-- Only the last byte of the context matters. -/
theorem rolled_low (v : UInt32) (b : UInt8) : rolled v.toUInt8.toUInt32 b = rolled v b := by
  unfold rolled
  rw [shifted_low]

theorem isMarker_low (v : UInt32) (b : UInt8) : isMarker v.toUInt8.toUInt32 b = isMarker v b := by
  unfold isMarker
  rw [rolled_low]

theorem rolled_byte (v : UInt32) (b : UInt8) : (rolled v b).toUInt8 = b := by
  unfold rolled
  apply UInt8.toBitVec_inj.1
  apply BitVec.eq_of_getLsbD_eq
  intro i hi
  simp

theorem rolled_before (v : UInt32) (b : UInt8) : (rolled v b >>> 24).toUInt8 = v.toUInt8 := by
  unfold rolled
  apply UInt8.toBitVec_inj.1
  apply BitVec.eq_of_getLsbD_eq
  intro i hi
  simp
  grind

namespace Bcj2Enc
open Supplies

/-- What is still to be read and what has been written. -/
def flow (out : Bcj2EncOut) (src : List UInt8) (ended : Bool) : EncSupply :=
  ⟨src, ended, out.main.written, out.call.written, out.jump.written, out.rc.written⟩

/-- Where an encoder's machine stands between calls. -/
def abs (e : Bcj2Enc) : EncMicro :=
  ⟨if e.isFlushState then .flush
    else if is32bitStream e.state then .target e.state e.tempTarget else .loop, e.bare⟩

/-- The probabilities stay where a bound is neither nothing nor the whole range, so one
normalization is enough; before the flush its bytes are owed. -/
structure Good (e : Bcj2Enc) : Prop where
  probs : ∀ i, 31 ≤ e.probs i ∧ e.probs i ≤ 2017
  range : 0x10000 ≤ e.range
  owes : e.isFlushState = false → e.flushRem ≠ 0

/-- In the loop of `encode_2`. -/
structure Ready (e : Bcj2Enc) (ended : Bool) : Prop extends Good e where
  loops : e.isFlushState = false
  state : e.state = encStateOrig
  mode : e.finishMode = if ended then .endStream else .continue

theorem encodeBit_good {e : Bcj2Enc} (v : UInt32) (converted : Bool)
    (hgood : Good e) (hrange : 0x1000000 ≤ e.range) :
    Good (e.encodeBit v converted) := by
  have hp := hgood.probs (probIndex v)
  obtain ⟨hbelow, habove⟩ := bound_splits hp hrange
  cases converted with
  | true => exact ⟨update_stays hgood.probs _ (by omega), habove, hgood.owes⟩
  | false =>
      refine ⟨update_stays hgood.probs _ ?_, hbelow, hgood.owes⟩
      simp only [bcj2BitModelTotal]
      omega

theorem encodeBit_ready {e : Bcj2Enc} {ended : Bool} (v : UInt32) (converted : Bool)
    (h : Ready e ended) (hrange : 0x1000000 ≤ e.range) :
    Ready (e.encodeBit v converted) ended ∧ (e.encodeBit v converted).temp = e.temp := by
  have hgood := encodeBit_good v converted h.toGood hrange
  cases converted <;> exact ⟨⟨hgood, h.loops, h.state, h.mode⟩, rfl⟩

/-- What `shift_low` leaves alone. -/
structure Kept (e e' : Bcj2Enc) : Prop where
  range : e'.range = e.range
  probs : e'.probs = e.probs
  flushRem : e'.flushRem = e.flushRem
  isFlushState : e'.isFlushState = e.isFlushState
  finishMode : e'.finishMode = e.finishMode
  temp : e'.temp = e.temp

theorem shiftLow_kept (e : Bcj2Enc) (out : Bcj2EncOut) :
    Kept e (shiftLow e out).2.1 ∧
      (shiftLow e out).2.1.state = if (shiftLow e out).1 then streamRc else e.state := by
  unfold shiftLow
  dsimp only
  split
  · split <;> exact ⟨⟨rfl, rfl, rfl, rfl, rfl, rfl⟩, rfl⟩
  · exact ⟨⟨rfl, rfl, rfl, rfl, rfl, rfl⟩, rfl⟩

theorem Kept.good {e e' : Bcj2Enc} (h : Kept e e') (hgood : Good e) : Good e' :=
  ⟨h.probs ▸ hgood.probs, h.range ▸ hgood.range, by
    rw [h.isFlushState, h.flushRem]
    exact hgood.owes⟩

theorem putCache_steps {p : EncPhase} {f : Bcj2Enc → Bcj2Enc} {e : Bcj2Enc}
    (hshifts : e.shifts = true)
    (hstep : ∀ n b x, encStep ⟨p, { e with cacheSize := n, cache := b }⟩ x =
      some (shiftPhase f ⟨p, { e with cacheSize := n, cache := b }⟩ x))
    (n : ℕ) (b : UInt8) (w : Bcj2Window) (x : EncSupply) (hx : x.rc = w.written) :
    encMachine.Steps (⟨p, { e with cacheSize := n, cache := b }⟩, x)
      (⟨p, if (putCache (UInt8.ofNat (e.low / 0x100000000)) n b w).1 = 0 then f e.pushed
          else { e with
            cacheSize := (putCache (UInt8.ofNat (e.low / 0x100000000)) n b w).1
            cache := (putCache (UInt8.ofNat (e.low / 0x100000000)) n b w).2.1 }⟩,
        { x with rc := (putCache (UInt8.ofNat (e.low / 0x100000000)) n b w).2.2.written }) := by
  have hshifts' (n : ℕ) (b : UInt8) :
      Bcj2Enc.shifts { e with cacheSize := n, cache := b } = true := hshifts
  induction n generalizing b w x with
  | zero =>
      refine .one ((hstep 0 b x).trans ?_)
      simp only [shiftPhase, shiftStep, hshifts', putCache, hx, if_true]
      rfl
  | succ n ih =>
      rw [putCache]
      split
      · rw [← hx]
        exact .refl
      · refine .head (hstep (n + 1) b x) ?_
        have hnext := ih 0xFF (w.put (b + UInt8.ofNat (e.low / 0x100000000)))
          { x with rc := x.rc ++ [b + UInt8.ofNat (e.low / 0x100000000)] }
          (by show x.rc ++ _ = w.written ++ _; rw [hx])
        simpa only [shiftPhase, shiftStep, hshifts', if_true, Bool.false_eq_true, if_false]
          using hnext

/-- `shift_low`, as far as there is room. -/
theorem shiftLow_steps {p : EncPhase} {f : Bcj2Enc → Bcj2Enc} {e : Bcj2Enc}
    (hstep : ∀ n b x, encStep ⟨p, { e.bare with cacheSize := n, cache := b }⟩ x =
      some (shiftPhase f ⟨p, { e.bare with cacheSize := n, cache := b }⟩ x))
    (out : Bcj2EncOut) (src : List UInt8) (ended : Bool) :
    encMachine.Steps (⟨p, e.bare⟩, flow out src ended)
      (⟨p, if (shiftLow e out).1 then (shiftLow e out).2.1.bare
          else f (shiftLow e out).2.1.bare⟩, flow (shiftLow e out).2.2 src ended) := by
  unfold shiftLow
  dsimp only
  split
  next hs =>
    have hsteps := putCache_steps (e := e.bare) hs hstep e.cacheSize e.cache out.rc
      (flow out src ended) rfl
    change encMachine.Steps (⟨p, e.bare⟩, _) _ at hsteps
    have hlow : e.bare.low = e.low := rfl
    rw [hlow] at hsteps
    split
    next h0 =>
      rw [if_pos h0] at hsteps
      simp only [h0]
      exact hsteps
    next h0 =>
      rw [if_neg h0] at hsteps
      exact hsteps
  next hs =>
    refine .one ((hstep e.cacheSize e.cache _).trans ?_)
    have hs' : ¬Bcj2Enc.shifts { e.bare with cacheSize := e.cacheSize, cache := e.cache } = true :=
      hs
    simp only [shiftPhase, shiftStep, hs']
    rfl

/-- No byte of `pre` is a marker; `u` is the context behind them. -/
def Plain : UInt32 → List UInt8 → UInt32 → Prop
  | v, [], u => u = v
  | v, b :: pre, u => isMarker v b = false ∧ Plain (rolled v b) pre u

theorem scanMain_cases (n : ℕ) (src : List UInt8) (v : UInt32) :
    (∃ pre b rest u, src = pre ++ b :: rest ∧
        scanMain n src v = (pre.length + 1, rolled u b, true) ∧ isMarker u b = true ∧
        Plain v pre u) ∨
      ∃ pre rest u, src = pre ++ rest ∧ scanMain n src v = (pre.length, u, false) ∧
        Plain v pre u := by
  fun_induction scanMain n src v with
  | case1 n b src v hm => exact .inl ⟨[], b, src, v, rfl, rfl, hm, rfl⟩
  | case2 n b src v hm rest ih =>
      have hm' : isMarker v b = false := Bool.not_eq_true _ ▸ hm
      rcases ih with ⟨pre, c, rest', u, rfl, heq, hc, hplain⟩ | ⟨pre, rest', u, rfl, heq, hplain⟩
      · refine .inl ⟨b :: pre, c, rest', u, rfl, ?_, hc, hm', hplain⟩
        change ((scanMain n _ _).1 + 1, (scanMain n _ _).2) = _
        rw [heq]
        rfl
      · refine .inr ⟨b :: pre, rest', u, rfl, ?_, hm', hplain⟩
        change ((scanMain n _ _).1 + 1, (scanMain n _ _).2) = _
        rw [heq]
        rfl
  | case3 n src v hne => exact .inr ⟨[], src, v, rfl, rfl, rfl⟩

theorem ip64_add (ip : UInt64) (n : ℕ) :
    ip + 1 + UInt64.ofNat n = ip + UInt64.ofNat (n + 1) := by
  rw [UInt64.ofNat_add, UInt64.add_assoc, UInt64.add_comm 1]
  rfl

theorem plain_steps {c : Bcj2Enc} (hrange : 0x1000000 ≤ c.range) {v u : UInt32}
    {pre : List UInt8} (h : Plain v pre u) (rest : List UInt8) (x : EncSupply)
    (hx : x.src = pre ++ rest) :
    encMachine.Steps (⟨.loop, { c with context := v.toUInt8 }⟩, x)
      (⟨.loop, { c with context := u.toUInt8
                        ip64 := c.ip64 + UInt64.ofNat pre.length }⟩,
        { x with src := rest, main := x.main ++ pre }) := by
  induction pre generalizing v c x with
  | nil =>
      obtain rfl : u = v := h
      have hip : c.ip64 + UInt64.ofNat 0 = c.ip64 := UInt64.add_zero _
      simp only [List.length_nil, hip, List.append_nil]
      rw [List.nil_append] at hx
      rw [← hx]
      exact .refl
  | cons b pre ih =>
      obtain ⟨hm, hplain⟩ := h
      have hnext := ih (c := { c with ip64 := c.ip64 + 1 }) hrange hplain
        (x.take b (pre ++ rest)) rfl
      have hstep : encStep ⟨.loop, { c with context := v.toUInt8 }⟩ x =
          some (⟨.loop, { c with ip64 := c.ip64 + 1, context := b }⟩,
            x.take b (pre ++ rest)) := by
        have hhigh : ¬c.range < bcj2TopValue := Nat.not_lt.2 hrange
        simp only [encStep, hhigh, if_false, copyStep, hx, List.cons_append, isMarker_low, hm,
          Bool.false_eq_true]
      rw [rolled_byte] at hnext
      refine .head hstep ?_
      simpa only [ip64_add, EncSupply.take, List.append_assoc, List.singleton_append,
          List.length_cons] using hnext

/-- Where a turn of the loop has brought the machine. -/
def Reaches (a : EncMicro × EncSupply) (ended : Bool) (temp : List UInt8) : EncTurn → Prop
  | .stop e out src =>
      encMachine.Steps a (e.abs, flow out src ended) ∧ Good e ∧ e.temp = temp
  | .flush e out src =>
      encMachine.Steps a (⟨.flush, e.bare⟩, flow out src ended) ∧ Good e ∧ e.temp = temp ∧
        e.isFlushState = true
  | .again e v out src =>
      encMachine.Steps a (⟨.loop, { e.bare with context := v.toUInt8 }⟩, flow out src ended) ∧
        Ready e ended ∧ e.temp = temp

theorem Reaches.from {a b : EncMicro × EncSupply} {ended : Bool} {temp temp' : List UInt8}
    {turn : EncTurn} (h : encMachine.Steps a b) (htemp : temp' = temp)
    (h' : Reaches b ended temp' turn) : Reaches a ended temp turn := by
  subst htemp
  cases turn <;> exact ⟨h.trans h'.1, h'.2⟩

theorem abs_loop {e : Bcj2Enc} (hloops : e.isFlushState = false)
    (hstate : is32bitStream e.state = false) : e.abs = ⟨.loop, e.bare⟩ := by
  unfold abs
  rw [hloops, hstate]
  rfl

theorem branchStream_side (v : UInt32) : is32bitStream (branchStream v) = true := by
  have h : (((v + 0x57) >>> 6) &&& 1).toNat ≤ 1 := by
    rw [UInt32.toNat_and]
    exact Nat.and_le_right
  unfold branchStream is32bitStream streamCall streamJump
  dsimp only
  rw [Bool.or_eq_true, beq_iff_eq, beq_iff_eq]
  omega

theorem putTarget_flow (out : Bcj2EncOut) (src : List UInt8) (ended : Bool) (cj : ℕ)
    (v : UInt32) :
    (flow out src ended).putTarget cj v = flow (out.putTarget cj v) src ended := by
  unfold EncSupply.putTarget Bcj2EncOut.putTarget Bcj2EncOut.setSide Bcj2EncOut.side
  dsimp only
  split <;> rfl

theorem target_steps (cj : ℕ) (absol : UInt32) (core : Bcj2Enc) (out : Bcj2EncOut)
    (src : List UInt8) (ended : Bool) :
    encMachine.Steps (⟨.target cj absol, core⟩, flow out src ended)
      (⟨.loop, core⟩, flow (out.putTarget cj absol) src ended) := by
  have hstep : encStep ⟨.target cj absol, core⟩ (flow out src ended) =
      some (⟨.loop, core⟩, flow (out.putTarget cj absol) src ended) := by
    simp only [encStep, putTarget_flow]
  exact .one hstep

/-- The marker `b`, with the machine still before it. -/
theorem markerTurn_reaches {e : Bcj2Enc} {ended : Bool} (h : Ready e ended)
    (hrange : 0x1000000 ≤ e.range) {u : UInt32} {b : UInt8} (hm : isMarker u b = true)
    (out : Bcj2EncOut) (main : List UInt8) (hmain : out.main.written = main ++ [b])
    (src : List UInt8) :
    Reaches (⟨.loop, { e.bare with context := u.toUInt8, ip64 := e.ip64 - 1 }⟩,
      { flow out (b :: src) ended with main := main }) ended e.temp
      (markerTurn e (rolled u b) b out src) := by
  have hstep : encStep ⟨.loop, { e.bare with context := u.toUInt8, ip64 := e.ip64 - 1 }⟩
      { flow out (b :: src) ended with main := main } =
      markerStep { e.bare with context := u.toUInt8 } (rolled u b) b src
        { flow out (b :: src) ended with main := main } := by
    have hhigh : ¬e.bare.range < bcj2TopValue := Nat.not_lt.2 hrange
    simp only [encStep, hhigh, if_false, copyStep, flow, isMarker_low, hm, if_true, rolled_low,
      UInt64.sub_add_cancel]
    rfl
  have htake (rest : List UInt8) :
      EncSupply.take { flow out (b :: src) ended with main := main } b rest =
        flow out rest ended := by
    unfold EncSupply.take flow
    simp only [hmain]
  have hpass := encodeBit_ready (rolled u b) false h hrange
  have hcontext : (rolled u b).toUInt8 = b := rolled_byte u b
  unfold markerTurn
  split
  next a₀ a₁ a₂ a₃ rest =>
    dsimp only
    split
    next hc =>
      have hready := encodeBit_ready (rolled u b) true h hrange
      have hone : encMachine.Steps
          (⟨.loop, { e.bare with context := u.toUInt8, ip64 := e.ip64 - 1 }⟩,
            { flow out (b :: a₀ :: a₁ :: a₂ :: a₃ :: rest) ended with main := main })
          (⟨.target (branchStream (rolled u b))
              ((e.ip64 + 4).toUInt32 + getLe32 a₀ a₁ a₂ a₃),
            { (e.encodeBit (rolled u b) true).bare with
              ip64 := e.ip64 + 4
              context := (getLe32 a₀ a₁ a₂ a₃ >>> 24).toUInt8 }⟩, flow out rest ended) := by
        refine .one (hstep.trans ?_)
        have hc' : Bcj2Enc.converts { e.bare with context := u.toUInt8 } (rolled u b)
            (getLe32 a₀ a₁ a₂ a₃) = true := hc
        unfold markerStep
        dsimp only
        rw [if_pos hc', htake]
        rfl
      split
      · exact ⟨hone.trans (target_steps ..), ⟨⟨hready.1.probs, hready.1.range, hready.1.owes⟩,
          hready.1.loops, hready.1.state, hready.1.mode⟩, hready.2⟩
      · refine ⟨?_, ⟨hready.1.probs, hready.1.range, hready.1.owes⟩, hready.2⟩
        have hloops : e.isFlushState = false := h.loops
        have habs : Bcj2Enc.abs { e.encodeBit (rolled u b) true with
              ip64 := e.ip64 + 4
              state := branchStream (rolled u b)
              tempTarget := (e.ip64 + 4).toUInt32 + getLe32 a₀ a₁ a₂ a₃
              context := (getLe32 a₀ a₁ a₂ a₃ >>> 24).toUInt8 } =
            ⟨.target (branchStream (rolled u b)) ((e.ip64 + 4).toUInt32 + getLe32 a₀ a₁ a₂ a₃),
              { (e.encodeBit (rolled u b) true).bare with
                ip64 := e.ip64 + 4
                context := (getLe32 a₀ a₁ a₂ a₃ >>> 24).toUInt8 }⟩ := by
          unfold abs
          dsimp only
          rw [hready.1.loops, branchStream_side]
          rfl
        exact habs ▸ hone
    next hc =>
      refine ⟨.one (hstep.trans ?_), hpass⟩
      have hc' : ¬Bcj2Enc.converts { e.bare with context := u.toUInt8 } (rolled u b)
          (getLe32 a₀ a₁ a₂ a₃) = true := hc
      unfold markerStep
      dsimp only
      rw [if_neg hc', htake, hcontext]
      rfl
  next hshort =>
    split
    next hmode =>
      -- Nothing has happened: the marker was taken and given back.
      have hback : flow { out with main := out.main.back } (b :: src) ended =
          { flow out (b :: src) ended with main := main } := by
        unfold flow Bcj2Window.back
        simp only [hmain, List.dropLast_concat]
      have habs : Bcj2Enc.abs { e with
            ip64 := e.ip64 - 1
            context := (rolled u b >>> 24).toUInt8 } =
          ⟨.loop, { e.bare with context := u.toUInt8, ip64 := e.ip64 - 1 }⟩ := by
        rw [rolled_before]
        refine abs_loop h.loops ?_
        change is32bitStream e.state = false
        rw [h.state]
        rfl
      refine ⟨?_, ⟨h.probs, h.range, h.owes⟩, rfl⟩
      rw [habs, hback]
      exact .refl
    next hmode =>
      refine ⟨.one (hstep.trans ?_), hpass⟩
      have hended : ended = true := by
        cases ended with
        | true => rfl
        | false => exact absurd h.mode hmode
      unfold markerStep
      split
      next a₀ a₁ a₂ a₃ rest => exact (hshort a₀ a₁ a₂ a₃ rest rfl).elim
      · apply (if_pos hended).trans
        rw [htake, hcontext]
        rfl

theorem ip64_back (ip : UInt64) (n : ℕ) :
    ip + UInt64.ofNat (n + 1) - 1 = ip + UInt64.ofNat n := by
  rw [UInt64.ofNat_add, ← UInt64.add_assoc]
  exact UInt64.add_sub_cancel ..

theorem copyTurn_reaches {e : Bcj2Enc} {ended : Bool} (h : Ready e ended)
    (hrange : 0x1000000 ≤ e.range) (v : UInt32) (out : Bcj2EncOut) (src : List UInt8) :
    Reaches (⟨.loop, { e.bare with context := v.toUInt8 }⟩, flow out src ended) ended e.temp
      (copyTurn e v out src) := by
  unfold copyTurn
  rcases scanMain_cases (min out.main.room src.length) src v with
    ⟨pre, b, rest, u, rfl, hscan, hm, hplain⟩ | ⟨pre, rest, u, rfl, hscan, hplain⟩
  · rw [hscan]
    have htake : (pre ++ b :: rest).take (pre.length + 1) = pre ++ [b] := by
      rw [List.take_length_add_append]
      rfl
    have hdrop : (pre ++ b :: rest).drop (pre.length + 1) = rest := by
      rw [List.drop_length_add_append]
      rfl
    have hlast : (pre ++ [b]).getLastD 0 = b := by
      rw [List.getLastD_eq_getLast?, List.getLast?_concat]
      rfl
    dsimp only
    rw [htake, hdrop, hlast, if_pos rfl]
    have hsteps := plain_steps (c := e.bare) hrange hplain (b :: rest)
      (flow out (pre ++ b :: rest) ended) rfl
    have hready : Ready { e with ip64 := e.ip64 + UInt64.ofNat (pre.length + 1) } ended :=
      ⟨⟨h.probs, h.range, h.owes⟩, h.loops, h.state, h.mode⟩
    have hmarker := markerTurn_reaches hready hrange hm
      { out with main := out.main.putAll (pre ++ [b]) } (out.main.written ++ pre)
      (List.append_assoc ..).symm rest
    dsimp only at hmarker
    rw [ip64_back] at hmarker
    exact Reaches.from hsteps rfl hmarker
  · rw [hscan]
    have htake : (pre ++ rest).take pre.length = pre := List.take_left
    have hdrop : (pre ++ rest).drop pre.length = rest := List.drop_left
    dsimp only
    rw [htake, hdrop, if_neg Bool.false_ne_true]
    have hsteps := plain_steps (c := e.bare) hrange hplain rest
      (flow out (pre ++ rest) ended) rfl
    have hgood : Good { e with
        ip64 := e.ip64 + UInt64.ofNat pre.length
        context := u.toUInt8 } := ⟨h.probs, h.range, h.owes⟩
    have habs (state : ℕ) (hstate : is32bitStream state = false) :
        Bcj2Enc.abs { e with
          ip64 := e.ip64 + UInt64.ofNat pre.length
          context := u.toUInt8
          state := state } =
        ⟨.loop, { e.bare with
          context := u.toUInt8
          ip64 := e.ip64 + UInt64.ofNat pre.length }⟩ :=
      abs_loop h.loops hstate
    have hstate : is32bitStream e.state = false := by
      rw [h.state]
      rfl
    split
    · refine ⟨?_, ⟨h.probs, h.range, h.owes⟩, rfl⟩
      rw [habs streamMain rfl]
      exact hsteps
    next hrest =>
      split
      · refine ⟨?_, hgood, rfl⟩
        rw [habs e.state hstate]
        exact hsteps
      next hmode =>
        refine ⟨hsteps.trans (.one ?_), ⟨h.probs, h.range, fun hf => by cases hf⟩, rfl, rfl⟩
        have hended : ended = true := by
          cases ended with
          | true => rfl
          | false => exact absurd (h.mode.symm.trans (not_not.1 hmode)) (by decide)
        obtain rfl := not_not.1 hrest
        subst hended
        have hstep (x : EncSupply) (hx : x.src = []) (hended : x.ended = true) (c : Bcj2Enc)
            (hc : c.range = e.range) : encStep ⟨.loop, c⟩ x = some (⟨.flush, c⟩, x) := by
          have hhigh : ¬c.range < bcj2TopValue := by
            rw [hc]
            exact Nat.not_lt.2 hrange
          simp only [encStep, hhigh, if_false, copyStep, hx, hended, if_true]
        exact hstep _ rfl rfl _ rfl

theorem encodeTurn_reaches {e : Bcj2Enc} {ended : Bool} (h : Ready e ended) (v : UInt32)
    (out : Bcj2EncOut) (src : List UInt8) :
    Reaches (⟨.loop, { e.bare with context := v.toUInt8 }⟩, flow out src ended) ended e.temp
      (encodeTurn e v out src) := by
  unfold encodeTurn
  split
  next hlow =>
    have hsteps := shiftLow_steps (p := .loop) (e := { e with context := v.toUInt8 })
      (f := fun e => { e with range := e.range * 256 })
      (fun n b x => by
        change (if e.range < bcj2TopValue then _ else _) = _
        exact if_pos hlow) out src ended
    obtain ⟨hkept, hstate⟩ := shiftLow_kept { e with context := v.toUInt8 } out
    have hgood : Good { e with context := v.toUInt8 } := ⟨h.probs, h.range, h.owes⟩
    dsimp only
    split
    next hfull =>
      rw [if_pos hfull] at hsteps hstate
      have habs : (shiftLow { e with context := v.toUInt8 } out).2.1.abs =
          ⟨.loop, (shiftLow { e with context := v.toUInt8 } out).2.1.bare⟩ :=
        abs_loop (hkept.isFlushState.trans h.loops) (by rw [hstate]; rfl)
      exact ⟨habs ▸ hsteps, hkept.good hgood, hkept.temp⟩
    next hfull =>
      rw [if_neg hfull] at hsteps hstate
      have hrange := (hkept.good hgood).range
      have hready : Ready { (shiftLow { e with context := v.toUInt8 } out).2.1 with
          range := (shiftLow { e with context := v.toUInt8 } out).2.1.range * 256 } ended :=
        ⟨⟨(hkept.good hgood).probs, by dsimp only; omega, (hkept.good hgood).owes⟩,
          hkept.isFlushState.trans h.loops, hstate.trans h.state,
          hkept.finishMode.trans h.mode⟩
      have hcopy := copyTurn_reaches hready (by dsimp only; omega)
        (shiftLow { e with context := v.toUInt8 } out).2.1.context.toUInt32
        (shiftLow { e with context := v.toUInt8 } out).2.2 src
      rw [UInt8.toUInt8_toUInt32] at hcopy
      have htemp : (shiftLow { e with context := v.toUInt8 } out).2.1.temp = e.temp := hkept.temp
      exact Reaches.from hsteps htemp hcopy
  next hhigh =>
    exact copyTurn_reaches h (Nat.not_lt.1 hhigh) v out src

theorem flushLoop_reaches (left : ℕ) {e : Bcj2Enc} (hflush : e.isFlushState = true)
    (hgood : Good e) (out : Bcj2EncOut) (src : List UInt8) (ended : Bool) :
    Reaches (⟨.flush, { e.bare with flushRem := left }⟩, flow out src ended) ended e.temp
      (.stop (flushLoop left e out).1 (flushLoop left e out).2 src) := by
  have habs {e : Bcj2Enc} (h : e.isFlushState = true) : e.abs = ⟨.flush, e.bare⟩ := by
    unfold abs
    rw [if_pos h]
  induction left generalizing e out with
  | zero =>
      have hflushing (h : e.isFlushState = false) : (0 : ℕ) ≠ 0 := by
        rw [hflush] at h
        cases h
      refine ⟨?_, ⟨hgood.probs, hgood.range, hflushing⟩, rfl⟩
      rw [flushLoop, habs (e := { e with state := encStateFinished, flushRem := 0 }) hflush]
      exact .refl
  | succ left ih =>
      have hsteps := shiftLow_steps (p := .flush) (e := { e with flushRem := left + 1 })
        (f := fun e => { e with flushRem := e.flushRem - 1 })
        (fun n b x => by simp only [encStep, bare, Nat.succ_ne_zero, if_false]) out src ended
      obtain ⟨hkept, -⟩ := shiftLow_kept { e with flushRem := left + 1 } out
      have hflush' : (shiftLow { e with flushRem := left + 1 } out).2.1.isFlushState = true :=
        hkept.isFlushState.trans hflush
      have hgood' : Good (shiftLow { e with flushRem := left + 1 } out).2.1 :=
        hkept.good ⟨hgood.probs, hgood.range, fun _ => Nat.succ_ne_zero _⟩
      have htemp : (shiftLow { e with flushRem := left + 1 } out).2.1.temp = e.temp := hkept.temp
      rw [flushLoop]
      dsimp only
      split
      next hfull =>
        rw [if_pos hfull, ← habs hflush'] at hsteps
        exact ⟨hsteps, hgood', htemp⟩
      next hfull =>
        rw [if_neg hfull] at hsteps
        have hrem : (shiftLow { e with flushRem := left + 1 } out).2.1.bare.flushRem - 1 =
            left := by
          show (shiftLow { e with flushRem := left + 1 } out).2.1.flushRem - 1 = left
          rw [hkept.flushRem]
          rfl
        rw [hrem] at hsteps
        exact Reaches.from hsteps htemp
          (ih hflush' hgood' (shiftLow { e with flushRem := left + 1 } out).2.2)

/-- Where a call has brought the machine: `Reaches` of what it returns. -/
def Went (a : EncMicro × EncSupply) (ended : Bool) (temp : List UInt8)
    (r : Bcj2Enc × Bcj2EncOut × List UInt8) : Prop :=
  Reaches a ended temp (.stop r.1 r.2.1 r.2.2)

theorem flushAll_went {e : Bcj2Enc} (hflush : e.isFlushState = true) (hgood : Good e)
    (out : Bcj2EncOut) (src : List UInt8) (ended : Bool) :
    Went (⟨.flush, e.bare⟩, flow out src ended) ended e.temp (flushAll e out src) :=
  flushLoop_reaches e.flushRem hflush hgood out src ended

theorem encodeLoop_went {e : Bcj2Enc} {ended : Bool} (h : Ready e ended) (v : UInt32)
    (out : Bcj2EncOut) (src : List UInt8) :
    Went (⟨.loop, { e.bare with context := v.toUInt8 }⟩, flow out src ended) ended e.temp
      (encodeLoop e v out src) := by
  fun_induction encodeLoop e v out src with
  | case1 e v out src e' out' src' hturn =>
      have hreach := encodeTurn_reaches h v out src
      rw [hturn] at hreach
      exact hreach
  | case2 e v out src e' out' src' hturn =>
      have hreach := encodeTurn_reaches h v out src
      rw [hturn] at hreach
      obtain ⟨hsteps, hgood, htemp, hflush⟩ := hreach
      exact Reaches.from hsteps htemp (flushAll_went hflush hgood out' src' ended)
  | case3 e v out src e' v' out' src' hturn ih =>
      have hreach := encodeTurn_reaches h v out src
      rw [hturn] at hreach
      obtain ⟨hsteps, hready, htemp⟩ := hreach
      exact Reaches.from hsteps htemp (ih hready)

theorem encode2_went {e : Bcj2Enc} {ended : Bool} (hgood : Good e)
    (hmode : e.finishMode = if ended then .endStream else .continue) (out : Bcj2EncOut)
    (src : List UInt8) :
    Went (e.abs, flow out src ended) ended e.temp (encode2 e out src) := by
  have hcontext : e.context.toUInt32.toUInt8 = e.context := UInt8.toUInt8_toUInt32 _
  unfold encode2
  split
  next hflush =>
    have habs : e.abs = ⟨.flush, e.bare⟩ := by
      unfold abs
      rw [if_pos hflush]
    rw [habs]
    exact flushAll_went hflush hgood out src ended
  next hloops =>
    have hloops' : e.isFlushState = false := Bool.not_eq_true _ ▸ hloops
    have hready : Ready { e with state := encStateOrig } ended :=
      ⟨⟨hgood.probs, hgood.range, hgood.owes⟩, hloops', rfl, hmode⟩
    have hloop (out : Bcj2EncOut) := encodeLoop_went hready e.context.toUInt32 out src
    rw [hcontext] at hloop
    split
    next hside =>
      have habs : e.abs = ⟨.target e.state e.tempTarget, e.bare⟩ := by
        unfold abs
        rw [hloops', hside]
        rfl
      split
      · rw [habs]
        exact Reaches.from (target_steps ..) rfl (hloop _)
      · exact ⟨.refl, hgood, rfl⟩
    next hside =>
      rw [abs_loop hloops' (Bool.not_eq_true _ ▸ hside)]
      exact hloop out

/-- What a call has brought the machine to, with what the encoder holds back in its source. -/
def Holds (a : EncMicro × EncSupply) (ended : Bool) (r : Bcj2Enc × Bcj2EncOut × List UInt8) :
    Prop :=
  encMachine.Steps a (r.1.abs, flow r.2.1 (r.1.temp ++ r.2.2) ended) ∧ Good r.1

theorem Holds.from {a b : EncMicro × EncSupply} {ended : Bool}
    {r : Bcj2Enc × Bcj2EncOut × List UInt8} (h : encMachine.Steps a b) (h' : Holds b ended r) :
    Holds a ended r :=
  ⟨h.trans h'.1, h'.2⟩

theorem encodeSrc_holds {e : Bcj2Enc} {ended : Bool} (hgood : Good e)
    (hmode : e.finishMode = if ended then .endStream else .continue) (htemp : e.temp = [])
    (out : Bcj2EncOut) (src : List UInt8) :
    Holds (e.abs, flow out src ended) ended (encodeSrc e out src) := by
  obtain ⟨hsteps, hgood', htemp'⟩ := encode2_went hgood hmode out src
  unfold encodeSrc
  dsimp only
  split
  · refine ⟨?_, hgood'.probs, hgood'.range, hgood'.owes⟩
    dsimp only
    rw [List.append_nil]
    exact hsteps
  · refine ⟨?_, hgood'⟩
    rw [htemp', htemp, List.nil_append]
    exact hsteps

theorem tempLoop_holds {e : Bcj2Enc} {ended : Bool} (hgood : Good e)
    (hmode : e.finishMode = if ended then .endStream else .continue) (out : Bcj2EncOut)
    (extra : ℕ) (src : List UInt8) :
    Holds (e.abs, flow out (e.temp ++ src) ended) ended (tempLoop e out extra src) := by
  induction src generalizing e out extra with
  | nil =>
      obtain ⟨hsteps, hgood', -⟩ := encode2_went hgood hmode out e.temp
      unfold tempLoop
      dsimp only
      rw [if_pos rfl, List.append_nil]
      split
      · refine ⟨?_, hgood'.probs, hgood'.range, hgood'.owes⟩
        dsimp only
        rw [← List.append_assoc, List.take_append_drop, List.append_nil]
        exact hsteps
      · refine ⟨?_, hgood'.probs, hgood'.range, hgood'.owes⟩
        dsimp only
        rw [List.append_nil]
        exact hsteps
  | cons b src ih =>
      obtain ⟨hsteps, hgood', -⟩ := @encode2_went { e with finishMode := .continue } false
        ⟨hgood.probs, hgood.range, hgood.owes⟩ rfl out e.temp
      -- More source may follow what the call was given.
      have hmore := hsteps.more ⟨b :: src, ended⟩
      change encMachine.Steps (e.abs, flow out (e.temp ++ b :: src) (false || ended))
        (_, flow _ (_ ++ b :: src) (false || ended)) at hmore
      rw [Bool.false_or] at hmore
      unfold tempLoop
      dsimp only
      rw [if_neg (List.cons_ne_nil b src)]
      split
      · refine ⟨?_, hgood'.probs, hgood'.range, hgood'.owes⟩
        dsimp only
        rw [← List.append_assoc, List.take_append_drop]
        exact hmore
      · split
        · exact Holds.from hmore
            (encodeSrc_holds (e := { (encode2 { e with finishMode := .continue } out e.temp).1 with
              temp := [], finishMode := e.finishMode })
              ⟨hgood'.probs, hgood'.range, hgood'.owes⟩ hmode rfl _ _)
        · have hnext := ih
            (e := { (encode2 { e with finishMode := .continue } out e.temp).1 with
              temp := (encode2 { e with finishMode := .continue } out e.temp).2.2 ++ [b]
              finishMode := e.finishMode })
            ⟨hgood'.probs, hgood'.range, hgood'.owes⟩ hmode
            (encode2 { e with finishMode := .continue } out e.temp).2.1 (extra + 1)
          dsimp only at hnext
          rw [List.append_assoc] at hnext
          exact Holds.from hmore hnext

/-- A call of the encoder is some steps of its machine. -/
theorem encode_holds {e : Bcj2Enc} {ended : Bool} (hgood : Good e)
    (hmode : e.finishMode = if ended then .endStream else .continue) (out : Bcj2EncOut)
    (src : List UInt8) :
    Holds (e.abs, flow out (e.temp ++ src) ended) ended (encode e out src) := by
  unfold encode
  split
  · exact tempLoop_holds hgood hmode out 0 src
  next htemp =>
    have htemp' := not_not.1 htemp
    rw [htemp', List.nil_append]
    exact encodeSrc_holds hgood hmode htemp' out src

end Bcj2Enc
end LzmaTurbo.Filters
