import LzmaTurbo.Lzma.Turns

/-!
# The start of the range coder

A first symbol that repeats a distance shows in the five bytes of the range
coder already, since all models are still at one half: this is what the check
against `kBadRepCode` rejects, and why the decoders need no such check later.
-/
namespace LzmaTurbo.Lzma
open Machine BitProgram Window
open RangeDecoder (Coder Outcome run)

theorem run_bit {slot : ℕ} {next : Bool → Prog ℕ Symbol} {c : Coder ℕ} (h : 2 ^ 24 ≤ c.range)
    (xs : List UInt8) : run (.bit slot next) c xs =
      run (next (c.split slot).1) ((c.split slot).2.adapt slot (c.split slot).1) xs := by
  rw [run, RangeDecoder.normalize_of_le h]

/-- The first two bits of a fresh coder are read off its code. -/
theorem run_fresh {c : Coder ℕ} (hr : c.range = 2 ^ 32 - 1) (hp : ∀ slot, c.probs slot = 1024)
    {k : Ctx} (hpos : k.posState < 16) (xs : List UInt8) :
    ∃ c₁ c₂ c₃ : Coder ℕ, ∀ r, run (symbolProg { k with canRep := r }) c xs =
      if c.code < 0x7FFFFC00 then run (litProg k) c₁ xs
      else if c.code < kBadRepCode then run (simpleProg k) c₂ xs
      else run (if r then repProg k else .fail) c₃ xs := by
  have hl := layout
  have hbad : kBadRepCode = 0xBFFFFC00 := rfl
  obtain ⟨a, ha⟩ : ∃ a, a = isMatch + (16 * k.posState + k.state) := ⟨_, rfl⟩
  obtain ⟨b, hb⟩ : ∃ b, b = isRep + k.state := ⟨_, rfl⟩
  have hba : b ≠ a := by omega
  have hbound : c.bound a = 0x7FFFFC00 := by
    rw [Coder.bound, hr, hp]
    norm_num
  obtain ⟨d, hd⟩ : ∃ d, d = (c.split a).2.adapt a (c.split a).1 := ⟨_, rfl⟩
  refine ⟨d, (d.split b).2.adapt b (d.split b).1, (d.split b).2.adapt b (d.split b).1,
    fun r => ?_⟩
  have hrun : run (symbolProg { k with canRep := r }) c xs = _ :=
    run_bit (by rw [hr]; norm_num) xs
  rw [← ha, ← hd] at hrun
  by_cases hlit : c.code < 0x7FFFFC00
  · have hs : (c.split a).1 = false := by rw [Coder.split, hbound, if_pos hlit]
    rw [hrun, hs, if_pos hlit]
    rfl
  · have hs : (c.split a).1 = true := by rw [Coder.split, hbound, if_neg hlit]
    have hdr : d.range = 0x800003FF := by
      rw [hd, Coder.split, hbound, if_neg hlit]
      change c.range - 0x7FFFFC00 = _
      rw [hr]
      norm_num
    have hdc : d.code = c.code - 0x7FFFFC00 := by
      rw [hd, Coder.split, hbound, if_neg hlit]
      rfl
    have hdp : d.probs b = 1024 := by
      rw [hd, Coder.split, hbound, if_neg hlit, Coder.adapt]
      exact (Function.update_of_ne hba _ _).trans (hp b)
    have hdb : d.bound b = 0x40000000 := by
      rw [Coder.bound, hdr, hdp]
    rw [hs] at hrun
    have hrun' : _ = run _ _ xs := hrun.trans (run_bit (by rw [hdr]; norm_num) xs)
    rw [← hb] at hrun'
    rw [hrun', if_neg hlit]
    by_cases hsimple : c.code < kBadRepCode
    · have hs' : (d.split b).1 = false := by rw [Coder.split, hdb, if_pos (by omega)]
      rw [hs', if_pos hsimple]
      rfl
    · have hs' : (d.split b).1 = true := by rw [Coder.split, hdb, if_neg (by omega)]
      rw [hs', if_neg hsimple]
      rfl

section
variable {p : LzmaDec} {prop : LzmaProps} {s : RefState} {b1 b2 b3 b4 : UInt8}

theorem RefState.posState_lt (s : RefState) : (s.ctx prop).posState < 16 := by
  have hpb : (2 : ℕ) ^ prop.pb ≤ 2 ^ 4 := Nat.pow_le_pow_right (by norm_num) prop.pb_le
  have hmod : s.hist.length % 2 ^ prop.pb < 2 ^ prop.pb := Nat.mod_lt _ (by positivity)
  exact lt_of_lt_of_le hmod hpb

/-- The check against `kBadRepCode` catches just the streams that start with a repeat. -/
theorem start_reject (hs : s = freshState [])
    (hc : kBadRepCode ≤ (s.start b1 b2 b3 b4).coder.code) (xs : List UInt8) :
    (s.start b1 b2 b3 b4).step prop xs = .reject := by
  subst hs
  obtain ⟨c₁, c₂, c₃, h⟩ := run_fresh (c := ((freshState []).start b1 b2 b3 b4).coder)
    (k := ((freshState []).start b1 b2 b3 b4).ctx prop) rfl (fun _ => rfl) (RefState.posState_lt _)
    xs
  have hbad : kBadRepCode = 0xBFFFFC00 := rfl
  have hrun := h false
  rw [if_neg (by omega), if_neg (by omega)] at hrun
  have hfail : run (symbolProg (((freshState []).start b1 b2 b3 b4).ctx prop))
      ((freshState []).start b1 b2 b3 b4).coder xs = .fail := hrun
  rw [RefState.step, hfail]
  rfl

theorem start_begun (hb : s.Base prop) (hs : s.hist = [] → s = freshState [])
    (hc : s.hist = [] → (s.start b1 b2 b3 b4).coder.code < kBadRepCode) :
    (s.start b1 b2 b3 b4).Begun prop := by
  refine ⟨start_ok hb b1 b2 b3 b4, fun hn => ?_, fun hn xs => ?_⟩
  · rw [hs hn]
    rfl
  · have hlt := hc hn
    obtain rfl := hs hn
    obtain ⟨c₁, c₂, c₃, h⟩ := run_fresh (c := ((freshState []).start b1 b2 b3 b4).coder)
      (k := ((freshState []).start b1 b2 b3 b4).ctx prop) rfl (fun _ => rfl)
      (RefState.posState_lt _) xs
    have htrue := h true
    have hfalse := h false
    rw [if_pos hlt] at htrue hfalse
    exact htrue.trans hfalse.symm

theorem get_of_take {temp : Array UInt8} {n i : ℕ} {b : UInt8} {T : List UInt8}
    (ht : temp.toList.take n = T) (hi : T[i]? = some b) : get temp i = .ok b := by
  apply get_ok
  rw [← ht, List.getElem?_take] at hi
  split at hi
  · rw [← hi, Array.getElem?_toList]
  · cases hi

theorem headerCode_spec {temp : Array UInt8} {b0 : UInt8}
    (ht : temp.toList.take 5 = [b0, b1, b2, b3, b4]) :
    headerCode temp = .ok (s.start b1 b2 b3 b4).coder.code := by
  have h2 := b2.toNat_lt
  have h3 := b3.toNat_lt
  have h4 := b4.toNat_lt
  have hor : (b1.toNat <<< 24) ||| (b2.toNat <<< 16) ||| (b3.toNat <<< 8) ||| b4.toNat =
      b1.toNat * 2 ^ 24 + b2.toNat * 2 ^ 16 + b3.toNat * 2 ^ 8 + b4.toNat := by
    rw [Nat.or_assoc, Nat.or_assoc, ← Nat.shiftLeft_add_eq_or_of_lt (show b4.toNat < 2 ^ 8 by omega),
      ← Nat.shiftLeft_add_eq_or_of_lt (show b3.toNat <<< 8 + b4.toNat < 2 ^ 16 by
        rw [Nat.shiftLeft_eq]; omega),
      ← Nat.shiftLeft_add_eq_or_of_lt (show b2.toNat <<< 16 + (b3.toNat <<< 8 + b4.toNat) <
        2 ^ 24 by simp only [Nat.shiftLeft_eq]; omega)]
    simp only [Nat.shiftLeft_eq]
    omega
  unfold headerCode
  rw [get_of_take ht rfl, ok_bind, get_of_take ht rfl, ok_bind, get_of_take ht rfl, ok_bind,
    get_of_take ht rfl, ok_bind, hor]
  rfl

/-- The refilled table is a fresh one. -/
theorem resetState_table (h : lzmaPropsGetNumProbs p.prop.lc p.prop.lp ≤ p.probs.size)
    (hist : List UInt8) : Table p.resetState.probs (lzmaPropsGetNumProbs p.prop.lc p.prop.lp)
      (freshState hist).coder := by
  intro i hi
  simp only [LzmaDec.resetState, Array.getElem?_ofFn]
  rw [dif_pos (by omega), if_pos hi]
  rfl

end
end LzmaTurbo.Lzma
