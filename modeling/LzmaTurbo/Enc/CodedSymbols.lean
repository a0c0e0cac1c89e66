import LzmaTurbo.Enc.CodedBits

/-!
# The encoder's symbols are paths of the decoder's program
-/
namespace LzmaTurbo.Enc
open Machine Lzma BitProgram
open ExactCoder (Op Path)

/-! ## Lengths and distances -/

section
variable {coder posState sym : ℕ}

/-- The three bits below the choice, unrolled as the source has them. -/
theorem lenEncodeLow_path (coder base : ℕ) (hbase : base ≤ 8) (hpos : posState < 16) (h : sym < 8) :
    ∃ os, lenEncodeLow base sym posState = .bit (.low base) false :: os ∧
    Path LenSlot.InTable (fun s => coder + lenPlace s)
      (tree (coder + (lenLow + 16 * posState + base)) 3 1) os (8 + sym) := by
  have hquarter : sym >>> 2 = sym / 4 := Nat.shiftRight_eq_div_pow _ _
  have hhalf : (sym >>> 1) &&& 1 = sym / 2 % 2 := by
    rw [Nat.and_one_is_mod, Nat.shiftRight_eq_div_pow, pow_one]
  have hshift : posState <<< (1 + kLenNumLowBits) = posState * 16 := Nat.shiftLeft_eq _ _
  have hnode : ((2 + sym / 4) <<< 1) + sym / 2 % 2 = 4 + sym / 2 := by
    rw [Nat.shiftLeft_eq]
    omega
  have hslot : ∀ i, i < 8 → LenSlot.InTable (.low (base + posState * 16 + i)) ∧
      coder + lenPlace (.low (base + posState * 16 + i)) =
        coder + (lenLow + 16 * posState + base) + i := by
    intro i hi
    constructor
    · change base + posState * 16 + i < 256
      omega
    · change coder + (0 + (base + posState * 16 + i)) = coder + (0 + 16 * posState + base) + i
      omega
  have htop : decide (sym / 4 ≠ 0) = decide (sym / 4 % 2 ≠ 0) := by
    rw [Nat.mod_eq_of_lt (by omega)]
  simp only [lenEncodeLow, hquarter, hhalf, hshift, hnode, Nat.and_one_is_mod, htop]
  refine ⟨_, rfl, .bit (hslot 1 (by omega)).1 (hslot 1 (by omega)).2 ?_⟩
  rw [toNat_odd, show 2 * 1 + sym / 4 % 2 = 2 + sym / 4 by omega]
  refine .bit (hslot _ (by omega)).1 (hslot _ (by omega)).2 ?_
  rw [toNat_odd, show 2 * (2 + sym / 4) + sym / 2 % 2 = 4 + sym / 2 by omega]
  refine .bit (hslot _ (by omega)).1 (hslot _ (by omega)).2 ?_
  rw [toNat_odd, show 2 * (4 + sym / 2) + sym % 2 = 8 + sym by omega]
  exact .pure _

theorem lenEncode_path (hpos : posState < 16) (h : sym < 272) :
    Path LenSlot.InTable (fun s => coder + lenPlace s) (lenProg coder posState)
      (LenEnc.encode sym posState) sym := by
  have h8 : kLenNumLowSymbols = 8 := by decide
  have hlow0 : LenSlot.InTable (.low 0) := (by decide : 0 < 256)
  have hlow8 : LenSlot.InTable (.low 8) := (by decide : 8 < 256)
  unfold LenEnc.encode lenProg
  rw [h8]
  by_cases hlow : 8 ≤ sym
  · rw [if_pos hlow]
    refine .bit hlow0 rfl ?_
    by_cases hmid : 8 * 2 ≤ sym
    · rw [if_pos hmid]
      refine .bit hlow8 rfl ?_
      have hhigh := @litEncode_path _ LenSlot.InTable (fun s => coder + lenPlace s) .high
        (coder + lenHigh) (fun i _ hi => ⟨hi, (Nat.add_assoc _ _ _).symm⟩) (sym - 8 * 2) (by omega)
      have hval : sym = 256 + (sym - 8 * 2) - 256 + 16 := by omega
      conv => arg 5; rw [hval]
      exact hhigh.map fun s => s - 256 + 16
    · rw [if_neg hmid]
      obtain ⟨os, hos, hpath⟩ := lenEncodeLow_path coder 8 le_rfl hpos
        (show sym - 8 < 8 by omega)
      rw [hos]
      refine .bit hlow8 rfl ?_
      rwa [show 8 + (sym - 8) = sym by omega] at hpath
  · rw [if_neg hlow]
    obtain ⟨os, hos, hpath⟩ := lenEncodeLow_path coder 0 (by omega) hpos
      (show sym < 8 by omega)
    rw [hos]
    refine .bit hlow0 rfl ?_
    have hval : sym = 8 + sym - 8 := by omega
    conv => arg 5; rw [hval]
    exact hpath.map fun s => s - 8

end

section
variable {len dist : ℕ}

theorem slotBits_path {lps slot : ℕ} (hlps : lps < 4) (h : slot < 64) :
    Path DistSlot.InTable distPlace (tree (posSlot + 64 * lps) 6 1)
      (treeLoop (.posSlot lps) kNumPosSlotBits kNumPosSlotBits (slot + (1 <<< kNumPosSlotBits)))
      (64 + slot) := by
  have hslot : ∀ i, 0 < i → i < 2 ^ 6 → DistSlot.InTable (.posSlot lps i) ∧
      distPlace (.posSlot lps i) = posSlot + 64 * lps + i :=
    fun i _ hi => ⟨⟨hlps, hi⟩, (Nat.add_assoc _ _ _).symm⟩
  have h := treeLoop_whole hslot (show 0 < 6 by norm_num) (by norm_num) h
  rw [show slot + (1 <<< kNumPosSlotBits) = 2 ^ 6 + slot from Nat.add_comm _ _]
  exact h

theorem mirrorFooter_eq {d k m : ℕ} (hd : d = 2 ∨ d = 3) (hm : m < 2 ^ k) :
    mirrorFooter (d * 2 ^ k + m) = d * 2 ^ k + mirrorNode m := by
  have hpow : 2 ^ (k + 1) = 2 * 2 ^ k := by ring
  have hpow2 : 2 ^ (k + 2) = 4 * 2 ^ k := by ring
  have hpos : 0 < 2 ^ k := by positivity
  have hlog : Nat.log2 (d * 2 ^ k + m) = k + 1 := by
    refine (Nat.log2_eq_iff ?_).mpr ⟨?_, ?_⟩ <;> obtain rfl | rfl := hd <;> omega
  have hmod : (d * 2 ^ k + m) % 2 ^ k = m := by
    rw [Nat.add_comm, Nat.add_mul_mod_self_right, Nat.mod_eq_of_lt hm]
  unfold mirrorFooter
  simp only [hlog, Nat.add_sub_cancel, hmod]

/-- A distance with a footer: its slot's number of footer bits and their first. -/
theorem slot_parts (h4 : 4 ≤ dist) (hlt : dist < 2 ^ 32) : ∃ k d, posSlotClz dist = 2 * k + d ∧
    (d = 2 ∨ d = 3) ∧ dist / 2 ^ k = d ∧ 1 ≤ k ∧ k ≤ 30 ∧ (dist < 128 ↔ k ≤ 5) := by
  obtain ⟨k, hge, htop⟩ := exists_top (show 2 ≤ dist by omega)
  have hk1 : 1 ≤ k := by
    by_contra hk
    obtain rfl : k = 0 := by omega
    norm_num at htop
    omega
  have h30 : k ≤ 30 := by
    by_contra hk
    have : 2 ^ 32 ≤ 2 ^ (k + 1) := Nat.pow_le_pow_right (by norm_num) (by omega)
    omega
  have hdiv : dist / 2 ^ k = 2 ∨ dist / 2 ^ k = 3 := by
    have h3 : 2 ≤ dist / 2 ^ k := by
      rw [Nat.le_div_iff_mul_le (by positivity), ← pow_succ']
      exact hge
    have h4 : dist / 2 ^ k < 4 := by
      rw [Nat.div_lt_iff_lt_mul (by positivity), show 4 * 2 ^ k = 2 ^ (k + 2) by ring]
      exact htop
    omega
  refine ⟨k, dist / 2 ^ k, posSlotClz_eq h30 hge htop, hdiv, rfl, hk1, h30, fun h => ?_,
    fun h => ?_⟩
  · by_contra hk
    have : 2 ^ 7 ≤ 2 ^ (k + 1) := Nat.pow_le_pow_right (by norm_num) (by omega)
    omega
  · have : 2 ^ (k + 2) ≤ 2 ^ 7 := Nat.pow_le_pow_right (by norm_num) (by omega)
    omega

theorem footer_path {d k : ℕ} (hd : d = 2 ∨ d = 3) (hk : k ≤ 5) (hdiv : dist / 2 ^ k = d) :
    Path DistSlot.InTable distPlace
      ((revBits (specPos + d * 2 ^ k) k 1 0).bind fun v => .pure (d * 2 ^ k + v))
      (rcTreeReverseEncode (fun m => .pos (d * 2 ^ k + m)) k dist) dist := by
  have hslot : ∀ m, 0 < m → m < 2 ^ k → DistSlot.InTable (.pos (d * 2 ^ k + m)) ∧
      distPlace (.pos (d * 2 ^ k + m)) = specPos + d * 2 ^ k + mirrorNode m := by
    intro m _ hm
    have hpow : 2 ^ k ≤ 2 ^ 5 := Nat.pow_le_pow_right (by norm_num) hk
    constructor
    · change d * 2 ^ k + m < 128
      obtain rfl | rfl := hd <;> omega
    · change specPos + mirrorFooter (d * 2 ^ k + m) = _
      rw [mirrorFooter_eq hd hm, Nat.add_assoc]
  have h := @reverseLoop_whole _ DistSlot.InTable distPlace _ _ _ hslot dist
  have hval : dist = d * 2 ^ k + dist % 2 ^ k := by
    rw [← hdiv, mul_comm]
    exact (Nat.div_add_mod _ _).symm
  conv => arg 5; rw [hval]
  exact h.map fun v => d * 2 ^ k + v

theorem far_path {d k : ℕ} (hk6 : 6 ≤ k) (hk30 : k ≤ 30) (hdiv : dist / 2 ^ k = d) :
    Path DistSlot.InTable distPlace
      ((directProg (k - 4) d).bind fun d => (revBits align 4 1 0).bind fun v => .pure (16 * d + v))
      (directLoop 32 (u32 ((dist ||| 0xF) <<< (32 - k))) ++ reverseLoop .align 4 1 dist) dist := by
  have hor : (dist ||| 0xF) % 16 = 15 := by
    have hlow : ∀ d < 16, d ||| 15 = 15 := by decide
    rw [show 16 = 2 ^ 4 by rfl, Nat.or_mod_two_pow]
    exact hlow _ (Nat.mod_lt _ (by norm_num))
  have hhigh : (dist ||| 0xF) / 16 = dist / 16 := by
    rw [show 16 = 2 ^ 4 by rfl, ← Nat.shiftRight_eq_div_pow, Nat.shiftRight_or_distrib,
      Nat.shiftRight_eq_div_pow, Nat.shiftRight_eq_div_pow]
    exact Nat.or_zero _
  have hpos2 : u32 ((dist ||| 0xF) <<< (32 - k)) =
      (dist ||| 0xF) % 2 ^ (k - 4 + 4) * 2 ^ (28 - (k - 4)) := by
    have hword : (2 : ℕ) ^ 32 = 2 ^ k * 2 ^ (32 - k) := by
      rw [← pow_add]
      congr 1
      omega
    rw [Nat.shiftLeft_eq, u32, hword, Nat.mul_mod_mul_right, show k - 4 + 4 = k by omega,
      show 28 - (k - 4) = 32 - k by omega]
  have hmiddle : d * 2 ^ (k - 4) + dist / 16 % 2 ^ (k - 4) = dist / 16 := by
    have hsplit : dist / 16 / 2 ^ (k - 4) = d := by
      rw [Nat.div_div_eq_div_mul, ← hdiv, show (16 : ℕ) = 2 ^ 4 by rfl, ← pow_add,
        show 4 + (k - 4) = k by omega]
    rw [← hsplit, mul_comm]
    exact Nat.div_add_mod _ _
  have hdirect : Path DistSlot.InTable distPlace (directProg (k - 4) d) _ _ :=
    directLoop_path (by omega) (by omega) (show k - 4 ≤ 32 by omega) hor
  rw [hhigh, hmiddle, ← hpos2] at hdirect
  have hslot : ∀ m, 0 < m → m < 2 ^ 4 → DistSlot.InTable (.align m) ∧
      distPlace (.align m) = align + mirrorNode m := fun m _ hm => ⟨hm, rfl⟩
  have halign := @reverseLoop_whole _ DistSlot.InTable distPlace _ _ _ hslot dist
  apply hdirect.bind
  have hval : dist = 16 * (dist / 16) + dist % 2 ^ 4 := by omega
  conv => arg 5; rw [hval]
  exact halign.map fun v => 16 * (dist / 16) + v

theorem distEncode_path (build : SlotBuild) (hlen : 2 ≤ len) (h : dist < 2 ^ 32) : ∃ os,
    distEncode build len dist = .ok os ∧
    Path DistSlot.InTable distPlace (distProg (len - 2)) os dist := by
  have hstart : kStartPosModelIndex = 4 := by decide
  have hfull : kNumFullDistances = 128 := by decide
  have hend : kEndPosModelIndex = 14 := by decide
  have hlps : getLenToPosState len = min (len - 2) 3 := by
    unfold getLenToPosState
    rw [show kNumLenToPosStates = 4 by decide]
    split <;> omega
  have hlps4 : min (len - 2) 3 < 4 := by omega
  unfold distEncode distProg
  rw [getPosSlot_eq build h, ok_bind]
  simp only [hlps, hstart, hfull]
  by_cases h4 : 4 ≤ dist
  · rw [if_pos h4]
    obtain ⟨k, d, hslot, hd, hdiv, hk1, hk30, hnear⟩ := slot_parts h4 h
    have hslot64 : posSlotClz dist < 64 := by omega
    have hbits : (posSlotClz dist >>> 1) - 1 = k := by
      rw [Nat.shiftRight_eq_div_pow, pow_one]
      omega
    have htop : 2 ||| (posSlotClz dist &&& 1) = d := by
      rw [Nat.and_one_is_mod, hslot]
      obtain rfl | rfl := hd
      · rw [show (2 * k + 2) % 2 = 0 by omega]
        rfl
      · rw [show (2 * k + 3) % 2 = 1 by omega]
        rfl
    have hprog : slotProg (64 + posSlotClz dist - 64) = if k ≤ 5 then
        (revBits (specPos + d * 2 ^ k) k 1 0).bind fun v => .pure (d * 2 ^ k + v)
      else (directProg (k - 4) d).bind fun d => (revBits align 4 1 0).bind fun v =>
        .pure (16 * d + v) := by
      rw [Nat.add_sub_cancel_left, slotProg, hstart, if_neg (by omega), hend,
        show posSlotClz dist / 2 - 1 = k by omega, show 2 + posSlotClz dist % 2 = d by omega]
      simp only
      congr 1
      exact propext ⟨fun h => by omega, fun h => by omega⟩
    simp only [hbits, htop, Nat.shiftLeft_eq]
    by_cases hsmall : dist < 128
    · rw [if_pos hsmall]
      refine ⟨_, rfl, (slotBits_path hlps4 hslot64).bind ?_⟩
      rw [hprog, if_pos (hnear.mp hsmall)]
      exact footer_path hd (hnear.mp hsmall) hdiv
    · rw [if_neg hsmall]
      have hk6 : ¬ k ≤ 5 := fun hk => hsmall (hnear.mpr hk)
      refine ⟨_, rfl, ?_⟩
      rw [List.append_assoc]
      apply (slotBits_path hlps4 hslot64).bind
      rw [hprog, if_neg hk6, ← Nat.shiftLeft_eq]
      exact far_path (by omega) hk30 hdiv
  · rw [if_neg h4]
    have hsmall : posSlotClz dist = dist := by
      have hall : ∀ d < 4, posSlotClz d = d := by decide
      exact hall dist (by omega)
    refine ⟨_, rfl, ?_⟩
    have hend : Path DistSlot.InTable distPlace (slotProg (64 + posSlotClz dist - 64)) [] dist := by
      rw [Nat.add_sub_cancel_left, hsmall, slotProg, hstart, if_pos (by omega)]
      exact .pure dist
    have hpath := (slotBits_path hlps4 (show posSlotClz dist < 64 by omega)).bind
      (f := fun s => slotProg (s - 64)) hend
    rwa [List.append_nil] at hpath

end

end LzmaTurbo.Enc
