import LzmaTurbo.Lzma.Peeks

/-!
# The dry run of one symbol

Each checked macro follows the same part of the symbol program as its fast
counterpart, so the dry run names the kind of the next symbol and its length.
-/
namespace LzmaTurbo.Lzma
open Machine BitProgram Window
open RangeDecoder (Coder Outcome peek run)

section
variable {probs : Array ℕ} {buf : List UInt8} {N : ℕ} {t : Scan} {c : Coder ℕ}
  {rest : List UInt8}

theorem treeCheck_peeks {base n i j limit fuel : ℕ} (hi : 2 ^ j ≤ i ∧ i < 2 ^ (j + 1))
    (hlimit : limit = 2 ^ (j + n + 1)) (hfuel : n < fuel) (hb : base + limit ≤ N)
    (hT : Table probs N c) (h : Sees buf t c rest) :
    Peeks buf (treeCheck probs buf base limit fuel i t) (tree base (n + 1) i) c rest
      (fun s t => .ok (s, t)) := by
  induction n generalizing i j fuel t c rest with
  | zero =>
      match fuel with
      | 0 => omega
      | fuel + 1 =>
          rw [add_zero] at hlimit
          refine peeks_getBitCheck hT h (by omega) (fun b t' c' rest' _ h' => peeks_pure h' ?_)
          have hsum : i + i + b.toNat = 2 * i + b.toNat := by omega
          have hstop : limit ≤ 2 * i + b.toNat := by
            rw [hlimit, pow_succ]
            omega
          simp only [hsum, if_pos hstop]
  | succ n ih =>
      match fuel with
      | 0 => omega
      | fuel + 1 =>
          have hpow : (2 : ℕ) ^ (j + 1) ≤ 2 ^ (j + (n + 1) + 1) :=
            Nat.pow_le_pow_right (by norm_num) (by omega)
          have hpow2 : (2 : ℕ) ^ (j + 1 + 1) ≤ 2 ^ (j + (n + 1) + 1) :=
            Nat.pow_le_pow_right (by norm_num) (by omega)
          have hsucc : (2 : ℕ) ^ (j + 1 + 1) = 2 * 2 ^ (j + 1) := pow_succ' 2 (j + 1)
          have hsucc1 : (2 : ℕ) ^ (j + 1) = 2 * 2 ^ j := pow_succ' 2 j
          refine peeks_getBitCheck hT h (by omega) (fun b t' c' rest' hT' h' => ?_)
          have hb1 := b.toNat_le
          have hsum : i + i + b.toNat = 2 * i + b.toNat := by omega
          have hgo : ¬ limit ≤ 2 * i + b.toNat := by omega
          simp only [hsum, if_neg hgo]
          exact ih (j := j + 1) (by omega) (by rw [hlimit]; congr 1; omega) (by omega) hT' h'

theorem matchedCheck_peeks {base n fuel : ℕ} (mb sym : ℕ) (same : Bool) (hn : n < 8)
    (hs : 2 ^ (7 - n) ≤ sym ∧ sym < 2 ^ (8 - n)) (hfuel : n < fuel)
    (hb : base + lzmaLitSize ≤ N) (hT : Table probs N c) (h : Sees buf t c rest) :
    Peeks buf
      (matchedCheck probs buf base fuel sym (mb * 2 ^ (7 - n)) (if same then 0x100 else 0) t)
      (matchedTree base mb (n + 1) sym same) c rest (fun _ t => .ok t) := by
  have hl := layout
  induction n generalizing sym same fuel t c rest with
  | zero =>
      match fuel with
      | 0 => omega
      | fuel + 1 =>
          obtain ⟨hoffs, hslot, hlt⟩ := matched_slot mb same hn hs.2 hb
          simp only [matchedCheck, ← two_mul, ← mul_assoc, mul_comm 2 mb]
          rw [mul_assoc mb 2, ← pow_succ', show 7 - 0 + 1 = 8 - 0 from rfl, hoffs, hslot]
          refine peeks_getBitCheck hT h hlt (fun b t' c' rest' _ h' => peeks_pure h' ?_)
          have hstop : 0x100 ≤ 2 * sym + b.toNat := by omega
          simp only [if_pos hstop]
  | succ n ih =>
      match fuel with
      | 0 => omega
      | fuel + 1 =>
          obtain ⟨hoffs, hslot, hlt⟩ := matched_slot mb same hn hs.2 hb
          have hp7 : (2 : ℕ) ^ (7 - n) = 2 * 2 ^ (7 - (n + 1)) := by
            rw [← pow_succ']
            congr 1
            omega
          have hp8 : (2 : ℕ) ^ (8 - n) = 2 * 2 ^ (8 - (n + 1)) := by
            rw [← pow_succ']
            congr 1
            omega
          have h128 : (2 : ℕ) ^ (8 - (n + 1)) ≤ 2 ^ 7 :=
            Nat.pow_le_pow_right (by norm_num) (by omega)
          simp only [matchedCheck, ← two_mul, ← mul_assoc, mul_comm 2 mb]
          rw [mul_assoc mb 2, ← pow_succ', show 7 - (n + 1) + 1 = 8 - (n + 1) by omega, hoffs,
            hslot]
          refine peeks_getBitCheck hT h hlt (fun b t' c' rest' hT' h' => ?_)
          have hb1 := b.toNat_le
          have hgo : ¬ 0x100 ≤ 2 * sym + b.toNat := by omega
          have hnext : (if b then (if same then 256 * (mb.testBit (n + 1)).toNat else 0) else
              (if same then 256 * (mb.testBit (n + 1)).toNat else 0) ^^^
                (if same then 0x100 else 0)) =
              if (same && (mb.testBit (n + 1) == b)) then 0x100 else 0 := by
            cases same <;> cases mb.testBit (n + 1) <;> cases b <;> rfl
          simp only [if_neg hgo, hnext]
          rw [show 8 - (n + 1) = 7 - n by omega]
          exact ih _ _ (by omega) (by omega) (by omega) hT' h'

theorem revCheck_peeks {base n m v : ℕ} (hv : v < m) (hb : base + m * 2 ^ n ≤ N)
    (hT : Table probs N c) (h : Sees buf t c rest) :
    Peeks buf (revCheck probs buf base n (m + v) m t) (revBits base n m v) c rest
      (fun _ t => .ok t) := by
  induction n generalizing m v t c rest with
  | zero => exact peeks_pure h rfl
  | succ n ih =>
      have h2 : m * 2 ^ (n + 1) = 2 * m * 2 ^ n := by ring
      have hle : 2 * m ≤ 2 * m * 2 ^ n := Nat.le_mul_of_pos_right _ (by positivity)
      rw [h2] at hb
      refine peeks_getBitCheck hT h (by omega) (fun b t' c' rest' hT' h' => ?_)
      have hmul : b.toNat * m ≤ m := by cases b <;> simp
      have hnext : (if b then m + v + (m + m) else m + v + m) = 2 * m + (v + b.toNat * m) := by
        cases b <;> simp <;> omega
      simp only [hnext]
      simp only [← two_mul m]
      exact ih (by omega) hb hT' h'

theorem directCheck_peeks {n d : ℕ} (hT : Table probs N c) (h : Sees buf t c rest) :
    Peeks buf (directCheck buf n t) (directProg n d) c rest (fun _ t => .ok t) := by
  induction n generalizing d t c rest with
  | zero => exact peeks_pure h rfl
  | succ n ih =>
      unfold Peeks
      simp only [directCheck, directProg, peek]
      obtain ⟨h1, pos, h2⟩ | ⟨e, ys, t', h1, h2, h3, hp, hr⟩ := normalizeCheck_sees h
      · rw [h1, h2]
        exact ⟨pos, rfl⟩
      · have hrl := h3.good.range_lt
        have hcl := h3.good.code_lt
        have hhalf : e.range >>> 1 = e.range / 2 := by rw [Nat.shiftRight_eq_div_pow, pow_one]
        have hgood := RangeDecoder.splitDirect_good h3.good hr
        have hT' : Table probs N e.splitDirect.2 := by
          have hpe : e.splitDirect.2.probs = e.probs := by
            simp only [Coder.splitDirect]
            split <;> rfl
          intro i hi
          rw [hpe, hp]
          exact hT i hi
        set mask := wrappingSub32 (wrappingSub32 e.code (e.range / 2) >>> 31) 1 with hmask
        have hcode : sub e.code (e.range / 2 &&& mask) = .ok e.splitDirect.2.code := by
          have hsign : wrappingSub32 e.code (e.range / 2) >>> 31 =
              wrappingSub32 e.code (e.range / 2) / 2 ^ 31 := Nat.shiftRight_eq_div_pow _ _
          have hdiff : wrappingSub32 e.code (e.range / 2) =
              (e.code + (2 ^ 32 - e.range / 2)) % 2 ^ 32 := by
            unfold wrappingSub32
            omega
          by_cases hb : (e.code + (2 ^ 32 - e.range / 2)) % 2 ^ 32 < 2 ^ 31
          · have hm : mask = maskOf true := by
              rw [hmask, hsign, hdiff, Nat.div_eq_of_lt hb]
              decide
            rw [hm, and_maskOf (by omega), if_pos rfl, sub_ok (by omega)]
            simp only [Coder.splitDirect, if_pos hb, Except.ok.injEq]
            omega
          · have hm : mask = maskOf false := by
              rw [hmask, hsign, hdiff,
                show (e.code + (2 ^ 32 - e.range / 2)) % 2 ^ 32 / 2 ^ 31 = 1 by omega]
              decide
            rw [hm, and_maskOf (by omega), if_neg (by simp), sub_ok (Nat.zero_le _)]
            simp only [Coder.splitDirect, if_neg hb, Nat.sub_zero]
        simp only [h1, h2, ok_bind, h3.range, h3.code, hhalf, ← hmask, hcode, liftFault_ok]
        exact ih (d := 2 * d + e.splitDirect.1.toNat) hT'
          ⟨(RangeDecoder.splitDirect_range e).symm, rfl, h3.drop, h3.pos_le, hgood⟩

variable {p : LzmaDec}

/-- One of the three trees of the length coder; `g` is what the format makes of it. -/
theorem lenTree_peeks {root n limit offset : ℕ} {g : ℕ → ℕ} (hlimit : limit = 2 ^ (n + 1))
    (hg : ∀ s, limit ≤ s → s - limit + offset = g s) (hb : root + limit ≤ N)
    (hT : Table p.probs N c) (h : Sees buf t c rest) :
    Peeks buf (do
        let (len, s) ← treeCheck p.probs buf root limit limit 1 t
        let len ← liftFault (sub len limit)
        .ok (len + offset, s))
      ((tree root (n + 1) 1).bind fun s => .pure (g s)) c rest (fun len t => .ok (len, t)) := by
  have hfuel : n < limit := by
    rw [hlimit]
    exact lt_trans n.lt_succ_self Nat.lt_two_pow_self
  refine Peeks.bind hT (treeCheck_peeks (j := 0) (i := 1) (by norm_num)
    (by rw [hlimit, Nat.zero_add]) hfuel hb hT h) (tree_spec root (n + 1)).returns
    (fun s t' c' rest' hs _ h' => peeks_pure h' ?_)
  rw [← hlimit] at hs
  simp only [ok_bind, sub_ok hs.1, liftFault_ok, hg s hs.1]

theorem lenCheck_peeks {base posState : ℕ} (hp : posState < 16) (hb : base + kNumLenProbs ≤ N)
    (hT : Table p.probs N c) (h : Sees buf t c rest) :
    Peeks buf (lenCheck p buf base (16 * posState) t) (lenProg base posState) c rest
      (fun len t => .ok (len, t)) := by
  have hl := layout
  have h8 : 1 <<< kLenNumLowBits = 8 := by decide
  have h256 : 1 <<< kLenNumHighBits = 256 := by decide
  have hsym : kLenNumLowSymbols = 8 := by decide
  unfold lenCheck lenProg
  rw [h8, h256, hsym]
  refine peeks_getBitCheck hT h (by omega) (fun b t₁ c₁ rest₁ hT₁ h₁ => ?_)
  cases b with
  | false => exact lenTree_peeks rfl (fun _ _ => rfl) (by omega) hT₁ h₁
  | true =>
      simp only [Bool.not_true, Bool.false_eq_true, if_false]
      refine peeks_getBitCheck hT₁ h₁ (by omega) (fun b t₂ c₂ rest₂ hT₂ h₂ => ?_)
      cases b with
      | false =>
          have hroot : base + (lenLow + 16 * posState + 8) + 8 ≤ N := by omega
          have hid := lenTree_peeks (g := fun s => s) (show 8 = 2 ^ (2 + 1) from rfl)
            (fun s hs => Nat.sub_add_cancel hs) hroot hT₂ h₂
          rw [Prog.bind_pure] at hid
          exact hid
      | true => exact lenTree_peeks rfl (fun _ _ => rfl) (by omega) hT₂ h₂

theorem distanceCheck_peeks (hb : literal ≤ N) (len : ℕ) (hT : Table p.probs N c)
    (h : Sees buf t c rest) :
    Peeks buf (distanceCheck p buf len t) (distProg len) c rest (fun _ t => .ok t) := by
  have hl := layout
  have htemp : (if len < kNumLenToPosStates - 1 then len else kNumLenToPosStates - 1) <<<
      kNumPosSlotBits = 64 * min len 3 := by
    rw [Nat.shiftLeft_eq]
    simp only [kNumLenToPosStates, kNumPosSlotBits]
    split <;> omega
  have hm : min len 3 ≤ 3 := min_le_right _ _
  have h64 : 1 <<< kNumPosSlotBits = 64 := by decide
  unfold distanceCheck distProg
  rw [htemp, h64]
  refine Peeks.bind hT (treeCheck_peeks (j := 0) (n := 5) (i := 1) (by decide) (by decide)
    (by decide) (by omega) hT h) (tree_spec _ 6).returns (fun s t₁ c₁ rest₁ hs hT₁ h₁ => ?_)
  simp only [ok_bind, sub_ok (show 64 ≤ s by omega), liftFault_ok]
  have hlt : s - 64 < 64 := by omega
  generalize s - 64 = slot at hlt ⊢
  unfold slotProg
  by_cases h4 : kStartPosModelIndex ≤ slot
  · have hhalf : slot >>> 1 = slot / 2 := by rw [Nat.shiftRight_eq_div_pow, pow_one]
    rw [if_pos h4, if_neg (by omega), hhalf, sub_ok (by omega), liftFault_ok, ok_bind,
      two_or_and_one]
    by_cases h14 : slot < kEndPosModelIndex
    · have hn : slot / 2 - 1 ≤ 5 := by omega
      have hpow : (2 : ℕ) ^ (slot / 2 - 1) ≤ 2 ^ 5 := Nat.pow_le_pow_right (by norm_num) hn
      have hmul : (2 + slot % 2) * 2 ^ (slot / 2 - 1) ≤ 3 * 2 ^ 5 :=
        Nat.mul_le_mul (by omega) hpow
      rw [if_pos h14, if_pos h14, Nat.shiftLeft_eq]
      exact (revCheck_peeks (v := 0) (m := 1) (by omega) (by omega) hT₁ h₁).map _ _
    · rw [if_neg h14, if_neg h14, show kNumAlignBits = 4 from rfl, sub_ok (by omega),
        liftFault_ok, ok_bind]
      refine Peeks.bind hT₁ (directCheck_peeks hT₁ h₁) (Prog.returns_true _)
        (fun d t₂ c₂ rest₂ _ hT₂ h₂ => ?_)
      exact (revCheck_peeks (v := 0) (m := 1) (by omega) (by omega) hT₂ h₂).map _ _
  · rw [if_neg h4, if_pos (by omega)]
    exact peeks_pure h₁ rfl

variable {s : RefState} {w : List UInt8}

theorem LzmaDec.Core.litProb (h : p.Core s w) (hr : p.remainLen = 0) :
    litProb p = .ok (litProbOf p.prop s.hist) := by
  obtain rfl := h.written hr
  have hm := h.mirrors hr 0 [] 0
  have hz : (s.hist.length % 2 ^ 32 = 0 ∧ checkOf p.prop s.hist.length = 0) ↔
      s.hist.length = 0 := position_zero
  unfold Lzma.litProb litProbOf
  rw [h.processed, h.check]
  cases hh : s.hist with
  | nil => simp [checkOf, p.prop.dict_ge.trans_lt', show 0 < lzmaDicMin by decide]
  | cons b hist =>
      rw [hh, List.length_cons] at hz
      have hne : checkOf p.prop (b :: hist).length ≠ 0 ∨ (b :: hist).length % 2 ^ 32 ≠ 0 := by
        rw [List.length_cons]
        omega
      have hsize : 0 < p.dicBufSize := hm.size_pos (by simp [hh])
      obtain ⟨i, hi, hget⟩ := Holds.last (hh ▸ h.holds) hsize
      have hlp : (2 : ℕ) ^ p.prop.lp ∣ 2 ^ 32 :=
        Nat.pow_dvd_pow 2 (by have := p.prop.lp_le; omega)
      rw [if_pos hne, hi, liftFault_ok, ok_bind, hget, liftFault_ok, ok_bind, Nat.one_shiftLeft,
        Nat.and_two_pow_sub_one_eq_mod, Nat.mod_mod_of_dvd _ hlp, Nat.shiftLeft_eq,
        Nat.shiftRight_eq_div_pow, List.headD_cons]

/-- How the dry run names a symbol. -/
def kindOf : Symbol → Dummy
  | .lit _ => .lit
  | .simple _ _ => .matched
  | .shortRep => .rep
  | .rep _ _ => .rep

theorem litCheck_peeks (h : p.Core s w) (hr : p.remainLen = 0)
    (hc : (s.ctx p.prop).Ok N) (hT : Table p.probs N c) (ht : Sees buf t c rest) :
    Peeks buf (litCheck p buf t) (litProg (s.ctx p.prop)) c rest (fun _ t => .ok t) := by
  have hl := layout
  have h1 := hc.lit_ge
  have h2 := hc.lit_le
  have hlit : (s.ctx p.prop).litProb = litProbOf p.prop s.hist := rfl
  have hst : p.state = s.state := h.owes.state
  unfold litCheck litProg
  rw [h.litProb hr, ok_bind, hst, show (s.ctx p.prop).state = s.state from rfl]
  by_cases hs : s.state < kNumLitStates
  · rw [if_pos hs, if_pos hs]
    refine Peeks.bind hT (treeCheck_peeks (j := 0) (n := 7) (i := 1) (by decide) (by decide)
      (by decide) (by omega) hT ht) (Prog.returns_true _)
      (fun b t' c' rest' _ _ h' => peeks_pure h' rfl)
  · have hne : s.hist ≠ [] := fun hnil => hs (by rw [h.begun.plain hnil]; decide)
    have hlen := List.length_pos_iff.mpr hne
    have hr0 := h.begun.reps 0
    simp only [Reps.nth] at hr0
    have hm := h.mirrors hr 0 [] 0
    have hget := hm.get_back (envOf_for p h.size_lt 0 [] 0) (k := s.reps.rep0 - 1) (by omega)
      (by omega)
    rw [show s.reps.rep0 - 1 + 1 = s.reps.rep0 by omega] at hget
    have hreps : p.reps = s.reps := h.owes.reps
    have hat : get p.dic (wrappingAdd64 (wrappingSub64 p.dicPos p.reps.rep0)
        (if p.dicPos < p.reps.rep0 then p.dicBufSize else 0)) =
        .ok (s.hist.getD (s.reps.rep0 - 1) 0) := by
      rw [hreps]
      exact hget
    rw [if_neg hs, if_neg hs]
    simp only [hat, liftFault_ok, ok_bind]
    have hm8 := matchedCheck_peeks (s.hist.getD (s.reps.rep0 - 1) 0).toNat 1 true
      (by norm_num : 7 < 8) (by decide) (by norm_num : 7 < 0x100)
      (show litProbOf p.prop s.hist + lzmaLitSize ≤ _ by omega) hT ht
    rw [show 7 - 7 = 0 from rfl, pow_zero, mul_one, if_pos rfl] at hm8
    exact hm8.map _ _

/-- The dry run asks what the format asks. -/
theorem dummySymbol_peeks (h : p.Core s w) (hr : p.remainLen = 0)
    (hc : (s.ctx p.prop).Ok N) (hT : Table p.probs N c) (ht : Sees buf t c rest) :
    Peeks buf (dummySymbol p buf t) (symbolProg { s.ctx p.prop with canRep := true }) c rest
      (fun sym t => .ok (kindOf sym, t)) := by
  have hl := layout
  have h1 := hc.lit_ge
  have h2 := hc.lit_le
  have hst : s.state < kNumStates := hc.state_lt
  have hps := hc.posState_lt
  obtain rfl := h.written hr
  have hposState : (p.processedPos &&& ((1 <<< p.prop.pb) - 1)) <<< 4 =
      16 * (s.ctx p.prop).posState := by
    rw [Nat.one_shiftLeft, Nat.and_two_pow_sub_one_eq_mod, h.processed, Nat.shiftLeft_eq,
      Nat.mod_mod_of_dvd _ (Nat.pow_dvd_pow 2 (by have := p.prop.pb_le; omega)), mul_comm]
    rfl
  have hstate : p.state = s.state := h.owes.state
  unfold dummySymbol symbolProg
  rw [hposState, hstate]
  refine peeks_getBitCheck hT ht (by omega) (fun b t₁ c₁ rest₁ hT₁ h₁ => ?_)
  have hrep : ∀ {index : ℕ} {t' : Scan} {c' : Coder ℕ} {rest' : List UInt8},
      Table p.probs N c' → Sees buf t' c' rest' →
      Peeks buf (do
          let (_, s) ← lenCheck p buf repLenCoder (16 * (s.ctx p.prop).posState) t'
          .ok (Dummy.rep, s))
        (repTail { s.ctx p.prop with canRep := true } index) c' rest'
        (fun sym t => .ok (kindOf sym, t)) := fun hT' h' =>
    Peeks.bind hT' (lenCheck_peeks hps (by omega) hT' h') (Prog.returns_true _)
      (fun len t'' c'' rest'' _ _ h'' => peeks_pure h'' rfl)
  cases b with
  | false =>
      exact (litCheck_peeks h hr hc hT₁ h₁).andThen (P := fun sym => ∃ b, sym = .lit b)
        ((Prog.returns_true _).bind fun _ _ => ⟨_, rfl⟩) (fun _ _ ⟨_, hb⟩ => by rw [hb]; rfl)
  | true =>
      refine peeks_getBitCheck hT₁ h₁ (by omega) (fun b t₂ c₂ rest₂ hT₂ h₂ => ?_)
      cases b with
      | false =>
          refine Peeks.bind hT₂ (lenCheck_peeks hps (by omega) hT₂ h₂) (Prog.returns_true _)
            (fun len t₃ c₃ rest₃ _ hT₃ h₃ => ?_)
          exact Peeks.bind hT₃ (distanceCheck_peeks (by omega) len hT₃ h₃) (Prog.returns_true _)
            (fun dist t₄ c₄ rest₄ _ _ h₄ => peeks_pure h₄ rfl)
      | true =>
          refine peeks_getBitCheck hT₂ h₂ (by omega) (fun b t₃ c₃ rest₃ hT₃ h₃ => ?_)
          cases b with
          | false =>
              refine peeks_getBitCheck hT₃ h₃ (by omega) (fun b t₄ c₄ rest₄ hT₄ h₄ => ?_)
              cases b with
              | false => exact peeks_pure h₄ rfl
              | true => exact hrep hT₄ h₄
          | true =>
              refine peeks_getBitCheck hT₃ h₃ (by omega) (fun b t₄ c₄ rest₄ hT₄ h₄ => ?_)
              cases b with
              | false => exact hrep hT₄ h₄
              | true =>
                  simp only [Bool.not_true, Bool.false_eq_true, if_false]
                  exact peeks_getBitCheck hT₄ h₄ (show isRepG2 + s.state < _ by omega)
                    (fun b t₅ c₅ rest₅ hT₅ h₅ => hrep hT₅ h₅)

/-- The dry run as a whole: the kind of the next symbol and its length in bytes. -/
theorem lzmaDecTryDummy_spec (h : p.Core s w) (hr : p.remainLen = 0) (buf : List UInt8) :
    ((run (symbolProg (s.ctx p.prop)) s.coder buf).flush = .more ∧
      ∃ pos, lzmaDecTryDummy p buf = .ok (.inputEof, pos)) ∨
    ∃ sym d rest n, (run (symbolProg (s.ctx p.prop)) s.coder buf).flush = .done sym d rest ∧
      lzmaDecTryDummy p buf = .ok (kindOf sym, n) ∧ n ≤ buf.length ∧ buf.drop n = rest := by
  have hc : (s.ctx p.prop).Ok (lzmaPropsGetNumProbs p.prop.lc p.prop.lp) :=
    s.ctx_ok h.begun.state_lt
  have hc' : ({ s.ctx p.prop with canRep := true } : Ctx).Ok _ :=
    ⟨hc.posState_lt, hc.state_lt, hc.lit_ge, hc.lit_le⟩
  have hspec := symbolProg_spec hc' rfl
  have ht : Sees buf { range := p.range, code := p.code, pos := 0 } s.coder buf :=
    ⟨h.range, h.code, rfl, Nat.zero_le _, h.begun.good⟩
  have hpk := dummySymbol_peeks h hr hc h.table ht
  have hag := (RangeDecoder.run_agree_peek (c := s.coder) (d := s.coder) hspec.once rfl rfl
    (hspec.slots.mono fun _ _ => rfl) buf)
  rw [h.begun.run_eq] at hag
  unfold Peeks at hpk
  unfold lzmaDecTryDummy
  cases hrun : run (symbolProg (s.ctx p.prop)) s.coder buf with
  | fail => exact absurd hrun (h.begun.ne_fail buf)
  | more =>
      rw [hrun] at hag
      cases hp : peek (symbolProg { s.ctx p.prop with canRep := true }) s.coder buf with
      | fail => rw [hp] at hag; exact hag.elim
      | done a c xs => rw [hp] at hag; exact hag.elim
      | more =>
          rw [hp] at hpk
          obtain ⟨pos, hE⟩ := hpk
          rw [hE]
          exact .inl ⟨rfl, pos, rfl⟩
  | done sym d rest =>
      rw [hrun] at hag
      cases hp : peek (symbolProg { s.ctx p.prop with canRep := true }) s.coder buf with
      | fail => rw [hp] at hag; exact hag.elim
      | more => rw [hp] at hag; exact hag.elim
      | done a c xs =>
          rw [hp] at hag hpk
          obtain ⟨rfl, hrange, hcode, rfl⟩ := hag
          obtain ⟨t', ht', hE⟩ := hpk
          rw [hE, ok_bind]
          obtain ⟨hn1, hn2⟩ | ⟨c', d', ys, hn1, hn2, -⟩ :=
            RangeDecoder.normalize_agree hrange hcode rest
          · obtain ⟨-, pos, hN⟩ | ⟨e, zs, t'', h1, -⟩ := normalizeCheck_sees ht'
            · simp only [hN, error_bind]
              exact .inl ⟨by simp only [Outcome.flush, hn1], pos, rfl⟩
            · rw [hn2] at h1
              cases h1
          · obtain ⟨h1, -⟩ | ⟨e, zs, t'', h1, hN, h3, -⟩ := normalizeCheck_sees ht'
            · rw [hn2] at h1
              cases h1
            · rw [hn2] at h1
              obtain ⟨rfl, rfl⟩ : d' = e ∧ ys = zs := by simpa using h1
              simp only [hN, ok_bind]
              exact .inr ⟨sym, c', ys, t''.pos, by simp only [Outcome.flush, hn1], rfl, h3.pos_le,
                h3.drop⟩

end
end LzmaTurbo.Lzma
