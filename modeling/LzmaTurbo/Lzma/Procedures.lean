import LzmaTurbo.Lzma.Follows
import LzmaTurbo.Lzma.SymbolLaws

/-!
# The loop's procedures read what the symbol program asks

One lemma for each macro of the fast loop, up to the length and the distance.
-/
namespace LzmaTurbo.Lzma
open Machine BitProgram
open RangeDecoder (Coder)

section
variable {src : List UInt8} {size N : ℕ} {rc : Rc} {c : Coder ℕ} {rest : List UInt8}

theorem maskOf_and (b : Bool) {m : ℕ} (hm : m < 2 ^ 32) : m &&& maskOf b = b.toNat * m := by
  rw [and_maskOf hm]
  cases b <;> simp

theorem maskOf_and_one (b : Bool) : maskOf b &&& 1 = b.toNat := by
  cases b <;> rfl

/-- Without masks no child is loaded ahead of its bit. -/
theorem bitTrees_follows (hN : N ≤ size) {base n sym : ℕ} (hb : base + (sym + 1) * 2 ^ n ≤ N)
    (h : Tracks src size N rc c rest) :
    Follows src size N (Branching.bitTrees src base (n + 1) sym rc) (tree base (n + 1) sym) c rest
      (fun s rc => .ok (s, rc)) := by
  induction n generalizing sym rc c rest with
  | zero =>
      rw [pow_zero, mul_one] at hb
      refine follows_ifBit h hN (by omega) (fun b rc' c' rest' h' => follows_pure h' ?_)
      cases b
      · change Except.ok (sym + sym, rc') = .ok (2 * sym + 0, rc')
        rw [two_mul, add_zero]
      · change Except.ok (sym + sym + 1, rc') = .ok (2 * sym + 1, rc')
        rw [two_mul]
  | succ n ih =>
      have h2 : (sym + 1) * 2 ^ (n + 1) = (2 * sym + 2) * 2 ^ n := by ring
      have hle : 2 * sym + 2 ≤ (2 * sym + 2) * 2 ^ n :=
        Nat.le_mul_of_pos_right _ (by positivity)
      refine follows_ifBit h hN (by omega) (fun b rc' c' rest' h' => ?_)
      have hmul : (2 * sym + b.toNat + 1) * 2 ^ n ≤ (2 * sym + 2) * 2 ^ n :=
        Nat.mul_le_mul_right _ (by cases b <;> simp)
      have hsym : (if b then sym + sym + 1 else sym + sym) = 2 * sym + b.toNat := by
        cases b <;> simp [two_mul]
      change Follows src size N (Branching.bitTrees src base (n + 1)
        (if b then sym + sym + 1 else sym + sym) rc') _ _ _ _
      rw [hsym]
      exact ih (by omega) h'

theorem treeDecode_follows (hN : N ≤ size) {base n : ℕ} (hb : base + 2 ^ (n + 1) ≤ N)
    (h : Tracks src size N rc c rest) :
    Follows src size N (treeDecode src base n rc) (tree base (n + 1) 1) c rest
      (fun s rc => .ok (s, rc)) := by
  rw [(treeDecode_same hb h.inUse).eq]
  rw [pow_succ] at hb
  exact bitTrees_follows hN (by omega) h

/-- The source's `matchByte` and `offs` after some levels: the byte shifted, and
`0x100` for as long as every bit agreed. -/
theorem matched_offs {mb n : ℕ} (hn : n < 8) (same : Bool) :
    (if same then 0x100 else 0) &&& (mb * 2 ^ (8 - n)) =
      if same then 256 * (mb.testBit n).toNat else 0 := by
  cases same
  · simp
  · have h8 : (mb * 2 ^ (8 - n)).testBit 8 = mb.testBit n := by
      rw [Nat.testBit_mul_two_pow, show 8 - (8 - n) = n by omega]
      simp
    rw [if_pos rfl, if_pos rfl, show 0x100 = 2 ^ 8 by norm_num, Nat.two_pow_and, h8, mul_comm]

/-- The model both matched-literal loops ask, and its place in the table. -/
theorem matched_slot {base n sym : ℕ} (mb : ℕ) (same : Bool) (hn : n < 8) (hs : sym < 2 ^ (8 - n))
    (hb : base + lzmaLitSize ≤ N) :
    (if same then 0x100 else 0) &&& (mb * 2 ^ (8 - n)) =
      (if same then 256 * (mb.testBit n).toNat else 0) ∧
    base + ((if same then 256 * (mb.testBit n).toNat else 0) + (if same then 0x100 else 0) + sym) =
      base + (if same then 256 * (1 + (mb.testBit n).toNat) else 0) + sym ∧
    base + (if same then 256 * (1 + (mb.testBit n).toNat) else 0) + sym < N := by
  have hl := layout
  have h256 : (2 : ℕ) ^ (8 - n) ≤ 2 ^ 8 := Nat.pow_le_pow_right (by norm_num) (by omega)
  have ht := (mb.testBit n).toNat_le
  refine ⟨matched_offs hn same, ?_, ?_⟩
  · cases same
    · simp
    · simp only [if_true]
      omega
  · cases same
    · simp only [Bool.false_eq_true, if_false]
      omega
    · simp only [if_true]
      omega

theorem matchedLiterDec_follows (hN : N ≤ size) {base n : ℕ} (mb sym : ℕ) (same : Bool)
    (hn : n ≤ 8) (hs : sym < 2 ^ (9 - n)) (hb : base + lzmaLitSize ≤ N)
    (h : Tracks src size N rc c rest) :
    Follows src size N
      (matchedLiterDec src base n sym (mb * 2 ^ (8 - n)) (if same then 0x100 else 0) rc)
      (matchedTree base mb n sym same) c rest (fun s rc => .ok (s, rc)) := by
  have hl := layout
  induction n generalizing sym same rc c rest with
  | zero => exact follows_pure h rfl
  | succ n ih =>
      have hpow : (2 : ℕ) ^ (8 - n) = 2 * 2 ^ (8 - (n + 1)) := by
        rw [← pow_succ']
        congr 1
        omega
      have hnext : (2 : ℕ) ^ (9 - n) = 2 * 2 ^ (9 - (n + 1)) := by
        rw [← pow_succ']
        congr 1
        omega
      have hdouble : mb * 2 ^ (8 - (n + 1)) + mb * 2 ^ (8 - (n + 1)) = mb * 2 ^ (8 - n) := by
        rw [hpow]; ring
      obtain ⟨hoffs, hslot, hlt⟩ := matched_slot mb same
        (by omega : n < 8) (by simpa using hs) hb
      set t := mb.testBit n with ht
      simp only [matchedLiterDec, hdouble, hoffs, hslot, get_probs h hlt]
      refine follows_maskedBit h hN hlt rfl (fun b rc' c' rest' h' _ => ?_)
      have hnext : (if same then 256 * t.toNat else 0) ^^^
          ((if same then 0x100 else 0) &&& not32 (maskOf b)) =
          if (same && (t == b)) then 0x100 else 0 := by
        cases same <;> cases t <;> cases b <;> rfl
      simp only [hnext, maskOf_and_one, ← two_mul]
      refine ih _ _ (by omega) ?_ h'
      have := b.toNat_le
      omega

theorem revBitMask_follows (hN : N ≤ size) {base i : ℕ} (hi : base + i < N)
    (h : Tracks src size N rc c rest) {α γ : Type} {F : ℕ × Rc → Except Fault γ}
    {next : Bool → Prog ℕ α} {K : α → Rc → Except Fault γ}
    (hn : ∀ b rc' c' rest', Tracks src size N rc' c' rest' →
      Follows src size N (F (maskOf b, rc')) (next b) c' rest' K) :
    Follows src size N (revBitMask src base i rc >>= F) (.bit (base + i) next) c rest K := by
  unfold revBitMask
  rw [get_probs h hi]
  exact follows_maskedBit h hN hi rfl (fun b rc' c' rest' h' _ => hn b rc' c' rest' h')

theorem revBitVars_follows (hN : N ≤ size) {base off n m v : ℕ} (hv : v < m)
    (hm : m * 2 ^ n < 2 ^ 32) (hb : base + off + m * 2 ^ n ≤ N)
    (h : Tracks src size N rc c rest) :
    Follows src size N (revBitVars src base n (off + m + v) m rc)
      (revBits (base + off) n m v) c rest
      (fun v rc => .ok (off + m * 2 ^ n + v, m * 2 ^ n, rc)) := by
  induction n generalizing m v rc c rest with
  | zero => exact follows_pure h (by simp [revBitVars])
  | succ n ih =>
      have h2 : m * 2 ^ (n + 1) = 2 * m * 2 ^ n := by ring
      have hle : 2 * m ≤ 2 * m * 2 ^ n := Nat.le_mul_of_pos_right _ (by positivity)
      rw [h2] at hb hm ⊢
      simp only [revBitVars, revBits, show base + off + (m + v) = base + (off + m + v) by omega]
      refine revBitMask_follows hN (by omega) h (fun b rc' c' rest' h' => ?_)
      have hb1 := b.toNat_le
      have hmul : b.toNat * m ≤ m := by
        cases b <;> simp
      have he : off + m + v + (m + b.toNat * m) = off + 2 * m + (v + b.toNat * m) := by omega
      simp only [maskOf_and b (show m < 2 ^ 32 by omega), he, ← two_mul m]
      exact ih (by omega) hm hb h'

/-- The branch-free direct bit: the sign of the difference selects everything. -/
theorem direct_step {e : Coder ℕ} (hg : e.Good) {d : ℕ} (hd : 2 * d + 2 ≤ 2 ^ 32) :
    let half := e.range >>> 1
    let code := wrappingSub32 e.code half
    let t := wrappingSub32 0 (code >>> 31)
    half = e.splitDirect.2.range ∧
    wrappingAdd32 (u32 (d <<< 1)) (wrappingAdd32 t 1) = 2 * d + e.splitDirect.1.toNat ∧
    wrappingAdd32 code (half &&& t) = e.splitDirect.2.code := by
  have hrl := hg.range_lt
  have hcl := hg.code_lt
  have hhalf : e.range >>> 1 = e.range / 2 := by rw [Nat.shiftRight_eq_div_pow, pow_one]
  have hd1 : u32 (d <<< 1) = 2 * d := by
    rw [u32, Nat.shiftLeft_eq]
    omega
  simp only [hhalf, hd1]
  refine ⟨(RangeDecoder.splitDirect_range e).symm, ?_⟩
  set code := wrappingSub32 e.code (e.range / 2) with hcode
  have hc : code = (e.code + (2 ^ 32 - e.range / 2)) % 2 ^ 32 := by
    simp only [hcode, wrappingSub32]
    omega
  have hsign : code >>> 31 = code / 2 ^ 31 := Nat.shiftRight_eq_div_pow _ _
  by_cases hb : code < 2 ^ 31
  · have ht : wrappingSub32 0 (code >>> 31) = maskOf false := by
      rw [hsign, Nat.div_eq_of_lt hb]
      decide
    have hs : e.splitDirect = (true, { e with range := e.range / 2, code := code }) := by
      simp only [Coder.splitDirect, ← hc, if_pos hb]
    rw [ht, hs, and_maskOf (by omega)]
    constructor
    · simp only [maskOf, wrappingAdd32, Bool.toNat_true, Bool.false_eq_true, if_false]
      omega
    · simp only [wrappingAdd32, Bool.false_eq_true, if_false, wrappingSub32] at hcode ⊢
      omega
  · have ht : wrappingSub32 0 (code >>> 31) = maskOf true := by
      have : code < 2 ^ 32 := by rw [hc]; omega
      rw [hsign, show code / 2 ^ 31 = 1 by omega]
      decide
    have hs : e.splitDirect = (false, { e with range := e.range / 2 }) := by
      simp only [Coder.splitDirect, ← hc, if_neg hb]
    rw [ht, hs, and_maskOf (by omega)]
    constructor
    · simp only [maskOf, wrappingAdd32, Bool.toNat_false, if_true]
      omega
    · simp only [wrappingAdd32, if_true]
      omega

theorem directBits_follows {n d : ℕ} (hd : (d + 1) * 2 ^ n ≤ 2 ^ 32)
    (h : Tracks src size N rc c rest) :
    Follows src size N (directBits src n d rc) (directProg n d) c rest
      (fun d rc => .ok (d, rc)) := by
  induction n generalizing d rc c rest with
  | zero => exact follows_pure h rfl
  | succ n ih =>
      have h2 : (d + 1) * 2 ^ (n + 1) = (2 * d + 2) * 2 ^ n := by ring
      have hle : 2 * d + 2 ≤ (2 * d + 2) * 2 ^ n := Nat.le_mul_of_pos_right _ (by positivity)
      rw [h2] at hd
      unfold Follows
      simp only [directBits, directProg, RangeDecoder.run]
      obtain ⟨h1, h3⟩ | ⟨e, ys, rc', h1, h3, ht, -, -, hr⟩ := normalize_tracks h
      · rw [h1, h3]
        rfl
      · obtain ⟨hrange, hdist, hcode⟩ := direct_step ht.good (by omega : 2 * d + 2 ≤ 2 ^ 32)
        have hpe : e.splitDirect.2.probs = e.probs := by
          simp only [Coder.splitDirect]
          split <;> rfl
        have hstep : Tracks src size N { rc' with
            range := e.splitDirect.2.range, code := e.splitDirect.2.code } e.splitDirect.2 ys :=
          ⟨rfl, rfl, hpe ▸ ht.probs, ht.size_eq, ht.drop, ht.buf_le,
            RangeDecoder.splitDirect_good ht.good hr⟩
        have hb := e.splitDirect.1.toNat_le
        have hmul : (2 * d + e.splitDirect.1.toNat + 1) * 2 ^ n ≤ (2 * d + 2) * 2 ^ n :=
          Nat.mul_le_mul_right _ (by omega)
        have hih := ih (d := 2 * d + e.splitDirect.1.toNat) (by omega) hstep
        simp only [h1, h3, bind, Except.bind, ht.range, ht.code, hdist, hcode]
        rw [hrange]
        exact hih

theorem lenDecode_follows (hN : N ≤ size) {base posState : ℕ} (hp : posState < 16)
    (hb : base + kNumLenProbs ≤ N) (h : Tracks src size N rc c rest) :
    Follows src size N (lenDecode src base (16 * posState) rc) (lenProg base posState) c rest
      (fun len rc => .ok (len, rc)) := by
  have hl := layout
  unfold lenDecode lenProg
  refine follows_ifBit h hN (by omega) (fun b rc₁ c₁ rest₁ h₁ => ?_)
  cases b with
  | false =>
      refine (treeDecode_follows hN (by omega) h₁).bind (tree_spec _ 3).returns
        (fun s rc₂ c₂ rest₂ hs h₂ => follows_pure h₂ ?_)
      change (sub s 8 >>= fun len => Except.ok (len, rc₂)) = _
      rw [sub_ok (by omega)]
      rfl
  | true =>
      refine follows_ifBit h₁ hN (by omega) (fun b rc₂ c₂ rest₂ h₂ => ?_)
      cases b with
      | false =>
          have he : base + (lenLow + 16 * posState + (1 <<< kLenNumLowBits)) =
              base + (lenLow + 16 * posState + 8) := rfl
          rw [← he]
          exact treeDecode_follows hN (by rw [he]; omega) h₂
      | true =>
          refine (treeDecode_follows hN (by omega) h₂).bind (tree_spec _ 8).returns
            (fun s rc₃ c₃ rest₃ hs h₃ => follows_pure h₃ ?_)
          change (sub s (1 <<< kLenNumHighBits) >>= fun len =>
            Except.ok (len + kLenNumLowSymbols * 2, rc₃)) = _
          rw [show 1 <<< kLenNumHighBits = 256 by decide, sub_ok (by omega)]
          rfl

/-- One reverse bit of known weight `m`; `i` is the node, `m + v`. -/
theorem revBitConst_follows (hN : N ≤ size) {base i m v : ℕ} (hi : i = m + v) (hm : m < 2 ^ 32)
    (hb : base + i < N) (h : Tracks src size N rc c rest) {α γ : Type}
    {F : ℕ × Rc → Except Fault γ} {next : Bool → Prog ℕ α} {K : α → Rc → Except Fault γ}
    (hn : ∀ b rc' c' rest', Tracks src size N rc' c' rest' →
      Follows src size N (F (2 * m + (v + b.toNat * m), rc')) (next b) c' rest' K) :
    Follows src size N (revBitConst src base i m rc >>= F) (.bit (base + (m + v)) next) c rest
      K := by
  subst hi
  simp only [revBitConst, bind_assoc]
  refine revBitMask_follows hN hb h (fun b rc' c' rest' h' => ?_)
  have he : m + v + (m + (m &&& maskOf b)) = 2 * m + (v + b.toNat * m) := by
    rw [maskOf_and b hm]
    omega
  change Follows src size N (F (m + v + (m + (m &&& maskOf b)), rc')) _ _ _ _
  rw [he]
  exact hn b rc' c' rest' h'

theorem revBitLast_follows (hN : N ≤ size) {base i m v : ℕ} (hi : i = m + v) (hm : m < 2 ^ 32)
    (hb : base + i < N) (h : Tracks src size N rc c rest) {α γ : Type}
    {F : ℕ × Rc → Except Fault γ} {next : Bool → Prog ℕ α} {K : α → Rc → Except Fault γ}
    (hn : ∀ b rc' c' rest', Tracks src size N rc' c' rest' →
      Follows src size N (F (v + b.toNat * m, rc')) (next b) c' rest' K) :
    Follows src size N (revBitLast src base i m rc >>= F) (.bit (base + (m + v)) next) c rest
      K := by
  subst hi
  simp only [revBitLast, bind_assoc]
  refine revBitMask_follows hN hb h (fun b rc' c' rest' h' => ?_)
  have he : sub (m + v) (m &&& not32 (maskOf b)) = .ok (v + b.toNat * m) := by
    rw [and_not_maskOf hm]
    cases b <;> simp [add_comm]
  change Follows src size N (sub (m + v) (m &&& not32 (maskOf b)) >>= fun i =>
    F (i, rc')) _ _ _ _
  rw [he]
  exact hn b rc' c' rest' h'

theorem revAlign_follows (hN : N ≤ size) (hb : align + kAlignTableSize ≤ N) {d : ℕ}
    (h : Tracks src size N rc c rest) :
    Follows src size N (do
        let (i, rc) ← revBitConst src align 1 1 rc
        let (i, rc) ← revBitConst src align i 2 rc
        let (i, rc) ← revBitConst src align i 4 rc
        let (i, rc) ← revBitLast src align i 8 rc
        .ok (16 * d ||| i, rc))
      ((revBits align 4 1 0).bind fun v => .pure (16 * d + v)) c rest
      (fun d rc => .ok (d, rc)) := by
  have hl := layout
  simp only [revBits, Prog.bind]
  refine revBitConst_follows hN rfl (by norm_num) (by omega) h (fun b₀ rc₁ c₁ rest₁ h₁ => ?_)
  have h0 := b₀.toNat_le
  refine revBitConst_follows hN rfl (by norm_num) (by omega) h₁ (fun b₁ rc₂ c₂ rest₂ h₂ => ?_)
  have h1 := b₁.toNat_le
  refine revBitConst_follows hN rfl (by norm_num) (by omega) h₂ (fun b₂ rc₃ c₃ rest₃ h₃ => ?_)
  have h2 := b₂.toNat_le
  refine revBitLast_follows hN rfl (by norm_num) (by omega) h₃ (fun b₃ rc₄ c₄ rest₄ h₄ => ?_)
  have h3 := b₃.toNat_le
  apply follows_pure h₄
  have hor : ∀ v < 16, 16 * d ||| v = 16 * d + v := by
    intro v hv
    rw [show 16 * d = d <<< 4 by rw [Nat.shiftLeft_eq]; omega,
      ← Nat.shiftLeft_add_eq_or_of_lt (by omega)]
  rw [hor _ (by omega)]

theorem two_or_and_one (x : ℕ) : 2 ||| (x &&& 1) = 2 + x % 2 := by
  rw [Nat.and_one_is_mod]
  rcases Nat.mod_two_eq_zero_or_one x with h | h <;> rw [h] <;> rfl

theorem distanceDecode_follows (hN : N ≤ size) (hb : literal ≤ N) (len : ℕ)
    (h : Tracks src size N rc c rest) :
    Follows src size N (distanceDecode src len rc) (distProg len) c rest
      (fun d rc => .ok (d, rc)) := by
  have hl := layout
  have htemp : (if len < kNumLenToPosStates then len else kNumLenToPosStates - 1) <<<
      kNumPosSlotBits = 64 * min len 3 := by
    rw [Nat.shiftLeft_eq]
    simp only [kNumLenToPosStates, kNumPosSlotBits]
    split <;> omega
  have hm : min len 3 ≤ 3 := min_le_right _ _
  unfold distanceDecode distProg
  rw [htemp]
  refine (treeDecode_follows hN (by omega) h).bind (tree_spec _ 6).returns
    (fun s rc₁ c₁ rest₁ hs h₁ => ?_)
  simp only [bind, Except.bind, sub_ok (show 0x40 ≤ s by omega)]
  have hlt : s - 64 < 64 := by omega
  generalize s - 64 = slot at hlt ⊢
  unfold slotProg
  by_cases h4 : kStartPosModelIndex ≤ slot
  · have hhalf : slot >>> 1 = slot / 2 := by rw [Nat.shiftRight_eq_div_pow, pow_one]
    have hmod : slot % 2 ≤ 1 := by omega
    rw [if_pos h4, if_neg (by omega), hhalf, sub_ok (by omega), two_or_and_one]
    simp only
    by_cases h14 : slot < kEndPosModelIndex
    · rw [if_pos h14, if_pos h14]
      have hn : slot / 2 - 1 ≤ 5 := by omega
      have hpow : (2 : ℕ) ^ (slot / 2 - 1) ≤ 2 ^ 5 := Nat.pow_le_pow_right (by norm_num) hn
      have hoff : (2 + slot % 2) <<< (slot / 2 - 1) = (2 + slot % 2) * 2 ^ (slot / 2 - 1) :=
        Nat.shiftLeft_eq _ _
      have hmul : (2 + slot % 2) * 2 ^ (slot / 2 - 1) ≤ 3 * 2 ^ 5 :=
        Nat.mul_le_mul (by omega) hpow
      rw [hoff]
      refine Follows.bind (revBitVars_follows hN (v := 0) (m := 1) (by omega) (by omega)
        (by omega) h₁) (revBits_returns _ _ one_pos) (fun v rc₂ c₂ rest₂ hv h₂ => ?_)
      apply follows_pure h₂
      simp only [bind, Except.bind]
      rw [sub_ok (by omega), one_mul]
      simp only [Except.ok.injEq, Prod.mk.injEq, and_true]
      omega
    · rw [if_neg h14, if_neg h14]
      have hn : slot / 2 - 1 - 4 ≤ 26 := by omega
      have hpow : (2 : ℕ) ^ (slot / 2 - 1 - 4) ≤ 2 ^ 26 := Nat.pow_le_pow_right (by norm_num) hn
      have hmul : (2 + slot % 2 + 1) * 2 ^ (slot / 2 - 1 - 4) ≤ 4 * 2 ^ 26 :=
        Nat.mul_le_mul (by omega) hpow
      rw [show kNumAlignBits = 4 from rfl, sub_ok (by omega)]
      refine Follows.bind (directBits_follows (by omega) h₁) (directProg_returns _ _)
        (fun d rc₂ c₂ rest₂ hd h₂ => ?_)
      have hshift : u32 (d <<< 4) = 16 * d := by
        rw [u32, Nat.shiftLeft_eq]
        omega
      change Follows src size N (do
        let (i, rc) ← revBitConst src align 1 1 rc₂
        let (i, rc) ← revBitConst src align i 2 rc
        let (i, rc) ← revBitConst src align i 4 rc
        let (i, rc) ← revBitLast src align i 8 rc
        .ok (u32 (d <<< 4) ||| i, rc)) _ c₂ rest₂ _
      rw [hshift]
      exact revAlign_follows hN (by omega) h₂
  · rw [if_neg h4, if_pos (by omega)]
    exact follows_pure h₁ rfl

end
end LzmaTurbo.Lzma
