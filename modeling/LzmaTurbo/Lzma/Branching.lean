import LzmaTurbo.Lib.EqualRuns
import LzmaTurbo.Lzma.Decode
import Mathlib.Tactic.Ring

/-!
# The branch-free macros with their branches

The forms of the C macros: a tree, a reverse tree and a matched literal whose every bit is an
`ifBit`. The masks of the branch-free forms give the same wherever the interval fits in 32 bits
and the entries they read are at most `kBitModelTotal`.
-/
namespace LzmaTurbo.Lzma
open Machine

namespace Branching

/-- `TREE_GET_BIT` for `n` levels. -/
def bitTrees (src : List UInt8) (probs : ℕ) : ℕ → ℕ → Rc → Except Fault (ℕ × Rc)
  | 0, sym, rc => .ok (sym, rc)
  | n + 1, sym, rc => do
      let (bit, rc) ← ifBit src (probs + sym) rc
      bitTrees src probs n (if bit then sym + sym + 1 else sym + sym) rc

/-- A whole tree of `n + 1` levels from its root. -/
def treeDecode (src : List UInt8) (probs n : ℕ) (rc : Rc) : Except Fault (ℕ × Rc) :=
  bitTrees src probs (n + 1) 1 rc

/-- `MATCHED_LITER_DEC` for `n` levels. -/
def matchedLiterDec (src : List UInt8) (prob : ℕ) :
    ℕ → ℕ → ℕ → ℕ → Rc → Except Fault (ℕ × Rc)
  | 0, symbol, _, _, rc => .ok (symbol, rc)
  | n + 1, symbol, matchByte, offs, rc => do
      let matchByte := matchByte + matchByte
      let bit := offs
      let offs := offs &&& matchByte
      let (b, rc) ← ifBit src (prob + (offs + bit + symbol)) rc
      if b then matchedLiterDec src prob n (symbol + symbol + 1) matchByte offs rc
      else matchedLiterDec src prob n (symbol + symbol) matchByte (offs ^^^ bit) rc

/-- `REV_BIT_VAR` for `n` levels. -/
def revBitVars (src : List UInt8) (probs : ℕ) : ℕ → ℕ → ℕ → Rc → Except Fault (ℕ × ℕ × Rc)
  | 0, i, m, rc => .ok (i, m, rc)
  | n + 1, i, m, rc => do
      let (b, rc) ← ifBit src (probs + i) rc
      if b then revBitVars src probs n (i + (m + m)) (m + m) rc
      else revBitVars src probs n (i + m) (m + m) rc

def revBitConst (src : List UInt8) (probs i m : ℕ) (rc : Rc) : Except Fault (ℕ × Rc) := do
  let (b, rc) ← ifBit src (probs + i) rc
  if b then .ok (i + m * 2, rc) else .ok (i + m, rc)

def revBitLast (src : List UInt8) (probs i m : ℕ) (rc : Rc) : Except Fault (ℕ × Rc) := do
  let (b, rc) ← ifBit src (probs + i) rc
  if b then .ok (i, rc)
  else do
    let i ← sub i m
    .ok (i, rc)

end Branching

/-- The interval fits in 32 bits, and the first `N` entries of the table are probabilities. -/
structure Rc.InUse (rc : Rc) (N : ℕ) : Prop where
  range_lt : rc.range < 2 ^ 32
  prob : ∀ i < N, ∃ v ≤ kBitModelTotal, rc.probs[i]? = some v

theorem moveBits : (2 : ℕ) ^ kNumMoveBits = 32 := by decide

theorem asU16_of_lt {x : ℕ} (h : x < 2 ^ 16) : asU16 (x : ℤ) = x := by
  simp only [asU16]
  omega

def maskOf (b : Bool) : ℕ := if b then 2 ^ 32 - 1 else 0

theorem csel_maskOf {a b : ℕ} (ha : a < 2 ^ 32) (hb : b < 2 ^ 32) (bit : Bool) :
    csel (maskOf bit) a b = if bit then a else b := by
  obtain ⟨h1, h2⟩ := xor_and_mask ha hb
  cases bit
  · exact h2
  · exact h1

theorem and_maskOf {a : ℕ} (ha : a < 2 ^ 32) (bit : Bool) :
    a &&& maskOf bit = if bit then a else 0 := by
  cases bit
  · exact Nat.and_zero a
  · change a &&& (2 ^ 32 - 1) = a
    rw [Nat.and_two_pow_sub_one_eq_mod, Nat.mod_eq_of_lt ha]

theorem and_not_maskOf {a : ℕ} (ha : a < 2 ^ 32) (bit : Bool) :
    a &&& not32 (maskOf bit) = if bit then 0 else a := by
  cases bit
  · exact and_maskOf ha true
  · exact Nat.and_zero a

section
variable {src : List UInt8} {rc rc' : Rc} {N slot pv : ℕ}

theorem Rc.InUse.prob_le (h : rc.InUse N) (hs : slot < N) (hpv : rc.probs[slot]? = some pv) :
    pv ≤ kBitModelTotal := by
  obtain ⟨v, hv, hget⟩ := h.prob slot hs
  rw [hpv, Option.some.injEq] at hget
  rwa [hget]

theorem normalize_ok (h : normalize src rc = .ok rc') :
    rc'.probs = rc.probs ∧ (rc.range < 2 ^ 32 → rc'.range < 2 ^ 32) := by
  unfold normalize at h
  split at h
  · cases hb : byteAt src rc.buf with
    | error e =>
        rw [hb] at h
        cases h
    | ok b =>
        rw [hb] at h
        cases h
        exact ⟨rfl, fun _ => Nat.mod_lt _ (by norm_num)⟩
  · cases h
    exact ⟨rfl, id⟩

theorem boundOf_le {range : ℕ} (hr : range < 2 ^ 32) (hpv : pv ≤ kBitModelTotal) :
    boundOf range pv ≤ range := by
  have hk : kBitModelTotal = 2048 := by decide
  have hmul : range / 2048 * pv ≤ range / 2048 * 2048 := Nat.mul_le_mul_left _ (by omega)
  have hbits : (2 : ℕ) ^ kNumBitModelTotalBits = 2048 := by decide
  unfold boundOf u32
  rw [Nat.shiftRight_eq_div_pow, hbits]
  omega

/-- One expression is both updates of the probability. -/
theorem update_mask {pv : ℕ} (hpv : pv ≤ kBitModelTotal) (bit : Bool) :
    asU16 (pv - (asI32 (wrappingSub32 pv (kBitModelOffset &&& not32 (maskOf bit))) >>>
      kNumMoveBits)) =
        if bit then asU16 (pv - (pv >>> kNumMoveBits) : ℕ)
        else asU16 (pv + ((kBitModelTotal - pv) >>> kNumMoveBits) : ℕ) := by
  have ho : kBitModelOffset = 2017 := by decide
  have hk : kBitModelTotal = 2048 := by decide
  rw [hk] at hpv
  rw [and_not_maskOf (by decide), ho, Int.shiftRight_eq_div_pow, Nat.shiftRight_eq_div_pow,
    Nat.shiftRight_eq_div_pow, moveBits, hk]
  push_cast [Nat.cast_sub hpv]
  cases bit
  · have ht : asI32 (wrappingSub32 pv 2017) = (pv : ℤ) - 2017 := by
      unfold asI32 wrappingSub32
      split <;> omega
    simp only [Bool.false_eq_true, if_false, ht, asU16]
    omega
  · have ht : asI32 (wrappingSub32 pv 0) = (pv : ℤ) := by
      unfold asI32 wrappingSub32
      split <;> omega
    simp only [if_true, ht, asU16]
    omega

theorem carry_mask (bound code : ℕ) :
    wrappingNeg32 (if bound ≤ code then 1 else 0) = maskOf (decide (bound ≤ code)) := by
  by_cases h : bound ≤ code
  · rw [if_pos h, decide_eq_true h]
    decide
  · rw [if_neg h, decide_eq_false h]
    decide

/-- A bit by masks is a bit by a branch. -/
theorem maskedBit_eq (h : rc.InUse N) (hs : slot < N) (hpv : rc.probs[slot]? = some pv) :
    maskedBit src slot pv rc = (ifBit src slot rc >>= fun t => .ok (maskOf t.1, t.2)) := by
  have hle : pv ≤ kBitModelTotal := h.prob_le hs hpv
  unfold maskedBit ifBit
  rw [get_ok hpv, ok_bind]
  cases hn : normalize src rc with
  | error e => rfl
  | ok rc₁ =>
      obtain ⟨hprobs, hlt⟩ := normalize_ok hn
      have hlt := hlt h.range_lt
      have hbound := boundOf_le hlt hle
      have hsz : slot < rc₁.probs.size := by
        rw [hprobs]
        exact (Array.getElem?_eq_some_iff.mp hpv).1
      rw [ok_bind, ok_bind]
      dsimp only
      generalize boundOf rc₁.range pv = bound at hbound
      rw [carry_mask, update_mask hle, put_ok hsz, sub_ok hbound, ok_bind, ok_bind,
        csel_maskOf (by omega) (by omega), and_maskOf (by omega)]
      by_cases hc : rc₁.code < bound
      · have hcode : ¬ bound ≤ rc₁.code := by omega
        simp only [hc, hcode, if_true, if_false, decide_false, Bool.false_eq_true, update0,
          sub_ok hle, put_ok hsz, sub_ok (Nat.zero_le rc₁.code), ok_bind, Nat.sub_zero]
      · have hcode : bound ≤ rc₁.code := by omega
        have hshift : pv >>> kNumMoveBits ≤ pv := Nat.shiftRight_le _ _
        simp only [hc, hcode, if_true, if_false, decide_true, update1, sub_ok hbound,
          sub_ok hcode, sub_ok hshift, put_ok hsz, ok_bind]

/-- What both updates store is a probability again. -/
theorem updated_le (hpv : pv ≤ kBitModelTotal) :
    asU16 (pv - (pv >>> kNumMoveBits) : ℕ) ≤ kBitModelTotal ∧
      asU16 (pv + ((kBitModelTotal - pv) >>> kNumMoveBits) : ℕ) ≤ kBitModelTotal := by
  have hk : kBitModelTotal = 2048 := by decide
  rw [hk] at hpv ⊢
  rw [Nat.shiftRight_eq_div_pow, Nat.shiftRight_eq_div_pow, moveBits,
    asU16_of_lt (by omega), asU16_of_lt (by omega)]
  omega

theorem Rc.InUse.stored (h : rc.InUse N) {range code buf v : ℕ} (hr : range < 2 ^ 32)
    (hv : slot < N → v ≤ kBitModelTotal) :
    (Rc.mk range code buf (rc.probs.setIfInBounds slot v)).InUse N := by
  refine ⟨hr, fun i hi => ?_⟩
  obtain ⟨w, hw, hget⟩ := h.prob i hi
  by_cases hs : slot = i
  · subst hs
    have hsz := (Array.getElem?_eq_some_iff.mp hget).1
    exact ⟨v, hv hi, by simp [hsz]⟩
  · exact ⟨w, hw, by rw [Array.getElem?_setIfInBounds_ne hs, hget]⟩

theorem get_same (a : Array ℕ) (i : ℕ) : EqualRuns (get a i) (get a i) (a[i]? = some ·) := by
  refine ⟨rfl, fun x hx => ?_⟩
  by_cases hi : i < a.size
  · rw [get_ok (Array.getElem?_eq_getElem hi), Except.ok.injEq] at hx
    rw [Array.getElem?_eq_getElem hi, hx]
  · rw [get_fault (by omega)] at hx
    cases hx

theorem put_same (a : Array ℕ) (i x : ℕ) :
    EqualRuns (put a i x) (put a i x) (· = a.setIfInBounds i x) := by
  unfold put
  exact .ite (fun _ => .ok rfl) (fun _ => .error _)

theorem sub_same (a b : ℕ) : EqualRuns (sub a b) (sub a b) (· = a - b) := by
  unfold sub
  exact .ite (fun _ => .ok rfl) (fun _ => .error _)

theorem normalize_same (h : rc.InUse N) :
    EqualRuns (normalize src rc) (normalize src rc)
      (fun rc' => rc'.InUse N ∧ rc'.probs = rc.probs) :=
  ⟨rfl, fun rc' hn => by
    obtain ⟨hprobs, hlt⟩ := normalize_ok hn
    exact ⟨⟨hlt h.range_lt, by rw [hprobs]; exact h.prob⟩, hprobs⟩⟩

/-- One bit leaves the interval and the table in use, and every other entry as it was. -/
theorem ifBit_same (h : rc.InUse N) (slot : ℕ) :
    EqualRuns (ifBit src slot rc) (ifBit src slot rc)
      (fun t => t.2.InUse N ∧ ∀ i, i ≠ slot → t.2.probs[i]? = rc.probs[i]?) := by
  unfold ifBit
  refine (get_same rc.probs slot).bind fun pv hget => ?_
  refine (normalize_same h).bind fun rc₁ ⟨h₁, hprobs⟩ => ?_
  have hpv : slot < N → pv ≤ kBitModelTotal := fun hs => h.prob_le hs hget
  refine .ite (fun _ => ?_) (fun _ => ?_)
  · unfold update0
    refine EqualRuns.bind (Q := fun rc₂ => rc₂.InUse N ∧
      ∀ i, i ≠ slot → rc₂.probs[i]? = rc.probs[i]?) ?_ fun rc₂ h₂ => .ok h₂
    refine (sub_same _ _).bind fun gap hgap => (put_same _ _ _).bind fun probs hput => .ok ?_
    subst hgap hput
    refine ⟨h₁.stored (Nat.mod_lt _ (by norm_num)) fun hs => (updated_le (hpv hs)).2, ?_⟩
    intro i hi
    rw [← hprobs]
    exact Array.getElem?_setIfInBounds_ne (Ne.symm hi)
  · unfold update1
    refine EqualRuns.bind (Q := fun rc₂ => rc₂.InUse N ∧
      ∀ i, i ≠ slot → rc₂.probs[i]? = rc.probs[i]?) ?_ fun rc₂ h₂ => .ok h₂
    refine (sub_same _ _).bind fun range hrange => (sub_same _ _).bind fun code _ => ?_
    refine (sub_same _ _).bind fun next hnext => (put_same _ _ _).bind fun probs hput => .ok ?_
    subst hrange hnext hput
    have hlt := h₁.range_lt
    refine ⟨h₁.stored (by omega) fun hs => (updated_le (hpv hs)).1, ?_⟩
    intro i hi
    rw [← hprobs]
    exact Array.getElem?_setIfInBounds_ne (Ne.symm hi)

/-- A mask in one program against a branch in the other. -/
theorem masked_branch (h : rc.InUse N) (hs : slot < N) (hpv : rc.probs[slot]? = some pv)
    {γ : Type} {F : ℕ × Rc → Except Fault γ} {G : Bool × Rc → Except Fault γ} {Q : γ → Prop}
    (hFG : ∀ b rc', rc'.InUse N → (∀ i, i ≠ slot → rc'.probs[i]? = rc.probs[i]?) →
      EqualRuns (F (maskOf b, rc')) (G (b, rc')) Q) :
    EqualRuns (maskedBit src slot pv rc >>= F) (ifBit src slot rc >>= G) Q := by
  rw [maskedBit_eq h hs hpv, bind_assoc]
  exact (ifBit_same h slot).bind fun t ht => hFG t.1 t.2 ht.1 ht.2

theorem bitTrees_same {base n sym : ℕ} (hs : 1 ≤ sym) (hb : base + (sym + 1) * 2 ^ n ≤ N)
    (h : rc.InUse N) (hpv : rc.probs[base + sym]? = some pv) :
    EqualRuns (bitTrees src base n sym pv rc) (Branching.bitTrees src base (n + 1) sym rc)
      (fun t => t.2.InUse N) := by
  induction n generalizing sym pv rc with
  | zero =>
      rw [pow_zero, mul_one] at hb
      unfold bitTrees bitTreeLast Branching.bitTrees
      refine masked_branch h (by omega) hpv fun b rc' h' _ => ?_
      cases b <;> exact .ok h'
  | succ n ih =>
      have hpow : (sym + 1) * 2 ^ (n + 1) = (2 * sym + 2) * 2 ^ n := by
        rw [pow_succ]
        ring
      have hge : 2 * sym + 2 ≤ (2 * sym + 2) * 2 ^ n := Nat.le_mul_of_pos_right _ (by positivity)
      rw [hpow] at hb
      obtain ⟨v₀, hv₀, hc₀⟩ := h.prob (base + (sym + sym)) (by omega)
      obtain ⟨v₁, hv₁, hc₁⟩ := h.prob (base + (sym + sym + 1)) (by omega)
      have hk : kBitModelTotal = 2048 := by decide
      unfold bitTrees bitTree Branching.bitTrees
      rw [get_ok hc₀, get_ok hc₁, ok_bind, ok_bind, bind_assoc]
      refine masked_branch h (by omega) hpv fun b rc' h' hkept => ?_
      rw [ok_bind]
      dsimp only
      rw [csel_maskOf (by omega) (by omega)]
      have hsub : ∀ k ≤ 2 * sym + 1, base + (k + 1) * 2 ^ n ≤ N := fun k hk =>
        le_trans (Nat.add_le_add_left (Nat.mul_le_mul_right _ (by omega)) _) hb
      cases b
      · rw [show maskOf false &&& 1 = 0 from rfl, Nat.add_zero]
        exact ih (by omega) (hsub _ (by omega)) h' (by rw [hkept _ (by omega)]; exact hc₀)
      · rw [show maskOf true &&& 1 = 1 from rfl]
        exact ih (by omega) (hsub _ (by omega)) h' (by rw [hkept _ (by omega)]; exact hc₁)

/-- The bit tree, over the whole of any tree that is in the table. -/
theorem treeDecode_same {base n : ℕ} (hb : base + 2 ^ (n + 1) ≤ N) (h : rc.InUse N) :
    EqualRuns (treeDecode src base n rc) (Branching.treeDecode src base n rc)
      (fun t => t.2.InUse N) := by
  have hpow : (1 + 1) * 2 ^ n = 2 ^ (n + 1) := by
    rw [pow_succ]
    ring
  have hge : 2 ≤ 2 ^ (n + 1) := Nat.le_self_pow (by omega) 2
  obtain ⟨v, -, hget⟩ := h.prob (base + 1) (by omega)
  unfold treeDecode Branching.treeDecode
  rw [get_ok hget, ok_bind]
  exact bitTrees_same le_rfl (by omega) h hget

/-- `offs` is one bit or none, and stays so whatever the match byte and the bit read. -/
theorem matchedLiterDec_same {base d n symbol offs : ℕ} (matchByte : ℕ)
    (hs : symbol < 2 ^ (d - n + 1)) (hn : n ≤ d) (ho : offs = 0 ∨ offs = 2 ^ d)
    (hb : base + 3 * 2 ^ d ≤ N) (hd : 2 ^ d < 2 ^ 32) (h : rc.InUse N) :
    EqualRuns (matchedLiterDec src base n symbol matchByte offs rc)
      (Branching.matchedLiterDec src base n symbol matchByte offs rc) (fun t => t.2.InUse N) := by
  induction n generalizing symbol matchByte offs rc with
  | zero => exact .ok h
  | succ n ih =>
      have hle : 2 ^ (d - (n + 1) + 1) ≤ 2 ^ d := Nat.pow_le_pow_right (by norm_num) (by omega)
      have hnext : 2 ^ (d - n + 1) = 2 ^ (d - (n + 1) + 1) * 2 := by
        rw [← pow_succ, show d - n = d - (n + 1) + 1 by omega]
      obtain ⟨shifted, hshifted⟩ : ∃ m, matchByte + matchByte = m := ⟨_, rfl⟩
      have hand : offs &&& shifted = 0 ∨ offs &&& shifted = offs := by
        obtain rfl | rfl := ho
        · exact .inl (Nat.zero_and _)
        · rw [Nat.two_pow_and]
          cases shifted.testBit d
          · exact .inl (Nat.mul_zero _)
          · exact .inr (Nat.mul_one _)
      have hxor : (offs &&& shifted) ^^^ offs = 0 ∨ (offs &&& shifted) ^^^ offs = 2 ^ d := by
        obtain ha | ha := hand
        · rw [ha, Nat.zero_xor]
          exact ho
        · rw [ha, Nat.xor_self]
          exact .inl rfl
      have hkeep : offs &&& shifted = 0 ∨ offs &&& shifted = 2 ^ d := by
        obtain ha | ha := hand
        · exact .inl ha
        · rwa [ha]
      have hslot : base + ((offs &&& shifted) + offs + symbol) < N := by omega
      obtain ⟨v, -, hget⟩ := h.prob _ hslot
      unfold matchedLiterDec Branching.matchedLiterDec
      dsimp only
      rw [hshifted, get_ok hget, ok_bind]
      refine masked_branch h hslot hget fun b rc' h' _ => ?_
      dsimp only
      rw [and_not_maskOf (by omega)]
      cases b
      · exact ih _ (by rw [show maskOf false &&& 1 = 0 from rfl]; omega) (by omega) hxor h'
      · rw [show maskOf true &&& 1 = 1 from rfl, if_pos rfl, Nat.xor_zero]
        exact ih _ (by omega) (by omega) hkeep h'

/-- The core of the reverse macros. -/
theorem revBitMask_branch {base i : ℕ} (hi : base + i < N) (h : rc.InUse N) {γ : Type}
    {F : ℕ × Rc → Except Fault γ} {G : Bool × Rc → Except Fault γ} {Q : γ → Prop}
    (hFG : ∀ b rc', rc'.InUse N → EqualRuns (F (maskOf b, rc')) (G (b, rc')) Q) :
    EqualRuns (revBitMask src base i rc >>= F) (ifBit src (base + i) rc >>= G) Q := by
  obtain ⟨v, -, hget⟩ := h.prob _ hi
  unfold revBitMask
  rw [get_ok hget, ok_bind]
  exact masked_branch h hi hget fun b rc' h' _ => hFG b rc' h'

/-- The reverse tree: `off` is where the tree starts, `v` the bits read so far. -/
theorem revBitVars_same {base n off v m : ℕ} (hv : v < m) (hb : base + off + m * 2 ^ n ≤ N)
    (hN : N < 2 ^ 32) (h : rc.InUse N) :
    EqualRuns (revBitVars src base n (off + m + v) m rc)
      (Branching.revBitVars src base n (off + m + v) m rc) (fun t => t.2.2.InUse N) := by
  induction n generalizing m v rc with
  | zero => exact .ok h
  | succ n ih =>
      have h2 : m * 2 ^ (n + 1) = (m + m) * 2 ^ n := by ring
      have hle : m + m ≤ (m + m) * 2 ^ n := Nat.le_mul_of_pos_right _ (by positivity)
      rw [h2] at hb
      unfold revBitVars Branching.revBitVars
      refine revBitMask_branch (by omega) h fun b rc' h' => ?_
      dsimp only
      rw [and_maskOf (by omega)]
      cases b
      · have he : off + m + v + m = off + (m + m) + v := by omega
        simp only [Bool.false_eq_true, if_false, Nat.add_zero, he]
        exact ih (by omega) hb h'
      · have he : off + m + v + (m + m) = off + (m + m) + (m + v) := by omega
        simp only [if_true, he]
        exact ih (by omega) hb h'

theorem revBitConst_same {base i m : ℕ} (hi : base + i < N) (hm : m < 2 ^ 32) (h : rc.InUse N) :
    EqualRuns (revBitConst src base i m rc) (Branching.revBitConst src base i m rc)
      (fun t => t.1 ≤ i + m * 2 ∧ t.2.InUse N) := by
  unfold revBitConst Branching.revBitConst
  refine revBitMask_branch hi h fun b rc' h' => ?_
  dsimp only
  rw [and_maskOf hm]
  cases b
  · refine .ok ⟨?_, h'⟩
    simp only [Bool.false_eq_true, if_false]
    omega
  · rw [if_pos rfl, if_pos rfl, ← Nat.mul_two]
    exact .ok ⟨le_rfl, h'⟩

theorem revBitLast_same {base i m : ℕ} (hi : base + i < N) (hm : m < 2 ^ 32) (h : rc.InUse N) :
    EqualRuns (revBitLast src base i m rc) (Branching.revBitLast src base i m rc)
      (fun t => t.2.InUse N) := by
  unfold revBitLast Branching.revBitLast
  refine revBitMask_branch hi h fun b rc' h' => ?_
  dsimp only
  rw [and_not_maskOf hm]
  cases b
  · exact (sub_same i m).bind fun _ _ => .ok h'
  · rw [if_pos rfl, if_pos rfl, sub_ok (Nat.zero_le i), ok_bind, Nat.sub_zero]
    exact .ok h'

/-- The macros without branches run as the ones with branches do, whatever their operands. -/
structure MacrosAgree (src : List UInt8) (N : ℕ) (rc : Rc) : Prop where
  bitTree : ∀ base n, base + 2 ^ (n + 1) ≤ N →
    EqualRuns (treeDecode src base n rc) (Branching.treeDecode src base n rc)
      (fun t => t.2.InUse N)
  matched : ∀ base d matchByte, base + 3 * 2 ^ d ≤ N →
    EqualRuns (matchedLiterDec src base d 1 matchByte (2 ^ d) rc)
      (Branching.matchedLiterDec src base d 1 matchByte (2 ^ d) rc) (fun t => t.2.InUse N)
  reverse : ∀ base off n, base + off + 2 ^ n ≤ N →
    EqualRuns (revBitVars src base n (off + 1) 1 rc)
      (Branching.revBitVars src base n (off + 1) 1 rc) (fun t => t.2.2.InUse N)
  revConst : ∀ base i m, base + i < N → m < 2 ^ 32 →
    EqualRuns (revBitConst src base i m rc) (Branching.revBitConst src base i m rc)
      (fun t => t.1 ≤ i + m * 2 ∧ t.2.InUse N)
  revLast : ∀ base i m, base + i < N → m < 2 ^ 32 →
    EqualRuns (revBitLast src base i m rc) (Branching.revBitLast src base i m rc)
      (fun t => t.2.InUse N)

theorem Rc.InUse.macros (h : rc.InUse N) (hN : N < 2 ^ 32) : MacrosAgree src N rc where
  bitTree _ _ hb := treeDecode_same hb h
  matched _ _ matchByte hb := by
    refine matchedLiterDec_same matchByte ?_ le_rfl (.inr rfl) hb (by omega) h
    rw [Nat.sub_self]
    norm_num
  reverse _ _ _ hb := revBitVars_same one_pos (by omega) hN h
  revConst _ _ _ hi hm := revBitConst_same hi hm h
  revLast _ _ _ hi hm := revBitLast_same hi hm h

end
end LzmaTurbo.Lzma
