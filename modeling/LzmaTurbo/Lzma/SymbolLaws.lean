import LzmaTurbo.Lzma.Symbol

/-!
# What one symbol can ask, cost and return

The table regions of the symbol's parts are disjoint, so no model is asked
twice, and the most expensive symbol, a simple match with 26 direct bits,
costs 159.36 bits: less than twenty bytes.
-/
namespace LzmaTurbo.Lzma
open BitProgram

theorem tree_slots (base n sym : ℕ) :
    (tree base n sym).Slots (fun i => base + sym ≤ i ∧ 2 * i < 2 * base + (sym + 1) * 2 ^ n) := by
  induction n generalizing sym with
  | zero => trivial
  | succ n ih =>
      have hp : 1 ≤ 2 ^ n := Nat.one_le_two_pow
      have hle : sym + 1 ≤ (sym + 1) * 2 ^ n := Nat.le_mul_of_pos_right _ hp
      have h2 : (sym + 1) * 2 ^ (n + 1) = 2 * ((sym + 1) * 2 ^ n) := by ring
      refine ⟨by constructor <;> omega, fun b => (ih _).mono ?_⟩
      intro i hi
      have hb : (2 * sym + b.toNat + 1) * 2 ^ n ≤ (2 * (sym + 1)) * 2 ^ n :=
        Nat.mul_le_mul_right _ (by have := b.toNat_le; omega)
      have h3 : (2 * (sym + 1)) * 2 ^ n = 2 * ((sym + 1) * 2 ^ n) := by ring
      constructor <;> omega

theorem tree_returns (base n sym : ℕ) :
    (tree base n sym).Returns (fun r => sym * 2 ^ n ≤ r ∧ r < (sym + 1) * 2 ^ n) := by
  induction n generalizing sym with
  | zero => simp [tree, Prog.Returns]
  | succ n ih =>
      intro b
      apply (ih _).mono
      intro r hr
      have hb := b.toNat_le
      have h1 : sym * 2 ^ (n + 1) = (2 * sym) * 2 ^ n := by ring
      have h2 : (sym + 1) * 2 ^ (n + 1) = (2 * sym + 2) * 2 ^ n := by ring
      have h3 : (2 * sym) * 2 ^ n ≤ (2 * sym + b.toNat) * 2 ^ n := Nat.mul_le_mul_right _ (by omega)
      have h4 : (2 * sym + b.toNat + 1) * 2 ^ n ≤ (2 * sym + 2) * 2 ^ n :=
        Nat.mul_le_mul_right _ (by omega)
      omega

theorem tree_once (base n : ℕ) {sym : ℕ} (hs : 1 ≤ sym) : (tree base n sym).Once := by
  induction n generalizing sym with
  | zero => trivial
  | succ n ih =>
      intro b
      exact ⟨(tree_slots base n _).mono (fun i hi => by omega), ih (by omega)⟩

theorem tree_total (base n sym : ℕ) : (tree base n sym).Total := by
  induction n generalizing sym with
  | zero => trivial
  | succ n ih => exact fun b => ih _

theorem tree_within (base n sym : ℕ) : (tree base n sym).Within (605 * n) := by
  induction n generalizing sym with
  | zero => trivial
  | succ n ih => exact ⟨by omega, fun b => (ih _).mono (by omega)⟩

theorem matchedTree_slots (base mb n sym : ℕ) (same : Bool) :
    (matchedTree base mb n sym same).Slots (fun i => ∃ off s, i = base + 256 * off + s ∧
      off ≤ 2 ∧ sym ≤ s ∧ 2 * s < (sym + 1) * 2 ^ n) := by
  induction n generalizing sym same with
  | zero => trivial
  | succ n ih =>
      have hp : 1 ≤ 2 ^ n := Nat.one_le_two_pow
      have hle : sym + 1 ≤ (sym + 1) * 2 ^ n := Nat.le_mul_of_pos_right _ hp
      have h2 : (sym + 1) * 2 ^ (n + 1) = 2 * ((sym + 1) * 2 ^ n) := by ring
      refine ⟨?_, fun b => (ih _ _).mono ?_⟩
      · cases same
        · exact ⟨0, sym, by simp, by omega, le_rfl, by omega⟩
        · have hb := (mb.testBit n).toNat_le
          exact ⟨1 + (mb.testBit n).toNat, sym, by simp, by omega, le_rfl, by omega⟩
      · rintro i ⟨off, s, rfl, ho, hs, hu⟩
        have hb : (2 * sym + b.toNat + 1) * 2 ^ n ≤ (2 * (sym + 1)) * 2 ^ n :=
          Nat.mul_le_mul_right _ (by have := b.toNat_le; omega)
        have h3 : (2 * (sym + 1)) * 2 ^ n = 2 * ((sym + 1) * 2 ^ n) := by ring
        exact ⟨off, s, rfl, ho, by omega, by omega⟩

theorem matchedTree_once (base mb n : ℕ) {sym : ℕ} (same : Bool) (hs : 1 ≤ sym)
    (hu : (sym + 1) * 2 ^ n ≤ 512) : (matchedTree base mb n sym same).Once := by
  induction n generalizing sym same with
  | zero => trivial
  | succ n ih =>
      intro b
      have hp : 1 ≤ 2 ^ n := Nat.one_le_two_pow
      have hle : sym + 1 ≤ (sym + 1) * 2 ^ n := Nat.le_mul_of_pos_right _ hp
      have h2 : (sym + 1) * 2 ^ (n + 1) = 2 * ((sym + 1) * 2 ^ n) := by ring
      have hb : (2 * sym + b.toNat + 1) * 2 ^ n ≤ (2 * (sym + 1)) * 2 ^ n :=
        Nat.mul_le_mul_right _ (by have := b.toNat_le; omega)
      have h3 : (2 * (sym + 1)) * 2 ^ n = 2 * ((sym + 1) * 2 ^ n) := by ring
      refine ⟨(matchedTree_slots base mb n _ _).mono ?_, ih _ (by omega) (by omega)⟩
      -- node numbers stay below 256, so the sub-table never hides a repetition
      rintro i ⟨off, s, rfl, ho, hs', hu'⟩
      cases same <;> cases mb.testBit n <;> simp <;> omega

theorem matchedTree_total (base mb n sym : ℕ) (same : Bool) :
    (matchedTree base mb n sym same).Total := by
  induction n generalizing sym same with
  | zero => trivial
  | succ n ih => exact fun b => ih _ _

theorem matchedTree_within (base mb n sym : ℕ) (same : Bool) :
    (matchedTree base mb n sym same).Within (605 * n) := by
  induction n generalizing sym same with
  | zero => trivial
  | succ n ih => exact ⟨by omega, fun b => (ih _ _).mono (by omega)⟩

theorem revBits_slots (base n : ℕ) {m v : ℕ} (hv : v < m) :
    (revBits base n m v).Slots (fun i => base + m ≤ i ∧ i < base + m * 2 ^ n) := by
  induction n generalizing m v with
  | zero => trivial
  | succ n ih =>
      have hp : 1 ≤ 2 ^ n := Nat.one_le_two_pow
      have hle : m ≤ m * 2 ^ n := Nat.le_mul_of_pos_right _ hp
      have h2 : m * 2 ^ (n + 1) = 2 * (m * 2 ^ n) := by ring
      have h3 : 2 * m * 2 ^ n = 2 * (m * 2 ^ n) := by ring
      refine ⟨by constructor <;> omega, fun b => (ih ?_).mono ?_⟩
      · cases b <;> simp <;> omega
      · intro i hi
        constructor <;> omega

theorem revBits_returns (base n : ℕ) {m v : ℕ} (hv : v < m) :
    (revBits base n m v).Returns (fun r => r < m * 2 ^ n) := by
  induction n generalizing m v with
  | zero => simpa [revBits, Prog.Returns] using hv
  | succ n ih =>
      intro b
      have h2 : m * 2 ^ (n + 1) = 2 * m * 2 ^ n := by ring
      rw [h2]
      apply ih
      cases b <;> simp <;> omega

theorem revBits_once (base n : ℕ) {m v : ℕ} (hv : v < m) : (revBits base n m v).Once := by
  induction n generalizing m v with
  | zero => trivial
  | succ n ih =>
      intro b
      have hb : v + b.toNat * m < 2 * m := by cases b <;> simp <;> omega
      exact ⟨(revBits_slots base n hb).mono (fun i hi => by omega), ih hb⟩

theorem revBits_total (base n m v : ℕ) : (revBits base n m v).Total := by
  induction n generalizing m v with
  | zero => trivial
  | succ n ih => exact fun b => ih _ _

theorem revBits_within (base n m v : ℕ) : (revBits base n m v).Within (605 * n) := by
  induction n generalizing m v with
  | zero => trivial
  | succ n ih => exact ⟨by omega, fun b => (ih _ _).mono (by omega)⟩

theorem directProg_slots (S : ℕ → Prop) (n d : ℕ) : (directProg n d).Slots S := by
  induction n generalizing d with
  | zero => trivial
  | succ n ih => exact fun b => ih _

theorem directProg_once (n d : ℕ) : (directProg n d).Once := by
  induction n generalizing d with
  | zero => trivial
  | succ n ih => exact fun b => ih _

theorem directProg_total (n d : ℕ) : (directProg n d).Total := by
  induction n generalizing d with
  | zero => trivial
  | succ n ih => exact fun b => ih _

theorem directProg_within (n d : ℕ) : (directProg n d).Within (101 * n) := by
  induction n generalizing d with
  | zero => trivial
  | succ n ih => exact ⟨by omega, fun b => (ih _).mono (by omega)⟩

theorem directProg_returns (n d : ℕ) :
    (directProg n d).Returns (fun r => r < (d + 1) * 2 ^ n) := by
  induction n generalizing d with
  | zero => simp [directProg, Prog.Returns]
  | succ n ih =>
      intro b
      apply (ih _).mono
      intro r hr
      have h1 : (2 * d + b.toNat + 1) * 2 ^ n ≤ (2 * (d + 1)) * 2 ^ n :=
        Nat.mul_le_mul_right _ (by have := b.toNat_le; omega)
      have h2 : (d + 1) * 2 ^ (n + 1) = (2 * (d + 1)) * 2 ^ n := by ring
      omega

theorem tree_spec (base n : ℕ) : (tree base n 1).Spec
    (fun i => base + 1 ≤ i ∧ i < base + 2 ^ n) (fun r => 2 ^ n ≤ r ∧ r < 2 * 2 ^ n) (605 * n) where
  slots := (tree_slots base n 1).mono fun i hi => by constructor <;> omega
  once := tree_once base n le_rfl
  total := tree_total base n 1
  within := tree_within base n 1
  returns := (tree_returns base n 1).mono fun r hr => by omega

theorem matchedTree_spec (base mb : ℕ) : (matchedTree base mb 8 1 true).Spec
    (fun i => base ≤ i ∧ i < base + lzmaLitSize) (fun _ => True) (605 * 8) where
  slots := (matchedTree_slots base mb 8 1 true).mono fun i ⟨off, s, hi, ho, h1, h2⟩ => by
    have hl := layout
    constructor <;> omega
  once := matchedTree_once base mb 8 true le_rfl (by norm_num)
  total := matchedTree_total base mb 8 1 true
  within := matchedTree_within base mb 8 1 true
  returns := by
    have h (n sym : ℕ) (same : Bool) : (matchedTree base mb n sym same).Returns fun _ => True := by
      induction n generalizing sym same with
      | zero => trivial
      | succ n ih => exact fun b => ih _ _
    exact h 8 1 true

theorem revBits_spec (base n : ℕ) : (revBits base n 1 0).Spec
    (fun i => base + 1 ≤ i ∧ i < base + 2 ^ n) (fun r => r < 2 ^ n) (605 * n) where
  slots := (revBits_slots base n one_pos).mono fun i hi => by omega
  once := revBits_once base n one_pos
  total := revBits_total base n 1 0
  within := revBits_within base n 1 0
  returns := (revBits_returns base n one_pos).mono fun r hr => by omega

theorem directProg_spec (n d : ℕ) : (directProg n d).Spec
    (fun _ => False) (fun r => r < (d + 1) * 2 ^ n) (101 * n) :=
  ⟨directProg_slots _ n d, directProg_once n d, directProg_total n d, directProg_within n d,
    directProg_returns n d⟩

theorem lenProg_spec (base : ℕ) {posState : ℕ} (hp : posState < 16) : (lenProg base posState).Spec
    (fun i => base ≤ i ∧ i < base + kNumLenProbs) (fun r => r ≤ 271) (605 * 10) := by
  have hl := layout
  have hlow : ((tree (base + (lenLow + 16 * posState)) 3 1).bind fun s => .pure (s - 8)).Spec
      (fun i => base < i ∧ i < base + kNumLenProbs) (fun r => r ≤ 271) (605 * 9) :=
    ((tree_spec _ 3).map (fun s => s - 8) (Q := fun r => r ≤ 271) (fun s hs => by omega)).mono
      (fun i hi => by constructor <;> omega) (fun _ h => h) (by omega)
  have hmid : (tree (base + (lenLow + 16 * posState + 8)) 3 1).Spec
      (fun i => base + 8 < i ∧ i < base + kNumLenProbs) (fun r => r ≤ 271) (605 * 8) :=
    (tree_spec _ 3).mono (fun i hi => by constructor <;> omega) (fun r hr => by omega) (by omega)
  have hhigh : ((tree (base + lenHigh) 8 1).bind fun s => .pure (s - 256 + 16)).Spec
      (fun i => base + 8 < i ∧ i < base + kNumLenProbs) (fun r => r ≤ 271) (605 * 8) :=
    ((tree_spec _ 8).map (fun s => s - 256 + 16) (Q := fun r => r ≤ 271)
      (fun s hs => by omega)).mono (fun i hi => by constructor <;> omega) (fun _ h => h) (by omega)
  refine (Prog.Spec.bit (S := fun i => base < i ∧ i < base + kNumLenProbs)
    (P := fun r => r ≤ 271) (n := 605 * 9) (fun b => ?_) (by omega)).mono
    (fun i hi => by constructor <;> omega) (fun _ h => h) (by omega)
  cases b with
  | false => exact hlow
  | true =>
      refine (Prog.Spec.bit (S := fun i => base + 8 < i ∧ i < base + kNumLenProbs)
        (P := fun r => r ≤ 271) (n := 605 * 8) (fun b => ?_) (by omega)).mono
        (fun i hi => by constructor <;> omega) (fun _ h => h) (by omega)
      cases b with
      | false => exact hmid
      | true => exact hhigh

/-- The slot part of a distance uses the special-position and align models only. -/
theorem slotProg_spec {slot : ℕ} (hs : slot < 64) : (slotProg slot).Spec
    (fun i => i < kNumFullDistances ∨ (align ≤ i ∧ i < align + kAlignTableSize))
    (fun r => r < 2 ^ 32) 5046 := by
  have hl := layout
  unfold slotProg
  split
  · exact (Prog.Spec.pure (P := fun r => r < 2 ^ 32) (by omega)).mono
      (fun _ h => h.elim) (fun _ h => h) (by omega)
  · rename_i h4
    simp only
    split
    · rename_i h14
      have hb : (2 + slot % 2) * 2 ^ (slot / 2 - 1) + 2 ^ (slot / 2 - 1) ≤ 128 :=
        (by decide : ∀ s < 14, (2 + s % 2) * 2 ^ (s / 2 - 1) + 2 ^ (s / 2 - 1) ≤ 128) slot (by omega)
      have hn : slot / 2 - 1 ≤ 5 := by omega
      exact ((revBits_spec _ _).map _ (Q := fun r => r < 2 ^ 32) (fun v hv => by omega)).mono
        (fun i hi => by left; omega) (fun _ h => h) (by omega)
    · rename_i h14
      have hn : slot / 2 - 1 - 4 ≤ 26 := by omega
      have hpow : (2 + slot % 2 + 1) * 2 ^ (slot / 2 - 1 - 4) ≤ 2 ^ 28 := by
        calc (2 + slot % 2 + 1) * 2 ^ (slot / 2 - 1 - 4) ≤ 4 * 2 ^ 26 :=
              Nat.mul_le_mul (by omega) (Nat.pow_le_pow_right (by norm_num) hn)
          _ = 2 ^ 28 := by norm_num
      refine (Prog.Spec.bind (directProg_spec _ _) (T := fun i => align + 1 ≤ i ∧ i < align + 2 ^ 4)
        (Q := fun r => r < 2 ^ 32) (n := 605 * 4) (fun d hd => ?_) (fun _ h => h.elim)).mono
        (fun i hi => ?_) (fun _ h => h) (by omega)
      · exact (revBits_spec align 4).map _ (fun v hv => by omega)
      · simp only [false_or] at hi
        omega

theorem distProg_spec (len : ℕ) : (distProg len).Spec
    (fun i => i < kNumFullDistances ∨ (align ≤ i ∧ i < align + kAlignTableSize) ∨
      (posSlot ≤ i ∧ i < literal))
    (fun r => r < 2 ^ 32) (605 * 6 + 5046) := by
  have hl := layout
  have hm : min len 3 ≤ 3 := min_le_right _ _
  exact (Prog.Spec.bind (tree_spec (posSlot + 64 * min len 3) 6)
    (fun s hs => slotProg_spec (by omega)) (fun i h1 h2 => by omega)).mono
    (fun i hi => by omega) (fun _ h => h) le_rfl

/-- The context's fields are in the ranges the table was laid out for. -/
structure Ctx.Ok (c : Ctx) (size : ℕ) : Prop where
  posState_lt : c.posState < 16
  state_lt : c.state < kNumStates
  lit_ge : literal ≤ c.litProb
  lit_le : c.litProb + lzmaLitSize ≤ size

/-- What a symbol can say: legal lengths and 32-bit distances. -/
def Symbol.Legal : Symbol → Prop
  | .lit _ => True
  | .shortRep => True
  | .rep index len => index < 4 ∧ 2 ≤ len ∧ len ≤ 273
  | .simple dist len => dist < 2 ^ 32 ∧ 2 ≤ len ∧ len ≤ 273

section
variable {c : Ctx} {size : ℕ}

theorem litProg_spec (hc : c.Ok size) : (litProg c).Spec
    (fun i => literal ≤ i ∧ i < size) Symbol.Legal (605 * 8) := by
  have hl := layout
  have h1 := hc.lit_ge
  have h2 := hc.lit_le
  unfold litProg
  split
  · exact ((tree_spec c.litProb 8).map (fun s => Symbol.lit (UInt8.ofNat s))
      (Q := Symbol.Legal) (fun _ _ => trivial)).mono (fun i hi => by omega) (fun _ h => h) le_rfl
  · exact ((matchedTree_spec c.litProb c.matchByte).map (fun s => Symbol.lit (UInt8.ofNat s))
      (Q := Symbol.Legal) (fun _ _ => trivial)).mono (fun i hi => by omega) (fun _ h => h) le_rfl

theorem simpleProg_spec (hc : c.Ok size) : (simpleProg c).Spec
    (fun i => i < kNumFullDistances ∨ (lenCoder ≤ i ∧ i < isMatch) ∨
      (align ≤ i ∧ i < isRep) ∨ (posSlot ≤ i ∧ i < literal))
    Symbol.Legal (605 * 10 + (605 * 6 + 5046)) := by
  have hl := layout
  refine (Prog.Spec.bind (lenProg_spec lenCoder hc.posState_lt) (fun len hlen => ?_)
    (T := fun i => i < kNumFullDistances ∨ (align ≤ i ∧ i < isRep) ∨ (posSlot ≤ i ∧ i < literal))
    (Q := Symbol.Legal) (n := 605 * 6 + 5046) (fun i h1 h2 => by omega)).mono
    (fun i hi => by omega) (fun _ h => h) le_rfl
  exact ((distProg_spec len).map (fun d => Symbol.simple d (len + 2)) (Q := Symbol.Legal)
    (fun d hd => ⟨hd, by omega, by omega⟩)).mono (fun i hi => by omega) (fun _ h => h) le_rfl

theorem repTail_spec (hc : c.Ok size) {index : ℕ} (hi : index < 4) : (repTail c index).Spec
    (fun i => repLenCoder ≤ i ∧ i < lenCoder) Symbol.Legal (605 * 10) := by
  have hl := layout
  exact ((lenProg_spec repLenCoder hc.posState_lt).map (fun len => Symbol.rep index (len + 2))
    (Q := Symbol.Legal) (fun len hlen => ⟨hi, by omega, by omega⟩)).mono
    (fun i hi => by omega) (fun _ h => h) le_rfl

theorem repProg_spec (hc : c.Ok size) : (repProg c).Spec
    (fun i => (isRep0Long ≤ i ∧ i < lenCoder) ∨ (isRepG0 ≤ i ∧ i < posSlot))
    Symbol.Legal (605 * 13) := by
  have hl := layout
  have hs := hc.state_lt
  have hp := hc.posState_lt
  refine (Prog.Spec.bit (S := fun i => (isRep0Long ≤ i ∧ i < lenCoder) ∨
    (isRepG1 ≤ i ∧ i < posSlot)) (P := Symbol.Legal) (n := 605 * 12) (fun b => ?_) (by omega)).mono
    (fun i hi => by omega) (fun _ h => h) le_rfl
  cases b with
  | false =>
      refine (Prog.Spec.bit (S := fun i => repLenCoder ≤ i ∧ i < lenCoder)
        (P := Symbol.Legal) (n := 605 * 10) (fun b => ?_) (by omega)).mono
        (fun i hi => by omega) (fun _ h => h) (by omega)
      cases b with
      | false =>
          exact (Prog.Spec.pure (a := Symbol.shortRep) (P := Symbol.Legal) trivial).mono
            (fun _ h => h.elim) (fun _ h => h) (by omega)
      | true => exact repTail_spec hc (by omega)
  | true =>
      refine (Prog.Spec.bit (S := fun i => (repLenCoder ≤ i ∧ i < lenCoder) ∨
        (isRepG2 ≤ i ∧ i < posSlot)) (P := Symbol.Legal) (n := 605 * 11) (fun b => ?_)
        (by omega)).mono (fun i hi => by omega) (fun _ h => h) (by omega)
      cases b with
      | false =>
          exact (repTail_spec hc (by omega)).mono (fun i hi => .inl hi) (fun _ h => h) (by omega)
      | true =>
          refine (Prog.Spec.bit (S := fun i => repLenCoder ≤ i ∧ i < lenCoder)
            (P := Symbol.Legal) (n := 605 * 10) (fun b => ?_) (by omega)).mono
            (fun i hi => by omega) (fun _ h => h) (by omega)
          exact repTail_spec hc (by cases b <;> simp)

/-- A symbol asks only models of its table, none twice, and costs less than 160 bits. -/
theorem symbolProg_spec (hc : c.Ok size) (hr : c.canRep = true) : (symbolProg c).Spec
    (fun i => i < size) Symbol.Legal 15936 := by
  have hl := layout
  have hs := hc.state_lt
  have hp := hc.posState_lt
  have h1 := hc.lit_ge
  have h2 := hc.lit_le
  refine (Prog.Spec.bit (S := fun i => i < isMatch ∨ (align ≤ i ∧ i < size))
    (P := Symbol.Legal) (n := 15331) (fun b => ?_) (by omega)).mono
    (fun i hi => by omega) (fun _ h => h) le_rfl
  cases b with
  | false =>
      exact (litProg_spec hc).mono (fun i hi => by omega) (fun _ h => h) (by omega)
  | true =>
      refine (Prog.Spec.bit (S := fun i => i < isMatch ∨ (align ≤ i ∧ i < isRep) ∨
        (isRepG0 ≤ i ∧ i < size)) (P := Symbol.Legal) (n := 14726) (fun b => ?_) (by omega)).mono
        (fun i hi => by omega) (fun _ h => h) (by omega)
      cases b with
      | false =>
          exact (simpleProg_spec hc).mono (fun i hi => by omega) (fun _ h => h) (by omega)
      | true =>
          simp only [hr, if_true]
          exact (repProg_spec hc).mono (fun i hi => by omega) (fun _ h => h) (by omega)

end
end LzmaTurbo.Lzma
