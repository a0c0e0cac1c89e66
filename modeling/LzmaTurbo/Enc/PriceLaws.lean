import LzmaTurbo.Enc.Price
import Mathlib.Tactic.NormNum
import Mathlib.Tactic.Ring

/-!
# What the loops over the price tables compute

The price of a list of operations is the sum of its bits' prices. A symbol's
bits have the same price from the top down, as they are coded, and from the
bottom up, as the tables are filled.
-/
namespace LzmaTurbo.Enc
open Machine Lzma
open ExactCoder (Op)

section
variable {α : Type} {n : ℕ}

/-- An entry of a table. -/
def cell [Inhabited α] (v : Vector α n) (i : ℕ) : α := if h : i < n then v.get ⟨i, h⟩ else default

theorem read_cell [Inhabited α] (v : Vector α n) {i : ℕ} (h : i < n) :
    read v i = .ok (cell v i) := by
  unfold read cell
  rw [dif_pos h, dif_pos h]

theorem write_ok (v : Vector α n) {i : ℕ} (h : i < n) (x : α) :
    write v i x = .ok (v.setIfInBounds i x) := by
  unfold write
  rw [if_pos h]

theorem cell_set [Inhabited α] (v : Vector α n) {i : ℕ} (h : i < n) (x : α) (j : ℕ) :
    cell (v.setIfInBounds i x) j = if i = j then x else cell v j := by
  unfold cell
  by_cases hj : j < n
  · rw [dif_pos hj, dif_pos hj]
    exact Vector.getElem_setIfInBounds hj
  · rw [dif_neg hj, dif_neg hj, if_neg (by omega)]

/-- A loop's invariant. -/
theorem forRange_inv {σ : Type} {body : ℕ → σ → Except Fault σ} (P : ℕ → σ → Prop) {i n : ℕ} {s : σ}
    (h : P i s) (hb : ∀ j s, i ≤ j → j < i + n → P j s → ∃ s', body j s = .ok s' ∧ P (j + 1) s') :
    ∃ s', forRange body i n s = .ok s' ∧ P (i + n) s' := by
  induction n generalizing i s with
  | zero => exact ⟨s, rfl, h⟩
  | succ n ih =>
      obtain ⟨s₁, h1, hp⟩ := hb i s le_rfl (by omega) h
      obtain ⟨s₂, h2, hq⟩ := ih hp fun j s hj hlt => hb j s (by omega) (by omega)
      refine ⟨s₂, ?_, by rwa [show i + (n + 1) = i + 1 + n by omega]⟩
      rw [forRange, h1, ok_bind, h2]

end

section
variable {σ : Type} {pp : ProbPrices} {model : σ → ℕ}

/-- A direct bit costs one bit. -/
def opPrice (pp : ProbPrices) (model : σ → ℕ) : Op σ → ℕ
  | .bit slot b => price pp (model slot) b.toNat
  | .direct _ => 1 <<< kNumBitPriceShiftBits

def bitsPrice (pp : ProbPrices) (model : σ → ℕ) (ops : List (Op σ)) : ℕ :=
  (ops.map (opPrice pp model)).sum

theorem bitsPrice_cons (o : Op σ) (ops : List (Op σ)) :
    bitsPrice pp model (o :: ops) = opPrice pp model o + bitsPrice pp model ops :=
  List.sum_cons

theorem bitsPrice_append (os ops : List (Op σ)) :
    bitsPrice pp model (os ++ ops) = bitsPrice pp model os + bitsPrice pp model ops := by
  rw [bitsPrice, List.map_append, List.sum_append]
  rfl

theorem price0_eq (prob : ℕ) : price0 pp prob = price pp prob 0 := by
  have hmask : wrappingSub32 0 0 &&& (kBitModelTotal - 1) = 0 := by decide
  simp only [price0, price, hmask, Nat.xor_zero]

theorem price1_eq (prob : ℕ) : price1 pp prob = price pp prob 1 := by
  have hmask : wrappingSub32 0 1 &&& (kBitModelTotal - 1) = kBitModelTotal - 1 := by decide
  simp only [price1, price, hmask]

theorem toNat_bit {b : ℕ} (h : b < 2) : (decide (b ≠ 0)).toNat = b := by
  obtain rfl | rfl : b = 0 ∨ b = 1 := by omega
  · rfl
  · rfl

/-- The price of the `k` lowest bits of the node `node`, each in the model of its parent. -/
def upSum (pp : ProbPrices) (prob : ℕ → ℕ) : ℕ → ℕ → ℕ
  | 0, _ => 0
  | k + 1, node => price pp (prob (node / 2)) (node % 2) + upSum pp prob k (node / 2)

theorem upSum_succ (prob : ℕ → ℕ) (k node : ℕ) : upSum pp prob (k + 1) node =
    upSum pp prob k node + price pp (prob (node / 2 ^ (k + 1))) (node / 2 ^ k % 2) := by
  induction k generalizing node with
  | zero => simp [upSum]
  | succ k ih =>
      have h := ih (node / 2)
      rw [Nat.div_div_eq_div_mul, Nat.div_div_eq_div_mul, ← pow_succ', ← pow_succ'] at h
      rw [upSum, h, upSum]
      exact (Nat.add_assoc _ _ _).symm

/-- From the root down the bits have the same price. -/
theorem treeLoop_price {slot : ℕ → σ} {numBits node : ℕ} (hb : 0 < numBits) (hle : numBits ≤ 15)
    (hn : node < 2 ^ (numBits + 1)) (k : ℕ) (hk : k ≤ numBits) :
    bitsPrice pp model (treeLoop slot numBits k (node * 2 ^ (numBits - k))) =
      upSum pp (fun i => model (slot i)) k node := by
  induction k with
  | zero => rfl
  | succ k ih =>
      have hsym : u32 ((node * 2 ^ (numBits - (k + 1))) <<< 1) = node * 2 ^ (numBits - k) := by
        have hpow : 2 ^ (numBits - (k + 1)) * 2 = 2 ^ (numBits - k) := by
          rw [← pow_succ]
          congr 1
          omega
        have hlt : node * 2 ^ (numBits - k) < 2 ^ 32 := by
          have h3 : 2 ^ (numBits - k) ≤ 2 ^ 15 := Nat.pow_le_pow_right (by norm_num) (by omega)
          have h4 : 2 ^ (numBits + 1) ≤ 2 ^ 16 := Nat.pow_le_pow_right (by norm_num) (by omega)
          calc node * 2 ^ (numBits - k) ≤ 2 ^ 16 * 2 ^ 15 := Nat.mul_le_mul (by omega) h3
            _ < 2 ^ 32 := by norm_num
        rw [Nat.shiftLeft_eq, pow_one, mul_assoc, hpow, u32, Nat.mod_eq_of_lt hlt]
      have hindex : (node * 2 ^ (numBits - (k + 1))) >>> numBits = node / 2 ^ (k + 1) := by
        rw [Nat.shiftRight_eq_div_pow]
        conv_lhs => rw [show numBits = (k + 1) + (numBits - (k + 1)) by omega, pow_add]
        rw [show k + 1 + (numBits - (k + 1)) - (k + 1) = numBits - (k + 1) by omega]
        exact Nat.mul_div_mul_right _ _ (by positivity)
      have hbit : ((node * 2 ^ (numBits - (k + 1))) >>> (numBits - 1)) &&& 1 =
          node / 2 ^ k % 2 := by
        rw [Nat.and_one_is_mod, Nat.shiftRight_eq_div_pow,
          show numBits - 1 = k + (numBits - (k + 1)) by omega, pow_add]
        rw [Nat.mul_div_mul_right _ _ (by positivity)]
      rw [upSum_succ, treeLoop, bitsPrice_cons]
      simp only [hsym, hindex, hbit, opPrice]
      rw [toNat_bit (Nat.mod_lt _ (by norm_num)), add_comm]
      congr 1
      by_cases hstop : 1 <<< (numBits * 2) ≤ node * 2 ^ (numBits - k)
      · rw [if_pos hstop]
        obtain rfl : k = 0 := by
          by_contra hne
          have h3 : node * 2 ^ (numBits - k) < 2 ^ (numBits * 2) := by
            calc node * 2 ^ (numBits - k) < 2 ^ (numBits + 1) * 2 ^ (numBits - k) :=
                  Nat.mul_lt_mul_of_pos_right hn (by positivity)
              _ = 2 ^ (numBits + 1 + (numBits - k)) := (pow_add _ _ _).symm
              _ ≤ 2 ^ (numBits * 2) := Nat.pow_le_pow_right (by norm_num) (by omega)
          rw [Nat.shiftLeft_eq, one_mul] at hstop
          omega
        rfl
      · rw [if_neg hstop]
        exact ih (by omega)

end

section
variable {σ : Type} {pp : ProbPrices} {n : ℕ} {probs : Vector ℕ n}

theorem upPrice_eq {num node total : ℕ} (h : node < 2 * n) :
    upPrice pp probs num node total = .ok (total + upSum pp (cell probs) num node) := by
  induction num generalizing node total with
  | zero => rfl
  | succ num ih =>
      have hhalf : node >>> 1 = node / 2 := by rw [Nat.shiftRight_eq_div_pow, pow_one]
      simp only [upPrice, hhalf, Nat.and_one_is_mod]
      rw [read_cell probs (by omega), ok_bind, ih (by omega), upSum, Nat.add_assoc]

/-- The loop that stops at the root is the one that counts. -/
theorem upWhile_eq {k fuel node total : ℕ} (h : node < 2 * n) (h1 : 2 ^ (k + 1) ≤ node)
    (h2 : node < 2 ^ (k + 2)) (hk : k < fuel) :
    upWhile pp probs fuel node total = .ok (total + upSum pp (cell probs) (k + 1) node) := by
  induction k generalizing fuel node total with
  | zero =>
      obtain ⟨fuel, rfl⟩ : ∃ m, fuel = m + 1 := ⟨fuel - 1, by omega⟩
      have hhalf : node >>> 1 = node / 2 := by rw [Nat.shiftRight_eq_div_pow, pow_one]
      simp only [upWhile, hhalf, Nat.and_one_is_mod]
      rw [read_cell probs (by omega), ok_bind, if_pos (by omega)]
      rfl
  | succ k ih =>
      obtain ⟨fuel, rfl⟩ : ∃ m, fuel = m + 1 := ⟨fuel - 1, by omega⟩
      have hhalf : node >>> 1 = node / 2 := by rw [Nat.shiftRight_eq_div_pow, pow_one]
      have hpos : 0 < 2 ^ k := by positivity
      rw [pow_succ] at h1 h2
      have hsum : upSum pp (cell probs) (k + 1 + 1) node =
          price pp (cell probs (node / 2)) (node % 2) + upSum pp (cell probs) (k + 1) (node / 2) :=
        rfl
      simp only [upWhile, hhalf, Nat.and_one_is_mod]
      rw [read_cell probs (by omega), ok_bind, if_neg (by rw [pow_succ] at h1; omega),
        ih (by omega) (by omega) (by omega) (by omega), hsum, Nat.add_assoc]

/-- The node `num` bits of `sym` lead to, the lowest first. -/
def nodeAfter : ℕ → ℕ → ℕ → ℕ
  | 0, m, _ => m
  | num + 1, m, sym => nodeAfter num (2 * m + sym % 2) (sym / 2)

theorem nodeAfter_lt (num m sym : ℕ) : nodeAfter num m sym < (m + 1) * 2 ^ num := by
  induction num generalizing m sym with
  | zero => simp [nodeAfter]
  | succ num ih =>
      have h := ih (2 * m + sym % 2) (sym / 2)
      have hle : (2 * m + sym % 2 + 1) * 2 ^ num ≤ (2 * m + 2) * 2 ^ num :=
        Nat.mul_le_mul_right _ (by omega)
      rw [show (m + 1) * 2 ^ (num + 1) = (2 * m + 2) * 2 ^ num by ring]
      exact h.trans_le hle

theorem two_mul_or {m sym : ℕ} : (m <<< 1) ||| (sym &&& 1) = 2 * m + sym % 2 := by
  rw [Nat.and_one_is_mod, ← Nat.shiftLeft_add_eq_or_of_lt (by omega), Nat.shiftLeft_eq, pow_one,
    mul_comm]

theorem reverseLoop_cons {slot : ℕ → σ} (num m sym : ℕ) : reverseLoop slot (num + 1) m sym =
    .bit (slot m) (decide (sym % 2 ≠ 0)) :: reverseLoop slot num (2 * m + sym % 2) (sym / 2) := by
  simp only [reverseLoop, two_mul_or, Nat.shiftRight_eq_div_pow, pow_one]
  rw [Nat.and_one_is_mod]

/-- One bit more, at the end. -/
theorem reverseLoop_succ {slot : ℕ → σ} (num m sym : ℕ) : reverseLoop slot (num + 1) m sym =
    reverseLoop slot num m sym ++
      [.bit (slot (nodeAfter num m sym)) (decide (sym / 2 ^ num % 2 ≠ 0))] := by
  induction num generalizing m sym with
  | zero => simp [reverseLoop, nodeAfter]
  | succ num ih =>
      rw [reverseLoop_cons, ih, Nat.div_div_eq_div_mul, ← pow_succ', reverseLoop_cons]
      rfl

/-- Only the bits that are coded count. -/
theorem reverseLoop_mod {slot : ℕ → σ} {num m sym sym' : ℕ}
    (h : sym % 2 ^ num = sym' % 2 ^ num) :
    reverseLoop slot num m sym = reverseLoop slot num m sym' ∧
      nodeAfter num m sym = nodeAfter num m sym' := by
  induction num generalizing m sym sym' with
  | zero => exact ⟨rfl, rfl⟩
  | succ num ih =>
      rw [pow_succ'] at h
      have hbit : sym % 2 = sym' % 2 := by
        have h1 := congrArg (· % 2) h
        simpa [Nat.mod_mul_right_mod] using h1
      have hrest : sym / 2 % 2 ^ num = sym' / 2 % 2 ^ num := by
        rw [Nat.mod_mul, Nat.mod_mul] at h
        omega
      obtain ⟨h1, h2⟩ := ih (m := 2 * m + sym' % 2) hrest
      simp only [reverseLoop_cons, nodeAfter, hbit]
      exact ⟨by rw [h1], h2⟩

theorem downPrice_eq {model : σ → ℕ} {slot : ℕ → σ} {base num m sym total : ℕ}
    (hmodel : ∀ i, model (slot i) = cell probs (base + i))
    (h : base + (m + 1) * 2 ^ num ≤ n) :
    downPrice pp probs base num m sym total =
      .ok (nodeAfter num m sym, total + bitsPrice pp model (reverseLoop slot num m sym)) := by
  induction num generalizing m sym total with
  | zero => rfl
  | succ num ih =>
      have hpos : 0 < 2 ^ num := by positivity
      have hm : (m + 1) * 2 ^ (num + 1) = (2 * m + 2) * 2 ^ num := by ring
      have hle : (2 * m + sym % 2 + 1) * 2 ^ num ≤ (2 * m + 2) * 2 ^ num :=
        Nat.mul_le_mul_right _ (by omega)
      have hge : 2 * m + 2 ≤ (2 * m + 2) * 2 ^ num := Nat.le_mul_of_pos_right _ hpos
      have hnode : (m <<< 1) + (sym &&& 1) = 2 * m + sym % 2 := by
        rw [Nat.shiftLeft_eq, pow_one, Nat.and_one_is_mod, mul_comm]
      simp only [downPrice, hnode, Nat.shiftRight_eq_div_pow, pow_one]
      rw [read_cell probs (by omega), ok_bind, ih (by omega), reverseLoop_cons, bitsPrice_cons]
      simp only [nodeAfter, opPrice, hmodel, Nat.and_one_is_mod]
      rw [toNat_bit (Nat.mod_lt _ (by norm_num)), Nat.add_assoc]

end
end LzmaTurbo.Enc
