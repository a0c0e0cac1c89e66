import LzmaTurbo.Enc.LzmaEnc
import LzmaTurbo.Enc.PosSlots
import LzmaTurbo.Enc.PriceLaws
import LzmaTurbo.Lzma.ReferenceLaws

/-!
# The loops of the encoder are paths of the decoder's trees

Every cell of the encoder's tables has its place in the decoder's flat table. The trees that
are coded from their lowest bit up are numbered differently by the two sides: the encoder has
the first bit of a node's path on top, the decoder has it lowest.
-/
namespace LzmaTurbo.Enc
open Machine Lzma BitProgram
open ExactCoder (Op Path)

/-- The `k` lowest bits in reverse order. -/
def mirror : ℕ → ℕ → ℕ
  | 0, _ => 0
  | k + 1, v => v % 2 * 2 ^ k + mirror k (v / 2)

/-- A node of a tree with its path reversed. -/
def mirrorNode (m : ℕ) : ℕ :=
  if m = 0 then 0 else 2 ^ Nat.log2 m + mirror (Nat.log2 m) (m - 2 ^ Nat.log2 m)

/-- The footer trees follow each other: the two top bits of an index say which it is in. -/
def mirrorFooter (i : ℕ) : ℕ :=
  let n := Nat.log2 i - 1
  i - i % 2 ^ n + mirrorNode (i % 2 ^ n)

def lenPlace : LenSlot → ℕ
  | .low i => lenLow + i
  | .high i => lenHigh + i

def distPlace : DistSlot → ℕ
  | .posSlot lps i => posSlot + (64 * lps + i)
  | .pos i => specPos + mirrorFooter i
  | .align i => align + mirrorNode i

/-- Where the decoder keeps the cell. -/
def place : ModelSlot → ℕ
  | .isMatch state posState => isMatch + (16 * posState + state)
  | .isRep state => isRep + state
  | .isRepG0 state => isRepG0 + state
  | .isRepG1 state => isRepG1 + state
  | .isRepG2 state => isRepG2 + state
  | .isRep0Long state posState => isRep0Long + (16 * posState + state)
  | .dist slot => distPlace slot
  | .len slot => lenCoder + lenPlace slot
  | .repLen slot => repLenCoder + lenPlace slot
  | .lit i => literal + i

theorem mirrorFooter_involutive : ∀ i < 128, mirrorFooter i < 128 ∧
    mirrorFooter (mirrorFooter i) = i := by
  decide

theorem mirrorNode_involutive : ∀ i < 16, mirrorNode i < 16 ∧ mirrorNode (mirrorNode i) = i := by
  decide

def lenAt (i : ℕ) : LenSlot := if i < 256 then .low i else .high (i - 256)

/-- The cell the decoder keeps at a place. -/
def slotAt (i : ℕ) : ModelSlot :=
  if i < 128 then .dist (.pos (mirrorFooter i))
  else if i < 384 then .isRep0Long ((i - 128) % 16) ((i - 128) / 16)
  else if i < 896 then .repLen (lenAt (i - 384))
  else if i < 1408 then .len (lenAt (i - 896))
  else if i < 1664 then .isMatch ((i - 1408) % 16) ((i - 1408) / 16)
  else if i < 1680 then .dist (.align (mirrorNode (i - 1664)))
  else if i < 1692 then .isRep (i - 1680)
  else if i < 1704 then .isRepG0 (i - 1692)
  else if i < 1716 then .isRepG1 (i - 1704)
  else if i < 1728 then .isRepG2 (i - 1716)
  else if i < 1984 then .dist (.posSlot ((i - 1728) / 64) ((i - 1728) % 64))
  else .lit (i - 1984)

theorem lenAt_place {s : LenSlot} (h : s.InTable) : lenPlace s < 512 ∧ lenAt (lenPlace s) = s := by
  cases s with
  | low i =>
      have hi : i < 256 := h
      rw [show lenPlace (.low i) = i from Nat.zero_add i, lenAt, if_pos hi]
      exact ⟨by omega, rfl⟩
  | high i =>
      have hi : i < 256 := h
      rw [show lenPlace (.high i) = 256 + i from rfl, lenAt, if_neg (by omega),
        Nat.add_sub_cancel_left]
      exact ⟨by omega, rfl⟩

theorem slotAt_dist {s : DistSlot} (h : s.InTable) : slotAt (distPlace s) = .dist s := by
  cases s with
  | posSlot lps i =>
      obtain ⟨hlps, hi⟩ : lps < 4 ∧ i < 64 := h
      rw [show distPlace (.posSlot lps i) = 1728 + (64 * lps + i) from rfl, slotAt]
      simp (disch := omega) only [if_neg, if_pos]
      rw [show (1728 + (64 * lps + i) - 1728) / 64 = lps by omega,
        show (1728 + (64 * lps + i) - 1728) % 64 = i by omega]
  | pos i =>
      obtain ⟨hlt, hback⟩ := mirrorFooter_involutive i h
      rw [show distPlace (.pos i) = mirrorFooter i from Nat.zero_add _, slotAt, if_pos hlt, hback]
  | align i =>
      obtain ⟨hlt, hback⟩ := mirrorNode_involutive i h
      rw [show distPlace (.align i) = 1664 + mirrorNode i from rfl, slotAt]
      simp (disch := omega) only [if_neg, if_pos]
      rw [Nat.add_sub_cancel_left, hback]

theorem slotAt_place {litLen : ℕ} {s : ModelSlot} (h : s.InTable litLen) :
    slotAt (place s) = s := by
  cases s with
  | dist slot => exact slotAt_dist h
  | isMatch state posState =>
      obtain ⟨hstate, hpos⟩ : state < 12 ∧ posState < 16 := h
      rw [show place (.isMatch state posState) = 1408 + (16 * posState + state) from rfl, slotAt]
      simp (disch := omega) only [if_neg, if_pos]
      rw [show (1408 + (16 * posState + state) - 1408) % 16 = state by omega,
        show (1408 + (16 * posState + state) - 1408) / 16 = posState by omega]
  | isRep0Long state posState =>
      obtain ⟨hstate, hpos⟩ : state < 12 ∧ posState < 16 := h
      rw [show place (.isRep0Long state posState) = 128 + (16 * posState + state) from rfl, slotAt]
      simp (disch := omega) only [if_neg, if_pos]
      rw [show (128 + (16 * posState + state) - 128) % 16 = state by omega,
        show (128 + (16 * posState + state) - 128) / 16 = posState by omega]
  | len slot =>
      obtain ⟨hlt, hback⟩ := lenAt_place h
      rw [show place (.len slot) = 896 + lenPlace slot from rfl, slotAt]
      simp (disch := omega) only [if_neg, if_pos]
      rw [Nat.add_sub_cancel_left, hback]
  | repLen slot =>
      obtain ⟨hlt, hback⟩ := lenAt_place h
      rw [show place (.repLen slot) = 384 + lenPlace slot from rfl, slotAt]
      simp (disch := omega) only [if_neg, if_pos]
      rw [Nat.add_sub_cancel_left, hback]
  | lit i =>
      rw [show place (.lit i) = 1984 + i from rfl, slotAt]
      simp (disch := omega) only [if_neg]
      rw [Nat.add_sub_cancel_left]
  | isRep state =>
      have hstate : state < 12 := h
      rw [show place (.isRep state) = 1680 + state from rfl, slotAt]
      simp (disch := omega) only [if_neg, if_pos]
      rw [Nat.add_sub_cancel_left]
  | isRepG0 state =>
      have hstate : state < 12 := h
      rw [show place (.isRepG0 state) = 1692 + state from rfl, slotAt]
      simp (disch := omega) only [if_neg, if_pos]
      rw [Nat.add_sub_cancel_left]
  | isRepG1 state =>
      have hstate : state < 12 := h
      rw [show place (.isRepG1 state) = 1704 + state from rfl, slotAt]
      simp (disch := omega) only [if_neg, if_pos]
      rw [Nat.add_sub_cancel_left]
  | isRepG2 state =>
      have hstate : state < 12 := h
      rw [show place (.isRepG2 state) = 1716 + state from rfl, slotAt]
      simp (disch := omega) only [if_neg, if_pos]
      rw [Nat.add_sub_cancel_left]

theorem place_inj {litLen : ℕ} {s t : ModelSlot} (hs : s.InTable litLen) (ht : t.InTable litLen)
    (h : place s = place t) : s = t := by
  rw [← slotAt_place hs, h, slotAt_place ht]

section
variable {σ : Type} {T : σ → Prop} {φ : σ → ℕ} {slot : ℕ → σ} {base : ℕ}

theorem toNat_odd (v : ℕ) : (decide (v % 2 ≠ 0)).toNat = v % 2 :=
  toNat_bit (Nat.mod_lt _ (by norm_num))

theorem half_node (node k : ℕ) : 2 * (node / 2 ^ (k + 1)) + node / 2 ^ k % 2 = node / 2 ^ k := by
  rw [pow_succ, ← Nat.div_div_eq_div_mul]
  omega

/-- From the top bit down. -/
theorem treeLoop_path {numBits node : ℕ}
    (hslot : ∀ i, 0 < i → i < 2 ^ numBits → T (slot i) ∧ φ (slot i) = base + i)
    (hb : 0 < numBits) (hle : numBits ≤ 15) (hge : 2 ^ numBits ≤ node)
    (hn : node < 2 ^ (numBits + 1)) (k : ℕ) (hk : k ≤ numBits) :
    Path T φ (tree base k (node / 2 ^ k)) (treeLoop slot numBits k (node * 2 ^ (numBits - k)))
      node := by
  induction k with
  | zero =>
      rw [pow_zero, Nat.div_one]
      exact .pure node
  | succ k ih =>
      have hsym : u32 ((node * 2 ^ (numBits - (k + 1))) <<< 1) = node * 2 ^ (numBits - k) := by
        have hpow : 2 ^ (numBits - (k + 1)) * 2 = 2 ^ (numBits - k) := by
          rw [← pow_succ]
          congr 1
          omega
        have hlt : node * 2 ^ (numBits - k) < 2 ^ 32 := by
          have h3 : 2 ^ (numBits - k) ≤ 2 ^ 15 := Nat.pow_le_pow_right (by norm_num) (by omega)
          have h4 : 2 ^ (numBits + 1) ≤ 2 ^ 16 := Nat.pow_le_pow_right (by norm_num) (by omega)
          calc node * 2 ^ (numBits - k) ≤ 2 ^ 16 * 2 ^ 15 := Nat.mul_le_mul (by omega) h3
            _ < 2 ^ 32 := by norm_num
        rw [Nat.shiftLeft_eq, pow_one, mul_assoc, hpow, u32, Nat.mod_eq_of_lt hlt]
      have hindex : (node * 2 ^ (numBits - (k + 1))) >>> numBits = node / 2 ^ (k + 1) := by
        rw [Nat.shiftRight_eq_div_pow]
        conv_lhs => rw [show numBits = (k + 1) + (numBits - (k + 1)) by omega, pow_add]
        rw [show k + 1 + (numBits - (k + 1)) - (k + 1) = numBits - (k + 1) by omega]
        exact Nat.mul_div_mul_right _ _ (by positivity)
      have hbit : ((node * 2 ^ (numBits - (k + 1))) >>> (numBits - 1)) &&& 1 =
          node / 2 ^ k % 2 := by
        rw [Nat.and_one_is_mod, Nat.shiftRight_eq_div_pow,
          show numBits - 1 = k + (numBits - (k + 1)) by omega, pow_add]
        rw [Nat.mul_div_mul_right _ _ (by positivity)]
      obtain ⟨hin, hname⟩ := hslot (node / 2 ^ (k + 1))
        (Nat.div_pos ((Nat.pow_le_pow_right (by norm_num) hk).trans hge) (by positivity))
        ((Nat.div_le_div_left (Nat.pow_le_pow_right (by norm_num) (by omega : 1 ≤ k + 1))
          (by norm_num)).trans_lt (by rw [pow_one]; rw [pow_succ] at hn; omega))
      simp only [treeLoop, tree, hsym, hindex, hbit]
      refine .bit hin hname ?_
      rw [toNat_odd, half_node]
      by_cases hstop : 1 <<< (numBits * 2) ≤ node * 2 ^ (numBits - k)
      · rw [if_pos hstop]
        -- the mark of the leaf is at the top: this was the last bit
        obtain rfl : k = 0 := by
          by_contra hne
          have h3 : node * 2 ^ (numBits - k) < 2 ^ (numBits * 2) := by
            calc node * 2 ^ (numBits - k) < 2 ^ (numBits + 1) * 2 ^ (numBits - k) :=
                  Nat.mul_lt_mul_of_pos_right hn (by positivity)
              _ = 2 ^ (numBits + 1 + (numBits - k)) := (pow_add _ _ _).symm
              _ ≤ 2 ^ (numBits * 2) := Nat.pow_le_pow_right (by norm_num) (by omega)
          rw [Nat.shiftLeft_eq, one_mul] at hstop
          omega
        rw [pow_zero, Nat.div_one]
        exact .pure node
      · rw [if_neg hstop]
        exact ih (by omega)

/-- A whole tree: the mark above the bits is its root. -/
theorem treeLoop_whole {numBits v : ℕ}
    (hslot : ∀ i, 0 < i → i < 2 ^ numBits → T (slot i) ∧ φ (slot i) = base + i)
    (hb : 0 < numBits) (hle : numBits ≤ 15) (hv : v < 2 ^ numBits) :
    Path T φ (tree base numBits 1) (treeLoop slot numBits numBits (2 ^ numBits + v))
      (2 ^ numBits + v) := by
  have hpow : 2 ^ (numBits + 1) = 2 * 2 ^ numBits := by ring
  have hroot : (2 ^ numBits + v) / 2 ^ numBits = 1 := by
    rw [Nat.add_div_left _ (by positivity), Nat.div_eq_of_lt hv]
  have h := treeLoop_path hslot hb hle (Nat.le_add_right _ _)
    (show 2 ^ numBits + v < 2 ^ (numBits + 1) by omega) numBits le_rfl
  rwa [hroot, Nat.sub_self, pow_zero, mul_one] at h

theorem litEncode_path
    (hslot : ∀ i, 0 < i → i < 256 → T (slot i) ∧ φ (slot i) = base + i) {sym : ℕ}
    (h : sym < 256) : Path T φ (tree base 8 1) (litEncode slot sym) (256 + sym) := by
  have hor : ∀ s < 256, s ||| 0x100 = 2 ^ 8 + s := by decide +kernel
  rw [litEncode, hor sym h]
  exact treeLoop_whole hslot (by norm_num) (by norm_num) h

theorem testBit_shifted (m j : ℕ) {k : ℕ} (hk : k + j = 8) :
    (m * 2 ^ j).testBit 8 = m.testBit k := by
  rw [← hk, Nat.testBit_mul_two_pow]
  simp

theorem offs_and (same : Bool) (x : ℕ) : x &&& (if same then 256 else 0) =
    if same then (x.testBit 8).toNat * 256 else 0 := by
  cases same with
  | false => exact Nat.and_zero x
  | true => exact Nat.and_two_pow x 8

/-- `offs` stays as long as the two bits are the same. -/
theorem offs_next (same : Bool) {x y : ℕ} (hx : x < 2 ^ 32) (hy : y < 2 ^ 32) :
    (if same then 256 else 0) &&& not32 (x ^^^ y) =
      if same && (x.testBit 8 == y.testBit 8) then 256 else 0 := by
  have hnot : not32 (x ^^^ y) = 2 ^ 32 - ((x ^^^ y) + 1) := by
    unfold not32
    omega
  rw [Nat.and_comm, offs_and, hnot, Nat.testBit_two_pow_sub_succ (Nat.xor_lt_two_pow hx hy),
    Nat.testBit_xor]
  cases same <;> cases x.testBit 8 <;> cases y.testBit 8 <;> rfl

theorem litMatchedLoop_path
    (hslot : ∀ i, 0 < i → i < 768 → T (slot i) ∧ φ (slot i) = base + i) {node m : ℕ}
    (hge : 256 ≤ node) (hn : node < 512) (hm : m < 256) (k : ℕ) (hk : k ≤ 8) (same : Bool) :
    Path T φ (matchedTree base m k (node / 2 ^ k) same)
      (litMatchedLoop slot k (if same then 256 else 0) (node * 2 ^ (8 - k)) (m * 2 ^ (8 - k)))
      node := by
  induction k generalizing same with
  | zero =>
      rw [pow_zero, Nat.div_one]
      exact .pure node
  | succ k ih =>
      have hpow : 2 ^ (8 - (k + 1)) * 2 = 2 ^ (8 - k) := by
        rw [← pow_succ]
        congr 1
        omega
      have hle : 2 ^ (8 - k) ≤ 2 ^ 8 := Nat.pow_le_pow_right (by norm_num) (by omega)
      have hsymlt : node * 2 ^ (8 - k) < 2 ^ 32 := by
        calc node * 2 ^ (8 - k) ≤ 512 * 2 ^ 8 := Nat.mul_le_mul hn.le hle
          _ < 2 ^ 32 := by norm_num
      have hmlt : m * 2 ^ (8 - k) < 2 ^ 32 := by
        calc m * 2 ^ (8 - k) ≤ 256 * 2 ^ 8 := Nat.mul_le_mul hm.le hle
          _ < 2 ^ 32 := by norm_num
      have hsym : u32 ((node * 2 ^ (8 - (k + 1))) <<< 1) = node * 2 ^ (8 - k) := by
        rw [Nat.shiftLeft_eq, pow_one, mul_assoc, hpow, u32, Nat.mod_eq_of_lt hsymlt]
      have hmb : u32 ((m * 2 ^ (8 - (k + 1))) <<< 1) = m * 2 ^ (8 - k) := by
        rw [Nat.shiftLeft_eq, pow_one, mul_assoc, hpow, u32, Nat.mod_eq_of_lt hmlt]
      have hindex : (node * 2 ^ (8 - (k + 1))) >>> 8 = node / 2 ^ (k + 1) := by
        rw [Nat.shiftRight_eq_div_pow]
        conv_lhs => rw [show 8 = (k + 1) + (8 - (k + 1)) by omega, pow_add]
        rw [show k + 1 + (8 - (k + 1)) - (k + 1) = 8 - (k + 1) by omega]
        exact Nat.mul_div_mul_right _ _ (by positivity)
      have hbit : ((node * 2 ^ (8 - (k + 1))) >>> 7) &&& 1 = node / 2 ^ k % 2 := by
        rw [Nat.and_one_is_mod, Nat.shiftRight_eq_div_pow,
          show 7 = k + (8 - (k + 1)) by omega, pow_add]
        rw [Nat.mul_div_mul_right _ _ (by positivity)]
      have htop : (node * 2 ^ (8 - k)).testBit 8 = decide (node / 2 ^ k % 2 ≠ 0) := by
        rw [testBit_shifted node (8 - k) (show k + (8 - k) = 8 by omega),
          Nat.testBit_eq_decide_div_mod_eq]
        congr 1
        exact propext ⟨fun h => by omega, fun h => by omega⟩
      have hpos : 0 < node / 2 ^ (k + 1) :=
        Nat.div_pos ((Nat.pow_le_pow_right (by norm_num) hk).trans hge) (by positivity)
      have hlt : node / 2 ^ (k + 1) < 256 :=
        (Nat.div_le_div_left (Nat.pow_le_pow_right (by norm_num) (by omega : 1 ≤ k + 1))
          (by norm_num)).trans_lt (by omega)
      have hplace : (if same = true then 256 else 0) +
          (if same = true then (m.testBit k).toNat * 256 else 0) + node / 2 ^ (k + 1) =
          (if same = true then 256 * (1 + (m.testBit k).toNat) else 0) + node / 2 ^ (k + 1) := by
        cases same with
        | false => simp
        | true =>
            simp only [if_true]
            omega
      have hmlt2 := Bool.toNat_lt (m.testBit k)
      obtain ⟨hin, hname⟩ := hslot ((if same = true then 256 * (1 + (m.testBit k).toNat) else 0) +
        node / 2 ^ (k + 1)) (by omega) (by split <;> omega)
      simp only [litMatchedLoop, matchedTree, hsym, hmb, hindex, hbit, offs_and,
        offs_next same hmlt hsymlt, htop,
        testBit_shifted m (8 - k) (show k + (8 - k) = 8 by omega), hplace]
      refine .bit hin (hname.trans (Nat.add_assoc _ _ _).symm) ?_
      rw [toNat_odd, half_node]
      by_cases hstop : 0x10000 ≤ node * 2 ^ (8 - k)
      · rw [if_pos hstop]
        obtain rfl : k = 0 := by
          by_contra hne
          have h3 : 2 ^ (8 - k) ≤ 2 ^ 7 := Nat.pow_le_pow_right (by norm_num) (by omega)
          have h4 : node * 2 ^ (8 - k) ≤ 511 * 2 ^ 7 := Nat.mul_le_mul (by omega) h3
          omega
        rw [pow_zero, Nat.div_one]
        exact .pure node
      · rw [if_neg hstop]
        exact ih (by omega) _

theorem litEncodeMatched_path
    (hslot : ∀ i, 0 < i → i < 768 → T (slot i) ∧ φ (slot i) = base + i) {sym m : ℕ}
    (h : sym < 256) (hm : m < 256) :
    Path T φ (matchedTree base m 8 1 true) (litEncodeMatched slot sym m) (256 + sym) := by
  have hor : ∀ s < 256, s ||| 0x100 = 256 + s := by decide +kernel
  have hroot : (256 + sym) / 2 ^ 8 = 1 := by
    norm_num
    omega
  have hpath := litMatchedLoop_path hslot (Nat.le_add_right 256 sym)
    (show 256 + sym < 512 by omega) hm 8 le_rfl true
  rw [hroot, Nat.sub_self, pow_zero, mul_one, mul_one] at hpath
  rw [litEncodeMatched, hor sym h]
  exact hpath

theorem mirrorNode_eq {j r : ℕ} (h : r < 2 ^ j) : mirrorNode (2 ^ j + r) = 2 ^ j + mirror j r := by
  have hpos : 0 < 2 ^ j := by positivity
  have hlog : Nat.log2 (2 ^ j + r) = j :=
    (Nat.log2_eq_iff (by omega)).mpr ⟨by omega, by rw [pow_succ]; omega⟩
  rw [mirrorNode, if_neg (by omega), hlog, Nat.add_sub_cancel_left]

/-- From the lowest bit up, with `j` bits coded and `n` to go. -/
theorem reverseLoop_path {N : ℕ}
    (hslot : ∀ m, 0 < m → m < 2 ^ N → T (slot m) ∧ φ (slot m) = base + mirrorNode m)
    {n : ℕ} (j r sym : ℕ) (hN : j + n = N) (hr : r < 2 ^ j) :
    Path T φ (revBits base n (2 ^ j) (mirror j r)) (reverseLoop slot n (2 ^ j + r) sym)
      (mirror j r + sym % 2 ^ n * 2 ^ j) := by
  induction n generalizing j r sym with
  | zero =>
      rw [pow_zero, Nat.mod_one, zero_mul, Nat.add_zero]
      exact .pure _
  | succ n ih =>
      have hpow : 2 ^ (j + 1) = 2 * 2 ^ j := by ring
      have hlt : 2 ^ j + r < 2 ^ N := by
        have : 2 ^ (j + 1) ≤ 2 ^ N := Nat.pow_le_pow_right (by norm_num) (by omega)
        omega
      have hpos : 0 < 2 ^ j := by positivity
      have hnext : 2 * r + sym % 2 < 2 ^ (j + 1) := by omega
      have hmirror : mirror (j + 1) (2 * r + sym % 2) = mirror j r + sym % 2 * 2 ^ j := by
        rw [mirror, show (2 * r + sym % 2) % 2 = sym % 2 by omega,
          show (2 * r + sym % 2) / 2 = r by omega, add_comm]
      have hrest : mirror j r + sym % 2 ^ (n + 1) * 2 ^ j =
          mirror (j + 1) (2 * r + sym % 2) + sym / 2 % 2 ^ n * 2 ^ (j + 1) := by
        rw [hmirror, pow_succ' 2 n, Nat.mod_mul, hpow]
        ring
      have h := ih (j + 1) (2 * r + sym % 2) (sym / 2) (by omega) hnext
      rw [← hrest, hmirror, hpow, show 2 * 2 ^ j + (2 * r + sym % 2) = 2 * (2 ^ j + r) + sym % 2 by
        ring] at h
      obtain ⟨hin, hname⟩ := hslot (2 ^ j + r) (by omega) hlt
      rw [reverseLoop_cons]
      refine .bit hin (hname.trans (by rw [mirrorNode_eq hr])) ?_
      rw [toNat_odd]
      exact h

/-- All the bits of a tree that is coded from its lowest bit up. -/
theorem reverseLoop_whole {n : ℕ}
    (hslot : ∀ m, 0 < m → m < 2 ^ n → T (slot m) ∧ φ (slot m) = base + mirrorNode m) (sym : ℕ) :
    Path T φ (revBits base n 1 0) (reverseLoop slot n 1 sym) (sym % 2 ^ n) := by
  have h := reverseLoop_path hslot 0 0 sym (Nat.zero_add n) Nat.one_pos
  simpa only [pow_zero, mirror, Nat.zero_add, Nat.add_zero, mul_one] using h

/-- `m` direct bits before the four that end the loop. -/
theorem directLoop_path {m fuel y d : ℕ} (hm : 0 < m) (h28 : m ≤ 28) (hfuel : m ≤ fuel)
    (hy : y % 16 = 15) : Path T φ (directProg m d)
      (directLoop fuel (y % 2 ^ (m + 4) * 2 ^ (28 - m))) (d * 2 ^ m + y / 16 % 2 ^ m) := by
  induction m generalizing fuel d with
  | zero => omega
  | succ m ih =>
      obtain ⟨fuel, rfl⟩ : ∃ k, fuel = k + 1 := ⟨fuel - 1, by omega⟩
      have hnext : wrappingAdd32 (y % 2 ^ (m + 1 + 4) * 2 ^ (28 - (m + 1)))
          (y % 2 ^ (m + 1 + 4) * 2 ^ (28 - (m + 1))) = y % 2 ^ (m + 4) * 2 ^ (28 - m) := by
        have hpow : 2 ^ (28 - m) = 2 * 2 ^ (28 - (m + 1)) := by
          rw [← pow_succ']
          congr 1
          omega
        have hword : (2 : ℕ) ^ 32 = 2 ^ (m + 4) * 2 ^ (28 - m) := by
          rw [← pow_add]
          congr 1
          omega
        have hmod : y % 2 ^ (m + 1 + 4) % 2 ^ (m + 4) = y % 2 ^ (m + 4) :=
          Nat.mod_mod_of_dvd _ (pow_dvd_pow 2 (by omega))
        have hdouble : y % 2 ^ (m + 1 + 4) * 2 ^ (28 - (m + 1)) +
            y % 2 ^ (m + 1 + 4) * 2 ^ (28 - (m + 1)) = y % 2 ^ (m + 1 + 4) * 2 ^ (28 - m) := by
          rw [hpow]
          ring
        unfold wrappingAdd32
        rw [hdouble, hword, Nat.mul_mod_mul_right, hmod]
      have hsplit : y / 16 / 2 ^ m = y / 2 ^ (m + 4) := by
        rw [Nat.div_div_eq_div_mul, show 16 * 2 ^ m = 2 ^ (m + 4) by ring]
      have hbit : (y % 2 ^ (m + 1 + 4) * 2 ^ (28 - (m + 1))) >>> 31 = y / 2 ^ (m + 4) % 2 := by
        rw [Nat.shiftRight_eq_div_pow, show (2 : ℕ) ^ 31 = 2 ^ (m + 4) * 2 ^ (28 - (m + 1)) by
          rw [← pow_add]
          congr 1
          omega, Nat.mul_div_mul_right _ _ (by positivity), show m + 1 + 4 = m + 4 + 1 by omega,
          Nat.mod_pow_succ, Nat.add_mul_div_left _ _ (by positivity),
          Nat.div_eq_of_lt (Nat.mod_lt _ (by positivity)), Nat.zero_add]
      have hvalue : d * 2 ^ (m + 1) + y / 16 % 2 ^ (m + 1) =
          (2 * d + y / 2 ^ (m + 4) % 2) * 2 ^ m + y / 16 % 2 ^ m := by
        rw [Nat.mod_pow_succ, hsplit]
        ring
      have hsixteen : y % 2 ^ (m + 4) % 16 = 15 := by
        rw [← hy]
        exact Nat.mod_mod_of_dvd _ ⟨2 ^ m, by ring⟩
      rw [directLoop, directProg, hvalue]
      simp only [hnext, hbit]
      refine .direct ?_
      rw [toNat_odd]
      by_cases hm0 : m = 0
      · subst hm0
        have hstop : y % 2 ^ (0 + 4) * 2 ^ (28 - 0) = 0xF0000000 := by
          rw [show y % 2 ^ (0 + 4) = 15 from hy]
          norm_num
        rw [if_pos hstop, pow_zero, Nat.mod_one, mul_one, Nat.add_zero]
        exact .pure _
      · have hgo : y % 2 ^ (m + 4) * 2 ^ (28 - m) ≠ 0xF0000000 := by
          intro heq
          have hend : (0xF0000000 : ℕ) = 15 * 2 ^ m * 2 ^ (28 - m) := by
            rw [mul_assoc, ← pow_add, show m + (28 - m) = 28 by omega]
            norm_num
          rw [hend] at heq
          have hval := Nat.eq_of_mul_eq_mul_right (by positivity) heq
          obtain ⟨k, rfl⟩ : ∃ k, m = k + 1 := ⟨m - 1, by omega⟩
          generalize y % 2 ^ (k + 1 + 4) = z at hsixteen hval
          rw [pow_succ] at hval
          omega
        rw [if_neg hgo]
        exact ih (by omega) (by omega) (by omega)

end

end LzmaTurbo.Enc
