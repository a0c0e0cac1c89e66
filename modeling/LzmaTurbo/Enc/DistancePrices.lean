import LzmaTurbo.Enc.PosSlots
import LzmaTurbo.Enc.PriceLaws

/-!
# The price tables of the distances

Each fill is a loop whose invariant says which entries are right already. A pair
of entries shares the price of the bits above it, so one turn of a loop makes
two entries right.
-/
namespace LzmaTurbo.Enc
open Machine Lzma
open ExactCoder (Op)

/-- The probability of a slot. -/
def DistModel.prob (model : DistModel) : DistSlot → ℕ
  | .posSlot lps i => cell (cell model.posSlotEncoder lps) i
  | .pos i => cell model.posEncoders i
  | .align i => cell model.posAlignEncoder i

section
variable {σ : Type} {pp : ProbPrices} {model : σ → ℕ}

/-- The last bit is the one that tells the two entries of a turn apart. -/
theorem reverse_leaf {slot : ℕ → σ} {num sym i b : ℕ} (h : sym % 2 ^ num = i % 2 ^ num)
    (hb : sym / 2 ^ num % 2 = b) : bitsPrice pp model (reverseLoop slot (num + 1) 1 sym) =
      bitsPrice pp model (reverseLoop slot num 1 i) +
        price pp (model (slot (nodeAfter num 1 i))) b := by
  obtain ⟨h1, h2⟩ : reverseLoop slot num 1 sym = reverseLoop slot num 1 i ∧
      nodeAfter num 1 sym = nodeAfter num 1 i := reverseLoop_mod h
  rw [reverseLoop_succ, bitsPrice_append, h1, h2, hb]
  have hlast : bitsPrice pp model [.bit (slot (nodeAfter num 1 i)) (decide (b ≠ 0))] =
      price pp (model (slot (nodeAfter num 1 i))) b := by
    rw [bitsPrice_cons, opPrice, toNat_bit (hb ▸ Nat.mod_lt _ (by norm_num))]
    rfl
  rw [hlast]

end

section
variable {pp : ProbPrices} {model : DistModel}

/-- What the entry of a low part is to be. -/
def alignSum (pp : ProbPrices) (model : DistModel) (low : ℕ) : ℕ :=
  bitsPrice pp model.prob (reverseLoop .align 4 1 low)

theorem fillAlign_turn {i : ℕ} (hi : i < 8) (prices : Vector ℕ kAlignTableSize)
    (h : ∀ a < 16, a % 8 < i → cell prices a = alignSum pp model a) :
    ∃ prices', alignTurn pp model.posAlignEncoder i prices = .ok prices' ∧
      ∀ a < 16, a % 8 < i + 1 → cell prices' a = alignSum pp model a := by
  have hsize : kAlignTableSize = 16 := by decide
  have hnode := nodeAfter_lt 3 1 i
  have hdown : downPrice pp model.posAlignEncoder 0 3 1 i 0 =
      .ok (nodeAfter 3 1 i, 0 + bitsPrice pp model.prob (reverseLoop .align 3 1 i)) :=
    downPrice_eq (fun i => by rw [Nat.zero_add]; rfl) (by rw [hsize]; norm_num)
  have hleaf : ∀ a b, a % 8 = i → a / 8 % 2 = b → alignSum pp model a =
      bitsPrice pp model.prob (reverseLoop .align 3 1 i) +
        price pp (cell model.posAlignEncoder (nodeAfter 3 1 i)) b := fun a b ha hb =>
    reverse_leaf (show a % 2 ^ 3 = i % 2 ^ 3 by omega) hb
  refine ⟨_, by
    rw [alignTurn, hdown, ok_bind]
    dsimp only
    rw [read_cell _ (by omega), ok_bind, write_ok _ (by omega), ok_bind, write_ok _ (by omega)],
    fun a ha hlt => ?_⟩
  rw [cell_set _ (by omega), cell_set _ (by omega)]
  by_cases h8 : i + 8 = a
  · rw [if_pos h8, hleaf a 1 (by omega) (by omega), price1_eq, Nat.zero_add]
  · rw [if_neg h8]
    by_cases h0 : i = a
    · rw [if_pos h0, hleaf a 0 (by omega) (by omega), price0_eq, Nat.zero_add]
    · rw [if_neg h0]
      exact h a ha (by omega)

theorem fillAlignPrices_spec (p : DistPrices) (model : DistModel) (pp : ProbPrices) :
    ∃ align, p.fillAlignPrices model pp = .ok { p with alignPrices := align } ∧
      ∀ a < 16, cell align a = alignSum pp model a := by
  obtain ⟨align, h1, h2⟩ := forRange_inv
    (P := fun i prices => ∀ a < 16, a % 8 < i → cell prices a = alignSum pp model a)
    (i := 0) (n := 8) (s := p.alignPrices) (fun a _ h => by omega)
    (fun i prices _ hi h => fillAlign_turn (by omega) prices h)
  refine ⟨align, ?_, fun a ha => h2 a ha (by omega)⟩
  have hhalf : kAlignTableSize / 2 = 8 := by decide
  unfold DistPrices.fillAlignPrices
  rw [hhalf, h1, ok_bind]

/-! ## Slots -/

/-- What the entry of a slot is to be: its six bits, and the direct ones that follow. -/
def slotSum (pp : ProbPrices) (prob : ℕ → ℕ) (slot : ℕ) : ℕ :=
  upSum pp prob 6 (64 + slot) + if 14 ≤ slot then (slot / 2 - 5) * 16 else 0

variable {probs : Vector ℕ (1 <<< kNumPosSlotBits)}

theorem fillSlot_turn {j : ℕ} (hj : j < 32) (prices : Vector ℕ kDistTableSizeMax)
    (h : ∀ s < 2 * j, cell prices s = upSum pp (cell probs) 6 (64 + s)) :
    ∃ prices', slotTurn pp probs j prices = .ok prices' ∧
      ∀ s < 2 * (j + 1), cell prices' s = upSum pp (cell probs) 6 (64 + s) := by
  have hsize : 1 <<< kNumPosSlotBits = 64 := by decide
  have hhalf : 1 <<< (kNumPosSlotBits - 1) = 32 := by decide
  have hmax : kDistTableSizeMax = 64 := by decide
  refine ⟨_, by
    simp only [slotTurn, hhalf]
    rw [upPrice_eq (by omega), ok_bind, read_cell _ (by omega), ok_bind, write_ok _ (by omega),
      ok_bind, write_ok _ (by omega)], fun s hs => ?_⟩
  have hpair : ∀ b < 2, upSum pp (cell probs) 6 (64 + (j * 2 + b)) =
      0 + upSum pp (cell probs) 5 (j + 32) + price pp (cell probs (j + 32)) b := by
    intro b hb
    rw [upSum, show (64 + (j * 2 + b)) / 2 = j + 32 by omega,
      show (64 + (j * 2 + b)) % 2 = b by omega, Nat.zero_add, add_comm]
  rw [cell_set _ (by omega), cell_set _ (by omega)]
  by_cases hodd : j * 2 + 1 = s
  · rw [if_pos hodd, ← hodd, hpair 1 (by norm_num), price1_eq]
  · rw [if_neg hodd]
    by_cases heven : j * 2 = s
    · have hzero := hpair 0 (by norm_num)
      rw [Nat.add_zero] at hzero
      rw [if_pos heven, ← heven, hzero, price0_eq]
    · rw [if_neg heven]
      exact h s (by omega)

theorem addDirect_turn {k n : ℕ} (hk : 7 ≤ k) (hn : n ≤ 32) (hkn : k < n)
    (prices : Vector ℕ kDistTableSizeMax)
    (h : ∀ s < 2 * n, cell prices s =
      upSum pp (cell probs) 6 (64 + s) + if 14 ≤ s ∧ s < 2 * k then (s / 2 - 5) * 16 else 0) :
    ∃ prices', directTurn k prices = .ok prices' ∧
      ∀ s < 2 * n, cell prices' s = upSum pp (cell probs) 6 (64 + s) +
        if 14 ≤ s ∧ s < 2 * (k + 1) then (s / 2 - 5) * 16 else 0 := by
  have hmax : kDistTableSizeMax = 64 := by decide
  have hdelta : ((kEndPosModelIndex / 2 - 1) - kNumAlignBits + (k - kEndPosModelIndex / 2)) <<<
      kNumBitPriceShiftBits = (k - 5) * 16 := by
    rw [Nat.shiftLeft_eq]
    change (7 - 1 - 4 + (k - 7)) * 2 ^ 4 = (k - 5) * 16
    omega
  refine ⟨_, by
    simp only [directTurn, hdelta]
    rw [read_cell _ (by omega), ok_bind, write_ok _ (by omega), ok_bind, read_cell _ (by omega),
      ok_bind, write_ok _ (by omega)], fun s hs => ?_⟩
  rw [cell_set _ (by omega), cell_set _ (by omega), cell_set _ (by omega),
    if_neg (show ¬ k * 2 = k * 2 + 1 by omega)]
  have hsum := h s hs
  by_cases hodd : k * 2 + 1 = s
  · rw [if_neg (by omega)] at hsum
    rw [if_pos hodd, hodd, hsum, if_pos (by omega), show s / 2 = k by omega, Nat.add_zero]
  · rw [if_neg hodd]
    by_cases heven : k * 2 = s
    · rw [if_neg (by omega)] at hsum
      rw [if_pos heven, heven, hsum, if_pos (by omega), show s / 2 = k by omega, Nat.add_zero]
    · rw [if_neg heven, hsum]
      by_cases hin : 14 ≤ s ∧ s < 2 * k
      · rw [if_pos hin, if_pos (by omega)]
      · rw [if_neg hin, if_neg (by omega)]

theorem fillSlotPrices_spec {size : ℕ} (h1 : 14 ≤ size) (h2 : size ≤ 64)
    (probs : Vector ℕ (1 <<< kNumPosSlotBits)) (pp : ProbPrices)
    (prices : Vector ℕ kDistTableSizeMax) :
    ∃ prices', fillSlotPrices size probs pp prices = .ok prices' ∧
      ∀ s < size, cell prices' s = slotSum pp (cell probs) s := by
  have hn : (size + 1) >>> 1 = (size + 1) / 2 := by rw [Nat.shiftRight_eq_div_pow, pow_one]
  obtain ⟨v, hv, hfirst⟩ := forRange_inv
    (P := fun j prices => ∀ s < 2 * j, cell prices s = upSum pp (cell probs) 6 (64 + s))
    (i := 0) (n := (size + 1) / 2) (s := prices) (fun s hs => by omega)
    (fun j prices _ hj h => fillSlot_turn (by omega) prices h)
  obtain ⟨v', hv', hsecond⟩ := forRange_inv
    (P := fun k prices => ∀ s < 2 * ((size + 1) / 2), cell prices s =
      upSum pp (cell probs) 6 (64 + s) + if 14 ≤ s ∧ s < 2 * k then (s / 2 - 5) * 16 else 0)
    (i := 7) (n := (size + 1) / 2 - 7) (s := v)
    (fun s hs => by rw [if_neg (by omega)]; exact hfirst s (by omega))
    (fun k prices hk hlt h => addDirect_turn hk (by omega) (by omega) prices h)
  refine ⟨v', ?_, fun s hs => ?_⟩
  · unfold fillSlotPrices
    simp only [hn]
    rw [hv, ok_bind]
    exact hv'
  · rw [hsecond s (by omega), slotSum]
    congr 1
    by_cases h14 : 14 ≤ s
    · rw [if_pos h14, if_pos (by omega)]
    · rw [if_neg h14, if_neg (by omega)]

end

/-! ## Footers -/

/-- The bits after the slot's, and where their models begin. -/
def footerBitsOf (dist : ℕ) : ℕ := (posSlotClz dist >>> 1) - 1

def footerBaseOf (dist : ℕ) : ℕ := (2 ||| (posSlotClz dist &&& 1)) <<< footerBitsOf dist

/-- The turn of the loop that fills the entry of a distance. -/
def turnOf (dist : ℕ) : ℕ := footerBaseOf dist / 2 + dist % 2 ^ (footerBitsOf dist - 1)

theorem turn_fills : ∀ i < 64, 2 ≤ i →
    footerBaseOf i * 2 + (1 + 1) * 2 ^ footerBitsOf i ≤ 128 ∧
    ∀ b < 2, footerBaseOf i + i + b * 2 ^ footerBitsOf i < 128 ∧
      footerBitsOf (footerBaseOf i + i + b * 2 ^ footerBitsOf i) = footerBitsOf i + 1 ∧
      footerBaseOf (footerBaseOf i + i + b * 2 ^ footerBitsOf i) = footerBaseOf i * 2 ∧
      (footerBaseOf i + i + b * 2 ^ footerBitsOf i) % 2 ^ footerBitsOf i = i % 2 ^ footerBitsOf i ∧
      (footerBaseOf i + i + b * 2 ^ footerBitsOf i) / 2 ^ footerBitsOf i % 2 = b := by
  decide +kernel

theorem turn_of_dist : ∀ d < 128, 4 ≤ d → 2 ≤ turnOf d ∧ turnOf d < 64 ∧
    (d = footerBaseOf (turnOf d) + turnOf d + 0 * 2 ^ footerBitsOf (turnOf d) ∨
      d = footerBaseOf (turnOf d) + turnOf d + 1 * 2 ^ footerBitsOf (turnOf d)) := by
  decide +kernel

section
variable {pp : ProbPrices} {model : DistModel}

def footerSum (pp : ProbPrices) (model : DistModel) (dist : ℕ) : ℕ :=
  bitsPrice pp model.prob
    (rcTreeReverseEncode (fun m => .pos (footerBaseOf dist + m)) (footerBitsOf dist) dist)

theorem fillTemp_turn (build : SlotBuild) {i : ℕ} (h2 : 2 ≤ i) (hi : i < 64)
    (temp : Vector ℕ kNumFullDistances)
    (h : ∀ d < 128, 4 ≤ d → turnOf d < i → cell temp d = footerSum pp model d) :
    ∃ temp', tempTurn build pp model.posEncoders i temp = .ok temp' ∧
      ∀ d < 128, 4 ≤ d → turnOf d < i + 1 → cell temp' d = footerSum pp model d := by
  have hsize : kNumFullDistances = 128 := by decide
  obtain ⟨hroom, hpair⟩ := turn_fills i hi h2
  obtain ⟨hlt0, -⟩ := hpair 0 (by norm_num)
  obtain ⟨hlt1, -⟩ := hpair 1 (by norm_num)
  rw [zero_mul, Nat.add_zero] at hlt0
  rw [one_mul] at hlt1
  have hnode := nodeAfter_lt (footerBitsOf i) 1 i
  have hdown : downPrice pp model.posEncoders (footerBaseOf i * 2) (footerBitsOf i) 1 i 0 =
      .ok (nodeAfter (footerBitsOf i) 1 i, 0 + bitsPrice pp model.prob
        (reverseLoop (fun m => .pos (footerBaseOf i * 2 + m)) (footerBitsOf i) 1 i)) :=
    downPrice_eq (fun i => rfl) (by rw [hsize]; exact hroom)
  have hleaf : ∀ b < 2, footerSum pp model (footerBaseOf i + i + b * 2 ^ footerBitsOf i) =
      bitsPrice pp model.prob
        (reverseLoop (fun m => .pos (footerBaseOf i * 2 + m)) (footerBitsOf i) 1 i) +
      price pp (cell model.posEncoders (footerBaseOf i * 2 + nodeAfter (footerBitsOf i) 1 i)) b := by
    intro b hb
    obtain ⟨-, hbits, hbase, hmod, hdiv⟩ := hpair b hb
    rw [footerSum, rcTreeReverseEncode, hbits, hbase, reverse_leaf hmod hdiv]
    rfl
  refine ⟨_, by
    rw [tempTurn, getPosSlot1_eq build (by omega), ok_bind]
    simp only [← footerBitsOf.eq_def, ← footerBaseOf.eq_def, Nat.shiftLeft_eq 1, one_mul]
    rw [hdown, ok_bind]
    dsimp only
    rw [read_cell _ (by omega), ok_bind, write_ok _ (by omega), ok_bind, write_ok _ (by omega)],
    fun d hd h4 hturn => ?_⟩
  have hzero := hleaf 0 (by norm_num)
  have hone := hleaf 1 (by norm_num)
  rw [zero_mul, Nat.add_zero] at hzero
  rw [one_mul] at hone
  rw [cell_set _ (by omega), cell_set _ (by omega)]
  by_cases h1 : footerBaseOf i + i + 2 ^ footerBitsOf i = d
  · rw [if_pos h1, ← h1, hone, price1_eq, Nat.zero_add]
  · rw [if_neg h1]
    by_cases h0 : footerBaseOf i + i = d
    · rw [if_pos h0, ← h0, hzero, price0_eq, Nat.zero_add]
    · rw [if_neg h0]
      apply h d hd h4
      obtain ⟨-, -, hd0 | hd1⟩ := turn_of_dist d hd h4
      · by_contra hge
        rw [show turnOf d = i by omega, zero_mul, Nat.add_zero] at hd0
        exact h0 hd0.symm
      · by_contra hge
        rw [show turnOf d = i by omega, one_mul] at hd1
        exact h1 hd1.symm

theorem fillTempPrices_spec (build : SlotBuild) (model : DistModel) (pp : ProbPrices) :
    ∃ temp, forRange (tempTurn build pp model.posEncoders) 2 62
        (Vector.replicate kNumFullDistances 0) = .ok temp ∧
      ∀ d < 128, 4 ≤ d → cell temp d = footerSum pp model d := by
  obtain ⟨temp, h1, h2⟩ := forRange_inv
    (P := fun i temp => ∀ d < 128, 4 ≤ d → turnOf d < i → cell temp d = footerSum pp model d)
    (i := 2) (n := 62) (s := Vector.replicate kNumFullDistances 0)
    (fun d hd h4 hlt => by
      obtain ⟨hge, -⟩ := turn_of_dist d hd h4
      omega)
    (fun i temp h2 hi h => fillTemp_turn build h2 (by omega) temp h)
  exact ⟨temp, h1, fun d hd h4 => h2 d hd h4 (turn_of_dist d hd h4).2.1⟩

end

/-! ## Rows -/

theorem near_slots : ∀ d < 128, posSlotClz d < 14 ∧ (d < 4 → posSlotClz d = d) := by
  decide +kernel

theorem pair_slots : ∀ half < 64, 2 ≤ half → posSlotClz (half * 2 + 1) = posSlotClz (half * 2) := by
  decide +kernel

section
variable (slotPrices : Vector ℕ kDistTableSizeMax) (temp : Vector ℕ kNumFullDistances)

theorem nearTurns (prices : Vector ℕ kNumFullDistances) :
    ∃ prices', forRange (nearTurn slotPrices) 0 4 prices = .ok prices' ∧
      ∀ d < 4, cell prices' d = cell slotPrices d := by
  have hsize : kNumFullDistances = 128 := by decide
  have hmax : kDistTableSizeMax = 64 := by decide
  refine forRange_inv (P := fun i prices => ∀ d < i, cell prices d = cell slotPrices d)
    (fun d hd => by omega) fun i prices _ hi h => ?_
  refine ⟨_, by rw [nearTurn, read_cell _ (by omega), ok_bind, write_ok _ (by omega)],
    fun d hd => ?_⟩
  rw [cell_set _ (by omega)]
  by_cases hid : i = d
  · rw [if_pos hid, hid]
  · rw [if_neg hid]
    exact h d (by omega)

theorem pairTurn_ok (build : SlotBuild) {half : ℕ} (h2 : 2 ≤ half) (hlt : half < 64)
    (prices : Vector ℕ kNumFullDistances) :
    pairTurn build slotPrices temp half prices = .ok
      ((prices.setIfInBounds (half * 2)
        (cell slotPrices (posSlotClz (half * 2)) + cell temp (half * 2))).setIfInBounds
          (half * 2 + 1)
          (cell slotPrices (posSlotClz (half * 2 + 1)) + cell temp (half * 2 + 1))) := by
  have hsize : kNumFullDistances = 128 := by decide
  have hmax : kDistTableSizeMax = 64 := by decide
  obtain ⟨hslot, -⟩ := near_slots (half * 2) (by omega)
  rw [pair_slots half hlt h2]
  simp only [pairTurn]
  rw [getPosSlot1_eq build (by omega), ok_bind, read_cell _ (by omega), ok_bind,
    read_cell _ (by omega), ok_bind, write_ok _ (by omega), ok_bind, read_cell _ (by omega), ok_bind,
    write_ok _ (by omega)]

theorem pairTurns (build : SlotBuild) {prices : Vector ℕ kNumFullDistances}
    (h : ∀ d < 4, cell prices d = cell slotPrices d) :
    ∃ prices', forRange (pairTurn build slotPrices temp) 2 62 prices = .ok prices' ∧
      ∀ d < 128, cell prices' d =
        cell slotPrices (posSlotClz d) + if d < 4 then 0 else cell temp d := by
  have hsize : kNumFullDistances = 128 := by decide
  refine forRange_inv (P := fun half prices => ∀ d < 2 * half, cell prices d =
    cell slotPrices (posSlotClz d) + if d < 4 then 0 else cell temp d)
    (fun d hd => ?_) fun half prices h2 hlt h => ?_
  · rw [if_pos (by omega), (near_slots d (by omega)).2 (by omega), Nat.add_zero]
    exact h d (by omega)
  · refine ⟨_, pairTurn_ok slotPrices temp build h2 (by omega) prices, fun d hd => ?_⟩
    rw [cell_set _ (by omega), cell_set _ (by omega)]
    by_cases hodd : half * 2 + 1 = d
    · rw [if_pos hodd, if_neg (show ¬ d < 4 by omega), hodd]
    · rw [if_neg hodd]
      by_cases heven : half * 2 = d
      · rw [if_pos heven, if_neg (show ¬ d < 4 by omega), heven]
      · rw [if_neg heven]
        exact h d (by omega)

end

section
variable {pp : ProbPrices} {model : DistModel}

/-- The entries of a length state are what the bits cost. -/
structure LpsRight (pp : ProbPrices) (model : DistModel) (size : ℕ) (p : DistPrices) (lps : ℕ) :
    Prop where
  slots : ∀ s < size, cell (cell p.posSlotPrices lps) s =
    slotSum pp (cell (cell model.posSlotEncoder lps)) s
  dists : ∀ d < 128, cell (cell p.distancesPrices lps) d =
    slotSum pp (cell (cell model.posSlotEncoder lps)) (posSlotClz d) +
      if d < 4 then 0 else footerSum pp model d

theorem lpsTurn_spec (build : SlotBuild) {size lps : ℕ} (h1 : 14 ≤ size) (h2 : size ≤ 64)
    (hl : lps < 4) {temp : Vector ℕ kNumFullDistances}
    (ht : ∀ d < 128, 4 ≤ d → cell temp d = footerSum pp model d) (p : DistPrices) :
    ∃ p', lpsTurn build size model pp temp lps p = .ok p' ∧ p'.alignPrices = p.alignPrices ∧
      LpsRight pp model size p' lps ∧
      ∀ i, i ≠ lps → LpsRight pp model size p i → LpsRight pp model size p' i := by
  have hlps : kNumLenToPosStates = 4 := by decide
  have hpair : (kNumFullDistances - 4) / 2 = 62 := by decide
  obtain ⟨slots, hs, hslots⟩ := fillSlotPrices_spec h1 h2 (cell model.posSlotEncoder lps) pp
    (cell p.posSlotPrices lps)
  obtain ⟨near, hn, hnear⟩ := nearTurns slots (cell p.distancesPrices lps)
  obtain ⟨row, hr, hrow⟩ := pairTurns slots temp build hnear
  refine ⟨{ p with
    posSlotPrices := p.posSlotPrices.setIfInBounds lps slots
    distancesPrices := p.distancesPrices.setIfInBounds lps row }, ?_, rfl, ⟨?_, ?_⟩,
    fun i hi h => ⟨?_, ?_⟩⟩
  · rw [lpsTurn, read_cell _ (by omega), ok_bind, read_cell _ (by omega), ok_bind, hs, ok_bind,
      write_ok _ (by omega), ok_bind, read_cell _ (by omega), ok_bind, hn, ok_bind, hpair]
    rw [show 4 / 2 = 2 from rfl, hr, ok_bind, write_ok _ (by omega), ok_bind]
  · intro s hlt
    rw [cell_set _ (by omega), if_pos rfl]
    exact hslots s hlt
  · intro d hd
    have hslot := (near_slots d hd).1
    rw [cell_set _ (by omega), if_pos rfl, hrow d hd, hslots _ (by omega)]
    congr 1
    by_cases h4 : d < 4
    · rw [if_pos h4, if_pos h4]
    · rw [if_neg h4, if_neg h4]
      exact ht d hd (by omega)
  · rw [cell_set _ (by omega), if_neg (Ne.symm hi)]
    exact h.slots
  · rw [cell_set _ (by omega), if_neg (Ne.symm hi)]
    exact h.dists

theorem fillDistancesPrices_spec (build : SlotBuild) {size : ℕ} (h1 : 14 ≤ size) (h2 : size ≤ 64)
    (model : DistModel) (pp : ProbPrices) (p : DistPrices) :
    ∃ p', p.fillDistancesPrices build size model pp = .ok p' ∧
      ∀ lps < 4, LpsRight pp model size p' lps := by
  have hlps : kNumLenToPosStates = 4 := by decide
  have hfirst : kStartPosModelIndex / 2 = 2 := by decide
  have hcount : kNumFullDistances / 2 - 2 = 62 := by decide
  obtain ⟨temp, htemp, ht⟩ := fillTempPrices_spec build model pp
  simp only [DistPrices.fillDistancesPrices, hfirst, hcount]
  rw [htemp, ok_bind, hlps]
  refine forRange_inv (P := fun j p => ∀ lps < j, LpsRight pp model size p lps)
    (fun lps h => by omega) fun lps p _ hl h => ?_
  obtain ⟨p', hp', -, hright, hkeep⟩ := lpsTurn_spec build h1 h2 (by omega) ht p
  refine ⟨p', hp', fun i hi => ?_⟩
  by_cases hil : i = lps
  · subst hil
    exact hright
  · exact hkeep i hil (h i (by omega))

end
/-! ## The bits of a distance -/

theorem slotBits_price (pp : ProbPrices) (model : DistModel) (lps : ℕ) {slot : ℕ} (h : slot < 64) :
    bitsPrice pp model.prob (treeLoop (.posSlot lps) kNumPosSlotBits kNumPosSlotBits
      (slot + (1 <<< kNumPosSlotBits))) =
      upSum pp (cell (cell model.posSlotEncoder lps)) 6 (64 + slot) := by
  have hnode : slot + (1 <<< kNumPosSlotBits) = (64 + slot) * 2 ^ (kNumPosSlotBits - 6) := by
    change slot + 64 = (64 + slot) * 1
    omega
  rw [hnode]
  exact treeLoop_price (by decide) (by decide) (by show 64 + slot < 2 ^ 7; omega) 6 le_rfl

/-- `m` direct bits before the four that end the loop. -/
theorem directLoop_price {σ : Type} (pp : ProbPrices) (prob : σ → ℕ) {m fuel y : ℕ} (hm : 0 < m)
    (h28 : m ≤ 28) (hfuel : m ≤ fuel) (hy : y % 16 = 15) :
    bitsPrice pp prob (directLoop fuel (y % 2 ^ (m + 4) * 2 ^ (28 - m))) = m * 16 := by
  induction m generalizing fuel with
  | zero => omega
  | succ m ih =>
      obtain ⟨fuel, rfl⟩ : ∃ k, fuel = k + 1 := ⟨fuel - 1, by omega⟩
      have hnext : wrappingAdd32 (y % 2 ^ (m + 1 + 4) * 2 ^ (28 - (m + 1)))
          (y % 2 ^ (m + 1 + 4) * 2 ^ (28 - (m + 1))) = y % 2 ^ (m + 4) * 2 ^ (28 - m) := by
        have hpow : 2 ^ (28 - m) = 2 * 2 ^ (28 - (m + 1)) := by
          rw [← pow_succ']
          congr 1
          omega
        have hword : (2 : ℕ) ^ 32 = 2 ^ (m + 4) * 2 ^ (28 - m) := by
          rw [← pow_add]
          congr 1
          omega
        have hmod : y % 2 ^ (m + 1 + 4) % 2 ^ (m + 4) = y % 2 ^ (m + 4) :=
          Nat.mod_mod_of_dvd _ (pow_dvd_pow 2 (by omega))
        have hdouble : y % 2 ^ (m + 1 + 4) * 2 ^ (28 - (m + 1)) +
            y % 2 ^ (m + 1 + 4) * 2 ^ (28 - (m + 1)) = y % 2 ^ (m + 1 + 4) * 2 ^ (28 - m) := by
          rw [hpow]
          ring
        unfold wrappingAdd32
        rw [hdouble, hword, Nat.mul_mod_mul_right, hmod]
      rw [directLoop, bitsPrice_cons]
      simp only [hnext]
      have hsixteen : y % 2 ^ (m + 4) % 16 = 15 := by
        rw [← hy]
        exact Nat.mod_mod_of_dvd _ ⟨2 ^ m, by ring⟩
      by_cases hm0 : m = 0
      · subst hm0
        have hstop : y % 2 ^ (0 + 4) * 2 ^ (28 - 0) = 0xF0000000 := by
          rw [show y % 2 ^ (0 + 4) = 15 from hy]
          norm_num
        rw [if_pos hstop]
        rfl
      · have hgo : y % 2 ^ (m + 4) * 2 ^ (28 - m) ≠ 0xF0000000 := by
          intro heq
          have hend : (0xF0000000 : ℕ) = 15 * 2 ^ m * 2 ^ (28 - m) := by
            rw [mul_assoc, ← pow_add, show m + (28 - m) = 28 by omega]
            norm_num
          rw [hend] at heq
          have hval := Nat.eq_of_mul_eq_mul_right (by positivity) heq
          obtain ⟨k, rfl⟩ : ∃ k, m = k + 1 := ⟨m - 1, by omega⟩
          generalize y % 2 ^ (k + 1 + 4) = z at hsixteen hval
          rw [pow_succ] at hval
          omega
        rw [if_neg hgo, ih (by omega) (by omega) (by omega)]
        change 16 + m * 16 = (m + 1) * 16
        omega

/-- What the bits of a near distance cost. -/
theorem distEncode_near (pp : ProbPrices) (model : DistModel) (build : SlotBuild) {len dist : ℕ}
    (h : dist < 128) :
    ∃ ops, distEncode build len dist = .ok ops ∧ bitsPrice pp model.prob ops =
      slotSum pp (cell (cell model.posSlotEncoder (getLenToPosState len))) (posSlotClz dist) +
        if dist < 4 then 0 else footerSum pp model dist := by
  have hslot := (near_slots dist h).1
  have hslots := slotBits_price pp model (getLenToPosState len)
    (show posSlotClz dist < 64 by omega)
  have hsum : slotSum pp (cell (cell model.posSlotEncoder (getLenToPosState len)))
      (posSlotClz dist) = upSum pp (cell (cell model.posSlotEncoder (getLenToPosState len))) 6
        (64 + posSlotClz dist) := by
    rw [slotSum, if_neg (by omega), Nat.add_zero]
  rw [hsum, ← hslots]
  unfold distEncode
  rw [getPosSlot_eq build (by omega), ok_bind]
  have hstart : kStartPosModelIndex = 4 := by decide
  have hfull : kNumFullDistances = 128 := by decide
  simp only [hstart, hfull]
  by_cases h4 : dist < 4
  · rw [if_neg (by omega), if_pos h4]
    exact ⟨_, rfl, rfl⟩
  · rw [if_pos (by omega), if_pos h, if_neg h4]
    exact ⟨_, rfl, bitsPrice_append _ _⟩

theorem distEncode_far (pp : ProbPrices) (model : DistModel) (build : SlotBuild) {len dist : ℕ}
    (h1 : 128 ≤ dist) (h2 : dist < 2 ^ 32) :
    ∃ ops, distEncode build len dist = .ok ops ∧ posSlotClz dist < 64 ∧
      bitsPrice pp model.prob ops =
      slotSum pp (cell (cell model.posSlotEncoder (getLenToPosState len))) (posSlotClz dist) +
        alignSum pp model (dist % 16) := by
  obtain ⟨k, hge, hlt⟩ := exists_top (show 2 ≤ dist by omega)
  have h6 : 6 ≤ k := by
    by_contra hk
    have : 2 ^ (k + 2) ≤ 2 ^ 7 := Nat.pow_le_pow_right (by norm_num) (by omega)
    omega
  have h30 : k ≤ 30 := by
    by_contra hk
    have : 2 ^ 32 ≤ 2 ^ (k + 1) := Nat.pow_le_pow_right (by norm_num) (by omega)
    omega
  have hslot := posSlotClz_eq h30 hge hlt
  have hdiv : dist / 2 ^ k = 2 ∨ dist / 2 ^ k = 3 := by
    have h3 : 2 ≤ dist / 2 ^ k := by
      rw [Nat.le_div_iff_mul_le (by positivity), ← pow_succ']
      exact hge
    have h4 : dist / 2 ^ k < 4 := by
      rw [Nat.div_lt_iff_lt_mul (by positivity), show 4 * 2 ^ k = 2 ^ (k + 2) by ring]
      exact hlt
    omega
  have hfooter : (posSlotClz dist >>> 1) - 1 = k := by
    rw [Nat.shiftRight_eq_div_pow, pow_one]
    omega
  have hslots := slotBits_price pp model (getLenToPosState len)
    (show posSlotClz dist < 64 by omega)
  have hor : (dist ||| 0xF) % 16 = 15 := by
    have hlow : ∀ d < 16, d ||| 15 = 15 := by decide
    rw [show 16 = 2 ^ 4 by rfl, Nat.or_mod_two_pow]
    exact hlow _ (Nat.mod_lt _ (by norm_num))
  have hpos2 : u32 ((dist ||| 0xF) <<< (32 - k)) =
      (dist ||| 0xF) % 2 ^ (k - 4 + 4) * 2 ^ (28 - (k - 4)) := by
    have hword : (2 : ℕ) ^ 32 = 2 ^ k * 2 ^ (32 - k) := by
      rw [← pow_add]
      congr 1
      omega
    rw [Nat.shiftLeft_eq, u32, hword, Nat.mul_mod_mul_right, show k - 4 + 4 = k by omega,
      show 28 - (k - 4) = 32 - k by omega]
  have hdirect := directLoop_price pp model.prob (show 0 < k - 4 by omega) (by omega)
    (show k - 4 ≤ 32 by omega) hor
  have halign : bitsPrice pp model.prob (reverseLoop .align 4 1 dist) =
      alignSum pp model (dist % 16) := by
    rw [alignSum, (reverseLoop_mod (show dist % 2 ^ 4 = dist % 16 % 2 ^ 4 by omega)).1]
  unfold distEncode
  rw [getPosSlot_eq build h2, ok_bind]
  have hstart : kStartPosModelIndex = 4 := by decide
  have hfull : kNumFullDistances = 128 := by decide
  simp only [hstart, hfull, hfooter]
  rw [if_pos (by omega), if_neg (by omega)]
  refine ⟨_, rfl, by omega, ?_⟩
  rw [bitsPrice_append, bitsPrice_append, hslots, hpos2, hdirect, halign, slotSum,
    if_pos (by omega), show posSlotClz dist / 2 - 5 = k - 4 by omega]

end LzmaTurbo.Enc
