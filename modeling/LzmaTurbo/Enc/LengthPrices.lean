import LzmaTurbo.Enc.PriceLaws

/-!
# The price tables of the lengths

The first sixteen lengths have their own bits in every position state; the rest
share theirs, so they are priced once and copied.
-/
namespace LzmaTurbo.Enc
open Machine Lzma
open ExactCoder (Op)

/-- The probability of a slot. -/
def LenEnc.prob (enc : LenEnc) : LenSlot → ℕ
  | .low i => cell enc.low i
  | .high i => cell enc.high i

/-- What the three bits of `sym` in the tree at `base` cost. -/
def low3 {n : ℕ} (pp : ProbPrices) (probs : Vector ℕ n) (base sym : ℕ) : ℕ :=
  price pp (cell probs (base + 1)) (sym / 4) + price pp (cell probs (base + (2 + sym / 4)))
    (sym / 2 % 2) + price pp (cell probs (base + (4 + sym / 2))) (sym % 2)

section
variable {pp : ProbPrices} {n m : ℕ} {probs : Vector ℕ n}

theorem prices3Turn_ok {base startPrice into half : ℕ} (hbase : base + 8 ≤ n)
    (hinto : into + 8 ≤ m) (hh : half < 4) (prices : Vector ℕ m) :
    prices3Turn pp probs base startPrice into half prices = .ok
      ((prices.setIfInBounds (into + half * 2)
        (startPrice + low3 pp probs base (half * 2))).setIfInBounds (into + (half * 2 + 1))
          (startPrice + low3 pp probs base (half * 2 + 1))) := by
  have hquarter : (half * 2) >>> 2 = half / 2 := by
    rw [Nat.shiftRight_eq_div_pow]
    omega
  have hhalf : (half * 2) >>> 1 = half := by
    rw [Nat.shiftRight_eq_div_pow]
    omega
  simp only [prices3Turn, hquarter, hhalf, Nat.and_one_is_mod]
  rw [read_cell _ (by omega), ok_bind, read_cell _ (by omega), ok_bind, read_cell _ (by omega),
    ok_bind, write_ok _ (by omega), ok_bind, write_ok _ (by omega), price0_eq, price1_eq]
  simp only [low3, show half * 2 / 4 = half / 2 by omega, show half * 2 / 2 = half by omega,
    show half * 2 % 2 = 0 by omega, show (half * 2 + 1) / 4 = half / 2 by omega,
    show (half * 2 + 1) / 2 = half by omega, show (half * 2 + 1) % 2 = 1 by omega, Nat.add_assoc]

theorem setPrices3_spec (pp : ProbPrices) (probs : Vector ℕ n) {base into : ℕ} (startPrice : ℕ)
    (hbase : base + 8 ≤ n) (hinto : into + 8 ≤ m) (prices : Vector ℕ m) :
    ∃ prices', setPrices3 pp probs base startPrice prices into = .ok prices' ∧
      ∀ j, cell prices' j = if into ≤ j ∧ j < into + 8 then
        startPrice + low3 pp probs base (j - into) else cell prices j := by
  refine forRange_inv (P := fun half prices' => ∀ j, cell prices' j =
    if into ≤ j ∧ j < into + 2 * half then startPrice + low3 pp probs base (j - into)
    else cell prices j) (fun j => by rw [if_neg (by omega)]) fun half prices' _ hh h => ?_
  refine ⟨_, prices3Turn_ok hbase hinto (by omega) prices', fun j => ?_⟩
  rw [cell_set _ (by omega), cell_set _ (by omega)]
  by_cases hodd : into + (half * 2 + 1) = j
  · rw [if_pos hodd, if_pos (by omega), show j - into = half * 2 + 1 by omega]
  · rw [if_neg hodd]
    by_cases heven : into + half * 2 = j
    · rw [if_pos heven, if_pos (by omega), show j - into = half * 2 by omega]
    · rw [if_neg heven, h j]
      by_cases hin : into ≤ j ∧ j < into + 2 * half
      · rw [if_pos hin, if_pos (by omega)]
      · rw [if_neg hin, if_neg (by omega)]

end

section
variable {pp : ProbPrices} {enc : LenEnc}

theorem lenEncodeLow_price {base sym posState : ℕ} (h : sym < 8) :
    bitsPrice pp enc.prob (lenEncodeLow base sym posState) =
      price pp (cell enc.low base) 0 + low3 pp enc.low (base + posState * 16) sym := by
  have hquarter : sym >>> 2 = sym / 4 := Nat.shiftRight_eq_div_pow _ _
  have hhalf : (sym >>> 1) &&& 1 = sym / 2 % 2 := by
    rw [Nat.and_one_is_mod, Nat.shiftRight_eq_div_pow, pow_one]
  have hshift : posState <<< (1 + kLenNumLowBits) = posState * 16 := Nat.shiftLeft_eq _ _
  have hnode : ((2 + sym / 4) <<< 1) + sym / 2 % 2 = 4 + sym / 2 := by
    rw [Nat.shiftLeft_eq]
    omega
  simp only [lenEncodeLow, hquarter, hhalf, hshift, hnode, Nat.and_one_is_mod]
  rw [bitsPrice_cons, bitsPrice_cons, bitsPrice_cons, bitsPrice_cons]
  simp only [opPrice, toNat_bit (show sym / 4 < 2 by omega),
    toNat_bit (show sym / 2 % 2 < 2 by omega), toNat_bit (show sym % 2 < 2 by omega), LenEnc.prob]
  have hnil : bitsPrice pp enc.prob [] = 0 := rfl
  change price pp (cell enc.low base) 0 + _ = _
  rw [low3, hnil]
  ring

/-- What the bits of a length cost. -/
def lenSum (pp : ProbPrices) (enc : LenEnc) (sym posState : ℕ) : ℕ :=
  bitsPrice pp enc.prob (LenEnc.encode sym posState)

theorem lenSum_low {sym posState : ℕ} (h : sym < 8) : lenSum pp enc sym posState =
    price0 pp (cell enc.low 0) + low3 pp enc.low (posState * 16) sym := by
  have h8 : kLenNumLowSymbols = 8 := by decide
  rw [lenSum, LenEnc.encode, if_neg (by omega), lenEncodeLow_price h, price0_eq, Nat.zero_add]

theorem lenSum_mid {sym posState : ℕ} (h : sym < 8) : lenSum pp enc (sym + 8) posState =
    price1 pp (cell enc.low 0) + price0 pp (cell enc.low 8) +
      low3 pp enc.low (posState * 16 + 8) sym := by
  have h8 : kLenNumLowSymbols = 8 := by decide
  rw [lenSum, LenEnc.encode, h8, if_pos (by omega), if_neg (by omega), bitsPrice_cons,
    Nat.add_sub_cancel, lenEncodeLow_price h, price0_eq, price1_eq, Nat.add_assoc,
    add_comm 8 (posState * 16)]
  rfl

theorem lenSum_high {sym posState : ℕ} (h : sym < 256) : lenSum pp enc (sym + 16) posState =
    price1 pp (cell enc.low 0) + price1 pp (cell enc.low 8) +
      upSum pp (cell enc.high) 8 (256 + sym) := by
  have h8 : kLenNumLowSymbols = 8 := by decide
  have hor : ∀ s < 256, s ||| 0x100 = (256 + s) * 2 ^ (8 - 8) := by decide +kernel
  rw [lenSum, LenEnc.encode, h8, if_pos (by omega), if_pos (by omega), bitsPrice_cons,
    bitsPrice_cons, show sym + 16 - 8 * 2 = sym by omega, litEncode, hor sym h,
    treeLoop_price (by norm_num) (by norm_num) (by omega) 8 le_rfl, price1_eq, price1_eq,
    Nat.add_assoc]
  rfl

theorem posStateTurn_spec (pp : ProbPrices) (enc : LenEnc) {posState : ℕ} (h : posState < 16)
    (prices : Vector (Vector ℕ kLenNumSymbolsTotal) lzmaNumPbStatesMax) :
    ∃ prices', posStateTurn pp enc (price0 pp (cell enc.low 0))
        (price1 pp (cell enc.low 0) + price0 pp (cell enc.low 8)) posState prices = .ok prices' ∧
      (∀ sym < 16, cell (cell prices' posState) sym = lenSum pp enc sym posState) ∧
      ∀ i, i ≠ posState → cell prices' i = cell prices i := by
  have h8 : kLenNumLowSymbols = 8 := by decide
  have hshift : posState <<< (1 + kLenNumLowBits) = posState * 16 := Nat.shiftLeft_eq _ _
  have hlow : lzmaNumPbStatesMax <<< (kLenNumLowBits + 1) = 256 := by decide
  have htotal : kLenNumSymbolsTotal = 272 := by decide
  obtain ⟨row, hrow, hfirst⟩ := setPrices3_spec pp enc.low (price0 pp (cell enc.low 0))
    (show posState * 16 + 8 ≤ _ by omega) (show 0 + 8 ≤ _ by omega) (cell prices posState)
  obtain ⟨row', hrow', hsecond⟩ := setPrices3_spec pp enc.low
    (price1 pp (cell enc.low 0) + price0 pp (cell enc.low 8))
    (show posState * 16 + 8 + 8 ≤ _ by omega) (show 8 + 8 ≤ _ by omega) row
  refine ⟨prices.setIfInBounds posState row', ?_, fun sym hs => ?_, fun i hi => ?_⟩
  · simp only [posStateTurn, hshift, h8]
    rw [read_cell _ (by omega), ok_bind, hrow, ok_bind, hrow', ok_bind, write_ok _ (by omega)]
  · rw [cell_set _ (by omega), if_pos rfl, hsecond sym]
    by_cases hlt : sym < 8
    · rw [if_neg (by omega), hfirst sym, if_pos (by omega), lenSum_low hlt]
      rfl
    · obtain ⟨mid, rfl⟩ : ∃ mid, sym = mid + 8 := ⟨sym - 8, by omega⟩
      rw [if_pos (by omega), lenSum_mid (by omega), Nat.add_sub_cancel]
  · rw [cell_set _ (by omega), if_neg (Ne.symm hi)]

/-- The loop over the pairs of long lengths leaves the others alone. -/
theorem highLoop_spec (pp : ProbPrices) (enc : LenEnc) (b : ℕ) {i : ℕ} (hi : i ≤ 128)
    (row : Vector ℕ kLenNumSymbolsTotal) :
    ∃ row', highLoop pp enc.high b i row = .ok row' ∧ ∀ j, cell row' j =
      if 16 ≤ j ∧ j < 16 + 2 * i then b + upSum pp (cell enc.high) 8 (256 + (j - 16))
      else cell row j := by
  have hbase : kLenNumLowSymbols * 2 = 16 := by decide
  have htop : 1 <<< (kLenNumHighBits - 1) = 128 := by decide
  have hsyms : kLenNumHighSymbols = 256 := by decide
  have htotal : kLenNumSymbolsTotal = 272 := by decide
  induction i generalizing row with
  | zero => exact ⟨row, rfl, fun j => by rw [if_neg (by omega)]⟩
  | succ i ih =>
      have hup : upWhile pp enc.high kLenNumHighBits (i + 128) b =
          .ok (b + upSum pp (cell enc.high) 7 (i + 128)) :=
        upWhile_eq (k := 6) (by omega) (by omega) (by omega) (by decide)
      have hpair : ∀ bit < 2, upSum pp (cell enc.high) 8 (256 + (2 * i + bit)) =
          upSum pp (cell enc.high) 7 (i + 128) + price pp (cell enc.high (i + 128)) bit := by
        intro bit hbit
        rw [upSum, show (256 + (2 * i + bit)) / 2 = i + 128 by omega,
          show (256 + (2 * i + bit)) % 2 = bit by omega, add_comm]
      obtain ⟨row', hrow', hcells⟩ := ih (by omega)
        ((row.setIfInBounds (16 + i * 2) (b + upSum pp (cell enc.high) 7 (i + 128) +
          price0 pp (cell enc.high (i + 128)))).setIfInBounds (16 + (i * 2 + 1))
            (b + upSum pp (cell enc.high) 7 (i + 128) + price1 pp (cell enc.high (i + 128))))
      refine ⟨row', ?_, fun j => ?_⟩
      · simp only [highLoop, hbase, htop]
        rw [hup, ok_bind, read_cell _ (by omega), ok_bind, write_ok _ (by omega), ok_bind,
          write_ok _ (by omega), ok_bind, hrow']
      · rw [hcells j, cell_set _ (by omega), cell_set _ (by omega)]
        by_cases hin : 16 ≤ j ∧ j < 16 + 2 * i
        · rw [if_pos hin, if_pos (by omega)]
        · rw [if_neg hin]
          by_cases hodd : 16 + (i * 2 + 1) = j
          · rw [if_pos hodd, if_pos (by omega), show j - 16 = 2 * i + 1 by omega,
              hpair 1 (by norm_num), price1_eq, Nat.add_assoc]
          · rw [if_neg hodd]
            by_cases heven : 16 + i * 2 = j
            · rw [if_pos heven, if_pos (by omega), show j - 16 = 2 * i + 0 by omega,
                hpair 0 (by norm_num), price0_eq, Nat.add_assoc]
            · rw [if_neg heven, if_neg (by omega)]

theorem cell_copyRange {n lo num : ℕ} (h : lo + num ≤ n) (src dst : Vector ℕ n) :
    ∃ v, copyRange lo num src dst = .ok v ∧
      ∀ j, cell v j = if lo ≤ j ∧ j < lo + num then cell src j else cell dst j := by
  refine ⟨_, by rw [copyRange, if_pos h], fun j => ?_⟩
  unfold cell
  by_cases hj : j < n
  · rw [dif_pos hj, dif_pos hj, dif_pos hj]
    exact Vector.getElem_ofFn hj
  · rw [dif_neg hj, dif_neg hj, dif_neg hj, ite_self]

/-- Every position state up to `done` has the long lengths of the first. -/
structure RowsRight (pp : ProbPrices) (enc : LenEnc) (numPosStates size done : ℕ)
    (prices : Vector (Vector ℕ kLenNumSymbolsTotal) lzmaNumPbStatesMax) : Prop where
  short : ∀ posState < numPosStates, ∀ sym < 16,
    cell (cell prices posState) sym = lenSum pp enc sym posState
  long : ∀ posState < done, ∀ sym, 16 ≤ sym → sym < size →
    cell (cell prices posState) sym = lenSum pp enc sym posState

theorem copyTurn_spec {numPosStates size k : ℕ} (hsize : size ≤ 272) (h16 : 16 < size)
    (hn : numPosStates ≤ 16) (hk : k + 1 < numPosStates) {head : Vector ℕ kLenNumSymbolsTotal}
    (hhead : ∀ posState sym, 16 ≤ sym → sym < size → cell head sym = lenSum pp enc sym posState)
    {prices : Vector (Vector ℕ kLenNumSymbolsTotal) lzmaNumPbStatesMax}
    (h : RowsRight pp enc numPosStates size (k + 1) prices) :
    ∃ prices', copyTurn 16 (size - 16) head k prices = .ok prices' ∧
      RowsRight pp enc numPosStates size (k + 1 + 1) prices' := by
  have hmax : lzmaNumPbStatesMax = 16 := rfl
  have htotal : kLenNumSymbolsTotal = 272 := by decide
  obtain ⟨row, hrow, hcells⟩ := cell_copyRange (show 16 + (size - 16) ≤ kLenNumSymbolsTotal by omega)
    head (cell prices (k + 1))
  refine ⟨prices.setIfInBounds (k + 1) row, ?_, fun ps hps sym hs => ?_, fun ps hps sym h1 h2 => ?_⟩
  · rw [copyTurn, read_cell _ (by omega), ok_bind, hrow, ok_bind, write_ok _ (by omega)]
  · rw [cell_set _ (by omega)]
    by_cases heq : k + 1 = ps
    · rw [if_pos heq, hcells sym, if_neg (by omega), heq]
      exact h.short ps hps sym hs
    · rw [if_neg heq]
      exact h.short ps hps sym hs
  · rw [cell_set _ (by omega)]
    by_cases heq : k + 1 = ps
    · rw [if_pos heq, hcells sym, if_pos (by omega)]
      exact hhead ps sym h1 h2
    · rw [if_neg heq]
      exact h.long ps (by omega) sym h1 h2

theorem updateTables_spec (p : LenPriceEnc) {numPosStates : ℕ} (h0 : 0 < numPosStates)
    (hn : numPosStates ≤ 16) (hsize : p.tableSize ≤ 272) (enc : LenEnc) (pp : ProbPrices) :
    ∃ prices, p.updateTables numPosStates enc pp = .ok { p with prices } ∧
      ∀ posState < numPosStates, ∀ sym < p.tableSize,
        cell (cell prices posState) sym = lenSum pp enc sym posState := by
  have h8 : kLenNumLowSymbols = 8 := by decide
  have hlow : lzmaNumPbStatesMax <<< (kLenNumLowBits + 1) = 256 := by decide
  have hmax : lzmaNumPbStatesMax = 16 := rfl
  have htotal : kLenNumSymbolsTotal = 272 := by decide
  obtain ⟨prices, hprices, hshort⟩ := forRange_inv
    (P := fun j prices => ∀ posState < j, ∀ sym < 16,
      cell (cell prices posState) sym = lenSum pp enc sym posState)
    (i := 0) (n := numPosStates) (s := p.prices) (fun ps hps => by omega)
    (fun j prices _ hj h => by
      obtain ⟨prices', hturn, hright, hkeep⟩ := posStateTurn_spec pp enc (show j < 16 by omega) prices
      refine ⟨prices', hturn, fun ps hps sym hs => ?_⟩
      by_cases heq : ps = j
      · rw [heq]
        exact hright sym hs
      · rw [hkeep ps heq]
        exact h ps (by omega) sym hs)
  rw [Nat.zero_add] at hshort
  simp only [LenPriceEnc.updateTables, h8]
  rw [read_cell _ (by omega), ok_bind, read_cell _ (by omega), ok_bind, hprices, ok_bind]
  by_cases hlong : 8 * 2 < p.tableSize
  · rw [if_pos hlong, read_cell _ (by omega), ok_bind]
    have hcount : (p.tableSize - (8 * 2 - 1)) >>> 1 = (p.tableSize - 15) / 2 := by
      rw [Nat.shiftRight_eq_div_pow]
    rw [hcount]
    obtain ⟨head, hhead, hcells⟩ := highLoop_spec pp enc
      (price1 pp (cell enc.low 0) + price1 pp (cell enc.low 8))
      (show (p.tableSize - 15) / 2 ≤ 128 by omega) (cell prices 0)
    have hright : ∀ posState sym, 16 ≤ sym → sym < p.tableSize →
        cell head sym = lenSum pp enc sym posState := by
      intro ps sym h1 h2
      obtain ⟨high, rfl⟩ : ∃ high, sym = high + 16 := ⟨sym - 16, by omega⟩
      rw [hcells, if_pos (by omega), lenSum_high (by omega), Nat.add_sub_cancel]
    rw [hhead, ok_bind, write_ok _ (by omega), ok_bind]
    have hstart : RowsRight pp enc numPosStates p.tableSize 1 (prices.setIfInBounds 0 head) := by
      refine ⟨fun ps hps sym hs => ?_, fun ps hps sym h1 h2 => ?_⟩
      · rw [cell_set _ (by omega)]
        by_cases heq : 0 = ps
        · rw [if_pos heq, hcells sym, if_neg (by omega), heq]
          exact hshort ps hps sym hs
        · rw [if_neg heq]
          exact hshort ps hps sym hs
      · rw [cell_set _ (by omega), if_pos (by omega)]
        exact hright ps sym h1 h2
    obtain ⟨prices', hcopy, hrows⟩ := forRange_inv
      (P := fun k prices => RowsRight pp enc numPosStates p.tableSize (k + 1) prices)
      (i := 0) (n := min (numPosStates - 1) (lzmaNumPbStatesMax - 1)) hstart
      (fun k prices _ hk h => copyTurn_spec hsize hlong hn (by omega) hright h)
    rw [hcopy, ok_bind]
    refine ⟨prices', rfl, fun ps hps sym hs => ?_⟩
    by_cases hlt : sym < 16
    · exact hrows.short ps hps sym hlt
    · exact hrows.long ps (by omega) sym (by omega) hs
  · rw [if_neg hlong]
    exact ⟨prices, rfl, fun ps hps sym hs => hshort ps hps sym (by omega)⟩

end
end LzmaTurbo.Enc
