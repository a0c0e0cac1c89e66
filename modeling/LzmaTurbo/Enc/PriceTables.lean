import LzmaTurbo.Enc.DistancePrices
import LzmaTurbo.Enc.LengthPrices

/-!
# What the parser reads is what the coder would spend

The tables are filled from the model of the moment; an entry that the parser can
read is the price of the bits that the coder would then encode.
-/
namespace LzmaTurbo.Enc
open Machine Lzma

theorem getLenToPosState_lt (len : ℕ) : getLenToPosState len < 4 := by
  have h4 : kNumLenToPosStates = 4 := by decide
  unfold getLenToPosState
  split <;> omega

section
variable {dictSize : ℕ}

theorem search_spec (dictSize fuel i : ℕ) : i ≤ distTableSizeOf.search dictSize fuel i ∧
    distTableSizeOf.search dictSize fuel i ≤ i + fuel ∧
    (distTableSizeOf.search dictSize fuel i = i + fuel ∨
      dictSize ≤ 2 ^ distTableSizeOf.search dictSize fuel i) := by
  induction fuel generalizing i with
  | zero => exact ⟨le_rfl, le_rfl, .inl rfl⟩
  | succ fuel ih =>
      rw [distTableSizeOf.search]
      split
      · rename_i hle
        rw [Nat.shiftLeft_eq, one_mul] at hle
        exact ⟨le_rfl, by omega, .inr hle⟩
      · obtain ⟨h1, h2, h3⟩ := ih (i + 1)
        exact ⟨by omega, by omega, h3.imp_left fun h => by omega⟩

/-- The slot table has the slots of every distance in the dictionary. -/
theorem distTableSize_spec (h : dictSize < 2 ^ 32) : 14 ≤ distTableSizeOf dictSize ∧
    distTableSizeOf dictSize ≤ 64 ∧
    ∀ dist < dictSize, posSlotClz dist < distTableSizeOf dictSize := by
  have hfirst : kEndPosModelIndex / 2 = 7 := by decide
  have hfuel : kDicLogSizeMax - 7 = 25 := by decide
  obtain ⟨h1, h2, h3⟩ := search_spec dictSize 25 7
  unfold distTableSizeOf
  rw [hfirst, hfuel]
  generalize distTableSizeOf.search dictSize 25 7 = r at h1 h2 h3
  have hpow : dictSize ≤ 2 ^ r := by
    obtain rfl | h3 := h3
    · norm_num
      omega
    · exact h3
  refine ⟨by omega, by omega, fun dist hd => ?_⟩
  by_cases hsmall : dist < 128
  · have := (near_slots dist hsmall).1
    omega
  · obtain ⟨k, hge, hlt⟩ := exists_top (show 2 ≤ dist by omega)
    have hk : k + 1 < r := by
      by_contra hle
      have : 2 ^ r ≤ 2 ^ (k + 1) := Nat.pow_le_pow_right (by norm_num) (by omega)
      omega
    have hdiv : dist / 2 ^ k < 4 := by
      rw [Nat.div_lt_iff_lt_mul (by positivity), show 4 * 2 ^ k = 2 ^ (k + 2) by ring]
      exact hlt
    rw [posSlotClz_eq (by omega) hge hlt]
    omega

theorem lenTableSize_le (fb : ℕ) : lenTableSizeOf fb ≤ 272 := by
  unfold lenTableSizeOf numFastBytesOf
  simp only
  split <;> split <;> omega

end

section
variable {pp : ProbPrices} {model : DistModel}

/-- A distance that has its entries in the tables. -/
theorem distPrice_eq (build : SlotBuild) {size len dist : ℕ} (h14 : 14 ≤ size) (h64 : size ≤ 64)
    (hdist : dist < 2 ^ 32) (hslot : posSlotClz dist < size) {p : DistPrices}
    (hlps : ∀ lps < 4, LpsRight pp model size p lps)
    (halign : ∀ a < 16, cell p.alignPrices a = alignSum pp model a) :
    ∃ ops, distEncode build len dist = .ok ops ∧
      p.distPrice build len dist = .ok (bitsPrice pp model.prob ops) := by
  have hfull : kNumFullDistances = 2 ^ 7 := by decide
  have hmask : kAlignMask = 2 ^ 4 - 1 := by decide
  have hlen : kNumLenToPosStates = 4 := by decide
  have hmax : kDistTableSizeMax = 64 := by decide
  have htable : kAlignTableSize = 16 := by decide
  have hright := hlps _ (getLenToPosState_lt len)
  have hl := getLenToPosState_lt len
  simp only [DistPrices.distPrice, hfull, hmask, Nat.and_two_pow_sub_one_eq_mod]
  by_cases hnear : dist < 2 ^ 7
  · obtain ⟨ops, hops, hprice⟩ := distEncode_near pp model build hnear
    refine ⟨ops, hops, ?_⟩
    rw [if_pos hnear, read_cell _ (by omega), ok_bind, read_cell _ (by omega),
      Nat.mod_eq_of_lt hnear, hright.dists _ hnear, hprice]
  · obtain ⟨ops, hops, -, hprice⟩ := distEncode_far pp model build
      (show 128 ≤ dist by omega) hdist
    have hslot2 : getPosSlot2 build dist = .ok (posSlotClz dist) := by
      cases build with
      | leadingZeros => rfl
      | table =>
          have h := getPosSlot_eq .table hdist
          rwa [getPosSlot, hfull, if_neg hnear] at h
    refine ⟨ops, hops, ?_⟩
    rw [if_neg hnear, hslot2, ok_bind, read_cell _ (by omega), ok_bind, read_cell _ (by omega),
      ok_bind, read_cell _ (by omega), ok_bind, halign _ (by omega), hright.slots _ hslot, hprice,
      add_comm]

end

/-- For every model, every setting and both builds: the fills succeed, and each entry that
the parser can read is the price of the bits for that distance or length. -/
theorem priceTables_right (build : SlotBuild) (pp : ProbPrices) (dictSize fb pb : ℕ)
    (hdict : dictSize < 2 ^ 32) (hpb : pb ≤ 4) (model : DistModel) (enc : LenEnc) (p : DistPrices)
    (lens : LenPriceEnc) :
    (∃ p₁ p₂, p.fillDistancesPrices build (distTableSizeOf dictSize) model pp = .ok p₁ ∧
      p₁.fillAlignPrices model pp = .ok p₂ ∧
      (∀ dist < dictSize, ∃ slot, getPosSlot build dist = .ok slot ∧
        slot < distTableSizeOf dictSize) ∧
      ∀ len dist slot, dist < 2 ^ 32 → getPosSlot build dist = .ok slot →
        slot < distTableSizeOf dictSize → ∃ ops, distEncode build len dist = .ok ops ∧
          p₂.distPrice build len dist = .ok (bitsPrice pp model.prob ops)) ∧
    ∃ lens', LenPriceEnc.updateTables { lens with tableSize := lenTableSizeOf fb } (1 <<< pb) enc
        pp = .ok lens' ∧
      ∀ posState < 1 <<< pb, ∀ sym < lenTableSizeOf fb,
        lens'.getPriceLen posState (sym + 2) =
          .ok (bitsPrice pp enc.prob (LenEnc.encode sym posState)) := by
  obtain ⟨h14, h64, hslots⟩ := distTableSize_spec hdict
  constructor
  · obtain ⟨p₁, hfill, hlps⟩ := fillDistancesPrices_spec build h14 h64 model pp p
    obtain ⟨align, halign, hcells⟩ := fillAlignPrices_spec p₁ model pp
    refine ⟨p₁, _, hfill, halign, fun dist hd => ?_, fun len dist slot hd hslot hlt => ?_⟩
    · exact ⟨_, getPosSlot_eq build (by omega), hslots dist hd⟩
    · rw [getPosSlot_eq build hd] at hslot
      obtain rfl : posSlotClz dist = slot := by simpa using hslot
      exact distPrice_eq build h14 h64 hd hlt (fun lps h => ⟨(hlps lps h).slots, (hlps lps h).dists⟩)
        hcells
  · have hmax : lzmaNumPbStatesMax = 16 := rfl
    have htotal : kLenNumSymbolsTotal = 272 := by decide
    have hpow : 1 <<< pb = 2 ^ pb := by rw [Nat.shiftLeft_eq, one_mul]
    have hle : 2 ^ pb ≤ 2 ^ 4 := Nat.pow_le_pow_right (by norm_num) hpb
    have hsize := lenTableSize_le fb
    rw [hpow]
    obtain ⟨prices, hupdate, hright⟩ := updateTables_spec
      { lens with tableSize := lenTableSizeOf fb } (by positivity) hle hsize enc pp
    refine ⟨_, hupdate, fun ps hps sym hs => ?_⟩
    unfold LenPriceEnc.getPriceLen
    simp only
    have hsub : sub (sym + 2) 2 = .ok sym := by
      rw [sub, if_pos (by omega), Nat.add_sub_cancel]
    rw [read_cell _ (by omega), ok_bind, hsub, ok_bind, read_cell _ (by omega), hright ps hps sym hs]
    rfl

/-- A model that has just been reset, in a dictionary of a megabyte. -/
theorem priceTables_right_reset :
    let model : DistModel := ⟨.replicate _ (.replicate _ 1024), .replicate _ 1024, .replicate _ 1024⟩
    let enc : LenEnc := ⟨.replicate _ 1024, .replicate _ 1024⟩
    let p : DistPrices := ⟨.replicate _ 0, .replicate _ (.replicate _ 0), .replicate _ (.replicate _ 0)⟩
    ∃ p₁ p₂ ops lens', p.fillDistancesPrices .table (distTableSizeOf (1 <<< 20)) model
        initPriceTables = .ok p₁ ∧
      p₁.fillAlignPrices model initPriceTables = .ok p₂ ∧
      distEncode .table 5 1000 = .ok ops ∧
      p₂.distPrice .table 5 1000 = .ok (bitsPrice initPriceTables model.prob ops) ∧
      LenPriceEnc.updateTables ⟨lenTableSizeOf 32, .replicate _ (.replicate _ 0)⟩ (1 <<< 2) enc
        initPriceTables = .ok lens' ∧
      lens'.getPriceLen 3 (30 + 2) =
        .ok (bitsPrice initPriceTables enc.prob (LenEnc.encode 30 3)) := by
  intro model enc p
  obtain ⟨⟨p₁, p₂, hfill, halign, hslots, hdist⟩, lens', hupdate, hlen⟩ :=
    priceTables_right .table initPriceTables (1 <<< 20) 32 2 (by decide) (by decide) model enc p
      ⟨0, .replicate _ (.replicate _ 0)⟩
  obtain ⟨slot, hslot, hlt⟩ := hslots 1000 (by decide)
  obtain ⟨ops, hops, hprice⟩ := hdist 5 1000 slot (by norm_num) hslot hlt
  exact ⟨p₁, p₂, ops, lens', hfill, halign, hops, hprice, hupdate, hlen 3 (by decide) 30 (by decide)⟩

end LzmaTurbo.Enc
