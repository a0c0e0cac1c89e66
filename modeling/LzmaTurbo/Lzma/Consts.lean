import Mathlib.Data.Nat.Notation

/-!
# Constants and probability-table offsets

The offsets are the absolute ones of the flat probability table.
-/
namespace LzmaTurbo.Lzma

abbrev kTopValue : ℕ := 1 <<< 24
abbrev kNumBitModelTotalBits : ℕ := 11
abbrev kBitModelTotal : ℕ := 1 <<< kNumBitModelTotalBits
abbrev kNumMoveBits : ℕ := 5
abbrev kBitModelOffset : ℕ := kBitModelTotal - (1 <<< kNumMoveBits) + 1

abbrev rcInitSize : ℕ := 5
abbrev lzmaRequiredInputMax : ℕ := 20

abbrev kNumPosBitsMax : ℕ := 4
abbrev kNumPosStatesMax : ℕ := 1 <<< kNumPosBitsMax
abbrev kLenNumLowBits : ℕ := 3
abbrev kLenNumLowSymbols : ℕ := 1 <<< kLenNumLowBits
abbrev kLenNumHighBits : ℕ := 8
abbrev kLenNumHighSymbols : ℕ := 1 <<< kLenNumHighBits

abbrev lenLow : ℕ := 0
abbrev lenHigh : ℕ := lenLow + 2 * (kNumPosStatesMax <<< kLenNumLowBits)
abbrev kNumLenProbs : ℕ := lenHigh + kLenNumHighSymbols
abbrev lenChoice : ℕ := lenLow
abbrev lenChoice2 : ℕ := lenLow + (1 <<< kLenNumLowBits)

abbrev kNumStates : ℕ := 12
abbrev kNumStates2 : ℕ := 16
abbrev kNumLitStates : ℕ := 7
abbrev kStartPosModelIndex : ℕ := 4
abbrev kEndPosModelIndex : ℕ := 14
abbrev kNumFullDistances : ℕ := 1 <<< (kEndPosModelIndex >>> 1)
abbrev kNumPosSlotBits : ℕ := 6
abbrev kNumLenToPosStates : ℕ := 4
abbrev kNumAlignBits : ℕ := 4
abbrev kAlignTableSize : ℕ := 1 <<< kNumAlignBits

abbrev kMatchMinLen : ℕ := 2
abbrev kMatchSpecLenStart : ℕ := kMatchMinLen + kLenNumLowSymbols * 2 + kLenNumHighSymbols
abbrev kMatchSpecLenErrorData : ℕ := 1 <<< 9
abbrev kMatchSpecLenErrorFail : ℕ := kMatchSpecLenErrorData - 1

abbrev specPos : ℕ := 0
abbrev isRep0Long : ℕ := specPos + kNumFullDistances
abbrev repLenCoder : ℕ := isRep0Long + (kNumStates2 <<< kNumPosBitsMax)
abbrev lenCoder : ℕ := repLenCoder + kNumLenProbs
abbrev isMatch : ℕ := lenCoder + kNumLenProbs
abbrev align : ℕ := isMatch + (kNumStates2 <<< kNumPosBitsMax)
abbrev isRep : ℕ := align + kAlignTableSize
abbrev isRepG0 : ℕ := isRep + kNumStates
abbrev isRepG1 : ℕ := isRepG0 + kNumStates
abbrev isRepG2 : ℕ := isRepG1 + kNumStates
abbrev posSlot : ℕ := isRepG2 + kNumStates
abbrev literal : ℕ := posSlot + (kNumLenToPosStates <<< kNumPosSlotBits)
abbrev numBaseProbs : ℕ := literal

abbrev lzmaLitSize : ℕ := 0x300
abbrev lzmaDicMin : ℕ := 1 <<< 12
abbrev kBadRepCode : ℕ := 0xC0000000 - 0x400

/-- The table's size for the given literal bits. -/
def lzmaPropsGetNumProbs (lc lp : ℕ) : ℕ := numBaseProbs + (lzmaLitSize <<< (lc + lp))

/-- The table's layout in numbers; the source asserts `align` and `numBaseProbs`. -/
theorem layout : specPos = 0 ∧ kNumFullDistances = 128 ∧ isRep0Long = 128 ∧ repLenCoder = 384 ∧
    lenCoder = 896 ∧ isMatch = 1408 ∧ align = 1664 ∧ isRep = 1680 ∧ isRepG0 = 1692 ∧
    isRepG1 = 1704 ∧ isRepG2 = 1716 ∧ posSlot = 1728 ∧ literal = 1984 ∧ numBaseProbs = 1984 ∧
    lenLow = 0 ∧ lenHigh = 256 ∧ kNumLenProbs = 512 ∧ lenChoice = 0 ∧ lenChoice2 = 8 ∧
    lzmaLitSize = 768 ∧ kAlignTableSize = 16 ∧ kNumLitStates = 7 ∧ kNumStates = 12 ∧
    kStartPosModelIndex = 4 ∧ kEndPosModelIndex = 14 := by
  decide

/-- The match lengths that are no lengths, in numbers. -/
theorem specLen : kMatchMinLen = 2 ∧ kMatchSpecLenStart = 274 ∧ kMatchSpecLenErrorData = 512 ∧
    kMatchSpecLenErrorFail = 511 ∧ rcInitSize = 5 ∧ lzmaRequiredInputMax = 20 := by
  decide

end LzmaTurbo.Lzma
