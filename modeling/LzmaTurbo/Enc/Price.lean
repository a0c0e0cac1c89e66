import LzmaTurbo.Lib.ExactCoder
import LzmaTurbo.Lzma.Consts
import LzmaTurbo.Machine
import Mathlib.Data.Nat.Log

/-!
# Price tables

The probabilities, the tables filled from them and the bits that are coded with
them. What is coded is the list of its operations, which the range encoder takes
one after the other; a table of a fixed size carries it in its type.
-/
namespace LzmaTurbo.Enc
open Machine Lzma
open ExactCoder (Op)

def read {α : Type} {n : ℕ} (v : Vector α n) (i : ℕ) : Except Fault α :=
  if h : i < n then .ok (v.get ⟨i, h⟩) else .error .index

def write {α : Type} {n : ℕ} (v : Vector α n) (i : ℕ) (x : α) : Except Fault (Vector α n) :=
  if i < n then .ok (v.setIfInBounds i x) else .error .index

/-- `for j in i..i + n`. -/
def forRange {σ : Type} (body : ℕ → σ → Except Fault σ) : ℕ → ℕ → σ → Except Fault σ
  | _, 0, s => .ok s
  | i, n + 1, s => do
      let s ← body i s
      forRange body (i + 1) n s

abbrev kNumMoveReducingBits : ℕ := 4
abbrev kNumBitPriceShiftBits : ℕ := 4
abbrev numProbPrices : ℕ := kBitModelTotal >>> kNumMoveReducingBits
abbrev ppMask : ℕ := numProbPrices - 1
abbrev lzmaNumPbStatesMax : ℕ := 16
abbrev kLenNumSymbolsTotal : ℕ := kLenNumLowSymbols * 2 + kLenNumHighSymbols
abbrev kDicLogSizeMax : ℕ := 32
abbrev kDistTableSizeMax : ℕ := kDicLogSizeMax * 2
abbrev kNumLogBits : ℕ := 11 + 3
abbrev kAlignMask : ℕ := kAlignTableSize - 1

abbrev ProbPrices := Vector ℕ numProbPrices

/-- The index is masked, so it is always in the table. -/
def ProbPrices.masked (pp : ProbPrices) (index : ℕ) : ℕ :=
  pp.get ⟨index &&& ppMask, Nat.lt_of_le_of_lt Nat.and_le_right (by decide)⟩

/-- Halving until the word is below `2^16`; at most sixteen halvings are needed. -/
def halvings : ℕ → ℕ → ℕ → ℕ × ℕ
  | 0, w, bitCount => (w, bitCount)
  | fuel + 1, w, bitCount =>
      if 1 <<< 16 ≤ w then halvings fuel (w >>> 1) (bitCount + 1) else (w, bitCount)

def cycles : ℕ → ℕ → ℕ → ℕ
  | 0, _, bitCount => bitCount
  | n + 1, w, bitCount =>
      let (w, bitCount) := halvings 16 (u32 (w * w)) (bitCount <<< 1)
      cycles n w bitCount

def initPriceTables : ProbPrices :=
  Vector.ofFn fun i =>
    let w := (i.val <<< kNumMoveReducingBits) + (1 <<< (kNumMoveReducingBits - 1))
    (kNumBitModelTotalBits <<< kNumBitPriceShiftBits) - 15 - cycles kNumBitPriceShiftBits w 0

def price (pp : ProbPrices) (prob bit : ℕ) : ℕ :=
  let masked := prob ^^^ (wrappingSub32 0 bit &&& (kBitModelTotal - 1))
  pp.masked (masked >>> kNumMoveReducingBits)

def price0 (pp : ProbPrices) (prob : ℕ) : ℕ := pp.masked (prob >>> kNumMoveReducingBits)

def price1 (pp : ProbPrices) (prob : ℕ) : ℕ :=
  pp.masked ((prob ^^^ (kBitModelTotal - 1)) >>> kNumMoveReducingBits)

section
variable {σ : Type}

/-- The loop that codes a symbol from its top bit down. -/
def treeLoop (slot : ℕ → σ) (numBits : ℕ) : ℕ → ℕ → List (Op σ)
  | 0, _ => []
  | fuel + 1, sym =>
      let i := sym >>> numBits
      let bit := (sym >>> (numBits - 1)) &&& 1
      let sym := u32 (sym <<< 1)
      .bit (slot i) (decide (bit ≠ 0)) ::
        if 1 <<< (numBits * 2) ≤ sym then [] else treeLoop slot numBits fuel sym

def litEncode (slot : ℕ → σ) (sym : ℕ) : List (Op σ) := treeLoop slot 8 8 (sym ||| 0x100)

/-- The loop that codes `n` bits from the lowest up, once a loop of its own and once
unrolled. -/
def reverseLoop (slot : ℕ → σ) : ℕ → ℕ → ℕ → List (Op σ)
  | 0, _, _ => []
  | n + 1, m, sym =>
      let bit := sym &&& 1
      .bit (slot m) (decide (bit ≠ 0)) :: reverseLoop slot n ((m <<< 1) ||| bit) (sym >>> 1)

def rcTreeReverseEncode (slot : ℕ → σ) (numBits sym : ℕ) : List (Op σ) :=
  reverseLoop slot numBits 1 sym

end

/-! ## Lengths -/

structure LenEnc where
  low : Vector ℕ (lzmaNumPbStatesMax <<< (kLenNumLowBits + 1))
  high : Vector ℕ kLenNumHighSymbols

inductive LenSlot where
  | low (i : ℕ)
  | high (i : ℕ)

/-- The three bits after the choice. -/
def lenEncodeLow (base sym posState : ℕ) : List (Op LenSlot) :=
  let choice := .bit (.low base) false
  let base := base + posState <<< (1 + kLenNumLowBits)
  let bit2 := sym >>> 2
  let m := 2 + bit2
  let bit1 := (sym >>> 1) &&& 1
  let m' := (m <<< 1) + bit1
  let bit0 := sym &&& 1
  [choice, .bit (.low (base + 1)) (decide (bit2 ≠ 0)), .bit (.low (base + m)) (decide (bit1 ≠ 0)),
    .bit (.low (base + m')) (decide (bit0 ≠ 0))]

def LenEnc.encode (sym posState : ℕ) : List (Op LenSlot) :=
  if kLenNumLowSymbols ≤ sym then
    .bit (.low 0) true ::
      if kLenNumLowSymbols * 2 ≤ sym then
        .bit (.low kLenNumLowSymbols) true :: litEncode .high (sym - kLenNumLowSymbols * 2)
      else lenEncodeLow kLenNumLowSymbols (sym - kLenNumLowSymbols) posState
  else lenEncodeLow 0 sym posState

structure LenPriceEnc where
  tableSize : ℕ
  prices : Vector (Vector ℕ kLenNumSymbolsTotal) lzmaNumPbStatesMax

def LenPriceEnc.getPriceLen (p : LenPriceEnc) (posState len : ℕ) : Except Fault ℕ := do
  let row ← read p.prices posState
  let i ← sub len 2
  read row i

/-- `base` and `into` are where the slices of the probabilities and the prices begin. -/
def prices3Turn {n m : ℕ} (pp : ProbPrices) (probs : Vector ℕ n) (base startPrice into : ℕ)
    (half : ℕ) (prices : Vector ℕ m) : Except Fault (Vector ℕ m) := do
  let i := half * 2
  let prob ← read probs (base + 1)
  let total := startPrice + price pp prob (i >>> 2)
  let prob ← read probs (base + (2 + (i >>> 2)))
  let total := total + price pp prob ((i >>> 1) &&& 1)
  let prob ← read probs (base + (4 + (i >>> 1)))
  let prices ← write prices (into + i) (total + price0 pp prob)
  write prices (into + (i + 1)) (total + price1 pp prob)

def setPrices3 {n m : ℕ} (pp : ProbPrices) (probs : Vector ℕ n) (base startPrice : ℕ)
    (prices : Vector ℕ m) (into : ℕ) : Except Fault (Vector ℕ m) :=
  forRange (prices3Turn pp probs base startPrice into) 0 4 prices

/-- The price of the bits of `sym`, from the lowest, until the root is reached. -/
def upWhile {n : ℕ} (pp : ProbPrices) (probs : Vector ℕ n) : ℕ → ℕ → ℕ → Except Fault ℕ
  | 0, _, total => .ok total
  | fuel + 1, sym, total => do
      let bit := sym &&& 1
      let sym := sym >>> 1
      let prob ← read probs sym
      let total := total + price pp prob bit
      if sym < 2 then .ok total else upWhile pp probs fuel sym total

/-- The loop over the pairs of long lengths, from the last one down. -/
def highLoop (pp : ProbPrices) (probs : Vector ℕ kLenNumHighSymbols) (b : ℕ) :
    ℕ → Vector ℕ kLenNumSymbolsTotal → Except Fault (Vector ℕ kLenNumSymbolsTotal)
  | 0, prices => .ok prices
  | i + 1, prices => do
      let base := kLenNumLowSymbols * 2
      let sym := i + (1 <<< (kLenNumHighBits - 1))
      let total ← upWhile pp probs kLenNumHighBits sym b
      let prob ← read probs sym
      let prices ← write prices (base + i * 2) (total + price0 pp prob)
      let prices ← write prices (base + (i * 2 + 1)) (total + price1 pp prob)
      highLoop pp probs b i prices

/-- `copy_from_slice` on one range of two rows. -/
def copyRange {n : ℕ} (lo num : ℕ) (src dst : Vector ℕ n) : Except Fault (Vector ℕ n) :=
  if lo + num ≤ n then
    .ok (Vector.ofFn fun j => if lo ≤ j.val ∧ j.val < lo + num then src.get j else dst.get j)
  else .error .index

def posStateTurn (pp : ProbPrices) (enc : LenEnc) (a c posState : ℕ)
    (prices : Vector (Vector ℕ kLenNumSymbolsTotal) lzmaNumPbStatesMax) :
    Except Fault (Vector (Vector ℕ kLenNumSymbolsTotal) lzmaNumPbStatesMax) := do
  let posState2 := posState <<< (1 + kLenNumLowBits)
  let row ← read prices posState
  let row ← setPrices3 pp enc.low posState2 a row 0
  let row ← setPrices3 pp enc.low (posState2 + kLenNumLowSymbols) c row kLenNumLowSymbols
  write prices posState row

def copyTurn (base num : ℕ) (head : Vector ℕ kLenNumSymbolsTotal) (k : ℕ)
    (prices : Vector (Vector ℕ kLenNumSymbolsTotal) lzmaNumPbStatesMax) :
    Except Fault (Vector (Vector ℕ kLenNumSymbolsTotal) lzmaNumPbStatesMax) := do
  let row ← read prices (k + 1)
  let row ← copyRange base num head row
  write prices (k + 1) row

def LenPriceEnc.updateTables (p : LenPriceEnc) (numPosStates : ℕ) (enc : LenEnc)
    (pp : ProbPrices) : Except Fault LenPriceEnc := do
  let prob ← read enc.low 0
  let b := price1 pp prob
  let a := price0 pp prob
  let prob ← read enc.low kLenNumLowSymbols
  let c := b + price0 pp prob
  let prices ← forRange (posStateTurn pp enc a c) 0 numPosStates p.prices
  if kLenNumLowSymbols * 2 < p.tableSize then do
    let base := kLenNumLowSymbols * 2
    let i := (p.tableSize - (kLenNumLowSymbols * 2 - 1)) >>> 1
    let b := b + price1 pp prob
    let head ← read prices 0
    let head ← highLoop pp enc.high b i head
    let prices ← write prices 0 head
    let num := p.tableSize - kLenNumLowSymbols * 2
    let prices ← forRange (copyTurn base num head) 0
      (min (numPosStates - 1) (lzmaNumPbStatesMax - 1)) prices
    .ok { p with prices }
  else .ok { p with prices }

/-- The length of the tables for a setting of fast bytes. -/
def numFastBytesOf (fb : ℕ) : ℕ :=
  let fb := if fb < 5 then 5 else fb
  if 273 < fb then 273 else fb

def lenTableSizeOf (fb : ℕ) : ℕ := numFastBytesOf fb + 1 - 2

/-! ## Distances -/

/-- `fast_pos_init`, each slot written as often as the source writes it. -/
def fastPosInit : List ℕ :=
  0 :: 1 :: (List.range' 2 (kNumLogBits * 2 - 2)).flatMap fun slot =>
    List.replicate (1 <<< ((slot >>> 1) - 1)) slot

def fastPos (i : ℕ) : Except Fault ℕ :=
  match fastPosInit[i]? with
  | some slot => .ok slot
  | none => .error .index

/-- The builds differ in how they find a distance's slot. -/
inductive SlotBuild where
  | table
  | leadingZeros
deriving DecidableEq, Repr

def posSlotClz (pos : ℕ) : ℕ :=
  if pos < 2 then pos else
    let zz := 30 - (31 - Nat.log2 pos)
    zz * 2 + pos >>> zz

def getPosSlot1 (build : SlotBuild) (pos : ℕ) : Except Fault ℕ :=
  match build with
  | .table => fastPos pos
  | .leadingZeros => .ok (posSlotClz pos)

def getPosSlot2 (build : SlotBuild) (pos : ℕ) : Except Fault ℕ :=
  match build with
  | .table => do
      let zz := if pos < 1 <<< (kNumLogBits + 6) then 6 else 6 + kNumLogBits - 1
      let slot ← fastPos (pos >>> zz)
      .ok (slot + zz * 2)
  | .leadingZeros => .ok (posSlotClz pos)

def getPosSlot (build : SlotBuild) (pos : ℕ) : Except Fault ℕ :=
  match build with
  | .table =>
      if pos < kNumFullDistances then fastPos (pos &&& (kNumFullDistances - 1))
      else getPosSlot2 .table pos
  | .leadingZeros => .ok (posSlotClz pos)

def getLenToPosState (len : ℕ) : ℕ :=
  if len < kNumLenToPosStates + 1 then len - 2 else kNumLenToPosStates - 1

/-- The slot's bits, the footer's, the middle ones and the lowest four have models of
their own. -/
inductive DistSlot where
  | posSlot (lps i : ℕ)
  | pos (i : ℕ)
  | align (i : ℕ)

/-- The direct bits, from the top of `pos2` down to the four that are left. -/
def directLoop {σ : Type} : ℕ → ℕ → List (Op σ)
  | 0, _ => []
  | fuel + 1, pos2 =>
      let op := .direct (decide (pos2 >>> 31 ≠ 0))
      let pos2 := wrappingAdd32 pos2 pos2
      op :: if pos2 = 0xF0000000 then [] else directLoop fuel pos2

/-- What the coding of a match does for the distance. -/
def distEncode (build : SlotBuild) (len dist : ℕ) : Except Fault (List (Op DistSlot)) := do
  let posSlot ← getPosSlot build dist
  let lps := getLenToPosState len
  let slotBits := treeLoop (.posSlot lps) kNumPosSlotBits kNumPosSlotBits
    (posSlot + (1 <<< kNumPosSlotBits))
  if kStartPosModelIndex ≤ dist then
    let footerBits := (posSlot >>> 1) - 1
    if dist < kNumFullDistances then
      let base := (2 ||| (posSlot &&& 1)) <<< footerBits
      .ok (slotBits ++ rcTreeReverseEncode (fun m => .pos (base + m)) footerBits dist)
    else
      let pos2 := u32 ((dist ||| 0xF) <<< (32 - footerBits))
      .ok (slotBits ++ directLoop 32 pos2 ++ reverseLoop .align 4 1 dist)
  else .ok slotBits

/-- The models of the distances. -/
structure DistModel where
  posSlotEncoder : Vector (Vector ℕ (1 <<< kNumPosSlotBits)) kNumLenToPosStates
  posEncoders : Vector ℕ kNumFullDistances
  posAlignEncoder : Vector ℕ kAlignTableSize

structure DistPrices where
  alignPrices : Vector ℕ kAlignTableSize
  posSlotPrices : Vector (Vector ℕ kDistTableSizeMax) kNumLenToPosStates
  distancesPrices : Vector (Vector ℕ kNumFullDistances) kNumLenToPosStates

/-- What the parser reads for a distance. -/
def DistPrices.distPrice (p : DistPrices) (build : SlotBuild) (len dist : ℕ) : Except Fault ℕ :=
  let lenToPosState := getLenToPosState len
  if dist < kNumFullDistances then do
    let row ← read p.distancesPrices lenToPosState
    read row (dist &&& (kNumFullDistances - 1))
  else do
    let slot ← getPosSlot2 build dist
    let align ← read p.alignPrices (dist &&& kAlignMask)
    let row ← read p.posSlotPrices lenToPosState
    let slotPrice ← read row slot
    .ok (align + slotPrice)

/-- `num` bits of `sym` from the lowest up: their price, and the node below them. -/
def downPrice {n : ℕ} (pp : ProbPrices) (probs : Vector ℕ n) (base : ℕ) :
    ℕ → ℕ → ℕ → ℕ → Except Fault (ℕ × ℕ)
  | 0, m, _, total => .ok (m, total)
  | num + 1, m, sym, total => do
      let bit := sym &&& 1
      let prob ← read probs (base + m)
      downPrice pp probs base num ((m <<< 1) + bit) (sym >>> 1) (total + price pp prob bit)

def alignTurn (pp : ProbPrices) (probs : Vector ℕ kAlignTableSize) (i : ℕ)
    (prices : Vector ℕ kAlignTableSize) : Except Fault (Vector ℕ kAlignTableSize) := do
  let (m, total) ← downPrice pp probs 0 3 1 i 0
  let prob ← read probs m
  let prices ← write prices i (total + price0 pp prob)
  write prices (i + 8) (total + price1 pp prob)

def DistPrices.fillAlignPrices (p : DistPrices) (model : DistModel) (pp : ProbPrices) :
    Except Fault DistPrices := do
  let alignPrices ← forRange (alignTurn pp model.posAlignEncoder) 0 (kAlignTableSize / 2)
    p.alignPrices
  .ok { p with alignPrices }

/-- Two prices of footers: distances below the full-distance bound that differ in the
top bit of their footers. -/
def tempTurn (build : SlotBuild) (pp : ProbPrices) (probs : Vector ℕ kNumFullDistances) (i : ℕ)
    (temp : Vector ℕ kNumFullDistances) : Except Fault (Vector ℕ kNumFullDistances) := do
  let posSlot ← getPosSlot1 build i
  let footerBits := (posSlot >>> 1) - 1
  let base := (2 ||| (posSlot &&& 1)) <<< footerBits
  let (m, total) ← downPrice pp probs (base * 2) footerBits 1 i 0
  let offset := 1 <<< footerBits
  let prob ← read probs (base * 2 + m)
  let temp ← write temp (base + i) (total + price0 pp prob)
  write temp (base + i + offset) (total + price1 pp prob)

/-- `num` bits of `sym` from the lowest up, towards the root. -/
def upPrice {n : ℕ} (pp : ProbPrices) (probs : Vector ℕ n) : ℕ → ℕ → ℕ → Except Fault ℕ
  | 0, _, total => .ok total
  | num + 1, sym, total => do
      let bit := sym &&& 1
      let sym := sym >>> 1
      let prob ← read probs sym
      upPrice pp probs num sym (total + price pp prob bit)

def slotTurn (pp : ProbPrices) (probs : Vector ℕ (1 <<< kNumPosSlotBits)) (slot : ℕ)
    (prices : Vector ℕ kDistTableSizeMax) : Except Fault (Vector ℕ kDistTableSizeMax) := do
  let sym := slot + (1 <<< (kNumPosSlotBits - 1))
  let total ← upPrice pp probs 5 sym 0
  let prob ← read probs sym
  let prices ← write prices (slot * 2) (total + price0 pp prob)
  write prices (slot * 2 + 1) (total + price1 pp prob)

/-- The price of the direct bits, which grows by one bit's price from slot to slot. -/
def directTurn (slot : ℕ) (prices : Vector ℕ kDistTableSizeMax) :
    Except Fault (Vector ℕ kDistTableSizeMax) := do
  let first := kEndPosModelIndex / 2
  let delta := ((first - 1) - kNumAlignBits + (slot - first)) <<< kNumBitPriceShiftBits
  let even ← read prices (slot * 2)
  let prices ← write prices (slot * 2) (even + delta)
  let odd ← read prices (slot * 2 + 1)
  write prices (slot * 2 + 1) (odd + delta)

def fillSlotPrices (distTableSize : ℕ) (probs : Vector ℕ (1 <<< kNumPosSlotBits))
    (pp : ProbPrices) (prices : Vector ℕ kDistTableSizeMax) :
    Except Fault (Vector ℕ kDistTableSizeMax) := do
  let distTableSize2 := (distTableSize + 1) >>> 1
  let prices ← forRange (slotTurn pp probs) 0 distTableSize2 prices
  let first := kEndPosModelIndex / 2
  forRange directTurn first (distTableSize2 - first) prices

/-- The distances without a footer cost what their slots cost. -/
def nearTurn (slotPrices : Vector ℕ kDistTableSizeMax) (i : ℕ)
    (prices : Vector ℕ kNumFullDistances) : Except Fault (Vector ℕ kNumFullDistances) := do
  let slotPrice ← read slotPrices i
  write prices i slotPrice

def pairTurn (build : SlotBuild) (slotPrices : Vector ℕ kDistTableSizeMax)
    (temp : Vector ℕ kNumFullDistances) (half : ℕ) (prices : Vector ℕ kNumFullDistances) :
    Except Fault (Vector ℕ kNumFullDistances) := do
  let i := half * 2
  let posSlot ← getPosSlot1 build i
  let slotPrice ← read slotPrices posSlot
  let even ← read temp i
  let prices ← write prices i (slotPrice + even)
  let odd ← read temp (i + 1)
  write prices (i + 1) (slotPrice + odd)

def lpsTurn (build : SlotBuild) (distTableSize : ℕ) (model : DistModel) (pp : ProbPrices)
    (temp : Vector ℕ kNumFullDistances) (lps : ℕ) (p : DistPrices) : Except Fault DistPrices := do
  let probs ← read model.posSlotEncoder lps
  let slotPrices ← read p.posSlotPrices lps
  let slotPrices ← fillSlotPrices distTableSize probs pp slotPrices
  let posSlotPrices ← write p.posSlotPrices lps slotPrices
  let prices ← read p.distancesPrices lps
  let prices ← forRange (nearTurn slotPrices) 0 4 prices
  let prices ← forRange (pairTurn build slotPrices temp) (4 / 2) ((kNumFullDistances - 4) / 2) prices
  let distancesPrices ← write p.distancesPrices lps prices
  .ok { p with posSlotPrices, distancesPrices }

def DistPrices.fillDistancesPrices (p : DistPrices) (build : SlotBuild) (distTableSize : ℕ)
    (model : DistModel) (pp : ProbPrices) : Except Fault DistPrices := do
  let first := kStartPosModelIndex / 2
  let temp ← forRange (tempTurn build pp model.posEncoders) first (kNumFullDistances / 2 - first)
    (Vector.replicate kNumFullDistances 0)
  forRange (lpsTurn build distTableSize model pp temp) 0 kNumLenToPosStates p

/-- The size `alloc_and_init` gives the slot table for a dictionary. -/
def distTableSizeOf (dictSize : ℕ) : ℕ :=
  let rec search : ℕ → ℕ → ℕ
    | 0, i => i
    | fuel + 1, i => if dictSize ≤ 1 <<< i then i else search fuel (i + 1)
  search (kDicLogSizeMax - kEndPosModelIndex / 2) (kEndPosModelIndex / 2) * 2

end LzmaTurbo.Enc
