import LzmaTurbo.Machine
import LzmaTurbo.Lzma.Consts

/-!
# Decoder state and properties
-/
namespace LzmaTurbo.Lzma
open Machine

inductive Error where
  | unsupportedProps
  | corruptData
  | internalFailure
deriving Repr, DecidableEq

inductive Status where
  | notSpecified
  | finishedWithMark
  | notFinished
  | needsMoreInput
  | maybeFinishedWithoutMark
deriving Repr, DecidableEq

inductive FinishMode where
  | any
  | endMark
deriving Repr, DecidableEq

structure Progress where
  read : ℕ
  written : ℕ
  status : Status
deriving Repr, DecidableEq

/-- Parsed properties; a value out of the format's range cannot be built. -/
structure LzmaProps where
  lc : ℕ
  lp : ℕ
  pb : ℕ
  dictSize : ℕ
  lc_le : lc ≤ 8
  lp_le : lp ≤ 4
  pb_le : pb ≤ 4
  dict_ge : lzmaDicMin ≤ dictSize
  dict_lt : dictSize < 2 ^ 32
deriving DecidableEq

def LzmaProps.setLclppb (p : LzmaProps) (lc lp pb : ℕ) (hlc : lc ≤ 8) (hlp : lp ≤ 4)
    (hpb : pb ≤ 4) : LzmaProps :=
  { p with lc, lp, pb, lc_le := hlc, lp_le := hlp, pb_le := hpb }

def LzmaProps.dicMask (p : LzmaProps) : ℕ :=
  if 1 <<< 30 ≤ p.dictSize then (1 <<< 22) - 1
  else if 1 <<< 22 ≤ p.dictSize then (1 <<< 20) - 1
  else (1 <<< 12) - 1

/-- The allocated size: the dictionary rounded up, unless that would wrap. -/
def LzmaProps.dicBufSize (p : LzmaProps) : ℕ :=
  let dicBufSize := wrappingAdd64 p.dictSize p.dicMask &&& (2 ^ 64 - 1 - p.dicMask)
  if dicBufSize < p.dictSize then p.dictSize else dicBufSize

theorem LzmaProps.dicMask_lt (p : LzmaProps) : p.dicMask < 2 ^ 22 := by
  unfold LzmaProps.dicMask
  split
  · decide
  · split <;> decide

theorem LzmaProps.dictSize_le_dicBufSize (p : LzmaProps) : p.dictSize ≤ p.dicBufSize := by
  simp only [LzmaProps.dicBufSize]
  split <;> omega

theorem LzmaProps.dicBufSize_lt (p : LzmaProps) : p.dicBufSize < 2 ^ 33 := by
  have hd := p.dict_lt
  have hm := p.dicMask_lt
  have hw : wrappingAdd64 p.dictSize p.dicMask < 2 ^ 33 := by
    unfold wrappingAdd64
    omega
  simp only [LzmaProps.dicBufSize]
  split
  · omega
  · exact lt_of_le_of_lt Nat.and_le_left hw

/-- The four last match distances. -/
structure Reps where
  rep0 : ℕ
  rep1 : ℕ
  rep2 : ℕ
  rep3 : ℕ
deriving Repr, DecidableEq

structure LzmaDec where
  prop : LzmaProps
  probs : Array ℕ
  dic : Array UInt8
  dicBufSize : ℕ
  dicPos : ℕ
  range : ℕ
  code : ℕ
  processedPos : ℕ
  checkDicSize : ℕ
  reps : Reps
  state : ℕ
  remainLen : ℕ
  tempBufSize : ℕ
  tempBuf : Array UInt8
deriving DecidableEq

def LzmaDec.initDicAndState (p : LzmaDec) (initDic initState : Bool) : LzmaDec :=
  let p := { p with remainLen := kMatchSpecLenStart + 1, tempBufSize := 0 }
  let p := if initDic then
      { p with processedPos := 0, checkDicSize := 0, remainLen := kMatchSpecLenStart + 2 }
    else p
  if initState then { p with remainLen := kMatchSpecLenStart + 2 } else p

def LzmaDec.init (p : LzmaDec) : LzmaDec := { p with dicPos := 0 }.initDicAndState true true

def LzmaDec.alloc (prop : LzmaProps) (dicBufSize : ℕ) : LzmaDec :=
  LzmaDec.init
    { prop, probs := Array.replicate (lzmaPropsGetNumProbs prop.lc prop.lp) 0
      dic := Array.replicate dicBufSize 0, dicBufSize, dicPos := 0, range := 0, code := 0
      processedPos := 0, checkDicSize := 0, reps := ⟨0, 0, 0, 0⟩, state := 0, remainLen := 0
      tempBufSize := 0, tempBuf := Array.replicate lzmaRequiredInputMax 0 }

def LzmaDec.new (prop : LzmaProps) : LzmaDec := LzmaDec.alloc prop prop.dicBufSize

/-- Only the entries the current properties use are refilled. -/
def LzmaDec.resetState (p : LzmaDec) : LzmaDec :=
  let n := lzmaPropsGetNumProbs p.prop.lc p.prop.lp
  { p with
    probs := Array.ofFn (n := p.probs.size) fun i =>
      if i.val < n then kBitModelTotal >>> 1 else p.probs[i]
    reps := ⟨1, 1, 1, 1⟩
    state := 0 }

end LzmaTurbo.Lzma
