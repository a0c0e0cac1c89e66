import LzmaTurbo.Lzma.State

/-!
# The chunk-header state machine

One byte at a time, shared by the decoder and the scanner.
-/
namespace LzmaTurbo.Lzma2
open Machine Lzma

abbrev lzma2ControlCopyResetDic : ℕ := 1
abbrev lzma2LclpMax : ℕ := 4

def isUncompressedState (control : ℕ) : Bool := control &&& (1 <<< 7) == 0

def dicSizeFromProp (prop : ℕ) : ℕ := u32 ((2 ||| (prop &&& 1)) <<< (prop / 2 + 11))

def dicSizeFromPropFull (prop : ℕ) : ℕ := if prop = 40 then 0xFFFFFFFF else dicSizeFromProp prop

inductive Lzma2State where
  | control
  | unpack0
  | unpack1
  | pack0
  | pack1
  | prop
  | data
  | dataCont
  | finished
  | error
deriving Repr, DecidableEq

structure Lzma2Frame where
  state : Lzma2State
  control : ℕ
  needInitLevel : ℕ
  isExtraMode : Bool
  unpackSize : ℕ
  packSize : ℕ
deriving DecidableEq

def Lzma2Frame.new : Lzma2Frame where
  state := .control
  control := 0
  needInitLevel := 0xE0
  isExtraMode := false
  unpackSize := 0
  packSize := 0

def Lzma2Frame.init (f : Lzma2Frame) : Lzma2Frame :=
  { f with state := .control, needInitLevel := 0xE0, isExtraMode := false, unpackSize := 0 }

theorem lcByte_le (b : ℕ) : b % 9 ≤ 8 := by omega

theorem lpByte_le (b : ℕ) : b / 9 % 5 ≤ 4 := by omega

theorem pbByte_le {b : ℕ} (h : ¬ 9 * 5 * 5 ≤ b) : b / 9 / 5 ≤ 4 := by omega

/-- The property byte of a chunk: literal and position bits, with `lc + lp` at most four. -/
def propByte (b : ℕ) (prop : LzmaProps) : Option LzmaProps :=
  if h : 9 * 5 * 5 ≤ b then none
  else if lzma2LclpMax < b % 9 + b / 9 % 5 then none
  else some (prop.setLclppb (b % 9) (b / 9 % 5) (b / 9 / 5) (lcByte_le b) (lpByte_le b)
    (pbByte_le h))

/-- The next state; the fields before it are written as the source writes them. -/
def Lzma2Frame.updateState (f : Lzma2Frame) (b : ℕ) (prop : LzmaProps) :
    Lzma2Frame × LzmaProps :=
  match f.state with
  | .control =>
      let f := { f with isExtraMode := false, control := b }
      if b = 0 then ({ f with state := .finished }, prop)
      else if isUncompressedState b then
        if b = lzma2ControlCopyResetDic then
          ({ f with state := .unpack0, needInitLevel := 0xC0 }, prop)
        else if 2 < b ∨ f.needInitLevel = 0xE0 then ({ f with state := .error }, prop)
        else ({ f with state := .unpack0 }, prop)
      else if b < f.needInitLevel then ({ f with state := .error }, prop)
      else ({ f with state := .unpack0, needInitLevel := 0
                     unpackSize := (b &&& 0x1F) <<< 16 }, prop)
  | .unpack0 => ({ f with state := .unpack1, unpackSize := f.unpackSize ||| (b <<< 8) }, prop)
  | .unpack1 =>
      ({ f with
        state := if isUncompressedState f.control then .data else .pack0
        unpackSize := (f.unpackSize ||| b) + 1 }, prop)
  | .pack0 => ({ f with state := .pack1, packSize := b <<< 8 }, prop)
  | .pack1 =>
      ({ f with
        state := if f.control &&& 0x40 ≠ 0 then .prop else .data
        packSize := (f.packSize ||| b) + 1 }, prop)
  | .prop =>
      match propByte b prop with
      | none => ({ f with state := .error }, prop)
      | some prop => ({ f with state := .data }, prop)
  | _ => ({ f with state := .error }, prop)

end LzmaTurbo.Lzma2
