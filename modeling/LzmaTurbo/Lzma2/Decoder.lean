import LzmaTurbo.Lzma.Decoder
import LzmaTurbo.Lzma2.Frame

/-!
# LZMA2 decoding

Chunk framing over the LZMA decoder. As there, `break` is the error exit, and a
turn of the loop stops with a result or goes round again.
-/
namespace LzmaTurbo.Lzma2
open Machine Lzma

structure Lzma2Decoder where
  frame : Lzma2Frame
  decoder : LzmaDec

def Lzma2Decoder.reset (d : Lzma2Decoder) : Lzma2Decoder :=
  { frame := d.frame.init, decoder := d.decoder.init }

theorem dicSizeFromPropFull_lt (prop : ℕ) : dicSizeFromPropFull prop < 2 ^ 32 := by
  unfold dicSizeFromPropFull dicSizeFromProp u32
  split
  · norm_num
  · exact Nat.mod_lt _ (by norm_num)

theorem zero_le_four : 0 ≤ 4 := Nat.zero_le _

theorem zero_le_eight : 0 ≤ 8 := Nat.zero_le _

theorem lzma2LclpMax_le : lzma2LclpMax ≤ 8 := by decide

theorem max_lzmaDicMin_lt {n : ℕ} (h : n < 2 ^ 32) : max n lzmaDicMin < 2 ^ 32 :=
  max_lt h (by decide)

/-- The properties that size the probability table for every chunk. -/
def allocProps (dicSize : ℕ) (h : dicSize < 2 ^ 32) : LzmaProps where
  lc := lzma2LclpMax
  lp := 0
  pb := 0
  dictSize := max dicSize lzmaDicMin
  lc_le := lzma2LclpMax_le
  lp_le := zero_le_four
  pb_le := zero_le_four
  dict_ge := le_max_right _ _
  dict_lt := max_lzmaDicMin_lt h

def Lzma2Decoder.new (dictProp : ℕ) : Except Error Lzma2Decoder :=
  if 40 < dictProp then .error .unsupportedProps
  else .ok (Lzma2Decoder.reset
    { frame := .new
      decoder := .new (allocProps (dicSizeFromPropFull dictProp) (dicSizeFromPropFull_lt _)) })

/-- A dictionary of at most `cap` bytes, rounded up as always. -/
def Lzma2Decoder.newCapped (dictProp cap : ℕ) : Except Error Lzma2Decoder :=
  if 40 < dictProp then .error .unsupportedProps
  else .ok (Lzma2Decoder.reset
    { frame := .new
      decoder := .new (allocProps (min (dicSizeFromPropFull dictProp) cap)
        (lt_of_le_of_lt (min_le_left _ _) (dicSizeFromPropFull_lt _))) })

/-- No dictionary of its own. -/
def Lzma2Decoder.newProbsOnly (dictProp : ℕ) : Except Error Lzma2Decoder :=
  if 40 < dictProp then .error .unsupportedProps
  else .ok (Lzma2Decoder.reset
    { frame := .new
      decoder := .alloc (allocProps (dicSizeFromPropFull dictProp) (dicSizeFromPropFull_lt _)) 0 })

/-- The block's own buffer becomes the dictionary. -/
def Lzma2Decoder.setBlockDic (d : Lzma2Decoder) (buf : Array UInt8) (size : ℕ) : Lzma2Decoder :=
  Lzma2Decoder.reset { d with decoder := { d.decoder with dic := buf, dicBufSize := size } }

structure Dic2Result where
  d : Lzma2Decoder
  status : Status
  res : Except Error ℕ

inductive Turn2 where
  | stop (r : Dic2Result)
  | again (d : Lzma2Decoder) (srcLen : ℕ)

/-- The exit below the loop. -/
def corrupt (d : Lzma2Decoder) : Dic2Result :=
  { d := { d with frame := { d.frame with state := .error } }, status := .notSpecified
    res := .error .corruptData }

/-- A byte of a chunk header. -/
def headerTurn (d : Lzma2Decoder) (dicLimit : ℕ) (src : List UInt8) (srcLen : ℕ) :
    Except Fault Turn2 :=
  if srcLen = src.length then .ok (.stop { d, status := .needsMoreInput, res := .ok srcLen })
  else do
    let b ← byteAt src srcLen
    let (frame, prop) := d.frame.updateState b d.decoder.prop
    let d := { frame, decoder := { d.decoder with prop } }
    if d.decoder.dicPos = dicLimit ∧ d.frame.state ≠ .finished then .ok (.stop (corrupt d))
    else .ok (.again d (srcLen + 1))

/-- Bytes of a stored chunk, at most `outCur` of them. -/
def storedTurn (d : Lzma2Decoder) (src : List UInt8) (srcLen inCur outCur : ℕ) :
    Except Fault Turn2 :=
  if inCur = 0 then .ok (.stop { d, status := .needsMoreInput, res := .ok srcLen })
  else do
    let initDic := d.frame.control == lzma2ControlCopyResetDic
    let d := if d.frame.state = .data then
        { d with decoder := d.decoder.initDicAndState initDic false }
      else d
    let inCur := if outCur < inCur then outCur else inCur
    if inCur = 0 then .ok (.stop (corrupt d))
    else do
      let p := d.decoder
      let bytes ← slice src srcLen (srcLen + inCur)
      let dic ← copyInto bytes p.dicPos p.dic
      let checkDicSize ← p.checkDicSizeAfter (u32 inCur)
      let unpackSize ← sub d.frame.unpackSize (u32 inCur)
      .ok (.again
        { frame := { d.frame with
            unpackSize, state := if unpackSize = 0 then .control else .dataCont }
          decoder := { p with
            dic, dicPos := p.dicPos + inCur, checkDicSize
            processedPos := wrappingAdd32 p.processedPos (u32 inCur) } }
        (srcLen + inCur))

/-- A call of the LZMA decoder for at most `outCur` bytes of a packed chunk. -/
def packedTurn (d : Lzma2Decoder) (src : List UInt8) (srcLen inCur outCur : ℕ)
    (curFinishMode : FinishMode) : Except Fault Turn2 := do
  let initDic := decide (0xE0 ≤ d.frame.control)
  let initState := decide (0xA0 ≤ d.frame.control)
  let d := if d.frame.state = .data then
      { frame := { d.frame with state := .dataCont }
        decoder := d.decoder.initDicAndState initDic initState }
    else d
  let inCur := if d.frame.packSize < inCur then d.frame.packSize else inCur
  let input ← slice src srcLen (srcLen + inCur)
  let r ← lzmaDecDecodeToDic d.decoder (d.decoder.dicPos + outCur) input curFinishMode
  match r.res with
  | .error e => .ok (.stop { d := { d with decoder := r.p }, status := r.status, res := .error e })
  | .ok inCur => do
      let packSize ← sub d.frame.packSize (u32 inCur)
      let outCur ← sub r.p.dicPos d.decoder.dicPos
      let unpackSize ← sub d.frame.unpackSize (u32 outCur)
      let d := { frame := { d.frame with packSize, unpackSize }, decoder := r.p }
      let srcLen := srcLen + inCur
      if r.status = .needsMoreInput then
        if packSize = 0 then .ok (.stop (corrupt d))
        else .ok (.stop { d, status := .needsMoreInput, res := .ok srcLen })
      else if inCur = 0 ∧ outCur = 0 then
        if r.status ≠ .maybeFinishedWithoutMark ∨ unpackSize ≠ 0 ∨ packSize ≠ 0 then
          .ok (.stop (corrupt d))
        else .ok (.again { d with frame := { d.frame with state := .control } } srcLen)
      else .ok (.again d srcLen)

/-- One turn of the loop of `decode_to_dic`. -/
def dicTurn (d : Lzma2Decoder) (dicLimit : ℕ) (src : List UInt8) (finishMode : FinishMode)
    (srcLen : ℕ) : Except Fault Turn2 :=
  if d.frame.state = .error then .ok (.stop (corrupt d))
  else if d.frame.state = .finished then
    .ok (.stop { d, status := .finishedWithMark, res := .ok srcLen })
  else if d.decoder.dicPos = dicLimit ∧ finishMode = .any then
    .ok (.stop { d, status := .notFinished, res := .ok srcLen })
  else if d.frame.state ≠ .data ∧ d.frame.state ≠ .dataCont then headerTurn d dicLimit src srcLen
  else do
    let inCur ← sub src.length srcLen
    let outCur ← sub dicLimit d.decoder.dicPos
    let (outCur, curFinishMode) :=
      if d.frame.unpackSize ≤ outCur then (d.frame.unpackSize, FinishMode.endMark)
      else (outCur, FinishMode.any)
    if isUncompressedState d.frame.control then storedTurn d src srcLen inCur outCur
    else packedTurn d src srcLen inCur outCur curFinishMode

def dicLoop (dicLimit : ℕ) (src : List UInt8) (finishMode : FinishMode) :
    ℕ → Lzma2Decoder → ℕ → Except Fault Dic2Result
  | 0, _, _ => .error .fuel
  | fuel + 1, d, srcLen => do
      match ← dicTurn d dicLimit src finishMode srcLen with
      | .stop r => .ok r
      | .again d srcLen => dicLoop dicLimit src finishMode fuel d srcLen

/-- A turn reads or writes a byte, or closes a chunk that a header byte opened. -/
def Lzma2Decoder.decodeToDic (d : Lzma2Decoder) (dicLimit : ℕ) (src : List UInt8)
    (finishMode : FinishMode) : Except Fault Dic2Result :=
  dicLoop dicLimit src finishMode (2 * (src.length + (dicLimit - d.decoder.dicPos)) + 2) d 0

structure Buf2Result where
  d : Lzma2Decoder
  out : List UInt8
  res : Except Error Progress

def Lzma2Decoder.wrapped (d : Lzma2Decoder) : Lzma2Decoder := { d with decoder := d.decoder.wrapped }

/-- The loop of `decode`. -/
def decodeBuf2 (input : List UInt8) (finish : FinishMode) :
    ℕ → Lzma2Decoder → ℕ → ℕ → List UInt8 → Except Fault Buf2Result
  | 0, _, _, _, _ => .error .fuel
  | fuel + 1, d, outSize, srcPos, out => do
      let d := d.wrapped
      let room ← sub d.decoder.dicBufSize d.decoder.dicPos
      let (outCur, curFinishMode) :=
        if outSize ≤ room then (outSize, finish) else (room, FinishMode.any)
      let src ← slice input srcPos input.length
      let r ← d.decodeToDic (d.decoder.dicPos + outCur) src curFinishMode
      match r.res with
      | .error e => .ok { d := r.d, out, res := .error e }
      | .ok inCur => do
          let outCur ← sub r.d.decoder.dicPos d.decoder.dicPos
          let bytes ← slice r.d.decoder.dic.toList d.decoder.dicPos (d.decoder.dicPos + outCur)
          let outSize ← sub outSize outCur
          let out := out ++ bytes
          if outCur = 0 ∨ outSize = 0 then
            .ok { d := r.d, out
                  res := .ok { read := srcPos + inCur, written := out.length
                               status := r.status } }
          else decodeBuf2 input finish fuel r.d outSize (srcPos + inCur) out

def Lzma2Decoder.decode (d : Lzma2Decoder) (input : List UInt8) (outSize : ℕ)
    (finish : FinishMode) : Except Fault Buf2Result :=
  decodeBuf2 input finish (outSize + 1) d outSize 0 []

end LzmaTurbo.Lzma2
