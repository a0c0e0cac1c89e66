import LzmaTurbo.Lzma.DecodeReal
import LzmaTurbo.Lzma.Dummy

/-!
# Decoding into the dictionary, across input and output limits

`break` out of the main loop is the internal-failure exit. Each turn of the
loop either stops with a result or goes round again.
-/
namespace LzmaTurbo.Lzma
open Machine

def slice (xs : List UInt8) (start stop : ℕ) : Except Fault (List UInt8) :=
  if start ≤ stop ∧ stop ≤ xs.length then .ok ((xs.drop start).take (stop - start))
  else .error .index

def copyInto : List UInt8 → ℕ → Array UInt8 → Except Fault (Array UInt8)
  | [], _, a => .ok a
  | x :: xs, i, a => do
      let a ← put a i x
      copyInto xs (i + 1) a

/-- `while rem < bound && ahead < in_size`, over what is left of the input. -/
def fillTemp (bound : ℕ) : List UInt8 → Array UInt8 → ℕ → ℕ → Except Fault (Array UInt8 × ℕ × ℕ)
  | [], temp, rem, ahead => .ok (temp, rem, ahead)
  | x :: xs, temp, rem, ahead =>
      if rem < bound then do
        let temp ← put temp rem x
        fillTemp bound xs temp (rem + 1) (ahead + 1)
      else .ok (temp, rem, ahead)

def copyRem (dicBufSize rep0 : ℕ) : ℕ → Array UInt8 → ℕ → Except Fault (Array UInt8)
  | 0, dic, _ => .ok dic
  | n + 1, dic, dicPos => do
      let b ← get dic (dicIndex dicBufSize dicPos rep0)
      let dic ← put dic dicPos b
      copyRem dicBufSize rep0 n dic (dicPos + 1)

/-- `check_dic_size` once `len` more bytes are written. -/
def LzmaDec.checkDicSizeAfter (p : LzmaDec) (len : ℕ) : Except Fault ℕ :=
  if p.checkDicSize = 0 then do
    let left ← sub p.prop.dictSize p.processedPos
    .ok (if left ≤ len then p.prop.dictSize else p.checkDicSize)
  else .ok p.checkDicSize

/-- Copies out the tail of a match the previous call could not finish. -/
def lzmaDecWriteRem (p : LzmaDec) (limit : ℕ) : Except Fault LzmaDec := do
  if p.remainLen = 0 then .ok p
  else do
    let rem ← sub limit p.dicPos
    let len := if rem < p.remainLen then u32 rem else p.remainLen
    if len = 0 then .ok p
    else do
      let checkDicSize ← p.checkDicSizeAfter len
      let remainLen ← sub p.remainLen len
      let dic ← copyRem p.dicBufSize p.reps.rep0 len p.dic p.dicPos
      .ok { p with checkDicSize, processedPos := wrappingAdd32 p.processedPos len, remainLen
                   dic, dicPos := p.dicPos + len }

structure DicResult where
  p : LzmaDec
  status : Status
  res : Except Error ℕ

inductive Turn where
  | stop (r : DicResult)
  | again (p : LzmaDec) (srcPos inSize srcLen : ℕ)

def internalFailure (p : LzmaDec) : DicResult :=
  { p := { p with remainLen := kMatchSpecLenErrorFail }, status := .notSpecified
    res := .error .internalFailure }

/-- What follows a call of the fast loop: the byte counts are compared, then the
input is advanced past what the loop read beyond `held` buffered bytes. -/
def afterReal (res : RealResult) (held : ℕ) (agrees : Bool) (tempBufSize : ℕ)
    (srcPos inSize srcLen : ℕ) : Except Fault Turn :=
  if !agrees then .ok (.stop (internalFailure res.p))
  else do
    let processed ← sub res.buf held
    let inSize ← sub inSize processed
    let p := { res.p with tempBufSize }
    if !res.ok then
      .ok (.stop { p := { p with remainLen := kMatchSpecLenErrorData }, status := .notSpecified
                   res := .error .corruptData })
    else .ok (.again p (srcPos + processed) inSize (srcLen + processed))

/-- The branch for an empty temporary buffer. -/
def decodeFromSrc (p : LzmaDec) (dicLimit : ℕ) (src : List UInt8) (checkEndMarkNow : Bool)
    (srcPos inSize srcLen : ℕ) : Except Fault Turn := do
  if inSize < lzmaRequiredInputMax ∨ checkEndMarkNow then do
    let input ← slice src srcPos (srcPos + inSize)
    let (dummyRes, dummyLen) ← lzmaDecTryDummy p input
    if dummyRes = .inputEof then
      if lzmaRequiredInputMax ≤ inSize then .ok (.stop (internalFailure p))
      else do
        let tempBuf ← copyInto input 0 p.tempBuf
        .ok (.stop { p := { p with tempBufSize := inSize, tempBuf }, status := .needsMoreInput
                     res := .ok (srcLen + inSize) })
    else if lzmaRequiredInputMax < dummyLen then .ok (.stop (internalFailure p))
    else if checkEndMarkNow && !dummyRes.endMarkerPossible then do
      let held ← slice src srcPos (srcPos + dummyLen)
      let tempBuf ← copyInto held 0 p.tempBuf
      .ok (.stop { p := { p with tempBufSize := dummyLen, tempBuf }, status := .notFinished
                   res := .error .corruptData })
    else do
      let res ← lzmaDecDecodeReal2 p dicLimit (src.drop srcPos) 0
      afterReal res 0 (dummyLen == res.buf) p.tempBufSize srcPos inSize srcLen
  else do
    let bufLimit ← sub inSize lzmaRequiredInputMax
    let res ← lzmaDecDecodeReal2 p dicLimit (src.drop srcPos) bufLimit
    afterReal res 0 (decide (res.buf ≤ inSize)) p.tempBufSize srcPos inSize srcLen

/-- The branch for data in the temporary buffer: at most one symbol. -/
def decodeFromTemp (p : LzmaDec) (dicLimit : ℕ) (src : List UInt8) (checkEndMarkNow : Bool)
    (srcPos inSize srcLen : ℕ) : Except Fault Turn := do
  let input ← slice src srcPos (srcPos + inSize)
  let (tempBuf, rem, ahead) ←
    fillTemp lzmaRequiredInputMax input p.tempBuf p.tempBufSize 0
  let p := { p with tempBuf }
  if rem < lzmaRequiredInputMax ∨ checkEndMarkNow then do
    let temp ← slice tempBuf.toList 0 rem
    let (dummyRes, dummyLen) ← lzmaDecTryDummy p temp
    if dummyRes = .inputEof then
      if lzmaRequiredInputMax ≤ rem then .ok (.stop (internalFailure p))
      else .ok (.stop { p := { p with tempBufSize := rem }, status := .needsMoreInput
                        res := .ok (srcLen + ahead) })
    else if dummyLen < p.tempBufSize then .ok (.stop (internalFailure p))
    else if checkEndMarkNow && !dummyRes.endMarkerPossible then
      .ok (.stop { p := { p with tempBufSize := dummyLen }, status := .notFinished
                   res := .error .corruptData })
    else do
      let res ← lzmaDecDecodeReal2 p dicLimit tempBuf.toList 0
      afterReal res p.tempBufSize (dummyLen == res.buf) 0 srcPos inSize srcLen
  else do
    let res ← lzmaDecDecodeReal2 p dicLimit tempBuf.toList 0
    afterReal res p.tempBufSize
      (decide (res.buf ≤ lzmaRequiredInputMax ∧ p.tempBufSize ≤ res.buf)) 0 srcPos inSize srcLen

/-- One turn of the main loop. -/
def decodeTurn (p : LzmaDec) (dicLimit : ℕ) (src : List UInt8) (finishMode : FinishMode)
    (srcPos inSize srcLen : ℕ) : Except Fault Turn := do
  if p.remainLen = kMatchSpecLenStart then
    if p.code ≠ 0 then .ok (.stop { p, status := .notSpecified, res := .error .corruptData })
    else .ok (.stop { p, status := .finishedWithMark, res := .ok srcLen })
  else do
    let p ← lzmaDecWriteRem p dicLimit
    if dicLimit ≤ p.dicPos ∧ p.remainLen = 0 ∧ p.code = 0 then
      .ok (.stop { p, status := .maybeFinishedWithoutMark, res := .ok srcLen })
    else if dicLimit ≤ p.dicPos ∧ finishMode = .any then
      .ok (.stop { p, status := .notFinished, res := .ok srcLen })
    else if dicLimit ≤ p.dicPos ∧ p.remainLen ≠ 0 then
      .ok (.stop { p, status := .notFinished, res := .error .corruptData })
    else
      let checkEndMarkNow := decide (dicLimit ≤ p.dicPos)
      if p.tempBufSize = 0 then decodeFromSrc p dicLimit src checkEndMarkNow srcPos inSize srcLen
      else decodeFromTemp p dicLimit src checkEndMarkNow srcPos inSize srcLen

def decodeMain (dicLimit : ℕ) (src : List UInt8) (finishMode : FinishMode) :
    ℕ → LzmaDec → ℕ → ℕ → ℕ → Except Fault DicResult
  | 0, _, _, _, _ => .error .fuel
  | fuel + 1, p, srcPos, inSize, srcLen => do
      match ← decodeTurn p dicLimit src finishMode srcPos inSize srcLen with
      | .stop r => .ok r
      | .again p srcPos inSize srcLen =>
          decodeMain dicLimit src finishMode fuel p srcPos inSize srcLen

/-- The five bytes that start the range coder, big endian. -/
def headerCode (temp : Array UInt8) : Except Fault ℕ := do
  let b1 ← get temp 1
  let b2 ← get temp 2
  let b3 ← get temp 3
  let b4 ← get temp 4
  .ok ((b1.toNat <<< 24) ||| (b2.toNat <<< 16) ||| (b3.toNat <<< 8) ||| b4.toNat)

/-- A turn that writes nothing ends the call or decodes an end marker, so two
turns more than the room to the limit are enough. -/
def lzmaDecDecodeToDic (p : LzmaDec) (dicLimit : ℕ) (src : List UInt8)
    (finishMode : FinishMode) : Except Fault DicResult := do
  let fuel := dicLimit - p.dicPos + 3
  if kMatchSpecLenStart < p.remainLen then
    if kMatchSpecLenStart + 2 < p.remainLen then
      .ok { p, status := .notSpecified
            res := .error (if p.remainLen = kMatchSpecLenErrorFail then .internalFailure
              else .corruptData) }
    else do
      let (tempBuf, tempBufSize, ahead) ← fillTemp rcInitSize src p.tempBuf p.tempBufSize 0
      let p := { p with tempBuf, tempBufSize }
      let first ← get p.tempBuf 0
      if p.tempBufSize ≠ 0 ∧ first ≠ 0 then
        .ok { p, status := .notSpecified, res := .error .corruptData }
      else if p.tempBufSize < rcInitSize then
        .ok { p, status := .needsMoreInput, res := .ok ahead }
      else do
        let code ← headerCode p.tempBuf
        let p := { p with code }
        if p.checkDicSize = 0 ∧ p.processedPos = 0 ∧ kBadRepCode ≤ code then
          .ok { p, status := .notSpecified, res := .error .corruptData }
        else do
          let p := { p with range := 0xFFFFFFFF, tempBufSize := 0 }
          let p := if kMatchSpecLenStart + 1 < p.remainLen then p.resetState else p
          let inSize ← sub src.length ahead
          decodeMain dicLimit src finishMode fuel { p with remainLen := 0 } ahead inSize ahead
  else decodeMain dicLimit src finishMode fuel p 0 src.length 0

end LzmaTurbo.Lzma
