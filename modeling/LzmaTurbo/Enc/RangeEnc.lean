import LzmaTurbo.Lib.ExactCoder
import LzmaTurbo.Lzma.Decode

/-!
# The range encoder

The 33-bit `low`, the cached byte and the count of pending bytes are those of
the source; `low` and the range local are unsigned words, the counters of bytes
are not. The output stream keeps what it is given and refuses the calls it is
told to refuse.
-/
namespace LzmaTurbo.Enc
open Machine Lzma
open ExactCoder (Op Ask)

def rcBufSize : ℕ := 1 <<< 16

inductive WriteError where
  | write
deriving Repr, DecidableEq

/-- `fails` says which calls of `write` are refused. -/
structure SeqOutStream where
  bytes : List UInt8
  calls : ℕ
  fails : ℕ → Bool

def SeqOutStream.write (out : SeqOutStream) (bytes : List UInt8) :
    Except WriteError Unit × SeqOutStream :=
  if out.fails out.calls then (.error .write, { out with calls := out.calls + 1 })
  else (.ok (), { out with bytes := out.bytes ++ bytes, calls := out.calls + 1 })

structure RangeEnc where
  range : ℕ
  cache : ℕ
  low : ℕ
  cacheSize : ℕ
  buf : List UInt8
  processed : ℕ
  res : Except WriteError Unit

def RangeEnc.init : RangeEnc where
  range := 0xFFFFFFFF
  cache := 0
  low := 0
  cacheSize := 0
  buf := []
  processed := 0
  res := .ok ()

/-- The encoder with the stream it writes to. -/
structure Coding where
  rc : RangeEnc
  out : SeqOutStream

def Coding.flushStream (st : Coding) : Coding :=
  let num := st.rc.buf.length
  match st.rc.res with
  | .error e =>
      { st with rc := { st.rc with res := .error e, processed := st.rc.processed + num, buf := [] } }
  | .ok () =>
      let (res, out) := st.out.write st.rc.buf
      { rc := { st.rc with res, processed := st.rc.processed + num, buf := [] }, out }

def Coding.push (st : Coding) (byte : ℕ) : Coding :=
  let st := { st with rc := { st.rc with buf := st.rc.buf ++ [UInt8.ofNat byte] } }
  if st.rc.buf.length = rcBufSize then st.flushStream else st

/-- The loop that writes the pending bytes. -/
def Coding.drain (high : ℕ) : ℕ → Coding → Coding
  | 0, st => { st with rc := { st.rc with cacheSize := 0 } }
  | n + 1, st => (st.push high).drain high n

def Coding.shiftLow (st : Coding) : Coding :=
  let low := u32 st.rc.low
  let high := u32 (st.rc.low >>> 32)
  let st := { st with rc := { st.rc with low := u32 (low <<< 8) } }
  if low < 0xFF000000 ∨ high ≠ 0 then
    let st := st.push (wrappingAdd32 st.rc.cache high)
    let st := { st with rc := { st.rc with cache := low >>> 24 } }
    st.drain (wrappingAdd32 high 0xFF) st.rc.cacheSize
  else { st with rc := { st.rc with cacheSize := st.rc.cacheSize + 1 } }

def Coding.flushData (st : Coding) : Coding :=
  st.shiftLow.shiftLow.shiftLow.shiftLow.shiftLow

def Coding.normWithRange (st : Coding) (range : ℕ) : ℕ × Coding :=
  if range < kTopValue then (u32 (range <<< 8), st.shiftLow) else (range, st)

def asU32 (a : ℤ) : ℕ := (a % 2 ^ 32).toNat

/-- `RC_BIT` up to its normalisation: the new range and probability. -/
def Coding.bitWithRange (st : Coding) (range prob bit : ℕ) : ℕ × ℕ × Coding :=
  let ttt := prob
  let newBound := boundOf range ttt
  let mask := wrappingSub32 0 bit
  let range := if bit = 0 then newBound else wrappingSub32 range newBound
  let st := { st with rc := { st.rc with low := wrappingAdd64 st.rc.low (newBound &&& mask) } }
  let mask := wrappingSub32 bit 1 &&& (kBitModelTotal - ((1 <<< kNumMoveBits) - 1))
  let mask := wrappingAdd32 mask ((1 <<< kNumMoveBits) - 1)
  let ttt := wrappingAdd32 ttt (asU32 (asI32 (wrappingSub32 mask ttt) >>> kNumMoveBits))
  (range, asU16 ttt, st)

def Coding.encodeBitWithRange (st : Coding) (range prob bit : ℕ) : ℕ × ℕ × Coding :=
  let (range, prob, st) := st.bitWithRange range prob bit
  let (range, st) := st.normWithRange range
  (range, prob, st)

def Coding.encodeBit0BaseWithRange (st : Coding) (range prob : ℕ) : ℕ × ℕ × Coding :=
  let newBound := boundOf range prob
  (newBound, asU16 (prob + ((kBitModelTotal - prob) >>> kNumMoveBits) : ℕ), st)

def Coding.encodeBit1BaseWithRange (st : Coding) (range prob : ℕ) : ℕ × ℕ × Coding :=
  let newBound := boundOf range prob
  (range - newBound, asU16 (prob - (prob >>> kNumMoveBits) : ℕ),
    { st with rc := { st.rc with low := wrappingAdd64 st.rc.low newBound } })

def Coding.encodeBit0WithRange (st : Coding) (range prob : ℕ) : ℕ × ℕ × Coding :=
  let (range, prob, st) := st.encodeBit0BaseWithRange range prob
  let (range, st) := st.normWithRange range
  (range, prob, st)

def Coding.encodeBit1WithRange (st : Coding) (range prob : ℕ) : ℕ × ℕ × Coding :=
  let (range, prob, st) := st.encodeBit1BaseWithRange range prob
  let (range, st) := st.normWithRange range
  (range, prob, st)

/-- A direct bit up to its normalisation. -/
def Coding.directWithRange (st : Coding) (range add : ℕ) : ℕ × Coding :=
  let range := range >>> 1
  (range, { st with rc := { st.rc with low := wrappingAdd64 st.rc.low (range &&& add) } })

def Coding.encodeDirectBitWithRange (st : Coding) (range add : ℕ) : ℕ × Coding :=
  let (range, st) := st.directWithRange range add
  st.normWithRange range

/-- An encoder with the probabilities its bits are coded by. -/
structure Encoding extends Coding where
  probs : Array ℕ

/-- The encoder before its first bit, with a stream that has taken nothing. -/
def Encoding.start (fails : ℕ → Bool) (probs : Array ℕ) : Encoding where
  rc := .init
  out := { bytes := [], calls := 0, fails }
  probs := probs

/-- One bit, the range written back; `add` is all ones for a direct one. -/
def Encoding.encode (e : Encoding) : Op ℕ → Except Fault Encoding
  | .bit slot b => do
      let prob ← get e.probs slot
      let (range, prob, st) := e.toCoding.encodeBitWithRange e.rc.range prob b.toNat
      let probs ← put e.probs slot prob
      .ok { st with rc := { st.rc with range }, probs }
  | .direct b =>
      let (range, st) := e.toCoding.encodeDirectBitWithRange e.rc.range
        (wrappingSub32 0 b.toNat)
      .ok { st with rc := { st.rc with range }, probs := e.probs }

def Encoding.encodes : List (Op ℕ) → Encoding → Except Fault Encoding
  | [], e => .ok e
  | o :: os, e => do
      let e ← e.encode o
      Encoding.encodes os e

/-- The pending bytes and those in the buffer reach the stream. -/
def Encoding.finish (e : Encoding) : Coding := e.toCoding.flushData.flushStream

/-- A decoder procedure for one bit: the branching one, or the one that masks. -/
def decodeAsk (src : List UInt8) (masked : Bool) : Ask ℕ → Rc → Except Fault (Bool × Rc)
  | .bit slot, rc =>
      if masked then do
        let pv ← get rc.probs slot
        let (m, rc) ← maskedBit src slot pv rc
        .ok (decide (m ≠ 0), rc)
      else ifBit src slot rc
  | .direct, rc => do
      let (distance, rc) ← directBits src 1 0 rc
      .ok (decide (distance ≠ 0), rc)

def decodeAsks (src : List UInt8) : List (Bool × Ask ℕ) → Rc → Except Fault (List Bool × Rc)
  | [], rc => .ok ([], rc)
  | (masked, ask) :: asks, rc => do
      let (b, rc) ← decodeAsk src masked ask rc
      let (bs, rc) ← decodeAsks src asks rc
      .ok (b :: bs, rc)

end LzmaTurbo.Enc
