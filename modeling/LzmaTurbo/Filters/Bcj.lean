import LzmaTurbo.Errors
import LzmaTurbo.Lib.FirstDiff
import LzmaTurbo.Machine

/-!
# The branch converters, both directions

A buffer is a list of bytes and a word a number below `2 ^ 32`. A converter gives
the buffer back with the number of bytes it has processed. Two searches and the
Thumb converter are written twice in the source, once for `x86_64`.
-/
namespace LzmaTurbo.Filters
open Machine FirstDiff

def le32 (a b c d : UInt8) : ℕ :=
  a.toNat + 2 ^ 8 * b.toNat + 2 ^ 16 * c.toNat + 2 ^ 24 * d.toNat

def bytes32 (v : ℕ) : List UInt8 :=
  [UInt8.ofNat v, UInt8.ofNat (v / 2 ^ 8), UInt8.ofNat (v / 2 ^ 16), UInt8.ofNat (v / 2 ^ 24)]

def swapBytes (v : ℕ) : ℕ :=
  le32 (UInt8.ofNat (v / 2 ^ 24)) (UInt8.ofNat (v / 2 ^ 16)) (UInt8.ofNat (v / 2 ^ 8))
    (UInt8.ofNat v)

def getU32le (d : List UInt8) (i : ℕ) : Except Fault ℕ :=
  match d.drop i with
  | a :: b :: c :: e :: _ => .ok (le32 a b c e)
  | _ => .error .index

def setU32le (d : List UInt8) (i v : ℕ) : Except Fault (List UInt8) :=
  if i + 4 ≤ d.length then .ok (d.take i ++ bytes32 v ++ d.drop (i + 4)) else .error .index

def getU32be (d : List UInt8) (i : ℕ) : Except Fault ℕ :=
  match d.drop i with
  | a :: b :: c :: e :: _ => .ok (le32 e c b a)
  | _ => .error .index

def setU32be (d : List UInt8) (i v : ℕ) : Except Fault (List UInt8) :=
  setU32le d i (swapBytes v)

def getU16le (d : List UInt8) (i : ℕ) : Except Fault ℕ :=
  match d.drop i with
  | a :: b :: _ => .ok (a.toNat + 2 ^ 8 * b.toNat)
  | _ => .error .index

def setU16le (d : List UInt8) (i v : ℕ) : Except Fault (List UInt8) :=
  if i + 2 ≤ d.length then
    .ok (d.take i ++ [UInt8.ofNat v, UInt8.ofNat (v / 2 ^ 8)] ++ d.drop (i + 2))
  else .error .index

def setByte (d : List UInt8) (i v : ℕ) : Except Fault (List UInt8) :=
  if i < d.length then .ok (d.set i (UInt8.ofNat v)) else .error .index

def convertVal (v c : ℕ) (encoding : Bool) : ℕ :=
  if encoding then wrappingAdd32 v c else wrappingSub32 v c

inductive BcjKind where
  | x86
  | ppc
  | ia64
  | arm
  | armThumb
  | sparc
  | arm64
  | riscV
deriving Repr, DecidableEq

namespace BcjKind

def fromFilterId (id : ℕ) : Option BcjKind :=
  match id with
  | 0x04 => some .x86
  | 0x05 => some .ppc
  | 0x06 => some .ia64
  | 0x07 => some .arm
  | 0x08 => some .armThumb
  | 0x09 => some .sparc
  | 0x0A => some .arm64
  | 0x0B => some .riscV
  | _ => none

def alignment : BcjKind → ℕ
  | .x86 => 1
  | .armThumb => 2
  | .riscV => 2
  | .ia64 => 16
  | _ => 4

def lookahead : BcjKind → ℕ
  | .x86 => 4
  | .armThumb => 2
  | .riscV => 6
  | _ => 0

def maxCarry (k : BcjKind) : ℕ := k.alignment + k.lookahead - 1

end BcjKind

/-- Every whole word of a buffer, by its index. -/
def eachWord (f : ℕ → ℕ → ℕ) : ℕ → List UInt8 → List UInt8
  | i, a :: b :: c :: d :: rest => bytes32 (f i (le32 a b c d)) ++ eachWord f (i + 1) rest
  | _, rest => rest

/-- The search of the `x86_64` build passes over the words that fail a test. -/
def searched (x8664 : Bool) (test : ℕ → Bool) (f : ℕ → ℕ → ℕ) (i v : ℕ) : ℕ :=
  if x8664 && !test v then v else f i v

/-- `pc + 4 * index` in `u32`. -/
def wordPc (pc index : ℕ) : ℕ := wrappingAdd32 pc (u32 (u32 index * 4))

def arm64Test (v : ℕ) : Bool :=
  decide (v &&& 0xFC000000 = 0x94000000 ∨ v &&& 0x9F000000 = 0x90000000)

def arm64Word (pc : ℕ) (encoding : Bool) (index v : ℕ) : ℕ :=
  let flag := 1 <<< (24 - 4)
  let mask := (1 <<< 24) - (flag <<< 1)
  let pcHere := wordPc pc index
  if wrappingSub32 v 0x94000000 &&& 0xFC000000 = 0 then
    (convertVal v (pcHere >>> 2) encoding &&& 0x03FFFFFF) ||| 0x94000000
  else
    let v1 := wrappingSub32 v 0x90000000
    if v1 &&& 0x9F000000 = 0 then
      let v2 := wrappingAdd32 v1 flag
      if v2 &&& mask ≠ 0 then v
      else
        let z := (v2 &&& 0xFFFFFFE0) ||| (v2 >>> 26)
        let c := (pcHere >>> (12 - 3)) &&& not32 7
        let z := convertVal z c encoding
        (((v2 &&& 0x1F) ||| 0x90000000) ||| u32 (z <<< 26)) |||
          (0x00FFFFE0 &&& wrappingSub32 (z &&& ((flag <<< 1) - 1)) flag)
    else v

def arm64Conv (x8664 : Bool) (data : List UInt8) (pc : ℕ) (encoding : Bool) : List UInt8 × ℕ :=
  (eachWord (searched x8664 arm64Test (arm64Word pc encoding)) 0 data, data.length / 4 * 4)

def armWord (pc : ℕ) (encoding : Bool) (index v : ℕ) : ℕ :=
  if v / 2 ^ 24 = 0xEB then
    let c := wrappingAdd32 (wordPc pc index) 8 >>> 2
    (convertVal v c encoding &&& 0x00FFFFFF) ||| 0xEB000000
  else v

def armConv (data : List UInt8) (pc : ℕ) (encoding : Bool) : List UInt8 × ℕ :=
  (eachWord (armWord pc encoding) 0 data, data.length / 4 * 4)

def ppcWord (pc : ℕ) (encoding : Bool) (index v : ℕ) : ℕ :=
  if wrappingSub32 v 0x01000048 &&& 0x030000FC = 0 then
    let c := wordPc pc index
    swapBytes ((convertVal (swapBytes v) c encoding &&& 0x03FFFFFF) ||| 0x48000000)
  else v

def ppcConv (data : List UInt8) (pc : ℕ) (encoding : Bool) : List UInt8 × ℕ :=
  (eachWord (ppcWord pc encoding) 0 data, data.length / 4 * 4)

def rotateLeft (v n : ℕ) : ℕ := u32 (v <<< n) ||| (v >>> (32 - n))
def rotateRight (v n : ℕ) : ℕ := (v >>> n) ||| u32 (v <<< (32 - n))

/-- On the first two bytes as the source reads them, low byte first. -/
def sparcTest (v : ℕ) : Bool :=
  let h := (v % 2 ^ 16) &&& 0xC0FF
  decide (h = 0x0040 ∨ h = 0xC07F)

def sparcWord (pc : ℕ) (encoding : Bool) (index v : ℕ) : ℕ :=
  let flag := 1 <<< 22
  let v1 := wrappingAdd32 (rotateLeft (swapBytes v) 2) ((flag <<< 2) - 1)
  if v1 &&& wrappingSub32 3 (flag <<< 3) = 0 then
    let v2 := convertVal v1 (wordPc pc index) encoding &&& ((flag <<< 3) - 1)
    swapBytes (rotateRight (wrappingSub32 v2 ((flag <<< 2) - 1)) 2)
  else v

def sparcConv (x8664 : Bool) (data : List UInt8) (pc : ℕ) (encoding : Bool) : List UInt8 × ℕ :=
  (eachWord (searched x8664 sparcTest (sparcWord pc encoding)) 0 data, data.length / 4 * 4)

/-- The halfword pair of a long branch, converted. -/
def armtPair (c : ℕ) (encoding : Bool) (first second : ℕ) : ℕ :=
  convertVal ((first <<< 11) ||| (second &&& 0x7FF)) c encoding

/-- The turns of `armt_word_conv` over `rest`, `p` bytes on. -/
def armtWordLoop (pc : ℕ) (encoding : Bool) (p : ℕ) : List UInt8 → List UInt8 × ℕ
  | a :: b :: c :: d :: rest =>
      let word := le32 a b c d
      if word &&& 0xF800F800 = 0xF800F000 then
        let at' := wrappingAdd32 (wrappingAdd32 pc (u32 p)) 4 >>> 1
        let v := armtPair at' encoding (word &&& 0xFFFF) (word >>> 16)
        let first := ((v >>> 11) &&& 0x7FF) ||| 0xF000
        let second := v ||| 0xF800
        let (out, p) := armtWordLoop pc encoding (p + 4) rest
        (bytes32 (first ||| u32 (second <<< 16)) ++ out, p)
      else
        let (out, p) := armtWordLoop pc encoding (p + 2) (c :: d :: rest)
        (a :: b :: out, p)
  | rest => (rest, p)

/-- The `x86_64` converter; an odd last byte is not looked at. -/
def armtWordConv (data : List UInt8) (pc : ℕ) (encoding : Bool) : List UInt8 × ℕ :=
  let size := data.length / 2 * 2
  let (out, p) := armtWordLoop pc encoding 0 (data.take size)
  (out ++ data.drop size, p)

/-- The scan for a pair of high bytes from `p` on: the index of the pair's second
halfword, or where the scan ended. -/
def armtScan (data : List UInt8) (lim : ℕ) : ℕ → ℕ → ℕ → Except Fault (ℕ × Bool)
  | 0, _, _ => .error .fuel
  | fuel + 1, p, b1 =>
      if lim ≤ p then .ok (p, false)
      else do
        let b3 ← byteAt data (p + 3)
        let p := p + 2
        if 0xF8 ≤ b3 &&& (b1 ^^^ 8) then .ok (p, true)
        else if lim ≤ p then .ok (p, false)
        else do
          let b1 ← byteAt data (p + 3)
          let p := p + 2
          if 0xF8 ≤ b1 &&& (b3 ^^^ 8) then .ok (p, true)
          else armtScan data lim fuel p b1

def armtByteLoop (pc : ℕ) (encoding : Bool) (lim : ℕ) :
    ℕ → List UInt8 → ℕ → Except Fault (List UInt8 × ℕ)
  | 0, _, _ => .error .fuel
  | fuel + 1, data, p => do
      let b1 ← byteAt data (p + 1)
      let (p, found) ← armtScan data lim (data.length + 1) p b1
      if found then
        let first ← getU16le data (p - 2)
        let second ← getU16le data p
        let p := p + 2
        let v := armtPair (wrappingAdd32 pc (u32 p) >>> 1) encoding first second
        let data ← setU16le data (p - 4) (((v >>> 11) &&& 0x7FF) ||| 0xF000)
        let data ← setU16le data (p - 2) (v ||| 0xF800)
        if lim ≤ p then .ok (data, p) else armtByteLoop pc encoding lim fuel data p
      else .ok (data, p)

/-- The converter of the other targets. -/
def armtBytewiseConv (data : List UInt8) (pc : ℕ) (encoding : Bool) :
    Except Fault (List UInt8 × ℕ) :=
  let size := data.length / 2 * 2
  if size ≤ 2 then .ok (data, 0)
  else armtByteLoop pc encoding (size - 2) (data.length + 1) data 0

def armtConv (x8664 : Bool) (data : List UInt8) (pc : ℕ) (encoding : Bool) :
    Except Fault (List UInt8 × ℕ) :=
  if x8664 then .ok (armtWordConv data pc encoding) else armtBytewiseConv data pc encoding

/-- One slot of a bundle. -/
def ia64Value (encoding : Bool) (pc z m : ℕ) : ℕ × ℕ :=
  let keep := (0x8FFFFF <<< 1) ||| 1
  let low := (0x1FFFFF <<< 1) ||| 1
  let v := keep &&& z
  let z := z ^^^ v
  let pc := if encoding then pc &&& low else pc ||| not32 low
  let v := if encoding then wrappingAdd32 v pc else wrappingSub32 v pc
  let v := v &&& not32 (0x600000 <<< 1)
  let v := wrappingAdd32 v (0x700000 <<< 1) &&& keep
  (u32 ((z ||| v) <<< m), pc)

/-- The slots of a bundle from the `m`th on. -/
def ia64Slots (encoding : Bool) :
    ℕ → List UInt8 → ℕ → ℕ → ℕ → Except Fault (List UInt8 × ℕ × ℕ)
  | 0, _, _, _, _ => .error .fuel
  | fuel + 1, data, p, pc, m => do
      let t ← getU16le data p
      let word ← getU32le data (p + 1)
      let z := word >>> m
      let p := p + 5
      let (data, pc) ←
        if (t >>> m) &&& (0x70 <<< 1) = 0 ∧
            wrappingSub32 z (0x05000000 <<< 1) &&& (0x0F000000 <<< 1) = 0 then do
          let (v, pc) := ia64Value encoding pc z m
          let data ← setU32le data (p + 1 - 5) v
          .ok (data, pc)
        else .ok (data, pc)
      let m := (m + 1) &&& 3
      if m = 0 then .ok (data, p, pc) else ia64Slots encoding fuel data p pc m

def ia64Loop (encoding : Bool) (lim : ℕ) :
    ℕ → List UInt8 → ℕ → ℕ → Except Fault (List UInt8 × ℕ)
  | 0, _, _, _ => .error .fuel
  | fuel + 1, data, p, pc =>
      if p = lim then .ok (data, p)
      else do
        let b ← byteAt data p
        let m := (0x334B0000 >>> (b &&& 0x1E)) &&& 3
        let p := p + 16
        let pc := wrappingAdd32 pc (1 <<< 1)
        if m = 0 then ia64Loop encoding lim fuel data p pc
        else do
          let p ← sub (p + m * 5) 20
          let (data, p, pc) ← ia64Slots encoding 4 data p pc m
          ia64Loop encoding lim fuel data p pc

def ia64Conv (data : List UInt8) (pc : ℕ) (encoding : Bool) : Except Fault (List UInt8 × ℕ) :=
  ia64Loop encoding (data.length / 16 * 16) (data.length + 1) data 0
    (wrappingSub32 pc (1 <<< 4) >>> 3)

/-- The bytes `0x01`, `0x80` and `0xE9`, `n` times each. -/
def ones (n : ℕ) : ℕ := leWord (List.replicate n 0x01)
def high (n : ℕ) : ℕ := leWord (List.replicate n 0x80)
def e9s (n : ℕ) : ℕ := leWord (List.replicate n 0xE9)

/-- The high bit of every byte of a word that is `0xE8` or `0xE9`, and of some after it. -/
def branchHits (word : ℕ) : ℕ :=
  let t := (word ||| ones 8) ^^^ e9s 8
  (wrappingSub64 t (ones 8) &&& (2 ^ 64 - 1 - t)) &&& high 8

def branchByteScalar (hay : List UInt8) : Option ℕ :=
  hay.findIdx? fun b => b == 0xE8 || b == 0xE9

/-- The words of `find_branch_byte`, `off` bytes on, and the bytes after the last one. -/
def findBranchLoop : ℕ → List UInt8 → ℕ → Option ℕ
  | 0, _, _ => none
  | fuel + 1, hay, off =>
      if 8 ≤ hay.length then
        let hits := branchHits (leWord (hay.take 8))
        if hits ≠ 0 then some (off + trailingZeros 64 hits / 8)
        else findBranchLoop fuel (hay.drop 8) (off + 8)
      else (branchByteScalar hay).map fun i => off + i

def findBranchByte (hay : List UInt8) : Option ℕ := findBranchLoop (hay.length + 1) hay 0

def needConvMsByte (b : ℕ) : Bool := decide ((b % 2 ^ 8 + 1) % 2 ^ 8 &&& 0xFE = 0)

def isBcjByte (v n : ℕ) : Bool := decide (v &&& (0xFE <<< (n * 8)) = 0)

inductive X86Label where
  | cont
  | start
  | mid
  | mainLoop
  | a3

/-- One pass of the loop over the labels: where it goes on, or where it breaks off. -/
structure X86State where
  label : X86Label
  data : List UInt8
  p : ℕ
  mask : ℕ

inductive X86Turn where
  | next (s : X86State)
  | stop (s : X86State)

def x86Start (s : X86State) (lim : ℕ) : Except Fault X86Turn :=
  if lim ≤ s.p then .ok (.stop s)
  else do
    let word ← getU32le s.data s.p
    let v := word ^^^ 0xE8E8E8E8
    if isBcjByte v 0 then .ok (.next { s with label := .mid, p := s.p + 1 })
    else if isBcjByte v 1 then
      .ok (.next { s with label := .mid, p := s.p + 2, mask := s.mask >>> 1 })
    else if isBcjByte v 2 then
      .ok (.next { s with label := .mid, p := s.p + 3, mask := s.mask >>> 1 >>> 1 })
    else .ok (.next { s with
      label := if isBcjByte v 3 then .a3 else .mainLoop
      p := s.p + 4
      mask := 0 })

/-- The operand at `p`: nothing when its high byte says it is not one. -/
def x86Operand (s : X86State) : Except Fault (Option ℕ) := do
  let word ← getU32le s.data s.p
  let v := wrappingAdd32 word (1 <<< 24)
  .ok (if v &&& 0xFE000000 ≠ 0 then none else some v)

def x86Store (s : X86State) (v : ℕ) : Except Fault X86Turn := do
  let v := wrappingSub32 (v &&& ((1 <<< 25) - 1)) (1 <<< 24)
  let data ← setU32le s.data s.p v
  .ok (.next { s with label := .mainLoop, data, p := s.p + 4 })

/-- An operand whose byte at `mask` would look like a high byte is turned around. -/
def x86Turned (v c mask : ℕ) (encoding : Bool) : ℕ :=
  let v := convertVal v c encoding
  let sh := mask <<< 3
  if needConvMsByte (v >>> sh) then
    convertVal (v ^^^ wrappingSub32 (u32 (0x100 <<< sh)) 1) c encoding
  else v

def x86Mid (s : X86State) (lim pc4 : ℕ) (encoding : Bool) : Except Fault X86Turn :=
  if s.mask = 0 then .ok (.next { s with label := .a3 })
  else if lim < s.p then .ok (.stop { s with p := s.p - 1 })
  else if 4 < s.mask ∨ s.mask = 3 then
    .ok (.next { s with label := .cont, mask := s.mask >>> 1 })
  else do
    let s := { s with mask := s.mask >>> 1 }
    let b ← byteAt s.data (s.p + s.mask)
    if needConvMsByte b then .ok (.next { s with label := .cont })
    else
      match ← x86Operand s with
      | none => .ok (.next { s with label := .cont })
      | some v =>
          x86Store { s with mask := 0 }
            (x86Turned v (wrappingAdd32 pc4 (u32 s.p)) s.mask encoding)

def x86MainLoop (s : X86State) (lim : ℕ) : Except Fault X86Turn :=
  if lim ≤ s.p then .ok (.stop s)
  else
    let strideEnd := s.p + 4 * ((lim - s.p + 3) / 4)
    if s.data.length < strideEnd then .error .index
    else
      match findBranchByte ((s.data.take strideEnd).drop s.p) with
      | some off => .ok (.next { s with label := .a3, p := s.p + off + 1 })
      | none => .ok (.stop { s with p := strideEnd })

def x86A3 (s : X86State) (lim pc4 : ℕ) (encoding : Bool) : Except Fault X86Turn :=
  if lim < s.p then .ok (.stop { s with p := s.p - 1 })
  else do
    match ← x86Operand s with
    | none => .ok (.next { s with label := .cont })
    | some v => x86Store s (convertVal v (wrappingAdd32 pc4 (u32 s.p)) encoding)

def x86Turn (lim pc4 : ℕ) (encoding : Bool) (s : X86State) : Except Fault X86Turn :=
  match s.label with
  | .cont => .ok (.next { s with label := .start, mask := s.mask ||| 4 })
  | .start => x86Start s lim
  | .mid => x86Mid s lim pc4 encoding
  | .mainLoop => x86MainLoop s lim
  | .a3 => x86A3 s lim pc4 encoding

def x86Loop (lim pc4 : ℕ) (encoding : Bool) : ℕ → X86State → Except Fault X86State
  | 0, _ => .error .fuel
  | fuel + 1, s => do
      match ← x86Turn lim pc4 encoding s with
      | .next s => x86Loop lim pc4 encoding fuel s
      | .stop s => .ok s

/-- The buffer, what was processed and the state kept for the next call. -/
def x86Conv (data : List UInt8) (pc state : ℕ) (encoding : Bool) :
    Except Fault (List UInt8 × ℕ × ℕ) :=
  if data.length < 5 then .ok (data, 0, state)
  else do
    let s ← x86Loop (data.length - 4) (wrappingAdd32 pc 4) encoding (4 * data.length + 20)
      { label := .start, data, p := 0, mask := state }
    .ok (s.data, s.p, s.mask)

def riscvCheck1 (v b : ℕ) : Bool :=
  decide ((wrappingSub32 b 3 ^^^ u32 (v <<< 8)) &&& (0xF8000 + 3) = 0)

def riscvCheck2 (v r : ℕ) : Bool :=
  decide (u32 (wrappingSub32 v ((3 <<< 12) ||| (2 <<< 7) ||| 8) <<< 18) < r &&& 0x1D)

/-- A halfword as the scan tests it. -/
def riscvKey (h : ℕ) : ℕ := wrappingAdd32 (h ^^^ 0x10) 1

/-- The scan for an opcode from `p` on, two halfwords a turn; nothing when it ends first. -/
def riscvScan (data : List UInt8) (lim : ℕ) : ℕ → ℕ → Except Fault (ℕ × Option ℕ)
  | 0, _ => .error .fuel
  | fuel + 1, p =>
      if lim ≤ p then .ok (p, none)
      else do
        let h ← getU16le data p
        let a := riscvKey h
        if a &&& 0x77 = 0 then .ok (p, some a)
        else do
          let h ← getU16le data (p + 2)
          let a := riscvKey h
          if a &&& 0x77 = 0 then
            if lim ≤ p + 2 then .ok (p + 2, none) else .ok (p + 2, some a)
          else riscvScan data lim fuel (p + 4)

/-- A decoder's turn at the opcode found at `p`. -/
def riscvDecodeAt (data : List UInt8) (pc p a : ℕ) : Except Fault (List UInt8 × ℕ) :=
  if a &&& 8 = 0 then
    let a := wrappingSub32 a (0x100 - 0x7F)
    if a &&& 0xD80 ≠ 0 then .ok (data, p + 2)
    else do
      let aOld := wrappingAdd32 a (0xEF - 0x7F) &&& 0xFFF
      let b3 ← byteAt data (p + 3)
      let b2 ← byteAt data (p + 2)
      let v := ((b3 <<< 1) ||| (b2 <<< 9)) ||| u32 ((a &&& 0xF000) <<< 5)
      let v := wrappingSub32 v (wrappingAdd32 pc (u32 p))
      let a := aOld ||| (u32 (v <<< 11) &&& (1 <<< 31)) ||| (u32 (v <<< 20) &&& (0x3FF <<< 21)) |||
        (u32 (v <<< 9) &&& (1 <<< 20)) ||| (v &&& (0xFF <<< 12))
      let data ← setU32le data p a
      .ok (data, p + 4)
  else do
    let v0 := a
    let a ← getU32le data p
    if v0 &&& 0xE80 = 0 then
      let r := a >>> 27
      if riscvCheck2 v0 r then
        let b ← getU32be data (p + 4)
        let v := a >>> 12
        let b := wrappingSub32 b (wrappingAdd32 pc (u32 p))
        let w := (r <<< 7) + 0x17
        let w := wrappingAdd32 w (wrappingAdd32 b 0x800 &&& 0xFFFFF000)
        let v := v ||| u32 (b <<< 20)
        let data ← setU32le data p w
        let data ← setU32le data (p + 4) v
        .ok (data, p + 8)
      else .ok (data, p + 4)
    else do
      let b ← getU32le data (p + 4)
      if riscvCheck1 v0 b then
        let v := (a &&& 0xFFFFF000) ||| (b >>> 20)
        let w := u32 (b <<< 12) ||| (0x17 + (2 <<< 7))
        let data ← setU32le data p w
        let data ← setU32le data (p + 4) v
        .ok (data, p + 8)
      else .ok (data, p + 6)

/-- An encoder's turn. -/
def riscvEncodeAt (data : List UInt8) (pc p v0 : ℕ) : Except Fault (List UInt8 × ℕ) := do
  let a ← getU32le data p
  if v0 &&& 8 = 0 then
    if wrappingSub32 v0 0x100 &&& 0xD80 ≠ 0 then .ok (data, p + 2)
    else do
      let v := ((a &&& (1 <<< 31)) >>> 11) ||| ((a &&& (0x3FF <<< 21)) >>> 20) |||
        ((a &&& (1 <<< 20)) >>> 9) ||| (a &&& (0xFF <<< 12))
      let v := wrappingAdd32 v (wrappingAdd32 pc (u32 p))
      let data ← setByte data (p + 1) (((v >>> 13) &&& 0xF0) ||| ((a >>> 8) &&& 0xF))
      let data ← setByte data (p + 2) (v >>> 9)
      let data ← setByte data (p + 3) (v >>> 1)
      .ok (data, p + 4)
  else if v0 &&& 0xE80 ≠ 0 then do
    let b ← getU32le data (p + 4)
    if riscvCheck1 v0 b then
      let temp := u32 (b <<< 12) ||| (0x17 + (2 <<< 7))
      let data ← setU32le data p temp
      let w := a &&& 0xFFFFF000
      let w := wrappingAdd32 w (wrappingSub32 (b >>> 20) ((b >>> 19) &&& 0x1000))
      let w := wrappingAdd32 w (wrappingAdd32 pc (u32 p))
      let data ← setU32be data (p + 4) w
      .ok (data, p + 8)
    else .ok (data, p + 6)
  else
    let r := a >>> 27
    if riscvCheck2 v0 r then do
      let v ← getU32le data (p + 4)
      let w := wrappingAdd32 ((r <<< 7) + 0x17) (v &&& 0xFFFFF000)
      let a := (a >>> 12) ||| u32 (v <<< 20)
      let data ← setU32le data p w
      let data ← setU32le data (p + 4) a
      .ok (data, p + 8)
    else .ok (data, p + 4)

/-- The turns of either direction. -/
def riscvLoop (turn : List UInt8 → ℕ → ℕ → ℕ → Except Fault (List UInt8 × ℕ)) (pc lim : ℕ) :
    ℕ → List UInt8 → ℕ → Except Fault (List UInt8 × ℕ)
  | 0, _, _ => .error .fuel
  | fuel + 1, data, p => do
      match ← riscvScan data lim (data.length + 1) p with
      | (p, none) => .ok (data, p)
      | (p, some a) =>
          let (data, p) ← turn data pc p a
          riscvLoop turn pc lim fuel data p

def riscvRun (turn : List UInt8 → ℕ → ℕ → ℕ → Except Fault (List UInt8 × ℕ))
    (data : List UInt8) (pc : ℕ) : Except Fault (List UInt8 × ℕ) :=
  let size := data.length / 2 * 2
  if size ≤ 6 then .ok (data, 0) else riscvLoop turn pc (size - 6) (data.length + 1) data 0

def riscvDecode (data : List UInt8) (pc : ℕ) : Except Fault (List UInt8 × ℕ) :=
  riscvRun riscvDecodeAt data pc

def riscvEncode (data : List UInt8) (pc : ℕ) : Except Fault (List UInt8 × ℕ) :=
  riscvRun riscvEncodeAt data pc

/-- A converter with the address of its next byte and the bits the x86 one keeps. -/
structure Bcj where
  kind : BcjKind
  pc : ℕ
  state : ℕ
deriving Repr, DecidableEq

namespace Bcj

def new (kind : BcjKind) (startOffset : ℕ) : Except XzErrorKind Bcj :=
  if startOffset % kind.alignment = 0 then .ok { kind, pc := startOffset, state := 0 }
  else .error .badFilterChain

/-- The converter of a kind in one direction. -/
def convert (x8664 encoding : Bool) (b : Bcj) (data : List UInt8) :
    Except Fault (List UInt8 × ℕ × ℕ) :=
  match b.kind with
  | .x86 => x86Conv data b.pc b.state encoding
  | .ppc => let (d, n) := ppcConv data b.pc encoding; .ok (d, n, b.state)
  | .ia64 => do let (d, n) ← ia64Conv data b.pc encoding; .ok (d, n, b.state)
  | .arm => let (d, n) := armConv data b.pc encoding; .ok (d, n, b.state)
  | .armThumb => do let (d, n) ← armtConv x8664 data b.pc encoding; .ok (d, n, b.state)
  | .sparc => let (d, n) := sparcConv x8664 data b.pc encoding; .ok (d, n, b.state)
  | .arm64 => let (d, n) := arm64Conv x8664 data b.pc encoding; .ok (d, n, b.state)
  | .riscV => do
      let (d, n) ← if encoding then riscvEncode data b.pc else riscvDecode data b.pc
      .ok (d, n, b.state)

/-- The converted buffer, how much of it is final, and the converter for what follows. -/
def run (x8664 encoding : Bool) (b : Bcj) (data : List UInt8) :
    Except Fault (List UInt8 × ℕ × Bcj) := do
  let (data, n, state) ← convert x8664 encoding b data
  .ok (data, n, { b with state, pc := wrappingAdd32 b.pc (u32 n) })

def decode (x8664 : Bool) (b : Bcj) (data : List UInt8) :
    Except Fault (List UInt8 × ℕ × Bcj) := run x8664 false b data

def encode (x8664 : Bool) (b : Bcj) (data : List UInt8) :
    Except Fault (List UInt8 × ℕ × Bcj) := run x8664 true b data

end Bcj

end LzmaTurbo.Filters
