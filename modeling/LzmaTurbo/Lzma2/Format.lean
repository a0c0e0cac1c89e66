import LzmaTurbo.Lzma.ReferenceLaws

/-!
# The LZMA2 chunk grammar

What a stream of chunks means, with whole headers and an unbounded output and
nothing cut anywhere. A packed chunk is judged once its packed bytes are all
there: it has to use them up, end on its unpacked size between two symbols, and
leave a zero range code.
-/
namespace LzmaTurbo.Lzma2
open Lzma StreamMachine

/-- Between two chunks. `need` is the least control byte a packed chunk may have,
`base` the output before the last dictionary reset, `s` the decoder and the output since. -/
structure Ref2 where
  prop : LzmaProps
  need : ℕ
  base : List UInt8
  s : RefState

inductive Pos where
  | chunk (r : Ref2)
  | stored (r : Ref2) (n : ℕ)
  | packed (prop : LzmaProps) (base : List UInt8) (c : Config) (target pack : ℕ)

abbrev StepTo2 := Step Pos Unit UInt8

def be16 (hi lo : UInt8) : ℕ := hi.toNat * 2 ^ 8 + lo.toNat

def Ref2.resetDic (r : Ref2) : Ref2 :=
  { r with base := r.s.hist ++ r.base, s := { r.s with hist := [] } }

def Ref2.push (r : Ref2) (b : UInt8) : Ref2 := { r with s := { r.s with hist := b :: r.s.hist } }

/-- The stored chunks: control byte 1 resets the dictionary, 2 does not. -/
def Ref2.openStored (r : Ref2) (control size : ℕ) : Pos :=
  if control = 1 then .stored { r.resetDic with need := 0xC0 } size else .stored r size

/-- The packed chunks: the two high bits after the first say what is reset. -/
def Ref2.openPacked (r : Ref2) (control unpack pack : ℕ) : Pos :=
  let r := if 0xE0 ≤ control then r.resetDic else r
  let s := if 0xA0 ≤ control then freshState r.s.hist else r.s
  .packed r.prop r.base (.header s) (s.hist.length + unpack) pack

/-- The property byte, with `lc + lp` at most four. -/
def chunkProps (b : ℕ) (prop : LzmaProps) : Option LzmaProps :=
  if h : 225 ≤ b then none
  else if 4 < b % 9 + b / 9 % 5 then none
  else some { prop with
    lc := b % 9, lp := b / 9 % 5, pb := b / 45
    lc_le := by omega, lp_le := by omega, pb_le := by omega }

def chunkStep (r : Ref2) : List UInt8 → StepTo2
  | [] => .more
  | b :: xs =>
      if b = 0 then .mark () xs
      else if b < 0x80 then
        if b = 1 ∨ b = 2 ∧ r.need ≠ 0xE0 then
          match xs with
          | u1 :: u0 :: rest => .next (r.openStored b.toNat (be16 u1 u0 + 1)) rest
          | _ => .more
        else .reject
      else if b.toNat < r.need then .reject
      else
        match xs with
        | u1 :: u0 :: p1 :: p0 :: rest =>
            let unpack := b.toNat % 32 * 2 ^ 16 + be16 u1 u0 + 1
            let pack := be16 p1 p0 + 1
            if b < 0xC0 then .next (r.openPacked b.toNat unpack pack) rest
            else
              match rest with
              | [] => .more
              | d :: rest =>
                  match chunkProps d.toNat r.prop with
                  | none => .reject
                  | some prop => .next ({ r with prop }.openPacked b.toNat unpack pack) rest
        | _ => .more

def storedStep (r : Ref2) (n : ℕ) : List UInt8 → StepTo2
  | [] => .more
  | b :: rest =>
      if n ≤ 1 then .next (.chunk (r.push b)) rest else .next (.stored (r.push b) (n - 1)) rest

def Config.state : Config → RefState
  | .header s => s
  | .body s => s

def packedStep (prop : LzmaProps) (base : List UInt8) (c : Config) (target pack : ℕ)
    (xs : List UInt8) : StepTo2 :=
  if c.hist.length < target then
    match c.step prop (xs.take pack) with
    | .more => if pack ≤ xs.length then .reject else .more
    | .next c' ys =>
        let read := (xs.take pack).length - ys.length
        .next (.packed prop base c' target (pack - read)) (xs.drop read)
    | _ => .reject
  else if target < c.hist.length then .reject
  else if pack = 0 then
    if c.coder.code = 0 then .next (.chunk ⟨prop, 0, base, Config.state c⟩) xs else .reject
  else if pack ≤ xs.length then .reject
  else .more

def Pos.step : Pos → List UInt8 → StepTo2
  | .chunk r, xs => chunkStep r xs
  | .stored r n, xs => storedStep r n xs
  | .packed prop base c target pack, xs => packedStep prop base c target pack xs

/-- The output, newest byte first; of a symbol that passes the unpacked size only what fits. -/
def Pos.out : Pos → List UInt8
  | .chunk r => r.s.hist ++ r.base
  | .stored r _ => r.s.hist ++ r.base
  | .packed _ base c target _ => c.hist.drop (c.hist.length - target) ++ base

def Pos.measure (pos : Pos) (xs : List UInt8) : ℕ :=
  xs.length * (2 ^ 32 + 2) + match pos with
    | .packed _ _ (.body s) _ _ => s.coder.range + 1
    | .packed .. => 1
    | _ => 0

def Pos.start (prop : LzmaProps) : Pos := .chunk ⟨prop, 0xE0, [], freshState []⟩

/-- What the grammar makes of a stream. -/
structure Result2 where
  out : List UInt8
  rest : List UInt8
  verdict : Lzma.Verdict
deriving DecidableEq

def Result2.of (r : Result Pos Unit UInt8) : Result2 where
  out := r.last.out.reverse
  rest := r.rest
  verdict := match r.verdict with
    | .more => .more
    | .reject => .reject
    | .mark _ => .mark

def format2 (prop : LzmaProps) (xs : List UInt8) : Result2 :=
  .of (run Pos.step Pos.measure (Pos.start prop) xs)

end LzmaTurbo.Lzma2
