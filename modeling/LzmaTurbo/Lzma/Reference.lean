import LzmaTurbo.Lib.RunLaws
import LzmaTurbo.Lib.StreamMachine
import LzmaTurbo.Lib.Window
import LzmaTurbo.Lzma.State
import LzmaTurbo.Lzma.SymbolLaws

/-!
# A reference decoder: one symbol at a time over an unbounded history

The history is the whole output, newest byte first; the dictionary size only
says how far back a distance may reach. There are no buffers and no limits, and
a symbol is either wholly there or not yet.
-/
namespace LzmaTurbo.Lzma
open BitProgram RangeDecoder Window

structure RefState where
  coder : Coder ℕ
  state : ℕ
  reps : Reps
  hist : List UInt8

def litState (st : ℕ) : ℕ := if st < 4 then 0 else if st < 10 then st - 3 else st - 6
def matchState (st : ℕ) : ℕ := if st < 7 then 7 else 10
def repState (st : ℕ) : ℕ := if st < 7 then 8 else 11
def shortRepState (st : ℕ) : ℕ := if st < 7 then 9 else 11

def Reps.nth (r : Reps) : ℕ → ℕ
  | 0 => r.rep0
  | 1 => r.rep1
  | 2 => r.rep2
  | _ => r.rep3

/-- The chosen distance moves to the front. -/
def Reps.front (r : Reps) : ℕ → Reps
  | 0 => r
  | 1 => ⟨r.rep1, r.rep0, r.rep2, r.rep3⟩
  | 2 => ⟨r.rep2, r.rep0, r.rep1, r.rep3⟩
  | _ => ⟨r.rep3, r.rep0, r.rep1, r.rep2⟩

variable (prop : LzmaProps)

/-- The literal table is chosen by low position bits and high bits of the last byte. -/
def litProbOf (hist : List UInt8) : ℕ :=
  literal + lzmaLitSize *
    (hist.length % 2 ^ prop.lp * 2 ^ prop.lc + (hist.headD 0).toNat / 2 ^ (8 - prop.lc))

def RefState.ctx (s : RefState) : Ctx where
  posState := s.hist.length % 2 ^ prop.pb
  state := s.state
  litProb := litProbOf prop s.hist
  matchByte := (s.hist.getD (s.reps.rep0 - 1) 0).toNat
  canRep := !s.hist.isEmpty

/-- How far back a distance may reach. -/
def RefState.reach (s : RefState) : ℕ := min s.hist.length prop.dictSize

/-- A position in a stream: before the five bytes that start the range coder, or
between two symbols. -/
inductive Config where
  | header (s : RefState)
  | body (s : RefState)

abbrev StepTo := StreamMachine.Step Config RefState UInt8

/-- What a complete symbol does to the state. -/
inductive Effect where
  | reject
  | mark (s : RefState)
  | next (s : RefState)

def Effect.leaving (rest : List UInt8) : Effect → StepTo
  | .reject => .reject
  | .mark s => .mark s rest
  | .next s => .next (.body s) rest

def applySymbol (s : RefState) (c : Coder ℕ) : Symbol → Effect
  | .lit b => .next { s with coder := c, state := litState s.state, hist := b :: s.hist }
  | .shortRep =>
      if s.reps.rep0 ≤ s.reach prop then
        .next { s with coder := c, state := shortRepState s.state
                       hist := copyBack s.reps.rep0 1 s.hist }
      else .reject
  | .rep index len =>
      if s.reps.nth index ≤ s.reach prop then
        .next { s with coder := c, state := repState s.state, reps := s.reps.front index
                       hist := copyBack (s.reps.nth index) len s.hist }
      else .reject
  | .simple dist len =>
      if dist = 0xFFFFFFFF then
        if c.code = 0 then .mark { s with coder := c } else .reject
      else if dist < s.reach prop then
        .next { s with coder := c, state := matchState s.state
                       reps := ⟨dist + 1, s.reps.rep0, s.reps.rep1, s.reps.rep2⟩
                       hist := copyBack (dist + 1) len s.hist }
      else .reject

def RefState.step (s : RefState) (xs : List UInt8) : StepTo :=
  match (run (symbolProg (s.ctx prop)) s.coder xs).flush with
  | .more => .more
  | .fail => .reject
  | .done sym c rest => (applySymbol prop s c sym).leaving rest

/-- The range coder starts with a zero byte and a big-endian code. -/
def RefState.start (s : RefState) (b1 b2 b3 b4 : UInt8) : RefState :=
  { s with coder := { s.coder with
      range := 2 ^ 32 - 1
      code := b1.toNat * 2 ^ 24 + b2.toNat * 2 ^ 16 + b3.toNat * 2 ^ 8 + b4.toNat } }

def Config.step : Config → List UInt8 → StepTo
  | .body s, xs => s.step prop xs
  | .header _, [] => .more
  | .header s, b0 :: ys =>
      if b0 ≠ 0 then .reject
      else match ys with
        | b1 :: b2 :: b3 :: b4 :: rest => .next (.body (s.start b1 b2 b3 b4)) rest
        | _ => .more

def Config.hist : Config → List UInt8
  | .header s => s.hist
  | .body s => s.hist

def Config.coder : Config → Coder ℕ
  | .header s => s.coder
  | .body s => s.coder

inductive Verdict where
  | more
  | reject
  | mark
deriving Repr, DecidableEq

/-- What a run of the reference decoder leaves. -/
structure RefResult where
  hist : List UInt8
  rest : List UInt8
  verdict : Verdict
deriving DecidableEq

def RefResult.of (r : StreamMachine.Result Config RefState UInt8) : RefResult where
  hist := r.last.hist
  rest := r.rest
  verdict := match r.verdict with
    | .more => .more
    | .reject => .reject
    | .mark _ => .mark

def RefResult.out (r : RefResult) : List UInt8 := r.hist.reverse

/-- A symbol either takes a byte or narrows the interval, so this many are enough. -/
def Config.measure (c : Config) (xs : List UInt8) : ℕ :=
  xs.length * 2 ^ 32 + match c with
    | .header _ => 0
    | .body s => s.coder.range

def Config.run (c : Config) (xs : List UInt8) : StreamMachine.Result Config RefState UInt8 :=
  StreamMachine.run (Config.step prop) Config.measure c xs

def freshState (hist : List UInt8) : RefState where
  coder := { range := 0, code := 0, probs := fun _ => 1024 }
  state := 0
  reps := ⟨1, 1, 1, 1⟩
  hist := hist

/-- The start of every stream. -/
def start : Config := .header (freshState [])

/-- The reference decoder of a whole raw stream. -/
def reference (xs : List UInt8) : RefResult := .of (start.run prop xs)

end LzmaTurbo.Lzma
