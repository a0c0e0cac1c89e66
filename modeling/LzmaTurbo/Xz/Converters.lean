import LzmaTurbo.Filters.Bcj
import LzmaTurbo.Filters.Delta

/-!
# A block's converters

A chain's converters run over a block in place. Given the block whole, each walks
it once; given it in chunks, each keeps the short tail it could not convert yet and
puts it before the next chunk, in a buffer that has room for every tail in front of
the new bytes.
-/
namespace LzmaTurbo.Xz
open Machine Filters

def filterLzma2 : ℕ := 0x21
def filterDelta : ℕ := 0x03
def maxFilters : ℕ := 4

/-- One filter as a block header stores it. -/
structure FilterFlags where
  id : ℕ
  props : Vector UInt8 4
  propsLen : ℕ

/-- The start offset of a branch converter with a four-byte property. -/
def FilterFlags.startOffset (f : FilterFlags) : ℕ :=
  if f.propsLen = 4 then le32 f.props[0] f.props[1] f.props[2] f.props[3] else 0

/-- The converters stand in the order the decoder undoes them. -/
structure FilterChain where
  dictProp : UInt8
  converters : List FilterFlags

inductive Conv where
  | delta (d : Delta)
  | bcj (b : Bcj)

structure Stage where
  conv : Conv
  carry : List UInt8

structure Converters where
  stages : List Stage
  scratch : List UInt8

/-- A fresh stage for a filter. -/
def FilterFlags.stage (f : FilterFlags) : Except XzErrorKind Stage :=
  if f.id = filterDelta then .ok { conv := .delta (Delta.new f.props[0]), carry := [] }
  else
    match BcjKind.fromFilterId f.id with
    | none => .error .unsupportedFilter
    | some kind => do
        let b ← Bcj.new kind f.startOffset
        .ok { conv := .bcj b, carry := [] }

namespace FilterChain

def validateNonLast (f : FilterFlags) : Except XzErrorKind Unit :=
  if f.id = filterLzma2 then .error .badFilterChain
  else
    match BcjKind.fromFilterId f.id with
    | some kind => if f.startOffset % kind.alignment = 0 then .ok () else .error .badFilterChain
    | none => if f.id = filterDelta then .ok () else .error .unsupportedFilter

def validate (filters : List FilterFlags) : Except XzErrorKind FilterChain :=
  match filters.getLast? with
  | none => .error .badFilterChain
  | some last =>
      if maxFilters < filters.length then .error .badFilterChain
      else if last.id ≠ filterLzma2 then .error .badFilterChain
      else if last.props[0] &&& 0xC0 ≠ 0 ∨ last.props[0] > 40 then .error .badFilterChain
      else do
        filters.dropLast.forM validateNonLast
        .ok { dictProp := last.props[0], converters := filters.dropLast.reverse }

def build (chain : FilterChain) : Except XzErrorKind Converters := do
  let stages ← chain.converters.mapM FilterFlags.stage
  .ok { stages, scratch := [] }

end FilterChain

/-- `buf[start..start + xs.len()].copy_from_slice(xs)`. -/
def copyTo (buf : List UInt8) (start : ℕ) (xs : List UInt8) : Except Fault (List UInt8) :=
  if start + xs.length ≤ buf.length then
    .ok (buf.take start ++ xs ++ buf.drop (start + xs.length))
  else .error .index

/-- `buf[start..start + len]`. -/
def sliceOf (buf : List UInt8) (start len : ℕ) : Except Fault (List UInt8) :=
  if start + len ≤ buf.length then .ok ((buf.drop start).take len) else .error .index

/-- A stage's tail goes right before the bytes it is to convert next. -/
def carryFirst (carry buf : List UInt8) (start len : ℕ) : Except Fault (List UInt8 × ℕ) :=
  if carry.length ≠ 0 then do
    let buf ← copyTo buf start carry
    .ok (buf, len + carry.length)
  else .ok (buf, len)

section
variable (x8664 kernel : Bool)

/-- One converter over a buffer: the buffer, how much of it is converted, what follows. -/
def Conv.code (encode : Bool) : Conv → List UInt8 → Except Fault (List UInt8 × ℕ × Conv)
  | .delta d, data =>
      let (out, d) := if encode then d.encode data else d.decode kernel data
      .ok (out, data.length, .delta d)
  | .bcj b, data => do
      let (out, n, b) ← if encode then b.encode x8664 data else b.decode x8664 data
      .ok (out, n, .bcj b)

/-- How much of `len` bytes goes on to the next stage when `n` of them are converted. -/
def Conv.done (flush : Bool) (len n : ℕ) : Conv → ℕ
  | .delta _ => len
  | .bcj _ => if flush then len else n

/-- One turn of `run_buffer`: the stage, the buffer, and where its valid bytes start and end. -/
def runStage (flush encode : Bool) (stage : Stage) (buf : List UInt8) (start len : ℕ) :
    Except Fault (Stage × List UInt8 × ℕ × ℕ) := do
  let carry := stage.carry.length
  let start ← sub start carry
  let (buf, len) ← carryFirst stage.carry buf start len
  let data ← sliceOf buf start len
  let (data, n, conv) ← stage.conv.code x8664 kernel encode data
  let buf ← copyTo buf start data
  let done := stage.conv.done flush len n
  let rest ← sub len done
  let carry ← sliceOf buf (start + done) rest
  .ok ({ conv, carry }, buf, start, done)

def runStages (flush encode : Bool) : List Stage → List UInt8 → ℕ → ℕ →
    Except Fault (List Stage × List UInt8 × ℕ)
  | [], buf, _, len => .ok ([], buf, len)
  | stage :: rest, buf, start, len => do
      let (stage, buf, start, len) ← runStage x8664 kernel flush encode stage buf start len
      let (rest, buf, len) ← runStages flush encode rest buf start len
      .ok (stage :: rest, buf, len)

/-- A whole block through every stage, in place. -/
def stagesInPlace (encode : Bool) : List Stage → List UInt8 →
    Except Fault (List UInt8 × List Stage)
  | [], data => .ok (data, [])
  | stage :: rest, data => do
      let (data, _, conv) ← stage.conv.code x8664 kernel encode data
      let (data, rest) ← stagesInPlace encode rest data
      .ok (data, { stage with conv } :: rest)

/-- Decode order, or the other way round to encode. -/
def inOrder {α : Type} (encode : Bool) (xs : List α) : List α := if encode then xs.reverse else xs

/-- The most bytes a converter holds back. -/
def Conv.maxCarry : Conv → ℕ
  | .delta _ => 0
  | .bcj b => b.kind.maxCarry

namespace Converters

def maxCarry (c : Converters) : ℕ := (c.stages.map fun s => s.conv.maxCarry).sum

def carriedBytes (c : Converters) : ℕ := (c.stages.map fun s => s.carry.length).sum

def inPlace (encode : Bool) (c : Converters) (data : List UInt8) :
    Except Fault (List UInt8 × Converters) := do
  let (data, stages) ← stagesInPlace x8664 kernel encode (inOrder encode c.stages) data
  .ok (data, { c with stages := inOrder encode stages })

def applyInPlace (c : Converters) (data : List UInt8) : Except Fault (List UInt8 × Converters) :=
  c.inPlace x8664 kernel false data

def encodeInPlace (c : Converters) (data : List UInt8) : Except Fault (List UInt8 × Converters) :=
  c.inPlace x8664 kernel true data

def runBuffer (c : Converters) (buf : List UInt8) (len : ℕ) (flush encode : Bool) :
    Except Fault (Converters × List UInt8 × ℕ) := do
  let (stages, buf, len) ←
    runStages x8664 kernel flush encode (inOrder encode c.stages) buf c.carriedBytes len
  .ok ({ c with stages := inOrder encode stages }, buf, len)

def run (c : Converters) (data out : List UInt8) (flush encode : Bool) :
    Except Fault (Converters × List UInt8) := do
  let room := data.length + c.maxCarry
  let cur := c.scratch ++ List.replicate (room - c.scratch.length) 0
  let cur ← copyTo cur c.carriedBytes data
  let (c, cur, done) ← c.runBuffer x8664 kernel cur data.length flush encode
  let made ← sliceOf cur 0 done
  .ok ({ c with scratch := cur }, out ++ made)

def push (c : Converters) (data out : List UInt8) : Except Fault (Converters × List UInt8) :=
  c.run x8664 kernel data out false false

def finish (c : Converters) (data out : List UInt8) : Except Fault (Converters × List UInt8) :=
  c.run x8664 kernel data out true false

def encodePush (c : Converters) (data out : List UInt8) : Except Fault (Converters × List UInt8) :=
  c.run x8664 kernel data out false true

def encodeFinish (c : Converters) (data out : List UInt8) :
    Except Fault (Converters × List UInt8) :=
  c.run x8664 kernel data out true true

/-- A caller that has one chunk after another. -/
def pushes (encode : Bool) : Converters → List (List UInt8) → List UInt8 →
    Except Fault (Converters × List UInt8)
  | c, [], out => .ok (c, out)
  | c, data :: chunks, out => do
      let (c, out) ← if encode then c.encodePush x8664 kernel data out
        else c.push x8664 kernel data out
      pushes encode c chunks out

/-- The same caller, with the block's last bytes. -/
def stream (encode : Bool) (c : Converters) (chunks : List (List UInt8)) (last : List UInt8) :
    Except Fault (Converters × List UInt8) := do
  let (c, out) ← c.pushes x8664 kernel encode chunks []
  if encode then c.encodeFinish x8664 kernel last out else c.finish x8664 kernel last out

end Converters

end

end LzmaTurbo.Xz
