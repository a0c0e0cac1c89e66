import LzmaTurbo.Lzma2.Decoder

/-!
# The streaming reader

`Read` over a decoder and a buffered source, and the read that lends its output to a callback
out of the dictionary. The inner reader is the script of what its reads give: an interruption
or another error, or bytes; no bytes are the end of the input.
-/
namespace LzmaTurbo.Lzma2
open Machine Lzma

namespace Lzma2Reader

/-- `buf` is the filled part of the input buffer. -/
structure Source (ε : Type) where
  inner : List (Except ε (List UInt8))
  buf : List UInt8
  pos : ℕ
  eof : Bool

def Source.new {ε : Type} (inner : List (Except ε (List UInt8))) : Source ε :=
  { inner, buf := [], pos := 0, eof := false }

/-- The bytes still to come. -/
def Source.left {ε : Type} (s : Source ε) : ℕ :=
  s.buf.length - s.pos + (s.inner.map fun
    | .error _ => 0
    | .ok bytes => bytes.length).sum

/-- At least one buffered byte, if the inner reader has any. -/
def Source.fill {ε : Type} (s : Source ε) : Except ε Unit × Source ε :=
  if s.pos = s.buf.length ∧ s.eof = false then
    match s.inner with
    | [] => (.ok (), { s with buf := [], pos := 0, eof := true })
    | .error e :: inner => (.error e, { s with inner, buf := [], pos := 0 })
    | .ok bytes :: inner => (.ok (), { inner, buf := bytes, pos := 0, eof := bytes.isEmpty })
  else (.ok (), s)

end Lzma2Reader

/-- An error of the source or the callback, of the decoder, or the end of a cut stream. -/
inductive ReadError (ε : Type) where
  | io (e : ε)
  | format (e : Error)
  | truncated

structure Lzma2Reader (ε : Type) where
  src : Lzma2Reader.Source ε
  dec : Lzma2Decoder
  done : Bool

namespace Lzma2Reader
variable {ε : Type}

/-- Where the memory limit allows it. -/
def new (inner : List (Except ε (List UInt8))) (dictProp : ℕ) : Except Error (Lzma2Reader ε) := do
  let dec ← Lzma2Decoder.new dictProp
  .ok { src := .new inner, dec, done := false }

/-- A read: the reader it leaves, the bytes it gives and what it returns. -/
structure Outcome (ε : Type) where
  reader : Lzma2Reader ε
  bytes : List UInt8
  res : Except (ReadError ε) ℕ

/-- `while written == 0`. -/
def readLoop (max : ℕ) : ℕ → Lzma2Reader ε → Except Fault (Outcome ε)
  | 0, _ => .error .fuel
  | fuel + 1, r =>
      match r.src.fill with
      | (.error e, src) => .ok { reader := { r with src }, bytes := [], res := .error (.io e) }
      | (.ok (), src) => do
          let input ← slice src.buf src.pos src.buf.length
          let res ← r.dec.decode input max .any
          match res.res with
          | .error e =>
              .ok { reader := { r with src, dec := res.d }, bytes := [], res := .error (.format e) }
          | .ok progress =>
              let src := { src with pos := src.pos + progress.read }
              let done := r.done || decide (progress.status = .finishedWithMark)
              let r := { src, dec := res.d, done }
              if progress.written = 0 then
                if done then .ok { reader := r, bytes := [], res := .ok 0 }
                else if progress.read == 0 && src.eof then
                  .ok { reader := r, bytes := [], res := .error .truncated }
                else readLoop max fuel r
              else .ok { reader := r, bytes := res.out, res := .ok progress.written }

/-- `Read::read` with a buffer of `max` bytes. A round that goes on takes a byte. -/
def read (r : Lzma2Reader ε) (max : ℕ) : Except Fault (Outcome ε) :=
  if r.done = true ∨ max = 0 then .ok { reader := r, bytes := [], res := .ok 0 }
  else readLoop max (r.src.left + 1) r

/-- A borrowed read: what the callback saw, if it was called, and what is returned. -/
structure Borrowed (ε : Type) where
  reader : Lzma2Reader ε
  given : Option (List UInt8)
  res : Option (Except (ReadError ε) ℕ)

/-- The inner loop of `read_contiguous`, over the source's buffer. -/
def contiguousTurns (src : Source ε) (start max : ℕ) :
    ℕ → Lzma2Decoder → ℕ → Except Fault (Lzma2Decoder × Except Error (ℕ × Status))
  | 0, _, _ => .error .fuel
  | fuel + 1, d, used => do
      let before := d.decoder.dicPos
      let input ← slice src.buf (src.pos + used) src.buf.length
      let r ← d.decodeToDic (start + max) input .any
      match r.res with
      | .error e => .ok (r.d, .error e)
      | .ok read =>
          if r.d.decoder.dicPos = before then .ok (r.d, .ok (used + read, r.status))
          else do
            let wrote ← sub r.d.decoder.dicPos start
            if wrote = max then .ok (r.d, .ok (used + read, r.status))
            else contiguousTurns src start max fuel r.d (used + read)

/-- `read_contiguous`. -/
def readContiguous (max : ℕ) (sink : List UInt8 → Except ε Unit) :
    ℕ → Lzma2Reader ε → Except Fault (Borrowed ε)
  | 0, _ => .error .fuel
  | fuel + 1, r =>
      match r.src.fill with
      | (.error e, src) =>
          .ok { reader := { r with src }, given := none, res := some (.error (.io e)) }
      | (.ok (), src) => do
          let dec := r.dec.wrapped
          let start := dec.decoder.dicPos
          let (dec, res) ← contiguousTurns src start max (max + 1) dec 0
          match res with
          | .error e =>
              .ok { reader := { r with src, dec }, given := none, res := some (.error (.format e)) }
          | .ok (used, status) => do
              let src := { src with pos := src.pos + used }
              let stop := dec.decoder.dicPos
              let done := r.done || decide (status = .finishedWithMark)
              let r := { src, dec, done }
              if stop ≠ start then do
                let bytes ← slice dec.decoder.dic.toList start stop
                let n ← sub stop start
                let res := match sink bytes with
                  | .ok () => .ok n
                  | .error e => .error (.io e)
                .ok { reader := r, given := some bytes, res := some res }
              else if done then .ok { reader := r, given := none, res := some (.ok 0) }
              else if used == 0 && src.eof then
                .ok { reader := r, given := none, res := some (.error .truncated) }
              else readContiguous max sink fuel r

/-- The room before the dictionary's end, or all of it once that is reached. -/
def available (r : Lzma2Reader ε) : Except Fault ℕ :=
  let pos := r.dec.decoder.dicPos
  let size := r.dec.decoder.dicBufSize
  if pos = size then .ok size else sub size pos

/-- `read_borrowed`; no result means that the read could cross the end of the dictionary. -/
def readBorrowed (r : Lzma2Reader ε) (max : ℕ) (sink : List UInt8 → Except ε Unit) :
    Except Fault (Borrowed ε) :=
  if r.done = true ∨ max = 0 then .ok { reader := r, given := none, res := some (.ok 0) }
  else do
    let available ← r.available
    if available < max then .ok { reader := r, given := none, res := none }
    else readContiguous max sink (r.src.left + 1) r

end Lzma2Reader
end LzmaTurbo.Lzma2
