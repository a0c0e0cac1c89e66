import LzmaTurbo.Lib.WriteAdapter

/-!
# The raw LZMA2 writer

The encoder and its pipe are whatever they are: what they return is fixed by the value
they are called on, which for a pipe includes the choices its thread will make. The
writer holds up to a dictionary of input, then feeds the pipe, and keeps what its inner
writer has not taken.

Running out of memory for the held input is left out.
-/
namespace LzmaTurbo.Enc
open WriteAdapter

/-- The errors the encoders return; `coder` is any other of the LZMA2 encoder. -/
inductive Error where
  | param
  | internalFailure
  | coder
deriving Repr, DecidableEq

/-- What a call hands to its sink piece by piece, what is left, and how it ends. -/
structure Emitted (σ ρ : Type) where
  pieces : List (List UInt8)
  state : σ
  result : Except Error ρ

/-- `Lzma2Encoder` and `Lzma2Pipe`, as the writers use them. -/
structure Lzma2Parts where
  Lzma2Encoder : Type
  Lzma2Pipe : Type
  encodeToVec : Lzma2Encoder → List UInt8 → Except Error (List UInt8)
  /-- The encoder comes back when no thread can be started. -/
  start : Lzma2Encoder → Except Lzma2Encoder Lzma2Pipe
  write : Lzma2Pipe → List UInt8 → Emitted Lzma2Pipe Unit
  writeOwned : Lzma2Pipe → List UInt8 → Emitted Lzma2Pipe Unit
  /-- How many bytes the stream came to. -/
  finish : Lzma2Pipe → Emitted Unit ℕ

structure Lzma2Writer (P : Lzma2Parts) where
  enc : Option P.Lzma2Encoder
  threshold : ℕ
  mayStream : Bool
  buf : List UInt8
  pipe : Option P.Lzma2Pipe
  out : List UInt8

variable {P : Lzma2Parts}

namespace Lzma2Writer

def new (enc : P.Lzma2Encoder) (dictSize : ℕ) : Lzma2Writer P :=
  { enc := some enc, threshold := dictSize, mayStream := true, buf := [], pipe := none, out := [] }

/-- `send` to the inner writer; it succeeded if nothing is left. -/
def drain (w : Lzma2Writer P) (inner : Outlet UInt8) : Lzma2Writer P × Outlet UInt8 :=
  ({ w with out := (inner.send w.out).2 }, (inner.send w.out).1)

def startPipe (w : Lzma2Writer P) : Lzma2Writer P × Except Error Unit :=
  match w.enc with
  | none => (w, .error .internalFailure)
  | some enc =>
      match P.start enc with
      | .ok pipe =>
          let fed := P.writeOwned pipe w.buf
          let w := { w with enc := none, buf := [], out := w.out ++ fed.pieces.flatten }
          match fed.result with
          | .ok _ => ({ w with pipe := some fed.state }, .ok ())
          | .error e => (w, .error e)
      | .error enc => ({ w with enc := some enc, mayStream := false }, .ok ())

/-- How much of `data` is held. -/
def take (w : Lzma2Writer P) (data : List UInt8) : ℕ :=
  if w.mayStream then min (w.threshold - w.buf.length) data.length else data.length

/-- The last lines of `write`: what the inner writer refuses now stays held. -/
def feed (w : Lzma2Writer P) (inner : Outlet UInt8) (data : List UInt8) :
    Lzma2Writer P × Outlet UInt8 × Answer Error :=
  match w.pipe with
  | none => ((w.drain inner).1, (w.drain inner).2, .ok)
  | some pipe =>
      let fed := P.write pipe data
      let w := { w with pipe := some fed.state, out := w.out ++ fed.pieces.flatten }
      match fed.result with
      | .ok _ => ((w.drain inner).1, (w.drain inner).2, .ok)
      | .error e => (w, inner, .broken e)

/-- `write` once what was held has gone out. -/
def accept (w : Lzma2Writer P) (inner : Outlet UInt8) (buf : List UInt8) :
    Lzma2Writer P × Outlet UInt8 × Answer Error :=
  match w.pipe with
  | some _ => w.feed inner buf
  | none =>
      let data := buf.drop (w.take buf)
      let w := { w with buf := w.buf ++ buf.take (w.take buf) }
      if data = [] then (w, inner, .ok)
      else
        match w.startPipe with
        | (w, .error e) => (w, inner, .broken e)
        | (w, .ok _) =>
            match w.pipe with
            -- No thread: the rest is held too.
            | none => ({ w with buf := w.buf ++ data }, inner, .ok)
            | some _ => w.feed inner data

def write (w : Lzma2Writer P) (inner : Outlet UInt8) (buf : List UInt8) :
    Lzma2Writer P × Outlet UInt8 × Answer Error :=
  let drained := w.drain inner
  if drained.1.out = [] then drained.1.accept drained.2 buf
  else (drained.1, drained.2, .refused)

def flush (w : Lzma2Writer P) (inner : Outlet UInt8) :
    Lzma2Writer P × Outlet UInt8 × Answer Error :=
  let drained := w.drain inner
  if drained.1.out = [] then
    (drained.1, drained.2.flush.1, if drained.2.flush.2 then .ok else .refused)
  else (drained.1, drained.2, .refused)

/-- The stream so far is in `out`; the pipe appends to it, the encoder replaces it. -/
def lastOut (w : Lzma2Writer P) : Except Error (List UInt8) :=
  match w.pipe with
  | some pipe => (P.finish pipe).result.map fun _ => w.out ++ (P.finish pipe).pieces.flatten
  | none =>
      match w.enc with
      | none => .error .internalFailure
      | some enc => P.encodeToVec enc w.buf

def finish (w : Lzma2Writer P) (inner : Outlet UInt8) : Outlet UInt8 × Answer Error :=
  match w.lastOut with
  | .error e => (inner, .broken e)
  | .ok out =>
      let drained := { w with out }.drain inner
      if drained.1.out = [] then
        (drained.2.flush.1, if drained.2.flush.2 then .ok else .refused)
      else (drained.2, .refused)

end Lzma2Writer

/-- `impl Write for Lzma2Writer`, and its `finish`. -/
def lzma2Adapter (P : Lzma2Parts) : Adapter (Lzma2Writer P) UInt8 Error where
  write := Lzma2Writer.write
  flush := Lzma2Writer.flush
  finish := Lzma2Writer.finish

namespace Lzma2Writer

/-- The encoder replaces the output at the end, so none may be held for it. -/
def Idle (w : Lzma2Writer P) : Prop := w.pipe = none → w.enc.isSome → w.out = []

/-- Both writers have taken the same; the steady one has handed everything over. -/
structure InStep (w : Lzma2Writer P) (inner : Outlet UInt8) (v : Lzma2Writer P)
    (got : List UInt8) : Prop where
  same : { w with out := [] } = v
  sent : inner.accepted ++ w.out = got
  idle : w.Idle

theorem drain_sent (w : Lzma2Writer P) (inner : Outlet UInt8) :
    (w.drain inner).2.accepted ++ (w.drain inner).1.out = inner.accepted ++ w.out :=
  inner.send_split w.out

theorem drain_steady (w : Lzma2Writer P) (got : List UInt8) :
    w.drain ⟨got, none⟩ = ({ w with out := [] }, ⟨got ++ w.out, none⟩) := rfl

theorem drain_idle {w : Lzma2Writer P} (h : w.Idle) (inner : Outlet UInt8) :
    (w.drain inner).1.Idle := by
  intro hpipe henc
  simp [drain, h hpipe henc]

theorem drain_inStep {w v : Lzma2Writer P} {inner : Outlet UInt8} {got : List UInt8}
    (h : InStep w inner v got) : InStep (w.drain inner).1 (w.drain inner).2 v got where
  same := h.same
  sent := (w.drain_sent inner).trans h.sent
  idle := drain_idle h.idle inner

/-- Once nothing is held the two writers are in one state. -/
theorem drained_eq {w v : Lzma2Writer P} {inner : Outlet UInt8} {got : List UInt8}
    (h : InStep w inner v got) (hout : (w.drain inner).1.out = []) :
    (w.drain inner).1 = v ∧ (w.drain inner).2.accepted = got := by
  have hd := drain_inStep h
  refine ⟨?_, by simpa only [hout, List.append_nil] using hd.sent⟩
  rw [← hd.same, ← hout]

/-- Two calls that end alike, the second in front of a steady writer. -/
def Alike (r q : Lzma2Writer P × Outlet UInt8 × Answer Error) : Prop :=
  (∃ w inner v got, r = (w, inner, .ok) ∧ q = (v, ⟨got, none⟩, .ok) ∧ InStep w inner v got) ∨
  (∃ w inner v got e, r = (w, inner, .broken e) ∧ q = (v, ⟨got, none⟩, .broken e) ∧
    inner.accepted <+: got)

theorem drain_alike {w : Lzma2Writer P} (hidle : w.Idle) (inner : Outlet UInt8) :
    Alike ((w.drain inner).1, (w.drain inner).2, .ok)
      ((w.drain ⟨inner.accepted, none⟩).1, (w.drain ⟨inner.accepted, none⟩).2, .ok) :=
  .inl ⟨_, _, _, _, rfl, rfl, rfl, w.drain_sent inner, drain_idle hidle inner⟩

theorem feed_alike {w : Lzma2Writer P} (hidle : w.Idle) (inner : Outlet UInt8)
    (data : List UInt8) :
    Alike (w.feed inner data) (w.feed ⟨inner.accepted, none⟩ data) := by
  unfold feed
  split
  · exact drain_alike hidle inner
  next pipe hpipe =>
    dsimp only
    split
    · exact drain_alike (fun h => by cases h) inner
    · exact .inr ⟨_, _, _, _, _, rfl, rfl, List.prefix_rfl⟩

/-- Starting the pipe leaves output only in a writer that has no encoder left. -/
theorem startPipe_idle {w v : Lzma2Writer P} (hout : w.out = [])
    (h : w.startPipe = (v, .ok ())) : v.Idle ∧ (v.pipe = none → v.out = []) := by
  unfold startPipe at h
  split at h
  · cases h
  next enc henc =>
    split at h
    next pipe hpipe =>
      dsimp only at h
      split at h
      · cases h
        exact ⟨(fun h => by cases h), (fun h => by cases h)⟩
      · cases h
    next enc' henc' =>
      cases h
      exact ⟨fun _ _ => hout, fun _ => hout⟩

/-- With nothing held, what the writer does with its caller's bytes does not depend on the
inner writer. -/
theorem accept_alike {w : Lzma2Writer P} (hout : w.out = []) (inner : Outlet UInt8)
    (data : List UInt8) :
    Alike (w.accept inner data) (w.accept ⟨inner.accepted, none⟩ data) := by
  have hheld (v : Lzma2Writer P) (hv : v.out = []) :
      Alike (v, inner, .ok) (v, ⟨inner.accepted, none⟩, .ok) :=
    .inl ⟨_, _, _, _, rfl, rfl, by rw [← hv], by rw [hv, List.append_nil], fun _ _ => hv⟩
  unfold accept
  split
  · exact feed_alike (fun _ _ => hout) inner data
  · dsimp only
    split
    · exact hheld _ hout
    · split
      · exact .inr ⟨_, _, _, _, _, rfl, rfl, List.prefix_rfl⟩
      next v hstart =>
        have hv := startPipe_idle (by exact hout) hstart
        split
        next hpipe => exact hheld _ (hv.2 hpipe)
        next hpipe => exact feed_alike hv.1 inner _

theorem write_follows {w v : Lzma2Writer P} {inner : Outlet UInt8} {got : List UInt8}
    (data : List UInt8) (h : InStep w inner v got) :
    (∃ w' inner', w.write inner data = (w', inner', .refused) ∧ InStep w' inner' v got) ∨
      Alike (w.write inner data) (v.write ⟨got, none⟩ data) := by
  by_cases hout : (w.drain inner).1.out = []
  · obtain ⟨hsame, hgot⟩ := drained_eq h hout
    have hv : v.out = [] := h.same ▸ rfl
    have hsteady : v.drain ⟨got, none⟩ = (v, ⟨got, none⟩) := by
      rw [drain_steady, hv, List.append_nil, ← h.same]
    refine .inr ?_
    simp only [write, hsteady, hv, if_true, hsame]
    exact hgot ▸ accept_alike hv _ data
  · exact .inl ⟨_, _, by simp only [write, hout, if_false], drain_inStep h⟩

theorem flush_follows {w v : Lzma2Writer P} {inner : Outlet UInt8} {got : List UInt8}
    (h : InStep w inner v got) :
    ∃ w' inner' answer, w.flush inner = (w', inner', answer) ∧ (∀ e, answer ≠ .broken e) ∧
      InStep w' inner' v got := by
  have hd := drain_inStep h
  unfold flush
  dsimp only
  split
  · refine ⟨_, _, _, rfl, fun e => by split <;> simp, hd.same, ?_, hd.idle⟩
    rw [Outlet.flush_accepted]
    exact hd.sent
  · exact ⟨_, _, _, rfl, by simp, hd⟩

/-- The last output is what is held and then what the encoder still owes. -/
theorem lastOut_held {w v : Lzma2Writer P} {inner : Outlet UInt8} {got : List UInt8}
    (h : InStep w inner v got) : w.lastOut = v.lastOut.map (w.out ++ ·) := by
  obtain ⟨hsame, _, hidle⟩ := h
  subst hsame
  unfold lastOut
  dsimp only
  split
  next pipe hpipe => cases (P.finish pipe).result <;> simp [Except.map]
  next hpipe =>
    split
    · rfl
    next enc henc =>
      rw [hidle hpipe (by rw [henc]; rfl)]
      cases P.encodeToVec enc w.buf <;> rfl

theorem finish_follows {w v : Lzma2Writer P} {inner : Outlet UInt8} {got : List UInt8}
    (h : InStep w inner v got) :
    (w.finish inner).1.accepted <+: (v.finish ⟨got, none⟩).1.accepted ∧
      ((w.finish inner).2 = .ok →
        (w.finish inner).1.accepted = (v.finish ⟨got, none⟩).1.accepted ∧
          (v.finish ⟨got, none⟩).2 = .ok) := by
  have hsent := h.sent
  unfold finish
  rw [lastOut_held h]
  cases v.lastOut with
  | error e =>
      exact ⟨⟨w.out, hsent⟩, fun hb => by cases hb⟩
  | ok out =>
      have hall : inner.accepted ++ (w.out ++ out) = got ++ out := by
        rw [← List.append_assoc, hsent]
      simp only [Except.map, drain_steady, if_true, Outlet.flush_steady]
      have hd := drain_sent { w with out := w.out ++ out } inner
      rw [hall] at hd
      split
      next hout =>
        rw [hout, List.append_nil] at hd
        simp only [Outlet.flush_accepted, hd]
        exact ⟨List.prefix_rfl, fun _ => ⟨trivial, trivial⟩⟩
      · exact ⟨⟨_, hd⟩, fun hb => by cases hb⟩

theorem follows (P : Lzma2Parts) : Follows (lzma2Adapter P) InStep where
  write data h := by
    rcases write_follows data h with hr | ⟨w', inner', v', got', h'⟩ | h'
    · exact .inl hr
    · exact .inr (.inl ⟨w', inner', v', got', h'⟩)
    · exact .inr (.inr h')
  flush h := flush_follows h
  finish h := finish_follows h

theorem drain_grows (w : Lzma2Writer P) (inner : Outlet UInt8) :
    inner.accepted <+: (w.drain inner).2.accepted :=
  inner.send_grows w.out

theorem feed_grows (w : Lzma2Writer P) (inner : Outlet UInt8) (data : List UInt8) :
    inner.accepted <+: (w.feed inner data).2.1.accepted := by
  unfold feed
  split
  · exact w.drain_grows inner
  · dsimp only
    split
    · exact drain_grows _ inner
    · exact List.prefix_rfl

theorem accept_grows (w : Lzma2Writer P) (inner : Outlet UInt8) (data : List UInt8) :
    inner.accepted <+: (w.accept inner data).2.1.accepted := by
  unfold accept
  split
  · exact feed_grows _ _ _
  · dsimp only
    split
    · exact List.prefix_rfl
    · split
      · exact List.prefix_rfl
      · split
        · exact List.prefix_rfl
        · exact feed_grows _ _ _

theorem grows (P : Lzma2Parts) : Grows (lzma2Adapter P) where
  write w inner data := by
    have hd := w.drain_grows inner
    unfold lzma2Adapter write
    dsimp only
    split
    · exact hd.trans (accept_grows _ _ _)
    · exact hd
  flush w inner := by
    have hd := w.drain_grows inner
    unfold lzma2Adapter flush
    dsimp only
    split
    · rwa [Outlet.flush_accepted]
    · exact hd
  finish w inner := by
    unfold lzma2Adapter finish
    dsimp only
    split
    · exact List.prefix_rfl
    next out hout =>
      have hd := drain_grows { w with out } inner
      split
      · rwa [Outlet.flush_accepted]
      · exact hd

end Lzma2Writer

end LzmaTurbo.Enc
