import LzmaTurbo.Enc.XzEncoder

/-!
# The xz writer

Three buffers stand in a row: what the encoder made and kept, what the writer took from
it, and what the inner writer has accepted. While a write goes on the encoder hands its
pieces past the first; they may go straight to the inner writer only while the second is
empty.
-/
namespace LzmaTurbo.Enc
open WriteAdapter

structure XzWriter (P : XzParts) where
  enc : XzEncoder P
  out : List UInt8

variable {P : XzParts}

namespace XzWriter

/-- `drain`: it succeeded if nothing is left. -/
def drain (w : XzWriter P) (inner : Outlet UInt8) : XzWriter P × Outlet UInt8 :=
  let sent := inner.send (w.out ++ w.enc.out)
  (⟨{ w.enc with out := [] }, sent.2⟩, sent.1)

/-- `Output::write` in `write`: the inner writer is offered the piece unless earlier bytes
wait, and its error is left to the next `drain`. -/
def offer (inner : Outlet UInt8) (waiting piece : List UInt8) : Outlet UInt8 × List UInt8 :=
  if waiting = [] then inner.send piece else (inner, waiting ++ piece)

def offerAll (inner : Outlet UInt8) (waiting : List UInt8) :
    List (List UInt8) → Outlet UInt8 × List UInt8
  | [] => (inner, waiting)
  | piece :: pieces =>
      offerAll (offer inner waiting piece).1 (offer inner waiting piece).2 pieces

/-- `write` once what was held has gone out. -/
def accept (w : XzWriter P) (inner : Outlet UInt8) (buf : List UInt8) :
    XzWriter P × Outlet UInt8 × Answer Error :=
  let pushed := w.enc.handOver (XzEncoder.pushTo buf)
  let offered := offerAll inner w.out pushed.pieces
  let w := { w with enc := pushed.state, out := offered.2 }
  match pushed.result with
  | .error e => (w, offered.1, .broken e)
  | .ok _ => ((w.drain offered.1).1, (w.drain offered.1).2, .ok)

def write (w : XzWriter P) (inner : Outlet UInt8) (buf : List UInt8) :
    XzWriter P × Outlet UInt8 × Answer Error :=
  let drained := w.drain inner
  if drained.1.out = [] then drained.1.accept drained.2 buf
  else (drained.1, drained.2, .refused)

def flush (w : XzWriter P) (inner : Outlet UInt8) : XzWriter P × Outlet UInt8 × Answer Error :=
  let drained := w.drain inner
  if drained.1.out = [] then
    (drained.1, drained.2.flush.1, if drained.2.flush.2 then .ok else .refused)
  else (drained.1, drained.2, .refused)

/-- The encoder stops at the first piece that is not taken whole. -/
def finish (w : XzWriter P) (inner : Outlet UInt8) : Outlet UInt8 × Answer Error :=
  let drained := w.drain inner
  if drained.1.out = [] then
    let ended := drained.1.enc.handOver XzEncoder.finishTo
    let delivered := drained.2.sendAll ended.pieces
    if delivered.2 then
      match ended.result with
      | .error e => (delivered.1, .broken e)
      | .ok _ => (delivered.1.flush.1, if delivered.1.flush.2 then .ok else .refused)
    else (delivered.1, .refused)
  else (drained.2, .refused)

end XzWriter

/-- `impl Write for XzWriter`, and its `finish`. -/
def xzAdapter (P : XzParts) : Adapter (XzWriter P) UInt8 Error where
  write := XzWriter.write
  flush := XzWriter.flush
  finish := XzWriter.finish

namespace XzWriter

theorem offer_split (inner : Outlet UInt8) (waiting piece : List UInt8) :
    (offer inner waiting piece).1.accepted ++ (offer inner waiting piece).2 =
      inner.accepted ++ (waiting ++ piece) := by
  unfold offer
  split
  next hempty => rw [hempty, List.nil_append, inner.send_split]
  · rfl

theorem offer_grows (inner : Outlet UInt8) (waiting piece : List UInt8) :
    inner.accepted <+: (offer inner waiting piece).1.accepted := by
  unfold offer
  split
  · exact inner.send_grows piece
  · exact List.prefix_rfl

/-- A piece never overtakes what waits. -/
theorem offerAll_split (pieces : List (List UInt8)) (inner : Outlet UInt8)
    (waiting : List UInt8) :
    (offerAll inner waiting pieces).1.accepted ++ (offerAll inner waiting pieces).2 =
      inner.accepted ++ waiting ++ pieces.flatten := by
  induction pieces generalizing inner waiting with
  | nil => simp [offerAll]
  | cons piece pieces ih =>
      rw [offerAll, ih, offer_split, List.flatten_cons]
      simp only [List.append_assoc]

theorem offerAll_grows (pieces : List (List UInt8)) (inner : Outlet UInt8)
    (waiting : List UInt8) :
    inner.accepted <+: (offerAll inner waiting pieces).1.accepted := by
  induction pieces generalizing inner waiting with
  | nil => exact List.prefix_rfl
  | cons piece pieces ih => exact (offer_grows inner waiting piece).trans (ih _ _)

theorem offerAll_steady (pieces : List (List UInt8)) (got : List UInt8) :
    offerAll ⟨got, none⟩ [] pieces = (⟨got ++ pieces.flatten, none⟩, []) := by
  induction pieces generalizing got with
  | nil => simp [offerAll]
  | cons piece pieces ih =>
      have hpiece : offer ⟨got, none⟩ [] piece = (⟨got ++ piece, none⟩, []) := rfl
      rw [offerAll, hpiece, ih, List.append_assoc, List.flatten_cons]

/-- Both writers have taken the same, and between them and what the inner writers have
nothing is lost. -/
structure InStep (w : XzWriter P) (inner : Outlet UInt8) (v : XzWriter P)
    (got : List UInt8) : Prop where
  same : { w.enc with out := [] } = { v.enc with out := [] }
  sent : inner.accepted ++ w.out ++ w.enc.out = got ++ v.enc.out
  idle : v.out = []

theorem drain_sent (w : XzWriter P) (inner : Outlet UInt8) :
    (w.drain inner).2.accepted ++ (w.drain inner).1.out =
      inner.accepted ++ w.out ++ w.enc.out := by
  rw [List.append_assoc]
  exact inner.send_split _

theorem drain_steady (w : XzWriter P) (got : List UInt8) :
    w.drain ⟨got, none⟩ =
      (⟨{ w.enc with out := [] }, []⟩, ⟨got ++ (w.out ++ w.enc.out), none⟩) := rfl

theorem drain_inStep {w v : XzWriter P} {inner : Outlet UInt8} {got : List UInt8}
    (h : InStep w inner v got) : InStep (w.drain inner).1 (w.drain inner).2 v got where
  same := h.same
  sent := (List.append_nil _).trans ((w.drain_sent inner).trans h.sent)
  idle := h.idle

/-- Once nothing is held the writers are in one state, and so are their inner writers. -/
theorem drained_eq {w v : XzWriter P} {inner : Outlet UInt8} {got : List UInt8}
    (h : InStep w inner v got) (hout : (w.drain inner).1.out = []) :
    v.drain ⟨got, none⟩ = ((w.drain inner).1, ⟨(w.drain inner).2.accepted, none⟩) := by
  have hsent := (w.drain_sent inner).trans h.sent
  rw [hout, List.append_nil] at hsent
  have hw : (w.drain inner).1 = ⟨{ w.enc with out := [] }, []⟩ :=
    congrArg (XzWriter.mk { w.enc with out := [] }) hout
  rw [drain_steady, h.idle, List.nil_append, hsent, hw, h.same]

/-- Two calls that end alike, the second in front of a steady writer. -/
def Alike (r q : XzWriter P × Outlet UInt8 × Answer Error) : Prop :=
  (∃ w inner v got, r = (w, inner, .ok) ∧ q = (v, ⟨got, none⟩, .ok) ∧ InStep w inner v got) ∨
  (∃ w inner v got e, r = (w, inner, .broken e) ∧ q = (v, ⟨got, none⟩, .broken e) ∧
    inner.accepted <+: got)

/-- What the encoder does with its caller's bytes does not depend on the inner writer; what
it hands over lands in the inner writer and behind it in order. -/
theorem accept_alike {w : XzWriter P} (hout : w.out = []) (inner : Outlet UInt8)
    (buf : List UInt8) :
    Alike (w.accept inner buf) (w.accept ⟨inner.accepted, none⟩ buf) := by
  unfold accept
  have hsplit := offerAll_split (w.enc.handOver (XzEncoder.pushTo buf)).pieces inner w.out
  rw [hout, List.append_nil] at hsplit
  simp only [hout, offerAll_steady]
  split
  · exact .inr ⟨_, _, _, _, _, rfl, rfl, ⟨_, hsplit⟩⟩
  · refine .inl ⟨_, _, _, _, rfl, rfl, rfl, ?_, rfl⟩
    refine (List.append_nil _).trans ((drain_sent _ _).trans ?_)
    simp only [hsplit, List.nil_append]
    exact (List.append_nil _).symm

theorem write_follows {w v : XzWriter P} {inner : Outlet UInt8} {got : List UInt8}
    (buf : List UInt8) (h : InStep w inner v got) :
    (∃ w' inner', w.write inner buf = (w', inner', .refused) ∧ InStep w' inner' v got) ∨
      Alike (w.write inner buf) (v.write ⟨got, none⟩ buf) := by
  by_cases hout : (w.drain inner).1.out = []
  · refine .inr ?_
    simp only [write, drained_eq h hout, hout, if_true]
    exact accept_alike hout _ buf
  · exact .inl ⟨_, _, by simp only [write, hout, if_false], drain_inStep h⟩

theorem flush_follows {w v : XzWriter P} {inner : Outlet UInt8} {got : List UInt8}
    (h : InStep w inner v got) :
    ∃ w' inner' answer, w.flush inner = (w', inner', answer) ∧ (∀ e, answer ≠ .broken e) ∧
      InStep w' inner' v got := by
  have hd := drain_inStep h
  unfold flush
  dsimp only
  split
  · refine ⟨_, _, _, rfl, fun e => by split <;> simp, hd.same, ?_, hd.idle⟩
    rw [Outlet.flush_accepted]
    exact hd.sent
  · exact ⟨_, _, _, rfl, by simp, hd⟩

theorem finish_grows (w : XzWriter P) (inner : Outlet UInt8) :
    (w.drain inner).2.accepted <+: (w.finish inner).1.accepted := by
  unfold finish
  dsimp only
  split
  · have hall := (w.drain inner).2.sendAll_grows
      ((w.drain inner).1.enc.handOver XzEncoder.finishTo).pieces
    split
    · split
      · exact hall
      · rwa [Outlet.flush_accepted]
    · exact hall
  · exact List.prefix_rfl

theorem finish_follows {w v : XzWriter P} {inner : Outlet UInt8} {got : List UInt8}
    (h : InStep w inner v got) :
    (w.finish inner).1.accepted <+: (v.finish ⟨got, none⟩).1.accepted ∧
      ((w.finish inner).2 = .ok →
        (w.finish inner).1.accepted = (v.finish ⟨got, none⟩).1.accepted ∧
          (v.finish ⟨got, none⟩).2 = .ok) := by
  by_cases hout : (w.drain inner).1.out = []
  · have hall := (w.drain inner).2.sendAll_below
      ((w.drain inner).1.enc.handOver XzEncoder.finishTo).pieces
    simp only [finish, drained_eq h hout, hout, if_true, Outlet.sendAll_steady]
    split
    next hsent =>
      split
      · exact ⟨hall.1, fun hb => by cases hb⟩
      · simp only [Outlet.flush_accepted]
        exact ⟨hall.1, fun _ => ⟨hall.2 hsent, rfl⟩⟩
    next hsent =>
      refine ⟨?_, fun hb => by cases hb⟩
      split
      · exact hall.1
      · exact (Outlet.flush_accepted _).symm ▸ hall.1
  · have hheld : (w.drain inner).2.accepted <+: (v.drain ⟨got, none⟩).2.accepted := by
      rw [drain_steady, h.idle, List.nil_append, ← h.sent, ← drain_sent]
      exact List.prefix_append _ _
    simp only [finish, hout, if_false]
    exact ⟨hheld.trans (finish_grows v _), fun hb => by cases hb⟩

theorem follows (P : XzParts) : Follows (xzAdapter P) InStep where
  write data h := by
    rcases write_follows data h with hr | ⟨w', inner', v', got', h'⟩ | h'
    · exact .inl hr
    · exact .inr (.inl ⟨w', inner', v', got', h'⟩)
    · exact .inr (.inr h')
  flush h := flush_follows h
  finish h := finish_follows h

theorem drain_grows (w : XzWriter P) (inner : Outlet UInt8) :
    inner.accepted <+: (w.drain inner).2.accepted :=
  inner.send_grows _

theorem accept_grows (w : XzWriter P) (inner : Outlet UInt8) (buf : List UInt8) :
    inner.accepted <+: (w.accept inner buf).2.1.accepted := by
  have hoffer := offerAll_grows (w.enc.handOver (XzEncoder.pushTo buf)).pieces inner w.out
  unfold accept
  dsimp only
  split
  · exact hoffer
  · exact hoffer.trans (drain_grows _ _)

theorem grows (P : XzParts) : Grows (xzAdapter P) where
  write w inner data := by
    have hd := w.drain_grows inner
    unfold xzAdapter write
    dsimp only
    split
    · exact hd.trans (accept_grows _ _ _)
    · exact hd
  flush w inner := by
    have hd := w.drain_grows inner
    unfold xzAdapter flush
    dsimp only
    split
    · rwa [Outlet.flush_accepted]
    · exact hd
  finish w inner := (w.drain_grows inner).trans (finish_grows w inner)

end XzWriter
end LzmaTurbo.Enc
