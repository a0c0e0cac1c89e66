import Mathlib.Data.List.Basic
import Mathlib.Data.Nat.Notation

/-!
# Adapters in front of an unreliable sink

A sink may take any part of what it is offered, be interrupted, or fail and recover.
An adapter that turns a caller's writes into output keeps what the sink has not taken
and offers it again. To be compared with the same adapter in front of a sink that takes
everything, it is enough that one call keeps the two in step.
-/
namespace LzmaTurbo.WriteAdapter

variable {α σ ε : Type}

/-- What a sink answers to one call. -/
inductive Reply where
  | took (n : ℕ)
  | interrupted
  | failed
deriving Repr, DecidableEq

/-- What a sink has accepted and the replies it has yet to make. A sink with no list of
replies takes everything; one whose list is used up fails from then on. -/
structure Outlet (α : Type) where
  accepted : List α
  replies : Option (List Reply)
deriving Repr, DecidableEq

/-- A sink that takes everything. -/
def Outlet.steady : Outlet α := ⟨[], none⟩

/-- Offers the data until it is gone, the sink takes nothing, or it fails: what it took,
what is left, and the replies still to come. An interrupted call is made again. -/
def sendLoop : List Reply → List α → List α × List α × List Reply
  | replies, [] => ([], [], replies)
  | [], data => ([], data, [])
  | .took 0 :: replies, data => ([], data, replies)
  | .took (n + 1) :: replies, data =>
      let rest := sendLoop replies (data.drop (n + 1))
      (data.take (n + 1) ++ rest.1, rest.2)
  | .interrupted :: replies, data => sendLoop replies data
  | .failed :: replies, data => ([], data, replies)

/-- The sink after it was offered `data`, and what it did not take. -/
def Outlet.send (sink : Outlet α) (data : List α) : Outlet α × List α :=
  match sink.replies with
  | none => ({ sink with accepted := sink.accepted ++ data }, [])
  | some replies =>
      let sent := sendLoop replies data
      (⟨sink.accepted ++ sent.1, some sent.2.2⟩, sent.2.1)

/-- Writes the pieces one after another, up to the first that is not taken whole. -/
def Outlet.sendAll (sink : Outlet α) : List (List α) → Outlet α × Bool
  | [] => (sink, true)
  | piece :: pieces =>
      if (sink.send piece).2 = [] then (sink.send piece).1.sendAll pieces
      else ((sink.send piece).1, false)

def Outlet.flush (sink : Outlet α) : Outlet α × Bool :=
  match sink.replies with
  | none => (sink, true)
  | some [] => (sink, false)
  | some (.took _ :: replies) => ({ sink with replies := some replies }, true)
  | some (_ :: replies) => ({ sink with replies := some replies }, false)

theorem sendLoop_split (replies : List Reply) (data : List α) :
    (sendLoop replies data).1 ++ (sendLoop replies data).2.1 = data := by
  fun_induction sendLoop replies data with
  | case1 => rfl
  | case2 => rfl
  | case3 => rfl
  | case4 n replies data hne rest ih =>
      rw [List.append_assoc, ih, List.take_append_drop]
  | case5 replies data hne ih => exact ih
  | case6 => rfl

/-- Nothing is lost between the sink and what is kept for the next attempt. -/
theorem Outlet.send_split (sink : Outlet α) (data : List α) :
    (sink.send data).1.accepted ++ (sink.send data).2 = sink.accepted ++ data := by
  unfold Outlet.send
  split
  · simp
  · rw [List.append_assoc, sendLoop_split]

@[simp] theorem Outlet.send_nil (sink : Outlet α) : sink.send [] = (sink, []) := by
  obtain ⟨accepted, replies⟩ := sink
  cases replies with
  | none => simp [Outlet.send]
  | some replies => cases replies <;> simp [Outlet.send, sendLoop]

theorem Outlet.send_steady (accepted data : List α) :
    Outlet.send ⟨accepted, none⟩ data = (⟨accepted ++ data, none⟩, []) := rfl

theorem Outlet.send_grows (sink : Outlet α) (data : List α) :
    sink.accepted <+: (sink.send data).1.accepted := by
  unfold Outlet.send
  split <;> exact List.prefix_append _ _

theorem Outlet.send_below (sink : Outlet α) (data : List α) :
    (sink.send data).1.accepted <+: sink.accepted ++ data :=
  ⟨_, sink.send_split data⟩

theorem Outlet.sendAll_grows (sink : Outlet α) (pieces : List (List α)) :
    sink.accepted <+: (sink.sendAll pieces).1.accepted := by
  induction pieces generalizing sink with
  | nil => exact List.prefix_rfl
  | cons piece pieces ih =>
      rw [Outlet.sendAll]
      split
      · exact (sink.send_grows piece).trans (ih _)
      · exact sink.send_grows piece

theorem Outlet.sendAll_steady (accepted : List α) (pieces : List (List α)) :
    Outlet.sendAll ⟨accepted, none⟩ pieces = (⟨accepted ++ pieces.flatten, none⟩, true) := by
  induction pieces generalizing accepted with
  | nil => simp [Outlet.sendAll]
  | cons piece pieces ih =>
      rw [Outlet.sendAll, Outlet.send_steady, if_pos rfl, ih, List.append_assoc, List.flatten_cons]

theorem Outlet.sendAll_below (sink : Outlet α) (pieces : List (List α)) :
    (sink.sendAll pieces).1.accepted <+: sink.accepted ++ pieces.flatten ∧
      ((sink.sendAll pieces).2 = true →
        (sink.sendAll pieces).1.accepted = sink.accepted ++ pieces.flatten) := by
  induction pieces generalizing sink with
  | nil => simp [Outlet.sendAll]
  | cons piece pieces ih =>
      have hsplit := sink.send_split piece
      rw [Outlet.sendAll, List.flatten_cons, ← List.append_assoc]
      split
      next hsent =>
        rw [hsent, List.append_nil] at hsplit
        rw [← hsplit]
        exact ih _
      next =>
        refine ⟨(sink.send_below piece).trans (List.prefix_append _ _), fun h => ?_⟩
        cases h

@[simp] theorem Outlet.flush_accepted (sink : Outlet α) :
    sink.flush.1.accepted = sink.accepted := by
  unfold Outlet.flush
  split <;> rfl

theorem Outlet.flush_steady (accepted : List α) :
    Outlet.flush ⟨accepted, none⟩ = (⟨accepted, none⟩, true) := rfl

/-- How a call on an adapter ends: `refused` is the sink's error, `broken` one of the
machine behind the adapter. -/
inductive Answer (ε : Type) where
  | ok
  | refused
  | broken (e : ε)
deriving Repr, DecidableEq

structure Adapter (σ α ε : Type) where
  write : σ → Outlet α → List α → σ × Outlet α × Answer ε
  flush : σ → Outlet α → σ × Outlet α × Answer ε
  finish : σ → Outlet α → Outlet α × Answer ε

inductive Request (α : Type) where
  | write (data : List α)
  | flush
deriving Repr, DecidableEq

namespace Adapter

def call (a : Adapter σ α ε) (s : σ) (sink : Outlet α) : Request α → σ × Outlet α × Answer ε
  | .write data => a.write s sink data
  | .flush => a.flush s sink

/-- What the sink has after the calls, and their answers. A call in which the machine
itself breaks is the last. -/
def run (a : Adapter σ α ε) (s : σ) (sink : Outlet α) :
    List (Request α) → Outlet α × List (Answer ε)
  | [] => (sink, [])
  | c :: calls =>
      match a.call s sink c with
      | (_, sink, .broken e) => (sink, [.broken e])
      | (s, sink, answer) =>
          let rest := a.run s sink calls
          (rest.1, answer :: rest.2)

/-- The same calls ended by `finish`. -/
def whole (a : Adapter σ α ε) (s : σ) (sink : Outlet α) :
    List (Request α) → Outlet α × Answer ε
  | [] => a.finish s sink
  | c :: calls =>
      match a.call s sink c with
      | (_, sink, .broken e) => (sink, .broken e)
      | (s, sink, _) => a.whole s sink calls

end Adapter

/-- The data of the writes that were not refused. -/
def taken : List (Request α) → List (Answer ε) → List (List α)
  | .write _ :: calls, .refused :: answers => taken calls answers
  | .write data :: calls, _ :: answers => data :: taken calls answers
  | .flush :: calls, _ :: answers => taken calls answers
  | _, _ => []

/-- What a steady sink ends with when only the writes in `pieces` are made. -/
def Adapter.stream (a : Adapter σ α ε) (s : σ) (pieces : List (List α)) : List α :=
  (a.whole s .steady (pieces.map .write)).1.accepted

/-- One call keeps an adapter in step with the same adapter in front of a steady sink:
a refused call leaves them in step as they are, another is answered as the steady one
answers it. Only what is in step at the end need agree with the sink. -/
structure Follows (a : Adapter σ α ε) (InStep : σ → Outlet α → σ → List α → Prop) : Prop where
  write {s sink t got} (data : List α) : InStep s sink t got →
    (∃ s' sink', a.write s sink data = (s', sink', .refused) ∧ InStep s' sink' t got) ∨
    (∃ s' sink' t' got', a.write s sink data = (s', sink', .ok) ∧
      a.write t ⟨got, none⟩ data = (t', ⟨got', none⟩, .ok) ∧ InStep s' sink' t' got') ∨
    (∃ s' sink' t' got' e, a.write s sink data = (s', sink', .broken e) ∧
      a.write t ⟨got, none⟩ data = (t', ⟨got', none⟩, .broken e) ∧ sink'.accepted <+: got')
  flush {s sink t got} : InStep s sink t got →
    ∃ s' sink' answer, a.flush s sink = (s', sink', answer) ∧ (∀ e, answer ≠ .broken e) ∧
      InStep s' sink' t got
  finish {s sink t got} : InStep s sink t got →
    (a.finish s sink).1.accepted <+: (a.finish t ⟨got, none⟩).1.accepted ∧
      ((a.finish s sink).2 = .ok →
        (a.finish s sink).1.accepted = (a.finish t ⟨got, none⟩).1.accepted ∧
          (a.finish t ⟨got, none⟩).2 = .ok)

/-- What a sink has accepted it keeps. -/
structure Grows (a : Adapter σ α ε) : Prop where
  write (s : σ) (sink : Outlet α) (data : List α) :
    sink.accepted <+: (a.write s sink data).2.1.accepted
  flush (s : σ) (sink : Outlet α) : sink.accepted <+: (a.flush s sink).2.1.accepted
  finish (s : σ) (sink : Outlet α) : sink.accepted <+: (a.finish s sink).1.accepted

variable {a : Adapter σ α ε}

theorem Grows.call (h : Grows a) (s : σ) (sink : Outlet α) (c : Request α) :
    sink.accepted <+: (a.call s sink c).2.1.accepted := by
  cases c with
  | write data => exact h.write s sink data
  | flush => exact h.flush s sink

theorem Grows.whole (h : Grows a) (calls : List (Request α)) (s : σ) (sink : Outlet α) :
    sink.accepted <+: (a.whole s sink calls).1.accepted := by
  induction calls generalizing s sink with
  | nil => exact h.finish s sink
  | cons c calls ih =>
      have hcall := h.call s sink c
      rw [Adapter.whole]
      split
      next hc => rwa [hc] at hcall
      next hc =>
        rw [hc] at hcall
        exact hcall.trans (ih _ _)

/-- What the sink has after the first calls is a prefix of what it ends with. -/
theorem Grows.run_whole (h : Grows a) (done rest : List (Request α)) (s : σ)
    (sink : Outlet α) :
    (a.run s sink done).1.accepted <+: (a.whole s sink (done ++ rest)).1.accepted := by
  induction done generalizing s sink with
  | nil => exact h.whole rest s sink
  | cons c done ih =>
      rw [Adapter.run, List.cons_append, Adapter.whole]
      split
      · exact List.prefix_rfl
      · exact ih _ _

/-- Whatever the sink does, it ends with a prefix of what a steady sink would have for the
writes that were taken, and with all of it when `finish` succeeds. -/
theorem Follows.whole {InStep : σ → Outlet α → σ → List α → Prop} (h : Follows a InStep)
    (calls : List (Request α)) {s : σ} {sink : Outlet α} {t : σ} {got : List α}
    (hin : InStep s sink t got) :
    let kept := (taken calls (a.run s sink calls).2).map Request.write
    (a.whole s sink calls).1.accepted <+: (a.whole t ⟨got, none⟩ kept).1.accepted ∧
      ((a.whole s sink calls).2 = .ok →
        (a.whole s sink calls).1.accepted = (a.whole t ⟨got, none⟩ kept).1.accepted ∧
          (a.whole t ⟨got, none⟩ kept).2 = .ok) := by
  induction calls generalizing s sink t got with
  | nil => exact h.finish hin
  | cons c calls ih =>
      cases c with
      | flush =>
          obtain ⟨s', sink', answer, hc, hok, hin'⟩ := h.flush hin
          cases answer with
          | broken e => exact absurd rfl (hok e)
          | ok | refused =>
              simpa only [Adapter.whole, Adapter.run, Adapter.call, hc, taken] using ih hin'
      | write data =>
          rcases h.write data hin with ⟨s', sink', hc, hin'⟩ |
            ⟨s', sink', t', got', hc, ht, hin'⟩ | ⟨s', sink', t', got', e, hc, ht, hle⟩
          · simpa only [Adapter.whole, Adapter.run, Adapter.call, hc, taken] using ih hin'
          · simpa only [Adapter.whole, Adapter.run, Adapter.call, hc, ht, taken, List.map_cons]
              using ih hin'
          · have hempty : taken calls ([] : List (Answer ε)) = [] := by
              rcases calls with _ | ⟨⟨⟩, _⟩ <;> rfl
            simp only [Adapter.whole, Adapter.run, Adapter.call, hc, ht, taken, List.map_cons]
            exact ⟨hle, fun hb => by cases hb⟩

/-- The law of an adapter: at every moment of every run the sink has a prefix of the
stream, and a run that ends well has handed over the whole of it. -/
theorem Follows.stream {InStep : σ → Outlet α → σ → List α → Prop} (h : Follows a InStep)
    (hg : Grows a) {s : σ} {sink : Outlet α} (hin : InStep s sink s [])
    (done rest : List (Request α)) :
    let kept := taken (done ++ rest) (a.run s sink (done ++ rest)).2
    (a.run s sink done).1.accepted <+: a.stream s kept ∧
      (a.whole s sink (done ++ rest)).1.accepted <+: a.stream s kept ∧
      ((a.whole s sink (done ++ rest)).2 = .ok →
        (a.whole s sink (done ++ rest)).1.accepted = a.stream s kept ∧
          (a.whole s .steady (kept.map .write)).2 = .ok) := by
  obtain ⟨hle, heq⟩ := h.whole (done ++ rest) hin
  exact ⟨(hg.run_whole done rest s sink).trans hle, hle, heq⟩

/-- In front of a steady sink the writes of an adapter come to a stream that is fixed by
their bytes alone, however these are cut. `Part` says what the sink may have while the
bytes are written, `Whole` what it must have once `finish` succeeds. -/
structure Delivers (a : Adapter σ α ε) (Held : σ → List α → List α → Prop)
    (Part Whole : List α → List α → Prop) : Prop where
  write {s got data} (piece : List α) : Held s got data →
    (∃ s' got', a.write s ⟨got, none⟩ piece = (s', ⟨got', none⟩, .ok) ∧
      Held s' got' (data ++ piece)) ∨
    (∃ s' got' e, a.write s ⟨got, none⟩ piece = (s', ⟨got', none⟩, .broken e) ∧
      ∀ more, Part got' (data ++ piece ++ more))
  finish {s got data} : Held s got data →
    Part (a.finish s ⟨got, none⟩).1.accepted data ∧
      ((a.finish s ⟨got, none⟩).2 = .ok → Whole (a.finish s ⟨got, none⟩).1.accepted data)

theorem Delivers.whole {Held : σ → List α → List α → Prop} {Part Whole : List α → List α → Prop}
    (h : Delivers a Held Part Whole) (pieces : List (List α)) {s : σ} {got data : List α}
    (hheld : Held s got data) :
    let ended := a.whole s ⟨got, none⟩ (pieces.map .write)
    Part ended.1.accepted (data ++ pieces.flatten) ∧
      (ended.2 = .ok → Whole ended.1.accepted (data ++ pieces.flatten)) := by
  induction pieces generalizing s got data with
  | nil =>
      rw [List.flatten_nil, List.append_nil]
      exact h.finish hheld
  | cons piece pieces ih =>
      rw [List.flatten_cons, ← List.append_assoc]
      rcases h.write piece hheld with ⟨s', got', hw, hheld'⟩ | ⟨s', got', e, hw, hpart⟩
      · simpa only [List.map_cons, Adapter.whole, Adapter.call, hw] using ih hheld'
      · simp only [List.map_cons, Adapter.whole, Adapter.call, hw]
        exact ⟨hpart _, fun hb => by cases hb⟩

end LzmaTurbo.WriteAdapter
