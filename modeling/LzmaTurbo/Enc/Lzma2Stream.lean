import LzmaTurbo.Enc.Lzma2Writer

/-!
# What the raw writer's bytes come to

The bytes of the stream are the encoder's over the whole input, however the writes cut it.
Up to a dictionary the writer holds the input and the encoder gets it in one piece. Past
it a pipe hands the stream over as the input comes, and it hands over nothing that input
yet to come could change.
-/
namespace LzmaTurbo.Enc
open WriteAdapter

/-- Calls that a pipe answered well: the input so far and what it has handed over. -/
inductive Lzma2Parts.Fed (P : Lzma2Parts) (start : P.Lzma2Pipe) :
    List UInt8 → List UInt8 → P.Lzma2Pipe → Prop
  | start : Fed P start [] [] start
  | write {data out : List UInt8} {pipe : P.Lzma2Pipe} (more : List UInt8) :
      Fed P start data out pipe → (P.write pipe more).result = .ok () →
      Fed P start (data ++ more) (out ++ (P.write pipe more).pieces.flatten)
        (P.write pipe more).state
  | writeOwned {data out : List UInt8} {pipe : P.Lzma2Pipe} (more : List UInt8) :
      Fed P start data out pipe → (P.writeOwned pipe more).result = .ok () →
      Fed P start (data ++ more) (out ++ (P.writeOwned pipe more).pieces.flatten)
        (P.writeOwned pipe more).state

/-- The pipe of `enc` writes what `encode` gives for inputs past a dictionary. -/
structure Lzma2Parts.Pipes (P : Lzma2Parts) (enc : P.Lzma2Encoder) (dictSize : ℕ)
    (encode : List UInt8 → List UInt8) : Prop where
  write {first pipe : P.Lzma2Pipe} {data out : List UInt8} (more rest : List UInt8) :
    P.start enc = .ok first → P.Fed first data out pipe →
    dictSize < (data ++ more ++ rest).length →
    out ++ (P.write pipe more).pieces.flatten <+: encode (data ++ more ++ rest)
  writeOwned {first pipe : P.Lzma2Pipe} {data out : List UInt8} (more rest : List UInt8) :
    P.start enc = .ok first → P.Fed first data out pipe →
    dictSize < (data ++ more ++ rest).length →
    out ++ (P.writeOwned pipe more).pieces.flatten <+: encode (data ++ more ++ rest)
  finish {first pipe : P.Lzma2Pipe} {data out : List UInt8} :
    P.start enc = .ok first → P.Fed first data out pipe → dictSize < data.length →
    out ++ (P.finish pipe).pieces.flatten <+: encode data
  finished {first pipe : P.Lzma2Pipe} {data out : List UInt8} {size : ℕ} :
    P.start enc = .ok first → P.Fed first data out pipe → dictSize < data.length →
    (P.finish pipe).result = .ok size →
    out ++ (P.finish pipe).pieces.flatten = encode data ∧ size = (encode data).length

/-- `encode` is what `enc` makes of an input, whole or through its pipe. -/
structure Lzma2Parts.Lawful (P : Lzma2Parts) (enc : P.Lzma2Encoder) (dictSize : ℕ)
    (encode : List UInt8 → List UInt8) : Prop extends P.Pipes enc dictSize encode where
  encodeToVec {data out : List UInt8} : P.encodeToVec enc data = .ok out → out = encode data
  /-- The encoder comes back as it was. -/
  start {enc' : P.Lzma2Encoder} : P.start enc = .error enc' → enc' = enc

variable {P : Lzma2Parts} {enc : P.Lzma2Encoder} {dictSize : ℕ}
  {encode : List UInt8 → List UInt8}

/-- What a pipe has handed over stays right whatever comes after it. -/
theorem Lzma2Parts.Pipes.below (h : P.Pipes enc dictSize encode) {first pipe : P.Lzma2Pipe}
    {data out : List UInt8} (hstart : P.start enc = .ok first) (hfed : P.Fed first data out pipe)
    (rest : List UInt8) (hlong : dictSize < (data ++ rest).length) :
    out <+: encode (data ++ rest) := by
  cases hfed with
  | start => exact List.nil_prefix
  | write more hfed hok => exact h.write more rest hstart hfed hlong
  | writeOwned more hfed hok => exact h.writeOwned more rest hstart hfed hlong

namespace Lzma2Writer

/-- The writer in front of a steady inner writer that has `got`, after it took `data`. -/
inductive Held (enc : P.Lzma2Encoder) (dictSize : ℕ) :
    Lzma2Writer P → List UInt8 → List UInt8 → Prop
  | whole {w : Lzma2Writer P} {data : List UInt8} : w.enc = some enc → w.pipe = none →
      w.threshold = dictSize → w.buf = data → w.out = [] →
      (w.mayStream = true → data.length ≤ dictSize) → Held enc dictSize w [] data
  | piped {w : Lzma2Writer P} {first pipe : P.Lzma2Pipe} {got data : List UInt8} :
      P.start enc = .ok first → w.pipe = some pipe → P.Fed first data (got ++ w.out) pipe →
      dictSize < data.length → Held enc dictSize w got data

theorem held_new (enc : P.Lzma2Encoder) (dictSize : ℕ) :
    Held enc dictSize (new enc dictSize) [] [] :=
  .whole rfl rfl rfl rfl rfl fun _ => Nat.zero_le _

theorem drain_held {w : Lzma2Writer P} {got data : List UInt8} (h : Held enc dictSize w got data) :
    Held enc dictSize { w with out := [] } (got ++ w.out) data := by
  cases h with
  | whole henc hpipe hlimit hbuf hout hshort =>
      rw [hout]
      exact .whole henc hpipe hlimit hbuf rfl hshort
  | piped hstart hpipe hfed hlong =>
      exact .piped hstart hpipe (by rwa [List.append_nil]) hlong

/-- A pipe that has started is fed the bytes of the call. -/
theorem feed_held (h : P.Pipes enc dictSize encode) {w : Lzma2Writer P}
    {first pipe : P.Lzma2Pipe} {got data : List UInt8} (piece : List UInt8)
    (hstart : P.start enc = .ok first) (hpipe : w.pipe = some pipe)
    (hfed : P.Fed first data (got ++ w.out) pipe) (hlong : dictSize < (data ++ piece).length) :
    (∃ w' got', w.feed ⟨got, none⟩ piece = (w', ⟨got', none⟩, .ok) ∧
      Held enc dictSize w' got' (data ++ piece)) ∨
    (∃ w' got' e, w.feed ⟨got, none⟩ piece = (w', ⟨got', none⟩, .broken e) ∧
      ∀ more, got' <+: encode (data ++ piece ++ more)) := by
  unfold feed
  rw [hpipe]
  dsimp only
  split
  next hok =>
    refine .inl ⟨_, _, rfl, .piped hstart rfl ?_ hlong⟩
    simpa only [Outlet.send_steady, drain, List.append_nil, List.append_assoc] using
      hfed.write piece hok
  next e hbad =>
    refine .inr ⟨_, _, _, rfl, fun more => (List.prefix_append got w.out).trans ?_⟩
    have hlonger : dictSize < (data ++ (piece ++ more)).length :=
      Nat.lt_of_lt_of_le hlong (by simp only [List.length_append]; omega)
    rw [List.append_assoc]
    exact h.below hstart hfed _ hlonger

theorem accept_held (h : P.Lawful enc dictSize encode) {w : Lzma2Writer P}
    {got data : List UInt8} (hw : Held enc dictSize w got data) (hout : w.out = [])
    (piece : List UInt8) :
    (∃ w' got', w.accept ⟨got, none⟩ piece = (w', ⟨got', none⟩, .ok) ∧
      Held enc dictSize w' got' (data ++ piece)) ∨
    (∃ w' got' e, w.accept ⟨got, none⟩ piece = (w', ⟨got', none⟩, .broken e) ∧
      ∀ more, got' <+: encode (data ++ piece ++ more)) := by
  unfold accept
  cases hw with
  | piped hstart hpipe hfed hlong =>
      rw [hpipe]
      have hlonger : dictSize < (data ++ piece).length :=
        Nat.lt_of_lt_of_le hlong (by rw [List.length_append]; omega)
      exact feed_held h.toPipes piece hstart hpipe hfed hlonger
  | whole henc hpipe hlimit hbuf _ hshort =>
      rw [hpipe]
      dsimp only
      have hall : w.buf ++ piece.take (w.take piece) ++ piece.drop (w.take piece) =
          data ++ piece := by
        rw [List.append_assoc, List.take_append_drop, hbuf]
      split
      next hnone =>
        rw [hnone, List.append_nil] at hall
        refine .inl ⟨_, _, rfl, .whole henc rfl hlimit hall hout fun (hmay : w.mayStream) => ?_⟩
        have hroom : w.take piece ≤ dictSize - data.length := by
          simp only [take, hmay, if_true, hlimit, hbuf, Nat.min_le_left]
        have hfit := hshort hmay
        rw [← hall, hbuf, List.length_append, List.length_take]
        omega
      next hmore =>
        have hmay : w.mayStream = true := by
          by_contra hmay
          exact hmore (by simp [take, hmay])
        -- What did not fit is past the dictionary.
        have hlong : dictSize < (data ++ piece).length := by
          have hleft := List.length_pos_of_ne_nil hmore
          simp only [take, hmay, if_true, hlimit, hbuf, List.length_drop] at hleft
          rw [List.length_append]
          omega
        unfold startPipe
        simp only [henc]
        cases hstart : P.start enc with
        | error enc' =>
            refine .inl ⟨_, _, rfl, .whole ?_ rfl hlimit hall hout fun hb => by cases hb⟩
            rw [h.start hstart]
        | ok first =>
            dsimp only
            cases hheld : (P.writeOwned first (w.buf ++ piece.take (w.take piece))).result with
            | error e =>
                dsimp only
                exact .inr ⟨_, _, _, rfl, fun more => List.nil_prefix⟩
            | ok _ =>
                dsimp only
                have hfed : P.Fed first _ _ _ := Lzma2Parts.Fed.start.writeOwned _ hheld
                rw [List.nil_append, List.nil_append] at hfed
                rw [← hall] at hlong ⊢
                refine feed_held h.toPipes _ hstart rfl ?_ hlong
                simpa only [hout, List.nil_append] using hfed

theorem write_held (h : P.Lawful enc dictSize encode) {w : Lzma2Writer P}
    {got data : List UInt8} (piece : List UInt8) (hw : Held enc dictSize w got data) :
    (∃ w' got', w.write ⟨got, none⟩ piece = (w', ⟨got', none⟩, .ok) ∧
      Held enc dictSize w' got' (data ++ piece)) ∨
    (∃ w' got' e, w.write ⟨got, none⟩ piece = (w', ⟨got', none⟩, .broken e) ∧
      ∀ more, got' <+: encode (data ++ piece ++ more)) := by
  simp only [write, drain_steady, if_true]
  exact accept_held h (drain_held hw) rfl piece

theorem finish_held (h : P.Lawful enc dictSize encode) {w : Lzma2Writer P}
    {got data : List UInt8} (hw : Held enc dictSize w got data) :
    (w.finish ⟨got, none⟩).1.accepted <+: encode data ∧
      ((w.finish ⟨got, none⟩).2 = .ok → (w.finish ⟨got, none⟩).1.accepted = encode data) := by
  unfold finish lastOut
  cases hw with
  | whole henc hpipe hlimit hbuf hout hshort =>
      simp only [hpipe, henc]
      cases hend : P.encodeToVec enc w.buf with
      | error e => exact ⟨List.nil_prefix, fun hb => by cases hb⟩
      | ok out =>
          rw [hbuf] at hend
          simp only [drain_steady, if_true, Outlet.flush_accepted, h.encodeToVec hend]
          exact ⟨List.prefix_rfl, fun _ => rfl⟩
  | piped hstart hpipe hfed hlong =>
      rename_i pipe
      simp only [hpipe]
      cases hend : (P.finish pipe).result with
      | error e =>
          have hbelow := h.below hstart hfed [] (by rwa [List.append_nil])
          rw [List.append_nil] at hbelow
          exact ⟨(List.prefix_append got w.out).trans hbelow, fun hb => by cases hb⟩
      | ok size =>
          have hall := (h.finished hstart hfed hlong hend).1
          rw [List.append_assoc] at hall
          simp only [Except.map, drain_steady, if_true, Outlet.flush_accepted, hall]
          exact ⟨List.prefix_rfl, fun _ => trivial⟩

/-- The stream of the raw writer is the encoder's over all that was written. -/
theorem delivers (h : P.Lawful enc dictSize encode) :
    Delivers (lzma2Adapter P) (Held enc dictSize) (fun got data => got <+: encode data)
      (fun got data => got = encode data) where
  write piece hw := write_held h piece hw
  finish hw := finish_held h hw

end Lzma2Writer
end LzmaTurbo.Enc
