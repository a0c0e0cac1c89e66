import Mathlib.Data.List.Basic
import Mathlib.Data.UInt
import Mathlib.Tactic.Common

/-!
# The buffered source of a reader

The inner reader gives its bytes in portions of its own: a size of zero is an interrupted
read, and after the last size it gives what there is room for.
-/
namespace LzmaTurbo.Xz

/-- `BUF`. -/
def bufSize : ℕ := 65536

/-- `Source`: what is buffered, what the inner reader still has, and how it gives it. -/
structure Source where
  avail : List UInt8
  rest : List UInt8
  sizes : List ℕ
  eof : Bool
  offset : ℕ
deriving Repr, DecidableEq

namespace Source

def new (input : List UInt8) (sizes : List ℕ) : Source := ⟨[], input, sizes, false, 0⟩

/-- What the reader has still to see. -/
def stream (s : Source) : List UInt8 := s.avail ++ s.rest

/-- `consume`. -/
def consume (s : Source) (n : ℕ) : Source :=
  { s with avail := s.avail.drop n, offset := s.offset + n }

/-- One successful read of at most `k` bytes; nothing is read at the end of the input. -/
def readSome (s : Source) (k : ℕ) : Source :=
  let k := min k (bufSize - s.avail.length)
  if k = 0 ∨ s.rest = [] then { s with eof := true }
  else { s with avail := s.avail ++ s.rest.take k, rest := s.rest.drop k }

/-- The loop of `fill_at_least`. -/
def fillLoop (n : ℕ) : List ℕ → Source → Source
  | [], s =>
      if n ≤ s.avail.length ∨ s.eof then { s with sizes := [] }
      else
        let s := s.readSome bufSize
        if n ≤ s.avail.length then { s with sizes := [] } else { s with sizes := [], eof := true }
  | size :: sizes, s =>
      if n ≤ s.avail.length ∨ s.eof then { s with sizes := size :: sizes }
      else if size = 0 then fillLoop n sizes s
      else fillLoop n sizes (s.readSome size)

/-- `fill_at_least`. -/
def fillAtLeast (s : Source) (n : ℕ) : Source := fillLoop n s.sizes s

/-- `take_into`: nothing if the input ends first. -/
def takeInto (s : Source) (n : ℕ) : Option (List UInt8 × Source) :=
  let s := s.fillAtLeast n
  if s.avail.length < n then none else some (s.avail.take n, s.consume n)

/-- The end of the input is only seen where it is. -/
def Sound (s : Source) : Prop := s.eof = true → s.rest = []

theorem readSome_stream (s : Source) (k : ℕ) : (s.readSome k).stream = s.stream := by
  unfold readSome stream
  dsimp only
  split
  · rfl
  · rw [List.append_assoc, List.take_append_drop]

theorem readSome_sound {s : Source} (h : s.Sound) {k : ℕ} (hk : 0 < k)
    (hroom : s.avail.length < bufSize) : (s.readSome k).Sound := by
  unfold readSome
  dsimp only
  split
  next hend =>
    rcases hend with hz | hnil
    · omega
    · exact fun _ => hnil
  next =>
    intro he
    change s.rest.drop _ = []
    rw [h he, List.drop_nil]

/-- What a call of `fill_at_least` leaves. -/
structure Filled (s : Source) (n : ℕ) (s' : Source) : Prop where
  stream : s'.stream = s.stream
  sound : s'.Sound
  full : n ≤ s'.avail.length ∨ s'.rest = []
  offset : s'.offset = s.offset

theorem readSome_offset (s : Source) (k : ℕ) : (s.readSome k).offset = s.offset := by
  unfold readSome
  dsimp only
  split <;> rfl

theorem fillLoop_filled {n : ℕ} (hn : n ≤ bufSize) (sizes : List ℕ) {s : Source} (h : s.Sound) :
    s.Filled n (fillLoop n sizes s) := by
  induction sizes generalizing s with
  | nil =>
      rw [fillLoop]
      split
      next hdone => exact ⟨rfl, h, hdone.imp_right h, rfl⟩
      next hgo =>
        have hroom : s.avail.length < bufSize := by
          have hlt := Nat.not_le.1 (not_or.1 hgo).1
          omega
        have hsound := readSome_sound h (show 0 < bufSize by decide) hroom
        have hstream := s.readSome_stream bufSize
        have hoff := s.readSome_offset bufSize
        dsimp only
        split
        next hfull => exact ⟨hstream, hsound, Or.inl hfull, hoff⟩
        next hshort =>
          -- a read that leaves room has read everything
          have hrest : (s.readSome bufSize).rest = [] := by
            unfold readSome at hshort ⊢
            dsimp only at hshort ⊢
            split
            next hend => exact hend.resolve_left (by omega)
            next hsome =>
              rw [if_neg hsome] at hshort
              change s.rest.drop _ = []
              have hlen : (s.avail ++ s.rest.take (min bufSize (bufSize - s.avail.length))).length
                  < n := Nat.not_le.1 hshort
              rw [List.length_append, List.length_take] at hlen
              exact List.drop_eq_nil_of_le (by omega)
          exact ⟨hstream, fun _ => hrest, Or.inr hrest, hoff⟩
  | cons size sizes ih =>
      rw [fillLoop]
      split
      next hdone => exact ⟨rfl, h, hdone.imp_right h, rfl⟩
      next hgo =>
        split
        · exact ih h
        next hsize =>
          have hroom : s.avail.length < bufSize := by
            have hlt := Nat.not_le.1 (not_or.1 hgo).1
            omega
          have hrest := ih (readSome_sound h (Nat.pos_of_ne_zero hsize) hroom)
          exact ⟨hrest.stream.trans (s.readSome_stream size), hrest.sound, hrest.full,
            hrest.offset.trans (s.readSome_offset size)⟩

theorem fillAtLeast_filled {s : Source} (h : s.Sound) {n : ℕ} (hn : n ≤ bufSize) :
    s.Filled n (s.fillAtLeast n) :=
  fillLoop_filled hn s.sizes h

theorem consume_sound {s : Source} (h : s.Sound) (n : ℕ) : (s.consume n).Sound := h

theorem consume_stream (s : Source) {n : ℕ} (hn : n ≤ s.avail.length) :
    (s.consume n).stream = s.stream.drop n := by
  unfold consume stream
  rw [List.drop_append_of_le_length hn]

/-- What is buffered is all there is, or at least what was asked for. -/
theorem Filled.avail {s s' : Source} {n : ℕ} (h : s.Filled n s') {bytes rest : List UInt8}
    (hs : s.stream = bytes ++ rest) (hn : bytes.length ≤ n) :
    ∃ tail, s'.avail = bytes ++ tail := by
  have hstream : s'.avail ++ s'.rest = bytes ++ rest := h.stream.trans hs
  rcases h.full with hfull | hnil
  · obtain ⟨tail, htail⟩ := List.prefix_of_prefix_length_le (List.prefix_append bytes rest)
      (hstream ▸ List.prefix_append s'.avail s'.rest) (Nat.le_trans hn hfull)
    exact ⟨tail, htail.symm⟩
  · rw [hnil, List.append_nil] at hstream
    exact ⟨rest, hstream⟩

/-- Bytes are taken when they are there. -/
theorem takeInto_some {s : Source} (h : s.Sound) (bytes : List UInt8) {rest : List UInt8}
    (hs : s.stream = bytes ++ rest) (hn : bytes.length ≤ bufSize) :
    ∃ s', s.takeInto bytes.length = some (bytes, s') ∧ s'.stream = rest ∧ s'.Sound ∧
      s'.offset = s.offset + bytes.length := by
  have hfill := fillAtLeast_filled h hn
  obtain ⟨tail, htail⟩ := hfill.avail hs (Nat.le_refl _)
  have hle : bytes.length ≤ (s.fillAtLeast bytes.length).avail.length := by
    rw [htail, List.length_append]
    omega
  refine ⟨(s.fillAtLeast bytes.length).consume bytes.length, ?_, ?_, consume_sound hfill.sound _,
    ?_⟩
  · unfold takeInto
    dsimp only
    rw [if_neg (Nat.not_lt.2 hle), htail, List.take_left]
  · rw [consume_stream _ hle, hfill.stream, hs, List.drop_left]
  · change _ + _ = _
    rw [hfill.offset]

/-- Bytes that are taken were there. -/
theorem takeInto_of_some {s s' : Source} (h : s.Sound) {n : ℕ} (hn : n ≤ bufSize)
    {bytes : List UInt8} (ht : s.takeInto n = some (bytes, s')) :
    bytes.length = n ∧ s.stream = bytes ++ s'.stream ∧ s'.Sound ∧ s'.offset = s.offset + n := by
  have hfill := fillAtLeast_filled h hn
  unfold takeInto at ht
  dsimp only at ht
  split at ht
  · cases ht
  next hle =>
    have hle := Nat.not_lt.1 hle
    cases ht
    refine ⟨List.length_take_of_le hle, ?_, consume_sound hfill.sound n, ?_⟩
    · rw [consume_stream _ hle, ← hfill.stream]
      unfold stream
      rw [List.drop_append_of_le_length hle, ← List.append_assoc, List.take_append_drop]
    · change _ + _ = _
      rw [hfill.offset]

end Source
end LzmaTurbo.Xz
