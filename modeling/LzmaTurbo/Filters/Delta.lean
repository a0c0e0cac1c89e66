import LzmaTurbo.Lib.Rewriter

/-!
# The delta filter

The filter adds the byte `distance` back to each byte in turn, and the encoder
takes it away. A `Delta` keeps the last `distance` bytes between calls, oldest
first. Every path of the source, the two unrolled distances, the short buffer
and the two loops over a long one, makes the same steps of a byte rewriter whose
state is that history.
-/
namespace LzmaTurbo.Filters
open Rewriter

/-- `DELTA_STATE_SIZE`. -/
def deltaStateSize : ℕ := 256

structure Delta where
  distance : ℕ
  state : List UInt8
  distance_pos : 0 < distance
  distance_le : distance ≤ deltaStateSize
  state_length : state.length = deltaStateSize

namespace Delta

theorem distance_of_byte (props : UInt8) : props.toNat + 1 ≤ deltaStateSize := props.toNat_lt

def new (props : UInt8) : Delta where
  distance := props.toNat + 1
  state := List.replicate deltaStateSize 0
  distance_pos := Nat.succ_pos _
  distance_le := distance_of_byte props
  state_length := List.length_replicate

theorem keep_length (d : Delta) (xs : List UInt8) :
    ((xs ++ d.state.drop xs.length).take deltaStateSize).length = deltaStateSize := by
  have h := d.state_length
  rw [List.length_take, List.length_append, List.length_drop, h]
  omega

/-- `state[..xs.len()].copy_from_slice(xs)`. -/
def keep (d : Delta) (xs : List UInt8) : Delta :=
  { d with
    state := (xs ++ d.state.drop xs.length).take deltaStateSize
    state_length := d.keep_length xs }

/-- The loop of distance one. -/
def decodeOne (previous : UInt8) : List UInt8 → List UInt8 × UInt8
  | [] => ([], previous)
  | b :: rest =>
      let previous := previous + b
      let (out, last) := decodeOne previous rest
      (previous :: out, last)

/-- What distance four does after the last full group. -/
def decodeRemainder (previous : List UInt8) : List UInt8 → List UInt8 × List UInt8
  | [] => ([], previous)
  | b :: rest =>
      let o := b + previous.headD 0
      let (out, last) := decodeRemainder (previous.tail ++ [o]) rest
      (o :: out, last)

/-- The groups of distance four. -/
def decodeGroups (previous : List UInt8) : List UInt8 → List UInt8 × List UInt8
  | b0 :: b1 :: b2 :: b3 :: rest =>
      let group := List.zipWith (· + ·) [b0, b1, b2, b3] previous
      let (out, last) := decodeGroups group rest
      (group ++ out, last)
  | rest => decodeRemainder previous rest

/-- `data[i] = data[i].wrapping_add(data[i - delta])` for `n` places from `i` on. -/
def addBehind (delta : ℕ) : ℕ → ℕ → List UInt8 → List UInt8
  | 0, _, data => data
  | n + 1, i, data =>
      addBehind delta n (i + 1) (data.set i (data.getD i 0 + data.getD (i - delta) 0))

/-- The same, a block of at most `delta` bytes at a time. -/
def addBlocks (delta : ℕ) : ℕ → ℕ → List UInt8 → List UInt8
  | 0, _, data => data
  | fuel + 1, i, data =>
      if i < data.length then
        let n := min delta (data.length - i)
        let src := ((data.take i).drop (i - delta)).take n
        addBlocks delta fuel (i + n)
          (data.take i ++ List.zipWith (· + ·) ((data.drop i).take n) src ++ (data.drop i).drop n)
      else data

/-- `kernel` is false only in a build that compares kernels. -/
def decode (kernel : Bool) (d : Delta) (data : List UInt8) : List UInt8 × Delta :=
  if data.length = 0 then (data, d)
  else if d.distance = 1 then
    let (out, previous) := decodeOne (d.state.getD 0 0) data
    (out, d.keep [previous])
  else if d.distance = 4 then
    let (out, previous) := decodeGroups (d.state.take 4) data
    (out, d.keep previous)
  else if data.length ≤ d.distance then
    let out := List.zipWith (· + ·) data d.state
    (out, d.keep ((d.state.take d.distance).drop data.length ++ out))
  else
    let first := List.zipWith (· + ·) (data.take d.distance) d.state ++ data.drop d.distance
    let out :=
      if 16 ≤ d.distance ∧ kernel = true then addBlocks d.distance data.length d.distance first
      else addBehind d.distance (data.length - d.distance) d.distance first
    (out, d.keep (out.drop (data.length - d.distance)))

/-- `n` slots read from `i` on, going round at `delta`. -/
def rotated (delta : ℕ) (temp : List UInt8) : ℕ → ℕ → List UInt8
  | 0, _ => []
  | n + 1, i =>
      let i := if i = delta then 0 else i
      temp.getD i 0 :: rotated delta temp n (i + 1)

/-- `data[i] = data[i].wrapping_sub(data[i - delta])` from `i = delta + n - 1` down to `delta`. -/
def subBehind (delta : ℕ) : ℕ → List UInt8 → List UInt8
  | 0, data => data
  | n + 1, data =>
      subBehind delta n (data.set (delta + n) (data.getD (delta + n) 0 - data.getD n 0))

/-- `data[i] = data[i].wrapping_sub(temp[i])` from `i = n - 1` down to `0`. -/
def subFirst (temp : List UInt8) : ℕ → List UInt8 → List UInt8
  | 0, data => data
  | n + 1, data => subFirst temp n (data.set n (data.getD n 0 - temp.getD n 0))

def encode (d : Delta) (data : List UInt8) : List UInt8 × Delta :=
  let temp := d.state.take d.distance
  if data.length = 0 then (data, d)
  else if data.length ≤ d.distance then
    (List.zipWith (· - ·) data temp,
      d.keep (rotated d.distance (data ++ temp.drop data.length) d.distance data.length))
  else
    (subFirst temp d.distance (subBehind d.distance (data.length - d.distance) data),
      d.keep (data.drop (data.length - d.distance)))

/-- The bytes the filter looks back at, oldest first. -/
def history (d : Delta) : List UInt8 := d.state.take d.distance

variable {d : Delta} {xs ys data temp hist left : List UInt8} {a b : UInt8} {delta n i : ℕ}

@[simp] theorem length_history (d : Delta) : d.history.length = d.distance := by
  rw [history, List.length_take, d.state_length]
  exact Nat.min_eq_left d.distance_le

@[simp] theorem keep_distance (d : Delta) (xs : List UInt8) : (d.keep xs).distance = d.distance :=
  rfl

theorem keep_history (h : xs.length = d.distance) : (d.keep xs).history = xs := by
  have hle := d.distance_le
  change ((xs ++ d.state.drop xs.length).take deltaStateSize).take d.distance = xs
  rw [List.take_take, Nat.min_eq_left hle, ← h, List.take_left]

end Delta

/-- A byte and the one `distance` back; the history ends with what the decoder has. -/
def deltaStep (e : Bool) (hist : List UInt8) : List UInt8 → Option (List UInt8 × List UInt8)
  | [] => none
  | b :: _ =>
      if e then some ([b - hist.headD 0], hist.tail ++ [b])
      else some ([b + hist.headD 0], hist.tail ++ [b + hist.headD 0])

theorem deltaStep_some {e : Bool} {hist hist' xs out : List UInt8}
    (h : deltaStep e hist xs = some (out, hist')) : ∃ b rest, xs = b :: rest ∧
      ((e = true ∧ out = [b - hist.headD 0] ∧ hist' = hist.tail ++ [b]) ∨
        (e = false ∧ out = [b + hist.headD 0] ∧ hist' = hist.tail ++ [b + hist.headD 0])) := by
  cases xs with
  | nil => cases h
  | cons b rest =>
      refine ⟨b, rest, rfl, ?_⟩
      cases e with
      | false =>
          cases h
          exact .inr ⟨rfl, rfl, rfl⟩
      | true =>
          cases h
          exact .inl ⟨rfl, rfl, rfl⟩

theorem deltaStep_length {e : Bool} {hist hist' xs out : List UInt8}
    (h : deltaStep e hist xs = some (out, hist')) : out.length = 1 ∧ 1 ≤ xs.length := by
  obtain ⟨b, rest, rfl, ⟨-, rfl, -⟩ | ⟨-, rfl, -⟩⟩ := deltaStep_some h
  · exact ⟨rfl, Nat.succ_pos _⟩
  · exact ⟨rfl, Nat.succ_pos _⟩

theorem deltaStep_pos {e : Bool} {hist hist' xs out : List UInt8}
    (h : deltaStep e hist xs = some (out, hist')) : 0 < out.length := by
  rw [(deltaStep_length h).1]
  exact Nat.one_pos

theorem deltaStep_le {e : Bool} {hist hist' xs out : List UInt8}
    (h : deltaStep e hist xs = some (out, hist')) : out.length ≤ xs.length := by
  rw [(deltaStep_length h).1]
  exact (deltaStep_length h).2

theorem deltaStep_stable {e : Bool} {hist xs : List UInt8} {r : List UInt8 × List UInt8}
    (ys : List UInt8) (h : deltaStep e hist xs = some r) : deltaStep e hist (xs ++ ys) = some r := by
  cases xs with
  | nil => cases h
  | cons b rest => exact h

def deltaRewriter (e : Bool) : Rewriter UInt8 (List UInt8) where
  step := deltaStep e
  pos := deltaStep_pos
  le := deltaStep_le
  stable := deltaStep_stable

theorem deltaRewriter_undo {hist : List UInt8} (xs : List UInt8) :
    (deltaRewriter false).whole hist ((deltaRewriter true).whole hist xs) = xs := by
  refine undo (fun _ => True) (fun _ _ => trivial) ?_ ?_ trivial xs
  · intro hist xs out hist' _ h
    obtain ⟨b, rest, rfl, ⟨-, rfl, rfl⟩ | ⟨h, -⟩⟩ := deltaStep_some h
    · change some ([b - hist.headD 0 + hist.headD 0], _) = some ([b], _)
      rw [UInt8.sub_add_cancel]
    · cases h
  · intro hist xs _ h
    cases xs with
    | nil => exact whole_nil
    | cons b rest => cases h

end LzmaTurbo.Filters
