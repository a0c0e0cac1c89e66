import LzmaTurbo.Filters.DeltaRuns

/-!
# The delta filter over many calls

The steps of the rewriter say what a byte becomes from the history, and here that
is turned into the recurrence over the whole output. Since a filter starts from
zeros, the history at the end of any call is the end of zeros and output.
-/
namespace LzmaTurbo.Filters
open Rewriter

/-- Each byte is the one read plus the output byte `distance` back, or zero. -/
structure Recurrence (distance : ℕ) (data out : List UInt8) : Prop where
  length : out.length = data.length
  first : ∀ i < data.length, i < distance → out.getD i 0 = data.getD i 0
  later : ∀ i < data.length, distance ≤ i →
    out.getD i 0 = data.getD i 0 + out.getD (i - distance) 0

namespace Delta

variable {d : Delta} {hist hist' data out left : List UInt8}

/-- One call after another; each may take either kernel. -/
def decodeCalls (d : Delta) : List (Bool × List UInt8) → List UInt8 × Delta
  | [] => ([], d)
  | (kernel, data) :: rest =>
      let (out, d) := d.decode kernel data
      let (outs, d) := d.decodeCalls rest
      (out ++ outs, d)

def encodeCalls (d : Delta) : List (List UInt8) → List UInt8 × Delta
  | [] => ([], d)
  | data :: rest =>
      let (out, d) := d.encode data
      let (outs, d) := d.encodeCalls rest
      (out ++ outs, d)

theorem decodeCalls_reaches (d : Delta) (pieces : List (Bool × List UInt8)) :
    (deltaRewriter false).Reaches d.history (pieces.map Prod.snd).flatten
      (d.decodeCalls pieces).1 (d.decodeCalls pieces).2.history [] ∧
      (d.decodeCalls pieces).2.distance = d.distance := by
  induction pieces generalizing d with
  | nil => exact ⟨.refl _ _, rfl⟩
  | cons piece rest ih =>
      obtain ⟨kernel, data⟩ := piece
      obtain ⟨hcall, hd⟩ := decode_reaches kernel d data
      obtain ⟨hrest, hd'⟩ := ih (d.decode kernel data).2
      exact ⟨hcall.pieces hrest, hd'.trans hd⟩

theorem encodeCalls_reaches (d : Delta) (pieces : List (List UInt8)) :
    (deltaRewriter true).Reaches d.history pieces.flatten
      (d.encodeCalls pieces).1 (d.encodeCalls pieces).2.history [] := by
  induction pieces generalizing d with
  | nil => exact .refl _ _
  | cons data rest ih => exact (encode_reaches d data).1.pieces (ih (d.encode data).2)

/-- The output is the data with the history and the output itself added to it. -/
theorem add_reaches (h : (deltaRewriter false).Reaches hist data out hist' left)
    (hh : 0 < hist.length) :
    List.zipWith (· + ·) (data.take out.length) (hist ++ out) = out ∧
      hist' = (hist ++ out).drop out.length := by
  induction h with
  | refl hist data => simp
  | @step hist data o next out hist' left hs _ ih =>
      obtain ⟨b, rest, rfl, ⟨h, -⟩ | ⟨-, rfl, rfl⟩⟩ := deltaStep_some hs
      · cases h
      cases hist with
      | nil => cases hh
      | cons a t =>
          have hmid : t ++ [b + a] ++ out = t ++ (b + a) :: out := List.append_assoc _ _ _
          obtain ⟨hsum, hlast⟩ := ih (by simp)
          have hsum' : List.zipWith (· + ·) (rest.take out.length) (t ++ (b + a) :: out) = out := by
            rw [← hmid]
            exact hsum
          have hlast' : hist' = (t ++ (b + a) :: out).drop out.length := by
            rw [← hmid]
            exact hlast
          exact ⟨congrArg ((b + a) :: ·) hsum', hlast'⟩

theorem recurrence_of_reaches {distance : ℕ} (hd : 0 < distance)
    (h : (deltaRewriter false).Reaches (List.replicate distance 0) data out hist' []) :
    Recurrence distance data out := by
  have hlen : out.length = data.length := by simpa using h.length_eq
  have hsum := (add_reaches h (by simpa using hd)).1
  rw [hlen, List.take_length] at hsum
  have hat : ∀ i < data.length, out.getD i 0 =
      data.getD i 0 + (List.replicate distance 0 ++ out).getD i 0 := by
    intro i hi
    have hi' : i < (List.replicate distance 0 ++ out).length := by
      rw [List.length_append]
      omega
    rw [List.getD_eq_getElem _ _ hi, List.getD_eq_getElem _ _ hi', ← List.getElem_zipWith
      (h := by rw [List.length_zipWith]; omega) (f := (· + ·)),
      List.getD_eq_getElem _ _ (hlen ▸ hi)]
    exact List.getElem_of_eq hsum.symm _
  refine ⟨hlen, fun i hi hlt => ?_, fun i hi hle => ?_⟩
  · rw [hat i hi, getD_append, List.length_replicate, if_pos hlt, List.getD_replicate _ hlt,
      UInt8.add_zero]
  · rw [hat i hi, getD_append, List.length_replicate, if_neg (Nat.not_lt.mpr hle)]

theorem new_history (props : UInt8) :
    (new props).history = List.replicate (props.toNat + 1) 0 := by
  change (List.replicate deltaStateSize (0 : UInt8)).take (props.toNat + 1) = _
  rw [List.take_replicate, Nat.min_eq_left (distance_of_byte props)]

/-- Every distance, every way to cut the input, every kernel: the recurrence, the history it
leaves, and the way back. -/
theorem delta_calls (props : UInt8) (pieces : List (Bool × List UInt8)) :
    Recurrence (props.toNat + 1) (pieces.map Prod.snd).flatten
        ((new props).decodeCalls pieces).1 ∧
      (new props).distance = props.toNat + 1 ∧
      ((new props).decodeCalls pieces).2.distance = props.toNat + 1 ∧
      ((new props).decodeCalls pieces).2.history =
        (List.replicate (props.toNat + 1) 0 ++ ((new props).decodeCalls pieces).1).drop
          ((new props).decodeCalls pieces).1.length ∧
      ∀ plain : List (List UInt8),
        (pieces.map Prod.snd).flatten = ((new props).encodeCalls plain).1 →
          ((new props).decodeCalls pieces).1 = plain.flatten := by
  obtain ⟨hrun, hd⟩ := decodeCalls_reaches (new props) pieces
  have hrun' := hrun
  rw [new_history] at hrun'
  have hpos : 0 < (List.replicate (props.toNat + 1) (0 : UInt8)).length := by
    rw [List.length_replicate]
    exact Nat.succ_pos _
  refine ⟨recurrence_of_reaches (Nat.succ_pos _) hrun', rfl, hd, (add_reaches hrun' hpos).2,
    fun plain hplain => ?_⟩
  have henc := (encodeCalls_reaches (new props) plain).settled_whole whole_nil
  have hdec := hrun.settled_whole whole_nil
  rw [List.append_nil] at henc hdec
  rw [← hdec, hplain, ← henc, deltaRewriter_undo]

/-- Six bytes at distance four, encoded in two calls and decoded in two others. -/
theorem delta_calls_four :
    ((new 3).decodeCalls [(true, [1, 2]), (false, [3, 4, 4, 4])]).1 =
      [[1, 2, 3, 4, 5], [6]].flatten :=
  (delta_calls 3 [(true, [1, 2]), (false, [3, 4, 4, 4])]).2.2.2.2 [[1, 2, 3, 4, 5], [6]]
    (by decide +kernel)

end Delta

end LzmaTurbo.Filters
