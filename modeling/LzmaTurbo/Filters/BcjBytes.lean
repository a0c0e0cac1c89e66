import LzmaTurbo.Filters.BcjWords

/-!
# Reads and writes behind what is done

A converter that walks a buffer by index reads and writes at its place, whatever
lies before it.
-/
namespace LzmaTurbo.Filters
open Machine

section
variable (done ys : List UInt8) (k v : ℕ)

theorem drop_behind : (done ++ ys).drop (done.length + k) = ys.drop k := by
  rw [List.drop_append, List.drop_eq_nil_of_le (Nat.le_add_right _ _), List.nil_append,
    Nat.add_sub_cancel_left]

theorem take_behind : (done ++ ys).take (done.length + k) = done ++ ys.take k := by
  rw [List.take_append, List.take_of_length_le (Nat.le_add_right _ _), Nat.add_sub_cancel_left]

theorem getU32le_behind : getU32le (done ++ ys) (done.length + k) = getU32le ys k := by
  unfold getU32le
  rw [drop_behind]

theorem getU32be_behind : getU32be (done ++ ys) (done.length + k) = getU32be ys k := by
  unfold getU32be
  rw [drop_behind]

theorem getU16le_behind : getU16le (done ++ ys) (done.length + k) = getU16le ys k := by
  unfold getU16le
  rw [drop_behind]

theorem byteAt_behind : byteAt (done ++ ys) (done.length + k) = byteAt ys k := by
  unfold byteAt
  rw [List.getElem?_append_right (Nat.le_add_right _ _), Nat.add_sub_cancel_left]

/-- What is written behind `done` leaves it as it is. -/
def behind (r : Except Fault (List UInt8)) : Except Fault (List UInt8) := do
  let ys ← r
  .ok (done ++ ys)

theorem setU32le_behind :
    setU32le (done ++ ys) (done.length + k) v = behind done (setU32le ys k v) := by
  unfold setU32le behind
  rw [Nat.add_assoc, drop_behind, take_behind, List.length_append]
  by_cases h : k + 4 ≤ ys.length
  · rw [if_pos (by omega), if_pos h, ok_bind, List.append_assoc, List.append_assoc,
      List.append_assoc]
  · rw [if_neg (by omega), if_neg h]
    rfl

theorem setU16le_behind :
    setU16le (done ++ ys) (done.length + k) v = behind done (setU16le ys k v) := by
  unfold setU16le behind
  rw [Nat.add_assoc, drop_behind, take_behind, List.length_append]
  by_cases h : k + 2 ≤ ys.length
  · rw [if_pos (by omega), if_pos h, ok_bind, List.append_assoc, List.append_assoc,
      List.append_assoc]
  · rw [if_neg (by omega), if_neg h]
    rfl

theorem setByte_behind :
    setByte (done ++ ys) (done.length + k) v = behind done (setByte ys k v) := by
  unfold setByte behind
  rw [List.length_append]
  by_cases h : k < ys.length
  · rw [if_pos (by omega), if_pos h, ok_bind,
      List.set_append_right _ _ (Nat.le_add_right _ _), Nat.add_sub_cancel_left]
  · rw [if_neg (by omega), if_neg h]
    rfl

@[simp] theorem behind_ok : behind done (.ok ys) = .ok (done ++ ys) := rfl

end

end LzmaTurbo.Filters
