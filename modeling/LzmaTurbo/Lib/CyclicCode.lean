import Mathlib.Logic.Function.Iterate
import Mathlib.Data.UInt

/-!
# Cyclic redundancy checks

A register that shifts towards its low bit and is reduced by a polynomial is linear over
exclusive or. So the check of two pieces of data one after the other is got from their
checks and the length of the second.
-/
namespace LzmaTurbo.CyclicCode

variable {w : ℕ} (poly : BitVec w)

/-- One bit leaves the register. -/
def shift (s : BitVec w) : BitVec w := if s.getLsbD 0 then (s >>> 1) ^^^ poly else s >>> 1

/-- `n` bits leave it. -/
def shifts (n : ℕ) : BitVec w → BitVec w := (shift poly)^[n]

/-- A byte goes in. -/
def step (s : BitVec w) (b : UInt8) : BitVec w := shifts poly 8 (s ^^^ b.toBitVec.setWidth w)

def register (s : BitVec w) (data : List UInt8) : BitVec w := data.foldl (step poly) s

/-- The check of some bytes: all ones to begin with, and inverted at the end. -/
def check (data : List UInt8) : BitVec w :=
  register poly (BitVec.allOnes w) data ^^^ BitVec.allOnes w

/-- The check of two pieces, from their checks and the length of the second. -/
def combine (a b : BitVec w) (lenB : ℕ) : BitVec w := shifts poly (8 * lenB) a ^^^ b

theorem xor_swap (a b p : BitVec w) : a ^^^ p ^^^ (b ^^^ p) = a ^^^ b := by
  rw [BitVec.xor_comm b p, ← BitVec.xor_assoc, BitVec.xor_assoc a p p, BitVec.xor_self,
    BitVec.xor_zero]

theorem shift_xor (a b : BitVec w) : shift poly (a ^^^ b) = shift poly a ^^^ shift poly b := by
  unfold shift
  rw [BitVec.getLsbD_xor, BitVec.ushiftRight_xor_distrib]
  cases a.getLsbD 0 <;> cases b.getLsbD 0
  · rfl
  · exact BitVec.xor_assoc _ _ _
  · change a >>> 1 ^^^ b >>> 1 ^^^ poly = a >>> 1 ^^^ poly ^^^ b >>> 1
    rw [BitVec.xor_assoc, BitVec.xor_comm (b >>> 1), ← BitVec.xor_assoc]
  · exact (xor_swap _ _ _).symm

theorem shifts_xor (n : ℕ) (a b : BitVec w) :
    shifts poly n (a ^^^ b) = shifts poly n a ^^^ shifts poly n b := by
  induction n generalizing a b with
  | zero => rfl
  | succ n ih =>
      change shifts poly n (shift poly (a ^^^ b)) = _
      rw [shift_xor, ih]
      rfl

/-- A change to the register goes through the data unchanged by it. -/
theorem register_xor (data : List UInt8) (s t : BitVec w) :
    register poly (s ^^^ t) data = shifts poly (8 * data.length) s ^^^ register poly t data := by
  induction data generalizing s t with
  | nil => rfl
  | cons b data ih =>
      have hstep : step poly (s ^^^ t) b = shifts poly 8 s ^^^ step poly t b := by
        rw [step, step, BitVec.xor_assoc, shifts_xor]
      have hshift : shifts poly (8 * data.length) (shifts poly 8 s) =
          shifts poly (8 * (b :: data).length) s := by
        rw [shifts, shifts, ← Function.iterate_add_apply]
        rfl
      change register poly (step poly (s ^^^ t) b) data = _
      rw [hstep, ih, hshift]
      rfl

theorem register_append (s : BitVec w) (x y : List UInt8) :
    register poly s (x ++ y) = register poly (register poly s x) y :=
  List.foldl_append

theorem check_nil : check poly [] = 0#w := BitVec.xor_self

/-- The check of a concatenation. -/
theorem combine_check (x y : List UInt8) :
    combine poly (check poly x) (check poly y) y.length = check poly (x ++ y) := by
  have hx : register poly (BitVec.allOnes w) x = check poly x ^^^ BitVec.allOnes w := by
    rw [check, BitVec.xor_assoc, BitVec.xor_self, BitVec.xor_zero]
  have hxy : check poly (x ++ y) =
      register poly (register poly (BitVec.allOnes w) x) y ^^^ BitVec.allOnes w := by
    rw [← register_append]
    rfl
  rw [hxy, hx, register_xor, BitVec.xor_assoc]
  rfl

end LzmaTurbo.CyclicCode
