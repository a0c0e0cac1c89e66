import Mathlib.Tactic.Linarith
import Mathlib.Data.Nat.Bitwise

/-!
# Checked machine operations

The decoders are translated over natural numbers. An index outside its slice
and an unsigned subtraction below zero stop the program with a `Fault`, as the
bounds checks and the overflow checks of the source do; where the source wraps,
the width is written out.
-/
namespace LzmaTurbo.Machine

/-- What a run of the source could only answer with a panic, an access outside
a buffer, or by never answering at all. -/
inductive Fault where
  | index
  | underflow
  | fuel
deriving Repr, DecidableEq

def get {α : Type} (a : Array α) (i : ℕ) : Except Fault α :=
  match a[i]? with
  | some x => .ok x
  | none => .error .index

def put {α : Type} (a : Array α) (i : ℕ) (x : α) : Except Fault (Array α) :=
  if i < a.size then .ok (a.setIfInBounds i x) else .error .index

def byteAt (src : List UInt8) (i : ℕ) : Except Fault ℕ :=
  match src[i]? with
  | some x => .ok x.toNat
  | none => .error .index

def sub (a b : ℕ) : Except Fault ℕ := if b ≤ a then .ok (a - b) else .error .underflow

/-- `u32` truncation. -/
def u32 (a : ℕ) : ℕ := a % 2 ^ 32

def wrappingAdd32 (a b : ℕ) : ℕ := (a + b) % 2 ^ 32
def wrappingSub32 (a b : ℕ) : ℕ := (a + 2 ^ 32 - b) % 2 ^ 32
def wrappingNeg32 (a : ℕ) : ℕ := (2 ^ 32 - a) % 2 ^ 32
def not32 (a : ℕ) : ℕ := 2 ^ 32 - 1 - a
def wrappingAdd64 (a b : ℕ) : ℕ := (a + b) % 2 ^ 64
def wrappingSub64 (a b : ℕ) : ℕ := (a + 2 ^ 64 - b) % 2 ^ 64

/-- `as i32` and `as u16`. -/
def asI32 (a : ℕ) : ℤ := if a < 2 ^ 31 then a else a - 2 ^ 32
def asU16 (a : ℤ) : ℕ := (a % 2 ^ 16).toNat

@[simp] theorem ok_bind {ε α β : Type} (a : α) (f : α → Except ε β) :
    (Except.ok a >>= f) = f a := rfl

@[simp] theorem error_bind {ε α β : Type} (e : ε) (f : α → Except ε β) :
    ((Except.error e : Except ε α) >>= f) = .error e := rfl

theorem bind_ok_iff {ε α β : Type} {x : Except ε α} {f : α → Except ε β} {b : β} :
    (x >>= f) = .ok b ↔ ∃ a, x = .ok a ∧ f a = .ok b := by
  cases x with
  | error e => exact ⟨(fun h => nomatch h), (fun ⟨a, h, _⟩ => nomatch h)⟩
  | ok a => exact ⟨fun h => ⟨a, rfl, h⟩, fun ⟨_, h, h'⟩ => Except.ok.inj h ▸ h'⟩

theorem bind_eq_ok {ε α β : Type} {x : Except ε α} {f : α → Except ε β} {b : β}
    (h : (x >>= f) = .ok b) : ∃ a, x = .ok a ∧ f a = .ok b := bind_ok_iff.1 h

theorem map_eq_ok {ε α β : Type} {x : Except ε α} {f : α → β} {b : β}
    (h : x.map f = .ok b) : ∃ a, x = .ok a ∧ f a = b := by
  cases x with
  | error e => cases h
  | ok a => exact ⟨a, rfl, Except.ok.inj h⟩

theorem get_ok {α : Type} {a : Array α} {i : ℕ} {x : α} (h : a[i]? = some x) :
    get a i = .ok x := by
  simp [get, h]

theorem get_fault {α : Type} {a : Array α} {i : ℕ} (h : a.size ≤ i) :
    get a i = .error .index := by
  simp [get, Array.getElem?_eq_none h]

theorem put_ok {α : Type} {a : Array α} {i : ℕ} (h : i < a.size) (x : α) :
    put a i x = .ok (a.setIfInBounds i x) := by
  simp [put, h]

@[simp] theorem sub_ok {a b : ℕ} (h : b ≤ a) : sub a b = .ok (a - b) := by
  simp [sub, h]

theorem byteAt_drop {src : List UInt8} {i : ℕ} {x : UInt8} {xs : List UInt8}
    (h : src.drop i = x :: xs) : byteAt src i = .ok x.toNat := by
  have hi : src[i]? = some x := by
    rw [← List.head?_drop, h]
    rfl
  simp [byteAt, hi]

theorem byteAt_drop_nil {src : List UInt8} {i : ℕ} (h : src.drop i = []) :
    byteAt src i = .error .index := by
  have hi : src[i]? = none := by
    rw [← List.head?_drop, h]
    rfl
  simp [byteAt, hi]

/-- An all-ones mask selects its first operand, an empty one its second. -/
theorem xor_and_mask {a b : ℕ} (ha : a < 2 ^ 32) (hb : b < 2 ^ 32) :
    b ^^^ ((a ^^^ b) &&& (2 ^ 32 - 1)) = a ∧ b ^^^ ((a ^^^ b) &&& 0) = b := by
  constructor
  · rw [Nat.and_two_pow_sub_one_eq_mod, Nat.mod_eq_of_lt (Nat.xor_lt_two_pow ha hb),
      Nat.xor_comm a b, ← Nat.xor_assoc, Nat.xor_self, Nat.zero_xor]
  · simp

end LzmaTurbo.Machine
