import LzmaTurbo.Lib.BitProgram

/-!
# Running a bit program against a byte string

`run` consumes a byte only when the next bit needs one, so its outcome on a
prefix is final unless it is `more`; that is what makes a decoder built on it
independent of how its input is cut. `peek` is the dry run that leaves the
models alone: it agrees with `run` on programs that ask no model twice.
-/
namespace LzmaTurbo.RangeDecoder
open BitProgram

/-- The interval of a binary range decoder and the probability of each model. -/
structure Coder (σ : Type) where
  range : ℕ
  code : ℕ
  probs : σ → ℕ

inductive Outcome (σ α : Type) where
  | more
  | fail
  | done (a : α) (c : Coder σ) (rest : List UInt8)

section
variable {σ α β : Type}

/-- One byte is drawn when fewer than 24 bits of the interval are left. -/
def normalize (c : Coder σ) (xs : List UInt8) : Option (Coder σ × List UInt8) :=
  if c.range < 2 ^ 24 then
    match xs with
    | [] => none
    | x :: ys =>
        some ({ c with range := c.range * 256, code := c.code * 256 % 2 ^ 32 + x.toNat }, ys)
  else some (c, xs)

/-- The probability of a zero bit after seeing `b`. -/
def learn (b : Bool) (p : ℕ) : ℕ := if b then p - p / 32 else p + (2048 - p) / 32

def Coder.bound (c : Coder σ) (slot : σ) : ℕ := c.range / 2048 * c.probs slot

/-- The bit the interval holds, and the interval narrowed to it. -/
def Coder.split (c : Coder σ) (slot : σ) : Bool × Coder σ :=
  if c.code < c.bound slot then (false, { c with range := c.bound slot })
  else (true, { c with range := c.range - c.bound slot, code := c.code - c.bound slot })

def Coder.adapt [DecidableEq σ] (c : Coder σ) (slot : σ) (b : Bool) : Coder σ :=
  { c with probs := Function.update c.probs slot (learn b (c.probs slot)) }

/-- The sign of the 32-bit difference decides, as in the format's own
description; it differs from `range ≤ code` only outside `code < range`. -/
def Coder.splitDirect (c : Coder σ) : Bool × Coder σ :=
  let half := c.range / 2
  let diff := (c.code + (2 ^ 32 - half)) % 2 ^ 32
  if diff < 2 ^ 31 then (true, { c with range := half, code := diff })
  else (false, { c with range := half })

def run [DecidableEq σ] : Prog σ α → Coder σ → List UInt8 → Outcome σ α
  | .pure a, c, xs => .done a c xs
  | .fail, _, _ => .fail
  | .bit slot next, c, xs =>
      match normalize c xs with
      | none => .more
      | some (d, ys) =>
          run (next (d.split slot).1) ((d.split slot).2.adapt slot (d.split slot).1) ys
  | .direct next, c, xs =>
      match normalize c xs with
      | none => .more
      | some (d, ys) => run (next d.splitDirect.1) d.splitDirect.2 ys

/-- The dry run: the same questions, but no model learns from the answers. -/
def peek : Prog σ α → Coder σ → List UInt8 → Outcome σ α
  | .pure a, c, xs => .done a c xs
  | .fail, _, _ => .fail
  | .bit slot next, c, xs =>
      match normalize c xs with
      | none => .more
      | some (d, ys) => peek (next (d.split slot).1) (d.split slot).2 ys
  | .direct next, c, xs =>
      match normalize c xs with
      | none => .more
      | some (d, ys) => peek (next d.splitDirect.1) d.splitDirect.2 ys

/-- A finished outcome also draws the byte its last bit made necessary. -/
def Outcome.flush : Outcome σ α → Outcome σ α
  | .more => .more
  | .fail => .fail
  | .done a c rest =>
      match normalize c rest with
      | none => .more
      | some (d, ys) => .done a d ys

structure Coder.Good (c : Coder σ) : Prop where
  range_ge : 2 ^ 16 ≤ c.range
  range_lt : c.range < 2 ^ 32
  code_lt : c.code < 2 ^ 32
  probs_ge : ∀ slot, 31 ≤ c.probs slot
  probs_le : ∀ slot, c.probs slot ≤ 2017

theorem learn_ge {b : Bool} {p : ℕ} (h : 31 ≤ p) : 31 ≤ learn b p := by
  unfold learn
  split
  · omega
  · omega

theorem learn_le {b : Bool} {p : ℕ} (h : p ≤ 2017) : learn b p ≤ 2017 := by
  unfold learn
  split
  · omega
  · omega

theorem normalize_of_le {c : Coder σ} (h : 2 ^ 24 ≤ c.range) (xs : List UInt8) :
    normalize c xs = some (c, xs) := by
  unfold normalize
  rw [if_neg (by omega)]

theorem normalize_nil {c : Coder σ} (h : c.range < 2 ^ 24) : normalize c [] = none := by
  unfold normalize
  rw [if_pos h]

theorem normalize_cons {c : Coder σ} (h : c.range < 2 ^ 24) (x : UInt8) (xs : List UInt8) :
    normalize c (x :: xs) = some
      ({ c with range := c.range * 256, code := c.code * 256 % 2 ^ 32 + x.toNat }, xs) := by
  unfold normalize
  rw [if_pos h]

/-- The two ways to normalise: a full interval as it is, or one byte drawn. -/
theorem normalize_cases {c d : Coder σ} {xs ys : List UInt8}
    (h : normalize c xs = some (d, ys)) :
    (2 ^ 24 ≤ c.range ∧ d = c ∧ xs = ys) ∨
    (c.range < 2 ^ 24 ∧ ∃ x, xs = x :: ys ∧
      d = { c with range := c.range * 256, code := c.code * 256 % 2 ^ 32 + x.toNat }) := by
  by_cases hr : c.range < 2 ^ 24
  · cases xs with
    | nil => simp [normalize_nil hr] at h
    | cons x xs =>
        rw [normalize_cons hr, Option.some.injEq, Prod.mk.injEq] at h
        obtain ⟨rfl, rfl⟩ := h
        exact .inr ⟨hr, x, rfl, rfl⟩
  · rw [normalize_of_le (by omega), Option.some.injEq, Prod.mk.injEq] at h
    obtain ⟨rfl, rfl⟩ := h
    exact .inl ⟨by omega, rfl, rfl⟩

theorem normalize_probs {c d : Coder σ} {xs ys : List UInt8}
    (h : normalize c xs = some (d, ys)) : d.probs = c.probs := by
  obtain ⟨-, rfl, -⟩ | ⟨-, x, -, rfl⟩ := normalize_cases h <;> rfl

theorem normalize_good {c d : Coder σ} {xs ys : List UInt8} (hc : c.Good)
    (h : normalize c xs = some (d, ys)) : d.Good ∧ 2 ^ 24 ≤ d.range := by
  obtain ⟨hr, rfl, rfl⟩ | ⟨hr, x, rfl, rfl⟩ := normalize_cases h
  · exact ⟨hc, hr⟩
  · have hx := x.toNat_lt
    have h1 := hc.range_ge
    refine ⟨⟨?_, ?_, ?_, hc.probs_ge, hc.probs_le⟩, ?_⟩
    · change 2 ^ 16 ≤ c.range * 256
      omega
    · change c.range * 256 < 2 ^ 32
      omega
    · change c.code * 256 % 2 ^ 32 + x.toNat < 2 ^ 32
      omega
    · change 2 ^ 24 ≤ c.range * 256
      omega

theorem normalize_append {c d : Coder σ} {xs ys : List UInt8} (zs : List UInt8)
    (h : normalize c xs = some (d, ys)) : normalize c (xs ++ zs) = some (d, ys ++ zs) := by
  obtain ⟨hr, rfl, rfl⟩ | ⟨hr, x, rfl, rfl⟩ := normalize_cases h
  · exact normalize_of_le hr _
  · exact normalize_cons hr x _

/-- Normalising draws a prefix of at most one byte and ignores what follows. -/
theorem normalize_split {c d : Coder σ} {xs ys : List UInt8}
    (h : normalize c xs = some (d, ys)) :
    ∃ us, xs = us ++ ys ∧ us.length ≤ 1 ∧ normalize c us = some (d, []) := by
  obtain ⟨hr, rfl, rfl⟩ | ⟨hr, x, rfl, rfl⟩ := normalize_cases h
  · exact ⟨[], rfl, by simp, normalize_of_le hr _⟩
  · exact ⟨[x], rfl, le_rfl, normalize_cons hr x _⟩

theorem normalize_normalize {c d : Coder σ} {xs ys : List UInt8} (hc : c.Good)
    (h : normalize c xs = some (d, ys)) (zs : List UInt8) :
    normalize d zs = some (d, zs) :=
  normalize_of_le (normalize_good hc h).2 zs

theorem bound_pos {c : Coder σ} (hc : c.Good) (hr : 2 ^ 24 ≤ c.range) (slot : σ) :
    c.range / 2048 * 31 ≤ c.bound slot ∧ c.bound slot + c.range / 2048 * 31 ≤ c.range ∧
      c.bound slot < c.range := by
  have h1 := hc.probs_ge slot
  have h2 := hc.probs_le slot
  have h3 : c.range / 2048 * 31 ≤ c.range / 2048 * c.probs slot := Nat.mul_le_mul_left _ h1
  have h4 : c.range / 2048 * c.probs slot ≤ c.range / 2048 * 2017 := Nat.mul_le_mul_left _ h2
  unfold Coder.bound
  refine ⟨h3, ?_, ?_⟩ <;> omega

/-- One modelled bit keeps the interval above 31/2048 of itself. -/
theorem split_range {c : Coder σ} (hc : c.Good) (hr : 2 ^ 24 ≤ c.range) (slot : σ) :
    c.range / 2048 * 31 ≤ (c.split slot).2.range ∧ (c.split slot).2.range < c.range := by
  obtain ⟨h1, h2, h3⟩ := bound_pos hc hr slot
  unfold Coder.split
  split
  · exact ⟨h1, h3⟩
  · constructor
    · change c.range / 2048 * 31 ≤ c.range - c.bound slot
      omega
    · change c.range - c.bound slot < c.range
      omega

theorem split_good {c : Coder σ} (hc : c.Good) (hr : 2 ^ 24 ≤ c.range) (slot : σ) :
    (c.split slot).2.Good := by
  obtain ⟨h1, h2⟩ := split_range hc hr slot
  have h3 := hc.range_lt
  have h4 := hc.code_lt
  refine ⟨by omega, by omega, ?_, ?_, ?_⟩
  · unfold Coder.split
    split
    · exact h4
    · change c.code - c.bound slot < 2 ^ 32
      omega
  · intro s
    unfold Coder.split
    split <;> exact hc.probs_ge s
  · intro s
    unfold Coder.split
    split <;> exact hc.probs_le s

theorem adapt_good [DecidableEq σ] {c : Coder σ} (hc : c.Good) (slot : σ) (b : Bool) :
    (c.adapt slot b).Good := by
  refine ⟨hc.range_ge, hc.range_lt, hc.code_lt, ?_, ?_⟩
  · intro s
    by_cases hs : s = slot
    · subst hs
      simpa [Coder.adapt] using learn_ge (hc.probs_ge s)
    · simpa [Coder.adapt, hs] using hc.probs_ge s
  · intro s
    by_cases hs : s = slot
    · subst hs
      simpa [Coder.adapt] using learn_le (hc.probs_le s)
    · simpa [Coder.adapt, hs] using hc.probs_le s

theorem splitDirect_range (c : Coder σ) : c.splitDirect.2.range = c.range / 2 := by
  simp only [Coder.splitDirect]
  split <;> rfl

theorem splitDirect_good {c : Coder σ} (hc : c.Good) (hr : 2 ^ 24 ≤ c.range) :
    c.splitDirect.2.Good := by
  have h3 := hc.range_lt
  refine ⟨?_, ?_, ?_, ?_, ?_⟩
  · rw [splitDirect_range]; omega
  · rw [splitDirect_range]; omega
  · simp only [Coder.splitDirect]
    split
    · exact Nat.mod_lt _ (by norm_num)
    · exact hc.code_lt
  · intro s
    simp only [Coder.splitDirect]
    split <;> exact hc.probs_ge s
  · intro s
    simp only [Coder.splitDirect]
    split <;> exact hc.probs_le s

end
end LzmaTurbo.RangeDecoder
