import LzmaTurbo.Lib.RunTrace

/-!
# Coding in an exact interval

The encoder of the same bits with no bound on its numbers: the lower end of the
interval is never cut, it only gains a digit when the interval is widened. A
byte string whose value lies in the last interval makes the decoder answer every
bit as it was encoded, because each interval lies in the one before.
-/
namespace LzmaTurbo.ExactCoder
open BitProgram RangeDecoder

/-- The number a byte string denotes, most significant byte first. -/
def value (xs : List UInt8) : ℕ := xs.foldl (fun a x => a * 256 + x.toNat) 0

theorem value_append (xs ys : List UInt8) :
    value (xs ++ ys) = value xs * 256 ^ ys.length + value ys := by
  have h : ∀ (ys : List UInt8) (a : ℕ), ys.foldl (fun a x => a * 256 + x.toNat) a =
      a * 256 ^ ys.length + value ys := by
    intro ys
    induction ys with
    | nil => intro a; simp [value]
    | cons y ys ih =>
        intro a
        have h0 : value (y :: ys) = y.toNat * 256 ^ ys.length + value ys := by
          rw [value, List.foldl_cons, ih]
          simp
        rw [List.foldl_cons, ih, h0, List.length_cons]
        ring
  rw [value, List.foldl_append]
  exact h ys _

theorem value_cons (x : UInt8) (xs : List UInt8) :
    value (x :: xs) = x.toNat * 256 ^ xs.length + value xs := by
  have h := value_append [x] xs
  rwa [show value [x] = x.toNat by simp [value]] at h

theorem value_snoc (xs : List UInt8) (x : UInt8) :
    value (xs ++ [x]) = value xs * 256 + x.toNat := by
  simp [value, List.foldl_append]

theorem value_lt (xs : List UInt8) : value xs < 256 ^ xs.length := by
  induction xs with
  | nil => simp [value]
  | cons x xs ih =>
      have hx := x.toNat_lt
      have hle : (x.toNat + 1) * 256 ^ xs.length ≤ 256 * 256 ^ xs.length :=
        Nat.mul_le_mul_right _ (by omega)
      rw [Nat.add_mul, one_mul] at hle
      rw [value_cons, List.length_cons, pow_succ, mul_comm (256 ^ xs.length)]
      omega

/-- A bit to encode, in its model or with equal odds. -/
inductive Op (σ : Type) where
  | bit (slot : σ) (b : Bool)
  | direct (b : Bool)

/-- What the decoder knows of an operation before it has the bit. -/
inductive Ask (σ : Type) where
  | bit (slot : σ)
  | direct

def Op.ask {σ : Type} : Op σ → Ask σ
  | .bit slot _ => .bit slot
  | .direct _ => .direct

def Op.value {σ : Type} : Op σ → Bool
  | .bit _ b => b
  | .direct b => b

/-- The decoder's side of a sequence of operations. -/
def asksProg {σ : Type} : List (Ask σ) → Prog σ (List Bool)
  | [] => .pure []
  | .bit slot :: asks => .bit slot fun b => (asksProg asks).bind fun bs => .pure (b :: bs)
  | .direct :: asks => .direct fun b => (asksProg asks).bind fun bs => .pure (b :: bs)

/-- The interval `[low, low + range)`, in units of which `256 ^ digits` were made. -/
structure Exact (σ : Type) where
  low : ℕ
  range : ℕ
  digits : ℕ
  probs : σ → ℕ

section
variable {σ : Type}

def Exact.bound (e : Exact σ) (slot : σ) : ℕ := e.range / 2048 * e.probs slot

variable [DecidableEq σ]

def Exact.narrow (e : Exact σ) : Op σ → Exact σ
  | .bit slot b =>
      { e with
        low := if b then e.low + e.bound slot else e.low
        range := if b then e.range - e.bound slot else e.bound slot
        probs := Function.update e.probs slot (learn b (e.probs slot)) }
  | .direct b => { e with low := if b then e.low + e.range / 2 else e.low, range := e.range / 2 }

omit [DecidableEq σ] in
def Exact.widen (e : Exact σ) : Exact σ :=
  if e.range < 2 ^ 24 then
    { e with low := e.low * 256, range := e.range * 256, digits := e.digits + 1 }
  else e

def Exact.op (e : Exact σ) (o : Op σ) : Exact σ := (e.narrow o).widen

def Exact.ops (e : Exact σ) (os : List (Op σ)) : Exact σ := os.foldl Exact.op e

/-- Between two operations. -/
structure Exact.Ok (e : Exact σ) : Prop where
  range_ge : 2 ^ 24 ≤ e.range
  range_lt : e.range < 2 ^ 32
  probs_ge : ∀ slot, 31 ≤ e.probs slot
  probs_le : ∀ slot, e.probs slot ≤ 2017

/-- The number of `xs` lies in the interval; five bytes come before the first digit. -/
structure Exact.Holds (e : Exact σ) (xs : List UInt8) : Prop where
  len : e.digits + 5 ≤ xs.length
  low_le : e.low * 256 ^ (xs.length - (e.digits + 5)) ≤ value xs
  lt_high : value xs < (e.low + e.range) * 256 ^ (xs.length - (e.digits + 5))

variable {e : Exact σ} {xs rest : List UInt8} {c : Coder σ} {slot : σ} {b : Bool}

omit [DecidableEq σ] in
theorem Exact.Ok.bound (h : e.Ok) (slot : σ) : e.range / 2048 * 31 ≤ e.bound slot ∧
    e.bound slot + e.range / 2048 * 31 ≤ e.range ∧ e.bound slot < e.range := by
  have hg : (Coder.mk e.range 0 e.probs).Good := ⟨by have := h.range_ge; show _ ≤ e.range; omega,
    h.range_lt, by show 0 < 2 ^ 32; norm_num, h.probs_ge, h.probs_le⟩
  exact bound_pos hg h.range_ge slot

/-- A narrowed interval lies in the one it came from, and is not too narrow. -/
theorem Exact.Ok.narrow (h : e.Ok) (o : Op σ) : (e.narrow o).digits = e.digits ∧
    e.low ≤ (e.narrow o).low ∧ (e.narrow o).low + (e.narrow o).range ≤ e.low + e.range ∧
    2 ^ 16 ≤ (e.narrow o).range ∧ (e.narrow o).range < 2 ^ 32 ∧
    (∀ slot, 31 ≤ (e.narrow o).probs slot ∧ (e.narrow o).probs slot ≤ 2017) := by
  have h1 := h.range_ge
  have h2 := h.range_lt
  cases o with
  | bit slot b =>
      obtain ⟨h3, h4, h5⟩ := h.bound slot
      have hp : ∀ s, 31 ≤ Function.update e.probs slot (learn b (e.probs slot)) s ∧
          Function.update e.probs slot (learn b (e.probs slot)) s ≤ 2017 := by
        intro s
        by_cases hs : s = slot
        · subst hs
          rw [Function.update_self]
          exact ⟨learn_ge (h.probs_ge s), learn_le (h.probs_le s)⟩
        · rw [Function.update_of_ne hs]
          exact ⟨h.probs_ge s, h.probs_le s⟩
      refine ⟨rfl, ?_, ?_, ?_, ?_, hp⟩ <;> simp only [Exact.narrow] <;> split <;> omega
  | direct b =>
      refine ⟨rfl, ?_, ?_, ?_, ?_, fun s => ⟨h.probs_ge s, h.probs_le s⟩⟩ <;>
        simp only [Exact.narrow]
      · split <;> omega
      · split <;> omega
      · omega
      · omega

theorem Exact.Ok.op (h : e.Ok) (o : Op σ) : (e.op o).Ok := by
  obtain ⟨-, -, -, h1, h2, h3⟩ := h.narrow o
  unfold Exact.op Exact.widen
  split
  · exact ⟨by show 2 ^ 24 ≤ (e.narrow o).range * 256; omega,
      by show (e.narrow o).range * 256 < 2 ^ 32; omega, fun s => (h3 s).1, fun s => (h3 s).2⟩
  · exact ⟨by omega, h2, fun s => (h3 s).1, fun s => (h3 s).2⟩

theorem Exact.Ok.ops (h : e.Ok) (os : List (Op σ)) : (e.ops os).Ok := by
  induction os generalizing e with
  | nil => exact h
  | cons o os ih => exact ih (h.op o)

omit [DecidableEq σ] in
/-- Widening is a change of unit. -/
theorem Exact.Holds.of_widen (h : e.widen.Holds xs) : e.Holds xs := by
  unfold Exact.widen at h
  by_cases hr : e.range < 2 ^ 24
  · rw [if_pos hr] at h
    obtain ⟨hlen, hlow, hhigh⟩ := h
    simp only at hlen hlow hhigh
    have hexp : xs.length - (e.digits + 5) = xs.length - (e.digits + 1 + 5) + 1 := by omega
    refine ⟨by omega, ?_, ?_⟩
    · rw [hexp, pow_succ]
      calc e.low * (256 ^ (xs.length - (e.digits + 1 + 5)) * 256)
          = e.low * 256 * 256 ^ (xs.length - (e.digits + 1 + 5)) := by ring
        _ ≤ value xs := hlow
    · rw [hexp, pow_succ]
      calc value xs < (e.low * 256 + e.range * 256) * 256 ^ (xs.length - (e.digits + 1 + 5)) :=
            hhigh
        _ = (e.low + e.range) * (256 ^ (xs.length - (e.digits + 1 + 5)) * 256) := by ring
  · rwa [if_neg hr] at h

theorem Exact.Holds.of_narrow {o : Op σ} (h : (e.narrow o).Holds xs) (he : e.Ok) : e.Holds xs := by
  obtain ⟨hd, h1, h2, -⟩ := he.narrow o
  obtain ⟨hlen, hlow, hhigh⟩ := h
  rw [hd] at hlen hlow hhigh
  exact ⟨hlen, (Nat.mul_le_mul_right _ h1).trans hlow,
    hhigh.trans_le (Nat.mul_le_mul_right _ h2)⟩

theorem Exact.Holds.of_ops {os : List (Op σ)} (h : (e.ops os).Holds xs) (he : e.Ok) :
    e.Holds xs := by
  induction os generalizing e with
  | nil => exact h
  | cons o os ih => exact (ih h (he.op o)).of_widen.of_narrow he

/-- The decoder's coder reads `xs` in the interval `e`: its code is the distance from the
lower end to what it has read. -/
structure Exact.Reads (e : Exact σ) (xs : List UInt8) (c : Coder σ) (rest : List UInt8) :
    Prop where
  range : c.range = e.range
  code : c.code + e.low = value (xs.take (e.digits + 5))
  probs : c.probs = e.probs
  rest : rest = xs.drop (e.digits + 5)

omit [DecidableEq σ] in
/-- What is read so far lies in the interval as well. -/
theorem Exact.Holds.head (h : e.Holds xs) : e.low ≤ value (xs.take (e.digits + 5)) ∧
    value (xs.take (e.digits + 5)) < e.low + e.range := by
  have hsplit : value xs = value (xs.take (e.digits + 5)) *
      256 ^ (xs.length - (e.digits + 5)) + value (xs.drop (e.digits + 5)) := by
    conv_lhs => rw [← List.take_append_drop (e.digits + 5) xs, value_append, List.length_drop]
  have hdrop := value_lt (xs.drop (e.digits + 5))
  rw [List.length_drop] at hdrop
  obtain ⟨-, hlow, hhigh⟩ := h
  generalize value (xs.take (e.digits + 5)) = P at *
  generalize 256 ^ (xs.length - (e.digits + 5)) = m at *
  constructor
  · have hlt : e.low < P + 1 := by
      apply Nat.lt_of_mul_lt_mul_right (a := m)
      rw [Nat.add_mul]
      omega
    omega
  · apply Nat.lt_of_mul_lt_mul_right (a := m)
    omega

theorem Exact.Reads.bit (hc : e.Reads xs c rest) (h : (e.narrow (.bit slot b)).Holds xs) :
    (c.split slot).1 = b ∧
    (e.narrow (.bit slot b)).Reads xs ((c.split slot).2.adapt slot (c.split slot).1) rest := by
  have hcode := hc.code
  have hbound : c.bound slot = e.bound slot := by
    rw [Coder.bound, Exact.bound, hc.range, hc.probs]
  obtain ⟨hlow, hhigh⟩ := h.head
  cases b with
  | false =>
      have hlt : c.code < c.bound slot := by
        simp only [Exact.narrow, Bool.false_eq_true, if_false] at hhigh
        omega
      simp only [Coder.split, if_pos hlt, Coder.adapt]
      exact ⟨trivial, hbound, hcode, by rw [hc.probs]; rfl, hc.rest⟩
  | true =>
      simp only [Exact.narrow, if_true] at hlow
      have hnlt : ¬ c.code < c.bound slot := by omega
      simp only [Coder.split, if_neg hnlt, Coder.adapt]
      refine ⟨trivial, ?_, ?_, by rw [hc.probs]; rfl, hc.rest⟩
      · change c.range - c.bound slot = e.range - e.bound slot
        rw [hc.range, hbound]
      · change c.code - c.bound slot + (e.low + e.bound slot) = value (xs.take (e.digits + 5))
        omega

theorem Exact.Reads.direct (hc : e.Reads xs c rest) (he : e.Ok)
    (h : (e.narrow (.direct b)).Holds xs) :
    c.splitDirect.1 = b ∧ (e.narrow (.direct b)).Reads xs c.splitDirect.2 rest := by
  have hcode := hc.code
  have hrange := hc.range
  have hr := he.range_lt
  obtain ⟨hlow, hhigh⟩ := h.head
  cases b with
  | false =>
      have hlt : c.code < c.range / 2 := by
        simp only [Exact.narrow, Bool.false_eq_true, if_false] at hhigh
        omega
      have hdiff : ¬ (c.code + (2 ^ 32 - c.range / 2)) % 2 ^ 32 < 2 ^ 31 := by omega
      simp only [Coder.splitDirect, if_neg hdiff]
      exact ⟨trivial, by rw [hrange]; rfl, hcode, hc.probs, hc.rest⟩
  | true =>
      simp only [Exact.narrow, if_true] at hlow hhigh
      have hdiff : (c.code + (2 ^ 32 - c.range / 2)) % 2 ^ 32 = c.code - c.range / 2 := by omega
      have hsmall : c.code - c.range / 2 < 2 ^ 31 := by omega
      simp only [Coder.splitDirect, hdiff, if_pos hsmall]
      refine ⟨trivial, by rw [hrange]; rfl, ?_, hc.probs, hc.rest⟩
      change c.code - c.range / 2 + (e.low + e.range / 2) = value (xs.take (e.digits + 5))
      omega

omit [DecidableEq σ] in
/-- The decoder draws a byte when the encoder made a digit. -/
theorem Exact.Reads.widen (hc : e.Reads xs c rest) (h : e.widen.Holds xs) :
    ∃ c' rest', normalize c rest = some (c', rest') ∧ e.widen.Reads xs c' rest' := by
  obtain ⟨hlow, hhigh⟩ := h.of_widen.head
  have hcode := hc.code
  have hrange := hc.range
  unfold Exact.widen at h ⊢
  by_cases hr : e.range < 2 ^ 24
  · rw [if_pos hr] at h ⊢
    have hlen : e.digits + 5 < xs.length := by
      have := h.len
      simp only at this
      omega
    have hrest : rest = xs[e.digits + 5] :: xs.drop (e.digits + 1 + 5) := by
      rw [hc.rest, List.drop_eq_getElem_cons hlen]
    rw [hrest, normalize_cons (by omega)]
    refine ⟨_, _, rfl, ?_, ?_, hc.probs, rfl⟩
    · change c.range * 256 = e.range * 256
      rw [hrange]
    · change c.code * 256 % 2 ^ 32 + xs[e.digits + 5].toNat + e.low * 256 =
        value (xs.take (e.digits + 1 + 5))
      rw [show e.digits + 1 + 5 = e.digits + 5 + 1 by omega, List.take_succ_eq_append_getElem hlen,
        value_snoc]
      omega
  · rw [if_neg hr]
    exact ⟨c, rest, normalize_of_le (by omega) _, hc⟩

/-- The decoder's answers are the encoder's bits, and its interval is the encoder's. -/
theorem Exact.Reads.run {os : List (Op σ)} {c₀ : Coder σ} {rest₀ : List UInt8} (he : e.Ok)
    (hn : normalize c₀ rest₀ = some (c, rest)) (hc : e.Reads xs c rest)
    (h : (e.ops os).Holds xs) : ∃ d ys c' rest',
      run (asksProg (os.map Op.ask)) c₀ rest₀ = .done (os.map Op.value) d ys ∧
      normalize d ys = some (c', rest') ∧ (e.ops os).Reads xs c' rest' := by
  induction os generalizing e c rest c₀ rest₀ with
  | nil => exact ⟨c₀, rest₀, c, rest, rfl, hn, hc⟩
  | cons o os ih =>
      have hop : (e.op o).Holds xs := Exact.Holds.of_ops h (he.op o)
      have hnarrow : (e.narrow o).Holds xs := hop.of_widen
      cases o with
      | bit slot b =>
          obtain ⟨hb, hread⟩ := hc.bit hnarrow
          obtain ⟨c₁, rest₁, hn₁, hread₁⟩ := hread.widen hop
          obtain ⟨d, ys, c', rest', hrun, hn', hread'⟩ := ih (he.op _) hn₁ hread₁ h
          refine ⟨d, ys, c', rest', ?_, hn', hread'⟩
          simp only [List.map_cons, Op.ask, Op.value, asksProg, RangeDecoder.run, hn]
          rw [run_bind, hrun, hb]
          rfl
      | direct b =>
          obtain ⟨hb, hread⟩ := hc.direct he hnarrow
          obtain ⟨c₁, rest₁, hn₁, hread₁⟩ := hread.widen hop
          obtain ⟨d, ys, c', rest', hrun, hn', hread'⟩ := ih (he.op _) hn₁ hread₁ h
          refine ⟨d, ys, c', rest', ?_, hn', hread'⟩
          simp only [List.map_cons, Op.ask, Op.value, asksProg, RangeDecoder.run, hn]
          rw [run_bind, hrun, hb]
          rfl

end
end LzmaTurbo.ExactCoder
