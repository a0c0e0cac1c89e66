import LzmaTurbo.Lib.RunLaws

/-!
# What holds at every bit of a run

`Along` speaks of the normalised coder at each bit a run comes to. Bounds stay
strictly inside the interval whatever the code is; the code stays below the
range at every bit but one kind, a direct bit that halves an odd interval whose
code is its last value.
-/
namespace LzmaTurbo.RangeDecoder
open BitProgram

variable {σ α : Type} [DecidableEq σ]

/-- `B` holds at each modelled bit and `D` at each direct one. -/
def Along (B : Coder σ → σ → Prop) (D : Coder σ → Prop) : Prog σ α → Coder σ → List UInt8 → Prop
  | .pure _, _, _ => True
  | .fail, _, _ => True
  | .bit slot next, c, xs =>
      match normalize c xs with
      | none => True
      | some (d, ys) => B d slot ∧
          Along B D (next (d.split slot).1) ((d.split slot).2.adapt slot (d.split slot).1) ys
  | .direct next, c, xs =>
      match normalize c xs with
      | none => True
      | some (d, ys) => D d ∧ Along B D (next d.splitDirect.1) d.splitDirect.2 ys

omit [DecidableEq σ] in
theorem normalize_code_lt {c d : Coder σ} {xs ys : List UInt8} (hc : c.code < c.range)
    (h : normalize c xs = some (d, ys)) : d.code < d.range := by
  obtain ⟨-, rfl, -⟩ | ⟨hr, x, -, rfl⟩ := normalize_cases h
  · exact hc
  · have hx := x.toNat_lt
    change c.code * 256 % 2 ^ 32 + x.toNat < c.range * 256
    omega

theorem split_code_lt {c : Coder σ} (hc : c.code < c.range) (slot : σ) :
    (((c.split slot).2.adapt slot (c.split slot).1).code <
      ((c.split slot).2.adapt slot (c.split slot).1).range) := by
  simp only [Coder.adapt, Coder.split]
  split
  · assumption
  · change c.code - c.bound slot < c.range - c.bound slot
    omega

omit [DecidableEq σ] in
/-- Halving drops the odd value of an interval, and a code that is there is past its end. -/
theorem splitDirect_code_lt_iff {c : Coder σ} (hc : c.code < c.range) (hr : c.range < 2 ^ 32) :
    c.splitDirect.2.code < c.splitDirect.2.range ↔ ¬ (c.range % 2 = 1 ∧ c.code + 1 = c.range) := by
  simp only [Coder.splitDirect]
  split <;> simp only <;> omega

/-- No bound is empty or the whole interval. -/
theorem along_bounds {p : Prog σ α} {c : Coder σ} (hc : c.Good) (xs : List UInt8) :
    Along (fun d slot => 0 < d.bound slot ∧ d.bound slot < d.range) (fun _ => True) p c xs := by
  induction p generalizing c xs with
  | pure a => trivial
  | fail => trivial
  | bit slot next ih =>
      simp only [Along]
      cases hn : normalize c xs with
      | none => trivial
      | some r =>
          obtain ⟨hg, hr⟩ := normalize_good hc hn
          obtain ⟨h1, -, h3⟩ := bound_pos hg hr slot
          exact ⟨⟨by omega, h3⟩, ih _ (adapt_good (split_good hg hr slot) slot _) _⟩
  | direct next ih =>
      simp only [Along]
      cases hn : normalize c xs with
      | none => trivial
      | some r =>
          obtain ⟨hg, hr⟩ := normalize_good hc hn
          exact ⟨trivial, ih _ (splitDirect_good hg hr) _⟩

/-- The code stays below the range on a run that never halves an odd interval at its end. -/
theorem run_code_lt {p : Prog σ α} {c d : Coder σ} {a : α} {xs ys : List UInt8} (hc : c.Good)
    (hlt : c.code < c.range)
    (hd : Along (fun _ _ => True) (fun d => ¬ (d.range % 2 = 1 ∧ d.code + 1 = d.range)) p c xs)
    (h : run p c xs = .done a d ys) : d.code < d.range := by
  induction p generalizing c xs with
  | pure a =>
      simp only [run, Outcome.done.injEq] at h
      exact h.2.1 ▸ hlt
  | fail => simp [run] at h
  | bit slot next ih =>
      simp only [run] at h
      simp only [Along] at hd
      cases hn : normalize c xs with
      | none => simp [hn] at h
      | some r =>
          obtain ⟨hg, hr⟩ := normalize_good hc hn
          simp only [hn] at h hd
          exact ih _ (adapt_good (split_good hg hr slot) slot _)
            (split_code_lt (normalize_code_lt hlt hn) slot) hd.2 h
  | direct next ih =>
      simp only [run] at h
      simp only [Along] at hd
      cases hn : normalize c xs with
      | none => simp [hn] at h
      | some r =>
          obtain ⟨hg, hr⟩ := normalize_good hc hn
          simp only [hn] at h hd
          exact ih _ (splitDirect_good hg hr)
            ((splitDirect_code_lt_iff (normalize_code_lt hlt hn) hg.range_lt).mpr hd.1) hd.2 h

/-- The probabilities a model that starts at one half can take. -/
inductive Learnt : ℕ → Prop
  | start : Learnt 1024
  | learn (b : Bool) {p : ℕ} : Learnt p → Learnt (learn b p)

/-- The least interval that holds them all. -/
def InLearnt (p : ℕ) : Prop := ∃ lo hi, Learnt lo ∧ Learnt hi ∧ lo ≤ p ∧ p ≤ hi

theorem Learnt.bounds {p : ℕ} (h : Learnt p) : 31 ≤ p ∧ p ≤ 2017 := by
  induction h with
  | start => omega
  | learn b _ ih => exact ⟨learn_ge ih.1, learn_le ih.2⟩

theorem Learnt.iterate (b : Bool) (n : ℕ) : Learnt ((RangeDecoder.learn b)^[n] 1024) := by
  induction n with
  | zero => exact .start
  | succ n ih =>
      rw [Function.iterate_succ_apply']
      exact .learn b ih

theorem inLearnt_iff {p : ℕ} : InLearnt p ↔ 31 ≤ p ∧ p ≤ 2017 := by
  constructor
  · rintro ⟨lo, hi, hlo, hhi, h1, h2⟩
    exact ⟨hlo.bounds.1.trans h1, h2.trans hhi.bounds.2⟩
  · rintro ⟨h1, h2⟩
    -- both ends are reached by 127 equal bits
    have hlo : (RangeDecoder.learn true)^[127] 1024 = 31 := by decide +kernel
    have hhi : (RangeDecoder.learn false)^[127] 1024 = 2017 := by decide +kernel
    exact ⟨_, _, .iterate true 127, .iterate false 127, hlo.trans_le h1, h2.trans_eq hhi.symm⟩

end LzmaTurbo.RangeDecoder
