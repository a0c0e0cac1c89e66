import LzmaTurbo.Lib.RangeDecoder

/-!
# Laws of running a bit program

Three facts carry every streaming argument: a finished run only looked at the
prefix it consumed, the dry run agrees with the real one when no model is asked
twice, and a program of bounded cost cannot ask for more than a bounded number
of bytes.
-/
namespace LzmaTurbo.RangeDecoder
open BitProgram

variable {σ α β : Type}

section
variable [DecidableEq σ]

attribute [grind] run

theorem run_bind (p : Prog σ α) (f : α → Prog σ β) (c : Coder σ) (xs : List UInt8) :
    run (p.bind f) c xs = match run p c xs with
      | .done a d ys => run (f a) d ys
      | .more => .more
      | .fail => .fail := by
  induction p generalizing c xs with
  | pure a => rfl
  | fail => rfl
  | bit slot next ih =>
      simp only [Prog.bind, run]
      cases normalize c xs with
      | none => rfl
      | some r => exact ih _ _ _
  | direct next ih =>
      simp only [Prog.bind, run]
      cases normalize c xs with
      | none => rfl
      | some r => exact ih _ _ _

theorem run_good {p : Prog σ α} {c d : Coder σ} {a : α} {xs ys : List UInt8} (hc : c.Good)
    (h : run p c xs = .done a d ys) : d.Good := by
  induction p generalizing c xs with
  | pure a =>
      simp only [run, Outcome.done.injEq] at h
      exact h.2.1 ▸ hc
  | fail => simp [run] at h
  | bit slot next ih =>
      simp only [run] at h
      cases hn : normalize c xs with
      | none => simp [hn] at h
      | some r =>
          obtain ⟨hg, hr⟩ := normalize_good hc hn
          simp only [hn] at h
          exact ih _ (adapt_good (split_good hg hr slot) slot _) h
  | direct next ih =>
      simp only [run] at h
      cases hn : normalize c xs with
      | none => simp [hn] at h
      | some r =>
          obtain ⟨hg, hr⟩ := normalize_good hc hn
          simp only [hn] at h
          exact ih _ (splitDirect_good hg hr) h

theorem run_returns {P : α → Prop} {p : Prog σ α} (hp : p.Returns P) {c d : Coder σ} {a : α}
    {xs ys : List UInt8} (h : run p c xs = .done a d ys) : P a := by
  induction p generalizing c xs with
  | pure a =>
      simp only [run, Outcome.done.injEq] at h
      exact h.1 ▸ hp
  | fail => simp [run] at h
  | bit slot next ih =>
      simp only [run] at h
      cases hn : normalize c xs with
      | none => simp [hn] at h
      | some r => simp only [hn] at h; exact ih _ (hp _) h
  | direct next ih =>
      simp only [run] at h
      cases hn : normalize c xs with
      | none => simp [hn] at h
      | some r => simp only [hn] at h; exact ih _ (hp _) h

theorem run_ne_fail {p : Prog σ α} (hp : p.Total) (c : Coder σ) (xs : List UInt8) :
    run p c xs ≠ .fail := by
  induction p generalizing c xs with
  | pure a => simp [run]
  | fail => exact hp.elim
  | bit slot next ih =>
      simp only [run]
      cases normalize c xs with
      | none => simp
      | some r => exact ih _ (hp _) _ _
  | direct next ih =>
      simp only [run]
      cases normalize c xs with
      | none => simp
      | some r => exact ih _ (hp _) _ _

/-- Bytes after the ones consumed are handed through untouched. -/
theorem run_append {p : Prog σ α} {c d : Coder σ} {a : α} {xs ys : List UInt8}
    (zs : List UInt8) (h : run p c xs = .done a d ys) :
    run p c (xs ++ zs) = .done a d (ys ++ zs) := by
  induction p generalizing c xs with
  | pure a => simp_all [run]
  | fail => simp [run] at h
  | bit slot next ih =>
      simp only [run] at h ⊢
      cases hn : normalize c xs with
      | none => simp [hn] at h
      | some r => simp only [hn, normalize_append zs hn] at h ⊢; exact ih _ h
  | direct next ih =>
      simp only [run] at h ⊢
      cases hn : normalize c xs with
      | none => simp [hn] at h
      | some r => simp only [hn, normalize_append zs hn] at h ⊢; exact ih _ h

theorem run_fail_append {p : Prog σ α} {c : Coder σ} {xs : List UInt8} (zs : List UInt8)
    (h : run p c xs = .fail) : run p c (xs ++ zs) = .fail := by
  induction p generalizing c xs with
  | pure a => simp [run] at h
  | fail => rfl
  | bit slot next ih =>
      simp only [run] at h ⊢
      cases hn : normalize c xs with
      | none => simp [hn] at h
      | some r => simp only [hn, normalize_append zs hn] at h ⊢; exact ih _ h
  | direct next ih =>
      simp only [run] at h ⊢
      cases hn : normalize c xs with
      | none => simp [hn] at h
      | some r => simp only [hn, normalize_append zs hn] at h ⊢; exact ih _ h

theorem run_split {p : Prog σ α} {c d : Coder σ} {a : α} {xs ys : List UInt8}
    (h : run p c xs = .done a d ys) : ∃ us, xs = us ++ ys ∧ run p c us = .done a d [] := by
  induction p generalizing c xs with
  | pure a =>
      simp only [run, Outcome.done.injEq] at h
      obtain ⟨rfl, rfl, rfl⟩ := h
      exact ⟨[], rfl, rfl⟩
  | fail => simp [run] at h
  | bit slot next ih =>
      simp only [run] at h
      cases hn : normalize c xs with
      | none => simp [hn] at h
      | some r =>
          obtain ⟨us, hus, -, hnu⟩ := normalize_split hn
          simp only [hn] at h
          obtain ⟨vs, hvs, hrun⟩ := ih _ h
          refine ⟨us ++ vs, by rw [hus, hvs, List.append_assoc], ?_⟩
          simp only [run, normalize_append vs hnu, List.nil_append]
          exact hrun
  | direct next ih =>
      simp only [run] at h
      cases hn : normalize c xs with
      | none => simp [hn] at h
      | some r =>
          obtain ⟨us, hus, -, hnu⟩ := normalize_split hn
          simp only [hn] at h
          obtain ⟨vs, hvs, hrun⟩ := ih _ h
          refine ⟨us ++ vs, by rw [hus, hvs, List.append_assoc], ?_⟩
          simp only [run, normalize_append vs hnu, List.nil_append]
          exact hrun

/-- A run either draws a byte or narrows the interval. -/
theorem run_progress {p : Prog σ α} {c d : Coder σ} {a : α} {xs ys : List UInt8}
    (hc : c.Good) (h : run p c xs = .done a d ys) :
    ys.length < xs.length ∨ (ys = xs ∧ d.range ≤ c.range) := by
  induction p generalizing c xs with
  | pure a =>
      simp only [run, Outcome.done.injEq] at h
      obtain ⟨rfl, rfl, rfl⟩ := h
      exact .inr ⟨rfl, le_rfl⟩
  | fail => simp [run] at h
  | bit slot next ih =>
      simp only [run] at h
      cases hn : normalize c xs with
      | none => simp [hn] at h
      | some r =>
          obtain ⟨hg, hr⟩ := normalize_good hc hn
          have hs := (split_range hg hr slot).2
          simp only [hn] at h
          have hi := ih _ (adapt_good (split_good hg hr slot) slot _) h
          simp only [Coder.adapt] at hi
          obtain ⟨-, hd, hx⟩ | ⟨-, x, hx, hd⟩ := normalize_cases hn
          · rw [hd] at hs hi
            rw [hx]
            rcases hi with hi | ⟨hi, hi'⟩
            · exact .inl hi
            · exact .inr ⟨hi, by omega⟩
          · left
            rw [hx]
            rcases hi with hi | ⟨hi, -⟩ <;> simp <;> grind
  | direct next ih =>
      simp only [run] at h
      cases hn : normalize c xs with
      | none => simp [hn] at h
      | some r =>
          obtain ⟨hg, hr⟩ := normalize_good hc hn
          simp only [hn] at h
          have hi := ih _ (splitDirect_good hg hr) h
          rw [splitDirect_range] at hi
          obtain ⟨-, hd, hx⟩ | ⟨-, x, hx, hd⟩ := normalize_cases hn
          · rw [hd] at hi
            rw [hx]
            rcases hi with hi | ⟨hi, hi'⟩
            · exact .inl hi
            · exact .inr ⟨hi, by omega⟩
          · left
            rw [hx]
            rcases hi with hi | ⟨hi, -⟩ <;> simp <;> grind

/-- The first modelled bit narrows the interval strictly. -/
theorem run_bit_progress {slot : σ} {next : Bool → Prog σ α} {c d : Coder σ} {a : α}
    {xs ys : List UInt8} (hc : c.Good) (h : run (.bit slot next) c xs = .done a d ys) :
    ys.length < xs.length ∨ (ys = xs ∧ d.range < c.range) := by
  simp only [run] at h
  cases hn : normalize c xs with
  | none => simp [hn] at h
  | some r =>
      obtain ⟨hg, hr⟩ := normalize_good hc hn
      have hs := (split_range hg hr slot).2
      simp only [hn] at h
      have hi := run_progress (adapt_good (split_good hg hr slot) slot _) h
      simp only [Coder.adapt] at hi
      obtain ⟨-, hd, hx⟩ | ⟨-, x, hx, hd⟩ := normalize_cases hn
      · rw [hd] at hs hi
        rw [hx]
        rcases hi with hi | ⟨hi, hi'⟩
        · exact .inl hi
        · exact .inr ⟨hi, by omega⟩
      · left
        rw [hx]
        rcases hi with hi | ⟨hi, -⟩ <;> simp <;> grind

/-- Starting a run with the pending normalisation already made changes nothing. -/
theorem run_bit_normalize {slot : σ} {next : Bool → Prog σ α} {c d : Coder σ}
    {xs ys : List UInt8} (hc : c.Good) (h : normalize c xs = some (d, ys)) :
    run (.bit slot next) c xs = run (.bit slot next) d ys := by
  simp only [run, h, normalize_normalize hc h]

omit [DecidableEq σ] in
theorem flush_done {o : Outcome σ α} {a : α} {d : Coder σ} {ys : List UInt8}
    (h : o.flush = .done a d ys) : ∃ c xs, o = .done a c xs ∧ normalize c xs = some (d, ys) := by
  cases o with
  | more => simp [Outcome.flush] at h
  | fail => simp [Outcome.flush] at h
  | done b c xs =>
      simp only [Outcome.flush] at h
      cases hn : normalize c xs with
      | none => simp [hn] at h
      | some r =>
          simp only [hn, Outcome.done.injEq] at h
          obtain ⟨rfl, rfl, rfl⟩ := h
          exact ⟨c, xs, rfl, hn⟩

omit [DecidableEq σ] in
theorem flush_fail {o : Outcome σ α} (h : o.flush = .fail) : o = .fail := by
  cases o with
  | more => simp [Outcome.flush] at h
  | fail => rfl
  | done b c xs =>
      simp only [Outcome.flush] at h
      cases hn : normalize c xs <;> simp [hn] at h

theorem flush_run_good {p : Prog σ α} {c d : Coder σ} {a : α} {xs ys : List UInt8}
    (hc : c.Good) (h : (run p c xs).flush = .done a d ys) : d.Good ∧ 2 ^ 24 ≤ d.range := by
  obtain ⟨e, zs, hr, hn⟩ := flush_done h
  exact normalize_good (run_good hc hr) hn

theorem flush_run_returns {P : α → Prop} {p : Prog σ α} (hp : p.Returns P) {c d : Coder σ}
    {a : α} {xs ys : List UInt8} (h : (run p c xs).flush = .done a d ys) : P a := by
  obtain ⟨e, zs, hr, -⟩ := flush_done h
  exact run_returns hp hr

theorem flush_run_append {p : Prog σ α} {c d : Coder σ} {a : α} {xs ys : List UInt8}
    (zs : List UInt8) (h : (run p c xs).flush = .done a d ys) :
    (run p c (xs ++ zs)).flush = .done a d (ys ++ zs) := by
  obtain ⟨e, us, hr, hn⟩ := flush_done h
  simp only [run_append zs hr, Outcome.flush, normalize_append zs hn]

theorem flush_run_fail_append {p : Prog σ α} {c : Coder σ} {xs : List UInt8}
    (zs : List UInt8) (h : (run p c xs).flush = .fail) : (run p c (xs ++ zs)).flush = .fail := by
  rw [run_fail_append zs (flush_fail h)]
  rfl

theorem flush_run_split {p : Prog σ α} {c d : Coder σ} {a : α} {xs ys : List UInt8}
    (h : (run p c xs).flush = .done a d ys) :
    ∃ us, xs = us ++ ys ∧ (run p c us).flush = .done a d [] := by
  obtain ⟨e, zs, hr, hn⟩ := flush_done h
  obtain ⟨us, hus, hru⟩ := run_split hr
  obtain ⟨vs, hvs, -, hnv⟩ := normalize_split hn
  refine ⟨us ++ vs, by rw [hus, hvs, List.append_assoc], ?_⟩
  simp only [run_append vs hru, Outcome.flush, List.nil_append, hnv]

/-- What a finished run consumed was needed to the last byte. -/
theorem flush_run_prefix {p : Prog σ α} {c d : Coder σ} {a : α} {us vs : List UInt8}
    (h : (run p c (us ++ vs)).flush = .done a d []) (hv : vs ≠ []) :
    (run p c us).flush = .more := by
  cases hr : (run p c us).flush with
  | more => rfl
  | fail => simp [flush_run_fail_append vs hr] at h
  | done b e ws =>
      rw [flush_run_append vs hr, Outcome.done.injEq] at h
      simp_all

theorem flush_run_bit_progress {slot : σ} {next : Bool → Prog σ α} {c d : Coder σ} {a : α}
    {xs ys : List UInt8} (hc : c.Good)
    (h : (run (.bit slot next) c xs).flush = .done a d ys) :
    ys.length < xs.length ∨ (ys = xs ∧ d.range < c.range) := by
  obtain ⟨e, zs, hr, hn⟩ := flush_done h
  have hp := run_bit_progress hc hr
  obtain ⟨-, rfl, rfl⟩ | ⟨-, x, rfl, rfl⟩ := normalize_cases hn
  · exact hp
  · left
    rcases hp with hp | ⟨rfl, -⟩
    · simp only [List.length_cons] at hp
      omega
    · simp

/-- The two outcomes stop at the same byte with the same interval. -/
def Outcome.Agree : Outcome σ α → Outcome σ α → Prop
  | .more, .more => True
  | .fail, .fail => True
  | .done a c xs, .done b d ys => a = b ∧ c.range = d.range ∧ c.code = d.code ∧ xs = ys
  | _, _ => False

omit [DecidableEq σ] in
theorem normalize_agree {c d : Coder σ} (hr : c.range = d.range) (hc : c.code = d.code)
    (xs : List UInt8) :
    (normalize c xs = none ∧ normalize d xs = none) ∨
    ∃ c' d' ys, normalize c xs = some (c', ys) ∧ normalize d xs = some (d', ys) ∧
      c'.range = d'.range ∧ c'.code = d'.code ∧ c'.probs = c.probs ∧ d'.probs = d.probs := by
  by_cases h : c.range < 2 ^ 24
  · cases xs with
    | nil => exact .inl ⟨normalize_nil h, normalize_nil (hr ▸ h)⟩
    | cons x xs =>
        refine .inr ⟨_, _, xs, normalize_cons h x xs, normalize_cons (hr ▸ h) x xs, ?_⟩
        simp [hr, hc]
  · exact .inr ⟨c, d, xs, normalize_of_le (by omega) _, normalize_of_le (by omega) _,
      hr, hc, rfl, rfl⟩

omit [DecidableEq σ] in
theorem peek_bind (p : Prog σ α) (f : α → Prog σ β) (c : Coder σ) (xs : List UInt8) :
    peek (p.bind f) c xs = match peek p c xs with
      | .done a d ys => peek (f a) d ys
      | .more => .more
      | .fail => .fail := by
  induction p generalizing c xs with
  | pure a => rfl
  | fail => rfl
  | bit slot next ih =>
      simp only [Prog.bind, peek]
      cases normalize c xs with
      | none => rfl
      | some r => exact ih _ _ _
  | direct next ih =>
      simp only [Prog.bind, peek]
      cases normalize c xs with
      | none => rfl
      | some r => exact ih _ _ _

omit [DecidableEq σ] in
/-- What a dry run returns, and that it leaves the models alone. -/
theorem peek_returns {P : α → Prop} {p : Prog σ α} (hp : p.Returns P) {c d : Coder σ} {a : α}
    {xs ys : List UInt8} (h : peek p c xs = .done a d ys) : P a ∧ d.probs = c.probs := by
  induction p generalizing c xs with
  | pure a =>
      simp only [peek, Outcome.done.injEq] at h
      obtain ⟨rfl, rfl, rfl⟩ := h
      exact ⟨hp, rfl⟩
  | fail => simp [peek] at h
  | bit slot next ih =>
      simp only [peek] at h
      cases hn : normalize c xs with
      | none => simp [hn] at h
      | some r =>
          simp only [hn] at h
          obtain ⟨h1, h2⟩ := ih _ (hp _) h
          refine ⟨h1, h2.trans (Eq.trans ?_ (normalize_probs hn))⟩
          unfold Coder.split
          split <;> rfl
  | direct next ih =>
      simp only [peek] at h
      cases hn : normalize c xs with
      | none => simp [hn] at h
      | some r =>
          simp only [hn] at h
          obtain ⟨h1, h2⟩ := ih _ (hp _) h
          refine ⟨h1, h2.trans (Eq.trans ?_ (normalize_probs hn))⟩
          simp only [Coder.splitDirect]
          split <;> rfl

/-- No model is asked twice, so it does not matter that the dry run never learns. -/
theorem run_agree_peek {p : Prog σ α} {c d : Coder σ} (ho : p.Once) (hr : c.range = d.range)
    (hc : c.code = d.code) (hp : p.Slots (fun i => c.probs i = d.probs i)) (xs : List UInt8) :
    (run p c xs).Agree (peek p d xs) := by
  induction p generalizing c d xs with
  | pure a => exact ⟨rfl, hr, hc, rfl⟩
  | fail => trivial
  | bit slot next ih =>
      simp only [run, peek]
      obtain ⟨h1, h2⟩ | ⟨c', d', ys, h1, h2, hr', hc', hcp, hdp⟩ := normalize_agree hr hc xs
      · rw [h1, h2]
        trivial
      · have hb : c'.bound slot = d'.bound slot := by
          simp only [Coder.bound, hr', hcp, hdp, hp.1]
        have hs : (c'.split slot).1 = (d'.split slot).1 := by
          simp only [Coder.split, hb, hc']
          split <;> rfl
        simp only [h1, h2, hs]
        refine ih _ (ho _).2 ?_ ?_ ?_ ys
        · simp only [Coder.adapt, Coder.split, hb, hc', hr']
          split <;> rfl
        · simp only [Coder.adapt, Coder.split, hb, hc', hr']
          split <;> rfl
        · have hfresh := (ho (d'.split slot).1).1
          have hall := hp.2 (d'.split slot).1
          have hcs : (c'.split slot).2.probs = c.probs := by
            rw [← hcp]; unfold Coder.split; split <;> rfl
          have hds : (d'.split slot).2.probs = d.probs := by
            rw [← hdp]; unfold Coder.split; split <;> rfl
          simp only [Coder.adapt, hcs, hds]
          exact (hfresh.and hall).mono (fun i hi => by
            rw [Function.update_of_ne hi.1]
            exact hi.2)
  | direct next ih =>
      simp only [run, peek]
      obtain ⟨h1, h2⟩ | ⟨c', d', ys, h1, h2, hr', hc', hcp, hdp⟩ := normalize_agree hr hc xs
      · rw [h1, h2]
        trivial
      · have hs : c'.splitDirect.1 = d'.splitDirect.1 := by
          simp only [Coder.splitDirect, hr', hc']
          split <;> rfl
        simp only [h1, h2, hs]
        refine ih _ (ho _) ?_ ?_ ?_ ys
        · simp only [splitDirect_range, hr']
        · simp only [Coder.splitDirect, hr', hc']
          split <;> rfl
        · have hcs : c'.splitDirect.2.probs = c.probs := by
            rw [← hcp]; simp only [Coder.splitDirect]; split <;> rfl
          have hds : d'.splitDirect.2.probs = d.probs := by
            rw [← hdp]; simp only [Coder.splitDirect]; split <;> rfl
          rw [hcs, hds]
          exact hp _

omit [DecidableEq σ] in
theorem Outcome.Agree.flush {o o' : Outcome σ α} (h : o.Agree o') : o.flush.Agree o'.flush := by
  cases o with
  | more => cases o' <;> first | exact h | exact h.elim
  | fail => cases o' <;> first | exact h | exact h.elim
  | done a c xs =>
      cases o' with
      | more => exact h.elim
      | fail => exact h.elim
      | done b d ys =>
          obtain ⟨rfl, hr, hc, rfl⟩ := h
          simp only [Outcome.flush]
          obtain ⟨h1, h2⟩ | ⟨c', d', zs, h1, h2, hr', hc', -, -⟩ := normalize_agree hr hc xs
          · rw [h1, h2]
            trivial
          · rw [h1, h2]
            exact ⟨rfl, hr', hc', rfl⟩

/-- An interval wide enough for `n` hundredths of a bit and `k` more bytes; the
hundredth power keeps the estimate inside the natural numbers. -/
def Coder.Covers (c : Coder σ) (n k : ℕ) : Prop :=
  2 ^ (2400 + n) ≤ c.range ^ 100 * 2 ^ (800 * k)

theorem pow_shrink {r s a e : ℕ} (h : r * 100 ≤ s * a) (ha : a ^ 100 ≤ 100 ^ 100 * 2 ^ e) :
    r ^ 100 ≤ s ^ 100 * 2 ^ e := by
  have h1 : r ^ 100 * 100 ^ 100 ≤ s ^ 100 * a ^ 100 := by
    rw [← mul_pow, ← mul_pow]
    exact Nat.pow_le_pow_left h 100
  have h2 : s ^ 100 * a ^ 100 ≤ s ^ 100 * (100 ^ 100 * 2 ^ e) := Nat.mul_le_mul_left _ ha
  have h3 : r ^ 100 * 100 ^ 100 ≤ s ^ 100 * 2 ^ e * 100 ^ 100 := by
    calc r ^ 100 * 100 ^ 100 ≤ s ^ 100 * (100 ^ 100 * 2 ^ e) := h1.trans h2
      _ = s ^ 100 * 2 ^ e * 100 ^ 100 := by ring
  exact Nat.le_of_mul_le_mul_right h3 (by positivity)

omit [DecidableEq σ] in
theorem Coder.Covers.shrink {c d : Coder σ} {n k e : ℕ} (h : c.Covers n k) (he : e ≤ n)
    (hs : c.range ^ 100 ≤ d.range ^ 100 * 2 ^ e) : d.Covers (n - e) k := by
  unfold Coder.Covers at h ⊢
  have h1 : 2 ^ (2400 + (n - e)) * 2 ^ e = 2 ^ (2400 + n) := by
    rw [← pow_add]
    congr 1
    omega
  have h2 : c.range ^ 100 * 2 ^ (800 * k) ≤ d.range ^ 100 * 2 ^ e * 2 ^ (800 * k) :=
    Nat.mul_le_mul_right _ hs
  have h3 : 2 ^ (2400 + (n - e)) * 2 ^ e ≤ d.range ^ 100 * 2 ^ (800 * k) * 2 ^ e := by
    calc 2 ^ (2400 + (n - e)) * 2 ^ e ≤ d.range ^ 100 * 2 ^ e * 2 ^ (800 * k) := by
          rw [h1]
          exact h.trans h2
      _ = d.range ^ 100 * 2 ^ (800 * k) * 2 ^ e := by ring
  exact Nat.le_of_mul_le_mul_right h3 (by positivity)

omit [DecidableEq σ] in
theorem Coder.Covers.split {c : Coder σ} {n k : ℕ} (h : c.Covers n k) (hc : c.Good)
    (hr : 2 ^ 24 ≤ c.range) (hn : 605 ≤ n) (slot : σ) : (c.split slot).2.Covers (n - 605) k := by
  have hs := (split_range hc hr slot).1
  exact h.shrink hn (pow_shrink (a := 6608) (by omega) (by decide +kernel))

omit [DecidableEq σ] in
theorem Coder.Covers.splitDirect {c : Coder σ} {n k : ℕ} (h : c.Covers n k)
    (hr : 2 ^ 24 ≤ c.range) (hn : 101 ≤ n) : c.splitDirect.2.Covers (n - 101) k := by
  have hs := splitDirect_range c
  exact h.shrink hn (pow_shrink (a := 201) (by omega) (by norm_num))

omit [DecidableEq σ] in
theorem normalize_covers {c : Coder σ} {n k : ℕ} (h : c.Covers n k) (xs : List UInt8) :
    (normalize c xs = none ∧ xs.length < k) ∨
    ∃ d ys k', normalize c xs = some (d, ys) ∧ d.Covers n k' ∧
      k' + xs.length ≤ k + ys.length := by
  by_cases hr : c.range < 2 ^ 24
  · have hk : 1 ≤ k := by
      by_contra hk
      obtain rfl : k = 0 := by omega
      have h1 : c.range ^ 100 < (2 ^ 24) ^ 100 := Nat.pow_lt_pow_left hr (by norm_num)
      have h2 : (2 : ℕ) ^ (24 * 100) ≤ 2 ^ (2400 + n) :=
        Nat.pow_le_pow_right (by norm_num) (by omega)
      have h3 : 2 ^ (2400 + n) ≤ c.range ^ 100 * 2 ^ 0 := h
      rw [pow_zero, mul_one] at h3
      rw [pow_mul] at h2
      exact absurd (h2.trans h3) (Nat.not_le.mpr h1)
    cases xs with
    | nil => exact .inl ⟨normalize_nil hr, hk⟩
    | cons x xs =>
        refine .inr ⟨_, xs, k - 1, normalize_cons hr x xs, ?_, ?_⟩
        · unfold Coder.Covers at h ⊢
          have h1 : c.range ^ 100 * 2 ^ (800 * k) =
              (c.range * 256) ^ 100 * 2 ^ (800 * (k - 1)) := by
            rw [show 800 * k = 800 + 800 * (k - 1) by omega, pow_add, mul_pow,
              show (256 : ℕ) = 2 ^ 8 by norm_num, ← pow_mul, mul_assoc]
          rwa [h1] at h
        · simp only [List.length_cons]
          omega
  · exact .inr ⟨c, xs, k, normalize_of_le (by omega) _, h, by omega⟩

/-- A program of bounded cost needs a bounded number of bytes, its last
normalisation included. -/
theorem run_budget {p : Prog σ α} {c : Coder σ} {n k : ℕ} (hp : p.Within n) (hc : c.Good)
    (h : c.Covers n k) (xs : List UInt8) :
    ((run p c xs).flush = .more → xs.length < k) ∧
    ∀ a d ys, (run p c xs).flush = .done a d ys → xs.length ≤ ys.length + k := by
  induction p generalizing c n k xs with
  | pure a =>
      simp only [run, Outcome.flush]
      obtain ⟨hn, hx⟩ | ⟨d, ys, k', hn, -, hk⟩ := normalize_covers h xs
      · simp [hn, hx]
      · simp only [hn, Outcome.done.injEq, reduceCtorEq, false_implies, true_and]
        rintro _ _ zs ⟨-, -, rfl⟩
        omega
  | fail => simp [run, Outcome.flush]
  | bit slot next ih =>
      simp only [run]
      obtain ⟨hn, hx⟩ | ⟨d, ys, k', hn, hd, hk⟩ := normalize_covers h xs
      · simp [hn, hx, Outcome.flush]
      · obtain ⟨hg, hr⟩ := normalize_good hc hn
        obtain ⟨h1, h2⟩ := ih _ (hp.2 (d.split slot).1)
          (adapt_good (split_good hg hr slot) slot (d.split slot).1)
          (hd.split hg hr hp.1 slot) ys
        simp only [hn]
        refine ⟨fun hm => ?_, fun a e zs hd => ?_⟩
        · have := h1 hm
          omega
        · have := h2 a e zs hd
          omega
  | direct next ih =>
      simp only [run]
      obtain ⟨hn, hx⟩ | ⟨d, ys, k', hn, hd, hk⟩ := normalize_covers h xs
      · simp [hn, hx, Outcome.flush]
      · obtain ⟨hg, hr⟩ := normalize_good hc hn
        obtain ⟨h1, h2⟩ := ih _ (hp.2 d.splitDirect.1) (splitDirect_good hg hr)
          (hd.splitDirect hr hp.1) ys
        simp only [hn]
        refine ⟨fun hm => ?_, fun a e zs hd => ?_⟩
        · have := h1 hm
          omega
        · have := h2 a e zs hd
          omega

end
end LzmaTurbo.RangeDecoder
