import LzmaTurbo.Lzma2.FormatLaws

/-!
# Runs of the grammar

What a run has read decides what it has written; how much it still has to write
before it can end is known from where it stands.
-/
namespace LzmaTurbo.Lzma2
open Lzma StreamMachine

theorem Pos.step_append {pos : Pos} {xs : List UInt8} (zs : List UInt8)
    (h : pos.step xs ≠ .more) : pos.step (xs ++ zs) = (pos.step xs).append zs := by
  cases pos with
  | chunk r => exact chunkStep_append zs h
  | stored r n => exact storedStep_append zs h
  | packed prop base c target pack => exact packedStep_append zs h

theorem Pos.step_split {pos pos' : Pos} {xs ys : List UInt8} (h : pos.step xs = .next pos' ys) :
    ∃ us, xs = us ++ ys ∧ pos.step us = .next pos' [] := by
  cases pos with
  | chunk r => exact chunkStep_split h
  | stored r n => exact storedStep_split h
  | packed prop base c target pack => exact packedStep_split h

theorem Pos.step_next {pos pos' : Pos} {xs ys : List UInt8} (hp : pos.Ok)
    (h : pos.step xs = .next pos' ys) : pos'.Ok ∧ pos'.measure ys < pos.measure xs := by
  cases pos with
  | chunk r => exact chunkStep_next hp h
  | stored r n => exact storedStep_next hp h
  | packed prop base c target pack => exact packedStep_next hp.1 hp.2 h

theorem Pos.lawful : Lawful Pos.step Pos.Ok Pos.measure where
  append zs h := Pos.step_append zs h
  split h := Pos.step_split h
  next hp h := Pos.step_next hp h

/-- Some whole number of steps of the grammar. -/
abbrev Moves2 : Pos → List UInt8 → Pos → List UInt8 → Prop :=
  StreamMachine.Moves (fun _ => True) Pos.step

/-- The length the output has at least when the chunk at hand is done. -/
def Pos.due : Pos → ℕ
  | .chunk r => r.s.hist.length + r.base.length
  | .stored r n => r.s.hist.length + r.base.length + max n 1
  | .packed _ base _ target _ => target + base.length

/-- The same when `ys` comes next: a chunk whose header has begun writes a byte at least. -/
def Pos.dueWith (pos : Pos) (ys : List UInt8) : ℕ :=
  match pos, ys with
  | .chunk r, b :: _ => if b = 0 then (Pos.chunk r).due else (Pos.chunk r).due + 1
  | pos, _ => pos.due

theorem Ref2.openStored_out (r : Ref2) (control size : ℕ) :
    (r.openStored control size).out = (Pos.chunk r).out ∧
      (Pos.chunk r).due < (r.openStored control size).due := by
  unfold Ref2.openStored
  split
  · refine ⟨rfl, ?_⟩
    simp only [Ref2.resetDic, Pos.due, List.length_nil, List.length_append]
    omega
  · refine ⟨rfl, ?_⟩
    simp only [Pos.due]
    omega

theorem Ref2.openPacked_out (r : Ref2) (prop : LzmaProps) (control unpack pack : ℕ)
    (hu : 0 < unpack) : (({ r with prop } : Ref2).openPacked control unpack pack).out =
      (Pos.chunk r).out ∧
      (Pos.chunk r).due < (({ r with prop } : Ref2).openPacked control unpack pack).due := by
  unfold Ref2.openPacked
  by_cases hd : 0xE0 ≤ control
  · simp only [if_pos hd, if_pos (show 0xA0 ≤ control by omega), Ref2.resetDic]
    constructor
    · simp only [Pos.out, Config.hist, freshState, List.drop_nil, List.nil_append]
    · simp only [Pos.due, freshState, List.length_nil, List.length_append]
      omega
  · by_cases hs : 0xA0 ≤ control
    · simp only [if_neg hd, if_pos hs, Pos.out, Pos.due, Config.hist, freshState]
      exact ⟨by rw [Nat.sub_eq_zero_of_le (Nat.le_add_right _ _), List.drop_zero], by omega⟩
    · simp only [if_neg hd, if_neg hs, Pos.out, Pos.due, Config.hist]
      exact ⟨by rw [Nat.sub_eq_zero_of_le (Nat.le_add_right _ _), List.drop_zero], by omega⟩

theorem Ref2.openStored_dueWith (r : Ref2) (control size : ℕ) (ys : List UInt8) :
    (r.openStored control size).dueWith ys = (r.openStored control size).due := by
  unfold Ref2.openStored
  split <;> rfl

theorem Ref2.openPacked_dueWith (r : Ref2) (control unpack pack : ℕ) (ys : List UInt8) :
    (r.openPacked control unpack pack).dueWith ys = (r.openPacked control unpack pack).due := rfl

theorem Config.state_hist (c : Config) : (Config.state c).hist = c.hist := by
  cases c <;> rfl

/-- The next chunk writes at least a byte. -/
theorem chunkStep_out {r : Ref2} {pos' : Pos} {xs ys : List UInt8}
    (h : chunkStep r xs = .next pos' ys) :
    (Pos.chunk r).out <:+ pos'.out ∧ (Pos.chunk r).due < pos'.due := by
  obtain ⟨b, u1, u0, -, -, rfl⟩ | ⟨b, u1, u0, p1, p0, -, -, -, -, rfl⟩ |
    ⟨b, u1, u0, p1, p0, d, prop, -, -, -, -, -, rfl⟩ := chunkStep_cases h
  · obtain ⟨ho, hd⟩ := r.openStored_out b.toNat (be16 u1 u0 + 1)
    exact ⟨ho ▸ List.suffix_rfl, hd⟩
  · obtain ⟨ho, hd⟩ := r.openPacked_out r.prop b.toNat _ (be16 p1 p0 + 1)
      (Nat.succ_pos (b.toNat % 32 * 2 ^ 16 + be16 u1 u0))
    exact ⟨ho ▸ List.suffix_rfl, hd⟩
  · obtain ⟨ho, hd⟩ := r.openPacked_out prop b.toNat _ (be16 p1 p0 + 1)
      (Nat.succ_pos (b.toNat % 32 * 2 ^ 16 + be16 u1 u0))
    exact ⟨ho ▸ List.suffix_rfl, hd⟩

/-- A step only appends to the output, and owes no less after it. -/
theorem Pos.step_out {pos pos' : Pos} {xs ys : List UInt8} (hp : pos.Ok)
    (h : pos.step xs = .next pos' ys) : pos.out <:+ pos'.out ∧ pos.due ≤ pos'.due := by
  cases pos with
  | chunk r => exact (chunkStep_out h).imp_right Nat.le_of_lt
  | stored r n =>
      rcases xs with _ | ⟨b, rest⟩
      · cases h
      · simp only [Pos.step, storedStep] at h
        split at h
        · cases h
          exact ⟨List.suffix_cons _ _, by
            simp only [Pos.due, Ref2.push, List.length_cons]
            omega⟩
        · cases h
          exact ⟨List.suffix_cons _ _, by
            simp only [Pos.due, Ref2.push, List.length_cons]
            omega⟩
  | packed prop base c target pack =>
      obtain ⟨c', us, zs, hlt, -, -, -, hs, rfl⟩ | ⟨hl, -, -, -, rfl⟩ := packedStep_cases h
      · obtain ⟨-, ⟨new, hnew⟩, -⟩ := Config.step_next hp.1 hs
        refine ⟨?_, le_rfl⟩
        have hlen := congrArg List.length hnew
        rw [List.length_append] at hlen
        simp only [Pos.out]
        rw [Nat.sub_eq_zero_of_le hlt.le, List.drop_zero, ← hnew,
          List.drop_append_of_le_length (by rw [List.length_append]; omega), List.append_assoc]
        exact List.suffix_append _ _
      · simp only [Pos.out, Pos.due, Config.state_hist]
        rw [Nat.sub_eq_zero_of_le hl.le, List.drop_zero]
        exact ⟨List.suffix_rfl, by omega⟩

section
variable {pos pos' : Pos} {xs ys zs rest : List UInt8} {prop : LzmaProps}

theorem Moves2.ok (h : Moves2 pos xs pos' ys) (hp : pos.Ok) : pos'.Ok :=
  StreamMachine.Moves.ok Pos.lawful h hp

theorem Moves2.append (h : Moves2 pos xs pos' ys) (zs : List UInt8) :
    Moves2 pos (xs ++ zs) pos' (ys ++ zs) :=
  StreamMachine.Moves.append Pos.lawful h zs

theorem Moves2.out (h : Moves2 pos xs pos' ys) (hp : pos.Ok) :
    pos.out <:+ pos'.out ∧ pos.due ≤ pos'.due := by
  induction h with
  | refl => exact ⟨List.suffix_rfl, le_rfl⟩
  | step _ hs _ ih =>
      obtain ⟨ho, hd⟩ := Pos.step_out hp hs
      obtain ⟨ho', hd'⟩ := ih (Pos.step_next hp hs).1
      exact ⟨ho.trans ho', hd.trans hd'⟩

theorem Pos.start_ok (prop : LzmaProps) : (Pos.start prop).Ok :=
  ⟨fun h => absurd h (by decide : (0xE0 : ℕ) ≠ 0), .inr (by decide : (0xC0 : ℕ) ≤ 0xE0)⟩

theorem format2_eq (h : Moves2 (Pos.start prop) xs pos ys) :
    format2 prop xs = .of (run Pos.step Pos.measure pos ys) :=
  congrArg Result2.of (h.run_eq Pos.lawful (Pos.start_ok prop))

/-- Before its verdict the output only grows. -/
theorem Moves2.isPrefix (h : Moves2 (Pos.start prop) xs pos ys) {w : List UInt8}
    (hw : w <:+ pos.out) : w.reverse <+: (format2 prop xs).out := by
  have hp := h.ok (Pos.start_ok prop)
  obtain ⟨zs, hm, -⟩ := Pos.lawful.run_moves hp ys
  rw [format2_eq h]
  exact List.reverse_prefix.mpr (hw.trans (Moves2.out hm hp).1)

theorem Moves2.reject (h : Moves2 (Pos.start prop) xs pos ys) (hs : pos.step ys = .reject) :
    format2 prop xs = ⟨pos.out.reverse, ys, .reject⟩ := by
  rw [format2_eq h, Pos.lawful.run_eq (h.ok (Pos.start_ok prop)), hs]
  rfl

theorem Moves2.mark {u : Unit} (h : Moves2 (Pos.start prop) xs pos ys)
    (hs : pos.step ys = .mark u rest) : format2 prop xs = ⟨pos.out.reverse, rest, .mark⟩ := by
  rw [format2_eq h, Pos.lawful.run_eq (h.ok (Pos.start_ok prop)), hs]
  rfl

theorem Moves2.more (h : Moves2 (Pos.start prop) xs pos ys) (hs : pos.step ys = .more) :
    format2 prop xs = ⟨pos.out.reverse, ys, .more⟩ := by
  rw [format2_eq h, Pos.lawful.run_eq (h.ok (Pos.start_ok prop)), hs]
  rfl

theorem chunkStep_mark {r : Ref2} {b : UInt8} (hb : b ≠ 0) (u : Unit) :
    chunkStep r (b :: xs) ≠ .mark u rest := by
  intro h
  rcases xs with _ | ⟨u1, _ | ⟨u0, _ | ⟨p1, _ | ⟨p0, _ | ⟨d, xs⟩⟩⟩⟩⟩
  all_goals
    simp only [chunkStep, if_neg hb] at h
    split_ifs at h
  cases hd : chunkProps d.toNat r.prop <;> simp [hd] at h

/-- Only between two chunks may a stream end. -/
theorem Pos.step_mark {u : Unit} (h : pos.step xs = .mark u rest) :
    ∃ r, pos = .chunk r ∧ xs = 0 :: rest := by
  cases pos with
  | chunk r =>
      refine ⟨r, rfl, ?_⟩
      rcases xs with _ | ⟨b, xs⟩
      · simp only [Pos.step, chunkStep] at h
        cases h
      by_cases h0 : b = 0
      · have hb : chunkStep r (b :: xs) = .mark () xs := by simp only [chunkStep, if_pos h0]
        simp only [Pos.step, hb, Step.mark.injEq] at h
        rw [h0, h.2]
      · exact absurd h (chunkStep_mark h0 u)
  | stored r n =>
      rcases xs with _ | ⟨b, xs⟩
      · simp only [Pos.step, storedStep] at h
        cases h
      · simp only [Pos.step, storedStep] at h
        split at h <;> cases h
  | packed prop base c target pack => exact absurd h (packedStep_mark _ _)

/-- A stream that is accepted is at least as long as what is due of it. -/
theorem Moves2.due_le (h : Moves2 (Pos.start prop) xs pos ys)
    (hv : (format2 prop xs).verdict = .mark) : pos.due ≤ (format2 prop xs).out.length := by
  have hp := h.ok (Pos.start_ok prop)
  obtain ⟨zs, hm, hlast⟩ := Pos.lawful.run_moves hp ys
  obtain ⟨-, hdue⟩ := Moves2.out hm hp
  rw [format2_eq h] at hv ⊢
  generalize run Pos.step Pos.measure pos ys = res at hlast hdue hv ⊢
  obtain ⟨last, left, verdict⟩ := res
  cases verdict with
  | more => cases hv
  | reject => cases hv
  | mark u =>
      obtain ⟨r, rfl, -⟩ := Pos.step_mark hlast
      simp only [Result2.of, Pos.out, List.length_reverse, List.length_append]
      exact hdue

theorem Moves2.dueWith_le (h : Moves2 (Pos.start prop) xs pos ys)
    (hv : (format2 prop xs).verdict = .mark) :
    pos.dueWith ys ≤ (format2 prop xs).out.length := by
  have hdue := h.due_le hv
  cases pos with
  | stored r n => exact hdue
  | packed prop base c target pack => exact hdue
  | chunk r =>
      rcases ys with _ | ⟨b, ys⟩
      · exact hdue
      · simp only [Pos.dueWith]
        by_cases hb : b = 0
        · rwa [if_pos hb]
        · rw [if_neg hb]
          cases hs : chunkStep r (b :: ys) with
          | more => rw [h.more hs] at hv; cases hv
          | reject => rw [h.reject hs] at hv; cases hv
          | mark u rest => exact absurd hs (chunkStep_mark hb u)
          | next pos' zs =>
              have hlt := (chunkStep_out hs).2
              have hle := (Moves2.due_le (h.trans (.single trivial hs)) hv)
              omega

/-- Whatever follows, the chunk cannot be finished. -/
def Doomed (pos : Pos) (ys : List UInt8) : Prop :=
  ∀ zs, pos.step (ys ++ zs) = .more ∨ pos.step (ys ++ zs) = .reject

theorem Doomed.of_reject (h : pos.step ys = .reject) : Doomed pos ys := fun zs => by
  rw [Pos.step_append zs (by rw [h]; simp), h]
  exact .inr rfl

theorem Doomed.append (h : Doomed pos ys) (zs : List UInt8) : Doomed pos (ys ++ zs) := fun us => by
  rw [List.append_assoc]
  exact h (zs ++ us)

theorem Doomed.never (hd : Doomed pos ys) (h : Moves2 (Pos.start prop) xs pos ys)
    (zs : List UInt8) : (format2 prop (xs ++ zs)).verdict ≠ .mark := by
  rcases hd zs with hs | hs
  · rw [Moves2.more (h.append zs) hs]
    simp
  · rw [Moves2.reject (h.append zs) hs]
    simp

end

section
variable {prop : LzmaProps} {base : List UInt8} {c c' : Config} {s : RefState}
  {target pack top : ℕ} {X Z ys : List UInt8}

/-- Once all output is written only the end of the chunk is left. -/
theorem packedStep_full (hl : c.hist.length = target) (xs : List UInt8) :
    packedStep prop base c target pack xs = if pack = 0 then
      if c.coder.code = 0 then .next (.chunk ⟨prop, 0, base, Config.state c⟩) xs else .reject
    else if pack ≤ xs.length then .reject else .more := by
  unfold packedStep
  rw [if_neg (by omega), if_neg (by omega)]

/-- All output written but no zero code: the chunk could only end with a marker. -/
theorem Doomed.of_code (hl : s.hist.length = target) (hc : s.coder.code ≠ 0) :
    Doomed (.packed prop base (.body s) target pack) ys := by
  intro zs
  rw [Pos.step, packedStep_full (c := .body s) hl]
  by_cases hp : pack = 0
  · rw [if_pos hp]
    exact .inr (if_neg hc)
  · rw [if_neg hp]
    split
    · exact .inr rfl
    · exact .inl rfl

theorem Doomed.of_long (h : target < c.hist.length) :
    Doomed (.packed prop base c target pack) ys := fun zs => .inr (packedStep_long h (ys ++ zs))

/-- Packed bytes left over when all output is written. -/
theorem Doomed.of_left (hl : c.hist.length = target) (hp : 0 < pack) :
    Doomed (.packed prop base c target pack) ys := by
  intro zs
  rw [Pos.step, packedStep_full hl, if_neg (by omega)]
  split
  · exact .inr rfl
  · exact .inl rfl

/-- A symbol that is wrong, or an end mark, among the packed bytes. -/
theorem Doomed.of_symbol (hlt : c.hist.length < target) (hle : ys.length ≤ pack)
    (h1 : c.step prop ys ≠ .more) (h2 : ∀ c' zs, c.step prop ys ≠ .next c' zs) :
    Doomed (.packed prop base c target pack) ys := by
  refine Doomed.of_reject (packedStep_stuck hlt ?_ ?_)
  · rwa [List.take_of_length_le hle]
  · rwa [List.take_of_length_le hle]

theorem packedStep_more (hle : c.hist.length ≤ target) (hs : c.step prop ys = .more)
    (hlen : ys.length < pack) : packedStep prop base c target pack ys = .more := by
  by_cases hlt : c.hist.length < target
  · unfold packedStep
    rw [if_pos hlt, List.take_of_length_le hlen.le, hs]
    exact if_neg (by omega)
  · rw [packedStep_full (by omega), if_neg (by omega), if_neg (by omega)]

/-- The packed bytes end inside a symbol, or without a zero code. -/
theorem Doomed.of_short (hle : c.hist.length ≤ target) (hs : c.step prop ys = .more)
    (hlen : ys.length = pack) (hcode : c.hist.length = target → c.coder.code ≠ 0) :
    Doomed (.packed prop base c target pack) ys := by
  by_cases hlt : c.hist.length < target
  · refine Doomed.of_reject (packedStep_short hlt ?_ hlen.ge)
    rwa [List.take_of_length_le hlen.le]
  · apply Doomed.of_reject
    rw [Pos.step, packedStep_full (by omega)]
    by_cases hp : pack = 0
    · rw [if_pos hp, if_neg (hcode (by omega))]
    · rw [if_neg hp, if_pos hlen.ge]

/-- What the LZMA decoder does within the unpacked size the grammar does too, unless
the decoder goes past it. -/
theorem Within.packed (base more : List UInt8) (k : ℕ) (h : Within prop top c X c' Z)
    (hc : c.Ok prop) (htop : top ≤ target) (hhead : ∀ s, c = .header s → s.hist.length < target) :
    Moves2 (.packed prop base c target (X.length + k)) (X ++ more)
      (.packed prop base c' target (Z.length + k)) (Z ++ more) ∨
    top = target ∧ target < c'.hist.length ∧ ∃ pos ys,
      Moves2 (.packed prop base c target (X.length + k)) (X ++ more) pos ys ∧ Doomed pos ys := by
  induction h with
  | refl => exact .inl (.refl _ _)
  | @step c c₁ c₂ X Y Z hopen hs hm ih =>
      obtain ⟨us, rfl, hu⟩ := Config.step_split hs
      have hc₁ := (Config.step_next hc hs).1
      by_cases hlt : c.hist.length < target
      · have hone : packedStep prop base c target ((us ++ Y).length + k) (us ++ (Y ++ more)) = _ :=
          packedStep_symbol hlt (by rw [List.length_append]; omega) hu (Y ++ more)
        rw [List.length_append, show us.length + Y.length + k - us.length = Y.length + k by omega,
          ← List.length_append, ← List.append_assoc] at hone
        have hbody : ∀ s, c₁ = .header s → s.hist.length < target := by
          rintro s rfl
          cases c with
          | header s' => simpa using Config.step_header hs
          | body s' => exact absurd hs (s'.step_ne_header s)
        apply (ih hc₁ hbody).imp (.step trivial hone)
        rintro ⟨htt, hlong, pos, ys, hm, hd⟩
        exact ⟨htt, hlong, pos, ys, .step trivial hone hm, hd⟩
      · cases c with
        | header s => exact absurd (hhead s rfl) hlt
        | body s =>
            obtain ⟨hl, hcode⟩ := hopen.resolve_left fun hlt' => hlt (lt_of_lt_of_le hlt' htop)
            have hge : ¬ s.hist.length < target := hlt
            obtain ⟨s', rfl, -, -, hgrow, -⟩ := RefState.step_next hc hs
            have hsuf := (Moves.suffix (Within.moves hm) hc₁).length_le
            have hlong : s'.hist.length ≤ c₂.hist.length := hsuf
            exact .inr ⟨by omega, by omega, _, _, .refl _ _,
              .of_code (show s.hist.length = target by omega) hcode⟩

end
end LzmaTurbo.Lzma2
