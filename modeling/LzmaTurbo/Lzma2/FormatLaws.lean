import LzmaTurbo.Lzma2.Format

/-!
# The grammar is a stream machine

A step of the grammar decides on the bytes it consumes; a run of it therefore
does not depend on how the stream is cut.
-/
namespace LzmaTurbo.Lzma2
open Lzma StreamMachine

/-- A chunk that keeps the decoder's state has a state to keep. -/
structure Ref2.Ok (r : Ref2) : Prop where
  kept : r.need = 0 → r.s.Base r.prop ∧ r.s.hist ≠ []
  need : r.need = 0 ∨ 0xC0 ≤ r.need

def Pos.Ok : Pos → Prop
  | .chunk r => r.Ok
  | .stored r _ => r.Ok
  | .packed prop _ c target _ => c.Ok prop ∧ 0 < target

variable {r : Ref2} {xs ys : List UInt8} {pos pos' : Pos}

theorem Ref2.Ok.push (h : r.Ok) (b : UInt8) : (r.push b).Ok := by
  refine ⟨fun hn => ?_, h.need⟩
  obtain ⟨hb, -⟩ := h.kept hn
  exact ⟨⟨hb.probs_ge, hb.probs_le, hb.state_lt, hb.reps.mono (Nat.le_succ _)⟩,
    List.cons_ne_nil _ _⟩

theorem Ref2.Ok.openStored (h : r.Ok) (control size : ℕ) : (r.openStored control size).Ok := by
  unfold Ref2.openStored
  split
  · exact ⟨fun hn => absurd hn (by decide : (0xC0 : ℕ) ≠ 0), .inr le_rfl⟩
  · exact h

/-- A packed chunk without a state reset finds the state of an earlier one. -/
theorem Ref2.Ok.openPacked (h : r.Ok) (prop : LzmaProps) {control unpack pack : ℕ}
    (hc : r.need ≤ control) (hu : 0 < unpack) (hp : control < 0xC0 → prop = r.prop) :
    (({ r with prop } : Ref2).openPacked control unpack pack).Ok := by
  unfold Ref2.openPacked
  refine ⟨?_, by omega⟩
  by_cases hs : 0xA0 ≤ control
  · rw [if_pos hs]
    exact freshState_base _
  · have hneed : r.need = 0 := by
      rcases h.need with hn | hn <;> omega
    rw [if_neg hs, if_neg (show ¬ 0xE0 ≤ control by omega), hp (by omega)]
    exact (h.kept hneed).1

section
variable {b u1 u0 p1 p0 d : UInt8}

theorem chunkStep_stored (hb : b = 1 ∨ b = 2 ∧ r.need ≠ 0xE0) (ys : List UInt8) :
    chunkStep r (b :: u1 :: u0 :: ys) = .next (r.openStored b.toNat (be16 u1 u0 + 1)) ys := by
  have h0 : b ≠ 0 := by rcases hb with rfl | ⟨rfl, -⟩ <;> decide
  have h1 : b < 0x80 := by rcases hb with rfl | ⟨rfl, -⟩ <;> decide
  simp only [chunkStep, if_neg h0, if_pos h1, if_pos hb]

theorem chunkStep_packed (h1 : ¬ b < 0x80) (hn : ¬ b.toNat < r.need) (h2 : b < 0xC0)
    (ys : List UInt8) : chunkStep r (b :: u1 :: u0 :: p1 :: p0 :: ys) =
      .next (r.openPacked b.toNat (b.toNat % 32 * 2 ^ 16 + be16 u1 u0 + 1) (be16 p1 p0 + 1)) ys := by
  have h0 : b ≠ 0 := fun h => h1 (by rw [h]; decide)
  simp only [chunkStep, if_neg h0, if_neg h1, if_neg hn, if_pos h2]

theorem chunkStep_props {prop : LzmaProps} (h1 : ¬ b < 0x80) (hn : ¬ b.toNat < r.need)
    (h2 : ¬ b < 0xC0) (hd : chunkProps d.toNat r.prop = some prop) (ys : List UInt8) :
    chunkStep r (b :: u1 :: u0 :: p1 :: p0 :: d :: ys) =
      .next ({ r with prop }.openPacked b.toNat (b.toNat % 32 * 2 ^ 16 + be16 u1 u0 + 1)
        (be16 p1 p0 + 1)) ys := by
  have h0 : b ≠ 0 := fun h => h1 (by rw [h]; decide)
  simp only [chunkStep, if_neg h0, if_neg h1, if_neg hn, if_neg h2, hd]

/-- A header that is all there opens a chunk of one of three forms. -/
theorem chunkStep_cases (h : chunkStep r xs = .next pos' ys) :
    (∃ b u1 u0, xs = b :: u1 :: u0 :: ys ∧ (b = 1 ∨ b = 2 ∧ r.need ≠ 0xE0) ∧
      pos' = r.openStored b.toNat (be16 u1 u0 + 1)) ∨
    (∃ b u1 u0 p1 p0, xs = b :: u1 :: u0 :: p1 :: p0 :: ys ∧ ¬ b < 0x80 ∧ ¬ b.toNat < r.need ∧
      b < 0xC0 ∧ pos' = r.openPacked b.toNat (b.toNat % 32 * 2 ^ 16 + be16 u1 u0 + 1)
        (be16 p1 p0 + 1)) ∨
    ∃ b u1 u0 p1 p0 d prop, xs = b :: u1 :: u0 :: p1 :: p0 :: d :: ys ∧ ¬ b < 0x80 ∧
      ¬ b.toNat < r.need ∧ ¬ b < 0xC0 ∧ chunkProps d.toNat r.prop = some prop ∧
      pos' = { r with prop }.openPacked b.toNat (b.toNat % 32 * 2 ^ 16 + be16 u1 u0 + 1)
        (be16 p1 p0 + 1) := by
  rcases xs with _ | ⟨b, xs⟩
  · cases h
  simp only [chunkStep] at h
  by_cases h0 : b = 0
  · rw [if_pos h0] at h
    cases h
  rw [if_neg h0] at h
  by_cases h1 : b < 0x80
  · rw [if_pos h1] at h
    by_cases hb : b = 1 ∨ b = 2 ∧ r.need ≠ 0xE0
    · rw [if_pos hb] at h
      rcases xs with _ | ⟨u1, _ | ⟨u0, rest⟩⟩
      · cases h
      · cases h
      · cases h
        exact .inl ⟨b, u1, u0, rfl, hb, rfl⟩
    · rw [if_neg hb] at h
      cases h
  rw [if_neg h1] at h
  by_cases hn : b.toNat < r.need
  · rw [if_pos hn] at h
    cases h
  rw [if_neg hn] at h
  rcases xs with _ | ⟨u1, _ | ⟨u0, _ | ⟨p1, _ | ⟨p0, rest⟩⟩⟩⟩
  · cases h
  · cases h
  · cases h
  · cases h
  simp only at h
  by_cases h2 : b < 0xC0
  · rw [if_pos h2] at h
    cases h
    exact .inr (.inl ⟨b, u1, u0, p1, p0, rfl, h1, hn, h2, rfl⟩)
  · rw [if_neg h2] at h
    rcases rest with _ | ⟨d, rest⟩
    · cases h
    simp only at h
    cases hd : chunkProps d.toNat r.prop with
    | none => simp [hd] at h
    | some prop =>
        simp only [hd, Step.next.injEq] at h
        obtain ⟨rfl, rfl⟩ := h
        exact .inr (.inr ⟨b, u1, u0, p1, p0, d, prop, rfl, h1, hn, h2, hd, rfl⟩)

end

theorem chunkStep_append (zs : List UInt8) (h : chunkStep r xs ≠ .more) :
    chunkStep r (xs ++ zs) = (chunkStep r xs).append zs := by
  rcases xs with _ | ⟨b, _ | ⟨u1, _ | ⟨u0, _ | ⟨p1, _ | ⟨p0, _ | ⟨d, rest⟩⟩⟩⟩⟩⟩
  · exact absurd rfl h
  all_goals
    simp only [chunkStep, List.nil_append, List.cons_append] at h ⊢
    split_ifs at h ⊢
  all_goals try rfl
  all_goals try exact absurd rfl h
  cases chunkProps d.toNat r.prop <;> rfl

theorem chunkStep_split (h : chunkStep r xs = .next pos' ys) :
    ∃ us, xs = us ++ ys ∧ chunkStep r us = .next pos' [] := by
  obtain ⟨b, u1, u0, rfl, hb, rfl⟩ | ⟨b, u1, u0, p1, p0, rfl, h1, hn, h2, rfl⟩ |
    ⟨b, u1, u0, p1, p0, d, prop, rfl, h1, hn, h2, hd, rfl⟩ := chunkStep_cases h
  · exact ⟨[b, u1, u0], rfl, chunkStep_stored hb []⟩
  · exact ⟨[b, u1, u0, p1, p0], rfl, chunkStep_packed h1 hn h2 []⟩
  · exact ⟨[b, u1, u0, p1, p0, d], rfl, chunkStep_props h1 hn h2 hd []⟩

theorem Ref2.openPacked_measure (r : Ref2) (control unpack pack : ℕ) (xs : List UInt8) :
    (r.openPacked control unpack pack).measure xs = xs.length * (2 ^ 32 + 2) + 1 := by
  simp only [Ref2.openPacked, Pos.measure]

theorem Ref2.openStored_measure (r : Ref2) (control size : ℕ) (xs : List UInt8) :
    (r.openStored control size).measure xs = xs.length * (2 ^ 32 + 2) := by
  unfold Ref2.openStored
  split <;> simp only [Pos.measure, Nat.add_zero]

theorem chunkStep_next (hr : r.Ok) (h : chunkStep r xs = .next pos' ys) :
    pos'.Ok ∧ pos'.measure ys < (Pos.chunk r).measure xs := by
  have hchunk : (Pos.chunk r).measure xs = xs.length * (2 ^ 32 + 2) := by
    simp only [Pos.measure, Nat.add_zero]
  rw [hchunk]
  obtain ⟨b, u1, u0, rfl, hb, rfl⟩ | ⟨b, u1, u0, p1, p0, rfl, h1, hn, h2, rfl⟩ |
    ⟨b, u1, u0, p1, p0, d, prop, rfl, h1, hn, h2, hd, rfl⟩ := chunkStep_cases h
  · refine ⟨hr.openStored _ _, ?_⟩
    rw [Ref2.openStored_measure]
    simp only [List.length_cons]
    omega
  · refine ⟨hr.openPacked r.prop (not_lt.mp hn) (Nat.succ_pos _) (fun _ => rfl), ?_⟩
    rw [Ref2.openPacked_measure]
    simp only [List.length_cons]
    omega
  · refine ⟨hr.openPacked prop (not_lt.mp hn) (Nat.succ_pos _) (fun hc => absurd hc ?_), ?_⟩
    · rwa [UInt8.lt_iff_toNat_lt] at h2
    · rw [Ref2.openPacked_measure]
      simp only [List.length_cons]
      omega

theorem storedStep_append {n : ℕ} (zs : List UInt8) (h : storedStep r n xs ≠ .more) :
    storedStep r n (xs ++ zs) = (storedStep r n xs).append zs := by
  rcases xs with _ | ⟨b, rest⟩
  · exact absurd rfl h
  · simp only [storedStep, List.cons_append]
    split <;> rfl

theorem storedStep_split {n : ℕ} (h : storedStep r n xs = .next pos' ys) :
    ∃ us, xs = us ++ ys ∧ storedStep r n us = .next pos' [] := by
  rcases xs with _ | ⟨b, rest⟩
  · cases h
  · refine ⟨[b], ?_, ?_⟩ <;>
      · simp only [storedStep] at h ⊢
        split_ifs at h ⊢ <;> cases h <;> rfl

theorem storedStep_next {n : ℕ} (hr : r.Ok) (h : storedStep r n xs = .next pos' ys) :
    pos'.Ok ∧ pos'.measure ys < (Pos.stored r n).measure xs := by
  rcases xs with _ | ⟨b, rest⟩
  · cases h
  · simp only [storedStep] at h
    split at h <;> cases h
    · exact ⟨hr.push b, by simp only [Pos.measure, List.length_cons]; omega⟩
    · exact ⟨hr.push b, by simp only [Pos.measure, List.length_cons]; omega⟩

section
variable {prop : LzmaProps} {base : List UInt8} {c : Config} {target pack : ℕ}

/-- A symbol of a packed chunk, or its end. -/
theorem packedStep_cases (h : packedStep prop base c target pack xs = .next pos' ys) :
    (∃ c' us zs, c.hist.length < target ∧ xs = us ++ ys ∧ us.length ≤ pack ∧
      xs.take pack = us ++ zs ∧ c.step prop us = .next c' [] ∧
      pos' = .packed prop base c' target (pack - us.length)) ∨
    (c.hist.length = target ∧ pack = 0 ∧ c.coder.code = 0 ∧ ys = xs ∧
      pos' = .chunk ⟨prop, 0, base, Config.state c⟩) := by
  unfold packedStep at h
  by_cases hlt : c.hist.length < target
  · rw [if_pos hlt] at h
    cases hs : c.step prop (xs.take pack) with
    | next c' zs =>
        simp only [hs, Step.next.injEq] at h
        obtain ⟨rfl, rfl⟩ := h
        obtain ⟨us, hus, hu⟩ := Config.step_split hs
        have hlen : (xs.take pack).length - zs.length = us.length := by
          rw [hus, List.length_append]
          omega
        have hle := congrArg List.length hus
        rw [List.length_take, List.length_append] at hle
        rw [hlen]
        refine .inl ⟨c', us, zs, hlt, ?_, by omega, hus, hu, rfl⟩
        have htake : xs.take us.length = us := by
          have := congrArg (List.take us.length) hus
          rwa [List.take_take, min_eq_left (by omega), List.take_left] at this
        conv_lhs => rw [← List.take_append_drop us.length xs, htake]
    | more =>
        simp only [hs] at h
        split at h <;> cases h
    | reject => simp [hs] at h
    | mark s rest => simp [hs] at h
  · rw [if_neg hlt] at h
    by_cases hgt : target < c.hist.length
    · rw [if_pos hgt] at h
      cases h
    · rw [if_neg hgt] at h
      by_cases hp : pack = 0
      · rw [if_pos hp] at h
        by_cases hc : c.coder.code = 0
        · rw [if_pos hc, Step.next.injEq] at h
          exact .inr ⟨by omega, hp, hc, h.2.symm, h.1.symm⟩
        · rw [if_neg hc] at h
          cases h
      · rw [if_neg hp] at h
        split at h <;> cases h

theorem packedStep_symbol {c' : Config} {us : List UInt8} (hlt : c.hist.length < target)
    (hu : us.length ≤ pack) (hs : c.step prop us = .next c' []) (ys : List UInt8) :
    packedStep prop base c target pack (us ++ ys) =
      .next (.packed prop base c' target (pack - us.length)) ys := by
  have htake : (us ++ ys).take pack = us ++ ys.take (pack - us.length) := by
    rw [List.take_append, List.take_of_length_le hu]
  have hstep : c.step prop ((us ++ ys).take pack) = .next c' (ys.take (pack - us.length)) := by
    rw [htake, Config.step_append _ (by rw [hs]; simp), hs]
    rfl
  unfold packedStep
  rw [if_pos hlt, hstep]
  simp only [htake, List.length_append, Nat.add_sub_cancel_right, List.drop_left]

theorem packedStep_end (hl : c.hist.length = target) (hc : c.coder.code = 0) (xs : List UInt8) :
    packedStep prop base c target 0 xs = .next (.chunk ⟨prop, 0, base, Config.state c⟩) xs := by
  unfold packedStep
  rw [if_neg (by omega), if_neg (by omega), if_pos rfl, if_pos hc]

theorem packedStep_split (h : packedStep prop base c target pack xs = .next pos' ys) :
    ∃ us, xs = us ++ ys ∧ packedStep prop base c target pack us = .next pos' [] := by
  obtain ⟨c', us, zs, hlt, rfl, hu, -, hs, rfl⟩ | ⟨hl, rfl, hc, rfl, rfl⟩ := packedStep_cases h
  · exact ⟨us, rfl, by simpa using packedStep_symbol hlt hu hs []⟩
  · exact ⟨[], rfl, packedStep_end hl hc []⟩

/-- A packed chunk has no end mark. -/
theorem packedStep_mark (u : Unit) (rest : List UInt8) :
    packedStep prop base c target pack xs ≠ .mark u rest := by
  unfold packedStep
  intro h
  split at h
  · split at h
    · split at h <;> cases h
    · cases h
    · cases h
  · split at h
    · cases h
    · split at h
      · split at h <;> cases h
      · split at h <;> cases h

/-- Why a packed chunk is rejected. -/
theorem packedStep_reject (h : packedStep prop base c target pack xs = .reject) :
    (c.hist.length < target ∧ c.step prop (xs.take pack) ≠ .more ∧
      ∀ c' ys, c.step prop (xs.take pack) ≠ .next c' ys) ∨
    (c.hist.length < target ∧ c.step prop (xs.take pack) = .more ∧ pack ≤ xs.length) ∨
    target < c.hist.length ∨
    (c.hist.length = target ∧ pack = 0 ∧ c.coder.code ≠ 0) ∨
    (c.hist.length = target ∧ 0 < pack ∧ pack ≤ xs.length) := by
  unfold packedStep at h
  by_cases hlt : c.hist.length < target
  · rw [if_pos hlt] at h
    cases hs : c.step prop (xs.take pack) with
    | next c' zs => simp [hs] at h
    | more =>
        simp only [hs] at h
        split at h
        · exact .inr (.inl ⟨hlt, rfl, ‹_›⟩)
        · cases h
    | reject => exact .inl ⟨hlt, by simp, by simp⟩
    | mark s rest => exact .inl ⟨hlt, by simp, by simp⟩
  · rw [if_neg hlt] at h
    by_cases hgt : target < c.hist.length
    · exact .inr (.inr (.inl hgt))
    · rw [if_neg hgt] at h
      by_cases hp : pack = 0
      · rw [if_pos hp] at h
        split at h
        · cases h
        · exact .inr (.inr (.inr (.inl ⟨by omega, hp, ‹_›⟩)))
      · rw [if_neg hp] at h
        split at h
        · exact .inr (.inr (.inr (.inr ⟨by omega, by omega, ‹_›⟩)))
        · cases h

theorem packedStep_stuck (hlt : c.hist.length < target) (h1 : c.step prop (xs.take pack) ≠ .more)
    (h2 : ∀ c' ys, c.step prop (xs.take pack) ≠ .next c' ys) :
    packedStep prop base c target pack xs = .reject := by
  unfold packedStep
  rw [if_pos hlt]
  cases hs : c.step prop (xs.take pack) with
  | more => exact absurd hs h1
  | next c' ys => exact absurd hs (h2 c' ys)
  | reject => rfl
  | mark s rest => rfl

theorem packedStep_short (hlt : c.hist.length < target)
    (hs : c.step prop (xs.take pack) = .more) (hp : pack ≤ xs.length) :
    packedStep prop base c target pack xs = .reject := by
  unfold packedStep
  rw [if_pos hlt]
  simp only [hs]
  rw [if_pos hp]

theorem packedStep_long (hgt : target < c.hist.length) (xs : List UInt8) :
    packedStep prop base c target pack xs = .reject := by
  unfold packedStep
  rw [if_neg (by omega), if_pos hgt]

theorem packedStep_code (hl : c.hist.length = target) (hc : c.coder.code ≠ 0) (xs : List UInt8) :
    packedStep prop base c target 0 xs = .reject := by
  unfold packedStep
  rw [if_neg (by omega), if_neg (by omega), if_pos rfl, if_neg hc]

theorem packedStep_left (hl : c.hist.length = target) (h0 : 0 < pack) (hp : pack ≤ xs.length) :
    packedStep prop base c target pack xs = .reject := by
  unfold packedStep
  rw [if_neg (by omega), if_neg (by omega), if_neg (by omega), if_pos hp]

theorem packedStep_append (zs : List UInt8)
    (h : packedStep prop base c target pack xs ≠ .more) :
    packedStep prop base c target pack (xs ++ zs) =
      (packedStep prop base c target pack xs).append zs := by
  cases hs : packedStep prop base c target pack xs with
  | more => exact absurd hs h
  | mark r rest => exact absurd hs (packedStep_mark _ _)
  | next pos' ys =>
      obtain ⟨c', us, zs', hlt, rfl, hu, -, hstep, rfl⟩ | ⟨hl, rfl, hc, rfl, rfl⟩ :=
        packedStep_cases hs
      · rw [List.append_assoc]
        exact packedStep_symbol hlt hu hstep _
      · exact packedStep_end hl hc _
  | reject =>
      obtain ⟨hlt, h1, h2⟩ | ⟨hlt, hmore, hp⟩ | hgt | ⟨hl, rfl, hc⟩ | ⟨hl, h0, hp⟩ :=
        packedStep_reject hs
      · have htake : (xs ++ zs).take pack =
            xs.take pack ++ zs.take (pack - xs.length) := List.take_append
        have happ := Config.step_append (zs.take (pack - xs.length)) h1
        rw [← htake] at happ
        refine packedStep_stuck hlt (fun hm => ?_) fun c' ys hm => ?_
        · rw [happ] at hm
          cases hs' : c.step prop (xs.take pack) <;> simp_all [Step.append]
        · rw [happ] at hm
          cases hs' : c.step prop (xs.take pack) <;> simp_all [Step.append]
      · refine packedStep_short hlt ?_ (by rw [List.length_append]; omega)
        rw [List.take_append_of_le_length hp, hmore]
      · exact packedStep_long hgt _
      · exact packedStep_code hl hc _
      · exact packedStep_left hl h0 (by rw [List.length_append]; omega)

theorem packedStep_next (hc : c.Ok prop) (ht : 0 < target)
    (h : packedStep prop base c target pack xs = .next pos' ys) :
    pos'.Ok ∧ pos'.measure ys < (Pos.packed prop base c target pack).measure xs := by
  obtain ⟨c', us, zs, hlt, rfl, hu, -, hs, rfl⟩ | ⟨hl, rfl, hcode, rfl, rfl⟩ :=
    packedStep_cases h
  · obtain ⟨hc', -, -⟩ := Config.step_next hc hs
    refine ⟨⟨hc', ht⟩, ?_⟩
    cases c with
    | header s =>
        obtain ⟨b1, b2, b3, b4, rfl, rfl⟩ := Config.step_header hs
        simp only [Pos.measure, RefState.start, List.length_append, List.length_cons,
          List.length_nil]
        omega
    | body s =>
        obtain ⟨s', rfl, hs', -, -, hp⟩ := RefState.step_next hc hs
        have hr := hs'.good.range_lt
        simp only [Pos.measure, List.length_append]
        rcases hp with hp | ⟨hnil, hp⟩
        · simp only [List.length_nil] at hp
          omega
        · rw [← hnil, List.length_nil]
          omega
  · have hb : (Config.state c).Base prop := by
      cases c with
      | header s => exact hc
      | body s => exact hc.toBase
    have hh : (Config.state c).hist = c.hist := by cases c <;> rfl
    refine ⟨⟨fun _ => ⟨hb, fun hn => ?_⟩, .inl rfl⟩, ?_⟩
    · have hn' : (Config.state c).hist = [] := hn
      rw [hh] at hn'
      rw [hn', List.length_nil] at hl
      omega
    · cases c <;> simp only [Pos.measure] <;> omega

end

end LzmaTurbo.Lzma2
