import LzmaTurbo.Filters.Bcj2DecRuns

/-!
# Calls of the BCJ2 decoder
-/
namespace LzmaTurbo.Filters.Bcj2Dec
open Supplies

/-- The five bytes the range coder starts with, one by one. -/
theorem prime_steps (rc : List UInt8) (d : Bcj2Dec) (s : Bcj2DecStreams) (hrange : d.range ≤ 5) :
    machine.Steps (⟨.prime, d.temp, d.bare⟩, { s with rc })
        (⟨.prime, d.temp, (primeLoop d rc).2.1.bare⟩, { s with rc := (primeLoop d rc).2.2 }) ∧
      (primeLoop d rc).2.1.range ≤ 5 ∧ (primeLoop d rc).2.1.temp = d.temp ∧
      (primeLoop d rc).2.1.state = d.state ∧ (primeLoop d rc).2.1.probs = d.probs ∧
      match (primeLoop d rc).1 with
      | .ready => (primeLoop d rc).2.1.range = 5
      | .bad => (primeLoop d rc).2.1.range = 1 ∧ (primeLoop d rc).2.1.code ≠ 0
      | .starved => (primeLoop d rc).2.2 = [] ∧ (primeLoop d rc).2.1.range ≠ 5 ∧
          ¬((primeLoop d rc).2.1.range = 1 ∧ (primeLoop d rc).2.1.code ≠ 0) := by
  fun_induction primeLoop d rc with
  | case1 d h5 => exact ⟨.refl, hrange, rfl, rfl, rfl, h5⟩
  | case2 d h5 hbad => exact ⟨.refl, hrange, rfl, rfl, rfl, hbad⟩
  | case3 d h5 hbad => exact ⟨.refl, hrange, rfl, rfl, rfl, rfl, h5, hbad⟩
  | case4 d b rc h5 => exact ⟨.refl, hrange, rfl, rfl, rfl, h5⟩
  | case5 d b rc h5 hbad => exact ⟨.refl, hrange, rfl, rfl, rfl, hbad⟩
  | case6 d b rc h5 hbad ih =>
      obtain ⟨hsteps, hrest⟩ := ih (by show d.range + 1 ≤ 5; omega)
      refine ⟨.head ?_ hsteps, hrest⟩
      change primeStep _ _ = _
      have hnot : ¬Micro.bad ⟨.prime, d.temp, d.bare⟩ := by
        rintro ⟨-, h | h⟩
        · exact hbad h
        · exact h5 h.1
      have h5' : ¬d.bare.range = 5 := h5
      simp only [primeStep, hnot, h5', if_false]
      rfl

/-- A call on whole words goes on until the machine is blocked, and fails exactly if the
range coder's start is malformed. -/
theorem decode_stops {d : Bcj2Dec} {s t : Bcj2DecStreams} {m : Micro} (h : Stands d s m t)
    (hgood : Good m) (haligned : s.Aligned) :
    ∃ m' t', machine.Stops (m, t) (m', t') ∧
      Stands (decodeChecked d s).2.1 (decodeChecked d s).2.2 m' t' ∧ Good m' ∧
      (decodeChecked d s).1 = (if m'.bad then .error .data else .ok ()) ∧
      (¬m'.bad → (decodeChecked d s).2.1.requiredInput = wants m' t') := by
  have hended {d' : Bcj2Dec} {s' : Bcj2DecStreams}
      (hturned : Turned (m, t) (.stop d' s')) :
      ∃ m' t', machine.Stops (m, t) (m', t') ∧ Stands d' s' m' t' ∧ Good m' ∧
        (.ok () : Except Bcj2Error Unit) = (if m'.bad then .error .data else .ok ()) ∧
        (¬m'.bad → d'.requiredInput = wants m' t') := by
    obtain ⟨m', t', hstop, hstands, hgood', hphase, hwants⟩ := hturned
    exact ⟨m', t', hstop, hstands, hgood', (if_neg fun hbad => hphase hbad.1).symm,
      fun _ => hwants⟩
  unfold decodeChecked decodeWith
  rw [if_neg (not_not.2 haligned)]
  split
  next hrange =>
    have habs (d : Bcj2Dec) (hd : d.range ≤ 5) : abs d = ⟨.prime, d.temp, d.bare⟩ := if_pos hd
    obtain ⟨rfl, rfl⟩ : m = abs d ∧ t = s := by
      rcases h.split.2.2 with hmid | hsame
      · rw [h.split.1, habs d hrange] at hmid
        cases hmid
      · exact hsame
    rw [habs d hrange] at hgood hended ⊢
    obtain ⟨hsteps, hle, htemp, hstate, hprobs, hend⟩ :=
      prime_steps t.rc { d with state := decStateError } t hrange
    have hgood' (core : Bcj2Dec) (hcore : core.probs = d.probs) :
        Good ⟨.prime, d.temp, core⟩ :=
      ⟨fun i => by show 31 ≤ core.probs i ∧ _; exact hcore ▸ hgood.probs i,
        fun h => absurd rfl h, fun h => by cases h⟩
    split
    next d' rc hprime =>
      rw [hprime] at hsteps hle htemp hprobs hend
      have hbad : Micro.bad ⟨.prime, d.temp, d'.bare⟩ := ⟨rfl, .inl hend⟩
      refine ⟨_, _, ⟨hsteps, ?_⟩, ?_, hgood' _ hprobs, (if_pos hbad).symm,
        fun h => absurd hbad h⟩
      · change primeStep _ _ = none
        simp only [primeStep, hbad, if_true]
      · have hsame := Stands.same d' { t with rc }
        rw [habs d' hle, htemp] at hsame
        exact hsame
    next d' rc hprime =>
      rw [hprime] at hsteps hle htemp hprobs hend
      obtain ⟨hrc, h5, h1⟩ := hend
      have hbad : ¬Micro.bad ⟨.prime, d.temp, d'.bare⟩ := by
        rintro ⟨-, hb | hb⟩
        · exact h1 hb
        · exact h5 hb.1
      refine ⟨_, _, ⟨hsteps, ?_⟩, ?_, hgood' _ hprobs, (if_neg hbad).symm,
        fun _ => rfl⟩
      · change primeStep _ _ = none
        have h5' : ¬d'.bare.range = 5 := h5
        have hrc' : rc = [] := hrc
        simp only [primeStep, hbad, h5', if_false, hrc']
      · have htemp' : d'.temp = d.temp := htemp
        have heq : abs { d' with state := streamRc } = ⟨.prime, d.temp, d'.bare⟩ := by
          rw [habs { d' with state := streamRc } hle, ← htemp']
          rfl
        exact heq ▸ Stands.same _ _
    next d' rc hprime =>
      rw [hprime] at hsteps hle htemp hstate hprobs hend
      split
      next hcode =>
        have hbad : Micro.bad ⟨.prime, d.temp, d'.bare⟩ := ⟨rfl, .inr ⟨hend, hcode⟩⟩
        refine ⟨_, _, ⟨hsteps, ?_⟩, ?_, hgood' _ hprobs, (if_pos hbad).symm,
        fun h => absurd hbad h⟩
        · change primeStep _ _ = none
          simp only [primeStep, hbad, if_true]
        · have hsame := Stands.same d' { t with rc }
          rw [habs d' hle, htemp] at hsame
          exact hsame
      next hcode =>
        have hbad : ¬Micro.bad ⟨.prime, d.temp, d'.bare⟩ := by
          rintro ⟨-, hb | hb⟩
          · have h1 : d'.range = 1 := hb.1
            have h5 : d'.range = 5 := hend
            omega
          · exact hcode hb.2
        have hready : machine.Steps (⟨.prime, d.temp, d'.bare⟩, { t with rc })
            (⟨.top, d.temp, { d' with range := 0xFFFFFFFF }.bare⟩, { t with rc }) := by
          refine .one ?_
          show primeStep _ _ = _
          have h5' : d'.bare.range = 5 := hend
          simp only [primeStep, hbad, h5', if_false, if_true]
          rfl
        have hloop := mainLoop_stands (d := { d' with range := 0xFFFFFFFF }) d.temp { t with rc }
          ⟨fun i => by show 31 ≤ d'.probs i ∧ _; exact hprobs ▸ hgood.probs i,
            fun _ => by show 0x10000 ≤ 0xFFFFFFFF; decide, fun h => by cases h⟩
        have hresume : resume copyMainScan { d' with range := 0xFFFFFFFF } { t with rc } =
            mainLoop copyMainScan { d' with range := 0xFFFFFFFF } d.temp { t with rc } := by
          have hd' : d'.state = decStateError := hstate
          have ht' : d'.temp = d.temp := htemp
          unfold resume
          simp only [hd', ht']
          rfl
        rw [hresume]
        exact hended (Turned.from (hsteps.trans hready) hloop)
  next hrange =>
    exact hended (resume_turned h hgood (Nat.not_le.1 hrange))

/-- What a blocked decoder asks for is used up. -/
theorem wants_exhausted {d : Bcj2Dec} {s t : Bcj2DecStreams} {m : Micro} (h : Stands d s m t)
    (hblocked : machine.Blocked (m, t)) (hbad : ¬m.bad) (haligned : s.Aligned) :
    (∀ i, wants m t = some i → streamOf s i = []) ∧ (wants m t = none → s.room = 0) := by
  obtain ⟨hm, -, hmid⟩ := h.split
  obtain ⟨hmain, hcall, hjump, hroom, -⟩ := h.streams
  change microStep m t = none at hblocked
  have hexact (hnot : m.midTarget = false) : t = s := by
    rcases hmid with hmid | ⟨-, rfl⟩
    · rw [hmid] at hnot
      cases hnot
    · rfl
  cases hp : m.phase with
  | prime =>
      obtain rfl := hexact (by unfold Micro.midTarget; rw [hp])
      simp only [microStep, hp, primeStep, hbad, if_false] at hblocked
      refine ⟨fun i hi => ?_, fun hn => by simp [wants, hp] at hn⟩
      simp only [wants, hp, Option.some.injEq] at hi
      subst hi
      split at hblocked
      · cases hblocked
      · split at hblocked
        · assumption
        · cases hblocked
  | top =>
      obtain rfl := hexact (by unfold Micro.midTarget; rw [hp])
      simp only [microStep, hp, topStep] at hblocked
      refine ⟨fun i hi => ?_, fun hn => by simp [wants, hp] at hn⟩
      simp only [wants, hp, Option.some.injEq] at hi
      subst hi
      split at hblocked
      · split at hblocked
        · assumption
        · cases hblocked
      · cases hblocked
  | scan =>
      obtain rfl := hexact (by unfold Micro.midTarget; rw [hp])
      simp only [wants, hp]
      split
      next hempty =>
        refine ⟨fun i hi => ?_, fun hn => by cases hn⟩
        cases hi
        exact hempty
      next hne =>
        refine ⟨(fun i hi => by cases hi), fun _ => ?_⟩
        simp only [microStep, hp, scanStep] at hblocked
        split at hblocked
        next hempty => exact absurd hempty hne
        · split at hblocked
          · assumption
          · split at hblocked <;> cases hblocked
  | target cj =>
      have hcj : is32bitStream cj = true := by
        have hphase := (congrArg Micro.phase hm).symm.trans hp
        revert hphase
        unfold abs placed
        split_ifs with h1 h2 h3 h4 <;> intro hphase <;> cases hphase
        exact h2
      refine ⟨fun i hi => ?_, fun hn => by simp [wants, hp] at hn⟩
      simp only [wants, hp, Option.some.injEq] at hi
      subst hi
      have hside : t.side cj = s.side cj := by
        unfold Bcj2DecStreams.side
        rw [hcall, hjump]
      have hwords : (s.side cj).length % 4 = 0 := by
        unfold Bcj2DecStreams.side
        split
        · exact haligned.1
        · exact haligned.2
      simp only [microStep, hp, targetStep, hside] at hblocked
      have hempty : s.side cj = [] := by
        rcases hs : s.side cj with _ | ⟨a, _ | ⟨b, _ | ⟨c, _ | ⟨e, rest⟩⟩⟩⟩
        · rfl
        · rw [hs] at hwords; simp at hwords
        · rw [hs] at hwords; simp at hwords
        · rw [hs] at hwords; simp at hwords
        · rw [hs] at hblocked; cases hblocked
      simp only [is32bitStream, streamCall, streamJump, Bool.or_eq_true, beq_iff_eq] at hcj
      unfold streamOf
      rw [if_neg (by simp only [streamMain]; omega), if_neg (by simp only [streamRc]; omega)]
      exact hempty
  | emit left =>
      refine ⟨(fun i hi => by simp [wants, hp] at hi), fun _ => ?_⟩
      have hleft : left ≠ 0 := by
        have hphase := (congrArg Micro.phase hm).symm.trans hp
        revert hphase
        unfold abs placed
        split_ifs with h1 h2 h3 h4 <;> intro hphase <;> cases hphase
        simp only [decStateOrig, bcj2NumStreams] at h3 ⊢
        omega
      obtain ⟨n, rfl⟩ := Nat.exists_eq_succ_of_ne_zero hleft
      simp only [microStep, hp, emitStep] at hblocked
      split at hblocked
      next h0 => rw [← hroom]; exact h0
      · split at hblocked <;> cases hblocked

theorem step_aligned {m m' : Micro} {t t' : Bcj2DecStreams}
    (h : microStep m t = some (m', t')) (ht : t.Aligned) : t'.Aligned := by
  unfold microStep at h
  split at h
  · unfold primeStep at h
    split at h
    · cases h
    · split at h
      · cases h
        exact ht
      · split at h <;> cases h
        exact ht
  · unfold topStep at h
    split at h
    · split at h <;> cases h
      exact ht
    · cases h
      exact ht
  · unfold scanStep at h
    split at h
    · cases h
    · split at h
      · cases h
      · dsimp only at h
        split at h <;> cases h <;> exact ht
  next cj hp =>
    unfold targetStep at h
    split at h
    next a b c e rest hside =>
      cases h
      unfold Bcj2DecStreams.side at hside
      unfold Bcj2DecStreams.setSide
      split at hside
      next hcj =>
        have hlen := congrArg List.length hside
        simp only [List.length_cons] at hlen
        rw [if_pos hcj]
        exact ⟨by have := ht.1; show rest.length % 4 = 0; omega, ht.2⟩
      next hcj =>
        have hlen := congrArg List.length hside
        simp only [List.length_cons] at hlen
        rw [if_neg hcj]
        exact ⟨ht.1, by have := ht.2; show rest.length % 4 = 0; omega⟩
    · cases h
  next left hp =>
    cases left with
    | zero => cases h
    | succ left =>
        rw [emitStep] at h
        split at h
        · cases h
        · split at h <;> cases h <;> exact ht

theorem step_dest {m m' : Micro} {t t' : Bcj2DecStreams}
    (h : microStep m t = some (m', t')) : t.dest <+: t'.dest := by
  unfold microStep at h
  split at h
  · unfold primeStep at h
    split at h
    · cases h
    · split at h
      · cases h
        exact List.prefix_rfl
      · split at h <;> cases h
        exact List.prefix_rfl
  · unfold topStep at h
    split at h
    · split at h <;> cases h
      exact List.prefix_rfl
    · cases h
      exact List.prefix_rfl
  · unfold scanStep at h
    split at h
    · cases h
    · split at h
      · cases h
      · dsimp only at h
        split at h <;> cases h <;> exact List.prefix_append _ _
  next cj hp =>
    unfold targetStep at h
    split at h
    · cases h
      unfold Bcj2DecStreams.setSide
      split <;> exact List.prefix_rfl
    · cases h
  next left hp =>
    cases left with
    | zero => cases h
    | succ left =>
        rw [emitStep] at h
        split at h
        · cases h
        · split at h <;> cases h <;> exact List.prefix_append _ _

theorem steps_keep {a b : Micro × Bcj2DecStreams} (h : machine.Steps a b) :
    (a.2.Aligned → b.2.Aligned) ∧ a.2.dest <+: b.2.dest := by
  induction h with
  | refl => exact ⟨fun h => h, List.prefix_rfl⟩
  | tail _ hstep ih =>
      exact ⟨fun ha => step_aligned hstep (ih.1 ha), ih.2.trans (step_dest hstep)⟩

/-- What a call adds is whole words of the call and the jump stream. -/
def Refill.Aligned (e : Refill) : Prop := e.call.length % 4 = 0 ∧ e.jump.length % 4 = 0

instance (e : Refill) : Decidable e.Aligned := inferInstanceAs (Decidable (_ ∧ _))

theorem offer_aligned {s : Bcj2DecStreams} {e : Refill} (hs : s.Aligned) (he : e.Aligned) :
    (offer s e).Aligned := by
  obtain ⟨hcall, hjump⟩ := hs
  obtain ⟨hcall', hjump'⟩ := he
  constructor
  · change (s.call ++ e.call).length % 4 = 0
    rw [List.length_append]
    omega
  · change (s.jump ++ e.jump).length % 4 = 0
    rw [List.length_append]
    omega

/-- One call after another, each offered what the last one left of the streams, what is added
to them and a window of its own, up to the first error. -/
def decodeCalls (d : Bcj2Dec) (s : Bcj2DecStreams) :
    List Refill → Except Bcj2Error Unit × Bcj2Dec × Bcj2DecStreams
  | [] => (.ok (), d, s)
  | e :: es =>
      match decodeChecked d (offer s e) with
      | (.ok _, d, s) => decodeCalls d s es
      | (.error err, d, s) => (.error err, d, s)

/-- What a machine says of a decoder's last call. -/
structure Tells (m : Micro) (t : Bcj2DecStreams)
    (r : Except Bcj2Error Unit × Bcj2Dec × Bcj2DecStreams) : Prop where
  verdict : r.1 = if m.bad then .error .data else .ok ()
  dest : r.2.2.dest = t.dest
  asks : ¬m.bad → r.2.1.requiredInput = wants m t
  stands : ¬m.bad → Stands r.2.1 r.2.2 m t ∧ r.2.2.Aligned

theorem bad_stuck {m : Micro} (h : m.bad) (t : Bcj2DecStreams) : machine.Blocked (m, t) := by
  change microStep m t = none
  simp only [microStep, h.1, primeStep, h, if_true]

theorem offers_dest (es : List Refill) (t : Bcj2DecStreams) :
    (es.foldl offer t).dest = t.dest := by
  induction es generalizing t with
  | nil => rfl
  | cons e es ih => exact ih _

/-- The calls of a decoder are a run of the machine over what they are offered. -/
theorem decodeCalls_runs {es : List Refill} {d : Bcj2Dec} {s t : Bcj2DecStreams} {m : Micro}
    (h : Stands d s m t) (hgood : Good m) (hs : s.Aligned) (hes : ∀ e ∈ es, e.Aligned)
    (hne : es ≠ []) :
    ∃ m' t', Machine.Runs machine offer (m, t) es (m', t') ∧ Good m' ∧
      Tells m' t' (decodeCalls d s es) := by
  induction es generalizing d s t m with
  | nil => exact absurd rfl hne
  | cons e es ih =>
      have haligned := offer_aligned hs (hes e (List.mem_cons_self ..))
      obtain ⟨m₁, t₁, hstop, hstands, hgood₁, hverdict, hasks⟩ :=
        decode_stops (h.offer e) hgood haligned
      obtain ⟨-, hcall, hjump, -, hdest⟩ := hstands.streams
      obtain ⟨-, hcall₀, hjump₀, -, -⟩ := (h.offer e).streams
      have haligned₁ : (decodeChecked d (offer s e)).2.2.Aligned := by
        have ht : (offer t e).Aligned := by
          unfold Bcj2DecStreams.Aligned
          rw [hcall₀, hjump₀]
          exact haligned
        have ht₁ := (steps_keep hstop.1).1 ht
        unfold Bcj2DecStreams.Aligned at ht₁ ⊢
        rwa [hcall, hjump] at ht₁
      rw [decodeCalls]
      rcases hd : decodeChecked d (offer s e) with ⟨_ | _, d₁, s₁⟩
      · rw [hd] at hverdict hdest
        have hbad : m₁.bad := by
          by_contra hbad
          rw [if_neg hbad] at hverdict
          cases hverdict
        exact ⟨m₁, _, .cons hstop (.stuck (bad_stuck hbad) es t₁), hgood₁, hverdict,
          hdest.symm.trans (offers_dest es t₁).symm, fun hn => absurd hbad hn,
          fun hn => absurd hbad hn⟩
      · rw [hd] at hverdict hdest hstands haligned₁ hasks
        cases es with
        | nil =>
            exact ⟨m₁, t₁, .cons hstop (.nil _), hgood₁, hverdict, hdest.symm, hasks,
              fun _ => ⟨hstands, haligned₁⟩⟩
        | cons e' es =>
            obtain ⟨m', t', hruns, hgood', htells⟩ := ih hstands hgood₁ haligned₁
              (fun e he => hes e (List.mem_cons_of_mem _ he)) (List.cons_ne_nil _ _)
            exact ⟨m', t', .cons hstop hruns, hgood', htells⟩

theorem refills_dest (es : List Refill) (t : Bcj2DecStreams) :
    (es.foldl refill t).dest = t.dest := by
  induction es generalizing t with
  | nil => rfl
  | cons e es ih => exact ih _

theorem refills_room (es : List Refill) (t : Bcj2DecStreams) (room room' : ℕ) :
    { es.foldl refill { t with room } with room := room' } =
      { es.foldl refill t with room := room' } := by
  induction es generalizing t with
  | nil => rfl
  | cons e es ih => exact ih (refill t e)

/-- What the calls do in windows of their own the machine does in one window with room for
all that they write and for what the last of them has left. -/
theorem runs_steps {es : List Refill} {a b : Micro × Bcj2DecStreams}
    (h : Machine.Runs machine offer a es b) :
    a.2.dest.length ≤ b.2.dest.length ∧
      machine.Steps (a.1, { es.foldl refill a.2 with
        room := b.2.dest.length - a.2.dest.length + b.2.room }) b := by
  induction h with
  | nil a =>
      refine ⟨Nat.le_refl _, ?_⟩
      rw [Nat.sub_self, Nat.zero_add]
      exact .refl
  | @cons m t e b c es hstop _ ih =>
      obtain ⟨hle, hrest⟩ := ih
      obtain ⟨hsum, hroom, hany⟩ := steps_room (hstop.1.mores es)
      change (es.foldl refill b.2).dest.length + (es.foldl refill b.2).room =
        (es.foldl refill (offer t e)).dest.length + (es.foldl refill (offer t e)).room at hsum
      change (es.foldl refill b.2).room ≤ (es.foldl refill (offer t e)).room at hroom
      rw [refills_dest, refills_dest] at hsum
      have hdest : (offer t e).dest = t.dest := rfl
      rw [hdest] at hsum
      have hfirst := hany (c.2.dest.length - b.2.dest.length + c.2.room)
      change machine.Steps (m, { es.foldl refill { refill t e with room := e.room } with
        room := (es.foldl refill (offer t e)).room - (es.foldl refill b.2).room +
          (c.2.dest.length - b.2.dest.length + c.2.room) }) _ at hfirst
      rw [refills_room] at hfirst
      refine ⟨by show t.dest.length ≤ c.2.dest.length; omega, ?_⟩
      have hwindow : (es.foldl refill (offer t e)).room - (es.foldl refill b.2).room +
          (c.2.dest.length - b.2.dest.length + c.2.room) =
          c.2.dest.length - t.dest.length + c.2.room := by
        omega
      rw [hwindow] at hfirst
      exact hfirst.trans hrest

/-- Before the first call. -/
def noStreams : Bcj2DecStreams := ⟨[], [], [], [], 0, []⟩

/-- Two ends of a decoder that a caller cannot tell apart: the verdict and the output, and
after a success the stream it asks for and whether it may be finished. -/
structure SameEnd (r w : Except Bcj2Error Unit × Bcj2Dec × Bcj2DecStreams) : Prop where
  verdict : r.1 = w.1
  dest : r.2.2.dest = w.2.2.dest
  asks : r.1 = .ok () → r.2.1.requiredInput = w.2.1.requiredInput
  finished : r.1 = .ok () → r.2.1.isMaybeFinished = w.2.1.isMaybeFinished

theorem finished_of {d : Bcj2Dec} {s t : Bcj2DecStreams} {m : Micro} (h : Stands d s m t)
    (hasks : d.requiredInput = wants m t) :
    d.isMaybeFinished = (wants m t == some streamMain && m.core.code == 0) := by
  unfold isMaybeFinished
  rw [← hasks]
  by_cases hstate : d.state = streamMain
  · obtain ⟨hm, -, hmid⟩ := h.split
    have hcode : m.core.code = d.code := by
      rcases hmid with hmid | ⟨rfl, -⟩
      · rw [hm] at hmid
        have hside : ¬is32bitStream streamMain = true := by decide
        have howes : ¬(decStateOrig0 ≤ streamMain ∧ streamMain < decStateOrig) := by decide
        unfold abs placed at hmid
        rw [hstate, if_neg hside, if_neg howes] at hmid
        split_ifs at hmid <;> cases hmid
      · unfold abs placed
        split_ifs <;> rfl
    simp [requiredInput, hstate, hcode, streamMain, bcj2NumStreams]
  · have hne : d.requiredInput ≠ some streamMain := by
      unfold requiredInput
      split
      · exact fun h => hstate (Option.some.inj h)
      · exact fun h => by cases h
    rw [beq_eq_false_iff_ne.2 hstate, beq_eq_false_iff_ne.2 hne]
    rfl

theorem Tells.sameEnd {m : Micro} {t : Bcj2DecStreams}
    {r w : Except Bcj2Error Unit × Bcj2Dec × Bcj2DecStreams} (hr : Tells m t r)
    (hw : Tells m t w) : SameEnd r w := by
  have hgood (h : r.1 = .ok ()) : ¬m.bad := by
    intro hbad
    rw [hr.verdict, if_pos hbad] at h
    cases h
  refine ⟨hr.verdict.trans hw.verdict.symm, hr.dest.trans hw.dest.symm, fun h => ?_, fun h => ?_⟩
  · rw [hr.asks (hgood h), hw.asks (hgood h)]
  · rw [finished_of (hr.stands (hgood h)).1 (hr.asks (hgood h)),
      finished_of (hw.stands (hgood h)).1 (hw.asks (hgood h))]

theorem refills_aligned {es : List Refill} {s : Bcj2DecStreams} (hs : s.Aligned)
    (hes : ∀ e ∈ es, e.Aligned) : (es.foldl refill s).Aligned := by
  induction es generalizing s with
  | nil => exact hs
  | cons e es ih =>
      exact ih (offer_aligned hs (hes e (List.mem_cons_self ..)) : (refill s e).Aligned)
        fun e he => hes e (List.mem_cons_of_mem _ he)

theorem decodeCalls_append (d : Bcj2Dec) (s : Bcj2DecStreams) (done rest : List Refill) :
    decodeCalls d s (done ++ rest) =
      match decodeCalls d s done with
      | (.ok _, d, s) => decodeCalls d s rest
      | (.error err, d, s) => (.error err, d, s) := by
  induction done generalizing d s with
  | nil => rfl
  | cons e done ih =>
      rw [List.cons_append, decodeCalls, decodeCalls]
      rcases decodeChecked d (offer s e) with ⟨_ | _, d', s'⟩
      · rfl
      · exact ih d' s'

/-- All of what the calls are given, in one window with the room they have used and what the
last has left. -/
def together (es : List Refill) (r : Except Bcj2Error Unit × Bcj2Dec × Bcj2DecStreams) :
    Bcj2DecStreams :=
  { es.foldl refill noStreams with room := r.2.2.dest.length + r.2.2.room }

theorem withIp_good (ip : UInt32) : Good (abs (withIp ip)) :=
  ⟨fun _ => half_stays,
    fun h => absurd rfl h, fun h => by cases h⟩

/-- The calls end as one call on all of it does. -/
theorem decodeCalls_sameEnd (ip : UInt32) {es : List Refill} (hes : ∀ e ∈ es, e.Aligned)
    (hne : es ≠ []) :
    SameEnd (decodeCalls (withIp ip) noStreams es)
      (decodeChecked (withIp ip) (together es (decodeCalls (withIp ip) noStreams es))) := by
  have hgood := withIp_good ip
  have hstart (s : Bcj2DecStreams) : Stands (withIp ip) s (abs (withIp ip)) s := .same _ _
  have haligned : noStreams.Aligned := ⟨rfl, rfl⟩
  obtain ⟨m, t, hruns, -, htells⟩ := decodeCalls_runs (hstart _) hgood haligned hes hne
  have hall : (together es (decodeCalls (withIp ip) noStreams es)).Aligned :=
    refills_aligned haligned hes
  obtain ⟨mw, tw, hwstop, hwstands, -, hwverdict, hwasks⟩ := decode_stops (hstart _) hgood hall
  obtain ⟨-, hcall, hjump, -, hdest⟩ := hwstands.streams
  have hwtells : Tells mw tw
      (decodeChecked (withIp ip) (together es (decodeCalls (withIp ip) noStreams es))) := by
    refine ⟨hwverdict, hdest.symm, hwasks, fun _ => ⟨hwstands, ?_⟩⟩
    have ht := (steps_keep hwstop.1).1 hall
    unfold Bcj2DecStreams.Aligned at ht ⊢
    rwa [hcall, hjump] at ht
  -- The run in one window, with as much left of it as the last call has left.
  have hblocked : machine.Blocked
      (m, { t with room := (decodeCalls (withIp ip) noStreams es).2.2.room }) := by
    by_cases hbad : m.bad
    · exact bad_stuck hbad _
    · obtain ⟨-, -, -, hroom, -⟩ := (htells.stands hbad).1.streams
      obtain ⟨e, es, rfl⟩ := List.exists_cons_of_ne_nil hne
      rw [← hroom]
      exact hruns.blocked
  have hone := (steps_room (runs_steps hruns).2).2.2
    (decodeCalls (withIp ip) noStreams es).2.2.room
  have hwindow : t.dest.length - noStreams.dest.length + t.room - t.room +
      (decodeCalls (withIp ip) noStreams es).2.2.room =
      (decodeCalls (withIp ip) noStreams es).2.2.dest.length +
        (decodeCalls (withIp ip) noStreams es).2.2.room := by
    rw [htells.dest]
    change t.dest.length - 0 + t.room - t.room + _ = _
    omega
  dsimp only at hone
  rw [hwindow] at hone
  obtain ⟨rfl, rfl⟩ := Prod.mk.inj (Machine.Stops.unique ⟨hone, hblocked⟩ hwstop)
  have htells' : Tells m { t with room := (decodeCalls (withIp ip) noStreams es).2.2.room }
      (decodeCalls (withIp ip) noStreams es) := by
    by_cases hbad : m.bad
    · exact ⟨htells.verdict, htells.dest, fun h => absurd hbad h, fun h => absurd hbad h⟩
    · obtain ⟨-, -, -, hroom, -⟩ := (htells.stands hbad).1.streams
      rw [← hroom]
      exact htells
  exact htells'.sameEnd hwtells

/-- On the way the output is a prefix, and a call that stops has used up the stream it asks
for, or its window. -/
theorem decodeCalls_way (ip : UInt32) {done rest : List Refill}
    (hes : ∀ e ∈ done ++ rest, e.Aligned) (hdone : done ≠ []) :
    (decodeCalls (withIp ip) noStreams done).2.2.dest <+:
        (decodeCalls (withIp ip) noStreams (done ++ rest)).2.2.dest ∧
      ((decodeCalls (withIp ip) noStreams done).1 = .ok () →
        (∀ i, (decodeCalls (withIp ip) noStreams done).2.1.requiredInput = some i →
          streamOf (decodeCalls (withIp ip) noStreams done).2.2 i = []) ∧
        ((decodeCalls (withIp ip) noStreams done).2.1.requiredInput = none →
          (decodeCalls (withIp ip) noStreams done).2.2.room = 0)) := by
  have hstart : Stands (withIp ip) noStreams (abs (withIp ip)) noStreams := .same _ _
  have haligned : noStreams.Aligned := ⟨rfl, rfl⟩
  obtain ⟨m, t, hruns, hgood, htells⟩ := decodeCalls_runs hstart (withIp_good ip) haligned
    (fun e he => hes e (List.mem_append_left _ he)) hdone
  have hnot (hok : (decodeCalls (withIp ip) noStreams done).1 = .ok ()) : ¬m.bad := by
    intro hbad
    rw [htells.verdict, if_pos hbad] at hok
    cases hok
  constructor
  · rw [decodeCalls_append]
    rcases hd : decodeCalls (withIp ip) noStreams done with ⟨_ | _, d, s⟩
    · exact List.prefix_rfl
    · rw [hd] at htells hnot
      obtain ⟨hstands, hs⟩ := htells.stands (hnot rfl)
      by_cases hrest : rest = []
      · rw [hrest]
        exact List.prefix_rfl
      · obtain ⟨m', t', hruns', -, htells'⟩ := decodeCalls_runs hstands hgood hs
          (fun e he => hes e (List.mem_append_right _ he)) hrest
        have hgrows := (steps_keep (runs_steps hruns').2).2
        dsimp only at hgrows
        rw [refills_dest, ← htells'.dest, ← htells.dest] at hgrows
        exact hgrows
  · intro hok
    have hbad := hnot hok
    obtain ⟨e, es, rfl⟩ := List.exists_cons_of_ne_nil hdone
    obtain ⟨hstands, hs⟩ := htells.stands hbad
    rw [htells.asks hbad]
    exact wants_exhausted hstands hruns.blocked hbad hs

end LzmaTurbo.Filters.Bcj2Dec
