import LzmaTurbo.Filters.Bcj2Restores
import LzmaTurbo.Filters.Bcj2DecCalls

/-!
# The BCJ2 round trip
-/
namespace LzmaTurbo.Filters
open Supplies
open Bcj2Enc
open Bcj2Dec (machine coder Micro Refill refill offer withIp noStreams decodeCalls wants Tells)
open ExactCoder (Exact Pending value)

/-- The interval before the first bit. -/
def exactStart : Exact ℕ := ⟨0, 0xFFFFFFFF, 0, fun _ => bcj2BitModelTotal / 2⟩

theorem encStart_between (ip fileIp fileSizeMinus1 : UInt64) (relatLimit : UInt32)
    (src : List UInt8) :
    Between (encStart ip fileIp fileSizeMinus1 relatLimit).1.bare
      (flow (encStart ip fileIp fileSizeMinus1 relatLimit).2.1 src true) exactStart := by
  have hpending : Pending [] (0 : UInt8).toNat (1 - 1) 0 exactStart := by
    constructor <;> decide
  exact ⟨⟨Nat.one_ne_zero, hpending⟩, ⟨by decide, by decide, fun _ => half_stays.1,
    fun _ => half_stays.2⟩, rfl, rfl, rfl, rfl⟩

/-- One of the bytes that the range coder starts with. -/
theorem prime_byte {d : Bcj2Dec} (hrange : d.range < 5) (hcode : d.range = 1 → d.code = 0)
    (v : UInt32) (b : UInt8) (main call jump rc : List UInt8) (room : ℕ) (dest : List UInt8) :
    machine.step ⟨.prime, v, d⟩ ⟨main, call, jump, b :: rc, room, dest⟩ =
      some (⟨.prime, v, { d with code := Bcj2Dec.shifted d.code b, range := d.range + 1 }⟩,
        ⟨main, call, jump, rc, room, dest⟩) := by
  have hbad : ¬Micro.bad ⟨.prime, v, d⟩ := by
    rintro ⟨-, ⟨h1, h2⟩ | ⟨h1, -⟩⟩
    · exact h2 (hcode h1)
    · exact absurd h1 hrange.ne
  change Bcj2Dec.primeStep _ _ = _
  unfold Bcj2Dec.primeStep
  rw [if_neg hbad, if_neg hrange.ne]

/-- The decoder takes the first five bytes and stands where the encoder starts. -/
theorem prime_reads (ip : UInt32) {xs : List UInt8} (h : exactStart.Holds xs)
    (main call jump : List UInt8) (room : ℕ) (dest : List UInt8) :
    ∃ d rc, machine.Steps (Bcj2Dec.abs (withIp ip), ⟨main, call, jump, xs, room, dest⟩)
        (⟨.scan, 0, d⟩, ⟨main, call, jump, rc, room, dest⟩) ∧
      exactStart.Reads xs d.coder rc ∧ d.ip = ip := by
  have hhead := h.head.2
  have hlen : 5 ≤ xs.length := h.len
  obtain ⟨b₀, b₁, b₂, b₃, b₄, rest, rfl⟩ :
      ∃ b₀ b₁ b₂ b₃ b₄ rest, xs = b₀ :: b₁ :: b₂ :: b₃ :: b₄ :: rest := by
    rcases xs with _ | ⟨b₀, _ | ⟨b₁, _ | ⟨b₂, _ | ⟨b₃, _ | ⟨b₄, rest⟩⟩⟩⟩⟩
    · cases hlen
    · exact absurd hlen (by simp)
    · exact absurd hlen (by simp)
    · exact absurd hlen (by simp)
    · exact absurd hlen (by simp)
    · exact ⟨_, _, _, _, _, _, rfl⟩
  have hvalue : value [b₀, b₁, b₂, b₃, b₄] =
      (((b₀.toNat * 256 + b₁.toNat) * 256 + b₂.toNat) * 256 + b₃.toNat) * 256 + b₄.toNat := by
    simp [value]
  change value [b₀, b₁, b₂, b₃, b₄] < 0 + 0xFFFFFFFF at hhead
  rw [hvalue] at hhead
  have h1 := b₁.toNat_lt
  have h2 := b₂.toNat_lt
  have h3 := b₃.toNat_lt
  have h4 := b₄.toNat_lt
  have h0 : b₀.toNat = 0 := by omega
  rw [h0] at hvalue hhead
  -- The code after each of them.
  have hc0 : Bcj2Dec.shifted 0 b₀ = 0 := by
    unfold Bcj2Dec.shifted
    omega
  have hc1 : Bcj2Dec.shifted 0 b₁ = b₁.toNat := by
    unfold Bcj2Dec.shifted
    omega
  have hc2 : Bcj2Dec.shifted b₁.toNat b₂ = b₁.toNat * 256 + b₂.toNat := by
    unfold Bcj2Dec.shifted
    omega
  have hc3 : Bcj2Dec.shifted (b₁.toNat * 256 + b₂.toNat) b₃ =
      (b₁.toNat * 256 + b₂.toNat) * 256 + b₃.toNat := by
    unfold Bcj2Dec.shifted
    omega
  have hc4 : Bcj2Dec.shifted ((b₁.toNat * 256 + b₂.toNat) * 256 + b₃.toNat) b₄ =
      value [b₀, b₁, b₂, b₃, b₄] := by
    unfold Bcj2Dec.shifted
    omega
  have hwiden : exactStart.widen = exactStart := if_neg (by decide)
  have hreads : exactStart.Reads (b₀ :: b₁ :: b₂ :: b₃ :: b₄ :: rest)
      (coder { (withIp ip).bare with
        code := value [b₀, b₁, b₂, b₃, b₄]
        range := 0xFFFFFFFF }) rest := by
    refine ⟨rfl, ?_, rfl, rfl⟩
    exact Nat.add_zero (value [b₀, b₁, b₂, b₃, b₄])
  obtain ⟨d, rc, htop, hreads', hip⟩ := Bcj2Dec.top_steps hreads (hwiden.symm ▸ h)
  rw [hwiden] at hreads'
  refine ⟨d, rc, ?_, hreads', hip⟩
  have hs0 := prime_byte (d := (withIp ip).bare) (by show 0 < 5; decide) (fun h => by cases h) 0 b₀ main call
    jump (b₁ :: b₂ :: b₃ :: b₄ :: rest) room dest
  have hs1 := prime_byte (d := { (withIp ip).bare with code := 0, range := 1 })
    (by show 1 < 5; decide)
    (fun _ => rfl) 0 b₁ main call jump (b₂ :: b₃ :: b₄ :: rest) room dest
  have hs2 := prime_byte (d := { (withIp ip).bare with code := b₁.toNat, range := 2 })
    (by show 2 < 5; decide) (fun h => by cases h) 0 b₂ main call jump (b₃ :: b₄ :: rest) room dest
  have hs3 := prime_byte (d := { (withIp ip).bare with
    code := b₁.toNat * 256 + b₂.toNat, range := 3 }) (by show 3 < 5; decide)
    (fun h => by cases h) 0 b₃ main call jump (b₄ :: rest) room dest
  have hs4 := prime_byte (d := { (withIp ip).bare with
    code := (b₁.toNat * 256 + b₂.toNat) * 256 + b₃.toNat, range := 4 }) (by show 4 < 5; decide)
    (fun h => by cases h) 0 b₄ main call jump rest room dest
  have hs5 : machine.step ⟨.prime, 0, { (withIp ip).bare with
      code := value [b₀, b₁, b₂, b₃, b₄], range := 5 }⟩ ⟨main, call, jump, rest, room, dest⟩ =
        some (⟨.top, 0, { (withIp ip).bare with
          code := value [b₀, b₁, b₂, b₃, b₄], range := 0xFFFFFFFF }⟩,
          ⟨main, call, jump, rest, room, dest⟩) := by
    have hbad : ¬Micro.bad ⟨.prime, 0, { (withIp ip).bare with
        code := value [b₀, b₁, b₂, b₃, b₄], range := 5 }⟩ := by
      rintro ⟨-, ⟨h1, -⟩ | ⟨-, h2⟩⟩
      · cases h1
      · change value [b₀, b₁, b₂, b₃, b₄] = 0xFFFFFFFF at h2
        omega
    change Bcj2Dec.primeStep _ _ = _
    unfold Bcj2Dec.primeStep
    rw [if_neg hbad, if_pos rfl]
  rw [show (withIp ip).bare.code = 0 from rfl, hc0] at hs0
  simp only [hc1] at hs1
  simp only [hc2] at hs2
  simp only [hc3] at hs3
  simp only [hc4] at hs4
  exact .head hs0 (.head hs1 (.head hs2 (.head hs3 (.head hs4 (.head hs5
    (htop 0 main call jump room dest))))))

/-- What waits for a stream does not look at the room. -/
theorem blocked_with_room {m : Micro} {t : Bcj2DecStreams} {i : ℕ}
    (hblocked : machine.Blocked (m, t)) (hwants : wants m t = some i) (room : ℕ) :
    machine.Blocked (m, { t with room }) := by
  change Bcj2Dec.microStep m t = none at hblocked
  change Bcj2Dec.microStep m { t with room } = none
  cases hp : m.phase with
  | prime =>
      simp only [Bcj2Dec.microStep, hp, Bcj2Dec.primeStep] at hblocked ⊢
      cases hrc : t.rc <;> simp only [hrc] at hblocked ⊢ <;> split_ifs at hblocked ⊢ <;> rfl
  | top =>
      simp only [Bcj2Dec.microStep, hp, Bcj2Dec.topStep] at hblocked ⊢
      cases hrc : t.rc <;> simp only [hrc] at hblocked ⊢ <;> split_ifs at hblocked ⊢
      rfl
  | scan =>
      have hmain : t.main = [] := by
        by_contra hmain
        simp only [wants, hp, if_neg hmain] at hwants
        cases hwants
      simp only [Bcj2Dec.microStep, hp, Bcj2Dec.scanStep, hmain]
  | target cj =>
      simp only [Bcj2Dec.microStep, hp, Bcj2Dec.targetStep] at hblocked ⊢
      have hside : Bcj2DecStreams.side { t with room } cj = t.side cj := rfl
      rw [hside]
      split at hblocked
      · cases hblocked
      · rfl
  | emit left => simp [wants, hp] at hwants

/-- What waits for no stream writes a byte with its next step. -/
theorem step_writes {m : Micro} {t : Bcj2DecStreams} {b : Micro × Bcj2DecStreams}
    (hstep : machine.step m t = some b) (hwants : wants m t = none) :
    b.2.dest.length = t.dest.length + 1 := by
  change Bcj2Dec.microStep m t = some b at hstep
  cases hp : m.phase with
  | prime => simp [wants, hp] at hwants
  | top => simp [wants, hp] at hwants
  | scan =>
      simp only [Bcj2Dec.microStep, hp, Bcj2Dec.scanStep] at hstep
      split at hstep
      · cases hstep
      next b' main hmain =>
        have hlen : (t.copy 1).dest.length = t.dest.length + 1 := by
          simp [Bcj2DecStreams.copy, hmain]
        split at hstep
        · cases hstep
        · split at hstep <;> cases hstep <;> exact hlen
  | target cj => simp [wants, hp] at hwants
  | emit left =>
      have hlen : (t.put m.v.toUInt8).dest.length = t.dest.length + 1 := by
        simp [Bcj2DecStreams.put]
      simp only [Bcj2Dec.microStep, hp] at hstep
      cases left with
      | zero => cases hstep
      | succ left =>
          rw [Bcj2Dec.emitStep] at hstep
          split at hstep
          · cases hstep
          · split at hstep <;> cases hstep <;> exact hlen

/-- All that the calls are offered. -/
def offered (es : List Refill) : Bcj2Streams :=
  ⟨es.flatMap Refill.main, es.flatMap Refill.call, es.flatMap Refill.jump, es.flatMap Refill.rc⟩

theorem refills_offered (es : List Refill) (s : Bcj2DecStreams) :
    es.foldl refill s = { s with
      main := s.main ++ (offered es).main
      call := s.call ++ (offered es).call
      jump := s.jump ++ (offered es).jump
      rc := s.rc ++ (offered es).rc } := by
  induction es generalizing s with
  | nil => simp [offered]
  | cons e es ih =>
      rw [List.foldl_cons, ih]
      simp [offered, refill, List.append_assoc]

/-- What decoding has come to: the source and nothing left, unless there was no more room. -/
structure Restored (source : List UInt8)
    (r : Except Bcj2Error Unit × Bcj2Dec × Bcj2DecStreams) : Prop where
  verdict : r.1 = .ok ()
  dest : r.2.2.dest <+: source
  full : r.2.1.requiredInput = none → r.2.2.room = 0 ∧ r.2.2.dest.length < source.length
  done : r.2.1.requiredInput ≠ none → r.2.2.dest = source ∧ r.2.1.isMaybeFinished = true ∧
    r.2.2.main = [] ∧ r.2.2.call = [] ∧ r.2.2.jump = [] ∧ r.2.2.rc = []

/-- If one window with room enough restores the source, so do windows in any number. -/
theorem decodeCalls_restored (ip : UInt32) {source : List UInt8} {out : Bcj2Streams}
    (hwhole : ∀ room, source.length ≤ room → ∃ v d, d.code = 0 ∧
      machine.Stops (Bcj2Dec.abs (withIp ip), ⟨out.main, out.call, out.jump, out.rc, room, []⟩)
        (⟨.scan, v, d⟩, ⟨[], [], [], [], room - source.length, source⟩))
    {es : List Refill} (hes : ∀ e ∈ es, e.Aligned) (hne : es ≠ []) (hall : offered es = out) :
    Restored source (decodeCalls (withIp ip) noStreams es) := by
  obtain ⟨m, t, hruns, -, htells⟩ := Bcj2Dec.decodeCalls_runs
    (s := noStreams) (t := noStreams) (.same _ _) (Bcj2Dec.withIp_good ip) ⟨rfl, rfl⟩ hes hne
  -- The calls in one window, with room for all of the source behind what they wrote.
  have hone := (Bcj2Dec.steps_room (Bcj2Dec.runs_steps hruns).2).2.2 source.length
  dsimp only at hone
  rw [refills_offered, hall] at hone
  obtain ⟨v, d, hcode, hstops⟩ := hwhole
    (t.dest.length - noStreams.dest.length + t.room - t.room + source.length) (by omega)
  have hafter := hstops.after hone
  have hbad : ¬m.bad := by
    intro hbad
    have hsame := Machine.Stops.unique ⟨.refl, Bcj2Dec.bad_stuck hbad _⟩ hafter
    have hphase := congrArg (fun a => a.1.phase) hsame
    have hprime := hbad.1
    simp only [hprime] at hphase
    cases hphase
  have hprefix : t.dest <+: source := (Bcj2Dec.steps_keep hafter.1).2
  obtain ⟨hstands, haligned⟩ := htells.stands hbad
  have hasks := htells.asks hbad
  have hblocked : machine.Blocked (m, t) := by
    obtain ⟨e, es, rfl⟩ := List.exists_cons_of_ne_nil hne
    exact hruns.blocked
  refine ⟨htells.verdict.trans (if_neg hbad), htells.dest ▸ hprefix, fun hnone => ⟨?_, ?_⟩,
    fun hsome => ?_⟩
  · exact (Bcj2Dec.wants_exhausted hstands hblocked hbad haligned).2 (hasks.symm.trans hnone)
  · have hwants : wants m { t with room := source.length } = none := hasks.symm.trans hnone
    rw [htells.dest]
    rcases Relation.ReflTransGen.cases_head hafter.1 with hend | ⟨b, hstep, hrest⟩
    · obtain ⟨rfl, ht⟩ := Prod.mk.inj hend
      injection ht with hmain
      simp [wants, hmain] at hwants
    · have hwrites := step_writes hstep hwants
      have hgrows := (Bcj2Dec.steps_keep hrest).2.length_le
      change b.2.dest.length ≤ source.length at hgrows
      change b.2.dest.length = t.dest.length + 1 at hwrites
      omega
  · obtain ⟨i, hi⟩ := Option.ne_none_iff_exists'.1 hsome
    have hwants : wants m t = some i := hasks.symm.trans hi
    have hsame := Machine.Stops.unique
      ⟨.refl, blocked_with_room hblocked hwants source.length⟩ hafter
    obtain ⟨rfl, ht⟩ := Prod.mk.inj hsame
    injection ht with hmain hcall hjump hrc _ hdest
    have hexact : t = (decodeCalls (withIp ip) noStreams es).2.2 := by
      rcases hstands.split.2.2 with hmid | ⟨-, hexact⟩
      · cases hmid
      · exact hexact
    rw [Bcj2Dec.finished_of hstands hasks, ← hexact]
    refine ⟨hdest, ?_, hmain, hcall, hjump, hrc⟩
    simp only [wants, hmain, hcode]
    rfl

/-- What the encoder writes, and what it is good for. -/
theorem wholeCall_restores (ip fileIp fileSizeMinus1 : UInt64) (relatLimit : UInt32)
    (src : List UInt8) :
    Restores (encStart ip fileIp fileSizeMinus1 relatLimit).1.bare
      (flow (encStart ip fileIp fileSizeMinus1 relatLimit).2.1 src true) exactStart
      (written (encodeCall (encStart ip fileIp fileSizeMinus1 relatLimit) (wholeCall src)).2.1) := by
  obtain ⟨out, hout⟩ :=
    Between.restores (encStart_between ip fileIp fileSizeMinus1 relatLimit src)
  obtain ⟨m, y, hstops, hstreams⟩ := hout.ends
  have hsame := Machine.Stops.unique hstops
    (wholeCall_stops ip fileIp fileSizeMinus1 relatLimit src)
  have hwritten : out = written
      (encodeCall (encStart ip fileIp fileSizeMinus1 relatLimit) (wholeCall src)).2.1 :=
    hstreams.symm.trans (congrArg (fun a => a.2.streams) hsame)
  rw [← hwritten]
  exact hout

/-- However the source is given to the encoder and whatever its windows, once it has
finished a decoder at the same address restores the source from the four streams, in
whatever pieces and windows, the call and the jump stream by the word. -/
theorem bcj2_round_trip (ip fileIp fileSizeMinus1 : UInt64) (relatLimit : UInt32)
    {cs : List EncCall} (horder : InOrder false cs)
    (hdone : (encodeCalls (encStart ip fileIp fileSizeMinus1 relatLimit) cs).1.isFinished = true)
    {out : Bcj2Streams}
    (hout : written (encodeCalls (encStart ip fileIp fileSizeMinus1 relatLimit) cs).2.1 = out) :
    out.main.length + out.call.length + out.jump.length = (sourceOf cs).length ∧
      out.call.length % 4 = 0 ∧ out.jump.length % 4 = 0 ∧
      ∀ es : List Refill, (∀ e ∈ es, e.Aligned) → offered es = out →
        Restored (sourceOf cs) (decodeCalls (withIp ip.toUInt32) noStreams es) := by
  have hwhole := wholeCall_restores ip fileIp fileSizeMinus1 relatLimit (sourceOf cs)
  rw [← ((encodeCalls_whole ip fileIp fileSizeMinus1 relatLimit horder).2 hdone).1, hout]
    at hwhole
  refine ⟨hwhole.lengths, hwhole.words.1, hwhole.words.2, fun es hes hall => ?_⟩
  have hne : es ≠ [] := by
    rintro rfl
    have hlen := hwhole.holds.len
    rw [← hall] at hlen
    cases hlen
  refine decodeCalls_restored ip.toUInt32 (fun room hroom => ?_) hes hne hall
  obtain ⟨d, rc, hprimed, hreads, hip⟩ :=
    prime_reads ip.toUInt32 hwhole.holds out.main out.call out.jump room []
  obtain ⟨v, d', hcode, hstops⟩ := hwhole.restores 0 d rc ⟨hreads, hip, rfl⟩ room [] hroom
  exact ⟨v, d', hcode, hprimed.stops hstops⟩

/-- A call between two other bytes, given to both sides in pieces. -/
theorem bcj2_round_trip_call :
    Restored [0x41, 0xE8, 2, 0, 0, 0, 0x42] (decodeCalls (withIp 0) noStreams
      [⟨[0x41, 0xE8], [], [], [0, 0x7F, 0xFF, 0xFC, 0], 4⟩, ⟨[0x42], [0, 0, 0, 8], [], [], 3⟩,
        ⟨[], [], [], [], 2⟩]) :=
  (@bcj2_round_trip 0 0 0xFFFFFFFFFFFFFFFF 0xF000000
    [⟨[0x41, 0xE8, 2], false, 2, 16, 16, 16⟩, ⟨[0, 0, 0, 0x42], true, 16, 16, 16, 16⟩]
    ⟨by decide, by decide, trivial⟩ (by decide +kernel)
    ⟨[0x41, 0xE8, 0x42], [0, 0, 0, 8], [], [0, 0x7F, 0xFF, 0xFC, 0]⟩
    (by decide +kernel)).2.2.2 _ (by decide) (by decide)

/-- A byte of the call stream that is not a word is refused. -/
theorem bcj2_round_trip_odd_byte :
    ¬∀ (ip fileIp fileSizeMinus1 : UInt64) (relatLimit : UInt32) (cs : List EncCall)
      (es : List Refill), InOrder false cs →
        (encodeCalls (encStart ip fileIp fileSizeMinus1 relatLimit) cs).1.isFinished = true →
        offered es =
          written (encodeCalls (encStart ip fileIp fileSizeMinus1 relatLimit) cs).2.1 →
        Restored (sourceOf cs) (decodeCalls (withIp ip.toUInt32) noStreams es) := by
  intro h
  have hrestored := h 0 0 0xFFFFFFFFFFFFFFFF 0xF000000
    [⟨[0xE8, 0, 0, 0, 0], true, 16, 16, 16, 16⟩]
    [⟨[0xE8], [0], [], [0, 0x7F, 0xFF, 0xFC, 0], 5⟩, ⟨[], [0, 0, 5], [], [], 5⟩]
    ⟨by decide, trivial⟩ (by decide +kernel) (by decide +kernel)
  have hdest := (hrestored.done (by decide +kernel)).1
  revert hdest
  decide +kernel

end LzmaTurbo.Filters
