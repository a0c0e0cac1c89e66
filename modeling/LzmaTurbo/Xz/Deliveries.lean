import LzmaTurbo.Xz.LimitRuns

/-!
# What reads deliver

A caller's record over any reads, and what limits do to it: they are kept, and they make no
difference to a file that is within them.
-/
namespace LzmaTurbo.Xz
open Machine Lzma Lzma2 Mt
open XzReader (filteredFile small)

/-- A caller's record: its bytes, how many they are, and how many are of the block it was last
given bytes of. -/
structure Delivery (C : Checks) where
  r : XzReader C
  out : List UInt8
  total : ℕ
  block : ℕ

namespace Delivery
variable {C : Checks} {s s' : Delivery C}

/-- Before the first read. -/
def start (src : Source) (opts : XzOptions) : Delivery C := ⟨.withOptions src opts, [], 0, 0⟩

section
variable (x8664 kernel : Bool)

/-- One read, into a buffer `out`. -/
def read (s : Delivery C) (fuel : ℕ) (out : List UInt8) : Except Halt (Delivery C) := do
  let (r, out, n) ← s.r.read x8664 kernel fuel out
  let same := r.stream = s.r.stream ∧ r.blockNo = s.r.blockNo
  .ok { r, out := s.out ++ out.take n, total := s.total + n
        block := if same then s.block + n else n }

/-- Reads one after the other. -/
def reads : List (ℕ × List UInt8) → Delivery C → Except Halt (Delivery C)
  | [], s => .ok s
  | (fuel, out) :: calls, s => do reads calls (← s.read x8664 kernel fuel out)

end

/-- What is recorded is what the reader has counted. -/
structure Recorded (opts : XzOptions) (s : Delivery C) : Prop where
  total : s.total = s.r.totalOut
  block : s.r.dec ≠ none → s.block = s.r.given
  none : s.r.dec = none → s.r.state = .done ∨ s.block = 0
  bound : s.block ≤ opts.maxBlockSize

theorem given_le {opts : XzOptions} {b : Option (LzmaProps × List UInt8)} {r : XzReader C}
    (hk : XzReader.Kept opts b r) {d : BlockDecoder C} (hd : r.dec = some d) :
    r.given ≤ d.cap ∧ d.cap ≤ opts.maxBlockSize := by
  have hb := hk.block d hd
  constructor
  · unfold XzReader.given
    rw [hd]
    exact (Nat.sub_le _ _).trans hb.bounded.unpacked
  · exact (BlockDecoder.cap_le hb.declared).trans (hk.opts ▸ hb.allowed)

theorem read_recorded (x8664 kernel : Bool) {r₀ : XzReader C} {opts : XzOptions}
    {b : Option (LzmaProps × List UInt8)} {fuel : ℕ} {out : List UInt8}
    (hv : XzReader.Visits x8664 kernel r₀ b s.r) (hk : XzReader.Kept opts b s.r)
    (hr : s.Recorded opts) (h : s.read x8664 kernel fuel out = .ok s') :
    (∃ b', XzReader.Visits x8664 kernel r₀ b' s'.r ∧ XzReader.Kept opts b' s'.r) ∧
      s'.Recorded opts := by
  unfold read at h
  obtain ⟨⟨r, out', n⟩, hread, h⟩ := bind_eq_ok h
  cases h
  unfold XzReader.read at hread
  split at hread
  · cases hread
    refine ⟨⟨b, hv, hk⟩, hr.total, fun hd => ?_, fun hd => ?_, ?_⟩
    · exact (if_pos ⟨rfl, rfl⟩).trans (hr.block hd)
    · exact (hr.none hd).imp id (if_pos ⟨rfl, rfl⟩).trans
    · exact (if_pos ⟨rfl, rfl⟩).trans_le hr.bound
  next hne =>
    obtain ⟨⟨b', hv', hk'⟩, hdel⟩ := XzReader.readLoop_kept x8664 kernel hv hk hne hread
    have hgiven : r.dec ≠ Option.none →
        (if r.stream = s.r.stream ∧ r.blockNo = s.r.blockNo then s.block + n else n) = r.given := by
      intro hdec
      rcases hdel.place with ⟨hhad, hs, hbn, hg⟩ | ⟨hg, hpass⟩
      · rw [if_pos ⟨hs, hbn⟩, hr.block hhad, hg]
      · rw [hg]
        split
        next hsame =>
          have hnone : s.r.dec = Option.none := by
            by_contra hhad
            rcases hpass hhad with hlt | ⟨-, hlt, -⟩
            · exact absurd hlt (hsame.1 ▸ Nat.lt_irrefl _)
            · exact absurd hlt (hsame.2 ▸ Nat.lt_irrefl _)
          rcases hr.none hnone with hdone | hzero
          · obtain ⟨rfl, -⟩ := hdel.idle hdone
            exact absurd hnone hdec
          · rw [hzero, Nat.zero_add]
        next => rfl
    refine ⟨⟨b', hv', hk'⟩, ?_, hgiven, fun hdec => ?_, ?_⟩
    · exact (congrArg (· + n) hr.total).trans hdel.total.symm
    · exact .inl ((hdel.ends.resolve_left fun h => h hdec).1)
    · cases hdec : r.dec with
      | none =>
          obtain ⟨-, rfl⟩ := hdel.ends.resolve_left fun h => h hdec
          change (if _ then s.block + 0 else 0) ≤ _
          split
          · exact hr.bound
          · exact Nat.zero_le _
      | some d =>
          obtain ⟨hcap, hmax⟩ := given_le hk' hdec
          exact (hgiven (by rw [hdec]; simp)).trans_le (hcap.trans hmax)

theorem reads_recorded (x8664 kernel : Bool) {r₀ : XzReader C} {opts : XzOptions}
    {calls : List (ℕ × List UInt8)} {b : Option (LzmaProps × List UInt8)}
    (hv : XzReader.Visits x8664 kernel r₀ b s.r) (hk : XzReader.Kept opts b s.r)
    (hr : s.Recorded opts) (h : reads x8664 kernel calls s = .ok s') :
    (∃ b', XzReader.Visits x8664 kernel r₀ b' s'.r ∧ XzReader.Kept opts b' s'.r) ∧
      s'.Recorded opts := by
  induction calls generalizing s b with
  | nil =>
      cases h
      exact ⟨⟨b, hv, hk⟩, hr⟩
  | cons call calls ih =>
      obtain ⟨fuel, out⟩ := call
      rw [reads] at h
      obtain ⟨s₁, hread, h⟩ := bind_eq_ok h
      obtain ⟨⟨b₁, hv₁, hk₁⟩, hr₁⟩ := read_recorded x8664 kernel hv hk hr hread
      exact ih hv₁ hk₁ hr₁ h

theorem start_kept {src : Source} (h : src.Sound) (opts : XzOptions) :
    XzReader.Kept opts none (.withOptions src opts : XzReader C) where
  sound := XzReader.withOptions_sound h opts
  opts := rfl
  total := fun _ _ => Nat.zero_le _
  closed := fun h => absurd rfl h
  block := fun d hd => by cases hd

theorem visits_kept {x8664 kernel : Bool} {src : Source} (h : src.Sound) {opts : XzOptions}
    {b : Option (LzmaProps × List UInt8)} {r : XzReader C}
    (hv : XzReader.Visits x8664 kernel (.withOptions src opts) b r) : XzReader.Kept opts b r := by
  induction hv with
  | start => exact start_kept h opts
  | turn _ hs ht ih => exact (XzReader.turn_kept ih hs ht).kept
  | block _ _ hne hb ih => exact ((XzReader.block_kept x8664 kernel ih hne).1 _ _ _ hb).1.kept

/-- The limits of a block are those its header came with. -/
theorem visits_header {x8664 kernel : Bool} {src : Source} (h : src.Sound) {opts : XzOptions}
    {b : Option (LzmaProps × List UInt8)} {r : XzReader C} {d : BlockDecoder C}
    (hv : XzReader.Visits x8664 kernel (.withOptions src opts) b r) (hd : r.dec = some d) :
    ∃ b₁ r₁ header, XzReader.Visits x8664 kernel (.withOptions src opts : XzReader C) b₁ r₁ ∧
      r₁.state = .blockOrIndex ∧ r₁.HeaderAt header ∧ d.limits = r₁.blockLimits header := by
  induction hv generalizing d with
  | start => cases hd
  | turn hv hs ht ih =>
      obtain ⟨hstate, header, hat, hlimits⟩ :=
        (XzReader.turn_kept (visits_kept h hv) hs ht).header d hd
      exact ⟨_, _, header, hv, hstate, hat, hlimits⟩
  | block hv _ hne hb ih =>
      obtain ⟨hblocked, -⟩ := (XzReader.block_kept x8664 kernel (visits_kept h hv) hne).1 _ _ _ hb
      have hlimits := hblocked.limits
      rw [hd, Option.map_some] at hlimits
      obtain ⟨d₁, hd₁, heq⟩ := Option.map_eq_some_iff.1 hlimits.symm
      rw [← heq]
      exact ih hd₁


section
variable {x8664 kernel : Bool} {calls : List (ℕ × List UInt8)}

/-- Reads are a run, with no more of a block given than they record. -/
theorem reads_goes {r₀ : XzReader C} {opts : XzOptions} {m : ℕ}
    {b : Option (LzmaProps × List UInt8)} (hv : XzReader.Visits x8664 kernel r₀ b s.r)
    (hk : XzReader.Kept opts b s.r) (hr : s.Recorded opts)
    (hsmall : ∀ k t, reads x8664 kernel (calls.take k) s = .ok t → t.block ≤ m)
    (h : reads x8664 kernel calls s = .ok s') : ∃ w,
      XzReader.Goes x8664 kernel (fun r => r.given ≤ m) s.r w s'.r ∧ s'.out = s.out ++ w := by
  induction calls generalizing s b with
  | nil =>
      cases h
      exact ⟨[], .refl _, (List.append_nil _).symm⟩
  | cons call calls ih =>
      obtain ⟨fuel, out⟩ := call
      rw [reads] at h
      obtain ⟨s₁, hread, h⟩ := bind_eq_ok h
      obtain ⟨⟨b₁, hv₁, hk₁⟩, hr₁⟩ := read_recorded x8664 kernel hv hk hr hread
      have hsmall₁ : ∀ k t, reads x8664 kernel (calls.take k) s₁ = .ok t → t.block ≤ m :=
        fun k t ht => hsmall (k + 1) t (by
          rw [List.take_succ_cons, reads, hread]
          exact ht)
      obtain ⟨w, hgoes, hout⟩ := ih hv₁ hk₁ hr₁ hsmall₁ h
      have hgiven : s₁.r.given ≤ m := by
        cases hdec : s₁.r.dec with
        | none =>
            unfold XzReader.given
            rw [hdec]
            exact Nat.zero_le m
        | some d =>
            rw [← hr₁.block (by rw [hdec]; simp)]
            exact hsmall₁ 0 s₁ rfl
      unfold read at hread
      obtain ⟨⟨r, out', n⟩, hcall, hs₁⟩ := bind_eq_ok hread
      cases hs₁
      unfold XzReader.read at hcall
      split at hcall
      · cases hcall
        rw [List.take_zero, List.append_nil] at hout
        exact ⟨w, hgoes, hout⟩
      next hne =>
        refine ⟨out'.take n ++ w, (XzReader.readLoop_goes hk hne hcall fun _ => hgiven).trans hgoes,
          ?_⟩
        rw [hout, List.append_assoc]

/-- A read of an input that comes to its end, where the limits allow it. -/
theorem read_place (hC : C.Lawful) {opts : XzOptions} {left out : List UInt8} {fuel : ℕ}
    (h : XzReader.Place opts s.r left) :
    (∀ e, s.read x8664 kernel fuel out = .error e → e = .fuel) ∧
    ∀ s', s.read x8664 kernel fuel out = .ok s' →
      (out ≠ [] → s.total < s'.total ∨ s'.r.state = .done) ∧
        ∃ left', s.out ++ left = s'.out ++ left' ∧ XzReader.Place opts s'.r left' := by
  unfold read XzReader.read
  by_cases hne : out = []
  · rw [if_pos hne]
    refine ⟨(fun e he => by cases he), fun s' hs' => ?_⟩
    cases hs'
    refine ⟨fun h => absurd hne h, left, ?_, h⟩
    rw [List.take_zero, List.append_nil]
  · rw [if_neg hne]
    obtain ⟨herr, hok⟩ := @XzReader.Place.readLoop C s.r opts x8664 kernel hC fuel fuel left out h
      hne
    cases hres : s.r.readLoop x8664 kernel fuel fuel out with
    | error e =>
        refine ⟨fun e' he' => ?_, fun s' hs' => by cases hs'⟩
        cases he'
        exact herr e hres
    | ok t =>
        obtain ⟨r, out', n⟩ := t
        obtain ⟨hz, left', hleft, hplace⟩ := hok r out' n hres
        refine ⟨(fun e he => by cases he), fun s' hs' => ?_⟩
        cases hs'
        refine ⟨fun _ => ?_, left', ?_, hplace⟩
        · rcases Nat.eq_zero_or_pos n with hn | hn
          · exact .inr (hz hn)
          · exact .inl (Nat.lt_add_of_pos_right hn)
        · rw [hleft, List.append_assoc]

theorem reads_place (hC : C.Lawful) {opts : XzOptions} {left : List UInt8}
    (h : XzReader.Place opts s.r left) :
    (∀ e, reads x8664 kernel calls s = .error e → e = .fuel) ∧
    ∀ s', reads x8664 kernel calls s = .ok s' →
      ∃ left', s.out ++ left = s'.out ++ left' ∧ XzReader.Place opts s'.r left' := by
  induction calls generalizing s left with
  | nil =>
      refine ⟨(fun e he => by cases he), fun s' hs' => ?_⟩
      cases hs'
      exact ⟨left, rfl, h⟩
  | cons call calls ih =>
      obtain ⟨fuel, out⟩ := call
      obtain ⟨herr, hok⟩ := @read_place C s x8664 kernel hC opts left out fuel h
      rw [reads]
      cases hread : s.read x8664 kernel fuel out with
      | error e =>
          refine ⟨fun e' he' => ?_, fun s' hs' => by cases hs'⟩
          cases he'
          exact herr e hread
      | ok s₁ =>
          obtain ⟨-, left₁, hleft, hplace⟩ := hok s₁ hread
          obtain ⟨herr', hok'⟩ := ih hplace
          refine ⟨herr', fun s' hs' => ?_⟩
          obtain ⟨left', hleft', hplace'⟩ := hok' s' hs'
          exact ⟨left', hleft.trans hleft', hplace'⟩

end

/-- A reader gives no more than its limit in all, and no more of a block than the limit of a
block and than the block declares, whatever the input and the sizes of the reads. A file that is
read to its end under any limits, and has in all and in each block no more than these allow, is
not refused under them: however it is read they make no difference to its bytes, and every read
with room for some gives some up to the end of the file. -/
theorem limits_kept (C : Checks) (x8664 kernel : Bool) (src : Source) (opts : XzOptions)
    (h : src.Sound) :
    (∀ calls s, reads x8664 kernel calls (start src opts : Delivery C) = .ok s →
      (∀ cap ∈ opts.maxUnpackBytes, s.total ≤ cap) ∧ s.block ≤ opts.maxBlockSize ∧
        ∀ d ∈ s.r.dec, ∀ n ∈ d.limits.uncompressedSize, s.block ≤ n) ∧
    (∀ b r d, XzReader.Visits x8664 kernel (.withOptions src opts : XzReader C) b r →
      r.dec = some d → ∃ b₁ r₁ header,
        XzReader.Visits x8664 kernel (.withOptions src opts : XzReader C) b₁ r₁ ∧
          r₁.state = .blockOrIndex ∧ r₁.HeaderAt header ∧ d.limits = r₁.blockLimits header) ∧
    (C.Lawful → ∀ src₁ opts₁ calls₁ s₁, src₁.Sound → src₁.stream = src.stream →
      XzReader.SameBut opts₁ opts →
      reads x8664 kernel calls₁ (start src₁ opts₁ : Delivery C) = .ok s₁ → s₁.r.state = .done →
      (∀ k t, reads x8664 kernel (calls₁.take k) (start src₁ opts₁ : Delivery C) = .ok t →
        t.block ≤ opts.maxBlockSize) →
      (∀ cap ∈ opts.maxUnpackBytes, s₁.total ≤ cap) →
      ∀ calls, (∀ e, reads x8664 kernel calls (start src opts : Delivery C) = .error e →
          e = .fuel) ∧
        ∀ s, reads x8664 kernel calls (start src opts : Delivery C) = .ok s →
          s.out <+: s₁.out ∧ (s.r.state = .done → s.out = s₁.out) ∧
            ∀ fuel out, out ≠ [] → 5 * s.r.left + 5 ≤ fuel → ∃ s',
              s.read x8664 kernel fuel out = .ok s' ∧
                (s.total < s'.total ∨ s'.r.state = .done)) := by
  have hstart : ∀ (src : Source) (opts : XzOptions), (start src opts : Delivery C).Recorded opts :=
    fun src opts => ⟨rfl, fun hd => absurd rfl hd, fun _ => .inr rfl, Nat.zero_le _⟩
  refine ⟨fun calls s hs => ?_, fun b r d hv hd => visits_header h hv hd, ?_⟩
  · obtain ⟨⟨b, -, hk⟩, hr⟩ :=
      reads_recorded x8664 kernel .start (start_kept h opts) (hstart src opts) hs
    refine ⟨fun cap hcap => ?_, hr.bound, fun d hd n hn => ?_⟩
    · rw [hr.total]
      exact hk.total cap (hk.opts ▸ hcap)
    · have hcap := (given_le hk hd).1
      unfold BlockDecoder.cap at hcap
      rw [Option.mem_def.1 hn, ← hr.block (by rw [Option.mem_def.1 hd]; simp)] at hcap
      exact hcap
  · intro hC src₁ opts₁ calls₁ s₁ hsound hstream hopts hs₁ hdone hsmall htotal calls
    obtain ⟨w, hgoes, hout⟩ := reads_goes .start (start_kept hsound opts₁) (hstart src₁ opts₁)
      hsmall hs₁
    obtain ⟨-, hr₁⟩ :=
      reads_recorded x8664 kernel .start (start_kept hsound opts₁) (hstart src₁ opts₁) hs₁
    obtain ⟨hends, -⟩ := hgoes.accepted hdone (fun _ h => h) (start_kept hsound opts₁)
    obtain ⟨hgiven, ws, hacc, rfl, hblocks⟩ := hends (fun hs => by cases hs)
    have hplace : XzReader.Place opts (start src opts : Delivery C).r ws.flatten := by
      refine .outside (show ReaderState.streamHeader ≠ .block by decide) hacc
        ⟨⟨hsound, h, hstream⟩, hopts, rfl, (fun hs => by cases hs), fun hs => by cases hs⟩
        ⟨hblocks, fun cap hcap => ?_⟩ (start_kept h opts)
      have hle := htotal cap hcap
      rw [hr₁.total, ← hgiven] at hle
      exact hle
    obtain ⟨herr, hok⟩ := @reads_place C _ x8664 kernel calls hC opts ws.flatten hplace
    refine ⟨herr, fun s hs => ?_⟩
    obtain ⟨left, hleft, hplace'⟩ := hok s hs
    have hall : s₁.out = s.out ++ left := hout.trans hleft
    refine ⟨⟨left, hall.symm⟩, fun hd => ?_, fun fuel out hne hfuel => ?_⟩
    · rw [hall, hplace'.done hd, List.append_nil]
    · obtain ⟨b, hk⟩ := hplace'.kept
      have hrank : XzReader.rank s.r.state ≤ 4 := by cases s.r.state <;> decide
      obtain ⟨res, hread, hres⟩ := XzReader.readLoop_turned x8664 kernel hk.sound hne rfl
      have hfuel' : s.r.read x8664 kernel fuel out = res :=
        (if_neg hne).trans (hres fuel fuel (by omega) (by omega))
      obtain ⟨herr', hok'⟩ := @read_place C s x8664 kernel hC opts left out fuel hplace'
      cases hcall : s.read x8664 kernel fuel out with
      | ok s' => exact ⟨s', rfl, (hok' s' hcall).1 hne⟩
      | error e =>
          rw [herr' e hcall] at hcall
          unfold read at hcall
          rw [hfuel'] at hcall
          cases res with
          | ok t => cases hcall
          | error e' =>
              cases hcall
              exact absurd rfl hread.fuel

/-- Three reads of a file. -/
def threeReads : List (ℕ × List UInt8) := [(100, [0, 0]), (100, [0, 0]), (100, [0, 0])]

theorem of_toOption {α β : Type} {x : Except α β} {b : β} (h : b ∈ x.toOption) : x = .ok b := by
  cases x with
  | error e => cases h
  | ok b' => exact congrArg Except.ok (Option.some.inj h)

/-- Limits of three bytes, of a block and in all, allow a block of three. -/
theorem limits_kept_at_the_limit :
    ∃ s₁ : Delivery RunningCheck.cutAtOne, s₁.out = [97, 98, 99] ∧
      ∀ calls, (∀ e, reads true true calls (start (.new filteredFile [5, 0, 1])
          ⟨0x4000000, true, false, 3, some 3, true, false⟩ :
            Delivery RunningCheck.cutAtOne) = .error e → e = .fuel) ∧
        ∀ s, reads true true calls (start (.new filteredFile [5, 0, 1])
          ⟨0x4000000, true, false, 3, some 3, true, false⟩ :
            Delivery RunningCheck.cutAtOne) = .ok s → s.r.state = .done → s.out = s₁.out := by
  obtain ⟨first, hfirst⟩ : ∃ first : Delivery RunningCheck.cutAtOne,
    start (.new filteredFile []) small = first := ⟨_, rfl⟩
  have hends : ∃ s₁, reads true true threeReads first = .ok s₁ ∧ s₁.r.state = .done ∧
      s₁.out = [97, 98, 99] ∧ s₁.total = 3 := by
    have hrun : ((reads true true threeReads (start (.new filteredFile []) small :
        Delivery RunningCheck.cutAtOne)).toOption.any fun s =>
          s.r.state = .done ∧ s.out = [97, 98, 99] ∧ s.total = 3) = true := by
      decide +kernel
    rw [hfirst] at hrun
    obtain ⟨s₁, hs₁, hall⟩ := Option.any_eq_true _ _ |>.1 hrun
    exact ⟨s₁, of_toOption hs₁, of_decide_eq_true hall⟩
  have hsmall : ∀ k t, reads true true (threeReads.take k) first = .ok t → t.block ≤ 3 := by
    have hruns : ∀ k < 4, (reads true true (threeReads.take k) (start (.new filteredFile [])
        small : Delivery RunningCheck.cutAtOne)).toOption.all (·.block ≤ 3) = true := by
      decide +kernel
    rw [hfirst] at hruns
    intro k t ht
    have hk := hruns (min k 3) (by omega)
    rw [← show threeReads.take k = threeReads.take (min k 3) from List.take_eq_take_min, ht] at hk
    exact of_decide_eq_true hk
  obtain ⟨s₁, hs₁, hdone, hout, htotal⟩ := hends
  refine ⟨s₁, hout, fun calls => ?_⟩
  subst hfirst
  obtain ⟨herr, hok⟩ := (limits_kept RunningCheck.cutAtOne true true (.new filteredFile [5, 0, 1])
    ⟨0x4000000, true, false, 3, some 3, true, false⟩ (fun h => by cases h)).2.2
      RunningCheck.cutAtOne_lawful (.new filteredFile []) small threeReads s₁
      (fun h => by cases h) rfl ⟨rfl, rfl, rfl, rfl, rfl⟩ hs₁ hdone hsmall
      (fun cap hcap => by cases hcap; exact htotal.le) calls
  exact ⟨herr, fun s hs => (hok s hs).2.1⟩

end Delivery
end LzmaTurbo.Xz
