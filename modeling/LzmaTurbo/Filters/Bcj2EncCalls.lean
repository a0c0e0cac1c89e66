import LzmaTurbo.Filters.Bcj2EncBounds

/-!
# Calls of the BCJ2 encoder
-/
namespace LzmaTurbo.Filters.Bcj2Enc
open Supplies

/-- What one call is given: more of the source, whether that is the last of it, and a room
for each stream. -/
structure EncCall where
  src : List UInt8
  last : Bool
  main : ℕ
  call : ℕ
  jump : ℕ
  rc : ℕ
deriving Repr, DecidableEq

namespace EncCall

def finishMode (c : EncCall) : Bcj2EncFinishMode := if c.last then .endStream else .continue

/-- The windows of the call, behind what has been written before. -/
def windows (c : EncCall) (out : Bcj2EncOut) : Bcj2EncOut :=
  ⟨⟨out.main.written, c.main⟩, ⟨out.call.written, c.call⟩, ⟨out.jump.written, c.jump⟩,
    ⟨out.rc.written, c.rc⟩⟩

def piece (c : EncCall) : EncPiece := ⟨c.src, c.last⟩

end EncCall

/-- No source follows the last of it. -/
def InOrder : Bool → List EncCall → Prop
  | _, [] => True
  | ended, c :: cs => (ended = true → c.src = [] ∧ c.last = true) ∧ InOrder c.last cs

/-- A call offered what the one before has left of the source, and more of it. -/
def encodeCall (r : Bcj2Enc × Bcj2EncOut × List UInt8) (c : EncCall) :
    Bcj2Enc × Bcj2EncOut × List UInt8 :=
  encode { r.1 with finishMode := c.finishMode } (c.windows r.2.1) (r.2.2 ++ c.src)

def encodeCalls (r : Bcj2Enc × Bcj2EncOut × List UInt8) (cs : List EncCall) :
    Bcj2Enc × Bcj2EncOut × List UInt8 :=
  cs.foldl encodeCall r

/-- What a machine has left and has written when an encoder has made its calls. -/
def left (ended : Bool) (r : Bcj2Enc × Bcj2EncOut × List UInt8) : EncMicro × EncSupply :=
  (r.1.abs, flow r.2.1 (r.1.temp ++ r.2.2) ended)

theorem flow_more {out : Bcj2EncOut} {src : List UInt8} {ended : Bool} {c : EncCall}
    (h : ended = true → c.src = [] ∧ c.last = true) :
    encMore (flow out src ended) c.piece = flow (c.windows out) (src ++ c.src) c.last := by
  cases ended with
  | false => rfl
  | true =>
      obtain ⟨hsrc, hlast⟩ := h rfl
      simp only [encMore, flow, EncCall.piece, EncCall.windows, hsrc, hlast, if_true,
        Bool.true_or, List.append_nil]

theorem encodeCall_steps {ended : Bool} {r : Bcj2Enc × Bcj2EncOut × List UInt8} {c : EncCall}
    (hgood : Good r.1) (h : ended = true → c.src = [] ∧ c.last = true) :
    encMachine.Steps (r.1.abs, encMore (left ended r).2 c.piece) (left c.last (encodeCall r c)) ∧
      Good (encodeCall r c).1 := by
  have hholds := @encode_holds { r.1 with finishMode := c.finishMode } c.last
    ⟨hgood.probs, hgood.range, hgood.owes⟩ rfl (c.windows r.2.1) (r.2.2 ++ c.src)
  have hmore := @flow_more r.2.1 (r.1.temp ++ r.2.2) ended c h
  rw [List.append_assoc] at hmore
  exact ⟨by rw [left, hmore]; exact hholds.1, hholds.2⟩

/-- Whether the source has ended with the calls. -/
def endsWith (ended : Bool) (cs : List EncCall) : Bool := cs.foldl (fun _ c => c.last) ended

theorem encodeCalls_steps {ended : Bool} {r : Bcj2Enc × Bcj2EncOut × List UInt8}
    {cs : List EncCall} (hgood : Good r.1) (h : InOrder ended cs) :
    encMachine.Steps (r.1.abs, (cs.map EncCall.piece).foldl encMore (left ended r).2)
        (left (endsWith ended cs) (encodeCalls r cs)) ∧
      Good (encodeCalls r cs).1 := by
  induction cs generalizing ended r with
  | nil => exact ⟨.refl, hgood⟩
  | cons c cs ih =>
      obtain ⟨hsteps, hgood'⟩ := encodeCall_steps hgood h.1
      obtain ⟨hrest, hgood''⟩ := ih hgood' h.2
      exact ⟨(hsteps.mores (cs.map EncCall.piece)).trans hrest, hgood''⟩

/-- All of the source, in the order in which the calls are given it. -/
def sourceOf (cs : List EncCall) : List UInt8 := cs.flatMap EncCall.src

theorem pieces_flow {ended : Bool} {cs : List EncCall} (h : InOrder ended cs)
    (out : Bcj2EncOut) (src : List UInt8) :
    (cs.map EncCall.piece).foldl encMore (flow out src ended) =
      flow out (src ++ sourceOf cs) (endsWith ended cs) := by
  induction cs generalizing ended out src with
  | nil =>
      change flow out src ended = flow out (src ++ []) ended
      rw [List.append_nil]
  | cons c cs ih =>
      change (cs.map EncCall.piece).foldl encMore (encMore (flow out src ended) c.piece) =
        flow out (src ++ (c.src ++ sourceOf cs)) (endsWith c.last cs)
      rw [flow_more h.1, ih h.2, List.append_assoc]
      rfl

theorem inOrder_append {ended : Bool} {done rest : List EncCall}
    (h : InOrder ended (done ++ rest)) :
    InOrder ended done ∧ InOrder (endsWith ended done) rest ∧
      sourceOf (done ++ rest) = sourceOf done ++ sourceOf rest := by
  induction done generalizing ended with
  | nil => exact ⟨trivial, h, rfl⟩
  | cons c done ih =>
      obtain ⟨hdone, hrest, hsource⟩ := ih h.2
      refine ⟨⟨h.1, hdone⟩, hrest, ?_⟩
      change c.src ++ sourceOf (done ++ rest) = c.src ++ sourceOf done ++ sourceOf rest
      rw [hsource, List.append_assoc]

/-- `Bcj2Streams`. -/
structure Bcj2Streams where
  main : List UInt8
  call : List UInt8
  jump : List UInt8
  rc : List UInt8
deriving Repr, DecidableEq

/-- Each stream of `s` begins that of `t`. -/
structure Bcj2Streams.Begins (s t : Bcj2Streams) : Prop where
  main : s.main <+: t.main
  call : s.call <+: t.call
  jump : s.jump <+: t.jump
  rc : s.rc <+: t.rc

def EncSupply.streams (x : EncSupply) : Bcj2Streams := ⟨x.main, x.call, x.jump, x.rc⟩

def written (out : Bcj2EncOut) : Bcj2Streams :=
  ⟨out.main.written, out.call.written, out.jump.written, out.rc.written⟩

theorem Bcj2Streams.Begins.refl (s : Bcj2Streams) : s.Begins s :=
  ⟨List.prefix_rfl, List.prefix_rfl, List.prefix_rfl, List.prefix_rfl⟩

theorem Bcj2Streams.Begins.trans {s t u : Bcj2Streams} (h : s.Begins t) (h' : t.Begins u) :
    s.Begins u :=
  ⟨h.main.trans h'.main, h.call.trans h'.call, h.jump.trans h'.jump, h.rc.trans h'.rc⟩

theorem shiftPhase_begins (after : Bcj2Enc → Bcj2Enc) (m : EncMicro) (x : EncSupply) :
    x.streams.Begins (shiftPhase after m x).2.streams ∧ (shiftPhase after m x).2.src = x.src ∧
      (shiftPhase after m x).1.phase = m.phase := by
  refine ⟨⟨List.prefix_rfl, List.prefix_rfl, List.prefix_rfl, ?_⟩, rfl, rfl⟩
  change x.rc <+: (shiftStep m.core x.rc).2.2
  unfold shiftStep
  split
  · split
    · exact List.prefix_rfl
    · exact List.prefix_append _ _
  · exact List.prefix_rfl

theorem take_begins (x : EncSupply) (b : UInt8) (rest : List UInt8) :
    x.streams.Begins (x.take b rest).streams :=
  ⟨List.prefix_append _ _, List.prefix_rfl, List.prefix_rfl, List.prefix_rfl⟩

theorem markerStep_begins {core : Bcj2Enc} {v : UInt32} {b : UInt8} {rest : List UInt8}
    {m' : EncMicro} {x x' : EncSupply} (h : markerStep core v b rest x = some (m', x')) :
    x.streams.Begins x'.streams ∧ m'.phase ≠ .flush := by
  unfold markerStep at h
  split at h
  · dsimp only at h
    split at h <;> cases h <;> exact ⟨take_begins .., fun hp => by cases hp⟩
  · split at h <;> cases h
    exact ⟨take_begins .., fun hp => by cases hp⟩

/-- The streams only grow, and the flush comes when the source is used up. -/
theorem encStep_begins {m m' : EncMicro} {x x' : EncSupply} (h : encStep m x = some (m', x')) :
    x.streams.Begins x'.streams ∧
      ((m.phase = .flush → x.src = []) → m'.phase = .flush → x'.src = []) := by
  unfold encStep at h
  split at h
  next hp =>
    split at h
    · cases h
      obtain ⟨hbegins, hsrc, -⟩ :=
        shiftPhase_begins (fun e => { e with range := e.range * 256 }) m x
      exact ⟨hbegins, fun _ hp' => by cases hp.symm.trans hp'⟩
    · unfold copyStep at h
      split at h
      next hsrc =>
        split at h <;> cases h
        exact ⟨.refl _, fun _ _ => hsrc⟩
      · dsimp only at h
        split at h
        · obtain ⟨hbegins, hp'⟩ := markerStep_begins h
          exact ⟨hbegins, fun _ hf => absurd hf hp'⟩
        · cases h
          exact ⟨take_begins .., fun _ hp => by cases hp⟩
  next cj absol hp =>
    cases h
    refine ⟨?_, fun _ hp => by cases hp⟩
    unfold EncSupply.putTarget
    dsimp only
    split
    · exact ⟨List.prefix_rfl, List.prefix_append _ _, List.prefix_rfl, List.prefix_rfl⟩
    · exact ⟨List.prefix_rfl, List.prefix_rfl, List.prefix_append _ _, List.prefix_rfl⟩
  next hp =>
    split at h
    · cases h
    · cases h
      obtain ⟨hbegins, hsrc, -⟩ :=
        shiftPhase_begins (fun e => { e with flushRem := e.flushRem - 1 }) m x
      exact ⟨hbegins, fun hflush _ => hsrc.trans (hflush hp)⟩

theorem encSteps_begins {a b : EncMicro × EncSupply} (h : encMachine.Steps a b) :
    a.2.streams.Begins b.2.streams ∧
      ((a.1.phase = .flush → a.2.src = []) → b.1.phase = .flush → b.2.src = []) := by
  induction h with
  | refl => exact ⟨.refl _, fun h => h⟩
  | tail _ hstep ih =>
      obtain ⟨hbegins, hflush⟩ := encStep_begins hstep
      exact ⟨ih.1.trans hbegins, fun h => hflush (ih.2 h)⟩

/-- Before the first call. -/
def encStart (ip fileIp fileSizeMinus1 : UInt64) (relatLimit : UInt32) :
    Bcj2Enc × Bcj2EncOut × List UInt8 :=
  (new ip fileIp fileSizeMinus1 relatLimit, ⟨⟨[], 0⟩, ⟨[], 0⟩, ⟨[], 0⟩, ⟨[], 0⟩⟩, [])

theorem encStart_good (ip fileIp fileSizeMinus1 : UInt64) (relatLimit : UInt32) :
    Good (encStart ip fileIp fileSizeMinus1 relatLimit).1 :=
  ⟨fun _ => half_stays,
    by show 0x10000 ≤ 0xFFFFFFFF; decide, fun _ => by show (5 : ℕ) ≠ 0; decide⟩

theorem finished_blocked {e : Bcj2Enc} (hgood : Good e) (h : e.isFinished = true)
    (x : EncSupply) : encMachine.Blocked (e.abs, x) ∧ e.abs.phase = .flush := by
  have hrem : e.flushRem = 0 := eq_of_beq h
  have hflush : e.isFlushState = true := by
    by_contra hf
    exact hgood.owes (Bool.not_eq_true _ ▸ hf) hrem
  have habs : e.abs = ⟨.flush, e.bare⟩ := by
    unfold abs
    rw [if_pos hflush]
  rw [habs]
  refine ⟨?_, rfl⟩
  change (if e.flushRem = 0 then none else _) = none
  exact if_pos hrem

theorem pieces_streams (es : List EncPiece) (x : EncSupply) :
    (es.foldl encMore x).streams = x.streams := by
  induction es generalizing x with
  | nil => rfl
  | cons e es ih => exact ih (encMore x e)

/-- One call on the whole source, with room for all that the encoder can write. -/
def wholeCall (src : List UInt8) : EncCall :=
  ⟨src, true, src.length + 8, src.length + 8, src.length + 8, src.length + 8⟩

theorem encStart_within (ip fileIp fileSizeMinus1 : UInt64) (relatLimit : UInt32)
    (out : Bcj2EncOut) (src : List UInt8) (hout : written out = ⟨[], [], [], []⟩) :
    Within src.length (encStart ip fileIp fileSizeMinus1 relatLimit).1.abs
      (flow out src true) := by
  obtain ⟨hmain, hcall, hjump, hrc⟩ := Bcj2Streams.mk.inj hout
  refine ⟨(encStart_good ip fileIp fileSizeMinus1 relatLimit).probs,
    (encStart_good ip fileIp fileSizeMinus1 relatLimit).range, ?_, ?_⟩
  · change out.main.written.length + out.call.written.length + out.jump.written.length +
      src.length + 0 ≤ src.length
    rw [hmain, hcall, hjump]
    simp
  · change out.rc.written.length + 1 + 5 + 0 ≤ 6 + out.main.written.length
    rw [hmain, hrc]
    simp

theorem wholeCall_finished (ip fileIp fileSizeMinus1 : UInt64) (relatLimit : UInt32)
    (src : List UInt8) :
    (encodeCall (encStart ip fileIp fileSizeMinus1 relatLimit) (wholeCall src)).1.isFinished =
      true := by
  have hgood : Good { (encStart ip fileIp fileSizeMinus1 relatLimit).1 with
      finishMode := (wholeCall src).finishMode } := by
    have h := encStart_good ip fileIp fileSizeMinus1 relatLimit
    exact ⟨h.probs, h.range, h.owes⟩
  have hholds := @encode_holds _ true hgood rfl
    ((wholeCall src).windows (encStart ip fileIp fileSizeMinus1 relatLimit).2.1) ([] ++ src)
  have hsizes := encode_sizes { (encStart ip fileIp fileSizeMinus1 relatLimit).1 with
      finishMode := (wholeCall src).finishMode }
    ((wholeCall src).windows (encStart ip fileIp fileSizeMinus1 relatLimit).2.1) ([] ++ src)
  have hstopped := @encode_stopped _ true hgood rfl
    ((wholeCall src).windows (encStart ip fileIp fileSizeMinus1 relatLimit).2.1) ([] ++ src)
  have hwithin := encSteps_within hholds.1
    (encStart_within ip fileIp fileSizeMinus1 relatLimit _ src rfl)
  generalize hr : encode _ _ ([] ++ src) = r at hwithin hsizes hstopped
  have hcall : encodeCall (encStart ip fileIp fileSizeMinus1 relatLimit) (wholeCall src) = r := hr
  rw [hcall]
  have hspent : r.2.1.main.written.length + r.2.1.call.written.length +
      r.2.1.jump.written.length + (r.1.temp ++ r.2.2).length + _ ≤ src.length := hwithin.spent
  have howed : r.2.1.rc.written.length + _ + _ + _ ≤ 6 + r.2.1.main.written.length :=
    hwithin.owed
  obtain ⟨hmain, hcalls, hjump, hrc⟩ := hsizes
  change r.2.1.main.written.length + r.2.1.main.room = 0 + (src.length + 8) at hmain
  change r.2.1.call.written.length + r.2.1.call.room = 0 + (src.length + 8) at hcalls
  change r.2.1.jump.written.length + r.2.1.jump.room = 0 + (src.length + 8) at hjump
  change r.2.1.rc.written.length + r.2.1.rc.room = 0 + (src.length + 8) at hrc
  rcases hstopped with hfin | ⟨i, -, hfull⟩ | ⟨-, hopen⟩
  · exact hfin
  · exfalso
    unfold isFull at hfull
    split at hfull
    · omega
    · split at hfull
      · omega
      · have hroom : ¬4 ≤ (r.2.1.side i).room := of_decide_eq_false hfull
        unfold Bcj2EncOut.side at hroom
        split at hroom <;> omega
  · cases hopen

/-- An encoder that has been given all of the source has finished or has a full window. -/
theorem encodeCalls_stopped {start : Bcj2Enc × Bcj2EncOut × List UInt8} (hgood : Good start.1)
    {cs : List EncCall} (horder : InOrder false cs) (hends : endsWith false cs = true) :
    (encodeCalls start cs).1.isFinished = true ∨
      ∃ i, (encodeCalls start cs).1.fullStream = some i ∧ isFull (encodeCalls start cs).2.1 i := by
  rcases List.eq_nil_or_concat cs with rfl | ⟨done, c, rfl⟩
  · cases hends
  · rw [List.concat_eq_append] at horder hends ⊢
    obtain ⟨hdone, -, -⟩ := inOrder_append horder
    have hgood' := (encodeCalls_steps hgood hdone).2
    have hlast : c.last = true := by
      unfold endsWith at hends
      rwa [List.foldl_append] at hends
    have hmode : c.finishMode = .endStream := if_pos hlast
    have hstopped := @encode_stopped
      { (encodeCalls start done).1 with finishMode := c.finishMode } true
      ⟨hgood'.probs, hgood'.range, hgood'.owes⟩ hmode
      (c.windows (encodeCalls start done).2.1) ((encodeCalls start done).2.2 ++ c.src)
    have hcalls : encodeCalls start (done ++ [c]) = encodeCall (encodeCalls start done) c := by
      unfold encodeCalls
      rw [List.foldl_append]
      rfl
    rw [hcalls]
    rcases hstopped with hfin | hfull | ⟨-, hopen⟩
    · exact .inl hfin
    · exact .inr hfull
    · cases hopen

/-- One call on all of the source is a run of the machine to its end. -/
theorem wholeCall_stops (ip fileIp fileSizeMinus1 : UInt64) (relatLimit : UInt32)
    (src : List UInt8) :
    encMachine.Stops
      ((encStart ip fileIp fileSizeMinus1 relatLimit).1.abs,
        flow (encStart ip fileIp fileSizeMinus1 relatLimit).2.1 src true)
      (left true (encodeCall (encStart ip fileIp fileSizeMinus1 relatLimit) (wholeCall src))) := by
  have hopen (h : false = true) : (wholeCall src).src = [] ∧ (wholeCall src).last = true := by
    cases h
  obtain ⟨hsteps, hgood⟩ := @encodeCall_steps false
    (encStart ip fileIp fileSizeMinus1 relatLimit) (wholeCall src)
    (encStart_good ip fileIp fileSizeMinus1 relatLimit) hopen
  rw [left, flow_more hopen] at hsteps
  exact ⟨hsteps, (finished_blocked hgood
    (wholeCall_finished ip fileIp fileSizeMinus1 relatLimit src) _).1⟩

/-- The encoder's law: however the source is split and whatever the windows, what has been
written begins what one call on all of the source writes, and is that when the encoder has
finished; nothing is then left. -/
theorem encodeCalls_whole (ip fileIp fileSizeMinus1 : UInt64) (relatLimit : UInt32)
    {cs : List EncCall} (horder : InOrder false cs) :
    (∀ done rest, cs = done ++ rest →
        (written (encodeCalls (encStart ip fileIp fileSizeMinus1 relatLimit) done).2.1).Begins
          (written (encodeCall (encStart ip fileIp fileSizeMinus1 relatLimit)
            (wholeCall (sourceOf cs))).2.1)) ∧
      ((encodeCalls (encStart ip fileIp fileSizeMinus1 relatLimit) cs).1.isFinished = true →
        written (encodeCalls (encStart ip fileIp fileSizeMinus1 relatLimit) cs).2.1 =
            written (encodeCall (encStart ip fileIp fileSizeMinus1 relatLimit)
              (wholeCall (sourceOf cs))).2.1 ∧
          (encodeCalls (encStart ip fileIp fileSizeMinus1 relatLimit) cs).1.temp = [] ∧
          (encodeCalls (encStart ip fileIp fileSizeMinus1 relatLimit) cs).2.2 = []) := by
  have hwhole : encMachine.Stops
      ((encStart ip fileIp fileSizeMinus1 relatLimit).1.abs,
        flow (encStart ip fileIp fileSizeMinus1 relatLimit).2.1 (wholeCall (sourceOf cs)).src true)
      (left true (encodeCall (encStart ip fileIp fileSizeMinus1 relatLimit)
        (wholeCall (sourceOf cs)))) :=
    wholeCall_stops ip fileIp fileSizeMinus1 relatLimit (sourceOf cs)
  have hsrc : (wholeCall (sourceOf cs)).src = sourceOf cs := rfl
  generalize wholeCall (sourceOf cs) = whole at *
  generalize hstart : encStart ip fileIp fileSizeMinus1 relatLimit = start at *
  have hgood : Good start.1 := hstart ▸ encStart_good ..
  have hempty : start.1.temp ++ start.2.2 = [] := by
    rw [← hstart]
    rfl
  have hphase : start.1.abs.phase = .loop := by
    rw [← hstart]
    rfl
  -- What a part of the calls does, with all of the source there.
  have hpart (done rest : List EncCall) (h : cs = done ++ rest) :
      encMachine.Steps (start.1.abs, flow start.2.1 whole.src true)
          ((encodeCalls start done).1.abs, encMore ((rest.map EncCall.piece).foldl encMore
            (left (endsWith false done) (encodeCalls start done)).2) ⟨[], true⟩) ∧
        Good (encodeCalls start done).1 := by
    rw [h] at horder hsrc
    obtain ⟨hdone, hrest, hsource⟩ := inOrder_append horder
    obtain ⟨hsteps, hgood'⟩ := encodeCalls_steps hgood hdone
    have hmore := (hsteps.mores (rest.map EncCall.piece)).more ⟨[], true⟩
    rw [left, hempty, pieces_flow hdone, List.nil_append] at hmore
    change encMachine.Steps (_, encMore ((rest.map EncCall.piece).foldl encMore _) _) _ at hmore
    rw [pieces_flow hrest, ← hsource, ← hsrc] at hmore
    have hend (ended : Bool) : encMore (flow start.2.1 whole.src ended) ⟨[], true⟩ =
        flow start.2.1 whole.src true := by
      cases ended <;> simp [encMore, flow]
    rw [hend] at hmore
    exact ⟨hmore, hgood'⟩
  refine ⟨fun done rest h => ?_, fun hdone => ?_⟩
  · have hbegins := (encSteps_begins (hwhole.after (hpart done rest h).1).1).1
    change (encMore _ _).streams.Begins _ at hbegins
    have hkeep (x : EncSupply) : (encMore x ⟨[], true⟩).streams = x.streams := rfl
    rw [hkeep, pieces_streams] at hbegins
    exact hbegins
  · obtain ⟨hsteps, hgood'⟩ := hpart cs [] (List.append_nil _).symm
    obtain ⟨hblocked, hflush⟩ := finished_blocked hgood' hdone
      (encMore (left (endsWith false cs) (encodeCalls start cs)).2 ⟨[], true⟩)
    have hsame := Machine.Stops.unique ⟨hsteps, hblocked⟩ hwhole
    have hstreams := congrArg (fun a => a.2.streams) hsame
    refine ⟨hstreams, ?_⟩
    have hused := (encSteps_begins (encodeCalls_steps hgood horder).1).2
      (fun h => by cases hphase.symm.trans h) hflush
    exact List.append_eq_nil_iff.1 hused

end LzmaTurbo.Filters.Bcj2Enc
