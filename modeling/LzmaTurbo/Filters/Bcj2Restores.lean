import LzmaTurbo.Filters.Bcj2Mirror
import LzmaTurbo.Filters.Bcj2EncCalls

/-!
# What the BCJ2 encoder writes restores its source

A turn of the encoder takes a byte, or a marker with the target behind it, and what it
writes for that takes a decoder that stands where the encoder does to where the encoder
stands next. The end of the encoder is where the decoder has nothing left.
-/
namespace LzmaTurbo.Filters
open Supplies
open Bcj2Enc (Between EncMicro EncSupply Bcj2Streams SameBit encMachine encStep copyStep
  markerStep getLe32)
open Bcj2Dec (coder machine)
open ExactCoder (Op Exact value)

/-- The decoder stands where the encoder does. -/
structure Mirrors (core : Bcj2Enc) (e : Exact ℕ) (xs : List UInt8) (v : UInt32) (d : Bcj2Dec)
    (rc : List UInt8) : Prop where
  reads : e.Reads xs d.coder rc
  ip : d.ip = core.ip64.toUInt32
  last : v <<< 24 = core.context.toUInt32 <<< 24

/-- The encoder takes `bs` from its source and writes `m`, `cs` and `js` for it, and the
decoder takes these and writes `bs`. -/
structure Leads (core : Bcj2Enc) (x : EncSupply) (e : Exact ℕ) (core' : Bcj2Enc) (x' : EncSupply)
    (e' : Exact ℕ) (m cs js bs : List UInt8) : Prop where
  steps : encMachine.Steps (⟨.loop, core⟩, x) (⟨.loop, core'⟩, x')
  main : x'.main = x.main ++ m
  call : x'.call = x.call ++ cs
  jump : x'.jump = x.jump ++ js
  src : x.src = bs ++ x'.src
  lengths : m.length + cs.length + js.length = bs.length
  words : cs.length % 4 = 0 ∧ js.length % 4 = 0
  holds : ∀ xs, e'.Holds xs → e.Holds xs
  mirrors : ∀ xs v d rc, e'.Holds xs → Mirrors core e xs v d rc → ∃ v' d' rc',
    Mirrors core' e' xs v' d' rc' ∧
      ∀ (main call jump : List UInt8) (room : ℕ) (dest : List UInt8), bs.length ≤ room →
        machine.Steps (⟨.scan, v, d⟩, ⟨m ++ main, cs ++ call, js ++ jump, rc, room, dest⟩)
          (⟨.scan, v', d'⟩, ⟨main, call, jump, rc', room - bs.length, dest ++ bs⟩)

section
variable {core : Bcj2Enc} {x : EncSupply} {e : Exact ℕ} {b : UInt8} {rest : List UInt8}

theorem Bcj2Enc.Between.copies (h : Between core x e) :
    encStep ⟨.loop, core⟩ x = copyStep ⟨.loop, core⟩ x := by
  have hwide : ¬core.range < bcj2TopValue := by
    have hge := h.ok.range_ge
    rw [h.range] at hge
    exact Nat.not_lt.2 hge
  exact if_neg hwide

theorem Bcj2Enc.Between.marker (h : Between core x e) (hsrc : x.src = b :: rest)
    (hm : isMarker core.context.toUInt32 b = true) :
    encStep ⟨.loop, core⟩ x = markerStep { core with ip64 := core.ip64 + 1 }
      (rolled core.context.toUInt32 b) b rest x := by
  rw [h.copies]
  simp only [copyStep, hsrc, hm, if_true]

/-- A byte outside markers. -/
theorem plain_leads (h : Between core x e) (hsrc : x.src = b :: rest)
    (hm : isMarker core.context.toUInt32 b = false) :
    Leads core x e { core with ip64 := core.ip64 + 1, context := b } (x.take b rest) e
        [b] [] [] [b] ∧
      Between { core with ip64 := core.ip64 + 1, context := b } (x.take b rest) e := by
  refine ⟨⟨.one (h.copies.trans ?_), rfl, (List.append_nil _).symm, (List.append_nil _).symm,
    hsrc, rfl, ⟨rfl, rfl⟩, fun _ h => h, fun xs v d rc _ hmirror => ?_⟩,
    ⟨⟨h.carry.waits, h.carry.pending⟩, h.ok, h.range, h.probs, h.owes, h.ended⟩⟩
  · simp only [copyStep, hsrc, hm]
    rfl
  · refine ⟨rolled v b, { d with ip := d.ip + 1 }, rc, ⟨hmirror.reads, ?_, rolled_last v b⟩,
      fun main call jump room dest hroom => .one ?_⟩
    · change d.ip + 1 = (core.ip64 + 1).toUInt32
      rw [hmirror.ip, UInt64.toUInt32_add]
      rfl
    · have hv : ¬isMarker v b = true := by
        rw [isMarker_of_last hmirror.last, hm]
        exact Bool.false_ne_true
      have hroom' : room ≠ 0 := by
        rw [List.length_singleton] at hroom
        omega
      refine (Bcj2Dec.scanStep_take (m := ⟨.scan, v, d⟩)
        (s := ⟨b :: main, call, jump, rc, room, dest⟩) rfl hroom').trans ?_
      rw [if_neg hv]
      rfl

/-- What a marker leads to when the source has ended. -/
theorem markerStep_cases (core : Bcj2Enc) (v : UInt32) (b : UInt8) (rest : List UInt8)
    (hended : x.ended = true) :
    markerStep core v b rest x =
        some (⟨.loop, { core.encodeBit v false with context := b }⟩, x.take b rest) ∨
      ∃ a₀ a₁ a₂ a₃ rest', rest = a₀ :: a₁ :: a₂ :: a₃ :: rest' ∧
        markerStep core v b rest x =
          some (⟨.target (branchStream v) ((core.ip64 + 4).toUInt32 + getLe32 a₀ a₁ a₂ a₃),
            { core.encodeBit v true with
              ip64 := core.ip64 + 4
              context := (getLe32 a₀ a₁ a₂ a₃ >>> 24).toUInt8 }⟩, x.take b rest') := by
  unfold markerStep
  split
  next a₀ a₁ a₂ a₃ rest' =>
    dsimp only
    split
    · exact .inr ⟨a₀, a₁, a₂, a₃, rest', rfl, rfl⟩
    · exact .inl rfl
  next =>
    rw [if_pos hended]
    exact .inl rfl

/-- The decoder's step over a marker. -/
theorem decided_step {v : UInt32} {d : Bcj2Dec} (hm : isMarker v b = true)
    (main call jump rc : List UInt8) {room : ℕ} (hroom : room ≠ 0) (dest : List UInt8) :
    machine.step ⟨.scan, v, d⟩ ⟨b :: main, call, jump, rc, room, dest⟩ =
      some (Bcj2Dec.decided { d with ip := d.ip + 1 } (rolled v b),
        ⟨main, call, jump, rc, room - 1, dest ++ [b]⟩) := by
  refine (Bcj2Dec.scanStep_take (m := ⟨.scan, v, d⟩)
    (s := ⟨b :: main, call, jump, rc, room, dest⟩) rfl hroom).trans ?_
  rw [if_pos hm]
  rfl

/-- A marker that is left as it is. -/
theorem kept_leads (h : Between core x e) (hsrc : x.src = b :: rest)
    (hm : isMarker core.context.toUInt32 b = true)
    (hkept : markerStep { core with ip64 := core.ip64 + 1 } (rolled core.context.toUInt32 b) b
      rest x = some (⟨.loop, { Bcj2Enc.encodeBit { core with ip64 := core.ip64 + 1 }
        (rolled core.context.toUInt32 b) false with context := b }⟩, x.take b rest)) :
    ∃ core' x' e', Leads core x e core' x' e' [b] [] [] [b] ∧ Between core' x' e' := by
  have hsame : SameBit core { Bcj2Enc.encodeBit { core with ip64 := core.ip64 + 1 }
      (rolled core.context.toUInt32 b) false with context := b }
      (rolled core.context.toUInt32 b) false := rfl
  obtain ⟨core', rc', hsteps, hbetween, hip, hcontext⟩ :=
    h.bit hsame (x.take b rest) rfl h.ended
  refine ⟨core', _, _, ⟨.head ((h.marker hsrc hm).trans hkept) hsteps, rfl, (List.append_nil _).symm,
    (List.append_nil _).symm, hsrc, rfl, ⟨rfl, rfl⟩,
    fun xs hxs => hxs.of_widen.of_narrow h.ok, fun xs v d rc hxs hmirror => ?_⟩, hbetween⟩
  have hroll := rolled_of_last hmirror.last b
  obtain ⟨hbit, hreads, hip'⟩ := Bcj2Dec.bit_reads (d := { d with ip := d.ip + 1 })
    hmirror.reads hxs.of_widen
  obtain ⟨d', rc'', htop, hreads', hip''⟩ := Bcj2Dec.top_steps hreads hxs
  refine ⟨rolled v b, d', rc'', ⟨hreads', ?_, ?_⟩, fun main call jump room dest hroom => ?_⟩
  · rw [hip'', hip', hip]
    change d.ip + 1 = (core.ip64 + 1).toUInt32
    rw [hmirror.ip, UInt64.toUInt32_add]
    rfl
  · rw [rolled_last, hcontext]
  · have hroom' : room ≠ 0 := by
      rw [List.length_singleton] at hroom
      omega
    have hstep' := decided_step (d := d) ((isMarker_of_last hmirror.last b).trans hm) main call
      jump rc hroom' dest
    have hdecided : Bcj2Dec.decided { d with ip := d.ip + 1 } (rolled v b) =
        ⟨.top, rolled v b, (Bcj2Dec.decodeBit { d with ip := d.ip + 1 } (rolled v b)).2⟩ := by
      unfold Bcj2Dec.decided
      rw [hroll, hbit]
      rfl
    rw [hdecided, hroll] at hstep'
    rw [hroll]
    exact .head hstep' (htop _ main call jump (room - 1) (dest ++ [b]))

/-- The bytes of a target, as `set_be32` writes them. -/
def targetBytes (v : UInt32) : List UInt8 :=
  [(v >>> 24).toUInt8, (v >>> 16).toUInt8, (v >>> 8).toUInt8, v.toUInt8]

@[simp] theorem targetBytes_length (v : UInt32) : (targetBytes v).length = 4 := rfl

/-- A target from the stream that it was put into. -/
theorem sent_steps (d : Bcj2Dec) (cj : ℕ) {relat absol : UInt32}
    (habsol : absol = d.ip + 4 + relat) (main call jump rc : List UInt8) {room : ℕ}
    (hroom : 4 ≤ room) (dest : List UInt8) :
    machine.Steps (⟨.target cj, 0, d⟩, ⟨main,
        (if cj = streamCall then targetBytes absol else []) ++ call,
        (if cj = streamCall then [] else targetBytes absol) ++ jump, rc, room, dest⟩)
      (⟨.top, relat >>> 24, { d with ip := d.ip + 4 }⟩, ⟨main, call, jump, rc, room - 4, dest ++
        [relat.toUInt8, (relat >>> 8).toUInt8, (relat >>> 16).toUInt8,
          (relat >>> 24).toUInt8]⟩) := by
  have hwhole (s : Bcj2DecStreams) : Bcj2Dec.putWhole relat s = { s with
      room := s.room - 4
      dest := s.dest ++ [relat.toUInt8, (relat >>> 8).toUInt8, (relat >>> 16).toUInt8,
        (relat >>> 24).toUInt8] } := by
    simp only [Bcj2Dec.putWhole, Bcj2DecStreams.put, Nat.sub_sub, List.append_assoc]
    rfl
  by_cases hcall : cj = streamCall
  · have hsteps := Bcj2Dec.target_steps d cj relat 0 call
      (s := ⟨main, targetBytes absol ++ call, jump, rc, room, dest⟩) habsol
      (by unfold Bcj2DecStreams.side; rw [if_pos hcall]; rfl) hroom
    rw [hwhole] at hsteps
    unfold Bcj2DecStreams.setSide at hsteps
    simp only [if_pos hcall] at hsteps ⊢
    exact hsteps
  · have hsteps := Bcj2Dec.target_steps d cj relat 0 jump
      (s := ⟨main, call, targetBytes absol ++ jump, rc, room, dest⟩) habsol
      (by unfold Bcj2DecStreams.side; rw [if_neg hcall]; rfl) hroom
    rw [hwhole] at hsteps
    unfold Bcj2DecStreams.setSide at hsteps
    simp only [if_neg hcall] at hsteps ⊢
    exact hsteps

/-- A marker whose target is converted. -/
theorem converted_leads (h : Between core x e) {a₀ a₁ a₂ a₃ : UInt8} {rest' : List UInt8}
    (hsrc : x.src = b :: a₀ :: a₁ :: a₂ :: a₃ :: rest')
    (hm : isMarker core.context.toUInt32 b = true)
    (hconv : markerStep { core with ip64 := core.ip64 + 1 } (rolled core.context.toUInt32 b) b
      (a₀ :: a₁ :: a₂ :: a₃ :: rest') x =
        some (⟨.target (branchStream (rolled core.context.toUInt32 b))
            ((core.ip64 + 1 + 4).toUInt32 + getLe32 a₀ a₁ a₂ a₃),
          { Bcj2Enc.encodeBit { core with ip64 := core.ip64 + 1 }
              (rolled core.context.toUInt32 b) true with
            ip64 := core.ip64 + 1 + 4
            context := (getLe32 a₀ a₁ a₂ a₃ >>> 24).toUInt8 }⟩, x.take b rest')) :
    ∃ core' x' e' cs js, Leads core x e core' x' e' [b] cs js [b, a₀, a₁, a₂, a₃] ∧
      Between core' x' e' := by
  generalize hcj : branchStream (rolled core.context.toUInt32 b) = cj at hconv
  generalize habsol : (core.ip64 + 1 + 4).toUInt32 + getLe32 a₀ a₁ a₂ a₃ = absol at hconv
  have hsame : SameBit core { Bcj2Enc.encodeBit { core with ip64 := core.ip64 + 1 }
      (rolled core.context.toUInt32 b) true with
        ip64 := core.ip64 + 1 + 4
        context := (getLe32 a₀ a₁ a₂ a₃ >>> 24).toUInt8 }
      (rolled core.context.toUInt32 b) true := rfl
  have hput : ((x.take b rest').putTarget cj absol).rc = x.rc ∧
      ((x.take b rest').putTarget cj absol).ended = x.ended ∧
      ((x.take b rest').putTarget cj absol).src = rest' ∧
      ((x.take b rest').putTarget cj absol).main = x.main ++ [b] ∧
      ((x.take b rest').putTarget cj absol).call =
        x.call ++ (if cj = streamCall then targetBytes absol else []) ∧
      ((x.take b rest').putTarget cj absol).jump =
        x.jump ++ (if cj = streamCall then [] else targetBytes absol) := by
    unfold EncSupply.putTarget
    dsimp only
    by_cases hcall : cj = streamCall
    · rw [if_pos hcall, if_pos hcall, if_pos hcall]
      exact ⟨rfl, rfl, rfl, rfl, rfl, (List.append_nil _).symm⟩
    · rw [if_neg hcall, if_neg hcall, if_neg hcall]
      exact ⟨rfl, rfl, rfl, rfl, (List.append_nil _).symm, rfl⟩
  obtain ⟨hrc, hended, hrest, hmain, hcalls, hjumps⟩ := hput
  obtain ⟨core', rc', hsteps, hbetween, hip, hcontext⟩ :=
    h.bit hsame ((x.take b rest').putTarget cj absol) hrc (hended.trans h.ended)
  refine ⟨core', _, _, _, _, ⟨.head ((h.marker hsrc hm).trans hconv) (.head rfl hsteps), hmain,
    hcalls, hjumps, ?_, ?_, ?_, fun xs hxs => hxs.of_widen.of_narrow h.ok,
    fun xs v d rc hxs hmirror => ?_⟩, hbetween⟩
  · change x.src = [b, a₀, a₁, a₂, a₃] ++ ((x.take b rest').putTarget cj absol).src
    rw [hsrc, hrest]
    rfl
  · split <;> rfl
  · split <;> simp
  have hroll := rolled_of_last hmirror.last b
  obtain ⟨hbit, hreads, hip'⟩ := Bcj2Dec.bit_reads (d := { d with ip := d.ip + 1 })
    hmirror.reads hxs.of_widen
  -- The decoder's interval is the same whether or not it has counted the target.
  obtain ⟨d', rc'', htop, hreads', hip''⟩ := Bcj2Dec.top_steps
    (d := { (Bcj2Dec.decodeBit { d with ip := d.ip + 1 } (rolled core.context.toUInt32 b)).2 with
      ip := d.ip + 1 + 4 }) hreads hxs
  have haddress : d.ip + 1 + 4 = (core.ip64 + 1 + 4).toUInt32 := by
    rw [hmirror.ip, UInt64.toUInt32_add, UInt64.toUInt32_add]
    rfl
  refine ⟨getLe32 a₀ a₁ a₂ a₃ >>> 24, d', rc'', ⟨hreads', ?_, ?_⟩,
    fun main call jump room dest hroom => ?_⟩
  · rw [hip'', hip]
    exact haddress
  · rw [hcontext]
    exact (shifted_low _).symm
  · change 5 ≤ room at hroom
    have hroom' : room ≠ 0 := by omega
    have hfour : 4 ≤ room - 1 := by omega
    have hstep' := decided_step (d := d) ((isMarker_of_last hmirror.last b).trans hm) main
      ((if cj = streamCall then targetBytes absol else []) ++ call)
      ((if cj = streamCall then [] else targetBytes absol) ++ jump) rc hroom' dest
    have hdecided : Bcj2Dec.decided { d with ip := d.ip + 1 } (rolled v b) = ⟨.target cj, 0,
        (Bcj2Dec.decodeBit { d with ip := d.ip + 1 } (rolled core.context.toUInt32 b)).2⟩ := by
      unfold Bcj2Dec.decided
      rw [hroll, hbit, hcj]
      rfl
    rw [hdecided] at hstep'
    obtain ⟨hb0, hb1, hb2, hb3⟩ := getLe32_bytes a₀ a₁ a₂ a₃
    have hoffset : absol =
        (Bcj2Dec.decodeBit { d with ip := d.ip + 1 } (rolled core.context.toUInt32 b)).2.ip + 4 +
          getLe32 a₀ a₁ a₂ a₃ := by
      rw [hip', ← habsol, ← haddress]
    have hsent := sent_steps
      (Bcj2Dec.decodeBit { d with ip := d.ip + 1 } (rolled core.context.toUInt32 b)).2 cj hoffset
      main call jump rc hfour (dest ++ [b])
    rw [hb0, hb1, hb2, hb3, hip', Nat.sub_sub, List.append_assoc] at hsent
    exact .head hstep' (hsent.trans (htop _ main call jump (room - 5) _))

/-- While there is source the encoder has a turn to make. -/
theorem turn_leads (h : Between core x e) (hne : x.src ≠ []) :
    ∃ core' x' e' m cs js bs, Leads core x e core' x' e' m cs js bs ∧ Between core' x' e' ∧
      bs ≠ [] := by
  obtain ⟨b, rest, hsrc⟩ := List.exists_cons_of_ne_nil hne
  by_cases hm : isMarker core.context.toUInt32 b
  · rcases markerStep_cases { core with ip64 := core.ip64 + 1 }
      (rolled core.context.toUInt32 b) b rest h.ended with hkept |
      ⟨a₀, a₁, a₂, a₃, rest', rfl, hconv⟩
    · obtain ⟨core', x', e', hleads, hbetween⟩ := kept_leads h hsrc hm hkept
      exact ⟨core', x', e', _, _, _, _, hleads, hbetween, List.cons_ne_nil _ _⟩
    · obtain ⟨core', x', e', cs, js, hleads, hbetween⟩ := converted_leads h hsrc hm hconv
      exact ⟨core', x', e', _, _, _, _, hleads, hbetween, List.cons_ne_nil _ _⟩
  · obtain ⟨hleads, hbetween⟩ := plain_leads h hsrc (Bool.not_eq_true _ ▸ hm)
    exact ⟨_, _, _, _, _, _, _, hleads, hbetween, List.cons_ne_nil _ _⟩

/-- `out` is what the encoder still writes to the main, the call and the jump stream, and
all of the range-coded one. A decoder at the same place restores the source from it, has
then nothing left and may be finished. -/
structure Restores (core : Bcj2Enc) (x : EncSupply) (e : Exact ℕ) (out : Bcj2Streams) : Prop where
  ends : ∃ m y, encMachine.Stops (⟨.loop, core⟩, x) (m, y) ∧
    y.streams = ⟨x.main ++ out.main, x.call ++ out.call, x.jump ++ out.jump, out.rc⟩
  lengths : out.main.length + out.call.length + out.jump.length = x.src.length
  words : out.call.length % 4 = 0 ∧ out.jump.length % 4 = 0
  holds : e.Holds out.rc
  restores : ∀ v d rc, Mirrors core e out.rc v d rc → ∀ (room : ℕ) (dest : List UInt8),
    x.src.length ≤ room → ∃ v' d', d'.code = 0 ∧
      machine.Stops (⟨.scan, v, d⟩, ⟨out.main, out.call, out.jump, rc, room, dest⟩)
        (⟨.scan, v', d'⟩, ⟨[], [], [], [], room - x.src.length, dest ++ x.src⟩)

/-- At the end of the source the encoder writes the lower end of its interval, and the
decoder, which has read it, is that far from it: its code is zero. -/
theorem end_restores (h : Between core x e) (hsrc : x.src = []) :
    ∃ rc, Restores core x e ⟨[], [], [], rc⟩ := by
  have hge := h.ok.range_ge
  obtain ⟨core', rc, hstops, hvalue, hlength⟩ := h.carry.flush (by omega) h.owes
  have hflush : encStep ⟨.loop, core⟩ x = some (⟨.flush, core⟩, x) := by
    rw [h.copies]
    simp only [copyStep, hsrc, h.ended, if_true]
  refine ⟨rc, ⟨_, _, (Machine.Steps.one hflush).stops hstops, ?_⟩, ?_, ⟨rfl, rfl⟩, ?_, ?_⟩
  · simp only [EncSupply.streams, List.append_nil]
  · rw [hsrc]
    rfl
  · have hpoint : e.low * 256 ^ (rc.length - (e.digits + 5)) ≤ value rc ∧
        value rc < (e.low + e.range) * 256 ^ (rc.length - (e.digits + 5)) := by
      rw [hlength, Nat.sub_self, pow_zero, mul_one, mul_one]
      omega
    exact ⟨hlength.ge, hpoint.1, hpoint.2⟩
  · intro v d rest hmirror room dest _
    have hcode : d.code + e.low = value (rc.take (e.digits + 5)) := hmirror.reads.code
    have hrest := hmirror.reads.rest
    rw [← hlength, List.take_length] at hcode
    rw [← hlength, List.drop_length] at hrest
    refine ⟨v, d, by omega, ?_⟩
    rw [hsrc, hrest, List.append_nil]
    exact ⟨.refl, rfl⟩

theorem Leads.restores {core' : Bcj2Enc} {x' : EncSupply} {e' : Exact ℕ}
    {m cs js bs : List UInt8} {out : Bcj2Streams}
    (h : Leads core x e core' x' e' m cs js bs) (hout : Restores core' x' e' out) :
    Restores core x e ⟨m ++ out.main, cs ++ out.call, js ++ out.jump, out.rc⟩ := by
  have hlen : x.src.length = bs.length + x'.src.length := by
    rw [h.src, List.length_append]
  refine ⟨?_, ?_, ?_, h.holds _ hout.holds, ?_⟩
  · obtain ⟨n, y, hstops, hstreams⟩ := hout.ends
    refine ⟨n, y, h.steps.stops hstops, ?_⟩
    rw [hstreams, h.main, h.call, h.jump]
    simp only [List.append_assoc]
  · have h1 := h.lengths
    have h2 := hout.lengths
    simp only [List.length_append]
    omega
  · have h1 := h.words
    have h2 := hout.words
    simp only [List.length_append]
    omega
  · intro v d rc hmirror room dest hroom
    obtain ⟨v₁, d₁, rc₁, hmirror₁, hsteps⟩ := h.mirrors _ v d rc hout.holds hmirror
    obtain ⟨v', d', hcode, hstops⟩ := hout.restores v₁ d₁ rc₁ hmirror₁ (room - bs.length)
      (dest ++ bs) (by omega)
    refine ⟨v', d', hcode, ?_⟩
    have hall := (hsteps out.main out.call out.jump room dest (by omega)).stops hstops
    rwa [Nat.sub_sub, ← hlen, List.append_assoc, ← h.src] at hall

/-- From every place on. -/
theorem Bcj2Enc.Between.restores (h : Between core x e) : ∃ out, Restores core x e out := by
  induction hn : x.src.length using Nat.strong_induction_on generalizing core x e with
  | _ n ih =>
      by_cases hsrc : x.src = []
      · obtain ⟨rc, hrestores⟩ := end_restores h hsrc
        exact ⟨_, hrestores⟩
      · obtain ⟨core', x', e', m, cs, js, bs, hleads, hbetween, hbs⟩ := turn_leads h hsrc
        have hlen := congrArg List.length hleads.src
        have hpos := List.length_pos_of_ne_nil hbs
        rw [List.length_append] at hlen
        obtain ⟨out, hout⟩ := ih x'.src.length (by omega) hbetween rfl
        exact ⟨_, hleads.restores hout⟩

end
end LzmaTurbo.Filters
