import LzmaTurbo.Xz.BlockContents
import LzmaTurbo.Xz.SameInput

/-!
# Runs under other limits

Where a reader comes to the end of its input, the input is a chain of turns and whole blocks
that says nothing of limits. A reader with limits that allow these blocks goes along it: it gives
the same bytes and is nowhere refused.
-/
namespace LzmaTurbo.Xz
open Machine Lzma Lzma2 Mt
namespace XzReader
variable {C : Checks} {r r' t : XzReader C} {B : BlockData C} {given : List UInt8}

/-- A reader at the first byte of the block `B`. -/
structure Begins (B : BlockData C) (r : XzReader C) : Prop where
  state : r.state = .block
  data : r.data = some (B.prop, B.bytes)
  dec : ∃ d, r.dec = some d ∧ d.finished = false ∧ d.pendingPos = d.pendingLen ∧
    d.Pours B r.src.stream []
  check : ∃ kind offset verify, B.check = C.new kind offset verify

/-- A reader in the block that `r₀` is at the first byte of; the caller has `given` of it. -/
structure Within (B : BlockData C) (r₀ : XzReader C) (given : List UInt8) (r : XzReader C) :
    Prop where
  dec : ∃ d, r.dec = some d ∧ d.Amid B r.src.stream given
  limits : r.dec.map BlockDecoder.limits = r₀.dec.map BlockDecoder.limits
  rest : r = { r₀ with src := r.src, dec := r.dec, totalOut := r₀.totalOut + given.length }

/-- A reader that has come to the end of the block `r₀` is at the first byte of. -/
structure Ended (B : BlockData C) (r₀ : XzReader C) (r : XzReader C) : Prop where
  sound : r.src.Sound
  dec : ∃ d, r.dec = some d ∧ d.finished = true ∧ d.Pours B r.src.stream B.contents
  limits : r.dec.map BlockDecoder.limits = r₀.dec.map BlockDecoder.limits
  rest : r = { r₀ with
    src := r.src, dec := r.dec, totalOut := r₀.totalOut + B.contents.length
    tailLeft := (4 - (B.bytes.length - r.src.stream.length) % 4) % 4 + r₀.checkSize
    state := .blockTail }

/-- The rest of the input from a reader on, as whole blocks, where it comes to its end. -/
inductive Accepted : XzReader C → List (List UInt8) → Prop
  | done {r : XzReader C} : r.state = .done → Accepted r []
  | turn {r r' : XzReader C} {fuel : ℕ} {ws : List (List UInt8)} : r.state ≠ .block →
      r.state ≠ .done → r.Sound → r.turn fuel = .ok r' → Accepted r' ws → Accepted r ws
  | block {B : BlockData C} {r e : XzReader C} {ws : List (List UInt8)} : Begins B r →
      Ended B r e → Accepted e ws → Accepted r (B.contents :: ws)

section
variable (x8664 kernel : Bool)

/-- What a call in a block does. -/
theorem block_within {opts : XzOptions} {b : Option (LzmaProps × List UInt8)} {r₀ : XzReader C}
    {fuel : ℕ} {out : List UInt8} (hk : Kept opts b r) (hin : Within B r₀ given r)
    (hne : out ≠ []) :
    (∀ r' out' n, r.block x8664 kernel fuel out = .ok (r', out', n) →
      0 < n ∧ Within B r₀ (given ++ out'.take n) r' ∨ n = 0 ∧ given = B.contents ∧ Ended B r₀ r') ∧
    ∀ f, r.block x8664 kernel fuel out ≠ .error (.panic f) := by
  induction fuel generalizing r out given with
  | zero => exact ⟨(fun r' out' n hr => by cases hr), fun f hr => by cases hr⟩
  | succ fuel ih =>
      obtain ⟨d, hdec, ham⟩ := hin.dec
      have hsound := hk.sound.dec d hdec
      have hd := hk.block d hdec
      by_cases hend : d.atEnd = true
      · have hboth : d.finished = true ∧ d.pendingPos = d.pendingLen := by
          unfold BlockDecoder.atEnd at hend
          rw [Bool.and_eq_true, decide_eq_true_eq] at hend
          exact hend
        have hpour := ham.pours hboth.2
        have hwhole := (hpour.closed hboth.1).whole
        have hpacked : d.packed = B.bytes.length - r.src.stream.length := by
          have := hpour.packed
          omega
        have hcheck : r.checkSize = r₀.checkSize := by rw [hin.rest]
        rw [block_atEnd hdec hend]
        refine ⟨fun r' out' n hr => .inr ?_, fun f hr => by cases hr⟩
        cases hr
        refine ⟨rfl, hwhole, hk.sound.src, ⟨d, hdec, hboth.1, hwhole ▸ hpour⟩, hin.limits, ?_⟩
        refine (congrArg (fun x : XzReader C => { x with
          tailLeft := (4 - d.packed % 4) % 4 + r.checkSize
          state := .blockTail }) hin.rest).trans ?_
        rw [hpacked, hcheck, hwhole]
      · have hfill := Source.fillAtLeast_filled hk.sound.src (show 1 ≤ bufSize by decide)
        obtain ⟨src, hsrc⟩ : ∃ src, r.src.fillAtLeast 1 = src := ⟨_, rfl⟩
        rw [hsrc] at hfill
        obtain ⟨t, ht, hret⟩ := BlockDecoder.decode_spec x8664 kernel hsound
          (Bool.not_eq_true _ ▸ hend) src.avail out
        have hdecides := BlockDecoder.decode_limits x8664 kernel hsound hd.bounded hne ht
        have hout : t.out ≠ [] := fun hnil => hne (List.eq_nil_of_length_eq_zero
          (by rw [← hret.length, hnil]; rfl))
        cases hres : t.res with
        | error k =>
            rw [block_error hdec hend hsrc ht hres]
            exact ⟨(fun r' out' n hr => by cases hr), fun f hr => by cases hr⟩
        | ok rw' =>
            obtain ⟨read, wrote⟩ := rw'
            have hkept := kept_decoded hk hdec hfill hret hdecides hres
            have hread := (hret.res read wrote hres).2.1
            have htake : src.avail = r.src.stream.take src.avail.length := by
              rw [← hfill.stream, Source.stream, List.take_left]
            have hnext := BlockDecoder.decode_amid hsound hd.bounded ham htake ht hres
            rw [← hfill.stream, ← Source.consume_stream src hread] at hnext
            have hlen : (given ++ t.out.take wrote).length = given.length + wrote := by
              rw [hnext.length hret.sound.pending.2, ham.length hsound.pending.2]
              exact hdecides.given read wrote hres
            have hlimits : (some t.d).map BlockDecoder.limits = r₀.dec.map BlockDecoder.limits := by
              rw [← hin.limits, hdec, Option.map_some, Option.map_some, hdecides.limits]
            have hstep : Within B r₀ (given ++ t.out.take wrote) { r with
                src := src.consume read, dec := some t.d, totalOut := r.totalOut + wrote } := by
              refine ⟨⟨t.d, rfl, hnext⟩, hlimits, ?_⟩
              refine (congrArg (fun x : XzReader C => { x with
                src := src.consume read, dec := some t.d, totalOut := x.totalOut + wrote })
                  hin.rest).trans ?_
              rw [hlen, ← Nat.add_assoc]
            rw [block_ok hdec hend hsrc ht hres]
            by_cases hwrote : 0 < wrote
            · rw [if_pos hwrote]
              split
              · exact ⟨(fun r' out' n hr => by cases hr), fun f hr => by cases hr⟩
              · refine ⟨fun r' out' n hr => .inl ?_, fun f hr => by cases hr⟩
                cases hr
                exact ⟨hwrote, hstep⟩
            · obtain rfl : wrote = 0 := by omega
              rw [if_neg hwrote]
              split
              · exact ⟨(fun r' out' n hr => by cases hr), fun f hr => by cases hr⟩
              · rw [List.take_zero, List.append_nil] at hstep
                exact ih hkept hstep hout

/-- A run from one reader to another that gives `bytes`; `Q` holds of the readers that it gives
some of them at. -/
inductive Goes (Q : XzReader C → Prop) : XzReader C → List UInt8 → XzReader C → Prop
  | refl (r : XzReader C) : Goes Q r [] r
  | turn {r r' e : XzReader C} {fuel : ℕ} {bytes : List UInt8} : r.state ≠ .block →
      r.turn fuel = .ok r' → Goes Q r' bytes e → Goes Q r bytes e
  | block {r r' e : XzReader C} {fuel n : ℕ} {out out' bytes : List UInt8} : r.state = .block →
      out ≠ [] → r.block x8664 kernel fuel out = .ok (r', out', n) → (0 < n → Q r') →
      Goes Q r' bytes e → Goes Q r (out'.take n ++ bytes) e

end

section
variable {x8664 kernel : Bool} {opts : XzOptions} {b : Option (LzmaProps × List UInt8)}
  {m : ℕ} {w : List UInt8}

/-- A turn that comes to a block is at its first byte. -/
theorem turn_begins {fuel : ℕ} (hblock : r.state ≠ .block) (ht : r.turn fuel = .ok r')
    (hs : r'.state = .block) : ∃ B, Begins B r' := by
  unfold turn at ht
  cases hstate : r.state with
  | block => exact absurd hstate hblock
  | done =>
      rw [hstate] at ht
      cases ht
      exact absurd hs hblock
  | streamHeader =>
      rw [hstate] at ht
      obtain ⟨src, flags, checkSize, fold, rfl⟩ := streamHeader_ok ht
      cases hs
  | blockOrIndex =>
      rw [hstate] at ht
      rcases blockOrIndex_ok ht with ⟨src, rfl⟩ | ⟨header, src, dec, size, -, rfl, hnew⟩
      · cases hs
      · obtain ⟨hopen, hpos, convs, hpour⟩ := BlockDecoder.new_pours hnew src.stream
        exact ⟨_, rfl, rfl, ⟨dec, rfl, hopen, hpos, hpour⟩, _, _, _, rfl⟩
  | blockTail =>
      rw [hstate] at ht
      obtain ⟨src, fold, rfl⟩ := blockTail_ok ht
      cases hs
  | index =>
      rw [hstate] at ht
      obtain ⟨src, size, rfl⟩ := indexTurn_ok ht
      cases hs
  | footer =>
      rw [hstate] at ht
      obtain ⟨src, rfl⟩ := footer_ok ht
      cases hs
  | padding =>
      rw [hstate] at ht
      obtain ⟨src, state, rfl, hor⟩ := padding_ok ht
      rcases hor with rfl | rfl
      · cases hs
      · cases hs

theorem Begins.within (h : Begins B r) : Within B r [] r := by
  obtain ⟨d, hd, -, hpos, hpour⟩ := h.dec
  exact ⟨⟨d, hd, .of_pours hpour hpos⟩, rfl, rfl⟩

theorem Goes.trans {Q : XzReader C → Prop} {e f : XzReader C} {w w' : List UInt8}
    (h : Goes x8664 kernel Q r w e) (h' : Goes x8664 kernel Q e w' f) :
    Goes x8664 kernel Q r (w ++ w') f := by
  induction h with
  | refl r => exact h'
  | turn hblock ht _ ih => exact .turn hblock ht (ih h')
  | block hs hne hb hq _ ih =>
      rw [List.append_assoc]
      exact .block hs hne hb hq (ih h')

/-- A read is a run of turns. -/
theorem readLoop_goes {Q : XzReader C → Prop} {turns fuel n : ℕ} {out out' : List UInt8}
    (hk : Kept opts b r) (hne : out ≠ [])
    (hr : r.readLoop x8664 kernel turns fuel out = .ok (r', out', n)) (hQ : 0 < n → Q r') :
    Goes x8664 kernel Q r (out'.take n) r' := by
  induction fuel generalizing r b out with
  | zero => cases hr
  | succ fuel ih =>
      by_cases hdone : r.state = .done
      · rw [readLoop, hdone] at hr
        cases hr
        rw [List.take_zero]
        exact .refl _
      by_cases hblock : r.state = .block
      · rw [readLoop, hblock] at hr
        obtain ⟨⟨r₁, out₁, n₁⟩, hres, hr⟩ := bind_eq_ok hr
        obtain ⟨hblocked, hlen⟩ := (block_kept x8664 kernel hk hne).1 _ _ _ hres
        dsimp only at hr
        split at hr
        next hn =>
          cases hr
          have hgoes := Goes.block hblock hne hres hQ (Goes.refl r')
          rw [List.append_nil] at hgoes
          exact hgoes
        next hn =>
          obtain rfl : n₁ = 0 := by omega
          have hne₁ : out₁ ≠ [] := fun hnil => hne (List.eq_nil_of_length_eq_zero
            (by rw [← hlen, hnil]; rfl))
          have hgoes := Goes.block hblock hne hres (fun h => absurd h hn)
            (ih hblocked.kept hne₁ hr)
          rw [List.take_zero, List.nil_append] at hgoes
          exact hgoes
      · rw [readLoop_turn x8664 kernel turns fuel out hblock hdone] at hr
        obtain ⟨r₁, hturn, hr⟩ := bind_eq_ok hr
        exact .turn hblock hturn (ih (turn_kept hk hblock hturn).kept hne hr)

/-- A run that comes to the end of the input. -/
theorem Goes.accepted {Q : XzReader C → Prop} {e : XzReader C} (h : Goes x8664 kernel Q r w e)
    (hdone : e.state = .done) (hQ : ∀ r, Q r → r.given ≤ m) (hk : Kept opts b r) :
    (r.state ≠ .block → r.totalOut + w.length = e.totalOut ∧
      ∃ ws, Accepted r ws ∧ w = ws.flatten ∧ ∀ x ∈ ws, x.length ≤ m) ∧
    ∀ B r₀ given, Begins B r₀ → Within B r₀ given r → given.length ≤ m →
      r.totalOut + w.length = e.totalOut ∧ ∃ e' ws, Ended B r₀ e' ∧ Accepted e' ws ∧
        given ++ w = B.contents ++ ws.flatten ∧ B.contents.length ≤ m ∧
          ∀ x ∈ ws, x.length ≤ m := by
  have hstate : ∀ {B : BlockData C} {r₀ r : XzReader C} {given : List UInt8}, Begins B r₀ →
      Within B r₀ given r → r.state = .block := fun hb hw => by
    rw [hw.rest]
    exact hb.state
  induction h generalizing b with
  | refl r =>
      refine ⟨fun _ => ⟨rfl, [], .done hdone, rfl, fun x hx => nomatch hx⟩,
        fun B r₀ given hb hw _ => ?_⟩
      rw [hstate hb hw] at hdone
      cases hdone
  | turn hblock ht _ ih =>
      rename_i r r' e fuel bytes _
      refine ⟨fun _ => ?_, fun B r₀ given hb hw _ => absurd (hstate hb hw) hblock⟩
      have hstep := turn_kept hk hblock ht
      obtain ⟨hout, hin⟩ := ih hdone hstep.kept
      rw [hstep.total] at hout hin
      by_cases hs : r.state = .done
      · unfold XzReader.turn at ht
        rw [hs] at ht
        cases ht
        exact hout hblock
      · by_cases hs' : r'.state = .block
        · obtain ⟨B, hb⟩ := turn_begins hblock ht hs'
          obtain ⟨htotal, e', ws, hend, hacc, hbytes, hle, hall⟩ :=
            hin B r' [] hb hb.within (Nat.zero_le m)
          refine ⟨htotal, B.contents :: ws, .turn hblock hs hk.sound ht (.block hb hend hacc),
            hbytes, fun x hx => ?_⟩
          rcases List.mem_cons.1 hx with rfl | hx
          · exact hle
          · exact hall x hx
        · obtain ⟨htotal, ws, hacc, hbytes, hall⟩ := hout hs'
          exact ⟨htotal, ws, .turn hblock hs hk.sound ht hacc, hbytes, hall⟩
  | block hs hne hblock hq _ ih =>
      rename_i r r' e fuel n out out' bytes _
      refine ⟨fun h => absurd hs h, fun B r₀ given hb hw hle => ?_⟩
      have hblocked := ((block_kept x8664 kernel hk hne).1 _ _ _ hblock).1
      obtain ⟨hout, hin⟩ := ih hdone hblocked.kept
      rcases (block_within x8664 kernel hk hw hne).1 _ _ _ hblock with
        ⟨hn, hw'⟩ | ⟨rfl, hgiven, hend⟩
      · obtain ⟨d, hd, ham⟩ := hw'.dec
        have hlen : (given ++ out'.take n).length ≤ m := by
          rw [ham.length (hblocked.kept.sound.dec d hd).pending.2]
          have hle := hQ r' (hq hn)
          unfold XzReader.given at hle
          rw [hd] at hle
          exact hle
        obtain ⟨htotal, hrest⟩ := hin B r₀ _ hb hw' hlen
        rw [List.append_assoc] at hrest
        refine ⟨?_, hrest⟩
        have h₁ : r.totalOut = r₀.totalOut + given.length := by rw [hw.rest]
        have h₂ : r'.totalOut = r₀.totalOut + (given ++ out'.take n).length := by rw [hw'.rest]
        rw [List.length_append] at h₂ ⊢
        omega
      · obtain ⟨htotal, ws, hacc, rfl, hall⟩ :=
          hout (by rw [hend.rest]; exact fun h => by cases h)
        rw [hblocked.total] at htotal
        refine ⟨?_, r', ws, hend, hacc, ?_, hgiven ▸ hle, hall⟩
        · rw [List.take_zero, List.nil_append]
          exact htotal
        · rw [hgiven, List.take_zero, List.nil_append]

/-- The limits of a reader allow the blocks that are still to come. -/
structure Allows (t : XzReader C) (ws : List (List UInt8)) : Prop where
  block : ∀ w ∈ ws, w.length ≤ t.opts.maxBlockSize
  total : ∀ cap ∈ t.opts.maxUnpackBytes, t.totalOut + ws.flatten.length ≤ cap

/-- A block that is next may be as large as it is. -/
theorem Allows.blockCap {ws : List (List UInt8)} (h : Allows t (w :: ws)) :
    w.length ≤ t.blockCap := by
  have hle := h.block w List.mem_cons_self
  unfold XzReader.blockCap
  split
  next cap hcap =>
    have htotal := h.total cap hcap
    rw [List.flatten_cons, List.length_append] at htotal
    exact le_min hle (by omega)
  next => exact hle

/-- A reader with limits of its own, of an input that comes to its end; `left` is still to be
given. -/
inductive Place (opts : XzOptions) : XzReader C → List UInt8 → Prop
  | outside {r t : XzReader C} {ws : List (List UInt8)} {b : Option (LzmaProps × List UInt8)} :
      r.state ≠ .block → Accepted r ws → Like r t → Allows t ws → Kept opts b t →
      Place opts t ws.flatten
  | inside {B : BlockData C} {r₀ e s₀ t : XzReader C} {given : List UInt8}
      {ws : List (List UInt8)} : Begins B r₀ → Ended B r₀ e → Accepted e ws → Like r₀ s₀ →
      Allows s₀ (B.contents :: ws) → Within B s₀ given t → Kept opts (some (B.prop, B.bytes)) t →
      Place opts t (B.contents.drop given.length ++ ws.flatten)

theorem Place.kept {left : List UInt8} (h : Place opts t left) : ∃ b, Kept opts b t := by
  cases h with
  | outside _ _ _ _ hk => exact ⟨_, hk⟩
  | inside _ _ _ _ _ _ hk => exact ⟨_, hk⟩

/-- However a block was gone through, at its end the readers are at the same place. -/
theorem Ended.like {r₀ e s₀ : XzReader C} (he : Ended B r₀ e) (hC : C.Lawful) (hb : Begins B r₀)
    (h : Like r₀ s₀) (ht : Ended B s₀ t) : Like e t := by
  obtain ⟨d, hd, hfin, hpour⟩ := he.dec
  obtain ⟨d', hd', hfin', hpour'⟩ := ht.dec
  have hstream : e.src.stream = t.src.stream :=
    (hpour.closed hfin).ends.trans (hpour'.closed hfin').ends.symm
  refine ⟨⟨he.sound, ht.sound, hstream⟩, ?_, ?_, fun _ => ⟨d, d', hd, hd', ?_, ?_, ?_⟩,
    fun hs => ?_⟩
  · rw [he.rest, ht.rest]
    exact h.opts
  · obtain ⟨src, opts, dec, rfl⟩ : ∃ src opts dec,
      s₀ = { r₀ with src := src, opts := opts, dec := dec } := ⟨_, _, _, h.rest⟩
    have ht := ht.rest
    rw [← hstream] at ht
    apply ht.trans
    refine (congrArg (fun x : XzReader C => { x with
      src := t.src, opts := t.opts, dec := t.dec }) he.rest).trans ?_ |>.symm
    rw [ht]
  · have h₁ := hpour.packed
    have h₂ := hpour'.packed
    rw [hstream] at h₁
    omega
  · exact hpour'.unpacked.symm.trans hpour.unpacked
  · obtain ⟨kind, offset, verify, hnew⟩ := hb.check
    have h₁ := hpour.check
    have h₂ := hpour'.check
    rw [hnew] at h₁ h₂
    exact hC kind offset verify _ _ _ h₂ h₁
  · rw [he.rest] at hs
    cases hs

/-- What a header declares of its block is what the block gives. -/
theorem Accepted.declared {ws : List (List UInt8)} (h : Accepted r ws) (hs : r.state = .block) :
    ∃ w ws', ws = w :: ws' ∧ ∀ d ∈ r.dec, ∀ n ∈ d.limits.uncompressedSize, n = w.length := by
  cases h with
  | done hdone =>
      rw [hs] at hdone
      cases hdone
  | turn hblock => exact absurd hs hblock
  | @block B _ e ws hb he hacc =>
      refine ⟨B.contents, ws, rfl, fun d hd n hn => ?_⟩
      obtain ⟨d', hd', hfin, hpour⟩ := he.dec
      have hlimits := he.limits
      rw [hd', Option.mem_def.1 hd, Option.map_some, Option.map_some] at hlimits
      rw [← Option.some.inj hlimits] at hn
      exact ((hpour.closed hfin).declared n hn).symm

/-- At the first byte of a block both are in it. -/
theorem Like.begins (h : Like r t) (hb : Begins B r) :
    Within B t [] t ∧ t.data = some (B.prop, B.bytes) := by
  obtain ⟨d, hd, hopen, hpos, hpour⟩ := hb.dec
  obtain ⟨d', hd', ht⟩ := h.entry hb.state
  cases hd.symm.trans hd'
  rw [h.src.stream] at hpour
  refine ⟨⟨⟨_, ht, .of_pours ⟨hpour.unpacked, hpour.packed, hpour.check, hpour.opened,
    fun hf => absurd (hopen.symm.trans hf) Bool.false_ne_true⟩ hpos⟩, rfl, rfl⟩, ?_⟩
  have hdata := hb.data
  unfold XzReader.data at hdata ⊢
  rw [hd] at hdata
  rw [ht, ← h.src.stream]
  exact hdata

/-- A turn of it keeps its place, on enough fuel. -/
theorem Place.turn {left : List UInt8} {fuel : ℕ} (h : Place opts t left)
    (hblock : t.state ≠ .block) (hdone : t.state ≠ .done) :
    t.turn fuel = .error .fuel ∨ ∃ t', t.turn fuel = .ok t' ∧ Place opts t' left := by
  cases h with
  | @inside B r₀ e s₀ _ given ws hb _ _ hlike _ hw _ =>
      have hstate : t.state = .block := by
        rw [hw.rest]
        change s₀.state = _
        rw [hlike.rest]
        exact hb.state
      exact absurd hstate hblock
  | @outside r _ ws b hrblock hacc hlike hallows hk =>
      have hstate : t.state = r.state := by rw [hlike.rest]
      cases hacc with
      | done hend => exact absurd (hstate.trans hend) hdone
      | block hb => exact absurd hb.state hrblock
      | @turn _ r' _ _ _ hrdone hsound ht hacc =>
          have hopts : t.turn fuel = .error .fuel ∨ ∃ t', t.turn fuel = .ok t' ∧ Like r' t' := by
            refine hlike.turn hsound hrblock hrdone ht fun hs d hd n hn => ?_
            obtain ⟨w, ws', rfl, hdeclared⟩ := hacc.declared hs
            rw [hdeclared d hd n hn]
            exact hallows.blockCap
          refine hopts.imp_right fun ⟨t', ht', hlike'⟩ => ⟨t', ht', ?_⟩
          have hstep := turn_kept hk hblock ht'
          have hallows' : Allows t' ws := by
            have ho : t'.opts = t.opts := hstep.kept.opts.trans hk.opts.symm
            constructor
            · rw [ho]
              exact hallows.block
            · rw [ho, hstep.total]
              exact hallows.total
          by_cases hs : r'.state = .block
          · cases hacc with
            | done hend =>
                rw [hs] at hend
                cases hend
            | turn hnot => exact absurd hs hnot
            | @block B _ e ws hb he hacc =>
                obtain ⟨hw, hdata⟩ := hlike'.begins hb
                exact .inside hb he hacc hlike' hallows' hw (hdata ▸ hstep.kept)
          · exact .outside hs hacc hlike' hallows' hstep.kept

/-- At the end of the input all is given. -/
theorem Place.done {left : List UInt8} (h : Place opts t left) (hdone : t.state = .done) :
    left = [] := by
  cases h with
  | @inside B r₀ e s₀ _ given ws hb _ _ hlike _ hw _ =>
      have hstate : t.state = .block := by
        rw [hw.rest]
        change s₀.state = _
        rw [hlike.rest]
        exact hb.state
      rw [hdone] at hstate
      cases hstate
  | @outside r _ ws b hrblock hacc hlike hallows hk =>
      have hstate : t.state = r.state := by rw [hlike.rest]
      cases hacc with
      | done => rfl
      | block hb => exact absurd hb.state hrblock
      | turn _ hrdone => exact absurd (hstate.symm.trans hdone) hrdone

/-- A block that its limits allow fits them. -/
theorem Within.fits {r₀ e s₀ : XzReader C} {ws : List (List UInt8)} {d : BlockDecoder C}
    (hb : Begins B r₀) (he : Ended B r₀ e) (hlike : Like r₀ s₀)
    (hallows : Allows s₀ (B.contents :: ws)) (hw : Within B s₀ given t) (hd : t.dec = some d) :
    Fits B.prop d.limits B.bytes := by
  obtain ⟨d₁, hd₁, hfin, hpour⟩ := he.dec
  have hclosed := hpour.closed hfin
  obtain ⟨d₀, hd₀, hs₀⟩ := hlike.entry hb.state
  have hlimits := hw.limits
  have hlimits₁ := he.limits
  rw [hd, hs₀, Option.map_some, Option.map_some] at hlimits
  rw [hd₁, hd₀, Option.map_some, Option.map_some] at hlimits₁
  have hlen : (format2 B.prop B.bytes).out.length = B.contents.length :=
    (length_wholes false B.convs _).symm
  rw [Option.some.inj hlimits]
  rw [Option.some.inj hlimits₁] at hclosed
  refine ⟨hclosed.mark, fun n hn => hlen.trans (hclosed.declared n hn), fun c hc => ?_, ?_⟩
  · rw [← hclosed.ends]
    exact hclosed.packed c hc
  · rw [hlen]
    exact hallows.blockCap

/-- A call of it in a block gives what comes next, and is not refused. -/
theorem Place.block (x8664 kernel : Bool) (hC : C.Lawful) {left out : List UInt8} {fuel : ℕ}
    (h : Place opts t left) (hblock : t.state = .block) (hne : out ≠ []) :
    (∀ e, t.block x8664 kernel fuel out = .error e → e = .fuel) ∧
    ∀ t' out' n, t.block x8664 kernel fuel out = .ok (t', out', n) →
      out'.length = out.length ∧ ∃ left', left = out'.take n ++ left' ∧ Place opts t' left' := by
  cases h with
  | @outside r _ ws b hrblock hacc hlike hallows hk =>
      have hstate : t.state = r.state := by rw [hlike.rest]
      exact absurd (hstate.symm.trans hblock) hrblock
  | @inside B r₀ e s₀ _ given ws hb he hacc hlike hallows hw hk =>
      obtain ⟨hok, hpanic⟩ := @block_within C _ B given x8664 kernel _ _ s₀ fuel out hk hw hne
      obtain ⟨hkept, hserved⟩ := @block_kept C t x8664 kernel _ _ fuel out hk hne
      obtain ⟨d, hd, ham⟩ := hw.dec
      have hfits := Within.fits hb he hlike hallows hw hd
      constructor
      · intro e he'
        cases e with
        | fuel => rfl
        | panic f => exact absurd he' (hpanic f)
        | err k => exact absurd he' (hserved B.prop B.bytes d k rfl hd hfits)
      · intro t' out' n ht'
        obtain ⟨hblocked, hlen⟩ := hkept t' out' n ht'
        refine ⟨hlen, ?_⟩
        rcases hok t' out' n ht' with ⟨-, hw'⟩ | ⟨rfl, hgiven, hend⟩
        · obtain ⟨d', hd', ham'⟩ := hw'.dec
          obtain ⟨rest, hrest⟩ := ham'.isPrefix
          refine ⟨_, ?_, .inside hb he hacc hlike hallows hw' hblocked.kept⟩
          rw [← hrest, List.drop_left, ← List.append_assoc, List.append_assoc given,
            List.drop_left]
        · refine ⟨ws.flatten, ?_, .outside ?_ hacc (he.like hC hb hlike hend) ⟨?_, ?_⟩
            hblocked.kept⟩
          · rw [hgiven, List.drop_length, List.take_zero]
          · rw [he.rest]
            exact fun h => by cases h
          · rw [hend.rest]
            exact fun w hw => hallows.block w (List.mem_cons_of_mem _ hw)
          · rw [hend.rest]
            intro cap hcap
            have htotal := hallows.total cap hcap
            rw [List.flatten_cons, List.length_append] at htotal
            change s₀.totalOut + B.contents.length + _ ≤ _
            omega

/-- A read of it gives what comes next, and nothing only at the end of the input. -/
theorem Place.readLoop (x8664 kernel : Bool) (hC : C.Lawful) {turns fuel : ℕ}
    {left out : List UInt8} (h : Place opts t left) (hne : out ≠ []) :
    (∀ e, t.readLoop x8664 kernel turns fuel out = .error e → e = .fuel) ∧
    ∀ t' out' n, t.readLoop x8664 kernel turns fuel out = .ok (t', out', n) →
      (n = 0 → t'.state = .done) ∧ ∃ left', left = out'.take n ++ left' ∧ Place opts t' left' := by
  induction fuel generalizing t left out with
  | zero =>
      refine ⟨fun e he => ?_, fun t' out' n ht' => by cases ht'⟩
      cases he
      rfl
  | succ fuel ih =>
      by_cases hdone : t.state = .done
      · have hread : t.readLoop x8664 kernel turns (fuel + 1) out = .ok (t, out, 0) := by
          rw [XzReader.readLoop, hdone]
        rw [hread]
        refine ⟨(fun e he => by cases he), fun t' out' n ht' => ?_⟩
        cases ht'
        exact ⟨fun _ => hdone, left, rfl, h⟩
      by_cases hblock : t.state = .block
      · have hread : t.readLoop x8664 kernel turns (fuel + 1) out =
            (t.block x8664 kernel turns out >>= fun u =>
              if 0 < u.2.2 then .ok u else u.1.readLoop x8664 kernel turns fuel u.2.1) := by
          rw [XzReader.readLoop, hblock]
        obtain ⟨herr, hok⟩ := @Place.block C t opts x8664 kernel hC left out turns h hblock hne
        rw [hread]
        cases hres : t.block x8664 kernel turns out with
        | error e =>
            refine ⟨fun e' he' => ?_, fun t' out' n ht' => by cases ht'⟩
            cases he'
            exact herr e hres
        | ok u =>
            obtain ⟨t₁, out₁, n₁⟩ := u
            obtain ⟨hlen, left₁, hleft, hplace⟩ := hok t₁ out₁ n₁ hres
            change (∀ e, (if 0 < n₁ then _ else _) = _ → _) ∧ ∀ t' out' n,
              (if 0 < n₁ then _ else _) = _ → _
            by_cases hn : 0 < n₁
            · rw [if_pos hn]
              refine ⟨(fun e he => by cases he), fun t' out' n ht' => ?_⟩
              cases ht'
              exact ⟨fun hz => by omega, left₁, hleft, hplace⟩
            · rw [if_neg hn]
              obtain rfl : n₁ = 0 := by omega
              have hne₁ : out₁ ≠ [] := fun hnil => hne (List.eq_nil_of_length_eq_zero
                (by rw [← hlen, hnil]; rfl))
              obtain ⟨herr', hok'⟩ := ih hplace hne₁
              refine ⟨herr', fun t' out' n ht' => ?_⟩
              obtain ⟨hz, left', hleft', hplace'⟩ := hok' t' out' n ht'
              refine ⟨hz, left', ?_, hplace'⟩
              rw [hleft, List.take_zero, List.nil_append, hleft']
      · rw [readLoop_turn x8664 kernel turns fuel out hblock hdone]
        rcases @Place.turn C t opts left turns h hblock hdone with hfuel | ⟨t₁, ht₁, hplace⟩
        · rw [hfuel]
          refine ⟨fun e he => ?_, fun t' out' n ht' => by cases ht'⟩
          cases he
          rfl
        · rw [ht₁]
          exact ih hplace hne

end
end XzReader
end LzmaTurbo.Xz
