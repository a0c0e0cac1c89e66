import LzmaTurbo.Xz.BlockLimits
import LzmaTurbo.Xz.ReaderTurns

/-!
# A reader within its limits

Every turn keeps the block at hand within what is left to give, and counts what it gives for
the block it is of. A block that keeps within its limits is never refused.
-/
namespace LzmaTurbo.Xz
open Machine Lzma Lzma2

namespace XzReader
variable {C : Checks} {r r' : XzReader C}

/-- What the caller has of the block at hand. -/
def given (r : XzReader C) : ℕ := r.dec.elim 0 BlockDecoder.given

/-- A block in its reader: it leaves room for what it may still give, and keeps its place in
the data it began at. -/
structure BlockKept (b : Option (LzmaProps × List UInt8)) (r : XzReader C) (d : BlockDecoder C) :
    Prop where
  bounded : d.Bounded
  allowed : d.limits.maxBlockSize ≤ r.opts.maxBlockSize
  declared : ∀ n ∈ d.limits.uncompressedSize, n ≤ d.limits.maxBlockSize
  room : ∀ cap ∈ r.opts.maxUnpackBytes, r.totalOut + (d.cap - d.given) ≤ cap
  data : ∀ prop xs, b = some (prop, xs) → Fits prop d.limits xs →
    d.finished = true ∨ BlockDecoder.Stands prop xs r.src.stream d

/-- What holds of every reader that is come to. -/
structure Kept (opts : XzOptions) (b : Option (LzmaProps × List UInt8)) (r : XzReader C) :
    Prop where
  sound : r.Sound
  opts : r.opts = opts
  total : ∀ cap ∈ r.opts.maxUnpackBytes, r.totalOut ≤ cap
  closed : r.dec ≠ none → r.state = .block ∨ r.state = .blockTail
  block : ∀ d ∈ r.dec, BlockKept b r d

/-- A new block. -/
theorem new_kept {header : BlockHeader} {check : CheckType} {offset : ℕ} {verify : Bool}
    {limits : BlockLimits} {d : BlockDecoder C}
    (hlen : header.chain.converters.length ≤ maxFilters)
    (hnew : BlockDecoder.new header.chain check offset verify limits = .ok d) (xs : List UInt8) :
    d.limits = limits ∧ d.unpacked = 0 ∧ d.pendingLen = 0 ∧ d.pendingPos = 0 ∧
      (∀ n ∈ limits.uncompressedSize, n ≤ limits.maxBlockSize) ∧
      BlockDecoder.Stands d.lzma2.decoder.prop xs xs d := by
  obtain ⟨hallowed, -, lzma2, converters, hlzma2, hbuild, rfl⟩ := BlockDecoder.new_ok hnew
  obtain ⟨cs, hstages, -⟩ := FilterChain.build_fresh hbuild
  obtain ⟨hat, -, hopen⟩ := Lzma2Decoder.newCapped_at hlzma2
  have hcarry := FilterChain.build_carry hbuild
  refine ⟨rfl, rfl, rfl, rfl, hallowed, ⟨[], ⟨_, [], .refl _ _, hat, exact_chunk⟩, ?_⟩, hopen,
    Nat.zero_add _, ?_⟩
  · change 0 = 0 + (converters.stages.map fun s => s.carry.length).sum
    rw [hstages, List.map_map]
    simp [Function.comp_def, Stage.fresh]
  · have husize : 15 * maxFilters < usizeMax := by decide
    change converters.maxCarry < usizeMax
    omega

/-- A call that has something left over gives some of it. -/
theorem decode_pending {x8664 kernel : Bool} {d : BlockDecoder C} {input out : List UInt8}
    {t : BlockDecoder.Decoded C} (hlt : d.pendingPos < d.pendingLen) (hne : out ≠ [])
    (ht : d.decode x8664 kernel input out = .ok t) {read wrote : ℕ}
    (hres : t.res = .ok (read, wrote)) : 0 < wrote := by
  unfold BlockDecoder.decode at ht
  rw [if_pos hlt] at ht
  obtain ⟨made, -, ht⟩ := bind_eq_ok ht
  obtain ⟨out₁, -, ht⟩ := bind_eq_ok ht
  cases ht
  cases hres
  have := List.length_pos_of_ne_nil hne
  omega

/-- A block call. -/
structure Blocked (opts : XzOptions) (b : Option (LzmaProps × List UInt8)) (r r' : XzReader C)
    (n : ℕ) : Prop where
  kept : Kept opts b r'
  stream : r'.stream = r.stream
  blockNo : r'.blockNo = r.blockNo
  total : r'.totalOut = r.totalOut + n
  given : r'.given = r.given + n
  had : r.dec ≠ none
  dec : r'.dec ≠ none
  limits : r'.dec.map BlockDecoder.limits = r.dec.map BlockDecoder.limits

/-- The input is not out before a block that keeps within its limits ends. -/
theorem avail_of_fits {opts : XzOptions} {b : Option (LzmaProps × List UInt8)} {prop : LzmaProps}
    {xs : List UInt8} {d : BlockDecoder C} {src : Source} (hk : Kept opts b r)
    (hdec : r.dec = some d) (hb : b = some (prop, xs)) (hfits : Fits prop d.limits xs)
    (hopen : d.finished = false) (hfill : r.src.Filled 1 src) :
    src.avail ≠ [] ∧ BlockDecoder.Stands prop xs r.src.stream d := by
  have hstands := ((hk.block d hdec).data prop xs hb hfits).resolve_left
    (by rw [hopen]; exact Bool.false_ne_true)
  obtain ⟨lz, hlz, -⟩ := hstands.data
  have hunread := hlz.unread (hk.sound.dec d hdec).dict hfits.mark hstands.opened
  refine ⟨fun hnil => ?_, hstands⟩
  have hrest : src.rest = [] := hfill.full.resolve_left (by rw [hnil]; exact Nat.not_succ_le_zero 0)
  have hstream := congrArg List.length hfill.stream
  unfold Source.stream at hstream hunread
  rw [hnil, hrest, List.append_nil, List.length_nil] at hstream
  omega

/-- The decoder of a block that keeps within its limits does not refuse a call. -/
theorem served_of_fits {opts : XzOptions} {b : Option (LzmaProps × List UInt8)} {prop : LzmaProps}
    {xs : List UInt8} {d : BlockDecoder C} {src : Source} {t : BlockDecoder.Decoded C}
    (hk : Kept opts b r) (hdec : r.dec = some d) (hb : b = some (prop, xs))
    (hfits : Fits prop d.limits xs) (hopen : d.finished = false) (hfill : r.src.Filled 1 src)
    (hdecides : BlockDecoder.Decides d src.avail t) :
    BlockDecoder.Served prop xs r.src.stream t := by
  obtain ⟨havail, hstands⟩ := avail_of_fits hk hdec hb hfits hopen hfill
  have htake : src.avail = r.src.stream.take src.avail.length := by
    rw [← hfill.stream, Source.stream, List.take_left]
  exact hdecides.served prop xs r.src.stream src.avail.length htake havail hopen hstands hfits

/-- The reader after a call of its block's decoder. -/
theorem kept_decoded {opts : XzOptions} {b : Option (LzmaProps × List UInt8)} {d : BlockDecoder C}
    {src : Source} {t : BlockDecoder.Decoded C} {out : List UInt8} {read wrote : ℕ}
    (hk : Kept opts b r) (hdec : r.dec = some d) (hfill : r.src.Filled 1 src)
    (hret : BlockDecoder.Returned src.avail out 0 t)
    (hdecides : BlockDecoder.Decides d src.avail t) (hres : t.res = .ok (read, wrote)) :
    Kept opts b { r with
      src := src.consume read, dec := some t.d, totalOut := r.totalOut + wrote } := by
  have hd := hk.block d hdec
  have hgiven := hdecides.given read wrote hres
  have hcap : t.d.cap = d.cap := by
    unfold BlockDecoder.cap
    rw [hdecides.limits]
  have hle : t.d.given ≤ t.d.cap := (Nat.sub_le _ _).trans hdecides.bounded.unpacked
  have hroom : ∀ cap ∈ r.opts.maxUnpackBytes,
      r.totalOut + wrote + (t.d.cap - t.d.given) ≤ cap := by
    intro cap hcapmem
    have := hd.room cap hcapmem
    omega
  refine ⟨⟨Source.consume_sound hfill.sound read, fun d' hd' => ?_, hk.sound.checkSize,
    hk.sound.tailLeft⟩, hk.opts, fun cap hcapmem => ?_, fun _ => hk.closed (by rw [hdec]; simp),
    fun d' hd' => ?_⟩
  · cases hd'
    exact hret.sound
  · exact (Nat.le_add_right _ _).trans (hroom cap hcapmem)
  · cases hd'
    refine ⟨hdecides.bounded, hdecides.limits ▸ hd.allowed, hdecides.limits ▸ hd.declared, hroom,
      fun prop xs hb hfits => ?_⟩
    rw [hdecides.limits] at hfits
    cases hopen : d.finished with
    | true => exact .inl (hdecides.closed hopen).1
    | false =>
        obtain ⟨read', wrote', hres', hnext⟩ :=
          served_of_fits hk hdec hb hfits hopen hfill hdecides
        cases hres.symm.trans hres'
        rw [← hfill.stream, ← Source.consume_stream src (hret.res read wrote hres).2.1] at hnext
        exact hnext

theorem block_kept (x8664 kernel : Bool) {opts : XzOptions} {b : Option (LzmaProps × List UInt8)}
    {fuel : ℕ} {out : List UInt8} (hk : Kept opts b r) (hne : out ≠ []) :
    (∀ r' out' n, r.block x8664 kernel fuel out = .ok (r', out', n) →
      Blocked opts b r r' n ∧ out'.length = out.length) ∧
    ∀ prop xs d k, b = some (prop, xs) → r.dec = some d → Fits prop d.limits xs →
      r.block x8664 kernel fuel out ≠ .error (.err k) := by
  induction fuel generalizing r out with
  | zero => exact ⟨(fun r' out' n hr => by cases hr), (fun _ _ _ k _ _ _ hr => by cases hr)⟩
  | succ fuel ih =>
      cases hdec : r.dec with
      | none =>
          have hblock : r.block x8664 kernel (fuel + 1) out = .error (.panic .index) := by
            rw [block, hdec]
          rw [hblock]
          exact ⟨(fun r' out' n hr => by cases hr), (fun _ _ _ k _ hd => by cases hd)⟩
      | some d =>
          have hd := hk.block d hdec
          by_cases hend : d.atEnd = true
          · obtain ⟨tail, htail⟩ : ∃ tail : XzReader C, { r with
              tailLeft := (4 - d.packed % 4) % 4 + r.checkSize, state := .blockTail } = tail :=
                ⟨_, rfl⟩
            rw [block_atEnd hdec hend, htail]
            refine ⟨fun r' out' n hr => ?_, fun _ _ _ k _ _ _ hr => by cases hr⟩
            cases hr
            subst htail
            refine ⟨⟨⟨⟨hk.sound.src, hk.sound.dec, hk.sound.checkSize, ?_⟩, hk.opts, hk.total,
              fun _ => .inr rfl, fun d' hd' => ?_⟩, rfl, rfl, rfl, rfl, by rw [hdec]; simp,
              by rw [hdec]; simp, rfl⟩, rfl⟩
            · have := hk.sound.checkSize
              change (4 - d.packed % 4) % 4 + r.checkSize ≤ _
              omega
            · have hd' := hk.block d' hd'
              exact ⟨hd'.bounded, hd'.allowed, hd'.declared, hd'.room, hd'.data⟩
          · have hsound := hk.sound.dec d hdec
            have hfill := Source.fillAtLeast_filled hk.sound.src (show 1 ≤ bufSize by decide)
            obtain ⟨src, hsrc⟩ : ∃ src, r.src.fillAtLeast 1 = src := ⟨_, rfl⟩
            rw [hsrc] at hfill
            obtain ⟨t, ht, hret⟩ := BlockDecoder.decode_spec x8664 kernel hsound
              (Bool.not_eq_true _ ▸ hend) src.avail out
            have hdecides := BlockDecoder.decode_limits x8664 kernel hsound hd.bounded hne ht
            have hout : t.out ≠ [] := fun hnil => hne (List.eq_nil_of_length_eq_zero
              (by rw [← hret.length, hnil]; rfl))
            cases hres : t.res with
            | error k =>
                rw [block_error hdec hend hsrc ht hres]
                refine ⟨(fun r' out' n hr => by cases hr), fun prop xs d' k' hb hd' hfits _ => ?_⟩
                cases hd'
                cases hopen : d.finished with
                | true =>
                    obtain ⟨-, read, wrote, hok⟩ := hdecides.closed hopen
                    cases hres.symm.trans hok
                | false =>
                    obtain ⟨read, wrote, hok, -⟩ :=
                      served_of_fits hk hdec hb hfits hopen hfill hdecides
                    cases hres.symm.trans hok
            | ok rw' =>
                obtain ⟨read, wrote⟩ := rw'
                have hkept := kept_decoded hk hdec hfill hret hdecides hres
                have hgiven := hdecides.given read wrote hres
                have hbase : r.given = d.given := by
                  unfold given
                  rw [hdec]
                  rfl
                have hlimits : some t.d.limits = r.dec.map BlockDecoder.limits := by
                  rw [hdec, hdecides.limits]
                  rfl
                rw [block_ok hdec hend hsrc ht hres]
                by_cases hwrote : 0 < wrote
                · have hcap : ¬ r.opts.maxUnpackBytes.any (· < r.totalOut + wrote) = true := by
                    intro hany
                    obtain ⟨cap, hcap, hlt⟩ := Option.any_eq_true _ _ |>.1 hany
                    have := hkept.total cap hcap
                    have hlt := of_decide_eq_true hlt
                    exact absurd hlt (Nat.not_lt.2 this)
                  rw [if_pos hwrote, if_neg hcap]
                  refine ⟨fun r' out' n hr => ?_, fun _ _ _ k _ _ _ hr => by cases hr⟩
                  cases hr
                  exact ⟨⟨hkept, rfl, rfl, rfl, by rw [hbase]; exact hgiven, by rw [hdec]; simp,
                    (fun h => by cases h), hlimits⟩, hret.length⟩
                · obtain rfl : wrote = 0 := by omega
                  rw [if_neg hwrote]
                  by_cases hstop : read = 0 ∧ src.avail.isEmpty = true
                  · rw [if_pos hstop]
                    refine ⟨(fun r' out' n hr => by cases hr),
                      fun prop xs d' k hb hd' hfits _ => ?_⟩
                    cases hd'
                    cases hopen : d.finished with
                    | true =>
                        have hpos : d.pendingPos ≠ d.pendingLen := fun he => hend (by
                          unfold BlockDecoder.atEnd
                          rw [hopen, decide_eq_true he]
                          rfl)
                        exact hwrote (decode_pending (Nat.lt_of_le_of_ne hsound.pending.1 hpos) hne
                          ht hres)
                    | false =>
                        exact (avail_of_fits hk hdec hb hfits hopen hfill).1
                          (List.isEmpty_iff.1 hstop.2)
                  · rw [if_neg hstop]
                    obtain ⟨hok, herr⟩ := ih hkept hout
                    refine ⟨fun r' out' n hr => ?_, fun prop xs d' k hb hd' hfits => ?_⟩
                    · obtain ⟨h, hlen⟩ := hok r' out' n hr
                      refine ⟨⟨h.kept, h.stream, h.blockNo, h.total, ?_, by rw [hdec]; simp, h.dec,
                        h.limits.trans hlimits⟩,
                        hlen.trans hret.length⟩
                      rw [h.given, hbase]
                      exact congrArg (· + n) hgiven
                    · cases hd'
                      exact herr prop xs t.d k hb rfl (hdecides.limits.symm ▸ hfits)

/-- What the block at hand decodes, from where the reader is. -/
def data (r : XzReader C) : Option (LzmaProps × List UInt8) :=
  r.dec.map fun d => (d.lzma2.decoder.prop, r.src.stream)

/-- The block at `k` is behind the reader. -/
def Passed (k : ℕ × ℕ) (r : XzReader C) : Prop :=
  k.1 < r.stream ∨
    k.1 = r.stream ∧ k.2 < r.blockNo ∧ r.state ≠ .padding ∧ r.state ≠ .streamHeader

/-- A turn outside a block. -/
structure Stepped (opts : XzOptions) (r r' : XzReader C) : Prop where
  kept : Kept opts r'.data r'
  total : r'.totalOut = r.totalOut
  given : r'.given = 0
  passed : ∀ k, Passed k r → Passed k r'
  tail : r.state = .blockTail → Passed (r.stream, r.blockNo) r'
  header : ∀ d, r'.dec = some d → r.state = .blockOrIndex ∧
    ∃ header, r.HeaderAt header ∧ d.limits = r.blockLimits header

/-- A turn after which there is no block. -/
theorem stepped_none {opts : XzOptions} {b : Option (LzmaProps × List UInt8)} {r' : XzReader C}
    (hk : Kept opts b r) (hsound : r'.Sound) (hopts : r'.opts = r.opts)
    (htotal : r'.totalOut = r.totalOut) (hdec : r'.dec = none)
    (hpassed : ∀ k, Passed k r → Passed k r')
    (htail : r.state = .blockTail → Passed (r.stream, r.blockNo) r') : Stepped opts r r' where
  kept := ⟨hsound, hopts.trans hk.opts, by rw [hopts, htotal]; exact hk.total,
    fun h => absurd hdec h, fun d hd => by rw [hdec] at hd; cases hd⟩
  total := htotal
  given := by
    unfold given
    rw [hdec]
    rfl
  passed := hpassed
  tail := htail
  header := fun d hd => by rw [hdec] at hd; cases hd

theorem padding_sound {fuel : ℕ} (hs : r.Sound) (h : r.padding fuel = .ok r') : r'.Sound := by
  induction fuel generalizing r with
  | zero => cases h
  | succ fuel ih =>
      have hfill := Source.fillAtLeast_filled hs.src (show 4 ≤ bufSize by decide)
      rw [padding] at h
      dsimp only at h
      split at h
      · cases h
        exact ⟨hfill.sound, hs.dec, hs.checkSize, hs.tailLeft⟩
      · split at h
        · cases h
        · split at h
          · cases h
          · split at h
            · exact ih (r := { r with src := (r.src.fillAtLeast 4).consume 4 })
                ⟨Source.consume_sound hfill.sound 4, hs.dec, hs.checkSize, hs.tailLeft⟩ h
            · cases h
              exact ⟨hfill.sound, hs.dec, hs.checkSize, hs.tailLeft⟩

/-- A turn that begins a block. -/
theorem stepped_block {opts : XzOptions} {b : Option (LzmaProps × List UInt8)}
    {header : BlockHeader} {src : Source} {dec : BlockDecoder C} {size : ℕ} (hk : Kept opts b r)
    (hs : r.state = .blockOrIndex) (hheader : HeaderAt r header)
    (hsound : ({ r with src, dec := some dec, blockHeaderSize := size, state := .block } :
      XzReader C).Sound)
    (hnew : BlockDecoder.new header.chain r.flags.check r.totalOut r.opts.verifyChecks
      (r.blockLimits header) = .ok dec) :
    Stepped opts r { r with src, dec := some dec, blockHeaderSize := size, state := .block } := by
  have hat := hheader
  obtain ⟨first, r₁, size', rest, r₂, -, -, -, hparse⟩ := hheader
  obtain ⟨hlimits, hunpacked, hlen, hpos, hdeclared, hstands⟩ :=
    new_kept (BlockHeader.parse_chain hparse) hnew src.stream
  have hzero : dec.given = 0 := by
    unfold BlockDecoder.given
    rw [hunpacked]
    exact Nat.zero_sub _
  rw [← hlimits] at hdeclared
  have hcap : dec.cap ≤ r.blockCap := by
    have hle := BlockDecoder.cap_le hdeclared
    rw [hlimits] at hle
    exact hle
  refine ⟨⟨hsound, hk.opts, hk.total, fun _ => .inl rfl, fun d hd => ?_⟩, rfl, hzero,
    fun k hp => ?_, (fun h => by rw [hs] at h; cases h), fun d hd => ?_⟩
  · cases hd
    refine ⟨⟨?_, ?_⟩, ?_, hdeclared, ?_, fun prop xs hb _ => ?_⟩
    · rw [hunpacked]
      exact Nat.zero_le _
    · rw [hunpacked, hlen]
      exact (Nat.zero_sub _).le
    · rw [hlimits]
      change r.blockCap ≤ r.opts.maxBlockSize
      unfold blockCap
      split
      · exact Nat.min_le_left _ _
      · exact Nat.le_refl _
    · intro cap hmem
      have htotal := hk.total cap hmem
      have hleft : r.blockCap ≤ cap - r.totalOut := by
        unfold blockCap
        rw [Option.mem_def.1 hmem]
        exact Nat.min_le_right _ _
      change r.totalOut + (dec.cap - dec.given) ≤ cap
      omega
    · cases hb
      exact .inr hstands
  · exact hp.imp id fun h => ⟨h.1, h.2.1, (fun h => by cases h), fun h => by cases h⟩
  · cases hd
    exact ⟨hs, header, hat, hlimits⟩

theorem turn_kept {opts : XzOptions} {b : Option (LzmaProps × List UInt8)} {fuel : ℕ}
    (hk : Kept opts b r) (hblock : r.state ≠ .block) (ht : r.turn fuel = .ok r') :
    Stepped opts r r' := by
  have hnone : r.state ≠ .blockTail → r.dec = none := fun htail => by
    by_contra h
    rcases hk.closed h with hs | hs
    · exact hblock hs
    · exact htail hs
  unfold turn at ht
  cases hs : r.state with
  | block => exact absurd hs hblock
  | done =>
      rw [hs] at ht
      cases ht
      have hdec := hnone (by rw [hs]; decide)
      exact stepped_none hk hk.sound rfl rfl hdec (fun _ h => h)
        fun h => by rw [hs] at h; cases h
  | streamHeader =>
      rw [hs] at ht
      have hdec := hnone (by rw [hs]; decide)
      have hsound := ((streamHeader_turned hk.sound).ok r' ht).1
      obtain ⟨src, flags, checkSize, fold, rfl⟩ := streamHeader_ok ht
      refine stepped_none hk hsound rfl rfl hdec (fun k hp => ?_)
        fun h => by rw [hs] at h; cases h
      exact .inl (hp.resolve_right fun h => h.2.2.2 hs)
  | blockOrIndex =>
      rw [hs] at ht
      have hdec := hnone (by rw [hs]; decide)
      have hsound := ((blockOrIndex_turned hk.sound).ok r' ht).1
      rcases blockOrIndex_ok ht with ⟨src, rfl⟩ | ⟨header, src, dec, size, hheader, rfl, hnew⟩
      · refine stepped_none hk hsound rfl rfl hdec (fun k hp => ?_)
          fun h => by rw [hs] at h; cases h
        exact hp.imp id fun h => ⟨h.1, h.2.1, (fun h => by cases h), fun h => by cases h⟩
      · exact stepped_block hk hs hheader hsound hnew
  | blockTail =>
      rw [hs] at ht
      have hsound := ((blockTail_turned hk.sound).ok r' ht).1
      obtain ⟨src, fold, rfl⟩ := blockTail_ok ht
      refine stepped_none hk hsound rfl rfl rfl (fun k hp => ?_) fun _ => ?_
      · exact hp.imp id fun h => ⟨h.1, h.2.1.trans (Nat.lt_succ_self _), (fun h => by cases h),
          fun h => by cases h⟩
      · exact .inr ⟨rfl, Nat.lt_succ_self _, (fun h => by cases h), fun h => by cases h⟩
  | index =>
      rw [hs] at ht
      have hdec := hnone (by rw [hs]; decide)
      have hsound := ((indexTurn_turned hk.sound).ok r' ht).1
      obtain ⟨src, size, rfl⟩ := indexTurn_ok ht
      refine stepped_none hk hsound rfl rfl hdec (fun k hp => ?_)
        fun h => by rw [hs] at h; cases h
      exact hp.imp id fun h => ⟨h.1, h.2.1, (fun h => by cases h), fun h => by cases h⟩
  | footer =>
      rw [hs] at ht
      have hdec := hnone (by rw [hs]; decide)
      have hsound := ((footer_turned hk.sound).ok r' ht).1
      obtain ⟨src, rfl⟩ := footer_ok ht
      refine stepped_none hk hsound rfl rfl hdec (fun k hp => ?_)
        fun h => by rw [hs] at h; cases h
      left
      change k.1 < r.stream + 1
      rcases hp with h | h
      · exact h.trans (Nat.lt_succ_self _)
      · exact h.1 ▸ Nat.lt_succ_self _
  | padding =>
      rw [hs] at ht
      have hdec := hnone (by rw [hs]; decide)
      have hsound := padding_sound hk.sound ht
      obtain ⟨src, state, rfl, -⟩ := padding_ok ht
      refine stepped_none hk hsound rfl rfl hdec (fun k hp => ?_)
        fun h => by rw [hs] at h; cases h
      exact .inl (hp.resolve_right fun h => h.2.2.1 hs)

section
variable (x8664 kernel : Bool)

/-- The readers that reads come to, turn by turn, with the data of the block at hand. -/
inductive Visits (r₀ : XzReader C) : Option (LzmaProps × List UInt8) → XzReader C → Prop
  | start : Visits r₀ none r₀
  | turn {b r r' fuel} : Visits r₀ b r → r.state ≠ .block → r.turn fuel = .ok r' →
      Visits r₀ r'.data r'
  | block {b r r' fuel out out' n} : Visits r₀ b r → r.state = .block → out ≠ [] →
      r.block x8664 kernel fuel out = .ok (r', out', n) → Visits r₀ b r'

/-- What a read gives is counted, for the block it is of. -/
structure Delivers (r r' : XzReader C) (n : ℕ) : Prop where
  total : r'.totalOut = r.totalOut + n
  passed : ∀ k, Passed k r → Passed k r'
  place : (r.dec ≠ none ∧ r'.stream = r.stream ∧ r'.blockNo = r.blockNo ∧
      r'.given = r.given + n) ∨
    r'.given = n ∧ (r.dec ≠ none → Passed (r.stream, r.blockNo) r')
  ends : r'.dec ≠ none ∨ r'.state = .done ∧ n = 0
  idle : r.state = .done → r' = r ∧ n = 0

theorem Blocked.passed {opts : XzOptions} {b : Option (LzmaProps × List UInt8)} {n : ℕ}
    (h : Blocked opts b r r' n) (k : ℕ × ℕ) (hp : Passed k r) : Passed k r' := by
  unfold Passed
  rw [h.stream, h.blockNo]
  refine hp.imp id fun hk => ⟨hk.1, hk.2.1, ?_⟩
  rcases h.kept.closed h.dec with hs | hs <;>
    exact ⟨(fun hn => by rw [hs] at hn; cases hn), fun hn => by rw [hs] at hn; cases hn⟩

theorem readLoop_kept {r₀ : XzReader C} {opts : XzOptions} {b : Option (LzmaProps × List UInt8)}
    {turns fuel n : ℕ} {out out' : List UInt8} (hv : Visits x8664 kernel r₀ b r)
    (hk : Kept opts b r) (hne : out ≠ [])
    (hr : r.readLoop x8664 kernel turns fuel out = .ok (r', out', n)) :
    (∃ b', Visits x8664 kernel r₀ b' r' ∧ Kept opts b' r') ∧ Delivers r r' n := by
  induction fuel generalizing b r out with
  | zero => cases hr
  | succ fuel ih =>
      by_cases hdone : r.state = .done
      · have hnone : r.dec = none := by
          by_contra h
          rcases hk.closed h with hs | hs <;> rw [hdone] at hs <;> cases hs
        have hread : r.readLoop x8664 kernel turns (fuel + 1) out = .ok (r, out, 0) := by
          rw [readLoop, hdone]
        rw [hread] at hr
        cases hr
        refine ⟨⟨b, hv, hk⟩, rfl, fun _ h => h, .inr ⟨?_, fun h => absurd hnone h⟩,
          .inr ⟨hdone, rfl⟩, fun _ => ⟨rfl, rfl⟩⟩
        unfold given
        rw [hnone]
        rfl
      by_cases hblock : r.state = .block
      · have hread : r.readLoop x8664 kernel turns (fuel + 1) out =
            (r.block x8664 kernel turns out >>= fun t =>
              if 0 < t.2.2 then .ok t else t.1.readLoop x8664 kernel turns fuel t.2.1) := by
          rw [readLoop, hblock]
        rw [hread] at hr
        obtain ⟨⟨r₁, out₁, n₁⟩, hres, hr⟩ := bind_eq_ok hr
        obtain ⟨hb, hlen⟩ := (block_kept x8664 kernel hk hne).1 r₁ out₁ n₁ hres
        have hv₁ : Visits x8664 kernel r₀ b r₁ := hv.block hblock hne hres
        dsimp only at hr
        split at hr
        · cases hr
          exact ⟨⟨b, hv₁, hb.kept⟩, hb.total, hb.passed,
            .inl ⟨hb.had, hb.stream, hb.blockNo, hb.given⟩, .inl hb.dec, fun h => absurd h hdone⟩
        next hn =>
          obtain rfl : n₁ = 0 := by omega
          have hne₁ : out₁ ≠ [] := fun hnil => hne (List.eq_nil_of_length_eq_zero
            (by rw [← hlen, hnil]; rfl))
          obtain ⟨hkept, hdel⟩ := ih hv₁ hb.kept hne₁ hr
          refine ⟨hkept, hdel.total.trans (by rw [hb.total]; rfl),
            fun k hp => hdel.passed k (hb.passed k hp), ?_, hdel.ends, fun h => absurd h hdone⟩
          rcases hdel.place with ⟨-, hs, hbn, hg⟩ | ⟨hg, hpass⟩
          · exact .inl ⟨hb.had, hs.trans hb.stream, hbn.trans hb.blockNo,
              hg.trans (by rw [hb.given]; rfl)⟩
          · refine .inr ⟨hg, fun _ => ?_⟩
            have := hpass hb.dec
            rw [hb.stream, hb.blockNo] at this
            exact this
      · rw [readLoop_turn x8664 kernel turns fuel out hblock hdone] at hr
        obtain ⟨r₁, hres, hr⟩ := bind_eq_ok hr
        have hstep := turn_kept hk hblock hres
        obtain ⟨hkept, hdel⟩ := ih (hv.turn hblock hres) hstep.kept hne hr
        have htail : r.dec ≠ none → r.state = .blockTail := fun h =>
          (hk.closed h).resolve_left hblock
        refine ⟨hkept, hdel.total.trans (by rw [hstep.total]),
          fun k hp => hdel.passed k (hstep.passed k hp), .inr ⟨?_, fun h =>
            hdel.passed _ (hstep.tail (htail h))⟩, hdel.ends, fun h => absurd h hdone⟩
        rcases hdel.place with ⟨-, -, -, hg⟩ | ⟨hg, -⟩
        · rw [hg, hstep.given, Nat.zero_add]
        · exact hg

end

end XzReader
end LzmaTurbo.Xz
