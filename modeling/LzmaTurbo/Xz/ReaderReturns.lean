import LzmaTurbo.Xz.BlockDecLaws
import LzmaTurbo.Xz.Check
import LzmaTurbo.Xz.IndexReaders
import LzmaTurbo.Xz.Reader

/-!
# A read returns

Every turn of the loop takes input, gives output, or goes to a state that is nearer to the
next one that must.
-/
namespace LzmaTurbo.Xz
open Machine Vli

namespace XzReader
variable {C : Checks} {r : XzReader C}

/-- What holds of a reader between calls, a failed one included. -/
structure Sound (r : XzReader C) : Prop where
  src : r.src.Sound
  dec : ∀ d ∈ r.dec, d.Sound
  checkSize : r.checkSize ≤ maxCheckSize
  tailLeft : r.tailLeft ≤ maxCheckSize + 3

/-- How much a reader has still to see. -/
def left (r : XzReader C) : ℕ := r.src.stream.length

theorem fail_ok {α : Type} {x : Except XzErrorKind α} {a : α} (h : fail x = .ok a) : x = .ok a := by
  cases x with
  | ok b => exact congrArg Except.ok (Except.ok.inj h)
  | error k => cases h

theorem fail_fuel {α : Type} (x : Except XzErrorKind α) : fail x ≠ .error .fuel := by
  cases x <;> exact fun h => by cases h

theorem take_spec (h : r.src.Sound) {n : ℕ} (hn : n ≤ bufSize) {bytes : List UInt8}
    {r' : XzReader C} (ht : r.take n = .ok (bytes, r')) :
    ∃ src, r' = { r with src } ∧ src.Sound ∧ bytes.length = n ∧
      src.stream.length + n = r.left := by
  unfold take at ht
  split at ht
  · cases ht
  next bytes' src hsome =>
    cases ht
    obtain ⟨hlen, hstream, hsound, -⟩ := Source.takeInto_of_some h hn hsome
    refine ⟨src, rfl, hsound, hlen, ?_⟩
    have hall := congrArg List.length hstream
    rw [List.length_append, hlen] at hall
    unfold left
    omega

theorem take_fuel (r : XzReader C) (n : ℕ) : r.take n ≠ .error .fuel := by
  unfold take
  split <;> exact fun h => by cases h

theorem bind_fuel {α β : Type} {x : Except Halt α} {f : α → Except Halt β}
    (h : (x >>= f) = .error .fuel) : x = .error .fuel ∨ ∃ a, x = .ok a ∧ f a = .error .fuel := by
  cases x with
  | error e =>
      have h : Except.error e = (Except.error .fuel : Except Halt β) := h
      cases h
      exact .inl rfl
  | ok a => exact .inr ⟨a, rfl, h⟩

theorem headerSize_le {b : UInt8} {size : ℕ} (h : headerSizeFromFirstByte b = some size) :
    size - 1 ≤ bufSize := by
  unfold headerSizeFromFirstByte at h
  split at h
  · cases h
  · cases h
    have := UInt8.toNat_lt b
    change (_ + 1) * 4 - 1 ≤ 65536
    omega

/-- What a turn outside a block does. -/
structure Turned (r : XzReader C) (res : Except Halt (XzReader C)) (states : List ReaderState)
    (used : ℕ) : Prop where
  fuel : res ≠ .error .fuel
  ok : ∀ r', res = .ok r' → r'.Sound ∧ r'.state ∈ states ∧ r'.left + used ≤ r.left

theorem fromId_size {id : UInt8} {c : CheckType} (h : CheckType.fromId id = .ok c) :
    c.size ≤ maxCheckSize := by
  unfold CheckType.fromId at h
  split at h
  · cases h
    decide
  · split at h
    · cases h
      decide
    · split at h
      · cases h
        decide
      · split at h
        · cases h
          decide
        · split at h
          next hle =>
            cases h
            have hle : id.toNat ≤ 15 := UInt8.le_iff_toNat_le.1 hle
            change (if id = 0 then 0 else 4 <<< ((id.toNat - 1) / 3)) ≤ 64
            split
            · exact Nat.zero_le _
            · have hpow : 2 ^ ((id.toNat - 1) / 3) ≤ 2 ^ 4 :=
                Nat.pow_le_pow_right (by decide) (by omega)
              rw [Nat.shiftLeft_eq]
              omega
          · cases h

theorem parse_checkSize {crc : LzmaTurbo.Crc.Digest UInt32} {buf : List UInt8} {flags : StreamFlags}
    (h : StreamHeader.parse crc buf = .ok flags) : flags.check.size ≤ maxCheckSize := by
  unfold StreamHeader.parse at h
  split at h
  · cases h
  · split at h
    · cases h
    · unfold StreamFlags.parse at h
      split at h
      · cases h
      · obtain ⟨check, hcheck, h⟩ := bind_eq_ok h
        cases h
        exact fromId_size hcheck

theorem streamHeader_turned (h : r.Sound) : Turned r r.streamHeader [.blockOrIndex] 1 := by
  constructor
  · intro hf
    unfold streamHeader at hf
    rcases bind_fuel hf with hf | ⟨⟨buf, r₁⟩, -, hf⟩
    · exact take_fuel _ _ hf
    · rcases bind_fuel hf with hf | ⟨flags, -, hf⟩
      · exact fail_fuel _ hf
      · split at hf <;> cases hf
  · intro r' hr
    unfold streamHeader at hr
    obtain ⟨⟨buf, r₁⟩, htake, hr⟩ := bind_eq_ok hr
    obtain ⟨src, rfl, hsound, -, hleft⟩ := take_spec h.src (by decide) htake
    obtain ⟨flags, hflags, hr⟩ := bind_eq_ok hr
    dsimp only at hr
    split at hr
    · cases hr
    · cases hr
      refine ⟨⟨hsound, h.dec, parse_checkSize (fail_ok hflags), h.tailLeft⟩,
        List.mem_singleton.2 rfl, ?_⟩
      change src.stream.length + 1 ≤ _
      have : streamHeaderSize = 12 := rfl
      omega

theorem blockOrIndex_turned (h : r.Sound) : Turned r r.blockOrIndex [.index, .block] 1 := by
  constructor
  · intro hf
    unfold blockOrIndex at hf
    rcases bind_fuel hf with hf | ⟨⟨first, r₁⟩, -, hf⟩
    · exact take_fuel _ _ hf
    · dsimp only at hf
      split at hf
      · cases hf
      · rcases bind_fuel hf with hf | ⟨⟨rest, r₂⟩, -, hf⟩
        · exact take_fuel _ _ hf
        · rcases bind_fuel hf with hf | ⟨header, -, hf⟩
          · exact fail_fuel _ hf
          · rcases bind_fuel hf with hf | ⟨dec, -, hf⟩
            · exact fail_fuel _ hf
            · cases hf
  · intro r' hr
    unfold blockOrIndex at hr
    obtain ⟨⟨first, r₁⟩, htake, hr⟩ := bind_eq_ok hr
    obtain ⟨src, rfl, hsound, -, hleft⟩ := take_spec h.src (by decide) htake
    dsimp only at hr
    split at hr
    · cases hr
      exact ⟨⟨hsound, h.dec, h.checkSize, h.tailLeft⟩, List.mem_cons_self, hleft.le⟩
    next size hsize =>
      obtain ⟨⟨rest, r₂⟩, htake₂, hr⟩ := bind_eq_ok hr
      obtain ⟨src₂, rfl, hsound₂, -, hleft₂⟩ := take_spec (r := { r with src }) hsound
        (headerSize_le hsize) htake₂
      obtain ⟨header, -, hr⟩ := bind_eq_ok hr
      obtain ⟨dec, hdec, hr⟩ := bind_eq_ok hr
      cases hr
      refine ⟨⟨hsound₂, fun d hd => ?_, h.checkSize, h.tailLeft⟩,
        List.mem_cons_of_mem _ List.mem_cons_self, ?_⟩
      · cases hd
        exact BlockDecoder.new_sound (fail_ok hdec)
      · have hsame : ({ r with src } : XzReader C).left = src.stream.length := rfl
        change src₂.stream.length + 1 ≤ _
        omega

theorem blockTail_turned (h : r.Sound) : Turned r r.blockTail [.blockOrIndex] 0 := by
  constructor
  · intro hf
    unfold blockTail at hf
    rcases bind_fuel hf with hf | ⟨⟨buf, r₁⟩, -, hf⟩
    · exact take_fuel _ _ hf
    · rcases bind_fuel hf with hf | ⟨padding, -, hf⟩
      · unfold checked sub at hf
        split at hf
        · cases hf
        next f hsub =>
          split at hsub
          · cases hsub
          · cases hsub
            cases hf
      · dsimp only at hf
        split at hf
        · cases hf
        · split at hf
          · cases hf
          · rcases bind_fuel hf with hf | ⟨u, -, hf⟩
            · exact fail_fuel _ hf
            · rcases bind_fuel hf with hf | ⟨fold, -, hf⟩
              · exact fail_fuel _ hf
              · cases hf
  · intro r' hr
    unfold blockTail at hr
    obtain ⟨⟨buf, r₁⟩, htake, hr⟩ := bind_eq_ok hr
    obtain ⟨src, rfl, hsound, -, hleft⟩ := take_spec h.src
      (h.tailLeft.trans (by decide)) htake
    obtain ⟨padding, -, hr⟩ := bind_eq_ok hr
    dsimp only at hr
    split at hr
    · cases hr
    · split at hr
      · cases hr
      · obtain ⟨u, -, hr⟩ := bind_eq_ok hr
        obtain ⟨fold, -, hr⟩ := bind_eq_ok hr
        cases hr
        exact ⟨⟨hsound, (fun d hd => by cases hd), h.checkSize, h.tailLeft⟩,
          List.mem_singleton.2 rfl, by show src.stream.length + 0 ≤ _; omega⟩

/-- Where the index ends. -/
theorem index_source {crc : LzmaTurbo.Crc.Digest UInt32} {K : LzmaTurbo.Crc.Digest UInt64}
    {src src' : Source} (h : src.Sound) {folded : FoldTotals} {n : ℕ}
    (hok : index crc K src folded = .ok (src', n)) :
    src'.Sound ∧ src'.stream.length ≤ src.stream.length := by
  unfold index at hok
  obtain ⟨⟨count, r₁⟩, hcount, hok⟩ := bind_ok_iff.1 hok
  obtain ⟨-, hread₁⟩ := indexVli_ok h hcount
  dsimp only at hok
  split at hok
  · cases hok
  · obtain ⟨⟨r₂, seen⟩, hrecs, hok⟩ := bind_ok_iff.1 hok
    obtain ⟨rs, -, -, -, hread₂⟩ := indexRecords_ok hread₁.sound hrecs
    dsimp only at hok
    split at hok
    · cases hok
    · obtain ⟨r₃, hpadding, hok⟩ := bind_ok_iff.1 hok
      have hread₃ := indexPadding_ok hread₂.sound (padTo4_spec _).1 hpadding
      split at hok
      · cases hok
      next stored src₄ htake =>
        split at hok
        · cases hok
        · cases hok
          obtain ⟨-, hstream, hsound, -⟩ := Source.takeInto_of_some hread₃.sound (by decide) htake
          refine ⟨hsound, ?_⟩
          have hall := congrArg List.length ((hread₁.trans hread₂).trans hread₃).stream
          have hlast := congrArg List.length hstream
          rw [List.length_append] at hall hlast
          have hone : (⟨src, crc.update crc.new [0], 1⟩ : IndexRun crc).src.stream.length =
            src.stream.length := rfl
          omega

theorem indexTurn_turned (h : r.Sound) : Turned r r.indexTurn [.footer] 0 := by
  constructor
  · intro hf
    unfold indexTurn at hf
    rcases bind_fuel hf with hf | ⟨⟨src, size⟩, -, hf⟩
    · exact fail_fuel _ hf
    · cases hf
  · intro r' hr
    unfold indexTurn at hr
    obtain ⟨⟨src, size⟩, hindex, hr⟩ := bind_eq_ok hr
    cases hr
    obtain ⟨hsound, hleft⟩ := index_source h.src (fail_ok hindex)
    exact ⟨⟨hsound, h.dec, h.checkSize, h.tailLeft⟩, List.mem_singleton.2 rfl, hleft⟩

theorem footer_turned (h : r.Sound) : Turned r r.footer [.padding] 0 := by
  constructor
  · intro hf
    unfold footer at hf
    rcases bind_fuel hf with hf | ⟨⟨buf, r₁⟩, -, hf⟩
    · exact take_fuel _ _ hf
    · rcases bind_fuel hf with hf | ⟨foot, -, hf⟩
      · exact fail_fuel _ hf
      · split at hf
        · cases hf
        · split at hf <;> cases hf
  · intro r' hr
    unfold footer at hr
    obtain ⟨⟨buf, r₁⟩, htake, hr⟩ := bind_eq_ok hr
    obtain ⟨src, rfl, hsound, -, hleft⟩ := take_spec h.src (by decide) htake
    obtain ⟨foot, -, hr⟩ := bind_eq_ok hr
    split at hr
    · cases hr
    · split at hr
      · cases hr
      · cases hr
        exact ⟨⟨hsound, h.dec, h.checkSize, h.tailLeft⟩, List.mem_singleton.2 rfl,
          by show src.stream.length + 0 ≤ _; omega⟩

/-- The padding, on enough fuel. -/
theorem padding_turned {n : ℕ} (h : r.Sound) (hn : r.left = n) :
    ∃ res, Turned r res [.done, .streamHeader] 0 ∧
      ∀ fuel, n < fuel → r.padding fuel = res := by
  induction n using Nat.strong_induction_on generalizing r with
  | _ n ih =>
      have hfill := Source.fillAtLeast_filled h.src (show 4 ≤ bufSize by decide)
      obtain ⟨src, hsrc⟩ : ∃ src, r.src.fillAtLeast 4 = src := ⟨_, rfl⟩
      rw [hsrc] at hfill
      have hleft : src.stream.length = r.left := by
        rw [hfill.stream]
        rfl
      have hstep : ∀ fuel, n < fuel → ∃ f, fuel = f + 1 ∧ n ≤ f := fun fuel hf =>
        ⟨fuel - 1, by omega, by omega⟩
      have hkeep : ∀ state ∈ [ReaderState.done, .streamHeader],
          Turned r (.ok { r with src, state }) [.done, .streamHeader] 0 := fun state hs =>
        ⟨(fun hf => by cases hf), fun r' hr => by
          cases hr
          exact ⟨⟨hfill.sound, h.dec, h.checkSize, h.tailLeft⟩, hs, hleft.le⟩⟩
      have herr : ∀ k, Turned r (.error (.err k)) [.done, .streamHeader] 0 := fun k =>
        ⟨(fun hf => by cases hf), fun r' hr => by cases hr⟩
      by_cases hempty : src.avail = []
      · refine ⟨_, hkeep .done List.mem_cons_self, fun fuel hf => ?_⟩
        obtain ⟨f, rfl, -⟩ := hstep fuel hf
        rw [padding, hsrc]
        exact if_pos hempty
      by_cases hone : r.opts.concatenated = false
      · refine ⟨_, herr .trailingGarbage, fun fuel hf => ?_⟩
        obtain ⟨f, rfl, -⟩ := hstep fuel hf
        rw [padding, hsrc]
        exact (if_neg hempty).trans (if_pos hone)
      by_cases hshort : src.avail.length < 4
      · refine ⟨_, herr .trailingGarbage, fun fuel hf => ?_⟩
        obtain ⟨f, rfl, -⟩ := hstep fuel hf
        rw [padding, hsrc]
        exact (if_neg hempty).trans ((if_neg hone).trans (if_pos hshort))
      by_cases hzero : src.avail.take 4 = [0, 0, 0, 0]
      · have hnext : ({ r with src := src.consume 4 } : XzReader C).left + 4 = n := by
          change (src.consume 4).stream.length + 4 = n
          rw [Source.consume_stream src (Nat.le_of_not_lt hshort), List.length_drop]
          have hle : src.avail.length ≤ src.stream.length := by
            unfold Source.stream
            rw [List.length_append]
            exact Nat.le_add_right _ _
          omega
        obtain ⟨res, hres, hall⟩ := ih _ (by omega)
          (r := { r with src := src.consume 4 })
          ⟨Source.consume_sound hfill.sound 4, h.dec, h.checkSize, h.tailLeft⟩ rfl
        refine ⟨res, ⟨hres.fuel, fun r' hr => ?_⟩, fun fuel hf => ?_⟩
        · obtain ⟨h1, h2, h3⟩ := hres.ok r' hr
          exact ⟨h1, h2, by omega⟩
        · obtain ⟨f, rfl, hf⟩ := hstep fuel hf
          rw [padding, hsrc]
          exact (if_neg hempty).trans ((if_neg hone).trans ((if_neg hshort).trans
            ((if_pos hzero).trans (hall f (by omega)))))
      · refine ⟨_, hkeep .streamHeader (List.mem_cons_of_mem _ List.mem_cons_self),
          fun fuel hf => ?_⟩
        obtain ⟨f, rfl, -⟩ := hstep fuel hf
        rw [padding, hsrc]
        exact (if_neg hempty).trans ((if_neg hone).trans ((if_neg hshort).trans (if_neg hzero)))

/-- How near a reader in a block is to its end: a turn takes input or reaches the end. -/
def blockLeft (r : XzReader C) : ℕ :=
  2 * r.left + if r.dec.any BlockDecoder.atEnd then 0 else 1

/-- What a call of `block` does. -/
structure BlockTurned (r : XzReader C) (out : List UInt8)
    (res : Except Halt (XzReader C × List UInt8 × ℕ)) : Prop where
  fuel : res ≠ .error .fuel
  ok : ∀ r' out' n, res = .ok (r', out', n) → r'.Sound ∧ (n = 0 → r'.state = .blockTail) ∧
    r'.left ≤ r.left ∧ out'.length = out.length

section
variable {x8664 kernel : Bool} {d : BlockDecoder C} {src : Source} {out : List UInt8}
  {t : BlockDecoder.Decoded C}

theorem block_atEnd (hdec : r.dec = some d) (hend : d.atEnd = true) (fuel : ℕ) :
    r.block x8664 kernel (fuel + 1) out = .ok ({ r with
      tailLeft := (4 - d.packed % 4) % 4 + r.checkSize, state := .blockTail }, out, 0) := by
  rw [block, hdec]
  exact if_pos hend

/-- A call of the block's decoder that fails. -/
theorem block_error (hdec : r.dec = some d) (hend : ¬ d.atEnd = true)
    (hsrc : r.src.fillAtLeast 1 = src) (ht : d.decode x8664 kernel src.avail out = .ok t)
    {k : XzErrorKind} (hres : t.res = .error k) (fuel : ℕ) :
    r.block x8664 kernel (fuel + 1) out = .error (.err k) := by
  rw [block, hdec]
  apply (if_neg hend).trans
  dsimp only
  rw [hsrc, ht]
  change (fail t.res >>= _) = _
  rw [hres]
  rfl

/-- What is done with a call of the block's decoder. -/
theorem block_ok (hdec : r.dec = some d) (hend : ¬ d.atEnd = true)
    (hsrc : r.src.fillAtLeast 1 = src) (ht : d.decode x8664 kernel src.avail out = .ok t)
    {read wrote : ℕ} (hres : t.res = .ok (read, wrote)) (fuel : ℕ) :
    r.block x8664 kernel (fuel + 1) out = (
      if 0 < wrote then
        if r.opts.maxUnpackBytes.any (· < r.totalOut + wrote) then
          .error (.err (.tooMuchOutput (r.opts.maxUnpackBytes.getD 0)))
        else .ok ({ r with
          src := src.consume read, dec := some t.d, totalOut := r.totalOut + wrote },
          t.out, wrote)
      else if read = 0 ∧ src.avail.isEmpty then .error (.err .truncatedInput)
      else block x8664 kernel fuel { r with src := src.consume read, dec := some t.d } t.out) := by
  rw [block, hdec]
  apply (if_neg hend).trans
  dsimp only
  rw [hsrc, ht]
  change (fail t.res >>= _) = _
  rw [hres]
  rfl

end

theorem block_turned (x8664 kernel : Bool) {n : ℕ} {out : List UInt8} (h : r.Sound) (hne : out ≠ [])
    (hn : r.blockLeft = n) :
    ∃ res, BlockTurned r out res ∧ ∀ fuel, n < fuel → r.block x8664 kernel fuel out = res := by
  induction n using Nat.strong_induction_on generalizing r out with
  | _ n ih =>
      have hstep : ∀ fuel, n < fuel → ∃ f, fuel = f + 1 ∧ n ≤ f := fun fuel hf =>
        ⟨fuel - 1, by omega, by omega⟩
      have herr : ∀ e : Halt, e ≠ .fuel → BlockTurned r out (.error e) := fun e he =>
        ⟨(fun hf => he (Except.error.inj hf)), fun r' out' n hr => by cases hr⟩
      cases hdec : r.dec with
      | none =>
          refine ⟨_, herr (.panic .index) (fun hf => by cases hf), fun fuel hf => ?_⟩
          obtain ⟨f, rfl, -⟩ := hstep fuel hf
          rw [block, hdec]
      | some dec =>
          have hd : dec.Sound := h.dec dec hdec
          by_cases hend : dec.atEnd = true
          · obtain ⟨tail, htail⟩ : ∃ tail : XzReader C, { r with
              tailLeft := (4 - dec.packed % 4) % 4 + r.checkSize, state := .blockTail } = tail :=
                ⟨_, rfl⟩
            refine ⟨.ok (tail, out, 0), ⟨(fun hf => by cases hf), fun r' out' n hr => ?_⟩,
              fun fuel hf => ?_⟩
            · cases hr
              rw [← htail]
              refine ⟨⟨h.src, h.dec, h.checkSize, ?_⟩, fun _ => rfl, Nat.le_refl _, rfl⟩
              have := h.checkSize
              change (4 - dec.packed % 4) % 4 + r.checkSize ≤ _
              omega
            · obtain ⟨f, rfl, -⟩ := hstep fuel hf
              rw [← htail]
              exact block_atEnd hdec hend f
          · have hfill := Source.fillAtLeast_filled h.src (show 1 ≤ bufSize by decide)
            obtain ⟨src, hsrc⟩ : ∃ src, r.src.fillAtLeast 1 = src := ⟨_, rfl⟩
            rw [hsrc] at hfill
            have hleft : src.stream.length = r.left := by
              rw [hfill.stream]
              rfl
            have hweight : r.blockLeft = 2 * r.left + 1 := by
              unfold blockLeft
              rw [hdec, Option.any_some, if_neg hend]
            obtain ⟨t, ht, hret⟩ := BlockDecoder.decode_spec x8664 kernel hd
              (Bool.not_eq_true _ ▸ hend) src.avail out
            have hout : t.out ≠ [] := fun hnil => hne (List.eq_nil_of_length_eq_zero
              (by rw [← hret.length, hnil]; rfl))
            cases hres : t.res with
            | error k =>
                refine ⟨_, herr (.err k) (fun hf => by cases hf), fun fuel hf => ?_⟩
                obtain ⟨f, rfl, -⟩ := hstep fuel hf
                exact block_error hdec hend hsrc ht hres f
            | ok rw' =>
                obtain ⟨read, wrote⟩ := rw'
                obtain ⟨-, hread, hprog⟩ := hret.res read wrote hres
                obtain ⟨next, hnext⟩ : ∃ next : XzReader C,
                  { r with src := src.consume read, dec := some t.d } = next := ⟨_, rfl⟩
                have hsound : next.Sound := by
                  rw [← hnext]
                  exact ⟨Source.consume_sound hfill.sound read, (fun d hd' => by
                    cases hd'
                    exact hret.sound), h.checkSize, h.tailLeft⟩
                have hnleft : next.left = r.left - read := by
                  rw [← hnext, ← hleft]
                  change (src.consume read).stream.length = _
                  rw [Source.consume_stream src hread, List.length_drop]
                have hgo : ∀ f, r.block x8664 kernel (f + 1) out = (
                    if 0 < wrote then
                      if next.opts.maxUnpackBytes.any (· < next.totalOut + wrote) then
                        .error (.err (.tooMuchOutput (next.opts.maxUnpackBytes.getD 0)))
                      else .ok ({ next with totalOut := next.totalOut + wrote }, t.out, wrote)
                    else if read = 0 ∧ src.avail.isEmpty then .error (.err .truncatedInput)
                    else block x8664 kernel f next t.out) := by
                  intro f
                  rw [← hnext]
                  exact block_ok hdec hend hsrc ht hres f
                by_cases hwrote : 0 < wrote
                · by_cases hcap : next.opts.maxUnpackBytes.any (· < next.totalOut + wrote) = true
                  · refine ⟨_, herr (.err (.tooMuchOutput (next.opts.maxUnpackBytes.getD 0)))
                      (fun hf => by cases hf), fun fuel hf => ?_⟩
                    obtain ⟨f, rfl, -⟩ := hstep fuel hf
                    exact (hgo f).trans ((if_pos hwrote).trans (if_pos hcap))
                  · refine ⟨.ok ({ next with totalOut := next.totalOut + wrote }, t.out, wrote),
                      ⟨(fun hf => by cases hf), fun r' out' n' hr => ?_⟩, fun fuel hf => ?_⟩
                    · cases hr
                      exact ⟨⟨hsound.src, hsound.dec, hsound.checkSize, hsound.tailLeft⟩,
                        fun hz => by omega, by show next.left ≤ _; omega, hret.length⟩
                    · obtain ⟨f, rfl, -⟩ := hstep fuel hf
                      exact (hgo f).trans ((if_pos hwrote).trans (if_neg hcap))
                · by_cases hstop : read = 0 ∧ src.avail.isEmpty = true
                  · refine ⟨_, herr (.err .truncatedInput) (fun hf => by cases hf),
                      fun fuel hf => ?_⟩
                    obtain ⟨f, rfl, -⟩ := hstep fuel hf
                    exact (hgo f).trans ((if_neg hwrote).trans (if_pos hstop))
                  · have hless : next.blockLeft < n := by
                      rw [← hn, hweight]
                      unfold blockLeft
                      have hread : read ≤ r.left := by
                        rw [← hleft, Source.stream, List.length_append]
                        omega
                      by_cases hr : 0 < read
                      · split <;> omega
                      · have hz : read = 0 := by omega
                        have havail : 0 < src.avail.length := List.length_pos_of_ne_nil fun hnil =>
                          hstop ⟨hz, by rw [hnil]; rfl⟩
                        have hatEnd := ((hprog hne havail).resolve_left (by omega)).resolve_left
                          hwrote
                        rw [← hnext, Option.any_some, if_pos hatEnd, hnext]
                        omega
                    obtain ⟨res, hres', hall⟩ := ih _ hless hsound hout rfl
                    refine ⟨res, ⟨hres'.fuel, fun r' out' n' hr => ?_⟩, fun fuel hf => ?_⟩
                    · obtain ⟨h1, h2, h3, h4⟩ := hres'.ok r' out' n' hr
                      exact ⟨h1, h2, by omega, h4.trans hret.length⟩
                    · obtain ⟨f, rfl, hf⟩ := hstep fuel hf
                      exact (hgo f).trans ((if_neg hwrote).trans ((if_neg hstop).trans
                        (hall f (by omega))))

/-- The states from the nearest to the next that must take input. -/
def rank : ReaderState → ℕ
  | .done => 0
  | .streamHeader | .blockOrIndex => 1
  | .blockTail | .padding => 2
  | .block | .footer => 3
  | .index => 4

/-- The turns outside a block, by the state. -/
def turn (fuel : ℕ) (r : XzReader C) : Except Halt (XzReader C) :=
  match r.state with
  | .streamHeader => r.streamHeader
  | .blockOrIndex => r.blockOrIndex
  | .blockTail => r.blockTail
  | .index => r.indexTurn
  | .footer => r.footer
  | .padding => r.padding fuel
  | .block | .done => .ok r

theorem readLoop_turn (x8664 kernel : Bool) (turns fuel : ℕ) (out : List UInt8)
    (hblock : r.state ≠ .block) (hdone : r.state ≠ .done) :
    r.readLoop x8664 kernel turns (fuel + 1) out =
      (r.turn turns >>= fun r' => r'.readLoop x8664 kernel turns fuel out) := by
  rw [readLoop]
  unfold turn
  cases hs : r.state with
  | block => exact absurd hs hblock
  | done => exact absurd hs hdone
  | _ => rfl

/-- A turn outside a block, on enough fuel: it takes input or comes nearer to one that must. -/
theorem turn_turned (h : r.Sound) (hblock : r.state ≠ .block) (hdone : r.state ≠ .done) :
    ∃ res states used, Turned r res states used ∧
      (∀ s ∈ states, rank s < 5 * used + rank r.state) ∧
      ∀ turns, 2 * r.left + 1 < turns → r.turn turns = res := by
  unfold turn
  cases hstate : r.state with
  | block => exact absurd hstate hblock
  | done => exact absurd hstate hdone
  | streamHeader =>
      refine ⟨_, _, _, streamHeader_turned h, fun s hs => ?_, fun _ _ => rfl⟩
      rw [List.mem_singleton.1 hs]
      decide
  | blockOrIndex =>
      refine ⟨_, _, _, blockOrIndex_turned h, fun s hs => ?_, fun _ _ => rfl⟩
      rcases List.mem_cons.1 hs with rfl | hs
      · decide
      · rw [List.mem_singleton.1 hs]
        decide
  | blockTail =>
      refine ⟨_, _, _, blockTail_turned h, fun s hs => ?_, fun _ _ => rfl⟩
      rw [List.mem_singleton.1 hs]
      decide
  | index =>
      refine ⟨_, _, _, indexTurn_turned h, fun s hs => ?_, fun _ _ => rfl⟩
      rw [List.mem_singleton.1 hs]
      decide
  | footer =>
      refine ⟨_, _, _, footer_turned h, fun s hs => ?_, fun _ _ => rfl⟩
      rw [List.mem_singleton.1 hs]
      decide
  | padding =>
      obtain ⟨x, hx, hall⟩ := padding_turned h rfl
      refine ⟨_, _, _, hx, fun s hs => ?_, fun turns ht => hall turns (by omega)⟩
      rcases List.mem_cons.1 hs with rfl | hs
      · decide
      · rw [List.mem_singleton.1 hs]
        decide

/-- What the loop of `read` comes to. -/
structure ReadTurned (r : XzReader C) (out : List UInt8)
    (res : Except Halt (XzReader C × List UInt8 × ℕ)) : Prop where
  fuel : res ≠ .error .fuel
  ok : ∀ r' out' n, res = .ok (r', out', n) → r'.Sound ∧ r'.left ≤ r.left ∧
    out'.length = out.length

theorem readLoop_turned (x8664 kernel : Bool) {n : ℕ} {out : List UInt8} (h : r.Sound)
    (hne : out ≠ []) (hn : 5 * r.left + rank r.state = n) :
    ∃ res, ReadTurned r out res ∧ ∀ turns fuel, 2 * r.left + 1 < turns → n < fuel →
      r.readLoop x8664 kernel turns fuel out = res := by
  induction n using Nat.strong_induction_on generalizing r out with
  | _ n ih =>
      have hstep : ∀ fuel, n < fuel → ∃ f, fuel = f + 1 ∧ n ≤ f := fun fuel hf =>
        ⟨fuel - 1, by omega, by omega⟩
      by_cases hdone : r.state = .done
      · refine ⟨.ok (r, out, 0), ⟨(fun hf => by cases hf), fun r' out' n' hr => ?_⟩,
          fun turns fuel ht hf => ?_⟩
        · cases hr
          exact ⟨h, Nat.le_refl _, rfl⟩
        · obtain ⟨f, rfl, -⟩ := hstep fuel hf
          rw [readLoop, hdone]
      by_cases hstate : r.state = .block
      case neg =>
        obtain ⟨x, states, used, hx, hnear, hall⟩ := turn_turned h hstate hdone
        have hgo : ∀ turns f, 2 * r.left + 1 < turns → r.readLoop x8664 kernel turns (f + 1) out =
            (x >>= fun r' => r'.readLoop x8664 kernel turns f out) := fun turns f ht => by
          rw [readLoop_turn x8664 kernel turns f out hstate hdone, hall turns ht]
        cases hres : x with
        | error e =>
            refine ⟨.error e, ⟨(fun hf => ?_), fun r' out' n' hr => by cases hr⟩,
              fun turns fuel ht hf => ?_⟩
            · exact hx.fuel (hres.trans (congrArg Except.error (Except.error.inj hf)))
            · obtain ⟨f, rfl, -⟩ := hstep fuel hf
              rw [hgo turns f ht, hres]
              rfl
        | ok next =>
            obtain ⟨hsound, hnext, hleft⟩ := hx.ok next hres
            have hless := hnear next.state hnext
            obtain ⟨res, hread, hall⟩ := ih (5 * next.left + rank next.state) (by omega) hsound hne
              rfl
            refine ⟨res, ⟨hread.fuel, fun r' out' n' hr => ?_⟩, fun turns fuel ht hf => ?_⟩
            · obtain ⟨h₁, h₂, h₃⟩ := hread.ok r' out' n' hr
              exact ⟨h₁, by omega, h₃⟩
            · obtain ⟨f, rfl, hf⟩ := hstep fuel hf
              rw [hgo turns f ht, hres]
              exact hall turns f (by omega) (by omega)
      case pos =>
        obtain ⟨x, hx, hall⟩ := block_turned x8664 kernel h hne rfl
        have hfuel : ∀ turns, 2 * r.left + 1 < turns → r.block x8664 kernel turns out = x :=
          fun turns ht => hall turns (by unfold blockLeft; split <;> omega)
        have hgo : ∀ turns f, 2 * r.left + 1 < turns → r.readLoop x8664 kernel turns (f + 1) out =
            (x >>= fun t => if 0 < t.2.2 then .ok t else
              t.1.readLoop x8664 kernel turns f t.2.1) := by
          intro turns f ht
          rw [readLoop, hstate, ← hfuel turns ht]
        cases hres : x with
        | error e =>
            refine ⟨.error e, ⟨(fun hf => ?_), fun r' out' n' hr => by cases hr⟩,
              fun turns fuel ht hf => ?_⟩
            · exact hx.fuel (hres.trans (congrArg Except.error (Except.error.inj hf)))
            · obtain ⟨f, rfl, -⟩ := hstep fuel hf
              rw [hgo turns f ht, hres]
              rfl
        | ok t =>
            obtain ⟨next, out₁, wrote⟩ := t
            obtain ⟨hsound, hzero, hleft, hlen⟩ := hx.ok next out₁ wrote hres
            by_cases hwrote : 0 < wrote
            · refine ⟨.ok (next, out₁, wrote), ⟨(fun hf => by cases hf),
                fun r' out' n' hr => ?_⟩, fun turns fuel ht hf => ?_⟩
              · cases hr
                exact ⟨hsound, hleft, hlen⟩
              · obtain ⟨f, rfl, -⟩ := hstep fuel hf
                rw [hgo turns f ht, hres]
                exact if_pos hwrote
            · have htail : rank next.state = 2 := by
                rw [hzero (by omega)]
                rfl
              have hblock : rank r.state = 3 := by
                rw [hstate]
                rfl
              have hne₁ : out₁ ≠ [] := fun hnil => hne (List.eq_nil_of_length_eq_zero
                (by rw [← hlen, hnil]; rfl))
              obtain ⟨res, hread, hall'⟩ := ih (5 * next.left + rank next.state) (by omega)
                hsound hne₁ rfl
              refine ⟨res, ⟨hread.fuel, fun r' out' n' hr => ?_⟩, fun turns fuel ht hf => ?_⟩
              · obtain ⟨h₁, h₂, h₃⟩ := hread.ok r' out' n' hr
                exact ⟨h₁, by omega, h₃.trans hlen⟩
              · obtain ⟨f, rfl, hf⟩ := hstep fuel hf
                rw [hgo turns f ht, hres]
                exact (if_neg hwrote).trans (hall' turns f (by omega) (by omega))

theorem withOptions_sound {src : Source} (h : src.Sound) (opts : XzOptions) :
    (withOptions src opts : XzReader C).Sound :=
  ⟨h, (fun d hd => by cases hd), Nat.zero_le _, Nat.zero_le _⟩

/-- A read returns, whatever the input, the sizes of the source's reads and the buffer: the
turns it makes are bounded by what is left of the input, and it leaves a reader whose next read
returns. -/
theorem read_returns (C : Checks) (x8664 kernel : Bool) :
    (∀ (src : Source) (opts : XzOptions), src.Sound → (withOptions src opts : XzReader C).Sound) ∧
    ∀ (r : XzReader C) (out : List UInt8), r.Sound →
      ∃ res : Except Halt (XzReader C × List UInt8 × ℕ), res ≠ .error .fuel ∧
        (∀ fuel, 5 * r.left + 5 ≤ fuel → r.read x8664 kernel fuel out = res) ∧
        ∀ r' out' n, res = .ok (r', out', n) →
          r'.Sound ∧ r'.left ≤ r.left ∧ out'.length = out.length := by
  refine ⟨fun src opts h => withOptions_sound h opts, fun r out h => ?_⟩
  by_cases hempty : out = []
  · refine ⟨.ok (r, out, 0), (fun hf => by cases hf), fun fuel _ => if_pos hempty,
      fun r' out' n hr => ?_⟩
    cases hr
    exact ⟨h, Nat.le_refl _, rfl⟩
  · have hrank : rank r.state ≤ 4 := by cases r.state <;> decide
    obtain ⟨res, hread, hall⟩ := readLoop_turned x8664 kernel h hempty rfl
    exact ⟨res, hread.fuel,
      fun fuel hf => (if_neg hempty).trans (hall fuel fuel (by omega) (by omega)), hread.ok⟩

/-- Options a caller may give. -/
def small : XzOptions := ⟨0x4000000, true, false, 0x10000, none, true, false⟩

/-- A file of "abc" under an x86 filter, which holds it back up to the end of the block. -/
def filteredFile : List UInt8 :=
  [0xFD, 0x37, 0x7A, 0x58, 0x5A, 0, 0, 1, 0x69, 0x22, 0xDE, 0x36,
    2, 1, 4, 0, 0x21, 1, 0, 0, 0xDA, 0x33, 0xAD, 3,
    1, 0, 2, 97, 98, 99, 0, 0, 0xC2, 0x41, 0x24, 0x35,
    0, 1, 23, 3, 7, 0x60, 12, 0xBC,
    0x90, 0x42, 0x99, 13, 1, 0, 0, 0, 0, 1, 0x59, 0x5A]

/-- Its first read, the source giving some bytes, one more, and then the rest, goes over its headers
into the block, and back for what the filter gives up at the end. -/
theorem read_returns_filtered :
    ∃ r' : XzReader RunningCheck.cutAtOne, r'.Sound ∧ r'.state = .block ∧ ∀ fuel, 285 ≤ fuel →
      (withOptions (.new filteredFile [5, 0, 1]) small : XzReader RunningCheck.cutAtOne).read true
        true fuel [0, 0] = .ok (r', [97, 98], 2) := by
  obtain ⟨hnew, hread⟩ := read_returns RunningCheck.cutAtOne true true
  obtain ⟨res, -, hall, hok⟩ := hread _ [0, 0] (hnew (.new filteredFile [5, 0, 1]) small
    (fun h => by cases h))
  have hrun : ((withOptions (.new filteredFile [5, 0, 1]) small :
      XzReader RunningCheck.cutAtOne).read true true 285 [0, 0]).toOption.any (fun t =>
        t.1.state = .block ∧ t.2 = ([97, 98], 2)) = true := by
    decide +kernel
  rw [hall 285 (Nat.le_refl _)] at hrun
  cases res with
  | error e => cases hrun
  | ok t =>
      obtain ⟨r', out', n⟩ := t
      obtain ⟨hblock, hout⟩ := of_decide_eq_true hrun
      cases hout
      exact ⟨r', (hok r' _ _ rfl).1, hblock, hall⟩

end XzReader
end LzmaTurbo.Xz
