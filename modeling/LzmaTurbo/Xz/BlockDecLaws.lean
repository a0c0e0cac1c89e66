import LzmaTurbo.Lzma2.CallStatus
import LzmaTurbo.Lzma2.Acceptance
import LzmaTurbo.Xz.BlockDec
import LzmaTurbo.Xz.Streams

/-!
# What a call on a block does

It returns, in whatever state the block is, and with input and room for output it reads a
byte, writes one, or is at the block's end.
-/
namespace LzmaTurbo.Xz
open Machine Lzma Lzma2

theorem copyTo_of_le (buf xs : List UInt8) (start : ℕ) (h : start + xs.length ≤ buf.length) :
    copyTo buf start xs = .ok (buf.take start ++ xs ++ buf.drop (start + xs.length)) := by
  rw [copyTo, if_pos h]

theorem copied_length (buf xs : List UInt8) (start : ℕ) (h : start + xs.length ≤ buf.length) :
    (buf.take start ++ xs ++ buf.drop (start + xs.length)).length = buf.length := by
  rw [List.length_append, List.length_append, List.length_take, List.length_drop]
  omega

theorem copyTo_length {buf buf' xs : List UInt8} {start : ℕ} (h : copyTo buf start xs = .ok buf') :
    buf'.length = buf.length := by
  unfold copyTo at h
  split at h
  next hle =>
    cases h
    exact copied_length _ _ _ hle
  · cases h

theorem sliceOf_of_le (buf : List UInt8) (start len : ℕ) (h : start + len ≤ buf.length) :
    ∃ made, sliceOf buf start len = .ok made ∧ made.length = len := by
  refine ⟨_, if_pos h, ?_⟩
  rw [List.length_take, List.length_drop]
  omega

section
variable {x8664 kernel flush e : Bool}

theorem runStage_length {s s' : Stage} {buf buf' : List UInt8} {start start' len len' : ℕ}
    (h : runStage x8664 kernel flush e s buf start len = .ok (s', buf', start', len')) :
    buf'.length = buf.length := by
  unfold runStage at h
  obtain ⟨start₁, -, h⟩ := bind_eq_ok h
  obtain ⟨⟨buf₁, len₁⟩, hcarry, h⟩ := bind_eq_ok h
  obtain ⟨data, -, h⟩ := bind_eq_ok h
  obtain ⟨⟨data₁, n, conv⟩, -, h⟩ := bind_eq_ok h
  obtain ⟨buf₂, hcopy, h⟩ := bind_eq_ok h
  obtain ⟨rest, -, h⟩ := bind_eq_ok h
  obtain ⟨carry, -, h⟩ := bind_eq_ok h
  cases h
  have hfirst : buf₁.length = buf.length := by
    unfold carryFirst at hcarry
    split at hcarry
    · obtain ⟨buf₀, hcopy₀, hcarry⟩ := bind_eq_ok hcarry
      cases hcarry
      exact copyTo_length hcopy₀
    · cases hcarry
      rfl
  exact (copyTo_length hcopy).trans hfirst

theorem runStages_length {ss ss' : List Stage} {buf buf' : List UInt8} {start len len' : ℕ}
    (h : runStages x8664 kernel flush e ss buf start len = .ok (ss', buf', len')) :
    buf'.length = buf.length := by
  induction ss generalizing ss' buf start len with
  | nil =>
      cases h
      rfl
  | cons s ss ih =>
      rw [runStages] at h
      obtain ⟨⟨s₁, buf₁, start₁, len₁⟩, hstage, h⟩ := bind_eq_ok h
      obtain ⟨⟨ss₁, buf₂, len₂⟩, hrest, h⟩ := bind_eq_ok h
      cases h
      exact (ih hrest).trans (runStage_length hstage)

end

namespace Converters
variable {cs : List Conv} {fed given : List UInt8} {c : Converters}

/-- The new bytes of a buffer after the room for the tails are converted in place. -/
theorem Streams.inBuffer (x8664 kernel flush : Bool) (h : Streams false cs fed c given)
    {buf data : List UInt8} (hroom : c.carriedBytes + data.length ≤ buf.length) :
    ∃ c' buf' n, c.runBuffer x8664 kernel
        (buf.take c.carriedBytes ++ data ++ buf.drop (c.carriedBytes + data.length)) data.length
        flush false = .ok (c', buf', n) ∧
      buf'.length = buf.length ∧ n ≤ buf.length ∧
      (flush = false → ∃ made, made.length = n ∧
        Streams false cs (fed ++ data) c' (given ++ made)) := by
  have hpre : (buf.take c.carriedBytes).length = c.carriedBytes := by
    rw [List.length_take]
    omega
  have hlen := copied_length _ _ _ hroom
  have hpre' : (buf.take c.carriedBytes).length = carried (inOrder false c.stages) :=
    hpre.trans (carriedBytes_eq false c)
  cases flush with
  | false =>
      obtain ⟨ss, made, post', hrun, hfed⟩ := Fed.turns x8664 kernel h (buf.take c.carriedBytes) data
        (buf.drop (c.carriedBytes + data.length)) hpre'
      rw [hpre] at hrun
      have hsame := runStages_length hrun
      refine ⟨{ c with stages := inOrder false ss }, made ++ post', made.length, ?_,
        hsame.trans hlen, ?_, fun _ => ⟨made, rfl, ?_⟩⟩
      · rw [runBuffer, hrun]
        rfl
      · rw [← hlen, ← hsame, List.length_append]
        exact Nat.le_add_right _ _
      · exact hfed
  | true =>
      obtain ⟨ss, made, post', hrun, -, -⟩ := Fed.last x8664 kernel h (buf.take c.carriedBytes) data
        (buf.drop (c.carriedBytes + data.length)) hpre'
      rw [hpre] at hrun
      have hsame := runStages_length hrun
      refine ⟨{ c with stages := inOrder false ss }, made ++ post', made.length, ?_,
        hsame.trans hlen, ?_, fun hf => by cases hf⟩
      · rw [runBuffer, hrun]
        rfl
      · rw [← hlen, ← hsame, List.length_append]
        exact Nat.le_add_right _ _

end Converters

namespace BlockDecoder
variable {C : Checks} {d : BlockDecoder C}

/-- Every state a block can be in. -/
structure Sound (d : BlockDecoder C) : Prop where
  lzma2 : d.lzma2.Sound
  dict : d.lzma2.decoder.prop.dictSize ≤ d.lzma2.decoder.dicBufSize
  converters : d.finished = true ∨
    ∃ cs fed given, Converters.Streams false cs fed d.converters given
  pending : d.pendingPos ≤ d.pendingLen ∧ d.pendingLen ≤ d.pending.length

/-- What a call returns. -/
structure Returned (input out : List UInt8) (base : ℕ) (t : Decoded C) :
    Prop where
  sound : t.d.Sound
  length : t.out.length = out.length
  res : ∀ read wrote, t.res = .ok (read, wrote) → base ≤ read ∧ read ≤ input.length ∧
    (out ≠ [] → base < input.length → base < read ∨ 0 < wrote ∨ t.d.atEnd = true)

theorem note_spec (d : BlockDecoder C) (status : Status) :
    ∃ finished, (d.note status).1 = { d with finished } ∧
      (finished = true ↔ d.finished = true ∨ status = .finishedWithMark) := by
  unfold note
  split
  next hst =>
    dsimp only
    refine ⟨true, ?_, by simp [hst]⟩
    split
    · rfl
    · split <;> rfl
  next hst => exact ⟨d.finished, rfl, by simp [hst]⟩

theorem decodeLzma2_spec (h : d.Sound) (input : List UInt8) {buf : List UInt8} {start want : ℕ}
    (mode : FinishMode) (hroom : start + want ≤ buf.length) :
    ∃ lzma2 made res, d.decodeLzma2 input buf start want mode =
        .ok ({ d with lzma2 }, buf.take start ++ made ++ buf.drop (start + made.length), res) ∧
      lzma2.Sound ∧ lzma2.decoder.prop.dictSize ≤ lzma2.decoder.dicBufSize ∧ made.length ≤ want ∧
      ∀ p, res = .ok p → Buf2Says input [] 0 want mode made p := by
  obtain ⟨r, hr, hs, hd, hlen, hres⟩ := h.lzma2.decode h.dict input want mode
  have hcopy := copyTo_of_le buf r.out start (by omega)
  unfold decodeLzma2
  rw [hr, ok_bind, hcopy, ok_bind]
  rcases hres with hres | ⟨pr, hpr, hcall⟩
  · rw [hres]
    exact ⟨r.d, r.out, _, rfl, hs, hd, hlen, fun p hp => by cases hp⟩
  · rw [hpr]
    refine ⟨r.d, r.out, _, rfl, hs, hd, hlen, fun p hp => ?_⟩
    cases hp
    exact hcall

theorem atEnd_of (h : d.finished = true) (hp : d.pendingPos = d.pendingLen) : d.atEnd = true := by
  unfold atEnd
  rw [h, decide_eq_true hp]
  rfl

theorem decodePlain_spec (h : d.Sound) (hp : d.pendingPos = d.pendingLen) (input out : List UInt8) :
    ∃ t, d.decodePlain input out = .ok t ∧ Returned input out 0 t := by
  have hkeep : ∀ k, Returned input out 0 ⟨d, out, .error k⟩ := fun k =>
    ⟨h, rfl, fun read wrote hr => by cases hr⟩
  unfold decodePlain
  cases hroom : d.room out.length with
  | error k => exact ⟨_, rfl, hkeep k⟩
  | ok limit =>
      have hlimit : limit ≤ out.length := by
        unfold room at hroom
        dsimp only at hroom
        split at hroom
        · cases hroom
        · cases hroom
          exact Nat.min_le_right _ _
      dsimp only
      obtain ⟨lzma2, made, res, hdec, hl, hdict, hmade, hcall⟩ := decodeLzma2_spec h input
        (if limit = 0 then FinishMode.endMark else FinishMode.any)
        (show 0 + limit ≤ out.length by omega)
      rw [hdec, ok_bind]
      have hout := copied_length out made 0 (by omega)
      have hsound : ({ d with lzma2 } : BlockDecoder C).Sound :=
        ⟨hl, hdict, h.converters, h.pending⟩
      dsimp only
      cases res with
      | error k => exact ⟨_, rfl, hsound, hout, fun read wrote hr => by cases hr⟩
      | ok p =>
          have hcall := hcall p rfl
          dsimp only
          generalize hd₁ : ({ d with
            lzma2, packed := d.packed + p.read, unpacked := d.unpacked + p.written
            check := C.update d.check ((out.take 0 ++ made ++
              out.drop (0 + made.length)).take p.written) } : BlockDecoder C) = d₁
          have hfin₁ : d₁.finished = d.finished := by rw [← hd₁]
          have hpend₁ : d₁.pendingPos = d₁.pendingLen := by rw [← hd₁]; exact hp
          have hsound₁ : d₁.Sound := by
            rw [← hd₁]
            exact ⟨hl, hdict, h.converters, h.pending⟩
          obtain ⟨finished, hnote, hfin⟩ := d₁.note_spec p.status
          have hsound₂ : (d₁.note p.status).1.Sound := by
            rw [hnote]
            refine ⟨hsound₁.lzma2, hsound₁.dict, ?_, hsound₁.pending⟩
            exact hsound₁.converters.imp_left fun hf => hfin.2 (.inl hf)
          cases hnoted : (d₁.note p.status).2 with
          | error k => exact ⟨_, rfl, hsound₂, hout, fun read wrote hr => by cases hr⟩
          | ok u =>
              dsimp only
              split
              · exact ⟨_, rfl, hsound₂, hout, fun read wrote hr => by cases hr⟩
              next hgo =>
                refine ⟨_, rfl, hsound₂, hout, fun read wrote hr => ?_⟩
                cases hr
                refine ⟨Nat.zero_le _, hcall.read.2, fun hne hin => ?_⟩
                rcases hcall.status with ⟨-, hall⟩ | hmark | ⟨-, hmode, hfull⟩
                · exact .inl (by omega)
                · refine .inr (.inr (atEnd_of ?_ ?_))
                  · rw [hnote]
                    exact hfin.2 (.inr hmark)
                  · rw [hnote]
                    exact hpend₁
                · refine .inr (.inl ?_)
                  have hw := hcall.written
                  rw [List.length_nil] at hfull
                  split at hmode
                  · cases hmode
                  · omega

/-- LZMA2 and the converters in one buffer. -/
theorem convertInto_spec (x8664 kernel : Bool) (h : d.Sound) {cs : List Conv} {fed given : List UInt8}
    (hs : Converters.Streams false cs fed d.converters given) (input : List UInt8)
    {buf : List UInt8} {want : ℕ} (mode : FinishMode)
    (hroom : d.converters.carriedBytes + want ≤ buf.length) :
    ∃ d' buf' res, d.convertInto x8664 kernel input buf d.converters.carriedBytes want mode =
        .ok (d', buf', res) ∧ buf'.length = buf.length ∧
      d'.lzma2.Sound ∧ d'.lzma2.decoder.prop.dictSize ≤ d'.lzma2.decoder.dicBufSize ∧
      (∃ lzma2 converters check, d' = { d with lzma2, converters, check }) ∧
      (∀ k, res = .error k → d'.converters = d.converters) ∧
      ∀ p n, res = .ok (p, n) → n ≤ buf.length ∧
        (∃ made, Buf2Says input [] 0 want mode made p) ∧
        (p.status ≠ .finishedWithMark → ∃ made data, made.length = n ∧ data.length = p.written ∧
          Converters.Streams false cs (fed ++ data) d'.converters (given ++ made)) := by
  obtain ⟨lzma2, made, res, hdec, hl, hdict, hmade, hcall⟩ := decodeLzma2_spec h input mode hroom
  have hfit : d.converters.carriedBytes + made.length ≤ buf.length := by omega
  unfold convertInto
  rw [hdec, ok_bind]
  dsimp only
  cases res with
  | error k =>
      exact ⟨_, _, _, rfl, copied_length _ _ _ hfit, hl, hdict, ⟨lzma2, d.converters, d.check, rfl⟩,
        fun _ _ => rfl, fun p n hp => by cases hp⟩
  | ok p =>
      have hcall := hcall p rfl
      obtain ⟨c', buf', n, hrun, hlen, hn, hfed⟩ :=
        Converters.Streams.inBuffer x8664 kernel (p.status == .finishedWithMark) hs hfit
      rw [← hcall.written] at hrun
      dsimp only
      rw [hcall.written] at hrun ⊢
      rw [hrun, ok_bind]
      refine ⟨_, _, _, rfl, hlen, hl, hdict, ⟨lzma2, c', _, rfl⟩,
        (fun k hk => by cases hk), fun p' n' hp => ?_⟩
      cases hp
      refine ⟨hn, ⟨made, hcall⟩, fun hne => ?_⟩
      obtain ⟨out, hout, hstreams⟩ := hfed (beq_eq_false_iff_ne.2 hne)
      exact ⟨out, made, hout, hcall.written.symm, hstreams⟩

theorem deliver_spec (h : d.Sound) (hp : d.pendingPos = d.pendingLen) (direct : Bool)
    (input out : List UInt8) {consumed written base : ℕ} (hbase : base ≤ consumed)
    (hn : consumed ≤ input.length)
    (hfit : direct = false → written ≤ d.pending.length) (hgo : written ≠ 0 ∨ d.finished = true) :
    ∃ t, d.deliver direct out consumed written = .ok t ∧ Returned input out base t := by
  unfold deliver
  cases direct with
  | true =>
      refine ⟨_, rfl, h, rfl, fun read wrote hr => ?_⟩
      cases hr
      refine ⟨hbase, hn, fun _ _ => .inr ?_⟩
      rcases hgo with hw | hf
      · exact .inl (Nat.pos_of_ne_zero hw)
      · exact .inr (atEnd_of hf hp)
  | false =>
      have hfit := hfit rfl
      obtain ⟨made, hslice, hmade⟩ := sliceOf_of_le d.pending 0
        (min written out.length) (by omega)
      have hcopy := copyTo_of_le out made 0 (by omega)
      have hlen := copied_length out made 0 (by omega)
      dsimp only
      rw [if_neg Bool.false_ne_true, hslice, ok_bind, hcopy, ok_bind]
      by_cases hall : min written out.length = written
      · rw [if_pos hall]
        refine ⟨_, rfl, ⟨h.lzma2, h.dict, h.converters, Nat.le_refl _, Nat.zero_le _⟩, hlen,
          fun read wrote hr => ?_⟩
        cases hr
        refine ⟨hbase, hn, fun hne _ => .inr ?_⟩
        rcases hgo with hw | hf
        · exact .inl (by omega)
        · exact .inr (atEnd_of hf rfl)
      · rw [if_neg hall]
        refine ⟨_, rfl, ⟨h.lzma2, h.dict, h.converters, by dsimp only; omega, hfit⟩, hlen,
          fun read wrote hr => ?_⟩
        cases hr
        refine ⟨hbase, hn, fun hne _ => .inr (.inl ?_)⟩
        have hpos : 0 < out.length := List.length_pos_of_ne_nil hne
        omega

/-- What a turn with converters does with what they made. -/
def settle (x8664 kernel : Bool) (input : List UInt8) (fuel : ℕ) (d : BlockDecoder C)
    (out : List UInt8) (consumed : ℕ) (direct : Bool) (want : ℕ) (p : Progress) (written : ℕ) :
    Except Fault (Decoded C) :=
  let consumed := consumed + p.read
  let d := { d with packed := d.packed + p.read, unpacked := d.unpacked + written }
  let (d, noted) := d.note p.status
  match noted with
  | .error k => .ok ⟨d, out, .error k⟩
  | .ok () =>
      if want = 0 ∧ d.finished = false ∧ p.status ≠ .needsMoreInput then
        .ok ⟨d, out, .error d.atCapacity⟩
      else if written ≠ 0 ∨ d.finished then d.deliver direct out consumed written
      else if p.read = 0 ∧ p.written = 0 then .ok ⟨d, out, .ok (consumed, 0)⟩
      else d.filterLoop x8664 kernel input fuel out consumed

/-- A turn with converters up to there: `d₁` and `out₁` have what they made. -/
structure Turned (x8664 kernel : Bool) (input : List UInt8) (fuel : ℕ) (d : BlockDecoder C)
    (out : List UInt8) (consumed remaining : ℕ) (direct : Bool) (want : ℕ) (buf buf' : List UInt8)
    (d' d₁ : BlockDecoder C) (out₁ : List UInt8) (res : Except XzErrorKind (Progress × ℕ)) :
    Prop where
  want_le : d.converters.carriedBytes + want ≤ remaining
  full : want = 0 → remaining = d.converters.carriedBytes
  room : d.converters.carriedBytes + want ≤ buf.length
  run : d.convertInto x8664 kernel (input.drop consumed) buf d.converters.carriedBytes want
    (if want = 0 then FinishMode.endMark else FinishMode.any) = .ok (d', buf', res)
  keeps : ∃ pending, d₁ = { d' with pending } ∧ d.pending.length ≤ pending.length ∧
    (direct = false → pending = buf')
  hands : direct = true → out₁ = buf'
  length : out₁.length = out.length
  next : d.filterLoop x8664 kernel input (fuel + 1) out consumed = match res with
    | .error k => .ok ⟨d₁, out₁, .error k⟩
    | .ok (p, written) =>
        d₁.settle x8664 kernel input fuel out₁ consumed direct want p written

theorem filterLoop_turn (x8664 kernel : Bool) (h : d.Sound) {cs : List Conv}
    {fed made : List UInt8} (hs : Converters.Streams false cs fed d.converters made)
    {remaining : ℕ} (hroom : d.room usizeMax = .ok remaining)
    (hfit : d.converters.carriedBytes ≤ remaining) (input : List UInt8) (fuel : ℕ)
    (out : List UInt8) (consumed : ℕ) : ∃ direct want buf buf' d' d₁ out₁ res,
      Turned x8664 kernel input fuel d out consumed remaining direct want buf buf' d' d₁ out₁
        res := by
  obtain ⟨hcarry, -⟩ := hs.held_back
  obtain ⟨direct, hdirect⟩ : ∃ direct, decide (d.converters.carriedBytes < out.length) =
    direct := ⟨_, rfl⟩
  obtain ⟨capacity, hcap⟩ : ∃ capacity, (if direct = true then out.length
    else 2 * d.converters.maxCarry + 1) = capacity := ⟨_, rfl⟩
  have hstart : d.converters.carriedBytes < capacity := by
    cases direct with
    | true =>
        rw [if_pos rfl] at hcap
        exact hcap ▸ of_decide_eq_true hdirect
    | false =>
        rw [if_neg Bool.false_ne_true] at hcap
        omega
  obtain ⟨want, hwant⟩ : ∃ want, min (min (remaining - d.converters.carriedBytes)
    scratchSize) (capacity - d.converters.carriedBytes) = want := ⟨_, rfl⟩
  obtain ⟨buf, hbuf⟩ : ∃ buf, (if direct = true then out
    else d.pending ++ List.replicate (capacity - d.pending.length) 0) = buf := ⟨_, rfl⟩
  have hbuflen : capacity ≤ buf.length := by
    cases direct with
    | true =>
        rw [if_pos rfl] at hcap hbuf
        rw [← hcap, hbuf]
    | false =>
        rw [if_neg Bool.false_ne_true] at hbuf
        rw [← hbuf, List.length_append, List.length_replicate]
        omega
  obtain ⟨d', buf', res, hconv, hlen', -, -, ⟨lzma2, converters, check, hd'⟩, -⟩ :=
    convertInto_spec x8664 kernel h hs (input.drop consumed)
      (if want = 0 then FinishMode.endMark else FinishMode.any)
      (show d.converters.carriedBytes + want ≤ buf.length by omega)
  obtain ⟨d₁, hd₁⟩ : ∃ d₁, (if direct = true then d' else { d' with pending := buf' }) =
    d₁ := ⟨_, rfl⟩
  obtain ⟨out₁, hout₁⟩ : ∃ out₁, (if direct = true then buf' else out) = out₁ := ⟨_, rfl⟩
  refine ⟨direct, want, buf, buf', d', d₁, out₁, res, by omega, fun hz => ?_, by omega, hconv, ?_,
    fun hd => by rw [← hout₁, if_pos hd], ?_, ?_⟩
  · have hscratch : 0 < scratchSize := by decide
    omega
  · cases direct with
    | true =>
        refine ⟨d'.pending, by rw [← hd₁, if_pos rfl], ?_, fun hf => by cases hf⟩
        rw [hd']
    | false =>
        rw [if_neg Bool.false_ne_true] at hbuf
        refine ⟨buf', by rw [← hd₁, if_neg Bool.false_ne_true], ?_, fun _ => rfl⟩
        rw [hlen', ← hbuf, List.length_append]
        exact Nat.le_add_right _ _
  · cases direct with
    | true =>
        rw [if_pos rfl] at hbuf hout₁
        rw [← hout₁, hlen', ← hbuf]
    | false =>
        rw [if_neg Bool.false_ne_true] at hout₁
        rw [hout₁]
  · rw [filterLoop]
    dsimp only
    rw [hroom]
    dsimp only
    rw [if_neg (Nat.not_lt.2 hfit), hdirect, hcap, sub_ok hstart.le, ok_bind, hwant, hbuf]
    refine (congrArg (fun x => x >>= _) hconv).trans ?_
    subst hd₁ hout₁
    cases res with
    | error k => rfl
    | ok pw => rfl

/-- A turn that goes on has read a byte, or the converters hold back one more. -/
theorem filterLoop_spec (x8664 kernel : Bool) {input : List UInt8} {fuel consumed : ℕ}
    (out : List UInt8) (h : d.Sound) (hp : d.pendingPos = d.pendingLen) (hf : d.finished = false)
    (hn : consumed ≤ input.length)
    (hfuel : input.length - consumed + (d.converters.maxCarry - d.converters.carriedBytes) < fuel) :
    ∃ t, d.filterLoop x8664 kernel input fuel out consumed = .ok t ∧
      Returned input out consumed t := by
  induction fuel generalizing d consumed out with
  | zero => omega
  | succ fuel ih =>
      obtain ⟨cs, fed, given, hs⟩ := h.converters.resolve_left (by rw [hf]; exact Bool.false_ne_true)
      obtain ⟨hcarry, hheld⟩ := hs.held_back
      have hkeep : ∀ k, Returned input out consumed ⟨d, out, .error k⟩ := fun k =>
        ⟨h, rfl, fun read wrote hr => by cases hr⟩
      cases hroom : d.room usizeMax with
      | error k =>
          refine ⟨⟨d, out, .error k⟩, ?_, hkeep k⟩
          rw [filterLoop]
          dsimp only
          rw [hroom]
      | ok remaining =>
          by_cases hfit : d.converters.carriedBytes ≤ remaining
          case neg =>
            refine ⟨⟨d, out, .error d.atCapacity⟩, ?_, hkeep _⟩
            rw [filterLoop]
            dsimp only
            rw [hroom]
            exact if_pos (Nat.lt_of_not_le hfit)
          obtain ⟨direct, want, buf, buf', d', d₁, out₁, res, hturn⟩ :=
            filterLoop_turn x8664 kernel h hs hroom hfit input fuel out consumed
          obtain ⟨d'', buf'', res'', hconv, hlen', hl', hdict', ⟨lzma2, converters, check, hd'⟩,
            herr, hok⟩ := convertInto_spec x8664 kernel h hs (input.drop consumed)
              (if want = 0 then FinishMode.endMark else FinishMode.any) hturn.room
          rw [hturn.run] at hconv
          cases hconv
          obtain ⟨pending, hd₁, hpl, hpb⟩ := hturn.keeps
          have hlen₁ := hturn.length
          have hsame : d₁.lzma2 = d'.lzma2 ∧ d₁.converters = d'.converters ∧
              d₁.finished = false ∧ d₁.pendingPos = d₁.pendingLen ∧
              d₁.pendingLen ≤ d₁.pending.length ∧ (direct = false → d₁.pending = buf') := by
            subst hd₁ hd'
            exact ⟨rfl, rfl, hf, hp, h.pending.2.trans hpl, hpb⟩
          obtain ⟨hsl, hsc, hsf, hsp, hspl, hsb⟩ := hsame
          rw [hturn.next]
          cases res with
          | error k =>
              refine ⟨_, rfl, ⟨hsl ▸ hl', hsl ▸ hdict', .inr ⟨cs, fed, given, ?_⟩,
                hsp.le, hspl⟩, hlen₁, fun read wrote hr => by cases hr⟩
              change Converters.Streams false cs fed d₁.converters given
              rw [hsc, herr k rfl]
              exact hs
          | ok pn =>
              obtain ⟨p, n⟩ := pn
              obtain ⟨hnle, ⟨made, hcall⟩, hfed⟩ := hok p n rfl
              change ∃ t,
                d₁.settle x8664 kernel input fuel out₁ consumed direct want p n = .ok t ∧ _
              unfold settle
              dsimp only
              obtain ⟨d₂, hd₂⟩ : ∃ d₂, ({ d₁ with packed := d₁.packed + p.read, unpacked :=
                d₁.unpacked + n } : BlockDecoder C) = d₂ := ⟨_, rfl⟩
              obtain ⟨finished, hnote, hfin⟩ := d₂.note_spec p.status
              have hfin₂ : d₂.finished = false := by rw [← hd₂]; exact hsf
              have hsound : (d₂.note p.status).1.Sound := by
                rw [hnote, ← hd₂]
                refine ⟨hsl ▸ hl', hsl ▸ hdict', ?_, hsp.le, hspl⟩
                by_cases hmark : p.status = .finishedWithMark
                · exact .inl (hfin.2 (.inr hmark))
                · obtain ⟨made, data, -, -, hstreams⟩ := hfed hmark
                  exact .inr ⟨cs, _, _, hsc ▸ hstreams⟩
              have hpos₃ : (d₂.note p.status).1.pendingPos = (d₂.note p.status).1.pendingLen := by
                rw [hnote, ← hd₂]
                exact hsp
              have hread : consumed + p.read ≤ input.length := by
                have hle := hcall.read.2
                rw [List.length_drop] at hle
                omega
              rw [hd₂]
              cases hnoted : (d₂.note p.status).2 with
              | error k => exact ⟨_, rfl, hsound, hlen₁, fun read wrote hr => by cases hr⟩
              | ok u =>
                  dsimp only
                  split
                  · exact ⟨_, rfl, hsound, hlen₁, fun read wrote hr => by cases hr⟩
                  · split
                    next hgo =>
                      obtain ⟨t, ht, hret⟩ := deliver_spec hsound hpos₃ direct input out₁
                        (Nat.le_add_right consumed p.read) hread
                        (fun hdir => by
                          rw [hnote, ← hd₂]
                          change n ≤ d₁.pending.length
                          rw [hsb hdir, hlen']
                          exact hnle) hgo
                      exact ⟨t, ht, hret.sound, hret.length.trans hlen₁, fun read wrote hr => by
                        obtain ⟨h1, h2, h3⟩ := hret.res read wrote hr
                        exact ⟨h1, h2, fun hne => h3 fun hnil => hne (List.eq_nil_of_length_eq_zero
                          (by rw [← hlen₁, hnil]; rfl))⟩⟩
                    next hstay =>
                      obtain ⟨hzero, hnot⟩ := not_or.1 hstay
                      have hzero : n = 0 := not_not.1 hzero
                      have hmark : p.status ≠ .finishedWithMark := fun hm =>
                        hnot (by rw [hnote]; exact hfin.2 (.inr hm))
                      obtain ⟨made', data, hmade', hdata, hstreams⟩ := hfed hmark
                      obtain ⟨hcarry', hheld'⟩ := hstreams.held_back
                      rw [List.length_append, List.length_append] at hheld'
                      split
                      next hidle =>
                        refine ⟨_, rfl, hsound, hlen₁, fun read wrote hr => ?_⟩
                        cases hr
                        refine ⟨by omega, hread, fun hne hin => .inl ?_⟩
                        have hstatus := hcall.status
                        have hwritten := hcall.written
                        rw [List.length_drop, List.length_nil] at hstatus
                        rcases hstatus with ⟨-, hall⟩ | hm | ⟨-, hmode, hfull⟩
                        · omega
                        · exact absurd hm hmark
                        · split at hmode
                          · cases hmode
                          · omega
                      next hbusy =>
                        have hmax : (d₂.note p.status).1.converters.maxCarry =
                            d.converters.maxCarry := by
                          rw [hnote, ← hd₂]
                          change d₁.converters.maxCarry = _
                          rw [hsc, hstreams.maxCarry_eq, hs.maxCarry_eq]
                        have hcarried : (d₂.note p.status).1.converters.carriedBytes =
                            d'.converters.carriedBytes := by
                          rw [hnote, ← hd₂]
                          change d₁.converters.carriedBytes = _
                          rw [hsc]
                        have hsmax : d'.converters.maxCarry = d.converters.maxCarry := by
                          rw [hstreams.maxCarry_eq, hs.maxCarry_eq]
                        obtain ⟨t, ht, hret⟩ := ih out₁ hsound hpos₃
                          (Bool.not_eq_true _ ▸ hnot) hread (by omega)
                        refine ⟨t, ht, hret.sound, hret.length.trans hlen₁, fun read wrote hr => ?_⟩
                        obtain ⟨h1, h2, h3⟩ := hret.res read wrote hr
                        refine ⟨by omega, h2, fun hne hin => ?_⟩
                        by_cases hmore : 0 < p.read
                        · exact .inl (by omega)
                        · have hz : p.read = 0 := by omega
                          rw [hz] at h3
                          exact h3 (fun hnil => hne (List.eq_nil_of_length_eq_zero
                            (by rw [← hlen₁, hnil]; rfl))) hin

/-- A call from any state. -/
theorem decode_spec (x8664 kernel : Bool) (h : d.Sound) (hend : d.atEnd = false)
    (input out : List UInt8) : ∃ t, d.decode x8664 kernel input out = .ok t ∧
      Returned input out 0 t := by
  have hkeep : ∀ k, Returned input out 0 ⟨d, out, .error k⟩ := fun k =>
    ⟨h, rfl, fun read wrote hr => by cases hr⟩
  unfold decode
  split
  next hlt =>
    obtain ⟨made, hslice, hmade⟩ := sliceOf_of_le d.pending d.pendingPos
      (min (d.pendingLen - d.pendingPos) out.length) (by have := h.pending.2; omega)
    have hcopy := copyTo_of_le out made 0 (by omega)
    have hlen := copied_length out made 0 (by omega)
    dsimp only
    rw [hslice, ok_bind, hcopy, ok_bind]
    have hprog : out ≠ [] → 0 < min (d.pendingLen - d.pendingPos) out.length := fun hne => by
      have := List.length_pos_of_ne_nil hne
      omega
    by_cases hall : d.pendingPos + min (d.pendingLen - d.pendingPos) out.length = d.pendingLen
    · rw [if_pos hall]
      refine ⟨_, rfl, ⟨h.lzma2, h.dict, h.converters, Nat.le_refl _, Nat.zero_le _⟩, hlen,
        fun read wrote hr => ?_⟩
      cases hr
      exact ⟨Nat.le_refl _, Nat.zero_le _, fun hne _ => .inr (.inl (hprog hne))⟩
    · rw [if_neg hall]
      refine ⟨_, rfl, ⟨h.lzma2, h.dict, h.converters, by dsimp only; omega, h.pending.2⟩, hlen,
        fun read wrote hr => ?_⟩
      cases hr
      exact ⟨Nat.le_refl _, Nat.zero_le _, fun hne _ => .inr (.inl (hprog hne))⟩
  next hge =>
    have hp : d.pendingPos = d.pendingLen := by have := h.pending.1; omega
    split
    next hstop =>
      refine ⟨_, rfl, h, rfl, fun read wrote hr => ?_⟩
      cases hr
      refine ⟨Nat.le_refl _, Nat.zero_le _, fun hne _ => ?_⟩
      have hfin := atEnd_of (hstop.resolve_right hne) hp
      rw [hend] at hfin
      cases hfin
    next hgo =>
      have hf : d.finished = false := Bool.not_eq_true _ ▸ (not_or.1 hgo).1
      split
      · exact ⟨_, rfl, hkeep _⟩
      next hroom =>
        obtain ⟨input', hinput⟩ : ∃ input', d.offered input = input' := ⟨_, rfl⟩
        have hshort : input'.length ≤ input.length ∧ (0 < input.length → 0 < input'.length) := by
          rw [← hinput, offered]
          split
          next c hc =>
            rw [hc] at hroom
            have hlt : d.packed < c := by
              rw [Option.any_some, decide_eq_true_eq] at hroom
              omega
            rw [List.length_take]
            omega
          next => exact ⟨Nat.le_refl _, id⟩
        dsimp only
        rw [hinput]
        have hwide : ∀ t : Decoded C, Returned input' out 0 t → Returned input out 0 t := fun t ht =>
          ⟨ht.sound, ht.length, fun read wrote hr => by
            obtain ⟨h1, h2, h3⟩ := ht.res read wrote hr
            exact ⟨h1, h2.trans hshort.1, fun hne hin => h3 hne (hshort.2 hin)⟩⟩
        split
        · obtain ⟨t, ht, hret⟩ := decodePlain_spec h hp input' out
          exact ⟨t, ht, hwide t hret⟩
        · obtain ⟨t, ht, hret⟩ := filterLoop_spec x8664 kernel out h hp hf
            (Nat.zero_le _) (show input'.length - 0 +
              (d.converters.maxCarry - d.converters.carriedBytes) <
                input'.length + d.converters.maxCarry + 1 by omega)
          exact ⟨t, ht, hwide t hret⟩

/-- What `new` makes, and what it has checked. -/
theorem new_ok {chain : FilterChain} {check : CheckType} {offset : ℕ} {verify : Bool}
    {limits : BlockLimits} (hnew : BlockDecoder.new chain check offset verify limits = .ok d) :
    (∀ n ∈ limits.uncompressedSize, n ≤ limits.maxBlockSize) ∧
      dictBytes chain.dictProp limits.uncompressedSize ≤ limits.memoryLimit ∧
      ∃ lzma2 converters, Lzma2Decoder.newCapped chain.dictProp.toNat
          (min (dictBytes chain.dictProp limits.uncompressedSize) 0xFFFFFFFF) = .ok lzma2 ∧
        chain.build = .ok converters ∧
        d = { lzma2, converters, check := C.new check offset verify, limits
              pending := [], pendingLen := 0, pendingPos := 0, unpacked := 0, packed := 0
              finished := false } := by
  unfold BlockDecoder.new at hnew
  split at hnew
  · cases hnew
  next hallowed =>
    dsimp only at hnew
    split at hnew
    · cases hnew
    next hmemory =>
      split at hnew
      · cases hnew
      next lzma2 hlzma2 =>
        obtain ⟨converters, hbuild, hnew⟩ := bind_eq_ok hnew
        refine ⟨fun n hn => ?_, Nat.le_of_not_lt hmemory, lzma2, converters, hlzma2, hbuild,
          (Except.ok.inj hnew).symm⟩
        rw [hn, Option.any_some, decide_eq_true_eq] at hallowed
        exact Nat.le_of_not_lt hallowed

theorem new_sound {chain : FilterChain} {check : CheckType} {offset : ℕ} {verify : Bool}
    {limits : BlockLimits} (hnew : BlockDecoder.new chain check offset verify limits = .ok d) :
    d.Sound := by
  obtain ⟨-, -, lzma2, converters, hlzma2, hbuild, rfl⟩ := new_ok hnew
  obtain ⟨cs, hstages, hready, -⟩ := FilterChain.build_fresh hbuild
  obtain ⟨hat, hsize, -⟩ := Lzma2Decoder.newCapped_at hlzma2
  exact ⟨⟨_, _, _, hat⟩, hsize, .inr ⟨cs, [], [], Converters.streams_fresh false hstages hready⟩,
    Nat.le_refl _, Nat.le_refl _⟩

end BlockDecoder
end LzmaTurbo.Xz
