import LzmaTurbo.Xz.BlockLimits
import LzmaTurbo.Xz.Check

/-!
# What a block gives

Whatever the calls are cut into and whatever the limits are, a block gives its data as the
chain converts them, and ends where they end.
-/
namespace LzmaTurbo.Xz
open Machine Lzma Lzma2

/-- A block as its header begins it; `bytes` is the input from its first byte on. -/
structure BlockData (C : Checks) where
  prop : LzmaProps
  convs : List Conv
  check : C.Running
  bytes : List UInt8

/-- What the block gives in all. -/
def BlockData.contents {C : Checks} (B : BlockData C) : List UInt8 :=
  wholes false B.convs (format2 B.prop B.bytes).out

section
variable {cs : List Conv} {fed given : List UInt8} {c : Converters}

/-- What is given so far is what comes first of it all. -/
theorem Converters.Streams.isPrefix (h : Streams false cs fed c given) {all : List UInt8}
    (hall : fed <+: all) : given <+: wholes false cs all := by
  obtain ⟨data, rfl⟩ := hall
  obtain ⟨ss, made, post, -, hgiven, -⟩ := Fed.last true true h
    (List.replicate (carried (inOrder false c.stages)) 0) data [] List.length_replicate
  exact ⟨made, hgiven⟩

end

namespace BlockDecoder
variable {C : Checks} {d : BlockDecoder C} {B : BlockData C} {rest made given : List UInt8}

/-- What is converted and not handed over. -/
def held (d : BlockDecoder C) : List UInt8 :=
  (d.pending.drop d.pendingPos).take (d.pendingLen - d.pendingPos)

/-- A block that has come to its end, with what its header declares of it. -/
structure Closed (B : BlockData C) (limits : BlockLimits) (rest made : List UInt8) : Prop where
  mark : (format2 B.prop B.bytes).verdict = .mark
  ends : rest = (format2 B.prop B.bytes).rest
  whole : made = B.contents
  declared : ∀ n ∈ limits.uncompressedSize, made.length = n
  packed : ∀ c ∈ limits.compressedSize, c + rest.length = B.bytes.length

/-- A decoder that has made `made` of the block `B`, of which `rest` is not handed over. -/
structure Pours (B : BlockData C) (rest made : List UInt8) (d : BlockDecoder C) : Prop where
  unpacked : made.length = d.unpacked
  packed : d.packed + rest.length = B.bytes.length
  check : C.Over B.check made d.check
  opened : d.finished = false → ∃ lz, Stands2 B.prop B.bytes rest lz d.lzma2 ∧
    Converters.Streams false B.convs lz d.converters made
  closed : d.finished = true → Closed B d.limits rest made

/-- A decoder of the block `B` of which the caller has `given`. -/
def Amid (B : BlockData C) (rest given : List UInt8) (d : BlockDecoder C) : Prop :=
  d.Pours B rest (given ++ d.held)

theorem Pours.isPrefix (h : d.Pours B rest made) : made <+: B.contents := by
  cases hf : d.finished with
  | true => exact (h.closed hf).whole ▸ List.prefix_rfl
  | false =>
      obtain ⟨lz, hst, hs⟩ := h.opened hf
      obtain ⟨pos, bytes, hm, hat, -⟩ := hst.here
      have hlz := Moves2.isPrefix hm hat.written
      rw [List.reverse_reverse] at hlz
      exact hs.isPrefix hlz

theorem Amid.isPrefix (h : d.Amid B rest given) : given <+: B.contents :=
  (List.prefix_append given d.held).trans (Pours.isPrefix h)

theorem held_nil (h : d.pendingPos = d.pendingLen) : d.held = [] := by
  rw [held, h, Nat.sub_self, List.take_zero]

/-- With nothing left over the caller has all that is made. -/
theorem Amid.of_pours (h : d.Pours B rest given) (hp : d.pendingPos = d.pendingLen) :
    d.Amid B rest given := by
  rw [Amid, held_nil hp, List.append_nil]
  exact h

theorem Amid.pours (h : d.Amid B rest given) (hp : d.pendingPos = d.pendingLen) :
    d.Pours B rest given := by
  rw [Amid, held_nil hp, List.append_nil] at h
  exact h

theorem Amid.length (h : d.Amid B rest given) (hs : d.pendingLen ≤ d.pending.length) :
    given.length = d.given := by
  have hunpacked := h.unpacked
  unfold held at hunpacked
  rw [List.length_append, List.length_take, List.length_drop] at hunpacked
  unfold BlockDecoder.given
  omega

/-- At the end mark a block that is accepted has the sizes it declares. -/
theorem note_declared {status : Status} {d' : BlockDecoder C} (h : d.note status = (d', .ok ()))
    (hm : status = .finishedWithMark) : (∀ n ∈ d.limits.uncompressedSize, d.unpacked = n) ∧
      ∀ c ∈ d.limits.compressedSize, d.packed = c := by
  unfold note at h
  rw [if_pos hm] at h
  dsimp only at h
  split at h
  · cases h
  next hu =>
    split at h
    · cases h
    next hc =>
      constructor
      · intro n hn
        rw [Option.mem_def.1 hn, Option.any_some, decide_eq_true_eq] at hu
        exact (not_not.1 hu).symm
      · intro c hmem
        rw [Option.mem_def.1 hmem, Option.any_some, decide_eq_true_eq] at hc
        exact (not_not.1 hc).symm

/-- The end of a turn that read `p.read` bytes and made `new`. -/
theorem Pours.note {lz : List UInt8} {d₁ d₂ d₃ : BlockDecoder C} {new : List UInt8} {k want : ℕ}
    {mode : FinishMode} {r : Buf2Result} {p : Progress} (h : d.Pours B rest made)
    (hfit : Fitted B.prop B.bytes rest lz k want mode r p)
    (hd₁ : d₁.lzma2 = r.d ∧ d₁.unpacked = d.unpacked ∧ d₁.packed = d.packed ∧
      d₁.finished = false ∧ d₁.check = C.update d.check new)
    (hgo : p.status ≠ .finishedWithMark →
      Converters.Streams false B.convs (lz ++ r.out) d₁.converters (made ++ new))
    (hend : p.status = .finishedWithMark → made ++ new = wholes false B.convs (lz ++ r.out))
    (hd₂ : d₂ = { d₁ with
      packed := d₁.packed + p.read, unpacked := d₁.unpacked + new.length })
    (hnote : d₂.note p.status = (d₃, .ok ())) : d₃.Pours B (rest.drop p.read) (made ++ new) := by
  obtain ⟨hl, hu, hpk, hf, hc⟩ := hd₁
  have hread : p.read ≤ rest.length := by
    have hle := hfit.told.read.2
    rw [List.length_take] at hle
    omega
  obtain ⟨finished, hd₃, hfin⟩ := d₂.note_spec p.status
  rw [hnote] at hd₃
  dsimp only at hd₃
  have hunpacked : (made ++ new).length = d₂.unpacked := by
    rw [List.length_append, h.unpacked, hd₂, ← hu]
  have hpacked : d₂.packed + (rest.drop p.read).length = B.bytes.length := by
    have := h.packed
    rw [hd₂, List.length_drop]
    dsimp only
    omega
  subst hd₃
  refine ⟨hunpacked, hpacked, ?_, fun hopen => ?_, fun hclosed => ?_⟩
  · change C.Over B.check _ d₂.check
    rw [hd₂]
    change C.Over B.check _ d₁.check
    rw [hc]
    exact h.check.update new
  · have hm : p.status ≠ .finishedWithMark := fun hm => by
      rw [hfin.2 (.inr hm)] at hopen
      cases hopen
    refine ⟨lz ++ r.out, ?_, ?_⟩
    · change Stands2 _ _ _ _ d₂.lzma2
      rw [hd₂]
      change Stands2 _ _ _ _ d₁.lzma2
      rw [hl]
      exact hfit.stands
    · change Converters.Streams _ _ _ d₂.converters _
      rw [hd₂]
      exact hgo hm
  · have hm : p.status = .finishedWithMark := by
      refine (hfin.1 hclosed).resolve_left fun hf₂ => ?_
      rw [hd₂] at hf₂
      rw [hf] at hf₂
      cases hf₂
    obtain ⟨hall, hrest⟩ := hfit.mark hm
    obtain ⟨hdeclared, hsize⟩ := note_declared hnote hm
    refine ⟨hfit.ends hm, hrest, ?_, fun n hn => hunpacked.trans (hdeclared n hn), fun c hmem => ?_⟩
    · rw [hend hm, hall]
      rfl
    · rw [← hsize c hmem]
      exact hpacked

theorem copyTo_front {buf buf' xs : List UInt8} (h : copyTo buf 0 xs = .ok buf') :
    buf'.take xs.length = xs := by
  unfold copyTo at h
  split at h
  · cases h
    rw [List.take_zero, List.nil_append, List.take_left]
  · cases h

theorem sliceOf_eq {buf made : List UInt8} {start len : ℕ} (h : sliceOf buf start len = .ok made) :
    made = (buf.drop start).take len ∧ made.length = len := by
  unfold sliceOf at h
  split at h
  next hle =>
    cases h
    refine ⟨rfl, ?_⟩
    rw [List.length_take, List.length_drop]
    omega
  · cases h

/-- A call without converters. -/
theorem decodePlain_pours {input out : List UInt8} {t : Decoded C} {k read wrote : ℕ}
    (h : d.Sound) (hb : d.Pours B rest made) (hp : d.pendingPos = d.pendingLen)
    (hf : d.finished = false) (hstages : d.converters.stages = []) (hinput : input = rest.take k)
    (ht : d.decodePlain input out = .ok t) (hres : t.res = .ok (read, wrote)) :
    t.d.Amid B (rest.drop read) (made ++ t.out.take wrote) := by
  obtain ⟨lz, hst, hs⟩ := hb.opened hf
  unfold decodePlain at ht
  split at ht
  · cases ht
    cases hres
  next limit _ =>
    dsimp only at ht
    obtain ⟨⟨d₁, out₁, res⟩, hdec, ht⟩ := bind_eq_ok ht
    cases res with
    | error e =>
        cases ht
        cases hres
    | ok p =>
        rw [hinput] at hdec
        obtain ⟨r, rfl, hcopy, hfit, -⟩ := decodeLzma2_finds hdec hst h.dict
        have hfit := hfit p rfl
        have hw : p.written = r.out.length := hfit.told.written
        have hnew : out₁.take p.written = r.out := by
          rw [hw]
          exact copyTo_front hcopy
        dsimp only at ht
        rw [hnew] at ht
        obtain ⟨d₂, hd₂⟩ : ∃ d₂, ({ d with
          lzma2 := r.d, packed := d.packed + p.read, unpacked := d.unpacked + p.written
          check := C.update d.check r.out } : BlockDecoder C) = d₂ := ⟨_, rfl⟩
        rw [hd₂] at ht
        obtain ⟨⟨d₃, noted⟩, hnote⟩ : ∃ t, d₂.note p.status = t := ⟨_, rfl⟩
        rw [hnote] at ht
        cases noted with
        | error e =>
            cases ht
            cases hres
        | ok u =>
            dsimp only at ht
            split at ht
            · cases ht
              cases hres
            · cases ht
              cases hres
              -- without converters the bytes pass as they are
              have hplain : ∀ {cs : List Conv} {fed given : List UInt8},
                  Converters.Streams false cs fed d.converters given →
                    ∀ data, Converters.Streams false cs (fed ++ data) d.converters
                      (given ++ data) ∧ given ++ data = wholes false cs (fed ++ data) := by
                intro cs fed given hs data
                unfold Converters.Streams at hs ⊢
                rw [hstages] at hs ⊢
                cases hs
                exact ⟨.nil _, rfl⟩
              obtain ⟨d₁, hd₁⟩ : ∃ d₁, ({ d with
                lzma2 := r.d, check := C.update d.check r.out } : BlockDecoder C) = d₁ := ⟨_, rfl⟩
              have hsame : d₁.lzma2 = r.d ∧ d₁.unpacked = d.unpacked ∧ d₁.packed = d.packed ∧
                  d₁.finished = false ∧ d₁.check = C.update d.check r.out := by
                rw [← hd₁]
                exact ⟨rfl, rfl, rfl, hf, rfl⟩
              have hpour := hb.note hfit hsame
                (fun _ => by rw [← hd₁]; exact (hplain hs r.out).1)
                (fun _ => (hplain hs r.out).2) (by rw [← hd₂, ← hd₁, hw]) hnote
              have hpend : d₃.pendingPos = d₃.pendingLen := by
                obtain ⟨finished, hfin, -⟩ := d₂.note_spec p.status
                rw [hnote] at hfin
                dsimp only at hfin
                rw [hfin, ← hd₂]
                exact hp
              rw [hnew]
              exact .of_pours hpour hpend

section
variable {x8664 kernel : Bool}

/-- LZMA2 and the converters in one buffer: what they make stands at its front. -/
theorem convertInto_makes {lz buf buf' : List UInt8} {want k n : ℕ} {mode : FinishMode}
    {d' : BlockDecoder C} {p : Progress} (h : d.Sound)
    (hconv : d.convertInto x8664 kernel (rest.take k) buf d.converters.carriedBytes want mode =
      .ok (d', buf', .ok (p, n)))
    (hst : Stands2 B.prop B.bytes rest lz d.lzma2)
    (hs : Converters.Streams false B.convs lz d.converters made)
    (hroom : d.converters.carriedBytes + want ≤ buf.length) :
    ∃ r, Fitted B.prop B.bytes rest lz k want mode r p ∧ (buf'.take n).length = n ∧
      (∃ converters, d' = { d with
        lzma2 := r.d, converters, check := C.update d.check (buf'.take n) }) ∧
      (p.status ≠ .finishedWithMark →
        Converters.Streams false B.convs (lz ++ r.out) d'.converters (made ++ buf'.take n)) ∧
      (p.status = .finishedWithMark →
        made ++ buf'.take n = wholes false B.convs (lz ++ r.out)) := by
  unfold convertInto at hconv
  obtain ⟨⟨d₁, buf₁, res⟩, hdec, hconv⟩ := bind_eq_ok hconv
  cases res with
  | error e => cases hconv
  | ok p' =>
      obtain ⟨r, rfl, hcopy, hfit, -⟩ := decodeLzma2_finds hdec hst h.dict
      obtain ⟨⟨converters, buf₂, m⟩, hrun, hconv⟩ := bind_eq_ok hconv
      cases hconv
      have hfit := hfit p rfl
      have hw : p.written = r.out.length := hfit.told.written
      have hout : r.out.length ≤ want := by
        have hle := hfit.told.room.2
        rw [List.length_nil, Nat.zero_add] at hle
        exact hle
      rw [copyTo, if_pos (by omega)] at hcopy
      cases hcopy
      rw [hw] at hrun
      obtain ⟨hlen, -, hgo, hend⟩ := hs.runBuffer_made x8664 kernel (by omega) hrun
      exact ⟨r, hfit, hlen, ⟨converters, rfl⟩, fun hm => hgo (beq_eq_false_iff_ne.2 hm),
        fun hm => (hend (by rw [hm]; rfl)).2⟩

/-- What a turn made is given, or kept. -/
theorem deliver_amid {direct : Bool} {out new : List UInt8} {consumed written : ℕ} {t : Decoded C}
    (h : d.Pours B rest (made ++ new)) (hp : d.pendingPos = d.pendingLen)
    (hnew : new = (if direct then out else d.pending).take written)
    (ht : d.deliver direct out consumed written = .ok t) :
    ∃ n, t.res = .ok (consumed, n) ∧ t.d.Amid B rest (made ++ t.out.take n) := by
  unfold deliver at ht
  cases direct with
  | true =>
      cases ht
      exact ⟨written, rfl, .of_pours (hnew ▸ h) hp⟩
  | false =>
      rw [if_neg Bool.false_ne_true] at ht hnew
      obtain ⟨slice, hslice, ht⟩ := bind_eq_ok ht
      obtain ⟨out₁, hcopy, ht⟩ := bind_eq_ok ht
      obtain ⟨hslice, hlen⟩ := sliceOf_eq hslice
      have hfront := copyTo_front hcopy
      rw [hlen] at hfront
      by_cases hall : min written out.length = written
      · rw [if_pos hall] at ht
        cases ht
        refine ⟨_, rfl, ?_⟩
        rw [hfront, hslice, hall, List.drop_zero, ← hnew]
        exact .of_pours ⟨h.unpacked, h.packed, h.check, h.opened, h.closed⟩ rfl
      · rw [if_neg hall] at ht
        cases ht
        refine ⟨_, rfl, ?_⟩
        have hcut := List.take_append_drop (min written out.length) (d.pending.take written)
        rw [List.take_take, List.drop_take, Nat.min_eq_left (Nat.min_le_left _ _)] at hcut
        have hsplit : made ++ out₁.take (min written out.length) ++
            (d.pending.drop (min written out.length)).take (written - min written out.length) =
              made ++ new := by
          rw [hfront, hslice, hnew, List.drop_zero, List.append_assoc, hcut]
        unfold Amid held
        rw [hsplit]
        exact ⟨h.unpacked, h.packed, h.check, h.opened, h.closed⟩

theorem filterLoop_amid {input out : List UInt8} {t : Decoded C} {fuel consumed k read wrote : ℕ}
    (h : d.Sound) (hbound : d.Bounded) (hb : d.Pours B (rest.drop consumed) made)
    (hp : d.pendingPos = d.pendingLen) (hf : d.finished = false) (hinput : input = rest.take k)
    (ht : d.filterLoop x8664 kernel input fuel out consumed = .ok t)
    (hres : t.res = .ok (read, wrote)) :
    t.d.Amid B (rest.drop read) (made ++ t.out.take wrote) := by
  induction fuel generalizing d made consumed out with
  | zero => cases ht
  | succ fuel ih =>
      obtain ⟨lz, hst, hs⟩ := hb.opened hf
      have hroom := room_of hbound.unpacked usizeMax
      obtain ⟨remaining, hrem⟩ : ∃ remaining, min (min (d.cap - d.unpacked) usizeMax) usizeMax =
        remaining := ⟨_, rfl⟩
      rw [hrem] at hroom
      by_cases hfit : d.converters.carriedBytes ≤ remaining
      case neg =>
        rw [filterLoop] at ht
        dsimp only at ht
        rw [hroom] at ht
        dsimp only at ht
        rw [if_pos (Nat.lt_of_not_le hfit)] at ht
        cases ht
        cases hres
      obtain ⟨direct, want, buf, buf', d', d₁, out₁, res, hturn⟩ :=
        filterLoop_turn x8664 kernel h hs hroom hfit input fuel out consumed
      rw [hturn.next] at ht
      cases res with
      | error e =>
          cases ht
          cases hres
      | ok pm =>
          obtain ⟨p, m⟩ := pm
          obtain ⟨d₃, noted, hnote, hmade, -⟩ := hturn.noted h hbound hp hf hs hrem
          have hrun := hturn.run
          rw [hinput, List.drop_take] at hrun
          obtain ⟨r, hfound, hlen, ⟨converters, hd'⟩, hgo, hend⟩ :=
            convertInto_makes h hrun hst hs hturn.room
          obtain ⟨pending, hd₁, -, hpend⟩ := hturn.keeps
          unfold settle at ht
          dsimp only at ht
          rw [hnote] at ht
          cases noted with
          | error e =>
              cases ht
              cases hres
          | ok u =>
              have hpour : d₃.Pours B (rest.drop (consumed + p.read)) (made ++ buf'.take m) := by
                have hsame : d₁.lzma2 = r.d ∧ d₁.unpacked = d.unpacked ∧ d₁.packed = d.packed ∧
                    d₁.finished = false ∧ d₁.check = C.update d.check (buf'.take m) := by
                  rw [hd₁, hd']
                  exact ⟨rfl, rfl, rfl, hf, rfl⟩
                rw [← List.drop_drop]
                exact hb.note hfound hsame (by rw [hd₁]; exact hgo) hend (by rw [hlen]) hnote
              have hpending : direct = false → d₃.pending = buf' := fun hd => by
                obtain ⟨finished, hfin, -⟩ := note_spec ({ d₁ with
                  packed := d₁.packed + p.read, unpacked := d₁.unpacked + m } : BlockDecoder C)
                  p.status
                rw [hnote] at hfin
                dsimp only at hfin
                rw [hfin, hd₁]
                exact hpend hd
              dsimp only at ht
              split at ht
              · cases ht
                cases hres
              · split at ht
                · have hfront : buf'.take m = (if direct then out₁ else d₃.pending).take m := by
                    cases direct with
                    | true => rw [if_pos rfl, hturn.hands rfl]
                    | false => rw [if_neg Bool.false_ne_true, hpending rfl]
                  obtain ⟨n, hn, ham⟩ := deliver_amid hpour hmade.pending hfront ht
                  rw [hn] at hres
                  cases hres
                  exact ham
                next hstay =>
                  obtain ⟨hzero, hnot⟩ := not_or.1 hstay
                  have hzero : m = 0 := not_not.1 hzero
                  rw [hzero, List.take_zero, List.append_nil] at hpour
                  split at ht
                  · cases ht
                    cases hres
                    rw [List.take_zero, List.append_nil]
                    exact .of_pours hpour hmade.pending
                  · exact ih hmade.sound hmade.bounded hpour hmade.pending
                      (Bool.not_eq_true _ ▸ hnot) ht

/-- A call from any state: the bytes it gives are the next of the block. -/
theorem decode_amid {input out : List UInt8} {t : Decoded C} {k read wrote : ℕ} (h : d.Sound)
    (hbound : d.Bounded) (hb : d.Amid B rest given) (hinput : input = rest.take k)
    (ht : d.decode x8664 kernel input out = .ok t) (hres : t.res = .ok (read, wrote)) :
    t.d.Amid B (rest.drop read) (given ++ t.out.take wrote) := by
  unfold decode at ht
  split at ht
  next hlt =>
    obtain ⟨slice, hslice, ht⟩ := bind_eq_ok ht
    obtain ⟨out₁, hcopy, ht⟩ := bind_eq_ok ht
    obtain ⟨hslice, hlen⟩ := sliceOf_eq hslice
    have hfront := copyTo_front hcopy
    rw [hlen] at hfront
    obtain ⟨n, hn⟩ : ∃ n, min (d.pendingLen - d.pendingPos) out.length = n := ⟨_, rfl⟩
    rw [hn] at ht hslice hfront
    -- what is kept is what follows the bytes given
    have hkept : ∀ pendingLen pendingPos,
        (if d.pendingPos + n = d.pendingLen then (0, 0) else (d.pendingLen, d.pendingPos + n)) =
          (pendingLen, pendingPos) →
        d.held = out₁.take n ++ (d.pending.drop pendingPos).take (pendingLen - pendingPos) := by
      intro pendingLen pendingPos hpair
      have hcut := List.take_append_drop n d.held
      unfold held at hcut ⊢
      rw [List.take_take, List.drop_take, List.drop_drop, Nat.min_eq_left (by omega)] at hcut
      rw [hfront, hslice]
      split at hpair
      next hall =>
        cases hpair
        rw [← hcut, show d.pendingLen - d.pendingPos - n = 0 by omega, List.take_zero,
          List.take_zero]
      next =>
        cases hpair
        rw [← hcut, Nat.sub_sub]
    obtain ⟨pair, hpair⟩ : ∃ pair, (if d.pendingPos + n = d.pendingLen then (0, 0)
      else (d.pendingLen, d.pendingPos + n)) = pair := ⟨_, rfl⟩
    rw [hpair] at ht
    cases ht
    cases hres
    have hall := hkept pair.1 pair.2 hpair
    rw [List.drop_zero]
    unfold Amid at hb ⊢
    rw [hall, ← List.append_assoc] at hb
    exact ⟨hb.unpacked, hb.packed, hb.check, hb.opened, hb.closed⟩
  next hge =>
    have hp : d.pendingPos = d.pendingLen := by
      have := h.pending.1
      omega
    split at ht
    · cases ht
      cases hres
      rw [List.drop_zero, List.take_zero, List.append_nil]
      exact hb
    next hgo =>
      obtain ⟨hf, -⟩ := not_or.1 hgo
      have hf : d.finished = false := Bool.not_eq_true _ ▸ hf
      split at ht
      · cases ht
        cases hres
      · dsimp only at ht
        obtain ⟨k', hoffer⟩ : ∃ k', d.offered input = rest.take k' := by
          unfold offered
          split
          next c _ => exact ⟨min (c - d.packed) k, by rw [hinput, List.take_take]⟩
          next => exact ⟨k, hinput⟩
        split at ht
        next hstages => exact decodePlain_pours h (hb.pours hp) hp hf hstages hoffer ht hres
        next =>
          have hstart : d.Pours B (rest.drop 0) given := hb.pours hp
          exact filterLoop_amid h hbound hstart hp hf hoffer ht hres

end

/-- A new block. -/
theorem new_pours {header : BlockHeader} {check : CheckType} {offset : ℕ} {verify : Bool}
    {limits : BlockLimits} (hnew : BlockDecoder.new header.chain check offset verify limits = .ok d)
    (xs : List UInt8) : d.finished = false ∧ d.pendingPos = d.pendingLen ∧ ∃ convs,
      d.Pours ⟨d.lzma2.decoder.prop, convs, C.new check offset verify, xs⟩ xs [] := by
  obtain ⟨-, -, lzma2, converters, hlzma2, hbuild, rfl⟩ := new_ok hnew
  obtain ⟨cs, hstages, hready, -⟩ := FilterChain.build_fresh hbuild
  obtain ⟨hat, -, -⟩ := Lzma2Decoder.newCapped_at hlzma2
  exact ⟨rfl, rfl, cs, rfl, Nat.zero_add _, ⟨[], rfl, rfl⟩,
    fun _ => ⟨[], ⟨_, [], .refl _ _, hat, exact_chunk⟩,
      Converters.streams_fresh false hstages hready⟩, fun hf => by cases hf⟩

end BlockDecoder
end LzmaTurbo.Xz
