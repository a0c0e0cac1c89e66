import LzmaTurbo.Lzma2.LegalCalls
import LzmaTurbo.Xz.BlockDecLaws

/-!
# A block within its limits

A block gives no more than it may, and one that keeps within its limits is not refused.
-/
namespace LzmaTurbo.Xz
open Machine Lzma Lzma2

theorem length_wholes (e : Bool) (cs : List Conv) (xs : List UInt8) :
    (wholes e cs xs).length = xs.length := by
  induction cs generalizing xs with
  | nil => rfl
  | cons c cs ih =>
      rw [wholes, ih]
      cases c with
      | delta d => exact Rewriter.length_whole _ _
      | bcj b => exact Rewriter.length_whole _ _

/-- What the converters make of new bytes in a buffer stands at its front. A byte goes out or is
carried, and at the end all go out. -/
theorem Converters.Streams.runBuffer_made {cs : List Conv} {fed given : List UInt8}
    {c c' : Converters} (x8664 kernel : Bool) (h : Streams false cs fed c given)
    {buf data buf' : List UInt8} {flush : Bool} {n : ℕ}
    (hroom : c.carriedBytes + data.length ≤ buf.length)
    (hrun : c.runBuffer x8664 kernel
      (buf.take c.carriedBytes ++ data ++ buf.drop (c.carriedBytes + data.length)) data.length
      flush false = .ok (c', buf', n)) :
    (buf'.take n).length = n ∧ n + c'.carriedBytes = c.carriedBytes + data.length ∧
      (flush = false → Streams false cs (fed ++ data) c' (given ++ buf'.take n)) ∧
      (flush = true → c'.carriedBytes = 0 ∧
        given ++ buf'.take n = wholes false cs (fed ++ data)) := by
  have hpre : (buf.take c.carriedBytes).length = c.carriedBytes := by
    rw [List.length_take]
    omega
  have hpre' : (buf.take c.carriedBytes).length = carried (inOrder false c.stages) :=
    hpre.trans (carriedBytes_eq false c)
  have hlen := Fed.length_eq h
  have hcarry := carriedBytes_eq false c
  cases flush with
  | false =>
      obtain ⟨ss, made, post', hgo, hfed⟩ := Fed.turns x8664 kernel h (buf.take c.carriedBytes)
        data (buf.drop (c.carriedBytes + data.length)) hpre'
      rw [hpre] at hgo
      rw [runBuffer, hgo] at hrun
      cases hrun
      have hlen' := hfed.length_eq
      rw [List.length_append, List.length_append] at hlen'
      rw [List.take_left]
      refine ⟨rfl, ?_, fun _ => hfed, fun hf => by cases hf⟩
      change made.length + carried ss = _
      omega
  | true =>
      obtain ⟨ss, made, post', hgo, hall, hzero⟩ := Fed.last x8664 kernel h
        (buf.take c.carriedBytes) data (buf.drop (c.carriedBytes + data.length)) hpre'
      rw [hpre] at hgo
      rw [runBuffer, hgo] at hrun
      cases hrun
      have hlen' := congrArg List.length hall
      rw [length_wholes, List.length_append, List.length_append] at hlen'
      rw [List.take_left]
      refine ⟨rfl, ?_, (fun hf => by cases hf), fun _ => ⟨hzero, hall⟩⟩
      change made.length + carried ss = _
      omega

/-- A block whose data end and keep to what is declared and allowed of them; `xs` is the
input from its first byte on. -/
structure Fits (prop : LzmaProps) (limits : BlockLimits) (xs : List UInt8) : Prop where
  mark : (format2 prop xs).verdict = .mark
  declared : ∀ n ∈ limits.uncompressedSize, (format2 prop xs).out.length = n
  packed : ∀ c ∈ limits.compressedSize, c + (format2 prop xs).rest.length = xs.length
  allowed : (format2 prop xs).out.length ≤ limits.maxBlockSize

namespace BlockDecoder
variable {C : Checks} {d d₁ : BlockDecoder C} {prop : LzmaProps} {xs rest input out : List UInt8}

/-- What the block may give in all. -/
def cap (d : BlockDecoder C) : ℕ := d.limits.uncompressedSize.getD d.limits.maxBlockSize

/-- What the caller has of it. -/
def given (d : BlockDecoder C) : ℕ := d.unpacked - (d.pendingLen - d.pendingPos)

theorem le_cap (h : Fits prop d.limits xs) : (format2 prop xs).out.length ≤ d.cap := by
  unfold cap
  cases hn : d.limits.uncompressedSize with
  | none => exact h.allowed
  | some n => exact (h.declared n hn).le

theorem cap_le (h : ∀ n ∈ d.limits.uncompressedSize, n ≤ d.limits.maxBlockSize) :
    d.cap ≤ d.limits.maxBlockSize := by
  unfold cap
  cases hu : d.limits.uncompressedSize with
  | none => exact Nat.le_refl _
  | some n => exact h n hu

/-- A block in which no more is decoded than it may give. -/
structure Bounded (d : BlockDecoder C) : Prop where
  unpacked : d.unpacked ≤ d.cap
  pending : d.pendingLen - d.pendingPos ≤ d.unpacked

/-- What a call gives is counted. -/
structure Counted (d : BlockDecoder C) (t : Decoded C) : Prop where
  limits : t.d.limits = d.limits
  bounded : t.d.Bounded
  given : ∀ read wrote, t.res = .ok (read, wrote) → t.d.given = d.given + wrote

/-- Where an open block stands in its data, of which `rest` is not yet handed over. -/
structure Stands (prop : LzmaProps) (xs rest : List UInt8) (d : BlockDecoder C) : Prop where
  data : ∃ lz, Stands2 prop xs rest lz d.lzma2 ∧
    lz.length = d.unpacked + d.converters.carriedBytes
  opened : d.lzma2.frame.state ≠ .finished
  packed : d.packed + rest.length = xs.length
  carry : d.converters.maxCarry < usizeMax

/-- A call on a block that keeps within its limits. -/
def Served (prop : LzmaProps) (xs rest : List UInt8) (t : Decoded C) : Prop :=
  ∃ read wrote, t.res = .ok (read, wrote) ∧
    (t.d.finished = true ∨ Stands prop xs (rest.drop read) t.d)

theorem room_of (h : d.unpacked ≤ d.cap) (want : ℕ) :
    d.room want = .ok (min (min (d.cap - d.unpacked) usizeMax) want) :=
  if_neg (Nat.not_lt.2 h)

/-- The end mark of a block that keeps within its limits is accepted. -/
theorem note_fits (status : Status) (hfits : Fits prop d.limits xs)
    (hend : status = .finishedWithMark → d.unpacked = (format2 prop xs).out.length ∧
      d.packed + (format2 prop xs).rest.length = xs.length) : (d.note status).2 = .ok () := by
  unfold note
  split
  next hst =>
    obtain ⟨hunpacked, hpacked⟩ := hend hst
    dsimp only
    rw [if_neg, if_neg]
    · cases hc : d.limits.compressedSize with
      | none => exact Bool.false_ne_true
      | some c =>
          have hp := hfits.packed c hc
          rw [Option.any_some, decide_eq_true_eq]
          exact fun hne => hne (by omega)
    · cases hn : d.limits.uncompressedSize with
      | none => exact Bool.false_ne_true
      | some n =>
          have hl := hfits.declared n hn
          rw [Option.any_some, decide_eq_true_eq]
          exact fun hne => hne (by omega)
  · rfl

/-- What is decoded so far of a block that stands. -/
theorem Stands.data_le (h : Stands prop xs rest d) :
    d.unpacked + d.converters.carriedBytes ≤ (format2 prop xs).out.length := by
  obtain ⟨lz, hst, hlen⟩ := h.data
  obtain ⟨pos, held, hm, hat, -⟩ := hst.here
  have hle := (Moves2.isPrefix hm hat.written).length_le
  rw [List.length_reverse, List.length_reverse, hlen] at hle
  exact hle

/-- What LZMA2 does in a block; it does not refuse one that ends and for which there is room. -/
theorem decodeLzma2_finds {d' : BlockDecoder C} {buf buf' lz : List UInt8} {start want k : ℕ}
    {mode : FinishMode} {res : Except XzErrorKind Progress}
    (hdec : d.decodeLzma2 (rest.take k) buf start want mode = .ok (d', buf', res))
    (hst : Stands2 prop xs rest lz d.lzma2)
    (hsize : d.lzma2.decoder.prop.dictSize ≤ d.lzma2.decoder.dicBufSize) :
    ∃ r, d' = { d with lzma2 := r.d } ∧ copyTo buf start r.out = .ok buf' ∧
      (∀ p, res = .ok p → Fitted prop xs rest lz k want mode r p) ∧
      ((format2 prop xs).verdict = .mark →
        (mode = .endMark → (format2 prop xs).out.length ≤ lz.length + want) →
        ∃ p, res = .ok p) := by
  obtain ⟨r, hr, hfit, hbad⟩ := hst.finds hsize k want mode
  unfold decodeLzma2 at hdec
  rw [hr, ok_bind] at hdec
  obtain ⟨buf₁, hcopy, hdec⟩ := bind_eq_ok hdec
  cases hres : r.res with
  | error e =>
      rw [hres] at hdec
      cases hdec
      refine ⟨r, rfl, hcopy, (fun p hp => by cases hp), fun hv hroom => ?_⟩
      rcases hbad e hres with hno | ⟨hmode, hlong⟩
      · exact absurd hv hno
      · exact absurd (hroom hmode) (Nat.not_le_of_lt hlong)
  | ok p =>
      rw [hres] at hdec
      cases hdec
      refine ⟨r, rfl, hcopy, fun p' hp => ?_, fun _ _ => ⟨p, rfl⟩⟩
      cases hp
      exact hfit p hres

/-- What a block without converters that keeps within its limits makes of a call. -/
theorem plain_serves {limit k : ℕ} {d' : BlockDecoder C} {buf' : List UInt8}
    {res : Except XzErrorKind Progress}
    (hdec : d.decodeLzma2 input out 0 limit (if limit = 0 then .endMark else .any) =
      .ok (d', buf', res))
    (h : d.Sound) (hb : d.Bounded) (hne : out ≠ [])
    (hlimit : min (min (d.cap - d.unpacked) usizeMax) out.length = limit)
    (hinput : input = rest.take k) (hstages : d.converters.stages = [])
    (hstands : Stands prop xs rest d) (hfits : Fits prop d.limits xs) :
    ∃ lz r p, res = .ok p ∧ d'.lzma2 = r.d ∧ Stands2 prop xs rest lz d.lzma2 ∧
      lz.length = d.unpacked ∧
      Fitted prop xs rest lz k limit (if limit = 0 then .endMark else .any) r p := by
  obtain ⟨lz, hst, hlen⟩ := hstands.data
  have hbu := hb.unpacked
  have hzero : d.converters.carriedBytes = 0 := by
    rw [Converters.carriedBytes, hstages]
    rfl
  rw [hinput] at hdec
  obtain ⟨r, rfl, -, hfit, hok⟩ := decodeLzma2_finds hdec hst h.dict
  obtain ⟨p, rfl⟩ := hok hfits.mark (fun hm => by
    have hle := le_cap hfits
    have hout := List.length_pos_of_ne_nil hne
    have husize : 0 < usizeMax := by decide
    by_cases hz : limit = 0
    · omega
    · rw [if_neg hz] at hm
      cases hm)
  exact ⟨lz, r, p, rfl, rfl, hst, by omega, hfit p rfl⟩

/-- The end of a call without converters: it is counted, and nothing in it refuses a block that
keeps within its limits. -/
theorem plain_noted {limit : ℕ} {buf' made : List UInt8} {lzma2 : Lzma2Decoder} {p : Progress}
    {check : C.Running} (h : d.Sound) (hb : d.Bounded) (hp : d.pendingPos = d.pendingLen)
    (hne : out ≠ []) (hlimit : min (min (d.cap - d.unpacked) usizeMax) out.length = limit)
    (hdec : d.decodeLzma2 input out 0 limit (if limit = 0 then .endMark else .any) =
      .ok ({ d with lzma2 }, buf', .ok p))
    (hmade : made.length ≤ limit)
    (hcall : Buf2Says input [] 0 limit (if limit = 0 then .endMark else .any) made p)
    (hd₁ : d₁ = { d with
      lzma2, packed := d.packed + p.read, unpacked := d.unpacked + p.written, check }) :
    (∀ out' res, (∀ read wrote, res = .ok (read, wrote) → wrote = p.written) →
      Counted d ⟨(d₁.note p.status).1, out', res⟩) ∧
    ∀ prop xs (rest : List UInt8) k, input = rest.take k → input ≠ [] →
      d.converters.stages = [] → Stands prop xs rest d → Fits prop d.limits xs →
      (d₁.note p.status).2 = .ok () ∧ (¬(limit = 0 ∧ (d₁.note p.status).1.finished = false)) ∧
        ((d₁.note p.status).1.finished = true ∨
          Stands prop xs (rest.drop p.read) (d₁.note p.status).1) := by
  have hwritten := hcall.written
  have hbu := hb.unpacked
  have hbp := hb.pending
  obtain ⟨finished, hnote, hfin⟩ := d₁.note_spec p.status
  have hlimits : d₁.limits = d.limits := by rw [hd₁]
  have hunpacked : d₁.unpacked = d.unpacked + p.written := by rw [hd₁]
  have hpend : d₁.pendingPos = d₁.pendingLen := by rw [hd₁]; exact hp
  have hcap : d₁.cap = d.cap := by rw [cap, cap, hlimits]
  have hbounded : ({ d₁ with finished } : BlockDecoder C).Bounded := by
    constructor
    · change d₁.unpacked ≤ d₁.cap
      omega
    · change d₁.pendingLen - d₁.pendingPos ≤ d₁.unpacked
      omega
  constructor
  · intro out' res hwrote
    rw [hnote]
    refine ⟨hlimits, hbounded, fun read wrote hr => ?_⟩
    rw [hwrote read wrote hr]
    change d₁.unpacked - (d₁.pendingLen - d₁.pendingPos) = d.given + p.written
    rw [given]
    omega
  · intro prop xs rest k hinput hin hstages hstands hfits
    obtain ⟨lz, r, p', hres, hl, hst, hlen, hfit⟩ :=
      plain_serves hdec h hb hne hlimit hinput hstages hstands hfits
    cases hres
    have hl : lzma2 = r.d := hl
    have hpacked := hstands.packed
    have hread : p.read ≤ rest.length := by
      have hle := hcall.read.2
      rw [hinput, List.length_take] at hle
      omega
    have hmade' : p.written = r.out.length := hfit.told.written
    refine ⟨note_fits p.status (by rw [hlimits]; exact hfits) fun hm => ?_, ?_, ?_⟩
    · obtain ⟨hall, hrest⟩ := hfit.mark hm
      have hall := congrArg List.length hall
      have hrest := congrArg List.length hrest
      rw [List.length_append] at hall
      rw [List.length_drop] at hrest
      have hpk : d₁.packed = d.packed + p.read := by rw [hd₁]
      omega
    · rintro ⟨hz, hf⟩
      have hnot : p.status ≠ .finishedWithMark := fun hm => by
        rw [hnote] at hf
        have hf : finished = false := hf
        rw [hfin.2 (.inr hm)] at hf
        cases hf
      have hle := le_cap hfits
      have hout := List.length_pos_of_ne_nil hne
      have husize : 0 < usizeMax := by decide
      have hneed := hfit.closes hst hfits.mark (by omega) (hinput ▸ hin)
      rcases hcall.status with ⟨hn, -⟩ | hm | ⟨-, hm, -⟩
      · exact hneed hn
      · exact hnot hm
      · rw [if_pos hz] at hm
        cases hm
    · by_cases hm : p.status = .finishedWithMark
      · rw [hnote]
        exact .inl (hfin.2 (.inr hm))
      · refine .inr ⟨⟨lz ++ r.out, ?_, ?_⟩, ?_, ?_, ?_⟩
        · rw [hnote, hd₁]
          change Stands2 prop xs (rest.drop p.read) (lz ++ r.out) lzma2
          rw [hl]
          exact hfit.stands
        · have hzero : d₁.converters.carriedBytes = 0 := by
            rw [hd₁, Converters.carriedBytes, hstages]
            rfl
          rw [hnote, List.length_append]
          change lz.length + r.out.length = d₁.unpacked + d₁.converters.carriedBytes
          omega
        · rw [hnote, hd₁]
          change lzma2.frame.state ≠ _
          rw [hl]
          exact hfit.goesOn hm
        · rw [hnote, hd₁, List.length_drop]
          change d.packed + p.read + (rest.length - p.read) = xs.length
          omega
        · rw [hnote, hd₁]
          exact hstands.carry

theorem decodePlain_limits (h : d.Sound) (hb : d.Bounded) (hp : d.pendingPos = d.pendingLen)
    (hne : out ≠ []) {t : Decoded C} (ht : d.decodePlain input out = .ok t) :
    Counted d t ∧ ∀ prop xs rest k, input = rest.take k → input ≠ [] →
      d.converters.stages = [] → Stands prop xs rest d → Fits prop d.limits xs →
      Served prop xs rest t := by
  unfold decodePlain at ht
  rw [room_of hb.unpacked] at ht
  dsimp only at ht
  obtain ⟨limit, hlimit⟩ : ∃ limit, min (min (d.cap - d.unpacked) usizeMax) out.length = limit :=
    ⟨_, rfl⟩
  rw [hlimit] at ht
  obtain ⟨lzma2, made, res, hdec, -, -, hmade, hcall⟩ := decodeLzma2_spec h input
    (if limit = 0 then FinishMode.endMark else FinishMode.any)
    (show 0 + limit ≤ out.length by omega)
  rw [hdec, ok_bind] at ht
  dsimp only at ht
  cases res with
  | error k =>
      cases ht
      refine ⟨⟨rfl, ⟨hb.unpacked, hb.pending⟩, fun read wrote hr => by cases hr⟩, ?_⟩
      intro prop xs rest k' hinput _ hstages hstands hfits
      obtain ⟨lz, r, p, hres, -⟩ :=
        plain_serves hdec h hb hne hlimit hinput hstages hstands hfits
      cases hres
  | ok p =>
      dsimp only at ht
      obtain ⟨d₁, hd₁⟩ : ∃ d₁, ({ d with
        lzma2, packed := d.packed + p.read, unpacked := d.unpacked + p.written
        check := C.update d.check ((out.take 0 ++ made ++
          out.drop (0 + made.length)).take p.written) } : BlockDecoder C) = d₁ := ⟨_, rfl⟩
      rw [hd₁] at ht
      obtain ⟨hcount, hready⟩ :=
        plain_noted h hb hp hne hlimit hdec hmade (hcall p rfl) hd₁.symm
      cases hnoted : (d₁.note p.status).2 with
      | error k =>
          rw [hnoted] at ht hready
          cases ht
          refine ⟨hcount _ _ (fun read wrote hr => by cases hr), ?_⟩
          intro prop xs rest k' hinput hin hstages hstands hfits
          obtain ⟨hn, -⟩ := hready prop xs rest k' hinput hin hstages hstands hfits
          cases hn
      | ok u =>
          rw [hnoted] at ht
          dsimp only at ht
          split at ht
          next hbad =>
            cases ht
            refine ⟨hcount _ _ (fun read wrote hr => by cases hr), ?_⟩
            intro prop xs rest k' hinput hin hstages hstands hfits
            obtain ⟨-, hn, -⟩ := hready prop xs rest k' hinput hin hstages hstands hfits
            exact absurd hbad hn
          · cases ht
            refine ⟨hcount _ _ (fun read wrote hr => by cases hr; rfl), ?_⟩
            intro prop xs rest k' hinput hin hstages hstands hfits
            obtain ⟨-, -, hst⟩ := hready prop xs rest k' hinput hin hstages hstands hfits
            exact ⟨p.read, p.written, rfl, hst⟩

theorem convertInto_length (x8664 kernel : Bool) (h : d.Sound) {cs : List Conv}
    {fed made : List UInt8} (hs : Converters.Streams false cs fed d.converters made)
    {buf buf' : List UInt8} {want m : ℕ} {mode : FinishMode} {d' : BlockDecoder C} {p : Progress}
    (hroom : d.converters.carriedBytes + want ≤ buf.length)
    (hconv : d.convertInto x8664 kernel input buf d.converters.carriedBytes want mode =
      .ok (d', buf', .ok (p, m))) :
    m + d'.converters.carriedBytes = d.converters.carriedBytes + p.written ∧
      (p.status = .finishedWithMark → d'.converters.carriedBytes = 0) ∧ p.written ≤ want := by
  obtain ⟨lzma2, new, res, hdec, -, -, hnew, hcall⟩ := decodeLzma2_spec h input mode hroom
  unfold convertInto at hconv
  rw [hdec, ok_bind] at hconv
  dsimp only at hconv
  cases res with
  | error k => cases hconv
  | ok p' =>
      obtain ⟨⟨c', buf₁, n⟩, hrun, hconv⟩ := bind_eq_ok hconv
      cases hconv
      have hwritten := (hcall p rfl).written
      rw [hwritten] at hrun ⊢
      obtain ⟨-, hlen, -, hend⟩ := hs.runBuffer_made x8664 kernel (by omega) hrun
      refine ⟨hlen, fun hm => (hend ?_).1, hnew⟩
      rw [hm]
      rfl

theorem convertInto_fits {x8664 kernel : Bool} {d' : BlockDecoder C} {buf buf' lz : List UInt8}
    {start want k : ℕ} {mode : FinishMode} {res : Except XzErrorKind (Progress × ℕ)}
    (hconv : d.convertInto x8664 kernel (rest.take k) buf start want mode = .ok (d', buf', res))
    (hst : Stands2 prop xs rest lz d.lzma2)
    (hsize : d.lzma2.decoder.prop.dictSize ≤ d.lzma2.decoder.dicBufSize)
    (hv : (format2 prop xs).verdict = .mark)
    (hroom : mode = .endMark → (format2 prop xs).out.length ≤ lz.length + want) :
    ∃ r p m, res = .ok (p, m) ∧ d'.lzma2 = r.d ∧ Fitted prop xs rest lz k want mode r p := by
  unfold convertInto at hconv
  obtain ⟨⟨d₁, buf₁, res₁⟩, hdec, hconv⟩ := bind_eq_ok hconv
  obtain ⟨r, rfl, -, hfit, hok⟩ := decodeLzma2_finds hdec hst hsize
  obtain ⟨p, rfl⟩ := hok hv hroom
  obtain ⟨⟨c', buf₂, m⟩, -, hconv⟩ := bind_eq_ok hconv
  cases hconv
  exact ⟨r, p, m, rfl, rfl, hfit p rfl⟩

/-- What is made is handed over or kept, and all of it counted. -/
theorem deliver_counts (hp : d.pendingPos = d.pendingLen) {direct : Bool} {consumed written : ℕ}
    (hw : written ≤ d.unpacked) {t : Decoded C}
    (ht : d.deliver direct out consumed written = .ok t) :
    ∃ pendingLen pendingPos n, t.d = { d with pendingLen, pendingPos } ∧
      pendingLen - pendingPos ≤ d.unpacked ∧ t.res = .ok (consumed, n) ∧
      t.d.given = d.unpacked - written + n := by
  unfold deliver at ht
  cases direct with
  | true =>
      cases ht
      refine ⟨d.pendingLen, d.pendingPos, written, rfl, by omega, rfl, ?_⟩
      change d.unpacked - (d.pendingLen - d.pendingPos) = _
      omega
  | false =>
      rw [if_neg Bool.false_ne_true] at ht
      obtain ⟨made, -, ht⟩ := bind_eq_ok ht
      obtain ⟨out₁, -, ht⟩ := bind_eq_ok ht
      by_cases hall : min written out.length = written
      · rw [if_pos hall] at ht
        cases ht
        refine ⟨0, 0, written, rfl, Nat.zero_le _, by rw [hall], ?_⟩
        change d.unpacked - (0 - 0) = _
        omega
      · rw [if_neg hall] at ht
        cases ht
        refine ⟨written, min written out.length, min written out.length, rfl, by omega, rfl, ?_⟩
        change d.unpacked - (written - min written out.length) = _
        omega

section
variable {x8664 kernel : Bool} {fuel consumed remaining want : ℕ} {direct : Bool}
  {buf buf' out₁ : List UInt8} {d' d₁ : BlockDecoder C}

/-- What a block that keeps within its limits makes of a turn. -/
theorem Turned.serves {res : Except XzErrorKind (Progress × ℕ)}
    (hturn : Turned x8664 kernel input fuel d out consumed remaining direct want buf buf' d' d₁
      out₁ res) (h : d.Sound) (hb : d.Bounded) {cs : List Conv} {fed made : List UInt8}
    (hs : Converters.Streams false cs fed d.converters made)
    (hrem : min (min (d.cap - d.unpacked) usizeMax) usizeMax = remaining) {rest : List UInt8}
    {n : ℕ} (hinput : input = rest.take n) (hstands : Stands prop xs (rest.drop consumed) d)
    (hfits : Fits prop d.limits xs) : ∃ lz r p m, res = .ok (p, m) ∧ d'.lzma2 = r.d ∧
      lz.length = d.unpacked + d.converters.carriedBytes ∧
      Fitted prop xs (rest.drop consumed) lz (n - consumed) want
        (if want = 0 then .endMark else .any) r p := by
  obtain ⟨lz, hst, hlen⟩ := hstands.data
  obtain ⟨hcarry, -⟩ := hs.held_back
  have hbu := hb.unpacked
  have hrun := hturn.run
  rw [hinput, List.drop_take] at hrun
  obtain ⟨r, p, m, hres, hl, hfit'⟩ := convertInto_fits hrun hst h.dict hfits.mark (fun hm => by
    have hcap := le_cap hfits
    have hmax := hstands.carry
    by_cases hz : want = 0
    · have hend := hturn.full hz
      omega
    · rw [if_neg hz] at hm
      cases hm)
  exact ⟨lz, r, p, m, hres, hl, hlen, hfit'⟩

/-- A block after a turn that made `m` bytes. -/
structure Made (d d₃ : BlockDecoder C) (m : ℕ) : Prop where
  sound : d₃.Sound
  bounded : d₃.Bounded
  given : d₃.given = d.given + m
  unpacked : m ≤ d₃.unpacked
  limits : d₃.limits = d.limits
  pending : d₃.pendingPos = d₃.pendingLen

/-- The end of a turn: it is counted, and nothing in it refuses a block that keeps within its
limits. -/
theorem Turned.noted {p : Progress} {m : ℕ}
    (hturn : Turned x8664 kernel input fuel d out consumed remaining direct want buf buf' d' d₁
      out₁ (.ok (p, m)))
    (h : d.Sound) (hb : d.Bounded) (hp : d.pendingPos = d.pendingLen) (hf : d.finished = false)
    {cs : List Conv} {fed made : List UInt8}
    (hs : Converters.Streams false cs fed d.converters made)
    (hrem : min (min (d.cap - d.unpacked) usizeMax) usizeMax = remaining) :
    ∃ d₃ noted, (({ d₁ with packed := d₁.packed + p.read, unpacked := d₁.unpacked + m } :
        BlockDecoder C).note p.status) = (d₃, noted) ∧ Made d d₃ m ∧
      ∀ prop xs (rest : List UInt8) n, input = rest.take n →
        Stands prop xs (rest.drop consumed) d → Fits prop d.limits xs → noted = .ok () ∧
          ¬(want = 0 ∧ d₃.finished = false ∧ p.status ≠ .needsMoreInput) ∧
          (d₃.finished = true ∨ Stands prop xs (rest.drop (consumed + p.read)) d₃) := by
  have hbu := hb.unpacked
  have hbp := hb.pending
  have hwant := hturn.want_le
  obtain ⟨d'', buf'', res'', hconv, hlen', hl', hdict', ⟨lzma2, converters, check, hd'⟩, herr,
    hok⟩ := convertInto_spec x8664 kernel h hs (input.drop consumed)
      (if want = 0 then FinishMode.endMark else FinishMode.any) hturn.room
  rw [hturn.run] at hconv
  cases hconv
  obtain ⟨pending, hd₁, hpl, -⟩ := hturn.keeps
  obtain ⟨hlen, hzero, hpw⟩ := convertInto_length x8664 kernel h hs hturn.room hturn.run
  obtain ⟨hnle, ⟨new, hcall⟩, hfed⟩ := hok p m rfl
  obtain ⟨d₂, hd₂⟩ : ∃ d₂, ({ d₁ with packed := d₁.packed + p.read, unpacked :=
    d₁.unpacked + m } : BlockDecoder C) = d₂ := ⟨_, rfl⟩
  have hlimits : d₂.limits = d.limits := by rw [← hd₂, hd₁, hd']
  have hunpacked : d₂.unpacked = d.unpacked + m := by rw [← hd₂, hd₁, hd']
  have hpacked : d₂.packed = d.packed + p.read := by rw [← hd₂, hd₁, hd']
  have hpend : d₂.pendingPos = d₂.pendingLen := by rw [← hd₂, hd₁, hd']; exact hp
  have hfin₂ : d₂.finished = false := by rw [← hd₂, hd₁, hd']; exact hf
  have hl₂ : d₂.lzma2 = d'.lzma2 := by rw [← hd₂, hd₁]
  have hc₂ : d₂.converters = d'.converters := by rw [← hd₂, hd₁]
  have hpl₂ : d₂.pendingLen ≤ d₂.pending.length := by
    rw [← hd₂, hd₁, hd']
    exact h.pending.2.trans hpl
  have hcap : d₂.cap = d.cap := by rw [cap, cap, hlimits]
  obtain ⟨finished, hnote, hfin⟩ := d₂.note_spec p.status
  obtain ⟨d₃, hd₃⟩ : ∃ d₃, (d₂.note p.status).1 = d₃ := ⟨_, rfl⟩
  have h₃ : d₃ = { d₂ with finished } := hd₃.symm.trans hnote
  have hsound : d₃.Sound := by
    rw [h₃]
    refine ⟨hl₂ ▸ hl', hl₂ ▸ hdict', ?_, hpend.le, hpl₂⟩
    by_cases hm : p.status = .finishedWithMark
    · exact .inl (hfin.2 (.inr hm))
    · obtain ⟨made, data, -, -, hstreams⟩ := hfed hm
      exact .inr ⟨cs, _, _, hc₂ ▸ hstreams⟩
  have hbounded : d₃.Bounded := by
    rw [h₃]
    constructor
    · change d₂.unpacked ≤ d₂.cap
      omega
    · change d₂.pendingLen - d₂.pendingPos ≤ d₂.unpacked
      omega
  have hmade : Made d d₃ m := by
    refine ⟨hsound, hbounded, ?_, ?_, ?_, ?_⟩
    · rw [h₃]
      change d₂.unpacked - (d₂.pendingLen - d₂.pendingPos) =
        d.unpacked - (d.pendingLen - d.pendingPos) + m
      omega
    · rw [h₃]
      change m ≤ d₂.unpacked
      omega
    · rw [h₃]
      exact hlimits
    · rw [h₃]
      exact hpend
  rw [hd₂]
  refine ⟨d₃, _, Prod.ext hd₃ rfl, hmade, ?_⟩
  intro prop xs rest n hinput hstands hfits
  obtain ⟨lz, r, p', m', hres, hl, hlz, hfit'⟩ := hturn.serves h hb hs hrem hinput hstands hfits
  cases hres
  have hpk := hstands.packed
  have hread : p.read ≤ (rest.drop consumed).length := by
    have hle := hfit'.told.read.2
    rw [List.length_take] at hle
    omega
  have hwritten : p.written = r.out.length := hfit'.told.written
  have hmarked : d₃.finished = finished := by rw [h₃]
  refine ⟨note_fits p.status (by rw [hlimits]; exact hfits) fun hm => ?_, ?_, ?_⟩
  · obtain ⟨hall, hrest⟩ := hfit'.mark hm
    have hall := congrArg List.length hall
    have hrest := congrArg List.length hrest
    have hz := hzero hm
    rw [List.length_append] at hall
    rw [List.length_drop] at hrest
    omega
  · rintro ⟨hz, hf₃, hneeds⟩
    rcases hcall.status with ⟨hn, -⟩ | hm | ⟨-, hm, -⟩
    · exact hneeds hn
    · rw [hmarked, hfin.2 (.inr hm)] at hf₃
      cases hf₃
    · rw [if_pos hz] at hm
      cases hm
  · by_cases hm : p.status = .finishedWithMark
    · exact .inl (by rw [hmarked]; exact hfin.2 (.inr hm))
    · refine .inr ?_
      rw [h₃]
      refine ⟨⟨lz ++ r.out, ?_, ?_⟩, ?_, ?_, ?_⟩
      · change Stands2 prop xs (rest.drop (consumed + p.read)) (lz ++ r.out) d₂.lzma2
        rw [hl₂, hl, ← List.drop_drop]
        exact hfit'.stands
      · rw [List.length_append]
        change lz.length + r.out.length = d₂.unpacked + d₂.converters.carriedBytes
        rw [hc₂]
        omega
      · change d₂.lzma2.frame.state ≠ _
        rw [hl₂, hl]
        exact hfit'.goesOn hm
      · change d₂.packed + (rest.drop (consumed + p.read)).length = xs.length
        rw [← List.drop_drop, List.length_drop]
        omega
      · obtain ⟨made', data, -, -, hstreams⟩ := hfed hm
        change d₂.converters.maxCarry < _
        rw [hc₂, hstreams.maxCarry_eq, ← hs.maxCarry_eq]
        exact hstands.carry

end

theorem filterLoop_limits (x8664 kernel : Bool) {fuel consumed : ℕ} (h : d.Sound) (hb : d.Bounded)
    (hp : d.pendingPos = d.pendingLen) (hf : d.finished = false) {t : Decoded C}
    (ht : d.filterLoop x8664 kernel input fuel out consumed = .ok t) :
    Counted d t ∧ ∀ prop xs (rest : List UInt8) n, input = rest.take n →
      Stands prop xs (rest.drop consumed) d → Fits prop d.limits xs → Served prop xs rest t := by
  induction fuel generalizing d consumed out with
  | zero => cases ht
  | succ fuel ih =>
      obtain ⟨cs, fed, made, hs⟩ := h.converters.resolve_left
        (by rw [hf]; exact Bool.false_ne_true)
      obtain ⟨hcarry, -⟩ := hs.held_back
      have hroom := room_of hb.unpacked usizeMax
      obtain ⟨remaining, hrem⟩ : ∃ remaining, min (min (d.cap - d.unpacked) usizeMax) usizeMax =
        remaining := ⟨_, rfl⟩
      rw [hrem] at hroom
      have hbu := hb.unpacked
      have hbp := hb.pending
      by_cases hfit : d.converters.carriedBytes ≤ remaining
      case neg =>
        rw [filterLoop] at ht
        dsimp only at ht
        rw [hroom] at ht
        dsimp only at ht
        rw [if_pos (Nat.lt_of_not_le hfit)] at ht
        cases ht
        refine ⟨⟨rfl, hb, fun read wrote hr => by cases hr⟩, ?_⟩
        intro prop xs rest n hinput hstands hfits
        have hle := hstands.data_le
        have hcap := le_cap hfits
        have hmax := hstands.carry
        omega
      obtain ⟨direct, want, buf, buf', d', d₁, out₁, res, hturn⟩ :=
        filterLoop_turn x8664 kernel h hs hroom hfit input fuel out consumed
      rw [hturn.next] at ht
      cases res with
      | error k =>
          obtain ⟨d'', buf'', res'', hconv, -, -, -, ⟨lzma2, converters, check, hd'⟩, -⟩ :=
            convertInto_spec x8664 kernel h hs (input.drop consumed)
              (if want = 0 then FinishMode.endMark else FinishMode.any) hturn.room
          rw [hturn.run] at hconv
          cases hconv
          obtain ⟨pending, hd₁, -⟩ := hturn.keeps
          cases ht
          subst hd₁ hd'
          refine ⟨⟨rfl, ⟨hbu, hbp⟩, fun read wrote hr => by cases hr⟩, ?_⟩
          intro prop xs rest n hinput hstands hfits
          obtain ⟨lz, r, p, m, hres, -⟩ := hturn.serves h hb hs hrem hinput hstands hfits
          cases hres
      | ok pm =>
          obtain ⟨p, m⟩ := pm
          obtain ⟨d₃, noted, hnote, hmade, hready⟩ := hturn.noted h hb hp hf hs hrem
          have hg₃ := hmade.given
          have hu₃ : d₃.given = d₃.unpacked := by
            have := hmade.pending
            rw [given]
            omega
          unfold settle at ht
          dsimp only at ht
          rw [hnote] at ht
          dsimp only at ht
          cases noted with
          | error k =>
              cases ht
              refine ⟨⟨hmade.limits, hmade.bounded, (fun read wrote hr => by cases hr)⟩, ?_⟩
              intro prop xs rest n hinput hstands hfits
              obtain ⟨hn, -⟩ := hready prop xs rest n hinput hstands hfits
              cases hn
          | ok u =>
              dsimp only at ht
              split at ht
              next hbad =>
                cases ht
                refine ⟨⟨hmade.limits, hmade.bounded, (fun read wrote hr => by cases hr)⟩, ?_⟩
                intro prop xs rest n hinput hstands hfits
                obtain ⟨-, hn, -⟩ := hready prop xs rest n hinput hstands hfits
                exact absurd hbad hn
              · split at ht
                · obtain ⟨pendingLen, pendingPos, k, htd, hpu, hres, hgt⟩ :=
                    deliver_counts hmade.pending hmade.unpacked ht
                  have hb₃ := hmade.bounded.unpacked
                  refine ⟨⟨?_, ?_, fun read wrote hr => ?_⟩, ?_⟩
                  · rw [htd]
                    exact hmade.limits
                  · rw [htd]
                    exact ⟨hb₃, hpu⟩
                  · rw [hres] at hr
                    cases hr
                    omega
                  · intro prop xs rest n hinput hstands hfits
                    obtain ⟨-, -, hst⟩ := hready prop xs rest n hinput hstands hfits
                    refine ⟨consumed + p.read, k, hres, ?_⟩
                    rw [htd]
                    exact hst.imp id fun hst => ⟨hst.data, hst.opened, hst.packed, hst.carry⟩
                next hstay =>
                  obtain ⟨hm, hnot⟩ := not_or.1 hstay
                  have hm : m = 0 := not_not.1 hm
                  split at ht
                  · cases ht
                    refine ⟨⟨hmade.limits, hmade.bounded, fun read wrote hr => ?_⟩, ?_⟩
                    · cases hr
                      change d₃.given = d.given + 0
                      omega
                    · intro prop xs rest n hinput hstands hfits
                      obtain ⟨-, -, hst⟩ := hready prop xs rest n hinput hstands hfits
                      exact ⟨consumed + p.read, 0, rfl, hst⟩
                  · obtain ⟨hcount, hserved⟩ := ih hmade.sound hmade.bounded hmade.pending
                      (Bool.not_eq_true _ ▸ hnot) ht
                    refine ⟨⟨hcount.limits.trans hmade.limits, hcount.bounded,
                      fun read wrote hr => ?_⟩, ?_⟩
                    · have hgt := hcount.given read wrote hr
                      omega
                    · intro prop xs rest n hinput hstands hfits
                      obtain ⟨-, -, hst⟩ := hready prop xs rest n hinput hstands hfits
                      exact hserved prop xs rest n hinput (hst.resolve_left hnot)
                        (by rw [hmade.limits]; exact hfits)

/-- What a call comes to: its bytes are counted, and a block that keeps within its limits is not
refused. -/
structure Decides (d : BlockDecoder C) (input : List UInt8) (t : Decoded C) : Prop
    extends Counted d t where
  served : ∀ prop xs (rest : List UInt8) n, input = rest.take n → input ≠ [] →
    d.finished = false → Stands prop xs rest d → Fits prop d.limits xs → Served prop xs rest t
  closed : d.finished = true → t.d.finished = true ∧ ∃ read wrote, t.res = .ok (read, wrote)

theorem decode_limits (x8664 kernel : Bool) (h : d.Sound) (hb : d.Bounded) (hne : out ≠ [])
    {t : Decoded C} (ht : d.decode x8664 kernel input out = .ok t) : Decides d input t := by
  have hbu := hb.unpacked
  have hbp := hb.pending
  unfold decode at ht
  split at ht
  next hlt =>
    obtain ⟨made, -, ht⟩ := bind_eq_ok ht
    obtain ⟨out₁, -, ht⟩ := bind_eq_ok ht
    obtain ⟨pendingLen, pendingPos, hpair, hleft⟩ : ∃ pendingLen pendingPos,
        (if d.pendingPos + min (d.pendingLen - d.pendingPos) out.length = d.pendingLen then (0, 0)
          else (d.pendingLen, d.pendingPos + min (d.pendingLen - d.pendingPos) out.length)) =
            (pendingLen, pendingPos) ∧ pendingLen - pendingPos +
              min (d.pendingLen - d.pendingPos) out.length = d.pendingLen - d.pendingPos := by
      split
      · exact ⟨_, _, rfl, by omega⟩
      · exact ⟨_, _, rfl, by omega⟩
    rw [hpair] at ht
    cases ht
    refine ⟨⟨rfl, ⟨hbu, ?_⟩, fun read wrote hr => ?_⟩, ?_, fun hf => ⟨hf, _, _, rfl⟩⟩
    · change pendingLen - pendingPos ≤ d.unpacked
      omega
    · cases hr
      change d.unpacked - (pendingLen - pendingPos) = d.given + _
      rw [given]
      omega
    · intro prop xs rest n hinput hin hf hst hfits
      exact ⟨_, _, rfl, .inr ⟨hst.data, hst.opened, hst.packed, hst.carry⟩⟩
  next hge =>
    have hp : d.pendingPos = d.pendingLen := by
      have := h.pending.1
      omega
    split at ht
    next hstop =>
      cases ht
      refine ⟨⟨rfl, hb, fun read wrote hr => ?_⟩, ?_, fun hf => ⟨hf, _, _, rfl⟩⟩
      · cases hr
        rfl
      · intro prop xs rest n hinput hin hf hst hfits
        exact ⟨0, 0, rfl, .inr hst⟩
    next hgo =>
      obtain ⟨hf, -⟩ := not_or.1 hgo
      split at ht
      next hover =>
        cases ht
        refine ⟨⟨rfl, hb, fun read wrote hr => by cases hr⟩, ?_, fun hf' => absurd hf' hf⟩
        intro prop xs rest n hinput hin _ hst hfits
        obtain ⟨lz, hlz, -⟩ := hst.data
        have hunread := hlz.unread h.dict hfits.mark hst.opened
        have hall := hst.packed
        cases hc : d.limits.compressedSize with
        | none =>
            rw [hc] at hover
            cases hover
        | some c =>
            have hpacked := hfits.packed c hc
            rw [hc, Option.any_some, decide_eq_true_eq] at hover
            omega
      next hroom =>
        dsimp only at ht
        have hoffer : ∀ (rest : List UInt8) n, input = rest.take n → input ≠ [] →
            d.offered input ≠ [] ∧ ∃ k, d.offered input = rest.take k := by
          intro rest n hinput hin
          unfold offered
          split
          next c hc =>
            rw [hc] at hroom
            have hlt : d.packed < c := by
              rw [Option.any_some, decide_eq_true_eq] at hroom
              omega
            refine ⟨fun hnil => ?_, min (c - d.packed) n, by rw [hinput, List.take_take]⟩
            rcases List.take_eq_nil_iff.1 hnil with hz | hz
            · omega
            · exact hin hz
          next => exact ⟨hin, n, hinput⟩
        split at ht
        next hstages =>
          obtain ⟨hcount, hserved⟩ := decodePlain_limits h hb hp hne ht
          refine ⟨hcount, ?_, fun hf' => absurd hf' hf⟩
          intro prop xs rest n hinput hin _ hst hfits
          obtain ⟨hsome, k, hk⟩ := hoffer rest n hinput hin
          exact hserved prop xs rest k hk hsome hstages hst hfits
        next =>
          obtain ⟨hcount, hserved⟩ := filterLoop_limits x8664 kernel h hb hp
            (Bool.not_eq_true _ ▸ hf) ht
          refine ⟨hcount, ?_, fun hf' => absurd hf' hf⟩
          intro prop xs rest n hinput hin _ hst hfits
          obtain ⟨-, k, hk⟩ := hoffer rest n hinput hin
          exact hserved prop xs rest k hk hst hfits

end BlockDecoder
end LzmaTurbo.Xz
