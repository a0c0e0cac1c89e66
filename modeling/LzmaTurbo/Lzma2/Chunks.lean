import LzmaTurbo.Lzma2.Headers
import LzmaTurbo.Lzma2.Scan

/-!
# Chunks as the scanner sees them

The fields of a chunk's header give its sizes. The scanner reads no more than
those, and the grammar opens a chunk of the same sizes.
-/
namespace LzmaTurbo.Lzma2
open Machine Lzma StreamMachine

/-- A property byte a chunk may bring. -/
def PropByte (d : UInt8) : Prop := d.toNat < 225 ∧ d.toNat % 9 + d.toNat / 9 % 5 ≤ 4

/-- The header of a chunk: its control byte, its payload's length and its output's. -/
inductive Header : List UInt8 → UInt8 → ℕ → ℕ → Prop
  | stored {b : UInt8} (u1 u0 : UInt8) : b = 1 ∨ b = 2 →
      Header [b, u1, u0] b (be16 u1 u0 + 1) (be16 u1 u0 + 1)
  | packed {b : UInt8} (u1 u0 p1 p0 : UInt8) : ¬ b < 0x80 → b < 0xC0 →
      Header [b, u1, u0, p1, p0] b (be16 p1 p0 + 1) (unpackOf b u1 u0)
  | props {b d : UInt8} (u1 u0 p1 p0 : UInt8) : ¬ b < 0xC0 → PropByte d →
      Header [b, u1, u0, p1, p0, d] b (be16 p1 p0 + 1) (unpackOf b u1 u0)

/-- The chunks a piece of a stream is made of, counted and sized. -/
inductive Chunks : List UInt8 → Lzma2RunChunks → Prop
  | nil : Chunks [] .default
  | chunk {xs us body : List UInt8} {c : Lzma2RunChunks} {b : UInt8} {payload unpacked : ℕ} :
      Chunks xs c → Header us b payload unpacked → body.length = payload →
      Chunks (xs ++ us ++ body) (c.add b.toNat us.length payload unpacked)

def Lzma2RunChunks.packed (c : Lzma2RunChunks) : ℕ := c.lzmaPacked + c.copyPacked

def Lzma2RunChunks.unpacked (c : Lzma2RunChunks) : ℕ := c.lzmaUnpacked + c.copyUnpacked

theorem Lzma2RunChunks.add_packed (c : Lzma2RunChunks) (control headerLen payloadLen n : ℕ) :
    (c.add control headerLen payloadLen n).packed = c.packed + (headerLen + payloadLen) := by
  unfold Lzma2RunChunks.add Lzma2RunChunks.packed
  split <;> simp only <;> omega

theorem Lzma2RunChunks.add_unpacked (c : Lzma2RunChunks) (control headerLen payloadLen n : ℕ) :
    (c.add control headerLen payloadLen n).unpacked = c.unpacked + n := by
  unfold Lzma2RunChunks.add Lzma2RunChunks.unpacked
  split <;> simp only <;> omega

/-- Every byte of the piece is counted in one kind. -/
theorem Chunks.packed {xs : List UInt8} {c : Lzma2RunChunks} (h : Chunks xs c) :
    c.packed = xs.length := by
  induction h with
  | nil => rfl
  | chunk _ _ hb ih =>
      rw [Lzma2RunChunks.add_packed, ih, List.length_append, List.length_append, hb, Nat.add_assoc]

/-- The control bytes that may come when a packed chunk needs at least `need`. -/
def Allowed (need : ℕ) (b : UInt8) : Prop :=
  b = 1 ∨ b = 2 ∧ need ≠ 0xE0 ∨ ¬ b < 0x80 ∧ need ≤ b.toNat

/-- What a packed chunk needs after a chunk with control byte `b`. -/
def nextNeed (need : ℕ) (b : UInt8) : ℕ :=
  if b = 1 then 0xC0 else if b < 0x80 then need else 0

def Pos.need : Pos → ℕ
  | .chunk r => r.need
  | .stored r _ => r.need
  | .packed .. => 0

/-- The payload bytes still to come. -/
def Pos.payload : Pos → ℕ
  | .chunk _ => 0
  | .stored _ n => max n 1
  | .packed _ _ _ _ pack => pack

section
variable {r : Ref2} {pos pos' : Pos} {us xs ys : List UInt8} {b : UInt8} {payload unpacked : ℕ}

theorem props_ext {p q : LzmaProps} (hlc : p.lc = q.lc) (hlp : p.lp = q.lp) (hpb : p.pb = q.pb)
    (hdict : p.dictSize = q.dictSize) : p = q := by
  cases p
  cases q
  simp_all

theorem PropByte.of_chunkProps {d : UInt8} {prop q : LzmaProps}
    (h : chunkProps d.toNat prop = some q) : PropByte d := by
  unfold chunkProps at h
  split at h
  · cases h
  · split at h
    · cases h
    · exact ⟨by omega, by omega⟩

/-- The properties a byte brings depend on nothing before but the dictionary's size. -/
theorem PropByte.chunkProps {d : UInt8} (h : PropByte d) (prop : LzmaProps) :
    ∃ q, chunkProps d.toNat prop = some q ∧ q.dictSize = prop.dictSize ∧
      ∀ prop' : LzmaProps, prop'.dictSize = prop.dictSize →
        Lzma2.chunkProps d.toNat prop' = some q := by
  obtain ⟨h1, h2⟩ := h
  have hq : ∀ p : LzmaProps, ∃ q, Lzma2.chunkProps d.toNat p = some q ∧ q.lc = d.toNat % 9 ∧
      q.lp = d.toNat / 9 % 5 ∧ q.pb = d.toNat / 45 ∧ q.dictSize = p.dictSize := by
    intro p
    unfold Lzma2.chunkProps
    rw [dif_neg (by omega), if_neg (by omega)]
    exact ⟨_, rfl, rfl, rfl, rfl, rfl⟩
  obtain ⟨q, hs, hlc, hlp, hpb, hdict⟩ := hq prop
  refine ⟨q, hs, hdict, fun prop' hd => ?_⟩
  obtain ⟨q', hs', hlc', hlp', hpb', hdict'⟩ := hq prop'
  rw [hs', props_ext (hlc'.trans hlc.symm) (hlp'.trans hlp.symm) (hpb'.trans hpb.symm)
    (hdict'.trans (hd.trans hdict.symm))]

theorem Ref2.openStored_sizes (hb : b = 1 ∨ b = 2) {size : ℕ} (hs : 0 < size) :
    (r.openStored b.toNat size).payload = size ∧
      (r.openStored b.toNat size).due = (Pos.chunk r).due + size ∧
      (r.openStored b.toNat size).need = nextNeed r.need b := by
  rcases hb with rfl | rfl
  · have h1 : (1 : UInt8).toNat = 1 := rfl
    simp only [Ref2.openStored, h1, if_true, Pos.payload, Pos.due, Pos.need, nextNeed,
      Ref2.resetDic, List.length_nil, List.length_append]
    exact ⟨by omega, by omega, trivial⟩
  · have h2 : (2 : UInt8).toNat = 2 := rfl
    have hlt : (2 : UInt8) < 0x80 := by decide
    have hne : ¬ (2 : UInt8) = 1 := by decide
    simp only [Ref2.openStored, h2, Pos.payload, Pos.due, Pos.need, nextNeed,
      OfNat.ofNat_ne_one, if_false, if_neg hne, if_pos hlt]
    exact ⟨by omega, by omega, trivial⟩

theorem Ref2.openPacked_sizes (prop : LzmaProps) (hb : ¬ b < 0x80) (unpack pack : ℕ) :
    (({ r with prop } : Ref2).openPacked b.toNat unpack pack).payload = pack ∧
      (({ r with prop } : Ref2).openPacked b.toNat unpack pack).due =
        (Pos.chunk r).due + unpack ∧
      (({ r with prop } : Ref2).openPacked b.toNat unpack pack).need = nextNeed r.need b := by
  have h1 : ¬ b = 1 := by
    rintro rfl
    exact hb (by decide)
  refine ⟨rfl, ?_, by simp only [nextNeed, if_neg h1, if_neg hb, Ref2.openPacked, Pos.need]⟩
  unfold Ref2.openPacked
  by_cases hd : 0xE0 ≤ b.toNat
  · simp only [if_pos hd, if_pos (show 0xA0 ≤ b.toNat by omega), Ref2.resetDic, Pos.due,
      freshState, List.length_nil, List.length_append]
    omega
  · by_cases hs : 0xA0 ≤ b.toNat
    · simp only [if_neg hd, if_pos hs, Pos.due, freshState]
      omega
    · simp only [if_neg hd, if_neg hs, Pos.due]
      omega

/-- A header the grammar takes, and what it opens. -/
theorem chunkStep_header (h : chunkStep r xs = .next pos ys) :
    ∃ us b payload unpacked, xs = us ++ ys ∧ Header us b payload unpacked ∧ Allowed r.need b ∧
      pos.payload = payload ∧ pos.due = (Pos.chunk r).due + unpacked ∧
      pos.need = nextNeed r.need b := by
  obtain ⟨b, u1, u0, rfl, hb, rfl⟩ | ⟨b, u1, u0, p1, p0, rfl, h1, hn, h2, rfl⟩ |
    ⟨b, u1, u0, p1, p0, d, prop, rfl, h1, hn, h2, hd, rfl⟩ := chunkStep_cases h
  · have hb' : b = 1 ∨ b = 2 := hb.imp_right And.left
    obtain ⟨hp, hdue, hneed⟩ := Ref2.openStored_sizes (r := r) hb' (Nat.succ_pos (be16 u1 u0))
    exact ⟨[b, u1, u0], b, _, _, rfl, .stored u1 u0 hb', hb.imp_right .inl, hp, hdue, hneed⟩
  · obtain ⟨hp, hdue, hneed⟩ := Ref2.openPacked_sizes (r := r) r.prop h1
      (b.toNat % 32 * 2 ^ 16 + be16 u1 u0 + 1) (be16 p1 p0 + 1)
    exact ⟨[b, u1, u0, p1, p0], b, _, _, rfl, .packed u1 u0 p1 p0 h1 h2,
      .inr (.inr ⟨h1, not_lt.mp hn⟩), hp, hdue, hneed⟩
  · obtain ⟨hp, hdue, hneed⟩ := Ref2.openPacked_sizes (r := r) prop h1
      (b.toNat % 32 * 2 ^ 16 + be16 u1 u0 + 1) (be16 p1 p0 + 1)
    exact ⟨[b, u1, u0, p1, p0, d], b, _, _, rfl, .props u1 u0 p1 p0 h2 (.of_chunkProps hd),
      .inr (.inr ⟨h1, not_lt.mp hn⟩), hp, hdue, hneed⟩

end

/-! ## A header through the state machine -/

section
variable {f f' : Lzma2Frame} {p p' : LzmaProps} {us : List UInt8} {b : UInt8}
  {payload unpacked : ℕ}

/-- The bytes of a header take the frame from one state to the opened chunk. -/
inductive HeaderPath : Lzma2Frame → LzmaProps → List UInt8 → Lzma2Frame → LzmaProps → Prop
  | last {f f' : Lzma2Frame} {p p' : LzmaProps} {b : UInt8} :
      f.updateState b.toNat p = (f', p') → f'.state = .data → HeaderPath f p [b] f' p'
  | byte {f f₁ f' : Lzma2Frame} {p p₁ p' : LzmaProps} {b : UInt8} {us : List UInt8} :
      f.updateState b.toNat p = (f₁, p₁) → f₁.state ≠ .control → f₁.state ≠ .error →
      f₁.state ≠ .data → HeaderPath f₁ p₁ us f' p' → HeaderPath f p (b :: us) f' p'

theorem updateState_stored (hs : f.state = .control) (hb : b = 1 ∨ b = 2 ∧ f.needInitLevel ≠ 0xE0)
    (p : LzmaProps) : f.updateState b.toNat p = ({ f with
      state := .unpack0, isExtraMode := false, control := b.toNat
      needInitLevel := nextNeed f.needInitLevel b }, p) := by
  rcases hb with rfl | ⟨rfl, hn⟩
  · have h1 : (1 : UInt8).toNat = 1 := rfl
    have hu : isUncompressedState 1 = true := rfl
    simp only [Lzma2Frame.updateState, hs, h1, hu, if_true, nextNeed, one_ne_zero, if_false]
  · have h2 : (2 : UInt8).toNat = 2 := rfl
    have hu : isUncompressedState 2 = true := rfl
    have hbad : ¬ (2 < 2 ∨ f.needInitLevel = 0xE0) := by omega
    have hne : ¬ (2 : UInt8) = 1 := by decide
    have hlt : (2 : UInt8) < 0x80 := by decide
    simp only [Lzma2Frame.updateState, hs, h2, hu, if_true, nextNeed, OfNat.ofNat_ne_zero,
      OfNat.ofNat_ne_one, if_false, if_neg hbad, if_neg hne, if_pos hlt]

theorem updateState_packed (hs : f.state = .control) (hb : ¬ b < 0x80)
    (hn : f.needInitLevel ≤ b.toNat) (p : LzmaProps) :
    f.updateState b.toNat p = ({ f with
      state := .unpack0, isExtraMode := false, control := b.toNat
      needInitLevel := nextNeed f.needInitLevel b, unpackSize := b.toNat % 32 * 2 ^ 16 }, p) := by
  have h0 : ¬ b.toNat = 0 := fun h => hb (by
    rw [UInt8.toNat_inj.mp (h.trans rfl : b.toNat = (0 : UInt8).toNat)]
    decide)
  have h1 : ¬ b = 1 := by
    rintro rfl
    exact hb (by decide)
  simp only [Lzma2Frame.updateState, hs, if_neg h0, isUncompressedState_eq, decide_eq_false hb,
    Bool.false_eq_true, if_false, if_neg (not_lt.mpr hn), and_low, Nat.shiftLeft_eq, nextNeed,
    if_neg h1, if_neg hb]

theorem updateState_unpack0 {n : ℕ} (hs : f.state = .unpack0) (hu : f.unpackSize = n * 2 ^ 16)
    (b : UInt8) (p : LzmaProps) : f.updateState b.toNat p = ({ f with
      state := .unpack1, unpackSize := (n * 2 ^ 8 + b.toNat) * 2 ^ 8 }, p) := by
  simp only [Lzma2Frame.updateState, hs, hu, or_high]

theorem updateState_unpack1 {n : ℕ} (hs : f.state = .unpack1) (hu : f.unpackSize = n * 2 ^ 8)
    (b : UInt8) (p : LzmaProps) : f.updateState b.toNat p = ({ f with
      state := if isUncompressedState f.control then .data else .pack0
      unpackSize := n * 2 ^ 8 + b.toNat + 1 }, p) := by
  simp only [Lzma2Frame.updateState, hs, hu, or_byte]

theorem updateState_pack0 (hs : f.state = .pack0) (b : UInt8) (p : LzmaProps) :
    f.updateState b.toNat p = ({ f with
      state := .pack1, packSize := b.toNat * 2 ^ 8 }, p) := by
  simp only [Lzma2Frame.updateState, hs, Nat.shiftLeft_eq]

theorem updateState_pack1 {n : ℕ} (hs : f.state = .pack1) (hu : f.packSize = n * 2 ^ 8)
    (b : UInt8) (p : LzmaProps) : f.updateState b.toNat p = ({ f with
      state := if f.control &&& 0x40 ≠ 0 then .prop else .data
      packSize := n * 2 ^ 8 + b.toNat + 1 }, p) := by
  simp only [Lzma2Frame.updateState, hs, hu, or_byte]

theorem updateState_prop {d : UInt8} (hs : f.state = .prop) (hd : PropByte d) (p : LzmaProps) :
    ∃ q, f.updateState d.toNat p = ({ f with state := .data }, q) := by
  obtain ⟨q, hq, -⟩ := hd.chunkProps p
  exact ⟨q, by simp only [Lzma2Frame.updateState, hs, propByte_eq, hq]⟩

theorem Allowed.need_le {need : ℕ} (h : Allowed need b) (hb : ¬ b < 0x80) : need ≤ b.toNat := by
  rcases h with rfl | ⟨rfl, -⟩ | ⟨-, hn⟩
  · exact absurd (by decide) hb
  · exact absurd (by decide) hb
  · exact hn

/-- What the frame holds of a header that is complete. -/
structure HeaderRead (f f' : Lzma2Frame) (us : List UInt8) (b : UInt8) (payload unpacked : ℕ) :
    Prop where
  control : f'.control = b.toNat
  need : f'.needInitLevel = nextNeed f.needInitLevel b
  unpackSize : f'.unpackSize = unpacked
  sizes : (if isUncompressedState b.toNat then (3, unpacked)
    else (5 + (if b.toNat &&& 0x40 ≠ 0 then 1 else 0), f'.packSize)) = (us.length, payload)

/-- The first four bytes of a packed chunk's header. -/
theorem HeaderPath.packed (hs : f.state = .control) (hb : ¬ b < 0x80)
    (hn : f.needInitLevel ≤ b.toNat) (u1 u0 p1 : UInt8) (p : LzmaProps) :
    ∃ f₁, f₁.state = .pack1 ∧ f₁.control = b.toNat ∧
      f₁.needInitLevel = nextNeed f.needInitLevel b ∧ f₁.unpackSize = unpackOf b u1 u0 ∧
      f₁.packSize = p1.toNat * 2 ^ 8 ∧
      ∀ {us f' p'}, HeaderPath f₁ p us f' p' → HeaderPath f p (b :: u1 :: u0 :: p1 :: us) f' p' := by
  have hun : isUncompressedState b.toNat = false := by
    rw [isUncompressedState_eq, decide_eq_false hb]
  refine ⟨_, rfl, rfl, rfl, ?_, rfl, fun h => .byte (updateState_packed hs hb hn p)
    (by simp) (by simp) (by simp) (.byte (updateState_unpack0 (n := b.toNat % 32) rfl rfl u1 p)
      (by simp) (by simp) (by simp) (.byte (updateState_unpack1 (n := b.toNat % 32 * 2 ^ 8 + u1.toNat)
        rfl rfl u0 p) ?_ ?_ ?_ (.byte (updateState_pack0 ?_ p1 p)
          (by simp) (by simp) (by simp) h)))⟩
  · simp only [unpackOf, be16]
    omega
  · simp only [hun, Bool.false_eq_true, if_false]
    decide
  · simp only [hun, Bool.false_eq_true, if_false]
    decide
  · simp only [hun, Bool.false_eq_true, if_false]
    decide
  · simp only [hun, Bool.false_eq_true, if_false]

theorem Header.path (h : Header us b payload unpacked) (hs : f.state = .control)
    (hu : f.unpackSize = 0) (hb : Allowed f.needInitLevel b) (p : LzmaProps) :
    ∃ f' p', HeaderPath f p us f' p' ∧ HeaderRead f f' us b payload unpacked := by
  cases h with
  | stored u1 u0 hkind =>
      have hlt : b < 0x80 := by rcases hkind with rfl | rfl <;> decide
      have hun : isUncompressedState b.toNat = true := by
        rw [isUncompressedState_eq, decide_eq_true hlt]
      have hctl : b = 1 ∨ b = 2 ∧ f.needInitLevel ≠ 0xE0 := by
        rcases hb with hb | hb | ⟨hb, -⟩
        · exact .inl hb
        · exact .inr hb
        · exact absurd hlt hb
      refine ⟨_, _, .byte (updateState_stored hs hctl p) (by simp) (by simp) (by simp)
        (.byte (updateState_unpack0 (n := 0) rfl (by simpa using hu) u1 p)
          (by simp) (by simp) (by simp)
          (.last (updateState_unpack1 rfl rfl u0 p) (by simp only [hun, if_true]))),
        rfl, rfl, ?_, ?_⟩
      · simp only [be16]
        omega
      · simp only [hun, if_true]
        rfl
  | packed u1 u0 p1 p0 h80 hC0 =>
      have hn := hb.need_le h80
      have hun : isUncompressedState b.toNat = false := by
        rw [isUncompressedState_eq, decide_eq_false h80]
      have hprops : ¬ (b.toNat &&& 0x40 ≠ 0) := fun h => (hasProps_iff h80).mp h hC0
      obtain ⟨f₁, hs₁, hc₁, hn₁, hu₁, hp₁, hpath⟩ := HeaderPath.packed hs h80 hn u1 u0 p1 p
      refine ⟨_, _, hpath (.last (updateState_pack1 hs₁ hp₁ p0 p) ?_), hc₁, hn₁, hu₁, ?_⟩
      · rw [hc₁, if_neg hprops]
      · simp only [hun, Bool.false_eq_true, if_false, if_neg hprops, be16]
        rfl
  | props u1 u0 p1 p0 hC0 hd =>
      have hle : (0x80 : UInt8) < 0xC0 := by decide
      have h80 : ¬ b < 0x80 := fun h => hC0 (UInt8.lt_trans h hle)
      have hn := hb.need_le h80
      have hun : isUncompressedState b.toNat = false := by
        rw [isUncompressedState_eq, decide_eq_false h80]
      have hprops : b.toNat &&& 0x40 ≠ 0 := (hasProps_iff h80).mpr hC0
      obtain ⟨f₁, hs₁, hc₁, hn₁, hu₁, hp₁, hpath⟩ := HeaderPath.packed hs h80 hn u1 u0 p1 p
      have hstate : (if f₁.control &&& 0x40 ≠ 0 then Lzma2State.prop else .data) = .prop := by
        rw [hc₁, if_pos hprops]
      obtain ⟨q, hq⟩ := updateState_prop (f := { f₁ with
        state := if f₁.control &&& 0x40 ≠ 0 then .prop else .data
        packSize := p1.toNat * 2 ^ 8 + p0.toNat + 1 }) hstate hd p
      refine ⟨_, _, hpath (.byte (updateState_pack1 hs₁ hp₁ p0 p) ?_ ?_ ?_ (.last hq rfl)), hc₁, hn₁,
        hu₁, ?_⟩
      · rw [hstate]
        simp
      · rw [hstate]
        simp
      · rw [hstate]
        simp
      · simp only [hun, Bool.false_eq_true, if_false, if_pos hprops, be16]
        rfl

end

/-! ## A chunk through the scanner -/

section
variable {s : Lzma2RunScanner} {us : List UInt8} {b : UInt8} {payload unpacked : ℕ}

/-- The scanner between two chunks, or in a payload it has still to pass over. -/
structure Lzma2RunScanner.Between (s : Lzma2RunScanner) : Prop where
  state : s.frame.state = .control
  unpack : s.frame.unpackSize = 0
  goes : s.finished = false
  sound : s.failed = false

/-- The bytes of a header through the state machine, whatever the scanner makes of the first. -/
theorem Lzma2RunScanner.scan_path {f' : Lzma2Frame} {p' : LzmaProps}
    (h : HeaderPath s.frame s.prop (b :: us) f' p') (hd : s.dataRemaining = 0)
    (hf : s.finished = false) (he : s.failed = false) : (s.update b.toNat).scanner.scan us =
      ({ s with frame := f', prop := p', inPos := s.inPos + (us.length + 1) } :
        Lzma2RunScanner).onData := by
  induction us generalizing s b with
  | nil =>
      cases h with
      | last hu hst =>
          simp only [Lzma2RunScanner.update, hu, hst]
          rfl
      | byte _ _ _ _ hrest => cases hrest
  | cons b₁ us ih =>
      cases h with
      | @byte _ f₁ _ _ p₁ _ _ _ hu h1 h2 h3 hrest =>
          have hone : (s.update b.toNat).scanner =
              { s with frame := f₁, prop := p₁, inPos := s.inPos + 1 } := by
            simp only [Lzma2RunScanner.update, hu]
            cases hst : f₁.state with
            | control => exact absurd hst h1
            | error => exact absurd hst h2
            | data => exact absurd hst h3
            | _ => rfl
          have hnext : ({ s with frame := f₁, prop := p₁, inPos := s.inPos + 1 } :
              Lzma2RunScanner).next b₁ = (({ s with
                frame := f₁, prop := p₁, inPos := s.inPos + 1 } : Lzma2RunScanner).update
                  b₁.toNat).scanner := by
            rw [Lzma2RunScanner.next, if_neg (by simp [hf, he]), if_neg (by simp [hd]),
              Lzma2RunScanner.header, if_neg h1]
            rfl
          rw [hone, Lzma2RunScanner.scan_cons, hnext,
            ih (s := { s with frame := f₁, prop := p₁, inPos := s.inPos + 1 }) hrest hd hf he]
          simp only [List.length_cons, Nat.add_assoc, Nat.add_comm 1]

/-- The control byte of a chunk leaves the frame as it is. -/
theorem Lzma2RunScanner.onControl_eq (s : Lzma2RunScanner) (hb : b ≠ 0) :
    (s.onControl b.toNat).1 = true ∧ (s.onControl b.toNat).2 = { s with
      current := (s.onControl b.toNat).2.current, ready := (s.onControl b.toNat).2.ready } := by
  have h0 : ¬ b.toNat = 0 := fun h => hb (UInt8.toNat_inj.mp (h.trans rfl))
  have hclose : s.closeRun = { s with current := s.closeRun.current, ready := s.closeRun.ready } := by
    cases hc : s.current with
    | none =>
        simp only [Lzma2RunScanner.closeRun, hc]
        rw [← hc]
    | some o => simp only [Lzma2RunScanner.closeRun, hc]
  simp only [Lzma2RunScanner.onControl, if_neg h0]
  generalize hs' : (if decide (b.toNat = 0 ∨ 0xE0 ≤ b.toNat ∨
    b.toNat = lzma2ControlCopyResetDic) = true then s.closeRun else s) = s'
  have hsame : s' = { s with current := s'.current, ready := s'.ready } := by
    rw [← hs']
    split
    · exact hclose
    · rfl
  refine ⟨trivial, ?_⟩
  cases hc : s'.current with
  | some o =>
      rw [hc] at hsame
      rw [hc]
      exact hsame
  | none =>
      rw [hsame]

/-- A whole header: the state machine is between two chunks again, the payload to be passed. -/
theorem Header.scan (h : Header us b payload unpacked) (hs : s.Between) (hd : s.dataRemaining = 0)
    (hb : Allowed s.frame.needInitLevel b) :
    ∃ frame prop, frame.state = .control ∧ frame.unpackSize = 0 ∧
      frame.needInitLevel = nextNeed s.frame.needInitLevel b ∧
      s.scan us = { s with
        frame, prop, inPos := s.inPos + us.length, outPos := s.outPos + unpacked
        dataRemaining := payload, ready := (s.onControl b.toNat).2.ready
        current := (s.onControl b.toNat).2.current.map fun o =>
          { o with chunks := o.chunks.add b.toNat us.length payload unpacked } } := by
  obtain ⟨f', p', hpath, hread⟩ := h.path hs.state hs.unpack hb s.prop
  have hb0 : b ≠ 0 := by
    rcases hb with rfl | ⟨rfl, -⟩ | ⟨hb, -⟩
    · decide
    · decide
    · rintro rfl
      exact hb (by decide)
  obtain ⟨hgo, hon⟩ := s.onControl_eq hb0
  have hscan : s.scan us = ({ (s.onControl b.toNat).2 with
      frame := f', prop := p', inPos := s.inPos + us.length } : Lzma2RunScanner).onData := by
    obtain ⟨us', rfl⟩ : ∃ us', us = b :: us' := by
      cases h <;> exact ⟨_, rfl⟩
    have hnext : s.next b = ((s.onControl b.toNat).2.update b.toNat).scanner := by
      rw [Lzma2RunScanner.next, if_neg (by simp [hs.goes, hs.sound]), if_neg (by simp [hd]),
        Lzma2RunScanner.header, if_pos hs.state]
      simp only [hgo, if_true]
    have hframe : (s.onControl b.toNat).2.frame = s.frame := by rw [hon]
    have hprop : (s.onControl b.toNat).2.prop = s.prop := by rw [hon]
    have hpos : (s.onControl b.toNat).2.inPos = s.inPos := by rw [hon]
    rw [Lzma2RunScanner.scan_cons, hnext, Lzma2RunScanner.scan_path (by rwa [hframe, hprop])
      (by rw [hon]; exact hd) (by rw [hon]; exact hs.goes) (by rw [hon]; exact hs.sound),
      hpos, List.length_cons]
  refine ⟨{ f' with unpackSize := 0, state := .control }, p', rfl, rfl, hread.need, ?_⟩
  rw [hscan, Lzma2RunScanner.onData]
  simp only [hread.control, hread.sizes, hread.unpackSize]
  rw [hon]

end

end LzmaTurbo.Lzma2
