import LzmaTurbo.Lzma2.Frame
import LzmaTurbo.Lzma2.FormatRuns

/-!
# Chunk headers a byte at a time

The frame's fields after each byte of a header are those of the bytes read so
far; the last byte of a header opens the chunk the grammar opens.
-/
namespace LzmaTurbo.Lzma2
open Machine Lzma StreamMachine

theorem be16_lt (hi lo : UInt8) : be16 hi lo < 2 ^ 16 := by
  have h1 := hi.toNat_lt
  have h2 := lo.toNat_lt
  unfold be16
  omega

theorem or_byte (a : ℕ) (b : UInt8) : (a * 2 ^ 8) ||| b.toNat = a * 2 ^ 8 + b.toNat := by
  rw [← Nat.shiftLeft_eq, Nat.shiftLeft_add_eq_or_of_lt b.toNat_lt]

theorem or_high (a : ℕ) (b : UInt8) :
    (a * 2 ^ 16) ||| (b.toNat <<< 8) = (a * 2 ^ 8 + b.toNat) * 2 ^ 8 := by
  have hb := b.toNat_lt
  rw [← Nat.shiftLeft_eq a, ← Nat.shiftLeft_add_eq_or_of_lt (show b.toNat <<< 8 < 2 ^ 16 by
    rw [Nat.shiftLeft_eq]; omega), Nat.shiftLeft_eq, Nat.shiftLeft_eq]
  omega

theorem and_low (n : ℕ) : n &&& 0x1F = n % 32 := Nat.and_two_pow_sub_one_eq_mod n 5

theorem isUncompressedState_byte : ∀ b : Fin 256, isUncompressedState b = decide (b.val < 0x80) := by
  decide +kernel

theorem hasProps_byte : ∀ b : Fin 256, 0x80 ≤ b.val →
    ((b.val &&& 0x40 ≠ 0) ↔ ¬ b.val < 0xC0) := by
  decide +kernel

theorem isUncompressedState_eq (b : UInt8) :
    isUncompressedState b.toNat = decide (b < 0x80) := by
  rw [isUncompressedState_byte ⟨b.toNat, b.toNat_lt⟩]
  rfl

theorem hasProps_iff {b : UInt8} (hb : ¬ b < 0x80) : (b.toNat &&& 0x40 ≠ 0) ↔ ¬ b < 0xC0 :=
  hasProps_byte ⟨b.toNat, b.toNat_lt⟩ (not_lt.mp hb)

theorem propByte_eq (d : ℕ) (prop : LzmaProps) : propByte d prop = chunkProps d prop := by
  unfold propByte chunkProps
  by_cases h : 225 ≤ d
  · rw [dif_pos h, dif_pos h]
  · rw [dif_neg h, dif_neg h]
    split
    · rfl
    · simp only [LzmaProps.setLclppb, Nat.div_div_eq_div_mul]

/-- The control byte of a stored chunk has been read. -/
structure StoredByte (r : Ref2) (f : Lzma2Frame) (b : UInt8) : Prop where
  control : f.control = b.toNat
  kind : b = 1 ∨ b = 2 ∧ r.need ≠ 0xE0
  need : f.needInitLevel = if b = 1 then 0xC0 else r.need

/-- The control byte of a packed chunk has been read. -/
structure PackedByte (r : Ref2) (f : Lzma2Frame) (b : UInt8) : Prop where
  control : f.control = b.toNat
  kind : ¬ b < 0x80
  enough : ¬ b.toNat < r.need
  need : f.needInitLevel = 0

def unpackOf (b u1 u0 : UInt8) : ℕ := b.toNat % 32 * 2 ^ 16 + be16 u1 u0 + 1

/-- The frame after some bytes of a header. -/
inductive HeaderAt (r : Ref2) (f : Lzma2Frame) : List UInt8 → Prop
  | control : f.state = .control → f.needInitLevel = r.need → f.unpackSize = 0 →
      HeaderAt r f []
  | stored0 {b : UInt8} : StoredByte r f b → f.state = .unpack0 → f.unpackSize = 0 → HeaderAt r f [b]
  | stored1 {b u1 : UInt8} : StoredByte r f b → f.state = .unpack1 → f.unpackSize = u1.toNat * 2 ^ 8 →
      HeaderAt r f [b, u1]
  | packed0 {b : UInt8} : PackedByte r f b → f.state = .unpack0 → f.unpackSize = b.toNat % 32 * 2 ^ 16 →
      HeaderAt r f [b]
  | packed1 {b u1 : UInt8} : PackedByte r f b → f.state = .unpack1 →
      f.unpackSize = (b.toNat % 32 * 2 ^ 8 + u1.toNat) * 2 ^ 8 → HeaderAt r f [b, u1]
  | packed2 {b u1 u0 : UInt8} : PackedByte r f b → f.state = .pack0 →
      f.unpackSize = unpackOf b u1 u0 →
      HeaderAt r f [b, u1, u0]
  | packed3 {b u1 u0 p1 : UInt8} : PackedByte r f b → f.state = .pack1 →
      f.unpackSize = unpackOf b u1 u0 →
      f.packSize = p1.toNat * 2 ^ 8 → HeaderAt r f [b, u1, u0, p1]
  | packed4 {b u1 u0 p1 p0 : UInt8} : PackedByte r f b → f.state = .prop →
      f.unpackSize = unpackOf b u1 u0 →
      f.packSize = be16 p1 p0 + 1 → ¬ b < 0xC0 → HeaderAt r f [b, u1, u0, p1, p0]

/-- A chunk is open and nothing of it is read yet. -/
structure Opened (f : Lzma2Frame) : Prop where
  state : f.state = .data
  unpack_pos : 0 < f.unpackSize
  unpack_lt : f.unpackSize < 2 ^ 32

/-- What one more byte of a header makes of the frame and the properties. -/
inductive HeaderStep (r : Ref2) (f : Lzma2Frame) (prop : LzmaProps) (pre : List UInt8) : Prop
  | finished : f.state = .finished → prop = r.prop → pre = [0] → HeaderStep r f prop pre
  | broken : f.state = .error → prop = r.prop → chunkStep r pre = .reject →
      HeaderStep r f prop pre
  | header : HeaderAt r f pre → prop = r.prop → HeaderStep r f prop pre
  | stored : Opened f → (f.control = 1 ∨ f.control = 2) →
      f.needInitLevel = (if f.control = 1 then 0xC0 else r.need) → prop = r.prop →
      chunkStep r pre = .next (r.openStored f.control f.unpackSize) [] → HeaderStep r f prop pre
  | packed : Opened f → isUncompressedState f.control = false → r.need ≤ f.control → f.needInitLevel = 0 →
      f.packSize < 2 ^ 32 → (f.control < 0xC0 → prop = r.prop) →
      prop.dictSize = r.prop.dictSize → (prop ≠ r.prop → prop.lc + prop.lp ≤ lzma2LclpMax) →
      chunkStep r pre = .next ({ r with prop }.openPacked f.control f.unpackSize f.packSize) [] →
      HeaderStep r f prop pre

section
variable {r : Ref2} {f : Lzma2Frame} {pre : List UInt8}

theorem unpackOf_lt (b u1 u0 : UInt8) : unpackOf b u1 u0 < 2 ^ 32 := by
  have h := be16_lt u1 u0
  unfold unpackOf
  omega

theorem StoredByte.ne_zero {b : UInt8} (h : StoredByte r f b) : b ≠ 0 := by
  rcases h.kind with rfl | ⟨rfl, -⟩ <;> decide

theorem StoredByte.lt {b : UInt8} (h : StoredByte r f b) : b < 0x80 := by
  rcases h.kind with rfl | ⟨rfl, -⟩ <;> decide

theorem PackedByte.ne_zero {b : UInt8} (h : PackedByte r f b) : b ≠ 0 := by
  rintro rfl
  exact h.kind (by decide)

theorem PackedByte.kind_byte {b : UInt8} (h : PackedByte r f b) :
    isUncompressedState b.toNat = false := by
  rw [isUncompressedState_eq]
  exact decide_eq_false h.kind

theorem HeaderAt.more (h : HeaderAt r f pre) : chunkStep r pre = .more := by
  cases h with
  | control => simp only [chunkStep]
  | stored0 h | stored1 h =>
      simp only [chunkStep]
      rw [if_neg h.ne_zero, if_pos h.lt, if_pos h.kind]
  | packed0 h | packed1 h | packed2 h | packed3 h =>
      simp only [chunkStep]
      rw [if_neg h.ne_zero, if_neg h.kind, if_neg h.enough]
  | packed4 h _ _ _ hc =>
      simp only [chunkStep]
      rw [if_neg h.ne_zero, if_neg h.kind, if_neg h.enough, if_neg hc]

theorem HeaderAt.state_ne (h : HeaderAt r f pre) : f.state ≠ .finished := by
  cases h with
  | control hs | stored0 _ hs | stored1 _ hs | packed0 _ hs | packed1 _ hs | packed2 _ hs
    | packed3 _ hs | packed4 _ hs => rw [hs]; decide

theorem HeaderAt.state_ne_error (h : HeaderAt r f pre) : f.state ≠ .error := by
  cases h with
  | control hs | stored0 _ hs | stored1 _ hs | packed0 _ hs | packed1 _ hs | packed2 _ hs
    | packed3 _ hs | packed4 _ hs => rw [hs]; decide

theorem HeaderAt.state_header (h : HeaderAt r f pre) : f.state ≠ .data ∧ f.state ≠ .dataCont := by
  cases h with
  | control hs | stored0 _ hs | stored1 _ hs | packed0 _ hs | packed1 _ hs | packed2 _ hs
    | packed3 _ hs | packed4 _ hs => rw [hs]; decide

/-- A header that has begun is not an end mark. -/
theorem HeaderAt.dueWith (h : HeaderAt r f pre) (hne : pre ≠ []) (zs : List UInt8) :
    (Pos.chunk r).due < (Pos.chunk r).dueWith (pre ++ zs) := by
  have hcons : ∀ {b : UInt8} {ys : List UInt8}, b ≠ 0 →
      (Pos.chunk r).due < (Pos.chunk r).dueWith (b :: ys) := by
    intro b ys hb
    simp only [Pos.dueWith, if_neg hb]
    exact Nat.lt_succ_self _
  cases h with
  | control => exact absurd rfl hne
  | stored0 h | stored1 h => exact hcons h.ne_zero
  | packed0 h | packed1 h | packed2 h | packed3 h | packed4 h => exact hcons h.ne_zero

/-- The control byte. -/
theorem HeaderAt.update_control {prop : LzmaProps} (hp : prop = r.prop) (hs : f.state = .control)
    (hn : f.needInitLevel = r.need) (hu : f.unpackSize = 0) (b : UInt8) :
    HeaderStep r (f.updateState b.toNat prop).1 (f.updateState b.toNat prop).2 [b] := by
  simp only [Lzma2Frame.updateState, hs, isUncompressedState_eq, hn]
  by_cases h0 : b.toNat = 0
  · rw [if_pos h0]
    exact .finished rfl hp (by rw [UInt8.toNat_inj.mp (h0.trans rfl : b.toNat = (0 : UInt8).toNat)])
  · rw [if_neg h0]
    have hb0 : b ≠ 0 := fun h => h0 (by rw [h]; rfl)
    by_cases h1 : b < 0x80
    · rw [decide_eq_true h1, if_pos rfl]
      have hone : b.toNat = 1 ↔ b = 1 :=
        ⟨fun h => UInt8.toNat_inj.mp (h.trans rfl), fun h => by rw [h]; rfl⟩
      have htwo : b.toNat = 2 ↔ b = 2 :=
        ⟨fun h => UInt8.toNat_inj.mp (h.trans rfl), fun h => by rw [h]; rfl⟩
      by_cases hb1 : b.toNat = lzma2ControlCopyResetDic
      · rw [if_pos hb1]
        exact .header (.stored0 ⟨rfl, .inl (hone.mp hb1), by rw [if_pos (hone.mp hb1)]⟩ rfl hu) hp
      · rw [if_neg hb1]
        by_cases hbad : 2 < b.toNat ∨ r.need = 0xE0
        · rw [if_pos hbad]
          refine .broken rfl hp ?_
          simp only [chunkStep]
          rw [if_neg hb0, if_pos h1, if_neg]
          rintro (hb | ⟨hb, hne⟩)
          · exact hb1 (hone.mpr hb)
          · have := htwo.mpr hb
            omega
        · rw [if_neg hbad]
          have hb2 : b = 2 := htwo.mp (by
            have : b.toNat ≠ 1 := hb1
            omega)
          exact .header (.stored0 ⟨rfl, .inr ⟨hb2, by omega⟩,
            by rw [if_neg fun h => hb1 (hone.mpr h)]⟩ rfl hu) hp
    · rw [decide_eq_false h1, if_neg Bool.false_ne_true]
      by_cases hbad : b.toNat < r.need
      · rw [if_pos hbad]
        refine .broken rfl hp ?_
        simp only [chunkStep]
        rw [if_neg hb0, if_neg h1, if_pos hbad]
      · rw [if_neg hbad]
        exact .header (.packed0 ⟨rfl, h1, hbad, rfl⟩ rfl (by
          simp only [and_low, Nat.shiftLeft_eq])) hp

theorem StoredByte.congr {g : Lzma2Frame} {b : UInt8} (h : StoredByte r f b)
    (hc : g.control = f.control) (hn : g.needInitLevel = f.needInitLevel) : StoredByte r g b :=
  ⟨hc.trans h.control, h.kind, hn.trans h.need⟩

theorem PackedByte.congr {g : Lzma2Frame} {b : UInt8} (h : PackedByte r f b)
    (hc : g.control = f.control) (hn : g.needInitLevel = f.needInitLevel) : PackedByte r g b :=
  ⟨hc.trans h.control, h.kind, h.enough, hn.trans h.need⟩

theorem unpackOf_eq (b u1 u0 : UInt8) :
    (((b.toNat % 32 * 2 ^ 8 + u1.toNat) * 2 ^ 8) ||| u0.toNat) + 1 = unpackOf b u1 u0 := by
  rw [or_byte]
  unfold unpackOf be16
  omega

/-- The last byte of a stored chunk's header. -/
theorem StoredByte.opens {b u1 : UInt8} {prop : LzmaProps} (h : StoredByte r f b)
    (hp : prop = r.prop) (hs : f.state = .unpack1) (hu : f.unpackSize = u1.toNat * 2 ^ 8)
    (u0 : UInt8) : HeaderStep r (f.updateState u0.toNat prop).1 (f.updateState u0.toNat prop).2
      [b, u1, u0] := by
  have hlt := be16_lt u1 u0
  have hsize : f.unpackSize ||| u0.toNat = be16 u1 u0 := by rw [hu, or_byte, be16]
  have hkind : b.toNat = 1 ∨ b.toNat = 2 := by
    rcases h.kind with rfl | ⟨rfl, -⟩
    · exact .inl rfl
    · exact .inr rfl
  have hone : b.toNat = 1 ↔ b = 1 :=
    ⟨fun h => UInt8.toNat_inj.mp (h.trans rfl), fun h => by rw [h]; rfl⟩
  simp only [Lzma2Frame.updateState, hs, h.control, isUncompressedState_eq, decide_eq_true h.lt,
    if_true, hsize]
  refine .stored ⟨rfl, Nat.succ_pos _, by show be16 u1 u0 + 1 < _; omega⟩ hkind ?_ hp
    (chunkStep_stored h.kind [])
  simp only [h.need, hone]

/-- The last byte of a packed chunk's header when it brings no properties. -/
theorem PackedByte.opens {b u1 u0 p1 : UInt8} {prop : LzmaProps} (h : PackedByte r f b)
    (hp : prop = r.prop) (hs : f.state = .pack1) (hu : f.unpackSize = unpackOf b u1 u0)
    (hk : f.packSize = p1.toNat * 2 ^ 8) (p0 : UInt8) :
    HeaderStep r (f.updateState p0.toNat prop).1 (f.updateState p0.toNat prop).2
      [b, u1, u0, p1, p0] := by
  have hlt := be16_lt p1 p0
  have hsize : f.packSize ||| p0.toNat = be16 p1 p0 := by rw [hk, or_byte, be16]
  simp only [Lzma2Frame.updateState, hs, h.control, hasProps_iff h.kind, hsize]
  by_cases hc : b < 0xC0
  · rw [if_neg (not_not.mpr hc)]
    refine .packed ⟨rfl, by rw [hu]; exact Nat.succ_pos _, by rw [hu]; exact unpackOf_lt b u1 u0⟩
      h.kind_byte (not_lt.mp h.enough) h.need (by show be16 p1 p0 + 1 < _; omega)
      (fun _ => hp) (by rw [hp]) (fun hne => absurd hp hne) ?_
    rw [hp, chunkStep_packed h.kind h.enough hc, hu]
    rfl
  · rw [if_pos hc]
    exact .header (.packed4 (h.congr h.control.symm rfl) rfl hu rfl hc) hp

/-- The property byte. -/
theorem PackedByte.props {b u1 u0 p1 p0 : UInt8} {prop : LzmaProps} (h : PackedByte r f b)
    (hp : prop = r.prop) (hs : f.state = .prop) (hu : f.unpackSize = unpackOf b u1 u0)
    (hk : f.packSize = be16 p1 p0 + 1) (hc : ¬ b < 0xC0) (d : UInt8) :
    HeaderStep r (f.updateState d.toNat prop).1 (f.updateState d.toNat prop).2
      [b, u1, u0, p1, p0, d] := by
  have hlt := be16_lt p1 p0
  simp only [Lzma2Frame.updateState, hs, propByte_eq]
  cases hd : chunkProps d.toNat prop with
  | none =>
      refine .broken rfl hp ?_
      simp only [chunkStep]
      rw [if_neg h.ne_zero, if_neg h.kind, if_neg h.enough, if_neg hc, ← hp, hd]
  | some q =>
      have hq := hd
      unfold chunkProps at hq
      by_cases hd1 : 225 ≤ d.toNat
      · rw [dif_pos hd1] at hq
        cases hq
      rw [dif_neg hd1] at hq
      by_cases hd2 : 4 < d.toNat % 9 + d.toNat / 9 % 5
      · rw [if_pos hd2] at hq
        cases hq
      rw [if_neg hd2] at hq
      cases hq
      refine .packed ⟨rfl, by rw [hu]; exact Nat.succ_pos _, by rw [hu]; exact unpackOf_lt b u1 u0⟩
        (h.control ▸ h.kind_byte) (h.control ▸ not_lt.mp h.enough) h.need
        (by rw [hk]; omega) (fun hlt' => absurd (show b.toNat < 0xC0 from h.control ▸ hlt') hc)
        (by rw [hp])
        (fun _ => not_lt.mp hd2) ?_
      rw [hp] at hd ⊢
      rw [chunkStep_props h.kind h.enough hc hd, h.control, hu, hk]
      rfl

/-- One more byte of a header. -/
theorem HeaderAt.update {prop : LzmaProps} (h : HeaderAt r f pre) (hp : prop = r.prop)
    (b : UInt8) : HeaderStep r (f.updateState b.toNat prop).1 (f.updateState b.toNat prop).2
      (pre ++ [b]) := by
  cases h with
  | control hs hn hu => exact HeaderAt.update_control hp hs hn hu b
  | stored0 h hs hu =>
      simp only [Lzma2Frame.updateState, hs, hu, Nat.zero_or, Nat.shiftLeft_eq]
      exact .header (.stored1 (h.congr rfl rfl) rfl rfl) hp
  | stored1 h hs hu => exact h.opens hp hs hu b
  | packed0 h hs hu =>
      simp only [Lzma2Frame.updateState, hs, hu, or_high]
      exact .header (.packed1 (h.congr rfl rfl) rfl rfl) hp
  | packed1 h hs hu =>
      simp only [Lzma2Frame.updateState, hs, h.control, isUncompressedState_eq,
        decide_eq_false h.kind, Bool.false_eq_true, if_false, hu, unpackOf_eq]
      exact .header (.packed2 (h.congr h.control.symm rfl) rfl rfl) hp
  | packed2 h hs hu =>
      simp only [Lzma2Frame.updateState, hs, Nat.shiftLeft_eq]
      exact .header (.packed3 (h.congr rfl rfl) rfl hu rfl) hp
  | packed3 h hs hu hk => exact h.opens hp hs hu hk b
  | packed4 h hs hu hk hc => exact h.props hp hs hu hk hc b

end
end LzmaTurbo.Lzma2
