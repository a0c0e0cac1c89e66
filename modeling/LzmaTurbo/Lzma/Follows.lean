import LzmaTurbo.Lib.RunLaws
import LzmaTurbo.Lzma.Branching

/-!
# The loop's bit procedures follow a bit program

`Tracks` ties the loop's range coder locals to the library's decoder, and
`Follows` says that a computation reads the bits a program asks for and goes on
as a continuation does. The branch-free and the branching procedures follow the
same one-bit program.
-/
namespace LzmaTurbo.Lzma
open Machine BitProgram
open RangeDecoder (Coder Outcome run learn)

/-- `size` is the table's length, of which the first `N` entries are in use. -/
structure Tracks (src : List UInt8) (size N : ℕ) (rc : Rc) (c : Coder ℕ)
    (rest : List UInt8) : Prop where
  range : rc.range = c.range
  code : rc.code = c.code
  probs : ∀ i < N, rc.probs[i]? = some (c.probs i)
  size_eq : rc.probs.size = size
  drop : src.drop rc.buf = rest
  buf_le : rc.buf ≤ src.length
  good : c.Good

def Follows (src : List UInt8) (size N : ℕ) {α γ : Type} (E : Except Fault γ) (p : Prog ℕ α)
    (c : Coder ℕ) (rest : List UInt8) (K : α → Rc → Except Fault γ) : Prop :=
  match run p c rest with
  | .done a c' rest' => ∃ rc', Tracks src size N rc' c' rest' ∧ E = K a rc'
  | .more => E = .error .index
  | .fail => True

theorem top_eq : kTopValue = 2 ^ 24 := by decide

theorem shl8_or {code : ℕ} (b : UInt8) :
    u32 (code <<< 8) ||| b.toNat = code * 256 % 2 ^ 32 + b.toNat := by
  have hb := b.toNat_lt
  have h1 : u32 (code <<< 8) = (code % 2 ^ 24) <<< 8 := by
    simp only [u32, Nat.shiftLeft_eq]
    omega
  rw [h1, ← Nat.shiftLeft_add_eq_or_of_lt (by omega), Nat.shiftLeft_eq]
  omega

section
variable {src : List UInt8} {size N : ℕ} {rc : Rc} {c : Coder ℕ} {rest : List UInt8}
variable {α β γ δ : Type}

theorem normalize_tracks (h : Tracks src size N rc c rest) :
    (RangeDecoder.normalize c rest = none ∧ normalize src rc = .error .index) ∨
    ∃ d ys rc', RangeDecoder.normalize c rest = some (d, ys) ∧ normalize src rc = .ok rc' ∧
      Tracks src size N rc' d ys ∧ rc'.probs = rc.probs ∧ d.probs = c.probs ∧
      2 ^ 24 ≤ d.range := by
  unfold normalize
  by_cases hr : c.range < 2 ^ 24
  · rw [h.range, top_eq, if_pos hr]
    cases rest with
    | nil =>
        left
        exact ⟨RangeDecoder.normalize_nil hr, by rw [byteAt_drop_nil h.drop]; rfl⟩
    | cons x xs =>
        right
        have hn := RangeDecoder.normalize_cons hr x xs
        obtain ⟨hg, hge⟩ := RangeDecoder.normalize_good h.good hn
        refine ⟨_, xs, { rc with
          range := u32 (c.range <<< 8), code := u32 (rc.code <<< 8) ||| x.toNat
          buf := rc.buf + 1 }, hn, by rw [byteAt_drop h.drop]; rfl, ?_, rfl, rfl, hge⟩
        refine ⟨?_, ?_, h.probs, h.size_eq, ?_, ?_, hg⟩
        · simp only [u32, Nat.shiftLeft_eq]
          omega
        · simp only [shl8_or, h.code]
        · rw [← List.drop_drop, h.drop]
          rfl
        · have := congrArg List.length h.drop
          simp only [List.length_drop, List.length_cons] at this
          change rc.buf + 1 ≤ src.length
          omega
  · right
    rw [h.range, top_eq, if_neg hr]
    exact ⟨c, rest, rc, RangeDecoder.normalize_of_le (by omega) _, rfl, h, rfl, rfl, by omega⟩

theorem boundOf_eq (hc : c.Good) (slot : ℕ) : boundOf c.range (c.probs slot) = c.bound slot := by
  have h1 := hc.range_lt
  have h2 := hc.probs_le slot
  have h3 : c.range / 2048 * c.probs slot ≤ c.range / 2048 * 2048 :=
    Nat.mul_le_mul_left _ (by omega)
  simp only [boundOf, u32, Coder.bound, Nat.shiftRight_eq_div_pow, kNumBitModelTotalBits]
  norm_num
  omega

/-- The new interval and table after bit `b` at `slot`. -/
def Coder.after (c : Coder ℕ) (slot : ℕ) : Coder ℕ :=
  (c.split slot).2.adapt slot (c.split slot).1

theorem after_good (hc : c.Good) (hr : 2 ^ 24 ≤ c.range) (slot : ℕ) :
    (Coder.after c slot).Good :=
  RangeDecoder.adapt_good (RangeDecoder.split_good hc hr slot) slot _

theorem after_probs_ne (slot : ℕ) {i : ℕ} (hi : i ≠ slot) :
    (Coder.after c slot).probs i = c.probs i := by
  have h : (c.split slot).2.probs = c.probs := by
    unfold Coder.split
    split <;> rfl
  simp [Coder.after, Coder.adapt, h, hi]

/-- Storing the learnt probability keeps the tables in step. -/
theorem tracks_after (h : Tracks src size N rc c rest) (hr : 2 ^ 24 ≤ c.range) (hN : N ≤ size)
    {slot : ℕ} (hs : slot < N) {range code v : ℕ}
    (hrange : range = (Coder.after c slot).range) (hcode : code = (Coder.after c slot).code)
    (hv : v = learn (c.split slot).1 (c.probs slot)) :
    Tracks src size N { rc with range, code, probs := rc.probs.setIfInBounds slot v }
      (Coder.after c slot) rest := by
  refine ⟨hrange, hcode, ?_, by simpa using h.size_eq, h.drop, h.buf_le, after_good h.good hr slot⟩
  intro i hi
  by_cases hi' : i = slot
  · subst hi'
    have hp : (c.split i).2.probs i = c.probs i := by
      unfold Coder.split
      split <;> rfl
    have hsz : i < rc.probs.size := by rw [h.size_eq]; omega
    simp [hsz, Coder.after, Coder.adapt, hp, hv]
  · simp only [after_probs_ne slot hi']
    rw [Array.getElem?_setIfInBounds_ne (Ne.symm hi')]
    exact h.probs i hi

theorem get_probs (h : Tracks src size N rc c rest) {slot : ℕ} (hs : slot < N) :
    get rc.probs slot = .ok (c.probs slot) :=
  get_ok (h.probs slot hs)

theorem ifBit_tracks (h : Tracks src size N rc c rest) (hN : N ≤ size) {slot : ℕ}
    (hs : slot < N) :
    (RangeDecoder.normalize c rest = none ∧ ifBit src slot rc = .error .index) ∨
    ∃ d ys rc', RangeDecoder.normalize c rest = some (d, ys) ∧ d.probs = c.probs ∧
      ifBit src slot rc = .ok ((d.split slot).1, rc') ∧
      Tracks src size N rc' (Coder.after d slot) ys := by
  unfold ifBit
  rw [get_probs h hs]
  obtain ⟨h1, h2⟩ | ⟨d, ys, rc', h1, h2, ht, -, hp, hr⟩ := normalize_tracks h
  · left
    exact ⟨h1, by simp only [bind, Except.bind, h2]⟩
  · right
    have hb : boundOf rc'.range (c.probs slot) = d.bound slot := by
      rw [ht.range, ← hp, boundOf_eq ht.good]
    have hsz : slot < rc'.probs.size := by rw [ht.size_eq]; omega
    have h31 := ht.good.probs_ge slot
    have h17 := ht.good.probs_le slot
    obtain ⟨-, -, hlt⟩ := RangeDecoder.bound_pos ht.good hr slot
    refine ⟨d, ys, _, h1, hp, ?_, tracks_after ht hr hN hs rfl rfl rfl⟩
    simp only [bind, Except.bind, h2, hb, ht.code]
    by_cases hc : d.code < d.bound slot
    · rw [if_pos hc]
      have hu : update0 slot (d.bound slot) (c.probs slot) rc' = .ok { rc' with
          range := d.bound slot
          probs := rc'.probs.setIfInBounds slot (learn false (d.probs slot)) } := by
        rw [← hp]
        have hk : kBitModelTotal = 2048 := by decide
        have hl : asU16 ((d.probs slot + ((2048 - d.probs slot) >>> kNumMoveBits) : ℕ) : ℤ) =
            learn false (d.probs slot) := by
          rw [Nat.shiftRight_eq_div_pow, moveBits, asU16_of_lt (by omega)]
          rfl
        simp only [update0, hk, sub_ok (show d.probs slot ≤ 2048 by omega), bind, Except.bind,
          hl, put_ok hsz]
      simp only [hu, Coder.after, Coder.adapt, Coder.split, hc, if_true]
      rw [← ht.code]
    · rw [if_neg hc]
      have hu : update1 slot (d.bound slot) (c.probs slot) rc' = .ok { rc' with
          range := d.range - d.bound slot, code := d.code - d.bound slot
          probs := rc'.probs.setIfInBounds slot (learn true (d.probs slot)) } := by
        rw [← hp]
        have hl : asU16 ((d.probs slot - (d.probs slot >>> kNumMoveBits) : ℕ) : ℤ) =
            learn true (d.probs slot) := by
          rw [Nat.shiftRight_eq_div_pow, moveBits, asU16_of_lt (by omega)]
          rfl
        have hle : d.probs slot >>> kNumMoveBits ≤ d.probs slot := Nat.shiftRight_le _ _
        simp only [update1, ht.range, ht.code, sub_ok hlt.le,
          sub_ok (show d.bound slot ≤ d.code by omega), sub_ok hle, bind, Except.bind, hl,
          put_ok hsz]
      simp only [hu, Coder.after, Coder.adapt, Coder.split, hc, if_false]

theorem Tracks.inUse (h : Tracks src size N rc c rest) : rc.InUse N := by
  have hk : kBitModelTotal = 2048 := by decide
  refine ⟨?_, fun i hi => ⟨c.probs i, ?_, h.probs i hi⟩⟩
  · rw [h.range]
    exact h.good.range_lt
  · have hle := h.good.probs_le i
    omega

theorem maskedBit_tracks (h : Tracks src size N rc c rest) (hN : N ≤ size) {slot pv : ℕ}
    (hs : slot < N) (hpv : pv = c.probs slot) :
    (RangeDecoder.normalize c rest = none ∧ maskedBit src slot pv rc = .error .index) ∨
    ∃ d ys rc', RangeDecoder.normalize c rest = some (d, ys) ∧ d.probs = c.probs ∧
      maskedBit src slot pv rc = .ok (maskOf (d.split slot).1, rc') ∧
      Tracks src size N rc' (Coder.after d slot) ys := by
  rw [maskedBit_eq h.inUse hs (hpv ▸ h.probs slot hs)]
  obtain ⟨h1, h2⟩ | ⟨d, ys, rc', h1, hp, h2, ht⟩ := ifBit_tracks h hN hs
  · exact .inl ⟨h1, by rw [h2]; rfl⟩
  · exact .inr ⟨d, ys, rc', h1, hp, by rw [h2]; rfl, ht⟩

/-- A choice of the code on the bit just read, as the program's next question. -/
theorem follows_ifBit (h : Tracks src size N rc c rest) (hN : N ≤ size) {slot : ℕ}
    (hs : slot < N) {F : Bool × Rc → Except Fault γ} {next : Bool → Prog ℕ α}
    {K : α → Rc → Except Fault γ}
    (hn : ∀ b rc' c' rest', Tracks src size N rc' c' rest' →
      Follows src size N (F (b, rc')) (next b) c' rest' K) :
    Follows src size N (ifBit src slot rc >>= F) (.bit slot next) c rest K := by
  unfold Follows
  simp only [run]
  obtain ⟨h1, h2⟩ | ⟨d, ys, rc', h1, -, h2, ht⟩ := ifBit_tracks h hN hs
  · rw [h1, h2]
    rfl
  · rw [h1, h2]
    exact hn _ rc' _ ys ht

/-- As `follows_ifBit`; the bit arrives as a mask, and other models are left alone. -/
theorem follows_maskedBit (h : Tracks src size N rc c rest) (hN : N ≤ size) {slot pv : ℕ}
    (hs : slot < N) (hpv : pv = c.probs slot) {F : ℕ × Rc → Except Fault γ}
    {next : Bool → Prog ℕ α} {K : α → Rc → Except Fault γ}
    (hn : ∀ b rc' c' rest', Tracks src size N rc' c' rest' →
      (∀ i, i ≠ slot → c'.probs i = c.probs i) →
      Follows src size N (F (maskOf b, rc')) (next b) c' rest' K) :
    Follows src size N (maskedBit src slot pv rc >>= F) (.bit slot next) c rest K := by
  unfold Follows
  simp only [run]
  obtain ⟨h1, h2⟩ | ⟨d, ys, rc', h1, hp, h2, ht⟩ := maskedBit_tracks h hN hs hpv
  · rw [h1, h2]
    rfl
  · rw [h1, h2]
    exact hn _ rc' _ ys ht (fun i hi => (after_probs_ne slot hi).trans (congrFun hp i))

theorem follows_pure (h : Tracks src size N rc c rest) {E : Except Fault γ} {a : α}
    {K : α → Rc → Except Fault γ} (hE : E = K a rc) :
    Follows src size N E (.pure a) c rest K :=
  ⟨rc, h, hE⟩

/-- Sequencing: what the first part returns, it returns on a reachable outcome. -/
theorem Follows.bind {E : Except Fault δ} {p : Prog ℕ β} {k : β → Rc → Except Fault δ}
    (hE : Follows src size N E p c rest k) {P : β → Prop} (hp : p.Returns P)
    {F : δ → Except Fault γ} {f : β → Prog ℕ α} {K : α → Rc → Except Fault γ}
    (hF : ∀ b rc' c' rest', P b → Tracks src size N rc' c' rest' →
      Follows src size N (k b rc' >>= F) (f b) c' rest' K) :
    Follows src size N (E >>= F) (p.bind f) c rest K := by
  unfold Follows at hE ⊢
  rw [RangeDecoder.run_bind]
  cases hr : run p c rest with
  | more =>
      rw [hr] at hE
      rw [show E = _ from hE]
      rfl
  | fail => trivial
  | done b c' rest' =>
      rw [hr] at hE
      obtain ⟨rc', ht, rfl⟩ := hE
      exact hF b rc' c' rest' (RangeDecoder.run_returns hp hr) ht

end
end LzmaTurbo.Lzma
