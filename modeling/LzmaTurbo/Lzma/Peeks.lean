import LzmaTurbo.Lzma.Position

/-!
# The dry run peeks at the symbol program

The careful path asks the same questions as the fast loop but stores nothing,
so it is compared with `peek`. An end of input is an exception here.
-/
namespace LzmaTurbo.Lzma
open Machine BitProgram Window
open RangeDecoder (Coder Outcome peek)

/-- The scan's locals are the decoder's interval, `rest` being unread. -/
structure Sees (buf : List UInt8) (t : Scan) (c : Coder ℕ) (rest : List UInt8) : Prop where
  range : t.range = c.range
  code : t.code = c.code
  drop : buf.drop t.pos = rest
  pos_le : t.pos ≤ buf.length
  good : c.Good

def Peeks (buf : List UInt8) {α γ : Type} (E : Except Stop γ) (p : Prog ℕ α) (c : Coder ℕ)
    (rest : List UInt8) (K : α → Scan → Except Stop γ) : Prop :=
  match peek p c rest with
  | .done a c' rest' => ∃ t', Sees buf t' c' rest' ∧ E = K a t'
  | .more => ∃ pos, E = .error (.eof pos)
  | .fail => True

/-- The first `N` entries of the table are the reference's. -/
def Table (probs : Array ℕ) (N : ℕ) (c : Coder ℕ) : Prop :=
  ∀ i < N, probs[i]? = some (c.probs i)

@[simp] theorem liftFault_ok {α : Type} (a : α) : liftFault (.ok a) = .ok a := rfl

section
variable {probs : Array ℕ} {buf : List UInt8} {N : ℕ} {t : Scan} {c : Coder ℕ}
  {rest : List UInt8} {α β γ δ : Type}

theorem normalizeCheck_sees (h : Sees buf t c rest) :
    (RangeDecoder.normalize c rest = none ∧ ∃ pos, normalizeCheck buf t = .error (.eof pos)) ∨
    ∃ d ys t', RangeDecoder.normalize c rest = some (d, ys) ∧ normalizeCheck buf t = .ok t' ∧
      Sees buf t' d ys ∧ d.probs = c.probs ∧ 2 ^ 24 ≤ d.range := by
  have hlen := congrArg List.length h.drop
  rw [List.length_drop] at hlen
  unfold normalizeCheck
  by_cases hr : c.range < 2 ^ 24
  · rw [h.range, top_eq, if_pos hr]
    cases rest with
    | nil =>
        rw [List.length_nil] at hlen
        exact .inl ⟨RangeDecoder.normalize_nil hr, t.pos, by rw [if_pos (by omega)]⟩
    | cons x xs =>
        rw [List.length_cons] at hlen
        have hn := RangeDecoder.normalize_cons hr x xs
        obtain ⟨hg, hge⟩ := RangeDecoder.normalize_good h.good hn
        right
        refine ⟨_, xs, { range := u32 (c.range <<< 8), code := u32 (t.code <<< 8) ||| x.toNat
                         pos := t.pos + 1 }, hn, ?_, ⟨?_, ?_, ?_, ?_, hg⟩, rfl, hge⟩
        · rw [if_neg (by omega), byteAt_drop h.drop]
          rfl
        · simp only [u32, Nat.shiftLeft_eq]
          have := h.good.range_lt
          omega
        · simp only [shl8_or, h.code]
        · rw [← List.drop_drop, h.drop]
          rfl
        · change t.pos + 1 ≤ buf.length
          omega
  · right
    rw [h.range, top_eq, if_neg hr]
    exact ⟨c, rest, t, RangeDecoder.normalize_of_le (by omega) _, rfl, h, rfl, by omega⟩

theorem split_probs (d : Coder ℕ) (slot : ℕ) : (d.split slot).2.probs = d.probs := by
  unfold Coder.split
  split <;> rfl

theorem getBitCheck_sees (hT : Table probs N c) (h : Sees buf t c rest) {slot : ℕ}
    (hs : slot < N) :
    (RangeDecoder.normalize c rest = none ∧
      ∃ pos, getBitCheck probs buf slot t = .error (.eof pos)) ∨
    ∃ d ys t', RangeDecoder.normalize c rest = some (d, ys) ∧ d.probs = c.probs ∧
      getBitCheck probs buf slot t = .ok ((d.split slot).1, t') ∧
      Sees buf t' (d.split slot).2 ys := by
  unfold getBitCheck
  rw [get_ok (hT slot hs), liftFault_ok, ok_bind]
  obtain ⟨h1, pos, h2⟩ | ⟨d, ys, t', h1, h2, h3, hp, hr⟩ := normalizeCheck_sees h
  · exact .inl ⟨h1, pos, by rw [h2]; rfl⟩
  · right
    have hb : boundOf t'.range (c.probs slot) = d.bound slot := by
      rw [h3.range, ← hp, boundOf_eq h3.good]
    obtain ⟨-, -, hlt⟩ := RangeDecoder.bound_pos h3.good hr slot
    have hgood := RangeDecoder.split_good h3.good hr slot
    rw [h2, ok_bind]
    simp only [hb, h3.code]
    unfold Coder.split at hgood ⊢
    by_cases hc : d.code < d.bound slot
    · rw [if_pos hc] at hgood ⊢
      exact ⟨d, ys, { t' with range := d.bound slot }, h1, hp, by simp only [if_pos hc, h3.code],
        by rw [if_pos hc]; exact ⟨rfl, h3.code, h3.drop, h3.pos_le, hgood⟩⟩
    · rw [if_neg hc] at hgood ⊢
      refine ⟨d, ys, { t' with range := d.range - d.bound slot, code := d.code - d.bound slot },
        h1, hp, ?_, by rw [if_neg hc]; exact ⟨rfl, rfl, h3.drop, h3.pos_le, hgood⟩⟩
      simp only [if_neg hc, h3.range, sub_ok hlt.le, sub_ok (show d.bound slot ≤ d.code by omega),
        liftFault_ok, ok_bind]

/-- One checked bit is one question, and the table stays as it is. -/
theorem peeks_getBitCheck (hT : Table probs N c) (h : Sees buf t c rest) {slot : ℕ}
    (hs : slot < N) {F : Bool × Scan → Except Stop γ} {next : Bool → Prog ℕ α}
    {K : α → Scan → Except Stop γ}
    (hn : ∀ b t' c' rest', Table probs N c' → Sees buf t' c' rest' →
      Peeks buf (F (b, t')) (next b) c' rest' K) :
    Peeks buf (getBitCheck probs buf slot t >>= F) (.bit slot next) c rest K := by
  unfold Peeks
  simp only [peek]
  obtain ⟨h1, pos, h2⟩ | ⟨d, ys, t', h1, hp, h2, h3⟩ := getBitCheck_sees hT h hs
  · rw [h1, h2]
    exact ⟨pos, rfl⟩
  · rw [h1, h2]
    refine hn _ t' _ ys ?_ h3
    intro i hi
    rw [split_probs, hp]
    exact hT i hi

theorem peeks_pure (h : Sees buf t c rest) {E : Except Stop γ} {a : α}
    {K : α → Scan → Except Stop γ} (hE : E = K a t) : Peeks buf E (.pure a) c rest K :=
  ⟨t, h, hE⟩

theorem Peeks.bind {E : Except Stop δ} {p : Prog ℕ β} {k : β → Scan → Except Stop δ}
    (hT : Table probs N c) (hE : Peeks buf E p c rest k) {P : β → Prop} (hp : p.Returns P)
    {F : δ → Except Stop γ} {f : β → Prog ℕ α} {K : α → Scan → Except Stop γ}
    (hF : ∀ b t' c' rest', P b → Table probs N c' → Sees buf t' c' rest' →
      Peeks buf (k b t' >>= F) (f b) c' rest' K) :
    Peeks buf (E >>= F) (p.bind f) c rest K := by
  unfold Peeks at hE ⊢
  rw [RangeDecoder.peek_bind]
  cases hr : peek p c rest with
  | more =>
      rw [hr] at hE
      obtain ⟨pos, rfl⟩ := hE
      exact ⟨pos, rfl⟩
  | fail => trivial
  | done b c' rest' =>
      rw [hr] at hE
      obtain ⟨t', ht, rfl⟩ := hE
      obtain ⟨hpb, hprobs⟩ := RangeDecoder.peek_returns hp hr
      exact hF b t' c' rest' hpb (fun i hi => by rw [hprobs]; exact hT i hi) ht

/-- A value computed from the answers alone does not matter to the scan. -/
theorem Peeks.map {E : Except Stop γ} {p : Prog ℕ β} {k : Scan → Except Stop γ}
    (hE : Peeks buf E p c rest fun _ t => k t) (g : β → α) (K : α → Scan → Except Stop γ)
    (hK : ∀ b t, k t = K (g b) t := by intros; rfl) :
    Peeks buf E (p.bind fun b => .pure (g b)) c rest K := by
  unfold Peeks at hE ⊢
  rw [RangeDecoder.peek_bind]
  cases hr : peek p c rest with
  | more =>
      rw [hr] at hE
      exact hE
  | fail => trivial
  | done b c' rest' =>
      rw [hr] at hE
      obtain ⟨t', ht, rfl⟩ := hE
      exact ⟨t', ht, hK b t'⟩

/-- Work after the last question. -/
theorem Peeks.andThen {E : Except Stop δ} {p : Prog ℕ α} {k : α → Scan → Except Stop δ}
    (hE : Peeks buf E p c rest k) {P : α → Prop} (hp : p.Returns P) {F : δ → Except Stop γ}
    {K : α → Scan → Except Stop γ} (hK : ∀ a t, P a → k a t >>= F = K a t) :
    Peeks buf (E >>= F) p c rest K := by
  unfold Peeks at hE ⊢
  cases hr : peek p c rest with
  | more =>
      rw [hr] at hE
      obtain ⟨pos, rfl⟩ := hE
      exact ⟨pos, rfl⟩
  | fail => trivial
  | done a c' rest' =>
      rw [hr] at hE
      obtain ⟨t', ht, rfl⟩ := hE
      exact ⟨t', ht, hK a t' (RangeDecoder.peek_returns hp hr).1⟩

end
end LzmaTurbo.Lzma
