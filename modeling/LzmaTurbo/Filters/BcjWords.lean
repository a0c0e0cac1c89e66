import LzmaTurbo.Filters.BcjBigEndian
import LzmaTurbo.Lib.Rewriter

/-!
# Buffers of four-byte instructions

A converter of words rewrites a buffer four bytes at a time, and the rewriter of one
direction undoes that of the other. A state is the next byte's address and the bits
the x86 converter keeps.
-/
namespace LzmaTurbo.Filters
open Machine Rewriter

/-- The address of the next byte and the kept bits. -/
abbrev Place := ℕ × ℕ

def Place.skip (s : Place) (n : ℕ) : Place := (wrappingAdd32 s.1 n, s.2)

section
variable {g : ℕ → ℕ → ℕ} {s s' : Place} {xs out : List UInt8} {v n k : ℕ}

theorem le32_lt (a b c d : UInt8) : le32 a b c d < 2 ^ 32 := by
  have ha := a.toNat_lt
  have hb := b.toNat_lt
  have hc := c.toNat_lt
  have hd := d.toNat_lt
  unfold le32
  omega

theorem bytes32_le32 (a b c d : UInt8) : bytes32 (le32 a b c d) = [a, b, c, d] := by
  have ha := a.toNat_lt
  have hb := b.toNat_lt
  have hc := c.toNat_lt
  have hd := d.toNat_lt
  have hbyte : ∀ (x : UInt8) (y : ℕ), y % 2 ^ 8 = x.toNat → UInt8.ofNat y = x := fun x y h => by
    rw [← UInt8.toNat_inj, UInt8.toNat_ofNat', h]
  unfold bytes32 le32
  rw [hbyte a _ (by omega), hbyte b _ (by omega), hbyte c _ (by omega), hbyte d _ (by omega)]

theorem le32_bytes32 (hv : v < 2 ^ 32) : le32 (UInt8.ofNat v) (UInt8.ofNat (v / 2 ^ 8))
    (UInt8.ofNat (v / 2 ^ 16)) (UInt8.ofNat (v / 2 ^ 24)) = v := by
  simp only [le32, UInt8.toNat_ofNat']
  omega

@[simp] theorem length_bytes32 (v : ℕ) : (bytes32 v).length = 4 := rfl

def wordStep (g : ℕ → ℕ → ℕ) (s : Place) : List UInt8 → Option (List UInt8 × Place)
  | a :: b :: c :: d :: _ => some (bytes32 (g s.1 (le32 a b c d)), s.skip 4)
  | _ => none

theorem wordStep_some (h : wordStep g s xs = some (out, s')) : ∃ a b c d rest,
    xs = a :: b :: c :: d :: rest ∧ out = bytes32 (g s.1 (le32 a b c d)) ∧ s' = s.skip 4 := by
  rcases xs with _ | ⟨a, _ | ⟨b, _ | ⟨c, _ | ⟨d, rest⟩⟩⟩⟩
  · cases h
  · cases h
  · cases h
  · cases h
  · cases h
    exact ⟨a, b, c, d, rest, rfl, rfl, rfl⟩

theorem wordStep_short (h : xs.length < 4) : wordStep g s xs = none := by
  rcases xs with _ | ⟨a, _ | ⟨b, _ | ⟨c, _ | ⟨d, rest⟩⟩⟩⟩
  · rfl
  · rfl
  · rfl
  · rfl
  · exact absurd h (by simp)

theorem wordStep_none (h : wordStep g s xs = none) : xs.length < 4 := by
  rcases xs with _ | ⟨a, _ | ⟨b, _ | ⟨c, _ | ⟨d, rest⟩⟩⟩⟩
  · simp
  · simp
  · simp
  · simp
  · cases h

theorem wordStep_pos (h : wordStep g s xs = some (out, s')) : 0 < out.length := by
  obtain ⟨a, b, c, d, rest, -, rfl, -⟩ := wordStep_some h
  exact Nat.succ_pos 3

theorem wordStep_le (h : wordStep g s xs = some (out, s')) : out.length ≤ xs.length := by
  obtain ⟨a, b, c, d, rest, rfl, rfl, -⟩ := wordStep_some h
  simp

theorem wordStep_stable {r : List UInt8 × Place} (ys : List UInt8) (h : wordStep g s xs = some r) :
    wordStep g s (xs ++ ys) = some r := by
  obtain ⟨a, b, c, d, rest, rfl, h1, h2⟩ := wordStep_some h
  exact h

/-- Four bytes at a time. -/
def wordRewriter (g : ℕ → ℕ → ℕ) : Rewriter UInt8 Place where
  step := wordStep g
  pos := wordStep_pos
  le := wordStep_le
  stable := wordStep_stable

/-- `f` at an index is `g` at the index's address. -/
theorem eachWord_reaches {f : ℕ → ℕ → ℕ} {pc m : ℕ} (hfg : ∀ i v, v < 2 ^ 32 →
    f i v = g (wordPc pc i) v) (i : ℕ) (xs : List UInt8) :
    ∃ out left, eachWord f i xs = out ++ left ∧ out.length = xs.length / 4 * 4 ∧
      left.length < 4 ∧
      (wordRewriter g).Reaches (wordPc pc i, m) xs out (wordPc pc (i + xs.length / 4), m) left := by
  induction hn : xs.length using Nat.strong_induction_on generalizing xs i with
  | _ n ih =>
      by_cases hlt : xs.length < 4
      · have heach : eachWord f i xs = xs := by
          rcases xs with _ | ⟨a, _ | ⟨b, _ | ⟨c, _ | ⟨d, rest⟩⟩⟩⟩
          · rfl
          · rfl
          · rfl
          · rfl
          · exact absurd hlt (by simp)
        have hdiv : n / 4 = 0 := by omega
        refine ⟨[], xs, heach, by rw [hdiv]; rfl, hlt, ?_⟩
        rw [hdiv]
        exact .refl _ _
      · rcases xs with _ | ⟨a, _ | ⟨b, _ | ⟨c, _ | ⟨d, rest⟩⟩⟩⟩
        · exact absurd (Nat.zero_lt_succ 3) hlt
        · exact absurd (by simp) hlt
        · exact absurd (by simp) hlt
        · exact absurd (by simp) hlt
        · simp only [List.length_cons] at hn
          obtain ⟨out, left, heach, hout, hleft, hreach⟩ := ih rest.length (by omega) (i + 1) rest rfl
          have hdiv : n / 4 = rest.length / 4 + 1 := by omega
          have hpc : Place.skip (wordPc pc i, m) 4 = (wordPc pc (i + 1), m) := by
            unfold Place.skip wordPc wrappingAdd32 u32
            rw [Prod.mk.injEq]
            omega
          refine ⟨bytes32 (g (wordPc pc i) (le32 a b c d)) ++ out, left, ?_, ?_, hleft, ?_⟩
          · rw [eachWord, heach, hfg i _ (le32_lt a b c d), List.append_assoc]
          · rw [List.length_append, length_bytes32, hout, hdiv]
            omega
          · have hstep : (wordRewriter g).step (wordPc pc i, m) (a :: b :: c :: d :: rest) =
                some (bytes32 (g (wordPc pc i) (le32 a b c d)), (wordPc pc (i + 1), m)) := by
              rw [← hpc]
              rfl
            refine .step hstep ?_
            rw [hdiv, show i + (rest.length / 4 + 1) = i + 1 + rest.length / 4 by omega]
            exact hreach

/-- A rewriter of words undoes another where its function does. -/
theorem wordRewriter_undo {g' : ℕ → ℕ → ℕ} (inv : ℕ → Prop)
    (hinv : ∀ pc, inv pc → inv (wrappingAdd32 pc 4))
    (hg : ∀ pc v, inv pc → v < 2 ^ 32 → g pc v < 2 ^ 32 ∧ g' pc (g pc v) = v)
    (hs : inv s.1) (xs : List UInt8) :
    (wordRewriter g').whole s ((wordRewriter g).whole s xs) = xs := by
  refine undo (fun s => inv s.1) ?_ ?_ ?_ hs xs
  · intro s xs out s' hs h
    obtain ⟨a, b, c, d, rest, rfl, rfl, rfl⟩ := wordStep_some h
    exact hinv _ hs
  · intro s xs out s' hs h
    obtain ⟨a, b, c, d, rest, rfl, rfl, rfl⟩ := wordStep_some h
    obtain ⟨hlt, hback⟩ := hg s.1 _ hs (le32_lt a b c d)
    change some (bytes32 (g' s.1 (le32 _ _ _ _)), s.skip 4) = _
    rw [le32_bytes32 hlt, hback, bytes32_le32]
    rfl
  · intro s xs hs h
    exact settled_none (wordStep_short (wordStep_none h))

end

end LzmaTurbo.Filters
