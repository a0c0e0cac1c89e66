import LzmaTurbo.Enc.FinderTables

/-!
# What the finder finds

A pair of a call is a repetition of the input: the hash answers for the first bytes of a low
table's position, the window for all others.
-/
namespace LzmaTurbo.Enc
open Machine FirstDiff

/-- A length and a distance less one, at which the input repeats within the dictionary. -/
structure TrueMatch (src : List UInt8) (hist P : ℕ) (pair : ℕ × ℕ) : Prop where
  two_le : 2 ≤ pair.1
  repeats : Repeats src P (pair.2 + 1) pair.1
  dist_le : pair.2 + 1 ≤ hist

/-- Matches of rising lengths up to `top`. -/
structure Found (src : List UInt8) (hist P top : ℕ) (found : List (ℕ × ℕ)) : Prop where
  real : ∀ pair ∈ found, TrueMatch src hist P pair
  rising : found.Pairwise (·.1 < ·.1)
  le_top : ∀ pair ∈ found, pair.1 ≤ top

section
variable {src : List UInt8} {hist P top len dist : ℕ} {found : List (ℕ × ℕ)}

theorem Found.nil (src : List UInt8) (hist P top : ℕ) : Found src hist P top [] :=
  ⟨fun _ h => absurd h List.not_mem_nil, .nil, fun _ h => absurd h List.not_mem_nil⟩

theorem Found.mono {top' : ℕ} (h : Found src hist P top found) (hle : top ≤ top') :
    Found src hist P top' found :=
  ⟨h.real, h.rising, fun p hp => (h.le_top p hp).trans hle⟩

theorem Found.snoc (h : Found src hist P top found) (hlt : top < len)
    (hm : TrueMatch src hist P (len, dist)) : Found src hist P len (found ++ [(len, dist)]) where
  real p hp := by
    rcases List.mem_append.mp hp with hp | hp
    · exact h.real p hp
    · rw [List.mem_singleton.mp hp]
      exact hm
  rising := by
    refine List.pairwise_append.mpr ⟨h.rising, List.pairwise_singleton _ _, fun a ha b hb => ?_⟩
    rw [List.mem_singleton.mp hb]
    exact (h.le_top a ha).trans_lt hlt
  le_top p hp := by
    rcases List.mem_append.mp hp with hp | hp
    · exact (h.le_top p hp).trans hlt.le
    · rw [List.mem_singleton.mp hp]

end

/-! ## Reading the window -/

/-- The first `len` bytes at `P` are those `d` before them. -/
def Agrees (src : List UInt8) (P d len : ℕ) : Prop := ∀ k < len, src[P + k]? = src[P + k - d]?

section
variable {m : MatchFinder} {src : List UInt8} {P A d k a len : ℕ}

theorem Windowed.byte (h : Windowed m src P A) (hk : k < A) :
    ∃ b, m.bufBase[m.buffer + k]? = some b ∧ src[P + k]? = some b := by
  have hle := h.buffer_le
  have hin := h.inside
  refine ⟨src[P + k], ?_, List.getElem?_eq_getElem (by omega)⟩
  rw [h.window _ (by omega), ← List.getElem?_eq_getElem]
  congr 1
  omega

theorem Windowed.back (h : Windowed m src P A) (hd : d ≤ m.buffer) (hk : k < A) :
    m.bufBase[m.buffer + k - d]? = src[P + k - d]? := by
  have hle := h.buffer_le
  rw [h.window _ (by omega)]
  congr 1
  omega

theorem Windowed.backByte (h : Windowed m src P A) (hd : d ≤ m.buffer) (hk : k < A) :
    ∃ b, m.bufBase[m.buffer + k - d]? = some b ∧ src[P + k - d]? = some b := by
  have hle := h.buffer_le
  have hin := h.inside
  have hlt : P + k - d < src.length := by omega
  rw [h.back hd hk]
  exact ⟨src[P + k - d], List.getElem?_eq_getElem hlt, List.getElem?_eq_getElem hlt⟩

/-- A distance within the dictionary and the input leads back into the window. -/
theorem Windowed.reach (h : Windowed m src P A) (hc : m.toFinderConfig.Ok) (hP : d ≤ P)
    (hd : d ≤ m.historySize) : d ≤ m.buffer := by
  have hcyc := hc.cyclicBufferSize
  have hkeep := hc.keepSizeBefore
  rcases h.history with heq | hle <;> omega

/-- The window's answer is the input's. -/
theorem Windowed.matchRun (h : Windowed m src P A) (hd : d ≤ m.buffer) (ha : a ≤ len)
    (hlen : len ≤ A) : ∃ r, Enc.matchRun m.bufBase d (m.buffer + a) (m.buffer + len) =
      .ok (m.buffer + r) ∧ a ≤ r ∧ r ≤ len ∧ (∀ k, a ≤ k → k < r → src[P + k]? = src[P + k - d]?) ∧
      (r < len → src[P + r]? ≠ src[P + r - d]?) := by
  have hlong := h.length_le
  have hle := h.buffer_le
  obtain ⟨c, hrun, h1, h2, h3, h4⟩ := @matchRun_spec m.bufBase d _ _
    (show d ≤ m.buffer + a by omega) (Nat.add_le_add_left ha m.buffer) (by omega)
  obtain ⟨r, rfl⟩ : ∃ r, c = m.buffer + r := ⟨c - m.buffer, by omega⟩
  have hfore : ∀ k < A, m.bufBase[m.buffer + k]? = src[P + k]? := by
    intro k hk
    rw [h.window _ (by omega)]
    congr 1
    omega
  refine ⟨r, hrun, by omega, by omega, fun k hak hk => ?_, fun hlt => ?_⟩
  · have hsame := h3 (m.buffer + k) (by omega) (by omega)
    rwa [hfore k (by omega), h.back hd (by omega)] at hsame
  · have hparts := h4 (by omega)
    rwa [hfore r (by omega), h.back hd (by omega)] at hparts

theorem TrueMatch.of_agrees {hist : ℕ} (h2 : 2 ≤ len) (hd : 1 ≤ d) (hP : d ≤ P)
    (hfits : P + len ≤ src.length) (h : Agrees src P d len) (hh : d ≤ hist) :
    TrueMatch src hist P (len, d - 1) := by
  have hdist : d - 1 + 1 = d := Nat.sub_add_cancel hd
  refine ⟨h2, ?_, by rwa [hdist]⟩
  rw [hdist]
  exact ⟨hd, hP, hfits, h⟩

end

/-! ## The low hashes -/

/-- Equal first bytes and equal hashes leave no choice for the second. -/
theorem hash2Of_inj {a b c : UInt8} (h : hash2Of a b = hash2Of a c) : b = c := by
  apply UInt8.toNat_inj.mp
  apply Nat.eq_of_testBit_eq
  intro i
  by_cases hi : i < 8
  · have hbit := congrArg (Nat.testBit · i) h
    simp only [hash2Of, Nat.testBit_and, Nat.testBit_xor] at hbit
    have hmask : Nat.testBit (kHash2Size - 1) i = true := by
      rw [show kHash2Size - 1 = 2 ^ 10 - 1 by decide, Nat.testBit_two_pow_sub_one]
      exact decide_eq_true (by omega)
    rw [hmask, Bool.and_true, Bool.and_true] at hbit
    exact Bool.xor_right_inj.mp hbit
  · have hhigh : ∀ x : UInt8, x.toNat.testBit i = false := fun x => by
      refine Nat.testBit_lt_two_pow (x.toNat_lt.trans_le ?_)
      exact Nat.pow_le_pow_right (by norm_num) (by omega)
    rw [hhigh, hhigh]

/-- Nor for the third, when it is in the hash. -/
theorem hash3Of_inj {a b b' c c' : UInt8} (h : hash3Of a b c = hash3Of a b' c') :
    b = b' ∧ c = c' := by
  have hhigh : ∀ (x : UInt8) i, 8 ≤ i → x.toNat.testBit i = false := fun x i hi => by
    refine Nat.testBit_lt_two_pow (x.toNat_lt.trans_le ?_)
    exact Nat.pow_le_pow_right (by norm_num) hi
  have hbits : ∀ i < 16, ((b.toNat.testBit i) ^^ (decide (8 ≤ i) && c.toNat.testBit (i - 8))) =
      ((b'.toNat.testBit i) ^^ (decide (8 ≤ i) && c'.toNat.testBit (i - 8))) := by
    intro i hi
    have hbit := congrArg (Nat.testBit · i) h
    simp only [hash3Of, Nat.testBit_and, Nat.testBit_xor, Nat.testBit_shiftLeft] at hbit
    have hmask : Nat.testBit (kHash3Size - 1) i = true := by
      rw [show kHash3Size - 1 = 2 ^ 16 - 1 by decide, Nat.testBit_two_pow_sub_one]
      exact decide_eq_true hi
    rw [hmask, Bool.and_true, Bool.and_true, Bool.xor_assoc, Bool.xor_assoc] at hbit
    exact Bool.xor_right_inj.mp hbit
  constructor <;> apply UInt8.toNat_inj.mp <;> apply Nat.eq_of_testBit_eq <;> intro i
  · by_cases hi : i < 8
    · have hbit := hbits i (by omega)
      rwa [decide_eq_false (by omega), Bool.false_and, Bool.false_and, Bool.xor_false,
        Bool.xor_false] at hbit
    · rw [hhigh b i (by omega), hhigh b' i (by omega)]
  · by_cases hi : i < 8
    · have hbit := hbits (i + 8) (by omega)
      rwa [decide_eq_true (Nat.le_add_left 8 i), Bool.true_and, Bool.true_and,
        Nat.add_sub_cancel, hhigh b _ (Nat.le_add_left 8 i), hhigh b' _ (Nat.le_add_left 8 i),
        Bool.false_xor, Bool.false_xor] at hbit
    · rw [hhigh c i (by omega), hhigh c' i (by omega)]

section
variable {src : List UInt8} {P pos i d : ℕ}

theorem LowDist.two (h : LowDist (hash2At src) P pos i d) (hd : d < pos)
    (hi : hash2At src P = some i) (h0 : src[P]? = src[P - d]?) (hP : d ≤ P) :
    Agrees src P d 2 := by
  obtain ⟨-, -, hback⟩ := h.resolve_left hd.ne
  rw [hash2At, Option.bind_eq_bind, Option.bind_eq_some_iff] at hi hback
  obtain ⟨b0, hb0, hi⟩ := hi
  obtain ⟨c0, hc0, hback⟩ := hback
  obtain ⟨b1, hb1, hi⟩ := Option.bind_eq_some_iff.mp hi
  obtain ⟨c1, hc1, hback⟩ := Option.bind_eq_some_iff.mp hback
  have hfirst : b0 = c0 := Option.some.inj (by rw [← hb0, h0, hc0])
  subst hfirst
  have hsecond := hash2Of_inj ((Option.some.inj hi).trans (Option.some.inj hback).symm)
  intro k hk
  obtain rfl | rfl : k = 0 ∨ k = 1 := by omega
  · exact h0
  · rw [hb1, hsecond, ← hc1]
    congr 1
    omega

theorem LowDist.three (h : LowDist (hash3At src) P pos i d) (hd : d < pos)
    (hi : hash3At src P = some i) (h0 : src[P]? = src[P - d]?) (hP : d ≤ P) :
    Agrees src P d 3 := by
  obtain ⟨-, -, hback⟩ := h.resolve_left hd.ne
  rw [hash3At, Option.bind_eq_bind, Option.bind_eq_some_iff] at hi hback
  obtain ⟨b0, hb0, hi⟩ := hi
  obtain ⟨c0, hc0, hback⟩ := hback
  obtain ⟨b1, hb1, hi⟩ := Option.bind_eq_some_iff.mp hi
  obtain ⟨c1, hc1, hback⟩ := Option.bind_eq_some_iff.mp hback
  obtain ⟨b2, hb2, hi⟩ := Option.bind_eq_some_iff.mp hi
  obtain ⟨c2, hc2, hback⟩ := Option.bind_eq_some_iff.mp hback
  have hfirst : b0 = c0 := Option.some.inj (by rw [← hb0, h0, hc0])
  subst hfirst
  obtain ⟨hsecond, hthird⟩ :=
    hash3Of_inj ((Option.some.inj hi).trans (Option.some.inj hback).symm)
  intro k hk
  obtain rfl | rfl | rfl : k = 0 ∨ k = 1 ∨ k = 2 := by omega
  · exact h0
  · rw [hb1, hsecond, ← hc1]
    congr 1
    omega
  · rw [hb2, hthird, ← hc2]
    congr 1
    omega

end

/-! ## The pairs of the low tables -/

namespace MatchFinder

section
variable {m : MatchFinder} {src : List UInt8} {P A o d d2 d3 h2 h3 : ℕ}

theorem setMmm_le (m : MatchFinder) : m.setMmm ≤ m.pos ∧ m.setMmm ≤ m.cyclicBufferSize := by
  unfold setMmm
  split <;> omega

/-- The first byte is looked at only within reach. -/
theorem firstAgrees_spec (hc : m.toFinderConfig.Ok) (hw : Windowed m src P A)
    (hP : P + 1 = m.pos + o) (hA : 0 < A) : ∃ r,
      m.firstAgrees m.buffer d m.setMmm = .ok r ∧ (r = true → d < m.pos ∧ d ≤ m.historySize ∧
        d ≤ P ∧ d ≤ m.buffer ∧ src[P]? = src[P - d]?) := by
  obtain ⟨hpos, hsize⟩ := m.setMmm_le
  have hcyc := hc.cyclicBufferSize
  unfold firstAgrees
  by_cases hd : d < m.setMmm
  · have hreach := hw.reach hc (show d ≤ P by omega) (by omega)
    obtain ⟨b, hb, hsrc⟩ := hw.byte hA
    obtain ⟨b', hb', hsrc'⟩ := hw.backByte hreach hA
    rw [Nat.add_zero] at hb hsrc hb' hsrc'
    rw [if_pos hd, sub_ok hreach, ok_bind, byteAt_ok hb', ok_bind, byteAt_ok hb, ok_bind]
    refine ⟨_, rfl, fun heq => ⟨by omega, by omega, by omega, hreach, ?_⟩⟩
    rw [hsrc, hsrc', UInt8.toNat_inj.mp (of_decide_eq_true heq)]
  · rw [if_neg hd]
    exact ⟨false, rfl, fun h => by cases h⟩

/-- What is left to compare agrees in three bytes already. -/
theorem lowPairs_spec (hc : m.toFinderConfig.Ok) (hw : Windowed m src P A)
    (hP : P + 1 = m.pos + o) (hA : 3 ≤ A) (htwo : hash2At src P = some h2)
    (hthree : hash3At src P = some h3) (hd2 : LowDist (hash2At src) P m.pos h2 d2)
    (hd3 : LowDist (hash3At src) P m.pos h3 d3) : ∃ found back,
      m.lowPairs m.buffer d2 d3 = .ok (found, back) ∧ Found src m.historySize P 2 found ∧
      ∀ d, back = some d → 1 ≤ d ∧ d ≤ P ∧ d ≤ m.historySize ∧ d ≤ m.buffer ∧
        Agrees src P d 3 := by
  have hin := hw.inside
  obtain ⟨r2, hr2, hfirst2⟩ := firstAgrees_spec (d := d2) hc hw hP (by omega)
  obtain ⟨r3, hr3, hfirst3⟩ := firstAgrees_spec (d := d3) hc hw hP (by omega)
  have hthird : r3 = true → 1 ≤ d3 ∧ d3 ≤ P ∧ d3 ≤ m.historySize ∧ d3 ≤ m.buffer ∧
      Agrees src P d3 3 := fun h => by
    obtain ⟨hlt, hhist, hle, hreach, h0⟩ := hfirst3 h
    exact ⟨(hd3.resolve_left hlt.ne).1, hle, hhist, hreach, hd3.three hlt hthree h0 hle⟩
  unfold lowPairs
  simp only [hr2, ok_bind]
  cases r2 with
  | false =>
      simp only [Bool.false_eq_true, if_false, hr3, ok_bind]
      cases r3 with
      | false =>
          exact ⟨[], none, rfl, .nil _ _ _ _, fun _ h => by cases h⟩
      | true =>
          refine ⟨[], some d3, rfl, .nil _ _ _ _, fun d h => ?_⟩
          cases h
          exact hthird rfl
  | true =>
      obtain ⟨hlt, hhist, hle, hreach, h0⟩ := hfirst2 rfl
      have hone := (hd2.resolve_left hlt.ne).1
      have hagree := hd2.two hlt htwo h0 hle
      obtain ⟨b, hb, hsrc⟩ := hw.byte (show 2 < A by omega)
      obtain ⟨b', hb', hsrc'⟩ := hw.backByte hreach (show 2 < A by omega)
      have hindex : m.buffer - d2 + 2 = m.buffer + 2 - d2 := by omega
      have hpair : Found src m.historySize P 2 [(2, d2 - 1)] :=
        (Found.nil src m.historySize P 1).snoc (by omega)
          (.of_agrees le_rfl hone hle (by omega) hagree hhist)
      simp only [if_true, sub_ok hreach, ok_bind, hindex, byteAt_ok hb, byteAt_ok hb']
      by_cases hsame : b'.toNat = b.toNat
      · rw [if_pos hsame]
        refine ⟨[], some d2, rfl, .nil _ _ _ _, fun d h => ?_⟩
        cases h
        refine ⟨hone, hle, hhist, hreach, fun k hk => ?_⟩
        by_cases hk2 : k < 2
        · exact hagree k hk2
        · obtain rfl : k = 2 := by omega
          rw [hsrc, hsrc', UInt8.toNat_inj.mp hsame]
      · simp only [if_neg hsame, sub_ok hone, ok_bind, hr3]
        cases r3 with
        | false => exact ⟨_, none, rfl, hpair, fun _ h => by cases h⟩
        | true =>
            refine ⟨_, some d3, rfl, hpair, fun d h => ?_⟩
            cases h
            exact hthird rfl

/-- From `a` bytes that agree to all that do. -/
theorem updateMaxLen_spec {a len : ℕ} (hw : Windowed m src P A) (hd : d ≤ m.buffer)
    (ha : Agrees src P d a) (hle : a ≤ len) (hlen : len ≤ A) : ∃ r,
      m.updateMaxLen m.buffer d a len = .ok r ∧ a ≤ r ∧ r ≤ len ∧ Agrees src P d r := by
  obtain ⟨r, hrun, h1, h2, hsame, -⟩ := hw.matchRun hd hle hlen
  refine ⟨r, ?_, h1, h2, fun k hk => ?_⟩
  · rw [updateMaxLen, hrun, ok_bind, sub_ok (Nat.le_add_right _ _), Nat.add_sub_cancel_left]
  · by_cases hka : k < a
    · exact ha k hka
    · exact hsame k (by omega) hk

/-! ## The chain -/

/-- What a link leaves: the next position lies before this one, the pairs are real. -/
def Walk.Good (src : List UInt8) (hist P pos len : ℕ) (pre : List (ℕ × ℕ)) : Walk → Prop
  | .done found => Found src hist P len (pre ++ found)
  | .more curMatch maxLen found =>
      curMatch < pos ∧ 2 ≤ maxLen ∧ maxLen < len ∧ Found src hist P maxLen (pre ++ found)

theorem hcTurn_spec {curMatch maxLen len : ℕ} {pre found : List (ℕ × ℕ)}
    (hc : m.toFinderConfig.Ok) (hw : Windowed m src P A) (hP : P + 1 = m.pos + o)
    (hlinks : Links m.toFinderConfig m.pos m.cyclicBufferPos m.hash)
    (hlt : curMatch < m.pos) (h2 : 2 ≤ maxLen) (hmax : maxLen < len) (hlen : len ≤ A)
    (hfound : Found src m.historySize P maxLen (pre ++ found)) : ∃ walk,
      m.hcTurn m.buffer (m.buffer + len) curMatch maxLen found = .ok walk ∧
      walk.Good src m.historySize P m.pos len pre := by
  have hcyc := hc.cyclicBufferSize
  have hin := hw.inside
  unfold hcTurn
  by_cases hzero : curMatch = 0
  · rw [if_pos hzero]
    exact ⟨_, rfl, hfound.mono hmax.le⟩
  rw [if_neg hzero, sub_ok hlt.le, ok_bind]
  generalize hd : m.pos - curMatch = d
  by_cases hfar : m.cyclicBufferSize ≤ d
  · rw [if_pos hfar]
    exact ⟨_, rfl, hfound.mono hmax.le⟩
  have hone : 1 ≤ d := by omega
  have hdP : d ≤ P := by omega
  have hhist : d ≤ m.historySize := by omega
  have hreach := hw.reach hc hdP hhist
  obtain ⟨next, hget, hnext⟩ := hlinks.back d hone (by omega) (by omega)
  have hback : cyclicBack m.cyclicBufferPos d m.cyclicBufferSize =
      .ok (sonIndex m.toFinderConfig m.cyclicBufferPos d - m.sonBase) := by
    unfold cyclicBack sonIndex
    rw [Nat.add_sub_cancel_left]
    split
    · rw [sub_ok (by omega)]
    · rfl
  have hindex : m.sonBase + (sonIndex m.toFinderConfig m.cyclicBufferPos d - m.sonBase) =
      sonIndex m.toFinderConfig m.cyclicBufferPos d := by
    unfold sonIndex
    omega
  obtain ⟨b, hb, hsrc⟩ := hw.byte (show maxLen < A by omega)
  obtain ⟨b', hb', hsrc'⟩ := hw.backByte hreach (show maxLen < A by omega)
  rw [if_neg hfar, hback, ok_bind, hindex, get_ok hget, ok_bind, byteAt_ok hb, ok_bind,
    sub_ok (by omega), ok_bind, byteAt_ok hb', ok_bind]
  have hgo : next < m.pos := by omega
  by_cases hbyte : b.toNat = b'.toNat
  · obtain ⟨r, hrun, -, hr, hsame, -⟩ := hw.matchRun hreach (Nat.zero_le len) hlen
    rw [Nat.add_zero] at hrun
    have hpair : ∀ n ≤ r, 2 ≤ n → TrueMatch src m.historySize P (n, d - 1) := fun n hn hn2 =>
      .of_agrees hn2 hone hdP (by omega) (fun k hk => hsame k (Nat.zero_le k) (by omega)) hhist
    rw [if_pos hbyte, hrun, ok_bind, sub_ok hone, ok_bind]
    by_cases hall : m.buffer + r = m.buffer + len
    · obtain rfl : r = len := by omega
      rw [if_pos hall, Nat.add_sub_cancel_left]
      refine ⟨_, rfl, ?_⟩
      change Found _ _ _ _ (pre ++ (found ++ _))
      rw [← List.append_assoc]
      exact hfound.snoc hmax (hpair r le_rfl (by omega))
    · rw [if_neg hall, Nat.add_sub_cancel_left]
      by_cases hlonger : maxLen < r
      · simp only [if_pos hlonger]
        refine ⟨_, rfl, hgo, by omega, by omega, ?_⟩
        rw [← List.append_assoc]
        exact hfound.snoc hlonger (hpair r le_rfl (by omega))
      · simp only [if_neg hlonger]
        exact ⟨_, rfl, hgo, h2, hmax, hfound⟩
  · rw [if_neg hbyte]
    exact ⟨_, rfl, hgo, h2, hmax, hfound⟩

/-- At most `cut` links are followed. -/
theorem hcWalk_spec {cut curMatch maxLen len : ℕ} {pre found : List (ℕ × ℕ)}
    (hc : m.toFinderConfig.Ok) (hw : Windowed m src P A) (hP : P + 1 = m.pos + o)
    (hlinks : Links m.toFinderConfig m.pos m.cyclicBufferPos m.hash) (hcut : 0 < cut)
    (hlt : curMatch < m.pos) (h2 : 2 ≤ maxLen) (hmax : maxLen < len) (hlen : len ≤ A)
    (hfound : Found src m.historySize P maxLen (pre ++ found)) : ∃ more,
      m.hcWalk m.buffer (m.buffer + len) cut curMatch maxLen found = .ok more ∧
      Found src m.historySize P len (pre ++ more) := by
  induction cut generalizing curMatch maxLen found with
  | zero => exact absurd hcut (Nat.lt_irrefl 0)
  | succ cut ih =>
      obtain ⟨walk, hturn, hgood⟩ := hcTurn_spec hc hw hP hlinks hlt h2 hmax hlen hfound
      rw [hcWalk, hturn, ok_bind]
      cases walk with
      | done more => exact ⟨more, rfl, hgood⟩
      | more next longest more =>
          obtain ⟨hgo, h2', hmax', hfound'⟩ := hgood
          by_cases hlast : cut = 0
          · simp only [if_pos hlast]
            exact ⟨more, rfl, hfound'.mono hmax'.le⟩
          · simp only [if_neg hlast]
            exact ih (Nat.pos_of_ne_zero hlast) hgo h2' hmax' hfound'

end
end MatchFinder

end LzmaTurbo.Enc
