import LzmaTurbo.Filters.BcjBytes

/-!
# Thumb long branches

A long branch is two halfwords with prefixes of their own. Halfwords are passed over
one at a time, and a conversion keeps every prefix.
-/
namespace LzmaTurbo.Filters
open Machine BitFields Rewriter

section
variable {e : Bool} {pc word n fuel : ℕ} {xs ys done out : List UInt8} {s s' : Place}

/-- An address added to a field of few bits is taken back from it. -/
theorem convertVal_back {v c : ℕ} (hn : n ≤ 32) (hv : v < 2 ^ n) (hc : c ≤ 2 ^ 32) :
    convertVal (convertVal v c true % 2 ^ n) c false % 2 ^ n = v := by
  have hdvd : 2 ^ n ∣ 2 ^ 32 := Nat.pow_dvd_pow 2 hn
  simp only [convertVal, wrappingAdd32, wrappingSub32, if_true, Bool.false_eq_true, if_false]
  generalize 2 ^ 32 = N at hdvd hc
  generalize 2 ^ n = k at hdvd hv
  calc ((v + c) % N % k + N - c) % N % k
      = ((v + c) % k + (N - c)) % k := by
        rw [Nat.mod_mod_of_dvd _ hdvd, Nat.mod_mod_of_dvd _ hdvd, Nat.add_sub_assoc hc]
    _ = (v + N) % k := by
        rw [Nat.mod_add_mod, Nat.add_assoc, Nat.add_sub_cancel' hc]
    _ = v := by
        rw [Nat.add_mod, Nat.mod_eq_zero_of_dvd hdvd, Nat.add_zero, Nat.mod_mod,
          Nat.mod_eq_of_lt hv]

/-- Only the field's bits of a value count for its bits after a conversion. -/
theorem convertVal_field {v v' c : ℕ} (e : Bool) (hn : n ≤ 32) (hv : v % 2 ^ n = v' % 2 ^ n)
    (hc : c ≤ 2 ^ 32) : convertVal v c e % 2 ^ n = convertVal v' c e % 2 ^ n := by
  have hdvd : 2 ^ n ∣ 2 ^ 32 := Nat.pow_dvd_pow 2 hn
  unfold convertVal wrappingAdd32 wrappingSub32
  generalize 2 ^ 32 = N at hdvd hc
  generalize 2 ^ n = k at hdvd hv
  split
  · rw [Nat.mod_mod_of_dvd _ hdvd, Nat.mod_mod_of_dvd _ hdvd, ← Nat.mod_add_mod, hv,
      Nat.mod_add_mod]
  · rw [Nat.mod_mod_of_dvd _ hdvd, Nat.mod_mod_of_dvd _ hdvd, Nat.add_sub_assoc hc,
      Nat.add_sub_assoc hc, ← Nat.mod_add_mod, hv, Nat.mod_add_mod]

/-- Whether a word is a long branch. -/
def thumbHit (word : ℕ) : Prop := word / 2 ^ 11 % 2 ^ 5 = 30 ∧ word / 2 ^ 27 = 31

instance (word : ℕ) : Decidable (thumbHit word) := inferInstanceAs (Decidable (_ ∧ _))

theorem thumb_test (hw : word < 2 ^ 32) : word &&& 0xF800F800 = 0xF800F000 ↔ thumbHit word := by
  have hmask : word &&& 0xF800F800 = word / 2 ^ 27 * 2 ^ 27 + word / 2 ^ 11 % 2 ^ 5 * 2 ^ 11 := by
    have hconst : 0xF800F800 = (((2 ^ 5 - 1) * 2 ^ 11) ||| ((2 ^ 5 - 1) * 2 ^ 27)) := rfl
    have hhigh : word / 2 ^ 27 % 2 ^ 5 = word / 2 ^ 27 := Nat.mod_eq_of_lt (by omega)
    have hlow : word / 2 ^ 11 % 2 ^ 5 * 2 ^ 11 < 2 ^ 27 := by omega
    rw [hconst, Nat.and_or_distrib_left, and_field, and_field, hhigh, or_add hlow]
  rw [hmask, thumbHit]
  have hlt : word / 2 ^ 11 % 2 ^ 5 < 2 ^ 5 := Nat.mod_lt _ (by norm_num)
  generalize word / 2 ^ 11 % 2 ^ 5 = y at hlt
  generalize word / 2 ^ 27 = x
  omega

/-- A branch's distance, of 22 bits. -/
def thumbValue (word : ℕ) : ℕ := word % 2 ^ 11 * 2 ^ 11 + word / 2 ^ 16 % 2 ^ 11

def thumbMake (v : ℕ) : ℕ := (31 * 2 ^ 11 + v % 2 ^ 11) * 2 ^ 16 + (30 * 2 ^ 11 + v / 2 ^ 11 % 2 ^ 11)

theorem thumbMake_lt (v : ℕ) : thumbMake v < 2 ^ 32 := by
  have h1 : v % 2 ^ 11 < 2 ^ 11 := Nat.mod_lt _ (by norm_num)
  have h2 : v / 2 ^ 11 % 2 ^ 11 < 2 ^ 11 := Nat.mod_lt _ (by norm_num)
  unfold thumbMake
  omega

theorem thumbHit_make (v : ℕ) : thumbHit (thumbMake v) := by
  have h1 : v % 2 ^ 11 < 2 ^ 11 := Nat.mod_lt _ (by norm_num)
  have h2 : v / 2 ^ 11 % 2 ^ 11 < 2 ^ 11 := Nat.mod_lt _ (by norm_num)
  unfold thumbHit thumbMake
  generalize v % 2 ^ 11 = x at *
  generalize v / 2 ^ 11 % 2 ^ 11 = y at *
  omega

theorem thumbValue_make (v : ℕ) : thumbValue (thumbMake v) = v % 2 ^ 22 := by
  have h1 : v % 2 ^ 11 < 2 ^ 11 := Nat.mod_lt _ (by norm_num)
  have h2 : v / 2 ^ 11 % 2 ^ 11 < 2 ^ 11 := Nat.mod_lt _ (by norm_num)
  have hv : v % 2 ^ 22 = v / 2 ^ 11 % 2 ^ 11 * 2 ^ 11 + v % 2 ^ 11 := by omega
  rw [hv, thumbValue, thumbMake]
  generalize v % 2 ^ 11 = x at h1
  generalize v / 2 ^ 11 % 2 ^ 11 = y at h2
  have hlow : ((31 * 2 ^ 11 + x) * 2 ^ 16 + (30 * 2 ^ 11 + y)) % 2 ^ 11 = y := by omega
  have hhigh : ((31 * 2 ^ 11 + x) * 2 ^ 16 + (30 * 2 ^ 11 + y)) / 2 ^ 16 % 2 ^ 11 = x := by omega
  rw [hlow, hhigh]

theorem thumbMake_value (h : thumbHit word) : thumbMake (thumbValue word) = word := by
  obtain ⟨h1, h2⟩ := h
  have hx : word % 2 ^ 11 < 2 ^ 11 := Nat.mod_lt _ (by norm_num)
  have hy : word / 2 ^ 16 % 2 ^ 11 < 2 ^ 11 := Nat.mod_lt _ (by norm_num)
  have hlow : thumbValue word % 2 ^ 11 = word / 2 ^ 16 % 2 ^ 11 := by
    unfold thumbValue
    generalize word / 2 ^ 16 % 2 ^ 11 = y at hy
    omega
  have hhigh : thumbValue word / 2 ^ 11 % 2 ^ 11 = word % 2 ^ 11 := by
    unfold thumbValue
    generalize word / 2 ^ 16 % 2 ^ 11 = y at hy
    generalize word % 2 ^ 11 = x at hx
    omega
  rw [thumbMake, hlow, hhigh]
  clear hlow hhigh hx hy
  omega

theorem thumbMake_mod (v : ℕ) : thumbMake (v % 2 ^ 22) = thumbMake v := by
  have h1 : v % 2 ^ 22 % 2 ^ 11 = v % 2 ^ 11 := by omega
  have h2 : v % 2 ^ 22 / 2 ^ 11 % 2 ^ 11 = v / 2 ^ 11 % 2 ^ 11 := by omega
  rw [thumbMake, thumbMake, h1, h2]

/-- The word of a long branch at `pc`, converted. -/
def thumbWord (e : Bool) (pc word : ℕ) : ℕ :=
  thumbMake (convertVal (thumbValue word) (wrappingAdd32 pc 4 >>> 1) e)

theorem thumbWord_undo (h : thumbHit word) : thumbWord false pc (thumbWord true pc word) = word := by
  have hc : wrappingAdd32 pc 4 >>> 1 < 2 ^ 32 := by
    rw [Nat.shiftRight_eq_div_pow, wrappingAdd32]
    omega
  have hv : thumbValue word < 2 ^ 22 := by
    unfold thumbValue
    omega
  generalize hval : thumbValue word = v at hv
  generalize hat : wrappingAdd32 pc 4 >>> 1 = c at hc
  have hback := convertVal_back (n := 22) (by omega) hv hc.le
  rw [thumbWord, hat, thumbWord, hat, thumbValue_make, hval, ← thumbMake_mod, hback, ← hval,
    thumbMake_value h]

/-- The halfwords the source writes, from those it reads. -/
theorem thumbWord_halves (word : ℕ) (e : Bool) (pc : ℕ) {v : ℕ}
    (hv : v = armtPair (wrappingAdd32 pc 4 >>> 1) e (word % 2 ^ 16) (word / 2 ^ 16)) :
    thumbWord e pc word =
      (v ||| 0xF800) % 2 ^ 16 * 2 ^ 16 + (((v >>> 11) &&& 0x7FF) ||| 0xF000) := by
  have hx : v % 2 ^ 11 < 2 ^ 11 := Nat.mod_lt _ (by norm_num)
  have hy : v / 2 ^ 11 % 2 ^ 11 < 2 ^ 11 := Nat.mod_lt _ (by norm_num)
  have hfirst : ((v >>> 11) &&& 0x7FF) ||| 0xF000 = 30 * 2 ^ 11 + v / 2 ^ 11 % 2 ^ 11 := by
    have hmask : (v >>> 11) &&& 0x7FF = v / 2 ^ 11 % 2 ^ 11 := by
      rw [Nat.shiftRight_eq_div_pow]
      exact Nat.and_two_pow_sub_one_eq_mod _ 11
    have hconst : 0xF000 = 30 * 2 ^ 11 := rfl
    rw [hmask, hconst, or_add hy]
  have hsecond : (v ||| 0xF800) % 2 ^ 16 = 31 * 2 ^ 11 + v % 2 ^ 11 := by
    have hsplit : v % 2 ^ 16 = v / 2 ^ 11 % 2 ^ 5 * 2 ^ 11 + v % 2 ^ 11 := by omega
    have hconst : 0xF800 % 2 ^ 16 = (2 ^ 5 - 1) * 2 ^ 11 := rfl
    have hlow : v / 2 ^ 11 % 2 ^ 5 ||| (2 ^ 5 - 1) = 2 ^ 5 - 1 := or_low (Nat.mod_lt _ (by norm_num))
    rw [Nat.or_mod_two_pow, hsplit, hconst, ← add_or hx, Nat.or_comm (_ * 2 ^ 11), Nat.or_assoc,
      or_mul_two_pow, hlow, or_add hx]
    rfl
  have hval : v % 2 ^ 22 = convertVal (thumbValue word) (wrappingAdd32 pc 4 >>> 1) e % 2 ^ 22 := by
    have hc : wrappingAdd32 pc 4 >>> 1 ≤ 2 ^ 32 := by
      rw [Nat.shiftRight_eq_div_pow, wrappingAdd32]
      omega
    have hpair : (word % 2 ^ 16) <<< 11 ||| (word / 2 ^ 16 &&& 0x7FF) =
        word % 2 ^ 16 * 2 ^ 11 + word / 2 ^ 16 % 2 ^ 11 := by
      have hmask : word / 2 ^ 16 &&& 0x7FF = word / 2 ^ 16 % 2 ^ 11 :=
        Nat.and_two_pow_sub_one_eq_mod _ 11
      rw [hmask, Nat.shiftLeft_eq, add_or (Nat.mod_lt _ (by norm_num))]
    rw [hv, armtPair, hpair]
    refine convertVal_field e (by omega) ?_ hc
    have hlow : word / 2 ^ 16 % 2 ^ 11 < 2 ^ 11 := Nat.mod_lt _ (by norm_num)
    have hmod : word % 2 ^ 11 = word % 2 ^ 16 % 2 ^ 11 := by omega
    rw [thumbValue, hmod]
    generalize word / 2 ^ 16 % 2 ^ 11 = y at hlow
    generalize word % 2 ^ 16 = x
    clear hv hpair hmod hx hy hfirst hsecond
    omega
  rw [hfirst, hsecond, thumbWord, ← thumbMake_mod, ← hval, thumbMake_mod, thumbMake]

/-- A long branch is converted, any other halfword stays. -/
def thumbStep (e : Bool) (s : Place) : List UInt8 → Option (List UInt8 × Place)
  | a :: b :: c :: d :: _ =>
      if thumbHit (le32 a b c d) then some (bytes32 (thumbWord e s.1 (le32 a b c d)), s.skip 4)
      else some ([a, b], s.skip 2)
  | _ => none

theorem thumbStep_some (h : thumbStep e s xs = some (out, s')) : ∃ a b c d rest,
    xs = a :: b :: c :: d :: rest ∧
      ((thumbHit (le32 a b c d) ∧ out = bytes32 (thumbWord e s.1 (le32 a b c d)) ∧ s' = s.skip 4) ∨
        (¬thumbHit (le32 a b c d) ∧ out = [a, b] ∧ s' = s.skip 2)) := by
  rcases xs with _ | ⟨a, _ | ⟨b, _ | ⟨c, _ | ⟨d, rest⟩⟩⟩⟩
  · cases h
  · cases h
  · cases h
  · cases h
  · refine ⟨a, b, c, d, rest, rfl, ?_⟩
    by_cases hit : thumbHit (le32 a b c d)
    · rw [thumbStep, if_pos hit] at h
      cases h
      exact .inl ⟨hit, rfl, rfl⟩
    · rw [thumbStep, if_neg hit] at h
      cases h
      exact .inr ⟨hit, rfl, rfl⟩

theorem thumbStep_short (h : xs.length < 4) : thumbStep e s xs = none := by
  rcases xs with _ | ⟨a, _ | ⟨b, _ | ⟨c, _ | ⟨d, rest⟩⟩⟩⟩
  · rfl
  · rfl
  · rfl
  · rfl
  · exact absurd h (by simp)

theorem thumbStep_none (h : thumbStep e s xs = none) : xs.length < 4 := by
  rcases xs with _ | ⟨a, _ | ⟨b, _ | ⟨c, _ | ⟨d, rest⟩⟩⟩⟩
  · simp
  · simp
  · simp
  · simp
  · rw [thumbStep] at h
    split at h
    · cases h
    · cases h

theorem thumbStep_pos (h : thumbStep e s xs = some (out, s')) : 0 < out.length := by
  obtain ⟨a, b, c, d, rest, -, ⟨-, rfl, -⟩ | ⟨-, rfl, -⟩⟩ := thumbStep_some h
  · exact Nat.succ_pos 3
  · exact Nat.succ_pos 1

theorem thumbStep_le (h : thumbStep e s xs = some (out, s')) : out.length ≤ xs.length := by
  obtain ⟨a, b, c, d, rest, rfl, ⟨-, rfl, -⟩ | ⟨-, rfl, -⟩⟩ := thumbStep_some h
  · simp
  · simp

theorem thumbStep_stable {r : List UInt8 × Place} (ys : List UInt8) (h : thumbStep e s xs = some r) :
    thumbStep e s (xs ++ ys) = some r := by
  obtain ⟨a, b, c, d, rest, rfl, -⟩ := @thumbStep_some _ _ r.1 _ r.2 h
  exact h

/-- A halfword or a long branch at a time. -/
def thumbRewriter (e : Bool) : Rewriter UInt8 Place where
  step := thumbStep e
  pos := thumbStep_pos
  le := thumbStep_le
  stable := thumbStep_stable

theorem thumb_hit_iff (a b c d : UInt8) :
    thumbHit (le32 a b c d) ↔ b.toNat / 8 = 30 ∧ d.toNat / 8 = 31 := by
  have ha := a.toNat_lt
  have hb := b.toNat_lt
  have hc := c.toNat_lt
  have hd := d.toNat_lt
  have h1 : le32 a b c d / 2 ^ 11 % 2 ^ 5 = b.toNat / 8 := by
    unfold le32
    omega
  have h2 : le32 a b c d / 2 ^ 27 = d.toNat / 8 := by
    unfold le32
    omega
  rw [thumbHit, h1, h2]

/-- The prefix of the first halfword is kept. -/
theorem thumb_prefix (s : Place) (c d : UInt8) (rest : List UInt8) :
    ∃ c' d' rest', (thumbRewriter e).whole s (c :: d :: rest) = c' :: d' :: rest' ∧
      d'.toNat / 8 = d.toNat / 8 := by
  rcases hr : thumbStep e s (c :: d :: rest) with _ | ⟨o, s1⟩
  · exact ⟨c, d, rest, whole_none hr, rfl⟩
  · obtain ⟨a, b, c1, d1, tail, hxs, hcase⟩ := thumbStep_some hr
    cases hxs
    have hstep : (thumbRewriter e).step s (c :: d :: c1 :: d1 :: tail) = some (o, s1) := hr
    rw [whole_some hstep]
    rcases hcase with ⟨hit, rfl, -⟩ | ⟨-, rfl, -⟩
    · refine ⟨_, _, _, rfl, ?_⟩
      have hkeep := ((thumb_hit_iff c d c1 d1).mp hit).1
      have hmake := thumbHit_make
        (convertVal (thumbValue (le32 c d c1 d1)) (wrappingAdd32 s.1 4 >>> 1) e)
      rw [← thumbWord] at hmake
      have hlt := thumbMake_lt (convertVal (thumbValue (le32 c d c1 d1))
        (wrappingAdd32 s.1 4 >>> 1) e)
      rw [← thumbWord] at hlt
      rw [← le32_bytes32 hlt, thumb_hit_iff] at hmake
      rw [hkeep, hmake.1]
    · exact ⟨c, d, _, rfl, rfl⟩

theorem thumbRewriter_undo (s : Place) (xs : List UInt8) :
    (thumbRewriter false).whole s ((thumbRewriter true).whole s xs) = xs := by
  refine undo (fun _ => True) (fun _ _ => trivial) ?_ ?_ trivial xs
  · intro s xs out s' _ h
    obtain ⟨a, b, c, d, rest, rfl, ⟨hit, rfl, rfl⟩ | ⟨hmiss, rfl, rfl⟩⟩ := thumbStep_some h
    · have hlt : thumbWord true s.1 (le32 a b c d) < 2 ^ 32 := thumbMake_lt _
      have hhit : thumbHit (thumbWord true s.1 (le32 a b c d)) := thumbHit_make _
      change (if thumbHit (le32 _ _ _ _) then some (bytes32 (thumbWord false s.1 (le32 _ _ _ _)), _)
        else _) = _
      rw [le32_bytes32 hlt, if_pos hhit, thumbWord_undo hit, bytes32_le32]
      rfl
    · obtain ⟨c', d', rest', hwhole, hkeep⟩ := thumb_prefix (e := true) (s.skip 2) c d rest
      change thumbStep false s
        ([a, b] ++ (thumbRewriter true).whole (s.skip 2) (c :: d :: rest)) = _
      rw [hwhole]
      have hmiss' : ¬thumbHit (le32 a b c' d') := by
        rw [thumb_hit_iff, hkeep, ← thumb_hit_iff a b c d]
        exact hmiss
      exact if_neg hmiss'
  · intro s xs _ h
    exact settled_none (thumbStep_short (thumbStep_none h))

theorem wrappingAdd32_u32 (a b : ℕ) : wrappingAdd32 a (u32 b) = wrappingAdd32 a b := by
  unfold wrappingAdd32 u32
  omega

theorem wrappingAdd32_assoc (a b c : ℕ) :
    wrappingAdd32 (wrappingAdd32 a b) c = wrappingAdd32 a (b + c) := by
  unfold wrappingAdd32
  omega

theorem thumbStep_hit {a b c d : UInt8} (h : thumbHit (le32 a b c d)) (s : Place) :
    (thumbRewriter e).step s (a :: b :: c :: d :: xs) =
      some (bytes32 (thumbWord e s.1 (le32 a b c d)), s.skip 4) := if_pos h

theorem thumbStep_miss {a b c d : UInt8} (h : ¬thumbHit (le32 a b c d)) (s : Place) :
    (thumbRewriter e).step s (a :: b :: c :: d :: xs) = some ([a, b], s.skip 2) := if_neg h

/-- The word a turn of the source writes. -/
theorem thumb_written (word : ℕ) (e : Bool) (pc : ℕ) {v : ℕ}
    (hv : v = armtPair (wrappingAdd32 pc 4 >>> 1) e (word % 2 ^ 16) (word / 2 ^ 16)) :
    ((((v >>> 11) &&& 0x7FF) ||| 0xF000) ||| u32 ((v ||| 0xF800) <<< 16)) = thumbWord e pc word := by
  have hfirst : ((v >>> 11) &&& 0x7FF) ||| 0xF000 < 2 ^ 16 :=
    Nat.or_lt_two_pow (Nat.lt_of_le_of_lt Nat.and_le_right (by norm_num)) (by norm_num)
  have hshift : u32 ((v ||| 0xF800) <<< 16) = (v ||| 0xF800) % 2 ^ 16 * 2 ^ 16 := by
    rw [Nat.shiftLeft_eq, u32]
    generalize v ||| 0xF800 = w
    omega
  rw [hshift, or_add hfirst, thumbWord_halves word e pc hv]

theorem armtWordLoop_reaches (pc k p : ℕ) (xs : List UInt8) :
    ∃ out left s', armtWordLoop pc e p xs = (out ++ left, p + out.length) ∧ left.length < 4 ∧
      s'.2 = k ∧ (thumbRewriter e).Reaches (wrappingAdd32 pc p, k) xs out s' left := by
  induction hn : xs.length using Nat.strong_induction_on generalizing xs p with
  | _ n ih =>
      rcases xs with _ | ⟨a, _ | ⟨b, _ | ⟨c, _ | ⟨d, rest⟩⟩⟩⟩
      · exact ⟨[], [], _, rfl, by simp, rfl, .refl _ _⟩
      · exact ⟨[], [a], _, rfl, by simp, rfl, .refl _ _⟩
      · exact ⟨[], [a, b], _, rfl, by simp, rfl, .refl _ _⟩
      · exact ⟨[], [a, b, c], _, rfl, by simp, rfl, .refl _ _⟩
      · simp only [List.length_cons] at hn
        have hw := le32_lt a b c d
        by_cases hit : thumbHit (le32 a b c d)
        · obtain ⟨out, left, s', hrun, hleft, hk, hreach⟩ := ih rest.length (by omega) (p + 4) rest rfl
          have hfst : le32 a b c d &&& 0xFFFF = le32 a b c d % 2 ^ 16 :=
            Nat.and_two_pow_sub_one_eq_mod _ 16
          have hsnd : le32 a b c d >>> 16 = le32 a b c d / 2 ^ 16 := Nat.shiftRight_eq_div_pow _ 16
          refine ⟨bytes32 (thumbWord e (wrappingAdd32 pc p) (le32 a b c d)) ++ out, left, s', ?_, hleft,
            hk, .step (thumbStep_hit hit _) ?_⟩
          · rw [armtWordLoop]
            simp only [(thumb_test hw).mpr hit, if_true, hrun, hfst, hsnd, wrappingAdd32_u32,
              thumb_written _ e (wrappingAdd32 pc p) rfl, List.append_assoc,
              List.length_append, length_bytes32, Nat.add_assoc]
          · rw [Place.skip, wrappingAdd32_assoc]
            exact hreach
        · obtain ⟨out, left, s', hrun, hleft, hk, hreach⟩ :=
            ih (c :: d :: rest).length (by simp; omega) (p + 2) (c :: d :: rest) rfl
          refine ⟨[a, b] ++ out, left, s', ?_, hleft, hk, .step (thumbStep_miss hit _) ?_⟩
          · rw [armtWordLoop]
            simp only [mt (thumb_test hw).mp hit, if_false, hrun, List.cons_append, List.nil_append,
              List.length_cons, Nat.add_comm, Nat.add_left_comm]
          · rw [Place.skip, wrappingAdd32_assoc]
            exact hreach

/-- The scan of high bytes, one halfword at a time. -/
def armtScanOne (data : List UInt8) (lim : ℕ) : ℕ → ℕ → ℕ → Except Fault (ℕ × Bool)
  | 0, _, _ => .error .fuel
  | fuel + 1, p, b1 =>
      if lim ≤ p then .ok (p, false)
      else do
        let b3 ← byteAt data (p + 3)
        if 0xF8 ≤ b3 &&& (b1 ^^^ 8) then .ok (p + 2, true)
        else armtScanOne data lim fuel (p + 2) b3

theorem armtScan_one (data : List UInt8) (lim fuel p b1 : ℕ) :
    armtScan data lim fuel p b1 = armtScanOne data lim (2 * fuel) p b1 := by
  induction fuel generalizing p b1 with
  | zero => rfl
  | succ fuel ih =>
      rw [armtScan, Nat.mul_succ, armtScanOne]
      simp only [armtScanOne, ih]

theorem thumb_bytes {b d : ℕ} (hb : b < 2 ^ 8) (hd : d < 2 ^ 8) :
    0xF8 ≤ d &&& (b ^^^ 8) ↔ b / 8 = 30 ∧ d / 8 = 31 := by
  have hfirst : ∀ b < 2 ^ 8, 0xF8 ≤ b ^^^ 8 ↔ b / 8 = 30 := by decide +kernel
  have hhigh : ∀ x < 8, ∀ y < 8, 0xF8 ≤ (0xF8 + x) &&& (0xF8 + y) := by decide
  have hxor : b ^^^ 8 < 2 ^ 8 := Nat.xor_lt_two_pow hb (by norm_num)
  rw [← hfirst b hb]
  constructor
  · intro h
    have h1 := h.trans Nat.and_le_left
    have h2 := h.trans Nat.and_le_right
    exact ⟨h2, by omega⟩
  · intro ⟨h1, h2⟩
    have h := hhigh (d - 0xF8) (by omega) ((b ^^^ 8) - 0xF8) (by omega)
    rwa [Nat.add_sub_cancel' (by omega), Nat.add_sub_cancel' h1] at h

/-- Where a scan from `done` on ends, and that it passed over what the rewriter passes over. -/
theorem armtScanOne_reaches {j k : ℕ} {a b : UInt8} (hfuel : j < fuel)
    (hlen : 2 * j ≤ ys.length) (hleft : ys.length < 2 * j + 2) :
    ∃ out left i, a :: b :: ys = out ++ left ∧ out.length = 2 * i ∧
      (thumbRewriter e).Reaches (wrappingAdd32 pc done.length, k) (a :: b :: ys) out
        (wrappingAdd32 pc (done ++ out).length, k) left ∧
      ((armtScanOne (done ++ a :: b :: ys) (done.length + 2 * j) fuel done.length b.toNat =
          .ok ((done ++ out).length, false) ∧ left.length < 4) ∨
        (armtScanOne (done ++ a :: b :: ys) (done.length + 2 * j) fuel done.length b.toNat =
          .ok ((done ++ out).length + 2, true) ∧ ∃ a b c d rest, left = a :: b :: c :: d :: rest ∧
            thumbHit (le32 a b c d))) := by
  induction fuel generalizing j a b ys done with
  | zero => omega
  | succ fuel ih =>
      rcases j with _ | j
      · refine ⟨[], a :: b :: ys, 0, rfl, rfl, by simpa using .refl _ _, .inl ⟨?_, by simp; omega⟩⟩
        rw [armtScanOne, if_pos (by omega)]
        simp
      · rcases ys with _ | ⟨c, _ | ⟨d, rest⟩⟩
        · exact absurd hlen (by simp)
        · exact absurd hlen (by simp; omega)
        · simp only [List.length_cons] at hlen hleft
          have hbyte : byteAt (done ++ a :: b :: c :: d :: rest) (done.length + 3) = .ok d.toNat :=
            byteAt_behind done (a :: b :: c :: d :: rest) 3
          have htest := thumb_bytes b.toNat_lt d.toNat_lt
          by_cases hit : thumbHit (le32 a b c d)
          · refine ⟨[], a :: b :: c :: d :: rest, 0, rfl, rfl, by simpa using .refl _ _, .inr ⟨?_, _, _, _,
              _, _, rfl, hit⟩⟩
            rw [armtScanOne, if_neg (by omega), hbyte, ok_bind,
              if_pos (htest.mpr ((thumb_hit_iff a b c d).mp hit))]
            simp
          · obtain ⟨out, left, i, hsplit, hi, hreach, hend⟩ :=
              @ih rest (done ++ [a, b]) j c d (by omega) (by omega) (by omega)
            have hscan : armtScanOne (done ++ a :: b :: c :: d :: rest) (done.length + 2 * (j + 1))
                (fuel + 1) done.length b.toNat =
                armtScanOne (done ++ [a, b] ++ c :: d :: rest) ((done ++ [a, b]).length + 2 * j) fuel
                  (done ++ [a, b]).length d.toNat := by
              rw [armtScanOne, if_neg (by omega), hbyte, ok_bind,
                if_neg (mt htest.mp (mt (thumb_hit_iff a b c d).mpr hit))]
              simp only [List.append_assoc, List.length_append, List.length_cons, List.length_nil,
                List.cons_append, List.nil_append, Nat.mul_succ, Nat.add_assoc, Nat.add_comm 2]
            have hdone : done ++ [a, b] ++ out = done ++ ([a, b] ++ out) := List.append_assoc _ _ _
            rw [hdone] at hreach hend
            refine ⟨[a, b] ++ out, left, i + 1, ?_, ?_, .step (thumbStep_miss hit _) ?_, ?_⟩
            · rw [hsplit]
              rfl
            · simp only [List.length_append, List.length_cons, List.length_nil, hi]
              omega
            · rw [Place.skip, wrappingAdd32_assoc]
              simpa using hreach
            · rw [hscan]
              exact hend

theorem getU16le_word (a b c d : UInt8) :
    a.toNat + 2 ^ 8 * b.toNat = le32 a b c d % 2 ^ 16 ∧
      c.toNat + 2 ^ 8 * d.toNat = le32 a b c d / 2 ^ 16 := by
  have ha := a.toNat_lt
  have hb := b.toNat_lt
  have hc := c.toNat_lt
  have hd := d.toNat_lt
  unfold le32
  omega

/-- The two halfwords the other targets write. -/
theorem thumb_halfwords (word : ℕ) (e : Bool) (pc : ℕ) {v : ℕ}
    (hv : v = armtPair (wrappingAdd32 pc 4 >>> 1) e (word % 2 ^ 16) (word / 2 ^ 16)) :
    [UInt8.ofNat (((v >>> 11) &&& 0x7FF) ||| 0xF000),
      UInt8.ofNat ((((v >>> 11) &&& 0x7FF) ||| 0xF000) / 2 ^ 8), UInt8.ofNat (v ||| 0xF800),
      UInt8.ofNat ((v ||| 0xF800) / 2 ^ 8)] = bytes32 (thumbWord e pc word) := by
  have hfirst : ((v >>> 11) &&& 0x7FF) ||| 0xF000 < 2 ^ 16 :=
    Nat.or_lt_two_pow (Nat.lt_of_le_of_lt Nat.and_le_right (by norm_num)) (by norm_num)
  rw [thumbWord_halves word e pc hv]
  generalize ((v >>> 11) &&& 0x7FF) ||| 0xF000 = x at hfirst
  generalize v ||| 0xF800 = y
  have hbyte : ∀ m n : ℕ, m % 2 ^ 8 = n % 2 ^ 8 → UInt8.ofNat m = UInt8.ofNat n := fun m n h => by
    rw [← UInt8.toNat_inj, UInt8.toNat_ofNat', UInt8.toNat_ofNat', h]
  have h0 : x % 2 ^ 8 = (y % 2 ^ 16 * 2 ^ 16 + x) % 2 ^ 8 := by omega
  have h1 : x / 2 ^ 8 % 2 ^ 8 = (y % 2 ^ 16 * 2 ^ 16 + x) / 2 ^ 8 % 2 ^ 8 := by omega
  have h2 : y % 2 ^ 8 = (y % 2 ^ 16 * 2 ^ 16 + x) / 2 ^ 16 % 2 ^ 8 := by omega
  have h3 : y / 2 ^ 8 % 2 ^ 8 = (y % 2 ^ 16 * 2 ^ 16 + x) / 2 ^ 24 % 2 ^ 8 := by omega
  rw [bytes32, hbyte _ _ h0, hbyte _ _ h1, hbyte _ _ h2, hbyte _ _ h3]

/-- What is done at a pair the scan found. -/
def armtByteHit (pc : ℕ) (encoding : Bool) (data : List UInt8) (p : ℕ) :
    Except Fault (List UInt8 × ℕ) := do
  let first ← getU16le data (p - 2)
  let second ← getU16le data p
  let p := p + 2
  let v := armtPair (wrappingAdd32 pc (u32 p) >>> 1) encoding first second
  let data ← setU16le data (p - 4) (((v >>> 11) &&& 0x7FF) ||| 0xF000)
  let data ← setU16le data (p - 2) (v ||| 0xF800)
  .ok (data, p)

theorem armtByteHit_eq (e : Bool) (pc : ℕ) (done ys : List UInt8) (a b c d : UInt8) :
    armtByteHit pc e (done ++ a :: b :: c :: d :: ys) (done.length + 2) =
      .ok (done ++ bytes32 (thumbWord e (wrappingAdd32 pc done.length) (le32 a b c d)) ++ ys,
        done.length + 4) := by
  obtain ⟨hw1, hw2⟩ := getU16le_word a b c d
  have hfirst : getU16le (done ++ a :: b :: c :: d :: ys) (done.length + 2 - 2) =
      .ok (le32 a b c d % 2 ^ 16) := by
    rw [← hw1]
    exact getU16le_behind done (a :: b :: c :: d :: ys) 0
  have hsecond : getU16le (done ++ a :: b :: c :: d :: ys) (done.length + 2) =
      .ok (le32 a b c d / 2 ^ 16) := by
    rw [← hw2]
    exact getU16le_behind done (a :: b :: c :: d :: ys) 2
  have hset1 : ∀ v, setU16le (done ++ a :: b :: c :: d :: ys) (done.length + 2 + 2 - 4) v =
      .ok (done ++ UInt8.ofNat v :: UInt8.ofNat (v / 2 ^ 8) :: c :: d :: ys) := by
    intro v
    rw [show done.length + 2 + 2 - 4 = done.length + 0 by omega, setU16le_behind]
    simp [setU16le]
  have hset2 : ∀ v w, setU16le (done ++ UInt8.ofNat v :: UInt8.ofNat (v / 2 ^ 8) :: c :: d :: ys)
      (done.length + 2 + 2 - 2) w = .ok (done ++ [UInt8.ofNat v, UInt8.ofNat (v / 2 ^ 8),
        UInt8.ofNat w, UInt8.ofNat (w / 2 ^ 8)] ++ ys) := by
    intro v w
    rw [show done.length + 2 + 2 - 2 = done.length + 2 by omega, setU16le_behind]
    simp [setU16le]
  have hpc : wrappingAdd32 pc (u32 (done.length + 2 + 2)) =
      wrappingAdd32 (wrappingAdd32 pc done.length) 4 := by
    rw [wrappingAdd32_u32, wrappingAdd32_assoc]
  rw [armtByteHit, hfirst, ok_bind, hsecond, ok_bind]
  simp only [hset1, ok_bind, hset2, hpc]
  rw [thumb_halfwords _ e (wrappingAdd32 pc done.length) rfl]

theorem armtByteLoop_eq (lim : ℕ) (data : List UInt8) (p : ℕ) :
    armtByteLoop pc e lim (fuel + 1) data p = (do
      let b1 ← byteAt data (p + 1)
      let r ← armtScan data lim (data.length + 1) p b1
      if r.2 then do
        let t ← armtByteHit pc e data r.1
        if lim ≤ t.2 then .ok t else armtByteLoop pc e lim fuel t.1 t.2
      else .ok (data, r.1)) := by
  rw [armtByteLoop]
  refine bind_congr fun b1 => bind_congr fun r => ?_
  obtain ⟨p, found⟩ := r
  cases found
  · rfl
  · simp only [armtByteHit, bind_assoc, ok_bind, if_true]

theorem armtByteLoop_reaches {j k : ℕ} (hfuel : j < fuel) (hlen : 2 * j + 2 ≤ ys.length)
    (hleft : ys.length < 2 * j + 4) :
    ∃ out left s', armtByteLoop pc e (done.length + 2 * j) fuel (done ++ ys) done.length =
        .ok (done ++ out ++ left, (done ++ out).length) ∧ left.length < 4 ∧ s'.2 = k ∧
      (thumbRewriter e).Reaches (wrappingAdd32 pc done.length, k) ys out s' left := by
  induction fuel generalizing j ys done with
  | zero => omega
  | succ fuel ih =>
      rcases ys with _ | ⟨a0, _ | ⟨b0, tail⟩⟩
      · exact absurd hlen (by simp)
      · exact absurd hlen (by simp)
      · simp only [List.length_cons] at hlen hleft
        have hbyte : byteAt (done ++ a0 :: b0 :: tail) (done.length + 1) = .ok b0.toNat :=
          byteAt_behind done (a0 :: b0 :: tail) 1
        have hdata : (done ++ a0 :: b0 :: tail).length = done.length + tail.length + 2 := by
          simp
          omega
        obtain ⟨out, left, i, hsplit, hi, hreach, hend⟩ := @armtScanOne_reaches e pc
          (2 * ((done ++ a0 :: b0 :: tail).length + 1)) tail done j k a0 b0 (by omega) (by omega)
          (by omega)
        rw [armtByteLoop_eq, hbyte, ok_bind, armtScan_one]
        obtain ⟨hscan, hl⟩ | ⟨hscan, a, b, c, d, rest, rfl, hit⟩ := hend
        · refine ⟨out, left, _, ?_, hl, rfl, hreach⟩
          rw [hscan, ok_bind, hsplit, List.append_assoc]
          rfl
        · have hlen4 : tail.length + 2 = 2 * i + (rest.length + 4) := by
            have hlen4 := congrArg List.length hsplit
            rw [List.length_append, hi] at hlen4
            exact hlen4
          have happ : done ++ a0 :: b0 :: tail = done ++ out ++ a :: b :: c :: d :: rest := by
            rw [hsplit, List.append_assoc]
          generalize hword : bytes32 (thumbWord e (wrappingAdd32 pc (done ++ out).length)
            (le32 a b c d)) = w
          have hw : w.length = 4 := by rw [← hword]; rfl
          have hstep : (thumbRewriter e).Reaches (wrappingAdd32 pc done.length, k)
              (a0 :: b0 :: tail) (out ++ w) (wrappingAdd32 pc (done ++ (out ++ w)).length, k) rest := by
            apply hreach.trans
            have hone := Reaches.one (@thumbStep_hit e rest _ _ _ _ hit
              (wrappingAdd32 pc (done ++ out).length, k))
            rw [Place.skip, wrappingAdd32_assoc, hword, hw] at hone
            rw [← List.append_assoc, @List.length_append _ _ w, hw]
            exact hone
          have hcount : (done ++ out).length + 4 = (done ++ (out ++ w)).length := by
            simp only [List.length_append, hw]
            omega
          have hdone : (done ++ (out ++ w)).length = done.length + 2 * i + 4 := by
            simp only [List.length_append, hw, hi]
            omega
          rw [hscan, ok_bind, if_pos rfl, happ, armtByteHit_eq, hword, ok_bind, hcount,
            List.append_assoc done out w]
          by_cases hend : done.length + 2 * j ≤ (done ++ (out ++ w)).length
          · refine ⟨out ++ w, rest, _, ?_, by omega, rfl, hstep⟩
            rw [if_pos hend]
          · obtain ⟨out', left, s', hrun, hl, hk, hrest⟩ := @ih rest
              (done ++ (out ++ w)) (j - i - 2) (by omega) (by omega) (by omega)
            rw [show (done ++ (out ++ w)).length + 2 * (j - i - 2) = done.length + 2 * j by omega]
              at hrun
            refine ⟨out ++ w ++ out', left, s', ?_, hl, hk, hstep.trans hrest⟩
            rw [if_neg hend, hrun, List.append_assoc done]

end

end LzmaTurbo.Filters
