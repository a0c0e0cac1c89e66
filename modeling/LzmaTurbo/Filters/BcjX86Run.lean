import LzmaTurbo.Filters.BcjBranchByte
import LzmaTurbo.Filters.BcjRiscvRun

/-!
# The x86 converter

Each turn of the loop over the labels makes some steps of the rewriter, and a label says
how far the turn before it has come.
-/
namespace LzmaTurbo.Filters
open Machine BitFields FirstDiff Rewriter

section
variable {e : Bool} {pc m k n fuel lim : ℕ} {ys done out left : List UInt8} {s : X86State}

/-- The loop at a label, with `done` processed, `ys` to come and the kept bits `m`. -/
inductive X86At (done ys : List UInt8) (m : ℕ) : X86State → Prop
  | cont (k : ℕ) : m = k ||| 4 → X86At done ys m ⟨.cont, done ++ ys, done.length, k⟩
  | start : X86At done ys m ⟨.start, done ++ ys, done.length, m⟩
  | mid (b : UInt8) (t : List UInt8) : ys = b :: t → x86Mark b →
      X86At done ys m ⟨.mid, done ++ ys, done.length + 1, m⟩
  | mainLoop : m = 0 → X86At done ys m ⟨.mainLoop, done ++ ys, done.length, 0⟩
  | a3 (b : UInt8) (t : List UInt8) : ys = b :: t → x86Mark b → m = 0 →
      X86At done ys m ⟨.a3, done ++ ys, done.length + 1, 0⟩

/-- A label's part of what falls with every turn; a byte counts for four. -/
def labelWeight : X86Label → ℕ
  | .cont => 3
  | .start => 2
  | .mid => 1
  | .mainLoop => 1
  | .a3 => 0

/-- The place of the byte at `n`. -/
def x86Place (pc n m : ℕ) : Place := (wrappingAdd32 pc n, m)

theorem pass_run (h : ∀ b ∈ out, ¬x86Mark b) (pc n m : ℕ) (t : List UInt8) :
    (x86Rewriter e).Reaches (x86Place pc n m) (out ++ t) out
      (x86Place pc (n + out.length) (m >>> out.length)) t := by
  induction out generalizing n m with
  | nil => exact .refl _ _
  | cons b bs ih =>
      have hstep : (x86Rewriter e).step (x86Place pc n m) (b :: bs ++ t) =
          some ([b], (wrappingAdd32 (wrappingAdd32 pc n) 1, m >>> 1)) :=
        x86Step_pass (h b (by simp)) (x86Place pc n m) (bs ++ t)
      rw [wrappingAdd32_assoc] at hstep
      have hrest := ih (fun b hb => h b (by simp [hb])) (n + 1) (m >>> 1)
      have hplace : x86Place pc (n + (b :: bs).length) (m >>> (b :: bs).length) =
          x86Place pc (n + 1 + bs.length) (m >>> 1 >>> bs.length) := by
        rw [List.length_cons, ← Nat.shiftRight_add, Nat.add_comm bs.length 1, Nat.add_assoc]
      rw [hplace]
      exact .step hstep hrest

/-- How a turn of the loop may end. -/
inductive X86Moves (e : Bool) (pc : ℕ) (done ys : List UInt8) (m weight : ℕ) :
    Except Fault X86Turn → Prop
  | next (s : X86State) (out ys' : List UInt8) (m' : ℕ) : X86At (done ++ out) ys' m' s → m' ≤ 7 →
      (x86Rewriter e).Reaches (x86Place pc done.length m) ys out
        (x86Place pc (done ++ out).length m') ys' →
      4 * ys'.length + labelWeight s.label < 4 * ys.length + weight →
      X86Moves e pc done ys m weight (.ok (.next s))
  | stop (s : X86State) (out left : List UInt8) : s.data = done ++ out ++ left →
      s.p = (done ++ out).length → left.length ≤ 4 →
      (x86Rewriter e).Reaches (x86Place pc done.length m) ys out
        (x86Place pc (done ++ out).length s.mask) left →
      X86Moves e pc done ys m weight (.ok (.stop s))

/-- A branch byte that is not converted. -/
theorem moves_skip {b o0 o1 o2 o3 : UInt8} {tail : List UInt8} {weight : ℕ} (hb : x86Mark b) (hm : m ≤ 7)
    (h : x86Skips m (le32 o0 o1 o2 o3)) :
    X86Moves e pc done (b :: o0 :: o1 :: o2 :: o3 :: tail) m weight
      (.ok (.next ⟨.cont, done ++ b :: o0 :: o1 :: o2 :: o3 :: tail, done.length + 1, m >>> 1⟩)) := by
  have hlen : (done ++ [b]).length = done.length + 1 := List.length_append
  have hle : (m >>> 1) ||| 4 ≤ 7 := by
    have h3 : m >>> 1 < 2 ^ 3 := by
      rw [Nat.shiftRight_eq_div_pow]
      omega
    exact Nat.le_of_lt_succ (Nat.or_lt_two_pow (n := 3) h3 (by norm_num))
  have hstep : (x86Rewriter e).step (x86Place pc done.length m) (b :: o0 :: o1 :: o2 :: o3 :: tail) =
      some ([b], (wrappingAdd32 (wrappingAdd32 pc done.length) 1, (m >>> 1) ||| 4)) :=
    x86Step_skip (s := x86Place pc done.length m) hb h tail
  rw [wrappingAdd32_assoc] at hstep
  have hone := Reaches.one hstep
  refine .next _ [b] (o0 :: o1 :: o2 :: o3 :: tail) ((m >>> 1) ||| 4) ?_ hle ?_ ?_
  · have hat := @X86At.cont (done ++ [b]) (o0 :: o1 :: o2 :: o3 :: tail) _ (m >>> 1) rfl
    rw [hlen, List.append_assoc] at hat
    exact hat
  · rw [hlen]
    exact hone
  · simp only [List.length_cons, labelWeight]
    omega

/-- A branch byte and its operand, converted. -/
theorem moves_convert {b o0 o1 o2 o3 : UInt8} {tail : List UInt8} {weight : ℕ} (hb : x86Mark b)
    (h : ¬x86Skips m (le32 o0 o1 o2 o3)) :
    X86Moves e pc done (b :: o0 :: o1 :: o2 :: o3 :: tail) m weight
      (.ok (.next ⟨.mainLoop, done ++ (b :: (bytes32 (x86Word e (wrappingAdd32 pc (done.length + 5)) m
        (le32 o0 o1 o2 o3)) ++ tail)), done.length + 5, 0⟩)) := by
  have hstep : (x86Rewriter e).step (x86Place pc done.length m) (b :: o0 :: o1 :: o2 :: o3 :: tail) =
      some (b :: bytes32 (x86Word e (wrappingAdd32 (wrappingAdd32 pc done.length) 5) m
        (le32 o0 o1 o2 o3)), (wrappingAdd32 (wrappingAdd32 pc done.length) 5, 0)) :=
    x86Step_convert (s := x86Place pc done.length m) hb h tail
  rw [wrappingAdd32_assoc] at hstep
  have hone := Reaches.one hstep
  generalize x86Word e (wrappingAdd32 pc (done.length + 5)) m (le32 o0 o1 o2 o3) = w at hone
  have hlen : (done ++ b :: bytes32 w).length = done.length + 5 := List.length_append
  refine .next _ (b :: bytes32 w) tail 0 ?_ (by omega) ?_ ?_
  · have hat := @X86At.mainLoop (done ++ b :: bytes32 w) tail _ rfl
    rw [hlen, List.append_assoc] at hat
    exact hat
  · rw [hlen]
    exact hone
  · simp only [List.length_cons, labelWeight]
    omega

/-- The operand the source takes, with its high byte told from others. -/
theorem x86Operand_eq {b o0 o1 o2 o3 : UInt8} {tail : List UInt8} {l : X86Label} {k : ℕ} :
    x86Operand ⟨l, done ++ b :: o0 :: o1 :: o2 :: o3 :: tail, done.length + 1, k⟩ =
      .ok (if msAt 3 (le32 o0 o1 o2 o3) then some (wrappingAdd32 (le32 o0 o1 o2 o3) (1 <<< 24))
        else none) := by
  have hread : getU32le (done ++ b :: o0 :: o1 :: o2 :: o3 :: tail) (done.length + 1) =
      .ok (le32 o0 o1 o2 o3) := getU32le_behind done (b :: o0 :: o1 :: o2 :: o3 :: tail) 1
  have hlt : wrappingAdd32 (le32 o0 o1 o2 o3) (1 <<< 24) < 2 ^ 32 := Nat.mod_lt _ (by norm_num)
  have hconst : 0xFE000000 = (2 ^ 7 - 1) * 2 ^ 25 := rfl
  have htest : wrappingAdd32 (le32 o0 o1 o2 o3) (1 <<< 24) &&& 0xFE000000 = 0 ↔
      msAt 3 (le32 o0 o1 o2 o3) := by
    rw [ms_high, hconst, and_field_eq_zero]
    generalize wrappingAdd32 (le32 o0 o1 o2 o3) (1 <<< 24) = v at hlt
    omega
  simp only [x86Operand, hread, ok_bind]
  by_cases h : msAt 3 (le32 o0 o1 o2 o3)
  · rw [if_pos h, if_neg (not_not.mpr (htest.mpr h))]
  · rw [if_neg h, if_pos (mt htest.mp h)]

theorem x86Store_eq {b o0 o1 o2 o3 : UInt8} {tail : List UInt8} {l : X86Label} {k v : ℕ}
    (hv : v &&& ((1 <<< 25) - 1) =
      x86Moved e (wrappingAdd32 pc (done.length + 5)) m
        (wrappingAdd32 (le32 o0 o1 o2 o3) (1 <<< 24)) &&& ((1 <<< 25) - 1)) :
    x86Store ⟨l, done ++ b :: o0 :: o1 :: o2 :: o3 :: tail, done.length + 1, k⟩ v =
      .ok (.next ⟨.mainLoop, done ++ (b :: (bytes32 (x86Word e (wrappingAdd32 pc (done.length + 5)) m
        (le32 o0 o1 o2 o3)) ++ tail)), done.length + 5, k⟩) := by
  have hwrite : ∀ w, setU32le (done ++ b :: o0 :: o1 :: o2 :: o3 :: tail) (done.length + 1) w =
      .ok (done ++ (b :: (bytes32 w ++ tail))) := by
    intro w
    apply (setU32le_behind done (b :: o0 :: o1 :: o2 :: o3 :: tail) 1 w).trans
    simp [setU32le]
  rw [x86Store, hv, ← x86Word]
  simp only [hwrite, ok_bind]

/-- The byte of an operand the kept bits look at. -/
theorem operand_byte {b o0 o1 o2 o3 : UInt8} {tail : List UInt8} {i : ℕ} (hi : i ≤ 3) :
    ∃ x : UInt8, byteAt (done ++ b :: o0 :: o1 :: o2 :: o3 :: tail) (done.length + 1 + i) = .ok x.toNat ∧
      (needConvMsByte x.toNat = true ↔ msAt i (le32 o0 o1 o2 o3)) := by
  have hms := msByte_le32 hi o0 o1 o2 o3 tail
  have hbehind := byteAt_behind done (b :: o0 :: o1 :: o2 :: o3 :: tail) (i + 1)
  rw [show done.length + (i + 1) = done.length + 1 + i by omega] at hbehind
  rcases hx : (o0 :: o1 :: o2 :: o3 :: tail)[i]? with _ | x
  · rw [msByte, hx] at hms
    cases hms
  · refine ⟨x, ?_, ?_⟩
    · rw [hbehind, byteAt, List.getElem?_cons_succ, hx]
    · rw [msByte, hx, Option.map_some, Option.some_inj] at hms
      rw [hms, decide_eq_true_iff]

theorem branchAddress (pc : ℕ) (n : ℕ) :
    wrappingAdd32 (wrappingAdd32 pc 4) (u32 (n + 1)) = wrappingAdd32 pc (n + 5) := by
  rw [wrappingAdd32_u32, wrappingAdd32_assoc]
  exact congrArg _ (by omega)

theorem x86_short (hlim : lim + 4 = (done ++ ys).length) (h : lim < done.length + 1) : ys.length ≤ 4 := by
  rw [List.length_append] at hlim
  omega

/-- What becomes of the loop at a branch byte with a whole operand behind it. -/
def x86Branched (e : Bool) (pc : ℕ) (done : List UInt8) (b o0 o1 o2 o3 : UInt8)
    (tail : List UInt8) (m : ℕ) : X86State :=
  if x86Skips m (le32 o0 o1 o2 o3) then
    ⟨.cont, done ++ b :: o0 :: o1 :: o2 :: o3 :: tail, done.length + 1, m >>> 1⟩
  else ⟨.mainLoop, done ++ (b :: (bytes32 (x86Word e (wrappingAdd32 pc (done.length + 5)) m
    (le32 o0 o1 o2 o3)) ++ tail)), done.length + 5, 0⟩

theorem moves_branched {b o0 o1 o2 o3 : UInt8} {tail : List UInt8} {weight : ℕ} (hb : x86Mark b)
    (hm : m ≤ 7) : X86Moves e pc done (b :: o0 :: o1 :: o2 :: o3 :: tail) m weight
      (.ok (.next (x86Branched e pc done b o0 o1 o2 o3 tail m))) := by
  by_cases h : x86Skips m (le32 o0 o1 o2 o3)
  · rw [x86Branched, if_pos h]
    exact moves_skip hb hm h
  · rw [x86Branched, if_neg h]
    exact moves_convert hb h

theorem a3_turn {b o0 o1 o2 o3 : UInt8} {tail : List UInt8} (hend : ¬lim < done.length + 1) :
    x86A3 ⟨.a3, done ++ b :: o0 :: o1 :: o2 :: o3 :: tail, done.length + 1, 0⟩ lim
      (wrappingAdd32 pc 4) e = .ok (.next (x86Branched e pc done b o0 o1 o2 o3 tail 0)) := by
  rw [x86A3, if_neg hend, x86Operand_eq, ok_bind]
  by_cases h3 : msAt 3 (le32 o0 o1 o2 o3)
  · have hskip : ¬x86Skips 0 (le32 o0 o1 o2 o3) := by
      rintro (h | h | ⟨h, -⟩ | h)
      · omega
      · omega
      · exact h rfl
      · exact h h3
    simp only [if_pos h3]
    rw [branchAddress, @x86Store_eq e pc 0 _ _ _ _ _ _ _ _ _ _ (by rw [x86Moved, if_pos rfl]),
      x86Branched, if_neg hskip]
  · simp only [if_neg h3]
    rw [x86Branched, if_pos (.inr (.inr (.inr h3)))]
    rfl

theorem mid_turn {b o0 o1 o2 o3 : UInt8} {tail : List UInt8} (h0 : m ≠ 0)
    (hend : ¬lim < done.length + 1) :
    x86Mid ⟨.mid, done ++ b :: o0 :: o1 :: o2 :: o3 :: tail, done.length + 1, m⟩ lim
      (wrappingAdd32 pc 4) e = .ok (.next (x86Branched e pc done b o0 o1 o2 o3 tail m)) := by
  rw [x86Mid, if_neg h0, if_neg hend]
  by_cases h4 : 4 < m ∨ m = 3
  · rw [if_pos h4, x86Branched, if_pos (h4.elim .inl fun h => .inr (.inl h))]
  rw [if_neg h4]
  obtain ⟨h4, h3⟩ := not_or.mp h4
  obtain ⟨x, hx, hms⟩ :=
    @operand_byte done b o0 o1 o2 o3 tail (m >>> 1) (by have h := kept_bit h4; omega)
  simp only [hx, ok_bind]
  by_cases hk : msAt (m >>> 1) (le32 o0 o1 o2 o3)
  · rw [if_pos (hms.mpr hk), x86Branched, if_pos (.inr (.inr (.inl ⟨h0, hk⟩)))]
  rw [if_neg (mt hms.mp hk), x86Operand_eq, ok_bind]
  by_cases h3o : msAt 3 (le32 o0 o1 o2 o3)
  · have hskip : ¬x86Skips m (le32 o0 o1 o2 o3) := by
      rintro (h | h | ⟨-, h⟩ | h)
      · exact h4 h
      · exact h3 h
      · exact hk h
      · exact h h3o
    simp only [if_pos h3o]
    rw [branchAddress, @x86Store_eq e pc m _ _ _ _ _ _ _ _ _ _ (by rw [x86Moved, if_neg h0]),
      x86Branched, if_neg hskip]
  · simp only [if_neg h3o]
    rw [x86Branched, if_pos (.inr (.inr (.inr h3o)))]

theorem moves_a3 {b : UInt8} {t : List UInt8} (hb : x86Mark b)
    (hlim : lim + 4 = (done ++ b :: t).length) :
    X86Moves e pc done (b :: t) 0 (labelWeight .a3)
      (x86A3 ⟨.a3, done ++ b :: t, done.length + 1, 0⟩ lim (wrappingAdd32 pc 4) e) := by
  by_cases hend : lim < done.length + 1
  · rw [x86A3, if_pos hend]
    refine .stop _ [] (b :: t) (by simp) (by simp) (x86_short hlim hend) ?_
    rw [List.append_nil]
    exact .refl _ _
  · obtain ⟨b', o0, o1, o2, o3, tail, hyt⟩ := @five_bytes (b :: t) (by
      rw [List.length_append] at hlim
      omega)
    cases hyt
    rw [a3_turn hend]
    exact moves_branched hb (by omega)

theorem moves_mid {b : UInt8} {t : List UInt8} (hb : x86Mark b) (hm : m ≤ 7)
    (hlim : lim + 4 = (done ++ b :: t).length) :
    X86Moves e pc done (b :: t) m (labelWeight .mid)
      (x86Mid ⟨.mid, done ++ b :: t, done.length + 1, m⟩ lim (wrappingAdd32 pc 4) e) := by
  by_cases h0 : m = 0
  · subst h0
    rw [x86Mid, if_pos rfl]
    refine .next _ [] (b :: t) 0 ?_ hm ?_ ?_
    · rw [List.append_nil]
      exact .a3 b t rfl hb rfl
    · rw [List.append_nil]
      exact .refl _ _
    · exact Nat.lt_succ_self _
  by_cases hend : lim < done.length + 1
  · rw [x86Mid, if_neg h0, if_pos hend]
    refine .stop _ [] (b :: t) (by simp) (by simp) (x86_short hlim hend) ?_
    rw [List.append_nil]
    exact .refl _ _
  obtain ⟨b', o0, o1, o2, o3, tail, hyt⟩ := @five_bytes (b :: t) (by
    rw [List.length_append] at hlim
    omega)
  cases hyt
  rw [mid_turn h0 hend]
  exact moves_branched hb hm

/-- The four tests of a word are tests of its bytes. -/
theorem bcj_byte (a b c d : UInt8) :
    (isBcjByte (le32 a b c d ^^^ 0xE8E8E8E8) 0 = true ↔ x86Mark a) ∧
    (isBcjByte (le32 a b c d ^^^ 0xE8E8E8E8) 1 = true ↔ x86Mark b) ∧
    (isBcjByte (le32 a b c d ^^^ 0xE8E8E8E8) 2 = true ↔ x86Mark c) ∧
    (isBcjByte (le32 a b c d ^^^ 0xE8E8E8E8) 3 = true ↔ x86Mark d) := by
  have ha := a.toNat_lt
  have hb := b.toNat_lt
  have hc := c.toNat_lt
  have hd := d.toNat_lt
  have hfield : ∀ n k, 0xFE <<< (n * 8) = (2 ^ 7 - 1) * 2 ^ k →
      (isBcjByte (le32 a b c d ^^^ 0xE8E8E8E8) n = true ↔
        le32 a b c d / 2 ^ k % 2 ^ 7 = 0xE8E8E8E8 / 2 ^ k % 2 ^ 7) := by
    intro n k hnk
    rw [isBcjByte, decide_eq_true_iff, hnk, and_field_eq_zero, xor_field_eq_zero]
  have h0 : le32 a b c d / 2 ^ 1 % 2 ^ 7 = a.toNat / 2 := by
    unfold le32
    omega
  have h1 : le32 a b c d / 2 ^ 9 % 2 ^ 7 = b.toNat / 2 := by
    unfold le32
    omega
  have h2 : le32 a b c d / 2 ^ 17 % 2 ^ 7 = c.toNat / 2 := by
    unfold le32
    omega
  have h3 : le32 a b c d / 2 ^ 25 % 2 ^ 7 = d.toNat / 2 := by
    unfold le32
    omega
  refine ⟨?_, ?_, ?_, ?_⟩
  · rw [hfield 0 1 rfl, h0]
    rfl
  · rw [hfield 1 9 rfl, h1]
    rfl
  · rw [hfield 2 17 rfl, h2]
    rfl
  · rw [hfield 3 25 rfl, h3]
    rfl

/-- Bytes passed over on the way to a label. -/
theorem moves_pass {s : X86State} {ys' : List UInt8} {weight : ℕ} (hout : ∀ b ∈ out, ¬x86Mark b)
    (hat : X86At (done ++ out) ys' (m >>> out.length) s) (hm : m ≤ 7)
    (hw : labelWeight s.label < 4 * out.length + weight) :
    X86Moves e pc done (out ++ ys') m weight (.ok (.next s)) := by
  refine .next s out ys' (m >>> out.length) hat ?_ ?_ ?_
  · rw [Nat.shiftRight_eq_div_pow]
    exact (Nat.div_le_self _ _).trans hm
  · rw [List.length_append]
    exact pass_run hout pc done.length m ys'
  · rw [List.length_append]
    omega

theorem moves_start (hm : m ≤ 7) (hlim : lim + 4 = (done ++ ys).length) :
    X86Moves e pc done ys m (labelWeight .start)
      (x86Start ⟨.start, done ++ ys, done.length, m⟩ lim) := by
  by_cases hend : lim ≤ done.length
  · rw [x86Start, if_pos hend]
    refine .stop _ [] ys (by simp) (by simp) (x86_short hlim (by omega)) ?_
    rw [List.append_nil]
    exact .refl _ _
  rw [x86Start, if_neg hend]
  obtain ⟨b0, b1, b2, b3, b4, t, rfl⟩ := @five_bytes ys (by
    rw [List.length_append] at hlim
    omega)
  have hread : getU32le (done ++ b0 :: b1 :: b2 :: b3 :: b4 :: t) done.length = .ok (le32 b0 b1 b2 b3) :=
    getU32le_behind done (b0 :: b1 :: b2 :: b3 :: b4 :: t) 0
  obtain ⟨h0, h1, h2, h3⟩ := bcj_byte b0 b1 b2 b3
  simp only [hread, ok_bind]
  by_cases hb0 : x86Mark b0
  · rw [if_pos (h0.mpr hb0)]
    have hat := @X86At.mid (done ++ []) _ m b0 (b1 :: b2 :: b3 :: b4 :: t) rfl hb0
    rw [List.append_nil] at hat
    refine @moves_pass _ _ _ _ [] _ _ _ (by simp) ?_ hm (Nat.lt_succ_self _)
    rw [List.append_nil]
    exact hat
  rw [if_neg (mt h0.mp hb0)]
  by_cases hb1 : x86Mark b1
  · rw [if_pos (h1.mpr hb1)]
    have hat := @X86At.mid (done ++ [b0]) _ (m >>> 1) b1 (b2 :: b3 :: b4 :: t) rfl hb1
    rw [List.append_assoc, List.length_append] at hat
    exact @moves_pass _ _ _ _ [b0] _ _ _ (by simpa using hb0) hat hm (by simp [labelWeight])
  rw [if_neg (mt h1.mp hb1)]
  by_cases hb2 : x86Mark b2
  · rw [if_pos (h2.mpr hb2), ← Nat.shiftRight_add]
    have hat := @X86At.mid (done ++ [b0, b1]) _ (m >>> 2) b2 (b3 :: b4 :: t) rfl hb2
    rw [List.append_assoc, List.length_append] at hat
    exact @moves_pass _ _ _ _ [b0, b1] _ _ _ (by simp [hb0, hb1]) hat hm (by simp [labelWeight])
  rw [if_neg (mt h2.mp hb2)]
  have h8 : ∀ j, 3 ≤ j → m >>> j = 0 := by
    intro j hj
    rw [Nat.shiftRight_eq_div_pow]
    exact Nat.div_eq_of_lt (Nat.lt_of_lt_of_le (by omega) (Nat.pow_le_pow_right two_pos hj))
  by_cases hb3 : x86Mark b3
  · simp only [h3.mpr hb3, if_true]
    have hat := @X86At.a3 (done ++ [b0, b1, b2]) _ (m >>> 3) b3 (b4 :: t) rfl hb3
      (h8 3 le_rfl)
    rw [List.append_assoc, List.length_append] at hat
    exact @moves_pass _ _ _ _ [b0, b1, b2] _ _ _ (by simp [hb0, hb1, hb2]) hat hm
      (by simp [labelWeight])
  · simp only [mt h3.mp hb3, Bool.false_eq_true, if_false]
    have hat := @X86At.mainLoop (done ++ [b0, b1, b2, b3]) (b4 :: t) (m >>> 4)
      (h8 4 (by omega))
    rw [List.append_assoc, List.length_append] at hat
    exact @moves_pass _ _ _ _ [b0, b1, b2, b3] _ _ _ (by simp [hb0, hb1, hb2, hb3]) hat hm
      (by simp [labelWeight])

theorem firstMark_none {hay : List UInt8} (h : firstMark hay = none) : ∀ b ∈ hay, ¬x86Mark b := by
  induction hay with
  | nil => simp
  | cons a as ih =>
      rw [firstMark] at h
      by_cases ha : x86Mark a
      · rw [if_pos ha] at h
        cases h
      · rw [if_neg ha, Option.map_eq_none_iff] at h
        intro b hb
        rcases List.mem_cons.mp hb with rfl | hb
        · exact ha
        · exact ih h b hb

theorem firstMark_some {hay : List UInt8} {i : ℕ} (h : firstMark hay = some i) :
    ∃ as b bs, hay = as ++ b :: bs ∧ as.length = i ∧ (∀ a ∈ as, ¬x86Mark a) ∧ x86Mark b := by
  induction hay generalizing i with
  | nil => cases h
  | cons a as ih =>
      rw [firstMark] at h
      by_cases ha : x86Mark a
      · rw [if_pos ha] at h
        cases h
        exact ⟨[], a, as, rfl, rfl, by simp, ha⟩
      · rw [if_neg ha] at h
        obtain ⟨j, hj, rfl⟩ := Option.map_eq_some_iff.mp h
        obtain ⟨cs, b, bs, rfl, rfl, hcs, hb⟩ := ih hj
        refine ⟨a :: cs, b, bs, rfl, rfl, ?_, hb⟩
        intro x hx
        rcases List.mem_cons.mp hx with rfl | hx
        · exact ha
        · exact hcs x hx

theorem moves_mainLoop (hlim : lim + 4 = (done ++ ys).length) :
    X86Moves e pc done ys 0 (labelWeight .mainLoop)
      (x86MainLoop ⟨.mainLoop, done ++ ys, done.length, 0⟩ lim) := by
  by_cases hend : lim ≤ done.length
  · rw [x86MainLoop, if_pos hend]
    refine .stop _ [] ys (by simp) (by simp) (x86_short hlim (by omega)) ?_
    rw [List.append_nil]
    exact .refl _ _
  rw [x86MainLoop, if_neg hend]
  rw [List.length_append] at hlim
  have hstride : done.length + 4 * ((lim - done.length + 3) / 4) ≤ (done ++ ys).length := by
    rw [List.length_append]
    omega
  have hhay : ((done ++ ys).take (done.length + 4 * ((lim - done.length + 3) / 4))).drop done.length =
      ys.take (4 * ((lim - done.length + 3) / 4)) := by
    rw [take_behind, ← Nat.add_zero done.length, drop_behind, List.drop_zero, Nat.add_zero]
  have hcount : (ys.take (4 * ((lim - done.length + 3) / 4))).length =
      4 * ((lim - done.length + 3) / 4) := by
    rw [List.length_take]
    omega
  have hys := List.take_append_drop (4 * ((lim - done.length + 3) / 4)) ys
  simp only [if_neg (Nat.not_lt.mpr hstride), hhay, findBranchByte_eq]
  rcases hmark : firstMark (ys.take (4 * ((lim - done.length + 3) / 4))) with _ | i
  · refine .stop _ (ys.take (4 * ((lim - done.length + 3) / 4)))
      (ys.drop (4 * ((lim - done.length + 3) / 4))) ?_ ?_ ?_ ?_
    · rw [List.append_assoc, hys]
    · rw [List.length_append, hcount]
    · rw [List.length_drop]
      omega
    · have hrun := pass_run (e := e) (firstMark_none hmark) pc done.length 0
        (ys.drop (4 * ((lim - done.length + 3) / 4)))
      rw [hys, Nat.zero_shiftRight] at hrun
      rw [List.length_append]
      exact hrun
  · obtain ⟨as, b, bs, htake, rfl, has, hb⟩ := firstMark_some hmark
    have hsplit : ys = as ++ b :: (bs ++ ys.drop (4 * ((lim - done.length + 3) / 4))) := by
      rw [htake, List.append_assoc] at hys
      exact hys.symm
    have hat := @X86At.a3 (done ++ as) _ 0 b
      (bs ++ ys.drop (4 * ((lim - done.length + 3) / 4))) rfl hb rfl
    rw [List.append_assoc, ← hsplit, List.length_append] at hat
    have hmoves := @moves_pass e pc 0 _ _ _
      (b :: (bs ++ ys.drop (4 * ((lim - done.length + 3) / 4)))) (labelWeight .mainLoop) has
      (by rw [Nat.zero_shiftRight]; exact hat) (by omega) (by simp [labelWeight])
    rw [← hsplit] at hmoves
    exact hmoves

theorem x86Turn_moves (hat : X86At done ys m s) (hm : m ≤ 7)
    (hlim : lim + 4 = (done ++ ys).length) :
    X86Moves e pc done ys m (labelWeight s.label) (x86Turn lim (wrappingAdd32 pc 4) e s) := by
  cases hat with
  | cont k hk =>
      refine .next _ [] ys m ?_ hm ?_ ?_
      · rw [List.append_nil, hk]
        exact .start
      · rw [List.append_nil]
        exact .refl _ _
      · exact Nat.lt_succ_self _
  | start => exact moves_start hm hlim
  | mid b t hys hb =>
      subst hys
      exact moves_mid hb hm hlim
  | mainLoop h0 =>
      subst h0
      exact moves_mainLoop hlim
  | a3 b t hys hb h0 =>
      subst hys h0
      exact moves_a3 hb hlim

theorem x86Loop_reaches (hat : X86At done ys m s) (hm : m ≤ 7)
    (hlim : lim + 4 = (done ++ ys).length) (hfuel : 4 * ys.length + labelWeight s.label < fuel) :
    ∃ out left s', x86Loop lim (wrappingAdd32 pc 4) e fuel s = .ok s' ∧
      s'.data = done ++ out ++ left ∧ s'.p = (done ++ out).length ∧ left.length ≤ 4 ∧
      (x86Rewriter e).Reaches (x86Place pc done.length m) ys out
        (x86Place pc (done ++ out).length s'.mask) left := by
  induction fuel generalizing done ys m s with
  | zero => omega
  | succ fuel ih =>
      have hmoves := @x86Turn_moves e pc _ _ _ _ _ hat hm hlim
      generalize hturn : x86Turn lim (wrappingAdd32 pc 4) e s = r at hmoves
      cases hmoves with
      | next s1 out1 ys1 m1 hat1 hm1 hreach1 hless =>
          have hlen := hreach1.length_eq
          obtain ⟨out, left, s', hrun, hdata, hp, hleft, hreach⟩ := ih hat1 hm1
            (by rw [hlim, List.length_append, List.length_append, List.length_append]; omega) (by omega)
          refine ⟨out1 ++ out, left, s', ?_, ?_, ?_, hleft, ?_⟩
          · rw [x86Loop, hturn, ok_bind]
            exact hrun
          · rw [hdata]
            simp only [List.append_assoc]
          · rw [hp, List.append_assoc]
          · rw [← List.append_assoc]
            exact hreach1.trans hreach
      | stop s1 out left hdata hp hleft hreach =>
          refine ⟨out, left, s1, ?_, hdata, hp, hleft, hreach⟩
          rw [x86Loop, hturn, ok_bind]

end

end LzmaTurbo.Filters
