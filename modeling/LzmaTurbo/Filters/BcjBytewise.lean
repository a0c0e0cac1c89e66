import LzmaTurbo.Filters.BcjX86Run
import Mathlib.Tactic.IntervalCases

/-!
# The x86 converter a byte at a time

The plain loop looks at one byte after another and shifts the kept bits past each.
Only every four bytes does it ask whether the end is near, which is what decides how
much it reports as processed. A turn of the source's loop passes over the same bytes,
however far its search jumps.
-/
namespace LzmaTurbo.Filters
open Machine Rewriter

/-- More bytes in front of a result. -/
def before (out : List UInt8) (r : List UInt8 × ℕ × ℕ) : List UInt8 × ℕ × ℕ :=
  (out ++ r.1, out.length + r.2.1, r.2.2)

/-- The plain loop, `j` bytes into a stride: the bytes, how many are processed and the bits
kept at the end. -/
def x86Bytewise (pass : ℕ → ℕ → ℕ) (e : Bool) :
    ℕ → Place → List UInt8 → List UInt8 × ℕ × ℕ
  | _, s, [] => ([], 0, s.2)
  | j, s, b :: rest =>
      if x86Mark b then
        match rest with
        | o0 :: o1 :: o2 :: o3 :: tail =>
            if x86Skips s.2 (le32 o0 o1 o2 o3) then
              before [b] (x86Bytewise pass e 0 (wrappingAdd32 s.1 1, (s.2 >>> 1) ||| 4)
                (o0 :: o1 :: o2 :: o3 :: tail))
            else
              before (b :: bytes32 (x86Word e (wrappingAdd32 s.1 5) s.2 (le32 o0 o1 o2 o3)))
                (x86Bytewise pass e 0 (wrappingAdd32 s.1 5, 0) tail)
        | rest => (b :: rest, 0, s.2)
      else if j = 0 ∧ rest.length < 4 then (b :: rest, 0, s.2)
      else before [b] (x86Bytewise pass e ((j + 1) % 4) (wrappingAdd32 s.1 1, pass j s.2) rest)

/-- A shift for every byte. -/
def everyByte (_ m : ℕ) : ℕ := m >>> 1

/-- The shift of the source: three bytes leave nothing, of any number. -/
def thirdClears (j m : ℕ) : ℕ := if j = 2 then 0 else m >>> 1

section
variable {pass : ℕ → ℕ → ℕ} {e : Bool} {pc m j k n fuel lim : ℕ}
  {ys done out left xs t : List UInt8} {s : X86State} {pl : Place} {r : List UInt8 × ℕ × ℕ}

@[simp] theorem before_nil (r : List UInt8 × ℕ × ℕ) : before [] r = r := by
  simp [before]

theorem before_before (out out' : List UInt8) (r : List UInt8 × ℕ × ℕ) :
    before out (before out' r) = before (out ++ out') r := by
  simp [before, Nat.add_assoc]

@[simp] theorem length_bytewise (pass : ℕ → ℕ → ℕ) (e : Bool) (j : ℕ) (pl : Place)
    (xs : List UInt8) : (x86Bytewise pass e j pl xs).1.length = xs.length := by
  fun_induction x86Bytewise pass e j pl xs with
  | case1 => rfl
  | case2 j s b hb o0 o1 o2 o3 tail hskip ih => simp [before, ih]
  | case3 j s b hb o0 o1 o2 o3 tail hskip ih =>
      simp [before, ih]
      omega
  | case4 => rfl
  | case5 => rfl
  | case6 j s b rest hb hroom ih => simp [before, ih]

/-- Where a branch byte stands in a stride says nothing. -/
theorem bytewise_mark {b : UInt8} (hb : x86Mark b) (j : ℕ) (pl : Place) (t : List UInt8) :
    x86Bytewise pass e j pl (b :: t) = x86Bytewise pass e 0 pl (b :: t) := by
  unfold x86Bytewise
  rw [if_pos hb, if_pos hb]

theorem bytewise_pass {b : UInt8} (hb : ¬x86Mark b) (h : j = 0 → 4 ≤ t.length) :
    x86Bytewise pass e j pl (b :: t) =
      before [b] (x86Bytewise pass e ((j + 1) % 4) (wrappingAdd32 pl.1 1, pass j pl.2) t) := by
  conv_lhs => unfold x86Bytewise
  rw [if_neg hb, if_neg]
  rintro ⟨h0, hlt⟩
  have hle := h h0
  omega

theorem bytewise_end (h : xs.length ≤ 4) :
    x86Bytewise pass e 0 pl xs = (xs, 0, pl.2) := by
  rcases xs with _ | ⟨b, rest⟩
  · rfl
  · simp only [List.length_cons] at h
    unfold x86Bytewise
    by_cases hb : x86Mark b
    · rw [if_pos hb]
      split
      · simp only [List.length_cons] at h
        omega
      · rfl
    · rw [if_neg hb, if_pos ⟨rfl, by omega⟩]

/-- One turn of the source's loop, told in the bytes the plain loop passes over. -/
inductive X86Follows (e : Bool) (pc : ℕ) (done ys : List UInt8) (m weight : ℕ) :
    Except Fault X86Turn → Prop
  | next (s : X86State) (out ys' : List UInt8) (m' : ℕ) : X86At (done ++ out) ys' m' s →
      x86Bytewise thirdClears e 0 (x86Place pc done.length m) ys =
        before out (x86Bytewise thirdClears e 0 (x86Place pc (done ++ out).length m') ys') →
      4 * ys'.length + labelWeight s.label < 4 * ys.length + weight →
      X86Follows e pc done ys m weight (.ok (.next s))
  | stop (s : X86State) (r : List UInt8 × ℕ × ℕ) :
      x86Bytewise thirdClears e 0 (x86Place pc done.length m) ys = r →
      s.data = done ++ r.1 → s.p = done.length + r.2.1 → s.mask = r.2.2 →
      X86Follows e pc done ys m weight (.ok (.stop s))

/-- The kept bits after so many bytes of a stride. -/
def passRun (pass : ℕ → ℕ → ℕ) : ℕ → ℕ → ℕ → ℕ
  | _, m, 0 => m
  | j, m, n + 1 => passRun pass ((j + 1) % 4) (pass j m) n

theorem passRun_zero (j n : ℕ) : passRun thirdClears j 0 n = 0 := by
  induction n generalizing j with
  | zero => rfl
  | succ n ih =>
      have hpass : thirdClears j 0 = 0 := by
        rw [thirdClears, Nat.zero_shiftRight, ite_self]
      rw [passRun, hpass, ih]

/-- Bytes that are no branch bytes, as long as no stride begins near the end. -/
theorem bytewise_run (hout : ∀ b ∈ out, ¬x86Mark b) (hj : j < 4)
    (hroom : ∀ i < out.length, (j + i) % 4 = 0 → 4 + i < (out ++ t).length) :
    x86Bytewise pass e j (x86Place pc n m) (out ++ t) =
      before out (x86Bytewise pass e ((j + out.length) % 4)
        (x86Place pc (n + out.length) (passRun pass j m out.length)) t) := by
  induction out generalizing j n m with
  | nil => rw [List.nil_append, before_nil, List.length_nil, Nat.add_zero, Nat.mod_eq_of_lt hj]; rfl
  | cons b bs ih =>
      have hfirst : j = 0 → 4 ≤ (bs ++ t).length := by
        rintro rfl
        have h := hroom 0 (Nat.succ_pos _) rfl
        rw [List.cons_append, List.length_cons] at h
        omega
      have hrest : ∀ i < bs.length, ((j + 1) % 4 + i) % 4 = 0 → 4 + i < (bs ++ t).length := by
        intro i hi hmod
        have h := hroom (i + 1) (Nat.succ_lt_succ hi) (by omega)
        rw [List.cons_append, List.length_cons] at h
        omega
      have hplace : (wrappingAdd32 (x86Place pc n m).1 1, pass j (x86Place pc n m).2) =
          x86Place pc (n + 1) (pass j m) := by
        rw [x86Place, x86Place, wrappingAdd32_assoc]
      have hcount : ((j + 1) % 4 + bs.length) % 4 = (j + (b :: bs).length) % 4 := by
        rw [List.length_cons]
        omega
      have hplaces : n + 1 + bs.length = n + (b :: bs).length := by
        rw [List.length_cons]
        omega
      rw [List.cons_append, bytewise_pass (hout b (by simp)) hfirst, hplace,
        ih (fun b hb => hout b (by simp [hb])) (Nat.mod_lt _ (by norm_num)) hrest, before_before,
        hcount, hplaces]
      rfl

theorem follows_branched {b o0 o1 o2 o3 : UInt8} {tail : List UInt8} {weight : ℕ}
    (hb : x86Mark b) : X86Follows e pc done (b :: o0 :: o1 :: o2 :: o3 :: tail) m weight
      (.ok (.next (x86Branched e pc done b o0 o1 o2 o3 tail m))) := by
  have hplace : ∀ k, wrappingAdd32 (wrappingAdd32 pc done.length) k =
      wrappingAdd32 pc (done.length + k) := fun k => wrappingAdd32_assoc pc done.length k
  by_cases h : x86Skips m (le32 o0 o1 o2 o3)
  · have hlen : (done ++ [b]).length = done.length + 1 := List.length_append
    rw [x86Branched, if_pos h]
    refine .next _ [b] (o0 :: o1 :: o2 :: o3 :: tail) ((m >>> 1) ||| 4) ?_ ?_ ?_
    · have hat := @X86At.cont (done ++ [b]) (o0 :: o1 :: o2 :: o3 :: tail) _ (m >>> 1) rfl
      rw [hlen, List.append_assoc] at hat
      exact hat
    · rw [x86Bytewise, if_pos hb, x86Place, if_pos h, hplace, hlen, x86Place]
    · simp only [List.length_cons, labelWeight]
      omega
  · have hlen : ∀ w, (done ++ b :: bytes32 w).length = done.length + 5 :=
      fun w => List.length_append
    rw [x86Branched, if_neg h]
    refine .next _ (b :: bytes32 (x86Word e (wrappingAdd32 pc (done.length + 5)) m
      (le32 o0 o1 o2 o3))) tail 0 ?_ ?_ ?_
    · have hat := @X86At.mainLoop (done ++ b :: bytes32 (x86Word e
        (wrappingAdd32 pc (done.length + 5)) m (le32 o0 o1 o2 o3))) tail _ rfl
      rw [hlen, List.append_assoc] at hat
      exact hat
    · rw [x86Bytewise, if_pos hb, x86Place, if_neg h, hplace, hlen, x86Place]
    · simp only [List.length_cons, labelWeight]
      omega

/-- At the end of the buffer both stop where they are. -/
theorem follows_stop {weight : ℕ} {l : X86Label} (h : ys.length ≤ 4) :
    X86Follows e pc done ys m weight (.ok (.stop ⟨l, done ++ ys, done.length, m⟩)) :=
  .stop _ _ (bytewise_end h) rfl rfl rfl

theorem follows_a3 {b : UInt8} {t : List UInt8} (hb : x86Mark b)
    (hlim : lim + 4 = (done ++ b :: t).length) :
    X86Follows e pc done (b :: t) 0 (labelWeight .a3)
      (x86A3 ⟨.a3, done ++ b :: t, done.length + 1, 0⟩ lim (wrappingAdd32 pc 4) e) := by
  by_cases hend : lim < done.length + 1
  · rw [x86A3, if_pos hend]
    exact follows_stop (x86_short hlim hend)
  · obtain ⟨b', o0, o1, o2, o3, tail, hyt⟩ := @five_bytes (b :: t) (by
      rw [List.length_append] at hlim
      omega)
    cases hyt
    rw [a3_turn hend]
    exact follows_branched hb

theorem follows_mid {b : UInt8} {t : List UInt8} (hb : x86Mark b)
    (hlim : lim + 4 = (done ++ b :: t).length) :
    X86Follows e pc done (b :: t) m (labelWeight .mid)
      (x86Mid ⟨.mid, done ++ b :: t, done.length + 1, m⟩ lim (wrappingAdd32 pc 4) e) := by
  by_cases h0 : m = 0
  · subst h0
    rw [x86Mid, if_pos rfl]
    refine .next _ [] (b :: t) 0 ?_ ?_ (Nat.lt_succ_self _)
    · rw [List.append_nil]
      exact .a3 b t rfl hb rfl
    · rw [List.append_nil, before_nil]
  by_cases hend : lim < done.length + 1
  · rw [x86Mid, if_neg h0, if_pos hend]
    exact follows_stop (x86_short hlim hend)
  obtain ⟨b', o0, o1, o2, o3, tail, hyt⟩ := @five_bytes (b :: t) (by
    rw [List.length_append] at hlim
    omega)
  cases hyt
  rw [mid_turn h0 hend]
  exact follows_branched hb

/-- Bytes passed over on the way to a label: to a branch byte, or to the end of a stride. -/
theorem follows_pass {ys' : List UInt8} {weight : ℕ} (hout : ∀ b ∈ out, ¬x86Mark b)
    (hroom : ∀ i < out.length, i % 4 = 0 → 4 + i < (out ++ ys').length)
    (hat : X86At (done ++ out) ys' (passRun thirdClears 0 m out.length) s)
    (hnext : out.length % 4 = 0 ∨ ∃ b t, ys' = b :: t ∧ x86Mark b)
    (hw : labelWeight s.label < 4 * out.length + weight) :
    X86Follows e pc done (out ++ ys') m weight (.ok (.next s)) := by
  refine .next s out ys' _ hat ?_ ?_
  · rw [bytewise_run hout (by norm_num) (by simpa using hroom), List.length_append, Nat.zero_add]
    rcases hnext with h0 | ⟨b, t, rfl, hb⟩
    · rw [h0]
    · rw [bytewise_mark hb]
  · rw [List.length_append]
    omega

theorem follows_start (hlim : lim + 4 = (done ++ ys).length) :
    X86Follows e pc done ys m (labelWeight .start)
      (x86Start ⟨.start, done ++ ys, done.length, m⟩ lim) := by
  by_cases hend : lim ≤ done.length
  · rw [x86Start, if_pos hend]
    exact follows_stop (x86_short hlim (by omega))
  rw [x86Start, if_neg hend]
  obtain ⟨b0, b1, b2, b3, b4, t, rfl⟩ := @five_bytes ys (by
    rw [List.length_append] at hlim
    omega)
  have hread : getU32le (done ++ b0 :: b1 :: b2 :: b3 :: b4 :: t) done.length = .ok (le32 b0 b1 b2 b3) :=
    getU32le_behind done (b0 :: b1 :: b2 :: b3 :: b4 :: t) 0
  have hroom : ∀ i < 4, i % 4 = 0 → 4 + i < (b0 :: b1 :: b2 :: b3 :: b4 :: t).length := by
    intro i hi hmod
    simp only [List.length_cons]
    omega
  obtain ⟨h0, h1, h2, h3⟩ := bcj_byte b0 b1 b2 b3
  simp only [hread, ok_bind]
  by_cases hb0 : x86Mark b0
  · rw [if_pos (h0.mpr hb0)]
    refine @follows_pass e pc m done [] _ _ _ (by simp) (by simp) ?_ (.inl rfl)
      (Nat.lt_succ_self _)
    rw [List.append_nil]
    exact .mid b0 (b1 :: b2 :: b3 :: b4 :: t) rfl hb0
  rw [if_neg (mt h0.mp hb0)]
  by_cases hb1 : x86Mark b1
  · rw [if_pos (h1.mpr hb1)]
    have hat := @X86At.mid (done ++ [b0]) _ (m >>> 1) b1 (b2 :: b3 :: b4 :: t) rfl hb1
    rw [List.append_assoc, List.length_append] at hat
    exact @follows_pass e pc m done [b0] _ _ _ (by simpa using hb0)
      (fun i hi => hroom i (Nat.lt_trans hi (by simp))) hat (.inr ⟨b1, _, rfl, hb1⟩)
      (by simp [labelWeight])
  rw [if_neg (mt h1.mp hb1)]
  by_cases hb2 : x86Mark b2
  · rw [if_pos (h2.mpr hb2)]
    have hat := @X86At.mid (done ++ [b0, b1]) _ (m >>> 1 >>> 1) b2 (b3 :: b4 :: t) rfl hb2
    rw [List.append_assoc, List.length_append] at hat
    exact @follows_pass e pc m done [b0, b1] _ _ _ (by simp [hb0, hb1])
      (fun i hi => hroom i (Nat.lt_trans hi (by simp))) hat (.inr ⟨b2, _, rfl, hb2⟩)
      (by simp [labelWeight])
  rw [if_neg (mt h2.mp hb2)]
  by_cases hb3 : x86Mark b3
  · simp only [h3.mpr hb3, if_true]
    have hat := @X86At.a3 (done ++ [b0, b1, b2]) _ 0 b3 (b4 :: t) rfl hb3 rfl
    rw [List.append_assoc, List.length_append] at hat
    exact @follows_pass e pc m done [b0, b1, b2] _ _ _ (by simp [hb0, hb1, hb2])
      (fun i hi => hroom i (Nat.lt_trans hi (by simp))) hat (.inr ⟨b3, _, rfl, hb3⟩)
      (by simp [labelWeight])
  · simp only [mt h3.mp hb3, Bool.false_eq_true, if_false]
    have hat := @X86At.mainLoop (done ++ [b0, b1, b2, b3]) (b4 :: t) 0 rfl
    have hshift : passRun thirdClears 0 m [b0, b1, b2, b3].length = 0 := by
      simp [passRun, thirdClears]
    rw [List.append_assoc, List.length_append] at hat
    exact @follows_pass e pc m done [b0, b1, b2, b3] _ _ _ (by simp [hb0, hb1, hb2, hb3])
      hroom (by rw [hshift]; exact hat) (.inl (by simp)) (by simp [labelWeight])

/-- The strides up to the end hold every byte the plain loop looks at. -/
theorem stride_room {i c : ℕ} (hc : c = 4 * ((ys.length - 4 + 3) / 4)) (hi : i < c)
    (hmod : i % 4 = 0) : 4 + i < ys.length := by
  omega

theorem follows_mainLoop (hlim : lim + 4 = (done ++ ys).length) :
    X86Follows e pc done ys 0 (labelWeight .mainLoop)
      (x86MainLoop ⟨.mainLoop, done ++ ys, done.length, 0⟩ lim) := by
  by_cases hend : lim ≤ done.length
  · rw [x86MainLoop, if_pos hend]
    exact follows_stop (x86_short hlim (by omega))
  rw [x86MainLoop, if_neg hend]
  generalize hc : 4 * ((lim - done.length + 3) / 4) = c
  rw [List.length_append] at hlim
  have hc' : c = 4 * ((ys.length - 4 + 3) / 4) := by
    rw [← hc]
    congr 2
    omega
  have hle : c ≤ ys.length := by omega
  have hstride : done.length + c ≤ (done ++ ys).length := by
    rw [List.length_append]
    omega
  have hhay : ((done ++ ys).take (done.length + c)).drop done.length = ys.take c := by
    rw [take_behind, List.drop_left]
  have hys := List.take_append_drop c ys
  have hcount : (ys.take c).length = c := List.length_take_of_le hle
  simp only [if_neg (Nat.not_lt.mpr hstride), hhay, findBranchByte_eq]
  rcases hmark : firstMark (ys.take c) with _ | i
  · -- no branch byte: the plain loop too goes to the end of the last stride
    have hrun := @bytewise_run thirdClears e pc 0 0 done.length (ys.take c) (ys.drop c)
      (firstMark_none hmark) (by norm_num) (fun i hi hmod => by
        rw [hys]
        exact stride_room hc' (hcount ▸ hi) (by omega))
    have hleft : (ys.drop c).length ≤ 4 := by
      rw [List.length_drop]
      omega
    have hmod : (0 + c) % 4 = 0 := by omega
    rw [hys, hcount, passRun_zero, hmod, bytewise_end hleft] at hrun
    refine .stop _ _ hrun ?_ ?_ rfl
    · exact congrArg (done ++ ·) hys.symm
    · exact congrArg (done.length + ·) hcount.symm
  · obtain ⟨as, b, bs, htake, rfl, has, hb⟩ := firstMark_some hmark
    have hsplit : ys = as ++ b :: (bs ++ ys.drop c) := by
      rw [htake, List.append_assoc] at hys
      exact hys.symm
    have hat := @X86At.a3 (done ++ as) _ 0 b (bs ++ ys.drop c) rfl hb rfl
    have hshort : as.length < c := by
      rw [← hcount, htake, List.length_append, List.length_cons]
      omega
    have hroom : ∀ i < as.length, i % 4 = 0 → 4 + i < (as ++ b :: (bs ++ ys.drop c)).length := by
      intro i hi hmod
      rw [← hsplit]
      exact stride_room hc' (by omega) hmod
    rw [List.append_assoc, ← hsplit, List.length_append] at hat
    have hfollows := @follows_pass e pc 0 done _ _ _ (labelWeight .mainLoop) has hroom
      (by rw [passRun_zero]; exact hat) (.inr ⟨b, _, rfl, hb⟩) (by simp [labelWeight])
    rw [← hsplit] at hfollows
    exact hfollows

theorem x86Turn_follows (hat : X86At done ys m s) (hlim : lim + 4 = (done ++ ys).length) :
    X86Follows e pc done ys m (labelWeight s.label) (x86Turn lim (wrappingAdd32 pc 4) e s) := by
  cases hat with
  | cont k hk =>
      refine .next _ [] ys m ?_ ?_ (Nat.lt_succ_self _)
      · rw [List.append_nil, hk]
        exact .start
      · rw [List.append_nil, before_nil]
  | start => exact follows_start hlim
  | mid b t hys hb =>
      subst hys
      exact follows_mid hb hlim
  | mainLoop h0 =>
      subst h0
      exact follows_mainLoop hlim
  | a3 b t hys hb h0 =>
      subst hys h0
      exact follows_a3 hb hlim

/-- From any label on, the source's loop ends as the plain loop does. -/
theorem x86Loop_bytewise (hat : X86At done ys m s) (hlim : lim + 4 = (done ++ ys).length)
    (hfuel : 4 * ys.length + labelWeight s.label < fuel)
    (hr : x86Bytewise thirdClears e 0 (x86Place pc done.length m) ys = r) :
    ∃ s', x86Loop lim (wrappingAdd32 pc 4) e fuel s = .ok s' ∧
      s'.data = done ++ r.1 ∧ s'.p = done.length + r.2.1 ∧ s'.mask = r.2.2 := by
  induction fuel generalizing done ys m s r with
  | zero => omega
  | succ fuel ih =>
      have hfollows := @x86Turn_follows e pc _ _ _ _ _ hat hlim
      generalize hturn : x86Turn lim (wrappingAdd32 pc 4) e s = t at hfollows
      cases hfollows with
      | next s1 out ys1 m1 hat1 hrun hless =>
          have hsize := congrArg (fun r => r.1.length) hrun
          simp only [before, List.length_append, length_bytewise] at hsize
          have hdata : (done ++ ys).length = (done ++ out ++ ys1).length := by
            simp only [List.length_append]
            omega
          obtain ⟨s', hloop, hdata', hp, hmask⟩ := ih hat1 (by rw [hlim, hdata]) (by omega) rfl
          rw [hrun] at hr
          subst hr
          refine ⟨s', ?_, ?_, ?_, hmask⟩
          · rw [x86Loop, hturn, ok_bind]
            exact hloop
          · rw [hdata', List.append_assoc]
            rfl
          · rw [hp, List.length_append, Nat.add_assoc]
            rfl
      | stop s1 r1 hrun hdata hp hmask =>
          rw [hr] at hrun
          subst hrun
          refine ⟨s1, ?_, hdata, hp, hmask⟩
          rw [x86Loop, hturn, ok_bind]

theorem x86Conv_bytewise (data : List UInt8) (pc state : ℕ) (encoding : Bool) :
    x86Conv data pc state encoding =
      .ok (x86Bytewise thirdClears encoding 0 (u32 pc, state) data) := by
  have hplace : (u32 pc, state) = x86Place pc 0 state := by
    rw [x86Place, wrappingAdd32, Nat.add_zero]
    rfl
  rw [x86Conv, hplace]
  by_cases hsize : data.length < 5
  · rw [if_pos hsize, bytewise_end (by omega)]
    rfl
  · obtain ⟨s', hloop, hdata, hp, hmask⟩ := @x86Loop_bytewise encoding pc _
      (4 * data.length + 20) (data.length - 4) data [] _ _ (@X86At.start [] data state)
      (by rw [List.nil_append]; omega) (by simp [labelWeight]) rfl
    simp only [List.nil_append, List.length_nil, Nat.zero_add] at hloop hdata hp hmask
    rw [if_neg hsize, hloop, ok_bind, hdata, hp, hmask]

/-- Three kept bits are gone after three bytes, so nothing needs to clear them. -/
theorem bytewise_shift (hj : j < 4) (hm : pl.2 < 2 ^ (3 - j)) :
    x86Bytewise thirdClears e j pl xs = x86Bytewise everyByte e j pl xs := by
  fun_induction x86Bytewise thirdClears e j pl xs with
  | case1 j s => rfl
  | case2 j s b hb o0 o1 o2 o3 tail hskip ih =>
      have h8 : s.2 >>> 1 < 2 ^ 3 := by
        have hle : 2 ^ (3 - j) ≤ 2 ^ 3 := Nat.pow_le_pow_right (by norm_num) (Nat.sub_le 3 j)
        rw [Nat.shiftRight_eq_div_pow]
        omega
      rw [x86Bytewise, if_pos hb, if_pos hskip,
        ih (by norm_num) (Nat.or_lt_two_pow h8 (by norm_num))]
  | case3 j s b hb o0 o1 o2 o3 tail hskip ih =>
      rw [x86Bytewise, if_pos hb, if_neg hskip, ih (by norm_num) (by norm_num)]
  | case4 =>
      rw [x86Bytewise, if_pos ‹x86Mark _›]
      assumption
  | case5 j s b rest hb hend =>
      conv_rhs => unfold x86Bytewise
      rw [if_neg hb, if_pos hend]
  | case6 j s b rest hb hroom ih =>
      have hpass : thirdClears j s.2 = everyByte j s.2 ∧
          thirdClears j s.2 < 2 ^ (3 - (j + 1) % 4) := by
        rw [thirdClears, everyByte, Nat.shiftRight_eq_div_pow]
        interval_cases j
        · exact ⟨rfl, by simp at hm ⊢; omega⟩
        · exact ⟨rfl, by simp at hm ⊢; omega⟩
        · exact ⟨by simp at hm ⊢; omega, by simp⟩
        · exact ⟨rfl, by simp at hm ⊢; omega⟩
      conv_rhs => unfold x86Bytewise
      rw [if_neg hb, if_neg hroom, ih (Nat.mod_lt _ (by norm_num)) hpass.2, hpass.1]

/-- A mark is one of the two bytes that begin a branch. -/
theorem x86Mark_iff (b : UInt8) : x86Mark b ↔ b = 0xE8 ∨ b = 0xE9 := by
  have h8 : b = 0xE8 ↔ b.toNat = 0xE8 := by
    rw [← UInt8.toNat_inj]
    rfl
  have h9 : b = 0xE9 ↔ b.toNat = 0xE9 := by
    rw [← UInt8.toNat_inj]
    rfl
  rw [h8, h9, x86Mark]
  omega

/-- What the word scan returns: the first branch byte, or nothing when there is none. -/
structure FirstBranch (hay : List UInt8) (r : Option ℕ) : Prop where
  found : ∀ i, r = some i → (hay[i]? = some 0xE8 ∨ hay[i]? = some 0xE9) ∧
    ∀ j < i, hay[j]? ≠ some 0xE8 ∧ hay[j]? ≠ some 0xE9
  absent : r = none → (0xE8 : UInt8) ∉ hay ∧ (0xE9 : UInt8) ∉ hay

theorem findBranchByte_first (hay : List UInt8) : FirstBranch hay (findBranchByte hay) := by
  rw [findBranchByte_eq]
  refine ⟨fun i hi => ?_, fun hnone => ?_⟩
  · obtain ⟨as, b, bs, rfl, rfl, has, hb⟩ := firstMark_some hi
    refine ⟨?_, fun j hj => ?_⟩
    · rw [List.getElem?_append_right le_rfl, Nat.sub_self, List.getElem?_cons_zero]
      exact ((x86Mark_iff b).mp hb).imp (congrArg some) (congrArg some)
    · have hmem := has as[j] (List.getElem_mem hj)
      rw [x86Mark_iff, not_or] at hmem
      rw [List.getElem?_append_left hj, List.getElem?_eq_getElem hj]
      exact ⟨fun h => hmem.1 (Option.some.inj h), fun h => hmem.2 (Option.some.inj h)⟩
  · have hall := firstMark_none hnone
    exact ⟨fun h => hall _ h ((x86Mark_iff _).mpr (.inl rfl)),
      fun h => hall _ h ((x86Mark_iff _).mpr (.inr rfl))⟩

end

/-- The converter with the word scan is the plain loop, from any kept bits; from three of them
the plain loop only ever shifts. -/
theorem word_scan (data : List UInt8) (pc state : ℕ) (encoding : Bool) :
    x86Conv data pc state encoding =
        .ok (x86Bytewise thirdClears encoding 0 (u32 pc, state) data) ∧
      (state ≤ 7 → x86Conv data pc state encoding =
        .ok (x86Bytewise everyByte encoding 0 (u32 pc, state) data)) ∧
      ∀ hay, findBranchByte hay = branchByteScalar hay ∧
        FirstBranch hay (findBranchByte hay) := by
  refine ⟨x86Conv_bytewise data pc state encoding, fun hstate => ?_, fun hay => ⟨?_, ?_⟩⟩
  · rw [x86Conv_bytewise, bytewise_shift (by norm_num) (Nat.lt_succ_of_le hstate)]
  · rw [findBranchByte_eq, branchByteScalar_eq]
  · exact findBranchByte_first hay

/-- Two branch bytes side by side, the second one's operand left alone. -/
theorem word_scan_seven :
    x86Conv [0xE8, 0xE9, 1, 0, 0, 0, 0, 0, 0] 16 7 true =
      .ok (x86Bytewise everyByte true 0 (u32 16, 7) [0xE8, 0xE9, 1, 0, 0, 0, 0, 0, 0]) :=
  (word_scan [0xE8, 0xE9, 1, 0, 0, 0, 0, 0, 0] 16 7 true).2.1 (by decide)

end LzmaTurbo.Filters
