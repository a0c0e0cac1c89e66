import LzmaTurbo.Filters.Delta
import Mathlib.Data.List.GetD

/-!
# What the delta filter's loops do

Any block no longer than the history is rewritten by adding the history to it, so
every loop of the source is a chain of blocks. The encoder walks backwards; there
each byte is taken from what the buffer held before.
-/
namespace LzmaTurbo.Filters
open Rewriter

namespace Delta

variable {d : Delta} {xs ys data temp hist : List UInt8} {delta n i : ℕ}

theorem zipWith_append_short (f : UInt8 → UInt8 → UInt8) (h : xs.length ≤ ys.length)
    (zs : List UInt8) : List.zipWith f xs (ys ++ zs) = List.zipWith f xs ys := by
  induction xs generalizing ys with
  | nil => simp
  | cons x xs ih =>
      cases ys with
      | nil => simp at h
      | cons y ys =>
          simp only [List.length_cons] at h
          rw [List.cons_append, List.zipWith_cons_cons, List.zipWith_cons_cons,
            ih (Nat.le_of_succ_le_succ h)]

/-- A block no longer than the history. -/
theorem block_reaches (hn : n ≤ hist.length) (hx : n ≤ xs.length) :
    (deltaRewriter false).Reaches hist xs (List.zipWith (· + ·) (xs.take n) hist)
      (hist.drop n ++ List.zipWith (· + ·) (xs.take n) hist) (xs.drop n) := by
  induction n generalizing hist xs with
  | zero => simpa using .refl hist xs
  | succ n ih =>
      cases hist with
      | nil => cases hn
      | cons a t =>
          cases xs with
          | nil => cases hx
          | cons b bs =>
              simp only [List.length_cons, Nat.succ_le_succ_iff] at hn hx
              have hstep : (deltaRewriter false).step (a :: t) (b :: bs) =
                  some ([b + a], t ++ [b + a]) := rfl
              have hrest := @ih bs (t ++ [b + a]) (by rw [List.length_append]; omega) hx
              have hlen : (bs.take n).length ≤ t.length := by
                rw [List.length_take]
                omega
              rw [zipWith_append_short _ hlen, List.drop_append_of_le_length hn,
                List.append_assoc] at hrest
              exact .step hstep hrest

theorem one_reaches (b : UInt8) (rest hist : List UInt8) (a : UInt8) :
    (deltaRewriter false).Reaches (a :: hist) (b :: rest) [b + a] (hist ++ [b + a]) rest :=
  Reaches.one (s := a :: hist) (rfl : _ = some ([b + a], hist ++ [b + a]))

theorem decodeOne_reaches (previous : UInt8) (data : List UInt8) :
    (deltaRewriter false).Reaches [previous] data (decodeOne previous data).1
      [(decodeOne previous data).2] [] := by
  induction data generalizing previous with
  | nil => exact .refl _ _
  | cons b rest ih =>
      have hone := one_reaches b rest [] previous
      rw [UInt8.add_comm] at hone
      exact hone.trans (ih (previous + b))

theorem decodeRemainder_reaches (hh : 0 < hist.length) (data : List UInt8) :
    (deltaRewriter false).Reaches hist data (decodeRemainder hist data).1
      (decodeRemainder hist data).2 [] ∧ (decodeRemainder hist data).2.length = hist.length := by
  induction data generalizing hist with
  | nil => exact ⟨.refl _ _, rfl⟩
  | cons b rest ih =>
      cases hist with
      | nil => cases hh
      | cons a t =>
          obtain ⟨hreach, hlen⟩ := @ih (t ++ [b + a]) (by simp)
          exact ⟨(one_reaches b rest t a).trans hreach, hlen.trans (by simp)⟩

theorem decodeGroups_reaches (hh : hist.length = 4) (data : List UInt8) :
    (deltaRewriter false).Reaches hist data (decodeGroups hist data).1
      (decodeGroups hist data).2 [] ∧ (decodeGroups hist data).2.length = 4 := by
  fun_induction decodeGroups hist data with
  | case1 previous b0 b1 b2 b3 rest group out last hrec ih =>
      have hgroup : group.length = 4 := by
        change (List.zipWith _ _ _).length = 4
        rw [List.length_zipWith, hh]
        rfl
      obtain ⟨hreach, hlen⟩ := ih hgroup
      have hblock := @block_reaches (b0 :: b1 :: b2 :: b3 :: rest) previous 4 hh.ge (by simp)
      rw [← hh, List.drop_length, hh] at hblock
      rw [hrec] at hreach hlen
      exact ⟨hblock.trans hreach, hlen⟩
  | case2 =>
      exact ⟨(decodeRemainder_reaches (by omega) _).1,
        (decodeRemainder_reaches (by omega) _).2.trans hh⟩

/-- The last `delta` bytes of a buffer are the history of what follows. -/
theorem addBehind_reaches (hd : 0 < delta) (done ys : List UInt8) (hle : delta ≤ done.length) :
    ∃ out, addBehind delta ys.length done.length (done ++ ys) = done ++ out ∧
      (deltaRewriter false).Reaches (done.drop (done.length - delta)) ys out
        ((done ++ out).drop ((done ++ out).length - delta)) [] := by
  induction ys generalizing done with
  | nil => exact ⟨[], rfl, by simpa using .refl _ _⟩
  | cons y ys ih =>
      obtain ⟨a, t, hhist⟩ := List.exists_cons_of_length_pos
        (l := done.drop (done.length - delta)) (by rw [List.length_drop]; omega)
      have hread : (done ++ y :: ys).getD done.length 0 = y := by
        rw [List.getD_eq_getElem?_getD, List.getElem?_append_right le_rfl, Nat.sub_self]
        rfl
      have hback : (done ++ y :: ys).getD (done.length - delta) 0 = a := by
        rw [List.getD_eq_getElem?_getD, List.getElem?_append_left (by omega), ← List.head?_drop,
          hhist]
        rfl
      have hset : (done ++ y :: ys).set done.length (y + a) = done ++ [y + a] ++ ys := by
        rw [List.set_append_right _ _ le_rfl, Nat.sub_self, List.append_assoc]
        rfl
      have hlen : (done ++ [y + a]).length = done.length + 1 := List.length_append
      have hnext : (done ++ [y + a]).drop ((done ++ [y + a]).length - delta) = t ++ [y + a] := by
        rw [hlen, List.drop_append_of_le_length (by omega),
          show done.length + 1 - delta = done.length - delta + 1 by omega, ← List.drop_drop, hhist]
        rfl
      obtain ⟨out, hrun, hreach⟩ := ih (done ++ [y + a]) (by omega)
      rw [hnext] at hreach
      refine ⟨[y + a] ++ out, ?_, ?_⟩
      · rw [List.length_cons, addBehind, hread, hback, hset, ← hlen, hrun, List.append_assoc]
      · rw [hhist, ← List.append_assoc]
        exact (one_reaches y ys t a).trans hreach

theorem addBlocks_reaches (hd : 0 < delta) (fuel : ℕ) (done ys : List UInt8)
    (hle : delta ≤ done.length) (hfuel : ys.length ≤ fuel) :
    ∃ out, addBlocks delta fuel done.length (done ++ ys) = done ++ out ∧
      (deltaRewriter false).Reaches (done.drop (done.length - delta)) ys out
        ((done ++ out).drop ((done ++ out).length - delta)) [] := by
  induction fuel generalizing done ys with
  | zero =>
      have hys : ys = [] := List.eq_nil_of_length_eq_zero (Nat.le_zero.mp hfuel)
      subst hys
      exact ⟨[], rfl, by simpa using .refl _ _⟩
  | succ fuel ih =>
      by_cases hy : 0 < ys.length
      · have hlt : done.length < (done ++ ys).length := by
          rw [List.length_append]
          omega
        have hsub : (done ++ ys).length - done.length = ys.length := by
          rw [List.length_append]
          omega
        have hhist : (done.drop (done.length - delta)).length = delta := by
          rw [List.length_drop]
          omega
        generalize hn : min delta ys.length = n
        have hnd : n ≤ delta := hn ▸ Nat.min_le_left _ _
        have hny : n ≤ ys.length := hn ▸ Nat.min_le_right _ _
        have hblock := @block_reaches ys (done.drop (done.length - delta)) n (by omega) hny
        have hsrc : List.zipWith (· + ·) (ys.take n) ((done.drop (done.length - delta)).take n) =
            List.zipWith (· + ·) (ys.take n) (done.drop (done.length - delta)) := by
          conv_rhs => rw [← List.take_append_drop n (done.drop (done.length - delta))]
          refine (zipWith_append_short _ ?_ _).symm
          rw [List.length_take, List.length_take]
          omega
        generalize hout : List.zipWith (· + ·) (ys.take n) (done.drop (done.length - delta)) = out
          at hblock hsrc
        have houtlen : out.length = n := by
          rw [← hout, List.length_zipWith, List.length_take, hhist]
          omega
        have hlen : (done ++ out).length = done.length + n := by
          rw [List.length_append, houtlen]
        have hnext : (done ++ out).drop ((done ++ out).length - delta) =
            (done.drop (done.length - delta)).drop n ++ out := by
          rw [hlen, List.drop_append_of_le_length (by omega), List.drop_drop]
          congr 2
          omega
        obtain ⟨out', hrun, hreach⟩ := ih (done ++ out) (ys.drop n) (by omega)
          (by rw [List.length_drop]; omega)
        rw [hnext] at hreach
        refine ⟨out ++ out', ?_, ?_⟩
        · rw [addBlocks, if_pos hlt, hsub, hn, List.take_left, List.drop_left]
          simp only [hsrc]
          rw [← hlen, hrun, List.append_assoc]
        · rw [← List.append_assoc]
          exact hblock.trans hreach
      · have hys : ys = [] := List.eq_nil_of_length_eq_zero (by omega)
        subst hys
        refine ⟨[], ?_, by simpa using .refl _ _⟩
        rw [addBlocks, if_neg (by simp)]

/-- A whole call of the decoder, whatever path it takes. -/
theorem decode_reaches (kernel : Bool) (d : Delta) (data : List UInt8) :
    (deltaRewriter false).Reaches d.history data (d.decode kernel data).1
      (d.decode kernel data).2.history [] ∧ (d.decode kernel data).2.distance = d.distance := by
  have hpos := d.distance_pos
  have hle := d.distance_le
  have hstate := d.state_length
  by_cases h0 : data.length = 0
  · rw [decode, if_pos h0, List.eq_nil_of_length_eq_zero h0]
    exact ⟨.refl _ _, rfl⟩
  rw [decode, if_neg h0]
  by_cases h1 : d.distance = 1
  · obtain ⟨a, t, ht⟩ := List.exists_cons_of_length_pos (l := d.state)
      (by rw [hstate]; exact Nat.succ_pos _)
    have hhist : d.history = [d.state.getD 0 0] := by
      rw [history, h1, ht]
      rfl
    rw [if_pos h1]
    refine ⟨?_, rfl⟩
    change (deltaRewriter false).Reaches _ _ _ (d.keep [_]).history []
    rw [keep_history (h1 ▸ rfl), hhist]
    exact decodeOne_reaches _ _
  rw [if_neg h1]
  by_cases h4 : d.distance = 4
  · have hhist : d.history = d.state.take 4 := by rw [history, h4]
    obtain ⟨hreach, hlen⟩ := @decodeGroups_reaches d.history (by simp [h4]) data
    rw [if_pos h4, ← hhist]
    refine ⟨?_, rfl⟩
    change (deltaRewriter false).Reaches _ _ _ (d.keep _).history []
    rw [keep_history (hlen.trans h4.symm)]
    exact hreach
  rw [if_neg h4]
  have hzip : ∀ n ≤ d.distance, List.zipWith (· + ·) (data.take n) d.state =
      List.zipWith (· + ·) (data.take n) d.history := by
    intro n hn
    have hsplit : d.state = d.history ++ d.state.drop d.distance := (List.take_append_drop _ _).symm
    conv_lhs => rw [hsplit]
    exact zipWith_append_short _ (by rw [length_history, List.length_take]; omega) _
  by_cases hs : data.length ≤ d.distance
  · have hblock := @block_reaches data d.history data.length (by simpa using hs) le_rfl
    rw [← hzip _ hs, List.take_length, List.drop_length] at hblock
    rw [if_pos hs]
    refine ⟨?_, rfl⟩
    change (deltaRewriter false).Reaches _ _ _ (d.keep _).history []
    rw [keep_history]
    · exact hblock
    · rw [← history, List.length_append, List.length_drop, List.length_zipWith, length_history]
      omega
  rw [if_neg hs]
  have hblock := @block_reaches data d.history d.distance (by simp) (by omega)
  rw [← hzip _ le_rfl, ← length_history, List.drop_length, length_history, List.nil_append] at hblock
  generalize hfirst : List.zipWith (· + ·) (data.take d.distance) d.state = first at hblock
  have hlen : first.length = d.distance := by
    rw [← hfirst, List.length_zipWith, List.length_take]
    unfold deltaStateSize at *
    omega
  have hrest : ∃ out,
      (if 16 ≤ d.distance ∧ kernel = true then
        addBlocks d.distance data.length d.distance (first ++ data.drop d.distance)
      else addBehind d.distance (data.length - d.distance) d.distance
        (first ++ data.drop d.distance)) = first ++ out ∧
      (deltaRewriter false).Reaches first (data.drop d.distance) out
        ((first ++ out).drop ((first ++ out).length - d.distance)) [] := by
    have hdrop : first.drop (first.length - d.distance) = first := by
      rw [hlen, Nat.sub_self, List.drop_zero]
    by_cases hk : 16 ≤ d.distance ∧ kernel = true
    · have h := addBlocks_reaches hpos data.length first (data.drop d.distance) hlen.ge
        (by rw [List.length_drop]; omega)
      rw [hdrop, hlen] at h
      rw [if_pos hk]
      exact h
    · have h := addBehind_reaches hpos first (data.drop d.distance) hlen.ge
      rw [hdrop, hlen, List.length_drop] at h
      rw [if_neg hk]
      exact h
  obtain ⟨out, hrun, hreach⟩ := hrest
  have hall := hblock.trans hreach
  have hsize := hall.length_eq
  rw [List.length_nil, Nat.add_zero] at hsize
  simp only [hrun]
  refine ⟨?_, rfl⟩
  rw [keep_history]
  · rw [← hsize]
    exact hall
  · rw [List.length_drop]
    omega

@[simp] theorem length_subBehind (delta n : ℕ) (data : List UInt8) :
    (subBehind delta n data).length = data.length := by
  induction n generalizing data with
  | zero => rfl
  | succ n ih => rw [subBehind, ih, List.length_set]

@[simp] theorem length_subFirst (temp : List UInt8) (n : ℕ) (data : List UInt8) :
    (subFirst temp n data).length = data.length := by
  induction n generalizing data with
  | zero => rfl
  | succ n ih => rw [subFirst, ih, List.length_set]

theorem getD_set (data : List UInt8) (j : ℕ) (v : UInt8) (h : i ≠ j) :
    (data.set j v).getD i 0 = data.getD i 0 := by
  rw [List.getD_eq_getElem?_getD, List.getElem?_set_ne h.symm, ← List.getD_eq_getElem?_getD]

theorem getD_set_self (data : List UInt8) (v : UInt8) (h : i < data.length) :
    (data.set i v).getD i 0 = v := by
  rw [List.getD_eq_getElem?_getD, List.getElem?_set_self h]
  rfl

/-- Walking backwards, each byte still sees its unencoded predecessor. -/
theorem subBehind_getD (hd : 0 < delta) (hn : delta + n ≤ data.length) (i : ℕ) :
    (subBehind delta n data).getD i 0 =
      if delta ≤ i ∧ i < delta + n then data.getD i 0 - data.getD (i - delta) 0
      else data.getD i 0 := by
  induction n generalizing data with
  | zero => rw [subBehind, if_neg (by omega)]
  | succ n ih =>
      rw [subBehind, ih (by rw [List.length_set]; omega)]
      by_cases hi : delta ≤ i ∧ i < delta + n
      · rw [if_pos hi, if_pos (by omega), getD_set _ _ _ (by omega), getD_set _ _ _ (by omega)]
      · rw [if_neg hi]
        by_cases hlast : i = delta + n
        · subst hlast
          rw [if_pos (by omega), getD_set_self _ _ (by omega), Nat.add_sub_cancel_left]
        · rw [if_neg (by omega), getD_set _ _ _ hlast]

theorem subFirst_getD (hn : n ≤ data.length) (i : ℕ) :
    (subFirst temp n data).getD i 0 =
      if i < n then data.getD i 0 - temp.getD i 0 else data.getD i 0 := by
  induction n generalizing data with
  | zero => rw [subFirst, if_neg (by omega)]
  | succ n ih =>
      rw [subFirst, ih (by rw [List.length_set]; omega)]
      by_cases hi : i < n
      · rw [if_pos hi, if_pos (by omega), getD_set _ _ _ (by omega)]
      · rw [if_neg hi]
        by_cases hlast : i = n
        · subst hlast
          rw [if_pos (by omega), getD_set_self _ _ (by omega)]
        · rw [if_neg (by omega), getD_set _ _ _ hlast]

theorem getD_append (xs ys : List UInt8) (i : ℕ) :
    (xs ++ ys).getD i 0 = if i < xs.length then xs.getD i 0 else ys.getD (i - xs.length) 0 := by
  split
  next h => exact List.getD_append _ _ _ _ h
  next h => exact List.getD_append_right _ _ _ _ (Nat.le_of_not_lt h)

/-- Both loops of the encoder at once. -/
theorem sub_loops (hd : 0 < temp.length) (hle : temp.length ≤ data.length) :
    subFirst temp temp.length (subBehind temp.length (data.length - temp.length) data) =
      List.zipWith (· - ·) data (temp ++ data) := by
  have hlen : (List.zipWith (· - ·) data (temp ++ data)).length = data.length := by
    rw [List.length_zipWith, List.length_append]
    omega
  refine List.ext_getElem (by simp [hlen]) fun i h1 h2 => ?_
  have hi : i < data.length := hlen ▸ h2
  rw [← List.getD_eq_getElem _ 0 h1, subFirst_getD (by simpa using hle), List.getElem_zipWith,
    ← List.getD_eq_getElem data 0 hi,
    ← List.getD_eq_getElem (temp ++ data) 0 (by rw [List.length_append]; omega), getD_append,
    subBehind_getD hd (by omega)]
  by_cases hf : i < temp.length
  · rw [if_pos hf, if_pos hf, if_neg (by omega)]
  · rw [if_neg hf, if_neg hf, if_pos (by omega)]

/-- Slots read round the end of `temp`. -/
theorem rotated_eq (hn : n ≤ temp.length) (hi : i ≤ temp.length) :
    rotated temp.length temp n i = (temp.drop i ++ temp).take n := by
  induction n generalizing i with
  | zero => rfl
  | succ n ih =>
      have hcons : ∀ j, j < temp.length → temp.drop j = temp.getD j 0 :: temp.drop (j + 1) := by
        intro j hj
        rw [List.getD_eq_getElem _ _ hj]
        exact List.drop_eq_getElem_cons hj
      by_cases hend : i = temp.length
      · have h := ih (by omega) (show 1 ≤ temp.length by omega)
        have h0 := hcons 0 (by omega)
        rw [List.drop_zero, Nat.zero_add] at h0
        rw [List.take_append_of_le_length (by rw [List.length_drop]; omega)] at h
        rw [rotated, if_pos hend, hend, List.drop_length, List.nil_append]
        conv_rhs => rw [h0]
        rw [List.take_succ_cons, h]
      · rw [rotated, if_neg hend, ih (by omega) (by omega), hcons i (by omega)]
        rfl

/-- What the encoder makes of a buffer, byte by byte. -/
theorem sub_reaches (hh : 0 < hist.length) (data : List UInt8) :
    (deltaRewriter true).Reaches hist data (List.zipWith (· - ·) data (hist ++ data))
      ((hist ++ data).drop data.length) [] := by
  induction data generalizing hist with
  | nil => simpa using .refl hist []
  | cons b rest ih =>
      cases hist with
      | nil => cases hh
      | cons a t =>
          have hrest := @ih (t ++ [b]) (by simp)
          rw [List.append_assoc] at hrest
          have hstep : (deltaRewriter true).step (a :: t) (b :: rest) = some ([b - a], t ++ [b]) := rfl
          exact (Reaches.one hstep).trans hrest

/-- A whole call of the encoder. -/
theorem encode_reaches (d : Delta) (data : List UInt8) :
    (deltaRewriter true).Reaches d.history data (d.encode data).1 (d.encode data).2.history [] ∧
      (d.encode data).2.distance = d.distance := by
  have hlen := length_history d
  have hpos := d.distance_pos
  have hsub := @sub_reaches d.history (by omega) data
  by_cases h0 : data.length = 0
  · rw [encode, if_pos h0, List.eq_nil_of_length_eq_zero h0]
    exact ⟨.refl _ _, rfl⟩
  rw [encode, if_neg h0]
  by_cases hs : data.length ≤ d.distance
  · rw [if_pos hs, ← history]
    refine ⟨?_, rfl⟩
    have htemp : (data ++ d.history.drop data.length).length = d.distance := by
      rw [List.length_append, List.length_drop]
      omega
    have hround : rotated d.distance (data ++ d.history.drop data.length) d.distance data.length =
        (d.history ++ data).drop data.length := by
      have h := @rotated_eq (data ++ d.history.drop data.length) d.distance data.length
        (by omega) (by omega)
      rw [htemp, List.drop_left, ← List.append_assoc] at h
      rw [h, List.take_append_of_le_length, List.take_of_length_le,
        List.drop_append_of_le_length (by omega)]
      · rw [List.length_append, List.length_drop]
        omega
      · rw [List.length_append, List.length_drop]
        omega
    change (deltaRewriter true).Reaches _ _ _ (d.keep _).history []
    rw [hround, keep_history]
    · rw [zipWith_append_short _ (by omega)] at hsub
      exact hsub
    · rw [List.length_drop, List.length_append]
      omega
  · rw [if_neg hs, ← history]
    refine ⟨?_, rfl⟩
    have hloops := @sub_loops data d.history (by omega) (by omega)
    rw [hlen] at hloops
    change (deltaRewriter true).Reaches _ _ _ (d.keep _).history []
    rw [hloops, keep_history (by rw [List.length_drop]; omega)]
    have hdrop : (d.history ++ data).drop data.length = data.drop (data.length - d.distance) := by
      rw [List.drop_append, List.drop_of_length_le (by omega), hlen]
      rfl
    rw [← hdrop]
    exact hsub

end Delta

end LzmaTurbo.Filters
