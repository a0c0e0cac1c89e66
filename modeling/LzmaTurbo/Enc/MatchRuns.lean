import LzmaTurbo.Enc.CodedDecisions
import LzmaTurbo.Enc.MatchFinder

/-!
# How far a match goes

The eight-byte scan stops at the first byte that differs, as a scan byte by byte does. A window
that holds the input's bytes gives the input's answer.
-/
namespace LzmaTurbo.Enc
open Machine FirstDiff

section
variable {buf back fore : List UInt8} {i j off fuel : ℕ}

theorem slice_ok (h : i ≤ j) (hj : j ≤ buf.length) :
    slice buf i j = .ok ((buf.drop i).take (j - i)) :=
  if_pos ⟨h, hj⟩

theorem word_step (hlen : back.length = fore.length) (hoff : off + 8 ≤ fore.length) :
    commonLen (back.drop off) (fore.drop off) =
      if leWord ((back.drop off).take 8) ^^^ leWord ((fore.drop off).take 8) ≠ 0 then
        trailingZeros 64 (leWord ((back.drop off).take 8) ^^^ leWord ((fore.drop off).take 8)) >>> 3
      else 8 + commonLen (back.drop (off + 8)) (fore.drop (off + 8)) := by
  have hback : ((back.drop off).take 8).length = 8 := by
    rw [List.length_take, List.length_drop]
    omega
  have hfore : ((fore.drop off).take 8).length = 8 := by
    rw [List.length_take, List.length_drop]
    omega
  obtain ⟨hsame, hdiff⟩ := word_diff (hback.trans hfore.symm)
  have hsplit : ∀ xs : List UInt8, (xs.drop off).take 8 ++ xs.drop (off + 8) = xs.drop off := by
    intro xs
    rw [← List.drop_drop, List.take_append_drop]
  conv_lhs => rw [← hsplit back, ← hsplit fore]
  split
  · rename_i hne
    obtain ⟨hcommon, hlt⟩ := hdiff hne
    rw [commonLen_parted (hback.trans hfore.symm) hlt, ← hcommon, hback,
      Nat.shiftRight_eq_div_pow]
  · rename_i heq
    rw [commonLen_append (hback.trans hfore.symm) (hsame (not_not.mp heq)), hback]

theorem run8_eq (hlen : back.length = fore.length) (hoff : off ≤ fore.length)
    (hfuel : fore.length < fuel + off) :
    run8 back fore fuel off = off + commonLen (back.drop off) (fore.drop off) := by
  induction fuel generalizing off with
  | zero => omega
  | succ fuel ih =>
      rw [run8]
      by_cases h8 : off + 8 ≤ fore.length
      · rw [if_pos h8, word_step hlen h8]
        simp only
        split
        · rfl
        · rw [ih h8 (by omega), Nat.add_assoc]
      · have hdrop : (back.drop off).length = (fore.drop off).length := by
          rw [List.length_drop, List.length_drop, hlen]
        have hshift := stop_shift (k := off) (i := 0) (n := fore.length - off)
          (p := fun i => (back.drop off)[i]? == (fore.drop off)[i]?)
          (q := fun i => back[i]? == fore[i]?) fun j _ _ => by
            rw [List.getElem?_drop, List.getElem?_drop, Nat.add_comm off]
        rw [if_neg h8, commonLen_eq_stop hdrop, List.length_drop, hlen, Nat.add_comm off, hshift,
          Nat.zero_add]

theorem commonLen_spec (hlen : back.length = fore.length) :
    commonLen back fore ≤ fore.length ∧ (∀ k < commonLen back fore, back[k]? = fore[k]?) ∧
      (commonLen back fore < fore.length →
        back[commonLen back fore]? ≠ fore[commonLen back fore]?) := by
  have hstop := commonLen_eq_stop hlen
  have hle := stop_le (fun i => back[i]? == fore[i]?) back.length 0
  rw [← hstop] at hle
  refine ⟨by omega, fun k hk => ?_, fun hlt heq => ?_⟩
  · rw [hstop] at hk
    exact beq_iff_eq.mp (stop_holds (Nat.zero_le k) hk)
  · have hfails := stop_fails (p := fun i => back[i]? == fore[i]?) (n := back.length) (i := 0)
      (by rw [← hstop]; omega)
    rw [← hstop, beq_eq_false_iff_ne] at hfails
    exact hfails heq

/-- The scan ends at the limit or at the first byte that differs. -/
structure RunsTo (buf : List UInt8) (d start limit c : ℕ) : Prop where
  start_le : start ≤ c
  le_limit : c ≤ limit
  same : ∀ i, start ≤ i → i < c → buf[i]? = buf[i - d]?
  parts : c < limit → buf[c]? ≠ buf[c - d]?

theorem matchRun_spec {d start limit : ℕ} (hd : d ≤ start) (hle : start ≤ limit)
    (hlen : limit ≤ buf.length) :
    ∃ c, matchRun buf d start limit = .ok c ∧ RunsTo buf d start limit c := by
  unfold matchRun
  by_cases hempty : limit ≤ start
  · rw [if_pos hempty]
    exact ⟨start, rfl, le_rfl, hle, fun i h1 h2 => by omega, fun h => by omega⟩
  · rw [if_neg hempty, sub_ok hd, ok_bind, sub_ok (by omega : d ≤ limit), ok_bind,
      slice_ok (by omega) (by omega), ok_bind, slice_ok hle hlen, ok_bind]
    generalize hback : (buf.drop (start - d)).take (limit - d - (start - d)) = back
    generalize hfore : (buf.drop start).take (limit - start) = fore
    have hblen : back.length = limit - start := by
      rw [← hback, List.length_take, List.length_drop]
      omega
    have hflen : fore.length = limit - start := by
      rw [← hfore, List.length_take, List.length_drop]
      omega
    have hbget : ∀ k < limit - start, back[k]? = buf[start + k - d]? := by
      intro k hk
      rw [← hback, List.getElem?_take_of_lt (by omega), List.getElem?_drop]
      congr 1
      omega
    have hfget : ∀ k < limit - start, fore[k]? = buf[start + k]? := by
      intro k hk
      rw [← hfore, List.getElem?_take_of_lt (by omega), List.getElem?_drop]
    obtain ⟨hcle, hsame, hparts⟩ := commonLen_spec (hblen.trans hflen.symm)
    rw [run8_eq (hblen.trans hflen.symm) (Nat.zero_le _) (by omega), Nat.zero_add, List.drop_zero,
      List.drop_zero]
    refine ⟨_, rfl, Nat.le_add_right _ _, by omega, fun i h1 h2 => ?_, fun hlt => ?_⟩
    · have hk := hsame (i - start) (by omega)
      rwa [hbget _ (by omega), hfget _ (by omega), Nat.add_sub_cancel' h1, eq_comm] at hk
    · have hk := hparts (by omega)
      rw [hbget _ (by omega), hfget _ (by omega)] at hk
      exact hk.symm

end
end LzmaTurbo.Enc
