import Mathlib.Data.List.Basic
import Mathlib.Data.List.Infix
import Mathlib.Tactic.Linarith

/-!
# A circular buffer as the tail of an unbounded history

Histories are listed newest byte first, so a distance is a list index and a
write is a cons. The buffer holds the last `size` bytes of its history; nothing
is said about the cells older than that, or about cells past `size`.
-/
namespace LzmaTurbo.Window

/-- The cell `k` bytes behind the write position. -/
def back (size pos k : ℕ) : ℕ := if pos < k then pos + size - k else pos - k

structure Holds (dic : Array UInt8) (size pos : ℕ) (h : List UInt8) : Prop where
  pos_le : pos ≤ size
  size_le : size ≤ dic.size
  bytes : ∀ k, k < h.length → k < size → dic[back size pos (k + 1)]? = h[k]?

variable {dic : Array UInt8} {size pos : ℕ} {h : List UInt8}

theorem Holds.nil (hp : pos ≤ size) (hs : size ≤ dic.size) : Holds dic size pos [] :=
  ⟨hp, hs, fun k hk => by simp at hk⟩

theorem Holds.push (w : Holds dic size pos h) (hp : pos < size) (b : UInt8) :
    Holds (dic.setIfInBounds pos b) size (pos + 1) (b :: h) := by
  refine ⟨hp, by simpa using w.size_le, ?_⟩
  intro k hk hks
  have hdic := w.size_le
  cases k with
  | zero =>
      have hb : back size (pos + 1) (0 + 1) = pos := by unfold back; split <;> omega
      simp only [hb, Array.getElem?_setIfInBounds_self, List.getElem?_cons_zero]
      rw [if_pos (by omega)]
  | succ k =>
      have hb : back size (pos + 1) (k + 1 + 1) = back size pos (k + 1) := by
        unfold back; split <;> split <;> omega
      have hne : pos ≠ back size pos (k + 1) := by unfold back; split <;> omega
      rw [hb, Array.getElem?_setIfInBounds_ne hne, List.getElem?_cons_succ]
      exact w.bytes k (by simpa using hk) (by omega)

/-- At the end of the buffer the write position may return to its start. -/
theorem Holds.wrap (w : Holds dic size size h) : Holds dic size 0 h := by
  refine ⟨by omega, w.size_le, ?_⟩
  intro k hk hks
  have hb : back size 0 (k + 1) = back size size (k + 1) := by
    unfold back; split <;> split <;> omega
  rw [hb]
  exact w.bytes k hk hks

theorem Holds.get (w : Holds dic size pos h) {k : ℕ} (hk : k < h.length) (hs : k < size) :
    dic[back size pos (k + 1)]? = some (h.getD k 0) := by
  rw [w.bytes k hk hs, List.getD_eq_getElem?_getD, List.getElem?_eq_getElem hk]
  rfl

/-- The newest bytes, read forwards from the buffer. -/
theorem Holds.extract {new old : List UInt8} {start : ℕ}
    (w : Holds dic size pos (new ++ old)) (hs : start + new.length = pos) :
    (dic.extract start pos).toList = new.reverse := by
  have hp := w.pos_le
  have hd := w.size_le
  apply List.ext_getElem?
  intro i
  rw [Array.getElem?_toList, Array.getElem?_extract]
  by_cases hi : i < new.length
  · have hk := w.bytes (new.length - 1 - i) (by simp; omega) (by omega)
    have hb : back size pos (new.length - 1 - i + 1) = start + i := by
      unfold back; split <;> omega
    rw [hb, List.getElem?_append_left (by omega)] at hk
    rw [if_pos (by omega), hk, List.getElem?_reverse hi]
  · rw [if_neg (by omega), List.getElem?_eq_none (by simp; omega)]

/-- What lies below `n` is not written. -/
structure Keeps (dic dic' : Array UInt8) (n : ℕ) : Prop where
  size : dic'.size = dic.size
  below : ∀ i < n, dic'[i]? = dic[i]?

theorem Keeps.refl (dic : Array UInt8) (n : ℕ) : Keeps dic dic n := ⟨rfl, fun _ _ => rfl⟩

theorem Keeps.trans {a b c : Array UInt8} {m n : ℕ} (h₁ : Keeps a b m) (h₂ : Keeps b c n)
    (hmn : m ≤ n) : Keeps a c m :=
  ⟨h₂.size.trans h₁.size, fun i hi => (h₂.below i (by omega)).trans (h₁.below i hi)⟩

theorem Keeps.set (dic : Array UInt8) {n i : ℕ} (h : n ≤ i) (b : UInt8) :
    Keeps dic (dic.setIfInBounds i b) n :=
  ⟨Array.size_setIfInBounds, fun _ hj => Array.getElem?_setIfInBounds_ne (by omega)⟩

/-- `n` bytes copied one at a time from a fixed distance, overlaps included. -/
def copyBack (dist : ℕ) : ℕ → List UInt8 → List UInt8
  | 0, h => h
  | n + 1, h => copyBack dist n (h.getD (dist - 1) 0 :: h)

theorem copyBack_add (dist m n : ℕ) (h : List UInt8) :
    copyBack dist (m + n) h = copyBack dist n (copyBack dist m h) := by
  induction m generalizing h with
  | zero => simp [copyBack]
  | succ m ih =>
      rw [show m + 1 + n = (m + n) + 1 by omega]
      exact ih _

theorem copyBack_succ (dist n : ℕ) (h : List UInt8) :
    copyBack dist (n + 1) h =
      (copyBack dist n h).getD (dist - 1) 0 :: copyBack dist n h := by
  rw [copyBack_add]
  rfl

@[simp] theorem length_copyBack (dist n : ℕ) (h : List UInt8) :
    (copyBack dist n h).length = h.length + n := by
  induction n generalizing h with
  | zero => rfl
  | succ n ih => simp only [copyBack, ih, List.length_cons]; omega

theorem copyBack_eq_append (dist n : ℕ) (h : List UInt8) :
    ∃ new, copyBack dist n h = new ++ h ∧ new.length = n := by
  induction n with
  | zero => exact ⟨[], rfl, rfl⟩
  | succ n ih =>
      obtain ⟨new, hn, hl⟩ := ih
      exact ⟨_ :: new, by rw [copyBack_succ, hn]; rfl, by simp [hl]⟩

theorem suffix_copyBack (dist n : ℕ) (h : List UInt8) : h <:+ copyBack dist n h := by
  obtain ⟨new, hn, -⟩ := copyBack_eq_append dist n h
  exact ⟨new, hn.symm⟩

end LzmaTurbo.Window
