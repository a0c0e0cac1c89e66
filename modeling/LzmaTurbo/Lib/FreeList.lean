import Mathlib.Data.Finset.Card
import Mathlib.Data.Finset.Image
import Mathlib.Data.List.Nodup
import Mathlib.Data.List.Range
import Mathlib.Logic.Function.Basic

/-!
# A pool of cells with a linked free list

Every cell is in the list of the free ones or with one holder. A holder takes the cell at the
head, and what it gives back becomes the head.
-/
namespace LzmaTurbo

/-- The links lead from `head` through these cells in turn. -/
def Linked (link : ℕ → ℕ) : ℕ → List ℕ → Prop
  | _, [] => True
  | head, b :: rest => b = head ∧ Linked link (link b) rest

theorem Linked.congr {link link' : ℕ → ℕ} :
    ∀ {free : List ℕ} {head : ℕ}, Linked link head free → (∀ b ∈ free, link' b = link b) →
      Linked link' head free
  | [], _, _, _ => trivial
  | b :: rest, _, ⟨hb, hrest⟩, hsame => by
      refine ⟨hb, ?_⟩
      rw [hsame b List.mem_cons_self]
      exact hrest.congr fun b' hb' => hsame b' (List.mem_cons_of_mem _ hb')

theorem linked_range' {link : ℕ → ℕ} :
    ∀ {n head : ℕ}, (∀ b, b + 1 < head + n → link b = b + 1) →
      Linked link head (List.range' head n)
  | 0, _, _ => trivial
  | 1, _, _ => ⟨rfl, trivial⟩
  | n + 2, head, hlink => by
      refine ⟨rfl, ?_⟩
      rw [hlink head (by omega)]
      exact linked_range' fun b hb => hlink b (by omega)

/-- `held` says what each holder has, `free` what nobody has. -/
structure Pool {ι : Type} (cells : ℕ) (head : ℕ) (link : ℕ → ℕ) (held : ι → Option ℕ)
    (free : List ℕ) : Prop where
  linked : Linked link head free
  nodup : free.Nodup
  split : ∀ b, b < cells ↔ b ∈ free ∨ ∃ s, held s = some b
  apart : ∀ s b, held s = some b → b ∉ free
  single : ∀ s s' b, held s = some b → held s' = some b → s = s'

namespace Pool
variable {ι : Type} {cells head : ℕ} {link : ℕ → ℕ} {held held' : ι → Option ℕ} {free : List ℕ}

theorem start (hlink : ∀ b, b + 1 < cells → link b = b + 1) :
    Pool cells 0 link (fun _ : ι => none) (List.range cells) where
  linked := by
    rw [List.range_eq_range']
    exact linked_range' fun b hb => hlink b (by omega)
  nodup := List.nodup_range
  split b := by simp
  apart s b h := by cases h
  single s s' b h := by cases h

theorem congr (h : Pool cells head link held free) (hsame : ∀ s, held' s = held s) :
    Pool cells head link held' free := by
  rw [show held' = held from funext hsame]
  exact h

theorem held_lt (h : Pool cells head link held free) {s : ι} {b : ℕ} (hs : held s = some b) :
    b < cells :=
  (h.split b).2 (Or.inr ⟨s, hs⟩)

/-- With fewer holders than cells, a cell is free. -/
theorem exists_free (h : Pool cells head link held free) {S : Finset ι}
    (hholders : ∀ s b, held s = some b → s ∈ S) (hfew : S.card < cells) :
    ∃ rest, free = head :: rest := by
  cases hfree : free with
  | cons b rest =>
      have hb := h.linked
      rw [hfree] at hb
      exact ⟨rest, by rw [hb.1]⟩
  | nil =>
      exfalso
      have hall : (Finset.range cells).map Function.Embedding.some ⊆ S.image held := by
        intro x hx
        obtain ⟨b, hb, rfl⟩ := Finset.mem_map.1 hx
        rcases (h.split b).1 (Finset.mem_range.1 hb) with hin | ⟨s, hs⟩
        · rw [hfree] at hin
          cases hin
        · exact Finset.mem_image.2 ⟨s, hholders s b hs, hs⟩
      have hle := (Finset.card_le_card hall).trans Finset.card_image_le
      rw [Finset.card_map, Finset.card_range] at hle
      omega

variable [DecidableEq ι]

theorem take {rest : List ℕ} (h : Pool cells head link held (head :: rest)) {s : ι}
    (hs : held s = none) :
    Pool cells (link head) link (Function.update held s (some head)) rest := by
  have hnew : ∀ {s' : ι} {b : ℕ}, Function.update held s (some head) s' = some b →
      (s' = s ∧ b = head) ∨ (s' ≠ s ∧ held s' = some b) := by
    intro s' b hb
    by_cases heq : s' = s
    · rw [heq, Function.update_self] at hb
      exact Or.inl ⟨heq, (Option.some.inj hb).symm⟩
    · rw [Function.update_of_ne heq] at hb
      exact Or.inr ⟨heq, hb⟩
  have hnodup := List.nodup_cons.1 h.nodup
  refine ⟨h.linked.2, hnodup.2, fun b => ⟨fun hb => ?_, ?_⟩, ?_, ?_⟩
  · rcases (h.split b).1 hb with hin | ⟨s', hs'⟩
    · rcases List.mem_cons.1 hin with rfl | hin
      · exact Or.inr ⟨s, Function.update_self ..⟩
      · exact Or.inl hin
    · refine Or.inr ⟨s', ?_⟩
      rw [Function.update_of_ne ?_]
      · exact hs'
      · intro heq
        rw [heq, hs] at hs'
        cases hs'
  · rintro (hin | ⟨s', hs'⟩)
    · exact (h.split b).2 (Or.inl (List.mem_cons_of_mem _ hin))
    · rcases hnew hs' with ⟨-, rfl⟩ | ⟨-, hb⟩
      · exact (h.split b).2 (Or.inl List.mem_cons_self)
      · exact h.held_lt hb
  · intro s' b hs' hin
    rcases hnew hs' with ⟨-, rfl⟩ | ⟨-, hb⟩
    · exact hnodup.1 hin
    · exact h.apart s' b hb (List.mem_cons_of_mem _ hin)
  · intro s₁ s₂ b h₁ h₂
    rcases hnew h₁ with ⟨rfl, rfl⟩ | ⟨-, hb₁⟩
    · rcases hnew h₂ with ⟨rfl, -⟩ | ⟨-, hb₂⟩
      · rfl
      · exact absurd List.mem_cons_self (h.apart _ _ hb₂)
    · rcases hnew h₂ with ⟨-, rfl⟩ | ⟨-, hb₂⟩
      · exact absurd List.mem_cons_self (h.apart _ _ hb₁)
      · exact h.single _ _ b hb₁ hb₂

theorem give (h : Pool cells head link held free) {s : ι} {b : ℕ} (hs : held s = some b) :
    Pool cells b (Function.update link b head) (Function.update held s none) (b :: free) := by
  have hold : ∀ {s' : ι} {b' : ℕ}, Function.update held s none s' = some b' →
      s' ≠ s ∧ held s' = some b' := by
    intro s' b' hb
    by_cases heq : s' = s
    · rw [heq, Function.update_self] at hb
      cases hb
    · rw [Function.update_of_ne heq] at hb
      exact ⟨heq, hb⟩
  have hout := h.apart s b hs
  refine ⟨⟨rfl, ?_⟩, List.nodup_cons.2 ⟨hout, h.nodup⟩, fun b' => ⟨fun hb => ?_, ?_⟩, ?_, ?_⟩
  · rw [Function.update_self]
    refine h.linked.congr fun b' hb' => Function.update_of_ne ?_ _ _
    rintro rfl
    exact hout hb'
  · rcases (h.split b').1 hb with hin | ⟨s', hs'⟩
    · exact Or.inl (List.mem_cons_of_mem _ hin)
    · by_cases heq : s' = s
      · rw [heq, hs] at hs'
        cases hs'
        exact Or.inl List.mem_cons_self
      · exact Or.inr ⟨s', by rw [Function.update_of_ne heq]; exact hs'⟩
  · rintro (hin | ⟨s', hs'⟩)
    · rcases List.mem_cons.1 hin with rfl | hin
      · exact h.held_lt hs
      · exact (h.split b').2 (Or.inl hin)
    · exact h.held_lt (hold hs').2
  · intro s' b' hs' hin
    obtain ⟨hne, hs'⟩ := hold hs'
    rcases List.mem_cons.1 hin with rfl | hin
    · exact hne (h.single _ _ _ hs' hs)
    · exact h.apart s' b' hs' hin
  · intro s₁ s₂ b' h₁ h₂
    exact h.single s₁ s₂ b' (hold h₁).2 (hold h₂).2

end Pool
end LzmaTurbo
