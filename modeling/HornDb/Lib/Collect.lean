-- Passes over a list: a fallible step for each item, with the list of what the steps give,
-- and a pass that skips the items whose key it has met before.
import Mathlib

namespace HornDb.Lib.Collect

variable {ε α β : Type}

/-- The list has these results exactly where every item has its own. -/
theorem mapM_some_iff {f : α → Option β} {g : α → β} {l : List α} :
    l.mapM f = some (l.map g) ↔ ∀ x ∈ l, f x = some (g x) := by
  induction l with
  | nil => simp
  | cons x l ih =>
    rw [List.forall_mem_cons, List.mapM_cons, ← ih]
    cases f x with
    | none => simp
    | some y => cases l.mapM f <;> simp

/-- Where every item has a result, so has the list. -/
theorem mapM_some {f : α → Option β} {g : α → β} {l : List α} (h : ∀ x ∈ l, f x = some (g x)) :
    l.mapM f = some (l.map g) := mapM_some_iff.mpr h

end HornDb.Lib.Collect

open Std (ExtTreeSet TransOrd LawfulEqOrd)

namespace HornDb.Lib

variable {α κ : Type} [Ord κ] [TransOrd κ] [LawfulEqOrd κ] (key : α → κ)

/-- Take an element unless its key was seen. -/
def take_first (acc : ExtTreeSet κ × List α) (a : α) : ExtTreeSet κ × List α :=
  if acc.1.contains (key a) then acc else (acc.1.insert (key a), acc.2 ++ [a])

/-- The first element of every key, in order. -/
def first_by (l : List α) : List α := (l.foldl (take_first key) (∅, [])).2

theorem foldl_take_first (l : List α) (acc : ExtTreeSet κ × List α)
    (hacc : ∀ k, k ∈ acc.1 ↔ ∃ a ∈ acc.2, key a = k) :
    (∀ a ∈ acc.2, a ∈ (l.foldl (take_first key) acc).2) ∧
      (∀ a ∈ (l.foldl (take_first key) acc).2, a ∈ acc.2 ∨ a ∈ l) ∧
      ∀ a ∈ l, ∃ b ∈ (l.foldl (take_first key) acc).2, key b = key a := by
  induction l generalizing acc with
  | nil => simp
  | cons x l ih =>
    rw [List.foldl_cons]
    by_cases hseen : acc.1.contains (key x) = true
    · have hsame : take_first key acc x = acc := by rw [take_first, if_pos hseen]
      rw [hsame]
      obtain ⟨hkeep, hfrom, hall⟩ := ih acc hacc
      refine ⟨hkeep, ?_, ?_⟩
      · intro a ha
        exact (hfrom a ha).imp_right (List.mem_cons_of_mem x)
      · rw [List.forall_mem_cons]
        refine ⟨?_, hall⟩
        obtain ⟨b, hb, hk⟩ := (hacc (key x)).mp (ExtTreeSet.mem_iff_contains.mpr hseen)
        exact ⟨b, hkeep b hb, hk⟩
    · have hnew : take_first key acc x = (acc.1.insert (key x), acc.2 ++ [x]) := by
        rw [take_first, if_neg hseen]
      rw [hnew]
      have hacc' : ∀ k, k ∈ acc.1.insert (key x) ↔ ∃ a ∈ acc.2 ++ [x], key a = k := by
        intro k
        rw [ExtTreeSet.mem_insert, LawfulEqOrd.compare_eq_iff_eq, hacc]
        simp [or_and_right, exists_or, or_comm]
      obtain ⟨hkeep, hfrom, hall⟩ := ih (acc.1.insert (key x), acc.2 ++ [x]) hacc'
      refine ⟨fun a ha => hkeep a (List.mem_append_left _ ha), ?_, ?_⟩
      · intro a ha
        rcases hfrom a ha with h | h
        · rcases List.mem_append.mp h with h | h
          · exact Or.inl h
          · rw [List.mem_singleton] at h
            subst h
            exact Or.inr List.mem_cons_self
        · exact Or.inr (List.mem_cons_of_mem x h)
      · rw [List.forall_mem_cons]
        exact ⟨⟨x, hkeep x (by simp), rfl⟩, hall⟩

theorem mem_of_mem_first_by {key : α → κ} {l : List α} {a : α} (h : a ∈ first_by key l) :
    a ∈ l := by
  have := (foldl_take_first key l (∅, []) (by simp)).2.1 a h
  simpa using this

/-- Every key of the list is met. -/
theorem exists_mem_first_by {l : List α} {a : α} (h : a ∈ l) :
    ∃ b ∈ first_by key l, key b = key a :=
  (foldl_take_first key l (∅, []) (by simp)).2.2 a h

end HornDb.Lib
