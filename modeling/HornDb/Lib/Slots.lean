-- Numbered slots, some of them empty, where no value stands in two of them. A slot is
-- filled once, at the end of the row, and may be emptied later.
import Mathlib

namespace HornDb.Lib.Slots

variable {α : Type*}

/-- No value stands in two slots. -/
def Single (l : List (Option α)) : Prop :=
  ∀ (i j : Nat) (a : α), l[i]? = some (some a) → l[j]? = some (some a) → i = j

/-- The number of empty slots. -/
def free (l : List (Option α)) : Nat := l.countP Option.isNone

/-- Empty the slots that `p` picks. -/
def clear (p : Nat → Bool) (l : List (Option α)) : List (Option α) :=
  l.mapIdx fun i o => if p i then none else o

@[simp]
theorem length_clear (p : Nat → Bool) (l : List (Option α)) : (clear p l).length = l.length :=
  List.length_mapIdx

theorem getElem?_clear (p : Nat → Bool) (l : List (Option α)) (i : Nat) :
    (clear p l)[i]? = l[i]?.map fun o => if p i then none else o :=
  List.getElem?_mapIdx

theorem clear_eq_some {p : Nat → Bool} {l : List (Option α)} {i : Nat} {a : α} :
    (clear p l)[i]? = some (some a) ↔ p i = false ∧ l[i]? = some (some a) := by
  rw [getElem?_clear]
  cases hp : p i <;> cases hl : l[i]? <;> simp

theorem clear_none (l : List (Option α)) : clear (fun _ => false) l = l := by
  apply List.ext_getElem?
  intro i
  rw [getElem?_clear]
  simp

/-- To pick one more slot is to empty it. -/
theorem clear_set {p q : Nat → Bool} {l : List (Option α)} {i : Nat}
    (h : ∀ j, q j = (p j || decide (j = i))) : clear q l = (clear p l).set i none := by
  apply List.ext_getElem?
  intro j
  rw [getElem?_clear, List.getElem?_set, getElem?_clear, length_clear, h j]
  by_cases hj : i = j
  · subst hj
    rw [if_pos rfl]
    by_cases hlen : i < l.length
    · simp [hlen]
    · simp [hlen]
  · have hne : decide (j = i) = false := decide_eq_false fun heq => hj heq.symm
    rw [if_neg hj, hne, Bool.or_false]

/-- Empty the slots that are not marked, one after the other. -/
def sweep (marks : List (Bool × Nat)) (l : List (Option α)) : List (Option α) :=
  marks.foldl (fun l e => if e.1 then l else l.set e.2 none) l

theorem sweep_eq (marks : List (Bool × Nat)) (l : List (Option α)) :
    sweep marks l = clear (fun i => marks.contains (false, i)) l := by
  induction marks generalizing l with
  | nil => exact (clear_none l).symm
  | cons e marks ih =>
    obtain ⟨marked, i⟩ := e
    rw [sweep, List.foldl_cons]
    change sweep marks _ = _
    rw [ih]
    apply List.ext_getElem?
    intro j
    rw [getElem?_clear, getElem?_clear]
    cases marked with
    | true => simp
    | false =>
      by_cases hij : i = j
      · subst hij
        rw [if_neg Bool.false_ne_true, List.getElem?_set, if_pos rfl]
        by_cases hi : i < l.length
        · simp [hi]
        · simp [hi]
      · rw [if_neg Bool.false_ne_true, List.getElem?_set, if_neg hij]
        simp [Ne.symm hij]

/-- A sweep over a row of marks empties the slots whose mark is false. -/
theorem sweep_zipIdx (live : List Bool) (l : List (Option α)) :
    sweep live.zipIdx l = clear (fun i => live[i]? == some false) l := by
  rw [sweep_eq]
  congr 1
  funext i
  rw [Bool.eq_iff_iff, List.contains_iff_mem, List.mk_mem_zipIdx_iff_getElem?]
  simp

theorem sweep_append (marks marks' : List (Bool × Nat)) (l : List (Option α)) :
    sweep (marks ++ marks') l = sweep marks' (sweep marks l) := List.foldl_append

/-- To empty an empty slot changes nothing. -/
theorem set_of_none {l : List (Option α)} {i : Nat} (h : ∀ a, l[i]? ≠ some (some a)) :
    l.set i none = l := by
  apply List.ext_getElem?
  intro j
  rw [List.getElem?_set]
  by_cases hij : i = j
  · subst hij
    rw [if_pos rfl]
    by_cases hi : i < l.length
    · rw [if_pos hi, List.getElem?_eq_getElem hi]
      cases ha : l[i] with
      | none => rfl
      | some a => exact absurd (by rw [List.getElem?_eq_getElem hi, ha]) (h a)
    · rw [if_neg hi, List.getElem?_eq_none (Nat.not_lt.mp hi)]
  · rw [if_neg hij]

theorem free_append (l l' : List (Option α)) : free (l ++ l') = free l + free l' :=
  List.countP_append

/-- A slot that holds a value counts for one more once it is empty. -/
theorem free_set {l : List (Option α)} {i : Nat} {a : α} (h : l[i]? = some (some a)) :
    free (l.set i none) = free l + 1 := by
  obtain ⟨hi, ha⟩ := List.getElem?_eq_some_iff.mp h
  have hcount := List.countP_set (p := Option.isNone) (l := l) (a := none) hi
  rw [ha] at hcount
  simpa [free] using hcount

theorem set_eq_some {l : List (Option α)} {i j : Nat} {a : α} :
    (l.set i none)[j]? = some (some a) ↔ i ≠ j ∧ l[j]? = some (some a) := by
  rw [List.getElem?_set]
  by_cases hij : i = j
  · subst hij
    rw [if_pos rfl]
    split <;> simp
  · rw [if_neg hij]
    simp [hij]

theorem Single.set {l : List (Option α)} (h : Single l) (i : Nat) : Single (l.set i none) := by
  intro j k a hj hk
  exact h j k a (set_eq_some.mp hj).2 (set_eq_some.mp hk).2

theorem snoc_eq_some {l : List (Option α)} {i : Nat} {a b : α} :
    (l ++ [some a])[i]? = some (some b) ↔ l[i]? = some (some b) ∨ i = l.length ∧ a = b := by
  by_cases hi : i < l.length
  · rw [List.getElem?_append_left hi]
    simp [Nat.ne_of_lt hi]
  · rw [List.getElem?_append_right (Nat.not_lt.mp hi), List.getElem?_eq_none (Nat.not_lt.mp hi)]
    by_cases heq : i = l.length
    · subst heq
      simp
    · have hsub : i - l.length ≠ 0 := by omega
      rw [List.getElem?_singleton, if_neg hsub]
      simp [heq]

/-- A new value may be appended. -/
theorem Single.snoc {l : List (Option α)} (h : Single l) {a : α}
    (hnew : ∀ i : Nat, l[i]? ≠ some (some a)) : Single (l ++ [some a]) := by
  intro i j b hi hj
  rcases snoc_eq_some.mp hi with hi | ⟨rfl, rfl⟩
  · rcases snoc_eq_some.mp hj with hj | ⟨rfl, rfl⟩
    · exact h i j b hi hj
    · exact absurd hi (hnew i)
  · rcases snoc_eq_some.mp hj with hj | ⟨hj, _⟩
    · exact absurd hj (hnew j)
    · exact hj.symm

end HornDb.Lib.Slots
