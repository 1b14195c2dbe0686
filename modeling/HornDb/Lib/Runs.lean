-- Sorted lists without duplicates, the runs of equal keys that a scan over one meets, and maps
-- that a fold fills entry by entry.
import Mathlib

namespace HornDb.Lib

/-! ## Sort and drop duplicates -/

section Sorting

variable {α : Type} [LinearOrder α]

def sort_dedup (l : List α) : List α := (l.insertionSort (· ≤ ·)).destutter (· ≠ ·)

theorem sort_dedup_eq (l : List α) : sort_dedup l = (l.insertionSort (· ≤ ·)).dedup :=
  (List.pairwise_insertionSort (· ≤ ·) l).destutter_eq_dedup

@[simp]
theorem mem_sort_dedup {l : List α} {a : α} : a ∈ sort_dedup l ↔ a ∈ l := by
  rw [sort_dedup_eq, List.mem_dedup, List.mem_insertionSort]

/-- A list in order without duplicates is in strict order. -/
theorem strict_of_nodup {l : List α} (hle : l.Pairwise (· ≤ ·)) (hnodup : l.Nodup) :
    l.Pairwise (· < ·) :=
  hle.imp₂ (fun _ _ h hne => lt_of_le_of_ne h hne) hnodup

theorem sort_dedup_strict (l : List α) : (sort_dedup l).Pairwise (· < ·) := by
  rw [sort_dedup_eq]
  exact strict_of_nodup ((List.pairwise_insertionSort _ l).sublist (List.dedup_sublist _))
    (List.nodup_dedup _)

end Sorting

/-! ## Runs -/

section Runs

variable {α κ : Type} [LinearOrder κ] {key : α → κ} {l : List α}

/-- The runs of equal keys, each with its key. -/
def runs (key : α → κ) (l : List α) : List (κ × List α) :=
  (l.splitBy fun a b => key a == key b).filterMap fun g => g.head?.map fun a => (key a, g)

/-- The elements with the first key stand in front. -/
theorem filter_append_filter (h : l.Pairwise fun a b => key a ≤ key b) {k : κ}
    (hk : ∀ a ∈ l, k ≤ key a) :
    l = l.filter (fun a => key a = k) ++ l.filter fun a => key a ≠ k := by
  induction l with
  | nil => rfl
  | cons a l ih =>
    have hrest := ih (List.pairwise_cons.mp h).2 fun b hb => hk b (List.mem_cons_of_mem a hb)
    by_cases ha : key a = k
    · simp only [List.filter_cons, ha, ne_eq, not_true, decide_true, decide_false, if_true,
        Bool.false_eq_true, if_false, List.cons_append]
      rw [← hrest]
    · have hnone : l.filter (fun b => key b = k) = [] := by
        rw [List.filter_eq_nil_iff]
        intro b hb
        have hab := (List.pairwise_cons.mp h).1 b hb
        have hka := lt_of_le_of_ne (hk a List.mem_cons_self) (Ne.symm ha)
        simp [(lt_of_lt_of_le hka hab).ne']
      simp only [List.filter_cons, ha, ne_eq, not_false_eq_true, decide_true, decide_false,
        if_true, Bool.false_eq_true, if_false, hnone, List.nil_append]
      rw [hnone, List.nil_append] at hrest
      rw [← hrest]

/-- A sorted list starts with the run of its first key. -/
theorem runs_cons {a : α} (h : (a :: l).Pairwise fun a b => key a ≤ key b) :
    runs key (a :: l) = (key a, (a :: l).filter fun b => key b = key a) ::
      runs key ((a :: l).filter fun b => key b ≠ key a) := by
  have hfirst : ∀ b ∈ a :: l, key a ≤ key b := by
    intro b hb
    rcases List.mem_cons.mp hb with rfl | hb
    · exact le_refl _
    · exact (List.pairwise_cons.mp h).1 b hb
  have hcons : (a :: l).filter (fun b => key b = key a) = a :: l.filter fun b => key b = key a := by
    simp
  have hsplit : (a :: l).splitBy (fun b c => key b == key c) =
      ((a :: l).filter fun b => key b = key a) ::
        ((a :: l).filter fun b => key b ≠ key a).splitBy fun b c => key b == key c := by
    conv_lhs => rw [filter_append_filter h hfirst]
    rw [List.splitBy_append]
    · rw [List.splitBy_of_isChain (by simp [hcons])]
      · rfl
      · refine List.Pairwise.isChain (List.pairwise_of_forall_mem_list fun b hb c hc => ?_)
        rw [List.mem_filter, decide_eq_true_eq] at hb hc
        rw [beq_iff_eq, hb.2, hc.2]
    · intro b hb c hc
      have hb' := List.mem_filter.mp (List.mem_of_mem_getLast? hb)
      have hc' := List.mem_filter.mp (List.mem_of_mem_head? hc)
      simp only [decide_eq_true_eq] at hb' hc'
      rw [beq_eq_false_iff_ne, hb'.2]
      exact Ne.symm hc'.2
  unfold runs
  rw [hsplit, List.filterMap_cons, hcons]
  rfl

/-- A run is what has its key. -/
theorem mem_runs (h : l.Pairwise fun a b => key a ≤ key b) {k : κ} {g : List α} :
    (k, g) ∈ runs key l ↔ g = l.filter (fun a => key a = k) ∧ g ≠ [] := by
  induction hn : l.length using Nat.strongRecOn generalizing l with
  | ind n ih =>
    cases l with
    | nil =>
      simp only [runs, List.splitBy_nil, List.filterMap_nil, List.not_mem_nil, List.filter_nil,
        false_iff, not_and, not_not]
      exact id
    | cons a l =>
      have hshort : ((a :: l).filter fun b => key b ≠ key a).length < n := by
        rw [← hn]
        simp only [List.filter_cons, ne_eq, not_true, decide_false, Bool.false_eq_true, if_false]
        exact Nat.lt_succ_of_le (List.length_filter_le _ _)
      rw [runs_cons h, List.mem_cons, ih _ hshort (h.filter _) rfl, Prod.mk.injEq]
      by_cases hk : k = key a
      · subst hk
        simp only [List.filter_filter, true_and]
        constructor
        · rintro (rfl | ⟨rfl, hne⟩)
          · exact ⟨rfl, by simp⟩
          · refine absurd ?_ hne
            rw [List.filter_eq_nil_iff]
            intro b _
            simp only [Bool.and_eq_true, decide_eq_true_eq, not_and]
            exact fun heq hne => hne heq
        · exact fun hg => Or.inl hg.1
      · have hfilter : ((a :: l).filter fun b => key b ≠ key a).filter (fun b => key b = k) =
            (a :: l).filter fun b => key b = k := by
          rw [List.filter_filter]
          refine List.filter_congr fun b _ => ?_
          by_cases hb : key b = k
          · simp [hb, hk]
          · simp [hb]
        rw [hfilter]
        simp [hk]

/-- The keys of the runs ascend. -/
theorem runs_keys_strict (h : l.Pairwise fun a b => key a ≤ key b) :
    (runs key l).Pairwise fun r r' => r.1 < r'.1 := by
  induction hn : l.length using Nat.strongRecOn generalizing l with
  | ind n ih =>
    cases l with
    | nil => simp [runs]
    | cons a l =>
      have hshort : ((a :: l).filter fun b => key b ≠ key a).length < n := by
        rw [← hn]
        simp only [List.filter_cons, ne_eq, not_true, decide_false, Bool.false_eq_true, if_false]
        exact Nat.lt_succ_of_le (List.length_filter_le _ _)
      rw [runs_cons h, List.pairwise_cons]
      refine ⟨fun r hr => ?_, ih _ hshort (h.filter _) rfl⟩
      obtain ⟨k, g⟩ := r
      obtain ⟨rfl, hne⟩ := (mem_runs (h.filter _)).mp hr
      obtain ⟨b, hb⟩ := List.exists_mem_of_ne_nil _ hne
      simp only [List.mem_filter, decide_eq_true_eq] at hb
      obtain ⟨⟨hmem, hother⟩, rfl⟩ := hb
      refine lt_of_le_of_ne ?_ (Ne.symm hother)
      rcases List.mem_cons.mp hmem with rfl | hmem
      · exact le_refl _
      · exact (List.pairwise_cons.mp h).1 b hmem

/-- Nothing is skipped in front of a list whose first key is not smaller. -/
theorem dropWhile_lt_eq_self {k : κ} (h : ∀ a ∈ l, k ≤ key a) :
    (l.dropWhile fun a => key a < k) = l := by
  cases l with
  | nil => rfl
  | cons a l =>
    have ha := h a List.mem_cons_self
    simp [not_lt.mpr ha]

theorem filter_key_eq_nil {k : κ} (h : ∀ a ∈ l, k < key a) :
    (l.filter fun a => key a = k) = [] := by
  rw [List.filter_eq_nil_iff]
  intro a ha
  simp [(h a ha).ne']

/-- Behind the smaller keys, a test that only the key passes of those not smaller takes its run. -/
theorem takeWhile_dropWhile_of (h : l.Pairwise fun a b => key a ≤ key b) (k : κ)
    {test : α → Bool} (htest : ∀ a, k ≤ key a → (test a = true ↔ key a = k)) :
    (l.dropWhile fun a => key a < k).takeWhile test = l.filter fun a => key a = k := by
  induction l with
  | nil => rfl
  | cons a l ih =>
    obtain ⟨hfirst, hrest⟩ := List.pairwise_cons.mp h
    have hl := ih hrest
    by_cases hlt : key a < k
    · simp [hlt, hlt.ne, hl]
    · have hka := not_lt.mp hlt
      rw [dropWhile_lt_eq_self fun b hb => le_trans hka (hfirst b hb)] at hl
      by_cases heq : key a = k
      · simp [heq, hl, (htest a hka).mpr heq]
      · have hklt := lt_of_le_of_ne hka (Ne.symm heq)
        have hnone := filter_key_eq_nil fun b hb => lt_of_lt_of_le hklt (hfirst b hb)
        have hstop : test a = false := Bool.not_eq_true _ ▸ mt (htest a hka).mp heq
        simp [hlt, heq, hnone, hstop]

/-- Behind the smaller keys stands the run of a key. -/
theorem takeWhile_dropWhile (h : l.Pairwise fun a b => key a ≤ key b) (k : κ) :
    (l.dropWhile fun a => key a < k).takeWhile (fun a => key a = k) =
      l.filter fun a => key a = k :=
  takeWhile_dropWhile_of h k fun _ _ => by rw [decide_eq_true_eq]

theorem takeWhile_le_dropWhile (h : l.Pairwise fun a b => key a ≤ key b) (k : κ) :
    (l.dropWhile fun a => key a < k).takeWhile (fun a => key a ≤ k) =
      l.filter fun a => key a = k :=
  takeWhile_dropWhile_of h k fun _ ha => by
    rw [decide_eq_true_eq]
    exact ⟨fun h => le_antisymm h ha, fun h => le_of_eq h⟩

end Runs

/-! ## Partition points -/

/-- The number of elements in front that pass the test. -/
def partition_point {α : Type} (pred : α → Bool) (l : List α) : Nat := (l.takeWhile pred).length

section Partition

variable {α β : Type} (pred : α → Bool)

theorem partition_point_map (f : β → α) (l : List β) :
    partition_point pred (l.map f) = partition_point (pred ∘ f) l := by
  unfold partition_point
  rw [List.takeWhile_map, List.length_map]

theorem drop_partition_point (l : List α) : l.drop (partition_point pred l) = l.dropWhile pred := by
  have h : l.takeWhile pred ++ l.dropWhile pred = l := List.takeWhile_append_dropWhile
  unfold partition_point
  generalize l.takeWhile pred = front at h
  rw [← h, List.drop_left]
  rw [h]

theorem take_partition_point (l : List α) : l.take (partition_point pred l) = l.takeWhile pred :=
  (List.prefix_iff_eq_take.mp (List.takeWhile_prefix pred)).symm

end Partition

/-! ## Maps filled by a fold -/

section Entries

open Std

variable {α β κ : Type} [Ord κ] [TransOrd κ] [LawfulEqOrd κ] [DecidableEq κ]

/-- Every element updates the entry of its key from what the map holds there. -/
def fold_entries (key : α → κ) (f : α → Option β → β) (l : List α) (m : ExtTreeMap κ β) :
    ExtTreeMap κ β :=
  l.foldl (fun m a => m.insert (key a) (f a m[key a]?)) m

/-- An entry sees the elements of its key, in their order. -/
theorem getElem?_fold_entries (key : α → κ) (f : α → Option β → β) (l : List α)
    (m : ExtTreeMap κ β) (k : κ) :
    (fold_entries key f l m)[k]? =
      (l.filter fun a => key a = k).foldl (fun o a => some (f a o)) m[k]? := by
  unfold fold_entries
  induction l generalizing m with
  | nil => rfl
  | cons a l ih =>
    rw [List.foldl_cons, ih, ExtTreeMap.getElem?_insert]
    by_cases hk : key a = k
    · subst hk
      simp
    · have hne : ¬ compare (key a) k = .eq := fun h => hk (LawfulEqOrd.eq_of_compare h)
      simp [hk, hne]

/-- The value of an entry that every element of its key moves by `f`. -/
theorem fold_entries_getD (key : α → κ) (f : β → β) (d : β) (l : List α) (m : ExtTreeMap κ β)
    (k : κ) : (fold_entries key (fun _ o => f (o.getD d)) l m)[k]?.getD d =
      f^[(l.filter fun a => key a = k).length] (m[k]?.getD d) := by
  rw [getElem?_fold_entries]
  generalize m[k]? = o
  induction l.filter fun a => key a = k generalizing o with
  | nil => rfl
  | cons a l ih =>
    rw [List.foldl_cons, ih, List.length_cons, Function.iterate_succ_apply, Option.getD_some]

theorem fold_entries_eq_none (key : α → κ) (f : α → Option β → β) (l : List α)
    (m : ExtTreeMap κ β) (k : κ) :
    (fold_entries key f l m)[k]? = none ↔ m[k]? = none ∧ ∀ a ∈ l, key a ≠ k := by
  have hfold : ∀ (l : List α) (b : β), l.foldl (fun o a => some (f a o)) (some b) ≠ none := by
    intro l
    induction l with
    | nil => exact fun b => Option.some_ne_none b
    | cons a l ih => exact fun b => ih _
  rw [getElem?_fold_entries]
  cases hl : l.filter fun a => key a = k with
  | nil =>
    have hnone : ∀ a ∈ l, key a ≠ k := by
      intro a ha
      have hfilter := List.filter_eq_nil_iff.mp hl a ha
      simpa using hfilter
    exact ⟨fun h => ⟨h, hnone⟩, And.left⟩
  | cons a rest =>
    have ha : a ∈ l.filter fun a => key a = k := hl ▸ List.mem_cons_self
    rw [List.mem_filter, decide_eq_true_eq] at ha
    refine ⟨fun h => absurd h ?_, fun h => absurd ha.2 (h.2 a ha.1)⟩
    exact hfold rest _

end Entries

end HornDb.Lib
