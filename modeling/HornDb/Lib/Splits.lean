-- The index that splits a range into the indices in front that pass a test and the rest, and the
-- searches that find it: the partition point of a slice, bisection, and the window of a gallop.
import HornDb.Lib.Gallop
import HornDb.Lib.Runs

namespace HornDb.Lib

open Gallop

/-! ## Splits -/

/-- `k` splits the range: in front of it all is below, and from it on nothing is. -/
structure Splits (below : Nat → Bool) (lo hi k : Nat) : Prop where
  lo_le : lo ≤ k
  le_hi : k ≤ hi
  front : ∀ i, lo ≤ i → i < k → below i = true
  back : ∀ i, k ≤ i → i < hi → below i = false

/-- In the range, all that is in front of an index below is below. -/
def Falls (below : Nat → Bool) (lo hi : Nat) : Prop :=
  ∀ i j, lo ≤ i → i ≤ j → j < hi → below j = true → below i = true

section Splits

variable {below : Nat → Bool} {lo hi k : Nat}

theorem Falls.narrow {a b : Nat} (h : Falls below lo hi) (ha : lo ≤ a) (hb : b ≤ hi) :
    Falls below a b := by
  intro i j hi' hij hj
  exact h i j (by omega) hij (by omega)

theorem Falls.not_below (h : Falls below lo hi) {i j : Nat} (hlo : lo ≤ i) (hij : i ≤ j)
    (hj : j < hi) (hi' : below i = false) : below j = false := by
  rw [← Bool.not_eq_true]
  intro hb
  rw [h i j hlo hij hj hb] at hi'
  cases hi'

theorem Splits.empty (k : Nat) : Splits below k k k :=
  ⟨le_refl k, le_refl k, fun i h1 h2 => by omega, fun i h1 h2 => by omega⟩

theorem Splits.lt_iff (h : Splits below lo hi k) {i : Nat} (hlo : lo ≤ i) (hhi : i < hi) :
    i < k ↔ below i = true := by
  refine ⟨h.front i hlo, fun hb => ?_⟩
  by_contra hk
  rw [h.back i (by omega) hhi] at hb
  cases hb

theorem Splits.unique {k' : Nat} (h : Splits below lo hi k) (h' : Splits below lo hi k') :
    k = k' := by
  have h1 := h.lo_le
  have h2 := h.le_hi
  have h3 := h'.lo_le
  have h4 := h'.le_hi
  rcases Nat.lt_trichotomy k k' with hk | hk | hk
  · have := (h.lt_iff h1 (by omega)).mpr (h'.front k h1 hk)
    omega
  · exact hk
  · have := (h'.lt_iff h3 (by omega)).mpr (h.front k' h3 hk)
    omega

/-- A split of a window splits the range, when what is in front of the window is below and the
first index behind it is not. -/
theorem Splits.widen {a b : Nat} (h : Splits below a b k) (hfall : Falls below lo hi)
    (ha : lo ≤ a) (hb : b ≤ hi) (hfront : ∀ i, lo ≤ i → i < a → below i = true)
    (hback : b < hi → below b = false) : Splits below lo hi k := by
  have h1 := h.lo_le
  have h2 := h.le_hi
  refine ⟨by omega, by omega, fun i hi' hik => ?_, fun i hki hi' => ?_⟩
  · by_cases hia : i < a
    · exact hfront i hi' hia
    · exact h.front i (by omega) hik
  · by_cases hib : i < b
    · exact h.back i hki hib
    · exact hfall.not_below (by omega) (by omega) hi' (hback (by omega))

theorem Splits.congr {below' : Nat → Bool} (h : Splits below lo hi k)
    (hsame : ∀ i, lo ≤ i → i < hi → below' i = below i) : Splits below' lo hi k := by
  have h1 := h.lo_le
  have h2 := h.le_hi
  refine ⟨h1, h2, fun i hi' hik => ?_, fun i hki hi' => ?_⟩
  · rw [hsame i hi' (by omega)]
    exact h.front i hi' hik
  · rw [hsame i (by omega) hi']
    exact h.back i hki hi'

/-- A split of indices counted from `s` on, as one of the indices themselves. -/
theorem Splits.shift (below : Nat → Bool) {s a b k : Nat}
    (h : Splits (fun i => below (s + i)) a b k) : Splits below (s + a) (s + b) (s + k) := by
  have h1 := h.lo_le
  have h2 := h.le_hi
  refine ⟨by omega, by omega, fun i hi' hik => ?_, fun i hki hi' => ?_⟩
  · have := h.front (i - s) (by omega) (by omega)
    rwa [Nat.add_sub_cancel' (by omega)] at this
  · have := h.back (i - s) (by omega) (by omega)
    rwa [Nat.add_sub_cancel' (by omega)] at this

end Splits

/-! ## Slices -/

/-- The elements from `lo` on and in front of `hi`. -/
def slice {α : Type} (l : List α) (lo hi : Nat) : List α := (l.take hi).drop lo

section Slice

variable {α : Type} {l : List α} {lo hi : Nat}

theorem length_slice_min : (slice l lo hi).length = min hi l.length - lo := by
  unfold slice
  rw [List.length_drop, List.length_take]

theorem length_slice (h : hi ≤ l.length) : (slice l lo hi).length = hi - lo := by
  rw [length_slice_min, Nat.min_eq_left h]

theorem getD_slice {i : Nat} (h : lo + i < hi) (d : α) :
    (slice l lo hi).getD i d = l.getD (lo + i) d := by
  unfold slice
  rw [List.getD_eq_getElem?_getD, List.getD_eq_getElem?_getD, List.getElem?_drop,
    List.getElem?_take, if_pos h]

theorem getD_mem_of_lt {i : Nat} (h : i < l.length) (d : α) : l.getD i d ∈ l := by
  rw [List.getD_eq_getElem _ _ h]
  exact List.getElem_mem h

theorem mem_slice (h : hi ≤ l.length) (d : α) {x : α} :
    x ∈ slice l lo hi ↔ ∃ i, lo ≤ i ∧ i < hi ∧ l.getD i d = x := by
  rw [List.mem_iff_getElem]
  constructor
  · rintro ⟨i, hi', rfl⟩
    rw [length_slice h] at hi'
    have hget : (slice l lo hi).getD i d = l.getD (lo + i) d := getD_slice (by omega) d
    exact ⟨lo + i, by omega, by omega, by rw [← hget, List.getD_eq_getElem]⟩
  · rintro ⟨i, h1, h2, rfl⟩
    refine ⟨i - lo, by rw [length_slice h]; omega, ?_⟩
    rw [← List.getD_eq_getElem _ d, getD_slice (by omega), Nat.add_sub_cancel' h1]

/-- The partition point of a list splits its indices. -/
theorem partition_point_splits (pred : α → Bool) {d : α}
    (hfall : Falls (fun i => pred (l.getD i d)) 0 l.length) :
    Splits (fun i => pred (l.getD i d)) 0 l.length (partition_point pred l) := by
  have hle : partition_point pred l ≤ l.length := (List.takeWhile_prefix pred).length_le
  have hfront : ∀ i < partition_point pred l, pred (l.getD i d) = true := by
    intro i hi'
    have hlt : i < l.length := by omega
    rw [List.getD_eq_getElem _ _ hlt]
    have hmem : l[i] ∈ l.takeWhile pred := by
      rw [← take_partition_point]
      exact List.mem_take_iff_getElem.mpr ⟨i, by omega, rfl⟩
    exact List.mem_takeWhile_imp hmem
  refine ⟨Nat.zero_le _, hle, fun i _ => hfront i, fun i hki hi' => ?_⟩
  refine hfall.not_below (Nat.zero_le _) hki hi' ?_
  have hlt : partition_point pred l < l.length := by omega
  have hdrop := drop_partition_point pred l
  rw [List.drop_eq_getElem_cons hlt] at hdrop
  have hhead := List.head?_dropWhile_not pred l
  rw [← hdrop, List.head?_cons] at hhead
  rw [List.getD_eq_getElem _ _ hlt]
  simpa using hhead

theorem slice_pairwise {R : α → α → Prop} (h : hi ≤ l.length) (d : α)
    (hr : ∀ i j, lo ≤ i → i < j → j < hi → R (l.getD i d) (l.getD j d)) :
    (slice l lo hi).Pairwise R := by
  rw [List.pairwise_iff_getElem]
  intro i j hi' hj hij
  have hlen : (slice l lo hi).length = hi - lo := length_slice h
  rw [← List.getD_eq_getElem _ d, ← List.getD_eq_getElem _ d, getD_slice (by omega),
    getD_slice (by omega)]
  exact hr _ _ (by omega) (by omega) (by omega)

theorem slice_length (l : List α) (lo : Nat) : slice l lo l.length = l.drop lo := by
  unfold slice
  rw [List.take_length]

theorem mem_of_mem_slice {x : α} (h : x ∈ slice l lo hi) : x ∈ l :=
  List.mem_of_mem_take (List.mem_of_mem_drop h)

/-- A search that splits the indices of a slice splits the range it was cut from. -/
theorem Splits.of_slice (pred : α → Bool) {d : α} {k : Nat} (hlo : lo ≤ hi) (hhi : hi ≤ l.length)
    (hfall : Falls (fun i => pred (l.getD i d)) lo hi)
    (h : Falls (fun i => pred ((slice l lo hi).getD i d)) 0 (slice l lo hi).length →
      Splits (fun i => pred ((slice l lo hi).getD i d)) 0 (slice l lo hi).length k) :
    Splits (fun i => pred (l.getD i d)) lo hi (lo + k) := by
  have hlen : (slice l lo hi).length = hi - lo := length_slice hhi
  rw [hlen] at h
  have hinner : Falls (fun i => pred ((slice l lo hi).getD i d)) 0 (hi - lo) := by
    intro i j _ hij hj
    dsimp only
    rw [getD_slice (by omega), getD_slice (by omega)]
    exact hfall (lo + i) (lo + j) (by omega) (by omega) (by omega)
  have hinside : Splits (fun i => pred (l.getD (lo + i) d)) 0 (hi - lo) k :=
    (h hinner).congr fun i _ hi' => by rw [getD_slice (by omega)]
  have hshift := Splits.shift (fun i => pred (l.getD i d)) hinside
  rwa [Nat.add_zero, Nat.add_sub_cancel' hlo] at hshift

/-- The partition point of a slice splits the indices of the slice. -/
theorem slice_partition_splits (pred : α → Bool) {d : α} (hlo : lo ≤ hi) (hhi : hi ≤ l.length)
    (hfall : Falls (fun i => pred (l.getD i d)) lo hi) :
    Splits (fun i => pred (l.getD i d)) lo hi (lo + partition_point pred (slice l lo hi)) :=
  .of_slice pred hlo hhi hfall fun hinner => partition_point_splits pred hinner

end Slice

/-- Behind its partition point, a list in order keeps what is not less. -/
theorem drop_partition_point_lt {l : List Nat} (h : l.Pairwise (· < ·)) (v : Nat) :
    (l.drop (partition_point (· < v) l)).Pairwise (· < ·) ∧
      ∀ k, k ∈ l.drop (partition_point (· < v) l) ↔ k ∈ l ∧ v ≤ k := by
  have hfall : Falls (fun i => l.getD i 0 < v) 0 l.length := by
    intro i j _ hij hj hb
    rw [decide_eq_true_eq] at hb ⊢
    rcases Nat.eq_or_lt_of_le hij with rfl | hlt
    · exact hb
    · rw [List.getD_eq_getElem _ _ hj] at hb
      rw [List.getD_eq_getElem _ _ (by omega)]
      exact lt_trans (List.pairwise_iff_getElem.mp h i j _ hj hlt) hb
  have hsplit := partition_point_splits (decide <| · < v) hfall
  refine ⟨h.sublist (List.drop_sublist _ _), fun k => ?_⟩
  rw [← slice_length, mem_slice (le_refl _) 0]
  constructor
  · rintro ⟨i, h1, h2, rfl⟩
    exact ⟨getD_mem_of_lt h2 0, not_lt.mp (of_decide_eq_false (hsplit.back i h1 h2))⟩
  · rintro ⟨hk, hv⟩
    obtain ⟨i, hi, rfl⟩ := List.mem_iff_getElem.mp hk
    refine ⟨i, ?_, hi, List.getD_eq_getElem _ _ hi⟩
    by_contra hlt
    have hfront := of_decide_eq_true (hsplit.front i (Nat.zero_le i) (not_le.mp hlt))
    rw [List.getD_eq_getElem _ _ hi] at hfront
    exact absurd hv (not_le_of_gt hfront)

/-! ## Searches -/

section Searches

variable {below : Nat → Bool}

theorem bisect_splits (fuel a b : Nat) (hab : a ≤ b) (hfuel : b ≤ a + fuel)
    (hfall : Falls below a b) : Splits below a b (bisect below fuel a b) := by
  induction fuel generalizing a b with
  | zero =>
    obtain rfl : a = b := by omega
    exact .empty a
  | succ fuel ih =>
    rw [bisect]
    split
    · dsimp only
      split
      · rename_i hm
        have hinner := ih (a + (b - a) / 2 + 1) b (by omega) (by omega)
          (hfall.narrow (by omega) (le_refl _))
        refine hinner.widen hfall (by omega) (le_refl _) (fun i h1 h2 => ?_) (by omega)
        exact hfall i _ h1 (by omega) (by omega) hm
      · rename_i hm
        have hinner := ih a (a + (b - a) / 2) (by omega) (by omega)
          (hfall.narrow (le_refl _) (by omega))
        exact hinner.widen hfall (le_refl _) (by omega) (by omega) fun _ => Bool.not_eq_true _ ▸ hm
    · obtain rfl : a = b := by omega
      exact .empty a

/-- A split of the window of a gallop splits all that the gallop could reach. -/
theorem stride_splits {n k : Nat} (hn : 0 < n) (hfall : Falls below 0 n)
    (h : Splits below (stride below n n 0 1).1 (stride below n n 0 1).2 k) :
    Splits below 0 n k := by
  obtain ⟨_, h2, h3, h4, h5⟩ := stride_window below n 0 1 hn (by omega) (by omega)
  refine h.widen hfall (Nat.zero_le _) h3 (fun i _ hi => ?_) h5
  rcases h4 with h4 | h4
  · omega
  · exact hfall i _ (Nat.zero_le _) (by omega) (by omega) h4

end Searches

end HornDb.Lib
