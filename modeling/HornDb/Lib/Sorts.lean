-- A library's stable sort by a comparison. Where the comparison is a total preorder, the sort ends
-- with the members in order, those that are equal as they came. Elsewhere it may fail.
import Mathlib

open Std (TransCmp OrientedCmp)

namespace HornDb.Lib.Sorts

/-- A sort, of which nothing is known under a comparison that is no total preorder. -/
structure StableSort where
  sort_by : {α : Type} → (α → α → Ordering) → List α → Option (List α)
  sorts : ∀ {α : Type} (cmp : α → α → Ordering) (xs : List α), TransCmp cmp →
    ∃ out, sort_by cmp xs = some out ∧ out.Perm xs ∧ out.Pairwise (fun a b => cmp a b ≠ .gt) ∧
      ∀ a b, cmp a b = .eq → [a, b].Sublist xs → [a, b].Sublist out

variable {α : Type} {cmp : α → α → Ordering}

theorem ne_gt_iff {o : Ordering} : o ≠ .gt ↔ o.isLE = true := by
  cases o <;> simp

theorem isLE_total [OrientedCmp cmp] (a b : α) :
    ((cmp a b).isLE || (cmp b a).isLE) = true := by
  have hswap : cmp b a = (cmp a b).swap := OrientedCmp.eq_swap
  rw [hswap]
  cases cmp a b <;> rfl

/-- Merge sort under any comparison. -/
def merge_sort : StableSort where
  sort_by cmp xs := some (xs.mergeSort fun a b => (cmp a b).isLE)
  sorts cmp xs htrans := by
    have hle : ∀ a b c, (cmp a b).isLE = true → (cmp b c).isLE = true → (cmp a c).isLE = true :=
      fun a b c => TransCmp.isLE_trans
    refine ⟨_, rfl, List.mergeSort_perm _ _, ?_, fun a b heq hsub => ?_⟩
    · exact (List.pairwise_mergeSort hle isLE_total xs).imp ne_gt_iff.mpr
    · exact List.pair_sublist_mergeSort hle isLE_total (by rw [heq]; rfl) hsub

/-- A member that is greater than another does not come before it in a list in order. -/
theorem not_lt_of_gt_at {xs : List α} (h : xs.Pairwise fun a b => cmp a b ≠ .gt) {i j : Nat}
    (hi : i < xs.length) (hj : j < xs.length) (hgt : cmp xs[i] xs[j] = .gt) : ¬ i < j :=
  fun hlt => List.pairwise_iff_getElem.mp h i j hi hj hlt hgt

/-! ## Places in order -/

/-- Two members of a list without duplicates stand in one order only. -/
theorem not_sublist_swap {xs : List α} (h : xs.Nodup) {a b : α} (hab : [a, b].Sublist xs) :
    ¬ [b, a].Sublist xs := by
  induction xs with
  | nil => simp at hab
  | cons c xs ih =>
    rw [List.nodup_cons] at h
    intro hba
    cases hab with
    | cons _ hab =>
      cases hba with
      | cons _ hba => exact ih h.2 hab hba
      | cons_cons _ hba => exact h.1 (hab.subset (by simp))
    | cons_cons _ hab =>
      cases hba with
      | cons _ hba => exact h.1 (hba.subset (by simp))
      | cons_cons _ hba => exact h.1 (hab.subset (by simp))

/-- A place comes before another: it is less, or it is equal and came first. -/
def Before (cmp : Nat → Nat → Ordering) (a b : Nat) : Prop :=
  cmp a b = .lt ∨ cmp a b = .eq ∧ a < b

theorem Before.ne_gt {cmp : Nat → Nat → Ordering} {a b : Nat} (h : Before cmp a b) :
    cmp a b ≠ .gt := by
  rcases h with h | ⟨h, -⟩ <;> rw [h] <;> simp

theorem sublist_range {n a b : Nat} (hab : a < b) (hb : b < n) : [a, b].Sublist (List.range n) := by
  have hsub : [a, b].Subperm (List.range n) := by
    refine List.Nodup.subperm (by simp; omega) fun c hc => List.mem_range.mpr ?_
    simp only [List.mem_cons, List.not_mem_nil, or_false] at hc
    omega
  refine List.sublist_of_subperm_of_sortedLE hsub ?_ (List.sortedLT_range n).sortedLE
  exact List.Pairwise.sortedLE (List.pairwise_pair.mpr hab.le)

/-- The places of a list sorted are a list in which each comes before the later ones. -/
theorem sort_range (sort : StableSort) {cmp : Nat → Nat → Ordering} (h : TransCmp cmp) (n : Nat) :
    ∃ out, sort.sort_by cmp (List.range n) = some out ∧ out.Perm (List.range n) ∧
      out.Pairwise (Before cmp) := by
  obtain ⟨out, hsort, hperm, hsorted, hstable⟩ := sort.sorts cmp (List.range n) h
  refine ⟨out, hsort, hperm, ?_⟩
  have hnodup : out.Nodup := hperm.nodup_iff.mpr List.nodup_range
  rw [List.pairwise_iff_forall_sublist]
  intro a b hab
  have hle := List.pairwise_iff_forall_sublist.mp hsorted hab
  have hne := List.pairwise_iff_forall_sublist.mp hnodup hab
  cases hcmp : cmp a b with
  | lt => exact .inl hcmp
  | gt => exact absurd hcmp hle
  | eq =>
    refine .inr ⟨hcmp, ?_⟩
    by_contra hlt
    have ha : a < n := List.mem_range.mp (hperm.mem_iff.mp (hab.subset (by simp)))
    have hback := sublist_range (show b < a by omega) ha
    exact not_sublist_swap hnodup hab (hstable b a (OrientedCmp.eq_symm hcmp) hback)

/-- The first members of a list in order, from some that are in order and no greater than the rest. -/
theorem take_of_sorted (h : TransCmp cmp) (heq : ∀ a b, cmp a b = .eq → a = b) {xs ys rest : List α}
    (hxs : xs.Pairwise fun a b => cmp a b ≠ .gt) (hys : ys.Pairwise fun a b => cmp a b ≠ .gt)
    (hperm : (ys ++ rest).Perm xs) (hbest : ∀ a ∈ ys, ∀ b ∈ rest, cmp a b ≠ .gt) :
    xs.take ys.length = ys := by
  obtain ⟨out, -, hout, hsorted, -⟩ := merge_sort.sorts cmp rest h
  have hboth : (ys ++ out).Pairwise fun a b => cmp a b ≠ .gt :=
    List.pairwise_append.mpr
      ⟨hys, hsorted, fun a ha b hb => hbest a ha b (hout.mem_iff.mp hb)⟩
  have hsame : xs = ys ++ out := by
    refine ((hperm.symm.trans (hout.symm.append_left ys))).eq_of_pairwise
      (fun a b _ _ hab hba => heq a b ?_) hxs hboth
    exact OrientedCmp.isLE_antisymm (ne_gt_iff.mp hab) (ne_gt_iff.mp hba)
  rw [hsame, List.take_left]

/-- Two lists in order with the same members are equal place by place, up to the comparison. -/
theorem forall₂_eq_of_perm (h : TransCmp cmp) {xs ys : List α} (hperm : xs.Perm ys)
    (hx : xs.Pairwise fun a b => cmp a b ≠ .gt) (hy : ys.Pairwise fun a b => cmp a b ≠ .gt) :
    List.Forall₂ (fun a b => cmp a b = .eq) xs ys := by
  let same : Setoid α :=
    ⟨fun a b => cmp a b = .eq, fun a => Std.ReflCmp.compare_self, OrientedCmp.eq_symm,
      TransCmp.eq_trans⟩
  let le (p r : Quotient same) : Prop := ∃ a b, ⟦a⟧ = p ∧ ⟦b⟧ = r ∧ (cmp a b).isLE = true
  have hle : ∀ zs : List α, zs.Pairwise (fun a b => cmp a b ≠ .gt) →
      (zs.map (Quotient.mk same)).Pairwise le := by
    intro zs hzs
    rw [List.pairwise_map]
    exact hzs.imp fun hab => ⟨_, _, rfl, rfl, ne_gt_iff.mp hab⟩
  have hkeys : xs.map (Quotient.mk same) = ys.map (Quotient.mk same) := by
    refine (hperm.map _).eq_of_pairwise (fun p r _ _ hpr hrp => ?_) (hle xs hx) (hle ys hy)
    obtain ⟨a, b, rfl, rfl, hab⟩ := hpr
    obtain ⟨c, d, hcb, hda, hcd⟩ := hrp
    have hcb : cmp c b = .eq := Quotient.exact hcb
    have hda : cmp d a = .eq := Quotient.exact hda
    refine Quotient.sound (OrientedCmp.isLE_antisymm hab ?_)
    rw [← TransCmp.congr_left hcb, ← TransCmp.congr_right hda]
    exact hcd
  have hall : List.Forall₂ Eq (xs.map (Quotient.mk same)) (ys.map (Quotient.mk same)) := by
    rw [hkeys]
    exact List.forall₂_same.mpr fun _ _ => rfl
  rw [List.forall₂_map_left_iff, List.forall₂_map_right_iff] at hall
  exact hall.imp fun a b hab => Quotient.exact hab

end HornDb.Lib.Sorts
