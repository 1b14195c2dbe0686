-- The mass of a Z-set, which is the sum of its counts without their signs, bounds every count on
-- the way of a join: where the product of the masses fits, nothing overflows.
import HornDb.CheckedPlans

open HornDb.Lib.Words HornDb.Lib.Words.Checked

namespace horndb.incremental

namespace Zset

variable {K : Type} [Ord K] [Std.TransOrd K]

def mass (z : Zset K) : Nat := (z.iter.map fun e => e.2.natAbs).sum

variable [Std.LawfulEqOrd K] [DecidableEq K]

theorem mass_eq_sum (z : Zset K) : z.mass = z.val.sum fun _ m => m.natAbs :=
  sum_iter z fun _ m => m.natAbs

theorem natAbs_get_le_mass (z : Zset K) (k : K) : (z.get k).natAbs ≤ z.mass := by
  rw [mass_eq_sum]
  by_cases hk : z.get k = 0
  · rw [hk]
    exact Nat.zero_le _
  · exact Finset.single_le_sum (f := fun k => (z.val k).natAbs) (fun _ _ => Nat.zero_le _)
      (Finsupp.mem_support_iff.mpr hk)

theorem mass_le_mass {a b : Zset K} (h : ∀ k, a.get k = b.get k ∨ a.get k = 0) :
    a.mass ≤ b.mass := by
  have hsub : a.val.support ⊆ b.val.support := by
    intro k hk
    rw [Finsupp.mem_support_iff, val_apply] at hk ⊢
    rwa [← (h k).resolve_right hk]
  rw [mass_eq_sum, mass_eq_sum]
  refine le_trans (Finset.sum_le_sum fun k hk => ?_) (Finset.sum_le_sum_of_subset hsub)
  rw [Finsupp.mem_support_iff, val_apply] at hk
  rw [val_apply, val_apply, (h k).resolve_right hk]

theorem mass_add_le (z : Zset K) (key : K) (delta : Int) :
    (z.add key delta).mass ≤ z.mass + delta.natAbs := by
  have hzero : ∀ k ∈ insert key z.val.support, (fun (_ : K) (m : Int) => m.natAbs) k 0 = 0 :=
    fun _ _ => rfl
  have hsub : (z.val + Finsupp.single key delta).support ⊆ insert key z.val.support := by
    intro k hk
    by_cases hkey : k = key
    · exact Finset.mem_insert.mpr (Or.inl hkey)
    · refine Finset.mem_insert_of_mem (Finsupp.mem_support_iff.mpr ?_)
      rw [Finsupp.mem_support_iff, Finsupp.add_apply, Finsupp.single_eq_of_ne hkey,
        add_zero] at hk
      exact hk
  rw [mass_eq_sum, mass_eq_sum, val_add, Finsupp.sum_of_support_subset _ hsub _ hzero,
    Finsupp.sum_of_support_subset _ (Finset.subset_insert key z.val.support) _ hzero]
  calc ∑ k ∈ insert key z.val.support, ((z.val + Finsupp.single key delta) k).natAbs
      ≤ ∑ k ∈ insert key z.val.support,
          ((z.val k).natAbs + (Finsupp.single key delta k).natAbs) :=
        Finset.sum_le_sum fun k _ => Int.natAbs_add_le _ _
    _ = ∑ k ∈ insert key z.val.support, (z.val k).natAbs + delta.natAbs := by
        rw [Finset.sum_add_distrib]
        congr 1
        rw [Finset.sum_eq_single key]
        · rw [Finsupp.single_eq_same]
        · intro k _ hk
          rw [Finsupp.single_eq_of_ne hk]
          rfl
        · exact fun hno => absurd (Finset.mem_insert_self key _) hno

/-- Adding products one after another fits where the sum of their sizes does. -/
theorem foldlM_fits (pairs : List (K × Int × Int)) : ∀ z : Zset K,
    z.mass + (pairs.map fun e => (e.2.1 * e.2.2).natAbs).sum < 2 ^ 63 →
    (pairs.foldlM (fun (out : Zset K) (e : K × Int × Int) => do
      let mult ← i64 (e.2.1 * e.2.2)
      out.checked_add e.1 mult) z).Avoids .overflow := by
  induction pairs with
  | nil => exact fun z _ => avoids_pure z
  | cons e pairs ih =>
    intro z hz
    rw [List.map_cons, List.sum_cons] at hz
    rw [List.foldlM_cons]
    have hget := z.natAbs_get_le_mass e.1
    have hsum := Int.natAbs_add_le (z.get e.1) (e.2.1 * e.2.2)
    refine Avoids.bind ((avoids_i64 fun _ => by omega).bind fun mult hmult => ?_) fun out hout => ?_
    · cases (i64 _).sound mult hmult
      unfold checked_add
      split
      · exact avoids_pure z
      · exact (avoids_i64 fun _ => by omega).bind fun _ _ => avoids_pure _
    · have hexact := Checked.sound _ out hout
      rw [exact_bind, exact_i64, Option.bind_some, exact_add] at hexact
      cases hexact
      have hmass := z.mass_add_le e.1 (e.2.1 * e.2.2)
      exact ih _ (by omega)

theorem foldl_mass_le (l : List (K × Int)) : ∀ z : Zset K,
    (l.foldl (fun z e => z.add e.1 e.2) z).mass ≤ z.mass + (l.map fun e => e.2.natAbs).sum := by
  induction l with
  | nil => exact fun z => le_rfl
  | cons e l ih =>
    intro z
    rw [List.foldl_cons, List.map_cons, List.sum_cons]
    have hmass := z.mass_add_le e.1 e.2
    have hrest := ih (z.add e.1 e.2)
    omega

end Zset

/-! ## Joins -/

theorem bind_slots_fits (slots : List (Term × Nat)) :
    ∀ b : Bindings, (checked_bind_slots slots b).Avoids .overflow := by
  induction slots with
  | nil => exact fun b => avoids_pure _
  | cons e rest ih =>
    intro b
    obtain ⟨t, val⟩ := e
    cases t with
    | Bound bound =>
      rw [checked_bind_slots]
      split
      · exact ih b
      · exact avoids_pure _
    | Var v =>
      rw [checked_bind_slots]
      refine (avoids_index (e := .overflow) fun h => by cases h).bind fun _ _ => ?_
      cases b.set v val with
      | none => exact avoids_pure _
      | some c => exact ih c

/-- Binding forms no number, and drops rows only. -/
theorem filter_and_bind_fits (q : TriplePattern) (input : Zset TripleId) :
    (checked_filter_and_bind q input).Avoids .overflow ∧
      ((filter_and_bind q input).map fun e => e.2.natAbs).sum ≤ input.mass := by
  constructor
  · refine (avoids_mapM (fun e => ?_) _).bind fun _ _ => avoids_pure _
    exact (bind_slots_fits _ _).bind fun _ _ => avoids_pure _
  · rw [filter_and_bind, Zset.mass]
    generalize input.iter = rows
    induction rows with
    | nil => exact le_rfl
    | cons e rows ih =>
      rw [List.filterMap_cons, List.map_cons, List.sum_cons]
      cases bind_row q e.1 with
      | none => exact ih.trans (Nat.le_add_left _ _)
      | some b => exact Nat.add_le_add_left ih _

/-- The products of one side with the matching rows of the other. -/
theorem pairs_mass_le {α β : Type} (probes builds : List (α × Int))
    (keep : α × Int → α × Int → Bool) (head : α × Int → α × Int → β) (size : β → Nat)
    (hhead : ∀ probe build, size (head probe build) = probe.2.natAbs * build.2.natAbs) :
    ((probes.flatMap fun probe => (builds.filter (keep probe)).map (head probe)).map size).sum ≤
      (probes.map fun e => e.2.natAbs).sum * (builds.map fun e => e.2.natAbs).sum := by
  have hrow : ∀ probe, (((builds.filter (keep probe)).map (head probe)).map size).sum ≤
      probe.2.natAbs * (builds.map fun e => e.2.natAbs).sum := by
    intro probe
    induction builds with
    | nil => exact Nat.zero_le _
    | cons build builds ih =>
      rw [List.map_cons, List.sum_cons, Nat.mul_add, List.filter_cons]
      split
      · rw [List.map_cons, List.map_cons, List.sum_cons, hhead]
        exact Nat.add_le_add_left ih _
      · exact ih.trans (Nat.le_add_left _ _)
  induction probes with
  | nil => exact Nat.zero_le _
  | cons probe probes ih =>
    rw [List.flatMap_cons, List.map_append, List.sum_append, List.map_cons, List.sum_cons,
      Nat.add_mul]
    exact Nat.add_le_add (hrow probe) ih

namespace HashJoinRule

theorem join_fits (r : HashJoinRule) {a b : Zset TripleId} (h : a.mass * b.mass < 2 ^ 63) :
    (r.checked_join a b).Avoids .overflow := by
  obtain ⟨hl, hlmass⟩ := filter_and_bind_fits r.left a
  obtain ⟨hr, hrmass⟩ := filter_and_bind_fits r.right b
  refine hl.bind fun left hleft => hr.bind fun right hright => ?_
  cases (exact_filter_and_bind r.left a).symm.trans (Checked.sound _ left hleft)
  cases (exact_filter_and_bind r.right b).symm.trans (Checked.sound _ right hright)
  have hmass := Nat.mul_le_mul hlmass hrmass
  dsimp only
  split
  · exact avoids_pure _
  · refine Zset.foldlM_fits _ _ ?_
    rw [show (Zset.new : Zset TripleId).mass = 0 from rfl, Nat.zero_add]
    split
    · refine lt_of_le_of_lt (pairs_mass_le _ _ _ _ _ fun probe build => ?_)
        (lt_of_le_of_lt (Nat.mul_comm _ _ ▸ hmass) h)
      rw [Int.natAbs_mul, Nat.mul_comm]
    · refine lt_of_le_of_lt (pairs_mass_le _ _ _ _ _ fun probe build => ?_)
        (lt_of_le_of_lt hmass h)
      rw [Int.natAbs_mul]

theorem join_mass_le (r : HashJoinRule) (a b : Zset TripleId) :
    (r.join a b).mass ≤ a.mass * b.mass := by
  have hmass := Nat.mul_le_mul (filter_and_bind_fits r.left a).2
    (filter_and_bind_fits r.right b).2
  have hnew : ∀ l : List (TripleId × Int),
      (Zset.from_iter l).mass ≤ (l.map fun e => e.2.natAbs).sum := by
    intro l
    refine (Zset.foldl_mass_le l .new).trans ?_
    rw [show (Zset.new : Zset TripleId).mass = 0 from rfl, Nat.zero_add]
  unfold join
  dsimp only
  split
  · exact Nat.zero_le _
  · split
    · refine ((hnew _).trans (pairs_mass_le _ _ _ _ _ fun probe build => ?_)).trans
        (Nat.mul_comm _ _ ▸ hmass)
      rw [Int.natAbs_mul, Nat.mul_comm]
    · refine ((hnew _).trans (pairs_mass_le _ _ _ _ _ fun probe build => ?_)).trans hmass
      rw [Int.natAbs_mul]

end HashJoinRule

/-! ## Plans -/

namespace NaryPlan

theorem leaf_mass_le (ext : PredExtent) (pred : Option Nat) :
    (leaf ext pred).mass ≤ ext.all.mass := by
  cases pred with
  | none => exact le_rfl
  | some p =>
    refine Zset.mass_le_mass fun t => ?_
    rw [show leaf ext (some p) = ext.slice p from rfl, ext.get_slice]
    by_cases hp : t.p = p
    · exact Or.inl (if_pos hp)
    · exact Or.inr (if_neg hp)

/-- The joins of a plan fit where the mass of the extent, once for each pattern, does. -/
theorem full_fits {plan : NaryPlan} {ext : PredExtent}
    (h : ext.all.mass ^ (plan.joins.length + 1) < 2 ^ 63) :
    (plan.checked_full ext).Avoids .overflow := by
  -- an extent of no mass counts as one of mass one
  obtain ⟨n, hn, hpos, hfit⟩ : ∃ n, ext.all.mass ≤ n ∧ 0 < n ∧
      n ^ (plan.joins.length + 1) < 2 ^ 63 := by
    by_cases hz : ext.all.mass = 0
    · exact ⟨1, by omega, Nat.one_pos, by rw [Nat.one_pow]; decide⟩
    · exact ⟨_, le_rfl, Nat.pos_of_ne_zero hz, h⟩
  have hleaf := fun pred => (leaf_mass_le ext pred).trans hn
  unfold checked_full
  cases hjoins : plan.joins with
  | nil => exact avoids_pure _
  | cons first rest =>
    rw [hjoins, List.length_cons] at hfit
    have hfirst := Nat.mul_le_mul (hleaf first.body_predicates.1) (hleaf first.body_predicates.2)
    have hstep : ∀ len, n * n ≤ n ^ (len + 2) := by
      intro len
      rw [pow_add, sq]
      exact Nat.le_mul_of_pos_left _ (Nat.pow_pos hpos)
    refine (first.join_fits (lt_of_le_of_lt (hfirst.trans (hstep _)) hfit)).bind fun int hint => ?_
    have hmass : int.mass ≤ n * n := by
      cases (exact_first_full first ext).symm.trans (Checked.sound _ int hint)
      exact (first.join_mass_le _ _).trans hfirst
    have hbudget : int.mass * n ^ rest.length < 2 ^ 63 := by
      refine lt_of_le_of_lt (Nat.mul_le_mul_right _ hmass) ?_
      rw [← sq, ← pow_add, Nat.add_comm]
      exact hfit
    clear hint hmass hjoins hfit hfirst
    induction rest generalizing int with
    | nil => exact avoids_pure _
    | cons rule rest ih =>
      rw [List.length_cons, pow_succ', ← Nat.mul_assoc] at hbudget
      rw [List.foldlM_cons]
      have hnext := Nat.mul_le_mul_left int.mass (hleaf rule.body_predicates.2)
      have hfits : int.mass * n < 2 ^ 63 :=
        lt_of_le_of_lt (Nat.le_mul_of_pos_right _ (Nat.pow_pos hpos)) hbudget
      refine (rule.join_fits (lt_of_le_of_lt hnext hfits)).bind fun next hrun => ih next ?_
      cases (exact_next_full ext int rule).symm.trans (Checked.sound _ next hrun)
      have hmass := (rule.join_mass_le int (leaf ext rule.body_predicates.2)).trans hnext
      exact lt_of_le_of_lt (Nat.mul_le_mul_right _ hmass) hbudget

end NaryPlan

end horndb.incremental
