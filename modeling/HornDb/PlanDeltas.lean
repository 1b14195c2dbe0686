-- The hash join computes the product of its two inputs along the rows that bind
-- together, whichever side the index is built on. So the delta evaluations of a plan
-- give what the whole evaluation gains, and the kept state stays the left inputs of
-- the joins over the extent.
import HornDb.Lib.Pairing
import HornDb.NaryPlan

open HornDb.Lib.Pairing

namespace horndb.incremental

/-! ## Sums over lists -/

section ListSums

variable {α β M : Type*} [AddCommMonoid M]

theorem sum_map_flatMap (l : List α) (g : α → List β) (f : β → M) :
    ((l.flatMap g).map f).sum = (l.map fun x => ((g x).map f).sum).sum := by
  induction l with
  | nil => rfl
  | cons x l ih =>
    rw [List.flatMap_cons, List.map_append, List.sum_append, ih, List.map_cons, List.sum_cons]

theorem sum_map_filter (l : List α) (p : α → Bool) (f : α → M) :
    ((l.filter p).map f).sum = (l.map fun x => if p x = true then f x else 0).sum := by
  induction l with
  | nil => rfl
  | cons x l ih =>
    rw [List.filter_cons, List.map_cons, List.sum_cons, ← ih]
    split
    · rw [List.map_cons, List.sum_cons]
    · rw [zero_add]

theorem sum_map_filterMap (l : List α) (g : α → Option β) (f : β → M) :
    ((l.filterMap g).map f).sum = (l.map fun x => (g x).elim 0 f).sum := by
  induction l with
  | nil => rfl
  | cons x l ih =>
    rw [List.filterMap_cons, List.map_cons, List.sum_cons, ← ih]
    cases g x with
    | none => rw [Option.elim_none, zero_add]
    | some y => rw [Option.elim_some, List.map_cons, List.sum_cons]

end ListSums

theorem sum_filter_and_bind {M : Type*} [AddCommMonoid M] (pattern : TriplePattern)
    (input : Zset TripleId) (f : Bindings → ℤ → M) :
    ((filter_and_bind pattern input).map fun e => f e.1 e.2).sum =
      input.val.sum fun t m => (bind_row pattern t).elim 0 fun b => f b m := by
  rw [filter_and_bind, sum_map_filterMap,
    ← Zset.sum_iter input fun t m => (bind_row pattern t).elim 0 fun b => f b m]
  refine congrArg List.sum (List.map_congr_left fun e _ => ?_)
  cases bind_row pattern e.1 <;> rfl

namespace HashJoinRule

/-- The head that two rows give when they bind the patterns together. -/
def pair (r : HashJoinRule) (x y : TripleId) : Option TripleId :=
  (bind_row r.left x).bind fun b => (bind_slots (r.right.slots y) b).map (eval_head r.head)

theorem pair_eq (r : HashJoinRule) (x y : TripleId) :
    r.pair x y = (bind_row r.left x).bind fun b => (bind_row r.right y).bind fun c =>
      if key_of b (shared_vars r.left r.right) = key_of c (shared_vars r.left r.right)
      then some (eval_head r.head (b.merge c)) else none := by
  rw [pair]
  cases hb : bind_row r.left x with
  | none => rfl
  | some b =>
    rw [Option.bind_some, Option.bind_some, bind_right hb]
    cases bind_row r.right y with
    | none => rfl
    | some c =>
      rw [Option.bind_some, Option.bind_some]
      split <;> rfl

/-- The two loops of the join, without the early return for an empty side. -/
theorem join_eq (r : HashJoinRule) (a b : Zset TripleId) :
    r.join a b =
      if (filter_and_bind r.left a).length ≤ (filter_and_bind r.right b).length then
        .from_iter <| (filter_and_bind r.right b).flatMap fun probe =>
          ((filter_and_bind r.left a).filter fun build =>
            key_of build.1 (shared_vars r.left r.right) ==
              key_of probe.1 (shared_vars r.left r.right)).map
            fun build => (eval_head r.head (build.1.merge probe.1), build.2 * probe.2)
      else
        .from_iter <| (filter_and_bind r.left a).flatMap fun probe =>
          ((filter_and_bind r.right b).filter fun build =>
            key_of build.1 (shared_vars r.left r.right) ==
              key_of probe.1 (shared_vars r.left r.right)).map
            fun build => (eval_head r.head (probe.1.merge build.1), probe.2 * build.2) := by
  have hnone : ∀ rows : List (Bindings × Int),
      (rows.flatMap fun _ => ([] : List (TripleId × Int))) = [] :=
    fun rows => List.flatMap_eq_nil_iff.mpr fun _ _ => rfl
  unfold join
  generalize filter_and_bind r.left a = left_rows
  generalize filter_and_bind r.right b = right_rows
  dsimp only
  split
  · rename_i hempty
    rw [Bool.or_eq_true, List.isEmpty_iff, List.isEmpty_iff] at hempty
    rcases hempty with rfl | rfl
    · simp only [List.filter_nil, List.map_nil, hnone, List.flatMap_nil, ite_self]
      rfl
    · simp only [List.filter_nil, List.map_nil, hnone, List.flatMap_nil, ite_self]
      rfl
  · rfl

/-- The join is the product of its inputs along the rows that bind together. -/
theorem join_val (r : HashJoinRule) (a b : Zset TripleId) :
    (r.join a b).val = pairing r.pair a.val b.val := by
  have hpair : pairing r.pair a.val b.val = a.val.sum fun x m => b.val.sum fun y n =>
      (bind_row r.left x).elim 0 fun u => (bind_row r.right y).elim 0 fun v =>
        if key_of u (shared_vars r.left r.right) = key_of v (shared_vars r.left r.right)
        then Finsupp.single (eval_head r.head (u.merge v)) (m * n) else 0 := by
    refine Finsupp.sum_congr fun x _ => Finsupp.sum_congr fun y _ => ?_
    rw [pair_eq]
    cases bind_row r.left x with
    | none => rfl
    | some u =>
      rw [Option.bind_some, Option.elim_some]
      cases bind_row r.right y with
      | none => rfl
      | some v =>
        rw [Option.bind_some, Option.elim_some]
        split <;> rfl
  have hpull : ∀ (z : Zset TripleId) (o : Option Bindings)
      (f : Bindings → TripleId → ℤ → TripleId →₀ ℤ),
      (z.val.sum fun t m => o.elim 0 fun u => f u t m) = o.elim 0 fun u => z.val.sum (f u) := by
    intro z o f
    cases o with
    | none => exact Finset.sum_const_zero
    | some u => rfl
  rw [join_eq, hpair]
  split
  · rw [Zset.val_from_iter, sum_map_flatMap, Finsupp.sum_comm]
    simp only [List.map_map, Function.comp_def, sum_map_filter, beq_iff_eq]
    rw [sum_filter_and_bind r.right b fun v n => ((filter_and_bind r.left a).map fun e =>
      if key_of e.1 (shared_vars r.left r.right) = key_of v (shared_vars r.left r.right)
      then Finsupp.single (eval_head r.head (e.1.merge v)) (e.2 * n) else 0).sum]
    refine Finsupp.sum_congr fun y _ => ?_
    cases hv : bind_row r.right y with
    | none =>
      rw [Option.elim_none]
      refine (Finset.sum_eq_zero fun x _ => ?_).symm
      dsimp only
      cases bind_row r.left x <;> simp
    | some v =>
      rw [Option.elim_some, sum_filter_and_bind r.left a fun u m =>
        if key_of u (shared_vars r.left r.right) = key_of v (shared_vars r.left r.right)
        then Finsupp.single (eval_head r.head (u.merge v)) (m * b.val y) else 0]
      simp only [Option.elim_some]
  · rw [Zset.val_from_iter, sum_map_flatMap]
    simp only [List.map_map, Function.comp_def, sum_map_filter, beq_iff_eq]
    rw [sum_filter_and_bind r.left a fun u m => ((filter_and_bind r.right b).map fun e =>
      if key_of e.1 (shared_vars r.left r.right) = key_of u (shared_vars r.left r.right)
      then Finsupp.single (eval_head r.head (u.merge e.1)) (m * e.2) else 0).sum]
    refine Finsupp.sum_congr fun x _ => ?_
    rw [hpull]
    refine congrArg (fun f => (bind_row r.left x).elim 0 f) (funext fun u => ?_)
    rw [sum_filter_and_bind r.right b fun v n =>
      if key_of v (shared_vars r.left r.right) = key_of u (shared_vars r.left r.right)
      then Finsupp.single (eval_head r.head (u.merge v)) (a.val x * n) else 0]
    simp only [eq_comm]

theorem apply_full_val (r : HashJoinRule) (a b : Zset TripleId) :
    (r.apply_full a b).val = pairing r.pair a.val b.val := r.join_val a b

/-- The delta rule: what the join gains when both sides do. -/
theorem apply_delta_val (r : HashJoinRule) (a b da db : Zset TripleId) :
    (r.apply_delta a b da db).val =
      pairing r.pair (a.val + da.val) (b.val + db.val) - pairing r.pair a.val b.val := by
  rw [apply_delta, Zset.val_add_assign, Zset.val_add_assign, join_val, join_val, join_val,
    pairing_add_left, pairing_add_right, pairing_add_right]
  abel

end HashJoinRule

end horndb.incremental

open HornDb.Lib.Pairing

namespace horndb.incremental

theorem as_bound_eq_some {t : Term} {p : Nat} : t.as_bound = some p ↔ t = .Bound p := by
  cases t <;> simp [Term.as_bound]

theorem bind_slots_ne_bound {t : Term} {val p : Nat} {slots : List (Term × Nat)} {b : Bindings}
    (hmem : (t, val) ∈ slots) (ht : t = .Bound p) (hne : val ≠ p) : bind_slots slots b = none := by
  induction slots generalizing b with
  | nil => cases hmem
  | cons e rest ih =>
    rcases List.mem_cons.mp hmem with heq | hrest
    · subst heq ht
      rw [bind_slots, if_neg (Ne.symm hne)]
    · obtain ⟨u, w⟩ := e
      cases u with
      | Bound id =>
        rw [bind_slots]
        split
        · exact ih hrest
        · rfl
      | Var v =>
        rw [bind_slots]
        split
        · exact ih hrest
        · rfl

theorem mem_slots_p (pattern : TriplePattern) (t : TripleId) :
    (pattern.p, t.p) ∈ pattern.slots t := by
  simp [TriplePattern.slots]

/-- A leaf reads every row that its pattern can bind. -/
theorem leaf_val (ext : PredExtent) (pattern : TriplePattern) (y : TripleId) :
    (leaf ext pattern.p.as_bound).val y = ext.all.val y ∨
      ∀ b, bind_slots (pattern.slots y) b = none := by
  cases h : pattern.p.as_bound with
  | none => exact Or.inl rfl
  | some p =>
    rw [as_bound_eq_some] at h
    by_cases hy : y.p = p
    · refine Or.inl ?_
      rw [Zset.val_apply, Zset.val_apply, leaf, PredExtent.get_slice, if_pos hy]
    · exact Or.inr fun b => bind_slots_ne_bound (mem_slots_p pattern y) h hy

namespace NaryPlan

theorem first_full_val (r : HashJoinRule) (base : PredExtent) :
    (first_full r base).val = pairing r.pair base.all.val base.all.val := by
  rw [first_full, r.apply_full_val]
  refine pairing_congr (fun x => ?_) fun y => ?_
  · refine (leaf_val base r.left x).imp_right fun h y => ?_
    rw [HashJoinRule.pair, bind_row, h, Option.bind_none]
  · refine (leaf_val base r.right y).imp_right fun h x => ?_
    rw [HashJoinRule.pair]
    cases bind_row r.left x with
    | none => rfl
    | some b => rw [Option.bind_some, h, Option.map_none]

theorem next_full_val (base : PredExtent) (int : Zset TripleId) (r : HashJoinRule) :
    (next_full base int r).val = pairing r.pair int.val base.all.val := by
  rw [next_full, r.apply_full_val]
  refine pairing_congr (fun x => Or.inl rfl) fun y => ?_
  refine (leaf_val base r.right y).imp_right fun h x => ?_
  rw [HashJoinRule.pair]
  cases bind_row r.left x with
  | none => rfl
  | some b => rw [Option.bind_some, h, Option.map_none]

/-- The leaf of a sum of extents is the sum of the leaves. -/
theorem leaf_add_assign (base : PredExtent) (delta : Zset TripleId) (pred : Option Nat) :
    (leaf (base.add_assign delta) pred).val =
      (leaf base pred).val + (leaf (.from_zset delta) pred).val := by
  ext t
  cases pred with
  | none => simp [leaf]
  | some p =>
    simp only [leaf, Finsupp.add_apply, Zset.val_apply, PredExtent.get_slice,
      PredExtent.all_add_assign, PredExtent.all_from_zset, Zset.get_add_assign]
    split
    · rfl
    · rfl

theorem first_delta_val (r : HashJoinRule) (base : PredExtent) (delta : Zset TripleId) :
    (first_delta r base (.from_zset delta)).val =
      (first_full r (base.add_assign delta)).val - (first_full r base).val := by
  rw [first_delta, r.apply_delta_val, first_full, first_full, r.apply_full_val,
    r.apply_full_val, leaf_add_assign, leaf_add_assign]

theorem next_delta_val (base : PredExtent) (delta int d : Zset TripleId) (r : HashJoinRule) :
    (next_delta base (.from_zset delta) int d r).val =
      (next_full (base.add_assign delta) (int.add_assign d) r).val - (next_full base int r).val := by
  rw [next_delta, r.apply_delta_val, next_full, next_full, r.apply_full_val, r.apply_full_val,
    leaf_add_assign, Zset.val_add_assign]

/-- The later joins by delta, from state that is the left inputs over `base`. -/
theorem delta_levels_spec (base : PredExtent) (delta : Zset TripleId) :
    ∀ (rules : List HashJoinRule) (int int' d : Zset TripleId), int.add_assign d = int' →
      let base' := base.add_assign delta
      let out := delta_levels base (.from_zset delta) rules (intermediates base int rules) d
      out.1 = intermediates base' int' rules ∧
        out.2.val = (rules.foldl (next_full base') int').val -
          (rules.foldl (next_full base) int).val := by
  intro rules
  induction rules with
  | nil =>
    intro int int' d hd
    subst hd
    refine ⟨rfl, ?_⟩
    simp [delta_levels]
  | cons r rules ih =>
    intro int int' d hd
    subst hd
    have hnext : (next_full base int r).add_assign (next_delta base (.from_zset delta) int d r) =
        next_full (base.add_assign delta) (int.add_assign d) r := by
      refine Zset.val_injective ?_
      rw [Zset.val_add_assign, next_delta_val]
      abel
    obtain ⟨hstate, hout⟩ := ih _ _ _ hnext
    exact ⟨congrArg _ hstate, hout⟩

/-- The kept state of a plan is none, or the left inputs of its joins over the extent. -/
def Traced (plan : NaryPlan) (ext : PredExtent) : Prop :=
  plan.state = none ∨
    ∃ first rest, plan.joins = first :: rest ∧
      plan.state = some (intermediates ext (first_full first ext) rest)

theorem reset_state_traced (plan : NaryPlan) (ext : PredExtent) : plan.reset_state.Traced ext :=
  Or.inl rfl

/-- The stateful delta is what the whole evaluation gains, and the state follows. -/
theorem apply_delta_stateful_spec {plan : NaryPlan} {base : PredExtent}
    (h : plan.Traced base) (delta : Zset TripleId) :
    (plan.apply_delta_stateful base delta).1.Traced (base.add_assign delta) ∧
      (plan.apply_delta_stateful base delta).1.joins = plan.joins ∧
      (plan.apply_delta_stateful base delta).2.val =
        (plan.apply_full (base.add_assign delta)).val - (plan.apply_full base).val := by
  unfold apply_delta_stateful apply_full
  cases hj : plan.joins with
  | nil =>
    rcases h with h | ⟨first, rest, hjoins, _⟩
    · refine ⟨Or.inl h, hj, ?_⟩
      simp
    · rw [hj] at hjoins
      cases hjoins
  | cons first rest =>
    have hstate : plan.state.getD (intermediates base (first_full first base) rest) =
        intermediates base (first_full first base) rest := by
      rcases h with h | ⟨first', rest', hjoins, h⟩
      · rw [h, Option.getD_none]
      · rw [hj] at hjoins
        cases hjoins
        rw [h, Option.getD_some]
    have hfirst : (first_full first base).add_assign
        (first_delta first base (.from_zset delta)) = first_full first (base.add_assign delta) := by
      refine Zset.val_injective ?_
      rw [Zset.val_add_assign, first_delta_val]
      abel
    obtain ⟨hst, hout⟩ := delta_levels_spec base delta rest _ _ _ hfirst
    dsimp only
    rw [hstate]
    refine ⟨Or.inr ⟨first, rest, rfl, ?_⟩, rfl, hout⟩
    rw [hst]

/-- The stateless delta is the same. -/
theorem apply_delta_spec (plan : NaryPlan) (base : PredExtent) (delta : Zset TripleId) :
    (plan.apply_delta base delta).val =
      (plan.apply_full (base.add_assign delta)).val - (plan.apply_full base).val := by
  unfold apply_delta apply_full
  cases plan.joins with
  | nil => simp
  | cons first rest =>
    have run : ∀ (rules : List HashJoinRule) (int d int' : Zset TripleId),
        int.add_assign d = int' →
        (rules.foldl (fun (acc : Zset TripleId × Zset TripleId) rule =>
          (next_full base acc.1 rule,
            next_delta base (PredExtent.from_zset delta) acc.1 acc.2 rule)) (int, d)).2.val =
        (rules.foldl (next_full (base.add_assign delta)) int').val -
          (rules.foldl (next_full base) int).val := by
      intro rules
      induction rules with
      | nil =>
        intro int d int' hd
        subst hd
        simp
      | cons r rules ih =>
        intro int d int' hd
        subst hd
        refine ih _ _ _ (Zset.val_injective ?_)
        rw [Zset.val_add_assign, next_delta_val]
        abel
    refine run rest _ _ _ (Zset.val_injective ?_)
    rw [Zset.val_add_assign, first_delta_val]
    abel

end NaryPlan

end horndb.incremental
