-- One round of the rules: the weights move by what every plan gains from the delta, so
-- exact weights over the extent before give exact weights over the extent after. First
-- what one step of a tick does to one row; all other rows and all else stay.
import HornDb.Circuit
import HornDb.PlanRules

open Std

namespace horndb.incremental

theorem compare_triple_iff {a b : TripleId} : compare a b = Ordering.eq ↔ a = b :=
  compare_eq_iff_eq

/-- The state of one row that the rule steps of a tick may change. -/
structure Row where
  derived : Int
  attr : Option RuleId
  per_rule : Zset RuleId
  emitted : Int

namespace Circuit

/-- The net of all kinds that the tick has emitted for `t`. -/
noncomputable def emitted (c : Circuit) (t : TripleId) : Int :=
  c.pending_derived.val.sum fun k m => if k.triple = t then m else 0

noncomputable def row (c : Circuit) (t : TripleId) : Row :=
  ⟨c.derived_base.get t, c.rule_attr[t]?, c.weights t, c.emitted t⟩

/-- The circuit with all that the rule steps may change taken out. -/
def fixed (c : Circuit) : Circuit :=
  { c with
    derived_base := .new
    pending_derived := .new
    emissions := 0
    rule_attr := ∅
    rule_weights := ∅ }

variable {c c' : Circuit}

theorem fixed_extent (h : c'.fixed = c.fixed) : c'.extent = c.extent :=
  (congrArg extent h :)

theorem fixed_asserted (h : c'.fixed = c.fixed) : c'.asserted_base = c.asserted_base :=
  (congrArg asserted_base h :)

theorem fixed_support (h : c'.fixed = c.fixed) : c'.closure_support = c.closure_support :=
  (congrArg closure_support h :)

theorem fixed_plans (h : c'.fixed = c.fixed) : c'.plans = c.plans :=
  (congrArg plans h :)

/-! ## Emission and ownership -/

theorem emitted_emit_derived (c : Circuit) (t u : TripleId) (mult : Int)
    (kind : DerivationKind) :
    (c.emit_derived t mult kind).emitted u = c.emitted u + if u = t then mult else 0 := by
  rw [emitted, emit_derived, Zset.val_add, Finsupp.sum_add_index', Finsupp.sum_single_index,
    emitted]
  · simp only [eq_comm]
  · simp
  · simp
  · intro k a b
    split
    · rfl
    · rfl

/-- A new owner and a new count for the row. -/
theorem row_materialize (c : Circuit) (t u : TripleId) (rid : RuleId) :
    (c.materialize_rule_row t rid).row u =
      if u = t then ⟨c.derived_base.get t + 1, some rid, c.weights t, c.emitted t + 1⟩
      else c.row u := by
  have hemit := emitted_emit_derived
    { c with derived_base := c.derived_base.add t 1, rule_attr := c.rule_attr.insert t rid }
    t u 1 (.RuleInferred rid)
  by_cases hu : u = t
  · subst hu
    rw [if_pos rfl] at hemit ⊢
    rw [row, materialize_rule_row, hemit]
    simp [emit_derived, Zset.get_add, weights, emitted]
  · rw [if_neg hu] at hemit ⊢
    rw [row, materialize_rule_row, hemit]
    simp [emit_derived, Zset.get_add, weights, emitted, row, ExtTreeMap.getElem?_insert,
      hu, Ne.symm hu]

theorem row_withdraw (c : Circuit) (t u : TripleId) (kind : DerivationKind) :
    (c.withdraw_derived_row t kind).row u =
      if u = t then ⟨0, c.rule_attr[t]?, c.weights t, c.emitted t - 1⟩ else c.row u := by
  have hemit := emitted_emit_derived
    { c with derived_base := c.derived_base.add t (-c.derived_base.get t) } t u (-1) kind
  by_cases hu : u = t
  · subst hu
    rw [if_pos rfl] at hemit ⊢
    rw [row, withdraw_derived_row, hemit]
    simp [emit_derived, Zset.get_add, weights, emitted, sub_eq_add_neg]
  · rw [if_neg hu] at hemit ⊢
    rw [row, withdraw_derived_row, hemit]
    simp [emit_derived, Zset.get_add, weights, emitted, row, hu]

/-! ## Weights -/

/-- The weights of a row after the deltas, none when their total is zero. -/
def weighed (per_rule : Zset RuleId) (deltas : List (RuleId × Int)) : Zset RuleId :=
  let per_rule := deltas.foldl (fun w d => w.add d.1 d.2) per_rule
  if total per_rule = 0 then .new else per_rule

theorem total_new : total .new = 0 := rfl

theorem total_weighed (per_rule : Zset RuleId) (deltas : List (RuleId × Int)) :
    total (weighed per_rule deltas) =
      total (deltas.foldl (fun w d => w.add d.1 d.2) per_rule) := by
  unfold weighed
  dsimp only
  split
  · rename_i h
    rw [h, total_new]
  · rfl

theorem weights_apply (c : Circuit) (t u : TripleId) (deltas : List (RuleId × Int)) :
    (c.apply_weight_deltas t deltas).1.weights u =
      if u = t then weighed (c.weights t) deltas else c.weights u := by
  unfold apply_weight_deltas weighed weights
  dsimp only
  by_cases hu : u = t
  · subst hu
    rw [if_pos rfl]
    split
    · rw [ExtTreeMap.getD_erase_self]
    · rw [ExtTreeMap.getD_insert_self]
  · have hne : ¬ compare t u = Ordering.eq := fun h => hu (compare_triple_iff.mp h).symm
    rw [if_neg hu]
    split
    · rw [ExtTreeMap.getD_erase, if_neg hne]
    · rw [ExtTreeMap.getD_insert, if_neg hne]

theorem row_apply (c : Circuit) (t u : TripleId) (deltas : List (RuleId × Int)) :
    (c.apply_weight_deltas t deltas).1.row u =
      if u = t then { c.row t with per_rule := weighed (c.weights t) deltas } else c.row u := by
  have h := weights_apply c t u deltas
  unfold row
  rw [h]
  by_cases hu : u = t
  · subst hu
    rw [if_pos rfl, if_pos rfl]
    rfl
  · rw [if_neg hu, if_neg hu]
    rfl

theorem fixed_apply (c : Circuit) (t : TripleId) (deltas : List (RuleId × Int)) :
    (c.apply_weight_deltas t deltas).1.fixed = c.fixed := rfl

theorem totals_apply (c : Circuit) (t : TripleId) (deltas : List (RuleId × Int)) :
    (c.apply_weight_deltas t deltas).2 =
      (total (c.weights t), total (weighed (c.weights t) deltas)) := by
  rw [total_weighed]
  rfl

end Circuit

end horndb.incremental

open Std

namespace horndb.incremental

/-! ## The derivations of a row -/

/-- The rule instances of a list of rules, each a body and a head. -/
def Instance (rules : List (List TriplePattern × TriplePattern)) (ps : List TripleId)
    (t : TripleId) : Prop :=
  ∃ r ∈ rules, Fires r.1 r.2 ps t

/-- Each plan was built from its rule. -/
def Implements (plans : List (NaryPlan × RuleId))
    (rules : List (List TriplePattern × TriplePattern)) : Prop :=
  List.Forall₂ (fun p r => p.1.BuiltFrom r.1 r.2) plans rules

/-- The one-step derivations of `t` over the extent, by rule id. -/
noncomputable def ruleWeights (plans : List (NaryPlan × RuleId)) (ext : PredExtent)
    (t : TripleId) : RuleId →₀ ℤ :=
  (plans.map fun p => Finsupp.single p.2 ((p.1.apply_full ext).get t)).sum

/-- The one-step derivations of `t` over the extent. -/
def derivations (plans : List (NaryPlan × RuleId)) (ext : PredExtent) (t : TripleId) : ℤ :=
  (plans.map fun p => (p.1.apply_full ext).get t).sum

theorem total_eq_sum (per_rule : Zset RuleId) : total per_rule = per_rule.val.sum fun _ m => m :=
  per_rule.sum_iter fun _ m => m

theorem sum_ruleWeights (plans : List (NaryPlan × RuleId)) (ext : PredExtent) (t : TripleId) :
    ((ruleWeights plans ext t).sum fun _ m => m) = derivations plans ext t := by
  induction plans with
  | nil => exact Finsupp.sum_zero_index
  | cons p plans ih =>
    have hw : ruleWeights (p :: plans) ext t =
        Finsupp.single p.2 ((p.1.apply_full ext).get t) + ruleWeights plans ext t := rfl
    rw [hw, Finsupp.sum_add_index' (fun _ => rfl) (fun _ _ _ => rfl),
      Finsupp.sum_single_index rfl, ih]
    rfl

variable {plans : List (NaryPlan × RuleId)} {ext : PredExtent}

theorem total_of_val {per_rule : Zset RuleId} {t : TripleId}
    (h : per_rule.val = ruleWeights plans ext t) : total per_rule = derivations plans ext t := by
  rw [total_eq_sum, h, sum_ruleWeights]

variable {rules : List (List TriplePattern × TriplePattern)}

theorem instance_cons {r : List TriplePattern × TriplePattern} {ps : List TripleId} {t : TripleId} :
    Instance (r :: rules) ps t ↔ Fires r.1 r.2 ps t ∨ Instance rules ps t := by
  simp [Instance]

/-- The derivations are counts, positive where an instance fires on present rows. -/
theorem derivations_pos_iff (h : Implements plans rules) (hext : ∀ x, 0 ≤ ext.get x)
    (t : TripleId) : 0 ≤ derivations plans ext t ∧
      (0 < derivations plans ext t ↔
        ∃ ps, Instance rules ps t ∧ ∀ p ∈ ps, 0 < ext.get p) := by
  induction h with
  | nil => exact ⟨Int.le_refl _, by simp [derivations, Instance]⟩
  | @cons p r plans rules hp _ ih =>
    obtain ⟨hnn, hpos⟩ := NaryPlan.built_pos_iff hp hext t
    obtain ⟨ihnn, ihpos⟩ := ih
    have hcons : derivations (p :: plans) ext t =
        (p.1.apply_full ext).get t + derivations plans ext t := rfl
    rw [hcons]
    refine ⟨add_nonneg hnn ihnn, ?_⟩
    rw [show (0 < (p.1.apply_full ext).get t + derivations plans ext t) ↔
      0 < (p.1.apply_full ext).get t ∨ 0 < derivations plans ext t by omega, hpos, ihpos]
    simp only [instance_cons, or_and_right, exists_or]

/-- A larger extent has more derivations exactly of the rows an instance gives from rows of
the larger extent of which one is new. -/
theorem derivations_lt_iff (h : Implements plans rules) {ext ext' : PredExtent}
    (hext : ∀ x, 0 ≤ ext.get x) (hle : ∀ x, ext.get x ≤ ext'.get x) (t : TripleId) :
    derivations plans ext t ≤ derivations plans ext' t ∧
      (derivations plans ext t < derivations plans ext' t ↔
        ∃ ps, Instance rules ps t ∧ (∀ p ∈ ps, 0 < ext'.get p) ∧
          ∃ p ∈ ps, ext.get p < ext'.get p) := by
  induction h with
  | nil => exact ⟨Int.le_refl _, by simp [derivations, Instance]⟩
  | @cons p r plans rules hp _ ih =>
    obtain ⟨hple, hplt⟩ := NaryPlan.built_le_and_lt_iff hp hext hle t
    obtain ⟨ihle, ihlt⟩ := ih
    have hcons : ∀ e, derivations (p :: plans) e t =
        (p.1.apply_full e).get t + derivations plans e t := fun _ => rfl
    rw [hcons, hcons]
    refine ⟨add_le_add hple ihle, ?_⟩
    rw [show ((p.1.apply_full ext).get t + derivations plans ext t <
        (p.1.apply_full ext').get t + derivations plans ext' t) ↔
      (p.1.apply_full ext).get t < (p.1.apply_full ext').get t ∨
        derivations plans ext t < derivations plans ext' t by omega, hplt, ihlt]
    simp only [instance_cons, or_and_right, exists_or]

theorem ruleWeights_eq_zero (h : Implements plans rules) (hext : ∀ x, 0 ≤ ext.get x)
    {t : TripleId} (hz : derivations plans ext t = 0) : ruleWeights plans ext t = 0 := by
  induction h with
  | nil => rfl
  | @cons p r plans rules hp hrest ih =>
    obtain ⟨hnn, _⟩ := NaryPlan.built_pos_iff hp hext t
    obtain ⟨ihnn, _⟩ := derivations_pos_iff hrest hext t
    have hcons : derivations (p :: plans) ext t =
        (p.1.apply_full ext).get t + derivations plans ext t := rfl
    rw [hcons] at hz
    rw [ruleWeights, List.map_cons, List.sum_cons, show (p.1.apply_full ext).get t = 0 by omega,
      Finsupp.single_zero, zero_add]
    exact ih (by omega)

/-! ## Plans that only trace -/

/-- What of a plan the rule depends on; a run only moves the kept state. -/
def skeleton (plans : List (NaryPlan × RuleId)) : List (List HashJoinRule × RuleId) :=
  plans.map fun p => (p.1.joins, p.2)

theorem apply_full_joins {plan plan' : NaryPlan} (h : plan.joins = plan'.joins)
    (ext : PredExtent) : plan.apply_full ext = plan'.apply_full ext := by
  unfold NaryPlan.apply_full
  rw [h]

theorem map_of_skeleton {β : Type*} {plans plans' : List (NaryPlan × RuleId)}
    (h : skeleton plans = skeleton plans') (f : NaryPlan × RuleId → β)
    (hf : ∀ p q, p.1.joins = q.1.joins → p.2 = q.2 → f p = f q) :
    plans.map f = plans'.map f := by
  induction plans generalizing plans' with
  | nil =>
    cases plans' with
    | nil => rfl
    | cons q plans' => cases h
  | cons p plans ih =>
    cases plans' with
    | nil => cases h
    | cons q plans' =>
      rw [skeleton, skeleton, List.map_cons, List.map_cons, List.cons.injEq, Prod.mk.injEq] at h
      obtain ⟨⟨hj, hr⟩, h⟩ := h
      rw [List.map_cons, List.map_cons, hf p q hj hr, ih h]

theorem ruleWeights_skeleton {plans plans' : List (NaryPlan × RuleId)}
    (h : skeleton plans = skeleton plans') (ext : PredExtent) (t : TripleId) :
    ruleWeights plans ext t = ruleWeights plans' ext t := by
  rw [ruleWeights, map_of_skeleton h _ fun p q hj hr => by rw [apply_full_joins hj, hr],
    ruleWeights]

theorem derivations_skeleton {plans plans' : List (NaryPlan × RuleId)}
    (h : skeleton plans = skeleton plans') (ext : PredExtent) (t : TripleId) :
    derivations plans ext t = derivations plans' ext t := by
  rw [derivations, map_of_skeleton h _ fun p q hj _ => by rw [apply_full_joins hj], derivations]

theorem implements_skeleton {plans plans' : List (NaryPlan × RuleId)}
    (hs : skeleton plans = skeleton plans') (h : Implements plans' rules) :
    Implements plans rules := by
  induction h generalizing plans with
  | nil =>
    rw [skeleton, skeleton, List.map_nil, List.map_eq_nil_iff] at hs
    rw [hs]
    exact .nil
  | @cons q r plans' rules hq _ ih =>
    cases plans with
    | nil => cases hs
    | cons p plans =>
      rw [skeleton, skeleton, List.map_cons, List.map_cons, List.cons.injEq, Prod.mk.injEq] at hs
      obtain ⟨⟨hj, _⟩, hs⟩ := hs
      refine .cons ?_ (ih hs)
      obtain ⟨id, stats, built, hbuilt, hjoins⟩ := hq
      exact ⟨id, stats, built, hbuilt, hj.trans hjoins⟩

/-! ## The deltas of a round -/

/-- The sum of a list of weight deltas. -/
noncomputable def deltaSum (deltas : List (RuleId × Int)) : RuleId →₀ ℤ :=
  (deltas.map fun d => Finsupp.single d.1 d.2).sum

namespace Circuit

/-- A round files under each row what each rule gains there. -/
theorem deltaSum_merge_raw (merged : Merged) (rid : RuleId) (raw : Zset TripleId) (t : TripleId) :
    deltaSum ((merge_raw merged rid raw).getD t []) =
      deltaSum (merged.getD t []) + Finsupp.single rid (raw.get t) := by
  have run : ∀ (l : List (TripleId × Int)) (merged : Merged),
      deltaSum ((l.foldl (fun (merged : Merged) e =>
          merged.insert e.1 (merged.getD e.1 [] ++ [(rid, e.2)])) merged).getD t []) =
        deltaSum (merged.getD t []) +
          (l.map fun e => if e.1 = t then Finsupp.single rid e.2 else 0).sum := by
    intro l
    induction l with
    | nil => intro merged; simp
    | cons e l ih =>
      intro merged
      rw [List.foldl_cons, ih, List.map_cons, List.sum_cons, ExtTreeMap.getD_insert]
      by_cases he : e.1 = t
      · subst he
        rw [if_pos ReflCmp.compare_self, if_pos rfl, deltaSum, List.map_append, List.sum_append,
          ← add_assoc]
        simp [deltaSum]
      · have hne : ¬ compare e.1 t = Ordering.eq := fun h => he (compare_triple_iff.mp h)
        rw [if_neg hne, if_neg he, zero_add]
  rw [merge_raw, run, raw.sum_iter fun k m => if k = t then Finsupp.single rid m else 0]
  congr 1
  rw [Finsupp.sum, Finset.sum_ite_eq']
  split
  · rfl
  · rename_i h
    rw [Finsupp.notMem_support_iff] at h
    rw [show raw.get t = 0 from h, Finsupp.single_zero]

/-- The circuit at the start of a round has exact weights and followed state. -/
structure Weighed (c : Circuit) : Prop where
  traced : ∀ p ∈ c.plans, p.1.Traced c.extent
  exact : ∀ t, (c.weights t).val = ruleWeights c.plans c.extent t

theorem Weighed.total {c : Circuit} (h : c.Weighed) (t : TripleId) :
    incremental.total (c.weights t) = derivations c.plans c.extent t :=
  total_of_val (h.exact t)

/-- What a round leaves before any weight is folded in. -/
structure RoundRun (c : Circuit) (round_delta : Zset TripleId) (out : Circuit × Merged) :
    Prop where
  rest : out.1 = { c with plans := out.1.plans, extent := out.1.extent }
  extent : out.1.extent = c.extent.add_assign round_delta
  plans : skeleton out.1.plans = skeleton c.plans
  traced : ∀ p ∈ out.1.plans, p.1.Traced out.1.extent
  gained : ∀ t, (c.weights t).val + deltaSum (out.2.getD t []) =
    ruleWeights c.plans out.1.extent t

theorem fixpoint_round_spec {c : Circuit} (h : c.Weighed) (round_delta : Zset TripleId) :
    RoundRun c round_delta (c.fixpoint_round round_delta) := by
  unfold fixpoint_round plan_deltas
  have hspec := fun p hp => NaryPlan.apply_delta_stateful_spec (h.traced p hp) round_delta
  refine ⟨rfl, rfl, ?_, ?_, ?_⟩
  · dsimp only
    rw [List.map_map, skeleton, List.map_map, skeleton]
    refine List.map_congr_left fun p hp => ?_
    exact Prod.ext (hspec p hp).2.1 rfl
  · dsimp only
    intro p hp
    rw [List.map_map, List.mem_map] at hp
    obtain ⟨q, hq, rfl⟩ := hp
    exact (hspec q hq).1
  · intro t
    dsimp only
    rw [h.exact t]
    have run : ∀ (plans : List (NaryPlan × RuleId)) (merged : Merged),
        (∀ p ∈ plans, (p.1.apply_delta_stateful c.extent round_delta).2.val =
          (p.1.apply_full (c.extent.add_assign round_delta)).val -
            (p.1.apply_full c.extent).val) →
        ruleWeights plans c.extent t +
          deltaSum (((plans.map fun p =>
            ((((p.1.apply_delta_stateful c.extent round_delta).1, p.2) : NaryPlan × RuleId),
              (p.1.apply_delta_stateful c.extent round_delta).2)).foldl
            (fun merged r => merge_raw merged r.1.2 r.2) merged).getD t []) =
        deltaSum (merged.getD t []) +
          ruleWeights plans (c.extent.add_assign round_delta) t := by
      intro plans
      induction plans with
      | nil => intro merged _; simp [ruleWeights]
      | cons p plans ih =>
        intro merged hall
        rw [List.forall_mem_cons] at hall
        have hget : (p.1.apply_delta_stateful c.extent round_delta).2.get t =
            (p.1.apply_full (c.extent.add_assign round_delta)).get t -
              (p.1.apply_full c.extent).get t := by
          have := DFunLike.congr_fun hall.1 t
          rwa [Finsupp.sub_apply] at this
        have hrest := ih (merge_raw merged p.2
          (p.1.apply_delta_stateful c.extent round_delta).2) hall.2
        rw [deltaSum_merge_raw, hget, Finsupp.single_sub] at hrest
        rw [ruleWeights, List.map_cons, List.sum_cons, List.map_cons, List.foldl_cons,
          ruleWeights, List.map_cons, List.sum_cons, add_assoc, ← ruleWeights, hrest,
          ← ruleWeights]
        abel
    have := run c.plans ∅ fun p hp => (hspec p hp).2.2
    rw [ExtTreeMap.getD_empty] at this
    rw [show deltaSum [] = 0 from rfl, zero_add] at this
    exact this

/-- Weights that take the deltas of a round are exact after it. -/
theorem weighed_val {w : Zset RuleId} {deltas : List (RuleId × Int)} (h : Implements plans rules)
    (hext : ∀ x, 0 ≤ ext.get x) {t : TripleId}
    (hsum : w.val + deltaSum deltas = ruleWeights plans ext t) :
    (weighed w deltas).val = ruleWeights plans ext t := by
  have hval : (deltas.foldl (fun w d => w.add d.1 d.2) w).val = ruleWeights plans ext t := by
    rw [Zset.val_foldl_add]
    exact hsum
  unfold weighed
  dsimp only
  split
  · rename_i hz
    rw [total_of_val hval] at hz
    rw [ruleWeights_eq_zero h hext hz, Zset.val_new]
  · exact hval

end Circuit

end horndb.incremental
