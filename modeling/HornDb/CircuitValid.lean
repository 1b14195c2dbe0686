-- What debug_validate asserts, after every tick of every run and in both regimes: the
-- extent, the weights, the owners and the closure rows agree with the bases.
import HornDb.CircuitRecompute
import HornDb.CircuitRuns
import HornDb.PlanFeeds

open HornDb.Lib HornDb.Lib.Words HornDb.Lib.Words.Checked Std

namespace horndb.incremental.Circuit

/-! ## The fallback tick -/

/-- What a tick keeps of a circuit, whichever regime it ran in. -/
structure Sound (rules : List (List TriplePattern × TriplePattern)) (c : Circuit) : Prop where
  tidy : Tidy rules c
  stored : c.Stored
  attributed : c.Attributed

theorem fallback_tick {rules : List (List TriplePattern × TriplePattern)} {c : Circuit}
    (h : Tidy rules c)
    (hmode : (c.recompute_fallback && c.log.records.any fun rec => decide (rec.mult < 0)) = true)
    {out : TickOutput} (ht : c.tick = some out) :
    Sound rules out.circuit ∧ skeleton out.circuit.plans = skeleton c.plans := by
  have hpassed := closure_passes_spec h
  rw [tick] at ht
  dsimp only at ht hpassed
  rw [show c.merge_pending.recompute_fallback = c.recompute_fallback from rfl, hmode, if_pos rfl,
    run_recompute_fallback] at ht
  rw [closure_passes, (Bool.and_eq_true_iff.mp hmode).2, if_pos rfl] at hpassed
  rw [(Bool.and_eq_true_iff.mp hmode).2] at ht
  dsimp only at ht hpassed
  generalize c.merge_pending.presence_flips _ = init at hpassed
  rw [alike_passes _ _ _ .new init] at ht
  generalize run_closure_insertion_pass _ _ = st at *
  have hb := hpassed.balanced
  have hplans : st.circuit.plans = c.plans := (congrArg plans hb.rest :)
  obtain ⟨c', hran, rfl⟩ := Option.map_eq_some_iff.mp ht
  obtain ⟨new_rule, hrule, hfinal⟩ := Option.map_eq_some_iff.mp hran
  have hr := recompute_spec (hplans ▸ h.implements) hb.rows hrule
  rw [show (st.circuit.hand_over new_rule).resync_incremental_state = c' from hfinal] at hr
  have hA : c'.asserted_base = c.merge_pending.asserted_base :=
    (congrArg asserted_base hr.rest :).trans hb.asserted
  have hcs : c'.closure_support = st.circuit.closure_support :=
    (congrArg closure_support hr.rest :)
  have hcp : c'.closure_plans = st.circuit.closure_plans := (congrArg closure_plans hr.rest :)
  have hskel : skeleton c'.plans = skeleton c.plans := hplans ▸ hr.plans
  have htidy : Tidy rules c' := by
    refine ⟨implements_skeleton hskel h.implements, hr.weighed, hr.flat, hr.present, hr.rows,
      hr.owned, hr.closed, ?_, ?_, ?_⟩
    · rw [hcp, hA]
      exact hpassed.follows
    · rw [hcs, hcp, hA, hpassed.predicates]
      exact hpassed.support
    · intro t ht
      rw [hcp, hA, hpassed.predicates] at ht
      rw [Covered, hA, hcs]
      exact hpassed.entailed t ht
  refine ⟨⟨⟨htidy.implements, ⟨htidy.weighed.traced, htidy.weighed.exact⟩, htidy.flat,
    htidy.present, htidy.rows, htidy.owned, htidy.closed, htidy.follows, htidy.support,
    htidy.entailed⟩, hr.stored, hr.attributed⟩, hskel⟩

/-- A tick of either regime. -/
theorem tick_sound {rules : List (List TriplePattern × TriplePattern)} {c : Circuit}
    (h : Sound rules c) {out : TickOutput} (ht : c.tick = some out) :
    Sound rules out.circuit ∧ skeleton out.circuit.plans = skeleton c.plans := by
  cases hmode : (c.recompute_fallback && c.log.records.any fun rec => decide (rec.mult < 0)) with
  | true => exact fallback_tick h.tidy hmode ht
  | false =>
    obtain ⟨hstored, hattr, hplans⟩ := tick_owners h.tidy h.stored h.attributed hmode ht
    exact ⟨⟨(tick_spec h.tidy hmode ht).tidy, hstored, hattr⟩, hplans⟩

/-! ## What debug_validate asserts -/

/-- The four invariants, with the weights also as counts of the derivations by each rule. -/
structure DebugValid (rules : List PlannedRule) (c : Circuit) : Prop where
  extent_once : ∀ t m, (t, m) ∈ c.extent.iter → m = 1 ∧ c.base_presence t = true
  presence : ∀ t, c.base_presence t = true → 0 < c.extent.get t
  weights_expected : c.rule_weights = expected_weights c.plans c.extent
  weights_count : ∀ t rid, (c.weights t).get rid =
    ((rules.filter fun r => decide (r.attribution = rid)).map fun r =>
      ((Derivations r.body r.head c.extent t).ncard : Int)).sum
  attribution : ∀ (t : TripleId) (rid : RuleId), c.rule_attr[t]? = some rid →
    0 < c.total_weight t ∧ 0 < c.derived_base.get t ∧ 0 < (c.weights t).get rid
  support : ∀ t ∈ c.closure_support, 0 < c.derived_base.get t
  derived_once : ∀ t, c.derived_base.get t = 0 ∨ c.derived_base.get t = 1
  weights_positive : ∀ (t : TripleId) (per_rule : Zset RuleId), c.rule_weights[t]? = some per_rule →
    per_rule.is_empty = false ∧ ∀ rid m, (rid, m) ∈ per_rule.iter → 0 < m

/-- The plans of the rules, in order. -/
def planned (rules : List PlannedRule) : List (NaryPlan × RuleId) :=
  rules.map fun r => (r.plan, r.attribution)

theorem ruleWeights_planned (rules : List PlannedRule) {ext : PredExtent} (hflat : Flat ext)
    (t : TripleId) (rid : RuleId) :
    ruleWeights (planned rules) ext t rid =
      ((rules.filter fun r => decide (r.attribution = rid)).map fun r =>
        ((Derivations r.body r.head ext t).ncard : Int)).sum := by
  induction rules with
  | nil => rfl
  | cons r rules ih =>
    have hcons : ruleWeights (planned (r :: rules)) ext t rid =
        Finsupp.single r.attribution ((r.plan.apply_full ext).get t) rid +
          ruleWeights (planned rules) ext t rid := rfl
    rw [hcons, ih, Finsupp.single_apply,
      NaryPlan.built_eq_ncard ⟨r.id, r.stats, r.plan, r.built, rfl⟩ hflat t]
    rw [List.filter_cons]
    by_cases hid : r.attribution = rid
    · rw [if_pos hid, if_pos (decide_eq_true hid), List.map_cons, List.sum_cons]
    · rw [if_neg hid, if_neg (by simpa using hid), zero_add]

theorem Sound.debug_valid {rules : List PlannedRule} {c : Circuit}
    (h : Sound (PlannedRule.bodies rules) c) (hplans : skeleton c.plans = skeleton (planned rules)) :
    DebugValid rules c := by
  have htidy := h.tidy
  have hext : ∀ x, 0 ≤ c.extent.get x := htidy.flat.nonneg
  have hpresence : ∀ t, c.base_presence t = true ↔ 0 < c.extent.get t := by
    intro t
    rw [base_presence, Bool.or_eq_true, decide_eq_true_eq, decide_eq_true_eq, htidy.present]
  have hval : ∀ t, (c.weights t).val = ruleWeights c.plans c.extent t := htidy.weighed.exact
  have hentry : ∀ (t : TripleId) (w : Zset RuleId), c.rule_weights[t]? = some w →
      w.val = ruleWeights c.plans c.extent t ∧ w.val ≠ 0 := by
    intro t w hw
    have hv := hval t
    rw [weights, ExtTreeMap.getD_eq_getD_getElem?, hw] at hv
    refine ⟨hv, fun hz => h.stored t w hw ?_⟩
    rw [total_eq_sum, hz, Finsupp.sum_zero_index]
  refine ⟨fun t m hm => ?_, fun t => (hpresence t).mp, ?_, fun t rid => ?_, fun t rid hrid => ?_,
    fun t hs => ?_, fun t => ?_, fun t w hw => ⟨?_, fun rid m hm => ?_⟩⟩
  · obtain ⟨hne, hget⟩ := Zset.mem_iter.mp hm
    have hget' : c.extent.get t = m := hget
    rw [hpresence]
    rcases htidy.flat t with h0 | h1 <;> omega
  · refine ExtTreeMap.ext_getElem? fun t => ?_
    cases hw : c.rule_weights[t]? with
    | none =>
      have hv := hval t
      rw [weights, ExtTreeMap.getD_eq_getD_getElem?, hw, Option.getD_none, Zset.val_new] at hv
      rcases expected_weights_entry c.plans c.extent t with ⟨w', _, hne, hv'⟩ | ⟨hnone, _⟩
      · rw [← hv] at hv'
        have : w'.is_empty = true := Zset.is_empty_iff.mpr fun k => DFunLike.congr_fun hv' k
        rw [hne] at this
        cases this
      · exact hnone.symm
    | some w =>
      obtain ⟨hv, hnz⟩ := hentry t w hw
      rcases expected_weights_entry c.plans c.extent t with ⟨w', hw', _, hv'⟩ | ⟨_, hz⟩
      · rw [hw', Zset.val_injective (hv.trans hv'.symm)]
      · exact absurd (hv.trans hz) hnz
  · rw [← Zset.val_apply, hval, ruleWeights_skeleton hplans,
      ruleWeights_planned rules htidy.flat]
  · have howned : c.Owned t := by
      rw [Owned, ExtTreeMap.mem_iff_isSome_getElem?, hrid]
      rfl
    refine ⟨?_, ?_, h.attributed t rid hrid⟩
    · rw [total_weight, htidy.weighed.total]
      exact htidy.owned t howned
    · rcases htidy.rows t with ⟨h1, _⟩ | ⟨_, h2, _⟩
      · omega
      · exact absurd howned h2
  · rcases htidy.rows t with ⟨h1, _⟩ | ⟨_, _, h3⟩
    · omega
    · exact absurd hs h3
  · rcases htidy.rows t with ⟨h1, _⟩ | ⟨h1, _⟩
    · exact Or.inr h1
    · exact Or.inl h1
  · obtain ⟨_, hnz⟩ := hentry t w hw
    cases he : w.is_empty with
    | false => rfl
    | true =>
      refine absurd (Finsupp.ext fun rid => ?_) hnz
      exact Zset.is_empty_iff.mp he rid
  · obtain ⟨hne, hget⟩ := Zset.mem_iter.mp hm
    have hv := DFunLike.congr_fun (hentry t w hw).1 rid
    rw [Zset.val_apply, hget] at hv
    have hnn := (ruleWeights_pos htidy.implements hext t rid).1
    omega

/-! ## Runs of either regime -/

/-- The circuit before the first call, in the regime that the flag asks for. -/
def start_with (recompute_fallback : Bool) (rules : List PlannedRule) (closures : List Nat) :
    Circuit :=
  closures.foldl (fun c p => c.add_closure_plan (.new p))
    (rules.foldl (fun c r => c.add_plan r.plan r.attribution) (.with_fallback recompute_fallback))

theorem start_with_eq (recompute_fallback : Bool) (rules : List PlannedRule)
    (closures : List Nat) :
    start_with recompute_fallback rules closures =
      { start rules closures with recompute_fallback := recompute_fallback } := by
  have hrules : ∀ (l : List PlannedRule) (c : Circuit),
      l.foldl (fun c r => c.add_plan r.plan r.attribution) { c with recompute_fallback } =
        { l.foldl (fun c r => c.add_plan r.plan r.attribution) c with recompute_fallback } := by
    intro l
    induction l with
    | nil => exact fun _ => rfl
    | cons r l ih => exact fun c => ih (c.add_plan r.plan r.attribution)
  have hclosures : ∀ (l : List Nat) (c : Circuit),
      l.foldl (fun c p => c.add_closure_plan (.new p)) { c with recompute_fallback } =
        { l.foldl (fun c p => c.add_closure_plan (.new p)) c with recompute_fallback } := by
    intro l
    induction l with
    | nil => exact fun _ => rfl
    | cons p l ih => exact fun c => ih (c.add_closure_plan (.new p))
  have hnew : with_fallback recompute_fallback = { new with recompute_fallback } := rfl
  rw [start_with, hnew, hrules, hclosures, start]

theorem start_sound (recompute_fallback : Bool) (rules : List PlannedRule) (closures : List Nat) :
    Sound (PlannedRule.bodies rules) (start_with recompute_fallback rules closures) ∧
      skeleton (start_with recompute_fallback rules closures).plans = skeleton (planned rules) := by
  have h := start_tidy rules closures
  rw [start_with_eq]
  refine ⟨⟨⟨h.implements, ⟨h.weighed.traced, h.weighed.exact⟩, h.flat, h.present, h.rows, h.owned,
    h.closed, h.follows, h.support, h.entailed⟩, ?_, ?_⟩, ?_⟩
  · intro t w hw
    rw [start_plans] at hw
    have : (∅ : ExtTreeMap TripleId (Zset RuleId))[t]? = some w := hw
    rw [ExtTreeMap.getElem?_empty] at this
    cases this
  · intro t rid hrid
    rw [start_plans] at hrid
    have : (∅ : ExtTreeMap TripleId RuleId)[t]? = some rid := hrid
    rw [ExtTreeMap.getElem?_empty] at this
    cases this
  · rw [start_plans]
    rfl

theorem run_sound (recompute_fallback : Bool) (rules : List PlannedRule) (closures : List Nat)
    (ops : List Op) :
    ∀ c, run ops (start_with recompute_fallback rules closures) = some c →
      Sound (PlannedRule.bodies rules) c ∧ skeleton c.plans = skeleton (planned rules) := by
  induction ops using List.reverseRecOn with
  | nil =>
    intro c h
    cases h
    exact start_sound recompute_fallback rules closures
  | append_singleton ops op ih =>
    intro c' h
    obtain ⟨c, hc, hop⟩ := run_snoc h
    obtain ⟨hsound, hplans⟩ := ih c hc
    cases op with
    | assert_triple t =>
      cases hop
      exact ⟨⟨hsound.tidy.set_log _, hsound.stored, hsound.attributed⟩, hplans⟩
    | retract_triple t =>
      cases hop
      exact ⟨⟨hsound.tidy.set_log _, hsound.stored, hsound.attributed⟩, hplans⟩
    | tick =>
      obtain ⟨out, hout, rfl⟩ := Option.map_eq_some_iff.mp hop
      obtain ⟨hnext, hskel⟩ := tick_sound hsound hout
      exact ⟨hnext, hskel.trans hplans⟩

/-- In every state that a run over words returns, in either regime, the invariants of
`debug_validate` hold. -/
theorem run_debug_valid (recompute_fallback : Bool) (rules : List PlannedRule)
    (closures : List Nat) (ops : List Op) {c : Circuit}
    (h : (checked_run ops (start_with recompute_fallback rules closures)).run = .ok c) :
    DebugValid rules c := by
  obtain ⟨hsound, hplans⟩ := run_sound recompute_fallback rules closures ops c (run_of_checked h)
  exact hsound.debug_valid hplans

/-- A run with fallback ticks over a cycle of rules. -/
theorem cyclic_run_debug_valid : ∃ c,
    (checked_run cyclicOps (start_with true cyclicRules [4])).run = .ok c ∧
      DebugValid cyclicRules c := by
  have hrun : (checked_run cyclicOps (start_with true cyclicRules [4])).returns_with
      (fun _ => true) = true := by
    decide
  obtain ⟨c, hc, _⟩ := returns_with_iff.mp hrun
  exact ⟨c, hc, run_debug_valid true cyclicRules [4] cyclicOps hc⟩

/-- The rule `?8 1 ?0, ?0 1 ?1 → ?0 2 ?1`, with a variable that the table does not hold. -/
def wideRule : PlannedRule where
  id := 0
  body := NaryPlan.wideBody
  head := ⟨.Var 0, .Bound 2, .Var 1⟩
  stats := NaryPlan.zeroStats
  plan := ⟨[NaryPlan.wideJoin], [0, 1], none⟩
  attribution := 0
  built := rfl

/-- A tick over the wide rule does not come back with one row. -/
theorem wide_tick_panics :
    (checked_run [.assert_triple ⟨1, 1, 2⟩, .tick] (start_with false [wideRule] [])).run =
      .error .index := rfl

end horndb.incremental.Circuit
