-- A tick over machine words: every sum, product and negation of the counts is checked, every
-- binding is looked up in the table, and the bound on the rounds ends the run. Where it returns, it
-- returns what the circuit over the integers does.
import HornDb.CheckedPlans
import HornDb.Circuit

open HornDb.Lib.Words HornDb.Lib.Words.Checked Std

namespace horndb.incremental

def checked_total (per_rule : Zset RuleId) : Checked Int :=
  per_rule.iter.foldlM (fun sum e => i64 (sum + e.2)) 0

@[simp]
theorem exact_total (per_rule : Zset RuleId) :
    (checked_total per_rule).exact = some (total per_rule) := by
  rw [checked_total, exact_foldlM (fun (sum : Int) (e : RuleId × Int) => exact_i64 (sum + e.2)),
    total, List.sum_eq_foldl, List.foldl_map]

namespace Circuit

/-! ## Rows -/

def checked_note_presence_change (c : Circuit) (t : TripleId) (delta : Zset TripleId) :
    Checked (Zset TripleId) := do
  let pending ← i64 (c.extent.get t + delta.get t)
  if c.base_presence t && !decide (0 < pending) then delta.checked_add t 1
  else if !c.base_presence t && decide (0 < pending) then delta.checked_add t (-1)
  else pure delta

def checked_emit_derived (c : Circuit) (triple : TripleId) (mult : Int) (kind : DerivationKind) :
    Checked Circuit := do
  let pending_derived ← c.pending_derived.checked_add ⟨triple, kind⟩ mult
  pure { c with pending_derived, emissions := c.emissions + 1 }

def checked_materialize_rule_row (c : Circuit) (t : TripleId) (rid : RuleId) :
    Checked Circuit := do
  let derived_base ← c.derived_base.checked_add t 1
  { c with derived_base, rule_attr := c.rule_attr.insert t rid }.checked_emit_derived t 1
    (.RuleInferred rid)

/-- A row that the derived base does not have is left alone there. -/
def checked_withdraw_derived_row (c : Circuit) (t : TripleId) (kind : DerivationKind) :
    Checked Circuit := do
  let cur := c.derived_base.get t
  let derived_base ←
    if cur = 0 then pure c.derived_base
    else do
      let withdrawn ← i64 (-cur)
      c.derived_base.checked_add t withdrawn
  { c with derived_base }.checked_emit_derived t (-1) kind

section Exact

variable (c : Circuit) (t : TripleId)

@[simp]
theorem exact_note_presence_change (delta : Zset TripleId) :
    (c.checked_note_presence_change t delta).exact = some (c.note_presence_change t delta) := by
  simp only [checked_note_presence_change, note_presence_change, exact_bind, exact_i64,
    Option.bind_some, exact_ite, Zset.exact_add, exact_pure]
  split
  · rfl
  · split
    · rfl
    · rfl

@[simp]
theorem exact_emit_derived (mult : Int) (kind : DerivationKind) :
    (c.checked_emit_derived t mult kind).exact = some (c.emit_derived t mult kind) := by
  simp [checked_emit_derived, emit_derived]

@[simp]
theorem exact_materialize_rule_row (rid : RuleId) :
    (c.checked_materialize_rule_row t rid).exact = some (c.materialize_rule_row t rid) := by
  simp [checked_materialize_rule_row, materialize_rule_row]

@[simp]
theorem exact_withdraw_derived_row (kind : DerivationKind) :
    (c.checked_withdraw_derived_row t kind).exact = some (c.withdraw_derived_row t kind) := by
  unfold checked_withdraw_derived_row withdraw_derived_row
  by_cases hcur : c.derived_base.get t = 0
  · have hsame : c.derived_base.add t (-c.derived_base.get t) = c.derived_base := by
      rw [hcur, Int.neg_zero, Zset.add, dif_pos rfl]
    rw [hsame]
    simp [hcur]
  · simp [hcur]

end Exact

/-! ## One round of the rules -/

def checked_plan_deltas (extent : PredExtent) (round_delta : Zset TripleId)
    (plans : List (NaryPlan × RuleId)) : Checked (List ((NaryPlan × RuleId) × Zset TripleId)) :=
  plans.mapM fun p => do
    let (plan, raw) ← p.1.checked_delta_stateful extent round_delta
    pure ((plan, p.2), raw)

def checked_fixpoint_round (c : Circuit) (round_delta : Zset TripleId) :
    Checked (Circuit × Merged) := do
  let ran ← checked_plan_deltas c.extent round_delta c.plans
  let extent ← c.extent.checked_add_assign round_delta
  pure ({ c with plans := ran.map (·.1), extent },
    ran.foldl (fun merged r => merge_raw merged r.1.2 r.2) ∅)

def checked_apply_weight_deltas (c : Circuit) (t : TripleId) (deltas : List (RuleId × Int)) :
    Checked (Circuit × Int × Int) := do
  let old_total ← checked_total (c.weights t)
  let per_rule ← deltas.foldlM (fun w d => w.checked_add d.1 d.2) (c.weights t)
  let new_total ← checked_total per_rule
  pure ({ c with
    rule_weights :=
      if new_total = 0 then c.rule_weights.erase t else c.rule_weights.insert t per_rule },
    old_total, new_total)

section Exact

variable (c : Circuit)

@[simp]
theorem exact_fixpoint_round (round_delta : Zset TripleId) :
    (c.checked_fixpoint_round round_delta).exact = some (c.fixpoint_round round_delta) := by
  have hran : (checked_plan_deltas c.extent round_delta c.plans).exact =
      some (plan_deltas c.extent round_delta c.plans) := by
    refine exact_mapM (fun p => ?_) c.plans
    simp
  simp [checked_fixpoint_round, fixpoint_round, hran]

@[simp]
theorem exact_apply_weight_deltas (t : TripleId) (deltas : List (RuleId × Int)) :
    (c.checked_apply_weight_deltas t deltas).exact = some (c.apply_weight_deltas t deltas) := by
  have hper := exact_foldlM
    (fun (w : Zset RuleId) (d : RuleId × Int) => Zset.exact_add w d.1 d.2) deltas (c.weights t)
  simp [checked_apply_weight_deltas, apply_weight_deltas, hper, total_weight]

end Exact

/-! ## The insertion fixpoint -/

def checked_insertion_row (st : Insertion) (e : TripleId × List (RuleId × Int)) :
    Checked Insertion := do
  let (c, old_total, new_total) ← st.circuit.checked_apply_weight_deltas e.1 e.2
  if old_total ≤ 0 ∧ 0 < new_total ∧ c.asserted_base.get e.1 ≤ 0 ∧ c.derived_base.get e.1 = 0 then
    do
      let c ← c.checked_materialize_rule_row e.1 (c.first_attr_rule e.1)
      let next_delta ← c.checked_note_presence_change e.1 st.next_delta
      pure ⟨c, next_delta⟩
  else pure ⟨c, st.next_delta⟩

def checked_insertion_round (c : Circuit) (round_delta : Zset TripleId) : Checked Insertion := do
  let (c, merged) ← c.checked_fixpoint_round round_delta
  merged.toList.foldlM checked_insertion_row ⟨c, .new⟩

def checked_insertion_rounds : Nat → Circuit → Zset TripleId → Checked Circuit
  | 0, c, round_delta => if round_delta.is_empty then pure c else give_up
  | fuel + 1, c, round_delta =>
    if round_delta.is_empty then pure c
    else do
      let st ← c.checked_insertion_round round_delta
      checked_insertion_rounds fuel st.circuit st.next_delta

theorem exact_insertion_row (st : Insertion) (e : TripleId × List (RuleId × Int)) :
    (checked_insertion_row st e).exact = some (insertion_row st e) := by
  unfold checked_insertion_row insertion_row
  simp only [exact_bind, exact_apply_weight_deltas, Option.bind_some]
  obtain ⟨c, old_total, new_total⟩ := st.circuit.apply_weight_deltas e.1 e.2
  simp only [exact_ite, exact_bind, exact_materialize_rule_row, exact_note_presence_change,
    Option.bind_some, exact_pure]
  split
  · rfl
  · rfl

theorem exact_insertion_rounds (fuel : Nat) : ∀ (c : Circuit) (round_delta : Zset TripleId),
    (checked_insertion_rounds fuel c round_delta).exact =
      insertion_rounds fuel c round_delta := by
  induction fuel with
  | zero =>
    intro c round_delta
    rw [checked_insertion_rounds, insertion_rounds, exact_ite]
    rfl
  | succ fuel ih =>
    intro c round_delta
    have hround : (c.checked_insertion_round round_delta).exact =
        some (c.insertion_round round_delta) := by
      rw [checked_insertion_round, exact_bind, exact_fixpoint_round, Option.bind_some]
      exact exact_foldlM exact_insertion_row _ _
    rw [checked_insertion_rounds, insertion_rounds, exact_ite, exact_bind, hround,
      Option.bind_some, ih]
    rfl

/-! ## The retraction fixpoint -/

def checked_overdelete_row (st : Retraction) (e : TripleId × List (RuleId × Int)) :
    Checked Retraction := do
  let (c, old_total, new_total) ← st.circuit.checked_apply_weight_deltas e.1 e.2
  let st := { st with circuit := c, touched := st.touched.insert e.1 }
  if new_total < old_total ∧ e.1 ∉ st.candidates ∧ c.asserted_base.get e.1 ≤ 0 ∧
      e.1 ∉ c.closure_support then do
    let pending ← i64 (c.extent.get e.1 + st.next_delta.get e.1)
    let next_delta ←
      if 0 < pending then st.next_delta.checked_add e.1 (-1) else pure st.next_delta
    pure { st with candidates := st.candidates.insert e.1, next_delta }
  else pure st

def checked_overdelete_round (st : Retraction) : Checked Retraction := do
  let (c, merged) ← st.circuit.checked_fixpoint_round st.next_delta
  merged.toList.foldlM checked_overdelete_row { st with circuit := c, next_delta := .new }

def checked_overdelete_rounds : Nat → Retraction → Checked Retraction
  | 0, st => if st.next_delta.is_empty then pure st else give_up
  | fuel + 1, st =>
    if st.next_delta.is_empty then pure st
    else do
      let st ← checked_overdelete_round st
      checked_overdelete_rounds fuel st

def checked_rederive_row (st : Retraction) (e : TripleId × List (RuleId × Int)) :
    Checked Retraction := do
  let (c, old_total, new_total) ← st.circuit.checked_apply_weight_deltas e.1 e.2
  let st := { st with circuit := c, touched := st.touched.insert e.1 }
  if old_total ≤ 0 ∧ 0 < new_total then do
    let pending ← i64 (c.extent.get e.1 + st.next_delta.get e.1)
    if pending ≤ 0 then do
      let next_delta ← st.next_delta.checked_add e.1 1
      pure { st with next_delta }
    else pure st
  else pure st

def checked_rederive_round (st : Retraction) : Checked Retraction := do
  let (c, merged) ← st.circuit.checked_fixpoint_round st.next_delta
  merged.toList.foldlM checked_rederive_row { st with circuit := c, next_delta := .new }

def checked_rederive_rounds : Nat → Retraction → Checked Retraction
  | 0, st => if st.next_delta.is_empty then pure st else give_up
  | fuel + 1, st =>
    if st.next_delta.is_empty then pure st
    else do
      let st ← checked_rederive_round st
      checked_rederive_rounds fuel st

def checked_dropped_candidates (c : Circuit) (init_delta : Zset TripleId) :
    Checked (ExtTreeSet TripleId) :=
  init_delta.iter.foldlM
    (fun s e =>
      if e.2 < 0 then do
        let weight ← checked_total (c.weights e.1)
        pure (if 0 < weight then s.insert e.1 else s)
      else pure s) ∅

def checked_readd_candidates (c : Circuit) (candidates : ExtTreeSet TripleId)
    (seed : Zset TripleId) : Checked (Zset TripleId) :=
  candidates.toList.foldlM
    (fun seed t => do
      let weight ← checked_total (c.weights t)
      if 0 < weight then do
        let pending ← i64 (c.extent.get t + seed.get t)
        if pending ≤ 0 then seed.checked_add t 1 else pure seed
      else pure seed)
    seed

def checked_net_transition (c : Circuit) (t : TripleId) : Checked Circuit := do
  let new_total ← checked_total (c.weights t)
  let was_attr := c.rule_attr.contains t
  let covered := decide (0 < c.asserted_base.get t) || c.closure_support.contains t
  if decide (0 < new_total) && decide (0 < c.extent.get t) && (was_attr || !covered) then
    if was_attr then pure { c with rule_attr := c.rule_attr.insert t (c.first_attr_rule t) }
    else c.checked_materialize_rule_row t (c.first_attr_rule t)
  else if was_attr then
    let rid := c.rule_attr.getD t 0
    let c := { c with rule_attr := c.rule_attr.erase t }
    if c.closure_support.contains t then pure c
    else c.checked_withdraw_derived_row t (.RuleInferred rid)
  else pure c

/-- The seeds are parts of the delta, so no sum of them overflows. -/
def checked_run_two_phase_fixpoint (c : Circuit) (init_delta : Zset TripleId) :
    Checked Circuit := do
  let dropped ← c.checked_dropped_candidates init_delta
  let r1_seed := seed_of (fun m => decide (m < 0)) init_delta
  let r2_seed := seed_of (fun m => !decide (m < 0)) init_delta
  let st ← checked_overdelete_rounds MAX_FIXPOINT_ROUNDS ⟨c, dropped, dropped, r1_seed⟩
  let seed ← st.circuit.checked_readd_candidates st.candidates r2_seed
  let st ← checked_rederive_rounds MAX_FIXPOINT_ROUNDS { st with next_delta := seed }
  st.touched.toList.foldlM checked_net_transition st.circuit

theorem exact_overdelete_row (st : Retraction) (e : TripleId × List (RuleId × Int)) :
    (checked_overdelete_row st e).exact = some (overdelete_row st e) := by
  unfold checked_overdelete_row overdelete_row
  simp only [exact_bind, exact_apply_weight_deltas, Option.bind_some]
  obtain ⟨c, old_total, new_total⟩ := st.circuit.apply_weight_deltas e.1 e.2
  simp only [exact_ite, exact_bind, exact_i64, Zset.exact_add, Option.bind_some, exact_pure]
  split
  · split
    · rfl
    · rfl
  · rfl

theorem exact_overdelete_rounds (fuel : Nat) : ∀ st : Retraction,
    (checked_overdelete_rounds fuel st).exact = overdelete_rounds fuel st := by
  induction fuel with
  | zero =>
    intro st
    rw [checked_overdelete_rounds, overdelete_rounds, exact_ite]
    rfl
  | succ fuel ih =>
    intro st
    have hround : (checked_overdelete_round st).exact = some (overdelete_round st) := by
      rw [checked_overdelete_round, exact_bind, exact_fixpoint_round, Option.bind_some]
      exact exact_foldlM exact_overdelete_row _ _
    rw [checked_overdelete_rounds, overdelete_rounds, exact_ite, exact_bind, hround,
      Option.bind_some, ih]
    rfl

theorem exact_rederive_row (st : Retraction) (e : TripleId × List (RuleId × Int)) :
    (checked_rederive_row st e).exact = some (rederive_row st e) := by
  unfold checked_rederive_row rederive_row
  simp only [exact_bind, exact_apply_weight_deltas, Option.bind_some]
  obtain ⟨c, old_total, new_total⟩ := st.circuit.apply_weight_deltas e.1 e.2
  simp only [exact_ite, exact_bind, exact_i64, Zset.exact_add, Option.bind_some, exact_pure,
    ← and_assoc]
  by_cases hcross : old_total ≤ 0 ∧ 0 < new_total
  · rw [if_pos hcross]
    simp only [hcross, and_self, true_and]
    split
    · rfl
    · rfl
  · rw [if_neg hcross, if_neg fun h => hcross h.1]

theorem exact_rederive_rounds (fuel : Nat) : ∀ st : Retraction,
    (checked_rederive_rounds fuel st).exact = rederive_rounds fuel st := by
  induction fuel with
  | zero =>
    intro st
    rw [checked_rederive_rounds, rederive_rounds, exact_ite]
    rfl
  | succ fuel ih =>
    intro st
    have hround : (checked_rederive_round st).exact = some (rederive_round st) := by
      rw [checked_rederive_round, exact_bind, exact_fixpoint_round, Option.bind_some]
      exact exact_foldlM exact_rederive_row _ _
    rw [checked_rederive_rounds, rederive_rounds, exact_ite, exact_bind, hround,
      Option.bind_some, ih]
    rfl

@[simp]
theorem exact_dropped_candidates (c : Circuit) (init_delta : Zset TripleId) :
    (c.checked_dropped_candidates init_delta).exact =
      some (c.dropped_candidates init_delta) := by
  refine exact_foldlM (fun s e => ?_) init_delta.iter ∅
  by_cases hneg : e.2 < 0
  · simp [hneg, total_weight]
  · simp [hneg]

@[simp]
theorem exact_readd_candidates (c : Circuit) (candidates : ExtTreeSet TripleId)
    (seed : Zset TripleId) :
    (c.checked_readd_candidates candidates seed).exact =
      some (c.readd_candidates candidates seed) := by
  refine exact_foldlM (fun seed t => ?_) candidates.toList seed
  simp only [exact_bind, exact_total, Option.bind_some, exact_ite, exact_i64, Zset.exact_add,
    exact_pure]
  by_cases hpos : 0 < total (c.weights t)
  · simp only [total_weight, hpos, if_true, true_and]
    split
    · rfl
    · rfl
  · simp [total_weight, hpos]

theorem exact_net_transition (c : Circuit) (t : TripleId) :
    (c.checked_net_transition t).exact = some (c.net_transition t) := by
  unfold checked_net_transition net_transition total_weight
  simp only [exact_bind, exact_total, Option.bind_some, exact_ite, exact_pure,
    exact_materialize_rule_row, exact_withdraw_derived_row]
  split_ifs <;> rfl

theorem exact_run_two_phase_fixpoint (c : Circuit) (init_delta : Zset TripleId) :
    (c.checked_run_two_phase_fixpoint init_delta).exact = c.run_two_phase_fixpoint init_delta := by
  unfold checked_run_two_phase_fixpoint run_two_phase_fixpoint
  simp only [exact_bind, exact_dropped_candidates, Option.bind_some, exact_overdelete_rounds,
    exact_readd_candidates, exact_rederive_rounds]
  refine congrArg _ (funext fun st => ?_)
  rw [Option.map_eq_bind]
  refine congrArg _ (funext fun st => ?_)
  exact exact_foldlM exact_net_transition _ _

/-! ## The closure passes -/

def checked_withdraw_row (st : ClosurePass) (t : TripleId) : Checked ClosurePass := do
  let was_support := st.circuit.closure_support.contains t
  let c := { st.circuit with closure_support := st.circuit.closure_support.erase t }
  if !was_support then pure { st with circuit := c }
  else if c.rule_attr.contains t then
    pure { st with circuit := c, orphans := st.orphans ++ [t] }
  else do
    let c ← c.checked_withdraw_derived_row t .ClosureInferred
    let init_delta ← c.checked_note_presence_change t st.init_delta
    pure { st with circuit := c, init_delta }

def checked_materialize_closure_row (st : ClosurePass) (t : TripleId) : Checked ClosurePass := do
  let c := st.circuit
  let derived_base ← c.derived_base.checked_add t 1
  let c ← { c with
    derived_base
    closure_support := c.closure_support.insert t }.checked_emit_derived t 1 .ClosureInferred
  let init_delta ← c.checked_note_presence_change t st.init_delta
  pure { st with circuit := c, init_delta }

def checked_promote_row (st : ClosurePass) (t : TripleId) : Checked ClosurePass :=
  if st.circuit.closure_support.contains t then pure st
  else if 0 < st.circuit.asserted_base.get t then pure st
  else if 0 < st.circuit.derived_base.get t then pure (record_support st t)
  else checked_materialize_closure_row st t

def checked_infer_row (st : ClosurePass) (t : TripleId) : Checked ClosurePass :=
  if st.circuit.base_presence t then
    if st.circuit.derived_base.get t = 0 then pure st else pure (record_support st t)
  else checked_materialize_closure_row st t

def checked_retract_plans (retract_delta : Zset TripleId) :
    List TransitiveClosureRule → ClosurePass → Checked (List TransitiveClosureRule × ClosurePass)
  | [], st => pure ([], st)
  | rule :: rules, st => do
    let (rule, out) := rule.apply_retract_delta retract_delta
    let st ← out.withdraw.foldlM checked_withdraw_row st
    let st ← out.promote.foldlM checked_promote_row st
    let (rules, st) ← checked_retract_plans retract_delta rules st
    pure (rule :: rules, st)

def checked_run_closure_retract_pass (c : Circuit) (retract_delta init_delta : Zset TripleId) :
    Checked ClosurePass := do
  let (rules, st) ← checked_retract_plans retract_delta c.closure_plans ⟨c, init_delta, []⟩
  pure { st with circuit := { st.circuit with closure_plans := rules } }

def checked_insert_plans (insert_delta : Zset TripleId) :
    List TransitiveClosureRule → ClosurePass → Checked (List TransitiveClosureRule × ClosurePass)
  | [], st => pure ([], st)
  | rule :: rules, st => do
    let (rule, inferred) := rule.apply_insert_delta insert_delta
    let st ← inferred.foldlM checked_infer_row st
    let (rules, st) ← checked_insert_plans insert_delta rules st
    pure (rule :: rules, st)

def checked_run_closure_insertion_pass (st : ClosurePass) (insert_delta : Zset TripleId) :
    Checked ClosurePass := do
  let (rules, st) ← checked_insert_plans insert_delta st.circuit.closure_plans st
  pure { st with circuit := { st.circuit with closure_plans := rules } }

def checked_reseed_orphans (c : Circuit) (orphans : List TripleId) (init_delta : Zset TripleId) :
    Checked (Zset TripleId) :=
  orphans.foldlM
    (fun delta t =>
      if c.closure_support.contains t || decide (0 < c.asserted_base.get t) ||
          !c.rule_attr.contains t then pure delta
      else if delta.get t = 0 then delta.checked_add t (-1)
      else pure delta)
    init_delta

section Exact

variable (st : ClosurePass) (t : TripleId)

theorem exact_withdraw_row : (checked_withdraw_row st t).exact = some (withdraw_row st t) := by
  simp only [checked_withdraw_row, withdraw_row, exact_ite, exact_bind, exact_pure,
    exact_withdraw_derived_row, exact_note_presence_change, Option.bind_some]
  split_ifs <;> rfl

@[simp]
theorem exact_materialize_closure_row :
    (checked_materialize_closure_row st t).exact = some (materialize_closure_row st t) := by
  simp [checked_materialize_closure_row, materialize_closure_row]

theorem exact_promote_row : (checked_promote_row st t).exact = some (promote_row st t) := by
  simp only [checked_promote_row, promote_row, exact_ite, exact_pure,
    exact_materialize_closure_row]
  split_ifs <;> rfl

theorem exact_infer_row : (checked_infer_row st t).exact = some (infer_row st t) := by
  simp only [checked_infer_row, infer_row, exact_ite, exact_pure, exact_materialize_closure_row]
  split_ifs <;> rfl

theorem exact_retract_plans (retract_delta : Zset TripleId)
    (rules : List TransitiveClosureRule) : ∀ st,
    (checked_retract_plans retract_delta rules st).exact =
      some (retract_plans retract_delta rules st) := by
  induction rules with
  | nil => exact fun st => rfl
  | cons rule rules ih =>
    intro st
    rw [checked_retract_plans, retract_plans]
    obtain ⟨rule, out⟩ := rule.apply_retract_delta retract_delta
    simp [exact_foldlM exact_withdraw_row, exact_foldlM exact_promote_row, ih]

@[simp]
theorem exact_run_closure_retract_pass (c : Circuit) (retract_delta init_delta : Zset TripleId) :
    (c.checked_run_closure_retract_pass retract_delta init_delta).exact =
      some (c.run_closure_retract_pass retract_delta init_delta) := by
  simp [checked_run_closure_retract_pass, run_closure_retract_pass, exact_retract_plans]

theorem exact_insert_plans (insert_delta : Zset TripleId) (rules : List TransitiveClosureRule) :
    ∀ st, (checked_insert_plans insert_delta rules st).exact =
      some (insert_plans insert_delta rules st) := by
  induction rules with
  | nil => exact fun st => rfl
  | cons rule rules ih =>
    intro st
    rw [checked_insert_plans, insert_plans]
    obtain ⟨rule, inferred⟩ := rule.apply_insert_delta insert_delta
    simp [exact_foldlM exact_infer_row, ih]

@[simp]
theorem exact_run_closure_insertion_pass (insert_delta : Zset TripleId) :
    (checked_run_closure_insertion_pass st insert_delta).exact =
      some (run_closure_insertion_pass st insert_delta) := by
  simp [checked_run_closure_insertion_pass, run_closure_insertion_pass, exact_insert_plans]

@[simp]
theorem exact_reseed_orphans (c : Circuit) (orphans : List TripleId)
    (init_delta : Zset TripleId) :
    (c.checked_reseed_orphans orphans init_delta).exact =
      some (c.reseed_orphans orphans init_delta) := by
  refine exact_foldlM (fun delta t => ?_) orphans init_delta
  simp only [exact_ite, exact_pure, Zset.exact_add]
  split_ifs <;> rfl

end Exact

/-! ## The recompute fallback -/

/-- The closure so far has each row once, or twice where the seed had it from both sides, so only
the joins can overflow. -/
def checked_recompute_round (plans : List (NaryPlan × RuleId)) (st : Recompute) :
    Checked Recompute := do
  let pred_closure := PredExtent.from_zset st.closure
  plans.foldlM
    (fun st p => do
      let dd ← p.1.checked_full pred_closure
      pure (dd.iter.foldl (recompute_row p.2) st))
    { st with changed := false }

def checked_recompute_rounds (plans : List (NaryPlan × RuleId)) :
    Nat → Recompute → Checked Recompute
  | 0, _ => give_up
  | fuel + 1, st => do
    let st ← checked_recompute_round plans st
    if st.changed then checked_recompute_rounds plans fuel st else pure st

def checked_recompute_rule_closure (c : Circuit) : Checked (ExtTreeMap TripleId RuleId) := do
  let asserted := (c.asserted_base.iter.filter fun e => decide (0 < e.2)).map fun e => (e.1, 1)
  let support := c.closure_support.toList.map fun t => (t, 1)
  let st ← checked_recompute_rounds c.plans MAX_FIXPOINT_ROUNDS
    ⟨.from_iter (asserted ++ support), ∅, false⟩
  pure st.attr

def checked_resync_weights (extent : PredExtent)
    (rule_weights : ExtTreeMap TripleId (Zset RuleId)) (p : NaryPlan × RuleId) :
    Checked (ExtTreeMap TripleId (Zset RuleId)) := do
  let full ← p.1.checked_full extent
  full.iter.foldlM
    (fun w e => do
      let per_rule ← (w.getD e.1 .new).checked_add p.2 e.2
      pure (w.insert e.1 per_rule)) rule_weights

/-- The presence has each row once. -/
def checked_resync_incremental_state (c : Circuit) : Checked Circuit := do
  let extent := PredExtent.from_zset c.materialize_presence
  let rule_weights ← c.plans.foldlM (checked_resync_weights extent) ∅
  pure { c with
    extent := extent
    rule_weights := rule_weights.filter fun _ per_rule => !per_rule.is_empty
    plans := c.plans.map fun p => (p.1.reset_state, p.2) }

def checked_add_new_rule_row (old_rule : ExtTreeMap TripleId RuleId) (c : Circuit)
    (e : TripleId × RuleId) : Checked Circuit :=
  if old_rule.contains e.1 then pure c
  else do
    let derived_base ← c.derived_base.checked_add e.1 1
    { c with derived_base }.checked_emit_derived e.1 1 (.RuleInferred e.2)

def checked_drop_old_rule_row (new_rule : ExtTreeMap TripleId RuleId) (c : Circuit)
    (e : TripleId × RuleId) : Checked Circuit :=
  if new_rule.contains e.1 then pure c
  else if c.closure_support.contains e.1 then pure c
  else c.checked_withdraw_derived_row e.1 (.RuleInferred e.2)

def checked_run_recompute_fallback (c : Circuit) (insert_delta retract_delta : Zset TripleId) :
    Checked Circuit := do
  let st ← c.checked_run_closure_retract_pass retract_delta .new
  let st ← checked_run_closure_insertion_pass st insert_delta
  let c := st.circuit
  let new_rule ← c.checked_recompute_rule_closure
  let old_rule := c.rule_attr
  let c ← new_rule.toList.foldlM (checked_add_new_rule_row old_rule) c
  let c ← old_rule.toList.foldlM (checked_drop_old_rule_row new_rule) c
  { c with rule_attr := new_rule }.checked_resync_incremental_state

section Exact

variable (c : Circuit)

theorem exact_recompute_rounds (plans : List (NaryPlan × RuleId)) (fuel : Nat) :
    ∀ st, (checked_recompute_rounds plans fuel st).exact = recompute_rounds plans fuel st := by
  induction fuel with
  | zero => exact fun st => rfl
  | succ fuel ih =>
    intro st
    have hround : (checked_recompute_round plans st).exact = some (recompute_round plans st) := by
      refine exact_foldlM (fun st p => ?_) plans _
      simp
    rw [checked_recompute_rounds, recompute_rounds, exact_bind, hround, Option.bind_some,
      exact_ite, ih]
    rfl

theorem exact_recompute_rule_closure :
    c.checked_recompute_rule_closure.exact = c.recompute_rule_closure := by
  rw [checked_recompute_rule_closure, recompute_rule_closure, Option.map_eq_bind]
  simp only [exact_bind, exact_recompute_rounds]
  rfl

@[simp]
theorem exact_resync_incremental_state :
    c.checked_resync_incremental_state.exact = some c.resync_incremental_state := by
  have hweights : ∀ extent (rule_weights : ExtTreeMap TripleId (Zset RuleId)) p,
      (checked_resync_weights extent rule_weights p).exact =
        some (resync_weights extent rule_weights p) := by
    intro extent rule_weights p
    rw [checked_resync_weights, exact_bind, NaryPlan.exact_full, Option.bind_some]
    refine exact_foldlM (fun w e => ?_) _ _
    simp
  simp [checked_resync_incremental_state, resync_incremental_state,
    exact_foldlM (hweights _)]

theorem exact_add_new_rule_row (old_rule : ExtTreeMap TripleId RuleId) (e : TripleId × RuleId) :
    (checked_add_new_rule_row old_rule c e).exact = some (add_new_rule_row old_rule c e) := by
  simp only [checked_add_new_rule_row, add_new_rule_row, exact_ite, exact_pure, exact_bind,
    Zset.exact_add, Option.bind_some, exact_emit_derived]
  split_ifs <;> rfl

theorem exact_drop_old_rule_row (new_rule : ExtTreeMap TripleId RuleId) (e : TripleId × RuleId) :
    (checked_drop_old_rule_row new_rule c e).exact = some (drop_old_rule_row new_rule c e) := by
  simp only [checked_drop_old_rule_row, drop_old_rule_row, exact_ite, exact_pure,
    exact_withdraw_derived_row]
  split_ifs <;> rfl

theorem exact_run_recompute_fallback (insert_delta retract_delta : Zset TripleId) :
    (c.checked_run_recompute_fallback insert_delta retract_delta).exact =
      c.run_recompute_fallback insert_delta retract_delta := by
  unfold checked_run_recompute_fallback run_recompute_fallback
  simp only [exact_bind, exact_run_closure_retract_pass, exact_run_closure_insertion_pass,
    Option.bind_some, exact_recompute_rule_closure, Option.map_eq_bind]
  refine congrArg _ (funext fun new_rule => ?_)
  rw [exact_foldlM (fun c e => exact_add_new_rule_row c _ e), Option.bind_some,
    exact_foldlM (fun c e => exact_drop_old_rule_row c _ e), Option.bind_some,
    exact_resync_incremental_state]
  rfl

end Exact

/-! ## The tick -/

def checked_presence_flips (c : Circuit) (prev_present : List (TripleId × Bool)) :
    Checked (Zset TripleId) :=
  prev_present.foldlM
    (fun delta e =>
      if e.2 != decide (0 < c.asserted_base.get e.1) then c.checked_note_presence_change e.1 delta
      else pure delta)
    .new

def checked_closure_passes (c : Circuit) (prev_present : List (TripleId × Bool))
    (has_retraction : Bool) (insert_delta retract_delta : Zset TripleId) :
    Checked ClosurePass := do
  let init_delta ← c.checked_presence_flips prev_present
  let st ←
    if has_retraction then c.checked_run_closure_retract_pass retract_delta init_delta
    else pure ⟨c, init_delta, []⟩
  checked_run_closure_insertion_pass st insert_delta

def checked_rule_fixpoint (c : Circuit) (init_delta : Zset TripleId) : Checked Circuit :=
  if init_delta.iter.any fun e => decide (e.2 < 0) then
    c.checked_run_two_phase_fixpoint init_delta
  else checked_insertion_rounds MAX_FIXPOINT_ROUNDS c init_delta

def checked_run_unified (c : Circuit) (prev_present : List (TripleId × Bool))
    (has_retraction : Bool) (insert_delta retract_delta : Zset TripleId) : Checked Circuit := do
  let st ← c.checked_closure_passes prev_present has_retraction insert_delta retract_delta
  let init_delta ← st.circuit.checked_reseed_orphans st.orphans st.init_delta
  st.circuit.checked_rule_fixpoint init_delta

def checked_batch_delta (records : List DeltaRecord) : Checked (Zset TripleId) :=
  Zset.checked_from_iter (records.map fun rec => (rec.triple, rec.mult))

def checked_merge_pending (c : Circuit) : Checked Circuit := do
  let asserted_base ←
    c.log.records.foldlM (fun z rec => z.checked_add rec.triple rec.mult) c.asserted_base
  pure { c with
    pending_derived := .new
    emissions := 0
    log := c.log.take_pending
    asserted_base }

/-- One tick. The deltas of the closure passes have each row once. -/
def checked_tick (c : Circuit) : Checked TickOutput := do
  let records := c.log.records
  let asserted_delta ← checked_batch_delta records
  let has_retraction := records.any fun rec => decide (rec.mult < 0)
  let prev_present := asserted_delta.iter.map fun e =>
    (e.1, decide (0 < c.asserted_base.get e.1))
  let c ← c.checked_merge_pending
  let insert_delta := c.closure_insert_delta asserted_delta
  let retract_delta := c.closure_retract_delta asserted_delta has_retraction
  let c ←
    if c.recompute_fallback && has_retraction then
      c.checked_run_recompute_fallback insert_delta retract_delta
    else c.checked_run_unified prev_present has_retraction insert_delta retract_delta
  let (c, derived) := c.flush_derived_feed
  pure
    { circuit := c
      report := ⟨records.length, derived.length, (records.getLast?.map (·.time)).getD 0⟩
      asserted := records
      derived := derived }

section Exact

variable (c : Circuit)

@[simp]
theorem exact_presence_flips (prev_present : List (TripleId × Bool)) :
    (c.checked_presence_flips prev_present).exact = some (c.presence_flips prev_present) := by
  refine exact_foldlM (fun delta e => ?_) prev_present _
  simp only [exact_ite, exact_note_presence_change, exact_pure]
  split_ifs <;> rfl

@[simp]
theorem exact_closure_passes (prev_present : List (TripleId × Bool)) (has_retraction : Bool)
    (insert_delta retract_delta : Zset TripleId) :
    (c.checked_closure_passes prev_present has_retraction insert_delta retract_delta).exact =
      some (c.closure_passes prev_present has_retraction insert_delta retract_delta) := by
  unfold checked_closure_passes closure_passes
  simp only [exact_bind, exact_presence_flips, Option.bind_some, exact_ite,
    exact_run_closure_retract_pass, exact_pure]
  split_ifs <;> simp

theorem exact_rule_fixpoint (init_delta : Zset TripleId) :
    (c.checked_rule_fixpoint init_delta).exact = c.rule_fixpoint init_delta := by
  rw [checked_rule_fixpoint, rule_fixpoint, exact_ite, exact_run_two_phase_fixpoint,
    exact_insertion_rounds, run_insertion_fixpoint]

theorem exact_run_unified (prev_present : List (TripleId × Bool)) (has_retraction : Bool)
    (insert_delta retract_delta : Zset TripleId) :
    (c.checked_run_unified prev_present has_retraction insert_delta retract_delta).exact =
      c.run_unified prev_present has_retraction insert_delta retract_delta := by
  simp [checked_run_unified, run_unified, exact_rule_fixpoint]

@[simp]
theorem exact_merge_pending : c.checked_merge_pending.exact = some c.merge_pending := by
  have hbase := exact_foldlM
    (fun (z : Zset TripleId) (rec : DeltaRecord) => Zset.exact_add z rec.triple rec.mult)
    c.log.records c.asserted_base
  simp [checked_merge_pending, merge_pending, hbase]

/-- The tick over machine words is the tick over the integers, with ends of its own. -/
theorem exact_tick : c.checked_tick.exact = c.tick := by
  have hbatch : (checked_batch_delta c.log.records).exact = some (batch_delta c.log.records) :=
    Zset.exact_from_iter _
  unfold checked_tick tick
  simp only [exact_bind, hbatch, Option.bind_some, exact_merge_pending, exact_ite,
    exact_run_recompute_fallback, exact_run_unified]
  cases c.merge_pending.recompute_fallback && c.log.records.any fun rec => decide (rec.mult < 0)
  · simp only [Bool.false_eq_true, if_false, Option.map_eq_bind]
    rfl
  · simp only [if_true, Option.map_eq_bind]
    rfl

end Exact

end Circuit

end horndb.incremental
