-- The circuit: the two bases, the extent the rules join against, the counts of
-- one-step derivations, and one tick of it. A tick stops with none where the source
-- gives up after the bound on rounds.
import HornDb.ClosurePlan
import HornDb.NaryPlan

open Std

namespace horndb.incremental

/-- Bound on the rounds of a rule fixpoint, for each phase. -/
def MAX_FIXPOINT_ROUNDS : Nat := 4096

structure Circuit where
  asserted_base : Zset TripleId
  derived_base : Zset TripleId
  log : DeltaLog
  plans : List (NaryPlan × RuleId)
  closure_plans : List TransitiveClosureRule
  pending_derived : Zset EmitKey
  /-- How often `emit_derived` ran in this tick. The source hands this count up. -/
  emissions : Nat
  derived_clock : LogicalTime
  rule_attr : ExtTreeMap TripleId RuleId
  closure_support : ExtTreeSet TripleId
  rule_weights : ExtTreeMap TripleId (Zset RuleId)
  extent : PredExtent
  recompute_fallback : Bool

structure TickReport where
  asserted_merged : Nat
  derived_merged : Nat
  logical_time : LogicalTime
deriving DecidableEq, Repr

/-- What a tick leaves: the circuit, its report and the records that went to the feed,
the asserted ones in the order of the batch and then the net derived ones. -/
structure TickOutput where
  circuit : Circuit
  report : TickReport
  asserted : List DeltaRecord
  derived : List DeltaRecord

/-- The one-step derivations of a row over all rules. -/
def total (per_rule : Zset RuleId) : Int := (per_rule.iter.map (·.2)).sum

/-- The lowest rule with a positive weight. It is read only where the total is positive,
so the default is never it. -/
def first_rule (per_rule : Zset RuleId) : RuleId :=
  ((per_rule.iter.find? fun e => decide (0 < e.2)).map (·.1)).getD 0

namespace Circuit

def with_fallback (recompute_fallback : Bool) : Circuit where
  asserted_base := .new
  derived_base := .new
  log := .new
  plans := []
  closure_plans := []
  pending_derived := .new
  emissions := 0
  derived_clock := 0
  rule_attr := ∅
  closure_support := ∅
  rule_weights := ∅
  extent := .new
  recompute_fallback := recompute_fallback

def new : Circuit := with_fallback false

def add_plan (c : Circuit) (plan : NaryPlan) (attribution : RuleId) : Circuit :=
  { c with plans := c.plans ++ [(plan, attribution)] }

def add_closure_plan (c : Circuit) (rule : TransitiveClosureRule) : Circuit :=
  { c with closure_plans := c.closure_plans ++ [rule] }

def assert_triple (c : Circuit) (triple : TripleId) : Circuit :=
  { c with log := c.log.append triple 1 .Asserted }

def retract_triple (c : Circuit) (triple : TripleId) : Circuit :=
  { c with log := c.log.append triple (-1) .Asserted }

/-! ## Rows -/

/-- Present in one of the bases. -/
def base_presence (c : Circuit) (t : TripleId) : Bool :=
  decide (0 < c.asserted_base.get t) || decide (0 < c.derived_base.get t)

def weights (c : Circuit) (t : TripleId) : Zset RuleId := c.rule_weights.getD t .new

def total_weight (c : Circuit) (t : TripleId) : Int := total (c.weights t)

def first_attr_rule (c : Circuit) (t : TripleId) : RuleId := first_rule (c.weights t)

/-- Note the change of presence that the bases imply for `t`. -/
def note_presence_change (c : Circuit) (t : TripleId) (delta : Zset TripleId) : Zset TripleId :=
  let pending := decide (0 < c.extent.get t + delta.get t)
  if c.base_presence t && !pending then delta.add t 1
  else if !c.base_presence t && pending then delta.add t (-1)
  else delta

def emit_derived (c : Circuit) (triple : TripleId) (mult : Int) (kind : DerivationKind) :
    Circuit :=
  { c with
    pending_derived := c.pending_derived.add ⟨triple, kind⟩ mult
    emissions := c.emissions + 1 }

/-- The net records of the tick in key order, one tick of the derived clock each. -/
def flush_records : LogicalTime → List (EmitKey × Int) → List DeltaRecord
  | _, [] => []
  | time, (key, mult) :: rest =>
    ⟨key.triple, mult, time, key.kind⟩ :: flush_records (time + 1) rest

def flush_derived_feed (c : Circuit) : Circuit × List DeltaRecord :=
  let records := flush_records c.derived_clock c.pending_derived.iter
  ({ c with
    pending_derived := .new
    derived_clock := c.derived_clock + records.length }, records)

def materialize_rule_row (c : Circuit) (t : TripleId) (rid : RuleId) : Circuit :=
  { c with
    derived_base := c.derived_base.add t 1
    rule_attr := c.rule_attr.insert t rid }.emit_derived t 1 (.RuleInferred rid)

/-- Zero the derived count of the row and publish its withdrawal. -/
def withdraw_derived_row (c : Circuit) (t : TripleId) (kind : DerivationKind) : Circuit :=
  { c with derived_base := c.derived_base.add t (-c.derived_base.get t) }.emit_derived t (-1) kind

/-! ## One round of the rules -/

/-- The weight deltas of a round by row. -/
abbrev Merged := ExtTreeMap TripleId (List (RuleId × Int))

/-- File the weights that one rule gains under their rows. -/
def merge_raw (merged : Merged) (rid : RuleId) (raw : Zset TripleId) : Merged :=
  raw.iter.foldl (fun merged e => merged.insert e.1 (merged.getD e.1 [] ++ [(rid, e.2)])) merged

/-- Each plan over the extent before the round. -/
def plan_deltas (extent : PredExtent) (round_delta : Zset TripleId) :
    List (NaryPlan × RuleId) → List ((NaryPlan × RuleId) × Zset TripleId)
  | plans => plans.map fun p =>
    let (plan, raw) := p.1.apply_delta_stateful extent round_delta
    ((plan, p.2), raw)

/-- Run every plan over the delta, then fold the delta into the extent. -/
def fixpoint_round (c : Circuit) (round_delta : Zset TripleId) : Circuit × Merged :=
  let ran := plan_deltas c.extent round_delta c.plans
  ({ c with
    plans := ran.map (·.1)
    extent := c.extent.add_assign round_delta },
    ran.foldl (fun merged r => merge_raw merged r.1.2 r.2) ∅)

/-- Fold the weight deltas of one row into its weights; the row goes when its total is zero.
Gives the circuit with the total before and after. -/
def apply_weight_deltas (c : Circuit) (t : TripleId) (deltas : List (RuleId × Int)) :
    Circuit × Int × Int :=
  let per_rule := deltas.foldl (fun w d => w.add d.1 d.2) (c.weights t)
  let new_total := total per_rule
  ({ c with
    rule_weights :=
      if new_total = 0 then c.rule_weights.erase t else c.rule_weights.insert t per_rule },
    c.total_weight t, new_total)

/-! ## The insertion fixpoint -/

/-- A circuit and the presence delta of its next round. -/
structure Insertion where
  circuit : Circuit
  next_delta : Zset TripleId

/-- Weigh one row of a round, and materialize it when it crosses zero with no cover. -/
def insertion_row (st : Insertion) (e : TripleId × List (RuleId × Int)) : Insertion :=
  let (c, old_total, new_total) := st.circuit.apply_weight_deltas e.1 e.2
  if old_total ≤ 0 ∧ 0 < new_total ∧ c.asserted_base.get e.1 ≤ 0 ∧ c.derived_base.get e.1 = 0 then
    let c := c.materialize_rule_row e.1 (c.first_attr_rule e.1)
    ⟨c, c.note_presence_change e.1 st.next_delta⟩
  else ⟨c, st.next_delta⟩

def insertion_round (c : Circuit) (round_delta : Zset TripleId) : Insertion :=
  let (c, merged) := c.fixpoint_round round_delta
  merged.toList.foldl insertion_row ⟨c, .new⟩

/-- Rounds until the delta is empty, `fuel` of them at most. -/
def insertion_rounds : Nat → Circuit → Zset TripleId → Option Circuit
  | 0, c, round_delta => if round_delta.is_empty then some c else none
  | fuel + 1, c, round_delta =>
    if round_delta.is_empty then some c
    else
      let st := c.insertion_round round_delta
      insertion_rounds fuel st.circuit st.next_delta

def run_insertion_fixpoint (c : Circuit) (init_delta : Zset TripleId) : Option Circuit :=
  insertion_rounds MAX_FIXPOINT_ROUNDS c init_delta

/-! ## The retraction fixpoint -/

/-- The state of both phases: the rows that lost a derivation, and every row whose
weight moved. -/
structure Retraction where
  circuit : Circuit
  candidates : ExtTreeSet TripleId
  touched : ExtTreeSet TripleId
  next_delta : Zset TripleId

/-- Weigh one row of an over-delete round, and drop it when it lost a derivation and
nothing else covers it. -/
def overdelete_row (st : Retraction) (e : TripleId × List (RuleId × Int)) : Retraction :=
  let (c, old_total, new_total) := st.circuit.apply_weight_deltas e.1 e.2
  let st := { st with circuit := c, touched := st.touched.insert e.1 }
  if new_total < old_total ∧ e.1 ∉ st.candidates ∧ c.asserted_base.get e.1 ≤ 0 ∧
      e.1 ∉ c.closure_support then
    { st with
      candidates := st.candidates.insert e.1
      next_delta :=
        if 0 < c.extent.get e.1 + st.next_delta.get e.1 then st.next_delta.add e.1 (-1)
        else st.next_delta }
  else st

def overdelete_round (st : Retraction) : Retraction :=
  let (c, merged) := st.circuit.fixpoint_round st.next_delta
  merged.toList.foldl overdelete_row { st with circuit := c, next_delta := .new }

def overdelete_rounds : Nat → Retraction → Option Retraction
  | 0, st => if st.next_delta.is_empty then some st else none
  | fuel + 1, st =>
    if st.next_delta.is_empty then some st else overdelete_rounds fuel (overdelete_round st)

/-- Weigh one row of a re-derive round, and bring it back when it crosses zero. -/
def rederive_row (st : Retraction) (e : TripleId × List (RuleId × Int)) : Retraction :=
  let (c, old_total, new_total) := st.circuit.apply_weight_deltas e.1 e.2
  let st := { st with circuit := c, touched := st.touched.insert e.1 }
  if old_total ≤ 0 ∧ 0 < new_total ∧ c.extent.get e.1 + st.next_delta.get e.1 ≤ 0 then
    { st with next_delta := st.next_delta.add e.1 1 }
  else st

def rederive_round (st : Retraction) : Retraction :=
  let (c, merged) := st.circuit.fixpoint_round st.next_delta
  merged.toList.foldl rederive_row { st with circuit := c, next_delta := .new }

def rederive_rounds : Nat → Retraction → Option Retraction
  | 0, st => if st.next_delta.is_empty then some st else none
  | fuel + 1, st =>
    if st.next_delta.is_empty then some st else rederive_rounds fuel (rederive_round st)

/-- The candidates among the rows that the tick drops: those with a derivation left. -/
def dropped_candidates (c : Circuit) (init_delta : Zset TripleId) : ExtTreeSet TripleId :=
  init_delta.iter.foldl
    (fun s e => if e.2 < 0 ∧ 0 < c.total_weight e.1 then s.insert e.1 else s) ∅

def seed_of (keep : Int → Bool) (init_delta : Zset TripleId) : Zset TripleId :=
  init_delta.iter.foldl (fun z e => if keep e.2 then z.add e.1 e.2 else z) .new

/-- Put the candidates that still have a derivation back into the seed. -/
def readd_candidates (c : Circuit) (candidates : ExtTreeSet TripleId) (seed : Zset TripleId) :
    Zset TripleId :=
  candidates.toList.foldl
    (fun seed t =>
      if 0 < c.total_weight t ∧ c.extent.get t + seed.get t ≤ 0 then seed.add t 1 else seed)
    seed

/-- The net change of one touched row: who owns it after the tick. -/
def net_transition (c : Circuit) (t : TripleId) : Circuit :=
  let was_attr := c.rule_attr.contains t
  let covered := decide (0 < c.asserted_base.get t) || c.closure_support.contains t
  if decide (0 < c.total_weight t) && decide (0 < c.extent.get t) && (was_attr || !covered) then
    if was_attr then { c with rule_attr := c.rule_attr.insert t (c.first_attr_rule t) }
    else c.materialize_rule_row t (c.first_attr_rule t)
  else if was_attr then
    let rid := c.rule_attr.getD t 0
    let c := { c with rule_attr := c.rule_attr.erase t }
    if c.closure_support.contains t then c else c.withdraw_derived_row t (.RuleInferred rid)
  else c

/-- Over-delete, re-derive, then publish the net transitions of the touched rows. -/
def run_two_phase_fixpoint (c : Circuit) (init_delta : Zset TripleId) : Option Circuit :=
  let dropped := c.dropped_candidates init_delta
  let r1_seed := seed_of (fun m => decide (m < 0)) init_delta
  let r2_seed := seed_of (fun m => !decide (m < 0)) init_delta
  (overdelete_rounds MAX_FIXPOINT_ROUNDS ⟨c, dropped, dropped, r1_seed⟩).bind fun st =>
    let seed := st.circuit.readd_candidates st.candidates r2_seed
    (rederive_rounds MAX_FIXPOINT_ROUNDS { st with next_delta := seed }).map fun st =>
      st.touched.toList.foldl net_transition st.circuit

/-! ## The closure passes -/

/-- A circuit in a closure pass, the presence delta so far, and the rows that a rule
still owns after the closure let them go. -/
structure ClosurePass where
  circuit : Circuit
  init_delta : Zset TripleId
  orphans : List TripleId

/-- The closure lets a row go. A rule that owns the row keeps it as an orphan. -/
def withdraw_row (st : ClosurePass) (t : TripleId) : ClosurePass :=
  let was_support := st.circuit.closure_support.contains t
  let c := { st.circuit with closure_support := st.circuit.closure_support.erase t }
  if !was_support then { st with circuit := c }
  else if c.rule_attr.contains t then { st with circuit := c, orphans := st.orphans ++ [t] }
  else
    let c := c.withdraw_derived_row t .ClosureInferred
    { st with circuit := c, init_delta := c.note_presence_change t st.init_delta }

/-- Put a row that no base has into the derived base for the closure. -/
def materialize_closure_row (st : ClosurePass) (t : TripleId) : ClosurePass :=
  let c := st.circuit
  let c := { c with
    derived_base := c.derived_base.add t 1
    closure_support := c.closure_support.insert t }.emit_derived t 1 .ClosureInferred
  { st with circuit := c, init_delta := c.note_presence_change t st.init_delta }

/-- The closure takes a row that is present already, when the derived base has it. -/
def record_support (st : ClosurePass) (t : TripleId) : ClosurePass :=
  { st with circuit :=
      { st.circuit with closure_support := st.circuit.closure_support.insert t } }

/-- A retracted edge that the closure still entails becomes a closure row. -/
def promote_row (st : ClosurePass) (t : TripleId) : ClosurePass :=
  if st.circuit.closure_support.contains t then st
  else if 0 < st.circuit.asserted_base.get t then st
  else if 0 < st.circuit.derived_base.get t then record_support st t
  else materialize_closure_row st t

/-- A newly inferred row: materialized, or recorded when the derived base has it. -/
def infer_row (st : ClosurePass) (t : TripleId) : ClosurePass :=
  if st.circuit.base_presence t then
    if st.circuit.derived_base.get t = 0 then st else record_support st t
  else materialize_closure_row st t

/-- The retraction half of each closure plan in turn. -/
def retract_plans (retract_delta : Zset TripleId) :
    List TransitiveClosureRule → ClosurePass → List TransitiveClosureRule × ClosurePass
  | [], st => ([], st)
  | rule :: rules, st =>
    let (rule, out) := rule.apply_retract_delta retract_delta
    let st := out.withdraw.foldl withdraw_row st
    let st := out.promote.foldl promote_row st
    let (rules, st) := retract_plans retract_delta rules st
    (rule :: rules, st)

def run_closure_retract_pass (c : Circuit) (retract_delta init_delta : Zset TripleId) :
    ClosurePass :=
  let (rules, st) := retract_plans retract_delta c.closure_plans ⟨c, init_delta, []⟩
  { st with circuit := { st.circuit with closure_plans := rules } }

/-- The insertion half of each closure plan in turn. -/
def insert_plans (insert_delta : Zset TripleId) :
    List TransitiveClosureRule → ClosurePass → List TransitiveClosureRule × ClosurePass
  | [], st => ([], st)
  | rule :: rules, st =>
    let (rule, inferred) := rule.apply_insert_delta insert_delta
    let (rules, st) := insert_plans insert_delta rules (inferred.foldl infer_row st)
    (rule :: rules, st)

def run_closure_insertion_pass (st : ClosurePass) (insert_delta : Zset TripleId) : ClosurePass :=
  let (rules, st) := insert_plans insert_delta st.circuit.closure_plans st
  { st with circuit := { st.circuit with closure_plans := rules } }

/-- Seed a drop of each orphan that nothing covers, so the fixpoint checks it again. -/
def reseed_orphans (c : Circuit) (orphans : List TripleId) (init_delta : Zset TripleId) :
    Zset TripleId :=
  orphans.foldl
    (fun delta t =>
      if c.closure_support.contains t || decide (0 < c.asserted_base.get t) ||
          !c.rule_attr.contains t then delta
      else if delta.get t = 0 then delta.add t (-1)
      else delta)
    init_delta

/-! ## The recompute fallback -/

def materialize_presence (c : Circuit) : Zset TripleId :=
  let asserted := c.asserted_base.iter.foldl
    (fun (z : Zset TripleId) e => if 0 < e.2 then z.add e.1 1 else z) .new
  c.derived_base.iter.foldl
    (fun z e => if 0 < e.2 ∧ z.get e.1 = 0 then z.add e.1 1 else z) asserted

/-- The state of the recompute: the closure so far, who derived each row first, and
whether this round added one. -/
structure Recompute where
  closure : Zset TripleId
  attr : ExtTreeMap TripleId RuleId
  changed : Bool

def recompute_row (rid : RuleId) (st : Recompute) (e : TripleId × Int) : Recompute :=
  if e.2 ≠ 0 ∧ st.closure.get e.1 = 0 then
    ⟨st.closure.add e.1 1, st.attr.insertIfNew e.1 rid, true⟩
  else st

/-- One pass of all plans over the closure as it stood before the pass. -/
def recompute_round (plans : List (NaryPlan × RuleId)) (st : Recompute) : Recompute :=
  let pred_closure := PredExtent.from_zset st.closure
  plans.foldl
    (fun st p => (p.1.apply_full pred_closure).iter.foldl (recompute_row p.2) st)
    { st with changed := false }

def recompute_rounds (plans : List (NaryPlan × RuleId)) : Nat → Recompute → Option Recompute
  | 0, _ => none
  | fuel + 1, st =>
    let st := recompute_round plans st
    if st.changed then recompute_rounds plans fuel st else some st

/-- The rule closure from scratch: which rule first derives each row that is not seeded. -/
def recompute_rule_closure (c : Circuit) : Option (ExtTreeMap TripleId RuleId) :=
  let asserted := (c.asserted_base.iter.filter fun e => decide (0 < e.2)).map fun e => (e.1, 1)
  let support := c.closure_support.toList.map fun t => (t, 1)
  (recompute_rounds c.plans MAX_FIXPOINT_ROUNDS
    ⟨.from_iter (asserted ++ support), ∅, false⟩).map (·.attr)

/-- File the weights that a rule has over the whole extent. -/
def resync_weights (extent : PredExtent) (rule_weights : ExtTreeMap TripleId (Zset RuleId))
    (p : NaryPlan × RuleId) : ExtTreeMap TripleId (Zset RuleId) :=
  (p.1.apply_full extent).iter.foldl
    (fun w e => w.insert e.1 ((w.getD e.1 .new).add p.2 e.2)) rule_weights

/-- Rebuild the incremental state from the bases. -/
def resync_incremental_state (c : Circuit) : Circuit :=
  let extent := PredExtent.from_zset c.materialize_presence
  { c with
    extent := extent
    rule_weights :=
      (c.plans.foldl (resync_weights extent) ∅).filter fun _ per_rule => !per_rule.is_empty
    plans := c.plans.map fun p => (p.1.reset_state, p.2) }

def add_new_rule_row (old_rule : ExtTreeMap TripleId RuleId) (c : Circuit)
    (e : TripleId × RuleId) : Circuit :=
  if old_rule.contains e.1 then c
  else { c with derived_base := c.derived_base.add e.1 1 }.emit_derived e.1 1 (.RuleInferred e.2)

def drop_old_rule_row (new_rule : ExtTreeMap TripleId RuleId) (c : Circuit)
    (e : TripleId × RuleId) : Circuit :=
  if new_rule.contains e.1 then c
  else if c.closure_support.contains e.1 then c
  else c.withdraw_derived_row e.1 (.RuleInferred e.2)

/-- The debug regime for retraction ticks: both closure passes, the rule closure from
scratch, the difference to what the rules owned, then a resync. -/
def run_recompute_fallback (c : Circuit) (insert_delta retract_delta : Zset TripleId) :
    Option Circuit :=
  let st := c.run_closure_retract_pass retract_delta .new
  let c := (run_closure_insertion_pass st insert_delta).circuit
  c.recompute_rule_closure.map fun new_rule =>
    let old_rule := c.rule_attr
    let c := new_rule.toList.foldl (add_new_rule_row old_rule) c
    let c := old_rule.toList.foldl (drop_old_rule_row new_rule) c
    { c with rule_attr := new_rule }.resync_incremental_state

/-! ## The tick -/

/-- The edges that are present after the merge and gained in it. -/
def closure_insert_delta (c : Circuit) (asserted_delta : Zset TripleId) : Zset TripleId :=
  if c.closure_plans.isEmpty then .new
  else
    .from_iter ((asserted_delta.iter.filter fun e =>
      decide (0 < e.2) && decide (0 < c.asserted_base.get e.1)).map fun e => (e.1, 1))

/-- The edges that are gone after the merge and lost in it. -/
def closure_retract_delta (c : Circuit) (asserted_delta : Zset TripleId)
    (has_retraction : Bool) : Zset TripleId :=
  if c.closure_plans.isEmpty || !has_retraction then .new
  else
    .from_iter ((asserted_delta.iter.filter fun e =>
      decide (e.2 < 0) && decide (c.asserted_base.get e.1 ≤ 0)).map fun e => (e.1, -1))

/-- The flips of asserted presence, from the presence before the merge. -/
def presence_flips (c : Circuit) (prev_present : List (TripleId × Bool)) : Zset TripleId :=
  prev_present.foldl
    (fun delta e =>
      if e.2 != decide (0 < c.asserted_base.get e.1) then c.note_presence_change e.1 delta
      else delta)
    .new

/-- Both closure passes, from the flips on. -/
def closure_passes (c : Circuit) (prev_present : List (TripleId × Bool)) (has_retraction : Bool)
    (insert_delta retract_delta : Zset TripleId) : ClosurePass :=
  let init_delta := c.presence_flips prev_present
  let st :=
    if has_retraction then c.run_closure_retract_pass retract_delta init_delta
    else ⟨c, init_delta, []⟩
  run_closure_insertion_pass st insert_delta

def rule_fixpoint (c : Circuit) (init_delta : Zset TripleId) : Option Circuit :=
  if init_delta.iter.any fun e => decide (e.2 < 0) then c.run_two_phase_fixpoint init_delta
  else c.run_insertion_fixpoint init_delta

def run_unified (c : Circuit) (prev_present : List (TripleId × Bool)) (has_retraction : Bool)
    (insert_delta retract_delta : Zset TripleId) : Option Circuit :=
  let st := c.closure_passes prev_present has_retraction insert_delta retract_delta
  st.circuit.rule_fixpoint (st.circuit.reseed_orphans st.orphans st.init_delta)

/-- The net multiplicities of a batch of records. -/
def batch_delta (records : List DeltaRecord) : Zset TripleId :=
  .from_iter (records.map fun rec => (rec.triple, rec.mult))

/-- Take the pending records out of the log and merge them into the asserted base. -/
def merge_pending (c : Circuit) : Circuit :=
  { c with
    pending_derived := .new
    emissions := 0
    log := c.log.take_pending
    asserted_base := c.log.records.foldl (fun z rec => z.add rec.triple rec.mult) c.asserted_base }

/-- One tick, up to the marker in the durable log. -/
def tick (c : Circuit) : Option TickOutput :=
  let records := c.log.records
  let asserted_delta := batch_delta records
  let has_retraction := records.any fun rec => decide (rec.mult < 0)
  let prev_present := asserted_delta.iter.map fun e =>
    (e.1, decide (0 < c.asserted_base.get e.1))
  let c := c.merge_pending
  let insert_delta := c.closure_insert_delta asserted_delta
  let retract_delta := c.closure_retract_delta asserted_delta has_retraction
  let ran :=
    if c.recompute_fallback && has_retraction then
      c.run_recompute_fallback insert_delta retract_delta
    else c.run_unified prev_present has_retraction insert_delta retract_delta
  ran.map fun c =>
    let (c, derived) := c.flush_derived_feed
    { circuit := c
      report := ⟨records.length, derived.length, (records.getLast?.map (·.time)).getD 0⟩
      asserted := records
      derived := derived }

end Circuit

end horndb.incremental
