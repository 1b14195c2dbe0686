-- The extent the rules join against, every present row and the same rows by predicate,
-- and the plan of a rule: the order its patterns are joined in, the joins, and the
-- evaluations of the plan, whole, by a delta, and by a delta over kept state.
import HornDb.Kernels

open Std

namespace horndb.incremental

/-- The rows of one predicate in a map by predicate, none when it has no entry. -/
def slice_of (by_pred : ExtTreeMap Nat (Zset TripleId)) (p : Nat) : Zset TripleId :=
  by_pred.getD p .new

/-- A Z-set of triples indexed by predicate. The rows of a predicate are the rows of
the whole that have it. -/
structure PredExtent where
  by_pred : ExtTreeMap Nat (Zset TripleId)
  all : Zset TripleId
  sliced : ∀ p t, (slice_of by_pred p).get t = if t.p = p then all.get t else 0

namespace PredExtent

def new : PredExtent where
  by_pred := ∅
  all := .new
  sliced p t := by simp [slice_of]

def slice (ext : PredExtent) (p : Nat) : Zset TripleId := slice_of ext.by_pred p

def get (ext : PredExtent) (t : TripleId) : Int := ext.all.get t

def iter (ext : PredExtent) : List (TripleId × Int) := ext.all.iter

/-- The map by predicate after the count of `t` moves by `delta`. -/
def add_by_pred (by_pred : ExtTreeMap Nat (Zset TripleId)) (t : TripleId) (delta : Int) :
    ExtTreeMap Nat (Zset TripleId) :=
  let sub := (slice_of by_pred t.p).add t delta
  if sub.is_empty then by_pred.erase t.p else by_pred.insert t.p sub

theorem slice_of_add_by_pred (by_pred : ExtTreeMap Nat (Zset TripleId)) (t : TripleId)
    (delta : Int) (p : Nat) :
    slice_of (add_by_pred by_pred t delta) p =
      if p = t.p then (slice_of by_pred t.p).add t delta else slice_of by_pred p := by
  unfold add_by_pred
  dsimp only
  split
  · rename_i hempty
    by_cases hp : p = t.p
    · subst hp
      rw [if_pos rfl]
      refine Zset.ext_get fun k => ?_
      rw [Zset.is_empty_iff.mp hempty, slice_of, ExtTreeMap.getD_erase_self, Zset.get_new]
    · have hne : ¬ compare t.p p = Ordering.eq := fun h => hp (LawfulEqOrd.eq_of_compare h).symm
      rw [if_neg hp, slice_of, ExtTreeMap.getD_erase, if_neg hne, slice_of]
  · by_cases hp : p = t.p
    · subst hp
      rw [if_pos rfl, slice_of, ExtTreeMap.getD_insert_self]
    · have hne : ¬ compare t.p p = Ordering.eq := fun h => hp (LawfulEqOrd.eq_of_compare h).symm
      rw [if_neg hp, slice_of, ExtTreeMap.getD_insert, if_neg hne, slice_of]

def add (ext : PredExtent) (t : TripleId) (delta : Int) : PredExtent :=
  if delta = 0 then ext
  else
    { by_pred := add_by_pred ext.by_pred t delta
      all := ext.all.add t delta
      sliced := by
        intro p u
        rw [slice_of_add_by_pred, Zset.get_add]
        split
        · rename_i hp
          subst hp
          rw [Zset.get_add, ext.sliced]
          by_cases hu : u = t
          · simp [hu]
          · simp [hu]
        · rename_i hp
          rw [ext.sliced]
          by_cases hu : u = t
          · subst hu
            simp [Ne.symm hp]
          · simp [hu] }

def add_assign (ext : PredExtent) (other : Zset TripleId) : PredExtent :=
  other.iter.foldl (fun ext e => ext.add e.1 e.2) ext

def from_zset (z : Zset TripleId) : PredExtent := new.add_assign z

/-! ## The laws of the extent -/

theorem all_add (ext : PredExtent) (t : TripleId) (delta : Int) :
    (ext.add t delta).all = ext.all.add t delta := by
  unfold add
  split
  · rename_i hd
    rw [hd, Zset.add, dif_pos rfl]
  · rfl

@[simp]
theorem all_add_assign (ext : PredExtent) (other : Zset TripleId) :
    (ext.add_assign other).all = ext.all.add_assign other := by
  unfold add_assign Zset.add_assign
  generalize other.iter = l
  induction l generalizing ext with
  | nil => rfl
  | cons e l ih => rw [List.foldl_cons, List.foldl_cons, ih, all_add]

@[simp]
theorem all_from_zset (z : Zset TripleId) : (from_zset z).all = z := by
  rw [from_zset, all_add_assign]
  refine Zset.val_injective ?_
  rw [Zset.val_add_assign, new, Zset.val_new, zero_add]

theorem get_slice (ext : PredExtent) (p : Nat) (t : TripleId) :
    (ext.slice p).get t = if t.p = p then ext.all.get t else 0 :=
  ext.sliced p t

theorem get_add_assign (ext : PredExtent) (other : Zset TripleId) (t : TripleId) :
    (ext.add_assign other).get t = ext.get t + other.get t := by
  rw [get, all_add_assign, Zset.get_add_assign, get]

end PredExtent

end horndb.incremental

open Std

namespace horndb.incremental

/-- The statistics a plan is costed with, read through the estimator. -/
structure Stats where
  is_informed : Bool
  estimate_pattern : TriplePattern → Nat
  estimate_bgp : List TriplePattern → Nat

/-- A left-deep tree of joins. `state` keeps the left input of each join but the first. -/
structure NaryPlan where
  joins : List HashJoinRule
  leaf_order : List Nat
  state : Option (List (Zset TripleId))

/-- The slice of the extent that a leaf over `pred` reads. -/
def leaf (ext : PredExtent) (pred : Option Nat) : Zset TripleId :=
  match pred with
  | some p => ext.slice p
  | none => ext.all

/-! ## The join order -/

/-- The value of the unused slots of an intermediate. -/
def INTERMEDIATE_PAD : Nat := 0

def body_at (body : List TriplePattern) (i : Nat) : TriplePattern :=
  body.getD i ⟨.Bound INTERMEDIATE_PAD, .Bound INTERMEDIATE_PAD, .Bound INTERMEDIATE_PAD⟩

/-- The first index with the least key. -/
def min_by_key (key : Nat → Nat) (n : Nat) : Nat :=
  (List.range n).foldl (fun best i => if key i < key best then i else best) 0

/-- The cheapest pick so far once pattern `i` is known to cost `cost`; the first of equals. -/
def keep_cheapest (best : Option (Nat × Nat)) (cost i : Nat) : Option (Nat × Nat) :=
  match best with
  | some (best_cost, _) => if cost < best_cost then some (cost, i) else best
  | none => some (cost, i)

/-- One turn of the search for the next pattern. -/
def consider (body : List TriplePattern) (stats : Stats) (order : List Nat)
    (joined : List TriplePattern) (best : Option (Nat × Nat)) (i : Nat) : Option (Nat × Nat) :=
  let pat := body_at body i
  if order.contains i || !(vars_in pat).any fun v => (joined.flatMap vars_in).contains v then best
  else keep_cheapest best (if stats.is_informed then stats.estimate_bgp (joined ++ [pat]) else 0) i

/-- The unused pattern that shares a variable with what is joined and costs least. -/
def pick_next (body : List TriplePattern) (stats : Stats) (order : List Nat)
    (joined : List TriplePattern) : Option Nat :=
  ((List.range body.length).foldl (consider body stats order joined) none).map (·.2)

/-- Append the picks of the greedy walk, `n` of them. -/
def extend_order (body : List TriplePattern) (stats : Stats) :
    Nat → List Nat → List TriplePattern → Except KernelError (List Nat)
  | 0, order, _ => .ok order
  | n + 1, order, joined =>
    match pick_next body stats order joined with
    | none => .error .DisconnectedBody
    | some pick => extend_order body stats n (order ++ [pick]) (joined ++ [body_at body pick])

def choose_order (body : List TriplePattern) (stats : Stats) : Except KernelError (List Nat) :=
  let start :=
    if stats.is_informed then
      min_by_key (fun i => stats.estimate_pattern (body_at body i)) body.length
    else 0
  extend_order body stats (body.length - 1) [start] [body_at body start]

/-- Append the variables that are not there yet. -/
def push_vars (vars more : List Nat) : List Nat :=
  more.foldl (fun vars v => if vars.contains v then vars else vars ++ [v]) vars

/-- The variables that a later pattern or the head still needs. -/
def still_needed (body : List TriplePattern) (rest : List Nat) (head : TriplePattern) :
    List Nat :=
  rest.foldl (fun needed i => push_vars needed (vars_in (body_at body i))) (vars_in head)

/-- The shape that a join hands on: its live variables, three at most. -/
def intermediate_shape (left right : TriplePattern) (body : List TriplePattern)
    (rest : List Nat) (head : TriplePattern) : Except KernelError TriplePattern :=
  let needed := still_needed body rest head
  let live := push_vars [] ((vars_in left ++ vars_in right).filter fun v => needed.contains v)
  if live.length > 3 then .error (.TooManyLiveVars live.length)
  else
    let slot := fun i => (live[i]?).elim (Term.Bound INTERMEDIATE_PAD) Term.Var
    .ok ⟨slot 0, slot 1, slot 2⟩

namespace NaryPlan

/-- The head of a level: the head of the rule at the last, the shape of what is live before. -/
def step_head (left right : TriplePattern) (body : List TriplePattern) (rest : List Nat)
    (head : TriplePattern) : Except KernelError TriplePattern :=
  if rest.isEmpty then .ok head else intermediate_shape left right body rest head

/-- The joins of the patterns `rest` after the left input `left`. -/
def build_joins (id : RuleId) (body : List TriplePattern) (head : TriplePattern) :
    TriplePattern → List Nat → Except KernelError (List HashJoinRule)
  | _, [] => .ok []
  | left, i :: rest => do
    let right := body_at body i
    let shape ← step_head left right body rest head
    let rule ← HashJoinRule.new id left right shape
    let rules ← build_joins id body head shape rest
    .ok (rule :: rules)

def from_body (id : RuleId) (body : List TriplePattern) (head : TriplePattern) (stats : Stats) :
    Except KernelError NaryPlan :=
  if body.length < 2 then .error (.BodyTooShort body.length)
  else do
    let order ← choose_order body stats
    let joins ← build_joins id body head (body_at body (order.headD 0)) order.tail
    .ok ⟨joins, order, none⟩

/-! ## Evaluation -/

/-- The first join, whose two sides both read the extent. -/
def first_full (rule : HashJoinRule) (base : PredExtent) : Zset TripleId :=
  rule.apply_full (leaf base rule.body_predicates.1) (leaf base rule.body_predicates.2)

/-- A later join over the running intermediate. -/
def next_full (base : PredExtent) (intermediate : Zset TripleId) (rule : HashJoinRule) :
    Zset TripleId :=
  rule.apply_full intermediate (leaf base rule.body_predicates.2)

def apply_full (plan : NaryPlan) (base : PredExtent) : Zset TripleId :=
  match plan.joins with
  | [] => base.all
  | first :: rest => rest.foldl (next_full base) (first_full first base)

def first_delta (rule : HashJoinRule) (base delta_ext : PredExtent) : Zset TripleId :=
  rule.apply_delta (leaf base rule.body_predicates.1) (leaf base rule.body_predicates.2)
    (leaf delta_ext rule.body_predicates.1) (leaf delta_ext rule.body_predicates.2)

def next_delta (base delta_ext : PredExtent) (int_base int_delta : Zset TripleId)
    (rule : HashJoinRule) : Zset TripleId :=
  rule.apply_delta int_base (leaf base rule.body_predicates.2) int_delta
    (leaf delta_ext rule.body_predicates.2)

def apply_delta (plan : NaryPlan) (base : PredExtent) (delta : Zset TripleId) : Zset TripleId :=
  match plan.joins with
  | [] => delta
  | first :: rest =>
    let delta_ext := PredExtent.from_zset delta
    (rest.foldl
      (fun (acc : Zset TripleId × Zset TripleId) rule =>
        (next_full base acc.1 rule, next_delta base delta_ext acc.1 acc.2 rule))
      (first_full first base, first_delta first base delta_ext)).2

/-- The left input of each join after the first, when the first gives `prev`. -/
def intermediates (base : PredExtent) : Zset TripleId → List HashJoinRule → List (Zset TripleId)
  | _, [] => []
  | prev, rule :: rules => prev :: intermediates base (next_full base prev rule) rules

/-- The later joins by delta. Each folds the delta of its left input into its state after
it has used the state. With a state that is too short the source panics. -/
def delta_levels (base delta_ext : PredExtent) :
    List HashJoinRule → List (Zset TripleId) → Zset TripleId →
      List (Zset TripleId) × Zset TripleId
  | [], state, prev_delta => (state, prev_delta)
  | _ :: _, [], prev_delta => ([], prev_delta)
  | rule :: rules, s :: state, prev_delta =>
    let (state, out) :=
      delta_levels base delta_ext rules state (next_delta base delta_ext s prev_delta rule)
    (s.add_assign prev_delta :: state, out)

def apply_delta_stateful (plan : NaryPlan) (base : PredExtent) (delta : Zset TripleId) :
    NaryPlan × Zset TripleId :=
  match plan.joins with
  | [] => (plan, delta)
  | first :: rest =>
    let delta_ext := PredExtent.from_zset delta
    let state := plan.state.getD (intermediates base (first_full first base) rest)
    let (state, out) := delta_levels base delta_ext rest state (first_delta first base delta_ext)
    ({ plan with state := some state }, out)

def reset_state (plan : NaryPlan) : NaryPlan := { plan with state := none }

end NaryPlan

end horndb.incremental
