-- The closure of one predicate, kept while its edges come and go: the maps, the
-- insert of an edge and the two ways to delete one. The loops over a queue run on
-- a budget of turns; the delete laws show that the queue is empty when they end.
import HornDb.Lib.Adjacency

open HornDb.Lib Std

namespace horndb.closure.incremental

/-- What a retraction of base edges did: the closed pairs that went, and the
deleted edges that stay closed. -/
structure DeleteOutcome where
  withdrawn : List (Nat × Nat)
  survived : List (Nat × Nat)
deriving DecidableEq, Repr

def DeleteOutcome.default : DeleteOutcome := ⟨[], []⟩

inductive DeleteStrategy where
  | SupportCounting
  | Recompute
deriving DecidableEq, Repr

/-- Strict transitive closure over dense indices. `fwd` and `bwd` hold the closed
pairs, `base` and `bwd_base` the asserted edges. A hash map has no order of its
own; the model reads each one in the order of its keys. -/
structure IncrementalTransitiveClosure where
  fwd : Adjacency Nat
  bwd : Adjacency Nat
  base : Adjacency Nat
  bwd_base : Adjacency Nat
  nnz : Nat
  strategy : DeleteStrategy
  last_delete_probes : Nat

namespace IncrementalTransitiveClosure

def new : IncrementalTransitiveClosure where
  fwd := ∅
  bwd := ∅
  base := ∅
  bwd_base := ∅
  nnz := 0
  strategy := .SupportCounting
  last_delete_probes := 0

def base_edges (c : IncrementalTransitiveClosure) : List (Nat × Nat) := c.base.edges

def set_delete_strategy (c : IncrementalTransitiveClosure) (strategy : DeleteStrategy) :
    IncrementalTransitiveClosure :=
  { c with strategy := strategy }

def edges (c : IncrementalTransitiveClosure) : List (Nat × Nat) := c.fwd.edges

/-- Add the closed pair, no change when it is there. -/
def add_closed (c : IncrementalTransitiveClosure) (x y : Nat) : IncrementalTransitiveClosure :=
  if c.fwd.has x y then c
  else { c with fwd := c.fwd.add x y, bwd := c.bwd.add y x, nnz := c.nnz + 1 }

/-- Drop the closed pair, no change when it is not there. -/
def drop_closed (c : IncrementalTransitiveClosure) (x y : Nat) : IncrementalTransitiveClosure :=
  if c.fwd.has x y then
    { c with fwd := c.fwd.drop x y, bwd := c.bwd.drop y x, nnz := c.nnz - 1 }
  else c

/-! ## Insertion -/

/-- One turn of the double loop of an insert: close the pair and report it if it is new. -/
def insert_pair (acc : IncrementalTransitiveClosure × List (Nat × Nat)) (p : Nat × Nat) :
    IncrementalTransitiveClosure × List (Nat × Nat) :=
  if acc.1.fwd.has p.1 p.2 then acc
  else (acc.1.add_closed p.1 p.2, acc.2 ++ [p])

/-- Record the base edge and say if it is new. -/
def insert_base_edge (c : IncrementalTransitiveClosure) (s o : Nat) :
    IncrementalTransitiveClosure × Bool :=
  if c.base.has s o then (c, false)
  else ({ c with base := c.base.add s o, bwd_base := c.bwd_base.add o s }, true)

/-- Close all that reaches `s` with all that `o` reaches, both ends included. -/
def insert_edge_tracked (c : IncrementalTransitiveClosure) (s o : Nat) :
    IncrementalTransitiveClosure × List (Nat × Nat) × Bool :=
  let (c, base_was_new) := c.insert_base_edge s o
  let b := c.bwd.neighbors s ++ [s]
  let f := c.fwd.neighbors o ++ [o]
  let (c, delta) := (b.flatMap fun x => f.map fun y => (x, y)).foldl insert_pair (c, [])
  (c, delta, base_was_new)

def insert_edge (c : IncrementalTransitiveClosure) (s o : Nat) :
    IncrementalTransitiveClosure × List (Nat × Nat) :=
  let (c, delta, _) := c.insert_edge_tracked s o
  (c, delta)

def insert_edges (c : IncrementalTransitiveClosure) (edges : List (Nat × Nat)) :
    IncrementalTransitiveClosure × List (Nat × Nat) :=
  edges.foldl
    (fun acc e =>
      let (c, delta) := acc.1.insert_edge e.1 e.2
      (c, acc.2 ++ delta))
    (c, [])

def from_base_edges (edges : List (Nat × Nat)) : IncrementalTransitiveClosure :=
  edges.foldl (fun c e => (c.insert_edge e.1 e.2).1) new

/-- Seed from edges that the caller says are closed; they stand in for the base too. -/
def from_closed_edges (edges : List (Nat × Nat)) : IncrementalTransitiveClosure :=
  edges.foldl
    (fun c e =>
      let c := c.add_closed e.1 e.2
      { c with base := c.base.add e.1 e.2, bwd_base := c.bwd_base.add e.2 e.1 })
    new

/-! ## Rollback -/

def rollback_base_edges (c : IncrementalTransitiveClosure) (edges : List (Nat × Nat)) :
    IncrementalTransitiveClosure :=
  edges.foldl
    (fun c e =>
      { c with
        base := (c.base.drop e.1 e.2).prune e.1
        bwd_base := (c.bwd_base.drop e.2 e.1).prune e.2 })
    c

def rollback_inserted (c : IncrementalTransitiveClosure) (edges : List (Nat × Nat)) :
    IncrementalTransitiveClosure :=
  edges.foldl (fun c e => c.drop_closed e.1 e.2) c

/-! ## Deletion -/

/-- Remove the edge from `base` and `bwd_base` and say if it was a base edge. -/
def remove_base_edge (c : IncrementalTransitiveClosure) (s o : Nat) :
    IncrementalTransitiveClosure × Bool :=
  if c.base.has s o then
    ({ c with
      base := (c.base.drop s o).prune s
      bwd_base := (c.bwd_base.drop o s).prune o }, true)
  else (c, false)

/-- One turn of `base_reach`. The stack is a list with its top in front, so what is
pushed last comes first. -/
def reach_turn (base : Adjacency Nat) (n : Nat) (reached : ExtTreeSet Nat) :
    ExtTreeSet Nat × List Nat :=
  if reached.contains n then (reached, [])
  else
    let reached := reached.insert n
    (reached, ((base.neighbors n).filter fun m => !reached.contains m).reverse)

/-- All that `start` reaches over one base edge or more. -/
def base_reach (c : IncrementalTransitiveClosure) (start : Nat) : ExtTreeSet Nat :=
  let m := c.base.edges.length
  (Worklist.drain (reach_turn c.base) (m + m * (m + 1)) (c.base.neighbors start).reverse ∅).1

/-- The pairs of one source that lost their support, read off the base. -/
def lost_of_source (c : IncrementalTransitiveClosure) (targets : ExtTreeSet Nat) (x : Nat) :
    List (Nat × Nat) :=
  let candidates := (c.fwd.neighbors x).filter fun y => targets.contains y
  if candidates.isEmpty then []
  else
    let reach := c.base_reach x
    (candidates.filter fun y => !reach.contains y).map fun y => (x, y)

def delete_edge_recompute (c : IncrementalTransitiveClosure) (s o : Nat) :
    IncrementalTransitiveClosure × DeleteOutcome :=
  let (c, was_base) := c.remove_base_edge s o
  if !was_base then (c, .default)
  else
    let sources := (c.bwd.getD s ∅).insert s
    let targets := (c.fwd.getD o ∅).insert o
    let withdrawn := sources.toList.flatMap (c.lost_of_source targets)
    let c := withdrawn.foldl (fun c p => c.drop_closed p.1 p.2) c
    let survived := if c.fwd.has s o then [(s, o)] else []
    (c, ⟨withdrawn, survived⟩)

/-- The base edges out of `x` that witness that it reaches `y`. -/
def support (c : IncrementalTransitiveClosure) (x y : Nat) : Nat :=
  (c.base.neighbors x).countP fun z => z == y || c.fwd.has z y

/-- The state of the over-delete loop. The set of visited pairs is kept by first node. -/
structure OverDelete where
  state : IncrementalTransitiveClosure
  affected : Adjacency Nat
  dropped : List (Nat × Nat)

/-- The pairs one base edge before `(x, y)`, the last pushed in front. -/
def pairs_before (c : IncrementalTransitiveClosure) (p : Nat × Nat) : List (Nat × Nat) :=
  ((c.bwd_base.neighbors p.1).map fun w => (w, p.2)).reverse

def over_delete_turn (p : Nat × Nat) (st : OverDelete) : OverDelete × List (Nat × Nat) :=
  if st.affected.has p.1 p.2 then (st, [])
  else
    let st := { st with affected := st.affected.add p.1 p.2 }
    if !st.state.fwd.has p.1 p.2 then (st, [])
    else
      let c := { st.state with last_delete_probes := st.state.last_delete_probes + 1 }
      let c := c.drop_closed p.1 p.2
      ({ st with state := c, dropped := st.dropped ++ [p] }, c.pairs_before p)

def re_derive_turn (p : Nat × Nat) (c : IncrementalTransitiveClosure) :
    IncrementalTransitiveClosure × List (Nat × Nat) :=
  if c.fwd.has p.1 p.2 then (c, [])
  else
    let c := { c with last_delete_probes := c.last_delete_probes + 1 }
    if 1 ≤ c.support p.1 p.2 then
      let c := c.add_closed p.1 p.2
      (c, c.pairs_before p)
    else (c, [])

/-- Phase 1: drop every closed pair that could have used the deleted edge. -/
def over_delete (c : IncrementalTransitiveClosure) (queue : List (Nat × Nat)) : OverDelete :=
  (Worklist.drain over_delete_turn (queue.length + c.nnz * (c.bwd_base.edges.length + 1))
    queue ⟨c, ∅, []⟩).1

/-- Phase 2: add back each dropped pair that still has support. -/
def re_derive (c : IncrementalTransitiveClosure) (dropped : List (Nat × Nat)) :
    IncrementalTransitiveClosure :=
  (Worklist.drain re_derive_turn (dropped.length + dropped.length * (c.bwd_base.edges.length + 1))
    dropped.reverse c).1

def delete_edge_support_counting (c : IncrementalTransitiveClosure) (s o : Nat) :
    IncrementalTransitiveClosure × DeleteOutcome :=
  let (c, was_base) := c.remove_base_edge s o
  if !was_base then (c, .default)
  else
    let targets := (c.fwd.getD o ∅).insert o
    let st := c.over_delete (targets.toList.map fun y => (s, y)).reverse
    let c := st.state.re_derive st.dropped
    let withdrawn := st.dropped.filter fun p => !c.fwd.has p.1 p.2
    let survived := if c.fwd.has s o then [(s, o)] else []
    (c, ⟨withdrawn, survived⟩)

def delete_edge (c : IncrementalTransitiveClosure) (s o : Nat) :
    IncrementalTransitiveClosure × DeleteOutcome :=
  let c := { c with last_delete_probes := 0 }
  match c.strategy with
  | .SupportCounting => c.delete_edge_support_counting s o
  | .Recompute => c.delete_edge_recompute s o

/-- Fold the deletions one at a time, then keep the survivors that are closed at the end. -/
def delete_edges (c : IncrementalTransitiveClosure) (edges : List (Nat × Nat)) :
    IncrementalTransitiveClosure × DeleteOutcome :=
  let (c, out) := edges.foldl
    (fun acc e =>
      let (c, one) := acc.1.delete_edge e.1 e.2
      (c, ⟨acc.2.withdrawn ++ one.withdrawn, acc.2.survived ++ one.survived⟩))
    (c, DeleteOutcome.default)
  (c, { out with survived := out.survived.filter fun e => c.fwd.has e.1 e.2 })

end IncrementalTransitiveClosure

end horndb.closure.incremental
