-- The memory tier: snapshots that writers replace whole, one batch at a time, and the
-- pinned ones that readers hold. A write groups its quads by graph and predicate.
import HornDb.Partition

open Std

namespace horndb.storage

structure Quad where
  graph : GraphId
  subject : TermId
  predicate : TermId
  object : TermId
deriving DecidableEq, Repr

def Quad.pair (q : Quad) : Pair := toLex (q.subject, q.object)

/-- The partitions of a graph by predicate. -/
abbrev GraphStore := ExtTreeMap TermId Partition

structure TierSnapshot where
  version : Nat
  graphs : ExtTreeMap GraphId GraphStore

structure ApplyReport where
  retracted : Nat
  inserted : Nat
deriving DecidableEq, Repr

/-- Pairs by graph and predicate, in the order they came. -/
abbrev Targets := ExtTreeMap GraphId (ExtTreeMap TermId (List Pair))

def add_target (targets : Targets) (q : Quad) : Targets :=
  let preds := targets.getD q.graph ∅
  targets.insert q.graph (preds.insert q.predicate (preds.getD q.predicate [] ++ [q.pair]))

def group (quads : List Quad) : Targets := quads.foldl add_target ∅

/-- The pairs in order, each once. -/
def sort_targets (pairs : List Pair) : List Pair :=
  (pairs.insertionSort (· ≤ ·)).destutter (· ≠ ·)

def group_sorted (quads : List Quad) : Targets :=
  (group quads).map fun _ preds => preds.map fun _ pairs => sort_targets pairs

/-- The keys that either of two maps has. -/
def touched {β γ : Type} (dels : ExtTreeMap Nat β) (adds : ExtTreeMap Nat γ) : ExtTreeSet Nat :=
  .ofList (dels.keys ++ adds.keys)

/-! ## One partition in a write -/

/-- What a write does to a partition, none when it leaves it, and what it counts. -/
structure PartitionWrite where
  part : Option PredicatePartition
  retracted : Nat
  inserted : Nat

/-- The batch deletes nothing here: the pairs that are not live go in as one more run. -/
def append_run (version : Nat) (existing : Option PredicatePartition)
    (targets : List Pair) : PartitionWrite :=
  let already_live :=
    match existing with
    | some part => part.mark_live targets
    | none => List.replicate targets.length false
  let new_rows := ((targets.zip already_live).filter fun t => !t.2).map fun t =>
    live_row version t.1
  if new_rows.isEmpty then ⟨none, 0, 0⟩
  else
    let part :=
      match existing with
      | some part => part.with_appended_rows new_rows
      | none => .build new_rows
    ⟨some part, 0, new_rows.length⟩

/-- The rows carried forward, the pairs still live among them, and how many a deletion ended. -/
structure Carried where
  rows : List Row
  still_visible : List Pair
  retracted : Nat

def carry_row (version : Nat) (del_targets : List Pair) (st : Carried) (row : Row) :
    Carried :=
  if row.is_live then
    if del_targets.contains row.pair then
      { st with
        rows := st.rows ++ [{ row with end_stamp := some version }]
        retracted := st.retracted + 1 }
    else
      { st with
        rows := st.rows ++ [row]
        still_visible :=
          if st.still_visible.getLast? = some row.pair then st.still_visible
          else st.still_visible ++ [row.pair] }
  else { st with rows := st.rows ++ [row] }

/-- The rows so far, the live pairs from the cursor on, and how many rows are new. -/
structure Added where
  rows : List Row
  still_visible : List Pair
  inserted : Nat

def add_row (version : Nat) (st : Added) (target : Pair) : Added :=
  let still_visible := st.still_visible.dropWhile fun p => decide (p < target)
  if still_visible.head? = some target then { st with still_visible := still_visible }
  else ⟨st.rows ++ [live_row version target], still_visible, st.inserted + 1⟩

/-- The batch deletes here: carry every row, end the deleted ones, then add what is not live. -/
def rebuild (version : Nat) (existing : Option PredicatePartition)
    (del_targets add_targets : List Pair) : PartitionWrite :=
  let rows :=
    match existing with
    | some part => part.merged_cols.rows
    | none => []
  let carried := rows.foldl (carry_row version del_targets) ⟨[], [], 0⟩
  let added := add_targets.foldl (add_row version) ⟨carried.rows, carried.still_visible, 0⟩
  ⟨some (.build added.rows), carried.retracted, added.inserted⟩

/-- The write of one predicate of a batch. -/
def apply_partition (version : Nat) (existing : Option PredicatePartition)
    (del_targets add_targets : Option (List Pair)) : PartitionWrite :=
  match del_targets, add_targets with
  | none, none => ⟨none, 0, 0⟩
  | none, some targets => append_run version existing targets
  | some dels, adds =>
    if existing.isNone && adds.isNone then ⟨none, 0, 0⟩
    else rebuild version existing dels (adds.getD [])

/-! ## The batches -/

/-- The partitions of a graph in a write, with the counts so far. -/
structure GraphWrite where
  partitions : GraphStore
  retracted : Nat
  inserted : Nat

/-- The graphs in a write, with the counts so far. -/
structure TierWrite where
  graphs : ExtTreeMap GraphId GraphStore
  retracted : Nat
  inserted : Nat

def insert_partition (version : Nat) (partitions : GraphStore)
    (e : TermId × List Pair) : GraphStore :=
  let new_rows := e.2.map (live_row version)
  partitions.insert e.1 <| .Warm <|
    match partitions[e.1]? with
    | some existing => (warm_for_write existing).with_appended_rows new_rows
    | none => .build new_rows

def insert_graph (version : Nat) (graphs : ExtTreeMap GraphId GraphStore)
    (e : GraphId × ExtTreeMap TermId (List Pair)) : ExtTreeMap GraphId GraphStore :=
  graphs.insert e.1 (e.2.toList.foldl (insert_partition version) (graphs.getD e.1 ∅))

def apply_predicate (version : Nat) (dels adds : ExtTreeMap TermId (List Pair))
    (st : GraphWrite) (p : TermId) : GraphWrite :=
  let out := apply_partition version (st.partitions[p]?.map warm_for_write) dels[p]? adds[p]?
  { partitions := out.part.elim st.partitions fun part => st.partitions.insert p (.Warm part)
    retracted := st.retracted + out.retracted
    inserted := st.inserted + out.inserted }

def apply_graph (version : Nat) (dels adds : Targets)
    (graphs_before : ExtTreeMap GraphId GraphStore) (st : TierWrite) (g : GraphId) : TierWrite :=
  let dels := dels.getD g ∅
  let adds := adds.getD g ∅
  let out := (touched dels adds).toList.foldl (apply_predicate version dels adds)
    ⟨st.graphs.getD g ∅, st.retracted, st.inserted⟩
  { graphs :=
      if out.partitions.isEmpty && !graphs_before.contains g then st.graphs
      else st.graphs.insert g out.partitions
    retracted := out.retracted
    inserted := out.inserted }

def retract_partition (version : Nat) (st : GraphWrite) (e : TermId × List Pair) :
    GraphWrite :=
  match st.partitions[e.1]? with
  | none => st
  | some existing =>
    let carried := (warm_for_write existing).merged_cols.rows.foldl (carry_row version e.2)
      ⟨[], [], 0⟩
    { st with
      partitions := st.partitions.insert e.1 (.Warm (.build carried.rows))
      retracted := st.retracted + carried.retracted }

def retract_graph (version : Nat) (st : TierWrite)
    (e : GraphId × ExtTreeMap TermId (List Pair)) : TierWrite :=
  match st.graphs[e.1]? with
  | none => st
  | some partitions =>
    let out := e.2.toList.foldl (retract_partition version) ⟨partitions, st.retracted, 0⟩
    { st with graphs := st.graphs.insert e.1 out.partitions, retracted := out.retracted }

namespace TierSnapshot

def empty : TierSnapshot := ⟨0, ∅⟩

/-- Every quad becomes a live row of a new version, whether it was live before or not. -/
def insert_at (t : TierSnapshot) (quads : List Quad) (version : Option Nat) :
    TierSnapshot :=
  if quads.isEmpty then t
  else
    let new_version := version.getD (t.version + 1)
    ⟨new_version, (group quads).toList.foldl (insert_graph new_version) t.graphs⟩

/-- Deletions, then additions. The version moves only when the batch has a net effect. -/
def apply_at (t : TierSnapshot) (dels adds : List Quad) (version : Option Nat) :
    TierSnapshot × ApplyReport :=
  if dels.isEmpty && adds.isEmpty then (t, ⟨0, 0⟩)
  else
    let del_by_graph := group dels
    let add_by_graph := group_sorted adds
    let new_version := version.getD (t.version + 1)
    let out := (touched del_by_graph add_by_graph).toList.foldl
      (apply_graph new_version del_by_graph add_by_graph t.graphs) ⟨t.graphs, 0, 0⟩
    (if 0 < out.retracted ∨ 0 < out.inserted then ⟨new_version, out.graphs⟩ else t,
      ⟨out.retracted, out.inserted⟩)

def insert_quad_batch (t : TierSnapshot) (quads : List Quad) : TierSnapshot :=
  t.insert_at quads none

def retract_quad_batch (t : TierSnapshot) (quads : List Quad) : TierSnapshot × Nat :=
  if quads.isEmpty then (t, 0)
  else
    let new_version := t.version + 1
    let out := (group quads).toList.foldl (retract_graph new_version) ⟨t.graphs, 0, 0⟩
    (if 0 < out.retracted then ⟨new_version, out.graphs⟩ else t, out.retracted)

def apply_quad_batch (t : TierSnapshot) (dels adds : List Quad) : TierSnapshot × ApplyReport :=
  t.apply_at dels adds none

/-- Move the clock without a write. -/
def set_version (t : TierSnapshot) (version : Nat) : TierSnapshot :=
  { t with version := version }

def partition (t : TierSnapshot) (g : GraphId) (p : TermId) : Option Partition :=
  t.graphs[g]?.bind fun partitions => partitions[p]?

/-- The snapshot after a read of one partition. -/
def read (t : TierSnapshot) (g : GraphId) (p : TermId) : TierSnapshot :=
  { t with graphs := t.graphs.alter g (Option.map fun parts => parts.alter p (Option.map .read)) }

/-- Drop the rows that ended at the horizon or before. -/
def compact_partition (horizon : Nat) : Partition → Partition
  | .Cold part => .Cold part
  | .Warm part =>
    let reclaimed := fun r : Row => r.end_stamp.any fun e => decide (e ≤ horizon)
    let rows := part.merged_cols.rows
    if part.has_retractions && rows.any reclaimed then
      .Warm (.build (rows.filter fun r => !reclaimed r))
    else .Warm part

def compact_at (t : TierSnapshot) (horizon : Nat) : TierSnapshot :=
  { t with
    graphs := t.graphs.map fun _ parts => parts.map fun _ part => compact_partition horizon part }

end TierSnapshot

/-! ## The tier -/

/-- The live snapshot, and the snapshots that readers hold, one for each pin. -/
structure MemoryTier where
  current : TierSnapshot
  pinned : List TierSnapshot

namespace MemoryTier

def new : MemoryTier := ⟨.empty, []⟩

def snapshot (t : MemoryTier) : MemoryTier := { t with pinned := t.pinned ++ [t.current] }

/-- Release the pin at a place in the list. -/
def drop_pin (t : MemoryTier) (i : Nat) : MemoryTier := { t with pinned := t.pinned.eraseIdx i }

/-- The lowest pinned version, or the current one. -/
def min_pinned (t : MemoryTier) : Nat :=
  (t.pinned.map (·.version)).min?.getD t.current.version

def compact (t : MemoryTier) : MemoryTier :=
  { t with current := t.current.compact_at t.min_pinned }

end MemoryTier

end horndb.storage
