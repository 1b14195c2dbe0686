-- ORDER BY under a LIMIT: a heap keeps the first rows only, and the plan is built with it where a
-- bounded slice stands above a sort, with projections between them or none.
import HornDb.Lib.MaxHeap
import HornDb.SortKeys

open HornDb.Lib.Sorts (StableSort)
open HornDb.Lib.MaxHeap (offer)

namespace horndb.sparql.exec

open algebra (Expr OrderDir)

/-! ## The first rows -/

/-- Row `a` comes after row `b` in the full stable sort. -/
def worse (cols : SortCols) (a b : Nat) : Bool :=
  match compare_decorated cols a b with
  | .lt => false
  | .gt => true
  | .eq => a > b

def top_k_order (sort : StableSort) (cols : SortCols) (rows n : Nat) : Outcome (List Nat) :=
  if n = 0 then .ok []
  else
    let heap := (List.range rows).foldl (offer (worse cols) n) #[]
    match sort.sort_by (fun a b => (compare_decorated cols a b).then (compare a b)) heap.toList with
    | some order => .ok order
    | none => .error .Panic

/-- The heap runs where the comparison is known to be a strict total order. -/
def first_places (sort : StableSort) (cols : SortCols) (rows n : Nat) : Outcome (List Nat) :=
  if n ≥ rows ∨ ¬ cols.all fun (c, _) => c.is_total_order then do
    let order ← sorted_order sort cols rows
    .ok (order.take n)
  else top_k_order sort cols rows n

variable {Func Pattern : Type}

/-- What the operators run over: the library's sort, what decodes ids, the scope of the query, the
rows of a chunk, and the charge for a chunk beside the rows that are held. -/
structure Runtime (Func Pattern : Type) where
  sort : StableSort
  executor : Executor
  scope : EvalScope Func Pattern
  batch_rows : Nat
  grow : List Row → List Row → Result Unit

namespace Runtime

variable (rt : Runtime Func Pattern)

def compute_top_k (batch : Batch) (keys : List (Expr Func Pattern × OrderDir)) (n : Nat) :
    Outcome Batch :=
  if n = 0 then .ok ⟨batch.schema, []⟩
  else do
    let cols ← Outcome.of (sort_columns rt.executor rt.scope batch.rows batch.schema keys)
    let order ← first_places rt.sort cols batch.rows.length n
    .ok ⟨batch.schema, permute batch.rows order⟩

end Runtime

/-! ## Streams -/

/-- What the calls of `next` give, one after the other. -/
inductive Stream where
  | done
  | stop (why : Stop)
  | chunk (b : Batch) (rest : Stream)

/-- The rows of a batch, handed out some at a time. -/
def hand_out (batch_rows : Nat) (schema : List Var) (rows : List Row) : Stream :=
  match _h : next_chunk batch_rows rows with
  | none => .done
  | some (c, rest) => .chunk ⟨schema, c⟩ (hand_out batch_rows schema rest)
termination_by rows.length
decreasing_by
  obtain ⟨happ, hne, _⟩ := next_chunk_eq_some _h
  have hpos := List.length_pos_iff.mpr hne
  rw [happ, List.length_append]
  omega

def Stream.map (f : Batch → Batch) : Stream → Stream
  | done => done
  | stop why => stop why
  | chunk b rest => chunk (f b) (rest.map f)

/-- An operator: its columns, which of them may hold a term, and its stream. -/
structure Op where
  schema : List Var
  may_emit_term : List Bool
  stream : Stream

namespace Runtime

variable (rt : Runtime Func Pattern)

/-- All rows of a stream. Each chunk is charged before it is taken. -/
def drain (held : List Row) : Stream → Outcome (List Row)
  | .done => .ok held
  | .stop why => .error why
  | .chunk b rest => do
    Outcome.of (rt.grow held b.rows)
    drain (held ++ b.rows) rest

/-! ## The operators -/

/-- ORDER BY, of which the first rows are enough when a limit is given. -/
def order_by_op (child : Op) (keys : List (Expr Func Pattern × OrderDir)) (limit : Option Nat) :
    Op :=
  let sorted : Outcome Batch := do
    let rows ← rt.drain [] child.stream
    match limit with
    | some n => rt.compute_top_k ⟨child.schema, rows⟩ keys n
    | none => compute_order_by rt.sort rt.executor rt.scope ⟨child.schema, rows⟩ keys
  { child with
    stream := match sorted with
      | .ok b => hand_out rt.batch_rows b.schema b.rows
      | .error why => .stop why }

end Runtime

/-- The projected columns that a batch has. No projected column keeps them all. -/
def apply_project (vars : List Var) (b : Batch) : Batch :=
  if vars.isEmpty then b
  else
    let idx := vars.map fun v => b.schema.idxOf? v
    ⟨(vars.zip idx).filterMap fun (v, i) => if i.isSome then some v else none,
      b.rows.map fun r => idx.filterMap fun i => i.map r.at⟩

def project_op (child : Op) (vars : List Var) : Op :=
  let schema := if vars.isEmpty then child.schema else vars.filter (· ∈ child.schema)
  { schema
    may_emit_term := schema.map fun v =>
      ((child.schema.idxOf? v).map (child.may_emit_term.getD · false)).getD false
    stream := child.stream.map (apply_project vars) }

/-- The calls of a slice's `next`, from what it still has to skip and may still give. -/
def slice_stream (to_skip : Nat) (remaining : Option Nat) : Stream → Stream
  | .done => .done
  | .stop why => .stop why
  | .chunk b rest =>
    let skipped := min to_skip b.rows.length
    let rows := b.rows.drop skipped
    let rows := match remaining with
      | some n => rows.take n
      | none => rows
    let remaining := remaining.map (· - rows.length)
    if rows = [] then slice_stream (to_skip - skipped) remaining rest
    else .chunk ⟨b.schema, rows⟩
      (if remaining = some 0 then .done else slice_stream (to_skip - skipped) remaining rest)

/-- OFFSET and LIMIT. Under a limit of zero the child is never pulled. -/
def slice_op (child : Op) (start : Nat) (length : Option Nat) : Op :=
  { child with
    stream := if length = some 0 then .done else slice_stream start length child.stream }

/-! ## Plans -/

/-- A plan. A node that is no slice, projection or sort is what it builds from the operators of its
children. A scan has none, a join two, and a graph variable one child for each graph. -/
inductive PhysicalPlan (Func Pattern : Type) where
  | Node (Child : Type) (inner : Child → PhysicalPlan Func Pattern)
      (build : (Child → Result Op) → Result Op)
  | Project (inner : PhysicalPlan Func Pattern) (vars : List Var)
  | OrderBy (inner : PhysicalPlan Func Pattern) (keys : List (Expr Func Pattern × OrderDir))
  | Slice (inner : PhysicalPlan Func Pattern) (start : Nat) (length : Option Nat)

/-- A sum that fits a machine word. -/
def checked_add (a b : Nat) : Option Nat := if a + b < 2 ^ 64 then some (a + b) else none

namespace Runtime

variable (rt : Runtime Func Pattern)

mutual

def build_scoped : PhysicalPlan Func Pattern → Result Op
  | .Node _ inner build => build fun child => build_scoped (inner child)
  | .Project inner vars => do
    let child ← build_scoped inner
    .ok (project_op child vars)
  | .OrderBy inner keys => do
    let child ← build_scoped inner
    .ok (rt.order_by_op child keys none)
  | .Slice inner start length => do
    let fused ← match length.bind (checked_add start) with
      | some n => build_top_k n inner
      | none => .ok none
    let child ← match fused with
      | some op => .ok op
      | none => build_scoped inner
    .ok (slice_op child start length)

/-- The plan as a sort of its first rows, where its shape permits it. -/
def build_top_k (n : Nat) : PhysicalPlan Func Pattern → Result (Option Op)
  | .OrderBy inner keys => do
    let child ← build_scoped inner
    .ok (some (rt.order_by_op child keys (some n)))
  | .Project inner vars => do
    match ← build_top_k n inner with
    | some child => .ok (some (project_op child vars))
    | none => .ok none
  | _ => .ok none

end

/-- The plan with every sort a full one. -/
def build_full : PhysicalPlan Func Pattern → Result Op
  | .Node _ inner build => build fun child => build_full (inner child)
  | .Project inner vars => do
    let child ← build_full inner
    .ok (project_op child vars)
  | .OrderBy inner keys => do
    let child ← build_full inner
    .ok (rt.order_by_op child keys none)
  | .Slice inner start length => do
    let child ← build_full inner
    .ok (slice_op child start length)

end Runtime

end horndb.sparql.exec
