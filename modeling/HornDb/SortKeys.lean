-- ORDER BY: each key is resolved for every row once, then the places of the rows are sorted.
import HornDb.Lib.Sorts
import HornDb.Expressions

open horndb.storage (TermId)
open HornDb.Lib.Floats (compare_numbers)
open HornDb.Lib.Sorts (StableSort)

namespace horndb.sparql.algebra

inductive OrderDir where
  | Asc
  | Desc
deriving DecidableEq, Repr

end horndb.sparql.algebra

namespace horndb.sparql.exec

open algebra (Expr OrderDir)

/-! ## The keys of the rows -/

/-- A term's text, and the number that the text is read as. -/
structure SortVal where
  num : Option Float
  lex : String
  coerced : num = parse_trimmed lex

def SortVal.of (t : Term) : SortVal := ⟨numeric_value t, literal_value t, rfl⟩

/-- A key for every row: numbers only, texts only, or both kinds. An unbound key is none. -/
inductive SortCol where
  | Num (vals : List (Option Float))
  | Lex (vals : List (Option String))
  | Mixed (vals : List (Option SortVal))

namespace SortCol

def classify (vals : List (Option SortVal)) : SortCol :=
  let bound := vals.filterMap id
  if bound.all fun v => v.num.isSome then .Num (vals.map (·.bind SortVal.num))
  else if bound.all fun v => v.num.isNone then .Lex (vals.map (·.map SortVal.lex))
  else .Mixed vals

/-- Whether the comparison of a column is taken for a strict total order. -/
def is_total_order : SortCol → Bool
  | Num vals => !(vals.filterMap id).any Float.isNaN
  | Lex _ => true
  | Mixed _ => false

/-- Unbound comes before bound. -/
def compare_bound {α : Type} (cmp : α → α → Ordering) : Option α → Option α → Ordering
  | some x, some y => cmp x y
  | none, some _ => .lt
  | some _, none => .gt
  | none, none => .eq

/-- As numbers when both are numbers, else as texts. -/
def compare_vals (x y : SortVal) : Ordering :=
  match x.num, y.num with
  | some p, some q => compare_numbers p q
  | _, _ => compare_lexical x.lex y.lex

def compare_rows (a b : Nat) : SortCol → Ordering
  | Num vals => compare_bound compare_numbers (vals.getD a none) (vals.getD b none)
  | Lex vals => compare_bound compare_lexical (vals.getD a none) (vals.getD b none)
  | Mixed vals => compare_bound compare_vals (vals.getD a none) (vals.getD b none)

end SortCol

/-- What decodes an id, to its term and to the number of its term. -/
structure Executor where
  decode_term : TermId → Result Term
  decode_numeric : TermId → Result (Option Float)

variable {Func Pattern : Type}

def bare_var_col (e : Expr Func Pattern) (schema : List Var) : Option Nat :=
  match e with
  | .Term (.Var v) => schema.idxOf? v
  | _ => none

namespace Executor

variable (exec : Executor)

/-- The solution of a row, for the variables that are wanted. -/
def decode_subset (row : Row) (schema want : List Var) : Result Bindings :=
  schema.zipIdx.foldlM (fun env (v, i) =>
    if v ∉ want then .ok env
    else
      match row.at i with
      | .Id id => do
        let t ← exec.decode_term id
        .ok (Function.update env v (some t))
      | .Term t => .ok (Function.update env v (some t))
      | .Unbound => .ok env) fun _ => none

/-- The numbers of a column, up to the first bound cell that is none. -/
def numeric_cells (idx : Nat) : List Row → Result (Option (List (Option Float)))
  | [] => .ok (some [])
  | r :: rows =>
    match r.at idx with
    | .Unbound => do
      let nums ← numeric_cells idx rows
      .ok (nums.map (none :: ·))
    | cell => do
      let v ← match cell with
        | .Id id => exec.decode_numeric id
        | .Term t => .ok (numeric_value t)
        | .Unbound => .ok none
      match v with
      | none => .ok none
      | some x => do
        let nums ← numeric_cells idx rows
        .ok (nums.map (some x :: ·))

def cell_val : Slot → Result (Option SortVal)
  | .Unbound => .ok none
  | .Id id => do
    let t ← exec.decode_term id
    .ok (some (.of t))
  | .Term t => .ok (some (.of t))

def slot_sort_col (rows : List Row) (idx : Nat) : Result SortCol := do
  match ← exec.numeric_cells idx rows with
  | some nums => .ok (.Num nums)
  | none => do
    let vals ← rows.mapM fun r => exec.cell_val (r.at idx)
    .ok (.classify vals)

end Executor

/-- A key that cannot be evaluated counts as unbound. -/
def computed_val (q : EvalScope Func Pattern) (e : Expr Func Pattern) (env : Bindings) :
    Option SortVal :=
  match eval_expr_to_term e env q with
  | .ok (some t) => some (.of t)
  | _ => none

abbrev SortCols := List (SortCol × OrderDir)

def sort_columns (exec : Executor) (q : EvalScope Func Pattern) (rows : List Row)
    (schema : List Var) (keys : List (Expr Func Pattern × OrderDir)) : Result SortCols := do
  let computed := keys.filter fun (e, _) => (bare_var_col e schema).isNone
  let want := computed.flatMap fun (e, _) => q.referenced_vars e
  let envs ←
    if computed.isEmpty then .ok []
    else rows.mapM fun r => exec.decode_subset r schema want
  keys.mapM fun (e, dir) => do
    let col ←
      match bare_var_col e schema with
      | some idx => exec.slot_sort_col rows idx
      | none => .ok (.classify (envs.map (computed_val q e)))
    .ok (col, dir)

/-! ## Sorting the places -/

/-- The first key on which two rows differ decides. -/
def compare_decorated : SortCols → Nat → Nat → Ordering
  | [], _, _ => .eq
  | (col, dir) :: cols, a, b =>
    let ord := col.compare_rows a b
    if ord ≠ .eq then
      match dir with
      | .Asc => ord
      | .Desc => ord.swap
    else compare_decorated cols a b

/-- What ends a query before its time: an error, or a panic of the library's sort. -/
inductive Stop where
  | Err (e : SparqlError)
  | Panic

abbrev Outcome (α : Type) := Except Stop α

def Outcome.of {α : Type} (r : Result α) : Outcome α := r.mapError .Err

def sorted_order (sort : StableSort) (cols : SortCols) (rows : Nat) : Outcome (List Nat) :=
  match sort.sort_by (compare_decorated cols) (List.range rows) with
  | some order => .ok order
  | none => .error .Panic

/-- Each row is taken from its place, and an empty one is left there. -/
def permute (rows : List Row) : List Nat → List Row
  | [] => []
  | i :: order => rows.getD i [] :: permute (rows.set i []) order

def compute_order_by (sort : StableSort) (exec : Executor) (q : EvalScope Func Pattern)
    (batch : Batch) (keys : List (Expr Func Pattern × OrderDir)) : Outcome Batch := do
  let cols ← Outcome.of (sort_columns exec q batch.rows batch.schema keys)
  let order ← sorted_order sort cols batch.rows.length
  .ok ⟨batch.schema, permute batch.rows order⟩

end horndb.sparql.exec
