-- Statistics of a source: what one scan over its orderings counts, and the merge of a delta
-- into the counts.
import HornDb.Lib.Gallop
import HornDb.VecSource

open HornDb.Lib Std

namespace horndb.wcoj

/-! ## The data -/

/-- The side of a triple that a count for a predicate is about. -/
inductive Position where
  | Subject
  | Object
deriving DecidableEq, Repr

/-- The subject side of a pair or the object side. -/
def Position.side : Position → Nat × Nat → Nat
  | .Subject, d => d.1
  | .Object, d => d.2

/-- How many characteristic sets are kept. -/
def CS_TOP_K : Nat := 1024

/-- The part of the graph, as a divisor, that may change before the statistics are rebuilt. -/
def STATS_DRIFT_DIVISOR : Nat := 10

/-- The predicates of a group of subjects, the number of subjects, and the number of objects
under each predicate. -/
structure CharacteristicSet where
  predicates : List TermId
  count : Nat
  occurrences : List (TermId × Nat)
deriving DecidableEq, Repr

/-- The most frequent sets, and totals over the others. -/
structure CharacteristicSetIndex where
  sets : List CharacteristicSet
  residual_subjects : Nat
  residual_pred_occ : List (TermId × Nat)
  by_predicate : ExtTreeMap TermId (List Nat)

structure SnapshotStats where
  total : Nat
  distinct_predicates : Nat
  predicate_count : ExtTreeMap TermId Nat
  ndv_subject : ExtTreeMap TermId Nat
  ndv_object : ExtTreeMap TermId Nat
  characteristic_sets : CharacteristicSetIndex
  max_degree : ExtTreeMap TermId (Nat × Nat)
  sample_rows : List Row
  sampling_enabled : Bool
  built_total : Nat
  drift_rows : Nat

namespace SnapshotStats

/-! ## One scan -/

/-- The value before and the count of the values so far. -/
def distinct_step (acc : Option TermId × Nat) (v : TermId) : Option TermId × Nat :=
  if acc.1 = some v then acc else (some v, acc.2 + 1)

/-- The count of the values that differ from the one before. -/
def count_distinct (vals : List TermId) : Nat := (vals.foldl distinct_step (none, 0)).2

/-- The longest run of one value on the second level. -/
def max_fanout (rows : List Row) : Nat :=
  (runs Row.level1 rows).foldl (fun m run => max m run.2.length) 0

def count_rows (cols : TripleColumns) : ExtTreeMap TermId Nat :=
  fold_entries Prod.fst (fun run _ => run.2.length) (runs Row.level0 cols.rows) ∅

def count_values (cols : TripleColumns) : ExtTreeMap TermId Nat :=
  fold_entries Prod.fst (fun run _ => count_distinct (run.2.map Row.level1))
    (runs Row.level0 cols.rows) ∅

def build_max_degree (src : VecTripleSource) : ExtTreeMap TermId (Nat × Nat) :=
  let by_subject := fold_entries Prod.fst
    (fun run (d : Option (Nat × Nat)) => (max_fanout run.2, (d.getD (0, 0)).2))
    (runs Row.level0 (src.columns .Pso).rows) ∅
  fold_entries Prod.fst
    (fun run (d : Option (Nat × Nat)) => ((d.getD (0, 0)).1, max_fanout run.2))
    (runs Row.level0 (src.columns .Pos).rows) by_subject

/-- The predicates of a subject, each with its number of objects. -/
def predicates_of (rows : List Row) : List (TermId × Nat) :=
  (runs Row.level1 rows).map fun run => (run.1, run.2.length)

/-- The subjects with the same predicates, taken together. -/
def aggregate_sets (rows : List Row) : ExtTreeMap (List TermId) (Nat × List Nat) :=
  fold_entries (fun preds => preds.map Prod.fst)
    (fun preds (entry : Option (Nat × List Nat)) =>
      let entry := entry.getD (0, List.replicate preds.length 0)
      (entry.1 + 1, List.zipWith (· + ·) entry.2 (preds.map Prod.snd)))
    ((runs Row.level0 rows).map fun run => predicates_of run.2) ∅

/-- Frequent sets first, and by their predicates when they are as frequent. -/
def CharacteristicSet.before (a b : CharacteristicSet) : Bool :=
  b.count < a.count || a.count == b.count && (compare a.predicates b.predicates).isLE

def build_characteristic_sets_with_k (rows : List Row) (k : Nat) : CharacteristicSetIndex :=
  let all := ((aggregate_sets rows).toList.map fun e =>
    (⟨e.1, e.2.1, e.1.zip e.2.2⟩ : CharacteristicSet)).mergeSort CharacteristicSet.before
  let sets := all.take k
  let tail := all.drop k
  let residual : ExtTreeMap TermId Nat :=
    fold_entries Prod.fst (fun e occ => occ.getD 0 + e.2) (tail.flatMap (·.occurrences)) ∅
  let places := sets.zipIdx.flatMap fun e => e.1.predicates.map fun p => (p, e.2)
  { sets
    residual_subjects := (tail.map (·.count)).sum
    residual_pred_occ := residual.toList
    by_predicate := fold_entries Prod.fst (fun e is => is.getD [] ++ [e.2]) places ∅ }

def build_characteristic_sets (src : VecTripleSource) : CharacteristicSetIndex :=
  build_characteristic_sets_with_k (src.columns .Spo).rows CS_TOP_K

def from_source (src : VecTripleSource) : SnapshotStats :=
  let total := (src.columns .Spo).rows.length
  let predicate_count := count_rows (src.columns .Pso)
  { total
    distinct_predicates := max predicate_count.size 1
    predicate_count
    ndv_subject := count_values (src.columns .Pso)
    ndv_object := count_values (src.columns .Pos)
    characteristic_sets := build_characteristic_sets src
    max_degree := build_max_degree src
    sample_rows := []
    sampling_enabled := false
    built_total := total
    drift_rows := 0 }

/-! ## A delta -/

def row_below (cols : TripleColumns) (row : Row) (i : Nat) : Bool :=
  (cols.rows[i]?.map fun r => decide (r < row)).getD false

/-- Search the rows for one, by bisection. -/
def spo_contains (cols : TripleColumns) (row : Row) : Bool :=
  let lo := Gallop.bisect (row_below cols row) cols.rows.length 0 cols.rows.length
  cols.rows[lo]? == some row

/-- The number of rows with `a` on the first level and `b` on the second. -/
def prefix_len (cols : TripleColumns) (a b : TermId) : Nat :=
  let l0 := cols.rows.map Row.level0
  let lo := partition_point (· < a) l0
  let hi := lo + partition_point (· == a) (l0.drop lo)
  let l1 := ((cols.rows.map Row.level1).drop lo).take (hi - lo)
  let s := partition_point (· < b) l1
  partition_point (· == b) (l1.drop s)

/-- A predicate with a subject or with an object. -/
abbrev Group := TermId ×ₗ TermId

instance : LawfulEqOrd Group where
  eq_of_compare {a b} h := by
    rw [Prod.Lex.compare_def, compareLex_eq_eq] at h
    exact Prod.ext (LawfulEqOrd.eq_of_compare h.1) (LawfulEqOrd.eq_of_compare h.2)

/-- The rows of a delta that are not there yet, and those that are there and go. A row on both
lists is deleted and put back. -/
def net_rows (pre : VecTripleSource) (dels adds : List Triple) : List Row × List Row :=
  let spo := pre.columns .Spo
  let requested := sort_dedup (adds.map (·.by_ordering .Spo))
  (requested.filter fun r => !spo_contains spo r,
    (sort_dedup (dels.map (·.by_ordering .Spo))).filter fun r =>
      !decide (r ∈ requested) && spo_contains spo r)

/-- The change of the number of rows of each group. -/
def net_groups (group : Row → Group) (added removed : List Row) : ExtTreeMap Group Int :=
  let m := fold_entries group (fun _ n => n.getD 0 + 1) added ∅
  fold_entries group (fun _ n => n.getD 0 - 1) removed m

def subject_group (r : Row) : Group := toLex (r.level1, r.level0)

def object_group (r : Row) : Group := toLex (r.level1, r.level2)

/-- The size of a group before the delta and after it. -/
structure GroupSize where
  predicate : TermId
  before : Nat
  after : Nat

def group_sizes (cols : TripleColumns) (groups : ExtTreeMap Group Int) : List GroupSize :=
  groups.toList.map fun e =>
    let (p, k) := ofLex e.1
    let before := prefix_len cols p k
    ⟨p, before, ((before : Int) + e.2).toNat⟩

/-- What the values of a predicate change by: a group came or a group went. -/
def GroupSize.step (g : GroupSize) : Int :=
  (if 0 < g.after then 1 else 0) - (if 0 < g.before then 1 else 0)

def move_ndv (sizes : List GroupSize) (ndv : ExtTreeMap TermId Nat) : ExtTreeMap TermId Nat :=
  fold_entries GroupSize.predicate (fun g n => (((n.getD 0 : Nat) : Int) + g.step).toNat) sizes ndv

/-- The degrees with the one of a role at least `n`. -/
def raise (role : Position) (n : Nat) (d : Nat × Nat) : Nat × Nat :=
  match role with
  | .Subject => (max d.1 n, d.2)
  | .Object => (d.1, max d.2 n)

/-- The degree on one side grows to the size of a group. -/
def grow_degree (role : Position) (sizes : List GroupSize)
    (degrees : ExtTreeMap TermId (Nat × Nat)) : ExtTreeMap TermId (Nat × Nat) :=
  fold_entries GroupSize.predicate (fun g d => raise role g.after (d.getD (0, 0)))
    (sizes.filter fun g => 0 < g.after) degrees

/-- The map without the entries of some keys. -/
def remove_all {β : Type} (m : ExtTreeMap TermId β) (keys : List TermId) : ExtTreeMap TermId β :=
  keys.foldl (fun m k => m.erase k) m

/-- Merge a delta that `pre` does not have yet. The statistics are to be rebuilt when the
answer is `false`. -/
def apply_delta (stats : SnapshotStats) (pre : VecTripleSource) (dels adds : List Triple) :
    SnapshotStats × Bool :=
  if stats.sampling_enabled then (stats, false)
  else
    let (added, removed) := net_rows pre dels adds
    if added = [] ∧ removed = [] then (stats, true)
    else
      let predicate_count := fold_entries Row.level1 (fun _ n => n.getD 0 + 1) added
        stats.predicate_count
      let predicate_count := fold_entries Row.level1 (fun _ n => n.getD 0 - 1) removed
        predicate_count
      let total := stats.total + added.length - removed.length
      let by_subject := group_sizes (pre.columns .Pso) (net_groups subject_group added removed)
      let by_object := group_sizes (pre.columns .Pos) (net_groups object_group added removed)
      let ndv_subject := move_ndv by_subject stats.ndv_subject
      let ndv_object := move_ndv by_object stats.ndv_object
      let max_degree := grow_degree .Object by_object
        (grow_degree .Subject by_subject stats.max_degree)
      -- A predicate whose last triple went leaves every map.
      let dead := (predicate_count.toList.filter fun e => e.2 == 0).map Prod.fst
      let predicate_count := remove_all predicate_count dead
      let drift_rows := stats.drift_rows + (added.length + removed.length)
      ({ stats with
          total
          distinct_predicates := max predicate_count.size 1
          predicate_count
          ndv_subject := remove_all ndv_subject dead
          ndv_object := remove_all ndv_object dead
          max_degree := remove_all max_degree dead
          drift_rows },
        decide (drift_rows * STATS_DRIFT_DIVISOR ≤ stats.built_total))

/-! ## Lookups -/

def count_of (stats : SnapshotStats) (p : TermId) : Nat := stats.predicate_count.getD p 0

def ndv (stats : SnapshotStats) (p : TermId) : Position → Nat
  | .Subject => stats.ndv_subject.getD p 1
  | .Object => stats.ndv_object.getD p 1

/-- A predicate that is not known falls back to the whole graph. -/
def degree_of (stats : SnapshotStats) (p : TermId) (role : Position) : Nat :=
  match stats.max_degree[p]? with
  | some d => role.side d
  | none => stats.total

end SnapshotStats

end horndb.wcoj
