-- The rows of one predicate: sorted runs, merged on the first read. Each row carries the
-- versions that see it. The object-major copies and the side sets come with the reads.
import HornDb.Lib.Gallop
import HornDb.TermIds

open HornDb.Lib

namespace horndb.storage

/-- A subject and an object, in subject-major order. -/
abbrev Pair := Nat ×ₗ Nat

/-- A stored row. It has no end stamp while it is live. -/
structure Row where
  subject : TermId
  object : TermId
  begin_stamp : Nat
  end_stamp : Option Nat
deriving DecidableEq, Repr

namespace Row

def pair (r : Row) : Pair := toLex (r.subject, r.object)

/-- The order of the rows: by pair, then by the begin stamp. -/
def key (r : Row) : Pair ×ₗ Nat := toLex (r.pair, r.begin_stamp)

def is_live (r : Row) : Bool := r.end_stamp.isNone

/-- The row is visible at `at_version`. -/
def visible (r : Row) (at_version : Nat) : Bool :=
  decide (r.begin_stamp ≤ at_version) && r.end_stamp.all fun e => decide (at_version < e)

/-- Live rows of one pair. -/
def Duplicate (a b : Row) : Prop := a.pair = b.pair ∧ a.is_live = true ∧ b.is_live = true

instance : DecidableRel Duplicate := fun a b =>
  inferInstanceAs (Decidable (a.pair = b.pair ∧ a.is_live = true ∧ b.is_live = true))

end Row

/-- A new live row. -/
def live_row (version : Nat) (p : Pair) : Row :=
  ⟨(ofLex p).1, (ofLex p).2, version, none⟩

/-! ## Columns -/

/-- A block of rows in order. It serves as a run and as the merged view. -/
structure Columns where
  rows : List Row
  sorted : rows.Pairwise fun a b => a.key ≤ b.key

namespace Columns

/-- Sort the rows, and keep the earliest of the live rows of each pair. -/
def sort_dedup (rows : List Row) : List Row :=
  (rows.insertionSort fun a b => a.key ≤ b.key).destutter fun a b => ¬ a.Duplicate b

theorem sort_dedup_sorted (rows : List Row) :
    (sort_dedup rows).Pairwise fun a b => a.key ≤ b.key := by
  have : Std.Total fun a b : Row => a.key ≤ b.key := ⟨fun a b => le_total a.key b.key⟩
  have : IsTrans Row fun a b => a.key ≤ b.key := ⟨fun _ _ _ => le_trans⟩
  exact (List.pairwise_insertionSort _ rows).sublist (List.destutter_sublist _ _)

def from_rows (rows : List Row) : Columns := ⟨sort_dedup rows, sort_dedup_sorted rows⟩

def has_retractions (c : Columns) : Bool := c.rows.any fun r => !r.is_live

def max_begin (c : Columns) : Nat := (c.rows.map (·.begin_stamp)).foldl max 0

def live_len (c : Columns) : Nat := c.rows.countP Row.is_live

/-- The first row from `start` on whose pair is not below `target`. -/
def lower_bound_from (c : Columns) (start : Nat) (target : Pair) : Nat :=
  Gallop.search (fun i => c.rows[i]?.any fun r => decide (r.pair < target)) c.rows.length start

/-- The rows of `target` that start at `i` hold a live one. -/
def block_is_live (c : Columns) (i : Nat) (target : Pair) : Bool :=
  ((c.rows.drop i).takeWhile fun r => decide (r.pair = target)).any Row.is_live

/-- Set the flag of each target that has a live row here. The targets ascend, so each search
resumes where the one before it ended, and the flags after the end of the rows stay. -/
def mark_live (c : Columns) : Nat → List Pair → List Bool → List Bool
  | cursor, target :: targets, flag :: live =>
    if c.rows.length ≤ cursor then flag :: live
    else
      let cursor := c.lower_bound_from cursor target
      (flag || c.block_is_live cursor target) :: mark_live c cursor targets live
  | _, _, live => live

end Columns

/-! ## The partition of a predicate -/

/-- Runs a partition may hold before a write merges them. -/
def MAX_RUNS : Nat := 4096

/-- The rows of the runs together are the rows of the partition. After a read there is one run. -/
structure PredicatePartition where
  runs : List Columns

namespace PredicatePartition

def all_rows (part : PredicatePartition) : List Row := part.runs.flatMap Columns.rows

def merged_cols (part : PredicatePartition) : Columns :=
  match part.runs with
  | [run] => run
  | _ => .from_rows part.all_rows

/-- The partition after a read. -/
def read (part : PredicatePartition) : PredicatePartition := ⟨[part.merged_cols]⟩

def build (rows : List Row) : PredicatePartition := ⟨[.from_rows rows]⟩

/-- The rows and one more run, merged when there are too many runs. -/
def with_appended_rows (part : PredicatePartition) (new_rows : List Row) : PredicatePartition :=
  let part : PredicatePartition := ⟨part.runs ++ [.from_rows new_rows]⟩
  if MAX_RUNS ≤ part.runs.length then part.read else part

/-- Which of the targets are live, without a merge. -/
def mark_live (part : PredicatePartition) (targets : List Pair) : List Bool :=
  part.runs.foldl (fun live run => run.mark_live 0 targets live)
    (List.replicate targets.length false)

def has_retractions (part : PredicatePartition) : Bool := part.merged_cols.has_retractions

def live_len (part : PredicatePartition) : Nat := part.merged_cols.live_len

def scan (part : PredicatePartition) : List Pair := part.merged_cols.rows.map Row.pair

/-- The pairs visible at `at_version`. Without a retraction and from the last insertion on,
every row is, and none is tested. -/
def scan_at (part : PredicatePartition) (at_version : Nat) : List Pair :=
  let c := part.merged_cols
  let filtered := c.has_retractions || decide (at_version < c.max_begin)
  (c.rows.filter fun r => !filtered || r.visible at_version).map Row.pair

def len_at (part : PredicatePartition) (at_version : Nat) : Nat :=
  let c := part.merged_cols
  if !c.has_retractions && decide (c.max_begin ≤ at_version) then c.rows.length
  else c.rows.countP fun r => r.visible at_version

end PredicatePartition

/-! ## Warm and cold -/

/-- What a cold file decodes to: its pairs, in order, and the version they were visible at. -/
structure ColdPartition where
  pairs : List Pair
  version : Nat

def ColdPartition.promote (cold : ColdPartition) : PredicatePartition :=
  .build (cold.pairs.map (live_row cold.version))

inductive Partition where
  | Warm (part : PredicatePartition)
  | Cold (part : ColdPartition)

namespace Partition

def has_retractions : Partition → Bool
  | .Warm part => part.has_retractions
  | .Cold _ => false

def live_len : Partition → Nat
  | .Warm part => part.live_len
  | .Cold part => part.pairs.length

/-- Every stored pair, dead history included. -/
def scan : Partition → List Pair
  | .Warm part => part.scan
  | .Cold part => part.pairs

def scan_at : Partition → Nat → List Pair
  | .Warm part, at_version => part.scan_at at_version
  | .Cold part, _ => part.pairs

/-- The partition after a read. -/
def read : Partition → Partition
  | .Warm part => .Warm part.read
  | .Cold part => .Cold part

end Partition

/-- The warm form of a partition. A write promotes a cold one first. -/
def warm_for_write : Partition → PredicatePartition
  | .Warm part => part
  | .Cold part => part.promote

end horndb.storage
