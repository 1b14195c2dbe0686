-- The reads of one partition: a point lookup, the count at a version, and the columns on
-- either axis. The object-major columns are built by the first read that needs them.
import HornDb.PartitionWrites

open HornDb.Lib

namespace horndb.storage

/-! ## Orderings -/

inductive Ordering where
  | Spo
  | Sop
  | Pso
  | Pos
  | Osp
  | Ops
deriving DecidableEq, Repr

inductive PartitionAxis where
  | SubjectMajor
  | ObjectMajor
deriving DecidableEq, Repr

/-- The layout that serves an ordering: the predicate is constant in a partition. -/
def Ordering.axis : Ordering → PartitionAxis
  | .Spo | .Sop | .Pso => .SubjectMajor
  | .Pos | .Osp | .Ops => .ObjectMajor

namespace Row

/-- The order of the object-major rows. -/
def mirror (r : Row) : Pair := toLex (r.object, r.subject)

/-- The row's columns in the order of an axis. -/
def levels (r : Row) : PartitionAxis → TermId × TermId
  | .SubjectMajor => (r.subject, r.object)
  | .ObjectMajor => (r.object, r.subject)

end Row

/-! ## The merged columns -/

namespace Columns

/-- The distinct subject payloads of all rows, dead ones included. -/
def subject_set (c : Columns) : Finset Nat := (c.rows.map fun r => TermId.payload r.subject).toFinset

/-- The rows in object-major order. The order of the rows of one pair is not specified. -/
def build_object_major (c : Columns) : List Row :=
  c.rows.insertionSort fun a b => a.mirror ≤ b.mirror

/-- The first row whose pair is not below `target`. -/
def lower_bound (c : Columns) (target : Pair) : Nat :=
  Gallop.bisect (fun i => c.rows[i]?.any fun r => decide (r.pair < target)) c.rows.length 0
    c.rows.length

end Columns

/-- The two columns of a partition in the order of an axis, row after row. -/
structure OrderedColumns where
  axis : PartitionAxis
  levels : List (TermId × TermId)
deriving DecidableEq

namespace OrderedColumns

def scan (c : OrderedColumns) : List (TermId × TermId) := c.levels

def subject_object (c : OrderedColumns) : List Pair :=
  match c.axis with
  | .ObjectMajor => c.levels.map fun l => toLex (l.2, l.1)
  | .SubjectMajor => c.levels.map toLex

end OrderedColumns

namespace PredicatePartition

/-- The pair is visible at `at_version`. The set of the subjects rejects first; then only the
rows of the pair are tested. -/
def contains_at (part : PredicatePartition) (subject object : TermId) (at_version : Nat) : Bool :=
  let c := part.merged_cols
  if TermId.payload subject ∉ c.subject_set then false
  else
    let target : Pair := toLex (subject, object)
    ((c.rows.drop (c.lower_bound target)).takeWhile fun r => decide (r.pair = target)).any
      fun r => r.visible at_version

end PredicatePartition

/-- A partition with the object-major rows, once a read has built them. -/
structure Layouts where
  part : PredicatePartition
  hot_threshold : Nat
  object_major : Option (List Row)
  built : ∀ rows, object_major = some rows → rows = part.merged_cols.build_object_major

namespace Layouts

variable (l : Layouts)

/-- The object-major rows, as they were built or built now. -/
def object_major_rows : List Row := l.object_major.getD l.part.merged_cols.build_object_major

theorem object_major_rows_eq : l.object_major_rows = l.part.merged_cols.build_object_major := by
  unfold object_major_rows
  cases h : l.object_major with
  | none => rfl
  | some rows => exact l.built rows h

/-- Without a retraction and from the last insertion on the rows are taken as they are. -/
def ordered_at (ord : Ordering) (at_version : Nat) : OrderedColumns :=
  let c := l.part.merged_cols
  let rows :=
    match ord.axis with
    | .SubjectMajor => c.rows
    | .ObjectMajor => l.object_major_rows
  let shown :=
    if !c.has_retractions && decide (c.max_begin ≤ at_version) then rows
    else rows.filter fun r => r.visible at_version
  ⟨ord.axis, shown.map fun r => r.levels ord.axis⟩

end Layouts

/-! ## What the reads give -/

theorem Columns.lower_bound_spec (c : Columns) (target : Pair) (q : Row → Bool) :
    ((c.rows.drop (c.lower_bound target)).takeWhile fun r => decide (r.pair = target)).any q =
      c.rows.any fun r => decide (r.pair = target) && q r := by
  obtain ⟨_, _, hleft, hat⟩ := Gallop.bisect_spec (c.below_mono target) (n := c.rows.length)
    c.rows.length 0 c.rows.length (Nat.zero_le _) (by omega) (fun i hi => absurd hi (by omega))
    (fun hlt => absurd hlt (Nat.lt_irrefl _))
  exact c.block_any q hleft hat

namespace PredicatePartition

variable (part : PredicatePartition)

/-- A lookup finds a pair just when a merged row of the pair is visible. -/
theorem contains_at_iff (p : Pair) (v : Nat) :
    part.contains_at (ofLex p).1 (ofLex p).2 v = true ↔ Seen part.merged_cols.rows p v := by
  have hblock := part.merged_cols.lower_bound_spec p fun r => r.visible v
  have hany : (part.merged_cols.rows.any fun r => decide (r.pair = p) && r.visible v) = true ↔
      Seen part.merged_cols.rows p v := by
    simp [Seen]
  unfold contains_at
  dsimp only
  split
  · -- The set of the subjects has the payload of every stored row.
    rename_i hnot
    refine iff_of_false Bool.false_ne_true ?_
    rintro ⟨r, hr, rfl, _⟩
    apply hnot
    rw [Columns.subject_set, List.mem_toFinset]
    exact List.mem_map_of_mem hr
  · rw [← hany, ← hblock]
    exact Iff.rfl

/-- The way without tests gives what the tests give. -/
theorem scan_at_eq (v : Nat) :
    part.scan_at v = (part.merged_cols.rows.filter fun r => r.visible v).map Row.pair := by
  unfold scan_at
  dsimp only
  congr 1
  apply List.filter_congr
  intro r hr
  cases hfast : part.merged_cols.has_retractions || decide (v < part.merged_cols.max_begin) with
  | true => rfl
  | false =>
    rw [Bool.or_eq_false_iff, decide_eq_false_iff_not, Nat.not_lt] at hfast
    rw [part.merged_cols.all_visible hfast.1 hfast.2 hr]
    rfl

end PredicatePartition

namespace Columns

variable (c : Columns)

/-- The rows in the order of an axis. -/
def axis_rows : PartitionAxis → List Row
  | .SubjectMajor => c.rows
  | .ObjectMajor => c.build_object_major

theorem axis_rows_perm (axis : PartitionAxis) : (c.axis_rows axis).Perm c.rows := by
  cases axis with
  | SubjectMajor => exact List.Perm.refl _
  | ObjectMajor => exact List.perm_insertionSort (fun a b : Row => a.mirror ≤ b.mirror) c.rows

theorem axis_rows_sorted (axis : PartitionAxis) :
    (c.axis_rows axis).Pairwise fun a b => toLex (a.levels axis) ≤ toLex (b.levels axis) := by
  cases axis with
  | SubjectMajor => exact c.sorted.imp fun h => Row.key_le_pair h
  | ObjectMajor =>
    have : Std.Total fun a b : Row => a.mirror ≤ b.mirror :=
      ⟨fun a b => le_total a.mirror b.mirror⟩
    have : IsTrans Row fun a b => a.mirror ≤ b.mirror := ⟨fun _ _ _ => le_trans⟩
    exact List.pairwise_insertionSort (fun a b : Row => a.mirror ≤ b.mirror) c.rows

end Columns

namespace Layouts

variable (l : Layouts)

theorem ordered_at_eq (ord : Ordering) (v : Nat) :
    l.ordered_at ord v =
      ⟨ord.axis, ((l.part.merged_cols.axis_rows ord.axis).filter fun r => r.visible v).map
        fun r => r.levels ord.axis⟩ := by
  have hrows : (match ord.axis with
      | .SubjectMajor => l.part.merged_cols.rows
      | .ObjectMajor => l.object_major_rows) = l.part.merged_cols.axis_rows ord.axis := by
    cases ord.axis with
    | SubjectMajor => rfl
    | ObjectMajor => exact l.object_major_rows_eq
  unfold ordered_at
  dsimp only
  rw [hrows]
  split
  · rename_i hfast
    rw [Bool.and_eq_true, Bool.not_eq_true', decide_eq_true_eq] at hfast
    have hall : ∀ r ∈ l.part.merged_cols.axis_rows ord.axis, r.visible v = true := fun r hr =>
      l.part.merged_cols.all_visible hfast.1 hfast.2
        ((l.part.merged_cols.axis_rows_perm ord.axis).mem_iff.mp hr)
    rw [List.filter_eq_self.mpr hall]
  · rfl

/-- Ordered columns have the pairs of a scan, each as often. -/
theorem ordered_at_perm (ord : Ordering) (v : Nat) :
    (l.ordered_at ord v).subject_object.Perm (l.part.scan_at v) := by
  have hpairs : (l.ordered_at ord v).subject_object =
      ((l.part.merged_cols.axis_rows ord.axis).filter fun r => r.visible v).map Row.pair := by
    rw [ordered_at_eq]
    unfold OrderedColumns.subject_object
    cases ord.axis <;> exact List.map_map
  rw [hpairs, PredicatePartition.scan_at_eq]
  exact ((l.part.merged_cols.axis_rows_perm ord.axis).filter _).map _

/-- Ordered columns ascend on their axis. -/
theorem ordered_at_sorted (ord : Ordering) (v : Nat) :
    ((l.ordered_at ord v).scan.map toLex).Pairwise (· ≤ ·) := by
  rw [ordered_at_eq, OrderedColumns.scan, List.map_map, List.pairwise_map]
  exact (l.part.merged_cols.axis_rows_sorted ord.axis).filter _

end Layouts

end horndb.storage
