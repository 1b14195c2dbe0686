-- A plan with bounded sorts gives the same stream, chunk by chunk, as with full ones.
import HornDb.SortOrder
import HornDb.TopK

open HornDb.Lib.Sorts HornDb.Lib.MaxHeap
open Std (TransCmp OrientedCmp)

namespace horndb.sparql.exec

open algebra (Expr OrderDir)

/-! ## The first rows -/

/-- The comparison of rows, where their places decide between equal ones. -/
def indexed (cols : SortCols) : Nat → Nat → Ordering := compareLex (compare_decorated cols) compare

theorem worse_eq (cols : SortCols) (a b : Nat) : worse cols a b = (indexed cols a b).isGT := by
  unfold worse indexed compareLex
  cases compare_decorated cols a b
  · rfl
  · show decide (a > b) = (compare a b).isGT
    rw [Ordering.isGT_eq_beq_gt, Bool.eq_iff_iff, decide_eq_true_iff, beq_iff_eq,
      Nat.compare_eq_gt]
  · rfl

theorem indexed_eq {cols : SortCols} {a b : Nat} (h : indexed cols a b = .eq) : a = b := by
  unfold indexed compareLex at h
  rw [Ordering.then_eq_eq] at h
  exact Nat.compare_eq_eq.mp h.2

theorem Before.indexed_ne_gt {cols : SortCols} {a b : Nat}
    (h : Before (compare_decorated cols) a b) : indexed cols a b ≠ .gt := by
  unfold indexed compareLex
  rcases h with h | ⟨h, hlt⟩
  · rw [h]
    simp
  · rw [h]
    show compare a b ≠ .gt
    rw [Nat.compare_eq_lt.mpr hlt]
    simp

/-- The heap gives the first rows of the full stable sort. -/
theorem top_k_order_eq (sort : StableSort) {cols : SortCols} (h : ∀ c ∈ cols, c.1.Consistent)
    {rows n : Nat} (hn : n ≤ rows) :
    top_k_order sort cols rows n = (sorted_order sort cols rows).map (·.take n) := by
  have htrans := compare_decorated_trans h
  have hindexed : TransCmp (indexed cols) := by
    unfold indexed
    infer_instance
  obtain ⟨order, hsort, hperm, hbefore⟩ := sorted_order_eq sort h rows
  rw [hsort]
  unfold top_k_order
  split
  · rename_i hzero
    rw [hzero]
    rfl
  · rename_i hpos
    dsimp only
    have hkeeps := keeps_foldl (worse_isGT hindexed) (Nat.pos_of_ne_zero hpos) (List.range rows)
    have hworse : worse cols = fun a b => (indexed cols a b).isGT := by
      funext a b
      exact worse_eq cols a b
    rw [hworse]
    generalize (List.range rows).foldl _ #[] = heap at hkeeps
    obtain ⟨rest, hrest, hbest⟩ := hkeeps.best
    obtain ⟨out, hout, houtperm, houtsorted, -⟩ := sort.sorts (indexed cols) heap.toList hindexed
    have hlen : out.length = n := by
      rw [houtperm.length_eq, Array.length_toList, hkeeps.size, List.length_range]
      omega
    have htake := take_of_sorted hindexed (fun a b => indexed_eq)
      (hbefore.imp Before.indexed_ne_gt) houtsorted
      (((houtperm.append_right rest).trans hrest).trans hperm.symm) fun a ha b hb => by
        have hnot := hbest a (houtperm.mem_iff.mp ha) b hb
        intro hgt
        rw [hgt] at hnot
        cases hnot
    rw [hlen] at htake
    have hsorted : sort.sort_by (fun a b => (compare_decorated cols a b).then (compare a b))
        heap.toList = some out := hout
    rw [hsorted]
    exact congrArg Except.ok htake.symm

theorem permute_take (rows : List Row) (order : List Nat) (n : Nat) :
    permute rows (order.take n) = (permute rows order).take n := by
  induction order generalizing rows n with
  | nil => simp [permute]
  | cons i order ih =>
    cases n with
    | zero => rfl
    | succ n => rw [List.take_succ_cons, permute, permute, List.take_succ_cons, ih]

variable {Func Pattern : Type}

/-- The batch's first rows. -/
def Batch.first (n : Nat) (b : Batch) : Batch := ⟨b.schema, b.rows.take n⟩

theorem first_places_eq (sort : StableSort) (cols : SortCols) (rows n : Nat) :
    first_places sort cols rows n = (sorted_order sort cols rows).map (·.take n) := by
  unfold first_places
  split
  · cases sorted_order sort cols rows <;> rfl
  · rename_i hbounded
    rw [not_or, not_not, List.all_eq_true] at hbounded
    refine top_k_order_eq sort (fun c hc => ?_) (by omega)
    exact .of_is_total_order (hbounded.2 c hc)

/-- The bounded sort gives the first rows of the full one, whatever the columns are. -/
theorem compute_top_k_eq (rt : Runtime Func Pattern) (batch : Batch)
    (keys : List (Expr Func Pattern × OrderDir)) {n : Nat} (hn : n ≠ 0) :
    rt.compute_top_k batch keys n =
      (compute_order_by rt.sort rt.executor rt.scope batch keys).map (Batch.first n) := by
  unfold Runtime.compute_top_k compute_order_by
  rw [if_neg hn]
  cases Outcome.of (sort_columns rt.executor rt.scope batch.rows batch.schema keys) with
  | error why => rfl
  | ok cols =>
    show (do let order ← first_places rt.sort cols batch.rows.length n; _) =
      Except.map _ (do let order ← sorted_order rt.sort cols batch.rows.length; _)
    rw [first_places_eq]
    cases sorted_order rt.sort cols batch.rows.length with
    | error why => rfl
    | ok order =>
      show Except.ok (Batch.mk _ (permute batch.rows (order.take n))) = _
      rw [permute_take]
      rfl

/-! ## Streams cut short -/

/-- The stream up to a number of rows. -/
def Stream.truncate (n : Nat) : Stream → Stream
  | .done => .done
  | .stop why => .stop why
  | .chunk b rest =>
    if n = 0 then .done
    else .chunk (b.first n) (if n ≤ b.rows.length then .done else rest.truncate (n - b.rows.length))

theorem hand_out_eq (batch_rows : Nat) (schema : List Var) (rows : List Row) :
    hand_out batch_rows schema rows =
      if rows.take batch_rows = [] then .done
      else .chunk ⟨schema, rows.take batch_rows⟩
        (hand_out batch_rows schema (rows.drop batch_rows)) := by
  rw [hand_out]
  unfold next_chunk
  by_cases h : rows.take batch_rows = []
  · rw [if_pos h]
    split
    · rfl
    · rename_i heq
      simp [h] at heq
  · rw [if_neg h]
    split
    · rename_i heq
      simp [h] at heq
    · rename_i heq
      simp only [List.isEmpty_iff, h, if_false, Option.some.injEq, Prod.mk.injEq] at heq
      rw [← heq.1, ← heq.2]

theorem hand_out_nil (batch_rows : Nat) (schema : List Var) :
    hand_out batch_rows schema [] = .done := by
  rw [hand_out_eq, if_pos List.take_nil]

theorem truncate_zero (batch_rows : Nat) (schema : List Var) (rows : List Row) :
    (hand_out batch_rows schema rows).truncate 0 = .done := by
  rw [hand_out_eq]
  split
  · rfl
  · rw [Stream.truncate, if_pos rfl]

/-- A batch cut short is handed out in the same chunks. -/
theorem hand_out_take (batch_rows : Nat) (schema : List Var) (rows : List Row) (n : Nat) :
    hand_out batch_rows schema (rows.take n) = (hand_out batch_rows schema rows).truncate n := by
  induction hk : rows.length using Nat.strong_induction_on generalizing rows n with
  | _ k ih =>
    subst hk
    rw [hand_out_eq batch_rows schema rows]
    by_cases hempty : rows.take batch_rows = []
    · rw [if_pos hempty, hand_out_eq, if_pos]
      · rfl
      · rw [List.take_take, Nat.min_comm, ← List.take_take, hempty, List.take_nil]
    rw [if_neg hempty, Stream.truncate]
    split
    · rename_i hzero
      rw [hzero, List.take_zero, hand_out_nil]
    rename_i hn
    have hne : (rows.take n).take batch_rows ≠ [] := by
      simp only [ne_eq, List.take_eq_nil_iff] at hempty ⊢
      tauto
    rw [hand_out_eq, if_neg hne, List.take_take, Nat.min_comm, ← List.take_take]
    show Stream.chunk ⟨schema, _⟩ _ = Stream.chunk ⟨schema, _⟩ _
    congr 1
    have hlt : (rows.drop batch_rows).length < rows.length := by
      rw [List.length_drop]
      simp only [List.take_eq_nil_iff, not_or] at hempty
      have hpos := List.length_pos_iff.mpr hempty.2
      omega
    have hdrop : (rows.take n).drop batch_rows = (rows.drop batch_rows).take (n - batch_rows) := by
      rw [List.drop_take]
    rw [hdrop, ih _ hlt _ _ rfl, List.length_take]
    split
    · rename_i hle
      rw [Nat.sub_eq_zero_of_le (by omega), truncate_zero]
    · by_cases hshort : batch_rows ≤ rows.length
      · rw [Nat.min_eq_left hshort]
      · rw [List.drop_eq_nil_of_le (by omega), hand_out_nil]
        rfl

/-- A projection of a stream keeps each chunk's number of rows. -/
theorem truncate_map {f : Batch → Batch} (hf : ∀ n b, f (b.first n) = (f b).first n)
    (hlen : ∀ b, (f b).rows.length = b.rows.length) (n : Nat) (s : Stream) :
    (s.truncate n).map f = (s.map f).truncate n := by
  induction s generalizing n with
  | done => rfl
  | stop why => rfl
  | chunk b rest ih =>
    rw [Stream.truncate, Stream.map, Stream.truncate, hlen]
    split
    · rfl
    · rw [Stream.map, hf]
      split
      · rfl
      · rw [ih]

theorem apply_project_length (vars : List Var) (b : Batch) :
    (apply_project vars b).rows.length = b.rows.length := by
  unfold apply_project
  split
  · rfl
  · exact List.length_map _

theorem apply_project_first (vars : List Var) (n : Nat) (b : Batch) :
    apply_project vars (b.first n) = (apply_project vars b).first n := by
  unfold apply_project
  split
  · rfl
  · show Batch.mk _ ((b.rows.take n).map _) = Batch.mk _ ((b.rows.map _).take n)
    rw [List.map_take]
    rfl

theorem slice_stream_chunk (start n : Nat) (b : Batch) (rest : Stream) :
    slice_stream start (some n) (.chunk b rest) =
      if (b.rows.drop start).take n = [] then
        slice_stream (start - b.rows.length) (some n) rest
      else .chunk ⟨b.schema, (b.rows.drop start).take n⟩
        (if n ≤ b.rows.length - start then .done
        else slice_stream (start - b.rows.length) (some (n - (b.rows.length - start))) rest) := by
  have hdrop : b.rows.drop (min start b.rows.length) = b.rows.drop start := by
    rw [List.drop_eq_drop_iff]
    omega
  have hskip : start - min start b.rows.length = start - b.rows.length := by omega
  have hlen : ((b.rows.drop start).take n).length = min n (b.rows.length - start) := by
    rw [List.length_take, List.length_drop]
  rw [slice_stream]
  simp only [hdrop, hskip, Option.map_some, Option.some.injEq, hlen]
  split
  · rename_i hnil
    rw [hnil, List.length_nil] at hlen
    rw [← hlen, Nat.sub_zero]
  · congr 1
    by_cases hle : n ≤ b.rows.length - start
    · rw [if_pos (by omega), if_pos hle]
    · rw [if_neg (by omega), if_neg hle, Nat.min_eq_right (by omega)]

/-- A slice does not pull more rows than it skips and gives. -/
theorem slice_truncate (s : Stream) (start n : Nat) (hn : n ≠ 0) :
    slice_stream start (some n) (s.truncate (start + n)) = slice_stream start (some n) s := by
  induction s generalizing start n with
  | done => rfl
  | stop why => rfl
  | chunk b rest ih =>
    have hrows : ((b.first (start + n)).rows.drop start).take n = (b.rows.drop start).take n := by
      show ((b.rows.take (start + n)).drop start).take n = _
      rw [List.drop_take, Nat.add_sub_cancel_left, List.take_take, Nat.min_self]
    have hlen : (b.first (start + n)).rows.length = min (start + n) b.rows.length :=
      List.length_take
    rw [Stream.truncate, if_neg (by omega), slice_stream_chunk, slice_stream_chunk, hrows, hlen]
    show (if _ then _ else Stream.chunk ⟨b.schema, _⟩ _) = _
    by_cases hend : start + n ≤ b.rows.length
    · -- the slice ends within the chunk
      have hne : (b.rows.drop start).take n ≠ [] := by
        rw [← List.length_pos_iff, List.length_take, List.length_drop]
        omega
      rw [if_neg hne, if_neg hne, if_pos (by omega), if_pos (by omega)]
    · rw [Nat.min_eq_right (by omega), if_neg hend]
      by_cases hskip : b.rows.length ≤ start
      · have hnil : (b.rows.drop start).take n = [] := by
          rw [List.drop_eq_nil_of_le hskip, List.take_nil]
        rw [if_pos hnil, if_pos hnil, show start + n - b.rows.length =
          start - b.rows.length + n by omega, ih _ n hn]
      · have hne : (b.rows.drop start).take n ≠ [] := by
          rw [← List.length_pos_iff, List.length_take, List.length_drop]
          omega
        rw [if_neg hne, if_neg hne, if_neg (by omega), if_neg (by omega),
          show start + n - b.rows.length =
            start - b.rows.length + (n - (b.rows.length - start)) by omega,
          ih _ (n - (b.rows.length - start)) (by omega)]

/-! ## Plans -/

/-- `op` has the columns of `full`, and its stream is that of `full` up to `n` rows. -/
structure Shortens (n : Nat) (op full : Op) : Prop where
  schema : op.schema = full.schema
  may_emit_term : op.may_emit_term = full.may_emit_term
  stream : n ≠ 0 → op.stream = full.stream.truncate n

theorem Shortens.order_by (rt : Runtime Func Pattern) (child : Op)
    (keys : List (Expr Func Pattern × OrderDir)) (n : Nat) :
    Shortens n (rt.order_by_op child keys (some n)) (rt.order_by_op child keys none) where
  schema := rfl
  may_emit_term := rfl
  stream := by
    intro hn
    unfold Runtime.order_by_op
    dsimp only
    cases rt.drain [] child.stream with
    | error why => rfl
    | ok rows =>
      simp only [Except.bind, bind]
      rw [compute_top_k_eq rt _ keys hn]
      cases compute_order_by rt.sort rt.executor rt.scope ⟨child.schema, rows⟩ keys with
      | error why => rfl
      | ok b => exact hand_out_take rt.batch_rows b.schema b.rows n

theorem Shortens.project {n : Nat} {op full : Op} (h : Shortens n op full) (vars : List Var) :
    Shortens n (project_op op vars) (project_op full vars) where
  schema := by
    unfold project_op
    rw [h.schema]
  may_emit_term := by
    unfold project_op
    rw [h.schema, h.may_emit_term]
  stream := by
    intro hn
    show op.stream.map (apply_project vars) = (full.stream.map (apply_project vars)).truncate n
    rw [h.stream hn]
    exact truncate_map (apply_project_first vars) (apply_project_length vars) n full.stream

/-- The offset and the limit of a slice take away all that a sort of its first rows left out. -/
theorem Shortens.slice {start len : Nat} {op full : Op} (h : Shortens (start + len) op full) :
    slice_op op start (some len) = slice_op full start (some len) := by
  have hstream :
      (slice_op op start (some len)).stream = (slice_op full start (some len)).stream := by
    unfold slice_op
    dsimp only
    split
    · rfl
    · rename_i hlen
      have hlen : len ≠ 0 := fun hzero => hlen (congrArg some hzero)
      rw [h.stream (by omega), slice_truncate full.stream start len hlen]
  unfold slice_op at hstream ⊢
  dsimp only at hstream
  rw [hstream, h.schema, h.may_emit_term]

variable (rt : Runtime Func Pattern)

/-- What a fused plan builds, beside the plan with a full sort. -/
def Fused (n : Nat) (full : Result Op) : Result (Option Op) → Prop
  | .ok none => True
  | .ok (some op) => ∃ child, full = .ok child ∧ Shortens n op child
  | .error e => full = .error e

theorem Fused.order_by (n : Nat) (inner : Result Op) (keys : List (Expr Func Pattern × OrderDir)) :
    Fused n (do let child ← inner; .ok (rt.order_by_op child keys none))
      (do let child ← inner; .ok (some (rt.order_by_op child keys (some n)))) := by
  cases inner with
  | error e => exact rfl
  | ok child => exact ⟨_, rfl, .order_by rt child keys n⟩

theorem Fused.project {n : Nat} {full : Result Op} {fused : Result (Option Op)}
    (h : Fused n full fused) (vars : List Var) :
    Fused n (do let child ← full; .ok (project_op child vars))
      (do
        match ← fused with
        | some child => .ok (some (project_op child vars))
        | none => .ok none) := by
  match fused, h with
  | .ok none, _ => trivial
  | .ok (some op), ⟨child, hfull, hop⟩ =>
    rw [hfull]
    exact ⟨_, rfl, hop.project vars⟩
  | .error e, h =>
    rw [show full = .error e from h]
    rfl

theorem Fused.slice {start len : Nat} {full : Result Op} {fused : Result (Option Op)}
    (h : Fused (start + len) full fused) :
    (do
      let fused ← fused
      let child ← match fused with
        | some op => .ok op
        | none => full
      .ok (slice_op child start (some len))) =
      (do let child ← full; .ok (slice_op child start (some len))) := by
  match fused, h with
  | .ok none, _ => rfl
  | .ok (some op), ⟨child, hfull, hop⟩ =>
    rw [hfull]
    exact congrArg Except.ok hop.slice
  | .error e, h =>
    rw [show full = .error e from h]
    rfl

theorem checked_add_eq_some {a b n : Nat} (h : checked_add a b = some n) : n = a + b := by
  unfold checked_add at h
  split at h
  · exact (Option.some.inj h).symm
  · cases h

theorem build_fused (plan : PhysicalPlan Func Pattern) :
    rt.build_scoped plan = rt.build_full plan ∧
      ∀ n, Fused n (rt.build_full plan) (rt.build_top_k n plan) := by
  induction plan with
  | Node Child inner build ih =>
    refine ⟨?_, fun n => ?_⟩
    · rw [Runtime.build_scoped, Runtime.build_full]
      congr 1
      funext child
      exact (ih child).1
    · simp [Runtime.build_top_k, Fused]
  | Project inner vars ih =>
    refine ⟨?_, fun n => ?_⟩
    · rw [Runtime.build_scoped, Runtime.build_full, ih.1]
    · rw [Runtime.build_top_k, Runtime.build_full]
      exact (ih.2 n).project vars
  | OrderBy inner keys ih =>
    refine ⟨?_, fun n => ?_⟩
    · rw [Runtime.build_scoped, Runtime.build_full, ih.1]
    · rw [Runtime.build_top_k, Runtime.build_full, ih.1]
      exact Fused.order_by rt n (rt.build_full inner) keys
  | Slice inner start length ih =>
    refine ⟨?_, fun n => ?_⟩
    · rw [Runtime.build_scoped, Runtime.build_full, ih.1]
      cases length with
      | none => rfl
      | some len =>
        rw [Option.bind_some]
        cases hadd : checked_add start len with
        | none => rfl
        | some n =>
          have hfused := ih.2 n
          rw [checked_add_eq_some hadd] at hfused ⊢
          exact hfused.slice
    · simp [Runtime.build_top_k, Fused]

/-- Every plan gives the stream that it gives with each sort a full one: the same chunks in the
same order, rows that compare equal among them, and the same failures. -/
theorem build_scoped_full (plan : PhysicalPlan Func Pattern) :
    rt.build_scoped plan = rt.build_full plan :=
  (build_fused rt plan).1

end horndb.sparql.exec
