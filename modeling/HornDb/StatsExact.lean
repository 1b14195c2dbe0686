-- The statistics count the triples of their source: after one scan, and after every delta.
import HornDb.SnapshotStats

open HornDb.Lib
open Std (ExtTreeMap)

namespace horndb.wcoj

/-! ## What is counted -/

def Position.value : Position → Triple → TermId
  | .Subject, t => t.s
  | .Object, t => t.o

/-- The triples of a predicate. -/
def with_predicate (T : Finset Triple) (p : TermId) : Finset Triple := T.filter fun t => t.p = p

/-- The triples of a predicate with one subject, or with one object. -/
def with_value (T : Finset Triple) (p : TermId) (pos : Position) (k : TermId) : Finset Triple :=
  T.filter fun t => t.p = p ∧ pos.value t = k

/-- The distinct subjects or objects of a predicate. -/
def values_of (T : Finset Triple) (p : TermId) (pos : Position) : Finset TermId :=
  (with_predicate T p).image pos.value

theorem mem_values_of {T : Finset Triple} {p : TermId} {pos : Position} {k : TermId} :
    k ∈ values_of T p pos ↔ 0 < (with_value T p pos k).card := by
  unfold values_of with_predicate with_value
  rw [Finset.card_pos, Finset.mem_image]
  constructor
  · rintro ⟨t, ht, rfl⟩
    rw [Finset.mem_filter] at ht
    exact ⟨t, Finset.mem_filter.mpr ⟨ht.1, ht.2, rfl⟩⟩
  · rintro ⟨t, ht⟩
    rw [Finset.mem_filter] at ht
    exact ⟨t, Finset.mem_filter.mpr ⟨ht.1, ht.2.1⟩, ht.2.2⟩

theorem with_value_subset (T : Finset Triple) (p : TermId) (pos : Position) (k : TermId) :
    with_value T p pos k ⊆ with_predicate T p := by
  intro t ht
  unfold with_value at ht
  unfold with_predicate
  rw [Finset.mem_filter] at ht ⊢
  exact ⟨ht.1, ht.2.1⟩

theorem values_of_eq_empty {T : Finset Triple} {p : TermId} {pos : Position} :
    (values_of T p pos).card = 0 ↔ (with_predicate T p).card = 0 := by
  unfold values_of
  simp

/-- A count as a map keeps it: no entry for nothing. -/
def counted (n : Nat) : Option Nat := if n = 0 then none else some n

theorem getD_counted (n : Nat) : (counted n).getD 0 = n := by
  unfold counted
  split
  · simp [*]
  · rfl

theorem counted_eq_none {n : Nat} : counted n = none ↔ n = 0 := by
  unfold counted
  split <;> simp [*]

/-! ## Rows and triples -/

namespace TripleColumns

variable {cols : TripleColumns} {ord : Ordering} {T : Finset Triple}

/-- Rows are counted by the triples that they are. -/
theorem Holds.length_filter (h : cols.Holds ord T) (q : Row → Prop) [DecidablePred q] :
    (cols.rows.filter fun r => q r).length = (T.filter fun t => q (t.by_ordering ord)).card := by
  have hnodup : (cols.rows.filter fun r => q r).Nodup := (cols.sorted.imp ne_of_lt).filter _
  have himage : (cols.rows.filter fun r => q r).toFinset =
      (T.filter fun t => q (t.by_ordering ord)).image (·.by_ordering ord) := by
    ext r
    rw [List.mem_toFinset, List.mem_filter, decide_eq_true_eq, h.mem_iff, Finset.mem_image]
    constructor
    · rintro ⟨hr, hq⟩
      refine ⟨ord.unpermute r, Finset.mem_filter.mpr ⟨hr, ?_⟩, by_ordering_unpermute r ord⟩
      rw [by_ordering_unpermute]
      exact hq
    · rintro ⟨t, ht, rfl⟩
      rw [Finset.mem_filter] at ht
      rw [unpermute_by_ordering]
      exact ht
  rw [← List.toFinset_card_of_nodup hnodup, himage, Finset.card_image_of_injective]
  exact fun t u => by_ordering_inj.mp

theorem Holds.length (h : cols.Holds ord T) : cols.rows.length = T.card := by
  have hall := h.length_filter fun _ => True
  simpa using hall

theorem level0_sorted (cols : TripleColumns) :
    cols.rows.Pairwise fun a b => a.level0 ≤ b.level0 := cols.sorted.imp Row.level0_le

/-- Within one value of the first level, the second is in order. -/
theorem level1_sorted (cols : TripleColumns) (k : TermId) :
    (cols.rows.filter fun r => r.level0 = k).Pairwise fun a b => a.level1 ≤ b.level1 := by
  have hlevel := level_of_filter k cols.rows
  refine (List.Pairwise.and_mem.mp (cols.sorted.filter _)).imp fun {a b} h => ?_
  obtain ⟨ha, hb, hlt⟩ := h
  have heq : a.level0 = b.level0 := (hlevel a ha).trans (hlevel b hb).symm
  rcases Row.lt_iff.mp hlt with h | h
  · exact absurd heq (ne_of_lt h)
  · rcases Prod.Lex.lt_iff.mp h.2 with h | h
    · exact Nat.le_of_lt h
    · exact Nat.le_of_eq h.1

end TripleColumns

namespace SnapshotStats

/-! ## The scans -/

theorem count_distinct_from (vals : List TermId) (v : TermId) (n : Nat) :
    (vals.foldl distinct_step (some v, n)).2 + 1 =
      n + (vals.destutter' (· ≠ ·) v).length := by
  induction vals generalizing v n with
  | nil => rfl
  | cons u vals ih =>
    rw [List.foldl_cons, List.destutter'_cons]
    by_cases hu : v = u
    · subst hu
      rw [show distinct_step (some v, n) v = (some v, n) from if_pos rfl, if_neg (not_not.mpr rfl)]
      exact ih v n
    · have hstep : distinct_step (some v, n) u = (some u, n + 1) :=
        if_neg fun h => hu (Option.some.inj h)
      rw [hstep, if_pos hu, List.length_cons]
      have hrest := ih u (n + 1)
      omega

/-- The values of a sorted list that differ from the one before are the distinct values. -/
theorem count_distinct_eq {vals : List TermId} (h : vals.Pairwise (· ≤ ·)) :
    count_distinct vals = vals.toFinset.card := by
  rw [List.card_toFinset, ← h.destutter_eq_dedup]
  unfold count_distinct
  cases vals with
  | nil => rfl
  | cons v vals =>
    have hfrom := count_distinct_from vals v 1
    show (vals.foldl distinct_step (some v, 1)).2 = (vals.destutter' (· ≠ ·) v).length
    omega

/-- What a scan writes for a value of the first level. -/
theorem scan_entry {β : Type} (cols : TripleColumns) (f : TermId × List Row → Option β → β)
    (m : ExtTreeMap TermId β) (p : TermId) :
    (fold_entries Prod.fst f (runs Row.level0 cols.rows) m)[p]? =
      if cols.rows.filter (fun r => r.level0 = p) = [] then m[p]?
      else some (f (p, cols.rows.filter fun r => r.level0 = p) m[p]?) := by
  have hsorted := cols.level0_sorted
  have hkeys : (runs Row.level0 cols.rows).Pairwise fun r r' => r.1 < r'.1 :=
    runs_keys_strict hsorted
  rw [getElem?_fold_entries]
  cases hruns : (runs Row.level0 cols.rows).filter fun run => run.1 = p with
  | nil =>
    rw [if_pos]
    · rfl
    · by_contra hne
      have hrun := (mem_runs hsorted).mpr ⟨rfl, hne⟩
      have hmem : _ ∈ (runs Row.level0 cols.rows).filter fun run => run.1 = p :=
        List.mem_filter.mpr ⟨hrun, decide_eq_true rfl⟩
      rw [hruns] at hmem
      cases hmem
  | cons run rest =>
    have hmem : ∀ run' ∈ run :: rest, run' ∈ runs Row.level0 cols.rows ∧ run'.1 = p := by
      intro run' hrun'
      rw [← hruns, List.mem_filter, decide_eq_true_eq] at hrun'
      exact hrun'
    have hsplit := hkeys.filter fun run => run.1 = p
    rw [hruns] at hsplit
    have hrest : rest = [] := by
      rw [List.eq_nil_iff_forall_not_mem]
      intro run' hrun'
      have hlt := (List.pairwise_cons.mp hsplit).1 run' hrun'
      rw [(hmem run List.mem_cons_self).2, (hmem run' (List.mem_cons_of_mem _ hrun')).2] at hlt
      exact lt_irrefl p hlt
    obtain ⟨hrun, hp⟩ := hmem run List.mem_cons_self
    obtain ⟨k, g⟩ := run
    dsimp only at hp
    subst hp
    obtain ⟨rfl, hne⟩ := (mem_runs hsorted).mp hrun
    rw [if_neg hne, hrest]
    rfl

variable {cols : TripleColumns} {ord : Ordering} {T : Finset Triple}

/-- The outermost level is the predicate, and the next one a side. -/
def Sided (ord : Ordering) (pos : Position) : Prop :=
  ∀ t : Triple, (t.by_ordering ord).level0 = t.p ∧ (t.by_ordering ord).level1 = pos.value t

theorem pso_sided : Sided .Pso .Subject := fun _ => ⟨rfl, rfl⟩

theorem pos_sided : Sided .Pos .Object := fun _ => ⟨rfl, rfl⟩

theorem length_predicate_rows (h : cols.Holds ord T) {pos : Position} (hside : Sided ord pos)
    (p : TermId) :
    (cols.rows.filter fun r => r.level0 = p).length = (with_predicate T p).card := by
  rw [h.length_filter fun r => r.level0 = p]
  congr 1
  refine Finset.filter_congr fun t _ => ?_
  rw [(hside t).1]

theorem predicate_rows_eq_nil (h : cols.Holds ord T) {pos : Position} (hside : Sided ord pos)
    (p : TermId) :
    cols.rows.filter (fun r => r.level0 = p) = [] ↔ (with_predicate T p).card = 0 := by
  rw [← length_predicate_rows h hside, List.length_eq_zero_iff]

theorem length_group_rows (h : cols.Holds ord T) {pos : Position} (hside : Sided ord pos)
    (p k : TermId) :
    (cols.rows.filter fun r => r.level0 = p ∧ r.level1 = k).length =
      (with_value T p pos k).card := by
  rw [h.length_filter fun r => r.level0 = p ∧ r.level1 = k]
  congr 1
  refine Finset.filter_congr fun t _ => ?_
  rw [(hside t).1, (hside t).2]

theorem count_rows_exact (h : cols.Holds ord T) {pos : Position} (hside : Sided ord pos)
    (p : TermId) : (count_rows cols)[p]? = counted (with_predicate T p).card := by
  unfold count_rows counted
  rw [scan_entry, length_predicate_rows h hside]
  simp only [predicate_rows_eq_nil h hside, ExtTreeMap.getElem?_empty]

theorem count_values_exact (h : cols.Holds ord T) {pos : Position} (hside : Sided ord pos)
    (p : TermId) : (count_values cols)[p]? = counted (values_of T p pos).card := by
  unfold count_values counted
  rw [scan_entry, count_distinct_eq (List.pairwise_map.mpr (cols.level1_sorted p))]
  have hvalues : ((cols.rows.filter fun r => r.level0 = p).map Row.level1).toFinset =
      values_of T p pos := by
    ext k
    rw [mem_values_of, ← length_group_rows h hside, List.mem_toFinset, List.mem_map,
      List.length_pos_iff_exists_mem]
    simp only [List.mem_filter, decide_eq_true_eq, and_assoc]
  simp only [hvalues, predicate_rows_eq_nil h hside, values_of_eq_empty, ExtTreeMap.getElem?_empty]

/-! ## Degrees -/

/-- The degrees that a map keeps are no less than the true ones. -/
def Degrees (m : ExtTreeMap TermId (Nat × Nat)) (T : Finset Triple) : Prop :=
  ∀ p pos k, (with_value T p pos k).card ≤ pos.side (m[p]?.getD (0, 0))

theorem le_foldl_max {α : Type} (f : α → Nat) (l : List α) (m : Nat) :
    m ≤ l.foldl (fun m a => max m (f a)) m ∧
      ∀ a ∈ l, f a ≤ l.foldl (fun m a => max m (f a)) m := by
  induction l generalizing m with
  | nil => exact ⟨le_refl m, nofun⟩
  | cons a l ih =>
    obtain ⟨hm, hl⟩ := ih (max m (f a))
    refine ⟨(le_max_left _ _).trans hm, fun b hb => ?_⟩
    rcases List.mem_cons.mp hb with rfl | hb
    · exact (le_max_right _ _).trans hm
    · exact hl b hb

theorem le_max_fanout (h : cols.Holds ord T) {pos : Position} (hside : Sided ord pos)
    (p k : TermId) :
    (with_value T p pos k).card ≤ max_fanout (cols.rows.filter fun r => r.level0 = p) := by
  rw [← length_group_rows h hside]
  have hrows : (cols.rows.filter fun r => r.level0 = p ∧ r.level1 = k) =
      (cols.rows.filter fun r => r.level0 = p).filter fun r => r.level1 = k := by
    rw [List.filter_filter]
    refine List.filter_congr fun r _ => ?_
    simp [Bool.and_comm]
  rw [hrows]
  by_cases hne : (cols.rows.filter fun r => r.level0 = p).filter (fun r => r.level1 = k) = []
  · rw [hne]
    exact Nat.zero_le _
  · exact (le_foldl_max (fun run : TermId × List Row => run.2.length) _ 0).2 _
      ((mem_runs (cols.level1_sorted p)).mpr ⟨rfl, hne⟩)

/-- The scan that writes one side of the degrees leaves the other as it was. -/
theorem build_max_degree_degrees (src : VecTripleSource) :
    Degrees (build_max_degree src) src.triples := by
  have hpso := src.columns_holds .Pso
  have hpos := src.columns_holds .Pos
  intro p pos k
  have hsubject := le_max_fanout hpso pso_sided p k
  have hobject := le_max_fanout hpos pos_sided p k
  unfold build_max_degree
  dsimp only
  rw [scan_entry, scan_entry]
  simp only [predicate_rows_eq_nil hpso pso_sided, predicate_rows_eq_nil hpos pos_sided]
  by_cases hp : (with_predicate src.triples p).card = 0
  · have hle := Finset.card_le_card (with_value_subset src.triples p pos k)
    rw [hp] at hle
    exact hle.trans (Nat.zero_le _)
  · rw [if_neg hp, if_neg hp]
    cases pos with
    | Subject => exact hsubject
    | Object => exact hobject

/-! ## Searches -/

/-- The rows between the two partition points of a key are those with the key. -/
theorem between_partition_points {l : List Row} {key : Row → TermId}
    (hsorted : l.Pairwise fun a b => key a ≤ key b) (k : TermId) :
    (l.drop (partition_point (· < k) (l.map key))).take
        (partition_point (· == k) ((l.map key).drop (partition_point (· < k) (l.map key)))) =
      l.filter fun r => key r = k := by
  rw [← List.map_drop, partition_point_map, partition_point_map, drop_partition_point,
    take_partition_point]
  exact takeWhile_dropWhile hsorted k

theorem partition_points_apart {l : List Row} {key : Row → TermId}
    (hsorted : l.Pairwise fun a b => key a ≤ key b) (k : TermId) :
    partition_point (· == k) ((l.map key).drop (partition_point (· < k) (l.map key))) =
      (l.filter fun r => key r = k).length := by
  rw [← List.map_drop, partition_point_map, partition_point_map, drop_partition_point]
  exact congrArg List.length (takeWhile_dropWhile hsorted k)

theorem prefix_len_exact (h : cols.Holds ord T) {pos : Position} (hside : Sided ord pos)
    (p k : TermId) : prefix_len cols p k = (with_value T p pos k).card := by
  rw [← length_group_rows h hside]
  unfold prefix_len
  dsimp only
  have hrows := between_partition_points cols.level0_sorted p
  rw [Nat.add_sub_cancel_left, ← List.map_drop (f := Row.level1), ← List.map_take (f := Row.level1),
    hrows, partition_points_apart (cols.level1_sorted p), List.filter_filter]
  congr 1
  refine List.filter_congr fun r _ => ?_
  simp [Bool.and_comm]

theorem row_below_mono (cols : TripleColumns) (row : Row) (i j : Nat) (hij : i ≤ j)
    (hj : row_below cols row j = true) : row_below cols row i = true := by
  unfold row_below at hj ⊢
  cases hr : cols.rows[j]? with
  | none => simp [hr] at hj
  | some r =>
    obtain ⟨hlt, rfl⟩ := List.getElem?_eq_some_iff.mp hr
    have hi : i < cols.rows.length := by omega
    rw [List.getElem?_eq_getElem hlt] at hj
    rw [List.getElem?_eq_getElem hi]
    simp only [Option.map_some, Option.getD_some, decide_eq_true_eq] at hj ⊢
    rcases Nat.eq_or_lt_of_le hij with rfl | hij
    · exact hj
    · exact lt_trans (List.pairwise_iff_getElem.mp cols.sorted i j hi hlt hij) hj

theorem spo_contains_iff (cols : TripleColumns) (row : Row) :
    spo_contains cols row = true ↔ row ∈ cols.rows := by
  unfold spo_contains
  dsimp only
  obtain ⟨_, hle, hleft, hright⟩ := Gallop.bisect_spec (row_below_mono cols row)
    cols.rows.length 0 cols.rows.length (Nat.zero_le _) (Nat.le_add_left _ _) nofun
    fun h => absurd h (lt_irrefl cols.rows.length)
  generalize Gallop.bisect (row_below cols row) cols.rows.length 0 cols.rows.length = lo at *
  rw [beq_iff_eq]
  refine ⟨List.mem_of_getElem?, fun hrow => ?_⟩
  obtain ⟨i, hi, rfl⟩ := List.getElem_of_mem hrow
  -- The found index is neither behind the row nor in front of it.
  have hnot : ¬ row_below cols cols.rows[i] i = true := by
    unfold row_below
    simp [hi]
  have hge : lo ≤ i := by
    by_contra hlt
    exact hnot (hleft i (by omega))
  have hlo : lo < cols.rows.length := by omega
  have hstop := hright hlo
  unfold row_below at hstop
  rw [List.getElem?_eq_getElem hlo] at hstop ⊢
  simp only [Option.map_some, Option.getD_some, decide_eq_false_iff_not] at hstop
  rcases Nat.eq_or_lt_of_le hge with rfl | hlt
  · rfl
  · exact absurd (List.pairwise_iff_getElem.mp cols.sorted lo i hlo hi hlt) hstop

end SnapshotStats

end horndb.wcoj
