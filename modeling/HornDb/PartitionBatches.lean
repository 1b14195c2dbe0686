-- The writes of one partition in batches: however a run of writes is divided into batches,
-- and wherever a read merges the runs, the merged rows are the same.
import HornDb.PartitionReads
import HornDb.PartitionApply

open HornDb.Lib

namespace horndb.storage

/-! ## Rows that merge alike -/

/-- A live row of the pair began at `n` or before. -/
def LiveBy (rows : List Row) (p : Pair) (n : Nat) : Prop :=
  ∃ r ∈ rows, r.pair = p ∧ r.is_live = true ∧ r.begin_stamp ≤ n

/-- The same ended rows, and for each pair the same earliest live row. -/
structure SameRows (a b : List Row) : Prop where
  ended : ∀ r, r.is_live = false → (r ∈ a ↔ r ∈ b)
  live : ∀ p n, LiveBy a p n ↔ LiveBy b p n

namespace SameRows

variable {a b c d : List Row}

theorem refl (a : List Row) : SameRows a a := ⟨fun _ _ => Iff.rfl, fun _ _ => Iff.rfl⟩

theorem symm (h : SameRows a b) : SameRows b a :=
  ⟨fun r hr => (h.ended r hr).symm, fun p n => (h.live p n).symm⟩

theorem trans (h : SameRows a b) (h' : SameRows b c) : SameRows a c :=
  ⟨fun r hr => (h.ended r hr).trans (h'.ended r hr), fun p n => (h.live p n).trans (h'.live p n)⟩

theorem liveBy_append (a b : List Row) (p : Pair) (n : Nat) :
    LiveBy (a ++ b) p n ↔ LiveBy a p n ∨ LiveBy b p n := by
  simp only [LiveBy, List.mem_append, or_and_right, exists_or]

theorem append (h : SameRows a b) (h' : SameRows c d) : SameRows (a ++ c) (b ++ d) := by
  refine ⟨fun r hr => ?_, fun p n => ?_⟩
  · rw [List.mem_append, List.mem_append, h.ended r hr, h'.ended r hr]
  · rw [liveBy_append, liveBy_append, h.live, h'.live]

/-- Sorting and merging keeps the ended rows and the earliest live ones. -/
theorem sort_dedup (rows : List Row) : SameRows (Columns.sort_dedup rows) rows := by
  have hperm := List.perm_insertionSort (fun a b : Row => a.key ≤ b.key) rows
  have hsub : ∀ r ∈ Columns.sort_dedup rows, r ∈ rows := fun r hr =>
    hperm.mem_iff.mp ((List.destutter_sublist _ _).subset hr)
  have hcovers : ∀ r ∈ rows, ∃ c ∈ Columns.sort_dedup rows, (c = r ∨ c.Duplicate r) ∧
      c.key ≤ r.key := by
    intro r hr
    have hsorted := Columns.sort_sorted rows
    rw [← hperm.mem_iff] at hr
    unfold Columns.sort_dedup
    generalize rows.insertionSort (fun a b => a.key ≤ b.key) = l at *
    cases l with
    | nil => cases hr
    | cons a l => exact Columns.destutter_covers l a hsorted r hr
  refine ⟨fun r hr => ⟨hsub r, fun hmem => ?_⟩, fun p n => ⟨?_, ?_⟩⟩
  · obtain ⟨c, hc, rfl | hdup, _⟩ := hcovers r hmem
    · exact hc
    · rw [hdup.2.2] at hr
      cases hr
  · rintro ⟨r, hr, h⟩
    exact ⟨r, hsub r hr, h⟩
  · rintro ⟨r, hr, hp, hl, hn⟩
    obtain ⟨c, hc, hdup, hle⟩ := hcovers r hr
    have hpair : c.pair = r.pair ∧ c.is_live = true := by
      rcases hdup with rfl | hdup
      · exact ⟨rfl, hl⟩
      · exact ⟨hdup.1, hdup.2.1⟩
    refine ⟨c, hc, hpair.1.trans hp, hpair.2, ?_⟩
    rcases Row.key_le_iff.mp hle with hlt | ⟨_, hb⟩
    · exact absurd hpair.1 hlt.ne
    · exact hb.trans hn

end SameRows

/-- Rows whose lifetimes come in order, as the versions up to some one left them. -/
structure InOrder (rows : List Row) : Prop where
  sorted : rows.Pairwise fun a b => a.key ≤ b.key
  follows : rows.Pairwise Row.Follows
  stamped : ∃ v, Stamped rows v

namespace InOrder

variable {a b : List Row}

theorem ascending (h : InOrder a) : a.Pairwise fun x y => x.key < y.key := by
  obtain ⟨v, hv⟩ := h.stamped
  refine List.Pairwise.imp_of_mem (fun {x y} hx _ hxy => ?_) (h.sorted.and h.follows)
  refine lt_of_le_of_ne hxy.1 fun heq => ?_
  have hpair : x.pair = y.pair := congrArg (fun k => (ofLex k).1) heq
  have hbegin : x.begin_stamp = y.begin_stamp := congrArg (fun k => (ofLex k).2) heq
  obtain ⟨e, he, hle⟩ := hxy.2 hpair
  have := (hv.ended x hx e he).1
  omega

theorem nodup (h : InOrder a) : a.Nodup := h.ascending.imp fun hlt => ne_of_apply_ne Row.key hlt.ne

/-- A pair has at most one live row. -/
theorem live_unique (h : InOrder a) {x y : Row} (hx : x ∈ a) (hy : y ∈ a)
    (hpair : x.pair = y.pair) (hxl : x.is_live = true) (hyl : y.is_live = true) : x = y := by
  have hnodup : ((a.filter Row.is_live).map Row.pair).Nodup :=
    (live_ascending h.follows h.sorted).imp fun hlt => hlt.ne
  exact List.inj_on_of_nodup_map hnodup (List.mem_filter.mpr ⟨hx, hxl⟩)
    (List.mem_filter.mpr ⟨hy, hyl⟩) hpair

/-- The earliest live row of a pair is its only one, so the same rows are there. -/
theorem subset_of_same (ha : InOrder a) (hsame : SameRows a b) : a ⊆ b := by
  intro r hr
  cases hl : r.is_live with
  | false => exact (hsame.ended r hl).mp hr
  | true =>
    obtain ⟨x, hx, hxp, hxl, hxn⟩ :=
      (hsame.live r.pair r.begin_stamp).mp ⟨r, hr, rfl, hl, Nat.le_refl _⟩
    obtain ⟨y, hy, hyp, hyl, hyn⟩ :=
      (hsame.live r.pair x.begin_stamp).mpr ⟨x, hx, hxp, hxl, Nat.le_refl _⟩
    obtain rfl := ha.live_unique hr hy hyp.symm hl hyl
    have hbegin : x.begin_stamp = r.begin_stamp := Nat.le_antisymm hxn hyn
    have heq : x = r := by
      obtain ⟨hs, ho⟩ := Prod.mk.inj (toLex.injective hxp)
      cases x
      cases r
      simp_all [Row.is_live]
    rwa [← heq]

theorem unique (ha : InOrder a) (hb : InOrder b) (hsame : SameRows a b) : a = b := by
  have hperm : a.Perm b := by
    rw [List.perm_ext_iff_of_nodup ha.nodup hb.nodup]
    exact fun r => ⟨fun h => ha.subset_of_same hsame h, fun h => hb.subset_of_same hsame.symm h⟩
  exact hperm.eq_of_pairwise (fun x y _ _ hxy hyx => absurd hxy hyx.not_gt) ha.ascending hb.ascending

end InOrder

/-! ## The state of a partition -/

/-- The rows of all runs, none when there is no partition. -/
def rows_of (part : Option PredicatePartition) : List Row :=
  part.elim [] PredicatePartition.all_rows

/-- The partition, if there is one, is as the versions up to `version` left it. -/
def KeptAt (part : Option PredicatePartition) (version : Nat) : Prop :=
  ∀ part', part = some part' → part'.Kept version

variable {part part' : Option PredicatePartition} {v v' : Nat}

theorem KeptAt.none (v : Nat) : KeptAt none v := nofun

theorem KeptAt.mono (h : KeptAt part v) (hv : v ≤ v') : KeptAt part v' :=
  fun part' hpart => (h part' hpart).mono hv

theorem same_merged (part : PredicatePartition) :
    SameRows part.merged_cols.rows part.all_rows := by
  rcases part.merged_cols_eq with ⟨run, _, hm, hall⟩ | hm
  · rw [hm, hall]
    exact SameRows.refl _
  · rw [hm]
    exact SameRows.sort_dedup _

theorem same_stored (part : Option PredicatePartition) :
    SameRows (stored_rows part) (rows_of part) := by
  cases part with
  | none => exact SameRows.refl []
  | some part => exact same_merged part

theorem KeptAt.in_order (h : KeptAt part v) : InOrder (stored_rows part) :=
  ⟨stored_ascending part, stored_follows h, v, stored_stamped h⟩

/-- Partitions whose runs hold rows that merge alike have the same merged rows. -/
theorem stored_unique (h : KeptAt part v) (h' : KeptAt part' v')
    (hsame : SameRows (rows_of part) (rows_of part')) : stored_rows part = stored_rows part' :=
  h.in_order.unique h'.in_order
    (((same_stored part).trans hsame).trans (same_stored part').symm)

theorem live_pair_liveBy (part : Option PredicatePartition) (p : Pair) :
    live_pair part p = true ↔ ∃ n, LiveBy (rows_of part) p n := by
  have hlive : live_pair part p = Columns.holds_live (rows_of part) p := by
    cases part <;> rfl
  rw [hlive, Columns.holds_live_iff]
  constructor
  · rintro ⟨r, hr, hp, hl⟩
    exact ⟨r.begin_stamp, r, hr, hp, hl, Nat.le_refl _⟩
  · rintro ⟨n, r, hr, hp, hl, _⟩
    exact ⟨r, hr, hp, hl⟩

/-! ## The writes -/

/-- New rows over a partition or none. -/
def insert_rows (part : Option PredicatePartition) (rows : List Row) : PredicatePartition :=
  part.elim (.build rows) fun part => part.with_appended_rows rows

/-- The partition with the live rows of the pairs ended. -/
def retracted (version : Nat) (dels : List Pair) (part : PredicatePartition) :
    PredicatePartition :=
  .build (part.merged_cols.rows.foldl (carry_row version dels) ⟨[], [], 0⟩).rows

/-- The partition without the rows that ended at the horizon or before. -/
def compacted (horizon : Nat) (part : PredicatePartition) : PredicatePartition :=
  warm_for_write (TierSnapshot.compact_partition horizon (.Warm part))

/-- These are the writes that the tier makes to a partition. -/
theorem insert_partition_eq (version : Nat) (partitions : GraphStore) (e : TermId × List Pair) :
    insert_partition version partitions e = partitions.insert e.1 (.Warm
      (insert_rows (partitions[e.1]?.map warm_for_write) (e.2.map (live_row version)))) := by
  unfold insert_partition insert_rows
  dsimp only
  cases partitions[e.1]? <;> rfl

theorem retract_partition_of_in_order (version : Nat) (st : GraphWrite) (e : TermId × List Pair) :
    (retract_partition version st e).partitions = match st.partitions[e.1]? with
      | none => st.partitions
      | some existing =>
        st.partitions.insert e.1 (.Warm (retracted version e.2 (warm_for_write existing))) := by
  unfold retract_partition
  cases st.partitions[e.1]? <;> rfl

/-! ### Insertions -/

theorem insert_rows_kept (h : KeptAt part v) (hv : v ≤ v') {rows : List Row}
    (hrows : ∀ r ∈ rows, r.is_live = true ∧ v ≤ r.begin_stamp ∧ r.begin_stamp ≤ v') :
    KeptAt (some (insert_rows part rows)) v' := by
  rintro _ ⟨⟩
  cases part with
  | none =>
    have := (stamped_nil v).append_later hv hrows
    exact PredicatePartition.build_kept this
  | some part => exact (h part rfl).append_later hv hrows

theorem same_insert (part : Option PredicatePartition) (rows : List Row) :
    SameRows (rows_of (some (insert_rows part rows))) (rows_of part ++ rows) := by
  cases part with
  | none =>
    show SameRows (PredicatePartition.all_rows ⟨[.from_rows rows]⟩) ([] ++ rows)
    rw [PredicatePartition.all_rows_single, List.nil_append]
    exact SameRows.sort_dedup rows
  | some part =>
    have happ : SameRows (PredicatePartition.all_rows ⟨part.runs ++ [.from_rows rows]⟩)
        (part.all_rows ++ rows) := by
      rw [PredicatePartition.all_rows, List.flatMap_append, List.flatMap_singleton]
      exact (SameRows.refl _).append (SameRows.sort_dedup rows)
    show SameRows (part.with_appended_rows rows).all_rows (part.all_rows ++ rows)
    unfold PredicatePartition.with_appended_rows
    dsimp only
    split
    · rw [PredicatePartition.read, PredicatePartition.all_rows_single]
      exact (same_merged _).trans happ
    · exact happ

/-! ### Additions -/

theorem append_run_after (version : Nat) (part : Option PredicatePartition) {targets : List Pair}
    (hasc : targets.Pairwise (· < ·)) :
    (append_run version part targets).after part =
      let fresh := (targets.filter fun p => !live_pair part p).map (live_row version)
      if fresh.isEmpty then part else some (insert_rows part fresh) := by
  rw [append_run_eq version part hasc]
  dsimp only
  split <;> rfl

theorem append_run_kept (h : KeptAt part v) (hv : v ≤ v') {targets : List Pair}
    (hasc : targets.Pairwise (· < ·)) : KeptAt ((append_run v' part targets).after part) v' := by
  rw [append_run_after v' part hasc]
  dsimp only
  split
  · exact h.mono hv
  · refine insert_rows_kept h hv fun r hr => ?_
    obtain ⟨q, _, rfl⟩ := List.mem_map.mp hr
    exact ⟨rfl, hv, Nat.le_refl v'⟩

theorem liveBy_live_rows (version : Nat) (pairs : List Pair) (p : Pair) (n : Nat) :
    LiveBy (pairs.map (live_row version)) p n ↔ p ∈ pairs ∧ version ≤ n := by
  constructor
  · rintro ⟨r, hr, hp, _, hn⟩
    obtain ⟨q, hq, rfl⟩ := List.mem_map.mp hr
    exact ⟨(hp : q = p) ▸ hq, hn⟩
  · rintro ⟨hp, hn⟩
    exact ⟨live_row version p, List.mem_map_of_mem hp, rfl, rfl, hn⟩

/-- What additions of one version leave: the pairs that were not live begin there. -/
structure AddedRows (before after : List Row) (version : Nat) (pairs : List Pair) : Prop where
  ended : ∀ r, r.is_live = false → (r ∈ after ↔ r ∈ before)
  live : ∀ p n, LiveBy after p n ↔
    LiveBy before p n ∨ (p ∈ pairs ∧ (∀ m, ¬ LiveBy before p m) ∧ version ≤ n)

theorem append_run_rows (version : Nat) (part : Option PredicatePartition) {targets : List Pair}
    (hasc : targets.Pairwise (· < ·)) :
    AddedRows (rows_of part) (rows_of ((append_run version part targets).after part)) version
      targets := by
  have hnot : ∀ p, live_pair part p = false ↔ ∀ m, ¬ LiveBy (rows_of part) p m := by
    intro p
    rw [Bool.eq_false_iff, Ne, live_pair_liveBy, not_exists]
  have hsame : SameRows (rows_of ((append_run version part targets).after part))
      (rows_of part ++ (targets.filter fun p => !live_pair part p).map (live_row version)) := by
    rw [append_run_after version part hasc]
    dsimp only
    split
    · rename_i hempty
      rw [List.isEmpty_iff.mp hempty, List.append_nil]
      exact SameRows.refl _
    · exact same_insert part _
  refine ⟨fun r hr => ?_, fun p n => ?_⟩
  · rw [hsame.ended r hr, List.mem_append]
    refine or_iff_left fun hmem => ?_
    obtain ⟨q, _, rfl⟩ := List.mem_map.mp hmem
    cases hr
  · rw [hsame.live, SameRows.liveBy_append, liveBy_live_rows, List.mem_filter, Bool.not_eq_true',
      hnot, and_assoc]

/-! ### Rebuilds -/

/-- The rows of a batch that deletes, before they are sorted. -/
def rebuilt_rows (version : Nat) (dels adds : List Pair) (rows : List Row) : List Row :=
  let carried := rows.foldl (carry_row version dels) ⟨[], [], 0⟩
  (adds.foldl (add_row version) ⟨carried.rows, carried.still_visible, 0⟩).rows

/-- What a batch that deletes leaves is made of the merged rows. -/
theorem apply_rows (version : Nat) (part : Option PredicatePartition) (dels : List Pair)
    (adds : Option (List Pair)) :
    rows_of ((apply_partition version part (some dels) adds).after part) =
      Columns.sort_dedup (rebuilt_rows version dels (adds.getD []) (stored_rows part)) := by
  simp only [apply_partition]
  split
  · rename_i hnone
    rw [Bool.and_eq_true, Option.isNone_iff_eq_none, Option.isNone_iff_eq_none] at hnone
    obtain ⟨rfl, rfl⟩ := hnone
    rfl
  · rw [rebuild_eq]
    exact PredicatePartition.all_rows_single _

theorem apply_kept (h : KeptAt part v) (hv : v < v') (dels : List Pair)
    {adds : Option (List Pair)} (hasc : ∀ targets, adds = some targets → targets.Pairwise (· < ·)) :
    KeptAt ((apply_partition v' part (some dels) adds).after part) v' :=
  (apply_partition_applied h hv (some dels) hasc).wrote.kept

theorem retracted_rows_of (version : Nat) (part : Option PredicatePartition) (dels : List Pair) :
    rows_of (part.map (retracted version dels)) =
      Columns.sort_dedup ((stored_rows part).foldl (carry_row version dels) ⟨[], [], 0⟩).rows := by
  cases part with
  | none => rfl
  | some part => exact PredicatePartition.all_rows_single _

theorem retracted_kept (h : KeptAt part v) (hv : v < v') (dels : List Pair) :
    KeptAt (part.map (retracted v' dels)) v' := by
  cases part with
  | none => exact KeptAt.none v'
  | some part => exact (retracted_rows h hv dels).wrote.kept

/-! ### Compaction -/

/-- The row ended at the horizon or before. -/
def reclaimed (horizon : Nat) (r : Row) : Bool := r.end_stamp.any fun e => decide (e ≤ horizon)

theorem compacted_eq (horizon : Nat) (part : PredicatePartition) :
    compacted horizon part =
      if part.merged_cols.rows.any (reclaimed horizon) then
        .build (part.merged_cols.rows.filter fun r => !reclaimed horizon r)
      else part := by
  unfold compacted TierSnapshot.compact_partition
  dsimp only
  cases hany : part.merged_cols.rows.any (reclaimed horizon) with
  | false =>
    have hnone : (part.has_retractions && part.merged_cols.rows.any fun r =>
        r.end_stamp.any fun e => decide (e ≤ horizon)) = false := by
      rw [show (part.merged_cols.rows.any fun r => r.end_stamp.any fun e => decide (e ≤ horizon)) =
        part.merged_cols.rows.any (reclaimed horizon) from rfl, hany, Bool.and_false]
    rw [hnone]
    rfl
  | true =>
    -- A row that is reclaimed was retracted.
    have hretracted : part.has_retractions = true := by
      obtain ⟨r, hr, hrec⟩ := List.any_eq_true.mp hany
      refine List.any_eq_true.mpr ⟨r, hr, ?_⟩
      obtain ⟨e, he, _⟩ := (Option.any_eq_true _ _).mp hrec
      rw [Row.is_live, he]
      rfl
    have hsome : (part.has_retractions && part.merged_cols.rows.any fun r =>
        r.end_stamp.any fun e => decide (e ≤ horizon)) = true := by
      rw [hretracted, Bool.true_and]
      exact hany
    rw [hsome]
    rfl

theorem same_compacted (horizon : Nat) (part : Option PredicatePartition) :
    SameRows (rows_of (part.map (compacted horizon)))
      ((stored_rows part).filter fun r => !reclaimed horizon r) := by
  cases part with
  | none => exact SameRows.refl []
  | some part =>
    show SameRows (compacted horizon part).all_rows
      (part.merged_cols.rows.filter fun r => !reclaimed horizon r)
    rw [compacted_eq]
    split
    · rw [PredicatePartition.build, PredicatePartition.all_rows_single]
      exact SameRows.sort_dedup _
    · rename_i hnone
      rw [List.any_eq_true, not_exists] at hnone
      have hall : (part.merged_cols.rows.filter fun r => !reclaimed horizon r) =
          part.merged_cols.rows := by
        refine List.filter_eq_self.mpr fun r hr => ?_
        rw [Bool.not_eq_true', Bool.eq_false_iff]
        exact fun hrec => hnone r ⟨hr, hrec⟩
      rw [hall]
      exact (same_merged part).symm

theorem compacted_kept (h : KeptAt part v) (horizon : Nat) :
    KeptAt (part.map (compacted horizon)) v := by
  cases part with
  | none => exact KeptAt.none v
  | some part =>
    rintro _ ⟨⟩
    rw [compacted_eq]
    split
    · exact PredicatePartition.build_kept
        ((h part rfl).merged_stamped.sublist List.filter_sublist)
    · exact h part rfl

/-! ## Runs of writes -/

/-- A write of a partition at a version of the tier. -/
inductive Write where
  /-- A pair of a bulk insertion, live before or not. -/
  | Insert (version : Nat) (pair : Pair)
  /-- A pair that a batch adds, where the batch deletes nothing of the predicate. -/
  | Add (version : Nat) (pair : Pair)
  /-- The deletions of a batch, and the pairs it adds after them. -/
  | Apply (version : Nat) (dels : List Pair) (adds : Option (List Pair))
  | Retract (version : Nat) (dels : List Pair)
  | Compact (horizon : Nat)

namespace Write

/-- The write as a batch of its own. -/
def alone (part : Option PredicatePartition) : Write → Option PredicatePartition
  | .Insert version pair => some (insert_rows part [live_row version pair])
  | .Add version pair => (append_run version part [pair]).after part
  | .Apply version dels adds =>
    (apply_partition version part (some dels) (adds.map sort_targets)).after part
  | .Retract version dels => part.map (retracted version dels)
  | .Compact horizon => part.map (compacted horizon)

end Write

/-- The partition after the writes, each made alone and none of them read. -/
def one_by_one (script : List Write) : Option PredicatePartition := script.foldl Write.alone none

/-- The partition that the writes can leave at a version, divided into batches in some way,
with reads in between. The insertions of a batch may bring rows of several versions, and the
additions have one. -/
inductive Batched : List Write → Nat → Option PredicatePartition → Prop
  | start : Batched [] 0 none
  | insert {script : List Write} {v v' : Nat} {part : Option PredicatePartition}
      (before : Batched script v part) (batch : List (Nat × Pair)) (later : v ≤ v')
      (in_time : (v :: batch.map Prod.fst).Pairwise (· ≤ ·)) (no_later : ∀ b ∈ batch, b.1 ≤ v') :
      Batched (script ++ batch.map fun b => .Insert b.1 b.2) v'
        (some (insert_rows part (batch.map fun b => live_row b.1 b.2)))
  | add {script : List Write} {v v' : Nat} {part : Option PredicatePartition}
      (before : Batched script v part) (in_time : v ≤ v') (pairs : List Pair) :
      Batched (script ++ pairs.map (.Add v')) v'
        ((append_run v' part (sort_targets pairs)).after part)
  | apply {script : List Write} {v v' : Nat} {part : Option PredicatePartition}
      (before : Batched script v part) (in_time : v < v') (dels : List Pair)
      (adds : Option (List Pair)) :
      Batched (script ++ [.Apply v' dels adds]) v'
        ((apply_partition v' part (some dels) (adds.map sort_targets)).after part)
  | retract {script : List Write} {v v' : Nat} {part : Option PredicatePartition}
      (before : Batched script v part) (in_time : v < v') (dels : List Pair) :
      Batched (script ++ [.Retract v' dels]) v' (part.map (retracted v' dels))
  | compact {script : List Write} {v : Nat} {part : Option PredicatePartition}
      (before : Batched script v part) (horizon : Nat) :
      Batched (script ++ [.Compact horizon]) v (part.map (compacted horizon))
  | read {script : List Write} {v : Nat} {part : PredicatePartition}
      (before : Batched script v (some part)) : Batched script v (some part.read)

/-! ## Batches of one -/

/-- Two partitions whose runs hold rows that merge alike, both as of the version. -/
structure Alike (part part' : Option PredicatePartition) (version : Nat) : Prop where
  left : KeptAt part version
  right : KeptAt part' version
  same : SameRows (rows_of part) (rows_of part')

theorem Alike.stored (h : Alike part part' v) : stored_rows part = stored_rows part' :=
  stored_unique h.left h.right h.same

theorem inserted_alone (batch : List (Nat × Pair)) :
    ∀ {part : Option PredicatePartition} {v : Nat}, KeptAt part v →
      (v :: batch.map Prod.fst).Pairwise (· ≤ ·) → (∀ b ∈ batch, b.1 ≤ v') → v ≤ v' →
        let after := (batch.map fun b => Write.Insert b.1 b.2).foldl Write.alone part
        KeptAt after v' ∧
          SameRows (rows_of after) (rows_of part ++ batch.map fun b => live_row b.1 b.2) := by
  induction batch with
  | nil =>
    intro part v h _ _ hv
    refine ⟨h.mono hv, ?_⟩
    simpa using SameRows.refl (rows_of part)
  | cons b batch ih =>
    intro part v h htime hover _
    rw [List.map_cons, List.pairwise_cons] at htime
    have hb : v ≤ b.1 := htime.1 b.1 List.mem_cons_self
    have hone : KeptAt (some (insert_rows part [live_row b.1 b.2])) b.1 := by
      refine insert_rows_kept h hb fun r hr => ?_
      obtain rfl := List.mem_singleton.mp hr
      exact ⟨rfl, hb, Nat.le_refl _⟩
    obtain ⟨hkept, hsame⟩ := ih hone htime.2 (fun c hc => hover c (List.mem_cons_of_mem _ hc))
      (hover b List.mem_cons_self)
    refine ⟨hkept, hsame.trans ?_⟩
    have happ := (same_insert part [live_row b.1 b.2]).append
      (SameRows.refl (batch.map fun b => live_row b.1 b.2))
    rwa [List.append_assoc] at happ

theorem added_alone (pairs : List Pair) :
    ∀ {part : Option PredicatePartition}, KeptAt part v' →
      let after := (pairs.map (Write.Add v')).foldl Write.alone part
      KeptAt after v' ∧ AddedRows (rows_of part) (rows_of after) v' pairs := by
  induction pairs with
  | nil =>
    intro part h
    exact ⟨h, fun _ _ => Iff.rfl, fun p n => by simp⟩
  | cons q pairs ih =>
    intro part h
    have hone := append_run_rows v' part (List.pairwise_singleton (· < ·) q)
    obtain ⟨hkept, hrows⟩ := ih (append_run_kept h (Nat.le_refl v')
      (List.pairwise_singleton (· < ·) q))
    refine ⟨hkept, fun r hr => (hrows.ended r hr).trans (hone.ended r hr), fun p n => ?_⟩
    -- A pair that this addition made live is passed over later.
    have hlive : (∀ m, ¬ LiveBy (rows_of ((append_run v' part [q]).after part)) p m) ↔
        (∀ m, ¬ LiveBy (rows_of part) p m) ∧ p ≠ q := by
      simp only [hone.live, List.mem_singleton, not_or, forall_and]
      refine and_congr_right fun hnone => ⟨fun h heq => ?_, fun hne m h => hne h.1⟩
      exact h v' ⟨heq, hnone, Nat.le_refl v'⟩
    refine (hrows.live p n).trans ?_
    rw [hone.live, hlive, List.mem_singleton, List.mem_cons]
    by_cases hpq : p = q
    · simp [hpq]
    · simp [hpq]

theorem AddedRows.same {a b a' b' : List Row} {pairs pairs' : List Pair}
    (h : AddedRows a a' v pairs) (h' : AddedRows b b' v pairs') (hsame : SameRows a b)
    (hpairs : ∀ p, p ∈ pairs ↔ p ∈ pairs') : SameRows a' b' := by
  refine ⟨fun r hr => ?_, fun p n => ?_⟩
  · rw [h.ended r hr, h'.ended r hr, hsame.ended r hr]
  · rw [h.live, h'.live, hpairs]
    simp only [hsame.live]

/-- However the writes are batched, the partition holds rows that merge as those of the same
writes made one by one. -/
theorem Batched.alike {script : List Write} (h : Batched script v part) :
    Alike part (one_by_one script) v := by
  have hsorted : ∀ {adds : Option (List Pair)} (targets : List Pair),
      adds.map sort_targets = some targets → targets.Pairwise (· < ·) := by
    intro adds targets hadds
    obtain ⟨pairs, _, rfl⟩ := Option.map_eq_some_iff.mp hadds
    exact sort_targets_ascending pairs
  induction h with
  | start => exact ⟨KeptAt.none 0, KeptAt.none 0, SameRows.refl []⟩
  | @insert script v v' part before batch hv htime hover ih =>
    obtain ⟨hkept, hsame⟩ := inserted_alone batch ih.right htime hover hv
    rw [one_by_one, List.foldl_append]
    refine ⟨insert_rows_kept ih.left hv fun r hr => ?_, hkept, ?_⟩
    · obtain ⟨b, hb, rfl⟩ := List.mem_map.mp hr
      exact ⟨rfl, (List.pairwise_cons.mp htime).1 b.1 (List.mem_map_of_mem hb), hover b hb⟩
    · exact ((same_insert part _).trans (ih.same.append (SameRows.refl _))).trans hsame.symm
  | @add script v v' part before htime pairs ih =>
    have hasc := sort_targets_ascending pairs
    obtain ⟨hkept, hrows⟩ := added_alone pairs (ih.right.mono htime)
    rw [one_by_one, List.foldl_append]
    exact ⟨append_run_kept ih.left htime hasc, hkept,
      (append_run_rows v' part hasc).same hrows ih.same fun p => mem_sort_targets⟩
  | @apply script v v' part before htime dels adds ih =>
    rw [one_by_one, List.foldl_append]
    refine ⟨apply_kept ih.left htime dels hsorted, apply_kept ih.right htime dels hsorted, ?_⟩
    rw [apply_rows, ih.stored, ← apply_rows]
    exact SameRows.refl _
  | @retract script v v' part before htime dels ih =>
    rw [one_by_one, List.foldl_append]
    refine ⟨retracted_kept ih.left htime dels, retracted_kept ih.right htime dels, ?_⟩
    rw [retracted_rows_of, ih.stored, ← retracted_rows_of]
    exact SameRows.refl _
  | @compact script v part before horizon ih =>
    rw [one_by_one, List.foldl_append]
    refine ⟨compacted_kept ih.left horizon, compacted_kept ih.right horizon, ?_⟩
    have hsame := same_compacted horizon part
    rw [ih.stored] at hsame
    exact hsame.trans (same_compacted horizon _).symm
  | @read script v part before ih =>
    refine ⟨?_, ih.right, ?_⟩
    · rintro _ ⟨⟩
      exact (ih.left part rfl).read
    · have hread : rows_of (some part.read) = part.merged_cols.rows :=
        PredicatePartition.all_rows_single _
      rw [hread]
      exact (same_merged part).trans ih.same

/-! ## The reads agree -/

/-- The reads of a partition in any state of its layouts, the last write being of `version`. -/
structure ReadsAgree (l : Layouts) (version : Nat) : Prop where
  /-- The probe of the runs answers as the lookup in the merged rows does, at the latest
  version as at any other from the last write on. -/
  probed : ∀ targets at_version, targets.Pairwise (· < ·) → version ≤ at_version →
    l.part.mark_live targets =
      targets.map fun p => l.part.contains_at (ofLex p).1 (ofLex p).2 at_version
  /-- A lookup finds just what the scan gives. -/
  found : ∀ p at_version,
    l.part.contains_at (ofLex p).1 (ofLex p).2 at_version = true ↔ p ∈ l.part.scan_at at_version
  /-- Each ordering gives the pairs of the scan, each once, in the order of its axis. -/
  ordered : ∀ ord at_version,
    (l.ordered_at ord at_version).subject_object.Perm (l.part.scan_at at_version) ∧
      ((l.ordered_at ord at_version).scan.map toLex).Pairwise (· < ·)
  counted : ∀ at_version, version ≤ at_version →
    l.part.live_len = (l.part.scan_at at_version).length
  /-- The way without tests gives what the tests give. -/
  untested : ∀ at_version,
    l.part.scan_at at_version =
        (l.part.merged_cols.rows.filter fun r => r.visible at_version).map Row.pair ∧
      ∀ ord, l.ordered_at ord at_version =
        ⟨ord.axis, ((l.part.merged_cols.axis_rows ord.axis).filter fun r =>
          r.visible at_version).map fun r => r.levels ord.axis⟩

/-- A version sees one row of a pair at most. -/
theorem scan_at_nodup {part : PredicatePartition} (h : part.Kept v) (at_version : Nat) :
    (part.scan_at at_version).Nodup := by
  rw [PredicatePartition.scan_at_eq, List.Nodup, List.pairwise_map, List.pairwise_filter]
  refine h.merged_follows.imp fun {a b} hf ha hb heq => ?_
  obtain ⟨e, he, hle⟩ := hf heq
  have h1 := (Row.visible_iff.mp ha).2 e he
  have h2 := (Row.visible_iff.mp hb).1
  omega

theorem reads_agree (l : Layouts) (h : l.part.Kept v) : ReadsAgree l v where
  probed targets at_version hasc hv := by
    rw [l.part.mark_live_spec hasc]
    apply List.map_congr_left
    intro p _
    rw [Bool.eq_iff_iff, l.part.contains_at_iff, l.part.seen_merged, h.stamped.seen_iff_live hv]
    exact Columns.holds_live_iff
  found p at_version := by
    rw [l.part.contains_at_iff, l.part.seen_merged, l.part.mem_scan_at]
  ordered ord at_version := by
    have hperm := l.ordered_at_perm ord at_version
    refine ⟨hperm, ?_⟩
    have hnodup : ((l.ordered_at ord at_version).scan.map toLex).Nodup := by
      have hpairs := hperm.nodup_iff.mpr (scan_at_nodup h at_version)
      unfold OrderedColumns.subject_object at hpairs
      unfold OrderedColumns.scan
      split at hpairs
      · rw [List.nodup_map_iff toLex.injective]
        exact List.Nodup.of_map _ hpairs
      · exact hpairs
    exact ((l.ordered_at_sorted ord at_version).and hnodup).imp fun h => lt_of_le_of_ne h.1 h.2
  counted at_version hv := by
    rw [PredicatePartition.scan_at_eq, List.length_map, ← List.countP_eq_length_filter]
    exact List.countP_congr fun r hr => (h.merged_stamped.visible_iff_live hv hr).symm
  untested at_version := ⟨l.part.scan_at_eq at_version, fun ord => l.ordered_at_eq ord at_version⟩

/-- The same writes leave the same merged columns. -/
theorem Batched.merged_cols_unique {script : List Write} {part part' : PredicatePartition}
    (h : Batched script v (some part)) (h' : Batched script v' (some part')) :
    part'.merged_cols = part.merged_cols := by
  have hrows : part'.merged_cols.rows = part.merged_cols.rows :=
    h'.alike.stored.trans h.alike.stored.symm
  cases hcols : part'.merged_cols
  cases hcols' : part.merged_cols
  rw [hcols, hcols'] at hrows
  cases hrows
  rfl

/-- However the writes of a partition are batched, and in any state of its layouts, its reads
agree, and its merged columns are those of any other batching of the same writes. -/
theorem batched_reads_agree {script : List Write} {part : PredicatePartition}
    (h : Batched script v (some part)) :
    (∀ l : Layouts, l.part = part → ReadsAgree l v) ∧
      ∀ v' part', Batched script v' (some part') → part'.merged_cols = part.merged_cols := by
  refine ⟨fun l hl => ?_, fun v' part' h' => h.merged_cols_unique h'⟩
  subst hl
  exact reads_agree l (h.alike.left l.part rfl)

/-- Two pairs inserted, one of them retracted and added again. -/
def again : List Write :=
  [.Insert 1 (toLex (7, 1)), .Insert 2 (toLex (8, 1)), .Retract 3 [toLex (7, 1)],
    .Add 4 (toLex (7, 1))]

/-- The two insertions are one batch here. -/
theorem again_agrees :
    ∃ part, Batched again 4 (some part) ∧
      (∀ l : Layouts, l.part = part → ReadsAgree l 4) ∧
      ∀ v' part', Batched again v' (some part') → part'.merged_cols = part.merged_cols := by
  have htwo : Batched (again.take 2) 2 _ := Batched.start.insert
    [(1, toLex (7, 1)), (2, toLex (8, 1))] (Nat.zero_le 2) (by decide) (by decide)
  have hall := (htwo.retract (by decide : 2 < 3) [toLex (7, 1)]).add (by decide : 3 ≤ 4)
    [toLex (7, 1)]
  exact ⟨_, hall, batched_reads_agree hall⟩

end horndb.storage
