-- What a write does to one partition: versions before it see what they saw, and from it on
-- the deleted pairs are gone and the added ones are there.
import HornDb.MemoryTier
import HornDb.PartitionRows

open HornDb.Lib

namespace horndb.storage

/-! ## Rows added and rows ended -/

theorem seen_append (rows more : List Row) (p : Pair) (v : Nat) :
    Seen (rows ++ more) p v ↔ Seen rows p v ∨ Seen more p v := by
  simp only [Seen, List.mem_append, or_and_right, exists_or]

theorem live_row_pair (v : Nat) (p : Pair) : (live_row v p).pair = p := rfl

theorem seen_live_rows (v : Nat) (adds : List Pair) (p : Pair) (w : Nat) :
    Seen (adds.map (live_row v)) p w ↔ p ∈ adds ∧ v ≤ w := by
  constructor
  · rintro ⟨r, hr, hp, hv⟩
    obtain ⟨q, hq, rfl⟩ := List.mem_map.mp hr
    rw [live_row_pair] at hp
    exact ⟨hp ▸ hq, (Row.visible_iff.mp hv).1⟩
  · rintro ⟨hp, hv⟩
    exact ⟨live_row v p, List.mem_map_of_mem hp, rfl, (Row.visible_of_live rfl).mpr hv⟩

/-- Live rows that began after all the ends before them. -/
theorem Stamped.append_later {rows more : List Row} {v v' : Nat} (h : Stamped rows v)
    (hv : v ≤ v') (hmore : ∀ r ∈ more, r.is_live = true ∧ v ≤ r.begin_stamp ∧ r.begin_stamp ≤ v') :
    Stamped (rows ++ more) v' := by
  refine ⟨fun r hr => ?_, fun r hr e he => ?_, List.pairwise_append.mpr ⟨h.apart, ?_, ?_⟩⟩
  · rcases List.mem_append.mp hr with hr | hr
    · exact (h.begun r hr).trans hv
    · exact (hmore r hr).2.2
  · rcases List.mem_append.mp hr with hr | hr
    · exact ⟨(h.ended r hr e he).1, (h.ended r hr e he).2.trans hv⟩
    · rw [Row.is_live_iff.mp (hmore r hr).1] at he
      cases he
  · refine List.Pairwise.imp_of_mem (fun {r n} hr hn _ => ?_)
      (List.pairwise_of_forall fun _ _ => trivial)
    by_cases hp : r.pair = n.pair
    · exact Or.inr (Or.inr ⟨hp, (hmore r hr).1, (hmore n hn).1⟩)
    · exact Or.inl fun hp' => absurd hp' hp
  · intro r hr n hn
    cases he : r.end_stamp with
    | some e => exact Or.inl fun _ => ⟨e, he, (h.ended r hr e he).2.trans (hmore n hn).2.1⟩
    | none =>
      by_cases hp : r.pair = n.pair
      · exact Or.inr (Or.inr ⟨hp, Row.is_live_iff.mpr he, (hmore n hn).1⟩)
      · exact Or.inl fun hp' => absurd hp' hp

theorem Stamped.append_live {rows : List Row} {v : Nat} (h : Stamped rows v) (adds : List Pair) :
    Stamped (rows ++ adds.map (live_row v)) v := by
  refine h.append_later (Nat.le_refl v) fun r hr => ?_
  obtain ⟨q, _, rfl⟩ := List.mem_map.mp hr
  exact ⟨rfl, Nat.le_refl v, Nat.le_refl v⟩

theorem stamped_nil (v : Nat) : Stamped [] v :=
  ⟨fun _ hr => absurd hr List.not_mem_nil, fun _ hr => absurd hr List.not_mem_nil, .nil⟩

theorem stamped_live (v : Nat) (adds : List Pair) : Stamped (adds.map (live_row v)) v :=
  (stamped_nil v).append_live adds

/-- The row after the deletions of a write. -/
def stamp (version : Nat) (dels : List Pair) (r : Row) : Row :=
  if r.is_live && dels.contains r.pair then { r with end_stamp := some version } else r

theorem stamp_pair (v : Nat) (dels : List Pair) (r : Row) : (stamp v dels r).pair = r.pair := by
  unfold stamp
  split
  · rfl
  · rfl

theorem stamp_begin (v : Nat) (dels : List Pair) (r : Row) :
    (stamp v dels r).begin_stamp = r.begin_stamp := by
  unfold stamp
  split
  · rfl
  · rfl

theorem stamp_end (v : Nat) (dels : List Pair) (r : Row) :
    (stamp v dels r).end_stamp =
      if r.end_stamp = none ∧ r.pair ∈ dels then some v else r.end_stamp := by
  unfold stamp
  by_cases h : r.end_stamp = none ∧ r.pair ∈ dels
  · rw [if_pos h, if_pos]
    rw [Bool.and_eq_true, Row.is_live_iff, List.contains_iff_mem]
    exact h
  · rw [if_neg h, if_neg]
    rw [Bool.and_eq_true, Row.is_live_iff, List.contains_iff_mem]
    exact h

theorem Row.Follows.stamp {a b : Row} (h : a.Follows b) (v : Nat) (dels : List Pair) :
    (stamp v dels a).Follows (stamp v dels b) := by
  intro hp
  rw [stamp_pair, stamp_pair] at hp
  obtain ⟨e, he, hle⟩ := h hp
  refine ⟨e, ?_, (stamp_begin v dels b).symm ▸ hle⟩
  rw [stamp_end, if_neg, he]
  rw [he]
  exact fun hn => nomatch hn.1

/-- Ending rows whose lifetimes come in order leaves stamped rows. -/
theorem Stamped.stamp {rows : List Row} {v v' : Nat} (h : Stamped rows v) (hv : v < v')
    (hfollows : rows.Pairwise Row.Follows) (dels : List Pair) :
    Stamped (rows.map (stamp v' dels)) v' := by
  refine ⟨fun r hr => ?_, fun r hr e he => ?_, ?_⟩
  · obtain ⟨r₀, hr₀, rfl⟩ := List.mem_map.mp hr
    rw [stamp_begin]
    exact (h.begun r₀ hr₀).trans hv.le
  · obtain ⟨r₀, hr₀, rfl⟩ := List.mem_map.mp hr
    rw [stamp_end] at he
    rw [stamp_begin]
    split at he
    · cases he
      exact ⟨(h.begun r₀ hr₀).trans_lt hv, Nat.le_refl _⟩
    · exact ⟨(h.ended r₀ hr₀ e he).1, (h.ended r₀ hr₀ e he).2.trans hv.le⟩
  · exact List.pairwise_map.mpr (hfollows.imp fun hab => Or.inl (hab.stamp v' dels))

theorem seen_stamp_before {rows : List Row} {v' w : Nat} (hw : w < v') (dels : List Pair)
    (p : Pair) : Seen (rows.map (stamp v' dels)) p w ↔ Seen rows p w := by
  have hvis : ∀ r : Row, (stamp v' dels r).visible w = true ↔ r.visible w = true := by
    intro r
    rw [Row.visible_iff, Row.visible_iff, stamp_begin, stamp_end]
    refine and_congr_right fun _ => ?_
    split
    · rename_i hn
      rw [hn.1]
      exact iff_of_true (fun e he => by cases he; exact hw) (fun e he => by cases he)
    · rfl
  constructor
  · rintro ⟨r, hr, hp, hv⟩
    obtain ⟨r₀, hr₀, rfl⟩ := List.mem_map.mp hr
    exact ⟨r₀, hr₀, (stamp_pair v' dels r₀).symm.trans hp, (hvis r₀).mp hv⟩
  · rintro ⟨r, hr, hp, hv⟩
    exact ⟨_, List.mem_map_of_mem hr, (stamp_pair v' dels r).trans hp, (hvis r).mpr hv⟩

theorem seen_stamp_after {rows : List Row} {v v' w : Nat} (h : Stamped rows v) (hv : v < v')
    (hfollows : rows.Pairwise Row.Follows) (hw : v' ≤ w) (dels : List Pair) (p : Pair) :
    Seen (rows.map (stamp v' dels)) p w ↔ Seen rows p v ∧ p ∉ dels := by
  rw [(h.stamp hv hfollows dels).seen_iff_live hw, h.seen_iff_live (Nat.le_refl v)]
  simp only [Row.is_live_iff]
  constructor
  · rintro ⟨r, hr, hp, hl⟩
    obtain ⟨r₀, hr₀, rfl⟩ := List.mem_map.mp hr
    rw [stamp_pair] at hp
    rw [stamp_end] at hl
    split at hl
    · cases hl
    · rename_i hn
      exact ⟨⟨r₀, hr₀, hp, hl⟩, fun hd => hn ⟨hl, hp ▸ hd⟩⟩
  · rintro ⟨⟨r, hr, hp, hl⟩, hd⟩
    refine ⟨_, List.mem_map_of_mem hr, (stamp_pair v' dels r).trans hp, ?_⟩
    rw [stamp_end, if_neg, hl]
    exact fun hn => hd (hp ▸ hn.2)

/-! ## Targets -/

theorem sort_targets_eq (pairs : List Pair) :
    sort_targets pairs = (pairs.insertionSort (· ≤ ·)).dedup :=
  (List.pairwise_insertionSort (· ≤ ·) pairs).destutter_eq_dedup

theorem mem_sort_targets {pairs : List Pair} {p : Pair} : p ∈ sort_targets pairs ↔ p ∈ pairs := by
  rw [sort_targets_eq, List.mem_dedup, (List.perm_insertionSort (· ≤ ·) pairs).mem_iff]

theorem sort_targets_ascending (pairs : List Pair) : (sort_targets pairs).Pairwise (· < ·) := by
  have hle := (List.pairwise_insertionSort (· ≤ ·) pairs).sublist (List.dedup_sublist _)
  rw [sort_targets_eq]
  exact (hle.and (List.nodup_dedup _)).imp fun h => lt_of_le_of_ne h.1 h.2

/-! ## The probe of the runs -/

namespace Columns

/-- A live row of the pair is among the rows. -/
def holds_live (rows : List Row) (p : Pair) : Bool :=
  rows.any fun r => decide (r.pair = p) && r.is_live

theorem holds_live_iff {rows : List Row} {p : Pair} :
    holds_live rows p = true ↔ ∃ r ∈ rows, r.pair = p ∧ r.is_live = true := by
  simp [holds_live]

/-- In sorted rows that are not below the target, its block is at the front. -/
theorem mem_block {rows : List Row} {target : Pair} (hsorted : rows.Pairwise fun a b => a.key ≤ b.key)
    (hge : ∀ r ∈ rows, target ≤ r.pair) {r : Row} (hr : r ∈ rows) (hp : r.pair = target) :
    r ∈ rows.takeWhile fun r => decide (r.pair = target) := by
  induction rows with
  | nil => cases hr
  | cons a rows ih =>
    have ha : a.pair = target := by
      refine le_antisymm ?_ (hge a List.mem_cons_self)
      rcases List.mem_cons.mp hr with rfl | hr
      · exact hp.le
      · exact (Row.key_le_pair ((List.pairwise_cons.mp hsorted).1 r hr)).trans hp.le
    rw [List.takeWhile_cons, if_pos (decide_eq_true ha)]
    rcases List.mem_cons.mp hr with rfl | hr
    · exact List.mem_cons_self
    · exact List.mem_cons_of_mem _ (ih (List.pairwise_cons.mp hsorted).2
        (fun b hb => hge b (List.mem_cons_of_mem _ hb)) hr)

theorem below_iff (c : Columns) (target : Pair) (i : Nat) :
    c.rows[i]?.any (fun r : Row => decide (r.pair < target)) = true ↔
      ∃ h : i < c.rows.length, c.rows[i].pair < target := by
  rw [Option.any_eq_true]
  constructor
  · rintro ⟨r, hr, hlt⟩
    obtain ⟨h, rfl⟩ := List.getElem?_eq_some_iff.mp hr
    exact ⟨h, of_decide_eq_true hlt⟩
  · rintro ⟨h, hlt⟩
    exact ⟨c.rows[i], List.getElem?_eq_getElem h, decide_eq_true hlt⟩

theorem below_mono (c : Columns) (target : Pair) (i j : Nat) (hij : i ≤ j)
    (hj : c.rows[j]?.any (fun r : Row => decide (r.pair < target)) = true) :
    c.rows[i]?.any (fun r : Row => decide (r.pair < target)) = true := by
  obtain ⟨h, hlt⟩ := (c.below_iff target j).mp hj
  refine (c.below_iff target i).mpr ⟨hij.trans_lt h, ?_⟩
  rcases Nat.eq_or_lt_of_le hij with rfl | hij
  · exact hlt
  · exact (Row.key_le_pair
      (List.pairwise_iff_getElem.mp c.sorted i j (hij.trans h) h hij)).trans_lt hlt

/-- The rows of the target start at the first index that is not below it. -/
theorem block_any (c : Columns) {k : Nat} {target : Pair} (q : Row → Bool)
    (hleft : ∀ i < k, c.rows[i]?.any (fun r : Row => decide (r.pair < target)) = true)
    (hat : k < c.rows.length → c.rows[k]?.any (fun r : Row => decide (r.pair < target)) = false) :
    ((c.rows.drop k).takeWhile fun r => decide (r.pair = target)).any q =
      c.rows.any fun r => decide (r.pair = target) && q r := by
  -- From there on, no row is below the target.
  have hge : ∀ r ∈ c.rows.drop k, target ≤ r.pair := by
    intro r hr
    obtain ⟨i, hi, rfl⟩ := List.mem_iff_getElem.mp hr
    rw [List.length_drop] at hi
    rw [List.getElem_drop]
    have hk : target ≤ c.rows[k].pair := by
      by_contra hlt
      have hb := (c.below_iff target k).mpr ⟨by omega, not_le.mp hlt⟩
      rw [hat (by omega)] at hb
      cases hb
    rcases Nat.eq_zero_or_pos i with rfl | hpos
    · exact hk
    · exact hk.trans (Row.key_le_pair
        (List.pairwise_iff_getElem.mp c.sorted k (k + i) (by omega) (by omega) (by omega)))
  rw [Bool.eq_iff_iff, List.any_eq_true, List.any_eq_true]
  constructor
  · rintro ⟨r, hr, hq⟩
    have hp : decide (r.pair = target) = true := (List.mem_takeWhile_imp hr :)
    have hmem := (List.takeWhile_sublist _).subset hr
    exact ⟨r, List.mem_of_mem_drop hmem, Bool.and_eq_true_iff.mpr ⟨hp, hq⟩⟩
  · rintro ⟨r, hr, hpq⟩
    obtain ⟨hp, hq⟩ := Bool.and_eq_true_iff.mp hpq
    have hp := of_decide_eq_true hp
    refine ⟨r, mem_block (c.sorted.sublist (List.drop_sublist k _)) hge ?_ hp, hq⟩
    obtain ⟨i, hi, rfl⟩ := List.mem_iff_getElem.mp hr
    have hki : k ≤ i := by
      by_contra hlt
      have := ((c.below_iff target i).mp (hleft i (by omega))).2
      exact absurd hp this.ne
    rw [List.mem_drop_iff_getElem]
    exact ⟨i - k, by omega, by simp [Nat.add_sub_cancel' hki]⟩

/-- Where the search ends, the block of the target starts. -/
theorem lower_bound_from_spec (c : Columns) {start : Nat} {target : Pair}
    (hstart : start ≤ c.rows.length)
    (hbefore : ∀ i, ∀ h : i < c.rows.length, i < start → c.rows[i].pair < target) :
    (∀ i, ∀ h : i < c.rows.length, i < c.lower_bound_from start target →
      c.rows[i].pair < target) ∧
    c.block_is_live (c.lower_bound_from start target) target = holds_live c.rows target := by
  obtain ⟨_, _, hleft, hat⟩ := Gallop.search_spec (c.below_mono target) hstart fun i hi =>
    (c.below_iff target i).mpr ⟨by omega, hbefore i (by omega) hi⟩
  exact ⟨fun i h hi => ((c.below_iff target i).mp (hleft i hi)).2, c.block_any Row.is_live hleft hat⟩

/-- Marking ascending targets sets the flag of each that is live here. -/
theorem mark_live_spec (c : Columns) (flag : Pair → Bool) (targets : List Pair) (cursor : Nat)
    (hasc : targets.Pairwise (· < ·))
    (hbefore : ∀ t ∈ targets, ∀ i, ∀ h : i < c.rows.length, i < cursor → c.rows[i].pair < t) :
    c.mark_live cursor targets (targets.map flag) =
      targets.map fun t => flag t || holds_live c.rows t := by
  induction targets generalizing cursor with
  | nil => rfl
  | cons t targets ih =>
    rw [List.pairwise_cons] at hasc
    rw [List.map_cons, mark_live]
    split
    · rename_i hend
      -- All rows are below every target that is left.
      have hnone : ∀ u ∈ t :: targets, holds_live c.rows u = false := by
        intro u hu
        rw [Bool.eq_false_iff]
        intro hl
        obtain ⟨r, hr, hp, _⟩ := holds_live_iff.mp hl
        obtain ⟨i, hi, rfl⟩ := List.mem_iff_getElem.mp hr
        exact (hbefore u hu i hi (by omega)).ne hp
      refine (List.map_congr_left fun u hu => ?_ : (t :: targets).map flag = _)
      rw [hnone u hu, Bool.or_false]
    · rename_i hlt
      obtain ⟨hleft, hblock⟩ := c.lower_bound_from_spec (Nat.le_of_not_le hlt)
        (hbefore t List.mem_cons_self)
      dsimp only
      rw [hblock, ih _ hasc.2 fun u hu i h hi => (hleft i h hi).trans (hasc.1 u hu), List.map_cons]

end Columns

theorem PredicatePartition.mark_live_spec (part : PredicatePartition) {targets : List Pair}
    (hasc : targets.Pairwise (· < ·)) :
    part.mark_live targets = targets.map (Columns.holds_live part.all_rows) := by
  have run : ∀ (runs : List Columns) (flag : Pair → Bool),
      runs.foldl (fun live run => run.mark_live 0 targets live) (targets.map flag) =
        targets.map fun t => flag t || Columns.holds_live (runs.flatMap Columns.rows) t := by
    intro runs
    induction runs with
    | nil => exact fun flag => List.map_congr_left fun t _ => (Bool.or_false _).symm
    | cons c runs ih =>
      intro flag
      rw [List.foldl_cons, c.mark_live_spec flag targets 0 hasc fun _ _ _ _ h => by omega, ih]
      refine List.map_congr_left fun t _ => ?_
      simp only [List.flatMap_cons, Columns.holds_live, List.any_append, Bool.or_assoc]
  rw [PredicatePartition.mark_live, ← List.map_const', run]
  exact List.map_congr_left fun t _ => Bool.false_or _

/-! ## What a write leaves -/

/-- The pair is seen in the partition, if there is one. -/
def Shows (part : Option PredicatePartition) (p : Pair) (v : Nat) : Prop :=
  ∃ part', part = some part' ∧ Seen part'.all_rows p v

/-- A write of version `v'` over a partition of version `v`. -/
structure Wrote (v v' : Nat) (dels adds : List Pair) (existing after : Option PredicatePartition) :
    Prop where
  kept : ∀ part, after = some part → part.Kept v'
  before : ∀ p w, w < v' → (Shows after p w ↔ Shows existing p w)
  since : ∀ p w, v' ≤ w → (Shows after p w ↔ (Shows existing p v ∧ p ∉ dels) ∨ p ∈ adds)

theorem shows_none (p : Pair) (v : Nat) : ¬ Shows none p v := fun h => nomatch h

theorem shows_some {part : PredicatePartition} {p : Pair} {v : Nat} :
    Shows (some part) p v ↔ Seen part.all_rows p v := by
  constructor
  · rintro ⟨_, ⟨⟩, h⟩
    exact h
  · exact fun h => ⟨part, rfl, h⟩

theorem PredicatePartition.Kept.append_later {part : PredicatePartition} {v v' : Nat}
    (h : part.Kept v) (hv : v ≤ v') {more : List Row}
    (hmore : ∀ r ∈ more, r.is_live = true ∧ v ≤ r.begin_stamp ∧ r.begin_stamp ≤ v') :
    (part.with_appended_rows more).Kept v' := by
  have happ := h.stamped.append_later hv hmore
  have hkept : Kept ⟨part.runs ++ [.from_rows more]⟩ v' := by
    refine ⟨?_, fun run hrun => ?_⟩
    · rw [all_rows, List.flatMap_append, List.flatMap_singleton]
      have hsub := (List.destutter_sublist (fun a b : Row => ¬ a.Duplicate b)
        (more.insertionSort fun a b => a.key ≤ b.key))
      refine (happ.perm ?_).sublist (hsub.append_left part.all_rows)
      exact ((List.perm_insertionSort _ _).symm).append_left _
    · rcases List.mem_append.mp hrun with hrun | hrun
      · exact h.ordered run hrun
      · obtain rfl := List.mem_singleton.mp hrun
        exact Columns.sort_dedup_follows (happ.sublist (List.sublist_append_right _ _))
  unfold with_appended_rows
  dsimp only
  split
  · exact hkept.read
  · exact hkept

theorem PredicatePartition.Kept.append {part : PredicatePartition} {v : Nat} (h : part.Kept v)
    (adds : List Pair) : (part.with_appended_rows (adds.map (live_row v))).Kept v := by
  refine h.append_later (Nat.le_refl v) fun r hr => ?_
  obtain ⟨q, _, rfl⟩ := List.mem_map.mp hr
  exact ⟨rfl, Nat.le_refl v, Nat.le_refl v⟩

theorem PredicatePartition.seen_append_rows (part : PredicatePartition) (rows : List Row) (p : Pair)
    (w : Nat) : Seen (part.with_appended_rows rows).all_rows p w ↔
      Seen part.all_rows p w ∨ Seen rows p w := by
  have happ : Seen (all_rows ⟨part.runs ++ [.from_rows rows]⟩) p w ↔
      Seen part.all_rows p w ∨ Seen rows p w := by
    rw [all_rows, List.flatMap_append, List.flatMap_singleton, seen_append]
    exact or_congr_right (Columns.seen_sort_dedup rows p w)
  unfold with_appended_rows
  dsimp only
  split
  · rw [seen_read, happ]
  · exact happ

/-- New live rows, over a partition of an earlier version or none. -/
theorem wrote_live_rows {v v' : Nat} (hv : v < v') {existing : Option PredicatePartition}
    (hk : ∀ part, existing = some part → part.Kept v) (adds : List Pair) :
    Wrote v v' [] adds existing (some (match existing with
      | some part => part.with_appended_rows (adds.map (live_row v'))
      | none => .build (adds.map (live_row v')))) := by
  cases existing with
  | none =>
    refine ⟨?_, fun p w hw => ?_, fun p w hw => ?_⟩
    · rintro _ ⟨⟩
      exact PredicatePartition.build_kept (stamped_live v' adds)
    · rw [shows_some, PredicatePartition.seen_build, seen_live_rows]
      exact iff_of_false (fun h => by omega) (shows_none p w)
    · rw [shows_some, PredicatePartition.seen_build, seen_live_rows]
      have := shows_none p v
      tauto
  | some part =>
    have hpart := hk part rfl
    refine ⟨?_, fun p w hw => ?_, fun p w hw => ?_⟩
    · rintro _ ⟨⟩
      exact (hpart.mono hv.le).append adds
    · rw [shows_some, PredicatePartition.seen_append_rows, seen_live_rows, shows_some]
      exact or_iff_left fun h => by omega
    · rw [shows_some, PredicatePartition.seen_append_rows, seen_live_rows, shows_some,
        hpart.stamped.seen_later (by omega)]
      simp [hw]

end horndb.storage
