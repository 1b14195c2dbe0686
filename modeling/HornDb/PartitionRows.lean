-- What the rows of a partition tell. Merging the runs keeps what each version sees, and in the
-- merged rows the lifetimes of a pair follow one another.
import HornDb.Partition

open HornDb.Lib

namespace horndb.storage

/-! ## Lifetimes -/

/-- A row of the pair is visible at the version. -/
def Seen (rows : List Row) (p : Pair) (v : Nat) : Prop :=
  ∃ r ∈ rows, r.pair = p ∧ r.visible v = true

/-- The lifetime of `a` is over when that of `b` begins, if they have one pair. -/
def Row.Follows (a b : Row) : Prop :=
  a.pair = b.pair → ∃ e, a.end_stamp = some e ∧ e ≤ b.begin_stamp

/-- One lifetime is over before the other begins, or both rows are live. -/
def Row.Apart (a b : Row) : Prop :=
  a.Follows b ∨ b.Follows a ∨ a.Duplicate b

/-- Rows as the versions up to `version` left them. -/
structure Stamped (rows : List Row) (version : Nat) : Prop where
  begun : ∀ r ∈ rows, r.begin_stamp ≤ version
  ended : ∀ r ∈ rows, ∀ e, r.end_stamp = some e → r.begin_stamp < e ∧ e ≤ version
  apart : rows.Pairwise Row.Apart

namespace Row

theorem key_le_iff {a b : Row} :
    a.key ≤ b.key ↔ a.pair < b.pair ∨ a.pair = b.pair ∧ a.begin_stamp ≤ b.begin_stamp :=
  Prod.Lex.toLex_le_toLex

theorem key_le_pair {a b : Row} (h : a.key ≤ b.key) : a.pair ≤ b.pair := by
  rcases key_le_iff.mp h with h | ⟨h, _⟩
  · exact h.le
  · exact h.le

theorem Apart.symm {a b : Row} (h : a.Apart b) : b.Apart a := by
  rcases h with h | h | ⟨hp, ha, hb⟩
  · exact Or.inr (Or.inl h)
  · exact Or.inl h
  · exact Or.inr (Or.inr ⟨hp.symm, hb, ha⟩)

theorem is_live_iff {r : Row} : r.is_live = true ↔ r.end_stamp = none := Option.isNone_iff_eq_none

theorem visible_iff {r : Row} {v : Nat} :
    r.visible v = true ↔ r.begin_stamp ≤ v ∧ ∀ e, r.end_stamp = some e → v < e := by
  cases he : r.end_stamp with
  | none => simp [visible, he]
  | some e => simp [visible, he]

theorem visible_of_live {r : Row} (h : r.is_live = true) {v : Nat} :
    r.visible v = true ↔ r.begin_stamp ≤ v := by
  rw [visible_iff, is_live_iff.mp h]
  exact and_iff_left (fun e he => by cases he)

end Row

variable {v : Nat}

theorem Stamped.sublist {rows rows' : List Row} (h : Stamped rows v) (hs : rows'.Sublist rows) :
    Stamped rows' v :=
  ⟨fun r hr => h.begun r (hs.subset hr), fun r hr => h.ended r (hs.subset hr), h.apart.sublist hs⟩

theorem Stamped.perm {rows rows' : List Row} (h : Stamped rows v) (hp : rows.Perm rows') :
    Stamped rows' v :=
  ⟨fun r hr => h.begun r (hp.mem_iff.mpr hr), fun r hr => h.ended r (hp.mem_iff.mpr hr),
    (hp.pairwise_iff Row.Apart.symm).mp h.apart⟩

variable {rows : List Row}

theorem Stamped.mono {v w : Nat} (h : Stamped rows v) (hvw : v ≤ w) : Stamped rows w :=
  ⟨fun r hr => (h.begun r hr).trans hvw,
    fun r hr e he => ⟨(h.ended r hr e he).1, (h.ended r hr e he).2.trans hvw⟩, h.apart⟩

/-- From the last version on, the visible rows are the live ones. -/
theorem Stamped.visible_iff_live {v w : Nat} (h : Stamped rows v) (hvw : v ≤ w) {r : Row}
    (hr : r ∈ rows) : r.visible w = true ↔ r.is_live = true := by
  constructor
  · intro hv
    rw [Row.is_live_iff]
    cases he : r.end_stamp with
    | none => rfl
    | some e =>
      have h1 := (Row.visible_iff.mp hv).2 e he
      have h2 := (h.ended r hr e he).2
      omega
  · intro hl
    exact (Row.visible_of_live hl).mpr ((h.begun r hr).trans hvw)

theorem Stamped.seen_iff_live {v w : Nat} (h : Stamped rows v) (hvw : v ≤ w) (p : Pair) :
    Seen rows p w ↔ ∃ r ∈ rows, r.pair = p ∧ r.is_live = true :=
  exists_congr fun _ => and_congr_right fun hr => and_congr_right fun _ => h.visible_iff_live hvw hr

theorem Stamped.seen_later {v w : Nat} (h : Stamped rows v) (hvw : v ≤ w) (p : Pair) :
    Seen rows p w ↔ Seen rows p v :=
  (h.seen_iff_live hvw p).trans (h.seen_iff_live (Nat.le_refl v) p).symm

/-! ## Sorting and merging -/

namespace Columns

/-- A dropped row is a duplicate of an earlier row that stays. -/
theorem destutter_covers (l : List Row) (a : Row) (hl : (a :: l).Pairwise fun x y => x.key ≤ y.key) :
    ∀ b ∈ a :: l, ∃ c ∈ l.destutter' (fun x y => ¬ x.Duplicate y) a,
      (c = b ∨ c.Duplicate b) ∧ c.key ≤ b.key := by
  induction l generalizing a with
  | nil =>
    intro b hb
    obtain rfl := List.mem_singleton.mp hb
    exact ⟨b, List.mem_singleton.mpr rfl, Or.inl rfl, le_refl _⟩
  | cons x l ih =>
    intro b hb
    rw [List.destutter'_cons]
    have hax : a.key ≤ x.key := (List.pairwise_cons.mp hl).1 x List.mem_cons_self
    split
    · rcases List.mem_cons.mp hb with rfl | hb
      · exact ⟨b, List.mem_cons_self, Or.inl rfl, le_refl _⟩
      · obtain ⟨c, hc, h⟩ := ih x (List.pairwise_cons.mp hl).2 b hb
        exact ⟨c, List.mem_cons_of_mem _ hc, h⟩
    · rename_i hdup
      rw [not_not] at hdup
      have hal : (a :: l).Pairwise fun x y : Row => x.key ≤ y.key :=
        hl.sublist ((List.sublist_cons_self x l).cons_cons a)
      rcases List.mem_cons.mp hb with rfl | hb
      · exact ih b hal b List.mem_cons_self
      · rcases List.mem_cons.mp hb with rfl | hb
        · obtain ⟨c, hc, hca, hle⟩ := ih a hal a List.mem_cons_self
          refine ⟨c, hc, Or.inr ?_, hle.trans hax⟩
          rcases hca with rfl | hca
          · exact hdup
          · exact ⟨hca.1.trans hdup.1, hca.2.1, hdup.2.2⟩
        · exact ih a hal b (List.mem_cons_of_mem _ hb)

theorem sort_sorted (rows : List Row) :
    (rows.insertionSort fun a b => a.key ≤ b.key).Pairwise fun a b => a.key ≤ b.key := by
  have : Std.Total fun a b : Row => a.key ≤ b.key := ⟨fun a b => le_total a.key b.key⟩
  have : IsTrans Row fun a b => a.key ≤ b.key := ⟨fun _ _ _ => le_trans⟩
  exact List.pairwise_insertionSort _ rows

/-- Every version sees the same pairs after the sort. -/
theorem seen_sort_dedup (rows : List Row) (p : Pair) (v : Nat) :
    Seen (sort_dedup rows) p v ↔ Seen rows p v := by
  have hperm := List.perm_insertionSort (fun a b : Row => a.key ≤ b.key) rows
  constructor
  · rintro ⟨r, hr, h⟩
    exact ⟨r, hperm.mem_iff.mp ((List.destutter_sublist _ _).subset hr), h⟩
  · rintro ⟨r, hr, hpair, hv⟩
    have hsorted := sort_sorted rows
    rw [← hperm.mem_iff] at hr
    unfold sort_dedup
    generalize rows.insertionSort (fun a b => a.key ≤ b.key) = l at *
    cases l with
    | nil => cases hr
    | cons a l =>
      obtain ⟨c, hc, hdup, hle⟩ := destutter_covers l a hsorted r hr
      rcases hdup with rfl | ⟨hp, hcl, _⟩
      · exact ⟨c, hc, hpair, hv⟩
      · refine ⟨c, hc, hp.trans hpair, (Row.visible_of_live hcl).mpr ?_⟩
        rcases Row.key_le_iff.mp hle with hlt | ⟨_, hb⟩
        · exact absurd hp hlt.ne
        · exact hb.trans (Row.visible_iff.mp hv).1

theorem sort_dedup_stamped (h : Stamped rows v) : Stamped (sort_dedup rows) v :=
  (h.perm (List.perm_insertionSort _ rows).symm).sublist (List.destutter_sublist _ _)

/-- In stamped rows the lifetimes of a pair come in order, so at most the last is live. -/
theorem sort_dedup_follows (h : Stamped rows v) : (sort_dedup rows).Pairwise Row.Follows := by
  -- Neighbours follow, and through the order of the rows so do all.
  let next := fun a b : Row => a.key ≤ b.key ∧ a.Follows b
  have : Trans next next next := ⟨by
    rintro a b c ⟨hab, fab⟩ ⟨hbc, fbc⟩
    refine ⟨hab.trans hbc, fun hac => ?_⟩
    have hpab : a.pair = b.pair :=
      le_antisymm (Row.key_le_pair hab) (hac ▸ Row.key_le_pair hbc)
    obtain ⟨e, he, hle⟩ := fab hpab
    refine ⟨e, he, hle.trans ?_⟩
    rcases Row.key_le_iff.mp hbc with hlt | ⟨_, hb⟩
    · exact absurd (hpab.symm.trans hac) hlt.ne
    · exact hb⟩
  have hstamped := sort_dedup_stamped h
  have hchain : (sort_dedup rows).IsChain next := by
    have hdistinct : (sort_dedup rows).IsChain fun a b => ¬ a.Duplicate b :=
      List.isChain_destutter _ _
    rw [List.isChain_iff_getElem] at hdistinct ⊢
    intro i hi
    have hle := List.pairwise_iff_getElem.mp (sort_dedup_sorted rows) i (i + 1) (by omega) hi
      (by omega)
    refine ⟨hle, fun hp => ?_⟩
    rcases List.pairwise_iff_getElem.mp hstamped.apart i (i + 1) (by omega) hi (by omega) with
      hf | hf | hd
    · exact hf hp
    · obtain ⟨e, he, hge⟩ := hf hp.symm
      have hlt := (hstamped.ended _ (List.getElem_mem hi) e he).1
      rcases Row.key_le_iff.mp hle with hpl | ⟨_, hb⟩
      · exact absurd hp hpl.ne
      · omega
    · exact absurd hd (hdistinct i hi)
  exact (List.isChain_iff_pairwise.mp hchain).imp fun h => h.2

/-! ## Versions that see every row -/

theorem begin_le_max_begin (c : Columns) {r : Row} (hr : r ∈ c.rows) :
    r.begin_stamp ≤ c.max_begin := by
  have hmax : ∀ (l : List Nat) (n : Nat), n ≤ l.foldl max n ∧ ∀ m ∈ l, m ≤ l.foldl max n := by
    intro l
    induction l with
    | nil => exact fun n => ⟨Nat.le_refl n, fun m hm => absurd hm List.not_mem_nil⟩
    | cons a l ih =>
      intro n
      obtain ⟨h1, h2⟩ := ih (max n a)
      rw [List.foldl_cons]
      refine ⟨(Nat.le_max_left n a).trans h1, fun m hm => ?_⟩
      rcases List.mem_cons.mp hm with rfl | hm
      · exact (Nat.le_max_right n m).trans h1
      · exact h2 m hm
  exact (hmax _ 0).2 _ (List.mem_map_of_mem hr)

/-- Where nothing was retracted and all has begun, every row is visible. -/
theorem all_visible (c : Columns) (hnone : c.has_retractions = false) (hbegun : c.max_begin ≤ v)
    {r : Row} (hr : r ∈ c.rows) : r.visible v = true := by
  rw [has_retractions, List.any_eq_false] at hnone
  have hlive : r.is_live = true := by
    have := hnone r hr
    rwa [Bool.not_eq_true, Bool.not_eq_false'] at this
  exact (Row.visible_of_live hlive).mpr ((c.begin_le_max_begin hr).trans hbegun)

end Columns

/-! ## The runs of a partition -/

namespace PredicatePartition

/-- Runs as the versions up to `version` left them: the rows of all of them are stamped, and
within each the lifetimes of a pair come in order. -/
structure Kept (part : PredicatePartition) (version : Nat) : Prop where
  stamped : Stamped part.all_rows version
  ordered : ∀ run ∈ part.runs, run.rows.Pairwise Row.Follows

theorem merged_cols_eq (part : PredicatePartition) :
    (∃ run, part.runs = [run] ∧ part.merged_cols = run ∧ part.all_rows = run.rows) ∨
      part.merged_cols = .from_rows part.all_rows := by
  unfold merged_cols all_rows
  split
  · rename_i run hrun
    exact Or.inl ⟨run, hrun, rfl, by rw [hrun]; simp⟩
  · exact Or.inr rfl

theorem seen_merged (part : PredicatePartition) (p : Pair) (v : Nat) :
    Seen part.merged_cols.rows p v ↔ Seen part.all_rows p v := by
  rcases part.merged_cols_eq with ⟨run, _, h, hall⟩ | h
  · rw [h, hall]
  · rw [h]
    exact Columns.seen_sort_dedup _ p v

variable {part : PredicatePartition}

theorem Kept.merged_stamped (h : part.Kept v) : Stamped part.merged_cols.rows v := by
  rcases part.merged_cols_eq with ⟨run, _, hm, hall⟩ | hm
  · rw [hm, ← hall]
    exact h.stamped
  · rw [hm]
    exact Columns.sort_dedup_stamped h.stamped

/-- In the merged rows the lifetimes of a pair come in order. -/
theorem Kept.merged_follows (h : part.Kept v) : part.merged_cols.rows.Pairwise Row.Follows := by
  rcases part.merged_cols_eq with ⟨run, hrun, hm, _⟩ | hm
  · rw [hm]
    exact h.ordered run (by rw [hrun]; exact List.mem_singleton.mpr rfl)
  · rw [hm]
    exact Columns.sort_dedup_follows h.stamped

theorem Kept.mono {v w : Nat} (h : part.Kept v) (hvw : v ≤ w) : part.Kept w :=
  ⟨h.stamped.mono hvw, h.ordered⟩

theorem all_rows_single (c : Columns) : all_rows ⟨[c]⟩ = c.rows := by
  rw [all_rows, List.flatMap_singleton]

theorem Kept.read (h : part.Kept v) : part.read.Kept v := by
  refine ⟨?_, fun run hrun => ?_⟩
  · rw [PredicatePartition.read, all_rows_single]
    exact h.merged_stamped
  · obtain rfl := List.mem_singleton.mp hrun
    exact h.merged_follows

theorem seen_read (part : PredicatePartition) (p : Pair) (v : Nat) :
    Seen part.read.all_rows p v ↔ Seen part.all_rows p v := by
  rw [read, all_rows_single, seen_merged]

theorem build_kept (h : Stamped rows v) : (build rows).Kept v := by
  refine ⟨?_, fun run hrun => ?_⟩
  · rw [build, all_rows_single]
    exact Columns.sort_dedup_stamped h
  · obtain rfl := List.mem_singleton.mp hrun
    exact Columns.sort_dedup_follows h

theorem seen_build (rows : List Row) (p : Pair) (v : Nat) :
    Seen (build rows).all_rows p v ↔ Seen rows p v := by
  rw [build, all_rows_single]
  exact Columns.seen_sort_dedup rows p v

/-! ## Reads -/

theorem mem_scan_at_merged (c : Columns) (v : Nat) (p : Pair) :
    p ∈ (c.rows.filter fun r => !(c.has_retractions || decide (v < c.max_begin)) ||
      r.visible v).map Row.pair ↔ Seen c.rows p v := by
  rw [List.mem_map]
  constructor
  · rintro ⟨r, hr, hp⟩
    obtain ⟨hr, hv⟩ := List.mem_filter.mp hr
    refine ⟨r, hr, hp, ?_⟩
    rcases Bool.or_eq_true_iff.mp hv with hfast | hv
    · -- Nothing is filtered where nothing was retracted and all has begun.
      rw [Bool.not_eq_true', Bool.or_eq_false_iff, decide_eq_false_iff_not, Nat.not_lt] at hfast
      exact c.all_visible hfast.1 hfast.2 hr
    · exact hv
  · rintro ⟨r, hr, hp, hv⟩
    exact ⟨r, List.mem_filter.mpr ⟨hr, Bool.or_eq_true_iff.mpr (Or.inr hv)⟩, hp⟩

/-- A scan at a version gives the pairs that the rows of the runs show there. -/
theorem mem_scan_at (part : PredicatePartition) (v : Nat) (p : Pair) :
    p ∈ part.scan_at v ↔ Seen part.all_rows p v :=
  (mem_scan_at_merged part.merged_cols v p).trans (part.seen_merged p v)

end PredicatePartition

end horndb.storage
