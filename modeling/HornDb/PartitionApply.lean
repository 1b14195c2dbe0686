-- The writes of one partition: the run that an insertion appends, and the rebuild of a
-- deletion. Each keeps the invariant and counts the pairs that it really changes.
import HornDb.PartitionWrites

open HornDb.Lib

namespace horndb.storage

/-! ## Live pairs -/

/-- The pair is live in the partition, if there is one. -/
def live_pair (part : Option PredicatePartition) (p : Pair) : Bool :=
  part.any fun part => Columns.holds_live part.all_rows p

theorem shows_iff_live {part : Option PredicatePartition} {v w : Nat}
    (hk : ∀ part', part = some part' → part'.Kept v) (hw : v ≤ w) (p : Pair) :
    Shows part p w ↔ live_pair part p = true := by
  cases part with
  | none => exact iff_of_false (shows_none p w) (by simp [live_pair])
  | some part =>
    rw [shows_some, (hk part rfl).stamped.seen_iff_live hw]
    exact Columns.holds_live_iff.symm

/-- A partition that a write leaves shows from its version on what it showed before. -/
theorem Wrote.refl {v v' : Nat} (hv : v < v') {part : Option PredicatePartition}
    (hk : ∀ part', part = some part' → part'.Kept v) : Wrote v v' [] [] part part := by
  refine ⟨fun part' hpart => (hk part' hpart).mono hv.le, fun p w _ => Iff.rfl, ?_⟩
  intro p w hw
  rw [shows_iff_live hk (hv.le.trans hw), shows_iff_live hk (Nat.le_refl v)]
  simp

/-- The pairs that a write adds may be any with the live ones among them left out. -/
theorem Wrote.adds {v v' : Nat} {dels adds adds' : List Pair}
    {existing after : Option PredicatePartition} (h : Wrote v v' dels adds existing after)
    (heq : ∀ p, (Shows existing p v ∧ p ∉ dels) ∨ p ∈ adds ↔
      (Shows existing p v ∧ p ∉ dels) ∨ p ∈ adds') : Wrote v v' dels adds' existing after :=
  ⟨h.kept, h.before, fun p w hw => (h.since p w hw).trans (heq p)⟩

/-! ## Counts -/

/-- How many pairs the deletions end. -/
def ended (existing : Option PredicatePartition) (dels : List Pair) : Nat :=
  (dels.toFinset.filter fun p => live_pair existing p = true).card

/-- How many pairs the additions bring back or bring. -/
def begun (existing : Option PredicatePartition) (dels adds : List Pair) : Nat :=
  (adds.toFinset.filter fun p => ¬ (live_pair existing p = true ∧ p ∉ dels)).card

theorem card_of_nodup {l : List Pair} (hl : l.Nodup) {s : Finset Pair} (h : ∀ p, p ∈ l ↔ p ∈ s) :
    l.length = s.card := by
  have hs : l.toFinset = s := Finset.ext fun p => (List.mem_toFinset).trans (h p)
  rw [← hs, List.toFinset_card_of_nodup hl]

/-! ## The append run -/

theorem zip_map_filter (targets : List Pair) (flag : Pair → Bool) :
    ((targets.zip (targets.map flag)).filter fun t => !t.2).map Prod.fst =
      targets.filter fun p => !flag p := by
  induction targets with
  | nil => rfl
  | cons t targets ih =>
    rw [List.map_cons, List.zip_cons_cons, List.filter_cons, List.filter_cons]
    dsimp only
    split
    · rw [List.map_cons, ih]
    · exact ih

/-- What the write of one partition leaves, where it writes at all. -/
def PartitionWrite.after (w : PartitionWrite) (existing : Option PredicatePartition) :
    Option PredicatePartition := w.part.or existing

/-- The write of one partition and its counts. -/
structure Applied (v v' : Nat) (dels adds : List Pair) (existing : Option PredicatePartition)
    (w : PartitionWrite) : Prop where
  wrote : Wrote v v' dels adds existing (w.after existing)
  retracted : w.retracted = ended existing dels
  inserted : w.inserted = begun existing dels adds

/-- The pairs of an append run that are not live yet. -/
theorem append_run_eq (version : Nat) (existing : Option PredicatePartition) {targets : List Pair}
    (hasc : targets.Pairwise (· < ·)) :
    append_run version existing targets =
      let fresh := (targets.filter fun p => !live_pair existing p).map (live_row version)
      if fresh.isEmpty then ⟨none, 0, 0⟩
      else ⟨some (existing.elim (.build fresh) fun part => part.with_appended_rows fresh), 0,
        fresh.length⟩ := by
  have hrows : ((targets.zip (targets.map (live_pair existing))).filter fun t => !t.2).map
      (fun t => live_row version t.1) =
        (targets.filter fun p => !live_pair existing p).map (live_row version) := by
    rw [← zip_map_filter, List.map_map]
    rfl
  rw [← hrows]
  cases existing with
  | none =>
    have hlive : List.replicate targets.length false = targets.map (live_pair none) :=
      (List.map_const' ..).symm
    rw [← hlive]
    rfl
  | some part =>
    have hlive : part.mark_live targets = targets.map (live_pair (some part)) :=
      part.mark_live_spec hasc
    rw [← hlive]
    rfl

theorem append_run_applied {v v' : Nat} (hv : v < v') {existing : Option PredicatePartition}
    (hk : ∀ part, existing = some part → part.Kept v) {targets : List Pair}
    (hasc : targets.Pairwise (· < ·)) :
    Applied v v' [] targets existing (append_run v' existing targets) := by
  have hcount : (targets.filter fun p => !live_pair existing p).length =
      begun existing [] targets := by
    have hnodup : targets.Nodup := hasc.imp fun h => h.ne
    apply card_of_nodup (hnodup.filter _)
    intro p
    simp
  have hmem : ∀ p, (Shows existing p v ∧ p ∉ ([] : List Pair)) ∨
      p ∈ targets.filter (fun p => !live_pair existing p) ↔
        (Shows existing p v ∧ p ∉ ([] : List Pair)) ∨ p ∈ targets := by
    intro p
    rw [shows_iff_live hk (Nat.le_refl v)]
    simp only [List.not_mem_nil, not_false_eq_true, and_true, List.mem_filter]
    cases live_pair existing p with
    | true => simp
    | false => simp
  rw [append_run_eq v' existing hasc]
  dsimp only
  split
  · rename_i hempty
    have hnone : targets.filter (fun p => !live_pair existing p) = [] := by
      simpa using hempty
    rw [hnone] at hcount hmem
    exact ⟨(Wrote.refl hv hk).adds hmem, by simp [ended], hcount⟩
  · refine ⟨?_, by simp [ended], by rw [List.length_map, hcount]⟩
    apply Wrote.adds _ hmem
    cases existing with
    | none => exact wrote_live_rows hv hk _
    | some part => exact wrote_live_rows hv hk _

/-! ## The rebuild -/

/-- The rows of a merged partition, or none. -/
def stored_rows (existing : Option PredicatePartition) : List Row :=
  existing.elim [] fun part => part.merged_cols.rows

theorem live_pair_iff (existing : Option PredicatePartition)
    {v : Nat} (hk : ∀ part, existing = some part → part.Kept v) (p : Pair) :
    live_pair existing p = true ↔ ∃ r ∈ stored_rows existing, r.pair = p ∧ r.is_live = true := by
  rw [← shows_iff_live hk (Nat.le_refl v)]
  cases existing with
  | none => exact iff_of_false (shows_none p v) (by simp [stored_rows])
  | some part =>
    rw [shows_some, ← part.seen_merged]
    exact (hk part rfl).merged_stamped.seen_iff_live (Nat.le_refl v) p

theorem stored_follows {existing : Option PredicatePartition} {v : Nat}
    (hk : ∀ part, existing = some part → part.Kept v) :
    (stored_rows existing).Pairwise Row.Follows := by
  cases existing with
  | none => exact .nil
  | some part => exact (hk part rfl).merged_follows

theorem stored_stamped {existing : Option PredicatePartition} {v : Nat}
    (hk : ∀ part, existing = some part → part.Kept v) : Stamped (stored_rows existing) v := by
  cases existing with
  | none => exact stamped_nil v
  | some part => exact (hk part rfl).merged_stamped

theorem stored_ascending (existing : Option PredicatePartition) :
    (stored_rows existing).Pairwise fun a b => a.key ≤ b.key := by
  cases existing with
  | none => exact .nil
  | some part => exact part.merged_cols.sorted

/-- Live rows of stored rows have pairs of their own, in order. -/
theorem live_ascending {rows : List Row} (hfollows : rows.Pairwise Row.Follows)
    (hsorted : rows.Pairwise fun a b => a.key ≤ b.key) :
    ((rows.filter Row.is_live).map Row.pair).Pairwise (· < ·) := by
  rw [List.pairwise_map, List.pairwise_filter]
  refine (hfollows.and hsorted).imp ?_
  intro a b h ha _
  refine lt_of_le_of_ne (Row.key_le_pair h.2) fun heq => ?_
  obtain ⟨e, he, _⟩ := h.1 heq
  rw [Row.is_live_iff.mp ha] at he
  cases he

/-- The pairs that stay live after the deletions. -/
def surviving (dels : List Pair) (rows : List Row) : List Pair :=
  ((rows.filter Row.is_live).map Row.pair).filter fun p => !dels.contains p

theorem surviving_cons (dels : List Pair) (row : Row) (rows : List Row) :
    surviving dels (row :: rows) =
      if row.is_live && !dels.contains row.pair then row.pair :: surviving dels rows
      else surviving dels rows := by
  unfold surviving
  rw [List.filter_cons]
  cases row.is_live with
  | false => rfl
  | true =>
    rw [if_pos rfl, List.map_cons, List.filter_cons]
    rfl

/-- The copy of the rows of a partition in a deletion. -/
theorem carry_rows (version : Nat) (dels : List Pair) (rows : List Row) (st : Carried)
    (hasc : (st.still_visible ++ surviving dels rows).Pairwise (· < ·)) :
    rows.foldl (carry_row version dels) st =
      ⟨st.rows ++ rows.map (stamp version dels), st.still_visible ++ surviving dels rows,
        st.retracted + rows.countP fun r => r.is_live && dels.contains r.pair⟩ := by
  induction rows generalizing st with
  | nil => simp [surviving]
  | cons row rows ih =>
    rw [List.foldl_cons, surviving_cons] at *
    have hstep : carry_row version dels st row =
        ⟨st.rows ++ [stamp version dels row],
          if row.is_live && !dels.contains row.pair then st.still_visible ++ [row.pair]
          else st.still_visible,
          st.retracted + if row.is_live && dels.contains row.pair then 1 else 0⟩ := by
      unfold carry_row stamp
      cases hl : row.is_live with
      | false => simp
      | true =>
        cases hd : dels.contains row.pair with
        | true => simp
        | false =>
          -- The last pair is below this one, so it is not skipped.
          have hlast : st.still_visible.getLast? ≠ some row.pair := by
            intro hlast
            rw [hl, hd] at hasc
            have hmem := List.mem_of_getLast? hlast
            exact absurd rfl ((List.pairwise_append.mp hasc).2.2 _ hmem _ List.mem_cons_self).ne
          simp [hlast]
    rw [hstep, ih]
    · cases hl : row.is_live && !dels.contains row.pair with
      | true => simp [List.countP_cons, Nat.add_assoc, Nat.add_comm]
      | false => simp [List.countP_cons, Nat.add_assoc, Nat.add_comm]
    · dsimp only
      split
      · rename_i hl
        rw [if_pos hl] at hasc
        rwa [List.append_assoc]
      · rename_i hl
        rwa [if_neg hl] at hasc

/-- The walk over the added pairs with a cursor on the live ones. -/
theorem add_rows (version : Nat) (targets : List Pair) (st : Added)
    (hasc : targets.Pairwise (· < ·)) (hlive : st.still_visible.Pairwise (· < ·)) :
    (targets.foldl (add_row version) st).rows =
        st.rows ++ (targets.filter fun p => !st.still_visible.contains p).map (live_row version) ∧
      (targets.foldl (add_row version) st).inserted =
        st.inserted + (targets.filter fun p => !st.still_visible.contains p).length := by
  induction targets generalizing st with
  | nil => simp
  | cons t targets ih =>
    rw [List.pairwise_cons] at hasc
    have hdrop : ∀ u, t ≤ u → (u ∈ st.still_visible ↔
        u ∈ st.still_visible.dropWhile fun p => decide (p < t)) := by
      intro u hu
      conv_lhs => rw [← List.takeWhile_append_dropWhile (p := fun p => decide (p < t))
        (l := st.still_visible), List.mem_append]
      refine or_iff_right fun hmem => ?_
      have := of_decide_eq_true (List.mem_takeWhile_imp hmem :)
      exact absurd hu (not_le.mpr this)
    have hsub := List.dropWhile_sublist (l := st.still_visible) fun p => decide (p < t)
    have hhead : (st.still_visible.dropWhile fun p => decide (p < t)).head? = some t ↔
        t ∈ st.still_visible := by
      rw [hdrop t (le_refl t)]
      have hasc' := hlive.sublist hsub
      cases hd : st.still_visible.dropWhile fun p => decide (p < t) with
      | nil => simp
      | cons a rest =>
        rw [hd, List.pairwise_cons] at hasc'
        have hge : ¬ a < t := by
          have := List.head?_dropWhile_not (fun p => decide (p < t)) st.still_visible
          rw [hd] at this
          simpa using this
        constructor
        · intro h
          rw [← Option.some.inj h]
          exact List.mem_cons_self
        · intro h
          rcases List.mem_cons.mp h with rfl | h
          · rfl
          · exact absurd (hasc'.1 t h) hge
    have hrest : targets.filter (fun p =>
        !(st.still_visible.dropWhile fun p => decide (p < t)).contains p) =
          targets.filter fun p => !st.still_visible.contains p := by
      apply List.filter_congr
      intro u hu
      have := hdrop u (hasc.1 u hu).le
      rw [Bool.eq_iff_iff]
      simpa using not_congr this.symm
    have hstep : add_row version st t =
        if t ∈ st.still_visible then
          ⟨st.rows, st.still_visible.dropWhile fun p => decide (p < t), st.inserted⟩
        else ⟨st.rows ++ [live_row version t],
          st.still_visible.dropWhile fun p => decide (p < t), st.inserted + 1⟩ := by
      unfold add_row
      exact if_congr hhead rfl rfl
    rw [List.foldl_cons, List.filter_cons, hstep]
    by_cases hmem : t ∈ st.still_visible
    · rw [if_pos hmem, if_neg (by simpa using hmem)]
      have h := ih ⟨st.rows, st.still_visible.dropWhile fun p => decide (p < t), st.inserted⟩
        hasc.2 (hlive.sublist hsub)
      rw [hrest] at h
      exact h
    · rw [if_neg hmem, if_pos (by simpa using hmem)]
      have h := ih ⟨st.rows ++ [live_row version t],
        st.still_visible.dropWhile fun p => decide (p < t), st.inserted + 1⟩
        hasc.2 (hlive.sublist hsub)
      rw [hrest] at h
      rw [List.map_cons, List.length_cons]
      refine ⟨?_, ?_⟩
      · rw [h.1, List.append_assoc]
        rfl
      · rw [h.2]
        dsimp only
        omega

theorem shows_stored (existing : Option PredicatePartition) (p : Pair) (v : Nat) :
    Shows existing p v ↔ Seen (stored_rows existing) p v := by
  cases existing with
  | none => exact iff_of_false (shows_none p v) (by simp [Seen, stored_rows])
  | some part => exact shows_some.trans (part.seen_merged p v).symm

theorem rebuild_eq (version : Nat) (existing : Option PredicatePartition)
    (dels adds : List Pair) :
    rebuild version existing dels adds =
      let carried := (stored_rows existing).foldl (carry_row version dels) ⟨[], [], 0⟩
      let added := adds.foldl (add_row version) ⟨carried.rows, carried.still_visible, 0⟩
      ⟨some (.build added.rows), carried.retracted, added.inserted⟩ := by
  cases existing with
  | none => rfl
  | some part => rfl

section rebuilt

variable {v v' : Nat} {existing : Option PredicatePartition}
  (hk : ∀ part, existing = some part → part.Kept v)

include hk

theorem surviving_ascending (dels : List Pair) :
    (surviving dels (stored_rows existing)).Pairwise (· < ·) := by
  apply List.Pairwise.filter
  exact live_ascending (stored_follows hk) (stored_ascending existing)

theorem mem_surviving (dels : List Pair) (p : Pair) :
    p ∈ surviving dels (stored_rows existing) ↔ live_pair existing p = true ∧ p ∉ dels := by
  unfold surviving
  rw [live_pair_iff existing hk]
  simp only [List.mem_filter, List.mem_map, Bool.not_eq_true', List.contains_eq_mem,
    decide_eq_false_iff_not]
  refine and_congr_left fun _ => exists_congr fun r => ?_
  rw [and_assoc]
  exact and_congr_right fun _ => and_comm

/-- The rows that a deletion ends have pairs of their own. -/
theorem ended_rows (dels : List Pair) :
    (stored_rows existing).countP (fun r => r.is_live && dels.contains r.pair) =
      ended existing dels := by
  have hnodup : (((stored_rows existing).filter Row.is_live).map Row.pair).Nodup :=
    (live_ascending (stored_follows hk) (stored_ascending existing)).imp fun h => h.ne
  have hlen : (stored_rows existing).countP (fun r => r.is_live && dels.contains r.pair) =
      ((((stored_rows existing).filter Row.is_live).map Row.pair).filter dels.contains).length := by
    rw [← List.countP_eq_length_filter, List.countP_map, List.countP_filter]
    apply List.countP_congr
    intro r _
    rw [Bool.and_comm]
    rfl
  rw [hlen]
  apply card_of_nodup (hnodup.filter _)
  intro p
  simp only [List.mem_filter, List.mem_map, Finset.mem_filter, List.mem_toFinset,
    List.contains_iff_mem]
  rw [live_pair_iff existing hk, and_comm]
  refine and_congr_right fun _ => exists_congr fun r => ?_
  rw [and_assoc]
  exact and_congr_right fun _ => and_comm

/-- A partition that holds the rows of another, some of them ended, and new live rows. -/
theorem wrote_stamped (hv : v < v') (dels adds : List Pair) :
    Wrote v v' dels adds existing
      (some (.build ((stored_rows existing).map (stamp v' dels) ++ adds.map (live_row v')))) := by
  have hstamped := stored_stamped hk
  have hfollows := stored_follows hk
  refine ⟨?_, fun p w hw => ?_, fun p w hw => ?_⟩
  · rintro _ ⟨⟩
    exact PredicatePartition.build_kept ((hstamped.stamp hv hfollows dels).append_live adds)
  · rw [shows_some, PredicatePartition.seen_build, seen_append, seen_live_rows,
      seen_stamp_before hw, shows_stored]
    exact or_iff_left fun h => by omega
  · rw [shows_some, PredicatePartition.seen_build, seen_append, seen_live_rows,
      seen_stamp_after hstamped hv hfollows hw, shows_stored]
    simp [hw]

theorem rebuild_applied (hv : v < v') (dels : List Pair) {adds : List Pair}
    (hasc : adds.Pairwise (· < ·)) :
    Applied v v' dels adds existing (rebuild v' existing dels adds) := by
  have hlive := surviving_ascending hk dels
  have hcarried := carry_rows v' dels (stored_rows existing) ⟨[], [], 0⟩ hlive
  obtain ⟨hrows, hcount⟩ := add_rows v' adds
    ⟨(stored_rows existing).map (stamp v' dels), surviving dels (stored_rows existing), 0⟩
    hasc hlive
  rw [rebuild_eq, hcarried]
  simp only [List.nil_append, Nat.zero_add] at hrows hcount ⊢
  rw [hrows, hcount]
  refine ⟨?_, ended_rows hk dels, ?_⟩
  · apply (wrote_stamped hk hv dels _).adds
    intro p
    simp only [shows_iff_live hk (Nat.le_refl v), List.mem_filter, Bool.not_eq_true',
      List.contains_eq_mem, decide_eq_false_iff_not, mem_surviving hk]
    tauto
  · have hnodup : adds.Nodup := hasc.imp fun h => h.ne
    apply card_of_nodup (hnodup.filter _)
    intro p
    simp only [List.mem_filter, Finset.mem_filter, List.mem_toFinset, Bool.not_eq_true',
      List.contains_eq_mem, decide_eq_false_iff_not, mem_surviving hk]

omit hk in
theorem ended_none (dels : List Pair) : ended none dels = 0 := by simp [ended, live_pair]

/-- The write of one predicate of a batch. -/
theorem apply_partition_applied (hv : v < v') (dels : Option (List Pair))
    {adds : Option (List Pair)} (hasc : ∀ targets, adds = some targets → targets.Pairwise (· < ·)) :
    Applied v v' (dels.getD []) (adds.getD []) existing
      (apply_partition v' existing dels adds) := by
  cases dels with
  | none =>
    cases adds with
    | none => exact ⟨Wrote.refl hv hk, rfl, rfl⟩
    | some targets => exact append_run_applied hv hk (hasc targets rfl)
  | some dels =>
    simp only [apply_partition]
    split
    · rename_i hnone
      rw [Bool.and_eq_true, Option.isNone_iff_eq_none, Option.isNone_iff_eq_none] at hnone
      obtain ⟨rfl, rfl⟩ := hnone
      refine ⟨?_, (ended_none dels).symm, rfl⟩
      refine ⟨fun part h => absurd h (by simp [PartitionWrite.after]), fun p w _ => Iff.rfl,
        fun p w _ => ?_⟩
      exact iff_of_false (shows_none p w) (by simp [shows_none])
    · apply rebuild_applied hk hv
      cases adds with
      | none => exact .nil
      | some targets => exact hasc targets rfl

/-- The retraction of one predicate. -/
theorem retracted_rows (hv : v < v') (dels : List Pair) :
    let carried := (stored_rows existing).foldl (carry_row v' dels) ⟨[], [], 0⟩
    Applied v v' dels [] existing ⟨some (.build carried.rows), carried.retracted, 0⟩ := by
  have h := rebuild_applied hk hv dels .nil
  rwa [rebuild_eq] at h

end rebuilt

end horndb.storage
