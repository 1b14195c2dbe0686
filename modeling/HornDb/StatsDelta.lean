-- A delta moves every exact count by what the rows that came and went make up.
import HornDb.StatsExact

open HornDb.Lib
open Std (ExtTreeMap TransOrd LawfulEqOrd)

namespace horndb.wcoj.SnapshotStats

variable {T T' A R : Finset Triple}

/-! ## The net change -/

/-- `A` came and `R` went. -/
structure Net (T A R T' : Finset Triple) : Prop where
  fresh : Disjoint A T
  gone : R ⊆ T
  after : T' = (T \ R) ∪ A

/-- What is counted after is what was counted before, with what came and without what went. -/
theorem Net.card_filter (h : Net T A R T') (q : Triple → Prop) [DecidablePred q] :
    (T'.filter q).card + (R.filter q).card = (T.filter q).card + (A.filter q).card := by
  have hdisjoint : Disjoint ((T \ R).filter q) (A.filter q) :=
    (Finset.disjoint_filter_filter (h.fresh.symm.mono_left Finset.sdiff_subset))
  have hsub : R.filter q ⊆ T.filter q := Finset.filter_subset_filter q h.gone
  have hsplit : (T \ R).filter q = T.filter q \ R.filter q := by
    ext t
    simp only [Finset.mem_filter, Finset.mem_sdiff]
    tauto
  rw [h.after, Finset.filter_union, Finset.card_union_of_disjoint hdisjoint, hsplit,
    Finset.card_sdiff_of_subset hsub]
  have hle := Finset.card_le_card hsub
  omega

/-- The rows of a list are those of a set of triples, each once. -/
def Lists (rows : List Row) (S : Finset Triple) : Prop :=
  ∃ hsorted, (TripleColumns.mk rows hsorted).Holds .Spo S

theorem Lists.length_filter {rows : List Row} {S : Finset Triple} (h : Lists rows S)
    (q : Row → Prop) [DecidablePred q] :
    (rows.filter fun r => q r).length = (S.filter fun t => q (t.by_ordering .Spo)).card := by
  obtain ⟨_, h⟩ := h
  exact h.length_filter q

theorem Lists.length {rows : List Row} {S : Finset Triple} (h : Lists rows S) :
    rows.length = S.card := by
  obtain ⟨_, h⟩ := h
  exact h.length

theorem mem_targets (l : List Triple) (t : Triple) :
    t.by_ordering .Spo ∈ sort_dedup (l.map (·.by_ordering .Spo)) ↔ t ∈ l := by
  simp [by_ordering_inj]

theorem net_rows_spec (pre : VecTripleSource) (dels adds : List Triple) :
    ∃ A R, Lists (net_rows pre dels adds).1 A ∧ Lists (net_rows pre dels adds).2 R ∧
      Net pre.triples A R (pre.apply_delta dels adds).triples := by
  refine ⟨adds.toFinset \ pre.triples, (dels.toFinset \ adds.toFinset) ∩ pre.triples,
    ⟨(sort_dedup_strict _).filter _, fun t => ?_⟩, ⟨(sort_dedup_strict _).filter _, fun t => ?_⟩,
    ⟨Finset.sdiff_disjoint, Finset.inter_subset_right, ?_⟩⟩
  · have hpre := (spo_contains_iff (pre.columns .Spo) (t.by_ordering .Spo)).trans
      (pre.columns_holds .Spo t)
    unfold net_rows
    simp only [List.mem_filter, mem_targets, Bool.not_eq_true', ← Bool.not_eq_true, hpre,
      Finset.mem_sdiff, List.mem_toFinset]
  · have hpre := (spo_contains_iff (pre.columns .Spo) (t.by_ordering .Spo)).trans
      (pre.columns_holds .Spo t)
    unfold net_rows
    simp only [List.mem_filter, mem_targets, Bool.and_eq_true, Bool.not_eq_true',
      decide_eq_false_iff_not, hpre, Finset.mem_inter, Finset.mem_sdiff, List.mem_toFinset]
    tauto
  · rw [VecTripleSource.apply_delta_triples]
    ext t
    simp only [Finset.mem_union, Finset.mem_sdiff, Finset.mem_inter, List.mem_toFinset]
    tauto

/-! ## Entries that count -/

theorem iterate_up (n k : Nat) : (fun n => n + 1)^[k] n = n + k := by
  induction k generalizing n with
  | zero => rfl
  | succ k ih =>
    rw [Function.iterate_succ_apply, ih]
    omega

theorem iterate_down (n k : Nat) : (fun n => n - 1)^[k] n = n - k := by
  induction k generalizing n with
  | zero => rfl
  | succ k ih =>
    rw [Function.iterate_succ_apply, ih]
    omega

theorem iterate_int_up (n : Int) (k : Nat) : (fun n => n + 1)^[k] n = n + k := by
  induction k generalizing n with
  | zero => simp
  | succ k ih =>
    rw [Function.iterate_succ_apply, ih]
    omega

theorem iterate_int_down (n : Int) (k : Nat) : (fun n => n - 1)^[k] n = n - k := by
  induction k generalizing n with
  | zero => simp
  | succ k ih =>
    rw [Function.iterate_succ_apply, ih]
    omega

section Moved

variable {added removed : List Row} (hadded : Lists added A) (hremoved : Lists removed R)
  (hnet : Net T A R T')

include hadded hremoved hnet

/-- The counts of predicates after the rows that came and those that went. -/
theorem count_moved {m : ExtTreeMap TermId Nat}
    (hm : ∀ p, m[p]? = counted (with_predicate T p).card) (p : TermId) :
    (fold_entries Row.level1 (fun _ n => n.getD 0 - 1) removed
      (fold_entries Row.level1 (fun _ n => n.getD 0 + 1) added m))[p]?.getD 0 =
        (with_predicate T' p).card := by
  have hcard := hnet.card_filter fun t => t.p = p
  have ha := hadded.length_filter fun r => r.level1 = p
  have hr := hremoved.length_filter fun r => r.level1 = p
  rw [fold_entries_getD (f := fun n => n - 1), fold_entries_getD (f := fun n => n + 1),
    iterate_up, iterate_down, hm, getD_counted, ha, hr]
  show (T.filter fun t => t.p = p).card + (A.filter fun t => t.p = p).card -
    (R.filter fun t => t.p = p).card = (T'.filter fun t => t.p = p).card
  omega

/-- The groups of a side, and what each one moves by. -/
theorem groups_moved {group : Row → Group} {pos : Position}
    (hgroup : ∀ t : Triple, group (t.by_ordering .Spo) = toLex (t.p, pos.value t)) (p k : TermId) :
    ((with_value T p pos k).card : Int) + (net_groups group added removed)[toLex (p, k)]?.getD 0 =
      (with_value T' p pos k).card := by
  have hcard := hnet.card_filter fun t => t.p = p ∧ pos.value t = k
  have hwith : ∀ S : Finset Triple,
      (S.filter fun t => group (t.by_ordering .Spo) = toLex (p, k)) = with_value S p pos k := by
    intro S
    refine Finset.filter_congr fun t _ => ?_
    rw [hgroup, toLex_inj, Prod.mk.injEq]
  have ha := hadded.length_filter fun r => group r = toLex (p, k)
  have hr := hremoved.length_filter fun r => group r = toLex (p, k)
  rw [hwith] at ha hr
  unfold net_groups
  dsimp only
  rw [fold_entries_getD (f := fun n => n - 1), fold_entries_getD (f := fun n => n + 1),
    iterate_int_up, iterate_int_down, ha, hr]
  unfold with_value
  simp
  omega

/-- The sizes of the groups of a predicate: each group once, and every group that moved. -/
theorem group_sizes_at {group : Row → Group} {pos : Position}
    (hgroup : ∀ t : Triple, group (t.by_ordering .Spo) = toLex (t.p, pos.value t))
    (hlevel : ∀ r, (ofLex (group r)).1 = r.level1) {cols : TripleColumns} {ord : Ordering}
    (hcols : cols.Holds ord T) (hside : Sided ord pos) (p : TermId) :
    ∃ ks : List TermId, ks.Nodup ∧
      (group_sizes cols (net_groups group added removed)).filter (fun g => g.predicate = p) =
        ks.map (fun k => ⟨p, (with_value T p pos k).card, (with_value T' p pos k).card⟩) ∧
      (∀ k ∉ ks, (with_value T p pos k).card = (with_value T' p pos k).card) ∧
      (ks ≠ [] → ∃ r ∈ added ++ removed, r.level1 = p) := by
  have hmoved := groups_moved hadded hremoved hnet hgroup p
  have hfrom : ∀ g n, (net_groups group added removed)[g]? = some n →
      ∃ r ∈ added ++ removed, group r = g := by
    intro g n hn
    by_contra hnone
    push Not at hnone
    have habsent : (net_groups group added removed)[g]? = none := by
      unfold net_groups
      rw [fold_entries_eq_none, fold_entries_eq_none]
      exact ⟨⟨ExtTreeMap.getElem?_empty, fun r hr => hnone r (List.mem_append_left _ hr)⟩,
        fun r hr => hnone r (List.mem_append_right _ hr)⟩
    rw [habsent] at hn
    cases hn
  generalize net_groups group added removed = groups at hmoved hfrom
  have hentry : ∀ e ∈ groups.toList.filter fun e => (ofLex e.1).1 = p,
      ∃ k n, e = (toLex (p, k), n) ∧ groups[(toLex (p, k) : Group)]? = some n := by
    intro e he
    rw [List.mem_filter, decide_eq_true_eq] at he
    obtain ⟨g, n⟩ := e
    have hg : g = toLex (p, (ofLex g).2) := by
      rw [← he.2]
      rfl
    refine ⟨(ofLex g).2, n, by rw [← hg], ?_⟩
    rw [← hg]
    exact ExtTreeMap.mem_toList_iff_getElem?_eq_some.mp he.1
  refine ⟨(groups.toList.filter fun e => (ofLex e.1).1 = p).map fun e => (ofLex e.1).2,
    ?_, ?_, ?_, ?_⟩
  · rw [List.Nodup, List.pairwise_map]
    refine ((ExtTreeMap.distinct_keys_toList (t := groups)).filter _).imp_of_mem
      fun {e e'} he he' hne heq => hne ?_
    obtain ⟨k, n, rfl, _⟩ := hentry e he
    obtain ⟨k', n', rfl, _⟩ := hentry e' he'
    change k = k' at heq
    rw [heq]
    exact Std.ReflCmp.compare_self
  · unfold group_sizes
    rw [List.filter_map, List.map_map]
    refine List.map_congr_left fun e he => ?_
    obtain ⟨k, n, rfl, hn⟩ := hentry e he
    have hk := hmoved k
    rw [hn, Option.getD_some] at hk
    show GroupSize.mk p (prefix_len cols p k) ((prefix_len cols p k : Int) + n).toNat = _
    rw [prefix_len_exact hcols hside, hk]
    rfl
  · intro k hk
    have hk' := hmoved k
    cases hn : groups[(toLex (p, k) : Group)]? with
    | none =>
      rw [hn] at hk'
      simpa using hk'
    | some n =>
      refine absurd (List.mem_map.mpr ⟨(toLex (p, k), n), List.mem_filter.mpr ⟨?_, ?_⟩, rfl⟩) hk
      · exact ExtTreeMap.mem_toList_iff_getElem?_eq_some.mpr hn
      · exact decide_eq_true rfl
  · intro hne
    obtain ⟨k, hk⟩ := List.exists_mem_of_ne_nil _ hne
    obtain ⟨e, he, _⟩ := List.mem_map.mp hk
    obtain ⟨k', n, rfl, hn⟩ := hentry e he
    obtain ⟨r, hr, hgr⟩ := hfrom _ n hn
    refine ⟨r, hr, ?_⟩
    rw [← hlevel, hgr]
    rfl

end Moved

/-! ## The distinct values -/

theorem values_split (T : Finset Triple) (p : TermId) (pos : Position) {ks : List TermId}
    (hks : ks.Nodup) : (values_of T p pos).card =
      (ks.filter fun k => 0 < (with_value T p pos k).card).length +
        ((values_of T p pos).filter fun k => k ∉ ks).card := by
  have hinside : (ks.filter fun k => 0 < (with_value T p pos k).card).length =
      ((values_of T p pos).filter fun k => k ∈ ks).card := by
    rw [← List.toFinset_card_of_nodup (hks.filter _)]
    congr 1
    ext k
    rw [List.mem_toFinset, List.mem_filter, decide_eq_true_eq, Finset.mem_filter, mem_values_of,
      and_comm]
  rw [hinside]
  exact (Finset.card_filter_add_card_filter_not _).symm

/-- The steps of the groups, in any order: the count never falls below what is left to go. -/
theorem foldl_steps (p : TermId) (before after : TermId → Nat) (ks : List TermId) (o : Option Nat)
    (ho : (ks.filter fun k => 0 < before k).length ≤ o.getD 0) :
    ((ks.map fun k => GroupSize.mk p (before k) (after k)).foldl
      (fun o g => some ((((o.getD 0 : Nat) : Int) + g.step).toNat)) o).getD 0 +
        (ks.filter fun k => 0 < before k).length =
      o.getD 0 + (ks.filter fun k => 0 < after k).length := by
  induction ks generalizing o with
  | nil => rfl
  | cons k ks ih =>
    rw [List.map_cons, List.foldl_cons]
    have hstep : (GroupSize.mk p (before k) (after k)).step =
        (if 0 < after k then 1 else 0) - (if 0 < before k then 1 else 0) := rfl
    rw [hstep]
    have hrest := ih (some ((((o.getD 0 : Nat) : Int) +
      ((if 0 < after k then 1 else 0) - (if 0 < before k then 1 else 0))).toNat))
    simp only [Option.getD_some] at hrest
    simp only [List.filter_cons, decide_eq_true_eq] at ho ⊢
    by_cases hb : 0 < before k <;> by_cases ha : 0 < after k <;>
      simp only [hb, ha, if_true, if_false, List.length_cons] at ho hrest ⊢ <;> omega

/-- The values of a predicate after the groups that came and those that went. -/
theorem values_moved {pos : Position} {p : TermId} {ks : List TermId} (hks : ks.Nodup)
    (hsame : ∀ k ∉ ks, (with_value T p pos k).card = (with_value T' p pos k).card)
    {o : Option Nat} (ho : o.getD 0 = (values_of T p pos).card) :
    ((ks.map fun k => GroupSize.mk p (with_value T p pos k).card (with_value T' p pos k).card).foldl
      (fun o g => some ((((o.getD 0 : Nat) : Int) + g.step).toNat)) o).getD 0 =
        (values_of T' p pos).card := by
  have hbefore := values_split T p pos hks
  have hafter := values_split T' p pos hks
  have houtside : (values_of T p pos).filter (fun k => k ∉ ks) =
      (values_of T' p pos).filter fun k => k ∉ ks := by
    ext k
    rw [Finset.mem_filter, Finset.mem_filter, mem_values_of, mem_values_of]
    exact and_congr_left fun hk => by rw [hsame k hk]
  have hsteps := foldl_steps p (fun k => (with_value T p pos k).card)
    (fun k => (with_value T' p pos k).card) ks o (by omega)
  rw [houtside] at hbefore
  omega

/-! ## The degrees -/

theorem side_raise_self (role : Position) (n : Nat) (d : Nat × Nat) :
    n ≤ role.side (raise role n d) := by
  cases role <;> exact le_max_right _ _

theorem side_raise_le (role pos : Position) (n : Nat) (d : Nat × Nat) :
    pos.side d ≤ pos.side (raise role n d) := by
  cases role <;> cases pos <;> first | exact le_max_left _ _ | exact le_refl _

theorem foldl_raise (role pos : Position) (gs : List GroupSize) (o : Option (Nat × Nat)) :
    let o' := gs.foldl (fun o g => some (raise role g.after (o.getD (0, 0)))) o
    pos.side (o.getD (0, 0)) ≤ pos.side (o'.getD (0, 0)) ∧
      ∀ g ∈ gs, g.after ≤ role.side (o'.getD (0, 0)) := by
  induction gs generalizing o pos with
  | nil => exact ⟨le_refl _, nofun⟩
  | cons g gs ih =>
    dsimp only at ih ⊢
    rw [List.foldl_cons]
    obtain ⟨hle, hgs⟩ := ih pos (some (raise role g.after (o.getD (0, 0))))
    refine ⟨(side_raise_le role pos g.after _).trans hle, fun g' hg' => ?_⟩
    rcases List.mem_cons.mp hg' with rfl | hg'
    · exact (side_raise_self role g'.after _).trans
        (ih role (some (raise role g'.after (o.getD (0, 0))))).1
    · exact hgs g' hg'

/-- The degrees after the groups of a side grew: no less than they were, nor than a group. -/
theorem grow_degree_spec (role pos : Position) (sizes : List GroupSize)
    (m : ExtTreeMap TermId (Nat × Nat)) (p : TermId) :
    pos.side (m[p]?.getD (0, 0)) ≤ pos.side ((grow_degree role sizes m)[p]?.getD (0, 0)) ∧
      ∀ g ∈ sizes, g.predicate = p →
        g.after ≤ role.side ((grow_degree role sizes m)[p]?.getD (0, 0)) := by
  unfold grow_degree
  rw [getElem?_fold_entries]
  obtain ⟨hle, hgs⟩ := foldl_raise role pos
    ((sizes.filter fun g => 0 < g.after).filter fun g => g.predicate = p) m[p]?
  refine ⟨hle, fun g hg hp => ?_⟩
  rcases Nat.eq_zero_or_pos g.after with hzero | hpos
  · rw [hzero]
    exact Nat.zero_le _
  · refine hgs g (List.mem_filter.mpr ⟨List.mem_filter.mpr ⟨hg, ?_⟩, ?_⟩)
    · exact decide_eq_true hpos
    · exact decide_eq_true hp

/-! ## The invariant -/

theorem getElem?_remove_all {β : Type} (m : ExtTreeMap TermId β) (keys : List TermId) (p : TermId) :
    (remove_all m keys)[p]? = if p ∈ keys then none else m[p]? := by
  unfold remove_all
  induction keys generalizing m with
  | nil => rfl
  | cons k keys ih =>
    rw [List.foldl_cons, ih, ExtTreeMap.getElem?_erase]
    by_cases hk : k = p
    · subst hk
      simp
    · have hne : ¬ compare k p = .eq := fun h => hk (LawfulEqOrd.eq_of_compare h)
      simp [hne, Ne.symm hk]

/-- The statistics count the triples in `T`. Only the degrees may be more than they are. -/
structure Exact (stats : SnapshotStats) (T : Finset Triple) : Prop where
  total : stats.total = T.card
  distinct : stats.distinct_predicates = max stats.predicate_count.size 1
  counts : ∀ p, stats.predicate_count[p]? = counted (with_predicate T p).card
  subjects : ∀ p, stats.ndv_subject[p]? = counted (values_of T p .Subject).card
  objects : ∀ p, stats.ndv_object[p]? = counted (values_of T p .Object).card
  degrees : Degrees stats.max_degree T
  sampling : stats.sampling_enabled = false

theorem from_source_exact (src : VecTripleSource) : Exact (from_source src) src.triples where
  total := (src.columns_holds .Spo).length
  distinct := rfl
  counts := count_rows_exact (src.columns_holds .Pso) pso_sided
  subjects := count_values_exact (src.columns_holds .Pso) pso_sided
  objects := count_values_exact (src.columns_holds .Pos) pos_sided
  degrees := build_max_degree_degrees src
  sampling := rfl

/-- Two exact statistics of the same triples agree, but for the degrees. -/
theorem Exact.same {stats stats' : SnapshotStats} (h : Exact stats T) (h' : Exact stats' T) :
    stats.total = stats'.total ∧ stats.predicate_count = stats'.predicate_count ∧
      stats.distinct_predicates = stats'.distinct_predicates ∧
      stats.ndv_subject = stats'.ndv_subject ∧ stats.ndv_object = stats'.ndv_object := by
  have hcounts : stats.predicate_count = stats'.predicate_count :=
    ExtTreeMap.ext_getElem? fun p => (h.counts p).trans (h'.counts p).symm
  refine ⟨h.total.trans h'.total.symm, hcounts, ?_, ?_, ?_⟩
  · rw [h.distinct, h'.distinct, hcounts]
  · exact ExtTreeMap.ext_getElem? fun p => (h.subjects p).trans (h'.subjects p).symm
  · exact ExtTreeMap.ext_getElem? fun p => (h.objects p).trans (h'.objects p).symm

/-- The entry of a predicate stays when it counts something, and leaves with its last triple. -/
theorem moved_counted {o o' : Option Nat} {n n' : Nat} (ho : o.getD 0 = n)
    (ho' : o'.getD 0 = n') (hzero : n' = 0 ↔ n = 0) (hnone : o = none → o' = none) :
    (if o = some 0 then none else o') = counted n' := by
  unfold counted
  cases o with
  | none =>
    rw [hnone rfl] at ho' ⊢
    simp at ho'
    simp [← ho']
  | some c =>
    simp only [Option.getD_some] at ho
    subst ho
    by_cases hc : c = 0
    · simp [hc, hzero.mpr hc]
    · have hn : n' ≠ 0 := fun h => hc (hzero.mp h)
      cases o' with
      | none => exact absurd ho'.symm hn
      | some c' =>
        simp only [Option.getD_some] at ho'
        simp [hc, hn, ho']

section Step

variable {added removed : List Row} (hadded : Lists added A) (hremoved : Lists removed R)
  (hnet : Net T A R T')

include hadded hremoved hnet

theorem ndv_moved {group : Row → Group} {pos : Position}
    (hgroup : ∀ t : Triple, group (t.by_ordering .Spo) = toLex (t.p, pos.value t))
    (hlevel : ∀ r, (ofLex (group r)).1 = r.level1) {cols : TripleColumns} {ord : Ordering}
    (hcols : cols.Holds ord T) (hside : Sided ord pos) {m : ExtTreeMap TermId Nat}
    (hm : ∀ p, m[p]? = counted (values_of T p pos).card) (p : TermId) :
    (move_ndv (group_sizes cols (net_groups group added removed)) m)[p]?.getD 0 =
        (values_of T' p pos).card ∧
      ((∀ r ∈ added ++ removed, r.level1 ≠ p) →
        (move_ndv (group_sizes cols (net_groups group added removed)) m)[p]? = m[p]?) := by
  obtain ⟨ks, hnodup, hsizes, hsame, hrows⟩ :=
    group_sizes_at hadded hremoved hnet hgroup hlevel hcols hside p
  unfold move_ndv
  rw [getElem?_fold_entries, hsizes]
  refine ⟨values_moved hnodup hsame ?_, fun hnone => ?_⟩
  · rw [hm, getD_counted]
  · have hks : ks = [] := by
      by_contra hne
      obtain ⟨r, hr, hp⟩ := hrows hne
      exact hnone r hr hp
    rw [hks]
    rfl

theorem degrees_moved {group : Row → Group} {pos : Position}
    (hgroup : ∀ t : Triple, group (t.by_ordering .Spo) = toLex (t.p, pos.value t))
    (hlevel : ∀ r, (ofLex (group r)).1 = r.level1) {cols : TripleColumns} {ord : Ordering}
    (hcols : cols.Holds ord T) (hside : Sided ord pos) {m : ExtTreeMap TermId (Nat × Nat)}
    (p k : TermId) (hm : (with_value T p pos k).card ≤ pos.side (m[p]?.getD (0, 0))) :
    (with_value T' p pos k).card ≤ pos.side ((grow_degree pos
      (group_sizes cols (net_groups group added removed)) m)[p]?.getD (0, 0)) := by
  obtain ⟨ks, _, hsizes, hsame, _⟩ :=
    group_sizes_at hadded hremoved hnet hgroup hlevel hcols hside p
  obtain ⟨hle, hgrown⟩ :=
    grow_degree_spec pos pos (group_sizes cols (net_groups group added removed)) m p
  by_cases hk : k ∈ ks
  · have hmem : GroupSize.mk p (with_value T p pos k).card (with_value T' p pos k).card ∈
        (group_sizes cols (net_groups group added removed)).filter fun g => g.predicate = p := by
      rw [hsizes]
      exact List.mem_map_of_mem hk
    exact hgrown _ (List.mem_filter.mp hmem).1 rfl
  · rw [← hsame k hk]
    exact hm.trans hle

end Step

theorem subject_group_row (t : Triple) :
    subject_group (t.by_ordering .Spo) = toLex (t.p, Position.Subject.value t) := rfl

theorem object_group_row (t : Triple) :
    object_group (t.by_ordering .Spo) = toLex (t.p, Position.Object.value t) := rfl

theorem mem_dead (m : ExtTreeMap TermId Nat) (p : TermId) :
    p ∈ (m.toList.filter fun e => e.2 == 0).map Prod.fst ↔ m[p]? = some 0 := by
  rw [List.mem_map]
  constructor
  · rintro ⟨⟨q, n⟩, he, rfl⟩
    rw [List.mem_filter, ExtTreeMap.mem_toList_iff_getElem?_eq_some, beq_iff_eq] at he
    exact he.1.trans (congrArg some he.2)
  · intro hp
    refine ⟨(p, 0), List.mem_filter.mpr ⟨?_, rfl⟩, rfl⟩
    exact ExtTreeMap.mem_toList_iff_getElem?_eq_some.mpr hp

theorem Exact.apply_delta {stats : SnapshotStats} {pre : VecTripleSource}
    (h : Exact stats pre.triples) (dels adds : List Triple) :
    Exact (stats.apply_delta pre dels adds).1 (pre.apply_delta dels adds).triples := by
  obtain ⟨A, R, hadded, hremoved, hnet⟩ := net_rows_spec pre dels adds
  unfold SnapshotStats.apply_delta
  rw [h.sampling, if_neg Bool.false_ne_true]
  generalize net_rows pre dels adds = net at hadded hremoved
  obtain ⟨added, removed⟩ := net
  generalize (pre.apply_delta dels adds).triples = T' at hnet
  dsimp only at hadded hremoved ⊢
  split
  · rename_i hnone
    have hA : A = ∅ := Finset.card_eq_zero.mp (by rw [← hadded.length, hnone.1, List.length_nil])
    have hR : R = ∅ := Finset.card_eq_zero.mp (by rw [← hremoved.length, hnone.2, List.length_nil])
    rw [hnet.after, hA, hR, Finset.sdiff_empty, Finset.union_empty]
    exact h
  · have hcounts := count_moved hadded hremoved hnet h.counts
    have hsubjects := ndv_moved hadded hremoved hnet subject_group_row (fun _ => rfl)
      (pre.columns_holds .Pso) pso_sided h.subjects
    have hobjects := ndv_moved hadded hremoved hnet object_group_row (fun _ => rfl)
      (pre.columns_holds .Pos) pos_sided h.objects
    -- A predicate without an entry was not there, and no row of it came or went.
    have habsent : ∀ p, (fold_entries Row.level1 (fun _ n => n.getD 0 - 1) removed
        (fold_entries Row.level1 (fun _ n => n.getD 0 + 1) added
          stats.predicate_count))[p]? = none →
        (with_predicate pre.triples p).card = 0 ∧ ∀ r ∈ added ++ removed, r.level1 ≠ p := by
      intro p hp
      rw [fold_entries_eq_none, fold_entries_eq_none, h.counts, counted_eq_none] at hp
      refine ⟨hp.1.1, fun r hr => ?_⟩
      rcases List.mem_append.mp hr with hr | hr
      · exact hp.1.2 r hr
      · exact hp.2 r hr
    generalize fold_entries Row.level1 (fun _ (n : Option Nat) => n.getD 0 - 1) removed
      (fold_entries Row.level1 (fun _ (n : Option Nat) => n.getD 0 + 1) added
        stats.predicate_count) = predicate_count at hcounts habsent ⊢
    refine ⟨?_, rfl, fun p => ?_, fun p => ?_, fun p => ?_, fun p pos k => ?_, rfl⟩
    · have hcard := hnet.card_filter fun _ => True
      simp only [Finset.filter_true] at hcard
      show stats.total + added.length - removed.length = T'.card
      rw [h.total, hadded.length, hremoved.length]
      omega
    · show (remove_all predicate_count _)[p]? = _
      rw [getElem?_remove_all]
      simp only [mem_dead]
      exact moved_counted (hcounts p) (hcounts p) Iff.rfl id
    · show (remove_all (move_ndv _ stats.ndv_subject) _)[p]? = _
      rw [getElem?_remove_all]
      simp only [mem_dead]
      refine moved_counted (hcounts p) (hsubjects p).1 values_of_eq_empty fun hp => ?_
      rw [(hsubjects p).2 (habsent p hp).2, h.subjects, counted_eq_none, values_of_eq_empty]
      exact (habsent p hp).1
    · show (remove_all (move_ndv _ stats.ndv_object) _)[p]? = _
      rw [getElem?_remove_all]
      simp only [mem_dead]
      refine moved_counted (hcounts p) (hobjects p).1 values_of_eq_empty fun hp => ?_
      rw [(hobjects p).2 (habsent p hp).2, h.objects, counted_eq_none, values_of_eq_empty]
      exact (habsent p hp).1
    · show _ ≤ pos.side ((remove_all (grow_degree .Object _ (grow_degree .Subject _ _)) _)[p]?.getD
        (0, 0))
      rw [getElem?_remove_all]
      simp only [mem_dead]
      split
      · rename_i hdead
        have hle := Finset.card_le_card (with_value_subset T' p pos k)
        rw [← hcounts p, hdead] at hle
        exact hle.trans (Nat.zero_le _)
      · cases pos with
        | Subject =>
          have hgrown := degrees_moved hadded hremoved hnet subject_group_row (fun _ => rfl)
            (pre.columns_holds .Pso) pso_sided p k (h.degrees p .Subject k)
          exact hgrown.trans (grow_degree_spec .Object .Subject _ _ p).1
        | Object =>
          exact degrees_moved hadded hremoved hnet object_group_row (fun _ => rfl)
            (pre.columns_holds .Pos) pos_sided p k
            ((h.degrees p .Object k).trans (grow_degree_spec .Subject .Object _ _ p).1)

end horndb.wcoj.SnapshotStats
