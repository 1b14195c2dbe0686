-- A batch of the tier as what it does to each partition: its loops over graphs and predicates
-- change the partitions of the batch and no other, and its reports count each quad once.
import HornDb.Lib.RowFold
import HornDb.PartitionBatches

open Std HornDb.Lib HornDb.Lib.RowFold

namespace horndb.storage

/-! ## What a snapshot shows -/

namespace TierSnapshot

/-- A scan of the quad's partition at a version has the quad. -/
def shows (t : TierSnapshot) (at_version : Nat) (q : Quad) : Bool :=
  (t.partition q.graph q.predicate).any fun part => (part.scan_at at_version).contains q.pair

/-- The warm form of a partition. -/
def warm (t : TierSnapshot) (g : GraphId) (p : TermId) : Option PredicatePartition :=
  (t.partition g p).map warm_for_write

end TierSnapshot

/-- A cold partition shows its pairs, and its warm form does from its version on. -/
theorem seen_promote (cold : ColdPartition) (p : Pair) (w : Nat) :
    Seen cold.promote.all_rows p w ↔ p ∈ cold.pairs ∧ cold.version ≤ w := by
  unfold ColdPartition.promote
  rw [PredicatePartition.seen_build, seen_live_rows]

/-- A snapshot as its version left it. A cold partition was moved at the version in `since` or
before. -/
structure TierSnapshot.Sound (t : TierSnapshot) (since : GraphId → TermId → Nat) : Prop where
  kept : ∀ g p, KeptAt (t.warm g p) t.version
  cold : ∀ g p part, t.partition g p = some (.Cold part) →
    part.version ≤ since g p ∧ part.pairs.Nodup
  since_le : ∀ g p, since g p ≤ t.version

namespace TierSnapshot

variable {t : TierSnapshot} {since : GraphId → TermId → Nat} {w : Nat} {g : GraphId} {p : TermId}

theorem warm_of_partition {part : Partition} (h : t.partition g p = some part) :
    t.warm g p = some (warm_for_write part) := by
  unfold warm
  rw [h]
  rfl

/-- From the last move on, a snapshot shows what its partitions show once they are warm. -/
theorem Sound.shows_iff (h : t.Sound since) {q : Quad} (hw : since q.graph q.predicate ≤ w) :
    t.shows w q = true ↔ Shows (t.warm q.graph q.predicate) q.pair w := by
  unfold shows
  cases hpart : t.partition q.graph q.predicate with
  | none =>
    unfold warm
    rw [hpart]
    exact iff_of_false Bool.false_ne_true (shows_none q.pair w)
  | some part =>
    rw [warm_of_partition hpart, shows_some, Option.any_some, List.contains_iff_mem]
    cases part with
    | Warm part => exact part.mem_scan_at w q.pair
    | Cold part =>
      have hle := (h.cold _ _ part hpart).1.trans hw
      exact ((seen_promote part q.pair w).trans (and_iff_left hle)).symm

/-- A scan gives each pair once, and from the last write on as many as there are live. -/
theorem Sound.scanned (h : t.Sound since) {part : Partition} (hpart : t.partition g p = some part) :
    (part.scan_at t.version).Nodup ∧ part.live_len = (part.scan_at t.version).length := by
  cases part with
  | Warm part =>
    have hkept := h.kept g p part (warm_of_partition hpart)
    refine ⟨scan_at_nodup hkept t.version, ?_⟩
    exact (reads_agree ⟨part, 0, none, nofun⟩ hkept).counted t.version (Nat.le_refl _)
  | Cold part => exact ⟨(h.cold g p part hpart).2, rfl⟩

theorem sound_empty : empty.Sound fun _ _ => 0 := by
  have hnone : ∀ g p, empty.partition g p = none := fun g p => by
    unfold partition empty
    rw [ExtTreeMap.getElem?_empty]
    rfl
  refine ⟨fun g p => ?_, fun g p part hpart => ?_, fun _ _ => Nat.le_refl _⟩
  · unfold warm
    rw [hnone]
    exact KeptAt.none 0
  · rw [hnone] at hpart
    cases hpart

end TierSnapshot

/-! ## Batches by partition -/

/-- The pairs of a batch for one partition. -/
def pairs_at (quads : List Quad) (g : GraphId) (p : TermId) : List Pair :=
  (quads.filter fun q => q.graph = g ∧ q.predicate = p).map Quad.pair

/-- The quad of a pair in a partition. -/
def quad_at (g : GraphId) (p : TermId) (pair : Pair) : Quad :=
  ⟨g, (ofLex pair).1, p, (ofLex pair).2⟩

theorem quad_at_pair (q : Quad) : quad_at q.graph q.predicate q.pair = q := rfl

theorem mem_pairs_at {quads : List Quad} {g : GraphId} {p : TermId} {pair : Pair} :
    pair ∈ pairs_at quads g p ↔ quad_at g p pair ∈ quads := by
  unfold pairs_at
  rw [List.mem_map]
  constructor
  · rintro ⟨q, hq, rfl⟩
    obtain ⟨hmem, hkey⟩ := List.mem_filter.mp hq
    obtain ⟨rfl, rfl⟩ := of_decide_eq_true hkey
    exact hmem
  · intro h
    exact ⟨quad_at g p pair, List.mem_filter.mpr ⟨h, decide_eq_true ⟨rfl, rfl⟩⟩, rfl⟩

/-- The grouped pairs of a batch, or none where it has no quad of the partition. -/
theorem group_at (quads : List Quad) (g : GraphId) (p : TermId) :
    ((group quads).getD g ∅)[p]?.getD [] = pairs_at quads g p := by
  unfold group
  induction quads using List.reverseRecOn with
  | nil => simp [pairs_at]
  | append_singleton quads q ih =>
    rw [List.foldl_concat]
    generalize quads.foldl add_target ∅ = targets at ih
    have hone : pairs_at (quads ++ [q]) g p =
        pairs_at quads g p ++ if q.graph = g ∧ q.predicate = p then [q.pair] else [] := by
      unfold pairs_at
      rw [List.filter_append, List.map_append]
      by_cases hkey : q.graph = g ∧ q.predicate = p <;> simp [hkey]
    rw [hone, ← ih]
    unfold add_target
    dsimp only
    rw [ExtTreeMap.getD_insert]
    by_cases hg : q.graph = g
    · subst hg
      simp only [Std.compare_eq_iff_eq, if_true, true_and]
      rw [ExtTreeMap.getElem?_insert]
      by_cases hp : q.predicate = p
      · subst hp
        simp only [Std.compare_eq_iff_eq, if_true, Option.getD_some]
        rw [ExtTreeMap.getD_eq_getD_getElem?]
      · simp only [Std.compare_eq_iff_eq, if_neg hp, List.append_nil]
    · simp only [Std.compare_eq_iff_eq, hg, false_and, if_false, List.append_nil]

/-! ## The loops over a batch -/

/-- What an insertion, a retraction and an application do to one partition. -/
def inserted_part (version : Nat) (pairs : List Pair) (part : Option Partition) :
    Option Partition :=
  some (.Warm (insert_rows (part.map warm_for_write) (pairs.map (live_row version))))

def retracted_part (version : Nat) (dels : List Pair) (part : Option Partition) :
    Option Partition :=
  part.map fun part => .Warm (retracted version dels (warm_for_write part))

def applied_part (version : Nat) (dels adds : Option (List Pair)) (part : Option Partition) :
    Option Partition :=
  ((apply_partition version (part.map warm_for_write) dels adds).part.map .Warm).or part

theorem insert_partition_row (version : Nat) :
    RowStep (insert_partition version) Prod.fst (fun _ => ())
      (fun (parts : GraphStore) p => parts[p]?)
      (fun _ e part => inserted_part version e.2 part) where
  kept _ _ := rfl
  other parts e p hp := by
    rw [insert_partition_eq, getElem?_insert_other _ hp]
  self parts e := by
    rw [insert_partition_eq, ExtTreeMap.getElem?_insert_self]
    rfl

theorem insert_graph_row (version : Nat) :
    RowStep (insert_graph version) Prod.fst (fun _ => ())
      (fun (graphs : ExtTreeMap GraphId GraphStore) g => graphs.getD g ∅)
      (fun _ e parts => e.2.toList.foldl (insert_partition version) parts) where
  kept _ _ := rfl
  other graphs e g hg := by
    unfold insert_graph
    exact getD_insert_other _ _ hg
  self graphs e := by
    unfold insert_graph
    rw [ExtTreeMap.getD_insert_self]

theorem retract_partition_row (version : Nat) :
    RowStep (retract_partition version) Prod.fst (fun _ => ())
      (fun (st : GraphWrite) p => st.partitions[p]?)
      (fun _ e part => retracted_part version e.2 part) where
  kept _ _ := rfl
  other st e p hp := by
    rw [retract_partition_of_in_order]
    split
    · rfl
    · exact getElem?_insert_other _ hp
  self st e := by
    rw [retract_partition_of_in_order]
    unfold retracted_part
    cases hpart : st.partitions[e.1]? with
    | none => exact hpart
    | some part =>
      dsimp only
      rw [ExtTreeMap.getElem?_insert_self, Option.map_some]

theorem retract_graph_row (version : Nat) :
    RowStep (retract_graph version) Prod.fst (fun _ => ())
      (fun (st : TierWrite) g => st.graphs.getD g ∅)
      (fun _ e parts =>
        (e.2.toList.foldl (retract_partition version) ⟨parts, 0, 0⟩).partitions) where
  kept _ _ := rfl
  other st e g hg := by
    unfold retract_graph
    split
    · rfl
    · exact getD_insert_other _ _ hg
  self st e := by
    have halike : ∀ st' : GraphWrite, st'.partitions = st.graphs.getD e.1 ∅ →
        (e.2.toList.foldl (retract_partition version) st').partitions =
          (e.2.toList.foldl (retract_partition version) ⟨st.graphs.getD e.1 ∅, 0, 0⟩).partitions :=
      fun st' hst => ExtTreeMap.ext_getElem?
        ((retract_partition_row version).foldl_congr _ rfl fun p => by rw [hst])
    unfold retract_graph
    cases hg : st.graphs[e.1]? with
    | none =>
      dsimp only
      have hempty : st.graphs.getD e.1 ∅ = ∅ := by
        rw [ExtTreeMap.getD_eq_getD_getElem?, hg]
        rfl
      rw [hempty]
      refine ExtTreeMap.ext_getElem? fun p => ?_
      rcases (retract_partition_row version).foldl_map e.2 ⟨∅, 0, 0⟩ p with ⟨_, -, hp⟩ | ⟨-, hp⟩
      · exact (hp.trans (by simp [retracted_part])).symm
      · exact hp.symm
    | some parts =>
      dsimp only
      rw [ExtTreeMap.getD_insert_self]
      exact halike _ (by rw [ExtTreeMap.getD_eq_getD_getElem?, hg, Option.getD_some])

theorem apply_predicate_row (version : Nat) (dels adds : ExtTreeMap TermId (List Pair)) :
    RowStep (apply_predicate version dels adds) id (fun _ => ())
      (fun (st : GraphWrite) p => st.partitions[p]?)
      (fun _ p part => applied_part version dels[p]? adds[p]? part) where
  kept _ _ := rfl
  other st e p hp := by
    unfold apply_predicate
    dsimp only
    cases (apply_partition version (st.partitions[e]?.map warm_for_write) dels[e]?
      adds[e]?).part with
    | none => rfl
    | some part => exact getElem?_insert_other _ hp
  self st e := by
    unfold apply_predicate applied_part
    dsimp only [id]
    cases (apply_partition version (st.partitions[e]?.map warm_for_write) dels[e]?
      adds[e]?).part with
    | none => rfl
    | some part =>
      rw [Option.elim_some, ExtTreeMap.getElem?_insert_self]
      rfl

theorem applied_part_isSome (version : Nat) (dels adds : Option (List Pair))
    {part : Option Partition} (h : part.isSome) :
    (applied_part version dels adds part).isSome := by
  unfold applied_part
  rw [Option.isSome_or, h, Bool.or_true]

theorem apply_graph_row (version : Nat) (dels adds : Targets)
    (graphs_before : ExtTreeMap GraphId GraphStore) :
    RowStep (apply_graph version dels adds graphs_before) id (fun _ => ())
      (fun (st : TierWrite) g => st.graphs.getD g ∅)
      (fun _ g parts => ((touched (dels.getD g ∅) (adds.getD g ∅)).toList.foldl
        (apply_predicate version (dels.getD g ∅) (adds.getD g ∅)) ⟨parts, 0, 0⟩).partitions) where
  kept _ _ := rfl
  other st e g hg := by
    unfold apply_graph
    dsimp only
    split
    · rfl
    · exact getD_insert_other _ _ hg
  self st g := by
    have hrow := apply_predicate_row version (dels.getD g ∅) (adds.getD g ∅)
    have halike : ((touched (dels.getD g ∅) (adds.getD g ∅)).toList.foldl
        (apply_predicate version (dels.getD g ∅) (adds.getD g ∅))
          ⟨st.graphs.getD g ∅, st.retracted, st.inserted⟩).partitions =
        ((touched (dels.getD g ∅) (adds.getD g ∅)).toList.foldl
          (apply_predicate version (dels.getD g ∅) (adds.getD g ∅))
            ⟨st.graphs.getD g ∅, 0, 0⟩).partitions :=
      ExtTreeMap.ext_getElem? (hrow.foldl_congr _ rfl fun p => rfl)
    unfold apply_graph
    dsimp only [id]
    rw [halike]
    split
    · -- A write takes no partition away, so there was none either.
      rename_i hnone
      have hempty := ExtTreeMap.isEmpty_iff.mp (Bool.and_eq_true_iff.mp hnone).1
      refine ExtTreeMap.ext_getElem? fun p => ?_
      rw [hempty, ExtTreeMap.getElem?_empty]
      have hafter := congrArg (fun parts : GraphStore => parts[p]?) hempty
      rw [ExtTreeMap.getElem?_empty] at hafter
      by_contra hsome
      have hsome := Option.isSome_iff_ne_none.mpr hsome
      rcases hrow.foldl_set (touched (dels.getD g ∅) (adds.getD g ∅))
        ⟨st.graphs.getD g ∅, 0, 0⟩ p with ⟨-, hp⟩ | ⟨-, hp⟩
      · have hsome := applied_part_isSome version (dels.getD g ∅)[p]? (adds.getD g ∅)[p]? hsome
        rw [← hp, hafter] at hsome
        cases hsome
      · rw [← hp, hafter] at hsome
        cases hsome
    · rw [ExtTreeMap.getD_insert_self]

/-! ## Partitions after a batch -/

namespace TierSnapshot

theorem partition_eq (t : TierSnapshot) (g : GraphId) (p : TermId) :
    t.partition g p = (t.graphs.getD g ∅)[p]? := by
  unfold partition
  rw [ExtTreeMap.getD_eq_getD_getElem?]
  cases t.graphs[g]? with
  | none => rw [Option.bind_none, Option.getD_none, ExtTreeMap.getElem?_empty]
  | some parts => rfl

/-- Where a batch has no quad of a partition, it has no pairs for it. -/
theorem pairs_at_nil {quads : List Quad} {g : GraphId} {p : TermId}
    (h : ((group quads).getD g ∅)[p]? = none) : pairs_at quads g p = [] := by
  rw [← group_at, h]
  rfl

theorem pairs_at_some {quads : List Quad} {g : GraphId} {p : TermId} {pairs : List Pair}
    (h : ((group quads).getD g ∅)[p]? = some pairs) : pairs_at quads g p = pairs := by
  rw [← group_at, h]
  rfl

variable (t : TierSnapshot) (quads dels adds : List Quad) (g : GraphId) (p : TermId)

/-- A fold over a grouped batch does to each partition of the batch what its pairs ask for. -/
theorem grouped_row {σ τ : Type} {outer : σ → GraphId × ExtTreeMap TermId (List Pair) → σ}
    {inner : τ → TermId × List Pair → τ} {graph : σ → GraphId → GraphStore}
    (parts : τ → GraphStore) (enter : GraphStore → τ)
    {upd : List Pair → Option Partition → Option Partition}
    (houter : RowStep outer Prod.fst (fun _ => ()) graph
      (fun _ e r => parts (e.2.toList.foldl inner (enter r))))
    (hinner : RowStep inner Prod.fst (fun _ => ()) (fun st p => (parts st)[p]?)
      (fun _ e r => upd e.2 r)) (henter : ∀ r, parts (enter r) = r) (s : σ) :
    (graph ((group quads).toList.foldl outer s) g)[p]? =
        upd (pairs_at quads g p) (graph s g)[p]? ∨
      pairs_at quads g p = [] ∧
        (graph ((group quads).toList.foldl outer s) g)[p]? = (graph s g)[p]? := by
  rcases houter.foldl_map (group quads) s g with ⟨preds, hpreds, hg⟩ | ⟨hnone, hg⟩
  · have hgetD : (group quads).getD g ∅ = preds := by
      rw [ExtTreeMap.getD_eq_getD_getElem?, hpreds, Option.getD_some]
    rw [hg]
    rcases hinner.foldl_map preds (enter (graph s g)) p with ⟨pairs, hpairs, hp⟩ | ⟨hnone, hp⟩
    · rw [henter] at hp
      rw [pairs_at_some (hgetD ▸ hpairs)]
      exact Or.inl hp
    · rw [henter] at hp
      exact Or.inr ⟨pairs_at_nil (hgetD ▸ hnone), hp⟩
  · refine Or.inr ⟨pairs_at_nil ?_, by rw [hg]⟩
    rw [ExtTreeMap.getD_eq_getD_getElem?, hnone, Option.getD_none, ExtTreeMap.getElem?_empty]

end TierSnapshot

/-! ## Batches -/

/-- A batch on a snapshot: what it deletes and then adds, at the next version. -/
structure Batch (t t' : TierSnapshot) (dels adds : List Quad) : Prop where
  version : t'.version = t.version + 1
  wrote : ∀ g p, Wrote t.version t'.version (pairs_at dels g p) (pairs_at adds g p) (t.warm g p)
    (t'.warm g p)
  cold : ∀ g p part, t'.partition g p = some (.Cold part) → t.partition g p = some (.Cold part)

theorem insert_rows_wrote {v v' : Nat} (hv : v < v') {part : Option PredicatePartition}
    (h : KeptAt part v) (adds : List Pair) :
    Wrote v v' [] adds part (some (insert_rows part (adds.map (live_row v')))) := by
  cases part with
  | none => exact wrote_live_rows hv h adds
  | some part => exact wrote_live_rows hv h adds

theorem pairs_at_nothing (g : GraphId) (p : TermId) : pairs_at [] g p = [] := rfl

namespace TierSnapshot

variable {t : TierSnapshot} {since : GraphId → TermId → Nat}

theorem Sound.untouched (h : t.Sound since) (g : GraphId) (p : TermId) :
    Wrote t.version (t.version + 1) [] [] (t.warm g p) (t.warm g p) :=
  Wrote.refl (Nat.lt_succ_self _) (h.kept g p)

theorem insert_quad_batch_batch (h : t.Sound since) {quads : List Quad} (hsome : quads ≠ []) :
    Batch t (t.insert_quad_batch quads) [] quads := by
  have heq : t.insert_quad_batch quads = ⟨t.version + 1,
      (group quads).toList.foldl (insert_graph (t.version + 1)) t.graphs⟩ := by
    unfold insert_quad_batch insert_at
    rw [if_neg (by simpa using hsome)]
    rfl
  have hpart : ∀ g p, (t.insert_quad_batch quads).partition g p =
        inserted_part (t.version + 1) (pairs_at quads g p) (t.partition g p) ∨
      pairs_at quads g p = [] ∧ (t.insert_quad_batch quads).partition g p = t.partition g p := by
    intro g p
    rw [partition_eq, partition_eq, heq]
    exact grouped_row quads g p id id (insert_graph_row (t.version + 1))
      (insert_partition_row (t.version + 1)) (fun _ => rfl) t.graphs
  refine ⟨by rw [heq], fun g p => ?_, fun g p part hcold => ?_⟩
  · rw [show (t.insert_quad_batch quads).version = t.version + 1 by rw [heq], pairs_at_nothing]
    unfold warm
    rcases hpart g p with hp | ⟨hnil, hp⟩
    · rw [hp]
      exact insert_rows_wrote (Nat.lt_succ_self t.version) (h.kept g p) (pairs_at quads g p)
    · rw [hp, hnil]
      exact h.untouched g p
  · rcases hpart g p with hp | ⟨-, hp⟩
    · rw [hp] at hcold
      cases hcold
    · rwa [← hp]

theorem retract_graphs_batch (h : t.Sound since) (quads : List Quad) :
    Batch t ⟨t.version + 1, ((group quads).toList.foldl (retract_graph (t.version + 1))
      ⟨t.graphs, 0, 0⟩).graphs⟩ quads [] := by
  generalize ht' : (⟨t.version + 1, _⟩ : TierSnapshot) = t'
  have hversion : t'.version = t.version + 1 := by rw [← ht']
  have hpart : ∀ g p, t'.partition g p =
        retracted_part (t.version + 1) (pairs_at quads g p) (t.partition g p) ∨
      pairs_at quads g p = [] ∧ t'.partition g p = t.partition g p := by
    intro g p
    rw [partition_eq, partition_eq, ← ht']
    exact grouped_row quads g p GraphWrite.partitions (⟨·, 0, 0⟩)
      (retract_graph_row (t.version + 1)) (retract_partition_row (t.version + 1)) (fun _ => rfl)
      ⟨t.graphs, 0, 0⟩
  refine ⟨hversion, fun g p => ?_, fun g p part hcold => ?_⟩
  · rw [hversion, pairs_at_nothing]
    unfold warm
    rcases hpart g p with hp | ⟨hnil, hp⟩
    · rw [hp]
      have hkept := h.kept g p
      unfold warm at hkept
      have hafter : (retracted_part (t.version + 1) (pairs_at quads g p) (t.partition g p)).map
          warm_for_write = ((t.partition g p).map warm_for_write).map
            (retracted (t.version + 1) (pairs_at quads g p)) := by
        unfold retracted_part
        rw [Option.map_map, Option.map_map]
        rfl
      rw [hafter]
      cases hexisting : (t.partition g p).map warm_for_write with
      | none =>
        refine ⟨fun part hpart => absurd hpart nofun, fun q w _ => Iff.rfl, fun q w _ => ?_⟩
        exact iff_of_false (shows_none q w) (by simp [shows_none])
      | some part =>
        rw [hexisting] at hkept
        exact (retracted_rows hkept (Nat.lt_succ_self t.version) (pairs_at quads g p)).wrote
    · rw [hp, hnil]
      exact h.untouched g p
  · rcases hpart g p with hp | ⟨-, hp⟩
    · rw [hp] at hcold
      unfold retracted_part at hcold
      obtain ⟨part', -, heq⟩ := Option.map_eq_some_iff.mp hcold
      cases heq
    · rwa [← hp]

theorem mem_touched {β γ : Type} {dels : ExtTreeMap Nat β} {adds : ExtTreeMap Nat γ} {k : Nat} :
    k ∈ touched dels adds ↔ dels[k]?.isSome ∨ adds[k]?.isSome := by
  unfold touched
  rw [ExtTreeSet.mem_ofList, List.contains_iff_mem, List.mem_append, ExtTreeMap.mem_keys,
    ExtTreeMap.mem_keys, ExtTreeMap.mem_iff_isSome_getElem?, ExtTreeMap.mem_iff_isSome_getElem?]

theorem group_sorted_at (quads : List Quad) (g : GraphId) (p : TermId) :
    ((group_sorted quads).getD g ∅)[p]? = ((group quads).getD g ∅)[p]?.map sort_targets := by
  unfold group_sorted
  rw [ExtTreeMap.getD_eq_getD_getElem?, ExtTreeMap.getD_eq_getD_getElem?, ExtTreeMap.getElem?_map]
  cases (group quads)[g]? with
  | none =>
    rw [Option.map_none, Option.getD_none, ExtTreeMap.getElem?_empty]
    rfl
  | some preds => exact ExtTreeMap.getElem?_map

/-- What an application does to a partition of the batch. -/
theorem apply_partition_at (h : t.Sound since) (dels adds : List Quad) (g : GraphId) (p : TermId) :
    Applied t.version (t.version + 1) (pairs_at dels g p)
      ((((group_sorted adds).getD g ∅)[p]?).getD []) (t.warm g p)
      (apply_partition (t.version + 1) (t.warm g p) ((group dels).getD g ∅)[p]?
        ((group_sorted adds).getD g ∅)[p]?) := by
  rw [← group_at]
  refine apply_partition_applied (h.kept g p) (Nat.lt_succ_self t.version) _ fun targets hadds => ?_
  rw [group_sorted_at] at hadds
  obtain ⟨pairs, -, rfl⟩ := Option.map_eq_some_iff.mp hadds
  exact sort_targets_ascending pairs

theorem mem_sorted_at {adds : List Quad} {g : GraphId} {p : TermId} (pair : Pair) :
    pair ∈ (((group_sorted adds).getD g ∅)[p]?).getD [] ↔ pair ∈ pairs_at adds g p := by
  rw [group_sorted_at, ← group_at]
  cases ((group adds).getD g ∅)[p]? with
  | none => rfl
  | some pairs => exact mem_sort_targets

theorem applied_part_warm (version : Nat) (dels adds : Option (List Pair))
    (part : Option Partition) :
    (applied_part version dels adds part).map warm_for_write =
      (apply_partition version (part.map warm_for_write) dels adds).after
        (part.map warm_for_write) := by
  unfold applied_part PartitionWrite.after
  cases (apply_partition version (part.map warm_for_write) dels adds).part with
  | none => rfl
  | some written => rfl

theorem apply_graphs_batch (h : t.Sound since) (dels adds : List Quad) :
    Batch t ⟨t.version + 1, ((touched (group dels) (group_sorted adds)).toList.foldl
      (apply_graph (t.version + 1) (group dels) (group_sorted adds) t.graphs)
        ⟨t.graphs, 0, 0⟩).graphs⟩ dels adds := by
  generalize ht' : (⟨t.version + 1, _⟩ : TierSnapshot) = t'
  have hversion : t'.version = t.version + 1 := by rw [← ht']
  have hpart : ∀ g p, t'.partition g p = applied_part (t.version + 1) ((group dels).getD g ∅)[p]?
        ((group_sorted adds).getD g ∅)[p]? (t.partition g p) ∨
      pairs_at dels g p = [] ∧ pairs_at adds g p = [] ∧ t'.partition g p = t.partition g p := by
    intro g p
    have hnone : ¬ (((group dels).getD g ∅)[p]?.isSome ∨
        ((group_sorted adds).getD g ∅)[p]?.isSome) →
        pairs_at dels g p = [] ∧ pairs_at adds g p = [] := by
      intro hnot
      rw [group_sorted_at, Option.isSome_map, not_or, Option.not_isSome_iff_eq_none,
        Option.not_isSome_iff_eq_none] at hnot
      exact ⟨pairs_at_nil hnot.1, pairs_at_nil hnot.2⟩
    rw [partition_eq, partition_eq, ← ht']
    rcases (apply_graph_row (t.version + 1) (group dels) (group_sorted adds) t.graphs).foldl_set
      (touched (group dels) (group_sorted adds)) ⟨t.graphs, 0, 0⟩ g with ⟨-, hg⟩ | ⟨hg, hsame⟩
    · rw [hg]
      rcases (apply_predicate_row (t.version + 1) ((group dels).getD g ∅)
        ((group_sorted adds).getD g ∅)).foldl_set
          (touched ((group dels).getD g ∅) ((group_sorted adds).getD g ∅))
          ⟨t.graphs.getD g ∅, 0, 0⟩ p with ⟨-, hp⟩ | ⟨hp, hsame⟩
      · exact Or.inl hp
      · rw [mem_touched] at hp
        exact Or.inr ⟨(hnone hp).1, (hnone hp).2, hsame⟩
    · rw [mem_touched, not_or, Option.not_isSome_iff_eq_none, Option.not_isSome_iff_eq_none] at hg
      have hboth := hnone <| by
        rw [ExtTreeMap.getD_eq_getD_getElem?, ExtTreeMap.getD_eq_getD_getElem?, hg.1, hg.2]
        simp
      exact Or.inr ⟨hboth.1, hboth.2, by rw [hsame]⟩
  refine ⟨hversion, fun g p => ?_, fun g p part hcold => ?_⟩
  · rw [hversion]
    rcases hpart g p with hp | ⟨hdels, hadds, hp⟩
    · rw [show t'.warm g p = _ from congrArg (Option.map warm_for_write) hp, applied_part_warm]
      refine (apply_partition_at h dels adds g p).wrote.adds fun pair => ?_
      rw [mem_sorted_at]
    · rw [hdels, hadds, show t'.warm g p = t.warm g p from congrArg (Option.map warm_for_write) hp]
      exact h.untouched g p
  · rcases hpart g p with hp | ⟨-, -, hp⟩
    · rw [hp] at hcold
      unfold applied_part at hcold
      rw [Option.or_eq_some_iff] at hcold
      rcases hcold with hcold | ⟨-, hcold⟩
      · obtain ⟨part', -, heq⟩ := Option.map_eq_some_iff.mp hcold
        cases heq
      · exact hcold
    · rwa [← hp]

end TierSnapshot

/-! ## Counts of a batch -/

theorem card_by_keys {α : Type} {s : Finset α} {f : α → Nat} {keys : List Nat}
    (hnodup : keys.Nodup) (hcover : ∀ x ∈ s, f x ∈ keys) :
    (keys.map fun k => (s.filter fun x => f x = k).card).sum = s.card := by
  rw [Finset.card_eq_sum_card_fiberwise (f := f) (t := keys.toFinset)
    fun x hx => List.mem_toFinset.mpr (hcover x hx)]
  exact (List.sum_toFinset _ hnodup).symm

/-- The quads of a batch, counted partition by partition. -/
theorem card_by_partition {s : Finset Quad} {graphs : List GraphId}
    (predicates : GraphId → List TermId) (hgraphs : graphs.Nodup)
    (hpredicates : ∀ g, (predicates g).Nodup) (hgraph : ∀ q ∈ s, q.graph ∈ graphs)
    (hpredicate : ∀ q ∈ s, q.predicate ∈ predicates q.graph) :
    (graphs.map fun g => ((predicates g).map fun p =>
      (s.filter fun q => q.graph = g ∧ q.predicate = p).card).sum).sum = s.card := by
  rw [← card_by_keys hgraphs hgraph]
  congr 1
  refine List.map_congr_left fun g _ => ?_
  rw [← card_by_keys (f := Quad.predicate) (hpredicates g)]
  · congr 1
    refine List.map_congr_left fun p _ => ?_
    rw [Finset.filter_filter]
  · intro q hq
    obtain ⟨hmem, hkey⟩ := Finset.mem_filter.mp hq
    exact hkey ▸ hpredicate q hmem

theorem card_pairs_at (quads : List Quad) (P : Quad → Prop) [DecidablePred P] (g : GraphId)
    (p : TermId) :
    ((pairs_at quads g p).toFinset.filter fun pair => P (quad_at g p pair)).card =
      ((quads.toFinset.filter P).filter fun q => q.graph = g ∧ q.predicate = p).card := by
  refine Finset.card_bij (fun pair _ => quad_at g p pair) (fun pair hpair => ?_)
    (fun a _ b _ hab => ?_) fun q hq => ?_
  · obtain ⟨hmem, hP⟩ := Finset.mem_filter.mp hpair
    rw [List.mem_toFinset, mem_pairs_at] at hmem
    exact Finset.mem_filter.mpr
      ⟨Finset.mem_filter.mpr ⟨List.mem_toFinset.mpr hmem, hP⟩, rfl, rfl⟩
  · have hs := congrArg Quad.subject hab
    have ho := congrArg Quad.object hab
    exact ofLex.injective (Prod.ext hs ho)
  · obtain ⟨hboth, rfl, rfl⟩ := Finset.mem_filter.mp hq
    obtain ⟨hmem, hP⟩ := Finset.mem_filter.mp hboth
    refine ⟨q.pair, Finset.mem_filter.mpr ⟨?_, hP⟩, rfl⟩
    rw [List.mem_toFinset, mem_pairs_at]
    exact List.mem_toFinset.mp hmem

namespace TierSnapshot

variable {t : TierSnapshot} {since : GraphId → TermId → Nat}

/-- How many quads of a retraction are visible. -/
def retracts (t : TierSnapshot) (dels : List Quad) : Nat :=
  (dels.toFinset.filter fun q => t.shows t.version q = true).card

/-- How many quads of an application are not visible once its deletions are done. -/
def inserts (t : TierSnapshot) (dels adds : List Quad) : Nat :=
  (adds.toFinset.filter fun q => ¬ (t.shows t.version q = true ∧ q ∉ dels)).card

theorem Sound.live_pair_iff (h : t.Sound since) (g : GraphId) (p : TermId) (pair : Pair) :
    live_pair (t.warm g p) pair = true ↔ t.shows t.version (quad_at g p pair) = true := by
  rw [h.shows_iff (h.since_le _ _)]
  exact (shows_iff_live (h.kept g p) (Nat.le_refl _) pair).symm

theorem ended_at (h : t.Sound since) (dels : List Quad) (g : GraphId) (p : TermId) :
    ended (t.warm g p) (pairs_at dels g p) =
      ((dels.toFinset.filter fun q => t.shows t.version q = true).filter
        fun q => q.graph = g ∧ q.predicate = p).card := by
  rw [← card_pairs_at]
  unfold ended
  simp only [h.live_pair_iff]

theorem begun_at (h : t.Sound since) (dels adds : List Quad) (g : GraphId) (p : TermId)
    {pairs : List Pair} (hpairs : ∀ pair, pair ∈ pairs ↔ pair ∈ pairs_at adds g p) :
    begun (t.warm g p) (pairs_at dels g p) pairs =
      ((adds.toFinset.filter fun q => ¬ (t.shows t.version q = true ∧ q ∉ dels)).filter
        fun q => q.graph = g ∧ q.predicate = p).card := by
  rw [← card_pairs_at]
  unfold begun
  rw [show pairs.toFinset = (pairs_at adds g p).toFinset from
    Finset.ext fun pair => by rw [List.mem_toFinset, List.mem_toFinset, hpairs]]
  simp only [h.live_pair_iff, mem_pairs_at]

/-- A batch has an entry for the graph and the predicate of each of its quads. -/
theorem group_isSome {quads : List Quad} {q : Quad} (hq : q ∈ quads) :
    (group quads)[q.graph]?.isSome ∧ ((group quads).getD q.graph ∅)[q.predicate]?.isSome := by
  have hpair : q.pair ∈ ((group quads).getD q.graph ∅)[q.predicate]?.getD [] := by
    rw [group_at, mem_pairs_at]
    exact hq
  constructor
  · by_contra hnone
    rw [Option.not_isSome_iff_eq_none] at hnone
    rw [ExtTreeMap.getD_eq_getD_getElem?, hnone, Option.getD_none, ExtTreeMap.getElem?_empty]
      at hpair
    cases hpair
  · by_contra hnone
    rw [Option.not_isSome_iff_eq_none.mp hnone] at hpair
    cases hpair

/-- A counter of an application adds up what each partition of the batch counts. -/
theorem apply_count (t : TierSnapshot) (dels adds : List Quad) (count : TierWrite → Nat)
    (part_count : GraphWrite → Nat) (cost : PartitionWrite → Nat) {s : Finset Quad}
    (hgraph : ∀ st g, count (apply_graph (t.version + 1) (group dels) (group_sorted adds)
      t.graphs st g) = part_count ((touched ((group dels).getD g ∅)
        ((group_sorted adds).getD g ∅)).toList.foldl (apply_predicate (t.version + 1)
          ((group dels).getD g ∅) ((group_sorted adds).getD g ∅))
            ⟨st.graphs.getD g ∅, st.retracted, st.inserted⟩))
    (hstart : ∀ parts st, part_count ⟨parts, st.retracted, st.inserted⟩ = count st)
    (hpart : ∀ ds as st p, part_count (apply_predicate (t.version + 1) ds as st p) =
      part_count st + cost (apply_partition (t.version + 1)
        (st.partitions[p]?.map warm_for_write) ds[p]? as[p]?))
    (hcost : ∀ g p, cost (apply_partition (t.version + 1) (t.warm g p) ((group dels).getD g ∅)[p]?
        ((group_sorted adds).getD g ∅)[p]?) =
      (s.filter fun q => q.graph = g ∧ q.predicate = p).card)
    (hs : ∀ q ∈ s, q ∈ dels ∨ q ∈ adds) :
    count ((touched (group dels) (group_sorted adds)).toList.foldl
      (apply_graph (t.version + 1) (group dels) (group_sorted adds) t.graphs)
        ⟨t.graphs, 0, 0⟩) = count ⟨t.graphs, 0, 0⟩ + s.card := by
  have hinner := fun g (st : GraphWrite) => (apply_predicate_row (t.version + 1)
    ((group dels).getD g ∅) ((group_sorted adds).getD g ∅)).foldl_count part_count
      (fun p part => cost (apply_partition (t.version + 1) (part.map warm_for_write)
        ((group dels).getD g ∅)[p]? ((group_sorted adds).getD g ∅)[p]?))
      (fun st p => hpart _ _ st p)
      (nodup_toList (touched ((group dels).getD g ∅) ((group_sorted adds).getD g ∅))) st
  rw [(apply_graph_row (t.version + 1) (group dels) (group_sorted adds) t.graphs).foldl_count count
    (fun g parts => ((touched ((group dels).getD g ∅) ((group_sorted adds).getD g ∅)).toList.map
      fun p => cost (apply_partition (t.version + 1) (parts[p]?.map warm_for_write)
        ((group dels).getD g ∅)[p]? ((group_sorted adds).getD g ∅)[p]?)).sum)
    (fun st g => by rw [hgraph, hinner, hstart]; rfl) (nodup_toList _)]
  congr 1
  have hkeys : ∀ q ∈ s, q.graph ∈ (touched (group dels) (group_sorted adds)).toList ∧
      q.predicate ∈ (touched ((group dels).getD q.graph ∅)
        ((group_sorted adds).getD q.graph ∅)).toList := by
    intro q hq
    rw [ExtTreeSet.mem_toList, ExtTreeSet.mem_toList, mem_touched, mem_touched, group_sorted_at,
      Option.isSome_map]
    have hsorted : (group_sorted adds)[q.graph]?.isSome = (group adds)[q.graph]?.isSome := by
      unfold group_sorted
      rw [ExtTreeMap.getElem?_map, Option.isSome_map]
    rw [hsorted]
    rcases hs q hq with hmem | hmem
    · exact ⟨Or.inl (group_isSome hmem).1, Or.inl (group_isSome hmem).2⟩
    · exact ⟨Or.inr (group_isSome hmem).1, Or.inr (group_isSome hmem).2⟩
  rw [← card_by_partition _
    (by simpa using nodup_toList (touched (group dels) (group_sorted adds)))
    (fun g => by simpa using nodup_toList (touched ((group dels).getD g ∅)
      ((group_sorted adds).getD g ∅)))
    (fun q hq => (hkeys q hq).1) fun q hq => (hkeys q hq).2]
  congr 1
  refine List.map_congr_left fun g _ => ?_
  congr 1
  refine List.map_congr_left fun p _ => ?_
  rw [← hcost g p]
  unfold warm
  rw [partition_eq]
  rfl

theorem apply_counts (h : t.Sound since) (dels adds : List Quad) :
    let out := (touched (group dels) (group_sorted adds)).toList.foldl
      (apply_graph (t.version + 1) (group dels) (group_sorted adds) t.graphs) ⟨t.graphs, 0, 0⟩
    out.retracted = t.retracts dels ∧ out.inserted = t.inserts dels adds := by
  have hmem : ∀ {quads : List Quad} {P : Quad → Prop} [DecidablePred P] (q : Quad),
      q ∈ quads.toFinset.filter P → q ∈ quads :=
    fun q hq => List.mem_toFinset.mp (Finset.mem_filter.mp hq).1
  constructor
  · refine (t.apply_count dels adds TierWrite.retracted GraphWrite.retracted
      PartitionWrite.retracted (fun _ _ => rfl) (fun _ _ => rfl) (fun _ _ _ _ => rfl)
      (fun g p => ?_) fun q hq => Or.inl (hmem q hq)).trans (Nat.zero_add _)
    exact (apply_partition_at h dels adds g p).retracted.trans (ended_at h dels g p)
  · refine (t.apply_count dels adds TierWrite.inserted GraphWrite.inserted
      PartitionWrite.inserted (fun _ _ => rfl) (fun _ _ => rfl) (fun _ _ _ _ => rfl)
      (fun g p => ?_) fun q hq => Or.inr (hmem q hq)).trans (Nat.zero_add _)
    exact (apply_partition_at h dels adds g p).inserted.trans
      (begun_at h dels adds g p mem_sorted_at)

/-- What the retraction of a partition counts. -/
def retract_cost (version : Nat) (dels : List Pair) (part : Option Partition) : Nat :=
  part.elim 0 fun part => ((warm_for_write part).merged_cols.rows.foldl (carry_row version dels)
    ⟨[], [], 0⟩).retracted

theorem retract_cost_at (h : t.Sound since) (dels : List Quad) (g : GraphId) (p : TermId) :
    retract_cost (t.version + 1) (pairs_at dels g p) (t.partition g p) =
      ((dels.toFinset.filter fun q => t.shows t.version q = true).filter
        fun q => q.graph = g ∧ q.predicate = p).card := by
  rw [← ended_at h]
  have hkept := h.kept g p
  unfold retract_cost warm
  unfold warm at hkept
  cases hpart : t.partition g p with
  | none => exact (ended_none _).symm
  | some part =>
    rw [hpart] at hkept
    exact (retracted_rows hkept (Nat.lt_succ_self t.version) (pairs_at dels g p)).retracted

theorem retract_count (h : t.Sound since) (quads : List Quad) :
    ((group quads).toList.foldl (retract_graph (t.version + 1)) ⟨t.graphs, 0, 0⟩).retracted =
      t.retracts quads := by
  have hinner := fun (preds : ExtTreeMap TermId (List Pair)) (st : GraphWrite) =>
    (retract_partition_row (t.version + 1)).foldl_count GraphWrite.retracted
      (fun e part => retract_cost (t.version + 1) e.2 part)
      (fun st e => by unfold retract_partition; cases st.partitions[e.1]? <;> rfl)
      (nodup_map_toList preds) st
  have hnodup := nodup_map_toList (group quads)
  rw [(retract_graph_row (t.version + 1)).foldl_count TierWrite.retracted
    (fun e parts => (e.2.toList.map fun f =>
      retract_cost (t.version + 1) f.2 parts[f.1]?).sum) (fun st e => ?_) hnodup, Nat.zero_add]
  · unfold retracts
    rw [← card_by_partition (fun g => ((group quads).getD g ∅).toList.map Prod.fst) hnodup
      (fun g => nodup_map_toList _) (fun q hq => ?_) fun q hq => ?_, List.map_map]
    · congr 1
      refine List.map_congr_left fun e he => ?_
      have hpreds : (group quads).getD e.1 ∅ = e.2 := by
        rw [ExtTreeMap.getD_eq_getD_getElem?, ExtTreeMap.mem_toList_iff_getElem?_eq_some.mp he]
        rfl
      rw [Function.comp_apply, hpreds, List.map_map]
      congr 1
      refine List.map_congr_left fun f hf => ?_
      rw [ExtTreeMap.mem_toList_iff_getElem?_eq_some] at hf
      have hpairs : pairs_at quads e.1 f.1 = f.2 := pairs_at_some (hpreds ▸ hf)
      rw [Function.comp_apply, ← retract_cost_at h, hpairs, partition_eq]
    · rw [ExtTreeMap.map_fst_toList_eq_keys, ExtTreeMap.mem_keys,
        ExtTreeMap.mem_iff_isSome_getElem?]
      exact (group_isSome (List.mem_toFinset.mp (Finset.mem_filter.mp hq).1)).1
    · rw [ExtTreeMap.map_fst_toList_eq_keys, ExtTreeMap.mem_keys,
        ExtTreeMap.mem_iff_isSome_getElem?]
      exact (group_isSome (List.mem_toFinset.mp (Finset.mem_filter.mp hq).1)).2
  · unfold retract_graph
    rw [ExtTreeMap.getD_eq_getD_getElem?]
    cases st.graphs[e.1]? with
    | none => simp [retract_cost]
    | some parts => exact hinner e.2 ⟨parts, st.retracted, 0⟩

end TierSnapshot

/-! ## One batch -/

namespace TierSnapshot

variable {t : TierSnapshot} {l : Ledger} {since : GraphId → TermId → Nat}

theorem retract_quad_batch_spec (h : t.Sound since) (quads : List Quad) :
    (t.retract_quad_batch quads).2 = t.retracts quads ∧
      (t.retracts quads = 0 ∧ (t.retract_quad_batch quads).1 = t ∨
        t.retracts quads ≠ 0 ∧ Batch t (t.retract_quad_batch quads).1 quads []) := by
  unfold retract_quad_batch
  split
  · rename_i hempty
    rw [List.isEmpty_iff.mp hempty]
    exact ⟨rfl, Or.inl ⟨rfl, rfl⟩⟩
  · dsimp only
    rw [retract_count h]
    refine ⟨rfl, ?_⟩
    by_cases hzero : t.retracts quads = 0
    · rw [if_neg (by omega)]
      exact Or.inl ⟨hzero, rfl⟩
    · rw [if_pos (by omega)]
      exact Or.inr ⟨hzero, retract_graphs_batch h quads⟩

theorem apply_quad_batch_spec (h : t.Sound since) (dels adds : List Quad) :
    (t.apply_quad_batch dels adds).2 = ⟨t.retracts dels, t.inserts dels adds⟩ ∧
      ((t.retracts dels = 0 ∧ t.inserts dels adds = 0) ∧ (t.apply_quad_batch dels adds).1 = t ∨
        ¬ (t.retracts dels = 0 ∧ t.inserts dels adds = 0) ∧
          Batch t (t.apply_quad_batch dels adds).1 dels adds) := by
  unfold apply_quad_batch apply_at
  split
  · rename_i hempty
    obtain ⟨hdels, hadds⟩ := Bool.and_eq_true_iff.mp hempty
    rw [List.isEmpty_iff.mp hdels, List.isEmpty_iff.mp hadds]
    exact ⟨rfl, Or.inl ⟨⟨rfl, rfl⟩, rfl⟩⟩
  · obtain ⟨hretracted, hinserted⟩ := apply_counts h dels adds
    dsimp only [Option.getD_none]
    rw [hretracted, hinserted]
    refine ⟨rfl, ?_⟩
    by_cases hzero : t.retracts dels = 0 ∧ t.inserts dels adds = 0
    · rw [if_neg (by omega)]
      exact Or.inl ⟨hzero, rfl⟩
    · rw [if_pos (by omega)]
      exact Or.inr ⟨hzero, apply_graphs_batch h dels adds⟩

end TierSnapshot

end horndb.storage
