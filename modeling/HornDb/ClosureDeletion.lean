-- The laws of a delete. Both strategies take the same pairs out: those whose every
-- path used the deleted edge. The recompute reads the rest of the base again; the
-- support counting drops all that could have used the edge and adds back what stands.
import HornDb.ClosureInsertion

open HornDb.Lib Relation Std

namespace horndb.closure.incremental.IncrementalTransitiveClosure

/-! ## The base edge -/

variable {c : IncrementalTransitiveClosure}

theorem remove_base_edge_absent {s o : Nat} (h : ¬ c.Edge s o) :
    c.remove_base_edge s o = (c, false) := by
  unfold remove_base_edge
  rw [if_neg h]

/-- What the removal of a base edge leaves: the closed pairs as they were, over a
base without the edge. -/
structure EdgeRemoved (c : IncrementalTransitiveClosure) (s o : Nat)
    (c' : IncrementalTransitiveClosure) : Prop where
  indexed : c'.Indexed
  edge : c'.Edge = Reach.WithoutEdge c.Edge s o
  fwd : c'.fwd = c.fwd
  bwd : c'.bwd = c.bwd
  strategy : c'.strategy = c.strategy

theorem remove_base_edge_present (hc : c.Indexed) {s o : Nat} (h : c.Edge s o) :
    ∃ c', c.remove_base_edge s o = (c', true) ∧ EdgeRemoved c s o c' := by
  unfold remove_base_edge
  rw [if_pos h]
  refine ⟨_, rfl, ⟨hc.backward, ?_, hc.counted⟩, ?_, rfl, rfl, rfl⟩
  · intro u v
    have := hc.base_backward u v
    simp only [Edge, Adjacency.has_prune, Adjacency.has_drop] at *
    rw [this]
    tauto
  · funext u v
    simp [Edge, Reach.WithoutEdge]

/-! ## What a source reaches over the base -/

/-- The invariant of the walk from `start`: all on the stack and all reached is
reachable, and each step out of what is reached is reached or on the stack. -/
structure Walk (c : IncrementalTransitiveClosure) (start : Nat) (stack : List Nat)
    (reached : ExtTreeSet Nat) : Prop where
  on_stack : ∀ n ∈ stack, TransGen c.Edge start n
  sound : ∀ n, n ∈ reached → TransGen c.Edge start n
  first : ∀ m, c.Edge start m → m ∈ reached ∨ m ∈ stack
  next : ∀ n m, n ∈ reached → c.Edge n m → m ∈ reached ∨ m ∈ stack

theorem reach_turn_keeps {start n : Nat} {stack : List Nat} {reached : ExtTreeSet Nat}
    (h : Walk c start (n :: stack) reached) :
    Walk c start ((reach_turn c.base n reached).2 ++ stack) (reach_turn c.base n reached).1 := by
  have hn := h.on_stack n List.mem_cons_self
  unfold reach_turn
  split
  · rename_i hin
    have hmem : n ∈ reached := ExtTreeSet.mem_iff_contains.mpr hin
    have hdrop : ∀ m, m ∈ reached ∨ m ∈ n :: stack → m ∈ reached ∨ m ∈ stack := by
      intro m hm
      rcases hm with hm | hm
      · exact Or.inl hm
      · rcases List.mem_cons.mp hm with rfl | hm
        · exact Or.inl hmem
        · exact Or.inr hm
    exact ⟨fun m hm => h.on_stack m (List.mem_cons_of_mem n hm), h.sound,
      fun m hm => hdrop m (h.first m hm), fun a m ha hm => hdrop m (h.next a m ha hm)⟩
  · have hpush : ∀ m, m ∈ ((c.base.neighbors n).filter
        fun m => !(reached.insert n).contains m).reverse ↔ c.Edge n m ∧ m ∉ reached.insert n := by
      intro m
      rw [List.mem_reverse, List.mem_filter, Adjacency.mem_neighbors, Bool.not_eq_true',
        ← Bool.not_eq_true, ExtTreeSet.contains_iff_mem]
    have hins : ∀ m, m ∈ reached.insert n ↔ n = m ∨ m ∈ reached := by
      intro m
      rw [ExtTreeSet.mem_insert, Std.compare_eq_iff_eq]
    have hdrop : ∀ m, m ∈ reached ∨ m ∈ n :: stack → m ∈ reached.insert n ∨ m ∈ stack := by
      intro m hm
      rw [hins]
      rcases hm with hm | hm
      · exact Or.inl (Or.inr hm)
      · rcases List.mem_cons.mp hm with rfl | hm
        · exact Or.inl (Or.inl rfl)
        · exact Or.inr hm
    dsimp only
    refine ⟨?_, ?_, ?_, ?_⟩
    · intro m hm
      rcases List.mem_append.mp hm with hm | hm
      · exact hn.tail ((hpush m).mp hm).1
      · exact h.on_stack m (List.mem_cons_of_mem n hm)
    · intro m hm
      rcases (hins m).mp hm with rfl | hm
      · exact hn
      · exact h.sound m hm
    · intro m hm
      exact (hdrop m (h.first m hm)).imp_right (List.mem_append_right _)
    · intro a m ha hm
      rcases (hins a).mp ha with rfl | ha
      · by_cases hr : m ∈ reached.insert n
        · exact Or.inl hr
        · exact Or.inr (List.mem_append_left _ ((hpush m).mpr ⟨hm, hr⟩))
      · exact (hdrop m (h.next a m ha hm)).imp_right (List.mem_append_right _)

/-- The nodes that a base edge enters and the walk has not reached. -/
def unreached (base : Adjacency Nat) (reached : ExtTreeSet Nat) : Finset Nat :=
  {n ∈ (base.edges.map Prod.snd).toFinset | n ∉ reached}

theorem reach_turn_pays {start n : Nat} {stack : List Nat} {reached : ExtTreeSet Nat}
    (h : Walk c start (n :: stack) reached) : (reach_turn c.base n reached).2 = [] ∧
        (unreached c.base (reach_turn c.base n reached).1).card ≤ (unreached c.base reached).card ∨
      (unreached c.base (reach_turn c.base n reached).1).card < (unreached c.base reached).card ∧
        (reach_turn c.base n reached).2.length ≤ c.base.edges.length := by
  unfold reach_turn
  split
  · exact Or.inl ⟨rfl, le_rfl⟩
  · rename_i hin
    have hins : ∀ m, m ∈ reached.insert n ↔ n = m ∨ m ∈ reached := by
      intro m
      rw [ExtTreeSet.mem_insert, Std.compare_eq_iff_eq]
    obtain ⟨z, _, hz⟩ := TransGen.tail'_iff.mp (h.on_stack n List.mem_cons_self)
    have hpool : n ∈ (c.base.edges.map Prod.snd).toFinset :=
      List.mem_toFinset.mpr (List.mem_map.mpr ⟨(z, n), (Adjacency.mem_edges _ _ _).mpr hz, rfl⟩)
    refine Or.inr ⟨Finset.card_lt_card ?_, ?_⟩
    · rw [Finset.ssubset_iff_of_subset]
      · refine ⟨n, Finset.mem_filter.mpr ⟨hpool, ?_⟩, ?_⟩
        · rwa [ExtTreeSet.mem_iff_contains]
        · intro hmem
          exact (Finset.mem_filter.mp hmem).2 ((hins n).mpr (Or.inl rfl))
      · intro m hm
        obtain ⟨hm, hr⟩ := Finset.mem_filter.mp hm
        exact Finset.mem_filter.mpr ⟨hm, fun h' => hr ((hins m).mpr (Or.inr h'))⟩
    · rw [List.length_reverse]
      exact (List.length_filter_le _ _).trans (Adjacency.neighbors_length_le _ _)

/-- The walk ends with an empty stack and has reached all it can. -/
theorem base_reach_spec (c : IncrementalTransitiveClosure) (start n : Nat) :
    n ∈ c.base_reach start ↔ TransGen c.Edge start n := by
  have hstart : Walk c start (c.base.neighbors start).reverse ∅ := by
    refine ⟨?_, by simp, ?_, by simp⟩
    · intro n hn
      rw [List.mem_reverse, Adjacency.mem_neighbors] at hn
      exact .single hn
    · intro m hm
      rw [List.mem_reverse, Adjacency.mem_neighbors]
      exact Or.inr hm
  have hfuel : (c.base.neighbors start).reverse.length +
      (unreached c.base ∅).card * (c.base.edges.length + 1) ≤
        c.base.edges.length + c.base.edges.length * (c.base.edges.length + 1) := by
    refine Nat.add_le_add ?_ (Nat.mul_le_mul_right _ ?_)
    · rw [List.length_reverse]
      exact Adjacency.neighbors_length_le _ _
    · calc (unreached c.base ∅).card ≤ (c.base.edges.map Prod.snd).toFinset.card :=
            Finset.card_filter_le _ _
        _ ≤ (c.base.edges.map Prod.snd).length := List.toFinset_card_le _
        _ = c.base.edges.length := List.length_map _
  obtain ⟨_, hend⟩ := Worklist.drain_rule (Walk c start)
    (fun reached => (unreached c.base reached).card) c.base.edges.length
    (fun _ _ _ => reach_turn_keeps) (fun _ _ _ => reach_turn_pays) _ _ _ hstart hfuel
  constructor
  · exact hend.sound n
  · intro h
    have hmem : ∀ m, m ∈ c.base_reach start ∨ m ∈ [] → m ∈ c.base_reach start := by simp
    induction h with
    | single h => exact hmem _ (hend.first _ h)
    | tail _ h ih => exact hmem _ (hend.next _ _ ih h)

/-! ## The recompute -/

/-- What one delete of a base edge leaves: a right closure without the edge, each lost
pair reported once, and the edge itself when it stays closed. -/
structure EdgeDeleted (c : IncrementalTransitiveClosure) (s o : Nat)
    (out : IncrementalTransitiveClosure × DeleteOutcome) : Prop where
  good : out.1.Good
  edge : out.1.Edge = Reach.WithoutEdge c.Edge s o
  strategy : out.1.strategy = c.strategy
  withdrawn : ∀ x y, (x, y) ∈ out.2.withdrawn ↔ c.Closed x y ∧ ¬ out.1.Closed x y
  nodup : out.2.withdrawn.Nodup
  survived : out.2.survived = if c.Edge s o ∧ out.1.Closed s o then [(s, o)] else []

theorem edgeDeleted_absent (hc : c.Good) {s o : Nat} (h : ¬ c.Edge s o) :
    EdgeDeleted c s o (c, .default) where
  good := hc
  edge := by
    funext u v
    refine propext ⟨fun h' => ⟨?_, h'⟩, fun h' => h'.2⟩
    rintro ⟨rfl, rfl⟩
    exact h h'
  strategy := rfl
  withdrawn x y := by simp [DeleteOutcome.default]
  nodup := List.nodup_nil
  survived := by simp [DeleteOutcome.default, h]

theorem drop_all_closed (ps : List (Nat × Nat)) :
    ∀ {c : IncrementalTransitiveClosure}, c.Indexed →
      let c' := ps.foldl (fun c p => c.drop_closed p.1 p.2) c
      SameBase c c' ∧ c'.Indexed ∧ ∀ x y, c'.Closed x y ↔ (x, y) ∉ ps ∧ c.Closed x y := by
  induction ps with
  | nil => intro c hc; exact ⟨.refl c, hc, by simp⟩
  | cons p ps ih =>
    intro c hc
    obtain ⟨hsame, hind, hclosed⟩ := ih (drop_closed_indexed hc p.1 p.2)
    refine ⟨(drop_closed_same c p.1 p.2).trans hsame, hind, ?_⟩
    intro x y
    rw [List.foldl_cons, hclosed, drop_closed_closed, List.mem_cons, Prod.ext_iff]
    tauto

/-- The nodes on the two sides of the deleted edge, as the source collects them. -/
theorem mem_set_with {a : Adjacency Nat} {x y : Nat} :
    y ∈ (a.getD x ∅).insert x ↔ y = x ∨ a.has x y = true := by
  rw [ExtTreeSet.mem_insert, Std.compare_eq_iff_eq, eq_comm, Adjacency.has,
    ExtTreeMap.getD_eq_getD_getElem?]
  cases a[x]? <;> simp

theorem mem_lost_of_source {targets : ExtTreeSet Nat} {x u v : Nat} :
    (u, v) ∈ c.lost_of_source targets x ↔
      u = x ∧ c.Closed x v ∧ v ∈ targets ∧ ¬ TransGen c.Edge x v := by
  have hmem : ∀ y, y ∈ (c.fwd.neighbors x).filter (fun y => targets.contains y) ↔
      c.Closed x y ∧ y ∈ targets := by
    intro y
    rw [List.mem_filter, Adjacency.mem_neighbors, ExtTreeSet.contains_iff_mem]
  unfold lost_of_source
  dsimp only
  split
  · rename_i hempty
    rw [List.isEmpty_iff] at hempty
    have := hmem v
    rw [hempty] at this
    simp only [List.not_mem_nil, false_iff, not_and] at this
    simp only [List.not_mem_nil, false_iff, not_and]
    intro _ h1 h2
    exact absurd h2 (this h1)
  · simp only [List.mem_map, List.mem_filter (p := fun y => !(c.base_reach x).contains y),
      hmem, Bool.not_eq_true', ← Bool.not_eq_true, ExtTreeSet.contains_iff_mem,
      base_reach_spec, Prod.mk.injEq]
    constructor
    · rintro ⟨y, ⟨⟨h1, h2⟩, h3⟩, rfl, rfl⟩
      exact ⟨rfl, h1, h2, h3⟩
    · rintro ⟨rfl, h1, h2, h3⟩
      exact ⟨v, ⟨⟨h1, h2⟩, h3⟩, rfl, rfl⟩

theorem lost_of_source_nodup (c : IncrementalTransitiveClosure) (targets : ExtTreeSet Nat)
    (x : Nat) : (c.lost_of_source targets x).Nodup := by
  unfold lost_of_source
  dsimp only
  split
  · exact List.nodup_nil
  · exact (((Adjacency.neighbors_nodup _ _).filter _).filter _).map
      fun u v huv => (Prod.mk.inj huv).2

theorem delete_edge_recompute_spec (hc : c.Good) (s o : Nat) :
    EdgeDeleted c s o (c.delete_edge_recompute s o) := by
  unfold delete_edge_recompute
  by_cases hbase : c.Edge s o
  · obtain ⟨c', hrem, h'⟩ := remove_base_edge_present hc.toIndexed hbase
    rw [hrem]
    simp only [Bool.not_true, Bool.false_eq_true, if_false]
    generalize hw : List.flatMap (c'.lost_of_source ((c'.fwd.getD o ∅).insert o))
      ((c'.bwd.getD s ∅).insert s).toList = withdrawn
    have hclosed' : ∀ x y, c'.Closed x y ↔ TransGen c.Edge x y := by
      intro x y
      rw [Closed, h'.fwd, ← Closed, hc.closed]
    -- What is withdrawn: a closed pair on the two sides of the edge with no path left.
    have hmem : ∀ x y, (x, y) ∈ withdrawn ↔
        ReflTransGen c.Edge x s ∧ ReflTransGen c.Edge o y ∧ TransGen c.Edge x y ∧
          ¬ TransGen c'.Edge x y := by
      intro x y
      have hsrc : x ∈ (c'.bwd.getD s ∅).insert s ↔ ReflTransGen c.Edge x s := by
        rw [mem_set_with, h'.bwd, hc.backward, hc.closed, reflTransGen_iff_eq_or_transGen,
          @eq_comm _ s x]
      have htgt : y ∈ (c'.fwd.getD o ∅).insert o ↔ ReflTransGen c.Edge o y := by
        rw [mem_set_with, ← Closed, hclosed', reflTransGen_iff_eq_or_transGen]
      rw [← hw, List.mem_flatMap, ← hsrc, ← htgt, ← hclosed']
      simp only [mem_lost_of_source, ExtTreeSet.mem_toList]
      constructor
      · rintro ⟨_, hx, rfl, h1, h2, h3⟩
        exact ⟨hx, h2, h1, h3⟩
      · rintro ⟨hx, h2, h1, h3⟩
        exact ⟨x, hx, rfl, h1, h2, h3⟩
    obtain ⟨hsame, hind, hdrop⟩ := drop_all_closed withdrawn h'.indexed
    generalize List.foldl (fun c p => c.drop_closed p.1 p.2) c' withdrawn = c'' at *
    have hgood : ∀ x y, c''.Closed x y ↔ TransGen c'.Edge x y := by
      intro x y
      rw [hdrop, hmem, hclosed', h'.edge]
      constructor
      · rintro ⟨hkeep, hxy⟩
        rcases Reach.transGen_withoutEdge_or hbase hxy with h | ⟨h1, h2⟩
        · exact h
        · by_contra hlost
          exact hkeep ⟨Reach.reflTransGen_of_withoutEdge h1,
            Reach.reflTransGen_of_withoutEdge h2, hxy, hlost⟩
      · intro h
        exact ⟨fun hno => hno.2.2.2 h, Reach.transGen_of_withoutEdge h⟩
    refine ⟨⟨hind, ?_⟩, hsame.edge.trans h'.edge, hsame.strategy.trans h'.strategy, ?_, ?_, ?_⟩
    · intro x y
      rw [hgood, hsame.edge]
    · intro x y
      rw [hdrop, hclosed', hc.closed, hmem]
      tauto
    · rw [← hw, List.nodup_flatMap]
      refine ⟨fun x _ => lost_of_source_nodup _ _ x, ?_⟩
      refine (Adjacency.nodup_toList _).imp ?_
      intro x x' hne
      rw [Function.onFun, List.disjoint_left]
      rintro ⟨u, v⟩ hu hu'
      exact hne ((mem_lost_of_source.mp hu).1.symm.trans (mem_lost_of_source.mp hu').1)
    · exact if_congr (and_iff_right hbase).symm rfl rfl
  · rw [remove_base_edge_absent hbase]
    exact edgeDeleted_absent hc hbase

end horndb.closure.incremental.IncrementalTransitiveClosure
