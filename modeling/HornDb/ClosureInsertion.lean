-- The laws of the closure maps: what it means that they are right, and that an
-- insert keeps them right and reports the pairs it closed, each one once.
import HornDb.Lib.Reach
import HornDb.Lib.RowFold
import HornDb.IncrementalClosure

open HornDb.Lib Relation

namespace horndb.closure.incremental.IncrementalTransitiveClosure

/-- The pair stands in the forward map. -/
abbrev Closed (c : IncrementalTransitiveClosure) (x y : Nat) : Prop := c.fwd.has x y = true

/-- The pair is an asserted base edge. -/
abbrev Edge (c : IncrementalTransitiveClosure) (s o : Nat) : Prop := c.base.has s o = true

/-- The backward maps are the inverses of the forward ones, and `nnz` counts the pairs. -/
structure Indexed (c : IncrementalTransitiveClosure) : Prop where
  backward : ∀ x y, c.bwd.has y x = true ↔ c.Closed x y
  base_backward : ∀ s o, c.bwd_base.has o s = true ↔ c.Edge s o
  counted : c.nnz = c.fwd.pairs.card

/-- The closed pairs are the strict transitive closure of the base edges. -/
structure Good (c : IncrementalTransitiveClosure) : Prop extends Indexed c where
  closed : ∀ x y, c.Closed x y ↔ TransGen c.Edge x y

/-- The two closures hold the same base edges under the same strategy. -/
structure SameBase (c c' : IncrementalTransitiveClosure) : Prop where
  base : c'.base = c.base
  bwd_base : c'.bwd_base = c.bwd_base
  strategy : c'.strategy = c.strategy

theorem SameBase.refl (c : IncrementalTransitiveClosure) : SameBase c c := ⟨rfl, rfl, rfl⟩

theorem SameBase.trans {a b c : IncrementalTransitiveClosure} (h : SameBase a b)
    (h' : SameBase b c) : SameBase a c :=
  ⟨h'.base.trans h.base, h'.bwd_base.trans h.bwd_base, h'.strategy.trans h.strategy⟩

theorem SameBase.edge {c c' : IncrementalTransitiveClosure} (h : SameBase c c') :
    c'.Edge = c.Edge := by
  funext s o
  rw [Edge, h.base]

theorem new_good : new.Good where
  backward x y := by simp [new]
  base_backward s o := by simp [new]
  counted := by simp [new]
  closed x y := by
    simp only [Closed, new, Adjacency.has_empty, Bool.false_eq_true, false_iff]
    intro h
    obtain ⟨z, hz, _⟩ := TransGen.head'_iff.mp h
    exact absurd hz (by simp [Edge])

/-! ## One pair -/

theorem add_closed_same (c : IncrementalTransitiveClosure) (x y : Nat) :
    SameBase c (c.add_closed x y) := by
  unfold add_closed
  split <;> exact ⟨rfl, rfl, rfl⟩

theorem drop_closed_same (c : IncrementalTransitiveClosure) (x y : Nat) :
    SameBase c (c.drop_closed x y) := by
  unfold drop_closed
  split <;> exact ⟨rfl, rfl, rfl⟩

theorem add_closed_closed (c : IncrementalTransitiveClosure) (x y u v : Nat) :
    (c.add_closed x y).Closed u v ↔ (u = x ∧ v = y) ∨ c.Closed u v := by
  unfold add_closed
  split
  · rename_i h
    constructor
    · exact Or.inr
    · rintro (⟨rfl, rfl⟩ | h')
      · exact h
      · exact h'
  · simp [Closed]

theorem drop_closed_closed (c : IncrementalTransitiveClosure) (x y u v : Nat) :
    (c.drop_closed x y).Closed u v ↔ ¬ (u = x ∧ v = y) ∧ c.Closed u v := by
  unfold drop_closed
  split
  · simp [Closed]
  · rename_i h
    constructor
    · intro h'
      refine ⟨?_, h'⟩
      rintro ⟨rfl, rfl⟩
      exact h h'
    · exact fun h' => h'.2

variable {c : IncrementalTransitiveClosure}

theorem add_closed_indexed (hc : c.Indexed) (x y : Nat) : (c.add_closed x y).Indexed := by
  unfold add_closed
  split
  · exact hc
  · rename_i h
    refine ⟨?_, hc.base_backward, ?_⟩
    · intro u v
      have := hc.backward u v
      simp only [Closed, Adjacency.has_add] at *
      rw [this]
      tauto
    · dsimp only
      rw [Adjacency.pairs_add, Finset.card_insert_of_notMem, hc.counted]
      simpa using h

theorem drop_closed_indexed (hc : c.Indexed) (x y : Nat) : (c.drop_closed x y).Indexed := by
  unfold drop_closed
  split
  · rename_i h
    refine ⟨?_, hc.base_backward, ?_⟩
    · intro u v
      have := hc.backward u v
      simp only [Closed, Adjacency.has_drop] at *
      rw [this]
      tauto
    · dsimp only
      rw [Adjacency.pairs_drop, Finset.card_erase_of_mem, hc.counted]
      simpa using h
  · exact hc

/-- A closed pair counts. -/
theorem drop_closed_nnz_lt (hc : c.Indexed) {x y : Nat} (h : c.Closed x y) :
    (c.drop_closed x y).nnz < c.nnz := by
  have hpos : 0 < c.nnz := by
    rw [hc.counted, Finset.card_pos]
    exact ⟨(x, y), (Adjacency.mem_pairs c.fwd x y).mpr h⟩
  unfold drop_closed
  rw [if_pos h]
  dsimp only
  omega

/-! ## The insert of an edge -/

/-- What a run of the double loop over the pairs `ps` makes of a closure and a delta. -/
structure Inserted (c : IncrementalTransitiveClosure) (ps : List (Nat × Nat))
    (out : IncrementalTransitiveClosure × List (Nat × Nat)) : Prop where
  same : SameBase c out.1
  indexed : out.1.Indexed
  closed : ∀ x y, out.1.Closed x y ↔ c.Closed x y ∨ (x, y) ∈ ps
  delta : ∀ x y, (x, y) ∈ out.2 ↔ out.1.Closed x y ∧ ¬ c.Closed x y
  nodup : out.2.Nodup

theorem insert_pair_inserted {ps : List (Nat × Nat)}
    {acc : IncrementalTransitiveClosure × List (Nat × Nat)} (h : Inserted c ps acc)
    (p : Nat × Nat) : Inserted c (ps ++ [p]) (insert_pair acc p) := by
  obtain ⟨x, y⟩ := p
  unfold insert_pair
  split
  · rename_i hin
    refine ⟨h.same, h.indexed, ?_, h.delta, h.nodup⟩
    intro u v
    rw [h.closed, List.mem_append, List.mem_singleton, Prod.mk.injEq, ← or_assoc]
    constructor
    · exact Or.inl
    · rintro (h' | ⟨rfl, rfl⟩)
      · exact h'
      · exact (h.closed u v).mp hin
  · rename_i hin
    have hadd := add_closed_closed acc.1 x y
    refine ⟨h.same.trans (add_closed_same _ _ _), add_closed_indexed h.indexed x y, ?_, ?_, ?_⟩
    · intro u v
      rw [hadd, h.closed, List.mem_append, List.mem_singleton, Prod.mk.injEq]
      tauto
    · intro u v
      have hfresh : ¬ c.Closed x y := fun hc => hin ((h.closed x y).mpr (Or.inl hc))
      rw [hadd, List.mem_append, List.mem_singleton, Prod.mk.injEq, h.delta]
      constructor
      · rintro (⟨h1, h2⟩ | ⟨rfl, rfl⟩)
        · exact ⟨Or.inr h1, h2⟩
        · exact ⟨Or.inl ⟨rfl, rfl⟩, hfresh⟩
      · rintro ⟨h1 | h1, h2⟩
        · exact Or.inr h1
        · exact Or.inl ⟨h1, h2⟩
    · rw [List.nodup_append]
      refine ⟨h.nodup, List.nodup_singleton _, ?_⟩
      intro p hp q hq heq
      rw [List.mem_singleton] at hq
      subst hq heq
      exact hin ((h.delta x y).mp hp).1

theorem insert_pairs_inserted (ps : List (Nat × Nat)) :
    ∀ {done : List (Nat × Nat)} {acc : IncrementalTransitiveClosure × List (Nat × Nat)},
      Inserted c done acc → Inserted c (done ++ ps) (ps.foldl insert_pair acc) := by
  induction ps with
  | nil => intro done acc h; simpa using h
  | cons p ps ih =>
    intro done acc h
    have := ih (insert_pair_inserted h p)
    rwa [List.append_assoc, List.singleton_append] at this

/-- What the insert of base edges does: the base gains them, the closure follows, and
the delta is the pairs that are newly closed. -/
structure EdgesInserted (c : IncrementalTransitiveClosure) (es : List (Nat × Nat))
    (out : IncrementalTransitiveClosure × List (Nat × Nat)) : Prop where
  good : out.1.Good
  edge : ∀ s o, out.1.Edge s o ↔ c.Edge s o ∨ (s, o) ∈ es
  strategy : out.1.strategy = c.strategy
  grows : ∀ x y, c.Closed x y → out.1.Closed x y
  delta : ∀ x y, (x, y) ∈ out.2 ↔ out.1.Closed x y ∧ ¬ c.Closed x y
  nodup : out.2.Nodup

theorem insert_base_edge_edge (c : IncrementalTransitiveClosure) (s o : Nat) :
    (c.insert_base_edge s o).1.Edge = Reach.WithEdge c.Edge s o := by
  funext u v
  refine propext ?_
  unfold insert_base_edge Reach.WithEdge
  split
  · rename_i h
    constructor
    · exact Or.inr
    · rintro (⟨rfl, rfl⟩ | h')
      · exact h
      · exact h'
  · simp [Edge]

theorem insert_base_edge_indexed (hc : c.Indexed) (s o : Nat) :
    (c.insert_base_edge s o).1.Indexed := by
  unfold insert_base_edge
  split
  · exact hc
  · refine ⟨hc.backward, ?_, hc.counted⟩
    intro u v
    have := hc.base_backward u v
    simp only [Edge, Adjacency.has_add] at *
    rw [this]
    tauto

theorem insert_base_edge_closed (c : IncrementalTransitiveClosure) (s o : Nat) :
    (c.insert_base_edge s o).1.fwd = c.fwd ∧ (c.insert_base_edge s o).1.bwd = c.bwd ∧
      (c.insert_base_edge s o).1.strategy = c.strategy := by
  unfold insert_base_edge
  split <;> exact ⟨rfl, rfl, rfl⟩

theorem insert_edge_spec (hc : c.Good) (s o : Nat) :
    EdgesInserted c [(s, o)] (c.insert_edge s o) := by
  obtain ⟨hfwd, hbwd, hstrat⟩ := insert_base_edge_closed c s o
  have hedge := insert_base_edge_edge c s o
  have hindexed := insert_base_edge_indexed hc.toIndexed s o
  unfold insert_edge insert_edge_tracked
  generalize c.insert_base_edge s o = c' at *
  obtain ⟨c', fresh⟩ := c'
  dsimp only at *
  generalize hps : (List.flatMap (fun x => List.map (fun y => (x, y))
    (c'.fwd.neighbors o ++ [o])) (c'.bwd.neighbors s ++ [s])) = ps
  have hmem : ∀ x y, (x, y) ∈ ps ↔ ReflTransGen c.Edge x s ∧ ReflTransGen c.Edge o y := by
    intro x y
    have hb : ReflTransGen c.Edge x s ↔ c.bwd.has s x = true ∨ x = s := by
      rw [hc.backward, hc.closed, reflTransGen_iff_eq_or_transGen, or_comm, eq_comm]
    have hf : ReflTransGen c.Edge o y ↔ c.fwd.has o y = true ∨ y = o := by
      rw [← Closed, hc.closed, reflTransGen_iff_eq_or_transGen, or_comm]
    rw [← hps, hb, hf, hfwd, hbwd, List.mem_flatMap]
    simp only [← Adjacency.mem_neighbors, ← List.mem_singleton (a := x),
      ← List.mem_singleton (a := y), ← List.mem_append]
    constructor
    · rintro ⟨u, hu, hv⟩
      obtain ⟨v, hv, heq⟩ := List.mem_map.mp hv
      cases heq
      exact ⟨hu, hv⟩
    · intro h
      exact ⟨x, h.1, List.mem_map.mpr ⟨y, h.2, rfl⟩⟩
  have hrun : Inserted c' ([] ++ ps) (ps.foldl insert_pair (c', [])) :=
    insert_pairs_inserted ps ⟨.refl c', hindexed, by simp, by simp, List.nodup_nil⟩
  generalize ps.foldl insert_pair (c', []) = out at *
  have hclosed : ∀ x y, c'.Closed x y ↔ c.Closed x y := fun x y => by rw [Closed, hfwd]
  have hout : out.1.Edge = Reach.WithEdge c.Edge s o := hrun.same.edge.trans hedge
  refine ⟨⟨hrun.indexed, ?_⟩, ?_, hrun.same.strategy.trans hstrat, ?_, ?_, hrun.nodup⟩
  · intro x y
    rw [hrun.closed, hout, Reach.transGen_withEdge, hclosed, hc.closed, List.nil_append, hmem]
  · intro u v
    rw [hout, Reach.WithEdge, List.mem_singleton, Prod.mk.injEq, or_comm]
  · intro x y hxy
    rw [hrun.closed, hclosed]
    exact Or.inl hxy
  · intro x y
    rw [hrun.delta, hclosed]

/-- One insert after a run of inserts. -/
theorem EdgesInserted.snoc {es : List (Nat × Nat)}
    {acc : IncrementalTransitiveClosure × List (Nat × Nat)} (h : EdgesInserted c es acc)
    {e : Nat × Nat} {out : IncrementalTransitiveClosure × List (Nat × Nat)}
    (h' : EdgesInserted acc.1 [e] out) : EdgesInserted c (es ++ [e]) (out.1, acc.2 ++ out.2) := by
  refine ⟨h'.good, ?_, h'.strategy.trans h.strategy, ?_, ?_, ?_⟩
  · intro s o
    rw [h'.edge, h.edge, List.mem_append, or_assoc]
  · exact fun x y hxy => h'.grows x y (h.grows x y hxy)
  · intro x y
    have hmid := h'.grows x y
    have hold := h.grows x y
    rw [List.mem_append, h.delta, h'.delta]
    dsimp only
    tauto
  · rw [List.nodup_append]
    refine ⟨h.nodup, h'.nodup, ?_⟩
    rintro ⟨x, y⟩ hp q hq rfl
    exact ((h'.delta x y).mp hq).2 ((h.delta x y).mp hp).1

theorem EdgesInserted.none (hc : c.Good) : EdgesInserted c [] (c, []) :=
  ⟨hc, by simp, rfl, fun _ _ => id, by simp, List.nodup_nil⟩

theorem insert_edges_spec (hc : c.Good) (es : List (Nat × Nat)) :
    EdgesInserted c es (c.insert_edges es) :=
  RowFold.foldl_done (P := EdgesInserted c) _ (fun _ e _ h =>
    h.snoc (insert_edge_spec h.good e.1 e.2)) (.none hc) es

/-- A closure built from base edges is right from the start. -/
theorem from_base_edges_good (es : List (Nat × Nat)) :
    (from_base_edges es).Good ∧
      ∀ s o, (from_base_edges es).Edge s o ↔ (s, o) ∈ es := by
  have hstart : (new.Good ∧ ∀ s o, new.Edge s o ↔ (s, o) ∈ ([] : List (Nat × Nat))) :=
    ⟨new_good, by simp [Edge, new]⟩
  refine RowFold.foldl_done (P := fun es (c : IncrementalTransitiveClosure) =>
    c.Good ∧ ∀ s o, c.Edge s o ↔ (s, o) ∈ es) _ ?_ hstart es
  intro done e c h
  have hins := insert_edge_spec h.1 e.1 e.2
  refine ⟨hins.good, ?_⟩
  intro s o
  rw [hins.edge, h.2, List.mem_append]

end horndb.closure.incremental.IncrementalTransitiveClosure
