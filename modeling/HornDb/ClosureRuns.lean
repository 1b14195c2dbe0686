-- The incremental closure over a whole run: any inserts and deletes, one edge or many,
-- under either strategy, keep the maps right, and each call reports what it changed.
import HornDb.ClosureSupport

open HornDb.Lib Relation

namespace horndb.closure.incremental.IncrementalTransitiveClosure

/-! ## One delete and many -/

variable {c : IncrementalTransitiveClosure}

/-- The probe count is no part of what a delete is judged by. -/
theorem EdgeDeleted.of_probes {n s o : Nat} {out : IncrementalTransitiveClosure × DeleteOutcome}
    (h : EdgeDeleted { c with last_delete_probes := n } s o out) : EdgeDeleted c s o out :=
  ⟨h.good, h.edge, h.strategy, h.withdrawn, h.nodup, h.survived⟩

theorem delete_edge_spec (hc : c.Good) (s o : Nat) : EdgeDeleted c s o (c.delete_edge s o) := by
  have hgood : Good { c with last_delete_probes := 0 } :=
    ⟨⟨hc.backward, hc.base_backward, hc.counted⟩, hc.closed⟩
  unfold delete_edge
  dsimp only
  split
  · exact (delete_edge_support_counting_spec hgood s o).of_probes
  · exact (delete_edge_recompute_spec hgood s o).of_probes

/-- What a fold of deletes has done before the survivors are checked at the end. -/
structure EdgesDeleting (c : IncrementalTransitiveClosure) (es : List (Nat × Nat))
    (acc : IncrementalTransitiveClosure × DeleteOutcome) : Prop where
  good : acc.1.Good
  edge : ∀ s o, acc.1.Edge s o ↔ c.Edge s o ∧ (s, o) ∉ es
  strategy : acc.1.strategy = c.strategy
  shrinks : ∀ x y, acc.1.Closed x y → c.Closed x y
  withdrawn : ∀ x y, (x, y) ∈ acc.2.withdrawn ↔ c.Closed x y ∧ ¬ acc.1.Closed x y
  nodup : acc.2.withdrawn.Nodup
  survived : ∀ s o, (s, o) ∈ acc.2.survived → c.Edge s o ∧ (s, o) ∈ es
  kept : ∀ s o, c.Edge s o → (s, o) ∈ es → acc.1.Closed s o → (s, o) ∈ acc.2.survived
  survived_nodup : acc.2.survived.Nodup

theorem EdgesDeleting.none (hc : c.Good) : EdgesDeleting c [] (c, .default) where
  good := hc
  edge s o := by simp
  strategy := rfl
  shrinks _ _ := id
  withdrawn x y := by simp [DeleteOutcome.default]
  nodup := List.nodup_nil
  survived s o h := absurd h (by simp [DeleteOutcome.default])
  kept s o _ h := absurd h (by simp)
  survived_nodup := List.nodup_nil

theorem EdgeDeleted.shrinks (hc : c.Good) {s o : Nat}
    {out : IncrementalTransitiveClosure × DeleteOutcome} (h : EdgeDeleted c s o out) {x y : Nat}
    (hxy : out.1.Closed x y) : c.Closed x y := by
  rw [h.good.closed, h.edge] at hxy
  exact (hc.closed x y).mpr (Reach.transGen_of_withoutEdge hxy)

theorem EdgesDeleting.snoc {es : List (Nat × Nat)}
    {acc : IncrementalTransitiveClosure × DeleteOutcome} (h : EdgesDeleting c es acc) {s o : Nat}
    {out : IncrementalTransitiveClosure × DeleteOutcome} (h' : EdgeDeleted acc.1 s o out) :
    EdgesDeleting c (es ++ [(s, o)]) (out.1, ⟨acc.2.withdrawn ++ out.2.withdrawn,
      acc.2.survived ++ out.2.survived⟩) := by
  have hsurv : ∀ u v, (u, v) ∈ out.2.survived ↔
      (u = s ∧ v = o) ∧ acc.1.Edge s o ∧ out.1.Closed s o := by
    intro u v
    rw [h'.survived]
    split
    · rename_i hcond
      rw [List.mem_singleton, Prod.mk.injEq]
      exact (and_iff_left hcond).symm
    · rename_i hcond
      simp only [List.not_mem_nil, false_iff]
      exact fun hno => hcond hno.2
  have hshrink : ∀ x y, out.1.Closed x y → acc.1.Closed x y :=
    fun x y => h'.shrinks h.good
  refine ⟨h'.good, ?_, h'.strategy.trans h.strategy, ?_, ?_, ?_, ?_, ?_, ?_⟩
  · intro u v
    rw [h'.edge, Reach.WithoutEdge, h.edge, List.mem_append, List.mem_singleton, Prod.mk.injEq]
    tauto
  · exact fun x y hxy => h.shrinks x y (hshrink x y hxy)
  · intro x y
    have hmid := hshrink x y
    have hold := h.shrinks x y
    rw [List.mem_append, h.withdrawn, h'.withdrawn]
    dsimp only
    tauto
  · rw [List.nodup_append]
    refine ⟨h.nodup, h'.nodup, ?_⟩
    rintro ⟨x, y⟩ hp q hq rfl
    exact ((h.withdrawn x y).mp hp).2 ((h'.withdrawn x y).mp hq).1
  · intro u v huv
    rw [List.mem_append, hsurv] at huv
    rw [List.mem_append, List.mem_singleton]
    rcases huv with huv | ⟨⟨rfl, rfl⟩, hedge, _⟩
    · exact (h.survived u v huv).imp_right Or.inl
    · exact ⟨((h.edge u v).mp hedge).1, Or.inr rfl⟩
  · intro u v hedge hmem hclosed
    rw [List.mem_append, hsurv]
    by_cases hes : (u, v) ∈ es
    · exact Or.inl (h.kept u v hedge hes (hshrink u v hclosed))
    · rcases List.mem_append.mp hmem with hmem | hmem
      · exact absurd hmem hes
      · cases List.mem_singleton.mp hmem
        exact Or.inr ⟨⟨rfl, rfl⟩, (h.edge s o).mpr ⟨hedge, hes⟩, hclosed⟩
  · rw [List.nodup_append]
    refine ⟨h.survived_nodup, ?_, ?_⟩
    · rw [h'.survived]
      split
      · exact List.nodup_singleton _
      · exact List.nodup_nil
    · rintro ⟨u, v⟩ hp q hq rfl
      obtain ⟨⟨rfl, rfl⟩, hedge, _⟩ := (hsurv u v).mp hq
      exact ((h.edge u v).mp hedge).2 (h.survived u v hp).2

/-- What a batch of deletes leaves and reports. -/
structure EdgesDeleted (c : IncrementalTransitiveClosure) (es : List (Nat × Nat))
    (out : IncrementalTransitiveClosure × DeleteOutcome) : Prop where
  good : out.1.Good
  edge : ∀ s o, out.1.Edge s o ↔ c.Edge s o ∧ (s, o) ∉ es
  strategy : out.1.strategy = c.strategy
  withdrawn : ∀ x y, (x, y) ∈ out.2.withdrawn ↔ c.Closed x y ∧ ¬ out.1.Closed x y
  nodup : out.2.withdrawn.Nodup
  survived : ∀ s o, (s, o) ∈ out.2.survived ↔
    (s, o) ∈ es ∧ c.Edge s o ∧ out.1.Closed s o
  survived_nodup : out.2.survived.Nodup

theorem EdgesDeleting.deleted {es : List (Nat × Nat)}
    {acc : IncrementalTransitiveClosure × DeleteOutcome} (h : EdgesDeleting c es acc) :
    EdgesDeleted c es (acc.1, { acc.2 with
      survived := acc.2.survived.filter fun e => acc.1.fwd.has e.1 e.2 }) := by
  refine ⟨h.good, h.edge, h.strategy, h.withdrawn, h.nodup, ?_, h.survived_nodup.filter _⟩
  intro s o
  rw [List.mem_filter]
  constructor
  · intro hs
    obtain ⟨hedge, hes⟩ := h.survived s o hs.1
    exact ⟨hes, hedge, hs.2⟩
  · intro hs
    exact ⟨h.kept s o hs.2.1 hs.1 hs.2.2, hs.2.2⟩

theorem delete_edges_spec (hc : c.Good) (es : List (Nat × Nat)) :
    EdgesDeleted c es (c.delete_edges es) := by
  have h := RowFold.foldl_done (P := EdgesDeleting c) _ (fun _ e _ h =>
    h.snoc (delete_edge_spec h.good e.1 e.2)) (.none hc) es
  exact h.deleted

/-- A single delete, read as a batch of one. -/
theorem delete_edge_deleted (hc : c.Good) (s o : Nat) :
    EdgesDeleted c [(s, o)] (c.delete_edge s o) := by
  have h := delete_edge_spec hc s o
  refine ⟨h.good, ?_, h.strategy, h.withdrawn, h.nodup, ?_, ?_⟩
  · intro u v
    rw [h.edge, Reach.WithoutEdge, List.mem_singleton, Prod.mk.injEq, and_comm]
  · intro u v
    rw [h.survived, List.mem_singleton, Prod.mk.injEq]
    split
    · rename_i hcond
      rw [List.mem_singleton, Prod.mk.injEq]
      constructor
      · rintro ⟨rfl, rfl⟩
        exact ⟨⟨rfl, rfl⟩, hcond⟩
      · exact fun h => h.1
    · rename_i hcond
      simp only [List.not_mem_nil, false_iff]
      rintro ⟨⟨rfl, rfl⟩, h'⟩
      exact hcond h'
  · rw [h.survived]
    split
    · exact List.nodup_singleton _
    · exact List.nodup_nil

/-! ## Runs -/

/-- A call on the closure. -/
inductive Call where
  | insert_edge (s o : Nat)
  | insert_edges (es : List (Nat × Nat))
  | delete_edge (s o : Nat)
  | delete_edges (es : List (Nat × Nat))
  | set_delete_strategy (strategy : DeleteStrategy)

/-- What a call returns. -/
inductive Reply where
  | delta (pairs : List (Nat × Nat))
  | outcome (out : DeleteOutcome)
  | unit

def call (c : IncrementalTransitiveClosure) : Call → IncrementalTransitiveClosure × Reply
  | .insert_edge s o => let (c, d) := c.insert_edge s o; (c, .delta d)
  | .insert_edges es => let (c, d) := c.insert_edges es; (c, .delta d)
  | .delete_edge s o => let (c, out) := c.delete_edge s o; (c, .outcome out)
  | .delete_edges es => let (c, out) := c.delete_edges es; (c, .outcome out)
  | .set_delete_strategy strategy => (c.set_delete_strategy strategy, .unit)

/-- The closure after the calls, oldest first. -/
def after (calls : List Call) : IncrementalTransitiveClosure :=
  calls.foldl (fun c a => (c.call a).1) new

/-- The base edges as a set, and what each call means for it. -/
def Call.apply (E : Set (Nat × Nat)) : Call → Set (Nat × Nat)
  | .insert_edge s o => E ∪ {(s, o)}
  | .insert_edges es => E ∪ {e | e ∈ es}
  | .delete_edge s o => E \ {(s, o)}
  | .delete_edges es => E \ {e | e ∈ es}
  | .set_delete_strategy _ => E

/-- The edges a delete call names. -/
def Call.deleted : Call → List (Nat × Nat)
  | .delete_edge s o => [(s, o)]
  | .delete_edges es => es
  | _ => []

/-- The base edges of a closure as a set. -/
def edgeSet (c : IncrementalTransitiveClosure) : Set (Nat × Nat) := {e | c.Edge e.1 e.2}

/-- A reply is right when it names, each once, the pairs that came or went, and the
deleted edges that are still closed. -/
def Reply.Right (c c' : IncrementalTransitiveClosure) (a : Call) : Reply → Prop
  | .delta pairs =>
    pairs.Nodup ∧ ∀ x y, (x, y) ∈ pairs ↔ c'.Closed x y ∧ ¬ c.Closed x y
  | .outcome out =>
    out.withdrawn.Nodup ∧ (∀ x y, (x, y) ∈ out.withdrawn ↔ c.Closed x y ∧ ¬ c'.Closed x y) ∧
      out.survived.Nodup ∧
      ∀ s o, (s, o) ∈ out.survived ↔ (s, o) ∈ a.deleted ∧ c.Edge s o ∧ c'.Closed s o
  | .unit => c'.edges = c.edges

/-- One call keeps the closure right, changes the base as it says, and replies right. -/
theorem call_spec (hc : c.Good) (a : Call) :
    (c.call a).1.Good ∧ (c.call a).1.edgeSet = a.apply c.edgeSet ∧
      (c.call a).2.Right c (c.call a).1 a := by
  cases a with
  | insert_edge s o =>
    have h := insert_edge_spec hc s o
    refine ⟨h.good, ?_, h.nodup, h.delta⟩
    ext ⟨u, v⟩
    exact (h.edge u v).trans (or_congr_right List.mem_singleton)
  | insert_edges es =>
    have h := insert_edges_spec hc es
    refine ⟨h.good, ?_, h.nodup, h.delta⟩
    ext ⟨u, v⟩
    exact h.edge u v
  | delete_edge s o =>
    have h := delete_edge_deleted hc s o
    refine ⟨h.good, ?_, h.nodup, h.withdrawn, h.survived_nodup, h.survived⟩
    ext ⟨u, v⟩
    exact (h.edge u v).trans (and_congr_right fun _ => not_congr List.mem_singleton)
  | delete_edges es =>
    have h := delete_edges_spec hc es
    refine ⟨h.good, ?_, h.nodup, h.withdrawn, h.survived_nodup, h.survived⟩
    ext ⟨u, v⟩
    exact h.edge u v
  | set_delete_strategy strategy =>
    exact ⟨⟨⟨hc.backward, hc.base_backward, hc.counted⟩, hc.closed⟩, rfl, rfl⟩

/-- Every run of calls leaves the closure right, over the base its calls ask for. -/
theorem after_good (calls : List Call) :
    (after calls).Good ∧ (after calls).edgeSet = calls.foldl Call.apply ∅ := by
  induction calls using List.reverseRecOn with
  | nil =>
    refine ⟨new_good, ?_⟩
    ext ⟨u, v⟩
    simp [after, edgeSet, new]
  | append_singleton calls a ih =>
    obtain ⟨hgood, hbase⟩ := ih
    obtain ⟨hgood', hbase', _⟩ := call_spec hgood a
    rw [after] at hgood' hbase' hbase
    rw [after, List.foldl_append, List.foldl_append]
    refine ⟨hgood', ?_⟩
    rw [List.foldl_cons, List.foldl_nil, hbase', hbase]
    rfl

/-- After every run of calls the forward map is the strict closure of the base edges, the
backward maps are the inverses, `nnz` counts the pairs, and the next call replies right. -/
theorem closure_stays_exact (calls : List Call) (a : Call) :
    let c := after calls
    c.edgeSet = calls.foldl Call.apply ∅ ∧
      (∀ x y, c.Closed x y ↔ TransGen (fun s o => (s, o) ∈ c.edgeSet) x y) ∧
      (∀ x y, c.bwd.has y x = true ↔ c.Closed x y) ∧
      (∀ s o, c.bwd_base.has o s = true ↔ (s, o) ∈ c.edgeSet) ∧
      (c.edges.Nodup ∧ (∀ x y, (x, y) ∈ c.edges ↔ c.Closed x y) ∧ c.nnz = c.edges.length) ∧
      (c.call a).2.Right c (c.call a).1 a := by
  obtain ⟨hgood, hbase⟩ := after_good calls
  refine ⟨hbase, hgood.closed, hgood.backward, hgood.base_backward, ?_, (call_spec hgood a).2.2⟩
  refine ⟨Adjacency.edges_nodup _, Adjacency.mem_edges _, ?_⟩
  rw [hgood.counted, Adjacency.card_pairs]
  rfl

end horndb.closure.incremental.IncrementalTransitiveClosure
