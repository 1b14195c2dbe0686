-- The closure of a whole edge list at once, by a matrix over the dense numbers of its ends. It
-- writes the pairs that the edge-by-edge closure of the same list holds.
import HornDb.BoolMatrix
import HornDb.ClosureSink

open Relation
open horndb.closure.dense_id horndb.closure.incremental
open horndb.incremental (TripleId)

namespace horndb.closure.sink

variable (grb : GraphBLAS)

def build_matrix (edges : List (Nat × Nat)) : grb.BoolMatrix × DenseIdMap :=
  let (map, dense) := DenseIdMap.new.intern_edges edges
  (grb.from_edges map.len dense, map)

/-- The triples that the closure of the predicate hands to the sink; nothing when the turns of
its loop run out. -/
def close_transitive_predicate (turns p : Nat) (edges : List (Nat × Nat)) :
    Option (List TripleId) :=
  if edges.isEmpty then some []
  else do
    let (matrix, map) := build_matrix grb edges
    let closure ← grb.transitive_closure turns matrix
    return write_closure p (grb.extract_edges closure) map

def close_reflexive (turns p : Nat) (edges : List (Nat × Nat)) : Option (List TripleId) :=
  if edges.isEmpty then some []
  else do
    let (matrix, map) := build_matrix grb edges
    let closure ← grb.reflexive_transitive_closure turns matrix
    return write_closure p (grb.extract_edges closure) map

/-! ## The matrix of the edges -/

/-- The numbered edges of a list. -/
def dense (edges : List (Nat × Nat)) (i j : Nat) : Prop :=
  (i, j) ∈ (DenseIdMap.new.intern_edges edges).2

/-- The numbers of the ends of a list. -/
def numbering (edges : List (Nat × Nat)) : DenseIdMap := (DenseIdMap.new.intern_edges edges).1

theorem numbering_dense (edges : List (Nat × Nat)) : (numbering edges).Numbers (dense edges) :=
  fun _ _ h => DenseIdMap.intern_edges_ends _ _ h

/-- Over the dictionary ids the numbered edges are the edges. -/
theorem pull_dense (edges : List (Nat × Nat)) (s o : Nat) :
    (numbering edges).Pull (dense edges) s o ↔ (s, o) ∈ edges := by
  constructor
  · rintro ⟨i, j, hs, ho, h⟩
    exact (DenseIdMap.mem_intern_edges _ edges hs ho).mp h
  · intro h
    obtain ⟨d, -, hs, ho⟩ :=
      DenseIdMap.mem_numbered (DenseIdMap.new.intern_edges_spec edges).2 h
    exact ⟨d.1, d.2, hs, ho, (DenseIdMap.mem_intern_edges _ edges hs ho).mpr h⟩

theorem pull_dense_closure (edges : List (Nat × Nat)) (s o : Nat) :
    (numbering edges).Pull (TransGen (dense edges)) s o ↔
      TransGen (fun x y => (x, y) ∈ edges) s o := by
  have hpull : (numbering edges).Pull (dense edges) = fun x y => (x, y) ∈ edges := by
    funext x y
    exact propext (pull_dense edges x y)
  rw [DenseIdMap.pull_transGen (numbering_dense edges), hpull]

theorem to_dense_lt {map : DenseIdMap} {id d : Nat} (h : map.to_dense id = some d) :
    d < map.len := by
  rw [← DenseIdMap.to_dict_eq_some] at h
  exact (List.getElem?_eq_some_iff.mp h).1

theorem entry_build_matrix (edges : List (Nat × Nat)) (i j : Nat) :
    grb.Entry (build_matrix grb edges).1 i j ↔ dense edges i j := by
  refine grb.extract_from _ _ ?_ (i, j)
  rintro ⟨x, y⟩ h
  obtain ⟨s, o, hs, ho⟩ := DenseIdMap.intern_edges_ends _ _ h
  exact ⟨to_dense_lt hs, to_dense_lt ho⟩

/-- The numbered ids are the ends of the edges. -/
theorem numbered_iff (edges : List (Nat × Nat)) (id : Nat) :
    (∃ d, (numbering edges).to_dense id = some d) ↔ ∃ e ∈ edges, id = e.1 ∨ id = e.2 := by
  have hgrow : ∀ (edges : List (Nat × Nat)) (map : DenseIdMap),
      (∃ d, (map.intern_edges edges).1.to_dense id = some d) ↔
        (∃ d, map.to_dense id = some d) ∨ ∃ e ∈ edges, id = e.1 ∨ id = e.2 := by
    intro edges
    induction edges with
    | nil => simp [DenseIdMap.intern_edges]
    | cons e edges ih =>
      intro map
      refine (ih ((map.intern e.1).1.intern e.2).1).trans ?_
      rw [DenseIdMap.numbered_intern, DenseIdMap.numbered_intern]
      simp only [List.mem_cons, exists_eq_or_imp, or_assoc]
  refine (hgrow edges .new).trans (or_iff_right ?_)
  rintro ⟨d, h⟩
  simp [DenseIdMap.to_dense, DenseIdMap.new] at h

/-! ## What is written -/

theorem write_closure_nodup {p : Nat} {pairs : List (Nat × Nat)} {map : DenseIdMap}
    (h : pairs.Nodup) : ((write_closure p pairs map).map fun t => (t.s, t.o)).Nodup := by
  have hpairs : (write_closure p pairs map).map (fun t => (t.s, t.o)) =
      pairs_to_dict map pairs := by
    unfold write_closure
    rw [List.map_map]
    exact List.map_id _
  rw [hpairs]
  refine h.filterMap ?_
  rintro ⟨x, y⟩ ⟨x', y'⟩ ⟨s, o⟩ hxy hxy'
  unfold pair_to_dict at hxy hxy'
  simp only [Option.mem_def, Option.bind_eq_some_iff, Option.map_eq_some_iff, Prod.mk.injEq,
    DenseIdMap.to_dict_eq_some] at hxy hxy'
  obtain ⟨_, hs, _, ho, rfl, rfl⟩ := hxy
  obtain ⟨_, hs', _, ho', rfl, rfl⟩ := hxy'
  exact Prod.ext (Option.some.inj (hs.symm.trans hs')) (Option.some.inj (ho.symm.trans ho'))

/-- The triples of `p` whose ends satisfy `R`, each once. -/
structure Writes (p : Nat) (R : Nat → Nat → Prop) (written : List TripleId) : Prop where
  nodup : (written.map fun t => (t.s, t.o)).Nodup
  mem : ∀ t, t ∈ written ↔ t.p = p ∧ R t.s t.o

/-- What the matrix closes over its numbers, the triples close over the ids. -/
theorem written_closure (p : Nat) {edges : List (Nat × Nat)} {r : grb.BoolMatrix}
    {R : Nat → Nat → Prop} (hr : ∀ i j, grb.Entry r i j ↔ R i j) :
    Writes p ((numbering edges).Pull R) (write_closure p (grb.extract_edges r) (numbering edges)) := by
  refine ⟨write_closure_nodup (grb.nodup r), fun t => ?_⟩
  rw [mem_write_closure]
  have hentry : (fun x y => (x, y) ∈ grb.extract_edges r) = R := by
    funext x y
    exact propext (hr x y)
  rw [hentry]

theorem writes_nil {p : Nat} {R : Nat → Nat → Prop} (h : ∀ s o, ¬R s o) : Writes p R [] :=
  ⟨List.nodup_nil, fun t => iff_of_false (by simp) fun ht => h _ _ ht.2⟩

/-- Turns enough to close the matrix of the edges. -/
def enough_turns (edges : List (Nat × Nat)) : Nat :=
  (numbering edges).len * (numbering edges).len + 1

theorem nrows_build_matrix (edges : List (Nat × Nat)) :
    grb.nrows (build_matrix grb edges).1 = (numbering edges).len := grb.nrows_from _ _

theorem close_transitive_predicate_writes {turns : Nat} (p : Nat) (edges : List (Nat × Nat))
    (hturns : enough_turns edges ≤ turns) :
    ∃ written, close_transitive_predicate grb turns p edges = some written ∧
      Writes p (TransGen fun x y => (x, y) ∈ edges) written := by
  unfold close_transitive_predicate
  split
  · rename_i hempty
    rw [List.isEmpty_iff] at hempty
    subst hempty
    refine ⟨[], rfl, writes_nil fun s o h => ?_⟩
    obtain ⟨u, hu, -⟩ := TransGen.head'_iff.mp h
    cases hu
  · obtain ⟨r, hr, hclosure⟩ := grb.transitive_closure_spec (build_matrix grb edges).1 turns
      (by rw [nrows_build_matrix]; exact hturns)
    refine ⟨write_closure p (grb.extract_edges r) (numbering edges), ?_, ?_⟩
    · simp only [hr]
      rfl
    · have hdense : ∀ i j, grb.Entry r i j ↔ TransGen (dense edges) i j := by
        intro i j
        have hentry : grb.Entry (build_matrix grb edges).1 = dense edges := by
          funext x y
          exact propext (entry_build_matrix grb edges x y)
        rw [hclosure.entry, hentry]
      have hpull : (numbering edges).Pull (TransGen (dense edges)) =
          TransGen fun x y => (x, y) ∈ edges := by
        funext s o
        exact propext (pull_dense_closure edges s o)
      rw [← hpull]
      exact written_closure grb p hdense

theorem close_reflexive_writes {turns : Nat} (p : Nat) (edges : List (Nat × Nat))
    (hturns : enough_turns edges ≤ turns) :
    ∃ written, close_reflexive grb turns p edges = some written ∧
      Writes p (fun s o => TransGen (fun x y => (x, y) ∈ edges) s o ∨
        (s = o ∧ ∃ e ∈ edges, s = e.1 ∨ s = e.2)) written := by
  unfold close_reflexive
  split
  · rename_i hempty
    rw [List.isEmpty_iff] at hempty
    subst hempty
    refine ⟨[], rfl, writes_nil fun s o h => ?_⟩
    rcases h with h | ⟨-, e, he, -⟩
    · obtain ⟨u, hu, -⟩ := TransGen.head'_iff.mp h
      cases hu
    · cases he
  · obtain ⟨r, hr, hclosure⟩ := grb.reflexive_transitive_closure_spec (build_matrix grb edges).1
      turns (by rw [nrows_build_matrix]; exact hturns)
    refine ⟨write_closure p (grb.extract_edges r) (numbering edges), ?_, ?_⟩
    · simp only [hr]
      rfl
    · have hdense : ∀ i j, grb.Entry r i j ↔
          TransGen (dense edges) i j ∨ (i = j ∧ i < (numbering edges).len) := by
        intro i j
        have hentry : grb.Entry (build_matrix grb edges).1 = dense edges := by
          funext x y
          exact propext (entry_build_matrix grb edges x y)
        rw [hclosure, hentry, nrows_build_matrix]
      obtain ⟨hnodup, hmem⟩ := written_closure grb p hdense
      refine ⟨hnodup, fun t => (hmem t).trans (and_congr_right fun _ => ?_)⟩
      rw [← pull_dense_closure]
      constructor
      · rintro ⟨i, j, hs, ho, h | ⟨rfl, -⟩⟩
        · exact Or.inl ⟨i, j, hs, ho, h⟩
        · refine Or.inr ⟨DenseIdMap.to_dense_inj hs ho, ?_⟩
          exact (numbered_iff edges t.s).mp ⟨i, hs⟩
      · rintro (⟨i, j, hs, ho, h⟩ | ⟨heq, hend⟩)
        · exact ⟨i, j, hs, ho, Or.inl h⟩
        · obtain ⟨i, hs⟩ := (numbered_iff edges t.s).mpr hend
          exact ⟨i, i, hs, heq ▸ hs, Or.inr ⟨rfl, to_dense_lt hs⟩⟩

/-- The closed edges that the incremental closure of a list holds. -/
theorem mem_from_base_edges (edges : List (Nat × Nat)) (s o : Nat) :
    (s, o) ∈ (IncrementalTransitiveClosure.from_base_edges edges).edges ↔
      TransGen (fun x y => (x, y) ∈ edges) s o := by
  obtain ⟨hgood, hedge⟩ := IncrementalTransitiveClosure.from_base_edges_good edges
  have hbase : (IncrementalTransitiveClosure.from_base_edges edges).Edge =
      fun x y => (x, y) ∈ edges := by
    funext x y
    exact propext (hedge x y)
  rw [← hbase, ← hgood.closed]
  exact HornDb.Lib.Adjacency.mem_edges _ s o

/-- The loop ends on every matrix with the strict closure. So the bulk closure of an edge list
writes, each once, the pairs that the edge-by-edge closure of the list holds, and the reflexive
one adds the pairs of each end with itself. -/
theorem bulk_closure_is_incremental_closure :
    (∀ (m : grb.BoolMatrix) turns, grb.nrows m * grb.nrows m < turns →
      ∃ r, grb.transitive_closure turns m = some r ∧ grb.nrows r = grb.nrows m ∧
        ∀ i j, grb.Entry r i j ↔ TransGen (grb.Entry m) i j) ∧
    ∀ p edges turns, enough_turns edges ≤ turns →
      ∃ written reflexive, close_transitive_predicate grb turns p edges = some written ∧
        close_reflexive grb turns p edges = some reflexive ∧
        (∀ t ∈ written ++ reflexive, t.p = p) ∧
        (written.map fun t => (t.s, t.o)).Perm
          (IncrementalTransitiveClosure.from_base_edges edges).edges ∧
        (reflexive.map fun t => (t.s, t.o)).Nodup ∧
        ∀ t, t ∈ reflexive ↔ t ∈ written ∨
          (t.p = p ∧ t.s = t.o ∧ ∃ e ∈ edges, t.s = e.1 ∨ t.s = e.2) := by
  constructor
  · intro m turns hturns
    obtain ⟨r, hr, hclosure⟩ := grb.transitive_closure_spec m turns hturns
    exact ⟨r, hr, hclosure.size, hclosure.entry⟩
  · intro p edges turns hturns
    obtain ⟨written, hw, hwritten⟩ := close_transitive_predicate_writes grb p edges hturns
    obtain ⟨reflexive, hr, hreflexive⟩ := close_reflexive_writes grb p edges hturns
    refine ⟨written, reflexive, hw, hr, ?_, ?_, hreflexive.nodup, fun t => ?_⟩
    · intro t ht
      rcases List.mem_append.mp ht with ht | ht
      · exact ((hwritten.mem t).mp ht).1
      · exact ((hreflexive.mem t).mp ht).1
    · refine (List.perm_ext_iff_of_nodup hwritten.nodup
        (HornDb.Lib.Adjacency.edges_nodup _)).mpr ?_
      rintro ⟨s, o⟩
      refine Iff.trans ?_ (mem_from_base_edges edges s o).symm
      rw [List.mem_map]
      constructor
      · rintro ⟨t, ht, heq⟩
        obtain ⟨rfl, rfl⟩ := Prod.mk.inj heq
        exact ((hwritten.mem t).mp ht).2
      · exact fun h => ⟨⟨s, p, o⟩, (hwritten.mem _).mpr ⟨rfl, h⟩, rfl⟩
    · rw [hreflexive.mem, hwritten.mem, ← and_or_left]

/-- A cycle with a tail, over the kernel of finite sets. -/
theorem bulk_closure_of_cycle :
    ∃ written, close_transitive_predicate .ofPairs 10 7 [(5, 2), (2, 5), (2, 9)] = some written ∧
      (written.map fun t => (t.s, t.o)).Perm [(5, 5), (5, 2), (5, 9), (2, 5), (2, 2), (2, 9)] := by
  obtain ⟨written, -, hwritten, -, -, hperm, -⟩ :=
    (bulk_closure_is_incremental_closure .ofPairs).2 7 [(5, 2), (2, 5), (2, 9)] 10
      (by decide)
  exact ⟨written, hwritten, hperm.trans (by decide)⟩

end horndb.closure.sink
