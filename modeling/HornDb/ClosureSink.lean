-- The closure backend of many predicates: each has its own dense numbering and its
-- own closure. A call gives what it inferred or withdrew over dictionary ids.
import HornDb.ClosureRuns
import HornDb.DenseId
import HornDb.Triples

open HornDb.Lib Relation Std
open horndb.closure.dense_id horndb.closure.incremental
open horndb.incremental (TripleId)

namespace horndb.closure.sink

/-- Where the inferred triples go. It takes all of them or the write fails. -/
abbrev TripleSink := List TripleId → Bool

structure PredicateState where
  map : DenseIdMap
  inner : IncrementalTransitiveClosure

def PredicateState.default : PredicateState := ⟨.new, .new⟩

/-- The retraction outcome over dictionary ids. -/
structure DictDeleteOutcome where
  withdrawn : List (Nat × Nat)
  survived : List (Nat × Nat)
deriving DecidableEq, Repr

def DictDeleteOutcome.default : DictDeleteOutcome := ⟨[], []⟩

structure IncrementalClosureBackend where
  predicates : ExtTreeMap Nat PredicateState

/-- A pair of indices as a pair of ids, none when an index has no id. -/
def pair_to_dict (map : DenseIdMap) (e : Nat × Nat) : Option (Nat × Nat) :=
  (map.to_dict e.1).bind fun s => (map.to_dict e.2).map fun o => (s, o)

def pairs_to_dict (map : DenseIdMap) (pairs : List (Nat × Nat)) : List (Nat × Nat) :=
  pairs.filterMap (pair_to_dict map)

/-- A pair of ids as a pair of indices, none when an id was never numbered. -/
def pair_to_dense (map : DenseIdMap) (e : Nat × Nat) : Option (Nat × Nat) :=
  (map.to_dense e.1).bind fun s => (map.to_dense e.2).map fun o => (s, o)

/-- The triples that a write of the dense edges hands to the sink. -/
def write_closure (p : Nat) (dense_edges : List (Nat × Nat)) (map : DenseIdMap) :
    List TripleId :=
  (pairs_to_dict map dense_edges).map fun e => ⟨e.1, p, e.2⟩

/-- A run of inserts that also keeps the base edges it added. -/
structure InsertRun where
  inner : IncrementalTransitiveClosure
  delta : List (Nat × Nat)
  new_base_edges : List (Nat × Nat)

def insert_run_step (run : InsertRun) (e : Nat × Nat) : InsertRun :=
  let (closure, edge_delta, base_was_new) := run.inner.insert_edge_tracked e.1 e.2
  ⟨closure, run.delta ++ edge_delta,
    if base_was_new then run.new_base_edges ++ [e] else run.new_base_edges⟩

namespace IncrementalClosureBackend

def new : IncrementalClosureBackend := ⟨∅⟩

/-- The retained state of `p`, the default one when it has none. -/
def state (b : IncrementalClosureBackend) (p : Nat) : PredicateState :=
  b.predicates.getD p .default

def seed_transitive_closure (b : IncrementalClosureBackend) (p : Nat)
    (closed_edges : List (Nat × Nat)) : IncrementalClosureBackend :=
  let (map, dense) := DenseIdMap.new.intern_edges closed_edges
  ⟨b.predicates.insert p ⟨map, .from_closed_edges dense⟩⟩

def seed_base_edges (b : IncrementalClosureBackend) (p : Nat) (base_edges : List (Nat × Nat)) :
    IncrementalClosureBackend :=
  let (map, dense) := DenseIdMap.new.intern_edges base_edges
  ⟨b.predicates.insert p ⟨map, .from_base_edges dense⟩⟩

/-- Insert the edges and write what they infer. None when the sink fails; then the
closure and the base are rolled back and only the numbering has grown. -/
def insert_transitive_edges (b : IncrementalClosureBackend) (p : Nat)
    (new_edges : List (Nat × Nat)) (sink : TripleSink) :
    IncrementalClosureBackend × Option (List TripleId) :=
  if new_edges.isEmpty then (b, some [])
  else
    let st := b.state p
    let (map, dense) := st.map.intern_edges new_edges
    let run := dense.foldl insert_run_step ⟨st.inner, [], []⟩
    if run.delta.isEmpty then (⟨b.predicates.insert p ⟨map, run.inner⟩⟩, some [])
    else
      let triples := write_closure p run.delta map
      if sink triples then (⟨b.predicates.insert p ⟨map, run.inner⟩⟩, some triples)
      else
        let closure := (run.inner.rollback_inserted run.delta).rollback_base_edges
          run.new_base_edges
        (⟨b.predicates.insert p ⟨map, closure⟩⟩, none)

/-- Retract the edges and return what they closed. An edge with an end that was never
numbered is no base edge. -/
def delete_transitive_edges (b : IncrementalClosureBackend) (p : Nat)
    (edges : List (Nat × Nat)) : IncrementalClosureBackend × DictDeleteOutcome :=
  if edges.isEmpty then (b, .default)
  else if b.predicates.contains p then
    let st := b.state p
    let (closure, out) := st.inner.delete_edges (edges.filterMap (pair_to_dense st.map))
    (⟨b.predicates.insert p { st with inner := closure }⟩,
      ⟨pairs_to_dict st.map out.withdrawn, pairs_to_dict st.map out.survived⟩)
  else (b, .default)

def base_edges (b : IncrementalClosureBackend) (p : Nat) : List (Nat × Nat) :=
  if b.predicates.contains p then
    pairs_to_dict (b.state p).map (b.state p).inner.base_edges
  else []

end IncrementalClosureBackend

/-! ## The laws of one predicate -/

theorem mem_pairs_to_dict {map : DenseIdMap} {pairs : List (Nat × Nat)} {s o : Nat} :
    (s, o) ∈ pairs_to_dict map pairs ↔ map.Pull (fun x y => (x, y) ∈ pairs) s o := by
  unfold pairs_to_dict pair_to_dict DenseIdMap.Pull
  simp only [List.mem_filterMap, Option.bind_eq_some_iff, Option.map_eq_some_iff, Prod.exists,
    Prod.mk.injEq, DenseIdMap.to_dict_eq_some]
  constructor
  · rintro ⟨x, y, hmem, _, hs, _, ho, rfl, rfl⟩
    exact ⟨x, y, hs, ho, hmem⟩
  · rintro ⟨x, y, hs, ho, hmem⟩
    exact ⟨x, y, hmem, s, hs, o, ho, rfl, rfl⟩

theorem mem_write_closure {p : Nat} {dense_edges : List (Nat × Nat)} {map : DenseIdMap}
    {t : TripleId} :
    t ∈ write_closure p dense_edges map ↔
      t.p = p ∧ map.Pull (fun x y => (x, y) ∈ dense_edges) t.s t.o := by
  rw [write_closure, List.mem_map, ← mem_pairs_to_dict]
  constructor
  · rintro ⟨e, he, rfl⟩
    exact ⟨rfl, he⟩
  · rintro ⟨rfl, h⟩
    exact ⟨(t.s, t.o), h, rfl⟩

theorem mem_pairs_to_dense {map : DenseIdMap} {edges : List (Nat × Nat)} {s o si oi : Nat}
    (hs : map.to_dense s = some si) (ho : map.to_dense o = some oi) :
    (si, oi) ∈ edges.filterMap (pair_to_dense map) ↔ (s, o) ∈ edges := by
  unfold pair_to_dense
  simp only [List.mem_filterMap, Option.bind_eq_some_iff, Option.map_eq_some_iff, Prod.exists,
    Prod.mk.injEq]
  constructor
  · rintro ⟨s', o', hmem, _, hs', _, ho', rfl, rfl⟩
    rw [DenseIdMap.to_dense_inj hs hs', DenseIdMap.to_dense_inj ho ho']
    exact hmem
  · exact fun hmem => ⟨s, o, hmem, si, hs, oi, ho, rfl, rfl⟩

/-- A tracked run inserts the edges and has their delta. -/
theorem insert_run (es : List (Nat × Nat)) :
    ∀ run : InsertRun,
      let out := es.foldl insert_run_step run
      let plain := es.foldl (fun acc e =>
        let (c, delta) := acc.1.insert_edge e.1 e.2
        (c, acc.2 ++ delta)) (run.inner, run.delta)
      (out.inner, out.delta) = plain := by
  induction es with
  | nil => exact fun _ => rfl
  | cons e es ih => exact fun run => ih (insert_run_step run e)

theorem insert_run_spec (c : IncrementalTransitiveClosure) (es : List (Nat × Nat)) :
    (es.foldl insert_run_step ⟨c, [], []⟩).inner = (c.insert_edges es).1 ∧
      (es.foldl insert_run_step ⟨c, [], []⟩).delta = (c.insert_edges es).2 := by
  have h := insert_run es ⟨c, [], []⟩
  exact ⟨congrArg Prod.fst h, congrArg Prod.snd h⟩

namespace PredicateState

/-- The closure of the state is right and every end of a base edge has a number. -/
structure Good (st : PredicateState) : Prop where
  right : st.inner.Good
  numbers : st.map.Numbers st.inner.Edge

/-- The base edges of the state over dictionary ids. -/
def Edge (st : PredicateState) : Nat → Nat → Prop := st.map.Pull st.inner.Edge

theorem default_good : default.Good where
  right := IncrementalTransitiveClosure.new_good
  numbers := by
    intro x y h
    simp [default, IncrementalTransitiveClosure.Edge, IncrementalTransitiveClosure.new] at h

theorem default_edge (s o : Nat) : ¬ default.Edge s o := by
  rintro ⟨x, y, _, _, h⟩
  simp [default, IncrementalTransitiveClosure.Edge, IncrementalTransitiveClosure.new] at h

theorem Good.pull_closed {st : PredicateState} (h : st.Good) :
    st.map.Pull st.inner.Closed = TransGen st.Edge := by
  have hclosed : st.inner.Closed = TransGen st.inner.Edge := by
    funext x y
    exact propext (h.right.closed x y)
  rw [hclosed, DenseIdMap.pull_transGen h.numbers]
  rfl

/-- The numbering after an insert, the closure that the insert makes. -/
def inserted (st : PredicateState) (es : List (Nat × Nat)) : PredicateState :=
  ⟨(st.map.intern_edges es).1, (st.inner.insert_edges (st.map.intern_edges es).2).1⟩

theorem inserted_spec {st : PredicateState} (h : st.Good) (es : List (Nat × Nat)) :
    (st.inserted es).Good ∧
      (∀ s o, (st.inserted es).Edge s o ↔ st.Edge s o ∨ (s, o) ∈ es) ∧
      ∀ s o, (st.inserted es).map.Pull
          (fun x y => (x, y) ∈ (st.inner.insert_edges (st.map.intern_edges es).2).2) s o ↔
        TransGen (st.inserted es).Edge s o ∧ ¬ TransGen st.Edge s o := by
  have hins := IncrementalTransitiveClosure.insert_edges_spec h.right (st.map.intern_edges es).2
  obtain ⟨hext, hall⟩ := st.map.intern_edges_spec es
  have hnum := h.numbers.extends hext
  have hgood : (st.inserted es).Good := by
    refine ⟨hins.good, fun x y hxy => ?_⟩
    rcases (hins.edge x y).mp hxy with hxy | hxy
    · exact hnum x y hxy
    · exact DenseIdMap.intern_edges_ends _ _ hxy
  refine ⟨hgood, ?_, ?_⟩
  · intro s o
    have hold : st.Edge = (st.inserted es).map.Pull st.inner.Edge :=
      (DenseIdMap.pull_extends h.numbers hext).symm
    rw [hold]
    constructor
    · rintro ⟨x, y, hs, ho, hxy⟩
      rcases (hins.edge x y).mp hxy with hxy | hxy
      · exact Or.inl ⟨x, y, hs, ho, hxy⟩
      · exact Or.inr ((DenseIdMap.mem_intern_edges st.map es hs ho).mp hxy)
    · rintro (⟨x, y, hs, ho, hxy⟩ | hmem)
      · exact ⟨x, y, hs, ho, (hins.edge x y).mpr (Or.inl hxy)⟩
      · obtain ⟨d, hs, ho⟩ : ∃ d : Nat × Nat, (st.inserted es).map.to_dense s = some d.1 ∧
            (st.inserted es).map.to_dense o = some d.2 := by
          obtain ⟨d, _, hd⟩ := DenseIdMap.mem_numbered hall hmem
          exact ⟨d, hd⟩
        exact ⟨d.1, d.2, hs, ho, (hins.edge _ _).mpr
          (Or.inr ((DenseIdMap.mem_intern_edges st.map es hs ho).mpr hmem))⟩
  · intro s o
    rw [← hgood.pull_closed, ← h.pull_closed]
    have hnumc : st.map.Numbers st.inner.Closed := by
      intro x y hxy
      exact h.numbers.transGen x y ((h.right.closed x y).mp hxy)
    have hold : st.map.Pull st.inner.Closed =
        (st.inserted es).map.Pull st.inner.Closed :=
      (DenseIdMap.pull_extends hnumc hext).symm
    rw [hold]
    constructor
    · rintro ⟨x, y, hs, ho, hxy⟩
      obtain ⟨hnew, hold⟩ := (hins.delta x y).mp hxy
      exact ⟨⟨x, y, hs, ho, hnew⟩, fun hp => hold ((DenseIdMap.pull_iff hs ho).mp hp)⟩
    · rintro ⟨⟨x, y, hs, ho, hnew⟩, hold⟩
      exact ⟨x, y, hs, ho, (hins.delta x y).mpr
        ⟨hnew, fun hc => hold ((DenseIdMap.pull_iff hs ho).mpr hc)⟩⟩

/-- The state after a delete, on the numbering it had. -/
def deleted (st : PredicateState) (es : List (Nat × Nat)) : PredicateState :=
  { st with inner := (st.inner.delete_edges (es.filterMap (pair_to_dense st.map))).1 }

theorem deleted_spec {st : PredicateState} (h : st.Good) (es : List (Nat × Nat)) :
    let out := (st.inner.delete_edges (es.filterMap (pair_to_dense st.map))).2
    (st.deleted es).Good ∧
      (∀ s o, (st.deleted es).Edge s o ↔ st.Edge s o ∧ (s, o) ∉ es) ∧
      (∀ s o, (s, o) ∈ pairs_to_dict st.map out.withdrawn ↔
        TransGen st.Edge s o ∧ ¬ TransGen (st.deleted es).Edge s o) ∧
      ∀ s o, (s, o) ∈ pairs_to_dict st.map out.survived ↔
        (s, o) ∈ es ∧ st.Edge s o ∧ TransGen (st.deleted es).Edge s o := by
  have hdel := IncrementalTransitiveClosure.delete_edges_spec h.right
    (es.filterMap (pair_to_dense st.map))
  have hgood : (st.deleted es).Good :=
    ⟨hdel.good, fun x y hxy => h.numbers x y ((hdel.edge x y).mp hxy).1⟩
  have hclosed := hgood.pull_closed
  refine ⟨hgood, ?_, ?_, ?_⟩
  · intro s o
    constructor
    · rintro ⟨x, y, hs, ho, hxy⟩
      obtain ⟨hold, hnot⟩ := (hdel.edge x y).mp hxy
      exact ⟨⟨x, y, hs, ho, hold⟩, fun hmem => hnot ((mem_pairs_to_dense hs ho).mpr hmem)⟩
    · rintro ⟨⟨x, y, hs, ho, hxy⟩, hnot⟩
      exact ⟨x, y, hs, ho, (hdel.edge x y).mpr
        ⟨hxy, fun hmem => hnot ((mem_pairs_to_dense hs ho).mp hmem)⟩⟩
  · intro s o
    rw [mem_pairs_to_dict, ← hclosed, ← h.pull_closed]
    constructor
    · rintro ⟨x, y, hs, ho, hxy⟩
      obtain ⟨hold, hnot⟩ := (hdel.withdrawn x y).mp hxy
      exact ⟨⟨x, y, hs, ho, hold⟩, fun hp => hnot ((DenseIdMap.pull_iff hs ho).mp hp)⟩
    · rintro ⟨⟨x, y, hs, ho, hold⟩, hnot⟩
      exact ⟨x, y, hs, ho, (hdel.withdrawn x y).mpr
        ⟨hold, fun hc => hnot ((DenseIdMap.pull_iff hs ho).mpr hc)⟩⟩
  · intro s o
    rw [mem_pairs_to_dict, ← hclosed]
    constructor
    · rintro ⟨x, y, hs, ho, hxy⟩
      obtain ⟨hmem, hedge, hc⟩ := (hdel.survived x y).mp hxy
      exact ⟨(mem_pairs_to_dense hs ho).mp hmem, ⟨x, y, hs, ho, hedge⟩, ⟨x, y, hs, ho, hc⟩⟩
    · rintro ⟨hmem, ⟨x, y, hs, ho, hedge⟩, hc⟩
      exact ⟨x, y, hs, ho, (hdel.survived x y).mpr
        ⟨(mem_pairs_to_dense hs ho).mpr hmem, hedge, (DenseIdMap.pull_iff hs ho).mp hc⟩⟩

end PredicateState

/-! ## The laws of the backend -/

namespace IncrementalClosureBackend

/-- Every retained state is right. -/
def Good (b : IncrementalClosureBackend) : Prop := ∀ p, (b.state p).Good

/-- The base edges of `p` over dictionary ids. -/
def Edge (b : IncrementalClosureBackend) (p : Nat) : Nat → Nat → Prop := (b.state p).Edge

theorem new_good : new.Good := by
  intro p
  rw [state, new, ExtTreeMap.getD_empty]
  exact PredicateState.default_good

theorem new_edge (p s o : Nat) : ¬ new.Edge p s o := by
  rw [Edge, state, new, ExtTreeMap.getD_empty]
  exact PredicateState.default_edge s o

theorem state_insert (b : IncrementalClosureBackend) (p q : Nat) (st : PredicateState) :
    (IncrementalClosureBackend.mk (b.predicates.insert p st)).state q =
      if q = p then st else b.state q := by
  rw [state, ExtTreeMap.getD_insert]
  by_cases hq : q = p
  · subst hq
    rw [if_pos ReflCmp.compare_self, if_pos rfl]
  · have hne : ¬ compare p q = Ordering.eq := fun h => hq (LawfulEqOrd.eq_of_compare h).symm
    rw [if_neg hne, if_neg hq, state]

theorem Good.insert {b : IncrementalClosureBackend} (h : b.Good) {p : Nat} {st : PredicateState}
    (hst : st.Good) : (IncrementalClosureBackend.mk (b.predicates.insert p st)).Good := by
  intro q
  rw [state_insert]
  split
  · exact hst
  · exact h q

theorem edge_insert_self (b : IncrementalClosureBackend) (p : Nat) (st : PredicateState) :
    (IncrementalClosureBackend.mk (b.predicates.insert p st)).Edge p = st.Edge := by
  rw [Edge, state_insert, if_pos rfl]

/-- What an insert of edges does when the sink takes the triples. -/
structure EdgesInserted (b : IncrementalClosureBackend) (p : Nat) (es : List (Nat × Nat))
    (b' : IncrementalClosureBackend) (written : List TripleId) : Prop where
  good : b'.Good
  edge : ∀ s o, b'.Edge p s o ↔ b.Edge p s o ∨ (s, o) ∈ es
  written : ∀ t, t ∈ written ↔
    t.p = p ∧ TransGen (b'.Edge p) t.s t.o ∧ ¬ TransGen (b.Edge p) t.s t.o

theorem insert_transitive_edges_spec {b : IncrementalClosureBackend} (h : b.Good) (p : Nat)
    (es : List (Nat × Nat)) (sink : TripleSink) (hsink : ∀ ts, sink ts = true) :
    ∃ b' written, b.insert_transitive_edges p es sink = (b', some written) ∧
      EdgesInserted b p es b' written := by
  unfold insert_transitive_edges
  split
  · rename_i hes
    rw [List.isEmpty_iff] at hes
    subst hes
    exact ⟨b, [], rfl, h, by simp, by simp⟩
  · obtain ⟨hgood, hedge, hdelta⟩ := PredicateState.inserted_spec (h p) es
    obtain ⟨hclosure, hd⟩ := insert_run_spec (b.state p).inner
      ((b.state p).map.intern_edges es).2
    dsimp only
    rw [hclosure, hd, hsink, if_pos rfl]
    have hstate : (⟨((b.state p).map.intern_edges es).1, ((b.state p).inner.insert_edges
        ((b.state p).map.intern_edges es).2).1⟩ : PredicateState) = (b.state p).inserted es := rfl
    rw [hstate]
    have hspec : ∀ written : List TripleId, (∀ t : TripleId, t ∈ written ↔ t.p = p ∧
        ((b.state p).inserted es).map.Pull (fun x y => (x, y) ∈ ((b.state p).inner.insert_edges
          ((b.state p).map.intern_edges es).2).2) t.s t.o) →
        EdgesInserted b p es ⟨b.predicates.insert p ((b.state p).inserted es)⟩ written := by
      intro written hw
      refine ⟨h.insert hgood, ?_, ?_⟩
      · intro s o
        rw [edge_insert_self, hedge, Edge]
      · intro t
        rw [hw, hdelta, edge_insert_self, Edge]
    split
    · rename_i hempty
      rw [List.isEmpty_iff] at hempty
      refine ⟨_, _, rfl, hspec [] fun t => ?_⟩
      rw [hempty]
      simp [DenseIdMap.Pull]
    · exact ⟨_, _, rfl, hspec _ fun t => mem_write_closure⟩

/-- What a retraction of edges does. -/
structure EdgesDeleted (b : IncrementalClosureBackend) (p : Nat) (es : List (Nat × Nat))
    (b' : IncrementalClosureBackend) (out : DictDeleteOutcome) : Prop where
  good : b'.Good
  edge : ∀ s o, b'.Edge p s o ↔ b.Edge p s o ∧ (s, o) ∉ es
  withdrawn : ∀ s o, (s, o) ∈ out.withdrawn ↔
    TransGen (b.Edge p) s o ∧ ¬ TransGen (b'.Edge p) s o
  survived : ∀ s o, (s, o) ∈ out.survived ↔
    (s, o) ∈ es ∧ b.Edge p s o ∧ TransGen (b'.Edge p) s o

theorem delete_transitive_edges_spec {b : IncrementalClosureBackend} (h : b.Good) (p : Nat)
    (es : List (Nat × Nat)) :
    EdgesDeleted b p es (b.delete_transitive_edges p es).1 (b.delete_transitive_edges p es).2 := by
  unfold delete_transitive_edges
  split
  · rename_i hes
    rw [List.isEmpty_iff] at hes
    subst hes
    exact ⟨h, by simp, by simp [DictDeleteOutcome.default], by simp [DictDeleteOutcome.default]⟩
  · split
    · obtain ⟨hgood, hedge, hwith, hsurv⟩ := PredicateState.deleted_spec (h p) es
      refine ⟨h.insert hgood, ?_, ?_, ?_⟩
      · intro s o
        rw [edge_insert_self]
        exact hedge s o
      · intro s o
        rw [edge_insert_self]
        exact hwith s o
      · intro s o
        rw [edge_insert_self]
        exact hsurv s o
    · rename_i hp
      have hnone : ∀ s o, ¬ b.Edge p s o := by
        intro s o
        rw [Edge, state, ExtTreeMap.getD_eq_getD_getElem?, ExtTreeMap.getElem?_eq_none
          (by rwa [← ExtTreeMap.contains_iff_mem]), Option.getD_none]
        exact PredicateState.default_edge s o
      have hnone' : ∀ s o, ¬ TransGen (b.Edge p) s o := fun s o hso => by
        obtain ⟨m, hm, _⟩ := TransGen.head'_iff.mp hso
        exact hnone _ _ hm
      refine ⟨h, fun s o => ?_, fun s o => ?_, fun s o => ?_⟩
      · simp [hnone]
      · simp [DictDeleteOutcome.default, hnone']
      · simp [DictDeleteOutcome.default, hnone]

end IncrementalClosureBackend

end horndb.closure.sink
