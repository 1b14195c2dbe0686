-- The scopes that a snapshot is built for, over the quads of one commit. The default union leaves
-- out the reserved graphs that are not made visible.
import HornDb.QuadStore
import HornDb.VecSource

open horndb.wcoj (Triple)

namespace horndb.sparql.exec.horn

/-! ## The store at one commit -/

abbrev GraphId := Nat

/-- The default graph has no name and is never reserved. -/
def DEFAULT_GRAPH : GraphId := 0

abbrev Quad := GraphId × Triple

/-- The quads that are visible at a commit. -/
structure StoreSnapshot where
  quads : List Quad
  nodup : quads.Nodup

namespace StoreSnapshot

def empty : StoreSnapshot := ⟨[], List.nodup_nil⟩

def iter_graph_term_ids (snap : StoreSnapshot) (g : GraphId) : List Triple :=
  (snap.quads.filter fun q => q.1 = g).map Prod.snd

/-- The graphs that hold a quad, in order. -/
def graphs (snap : StoreSnapshot) : List GraphId :=
  ((snap.quads.map Prod.fst).dedup).insertionSort (· ≤ ·)

def triple_count (snap : StoreSnapshot) : Nat := snap.quads.length

/-- A batch deletes first. -/
def apply_quads (snap : StoreSnapshot) (dels adds : List Quad) : StoreSnapshot where
  quads := snap.quads.filter (fun q => q ∉ dels) ∪ adds.dedup
  nodup := List.Nodup.union _ (List.nodup_dedup _)

/-- What a batch takes out or puts in. -/
def changes (snap : StoreSnapshot) (dels adds : List Quad) : Bool :=
  (snap.quads.any fun q => q ∈ dels) ||
    adds.any fun q => q ∉ snap.quads.filter fun q => q ∉ dels

variable {snap : StoreSnapshot} {g : GraphId} {t : Triple} {dels adds : List Quad}

@[simp]
theorem mem_iter_graph : t ∈ snap.iter_graph_term_ids g ↔ (g, t) ∈ snap.quads := by
  simp [iter_graph_term_ids]

@[simp]
theorem mem_graphs : g ∈ snap.graphs ↔ ∃ t, (g, t) ∈ snap.quads := by
  simp [graphs]

@[simp]
theorem mem_apply_quads {q : Quad} :
    q ∈ (snap.apply_quads dels adds).quads ↔ (q ∈ snap.quads ∧ q ∉ dels) ∨ q ∈ adds := by
  simp [apply_quads]

end StoreSnapshot

/-- The IRIs of the graphs that an IRI names. -/
structure GraphNames where
  graph_uri : GraphId → Option String
  default_uri : graph_uri DEFAULT_GRAPH = none

/-! ## Scopes -/

inductive SnapshotScope where
  | DefaultUnion
  | DefaultStrict
  | FromUnion (graphs : List GraphId)
  | OneGraph (g : GraphId)
deriving DecidableEq, Repr

def SnapshotScope.memoisable : SnapshotScope → Bool
  | .DefaultUnion | .DefaultStrict => true
  | _ => false

def SnapshotScope.default_twin : SnapshotScope → Option SnapshotScope
  | .DefaultStrict => some .DefaultUnion
  | .DefaultUnion => some .DefaultStrict
  | _ => none

variable (names : GraphNames)

def hidden_reserved (g : GraphId) (visible : Finset String) : Bool :=
  match names.graph_uri g with
  | some iri => is_reserved_graph iri && iri ∉ visible
  | none => false

/-- The graphs of the default union. -/
def union_graphs (snap : StoreSnapshot) (visible : Finset String) : List GraphId :=
  snap.graphs.filter fun g => !hidden_reserved names g visible

def union_triples (snap : StoreSnapshot) (graphs : List GraphId) : List Triple :=
  graphs.flatMap snap.iter_graph_term_ids

def scope_triples (snap : StoreSnapshot) (visible : Finset String) : SnapshotScope → List Triple
  | .DefaultStrict => snap.iter_graph_term_ids DEFAULT_GRAPH
  | .OneGraph g => snap.iter_graph_term_ids g
  | .FromUnion graphs => union_triples snap graphs
  | .DefaultUnion => union_triples snap (union_graphs names snap visible)

/-- The default union is the default graph alone. -/
def default_scopes_coincide (snap : StoreSnapshot) (visible : Finset String) : Bool :=
  (union_graphs names snap visible).all fun g => g == DEFAULT_GRAPH

/-- The one graph that a scope reads, if there is one. -/
def direct_graph (snap : StoreSnapshot) (visible : Finset String) :
    SnapshotScope → Option GraphId
  | .DefaultStrict => some DEFAULT_GRAPH
  | .OneGraph g => some g
  | .DefaultUnion =>
    match union_graphs names snap visible with
    | [] => some DEFAULT_GRAPH
    | [g] => some g
    | _ => none
  | .FromUnion _ => none

/-- The triples of a scope, each once. -/
def content (snap : StoreSnapshot) (visible : Finset String) (scope : SnapshotScope) :
    Finset Triple :=
  (scope_triples names snap visible scope).toFinset

variable {names} {snap : StoreSnapshot} {visible : Finset String} {t : Triple} {g : GraphId}

theorem hidden_default : hidden_reserved names DEFAULT_GRAPH visible = false := by
  simp [hidden_reserved, names.default_uri]

theorem mem_union_graphs : g ∈ union_graphs names snap visible ↔
    (∃ t, (g, t) ∈ snap.quads) ∧ hidden_reserved names g visible = false := by
  simp [union_graphs]

theorem mem_union_triples {graphs : List GraphId} :
    t ∈ union_triples snap graphs ↔ ∃ g ∈ graphs, (g, t) ∈ snap.quads := by
  simp [union_triples]

theorem mem_content_strict :
    t ∈ content names snap visible .DefaultStrict ↔ (DEFAULT_GRAPH, t) ∈ snap.quads := by
  simp [content, scope_triples]

theorem mem_content_union : t ∈ content names snap visible .DefaultUnion ↔
    ∃ g, hidden_reserved names g visible = false ∧ (g, t) ∈ snap.quads := by
  simp only [content, scope_triples, List.mem_toFinset, mem_union_triples, mem_union_graphs]
  constructor
  · rintro ⟨g, ⟨_, hvis⟩, ht⟩
    exact ⟨g, hvis, ht⟩
  · rintro ⟨g, hvis, ht⟩
    exact ⟨g, ⟨⟨t, ht⟩, hvis⟩, ht⟩

/-- Only the default union depends on which reserved graphs are visible. -/
theorem content_visible {visible' : Finset String} {scope : SnapshotScope}
    (h : scope ≠ .DefaultUnion) :
    content names snap visible scope = content names snap visible' scope := by
  cases scope with
  | DefaultUnion => exact absurd rfl h
  | DefaultStrict => rfl
  | FromUnion graphs => rfl
  | OneGraph g => rfl

/-- Where the two default scopes coincide, they hold the same triples. -/
theorem content_coincide (h : default_scopes_coincide names snap visible = true) :
    content names snap visible .DefaultUnion = content names snap visible .DefaultStrict := by
  refine Finset.ext fun t => ?_
  rw [mem_content_union, mem_content_strict]
  simp only [default_scopes_coincide, List.all_eq_true, mem_union_graphs, beq_iff_eq] at h
  constructor
  · rintro ⟨g, hvis, ht⟩
    rw [h g ⟨⟨t, ht⟩, hvis⟩] at ht
    exact ht
  · exact fun ht => ⟨_, hidden_default, ht⟩

/-- A scope that reads one graph holds that graph's triples. -/
theorem content_direct {scope : SnapshotScope}
    (h : direct_graph names snap visible scope = some g) :
    t ∈ content names snap visible scope ↔ (g, t) ∈ snap.quads := by
  cases scope with
  | DefaultStrict =>
    cases h
    exact mem_content_strict
  | OneGraph g' =>
    cases h
    simp [content, scope_triples]
  | FromUnion graphs => cases h
  | DefaultUnion =>
    simp only [content, scope_triples, List.mem_toFinset, mem_union_triples]
    simp only [direct_graph] at h
    split at h
    · rename_i hnil
      cases h
      rw [hnil]
      simp only [List.not_mem_nil, false_and, exists_false, false_iff]
      intro ht
      have : DEFAULT_GRAPH ∈ union_graphs names snap visible :=
        mem_union_graphs.mpr ⟨⟨t, ht⟩, hidden_default⟩
      simp [hnil] at this
    · rename_i hone
      cases h
      simp [hone]
    · cases h

end horndb.sparql.exec.horn
