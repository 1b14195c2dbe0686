-- The store under SPARQL Update: the quads that are visible, and the calls that write and read
-- them. A call may fail at any time, and a batch that fails changes nothing. Terms arrive in
-- their algebra form and are kept as the term library reads them.
import HornDb.TermText

namespace horndb.sparql

open text (Library LanguageTag)

/-! ## Terms -/

/-- A term of the algebra. A literal is its N-Triples text. -/
inductive Term where
  | Var (name : String)
  | Iri (s : String)
  | BlankNode (label : String)
  | Literal (raw : String)
  | Triple (subject predicate object : Term)
deriving DecidableEq, Repr

inductive SparqlError where
  | UnsupportedAlgebra (msg : String)
  | Executor (msg : String)
  | FeedIdMismatch (slot request : String)
deriving DecidableEq, Repr

inductive BaseDirection where
  | Ltr
  | Rtl
deriving DecidableEq, Repr

def BaseDirection.as_str : BaseDirection → List Char
  | Ltr => ['l', 't', 'r']
  | Rtl => ['r', 't', 'l']

/-- A term as the store keeps it. The bulk loads also leave literals with a direction and triple
terms, these by the text that the library prints for them. -/
inductive OxTerm (ox : Library) where
  | NamedNode (iri : String)
  | BlankNode (label : String)
  | Literal (l : text.Literal ox)
  | Directional (value : List Char) (language : LanguageTag ox) (direction : BaseDirection)
  | Triple (text : String)
deriving DecidableEq

variable {ox : Library}

/-- A variable or a triple term cannot be stored. -/
def algebra_to_oxrdf : Term → Option (OxTerm ox)
  | .Iri s => some (.NamedNode s)
  | .BlankNode s => some (.BlankNode s)
  | .Literal raw => some (.Literal (text.parse_literal raw.toList))
  | .Var _ => none
  | .Triple _ _ _ => none

/-- A triple term becomes an IRI of its text. -/
def oxrdf_to_algebra : OxTerm ox → Term
  | .NamedNode s => .Iri s
  | .BlankNode s => .BlankNode s
  | .Literal l => .Literal (String.ofList l.to_string)
  | .Directional value language direction => .Literal (String.ofList
      (text.print_quoted_str ox value ++ ['@'] ++ language.as_str ++ ['-', '-'] ++
        direction.as_str))
  | .Triple tr => .Iri tr

/-- Neither a literal with a direction nor a triple term. -/
def OxTerm.plain : OxTerm ox → Bool
  | .Directional _ _ _ => false
  | .Triple _ => false
  | _ => true

theorem algebra_to_oxrdf_to_algebra {t : OxTerm ox} (h : t.plain = true) :
    algebra_to_oxrdf (oxrdf_to_algebra t) = some t := by
  cases t with
  | NamedNode s => rfl
  | BlankNode s => rfl
  | Literal l => rw [oxrdf_to_algebra, algebra_to_oxrdf, String.toList_ofList, text.parse_to_string]
  | Directional value language direction => cases h
  | Triple tr => cases h

theorem algebra_to_oxrdf_plain {t : Term} {a : OxTerm ox} (h : algebra_to_oxrdf t = some a) :
    a.plain = true := by
  cases t with
  | Var name => cases h
  | Triple s p o => cases h
  | _ =>
    cases h
    rfl

/-! ## Quads -/

/-- The graph of a quad that is written: the default graph, or a name. -/
abbrev GraphName := Option String

structure AlgebraQuad where
  g : GraphName
  s : Term
  p : Term
  o : Term
deriving DecidableEq, Repr

/-- A graph of the store. Bulk loads also make graphs that a blank node names. -/
inductive GraphId where
  | DefaultGraph
  | NamedNode (iri : String)
  | BlankNode (label : String)
deriving DecidableEq, Repr

structure StoredQuad (ox : Library) where
  g : GraphId
  s : OxTerm ox
  p : OxTerm ox
  o : OxTerm ox
deriving DecidableEq

def resolve_graph : GraphName → GraphId
  | none => .DefaultGraph
  | some iri => .NamedNode iri

/-- The stored quad that a quad stands for. -/
def AlgebraQuad.key (q : AlgebraQuad) : Option (StoredQuad ox) :=
  match algebra_to_oxrdf q.s, algebra_to_oxrdf q.p, algebra_to_oxrdf q.o with
  | some s, some p, some o => some ⟨resolve_graph q.g, s, p, o⟩
  | _, _, _ => none

/-- A quad of a graph, read back under the graph's name. -/
def StoredQuad.spell (g : GraphName) (k : StoredQuad ox) : AlgebraQuad :=
  ⟨g, oxrdf_to_algebra k.s, oxrdf_to_algebra k.p, oxrdf_to_algebra k.o⟩

def StoredQuad.plain (k : StoredQuad ox) : Bool := k.s.plain && k.p.plain && k.o.plain

variable {k : StoredQuad ox}

theorem key_spell (g : GraphName) (h : k.plain = true) :
    (k.spell g).key = some { k with g := resolve_graph g } := by
  simp only [StoredQuad.plain, Bool.and_eq_true] at h
  simp only [StoredQuad.spell, AlgebraQuad.key, algebra_to_oxrdf_to_algebra h.1.1,
    algebra_to_oxrdf_to_algebra h.1.2, algebra_to_oxrdf_to_algebra h.2]

theorem key_plain {q : AlgebraQuad} (h : q.key = some k) : k.plain = true := by
  unfold AlgebraQuad.key at h
  split at h
  · rename_i s p o hs hp ho
    cases h
    simp [StoredQuad.plain, algebra_to_oxrdf_plain hs, algebra_to_oxrdf_plain hp,
      algebra_to_oxrdf_plain ho]
  · cases h

theorem key_graph {q : AlgebraQuad} (h : q.key = some k) : k.g = resolve_graph q.g := by
  unfold AlgebraQuad.key at h
  split at h
  · rw [← Option.some.inj h]
  · cases h

def RESERVED_GRAPH_PREFIX : String := "https://horndb.io/graph/"

def is_reserved_graph (iri : String) : Bool := RESERVED_GRAPH_PREFIX.toList.isPrefixOf iri.toList

/-- The graph is one of the reserved ones. -/
def GraphId.Reserved : GraphId → Prop
  | .NamedNode iri => is_reserved_graph iri = true
  | _ => False

/-! ## The visible quads under a batch -/

/-- A batch deletes first. -/
def apply_batch (quads : List (StoredQuad ox)) (dels adds : List AlgebraQuad) :
    List (StoredQuad ox) :=
  quads.filter (fun k => k ∉ dels.filterMap AlgebraQuad.key) ∪
    (adds.filterMap AlgebraQuad.key).dedup

variable {quads : List (StoredQuad ox)}

theorem mem_apply_batch {dels adds : List AlgebraQuad} : k ∈ apply_batch quads dels adds ↔
      (k ∈ quads ∧ ∀ q ∈ dels, q.key ≠ some k) ∨ ∃ q ∈ adds, q.key = some k := by
  simp [apply_batch]

inductive GraphTarget where
  | DefaultGraph
  | NamedNode (iri : String)
  | NamedGraphs
  | AllGraphs
deriving DecidableEq, Repr

def GraphTarget.selects : GraphTarget → GraphId → Bool
  | .DefaultGraph, g => g == .DefaultGraph
  | .NamedNode iri, g => g == .NamedNode iri
  | .NamedGraphs, g => g != .DefaultGraph
  | .AllGraphs, _ => true

def clear_quads (quads : List (StoredQuad ox)) (graph : GraphTarget) : List (StoredQuad ox) :=
  quads.filter fun k => !graph.selects k.g

@[simp]
theorem mem_clear_quads {graph : GraphTarget} :
    k ∈ clear_quads quads graph ↔ k ∈ quads ∧ graph.selects k.g = false := by
  simp [clear_quads]

def graph_exists (quads : List (StoredQuad ox)) (iri : String) : Bool :=
  quads.any fun k => k.g == .NamedNode iri

def quad_exists (quads : List (StoredQuad ox)) (q : AlgebraQuad) : Bool :=
  match q.key with
  | some k => quads.contains k
  | none => false

theorem graph_exists_iff {iri : String} :
    graph_exists quads iri = true ↔ ∃ k ∈ quads, k.g = .NamedNode iri := by
  simp [graph_exists]

theorem quad_exists_iff {q : AlgebraQuad} :
    quad_exists quads q = true ↔ ∃ k ∈ quads, q.key = some k := by
  unfold quad_exists
  cases h : (q.key : Option (StoredQuad ox)) with
  | none => simp
  | some k => simp [eq_comm]

/-- The IRI of a graph that an IRI names. -/
def GraphId.iri : GraphId → Option String
  | .NamedNode iri => some iri
  | _ => none

/-- The IRIs of the named graphs that hold quads, in order. -/
def graphs (quads : List (StoredQuad ox)) : List String :=
  ((quads.filterMap fun k => k.g.iri).dedup).insertionSort (· ≤ ·)

theorem iri_eq_some {g : GraphId} {iri : String} : g.iri = some iri ↔ g = .NamedNode iri := by
  cases g <;> simp [GraphId.iri]

theorem mem_graphs {iri : String} : iri ∈ graphs quads ↔ ∃ k ∈ quads, k.g = .NamedNode iri := by
  simp [graphs, iri_eq_some]

/-! ## Calls -/

/-- The store: the visible quads, the tag of the next document, and how many of the calls that
may fail were made. -/
structure Store (ox : Library) where
  quads : List (StoredQuad ox)
  bnode_doc_tag : UInt64
  calls : Nat

/-- Which of the calls fail. -/
abbrev Faults := Nat → Bool

abbrev Result (α : Type) := Except SparqlError α

/-- Make a call: it fails with the error, or does what it should. -/
def Store.call (fails : Faults) (msg : String) (st : Store ox) (quads : List (StoredQuad ox)) :
    Result Unit × Store ox :=
  if fails st.calls then (.error (.Executor msg), { st with calls := st.calls + 1 })
  else (.ok (), { st with quads := quads, calls := st.calls + 1 })

def Store.apply_quads (fails : Faults) (st : Store ox) (dels adds : List AlgebraQuad) :
    Result Unit × Store ox :=
  st.call fails "storage apply_quads" (apply_batch st.quads dels adds)

def Store.clear_graph (fails : Faults) (st : Store ox) (graph : GraphTarget) :
    Result Unit × Store ox :=
  st.call fails "clear_graph" (clear_quads st.quads graph)

/-- The triples of one graph. -/
def Store.scan_graph_quads (fails : Faults) (st : Store ox) (graph : GraphTarget) :
    Result (List (Term × Term × Term)) × Store ox :=
  match graph with
  | .NamedGraphs | .AllGraphs =>
    (.error (.Executor "scan_graph_quads: AllGraphs/NamedGraphs names no single source graph"), st)
  | _ =>
    match st.call fails "scan_graph" st.quads with
    | (.error e, st) => (.error e, st)
    | (.ok (), st) =>
      (.ok ((st.quads.filter fun k => graph.selects k.g).map fun k =>
        (oxrdf_to_algebra k.s, oxrdf_to_algebra k.p, oxrdf_to_algebra k.o)), st)

/-- The counter starts again after the last tag. -/
def Store.next_bnode_doc_tag (st : Store ox) : UInt64 × Store ox :=
  (st.bnode_doc_tag, { st with bnode_doc_tag := st.bnode_doc_tag + 1 })

end horndb.sparql
