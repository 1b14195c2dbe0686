-- The materializer: one pass closes the spine once, derives every stale view into its inferred
-- graph, and publishes the catalog. What it reads and writes goes through the keys of the terms;
-- the engine is taken by what it is asked for, the closure of the triples it was given.
import HornDb.ViewCatalog
import HornDb.EngineKeys

namespace horndb.sparql.reasoning

open lexical (Row)
open text (Library)

/-! ## Rows and keys -/

def row_key (row : Row) : Option LexTriple := lexical.row_key row

/-- The row that is written for a triple of keys. -/
def quad (ox : Library) (t : LexTriple) : Option Row := lexical.quad ox t

def terms (ox : Library) (t : LexTriple) : Row := lexical.terms ox t

def MeantTriple (ox : Library) (t : LexTriple) : Prop := lexical.MeantTriple ox t

theorem row_key_terms {ox : Library} {t : LexTriple} (h : MeantTriple ox t) :
    row_key (terms ox t) = some t := lexical.row_key_terms h

theorem quads_meant {ox : Library} {ts : List LexTriple} (h : ∀ t ∈ ts, MeantTriple ox t) :
    ts.mapM (quad ox) = some (ts.map (terms ox)) := lexical.quads_meant h

/-! ## The store -/

structure Quad where
  g : GraphId
  t : Row
deriving DecidableEq

structure HornBackend where
  quads : Finset Quad
  touched_graphs : List GraphId
  visible_inferred : Finset String

/-- The name that the router sees. A graph that a blank node names shows as the default one. -/
def graph_name : GraphId → GraphName
  | .DefaultGraph => none
  | .NamedNode iri => some iri
  | .BlankNode _ => none

/-- The label of a graph that a blank node names. -/
def label : GraphId → Option String
  | .BlankNode l => some l
  | _ => none

/-- The rows of one graph. -/
def rows (quads : Finset Quad) (g : GraphId) : Finset Row :=
  (quads.filter fun q => q.g = g).image Quad.t

/-- The triples of one graph, by their keys. A row with a triple term has none. -/
def triples (quads : Finset Quad) (g : GraphId) : Finset LexTriple :=
  (rows quads g).biUnion fun row => (row_key row).toFinset

/-- The IRIs of the graphs that hold a quad, in order. -/
def graphs (quads : Finset Quad) : List String :=
  (quads.biUnion fun q => q.g.iri.toFinset).sort

/-- Every graph that holds a quad. -/
def graph_ids (quads : Finset Quad) : List GraphId :=
  (if rows quads .DefaultGraph = ∅ then [] else [.DefaultGraph]) ++
    (graphs quads).map .NamedNode ++
    ((quads.biUnion fun q => (label q.g).toFinset).sort).map .BlankNode

namespace HornBackend

/-- A batch deletes first. A batch that changes something reports the graphs of its quads. -/
def apply_quads (b : HornBackend) (dels adds : List (GraphName × Row)) : HornBackend :=
  let del_rows := dels.map fun q => Quad.mk (resolve_graph q.1) q.2
  let add_rows := adds.map fun q => Quad.mk (resolve_graph q.1) q.2
  let kept := b.quads \ del_rows.toFinset
  let changed := del_rows.any (fun q => q ∈ b.quads) || add_rows.any fun q => q ∉ kept
  { b with
    quads := kept ∪ add_rows.toFinset
    touched_graphs :=
      if changed then b.touched_graphs ∪ (del_rows ++ add_rows).map Quad.g
      else b.touched_graphs }

def graphs_to_sweep (b : HornBackend) : GraphTarget → List GraphId
  | .DefaultGraph => [.DefaultGraph]
  | .AllGraphs => graph_ids b.quads
  | .NamedGraphs => (graph_ids b.quads).filter (· ≠ .DefaultGraph)
  | .NamedNode iri => [.NamedNode iri]

def clear_graph (b : HornBackend) (graph : GraphTarget) : HornBackend :=
  let swept := b.graphs_to_sweep graph
  if b.quads.filter (fun q => q.g ∈ swept) = ∅ then b
  else
    { b with
      quads := b.quads.filter fun q => q.g ∉ swept
      touched_graphs := b.touched_graphs ∪ swept }

end HornBackend

/-! ## The engine -/

/-- What the engine computes of the triples it holds. Keys of terms have a closure of such keys. -/
structure Reasoner (ox : Library) where
  closure : Finset LexTriple → Finset LexTriple
  consistent : Finset LexTriple → Bool
  meant : ∀ ts, (∀ t ∈ ts, MeantTriple ox t) → ∀ t ∈ closure ts, MeantTriple ox t

/-- An engine, by the triples that it was given. -/
structure Engine where
  input : Finset LexTriple

namespace Engine

variable {ox : Library}

def extend (e : Engine) (ts : Finset LexTriple) : Engine := ⟨e.input ∪ ts⟩

def materialized_triples (e : Engine) (r : Reasoner ox) : Finset LexTriple := r.closure e.input

def is_consistent (e : Engine) (r : Reasoner ox) : Bool := r.consistent e.input

end Engine

/-! ## The manager -/

structure ViewManager where
  cfg : Reasoning
  catalog : ViewCatalog
  spine_engine : Option Engine
  spine_materialized : Finset LexTriple

def ViewManager.new (cfg : Reasoning) : ViewManager where
  cfg := cfg
  catalog := .new cfg
  spine_engine := none
  spine_materialized := ∅

/-- The store and the manager in a pass, and how many of the calls that may fail were made. -/
structure World where
  backend : HornBackend
  manager : ViewManager
  calls : Nat

abbrev Pass (α : Type) := ExceptT SparqlError (StateM World) α

section

variable {ox : Library} (r : Reasoner ox) (fails : Faults)

/-- A call that may fail. -/
def call (msg : String) : Pass Unit := do
  let w ← get
  set { w with calls := w.calls + 1 }
  if fails w.calls then throw (.Executor msg)

def on_backend (f : HornBackend → HornBackend) : Pass Unit :=
  modify fun w => { w with backend := f w.backend }

def on_manager (f : ViewManager → ViewManager) : Pass Unit :=
  modify fun w => { w with manager := f w.manager }

def scan_graph_lexical (g : GraphName) : Pass (Finset LexTriple) := do
  call fails "scan_graph"
  let w ← get
  return triples w.backend.quads (resolve_graph g)

/-- The names of the touched graphs, which are forgotten. -/
def take_touched_graphs : Pass (List GraphName) := do
  let w ← get
  on_backend fun b => { b with touched_graphs := [] }
  return w.backend.touched_graphs.map graph_name

/-- Make a graph hold just the triples, in one batch. -/
def write_graph (ox : Library) (graph : String) (want : Finset LexTriple) : Pass Unit := do
  let current ← scan_graph_lexical fails (some graph)
  if current = want then return
  call fails "storage apply_quads"
  match (current \ want).sort.mapM (quad ox), (want \ current).sort.mapM (quad ox) with
  | some dels, some adds =>
    on_backend fun b => b.apply_quads (dels.map (some graph, ·)) (adds.map (some graph, ·))
    let _ ← take_touched_graphs
  | _, _ => throw (.Executor "storage apply_quads")

def clear_derived (ox : Library) (graph : String) : Pass Unit := write_graph fails ox graph ∅

def observe : Pass Unit := do
  let touched ← take_touched_graphs
  on_manager fun m => { m with catalog := m.catalog.route touched }

/-- The triples of the spine's graphs. -/
def scan_spine : List String → Pass (Finset LexTriple)
  | [] => return ∅
  | g :: gs => do
    let ts ← scan_graph_lexical fails (some g)
    let rest ← scan_spine gs
    return ts ∪ rest

/-- Close the spine, and publish what it adds to its own triples. -/
def build_spine (graphs : List String) : Pass Unit := do
  let w ← get
  let asserted ← (if w.manager.cfg.views.include_spine then
      scan_spine fails (graphs.filter w.manager.catalog.is_spine_graph)
    else pure ∅)
  call fails "spine closure"
  let engine : Engine := ⟨asserted⟩
  let materialized := engine.materialized_triples r
  on_manager fun m => { m with spine_materialized := materialized }
  write_graph fails ox SPINE_CLOSURE_GRAPH (materialized \ asserted)
  on_manager fun m =>
    { m with spine_engine := some engine, catalog := m.catalog.mark_spine_fresh }

/-- Derive one view: what its own graph adds to the closure of the spine. -/
def derive_view (src : ViewSource) : Pass Unit := do
  let asserted ← scan_graph_lexical fails src.graph_name
  let w ← get
  match w.manager.spine_engine with
  | none => throw (.Executor "derive_view before the spine template was built")
  | some template =>
    call fails "view closure"
    let engine := template.extend asserted
    let want := (engine.materialized_triples r \ w.manager.spine_materialized).filter
      fun t => t ∉ asserted
    write_graph fails ox src.inferred_graph want
    on_manager fun m =>
      { m with catalog := m.catalog.mark_derived src (engine.is_consistent r) }

/-- Derive the stale views. There are no more turns than stale views. -/
def derive_dirty : Nat → Nat → Pass Nat
  | 0, derived => return derived
  | turns + 1, derived => do
    let w ← get
    match w.manager.catalog.next_dirty with
    | none => return derived
    | some src =>
      derive_view r fails src
      derive_dirty turns (derived + 1)

/-- Publish the catalog, and which of the written graphs queries may see. -/
def publish (ox : Library) : Pass Unit := do
  let w ← get
  write_graph fails ox VIEWS_GRAPH w.manager.catalog.catalog_triples.toFinset
  on_backend fun b =>
    { b with
      visible_inferred :=
        if w.manager.cfg.default_dataset_includes_inferred then w.manager.catalog.visible_inferred
        else ∅ }

/-- Derive until nothing is stale; the number of the views that were derived. -/
def run_until_clean : Pass Nat := do
  let w ← get
  if !w.manager.cfg.enabled then return 0
  observe
  let w ← get
  let graphs := graphs w.backend.quads
  let default ← scan_graph_lexical fails none
  let w ← get
  let refreshed := w.manager.catalog.refresh_membership graphs (default ≠ ∅)
  on_manager fun m => { m with catalog := refreshed.1 }
  refreshed.2.forM fun gone => clear_derived fails ox gone.inferred_graph
  let w ← get
  (if w.manager.catalog.spine_stale then build_spine r fails graphs else pure ())
  let w ← get
  let derived ← derive_dirty r fails w.manager.catalog.views.dirty_keys.card 0
  publish fails ox
  return derived

end

end horndb.sparql.reasoning
