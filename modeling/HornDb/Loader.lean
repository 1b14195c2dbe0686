-- The bulk loaders: what a parser yields is renamed, interned in document order and handed
-- to the tier in batches. The parsers are not part of the repository, so a document is the
-- rows that its parser yields. Metrics, timers and buffer sizes are left out.
import HornDb.Lib.Effects
import HornDb.Dictionary
import HornDb.MemoryTier

open HornDb.Lib.Effects

namespace horndb.storage

/-! ## What a parser yields -/

namespace oxrdf

variable (ox : Oxrdf)

structure Triple where
  subject : NamedOrBlankNode ox
  predicate : NamedNode ox
  object : Term ox

inductive GraphName where
  | DefaultGraph
  | NamedNode (n : NamedNode ox)
  | BlankNode (b : BlankNode ox)

structure Quad where
  subject : NamedOrBlankNode ox
  predicate : NamedNode ox
  object : Term ox
  graph_name : GraphName ox

variable {ox}

/-- A triple, as a quad of the default graph. -/
def Triple.in_graph (t : Triple ox) (g : GraphName ox) : Quad ox :=
  ⟨t.subject, t.predicate, t.object, g⟩

end oxrdf

/-- What a parser yields, one row after the other, with its errors between them. -/
abbrev Items (α : Type) := List (Except StorageError α)

namespace loader

/-! ## Blank nodes of a document -/

def scope_blank_node_label (tag : UInt64) (label : String) : String :=
  "hdb" ++ toString tag.toNat ++ "_" ++ label

/-- A label is still one behind the prefix of a document, where it is not checked again. -/
def Scopable (ox : Oxrdf) : Prop :=
  ∀ tag label, ox.label label = .ok () ∨ ox.unchecked label →
    ox.label (scope_blank_node_label tag label) = .ok () ∨
      ox.unchecked (scope_blank_node_label tag label)

variable {ox : Oxrdf} {fst : FstLib} (scopes : Scopable ox)

def scope_blank_node (tag : UInt64) (b : BlankNode ox) : BlankNode ox :=
  ⟨scope_blank_node_label tag b.as_str, scopes tag b.as_str b.held⟩

def scope_term (tag : UInt64) : Term ox → Term ox
  | .BlankNode b => .BlankNode (scope_blank_node scopes tag b)
  | other => other

/-! ## The sink -/

/-- What a load uses of a store: the dictionary, the tag of the next document, and the rows
that the tier was given. -/
structure Store (ox : Oxrdf) (fst : FstLib) where
  dictionary : Dictionary ox fst
  bnode_doc_tag : UInt64
  quads : List Quad

def Store.in_memory : Store ox fst := ⟨.new, 0, []⟩

/-- The counter starts again after the last tag. -/
def Store.next_bnode_doc_tag (store : Store ox fst) : UInt64 × Store ox fst :=
  (store.bnode_doc_tag, { store with bnode_doc_tag := store.bnode_doc_tag + 1 })

/-- What a load is given beside its document: the rows of a tier insert, and what the
write-ahead log says to a batch on top of the rows that are there. -/
structure Env where
  load_batch_triples : Nat
  log : List Quad → List Quad → Outcome Unit

/-- The load at work. The states that the dictionary was in, the latest first, and the number
of probes are there for the parse threads: they look terms up while the load goes on. -/
structure QuadSink (ox : Oxrdf) (fst : FstLib) where
  store : Store ox fst
  past : List (Dictionary ox fst)
  probes : Nat
  batch : List Quad
  total : Nat

structure LoadStats where
  triples : Nat
  dictionary_size : Nat
deriving DecidableEq, Repr

abbrev Load (ox : Oxrdf) (fst : FstLib) := ExceptT Halt (StateM (QuadSink ox fst))

namespace QuadSink

def new (store : Store ox fst) : QuadSink ox fst := ⟨store, [], 0, [], 0⟩

def intern (term : Term ox) : Load ox fst TermId := ExceptT.mk fun sink =>
  let (dictionary, out) := sink.store.dictionary.intern term
  (out, { sink with
    store := { sink.store with dictionary }
    past := dictionary :: sink.past })

/-- `Store::intern_graph_uri`: the id of the graph is the id of its name. -/
def intern_graph_uri (graph_uri : Term ox) : Load ox fst GraphId := intern graph_uri

def intern_triple (s p o : Term ox) : Load ox fst (TermId × TermId × TermId) := do
  let s_id ← intern s
  let p_id ← intern p
  let o_id ← intern o
  pure (s_id, p_id, o_id)

variable (env : Env)

/-- The batch is cleared on success only. -/
def flush : Load ox fst Unit := do
  let sink ← get
  match env.log sink.store.quads sink.batch with
  | .error e => throw e
  | .ok () =>
    set { sink with
      store := { sink.store with quads := sink.store.quads ++ sink.batch }
      batch := [] }

def record (g : GraphId) (s p o : TermId) : Load ox fst Unit := do
  modify fun sink => { sink with batch := sink.batch ++ [⟨g, s, p, o⟩], total := sink.total + 1 }
  let sink ← get
  if env.load_batch_triples ≤ sink.batch.length then flush env else pure ()

def push (g : GraphId) (s p o : Term ox) : Load ox fst Unit := do
  let (s_id, p_id, o_id) ← intern_triple s p o
  record env g s_id p_id o_id

def finish : Load ox fst LoadStats := do
  let sink ← get
  if sink.batch.isEmpty then pure () else flush env
  let sink ← get
  pure { triples := sink.total, dictionary_size := sink.store.dictionary.len }

end QuadSink

/-! ## Probed rows -/

/-- Stands for a term that was not interned when a parse thread looked for it. -/
def UNRESOLVED : TermId := 0

/-- One of the three terms of a probed row: its id, or the term itself. -/
structure Slot (ox : Oxrdf) where
  id : TermId
  term : Option (Term ox)

structure Probed (ox : Oxrdf) where
  s : Slot ox
  p : Slot ox
  o : Slot ox

def Slot.probe (dict : Dictionary ox fst) (term : Term ox) : Slot ox :=
  match dict.get term with
  | some hit => ⟨hit, none⟩
  | none => ⟨UNRESOLVED, some term⟩

/-- A parse thread looks a term up in a state that the dictionary was in since the load
began; `lag` says how far back for each probe. -/
def look_up (lag : Nat → Nat) (term : Term ox) : Load ox fst (Slot ox) := do
  let sink ← get
  set { sink with probes := sink.probes + 1 }
  match sink.past[lag sink.probes]? with
  | some dict => pure (Slot.probe dict term)
  | none => pure (Slot.probe sink.store.dictionary term)

def Probed.probe (lag : Nat → Nat) (s p o : Term ox) : Load ox fst (Probed ox) := do
  let s ← look_up lag s
  let p ← look_up lag p
  let o ← look_up lag o
  pure ⟨s, p, o⟩

def Slot.resolve (slot : Slot ox) : Load ox fst TermId :=
  if slot.id = UNRESOLVED then
    match slot.term with
    | some term => QuadSink.intern term
    | none => throw .panic
  else pure slot.id

def QuadSink.push_probed (env : Env) (g : GraphId) (probed : Probed ox) : Load ox fst Unit := do
  let s_id ← probed.s.resolve
  let p_id ← probed.p.resolve
  let o_id ← probed.o.resolve
  record env g s_id p_id o_id

/-! ## Batches of rows -/

def BATCH : Nat := 8192

def MIN_PROBE_CHUNKS : Nat := 4

def should_probe (chunks : Nat) : Bool := decide (MIN_PROBE_CHUNKS ≤ chunks)

/-- The full batches of what a parser yields and the rest, up to its first error. The rows
between the last full batch and an error are dropped. -/
def batches {α : Type} : Items α → List α → Items (List α)
  | [], batch => if batch.isEmpty then [] else [.ok batch]
  | .error e :: _, _ => [.error e]
  | .ok item :: items, batch =>
    if BATCH ≤ (batch ++ [item]).length then .ok (batch ++ [item]) :: batches items []
    else batches items (batch ++ [item])

def receive {α : Type} (sink : List α → Load ox fst Unit) :
    Except StorageError (List α) → Load ox fst Unit
  | .ok batch => sink batch
  | .error e => throw (.error e)

/-- Each batch goes to the sink; the first error ends the load. -/
def drain {α : Type} (messages : Items (List α)) (sink : List α → Load ox fst Unit) :
    Load ox fst Unit := messages.forM (receive sink)

/-- One parse thread a chunk. Their batches are taken chunk after chunk, so the sink sees them
in document order. -/
def parse_chunks_mapped {α : Type} (chunks : List (Items α)) (sink : List α → Load ox fst Unit) :
    Load ox fst Unit :=
  drain (chunks.flatMap fun chunk => batches chunk []) sink

/-- The rows of a stream are buffered by the same batches. -/
def load_quads_in_graphs {γ : Type} (env : Env) (items : Items (γ × Term ox × Term ox × Term ox))
    (to_graph : γ → Load ox fst GraphId) : Load ox fst LoadStats := do
  drain (batches items []) fun pending => pending.forM fun row => do
    let g ← to_graph row.1
    QuadSink.push env g row.2.1 row.2.2.1 row.2.2.2
  QuadSink.finish env

def load_quads (env : Env) (items : Items (GraphId × Term ox × Term ox × Term ox)) :
    Load ox fst LoadStats :=
  load_quads_in_graphs env items pure

/-- A load on a store: what it leaves there, whether it succeeds or not. -/
def Load.on {α : Type} (load : Load ox fst α) (store : Store ox fst) :
    Store ox fst × Outcome α :=
  let (out, sink) := load.run.run (QuadSink.new store)
  (sink.store, out)

/-! ## Triples -/

/-- The row of a triple in a stream. -/
def triple_row (tag : UInt64) (t : oxrdf.Triple ox) : GraphId × Term ox × Term ox × Term ox :=
  (DEFAULT_GRAPH, scope_term scopes tag (subject_to_term t.subject), .NamedNode t.predicate,
    scope_term scopes tag t.object)

/-- The rows of a batch of a slice, looked up by the parse thread or not. -/
def sink_triples (env : Env) (tag : UInt64) (lag : Nat → Nat) (probe : Bool)
    (rows : List (oxrdf.Triple ox)) : Load ox fst Unit :=
  rows.forM fun t => do
    if probe then
      let row ← Probed.probe lag (scope_term scopes tag (subject_to_term t.subject))
        (.NamedNode t.predicate) (scope_term scopes tag t.object)
      QuadSink.push_probed env DEFAULT_GRAPH row
    else
      QuadSink.push env DEFAULT_GRAPH (scope_term scopes tag (subject_to_term t.subject))
        (.NamedNode t.predicate) (scope_term scopes tag t.object)

def load_triples_reader (env : Env) (items : Items (oxrdf.Triple ox)) (store : Store ox fst) :
    Store ox fst × Outcome LoadStats :=
  let (tag, store) := store.next_bnode_doc_tag
  Load.on (load_quads env (items.map (·.map (triple_row scopes tag)))) store

def load_triples_slice (env : Env) (lag : Nat → Nat)
    (chunks : Except StorageError (List (Items (oxrdf.Triple ox)))) (store : Store ox fst) :
    Store ox fst × Outcome LoadStats :=
  let (tag, store) := store.next_bnode_doc_tag
  match chunks with
  | .error e => (store, .error (.error e))
  | .ok chunks =>
    Load.on (do
      parse_chunks_mapped chunks
        (sink_triples scopes env tag lag (should_probe chunks.length))
      QuadSink.finish env) store

def load_ntriples_reader (env : Env) (items : Items (oxrdf.Triple ox)) (store : Store ox fst) :
    Store ox fst × Outcome LoadStats :=
  load_triples_reader scopes env items store

def load_ntriples_slice_with_threads (env : Env) (lag : Nat → Nat)
    (chunks : List (Items (oxrdf.Triple ox))) (store : Store ox fst) :
    Store ox fst × Outcome LoadStats :=
  load_triples_slice scopes env lag (.ok chunks) store

/-- A wrong base IRI is found before the document has a tag. -/
def load_turtle_reader_with_base (env : Env)
    (parser : Except StorageError (Items (oxrdf.Triple ox))) (store : Store ox fst) :
    Store ox fst × Outcome LoadStats :=
  match parser with
  | .error e => (store, .error (.error e))
  | .ok items => load_triples_reader scopes env items store

/-- A wrong base IRI is found after the document has a tag. -/
def load_turtle_slice_with_threads (env : Env) (lag : Nat → Nat)
    (chunks : Except StorageError (List (Items (oxrdf.Triple ox)))) (store : Store ox fst) :
    Store ox fst × Outcome LoadStats :=
  load_triples_slice scopes env lag chunks store

/-! ## Quads -/

def graph_id (tag : UInt64) : oxrdf.GraphName ox → Load ox fst GraphId
  | .DefaultGraph => pure DEFAULT_GRAPH
  | .NamedNode n => QuadSink.intern_graph_uri (.NamedNode n)
  | .BlankNode b => QuadSink.intern_graph_uri (.BlankNode (scope_blank_node scopes tag b))

def quad_row (tag : UInt64) (q : oxrdf.Quad ox) :
    oxrdf.GraphName ox × Term ox × Term ox × Term ox :=
  (q.graph_name, scope_term scopes tag (subject_to_term q.subject), .NamedNode q.predicate,
    scope_term scopes tag q.object)

/-- The graph is never looked up by a parse thread. -/
def sink_quads (env : Env) (tag : UInt64) (lag : Nat → Nat) (probe : Bool)
    (rows : List (oxrdf.Quad ox)) : Load ox fst Unit :=
  rows.forM fun q => do
    if probe then
      let row ← Probed.probe lag (scope_term scopes tag (subject_to_term q.subject))
        (.NamedNode q.predicate) (scope_term scopes tag q.object)
      let g ← graph_id scopes tag q.graph_name
      QuadSink.push_probed env g row
    else
      let g ← graph_id scopes tag q.graph_name
      QuadSink.push env g (scope_term scopes tag (subject_to_term q.subject))
        (.NamedNode q.predicate) (scope_term scopes tag q.object)

def load_nquads_reader (env : Env) (items : Items (oxrdf.Quad ox)) (store : Store ox fst) :
    Store ox fst × Outcome LoadStats :=
  let (tag, store) := store.next_bnode_doc_tag
  Load.on (load_quads_in_graphs env (items.map (·.map (quad_row scopes tag)))
    (graph_id scopes tag)) store

def load_nquads_slice_with_threads (env : Env) (lag : Nat → Nat)
    (chunks : List (Items (oxrdf.Quad ox))) (store : Store ox fst) :
    Store ox fst × Outcome LoadStats :=
  let (tag, store) := store.next_bnode_doc_tag
  Load.on (do
    parse_chunks_mapped chunks (sink_quads scopes env tag lag (should_probe chunks.length))
    QuadSink.finish env) store

/-! ## Documents -/

/-- A document and the loader that it is loaded by. -/
inductive Document (ox : Oxrdf) where
  | ntriples_reader (items : Items (oxrdf.Triple ox))
  | ntriples_slice (chunks : List (Items (oxrdf.Triple ox))) (lag : Nat → Nat)
  | turtle_reader (parser : Except StorageError (Items (oxrdf.Triple ox)))
  | turtle_slice (chunks : Except StorageError (List (Items (oxrdf.Triple ox))))
      (lag : Nat → Nat)
  | nquads_reader (items : Items (oxrdf.Quad ox))
  | nquads_slice (chunks : List (Items (oxrdf.Quad ox))) (lag : Nat → Nat)

def Document.load (env : Env) (store : Store ox fst) :
    Document ox → Store ox fst × Outcome LoadStats
  | .ntriples_reader items => load_ntriples_reader scopes env items store
  | .ntriples_slice chunks lag => load_ntriples_slice_with_threads scopes env lag chunks store
  | .turtle_reader parser => load_turtle_reader_with_base scopes env parser store
  | .turtle_slice chunks lag => load_turtle_slice_with_threads scopes env lag chunks store
  | .nquads_reader items => load_nquads_reader scopes env items store
  | .nquads_slice chunks lag => load_nquads_slice_with_threads scopes env lag chunks store

/-- The rows that a parser yields before its first error. -/
def parsed {α : Type} : Items α → List α
  | .ok item :: items => item :: parsed items
  | _ => []

/-- The rows of a document before its first error. -/
def Document.quads : Document ox → List (oxrdf.Quad ox)
  | .ntriples_reader items => (parsed items).map (·.in_graph .DefaultGraph)
  | .ntriples_slice chunks _ => (parsed chunks.flatten).map (·.in_graph .DefaultGraph)
  | .turtle_reader (.ok items) => (parsed items).map (·.in_graph .DefaultGraph)
  | .turtle_reader (.error _) => []
  | .turtle_slice (.ok chunks) _ => (parsed chunks.flatten).map (·.in_graph .DefaultGraph)
  | .turtle_slice (.error _) _ => []
  | .nquads_reader items => parsed items
  | .nquads_slice chunks _ => parsed chunks.flatten

end loader

end horndb.storage
