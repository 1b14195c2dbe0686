-- Snapshots: every graph of a store goes to a file, and from a file into a store. The file is
-- kept by its sections, not byte by byte.
import HornDb.Store

open HornDb.Lib.Wire

namespace horndb.storage

variable {ox : Oxrdf} {fst : FstLib}

/-! ## Writing terms -/

/-- A computation on a store. What it did before it stops stays done. -/
abbrev StoreM (ox : Oxrdf) (fst : FstLib) := ExceptT Halt (StateM (Store ox fst))

namespace StoreM

def lift {α : Type} (out : Outcome α) : StoreM ox fst α := ExceptT.mk fun store => (out, store)

def intern (term : Term ox) : StoreM ox fst TermId := ExceptT.mk fun store =>
  let (store, out) := store.intern term
  (out, store)

/-- A write that fails leaves the store as it was. -/
def write {α : Type} (f : Store ox fst → Outcome (Store ox fst × α)) : StoreM ox fst α :=
  ExceptT.mk fun store =>
    match f store with
    | .ok (store, a) => (.ok a, store)
    | .error e => (.error e, store)

end StoreM

/-- A row of terms in a graph. -/
abbrev TermQuad (ox : Oxrdf) := GraphId × Term ox × Term ox × Term ox

def intern_quad (row : TermQuad ox) : StoreM ox fst RawQuad := do
  let s ← StoreM.intern row.2.1
  let p ← StoreM.intern row.2.2.1
  let o ← StoreM.intern row.2.2.2
  pure (Quad.raw ⟨row.1, s, p, o⟩)

namespace Store

def intern_graph_uri (graph_uri : Term ox) : StoreM ox fst GraphId := StoreM.intern graph_uri

def insert_triples (triples : List (Term ox × Term ox × Term ox)) (elapsed : Nat) :
    StoreM ox fst Unit := do
  let quads ← triples.mapM fun t => intern_quad (DEFAULT_GRAPH, t)
  StoreM.write fun store => store.insert_quad_batch quads elapsed

/-- The ids of a row whose terms the dictionary has. -/
def known_quad (store : Store ox fst) (row : TermQuad ox) : Option RawQuad := do
  let s ← store.dictionary.get row.2.1
  let p ← store.dictionary.get row.2.2.1
  let o ← store.dictionary.get row.2.2.2
  pure (Quad.raw ⟨row.1, s, p, o⟩)

/-- The terms of deletions are looked up, those of insertions are interned. -/
def apply_quads (dels adds : List (TermQuad ox)) (elapsed : Nat) :
    StoreM ox fst ApplyReport := do
  let store ← get
  let del_ids := dels.filterMap store.known_quad
  let add_ids ← adds.mapM intern_quad
  StoreM.write fun store => store.apply_quad_ids del_ids add_ids elapsed

def insert_quads (quads : List (TermQuad ox)) (elapsed : Nat) : StoreM ox fst Nat := do
  let report ← apply_quads [] quads elapsed
  pure report.inserted

end Store

namespace snapshot

/-! ## The file -/

/-- A triple of local ids. They count from one. -/
structure LocalTriple where
  s : UInt64
  p : UInt64
  o : UInt64
deriving DecidableEq

/-- The triples of a graph. The name of the default graph is 0. -/
structure GraphBlock where
  graph_local : UInt64
  triples : List LocalTriple
deriving DecidableEq

/-- What a file holds: the bytes of the terms by their local ids, and the graphs. -/
structure Snapshot where
  terms : List Bytes
  graphs : List GraphBlock
deriving DecidableEq

def LocalTriple.key (t : LocalTriple) : Nat ×ₗ Nat ×ₗ Nat :=
  toLex (t.s.toNat, toLex (t.p.toNat, t.o.toNat))

/-- A file of the first version has one block, for the default graph. -/
def write_snapshot (terms : List Bytes) (graphs : List GraphBlock) : Snapshot :=
  let graphs := graphs.map fun g =>
    { g with triples := g.triples.mergeSort fun a b => decide (a.key ≤ b.key) }
  let graphs := graphs.mergeSort fun a b => decide (a.graph_local ≤ b.graph_local)
  if graphs.all fun g => g.graph_local == 0 then
    ⟨terms, [⟨0, (graphs.head?.map (·.triples)).getD []⟩]⟩
  else ⟨terms, graphs⟩

/-! ## Export -/

/-- The rows of every graph with a live row. -/
def raw_graphs (store : Store ox fst) : List (GraphId × List (TermId × TermId × TermId)) :=
  store.tier.current.live_graphs.map fun g => (g, store.tier.current.iter_graph_term_ids g)

/-- The ids that the rows and the names of their graphs use. -/
def used_ids (raw : List (GraphId × List (TermId × TermId × TermId))) : List TermId :=
  (raw.flatMap fun e =>
    (if e.1 = DEFAULT_GRAPH then [] else [e.1]) ++
      e.2.flatMap fun t => [t.1, t.2.1, t.2.2]).dedup

/-- The bytes of an id. An id that names nothing stops the export. -/
def encode_id (dict : Dictionary ox fst) (id : TermId) : Outcome (TermId × Bytes) :=
  match TermId.as_inline_int id with
  | some v => .ok (id, encode_inline_int v)
  | none => do
    match ← dict.lookup id with
    | some term => pure (id, encode_term term)
    | none => .error (snap_err ("dangling term id TermId(" ++ toString id ++ ")"))

/-- The local id of an id. It panics on an id that was not collected. -/
def local_of (entries : List (TermId × Bytes)) (id : TermId) : Outcome UInt64 :=
  match entries.findIdx? fun e => e.1 == id with
  | some i => .ok (.ofNat (i + 1))
  | none => .error .panic

def local_triple (entries : List (TermId × Bytes)) (t : TermId × TermId × TermId) :
    Outcome LocalTriple := do
  let s ← local_of entries t.1
  let p ← local_of entries t.2.1
  let o ← local_of entries t.2.2
  pure ⟨s, p, o⟩

def graph_block (entries : List (TermId × Bytes))
    (e : GraphId × List (TermId × TermId × TermId)) : Outcome GraphBlock := do
  let graph_local ← if e.1 = DEFAULT_GRAPH then .ok 0 else local_of entries e.1
  let triples ← e.2.mapM (local_triple entries)
  pure ⟨graph_local, triples⟩

/-- The terms are numbered in the order of their bytes. -/
def export_snapshot (store : Store ox fst) : Outcome Snapshot := do
  let raw := raw_graphs store
  let entries ← (used_ids raw).mapM (encode_id store.dictionary)
  let entries := entries.mergeSort fun a b => decide (a.2 ≤ b.2)
  let graphs ← raw.mapM (graph_block entries)
  pure (write_snapshot (entries.map Prod.snd) graphs)

/-! ## Import -/

def resolve_local (terms : List (Term ox)) (id : UInt64) (position : String) : Outcome (Term ox) :=
  match terms[(id - 1).toNat]? with
  | some term => .ok term
  | none => .error (snap_err (position ++ " local id out of range"))

def resolve_triple (terms : List (Term ox)) (t : LocalTriple) :
    Outcome (Term ox × Term ox × Term ox) := do
  let s ← resolve_local terms t.s "subject"
  let p ← resolve_local terms t.p "predicate"
  let o ← resolve_local terms t.o "object"
  pure (s, p, o)

/-- The terms of a block are interned as they are. -/
def import_block (terms : List (Term ox)) (block : GraphBlock) (elapsed : Nat) :
    StoreM ox fst Unit :=
  if block.graph_local = 0 then do
    let batch ← StoreM.lift (block.triples.mapM (resolve_triple terms))
    Store.insert_triples batch elapsed
  else do
    let name ← StoreM.lift (resolve_local terms block.graph_local "graph")
    let g ← Store.intern_graph_uri name
    let batch ← StoreM.lift (block.triples.mapM (resolve_triple terms))
    let _ ← Store.insert_quads (batch.map fun t => (g, t)) elapsed
    pure ()

/-- Each block of the file, with the time since the last sync of the log. The counter of the
documents stays where it is. -/
def import_snapshot_into (file : Snapshot) (elapsed : Nat → Nat) : StoreM ox fst Unit := do
  let terms ← StoreM.lift (file.terms.mapM (decode_term ox))
  file.graphs.zipIdx.forM fun e => import_block terms e.1 (elapsed e.2)

def import_snapshot (file : Snapshot) : Outcome (Store ox fst) :=
  match (import_snapshot_into file fun _ => 0).run.run .in_memory with
  | (.ok (), store) => .ok store
  | (.error e, _) => .error e

end snapshot

end horndb.storage
