-- The graph store protocol: one graph is read, replaced, merged into or emptied. A write is the
-- difference between the rows of a scan and the rows of a payload.
import HornDb.GraphTerms

namespace horndb.server.graph_store

open sparql (GraphId GraphName resolve_graph is_reserved_graph)
open sparql.lexical (OxTerm OxLiteral Absolute)
open sparql.text (Library)

/-! ## Parser and serializer -/

inductive Format where
  | Turtle
  | NTriples
deriving DecidableEq, Repr

/-- What stands for an IRI, but is the text of a triple term. -/
def BrokenIri (iri : List Char) : Prop :=
  ['<', '<', '(', ' '] <+: iri ∨ ['(', ' '] <+: iri

/-- The triple has this IRI for a term of its own or for its datatype. -/
def Triple.Names (t : Triple) (iri : List Char) : Prop :=
  t.s = .NamedNode iri ∨ t.p = .NamedNode iri ∨ t.o = .NamedNode iri ∨
    ∃ value, t.o = .Literal (.Typed value iri)

/-- An IRI of the triple is none. -/
def Broken (t : Triple) : Prop := ∃ iri, t.Names iri ∧ BrokenIri iri

/-- The library of formats, by its documents. It reads back the triples that it writes, and it
refuses what is no IRI. -/
structure Ttl (ox : TermLibrary) where
  Doc : Type
  check_iri : String → Option String
  parse : Format → String → Doc → Except String (List Triple)
  serialize : Format → List Triple → Doc
  parse_sent : ∀ f base d ts, parse f base d = .ok ts → ∀ t ∈ ts, t.Sent ox.toLibrary
  parse_serialize : ∀ f base ts, (∀ t ∈ ts, t.Sent ox.toLibrary) →
    parse f base (serialize f ts) = .ok ts
  refuses : ∀ f base ts, (∃ t ∈ ts, Broken t) → ∃ e, parse f base (serialize f ts) = .error e

/-! ## The store -/

structure Quad where
  g : GraphId
  t : Triple
deriving DecidableEq

/-- The visible quads, and the tag of the next document. -/
structure Store where
  quads : List Quad
  bnode_doc_tag : UInt64

abbrev AlgebraQuad := GraphName × AlgebraTriple

/-- The quads of a batch that can be stored. -/
def rows (ox : Library) (quads : List AlgebraQuad) : List Quad :=
  quads.filterMap fun q => (to_row ox q.2).map fun t => ⟨resolve_graph q.1, t⟩

/-- A batch deletes first. -/
def apply_quads (ox : Library) (quads : List Quad) (dels adds : List AlgebraQuad) : List Quad :=
  quads.filter (fun q => q ∉ rows ox dels) ∪ (rows ox adds).dedup

def scan_graph_quads (ox : Library) (quads : List Quad) (g : GraphId) : List AlgebraTriple :=
  (quads.filter fun q => q.g == g).map fun q => q.t.to_algebra ox

/-- The quads that are left, and how many are gone. -/
def clear_graph (quads : List Quad) (g : GraphId) : List Quad × Nat :=
  (quads.filter fun q => q.g != g, quads.countP fun q => q.g == g)

/-- What fails of the store's calls. -/
structure Faults where
  scan : Option String
  write : Option String

structure AppState where
  store : Store
  loading : Bool
  busy : Bool
  materialized : Bool

/-! ## Requests -/

inductive StatusCode where
  | OK
  | CREATED
  | NO_CONTENT
  | BAD_REQUEST
  | NOT_FOUND
  | UNSUPPORTED_MEDIA_TYPE
  | INTERNAL_SERVER_ERROR
  | SERVICE_UNAVAILABLE
deriving DecidableEq, Repr

def StatusCode.is_success : StatusCode → Bool
  | .OK | .CREATED | .NO_CONTENT => true
  | _ => false

inductive Body (Doc : Type) where
  | empty
  | message (msg : String)
  | document (content_type : String) (doc : Doc)

structure Response (Doc : Type) where
  status : StatusCode
  body : Body Doc

inductive Target where
  | Default
  | Named (iri : String)
deriving DecidableEq, Repr

def Target.graph_name : Target → GraphName
  | .Default => none
  | .Named iri => some iri

def Target.base_iri : Target → String
  | .Default => "urn:horndb:default-graph"
  | .Named iri => iri

def Target.graph (t : Target) : GraphId := resolve_graph t.graph_name

section Handlers

variable {ox : TermLibrary} (lib : Ttl ox)

def bad_request (msg : String) : Response lib.Doc := ⟨.BAD_REQUEST, .message (msg ++ "\n")⟩

def executor_error (e : String) : Response lib.Doc :=
  ⟨.INTERNAL_SERVER_ERROR, .message (e ++ "\n")⟩

def shed_while_loading : Response lib.Doc :=
  ⟨.SERVICE_UNAVAILABLE, .message "store is still loading\n"⟩

/-- The graph and the default that the parameters name. -/
def read_params : List (String × String) → Option String × Bool →
    Except (Response lib.Doc) (Option String × Bool)
  | [], found => .ok found
  | (k, v) :: params, found =>
    if k = "graph" then read_params params (some v, found.2)
    else if k = "default" then read_params params (found.1, true)
    else .error (bad_request lib ("unknown query parameter `" ++ k ++ "`"))

def target (params : List (String × String)) : Except (Response lib.Doc) Target := do
  match ← read_params lib params (none, false) with
  | (some g, false) =>
    match lib.check_iri g with
    | some e => .error (bad_request lib e)
    | none => .ok (.Named g)
  | (none, true) => .ok .Default
  | (none, false) => .error (bad_request lib "one of `graph=<iri>` or `default` is required")
  | (some _, true) => .error (bad_request lib "`graph` and `default` are mutually exclusive")

/-- A reserved graph is never written, and the default graph of a materialized store is not
written whole. -/
def check_writable (materialized : Bool) : Target → Except (Response lib.Doc) Unit
  | .Named iri =>
    if is_reserved_graph iri then
      .error (bad_request lib ("executor error: write to reserved graph <" ++ iri ++
        "> is not permitted: the " ++ sparql.RESERVED_GRAPH_PREFIX ++
        " namespace is closed to writes (SPEC-28 S4). Reads are allowed."))
    else .ok ()
  | .Default =>
    if materialized then
      .error (bad_request lib ("GSP writes to ?default are refused on a --materialize store: " ++
        "the closure's inferred triples share the default graph with the asserted ones, so a " ++
        "whole-graph write would delete inferences the request never sent"))
    else .ok ()

def unsupported : Response lib.Doc :=
  ⟨.UNSUPPORTED_MEDIA_TYPE, .message ("unsupported media type: the Graph Store Protocol serves " ++
    "one graph, so only the triples formats text/turtle and application/n-triples are accepted\n")⟩

def to_ascii_lowercase (s : List Char) : List Char := s.map Char.toLower

/-- The media type in front of its parameters. A missing one is Turtle. -/
def payload_extension (content_type : Option String) : Option Format :=
  let ctype := to_ascii_lowercase
    (sparql.text.trim (((content_type.getD "").toList).takeWhile (· ≠ ';')))
  if ctype = [] ∨ ctype = "text/turtle".toList then some .Turtle
  else if ctype = "application/n-triples".toList then some .NTriples
  else none

/-- A scanned row as a triple. A literal subject or a predicate that is no IRI leaves it out. -/
def to_oxrdf_triple (ox : Library) (a : AlgebraTriple) : Option Triple := do
  let subject ← match ← algebra_to_oxrdf ox a.1 with
    | .NamedNode n => some (OxTerm.NamedNode n)
    | .BlankNode b => some (OxTerm.BlankNode b)
    | _ => none
  let predicate ← match ← algebra_to_oxrdf ox a.2.1 with
    | .NamedNode n => some (OxTerm.NamedNode n)
    | _ => none
  pure ⟨subject, predicate, ← algebra_to_oxrdf ox a.2.2⟩

def serialize (triples : List AlgebraTriple) (accept : Option String) : Body lib.Doc :=
  let accept := to_ascii_lowercase (accept.getD "").toList
  let triples := triples.filterMap (to_oxrdf_triple ox.toLibrary)
  if "application/n-triples".toList <:+: accept then
    .document "application/n-triples" (lib.serialize .NTriples triples)
  else .document "text/turtle" (lib.serialize .Turtle triples)

/-- What is only in the graph, and what is only in the payload. -/
def graph_diff (base payload : List AlgebraTriple) : List AlgebraTriple × List AlgebraTriple :=
  (base.filter (· ∉ payload), payload.filter (· ∉ base))

def quads (graph : GraphName) (triples : List AlgebraTriple) : List AlgebraQuad :=
  triples.map (graph, ·)

/-- The tag of this document is taken. -/
def AppState.tagged (state : AppState) : AppState :=
  { state with store := { state.store with bnode_doc_tag := state.store.bnode_doc_tag + 1 } }

@[simp]
theorem tagged_quads (state : AppState) : state.tagged.store.quads = state.store.quads := rfl

/-- Reading takes a tag for the blank nodes of the body. -/
def parse_payload (state : AppState) (t : Target) (f : Format) (body : lib.Doc) :
    Except (Response lib.Doc) (List AlgebraTriple) × AppState :=
  let tag := state.store.bnode_doc_tag
  match lib.parse f t.base_iri body with
  | .ok ts => (.ok (ts.map (Triple.to_terms ox.toLibrary tag)).dedup, state.tagged)
  | .error e =>
    (.error (bad_request lib ("executor error: parsing " ++ t.base_iri ++ ": " ++ e)),
      state.tagged)

def handle_get (faults : Faults) (state : AppState) (params : List (String × String))
    (accept : Option String) : Response lib.Doc :=
  if state.loading then shed_while_loading lib
  else
    match target lib params with
    | .error resp => resp
    | .ok t =>
      if state.busy then
        ⟨.SERVICE_UNAVAILABLE, .message "server busy: no query slot available\n"⟩
      else
        match faults.scan with
        | some e => executor_error lib e
        | none =>
          let triples := scan_graph_quads ox.toLibrary state.store.quads t.graph
          if triples = [] then ⟨.NOT_FOUND, .message "no such graph\n"⟩
          else ⟨.OK, serialize lib triples accept⟩

/-- The difference is committed in one batch, and an empty one not at all. -/
def commit (faults : Faults) (state : AppState) (t : Target) (payload : List AlgebraTriple)
    (replace : Bool) : Response lib.Doc × AppState :=
  match faults.scan with
  | some e => (executor_error lib e, state)
  | none =>
    let base := (scan_graph_quads ox.toLibrary state.store.quads t.graph).dedup
    let (dels, adds) := graph_diff base payload
    let dels := if replace then quads t.graph_name dels else []
    let adds := quads t.graph_name adds
    let status : StatusCode := if base = [] ∧ adds ≠ [] then .CREATED else .NO_CONTENT
    if dels ≠ [] ∨ adds ≠ [] then
      match faults.write with
      | some e => (executor_error lib e, state)
      | none =>
        let quads := apply_quads ox.toLibrary state.store.quads dels adds
        (⟨status, .empty⟩, { state with store := { state.store with quads } })
    else (⟨status, .empty⟩, state)

def write_graph (faults : Faults) (state : AppState) (params : List (String × String))
    (content_type : Option String) (body : lib.Doc) (replace : Bool) :
    Response lib.Doc × AppState :=
  if state.loading then (shed_while_loading lib, state)
  else
    match target lib params with
    | .error resp => (resp, state)
    | .ok t =>
      match check_writable lib state.materialized t with
      | .error resp => (resp, state)
      | .ok () =>
        match payload_extension content_type with
        | none => (unsupported lib, state)
        | some f =>
          match parse_payload lib state t f body with
          | (.error resp, state) => (resp, state)
          | (.ok payload, state) => commit lib faults state t payload replace

def handle_put (faults : Faults) (state : AppState) (params : List (String × String))
    (content_type : Option String) (body : lib.Doc) : Response lib.Doc × AppState :=
  write_graph lib faults state params content_type body true

def handle_post (faults : Faults) (state : AppState) (params : List (String × String))
    (content_type : Option String) (body : lib.Doc) : Response lib.Doc × AppState :=
  write_graph lib faults state params content_type body false

def handle_delete (faults : Faults) (state : AppState) (params : List (String × String)) :
    Response lib.Doc × AppState :=
  if state.loading then (shed_while_loading lib, state)
  else
    match target lib params with
    | .error resp => (resp, state)
    | .ok t =>
      match check_writable lib state.materialized t with
      | .error resp => (resp, state)
      | .ok () =>
        match faults.write with
        | some e => (executor_error lib e, state)
        | none =>
          match clear_graph state.store.quads t.graph with
          | (_, 0) => (⟨.NOT_FOUND, .message "no such graph\n"⟩, state)
          | (quads, _ + 1) =>
            (⟨.NO_CONTENT, .empty⟩, { state with store := { state.store with quads } })

end Handlers

end horndb.server.graph_store
