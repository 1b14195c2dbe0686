-- A SPARQL Update request as the parser gives it: its operations, and the hints that the scan of
-- its text recovers for ADD, MOVE and COPY. What is outside the repository, or belongs to the
-- query path, is a parameter: the RDF parsers, the file system, and the solutions of a WHERE clause.
import HornDb.Loader
import HornDb.QuadStore

open horndb.storage.loader (scope_blank_node_label)

namespace horndb.sparql

/-! ## Operations -/

inductive NamedOrBlankNode where
  | NamedNode (iri : String)
  | BlankNode (label : String)
deriving DecidableEq, Repr

/-- An object: a literal by its N-Triples text, a triple term by its own text. -/
inductive ObjectTerm where
  | NamedNode (iri : String)
  | BlankNode (label : String)
  | Literal (text : String)
  | Triple (text : String)
deriving DecidableEq, Repr

inductive GroundTerm where
  | NamedNode (iri : String)
  | Literal (text : String)
  | Triple (text : String)
deriving DecidableEq, Repr

inductive TermPattern where
  | NamedNode (iri : String)
  | BlankNode (label : String)
  | Literal (text : String)
  | Triple (text : String)
  | Variable (name : String)
deriving DecidableEq, Repr

inductive GroundTermPattern where
  | NamedNode (iri : String)
  | Literal (text : String)
  | Triple (text : String)
  | Variable (name : String)
deriving DecidableEq, Repr

inductive NamedNodePattern where
  | NamedNode (iri : String)
  | Variable (name : String)
deriving DecidableEq, Repr

inductive GraphNamePattern where
  | DefaultGraph
  | NamedNode (iri : String)
  | Variable (name : String)
deriving DecidableEq, Repr

/-- A quad of INSERT DATA. -/
structure DataQuad where
  subject : NamedOrBlankNode
  predicate : String
  object : ObjectTerm
  graph_name : GraphName
deriving DecidableEq, Repr

/-- A quad of DELETE DATA. -/
structure GroundQuad where
  subject : String
  predicate : String
  object : GroundTerm
  graph_name : GraphName
deriving DecidableEq, Repr

/-- A quad of an INSERT template. -/
structure QuadPattern where
  subject : TermPattern
  predicate : NamedNodePattern
  object : TermPattern
  graph_name : GraphNamePattern
deriving DecidableEq, Repr

/-- A quad of a DELETE template. -/
structure GroundQuadPattern where
  subject : GroundTermPattern
  predicate : NamedNodePattern
  object : GroundTermPattern
  graph_name : GraphNamePattern
deriving DecidableEq, Repr

structure TriplePattern where
  subject : TermPattern
  predicate : NamedNodePattern
  object : TermPattern
deriving DecidableEq, Repr

/-- A WHERE clause: the two forms that a copy is recognised by, and every other form. -/
inductive GraphPattern (ω : Type) where
  | Bgp (patterns : List TriplePattern)
  | Graph (name : NamedNodePattern) (inner : GraphPattern ω)
  | Other (form : ω)
deriving DecidableEq

/-- The graphs of USING and USING NAMED, or of WITH. -/
structure QueryDataset where
  default : List String
  named : Option (List String)
deriving DecidableEq, Repr

inductive GraphUpdateOperation (ω : Type) where
  | InsertData (data : List DataQuad)
  | DeleteData (data : List GroundQuad)
  | DeleteInsert (delete : List GroundQuadPattern) (insert : List QuadPattern)
      (dataset : Option QueryDataset) (pattern : GraphPattern ω)
  | Load (silent : Bool) (source : String) (destination : GraphName)
  | Clear (silent : Bool) (graph : GraphTarget)
  | Create (silent : Bool) (graph : String)
  | Drop (silent : Bool) (graph : GraphTarget)
deriving DecidableEq

/-! ## ADD, MOVE and COPY -/

inductive AmcSource where
  | Default
  | Named (iri : String)
  | Unknown
deriving DecidableEq, Repr

structure AmcHint where
  silent : Bool
  source : AmcSource
  dest : AmcSource
  op_index : Nat
  op_count : Nat
  is_identity : Bool
deriving DecidableEq, Repr

/-- The operations, and the hints that `recover_amc_hints` reads off the text. -/
structure ParsedUpdate (ω : Type) where
  operations : List (GraphUpdateOperation ω)
  amc_hints : List AmcHint

variable {ω : Type}

def spo : GraphPattern ω := .Bgp [⟨.Variable "s", .Variable "p", .Variable "o"⟩]

/-- Source and destination of an operation that copies one graph. -/
def copy_op_operands [DecidableEq ω] : GraphUpdateOperation ω → Option (AmcSource × AmcSource)
  | .DeleteInsert [] [q] none pattern =>
    if q.subject = .Variable "s" ∧ q.predicate = .Variable "p" ∧ q.object = .Variable "o" then do
      let dest ← match q.graph_name with
        | .NamedNode n => some (.Named n)
        | .DefaultGraph => some .Default
        | .Variable _ => none
      let source ←
        if pattern = spo then some .Default
        else match pattern with
          | .Graph (.NamedNode n) inner => if inner = spo then some (.Named n) else none
          | _ => none
      some (source, dest)
    else none
  | _ => none

def drop_operand : GraphUpdateOperation ω → Option (Bool × AmcSource)
  | .Drop silent (.NamedNode n) => some (silent, .Named n)
  | .Drop silent .DefaultGraph => some (silent, .Default)
  | _ => none

/-- The index of the first operation of a verb whose copy stands at `ci`, where the operations
around the copy are those of the verb. -/
def locate_hint (ops : List (GraphUpdateOperation ω)) (h : AmcHint) (ci : Nat)
    (src dst : AmcSource) : Option Nat :=
  if h.source ≠ src ∨ h.dest ≠ dst then none
  else
    let drop_at (i : Option Nat) := (i.bind fun i => ops[i]?).bind drop_operand
    let dst_dropped := drop_at (if ci = 0 then none else some (ci - 1)) == some (true, dst)
    let shape_ok :=
      if h.op_count = 1 then true
      else if h.op_count = 2 then dst_dropped
      else if h.op_count = 3 then
        dst_dropped && drop_at (some (ci + 1)) == some (h.silent, src)
      else false
    if shape_ok then some (if h.op_count = 1 then ci else ci - 1) else none

/-- Give the hints, one copy each but for the identities, their first operations. -/
def locate_all (ops : List (GraphUpdateOperation ω)) :
    List AmcHint → List (Nat × AmcSource × AmcSource) → Option (List AmcHint)
  | [], [] => some []
  | [], _ :: _ => none
  | h :: hs, copies =>
    if h.is_identity then (locate_all ops hs copies).map (h :: ·)
    else match copies with
      | [] => none
      | (ci, src, dst) :: copies => do
        let i ← locate_hint ops h ci src dst
        let hs ← locate_all ops hs copies
        some ({ h with op_index := i } :: hs)

/-- The hints with their places, or all at the start where they do not fit the operations. -/
def locate_amc_hints [DecidableEq ω] (hints : List AmcHint) (ops : List (GraphUpdateOperation ω)) :
    List AmcHint :=
  let copies := ops.zipIdx.filterMap fun e =>
    (copy_op_operands e.1).map fun c => (e.2, c.1, c.2)
  (locate_all ops hints copies).getD (hints.map fun h => { h with op_index := 0 })

/-! ## The query path -/

/-- What a solution binds. -/
abbrev Bindings := String → Option Term

structure DatasetSpec where
  default : Option (List String)
  named : Option (List String)
deriving DecidableEq, Repr

def dataset_spec_from : Option QueryDataset → DatasetSpec
  | none => ⟨none, none⟩
  | some ds =>
    let named_graphs := ds.named.getD []
    if ds.default = [] ∧ named_graphs = [] then ⟨none, none⟩
    else ⟨some ds.default, some named_graphs⟩

/-- Translating and planning a WHERE clause, and running the plan over the visible quads, with the
default graph alone where the dataset names none. -/
structure QueryPath (ox : text.Library) (ω : Type) where
  Plan : Type
  plan : GraphPattern ω → Result Plan
  run : List (StoredQuad ox) → DatasetSpec → Plan → Result (List Bindings)

/-! ## Documents -/

structure OxTriple where
  subject : NamedOrBlankNode
  predicate : String
  object : ObjectTerm
deriving DecidableEq, Repr

structure OxQuad where
  triple : OxTriple
  graph_name : GraphId
deriving DecidableEq, Repr

/-- The files by their paths, the text of bytes that are no UTF-8, and the parsers: each gives all
rows of a document, or an error. -/
structure Documents where
  replaced : List UInt8 → String
  read : String → Except String (List UInt8)
  nt : List UInt8 → Except String (List OxTriple)
  nq : List UInt8 → Except String (List OxQuad)
  trig : String → List UInt8 → Except String (List OxQuad)
  turtle : String → List UInt8 → Except String (List OxTriple)

def oxrdf_subject_to_term (tag : UInt64) : NamedOrBlankNode → Term
  | .NamedNode n => .Iri n
  | .BlankNode b => .BlankNode (scope_blank_node_label tag b)

def oxrdf_term_to_term (tag : UInt64) : ObjectTerm → Term
  | .NamedNode n => .Iri n
  | .BlankNode b => .BlankNode (scope_blank_node_label tag b)
  | .Literal l => .Literal l
  | .Triple tr => .Literal tr

/-- A graph that a blank node names gets the label of that node as its name. -/
def oxrdf_graph_to_name (tag : UInt64) : GraphId → GraphName
  | .DefaultGraph => none
  | .NamedNode n => some n
  | .BlankNode b => some (scope_blank_node_label tag b)

def triple_in (tag : UInt64) (g : GraphName) (t : OxTriple) : AlgebraQuad :=
  ⟨g, oxrdf_subject_to_term tag t.subject, .Iri t.predicate, oxrdf_term_to_term tag t.object⟩

def quad_in (tag : UInt64) (q : OxQuad) : AlgebraQuad :=
  triple_in tag (oxrdf_graph_to_name tag q.graph_name) q.triple

def parse_rdf_bytes (docs : Documents) (tag : UInt64) (bytes : List UInt8) (extension : String)
    (base : String) : Result (List AlgebraQuad) :=
  let rows : Except String (List AlgebraQuad) :=
    if extension = "nt" then (docs.nt bytes).map (·.map (triple_in tag none))
    else if extension = "nq" then (docs.nq bytes).map (·.map (quad_in tag))
    else if extension = "trig" then (docs.trig base bytes).map (·.map (quad_in tag))
    else (docs.turtle base bytes).map (·.map (triple_in tag none))
  rows.mapError fun e => .Executor ("parsing " ++ base ++ ": " ++ e)

def ascii_lower (c : Char) : Char := if 'A' ≤ c ∧ c ≤ 'Z' then Char.ofNat (c.toNat + 32) else c

/-- What follows the last dot, in lower case. -/
def source_extension (source : String) : String :=
  String.ofList ((source.toList.reverse.takeWhile (· ≠ '.')).reverse.map ascii_lower)

def is_dataset_format (source : String) : Bool :=
  source_extension source == "nq" || source_extension source == "trig"

/-- What follows a prefix. -/
def strip_chars (start : String) (source : List Char) : Option (List Char) :=
  if start.toList.isPrefixOf source then some (source.drop start.length) else none

/-- The path of a local file IRI, still encoded. -/
def file_iri_to_path (source : String) : Result String :=
  match strip_chars "file://" source.toList with
  | some rest =>
    let authority := rest.takeWhile (· ≠ '/')
    if authority = [] ∨ authority.map ascii_lower = "localhost".toList then
      .ok (String.ofList (rest.dropWhile (· ≠ '/')))
    else
      .error (.UnsupportedAlgebra
        ("LOAD of a non-local file authority (Stage-1 fetches local files only): " ++ source))
  | none =>
    match strip_chars "file:" source.toList with
    | some path => .ok (String.ofList path)
    | none =>
      .error (.UnsupportedAlgebra
        ("LOAD of a non-file source (Stage-1 fetches file: IRIs only): " ++ source))

def hex_digit (c : Char) : Option Nat :=
  if '0' ≤ c ∧ c ≤ '9' then some (c.toNat - 48)
  else if 'a' ≤ c ∧ c ≤ 'f' then some (c.toNat - 87)
  else if 'A' ≤ c ∧ c ≤ 'F' then some (c.toNat - 55)
  else none

/-- Decode the escapes; a malformed one stays. -/
def percent_decode : List UInt8 → List UInt8
  | 37 :: hi :: lo :: rest =>
    match hex_digit (Char.ofNat hi.toNat), hex_digit (Char.ofNat lo.toNat) with
    | some h, some l => UInt8.ofNat (h * 16 + l) :: percent_decode rest
    | _, _ => 37 :: percent_decode (hi :: lo :: rest)
  | b :: rest => b :: percent_decode rest
  | [] => []

/-- The text of the bytes, with replacements where they are no UTF-8. -/
def from_utf8_lossy (docs : Documents) (bytes : List UInt8) : String :=
  (String.fromUTF8? ⟨bytes.toArray⟩).getD (docs.replaced bytes)

def fetch_and_parse (docs : Documents) (tag : UInt64) (source : String) :
    Result (List AlgebraQuad) := do
  let path := from_utf8_lossy docs
    (percent_decode (horndb.storage.as_bytes (← file_iri_to_path source)))
  let bytes ← (docs.read path).mapError fun e =>
    SparqlError.Executor ("LOAD reading " ++ path ++ ": " ++ e)
  parse_rdf_bytes docs tag bytes (source_extension path) source

end horndb.sparql
