-- SPARQL Update: what a request checks before it writes, its operations in request order against
-- the live store, the journal that undoes them, and the feed slot that follows them.
import HornDb.FeedSlot
import HornDb.UpdateRequest

open horndb.storage.loader (scope_blank_node_label)

namespace horndb.sparql

variable {ox : text.Library} {ω : Type}

/-- What a request runs with. -/
structure Env (ox : text.Library) (ω : Type) where
  fails : Faults
  query : QueryPath ox ω
  docs : Documents
  now : String

/-! ## Errors -/

def triple_term_unsupported : SparqlError :=
  .UnsupportedAlgebra "RDF 1.2 triple term in update (SPARQL 1.1 mode)"

def reserved_graph_write_error (iri : String) : SparqlError :=
  .Executor ("write to reserved graph <" ++ iri ++ "> is not permitted: the " ++
    RESERVED_GRAPH_PREFIX ++
    " namespace is closed to writes (SPEC-28 S4). Reads are allowed.")

def create_graph_exists_error (iri : String) : SparqlError :=
  .Executor ("CREATE GRAPH <" ++ iri ++
    ">: graph already exists (use SILENT to make it a no-op)")

def missing_graph_error (verb iri : String) : SparqlError :=
  .Executor (verb ++ " GRAPH <" ++ iri ++
    ">: graph does not exist (use SILENT to make it a no-op)")

def amc_source_missing_error (iri : String) : SparqlError :=
  .Executor ("source graph <" ++ iri ++ "> does not exist (use SILENT to make it a no-op)")

def amc_source_unresolvable_error : SparqlError :=
  .Executor ("ADD/MOVE/COPY source graph uses an IRI escape (\\uXXXX or a PN_LOCAL_ESC backslash) " ++
    "that the SILENT-recovery scan cannot resolve; a non-silent op fails closed here to avoid " ++
    "writing the wrong graph (use SILENT to make it a no-op)")

def load_dataset_into_graph_error (source dest : String) : SparqlError :=
  .UnsupportedAlgebra ("LOAD of a dataset format <" ++ source ++ "> INTO GRAPH <" ++ dest ++
    "> is not defined: a quad source already carries its own graph names, so redirecting them " ++
    "into one graph has no meaning (W3C LOAD is a graph operation).")

/-! ## Lowering terms -/

def subject_to_term : NamedOrBlankNode → Term
  | .NamedNode n => .Iri n
  | .BlankNode b => .BlankNode b

def object_to_term : ObjectTerm → Result Term
  | .NamedNode n => .ok (.Iri n)
  | .BlankNode b => .ok (.BlankNode b)
  | .Literal l => .ok (.Literal l)
  | .Triple _ => .error triple_term_unsupported

def ground_term_to_term : GroundTerm → Result Term
  | .NamedNode n => .ok (.Iri n)
  | .Literal l => .ok (.Literal l)
  | .Triple _ => .error triple_term_unsupported

def data_quad (q : DataQuad) : Result AlgebraQuad := do
  let o ← object_to_term q.object
  .ok ⟨q.graph_name, subject_to_term q.subject, .Iri q.predicate, o⟩

def ground_quad (q : GroundQuad) : Result AlgebraQuad := do
  let o ← ground_term_to_term q.object
  .ok ⟨q.graph_name, .Iri q.subject, .Iri q.predicate, o⟩

/-- A blank node of a template is new for the operation and for the solution. -/
def resolve_term (row : Bindings) (scope : UInt64) (row_ix : Nat) : TermPattern → Option Term
  | .NamedNode n => some (.Iri n)
  | .Literal l => some (.Literal l)
  | .BlankNode b => some (.BlankNode (scope_blank_node_label scope (b ++ "_r" ++ toString row_ix)))
  | .Variable v => row v
  | .Triple _ => none

def resolve_ground (row : Bindings) : GroundTermPattern → Option Term
  | .NamedNode n => some (.Iri n)
  | .Literal l => some (.Literal l)
  | .Variable v => row v
  | .Triple _ => none

def resolve_pred (row : Bindings) : NamedNodePattern → Option Term
  | .NamedNode n => some (.Iri n)
  | .Variable v =>
    match row v with
    | some (.Iri s) => some (.Iri s)
    | _ => none

def subject_or_skip : Term → Option Term
  | .Iri s => some (.Iri s)
  | .BlankNode b => some (.BlankNode b)
  | _ => none

/-! ## Reserved graphs -/

def reserved_iri_write_check (iri : String) : Result Unit :=
  if is_reserved_graph iri then .error (reserved_graph_write_error iri) else .ok ()

def reserved_write_check : GraphName → Result Unit
  | some iri => reserved_iri_write_check iri
  | none => .ok ()

def reserved_template_check : GraphNamePattern → Result Unit
  | .NamedNode iri => reserved_iri_write_check iri
  | _ => .ok ()

/-- The graph of a template quad, none where the solution gives it no legal one. -/
def resolve_graph_name (row : Bindings) : GraphNamePattern → Result (Option GraphName)
  | .DefaultGraph => .ok (some none)
  | .NamedNode iri => do
    reserved_iri_write_check iri
    .ok (some (some iri))
  | .Variable v =>
    match row v with
    | some (.Iri iri) => do
      reserved_iri_write_check iri
      .ok (some (some iri))
    | _ => .ok none

/-! ## The journal -/

/-- For every quad that was touched, whether it was visible when it was touched first. -/
structure Journal where
  enabled : Bool
  before : List (AlgebraQuad × Bool)

namespace Journal

def new (enabled : Bool) : Journal := ⟨enabled, []⟩

/-- A quad keeps its first reading. -/
def note (before : List (AlgebraQuad × Bool)) (q : AlgebraQuad) (live : Bool) :
    List (AlgebraQuad × Bool) :=
  if before.any (·.1 == q) then before else before ++ [(q, live)]

def record (j : Journal) (quads : List (StoredQuad ox)) (qs : List AlgebraQuad) : Journal :=
  if j.enabled then
    { j with before := qs.foldl (fun before q => note before q (quad_exists quads q)) j.before }
  else j

def target_of : GraphName → GraphTarget
  | none => .DefaultGraph
  | some iri => .NamedNode iri

def record_cleared (fails : Faults) (j : Journal) (st : Store ox) (graph : GraphName) :
    Result Journal × Store ox :=
  if !j.enabled then (.ok j, st)
  else
    match st.scan_graph_quads fails (target_of graph) with
    | (.error e, st) => (.error e, st)
    | (.ok triples, st) =>
      (.ok { j with
        before := triples.foldl (fun before t => note before ⟨graph, t.1, t.2.1, t.2.2⟩ true)
          j.before }, st)

def dels (j : Journal) : List AlgebraQuad := (j.before.filter fun e => !e.2).map (·.1)

def adds (j : Journal) : List AlgebraQuad := (j.before.filter fun e => e.2).map (·.1)

/-- Restore every recorded quad in one batch, whatever comes of it. -/
def rollback (fails : Faults) (j : Journal) (st : Store ox) : Store ox :=
  if j.before.isEmpty then st else (st.apply_quads fails j.dels j.adds).2

end Journal

/-- The store and the journal of a request that runs. -/
structure Session (ox : text.Library) where
  store : Store ox
  journal : Journal

/-- Record the quads of a batch and apply it. -/
def Session.write (fails : Faults) (s : Session ox) (touched dels adds : List AlgebraQuad) :
    Result Unit × Session ox :=
  let journal := s.journal.record s.store.quads touched
  let (res, store) := s.store.apply_quads fails dels adds
  (res, ⟨store, journal⟩)

/-! ## CLEAR and DROP -/

/-- Record what a graph holds and clear it. -/
def Session.sweep (fails : Faults) (s : Session ox) (graph : GraphName) :
    Result Unit × Session ox :=
  match s.journal.record_cleared fails s.store graph with
  | (.error e, store) => (.error e, { s with store := store })
  | (.ok journal, store) =>
    let (res, store) := store.clear_graph fails (Journal.target_of graph)
    (res, ⟨store, journal⟩)

def Session.sweep_all (fails : Faults) : List GraphName → Session ox → Result Unit × Session ox
  | [], s => (.ok (), s)
  | g :: gs, s =>
    match s.sweep fails g with
    | (.error e, s) => (.error e, s)
    | (.ok (), s) => sweep_all fails gs s

/-- The named graphs that a sweep takes. -/
def swept_graphs (quads : List (StoredQuad ox)) : List GraphName :=
  ((graphs quads).filter fun g => !is_reserved_graph g).map some

def clear_named_graphs (fails : Faults) (s : Session ox) : Result Unit × Session ox :=
  s.sweep_all fails (swept_graphs s.store.quads)

def apply_clear_drop (fails : Faults) (verb : String) (silent : Bool) (graph : GraphTarget)
    (s : Session ox) : Result Unit × Session ox :=
  match graph with
  | .DefaultGraph => s.sweep fails none
  | .AllGraphs =>
    match s.sweep fails none with
    | (.error e, s) => (.error e, s)
    | (.ok (), s) => clear_named_graphs fails s
  | .NamedGraphs => clear_named_graphs fails s
  | .NamedNode iri =>
    match reserved_iri_write_check iri with
    | .error e => (.error e, s)
    | .ok () =>
      if graph_exists s.store.quads iri then s.sweep fails (some iri)
      else if !silent then (.error (missing_graph_error verb iri), s)
      else (.ok (), s)

def validate_clear_drop (verb : String) (silent : Bool) (graph : GraphTarget)
    (quads : List (StoredQuad ox)) (check_existence : Bool) : Result Unit :=
  match graph with
  | .NamedNode iri => do
    reserved_iri_write_check iri
    if check_existence && !graph_exists quads iri && !silent then
      .error (missing_graph_error verb iri)
    else .ok ()
  | _ => .ok ()

/-! ## CREATE -/

def apply_create (quads : List (StoredQuad ox)) (silent : Bool) (iri : String) : Result Unit := do
  reserved_iri_write_check iri
  if graph_exists quads iri && !silent then .error (create_graph_exists_error iri) else .ok ()

/-! ## Pattern updates -/

def ground_quad_has_triple_term (q : GroundQuadPattern) : Bool :=
  match q.subject, q.object with
  | .Triple _, _ => true
  | _, .Triple _ => true
  | _, _ => false

def quad_has_triple_term (q : QuadPattern) : Bool :=
  match q.subject, q.object with
  | .Triple _, _ => true
  | _, .Triple _ => true
  | _, _ => false

def check_all {α : Type} (f : α → Result Unit) : List α → Result Unit
  | [] => .ok ()
  | a :: as => do
    f a
    check_all f as

/-- The rejections that need no store, and the plan of the WHERE clause. -/
def validate_delete_insert (query : QueryPath ox ω) (delete : List GroundQuadPattern)
    (insert : List QuadPattern) (pattern : GraphPattern ω) : Result query.Plan := do
  check_all (fun q => reserved_template_check q.graph_name) delete
  check_all (fun q => reserved_template_check q.graph_name) insert
  if delete.any ground_quad_has_triple_term then .error triple_term_unsupported
  if insert.any quad_has_triple_term then .error triple_term_unsupported
  query.plan pattern

/-- The dataset of a WHERE clause. WITH, which names no graph set, leaves all graphs named. -/
def where_dataset (dataset : Option QueryDataset) : DatasetSpec :=
  let spec := dataset_spec_from dataset
  if dataset.any fun u => u.named.isNone then { spec with named := none } else spec

def quad_of (g : Option GraphName) (s p o : Option Term) : Option AlgebraQuad :=
  match g, s, p, o with
  | some g, some s, some p, some o => some ⟨g, s, p, o⟩
  | _, _, _, _ => none

def delete_instance (row : Bindings) (q : GroundQuadPattern) : Result (Option AlgebraQuad) := do
  let g ← resolve_graph_name row q.graph_name
  .ok (quad_of g ((resolve_ground row q.subject).bind subject_or_skip)
    (resolve_pred row q.predicate) (resolve_ground row q.object))

def insert_instance (scope : UInt64) (row_ix : Nat) (row : Bindings) (q : QuadPattern) :
    Result (Option AlgebraQuad) := do
  let g ← resolve_graph_name row q.graph_name
  .ok (quad_of g ((resolve_term row scope row_ix q.subject).bind subject_or_skip)
    (resolve_pred row q.predicate) (resolve_term row scope row_ix q.object))

/-- The quads that the instances give, unless one is an error. -/
def collect {α : Type} : List (Result (Option α)) → Result (List α)
  | [] => .ok []
  | r :: rs => do
    let a ← r
    let as ← collect rs
    .ok (a.toList ++ as)

def delete_quads (rows : List Bindings) (delete : List GroundQuadPattern) :
    Result (List AlgebraQuad) :=
  collect (rows.flatMap fun row => delete.map (delete_instance row))

def insert_quads (scope : UInt64) (rows : List Bindings) (insert : List QuadPattern) :
    Result (List AlgebraQuad) :=
  collect (rows.zipIdx.flatMap fun e => insert.map (insert_instance scope e.2 e.1))

def apply_delete_insert (env : Env ox ω) (delete : List GroundQuadPattern)
    (insert : List QuadPattern) (dataset : Option QueryDataset) (pattern : GraphPattern ω)
    (s : Session ox) : Result Unit × Session ox :=
  let solved : Result (List Bindings × List AlgebraQuad) := do
    let plan ← validate_delete_insert env.query delete insert pattern
    let rows ← env.query.run s.store.quads (where_dataset dataset) plan
    let dels ← delete_quads rows delete
    .ok (rows, dels)
  match solved with
  | .error e => (.error e, s)
  | .ok (rows, dels) =>
    let (scope, store) := s.store.next_bnode_doc_tag
    let s := { s with store := store }
    match insert_quads scope rows insert with
    | .error e => (.error e, s)
    | .ok adds => s.write env.fails (dels ++ adds) dels adds

/-! ## LOAD -/

/-- The quads of a document in the graph that a LOAD names. -/
def route (destination : GraphName) (quads : List AlgebraQuad) : List AlgebraQuad :=
  match destination with
  | none => quads
  | some g => quads.map fun q => { q with g := some g }

def validate_load (env : Env ox ω) (silent : Bool) (source : String) (destination : GraphName)
    (st : Store ox) : Result Unit × Store ox :=
  match reserved_write_check destination with
  | .error e => (.error e, st)
  | .ok () =>
    if silent then (.ok (), st)
    else
      match destination, is_dataset_format source with
      | some dest, true => (.error (load_dataset_into_graph_error source dest), st)
      | _, _ =>
        let (tag, st) := st.next_bnode_doc_tag
        ((fetch_and_parse env.docs tag source).map fun _ => (), st)

def apply_load (env : Env ox ω) (silent : Bool) (source : String) (destination : GraphName)
    (s : Session ox) : Result Unit × Session ox :=
  match reserved_write_check destination with
  | .error e => (.error e, s)
  | .ok () =>
    match destination, is_dataset_format source with
    | some dest, true =>
      (if silent then .ok () else .error (load_dataset_into_graph_error source dest), s)
    | _, _ =>
      let (tag, store) := s.store.next_bnode_doc_tag
      let s := { s with store := store }
      match fetch_and_parse env.docs tag source with
      | .error e => (if silent then .ok () else .error e, s)
      | .ok quads =>
        let adds := route destination quads
        s.write env.fails adds [] adds

/-! ## One operation -/

def apply_op (env : Env ox ω) (op : GraphUpdateOperation ω) (s : Session ox) :
    Result Unit × Session ox :=
  match op with
  | .InsertData data =>
    match data.mapM data_quad with
    | .error e => (.error e, s)
    | .ok adds => s.write env.fails adds [] adds
  | .DeleteData data =>
    match data.mapM ground_quad with
    | .error e => (.error e, s)
    | .ok dels => s.write env.fails dels dels []
  | .DeleteInsert delete insert dataset pattern =>
    apply_delete_insert env delete insert dataset pattern s
  | .Clear silent graph => apply_clear_drop env.fails "CLEAR" silent graph s
  | .Drop silent graph => apply_clear_drop env.fails "DROP" silent graph s
  | .Create silent graph => (apply_create s.store.quads silent graph, s)
  | .Load silent source destination => apply_load env silent source destination s

/-- The error that an operation would meet, as far as the store before the request tells. -/
def validate_op (env : Env ox ω) (op : GraphUpdateOperation ω) (check_existence : Bool)
    (st : Store ox) : Result Unit × Store ox :=
  match op with
  | .InsertData data =>
    (check_all (fun q : DataQuad => do
      reserved_write_check q.graph_name
      let _ ← object_to_term q.object) data, st)
  | .DeleteData data =>
    (check_all (fun q : GroundQuad => do
      reserved_write_check q.graph_name
      let _ ← ground_term_to_term q.object) data, st)
  | .DeleteInsert delete insert _ pattern =>
    ((validate_delete_insert env.query delete insert pattern).map fun _ => (), st)
  | .Clear silent graph => (validate_clear_drop "CLEAR" silent graph st.quads check_existence, st)
  | .Drop silent graph => (validate_clear_drop "DROP" silent graph st.quads check_existence, st)
  | .Create silent graph =>
    (do
      reserved_iri_write_check graph
      if check_existence && graph_exists st.quads graph && !silent then
        .error (create_graph_exists_error graph)
      else .ok (), st)
  | .Load silent source destination => validate_load env silent source destination st

/-! ## A request -/

def amc_source_check (quads : List (StoredQuad ox)) (h : AmcHint) : Result Unit :=
  if h.silent || h.is_identity then .ok ()
  else
    match h.source with
    | .Named g => if graph_exists quads g then .ok () else .error (amc_source_missing_error g)
    | .Unknown => .error amc_source_unresolvable_error
    | .Default => .ok ()

def preflight_hint (quads : List (StoredQuad ox)) (h : AmcHint) : Result Unit :=
  if !h.silent && !h.is_identity && h.source == .Unknown then .error amc_source_unresolvable_error
  else if h.op_index = 0 then amc_source_check quads h
  else .ok ()

def validate_ops (env : Env ox ω) (i : Nat) : List (GraphUpdateOperation ω) → Store ox →
    Result Unit × Store ox
  | [], st => (.ok (), st)
  | op :: ops, st =>
    match validate_op env op (i == 0) st with
    | (.error e, st) => (.error e, st)
    | (.ok (), st) => validate_ops env (i + 1) ops st

/-- The operations in order, each behind the source checks that wait for it. -/
def run_ops (env : Env ox ω) (hints : List AmcHint) (i : Nat) :
    List (GraphUpdateOperation ω) → Session ox → Result Unit × Session ox
  | [], s => (.ok (), s)
  | op :: ops, s =>
    match check_all (amc_source_check s.store.quads)
        (hints.filter fun h => h.op_index == i && i > 0) with
    | .error e => (.error e, s)
    | .ok () =>
      match apply_op env op s with
      | (.error e, s) => (.error e, s)
      | (.ok (), s) => run_ops env hints (i + 1) ops s

/-- What is checked before the first write. -/
def preflight [DecidableEq ω] (env : Env ox ω) (u : ParsedUpdate ω) (feed : Option FeedPosition)
    (st : Store ox) : Result Unit × Store ox :=
  let checked : Result Unit × Store ox :=
    match feed with
    | some fp => check_feed_id env.fails st fp
    | none => (.ok (), st)
  match checked with
  | (.error e, st) => (.error e, st)
  | (.ok (), st) =>
    match check_all (preflight_hint st.quads) (locate_amc_hints u.amc_hints u.operations) with
    | .error e => (.error e, st)
    | .ok () => validate_ops env 0 u.operations st

/-- The operations of a request on a store, with the journal they leave. -/
def run_request [DecidableEq ω] (env : Env ox ω) (u : ParsedUpdate ω) (st : Store ox) :
    Result Unit × Session ox :=
  run_ops env (locate_amc_hints u.amc_hints u.operations) 0 u.operations
    ⟨st, .new (decide (u.operations.length > 1))⟩

def apply_update_with_feed [DecidableEq ω] (env : Env ox ω) (u : ParsedUpdate ω)
    (feed : Option FeedPosition) (st : Store ox) : Result Unit × Store ox :=
  match preflight env u feed st with
  | (.error e, st) => (.error e, st)
  | (.ok (), st) =>
    match run_request env u st with
    | (.error e, s) => (.error e, s.journal.rollback env.fails s.store)
    | (.ok (), s) =>
      match feed with
      | some fp => advance_slot env.fails env.now s.store fp
      | none => (.ok (), s.store)

def apply_update [DecidableEq ω] (env : Env ox ω) (u : ParsedUpdate ω) (st : Store ox) :
    Result Unit × Store ox :=
  apply_update_with_feed env u none st

/-- What a request without files and without WHERE clauses may run with. -/
def bare_env : Env text.ascii Unit where
  fails _ := false
  query := ⟨Unit, fun _ => .error (.UnsupportedAlgebra "pattern"), fun _ _ _ => .ok []⟩
  docs := {
    replaced := fun _ => "?"
    read := fun _ => .error "no such file"
    nt := fun _ => .error "expected a dot"
    nq := fun _ => .error "expected a dot"
    trig := fun _ _ => .error "expected a dot"
    turtle := fun _ _ => .error "expected a dot" }
  now := "2026-01-01T00:00:00Z"

end horndb.sparql
