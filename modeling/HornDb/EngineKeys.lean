-- The dictionary of the reasoner over its runs, and the graphs that its derivations are written
-- to: every key in it is the key of a term, and the term that is stored for a key has that key.
import HornDb.LexicalTerms
import HornDb.QuadStore

open HornDb.Lib.NTriples

namespace horndb.sparql.lexical

open text (Library XSD_STRING tag_char parse_literal print_quoted_str trim_brackets)

variable {ox : Library}

/-! ## The dictionary of the reasoner -/

abbrev LexTriple := List Char × List Char × List Char

/-- One load: the keys with their ids, and the triples of the store. -/
structure LoadState where
  dict : List (List Char × Nat)
  next_id : Nat
  store : List (Nat × Nat × Nat)

def intern_key (state : LoadState) (key : List Char) : LoadState × Nat :=
  match state.dict.lookup key with
  | some t => (state, t)
  | none =>
    ({ state with dict := state.dict ++ [(key, state.next_id)], next_id := state.next_id + 1 },
      state.next_id)

def intern_named (state : LoadState) (iri : List Char) : LoadState × Nat := intern_key state iri

def intern_blank (state : LoadState) (id : List Char) : LoadState × Nat :=
  intern_key state ('_' :: ':' :: id)

def literal_key (value datatype : List Char) : Option (List Char) → List Char
  | some lang => quoted value ++ '@' :: lang
  | none => quoted value ++ '^' :: '^' :: '<' :: (datatype ++ ['>'])

def intern_literal (state : LoadState) (value datatype : List Char)
    (language : Option (List Char)) : LoadState × Nat :=
  intern_key state (literal_key value datatype language)

/-- A triple term stops the load. -/
def intern_term (state : LoadState) : OxTerm → Option (LoadState × Nat)
  | .NamedNode iri => some (intern_named state iri)
  | .BlankNode id => some (intern_blank state id)
  | .Literal l => some (intern_literal state l.value l.datatype l.language)
  | .Triple _ _ _ => none

inductive Subject where
  | NamedNode (iri : List Char) (checked : Absolute iri)
  | BlankNode (id : List Char)

/-- The object is a checked term or a triple term. -/
structure Quad (ox : Library) where
  subject : Subject
  predicate : List Char
  predicate_checked : Absolute predicate
  object : OxTerm
  object_checked : object.Checked ox ∨ intern_term ⟨[], 0, []⟩ object = none

def intern_subject (state : LoadState) : Subject → LoadState × Nat
  | .NamedNode iri _ => intern_named state iri
  | .BlankNode id => intern_blank state id

def encode_quad (state : LoadState) (quad : Quad ox) : Option LoadState := do
  let (state, s) := intern_subject state quad.subject
  let (state, p) := intern_named state quad.predicate
  let (state, o) ← intern_term state quad.object
  pure { state with store := state.store ++ [(s, p, o)] }

def intern_lexical_triple (state : LoadState) (t : LexTriple) : LoadState :=
  let (state, s) := intern_key state t.1
  let (state, p) := intern_key state t.2.1
  let (state, o) := intern_key state t.2.2
  { state with store := state.store ++ [(s, p, o)] }

/-! ## Runs of the reasoner -/

def RDF : List Char := "http://www.w3.org/1999/02/22-rdf-syntax-ns#".toList
def RDFS : List Char := "http://www.w3.org/2000/01/rdf-schema#".toList
def OWL : List Char := "http://www.w3.org/2002/07/owl#".toList
def SKOS : List Char := "http://www.w3.org/2004/02/skos/core#".toList
def SEMAPV : List Char := "https://w3id.org/semapv/vocab/".toList
def SSSOM : List Char := "https://w3id.org/sssom/".toList
def HORNDB : List Char := "https://w3id.org/horndb/internal#".toList
def XSD : List Char := "http://www.w3.org/2001/XMLSchema#".toList

def names (space : List Char) (locals : List String) : List (List Char) :=
  locals.map fun name => space ++ name.toList

/-- The vocabulary, in the order of its ids. -/
def vocabulary : List (List Char) :=
  names RDF ["type", "first", "rest", "nil"] ++
  names RDFS ["subClassOf", "subPropertyOf", "domain", "range"] ++
  names OWL ["Class", "Thing", "Nothing", "sameAs", "differentFrom", "equivalentClass",
    "equivalentProperty", "inverseOf", "FunctionalProperty", "InverseFunctionalProperty",
    "SymmetricProperty", "TransitiveProperty", "IrreflexiveProperty", "ReflexiveProperty",
    "AsymmetricProperty", "propertyDisjointWith", "disjointWith", "complementOf",
    "intersectionOf", "unionOf", "someValuesFrom", "allValuesFrom", "hasValue", "onProperty",
    "maxCardinality", "maxQualifiedCardinality", "onClass", "sourceIndividual",
    "assertionProperty", "targetIndividual", "targetValue", "ObjectProperty",
    "propertyChainAxiom", "hasKey", "AllDisjointClasses", "AllDisjointProperties",
    "AllDifferent", "members", "distinctMembers", "NamedIndividual"] ++
  names SKOS ["exactMatch", "closeMatch", "broadMatch", "narrowMatch", "relatedMatch"] ++
  names SEMAPV ["crossSpeciesExactMatch", "crossSpeciesNarrowMatch", "crossSpeciesBroadMatch",
    "MappingChaining", "MappingInversion"] ++
  names SSSOM ["Mapping", "subject_id", "predicate_id", "object_id", "mapping_justification",
    "confidence", "predicate_modifier", "derived_from"] ++
  names HORNDB ["notExactMatch"]

def USER_TERMS_BASE : Nat := 68

/-- The dictionary that a load starts with. -/
def base_dict : List (List Char × Nat) := vocabulary.zip (List.range' 1 67)

/-- A datatype that the rules name. -/
inductive DatatypeName where
  | datatype
  | xsd (name : List Char) (checked : ∀ c ∈ name, iri_char c = true)

def DatatypeName.iri : DatatypeName → List Char
  | datatype => RDFS ++ "Datatype".toList
  | xsd name _ => XSD ++ name

/-- The rules: the datatypes that they name, and the triples that they leave. -/
structure Rules where
  named : LoadState → List DatatypeName
  close : LoadState → List (Nat × Nat × Nat)

def finish (rules : Rules) (state : LoadState) : LoadState :=
  let state' := (rules.named state).foldl (fun state d => (intern_key state d.iri).1) state
  { state' with store := rules.close state' }

/-- The state of an engine, once something is loaded. -/
abbrev Engine := Option LoadState

def fresh : LoadState := ⟨base_dict, USER_TERMS_BASE, []⟩

/-- A load that stops leaves the engine as it was. -/
def load (rules : Rules) (engine : Engine) (quads : List (Quad ox)) : Engine :=
  match quads.foldlM encode_quad fresh with
  | some state => some (finish rules state)
  | none => engine

def load_base (rules : Rules) (triples : List LexTriple) : Engine :=
  some (finish rules (triples.foldl intern_lexical_triple fresh))

def extend (rules : Rules) (engine : Engine) (triples : List LexTriple) : Engine :=
  engine.map fun state => finish rules (triples.foldl intern_lexical_triple state)

def rev (state : LoadState) (id : Nat) : Option (List Char) :=
  (state.dict.find? fun e => e.2 == id).map (·.1)

/-- The triples of the store, each by its keys. -/
def materialized_triples (engine : Engine) : List LexTriple :=
  match engine with
  | none => []
  | some state => state.store.filterMap fun t => do
    let s ← rev state t.1
    let p ← rev state t.2.1
    let o ← rev state t.2.2
    pure (s, p, o)

/-! ## Graphs -/

abbrev Row := OxTerm × OxTerm × OxTerm

def row_key (row : Row) : Option LexTriple := do
  let s ← oxrdf_to_lexical row.1
  let p ← oxrdf_to_lexical row.2.1
  let o ← oxrdf_to_lexical row.2.2
  pure (s, p, o)

/-- The rows of a graph by their keys. Rows with a triple term are left out. -/
def scan_graph_lexical (rows : List Row) : List LexTriple := rows.filterMap row_key

/-- The literal as the library prints it. -/
def OxLiteral.to_string (ox : Library) (l : OxLiteral) : List Char :=
  print_quoted_str ox l.value ++
    match l with
    | .Simple _ => []
    | .LanguageTagged _ language => '@' :: language
    | .DirectionalLanguageTagged _ language .Ltr => '@' :: (language ++ ['-', '-', 'l', 't', 'r'])
    | .DirectionalLanguageTagged _ language .Rtl => '@' :: (language ++ ['-', '-', 'r', 't', 'l'])
    | .Typed _ datatype => '^' :: '^' :: '<' :: (datatype ++ ['>'])

def OxTerm.to_string (ox : Library) : OxTerm → List Char
  | .NamedNode iri => '<' :: (iri ++ ['>'])
  | .BlankNode label => '_' :: ':' :: label
  | .Literal l => l.to_string ox
  | .Triple s p o =>
    ['<', '<', '(', ' '] ++ s.to_string ox ++ ' ' :: p.to_string ox ++ ' ' :: o.to_string ox ++
      [' ', ')', '>', '>']

def oxrdf_to_algebra (ox : Library) : OxTerm → Term
  | .NamedNode n => .Iri (String.ofList n)
  | .BlankNode b => .BlankNode (String.ofList b)
  | .Literal l => .Literal (String.ofList (l.to_string ox))
  | t => .Iri (String.ofList (t.to_string ox))

/-- A literal that was read from its text. -/
def OxLiteral.read : text.Literal ox → OxLiteral
  | .Simple value => .Simple value
  | .LanguageTagged value language => .LanguageTagged value language.as_str
  | .Typed value datatype => .Typed value datatype.as_str

def algebra_to_oxrdf (ox : Library) : Term → Option OxTerm
  | .Iri s => some (.NamedNode s.toList)
  | .BlankNode s => some (.BlankNode s.toList)
  | .Literal raw => some (.Literal (.read (parse_literal raw.toList : text.Literal ox)))
  | _ => none

/-- The row that is written for a triple of keys. -/
def quad (ox : Library) (t : LexTriple) : Option Row := do
  let s ← algebra_to_oxrdf ox (oxrdf_to_algebra ox (lexical_to_oxrdf ox t.1))
  let p ← algebra_to_oxrdf ox (oxrdf_to_algebra ox (lexical_to_oxrdf ox t.2.1))
  let o ← algebra_to_oxrdf ox (oxrdf_to_algebra ox (lexical_to_oxrdf ox t.2.2))
  pure (s, p, o)

/-- Deletes come before inserts. -/
def apply_quads (rows dels adds : List Row) : List Row :=
  adds.foldl (fun rows row => rows.insert row) (rows.filter fun row => row ∉ dels)

/-- Make the graph hold exactly what is wanted. -/
def write_graph (ox : Library) (rows : List Row) (want : List LexTriple) : Option (List Row) :=
  let current := scan_graph_lexical rows
  if current ⊆ want ∧ want ⊆ current then some rows
  else do
    let dels ← (current.filter fun t => t ∉ want).mapM (quad ox)
    let adds ← (want.filter fun t => t ∉ current).mapM (quad ox)
    pure (apply_quads rows dels adds)

/-! ## Keys of the dictionary -/

/-- Every key of the dictionary is the key of a term. -/
def Known (ox : Library) (state : LoadState) : Prop := ∀ e ∈ state.dict, Meant ox e.1

theorem known_intern {state : LoadState} (h : Known ox state) {key : List Char}
    (hkey : Meant ox key) : Known ox (intern_key state key).1 := by
  unfold intern_key
  split
  · exact h
  · intro e he
    rw [List.mem_append, List.mem_singleton] at he
    rcases he with he | rfl
    · exact h e he
    · exact hkey

theorem known_store {state : LoadState} (h : Known ox state) (store : List (Nat × Nat × Nat)) :
    Known ox { state with store } := h

/-- The key that is interned for a literal is the one that the query layer writes. -/
theorem intern_term_eq (t : OxTerm) (state : LoadState) :
    intern_term state t = (oxrdf_to_lexical t).map (intern_key state) := by
  cases t with
  | Literal l => cases l <;> rfl
  | _ => rfl

theorem known_term {state state' : LoadState} (h : Known ox state) {t : OxTerm}
    (ht : t.Checked ox) {id : Nat} (hterm : intern_term state t = some (state', id)) :
    Known ox state' := by
  rw [intern_term_eq] at hterm
  obtain ⟨k, hk, hstate⟩ := Option.map_eq_some_iff.mp hterm
  have hfirst : (intern_key state k).1 = state' := congrArg Prod.fst hstate
  rw [← hfirst]
  exact known_intern h ⟨t, ht, hk⟩

theorem known_subject {state : LoadState} (h : Known ox state) (s : Subject) :
    Known ox (intern_subject state s).1 := by
  cases s with
  | NamedNode iri checked => exact known_intern h (Meant.iri checked)
  | BlankNode id => exact known_intern h ⟨.BlankNode id, trivial, rfl⟩

theorem known_quad {state state' : LoadState} (h : Known ox state) {q : Quad ox}
    (hq : encode_quad state q = some state') : Known ox state' := by
  obtain ⟨⟨state₁, o⟩, ho, hstate⟩ := Option.bind_eq_some_iff.mp hq
  cases hstate
  refine known_store ?_ _
  have hsubject := known_subject h q.subject
  have hpredicate := known_intern hsubject (Meant.iri q.predicate_checked)
  rcases q.object_checked with hchecked | hnone
  · exact known_term hpredicate hchecked ho
  · rw [intern_term_eq] at hnone ho
    rw [Option.map_eq_none_iff.mp hnone] at ho
    cases ho

theorem known_quads {quads : List (Quad ox)} {state state' : LoadState} (h : Known ox state)
    (hq : quads.foldlM encode_quad state = some state') : Known ox state' := by
  induction quads generalizing state with
  | nil =>
    cases hq
    exact h
  | cons q quads ih =>
    rw [List.foldlM_cons] at hq
    obtain ⟨state₁, hfirst, hrest⟩ := Option.bind_eq_some_iff.mp hq
    exact ih (known_quad h hfirst) hrest

/-- The three keys of a triple are keys of terms. -/
def MeantTriple (ox : Library) (t : LexTriple) : Prop :=
  Meant ox t.1 ∧ Meant ox t.2.1 ∧ Meant ox t.2.2

theorem known_lexical {triples : List LexTriple} {state : LoadState} (h : Known ox state)
    (ht : ∀ t ∈ triples, MeantTriple ox t) :
    Known ox (triples.foldl intern_lexical_triple state) := by
  induction triples generalizing state with
  | nil => exact h
  | cons t triples ih =>
    rw [List.forall_mem_cons] at ht
    obtain ⟨⟨hs, hp, ho⟩, hrest⟩ := ht
    exact ih (known_store (known_intern (known_intern (known_intern h hs) hp) ho) _) hrest

theorem absolute_append {space name : List Char} (hspace : Absolute space)
    (h : ∀ c ∈ name, iri_char c = true) : Absolute (space ++ name) := by
  refine ⟨?_, fun c hc => (List.mem_append.mp hc).elim (hspace.checked c) (h c)⟩
  cases space with
  | nil => exact absurd hspace.scheme (by decide)
  | cons c space => exact hspace.scheme

theorem absolute_of_all {iri : List Char}
    (h : (iri.head?.any Char.isAlpha && iri.all iri_char) = true) : Absolute iri := by
  rw [Bool.and_eq_true] at h
  exact ⟨h.1, List.all_eq_true.mp h.2⟩

theorem absolute_names {space : List Char} {locals : List String}
    (hspace : (space.head?.any Char.isAlpha && space.all iri_char) = true)
    (h : (locals.all fun name => name.toList.all iri_char) = true) :
    ∀ iri ∈ names space locals, Absolute iri := by
  intro iri hiri
  obtain ⟨name, hname, rfl⟩ := List.mem_map.mp hiri
  exact absolute_append (absolute_of_all hspace)
    (List.all_eq_true.mp (List.all_eq_true.mp h name hname))

theorem absolute_vocabulary : ∀ iri ∈ vocabulary, Absolute iri := by
  intro iri hiri
  simp only [vocabulary, List.mem_append] at hiri
  rcases hiri with (((((hiri | hiri) | hiri) | hiri) | hiri) | hiri) | hiri
  all_goals exact absolute_names (by decide) (by decide) iri hiri

theorem known_fresh : Known ox fresh := fun e he =>
  Meant.iri (absolute_vocabulary e.1 (List.of_mem_zip he).1)

theorem absolute_datatype (d : DatatypeName) : Absolute d.iri := by
  cases d with
  | datatype => exact absolute_of_all (by decide)
  | xsd name checked => exact absolute_append (absolute_of_all (by decide)) checked

theorem known_finish (rules : Rules) {state : LoadState} (h : Known ox state) :
    Known ox (finish rules state) := by
  unfold finish
  refine known_store ?_ _
  generalize rules.named state = named
  induction named generalizing state with
  | nil => exact h
  | cons d named ih => exact ih (known_intern h (Meant.iri (absolute_datatype d)))

/-! ## Runs -/

/-- A row of the store: checked terms and triple terms. -/
structure StoredRow (ox : Library) where
  row : Row
  subject_checked : row.1.Checked ox ∨ oxrdf_to_lexical row.1 = none
  predicate_checked : row.2.1.Checked ox ∨ oxrdf_to_lexical row.2.1 = none
  object_checked : row.2.2.Checked ox ∨ oxrdf_to_lexical row.2.2 = none

/-- What is done to an engine: a dataset is loaded, or the rows of a graph. A fork is a copy. -/
inductive Step (ox : Library) where
  | load (quads : List (Quad ox))
  | load_base (rows : List (StoredRow ox))
  | extend (rows : List (StoredRow ox))

def step (rules : Rules) (engine : Engine) : Step ox → Engine
  | .load quads => load rules engine quads
  | .load_base rows => load_base rules (scan_graph_lexical (rows.map (·.row)))
  | .extend rows => extend rules engine (scan_graph_lexical (rows.map (·.row)))

def run (rules : Rules) (steps : List (Step ox)) : Engine := steps.foldl (step rules) none

theorem meant_scan (rows : List (StoredRow ox)) :
    ∀ t ∈ scan_graph_lexical (rows.map (·.row)), MeantTriple ox t := by
  have hkey {t : OxTerm} {k : List Char} (hk : oxrdf_to_lexical t = some k)
      (h : t.Checked ox ∨ oxrdf_to_lexical t = none) : Meant ox k := by
    rcases h with h | h
    · exact ⟨t, h, hk⟩
    · rw [hk] at h
      cases h
  intro t ht
  obtain ⟨row, hrow, hkeys⟩ := List.mem_filterMap.mp ht
  obtain ⟨stored, -, rfl⟩ := List.mem_map.mp hrow
  obtain ⟨s, hs, hkeys⟩ := Option.bind_eq_some_iff.mp hkeys
  obtain ⟨p, hp, hkeys⟩ := Option.bind_eq_some_iff.mp hkeys
  obtain ⟨o, ho, hkeys⟩ := Option.bind_eq_some_iff.mp hkeys
  cases hkeys
  exact ⟨hkey hs stored.subject_checked, hkey hp stored.predicate_checked,
    hkey ho stored.object_checked⟩

/-- The engine holds keys of terms only. -/
def KnownEngine (ox : Library) (engine : Engine) : Prop := ∀ state, engine = some state → Known ox state

theorem known_step (rules : Rules) {engine : Engine} (h : KnownEngine ox engine) (s : Step ox) :
    KnownEngine ox (step rules engine s) := by
  intro state hstate
  cases s with
  | load quads =>
    change load rules engine quads = some state at hstate
    unfold load at hstate
    split at hstate
    · rename_i loaded hloaded
      cases hstate
      exact known_finish rules (known_quads known_fresh hloaded)
    · exact h state hstate
  | load_base rows =>
    cases hstate
    exact known_finish rules (known_lexical known_fresh (meant_scan rows))
  | extend rows =>
    obtain ⟨state', hstate', rfl⟩ := Option.map_eq_some_iff.mp hstate
    exact known_finish rules (known_lexical (h state' hstate') (meant_scan rows))

theorem known_run (rules : Rules) (steps : List (Step ox)) : KnownEngine ox (run rules steps) := by
  unfold run
  have hstart : KnownEngine ox none := fun state hstate => by cases hstate
  generalize (none : Engine) = engine at hstart
  induction steps generalizing engine with
  | nil => exact hstart
  | cons s steps ih => exact ih _ (known_step rules hstart s)

theorem meant_rev {state : LoadState} (h : Known ox state) {id : Nat} {k : List Char}
    (hrev : rev state id = some k) : Meant ox k := by
  obtain ⟨e, he, rfl⟩ := Option.map_eq_some_iff.mp hrev
  exact h e (List.mem_of_find?_eq_some he)

/-- Whatever the reasoner returns has keys of terms. -/
theorem meant_materialized (rules : Rules) (steps : List (Step ox)) :
    ∀ t ∈ materialized_triples (run rules steps), MeantTriple ox t := by
  intro t ht
  cases hrun : run rules steps with
  | none =>
    rw [hrun] at ht
    cases ht
  | some state =>
    have hknown := known_run rules steps state hrun
    rw [hrun] at ht
    obtain ⟨ids, -, hkeys⟩ := List.mem_filterMap.mp ht
    obtain ⟨s, hs, hkeys⟩ := Option.bind_eq_some_iff.mp hkeys
    obtain ⟨p, hp, hkeys⟩ := Option.bind_eq_some_iff.mp hkeys
    obtain ⟨o, ho, hkeys⟩ := Option.bind_eq_some_iff.mp hkeys
    cases hkeys
    exact ⟨meant_rev hknown hs, meant_rev hknown hp, meant_rev hknown ho⟩

/-! ## Writing a graph -/

theorem trim_absolute {iri : List Char} (h : ∀ c ∈ iri, iri_char c = true) :
    trim_brackets iri = iri := by
  have hno {d : Char} (hd : iri_char d = false) : ∀ c ∈ iri, ¬(c == d) = true := by
    intro c hc heq
    rw [beq_iff_eq] at heq
    rw [heq] at hc
    rw [h d hc] at hd
    cases hd
  have hfront : iri.dropWhile (· == '<') = iri := by
    cases hiri : iri with
    | nil => rfl
    | cons c cs =>
      have hc := hno (d := '<') (by decide) c (by rw [hiri]; exact List.mem_cons_self)
      exact List.dropWhile_cons_of_neg hc
  rw [trim_brackets, hfront, List.rdropWhile_eq_self_iff]
  intro hne
  exact hno (by decide) _ (List.getLast_mem hne)

/-- A literal without direction is read back from its text. -/
theorem read_to_string {l : OxLiteral} (h : l.Checked ox) (hdir : l.directional = false) :
    OxLiteral.read (parse_literal (l.to_string ox) : text.Literal ox) = l := by
  have hback (l' : text.Literal ox) (htext : l.to_string ox = l'.to_string)
      (hread : OxLiteral.read l' = l) :
      OxLiteral.read (parse_literal (l.to_string ox) : text.Literal ox) = l := by
    rw [htext, text.parse_to_string, hread]
  cases l with
  | Simple value => exact hback (.Simple value) rfl rfl
  | LanguageTagged value language => exact hback (.LanguageTagged value ⟨language, h⟩) rfl rfl
  | DirectionalLanguageTagged value language direction => cases hdir
  | Typed value datatype =>
    exact hback (.Typed value ⟨datatype, trim_absolute h.1.checked, h.2⟩) rfl rfl

/-- A checked term without direction is stored as it is. -/
theorem stored_term {t : OxTerm} (h : t.Checked ox) (hdir : t.directional = false) :
    algebra_to_oxrdf ox (oxrdf_to_algebra ox t) = some t := by
  cases t with
  | NamedNode iri => exact congrArg (fun s => some (OxTerm.NamedNode s)) String.toList_ofList
  | BlankNode label => exact congrArg (fun s => some (OxTerm.BlankNode s)) String.toList_ofList
  | Triple s p o => exact h.elim
  | Literal l =>
    rw [oxrdf_to_algebra, algebra_to_oxrdf, String.toList_ofList, read_to_string h hdir]

/-- The row of the terms that the keys mean. -/
def terms (ox : Library) (t : LexTriple) : Row :=
  (lexical_to_oxrdf ox t.1, lexical_to_oxrdf ox t.2.1, lexical_to_oxrdf ox t.2.2)

theorem quad_meant {t : LexTriple} (h : MeantTriple ox t) : quad ox t = some (terms ox t) := by
  obtain ⟨hs, hp, ho⟩ := h
  rw [quad, stored_term hs.back.1 hs.back.2.1, stored_term hp.back.1 hp.back.2.1,
    stored_term ho.back.1 ho.back.2.1]
  rfl

theorem quads_meant {ts : List LexTriple} (h : ∀ t ∈ ts, MeantTriple ox t) :
    ts.mapM (quad ox) = some (ts.map (terms ox)) := by
  induction ts with
  | nil => rfl
  | cons t ts ih =>
    rw [List.forall_mem_cons] at h
    rw [List.mapM_cons, quad_meant h.1, ih h.2]
    rfl

theorem row_key_terms {t : LexTriple} (h : MeantTriple ox t) : row_key (terms ox t) = some t := by
  obtain ⟨hs, hp, ho⟩ := h
  rw [row_key, terms, hs.back.2.2, hp.back.2.2, ho.back.2.2]
  rfl

/-- The rows of a graph that only derivations were written to. -/
def Derived (ox : Library) (rows : List Row) : Prop :=
  ∀ row ∈ rows, ∃ t, MeantTriple ox t ∧ terms ox t = row

theorem mem_scan {rows : List Row} (h : Derived ox rows) {t : LexTriple} :
    t ∈ scan_graph_lexical rows ↔ MeantTriple ox t ∧ terms ox t ∈ rows := by
  unfold scan_graph_lexical
  rw [List.mem_filterMap]
  constructor
  · rintro ⟨row, hrow, hkey⟩
    obtain ⟨t', ht', rfl⟩ := h row hrow
    rw [row_key_terms ht'] at hkey
    cases hkey
    exact ⟨ht', hrow⟩
  · rintro ⟨ht, hrow⟩
    exact ⟨_, hrow, row_key_terms ht⟩

theorem mem_apply_quads {rows dels adds : List Row} {row : Row} :
    row ∈ apply_quads rows dels adds ↔ (row ∈ rows ∧ row ∉ dels) ∨ row ∈ adds := by
  unfold apply_quads
  have hinserts (start : List Row) :
      row ∈ adds.foldl (fun rows row => rows.insert row) start ↔ row ∈ start ∨ row ∈ adds := by
    induction adds generalizing start with
    | nil => simp
    | cons a adds ih =>
      rw [List.foldl_cons, ih, List.mem_insert_iff, List.mem_cons]
      tauto
  rw [hinserts, List.mem_filter, decide_eq_true_eq]

/-- The graph holds the terms of what was wanted, and nothing else. -/
def Holds (ox : Library) (rows : List Row) (want : List LexTriple) : Prop :=
  ∀ row, row ∈ rows ↔ ∃ t ∈ want, terms ox t = row

theorem Holds.derived {rows : List Row} {want : List LexTriple} (h : Holds ox rows want)
    (hwant : ∀ t ∈ want, MeantTriple ox t) : Derived ox rows := by
  intro row hrow
  obtain ⟨t, ht, hterms⟩ := (h row).mp hrow
  exact ⟨t, hwant t ht, hterms⟩

/-- The graph holds what is wanted already when the keys are the same. -/
theorem holds_of_same {rows : List Row} {want : List LexTriple} (h : Derived ox rows)
    (hsame : scan_graph_lexical rows ⊆ want ∧ want ⊆ scan_graph_lexical rows) :
    Holds ox rows want := by
  intro row
  constructor
  · intro hrow
    obtain ⟨t, ht, rfl⟩ := h row hrow
    exact ⟨t, hsame.1 ((mem_scan h).mpr ⟨ht, hrow⟩), rfl⟩
  · rintro ⟨t, ht, rfl⟩
    exact ((mem_scan h).mp (hsame.2 ht)).2

theorem holds_of_apply {rows : List Row} {want : List LexTriple} (h : Derived ox rows)
    (hwant : ∀ t ∈ want, MeantTriple ox t) :
    Holds ox (apply_quads rows
      (((scan_graph_lexical rows).filter fun t => t ∉ want).map (terms ox))
      ((want.filter fun t => t ∉ scan_graph_lexical rows).map (terms ox))) want := by
  intro row
  rw [mem_apply_quads]
  constructor
  · rintro (⟨hrow, hkept⟩ | hadd)
    · obtain ⟨t, ht, rfl⟩ := h row hrow
      refine ⟨t, ?_, rfl⟩
      by_contra hnot
      refine hkept (List.mem_map.mpr ⟨t, List.mem_filter.mpr ⟨?_, decide_eq_true hnot⟩, rfl⟩)
      exact (mem_scan h).mpr ⟨ht, hrow⟩
    · obtain ⟨t, ht, rfl⟩ := List.mem_map.mp hadd
      exact ⟨t, (List.mem_filter.mp ht).1, rfl⟩
  · rintro ⟨t, ht, rfl⟩
    by_cases hcurrent : t ∈ scan_graph_lexical rows
    · refine Or.inl ⟨((mem_scan h).mp hcurrent).2, fun hdel => ?_⟩
      obtain ⟨t', ht', heq⟩ := List.mem_map.mp hdel
      obtain ⟨hmem, hnot⟩ := List.mem_filter.mp ht'
      -- Two keys of one row are the same key.
      have hkeys := congrArg row_key heq
      rw [row_key_terms ((mem_scan h).mp hmem).1, row_key_terms (hwant t ht)] at hkeys
      rw [Option.some.inj hkeys] at hnot
      exact of_decide_eq_true hnot ht
    · refine Or.inr (List.mem_map.mpr ⟨t, List.mem_filter.mpr ⟨ht, ?_⟩, rfl⟩)
      exact decide_eq_true hcurrent

/-- A write leaves the graph with what was wanted, and the same write again changes nothing. -/
theorem write_graph_holds {rows : List Row} {want : List LexTriple} (h : Derived ox rows)
    (hwant : ∀ t ∈ want, MeantTriple ox t) :
    ∃ rows', write_graph ox rows want = some rows' ∧ Holds ox rows' want ∧
      write_graph ox rows' want = some rows' := by
  have hagain {rows' : List Row} (hholds : Holds ox rows' want) :
      write_graph ox rows' want = some rows' := by
    have hderived := hholds.derived hwant
    refine if_pos ⟨fun t ht => ?_, fun t ht => ?_⟩
    · obtain ⟨hmeant, hrow⟩ := (mem_scan hderived).mp ht
      obtain ⟨t', ht', heq⟩ := (hholds _).mp hrow
      have hkeys := congrArg row_key heq
      rw [row_key_terms (hwant t' ht'), row_key_terms hmeant] at hkeys
      rwa [← Option.some.inj hkeys]
    · exact (mem_scan hderived).mpr ⟨hwant t ht, (hholds _).mpr ⟨t, ht, rfl⟩⟩
  by_cases hsame : scan_graph_lexical rows ⊆ want ∧ want ⊆ scan_graph_lexical rows
  · have hholds := holds_of_same h hsame
    exact ⟨rows, if_pos hsame, hholds, hagain hholds⟩
  · have hdels : ∀ t ∈ (scan_graph_lexical rows).filter fun t => t ∉ want, MeantTriple ox t :=
      fun t ht => ((mem_scan h).mp (List.mem_filter.mp ht).1).1
    have hadds : ∀ t ∈ want.filter fun t => t ∉ scan_graph_lexical rows, MeantTriple ox t :=
      fun t ht => hwant t (List.mem_filter.mp ht).1
    have hholds := holds_of_apply h hwant
    refine ⟨_, ?_, hholds, hagain hholds⟩
    rw [write_graph, if_neg hsame, quads_meant hdels, quads_meant hadds]
    rfl

/-- What is wanted of a graph: triples that a run of the reasoner returns. -/
structure Want (ox : Library) (rules : Rules) where
  steps : List (Step ox)
  triples : List LexTriple
  returned : ∀ t ∈ triples, t ∈ materialized_triples (run rules steps)

theorem Want.meant {rules : Rules} (w : Want ox rules) : ∀ t ∈ w.triples, MeantTriple ox t :=
  fun t ht => meant_materialized rules w.steps t (w.returned t ht)

/-- A graph after the writes of some derivations. -/
def written {rules : Rules} (history : List (Want ox rules)) : Option (List Row) :=
  history.foldlM (fun rows w => write_graph ox rows w.triples) []

theorem written_derived {rules : Rules} (history : List (Want ox rules)) :
    ∃ rows, written history = some rows ∧ Derived ox rows := by
  unfold written
  have hstart : Derived ox [] := fun row hrow => absurd hrow List.not_mem_nil
  generalize ([] : List Row) = rows at hstart
  induction history generalizing rows with
  | nil => exact ⟨rows, rfl, hstart⟩
  | cons w history ih =>
    obtain ⟨rows', hwrite, hholds, -⟩ := write_graph_holds hstart w.meant
    obtain ⟨last, hlast, hderived⟩ := ih rows' (hholds.derived w.meant)
    refine ⟨last, ?_, hderived⟩
    rw [List.foldlM_cons, hwrite]
    exact hlast

/-! ## The convention -/

theorem roundtrip_iff (t : RdfTerm ox) {k : List Char} (hk : oxrdf_to_lexical t.term = some k) :
    lexical_to_oxrdf ox k = t.term ↔ t.term.directional = false := by
  obtain ⟨k', hk', hback⟩ := lexical_of_checked t.checked
  rw [hk] at hk'
  cases hk'
  rw [hback, undirected_iff]

/-- A term comes back from its key when it has no base direction. Every key that the reasoner
returns comes back from its term, and what is derived is stored as its keys mean it. -/
theorem lexical_convention (ox : Library) :
    (∀ t : RdfTerm ox, ∃ k, oxrdf_to_lexical t.term = some k ∧
      (∀ state, intern_term state t.term = some (intern_key state k)) ∧
      (lexical_to_oxrdf ox k = t.term ↔ t.term.directional = false)) ∧
    (∀ (rules : Rules) (steps : List (Step ox)),
      ∀ t ∈ materialized_triples (run rules steps), ∀ k ∈ [t.1, t.2.1, t.2.2],
        oxrdf_to_lexical (lexical_to_oxrdf ox k) = some k) ∧
    ∀ (rules : Rules) (history : List (Want ox rules)) (w : Want ox rules),
      ∃ rows rows', written history = some rows ∧
        write_graph ox rows w.triples = some rows' ∧ Holds ox rows' w.triples ∧
        write_graph ox rows' w.triples = some rows' := by
  refine ⟨fun t => ?_, fun rules steps t ht k hk => ?_, fun rules history w => ?_⟩
  · obtain ⟨k, hk, -⟩ := lexical_of_checked t.checked
    refine ⟨k, hk, fun state => ?_, roundtrip_iff t hk⟩
    rw [intern_term_eq, hk]
    rfl
  · obtain ⟨hs, hp, ho⟩ := meant_materialized rules steps t ht
    simp only [List.mem_cons, List.not_mem_nil, or_false] at hk
    rcases hk with rfl | rfl | rfl
    · exact hs.back.2.2
    · exact hp.back.2.2
    · exact ho.back.2.2
  · obtain ⟨rows, hrows, hderived⟩ := written_derived history
    obtain ⟨rows', hwrite, hholds, hagain⟩ := write_graph_holds hderived w.meant
    exact ⟨rows, rows', hrows, hwrite, hholds, hagain⟩

/-- A right-to-left literal is stored without its direction. -/
theorem direction_lost :
    lexical_to_oxrdf text.ascii ['"', 'x', '"', '@', 'h', 'e'] ≠
        .Literal (.DirectionalLanguageTagged ['x'] ['h', 'e'] .Rtl) ∧
      oxrdf_to_lexical (.Literal (.DirectionalLanguageTagged ['x'] ['h', 'e'] .Rtl)) =
        some ['"', 'x', '"', '@', 'h', 'e'] ∧
      OxLiteral.Checked text.ascii (.DirectionalLanguageTagged ['x'] ['h', 'e'] .Rtl) := by
  have htag : ∀ c ∈ ['h', 'e'], tag_char c = true := by
    rw [List.forall_mem_cons, List.forall_mem_singleton]
    exact ⟨rfl, rfl⟩
  have hlang : text.ascii.language ['h', 'e'] = some ['h', 'e'] := by
    unfold text.ascii
    dsimp only
    rw [if_pos ⟨List.cons_ne_nil _ _, htag⟩]
  have hchecked : OxLiteral.Checked text.ascii
      (.DirectionalLanguageTagged ['x'] ['h', 'e'] .Rtl) := hlang
  refine ⟨fun h => ?_, rfl, hchecked⟩
  have hdirection := (@roundtrip_iff text.ascii
    ⟨.Literal (.DirectionalLanguageTagged ['x'] ['h', 'e'] .Rtl), hchecked⟩ _ rfl).mp h
  cases hdirection

end horndb.sparql.lexical
