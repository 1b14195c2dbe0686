-- The answers of CONSTRUCT and DESCRIBE: the triples as plain texts, the document that the server
-- makes of them, and when that document says what the query asks for.
import HornDb.TermText
import HornDb.UpdateRequest

open HornDb.Lib.Hex HornDb.Lib.NTriples

namespace horndb.sparql.construct

open horndb.sparql.text

variable {ox : Library}

/-! ## Terms -/

/-- A label, with or without the prefix of blank nodes. -/
structure Label where
  as_str : List Char
  checked : ∀ c ∈ as_str, iri_char c = true

instance : DecidableEq Label := fun a b =>
  decidable_of_iff (a.as_str = b.as_str) (by
    cases a
    cases b
    simp)

/-- A term of a solution or of the data. -/
inductive RdfTerm (ox : Library) where
  | Iri (n : Iri)
  | BlankNode (b : Label)
  | Literal (l : RdfLiteral ox)
deriving DecidableEq

/-- The text that the executor hands on, without a mark of its kind. -/
def RdfTerm.text : RdfTerm ox → List Char
  | .Iri n => n.as_str
  | .BlankNode b => b.as_str
  | .Literal l => l.lit.to_string

def RdfTerm.to_term (t : RdfTerm ox) : Term :=
  match t with
  | .Iri n => .Iri (String.ofList n.as_str)
  | .BlankNode b => .BlankNode (String.ofList b.as_str)
  | .Literal l => .Literal (String.ofList l.lit.to_string)

inductive TermPattern (ox : Library) where
  | NamedNode (n : Iri)
  | BlankNode (b : Label)
  | Literal (l : RdfLiteral ox)
  | Variable (name : String)
  | Triple (text : String)

inductive NamedNodePattern where
  | NamedNode (n : Iri)
  | Variable (name : String)

structure TriplePattern (ox : Library) where
  subject : TermPattern ox
  predicate : NamedNodePattern
  object : TermPattern ox

/-- A solution mapping. -/
abbrev Solution (ox : Library) := String → Option (RdfTerm ox)

/-- The solution as the executor has it. -/
def Solution.bindings (row : Solution ox) : Bindings := fun v => (row v).map RdfTerm.to_term

/-! ## CONSTRUCT -/

abbrev TextTriple := String × String × String

def resolve_term (row : Bindings) : TermPattern ox → Option String
  | .NamedNode n => some (String.ofList n.as_str)
  | .BlankNode b => some (String.ofList b.as_str)
  | .Literal l => some (String.ofList l.lit.to_string)
  | .Variable v =>
    match row v with
    | some (.Iri s) => some s
    | some (.Literal s) => some s
    | some (.BlankNode s) => some s
    | _ => none
  | .Triple _ => none

def resolve_pred (row : Bindings) : NamedNodePattern → Option String
  | .NamedNode n => some (String.ofList n.as_str)
  | .Variable v =>
    match row v with
    | some (.Iri s) => some s
    | _ => none

def resolve_triple (row : Bindings) (tp : TriplePattern ox) : Option TextTriple :=
  match resolve_term row tp.subject, resolve_pred row tp.predicate, resolve_term row tp.object with
  | some s, some p, some o => some (s, p, o)
  | _, _, _ => none

def construct_triples (template : List (TriplePattern ox)) (rows : List Bindings) :
    List TextTriple :=
  rows.flatMap fun row => template.filterMap (resolve_triple row)

/-! ## The document -/

def write_triple (t : TextTriple) : String :=
  "<" ++ t.1 ++ "> <" ++ t.2.1 ++ "> <" ++ t.2.2 ++ "> .\n"

/-- The N-Triples that the server answers with. -/
def serialize (triples : List TextTriple) : String := String.join (triples.map write_triple)

/-! ## DESCRIBE -/

/-- A stored triple. -/
structure StoredTriple (ox : Library) where
  subject : RdfTerm ox
  predicate : Iri
  object : RdfTerm ox
  subject_legal : ∀ l, subject ≠ .Literal l

/-- The scan of a resource's triples: what it binds to the predicate and to the object. -/
def scan_bgp (stored : List (StoredTriple ox)) (resource : RdfTerm ox) :
    List (RdfTerm ox × RdfTerm ox) :=
  stored.filterMap fun t =>
    if t.subject = resource then some (.Iri t.predicate, t.object) else none

/-- What is described: the resources that the query names, and every value of a row. -/
def resources (seeds : List Iri) (rows : List (List (String × RdfTerm ox))) :
    List (RdfTerm ox) :=
  let named := rows.flatMap fun row => row.map Prod.snd
  (seeds.map RdfTerm.Iri ++ named).dedup

/-- The texts of a resource's triples. -/
def described (stored : List (StoredTriple ox)) (resource : RdfTerm ox) : List TextTriple :=
  (scan_bgp stored resource).map fun b =>
    (String.ofList resource.text, String.ofList b.1.text, String.ofList b.2.text)

/-- The texts in their order, each once. -/
def sorted_set (triples : List TextTriple) : List TextTriple :=
  (triples.dedup.map fun t => toLex (t.1, toLex t.2)).insertionSort (· ≤ ·) |>.map fun t =>
    ((ofLex t).1, ofLex (ofLex t).2)

def describe_triples (stored : List (StoredTriple ox)) (seeds : List Iri)
    (rows : List (List (String × RdfTerm ox))) : List TextTriple :=
  sorted_set ((resources seeds rows).flatMap (described stored))

/-! ## What the query asks for -/

/-- A blank node of the answer: one of the data, or one of the template, fresh for a solution. -/
inductive Blank where
  | data (b : Label)
  | fresh (solution : Nat) (b : Label)

inductive Ground (ox : Library) where
  | iri (n : Iri)
  | blank (b : Blank)
  | literal (l : RdfLiteral ox)

def RdfTerm.ground : RdfTerm ox → Ground ox
  | .Iri n => .iri n
  | .BlankNode b => .blank (.data b)
  | .Literal l => .literal l

abbrev GroundTriple (ox : Library) := Ground ox × Iri × Ground ox

def filled_term (solution : Nat) (row : Solution ox) : TermPattern ox → Option (Ground ox)
  | .NamedNode n => some (.iri n)
  | .BlankNode b => some (.blank (.fresh solution b))
  | .Literal l => some (.literal l)
  | .Variable v => (row v).map RdfTerm.ground
  | .Triple _ => none

def filled_pred (row : Solution ox) : NamedNodePattern → Option Iri
  | .NamedNode n => some n
  | .Variable v =>
    match row v with
    | some (.Iri n) => some n
    | _ => none

/-- A triple pattern with a solution's terms, where all three are there and the predicate is an
IRI. -/
def filled (solution : Nat) (row : Solution ox) (tp : TriplePattern ox) :
    Option (GroundTriple ox) :=
  match filled_term solution row tp.subject, filled_pred row tp.predicate,
    filled_term solution row tp.object with
  | some s, some p, some o => some (s, p, o)
  | _, _, _ => none

def fillings (template : List (TriplePattern ox)) (rows : List (Solution ox)) :
    List (GroundTriple ox) :=
  rows.zipIdx.flatMap fun e => template.filterMap (filled e.2 e.1)

def Ground.is_literal : Ground ox → Prop
  | .literal _ => True
  | _ => False

/-- The graph of a CONSTRUCT query. A filling with a literal as its subject is left out. -/
def instances (template : List (TriplePattern ox)) (rows : List (Solution ox)) :
    Set (GroundTriple ox) :=
  { g | g ∈ fillings template rows ∧ ¬g.1.is_literal }

def StoredTriple.ground (t : StoredTriple ox) : GroundTriple ox :=
  (t.subject.ground, t.predicate, t.object.ground)

/-- The graph of a DESCRIBE query. -/
def descriptions (stored : List (StoredTriple ox)) (seeds : List Iri)
    (rows : List (List (String × RdfTerm ox))) : Set (GroundTriple ox) :=
  { g | ∃ t ∈ stored, t.subject ∈ resources seeds rows ∧ g = t.ground }

/-- The term as a document has it, under labels for the blank nodes. -/
def Ground.node (label : Blank → List Char) : Ground ox → Node
  | .iri n => .iri n.as_str
  | .blank b => .blank (label b)
  | .literal ⟨.Simple value, _⟩ => .literal value none none
  | .literal ⟨.LanguageTagged value l, _⟩ => .literal value (some l.as_str) none
  | .literal ⟨.Typed value dt, _⟩ => .literal value none (some dt.as_str)

def GroundTriple.node (label : Blank → List Char) (g : GroundTriple ox) : Triple :=
  (g.1.node label, .iri g.2.1.as_str, g.2.2.node label)

/-- Blank nodes that a graph has. -/
def blanks (graph : Set (GroundTriple ox)) : Set Blank :=
  { b | ∃ g ∈ graph, g.1 = .blank b ∨ g.2.2 = .blank b }

/-- The document is N-Triples and holds the graph, each triple once, up to the labels. -/
def Holds (doc : String) (graph : Set (GroundTriple ox)) : Prop :=
  ∃ label : Blank → List Char, Set.InjOn label (blanks graph) ∧
    ∃ triples, read_document doc.toList = some triples ∧ triples.Nodup ∧
      ∀ x, x ∈ triples ↔ ∃ g ∈ graph, GroundTriple.node label g = x

/-! ## The texts of the triples -/

/-- What is written of a term between brackets. -/
def Ground.text : Ground ox → List Char
  | .iri n => n.as_str
  | .blank (.data b) => b.as_str
  | .blank (.fresh _ b) => b.as_str
  | .literal l => l.lit.to_string

def GroundTriple.text (g : GroundTriple ox) : TextTriple :=
  (String.ofList g.1.text, String.ofList g.2.1.as_str, String.ofList g.2.2.text)

theorem RdfTerm.text_ground (t : RdfTerm ox) : t.ground.text = t.text := by
  cases t <;> rfl

theorem resolve_term_text (solution : Nat) (row : Solution ox) (t : TermPattern ox) :
    resolve_term row.bindings t =
      (filled_term solution row t).map fun g => String.ofList g.text := by
  cases t with
  | NamedNode n => rfl
  | BlankNode b => rfl
  | Literal l => rfl
  | Triple text => rfl
  | Variable v =>
    rw [resolve_term, filled_term, Solution.bindings]
    cases row v with
    | none => rfl
    | some t => cases t <;> rfl

theorem resolve_pred_text (row : Solution ox) (t : NamedNodePattern) :
    resolve_pred row.bindings t = (filled_pred row t).map fun p => String.ofList p.as_str := by
  cases t with
  | NamedNode n => rfl
  | Variable v =>
    rw [resolve_pred, filled_pred, Solution.bindings]
    cases row v with
    | none => rfl
    | some t => cases t <;> rfl

theorem resolve_triple_text (solution : Nat) (row : Solution ox) (tp : TriplePattern ox) :
    resolve_triple row.bindings tp = (filled solution row tp).map GroundTriple.text := by
  rw [resolve_triple, filled, resolve_term_text solution, resolve_pred_text,
    resolve_term_text solution]
  cases filled_term solution row tp.subject with
  | none => rfl
  | some s =>
    cases filled_pred row tp.predicate with
    | none => rfl
    | some p => cases filled_term solution row tp.object <;> rfl

/-- The triples of a CONSTRUCT are the texts of the fillings. -/
theorem construct_triples_text (template : List (TriplePattern ox)) (rows : List (Solution ox)) :
    construct_triples template (rows.map Solution.bindings) =
      (fillings template rows).map GroundTriple.text := by
  have hrow (e : Solution ox × Nat) :
      template.filterMap (resolve_triple e.1.bindings) =
        (template.filterMap (filled e.2 e.1)).map GroundTriple.text := by
    rw [List.map_filterMap]
    exact List.filterMap_congr fun tp _ => resolve_triple_text e.2 e.1 tp
  rw [construct_triples, fillings, List.map_flatMap, List.flatMap_map,
    ← List.flatMap_congr fun e _ => hrow e]
  conv_lhs => rw [← List.zipIdx_map_fst 0 rows]
  rw [List.flatMap_map]

/-! ## One line -/

theorem inline_no_eol {c : Char} (h : inline_char c = true) : is_eol c = false := by
  rw [inline_char, Bool.and_eq_true, Bool.and_eq_true, bne_iff_ne, bne_iff_ne] at h
  rw [is_eol, Bool.or_eq_false_iff, beq_eq_false_iff_ne, beq_eq_false_iff_ne]
  exact h.1

theorem text_no_eol (t : Ground ox) : ∀ c ∈ t.text, is_eol c = false := by
  intro c hc
  cases t with
  | iri n => exact inline_no_eol (iri_char_inline (n.checked c hc))
  | literal l => exact inline_no_eol (to_string_inline l.checked c hc)
  | blank b =>
    cases b with
    | data b => exact inline_no_eol (iri_char_inline (b.checked c hc))
    | fresh solution b => exact inline_no_eol (iri_char_inline (b.checked c hc))

/-- A line of the document, without its end. -/
def line (t : TextTriple) : List Char :=
  '<' :: (t.1.toList ++ '>' :: ' ' :: '<' :: (t.2.1.toList ++ '>' :: ' ' :: '<' ::
    (t.2.2.toList ++ ['>', ' ', '.'])))

theorem write_triple_line (t : TextTriple) : (write_triple t).toList = line t ++ ['\n'] := by
  simp [write_triple, line]

theorem serialize_lines (triples : List TextTriple) :
    (serialize triples).toList = (triples.map line).flatMap fun l => l ++ ['\n'] := by
  induction triples with
  | nil => rfl
  | cons t triples ih =>
    rw [serialize, List.map_cons, String.join_cons, String.toList_append, write_triple_line,
      List.map_cons, List.flatMap_cons, ← ih, serialize]

/-- What stands between brackets is an IRI, or starts with a quote. -/
theorem text_cases (t : Ground ox) :
    (¬t.is_literal ∧ ∀ c ∈ t.text, iri_char c = true) ∨
      (t.is_literal ∧ ∃ cs, t.text = '"' :: cs) := by
  cases t with
  | iri n => exact Or.inl ⟨fun h => h, n.checked⟩
  | literal l => exact Or.inr ⟨trivial, _, rfl⟩
  | blank b =>
    cases b with
    | data b => exact Or.inl ⟨fun h => h, b.checked⟩
    | fresh solution b => exact Or.inl ⟨fun h => h, b.checked⟩

theorem read_node_quote (t cs : List Char) : read_node ('<' :: (('"' :: t) ++ cs)) = none := by
  rw [read_node, List.cons_append, read_iri_quote]
  rfl

/-- The triple that is read of a line: its texts, as IRIs. -/
def TextTriple.iris (t : TextTriple) : Triple :=
  (.iri t.1.toList, .iri t.2.1.toList, .iri t.2.2.toList)

theorem TextTriple.iris_injective : Function.Injective TextTriple.iris := by
  rintro ⟨s, p, o⟩ ⟨s', p', o'⟩ h
  simp only [TextTriple.iris, Prod.mk.injEq, Node.iri.injEq, String.toList_inj] at h
  obtain ⟨rfl, rfl, rfl⟩ := h
  rfl

theorem skip_ws_bracket (cs : List Char) : skip_ws ('<' :: cs) = '<' :: cs := rfl

theorem skip_ws_space_bracket (cs : List Char) : skip_ws (' ' :: '<' :: cs) = '<' :: cs := rfl

theorem not_ends_line (t : TextTriple) : ¬ends (line t) = true := Bool.false_ne_true

theorem read_line_plain (g : GroundTriple ox) (hs : ¬g.1.is_literal) (ho : ¬g.2.2.is_literal) :
    read_line (line g.text) = some [g.text.iris] := by
  have hs' : ∀ c ∈ g.1.text, iri_char c = true := by
    rcases text_cases g.1 with h | h
    · exact h.2
    · exact absurd h.1 hs
  have ho' : ∀ c ∈ g.2.2.text, iri_char c = true := by
    rcases text_cases g.2.2 with h | h
    · exact h.2
    · exact absurd h.1 ho
  rw [read_line, if_neg (not_ends_line _)]
  have hstop : skip_ws [' ', '.'] = ['.'] := rfl
  simp only [line, GroundTriple.text, TextTriple.iris, String.toList_ofList, skip_ws_bracket,
    read_node_plain hs', Option.bind_some, skip_ws_space_bracket, read_node_plain g.2.1.checked,
    read_node_plain ho', hstop]
  rfl

theorem read_line_literal (g : GroundTriple ox) (h : g.1.is_literal ∨ g.2.2.is_literal) :
    read_line (line g.text) = none := by
  rw [read_line, if_neg (not_ends_line _)]
  simp only [line, GroundTriple.text, String.toList_ofList, skip_ws_bracket]
  rcases text_cases g.1 with hs | ⟨-, cs, hs⟩
  · rcases text_cases g.2.2 with ho | ⟨-, cs, ho⟩
    · exact absurd h (not_or.mpr ⟨hs.1, ho.1⟩)
    · simp only [read_node_plain hs.2, Option.bind_some, skip_ws_space_bracket,
        read_node_plain g.2.1.checked, ho, read_node_quote, Option.bind_none]
  · rw [hs, read_node_quote, Option.bind_none]

/-! ## The document -/

/-- No term is a literal: the document's lines are triples. -/
def Plain (g : GroundTriple ox) : Prop := ¬g.1.is_literal ∧ ¬g.2.2.is_literal

theorem mapM_read_line (gs : List (GroundTriple ox)) (h : ∀ g ∈ gs, Plain g) :
    ((gs.map GroundTriple.text).map line).mapM read_line =
      some ((gs.map GroundTriple.text).map fun t => [TextTriple.iris t]) := by
  induction gs with
  | nil => rfl
  | cons g gs ih =>
    rw [List.forall_mem_cons] at h
    simp only [List.map_cons, List.mapM_cons, read_line_plain g h.1.1 h.1.2, ih h.2]
    rfl

theorem mapM_read_line_none (gs : List (GroundTriple ox)) {g : GroundTriple ox} (hg : g ∈ gs)
    (h : ¬Plain g) : ((gs.map GroundTriple.text).map line).mapM read_line = none := by
  have hline : read_line (line g.text) = none := by
    refine read_line_literal g ?_
    rw [Plain, not_and_or, not_not, not_not] at h
    exact h
  induction gs with
  | nil => exact absurd hg List.not_mem_nil
  | cons f gs ih =>
    rw [List.map_cons, List.map_cons, List.mapM_cons]
    rcases List.mem_cons.mp hg with rfl | hg
    · rw [hline]
      rfl
    · rw [ih hg]
      cases read_line (line f.text) <;> rfl

theorem read_serialize (gs : List (GroundTriple ox)) (triples : List Triple) :
    read_document (serialize (gs.map GroundTriple.text)).toList = some triples ↔
      (∀ g ∈ gs, Plain g) ∧ triples = gs.map fun g => g.text.iris := by
  have hlines : ∀ l ∈ (gs.map GroundTriple.text).map line, ∀ c ∈ l, is_eol c = false := by
    intro l hl c hc
    rw [List.map_map] at hl
    obtain ⟨g, -, rfl⟩ := List.mem_map.mp hl
    simp only [Function.comp_apply, line, GroundTriple.text, String.toList_ofList, List.mem_cons,
      List.mem_append, List.not_mem_nil, or_false] at hc
    rcases hc with rfl | hc | rfl | rfl | rfl | hc | rfl | rfl | rfl | hc | rfl | rfl | rfl
    all_goals first | rfl | skip
    · exact text_no_eol g.1 c hc
    · exact inline_no_eol (iri_char_inline (g.2.1.checked c hc))
    · exact text_no_eol g.2.2 c hc
  rw [serialize_lines, read_document_lines _ hlines]
  by_cases h : ∀ g ∈ gs, Plain g
  · rw [mapM_read_line gs h, Option.map_some, List.map_map, Option.some_inj]
    have hflat : (gs.map ((fun t => [TextTriple.iris t]) ∘ GroundTriple.text)).flatten =
        gs.map fun g => g.text.iris := by
      rw [← List.flatMap_def]
      exact (List.map_eq_flatMap).symm
    rw [hflat]
    exact ⟨fun heq => ⟨h, heq.symm⟩, fun heq => heq.2.symm⟩
  · obtain ⟨g, hg, hplain⟩ : ∃ g ∈ gs, ¬Plain g := by
      by_contra hall
      exact h fun g hg => by_contra fun hplain => hall ⟨g, hg, hplain⟩
    rw [mapM_read_line_none gs hg hplain]
    exact ⟨fun heq => absurd heq (by simp), fun heq => absurd heq.1 h⟩

/-! ## When the document is right -/

/-- The subject and the object are IRIs. -/
def Iris (g : GroundTriple ox) : Prop := (∃ n, g.1 = .iri n) ∧ ∃ n, g.2.2 = .iri n

theorem Iris.plain {g : GroundTriple ox} (h : Iris g) : Plain g := by
  obtain ⟨⟨n, hs⟩, m, ho⟩ := h
  rw [Plain, hs, ho]
  exact ⟨fun h => h, fun h => h⟩

/-- Of IRIs the document keeps the kind. -/
theorem Iris.node {g : GroundTriple ox} (h : Iris g) (label : Blank → List Char) :
    GroundTriple.node label g = g.text.iris := by
  obtain ⟨s, p, o⟩ := g
  obtain ⟨⟨n, hs⟩, m, ho⟩ := h
  dsimp only at hs ho
  rw [hs, ho, GroundTriple.node, GroundTriple.text, TextTriple.iris, String.toList_ofList,
    String.toList_ofList, String.toList_ofList]
  rfl

theorem iri_of_node {t : Ground ox} {label : Blank → List Char} {s : List Char}
    (h : t.node label = .iri s) : ∃ n, t = .iri n := by
  cases t with
  | iri n => exact ⟨n, rfl⟩
  | blank b => cases h
  | literal l =>
    obtain ⟨l, hl⟩ := l
    cases l with
    | Simple value => cases h
    | LanguageTagged value t => cases h
    | Typed value dt => cases h

/-- Terms of one text are both literals, or none of them is. -/
theorem is_literal_of_text {t u : Ground ox} (h : t.text = u.text) (ht : ¬t.is_literal) :
    ¬u.is_literal := by
  intro hu
  rcases text_cases t with ⟨-, hiri⟩ | ⟨hlit, -⟩
  · rcases text_cases u with ⟨hnot, -⟩ | ⟨-, cs, hquote⟩
    · exact hnot hu
    · have hq := hiri '"' (by rw [h, hquote]; exact List.mem_cons_self)
      exact absurd hq (by decide)
  · exact ht hlit

theorem Plain.of_text {g f : GroundTriple ox} (h : g.text = f.text) (hg : Plain g) : Plain f := by
  simp only [GroundTriple.text, Prod.mk.injEq, String.ofList_inj] at h
  exact ⟨is_literal_of_text h.1 hg.1, is_literal_of_text h.2.2 hg.2⟩

/-- The document of some texts holds their triples, less those with a literal as their subject,
exactly when all of them have IRIs only and no text comes up twice. -/
theorem holds_serialize_iff {graph : Set (GroundTriple ox)} {gs : List (GroundTriple ox)}
    (hmem : ∀ g ∈ gs, g ∈ graph) (htext : ∀ g ∈ graph, ∃ f ∈ gs, f.text = g.text) :
    Holds (serialize (gs.map GroundTriple.text)) { g | g ∈ graph ∧ ¬g.1.is_literal } ↔
      (∀ g ∈ graph, Iris g) ∧ (gs.map GroundTriple.text).Nodup := by
  constructor
  · rintro ⟨label, -, triples, hread, hnodup, hiff⟩
    obtain ⟨hplain, rfl⟩ := (read_serialize gs triples).mp hread
    constructor
    · intro g hg
      obtain ⟨f, hf, heq⟩ := htext g hg
      have hlit : ¬g.1.is_literal := ((hplain f hf).of_text heq).1
      obtain ⟨e, -, hnode⟩ := List.mem_map.mp ((hiff _).mpr ⟨g, ⟨hg, hlit⟩, rfl⟩)
      simp only [TextTriple.iris, GroundTriple.node, Prod.mk.injEq] at hnode
      exact ⟨iri_of_node hnode.1.symm, iri_of_node hnode.2.2.symm⟩
    · have hiris : (gs.map fun g => g.text.iris) =
          (gs.map GroundTriple.text).map TextTriple.iris := by
        rw [List.map_map]
        rfl
      rw [hiris] at hnodup
      exact hnodup.of_map _
  · rintro ⟨hiris, hnodup⟩
    have hplain : ∀ g ∈ gs, Plain g := fun g hg => (hiris g (hmem g hg)).plain
    refine ⟨fun _ => [], ?_, _, (read_serialize gs _).mpr ⟨hplain, rfl⟩, ?_, fun x => ?_⟩
    · -- no blank node is in the graph
      rintro b ⟨g, ⟨hg, -⟩, hb⟩
      obtain ⟨⟨n, hs⟩, m, ho⟩ := hiris g hg
      rw [hs, ho] at hb
      rcases hb with hb | hb <;> cases hb
    · have hmap := hnodup.map TextTriple.iris_injective
      rwa [List.map_map] at hmap
    · rw [List.mem_map]
      constructor
      · rintro ⟨g, hg, rfl⟩
        exact ⟨g, ⟨hmem g hg, (hplain g hg).1⟩, (hiris g (hmem g hg)).node _⟩
      · rintro ⟨g, ⟨hg, -⟩, rfl⟩
        obtain ⟨f, hf, heq⟩ := htext g hg
        exact ⟨f, hf, by rw [heq, (hiris g hg).node]⟩

/-- Triples of IRIs differ in their texts. -/
theorem nodup_text_iff {gs : List (GroundTriple ox)} (h : ∀ g ∈ gs, Iris g) :
    (gs.map GroundTriple.text).Nodup ↔ gs.Nodup := by
  refine ⟨fun hnodup => hnodup.of_map _, fun hnodup => hnodup.map_on ?_⟩
  intro g hg f hf heq
  obtain ⟨s, p, o⟩ := g
  obtain ⟨s', p', o'⟩ := f
  obtain ⟨⟨n, hs⟩, m, ho⟩ := h _ hg
  obtain ⟨⟨n', hs'⟩, m', ho'⟩ := h _ hf
  dsimp only at hs ho hs' ho'
  subst hs ho hs' ho'
  simp only [GroundTriple.text, Ground.text, Prod.mk.injEq, String.ofList_inj] at heq
  rw [Iri.ext heq.1, Iri.ext heq.2.1, Iri.ext heq.2.2]

theorem mem_sorted_set (t : TextTriple) (triples : List TextTriple) :
    t ∈ sorted_set triples ↔ t ∈ triples := by
  have h : t ∈ sorted_set triples ↔ ∃ a b c, (a, b, c) ∈ triples ∧ (a, b, c) = t := by
    simp [sorted_set]
  rw [h]
  exact ⟨fun ⟨_, _, _, ht, heq⟩ => heq ▸ ht, fun ht => ⟨_, _, _, ht, rfl⟩⟩

theorem nodup_sorted_set (triples : List TextTriple) : (sorted_set triples).Nodup := by
  unfold sorted_set
  have hkey : Function.Injective fun t : TextTriple => toLex (t.1, toLex t.2) := by
    intro t u h
    simpa [Prod.ext_iff] using h
  have hsorted := (List.perm_insertionSort (· ≤ ·) _).nodup_iff.mpr
    ((List.nodup_dedup triples).map hkey)
  refine hsorted.map fun t u h => ?_
  rw [Prod.mk.injEq] at h
  exact ofLex.injective (Prod.ext h.1 (ofLex.injective h.2))

theorem mem_describe_triples (stored : List (StoredTriple ox)) (seeds : List Iri)
    (rows : List (List (String × RdfTerm ox))) (t : TextTriple) :
    t ∈ describe_triples stored seeds rows ↔
      ∃ g ∈ descriptions stored seeds rows, g.text = t := by
  rw [describe_triples, mem_sorted_set, List.mem_flatMap]
  constructor
  · rintro ⟨resource, hres, ht⟩
    obtain ⟨b, hb, rfl⟩ := List.mem_map.mp ht
    obtain ⟨u, hu, hscan⟩ := List.mem_filterMap.mp hb
    obtain ⟨rfl, rfl⟩ : u.subject = resource ∧ (.Iri u.predicate, u.object) = b := by
      simpa using hscan
    refine ⟨u.ground, ⟨u, hu, hres, rfl⟩, ?_⟩
    simp only [GroundTriple.text, StoredTriple.ground, RdfTerm.text_ground]
    rfl
  · rintro ⟨-, ⟨u, hu, hres, rfl⟩, rfl⟩
    refine ⟨u.subject, hres, List.mem_map.mpr ⟨(.Iri u.predicate, u.object), ?_, ?_⟩⟩
    · exact List.mem_filterMap.mpr ⟨u, hu, if_pos rfl⟩
    · simp only [GroundTriple.text, StoredTriple.ground, RdfTerm.text_ground]
      rfl

/-! ## The answers -/

theorem construct_holds_iff (template : List (TriplePattern ox)) (rows : List (Solution ox)) :
    Holds (serialize (construct_triples template (rows.map Solution.bindings)))
        (instances template rows) ↔
      (∀ g ∈ fillings template rows, Iris g) ∧ (fillings template rows).Nodup := by
  have hserialize : Holds (serialize ((fillings template rows).map GroundTriple.text))
        (instances template rows) ↔ (∀ g ∈ fillings template rows, Iris g) ∧
      ((fillings template rows).map GroundTriple.text).Nodup :=
    holds_serialize_iff (fun g hg => hg) fun g hg => ⟨g, hg, rfl⟩
  rw [construct_triples_text, hserialize]
  exact and_congr_right fun h => nodup_text_iff h

theorem describe_holds_iff (stored : List (StoredTriple ox)) (seeds : List Iri)
    (rows : List (List (String × RdfTerm ox))) :
    Holds (serialize (describe_triples stored seeds rows)) (descriptions stored seeds rows) ↔
      ∀ t ∈ stored, t.subject ∈ resources seeds rows → Iris t.ground := by
  have hlegal : descriptions stored seeds rows =
      { g | g ∈ descriptions stored seeds rows ∧ ¬g.1.is_literal } := by
    refine Set.Subset.antisymm (fun g hg => ⟨hg, ?_⟩) fun g hg => hg.1
    obtain ⟨t, -, -, rfl⟩ := hg
    have hsubject := t.subject_legal
    rw [StoredTriple.ground]
    cases hs : t.subject with
    | Literal l => exact absurd hs (hsubject l)
    | Iri n => exact fun h => h
    | BlankNode b => exact fun h => h
  -- a triple for each of the texts
  obtain ⟨gs, hmem, htexts⟩ : ∃ gs : List (GroundTriple ox),
      (∀ g ∈ gs, g ∈ descriptions stored seeds rows) ∧
        gs.map GroundTriple.text = describe_triples stored seeds rows := by
    have hall := fun t ht => (mem_describe_triples stored seeds rows t).mp ht
    choose g hg htext using hall
    refine ⟨(describe_triples stored seeds rows).pmap g fun t ht => ht, ?_, ?_⟩
    · intro f hf
      obtain ⟨t, ht, rfl⟩ := List.mem_pmap.mp hf
      exact hg t ht
    · simp only [List.map_pmap, htext, List.pmap_eq_map, List.map_id']
  have htext : ∀ g ∈ descriptions stored seeds rows, ∃ f ∈ gs, f.text = g.text := by
    intro g hg
    have ht := (mem_describe_triples stored seeds rows g.text).mpr ⟨g, hg, rfl⟩
    rw [← htexts] at ht
    exact List.mem_map.mp ht
  have hnodup : (gs.map GroundTriple.text).Nodup := by
    rw [htexts]
    exact nodup_sorted_set _
  rw [hlegal, ← htexts, holds_serialize_iff hmem htext, and_iff_left hnodup]
  constructor
  · exact fun h t ht hres => h _ ⟨t, ht, hres, rfl⟩
  · rintro h g ⟨t, ht, hres, rfl⟩
    exact h t ht hres

/-- The server's documents hold the graphs that CONSTRUCT and DESCRIBE ask for, exactly where every
term that they write as a subject or an object is an IRI, and no filling of the template comes up
twice. -/
theorem documents_hold_iff (template : List (TriplePattern ox)) (solutions : List (Solution ox))
    (stored : List (StoredTriple ox)) (seeds : List Iri)
    (rows : List (List (String × RdfTerm ox))) :
    (Holds (serialize (construct_triples template (solutions.map Solution.bindings)))
        (instances template solutions) ↔
      (∀ g ∈ fillings template solutions, Iris g) ∧ (fillings template solutions).Nodup) ∧
    (Holds (serialize (describe_triples stored seeds rows)) (descriptions stored seeds rows) ↔
      ∀ t ∈ stored, t.subject ∈ resources seeds rows → Iris t.ground) :=
  ⟨construct_holds_iff template solutions, describe_holds_iff stored seeds rows⟩

/-- A template's literal stands between brackets: the document is no N-Triples. -/
theorem literal_object_breaks : ∃ (template : List (TriplePattern ascii))
    (solutions : List (Solution ascii)),
    serialize (construct_triples template (solutions.map Solution.bindings)) =
        "<a:s> <a:p> <\"hello\"> .\n" ∧
      ¬Holds (serialize (construct_triples template (solutions.map Solution.bindings)))
        (instances template solutions) := by
  let s : Iri := ⟨['a', ':', 's'], List.cons_ne_nil _ _, fun _ => List.all_eq_true.mp rfl _⟩
  let p : Iri := ⟨['a', ':', 'p'], List.cons_ne_nil _ _, fun _ => List.all_eq_true.mp rfl _⟩
  refine ⟨[⟨.Variable "x", .NamedNode p, .Literal ⟨.Simple "hello".toList, trivial⟩⟩],
    [fun _ => some (.Iri s)], rfl, fun h => ?_⟩
  have hiris := ((construct_holds_iff _ _).mp h).1
    (.iri s, p, .literal ⟨.Simple "hello".toList, trivial⟩)
    List.mem_cons_self
  obtain ⟨-, n, hobject⟩ := hiris
  cases hobject

end horndb.sparql.construct
