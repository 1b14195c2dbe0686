-- The documents of a SELECT: a header, the chunks of the rows and a footer, in four formats. Texts
-- are lists of characters; what a format has to give back is the table of the solutions.
import HornDb.Lib.Collect
import HornDb.Lib.Json
import HornDb.TermText
import HornDb.UpdateRequest

open HornDb.Lib.Json (Value)
open HornDb.Lib.NTriples (Node iri_char)
open HornDb.Lib.Collect

namespace horndb.sparql.results

open text

variable {ox : Library}

/-! ## Solutions -/

/-- A stored label. It may have colons, and those of new nodes start as a written one does. -/
structure Label where
  as_str : List Char
  nonempty : as_str ≠ []
  checked : ∀ c ∈ as_str, iri_char c = true
  no_stop : as_str.getLast? ≠ some '.'

/-- A term as the store gives it back. -/
inductive DecodedTerm (ox : Library) where
  | Iri (n : Iri)
  | BlankNode (b : Label)
  | Literal (l : RdfLiteral ox)

/-- The term as the executor hands it on. -/
def DecodedTerm.to_term (t : DecodedTerm ox) : Term :=
  match t with
  | .Iri n => .Iri (String.ofList n.as_str)
  | .BlankNode b => .BlankNode (String.ofList b.as_str)
  | .Literal l => .Literal (String.ofList l.lit.to_string)

/-- The characters of a variable's name. -/
def name_char (c : Char) : Bool :=
  (0x61 ≤ c.toNat && c.toNat ≤ 0x7A) || (0x41 ≤ c.toNat && c.toNat ≤ 0x5A) ||
    (0x30 ≤ c.toNat && c.toNat ≤ 0x39) || c == '_' || (0xB7 ≤ c.toNat && c.toNat ≤ 0xFFFD) ||
    0x10000 ≤ c.toNat

structure VarName where
  name : String
  nonempty : name.toList ≠ []
  checked : ∀ c ∈ name.toList, name_char c = true

abbrev Solution (ox : Library) := String → Option (DecodedTerm ox)

def Solution.bindings (row : Solution ox) : Bindings := fun v => (row v).map DecodedTerm.to_term

/-- The value of each variable in each solution, as `view` has it. -/
def table {α : Type} (view : DecodedTerm ox → α) (vars : List VarName)
    (rows : List (Solution ox)) : List (List (Option α)) :=
  rows.map fun row => vars.map fun v => (row v.name).map view

/-- Tables of one list of solutions agree where their views of every bound term do. -/
theorem table_eq_iff {α : Type} {view view' : DecodedTerm ox → α} {vars : List VarName}
    {rows : List (Solution ox)} :
    table view vars rows = table view' vars rows ↔
      ∀ row ∈ rows, ∀ v ∈ vars, ∀ t, row v.name = some t → view t = view' t := by
  rw [table, table, List.map_inj_left]
  refine forall₂_congr fun row _ => ?_
  rw [List.map_inj_left]
  refine forall₂_congr fun v _ => ?_
  cases row v.name with
  | none => simp
  | some t => simp

/-- An RDF term: a literal by its value, its tag and its datatype. -/
def DecodedTerm.node : DecodedTerm ox → Node
  | .Iri n => .iri n.as_str
  | .BlankNode b => .blank b.as_str
  | .Literal ⟨.Simple value, _⟩ => .literal value none none
  | .Literal ⟨.LanguageTagged value t, _⟩ => .literal value (some t.as_str) none
  | .Literal ⟨.Typed value dt, _⟩ => .literal value none (some dt.as_str)

/-- The prefix of blank nodes, off as often as it stands there. -/
def trim_bnode : List Char → List Char
  | '_' :: ':' :: cs => trim_bnode cs
  | cs => cs

theorem trim_bnode_suffix (s : List Char) : trim_bnode s <:+ s := by
  induction s using trim_bnode.induct with
  | case1 cs ih =>
    rw [trim_bnode]
    exact ih.trans (List.suffix_append ['_', ':'] cs)
  | case2 cs h =>
    rw [trim_bnode]
    exact h

theorem trim_bnode_eq_iff (s : List Char) : trim_bnode s = s ↔ ¬['_', ':'] <+: s := by
  constructor
  · rintro h ⟨cs, rfl⟩
    have hlen := (trim_bnode_suffix cs).length_le
    have heq := congrArg List.length h
    simp only [List.cons_append, List.nil_append, trim_bnode, List.length_cons] at heq
    omega
  · intro h
    rw [trim_bnode]
    rintro cs rfl
    exact h (List.prefix_append ['_', ':'] cs)

/-- The term with the value of a literal as it stands in its text, still escaped, and with a label
that is written without the prefix. -/
def DecodedTerm.escaped : DecodedTerm ox → Node
  | .Iri n => .iri n.as_str
  | .BlankNode b => .blank (trim_bnode b.as_str)
  | .Literal ⟨.Simple value, _⟩ => .literal (value.flatMap (print_char ox)) none none
  | .Literal ⟨.LanguageTagged value t, _⟩ =>
    .literal (value.flatMap (print_char ox)) (some t.as_str) none
  | .Literal ⟨.Typed value dt, _⟩ =>
    .literal (value.flatMap (print_char ox)) none (some dt.as_str)

/-- The characters that the term library does not print as they are. -/
def escapes (ox : Library) (c : Char) : Bool :=
  ['\x08', '\t', '\n', '\x0C', '\r', '"', '\\'].contains c || ox.numeric c

/-- No character of a literal's value has an escape, and no label starts as a written one. -/
def DecodedTerm.Plain : DecodedTerm ox → Prop
  | .Iri _ => True
  | .BlankNode b => ¬['_', ':'] <+: b.as_str
  | .Literal l => ∀ c ∈ l.lit.value, escapes ox c = false

theorem print_char_eq_iff (c : Char) : print_char ox c = [c] ↔ escapes ox c = false := by
  unfold print_char escapes
  split_ifs with h1 h2 h3 h4 h5 h6 h7 h8 h9
  · simp [h1]
  · simp [h2]
  · simp [h3]
  · simp [h4]
  · simp [h5]
  · simp [h6]
  · simp [h7]
  · simp only [List.cons.injEq, h8, Bool.or_true, Bool.true_eq_false, iff_false]
    rintro ⟨-, h⟩
    cases h
  · simp only [List.cons.injEq, h8, Bool.or_true, Bool.true_eq_false, iff_false]
    rintro ⟨-, h⟩
    cases h
  · simp [h1, h2, h3, h4, h5, h6, h7, h8]

theorem print_char_ne_nil (ox : Library) (c : Char) : print_char ox c ≠ [] := by
  unfold print_char
  split_ifs <;> exact List.cons_ne_nil _ _

theorem length_le_flatMap {f : Char → List Char} (hf : ∀ c, f c ≠ []) (s : List Char) :
    s.length ≤ (s.flatMap f).length := by
  induction s with
  | nil => simp
  | cons c s ih =>
    have hpos := List.length_pos_of_ne_nil (hf c)
    rw [List.flatMap_cons, List.length_append, List.length_cons]
    omega

/-- A text is written as it is only where each of its characters is. -/
theorem flatMap_eq_self_iff {f : Char → List Char} (hf : ∀ c, f c ≠ []) (s : List Char) :
    s.flatMap f = s ↔ ∀ c ∈ s, f c = [c] := by
  induction s with
  | nil => simp
  | cons c s ih =>
    rw [List.flatMap_cons, List.forall_mem_cons]
    constructor
    · intro h
      have hone : (f c).length = 1 := by
        have heq := congrArg List.length h
        have hle := length_le_flatMap hf s
        have hpos := List.length_pos_of_ne_nil (hf c)
        rw [List.length_append, List.length_cons] at heq
        omega
      obtain ⟨d, hd⟩ := List.length_eq_one_iff.mp hone
      rw [hd, List.singleton_append, List.cons.injEq] at h
      rw [hd, h.1]
      exact ⟨rfl, ih.mp h.2⟩
    · rintro ⟨hc, hs⟩
      rw [hc, ih.mpr hs]
      rfl

theorem DecodedTerm.escaped_eq_node_iff (t : DecodedTerm ox) : t.escaped = t.node ↔ t.Plain := by
  have hiff (value : List Char) :
      value.flatMap (print_char ox) = value ↔ ∀ c ∈ value, escapes ox c = false :=
    (flatMap_eq_self_iff (print_char_ne_nil ox) value).trans
      (forall₂_congr fun c _ => print_char_eq_iff c)
  rcases t with n | b | ⟨l, h⟩
  · simp [escaped, node, Plain]
  · rw [escaped, node, Plain, Node.blank.injEq, trim_bnode_eq_iff]
  · cases l with
    | Simple value => simp [escaped, node, Plain, Literal.value, hiff]
    | LanguageTagged value t => simp [escaped, node, Plain, Literal.value, hiff]
    | Typed value dt => simp [escaped, node, Plain, Literal.value, hiff]

/-! ## Serializers -/

structure SelectSerializer where
  State : Type
  start : State
  header : List String → List Char
  chunk : State → List String → List Bindings → List Char × State
  footer : List Char

namespace SelectSerializer

def chunks (ser : SelectSerializer) (st : ser.State) (vars : List String) :
    List (List Bindings) → List Char
  | [] => []
  | rows :: rest =>
    let out := ser.chunk st vars rows
    out.1 ++ ser.chunks out.2 vars rest

def document (ser : SelectSerializer) (vars : List String) (parts : List (List Bindings)) :
    List Char :=
  ser.header vars ++ ser.chunks ser.start vars parts ++ ser.footer

/-- The document in one chunk. -/
def write_select (ser : SelectSerializer) (vars : List String) (rows : List Bindings) :
    List Char :=
  ser.header vars ++ (ser.chunk ser.start vars rows).1 ++ ser.footer

/-- A chunk is its rows one after the other. -/
structure Splits (ser : SelectSerializer) : Prop where
  nil : ∀ st vars, ser.chunk st vars [] = ([], st)
  append : ∀ st vars a b, ser.chunk st vars (a ++ b) =
    ((ser.chunk st vars a).1 ++ (ser.chunk (ser.chunk st vars a).2 vars b).1,
      (ser.chunk (ser.chunk st vars a).2 vars b).2)

theorem Splits.chunks {ser : SelectSerializer} (h : ser.Splits) (st : ser.State)
    (vars : List String) (parts : List (List Bindings)) :
    ser.chunks st vars parts = (ser.chunk st vars parts.flatten).1 := by
  induction parts generalizing st with
  | nil => rw [SelectSerializer.chunks, List.flatten_nil, h.nil]
  | cons rows parts ih => rw [SelectSerializer.chunks, List.flatten_cons, h.append, ih]

/-- The document does not tell how its rows were divided. -/
theorem Splits.document {ser : SelectSerializer} (h : ser.Splits) (vars : List String)
    (parts : List (List Bindings)) :
    ser.document vars parts = ser.write_select vars parts.flatten := by
  rw [SelectSerializer.document, SelectSerializer.write_select, h.chunks]

/-- A serializer without a state, row by row. -/
def stateless (header : List String → List Char) (row : List String → Bindings → List Char)
    (footer : List Char) : SelectSerializer where
  State := Unit
  start := ()
  header := header
  chunk _ vars rows := (rows.flatMap (row vars), ())
  footer := footer

theorem stateless_splits (header : List String → List Char)
    (row : List String → Bindings → List Char) (footer : List Char) :
    (stateless header row footer).Splits where
  nil _ _ := rfl
  append _ vars a b := by simp [stateless]

end SelectSerializer

/-! ## JSON -/

/-- Insertion into a map that is sorted by its keys. -/
def map_insert (k : List Char) (v : Value) : List (List Char × Value) → List (List Char × Value)
  | [] => [(k, v)]
  | (k', v') :: m =>
    if k < k' then (k, v) :: (k', v') :: m
    else if k = k' then (k, v) :: m
    else (k', v') :: map_insert k v m

def parse_literal_to_json (raw : List Char) : Value :=
  let parts := literal_parts raw
  match parts.lang, parts.datatype with
  | some lang, _ =>
    .obj [("type".toList, .str "literal".toList), ("value".toList, .str parts.value),
      ("xml:lang".toList, .str lang)]
  | none, some dt =>
    .obj [("datatype".toList, .str dt), ("type".toList, .str "literal".toList),
      ("value".toList, .str parts.value)]
  | none, none =>
    .obj [("type".toList, .str "literal".toList), ("value".toList, .str parts.value)]

def term_to_json : Term → Value
  | .Iri s => .obj [("type".toList, .str "uri".toList), ("value".toList, .str s.toList)]
  | .BlankNode s =>
    .obj [("type".toList, .str "bnode".toList), ("value".toList, .str (trim_bnode s.toList))]
  | .Literal raw => parse_literal_to_json raw.toList
  | .Var _ =>
    .obj [("type".toList, .str "literal".toList), ("value".toList, .str "<unbound>".toList)]
  | .Triple _ _ _ =>
    .obj [("type".toList, .str "literal".toList),
      ("value".toList, .str "<rdf-12-triple-term unsupported>".toList)]

/-- The object of a row with the binding of one more variable. -/
def insert_binding (row : Bindings) (obj : List (List Char × Value)) (v : String) :
    List (List Char × Value) :=
  match row v with
  | some t => map_insert v.toList (term_to_json t) obj
  | none => obj

def row_to_json (vars : List String) (row : Bindings) : Value :=
  .obj (vars.foldl (insert_binding row) [])

def json_rows (vars : List String) : Bool → List Bindings → List Char × Bool
  | any_rows, [] => ([], any_rows)
  | any_rows, row :: rows =>
    let rest := json_rows vars true rows
    ((if any_rows then [','] else []) ++ HornDb.Lib.Json.print (row_to_json vars row) ++ rest.1,
      rest.2)

def json_serializer : SelectSerializer where
  State := Bool
  start := false
  header vars :=
    "\x7b\"head\":\x7b\"vars\":".toList ++
      HornDb.Lib.Json.print (.arr (vars.map fun v => .str v.toList)) ++
      "\x7d,\"results\":\x7b\"bindings\":[".toList
  chunk any_rows vars rows := json_rows vars any_rows rows
  footer := "]\x7d\x7d".toList

/-! ## XML -/

def xml_text_char (c : Char) : List Char :=
  if c = '&' then "&amp;".toList
  else if c = '<' then "&lt;".toList
  else if c = '>' then "&gt;".toList
  else [c]

def xml_text_escape (s : List Char) : List Char := s.flatMap xml_text_char

def xml_quote_char (c : Char) : List Char := if c = '"' then "&quot;".toList else [c]

def xml_attr_escape (s : List Char) : List Char := (xml_text_escape s).flatMap xml_quote_char

def parse_literal_to_xml (raw : List Char) : List Char :=
  let parts := literal_parts raw
  match parts.lang, parts.datatype with
  | some lang, _ =>
    "<literal xml:lang=\"".toList ++ xml_attr_escape lang ++ "\">".toList ++
      xml_text_escape parts.value ++ "</literal>".toList
  | none, some dt =>
    "<literal datatype=\"".toList ++ xml_attr_escape dt ++ "\">".toList ++
      xml_text_escape parts.value ++ "</literal>".toList
  | none, none => "<literal>".toList ++ xml_text_escape parts.value ++ "</literal>".toList

def term_to_xml : Term → List Char
  | .Iri s => "<uri>".toList ++ xml_text_escape s.toList ++ "</uri>".toList
  | .BlankNode s =>
    "<bnode>".toList ++ xml_text_escape (trim_bnode s.toList) ++ "</bnode>".toList
  | .Literal raw => parse_literal_to_xml raw.toList
  | .Var _ => "<literal></literal>".toList
  | .Triple _ _ _ => "<literal></literal>".toList

def xml_variable (v : String) : List Char :=
  "    <variable name=\"".toList ++ xml_attr_escape v.toList ++ "\"/>\n".toList

def xml_binding (row : Bindings) (v : String) : List Char :=
  match row v with
  | some t =>
    "      <binding name=\"".toList ++ xml_attr_escape v.toList ++ "\">".toList ++
      term_to_xml t ++ "</binding>\n".toList
  | none => []

def xml_row (vars : List String) (row : Bindings) : List Char :=
  "    <result>\n".toList ++ vars.flatMap (xml_binding row) ++ "    </result>\n".toList

def xml_serializer : SelectSerializer :=
  .stateless
    (fun vars =>
      "<?xml version=\"1.0\"?>".toList ++
        "\n<sparql xmlns=\"http://www.w3.org/2005/sparql-results#\">\n".toList ++
        "  <head>\n".toList ++ vars.flatMap xml_variable ++ "  </head>\n".toList ++
        "  <results>\n".toList)
    xml_row
    "  </results>\n</sparql>\n".toList

/-! ## CSV and TSV -/

/-- The texts with a separator between them. -/
def joined (sep : List Char) (texts : List (List Char)) : List Char := sep.intercalate texts

def term_to_lex : Term → List Char
  | .Iri s | .Literal s | .BlankNode s => s.toList
  | .Var name => name.toList
  | .Triple _ _ _ => []

def csv_escape (s : List Char) : List Char :=
  if ',' ∈ s ∨ '"' ∈ s ∨ '\n' ∈ s ∨ '\r' ∈ s then
    '"' :: (s.flatMap (fun c => if c = '"' then ['"', '"'] else [c]) ++ ['"'])
  else s

def csv_cell (row : Bindings) (v : String) : List Char :=
  match row v with
  | none => []
  | some t => csv_escape (term_to_lex t)

def csv_serializer : SelectSerializer :=
  .stateless (fun vars => joined [','] (vars.map String.toList) ++ ['\r', '\n'])
    (fun vars row => joined [','] (vars.map (csv_cell row)) ++ ['\r', '\n']) []

def tsv_term : Term → List Char
  | .Iri s => '<' :: (s.toList ++ ['>'])
  | .BlankNode s => if ['_', ':'].isPrefixOf s.toList then s.toList else '_' :: ':' :: s.toList
  | .Literal s => s.toList
  | .Var name => '?' :: name.toList
  | .Triple _ _ _ => []

def tsv_cell (row : Bindings) (v : String) : List Char :=
  match row v with
  | none => []
  | some t => tsv_term t

def tsv_serializer : SelectSerializer :=
  .stateless (fun vars => joined ['\t'] (vars.map fun v => '?' :: v.toList) ++ ['\n'])
    (fun vars row => joined ['\t'] (vars.map (tsv_cell row)) ++ ['\n']) []

/-- The text of a term, as the executor has it. -/
def DecodedTerm.lex (t : DecodedTerm ox) : List Char := term_to_lex t.to_term

theorem DecodedTerm.lex_iri (n : text.Iri) : (Iri n : DecodedTerm ox).lex = n.as_str :=
  String.toList_ofList (l := n.as_str)

theorem DecodedTerm.lex_bnode (b : Label) : (BlankNode b : DecodedTerm ox).lex = b.as_str :=
  String.toList_ofList (l := b.as_str)

theorem DecodedTerm.lex_literal (l : RdfLiteral ox) : (Literal l).lex = l.lit.to_string :=
  String.toList_ofList (l := l.lit.to_string)

theorem DecodedTerm.lex_ne_nil (t : DecodedTerm ox) : t.lex ≠ [] := by
  cases t with
  | Iri n =>
    rw [lex_iri]
    exact n.nonempty
  | BlankNode b =>
    rw [lex_bnode]
    exact b.nonempty
  | Literal l =>
    rw [lex_literal]
    exact List.cons_ne_nil _ _

/-- The text of a term is one line, without tabs. -/
theorem DecodedTerm.lex_inline (t : DecodedTerm ox) : ∀ c ∈ t.lex, inline_char c = true := by
  cases t with
  | Iri n =>
    rw [lex_iri]
    exact fun c hc => iri_char_inline (n.checked c hc)
  | BlankNode b =>
    rw [lex_bnode]
    exact fun c hc => iri_char_inline (b.checked c hc)
  | Literal l =>
    rw [lex_literal]
    exact to_string_inline l.checked

inductive ResultFormat where
  | Json
  | Xml
  | Csv
  | Tsv
deriving DecidableEq, Repr

def select_serializer : ResultFormat → SelectSerializer
  | .Json => json_serializer
  | .Xml => xml_serializer
  | .Csv => csv_serializer
  | .Tsv => tsv_serializer

theorem json_rows_append (vars : List String) (any : Bool) (a b : List Bindings) :
    json_rows vars any (a ++ b) =
      ((json_rows vars any a).1 ++ (json_rows vars (json_rows vars any a).2 b).1,
        (json_rows vars (json_rows vars any a).2 b).2) := by
  induction a generalizing any with
  | nil => rfl
  | cons row a ih => simp only [List.cons_append, json_rows, ih, List.append_assoc]

theorem select_serializer_splits (fmt : ResultFormat) : (select_serializer fmt).Splits := by
  cases fmt with
  | Json => exact ⟨fun _ _ => rfl, fun any vars a b => json_rows_append vars any a b⟩
  | Xml => exact SelectSerializer.stateless_splits _ _ _
  | Csv => exact SelectSerializer.stateless_splits _ _ _
  | Tsv => exact SelectSerializer.stateless_splits _ _ _

end horndb.sparql.results
