-- What a client gets of a SELECT: when its document, read by the rules of its format, gives the
-- solutions back.
import HornDb.ResultJson
import HornDb.ResultText
import HornDb.ResultXml

namespace horndb.sparql.results

open text

variable {ox : Library}

/-- The document of the rows as they were divided. -/
def document_of (fmt : ResultFormat) (vars : List VarName) (parts : List (List (Solution ox))) :
    List Char :=
  (select_serializer fmt).document (vars.map VarName.name)
    (parts.map fun rows => rows.map Solution.bindings)

/-- Read by the rules of the format, the document has the variables and the solutions: as terms,
and in CSV as strings. -/
def GivesBack (fmt : ResultFormat) (vars : List VarName) (rows : List (Solution ox))
    (doc : List Char) : Prop :=
  let names := vars.map fun v => v.name.toList
  match fmt with
  | .Json => read_json doc = some (names, table DecodedTerm.node vars rows)
  | .Xml => read_xml doc = some (names, table DecodedTerm.node vars rows)
  | .Csv => read_csv doc = some (names, table DecodedTerm.string vars rows)
  | .Tsv => read_tsv doc = some (names, table DecodedTerm.node vars rows)

/-- The document gives the solutions back, and does not tell how they were divided. -/
def Faithful (fmt : ResultFormat) (vars : List VarName)
    (parts : List (List (Solution ox))) : Prop :=
  GivesBack fmt vars parts.flatten (document_of fmt vars parts) ∧
    ∀ parts' : List (List (Solution ox)), parts'.flatten = parts.flatten →
      document_of fmt vars parts' = document_of fmt vars parts

/-- The terms that a format keeps. -/
def Keeps (fmt : ResultFormat) (t : DecodedTerm ox) : Prop :=
  match fmt with
  | .Json => t.Plain
  | .Xml => t.Plain ∧ t.Legal
  | .Csv => ∃ n, t = .Iri n
  | .Tsv => t.Written

theorem document_of_flatten (fmt : ResultFormat) (vars : List VarName)
    (parts : List (List (Solution ox))) :
    document_of fmt vars parts =
      (select_serializer fmt).write_select (vars.map VarName.name)
        (parts.flatten.map Solution.bindings) := by
  rw [document_of, (select_serializer_splits fmt).document, List.map_flatten]

theorem gives_back_json_iff (vars : List VarName) (rows : List (Solution ox)) :
    GivesBack .Json vars rows (json_serializer.write_select (vars.map VarName.name)
      (rows.map Solution.bindings)) ↔
      ∀ row ∈ rows, ∀ v ∈ vars, ∀ t, row v.name = some t → t.Plain := by
  have htable : table DecodedTerm.escaped vars rows = table DecodedTerm.node vars rows ↔
      ∀ row ∈ rows, ∀ v ∈ vars, ∀ t, row v.name = some t → t.Plain := by
    simp only [table_eq_iff, DecodedTerm.escaped_eq_node_iff]
  rw [← htable, GivesBack]
  rw [read_json_document, Option.some_inj, Prod.mk.injEq]
  exact and_iff_right rfl

theorem gives_back_xml_iff (vars : List VarName) (rows : List (Solution ox)) :
    GivesBack .Xml vars rows (xml_serializer.write_select (vars.map VarName.name)
      (rows.map Solution.bindings)) ↔
      ∀ row ∈ rows, ∀ v ∈ vars, ∀ t, row v.name = some t → t.Plain ∧ t.Legal := by
  have htable : table DecodedTerm.escaped vars rows = table DecodedTerm.node vars rows ↔
      ∀ row ∈ rows, ∀ v ∈ vars, ∀ t, row v.name = some t → t.Plain := by
    simp only [table_eq_iff, DecodedTerm.escaped_eq_node_iff]
  rw [GivesBack]
  constructor
  · intro h
    have hlegal := legal_of_read_xml h
    rw [read_xml_document hlegal, Option.some_inj, Prod.mk.injEq] at h
    exact fun row hrow v hv t ht => ⟨htable.mp h.2 row hrow v hv t ht, hlegal row hrow v hv t ht⟩
  · intro h
    rw [read_xml_document fun row hrow v hv t ht => (h row hrow v hv t ht).2,
      htable.mpr fun row hrow v hv t ht => (h row hrow v hv t ht).1]

theorem gives_back_csv_iff (vars : List VarName) (rows : List (Solution ox)) :
    GivesBack .Csv vars rows (csv_serializer.write_select (vars.map VarName.name)
      (rows.map Solution.bindings)) ↔
      ∀ row ∈ rows, ∀ v ∈ vars, ∀ t, row v.name = some t → ∃ n, t = .Iri n := by
  have htable : table DecodedTerm.lex vars rows = table DecodedTerm.string vars rows ↔
      ∀ row ∈ rows, ∀ v ∈ vars, ∀ t, row v.name = some t → ∃ n, t = .Iri n := by
    simp only [table_eq_iff, lex_eq_string_iff]
  rw [← htable, GivesBack]
  rw [read_csv_document, Option.some_inj, Prod.mk.injEq]
  exact and_iff_right rfl

def x : VarName where
  name := "x"
  nonempty := by decide
  checked := List.all_eq_true.mp rfl

/-- One solution: a literal whose value is a quote. -/
def quote_row : Solution ascii := fun v =>
  if v = "x" then some (.Literal ⟨.Simple ['"'], trivial⟩) else none

end horndb.sparql.results
