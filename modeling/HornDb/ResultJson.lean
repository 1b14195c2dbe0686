-- The JSON document of a SELECT: its text is the print of one value, and what a reader of the
-- format makes of that value.
import HornDb.Results

open HornDb.Lib.Json (Value)
open HornDb.Lib.NTriples (Node)
open HornDb.Lib.Collect

namespace horndb.sparql.results

open text

variable {ox : Library}

/-! ## The rules of the format -/

def member (key : String) (j : Value) : Option Value := j.get key.toList

/-- The text of a member that may be left out. -/
def optional_text (key : String) (j : Value) : Option (Option (List Char)) :=
  match member key j with
  | none => some none
  | some v => v.as_str.map some

def read_json_term (j : Value) : Option Node :=
  ((member "type" j).bind Value.as_str).bind fun kind =>
  ((member "value" j).bind Value.as_str).bind fun value =>
  if kind = "uri".toList then some (.iri value)
  else if kind = "bnode".toList then some (.blank value)
  else if kind = "literal".toList then
    (optional_text "xml:lang" j).bind fun lang =>
    (optional_text "datatype" j).map fun dt => .literal value lang dt
  else none

/-- A row: a variable without a member is unbound. -/
def read_json_row (vars : List (List Char)) (j : Value) : Option (List (Option Node)) :=
  vars.mapM fun v =>
    match j.get v with
    | none => some none
    | some t => (read_json_term t).map some

/-- The variables and the rows of a document. -/
def read_json (doc : List Char) : Option (List (List Char) × List (List (Option Node))) :=
  (HornDb.Lib.Json.read doc).bind fun j =>
  (((member "head" j).bind (member "vars")).bind Value.as_array).bind fun names =>
  (names.mapM Value.as_str).bind fun vars =>
  (((member "results" j).bind (member "bindings")).bind Value.as_array).bind fun rows =>
  (rows.mapM (read_json_row vars)).map fun rows => (vars, rows)

/-! ## The value of the document -/

def json_value (vars : List String) (rows : List Bindings) : Value :=
  .obj [("head".toList, .obj [("vars".toList, .arr (vars.map fun v => .str v.toList))]),
    ("results".toList, .obj [("bindings".toList, .arr (rows.map (row_to_json vars)))])]

theorem json_rows_later (vars : List String) (rows : List Bindings) :
    (json_rows vars true rows).1 = HornDb.Lib.Json.print_items (rows.map (row_to_json vars)) := by
  induction rows with
  | nil => rfl
  | cons row rows ih =>
    rw [json_rows, List.map_cons, HornDb.Lib.Json.print_items, ih]
    rfl

theorem json_rows_print (vars : List String) (rows : List Bindings) :
    '[' :: ((json_rows vars false rows).1 ++ [']']) =
      HornDb.Lib.Json.print (.arr (rows.map (row_to_json vars))) := by
  cases rows with
  | nil => rfl
  | cons row rows =>
    rw [json_rows, List.map_cons, HornDb.Lib.Json.print, ← json_rows_later]
    rfl

/-- The document prints one value. -/
theorem json_document (vars : List String) (rows : List Bindings) :
    json_serializer.write_select vars rows =
      HornDb.Lib.Json.print (json_value vars rows) := by
  have hrows := json_rows_print vars rows
  have hhead : HornDb.Lib.Json.print_string "head".toList = ['"', 'h', 'e', 'a', 'd', '"'] := rfl
  have hvars : HornDb.Lib.Json.print_string "vars".toList = ['"', 'v', 'a', 'r', 's', '"'] := rfl
  have hresults : HornDb.Lib.Json.print_string "results".toList =
      ['"', 'r', 'e', 's', 'u', 'l', 't', 's', '"'] := rfl
  have hbindings : HornDb.Lib.Json.print_string "bindings".toList =
      ['"', 'b', 'i', 'n', 'd', 'i', 'n', 'g', 's', '"'] := rfl
  have hopen : "\x7b\"head\":\x7b\"vars\":".toList =
      ['{', '"', 'h', 'e', 'a', 'd', '"', ':', '{', '"', 'v', 'a', 'r', 's', '"', ':'] := rfl
  have hmiddle : "\x7d,\"results\":\x7b\"bindings\":[".toList =
      ['}', ',', '"', 'r', 'e', 's', 'u', 'l', 't', 's', '"', ':', '{', '"', 'b', 'i', 'n', 'd',
        'i', 'n', 'g', 's', '"', ':', '['] := rfl
  have hclose : "]\x7d\x7d".toList = [']', '}', '}'] := rfl
  simp only [json_value, HornDb.Lib.Json.print, HornDb.Lib.Json.print_members, ← hrows, hhead,
    hvars, hresults, hbindings, SelectSerializer.write_select, json_serializer, hopen, hmiddle, hclose,
    List.append_assoc, List.cons_append, List.nil_append, List.append_nil]

/-! ## What is read of it -/

theorem lookup_member (k x : List Char) (v : Value) (m : List (List Char × Value)) :
    ((k, v) :: m).lookup x = if x = k then some v else m.lookup x := by
  rw [List.lookup_cons]
  by_cases h : x = k
  · rw [if_pos h, h, beq_self_eq_true]
  · rw [if_neg h, beq_eq_false_iff_ne.mpr h]

theorem lookup_map_insert (k x : List Char) (v : Value) (m : List (List Char × Value)) :
    (map_insert k v m).lookup x = if x = k then some v else m.lookup x := by
  induction m with
  | nil => exact lookup_member k x v []
  | cons e m ih =>
    obtain ⟨k', v'⟩ := e
    rw [map_insert]
    by_cases hlt : k < k'
    · rw [if_pos hlt, lookup_member]
    · rw [if_neg hlt]
      by_cases heq : k = k'
      · rw [if_pos heq, lookup_member, lookup_member]
        by_cases hx : x = k
        · rw [if_pos hx, if_pos hx]
        · rw [if_neg hx, if_neg hx, if_neg (heq ▸ hx)]
      · rw [if_neg heq, lookup_member, lookup_member, ih]
        by_cases hx : x = k
        · rw [if_neg (hx ▸ heq), if_pos hx, if_pos hx]
        · rw [if_neg hx, if_neg hx]

/-- The members of a row: the bound variables among `vars`. -/
theorem lookup_row (vars : List String) (row : Bindings) (m : List (List Char × Value))
    (v : String) :
    (vars.foldl (insert_binding row) m).lookup v.toList =
      if v ∈ vars ∧ (row v).isSome then (row v).map term_to_json else m.lookup v.toList := by
  induction vars generalizing m with
  | nil => simp
  | cons w vars ih =>
    rw [List.foldl_cons, ih]
    by_cases hv : v ∈ vars ∧ (row v).isSome
    · rw [if_pos hv, if_pos ⟨List.mem_cons_of_mem _ hv.1, hv.2⟩]
    · rw [if_neg hv, insert_binding]
      cases hw : row w with
      | none =>
        rw [if_neg]
        rintro ⟨hmem, hsome⟩
        rcases List.mem_cons.mp hmem with rfl | hmem
        · simp [hw] at hsome
        · exact hv ⟨hmem, hsome⟩
      | some t =>
        simp only [lookup_map_insert, String.toList_inj]
        by_cases hvw : v = w
        · rw [if_pos hvw, hvw, hw, if_pos ⟨List.mem_cons_self, rfl⟩]
          rfl
        · rw [if_neg hvw, if_neg]
          rintro ⟨hmem, hsome⟩
          exact hv ⟨(List.mem_cons.mp hmem).resolve_left hvw, hsome⟩

theorem get_row {vars : List String} {v : String} (hv : v ∈ vars) (row : Bindings) :
    (row_to_json vars row).get v.toList = (row v).map term_to_json := by
  rw [row_to_json, Value.get, lookup_row]
  cases h : row v with
  | none => simp
  | some t => rw [if_pos ⟨hv, rfl⟩]

theorem member_cons (key k : String) (v : Value) (m : List (List Char × Value)) :
    member key (.obj ((k.toList, v) :: m)) = if key = k then some v else member key (.obj m) := by
  rw [member, Value.get, lookup_member]
  simp only [String.toList_inj]
  rfl

theorem member_nil (key : String) : member key (.obj []) = none := rfl

/-- A literal comes back by the parts of its text. -/
theorem read_literal_to_json (raw : List Char) :
    read_json_term (parse_literal_to_json raw) =
      some (.literal (literal_parts raw).value (literal_parts raw).lang
        (if (literal_parts raw).lang.isSome then none else (literal_parts raw).datatype)) := by
  unfold parse_literal_to_json
  dsimp only
  split
  · rename_i lang h
    simp only [h, read_json_term, member_cons, member_nil, Option.bind_some, Value.as_str,
      String.toList_inj, String.reduceEq, if_true, if_false, optional_text, Option.map_some,
      Option.isSome_some]
  · rename_i dt hlang hdt
    simp only [hlang, hdt, read_json_term, member_cons, member_nil, Option.bind_some, Value.as_str,
      String.toList_inj, String.reduceEq, if_true, if_false, optional_text, Option.map_some,
      Option.isSome_none, Bool.false_eq_true]
  · rename_i hlang hdt
    simp only [hlang, hdt, read_json_term, member_cons, member_nil, Option.bind_some, Value.as_str,
      String.toList_inj, String.reduceEq, if_true, if_false, optional_text, Option.map_some,
      Option.isSome_none, Bool.false_eq_true]

/-- A term comes back with its literal escaped. -/
theorem read_term_to_json (t : DecodedTerm ox) :
    read_json_term (term_to_json t.to_term) = some t.escaped := by
  rcases t with n | b | ⟨l, h⟩
  · simp only [DecodedTerm.to_term, term_to_json, DecodedTerm.escaped, read_json_term, member_cons,
      Option.bind_some, Value.as_str, String.toList_ofList, String.toList_inj, String.reduceEq,
      if_true, if_false]
  · simp only [DecodedTerm.to_term, term_to_json, DecodedTerm.escaped, read_json_term, member_cons,
      Option.bind_some, Value.as_str, String.toList_ofList, String.toList_inj, String.reduceEq,
      if_true, if_false]
  · rw [DecodedTerm.to_term, term_to_json, String.toList_ofList, read_literal_to_json,
      l.literal_parts_to_string]
    cases l with
    | Simple value => rfl
    | LanguageTagged value t => rfl
    | Typed value dt => rfl

theorem read_row_to_json (vars : List VarName) (row : Solution ox) :
    read_json_row (vars.map fun v => v.name.toList)
        (row_to_json (vars.map VarName.name) row.bindings) =
      some (vars.map fun v => (row v.name).map DecodedTerm.escaped) := by
  rw [read_json_row, List.mapM_map]
  refine mapM_some fun v hv => ?_
  rw [Function.comp, get_row (List.mem_map_of_mem hv), Solution.bindings]
  cases row v.name with
  | none => rfl
  | some t =>
    simp only [Option.map_some, read_term_to_json]

/-- The document holds the variables and the table of the solutions, with literals escaped. -/
theorem read_json_document (vars : List VarName) (rows : List (Solution ox)) :
    read_json (json_serializer.write_select (vars.map VarName.name)
        (rows.map Solution.bindings)) =
      some (vars.map fun v => v.name.toList, table DecodedTerm.escaped vars rows) := by
  have hvars : ((vars.map VarName.name).map fun v => Value.str v.toList).mapM Value.as_str =
      some (vars.map fun v => v.name.toList) := by
    rw [List.map_map, List.mapM_map]
    exact mapM_some fun v _ => rfl
  have hrows : ((rows.map Solution.bindings).map (row_to_json (vars.map VarName.name))).mapM
        (read_json_row (vars.map fun v => v.name.toList)) =
      some (table DecodedTerm.escaped vars rows) := by
    rw [List.map_map, List.mapM_map]
    exact mapM_some fun row _ => read_row_to_json vars row
  rw [json_document, read_json, HornDb.Lib.Json.read_print, Option.bind_some]
  simp only [json_value, member_cons, String.reduceEq, if_true, if_false, Option.bind_some,
    Value.as_array, hvars, hrows, Option.map_some]

end horndb.sparql.results
