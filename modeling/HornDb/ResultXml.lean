-- The XML document of a SELECT, tag by tag, and what a reader of the format makes of it.
import HornDb.Lib.Xml
import HornDb.Results

open HornDb.Lib.Xml
open HornDb.Lib.NTriples (Node iri_char)

namespace horndb.sparql.results

open text

variable {ox : Library}

/-! ## The rules of the format -/

def attr (key : String) (e : Element) : Option (List Char) := e.attrs.lookup key.toList

def read_xml_term (e : Element) : Option Node :=
  e.only_text.bind fun s =>
  if e.name = "uri".toList then some (.iri s)
  else if e.name = "bnode".toList then some (.blank s)
  else if e.name = "literal".toList then
    some (.literal s (attr "xml:lang" e) (attr "datatype" e))
  else none

/-- The variable of a binding, and its term. -/
def read_xml_binding (e : Element) : Option (List Char × Node) :=
  if e.name = "binding".toList then
    (attr "name" e).bind fun v =>
    e.items.bind fun items =>
    match items with
    | [t] => (read_xml_term t).map fun n => (v, n)
    | _ => none
  else none

/-- A row: a variable without a binding is unbound. -/
def read_xml_row (vars : List (List Char)) (e : Element) : Option (List (Option Node)) :=
  if e.name = "result".toList then
    e.items.bind fun items =>
    (items.mapM read_xml_binding).map fun bindings => vars.map fun v => bindings.lookup v
  else none

def read_xml_variable (e : Element) : Option (List Char) :=
  if e.name = "variable".toList then attr "name" e else none

def namespace_iri : List Char := "http://www.w3.org/2005/sparql-results#".toList

/-- The variables and the rows of a document. -/
def read_xml (doc : List Char) : Option (List (List Char) × List (List (Option Node))) :=
  (HornDb.Lib.Xml.read doc).bind fun root =>
  if root.name = "sparql".toList ∧
      attr "xmlns" root = some namespace_iri then
    root.items.bind fun items =>
    match items with
    | [head, results] =>
      if head.name = "head".toList ∧ results.name = "results".toList then
        head.items.bind fun names =>
        (names.mapM read_xml_variable).bind fun vars =>
        results.items.bind fun rows =>
        (rows.mapM (read_xml_row vars)).map fun rows => (vars, rows)
      else none
    | _ => none
  else none

/-! ## Texts and tags -/

theorem xml_text_char_writes (c : Char) : Writes xml_text_char c := by
  unfold Writes xml_text_char
  split_ifs with h1 h2 h3
  · exact Or.inr ⟨['a', 'm', 'p'], rfl, by rw [h1]; rfl, by simp⟩
  · exact Or.inr ⟨['l', 't'], rfl, by rw [h2]; rfl, by simp⟩
  · exact Or.inr ⟨['g', 't'], rfl, by rw [h3]; rfl, by simp⟩
  · exact Or.inl ⟨rfl, h1, h2, h3⟩

/-- A character in the value of an attribute. -/
def xml_attr_char (c : Char) : List Char := (xml_text_char c).flatMap xml_quote_char

theorem xml_attr_escape_eq (s : List Char) : xml_attr_escape s = s.flatMap xml_attr_char :=
  List.flatMap_assoc

/-- The four characters that an attribute has by their names, and the others as they are. -/
theorem xml_attr_char_cases (c : Char) :
    (c = '&' ∧ xml_attr_char c = ['&', 'a', 'm', 'p', ';']) ∨
    (c = '<' ∧ xml_attr_char c = ['&', 'l', 't', ';']) ∨
    (c = '>' ∧ xml_attr_char c = ['&', 'g', 't', ';']) ∨
    (c = '"' ∧ xml_attr_char c = ['&', 'q', 'u', 'o', 't', ';']) ∨
    ((c ≠ '&' ∧ c ≠ '<' ∧ c ≠ '>' ∧ c ≠ '"') ∧ xml_attr_char c = [c]) := by
  unfold xml_attr_char xml_text_char
  split_ifs with h1 h2 h3
  · exact Or.inl ⟨h1, rfl⟩
  · exact Or.inr (Or.inl ⟨h2, rfl⟩)
  · exact Or.inr (Or.inr (Or.inl ⟨h3, rfl⟩))
  · rw [List.flatMap_singleton, xml_quote_char]
    split_ifs with h4
    · exact Or.inr (Or.inr (Or.inr (Or.inl ⟨h4, rfl⟩)))
    · exact Or.inr (Or.inr (Or.inr (Or.inr ⟨⟨h1, h2, h3, h4⟩, rfl⟩)))

theorem xml_attr_char_writes (c : Char) : Writes xml_attr_char c := by
  rcases xml_attr_char_cases c with ⟨h, heq⟩ | ⟨h, heq⟩ | ⟨h, heq⟩ | ⟨h, heq⟩ | ⟨h, heq⟩
  · exact Or.inr ⟨['a', 'm', 'p'], heq, by rw [h]; rfl, by simp⟩
  · exact Or.inr ⟨['l', 't'], heq, by rw [h]; rfl, by simp⟩
  · exact Or.inr ⟨['g', 't'], heq, by rw [h]; rfl, by simp⟩
  · exact Or.inr ⟨['q', 'u', 'o', 't'], heq, by rw [h]; rfl, by simp⟩
  · exact Or.inl ⟨heq, h.1, h.2.1, h.2.2.1⟩

theorem mem_xml_attr_char {c d : Char} (h : d ∈ xml_attr_char c) :
    d ≠ '"' ∧ (is_space d = true → d = c) := by
  have hnamed {name : List Char} (hname : ∀ d ∈ name, d ≠ '"' ∧ is_space d = false)
      (heq : xml_attr_char c = name) : d ≠ '"' ∧ (is_space d = true → d = c) := by
    rw [heq] at h
    obtain ⟨hquote, hspace⟩ := hname d h
    refine ⟨hquote, fun htrue => ?_⟩
    rw [hspace] at htrue
    cases htrue
  rcases xml_attr_char_cases c with ⟨-, heq⟩ | ⟨-, heq⟩ | ⟨-, heq⟩ | ⟨-, heq⟩ | ⟨hc, heq⟩
  · exact hnamed (by simp [is_space]) heq
  · exact hnamed (by simp [is_space]) heq
  · exact hnamed (by simp [is_space]) heq
  · exact hnamed (by simp [is_space]) heq
  · rw [heq, List.mem_singleton] at h
    rw [h]
    exact ⟨hc.2.2.2, fun _ => rfl⟩

/-- The text of a term is read as it was. -/
theorem reads_text (s : List Char) : ReadsText (xml_text_escape s) s :=
  .of_writes fun c _ => xml_text_char_writes c

/-- The value of an attribute without white space is read as it was. -/
theorem reads_attribute {key s : List Char} (hkey : IsName key)
    (hs : ∀ c ∈ s, is_space c = false) :
    ReadsAttributes (' ' :: (key ++ '=' :: '"' :: (xml_attr_escape s ++ ['"']))) [(key, s)] := by
  rw [xml_attr_escape_eq]
  refine .cons hkey (.of_writes fun c _ => xml_attr_char_writes c) ?_ ?_ .nil List.not_mem_nil
  · intro d hd
    obtain ⟨c, -, hd⟩ := List.mem_flatMap.mp hd
    exact (mem_xml_attr_char hd).1
  · intro d hd hspace
    obtain ⟨c, hc, hd⟩ := List.mem_flatMap.mp hd
    have hfalse := hs c hc
    rw [← (mem_xml_attr_char hd).2 hspace, hspace] at hfalse
    cases hfalse

theorem iri_char_space {c : Char} (h : iri_char c = true) : is_space c = false := by
  simp only [iri_char, Bool.and_eq_true, decide_eq_true_eq] at h
  simp only [is_space, Bool.or_eq_false_iff, beq_eq_false_iff_ne]
  refine ⟨⟨⟨?_, ?_⟩, ?_⟩, ?_⟩ <;>
  · rintro rfl
    exact absurd h.1 (by decide)

theorem tag_char_space {c : Char} (h : tag_char c = true) : is_space c = false := by
  simp only [tag_char, Bool.or_eq_true, Bool.and_eq_true, decide_eq_true_eq, beq_iff_eq] at h
  simp only [is_space, Bool.or_eq_false_iff, beq_eq_false_iff_ne]
  refine ⟨⟨⟨?_, ?_⟩, ?_⟩, ?_⟩ <;>
  · rintro rfl
    exact absurd h (by decide)

/-- An element of one text, without attributes. -/
theorem reads_leaf {name s : List Char} (hname : IsName name) :
    ReadsElement ('<' :: (name ++ '>' :: (xml_text_escape s ++ '<' :: '/' :: (name ++ ['>']))))
      (.mk name [] s []) :=
  .tag hname .nil (reads_text s) .nil

theorem reads_leaf_of {name key value s : List Char} (hname : IsName name) (hkey : IsName key)
    (hvalue : ∀ c ∈ value, is_space c = false) :
    ReadsElement ('<' :: (name ++ (' ' :: (key ++ '=' :: '"' :: (xml_attr_escape value ++ ['"'])) ++
      '>' :: (xml_text_escape s ++ '<' :: '/' :: (name ++ ['>'])))))
      (.mk name [(key, value)] s []) :=
  .tag hname (reads_attribute hkey hvalue) (reads_text s) .nil

theorem is_name {c : Char} {cs : List Char} (hc : in_ranges name_starts c = true)
    (h : (c :: cs).all HornDb.Lib.Xml.name_char = true) : IsName (c :: cs) where
  starts := ⟨c, cs, rfl, hc⟩
  chars := List.all_eq_true.mp h

theorem uri_name : IsName "uri".toList := is_name rfl rfl

theorem bnode_name : IsName "bnode".toList := is_name rfl rfl

theorem literal_name : IsName "literal".toList := is_name rfl rfl

theorem lang_name : IsName "xml:lang".toList := is_name rfl rfl

theorem datatype_name : IsName "datatype".toList := is_name rfl rfl

theorem name_name : IsName "name".toList := is_name rfl rfl

theorem binding_name : IsName "binding".toList := is_name rfl rfl

theorem result_name : IsName "result".toList := is_name rfl rfl

theorem variable_name : IsName "variable".toList := is_name rfl rfl

theorem lookup_single (key k : String) (v : List Char) :
    [(k.toList, v)].lookup key.toList = if key = k then some v else none := by
  rw [List.lookup_cons]
  by_cases h : key = k
  · rw [if_pos h, h, beq_self_eq_true]
  · rw [if_neg h, beq_eq_false_iff_ne.mpr (mt String.toList_inj.mp h)]
    rfl

theorem read_xml_leaf (name : String) (attrs : Attributes) (s : List Char) :
    read_xml_term (.mk name.toList attrs s []) =
      if name = "uri" then some (.iri s)
      else if name = "bnode" then some (.blank s)
      else if name = "literal" then
        some (.literal s (attrs.lookup "xml:lang".toList) (attrs.lookup "datatype".toList))
      else none := by
  simp only [read_xml_term, Element.only_text, Element.name, Option.bind_some, String.toList_inj,
    attr, Element.attrs]

theorem iri_to_xml (n : Iri) : term_to_xml (DecodedTerm.Iri n : DecodedTerm ox).to_term =
    "<uri>".toList ++ xml_text_escape n.as_str ++ "</uri>".toList :=
  congrArg (fun s => "<uri>".toList ++ xml_text_escape s ++ "</uri>".toList)
    (String.toList_ofList (l := n.as_str))

theorem bnode_to_xml (b : Label) : term_to_xml (DecodedTerm.BlankNode b : DecodedTerm ox).to_term =
    "<bnode>".toList ++ xml_text_escape (trim_bnode b.as_str) ++ "</bnode>".toList :=
  congrArg (fun s => "<bnode>".toList ++ xml_text_escape (trim_bnode s) ++ "</bnode>".toList)
    (String.toList_ofList (l := b.as_str))

theorem literal_to_xml (l : RdfLiteral ox) :
    term_to_xml (DecodedTerm.Literal l).to_term = parse_literal_to_xml l.lit.to_string :=
  congrArg parse_literal_to_xml (String.toList_ofList (l := l.lit.to_string))

/-- A term is read with its literal escaped. -/
theorem reads_term (t : DecodedTerm ox) :
    ∃ e, ReadsElement (term_to_xml t.to_term) e ∧ read_xml_term e = some t.escaped := by
  rcases t with n | b | ⟨l, h⟩
  · refine ⟨.mk "uri".toList [] n.as_str [], ?_, ?_⟩
    · rw [iri_to_xml]
      simpa only [String.reduceToList, List.cons_append, List.nil_append] using reads_leaf uri_name
    · rw [read_xml_leaf, if_pos rfl]
      rfl
  · refine ⟨.mk "bnode".toList [] (trim_bnode b.as_str) [], ?_, ?_⟩
    · rw [bnode_to_xml]
      simpa only [String.reduceToList, List.cons_append, List.nil_append] using
        reads_leaf bnode_name
    · rw [read_xml_leaf, if_neg (by decide), if_pos rfl]
      rfl
  · rw [literal_to_xml, parse_literal_to_xml, l.literal_parts_to_string]
    cases l with
    | Simple value =>
      refine ⟨.mk "literal".toList [] (value.flatMap (print_char ox)) [], ?_, ?_⟩
      · simpa only [Literal.parts, String.reduceToList, List.cons_append, List.nil_append] using
          reads_leaf literal_name
      · rw [read_xml_leaf, if_neg (by decide), if_neg (by decide), if_pos rfl]
        rfl
    | LanguageTagged value t =>
      have htag : ∀ c ∈ t.as_str, is_space c = false :=
        fun c hc => tag_char_space ((ox.language_tag _ _ t.checked).2 c hc)
      refine ⟨.mk "literal".toList [("xml:lang".toList, t.as_str)]
        (value.flatMap (print_char ox)) [], ?_, ?_⟩
      · simpa only [Literal.parts, String.reduceToList, List.cons_append, List.nil_append,
          List.append_assoc] using reads_leaf_of literal_name lang_name htag
      · rw [read_xml_leaf, if_neg (by decide), if_neg (by decide), if_pos rfl, lookup_single,
          lookup_single]
        rfl
    | Typed value dt =>
      have hdt : ∀ c ∈ dt.as_str, is_space c = false := fun c hc => iri_char_space (h c hc)
      refine ⟨.mk "literal".toList [("datatype".toList, dt.as_str)]
        (value.flatMap (print_char ox)) [], ?_, ?_⟩
      · simpa only [Literal.parts, String.reduceToList, List.cons_append, List.nil_append,
          List.append_assoc] using reads_leaf_of literal_name datatype_name hdt
      · rw [read_xml_leaf, if_neg (by decide), if_neg (by decide), if_pos rfl, lookup_single,
          lookup_single]
        rfl

/-! ## The document -/

theorem name_char_space {c : Char} (h : name_char c = true) : is_space c = false := by
  simp only [is_space, Bool.or_eq_false_iff, beq_eq_false_iff_ne]
  refine ⟨⟨⟨?_, ?_⟩, ?_⟩, ?_⟩ <;>
  · rintro rfl
    exact absurd h (by decide)

/-- The bound variables of a row, with their terms. -/
def bound (vars : List VarName) (row : Solution ox) : List (VarName × DecodedTerm ox) :=
  vars.filterMap fun v => (row v.name).map fun t => (v, t)

theorem bound_cons (v : VarName) (vars : List VarName) (row : Solution ox) :
    bound (v :: vars) row =
      match row v.name with
      | some t => (v, t) :: bound vars row
      | none => bound vars row := by
  rw [bound, List.filterMap_cons]
  cases row v.name with
  | none => rfl
  | some t => rfl

theorem lookup_bound (vars : List VarName) (row : Solution ox) (v : VarName) :
    ((bound vars row).map fun e => (e.1.name.toList, e.2.escaped)).lookup v.name.toList =
      if v.name ∈ vars.map VarName.name then (row v.name).map DecodedTerm.escaped else none := by
  induction vars with
  | nil => rfl
  | cons w vars ih =>
    rw [bound_cons, List.map_cons]
    by_cases hvw : v.name = w.name
    · rw [if_pos (hvw ▸ List.mem_cons_self), hvw]
      rw [hvw] at ih
      cases hrow : row w.name with
      | some t => simp
      | none =>
        rw [hrow] at ih
        exact ih.trans (ite_self none)
    · have hne : (v.name.toList == w.name.toList) = false :=
        beq_eq_false_iff_ne.mpr (mt String.toList_inj.mp hvw)
      simp only [List.mem_cons, hvw, false_or, ← ih]
      cases row w.name with
      | some t => rw [List.map_cons, List.lookup_cons, hne]
      | none => rfl

/-- The tag of a variable. -/
def variable_text (v : VarName) : List Char :=
  "<variable name=\"".toList ++ xml_attr_escape v.name.toList ++ "\"/>".toList

/-- A binding without the white space around it. -/
def binding_text (e : VarName × DecodedTerm ox) : List Char :=
  "<binding name=\"".toList ++ xml_attr_escape e.1.name.toList ++ "\">".toList ++
    term_to_xml e.2.to_term ++ "</binding>".toList

/-- Elements in lines of their own, before the closing tag. -/
def indented {α : Type} (before after : String) (write : α → List Char) (items : List α) :
    List Char :=
  '\n' :: (items.flatMap (fun x => before.toList ++ (write x ++ ['\n'])) ++ after.toList)

def row_text (vars : List VarName) (row : Solution ox) : List Char :=
  "<result>".toList ++ indented "      " "    " binding_text (bound vars row) ++ "</result>".toList

def head_text (vars : List VarName) : List Char :=
  "<head>".toList ++ indented "    " "  " variable_text vars ++ "</head>".toList

def results_text (vars : List VarName) (rows : List (Solution ox)) : List Char :=
  "<results>".toList ++ indented "    " "  " (row_text vars) rows ++ "</results>".toList

def sparql_text (vars : List VarName) (rows : List (Solution ox)) : List Char :=
  "<sparql xmlns=\"".toList ++ namespace_iri ++ "\">\n  ".toList ++ head_text vars ++
    "\n  ".toList ++ results_text vars rows ++ "\n</sparql>".toList

theorem flatMap_xml_binding (vars : List VarName) (row : Solution ox) :
    (vars.map VarName.name).flatMap (xml_binding row.bindings) =
      (bound vars row).flatMap fun e => "      ".toList ++ (binding_text e ++ ['\n']) := by
  induction vars with
  | nil => rfl
  | cons v vars ih =>
    rw [List.map_cons, List.flatMap_cons, ih, bound_cons, xml_binding, Solution.bindings]
    cases row v.name with
    | none => rfl
    | some t =>
      simp only [Option.map_some, List.flatMap_cons]
      unfold binding_text
      simp only [String.reduceToList]
      simp only [List.append_assoc, List.cons_append, List.nil_append]

theorem xml_row_text (vars : List VarName) (row : Solution ox) :
    xml_row (vars.map VarName.name) row.bindings =
      "    ".toList ++ (row_text vars row ++ ['\n']) := by
  unfold xml_row row_text indented
  simp only [flatMap_xml_binding]
  simp only [String.reduceToList]
  simp only [List.append_assoc, List.cons_append, List.nil_append]

theorem xml_variable_text (v : VarName) :
    xml_variable v.name = "    ".toList ++ (variable_text v ++ ['\n']) := by
  unfold xml_variable variable_text
  simp only [String.reduceToList]
  simp only [List.append_assoc, List.cons_append, List.nil_append]

/-- The document is its declaration and one element. -/
theorem xml_document (vars : List VarName) (rows : List (Solution ox)) :
    xml_serializer.write_select (vars.map VarName.name) (rows.map Solution.bindings) =
      declaration ++ (['\n'] ++ (sparql_text vars rows ++ ['\n'])) := by
  have hvars : (vars.map VarName.name).flatMap xml_variable =
      vars.flatMap fun v => "    ".toList ++ (variable_text v ++ ['\n']) := by
    rw [List.flatMap_map]
    exact List.flatMap_congr fun v _ => xml_variable_text v
  have hrows : (rows.map Solution.bindings).flatMap (xml_row (vars.map VarName.name)) =
      rows.flatMap fun row => "    ".toList ++ (row_text vars row ++ ['\n']) := by
    rw [List.flatMap_map]
    exact List.flatMap_congr fun row _ => xml_row_text vars row
  have hopen : "\n<sparql xmlns=\"http://www.w3.org/2005/sparql-results#\">\n".toList =
      "\n<sparql xmlns=\"".toList ++ (namespace_iri ++ "\">\n".toList) := by decide
  unfold SelectSerializer.write_select xml_serializer SelectSerializer.stateless
  dsimp only
  simp only [hvars, hrows, hopen]
  unfold sparql_text head_text results_text indented declaration
  simp only [String.reduceToList]
  simp only [List.append_assoc, List.cons_append, List.nil_append]

/-! ## What is read of it -/

theorem reads_variable (v : VarName) :
    ∃ e, ReadsElement (variable_text v) e ∧ read_xml_variable e = some v.name.toList := by
  have hname : ∀ c ∈ v.name.toList, is_space c = false :=
    fun c hc => name_char_space (v.checked c hc)
  refine ⟨.mk "variable".toList [("name".toList, v.name.toList)] [] [], ?_, ?_⟩
  · have h := ReadsElement.closed variable_name (reads_attribute name_name hname)
    unfold variable_text
    simp only [String.reduceToList] at h ⊢
    simpa only [List.cons_append, List.nil_append, List.append_assoc] using h
  · rw [read_xml_variable, Element.name, if_pos rfl, attr, Element.attrs, lookup_single, if_pos rfl]

theorem reads_indented {α β : Type} {f : Element → Option β} {g : α → β} {write : α → List Char}
    (before after : String) {items : List α} (hbefore : before.toList.all is_space = true)
    (hafter : after.toList.all is_space = true)
    (h : ∀ x ∈ items, ∃ e, ReadsElement (write x) e ∧ f e = some (g x)) :
    ∃ es, ReadsItems (indented before after write items) es ∧ es.mapM f = some (items.map g) := by
  have heol : ∀ c ∈ ['\n'], is_space c = true := by simp [is_space]
  obtain ⟨es, hes, hmap⟩ := ReadsItems.lines before.toList ['\n'] after.toList
    (List.all_eq_true.mp hbefore) heol (List.all_eq_true.mp hafter) h
  exact ⟨es, .space heol hes, hmap⟩

theorem reads_binding (e : VarName × DecodedTerm ox) :
    ∃ b, ReadsElement (binding_text e) b ∧
      read_xml_binding b = some (e.1.name.toList, e.2.escaped) := by
  obtain ⟨t, ht, hterm⟩ := reads_term e.2
  have hname : ∀ c ∈ e.1.name.toList, is_space c = false :=
    fun c hc => name_char_space (e.1.checked c hc)
  obtain ⟨b, hb, hbname, hattrs, hitems⟩ :=
    ReadsItems.tag binding_name (reads_attribute name_name hname) (.cons ht .nil)
  refine ⟨b, ?_, ?_⟩
  · unfold binding_text
    simp only [String.reduceToList] at hb ⊢
    simpa only [List.cons_append, List.nil_append, List.append_assoc] using hb
  · rw [read_xml_binding, if_pos hbname, attr, hattrs, List.lookup_cons, beq_self_eq_true]
    simp only [Option.bind_some, hitems, hterm, Option.map_some]

theorem reads_row (vars : List VarName) (row : Solution ox) :
    ∃ e, ReadsElement (row_text vars row) e ∧
      read_xml_row (vars.map fun v => v.name.toList) e =
        some (vars.map fun v => (row v.name).map DecodedTerm.escaped) := by
  obtain ⟨es, hes, hmap⟩ := reads_indented "      " "    " rfl rfl
    fun e (_ : e ∈ bound vars row) => reads_binding e
  obtain ⟨e, he, hname, -, hitems⟩ := ReadsItems.tag result_name .nil hes
  refine ⟨e, ?_, ?_⟩
  · unfold row_text
    simp only [String.reduceToList] at he ⊢
    simpa only [List.cons_append, List.nil_append, List.append_assoc] using he
  · rw [read_xml_row, if_pos hname, hitems, Option.bind_some, hmap, Option.map_some, List.map_map]
    refine congrArg some (List.map_congr_left fun v hv => ?_)
    rw [Function.comp, lookup_bound, if_pos (List.mem_map_of_mem hv)]

theorem head_name : IsName "head".toList := is_name rfl rfl

theorem results_name : IsName "results".toList := is_name rfl rfl

theorem sparql_name : IsName "sparql".toList := is_name rfl rfl

theorem xmlns_name : IsName "xmlns".toList := is_name rfl rfl

theorem reads_sparql (vars : List VarName) (rows : List (Solution ox)) :
    ∃ e, ReadsElement (sparql_text vars rows) e ∧ e.name = "sparql".toList ∧
      attr "xmlns" e = some namespace_iri ∧
      ∃ head names results es, e.items = some [head, results] ∧ head.name = "head".toList ∧
        results.name = "results".toList ∧ head.items = some names ∧
        names.mapM read_xml_variable = some (vars.map fun v => v.name.toList) ∧
        results.items = some es ∧
        es.mapM (read_xml_row (vars.map fun v => v.name.toList)) =
          some (table DecodedTerm.escaped vars rows) := by
  obtain ⟨names, hnames, hvars⟩ := reads_indented "    " "  " rfl rfl
    fun v (_ : v ∈ vars) => reads_variable v
  obtain ⟨es, hes, hrows⟩ := reads_indented "    " "  " rfl rfl
    fun row (_ : row ∈ rows) => reads_row vars row
  obtain ⟨head, hhead, hheadname, -, hheaditems⟩ := ReadsItems.tag head_name .nil hnames
  obtain ⟨results, hresults, hresultsname, -, hresultsitems⟩ := ReadsItems.tag results_name .nil hes
  have hiri : ∀ c ∈ namespace_iri, is_space c = false := by
    have hall : namespace_iri.all (fun c => !is_space c) = true := by decide
    intro c hc
    simpa using List.all_eq_true.mp hall c hc
  have hitems :
      ReadsItems ("\n  ".toList ++ (_ ++ ("\n  ".toList ++ (_ ++ ("\n".toList ++ []))))) _ :=
    .space (by simp [is_space]) (.cons hhead (.space (by simp [is_space]) (.cons hresults
      (.space (by simp [is_space]) .nil))))
  obtain ⟨e, he, hname, hattrs, heitems⟩ :=
    ReadsItems.tag sparql_name (reads_attribute xmlns_name hiri) hitems
  refine ⟨e, ?_, hname, ?_, head, names, results, es, heitems, hheadname, hresultsname, hheaditems,
    hvars, hresultsitems, hrows⟩
  · have hescape : xml_attr_escape namespace_iri = namespace_iri := by decide
    rw [hescape] at he
    unfold sparql_text head_text results_text
    simp only [String.reduceToList] at he ⊢
    simpa only [List.cons_append, List.nil_append, List.append_nil, List.append_assoc] using he
  · rw [attr, hattrs, List.lookup_cons, beq_self_eq_true]

/-! ## The characters of the document -/

/-- The characters that the tags and the names of references have. -/
def tag_text_char (c : Char) : Bool := c == '\n' || (0x20 ≤ c.toNat && c.toNat ≤ 0x7E)

section

-- What holds of the characters of tags and of variables' names.
variable {p : Char → Prop} (htag : ∀ c, tag_text_char c = true → p c)
  (hname : ∀ c, name_char c = true → p c)

include htag

theorem forall_fixed {s : String} (h : s.toList.all tag_text_char = true) :
    ∀ c ∈ s.toList, p c :=
  fun c hc => htag c (List.all_eq_true.mp h c hc)

theorem forall_between {a b : String} (ha : a.toList.all tag_text_char = true)
    (hb : b.toList.all tag_text_char = true) (mid : List Char) :
    (∀ c ∈ a.toList ++ mid ++ b.toList, p c) ↔ ∀ c ∈ mid, p c := by
  rw [List.forall_mem_append, List.forall_mem_append]
  exact ⟨fun h => h.1.2, fun h => ⟨⟨forall_fixed htag ha, h⟩, forall_fixed htag hb⟩⟩

theorem forall_indented {α : Type} {before after : String} {write : α → List Char}
    {items : List α} (hbefore : before.toList.all tag_text_char = true)
    (hafter : after.toList.all tag_text_char = true) :
    (∀ c ∈ indented before after write items, p c) ↔ ∀ x ∈ items, ∀ c ∈ write x, p c := by
  rw [indented, List.forall_mem_cons, List.forall_mem_append, List.forall_mem_flatMap]
  constructor
  · intro h x hx c hc
    exact h.2.1 x hx c (List.mem_append_right _ (List.mem_append_left _ hc))
  · intro h
    refine ⟨htag _ rfl, fun x hx => ?_, forall_fixed htag hafter⟩
    rw [List.forall_mem_append, List.forall_mem_append]
    exact ⟨forall_fixed htag hbefore, h x hx, by simpa using htag '\n' rfl⟩

theorem forall_text_escape (s : List Char) :
    (∀ c ∈ xml_text_escape s, p c) ↔ ∀ c ∈ s, p c := by
  rw [xml_text_escape, List.forall_mem_flatMap]
  refine forall₂_congr fun c _ => ?_
  unfold xml_text_char
  split_ifs with h1 h2 h3
  · exact ⟨fun _ => htag c (by rw [h1]; rfl), fun _ => forall_fixed htag rfl⟩
  · exact ⟨fun _ => htag c (by rw [h2]; rfl), fun _ => forall_fixed htag rfl⟩
  · exact ⟨fun _ => htag c (by rw [h3]; rfl), fun _ => forall_fixed htag rfl⟩
  · rw [List.forall_mem_singleton]

theorem forall_attr_escape (s : List Char) :
    (∀ c ∈ xml_attr_escape s, p c) ↔ ∀ c ∈ s, p c := by
  rw [xml_attr_escape, List.forall_mem_flatMap, ← forall_text_escape htag s]
  refine forall₂_congr fun c _ => ?_
  unfold xml_quote_char
  split_ifs with h
  · exact ⟨fun _ => htag c (by rw [h]; rfl), fun _ => forall_fixed htag rfl⟩
  · rw [List.forall_mem_singleton]

/-- A literal's element has the characters of the literal's text. -/
theorem forall_literal (l : RdfLiteral ox) :
    (∀ c ∈ parse_literal_to_xml l.lit.to_string, p c) ↔ ∀ c ∈ l.lit.to_string, p c := by
  obtain ⟨l, -⟩ := l
  have hquoted : (∀ c ∈ print_quoted_str ox l.value, p c) ↔
      ∀ c ∈ l.value.flatMap (print_char ox), p c := by
    rw [print_quoted_str, List.forall_mem_cons, List.forall_mem_append, List.forall_mem_singleton]
    exact ⟨fun h => h.2.1, fun h => ⟨htag _ rfl, h, htag _ rfl⟩⟩
  have hof (key : String) (value : List Char)
      (hkey : ("<literal ".toList ++ key.toList ++ "=\"".toList).all tag_text_char = true) :
      (∀ c ∈ ("<literal ".toList ++ key.toList ++ "=\"".toList) ++ xml_attr_escape value ++
        "\">".toList ++ xml_text_escape (l.value.flatMap (print_char ox)) ++ "</literal>".toList,
        p c) ↔ (∀ c ∈ l.value.flatMap (print_char ox), p c) ∧ ∀ c ∈ value, p c := by
    rw [List.forall_mem_append, List.forall_mem_append, List.forall_mem_append,
      List.forall_mem_append, forall_attr_escape htag, forall_text_escape htag]
    constructor
    · intro h
      exact ⟨h.1.2, h.1.1.1.2⟩
    · intro h
      exact ⟨⟨⟨⟨fun c hc => htag c (List.all_eq_true.mp hkey c hc), h.2⟩, forall_fixed htag rfl⟩,
        h.1⟩, forall_fixed htag rfl⟩
  rw [parse_literal_to_xml, l.literal_parts_to_string, Literal.to_string, List.forall_mem_append,
    hquoted]
  cases l with
  | Simple value =>
    have h := forall_between htag (a := "<literal>") (b := "</literal>") rfl rfl
      (xml_text_escape (value.flatMap (print_char ox)))
    refine (h.trans (forall_text_escape htag _)).trans ?_
    exact ⟨fun h => ⟨h, by simp [Literal.suffix]⟩, fun h => h.1⟩
  | LanguageTagged value t =>
    refine (hof "xml:lang" t.as_str rfl).trans (and_congr_right fun _ => ?_)
    rw [Literal.suffix, List.forall_mem_cons]
    exact ⟨fun h => ⟨htag _ rfl, h⟩, fun h => h.2⟩
  | Typed value dt =>
    refine (hof "datatype" dt.as_str rfl).trans (and_congr_right fun _ => ?_)
    rw [Literal.suffix, List.forall_mem_cons, List.forall_mem_cons, List.forall_mem_cons,
      List.forall_mem_append, List.forall_mem_singleton]
    exact ⟨fun h => ⟨htag _ rfl, htag _ rfl, htag _ rfl, h, htag _ rfl⟩, fun h => h.2.2.2.1⟩

/-- The prefix of a label has characters of tags only. -/
theorem forall_trim_bnode (s : List Char) : (∀ c ∈ trim_bnode s, p c) ↔ ∀ c ∈ s, p c := by
  induction s using trim_bnode.induct with
  | case1 cs ih =>
    rw [trim_bnode, ih, List.forall_mem_cons, List.forall_mem_cons]
    exact ⟨fun h => ⟨htag _ rfl, htag _ rfl, h⟩, fun h => h.2.2⟩
  | case2 cs h =>
    rw [trim_bnode]
    exact h

theorem forall_term (t : DecodedTerm ox) :
    (∀ c ∈ term_to_xml t.to_term, p c) ↔ ∀ c ∈ t.lex, p c := by
  rcases t with n | b | l
  · rw [iri_to_xml, DecodedTerm.lex_iri]
    exact (forall_between htag (by decide) (by decide) _).trans
      (forall_text_escape htag _)
  · rw [bnode_to_xml, DecodedTerm.lex_bnode]
    exact (forall_between htag (by decide) (by decide) _).trans
      ((forall_text_escape htag _).trans (forall_trim_bnode htag _))
  · rw [literal_to_xml, DecodedTerm.lex_literal, forall_literal htag]

include hname

theorem forall_variable_text (v : VarName) : ∀ c ∈ variable_text v, p c := by
  refine (forall_between htag (by decide) (by decide) _).mpr ?_
  exact (forall_attr_escape htag _).mpr fun c hc => hname c (v.checked c hc)

theorem forall_binding_text (e : VarName × DecodedTerm ox) :
    (∀ c ∈ binding_text e, p c) ↔ ∀ c ∈ e.2.lex, p c := by
  have hopen : ∀ c ∈ "<binding name=\"".toList ++ xml_attr_escape e.1.name.toList ++ "\">".toList,
      p c := by
    refine (forall_between htag (by decide) (by decide) _).mpr ?_
    exact (forall_attr_escape htag _).mpr fun c hc => hname c (e.1.checked c hc)
  unfold binding_text
  rw [List.forall_mem_append, List.forall_mem_append, forall_term htag]
  constructor
  · intro h
    exact h.1.2
  · intro h
    exact ⟨⟨hopen, h⟩, forall_fixed htag (by decide)⟩

theorem forall_row_text (vars : List VarName) (row : Solution ox) :
    (∀ c ∈ row_text vars row, p c) ↔
      ∀ v ∈ vars, ∀ t, row v.name = some t → ∀ c ∈ t.lex, p c := by
  refine (forall_between htag (by decide) (by decide) _).trans ?_
  refine (forall_indented htag (by decide) (by decide)).trans ?_
  simp only [forall_binding_text htag hname, bound, List.mem_filterMap, Option.map_eq_some_iff]
  constructor
  · intro h v hv t ht
    exact h (v, t) ⟨v, hv, t, ht, rfl⟩
  · rintro h _ ⟨v, hv, t, ht, rfl⟩
    exact h v hv t ht

/-- The document has the characters of the terms and those of tags and names. -/
theorem forall_document (vars : List VarName) (rows : List (Solution ox)) :
    (∀ c ∈ xml_serializer.write_select (vars.map VarName.name) (rows.map Solution.bindings), p c) ↔
      ∀ row ∈ rows, ∀ v ∈ vars, ∀ t, row v.name = some t → ∀ c ∈ t.lex, p c := by
  have hhead : ∀ c ∈ head_text vars, p c := by
    refine (forall_between htag (by decide) (by decide) _).mpr ?_
    refine (forall_indented htag (by decide) (by decide)).mpr ?_
    exact fun v _ => forall_variable_text htag hname v
  have hresults : (∀ c ∈ results_text vars rows, p c) ↔
      ∀ row ∈ rows, ∀ v ∈ vars, ∀ t, row v.name = some t → ∀ c ∈ t.lex, p c := by
    refine (forall_between htag (by decide) (by decide) _).trans ?_
    refine (forall_indented htag (by decide) (by decide)).trans ?_
    exact forall₂_congr fun row _ => forall_row_text htag hname vars row
  have heol : ∀ c ∈ ['\n'], p c := by simpa using htag '\n' rfl
  have hiri : ∀ c ∈ namespace_iri, p c := forall_fixed htag (by decide)
  have hdeclaration : ∀ c ∈ declaration, p c := forall_fixed htag (by decide)
  have hopen : ∀ c ∈ "<sparql xmlns=\"".toList ++ namespace_iri ++ "\">\n  ".toList, p c :=
    (forall_between htag (by decide) (by decide) _).mpr hiri
  rw [xml_document]
  unfold sparql_text
  simp only [List.forall_mem_append] at hopen ⊢
  constructor
  · intro h
    exact hresults.mp h.2.2.1.1.2
  · intro h
    exact ⟨hdeclaration, heol, ⟨⟨⟨⟨hopen, hhead⟩, forall_fixed htag (by decide)⟩,
      hresults.mpr h⟩, forall_fixed htag (by decide)⟩, heol⟩

end

theorem tag_text_char_legal (c : Char) (h : tag_text_char c = true) : legal_char c = true := by
  simp only [tag_text_char, Bool.or_eq_true, beq_iff_eq, Bool.and_eq_true, decide_eq_true_eq] at h
  simp only [legal_char, Bool.or_eq_true, beq_iff_eq, Bool.and_eq_true, decide_eq_true_eq]
  rcases h with h | h
  · exact Or.inl (Or.inl (Or.inl (Or.inr h)))
  · omega

theorem name_char_legal (c : Char) (h : name_char c = true) : legal_char c = true := by
  simp only [name_char, Bool.or_eq_true, beq_iff_eq, Bool.and_eq_true, decide_eq_true_eq] at h
  simp only [legal_char, Bool.or_eq_true, beq_iff_eq, Bool.and_eq_true, decide_eq_true_eq]
  rcases h with ((((h | h) | h) | rfl) | h) | h
  · omega
  · omega
  · omega
  · decide
  · omega
  · omega

/-- The characters of the term's text may stand in XML. -/
def DecodedTerm.Legal (t : DecodedTerm ox) : Prop := ∀ c ∈ t.lex, legal_char c = true

theorem read_xml_document {vars : List VarName} {rows : List (Solution ox)}
    (h : ∀ row ∈ rows, ∀ v ∈ vars, ∀ t, row v.name = some t → t.Legal) :
    read_xml (xml_serializer.write_select (vars.map VarName.name)
        (rows.map Solution.bindings)) =
      some (vars.map fun v => v.name.toList, table DecodedTerm.escaped vars rows) := by
  have hlegal := (forall_document tag_text_char_legal name_char_legal vars rows).mpr h
  have hline := (forall_document (p := fun c => c ≠ '\r')
    (fun c hc => by rintro rfl; cases hc) (fun c hc => by rintro rfl; cases hc) vars rows).mpr
      fun row _ v _ t _ c hc => by
        rintro rfl
        exact absurd (t.lex_inline _ hc) (by decide)
  obtain ⟨e, he, hename, hxmlns, head, names, results, es, hitems, hhead, hresults, hheaditems,
    hnames, hresultsitems, hrows⟩ := reads_sparql vars rows
  rw [xml_document] at hlegal hline ⊢
  rw [read_xml, read_of he (by simp [is_space]) (by simp [is_space]) hlegal hline, Option.bind_some,
    if_pos ⟨hename, hxmlns⟩, hitems, Option.bind_some]
  dsimp only
  rw [if_pos ⟨hhead, hresults⟩, hheaditems, Option.bind_some, hnames, Option.bind_some,
    hresultsitems, Option.bind_some, hrows, Option.map_some]

/-- A document that is read has legal terms only. -/
theorem legal_of_read_xml {vars : List VarName} {rows : List (Solution ox)}
    {r : List (List Char) × List (List (Option Node))}
    (h : read_xml (xml_serializer.write_select (vars.map VarName.name)
      (rows.map Solution.bindings)) = some r) :
    ∀ row ∈ rows, ∀ v ∈ vars, ∀ t, row v.name = some t → t.Legal := by
  obtain ⟨e, he, -⟩ := Option.bind_eq_some_iff.mp h
  exact (forall_document tag_text_char_legal name_char_legal vars rows).mp (legal_of_read he)

end horndb.sparql.results
