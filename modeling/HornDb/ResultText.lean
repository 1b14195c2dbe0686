-- The lines of a SELECT's TSV and CSV documents, and what readers of the two formats make of
-- them.
import HornDb.Results

open HornDb.Lib.Hex HornDb.Lib.NTriples
open HornDb.Lib.Collect

namespace horndb.sparql.results

open text

variable {ox : Library}

/-! ## The string of a literal's text -/

theorem read_letter_cons {c d : Char} (hu : c ≠ 'u') (hU : c ≠ 'U') (h : read_letter c = some d)
    (cs : List Char) :
    read_string ('\\' :: c :: cs) = (read_string cs).map fun r => (d :: r.1, r.2) := by
  rw [read_string, h, Option.bind_some]
  · exact hu
  · exact hU

theorem read_number_digits {width : Nat} {c : Char} (h : c.toNat < 16 ^ width) :
    read_number (hex_digits width c.toNat) width = some c := by
  rw [read_number, if_pos (length_hex_digits _ _), hex_number_digits _ _ h, Option.bind_some,
    scalar_toNat]

/-- A printed character is read as that character. -/
theorem read_print_char (c : Char) (cs : List Char) :
    read_string (print_char ox c ++ cs) =
      (read_string cs).map fun r => (c :: r.1, r.2) := by
  unfold print_char
  split_ifs with h1 h2 h3 h4 h5 h6 h7 h8 h9
  · rw [h1]
    exact read_letter_cons (by decide) (by decide) rfl cs
  · rw [h2]
    exact read_letter_cons (by decide) (by decide) rfl cs
  · rw [h3]
    exact read_letter_cons (by decide) (by decide) rfl cs
  · rw [h4]
    exact read_letter_cons (by decide) (by decide) rfl cs
  · rw [h5]
    exact read_letter_cons (by decide) (by decide) rfl cs
  · rw [h6]
    exact read_letter_cons (by decide) (by decide) rfl cs
  · rw [h7]
    exact read_letter_cons (by decide) (by decide) rfl cs
  · rw [List.cons_append, List.cons_append, read_string,
      List.take_left' (length_hex_digits 4 _), List.drop_left' (length_hex_digits 4 _),
      read_number_digits h9, Option.bind_some]
  · have hlt : c.toNat < 16 ^ 8 := by
      have hvalid : c.toNat.isValidChar := c.valid
      unfold Nat.isValidChar at hvalid
      omega
    rw [List.cons_append, List.cons_append, read_string,
      List.take_left' (length_hex_digits 8 _), List.drop_left' (length_hex_digits 8 _),
      read_number_digits hlt, Option.bind_some]
  · rw [List.singleton_append, read_string, if_neg]
    · simp [h3, h5, h7]
    · exact h6
    · exact fun _ heq _ => h7 heq
    · exact fun _ heq _ => h7 heq
    · exact fun _ _ heq _ => h7 heq

theorem read_print (value rest : List Char) :
    read_string (value.flatMap (print_char ox) ++ '"' :: rest) = some (value, rest) := by
  induction value with
  | nil => rw [List.flatMap_nil, List.nil_append, read_string]
  | cons c value ih =>
    rw [List.flatMap_cons, List.append_assoc, read_print_char, ih]
    rfl

/-- A word to the end of the text. -/
theorem read_word_whole {word : List Char} (h : ∀ c ∈ word, word_char c = true)
    (hstop : word.getLast? ≠ some '.') : read_word word = (word, []) := by
  have htake : word.takeWhile word_char = word := List.takeWhile_eq_self_iff.mpr h
  have hdrop : word.rdropWhile (· == '.') = word := by
    rw [List.rdropWhile_eq_self_iff]
    intro hne hlast
    rw [beq_iff_eq] at hlast
    exact hstop (by rw [List.getLast?_eq_some_getLast hne, hlast])
  rw [read_word, htake, hdrop, List.drop_length]

theorem tag_char_word {c : Char} (h : tag_char c = true) : word_char c = true ∧ c ≠ '.' := by
  constructor
  · simp only [tag_char, Bool.or_eq_true, Bool.and_eq_true, decide_eq_true_eq, beq_iff_eq] at h
    rw [word_char, decide_eq_true_eq]
    omega
  · rintro rfl
    cases h

theorem iri_char_word {c : Char} (h : iri_char c = true) : word_char c = true := by
  rw [iri_char, Bool.and_eq_true] at h
  exact h.1

theorem read_literal {l : Literal ox} (h : l.Checked) :
    read_node l.to_string = some (DecodedTerm.node (.Literal ⟨l, h⟩), []) := by
  rw [Literal.to_string, print_quoted_str, List.cons_append, List.append_assoc,
    List.singleton_append, read_node, read_print, Option.bind_some]
  cases l with
  | Simple value => rfl
  | LanguageTagged value t =>
    obtain ⟨hne, htag⟩ := ox.language_tag _ _ t.checked
    have hword : read_word t.as_str = (t.as_str, []) := by
      refine read_word_whole (fun c hc => (tag_char_word (htag c hc)).1) fun hlast => ?_
      exact (tag_char_word (htag _ (List.mem_of_getLast? hlast))).2 rfl
    simp only [Literal.suffix, hword, List.isEmpty_eq_false_iff.mpr hne, Bool.false_eq_true,
      if_false]
    rfl
  | Typed value dt =>
    simp only [Literal.suffix, read_iri_plain h [], Option.map_some]
    rfl

/-! ## TSV -/

/-- Labels have no colons in the syntax of Turtle. -/
def in_turtle : Node → Bool
  | .blank label => !label.contains ':'
  | _ => true

/-- A cell: nothing where the variable is unbound, and otherwise a term. -/
def read_tsv_cell (cell : List Char) : Option (Option Node) :=
  if cell = [] then some none
  else
    (read_node cell).bind fun r => if r.2 = [] ∧ in_turtle r.1 then some (some r.1) else none

def read_tsv_name (cell : List Char) : Option (List Char) :=
  match cell with
  | '?' :: name => some name
  | _ => none

/-- The cells of a line. Without variables there is no cell in an empty line. -/
def tsv_cells (width : Nat) (line : List Char) : Option (List (List Char)) :=
  let cells := if width = 0 ∧ line = [] then [] else line.splitOn '\t'
  if cells.length = width then some cells else none

/-- Each line of a document has its end. -/
def ended_lines (doc : List Char) : Option (List (List Char)) :=
  let lines := doc.splitOn '\n'
  if lines.getLast? = some [] then some lines.dropLast else none

def read_tsv (doc : List Char) : Option (List (List Char) × List (List (Option Node))) :=
  (ended_lines doc).bind fun lines =>
  match lines with
  | [] => none
  | header :: rows =>
    ((if header = [] then [] else header.splitOn '\t').mapM read_tsv_name).bind fun vars =>
    (rows.mapM fun line => (tsv_cells vars.length line).bind (·.mapM read_tsv_cell)).map fun rows =>
      (vars, rows)

/-- A label is read as it is where it has no colon. -/
theorem read_tsv_label (b : Label) :
    read_tsv_cell (tsv_term (.BlankNode (String.ofList b.as_str))) = some (some (.blank b.as_str)) ↔
      ':' ∉ b.as_str := by
  rw [tsv_term, String.toList_ofList]
  by_cases hfront : ['_', ':'] <+: b.as_str
  · -- What follows the prefix is shorter than the label.
    rw [if_pos (List.isPrefixOf_iff_prefix.mpr hfront)]
    obtain ⟨cs, hcs⟩ := hfront
    rw [← hcs]
    refine iff_of_false (fun h => ?_) fun h => h (by simp)
    have hlen : (read_word cs).1.length ≤ cs.length :=
      ((List.rdropWhile_prefix _ _).trans (List.takeWhile_prefix _)).length_le
    rw [List.cons_append, List.cons_append, List.nil_append, read_tsv_cell,
      if_neg (List.cons_ne_nil _ _), read_node] at h
    obtain ⟨r, hr, h⟩ := Option.bind_eq_some_iff.mp h
    obtain ⟨-, hr⟩ := Option.ite_none_left_eq_some.mp hr
    obtain ⟨-, h⟩ := Option.ite_none_right_eq_some.mp h
    have heq := Option.some.inj (Option.some.inj h)
    rw [← Option.some.inj hr] at heq
    have hshort := congrArg List.length (Node.blank.inj heq)
    simp only [List.length_cons] at hshort
    omega
  · have hword : read_word b.as_str = (b.as_str, []) :=
      read_word_whole (fun c hc => iri_char_word (b.checked c hc)) b.no_stop
    rw [if_neg (mt List.isPrefixOf_iff_prefix.mp hfront), read_tsv_cell,
      if_neg (List.cons_ne_nil _ _), read_node]
    simp [hword, b.nonempty, in_turtle]

/-- A term whose label, if it has one, is a label in Turtle. -/
def DecodedTerm.Written : DecodedTerm ox → Prop
  | .BlankNode b => ':' ∉ b.as_str
  | _ => True

theorem read_tsv_term (t : DecodedTerm ox) :
    read_tsv_cell (tsv_term t.to_term) = some (some t.node) ↔ t.Written := by
  rcases t with n | b | ⟨l, h⟩
  · refine iff_of_true ?_ trivial
    rw [DecodedTerm.to_term, tsv_term, String.toList_ofList, read_tsv_cell,
      if_neg (List.cons_ne_nil _ _), read_node_plain n.checked]
    rfl
  · exact read_tsv_label b
  · refine iff_of_true ?_ trivial
    rw [DecodedTerm.to_term, tsv_term, String.toList_ofList, read_tsv_cell, if_neg, read_literal h,
      Option.bind_some]
    · cases l <;> rfl
    · exact List.cons_ne_nil _ _

theorem tsv_term_inline (t : DecodedTerm ox) :
    ∀ c ∈ tsv_term t.to_term, inline_char c = true := by
  have hlex := t.lex_inline
  cases t with
  | Iri n =>
    intro c hc
    rcases List.mem_cons.mp hc with rfl | hc
    · rfl
    rcases List.mem_append.mp hc with hc | hc
    · exact hlex c hc
    · rw [List.mem_singleton.mp hc]
      rfl
  | BlankNode b =>
    rw [DecodedTerm.to_term, tsv_term]
    split
    · exact hlex
    · simp only [List.mem_cons]
      rintro c (rfl | rfl | hc)
      · rfl
      · rfl
      · exact hlex c hc
  | Literal l => exact hlex

theorem name_char_inline {c : Char} (h : name_char c = true) : inline_char c = true := by
  rw [inline_char, Bool.and_eq_true, Bool.and_eq_true, bne_iff_ne, bne_iff_ne, bne_iff_ne]
  exact ⟨⟨fun heq => absurd (heq ▸ h) (by decide), fun heq => absurd (heq ▸ h) (by decide)⟩,
    fun heq => absurd (heq ▸ h) (by decide)⟩

theorem flatMap_lines (lines : List (List Char)) :
    (lines.flatMap fun l => l ++ ['\n']) = ['\n'].intercalate (lines ++ [[]]) := by
  induction lines with
  | nil => rfl
  | cons l lines ih =>
    rw [List.flatMap_cons, ih, List.cons_append, List.intercalate_cons_of_ne_nil (by simp),
      List.append_assoc]

/-- The lines of a document come back where none has a line end in it. -/
theorem ended_lines_flatMap {lines : List (List Char)} (h : ∀ l ∈ lines, '\n' ∉ l) :
    ended_lines (lines.flatMap fun l => l ++ ['\n']) = some lines := by
  have hsplit : (lines.flatMap fun l => l ++ ['\n']).splitOn '\n' = lines ++ [[]] := by
    rw [flatMap_lines]
    refine List.splitOn_intercalate '\n' (fun l hl => ?_) (by simp)
    rcases List.mem_append.mp hl with hl | hl
    · exact h l hl
    · rw [List.mem_singleton.mp hl]
      exact List.not_mem_nil
  rw [ended_lines, hsplit]
  simp

theorem tsv_cells_joined {cells : List (List Char)} (h : ∀ cell ∈ cells, '\t' ∉ cell) :
    tsv_cells cells.length (joined ['\t'] cells) = some cells := by
  unfold tsv_cells joined
  cases cells with
  | nil => rfl
  | cons cell cells =>
    simp only [List.length_cons, Nat.add_one_ne_zero, false_and, if_false,
      List.splitOn_intercalate '\t' h (List.cons_ne_nil _ _), if_true]

theorem inline_not_mem {cs : List Char} (h : ∀ c ∈ cs, inline_char c = true) :
    '\t' ∉ cs ∧ '\n' ∉ cs :=
  ⟨fun hin => absurd (h _ hin) (by decide), fun hin => absurd (h _ hin) (by decide)⟩

theorem joined_no_eol {cells : List (List Char)} (h : ∀ cell ∈ cells, '\n' ∉ cell) :
    '\n' ∉ joined ['\t'] cells := by
  induction cells with
  | nil => exact List.not_mem_nil
  | cons cell cells ih =>
    rw [List.forall_mem_cons] at h
    cases cells with
    | nil =>
      rw [joined, List.intercalate_singleton]
      exact h.1
    | cons cell' cells =>
      rw [joined, List.intercalate_cons_cons, ← joined]
      simp [h.1, ih h.2]

/-- The header comes back: an empty one has no cells, since no cell of a header is empty. -/
theorem split_header {names : List (List Char)} (h : ∀ n ∈ names, '\t' ∉ n) (hne : [] ∉ names) :
    (if joined ['\t'] names = [] then [] else (joined ['\t'] names).splitOn '\t') = names := by
  cases names with
  | nil => rfl
  | cons n names =>
    have hsplit : (joined ['\t'] (n :: names)).splitOn '\t' = n :: names :=
      List.splitOn_intercalate '\t' h (List.cons_ne_nil _ _)
    have hfull : joined ['\t'] (n :: names) ≠ [] := by
      intro hnil
      rw [hnil] at hsplit
      exact hne (hsplit ▸ List.mem_cons_self)
    rw [if_neg hfull, hsplit]

/-- The document holds the variables and the terms of the solutions, where each is written. -/
theorem read_tsv_document (vars : List VarName) (rows : List (Solution ox)) :
    read_tsv (tsv_serializer.write_select (vars.map VarName.name)
        (rows.map Solution.bindings)) =
      some (vars.map fun v => v.name.toList, table DecodedTerm.node vars rows) ↔
        ∀ row ∈ rows, ∀ v ∈ vars, ∀ t, row v.name = some t → t.Written := by
  let names := vars.map fun v => '?' :: v.name.toList
  let cells (row : Solution ox) := vars.map fun v => tsv_cell row.bindings v.name
  have hname : ∀ cell ∈ names, '\t' ∉ cell ∧ '\n' ∉ cell := by
    intro cell hcell
    obtain ⟨v, -, rfl⟩ := List.mem_map.mp hcell
    refine inline_not_mem fun c hc => ?_
    rcases List.mem_cons.mp hc with rfl | hc
    · rfl
    · exact name_char_inline (v.checked c hc)
  have hcell (row : Solution ox) : ∀ cell ∈ cells row, '\t' ∉ cell ∧ '\n' ∉ cell := by
    intro cell hcell
    obtain ⟨v, -, rfl⟩ := List.mem_map.mp hcell
    rw [tsv_cell, Solution.bindings]
    cases row v.name with
    | none => exact ⟨List.not_mem_nil, List.not_mem_nil⟩
    | some t => exact inline_not_mem (tsv_term_inline t)
  have hdocument : tsv_serializer.write_select (vars.map VarName.name)
      (rows.map Solution.bindings) =
      (joined ['\t'] names :: rows.map fun row => joined ['\t'] (cells row)).flatMap
        fun l => l ++ ['\n'] := by
    simp [SelectSerializer.write_select, tsv_serializer, SelectSerializer.stateless, names, cells,
      List.flatMap_map, Function.comp_def]
  have hlines : ∀ l ∈ joined ['\t'] names :: rows.map fun row => joined ['\t'] (cells row),
      '\n' ∉ l := by
    rw [List.forall_mem_cons, List.forall_mem_map]
    exact ⟨joined_no_eol fun cell h => (hname cell h).2,
      fun row _ => joined_no_eol fun cell h => (hcell row cell h).2⟩
  have hheader : (if joined ['\t'] names = [] then []
      else (joined ['\t'] names).splitOn '\t').mapM read_tsv_name =
      some (vars.map fun v => v.name.toList) := by
    rw [split_header (fun cell h => (hname cell h).1) (by simp [names]), List.mapM_map]
    exact mapM_some fun v _ => rfl
  have hrows : (rows.map fun row => joined ['\t'] (cells row)).mapM (fun line =>
      (tsv_cells (vars.map fun v => v.name.toList).length line).bind (·.mapM read_tsv_cell)) =
      some (table DecodedTerm.node vars rows) ↔
        ∀ row ∈ rows, ∀ v ∈ vars, ∀ t, row v.name = some t → t.Written := by
    rw [List.mapM_map, table, mapM_some_iff]
    refine forall₂_congr fun row _ => ?_
    have hwidth : (vars.map fun v => v.name.toList).length = (cells row).length := by simp [cells]
    rw [Function.comp, hwidth, tsv_cells_joined fun cell h => (hcell row cell h).1,
      Option.bind_some, List.mapM_map, mapM_some_iff]
    refine forall₂_congr fun v _ => ?_
    rw [Function.comp, tsv_cell, Solution.bindings]
    cases row v.name with
    | none => exact iff_of_true rfl (by simp)
    | some t =>
      refine (read_tsv_term t).trans ⟨fun h u hu => ?_, fun h => h t rfl⟩
      rw [← Option.some.inj hu]
      exact h
  rw [hdocument, read_tsv, ended_lines_flatMap hlines, Option.bind_some, ← hrows]
  simp only [hheader, Option.bind_some]
  rw [Option.map_eq_some_iff]
  constructor
  · rintro ⟨_, hread, heq⟩
    rw [hread, (Prod.mk.inj heq).2]
  · intro hread
    exact ⟨_, hread, rfl⟩

/-! ## CSV -/

/-- Where a reader of CSV stands: before a field, in a plain one, between quotes, after a quote
that may be doubled, or within the end of a line. -/
inductive CsvMode where
  | start
  | plain
  | quoted
  | quote
  | eol
deriving DecidableEq

/-- The records of a text, from the field and the record so far. -/
def read_records (mode : CsvMode) (field : List Char) (record : List (List Char)) :
    List Char → Option (List (List (List Char)))
  | [] =>
    if mode = .quoted ∨ mode = .eol then none
    else if mode = .start ∧ record = [] then some []
    else some [record ++ [field]]
  | c :: cs =>
    if mode = .quoted then
      if c = '"' then read_records .quote field record cs
      else read_records .quoted (field ++ [c]) record cs
    else if mode = .eol then
      if c = '\n' then (read_records .start [] [] cs).map ((record ++ [field]) :: ·) else none
    else if c = ',' then read_records .start [] (record ++ [field]) cs
    else if c = '\r' then read_records .eol field record cs
    else if c = '\n' then none
    else if c = '"' then
      if mode = .start then read_records .quoted [] record cs
      else if mode = .quote then read_records .quoted (field ++ ['"']) record cs
      else none
    else if mode = .quote then none
    else read_records .plain (field ++ [c]) record cs

/-- The fields of a record. Without variables an empty record has none. -/
def csv_fields (width : Nat) (record : List (List Char)) : Option (List (List Char)) :=
  let fields := if width = 0 ∧ record = [[]] then [] else record
  if fields.length = width then some fields else none

/-- An empty field is an unbound variable. -/
def csv_value (field : List Char) : Option (List Char) :=
  if field = [] then none else some field

def read_csv (doc : List Char) : Option (List (List Char) × List (List (Option (List Char)))) :=
  (read_records .start [] [] doc).bind fun records =>
  match records with
  | [] => none
  | header :: rows =>
    let vars := if header = [[]] then [] else header
    (rows.mapM (csv_fields vars.length)).map fun rows => (vars, rows.map (·.map csv_value))

/-- The value of a term in the format: of a literal its value, of a blank node its label with the
prefix. -/
def DecodedTerm.string : DecodedTerm ox → List Char
  | .Iri n => n.as_str
  | .BlankNode b => '_' :: ':' :: b.as_str
  | .Literal l => l.lit.value

theorem read_records_plain {c : Char} (h : c ≠ ',' ∧ c ≠ '"' ∧ c ≠ '\n' ∧ c ≠ '\r')
    {mode : CsvMode} (hmode : mode = .start ∨ mode = .plain) (field : List Char)
    (record : List (List Char)) (cs : List Char) :
    read_records mode field record (c :: cs) = read_records .plain (field ++ [c]) record cs := by
  rcases hmode with rfl | rfl
  · simp [read_records, h]
  · simp [read_records, h]

theorem read_plain_field {s : List Char} (h : ∀ c ∈ s, c ≠ ',' ∧ c ≠ '"' ∧ c ≠ '\n' ∧ c ≠ '\r')
    (field : List Char) (record : List (List Char)) (cs : List Char) :
    read_records .plain field record (s ++ cs) = read_records .plain (field ++ s) record cs := by
  induction s generalizing field with
  | nil => rw [List.nil_append, List.append_nil]
  | cons c s ih =>
    rw [List.forall_mem_cons] at h
    rw [List.cons_append, read_records_plain h.1 (Or.inr rfl), ih h.2, List.append_assoc,
      List.singleton_append]

theorem read_quoted_field (s field : List Char) (record : List (List Char)) (cs : List Char) :
    read_records .quoted field record
        (s.flatMap (fun c => if c = '"' then ['"', '"'] else [c]) ++ '"' :: cs) =
      read_records .quote (field ++ s) record cs := by
  induction s generalizing field with
  | nil => rw [List.flatMap_nil, List.nil_append, List.append_nil]; rfl
  | cons c s ih =>
    rw [List.flatMap_cons]
    by_cases hc : c = '"'
    · rw [if_pos hc, hc, ← List.singleton_append (l := s), ← List.append_assoc, ← ih]
      rfl
    · rw [if_neg hc, ← List.singleton_append (l := s), ← List.append_assoc, ← ih,
        List.singleton_append, List.cons_append]
      simp [read_records, hc]

/-- A field is read as its text, and what follows it may end it. -/
theorem read_field (s : List Char) (record : List (List Char)) :
    ∃ mode, (mode ≠ .quoted ∧ mode ≠ .eol) ∧ ∀ cs,
      read_records .start [] record (csv_escape s ++ cs) = read_records mode s record cs := by
  unfold csv_escape
  split_ifs with h
  · refine ⟨.quote, by simp, fun cs => ?_⟩
    rw [List.cons_append, List.append_assoc, List.singleton_append, ← List.nil_append s,
      ← read_quoted_field, List.nil_append]
    rfl
  · rw [not_or, not_or, not_or] at h
    have hplain : ∀ c ∈ s, c ≠ ',' ∧ c ≠ '"' ∧ c ≠ '\n' ∧ c ≠ '\r' := by
      intro c hc
      exact ⟨ne_of_mem_of_not_mem hc h.1, ne_of_mem_of_not_mem hc h.2.1,
        ne_of_mem_of_not_mem hc h.2.2.1, ne_of_mem_of_not_mem hc h.2.2.2⟩
    cases s with
    | nil => exact ⟨.start, by simp, fun cs => rfl⟩
    | cons c s =>
      rw [List.forall_mem_cons] at hplain
      refine ⟨.plain, by simp, fun cs => ?_⟩
      rw [List.cons_append, read_records_plain hplain.1 (Or.inl rfl), read_plain_field hplain.2]
      rfl

theorem read_comma {mode : CsvMode} (h : mode ≠ .quoted ∧ mode ≠ .eol) (field : List Char)
    (record : List (List Char)) (cs : List Char) :
    read_records mode field record (',' :: cs) =
      read_records .start [] (record ++ [field]) cs := by
  cases mode with
  | start => rfl
  | plain => rfl
  | quoted => exact absurd rfl h.1
  | quote => rfl
  | eol => exact absurd rfl h.2

theorem read_eol {mode : CsvMode} (h : mode ≠ .quoted ∧ mode ≠ .eol) (field : List Char)
    (record : List (List Char)) (cs : List Char) :
    read_records mode field record ('\r' :: '\n' :: cs) =
      (read_records .start [] [] cs).map ((record ++ [field]) :: ·) := by
  cases mode with
  | start => rfl
  | plain => rfl
  | quoted => exact absurd rfl h.1
  | quote => rfl
  | eol => exact absurd rfl h.2

/-- The record of a line of fields. -/
def record_of (texts : List (List Char)) : List (List Char) := if texts = [] then [[]] else texts

theorem read_fields (text : List Char) (texts record : List (List Char)) (cs : List Char) :
    read_records .start [] record
        (joined [','] ((text :: texts).map csv_escape) ++ '\r' :: '\n' :: cs) =
      (read_records .start [] [] cs).map ((record ++ text :: texts) :: ·) := by
  obtain ⟨mode, hmode, hread⟩ := read_field text record
  induction texts generalizing text record mode with
  | nil =>
    rw [List.map_singleton, joined, List.intercalate_singleton, hread, read_eol hmode]
  | cons text' texts ih =>
    obtain ⟨mode', hmode', hread'⟩ := read_field text' (record ++ [text])
    rw [List.map_cons, List.map_cons, joined, List.intercalate_cons_cons, List.append_assoc,
      List.append_assoc, hread, List.singleton_append, read_comma hmode, ← joined, ← List.map_cons,
      ih text' (record ++ [text]) mode' hmode' hread', List.append_assoc, List.singleton_append]

theorem read_line_of_fields (texts : List (List Char)) (cs : List Char) :
    read_records .start [] [] (joined [','] (texts.map csv_escape) ++ '\r' :: '\n' :: cs) =
      (read_records .start [] [] cs).map (record_of texts :: ·) := by
  cases texts with
  | nil => rfl
  | cons text texts =>
    rw [read_fields, record_of, if_neg (List.cons_ne_nil _ _), List.nil_append]

theorem read_lines_of_fields (lines : List (List (List Char))) :
    read_records .start [] []
        (lines.flatMap fun texts => joined [','] (texts.map csv_escape) ++ ['\r', '\n']) =
      some (lines.map record_of) := by
  induction lines with
  | nil => rfl
  | cons texts lines ih =>
    rw [List.flatMap_cons, List.append_assoc, List.cons_append, List.singleton_append,
      read_line_of_fields, ih]
    rfl

theorem csv_fields_record (texts : List (List Char)) :
    csv_fields texts.length (record_of texts) = some texts := by
  cases texts with
  | nil => rfl
  | cons text texts =>
    simp [csv_fields, record_of]

theorem csv_escape_name (v : VarName) : csv_escape v.name.toList = v.name.toList := by
  have hname (c : Char) (h : name_char c = false) : c ∉ v.name.toList := by
    intro hin
    rw [v.checked c hin] at h
    cases h
  rw [csv_escape, if_neg]
  simp only [hname ',' rfl, hname '"' rfl, hname '\n' rfl, hname '\r' rfl, or_self,
    not_false_eq_true]

/-- The document holds the variables and the texts of the terms, as the executor has them. -/
theorem read_csv_document (vars : List VarName) (rows : List (Solution ox)) :
    read_csv (csv_serializer.write_select (vars.map VarName.name)
        (rows.map Solution.bindings)) =
      some (vars.map fun v => v.name.toList, table DecodedTerm.lex vars rows) := by
  let names := vars.map fun v => v.name.toList
  let texts (row : Solution ox) := vars.map fun v => ((row v.name).map DecodedTerm.lex).getD []
  have hcell (row : Solution ox) (v : VarName) :
      csv_cell row.bindings v.name = csv_escape (((row v.name).map DecodedTerm.lex).getD []) := by
    rw [csv_cell, Solution.bindings]
    cases row v.name with
    | none => rfl
    | some t => rfl
  have hdocument : csv_serializer.write_select (vars.map VarName.name)
      (rows.map Solution.bindings) =
      (names :: rows.map texts).flatMap
        fun texts => joined [','] (texts.map csv_escape) ++ ['\r', '\n'] := by
    simp [SelectSerializer.write_select, csv_serializer, SelectSerializer.stateless, names, texts,
      List.flatMap_map, Function.comp_def, csv_escape_name, hcell]
  have hheader : (if record_of names = [[]] then [] else record_of names) = names := by
    have hempty : [] ∉ names := by
      intro h
      obtain ⟨v, -, hv⟩ := List.mem_map.mp h
      exact v.nonempty hv
    unfold record_of
    by_cases h : names = []
    · rw [if_pos h, if_pos rfl, h]
    · have hne : names ≠ [[]] := fun h => hempty (h ▸ List.mem_cons_self)
      rw [if_neg h, if_neg hne]
  have hrows : ((rows.map texts).map record_of).mapM (csv_fields names.length) =
      some (rows.map texts) := by
    rw [List.map_map, List.mapM_map]
    refine mapM_some fun row _ => ?_
    have hwidth : names.length = (texts row).length := by simp [names, texts]
    rw [Function.comp, Function.comp, hwidth, csv_fields_record]
  have hvalues : (rows.map texts).map (·.map csv_value) = table DecodedTerm.lex vars rows := by
    rw [List.map_map, table]
    refine List.map_congr_left fun row _ => ?_
    rw [Function.comp, List.map_map]
    refine List.map_congr_left fun v _ => ?_
    rw [Function.comp]
    cases row v.name with
    | none => rfl
    | some t => exact if_neg t.lex_ne_nil
  rw [hdocument, read_csv, read_lines_of_fields, Option.bind_some]
  simp only [List.map_cons, hheader, hrows, hvalues, Option.map_some]
  rfl

/-- Of the terms only IRIs are written as their values. -/
theorem lex_eq_string_iff (t : DecodedTerm ox) : t.lex = t.string ↔ ∃ n, t = .Iri n := by
  rcases t with n | b | l
  · simp [DecodedTerm.lex_iri, DecodedTerm.string]
  · have hne : b.as_str ≠ '_' :: ':' :: b.as_str := by
      intro h
      have hlen := congrArg List.length h
      rw [List.length_cons, List.length_cons] at hlen
      omega
    simp [DecodedTerm.lex_bnode, DecodedTerm.string, hne]
  · have hle : l.lit.value.length ≤ (l.lit.value.flatMap (print_char ox)).length :=
      length_le_flatMap (print_char_ne_nil ox) l.lit.value
    have hne : l.lit.to_string ≠ l.lit.value := by
      intro h
      have hlen := congrArg List.length h
      simp only [Literal.to_string, print_quoted_str, List.length_append, List.length_cons] at hlen
      omega
    simp [DecodedTerm.lex_literal, DecodedTerm.string, hne]

end horndb.sparql.results
