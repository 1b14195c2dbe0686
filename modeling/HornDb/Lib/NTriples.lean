-- N-Triples: which texts are documents, and the triples that a document holds.
import HornDb.Lib.Hex

open HornDb.Lib.Hex

namespace HornDb.Lib.NTriples

/-- A term. A literal keeps its value, without escapes, and its tag or datatype. -/
inductive Node where
  | iri (s : List Char)
  | blank (label : List Char)
  | literal (value : List Char) (lang datatype : Option (List Char))
deriving DecidableEq, Repr

abbrev Triple := Node × Node × Node

/-! ## Reading -/

/-- The characters that an IRI may have as they are. -/
def iri_char (c : Char) : Bool :=
  0x20 < c.toNat && !(['<', '>', '"', '{', '}', '|', '^', '\x60', '\\'].contains c)

/-- The character that an escape by number stands for. -/
def read_number (hex : List Char) (width : Nat) : Option Char :=
  if hex.length = width then (hex_number 0 hex).bind scalar else none

def read_letter (c : Char) : Option Char :=
  if c = 't' then some '\t'
  else if c = 'b' then some '\x08'
  else if c = 'n' then some '\n'
  else if c = 'r' then some '\r'
  else if c = 'f' then some '\x0C'
  else if c = '"' then some '"'
  else if c = '\'' then some '\''
  else if c = '\\' then some '\\'
  else none

/-- An IRI after its opening bracket, and what follows it. -/
def read_iri : List Char → Option (List Char × List Char)
  | [] => none
  | '>' :: cs => some ([], cs)
  | '\\' :: 'u' :: cs =>
    (read_number (cs.take 4) 4).bind fun c => (read_iri (cs.drop 4)).map fun r => (c :: r.1, r.2)
  | '\\' :: 'U' :: cs =>
    (read_number (cs.take 8) 8).bind fun c => (read_iri (cs.drop 8)).map fun r => (c :: r.1, r.2)
  | c :: cs => if iri_char c then (read_iri cs).map fun r => (c :: r.1, r.2) else none
termination_by cs => cs.length

/-- A string after its opening quote, and what follows it. -/
def read_string : List Char → Option (List Char × List Char)
  | [] => none
  | '"' :: cs => some ([], cs)
  | '\\' :: 'u' :: cs =>
    (read_number (cs.take 4) 4).bind fun c =>
      (read_string (cs.drop 4)).map fun r => (c :: r.1, r.2)
  | '\\' :: 'U' :: cs =>
    (read_number (cs.take 8) 8).bind fun c =>
      (read_string (cs.drop 8)).map fun r => (c :: r.1, r.2)
  | '\\' :: c :: cs =>
    (read_letter c).bind fun d => (read_string cs).map fun r => (d :: r.1, r.2)
  | c :: cs =>
    if c = '\n' ∨ c = '\r' ∨ c = '\\' then none
    else (read_string cs).map fun r => (c :: r.1, r.2)
termination_by cs => cs.length

/-- The characters of a label and of a tag end at white space; the last stop of a label is the
end of its triple. -/
def word_char (c : Char) : Bool := 0x20 < c.toNat

def read_word (cs : List Char) : List Char × List Char :=
  let word := (cs.takeWhile word_char).rdropWhile (· == '.')
  (word, cs.drop word.length)

def read_node : List Char → Option (Node × List Char)
  | '<' :: cs => (read_iri cs).map fun r => (.iri r.1, r.2)
  | '_' :: ':' :: cs =>
    let r := read_word cs
    if r.1.isEmpty then none else some (.blank r.1, r.2)
  | '"' :: cs =>
    (read_string cs).bind fun r =>
      match r.2 with
      | '@' :: cs =>
        let tag := read_word cs
        if tag.1.isEmpty then none else some (.literal r.1 (some tag.1) none, tag.2)
      | '^' :: '^' :: '<' :: cs =>
        (read_iri cs).map fun dt => (.literal r.1 none (some dt.1), dt.2)
      | cs => some (.literal r.1 none none, cs)
  | _ => none

def skip_ws (cs : List Char) : List Char := cs.dropWhile fun c => c == ' ' || c == '\t'

/-- Nothing, or a comment. -/
def ends (cs : List Char) : Bool :=
  match skip_ws cs with
  | [] => true
  | c :: _ => c == '#'

/-- A subject is no literal and a predicate is an IRI. -/
def legal : Triple → Bool
  | (.literal _ _ _, _, _) => false
  | (_, .iri _, _) => true
  | _ => false

/-- The triple of a line, or none for a line without one. -/
def read_line (line : List Char) : Option (List Triple) :=
  if ends line then some []
  else
    (read_node (skip_ws line)).bind fun s =>
    (read_node (skip_ws s.2)).bind fun p =>
    (read_node (skip_ws p.2)).bind fun o =>
    match skip_ws o.2 with
    | '.' :: cs =>
      if ends cs && legal (s.1, p.1, o.1) then some [(s.1, p.1, o.1)] else none
    | _ => none

def is_eol (c : Char) : Bool := c == '\n' || c == '\r'

/-- The triples of a document, line by line; none where it is not one. -/
def read_document (doc : List Char) : Option (List Triple) :=
  ((doc.splitOnP is_eol).mapM read_line).map List.flatten

/-! ## What is read of plain texts -/

theorem read_iri_raw_cons {c : Char} (h : iri_char c = true) (cs : List Char) :
    read_iri (c :: cs) = (read_iri cs).map fun r => (c :: r.1, r.2) := by
  have hend : c ≠ '>' := fun heq => absurd (heq ▸ h) (by decide)
  have hescape : c ≠ '\\' := fun heq => absurd (heq ▸ h) (by decide)
  rw [read_iri, if_pos h]
  · exact hend
  · exact fun _ heq _ => hescape heq
  · exact fun _ heq _ => hescape heq

/-- An IRI without escapes is read as it stands. -/
theorem read_iri_plain {iri : List Char} (h : ∀ c ∈ iri, iri_char c = true) (cs : List Char) :
    read_iri (iri ++ '>' :: cs) = some (iri, cs) := by
  induction iri with
  | nil => rw [List.nil_append, read_iri]
  | cons c iri ih =>
    rw [List.forall_mem_cons] at h
    rw [List.cons_append, read_iri_raw_cons h.1, ih h.2]
    rfl

theorem read_node_plain {t : List Char} (h : ∀ c ∈ t, iri_char c = true) (cs : List Char) :
    read_node ('<' :: (t ++ '>' :: cs)) = some (.iri t, cs) := by
  rw [read_node, read_iri_plain h]
  rfl

/-- No IRI starts with a quote. -/
theorem read_iri_quote (cs : List Char) : read_iri ('"' :: cs) = none := by
  rw [read_iri, if_neg (by decide)]
  · decide
  · exact fun _ heq _ => absurd heq (by decide)
  · exact fun _ heq _ => absurd heq (by decide)

theorem splitOnP_lines (lines : List (List Char)) (h : ∀ l ∈ lines, ∀ c ∈ l, is_eol c = false) :
    (lines.flatMap fun l => l ++ ['\n']).splitOnP is_eol = lines ++ [[]] := by
  induction lines with
  | nil => rfl
  | cons l lines ih =>
    rw [List.forall_mem_cons] at h
    rw [List.flatMap_cons, List.append_assoc, List.singleton_append,
      List.splitOnP_append_cons_of_forall_mem h.1 '\n' rfl, ih h.2]
    rfl

/-- A document of lines is read line by line. -/
theorem read_document_lines (lines : List (List Char))
    (h : ∀ l ∈ lines, ∀ c ∈ l, is_eol c = false) :
    read_document (lines.flatMap fun l => l ++ ['\n']) =
      (lines.mapM read_line).map List.flatten := by
  rw [read_document, splitOnP_lines lines h, List.mapM_append]
  cases lines.mapM read_line with
  | none => rfl
  | some ts =>
    have hlast : [[]].mapM read_line = some [[]] := rfl
    rw [hlast]
    change some (ts ++ [[]]).flatten = some ts.flatten
    rw [List.flatten_append, List.flatten_singleton, List.append_nil]

end HornDb.Lib.NTriples
