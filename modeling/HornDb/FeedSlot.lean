-- The slot in which a change feed keeps the position that it has applied: four quads of a reserved
-- graph, read before a request and replaced after it. The metrics of an advance are left out.
import HornDb.QuadStore

namespace horndb.sparql

variable {ox : text.Library}

def FEED_GRAPH : String := "https://horndb.io/graph/feed"
def FEED_SLOT_SUBJECT : String := "https://horndb.io/graph/feed#slot"

def PRED_ID : String := "https://horndb.io/ns/feed#id"
def PRED_GENERATION : String := "https://horndb.io/ns/feed#generation"
def PRED_POSITION : String := "https://horndb.io/ns/feed#position"
def PRED_ADVANCED_AT : String := "https://horndb.io/ns/feed#advancedAt"

def XSD_INTEGER : String := "http://www.w3.org/2001/XMLSchema#integer"
def XSD_DATETIME : String := "http://www.w3.org/2001/XMLSchema#dateTime"

/-- The position that a request reports, kept as it is. -/
structure FeedPosition where
  id : String
  position : String
deriving DecidableEq, Repr

structure Slot where
  id : String
  generation : Int
  position : String
  advanced_at : String
deriving DecidableEq, Repr

/-! ## Literals of the slot -/

def escape_char (c : Char) : List Char :=
  if c = '\\' then ['\\', '\\']
  else if c = '"' then ['\\', '"']
  else if c = '\n' then ['\\', 'n']
  else if c = '\r' then ['\\', 'r']
  else if c = '\t' then ['\\', 't']
  else [c]

def escape_literal (s : String) : String :=
  "\"" ++ String.ofList (s.toList.flatMap escape_char) ++ "\""

def unescape_char (c : Char) : List Char :=
  if c = '\\' then ['\\']
  else if c = '"' then ['"']
  else if c = 'n' then ['\n']
  else if c = 'r' then ['\r']
  else if c = 't' then ['\t']
  else ['\\', c]

/-- The way back from `escape_char`, over the text between the quotes. -/
def unescape_literal_body : List Char → List Char
  | [] => []
  | ['\\'] => ['\\']
  | '\\' :: c :: cs => unescape_char c ++ unescape_literal_body cs
  | c :: cs => c :: unescape_literal_body cs

/-- The text up to the closing quote. -/
def body_chars (escaped : Bool) : List Char → Option (List Char)
  | [] => none
  | c :: cs =>
    if escaped then (body_chars false cs).map (c :: ·)
    else if c = '\\' then (body_chars true cs).map (c :: ·)
    else if c = '"' then some []
    else (body_chars false cs).map (c :: ·)

def literal_body (lex : String) : Option (List Char) :=
  match lex.toList with
  | '"' :: cs => body_chars false cs
  | _ => none

def plain_literal (value : String) : Term := .Literal (escape_literal value)

def typed_literal (value datatype_iri : String) : Term :=
  .Literal (escape_literal value ++ "^^<" ++ datatype_iri ++ ">")

def decode_literal : Term → Option String
  | .Literal lex => (literal_body lex).map fun body => String.ofList (unescape_literal_body body)
  | _ => none

/-! ## Reading and advancing the slot -/

def slot_quads (slot : Slot) : List AlgebraQuad :=
  let g := some FEED_GRAPH
  let subj := Term.Iri FEED_SLOT_SUBJECT
  [⟨g, subj, .Iri PRED_ID, plain_literal slot.id⟩,
    ⟨g, subj, .Iri PRED_GENERATION, typed_literal (toString slot.generation) XSD_INTEGER⟩,
    ⟨g, subj, .Iri PRED_POSITION, plain_literal slot.position⟩,
    ⟨g, subj, .Iri PRED_ADVANCED_AT, typed_literal slot.advanced_at XSD_DATETIME⟩]

/-- The fields of a slot while its triples are read. -/
structure SlotFields where
  id : Option String := none
  generation : Option Int := none
  position : Option String := none
  advanced_at : Option String := none

/-- The integers of sixty-four bits. -/
def parse_i64 (s : String) : Option Int :=
  s.toInt?.filter fun n => -2 ^ 63 ≤ n ∧ n < 2 ^ 63

def SlotFields.read (f : SlotFields) (t : Term × Term × Term) : SlotFields :=
  match t.2.1 with
  | .Iri pred =>
    if pred = PRED_ID then { f with id := decode_literal t.2.2 }
    else if pred = PRED_GENERATION then
      { f with generation := (decode_literal t.2.2).bind parse_i64 }
    else if pred = PRED_POSITION then { f with position := decode_literal t.2.2 }
    else if pred = PRED_ADVANCED_AT then { f with advanced_at := decode_literal t.2.2 }
    else f
  | _ => f

def slot_of (triples : List (Term × Term × Term)) : Option Slot :=
  let f := triples.foldl SlotFields.read {}
  match f.id, f.position with
  | some id, some position =>
    some ⟨id, f.generation.getD 0, position, f.advanced_at.getD ""⟩
  | _, _ => none

def read_slot (fails : Faults) (st : Store ox) : Result (Option Slot) × Store ox :=
  match st.scan_graph_quads fails (.NamedNode FEED_GRAPH) with
  | (.error e, st) => (.error e, st)
  | (.ok triples, st) => (.ok (slot_of triples), st)

def slot_delta (old : Option Slot) (new : Slot) : List AlgebraQuad × List AlgebraQuad :=
  ((old.map slot_quads).getD [], slot_quads new)

/-- A request for another feed than the slot's is refused. -/
def check_feed_id (fails : Faults) (st : Store ox) (feed : FeedPosition) :
    Result Unit × Store ox :=
  match read_slot fails st with
  | (.error e, st) => (.error e, st)
  | (.ok (some slot), st) =>
    if slot.id ≠ feed.id then (.error (.FeedIdMismatch slot.id feed.id), st) else (.ok (), st)
  | (.ok none, st) => (.ok (), st)

/-- Replace the slot by one at the position, in one batch. -/
def advance_slot (fails : Faults) (now : String) (st : Store ox) (feed : FeedPosition) :
    Result Unit × Store ox :=
  match read_slot fails st with
  | (.error e, st) => (.error e, st)
  | (.ok old, st) =>
    let delta := slot_delta old ⟨feed.id, 0, feed.position, now⟩
    st.apply_quads fails delta.1 delta.2

end horndb.sparql
