-- Turtle documents as bytes: blank space, tokens, the grammar of triples with quoted triples, and
-- the statements of a document. Names, numbers and tags are told by their bytes alone, which lets
-- a few texts in that the grammar refuses: every Turtle document is a document here.
import HornDb.TurtleSplit

open HornDb.Lib.Wire

namespace horndb.storage.turtle

/-! ## Blank space -/

def is_ws (b : UInt8) : Bool := b = ascii ' ' || b = ascii '\t' || b = ascii '\r' || b = ascii '\n'

def is_eol (b : UInt8) : Bool := b = ascii '\r' || b = ascii '\n'

/-- White space and comments. A comment ends with its line, which ends at either byte. -/
inductive Gap : Bytes → Prop where
  | nil : Gap []
  | ws {b : UInt8} {rest : Bytes} : is_ws b = true → Gap rest → Gap (b :: rest)
  | comment {body rest : Bytes} {eol : UInt8} : (∀ b ∈ body, is_eol b = false) →
      is_eol eol = true → Gap rest → Gap (ascii '#' :: (body ++ eol :: rest))

/-! ## Tokens -/

def is_hex (b : UInt8) : Bool :=
  (ascii '0' ≤ b && b ≤ ascii '9') || (ascii 'A' ≤ b && b ≤ ascii 'F') ||
    (ascii 'a' ≤ b && b ≤ ascii 'f')

def is_letter (b : UInt8) : Bool :=
  (ascii 'A' ≤ b && b ≤ ascii 'Z') || (ascii 'a' ≤ b && b ≤ ascii 'z')

/-- The bytes of a name, apart from the colon and the dot. -/
def is_pn_char (b : UInt8) : Bool :=
  is_ascii_alphanumeric b || b = ascii '_' || b = ascii '-' || b ≥ 0x80

/-- An escape by number, without its backslash. -/
inductive Uchar : Bytes → Prop where
  | four {hex : Bytes} : hex.length = 4 → (∀ b ∈ hex, is_hex b = true) → Uchar (ascii 'u' :: hex)
  | eight {hex : Bytes} : hex.length = 8 → (∀ b ∈ hex, is_hex b = true) → Uchar (ascii 'U' :: hex)

/-- The bytes that an IRI may not have as they are. -/
def iri_excluded : Bytes := ascii_text ['<', '>', '"', '{', '}', '|', '^', '\x60', '\\']

inductive IriBody : Bytes → Prop where
  | nil : IriBody []
  | char {b : UInt8} {rest : Bytes} : 0x20 < b → b ∉ iri_excluded → IriBody rest →
      IriBody (b :: rest)
  | uchar {code rest : Bytes} : Uchar code → IriBody rest → IriBody (ascii '\\' :: (code ++ rest))

/-- An escape in a string, without its backslash. -/
inductive StringEscape : Bytes → Prop where
  | echar {b : UInt8} : b ∈ ascii_text ['t', 'b', 'n', 'r', 'f', '"', '\'', '\\'] → StringEscape [b]
  | uchar {code : Bytes} : Uchar code → StringEscape code

inductive ShortBody (q : UInt8) : Bytes → Prop where
  | nil : ShortBody q []
  | char {b : UInt8} {rest : Bytes} : b ≠ q → b ≠ ascii '\\' → is_eol b = false →
      ShortBody q rest → ShortBody q (b :: rest)
  | escape {code rest : Bytes} : StringEscape code → ShortBody q rest →
      ShortBody q (ascii '\\' :: (code ++ rest))

/-- In a long string, one or two quotes may stand in front of another byte. -/
inductive LongBody (q : UInt8) : Bytes → Prop where
  | nil : LongBody q []
  | char {quotes : Nat} {b : UInt8} {rest : Bytes} : quotes ≤ 2 → b ≠ q → b ≠ ascii '\\' →
      LongBody q rest → LongBody q (List.replicate quotes q ++ b :: rest)
  | escape {quotes : Nat} {code rest : Bytes} : quotes ≤ 2 → StringEscape code →
      LongBody q rest → LongBody q (List.replicate quotes q ++ ascii '\\' :: (code ++ rest))

/-- What a local name is made of: a byte, a percent encoding or an escaped byte. -/
inductive LocalPiece : Bytes → Prop where
  | char {b : UInt8} : (is_pn_char b || b = ascii ':' || b = ascii '.') = true → LocalPiece [b]
  | percent {b c : UInt8} : is_hex b = true → is_hex c = true → LocalPiece [ascii '%', b, c]
  | escape {b : UInt8} : b ∈ ascii_text ['_', '~', '.', '-', '!', '$', '&', '\'', '(', ')', '*',
      '+', ',', ';', '=', '/', '?', '#', '@', '%'] → LocalPiece [ascii '\\', b]

inductive LocalName : Bytes → Prop where
  | nil : LocalName []
  | cons {piece rest : Bytes} : LocalPiece piece → LocalName rest → LocalName (piece ++ rest)

inductive Punctuation where
  | dot
  | semicolon
  | comma
  | open_bracket
  | close_bracket
  | open_paren
  | close_paren
  | carets
  | tilde
  | open_annotated
  | close_annotated
  | close_quoted
  | close_term
deriving DecidableEq, Repr

def Punctuation.bytes : Punctuation → Bytes
  | .dot => ascii_text ['.']
  | .semicolon => ascii_text [';']
  | .comma => ascii_text [',']
  | .open_bracket => ascii_text ['[']
  | .close_bracket => ascii_text [']']
  | .open_paren => ascii_text ['(']
  | .close_paren => ascii_text [')']
  | .carets => ascii_text ['^', '^']
  | .tilde => ascii_text ['~']
  | .open_annotated => ascii_text ['{', '|']
  | .close_annotated => ascii_text ['|', '}']
  | .close_quoted => ascii_text ['>', '>']
  | .close_term => ascii_text [')', '>', '>']

inductive Token where
  | iriref (body : Bytes)
  | pname_ns (ns : Bytes)
  | pname_ln (ns loc : Bytes)
  | blank_label (label : Bytes)
  | string (q : UInt8) (long : Bool) (body : Bytes)
  | langtag (tag : Bytes)
  | number (digits : Bytes)
  | word_a
  | boolean (value : Bool)
  | prefix_at
  | base_at
  | version_at
  | prefix_word (kw : Bytes)
  | base_word (kw : Bytes)
  | version_word (kw : Bytes)
  /-- The bracket of a quoted triple, or of a triple term. -/
  | open_quoted (term : Bool)
  | punct (p : Punctuation)
deriving DecidableEq, Repr

/-- The quotes at either end of a string. -/
def quotes (q : UInt8) (long : Bool) : Bytes := List.replicate (if long then 3 else 1) q

def open_quoted_bytes (term : Bool) : Bytes :=
  if term then ascii_text ['<', '<', '('] else ascii_text ['<', '<']

namespace Token

def bytes : Token → Bytes
  | iriref body => ascii '<' :: (body ++ [ascii '>'])
  | pname_ns ns => ns ++ [ascii ':']
  | pname_ln ns loc => ns ++ ascii ':' :: loc
  | blank_label label => ascii_text ['_', ':'] ++ label
  | string q long body => quotes q long ++ body ++ quotes q long
  | langtag tag => ascii '@' :: tag
  | number digits => digits
  | word_a => ascii_text ['a']
  | boolean true => ascii_text ['t', 'r', 'u', 'e']
  | boolean false => ascii_text ['f', 'a', 'l', 's', 'e']
  | prefix_at => turtle.prefix_at
  | base_at => turtle.base_at
  | version_at => ascii_text ['@', 'v', 'e', 'r', 's', 'i', 'o', 'n']
  | prefix_word kw => kw
  | base_word kw => kw
  | version_word kw => kw
  | open_quoted term => open_quoted_bytes term
  | punct p => p.bytes

def Name (ns : Bytes) : Prop :=
  ns.head? ≠ some (ascii '.') ∧ ∀ b ∈ ns, (is_pn_char b || b = ascii '.') = true

inductive Valid : Token → Prop where
  | iriref {body : Bytes} : IriBody body → Valid (iriref body)
  | pname_ns {ns : Bytes} : Name ns → Valid (pname_ns ns)
  | pname_ln {ns loc : Bytes} : Name ns → LocalName loc → loc ≠ [] → Valid (pname_ln ns loc)
  | blank_label {label : Bytes} : Name label → label ≠ [] → Valid (blank_label label)
  | short {q : UInt8} {body : Bytes} : q = ascii '"' ∨ q = ascii '\'' → ShortBody q body →
      Valid (string q false body)
  | long {q : UInt8} {body : Bytes} : q = ascii '"' ∨ q = ascii '\'' → LongBody q body →
      Valid (string q true body)
  | langtag {tag : Bytes} : (∀ b ∈ tag, (is_ascii_alphanumeric b || b = ascii '-') = true) →
      tag ≠ [] → Valid (langtag tag)
  | number {digits : Bytes} :
      (∀ b ∈ digits, b ∈ ascii_text ['0', '1', '2', '3', '4', '5', '6', '7', '8', '9', '.', '+',
        '-', 'e', 'E']) → digits ≠ [] → Valid (number digits)
  | word_a : Valid word_a
  | boolean {value : Bool} : Valid (boolean value)
  | prefix_at : Valid prefix_at
  | base_at : Valid base_at
  | version_at : Valid version_at
  | prefix_word {kw : Bytes} :
      kw.map to_ascii_lowercase = ascii_text ['p', 'r', 'e', 'f', 'i', 'x'] →
      Valid (prefix_word kw)
  | base_word {kw : Bytes} : kw.map to_ascii_lowercase = ascii_text ['b', 'a', 's', 'e'] →
      Valid (base_word kw)
  | version_word {kw : Bytes} :
      kw.map to_ascii_lowercase = ascii_text ['v', 'e', 'r', 's', 'i', 'o', 'n'] →
      Valid (version_word kw)
  | open_quoted {term : Bool} : Valid (open_quoted term)
  | punct {p : Punctuation} : Valid (punct p)

end Token

/-! ## The grammar -/

inductive Nonterminal where
  | triples
  | predicate_object_list
  | more_predicates
  | object_list
  | more_objects
  | annotations
  | verb
  | subject
  | object
  | objects
  | collection
  | blank_node_property_list
  | literal
  | iri
  | blank_node
  | reifier
  | reified_triple
  | quoted_subject
  | quoted_object
  | triple_term
deriving DecidableEq, Repr

open Nonterminal Token Punctuation in
/-- The token sequences of a nonterminal. -/
inductive Phrase : Nonterminal → List Token → Prop where
  | iri_full (body) : Phrase iri [iriref body]
  | iri_ln (ns loc) : Phrase iri [pname_ln ns loc]
  | iri_ns (ns) : Phrase iri [pname_ns ns]
  | blank_label (label) : Phrase blank_node [.blank_label label]
  | anonymous : Phrase blank_node [punct open_bracket, punct close_bracket]
  | plain_string (q long body) : Phrase literal [string q long body]
  | tagged_string (q long body tag) : Phrase literal [string q long body, langtag tag]
  | typed_string (q long body) {t} : Phrase iri t →
      Phrase literal (string q long body :: punct carets :: t)
  | number (digits) : Phrase literal [.number digits]
  | boolean (value) : Phrase literal [.boolean value]
  | collection {os} : Phrase objects os →
      Phrase collection (punct open_paren :: (os ++ [punct close_paren]))
  | objects_nil : Phrase objects []
  | objects_cons {o os} : Phrase object o → Phrase objects os → Phrase objects (o ++ os)
  | property_list {ps} : Phrase predicate_object_list ps →
      Phrase blank_node_property_list (punct open_bracket :: (ps ++ [punct close_bracket]))
  | verb_a : Phrase verb [word_a]
  | verb_iri {t} : Phrase iri t → Phrase verb t
  | subject_iri {t} : Phrase iri t → Phrase subject t
  | subject_blank {t} : Phrase blank_node t → Phrase subject t
  | subject_collection {t} : Phrase Nonterminal.collection t → Phrase subject t
  | object_iri {t} : Phrase iri t → Phrase object t
  | object_blank {t} : Phrase blank_node t → Phrase object t
  | object_collection {t} : Phrase Nonterminal.collection t → Phrase object t
  | object_properties {t} : Phrase blank_node_property_list t → Phrase object t
  | object_literal {t} : Phrase literal t → Phrase object t
  | object_term {t} : Phrase triple_term t → Phrase object t
  | object_reified {t} : Phrase reified_triple t → Phrase object t
  | predicate_object_list {v os ps} : Phrase verb v → Phrase object_list os →
      Phrase more_predicates ps → Phrase predicate_object_list (v ++ os ++ ps)
  | more_predicates_nil : Phrase more_predicates []
  | more_predicates_skip {ps} : Phrase more_predicates ps →
      Phrase more_predicates (punct semicolon :: ps)
  | more_predicates_cons {v os ps} : Phrase verb v → Phrase object_list os →
      Phrase more_predicates ps → Phrase more_predicates (punct semicolon :: (v ++ os ++ ps))
  | object_list {o as os} : Phrase object o → Phrase annotations as → Phrase more_objects os →
      Phrase object_list (o ++ as ++ os)
  | more_objects_nil : Phrase more_objects []
  | more_objects_cons {o as os} : Phrase object o → Phrase annotations as →
      Phrase more_objects os → Phrase more_objects (punct comma :: (o ++ as ++ os))
  | annotations_nil : Phrase annotations []
  | annotations_reifier {r as} : Phrase reifier r → Phrase annotations as →
      Phrase annotations (r ++ as)
  | annotations_block {ps as} : Phrase Nonterminal.predicate_object_list ps →
      Phrase annotations as →
      Phrase annotations (punct open_annotated :: (ps ++ punct close_annotated :: as))
  | reifier_bare : Phrase reifier [punct tilde]
  | reifier_iri {t} : Phrase iri t → Phrase reifier (punct tilde :: t)
  | reifier_blank {t} : Phrase blank_node t → Phrase reifier (punct tilde :: t)
  | reified_bare {s v o} : Phrase quoted_subject s → Phrase verb v → Phrase quoted_object o →
      Phrase reified_triple (open_quoted false :: (s ++ v ++ o ++ [punct close_quoted]))
  | reified_named {s v o r} : Phrase quoted_subject s → Phrase verb v → Phrase quoted_object o →
      Phrase reifier r →
      Phrase reified_triple (open_quoted false :: (s ++ v ++ o ++ r ++ [punct close_quoted]))
  | quoted_subject_iri {t} : Phrase iri t → Phrase quoted_subject t
  | quoted_subject_blank {t} : Phrase blank_node t → Phrase quoted_subject t
  | quoted_subject_reified {t} : Phrase reified_triple t → Phrase quoted_subject t
  | quoted_object_iri {t} : Phrase iri t → Phrase quoted_object t
  | quoted_object_blank {t} : Phrase blank_node t → Phrase quoted_object t
  | quoted_object_literal {t} : Phrase literal t → Phrase quoted_object t
  | quoted_object_term {t} : Phrase triple_term t → Phrase quoted_object t
  | quoted_object_reified {t} : Phrase reified_triple t → Phrase quoted_object t
  | triple_term {s v o} : Phrase quoted_subject s → Phrase verb v → Phrase quoted_object o →
      Phrase triple_term (open_quoted true :: (s ++ v ++ o ++ [punct close_term]))
  | triples_subject {s ps} : Phrase subject s → Phrase Nonterminal.predicate_object_list ps →
      Phrase triples (s ++ ps)
  | triples_properties {b} : Phrase blank_node_property_list b → Phrase triples b
  | triples_properties_more {b ps} : Phrase blank_node_property_list b →
      Phrase Nonterminal.predicate_object_list ps → Phrase triples (b ++ ps)
  | triples_reified {r} : Phrase reified_triple r → Phrase triples r
  | triples_reified_more {r ps} : Phrase reified_triple r →
      Phrase Nonterminal.predicate_object_list ps → Phrase triples (r ++ ps)

/-! ## Documents -/

/-- A token with the blank space in front of it. -/
structure Lexeme where
  gap : Bytes
  token : Token
  gap_ok : Gap gap
  token_ok : token.Valid

def Lexeme.bytes (l : Lexeme) : Bytes := l.gap ++ l.token.bytes

inductive Kind where
  | Prefix
  | Base
  | Version
  | Triples
deriving DecidableEq, Repr

inductive Production : Kind → List Token → Prop where
  | prefix_id (ns iri) :
      Production .Prefix [.prefix_at, .pname_ns ns, .iriref iri, .punct .dot]
  | base (iri) : Production .Base [.base_at, .iriref iri, .punct .dot]
  | prefix_word (kw ns iri) : Production .Prefix [.prefix_word kw, .pname_ns ns, .iriref iri]
  | base_word (kw iri) : Production .Base [.base_word kw, .iriref iri]
  | version (q text) : Production .Version [.version_at, .string q false text, .punct .dot]
  | version_word (kw q text) : Production .Version [.version_word kw, .string q false text]
  | triples {ts} : Phrase .triples ts → Production .Triples (ts ++ [.punct .dot])

/-- What has to stand apart not to be read as one token: a keyword and the prefix name behind it,
and an empty string and a string of the same quote. -/
def Apart (l l' : Lexeme) : Prop :=
  (∀ kw, l.token = .prefix_word kw → l'.gap ≠ []) ∧
    ∀ q, l.token = .string q false [] → l'.bytes.head? ≠ some q

structure Statement where
  kind : Kind
  lexemes : List Lexeme
  production : Production kind (lexemes.map (·.token))

def Statement.bytes (s : Statement) : Bytes := s.lexemes.flatMap Lexeme.bytes

/-- The last line may be a comment that nothing ends. -/
def Tail (bytes : Bytes) : Prop :=
  Gap bytes ∨ ∃ g body, Gap g ∧ (∀ b ∈ body, is_eol b = false) ∧ bytes = g ++ ascii '#' :: body

structure Document where
  statements : List Statement
  apart : (statements.flatMap (·.lexemes)).IsChain Apart
  tail : Bytes
  tail_ok : Tail tail

def Document.bytes (d : Document) : Bytes := d.statements.flatMap Statement.bytes ++ d.tail

/-- A base directive, or a prefix directive behind a triple. -/
def Document.Misplaced (d : Document) (k : Nat) : Prop :=
  ∃ s, d.statements[k]? = some s ∧ (s.kind = .Base ∨
    s.kind = .Prefix ∧ ∃ j < k, ∃ s', d.statements[j]? = some s' ∧ s'.kind = .Triples)

end horndb.storage.turtle
