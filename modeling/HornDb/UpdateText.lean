-- Update requests as bytes: SPARQL's tokens, the prologues and operations that they are read as,
-- and what the hints of ADD, COPY and MOVE should tell of them. Keywords and numbers are told by
-- their bytes alone, and every operation but these three by its tokens alone, which lets a few
-- texts in that the grammar refuses: every update is one here.
import HornDb.AmcHints

open HornDb.Lib.Wire (Bytes)
open horndb.storage
open horndb.storage.turtle hiding Token Lexeme

namespace horndb.sparql.update_text

/-! ## Tokens -/

inductive Token where
  /-- A keyword, the name of a function, `a`, `true` or `false`. -/
  | word (w : Bytes)
  | iriref (body : Bytes)
  | pname (ns loc : Bytes)
  | blank_label (label : Bytes)
  | var (sigil : UInt8) (name : Bytes)
  | langtag (tag : Bytes)
  | number (digits : Bytes)
  | string (q : UInt8) (long : Bool) (body : Bytes)
  | sign (s : Bytes)
deriving DecidableEq, Repr

def is_sigil (b : UInt8) : Bool := b = ascii '?' || b = ascii '$'

def signs : List Bytes :=
  [['{'], ['}'], ['('], [')'], ['['], [']'], ['.'], [';'], [','], ['^'], ['^', '^'], ['|'],
    ['|', '|'], ['/'], ['!'], ['='], ['!', '='], ['<'], ['>'], ['<', '='], ['>', '='], ['&', '&'],
    ['+'], ['-'], ['*'], ['?']].map ascii_text

namespace Token

def bytes : Token → Bytes
  | word w => w
  | iriref body => ascii '<' :: (body ++ [ascii '>'])
  | pname ns loc => ns ++ ascii ':' :: loc
  | blank_label label => ascii_text ['_', ':'] ++ label
  | var sigil name => sigil :: name
  | langtag tag => ascii '@' :: tag
  | number digits => digits
  | string q long body => quotes q long ++ body ++ quotes q long
  | sign s => s

inductive Valid : Token → Prop where
  | word {b : UInt8} {w : Bytes} : is_letter b = true →
      (∀ c ∈ w, (is_ascii_alphanumeric c || c = ascii '_') = true) → Valid (word (b :: w))
  | iriref {body : Bytes} : IriBody body → Valid (iriref body)
  /-- The local name does not end in a dot, unless that is escaped. -/
  | pname {ns loc : Bytes} : turtle.Token.Name ns → ns.head? ≠ some (ascii '-') → LocalName loc →
      (∀ front, loc = front ++ [ascii '.'] → front.getLast? = some (ascii '\\')) →
      Valid (pname ns loc)
  | blank_label {label : Bytes} : turtle.Token.Name label → label ≠ [] → Valid (blank_label label)
  | var {sigil b : UInt8} {name : Bytes} : is_sigil sigil = true →
      (∀ c ∈ b :: name, (is_pn_char c && c ≠ ascii '-') = true) → Valid (var sigil (b :: name))
  | langtag {b : UInt8} {tag : Bytes} : is_letter b = true →
      (∀ c ∈ tag, (is_ascii_alphanumeric c || c = ascii '-') = true) → Valid (langtag (b :: tag))
  | number {digits : Bytes} :
      (∀ b ∈ digits, b ∈ ascii_text ['0', '1', '2', '3', '4', '5', '6', '7', '8', '9', '.', '+',
        '-', 'e', 'E']) → digits ≠ [] → Valid (number digits)
  | short {q : UInt8} {body : Bytes} : q = ascii '"' ∨ q = ascii '\'' → ShortBody q body →
      Valid (string q false body)
  | long {q : UInt8} {body : Bytes} : q = ascii '"' ∨ q = ascii '\'' → LongBody q body →
      Valid (string q true body)
  | sign {s : Bytes} : s ∈ signs → Valid (sign s)

end Token

/-- A token with the blank space in front of it. -/
structure Lexeme where
  gap : Bytes
  token : Token
  gap_ok : Gap gap
  token_ok : token.Valid

def Lexeme.bytes (l : Lexeme) : Bytes := l.gap ++ l.token.bytes

def spelled (ls : List Lexeme) : Bytes := ls.flatMap Lexeme.bytes

/-! ## Requests -/

/-- A word in any case. -/
def Spells (w : Bytes) (kw : List Char) : Prop := eq_ignore_ascii_case w kw = true

inductive Verb where
  | Add
  | Copy
  | Move
deriving DecidableEq, Repr

def Verb.keyword : Verb → List Char
  | Add => ['A', 'D', 'D']
  | Copy => ['C', 'O', 'P', 'Y']
  | Move => ['M', 'O', 'V', 'E']

/-- How many operations the verb is desugared to. -/
def Verb.op_count : Verb → Nat
  | Add => 1
  | Copy => 2
  | Move => 3

inductive Operand where
  | default_graph
  | iri (body : Bytes)
  | pname (ns loc : Bytes)
deriving DecidableEq, Repr

inductive Step where
  | base (body : Bytes)
  | pfx (ns body : Bytes)
  | amc (verb : Verb) (silent : Bool) (source dest : Operand)
  | other

def reserved (w : Bytes) : Bool :=
  eq_ignore_ascii_case w ['A', 'D', 'D'] || eq_ignore_ascii_case w ['C', 'O', 'P', 'Y'] ||
    eq_ignore_ascii_case w ['M', 'O', 'V', 'E'] ||
    eq_ignore_ascii_case w ['P', 'R', 'E', 'F', 'I', 'X'] ||
    eq_ignore_ascii_case w ['B', 'A', 'S', 'E']

/-- A graph, with or without the keyword. -/
inductive ReadsGraph : List Token → Operand → Prop where
  | iri (body) : ReadsGraph [.iriref body] (.iri body)
  | pname (ns loc) : ReadsGraph [.pname ns loc] (.pname ns loc)

inductive ReadsOperand : List Token → Operand → Prop where
  | default {w : Bytes} : Spells w ['D', 'E', 'F', 'A', 'U', 'L', 'T'] →
      ReadsOperand [.word w] .default_graph
  | bare {ts : List Token} {o : Operand} : ReadsGraph ts o → ReadsOperand ts o
  | graph {w : Bytes} {ts : List Token} {o : Operand} : Spells w ['G', 'R', 'A', 'P', 'H'] →
      ReadsGraph ts o → ReadsOperand (.word w :: ts) o

inductive ReadsSilent : List Token → Bool → Prop where
  | loud : ReadsSilent [] false
  | silent {w : Bytes} : Spells w ['S', 'I', 'L', 'E', 'N', 'T'] → ReadsSilent [.word w] true

inductive ReadsDecl : List Token → Step → Prop where
  | base {w : Bytes} (body) : Spells w ['B', 'A', 'S', 'E'] →
      ReadsDecl [.word w, .iriref body] (.base body)
  | pfx {w : Bytes} (ns body) : Spells w ['P', 'R', 'E', 'F', 'I', 'X'] →
      ReadsDecl [.word w, .pname ns [], .iriref body] (.pfx ns body)

/-- A comparison that starts with this sign. -/
def Token.is_less : Token → Bool
  | sign s => s.head? = some (ascii '<')
  | _ => false

def close_brace : Token := .sign (ascii_text ['}'])

def semicolon : Token := .sign (ascii_text [';'])

inductive ReadsOperation : List Token → Step → Prop where
  | amc {verb : Verb} {silent : Bool} {source dest : Operand} {w t : Bytes}
      {ss fs ds : List Token} : Spells w verb.keyword → ReadsSilent ss silent →
      ReadsOperand fs source → Spells t ['T', 'O'] → ReadsOperand ds dest →
      ReadsOperation (.word w :: ss ++ fs ++ .word t :: ds) (.amc verb silent source dest)
  /-- No other operation has these keywords, and its comparisons stand in groups. -/
  | other {ts : List Token} : (∀ w, .word w ∈ ts → reserved w = false) →
      (∀ front t back, ts = front ++ t :: back → t.is_less = true → close_brace ∈ back) →
      ReadsOperation ts .other

/-- Prologues and operations, with a semicolon behind each operation but the last. -/
inductive ReadsRequest : List Token → List Step → Prop where
  | nil : ReadsRequest [] []
  | decl {ts rest : List Token} {d : Step} {steps : List Step} : ReadsDecl ts d →
      ReadsRequest rest steps → ReadsRequest (ts ++ rest) (d :: steps)
  | last {ts : List Token} {o : Step} : ReadsOperation ts o → ReadsRequest ts [o]
  | operation {ts rest : List Token} {o : Step} {steps : List Step} : ReadsOperation ts o →
      ReadsRequest rest steps → ReadsRequest (ts ++ semicolon :: rest) (o :: steps)

structure Request where
  lexemes : List Lexeme
  steps : List Step
  reads : ReadsRequest (lexemes.map (·.token)) steps
  tail : Bytes
  tail_ok : Tail tail

def Request.bytes (r : Request) : Bytes := spelled r.lexemes ++ r.tail

/-! ## What the hints should tell -/

def Operand.escaped : Operand → Bool
  | default_graph => false
  | iri body => ascii '\\' ∈ body
  | pname _ loc => ascii '\\' ∈ loc

variable {lib : Iris}

/-- The graph that an operand without escapes names. -/
def Operand.graph (p : Prologue lib) : Operand → AmcSource
  | default_graph => .Default
  | iri body => resolve_named body p.base
  | pname ns loc =>
    match p.prefixes ns with
    | some space => .Named (text_of (space ++ loc))
    | none => .Unknown

/-- An operand with an escape is not resolved. -/
def Operand.told (p : Prologue lib) (o : Operand) : AmcSource :=
  if o.escaped then .Unknown else o.graph p

/-- A hint tells its operation. Behind a prefixed name with an escape, nothing is said about the
destination. -/
structure Tells (p : Prologue lib) (verb : Verb) (silent : Bool) (source dest : Operand)
    (h : AmcHint) : Prop where
  silent : h.silent = silent
  op_count : h.op_count = verb.op_count
  op_index : h.op_index = 0
  told : h.source = source.told p
  dest : (∀ ns loc, source = Operand.pname ns loc → ascii '\\' ∉ loc) → h.dest = dest.told p
  identity : h.is_identity = is_identity h.source h.dest

/-- One hint for each ADD, COPY and MOVE, against the prologue in force there. -/
inductive Told : Prologue lib → List Step → List AmcHint → Prop where
  | nil {p : Prologue lib} : Told p [] []
  | base {p : Prologue lib} {body : Bytes} {steps : List Step} {hs : List AmcHint} :
      Told (adopt_base p body) steps hs → Told p (.base body :: steps) hs
  | pfx {p : Prologue lib} {ns body : Bytes} {steps : List Step} {hs : List AmcHint} :
      Told (declare_pfx p ns body) steps hs → Told p (.pfx ns body :: steps) hs
  | amc {p : Prologue lib} {verb : Verb} {silent : Bool} {source dest : Operand}
      {steps : List Step} {h : AmcHint} {hs : List AmcHint} :
      Tells p verb silent source dest h → Told p steps hs →
      Told p (.amc verb silent source dest :: steps) (h :: hs)
  | other {p : Prologue lib} {steps : List Step} {hs : List AmcHint} : Told p steps hs →
      Told p (.other :: steps) hs

/-! ## Where the scan reads as the grammar does -/

/-- Blank space where a comment goes on to its line feed. -/
inductive Blank : Bytes → Prop where
  | nil : Blank []
  | ws {b : UInt8} {rest : Bytes} : is_ws b = true → Blank rest → Blank (b :: rest)
  | comment {body rest : Bytes} : ascii '\n' ∉ body → Blank rest →
      Blank (ascii '#' :: (body ++ ascii '\n' :: rest))

/-- A byte that goes on in a name, and starts none. -/
def joins (b : UInt8) : Bool := is_pname_cont b && !is_pname_start b

/-- The word that is scanned behind the escaped byte `b` of a local name. -/
def word_behind (b : UInt8) (loc : Bytes) : Bytes :=
  let w := loc.dropWhile joins
  if is_sigil b && loc.head?.any is_pname_start then []
  else if (w.dropWhile is_pname_cont).head? = some (ascii '\\') then []
  else trim_dots (w.takeWhile is_pname_cont)

/-- No tag, and no word behind an escape, is one of the keywords; no quote and no `#` is escaped. -/
def Token.Clear : Token → Prop
  | langtag tag => reserved tag = false
  | pname _ loc => ∀ front b back, loc = front ++ ascii '\\' :: b :: back →
      b ≠ ascii '\'' ∧ b ≠ ascii '#' ∧ (b = ascii '_' ∨ reserved (word_behind b back) = false)
  | _ => True

/-- The byte behind a token would be read as part of it. -/
def Token.sticks : Token → UInt8 → Bool
  | word _, b => is_pname_start b
  | pname _ _, b => is_pname_start b && b ≠ ascii ':'
  | langtag _, b => is_ascii_alphanumeric b
  | string q false [], b => b = q
  | _, _ => false

def Apart (l l' : Lexeme) : Prop := ∀ b, l'.bytes.head? = some b → l.token.sticks b = false

/-- The text behind a `<` that the scan takes for an IRI, up to a `>`. -/
def mistaken_iri (s : Bytes) : Bytes :=
  if (s.dropWhile is_iri_byte).head? = some (ascii '>') then s.takeWhile is_iri_byte else []

structure ClearText (ls : List Lexeme) : Prop where
  blank : ∀ l ∈ ls, Blank l.gap
  token : ∀ l ∈ ls, l.token.Clear
  apart : ls.IsChain Apart
  /-- Where a comparison is taken for an IRI, it ends before a comment or a string. -/
  less : ∀ front l back, ls = front ++ l :: back → l.token.is_less = true →
    ascii '#' ∉ mistaken_iri (l.token.bytes.tail ++ spelled back) ∧
      ascii '\'' ∉ mistaken_iri (l.token.bytes.tail ++ spelled back)

/-- The IRI of a prologue has no escape. -/
def Step.Clear : Step → Prop
  | base body => ascii '\\' ∉ body
  | pfx _ body => ascii '\\' ∉ body
  | _ => True

structure Clear (r : Request) : Prop where
  text : ClearText r.lexemes
  steps : ∀ step ∈ r.steps, step.Clear

end horndb.sparql.update_text
