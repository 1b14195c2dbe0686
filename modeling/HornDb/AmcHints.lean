-- The hints of ADD, COPY and MOVE: the text of an update is scanned once more, for the verbs with
-- their SILENT flags and for the prologues that their operands are resolved against.
import HornDb.TurtleSyntax
import HornDb.UpdateRequest

open HornDb.Lib.Wire
open horndb.storage.turtle (ascii ascii_text is_ascii_alphanumeric is_ws to_ascii_lowercase)

namespace horndb.sparql

/-! ## Tokens -/

inductive AmcTok where
  /-- A verb, with the number of operations that it is desugared to. -/
  | Amc (op_count : Nat)
  | Silent
  | Default
  | Graph
  | Prefix
  | Base
  | Iri (raw : Bytes)
  | PName (name : Bytes)
  /-- An IRI or a prefixed name with a backslash. -/
  | Escaped
  | Other
deriving DecidableEq, Repr

def is_pname_start (b : UInt8) : Bool :=
  is_ascii_alphanumeric b || b = ascii '_' || b = ascii ':' || b ≥ 0x80

def is_pname_cont (b : UInt8) : Bool :=
  is_pname_start b || b = ascii '-' || b = ascii '.' || b = ascii '%'

/-- The bytes between the brackets of an IRI, backslashes among them. -/
def is_iri_byte (b : UInt8) : Bool :=
  b > ascii ' ' && b ∉ ascii_text ['<', '>', '"', '{', '}', '|', '^', '\x60']

/-- What is behind the closing quote of a short string. -/
def skip_short (q : UInt8) : Bytes → Bytes
  | [] => []
  | [_] => []
  | b :: c :: rest =>
    if b = ascii '\\' then skip_short q rest
    else if b = q then c :: rest
    else skip_short q (c :: rest)

/-- What is behind the three closing quotes of a long string. -/
def skip_long (q : UInt8) : Bytes → Bytes
  | [] => []
  | [_] => []
  | b :: c :: rest =>
    if b = ascii '\\' then skip_long q rest
    else if b = q ∧ c = q ∧ rest.head? = some q then rest.tail
    else skip_long q (c :: rest)

/-- What is behind a string, from behind its first quote. -/
def amc_skip_string (q : UInt8) : Bytes → Bytes
  | b :: c :: rest => if b = q ∧ c = q then skip_long q rest else skip_short q (b :: c :: rest)
  | rest => skip_short q rest

def eq_ignore_ascii_case (word : Bytes) (kw : List Char) : Bool :=
  word.map to_ascii_lowercase = (ascii_text kw).map to_ascii_lowercase

/-- The token of a word, from the byte before it and the byte that ends it. -/
def word_token (prev : UInt8) (word : Bytes) (next : Option UInt8) : AmcTok :=
  if prev = ascii '?' || prev = ascii '$' then .Other
  else if next = some (ascii '\\') then .Escaped
  else if ascii ':' ∈ word then .PName word
  else if eq_ignore_ascii_case word ['A', 'D', 'D'] then .Amc 1
  else if eq_ignore_ascii_case word ['C', 'O', 'P', 'Y'] then .Amc 2
  else if eq_ignore_ascii_case word ['M', 'O', 'V', 'E'] then .Amc 3
  else if eq_ignore_ascii_case word ['S', 'I', 'L', 'E', 'N', 'T'] then .Silent
  else if eq_ignore_ascii_case word ['D', 'E', 'F', 'A', 'U', 'L', 'T'] then .Default
  else if eq_ignore_ascii_case word ['G', 'R', 'A', 'P', 'H'] then .Graph
  else if eq_ignore_ascii_case word ['P', 'R', 'E', 'F', 'I', 'X'] then .Prefix
  else if eq_ignore_ascii_case word ['B', 'A', 'S', 'E'] then .Base
  else .Other

/-- A name without the dots that it ends in. -/
def trim_dots (run : Bytes) : Bytes := run.rdropWhile (· = ascii '.')

theorem skip_short_le (q : UInt8) (s : Bytes) : (skip_short q s).length ≤ s.length := by
  fun_induction skip_short q s <;> simp_all <;> omega

theorem skip_long_le (q : UInt8) (s : Bytes) : (skip_long q s).length ≤ s.length := by
  fun_induction skip_long q s <;> simp_all <;> omega

theorem amc_skip_string_le (q : UInt8) (s : Bytes) : (amc_skip_string q s).length ≤ s.length := by
  unfold amc_skip_string
  split
  · have hlong := skip_long_le q
    have hshort := skip_short_le q
    split
    · rename_i rest _
      have hle := hlong rest
      simp only [List.length_cons]
      omega
    · exact hshort _
  · exact skip_short_le q s

/-- The scan, from the byte before what is left of the text. -/
def amc_tokens (prev : UInt8) : Bytes → List AmcTok
  | [] => []
  | c :: rest =>
    if is_ws c then amc_tokens c rest
    else if c = ascii '#' then amc_tokens c (rest.dropWhile (· ≠ ascii '\n'))
    else if c = ascii '<' then
      match _h : rest.dropWhile is_iri_byte with
      | d :: after =>
        if d = ascii '>' then
          let inner := rest.takeWhile is_iri_byte
          (if ascii '\\' ∈ inner then .Escaped else .Iri inner) :: amc_tokens d after
        else .Other :: amc_tokens c rest
      | [] => .Other :: amc_tokens c rest
    else if c = ascii '"' || c = ascii '\'' then .Other :: amc_tokens c (amc_skip_string c rest)
    else if is_pname_start c then
      let run := c :: rest.takeWhile is_pname_cont
      let after := rest.dropWhile is_pname_cont
      word_token prev (trim_dots run) after.head? :: amc_tokens (run.getLastD c) after
    else .Other :: amc_tokens c rest
termination_by text => text.length
decreasing_by
  · simp
  · have := (List.dropWhile_sublist (l := rest) (· ≠ ascii '\n')).length_le
    simp only [List.length_cons]
    omega
  · have hdrop := (List.dropWhile_sublist (l := rest) is_iri_byte).length_le
    rw [_h] at hdrop
    simp only [List.length_cons] at hdrop ⊢
    omega
  · simp
  · simp
  · have := amc_skip_string_le c rest
    simp only [List.length_cons]
    omega
  · have := (List.dropWhile_sublist (l := rest) is_pname_cont).length_le
    simp only [List.length_cons]
    omega
  · simp

def amc_tokenize (src : Bytes) : List AmcTok := amc_tokens 0 src

/-! ## Resolving operands -/

/-- The library of IRIs. A text that is parsed or resolved is the text of the IRI that it gives. -/
structure Iris where
  Iri : Type
  parse : Bytes → Option Iri
  resolve : Iri → Bytes → Option Iri
  into_inner : Iri → Bytes

/-- The text of bytes that are cut out of a text at ASCII bytes. -/
def text_of (bytes : Bytes) : String := (String.fromUTF8? bytes.toByteArray).getD ""

/-- The prologue in force: the base, and the prefixes with their namespaces. -/
structure Prologue (lib : Iris) where
  base : Option lib.Iri
  prefixes : Bytes → Option Bytes

variable {lib : Iris}

def resolve_iri (raw : Bytes) (base : Option lib.Iri) : Option Bytes :=
  match base with
  | some b => (lib.resolve b raw).map lib.into_inner
  | none => (lib.parse raw).map lib.into_inner

def resolve_named (raw : Bytes) (base : Option lib.Iri) : AmcSource :=
  match resolve_iri raw base with
  | some iri => .Named (text_of iri)
  | none => .Unknown

/-- A name cut at its first colon. -/
def split_once (name : Bytes) : Option (Bytes × Bytes) :=
  match name.dropWhile (· ≠ ascii ':') with
  | _ :: loc => some (name.takeWhile (· ≠ ascii ':'), loc)
  | [] => none

def expand_pname (name : Bytes) (prefixes : Bytes → Option Bytes) : AmcSource :=
  match split_once name with
  | some (pfx, loc) =>
    match prefixes pfx with
    | some ns => .Named (text_of (ns ++ loc))
    | none => .Unknown
  | none => .Unknown

/-- The operand in front, and the tokens behind it when its form is known. -/
def amc_parse_operand (p : Prologue lib) : List AmcTok → AmcSource × Option (List AmcTok)
  | .Default :: rest => (.Default, some rest)
  | .Iri raw :: rest => (resolve_named raw p.base, some rest)
  | .PName name :: rest => (expand_pname name p.prefixes, some rest)
  | .Escaped :: rest => (.Unknown, some rest)
  | .Graph :: .Iri raw :: rest => (resolve_named raw p.base, some rest)
  | .Graph :: .PName name :: rest => (expand_pname name p.prefixes, some rest)
  | .Graph :: .Escaped :: rest => (.Unknown, some rest)
  | _ => (.Unknown, none)

def is_identity : AmcSource → AmcSource → Bool
  | .Default, .Default => true
  | .Named a, .Named b => a = b
  | _, _ => false

/-- The hint of a verb, from the tokens behind it. -/
def amc_hint (p : Prologue lib) (op_count : Nat) (toks : List AmcTok) : AmcHint :=
  let silent := toks.head? = some .Silent
  let (source, after_source) := amc_parse_operand p (if silent then toks.tail else toks)
  let dest := match after_source with
    | some rest => (amc_parse_operand p rest.tail).1
    | none => .Unknown
  { silent, source, dest, op_index := 0, op_count, is_identity := is_identity source dest }

/-- A base IRI that is given against the current base. -/
def adopt_base (p : Prologue lib) (raw : Bytes) : Prologue lib :=
  match (resolve_iri raw p.base).bind lib.parse with
  | some b => { p with base := some b }
  | none => p

def declare_pfx (p : Prologue lib) (ns raw : Bytes) : Prologue lib :=
  match resolve_iri raw p.base with
  | some iri =>
    let pfx := ns.takeWhile (· ≠ ascii ':')
    { p with prefixes := fun q => if q = pfx then some iri else p.prefixes q }
  | none => p

def hints_from (p : Prologue lib) : List AmcTok → List AmcHint
  | [] => []
  | .Base :: .Iri raw :: rest => hints_from (adopt_base p raw) rest
  | .Prefix :: .PName ns :: .Iri raw :: rest => hints_from (declare_pfx p ns raw) rest
  | .Amc n :: rest => amc_hint p n rest :: hints_from p rest
  | _ :: rest => hints_from p rest

def recover_amc_hints (src : Bytes) (base_iri : Option lib.Iri) : List AmcHint :=
  hints_from ⟨base_iri, fun _ => none⟩ (amc_tokenize src)

end horndb.sparql
