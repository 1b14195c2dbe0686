-- Whether a Turtle document may be cut into chunks: a scan of its bytes for directives behind
-- the leading ones, which steps over comments, IRIs and string literals.
import HornDb.Lib.Wire

open HornDb.Lib.Wire

namespace horndb.storage.turtle

/-! ## Bytes -/

def ascii (c : Char) : UInt8 := c.toNat.toUInt8

def ascii_text (cs : List Char) : Bytes := cs.map ascii

def is_ascii_whitespace (b : UInt8) : Bool :=
  b = ascii ' ' || b = ascii '\t' || b = ascii '\n' || b = 12 || b = ascii '\r'

def is_ascii_alphanumeric (b : UInt8) : Bool :=
  (ascii '0' ≤ b && b ≤ ascii '9') || (ascii 'A' ≤ b && b ≤ ascii 'Z') ||
    (ascii 'a' ≤ b && b ≤ ascii 'z')

def to_ascii_lowercase (b : UInt8) : UInt8 :=
  if ascii 'A' ≤ b && b ≤ ascii 'Z' then b + 32 else b

/-- The bytes that can go on in a name. -/
def is_name_byte (b : UInt8) : Bool :=
  is_ascii_alphanumeric b || b = ascii '_' || b = ascii '-' || b = ascii ':' || b ≥ 0x80

inductive Directive where
  | Prefix
  | Base
deriving DecidableEq, Repr

/-! ## Steps over tokens -/

/-- White space and comments at the front. A comment ends in front of a line feed. -/
def blank_len (comment : Bool) : Bytes → Nat
  | [] => 0
  | b :: rest =>
    if comment then 1 + blank_len (b ≠ ascii '\n') rest
    else if is_ascii_whitespace b then 1 + blank_len false rest
    else if b = ascii '#' then 1 + blank_len true rest
    else 0

def skip_ws_and_comments (bytes : Bytes) (i : Nat) : Nat := i + blank_len false (bytes.drop i)

/-- What is left of an IRI, with its bracket. -/
def iri_len : Bytes → Nat
  | [] => 0
  | [b] => if b = ascii '\n' then 0 else 1
  | b :: c :: rest =>
    if b = ascii '\\' then 2 + iri_len rest
    else if b = ascii '>' then 1
    else if b = ascii '\n' then 0
    else 1 + iri_len (c :: rest)

/-- Past the bracket that closes the IRI, or up to the end of its line. -/
def skip_iri (bytes : Bytes) (i : Nat) : Nat := i + 1 + iri_len (bytes.drop (i + 1))

/-- What is left of a string literal, with its closing quotes. -/
def literal_len (q : UInt8) (long : Bool) : Bytes → Nat
  | [] => 0
  | [b] => if b ≠ ascii '\\' && b ≠ q && b = ascii '\n' && !long then 0 else 1
  | b :: c :: rest =>
    if b = ascii '\\' then 2 + literal_len q long rest
    else if b = q then
      if !long then 1
      else if c = q && rest.head? = some q then 3
      else 1 + literal_len q long (c :: rest)
    else if b = ascii '\n' && !long then 0
    else 1 + literal_len q long (c :: rest)

/-- Past the string literal of either quote, long or short. -/
def skip_literal (bytes : Bytes) (i : Nat) : Nat :=
  let q := bytes.getD i 0
  let long := bytes[i + 1]? = some q && bytes[i + 2]? = some q
  let j := if long then i + 3 else i + 1
  j + literal_len q long (bytes.drop j)

/-- The keyword in any case, in front of white space or a bracket. -/
def keyword_at (kw rest : Bytes) : Bool :=
  (rest.take kw.length).map to_ascii_lowercase = kw &&
    match rest[kw.length]? with
    | some c => is_ascii_whitespace c || c = ascii '<'
    | none => false

def sparql_directive (rest : Bytes) : Option Directive :=
  if keyword_at (ascii_text ['p', 'r', 'e', 'f', 'i', 'x']) rest then some .Prefix
  else if keyword_at (ascii_text ['b', 'a', 's', 'e']) rest then some .Base
  else none

def prefix_at : Bytes := ascii_text ['@', 'p', 'r', 'e', 'f', 'i', 'x']

def base_at : Bytes := ascii_text ['@', 'b', 'a', 's', 'e']

/-! ## The leading directives -/

/-- Past the IRI of the directive at `i`. -/
def skip_to_iri_end (bytes : Bytes) (i : Nat) : Option Nat :=
  ((bytes.drop i).findIdx? (· = ascii '<')).bind fun o =>
    let iri_end := skip_iri bytes (i + o)
    if bytes[iri_end - 1]? = some (ascii '>') then some iri_end else none

/-- Past the dot behind that IRI. -/
def skip_iri_then_dot (bytes : Bytes) (i : Nat) : Option Nat :=
  (skip_to_iri_end bytes i).bind fun after_iri =>
    let dot := skip_ws_and_comments bytes after_iri
    if bytes[dot]? = some (ascii '.') then some (dot + 1) else none

/-- Past the directive at `i`, when there is one. -/
def skip_directive (bytes : Bytes) (i : Nat) : Option Nat :=
  let rest := bytes.drop i
  if prefix_at <+: rest || base_at <+: rest then skip_iri_then_dot bytes i
  else if (sparql_directive rest).isSome then skip_to_iri_end bytes i
  else none

def leading_from (bytes : Bytes) : Nat → Nat → Nat
  | 0, i => i
  | fuel + 1, i =>
    let i := skip_ws_and_comments bytes i
    if i ≥ bytes.length then i
    else
      match skip_directive bytes i with
      | some n => leading_from bytes fuel n
      | none => i

/-- Past the leading run of directives. -/
def leading_directive_block_end (bytes : Bytes) : Nat := leading_from bytes (bytes.length + 1) 0

/-! ## The scan -/

/-- One step of the scan: where it goes on, whether it comes from a literal, and the directive
that it met. -/
def scan_step (bytes : Bytes) (i : Nat) (after_literal : Bool) : Nat × Bool × Option Directive :=
  let b := bytes.getD i 0
  if b = ascii '#' then (i + ((bytes.drop i).takeWhile (· ≠ ascii '\n')).length, false, none)
  else if b = ascii '<' then (skip_iri bytes i, false, none)
  else if b = ascii '"' || b = ascii '\'' then (skip_literal bytes i, true, none)
  else if b = ascii '@' then
    let rest := bytes.drop i
    let found :=
      if after_literal then none
      else if prefix_at <+: rest then some .Prefix
      else if base_at <+: rest then some .Base
      else none
    (i + 1, false, found)
  else if b = ascii 'p' || b = ascii 'P' || b = ascii 'b' || b = ascii 'B' then
    let preceded_by_name := i > 0 && is_name_byte (bytes.getD (i - 1) 0)
    let found := if preceded_by_name then none else sparql_directive (bytes.drop i)
    -- the rest of the word is stepped over
    (i + 1 + ((bytes.drop (i + 1)).takeWhile is_name_byte).length, false, found)
  else (i + 1, false, none)

def scan_from (bytes : Bytes) : Nat → Nat → Bool → List (Nat × Directive)
  | 0, _, _ => []
  | fuel + 1, i, after_literal =>
    if i < bytes.length then
      let (next, after_literal, found) := scan_step bytes i after_literal
      (found.map fun kind => (i, kind)).toList ++ scan_from bytes fuel next after_literal
    else []

/-- Every directive that the scan meets, with its offset. -/
def scan_directives (bytes : Bytes) : List (Nat × Directive) :=
  scan_from bytes bytes.length 0 false

/-- Whether the document may be cut: no base, and no prefix behind the leading directives. -/
def turtle_split_is_safe (bytes : Bytes) : Bool :=
  let leading_end := leading_directive_block_end bytes
  !(scan_directives bytes).any fun (pos, kind) => kind = .Base || pos ≥ leading_end

end horndb.storage.turtle
