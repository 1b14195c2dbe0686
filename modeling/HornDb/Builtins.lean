-- The builtin functions of expressions, each with the cuts, the subtractions and the unreachable
-- branches at which it would stop the program.
import HornDb.TextSlices

open HornDb.Lib.Utf8 (encode)
open HornDb.Lib.Floats (is_digit digits_value split_sign parse)
open horndb.sparql.text

namespace horndb.sparql.exec.builtins

inductive Func where
  | Str | Lang | LangMatches | Datatype | StrLen | SubStr | UCase | LCase
  | StrStarts | StrEnds | Contains | StrBefore | StrAfter | Concat | Replace | Regex
  | Abs | Ceil | Floor | Round
  | IsIri | IsBlank | IsLiteral | IsNumeric
  | Year | Month | Day | Hours | Minutes | Seconds
  | Tz | Timezone
  | Md5 | Sha1 | Sha256 | Sha384 | Sha512
  | Iri | BNode | StrDt | StrLang | EncodeForUri
  | Cast
  | Rand | Uuid | StrUuid
  | Now
deriving DecidableEq, Repr

/-! ## Terms and their texts -/

def value (t : Term) : List Char := (literal_value t).toList

def term_parts (t : Term) : Parts := literal_parts (lex t).toList

inductive TermKind where
  | Iri
  | Blank
  | Literal
  | Other
deriving DecidableEq, Repr

/-- An IRI's text may be that of a literal or of a blank node. -/
def term_kind : Term → TermKind
  | .Literal _ => .Literal
  | .BlankNode _ => .Blank
  | .Iri s =>
    match s.toList with
    | '"' :: _ => .Literal
    | '_' :: ':' :: _ => .Blank
    | _ => .Iri
  | _ => .Other

inductive StrKind where
  | Simple
  | Lang (tag : List Char)
  | XsdString
deriving DecidableEq, Repr

def str_kind (t : Term) : Option StrKind :=
  if term_kind t ≠ .Literal then none
  else
    match (term_parts t).lang, (term_parts t).datatype with
    | some tag, _ => some (.Lang tag)
    | none, none => some .Simple
    | none, some dt => if dt = XSD_STRING then some .XsdString else none

def literal (text : List Char) : Term := .Literal (String.ofList text)

def quoted (s : List Char) : List Char := '"' :: (escape_ntriples s ++ ['"'])

def typed (lexical dt : List Char) : List Char :=
  '"' :: (lexical ++ '"' :: '^' :: '^' :: '<' :: (dt ++ ['>']))

def xsd (name : String) : List Char := (XSD ++ name).toList

def plain_literal (s : List Char) : Term := literal (quoted s)

def lang_literal (s lang : List Char) : Term := literal (quoted s ++ '@' :: lang)

def typed_string_literal (s : List Char) : Term := literal (typed (escape_ntriples s) XSD_STRING)

def integer_literal (n : Int) : Term := literal (typed (toString n).toList (xsd "integer"))

def bool_lit (v : Bool) : Term := .Literal (if v then "true" else "false")

def literal_with_kind (s : List Char) : StrKind → Term
  | .Simple => plain_literal s
  | .Lang tag => lang_literal s tag
  | .XsdString => typed_string_literal s

def StrKind.is_lang (tag : List Char) : StrKind → Bool
  | .Lang t => t = tag
  | _ => false

/-- A tag that all arguments share is kept, and so is `xsd:string`. -/
def concat_kind (kinds : List StrKind) : StrKind :=
  let rest : StrKind :=
    if kinds ≠ [] ∧ kinds.all (· = .XsdString) then .XsdString else .Simple
  match kinds.head? with
  | some (.Lang tag) => if kinds.all (StrKind.is_lang tag) then .Lang tag else rest
  | _ => rest

def str_args_compatible : StrKind → StrKind → Bool
  | .Lang x, .Lang y => x = y
  | .Lang _, _ => true
  | _, .Lang _ => false
  | _, _ => true

def to_ascii_lowercase (s : List Char) : List Char := s.map Char.toLower

/-! ## Searches -/

/-- The byte position of the first occurrence. -/
def find (needle : List Char) : List Char → Option Nat
  | [] => if needle = [] then some 0 else none
  | c :: cs =>
    if needle.isPrefixOf (c :: cs) then some 0
    else (find needle cs).map ((String.utf8EncodeChar c).length + ·)

def str_before_after (hay needle : Term) (before : Bool) : Option (Option Term) :=
  match str_kind hay, str_kind needle with
  | some hay_kind, some needle_kind =>
    if str_args_compatible hay_kind needle_kind = false then some none
    else
      match find (value needle) (value hay) with
      | some i => do
        let split ←
          if before then slice_to (value hay) i
          else slice_from (value hay) (i + (encode (value needle)).length)
        some (some (literal_with_kind split hay_kind))
      | none => some (some (plain_literal []))
  | _, _ => some none

/-! ## Integers in texts -/

def digits (cs : List Char) : Option Nat :=
  if cs ≠ [] ∧ cs.all is_digit then some (digits_value cs) else none

def parse_i64 (cs : List Char) : Option Int := do
  let (negative, cs) := split_sign cs
  let n ← digits cs
  let n : Int := if negative then -n else n
  if -2 ^ 63 ≤ n ∧ n < 2 ^ 63 then some n else none

def parse_u32 (cs : List Char) : Option Nat := do
  let cs := match cs with
    | '+' :: cs => cs
    | cs => cs
  let n ← digits cs
  if n < 2 ^ 32 then some n else none

/-- A difference of signed words. -/
def sub_i64 (a b : Int) : Option Int :=
  if -2 ^ 63 ≤ a - b ∧ a - b < 2 ^ 63 then some (a - b) else none

/-- The nearest word, and zero for NaN. -/
def to_i64 (x : Float) : Int := x.toInt64.toInt

/-- The nearest length. -/
def to_usize (x : Float) : Nat := x.toUInt64.toNat

/-- The larger number, where NaN counts as none. -/
def max_zero (x : Float) : Float := if HornDb.Lib.Floats.partial_cmp 0 x = some .lt then x else 0

/-! ## Instants -/

def DATE_TIME : List Char := xsd "dateTime"

/-- Whether a text begins as an instant does, looked up byte by byte. -/
def is_instant (v : List Char) : Option Bool :=
  let bytes := encode v
  if bytes.length < 19 then some false
  else do
    let b4 ← bytes[4]?
    let b7 ← bytes[7]?
    let b10 ← bytes[10]?
    let b13 ← bytes[13]?
    let b16 ← bytes[16]?
    some (b4 = 0x2D ∧ b7 = 0x2D ∧ (b10 = 0x54 ∨ b10 = 0x20) ∧ b13 = 0x3A ∧ b16 = 0x3A ∧
      (bytes.take 4).all fun b => 0x30 ≤ b ∧ b ≤ 0x39)

def instant_field (v : List Char) (start stop : Nat) : Option (Option Term) :=
  (slice v start stop).map fun s => (parse_i64 s).map integer_literal

/-- The literals that the accessors are defined on. -/
def instant_of (t : Term) : Option (Option (List Char)) :=
  if (term_parts t).datatype ≠ some DATE_TIME then some none
  else do
    let shaped ← is_instant (term_parts t).value
    some (if shaped then some (term_parts t).value else none)

def digit_or_point (c : Char) : Bool := is_digit c || c == '.'

def timezone_suffix (v : List Char) : Option (List Char) := do
  let tail ← slice_from v 19
  let rest := tail.dropWhile digit_or_point
  some (if rest.head? = some 'Z' ∨ rest.head? = some '+' ∨ rest.head? = some '-' then rest else [])

def split_once (c : Char) (cs : List Char) : Option (List Char × List Char) :=
  match cs.dropWhile (· ≠ c) with
  | _ :: rest => some (cs.takeWhile (· ≠ c), rest)
  | [] => none

def duration_text (sign hhmm : List Char) : Option (List Char) := do
  let (h, m) ← split_once ':' hhmm
  let h ← parse_u32 h
  let m ← parse_u32 m
  let fields := (if 0 < h then (toString h).toList ++ ['H'] else []) ++
    (if 0 < m then (toString m).toList ++ ['M'] else [])
  if h = 0 ∧ m = 0 then some "PT0S".toList
  else if sign = ['-'] then some ('-' :: 'P' :: 'T' :: fields)
  else if sign ≠ ['+'] then none
  else some ('P' :: 'T' :: fields)

def day_time_duration (tz : List Char) : Option (Option (List Char)) :=
  if tz = [] then some none
  else if tz = ['Z'] then some (some "PT0S".toList)
  else (split_at 1 tz).map fun r => duration_text r.1 r.2

/-! ## Bytes -/

def low_hex (n : Nat) : Char := if n < 10 then Char.ofNat (48 + n) else Char.ofNat (87 + n)

def hex_encode (bytes : List UInt8) : List Char :=
  bytes.flatMap fun b => [low_hex (b.toNat / 16), low_hex (b.toNat % 16)]

def encode_for_uri (s : List Char) : List Char :=
  (encode s).flatMap fun b =>
    let c := Char.ofNat b.toNat
    if b.toNat < 0x80 ∧ (c.isAlphanum ∨ c = '-' ∨ c = '.' ∨ c = '_' ∨ c = '~') then [c]
    else '%' :: HornDb.Lib.Hex.hex_digits 2 b.toNat

/-- A random identifier, from sixteen random bytes. -/
def uuid_v4 (b : Vector UInt8 16) : Option (List Char) := do
  let b := b.set 6 ((b[6] &&& 0x0F) ||| 0x40)
  let b := b.set 8 ((b[8] &&& 0x3F) ||| 0x80)
  let h := hex_encode b.toList
  let h1 ← slice h 0 8
  let h2 ← slice h 8 12
  let h3 ← slice h 12 16
  let h4 ← slice h 16 20
  let h5 ← slice h 20 32
  some (h1 ++ '-' :: (h2 ++ '-' :: (h3 ++ '-' :: (h4 ++ '-' :: h5))))

/-! ## Typed numbers -/

/-- An exact type of the number library. An operation that overflows gives nothing. -/
structure ExactType where
  Value : Type
  from_str : List Char → Option Value
  to_string : Value → List Char
  add : Value → Value → Option Value
  sub : Value → Value → Option Value
  mul : Value → Value → Option Value
  neg : Value → Option Value
  abs : Value → Option Value

structure DecimalType extends ExactType where
  div : Value → Value → Option Value
  ceil : Value → Option Value
  floor : Value → Option Value
  round : Value → Option Value

structure FloatType where
  Value : Type
  from_str : List Char → Option Value
  to_f64 : Value → Float
  add : Value → Value → Value
  sub : Value → Value → Value
  mul : Value → Value → Value
  div : Value → Value → Value
  neg : Value → Value
  abs : Value → Value
  ceil : Value → Value
  floor : Value → Value
  round : Value → Value

/-- The number library, with its conversions. -/
structure Oxsdatatypes where
  Integer : ExactType
  Decimal : DecimalType
  Single : FloatType
  Double : FloatType
  integer_decimal : Integer.Value → Decimal.Value
  integer_single : Integer.Value → Single.Value
  integer_double : Integer.Value → Double.Value
  decimal_single : Decimal.Value → Single.Value
  decimal_double : Decimal.Value → Double.Value
  single_double : Single.Value → Double.Value
  double_of_f64 : Float → Double.Value

inductive Numeric (x : Oxsdatatypes) where
  | Int (v : x.Integer.Value)
  | Dec (v : x.Decimal.Value)
  | Flt (v : x.Single.Value)
  | Dbl (v : x.Double.Value)

namespace Numeric

variable {x : Oxsdatatypes}

def integer_types : List String :=
  ["integer", "long", "int", "short", "byte", "nonNegativeInteger", "nonPositiveInteger",
    "negativeInteger", "positiveInteger", "unsignedLong", "unsignedInt", "unsignedShort",
    "unsignedByte"]

def parse (x : Oxsdatatypes) (s dt : List Char) : Option (Numeric x) :=
  let v := trim s
  if integer_types.any fun name => dt = xsd name then (x.Integer.from_str v).map .Int
  else if dt = xsd "decimal" then (x.Decimal.from_str v).map .Dec
  else if dt = xsd "float" then (x.Single.from_str v).map .Flt
  else if dt = xsd "double" then (x.Double.from_str v).map .Dbl
  else none

def rank : Numeric x → Nat
  | .Int _ => 0
  | .Dec _ => 1
  | .Flt _ => 2
  | .Dbl _ => 3

def widen : Numeric x → Nat → Numeric x
  | .Int i, 1 => .Dec (x.integer_decimal i)
  | .Int i, 2 => .Flt (x.integer_single i)
  | .Int i, 3 => .Dbl (x.integer_double i)
  | .Dec d, 2 => .Flt (x.decimal_single d)
  | .Dec d, 3 => .Dbl (x.decimal_double d)
  | .Flt f, 3 => .Dbl (x.single_double f)
  | same, _ => same

def promote (a b : Numeric x) : Numeric x × Numeric x :=
  let rank := max a.rank b.rank
  (a.widen rank, b.widen rank)

/-- An operation at the common type. Two values of different types would stop the program. -/
def combine (int : x.Integer.Value → x.Integer.Value → Option (Numeric x))
    (dec : x.Decimal.Value → x.Decimal.Value → Option x.Decimal.Value)
    (flt : x.Single.Value → x.Single.Value → x.Single.Value)
    (dbl : x.Double.Value → x.Double.Value → x.Double.Value) (a b : Numeric x) :
    Option (Option (Numeric x)) :=
  match promote a b with
  | (.Int a, .Int b) => some (int a b)
  | (.Dec a, .Dec b) => some ((dec a b).map .Dec)
  | (.Flt a, .Flt b) => some (some (.Flt (flt a b)))
  | (.Dbl a, .Dbl b) => some (some (.Dbl (dbl a b)))
  | _ => none

def add : Numeric x → Numeric x → Option (Option (Numeric x)) :=
  combine (fun a b => (x.Integer.add a b).map .Int) x.Decimal.add x.Single.add x.Double.add

def sub : Numeric x → Numeric x → Option (Option (Numeric x)) :=
  combine (fun a b => (x.Integer.sub a b).map .Int) x.Decimal.sub x.Single.sub x.Double.sub

def mul : Numeric x → Numeric x → Option (Option (Numeric x)) :=
  combine (fun a b => (x.Integer.mul a b).map .Int) x.Decimal.mul x.Single.mul x.Double.mul

/-- The quotient of integers is a decimal. -/
def div : Numeric x → Numeric x → Option (Option (Numeric x)) :=
  combine (fun a b => (x.Decimal.div (x.integer_decimal a) (x.integer_decimal b)).map .Dec)
    x.Decimal.div x.Single.div x.Double.div

def neg : Numeric x → Option (Numeric x)
  | .Int i => (x.Integer.neg i).map .Int
  | .Dec d => (x.Decimal.neg d).map .Dec
  | .Flt f => some (.Flt (x.Single.neg f))
  | .Dbl d => some (.Dbl (x.Double.neg d))

def abs : Numeric x → Option (Numeric x)
  | .Int i => (x.Integer.abs i).map .Int
  | .Dec d => (x.Decimal.abs d).map .Dec
  | .Flt f => some (.Flt (x.Single.abs f))
  | .Dbl d => some (.Dbl (x.Double.abs d))

/-- A rounding keeps integers, and the type of the others. -/
def rounded (dec : x.Decimal.Value → Option x.Decimal.Value)
    (flt : x.Single.Value → x.Single.Value) (dbl : x.Double.Value → x.Double.Value) :
    Numeric x → Option (Numeric x)
  | .Int i => some (.Int i)
  | .Dec d => (dec d).map .Dec
  | .Flt f => some (.Flt (flt f))
  | .Dbl d => some (.Dbl (dbl d))

def ceil : Numeric x → Option (Numeric x) := rounded x.Decimal.ceil x.Single.ceil x.Double.ceil

def floor : Numeric x → Option (Numeric x) :=
  rounded x.Decimal.floor x.Single.floor x.Double.floor

def round : Numeric x → Option (Numeric x) :=
  rounded x.Decimal.round x.Single.round x.Double.round

theorem combine_some (int dec flt dbl) (a b : Numeric x) :
    ∃ r, combine int dec flt dbl a b = some r := by
  cases a <;> cases b <;> exact ⟨_, rfl⟩

end Numeric

end horndb.sparql.exec.builtins
