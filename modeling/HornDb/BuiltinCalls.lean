-- The evaluation of expressions with the builtin functions: which arguments a call evaluates, in
-- which order, and where the program stops.
import HornDb.Builtins

open HornDb.Lib.Utf8 (encode)
open horndb.sparql.text

namespace horndb.sparql.exec.builtins

open algebra (Expr)

/-! ## Outcomes -/

inductive Outcome (α : Type) where
  | done (a : α)
  | failed (e : SparqlError)
  | panicked

/-- A computation over the scope of a query. -/
def Eval (σ α : Type) : Type := σ → Outcome (α × σ)

namespace Eval

variable {σ α β : Type}

def bind (m : Eval σ α) (f : α → Eval σ β) : Eval σ β := fun s =>
  match m s with
  | .done (a, s) => f a s
  | .failed e => .failed e
  | .panicked => .panicked

instance : Monad (Eval σ) where
  pure a := fun s => .done (a, s)
  bind := bind

theorem bind_run (m : Eval σ α) (f : α → Eval σ β) (s : σ) :
    (m >>= f) s =
      match m s with
      | .done (a, s) => f a s
      | .failed e => .failed e
      | .panicked => .panicked := rfl

/-- A value that is not there stops the program. -/
def lift (o : Option α) : Eval σ α := fun s =>
  match o with
  | some a => .done (a, s)
  | none => .panicked

/-- A step of the scope that always ends. -/
def step (f : σ → α × σ) : Eval σ α := fun s => .done (f s)

end Eval

/-! ## The scope of a query -/

structure RegexFlags where
  case_insensitive : Bool := false
  dot_matches_new_line : Bool := false
  multi_line : Bool := false
  ignore_whitespace : Bool := false

/-- What the evaluation calls of other libraries, of the machine, and of the rest of the query. -/
structure Env (Pattern : Type) where
  numbers : Oxsdatatypes
  to_uppercase : List Char → List Char
  to_lowercase : List Char → List Char
  display : Float → List Char
  upper_exp : Float → List Char
  Regex : Type
  build : List Char → RegexFlags → Option Regex
  is_match : Regex → List Char → Bool
  replace_all : Regex → List Char → List Char → List Char
  md5 : List UInt8 → List UInt8
  sha1 : List UInt8 → List UInt8
  sha256 : List UInt8 → List UInt8
  sha384 : List UInt8 → List UInt8
  sha512 : List UInt8 → List UInt8
  parse_iri : List Char → Option (List Char)
  resolve_iri : List Char → List Char → Option (List Char)
  World : Type
  random_f64 : World → Float × World
  random_bytes : World → Vector UInt8 16 × World
  clock : World → List Char × World
  base : Option (List Char)
  Key : Type
  key_eq : DecidableEq Key
  key_of : Bindings → List Char → Key
  exists_pattern : Pattern → Bindings → Outcome Bool

variable {Pattern : Type}

/-- The instant of the query once it was asked for, the nodes handed out for keys, and how many
nodes there are. -/
structure QueryScope (env : Env Pattern) where
  now : Option Term
  bnodes : List (env.Key × Term)
  minted : Nat
  world : env.World

variable (env : Env Pattern)

abbrev Run (α : Type) : Type := Eval (QueryScope env) α

namespace QueryScope

variable {env}

def fresh_bnode (q : QueryScope env) : Term × QueryScope env :=
  (.BlankNode ("_:b" ++ toString q.minted), { q with minted := q.minted + 1 })

def bnode (b : Bindings) (s : List Char) (q : QueryScope env) : Term × QueryScope env :=
  let key := env.key_of b s
  match q.bnodes.find? fun e => (env.key_eq e.1 key).decide with
  | some e => (e.2, q)
  | none =>
    let (t, q) := q.fresh_bnode
    (t, { q with bnodes := (key, t) :: q.bnodes })

def get_now (q : QueryScope env) : Term × QueryScope env :=
  match q.now with
  | some t => (t, q)
  | none =>
    let (text, world) := env.clock q.world
    let t := literal (typed text (xsd "dateTime"))
    (t, { q with now := some t, world })

def random (q : QueryScope env) : Float × QueryScope env :=
  let (x, world) := env.random_f64 q.world
  (x, { q with world })

def uuid (q : QueryScope env) : Vector UInt8 16 × QueryScope env :=
  let (b, world) := env.random_bytes q.world
  (b, { q with world })

end QueryScope

/-! ## Numbers as terms -/

/-- The canonical text: a mantissa with a fraction, and an exponent. -/
def exponential (v : Float) : List Char :=
  if v.isNaN then "NaN".toList
  else if v.isInf then if HornDb.Lib.Floats.partial_cmp 0 v = some .lt then "INF".toList
    else "-INF".toList
  else
    let formatted := env.upper_exp v
    match split_once 'E' formatted with
    | some (mantissa, exponent) =>
      if '.' ∈ mantissa then formatted else mantissa ++ '.' :: '0' :: 'E' :: exponent
    | none => formatted

namespace Numeric

variable {env}

def lexical : Numeric env.numbers → List Char
  | .Int i => env.numbers.Integer.to_string i
  | .Dec d => env.numbers.Decimal.to_string d
  | .Flt f => exponential env (env.numbers.Single.to_f64 f)
  | .Dbl d => exponential env (env.numbers.Double.to_f64 d)

def datatype : Numeric env.numbers → List Char
  | .Int _ => xsd "integer"
  | .Dec _ => xsd "decimal"
  | .Flt _ => xsd "float"
  | .Dbl _ => xsd "double"

def to_term (n : Numeric env.numbers) : Term := literal (typed n.lexical n.datatype)

end Numeric

def numeric_of (t : Term) : Option (Numeric env.numbers) :=
  let parts := term_parts t
  if parts.lang.isSome then none else parts.datatype.bind (Numeric.parse env.numbers parts.value)

/-- An operation on two values. An operand that is no number is an error. -/
def arith (op : Numeric env.numbers → Numeric env.numbers → Option (Option (Numeric env.numbers)))
    (x y : Option Term) : Option (Option Term) :=
  match x.bind (numeric_of env), y.bind (numeric_of env) with
  | some a, some b => (op a b).map fun r => r.map Numeric.to_term
  | _, _ => some none

def negate (x : Option Term) : Option Term :=
  ((x.bind (numeric_of env)).bind Numeric.neg).map Numeric.to_term

/-! ## Regular expressions and casts -/

def regex_flags : List Char → RegexFlags → Option RegexFlags
  | [], b => some b
  | 'i' :: flags, b => regex_flags flags { b with case_insensitive := true }
  | 's' :: flags, b => regex_flags flags { b with dot_matches_new_line := true }
  | 'm' :: flags, b => regex_flags flags { b with multi_line := true }
  | 'x' :: flags, b => regex_flags flags { b with ignore_whitespace := true }
  | _ :: _, _ => none

def compile_regex (pattern flags : List Char) : Option env.Regex :=
  (regex_flags flags {}).bind (env.build pattern)

def cast (dt : List Char) (src : Term) : Option Term :=
  let v := value src
  match str_kind src with
  | some (.Lang _) => none
  | _ =>
    if dt = xsd "string" then some (typed_string_literal v)
    else if dt = xsd "boolean" then
      if trim v = "true".toList ∨ trim v = ['1'] then some (bool_lit true)
      else if trim v = "false".toList ∨ trim v = ['0'] then some (bool_lit false)
      else none
    else (Numeric.parse env.numbers v dt).map Numeric.to_term

/-! ## Functions that need a library -/

/-- A simple literal or an `xsd:string`. -/
def plain_kind (t : Term) : Bool := str_kind t = some .Simple ∨ str_kind t = some .XsdString

def seconds (t : Term) : Option (Option Term) := do
  match ← instant_of t with
  | none => some none
  | some v => do
    let tail ← slice_from v 17
    some ((HornDb.Lib.Floats.parse (tail.takeWhile digit_or_point)).map fun x =>
      literal (typed (env.display x) (xsd "decimal")))

def iri (t : Term) : Option Term :=
  if term_kind t = .Iri then some t
  else if plain_kind t then
    (match env.base with
    | some base => env.resolve_iri base (value t)
    | none => env.parse_iri (value t)).map fun text => .Iri (String.ofList text)
  else none

def numeric_op (op : Numeric env.numbers → Option (Numeric env.numbers)) (t : Term) :
    Option (Option Term) :=
  some (((numeric_of env t).bind op).map Numeric.to_term)

/-! ## Calls -/

section Calls

variable {env}

/-- The arguments of a call are evaluated when they are asked for. -/
abbrev Arg (env : Env Pattern) : Type := Nat → Run env (Option Term)

variable (argc : Nat) (term : Arg env)

/-- A function of its first argument. -/
def unary (g : Term → Option (Option Term)) : Run env (Option Term) := do
  match ← term 0 with
  | some t => Eval.lift (g t)
  | none => pure none

/-- A function of its first two arguments, which are both evaluated. -/
def binary (g : Term → Term → Option (Option Term)) : Run env (Option Term) := do
  let a ← term 0
  let b ← term 1
  match a, b with
  | some a, some b => Eval.lift (g a b)
  | _, _ => pure none

/-- The flags, when the call has them. -/
def flags_arg (given : Bool) (i : Nat) : Run env (Option (List Char)) :=
  if given then do
    let t ← term i
    pure (t.map value)
  else pure (some [])

def str_op (g : List Char → List Char) (t : Term) : Option (Option Term) :=
  some ((str_kind t).map (literal_with_kind (g (value t))))

def sub_str : Run env (Option Term) := do
  let source ← term 0
  let start ← term 1
  match source, start.bind numeric_value with
  | some source, some start =>
    match str_kind source with
    | none => pure none
    | some kind => do
      let start ← Eval.lift (sub_i64 (to_i64 start.round) 1)
      let taken := (value source).drop (max start 0).toNat
      if argc = 2 then pure (some (literal_with_kind taken kind))
      else if argc = 3 then do
        let len ← term 2
        match len.bind numeric_value with
        | some l => pure (some (literal_with_kind (taken.take (to_usize (max_zero l.round))) kind))
        | none => pure none
      else pure none
  | _, _ => pure none

/-- The values of the arguments in a row, and their kinds. -/
def concat_args : List Nat → List Char → List StrKind →
    Run env (Option (List Char × List StrKind))
  | [], out, kinds => pure (some (out, kinds))
  | i :: rest, out, kinds => do
    match ← term i with
    | some t =>
      match str_kind t with
      | some kind => concat_args rest (out ++ value t) (kinds ++ [kind])
      | none => pure none
    | none => pure none

def concat : Run env (Option Term) := do
  match ← concat_args term (List.range argc) [] [] with
  | some (out, kinds) => pure (some (literal_with_kind out (concat_kind kinds)))
  | none => pure none

def replace : Run env (Option Term) := do
  let source ← term 0
  let pat ← term 1
  let repl ← term 2
  match source, pat, repl with
  | some source, some pat, some repl =>
    match str_kind source with
    | none => pure none
    | some kind => do
      match ← flags_arg term (argc = 4) 3 with
      | none => pure none
      | some flags =>
        pure ((compile_regex env (value pat) flags).map fun re =>
          literal_with_kind (env.replace_all re (value source) (value repl)) kind)
  | _, _, _ => pure none

def regex : Run env (Option Term) := do
  let text ← term 0
  let pat ← term 1
  match text, pat with
  | some text, some pat => do
    match ← flags_arg term (argc = 3) 2 with
    | none => pure none
    | some flags =>
      pure ((compile_regex env (value pat) flags).map fun re =>
        bool_lit (env.is_match re (value text)))
  | _, _ => pure none

def bnode_call (b : Bindings) : Run env (Option Term) :=
  if argc = 0 then do
    let t ← Eval.step QueryScope.fresh_bnode
    pure (some t)
  else do
    match ← term 0 with
    | some t =>
      if plain_kind t then do
        let node ← Eval.step (QueryScope.bnode b (value t))
        pure (some node)
      else pure none
    | none => pure none

/-- The first argument has to be a simple literal. -/
def tagged (g : List Char → Term → Option Term) : Run env (Option Term) := do
  let t ← term 0
  match t.bind str_kind with
  | some .Simple => do
    let tag ← term 1
    pure ((Option.map₂ (fun t tag => g (value t) tag) t tag).bind id)
  | _ => pure none

def str_dt (lexical : List Char) (dt : Term) : Option Term :=
  if term_kind dt = .Iri then some (literal (typed (escape_ntriples lexical) (lex dt).toList))
  else none

def str_lang (lexical : List Char) (tag : Term) : Option Term :=
  if (str_kind tag).isSome ∧ value tag ≠ [] then
    some (lang_literal lexical (to_ascii_lowercase (value tag)))
  else none

def cast_call : Run env (Option Term) := do
  match ← term 0 with
  | some (.Iri s) => do
    let src ← term 1
    pure (src.bind (cast env s.toList))
  | _ => pure none

def uuid_text : Run env (List Char) := do
  let b ← Eval.step QueryScope.uuid
  Eval.lift (uuid_v4 b)

def lang_matches (tag range : List Char) : Bool :=
  let tag := to_ascii_lowercase tag
  let range := to_ascii_lowercase range
  if range = ['*'] then tag ≠ [] else tag = range ∨ (range ++ ['-']).isPrefixOf tag

def datatype (t : Term) : Option Term :=
  if term_kind t ≠ .Literal then none
  else
    some (.Iri (String.ofList
      (match (term_parts t).datatype with
      | some dt => dt
      | none =>
        if (term_parts t).lang.isSome then
          "http://www.w3.org/1999/02/22-rdf-syntax-ns#langString".toList
        else XSD_STRING)))

def is_numeric (t : Term) : Bool :=
  term_kind t = .Literal ∧
    (term_parts t).datatype.any (fun dt => is_numeric_datatype (String.ofList dt)) ∧
    (HornDb.Lib.Floats.parse (trim (term_parts t).value)).isSome

/-- A field of an instant, between two byte positions. -/
def accessor (start stop : Nat) (t : Term) : Option (Option Term) := do
  match ← instant_of t with
  | none => some none
  | some v => instant_field v start stop

def tz (t : Term) : Option (Option Term) := do
  match ← instant_of t with
  | none => some none
  | some v => do
    let suffix ← timezone_suffix v
    some (some (plain_literal suffix))

def timezone (t : Term) : Option (Option Term) := do
  match ← instant_of t with
  | none => some none
  | some v => do
    let suffix ← timezone_suffix v
    let duration ← day_time_duration suffix
    some (duration.map fun d => literal (typed d (xsd "dayTimeDuration")))

def hash (g : List UInt8 → List UInt8) (t : Term) : Option (Option Term) :=
  some (if plain_kind t then some (plain_literal (hex_encode (g (encode (value t))))) else none)

def eval_func (f : Func) (b : Bindings) : Run env (Option Term) :=
  match f with
  | .Str => unary term fun t => some (some (plain_literal (value t)))
  | .Lang => unary term fun t =>
    some (if term_kind t ≠ .Literal then none
      else some (plain_literal ((term_parts t).lang.getD [])))
  | .LangMatches => binary term fun tag range =>
    some (some (bool_lit (lang_matches (value tag) (value range))))
  | .Datatype => unary term fun t => some (datatype t)
  | .StrLen => unary term fun t => some (some (integer_literal (value t).length))
  | .SubStr => sub_str argc term
  | .UCase => unary term (str_op env.to_uppercase)
  | .LCase => unary term (str_op env.to_lowercase)
  | .StrStarts => binary term fun x y =>
    some (some (bool_lit ((value y).isPrefixOf (value x))))
  | .StrEnds => binary term fun x y => some (some (bool_lit ((value y).isSuffixOf (value x))))
  | .Contains => binary term fun x y =>
    some (some (bool_lit (find (value y) (value x)).isSome))
  | .StrBefore => binary term fun x y => str_before_after x y true
  | .StrAfter => binary term fun x y => str_before_after x y false
  | .Concat => concat argc term
  | .Replace => replace argc term
  | .Regex => regex argc term
  | .Abs => unary term (numeric_op env Numeric.abs)
  | .Ceil => unary term (numeric_op env Numeric.ceil)
  | .Floor => unary term (numeric_op env Numeric.floor)
  | .Round => unary term (numeric_op env Numeric.round)
  | .IsIri => unary term fun t => some (some (bool_lit (term_kind t = .Iri)))
  | .IsBlank => unary term fun t => some (some (bool_lit (term_kind t = .Blank)))
  | .IsLiteral => unary term fun t => some (some (bool_lit (term_kind t = .Literal)))
  | .IsNumeric => unary term fun t => some (some (bool_lit (is_numeric t)))
  | .Year => unary term (accessor 0 4)
  | .Month => unary term (accessor 5 7)
  | .Day => unary term (accessor 8 10)
  | .Hours => unary term (accessor 11 13)
  | .Minutes => unary term (accessor 14 16)
  | .Seconds => unary term (seconds env)
  | .Tz => unary term tz
  | .Timezone => unary term timezone
  | .Md5 => unary term (hash env.md5)
  | .Sha1 => unary term (hash env.sha1)
  | .Sha256 => unary term (hash env.sha256)
  | .Sha384 => unary term (hash env.sha384)
  | .Sha512 => unary term (hash env.sha512)
  | .Iri => unary term fun t => some (iri env t)
  | .BNode => bnode_call argc term b
  | .StrDt => tagged term str_dt
  | .StrLang => tagged term str_lang
  | .EncodeForUri => unary term fun t =>
    some (if (str_kind t).isSome then some (plain_literal (encode_for_uri (value t))) else none)
  | .Cast => cast_call term
  | .Rand => do
    let x ← Eval.step QueryScope.random
    let n : Numeric env.numbers := .Dbl (env.numbers.double_of_f64 x)
    pure (some (literal (typed n.lexical (xsd "double"))))
  | .Uuid => do
    let text ← uuid_text
    pure (some (.Iri (String.ofList ("urn:uuid:".toList ++ text))))
  | .StrUuid => do
    let text ← uuid_text
    pure (some (plain_literal text))
  | .Now => do
    let t ← Eval.step QueryScope.get_now
    pure (some t)

end Calls

/-! ## Expressions -/

namespace Env

variable (b : Bindings)

def exists_call (p : Pattern) : Run env Bool := fun s =>
  match env.exists_pattern p b with
  | .done v => .done (v, s)
  | .failed e => .failed e
  | .panicked => .panicked

mutual

/-- What `eval_expr` and `eval_expr_to_term` give. -/
def evaluate : Expr Func Pattern → Run env Evaluation
  | .Term (.Var v) => pure (.of_term (b v))
  | .Term t => pure (.of_term (some t))
  | .Eq a c | .SameTerm a c => do
    let x ← evaluate a
    let y ← evaluate c
    pure (.of_test (x.term = y.term))
  | .Ne a c => do
    let x ← evaluate a
    let y ← evaluate c
    pure (.of_test (x.term ≠ y.term))
  | .Lt a c => do
    let x ← evaluate a
    let y ← evaluate c
    pure (.of_test (compare_values x.term y.term = some .lt))
  | .Gt a c => do
    let x ← evaluate a
    let y ← evaluate c
    pure (.of_test (compare_values x.term y.term = some .gt))
  | .Le a c => do
    let x ← evaluate a
    let y ← evaluate c
    pure (.of_test ((compare_values x.term y.term).any Ordering.isLE))
  | .Ge a c => do
    let x ← evaluate a
    let y ← evaluate c
    pure (.of_test ((compare_values x.term y.term).any Ordering.isGE))
  | .And a c => do
    let x ← evaluate a
    if x.test then do
      let y ← evaluate c
      pure (.of_test y.test)
    else pure (.of_test false)
  | .Or a c => do
    let x ← evaluate a
    if x.test then pure (.of_test true)
    else do
      let y ← evaluate c
      pure (.of_test y.test)
  | .Not a => do
    let x ← evaluate a
    pure (.of_test !x.test)
  | .Bound v => pure (.of_test (b v).isSome)
  | .Exists p => do
    let v ← env.exists_call b p
    pure (.of_test v)
  | .In a list => do
    let x ← evaluate a
    match x.term with
    | none => pure (.of_test false)
    | some x => do
      let found ← in_list x list
      pure (.of_test found)
  | .Add x y => do
    let x ← evaluate x
    let y ← evaluate y
    let t ← Eval.lift (arith env Numeric.add x.term y.term)
    pure (.of_term t)
  | .Sub x y => do
    let x ← evaluate x
    let y ← evaluate y
    let t ← Eval.lift (arith env Numeric.sub x.term y.term)
    pure (.of_term t)
  | .Mul x y => do
    let x ← evaluate x
    let y ← evaluate y
    let t ← Eval.lift (arith env Numeric.mul x.term y.term)
    pure (.of_term t)
  | .Div x y => do
    let x ← evaluate x
    let y ← evaluate y
    let t ← Eval.lift (arith env Numeric.div x.term y.term)
    pure (.of_term t)
  | .Neg x => do
    let x ← evaluate x
    pure (.of_term (negate env x.term))
  | .If c t f => do
    let c ← evaluate c
    match c.term.map ebv with
    | some true => do
      let x ← evaluate t
      pure (.of_term x.term)
    | some false => do
      let x ← evaluate f
      pure (.of_term x.term)
    | none => pure (.of_term none)
  | .Coalesce args => do
    let found ← coalesce args
    pure (.of_term found)
  | .Func f args => do
    let found ← eval_func args.length (nth_arg args) f b
    pure (.of_term found)

/-- Whether a term is one of a list. -/
def in_list (x : Term) : List (Expr Func Pattern) → Run env Bool
  | [] => pure false
  | item :: list => do
    let y ← evaluate item
    if y.term.any (in_equal x) then pure true else in_list x list

/-- The first argument that is no error. -/
def coalesce : List (Expr Func Pattern) → Run env (Option Term)
  | [] => pure none
  | a :: args => do
    let x ← evaluate a
    match x.term with
    | some t => pure (some t)
    | none => coalesce args

/-- The argument at a position. There is none behind the last. -/
def nth_arg : List (Expr Func Pattern) → Nat → Run env (Option Term)
  | [], _ => pure none
  | a :: _, 0 => do
    let x ← evaluate a
    pure x.term
  | _ :: args, i + 1 => nth_arg args i

end

end Env

end horndb.sparql.exec.builtins
