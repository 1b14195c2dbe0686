-- The expressions of a query over one solution: what an expression is worth as a value, and what
-- it is worth as a condition.
import HornDb.Lib.Floats
import HornDb.SlotRows
import HornDb.TermText

open HornDb.Lib.Floats (parse)
open horndb.sparql.text

namespace horndb.sparql.algebra

/-- An expression. The builtin functions and the patterns of EXISTS are evaluated elsewhere. -/
inductive Expr (Func Pattern : Type) where
  | Term (t : sparql.Term)
  | Eq (a c : Expr Func Pattern)
  | SameTerm (a c : Expr Func Pattern)
  | Ne (a c : Expr Func Pattern)
  | Lt (a c : Expr Func Pattern)
  | Gt (a c : Expr Func Pattern)
  | Le (a c : Expr Func Pattern)
  | Ge (a c : Expr Func Pattern)
  | And (a c : Expr Func Pattern)
  | Or (a c : Expr Func Pattern)
  | Not (a : Expr Func Pattern)
  | Bound (v : exec.Var)
  | In (a : Expr Func Pattern) (list : List (Expr Func Pattern))
  | Add (x y : Expr Func Pattern)
  | Sub (x y : Expr Func Pattern)
  | Mul (x y : Expr Func Pattern)
  | Div (x y : Expr Func Pattern)
  | Neg (x : Expr Func Pattern)
  | If (c t f : Expr Func Pattern)
  | Coalesce (args : List (Expr Func Pattern))
  | Func (f : Func) (args : List (Expr Func Pattern))
  | Exists (p : Pattern)

end horndb.sparql.algebra

namespace horndb.sparql.exec

open algebra (Expr)

/-! ## Terms as numbers and as texts -/

/-- The text between the quotes of a literal, its escapes taken back. -/
def literal_lexical (raw : List Char) : List Char :=
  let raw := trim raw
  match raw with
  | '"' :: cs =>
    match split_quoted cs with
    | some (value, _) => unescape_ntriples value
    | none => raw
  | _ => raw

/-- A term of any kind may hold a literal's text. -/
def literal_value : Term → String
  | .Literal s | .Iri s | .BlankNode s => String.ofList (literal_lexical s.toList)
  | .Var name => name
  | .Triple _ _ _ => ""

def parse_trimmed (s : String) : Option Float := parse (trim s.toList)

def numeric_value (t : Term) : Option Float := parse_trimmed (literal_value t)

/-- A text that begins as an instant does is its own key. -/
def datetime_key (s : String) : Option String :=
  let bytes := (s.toList.flatMap String.utf8EncodeChar).map UInt8.toNat
  let digit (i : Nat) := 0x30 ≤ bytes.getD i 0 ∧ bytes.getD i 0 ≤ 0x39
  if bytes.length < 19 then none
  else if bytes.getD 4 0 = 0x2D ∧ bytes.getD 7 0 = 0x2D ∧
      (bytes.getD 10 0 = 0x54 ∨ bytes.getD 10 0 = 0x20) ∧ bytes.getD 13 0 = 0x3A ∧
      bytes.getD 16 0 = 0x3A ∧ digit 0 ∧ digit 1 ∧ digit 2 ∧ digit 3 then some s
  else none

def compare_lexical (lx ly : String) : Ordering :=
  match datetime_key lx, datetime_key ly with
  | some a, some b => compare a b
  | _, _ => compare lx ly

/-- As numbers when both are numbers, else as texts. NaN is equal to each number. -/
def compare_terms (x y : Term) : Ordering :=
  match numeric_value x, numeric_value y with
  | some a, some b => HornDb.Lib.Floats.compare_numbers a b
  | _, _ => compare_lexical (literal_value x) (literal_value y)

/-! ## The truth of a value -/

/-- The store may hand out a literal or a blank node in place of an IRI. -/
def is_literal : Term → Bool
  | .Literal _ => true
  | .Iri s => s.toList.head? = some '"'
  | _ => false

def XSD : String := "http://www.w3.org/2001/XMLSchema#"

def numeric_types : List String :=
  ["integer", "decimal", "double", "float", "long", "int", "short", "byte", "nonNegativeInteger",
    "nonPositiveInteger", "negativeInteger", "positiveInteger", "unsignedLong", "unsignedInt",
    "unsignedShort", "unsignedByte"]

def is_numeric_datatype (dt : String) : Bool := numeric_types.any fun name => dt = XSD ++ name

/-- The effective Boolean value of a term. It is false where there is none. -/
def ebv (t : Term) : Bool :=
  let raw := (lex t).toList
  if is_literal t = false then false
  else if raw.head? ≠ some '"' then
    if lex t = "true" then true
    else if lex t = "false" then false
    else
      match parse (trim raw) with
      | some n => HornDb.Lib.Floats.partial_cmp n 0 ≠ some .eq
      | none => lex t ≠ ""
  else
    let parts := literal_parts raw
    match parts.datatype.map String.ofList with
    | none => parts.value ≠ []
    | some dt =>
      if dt = XSD ++ "boolean" then parts.value = "true".toList ∨ parts.value = ['1']
      else if is_numeric_datatype dt then
        match parse (trim parts.value) with
        | some n => HornDb.Lib.Floats.partial_cmp n 0 ≠ some .eq ∧ n.isNaN = false
        | none => false
      else if dt = XSD ++ "string" then parts.value ≠ []
      else false

def bool_typed_literal (v : Bool) : Term :=
  .Literal ("\"" ++ (if v then "true" else "false") ++ "\"^^<" ++ XSD ++ "boolean>")

/-! ## Evaluation -/

/-- What the evaluation of a query's expressions calls: the arithmetic of typed numbers, the
builtin functions on the values of their arguments, and the patterns of EXISTS. -/
structure EvalScope (Func Pattern : Type) where
  Numeric : Type
  numeric_of : Term → Option Numeric
  add : Numeric → Numeric → Option Numeric
  sub : Numeric → Numeric → Option Numeric
  mul : Numeric → Numeric → Option Numeric
  div : Numeric → Numeric → Option Numeric
  neg : Numeric → Option Numeric
  to_term : Numeric → Term
  eval_func : Func → List (Option Term) → Result (Option Term)
  exists_pattern : Pattern → Bindings → Result Bool
  pattern_vars : Pattern → List Var

variable {Func Pattern : Type}

def EvalScope.arith (q : EvalScope Func Pattern)
    (op : q.Numeric → q.Numeric → Option q.Numeric) (x y : Option Term) : Option Term := do
  let a ← x.bind q.numeric_of
  let b ← y.bind q.numeric_of
  (op a b).map q.to_term

def EvalScope.negate (q : EvalScope Func Pattern) (x : Option Term) : Option Term := do
  let a ← x.bind q.numeric_of
  (q.neg a).map q.to_term

/-- The order of two values. There is none with an error. -/
def compare_values : Option Term → Option Term → Option Ordering
  | some x, some y => some (compare_terms x y)
  | _, _ => none

/-- A member of a list need not be the same term. -/
def in_equal (x y : Term) : Bool := x = y ∨ compare_terms x y = .eq

/-- An expression evaluated, as a condition and as a value. -/
structure Evaluation where
  test : Bool
  term : Option Term

/-- The value of a condition is a Boolean literal. -/
def Evaluation.of_test (v : Bool) : Evaluation := ⟨v, some (bool_typed_literal v)⟩

/-- A value is a condition by its effective Boolean value. An error is false. -/
def Evaluation.of_term (t : Option Term) : Evaluation := ⟨(t.map ebv).getD false, t⟩

namespace EvalScope

variable (q : EvalScope Func Pattern) (b : Bindings)

mutual

/-- What `eval_expr` and `eval_expr_to_term` give. -/
def evaluate : Expr Func Pattern → Result Evaluation
  | .Term (.Var v) => .ok (.of_term (b v))
  | .Term t => .ok (.of_term (some t))
  | .Eq a c | .SameTerm a c => do
    let x ← evaluate a
    let y ← evaluate c
    .ok (.of_test (x.term = y.term))
  | .Ne a c => do
    let x ← evaluate a
    let y ← evaluate c
    .ok (.of_test (x.term ≠ y.term))
  | .Lt a c => do
    let x ← evaluate a
    let y ← evaluate c
    .ok (.of_test (compare_values x.term y.term = some .lt))
  | .Gt a c => do
    let x ← evaluate a
    let y ← evaluate c
    .ok (.of_test (compare_values x.term y.term = some .gt))
  | .Le a c => do
    let x ← evaluate a
    let y ← evaluate c
    .ok (.of_test ((compare_values x.term y.term).any Ordering.isLE))
  | .Ge a c => do
    let x ← evaluate a
    let y ← evaluate c
    .ok (.of_test ((compare_values x.term y.term).any Ordering.isGE))
  | .And a c => do
    let x ← evaluate a
    if x.test then do
      let y ← evaluate c
      .ok (.of_test y.test)
    else .ok (.of_test false)
  | .Or a c => do
    let x ← evaluate a
    if x.test then .ok (.of_test true)
    else do
      let y ← evaluate c
      .ok (.of_test y.test)
  | .Not a => do
    let x ← evaluate a
    .ok (.of_test !x.test)
  | .Bound v => .ok (.of_test (b v).isSome)
  | .Exists p => do
    let v ← q.exists_pattern p b
    .ok (.of_test v)
  | .In a list => do
    let x ← evaluate a
    match x.term with
    | none => .ok (.of_test false)
    | some x => do
      let found ← in_list x list
      .ok (.of_test found)
  | .Add x y => do
    let x ← evaluate x
    let y ← evaluate y
    .ok (.of_term (q.arith q.add x.term y.term))
  | .Sub x y => do
    let x ← evaluate x
    let y ← evaluate y
    .ok (.of_term (q.arith q.sub x.term y.term))
  | .Mul x y => do
    let x ← evaluate x
    let y ← evaluate y
    .ok (.of_term (q.arith q.mul x.term y.term))
  | .Div x y => do
    let x ← evaluate x
    let y ← evaluate y
    .ok (.of_term (q.arith q.div x.term y.term))
  | .Neg x => do
    let x ← evaluate x
    .ok (.of_term (q.negate x.term))
  | .If c t f => do
    let c ← evaluate c
    match c.term.map ebv with
    | some true => do
      let x ← evaluate t
      .ok (.of_term x.term)
    | some false => do
      let x ← evaluate f
      .ok (.of_term x.term)
    | none => .ok (.of_term none)
  | .Coalesce args => do
    let found ← coalesce args
    .ok (.of_term found)
  | .Func f args => do
    let xs ← evaluate_args args
    let found ← q.eval_func f xs
    .ok (.of_term found)

/-- Whether a term is one of a list. Members that are errors are passed over. -/
def in_list (x : Term) : List (Expr Func Pattern) → Result Bool
  | [] => .ok false
  | item :: list => do
    let y ← evaluate item
    if y.term.any (in_equal x) then .ok true else in_list x list

/-- The first argument that is no error. -/
def coalesce : List (Expr Func Pattern) → Result (Option Term)
  | [] => .ok none
  | a :: args => do
    let x ← evaluate a
    match x.term with
    | some t => .ok (some t)
    | none => coalesce args

def evaluate_args : List (Expr Func Pattern) → Result (List (Option Term))
  | [] => .ok []
  | a :: args => do
    let x ← evaluate a
    let xs ← evaluate_args args
    .ok (x.term :: xs)

end

end EvalScope

/-- Whether a solution passes a condition. -/
def eval_expr (e : Expr Func Pattern) (b : Bindings) (q : EvalScope Func Pattern) : Result Bool :=
  (q.evaluate b e).map Evaluation.test

def eval_expr_to_term (e : Expr Func Pattern) (b : Bindings) (q : EvalScope Func Pattern) :
    Result (Option Term) :=
  (q.evaluate b e).map Evaluation.term

/-! ## The variables that are read -/

namespace EvalScope

variable (q : EvalScope Func Pattern)

mutual

/-- The variables that an expression reads, those of an EXISTS pattern with them. -/
def referenced_vars : Expr Func Pattern → List Var
  | .Term (.Var v) | .Bound v => [v]
  | .Term _ => []
  | .Eq a b | .SameTerm a b | .Ne a b | .Lt a b | .Gt a b | .Le a b | .Ge a b | .And a b | .Or a b
  | .Add a b | .Sub a b | .Mul a b | .Div a b => referenced_vars a ++ referenced_vars b
  | .Not a | .Neg a => referenced_vars a
  | .If a b c => referenced_vars a ++ referenced_vars b ++ referenced_vars c
  | .In a list => referenced_vars a ++ all_vars list
  | .Coalesce args | .Func _ args => all_vars args
  | .Exists p => q.pattern_vars p

def all_vars : List (Expr Func Pattern) → List Var
  | [] => []
  | e :: es => referenced_vars e ++ all_vars es

end

end EvalScope

end horndb.sparql.exec
