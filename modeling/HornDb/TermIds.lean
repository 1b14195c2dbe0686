-- Term ids: four bits of kind over sixty bits of payload. An id gives its kind and its
-- payload back, and so does the id of a small integer its value.
import Mathlib

namespace horndb.storage

/-- The bits of a term id. -/
abbrev TermId := Nat

abbrev GraphId := Nat

inductive TermKind where
  | Uri
  | Blank
  | PlainLiteral
  | LangLiteral
  | TypedLiteral
  | InlineInt
  | TripleTerm
deriving DecidableEq, Repr

namespace TermKind

def tag : TermKind → Nat
  | .Uri => 0
  | .Blank => 1
  | .PlainLiteral => 2
  | .LangLiteral => 3
  | .TypedLiteral => 4
  | .InlineInt => 5
  | .TripleTerm => 6

def from_tag : Nat → Option TermKind
  | 0 => some .Uri
  | 1 => some .Blank
  | 2 => some .PlainLiteral
  | 3 => some .LangLiteral
  | 4 => some .TypedLiteral
  | 5 => some .InlineInt
  | 6 => some .TripleTerm
  | _ => none

theorem from_tag_tag (k : TermKind) : from_tag k.tag = some k := by
  cases k <;> rfl

end TermKind

def KIND_SHIFT : Nat := 60

def PAYLOAD_MASK : Nat := (1 <<< KIND_SHIFT) - 1

/-- The bound of the dictionary indices: they fit the payload. -/
def MAX_DICT_INDEX : Nat := 1 <<< KIND_SHIFT

/-- Reserved for the default graph. No term has it: the dictionary counts from one. -/
def DEFAULT_GRAPH : GraphId := 0

namespace TermId

def new (kind : TermKind) (payload : Nat) : TermId := (kind.tag <<< KIND_SHIFT) ||| payload

/-- The kind of an id. An id with a reserved tag has none. -/
def kind (id : TermId) : Option TermKind := TermKind.from_tag (id >>> KIND_SHIFT)

def payload (id : TermId) : Nat := id &&& PAYLOAD_MASK

def inline_int (value : Int32) : TermId := new .InlineInt value.toUInt32.toNat

def as_inline_int (id : TermId) : Option Int32 :=
  if kind id = some .InlineInt then some (UInt32.ofNat (payload id)).toInt32 else none

theorem new_eq {kind : TermKind} {n : Nat} (h : n < MAX_DICT_INDEX) :
    new kind n = kind.tag * 2 ^ 60 + n := by
  have hn : n < 2 ^ 60 := h
  rw [new, KIND_SHIFT, Nat.shiftLeft_eq, Nat.mul_comm, Nat.two_pow_add_eq_or_of_lt hn]

@[simp]
theorem kind_new {k : TermKind} {n : Nat} (h : n < MAX_DICT_INDEX) :
    kind (new k n) = some k := by
  have hn : n < 2 ^ 60 := h
  have hdiv : (k.tag * 2 ^ 60 + n) / 2 ^ 60 = k.tag := by omega
  rw [kind, new_eq h, KIND_SHIFT, Nat.shiftRight_eq_div_pow, hdiv, TermKind.from_tag_tag]

@[simp]
theorem payload_new {k : TermKind} {n : Nat} (h : n < MAX_DICT_INDEX) :
    payload (new k n) = n := by
  have hn : n < 2 ^ 60 := h
  have hmod : (k.tag * 2 ^ 60 + n) % 2 ^ 60 = n := by omega
  have hmask : PAYLOAD_MASK = 2 ^ 60 - 1 := rfl
  rw [payload, new_eq h, hmask, Nat.and_two_pow_sub_one_eq_mod, hmod]

theorem inline_payload_lt (v : Int32) : v.toUInt32.toNat < MAX_DICT_INDEX :=
  lt_trans v.toUInt32.toNat_lt (by decide)

@[simp]
theorem kind_inline_int (v : Int32) : kind (inline_int v) = some .InlineInt :=
  kind_new (inline_payload_lt v)

@[simp]
theorem as_inline_int_inline_int (v : Int32) : as_inline_int (inline_int v) = some v := by
  rw [as_inline_int, if_pos (kind_inline_int v), inline_int, payload_new (inline_payload_lt v),
    UInt32.ofNat_toNat]
  rfl

theorem inline_int_inj {v w : Int32} (h : inline_int v = inline_int w) : v = w := by
  have := congrArg as_inline_int h
  simpa using this

end TermId

end horndb.storage
