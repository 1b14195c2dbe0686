-- Literals of the XSD integer types: the value a text has, whether its type admits it, and when
-- two literals of such types are one value. The types' bounds stand in the table of intervals
-- that the range pass reads, and again in the widths of the fixed parsers.
import HornDb.Lib.Decimal
import HornDb.LiteralKeys

open HornDb.Lib.Decimal

namespace horndb.owlrl.datatype_literals

/-! ## The integer types -/

inductive IntegerDatatype where
  | integer
  | long
  | int
  | short
  | byte
  | nonNegativeInteger
  | positiveInteger
  | unsignedLong
  | unsignedInt
  | unsignedShort
  | unsignedByte
  | nonPositiveInteger
  | negativeInteger
deriving DecidableEq, Repr

namespace IntegerDatatype

def name : IntegerDatatype → String
  | .integer => "integer"
  | .long => "long"
  | .int => "int"
  | .short => "short"
  | .byte => "byte"
  | .nonNegativeInteger => "nonNegativeInteger"
  | .positiveInteger => "positiveInteger"
  | .unsignedLong => "unsignedLong"
  | .unsignedInt => "unsignedInt"
  | .unsignedShort => "unsignedShort"
  | .unsignedByte => "unsignedByte"
  | .nonPositiveInteger => "nonPositiveInteger"
  | .negativeInteger => "negativeInteger"

end IntegerDatatype

def XSD_INTEGER_DATATYPES : List IntegerDatatype :=
  [.integer, .long, .int, .short, .byte, .nonNegativeInteger, .positiveInteger, .unsignedLong,
    .unsignedInt, .unsignedShort, .unsignedByte, .nonPositiveInteger, .negativeInteger]

/-- The integer type with the name. -/
def integer_datatype (local_name : Text) : Option IntegerDatatype :=
  XSD_INTEGER_DATATYPES.find? fun d => d.name.toList == local_name

/-- No bound on a side is no end on that side. -/
structure Interval where
  lo : Option Int
  hi : Option Int
deriving DecidableEq, Repr

def Interval.admits (i : Interval) (n : Int) : Bool :=
  i.lo.all (· ≤ n) && i.hi.all (n ≤ ·)

def NUMERIC_INTERVALS : List (String × Interval) :=
  [("byte", ⟨some (-128), some 127⟩),
    ("short", ⟨some (-32768), some 32767⟩),
    ("int", ⟨some (-2147483648), some 2147483647⟩),
    ("long", ⟨some (-9223372036854775808), some 9223372036854775807⟩),
    ("unsignedByte", ⟨some 0, some 255⟩),
    ("unsignedShort", ⟨some 0, some 65535⟩),
    ("unsignedInt", ⟨some 0, some 4294967295⟩),
    ("unsignedLong", ⟨some 0, some 18446744073709551615⟩),
    ("nonNegativeInteger", ⟨some 0, none⟩),
    ("positiveInteger", ⟨some 1, none⟩),
    ("nonPositiveInteger", ⟨none, some 0⟩),
    ("negativeInteger", ⟨none, some (-1)⟩),
    ("integer", ⟨none, none⟩)]

/-- The interval that the table gives for the type. -/
def numeric_interval (d : IntegerDatatype) : Option Interval :=
  (NUMERIC_INTERVALS.find? fun e => e.1 == d.name).map Prod.snd

/-! ## Classes of values -/

inductive ValueClass where
  | Integer (canon : Text)
  | Boolean (b : Bool)
  | Plain (text : Text)
deriving DecidableEq, Repr

/-- The text of an integer without needless signs and zeros, and whether it is negative. -/
def canonicalize_integer (s : Text) : Option (Text × Bool) :=
  let (negative, digits) := split_sign s
  if digits.isEmpty || !digits.all Char.isDigit then none
  else
    let trimmed := digits.dropWhile (· == '0')
    if trimmed.isEmpty then some (['0'], false)
    else some (if negative then '-' :: trimmed else trimmed, negative)

/-- The parser of a fixed width: a sign if the type has one, digits, and no overflow. -/
def parse_fixed (signed : Bool) (bits : Nat) (s : Text) : Option Int :=
  if !signed && s.head? == some '-' then none
  else
    (value s).filter fun n =>
      if signed then decide (-2 ^ (bits - 1) ≤ n) && decide (n < 2 ^ (bits - 1))
      else decide (0 ≤ n) && decide (n < 2 ^ bits)

def parse_xsd_integer (local_name s : Text) : Option Text := do
  let (canon, negative) ← canonicalize_integer s
  let is_zero := canon == ['0']
  match integer_datatype local_name with
  | some .integer => some canon
  | some .nonNegativeInteger => if !negative then some canon else none
  | some .positiveInteger => if !negative && !is_zero then some canon else none
  | some .nonPositiveInteger => if negative || is_zero then some canon else none
  | some .negativeInteger => if negative && !is_zero then some canon else none
  | some .long => (parse_fixed true 64 canon).map decimal
  | some .int => (parse_fixed true 32 canon).map decimal
  | some .short => (parse_fixed true 16 canon).map decimal
  | some .byte => (parse_fixed true 8 canon).map decimal
  | some .unsignedLong => (parse_fixed false 64 canon).map decimal
  | some .unsignedInt => (parse_fixed false 32 canon).map decimal
  | some .unsignedShort => (parse_fixed false 16 canon).map decimal
  | some .unsignedByte => (parse_fixed false 8 canon).map decimal
  | none => some canon

def strip_front (front s : Text) : Option Text :=
  if front.isPrefixOf s then some (s.drop front.length) else none

def xsd_local (dt : Text) : Option Text := strip_front XSD dt

/-- The class of a literal's value, none where values are not compared, or an error where the
text is not one of its type. -/
def classify (lit : ParsedLiteral) : Except Unit (Option ValueClass) :=
  match lit.language with
  | some lang => .ok (some (.Plain ('@' :: lang ++ '\x01' :: lit.value)))
  | none =>
    match xsd_local lit.datatype with
    | none => .ok none
    | some local_name =>
      if (integer_datatype local_name).isSome then
        match parse_xsd_integer local_name lit.value with
        | none => .error ()
        | some canon => .ok (some (.Integer canon))
      else if local_name = "string".toList then .ok (some (.Plain ('s' :: '\x01' :: lit.value)))
      else if local_name = "boolean".toList then
        if lit.value = "true".toList ∨ lit.value = "1".toList then .ok (some (.Boolean true))
        else if lit.value = "false".toList ∨ lit.value = "0".toList then
          .ok (some (.Boolean false))
        else .error ()
      else .ok none

/-- Whether the value of a literal, under its own type, lies in another type. -/
def literal_in_datatype (lit : ParsedLiteral) (target_local : Text) : Option Bool :=
  match classify lit with
  | .ok (some (.Integer canon)) =>
    if (integer_datatype target_local).isSome then
      some (parse_xsd_integer target_local canon).isSome
    else if target_local = "decimal".toList then some true
    else if target_local = "string".toList ∨ target_local = "boolean".toList then some false
    else none
  | .ok (some (.Plain _)) =>
    if target_local = "string".toList then some (!lit.language.isSome)
    else if (integer_datatype target_local).isSome ∨ target_local = "boolean".toList ∨
        target_local = "decimal".toList then some false
    else none
  | .ok (some (.Boolean _)) =>
    if target_local = "boolean".toList then some true
    else if (integer_datatype target_local).isSome ∨ target_local = "string".toList ∨
        target_local = "decimal".toList then some false
    else none
  | _ => none

/-! ## Canonical texts -/

theorem canonicalize_integer_eq (s : Text) :
    canonicalize_integer s = (value s).map fun n => (decimal n, decide (n < 0)) := by
  unfold canonicalize_integer value
  obtain ⟨negative, digits⟩ := split_sign s
  dsimp only
  by_cases hall : all_digits digits = true
  · obtain ⟨hne, hdigits⟩ := all_digits_iff.mp hall
    have hguard : (digits.isEmpty || !digits.all Char.isDigit) = false := by
      rw [← Bool.not_eq_true', Bool.not_or, Bool.not_not]
      exact hall
    rw [hguard, if_pos hall, ← ofDigitChars_dropWhile_zero]
    simp only [Bool.false_eq_true, if_false, Option.map_some]
    have hkeep : ∀ c ∈ digits.dropWhile (· == '0'), c.isDigit = true := fun c hc =>
      hdigits c ((List.dropWhile_sublist _).subset hc)
    have hhead : (digits.dropWhile (· == '0')).head? ≠ some '0' := by
      intro h
      have hnot := List.head?_dropWhile_not (· == '0') digits
      rw [h] at hnot
      exact absurd hnot (by decide)
    generalize digits.dropWhile (· == '0') = trimmed at hkeep hhead
    cases trimmed with
    | nil =>
      simp [decimal]
    | cons c trimmed =>
      obtain ⟨htext, hpos⟩ := toDigits_ofDigitChars hkeep (List.cons_ne_nil c trimmed) hhead
      generalize Nat.ofDigitChars 10 (c :: trimmed) 0 = n at htext hpos ⊢
      have hdecimal : decimal n = c :: trimmed := by
        unfold decimal
        rw [if_neg (by omega), Int.natAbs_natCast, htext]
      have hminus : decimal (-n) = '-' :: c :: trimmed := by
        unfold decimal
        rw [if_pos (by omega), Int.natAbs_neg, Int.natAbs_natCast, htext]
      cases negative with
      | false => simp [hdecimal]
      | true =>
        simp [hminus, Nat.pos_of_ne_zero hpos]
  · have hguard : (digits.isEmpty || !digits.all Char.isDigit) = true := by
      rw [← Bool.not_not (digits.isEmpty || _), Bool.not_or, Bool.not_not, Bool.not_eq_true']
      exact Bool.not_eq_true _ ▸ hall
    rw [hguard, if_neg hall]
    rfl

/-! ## Types and their bounds -/

theorem integer_datatype_name (d : IntegerDatatype) :
    integer_datatype d.name.toList = some d := by
  cases d <;> decide

theorem head?_decimal (n : Int) : (decimal n).head? = some '-' ↔ n < 0 := by
  unfold decimal
  split
  · rename_i h
    simp [h]
  · rename_i h
    simp only [h, iff_false]
    intro hhead
    have hdigits := all_digits_iff.mp (all_digits_toDigits n.natAbs)
    exact absurd (hdigits.2 _ (List.mem_of_mem_head? hhead)) (by decide)

theorem parse_fixed_decimal (signed : Bool) (bits : Nat) (n : Int) :
    parse_fixed signed bits (decimal n) =
      if (if signed then -2 ^ (bits - 1) ≤ n ∧ n < 2 ^ (bits - 1) else 0 ≤ n ∧ n < 2 ^ bits)
      then some n else none := by
  unfold parse_fixed
  rw [value_decimal]
  cases signed with
  | true => simp [Option.filter_some]
  | false =>
    by_cases hn : n < 0
    · have hhead := (head?_decimal n).mpr hn
      have hnot : ¬ 0 ≤ n := by omega
      simp [hhead, hnot]
    · have hhead := mt (head?_decimal n).mp hn
      simp [hhead, Option.filter_some]

theorem decimal_eq_zero (n : Int) : decimal n = ['0'] ↔ n = 0 :=
  decimal_inj (n := 0)

/-- A text is a value of an integer type when its number lies in the interval of the table. -/
theorem parse_xsd_integer_eq (d : IntegerDatatype) (s : Text) :
    ∃ i, numeric_interval d = some i ∧
      parse_xsd_integer d.name.toList s =
        ((value s).filter i.admits).map decimal := by
  have hcanon := canonicalize_integer_eq s
  unfold parse_xsd_integer
  rw [hcanon, integer_datatype_name]
  cases hvalue : value s with
  | none => cases d <;> exact ⟨_, rfl, rfl⟩
  | some n =>
    simp only [Option.map_some, Option.bind_eq_bind, Option.bind_some, parse_fixed_decimal]
    cases d
    all_goals
      refine ⟨_, rfl, ?_⟩
      simp [Interval.admits, Option.filter_some, decimal_eq_zero, decide_eq_true_eq]
    -- what is left are the two spellings of one bound
    all_goals
      refine if_congr ?_ rfl rfl
      omega

/-! ## What is accepted, and where it lies -/

/-- A literal of an integer type. -/
def integer_literal (s : Text) (d : IntegerDatatype) : ParsedLiteral :=
  ⟨s, XSD ++ d.name.toList, none⟩

/-- The value lies in the interval that the table gives for the type. -/
def InInterval (d : IntegerDatatype) (n : Int) : Prop :=
  ∃ i, numeric_interval d = some i ∧ i.admits n = true

theorem xsd_local_append (t : Text) : xsd_local (XSD ++ t) = some t := by
  unfold xsd_local strip_front
  rw [if_pos (List.isPrefixOf_iff_prefix.mpr (List.prefix_append XSD t)), List.drop_left]

theorem parse_xsd_integer_some {d : IntegerDatatype} {s c : Text} :
    parse_xsd_integer d.name.toList s = some c ↔
      ∃ n, value s = some n ∧ InInterval d n ∧ c = decimal n := by
  obtain ⟨i, hi, hparse⟩ := parse_xsd_integer_eq d s
  rw [hparse, Option.map_eq_some_iff]
  constructor
  · rintro ⟨n, hn, rfl⟩
    rw [Option.filter_eq_some_iff] at hn
    exact ⟨n, hn.1, ⟨i, hi, hn.2⟩, rfl⟩
  · rintro ⟨n, hn, ⟨j, hj, hin⟩, rfl⟩
    rw [hi, Option.some.injEq] at hj
    subst hj
    exact ⟨n, Option.filter_eq_some_iff.mpr ⟨hn, hin⟩, rfl⟩

theorem classify_integer (s : Text) (d : IntegerDatatype) :
    classify (integer_literal s d) =
      match parse_xsd_integer d.name.toList s with
      | none => .error ()
      | some canon => .ok (some (.Integer canon)) := by
  unfold classify integer_literal
  dsimp only
  rw [xsd_local_append]
  dsimp only
  rw [integer_datatype_name, if_pos Option.isSome_some]

theorem classify_integer_ok {s : Text} {d : IntegerDatatype} {v : Option ValueClass} :
    classify (integer_literal s d) = .ok v ↔
      ∃ n, value s = some n ∧ InInterval d n ∧ v = some (.Integer (decimal n)) := by
  rw [classify_integer]
  cases hparse : parse_xsd_integer d.name.toList s with
  | none =>
    constructor
    · intro h
      cases h
    · rintro ⟨n, hn, hin, _⟩
      rw [parse_xsd_integer_some.mpr ⟨n, hn, hin, rfl⟩] at hparse
      cases hparse
  | some canon =>
    obtain ⟨n, hn, hin, rfl⟩ := parse_xsd_integer_some.mp hparse
    constructor
    · intro h
      cases h
      exact ⟨n, hn, hin, rfl⟩
    · rintro ⟨m, hm, _, rfl⟩
      rw [hn, Option.some.injEq] at hm
      rw [hm]

/-- A literal of an integer type is accepted when it is a sign and some digits whose number lies
in the type's interval. Accepted literals are of one class when their numbers are equal, and lie
in an integer type when their number lies in its interval. -/
theorem integer_literals (s s' : Text) (d d' target : IntegerDatatype) :
    ((∃ v, classify (integer_literal s d) = .ok v) ↔ ∃ n, value s = some n ∧ InInterval d n) ∧
    (∀ v v' n n', classify (integer_literal s d) = .ok v →
      classify (integer_literal s' d') = .ok v' → value s = some n → value s' = some n' →
        (v = v' ↔ n = n')) ∧
    ∀ v n, classify (integer_literal s d) = .ok v → value s = some n →
      (literal_in_datatype (integer_literal s d) target.name.toList = some true ↔
        InInterval target n) := by
  refine ⟨⟨?_, ?_⟩, ?_, ?_⟩
  · rintro ⟨v, hv⟩
    obtain ⟨n, hn, hin, _⟩ := classify_integer_ok.mp hv
    exact ⟨n, hn, hin⟩
  · rintro ⟨n, hn, hin⟩
    exact ⟨_, classify_integer_ok.mpr ⟨n, hn, hin, rfl⟩⟩
  · intro v v' n n' hv hv' hn hn'
    obtain ⟨m, hm, _, rfl⟩ := classify_integer_ok.mp hv
    obtain ⟨m', hm', _, rfl⟩ := classify_integer_ok.mp hv'
    rw [hn, Option.some.injEq] at hm
    rw [hn', Option.some.injEq] at hm'
    subst hm hm'
    rw [Option.some.injEq, ValueClass.Integer.injEq, decimal_inj]
  · intro v n hv hn
    obtain ⟨m, hm, _, rfl⟩ := classify_integer_ok.mp hv
    rw [hn, Option.some.injEq] at hm
    subst hm
    unfold literal_in_datatype
    rw [hv]
    dsimp only
    rw [integer_datatype_name, if_pos Option.isSome_some, Option.some.injEq,
      Option.isSome_iff_exists]
    constructor
    · rintro ⟨c, hc⟩
      obtain ⟨m, hm, hin, _⟩ := parse_xsd_integer_some.mp hc
      rw [value_decimal, Option.some.injEq] at hm
      rw [hm]
      exact hin
    · exact fun hin => ⟨_, parse_xsd_integer_some.mpr ⟨n, value_decimal n, hin, rfl⟩⟩

end horndb.owlrl.datatype_literals
