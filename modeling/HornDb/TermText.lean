-- The text of literals: what the term library prints, and how the runtime splits such a text
-- and takes its escapes back.
import HornDb.Lib.NTriples

open HornDb.Lib.Hex HornDb.Lib.NTriples

namespace horndb.sparql.text

/-! ## Numbers in escapes -/

/-- A number in base sixteen, a plus sign in front or not. -/
def from_str_radix_16 : List Char → Option Nat
  | [] => none
  | ['+'] => none
  | '+' :: cs => hex_number 0 cs
  | cs => hex_number 0 cs

def from_u32 (n : Nat) : Option Char := scalar n

/-! ## Escapes -/

/-- What an escape of one letter stands for. Other escapes stand for themselves. -/
def unescape_letter (c : Char) : List Char :=
  if c = 'n' then ['\n']
  else if c = 't' then ['\t']
  else if c = 'r' then ['\r']
  else if c = 'b' then ['\x08']
  else if c = 'f' then ['\x0C']
  else if c = '"' then ['"']
  else if c = '\'' then ['\'']
  else if c = '\\' then ['\\']
  else ['\\', c]

/-- What an escape by number stands for, from its letter and the text of its number. -/
def unescape_number (u : Char) (hex : List Char) : List Char :=
  match (from_str_radix_16 hex).bind from_u32 with
  | some decoded => [decoded]
  | none => '\\' :: u :: hex

def unescape_ntriples : List Char → List Char
  | [] => []
  | ['\\'] => ['\\']
  | '\\' :: c :: cs =>
    if c = 'u' ∨ c = 'U' then
      let len := if c = 'u' then 4 else 8
      unescape_number c (cs.take len) ++ unescape_ntriples (cs.drop len)
    else unescape_letter c ++ unescape_ntriples cs
  | c :: cs => c :: unescape_ntriples cs
termination_by cs => cs.length

/-- The white space that `trim` takes off. -/
def is_whitespace (c : Char) : Bool :=
  (9 ≤ c.toNat && c.toNat ≤ 13) || c.toNat == 0x20 || c.toNat == 0x85 || c.toNat == 0xA0 ||
    c.toNat == 0x1680 || (0x2000 ≤ c.toNat && c.toNat ≤ 0x200A) || c.toNat == 0x2028 ||
    c.toNat == 0x2029 || c.toNat == 0x202F || c.toNat == 0x205F || c.toNat == 0x3000

def trim (cs : List Char) : List Char := (cs.dropWhile is_whitespace).rdropWhile is_whitespace

/-- The text before the closing quote, and the text after it. -/
def split_quoted : List Char → Option (List Char × List Char)
  | [] => none
  | '\\' :: c :: cs => (split_quoted cs).map fun r => ('\\' :: c :: r.1, r.2)
  | '"' :: cs => some ([], cs)
  | c :: cs => (split_quoted cs).map fun r => (c :: r.1, r.2)

/-- The parts of a literal's text: its value, still escaped, and its tag or its datatype. -/
structure Parts where
  value : List Char
  lang : Option (List Char) := none
  datatype : Option (List Char) := none
deriving DecidableEq, Repr

def trim_brackets (dt : List Char) : List Char :=
  (dt.dropWhile (· == '<')).rdropWhile (· == '>')

/-- The tag or the datatype, from the text after the closing quote. -/
def suffix_parts (value : List Char) : List Char → Parts
  | '@' :: lang => { value, lang := some lang }
  | '^' :: '^' :: dt =>
    { value, datatype := some (trim_brackets dt) }
  | _ => { value }

def literal_parts (raw : List Char) : Parts :=
  let raw := trim raw
  match raw with
  | '"' :: cs =>
    match split_quoted cs with
    | some (value, tail) => suffix_parts value tail
    | none => { value := raw }
  | _ => { value := raw }

/-- The escapes that the runtime writes. -/
def escape_ntriples (cs : List Char) : List Char :=
  cs.flatMap fun c =>
    if c = '\\' then ['\\', '\\']
    else if c = '"' then ['\\', '"']
    else if c = '\n' then ['\\', 'n']
    else if c = '\r' then ['\\', 'r']
    else if c = '\t' then ['\\', 't']
    else if c = '\x08' then ['\\', 'b']
    else if c = '\x0C' then ['\\', 'f']
    else [c]

/-! ## The term library -/

/-- Letters, digits and hyphens. -/
def tag_char (c : Char) : Bool :=
  (0x61 ≤ c.toNat && c.toNat ≤ 0x7A) || (0x41 ≤ c.toNat && c.toNat ≤ 0x5A) ||
    (0x30 ≤ c.toNat && c.toNat ≤ 0x39) || c.toNat == 0x2D

theorem tag_char_plain {c : Char} (h : tag_char c = true) : is_whitespace c = false := by
  simp only [tag_char, is_whitespace, Bool.or_eq_true, Bool.and_eq_true, decide_eq_true_eq,
    beq_iff_eq, Bool.or_eq_false_iff, Bool.and_eq_false_iff, decide_eq_false_iff_not,
    beq_eq_false_iff_ne] at h ⊢
  omega

/-- What the term library decides: which further characters it prints by number, and which
language tags it takes, in the form it keeps them in. -/
structure Library where
  numeric : Char → Bool
  language : List Char → Option (List Char)
  language_kept : ∀ s t, language s = some t → language t = some t
  language_tag : ∀ s t, language s = some t → t ≠ [] ∧ ∀ c ∈ t, tag_char c = true

/-- A library that prints the other controls by number, and takes tags as they are. -/
def ascii : Library where
  numeric c := c.toNat < 0x20 || c.toNat == 0x7F
  language s := if s ≠ [] ∧ ∀ c ∈ s, tag_char c = true then some s else none
  language_kept s t h := by
    obtain ⟨hs, heq⟩ := Option.ite_none_right_eq_some.mp h
    cases heq
    exact if_pos hs
  language_tag s t h := by
    obtain ⟨hs, heq⟩ := Option.ite_none_right_eq_some.mp h
    cases heq
    exact hs

/-- The character as the library prints it between quotes. -/
def print_char (ox : Library) (c : Char) : List Char :=
  if c = '\x08' then ['\\', 'b']
  else if c = '\t' then ['\\', 't']
  else if c = '\n' then ['\\', 'n']
  else if c = '\x0C' then ['\\', 'f']
  else if c = '\r' then ['\\', 'r']
  else if c = '"' then ['\\', '"']
  else if c = '\\' then ['\\', '\\']
  else if ox.numeric c then
    if c.toNat < 0x10000 then '\\' :: 'u' :: hex_digits 4 c.toNat
    else '\\' :: 'U' :: hex_digits 8 c.toNat
  else [c]

def print_quoted_str (ox : Library) (value : List Char) : List Char :=
  '"' :: (value.flatMap (print_char ox) ++ ['"'])

/-- A language tag as the library keeps it. -/
structure LanguageTag (ox : Library) where
  as_str : List Char
  checked : ox.language as_str = some as_str
deriving DecidableEq

def XSD_STRING : List Char := "http://www.w3.org/2001/XMLSchema#string".toList

/-- A datatype without brackets around it, and not the one of plain literals. -/
structure Datatype where
  as_str : List Char
  trimmed : trim_brackets as_str = as_str
  other : as_str ≠ XSD_STRING
deriving DecidableEq

inductive Literal (ox : Library) where
  | Simple (value : List Char)
  | LanguageTagged (value : List Char) (language : LanguageTag ox)
  | Typed (value : List Char) (datatype : Datatype)
deriving DecidableEq

namespace Literal

variable {ox : Library}

def value : Literal ox → List Char
  | .Simple value => value
  | .LanguageTagged value _ => value
  | .Typed value _ => value

def suffix : Literal ox → List Char
  | .Simple _ => []
  | .LanguageTagged _ l => '@' :: l.as_str
  | .Typed _ dt => '^' :: '^' :: '<' :: (dt.as_str ++ ['>'])

/-- The literal as the library prints it. -/
def to_string (l : Literal ox) : List Char := print_quoted_str ox l.value ++ l.suffix

/-- The datatype is an IRI. -/
def Checked : Literal ox → Prop
  | .Typed _ dt => ∀ c ∈ dt.as_str, iri_char c = true
  | _ => True

/-- The parts of the literal's text. -/
def parts (l : Literal ox) : Parts :=
  match l with
  | .Simple value => { value := value.flatMap (print_char ox) }
  | .LanguageTagged value l =>
    { value := value.flatMap (print_char ox), lang := some l.as_str }
  | .Typed value dt => { value := value.flatMap (print_char ox), datatype := some dt.as_str }

end Literal

/-- A literal whose datatype is an IRI. -/
structure RdfLiteral (ox : Library) where
  lit : Literal ox
  checked : lit.Checked
deriving DecidableEq

structure Iri where
  as_str : List Char
  nonempty : as_str ≠ []
  checked : ∀ c ∈ as_str, iri_char c = true
deriving DecidableEq

theorem Iri.ext {n m : Iri} (h : n.as_str = m.as_str) : n = m := by
  cases n
  cases m
  cases h
  rfl

/-! ## Escapes come back -/

/-- A digit is no sign, no backslash and no quote. -/
theorem hex_digit_plain {c : Char} (h : ∃ d < 16, c = hex_digit d) :
    c ≠ '+' ∧ c ≠ '\\' ∧ c ≠ '"' := by
  obtain ⟨d, hd, rfl⟩ := h
  interval_cases d <;> decide

theorem from_str_radix_digits {width n : Nat} (hw : 0 < width) (h : n < 16 ^ width) :
    from_str_radix_16 (hex_digits width n) = some n := by
  have hnum := hex_number_digits width n h
  have hplus : '+' ∉ hex_digits width n := fun h => (hex_digit_plain (mem_hex_digits h)).1 rfl
  have hlen := length_hex_digits width n
  unfold from_str_radix_16
  split
  · rename_i hnil
    rw [hnil, List.length_nil] at hlen
    omega
  · rename_i hone
    rw [hone] at hplus
    exact absurd List.mem_cons_self hplus
  · rename_i cs hcs
    rw [hcs] at hplus
    exact absurd List.mem_cons_self hplus
  · exact hnum

/-- The number of a character stands for it. -/
theorem unescape_number_digits {width : Nat} (hw : 0 < width) (u c : Char)
    (h : c.toNat < 16 ^ width) : unescape_number u (hex_digits width c.toNat) = [c] := by
  rw [unescape_number, from_str_radix_digits hw h, Option.bind_some, from_u32, scalar_toNat]

theorem unescape_letter_cons {c : Char} (hu : c ≠ 'u') (hU : c ≠ 'U') (cs : List Char) :
    unescape_ntriples ('\\' :: c :: cs) = unescape_letter c ++ unescape_ntriples cs := by
  rw [unescape_ntriples, if_neg (not_or.mpr ⟨hu, hU⟩)]

theorem unescape_raw_cons {c : Char} (hc : c ≠ '\\') (cs : List Char) :
    unescape_ntriples (c :: cs) = c :: unescape_ntriples cs := by
  rw [unescape_ntriples]
  · exact fun h _ => hc h
  · exact fun _ _ h _ => hc h

theorem unescape_number_cons {u : Char} (h : u = 'u' ∨ u = 'U') (hex cs : List Char)
    (hlen : hex.length = if u = 'u' then 4 else 8) :
    unescape_ntriples ('\\' :: u :: (hex ++ cs)) =
      unescape_number u hex ++ unescape_ntriples cs := by
  rw [unescape_ntriples, if_pos h]
  dsimp only
  rw [← hlen, List.take_left, List.drop_left]

/-- What the library prints for a character, the runtime reads as that character. -/
theorem unescape_print_char (ox : Library) (c : Char) (cs : List Char) :
    unescape_ntriples (print_char ox c ++ cs) = c :: unescape_ntriples cs := by
  unfold print_char
  split_ifs with h1 h2 h3 h4 h5 h6 h7 h8 h9
  · rw [h1]
    exact unescape_letter_cons (by decide) (by decide) cs
  · rw [h2]
    exact unescape_letter_cons (by decide) (by decide) cs
  · rw [h3]
    exact unescape_letter_cons (by decide) (by decide) cs
  · rw [h4]
    exact unescape_letter_cons (by decide) (by decide) cs
  · rw [h5]
    exact unescape_letter_cons (by decide) (by decide) cs
  · rw [h6]
    exact unescape_letter_cons (by decide) (by decide) cs
  · rw [h7]
    exact unescape_letter_cons (by decide) (by decide) cs
  · rw [List.cons_append, List.cons_append,
      unescape_number_cons (Or.inl rfl) _ _ (length_hex_digits 4 _),
      unescape_number_digits (by decide) _ _ h9]
    rfl
  · have hlt : c.toNat < 16 ^ 8 := by
      have hvalid : c.toNat.isValidChar := c.valid
      unfold Nat.isValidChar at hvalid
      omega
    rw [List.cons_append, List.cons_append,
      unescape_number_cons (Or.inr rfl) _ _ (length_hex_digits 8 _),
      unescape_number_digits (by decide) _ _ hlt]
    rfl
  · exact unescape_raw_cons h7 cs

theorem unescape_print (ox : Library) (value : List Char) :
    unescape_ntriples (value.flatMap (print_char ox)) = value := by
  induction value with
  | nil => rw [List.flatMap_nil, unescape_ntriples]
  | cons c value ih => rw [List.flatMap_cons, unescape_print_char, ih]

/-! ## The parts come back -/

theorem split_quoted_raw_cons {c : Char} (h1 : c ≠ '\\') (h2 : c ≠ '"') (cs : List Char) :
    split_quoted (c :: cs) = (split_quoted cs).map fun r => (c :: r.1, r.2) := by
  rw [split_quoted]
  · exact fun _ _ h _ => h1 h
  · exact h2

theorem split_quoted_escape (c : Char) (cs : List Char) :
    split_quoted ('\\' :: c :: cs) =
      (split_quoted cs).map fun r => ('\\' :: c :: r.1, r.2) := by
  rw [split_quoted]

theorem split_quoted_plain {a : List Char} (h : ∀ c ∈ a, c ≠ '\\' ∧ c ≠ '"') (cs : List Char) :
    split_quoted (a ++ cs) = (split_quoted cs).map fun r => (a ++ r.1, r.2) := by
  induction a with
  | nil =>
    rw [List.nil_append]
    exact Option.map_id'.symm
  | cons c a ih =>
    rw [List.forall_mem_cons] at h
    rw [List.cons_append, split_quoted_raw_cons h.1.1 h.1.2, ih h.2, Option.map_map]
    rfl

/-- No printed character ends the quotes. -/
theorem split_quoted_print_char (ox : Library) (c : Char) (cs : List Char) :
    split_quoted (print_char ox c ++ cs) =
      (split_quoted cs).map fun r => (print_char ox c ++ r.1, r.2) := by
  unfold print_char
  split_ifs with h1 h2 h3 h4 h5 h6 h7 h8 h9
  · exact split_quoted_escape _ cs
  · exact split_quoted_escape _ cs
  · exact split_quoted_escape _ cs
  · exact split_quoted_escape _ cs
  · exact split_quoted_escape _ cs
  · exact split_quoted_escape _ cs
  · exact split_quoted_escape _ cs
  · rw [List.cons_append, List.cons_append, split_quoted_escape,
      split_quoted_plain (fun c hc => (hex_digit_plain (mem_hex_digits hc)).2), Option.map_map]
    rfl
  · rw [List.cons_append, List.cons_append, split_quoted_escape,
      split_quoted_plain (fun c hc => (hex_digit_plain (mem_hex_digits hc)).2), Option.map_map]
    rfl
  · exact split_quoted_raw_cons h7 h6 cs

theorem split_quoted_print (ox : Library) (value tail : List Char) :
    split_quoted (value.flatMap (print_char ox) ++ '"' :: tail) =
      some (value.flatMap (print_char ox), tail) := by
  induction value with
  | nil =>
    rw [List.flatMap_nil, List.nil_append, split_quoted]
  | cons c value ih =>
    rw [List.flatMap_cons, List.append_assoc, split_quoted_print_char, ih]
    rfl

theorem rdropWhile_append {p : Char → Bool} {a b : List Char} (hb : b ≠ [])
    (h : p (b.getLast hb) = false) : (a ++ b).rdropWhile p = a ++ b := by
  rw [List.rdropWhile_eq_self_iff]
  intro hne
  rw [List.getLast_append_of_ne_nil _ hb, h]
  exact Bool.false_ne_true

namespace Literal

variable {ox : Library}

/-- The text of a literal ends with a quote, a bracket or its tag. -/
theorem trim_to_string (l : Literal ox) : trim l.to_string = l.to_string := by
  have hfront : l.to_string.dropWhile is_whitespace = l.to_string := rfl
  rw [trim, hfront]
  unfold to_string
  cases l with
  | Simple value =>
    rw [suffix, List.append_nil, print_quoted_str, ← List.cons_append]
    exact rdropWhile_append (List.cons_ne_nil _ _) rfl
  | LanguageTagged value t =>
    rw [suffix]
    refine rdropWhile_append (List.cons_ne_nil _ _) ?_
    have hlast := List.getLast_mem (List.cons_ne_nil '@' t.as_str)
    rcases List.mem_cons.mp hlast with h | h
    · rw [h]
      rfl
    · exact tag_char_plain ((ox.language_tag _ _ t.checked).2 _ h)
  | Typed value dt =>
    rw [suffix, ← List.cons_append, ← List.cons_append, ← List.cons_append, ← List.append_assoc]
    exact rdropWhile_append (List.cons_ne_nil _ _) rfl

/-- Brackets around a datatype come off. -/
theorem trim_brackets_datatype (dt : Datatype) :
    trim_brackets ('<' :: (dt.as_str ++ ['>'])) = dt.as_str := by
  have hfront : dt.as_str.dropWhile (· == '<') = dt.as_str := by
    refine (List.dropWhile_suffix _).eq_of_length (le_antisymm (List.length_dropWhile_le _ _) ?_)
    have hle := (List.rdropWhile_prefix (· == '>') (dt.as_str.dropWhile (· == '<'))).length_le
    have htrim := congrArg List.length dt.trimmed
    rw [trim_brackets] at htrim
    omega
  have hend : dt.as_str.rdropWhile (· == '>') = dt.as_str := by
    have htrim := dt.trimmed
    rwa [trim_brackets, hfront] at htrim
  have hopen : ('<' :: (dt.as_str ++ ['>'])).dropWhile (· == '<') = dt.as_str ++ ['>'] := by
    rw [List.dropWhile_cons_of_pos (by decide)]
    cases h : dt.as_str with
    | nil => rfl
    | cons c cs =>
      rw [h] at hfront
      have hne : (fun x => x == '<') c = false := by
        rw [List.dropWhile_eq_self_iff] at hfront
        exact Bool.eq_false_iff.mpr (hfront (Nat.succ_pos _))
      rw [List.cons_append, List.dropWhile_cons, if_neg (Bool.eq_false_iff.mp hne)]
  rw [trim_brackets, hopen, List.rdropWhile_concat_pos _ _ _ (by decide), hend]

/-- A text between quotes, and what follows it. -/
theorem literal_parts_quoted {body tail : List Char}
    (htrim : trim ('"' :: (body ++ '"' :: tail)) = '"' :: (body ++ '"' :: tail))
    (hsplit : split_quoted (body ++ '"' :: tail) = some (body, tail)) :
    literal_parts ('"' :: (body ++ '"' :: tail)) = suffix_parts body tail := by
  unfold literal_parts
  simp only [htrim, hsplit]

/-- The text of a literal splits into its parts. -/
theorem literal_parts_to_string (l : Literal ox) : literal_parts l.to_string = l.parts := by
  have hparts : literal_parts l.to_string =
      suffix_parts (l.value.flatMap (print_char ox)) l.suffix := by
    have htext : l.to_string =
        '"' :: (l.value.flatMap (print_char ox) ++ '"' :: l.suffix) := by
      rw [to_string, print_quoted_str, List.cons_append, List.append_assoc, List.singleton_append]
    have htrim := l.trim_to_string
    rw [htext] at htrim ⊢
    exact literal_parts_quoted htrim (split_quoted_print ox l.value l.suffix)
  rw [hparts]
  cases l with
  | Simple value => rfl
  | LanguageTagged value t => rfl
  | Typed value dt =>
    rw [suffix, suffix_parts, trim_brackets_datatype]
    rfl

end Literal

/-! ## One line -/

/-- Neither the end of a line nor a tab. -/
def inline_char (c : Char) : Bool := c != '\n' && c != '\r' && c != '\t'

theorem escape_inline {c : Char} {cs : List Char} (hc : inline_char c = true)
    (h : ∀ d ∈ cs, inline_char d = true) : ∀ d ∈ '\\' :: c :: cs, inline_char d = true := by
  intro d hd
  rcases List.mem_cons.mp hd with rfl | hd
  · rfl
  rcases List.mem_cons.mp hd with rfl | hd
  · exact hc
  · exact h d hd

theorem print_char_inline (ox : Library) (c : Char) :
    ∀ d ∈ print_char ox c, inline_char d = true := by
  have hdigits (w n : Nat) : ∀ d ∈ hex_digits w n, inline_char d = true := by
    intro d hd
    obtain ⟨k, hk, rfl⟩ := mem_hex_digits hd
    interval_cases k <;> decide
  have hnone : ∀ d ∈ ([] : List Char), inline_char d = true :=
    fun d hd => absurd hd List.not_mem_nil
  unfold print_char
  split_ifs with h1 h2 h3 h4 h5 h6 h7 h8 h9
  · exact escape_inline rfl hnone
  · exact escape_inline rfl hnone
  · exact escape_inline rfl hnone
  · exact escape_inline rfl hnone
  · exact escape_inline rfl hnone
  · exact escape_inline rfl hnone
  · exact escape_inline rfl hnone
  · exact escape_inline rfl (hdigits _ _)
  · exact escape_inline rfl (hdigits _ _)
  · intro d hd
    rw [List.mem_singleton.mp hd]
    simp [inline_char, h2, h3, h5]

theorem iri_char_inline {c : Char} (h : iri_char c = true) : inline_char c = true := by
  rw [inline_char, Bool.and_eq_true, Bool.and_eq_true, bne_iff_ne, bne_iff_ne, bne_iff_ne]
  exact ⟨⟨fun heq => absurd (heq ▸ h) (by decide), fun heq => absurd (heq ▸ h) (by decide)⟩,
    fun heq => absurd (heq ▸ h) (by decide)⟩

theorem tag_char_inline {c : Char} (h : tag_char c = true) : inline_char c = true := by
  rw [inline_char, Bool.and_eq_true, Bool.and_eq_true, bne_iff_ne, bne_iff_ne, bne_iff_ne]
  exact ⟨⟨fun heq => absurd (heq ▸ h) (by decide), fun heq => absurd (heq ▸ h) (by decide)⟩,
    fun heq => absurd (heq ▸ h) (by decide)⟩

/-- The text of a literal is one line, without tabs. -/
theorem to_string_inline {ox : Library} {l : Literal ox} (h : l.Checked) :
    ∀ c ∈ l.to_string, inline_char c = true := by
  have hquoted : ∀ c ∈ print_quoted_str ox l.value, inline_char c = true := by
    intro c hc
    rcases List.mem_cons.mp hc with rfl | hc
    · decide
    rcases List.mem_append.mp hc with hc | hc
    · obtain ⟨d, -, hd⟩ := List.mem_flatMap.mp hc
      exact print_char_inline ox d c hd
    · rw [List.mem_singleton.mp hc]
      decide
  have hsuffix : ∀ c ∈ l.suffix, inline_char c = true := by
    intro c hc
    cases l with
    | Simple value => exact absurd hc List.not_mem_nil
    | LanguageTagged value t =>
      rcases List.mem_cons.mp hc with rfl | hc
      · decide
      exact tag_char_inline ((ox.language_tag _ _ t.checked).2 c hc)
    | Typed value dt =>
      simp only [Literal.suffix, List.mem_cons, List.mem_append, List.not_mem_nil, or_false] at hc
      rcases hc with rfl | rfl | rfl | hc | rfl
      · decide
      · decide
      · decide
      · exact iri_char_inline (h c hc)
      · decide
  intro c hc
  rcases List.mem_append.mp hc with hc | hc
  · exact hquoted c hc
  · exact hsuffix c hc

/-! ## Reading a literal -/

variable {ox : Library}

theorem trim_brackets_idem (dt : List Char) :
    trim_brackets (trim_brackets dt) = trim_brackets dt := by
  have hfront : (trim_brackets dt).dropWhile (· == '<') = trim_brackets dt := by
    rw [List.dropWhile_eq_self_iff]
    intro hlen
    have hpos : 0 < (dt.dropWhile (· == '<')).length :=
      hlen.trans_le (List.rdropWhile_prefix _ _).length_le
    have hhead := List.dropWhile_get_zero_not (· == '<') dt hpos
    rwa [List.get_eq_getElem, ← (List.rdropWhile_prefix (· == '>') _).getElem hlen] at hhead
  rw [trim_brackets, hfront, trim_brackets, List.rdropWhile_idempotent]

theorem literal_parts_trimmed {raw dt : List Char} (h : (literal_parts raw).datatype = some dt) :
    trim_brackets dt = dt := by
  have hsuffix {value tail : List Char} (h : (suffix_parts value tail).datatype = some dt) :
      trim_brackets dt = dt := by
    unfold suffix_parts at h
    split at h
    · cases h
    · rw [← Option.some.inj h, trim_brackets_idem]
    · cases h
  unfold literal_parts at h
  dsimp only at h
  split at h
  · split at h
    · exact hsuffix h
    · cases h
  · cases h

/-- The literal of a value and a datatype; the datatype of plain literals is left out. -/
def new_typed_literal (value dt : List Char) (trimmed : trim_brackets dt = dt) : Literal ox :=
  if h : dt = XSD_STRING then .Simple value else .Typed value ⟨dt, trimmed, h⟩

/-- The literal of a text. A tag that the library refuses is left out. -/
def parse_literal (raw : List Char) : Literal ox :=
  let value := unescape_ntriples (literal_parts raw).value
  match (literal_parts raw).lang with
  | some lang =>
    match h : ox.language lang with
    | some t => .LanguageTagged value ⟨t, ox.language_kept lang t h⟩
    | none => .Simple value
  | none =>
    match h : (literal_parts raw).datatype with
    | some dt => new_typed_literal value dt (literal_parts_trimmed h)
    | none => .Simple value

theorem parse_simple {raw : List Char} (hlang : (literal_parts raw).lang = none)
    (hdt : (literal_parts raw).datatype = none) :
    parse_literal raw = (.Simple (unescape_ntriples (literal_parts raw).value) : Literal ox) := by
  unfold parse_literal
  split
  · rename_i h
    rw [hlang] at h
    cases h
  · split
    · rename_i h
      rw [hdt] at h
      cases h
    · rfl

theorem parse_typed {raw : List Char} (dt : Datatype) (hlang : (literal_parts raw).lang = none)
    (hdt : (literal_parts raw).datatype = some dt.as_str) :
    parse_literal raw = (.Typed (unescape_ntriples (literal_parts raw).value) dt : Literal ox) := by
  unfold parse_literal
  split
  · rename_i h
    rw [hlang] at h
    cases h
  · split
    · rename_i h
      rw [hdt] at h
      cases h
      exact dif_neg dt.other
    · rename_i h
      rw [hdt] at h
      cases h

/-- A printed literal is read as it was. -/
theorem parse_to_string (l : Literal ox) : parse_literal l.to_string = l := by
  have hparts := l.literal_parts_to_string
  cases l with
  | Simple value =>
    rw [parse_simple (by rw [hparts]; rfl) (by rw [hparts]; rfl), hparts]
    exact congrArg Literal.Simple (unescape_print ox value)
  | Typed value dt =>
    rw [parse_typed dt (by rw [hparts]; rfl) (by rw [hparts]; rfl), hparts]
    exact congrArg (Literal.Typed · dt) (unescape_print ox value)
  | LanguageTagged value t =>
    have hlang : (literal_parts (Literal.LanguageTagged value t).to_string).lang =
        some t.as_str := by
      rw [hparts]
      rfl
    unfold parse_literal
    split
    · rename_i lang h
      rw [hlang] at h
      cases h
      split
      · rename_i s h
        rw [t.checked] at h
        cases h
        rw [hparts]
        exact congrArg (Literal.LanguageTagged · t) (unescape_print ox value)
      · rename_i h
        rw [t.checked] at h
        cases h
    · rename_i h
      rw [hlang] at h
      cases h

end horndb.sparql.text
