-- The texts of the feed slot through the store: what the feed escapes, the term library reads, and
-- prints again, and what the feed then reads back.
import HornDb.FeedSlot
import HornDb.TermText

open HornDb.Lib.Hex

namespace horndb.sparql

open text

variable {ox : Library}

/-- The library prints every character of the text as the feed writes it. -/
def Legible (ox : Library) (s : String) : Prop := ∀ c ∈ s.toList, print_char ox c = escape_char c

/-! ## Writing -/

theorem split_quoted_escape_char (c : Char) (cs : List Char) :
    split_quoted (escape_char c ++ cs) =
      (split_quoted cs).map fun r => (escape_char c ++ r.1, r.2) := by
  unfold escape_char
  split_ifs with h1 h2 h3 h4 h5
  · exact split_quoted_escape _ cs
  · exact split_quoted_escape _ cs
  · exact split_quoted_escape _ cs
  · exact split_quoted_escape _ cs
  · exact split_quoted_escape _ cs
  · exact split_quoted_raw_cons h1 h2 cs

theorem split_quoted_escaped (s tail : List Char) :
    split_quoted (s.flatMap escape_char ++ '"' :: tail) = some (s.flatMap escape_char, tail) := by
  induction s with
  | nil => rw [List.flatMap_nil, List.nil_append, split_quoted]
  | cons c s ih =>
    rw [List.flatMap_cons, List.append_assoc, split_quoted_escape_char, ih]
    rfl

theorem unescape_escape_char (c : Char) (cs : List Char) :
    unescape_ntriples (escape_char c ++ cs) = c :: unescape_ntriples cs := by
  unfold escape_char
  split_ifs with h1 h2 h3 h4 h5
  · rw [h1]
    exact unescape_letter_cons (by decide) (by decide) cs
  · rw [h2]
    exact unescape_letter_cons (by decide) (by decide) cs
  · rw [h3]
    exact unescape_letter_cons (by decide) (by decide) cs
  · rw [h4]
    exact unescape_letter_cons (by decide) (by decide) cs
  · rw [h5]
    exact unescape_letter_cons (by decide) (by decide) cs
  · exact unescape_raw_cons h1 cs

theorem unescape_escaped (s : List Char) : unescape_ntriples (s.flatMap escape_char) = s := by
  induction s with
  | nil => rw [List.flatMap_nil, unescape_ntriples]
  | cons c s ih => rw [List.flatMap_cons, unescape_escape_char, ih]

/-- A quoted text ends with its quote, or with the bracket of its datatype. -/
theorem trim_quoted {cs : List Char} {c : Char} (h : is_whitespace c = false) :
    trim ('"' :: (cs ++ [c])) = '"' :: (cs ++ [c]) := by
  have hfront : ('"' :: (cs ++ [c])).dropWhile is_whitespace = '"' :: (cs ++ [c]) := rfl
  rw [trim, hfront, ← List.cons_append]
  exact rdropWhile_append (List.cons_ne_nil _ _) h

theorem escape_literal_toList (s : String) :
    (escape_literal s).toList = '"' :: (s.toList.flatMap escape_char ++ ['"']) := by
  simp [escape_literal]

/-- What the feed writes, the store keeps as it was. -/
theorem parse_escape_literal (ox : Library) (s : String) :
    parse_literal (escape_literal s).toList = (Literal.Simple s.toList : Literal ox) := by
  have hparts : literal_parts (escape_literal s).toList =
      { value := s.toList.flatMap escape_char } := by
    rw [escape_literal_toList]
    exact Literal.literal_parts_quoted (trim_quoted rfl) (split_quoted_escaped _ [])
  rw [parse_simple (by rw [hparts]) (by rw [hparts]), hparts, unescape_escaped]

theorem parse_typed_literal (ox : Library) (s dt : String) (kept : Datatype)
    (h : kept.as_str = dt.toList) :
    parse_literal (escape_literal s ++ "^^<" ++ dt ++ ">").toList =
      (Literal.Typed s.toList kept : Literal ox) := by
  have htext : (escape_literal s ++ "^^<" ++ dt ++ ">").toList =
      '"' :: (s.toList.flatMap escape_char ++ '"' :: '^' :: '^' :: '<' :: (dt.toList ++ ['>'])) := by
    simp [escape_literal]
  have htrim : trim (escape_literal s ++ "^^<" ++ dt ++ ">").toList =
      (escape_literal s ++ "^^<" ++ dt ++ ">").toList := by
    have hend : (escape_literal s ++ "^^<" ++ dt ++ ">").toList =
        '"' :: ((s.toList.flatMap escape_char ++ '"' :: '^' :: '^' :: '<' :: dt.toList) ++ ['>']) := by
      simp [escape_literal]
    rw [hend]
    exact trim_quoted rfl
  have hparts : literal_parts (escape_literal s ++ "^^<" ++ dt ++ ">").toList =
      { value := s.toList.flatMap escape_char, datatype := some kept.as_str } := by
    rw [htext] at htrim ⊢
    rw [Literal.literal_parts_quoted htrim (split_quoted_escaped _ _), suffix_parts, ← h,
      Literal.trim_brackets_datatype]
  rw [parse_typed kept (by rw [hparts]) (by rw [hparts]), hparts, unescape_escaped]

/-! ## Reading -/

theorem body_chars_raw_cons {c : Char} (h1 : c ≠ '\\') (h2 : c ≠ '"') (cs : List Char) :
    body_chars false (c :: cs) = (body_chars false cs).map (c :: ·) := by
  rw [body_chars, if_neg Bool.false_ne_true, if_neg h1, if_neg h2]

theorem body_chars_escape (c : Char) (cs : List Char) :
    body_chars false ('\\' :: c :: cs) = (body_chars false cs).map ('\\' :: c :: ·) := by
  rw [body_chars, if_neg Bool.false_ne_true, if_pos rfl, body_chars, if_pos rfl, Option.map_map]
  rfl

theorem body_chars_plain {a : List Char} (h : ∀ c ∈ a, c ≠ '\\' ∧ c ≠ '"') (cs : List Char) :
    body_chars false (a ++ cs) = (body_chars false cs).map (a ++ ·) := by
  induction a with
  | nil => exact Option.map_id'.symm
  | cons c a ih =>
    rw [List.forall_mem_cons] at h
    rw [List.cons_append, body_chars_raw_cons h.1.1 h.1.2, ih h.2, Option.map_map]
    rfl

theorem body_chars_print_char (c : Char) (cs : List Char) :
    body_chars false (print_char ox c ++ cs) = (body_chars false cs).map (print_char ox c ++ ·) := by
  unfold print_char
  split_ifs with h1 h2 h3 h4 h5 h6 h7 h8 h9
  · exact body_chars_escape _ cs
  · exact body_chars_escape _ cs
  · exact body_chars_escape _ cs
  · exact body_chars_escape _ cs
  · exact body_chars_escape _ cs
  · exact body_chars_escape _ cs
  · exact body_chars_escape _ cs
  · rw [List.cons_append, List.cons_append, body_chars_escape,
      body_chars_plain fun c hc => (hex_digit_plain (mem_hex_digits hc)).2, Option.map_map]
    rfl
  · rw [List.cons_append, List.cons_append, body_chars_escape,
      body_chars_plain fun c hc => (hex_digit_plain (mem_hex_digits hc)).2, Option.map_map]
    rfl
  · exact body_chars_raw_cons h7 h6 cs

theorem body_chars_print (s tail : List Char) :
    body_chars false (s.flatMap (print_char ox) ++ '"' :: tail) =
      some (s.flatMap (print_char ox)) := by
  induction s with
  | nil =>
    rw [List.flatMap_nil, List.nil_append, body_chars, if_neg Bool.false_ne_true,
      if_neg (by decide), if_pos rfl]
  | cons c s ih =>
    rw [List.flatMap_cons, List.append_assoc, body_chars_print_char, ih]
    rfl

theorem unescape_body_escape (c : Char) (cs : List Char) :
    unescape_literal_body ('\\' :: c :: cs) = unescape_char c ++ unescape_literal_body cs := by
  rw [unescape_literal_body]

theorem unescape_body_raw_cons {c : Char} (h : c ≠ '\\') (cs : List Char) :
    unescape_literal_body (c :: cs) = c :: unescape_literal_body cs := by
  rw [unescape_literal_body]
  · exact fun heq _ => h heq
  · exact fun _ _ heq _ => h heq

theorem unescape_body_plain {a : List Char} (h : ∀ c ∈ a, c ≠ '\\') (cs : List Char) :
    unescape_literal_body (a ++ cs) = a ++ unescape_literal_body cs := by
  induction a with
  | nil => rfl
  | cons c a ih =>
    rw [List.forall_mem_cons] at h
    rw [List.cons_append, unescape_body_raw_cons h.1, ih h.2, List.cons_append]

/-- The library's escape is the feed's, or one that the feed does not know. -/
theorem print_char_cases (c : Char) :
    print_char ox c = escape_char c ∨ ∃ u hex, print_char ox c = '\\' :: u :: hex ∧
      unescape_char u = ['\\', u] ∧ ∀ d ∈ hex, d ≠ '\\' := by
  unfold print_char
  split_ifs with h1 h2 h3 h4 h5 h6 h7 h8 h9
  · exact Or.inr ⟨'b', [], rfl, rfl, fun d hd => absurd hd List.not_mem_nil⟩
  · exact Or.inl (by rw [h2]; rfl)
  · exact Or.inl (by rw [h3]; rfl)
  · exact Or.inr ⟨'f', [], rfl, rfl, fun d hd => absurd hd List.not_mem_nil⟩
  · exact Or.inl (by rw [h5]; rfl)
  · exact Or.inl (by rw [h6]; rfl)
  · exact Or.inl (by rw [h7]; rfl)
  · exact Or.inr ⟨'u', _, rfl, rfl, fun d hd => (hex_digit_plain (mem_hex_digits hd)).2.1⟩
  · exact Or.inr ⟨'U', _, rfl, rfl, fun d hd => (hex_digit_plain (mem_hex_digits hd)).2.1⟩
  · rw [escape_char, if_neg h7, if_neg h6, if_neg h3, if_neg h5, if_neg h2]
    exact Or.inl rfl

/-- What the feed reads of a character that the library printed: the character itself, or the
escape as it stands. -/
def reread (ox : Library) (c : Char) : List Char :=
  if print_char ox c = escape_char c then [c] else print_char ox c

theorem unescape_body_escape_char (c : Char) (cs : List Char) :
    unescape_literal_body (escape_char c ++ cs) = c :: unescape_literal_body cs := by
  unfold escape_char
  split_ifs with h1 h2 h3 h4 h5
  · rw [h1]
    exact unescape_body_escape _ cs
  · rw [h2]
    exact unescape_body_escape _ cs
  · rw [h3]
    exact unescape_body_escape _ cs
  · rw [h4]
    exact unescape_body_escape _ cs
  · rw [h5]
    exact unescape_body_escape _ cs
  · exact unescape_body_raw_cons h1 cs

theorem unescape_body_print_char (c : Char) (cs : List Char) :
    unescape_literal_body (print_char ox c ++ cs) = reread ox c ++ unescape_literal_body cs := by
  by_cases h : print_char ox c = escape_char c
  · rw [reread, if_pos h, h, unescape_body_escape_char, List.singleton_append]
  · obtain ⟨u, hex, heq, hu, hhex⟩ := (print_char_cases c).resolve_left h
    rw [reread, if_neg h, heq, List.cons_append, List.cons_append, unescape_body_escape, hu,
      unescape_body_plain hhex]
    rfl

theorem unescape_body_print (s : List Char) :
    unescape_literal_body (s.flatMap (print_char ox)) = s.flatMap (reread ox) := by
  induction s with
  | nil => rfl
  | cons c s ih => rw [List.flatMap_cons, unescape_body_print_char, ih, List.flatMap_cons]

/-- What the feed reads of a literal that the store printed. -/
theorem decode_to_string (l : Literal ox) :
    decode_literal (.Literal (String.ofList l.to_string)) =
      some (String.ofList (l.value.flatMap (reread ox))) := by
  have hbody : literal_body (String.ofList l.to_string) =
      some (l.value.flatMap (print_char ox)) := by
    unfold literal_body
    rw [String.toList_ofList, Literal.to_string, print_quoted_str, List.cons_append,
      List.append_assoc, List.singleton_append]
    exact body_chars_print l.value l.suffix
  rw [decode_literal, hbody, Option.map_some, unescape_body_print]

theorem flatMap_reread {s : List Char} (h : ∀ c ∈ s, print_char ox c = escape_char c) :
    s.flatMap (reread ox) = s := by
  induction s with
  | nil => rfl
  | cons c s ih =>
    rw [List.forall_mem_cons] at h
    rw [List.flatMap_cons, reread, if_pos h.1, ih h.2, List.singleton_append]

theorem decode_legible {l : Literal ox} {s : String} (hvalue : l.value = s.toList)
    (h : Legible ox s) :
    decode_literal (.Literal (String.ofList l.to_string)) = some s := by
  rw [decode_to_string, hvalue, flatMap_reread h, String.ofList_toList]

/-- An escape that stays as it stands is longer than its character. -/
theorem length_flatMap_reread (s : List Char) : s.length ≤ (s.flatMap (reread ox)).length ∧
    ((s.flatMap (reread ox)).length = s.length → ∀ c ∈ s, print_char ox c = escape_char c) := by
  induction s with
  | nil => exact ⟨le_rfl, fun _ c hc => absurd hc List.not_mem_nil⟩
  | cons c s ih =>
    rw [List.flatMap_cons, List.length_append, List.length_cons, List.forall_mem_cons]
    by_cases h : print_char ox c = escape_char c
    · have hone : (reread ox c).length = 1 := by rw [reread, if_pos h, List.length_singleton]
      exact ⟨by omega, fun heq => ⟨h, ih.2 (by omega)⟩⟩
    · obtain ⟨u, hex, heq, -, -⟩ := (print_char_cases c).resolve_left h
      have htwo : 2 ≤ (reread ox c).length := by
        rw [reread, if_neg h, heq, List.length_cons, List.length_cons]
        omega
      exact ⟨by omega, fun hlen => absurd hlen (by omega)⟩

/-- The feed reads a text back if and only if it is legible. -/
theorem decode_iff_legible {l : Literal ox} {s : String} (hvalue : l.value = s.toList) :
    decode_literal (.Literal (String.ofList l.to_string)) = some s ↔ Legible ox s := by
  refine ⟨fun h => ?_, decode_legible hvalue⟩
  rw [decode_to_string, hvalue, Option.some_inj] at h
  have hlist := congrArg String.toList h
  rw [String.toList_ofList] at hlist
  exact (length_flatMap_reread s.toList).2 (congrArg List.length hlist)

end horndb.sparql
