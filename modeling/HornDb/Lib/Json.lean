-- JSON without numbers and constants: how a text is read, and which texts are read as which value.
import HornDb.Lib.Hex

open HornDb.Lib.Hex

namespace HornDb.Lib.Json

inductive Value where
  | str (s : List Char)
  | arr (items : List Value)
  | obj (members : List (List Char × Value))

/-! ## Strings -/

/-- A character as it stands, or a unit of UTF-16 by its number. -/
inductive Piece where
  | raw (c : Char)
  | unit (n : Nat)

def read_letter (c : Char) : Option Char :=
  if c = '"' then some '"'
  else if c = '\\' then some '\\'
  else if c = '/' then some '/'
  else if c = 'b' then some '\x08'
  else if c = 'f' then some '\x0C'
  else if c = 'n' then some '\n'
  else if c = 'r' then some '\r'
  else if c = 't' then some '\t'
  else none

/-- The pieces of a string after its opening quote, and what follows it. -/
def read_pieces : List Char → Option (List Piece × List Char)
  | [] => none
  | '"' :: cs => some ([], cs)
  | '\\' :: 'u' :: cs =>
    if (cs.take 4).length = 4 then
      (hex_number 0 (cs.take 4)).bind fun n =>
        (read_pieces (cs.drop 4)).map fun r => (.unit n :: r.1, r.2)
    else none
  | '\\' :: c :: cs =>
    (read_letter c).bind fun d => (read_pieces cs).map fun r => (.raw d :: r.1, r.2)
  | c :: cs =>
    if c = '\\' ∨ c.toNat < 0x20 then none
    else (read_pieces cs).map fun r => (.raw c :: r.1, r.2)
termination_by cs => cs.length

/-- Two units make a character beyond the first plane. -/
def join : List Piece → Option (List Char)
  | [] => some []
  | .raw c :: ps => (join ps).map (c :: ·)
  | .unit n :: ps =>
    if 0xD800 ≤ n ∧ n < 0xDC00 then
      match ps with
      | .unit m :: ps =>
        if 0xDC00 ≤ m ∧ m < 0xE000 then
          (scalar (0x10000 + (n - 0xD800) * 0x400 + (m - 0xDC00))).bind fun c =>
            (join ps).map (c :: ·)
        else none
      | _ => none
    else (scalar n).bind fun c => (join ps).map (c :: ·)

def read_string (cs : List Char) : Option (List Char × List Char) :=
  (read_pieces cs).bind fun r => (join r.1).map fun s => (s, r.2)

/-! ## Values -/

def is_ws (c : Char) : Bool := c == ' ' || c == '\t' || c == '\n' || c == '\r'

def skip (cs : List Char) : List Char := cs.dropWhile is_ws

mutual

def read_value : Nat → List Char → Option (Value × List Char)
  | 0, _ => none
  | fuel + 1, cs =>
    match skip cs with
    | '"' :: cs => (read_string cs).map fun r => (.str r.1, r.2)
    | '[' :: cs =>
      match skip cs with
      | ']' :: cs => some (.arr [], cs)
      | cs => (read_items fuel cs).map fun r => (.arr r.1, r.2)
    | '{' :: cs =>
      match skip cs with
      | '}' :: cs => some (.obj [], cs)
      | cs => (read_members fuel cs).map fun r => (.obj r.1, r.2)
    | _ => none

/-- One item at least, up to the closing bracket. -/
def read_items : Nat → List Char → Option (List Value × List Char)
  | 0, _ => none
  | fuel + 1, cs =>
    (read_value fuel cs).bind fun r =>
      match skip r.2 with
      | ',' :: cs => (read_items fuel cs).map fun rest => (r.1 :: rest.1, rest.2)
      | ']' :: cs => some ([r.1], cs)
      | _ => none

/-- One member at least, up to the closing brace. -/
def read_members : Nat → List Char → Option (List (List Char × Value) × List Char)
  | 0, _ => none
  | fuel + 1, cs =>
    match skip cs with
    | '"' :: cs =>
      (read_string cs).bind fun k =>
        match skip k.2 with
        | ':' :: cs =>
          (read_value fuel cs).bind fun r =>
            match skip r.2 with
            | ',' :: cs => (read_members fuel cs).map fun rest => ((k.1, r.1) :: rest.1, rest.2)
            | '}' :: cs => some ([(k.1, r.1)], cs)
            | _ => none
        | _ => none
    | _ => none

end

/-- The value of a text, whole. A text needs no more steps than it has characters. -/
def read (doc : List Char) : Option Value :=
  (read_value (doc.length + 1) doc).bind fun r => if skip r.2 = [] then some r.1 else none

/-- The member of an object. -/
def Value.get (key : List Char) : Value → Option Value
  | .obj members => members.lookup key
  | _ => none

def Value.as_str : Value → Option (List Char)
  | .str s => some s
  | _ => none

def Value.as_array : Value → Option (List Value)
  | .arr items => some items
  | _ => none

/-! ## Printing -/

def hex_small (n : Nat) : Char := if n < 10 then Char.ofNat (48 + n) else Char.ofNat (87 + n)

/-- A character in a string: short escapes where there are some, other controls by number. -/
def print_char (c : Char) : List Char :=
  if c = '"' then ['\\', '"']
  else if c = '\\' then ['\\', '\\']
  else if c = '\x08' then ['\\', 'b']
  else if c = '\x0C' then ['\\', 'f']
  else if c = '\n' then ['\\', 'n']
  else if c = '\r' then ['\\', 'r']
  else if c = '\t' then ['\\', 't']
  else if c.toNat < 0x20 then
    ['\\', 'u', '0', '0', hex_small (c.toNat / 16), hex_small (c.toNat % 16)]
  else [c]

def print_string (s : List Char) : List Char := '"' :: (s.flatMap print_char ++ ['"'])

mutual

def print : Value → List Char
  | .str s => print_string s
  | .arr [] => ['[', ']']
  | .arr (j :: js) => '[' :: (print j ++ print_items js ++ [']'])
  | .obj [] => ['{', '}']
  | .obj ((k, j) :: ms) => '{' :: (print_string k ++ ':' :: print j ++ print_members ms ++ ['}'])

/-- The items after the first. -/
def print_items : List Value → List Char
  | [] => []
  | j :: js => ',' :: (print j ++ print_items js)

def print_members : List (List Char × Value) → List Char
  | [] => []
  | (k, j) :: ms => ',' :: (print_string k ++ ':' :: print j ++ print_members ms)

end

/-! ## What is printed is read -/

theorem read_pieces_letter {c d : Char} (hu : c ≠ 'u') (h : read_letter c = some d)
    (cs : List Char) :
    read_pieces ('\\' :: c :: cs) = (read_pieces cs).map fun r => (.raw d :: r.1, r.2) := by
  rw [read_pieces, h, Option.bind_some]
  exact hu

theorem read_pieces_raw {c : Char} (hquote : c ≠ '"') (hslash : c ≠ '\\')
    (hcontrol : ¬c.toNat < 0x20) (cs : List Char) :
    read_pieces (c :: cs) = (read_pieces cs).map fun r => (.raw c :: r.1, r.2) := by
  rw [read_pieces, if_neg (not_or.mpr ⟨hslash, hcontrol⟩)]
  · exact hquote
  · exact fun _ h _ => hslash h
  · exact fun _ _ h _ => hslash h

theorem hex_number_small {n : Nat} (h : n < 0x20) :
    hex_number 0 ['0', '0', hex_small (n / 16), hex_small (n % 16)] = some n := by
  interval_cases n <;> rfl

theorem read_pieces_number {n : Nat} (h : n < 0x20) (cs : List Char) :
    read_pieces ('\\' :: 'u' :: '0' :: '0' :: hex_small (n / 16) :: hex_small (n % 16) :: cs) =
      (read_pieces cs).map fun r => (.unit n :: r.1, r.2) := by
  rw [read_pieces]
  simp only [List.take_succ_cons, List.take_zero, List.length_cons, List.length_nil, if_true,
    List.drop_succ_cons, List.drop_zero, hex_number_small h, Option.bind_some]

theorem join_small {n : Nat} (h : n < 0x20) (ps : List Piece) :
    join (.unit n :: ps) = (join ps).map (Char.ofNat n :: ·) := by
  have hlow : ¬(0xD800 ≤ n ∧ n < 0xDC00) := by omega
  have hvalid : n.isValidChar := Or.inl (by omega)
  rw [join.eq_def]
  simp only [if_neg hlow, scalar, if_pos hvalid, Option.bind_some]

/-- A printed character is read as one piece, which stands for it. -/
theorem read_print_char (c : Char) : ∃ p : Piece,
    (∀ cs, read_pieces (print_char c ++ cs) =
      (read_pieces cs).map fun r => (p :: r.1, r.2)) ∧
    ∀ ps, join (p :: ps) = (join ps).map (c :: ·) := by
  unfold print_char
  split_ifs with h1 h2 h3 h4 h5 h6 h7 h8
  · subst h1
    exact ⟨.raw _, read_pieces_letter (by decide) rfl, fun _ => rfl⟩
  · subst h2
    exact ⟨.raw _, read_pieces_letter (by decide) rfl, fun _ => rfl⟩
  · subst h3
    exact ⟨.raw _, read_pieces_letter (by decide) rfl, fun _ => rfl⟩
  · subst h4
    exact ⟨.raw _, read_pieces_letter (by decide) rfl, fun _ => rfl⟩
  · subst h5
    exact ⟨.raw _, read_pieces_letter (by decide) rfl, fun _ => rfl⟩
  · subst h6
    exact ⟨.raw _, read_pieces_letter (by decide) rfl, fun _ => rfl⟩
  · subst h7
    exact ⟨.raw _, read_pieces_letter (by decide) rfl, fun _ => rfl⟩
  · refine ⟨.unit c.toNat, read_pieces_number h8, fun ps => ?_⟩
    rw [join_small h8, Char.ofNat_toNat]
  · exact ⟨.raw c, read_pieces_raw h1 h2 h8, fun _ => rfl⟩

/-- A printed string is read as it was. -/
theorem read_print_string (s rest : List Char) :
    read_string (s.flatMap print_char ++ '"' :: rest) = some (s, rest) := by
  have hpieces : ∃ ps, read_pieces (s.flatMap print_char ++ '"' :: rest) = some (ps, rest) ∧
      join ps = some s := by
    induction s with
    | nil => exact ⟨[], by rw [List.flatMap_nil, List.nil_append, read_pieces], rfl⟩
    | cons c s ih =>
      obtain ⟨ps, hread, hjoin⟩ := ih
      obtain ⟨p, hp, hpjoin⟩ := read_print_char c
      refine ⟨p :: ps, ?_, ?_⟩
      · rw [List.flatMap_cons, List.append_assoc, hp, hread]
        rfl
      · rw [hpjoin, hjoin]
        rfl
  obtain ⟨ps, hread, hjoin⟩ := hpieces
  rw [read_string, hread, Option.bind_some, hjoin]
  rfl

theorem skip_cons {c : Char} (h : is_ws c = false) (cs : List Char) : skip (c :: cs) = c :: cs :=
  List.dropWhile_cons_of_neg (by rw [h]; exact Bool.false_ne_true)

/-- Every printed value starts with a mark of its kind. -/
theorem print_head (j : Value) : ∃ c cs, print j = c :: cs ∧ (c = '"' ∨ c = '[' ∨ c = '{') := by
  cases j with
  | str s => exact ⟨'"', _, rfl, Or.inl rfl⟩
  | arr items =>
    cases items with
    | nil => exact ⟨'[', _, rfl, Or.inr (Or.inl rfl)⟩
    | cons j js => exact ⟨'[', _, rfl, Or.inr (Or.inl rfl)⟩
  | obj members =>
    cases members with
    | nil => exact ⟨'{', _, rfl, Or.inr (Or.inr rfl)⟩
    | cons m ms => exact ⟨'{', _, rfl, Or.inr (Or.inr rfl)⟩

/-- A value's text opens no list that is empty. -/
theorem read_value_items (j : Value) (fuel : Nat) (cs : List Char) :
    read_value (fuel + 1) ('[' :: (print j ++ cs)) =
      (read_items fuel (print j ++ cs)).map fun r => (.arr r.1, r.2) := by
  obtain ⟨c, ds, heq, hc⟩ := print_head j
  have hws : is_ws c = false := by
    rcases hc with rfl | rfl | rfl
    · rfl
    · rfl
    · rfl
  have hclose : c ≠ ']' := by
    rcases hc with rfl | rfl | rfl
    · decide
    · decide
    · decide
  rw [heq, read_value, skip_cons rfl]
  simp only [List.cons_append, skip_cons hws]
  split
  · rename_i h
    exact absurd (List.cons.inj h).1 hclose
  · rfl

theorem read_value_members (k : List Char) (fuel : Nat) (cs : List Char) :
    read_value (fuel + 1) ('{' :: (print_string k ++ cs)) =
      (read_members fuel (print_string k ++ cs)).map fun r => (.obj r.1, r.2) := by
  rw [print_string, read_value, skip_cons rfl]
  simp only [List.cons_append, skip_cons (rfl : is_ws '"' = false)]
  split
  · rename_i h
    exact absurd (List.cons.inj h).1 (by decide)
  · rfl

mutual

theorem read_print_value (j : Value) (fuel : Nat) (rest : List Char)
    (h : (print j).length ≤ fuel) : read_value fuel (print j ++ rest) = some (j, rest) := by
  match j, fuel, h with
  | .str s, 0, h =>
    rw [print, print_string, List.length_cons] at h
    omega
  | .str s, fuel + 1, h =>
    rw [print, print_string, List.cons_append, List.append_assoc, List.singleton_append, read_value,
      skip_cons rfl]
    simp only [read_print_string, Option.map_some]
  | .arr [], 0, h =>
    rw [print, List.length_cons] at h
    omega
  | .arr [], fuel + 1, h => rfl
  | .arr (j :: js), 0, h =>
    rw [print, List.length_cons] at h
    omega
  | .arr (j :: js), fuel + 1, h =>
    rw [print, List.length_cons, List.length_append, List.length_singleton] at h
    have hitems := read_print_items j js fuel rest (by omega)
    rw [print, List.cons_append, List.append_assoc, List.append_assoc, read_value_items,
      List.singleton_append, ← List.append_assoc, hitems]
    rfl
  | .obj [], 0, h =>
    rw [print, List.length_cons] at h
    omega
  | .obj [], fuel + 1, h => rfl
  | .obj ((k, j) :: ms), 0, h =>
    rw [print, List.length_cons] at h
    omega
  | .obj ((k, j) :: ms), fuel + 1, h =>
    rw [print, List.length_cons, List.length_append, List.length_singleton] at h
    have hmembers := read_print_members k j ms fuel rest (by omega)
    rw [List.append_assoc, List.append_assoc] at hmembers
    rw [print, List.cons_append, List.append_assoc, List.append_assoc, List.append_assoc,
      read_value_members, List.singleton_append, hmembers]
    rfl

theorem read_print_items (j : Value) (js : List Value) (fuel : Nat) (rest : List Char)
    (h : (print j ++ print_items js).length < fuel) :
    read_items fuel (print j ++ print_items js ++ ']' :: rest) = some (j :: js, rest) := by
  match fuel, js, h with
  | fuel + 1, [], h =>
    rw [print_items, List.append_nil] at h ⊢
    rw [read_items, read_print_value j fuel _ (by omega), Option.bind_some]
    simp only [skip_cons (rfl : is_ws ']' = false)]
  | fuel + 1, j' :: js, h =>
    rw [print_items, List.length_append, List.length_cons] at h
    rw [print_items, List.append_assoc, read_items, read_print_value j fuel _ (by omega),
      Option.bind_some]
    simp only [List.cons_append, skip_cons (rfl : is_ws ',' = false)]
    rw [read_print_items j' js fuel rest (by omega)]
    rfl

theorem read_print_members (k : List Char) (j : Value) (ms : List (List Char × Value)) (fuel : Nat)
    (rest : List Char)
    (h : (print_string k ++ ':' :: print j ++ print_members ms).length < fuel) :
    read_members fuel (print_string k ++ ':' :: print j ++ print_members ms ++ '}' :: rest) =
      some ((k, j) :: ms, rest) := by
  match fuel, ms, h with
  | fuel + 1, [], h =>
    rw [print_members, List.append_nil] at h ⊢
    rw [List.length_append, List.length_cons] at h
    rw [print_string, List.append_assoc, List.cons_append, List.append_assoc, List.singleton_append,
      read_members, skip_cons rfl]
    simp only [read_print_string, Option.bind_some, List.cons_append,
      skip_cons (rfl : is_ws ':' = false), read_print_value j fuel _ (by omega),
      skip_cons (rfl : is_ws '}' = false)]
  | fuel + 1, (k', j') :: ms, h =>
    rw [print_members, List.length_append, List.length_append, List.length_cons,
      List.length_cons] at h
    rw [print_members, print_string, List.append_assoc, List.append_assoc, List.cons_append,
      List.append_assoc, List.singleton_append, read_members, skip_cons rfl]
    have hrest := read_print_members k' j' ms fuel rest (by omega)
    simp only [read_print_string, Option.bind_some, List.cons_append,
      skip_cons (rfl : is_ws ':' = false), read_print_value j fuel _ (by omega),
      skip_cons (rfl : is_ws ',' = false)]
    rw [hrest]
    rfl

end

/-- A printed value is read as it was. -/
theorem read_print (j : Value) : read (print j) = some j := by
  have h := read_print_value j ((print j).length + 1) [] (Nat.le_succ _)
  rw [List.append_nil] at h
  rw [read, h]
  rfl

end HornDb.Lib.Json
