-- XML without document types, comments and sections of raw text: how a document is read, and
-- rules for what is read of a tag, of its text and of its children.
import HornDb.Lib.Hex

open HornDb.Lib.Hex

namespace HornDb.Lib.Xml

abbrev Attributes := List (List Char × List Char)

/-- An element: its text before the first child, and each child with the text after it. -/
inductive Element where
  | mk (name : List Char) (attrs : Attributes) (text : List Char)
      (children : List (Element × List Char))

namespace Element

def name : Element → List Char
  | mk name _ _ _ => name

def attrs : Element → Attributes
  | mk _ attrs _ _ => attrs

def text : Element → List Char
  | mk _ _ text _ => text

def children : Element → List (Element × List Char)
  | mk _ _ _ children => children

/-- The text of an element that has no child. -/
def only_text : Element → Option (List Char)
  | mk _ _ text [] => some text
  | mk _ _ _ (_ :: _) => none

end Element

/-! ## Characters -/

/-- The characters that a document may have. -/
def legal_char (c : Char) : Bool :=
  c == '\t' || c == '\n' || c == '\r' || (0x20 ≤ c.toNat && c.toNat ≤ 0xFFFD) || 0x10000 ≤ c.toNat

def is_space (c : Char) : Bool := c == ' ' || c == '\t' || c == '\n' || c == '\r'

def skip (cs : List Char) : List Char := cs.dropWhile is_space

def name_starts : List (Nat × Nat) :=
  [(0x3A, 0x3A), (0x41, 0x5A), (0x5F, 0x5F), (0x61, 0x7A), (0xC0, 0xD6), (0xD8, 0xF6),
    (0xF8, 0x2FF), (0x370, 0x37D), (0x37F, 0x1FFF), (0x200C, 0x200D), (0x2070, 0x218F),
    (0x2C00, 0x2FEF), (0x3001, 0xD7FF), (0xF900, 0xFDCF), (0xFDF0, 0xFFFD), (0x10000, 0xEFFFF)]

def name_others : List (Nat × Nat) :=
  [(0x2D, 0x2E), (0x30, 0x39), (0xB7, 0xB7), (0x300, 0x36F), (0x203F, 0x2040)]

def in_ranges (ranges : List (Nat × Nat)) (c : Char) : Bool :=
  ranges.any fun r => r.1 ≤ c.toNat && c.toNat ≤ r.2

def name_char (c : Char) : Bool := in_ranges name_starts c || in_ranges name_others c

/-- A line ends with one character, however it is written. -/
def line_ends : List Char → List Char
  | [] => []
  | '\r' :: '\n' :: cs => '\n' :: line_ends cs
  | '\r' :: cs => '\n' :: line_ends cs
  | c :: cs => c :: line_ends cs

/-- The children of an element with nothing else but white space in it. -/
def Element.items (e : Element) : Option (List Element) :=
  if e.text.all is_space ∧ e.children.all (fun c => c.2.all is_space) then
    some (e.children.map Prod.fst)
  else none

/-! ## References -/

def decimal (acc : Nat) : List Char → Option Nat
  | [] => some acc
  | c :: cs => if c.isDigit then decimal (10 * acc + (c.toNat - 48)) cs else none

/-- The character that a reference stands for, from its name. -/
def entity (name : List Char) : Option Char :=
  match name with
  | ['a', 'm', 'p'] => some '&'
  | ['l', 't'] => some '<'
  | ['g', 't'] => some '>'
  | ['q', 'u', 'o', 't'] => some '"'
  | ['a', 'p', 'o', 's'] => some '\''
  | '#' :: 'x' :: d :: ds => ((hex_number 0 (d :: ds)).bind scalar).filter legal_char
  | '#' :: d :: ds => ((decimal 0 (d :: ds)).bind scalar).filter legal_char
  | _ => none

/-- A text with its references replaced, or one within the name of a reference. -/
def read_data : Option (List Char) → List Char → Option (List Char)
  | none, [] => some []
  | some _, [] => none
  | none, c :: cs =>
    if c = '&' then read_data (some []) cs else (read_data none cs).map (c :: ·)
  | some name, c :: cs =>
    if c = ';' then (entity name).bind fun d => (read_data none cs).map (d :: ·)
    else read_data (some (name ++ [c])) cs

/-! ## Tags -/

def read_name (cs : List Char) : Option (List Char × List Char) :=
  match cs.takeWhile name_char with
  | [] => none
  | c :: name =>
    if in_ranges name_starts c then some (c :: name, cs.dropWhile name_char) else none

/-- The value of an attribute after its name. White space in it counts as a blank. -/
def read_quoted (cs : List Char) : Option (List Char × List Char) :=
  match skip cs with
  | '=' :: cs =>
    match skip cs with
    | q :: cs =>
      let run := cs.takeWhile (· != q)
      if (q = '"' ∨ q = '\'') ∧ '<' ∉ run then
        match cs.dropWhile (· != q) with
        | _ :: rest =>
          (read_data none (run.map fun c => if is_space c then ' ' else c)).map fun v => (v, rest)
        | [] => none
      else none
    | [] => none
  | _ => none

/-- The attributes of a tag, up to its end: each after white space, no name twice. -/
def read_attributes : Nat → List Char → Option (Attributes × List Char)
  | 0, _ => none
  | fuel + 1, cs =>
    let inner := skip cs
    if inner.head? = some '>' ∨ inner.head? = some '/' then some ([], inner)
    else if inner.length = cs.length then none
    else
      (read_name inner).bind fun k =>
      (read_quoted k.2).bind fun v =>
      (read_attributes fuel v.2).bind fun rest =>
        if k.1 ∈ rest.1.map Prod.fst then none else some ((k.1, v.1) :: rest.1, rest.2)

/-- The text up to the next tag. -/
def read_text (cs : List Char) : Option (List Char × List Char) :=
  let run := cs.takeWhile (· != '<')
  if [']', ']', '>'] <:+: run then none
  else (read_data none run).map fun t => (t, cs.dropWhile (· != '<'))

/-- The rest of the closing tag of `name`. -/
def read_end (name cs : List Char) : Option (List Char) :=
  (read_name cs).bind fun n =>
    match skip n.2 with
    | '>' :: rest => if n.1 = name then some rest else none
    | _ => none

mutual

def read_element : Nat → List Char → Option (Element × List Char)
  | fuel + 1, '<' :: cs =>
    (read_name cs).bind fun n =>
    (read_attributes (n.2.length + 1) n.2).bind fun a =>
    match a.2 with
    | '/' :: '>' :: rest => some (.mk n.1 a.1 [] [], rest)
    | '>' :: cs =>
      (read_text cs).bind fun t =>
      (read_children fuel t.2).bind fun k =>
      (read_end n.1 k.2).map fun rest => (.mk n.1 a.1 t.1 k.1, rest)
    | _ => none
  | _, _ => none

/-- The children, each with the text after it, up to the start of the closing tag. -/
def read_children : Nat → List Char → Option (List (Element × List Char) × List Char)
  | 0, _ => none
  | _ + 1, '<' :: '/' :: cs => some ([], cs)
  | fuel + 1, cs =>
    (read_element fuel cs).bind fun e =>
    (read_text e.2).bind fun t =>
    (read_children fuel t.2).map fun rest => ((e.1, t.1) :: rest.1, rest.2)

end

def declaration : List Char := "<?xml version=\"1.0\"?>".toList

/-- The element of a document. The declaration may be left out. -/
def read (doc : List Char) : Option Element :=
  if doc.all legal_char then
    let body := line_ends doc
    let body := if declaration.isPrefixOf body then body.drop declaration.length else body
    (read_element (body.length + 1) (skip body)).bind fun r =>
      if skip r.2 = [] then some r.1 else none
  else none

/-! ## What is read of a name, a text and an attribute -/

structure IsName (name : List Char) : Prop where
  starts : ∃ c cs, name = c :: cs ∧ in_ranges name_starts c = true
  chars : ∀ c ∈ name, name_char c = true

theorem read_name_of {name cs : List Char} (h : IsName name)
    (hend : ∀ c ∈ cs.head?, name_char c = false) : read_name (name ++ cs) = some (name, cs) := by
  have htail : cs.takeWhile name_char = [] ∧ cs.dropWhile name_char = cs := by
    cases cs with
    | nil => exact ⟨rfl, rfl⟩
    | cons c cs => simp [hend c rfl]
  have htake : (name ++ cs).takeWhile name_char = name := by
    rw [List.takeWhile_append_of_pos h.chars, htail.1, List.append_nil]
  have hdrop : (name ++ cs).dropWhile name_char = cs := by
    rw [List.dropWhile_append_of_pos h.chars, htail.2]
  obtain ⟨c, rest, hname, hstart⟩ := h.starts
  rw [read_name, htake, hdrop, hname]
  simp only [hstart, if_true]

/-- A way to write a character in a text: as it is, or by its name. -/
def Writes (write : Char → List Char) (c : Char) : Prop :=
  (write c = [c] ∧ c ≠ '&' ∧ c ≠ '<' ∧ c ≠ '>') ∨
    ∃ name, write c = '&' :: (name ++ [';']) ∧ entity name = some c ∧
      ∀ d ∈ name, d ≠ ';' ∧ d ≠ '<' ∧ d ≠ '>'

theorem read_data_name (name acc cs : List Char) (h : ∀ d ∈ name, d ≠ ';') :
    read_data (some acc) (name ++ ';' :: cs) =
      (entity (acc ++ name)).bind fun d => (read_data none cs).map (d :: ·) := by
  induction name generalizing acc with
  | nil => simp [read_data]
  | cons c name ih =>
    rw [List.forall_mem_cons] at h
    rw [List.cons_append, read_data, if_neg h.1, ih _ h.2, List.append_assoc,
      List.singleton_append]

theorem Writes.read_data {write : Char → List Char} {c : Char} (h : Writes write c)
    (cs : List Char) : read_data none (write c ++ cs) = (read_data none cs).map (c :: ·) := by
  rcases h with ⟨heq, hamp, -, -⟩ | ⟨name, heq, hentity, hname⟩
  · rw [heq, List.singleton_append, Xml.read_data, if_neg hamp]
  · rw [heq, List.cons_append, List.append_assoc, List.singleton_append, Xml.read_data, if_pos rfl,
      read_data_name name [] cs fun d hd => (hname d hd).1, List.nil_append, hentity,
      Option.bind_some]

theorem read_data_writes {write : Char → List Char} {s : List Char}
    (h : ∀ c ∈ s, Writes write c) : read_data none (s.flatMap write) = some s := by
  induction s with
  | nil => rfl
  | cons c s ih =>
    rw [List.forall_mem_cons] at h
    rw [List.flatMap_cons, h.1.read_data, ih h.2]
    rfl

/-- No bracket stands in what is written. -/
theorem Writes.no_bracket {write : Char → List Char} {s : List Char}
    (h : ∀ c ∈ s, Writes write c) : ∀ d ∈ s.flatMap write, d ≠ '<' ∧ d ≠ '>' := by
  intro d hd
  obtain ⟨c, hc, hd⟩ := List.mem_flatMap.mp hd
  rcases h c hc with ⟨heq, -, hlt, hgt⟩ | ⟨name, heq, -, hname⟩
  · rw [heq, List.mem_singleton] at hd
    rw [hd]
    exact ⟨hlt, hgt⟩
  · rw [heq, List.mem_cons, List.mem_append, List.mem_singleton] at hd
    rcases hd with rfl | hd | rfl
    · decide
    · exact (hname d hd).2
    · decide

/-- A text without brackets that is read as `t`. -/
structure ReadsText (run t : List Char) : Prop where
  no_bracket : ∀ c ∈ run, c ≠ '<' ∧ c ≠ '>'
  reads : read_data none run = some t

theorem ReadsText.of_writes {write : Char → List Char} {s : List Char}
    (h : ∀ c ∈ s, Writes write c) : ReadsText (s.flatMap write) s where
  no_bracket := Writes.no_bracket h
  reads := read_data_writes h

/-- A text of blanks and line ends. -/
theorem ReadsText.space {run : List Char} (h : ∀ c ∈ run, is_space c = true) :
    ReadsText run run := by
  have hne {c : Char} (hc : is_space c = true) : c ≠ '<' ∧ c ≠ '>' ∧ c ≠ '&' := by
    refine ⟨?_, ?_, ?_⟩
    · rintro rfl
      cases hc
    · rintro rfl
      cases hc
    · rintro rfl
      cases hc
  refine ⟨fun c hc => ⟨(hne (h c hc)).1, (hne (h c hc)).2.1⟩, ?_⟩
  induction run with
  | nil => rfl
  | cons c run ih =>
    rw [List.forall_mem_cons] at h
    rw [read_data, if_neg (hne h.1).2.2, ih h.2]
    rfl

theorem ReadsText.read_text {run t : List Char} (h : ReadsText run t) (cs : List Char) :
    read_text (run ++ '<' :: cs) = some (t, '<' :: cs) := by
  have hne : ∀ c ∈ run, (c != '<') = true := fun c hc => bne_iff_ne.mpr (h.no_bracket c hc).1
  have htake : (run ++ '<' :: cs).takeWhile (· != '<') = run := by
    rw [List.takeWhile_append_of_pos hne, List.takeWhile_cons_of_neg (by decide), List.append_nil]
  have hdrop : (run ++ '<' :: cs).dropWhile (· != '<') = '<' :: cs := by
    rw [List.dropWhile_append_of_pos hne, List.dropWhile_cons_of_neg (by decide)]
  have hinfix : ¬[']', ']', '>'] <:+: run := by
    intro hin
    exact (h.no_bracket '>' (hin.mem (by decide))).2 rfl
  unfold Xml.read_text
  simp only [htake, hdrop, if_neg hinfix, h.reads, Option.map_some]

/-! ## What is read of a tag -/

/-- The text of attributes, at the end of a tag. -/
structure ReadsAttributes (text : List Char) (attrs : Attributes) : Prop where
  opens : ∀ c ∈ text.head?, name_char c = false
  reads : ∀ fuel e rest, e = '>' ∨ e = '/' → text.length < fuel →
    read_attributes fuel (text ++ e :: rest) = some (attrs, e :: rest)

theorem skip_cons {c : Char} (h : is_space c = false) (cs : List Char) : skip (c :: cs) = c :: cs :=
  List.dropWhile_cons_of_neg (by rw [h]; exact Bool.false_ne_true)

theorem tag_end_plain {e : Char} (h : e = '>' ∨ e = '/') :
    is_space e = false ∧ name_char e = false := by
  rcases h with rfl | rfl
  · decide
  · decide

theorem ReadsAttributes.nil : ReadsAttributes [] [] where
  opens := by simp
  reads fuel e rest he hlen := by
    obtain ⟨fuel, rfl⟩ := Nat.exists_eq_add_one.mpr hlen
    rw [List.nil_append, read_attributes]
    simp only [skip_cons (tag_end_plain he).1, List.head?_cons, Option.some_inj, if_pos he]

theorem IsName.not_space {name : List Char} (h : IsName name) :
    ∃ c cs, name = c :: cs ∧ is_space c = false ∧ c ≠ '>' ∧ c ≠ '/' := by
  obtain ⟨c, cs, hname, hstart⟩ := h.starts
  refine ⟨c, cs, hname, ?_, ?_, ?_⟩
  · rw [is_space, Bool.or_eq_false_iff, Bool.or_eq_false_iff, Bool.or_eq_false_iff]
    refine ⟨⟨⟨?_, ?_⟩, ?_⟩, ?_⟩ <;>
    · rw [beq_eq_false_iff_ne]
      rintro rfl
      exact absurd hstart (by decide)
  · rintro rfl
    exact absurd hstart (by decide)
  · rintro rfl
    exact absurd hstart (by decide)

theorem read_quoted_of {run v rest : List Char} (h : ReadsText run v)
    (hquote : ∀ c ∈ run, c ≠ '"') (hspace : ∀ c ∈ run, is_space c = true → c = ' ') :
    read_quoted ('=' :: '"' :: (run ++ '"' :: rest)) = some (v, rest) := by
  have hne : ∀ c ∈ run, (c != '"') = true := fun c hc => bne_iff_ne.mpr (hquote c hc)
  have htake : (run ++ '"' :: rest).takeWhile (· != '"') = run := by
    rw [List.takeWhile_append_of_pos hne, List.takeWhile_cons_of_neg (by decide), List.append_nil]
  have hdrop : (run ++ '"' :: rest).dropWhile (· != '"') = '"' :: rest := by
    rw [List.dropWhile_append_of_pos hne, List.dropWhile_cons_of_neg (by decide)]
  have hmap : (run.map fun c => if is_space c then ' ' else c) = run := by
    refine (List.map_congr_left fun c hc => ?_).trans (List.map_id run)
    split
    · rename_i h
      exact (hspace c hc h).symm
    · rfl
  have hlt : '<' ∉ run := fun hin => (h.no_bracket '<' hin).1 rfl
  unfold read_quoted
  simp only [skip_cons (rfl : is_space '=' = false), skip_cons (rfl : is_space '"' = false), htake,
    hdrop, hmap, h.reads, true_or, true_and, if_pos hlt, Option.map_some]

/-- An attribute before further ones of other names. -/
theorem ReadsAttributes.cons {name run v text : List Char} {attrs : Attributes}
    (hname : IsName name) (hrun : ReadsText run v) (hquote : ∀ c ∈ run, c ≠ '"')
    (hspace : ∀ c ∈ run, is_space c = true → c = ' ') (h : ReadsAttributes text attrs)
    (hnew : name ∉ attrs.map Prod.fst) :
    ReadsAttributes (' ' :: (name ++ '=' :: '"' :: (run ++ '"' :: text))) ((name, v) :: attrs) where
  opens := by
    intro c hc
    cases hc
    rfl
  reads fuel e rest he hlen := by
    obtain ⟨fuel, rfl⟩ := Nat.exists_eq_add_one.mpr (Nat.zero_lt_of_lt hlen)
    simp only [List.length_cons, List.length_append] at hlen
    obtain ⟨c, cs, hcons, hc, hgt, hslash⟩ := hname.not_space
    have hskip : skip (' ' :: (name ++ '=' :: '"' :: (run ++ '"' :: text)) ++ e :: rest) =
        name ++ '=' :: '"' :: (run ++ '"' :: (text ++ e :: rest)) := by
      rw [hcons, List.cons_append, skip, List.dropWhile_cons_of_pos (by decide), ← skip]
      simp only [List.append_assoc, List.cons_append, skip_cons hc]
    have hhead : (name ++ '=' :: '"' :: (run ++ '"' :: (text ++ e :: rest))).head? = some c := by
      rw [hcons]
      rfl
    rw [read_attributes]
    simp only [hskip]
    rw [if_neg, if_neg, read_name_of hname (by rintro d ⟨⟩; rfl), Option.bind_some,
      read_quoted_of hrun hquote hspace, Option.bind_some, h.reads fuel e rest he (by omega),
      Option.bind_some, if_neg hnew]
    · simp
    · rw [hhead]
      simp [hgt, hslash]

/-! ## What is read of an element -/

structure ReadsElement (text : List Char) (e : Element) : Prop where
  opens : ∃ c cs, text = '<' :: c :: cs ∧ c ≠ '/'
  reads : ∀ fuel rest, text.length ≤ fuel → read_element fuel (text ++ rest) = some (e, rest)

/-- The text of children, before the closing tag. -/
structure ReadsChildren (text : List Char) (children : List (Element × List Char)) : Prop where
  opens : ∀ rest, ∃ cs, text ++ '<' :: rest = '<' :: cs
  reads : ∀ fuel rest, text.length < fuel →
    read_children fuel (text ++ '<' :: '/' :: rest) = some (children, rest)

theorem IsName.read_end {name : List Char} (h : IsName name) (rest : List Char) :
    read_end name (name ++ '>' :: rest) = some rest := by
  rw [Xml.read_end, read_name_of h (by rintro d ⟨⟩; rfl), Option.bind_some]
  simp only [skip_cons (rfl : is_space '>' = false), if_true]

theorem IsName.opens {name : List Char} (h : IsName name) (rest : List Char) :
    ∃ c cs, '<' :: (name ++ rest) = '<' :: c :: cs ∧ c ≠ '/' := by
  obtain ⟨c, cs, hcons, -, -, hslash⟩ := h.not_space
  exact ⟨c, cs ++ rest, by rw [hcons, List.cons_append], hslash⟩

theorem read_name_tag {name atext : List Char} {attrs : Attributes} (hname : IsName name)
    (hattrs : ReadsAttributes atext attrs) {e : Char} (he : e = '>' ∨ e = '/') (rest : List Char) :
    read_name (name ++ (atext ++ e :: rest)) = some (name, atext ++ e :: rest) := by
  refine read_name_of hname fun c hc => ?_
  cases h : atext with
  | nil =>
    rw [h] at hc
    cases hc
    exact (tag_end_plain he).2
  | cons d ds =>
    rw [h] at hc
    cases hc
    exact hattrs.opens c (by rw [h]; rfl)

/-- A tag that closes itself. -/
theorem ReadsElement.closed {name atext : List Char} {attrs : Attributes} (hname : IsName name)
    (hattrs : ReadsAttributes atext attrs) :
    ReadsElement ('<' :: (name ++ (atext ++ ['/', '>']))) (.mk name attrs [] []) where
  opens := hname.opens _
  reads fuel rest hlen := by
    obtain ⟨fuel, rfl⟩ := Nat.exists_eq_add_one.mpr (Nat.zero_lt_of_lt hlen)
    rw [List.cons_append, List.append_assoc, List.append_assoc, List.cons_append,
      List.singleton_append, read_element, read_name_tag hname hattrs (Or.inr rfl),
      Option.bind_some]
    dsimp only
    rw [hattrs.reads _ _ _ (Or.inr rfl) (by simp), Option.bind_some]
    rfl

/-- An element with its text and its children. -/
theorem ReadsElement.tag {name atext run t ctext : List Char} {attrs : Attributes}
    {children : List (Element × List Char)} (hname : IsName name)
    (hattrs : ReadsAttributes atext attrs) (hrun : ReadsText run t)
    (hchildren : ReadsChildren ctext children) :
    ReadsElement
      ('<' :: (name ++ (atext ++ '>' :: (run ++ (ctext ++ '<' :: '/' :: (name ++ ['>']))))))
      (.mk name attrs t children) where
  opens := hname.opens _
  reads fuel rest hlen := by
    obtain ⟨fuel, rfl⟩ := Nat.exists_eq_add_one.mpr (Nat.zero_lt_of_lt hlen)
    simp only [List.length_cons, List.length_append] at hlen
    simp only [List.cons_append, List.append_assoc, List.nil_append]
    obtain ⟨cs, hcs⟩ := hchildren.opens ('/' :: (name ++ '>' :: rest))
    rw [read_element, read_name_tag hname hattrs (Or.inl rfl), Option.bind_some]
    dsimp only
    rw [hattrs.reads _ _ _ (Or.inl rfl) (by simp), Option.bind_some]
    simp only [hcs, hrun.read_text, Option.bind_some]
    rw [← hcs, hchildren.reads fuel _ (by omega), Option.bind_some]
    dsimp only
    rw [hname.read_end]
    rfl

theorem ReadsChildren.nil : ReadsChildren [] [] where
  opens rest := ⟨rest, rfl⟩
  reads fuel rest hlen := by
    obtain ⟨fuel, rfl⟩ := Nat.exists_eq_add_one.mpr hlen
    rfl

theorem read_children_element {e : List Char} (h : ∃ c cs, e = '<' :: c :: cs ∧ c ≠ '/')
    (fuel : Nat) (rest : List Char) : read_children (fuel + 1) (e ++ rest) =
      (read_element fuel (e ++ rest)).bind fun e =>
        (read_text e.2).bind fun t =>
          (read_children fuel t.2).map fun rest => ((e.1, t.1) :: rest.1, rest.2) := by
  obtain ⟨c, cs, rfl, hslash⟩ := h
  rw [List.cons_append, List.cons_append, read_children]
  rintro ds ⟨⟩
  exact hslash rfl

theorem ReadsChildren.cons {etext run t ctext : List Char} {e : Element}
    {children : List (Element × List Char)} (he : ReadsElement etext e) (hrun : ReadsText run t)
    (hchildren : ReadsChildren ctext children) :
    ReadsChildren (etext ++ (run ++ ctext)) ((e, t) :: children) where
  opens rest := by
    obtain ⟨c, cs, h, -⟩ := he.opens
    exact ⟨c :: cs ++ (run ++ ctext) ++ '<' :: rest, by rw [h]; simp⟩
  reads fuel rest hlen := by
    obtain ⟨fuel, rfl⟩ := Nat.exists_eq_add_one.mpr (Nat.zero_lt_of_lt hlen)
    have hpos : 0 < etext.length := by
      obtain ⟨c, cs, h, -⟩ := he.opens
      rw [h]
      exact Nat.succ_pos _
    simp only [List.length_append] at hlen
    obtain ⟨cs, hcs⟩ := hchildren.opens ('/' :: rest)
    rw [List.append_assoc, read_children_element he.opens, he.reads fuel _ (by omega),
      Option.bind_some]
    dsimp only
    rw [List.append_assoc, hcs, hrun.read_text, Option.bind_some]
    dsimp only
    rw [← hcs, hchildren.reads fuel _ (by omega)]
    rfl

/-- Elements with white space around them, before a closing tag. -/
def ReadsItems (text : List Char) (es : List Element) : Prop :=
  ∃ run ctext children, text = run ++ ctext ∧ (∀ c ∈ run, is_space c = true) ∧
    ReadsChildren ctext children ∧ children.map Prod.fst = es ∧
    ∀ c ∈ children, ∀ d ∈ c.2, is_space d = true

theorem ReadsItems.nil : ReadsItems [] [] :=
  ⟨[], [], [], rfl, by simp, .nil, rfl, by simp⟩

theorem ReadsItems.space {space text : List Char} {es : List Element}
    (hspace : ∀ c ∈ space, is_space c = true) (h : ReadsItems text es) :
    ReadsItems (space ++ text) es := by
  obtain ⟨run, ctext, children, rfl, hrun, hreads, hfst, hafter⟩ := h
  refine ⟨space ++ run, ctext, children, (List.append_assoc _ _ _).symm, ?_, hreads, hfst, hafter⟩
  rw [List.forall_mem_append]
  exact ⟨hspace, hrun⟩

theorem ReadsItems.cons {etext text : List Char} {e : Element} {es : List Element}
    (he : ReadsElement etext e) (h : ReadsItems text es) :
    ReadsItems (etext ++ text) (e :: es) := by
  obtain ⟨run, ctext, children, rfl, hrun, hreads, hfst, hafter⟩ := h
  refine ⟨[], etext ++ (run ++ ctext), (e, run) :: children, rfl, by simp,
    .cons he (.space hrun) hreads, by rw [List.map_cons, hfst], ?_⟩
  rw [List.forall_mem_cons]
  exact ⟨hrun, hafter⟩

/-- A list written element by element, each in a line of its own. -/
theorem ReadsItems.lines {α β : Type} {f : Element → Option β} {g : α → β} {write : α → List Char}
    (before after rest : List Char) {items : List α}
    (hbefore : ∀ c ∈ before, is_space c = true) (hafter : ∀ c ∈ after, is_space c = true)
    (hrest : ∀ c ∈ rest, is_space c = true)
    (h : ∀ x ∈ items, ∃ e, ReadsElement (write x) e ∧ f e = some (g x)) :
    ∃ es, ReadsItems (items.flatMap (fun x => before ++ (write x ++ after)) ++ rest) es ∧
      es.mapM f = some (items.map g) := by
  induction items with
  | nil =>
    refine ⟨[], ?_, rfl⟩
    rw [List.flatMap_nil, List.nil_append, ← List.append_nil rest]
    exact .space hrest .nil
  | cons x items ih =>
    rw [List.forall_mem_cons] at h
    obtain ⟨e, he, hf⟩ := h.1
    obtain ⟨es, hes, hmap⟩ := ih h.2
    refine ⟨e :: es, ?_, ?_⟩
    · rw [List.flatMap_cons, List.append_assoc, List.append_assoc, List.append_assoc]
      exact .space hbefore (.cons he (.space hafter hes))
    · rw [List.mapM_cons, hf, hmap]
      rfl

/-- An element of items. -/
theorem ReadsItems.tag {name atext text : List Char} {attrs : Attributes} {es : List Element}
    (hname : IsName name) (hattrs : ReadsAttributes atext attrs) (h : ReadsItems text es) :
    ∃ e : Element,
      ReadsElement ('<' :: (name ++ (atext ++ '>' :: (text ++ '<' :: '/' :: (name ++ ['>']))))) e ∧
      e.name = name ∧ e.attrs = attrs ∧ e.items = some es := by
  obtain ⟨run, ctext, children, rfl, hrun, hreads, rfl, hafter⟩ := h
  refine ⟨.mk name attrs run children, ?_, rfl, rfl, ?_⟩
  · rw [List.append_assoc]
    exact .tag hname hattrs (.space hrun) hreads
  · refine if_pos ⟨List.all_eq_true.mpr hrun, List.all_eq_true.mpr fun c hc => ?_⟩
    exact List.all_eq_true.mpr (hafter c hc)

/-! ## What is read of a document -/

theorem line_ends_eq {cs : List Char} (h : ∀ c ∈ cs, c ≠ '\r') : line_ends cs = cs := by
  induction cs with
  | nil => rfl
  | cons c cs ih =>
    rw [List.forall_mem_cons] at h
    rw [line_ends, ih h.2]
    · exact fun _ heq _ => h.1 heq
    · exact h.1

/-- A document of the declaration, white space and an element. -/
theorem read_of {space text rest : List Char} {e : Element} (he : ReadsElement text e)
    (hspace : ∀ c ∈ space, is_space c = true) (hrest : ∀ c ∈ rest, is_space c = true)
    (hlegal : ∀ c ∈ declaration ++ (space ++ (text ++ rest)), legal_char c = true)
    (hline : ∀ c ∈ declaration ++ (space ++ (text ++ rest)), c ≠ '\r') :
    read (declaration ++ (space ++ (text ++ rest))) = some e := by
  have hskip : skip (space ++ (text ++ rest)) = text ++ rest := by
    obtain ⟨c, cs, h, -⟩ := he.opens
    rw [skip, List.dropWhile_append_of_pos hspace, h, List.cons_append, ← skip, skip_cons rfl]
  have hend : skip rest = [] := List.dropWhile_eq_nil_iff.mpr hrest
  have hprefix : declaration.isPrefixOf (declaration ++ (space ++ (text ++ rest))) = true :=
    List.isPrefixOf_iff_prefix.mpr (List.prefix_append _ _)
  rw [read, if_pos (List.all_eq_true.mpr hlegal)]
  simp only [line_ends_eq hline, hprefix, if_true, List.drop_left, hskip]
  rw [he.reads _ _ (by simp; omega), Option.bind_some]
  simp only [hend, if_true]

/-- What is read is written in legal characters. -/
theorem legal_of_read {doc : List Char} {e : Element} (h : read doc = some e) :
    ∀ c ∈ doc, legal_char c = true := by
  unfold read at h
  split at h
  · rename_i hlegal
    exact List.all_eq_true.mp hlegal
  · cases h

end HornDb.Lib.Xml
