-- The keys of the reasoner's dictionary: an IRI as it is, a blank node behind its mark, a literal
-- as its value between quotes with a datatype or a language behind it, and the parser that takes
-- a literal's key apart again.
import Mathlib

open Std (ExtTreeMap)

namespace horndb.owlrl

/-! ## Terms -/

abbrev Text := List Char

/-- A character that stands in an IRI. -/
def iri_char (c : Char) : Bool := decide (' ' < c) && !"<>\"\x7b\x7d|^\x60\\".toList.contains c

structure Iri where
  text : Text
  legal : ∀ c ∈ text, iri_char c = true

/-- A character of a language tag. -/
def tag_char (c : Char) : Bool := c.isAlphanum || c == '-'

structure LanguageTag where
  text : Text
  ne_nil : text ≠ []
  legal : ∀ c ∈ text, tag_char c = true

inductive BaseDirection where
  | Ltr
  | Rtl
deriving DecidableEq, Repr

/-- What stands behind the value of a literal. -/
inductive LiteralKind where
  | typed (datatype : Iri)
  | tagged (language : LanguageTag)
  | directed (language : LanguageTag) (direction : BaseDirection)

structure Literal where
  value : Text
  kind : LiteralKind

def XSD : Text := "http://www.w3.org/2001/XMLSchema#".toList

def RDF_LANG_STRING : Text := "http://www.w3.org/1999/02/22-rdf-syntax-ns#langString".toList

def RDF_DIR_LANG_STRING : Text := "http://www.w3.org/1999/02/22-rdf-syntax-ns#dirLangString".toList

namespace Literal

def datatype (l : Literal) : Text :=
  match l.kind with
  | .typed datatype => datatype.text
  | .tagged _ => RDF_LANG_STRING
  | .directed _ _ => RDF_DIR_LANG_STRING

def language (l : Literal) : Option Text :=
  match l.kind with
  | .typed _ => none
  | .tagged language => some language.text
  | .directed language _ => some language.text

/-- The literal without its base direction. -/
def undirected (l : Literal) : Literal :=
  match l.kind with
  | .directed language _ => ⟨l.value, .tagged language⟩
  | _ => l

end Literal

/-! ## Keys -/

def literal_key (value datatype : Text) (language : Option Text) : Text :=
  match language with
  | some lang => '"' :: (value ++ '"' :: '@' :: lang)
  | none => '"' :: (value ++ ['"', '^', '^', '<'] ++ datatype ++ ['>'])

def named_key (iri : Iri) : Text := iri.text

def blank_key (id : Text) : Text := '_' :: ':' :: id

def Literal.key (l : Literal) : Text := literal_key l.value l.datatype l.language

/-! ## The parser -/

structure ParsedLiteral where
  value : Text
  datatype : Text
  language : Option Text
deriving DecidableEq, Repr

/-- Where the pattern stands last. -/
def rfind (pat : Text) : Text → Option Nat
  | [] => if pat = [] then some 0 else none
  | c :: cs =>
    match rfind pat cs with
    | some i => some (i + 1)
    | none => if pat.isPrefixOf (c :: cs) then some 0 else none

def strip_last (c : Char) (s : Text) : Option Text :=
  if s.getLast? = some c then some s.dropLast else none

def TYPED_MARK : Text := ['"', '^', '^', '<']

def TAGGED_MARK : Text := ['"', '@']

/-- The typed form is tried first, split at its last mark. -/
def parse_literal_key : Text → Option ParsedLiteral
  | '"' :: rest =>
    match rfind TYPED_MARK rest with
    | some close => do
      let datatype ← strip_last '>' (rest.drop (close + 4))
      some ⟨rest.take close, datatype, none⟩
    | none =>
      match rfind TAGGED_MARK rest with
      | some close => some ⟨rest.take close, RDF_LANG_STRING, some (rest.drop (close + 2))⟩
      | none => none
  | _ => none

example : parse_literal_key "\"a\"^^<b\"^^<c>".toList =
    some ⟨"a\"^^<b".toList, "c".toList, none⟩ := by decide

/-! ## Finding a mark -/

theorem rfind_eq_none_iff {pat : Text} (hpat : pat ≠ []) {s : Text} :
    rfind pat s = none ↔ ¬ pat <:+: s := by
  induction s with
  | nil =>
    rw [rfind, if_neg hpat]
    simp [hpat]
  | cons c cs ih =>
    rw [rfind, List.infix_cons_iff, not_or, ← ih]
    cases hrest : rfind pat cs with
    | some i => simp
    | none => simp

/-- The mark is found where none comes after it. -/
theorem rfind_append {p : Char} {ps front back : Text}
    (h : ¬ (p :: ps) <:+: ps ++ back) : rfind (p :: ps) (front ++ (p :: ps) ++ back) =
      some front.length := by
  induction front with
  | nil =>
    rw [List.nil_append, List.cons_append, rfind,
      (rfind_eq_none_iff (List.cons_ne_nil p ps)).mpr h]
    have hpre : (p :: ps).isPrefixOf (p :: (ps ++ back)) = true := by
      rw [List.isPrefixOf_iff_prefix]
      exact List.prefix_append (p :: ps) back
    simp [hpre]
  | cons c front ih =>
    rw [List.cons_append, List.cons_append, rfind, ih]
    rfl

/-- A mark that begins with a quote does not stand where there is none. -/
theorem not_infix_of_not_mem {ps s : Text} (h : '"' ∉ s) : ¬ ('"' :: ps) <:+: s := by
  intro hin
  exact h (hin.subset List.mem_cons_self)

theorem quote_not_mem_iri {s : Text} (h : ∀ c ∈ s, iri_char c = true) : '"' ∉ s := by
  intro hmem
  exact absurd (h _ hmem) (by decide)

theorem quote_not_mem_tag {s : Text} (h : ∀ c ∈ s, tag_char c = true) : '"' ∉ s := by
  intro hmem
  exact absurd (h _ hmem) (by decide)

theorem strip_last_concat (c : Char) (s : Text) : strip_last c (s ++ [c]) = some s := by
  unfold strip_last
  rw [if_pos (List.getLast?_concat), List.dropLast_concat]

/-- In front of a quote that begins no typed mark, the mark stands in the value or nowhere. -/
theorem typed_mark_infix_iff {value tail : Text} (htail : '"' ∉ tail) :
    TYPED_MARK <:+: value ++ '"' :: '@' :: tail ↔ TYPED_MARK <:+: value := by
  unfold TYPED_MARK
  induction value with
  | nil =>
    rw [List.nil_append, List.infix_cons_iff]
    have hrest : ¬ ['"', '^', '^', '<'] <:+: '@' :: tail :=
      not_infix_of_not_mem (by simp [htail])
    simp [hrest]
  | cons c value ih =>
    rw [List.cons_append, List.infix_cons_iff, List.infix_cons_iff, ih]
    refine or_congr_left ?_
    -- the mark is four characters long: what it takes of the tail does not agree with it
    rcases value with _ | ⟨c₁, _ | ⟨c₂, _ | ⟨c₃, value⟩⟩⟩
    · simp
    · simp
    · simp
    · simp

/-! ## Keys that are taken apart -/

/-- The key of a typed literal gives its value and its datatype back. -/
theorem parse_typed_key (value : Text) (datatype : Iri) :
    parse_literal_key (literal_key value datatype.text none) =
      some ⟨value, datatype.text, none⟩ := by
  have hquote := quote_not_mem_iri datatype.legal
  have hfind : rfind TYPED_MARK (value ++ TYPED_MARK ++ (datatype.text ++ ['>'])) =
      some value.length :=
    rfind_append (not_infix_of_not_mem (by simp [hquote]))
  have htake : (value ++ TYPED_MARK ++ (datatype.text ++ ['>'])).take value.length = value := by
    rw [List.append_assoc, List.take_left]
  have hdrop : (value ++ TYPED_MARK ++ (datatype.text ++ ['>'])).drop (value.length + 4) =
      datatype.text ++ ['>'] := List.drop_left' (by simp [TYPED_MARK])
  have hkey : literal_key value datatype.text none =
      '"' :: (value ++ TYPED_MARK ++ (datatype.text ++ ['>'])) := by
    rw [← List.append_assoc]
    rfl
  rw [hkey, parse_literal_key, hfind]
  dsimp only
  rw [htake, hdrop, strip_last_concat]
  rfl

section Tagged

variable (value : Text) (language : LanguageTag) (datatype : Text)

theorem tagged_key :
    literal_key value datatype (some language.text) =
      '"' :: (value ++ TAGGED_MARK ++ language.text) := by
  rw [List.append_assoc]
  rfl

theorem rfind_tagged_mark :
    rfind TAGGED_MARK (value ++ TAGGED_MARK ++ language.text) = some value.length :=
  rfind_append (not_infix_of_not_mem (by simp [quote_not_mem_tag language.legal]))

theorem typed_mark_tagged :
    TYPED_MARK <:+: value ++ TAGGED_MARK ++ language.text ↔ TYPED_MARK <:+: value := by
  rw [List.append_assoc]
  exact typed_mark_infix_iff (quote_not_mem_tag language.legal)

/-- The key of a literal with a language gives its value and its language back, when the value
holds no typed mark. -/
theorem parse_tagged_key (h : ¬ TYPED_MARK <:+: value) :
    parse_literal_key (literal_key value datatype (some language.text)) =
      some ⟨value, RDF_LANG_STRING, some language.text⟩ := by
  have hnone : rfind TYPED_MARK (value ++ TAGGED_MARK ++ language.text) = none := by
    rw [rfind_eq_none_iff (by simp [TYPED_MARK]), typed_mark_tagged]
    exact h
  have htake : (value ++ TAGGED_MARK ++ language.text).take value.length = value := by
    rw [List.append_assoc, List.take_left]
  have hdrop : (value ++ TAGGED_MARK ++ language.text).drop (value.length + 2) =
      language.text := List.drop_left' (by simp [TAGGED_MARK])
  rw [tagged_key, parse_literal_key, hnone]
  dsimp only
  rw [rfind_tagged_mark]
  dsimp only
  rw [htake, hdrop]

/-- A tag does not end as a datatype does. -/
theorem tag_getLast? : ∃ c, language.text.getLast? = some c ∧ c ≠ '>' := by
  refine ⟨language.text.getLast language.ne_nil, List.getLast?_eq_some_getLast language.ne_nil, ?_⟩
  intro heq
  have hlegal := language.legal _ (List.getLast_mem language.ne_nil)
  rw [heq] at hlegal
  exact absurd hlegal (by decide)

/-- A typed mark in the value takes the key for that of a typed literal, which it does not end
like. -/
theorem parse_tagged_key_mark (h : TYPED_MARK <:+: value) :
    parse_literal_key (literal_key value datatype (some language.text)) = none := by
  have hin := (typed_mark_tagged value language).mpr h
  rw [tagged_key, parse_literal_key]
  cases hfind : rfind TYPED_MARK (value ++ TAGGED_MARK ++ language.text) with
  | none => exact absurd hin ((rfind_eq_none_iff (by simp [TYPED_MARK])).mp hfind)
  | some i =>
    obtain ⟨c, hlast, hne⟩ := tag_getLast? language
    have hstrip : strip_last '>'
        ((value ++ TAGGED_MARK ++ language.text).drop (i + 4)) = none := by
      unfold strip_last
      rw [if_neg]
      rw [List.getLast?_drop, List.getLast?_append_of_ne_nil _ language.ne_nil, hlast]
      split
      · simp
      · simp [hne]
    dsimp only
    rw [hstrip]
    rfl

end Tagged

/-! ## What the keys tell apart -/

/-- The key leaves the direction out. -/
theorem key_undirected (l : Literal) : l.undirected.key = l.key := by
  obtain ⟨value, kind⟩ := l
  cases kind <;>
    simp only [Literal.key, literal_key, Literal.undirected, Literal.language, Literal.datatype]

theorem Iri.ext {i i' : Iri} (h : i.text = i'.text) : i = i' := by
  cases i
  cases i'
  cases h
  rfl

theorem LanguageTag.ext {t t' : LanguageTag} (h : t.text = t'.text) : t = t' := by
  cases t
  cases t'
  cases h
  rfl

theorem typed_key_ne_tagged {value value' datatype' : Text} (datatype : Iri)
    (language : LanguageTag) :
    literal_key value datatype.text none ≠ literal_key value' datatype' (some language.text) := by
  intro heq
  obtain ⟨c, hlast, hne⟩ := tag_getLast? language
  have hends := congrArg List.getLast? heq
  have htyped : (literal_key value datatype.text none).getLast? = some '>' :=
    List.getLast?_concat (l := '"' :: (value ++ ['"', '^', '^', '<'] ++ datatype.text))
  have htagged : (literal_key value' datatype' (some language.text)).getLast? = some c := by
    rw [tagged_key, ← List.cons_append, List.getLast?_append_of_ne_nil _ language.ne_nil, hlast]
  rw [htyped, htagged, Option.some.injEq] at hends
  exact hne hends.symm

theorem tagged_key_inj {value value' datatype datatype' : Text} {language language' : LanguageTag}
    (h : literal_key value datatype (some language.text) =
      literal_key value' datatype' (some language'.text)) :
    value = value' ∧ language = language' := by
  rw [tagged_key, tagged_key, List.cons.injEq] at h
  have hlen := rfind_tagged_mark value language
  rw [h.2, rfind_tagged_mark, Option.some.injEq] at hlen
  have hrest := h.2
  rw [List.append_assoc, List.append_assoc] at hrest
  obtain ⟨hvalue, htail⟩ := List.append_inj hrest hlen.symm
  exact ⟨hvalue, LanguageTag.ext (List.append_cancel_left htail)⟩

/-- Two literals have one key exactly when they differ in their direction at most. -/
theorem key_eq_iff (l l' : Literal) : l.key = l'.key ↔ l.undirected = l'.undirected := by
  constructor
  · rw [← key_undirected l, ← key_undirected l']
    have hkinds : ∀ x : Literal, (∃ d, x.undirected = ⟨x.value, .typed d⟩) ∨
        ∃ t, x.undirected = ⟨x.value, .tagged t⟩ := by
      rintro ⟨value, datatype | language | ⟨language, direction⟩⟩
      · exact Or.inl ⟨datatype, rfl⟩
      · exact Or.inr ⟨language, rfl⟩
      · exact Or.inr ⟨language, rfl⟩
    intro h
    rcases hkinds l with ⟨d, hl⟩ | ⟨t, hl⟩ <;> rcases hkinds l' with ⟨d', hl'⟩ | ⟨t', hl'⟩
    all_goals rw [hl, hl'] at h ⊢
    · have hparse := congrArg parse_literal_key h
      rw [show Literal.key ⟨l.value, .typed d⟩ = literal_key l.value d.text none from rfl,
        show Literal.key ⟨l'.value, .typed d'⟩ = literal_key l'.value d'.text none from rfl,
        parse_typed_key, parse_typed_key, Option.some.injEq, ParsedLiteral.mk.injEq] at hparse
      rw [hparse.1, Iri.ext hparse.2.1]
    · exact absurd h (typed_key_ne_tagged d t')
    · exact absurd h.symm (typed_key_ne_tagged d' t)
    · obtain ⟨hvalue, htag⟩ := tagged_key_inj h
      rw [hvalue, htag]
  · intro h
    rw [← key_undirected l, ← key_undirected l', h]

/-- A key says which literal it is for: it is the key of no other term, and a typed or a
language-tagged literal is read back from it. -/
structure Told (l : Literal) : Prop where
  not_named : ∀ iri, l.key ≠ named_key iri
  not_blank : ∀ id, l.key ≠ blank_key id
  parsed : l.undirected = l → parse_literal_key l.key = some ⟨l.value, l.datatype, l.language⟩

theorem key_head (l : Literal) : l.key.head? = some '"' := by
  obtain ⟨value, kind⟩ := l
  cases kind <;> rfl

theorem key_not_named (l : Literal) (iri : Iri) : l.key ≠ named_key iri := by
  intro heq
  have hhead := key_head l
  rw [heq] at hhead
  exact quote_not_mem_iri iri.legal (List.mem_of_mem_head? hhead)

theorem key_not_blank (l : Literal) (id : Text) : l.key ≠ blank_key id := by
  intro heq
  have hhead := key_head l
  rw [heq] at hhead
  exact absurd hhead (by simp [blank_key])

/-- The literals whose key is not read as theirs. -/
def Misread (l : Literal) : Prop :=
  (∃ language, l.kind = .tagged language) ∧ TYPED_MARK <:+: l.value

theorem told_iff (l : Literal) : Told l ↔ ¬ Misread l := by
  constructor
  · rintro h ⟨⟨language, hkind⟩, hmark⟩
    obtain ⟨value, kind⟩ := l
    dsimp only at hkind hmark
    subst hkind
    have hparsed := h.parsed rfl
    rw [show Literal.key ⟨value, .tagged language⟩ =
      literal_key value RDF_LANG_STRING (some language.text) from rfl,
      parse_tagged_key_mark value language _ hmark] at hparsed
    cases hparsed
  · intro h
    refine ⟨key_not_named l, key_not_blank l, fun hself => ?_⟩
    obtain ⟨value, datatype | language | ⟨language, direction⟩⟩ := l
    · exact parse_typed_key value datatype
    · exact parse_tagged_key value language _ fun hmark => h ⟨⟨language, rfl⟩, hmark⟩
    · cases hself

/-- Two literals are told apart by their keys, and each from its own, exactly when they do not
differ in the direction alone and no value of a language-tagged one holds the mark of a
datatype. -/
theorem keys_told_iff (l l' : Literal) :
    (l.key = l'.key → l = l') ∧ Told l ∧ Told l' ↔
      (l.undirected = l'.undirected → l = l') ∧ ¬ Misread l ∧ ¬ Misread l' := by
  rw [key_eq_iff, told_iff, told_iff]

/-- Two literals of opposite directions share their key, and a language-tagged one is not read
back. -/
theorem keys_mistold :
    let en : LanguageTag :=
      ⟨['e', 'n'], by decide, by simp [tag_char, Char.isAlphanum, Char.isAlpha, Char.isLower]⟩
    let a : Literal := ⟨['a'], .directed en .Ltr⟩
    let b : Literal := ⟨['a'], .directed en .Rtl⟩
    let c : Literal := ⟨['a', '"', '^', '^', '<', 'b'], .tagged en⟩
    (a.key = b.key ∧ a ≠ b) ∧ parse_literal_key c.key = none ∧ ¬ Told c := by
  intro en a b c
  have hmark : TYPED_MARK <:+: ['a', '"', '^', '^', '<', 'b'] := ⟨['a'], ['b'], rfl⟩
  have hnone : parse_literal_key c.key = none :=
    parse_tagged_key_mark c.value en RDF_LANG_STRING hmark
  refine ⟨⟨rfl, fun h => ?_⟩, hnone, fun h => ?_⟩
  · simp only [a, b, Literal.mk.injEq, LiteralKind.directed.injEq] at h
    exact absurd h.2.2 (by decide)
  · have hparsed := h.parsed rfl
    rw [hnone] at hparsed
    cases hparsed

end horndb.owlrl
