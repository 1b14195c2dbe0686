-- The keys that the query layer and the reasoner have for terms: a literal is its value in quotes,
-- as it is, and then its tag or its datatype. The reader finds the suffix from the end.
import HornDb.TermText

open HornDb.Lib.NTriples

namespace horndb.sparql.lexical

open text (Library LanguageTag XSD_STRING tag_char)

/-! ## Terms of the term library -/

def RDF_LANG_STRING : List Char := "http://www.w3.org/1999/02/22-rdf-syntax-ns#langString".toList

def RDF_DIR_LANG_STRING : List Char :=
  "http://www.w3.org/1999/02/22-rdf-syntax-ns#dirLangString".toList

inductive BaseDirection where
  | Ltr
  | Rtl
deriving DecidableEq, Repr

/-- A literal, checked or not. -/
inductive OxLiteral where
  | Simple (value : List Char)
  | LanguageTagged (value language : List Char)
  | DirectionalLanguageTagged (value language : List Char) (direction : BaseDirection)
  | Typed (value datatype : List Char)
deriving DecidableEq, Repr

/-- A term, checked or not. -/
inductive OxTerm where
  | NamedNode (iri : List Char)
  | BlankNode (label : List Char)
  | Literal (l : OxLiteral)
  | Triple (subject predicate object : OxTerm)
deriving DecidableEq, Repr

namespace OxLiteral

def value : OxLiteral → List Char
  | Simple value => value
  | LanguageTagged value _ => value
  | DirectionalLanguageTagged value _ _ => value
  | Typed value _ => value

/-- A directional literal reports its language too. -/
def language : OxLiteral → Option (List Char)
  | LanguageTagged _ language => some language
  | DirectionalLanguageTagged _ language _ => some language
  | _ => none

def datatype : OxLiteral → List Char
  | Simple _ => XSD_STRING
  | LanguageTagged _ _ => RDF_LANG_STRING
  | DirectionalLanguageTagged _ _ _ => RDF_DIR_LANG_STRING
  | Typed _ datatype => datatype

def new_typed_literal (value datatype : List Char) : OxLiteral :=
  if datatype = XSD_STRING then Simple value else Typed value datatype

def new_language_tagged_literal (ox : Library) (value language : List Char) : Option OxLiteral :=
  (ox.language language).map (LanguageTagged value)

def directional : OxLiteral → Bool
  | DirectionalLanguageTagged _ _ _ => true
  | _ => false

end OxLiteral

/-- An IRI with a scheme. -/
structure Absolute (iri : List Char) : Prop where
  scheme : iri.head?.any Char.isAlpha = true
  checked : ∀ c ∈ iri, iri_char c = true

/-- What the library makes sure of when it checks a literal. -/
def OxLiteral.Checked (ox : Library) : OxLiteral → Prop
  | .Simple _ => True
  | .LanguageTagged _ language => ox.language language = some language
  | .DirectionalLanguageTagged _ language _ => ox.language language = some language
  | .Typed _ datatype => Absolute datatype ∧ datatype ≠ XSD_STRING

/-- An IRI, a blank node or a literal that the library has checked. -/
def OxTerm.Checked (ox : Library) : OxTerm → Prop
  | .NamedNode iri => Absolute iri
  | .BlankNode _ => True
  | .Literal l => l.Checked ox
  | .Triple _ _ _ => False

structure RdfTerm (ox : Library) where
  term : OxTerm
  checked : term.Checked ox

def OxTerm.directional : OxTerm → Bool
  | .Literal l => l.directional
  | _ => false

/-! ## Writing keys -/

/-- A value in quotes, as it is. -/
def quoted (value : List Char) : List Char := '"' :: (value ++ ['"'])

/-- There is no key for a triple term. -/
def oxrdf_to_lexical : OxTerm → Option (List Char)
  | .NamedNode iri => some iri
  | .BlankNode label => some ('_' :: ':' :: label)
  | .Literal l => some (match l.language with
    | some lang => quoted l.value ++ '@' :: lang
    | none => quoted l.value ++ '^' :: '^' :: '<' :: (l.datatype ++ ['>']))
  | .Triple _ _ _ => none

/-! ## Reading keys -/

/-- Where the last occurrence of the pattern starts. -/
def rfind (pattern : List Char) : List Char → Option Nat
  | [] => none
  | c :: cs =>
    match rfind pattern cs with
    | some i => some (i + 1)
    | none => if pattern.isPrefixOf (c :: cs) then some 0 else none

def slice (key : List Char) (start stop : Nat) : List Char := (key.take stop).drop start

def ends_with (c : Char) (key : List Char) : Bool := key.getLast? = some c

/-- The plain form, and the fallback for a key with no closing quote. -/
def plain_key (key : List Char) : OxLiteral :=
  if 2 ≤ key.length ∧ ends_with '"' key then .Simple (slice key 1 (key.length - 1))
  else .Simple (key.drop 1)

def language_key (ox : Library) (key : List Char) : OxLiteral :=
  match rfind ['@'] key with
  | none => plain_key key
  | some at_sign =>
    let lang := key.drop (at_sign + 1)
    if lang ≠ [] ∧ lang.all tag_char ∧ 2 ≤ at_sign ∧ key[at_sign - 1]? = some '"' then
      let value := slice key 1 (at_sign - 1)
      (OxLiteral.new_language_tagged_literal ox value lang).getD (.Simple value)
    else plain_key key

/-- The key starts with a quote, so that positions count it as one byte and as one character. -/
def engine_key_literal (ox : Library) (key : List Char) : OxLiteral :=
  if ends_with '>' key then
    match rfind ['"', '^', '^', '<'] key with
    | some split =>
      if 1 ≤ split then
        .new_typed_literal (slice key 1 split) (slice key (split + 4) (key.length - 1))
      else language_key ox key
    | none => language_key ox key
  else language_key ox key

def lexical_to_oxrdf (ox : Library) : List Char → OxTerm
  | '"' :: key => .Literal (engine_key_literal ox ('"' :: key))
  | '_' :: ':' :: label => .BlankNode label
  | iri => .NamedNode iri

/-! ## Finding the suffix -/

theorem rfind_none {p : Char} {ps cs : List Char} (h : p ∉ cs) : rfind (p :: ps) cs = none := by
  induction cs with
  | nil => rfl
  | cons c cs ih =>
    obtain ⟨hc, hcs⟩ := not_or.mp (List.mem_cons.not.mp h)
    rw [rfind, ih hcs]
    dsimp only
    rw [if_neg]
    intro hpre
    exact hc (List.cons_prefix_cons.mp (List.isPrefixOf_iff_prefix.mp hpre)).1

theorem rfind_append {pattern rest : List Char} {i : Nat} (h : rfind pattern rest = some i)
    (front : List Char) : rfind pattern (front ++ rest) = some (front.length + i) := by
  induction front with
  | nil => rw [List.nil_append, h, List.length_nil, Nat.zero_add]
  | cons c front ih =>
    rw [List.cons_append, rfind, ih, List.length_cons]
    exact congrArg some (by omega)

/-- Nothing behind the pattern could start it again. -/
theorem rfind_last {p : Char} {ps rest : List Char} (hps : p ∉ ps) (hrest : p ∉ rest)
    (front : List Char) :
    rfind (p :: ps) (front ++ (p :: (ps ++ rest))) = some front.length := by
  refine rfind_append (i := 0) ?_ front
  have hnone : rfind (p :: ps) (ps ++ rest) = none :=
    rfind_none (by rw [List.mem_append]; exact not_or.mpr ⟨hps, hrest⟩)
  rw [rfind, hnone]
  exact if_pos (List.isPrefixOf_iff_prefix.mpr (List.prefix_append (p :: ps) rest))

theorem slice_front (c : Char) (value rest : List Char) :
    slice (c :: (value ++ rest)) 1 (value.length + 1) = value := by
  rw [slice, List.take_succ_cons, List.take_left, List.drop_one, List.tail_cons]

theorem slice_back {front mid : List Char} (c : Char) {start : Nat} (h : start = front.length) :
    slice (front ++ (mid ++ [c])) start ((front ++ (mid ++ [c])).length - 1) = mid := by
  have htake : (front ++ (mid ++ [c])).take ((front ++ (mid ++ [c])).length - 1) =
      front ++ mid := by
    rw [← List.dropLast_eq_take, ← List.append_assoc, List.dropLast_concat]
  rw [slice, htake, h, List.drop_left]

theorem ends_with_append {c d : Char} (cs : List Char) :
    ends_with c (cs ++ [d]) = decide (d = c) := by
  rw [ends_with, List.getLast?_concat]
  simp

/-! ## Keys of terms come back -/

variable {ox : Library}

theorem typed_key (ox : Library) (value : List Char) {datatype : List Char}
    (h : '"' ∉ datatype) :
    engine_key_literal ox (quoted value ++ '^' :: '^' :: '<' :: (datatype ++ ['>'])) =
      .new_typed_literal value datatype := by
  have hkey : quoted value ++ '^' :: '^' :: '<' :: (datatype ++ ['>']) =
      '"' :: (value ++ '"' :: '^' :: '^' :: '<' :: (datatype ++ ['>'])) := by
    simp [quoted]
  have hback : '"' :: (value ++ '"' :: '^' :: '^' :: '<' :: (datatype ++ ['>'])) =
      ('"' :: (value ++ ['"', '^', '^', '<'])) ++ (datatype ++ ['>']) := by
    simp
  have hend : ends_with '>' ('"' :: (value ++ '"' :: '^' :: '^' :: '<' :: (datatype ++ ['>']))) =
      true := by
    rw [hback, ← List.append_assoc, ends_with_append]
    rfl
  have hfind : rfind ['"', '^', '^', '<']
      ('"' :: (value ++ '"' :: '^' :: '^' :: '<' :: (datatype ++ ['>']))) =
        some (value.length + 1) := by
    have hrest : '"' ∉ datatype ++ ['>'] := by
      rw [List.mem_append, List.mem_singleton]
      exact not_or.mpr ⟨h, by decide⟩
    exact @rfind_last _ ['^', '^', '<'] _ (by decide) hrest ('"' :: value)
  rw [hkey, engine_key_literal, if_pos hend, hfind]
  dsimp only
  rw [if_pos (Nat.le_add_left 1 _), slice_front]
  congr 1
  rw [hback]
  exact slice_back '>' (by simp)

theorem language_tagged_key {value lang : List Char} (h : ox.language lang = some lang) :
    engine_key_literal ox (quoted value ++ '@' :: lang) = .LanguageTagged value lang := by
  obtain ⟨hnonempty, htag⟩ := ox.language_tag lang lang h
  have hkey : quoted value ++ '@' :: lang = '"' :: (value ++ '"' :: '@' :: lang) := by
    simp [quoted]
  have hnot : ends_with '>' ('"' :: (value ++ '"' :: '@' :: lang)) = false := by
    rcases List.eq_nil_or_concat lang with rfl | ⟨front, last, rfl⟩
    · exact absurd rfl hnonempty
    · have hback : '"' :: (value ++ '"' :: '@' :: (front ++ [last])) =
          ('"' :: (value ++ '"' :: '@' :: front)) ++ [last] := by simp
      rw [List.concat_eq_append] at htag ⊢
      rw [hback, ends_with_append, decide_eq_false_iff_not]
      rintro rfl
      exact absurd (htag _ (List.mem_append_right _ List.mem_cons_self)) (by decide)
  have hfind : rfind ['@'] ('"' :: (value ++ '"' :: '@' :: lang)) = some (value.length + 2) := by
    have hlast := @rfind_last '@' [] lang List.not_mem_nil
      (fun hmem => absurd (htag _ hmem) (by decide)) ('"' :: (value ++ ['"']))
    simpa using hlast
  have hlang : ('"' :: (value ++ '"' :: '@' :: lang)).drop (value.length + 2 + 1) = lang := by
    rw [List.drop_succ_cons, ← List.drop_drop, List.drop_left]
    rfl
  have hquote : ('"' :: (value ++ '"' :: '@' :: lang))[value.length + 2 - 1]? = some '"' := by
    simp
  rw [hkey, engine_key_literal, hnot, if_neg Bool.false_ne_true, language_key, hfind]
  dsimp only
  rw [hlang, if_pos ⟨hnonempty, List.all_eq_true.mpr htag, Nat.le_add_left 2 _, hquote⟩]
  rw [OxLiteral.new_language_tagged_literal, h, Option.map_some, Option.getD_some]
  exact congrArg (OxLiteral.LanguageTagged · lang) (slice_front _ value _)

/-- The term without its base direction. -/
def OxTerm.undirected : OxTerm → OxTerm
  | .Literal (.DirectionalLanguageTagged value language _) =>
    .Literal (.LanguageTagged value language)
  | t => t

theorem undirected_iff (t : OxTerm) : t.undirected = t ↔ t.directional = false := by
  cases t with
  | Literal l =>
    cases l with
    | DirectionalLanguageTagged value language direction =>
      exact ⟨fun h => (OxLiteral.noConfusion (OxTerm.Literal.inj h)), fun h => Bool.noConfusion h⟩
    | _ => exact ⟨fun _ => rfl, fun _ => rfl⟩
  | _ => exact ⟨fun _ => rfl, fun _ => rfl⟩

theorem undirected_checked {t : OxTerm} (h : t.Checked ox) : t.undirected.Checked ox := by
  cases t with
  | Literal l =>
    cases l with
    | _ => exact h
  | _ => exact h

theorem undirected_lexical (t : OxTerm) : oxrdf_to_lexical t.undirected = oxrdf_to_lexical t := by
  cases t with
  | Literal l =>
    cases l with
    | _ => rfl
  | _ => rfl

theorem lexical_iri {iri : List Char} (h : Absolute iri) :
    lexical_to_oxrdf ox iri = .NamedNode iri := by
  have hscheme := h.scheme
  unfold lexical_to_oxrdf
  split
  · exact absurd (show '"'.isAlpha = true from hscheme) (by decide)
  · exact absurd (show '_'.isAlpha = true from hscheme) (by decide)
  · rfl

theorem absolute_no_quote {iri : List Char} (h : Absolute iri) : '"' ∉ iri :=
  fun hmem => absurd (h.checked _ hmem) (by decide)

theorem XSD_STRING_no_quote : '"' ∉ XSD_STRING := by decide

/-- What the key of a checked term is read as. -/
theorem lexical_of_checked {t : OxTerm} (h : t.Checked ox) :
    ∃ k, oxrdf_to_lexical t = some k ∧ lexical_to_oxrdf ox k = t.undirected := by
  cases t with
  | NamedNode iri => exact ⟨iri, rfl, lexical_iri h⟩
  | BlankNode label => exact ⟨_, rfl, rfl⟩
  | Triple s p o => exact h.elim
  | Literal l =>
    cases l with
    | Simple value =>
      refine ⟨_, rfl, ?_⟩
      exact congrArg OxTerm.Literal ((typed_key ox value XSD_STRING_no_quote).trans (if_pos rfl))
    | LanguageTagged value language =>
      exact ⟨_, rfl, congrArg OxTerm.Literal (language_tagged_key h)⟩
    | DirectionalLanguageTagged value language direction =>
      exact ⟨_, rfl, congrArg OxTerm.Literal (language_tagged_key h)⟩
    | Typed value datatype =>
      refine ⟨_, rfl, congrArg OxTerm.Literal ?_⟩
      exact (typed_key ox value (absolute_no_quote h.1)).trans (if_neg h.2)

/-- A key that some checked term has. -/
def Meant (ox : Library) (k : List Char) : Prop :=
  ∃ t : OxTerm, t.Checked ox ∧ oxrdf_to_lexical t = some k

/-- The term of such a key has that key. -/
theorem Meant.back {k : List Char} (h : Meant ox k) :
    (lexical_to_oxrdf ox k).Checked ox ∧ (lexical_to_oxrdf ox k).directional = false ∧
      oxrdf_to_lexical (lexical_to_oxrdf ox k) = some k := by
  obtain ⟨t, ht, hk⟩ := h
  obtain ⟨k', hk', hback⟩ := lexical_of_checked ht
  rw [hk] at hk'
  cases hk'
  rw [hback, undirected_lexical, ← undirected_iff]
  refine ⟨undirected_checked ht, ?_, hk⟩
  cases t with
  | Literal l =>
    cases l with
    | _ => rfl
  | _ => rfl

theorem Meant.iri {iri : List Char} (h : Absolute iri) : Meant ox iri :=
  ⟨.NamedNode iri, h, rfl⟩

end horndb.sparql.lexical
