-- The terms that the graph store protocol moves: out of the store as terms of the algebra, out of a
-- payload as terms of the algebra, and from there into the store and into a body.
import HornDb.LexicalTerms
import HornDb.QuadStore

namespace horndb.server.graph_store

open sparql.lexical (OxTerm OxLiteral BaseDirection Absolute)
open sparql.text (Library XSD_STRING trim_brackets literal_parts print_char print_quoted_str
  suffix_parts)

/-! ## The term library -/

/-- The library refuses a tag with two hyphens in a row: a part of a tag is never empty. -/
structure TermLibrary extends Library where
  no_empty_subtag : ∀ front back, language (front ++ '-' :: '-' :: back) = none

/-- Two hyphens in a row. -/
def empty_subtag (s : List Char) : Bool := s.tails.any fun rest => ['-', '-'].isPrefixOf rest

theorem empty_subtag_append (front back : List Char) :
    empty_subtag (front ++ '-' :: '-' :: back) = true := by
  rw [empty_subtag, List.any_eq_true]
  exact ⟨'-' :: '-' :: back, (List.mem_tails _ _).mpr (List.suffix_append _ _), rfl⟩

/-- A library that takes tags of letters, digits and single hyphens as they are. -/
def plain_library : TermLibrary where
  numeric := sparql.text.ascii.numeric
  language s := if empty_subtag s then none else sparql.text.ascii.language s
  language_kept s t h := by
    obtain ⟨hs, h⟩ := Option.ite_none_left_eq_some.mp h
    have hst : s = t := by
      obtain ⟨-, heq⟩ := Option.ite_none_right_eq_some.mp h
      exact Option.some.inj heq
    rw [if_neg (hst ▸ hs)]
    exact sparql.text.ascii.language_kept s t h
  language_tag s t h := by
    obtain ⟨-, h⟩ := Option.ite_none_left_eq_some.mp h
    exact sparql.text.ascii.language_tag s t h
  no_empty_subtag front back := if_pos (empty_subtag_append front back)

/-! ## Texts of terms -/

def direction_text : BaseDirection → List Char
  | .Ltr => ['-', '-', 'l', 't', 'r']
  | .Rtl => ['-', '-', 'r', 't', 'l']

def literal_suffix : OxLiteral → List Char
  | .Simple _ => []
  | .LanguageTagged _ language => '@' :: language
  | .DirectionalLanguageTagged _ language direction =>
    '@' :: (language ++ direction_text direction)
  | .Typed _ datatype => '^' :: '^' :: '<' :: (datatype ++ ['>'])

/-- A literal as the library prints it. -/
def literal_text (ox : Library) (l : OxLiteral) : List Char :=
  print_quoted_str ox l.value ++ literal_suffix l

/-- A term as the library prints it. -/
def term_text (ox : Library) : OxTerm → List Char
  | .NamedNode iri => '<' :: (iri ++ ['>'])
  | .BlankNode label => '_' :: ':' :: label
  | .Literal l => literal_text ox l
  | .Triple s p o =>
    ['<', '<', '(', ' '] ++ (term_text ox s ++ ' ' :: (term_text ox p ++ ' ' ::
      (term_text ox o ++ [' ', ')', '>', '>'])))

/-- A triple as the library prints it, without the brackets of a term. -/
def triple_text (ox : Library) (s p o : OxTerm) : List Char :=
  term_text ox s ++ ' ' :: (term_text ox p ++ ' ' :: term_text ox o)

/-! ## Terms of the algebra -/

inductive Term where
  | Var (name : List Char)
  | Iri (s : List Char)
  | BlankNode (label : List Char)
  | Literal (raw : List Char)
  | Triple (subject predicate object : Term)
deriving DecidableEq, Repr

def of_text {ox : Library} : sparql.text.Literal ox → OxLiteral
  | .Simple value => .Simple value
  | .LanguageTagged value language => .LanguageTagged value language.as_str
  | .Typed value datatype => .Typed value datatype.as_str

def parse_literal (ox : Library) (raw : List Char) : OxLiteral :=
  of_text (sparql.text.parse_literal raw : sparql.text.Literal ox)

/-- A variable or a triple term of the algebra cannot be stored. -/
def algebra_to_oxrdf (ox : Library) : Term → Option OxTerm
  | .Iri s => some (.NamedNode s)
  | .BlankNode label => some (.BlankNode label)
  | .Literal raw => some (.Literal (parse_literal ox raw))
  | .Var _ => none
  | .Triple _ _ _ => none

/-- A stored triple term becomes an IRI that is its text. -/
def oxrdf_to_algebra (ox : Library) : OxTerm → Term
  | .NamedNode iri => .Iri iri
  | .BlankNode label => .BlankNode label
  | .Literal l => .Literal (literal_text ox l)
  | t => .Iri (term_text ox t)

def scope_blank_node_label (tag : UInt64) (label : List Char) : List Char :=
  ['h', 'd', 'b'] ++ ((toString tag.toNat).toList ++ '_' :: label)

/-- A term of a payload. A triple term becomes a literal that is the text of its triple. -/
def oxrdf_term_to_term (ox : Library) (tag : UInt64) : OxTerm → Term
  | .NamedNode iri => .Iri iri
  | .BlankNode label => .BlankNode (scope_blank_node_label tag label)
  | .Literal l => .Literal (literal_text ox l)
  | .Triple s p o => .Literal (triple_text ox s p o)

/-! ## What is kept and what is sent -/

/-- A literal as the store keeps it. A datatype need not be an IRI, but has no brackets. -/
def KeptLiteral (ox : Library) : OxLiteral → Prop
  | .Simple _ => True
  | .LanguageTagged _ language => ox.language language = some language
  | .DirectionalLanguageTagged _ language _ => ox.language language = some language
  | .Typed _ datatype => trim_brackets datatype = datatype ∧ datatype ≠ XSD_STRING

/-- An object as the store keeps it. -/
def KeptObject (ox : Library) : OxTerm → Prop
  | .Literal l => KeptLiteral ox l
  | _ => True

/-- A subject: an IRI or a blank node. -/
def Node : OxTerm → Prop
  | .NamedNode _ => True
  | .BlankNode _ => True
  | _ => False

/-- A term that a parser hands on. -/
def Sent (ox : Library) : OxTerm → Prop
  | .NamedNode iri => Absolute iri
  | .BlankNode _ => True
  | .Literal l => l.Checked ox
  | .Triple s p o =>
    (Node s ∧ Sent ox s) ∧ (∃ iri, p = .NamedNode iri ∧ Absolute iri) ∧ Sent ox o

/-- A literal with a base direction or a triple term: the algebra has no such terms. -/
def Odd : OxTerm → Bool
  | .Literal l => l.directional
  | .Triple _ _ _ => true
  | _ => false

def IsTriple : OxTerm → Bool
  | .Triple _ _ _ => true
  | _ => false

/-- The blank nodes under other labels. -/
def relabel (f : List Char → List Char) : OxTerm → OxTerm
  | .NamedNode iri => .NamedNode iri
  | .BlankNode label => .BlankNode (f label)
  | .Literal l => .Literal l
  | .Triple s p o => .Triple (relabel f s) (relabel f p) (relabel f o)

/-- The blank nodes of a payload under the labels of its document. -/
def rename (tag : UInt64) (t : OxTerm) : OxTerm := relabel (scope_blank_node_label tag) t

def labels : OxTerm → List (List Char)
  | .NamedNode _ => []
  | .BlankNode label => [label]
  | .Literal _ => []
  | .Triple s p o => labels s ++ labels p ++ labels o

theorem labels_relabel (f : List Char → List Char) (t : OxTerm) :
    labels (relabel f t) = (labels t).map f := by
  induction t with
  | NamedNode iri => rfl
  | BlankNode label => rfl
  | Literal l => rfl
  | Triple s p o hs hp ho =>
    rw [relabel, labels, hs, hp, ho, labels, List.map_append, List.map_append]

variable {f : List Char → List Char} {t : OxTerm}

theorem relabel_eq (h : labels t = []) : relabel f t = t := by
  induction t with
  | NamedNode iri => rfl
  | BlankNode label => cases h
  | Literal l => rfl
  | Triple s p o hs hp ho =>
    rw [labels, List.append_eq_nil_iff, List.append_eq_nil_iff] at h
    rw [relabel, hs h.1.1, hp h.1.2, ho h.2]

/-- Terms of one new spelling are one term, when the new labels are of distinct nodes. -/
theorem relabel_inj {t u : OxTerm} (hf : ∀ a ∈ labels t, ∀ b ∈ labels u, f a = f b → a = b)
    (h : relabel f t = relabel f u) : t = u := by
  induction t generalizing u with
  | NamedNode iri =>
    cases u with
    | NamedNode iri' => exact h
    | _ => cases h
  | BlankNode label =>
    cases u with
    | BlankNode label' =>
      have hlabel := hf label List.mem_cons_self label' List.mem_cons_self (OxTerm.BlankNode.inj h)
      rw [hlabel]
    | _ => cases h
  | Literal l =>
    cases u with
    | Literal l' => exact h
    | _ => cases h
  | Triple s p o hs hp ho =>
    cases u with
    | Triple s' p' o' =>
      obtain ⟨hss, hpp, hoo⟩ := OxTerm.Triple.inj h
      have hs := hs (fun a ha b hb => hf a (by simp [labels, ha]) b (by simp [labels, hb])) hss
      have hp := hp (fun a ha b hb => hf a (by simp [labels, ha]) b (by simp [labels, hb])) hpp
      have ho := ho (fun a ha b hb => hf a (by simp [labels, ha]) b (by simp [labels, hb])) hoo
      rw [hs, hp, ho]
    | _ => cases h

theorem scope_injective (tag : UInt64) : Function.Injective (scope_blank_node_label tag) := by
  intro a b h
  exact (List.cons.inj (List.append_cancel_left (List.append_cancel_left h))).2

theorem odd_relabel (f : List Char → List Char) (t : OxTerm) : Odd (relabel f t) = Odd t := by
  cases t <;> rfl

theorem triple_rename (tag : UInt64) (t : OxTerm) : IsTriple (rename tag t) = IsTriple t := by
  cases t <;> rfl

theorem triple_odd (h : IsTriple t = true) : Odd t = true := by
  cases t with
  | Triple s p o => rfl
  | _ => cases h

/-! ## Literals and their texts -/

variable {ox : TermLibrary}

theorem of_text_undirected (l : sparql.text.Literal ox.toLibrary) :
    (of_text l).directional = false := by
  cases l <;> rfl

theorem literal_text_of_text (l : sparql.text.Literal ox.toLibrary) :
    literal_text ox.toLibrary (of_text l) = l.to_string := by
  cases l <;> rfl

theorem exists_text {l : OxLiteral} (h : KeptLiteral ox.toLibrary l) (hl : l.directional = false) :
    ∃ t : sparql.text.Literal ox.toLibrary, of_text t = l := by
  cases l with
  | Simple value => exact ⟨.Simple value, rfl⟩
  | LanguageTagged value language => exact ⟨.LanguageTagged value ⟨language, h⟩, rfl⟩
  | DirectionalLanguageTagged value language direction => cases hl
  | Typed value datatype => exact ⟨.Typed value ⟨datatype, h.1, h.2⟩, rfl⟩

/-- A literal that the store keeps is read back, when it has no direction. -/
theorem parse_text {l : OxLiteral} (h : KeptLiteral ox.toLibrary l) (hl : l.directional = false) :
    parse_literal ox.toLibrary (literal_text ox.toLibrary l) = l := by
  obtain ⟨t, rfl⟩ := exists_text h hl
  rw [literal_text_of_text, parse_literal, sparql.text.parse_to_string]

theorem parse_undirected (raw : List Char) :
    (parse_literal ox.toLibrary raw).directional = false := of_text_undirected _

theorem direction_end (d : BaseDirection) :
    ∃ front last, direction_text d = '-' :: '-' :: (front ++ [last]) ∧
      sparql.text.is_whitespace last = false := by
  cases d with
  | Ltr => exact ⟨['l', 't'], 'r', rfl, rfl⟩
  | Rtl => exact ⟨['r', 't'], 'l', rfl, rfl⟩

theorem literal_text_quoted (ox : Library) (l : OxLiteral) :
    literal_text ox l = '"' :: (l.value.flatMap (print_char ox) ++ '"' :: literal_suffix l) := by
  simp [literal_text, print_quoted_str]

theorem trim_directional (ox : TermLibrary) (value language : List Char) (d : BaseDirection) :
    sparql.text.trim (literal_text ox.toLibrary (.DirectionalLanguageTagged value language d)) =
      literal_text ox.toLibrary (.DirectionalLanguageTagged value language d) := by
  obtain ⟨front, last, hd, hlast⟩ := direction_end d
  have hback : literal_text ox.toLibrary (.DirectionalLanguageTagged value language d) =
      ('"' :: (value.flatMap (print_char ox.toLibrary) ++
        '"' :: '@' :: (language ++ '-' :: '-' :: front))) ++ [last] := by
    rw [literal_text_quoted, literal_suffix, hd, OxLiteral.value]
    simp
  have hfront (cs : List Char) :
      List.dropWhile sparql.text.is_whitespace ('"' :: cs) = '"' :: cs := rfl
  rw [sparql.text.trim, literal_text_quoted, hfront, ← literal_text_quoted, hback]
  exact sparql.text.rdropWhile_append (List.cons_ne_nil _ _) hlast

theorem parts_directional (ox : TermLibrary) (value language : List Char) (d : BaseDirection) :
    literal_parts (literal_text ox.toLibrary (.DirectionalLanguageTagged value language d)) =
      { value := value.flatMap (print_char ox.toLibrary),
        lang := some (language ++ direction_text d) } := by
  have htrim := trim_directional ox value language d
  rw [literal_text_quoted] at htrim ⊢
  rw [sparql.text.Literal.literal_parts_quoted htrim (sparql.text.split_quoted_print _ _ _)]
  rfl

/-- The tag with its direction is none, and the literal is read without both. -/
theorem parse_directional (value language : List Char) (d : BaseDirection) :
    parse_literal ox.toLibrary
      (literal_text ox.toLibrary (.DirectionalLanguageTagged value language d)) =
        .Simple value := by
  have hparts := parts_directional ox value language d
  obtain ⟨front, last, hd, -⟩ := direction_end d
  have hnone : ox.language (language ++ direction_text d) = none := by
    rw [hd]
    exact ox.no_empty_subtag language _
  have hlang : (literal_parts (literal_text ox.toLibrary
      (.DirectionalLanguageTagged value language d))).lang =
        some (language ++ direction_text d) := by
    rw [hparts]
  unfold parse_literal sparql.text.parse_literal
  split
  · rename_i tag h
    rw [hlang] at h
    cases h
    split
    · rename_i t ht
      rw [hnone] at ht
      cases ht
    · rw [hparts, of_text, sparql.text.unescape_print]
  · rename_i h
    rw [hlang] at h
    cases h

/-- Literals of one text are one literal. -/
theorem literal_text_inj {l l' : OxLiteral} (h : KeptLiteral ox.toLibrary l)
    (h' : KeptLiteral ox.toLibrary l')
    (heq : literal_text ox.toLibrary l = literal_text ox.toLibrary l') : l = l' := by
  have hlang (v lang : List Char) (d : BaseDirection) (t : sparql.text.Literal ox.toLibrary)
      (heq : literal_text ox.toLibrary (.DirectionalLanguageTagged v lang d) =
        literal_text ox.toLibrary (of_text t)) : False := by
    have hparts := parts_directional ox v lang d
    obtain ⟨front, last, hd, -⟩ := direction_end d
    rw [heq, literal_text_of_text, sparql.text.Literal.literal_parts_to_string] at hparts
    have htag := congrArg sparql.text.Parts.lang hparts
    cases t with
    | Simple value => cases htag
    | Typed value datatype => cases htag
    | LanguageTagged value language =>
      have hchecked := language.checked
      rw [Option.some.inj htag, hd, ox.no_empty_subtag] at hchecked
      cases hchecked
  cases hl : l.directional with
  | false =>
    cases hl' : l'.directional with
    | false => rw [← parse_text h hl, heq, parse_text h' hl']
    | true =>
      obtain ⟨t, rfl⟩ := exists_text h hl
      cases l' with
      | DirectionalLanguageTagged v lang d => exact (hlang v lang d t heq.symm).elim
      | _ => cases hl'
  | true =>
    cases l with
    | DirectionalLanguageTagged v lang d =>
      cases hl' : l'.directional with
      | false =>
        obtain ⟨t, rfl⟩ := exists_text h' hl'
        exact (hlang v lang d t heq).elim
      | true =>
        cases l' with
        | DirectionalLanguageTagged v' lang' d' =>
          have hvalue : v = v' := by
            have hparse := congrArg (parse_literal ox.toLibrary) heq
            rw [parse_directional, parse_directional] at hparse
            exact OxLiteral.Simple.inj hparse
          have hparts := parts_directional ox v lang d
          rw [heq, parts_directional] at hparts
          have htag : lang' ++ direction_text d' = lang ++ direction_text d :=
            Option.some.inj (congrArg sparql.text.Parts.lang hparts)
          have hlen : (direction_text d').length = (direction_text d).length := by
            cases d <;> cases d' <;> rfl
          obtain ⟨rfl, hdir⟩ := List.append_inj' htag hlen
          have hd : d = d' := by
            cases d <;> cases d' <;> simp [direction_text] at hdir ⊢
          rw [hvalue, hd]
        | _ => cases hl'
    | _ => cases hl

/-! ## Triples -/

structure Triple where
  s : OxTerm
  p : OxTerm
  o : OxTerm
deriving DecidableEq

abbrev AlgebraTriple := Term × Term × Term

namespace Triple

/-- A triple as the store keeps it in a graph that can be written. -/
structure Kept (ox : Library) (t : Triple) : Prop where
  subject : Node t.s
  predicate : ∃ iri, t.p = .NamedNode iri
  object : KeptObject ox t.o

/-- A triple that a parser hands on. -/
structure Sent (ox : Library) (t : Triple) : Prop where
  subject : Node t.s
  subject_sent : graph_store.Sent ox t.s
  predicate : ∃ iri, t.p = .NamedNode iri ∧ Absolute iri
  object : graph_store.Sent ox t.o

def relabel (f : List Char → List Char) (t : Triple) : Triple :=
  ⟨graph_store.relabel f t.s, graph_store.relabel f t.p, graph_store.relabel f t.o⟩

def rename (tag : UInt64) (t : Triple) : Triple := t.relabel (scope_blank_node_label tag)

def labels (t : Triple) : List (List Char) :=
  graph_store.labels t.s ++ graph_store.labels t.p ++ graph_store.labels t.o

/-- A row of a scan. -/
def to_algebra (ox : Library) (t : Triple) : AlgebraTriple :=
  (oxrdf_to_algebra ox t.s, oxrdf_to_algebra ox t.p, oxrdf_to_algebra ox t.o)

/-- A triple of a payload. -/
def to_terms (ox : Library) (tag : UInt64) (t : Triple) : AlgebraTriple :=
  (oxrdf_term_to_term ox tag t.s, oxrdf_term_to_term ox tag t.p, oxrdf_term_to_term ox tag t.o)

theorem odd_relabel (f : List Char → List Char) (t : Triple) : Odd (t.relabel f).o = Odd t.o :=
  graph_store.odd_relabel f t.o

theorem odd_rename (tag : UInt64) (t : Triple) : Odd (t.rename tag).o = Odd t.o :=
  odd_relabel _ t

theorem labels_relabel (f : List Char → List Char) (t : Triple) :
    (t.relabel f).labels = t.labels.map f := by
  unfold relabel labels
  rw [graph_store.labels_relabel, graph_store.labels_relabel, graph_store.labels_relabel,
    List.map_append, List.map_append]

theorem relabel_inj {t u : Triple} (hf : ∀ a ∈ t.labels, ∀ b ∈ u.labels, f a = f b → a = b)
    (h : t.relabel f = u.relabel f) : t = u := by
  obtain ⟨hs, hp, ho⟩ := Triple.mk.inj h
  have hs := graph_store.relabel_inj
    (fun a ha b hb => hf a (by simp [labels, ha]) b (by simp [labels, hb])) hs
  have hp := graph_store.relabel_inj
    (fun a ha b hb => hf a (by simp [labels, ha]) b (by simp [labels, hb])) hp
  have ho := graph_store.relabel_inj
    (fun a ha b hb => hf a (by simp [labels, ha]) b (by simp [labels, hb])) ho
  cases t
  cases u
  congr

theorem relabel_eq {t : Triple} (h : t.labels = []) : t.relabel f = t := by
  rw [labels, List.append_eq_nil_iff, List.append_eq_nil_iff] at h
  rw [relabel, graph_store.relabel_eq h.1.1, graph_store.relabel_eq h.1.2,
    graph_store.relabel_eq h.2]

end Triple

/-- A row of a batch. A row with a term that cannot be stored is left out. -/
def to_row (ox : Library) (a : AlgebraTriple) : Option Triple := do
  pure ⟨← algebra_to_oxrdf ox a.1, ← algebra_to_oxrdf ox a.2.1, ← algebra_to_oxrdf ox a.2.2⟩

/-! ## From the store and back -/

/-- What a stored object is written back as. -/
def back (ox : Library) : OxTerm → OxTerm
  | .Literal l => .Literal (parse_literal ox (literal_text ox l))
  | .Triple s p o => .NamedNode (term_text ox (.Triple s p o))
  | t => t

/-- What the store reads of an object of a payload. -/
def spelled (ox : Library) (tag : UInt64) : OxTerm → OxTerm
  | .Literal l => .Literal (parse_literal ox (literal_text ox l))
  | .Triple s p o => .Literal (parse_literal ox (triple_text ox s p o))
  | t => rename tag t

namespace Triple

def back (ox : Library) (t : Triple) : Triple := ⟨t.s, t.p, graph_store.back ox t.o⟩

def spelled (ox : Library) (tag : UInt64) (t : Triple) : Triple :=
  ⟨graph_store.rename tag t.s, graph_store.rename tag t.p, graph_store.spelled ox tag t.o⟩

end Triple

theorem to_oxrdf_back (t : OxTerm) :
    algebra_to_oxrdf ox.toLibrary (oxrdf_to_algebra ox.toLibrary t) =
      some (back ox.toLibrary t) := by
  cases t <;> rfl

theorem back_node (h : Node t) : back ox.toLibrary t = t := by
  cases t with
  | NamedNode iri => rfl
  | BlankNode label => rfl
  | _ => exact h.elim

theorem back_plain (h : KeptObject ox.toLibrary t) (ht : Odd t = false) :
    back ox.toLibrary t = t := by
  cases t with
  | NamedNode iri => rfl
  | BlankNode label => rfl
  | Literal l => exact congrArg OxTerm.Literal (parse_text h ht)
  | Triple s p o => cases ht

theorem to_row_to_algebra {t : Triple} (h : t.Kept ox.toLibrary) :
    to_row ox.toLibrary (t.to_algebra ox.toLibrary) = some (t.back ox.toLibrary) := by
  obtain ⟨iri, hp⟩ := h.predicate
  unfold to_row Triple.to_algebra
  rw [to_oxrdf_back, to_oxrdf_back, to_oxrdf_back, back_node h.subject, hp]
  exact congrArg some (congrArg (Triple.mk t.s · _) hp.symm)

theorem back_eq {t : Triple} (h : t.Kept ox.toLibrary) (ht : Odd t.o = false) :
    t.back ox.toLibrary = t := by
  rw [Triple.back, back_plain h.object ht]

/-- The algebra has no odd terms. -/
theorem not_odd_of_algebra {a : Term} (h : algebra_to_oxrdf ox.toLibrary a = some t) :
    Odd t = false := by
  cases a with
  | Iri s =>
    cases h
    rfl
  | BlankNode label =>
    cases h
    rfl
  | Literal raw =>
    cases h
    exact parse_undirected raw
  | _ => cases h

theorem not_odd_of_row {a : AlgebraTriple} {t : Triple} (h : to_row ox.toLibrary a = some t) :
    Odd t.o = false := by
  unfold to_row at h
  obtain ⟨s, -, h⟩ := Option.bind_eq_some_iff.mp h
  obtain ⟨p, -, h⟩ := Option.bind_eq_some_iff.mp h
  obtain ⟨o, ho, h⟩ := Option.bind_eq_some_iff.mp h
  cases h
  exact not_odd_of_algebra ho

/-! ## From a payload -/

theorem absolute_no_bracket {iri : List Char} (h : Absolute iri) : ∀ c ∈ iri, c ≠ '<' ∧ c ≠ '>' := by
  intro c hc
  have hchecked := h.checked c hc
  exact ⟨by rintro rfl; exact absurd hchecked (by decide),
    by rintro rfl; exact absurd hchecked (by decide)⟩

theorem trim_brackets_absolute {iri : List Char} (h : Absolute iri) : trim_brackets iri = iri := by
  have hplain := absolute_no_bracket h
  have hfront : iri.dropWhile (· == '<') = iri := by
    rw [List.dropWhile_eq_self_iff]
    intro hlen heq
    exact (hplain _ (List.getElem_mem hlen)).1 (eq_of_beq heq)
  rw [trim_brackets, hfront, List.rdropWhile_eq_self_iff]
  intro hne heq
  exact (hplain _ (List.getLast_mem hne)).2 (eq_of_beq heq)

theorem kept_of_checked {l : OxLiteral} (h : l.Checked ox.toLibrary) :
    KeptLiteral ox.toLibrary l := by
  cases l with
  | Typed value datatype => exact ⟨trim_brackets_absolute h.1, h.2⟩
  | _ => exact h

theorem to_oxrdf_spelled (tag : UInt64) (t : OxTerm) :
    algebra_to_oxrdf ox.toLibrary (oxrdf_term_to_term ox.toLibrary tag t) =
      some (spelled ox.toLibrary tag t) := by
  cases t <;> rfl

theorem spelled_node (tag : UInt64) (h : Node t) : spelled ox.toLibrary tag t = rename tag t := by
  cases t with
  | NamedNode iri => rfl
  | BlankNode label => rfl
  | _ => exact h.elim

theorem spelled_plain (tag : UInt64) (h : Sent ox.toLibrary t) (ht : Odd t = false) :
    spelled ox.toLibrary tag t = rename tag t := by
  cases t with
  | Literal l => exact congrArg OxTerm.Literal (parse_text (kept_of_checked h) ht)
  | Triple s p o => cases ht
  | _ => rfl

theorem to_row_to_terms {t : Triple} (tag : UInt64) (h : t.Sent ox.toLibrary) :
    to_row ox.toLibrary (t.to_terms ox.toLibrary tag) = some (t.spelled ox.toLibrary tag) := by
  obtain ⟨iri, hp, -⟩ := h.predicate
  unfold to_row Triple.to_terms
  rw [to_oxrdf_spelled, to_oxrdf_spelled, to_oxrdf_spelled, spelled_node tag h.subject, hp]
  exact congrArg some (congrArg (fun q => Triple.mk (rename tag t.s) (rename tag q)
    (spelled ox.toLibrary tag t.o)) hp.symm)

theorem spelled_eq {t : Triple} (tag : UInt64) (h : t.Sent ox.toLibrary) (ht : Odd t.o = false) :
    t.spelled ox.toLibrary tag = t.rename tag := by
  rw [Triple.spelled, spelled_plain tag h.object ht]
  rfl

/-! ## One term in two spellings -/

theorem term_text_ne_iri {s p o : OxTerm} {iri : List Char} (h : Absolute iri) :
    term_text ox.toLibrary (.Triple s p o) ≠ iri := by
  rintro rfl
  have hscheme := h.scheme
  exact absurd (show '<'.isAlpha = true from hscheme) (by decide)

/-- A triple's text starts with its subject, and no subject with a quote. -/
theorem triple_text_ne_literal {s : OxTerm} (hs : Node s) (p o : OxTerm) (l : OxLiteral) :
    literal_text ox.toLibrary l ≠ triple_text ox.toLibrary s p o := by
  intro h
  have hhead := congrArg List.head? h
  cases s with
  | NamedNode iri => exact absurd hhead (by decide : some '"' ≠ some '<')
  | BlankNode label => exact absurd hhead (by decide : some '"' ≠ some '_')
  | _ => exact hs

/-- A stored term is spelled as a term of a payload only when it is that term. -/
theorem to_algebra_eq_term {u x : OxTerm} (tag : UInt64) (hu : KeptObject ox.toLibrary u)
    (hx : Sent ox.toLibrary x) :
    oxrdf_to_algebra ox.toLibrary u = oxrdf_term_to_term ox.toLibrary tag x ↔
      u = rename tag x ∧ IsTriple x = false := by
  constructor
  · intro h
    cases u with
    | NamedNode iri =>
      cases x with
      | NamedNode iri' =>
        cases h
        exact ⟨rfl, rfl⟩
      | _ => cases h
    | BlankNode label =>
      cases x with
      | BlankNode label' =>
        cases h
        exact ⟨rfl, rfl⟩
      | _ => cases h
    | Literal l =>
      cases x with
      | Literal l' =>
        have heq := literal_text_inj hu (kept_of_checked hx) (Term.Literal.inj h)
        exact ⟨congrArg OxTerm.Literal heq, rfl⟩
      | Triple s p o => exact absurd (Term.Literal.inj h) (triple_text_ne_literal hx.1.1 p o l)
      | _ => cases h
    | Triple s p o =>
      cases x with
      | NamedNode iri => exact absurd (Term.Iri.inj h) (term_text_ne_iri hx)
      | _ => cases h
  · rintro ⟨rfl, hnot⟩
    cases x with
    | Triple s p o => cases hnot
    | _ => rfl

theorem kept_node (h : Node t) : KeptObject ox.toLibrary t := by
  cases t with
  | NamedNode iri => exact trivial
  | BlankNode label => exact trivial
  | _ => exact h.elim

theorem node_not_triple (h : Node t) : IsTriple t = false := by
  cases t with
  | NamedNode iri => rfl
  | BlankNode label => rfl
  | _ => exact h.elim

theorem to_algebra_eq_terms {u x : Triple} (tag : UInt64) (hu : u.Kept ox.toLibrary)
    (hx : x.Sent ox.toLibrary) :
    u.to_algebra ox.toLibrary = x.to_terms ox.toLibrary tag ↔
      u = x.rename tag ∧ IsTriple x.o = false := by
  obtain ⟨iri, hup⟩ := hu.predicate
  obtain ⟨iri', hxp, habs⟩ := hx.predicate
  have hs := to_algebra_eq_term tag (kept_node hu.subject) hx.subject_sent
  have hp : oxrdf_to_algebra ox.toLibrary u.p = oxrdf_term_to_term ox.toLibrary tag x.p ↔
      u.p = rename tag x.p ∧ IsTriple x.p = false := by
    refine to_algebra_eq_term tag ?_ ?_
    · rw [hup]
      exact trivial
    · rw [hxp]
      exact habs
  have ho := to_algebra_eq_term tag hu.object hx.object
  have hps : IsTriple x.p = false := by
    rw [hxp]
    rfl
  rw [Triple.to_algebra, Triple.to_terms, Prod.mk.injEq, Prod.mk.injEq, hs, hp, ho,
    node_not_triple hx.subject, hps]
  cases u
  simp only [Triple.rename, Triple.relabel, rename, Triple.mk.injEq]
  tauto

end horndb.server.graph_store
