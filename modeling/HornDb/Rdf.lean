-- RDF terms as the term library builds them, and what may stop a storage function. Which
-- texts are IRIs, labels and language tags is the library's own, so it is a parameter.
import HornDb.Lib.Wire

open HornDb.Lib.Wire

namespace horndb.storage

/-! ## Errors -/

inductive StorageError where
  | DictionaryFull (terms : Nat)
  | Io (msg : String)
  | InvalidTerm (msg : String)
  | Snapshot (msg : String)
  | Wal (msg : String)
deriving DecidableEq, Repr

/-- How a function stops without a value: it returns an error, or it panics. -/
inductive Halt where
  | error (e : StorageError)
  | panic
deriving DecidableEq, Repr

abbrev Outcome (α : Type) := Except Halt α

/-! ## Terms -/

def XSD_STRING : String := "http://www.w3.org/2001/XMLSchema#string"

def XSD_INTEGER : String := "http://www.w3.org/2001/XMLSchema#integer"

/-- The checks of the term library, each with the text of its error, the texts that an IRI or a
label is built from without a check, and the text for bytes that are no UTF-8. A stored language
tag is in the form that the library gives it. -/
structure Oxrdf where
  iri : String → Except String Unit
  label : String → Except String Unit
  unchecked : String → Prop
  language : String → Except String String
  utf8_error : Bytes → String
  language_stored : ∀ s t, language s = .ok t → language t = .ok t
  integer_checked : iri XSD_INTEGER = .ok ()

variable (ox : Oxrdf)

/-- An IRI, checked or not. -/
@[ext]
structure NamedNode where
  as_str : String
  held : ox.iri as_str = .ok () ∨ ox.unchecked as_str

@[ext]
structure BlankNode where
  as_str : String
  held : ox.label as_str = .ok () ∨ ox.unchecked as_str

@[ext]
structure LanguageTag where
  as_str : String
  checked : ox.language as_str = .ok as_str

inductive BaseDirection where
  | Ltr
  | Rtl
deriving DecidableEq, Repr

/-- A typed literal never has the string type: the library makes such a literal plain. -/
inductive Literal where
  | Simple (value : String)
  | LanguageTagged (value : String) (language : LanguageTag ox)
  | DirectionalLanguageTagged (value : String) (language : LanguageTag ox)
      (direction : BaseDirection)
  | Typed (value : String) (datatype : NamedNode ox) (other : datatype.as_str ≠ XSD_STRING)

inductive NamedOrBlankNode where
  | NamedNode (n : NamedNode ox)
  | BlankNode (b : BlankNode ox)

/-- A term. A triple term has an IRI or a blank node for its subject. -/
inductive Term where
  | NamedNode (n : NamedNode ox)
  | BlankNode (b : BlankNode ox)
  | Literal (lit : Literal ox)
  | Triple (subject : NamedOrBlankNode ox) (predicate : horndb.storage.NamedNode ox) (object : Term)

variable {ox}

/-- The check of the library passes the text. -/
def NamedNode.Checked (n : NamedNode ox) : Prop := ox.iri n.as_str = .ok ()

def BlankNode.Checked (b : BlankNode ox) : Prop := ox.label b.as_str = .ok ()

def NamedOrBlankNode.Checked : NamedOrBlankNode ox → Prop
  | .NamedNode n => n.Checked
  | .BlankNode b => b.Checked

def Literal.Checked : Literal ox → Prop
  | .Typed _ datatype _ => datatype.Checked
  | _ => True

/-- The checks of the library pass every text of the term. -/
def Term.Checked : Term ox → Prop
  | .NamedNode n => n.Checked
  | .BlankNode b => b.Checked
  | .Literal lit => lit.Checked
  | .Triple subject predicate object => subject.Checked ∧ predicate.Checked ∧ object.Checked

def subject_to_term : NamedOrBlankNode ox → Term ox
  | .NamedNode n => .NamedNode n
  | .BlankNode b => .BlankNode b

/-- The bytes of a text. -/
def as_bytes (s : String) : Bytes := s.toByteArray.data.toList

/-! ## The bytes of a text -/

theorem as_bytes_append (s t : String) : as_bytes (s ++ t) = as_bytes s ++ as_bytes t := by
  unfold as_bytes
  rw [String.toByteArray_append, ByteArray.data_append, Array.toList_append]

/-- One byte a character, for characters of one byte. -/
theorem as_bytes_ofList {cs : List Char} (h : ∀ c ∈ cs, c.val ≤ 127) :
    as_bytes (String.ofList cs) = cs.map fun c => c.val.toUInt8 := by
  induction cs with
  | nil => rfl
  | cons c cs ih =>
    rw [List.forall_mem_cons] at h
    have hone : String.utf8EncodeChar c = [c.val.toUInt8] :=
      String.utf8EncodeChar_eq_singleton (Char.utf8Size_eq_one_iff.mpr h.1)
    have hcons : String.ofList (c :: cs) = String.ofList [c] ++ String.ofList cs := by
      rw [← String.ofList_append]
      rfl
    have hchar : as_bytes (String.ofList [c]) = [c.val.toUInt8] := by
      unfold as_bytes
      rw [String.toByteArray_ofList, List.utf8Encode_singleton, hone]
      rfl
    rw [hcons, as_bytes_append, ih h.2, hchar]
    rfl

theorem as_bytes_toString (n : Nat) :
    as_bytes (toString n) = (Nat.toDigits 10 n).map fun c => c.val.toUInt8 := by
  apply as_bytes_ofList
  intro c hc
  have hdigit := Nat.isDigit_of_mem_toDigits (by decide) (by decide) hc
  unfold Char.isDigit at hdigit
  simp only [ge_iff_le, Bool.and_eq_true, decide_eq_true_eq] at hdigit
  exact UInt32.le_trans hdigit.2 (by decide)

theorem digit_bytes (n : Nat) : ∀ b ∈ as_bytes (toString n), 48 ≤ b.toNat ∧ b.toNat ≤ 57 := by
  intro b hb
  rw [as_bytes_toString] at hb
  obtain ⟨c, hc, rfl⟩ := List.mem_map.mp hb
  have hdigit := Nat.isDigit_of_mem_toDigits (by decide) (by decide) hc
  unfold Char.isDigit at hdigit
  simp only [ge_iff_le, Bool.and_eq_true, decide_eq_true_eq] at hdigit
  have h1 : 48 ≤ c.val.toNat := UInt32.le_iff_toNat_le.mp hdigit.1
  have h2 : c.val.toNat ≤ 57 := UInt32.le_iff_toNat_le.mp hdigit.2
  rw [UInt32.toNat_toUInt8]
  omega

theorem length_as_bytes_toString {n k : Nat} (hk : 0 < k) (h : n < 10 ^ k) :
    (as_bytes (toString n)).length ≤ k := by
  rw [as_bytes_toString, List.length_map]
  exact (Nat.length_toDigits_le_iff (by decide) hk).mpr h

/-! ## The constructors of the library -/

namespace Oxrdf

variable (ox)

def named_node (s : String) : Except String (NamedNode ox) :=
  match h : ox.iri s with
  | .ok () => .ok ⟨s, .inl h⟩
  | .error msg => .error msg

def blank_node (s : String) : Except String (BlankNode ox) :=
  match h : ox.label s with
  | .ok () => .ok ⟨s, .inl h⟩
  | .error msg => .error msg

def language_tag (s : String) : Except String (LanguageTag ox) :=
  match h : ox.language s with
  | .ok t => .ok ⟨t, ox.language_stored s t h⟩
  | .error msg => .error msg

def typed_literal (value : String) (datatype : NamedNode ox) : Literal ox :=
  if h : datatype.as_str = XSD_STRING then .Simple value else .Typed value datatype h

/-- The text of the bytes, when they are UTF-8. -/
def from_utf8 (bytes : Bytes) : Except String String :=
  match String.fromUTF8? ⟨bytes.toArray⟩ with
  | some s => .ok s
  | none => .error (ox.utf8_error bytes)

theorem named_node_ok {s : String} (h : ox.iri s = .ok ()) : ox.named_node s = .ok ⟨s, .inl h⟩ := by
  unfold named_node
  split
  · rfl
  · rename_i msg herror
    rw [h] at herror
    cases herror

theorem language_tag_as_str (l : LanguageTag ox) : ox.language_tag l.as_str = .ok l := by
  unfold language_tag
  split
  · rename_i t h
    rw [l.checked] at h
    cases h
    rfl
  · rename_i msg h
    rw [l.checked] at h
    cases h

theorem typed_literal_of_ne {value : String} {datatype : NamedNode ox}
    (h : datatype.as_str ≠ XSD_STRING) :
    ox.typed_literal value datatype = .Typed value datatype h := dif_neg h

theorem from_utf8_as_bytes (s : String) : ox.from_utf8 (as_bytes s) = .ok s := by
  have hback : String.fromUTF8? ⟨(as_bytes s).toArray⟩ = some s := by
    rw [as_bytes, Array.toArray_toList, String.fromUTF8?, dif_pos s.isValidUTF8]
    rfl
  rw [from_utf8, hback]

/-- IRIs and labels hold no control character. -/
def Printable : Prop :=
  ∀ s, ox.iri s = .ok () ∨ ox.label s = .ok () ∨ ox.unchecked s → ∀ b ∈ as_bytes s, 32 ≤ b.toNat

/-- A plain library, to run the model on: an IRI has a colon, a label is not empty, neither
holds a control character, checked or not, and a language is in lower case. -/
def plain : Oxrdf where
  iri s :=
    if s.toList.contains ':' && (as_bytes s).all (32 ≤ ·.toNat) then .ok ()
    else .error "No scheme found in an absolute IRI"
  label s :=
    if !s.toList.isEmpty && (as_bytes s).all (32 ≤ ·.toNat) then .ok ()
    else .error "The blank node identifier is invalid"
  unchecked s := (as_bytes s).all (32 ≤ ·.toNat) = true
  language s :=
    if s.toList.all (·.isLower) && !s.toList.isEmpty then .ok s
    else .error "The language tag is invalid"
  utf8_error _ := "invalid utf-8 sequence"
  language_stored s t h := by
    split at h
    · rename_i hs
      cases h
      exact if_pos hs
    · cases h
  integer_checked := by decide

theorem plain_b : plain.label "b" = .ok () := by decide

theorem plain_ex_s : plain.iri "ex:s" = .ok () := by decide

theorem plain_ex_p : plain.iri "ex:p" = .ok () := by decide

theorem held_b : plain.label "b" = .ok () ∨ plain.unchecked "b" := .inl plain_b

theorem held_ex_s : plain.iri "ex:s" = .ok () ∨ plain.unchecked "ex:s" := .inl plain_ex_s

theorem held_ex_p : plain.iri "ex:p" = .ok () ∨ plain.unchecked "ex:p" := .inl plain_ex_p

theorem plain_en : plain.language "en" = .ok "en" := by decide

theorem plain_hdb0_g : plain.unchecked "hdb0_g" :=
  (by decide : (as_bytes "hdb0_g").all (32 ≤ ·.toNat) = true)

theorem plain_printable : plain.Printable := by
  intro s h b hb
  have hall : (as_bytes s).all (32 ≤ ·.toNat) = true := by
    rcases h with h | h | h
    · unfold plain at h
      dsimp only at h
      split at h
      · exact (Bool.and_eq_true_iff.mp ‹_›).2
      · cases h
    · unfold plain at h
      dsimp only at h
      split at h
      · exact (Bool.and_eq_true_iff.mp ‹_›).2
      · cases h
    · exact h
  exact of_decide_eq_true (List.all_eq_true.mp hall b hb)

end Oxrdf

end horndb.storage
