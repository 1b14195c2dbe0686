-- The keys of the in-memory dictionary: a tag and the texts of the term, with a small id
-- in the place of a datatype or a language. The memo of the last id of each thread, which
-- gives what the side table gives, is left out.
import HornDb.TermCodec
import HornDb.TermIds

open Std HornDb.Lib HornDb.Lib.Wire

namespace horndb.storage

def K_URI : UInt8 := 0x00
def K_BLANK : UInt8 := 0x01
def K_PLAIN : UInt8 := 0x02
def K_LANG : UInt8 := 0x03
def K_TYPED : UInt8 := 0x04
def K_TRIPLE : UInt8 := 0x06
def K_DIR_LANG : UInt8 := 0x07

/-! ## The side tables -/

/-- Ids of datatype IRIs or of language tags, in the order they were first seen. -/
structure AuxTable where
  map : ExtTreeMap String UInt32
  order : List String

namespace AuxTable

def new : AuxTable := ⟨∅, []⟩

def get (t : AuxTable) (s : String) : Option UInt32 := t.map[s]?

/-- The id of a text. The id of a new one is the length of the table, cut to 32 bits. -/
def intern (t : AuxTable) (s : String) : AuxTable × UInt32 :=
  match t.get s with
  | some id => (t, id)
  | none =>
    let id := UInt32.ofNat t.order.length
    (⟨t.map.insert s id, t.order ++ [s]⟩, id)

end AuxTable

/-- Which of the two side tables an id comes from. -/
inductive Aux where
  | Datatype
  | Language
deriving DecidableEq, Repr

/-- Whether a missing id is created, or says that the term is not in the dictionary. -/
inductive AuxMode where
  | Intern
  | Lookup
deriving DecidableEq, Repr

structure Tables where
  datatypes : AuxTable
  languages : AuxTable

namespace Tables

def new : Tables := ⟨.new, .new⟩

def table (t : Tables) : Aux → AuxTable
  | .Datatype => t.datatypes
  | .Language => t.languages

def set_table (t : Tables) (aux : Aux) (table : AuxTable) : Tables :=
  match aux with
  | .Datatype => { t with datatypes := table }
  | .Language => { t with languages := table }

def aux_id (t : Tables) (aux : Aux) (s : String) : AuxMode → Tables × Option UInt32
  | .Intern => (t.set_table aux ((t.table aux).intern s).1, some ((t.table aux).intern s).2)
  | .Lookup => (t, (t.table aux).get s)

end Tables

/-! ## The key -/

def push_uvarint (v : UInt32) : Bytes := write_uvarint v.toNat

variable {ox : Oxrdf}

def key_named_node (n : NamedNode ox) : Bytes := K_URI :: as_bytes n.as_str

def key_subject : NamedOrBlankNode ox → Bytes
  | .NamedNode n => key_named_node n
  | .BlankNode b => K_BLANK :: as_bytes b.as_str

namespace Tables

/-- The key of a term, when the ids that it needs are there or may be created. The parts
of a triple term have their lengths before them, cut to 32 bits. -/
def encode_into (t : Tables) (mode : AuxMode) : Term ox → Tables × Option Bytes
  | .NamedNode n => (t, some (key_named_node n))
  | .BlankNode b => (t, some (K_BLANK :: as_bytes b.as_str))
  | .Literal (.DirectionalLanguageTagged value lang dir) =>
    let (t, id) := t.aux_id .Language lang.as_str mode
    (t, id.map fun id => K_DIR_LANG :: direction_byte dir :: (push_uvarint id ++ as_bytes value))
  | .Literal (.LanguageTagged value lang) =>
    let (t, id) := t.aux_id .Language lang.as_str mode
    (t, id.map fun id => K_LANG :: (push_uvarint id ++ as_bytes value))
  | .Literal (.Simple value) => (t, some (K_PLAIN :: as_bytes value))
  | .Literal (.Typed value dt _) =>
    let (t, id) := t.aux_id .Datatype dt.as_str mode
    (t, id.map fun id => K_TYPED :: (push_uvarint id ++ as_bytes value))
  | .Triple s p o =>
    let (t, object) := encode_into t mode o
    (t, object.map fun object =>
      K_TRIPLE :: (push_uvarint (UInt32.ofNat (key_subject s).length) ++ (key_subject s ++
        (push_uvarint (UInt32.ofNat (key_named_node p).length) ++
          (key_named_node p ++ object)))))

end Tables

/-! ## Kinds -/

def kind_of : Term ox → TermKind
  | .NamedNode _ => .Uri
  | .BlankNode _ => .Blank
  | .Literal (.DirectionalLanguageTagged _ _ _) => .LangLiteral
  | .Literal (.LanguageTagged _ _) => .LangLiteral
  | .Literal (.Simple _) => .PlainLiteral
  | .Literal (.Typed _ _ _) => .TypedLiteral
  | .Triple _ _ _ => .TripleTerm

/-- The kind of the term that the bytes encode, read off the tag. -/
def encoded_kind : Bytes → Option TermKind
  | [] => none
  | tag :: _ =>
    if tag = KIND_URI then some .Uri
    else if tag = KIND_BLANK then some .Blank
    else if tag = KIND_PLAIN then some .PlainLiteral
    else if tag = KIND_LANG ∨ tag = KIND_DIR_LANG then some .LangLiteral
    else if tag = KIND_TYPED then some .TypedLiteral
    else if tag = KIND_INLINE_INT then some .InlineInt
    else if tag = KIND_TRIPLE then some .TripleTerm
    else none

theorem encoded_kind_encode (t : Term ox) : encoded_kind (encode_term t) = some (kind_of t) := by
  cases t with
  | Literal lit => cases lit <;> rfl
  | _ => rfl

/-! ## Small integers -/

/-- The value of a text that fits 32 bits. -/
def parse_i32 (s : String) : Option Int32 :=
  match s.toInt? with
  | some v => if -2 ^ 31 ≤ v ∧ v < 2 ^ 31 then some (Int32.ofInt v) else none
  | none => none

/-- The id of a small integer in its canonical form. -/
def try_inline_int : Term ox → Option TermId
  | .Literal (.Typed value dt _) =>
    if dt.as_str = XSD_INTEGER then
      match parse_i32 value with
      | some v => if value = toString v.toInt then some (TermId.inline_int v) else none
      | none => none
    else none
  | _ => none

variable (ox)

/-- The literal of a small integer. It panics when the library takes no integer type. -/
def integer_term (v : Int32) : Outcome (Term ox) := do
  let integer ← integer_node ox
  pure (.Literal (ox.typed_literal (toString v.toInt) integer))

variable {ox}

theorem integer_term_eq {value : String} {dt : NamedNode ox} {other : dt.as_str ≠ XSD_STRING}
    {v : Int32} (hdt : dt.as_str = XSD_INTEGER) (hvalue : value = toString v.toInt) :
    integer_term ox v = .ok (.Literal (.Typed value dt other)) := by
  have hnode : integer_node ox = .ok dt := by
    unfold integer_node
    rw [ox.named_node_ok ox.integer_checked]
    exact congrArg _ (NamedNode.ext hdt.symm)
  rw [integer_term, hnode, ok_bind, ox.typed_literal_of_ne other, hvalue]
  rfl

theorem parse_i32_toString (v : Int32) : parse_i32 (toString v.toInt) = some v := by
  have hlo := v.le_toInt
  have hhi := v.toInt_lt
  unfold parse_i32
  rw [show (toString v.toInt).toInt? = some v.toInt from Int.toInt?_repr v.toInt]
  dsimp only
  rw [if_pos ⟨hlo, hhi⟩, Int32.ofInt_toInt]

/-- The literal of a value has the id of the value. -/
theorem try_inline_int_term {v : Int32} {t : Term ox} (h : integer_term ox v = .ok t) :
    try_inline_int t = some (TermId.inline_int v) := by
  unfold integer_term at h
  obtain ⟨n, hn, h⟩ := bind_eq_ok h
  cases h
  have hdt : n.as_str = XSD_INTEGER := by
    unfold integer_node Oxrdf.named_node at hn
    split at hn
    · rename_i n' hn'
      cases hn
      split at hn'
      · cases hn'
        rfl
      · cases hn'
    · cases hn
  have hother : n.as_str ≠ XSD_STRING := by
    rw [hdt]
    decide
  rw [ox.typed_literal_of_ne hother]
  unfold try_inline_int
  dsimp only
  rw [if_pos hdt, parse_i32_toString]
  dsimp only
  rw [if_pos rfl]

/-- A term with an id of its own value is the literal of that value. -/
theorem try_inline_int_eq {t : Term ox} {id : TermId} (h : try_inline_int t = some id) :
    ∃ v, id = TermId.inline_int v ∧ integer_term ox v = .ok t := by
  unfold try_inline_int at h
  split at h
  · rename_i value dt other
    split at h
    · rename_i hdt
      split at h
      · rename_i v _
        split at h
        · rename_i hvalue
          cases h
          exact ⟨v, rfl, integer_term_eq hdt hvalue⟩
        · cases h
      · cases h
    · cases h
  · cases h

/-! ## What the side tables keep -/

namespace AuxTable

/-- Each id is the place of its text, and there are no more places than ids. -/
structure Good (t : AuxTable) : Prop where
  placed : ∀ s id, t.get s = some id → t.order[id.toNat]? = some s
  fits : t.order.length ≤ 2 ^ 32

/-- There is an id for the text. -/
def Room (t : AuxTable) (s : String) : Prop := t.get s = none → t.order.length < 2 ^ 32

theorem new_good : new.Good := by
  refine ⟨fun s id h => ?_, Nat.zero_le _⟩
  rw [get, new, ExtTreeMap.getElem?_empty] at h
  cases h

theorem Good.inj {t : AuxTable} (h : t.Good) {s s' : String} {id : UInt32}
    (hs : t.get s = some id) (hs' : t.get s' = some id) : s = s' := by
  have := h.placed s id hs
  rw [h.placed s' id hs'] at this
  cases this
  rfl

theorem get_intern (t : AuxTable) (s : String) : (t.intern s).1.get s = some (t.intern s).2 := by
  unfold intern
  split
  · assumption
  · exact ExtTreeMap.getElem?_insert_self

theorem intern_of_get {t : AuxTable} {s : String} {id : UInt32} (h : t.get s = some id) :
    t.intern s = (t, id) := by
  unfold intern
  rw [h]

/-- An id that was given stays. -/
theorem get_intern_of_get {t : AuxTable} {s s' : String} {id : UInt32} (h : t.get s' = some id) :
    (t.intern s).1.get s' = some id := by
  cases hs : t.get s with
  | some id' =>
    rw [intern_of_get hs]
    exact h
  | none =>
    have hne : s ≠ s' := by
      intro heq
      rw [heq, h] at hs
      cases hs
    unfold intern
    rw [hs]
    dsimp only
    rw [get, ExtTreeMap.getElem?_insert, if_neg (by simpa using hne)]
    exact h

theorem Good.intern {t : AuxTable} (h : t.Good) {s : String} (hroom : t.Room s) :
    (t.intern s).1.Good := by
  cases hs : t.get s with
  | some id =>
    rw [intern_of_get hs]
    exact h
  | none =>
    have hlt := hroom hs
    have hid : (UInt32.ofNat t.order.length).toNat = t.order.length :=
      Nat.mod_eq_of_lt hlt
    unfold AuxTable.intern
    rw [hs]
    dsimp only
    refine ⟨fun s' id hid' => ?_, ?_⟩
    · rw [get, ExtTreeMap.getElem?_insert] at hid'
      split at hid'
      · cases hid'
        have heq : s = s' := by simpa using ‹compare s s' = .eq›
        rw [hid, List.getElem?_append_right (Nat.le_refl _), Nat.sub_self, heq]
        rfl
      · have hold := h.placed s' id hid'
        obtain ⟨hlen, _⟩ := List.getElem?_eq_some_iff.mp hold
        rw [List.getElem?_append_left hlen, hold]
    · rw [List.length_append]
      exact hlt

end AuxTable

namespace Tables

structure Good (t : Tables) : Prop where
  datatypes : t.datatypes.Good
  languages : t.languages.Good

theorem Good.table {t : Tables} (h : t.Good) (aux : Aux) : (t.table aux).Good := by
  cases aux
  · exact h.datatypes
  · exact h.languages

theorem new_good : new.Good := ⟨AuxTable.new_good, AuxTable.new_good⟩

theorem table_set_table (t : Tables) (aux aux' : Aux) (table : AuxTable) :
    (t.set_table aux table).table aux' = if aux = aux' then table else t.table aux' := by
  cases aux <;> cases aux' <;> rfl

end Tables

/-- The text of a term that a side table gives an id: a term has at most one. -/
def aux_text : Term ox → Option (Aux × String)
  | .NamedNode _ => none
  | .BlankNode _ => none
  | .Literal (.DirectionalLanguageTagged _ lang _) => some (.Language, lang.as_str)
  | .Literal (.LanguageTagged _ lang) => some (.Language, lang.as_str)
  | .Literal (.Simple _) => none
  | .Literal (.Typed _ dt _) => some (.Datatype, dt.as_str)
  | .Triple _ _ o => aux_text o

/-- The key of a term, with the id of its text. -/
def key_with (id : UInt32) : Term ox → Bytes
  | .NamedNode n => key_named_node n
  | .BlankNode b => K_BLANK :: as_bytes b.as_str
  | .Literal (.DirectionalLanguageTagged value _ dir) =>
    K_DIR_LANG :: direction_byte dir :: (push_uvarint id ++ as_bytes value)
  | .Literal (.LanguageTagged value _) => K_LANG :: (push_uvarint id ++ as_bytes value)
  | .Literal (.Simple value) => K_PLAIN :: as_bytes value
  | .Literal (.Typed value _ _) => K_TYPED :: (push_uvarint id ++ as_bytes value)
  | .Triple s p o =>
    K_TRIPLE :: (push_uvarint (UInt32.ofNat (key_subject s).length) ++ (key_subject s ++
      (push_uvarint (UInt32.ofNat (key_named_node p).length) ++
        (key_named_node p ++ key_with id o))))

/-- The key is that of the term's one id. -/
theorem Tables.encode_into_eq (t : Tables) (mode : AuxMode) (term : Term ox) :
    t.encode_into mode term =
      match aux_text term with
      | none => (t, some (key_with 0 term))
      | some (aux, s) =>
        ((t.aux_id aux s mode).1, (t.aux_id aux s mode).2.map fun id => key_with id term) := by
  induction term with
  | NamedNode n => rfl
  | BlankNode b => rfl
  | Literal lit => cases lit <;> rfl
  | Triple s p o ih =>
    rw [Tables.encode_into, ih]
    cases h : aux_text o with
    | none =>
      rw [aux_text, h]
      rfl
    | some a =>
      rw [aux_text, h]
      dsimp only
      rw [Option.map_map]
      rfl

namespace Tables

/-- The key of a term, when its ids are there. -/
def key (t : Tables) (term : Term ox) : Option Bytes := (t.encode_into .Lookup term).2

/-- There is an id for the text of the term. -/
def Room (t : Tables) (term : Term ox) : Prop :=
  ∀ aux s, aux_text term = some (aux, s) → (t.table aux).Room s

theorem key_eq (t : Tables) (term : Term ox) :
    t.key term =
      match aux_text term with
      | none => some (key_with 0 term)
      | some (aux, s) => ((t.table aux).get s).map fun id => key_with id term := by
  rw [key, encode_into_eq]
  split <;> rfl

/-- Interning gives the key that a lookup gives from then on. -/
theorem encode_into_intern (t : Tables) (term : Term ox) :
    ∃ k, (t.encode_into .Intern term).2 = some k ∧ (t.encode_into .Intern term).1.key term = some k := by
  cases h : aux_text term with
  | none =>
    refine ⟨key_with 0 term, ?_, ?_⟩
    · rw [encode_into_eq, h]
    · rw [key_eq, h]
  | some a =>
    obtain ⟨aux, s⟩ := a
    refine ⟨key_with ((t.table aux).intern s).2 term, ?_, ?_⟩
    · rw [encode_into_eq, h]
      rfl
    · rw [encode_into_eq, key_eq, h]
      dsimp only [aux_id]
      rw [table_set_table, if_pos rfl, AuxTable.get_intern]
      rfl

/-- A key that a term has stays. -/
theorem key_of_intern {t : Tables} {term u : Term ox} {k : Bytes} (h : t.key u = some k) :
    (t.encode_into .Intern term).1.key u = some k := by
  cases hterm : aux_text term with
  | none =>
    rw [encode_into_eq, hterm]
    exact h
  | some a =>
    obtain ⟨aux, s⟩ := a
    rw [encode_into_eq, hterm]
    rw [key_eq] at h ⊢
    cases hu : aux_text u with
    | none =>
      rw [hu] at h
      exact h
    | some b =>
      obtain ⟨aux', s'⟩ := b
      rw [hu] at h
      dsimp only [aux_id] at h ⊢
      obtain ⟨id, hid, rfl⟩ := Option.map_eq_some_iff.mp h
      rw [table_set_table]
      split
      · rename_i heq
        subst heq
        rw [AuxTable.get_intern_of_get hid]
        rfl
      · rw [hid]
        rfl

theorem Good.encode_into {t : Tables} (h : t.Good) {term : Term ox} (hroom : t.Room term) :
    (t.encode_into .Intern term).1.Good := by
  cases hterm : aux_text term with
  | none =>
    rw [encode_into_eq, hterm]
    exact h
  | some a =>
    obtain ⟨aux, s⟩ := a
    have htable := (h.table aux).intern (hroom aux s hterm)
    rw [encode_into_eq, hterm]
    cases aux
    · exact ⟨htable, h.languages⟩
    · exact ⟨h.datatypes, htable⟩

end Tables

/-! ## One key, one term -/

theorem push_uvarint_inj {v w : UInt32} {a b : Bytes}
    (h : push_uvarint v ++ a = push_uvarint w ++ b) : v = w ∧ a = b := by
  have hv : v.toNat < 2 ^ 64 := Nat.lt_trans v.toNat_lt (by decide)
  have hw : w.toNat < 2 ^ 64 := Nat.lt_trans w.toNat_lt (by decide)
  have hread := (read_uvarint_write hv).back a
  rw [show write_uvarint v.toNat ++ a = write_uvarint w.toNat ++ b from h,
    (read_uvarint_write hw).back b] at hread
  have hpair := Except.ok.inj hread
  exact ⟨(UInt32.toNat_inj.mp (congrArg Prod.fst hpair)).symm, (congrArg Prod.snd hpair).symm⟩

theorem as_bytes_inj {s s' : String} (h : as_bytes s = as_bytes s') : s = s' := by
  have hread := Oxrdf.plain.from_utf8_as_bytes s
  rw [h, Oxrdf.plain.from_utf8_as_bytes s'] at hread
  exact (Except.ok.inj hread).symm

theorem length_write_uvarint (k : Nat) :
    ∀ {v : Nat}, v < 128 ^ (k + 1) → (write_uvarint v).length ≤ k + 1 := by
  induction k with
  | zero =>
    intro v h
    rw [write_uvarint, if_pos (by simpa using h)]
    exact Nat.le_refl 1
  | succ k ih =>
    intro v h
    rw [write_uvarint]
    split
    · exact Nat.succ_le_succ (Nat.zero_le _)
    · have hlt : v / 128 < 128 ^ (k + 1) :=
        Nat.div_lt_of_lt_mul (by rw [Nat.mul_comm, ← Nat.pow_succ]; exact h)
      exact Nat.succ_le_succ (ih hlt)

theorem length_push_uvarint (v : UInt32) : (push_uvarint v).length ≤ 5 :=
  length_write_uvarint 4 (Nat.lt_trans v.toNat_lt (by decide))

/-- A part that holds no control character behind its first byte ends at one place, when a
control character follows within `n` bytes and no other end is as near. -/
theorem part_unique {x x' y y' : Bytes} {n : Nat} (h : x ++ y = x' ++ y')
    (hx : x ≠ [] ∧ ∀ b ∈ x.tail, 32 ≤ b.toNat) (hx' : x' ≠ [] ∧ ∀ b ∈ x'.tail, 32 ≤ b.toNat)
    (hy : ∃ b ∈ y.take n, b.toNat < 32) (hy' : ∃ b ∈ y'.take n, b.toNat < 32)
    (hfar : x.length < x'.length → x.length + n ≤ x'.length)
    (hfar' : x'.length < x.length → x'.length + n ≤ x.length) : x = x' ∧ y = y' := by
  -- A longer part would hold the control character that follows the shorter one.
  have hno : ∀ {x x' y y' : Bytes}, x ++ y = x' ++ y' → x ≠ [] →
      (∀ b ∈ x'.tail, 32 ≤ b.toNat) → (∃ b ∈ y.take n, b.toNat < 32) →
      (x.length < x'.length → x.length + n ≤ x'.length) → ¬ x.length < x'.length := by
    intro x x' y y' h hne hx' hy hfar hlt
    obtain ⟨b, hb, hctl⟩ := hy
    obtain ⟨mid, rfl, rfl⟩ : ∃ mid, x' = x ++ mid ∧ y = mid ++ y' := by
      rcases List.append_eq_append_iff.mp h with ⟨mid, h1, h2⟩ | ⟨mid, h1, h2⟩
      · exact ⟨mid, h1, h2⟩
      · rw [h1, List.length_append] at hlt
        omega
    have hn := hfar hlt
    rw [List.length_append] at hn
    rw [List.take_append_of_le_length (by omega)] at hb
    have hmem : b ∈ (x ++ mid).tail := by
      rw [List.tail_append_of_ne_nil hne]
      exact List.mem_append_right _ (List.mem_of_mem_take hb)
    have := hx' b hmem
    omega
  have h1 := hno h hx.1 hx'.2 hy hfar
  have h2 := hno h.symm hx'.1 hx.2 hy' hfar'
  exact List.append_inj h (by omega)

theorem key_subject_text (hprint : ox.Printable) (s : NamedOrBlankNode ox) :
    key_subject s ≠ [] ∧ ∀ b ∈ (key_subject s).tail, 32 ≤ b.toNat := by
  cases s with
  | NamedNode n => exact ⟨nofun, hprint n.as_str (n.held.imp id Or.inr)⟩
  | BlankNode b => exact ⟨nofun, hprint b.as_str (Or.inr b.held)⟩

theorem key_with_head (id : UInt32) (t : Term ox) : ∃ b ∈ (key_with id t).take 1, b.toNat < 32 := by
  cases t with
  | Literal lit => cases lit <;> exact ⟨_, List.mem_singleton_self _, by decide⟩
  | _ => exact ⟨_, List.mem_singleton_self _, by decide⟩

theorem far_of_mod {a b : Nat} (h : UInt32.ofNat a = UInt32.ofNat b) (hlt : a < b) :
    a + 2 ^ 32 ≤ b := by
  have hmod : a % 2 ^ 32 = b % 2 ^ 32 := by simpa using congrArg UInt32.toNat h
  omega

theorem key_named_node_inj {n n' : NamedNode ox} (h : key_named_node n = key_named_node n') :
    n = n' :=
  NamedNode.ext (as_bytes_inj (List.cons.inj h).2)

theorem key_subject_inj {s s' : NamedOrBlankNode ox} (h : key_subject s = key_subject s') :
    s = s' := by
  cases s with
  | NamedNode n =>
    cases s' with
    | NamedNode n' => rw [key_named_node_inj h]
    | BlankNode b' => exact absurd (List.cons.inj h).1 (by decide)
  | BlankNode b =>
    cases s' with
    | NamedNode n' => exact absurd (List.cons.inj h).1 (by decide)
    | BlankNode b' => rw [BlankNode.ext (as_bytes_inj (List.cons.inj h).2)]

/-- The parts of a triple term are read off its key. -/
theorem key_triple_inj (hprint : ox.Printable) {id id' : UInt32} {s s' : NamedOrBlankNode ox}
    {p p' : NamedNode ox} {o o' : Term ox}
    (h : key_with id (.Triple s p o) = key_with id' (.Triple s' p' o')) :
    s = s' ∧ p = p' ∧ key_with id o = key_with id' o' := by
  obtain ⟨hslen, hrest⟩ := push_uvarint_inj (List.cons.inj h).2
  -- Behind a subject stand at most five bytes of a length and then the tag of the predicate.
  have hnear : ∀ (p : NamedNode ox) (o : Bytes),
      ∃ b ∈ (push_uvarint (UInt32.ofNat (key_named_node p).length) ++
        (key_named_node p ++ o)).take 6, b.toNat < 32 := by
    intro p o
    refine ⟨K_URI, ?_, by decide⟩
    have hlen := length_push_uvarint (UInt32.ofNat (key_named_node p).length)
    rw [List.take_append, List.mem_append]
    right
    rw [key_named_node, List.cons_append]
    obtain ⟨k, hk⟩ : ∃ k, 6 - (push_uvarint (UInt32.ofNat (K_URI :: as_bytes p.as_str).length)).length
        = k + 1 := by
      rw [key_named_node] at hlen
      exact ⟨_, (Nat.succ_pred_eq_of_pos (by omega)).symm⟩
    rw [hk, List.take_succ_cons]
    exact List.mem_cons_self
  obtain ⟨hs, hrest⟩ := part_unique hrest (key_subject_text hprint s) (key_subject_text hprint s')
    (hnear p _) (hnear p' _) (fun hlt => by have := far_of_mod hslen hlt; omega)
    (fun hlt => by have := far_of_mod hslen.symm hlt; omega)
  obtain ⟨hplen, hrest⟩ := push_uvarint_inj hrest
  obtain ⟨hp, ho⟩ := part_unique hrest (key_subject_text hprint (.NamedNode p))
    (key_subject_text hprint (.NamedNode p')) (key_with_head id o) (key_with_head id' o')
    (fun hlt => by have := far_of_mod hplen hlt; omega)
    (fun hlt => by have := far_of_mod hplen.symm hlt; omega)
  exact ⟨key_subject_inj hs, key_named_node_inj hp, ho⟩

theorem direction_byte_inj {d d' : BaseDirection} (h : direction_byte d = direction_byte d') :
    d = d' := by
  cases d <;> cases d' <;> first | rfl | exact absurd h (by decide)

theorem key_literal_inj {id id' : UInt32} {lit lit' : Literal ox}
    (h : key_with id (.Literal lit) = key_with id' (.Literal lit')) :
    (aux_text (.Literal lit)).map Prod.fst = (aux_text (.Literal lit')).map Prod.fst ∧
      (aux_text (.Literal lit) ≠ none → id = id') ∧
      (aux_text (.Literal lit) = aux_text (.Literal lit') →
        (Term.Literal lit : Term ox) = .Literal lit') := by
  cases lit with
  | Simple value =>
    cases lit' with
    | Simple value' =>
      refine ⟨rfl, fun h => absurd rfl h, fun _ => ?_⟩
      rw [as_bytes_inj (List.cons.inj h).2]
    | _ => exact absurd (List.cons.inj h).1 (by decide)
  | LanguageTagged value lang =>
    cases lit' with
    | LanguageTagged value' lang' =>
      obtain ⟨hid, hvalue⟩ := push_uvarint_inj (List.cons.inj h).2
      refine ⟨rfl, fun _ => hid, fun haux => ?_⟩
      have hlang : lang = lang' := LanguageTag.ext (Prod.mk.inj (Option.some.inj haux)).2
      rw [as_bytes_inj hvalue, hlang]
    | _ => exact absurd (List.cons.inj h).1 (by decide)
  | DirectionalLanguageTagged value lang dir =>
    cases lit' with
    | DirectionalLanguageTagged value' lang' dir' =>
      obtain ⟨hdir, hrest⟩ := List.cons.inj (List.cons.inj h).2
      obtain ⟨hid, hvalue⟩ := push_uvarint_inj hrest
      refine ⟨rfl, fun _ => hid, fun haux => ?_⟩
      have hlang : lang = lang' := LanguageTag.ext (Prod.mk.inj (Option.some.inj haux)).2
      rw [as_bytes_inj hvalue, hlang, direction_byte_inj hdir]
    | _ => exact absurd (List.cons.inj h).1 (by decide)
  | Typed value dt other =>
    cases lit' with
    | Typed value' dt' other' =>
      obtain ⟨hid, hvalue⟩ := push_uvarint_inj (List.cons.inj h).2
      refine ⟨rfl, fun _ => hid, fun haux => ?_⟩
      have hdt : dt = dt' := NamedNode.ext (Prod.mk.inj (Option.some.inj haux)).2
      subst hdt
      rw [as_bytes_inj hvalue]
    | _ => exact absurd (List.cons.inj h).1 (by decide)

/-- Terms of one key have the same kind of text, the same id for it, and are the same when
their texts are. -/
theorem key_with_inj (hprint : ox.Printable) {id id' : UInt32} {t : Term ox} :
    ∀ {t' : Term ox}, key_with id t = key_with id' t' →
      (aux_text t).map Prod.fst = (aux_text t').map Prod.fst ∧
      (aux_text t ≠ none → id = id') ∧ (aux_text t = aux_text t' → t = t') := by
  induction t with
  | NamedNode n =>
    intro t' h
    cases t' with
    | NamedNode n' => exact ⟨rfl, fun h => absurd rfl h, fun _ => by rw [key_named_node_inj h]⟩
    | Literal lit => cases lit <;> exact absurd (List.cons.inj h).1 (by decide)
    | _ => exact absurd (List.cons.inj h).1 (by decide)
  | BlankNode b =>
    intro t' h
    cases t' with
    | BlankNode b' =>
      refine ⟨rfl, fun h => absurd rfl h, fun _ => ?_⟩
      rw [BlankNode.ext (as_bytes_inj (List.cons.inj h).2)]
    | Literal lit => cases lit <;> exact absurd (List.cons.inj h).1 (by decide)
    | _ => exact absurd (List.cons.inj h).1 (by decide)
  | Literal lit =>
    intro t' h
    cases t' with
    | Literal lit' => exact key_literal_inj h
    | _ => cases lit <;> exact absurd (List.cons.inj h).1 (by decide)
  | Triple s p o ih =>
    intro t' h
    cases t' with
    | Triple s' p' o' =>
      obtain ⟨rfl, rfl, ho⟩ := key_triple_inj hprint h
      obtain ⟨h1, h2, h3⟩ := ih ho
      exact ⟨h1, h2, fun haux => by rw [h3 haux]⟩
    | Literal lit => cases lit <;> exact absurd (List.cons.inj h).1 (by decide)
    | _ => exact absurd (List.cons.inj h).1 (by decide)

/-- With ids that are each the place of one text, a key is that of one term. -/
theorem Tables.Good.key_inj {t : Tables} (h : t.Good) (hprint : ox.Printable) {a b : Term ox}
    {k : Bytes} (ha : t.key a = some k) (hb : t.key b = some k) : a = b := by
  rw [key_eq] at ha hb
  cases haux : aux_text a with
  | none =>
    cases hbux : aux_text b with
    | none =>
      rw [haux] at ha
      rw [hbux] at hb
      cases ha
      exact ((key_with_inj hprint (Option.some.inj hb)).2.2 (by rw [haux, hbux])).symm
    | some y =>
      obtain ⟨auxb, sb⟩ := y
      rw [haux] at ha
      rw [hbux] at hb
      obtain ⟨id, _, hk⟩ := Option.map_eq_some_iff.mp hb
      cases ha
      have := (key_with_inj hprint hk).1
      rw [haux, hbux] at this
      cases this
  | some x =>
    obtain ⟨auxa, sa⟩ := x
    rw [haux] at ha
    obtain ⟨id, hid, hk⟩ := Option.map_eq_some_iff.mp ha
    cases hbux : aux_text b with
    | none =>
      rw [hbux] at hb
      cases hb
      have := (key_with_inj hprint hk).1
      rw [haux, hbux] at this
      cases this
    | some y =>
      obtain ⟨auxb, sb⟩ := y
      rw [hbux] at hb
      obtain ⟨id', hid', hk'⟩ := Option.map_eq_some_iff.mp hb
      obtain ⟨h1, h2, h3⟩ := key_with_inj hprint (hk.trans hk'.symm)
      rw [haux, hbux] at h1 h3
      cases h1
      have hids : id = id' := h2 (by rw [haux]; nofun)
      rw [← hids] at hid'
      exact h3 (by rw [(h.table auxa).inj hid hid'])

end horndb.storage
