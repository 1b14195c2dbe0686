-- What a load keeps of the blank nodes that it interns: an id names a term with the same
-- blank nodes at the same places, whatever the side tables of the dictionary do.
import HornDb.Loader
import HornDb.DictionarySpec

open Std HornDb.Lib.Wire HornDb.Lib.Effects

namespace horndb.storage

variable {ox : Oxrdf} {fst : FstLib}

/-! ## The blank nodes of a term -/

/-- A step into a triple term. Its predicate is an IRI. -/
inductive Side where
  | Subject
  | Object
deriving DecidableEq, Repr

def NamedOrBlankNode.blank : NamedOrBlankNode ox → Option (horndb.storage.BlankNode ox)
  | .NamedNode _ => none
  | .BlankNode b => some b

/-- The blank node at a place of a term. -/
def Term.blank_at : Term ox → List Side → Option (horndb.storage.BlankNode ox)
  | .NamedNode _, _ => none
  | .BlankNode b, path => if path = [] then some b else none
  | .Literal _, _ => none
  | .Triple s _ o, path =>
    match path with
    | [] => none
    | .Subject :: path => if path = [] then s.blank else none
    | .Object :: path => blank_at o path

/-- Terms of one key have the same blank nodes. -/
theorem blank_at_of_key (hprint : ox.Printable) {id id' : UInt32} {t : Term ox} :
    ∀ {t' : Term ox}, key_with id t = key_with id' t' → t.blank_at = t'.blank_at := by
  induction t with
  | NamedNode n =>
    intro t' h
    cases t' with
    | NamedNode n' => rfl
    | Literal lit => rfl
    | _ => exact absurd (List.cons.inj h).1 (by decide)
  | BlankNode b =>
    intro t' h
    cases t' with
    | BlankNode b' => rw [BlankNode.ext (as_bytes_inj (List.cons.inj h).2)]
    | Literal lit => cases lit <;> exact absurd (List.cons.inj h).1 (by decide)
    | _ => exact absurd (List.cons.inj h).1 (by decide)
  | Literal lit =>
    intro t' h
    cases t' with
    | NamedNode n' => rfl
    | Literal lit' => rfl
    | _ => cases lit <;> exact absurd (List.cons.inj h).1 (by decide)
  | Triple s p o ih =>
    intro t' h
    cases t' with
    | Triple s' p' o' =>
      obtain ⟨rfl, rfl, ho⟩ := key_triple_inj hprint h
      have hinner := ih ho
      funext path
      unfold Term.blank_at
      simp only [hinner]
    | Literal lit => cases lit <;> exact absurd (List.cons.inj h).1 (by decide)
    | _ => exact absurd (List.cons.inj h).1 (by decide)

/-! ## The dictionary of a load -/

namespace Dictionary

/-- The key of a blank node. -/
def blank_key (b : BlankNode ox) : Bytes := K_BLANK :: as_bytes b.as_str

/-- There is no base, and each key leads to a term that may have it. -/
structure Named (d : Dictionary ox fst) : Prop where
  no_base : d.base = none
  base_len : d.base_len = 0
  keyed : ∀ k id, d.forward[k]? = some id → ∃ u n, d.lookup id = .ok (some u) ∧ k = key_with n u

/-- The id names a term with the blank nodes of `t`; a blank node is found under its key. -/
structure Names (d : Dictionary ox fst) (id : TermId) (t : Term ox) : Prop where
  stored : ∃ u, d.lookup id = .ok (some u) ∧ u.blank_at = t.blank_at
  blank : ∀ b, t = .BlankNode b → d.forward[blank_key b]? = some id

/-- What was found is found. -/
structure Grows (d d' : Dictionary ox fst) : Prop where
  lookup : ∀ id u, d.lookup id = .ok (some u) → d'.lookup id = .ok (some u)
  forward : ∀ (k : Bytes) (id : TermId),
    d.forward[k]? = some id → d'.forward[k]? = some id

variable {d d' : Dictionary ox fst}

theorem Grows.refl (d : Dictionary ox fst) : Grows d d := ⟨fun _ _ h => h, fun _ _ h => h⟩

theorem Grows.trans {d₁ d₂ d₃ : Dictionary ox fst} (h : Grows d₁ d₂) (h' : Grows d₂ d₃) :
    Grows d₁ d₃ :=
  ⟨fun id u hu => h'.lookup id u (h.lookup id u hu),
    fun k id hk => h'.forward k id (h.forward k id hk)⟩

theorem Names.grows {id : TermId} {t : Term ox} (h : Names d id t) (hg : Grows d d') :
    Names d' id t := by
  obtain ⟨u, hu, hblank⟩ := h.stored
  exact ⟨⟨u, hg.lookup id u hu, hblank⟩, fun b hb => hg.forward _ id (h.blank b hb)⟩

theorem new_named : (new : Dictionary ox fst).Named where
  no_base := rfl
  base_len := rfl
  keyed k id h := by
    have hempty : (new : Dictionary ox fst).forward[k]? = none := ExtTreeMap.getElem?_empty
    rw [hempty] at h
    cases h

/-- The side tables play no part in a lookup. -/
theorem Named.set_tables (h : d.Named) (tables : Tables) :
    Named { d with tables } ∧ Grows d { d with tables } :=
  ⟨⟨h.no_base, h.base_len, h.keyed⟩, ⟨fun _ _ hu => hu, fun _ _ hk => hk⟩⟩

theorem Named.base_get_eq (h : d.Named) (t : Term ox) : d.base_get t = none := by
  unfold base_get
  rw [h.no_base]

/-- The key of a term is that of some id of its text. -/
theorem key_of_encode {tables : Tables} {mode : AuxMode} {t : Term ox} {k : Bytes}
    (h : (tables.encode_into mode t).2 = some k) : ∃ n, k = key_with n t := by
  rw [Tables.encode_into_eq] at h
  split at h
  · cases h
    exact ⟨0, rfl⟩
  · obtain ⟨n, _, hn⟩ := Option.map_eq_some_iff.mp h
    exact ⟨n, hn.symm⟩

theorem key_of_blank {tables : Tables} {mode : AuxMode} {b : BlankNode ox} {k : Bytes}
    (h : (tables.encode_into mode (.BlankNode b)).2 = some k) : k = blank_key b :=
  (Option.some.inj h).symm

/-- A found key gives an id that names the term. -/
theorem Named.found (h : d.Named) (hprint : ox.Printable) {tables : Tables} {mode : AuxMode}
    {t : Term ox} {k : Bytes} {id : TermId} (hk : (tables.encode_into mode t).2 = some k)
    (hid : d.forward[k]? = some id) : Names d id t := by
  obtain ⟨u, n, hu, hku⟩ := h.keyed k id hid
  obtain ⟨m, hkt⟩ := key_of_encode hk
  refine ⟨⟨u, hu, blank_at_of_key hprint (hku.symm.trans hkt)⟩, ?_⟩
  intro b hb
  subst hb
  rw [← key_of_blank hk, hid]

/-- The id of a small integer names its literal. -/
theorem names_inline {t : Term ox} {id : TermId} (h : try_inline_int t = some id) :
    Names d id t := by
  obtain ⟨v, rfl, hterm⟩ := try_inline_int_eq h
  refine ⟨⟨t, lookup_inline hterm, rfl⟩, ?_⟩
  intro b hb
  subst hb
  cases h

theorem Named.resolve_eq (h : d.Named) (idx : Nat) :
    d.resolve idx = if idx = 0 then none else d.terms[idx - 1]?.join := by
  unfold resolve
  rw [h.base_len]
  split
  · rfl
  · rw [if_neg (by omega), Nat.sub_zero]

/-- The dictionary with one more term, under a key that it did not have. -/
def with_term (d : Dictionary ox fst) (k : Bytes) (t : Term ox) : Dictionary ox fst :=
  { d with
    terms := d.terms ++ [some t]
    forward := d.forward.insert k (TermId.new (kind_of t) (d.terms.length + 1)) }

theorem Named.resolve_with_term (h : d.Named) (k : Bytes) (t : Term ox) (idx : Nat) :
    (d.with_term k t).resolve idx =
      if idx = 0 then none else (d.terms ++ [some t])[idx - 1]?.join := by
  unfold resolve with_term
  dsimp only
  rw [h.base_len]
  split
  · rfl
  · rw [if_neg (by omega), Nat.sub_zero]

theorem Named.lookup_with_term (h : d.Named) (k : Bytes) (t : Term ox) {id : TermId} {u : Term ox}
    (hu : d.lookup id = .ok (some u)) : (d.with_term k t).lookup id = .ok (some u) := by
  have hslot : ∀ idx, d.resolve idx = some u → (d.with_term k t).resolve idx = some u := by
    intro idx hidx
    rw [h.resolve_eq] at hidx
    rw [h.resolve_with_term]
    split at hidx
    · cases hidx
    · rename_i hzero
      rw [Option.join_eq_some_iff] at hidx
      obtain ⟨hlt, _⟩ := List.getElem?_eq_some_iff.mp hidx
      rw [if_neg hzero, List.getElem?_append_left hlt, hidx]
      rfl
  unfold lookup at hu ⊢
  split
  · rename_i hkind
    rw [hkind] at hu
    exact hu
  · rename_i hkind
    rw [hkind] at hu
    exact hu
  · rename_i kind hinline hkind
    rw [hkind] at hu
    cases kind with
    | InlineInt => exact (hinline rfl).elim
    | _ => rw [hslot _ (Except.ok.inj hu)]

theorem Named.lookup_new (h : d.Named) (k : Bytes) (t : Term ox)
    (hroom : d.terms.length + 1 < MAX_DICT_INDEX) :
    (d.with_term k t).lookup (TermId.new (kind_of t) (d.terms.length + 1)) = .ok (some t) := by
  have hslot : (d.with_term k t).resolve (d.terms.length + 1) = some t := by
    rw [h.resolve_with_term, if_neg (Nat.succ_ne_zero _), Nat.add_sub_cancel,
      List.getElem?_append_right (Nat.le_refl _), Nat.sub_self]
    rfl
  unfold lookup
  rw [TermId.kind_new hroom, TermId.payload_new hroom, hslot]
  cases t with
  | Literal lit => cases lit <;> rfl
  | _ => rfl

theorem Named.with_term (h : d.Named) {k : Bytes} {t : Term ox} {n : UInt32}
    (hk : k = key_with n t) (hnew : d.forward[k]? = none)
    (hroom : d.terms.length + 1 < MAX_DICT_INDEX) :
    (d.with_term k t).Named ∧ Grows d (d.with_term k t) := by
  refine ⟨⟨h.no_base, h.base_len, ?_⟩, ⟨fun id u hu => h.lookup_with_term k t hu, ?_⟩⟩
  · intro k' id hid
    unfold Dictionary.with_term at hid
    rw [ExtTreeMap.getElem?_insert] at hid
    split at hid
    · rename_i heq
      cases hid
      refine ⟨t, n, h.lookup_new k t hroom, ?_⟩
      rw [← hk]
      exact (by simpa using heq : k = k').symm
    · obtain ⟨u, m, hu, hku⟩ := h.keyed k' id hid
      exact ⟨u, m, h.lookup_with_term k t hu, hku⟩
  · intro k' id hid
    unfold Dictionary.with_term
    rw [ExtTreeMap.getElem?_insert]
    split
    · rename_i heq
      have heq : k = k' := by simpa using heq
      rw [heq, hid] at hnew
      cases hnew
    · exact hid

/-- A term that no key led to gets an id of its own. -/
theorem Named.intern_miss (h : d.Named) {k : Bytes} {t : Term ox} {n : UInt32}
    (hk : k = key_with n t) (hnew : d.forward[k]? = none) {d' : Dictionary ox fst}
    {out : Outcome TermId} (hout : d.intern_miss k t = (d', out)) :
    d'.Named ∧ Grows d d' ∧
      ∀ id, out = .ok id → d'.forward[k]? = some id ∧ d'.lookup id = .ok (some t) := by
  have hnext : d.base_len + d.terms.length + 1 = d.terms.length + 1 := by
    rw [h.base_len, Nat.zero_add]
  unfold Dictionary.intern_miss at hout
  rw [hnew] at hout
  dsimp only at hout
  rw [hnext] at hout
  split at hout
  · cases hout
    exact ⟨h, .refl d, nofun⟩
  · rename_i hroom
    have hlt : d.terms.length + 1 < MAX_DICT_INDEX := Nat.lt_of_not_le hroom
    cases hout
    obtain ⟨hnamed, hgrow⟩ := h.with_term hk hnew hlt
    refine ⟨hnamed, hgrow, ?_⟩
    intro id hid
    cases hid
    exact ⟨ExtTreeMap.getElem?_insert_self, h.lookup_new k t hlt⟩

/-- Interning a term gives an id that names it. -/
theorem Named.intern (h : d.Named) (hprint : ox.Printable) {t : Term ox}
    {d' : Dictionary ox fst} {out : Outcome TermId} (hout : d.intern t = (d', out)) :
    d'.Named ∧ Grows d d' ∧ ∀ id, out = .ok id → Names d' id t := by
  unfold Dictionary.intern at hout
  split at hout
  · rename_i id hid
    cases hout
    refine ⟨h, .refl d, ?_⟩
    intro id' hid'
    cases hid'
    exact names_inline hid
  · split at hout
    · rename_i tables hkey
      cases hout
      obtain ⟨hnamed, hgrow⟩ := h.set_tables tables
      exact ⟨hnamed, hgrow, nofun⟩
    · rename_i tables k hkey
      obtain ⟨hnamed, hgrow⟩ := h.set_tables tables
      have hk : (d.tables.encode_into .Intern t).2 = some k := by rw [hkey]
      dsimp only at hout
      split at hout
      · rename_i id hid
        cases hout
        refine ⟨hnamed, hgrow, ?_⟩
        intro id' hid'
        cases hid'
        exact hnamed.found hprint hk hid
      · rename_i hnew
        rw [hnamed.base_get_eq] at hout
        obtain ⟨n, hn⟩ := key_of_encode hk
        obtain ⟨hnamed', hgrow', hid⟩ := hnamed.intern_miss hn hnew hout
        refine ⟨hnamed', hgrow.trans hgrow', ?_⟩
        intro id hout'
        obtain ⟨hforward, hlookup⟩ := hid id hout'
        refine ⟨⟨t, hlookup, rfl⟩, ?_⟩
        intro b hb
        subst hb
        rw [← key_of_blank hk, hforward]

/-- A probe that finds an id finds one that names the term. -/
theorem Named.get (h : d.Named) (hprint : ox.Printable) {t : Term ox} {id : TermId}
    (hget : d.get t = some id) : Names d id t := by
  unfold Dictionary.get at hget
  split at hget
  · rename_i id' hid
    cases hget
    exact names_inline hid
  · split at hget
    · rename_i id' hid
      cases hget
      obtain ⟨k, hk, hid⟩ := Option.bind_eq_some_iff.mp hid
      exact h.found hprint hk hid
    · rw [h.base_get_eq] at hget
      cases hget

end Dictionary

end horndb.storage
