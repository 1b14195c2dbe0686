-- The lookup keys over a run of interned terms: one key for one term, whenever it is
-- computed, as long as no side table has more texts than there are ids.
import HornDb.DictionaryRuns

open Std HornDb.Lib HornDb.Lib.Wire

namespace horndb.storage

/-! ## Ids without a bound -/

namespace AuxTable

/-- The texts are listed once each, and each has the place where it stands as its id, cut to
32 bits. -/
structure Numbered (t : AuxTable) : Prop where
  once : t.order.Nodup
  given : ∀ i s, t.order[i]? = some s → t.get s = some (UInt32.ofNat i)
  listed : ∀ s id, t.get s = some id → s ∈ t.order

variable {t : AuxTable} {s s' : String}

theorem new_numbered : new.Numbered := by
  refine ⟨List.nodup_nil, fun i s h => ?_, fun s id h => ?_⟩
  · rw [new, List.getElem?_nil] at h
    cases h
  · rw [get, new, ExtTreeMap.getElem?_empty] at h
    cases h

theorem Numbered.get_of_mem (h : t.Numbered) (hs : s ∈ t.order) : ∃ id, t.get s = some id := by
  obtain ⟨i, hi⟩ := List.mem_iff_getElem?.mp hs
  exact ⟨_, h.given i s hi⟩

theorem intern_order (t : AuxTable) (s : String) :
    (t.intern s).1.order = if t.get s = none then t.order ++ [s] else t.order := by
  unfold intern
  split
  · rename_i id hid
    rw [hid, if_neg nofun]
  · rename_i hnone
    rw [if_pos hnone]

theorem Numbered.mem_intern (h : t.Numbered) (s s' : String) :
    s' ∈ (t.intern s).1.order ↔ s' ∈ t.order ∨ s' = s := by
  rw [intern_order]
  split
  · rw [List.mem_append, List.mem_singleton]
  · rename_i hsome
    obtain ⟨id, hid⟩ := Option.ne_none_iff_exists'.mp hsome
    refine ⟨Or.inl, fun hmem => ?_⟩
    rcases hmem with hmem | rfl
    · exact hmem
    · exact h.listed s' id hid

theorem Numbered.intern (h : t.Numbered) (s : String) : (t.intern s).1.Numbered := by
  cases hs : t.get s with
  | some id =>
    rw [intern_of_get hs]
    exact h
  | none =>
    have hnew : s ∉ t.order := by
      intro hmem
      obtain ⟨id, hid⟩ := h.get_of_mem hmem
      rw [hs] at hid
      cases hid
    refine ⟨?_, fun i s' hi => ?_, fun s' id hid => (h.mem_intern s s').mpr ?_⟩
    · rw [intern_order, if_pos hs]
      exact List.nodup_append_comm.mp (List.nodup_cons.mpr ⟨hnew, h.once⟩)
    · rw [intern_order, if_pos hs] at hi
      by_cases hold : i < t.order.length
      · rw [List.getElem?_append_left hold] at hi
        exact get_intern_of_get (h.given i s' hi)
      · rw [List.getElem?_append_right (Nat.not_lt.mp hold)] at hi
        obtain ⟨hlast, rfl⟩ := List.getElem?_eq_some_iff.mp hi
        have hi : i = t.order.length := by
          rw [List.length_singleton] at hlast
          omega
        rw [List.getElem_singleton, get_intern]
        unfold AuxTable.intern
        rw [hs, hi]
    · by_cases heq : s' = s
      · exact Or.inr heq
      · unfold AuxTable.intern at hid
        rw [hs] at hid
        dsimp only at hid
        rw [get, ExtTreeMap.getElem?_insert, if_neg (by simpa using Ne.symm heq)] at hid
        exact Or.inl (h.listed s' id hid)

/-- With no more texts than ids the ids are the places. -/
theorem Numbered.good (h : t.Numbered) (hfits : t.order.length ≤ 2 ^ 32) : t.Good := by
  refine ⟨fun s id hid => ?_, hfits⟩
  obtain ⟨i, hi⟩ := List.mem_iff_getElem?.mp (h.listed s id hid)
  have hlt : i < t.order.length := (List.getElem?_eq_some_iff.mp hi).1
  have hplace := h.given i s hi
  rw [hid] at hplace
  cases hplace
  rw [UInt32.toNat_ofNat', Nat.mod_eq_of_lt (Nat.lt_of_lt_of_le hlt hfits)]
  exact hi

/-- With more texts than ids two texts have one id. -/
theorem Numbered.shared (h : t.Numbered) (hover : 2 ^ 32 < t.order.length) :
    ∃ s s' id, s ≠ s' ∧ s ∈ t.order ∧ s' ∈ t.order ∧ t.get s = some id ∧ t.get s' = some id := by
  have hzero : 0 < t.order.length := Nat.lt_trans (Nat.two_pow_pos 32) hover
  have hfirst := List.getElem?_eq_getElem hzero
  have hlast := List.getElem?_eq_getElem hover
  refine ⟨t.order[0], t.order[2 ^ 32], 0, fun heq => ?_, List.getElem_mem _, List.getElem_mem _,
    h.given 0 _ hfirst, h.given (2 ^ 32) _ hlast⟩
  exact absurd ((h.once.getElem_inj_iff).mp heq) (by decide)

end AuxTable

namespace Tables

variable {ox : Oxrdf}

structure Numbered (t : Tables) : Prop where
  datatypes : t.datatypes.Numbered
  languages : t.languages.Numbered

theorem Numbered.table {t : Tables} (h : t.Numbered) (aux : Aux) : (t.table aux).Numbered := by
  cases aux
  · exact h.datatypes
  · exact h.languages

/-- The texts of one side table that a term carries: one or none. -/
def text_in (aux : Aux) (t : Term ox) : Option String :=
  (aux_text t).bind fun a => if a.1 = aux then some a.2 else none

/-- What interning a term does to a side table. -/
theorem table_encode_into (t : Tables) (aux : Aux) (term : Term ox) :
    ((t.encode_into .Intern term).1.table aux) =
      match text_in aux term with
      | none => t.table aux
      | some s => ((t.table aux).intern s).1 := by
  rw [encode_into_eq, text_in]
  cases h : aux_text term with
  | none => rfl
  | some a =>
    obtain ⟨aux', s⟩ := a
    dsimp only [aux_id, Option.bind_some]
    rw [table_set_table]
    by_cases heq : aux' = aux
    · rw [if_pos heq, if_pos heq, heq]
    · rw [if_neg heq, if_neg heq]

theorem Numbered.encode_into {t : Tables} (h : t.Numbered) (term : Term ox) :
    (t.encode_into .Intern term).1.Numbered := by
  have htable : ∀ aux, ((t.encode_into .Intern term).1.table aux).Numbered := by
    intro aux
    rw [table_encode_into]
    split
    · exact h.table aux
    · exact (h.table aux).intern _
  exact ⟨htable .Datatype, htable .Language⟩

/-! ## Runs -/

/-- The side tables after the terms were interned in their order. A lookup leaves them as
they are. -/
def interned (ts : List (Term ox)) : Tables :=
  ts.foldl (fun t term => (t.encode_into .Intern term).1) .new

theorem interned_snoc (ts : List (Term ox)) (term : Term ox) :
    interned (ts ++ [term]) = ((interned ts).encode_into .Intern term).1 := by
  rw [interned, List.foldl_append]
  rfl

theorem interned_numbered (ts : List (Term ox)) : (interned ts).Numbered := by
  induction ts using List.reverseRecOn with
  | nil => exact ⟨AuxTable.new_numbered, AuxTable.new_numbered⟩
  | append_singleton ts term ih =>
    rw [interned_snoc]
    exact ih.encode_into term

/-- The texts of a side table are those of the terms. -/
theorem mem_interned (ts : List (Term ox)) (aux : Aux) (s : String) :
    s ∈ ((interned ts).table aux).order ↔ s ∈ ts.filterMap (text_in aux) := by
  induction ts using List.reverseRecOn with
  | nil => cases aux <;> exact Iff.rfl
  | append_singleton ts term ih =>
    rw [interned_snoc, table_encode_into, List.filterMap_append, List.mem_append, ← ih]
    cases h : text_in aux term with
    | none => simp [h]
    | some s' =>
      rw [((interned_numbered ts).table aux).mem_intern]
      simp [h]

/-- How many texts a run puts in a side table. -/
def texts (ts : List (Term ox)) (aux : Aux) : Nat := (ts.filterMap (text_in aux)).dedup.length

theorem length_interned (ts : List (Term ox)) (aux : Aux) :
    ((interned ts).table aux).order.length = texts ts aux := by
  apply List.Perm.length_eq
  rw [List.perm_ext_iff_of_nodup ((interned_numbered ts).table aux).once (List.nodup_dedup _)]
  intro s
  rw [mem_interned, List.mem_dedup]

/-- A key that a term has stays when more terms are interned. -/
theorem key_interned_append (ts more : List (Term ox)) {u : Term ox} {k : Bytes}
    (h : (interned ts).key u = some k) : (interned (ts ++ more)).key u = some k := by
  induction more using List.reverseRecOn with
  | nil => rwa [List.append_nil]
  | append_singleton more term ih =>
    rw [← List.append_assoc, interned_snoc]
    exact key_of_intern ih

theorem key_take (ts : List (Term ox)) {i j : Nat} (hij : i ≤ j) {u : Term ox} {k : Bytes}
    (h : (interned (ts.take i)).key u = some k) : (interned (ts.take j)).key u = some k := by
  have hsplit : ts.take j = ts.take i ++ (ts.take j).drop i := by
    have hdrop := List.take_append_drop i (ts.take j)
    rw [List.take_take, Nat.min_eq_left hij] at hdrop
    exact hdrop.symm
  rw [hsplit]
  exact key_interned_append _ _ h

/-- What the keys of a run are to be. A key is looked up, by `key`, at any moment of the run. -/
structure KeysSound (ts : List (Term ox)) : Prop where
  /-- Two terms never have one key, whenever each is computed. -/
  one_term : ∀ i j (a b : Term ox) k, (interned (ts.take i)).key a = some k →
    (interned (ts.take j)).key b = some k → a = b
  /-- The key of a term stays. -/
  kept : ∀ i j (a : Term ox) k, i ≤ j → (interned (ts.take i)).key a = some k →
    (interned (ts.take j)).key a = some k
  /-- An interned term has a key, and every lookup after it gives this key. -/
  found : ∀ i t, ts[i]? = some t →
    ∃ k, ((interned (ts.take i)).encode_into .Intern t).2 = some k ∧
      ∀ j, i < j → (interned (ts.take j)).key t = some k

theorem keys_sound (hprint : ox.Printable) (ts : List (Term ox))
    (hfits : ∀ aux, texts ts aux ≤ 2 ^ 32) : KeysSound ts where
  one_term i j a b k ha hb := by
    have hgood : (interned ts).Good := by
      refine ⟨((interned_numbered ts).table .Datatype).good ?_,
        ((interned_numbered ts).table .Language).good ?_⟩
      · rw [length_interned]
        exact hfits .Datatype
      · rw [length_interned]
        exact hfits .Language
    have hlast : ∀ {i : Nat} {u : Term ox}, (interned (ts.take i)).key u = some k →
        (interned ts).key u = some k := by
      intro i u hu
      have := key_interned_append (ts.take i) (ts.drop i) hu
      rwa [List.take_append_drop] at this
    exact hgood.key_inj hprint (hlast ha) (hlast hb)
  kept i j a k hij ha := key_take ts hij ha
  found i t ht := by
    obtain ⟨k, hk, hkey⟩ := encode_into_intern (interned (ts.take i)) t
    refine ⟨k, hk, fun j hij => key_take ts hij ?_⟩
    rwa [List.take_add_one, ht, Option.toList_some, interned_snoc]

/-! ## More texts than ids -/

/-- A literal of the empty value, for a text that some term carries. -/
theorem bare_literal {t : Term ox} {aux : Aux} {s : String} (h : aux_text t = some (aux, s)) :
    ∃ a : Term ox, aux_text a = some (aux, s) ∧ ∀ id, key_with id a =
      (if aux = .Datatype then K_TYPED else K_LANG) :: (push_uvarint id ++ as_bytes "") := by
  induction t with
  | NamedNode n => cases h
  | BlankNode b => cases h
  | Literal lit =>
    cases lit with
    | Simple value => cases h
    | Typed value dt other =>
      cases h
      exact ⟨.Literal (.Typed "" dt other), rfl, fun _ => rfl⟩
    | LanguageTagged value lang =>
      cases h
      exact ⟨.Literal (.LanguageTagged "" lang), rfl, fun _ => rfl⟩
    | DirectionalLanguageTagged value lang dir =>
      cases h
      exact ⟨.Literal (.LanguageTagged "" lang), rfl, fun _ => rfl⟩
  | Triple s p o ih => exact ih h

theorem keys_unsound (ts : List (Term ox)) {aux : Aux} (hover : 2 ^ 32 < texts ts aux) :
    ¬ KeysSound ts := by
  rw [← length_interned] at hover
  obtain ⟨s, s', id, hne, hs, hs', hid, hid'⟩ :=
    ((interned_numbered ts).table aux).shared hover
  have hcarried : ∀ {s : String}, s ∈ ((interned ts).table aux).order →
      ∃ t : Term ox, aux_text t = some (aux, s) := by
    intro s hmem
    rw [mem_interned, List.mem_filterMap] at hmem
    obtain ⟨t, _, ht⟩ := hmem
    obtain ⟨⟨aux', s'⟩, haux, heq⟩ := Option.bind_eq_some_iff.mp ht
    split at heq
    · rename_i hsame
      cases heq
      exact ⟨t, hsame ▸ haux⟩
    · cases heq
  obtain ⟨t, ht⟩ := hcarried hs
  obtain ⟨t', ht'⟩ := hcarried hs'
  obtain ⟨a, ha, hkey⟩ := bare_literal ht
  obtain ⟨b, hb, hkey'⟩ := bare_literal ht'
  intro hsound
  have hall : ts.take ts.length = ts := List.take_length
  have hkeya : (interned (ts.take ts.length)).key a = some (key_with id a) := by
    rw [hall, key_eq, ha]
    dsimp only
    rw [hid]
    rfl
  have hkeyb : (interned (ts.take ts.length)).key b = some (key_with id a) := by
    rw [hall, key_eq, hb, hkey, ← hkey']
    dsimp only
    rw [hid']
    rfl
  have hab := hsound.one_term _ _ a b _ hkeya hkeyb
  rw [hab, hb] at ha
  exact hne (Prod.mk.inj (Option.some.inj ha)).2.symm

/-- The keys of a run are sound just when it brings no more than 2^32 datatypes and no more
than 2^32 languages. -/
theorem keys_sound_iff (hprint : ox.Printable) (ts : List (Term ox)) :
    KeysSound ts ↔ ∀ aux, texts ts aux ≤ 2 ^ 32 := by
  refine ⟨fun hsound aux => ?_, keys_sound hprint ts⟩
  by_contra hover
  exact keys_unsound ts (Nat.not_le.mp hover) hsound

/-- Two names, a typed literal and a triple term that has it as its object. -/
def typed_in_triple : List (Term .plain) :=
  [Dictionary.History.node.term, Dictionary.History.numbered_term 0,
    .Triple (.NamedNode ⟨"ex:s", Oxrdf.held_ex_s⟩) ⟨"ex:s", Oxrdf.held_ex_s⟩
      (Dictionary.History.numbered_term 0)]

theorem typed_in_triple_sound : KeysSound typed_in_triple := by
  refine (keys_sound_iff Oxrdf.plain_printable typed_in_triple).mpr fun aux => ?_
  have hlen : texts typed_in_triple aux ≤ typed_in_triple.length :=
    Nat.le_trans (List.dedup_sublist _).length_le (List.length_filterMap_le _ _)
  exact Nat.le_trans hlen (by decide)

/-- The numbered terms, as many as are asked for. -/
def numbered_terms (n : Nat) : List (Term .plain) :=
  (List.range n).map fun i => Dictionary.History.numbered_term (UInt64.ofNat i)

theorem texts_numbered {n : Nat} (hn : n < 2 ^ 64) : texts (numbered_terms n) .Datatype = n := by
  have htexts : (numbered_terms n).filterMap (text_in .Datatype) =
      (List.range n).map fun i => Dictionary.History.numbered_text (UInt64.ofNat i) := by
    rw [numbered_terms, List.filterMap_map, ← List.filterMap_eq_map]
    rfl
  have hnodup : ((List.range n).map fun i =>
      Dictionary.History.numbered_text (UInt64.ofNat i)).Nodup := by
    refine (List.nodup_map_iff_inj_on List.nodup_range).mpr fun i hi j hj heq => ?_
    rw [List.mem_range] at hi hj
    exact Dictionary.History.numbered_text_inj (Nat.lt_trans hi hn) (Nat.lt_trans hj hn) heq
  rw [texts, htexts, hnodup.dedup, List.length_map, List.length_range]

/-- One datatype more than there are ids: two literals have one key. -/
theorem types_share_key : ¬ KeysSound (numbered_terms (2 ^ 32 + 1)) := by
  have hcount : texts (numbered_terms (2 ^ 32 + 1)) .Datatype = 2 ^ 32 + 1 :=
    texts_numbered (by decide)
  exact keys_unsound _ (Nat.lt_of_lt_of_eq (Nat.lt_succ_self _) hcount.symm)

end Tables

end horndb.storage
