-- The triple store of the rule engine: what is asserted, what is inferred and from what, and
-- the deltas of new triples that its rounds apply.
import Mathlib

open Std (ExtTreeMap ExtTreeSet TransOrd TransCmp LawfulEqOrd)

namespace horndb.owlrl

abbrev TermId := Nat

structure Triple where
  s : TermId
  p : TermId
  o : TermId
deriving DecidableEq, Repr

namespace Triple

def order : Triple → Triple → Ordering :=
  compareLex (compareOn Triple.s) (compareLex (compareOn Triple.p) (compareOn Triple.o))

instance : Ord Triple := ⟨order⟩

instance : TransOrd Triple :=
  inferInstanceAs (TransCmp (compareLex (compareOn Triple.s)
    (compareLex (compareOn Triple.p) (compareOn Triple.o))))

instance : LawfulEqOrd Triple where
  eq_of_compare := by
    intro a b h
    obtain ⟨s, p, o⟩ := a
    obtain ⟨s', p', o'⟩ := b
    rw [show compare (Triple.mk s p o) ⟨s', p', o'⟩ =
      (compare s s').then ((compare p p').then (compare o o')) from rfl,
      Ordering.then_eq_eq, Ordering.then_eq_eq] at h
    obtain ⟨hs, hp, ho⟩ := h
    rw [LawfulEqOrd.eq_of_compare hs, LawfulEqOrd.eq_of_compare hp,
      LawfulEqOrd.eq_of_compare ho]

end Triple

/-- Pairs of ids sort as tuples do. -/
instance : Ord (TermId × TermId) := lexOrd

/-- A resolved restriction: at most `max` values of the property for an instance of the class. -/
structure MaxCardRestriction where
  «class» : TermId
  property : TermId
  max : Nat
deriving DecidableEq, Repr

/-- As above, where only the values that are instances of the filler count. -/
structure QualMaxCardRestriction where
  «class» : TermId
  property : TermId
  filler : TermId
  max : Nat
deriving DecidableEq, Repr

abbrev RuleId := String

structure Provenance where
  rule_id : RuleId
  premises : List Triple
deriving DecidableEq, Repr

/-- The ids of the vocabulary terms that the engine reads. -/
structure Vocabulary where
  rdf_type : TermId
  rdf_first : TermId
  rdf_rest : TermId
  rdf_nil : TermId
  rdfs_sub_class_of : TermId
  rdfs_sub_property_of : TermId
  rdfs_domain : TermId
  rdfs_range : TermId
  owl_class : TermId
  owl_thing : TermId
  owl_nothing : TermId
  owl_same_as : TermId
  owl_different_from : TermId
  owl_equivalent_class : TermId
  owl_equivalent_property : TermId
  owl_inverse_of : TermId
  owl_functional_property : TermId
  owl_inverse_functional_property : TermId
  owl_symmetric_property : TermId
  owl_transitive_property : TermId
  owl_irreflexive_property : TermId
  owl_reflexive_property : TermId
  owl_asymmetric_property : TermId
  owl_property_disjoint_with : TermId
  owl_disjoint_with : TermId
  owl_complement_of : TermId
  owl_intersection_of : TermId
  owl_union_of : TermId
  owl_some_values_from : TermId
  owl_all_values_from : TermId
  owl_has_value : TermId
  owl_on_property : TermId
  owl_max_cardinality : TermId
  owl_max_qualified_cardinality : TermId
  owl_on_class : TermId
  owl_source_individual : TermId
  owl_assertion_property : TermId
  owl_target_individual : TermId
  owl_target_value : TermId
  owl_object_property : TermId
  owl_property_chain_axiom : TermId
  owl_has_key : TermId
  owl_all_disjoint_classes : TermId
  owl_all_disjoint_properties : TermId
  owl_all_different : TermId
  owl_members : TermId
  owl_distinct_members : TermId
  owl_named_individual : TermId
  skos_exact_match : TermId
  skos_close_match : TermId
  skos_broad_match : TermId
  skos_narrow_match : TermId
  skos_related_match : TermId
  semapv_cross_species_exact_match : TermId
  semapv_cross_species_narrow_match : TermId
  semapv_cross_species_broad_match : TermId
  semapv_mapping_chaining : TermId
  semapv_mapping_inversion : TermId
  sssom_mapping : TermId
  sssom_subject_id : TermId
  sssom_predicate_id : TermId
  sssom_object_id : TermId
  sssom_mapping_justification : TermId
  sssom_confidence : TermId
  sssom_predicate_modifier : TermId
  sssom_derived_from : TermId
  horndb_not_exact_match : TermId
deriving DecidableEq, Repr

/-- Consecutive ids from `base` on. -/
def Vocabulary.synthetic (base : Nat) : Vocabulary where
  rdf_type := base
  rdf_first := base + 1
  rdf_rest := base + 2
  rdf_nil := base + 3
  rdfs_sub_class_of := base + 4
  rdfs_sub_property_of := base + 5
  rdfs_domain := base + 6
  rdfs_range := base + 7
  owl_class := base + 8
  owl_thing := base + 9
  owl_nothing := base + 10
  owl_same_as := base + 11
  owl_different_from := base + 12
  owl_equivalent_class := base + 13
  owl_equivalent_property := base + 14
  owl_inverse_of := base + 15
  owl_functional_property := base + 16
  owl_inverse_functional_property := base + 17
  owl_symmetric_property := base + 18
  owl_transitive_property := base + 19
  owl_irreflexive_property := base + 20
  owl_reflexive_property := base + 21
  owl_asymmetric_property := base + 22
  owl_property_disjoint_with := base + 23
  owl_disjoint_with := base + 24
  owl_complement_of := base + 25
  owl_intersection_of := base + 26
  owl_union_of := base + 27
  owl_some_values_from := base + 28
  owl_all_values_from := base + 29
  owl_has_value := base + 30
  owl_on_property := base + 31
  owl_max_cardinality := base + 32
  owl_max_qualified_cardinality := base + 33
  owl_on_class := base + 34
  owl_source_individual := base + 35
  owl_assertion_property := base + 36
  owl_target_individual := base + 37
  owl_target_value := base + 38
  owl_object_property := base + 39
  owl_property_chain_axiom := base + 40
  owl_has_key := base + 41
  owl_all_disjoint_classes := base + 42
  owl_all_disjoint_properties := base + 43
  owl_all_different := base + 44
  owl_members := base + 45
  owl_distinct_members := base + 46
  owl_named_individual := base + 47
  skos_exact_match := base + 48
  skos_close_match := base + 49
  skos_broad_match := base + 50
  skos_narrow_match := base + 51
  skos_related_match := base + 52
  semapv_cross_species_exact_match := base + 53
  semapv_cross_species_narrow_match := base + 54
  semapv_cross_species_broad_match := base + 55
  semapv_mapping_chaining := base + 56
  semapv_mapping_inversion := base + 57
  sssom_mapping := base + 58
  sssom_subject_id := base + 59
  sssom_predicate_id := base + 60
  sssom_object_id := base + 61
  sssom_mapping_justification := base + 62
  sssom_confidence := base + 63
  sssom_predicate_modifier := base + 64
  sssom_derived_from := base + 65
  horndb_not_exact_match := base + 66

/-! ## The two indexes -/

abbrev Pairs := ExtTreeSet (TermId × TermId)
abbrev ByPred := ExtTreeMap TermId Pairs
abbrev ObjIndex := ExtTreeMap TermId (ExtTreeMap TermId (ExtTreeSet TermId))

/-- The pairs of one predicate, none when it has no entry. -/
def pairs_of (by_pred : ByPred) (p : TermId) : Pairs := by_pred.getD p ∅

def subjects_of (obj_index : ObjIndex) (p o : TermId) : ExtTreeSet TermId :=
  (obj_index.getD p ∅).getD o ∅

def pairs_insert (by_pred : ByPred) (t : Triple) : ByPred :=
  by_pred.insert t.p ((pairs_of by_pred t.p).insert (t.s, t.o))

def index_insert (obj_index : ObjIndex) (t : Triple) : ObjIndex :=
  obj_index.insert t.p ((obj_index.getD t.p ∅).insert t.o
    ((subjects_of obj_index t.p t.o).insert t.s))

/-- Take a pair out, and its predicate with the last one. -/
def pairs_remove (by_pred : ByPred) (t : Triple) : ByPred :=
  match by_pred[t.p]? with
  | none => by_pred
  | some set =>
    let set := set.erase (t.s, t.o)
    if set.isEmpty then by_pred.erase t.p else by_pred.insert t.p set

def by_obj_remove (by_obj : ExtTreeMap TermId (ExtTreeSet TermId)) (s o : TermId) :
    ExtTreeMap TermId (ExtTreeSet TermId) :=
  match by_obj[o]? with
  | none => by_obj
  | some subjects =>
    let subjects := subjects.erase s
    if subjects.isEmpty then by_obj.erase o else by_obj.insert o subjects

/-- Take a subject out, with the empty maps that it leaves. -/
def index_remove (obj_index : ObjIndex) (t : Triple) : ObjIndex :=
  match obj_index[t.p]? with
  | none => obj_index
  | some by_obj =>
    let by_obj := by_obj_remove by_obj t.s t.o
    if by_obj.isEmpty then obj_index.erase t.p else obj_index.insert t.p by_obj

variable {t : Triple} {s p o : TermId}

theorem mem_pairs_insert {by_pred : ByPred} : (s, o) ∈ pairs_of (pairs_insert by_pred t) p ↔
      (s, o) ∈ pairs_of by_pred p ∨ t = ⟨s, p, o⟩ := by
  obtain ⟨ts, tp, to'⟩ := t
  rw [pairs_of, pairs_insert, ExtTreeMap.getD_insert]
  simp only [compare_eq_iff_eq]
  by_cases hp : tp = p
  · subst hp
    rw [if_pos rfl, ExtTreeSet.mem_insert, LawfulEqOrd.compare_eq_iff_eq]
    simp [or_comm]
  · rw [if_neg hp]
    simp [pairs_of, hp]

theorem mem_index_insert {obj_index : ObjIndex} : s ∈ subjects_of (index_insert obj_index t) p o ↔
      s ∈ subjects_of obj_index p o ∨ t = ⟨s, p, o⟩ := by
  obtain ⟨ts, tp, to'⟩ := t
  rw [subjects_of, index_insert, ExtTreeMap.getD_insert]
  simp only [compare_eq_iff_eq]
  by_cases hp : tp = p
  · subst hp
    rw [if_pos rfl, ExtTreeMap.getD_insert]
    simp only [compare_eq_iff_eq]
    by_cases ho : to' = o
    · subst ho
      rw [if_pos rfl, ExtTreeSet.mem_insert, compare_eq_iff_eq]
      simp [or_comm]
    · rw [if_neg ho]
      simp [subjects_of, ho]
  · rw [if_neg hp]
    simp [subjects_of, hp]

theorem mem_pairs_remove {by_pred : ByPred} : (s, o) ∈ pairs_of (pairs_remove by_pred t) p ↔
      (s, o) ∈ pairs_of by_pred p ∧ t ≠ ⟨s, p, o⟩ := by
  obtain ⟨ts, tp, to'⟩ := t
  unfold pairs_remove
  split
  · rename_i hnone
    constructor
    · intro h
      refine ⟨h, ?_⟩
      rintro ⟨⟩
      rw [pairs_of, ExtTreeMap.getD_eq_getD_getElem?, hnone] at h
      simp at h
    · exact And.left
  · rename_i set hset
    have hset' : pairs_of by_pred tp = set := by
      rw [pairs_of, ExtTreeMap.getD_eq_getD_getElem?, hset, Option.getD_some]
    have hkey : (s, o) ∈ pairs_of (if (set.erase (ts, to')).isEmpty then by_pred.erase tp
        else by_pred.insert tp (set.erase (ts, to'))) p ↔
          if tp = p then (s, o) ∈ set.erase (ts, to') else (s, o) ∈ pairs_of by_pred p := by
      split
      · rename_i hempty
        rw [pairs_of, ExtTreeMap.getD_erase]
        simp only [compare_eq_iff_eq]
        split
        · rw [ExtTreeSet.isEmpty_iff.mp hempty]
        · rfl
      · rw [pairs_of, ExtTreeMap.getD_insert]
        simp only [compare_eq_iff_eq]
        split <;> rfl
    dsimp only at hkey ⊢
    rw [hkey]
    split
    · rename_i hp
      subst hp
      rw [ExtTreeSet.mem_erase, ne_eq, LawfulEqOrd.compare_eq_iff_eq, hset']
      simp [and_comm]
    · rename_i hp
      simp [hp]

theorem mem_by_obj_remove {by_obj : ExtTreeMap TermId (ExtTreeSet TermId)} {s o x y : TermId} :
    x ∈ (by_obj_remove by_obj s o).getD y ∅ ↔ x ∈ by_obj.getD y ∅ ∧ ¬ (s = x ∧ o = y) := by
  unfold by_obj_remove
  split
  · rename_i hnone
    constructor
    · intro h
      refine ⟨h, ?_⟩
      rintro ⟨rfl, rfl⟩
      rw [ExtTreeMap.getD_eq_getD_getElem?, hnone] at h
      simp at h
    · exact And.left
  · rename_i subjects hsub
    have hsub' : by_obj.getD o ∅ = subjects := by
      rw [ExtTreeMap.getD_eq_getD_getElem?, hsub, Option.getD_some]
    dsimp only
    by_cases ho : o = y
    · subst ho
      have hgoal : x ∈ subjects.erase s ↔ x ∈ by_obj.getD o ∅ ∧ ¬ (s = x ∧ o = o) := by
        rw [ExtTreeSet.mem_erase, ne_eq, compare_eq_iff_eq, hsub']
        simp [and_comm]
      split
      · rename_i hempty
        rw [ExtTreeMap.getD_erase_self, ← hgoal, ExtTreeSet.isEmpty_iff.mp hempty]
      · rw [ExtTreeMap.getD_insert_self, hgoal]
    · split
      · rw [ExtTreeMap.getD_erase]
        simp [ho]
      · rw [ExtTreeMap.getD_insert]
        simp [ho]

theorem mem_index_remove {obj_index : ObjIndex} : s ∈ subjects_of (index_remove obj_index t) p o ↔
      s ∈ subjects_of obj_index p o ∧ t ≠ ⟨s, p, o⟩ := by
  obtain ⟨ts, tp, to'⟩ := t
  unfold index_remove
  dsimp only
  split
  · rename_i hnone
    constructor
    · intro h
      refine ⟨h, ?_⟩
      rintro ⟨⟩
      have hnil : obj_index.getD p ∅ = ∅ := by
        rw [ExtTreeMap.getD_eq_getD_getElem?, hnone, Option.getD_none]
      rw [subjects_of, hnil] at h
      simp at h
    · exact And.left
  · rename_i by_obj hobj
    have hobj' : obj_index.getD tp ∅ = by_obj := by
      rw [ExtTreeMap.getD_eq_getD_getElem?, hobj, Option.getD_some]
    by_cases hp : tp = p
    · subst hp
      have hgoal : s ∈ (by_obj_remove by_obj ts to').getD o ∅ ↔
          s ∈ subjects_of obj_index tp o ∧ Triple.mk ts tp to' ≠ ⟨s, tp, o⟩ := by
        rw [mem_by_obj_remove, subjects_of, hobj']
        simp
      split
      · rename_i hempty
        rw [← hgoal, subjects_of, ExtTreeMap.getD_erase_self, ExtTreeMap.isEmpty_iff.mp hempty]
      · rw [← hgoal, subjects_of, ExtTreeMap.getD_insert_self]
    · split
      · rw [subjects_of, ExtTreeMap.getD_erase]
        simp [hp, subjects_of]
      · rw [subjects_of, ExtTreeMap.getD_insert]
        simp [hp, subjects_of]

/-! ## The store -/

/-- Every row stands in both indexes or in none. -/
structure MemStore where
  vocab : Vocabulary
  by_pred : ByPred
  obj_index : ObjIndex
  proofs : ExtTreeMap Triple Provenance
  inferred : ExtTreeSet Triple
  card_restrictions : List MaxCardRestriction
  qual_card_restrictions : List QualMaxCardRestriction
  mirrored : ∀ s p o, (s, o) ∈ pairs_of by_pred p ↔ s ∈ subjects_of obj_index p o

namespace MemStore

def new (vocab : Vocabulary) : MemStore where
  vocab := vocab
  by_pred := ∅
  obj_index := ∅
  proofs := ∅
  inferred := ∅
  card_restrictions := []
  qual_card_restrictions := []
  mirrored s p o := by simp [pairs_of, subjects_of]

def contains (st : MemStore) (t : Triple) : Bool := (pairs_of st.by_pred t.p).contains (t.s, t.o)

def scan_predicate (st : MemStore) (p : TermId) : List Triple :=
  (pairs_of st.by_pred p).toList.map fun e => ⟨e.1, p, e.2⟩

/-- The slot is free or holds the term. -/
def slot_admits (slot : Option TermId) (x : TermId) : Bool := slot.all (· == x)

/-- The rows of a predicate that agree with the bound slots, by object where only it is bound. -/
def probe (st : MemStore) (s : Option TermId) (p : TermId) (o : Option TermId) : List Triple :=
  match s, o with
  | none, some oo => (subjects_of st.obj_index p oo).toList.map fun ss => ⟨ss, p, oo⟩
  | _, _ =>
    (pairs_of st.by_pred p).toList.filterMap fun e =>
      if slot_admits s e.1 && slot_admits o e.2 then some ⟨e.1, p, e.2⟩ else none

/-- The row in both indexes. -/
def add_row (st : MemStore) (t : Triple) : MemStore where
  vocab := st.vocab
  by_pred := pairs_insert st.by_pred t
  obj_index := index_insert st.obj_index t
  proofs := st.proofs
  inferred := st.inferred
  card_restrictions := st.card_restrictions
  qual_card_restrictions := st.qual_card_restrictions
  mirrored s p o := by rw [mem_pairs_insert, mem_index_insert, st.mirrored]

def remove_row (st : MemStore) (t : Triple) : MemStore where
  vocab := st.vocab
  by_pred := pairs_remove st.by_pred t
  obj_index := index_remove st.obj_index t
  proofs := st.proofs
  inferred := st.inferred
  card_restrictions := st.card_restrictions
  qual_card_restrictions := st.qual_card_restrictions
  mirrored s p o := by rw [mem_pairs_remove, mem_index_remove, st.mirrored]

/-- Add an asserted row. A row that is present stays as it is. -/
def assert (st : MemStore) (t : Triple) : MemStore :=
  if st.contains t then st else st.add_row t

def assert_all (st : MemStore) (ts : List Triple) : MemStore := ts.foldl assert st

/-- Add an inferred row with its proof, and tell whether it was absent. -/
def insert_inferred (st : MemStore) (t : Triple) (prov : Provenance) : MemStore × Bool :=
  if st.contains t then (st, false)
  else
    ({ st.add_row t with
        inferred := st.inferred.insert t
        proofs := st.proofs.insert t prov }, true)

def clear_inferred (st : MemStore) : MemStore :=
  { st.inferred.toList.foldl remove_row st with
    inferred := ∅
    proofs := ∅ }

def is_inferred (st : MemStore) (t : Triple) : Bool := st.inferred.contains t

def proof (st : MemStore) (t : Triple) : Option Provenance := st.proofs[t]?

/-! ## What the reads return -/

variable {st : MemStore}

theorem contains_iff : st.contains ⟨s, p, o⟩ = true ↔ (s, o) ∈ pairs_of st.by_pred p := by
  rw [contains, ExtTreeSet.mem_iff_contains]

@[simp]
theorem mem_scan_predicate {p : TermId} :
    t ∈ st.scan_predicate p ↔ st.contains t = true ∧ t.p = p := by
  obtain ⟨s, q, o⟩ := t
  rw [scan_predicate, List.mem_map, contains_iff]
  constructor
  · rintro ⟨e, he, heq⟩
    rw [Triple.mk.injEq] at heq
    obtain ⟨rfl, rfl, rfl⟩ := heq
    exact ⟨ExtTreeSet.mem_toList.mp he, rfl⟩
  · rintro ⟨h, rfl⟩
    exact ⟨(s, o), ExtTreeSet.mem_toList.mpr h, rfl⟩

@[simp]
theorem slot_admits_iff {slot : Option TermId} {x : TermId} :
    slot_admits slot x = true ↔ ∀ y, slot = some y → y = x := by
  cases slot <;> simp [slot_admits]

@[simp]
theorem mem_probe {s o : Option TermId} {p : TermId} : t ∈ st.probe s p o ↔
      st.contains t = true ∧ t.p = p ∧ (∀ y, s = some y → y = t.s) ∧ ∀ y, o = some y → y = t.o := by
  obtain ⟨ts, q, to'⟩ := t
  rw [contains_iff]
  unfold probe
  split
  · rename_i oo
    rw [List.mem_map]
    constructor
    · rintro ⟨ss, hs, heq⟩
      rw [Triple.mk.injEq] at heq
      obtain ⟨rfl, rfl, rfl⟩ := heq
      refine ⟨(st.mirrored _ _ _).mpr (ExtTreeSet.mem_toList.mp hs), rfl, by simp, by simp⟩
    · rintro ⟨h, rfl, _, ho⟩
      have hoo := ho oo rfl
      subst hoo
      exact ⟨ts, ExtTreeSet.mem_toList.mpr ((st.mirrored _ _ _).mp h), rfl⟩
  · rw [List.mem_filterMap]
    constructor
    · rintro ⟨e, he, heq⟩
      rw [Option.ite_none_right_eq_some, Bool.and_eq_true, slot_admits_iff, slot_admits_iff] at heq
      obtain ⟨⟨hs, ho⟩, heq⟩ := heq
      rw [Option.some.injEq, Triple.mk.injEq] at heq
      obtain ⟨rfl, rfl, rfl⟩ := heq
      exact ⟨ExtTreeSet.mem_toList.mp he, rfl, hs, ho⟩
    · rintro ⟨h, rfl, hs, ho⟩
      refine ⟨(ts, to'), ExtTreeSet.mem_toList.mpr h, ?_⟩
      rw [if_pos]
      rw [Bool.and_eq_true, slot_admits_iff, slot_admits_iff]
      exact ⟨hs, ho⟩

/-! ## What the writes change -/

@[simp]
theorem contains_new {v : Vocabulary} : (new v).contains t = false := by
  simp [new, contains, pairs_of]

theorem contains_add_row {t u : Triple} :
    (st.add_row t).contains u = true ↔ st.contains u = true ∨ t = u := by
  obtain ⟨s, p, o⟩ := u
  rw [contains_iff, contains_iff]
  exact mem_pairs_insert

theorem contains_remove_row {t u : Triple} :
    (st.remove_row t).contains u = true ↔ st.contains u = true ∧ t ≠ u := by
  obtain ⟨s, p, o⟩ := u
  rw [contains_iff, contains_iff]
  exact mem_pairs_remove

theorem contains_assert {t u : Triple} :
    (st.assert t).contains u = true ↔ st.contains u = true ∨ t = u := by
  unfold assert
  split
  · rename_i h
    constructor
    · exact Or.inl
    · rintro (hu | rfl)
      · exact hu
      · exact h
  · exact contains_add_row

@[simp]
theorem vocab_assert : (st.assert t).vocab = st.vocab := by
  unfold assert
  split <;> rfl

theorem contains_assert_all {ts : List Triple} {u : Triple} :
    (st.assert_all ts).contains u = true ↔ st.contains u = true ∨ u ∈ ts := by
  rw [assert_all]
  induction ts generalizing st with
  | nil => simp
  | cons t ts ih =>
    rw [List.foldl_cons, ih, contains_assert, List.mem_cons, or_assoc, eq_comm (a := t)]

theorem contains_insert_inferred {t u : Triple} {prov : Provenance} :
    (st.insert_inferred t prov).1.contains u = true ↔ st.contains u = true ∨ t = u := by
  unfold insert_inferred
  split
  · rename_i h
    constructor
    · exact Or.inl
    · rintro (hu | rfl)
      · exact hu
      · exact h
  · exact contains_add_row

@[simp]
theorem vocab_insert_inferred {prov : Provenance} :
    (st.insert_inferred t prov).1.vocab = st.vocab := by
  unfold insert_inferred
  split <;> rfl

theorem contains_remove_rows {ts : List Triple} {u : Triple} :
    (ts.foldl remove_row st).contains u = true ↔ st.contains u = true ∧ u ∉ ts := by
  induction ts generalizing st with
  | nil => simp
  | cons t ts ih =>
    rw [List.foldl_cons, ih, contains_remove_row, List.mem_cons, not_or, and_assoc, ne_comm]

/-- The rows that are not inferred stay. -/
theorem contains_clear_inferred {u : Triple} :
    st.clear_inferred.contains u = true ↔ st.contains u = true ∧ st.is_inferred u = false := by
  have h : st.clear_inferred.contains u = (st.inferred.toList.foldl remove_row st).contains u := rfl
  have hmem : u ∈ st.inferred ↔ st.inferred.contains u = true := Iff.rfl
  rw [h, contains_remove_rows, ExtTreeSet.mem_toList, hmem, Bool.not_eq_true, is_inferred]

end MemStore

/-! ## Deltas -/

/-- New triples, each with the proof it was first found with. -/
structure Delta where
  proofs : ExtTreeMap Triple Provenance

namespace Delta

def new : Delta := ⟨∅⟩

def insert (d : Delta) (t : Triple) (prov : Provenance) : Delta :=
  ⟨d.proofs.insertIfNew t prov⟩

def contains (d : Delta) (t : Triple) : Bool := d.proofs.contains t

/-- Insert the candidates in turn. -/
def extend (d : Delta) (es : List (Triple × Provenance)) : Delta :=
  es.foldl (fun d e => d.insert e.1 e.2) d

variable {prov : Provenance} {d : Delta}

theorem contains_insert {t u : Triple} :
    (d.insert t prov).contains u = true ↔ d.contains u = true ∨ t = u := by
  rw [contains, insert, contains, ExtTreeMap.contains_insertIfNew, Bool.or_eq_true,
    beq_iff_eq, LawfulEqOrd.compare_eq_iff_eq, or_comm]

/-- A triple keeps the first proof. -/
theorem getElem?_insert {t u : Triple} : (d.insert t prov).proofs[u]? =
      if t = u ∧ d.contains t = false then some prov else d.proofs[u]? := by
  rw [insert, ExtTreeMap.getElem?_insertIfNew]
  refine if_congr ?_ rfl rfl
  have hmem : t ∈ d.proofs ↔ d.proofs.contains t = true := ExtTreeMap.mem_iff_contains
  rw [LawfulEqOrd.compare_eq_iff_eq, hmem, contains, Bool.not_eq_true]

theorem contains_iff_getElem? : d.contains t = true ↔ ∃ prov, d.proofs[t]? = some prov := by
  rw [contains, ← ExtTreeMap.mem_iff_contains, ExtTreeMap.mem_iff_isSome_getElem?,
    Option.isSome_iff_exists]

theorem insert_of_contains (h : d.contains t = true) : d.insert t prov = d := by
  have hproofs : (d.insert t prov).proofs = d.proofs := by
    refine ExtTreeMap.ext_getElem? fun u => ?_
    rw [getElem?_insert, if_neg]
    rw [h]
    simp
  exact congrArg Delta.mk hproofs

theorem contains_extend {es : List (Triple × Provenance)} {u : Triple} :
    (d.extend es).contains u = true ↔ d.contains u = true ∨ ∃ prov, (u, prov) ∈ es := by
  rw [extend]
  induction es generalizing d with
  | nil => simp
  | cons e es ih =>
    obtain ⟨t, pv⟩ := e
    rw [List.foldl_cons, ih, contains_insert, or_assoc]
    refine or_congr_right ?_
    constructor
    · rintro (rfl | ⟨prov, h⟩)
      · exact ⟨pv, List.mem_cons_self⟩
      · exact ⟨prov, List.mem_cons_of_mem _ h⟩
    · rintro ⟨prov, h⟩
      rcases List.mem_cons.mp h with heq | h
      · exact Or.inl (Prod.mk.inj heq).1.symm
      · exact Or.inr ⟨prov, h⟩

/-- A proof in the extended delta was there before or comes from the candidates. -/
theorem getElem?_extend {es : List (Triple × Provenance)} {u : Triple}
    (h : (d.extend es).proofs[u]? = some prov) : d.proofs[u]? = some prov ∨ (u, prov) ∈ es := by
  rw [extend] at h
  induction es generalizing d with
  | nil => exact Or.inl h
  | cons e es ih =>
    rw [List.foldl_cons] at h
    rcases ih h with h | h
    · rw [getElem?_insert] at h
      split at h
      · rename_i hc
        rw [Option.some.injEq] at h
        refine Or.inr ?_
        rw [← hc.1, ← h]
        exact List.mem_cons_self
      · exact Or.inl h
    · exact Or.inr (List.mem_cons_of_mem _ h)

end Delta

end horndb.owlrl
