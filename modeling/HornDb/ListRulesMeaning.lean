-- What the list rules find: the heads of the instances of each rule over the store, each with
-- premises that make one.
import HornDb.ListRules

open Std (ExtTreeSet)
open HornDb.Lib

namespace horndb.owlrl

/-! ## Instances -/

/-- A walk along the predicates, with the triples it takes. -/
def Path : List TermId → TermId → TermId → List Triple → Prop
  | [], u, w, path => u = w ∧ path = []
  | p :: ps, u, w, path => ∃ m rest, path = ⟨u, p, m⟩ :: rest ∧ Path ps m w rest

/-- The membership that a value needs to count for a filler. -/
def filler_premises (v : Vocabulary) (filler y : TermId) : List Triple :=
  if filler = v.owl_thing then [] else [⟨y, v.rdf_type, filler⟩]

/-- The instances of the list rules that read rows: the rule, the premises it cites, those that it
reads besides, and the head. -/
inductive ListInstance (v : Vocabulary) (ax : SchemaAxioms) :
    RuleId → List Triple → List Triple → Triple → Prop where
  | prp_spo2 {head u w : TermId} {chain : List TermId} {path : List Triple}
      (hax : (head, chain) ∈ ax.property_chains) (hne : chain ≠ []) (hpath : Path chain u w path) :
      ListInstance v ax "prp-spo2" path [] ⟨u, head, w⟩
  | prp_key {c p0 x y z0 : TermId} {rest zs : List TermId} (hax : (c, p0 :: rest) ∈ ax.keys)
      (hne : y ≠ x) (hlen : zs.length = rest.length) :
      ListInstance v ax "prp-key" (key_premises v c p0 x y z0 rest zs) [] ⟨x, v.owl_same_as, y⟩
  | cls_int1 {c listhead x : TermId} {cs : List TermId}
      (hax : (c, listhead, cs) ∈ ax.intersections) (hne : cs ≠ []) :
      ListInstance v ax "cls-int1" (cs.map fun ci => ⟨x, v.rdf_type, ci⟩) []
        ⟨x, v.rdf_type, c⟩
  | cls_uni {c ci x : TermId} {cs : List TermId} (hax : (c, cs) ∈ ax.unions) (hci : ci ∈ cs) :
      ListInstance v ax "cls-uni" [⟨x, v.rdf_type, ci⟩] [] ⟨x, v.rdf_type, c⟩
  | cax_adc {ci cj x : TermId} {cs : List TermId} (hax : cs ∈ ax.all_disjoint_classes)
      (hpair : (ci, cj) ∈ pairs_after cs) :
      ListInstance v ax "cax-adc" [⟨x, v.rdf_type, ci⟩, ⟨x, v.rdf_type, cj⟩] []
        ⟨x, v.rdf_type, v.owl_nothing⟩
  | prp_adp {pi pj u w : TermId} {props : List TermId} (hax : props ∈ ax.all_disjoint_properties)
      (hpair : (pi, pj) ∈ pairs_after props) :
      ListInstance v ax "prp-adp" [⟨u, pi, w⟩, ⟨u, pj, w⟩] [] ⟨u, v.rdf_type, v.owl_nothing⟩
  | cls_maxc1 {r : MaxCardRestriction} {u y : TermId} (hax : r ∈ ax.max_card_restrictions)
      (hmax : r.max = 0) :
      ListInstance v ax "cls-maxc1" [⟨u, v.rdf_type, r.class⟩, ⟨u, r.property, y⟩] []
        ⟨u, v.rdf_type, v.owl_nothing⟩
  | cls_maxc2 {r : MaxCardRestriction} {u y1 y2 a b : TermId}
      (hax : r ∈ ax.max_card_restrictions) (hmax : r.max = 1) (hne : y1 ≠ y2)
      (hab : (a, b) = (y1, y2) ∨ (a, b) = (y2, y1)) :
      ListInstance v ax "cls-maxc2"
        [⟨u, v.rdf_type, r.class⟩, ⟨u, r.property, y1⟩, ⟨u, r.property, y2⟩] []
        ⟨a, v.owl_same_as, b⟩
  | cls_maxqc_zero {r : QualMaxCardRestriction} {u y : TermId}
      (hax : r ∈ ax.qual_max_card_restrictions) (hmax : r.max = 0) :
      ListInstance v ax (if r.filler = v.owl_thing then "cls-maxqc2" else "cls-maxqc1")
        [⟨u, v.rdf_type, r.class⟩, ⟨u, r.property, y⟩] (filler_premises v r.filler y)
        ⟨u, v.rdf_type, v.owl_nothing⟩
  | cls_maxqc_one {r : QualMaxCardRestriction} {u y1 y2 a b : TermId}
      (hax : r ∈ ax.qual_max_card_restrictions) (hmax : r.max = 1) (hne : y1 ≠ y2)
      (hab : (a, b) = (y1, y2) ∨ (a, b) = (y2, y1)) :
      ListInstance v ax (if r.filler = v.owl_thing then "cls-maxqc4" else "cls-maxqc3")
        [⟨u, v.rdf_type, r.class⟩, ⟨u, r.property, y1⟩, ⟨u, r.property, y2⟩]
        (filler_premises v r.filler y1 ++ filler_premises v r.filler y2) ⟨a, v.owl_same_as, b⟩

/-- The instances that follow from the schema alone, each with the triple that declares it. -/
inductive SchemaInstance (v : Vocabulary) (ax : SchemaAxioms) : RuleId → Triple → Triple → Prop where
  | scm_int {c listhead ci : TermId} {cs : List TermId}
      (hax : (c, listhead, cs) ∈ ax.intersections) (hci : ci ∈ cs) :
      SchemaInstance v ax "scm-int" ⟨c, v.owl_intersection_of, listhead⟩
        ⟨c, v.rdfs_sub_class_of, ci⟩
  | eq_diff2 {ad members_pred listhead x y : TermId} {xs : List TermId} {i j : Nat}
      (hax : (ad, members_pred, listhead, xs) ∈ ax.all_different) (hi : xs[i]? = some x)
      (hj : xs[j]? = some y) (hij : i ≠ j) :
      SchemaInstance v ax "eq-diff2" ⟨ad, members_pred, listhead⟩ ⟨x, v.owl_different_from, y⟩

/-! ## Functions that add candidates to a delta -/

/-- The function adds candidates with the property `C` and none else, whatever the delta, and
among them every head with a proof of that kind that the store does not have. -/
def Adds (st : MemStore) (F : Delta → Delta) (C : Triple → Provenance → Prop) : Prop :=
  ∃ es : List (Triple × Provenance), (∀ d, F d = d.extend es) ∧ (∀ t prov, (t, prov) ∈ es → C t prov) ∧
    ∀ t prov, C t prov → st.contains t = false → ∃ prov', (t, prov') ∈ es

section Adding

variable {st : MemStore} {F G : Delta → Delta} {C D : Triple → Provenance → Prop}

theorem Adds.nothing : Adds st (fun d => d) fun _ _ => False :=
  ⟨[], fun _ => rfl, by simp, by simp⟩

theorem Adds.congr (h : Adds st F C) (hiff : ∀ t prov, C t prov ↔ D t prov) : Adds st F D := by
  obtain ⟨es, heq, hsound, hall⟩ := h
  exact ⟨es, heq, fun t prov ht => (hiff t prov).mp (hsound t prov ht),
    fun t prov ht => hall t prov ((hiff t prov).mpr ht)⟩

/-- Other proofs of the same heads. -/
theorem Adds.change (h : Adds st F C) (hsound : ∀ t prov, C t prov → D t prov)
    (hheads : ∀ t prov, D t prov → ∃ prov', C t prov') : Adds st F D := by
  obtain ⟨es, heq, hfrom, hall⟩ := h
  refine ⟨es, heq, fun t prov ht => hsound t prov (hfrom t prov ht), ?_⟩
  intro t prov hd hno
  obtain ⟨prov', hc⟩ := hheads t prov hd
  exact hall t prov' hc hno

theorem Adds.comp (hF : Adds st F C) (hG : Adds st G D) :
    Adds st (fun d => G (F d)) fun t prov => C t prov ∨ D t prov := by
  obtain ⟨es, heq, hsound, hall⟩ := hF
  obtain ⟨fs, heq', hsound', hall'⟩ := hG
  refine ⟨es ++ fs, ?_, ?_, ?_⟩
  · intro d
    dsimp only
    rw [heq, heq']
    exact List.foldl_append.symm
  · intro t prov h
    rcases List.mem_append.mp h with h | h
    · exact Or.inl (hsound t prov h)
    · exact Or.inr (hsound' t prov h)
  · rintro t prov (h | h) hno
    · obtain ⟨prov', h'⟩ := hall t prov h hno
      exact ⟨prov', List.mem_append_left _ h'⟩
    · obtain ⟨prov', h'⟩ := hall' t prov h hno
      exact ⟨prov', List.mem_append_right _ h'⟩

theorem Adds.foldl {α : Type} {f : Delta → α → Delta} {E : α → Triple → Provenance → Prop}
    (l : List α) (h : ∀ a ∈ l, Adds st (fun d => f d a) (E a)) :
    Adds st (fun d => l.foldl f d) fun t prov => ∃ a ∈ l, E a t prov := by
  induction l with
  | nil => exact Adds.nothing.congr (by simp)
  | cons a l ih =>
    rw [List.forall_mem_cons] at h
    refine (h.1.comp (ih h.2)).congr ?_
    intro t prov
    rw [List.exists_mem_cons_iff]

theorem Adds.ite {c : Prop} [Decidable c] (h : Adds st F C) :
    Adds st (fun d => if c then F d else d) fun t prov => c ∧ C t prov := by
  by_cases hc : c
  · simp only [if_pos hc]
    exact h.congr fun t prov => (and_iff_right hc).symm
  · simp only [if_neg hc]
    exact Adds.nothing.congr fun t prov => by simp [hc]

theorem Adds.extend {es : List (Triple × Provenance)}
    (hsound : ∀ t prov, (t, prov) ∈ es → C t prov)
    (hall : ∀ t prov, C t prov → st.contains t = false → ∃ prov', (t, prov') ∈ es) :
    Adds st (fun d => d.extend es) C :=
  ⟨es, fun _ => rfl, hsound, hall⟩

theorem Adds.emit_pair {rule_id : RuleId} {s p o : TermId} {premises : List Triple} :
    Adds st (fun d => emit_pair d rule_id s p o premises) fun t prov =>
      t = ⟨s, p, o⟩ ∧ prov = ⟨rule_id, premises⟩ := by
  refine ⟨[(⟨s, p, o⟩, ⟨rule_id, premises⟩)], ?_, by simp, by simp⟩
  intro d
  unfold horndb.owlrl.emit_pair
  cases h : d.contains ⟨s, p, o⟩ with
  | true => simp [Delta.extend, Delta.insert_of_contains h]
  | false => simp [Delta.extend, h]

theorem Adds.emit {head : Triple} {prov : Provenance} :
    Adds st (fun d => emit st d head prov) fun t pv => t = head ∧ pv = prov := by
  refine ⟨if st.contains head then [] else [(head, prov)], ?_, ?_, ?_⟩
  · intro d
    unfold horndb.owlrl.emit
    cases hst : st.contains head with
    | true => simp [Delta.extend]
    | false =>
      cases h : d.contains head with
      | true => simp [Delta.extend, Delta.insert_of_contains h]
      | false => simp [Delta.extend, h]
  · intro t pv h
    split at h
    · cases h
    · simpa using h
  · rintro t pv ⟨rfl, rfl⟩ hno
    exact ⟨pv, by simp [hno]⟩

/-- What the function leaves is what was there and the heads of its candidates. -/
theorem Adds.contains (h : Adds st F C) {d : Delta} {t : Triple} :
    (F d).contains t = true ∨ st.contains t = true ↔
      d.contains t = true ∨ (∃ prov, C t prov) ∨ st.contains t = true := by
  obtain ⟨es, heq, hsound, hall⟩ := h
  rw [heq, Delta.contains_extend, or_assoc]
  refine or_congr_right ?_
  constructor
  · rintro (⟨prov, h⟩ | h)
    · exact Or.inl ⟨prov, hsound t prov h⟩
    · exact Or.inr h
  · rintro (⟨prov, h⟩ | h)
    · cases hst : st.contains t with
      | true => exact Or.inr rfl
      | false => exact Or.inl (hall t prov h hst)
    · exact Or.inr h

theorem Adds.proof (h : Adds st F C) {d : Delta} {t : Triple} {prov : Provenance}
    (hp : (F d).proofs[t]? = some prov) : d.proofs[t]? = some prov ∨ C t prov := by
  obtain ⟨es, heq, hsound, -⟩ := h
  rw [heq] at hp
  exact (Delta.getElem?_extend hp).imp_right (hsound t prov)

end Adding

/-! ## Reading the store -/

variable {st : MemStore} {v : Vocabulary}

@[simp]
theorem mem_instances {c x : TermId} :
    x ∈ instances st v c ↔ st.contains ⟨x, v.rdf_type, c⟩ = true := by
  rw [instances, List.mem_map]
  constructor
  · rintro ⟨⟨s, p, o⟩, ht, rfl⟩
    rw [MemStore.mem_probe] at ht
    obtain ⟨hc, rfl, -, ho⟩ := ht
    obtain rfl := ho c rfl
    exact hc
  · intro h
    exact ⟨_, MemStore.mem_probe.mpr ⟨h, rfl, by simp, by simp⟩, rfl⟩

@[simp]
theorem mem_values_of {u p y : TermId} :
    y ∈ values_of st u p ↔ st.contains ⟨u, p, y⟩ = true := by
  rw [values_of, List.mem_map]
  constructor
  · rintro ⟨⟨s, q, o⟩, ht, rfl⟩
    rw [MemStore.mem_probe] at ht
    obtain ⟨hc, rfl, hs, -⟩ := ht
    obtain rfl := hs u rfl
    exact hc
  · intro h
    exact ⟨_, MemStore.mem_probe.mpr ⟨h, rfl, by simp, by simp⟩, rfl⟩

@[simp]
theorem qualifies_iff {y filler : TermId} :
    qualifies st v y filler = true ↔
      ∀ p ∈ filler_premises v filler y, st.contains p = true := by
  unfold qualifies filler_premises
  split
  · simp
  · rw [List.forall_mem_singleton]
    cases hrows : st.probe (some y) v.rdf_type (some filler) with
    | nil =>
      have hnone := List.eq_nil_iff_forall_not_mem.mp hrows ⟨y, v.rdf_type, filler⟩
      rw [MemStore.mem_probe] at hnone
      simpa using hnone
    | cons t rows =>
      have hmem : t ∈ st.probe (some y) v.rdf_type (some filler) := by simp [hrows]
      obtain ⟨s, p, o⟩ := t
      rw [MemStore.mem_probe] at hmem
      obtain ⟨hc, rfl, hs, ho⟩ := hmem
      obtain rfl := hs y rfl
      obtain rfl := ho filler rfl
      simpa using hc

theorem map_subjects_eq {pool : Pool} {α β : Type} {xs : List α} {parallel : ParallelStrategy}
    {f : α → Option β} : map_subjects pool xs parallel f = xs.filterMap f := by
  unfold map_subjects
  split
  · conv_rhs => rw [← pool.joined xs]
    generalize pool.pieces xs = pieces
    induction pieces with
    | nil => rfl
    | cons piece pieces ih => rw [List.flatMap_cons, ih, List.flatten_cons, List.filterMap_append]
  · rfl

theorem flat_map_subjects_eq {pool : Pool} {α β : Type} {xs : List α}
    {parallel : ParallelStrategy} {f : α → List β} :
    flat_map_subjects pool xs parallel f = xs.flatMap f := by
  unfold flat_map_subjects
  split
  · conv_rhs => rw [← pool.joined xs]
    generalize pool.pieces xs = pieces
    induction pieces with
    | nil => rfl
    | cons piece pieces ih => rw [List.flatMap_cons, ih, List.flatten_cons, List.flatMap_append]
  · rfl

theorem mem_pairs_after {α : Type} {l : List α} {a b : α} (h : (a, b) ∈ pairs_after l) :
    a ∈ l ∧ b ∈ l := by
  induction l with
  | nil => cases h
  | cons x l ih =>
    rw [pairs_after, List.mem_append, List.mem_map] at h
    rcases h with ⟨y, hy, heq⟩ | h
    · obtain ⟨rfl, rfl⟩ := Prod.mk.inj heq
      exact ⟨List.mem_cons_self, List.mem_cons_of_mem _ hy⟩
    · exact (ih h).imp (List.mem_cons_of_mem x) (List.mem_cons_of_mem x)

/-- Two different members stand in one order or the other. -/
theorem pairs_after_of_mem {α : Type} {l : List α} {a b : α} (ha : a ∈ l) (hb : b ∈ l)
    (hne : a ≠ b) : (a, b) ∈ pairs_after l ∨ (b, a) ∈ pairs_after l := by
  induction l with
  | nil => cases ha
  | cons x l ih =>
    simp only [pairs_after, List.mem_append, List.mem_map]
    rcases List.mem_cons.mp ha with ha' | ha'
    · rcases List.mem_cons.mp hb with hb' | hb'
      · exact absurd (ha'.trans hb'.symm) hne
      · exact Or.inl (Or.inl ⟨b, hb', by rw [ha']⟩)
    · rcases List.mem_cons.mp hb with hb' | hb'
      · exact Or.inr (Or.inl ⟨a, ha', by rw [hb']⟩)
      · exact (ih ha' hb').imp Or.inr Or.inr

/-! ## Each rule -/

/-- The frontier after the rest of a chain. -/
theorem mem_frontier {ps : List TermId} {frontier : List Walk} {w : Walk} :
    w ∈ ps.foldl (frontier_next st) frontier ↔
      ∃ w' ∈ frontier, ∃ path, Path ps w'.u_mid w.u_mid path ∧
        (∀ t ∈ path, st.contains t = true) ∧ w = ⟨w'.u0, w.u_mid, w'.path ++ path⟩ := by
  induction ps generalizing frontier with
  | nil =>
    rw [List.foldl_nil]
    constructor
    · intro h
      exact ⟨w, h, [], ⟨rfl, rfl⟩, by simp, by simp⟩
    · rintro ⟨w', hw', path, ⟨hmid, rfl⟩, -, heq⟩
      rw [heq, ← hmid, List.append_nil]
      exact hw'
  | cons p ps ih =>
    rw [List.foldl_cons, ih]
    constructor
    · rintro ⟨x, hx, path, hpath, hall, heq⟩
      obtain ⟨w', hw', hmem⟩ := List.mem_flatMap.mp hx
      obtain ⟨t, ht, rfl⟩ := List.mem_map.mp hmem
      have ht' : st.contains ⟨w'.u_mid, p, t.o⟩ = true := by
        rw [MemStore.mem_probe] at ht
        obtain ⟨hc, rfl, hs, -⟩ := ht
        rw [hs _ rfl]
        exact hc
      refine ⟨w', hw', ⟨w'.u_mid, p, t.o⟩ :: path, ⟨t.o, path, rfl, hpath⟩, ?_, ?_⟩
      · rw [List.forall_mem_cons]
        exact ⟨ht', hall⟩
      · rw [heq]
        simp
    · rintro ⟨w', hw', path, ⟨m, rest, rfl, hpath⟩, hall, heq⟩
      rw [List.forall_mem_cons] at hall
      refine ⟨⟨w'.u0, m, w'.path ++ [⟨w'.u_mid, p, m⟩]⟩, ?_, rest, hpath, hall.2, ?_⟩
      · refine List.mem_flatMap.mpr ⟨w', hw', List.mem_map.mpr ⟨⟨w'.u_mid, p, m⟩, ?_, rfl⟩⟩
        exact MemStore.mem_probe.mpr ⟨hall.1, rfl, by simp, by simp⟩
      · rw [heq]
        simp

theorem fire_prp_spo2_adds (st : MemStore) (head : TermId) (chain : List TermId) :
    Adds st (fire_prp_spo2 st head chain) fun t prov =>
      ∃ u w path, chain ≠ [] ∧ Path chain u w path ∧ (∀ p ∈ path, st.contains p = true) ∧
        t = ⟨u, head, w⟩ ∧ prov = ⟨"prp-spo2", path⟩ := by
  cases chain with
  | nil => exact Adds.nothing.congr (by simp)
  | cons p ps =>
    have hwalk : ∀ w, w ∈ ps.foldl (frontier_next st) (frontier_start st p) ↔
        Path (p :: ps) w.u0 w.u_mid w.path ∧ ∀ t ∈ w.path, st.contains t = true := by
      intro w
      rw [mem_frontier]
      constructor
      · rintro ⟨w', hw', path, hpath, hall, heq⟩
        obtain ⟨t, ht, rfl⟩ := List.mem_map.mp hw'
        rw [MemStore.mem_scan_predicate] at ht
        obtain ⟨hc, rfl⟩ := ht
        rw [heq]
        refine ⟨⟨t.o, path, rfl, hpath⟩, ?_⟩
        intro x hx
        rcases List.mem_cons.mp hx with rfl | hx
        · exact hc
        · exact hall x hx
      · rintro ⟨⟨m, rest, hpath, hrest⟩, hall⟩
        rw [hpath, List.forall_mem_cons] at hall
        refine ⟨⟨w.u0, m, [⟨w.u0, p, m⟩]⟩, ?_, rest, hrest, hall.2, ?_⟩
        · exact List.mem_map.mpr ⟨_, MemStore.mem_scan_predicate.mpr ⟨hall.1, rfl⟩, rfl⟩
        · rw [List.singleton_append, ← hpath]
    refine (Adds.foldl (ps.foldl (frontier_next st) (frontier_start st p))
      fun w _ => Adds.emit_pair).congr ?_
    intro t prov
    constructor
    · rintro ⟨w, hw, rfl, rfl⟩
      rw [hwalk] at hw
      exact ⟨w.u0, w.u_mid, w.path, by simp, hw.1, hw.2, rfl, rfl⟩
    · rintro ⟨u, w, path, -, hpath, hall, rfl, rfl⟩
      exact ⟨⟨u, w, path⟩, (hwalk _).mpr ⟨hpath, hall⟩, rfl, rfl⟩

theorem mem_cartesian_zs {x : TermId} {rest zs : List TermId} :
    zs ∈ cartesian_zs st x rest ↔
      zs.length = rest.length ∧ ∀ e ∈ rest.zip zs, st.contains ⟨x, e.1, e.2⟩ = true := by
  have hfold : ∀ (rest : List TermId) (acc : List (List TermId)), zs ∈ rest.foldl (fun acc p =>
      let values := (st.probe (some x) p none).map Triple.o
      acc.flatMap fun row => values.map fun z => row ++ [z]) acc ↔
      ∃ row ∈ acc, ∃ tail, zs = row ++ tail ∧ tail.length = rest.length ∧
        ∀ e ∈ rest.zip tail, st.contains ⟨x, e.1, e.2⟩ = true := by
    intro rest
    induction rest with
    | nil =>
      intro acc
      rw [List.foldl_nil]
      constructor
      · intro h
        exact ⟨zs, h, [], by simp, rfl, by simp⟩
      · rintro ⟨row, hrow, tail, rfl, hlen, -⟩
        rw [List.length_nil, List.length_eq_zero_iff] at hlen
        rw [hlen, List.append_nil]
        exact hrow
    | cons p rest ih =>
      intro acc
      rw [List.foldl_cons, ih]
      constructor
      · rintro ⟨row, hrow, tail, rfl, hlen, hall⟩
        obtain ⟨row', hrow', hmem⟩ := List.mem_flatMap.mp hrow
        obtain ⟨z, hz, rfl⟩ := List.mem_map.mp hmem
        refine ⟨row', hrow', z :: tail, by simp, by simp [hlen], ?_⟩
        rw [List.zip_cons_cons, List.forall_mem_cons]
        exact ⟨mem_values_of.mp hz, hall⟩
      · rintro ⟨row, hrow, tail, rfl, hlen, hall⟩
        cases tail with
        | nil => simp at hlen
        | cons z tail =>
          rw [List.zip_cons_cons, List.forall_mem_cons] at hall
          refine ⟨row ++ [z], ?_, tail, by simp, by simpa using hlen, hall.2⟩
          exact List.mem_flatMap.mpr ⟨row, hrow, List.mem_map.mpr ⟨z, mem_values_of.mpr hall.1, rfl⟩⟩
  rw [cartesian_zs, hfold]
  simp

theorem mem_key_survivors {candidates rest zs : List TermId} {y : TermId} :
    y ∈ key_survivors st candidates rest zs ↔
      y ∈ candidates ∧ ∀ e ∈ rest.zip zs, st.contains ⟨y, e.1, e.2⟩ = true := by
  rw [key_survivors]
  generalize rest.zip zs = es
  induction es generalizing candidates with
  | nil => simp
  | cons e es ih =>
    rw [List.foldl_cons, ih, List.mem_filter, List.forall_mem_cons, and_assoc]

theorem key_premises_iff {c p0 x y z0 : TermId} {rest zs : List TermId} :
    (∀ p ∈ key_premises v c p0 x y z0 rest zs, st.contains p = true) ↔
      (st.contains ⟨x, v.rdf_type, c⟩ = true ∧ st.contains ⟨y, v.rdf_type, c⟩ = true ∧
        st.contains ⟨x, p0, z0⟩ = true ∧ st.contains ⟨y, p0, z0⟩ = true) ∧
      (∀ e ∈ rest.zip zs, st.contains ⟨x, e.1, e.2⟩ = true) ∧
        ∀ e ∈ rest.zip zs, st.contains ⟨y, e.1, e.2⟩ = true := by
  rw [key_premises, List.forall_mem_append]
  refine and_congr (by simp) ?_
  constructor
  · intro h
    refine ⟨fun e he => h _ (List.mem_flatMap.mpr ⟨e, he, by simp⟩),
      fun e he => h _ (List.mem_flatMap.mpr ⟨e, he, by simp⟩)⟩
  · rintro ⟨hx, hy⟩ p hp
    obtain ⟨e, he, hmem⟩ := List.mem_flatMap.mp hp
    rcases List.mem_cons.mp hmem with rfl | hmem
    · exact hx e he
    · rw [List.mem_singleton] at hmem
      rw [hmem]
      exact hy e he

theorem mem_key_hits {c p0 x y z0 : TermId} {rest zs : List TermId}
    (hx : st.contains ⟨x, v.rdf_type, c⟩ = true) :
    (z0, zs, y) ∈ key_hits st v c p0 rest x ↔
      y ≠ x ∧ zs.length = rest.length ∧
        ∀ p ∈ key_premises v c p0 x y z0 rest zs, st.contains p = true := by
  rw [key_premises_iff]
  constructor
  · intro h
    obtain ⟨t, ht, h⟩ := List.mem_flatMap.mp h
    obtain ⟨zs', hzs, h⟩ := List.mem_flatMap.mp h
    obtain ⟨y', hy, heq⟩ := List.mem_map.mp h
    rw [Prod.mk.injEq, Prod.mk.injEq] at heq
    obtain ⟨rfl, rfl, rfl⟩ := heq
    have hz0 : st.contains ⟨x, p0, t.o⟩ = true := by
      rw [← mem_values_of]
      exact List.mem_map.mpr ⟨t, ht, rfl⟩
    rw [mem_cartesian_zs] at hzs
    rw [mem_key_survivors, key_candidates, List.mem_filter, List.mem_map, Bool.and_eq_true,
      bne_iff_ne] at hy
    obtain ⟨⟨⟨⟨s, p, o⟩, hu, rfl⟩, hne, htype⟩, hall⟩ := hy
    rw [MemStore.mem_probe] at hu
    obtain ⟨hc, rfl, -, ho⟩ := hu
    obtain rfl := ho t.o rfl
    exact ⟨hne, hzs.1, ⟨hx, htype, hz0, hc⟩, hzs.2, hall⟩
  · rintro ⟨hne, hlen, ⟨-, htype, hz0, hy0⟩, hxs, hys⟩
    refine List.mem_flatMap.mpr ⟨⟨x, p0, z0⟩, ?_, List.mem_flatMap.mpr ⟨zs, ?_, ?_⟩⟩
    · exact MemStore.mem_probe.mpr ⟨hz0, rfl, by simp, by simp⟩
    · exact mem_cartesian_zs.mpr ⟨hlen, hxs⟩
    · refine List.mem_map.mpr ⟨y, ?_, rfl⟩
      rw [mem_key_survivors, key_candidates, List.mem_filter, List.mem_map, Bool.and_eq_true,
        bne_iff_ne]
      refine ⟨⟨⟨⟨y, p0, z0⟩, ?_, rfl⟩, hne, htype⟩, hys⟩
      exact MemStore.mem_probe.mpr ⟨hy0, rfl, by simp, by simp⟩

theorem fire_prp_key_adds (st : MemStore) (v : Vocabulary) (pool : Pool)
    (parallel : ParallelStrategy) (c : TermId) (ps : List TermId) :
    Adds st (fire_prp_key pool st v c ps parallel) fun t prov =>
      ∃ p0 rest x y z0 zs, ps = p0 :: rest ∧ y ≠ x ∧ zs.length = rest.length ∧
        (∀ p ∈ key_premises v c p0 x y z0 rest zs, st.contains p = true) ∧
        t = ⟨x, v.owl_same_as, y⟩ ∧
        prov = ⟨"prp-key", key_premises v c p0 x y z0 rest zs⟩ := by
  cases ps with
  | nil => exact Adds.nothing.congr (by simp)
  | cons p0 rest =>
    unfold fire_prp_key
    dsimp only
    by_cases hfew : (instances st v c).length < 2
    · simp only [if_pos hfew]
      refine Adds.nothing.congr ?_
      intro t prov
      refine ⟨False.elim, ?_⟩
      rintro ⟨p0', rest', x, y, z0, zs, -, hne, -, hall, -, -⟩
      rw [key_premises_iff] at hall
      have hsub : [x, y] ⊆ instances st v c := by simp [hall.1.1, hall.1.2.1]
      have hnd : [x, y].Nodup := by simpa using hne.symm
      have := (hnd.subperm hsub).length_le
      rw [List.length_cons, List.length_singleton] at this
      omega
    · simp only [if_neg hfew]
      rw [flat_map_subjects_eq]
      refine Adds.extend ?_ ?_
      · intro t prov h
        obtain ⟨x, hx, h⟩ := List.mem_flatMap.mp h
        obtain ⟨⟨z0, zs, y⟩, hhit, h⟩ := List.mem_filterMap.mp h
        rw [mem_instances] at hx
        have hhit := (mem_key_hits hx).mp (mem_of_mem_first_by hhit)
        dsimp only at h
        rw [Option.ite_none_left_eq_some, Option.some.injEq, Prod.mk.injEq] at h
        exact ⟨p0, rest, x, y, z0, zs, rfl, hhit.1, hhit.2.1, hhit.2.2, h.2.1.symm, h.2.2.symm⟩
      · rintro t prov ⟨p0', rest', x, y, z0, zs, heq, hne, hlen, hall, rfl, -⟩ hno
        obtain ⟨rfl, rfl⟩ := List.cons.inj heq
        have hx := (key_premises_iff.mp hall).1.1
        have hhit := (mem_key_hits hx).mpr ⟨hne, hlen, hall⟩
        obtain ⟨⟨z0', zs', y'⟩, hfirst, heq⟩ :=
          exists_mem_first_by (fun hit => hit.2.2) hhit
        dsimp only at heq
        subst heq
        refine ⟨⟨"prp-key", key_premises v c p0 x y' z0' rest zs'⟩, List.mem_flatMap.mpr
          ⟨x, mem_instances.mpr hx, List.mem_filterMap.mpr ⟨(z0', zs', y'), hfirst, ?_⟩⟩⟩
        simp [hno]

theorem fire_cls_int1_adds (st : MemStore) (v : Vocabulary) (pool : Pool)
    (parallel : ParallelStrategy) (c : TermId) (cs : List TermId) :
    Adds st (fire_cls_int1 pool st v c cs parallel) fun t prov =>
      ∃ x, cs ≠ [] ∧ (∀ ci ∈ cs, st.contains ⟨x, v.rdf_type, ci⟩ = true) ∧
        t = ⟨x, v.rdf_type, c⟩ ∧
        prov = ⟨"cls-int1", cs.map fun ci => ⟨x, v.rdf_type, ci⟩⟩ := by
  cases cs with
  | nil => exact Adds.nothing.congr (by simp)
  | cons c0 rest =>
    unfold fire_cls_int1
    dsimp only
    rw [map_subjects_eq]
    have hall : ∀ x, rest.all (fun ci => st.contains ⟨x, v.rdf_type, ci⟩) = true ↔
        ∀ ci ∈ rest, st.contains ⟨x, v.rdf_type, ci⟩ = true := fun x => List.all_eq_true
    refine Adds.extend ?_ ?_
    · intro t prov h
      obtain ⟨x, hx, h⟩ := List.mem_filterMap.mp h
      rw [mem_instances] at hx
      rw [Option.ite_none_left_eq_some, Option.ite_none_left_eq_some, Bool.not_eq_true',
        Bool.not_eq_false, hall, Option.some.injEq, Prod.mk.injEq] at h
      exact ⟨x, by simp, List.forall_mem_cons.mpr ⟨hx, h.1⟩, h.2.2.1.symm, h.2.2.2.symm⟩
    · rintro t prov ⟨x, -, hcs, rfl, -⟩ hno
      rw [List.forall_mem_cons] at hcs
      refine ⟨⟨"cls-int1", (c0 :: rest).map fun ci => ⟨x, v.rdf_type, ci⟩⟩,
        List.mem_filterMap.mpr ⟨x, mem_instances.mpr hcs.1, ?_⟩⟩
      rw [if_neg, if_neg (by simp [hno])]
      rw [(hall x).mpr hcs.2]
      simp

theorem fire_scm_int_adds (st : MemStore) (v : Vocabulary) (c listhead : TermId)
    (cs : List TermId) :
    Adds st (fire_scm_int st v c listhead cs) fun t prov =>
      ∃ ci ∈ cs, t = ⟨c, v.rdfs_sub_class_of, ci⟩ ∧
        prov = ⟨"scm-int", [⟨c, v.owl_intersection_of, listhead⟩]⟩ :=
  Adds.foldl cs fun _ _ => Adds.emit

theorem fire_cls_uni_adds (st : MemStore) (v : Vocabulary) (pool : Pool)
    (parallel : ParallelStrategy) (c : TermId) (cs : List TermId) :
    Adds st (fire_cls_uni pool st v c cs parallel) fun t prov =>
      ∃ x, ∃ ci ∈ cs, st.contains ⟨x, v.rdf_type, ci⟩ = true ∧ t = ⟨x, v.rdf_type, c⟩ ∧
        prov = ⟨"cls-uni", [⟨x, v.rdf_type, ci⟩]⟩ := by
  unfold fire_cls_uni
  rw [map_subjects_eq, union_subjects]
  have hmem : ∀ x ci, (x, ci) ∈ cs.flatMap (fun ci => (instances st v ci).map fun x => (x, ci)) ↔
      ci ∈ cs ∧ st.contains ⟨x, v.rdf_type, ci⟩ = true := by
    intro x ci
    simp only [List.mem_flatMap, List.mem_map, mem_instances, Prod.mk.injEq]
    constructor
    · rintro ⟨cj, hcj, y, hy, rfl, rfl⟩
      exact ⟨hcj, hy⟩
    · rintro ⟨hci, hx⟩
      exact ⟨ci, hci, x, hx, rfl, rfl⟩
  refine Adds.extend ?_ ?_
  · intro t prov h
    obtain ⟨⟨x, ci⟩, hx, h⟩ := List.mem_filterMap.mp h
    have hx := (hmem x ci).mp (mem_of_mem_first_by hx)
    rw [Option.ite_none_left_eq_some, Option.some.injEq, Prod.mk.injEq] at h
    exact ⟨x, ci, hx.1, hx.2, h.2.1.symm, h.2.2.symm⟩
  · rintro t prov ⟨x, ci, hci, hx, rfl, -⟩ hno
    obtain ⟨⟨x', cj⟩, hfirst, heq⟩ :=
      exists_mem_first_by Prod.fst ((hmem x ci).mpr ⟨hci, hx⟩)
    dsimp only at heq
    subst heq
    exact ⟨⟨"cls-uni", [⟨x', v.rdf_type, cj⟩]⟩,
      List.mem_filterMap.mpr ⟨(x', cj), hfirst, by simp [hno]⟩⟩

theorem mem_adc_pair {pool : Pool} {parallel : ParallelStrategy} {ci cj x : TermId}
    {hit : Triple × Provenance} :
    (x, hit) ∈ adc_pair pool st v parallel ci cj ↔
      st.contains ⟨x, v.rdf_type, ci⟩ = true ∧ st.contains ⟨x, v.rdf_type, cj⟩ = true ∧
        st.contains ⟨x, v.rdf_type, v.owl_nothing⟩ = false ∧
        hit = (⟨x, v.rdf_type, v.owl_nothing⟩,
          ⟨"cax-adc", [⟨x, v.rdf_type, ci⟩, ⟨x, v.rdf_type, cj⟩]⟩) := by
  rw [adc_pair, map_subjects_eq, List.mem_filterMap]
  constructor
  · rintro ⟨y, hy, h⟩
    rw [mem_instances] at hy
    rw [Option.ite_none_left_eq_some, Option.ite_none_left_eq_some, Bool.not_eq_true',
      Bool.not_eq_false, Bool.not_eq_true, Option.some.injEq, Prod.mk.injEq] at h
    obtain ⟨hcj, hno, rfl, rfl⟩ := h
    exact ⟨hy, hcj, hno, rfl⟩
  · rintro ⟨hci, hcj, hno, rfl⟩
    exact ⟨x, mem_instances.mpr hci, by simp [hcj, hno]⟩

theorem fire_cax_adc_adds (st : MemStore) (v : Vocabulary) (pool : Pool)
    (parallel : ParallelStrategy) (cs : List TermId) :
    Adds st (fire_cax_adc pool st v cs parallel) fun t prov =>
      ∃ ci cj x, (ci, cj) ∈ pairs_after cs ∧ st.contains ⟨x, v.rdf_type, ci⟩ = true ∧
        st.contains ⟨x, v.rdf_type, cj⟩ = true ∧ t = ⟨x, v.rdf_type, v.owl_nothing⟩ ∧
        prov = ⟨"cax-adc", [⟨x, v.rdf_type, ci⟩, ⟨x, v.rdf_type, cj⟩]⟩ := by
  unfold fire_cax_adc
  refine Adds.extend ?_ ?_
  · intro t prov h
    obtain ⟨⟨x, hit⟩, hfirst, rfl⟩ := List.mem_map.mp h
    obtain ⟨⟨ci, cj⟩, hpair, hx⟩ := List.mem_flatMap.mp (mem_of_mem_first_by hfirst)
    rw [mem_adc_pair] at hx
    obtain ⟨hci, hcj, -, heq⟩ := hx
    rw [Prod.mk.injEq] at heq
    exact ⟨ci, cj, x, hpair, hci, hcj, heq.1, heq.2⟩
  · rintro t prov ⟨ci, cj, x, hpair, hci, hcj, rfl, -⟩ hno
    have hmem : (x, _) ∈ (pairs_after cs).flatMap fun e => adc_pair pool st v parallel e.1 e.2 :=
      List.mem_flatMap.mpr ⟨(ci, cj), hpair, mem_adc_pair.mpr ⟨hci, hcj, hno, rfl⟩⟩
    obtain ⟨⟨x', hit⟩, hfirst, heq⟩ := exists_mem_first_by Prod.fst hmem
    dsimp only at heq
    subst heq
    obtain ⟨⟨ci', cj'⟩, -, hx⟩ := List.mem_flatMap.mp (mem_of_mem_first_by hfirst)
    rw [mem_adc_pair] at hx
    obtain ⟨-, -, -, rfl⟩ := hx
    exact ⟨_, List.mem_map.mpr ⟨_, hfirst, rfl⟩⟩

theorem fire_prp_adp_adds (st : MemStore) (v : Vocabulary) (props : List TermId) :
    Adds st (fire_prp_adp st v props) fun t prov =>
      ∃ pi pj u w, (pi, pj) ∈ pairs_after props ∧ st.contains ⟨u, pi, w⟩ = true ∧
        st.contains ⟨u, pj, w⟩ = true ∧ t = ⟨u, v.rdf_type, v.owl_nothing⟩ ∧
        prov = ⟨"prp-adp", [⟨u, pi, w⟩, ⟨u, pj, w⟩]⟩ := by
  refine (Adds.foldl (pairs_after props) fun e _ =>
    Adds.foldl (st.scan_predicate e.1) fun t _ => Adds.ite Adds.emit).congr ?_
  intro t prov
  constructor
  · rintro ⟨⟨pi, pj⟩, hpair, ⟨u, p, w⟩, hu, hpj, rfl, rfl⟩
    rw [MemStore.mem_scan_predicate] at hu
    obtain ⟨hc, rfl⟩ := hu
    exact ⟨p, pj, u, w, hpair, hc, hpj, rfl, rfl⟩
  · rintro ⟨pi, pj, u, w, hpair, hpi, hpj, rfl, rfl⟩
    exact ⟨(pi, pj), hpair, ⟨u, pi, w⟩, MemStore.mem_scan_predicate.mpr ⟨hpi, rfl⟩, hpj, rfl, rfl⟩

theorem fire_eq_diff_list_adds (st : MemStore) (v : Vocabulary)
    (ad members_pred listhead : TermId) (xs : List TermId) :
    Adds st (fire_eq_diff_list v ad members_pred listhead xs) fun t prov =>
      ∃ (i j : Nat) (x y : TermId), xs[i]? = some x ∧ xs[j]? = some y ∧ i ≠ j ∧
        t = ⟨x, v.owl_different_from, y⟩ ∧
        prov = ⟨"eq-diff2", [⟨ad, members_pred, listhead⟩]⟩ := by
  have hne : ∀ (e f : TermId × Nat), Adds st (fun out => if e.2 = f.2 then out
      else emit_pair out "eq-diff2" e.1 v.owl_different_from f.1 [⟨ad, members_pred, listhead⟩])
      fun t prov => e.2 ≠ f.2 ∧ t = ⟨e.1, v.owl_different_from, f.1⟩ ∧
        prov = ⟨"eq-diff2", [⟨ad, members_pred, listhead⟩]⟩ := by
    intro e f
    simp only [← ite_not (p := e.2 = f.2)]
    exact Adds.ite Adds.emit_pair
  refine (Adds.foldl xs.zipIdx fun e _ => Adds.foldl xs.zipIdx fun f _ => hne e f).congr ?_
  intro t prov
  constructor
  · rintro ⟨⟨x, i⟩, hi, ⟨y, j⟩, hj, hij, rfl, rfl⟩
    exact ⟨i, j, x, y, List.mem_zipIdx_iff_getElem?.mp hi, List.mem_zipIdx_iff_getElem?.mp hj,
      hij, rfl, rfl⟩
  · rintro ⟨i, j, x, y, hi, hj, hij, rfl, rfl⟩
    exact ⟨(x, i), List.mem_zipIdx_iff_getElem?.mpr hi, (y, j),
      List.mem_zipIdx_iff_getElem?.mpr hj, hij, rfl, rfl⟩

theorem Adds.emit_both {rule_id : RuleId} {premises : List Triple} {y1 y2 : TermId} :
    Adds st (fun d => emit_both st v rule_id premises d y1 y2) fun t prov =>
      y1 ≠ y2 ∧ (t = ⟨y1, v.owl_same_as, y2⟩ ∨ t = ⟨y2, v.owl_same_as, y1⟩) ∧
        prov = ⟨rule_id, premises⟩ := by
  unfold horndb.owlrl.emit_both
  simp only [← ite_not (p := y1 = y2)]
  refine (Adds.ite (Adds.comp Adds.emit Adds.emit)).congr ?_
  intro t prov
  rw [← or_and_right, ne_eq]

/-- Two different values of a list, in whatever order the pair of them stands there. -/
theorem pairs_of_values {rule_id : RuleId} {ys : List TermId} {u : Triple}
    (f : TermId → Triple) :
    Adds st (fun d => (pairs_after ys).foldl (fun d e =>
      emit_both st v rule_id [u, f e.1, f e.2] d e.1 e.2) d) fun t prov =>
      ∃ y1 y2 a b, (y1, y2) ∈ pairs_after ys ∧ y1 ≠ y2 ∧
        ((a, b) = (y1, y2) ∨ (a, b) = (y2, y1)) ∧ t = ⟨a, v.owl_same_as, b⟩ ∧
        prov = ⟨rule_id, [u, f y1, f y2]⟩ := by
  refine (Adds.foldl (pairs_after ys) fun e _ => Adds.emit_both).congr ?_
  intro t prov
  constructor
  · rintro ⟨⟨y1, y2⟩, hpair, hne, rfl | rfl, rfl⟩
    · exact ⟨y1, y2, y1, y2, hpair, hne, Or.inl rfl, rfl, rfl⟩
    · exact ⟨y1, y2, y2, y1, hpair, hne, Or.inr rfl, rfl, rfl⟩
  · rintro ⟨y1, y2, a, b, hpair, hne, hab | hab, rfl, rfl⟩
    · obtain ⟨rfl, rfl⟩ := Prod.mk.inj hab
      exact ⟨(a, b), hpair, hne, Or.inl rfl, rfl⟩
    · obtain ⟨rfl, rfl⟩ := Prod.mk.inj hab
      exact ⟨(b, a), hpair, hne, Or.inr rfl, rfl⟩

/-! ## Cardinalities -/

theorem first_value_adds (st : MemStore) (v : Vocabulary) (r : MaxCardRestriction) (u : TermId) :
    Adds st (fun out => match (values_of st u r.property).head? with
      | none => out
      | some y => emit st out ⟨u, v.rdf_type, v.owl_nothing⟩
          ⟨"cls-maxc1", [⟨u, v.rdf_type, r.class⟩, ⟨u, r.property, y⟩]⟩) fun t prov =>
      ∃ y, (values_of st u r.property).head? = some y ∧ t = ⟨u, v.rdf_type, v.owl_nothing⟩ ∧
        prov = ⟨"cls-maxc1", [⟨u, v.rdf_type, r.class⟩, ⟨u, r.property, y⟩]⟩ := by
  cases (values_of st u r.property).head? with
  | none => exact Adds.nothing.congr (by simp)
  | some y => exact Adds.emit.congr (by simp)

theorem fire_cls_maxc1_adds (st : MemStore) (v : Vocabulary) (r : MaxCardRestriction) :
    Adds st (fire_cls_maxc1 st v r) fun t prov =>
      ∃ u y, st.contains ⟨u, v.rdf_type, r.class⟩ = true ∧
        st.contains ⟨u, r.property, y⟩ = true ∧ t = ⟨u, v.rdf_type, v.owl_nothing⟩ ∧
        prov = ⟨"cls-maxc1", [⟨u, v.rdf_type, r.class⟩, ⟨u, r.property, y⟩]⟩ := by
  refine (Adds.foldl (instances st v r.class) fun u _ => first_value_adds st v r u).change ?_ ?_
  · rintro t prov ⟨u, hu, y, hy, rfl, rfl⟩
    exact ⟨u, y, mem_instances.mp hu, mem_values_of.mp (List.mem_of_mem_head? hy), rfl, rfl⟩
  · rintro t prov ⟨u, y, hu, hy, rfl, rfl⟩
    have hne : values_of st u r.property ≠ [] := List.ne_nil_of_mem (mem_values_of.mpr hy)
    exact ⟨_, u, mem_instances.mpr hu, _, List.head?_eq_some_head hne, rfl, rfl⟩

theorem fire_cls_maxc2_adds (st : MemStore) (v : Vocabulary) (r : MaxCardRestriction) :
    Adds st (fire_cls_maxc2 st v r) fun t prov =>
      ∃ u y1 y2 a b, st.contains ⟨u, v.rdf_type, r.class⟩ = true ∧
        st.contains ⟨u, r.property, y1⟩ = true ∧ st.contains ⟨u, r.property, y2⟩ = true ∧
        y1 ≠ y2 ∧ ((a, b) = (y1, y2) ∨ (a, b) = (y2, y1)) ∧ t = ⟨a, v.owl_same_as, b⟩ ∧
        prov = ⟨"cls-maxc2",
          [⟨u, v.rdf_type, r.class⟩, ⟨u, r.property, y1⟩, ⟨u, r.property, y2⟩]⟩ := by
  refine (Adds.foldl (instances st v r.class) fun u _ =>
    pairs_of_values fun y => ⟨u, r.property, y⟩).change ?_ ?_
  · rintro t prov ⟨u, hu, y1, y2, a, b, hpair, hne, hab, rfl, rfl⟩
    obtain ⟨hy1, hy2⟩ := mem_pairs_after hpair
    exact ⟨u, y1, y2, a, b, mem_instances.mp hu, mem_values_of.mp hy1, mem_values_of.mp hy2, hne,
      hab, rfl, rfl⟩
  · rintro t prov ⟨u, y1, y2, a, b, hu, hy1, hy2, hne, hab, rfl, rfl⟩
    have hu := mem_instances.mpr hu
    rcases pairs_after_of_mem (mem_values_of.mpr hy1) (mem_values_of.mpr hy2) hne with hp | hp
    · exact ⟨_, u, hu, y1, y2, a, b, hp, hne, hab, rfl, rfl⟩
    · exact ⟨_, u, hu, y2, y1, a, b, hp, hne.symm, hab.symm, rfl, rfl⟩

theorem qualified_value_adds (st : MemStore) (v : Vocabulary) (r : QualMaxCardRestriction)
    (rule_id : String) (u : TermId) :
    Adds st (fun out => match (values_of st u r.property).find? fun y =>
        qualifies st v y r.filler with
      | none => out
      | some y => emit st out ⟨u, v.rdf_type, v.owl_nothing⟩
          ⟨rule_id, [⟨u, v.rdf_type, r.class⟩, ⟨u, r.property, y⟩]⟩) fun t prov =>
      ∃ y, ((values_of st u r.property).find? fun y => qualifies st v y r.filler) = some y ∧
        t = ⟨u, v.rdf_type, v.owl_nothing⟩ ∧
        prov = ⟨rule_id, [⟨u, v.rdf_type, r.class⟩, ⟨u, r.property, y⟩]⟩ := by
  cases (values_of st u r.property).find? fun y => qualifies st v y r.filler with
  | none => exact Adds.nothing.congr (by simp)
  | some y => exact Adds.emit.congr (by simp)

theorem fire_cls_maxqc_zero_adds (st : MemStore) (v : Vocabulary)
    (r : QualMaxCardRestriction) :
    Adds st (fire_cls_maxqc_zero st v r) fun t prov =>
      ∃ u y, st.contains ⟨u, v.rdf_type, r.class⟩ = true ∧
        st.contains ⟨u, r.property, y⟩ = true ∧
        (∀ p ∈ filler_premises v r.filler y, st.contains p = true) ∧
        t = ⟨u, v.rdf_type, v.owl_nothing⟩ ∧
        prov = ⟨if r.filler = v.owl_thing then "cls-maxqc2" else "cls-maxqc1",
          [⟨u, v.rdf_type, r.class⟩, ⟨u, r.property, y⟩]⟩ := by
  unfold fire_cls_maxqc_zero
  dsimp only
  generalize (if r.filler = v.owl_thing then "cls-maxqc2" else "cls-maxqc1") = rule_id
  refine (Adds.foldl (instances st v r.class) fun u _ =>
    qualified_value_adds st v r rule_id u).change ?_ ?_
  · rintro t prov ⟨u, hu, y, hy, rfl, rfl⟩
    have hq := List.find?_some hy
    exact ⟨u, y, mem_instances.mp hu, mem_values_of.mp (List.mem_of_find?_eq_some hy),
      qualifies_iff.mp hq, rfl, rfl⟩
  · rintro t prov ⟨u, y, hu, hy, hq, rfl, rfl⟩
    have hsome : ((values_of st u r.property).find? fun y =>
        qualifies st v y r.filler).isSome = true :=
      List.find?_isSome.mpr ⟨y, mem_values_of.mpr hy, qualifies_iff.mpr hq⟩
    obtain ⟨y', hy'⟩ := Option.isSome_iff_exists.mp hsome
    exact ⟨_, u, mem_instances.mpr hu, y', hy', rfl, rfl⟩

theorem fire_cls_maxqc_one_adds (st : MemStore) (v : Vocabulary)
    (r : QualMaxCardRestriction) :
    Adds st (fire_cls_maxqc_one st v r) fun t prov =>
      ∃ u y1 y2 a b, st.contains ⟨u, v.rdf_type, r.class⟩ = true ∧
        st.contains ⟨u, r.property, y1⟩ = true ∧ st.contains ⟨u, r.property, y2⟩ = true ∧
        (∀ p ∈ filler_premises v r.filler y1, st.contains p = true) ∧
        (∀ p ∈ filler_premises v r.filler y2, st.contains p = true) ∧
        y1 ≠ y2 ∧ ((a, b) = (y1, y2) ∨ (a, b) = (y2, y1)) ∧ t = ⟨a, v.owl_same_as, b⟩ ∧
        prov = ⟨if r.filler = v.owl_thing then "cls-maxqc4" else "cls-maxqc3",
          [⟨u, v.rdf_type, r.class⟩, ⟨u, r.property, y1⟩, ⟨u, r.property, y2⟩]⟩ := by
  unfold fire_cls_maxqc_one
  dsimp only
  generalize (if r.filler = v.owl_thing then "cls-maxqc4" else "cls-maxqc3") = rule_id
  have hmem : ∀ u y, y ∈ (values_of st u r.property).filter (fun y =>
      qualifies st v y r.filler) ↔ st.contains ⟨u, r.property, y⟩ = true ∧
        ∀ p ∈ filler_premises v r.filler y, st.contains p = true := by
    intro u y
    rw [List.mem_filter, mem_values_of, qualifies_iff]
  refine (Adds.foldl (instances st v r.class) fun u _ =>
    pairs_of_values fun y => ⟨u, r.property, y⟩).change ?_ ?_
  · rintro t prov ⟨u, hu, y1, y2, a, b, hpair, hne, hab, rfl, rfl⟩
    obtain ⟨hy1, hy2⟩ := mem_pairs_after hpair
    rw [hmem] at hy1 hy2
    exact ⟨u, y1, y2, a, b, mem_instances.mp hu, hy1.1, hy2.1, hy1.2, hy2.2, hne, hab, rfl, rfl⟩
  · rintro t prov ⟨u, y1, y2, a, b, hu, hy1, hy2, hq1, hq2, hne, hab, rfl, rfl⟩
    have hu := mem_instances.mpr hu
    rcases pairs_after_of_mem ((hmem u y1).mpr ⟨hy1, hq1⟩) ((hmem u y2).mpr ⟨hy2, hq2⟩) hne
      with hp | hp
    · exact ⟨_, u, hu, y1, y2, a, b, hp, hne, hab, rfl, rfl⟩
    · exact ⟨_, u, hu, y2, y1, a, b, hp, hne.symm, hab.symm, rfl, rfl⟩

end horndb.owlrl
