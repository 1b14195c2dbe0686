-- All list rules together: what a round of them finds, and which rows have to be new for it to
-- look. A rule is skipped only where no row that it reads is new.
import HornDb.ListRulesMeaning

open Std (ExtTreeSet)

namespace horndb.owlrl

variable {st : MemStore} {v : Vocabulary} {ax : SchemaAxioms}
  {dirty : Option (ExtTreeSet TermId)} {pool : Pool} {parallel : ParallelStrategy}

/-- The proof is an instance of a list rule over the store, or one that follows from the schema. -/
def ListFound (st : MemStore) (v : Vocabulary) (ax : SchemaAxioms) (t : Triple)
    (prov : Provenance) : Prop :=
  (∃ side, ListInstance v ax prov.rule_id prov.premises side t ∧
      ∀ p ∈ prov.premises ++ side, st.contains p = true) ∨
    ∃ axm, prov.premises = [axm] ∧ SchemaInstance v ax prov.rule_id axm t

/-- Some row that a list instance reads has a dirty predicate. -/
def ReadsDirty (dirty : Option (ExtTreeSet TermId)) (ps : List Triple) : Prop :=
  ∀ d, dirty = some d → ∃ p ∈ ps, p.p ∈ d

theorem is_dirty_iff {p : TermId} : is_dirty dirty p = true ↔ ∀ d, dirty = some d → p ∈ d := by
  cases dirty with
  | none => simp [is_dirty]
  | some d => simp [is_dirty]

theorem isNone_iff_no_dirty : dirty.isNone = true ↔ dirty = none := Option.isNone_iff_eq_none

theorem Adds.fire_when {α : Type} (relevant : Bool) (axioms : List α) {fire : α → Delta → Delta}
    {C : α → Triple → Provenance → Prop} (h : ∀ a, Adds st (fire a) (C a)) :
    Adds st (fire_when relevant axioms fire) fun t prov =>
      relevant = true ∧ ∃ a ∈ axioms, C a t prov := by
  unfold horndb.owlrl.fire_when
  refine (Adds.ite (Adds.foldl axioms fun a _ => h a)).congr ?_
  intro t prov
  rw [Bool.and_eq_true, Bool.not_eq_true', List.isEmpty_eq_false_iff]
  constructor
  · rintro ⟨⟨-, hrel⟩, hex⟩
    exact ⟨hrel, hex⟩
  · rintro ⟨hrel, a, ha, hC⟩
    exact ⟨⟨List.ne_nil_of_mem ha, hrel⟩, a, ha, hC⟩

/-! ## The predicates of a walk -/

theorem path_predicates {ps : List TermId} {u w : TermId} {path : List Triple}
    (h : Path ps u w path) : path.map Triple.p = ps := by
  induction ps generalizing u path with
  | nil =>
    rw [h.2]
    rfl
  | cons p ps ih =>
    obtain ⟨m, rest, rfl, hrest⟩ := h
    rw [List.map_cons, ih hrest]

theorem key_premises_predicates {c p0 x y z0 : TermId} {rest zs : List TermId} {p : Triple}
    (h : p ∈ key_premises v c p0 x y z0 rest zs) : p.p = v.rdf_type ∨ p.p ∈ p0 :: rest := by
  rw [key_premises, List.mem_append] at h
  rcases h with h | h
  · simp only [List.mem_cons, List.not_mem_nil, or_false] at h
    rcases h with rfl | rfl | rfl | rfl
    · exact Or.inl rfl
    · exact Or.inl rfl
    · exact Or.inr List.mem_cons_self
    · exact Or.inr List.mem_cons_self
  · obtain ⟨e, he, hp⟩ := List.mem_flatMap.mp h
    have hmem := (List.of_mem_zip he).1
    simp only [List.mem_cons, List.not_mem_nil, or_false] at hp
    rcases hp with rfl | rfl
    · exact Or.inr (List.mem_cons_of_mem _ hmem)
    · exact Or.inr (List.mem_cons_of_mem _ hmem)

theorem filler_premises_predicate {filler y : TermId} {p : Triple}
    (h : p ∈ filler_premises v filler y) : p.p = v.rdf_type := by
  unfold filler_premises at h
  split at h
  · cases h
  · rw [List.mem_singleton] at h
    rw [h]

/-! ## The gates -/

theorem chains_dirty {head : TermId} {chain : List TermId} {path : List Triple} {u w : TermId}
    (hax : (head, chain) ∈ ax.property_chains) (hpath : Path chain u w path)
    (hd : ReadsDirty dirty path) : any_dirty_for_chains ax dirty = true := by
  unfold any_dirty_for_chains
  cases dirty with
  | none => rfl
  | some d =>
    obtain ⟨p, hp, hpd⟩ := hd d rfl
    rw [Option.isNone_some, Bool.false_or, List.any_eq_true]
    refine ⟨(head, chain), hax, ?_⟩
    rw [Bool.or_eq_true, List.any_eq_true]
    refine Or.inr ⟨p.p, ?_, is_dirty_iff.mpr fun d' hd' => Option.some.inj hd' ▸ hpd⟩
    rw [← path_predicates hpath]
    exact List.mem_map_of_mem hp

theorem keys_dirty {c : TermId} {ps : List TermId} {premises : List Triple}
    (hax : (c, ps) ∈ ax.keys) (hpred : ∀ p ∈ premises, p.p = v.rdf_type ∨ p.p ∈ ps)
    (hd : ReadsDirty dirty premises) : any_dirty_for_keys ax v dirty = true := by
  unfold any_dirty_for_keys
  cases dirty with
  | none => rfl
  | some d =>
    obtain ⟨p, hp, hpd⟩ := hd d rfl
    have hdirty : is_dirty (some d) p.p = true :=
      is_dirty_iff.mpr fun d' hd' => Option.some.inj hd' ▸ hpd
    rw [Option.isNone_some, Bool.false_or, Bool.or_eq_true, List.any_eq_true]
    rcases hpred p hp with h | h
    · exact Or.inl (h ▸ hdirty)
    · exact Or.inr ⟨(c, ps), hax, List.any_eq_true.mpr ⟨p.p, h, hdirty⟩⟩

theorem disjoint_properties_dirty {props : List TermId} {premises : List Triple}
    (hax : props ∈ ax.all_disjoint_properties) (hpred : ∀ p ∈ premises, p.p ∈ props)
    (hd : ReadsDirty dirty premises) : any_dirty_for_disjoint_properties ax dirty = true := by
  unfold any_dirty_for_disjoint_properties
  cases dirty with
  | none => rfl
  | some d =>
    obtain ⟨p, hp, hpd⟩ := hd d rfl
    rw [Option.isNone_some, Bool.false_or, List.any_eq_true]
    refine ⟨props, hax, List.any_eq_true.mpr ⟨p.p, hpred p hp, ?_⟩⟩
    exact is_dirty_iff.mpr fun d' hd' => Option.some.inj hd' ▸ hpd

theorem type_dirty {premises : List Triple} (hpred : ∀ p ∈ premises, p.p = v.rdf_type)
    (hd : ReadsDirty dirty premises) : is_dirty dirty v.rdf_type = true := by
  rw [is_dirty_iff]
  intro d heq
  obtain ⟨p, hp, hpd⟩ := hd d heq
  rwa [hpred p hp] at hpd

theorem restriction_dirty (v : Vocabulary) (property : TermId) {premises : List Triple}
    (hpred : ∀ p ∈ premises, p.p = v.rdf_type ∨ p.p = property) (hd : ReadsDirty dirty premises) :
    (is_dirty dirty v.rdf_type || is_dirty dirty property) = true := by
  cases dirty with
  | none => rfl
  | some d =>
    obtain ⟨p, hp, hpd⟩ := hd d rfl
    have hdirty : is_dirty (some d) p.p = true :=
      is_dirty_iff.mpr fun d' hd' => Option.some.inj hd' ▸ hpd
    rw [Bool.or_eq_true]
    rcases hpred p hp with h | h
    · exact Or.inl (h ▸ hdirty)
    · exact Or.inr (h ▸ hdirty)

/-! ## A round of all rules -/

theorem fire_max_card_adds (st : MemStore) (v : Vocabulary) (r : MaxCardRestriction) :
    Adds st (fire_max_card st v r) fun t prov =>
      (r.max = 0 ∧ ∃ u y, st.contains ⟨u, v.rdf_type, r.class⟩ = true ∧
        st.contains ⟨u, r.property, y⟩ = true ∧ t = ⟨u, v.rdf_type, v.owl_nothing⟩ ∧
        prov = ⟨"cls-maxc1", [⟨u, v.rdf_type, r.class⟩, ⟨u, r.property, y⟩]⟩) ∨
      (r.max = 1 ∧ ∃ u y1 y2 a b, st.contains ⟨u, v.rdf_type, r.class⟩ = true ∧
        st.contains ⟨u, r.property, y1⟩ = true ∧ st.contains ⟨u, r.property, y2⟩ = true ∧
        y1 ≠ y2 ∧ ((a, b) = (y1, y2) ∨ (a, b) = (y2, y1)) ∧ t = ⟨a, v.owl_same_as, b⟩ ∧
        prov = ⟨"cls-maxc2",
          [⟨u, v.rdf_type, r.class⟩, ⟨u, r.property, y1⟩, ⟨u, r.property, y2⟩]⟩) := by
  unfold fire_max_card
  split
  · rename_i h
    exact (fire_cls_maxc1_adds st v r).congr (by simp [h])
  · rename_i h
    exact (fire_cls_maxc2_adds st v r).congr (by simp [h])
  · rename_i h₀ h₁
    refine Adds.nothing.congr fun t prov => ⟨False.elim, ?_⟩
    rintro (⟨h, -⟩ | ⟨h, -⟩)
    · exact h₀ h
    · exact h₁ h

theorem fire_qual_max_card_adds (st : MemStore) (v : Vocabulary) (r : QualMaxCardRestriction) :
    Adds st (fire_qual_max_card st v r) fun t prov =>
      (r.max = 0 ∧ ∃ u y, st.contains ⟨u, v.rdf_type, r.class⟩ = true ∧
        st.contains ⟨u, r.property, y⟩ = true ∧
        (∀ p ∈ filler_premises v r.filler y, st.contains p = true) ∧
        t = ⟨u, v.rdf_type, v.owl_nothing⟩ ∧
        prov = ⟨if r.filler = v.owl_thing then "cls-maxqc2" else "cls-maxqc1",
          [⟨u, v.rdf_type, r.class⟩, ⟨u, r.property, y⟩]⟩) ∨
      (r.max = 1 ∧ ∃ u y1 y2 a b, st.contains ⟨u, v.rdf_type, r.class⟩ = true ∧
        st.contains ⟨u, r.property, y1⟩ = true ∧ st.contains ⟨u, r.property, y2⟩ = true ∧
        (∀ p ∈ filler_premises v r.filler y1, st.contains p = true) ∧
        (∀ p ∈ filler_premises v r.filler y2, st.contains p = true) ∧
        y1 ≠ y2 ∧ ((a, b) = (y1, y2) ∨ (a, b) = (y2, y1)) ∧ t = ⟨a, v.owl_same_as, b⟩ ∧
        prov = ⟨if r.filler = v.owl_thing then "cls-maxqc4" else "cls-maxqc3",
          [⟨u, v.rdf_type, r.class⟩, ⟨u, r.property, y1⟩, ⟨u, r.property, y2⟩]⟩) := by
  unfold fire_qual_max_card
  split
  · rename_i h
    exact (fire_cls_maxqc_zero_adds st v r).congr (by simp [h])
  · rename_i h
    exact (fire_cls_maxqc_one_adds st v r).congr (by simp [h])
  · rename_i h₀ h₁
    refine Adds.nothing.congr fun t prov => ⟨False.elim, ?_⟩
    rintro (⟨h, -⟩ | ⟨h, -⟩)
    · exact h₀ h
    · exact h₁ h

/-- A round finds instances only, and all whose reading it cannot rule out. -/
theorem fire_all_adds (st : MemStore) (v : Vocabulary) (dirty : Option (ExtTreeSet TermId))
    (pool : Pool) (parallel : ParallelStrategy) (hax : ax.is_empty = false) :
    ∃ F C, fire_all pool st ax v dirty parallel = F .new ∧ Adds st F C ∧
      (∀ t prov, C t prov → ListFound st v ax t prov) ∧
      (∀ id cited side t, ListInstance v ax id cited side t →
        (∀ p ∈ cited ++ side, st.contains p = true) → ReadsDirty dirty (cited ++ side) →
          C t ⟨id, cited⟩) ∧
      ∀ id axm t, SchemaInstance v ax id axm t → dirty = none → C t ⟨id, [axm]⟩ := by
  have hall := (((((((((Adds.fire_when (any_dirty_for_chains ax dirty) ax.property_chains
      fun a => fire_prp_spo2_adds st a.1 a.2).comp
    (Adds.fire_when (any_dirty_for_keys ax v dirty) ax.keys
      fun a => fire_prp_key_adds st v pool parallel a.1 a.2)).comp
    (Adds.fire_when (is_dirty dirty v.rdf_type) ax.intersections
      fun a => fire_cls_int1_adds st v pool parallel a.1 a.2.2)).comp
    (Adds.fire_when dirty.isNone ax.intersections
      fun a => fire_scm_int_adds st v a.1 a.2.1 a.2.2)).comp
    (Adds.fire_when (is_dirty dirty v.rdf_type) ax.unions
      fun a => fire_cls_uni_adds st v pool parallel a.1 a.2)).comp
    (Adds.fire_when (is_dirty dirty v.rdf_type) ax.all_disjoint_classes
      fun a => fire_cax_adc_adds st v pool parallel a)).comp
    (Adds.fire_when (any_dirty_for_disjoint_properties ax dirty) ax.all_disjoint_properties
      fun a => fire_prp_adp_adds st v a)).comp
    (Adds.fire_when dirty.isNone ax.all_different
      fun a => fire_eq_diff_list_adds st v a.1 a.2.1 a.2.2.1 a.2.2.2)).comp
    (Adds.foldl ax.max_card_restrictions fun r _ =>
      Adds.ite (c := (is_dirty dirty v.rdf_type || is_dirty dirty r.property) = true)
        (fire_max_card_adds st v r))).comp
    (Adds.foldl ax.qual_max_card_restrictions fun r _ =>
      Adds.ite (c := (is_dirty dirty v.rdf_type || is_dirty dirty r.property) = true)
        (fire_qual_max_card_adds st v r))
  refine ⟨_, _, ?_, hall, ?_, ?_, ?_⟩
  · rw [fire_all, hax]
    rfl
  · rintro t prov (((((((((⟨-, a, ha, u, w, path, hne, hpath, hin, rfl, rfl⟩ |
      ⟨-, a, ha, p0, rest, x, y, z0, zs, hps, hne, hlen, hin, rfl, rfl⟩) |
      ⟨-, a, ha, x, hne, hin, rfl, rfl⟩) | ⟨-, a, ha, ci, hci, rfl, rfl⟩) |
      ⟨-, a, ha, x, ci, hci, hin, rfl, rfl⟩) | ⟨-, a, ha, ci, cj, x, hpair, hi, hj, rfl, rfl⟩) |
      ⟨-, a, ha, pi, pj, u, w, hpair, hi, hj, rfl, rfl⟩) |
      ⟨-, a, ha, i, j, x, y, hi, hj, hij, rfl, rfl⟩) | ⟨r, hr, -, hmax⟩) | ⟨r, hr, -, hmax⟩)
    · exact Or.inl ⟨[], .prp_spo2 ha hne hpath, by simpa using hin⟩
    · obtain ⟨c, ps⟩ := a
      dsimp only at hps hin
      subst hps
      exact Or.inl ⟨[], .prp_key ha hne hlen, by simpa using hin⟩
    · exact Or.inl ⟨[], .cls_int1 ha hne, by simpa using hin⟩
    · exact Or.inr ⟨_, rfl, .scm_int ha hci⟩
    · exact Or.inl ⟨[], .cls_uni ha hci, by simpa using hin⟩
    · exact Or.inl ⟨[], .cax_adc ha hpair, by simp [hi, hj]⟩
    · exact Or.inl ⟨[], .prp_adp ha hpair, by simp [hi, hj]⟩
    · exact Or.inr ⟨_, rfl, .eq_diff2 ha hi hj hij⟩
    · rcases hmax with ⟨h0, u, y, hu, hy, rfl, rfl⟩ |
        ⟨h1, u, y1, y2, a, b, hu, hy1, hy2, hne, hab, rfl, rfl⟩
      · exact Or.inl ⟨[], .cls_maxc1 hr h0, by simp [hu, hy]⟩
      · exact Or.inl ⟨[], .cls_maxc2 hr h1 hne hab, by simp [hu, hy1, hy2]⟩
    · rcases hmax with ⟨h0, u, y, hu, hy, hq, rfl, rfl⟩ |
        ⟨h1, u, y1, y2, a, b, hu, hy1, hy2, hq1, hq2, hne, hab, rfl, rfl⟩
      · refine Or.inl ⟨_, .cls_maxqc_zero hr h0, ?_⟩
        rw [List.forall_mem_append]
        exact ⟨by simp [hu, hy], hq⟩
      · refine Or.inl ⟨_, .cls_maxqc_one hr h1 hne hab, ?_⟩
        rw [List.forall_mem_append, List.forall_mem_append]
        exact ⟨by simp [hu, hy1, hy2], hq1, hq2⟩
  · intro id cited side t hinst hin hd
    rw [List.forall_mem_append] at hin
    cases hinst with
    | prp_spo2 hax hne hpath =>
      rw [List.append_nil] at hd
      exact .inl (.inl (.inl (.inl (.inl (.inl (.inl (.inl (.inl ⟨chains_dirty hax hpath hd, _, hax,
        _, _, _, hne, hpath, hin.1, rfl, rfl⟩))))))))
    | prp_key hax hne hlen =>
      rw [List.append_nil] at hd
      have hrel := keys_dirty hax (fun p hp => key_premises_predicates hp) hd
      exact .inl (.inl (.inl (.inl (.inl (.inl (.inl (.inl (.inr ⟨hrel, _, hax,
        _, _, _, _, _, _, rfl, hne, hlen, hin.1, rfl, rfl⟩))))))))
    | cls_int1 hax hne =>
      have hrel : is_dirty dirty v.rdf_type = true := type_dirty (by simp) hd
      refine .inl (.inl (.inl (.inl (.inl (.inl (.inl (.inr
        ⟨hrel, _, hax, _, hne, ?_, rfl, rfl⟩)))))))
      exact fun ci hci => hin.1 _ (List.mem_map.mpr ⟨ci, hci, rfl⟩)
    | cls_uni hax hci =>
      have hrel : is_dirty dirty v.rdf_type = true := type_dirty (by simp) hd
      exact .inl (.inl (.inl (.inl (.inl (.inr ⟨hrel, _, hax, _, _, hci, hin.1 _ (by simp), rfl,
        rfl⟩)))))
    | cax_adc hax hpair =>
      have hrel : is_dirty dirty v.rdf_type = true := type_dirty (by simp) hd
      exact .inl (.inl (.inl (.inl (.inr ⟨hrel, _, hax, _, _, _, hpair, hin.1 _ (by simp),
        hin.1 _ (by simp), rfl, rfl⟩))))
    | prp_adp hax hpair =>
      obtain ⟨hpi, hpj⟩ := mem_pairs_after hpair
      have hrel := disjoint_properties_dirty hax (by simp [hpi, hpj]) hd
      exact .inl (.inl (.inl (.inr ⟨hrel, _, hax, _, _, _, _, hpair, hin.1 _ (by simp),
        hin.1 _ (by simp), rfl, rfl⟩)))
    | cls_maxc1 hax hmax =>
      rename_i r u y
      have hrel := restriction_dirty v r.property (by simp) hd
      exact .inl (.inr ⟨r, hax, hrel, .inl ⟨hmax, _, _, hin.1 _ (by simp), hin.1 _ (by simp), rfl,
        rfl⟩⟩)
    | cls_maxc2 hax hmax hne hab =>
      rename_i r u y1 y2 a b
      have hrel := restriction_dirty v r.property (by simp) hd
      exact .inl (.inr ⟨r, hax, hrel, .inr ⟨hmax, _, _, _, _, _, hin.1 _ (by simp),
        hin.1 _ (by simp), hin.1 _ (by simp), hne, hab, rfl, rfl⟩⟩)
    | cls_maxqc_zero hax hmax =>
      rename_i r u y
      have hrel := restriction_dirty v r.property (fun p hp => ?_) hd
      · exact .inr ⟨r, hax, hrel, .inl ⟨hmax, _, _, hin.1 _ (by simp), hin.1 _ (by simp), hin.2,
          rfl, rfl⟩⟩
      · rcases List.mem_append.mp hp with hp | hp
        · simp only [List.mem_cons, List.not_mem_nil, or_false] at hp
          rcases hp with rfl | rfl <;> simp
        · exact Or.inl (filler_premises_predicate hp)
    | cls_maxqc_one hax hmax hne hab =>
      rename_i r u y1 y2 a b
      rw [List.forall_mem_append] at hin
      have hrel := restriction_dirty v r.property (fun p hp => ?_) hd
      · exact .inr ⟨r, hax, hrel, .inr ⟨hmax, _, _, _, _, _, hin.1 _ (by simp), hin.1 _ (by simp),
          hin.1 _ (by simp), hin.2.1, hin.2.2, hne, hab, rfl, rfl⟩⟩
      · rcases List.mem_append.mp hp with hp | hp
        · simp only [List.mem_cons, List.not_mem_nil, or_false] at hp
          rcases hp with rfl | rfl | rfl <;> simp
        · rcases List.mem_append.mp hp with hp | hp
          · exact Or.inl (filler_premises_predicate hp)
          · exact Or.inl (filler_premises_predicate hp)
  · intro id axm t hinst hnone
    have hrel := isNone_iff_no_dirty.mpr hnone
    cases hinst with
    | scm_int hax hci =>
      exact .inl (.inl (.inl (.inl (.inl (.inl (.inr ⟨hrel, _, hax, _, hci, rfl, rfl⟩))))))
    | eq_diff2 hax hi hj hij =>
      exact .inl (.inl (.inr ⟨hrel, _, hax, _, _, _, _, hi, hj, hij, rfl, rfl⟩))

theorem fire_all_of_empty (hax : ax.is_empty = true) :
    fire_all pool st ax v dirty parallel = .new := by
  rw [fire_all, if_pos hax]

/-- Every proof of a round is an instance. -/
theorem fire_all_proof {t : Triple} {prov : Provenance}
    (h : (fire_all pool st ax v dirty parallel).proofs[t]? = some prov) :
    ListFound st v ax t prov := by
  cases hax : ax.is_empty with
  | true =>
    rw [fire_all_of_empty hax] at h
    simp [Delta.new] at h
  | false =>
    obtain ⟨F, C, heq, hadds, hsound, -, -⟩ :=
      fire_all_adds st v dirty pool parallel hax
    rw [heq] at h
    rcases hadds.proof h with h | h
    · simp [Delta.new] at h
    · exact hsound t prov h

theorem instance_not_empty {id : RuleId} {cited side : List Triple} {t : Triple}
    (h : ListInstance v ax id cited side t) : ax.is_empty = false := by
  rw [← Bool.not_eq_true, SchemaAxioms.is_empty]
  simp only [Bool.and_eq_true, List.isEmpty_iff]
  rintro ⟨⟨⟨⟨⟨⟨⟨⟨h₁, h₂⟩, h₃⟩, h₄⟩, h₅⟩, h₆⟩, -⟩, h₈⟩, h₉⟩
  cases h with
  | prp_spo2 hax => simp [h₁] at hax
  | prp_key hax => simp [h₂] at hax
  | cls_int1 hax => simp [h₃] at hax
  | cls_uni hax => simp [h₄] at hax
  | cax_adc hax => simp [h₅] at hax
  | prp_adp hax => simp [h₆] at hax
  | cls_maxc1 hax => simp [h₈] at hax
  | cls_maxc2 hax => simp [h₈] at hax
  | cls_maxqc_zero hax => simp [h₉] at hax
  | cls_maxqc_one hax => simp [h₉] at hax

theorem schema_not_empty {id : RuleId} {axm t : Triple} (h : SchemaInstance v ax id axm t) :
    ax.is_empty = false := by
  rw [← Bool.not_eq_true, SchemaAxioms.is_empty]
  simp only [Bool.and_eq_true, List.isEmpty_iff]
  rintro ⟨⟨⟨⟨⟨⟨⟨⟨-, -⟩, h₃⟩, -⟩, -⟩, -⟩, h₇⟩, -⟩, -⟩
  cases h with
  | scm_int hax => simp [h₃] at hax
  | eq_diff2 hax => simp [h₇] at hax

/-- A round finds the head of every instance over the store that reads something new. -/
theorem fire_all_instance (pool : Pool) (parallel : ParallelStrategy) {id : RuleId}
    {cited side : List Triple} {t : Triple} (h : ListInstance v ax id cited side t)
    (hin : ∀ p ∈ cited ++ side, st.contains p = true) (hd : ReadsDirty dirty (cited ++ side)) :
    (fire_all pool st ax v dirty parallel).contains t = true ∨ st.contains t = true := by
  obtain ⟨F, C, heq, hadds, -, hinst, -⟩ :=
    fire_all_adds st v dirty pool parallel (instance_not_empty h)
  rw [heq, hadds.contains]
  exact Or.inr (Or.inl ⟨_, hinst id cited side t h hin hd⟩)

/-- The first round finds what follows from the schema. -/
theorem fire_all_schema (pool : Pool) (parallel : ParallelStrategy) {id : RuleId} {axm t : Triple}
    (h : SchemaInstance v ax id axm t) :
    (fire_all pool st ax v none parallel).contains t = true ∨ st.contains t = true := by
  obtain ⟨F, C, heq, hadds, -, -, hschema⟩ :=
    fire_all_adds st v none pool parallel (schema_not_empty h)
  rw [heq, hadds.contains]
  exact Or.inr (Or.inl ⟨_, hschema id axm t h rfl⟩)

/-! ## The first round -/

/-- The head of an instance whose premises stand in the store, or of one that the schema gives. -/
def HeadOver (st : MemStore) (v : Vocabulary) (ax : SchemaAxioms) (t : Triple) : Prop :=
  (∃ id cited side, ListInstance v ax id cited side t ∧
      ∀ p ∈ cited ++ side, st.contains p = true) ∨
    ∃ id axm, SchemaInstance v ax id axm t

/-- The triples that an axiom itself stands in. -/
inductive Declares (v : Vocabulary) (ax : SchemaAxioms) : Triple → Prop where
  | intersection {c listhead : TermId} {cs : List TermId}
      (hax : (c, listhead, cs) ∈ ax.intersections) :
      Declares v ax ⟨c, v.owl_intersection_of, listhead⟩
  | all_different {ad members_pred listhead : TermId} {xs : List TermId}
      (hax : (ad, members_pred, listhead, xs) ∈ ax.all_different) :
      Declares v ax ⟨ad, members_pred, listhead⟩

theorem ListFound.head {t : Triple} {prov : Provenance} (h : ListFound st v ax t prov) :
    HeadOver st v ax t := by
  rcases h with ⟨side, hinst, hin⟩ | ⟨axm, _, hinst⟩
  · exact Or.inl ⟨_, _, side, hinst, hin⟩
  · exact Or.inr ⟨_, axm, hinst⟩

theorem ListFound.premises {t : Triple} {prov : Provenance} (h : ListFound st v ax t prov) :
    ∀ p ∈ prov.premises, st.contains p = true ∨ Declares v ax p := by
  obtain ⟨rule_id, premises⟩ := prov
  intro p hp
  rcases h with ⟨side, _, hin⟩ | ⟨axm, hprem, hinst⟩
  · exact Or.inl (hin p (List.mem_append_left _ hp))
  · dsimp only at hprem hinst hp
    rw [hprem, List.mem_singleton] at hp
    subst hp
    cases hinst with
    | scm_int hax _ => exact Or.inr (.intersection hax)
    | eq_diff2 hax _ _ _ => exact Or.inr (.all_different hax)

/-- The pool changes nothing: the pieces are joined in their order. -/
theorem fire_all_parallel (pool : Pool) (st : MemStore) (ax : SchemaAxioms) (v : Vocabulary)
    (dirty : Option (ExtTreeSet TermId)) :
    fire_all pool st ax v dirty .Auto = fire_all pool st ax v dirty .Serial := by
  unfold fire_all fire_prp_key fire_cls_int1 fire_cls_uni fire_cax_adc adc_pair
  simp only [map_subjects_eq, flat_map_subjects_eq]

/-- The first round finds the heads of all instances over the store and no others, each from
premises that stand there or declare its axiom, with the pool as without it. -/
theorem fire_all_first_round (pool : Pool) (st : MemStore) (ax : SchemaAxioms) (v : Vocabulary) :
    (∀ parallel t, (fire_all pool st ax v none parallel).contains t = true ∨ st.contains t = true ↔
      HeadOver st v ax t ∨ st.contains t = true) ∧
    (∀ parallel t prov, (fire_all pool st ax v none parallel).proofs[t]? = some prov →
      ListFound st v ax t prov ∧ ∀ p ∈ prov.premises, st.contains p = true ∨ Declares v ax p) ∧
    fire_all pool st ax v none .Auto = fire_all pool st ax v none .Serial := by
  refine ⟨fun parallel t => ⟨?_, ?_⟩, fun parallel t prov h => ?_,
    fire_all_parallel pool st ax v none⟩
  · rintro (h | h)
    · obtain ⟨prov, hprov⟩ := Delta.contains_iff_getElem?.mp h
      exact Or.inl (fire_all_proof hprov).head
    · exact Or.inr h
  · rintro ((⟨id, cited, side, hinst, hin⟩ | ⟨id, axm, hinst⟩) | h)
    · exact fire_all_instance pool parallel hinst hin (by simp [ReadsDirty])
    · exact fire_all_schema pool parallel hinst
    · exact Or.inr h
  · exact ⟨fire_all_proof h, (fire_all_proof h).premises⟩

end horndb.owlrl
