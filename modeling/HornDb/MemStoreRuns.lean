-- The rule engine's store over its whole life: assertions, inferences and resets in any order. What
-- a reset keeps is the asserted base as long as nothing is asserted that stands as inferred.
import HornDb.MemStore

open Std (ExtTreeMap ExtTreeSet LawfulEqOrd)

namespace horndb.owlrl

namespace MemStore

/-! ## Writes in any order -/

inductive Write where
  | assert (t : Triple)
  | insert_inferred (t : Triple) (prov : Provenance)
  | clear_inferred
deriving DecidableEq, Repr

def write (st : MemStore) : Write → MemStore
  | .assert t => st.assert t
  | .insert_inferred t prov => (st.insert_inferred t prov).1
  | .clear_inferred => st.clear_inferred

def run (vocab : Vocabulary) (ws : List Write) : MemStore := ws.foldl write (new vocab)

def asserted_by : Write → List Triple
  | .assert t => [t]
  | _ => []

/-- The base: every triple that was ever asserted. -/
def asserted (ws : List Write) : List Triple := ws.flatMap asserted_by

/-- Drop what is inferred and run the rules again over the rest. -/
def reset_and_materialize {α : Type} (materialize : MemStore → α) (store : MemStore) : α :=
  materialize store.clear_inferred

variable {v : Vocabulary}

theorem run_append {ws vs : List Write} :
    run v (ws ++ vs) = vs.foldl write (run v ws) := List.foldl_append

variable {ws : List Write} {t : Triple}

@[simp]
theorem mem_asserted : t ∈ asserted ws ↔ Write.assert t ∈ ws := by
  rw [asserted, List.mem_flatMap]
  constructor
  · rintro ⟨w, hw, ht⟩
    cases w with
    | assert u =>
      rw [List.mem_singleton.mp ht]
      exact hw
    | insert_inferred u prov => cases ht
    | clear_inferred => cases ht
  · intro h
    exact ⟨_, h, List.mem_singleton_self t⟩

/-! ## No empty shells -/

/-- No key holds an empty set or an empty map. -/
def NoShells {β : Type} [EmptyCollection β] (m : ExtTreeMap TermId β) : Prop :=
  ∀ k : TermId, m[k]? ≠ some ∅

section

variable {β : Type} [EmptyCollection β] {m m' : ExtTreeMap TermId β}

theorem noShells_empty : NoShells (∅ : ExtTreeMap TermId β) := by
  intro k
  simp

theorem NoShells.insert (h : NoShells m) {k : TermId} {b : β} (hb : b ≠ ∅) :
    NoShells (m.insert k b) := by
  intro x
  rw [ExtTreeMap.getElem?_insert]
  split
  · rw [ne_eq, Option.some.injEq]
    exact hb
  · exact h x

theorem NoShells.erase (h : NoShells m) {k : TermId} : NoShells (m.erase k) := by
  intro x
  rw [ExtTreeMap.getElem?_erase]
  split
  · simp
  · exact h x

/-- What is not there reads as empty, and nothing else does. -/
theorem NoShells.getD_eq_empty (h : NoShells m) {k : TermId} (hk : m.getD k ∅ = ∅) :
    m[k]? = none := by
  rw [ExtTreeMap.getD_eq_getD_getElem?] at hk
  cases hget : m[k]? with
  | none => rfl
  | some b =>
    rw [hget, Option.getD_some] at hk
    rw [hk] at hget
    exact absurd hget (h k)

/-- Maps without shells are told apart by what their keys read. -/
theorem NoShells.ext (h : NoShells m) (h' : NoShells m')
    (hread : ∀ k, m.getD k ∅ = m'.getD k ∅) : m = m' := by
  refine ExtTreeMap.ext_getElem? fun k => ?_
  by_cases hk : m.getD k ∅ = ∅
  · rw [h.getD_eq_empty hk, h'.getD_eq_empty (hread k ▸ hk)]
  · have hget := hread k
    rw [ExtTreeMap.getD_eq_getD_getElem?] at hk
    rw [ExtTreeMap.getD_eq_getD_getElem?, ExtTreeMap.getD_eq_getD_getElem?] at hget
    cases hm : m[k]? with
    | none =>
      rw [hm, Option.getD_none] at hk
      exact absurd rfl hk
    | some b =>
      cases hm' : m'[k]? with
      | none =>
        rw [hm, hm', Option.getD_some, Option.getD_none] at hget
        rw [hm, hget, Option.getD_some] at hk
        exact absurd rfl hk
      | some b' =>
        rw [hm, hm', Option.getD_some, Option.getD_some] at hget
        rw [hget]

end

theorem pairs_insert_noShells {by_pred : ByPred} (h : NoShells by_pred) :
    NoShells (pairs_insert by_pred t) := h.insert ExtTreeSet.insert_ne_empty

theorem pairs_remove_noShells {by_pred : ByPred} (h : NoShells by_pred) :
    NoShells (pairs_remove by_pred t) := by
  unfold pairs_remove
  split
  · exact h
  · dsimp only
    split
    · exact h.erase
    · rename_i hempty
      refine h.insert ?_
      rw [ne_eq, ← ExtTreeSet.isEmpty_iff]
      exact hempty

/-- Neither the predicates nor the objects of one have shells. -/
structure ObjNoShells (obj_index : ObjIndex) : Prop where
  outer : NoShells obj_index
  inner : ∀ p, NoShells (obj_index.getD p ∅)

theorem index_insert_noShells {obj_index : ObjIndex} (h : ObjNoShells obj_index) :
    ObjNoShells (index_insert obj_index t) where
  outer := h.outer.insert ExtTreeMap.insert_ne_empty
  inner p := by
    rw [index_insert, ExtTreeMap.getD_insert]
    split
    · exact (h.inner t.p).insert ExtTreeSet.insert_ne_empty
    · exact h.inner p

theorem by_obj_remove_noShells {by_obj : ExtTreeMap TermId (ExtTreeSet TermId)} {s o : TermId}
    (h : NoShells by_obj) : NoShells (by_obj_remove by_obj s o) := by
  unfold by_obj_remove
  split
  · exact h
  · dsimp only
    split
    · exact h.erase
    · rename_i hempty
      refine h.insert ?_
      rw [ne_eq, ← ExtTreeSet.isEmpty_iff]
      exact hempty

theorem index_remove_noShells {obj_index : ObjIndex} (h : ObjNoShells obj_index) :
    ObjNoShells (index_remove obj_index t) := by
  unfold index_remove
  split
  · exact h
  · rename_i by_obj hobj
    have hby : NoShells by_obj := by
      have hp := h.inner t.p
      rw [ExtTreeMap.getD_eq_getD_getElem?, hobj, Option.getD_some] at hp
      exact hp
    dsimp only
    split
    · refine ⟨h.outer.erase, fun p => ?_⟩
      rw [ExtTreeMap.getD_erase]
      split
      · exact noShells_empty
      · exact h.inner p
    · rename_i hempty
      refine ⟨h.outer.insert ?_, fun p => ?_⟩
      · rw [ne_eq, ← ExtTreeMap.isEmpty_iff]
        exact hempty
      · rw [ExtTreeMap.getD_insert]
        split
        · exact by_obj_remove_noShells hby
        · exact h.inner p

/-! ## What every run keeps -/

/-- The maps without shells, and the inferred rows those with a proof, all of them present. -/
structure Tidy (st : MemStore) : Prop where
  pairs : NoShells st.by_pred
  objects : ObjNoShells st.obj_index
  present : ∀ t, st.is_inferred t = true → st.contains t = true
  proved : ∀ t, (st.proof t).isSome = st.is_inferred t

theorem tidy_new (v : Vocabulary) : Tidy (new v) where
  pairs := noShells_empty
  objects := ⟨noShells_empty, fun p => by
    rw [new, ExtTreeMap.getD_empty]
    exact noShells_empty⟩
  present t h := by simp [new, is_inferred] at h
  proved t := by simp [new, proof, is_inferred]

variable {st : MemStore}

theorem add_row_tidy (h : Tidy st) : Tidy (st.add_row t) where
  pairs := pairs_insert_noShells h.pairs
  objects := index_insert_noShells h.objects
  present u hu := contains_add_row.mpr (Or.inl (h.present u hu))
  proved := h.proved

theorem assert_tidy (h : Tidy st) : Tidy (st.assert t) := by
  unfold assert
  split
  · exact h
  · exact add_row_tidy h

theorem is_inferred_insert_inferred {t u : Triple} {prov : Provenance} :
    (st.insert_inferred t prov).1.is_inferred u = true ↔
      st.is_inferred u = true ∨ t = u ∧ st.contains t = false := by
  unfold insert_inferred
  split
  · rename_i h
    simp [h]
  · rename_i h
    rw [is_inferred, ExtTreeSet.contains_insert, Bool.or_eq_true, beq_iff_eq,
      LawfulEqOrd.compare_eq_iff_eq, or_comm, is_inferred]
    simp [h]

theorem insert_inferred_tidy {prov : Provenance} (h : Tidy st) :
    Tidy (st.insert_inferred t prov).1 := by
  refine ⟨?_, ?_, fun u hu => ?_, fun u => ?_⟩
  · unfold insert_inferred
    split
    · exact h.pairs
    · exact pairs_insert_noShells h.pairs
  · unfold insert_inferred
    split
    · exact h.objects
    · exact index_insert_noShells h.objects
  · rw [contains_insert_inferred]
    rcases is_inferred_insert_inferred.mp hu with hu | ⟨heq, _⟩
    · exact Or.inl (h.present u hu)
    · exact Or.inr heq
  · unfold insert_inferred
    split
    · exact h.proved u
    · have hu := h.proved u
      rw [proof, is_inferred] at hu ⊢
      dsimp only
      rw [ExtTreeMap.getElem?_insert, ExtTreeSet.contains_insert, ← hu]
      split <;> simp_all

theorem remove_rows_noShells {ts : List Triple} (hp : NoShells st.by_pred)
    (ho : ObjNoShells st.obj_index) :
    NoShells (ts.foldl remove_row st).by_pred ∧ ObjNoShells (ts.foldl remove_row st).obj_index := by
  induction ts generalizing st with
  | nil => exact ⟨hp, ho⟩
  | cons t ts ih => exact ih (pairs_remove_noShells hp) (index_remove_noShells ho)

theorem clear_inferred_tidy (h : Tidy st) : Tidy st.clear_inferred where
  pairs := (remove_rows_noShells h.pairs h.objects).1
  objects := (remove_rows_noShells h.pairs h.objects).2
  present t ht := by simp [clear_inferred, is_inferred] at ht
  proved t := by simp [clear_inferred, is_inferred, proof]

/-! ## The asserted base -/

/-- What the store is for after some writes from the empty one: the indexes mirror each other,
only what was never asserted counts as inferred, and a reset starts from the asserted base. -/
structure InStep (v : Vocabulary) (ws : List Write) (st : MemStore) : Prop where
  mirrored : ∀ s p o, s ∈ subjects_of st.obj_index p o ↔ (s, o) ∈ pairs_of st.by_pred p
  no_empty_pairs : NoShells st.by_pred
  no_empty_objects : ObjNoShells st.obj_index
  inferred : ∀ t, st.is_inferred t = true → st.contains t = true ∧ t ∉ asserted ws
  proved : ∀ t, (st.proof t).isSome = true → st.contains t = true ∧ t ∉ asserted ws
  cleared : ∀ t, st.clear_inferred.contains t = true ↔ t ∈ asserted ws
  reset : ∀ {α : Type} (materialize : MemStore → α),
    reset_and_materialize materialize st = materialize ((new v).assert_all (asserted ws))

/-- The rows are the asserted ones and the inferred ones, and none is both. -/
structure Based (v : Vocabulary) (ws : List Write) (st : MemStore) : Prop where
  tidy : Tidy st
  rows : ∀ t, st.contains t = true ↔ t ∈ asserted ws ∨ st.is_inferred t = true
  apart : ∀ t, st.is_inferred t = true → t ∉ asserted ws
  vocab : st.vocab = v
  card : st.card_restrictions = []
  qual : st.qual_card_restrictions = []

theorem based_new (v : Vocabulary) : Based v [] (new v) where
  tidy := tidy_new v
  rows t := by simp [asserted, new, contains, pairs_of, is_inferred]
  apart t h := by simp [new, is_inferred] at h
  vocab := rfl
  card := rfl
  qual := rfl

@[simp]
theorem is_inferred_assert {t u : Triple} : (st.assert t).is_inferred u = st.is_inferred u := by
  unfold assert
  split <;> rfl

theorem asserted_concat {w : Write} :
    t ∈ asserted (ws ++ [w]) ↔ t ∈ asserted ws ∨ w = .assert t := by
  rw [mem_asserted, mem_asserted, List.mem_append, List.mem_singleton, eq_comm (a := w)]

theorem assert_based (h : Based v ws st) (ht : st.is_inferred t = false) :
    Based v (ws ++ [.assert t]) (st.assert t) where
  tidy := assert_tidy h.tidy
  rows u := by
    rw [contains_assert, is_inferred_assert, h.rows, asserted_concat, Write.assert.injEq]
    exact or_right_comm
  apart u hu hmem := by
    rw [is_inferred_assert] at hu
    rcases asserted_concat.mp hmem with hmem | heq
    · exact h.apart u hu hmem
    · rw [Write.assert.injEq] at heq
      rw [← heq, ht] at hu
      exact Bool.false_ne_true hu
  vocab := by rw [vocab_assert, h.vocab]
  card := by
    unfold assert
    split
    · exact h.card
    · exact h.card
  qual := by
    unfold assert
    split
    · exact h.qual
    · exact h.qual

/-- A row is asserted after a write that asserts none only if it was before. -/
theorem asserted_of_concat {w : Write} (hw : ∀ t, w ≠ .assert t) :
    t ∈ asserted (ws ++ [w]) ↔ t ∈ asserted ws := by
  rw [asserted_concat]
  exact or_iff_left (hw t)

theorem insert_inferred_based {prov : Provenance} (h : Based v ws st) :
    Based v (ws ++ [.insert_inferred t prov]) (st.insert_inferred t prov).1 := by
  have hbase : ∀ u, u ∈ asserted (ws ++ [Write.insert_inferred t prov]) ↔ u ∈ asserted ws :=
    fun u => asserted_of_concat (by simp)
  refine ⟨insert_inferred_tidy h.tidy, fun u => ?_, fun u hu => ?_, ?_, ?_, ?_⟩
  · rw [contains_insert_inferred, is_inferred_insert_inferred, hbase, h.rows]
    constructor
    · rintro ((hu | hu) | rfl)
      · exact Or.inl hu
      · exact Or.inr (Or.inl hu)
      · by_cases ht : st.contains t = true
        · exact ((h.rows t).mp ht).imp id Or.inl
        · exact Or.inr (Or.inr ⟨rfl, Bool.not_eq_true _ ▸ ht⟩)
    · rintro (hu | hu | ⟨rfl, _⟩)
      · exact Or.inl (Or.inl hu)
      · exact Or.inl (Or.inr hu)
      · exact Or.inr rfl
  · rw [hbase]
    rcases is_inferred_insert_inferred.mp hu with hu | ⟨rfl, ht⟩
    · exact h.apart u hu
    · intro hmem
      rw [(h.rows t).mpr (Or.inl hmem)] at ht
      exact Bool.false_ne_true ht.symm
  · rw [vocab_insert_inferred, h.vocab]
  · unfold insert_inferred
    split
    · exact h.card
    · exact h.card
  · unfold insert_inferred
    split
    · exact h.qual
    · exact h.qual

theorem remove_rows_vocab (st : MemStore) (ts : List Triple) :
    (ts.foldl remove_row st).vocab = st.vocab ∧
    (ts.foldl remove_row st).card_restrictions = st.card_restrictions ∧
    (ts.foldl remove_row st).qual_card_restrictions = st.qual_card_restrictions := by
  induction ts generalizing st with
  | nil => exact ⟨rfl, rfl, rfl⟩
  | cons t ts ih => exact ih (remove_row st t)

/-- What a reset keeps are exactly the asserted rows. -/
theorem Based.cleared (h : Based v ws st) (t : Triple) :
    st.clear_inferred.contains t = true ↔ t ∈ asserted ws := by
  rw [contains_clear_inferred, h.rows]
  constructor
  · rintro ⟨hmem | hmem, hnot⟩
    · exact hmem
    · rw [hnot] at hmem
      exact absurd hmem Bool.false_ne_true
  · intro hmem
    refine ⟨Or.inl hmem, ?_⟩
    rw [← Bool.not_eq_true]
    exact fun hinf => h.apart t hinf hmem

theorem clear_inferred_based (h : Based v ws st) :
    Based v (ws ++ [.clear_inferred]) st.clear_inferred := by
  have hnone : ∀ u, st.clear_inferred.is_inferred u = false := by
    intro u
    simp [clear_inferred, is_inferred]
  obtain ⟨hv, hc, hq⟩ := remove_rows_vocab st st.inferred.toList
  refine ⟨clear_inferred_tidy h.tidy, fun u => ?_, fun u hu => ?_, hv.trans h.vocab,
    hc.trans h.card, hq.trans h.qual⟩
  · rw [asserted_of_concat (by simp), h.cleared, hnone]
    simp
  · rw [hnone] at hu
    exact absurd hu Bool.false_ne_true

theorem write_based {w : Write} (h : Based v ws st)
    (hw : ∀ t, w = .assert t → st.is_inferred t = false) : Based v (ws ++ [w]) (st.write w) := by
  cases w with
  | assert t => exact assert_based h (hw t rfl)
  | insert_inferred t prov => exact insert_inferred_based h
  | clear_inferred => exact clear_inferred_based h

/-- Stores without inferred rows that read the same are the same. -/
theorem eq_of_reads {st st' : MemStore} (h : Tidy st) (h' : Tidy st')
    (hv : st.vocab = st'.vocab) (hc : st.card_restrictions = st'.card_restrictions)
    (hq : st.qual_card_restrictions = st'.qual_card_restrictions)
    (hinf : st.inferred = ∅) (hinf' : st'.inferred = ∅)
    (hread : ∀ t, st.contains t = true ↔ st'.contains t = true) : st = st' := by
  have hproofs : ∀ {x : MemStore}, Tidy x → x.inferred = ∅ → x.proofs = ∅ := by
    intro x hx hnone
    refine ExtTreeMap.ext_getElem? fun t => ?_
    have ht := hx.proved t
    rw [proof, is_inferred, hnone, ExtTreeSet.contains_empty] at ht
    rw [Option.isSome_eq_false_iff, Option.isNone_iff_eq_none] at ht
    rw [ht]
    simp
  have hrows : ∀ s p o, (s, o) ∈ pairs_of st.by_pred p ↔ (s, o) ∈ pairs_of st'.by_pred p := by
    intro s p o
    rw [← contains_iff, ← contains_iff]
    exact hread _
  have hpairs : st.by_pred = st'.by_pred := by
    refine h.pairs.ext h'.pairs fun p => ?_
    exact ExtTreeSet.ext_mem fun e => hrows e.1 p e.2
  have hobjects : st.obj_index = st'.obj_index := by
    refine h.objects.outer.ext h'.objects.outer fun p => ?_
    refine (h.objects.inner p).ext (h'.objects.inner p) fun o => ?_
    refine ExtTreeSet.ext_mem fun s => ?_
    exact (st.mirrored s p o).symm.trans ((hrows s p o).trans (st'.mirrored s p o))
  have hproof : st.proofs = st'.proofs := (hproofs h hinf).trans (hproofs h' hinf').symm
  have hinferred : st.inferred = st'.inferred := hinf.trans hinf'.symm
  cases st
  cases st'
  simp only at hv hpairs hobjects hproof hinferred hc hq
  subst hv hpairs hobjects hproof hinferred hc hq
  rfl

theorem assert_all_based (ts : List Triple) (h : Tidy st) (hv : st.vocab = v)
    (hc : st.card_restrictions = []) (hq : st.qual_card_restrictions = [])
    (hinf : st.inferred = ∅) : Tidy (st.assert_all ts) ∧ (st.assert_all ts).vocab = v ∧
      (st.assert_all ts).card_restrictions = [] ∧ (st.assert_all ts).qual_card_restrictions = [] ∧
      (st.assert_all ts).inferred = ∅ := by
  rw [assert_all]
  induction ts generalizing st with
  | nil => exact ⟨h, hv, hc, hq, hinf⟩
  | cons t ts ih =>
    rw [List.foldl_cons]
    refine ih (assert_tidy h) (vocab_assert.trans hv) ?_ ?_ ?_
    all_goals
      unfold assert
      split
      · assumption
      · assumption

/-- The store that a reset hands to the rules is the one the base alone gives. -/
theorem Based.clear_inferred_eq (h : Based v ws st) :
    st.clear_inferred = (new v).assert_all (asserted ws) := by
  have hclear := clear_inferred_based h
  obtain ⟨htidy, hv, hc, hq, hinf⟩ :=
    assert_all_based (asserted ws) (tidy_new v) rfl rfl rfl rfl
  refine eq_of_reads hclear.tidy htidy (hclear.vocab.trans hv.symm) (hclear.card.trans hc.symm)
    (hclear.qual.trans hq.symm) rfl hinf fun t => ?_
  rw [h.cleared, contains_assert_all, contains_new]
  simp

theorem Based.inStep (h : Based v ws st) : InStep v ws st where
  mirrored s p o := (st.mirrored s p o).symm
  no_empty_pairs := h.tidy.pairs
  no_empty_objects := h.tidy.objects
  inferred t ht := ⟨h.tidy.present t ht, h.apart t ht⟩
  proved t ht := by
    rw [h.tidy.proved] at ht
    exact ⟨h.tidy.present t ht, h.apart t ht⟩
  cleared := h.cleared
  reset materialize := congrArg materialize h.clear_inferred_eq

/-- A run that asserts no row while it stands as inferred keeps its base apart. -/
theorem run_based (h : ∀ pre t, pre ++ [.assert t] <+: ws → (run v pre).is_inferred t = false) :
    Based v ws (run v ws) := by
  induction ws using List.reverseRecOn with
  | nil => exact based_new v
  | append_singleton ws w ih =>
    rw [run_append]
    refine write_based (ih fun pre t hpre => ?_) fun t ht => ?_
    · exact h pre t (hpre.trans (List.prefix_append ws [w]))
    · rw [ht] at h
      exact h ws t List.prefix_rfl

/-- Every state of a run is as it should be exactly when no write of the run asserts a row that
stands as inferred. -/
theorem run_inStep_iff (v : Vocabulary) (ws : List Write) :
    (∀ pre, pre <+: ws → InStep v pre (run v pre)) ↔
      ∀ pre t, pre ++ [.assert t] <+: ws → (run v pre).is_inferred t = false := by
  constructor
  · intro h pre t hpre
    -- the row stays marked as inferred, and a later reset drops it
    rw [← Bool.not_eq_true]
    intro ht
    have hmark : (run v (pre ++ [.assert t])).is_inferred t = true := by
      rw [run_append]
      exact is_inferred_assert.trans ht
    refine ((h _ hpre).inferred t hmark).2 ?_
    exact asserted_concat.mpr (Or.inr rfl)
  · intro h pre hpre
    refine (run_based fun pre' t hpre' => ?_).inStep
    exact h pre' t (hpre'.trans hpre)

/-- A triple that is inferred and then asserted is gone after a reset. -/
theorem reset_drops_asserted :
    let t : Triple := ⟨100, 101, 102⟩
    let ws : List Write := [.insert_inferred t ⟨"prp-trp", []⟩, .assert t]
    let st := run (Vocabulary.synthetic 0) ws
    t ∈ asserted ws ∧ st.is_inferred t = true ∧ st.clear_inferred.contains t = false ∧
      ¬ InStep (Vocabulary.synthetic 0) ws st := by
  intro t ws st
  have hmem : t ∈ asserted ws := by simp [ws]
  have hinf : st.is_inferred t = true := by
    have hst : st = ((new (Vocabulary.synthetic 0)).insert_inferred t ⟨"prp-trp", []⟩).1.assert t :=
      rfl
    rw [hst, is_inferred_assert, is_inferred_insert_inferred]
    exact Or.inr ⟨rfl, contains_new⟩
  have hgone : st.clear_inferred.contains t = false := by
    rw [← Bool.not_eq_true, contains_clear_inferred, hinf]
    simp
  refine ⟨hmem, hinf, hgone, fun h => ?_⟩
  exact (h.inferred t hinf).2 hmem

end MemStore

end horndb.owlrl
