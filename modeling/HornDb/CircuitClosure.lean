-- The closure passes of a tick: they keep the bases and the pending presence in step,
-- and leave the closure owning what the closure of the present edges entails.
import HornDb.CircuitInsertion

open HornDb.Lib Relation Std

namespace horndb.incremental.Circuit

/-! ## The passes keep the books -/

/-- The circuit with all that a closure pass may change taken out. -/
def unclosed (c : Circuit) : Circuit :=
  { c with
    derived_base := .new
    pending_derived := .new
    emissions := 0
    closure_support := ∅
    closure_plans := [] }

/-- A pass in balance: the derived base holds what has an owner, the extent with the pending
delta is what the bases have, and what was emitted is what the derived base gained. -/
structure Balanced (c₀ : Circuit) (st : ClosurePass) : Prop where
  rest : st.circuit.unclosed = c₀.unclosed
  rows : st.circuit.OwnedRows
  flat : ∀ t, c₀.extent.get t + st.init_delta.get t = 0 ∨
    c₀.extent.get t + st.init_delta.get t = 1
  sync : ∀ t, 0 < c₀.extent.get t + st.init_delta.get t ↔
    0 < c₀.asserted_base.get t ∨ 0 < st.circuit.derived_base.get t
  emitted : ∀ t, st.circuit.emitted t - c₀.emitted t =
    st.circuit.derived_base.get t - c₀.derived_base.get t

variable {c₀ : Circuit} {st : ClosurePass}

theorem Balanced.asserted (h : Balanced c₀ st) : st.circuit.asserted_base = c₀.asserted_base :=
  (congrArg asserted_base h.rest :)

theorem Balanced.extent (h : Balanced c₀ st) : st.circuit.extent = c₀.extent :=
  (congrArg Circuit.extent h.rest :)

theorem Balanced.attr (h : Balanced c₀ st) : st.circuit.rule_attr = c₀.rule_attr :=
  (congrArg rule_attr h.rest :)

theorem Balanced.owned (h : Balanced c₀ st) (t : TripleId) : st.circuit.Owned t ↔ c₀.Owned t := by
  rw [Owned, Owned, h.attr]

variable {t : TripleId}

theorem note_absent {c : Circuit} (h : c.base_presence t = false) (delta : Zset TripleId)
    (u : TripleId) : (c.note_presence_change t delta).get u =
      if u = t then (if 0 < c.extent.get t + delta.get t then delta.get t - 1 else delta.get t)
      else delta.get u := by
  unfold note_presence_change
  by_cases hp : 0 < c.extent.get t + delta.get t
  · by_cases hu : u = t
    · subst hu
      simp [h, hp, Zset.get_add, sub_eq_add_neg]
    · simp [h, hp, hu, Zset.get_add]
  · by_cases hu : u = t
    · subst hu
      simp [h, hp]
    · simp [h, hp, hu]

/-- A note puts the pending presence of the row in step with the bases. -/
theorem note_sync (c : Circuit) (delta : Zset TripleId) (t : TripleId)
    (hflat : ∀ u, c.extent.get u + delta.get u = 0 ∨ c.extent.get u + delta.get u = 1)
    (hsync : ∀ u, u ≠ t → (0 < c.extent.get u + delta.get u ↔
      0 < c.asserted_base.get u ∨ 0 < c.derived_base.get u)) (u : TripleId) :
    (c.extent.get u + (c.note_presence_change t delta).get u = 0 ∨
      c.extent.get u + (c.note_presence_change t delta).get u = 1) ∧
    (0 < c.extent.get u + (c.note_presence_change t delta).get u ↔
      0 < c.asserted_base.get u ∨ 0 < c.derived_base.get u) := by
  have hpres : c.base_presence t = true ↔ 0 < c.asserted_base.get t ∨ 0 < c.derived_base.get t := by
    rw [base_presence, Bool.or_eq_true, decide_eq_true_eq, decide_eq_true_eq]
  by_cases hu : u = t
  · subst hu
    have hf := hflat u
    cases hp : c.base_presence u with
    | true =>
      rw [note_present hp, if_pos rfl, ← hpres]
      refine ⟨?_, iff_of_true ?_ hp⟩
      · split <;> omega
      · split <;> omega
    | false =>
      rw [note_absent hp, if_pos rfl, ← hpres]
      refine ⟨?_, iff_of_false ?_ (by rw [hp]; exact Bool.false_ne_true)⟩
      · split <;> omega
      · split <;> omega
  · have hsame : (c.note_presence_change t delta).get u = delta.get u := by
      cases hp : c.base_presence t with
      | true => rw [note_present hp, if_neg hu]
      | false => rw [note_absent hp, if_neg hu]
    rw [hsame]
    exact ⟨hflat u, hsync u hu⟩

theorem mem_erase_triple {s : ExtTreeSet TripleId} {t u : TripleId} :
    u ∈ s.erase t ↔ u ≠ t ∧ u ∈ s := by
  rw [ExtTreeSet.mem_erase, ne_eq, compare_triple_iff, ne_comm]

theorem mem_insert_triple {s : ExtTreeSet TripleId} {t u : TripleId} :
    u ∈ s.insert t ↔ u = t ∨ u ∈ s := by
  rw [ExtTreeSet.mem_insert, compare_triple_iff, eq_comm]

/-- The closure takes a row that the derived base has. -/
theorem record_support_spec (h : Balanced c₀ st) (hD : 0 < st.circuit.derived_base.get t) :
    Balanced c₀ (record_support st t) := by
  refine ⟨h.rest, fun u => ?_, h.flat, h.sync, h.emitted⟩
  have hold := h.rows u
  have hmem : u ∈ (record_support st t).circuit.closure_support ↔
      u = t ∨ u ∈ st.circuit.closure_support := mem_insert_triple
  rw [hmem]
  by_cases hu : u = t
  · subst hu
    rcases hold with ⟨h1, _⟩ | ⟨h1, _⟩
    · exact Or.inl ⟨h1, Or.inr (Or.inl rfl)⟩
    · omega
  · simp only [hu, false_or]
    exact hold

/-- The closure puts a row in that no base has. -/
theorem materialize_closure_row_spec (h : Balanced c₀ st) (hA : ¬ 0 < c₀.asserted_base.get t)
    (hD : ¬ 0 < st.circuit.derived_base.get t) : Balanced c₀ (materialize_closure_row st t) ∧
      (∀ u, u ∈ (materialize_closure_row st t).circuit.closure_support ↔
        u = t ∨ u ∈ st.circuit.closure_support) ∧
      (materialize_closure_row st t).orphans = st.orphans := by
  have hzero : st.circuit.derived_base.get t = 0 ∧ ¬ st.circuit.Owned t := by
    rcases h.rows t with ⟨h1, _⟩ | ⟨h1, h2, _⟩
    · omega
    · exact ⟨h1, h2⟩
  have hget : ∀ u, (materialize_closure_row st t).circuit.derived_base.get u =
      st.circuit.derived_base.get u + if u = t then 1 else 0 := fun u => Zset.get_add _ _ _ _
  have hmem : ∀ u, u ∈ (materialize_closure_row st t).circuit.closure_support ↔
      u = t ∨ u ∈ st.circuit.closure_support := fun u => mem_insert_triple
  have hnote := note_sync (materialize_closure_row st t).circuit st.init_delta t
    (by
      intro u
      rw [show (materialize_closure_row st t).circuit.extent = c₀.extent from h.extent]
      exact h.flat u)
    (by
      intro u hu
      rw [show (materialize_closure_row st t).circuit.extent = c₀.extent from h.extent,
        show (materialize_closure_row st t).circuit.asserted_base = c₀.asserted_base from h.asserted,
        hget, if_neg hu, add_zero]
      exact h.sync u)
  rw [show (materialize_closure_row st t).circuit.extent = c₀.extent from h.extent,
    show (materialize_closure_row st t).circuit.asserted_base = c₀.asserted_base from h.asserted]
    at hnote
  refine ⟨⟨h.rest, fun u => ?_, fun u => (hnote u).1, fun u => (hnote u).2, fun u => ?_⟩, hmem,
    rfl⟩
  · rw [hmem, hget]
    have hold := h.rows u
    by_cases hu : u = t
    · subst hu
      rw [if_pos rfl, hzero.1]
      exact Or.inl ⟨rfl, Or.inr (Or.inl rfl)⟩
    · simp only [hu, false_or, if_false, add_zero]
      exact hold
  · have hemit : (materialize_closure_row st t).circuit.emitted u =
        st.circuit.emitted u + if u = t then 1 else 0 :=
      emitted_emit_derived { st.circuit with
        derived_base := st.circuit.derived_base.add t 1
        closure_support := st.circuit.closure_support.insert t } t u 1 .ClosureInferred
    have hold := h.emitted u
    rw [hemit, hget]
    omega

/-! ## The rows of a pass -/

/-- The circuit after the closure let the row go, before anything is withdrawn. -/
def released (c : Circuit) (t : TripleId) : Circuit :=
  { c with closure_support := c.closure_support.erase t }

theorem mem_released (c : Circuit) (t u : TripleId) :
    u ∈ (c.released t).closure_support ↔ u ≠ t ∧ u ∈ c.closure_support :=
  mem_erase_triple

/-- A released row that a rule owns, or that the closure did not own, keeps the balance. -/
theorem released_balanced (h : Balanced c₀ st)
    (ht : t ∉ st.circuit.closure_support ∨ st.circuit.Owned t) (orphans : List TripleId) :
    Balanced c₀ ⟨st.circuit.released t, st.init_delta, orphans⟩ := by
  refine ⟨h.rest, fun u => ?_, h.flat, h.sync, h.emitted⟩
  have hold := h.rows u
  dsimp only
  rw [mem_released]
  have hown : (st.circuit.released t).Owned u ↔ st.circuit.Owned u := Iff.rfl
  have hD : (st.circuit.released t).derived_base.get u = st.circuit.derived_base.get u := rfl
  rw [hown, hD]
  by_cases hu : u = t
  · subst hu
    tauto
  · simp only [ne_eq, hu, not_false_eq_true, true_and]
    exact hold

/-- A released row that no rule owns leaves the derived base. -/
theorem withdrawn_balanced (h : Balanced c₀ st) (hs : t ∈ st.circuit.closure_support)
    (ho : ¬ st.circuit.Owned t) :
    let c := (st.circuit.released t).withdraw_derived_row t .ClosureInferred
    Balanced c₀ ⟨c, c.note_presence_change t st.init_delta, st.orphans⟩ := by
  intro c
  have hone : st.circuit.derived_base.get t = 1 := by
    rcases h.rows t with ⟨h1, _⟩ | ⟨_, _, h3⟩
    · exact h1
    · exact absurd hs h3
  have hrow := row_withdraw (st.circuit.released t) t
  have hget : ∀ u, c.derived_base.get u =
      if u = t then 0 else st.circuit.derived_base.get u := by
    intro u
    have := congrArg Row.derived (hrow u .ClosureInferred)
    refine this.trans ?_
    split <;> rfl
  have hemit : ∀ u, c.emitted u = if u = t then st.circuit.emitted t - 1
      else st.circuit.emitted u := by
    intro u
    have := congrArg Row.emitted (hrow u .ClosureInferred)
    refine this.trans ?_
    split <;> rfl
  have hext : c.extent = c₀.extent := h.extent
  have hA : c.asserted_base = c₀.asserted_base := h.asserted
  have hnote := note_sync c st.init_delta t
    (by
      intro u
      rw [hext]
      exact h.flat u)
    (by
      intro u hu
      rw [hext, hA, hget, if_neg hu]
      exact h.sync u)
  rw [hext, hA] at hnote
  refine ⟨h.rest, fun u => ?_, fun u => (hnote u).1, fun u => (hnote u).2, fun u => ?_⟩
  · dsimp only
    have hmem : u ∈ c.closure_support ↔ u ≠ t ∧ u ∈ st.circuit.closure_support :=
      mem_released st.circuit t u
    have hown : c.Owned u ↔ st.circuit.Owned u := Iff.rfl
    have hold := h.rows u
    rw [hget, hmem, hown]
    by_cases hu : u = t
    · subst hu
      exact Or.inr ⟨if_pos rfl, ho, fun hn => hn.1 rfl⟩
    · rw [if_neg hu]
      simp only [ne_eq, hu, not_false_eq_true, true_and]
      exact hold
  · dsimp only
    have hold := h.emitted u
    rw [hget, hemit]
    by_cases hu : u = t
    · subst hu
      rw [if_pos rfl, if_pos rfl]
      omega
    · rw [if_neg hu, if_neg hu]
      exact hold

theorem withdraw_row_spec (t : TripleId) (h : Balanced c₀ st) : Balanced c₀ (withdraw_row st t) ∧
    (∀ u, u ∈ (withdraw_row st t).circuit.closure_support ↔
      u ≠ t ∧ u ∈ st.circuit.closure_support) ∧
    (∀ u, u ∈ (withdraw_row st t).orphans ↔
      u ∈ st.orphans ∨ (u = t ∧ u ∈ st.circuit.closure_support ∧ c₀.Owned u)) := by
  have hmem := mem_released st.circuit t
  unfold withdraw_row
  dsimp only
  by_cases hs : t ∈ st.circuit.closure_support
  · have hs' : st.circuit.closure_support.contains t = true := ExtTreeSet.mem_iff_contains.mp hs
    rw [if_neg (by rw [hs']; decide)]
    by_cases ho : st.circuit.Owned t
    · have ho' : st.circuit.rule_attr.contains t = true := ExtTreeMap.mem_iff_contains.mp ho
      rw [if_pos ho']
      refine ⟨released_balanced h (Or.inr ho) _, hmem, fun u => ?_⟩
      rw [List.mem_append, List.mem_singleton, ← h.owned]
      refine or_congr_right ⟨?_, fun hu => hu.1⟩
      rintro rfl
      exact ⟨rfl, hs, ho⟩
    · have ho' : ¬ st.circuit.rule_attr.contains t = true := fun hn =>
        ho (ExtTreeMap.mem_iff_contains.mpr hn)
      rw [if_neg ho']
      refine ⟨withdrawn_balanced h hs ho, hmem, fun u => ?_⟩
      refine ⟨Or.inl, ?_⟩
      rintro (hu | ⟨rfl, _, hn⟩)
      · exact hu
      · exact absurd ((h.owned u).mpr hn) ho
  · have hs' : st.circuit.closure_support.contains t = false := by
      rw [← Bool.not_eq_true, ← ExtTreeSet.mem_iff_contains]
      exact hs
    rw [if_pos (by rw [hs']; rfl)]
    refine ⟨released_balanced h (Or.inl hs) _, hmem, fun u => ?_⟩
    refine ⟨Or.inl, ?_⟩
    rintro (hu | ⟨rfl, hn, _⟩)
    · exact hu
    · exact absurd hn hs

theorem promote_row_spec (t : TripleId) (h : Balanced c₀ st) : Balanced c₀ (promote_row st t) ∧
    (∀ u, u ∈ (promote_row st t).circuit.closure_support ↔
      u ∈ st.circuit.closure_support ∨ (u = t ∧ ¬ 0 < c₀.asserted_base.get u)) ∧
    (promote_row st t).orphans = st.orphans := by
  unfold promote_row
  rw [h.asserted]
  split
  · rename_i hs
    refine ⟨h, fun u => ⟨Or.inl, ?_⟩, rfl⟩
    rintro (hu | ⟨rfl, _⟩)
    · exact hu
    · exact ExtTreeSet.mem_iff_contains.mpr hs
  · split
    · rename_i hA
      refine ⟨h, fun u => ⟨Or.inl, ?_⟩, rfl⟩
      rintro (hu | ⟨rfl, hn⟩)
      · exact hu
      · exact absurd hA hn
    · rename_i hA
      have hiff : ∀ u, (u = t ∨ u ∈ st.circuit.closure_support) ↔
          (u ∈ st.circuit.closure_support ∨ (u = t ∧ ¬ 0 < c₀.asserted_base.get u)) := by
        intro u
        refine or_comm.trans (or_congr_right ⟨?_, fun hu => hu.1⟩)
        rintro rfl
        exact ⟨rfl, hA⟩
      split
      · rename_i hD
        refine ⟨record_support_spec h hD, fun u => ?_, rfl⟩
        rw [← hiff]
        exact mem_insert_triple
      · rename_i hD
        obtain ⟨h1, h2, h3⟩ := materialize_closure_row_spec h hA hD
        refine ⟨h1, fun u => ?_, h3⟩
        rw [← hiff, h2]

theorem infer_row_spec (t : TripleId) (h : Balanced c₀ st) : Balanced c₀ (infer_row st t) ∧
    (∀ u, u ∈ (infer_row st t).circuit.closure_support ↔
      u ∈ st.circuit.closure_support ∨
        (u = t ∧ (c₀.Owned u ∨ ¬ 0 < c₀.asserted_base.get u))) ∧
    (infer_row st t).orphans = st.orphans := by
  have hrow := h.rows t
  rw [h.owned] at hrow
  unfold infer_row
  rw [base_presence, h.asserted]
  split
  · rename_i hp
    rw [Bool.or_eq_true, decide_eq_true_eq, decide_eq_true_eq] at hp
    split
    · rename_i hD
      refine ⟨h, fun u => ⟨Or.inl, ?_⟩, rfl⟩
      rintro (hu | ⟨rfl, hn⟩)
      · exact hu
      · rcases hrow with ⟨h1, _⟩ | ⟨_, h2, _⟩
        · omega
        · rcases hn with hn | hn
          · exact absurd hn h2
          · omega
    · rename_i hD
      rcases hrow with ⟨h1, h2⟩ | ⟨h1, _⟩
      · refine ⟨record_support_spec h (by omega), fun u => ?_, rfl⟩
        refine mem_insert_triple.trans ?_
        by_cases hu : u = t
        · subst hu
          refine ⟨fun _ => ?_, fun _ => Or.inl rfl⟩
          rcases h2 with h2 | h2
          · exact Or.inr ⟨rfl, Or.inl h2⟩
          · exact Or.inl h2
        · simp [hu]
      · exact absurd h1 hD
  · rename_i hp
    rw [Bool.or_eq_true, decide_eq_true_eq, decide_eq_true_eq, not_or] at hp
    obtain ⟨h1, h2, h3⟩ := materialize_closure_row_spec h hp.1 hp.2
    refine ⟨h1, fun u => ?_, h3⟩
    rw [h2]
    refine or_comm.trans (or_congr_right ⟨?_, fun hu => hu.1⟩)
    rintro rfl
    exact ⟨rfl, Or.inr hp.1⟩

/-! ## The lists of a pass -/

/-- The closure lets the rows of a list go. -/
theorem withdraw_rows_spec (l : List TripleId) : ∀ {st : ClosurePass}, Balanced c₀ st →
      Balanced c₀ (l.foldl withdraw_row st) ∧
      (∀ u, u ∈ (l.foldl withdraw_row st).circuit.closure_support ↔
        u ∈ st.circuit.closure_support ∧ u ∉ l) ∧
      (∀ u, u ∈ (l.foldl withdraw_row st).orphans ↔
        u ∈ st.orphans ∨ (u ∈ l ∧ u ∈ st.circuit.closure_support ∧ c₀.Owned u)) := by
  induction l with
  | nil =>
    intro st h
    exact ⟨h, fun u => by simp, fun u => by simp⟩
  | cons t l ih =>
    intro st h
    obtain ⟨h1, hs1, ho1⟩ := withdraw_row_spec t h
    obtain ⟨h2, hs2, ho2⟩ := ih h1
    refine ⟨h2, fun u => ?_, fun u => ?_⟩
    · rw [List.foldl_cons, hs2, hs1, List.mem_cons]
      tauto
    · rw [List.foldl_cons, ho2, ho1, hs1, List.mem_cons]
      by_cases hu : u = t
      · simp [hu]
      · simp [hu]

/-- A step that gives the closure a row under a condition gives it each row of a list. -/
theorem claim_rows_spec {step : ClosurePass → TripleId → ClosurePass} {cond : TripleId → Prop}
    (hstep : ∀ {st : ClosurePass} (t : TripleId), Balanced c₀ st → Balanced c₀ (step st t) ∧
      (∀ u, u ∈ (step st t).circuit.closure_support ↔
        u ∈ st.circuit.closure_support ∨ (u = t ∧ cond u)) ∧
      (step st t).orphans = st.orphans)
    (l : List TripleId) : ∀ {st : ClosurePass}, Balanced c₀ st → Balanced c₀ (l.foldl step st) ∧
      (∀ u, u ∈ (l.foldl step st).circuit.closure_support ↔
        u ∈ st.circuit.closure_support ∨ (u ∈ l ∧ cond u)) ∧
      (l.foldl step st).orphans = st.orphans := by
  induction l with
  | nil =>
    intro st h
    exact ⟨h, fun u => by simp, rfl⟩
  | cons t l ih =>
    intro st h
    obtain ⟨h1, hs1, ho1⟩ := hstep t h
    obtain ⟨h2, hs2, ho2⟩ := ih h1
    refine ⟨h2, fun u => ?_, ho2.trans ho1⟩
    rw [List.foldl_cons, hs2, hs1, List.mem_cons]
    tauto

/-! ## The plans of a pass -/

/-- The row is the ends of a path over rows of its predicate that are in `R`. -/
def Chain (R : TripleId → Prop) (t : TripleId) : Prop :=
  TransGen (fun s o => R ⟨s, t.p, o⟩) t.s t.o

theorem Chain.mono {R S : TripleId → Prop} (h : ∀ u, R u → S u) (ht : Chain R t) : Chain S t :=
  TransGen.mono (fun _ _ => h _) _ _ ht

/-- Every rule retains as edges the rows of its predicate that are in `R`. -/
def Follows (rules : List TransitiveClosureRule) (R : TripleId → Prop) : Prop :=
  ∀ r ∈ rules, r.backend.Good ∧ ∀ s o, r.Edge s o ↔ R ⟨s, r.predicate, o⟩

theorem closed_iff_chain {r : TransitiveClosureRule} {R : TripleId → Prop}
    (h : ∀ s o, r.Edge s o ↔ R ⟨s, r.predicate, o⟩) (t : TripleId) :
    r.Closed t ↔ t.p = r.predicate ∧ Chain R t := by
  have hedge : r.Edge = fun s o => R ⟨s, r.predicate, o⟩ := by
    funext s o
    exact propext (h s o)
  rw [TransitiveClosureRule.Closed, hedge]
  refine and_congr_right fun hp => ?_
  rw [Chain, hp]

/-- The predicates of the closure plans. -/
def predicates (rules : List TransitiveClosureRule) : List Nat := rules.map (·.predicate)

/-- What the retraction half of the plans does to the closure rows and to the orphans. -/
structure PlansRetracted (c₀ : Circuit) (rules : List TransitiveClosureRule)
    (R M : TripleId → Prop) (gone : TripleId → Prop) (st : ClosurePass)
    (out : List TransitiveClosureRule × ClosurePass) : Prop where
  predicates : predicates out.1 = predicates rules
  follows : Follows out.1 M
  balanced : Balanced c₀ out.2
  support : ∀ u, u ∈ out.2.circuit.closure_support ↔
    (u ∈ st.circuit.closure_support ∧
      ¬ (u.p ∈ Circuit.predicates rules ∧ Chain R u ∧ ¬ Chain M u)) ∨
    (u.p ∈ Circuit.predicates rules ∧ gone u ∧ R u ∧ Chain M u ∧ ¬ 0 < c₀.asserted_base.get u)
  orphans : ∀ u, u ∈ out.2.orphans ↔ u ∈ st.orphans ∨
    (u ∈ st.circuit.closure_support ∧ c₀.Owned u ∧ u.p ∈ Circuit.predicates rules ∧
      Chain R u ∧ ¬ Chain M u)

theorem retract_plans_spec {R : TripleId → Prop} (delta : Zset TripleId)
    (rules : List TransitiveClosureRule) : ∀ {st : ClosurePass}, Follows rules R → Balanced c₀ st →
      PlansRetracted c₀ rules R (fun t => R t ∧ ¬ delta.get t < 0) (fun t => delta.get t < 0) st
        (retract_plans delta rules st) := by
  induction rules with
  | nil =>
    intro st _ h
    exact ⟨rfl, by simp [Follows, retract_plans], h, fun u => by simp [predicates, retract_plans],
      fun u => by simp [predicates, retract_plans]⟩
  | cons r rules ih =>
    intro st hf h
    obtain ⟨hgood, hedge⟩ := hf r List.mem_cons_self
    have hret := TransitiveClosureRule.apply_retract_delta_spec hgood delta
    rw [retract_plans]
    generalize r.apply_retract_delta delta = res at *
    obtain ⟨r', out⟩ := res
    dsimp only at *
    have hpred : r'.predicate = r.predicate := hret.predicate
    have hedge' : ∀ s o, r'.Edge s o ↔ R ⟨s, r'.predicate, o⟩ ∧
        ¬ delta.get ⟨s, r'.predicate, o⟩ < 0 := by
      intro s o
      rw [hret.edge, hedge, hpred]
    have hold := closed_iff_chain hedge
    have hnew := closed_iff_chain (R := fun t => R t ∧ ¬ delta.get t < 0) hedge'
    obtain ⟨hb1, hs1, ho1⟩ := withdraw_rows_spec out.withdraw h
    obtain ⟨hb2, hs2, ho2⟩ := claim_rows_spec (fun t h => promote_row_spec t h) out.promote hb1
    have htail := ih (fun q hq => hf q (List.mem_cons_of_mem _ hq)) hb2
    generalize retract_plans delta rules _ = rest at *
    have hedge_row : ∀ u : TripleId, u.p = r.predicate → (r.Edge u.s u.o ↔ R u) := by
      intro u hu
      rw [hedge, ← hu]
    have hwith : ∀ u, u ∈ out.withdraw ↔ u.p = r.predicate ∧ Chain R u ∧
        ¬ Chain (fun t => R t ∧ ¬ delta.get t < 0) u := by
      intro u
      rw [hret.withdraw, hold, hnew, hpred]
      tauto
    have hprom : ∀ u, u ∈ out.promote ↔ u.p = r.predicate ∧ delta.get u < 0 ∧ R u ∧
        Chain (fun t => R t ∧ ¬ delta.get t < 0) u := by
      intro u
      rw [hret.promote, hnew, hpred]
      constructor
      · rintro ⟨h1, h2, h3, h4⟩
        exact ⟨h3, h1, (hedge_row u h3).mp h2, h4⟩
      · rintro ⟨h1, h2, h3, h4⟩
        exact ⟨h2, (hedge_row u h1).mpr h3, h1, h4⟩
    refine ⟨?_, ?_, htail.balanced, fun u => ?_, fun u => ?_⟩
    · have := htail.predicates
      unfold predicates at *
      rw [List.map_cons, List.map_cons, this, hpred]
    · intro q hq
      rcases List.mem_cons.mp hq with rfl | hq
      · exact ⟨hret.good, hedge'⟩
      · exact htail.follows q hq
    · rw [htail.support, hs2, hs1, hwith, hprom, predicates, predicates, List.map_cons,
        List.mem_cons]
      tauto
    · rw [htail.orphans, ho2, ho1, hs2, hs1, hwith, hprom, predicates, predicates, List.map_cons,
        List.mem_cons]
      tauto

/-- What the insertion half of the plans does to the closure rows. -/
structure PlansInserted (c₀ : Circuit) (rules : List TransitiveClosureRule)
    (M N : TripleId → Prop) (st : ClosurePass)
    (out : List TransitiveClosureRule × ClosurePass) : Prop where
  predicates : predicates out.1 = predicates rules
  follows : Follows out.1 N
  balanced : Balanced c₀ out.2
  support : ∀ u, u ∈ out.2.circuit.closure_support ↔ u ∈ st.circuit.closure_support ∨
    (u.p ∈ Circuit.predicates rules ∧ Chain N u ∧ ¬ Chain M u ∧
      (c₀.Owned u ∨ ¬ 0 < c₀.asserted_base.get u))
  orphans : out.2.orphans = st.orphans

theorem insert_plans_spec {M : TripleId → Prop} (delta : Zset TripleId)
    (rules : List TransitiveClosureRule) : ∀ {st : ClosurePass}, Follows rules M → Balanced c₀ st →
      PlansInserted c₀ rules M (fun t => M t ∨ 0 < delta.get t) st
        (insert_plans delta rules st) := by
  induction rules with
  | nil =>
    intro st _ h
    exact ⟨rfl, by simp [Follows, insert_plans], h, fun u => by simp [predicates, insert_plans],
      rfl⟩
  | cons r rules ih =>
    intro st hf h
    obtain ⟨hgood, hedge⟩ := hf r List.mem_cons_self
    have hins := TransitiveClosureRule.apply_insert_delta_spec hgood delta
    rw [insert_plans]
    generalize r.apply_insert_delta delta = res at *
    obtain ⟨r', inferred⟩ := res
    dsimp only at *
    have hpred : r'.predicate = r.predicate := hins.predicate
    have hedge' : ∀ s o, r'.Edge s o ↔ M ⟨s, r'.predicate, o⟩ ∨
        0 < delta.get ⟨s, r'.predicate, o⟩ := by
      intro s o
      rw [hins.edge, hedge, hpred]
    have hold := closed_iff_chain hedge
    have hnew := closed_iff_chain (R := fun t => M t ∨ 0 < delta.get t) hedge'
    obtain ⟨hb1, hs1, ho1⟩ := claim_rows_spec (fun t h => infer_row_spec t h) inferred h
    have htail := ih (fun q hq => hf q (List.mem_cons_of_mem _ hq)) hb1
    generalize insert_plans delta rules _ = rest at *
    have hinf : ∀ u, u ∈ inferred ↔ u.p = r.predicate ∧
        Chain (fun t => M t ∨ 0 < delta.get t) u ∧ ¬ Chain M u := by
      intro u
      rw [hins.inferred, hold, hnew, hpred]
      tauto
    refine ⟨?_, ?_, htail.balanced, fun u => ?_, htail.orphans.trans ho1⟩
    · have := htail.predicates
      unfold predicates at *
      rw [List.map_cons, List.map_cons, this, hpred]
    · intro q hq
      rcases List.mem_cons.mp hq with rfl | hq
      · exact ⟨hins.good, hedge'⟩
      · exact htail.follows q hq
    · rw [htail.support, hs1, hinf, predicates, predicates, List.map_cons, List.mem_cons]
      tauto

end horndb.incremental.Circuit
