-- The recompute fallback: the rule closure from scratch holds the seeds and what the
-- rules first derive from them, and the resync puts extent and weights in step with it.
import HornDb.CircuitOwners

open HornDb.Lib Std

namespace horndb.incremental.Circuit

/-! ## The rule closure from scratch -/

/-- Some plan of the rule derives the row over the extent. -/
def FiredBy (plans : List (NaryPlan × RuleId)) (ext : PredExtent) (rid : RuleId) (t : TripleId) :
    Prop :=
  ∃ p ∈ plans, p.2 = rid ∧ 0 < (p.1.apply_full ext).get t

/-- The closure holds the seeds and the attributed rows, each row of the second kind with a
plan that gives it over the closure `ext`. -/
structure Recomputing (plans : List (NaryPlan × RuleId)) (seed : TripleId → Prop)
    (ext : PredExtent) (st : Recompute) : Prop where
  nonneg : ∀ t, 0 ≤ st.closure.get t
  rows : ∀ t, 0 < st.closure.get t ↔ seed t ∨ t ∈ st.attr
  apart : ∀ t, t ∈ st.attr → ¬ seed t
  fired : ∀ (t : TripleId) (rid : RuleId), st.attr[t]? = some rid → FiredBy plans ext rid t

/-- A round in progress, from the closure `old`. -/
structure Rounding (plans : List (NaryPlan × RuleId)) (seed : TripleId → Prop)
    (old : Zset TripleId) (st : Recompute) : Prop where
  keeps : Recomputing plans seed (.from_zset old) st
  grows : ∀ t, old.get t ≤ st.closure.get t
  same : st.changed = false → st.closure = old

variable {rules : List (List TriplePattern × TriplePattern)} {plans : List (NaryPlan × RuleId)}

theorem built_of_implements (h : Implements plans rules) {p : NaryPlan × RuleId} (hp : p ∈ plans) :
    ∃ r : List TriplePattern × TriplePattern, p.1.BuiltFrom r.1 r.2 := by
  induction h with
  | nil => cases hp
  | cons hhead _ ih =>
    rcases List.mem_cons.mp hp with rfl | hp
    · exact ⟨_, hhead⟩
    · exact ih hp

theorem get_from_zset (z : Zset TripleId) (t : TripleId) :
    (PredExtent.from_zset z).get t = z.get t := by
  rw [PredExtent.get, PredExtent.all_from_zset]

/-- One entry of a plan: its row is in the closure after it. -/
theorem recompute_row_spec {seed : TripleId → Prop} {old : Zset TripleId} {st : Recompute}
    (h : Rounding plans seed old st) {p : NaryPlan × RuleId} (hp : p ∈ plans) {e : TripleId × Int}
    (hfired : 0 < (p.1.apply_full (.from_zset old)).get e.1) :
    Rounding plans seed old (recompute_row p.2 st e) ∧
      (e.2 ≠ 0 → 0 < (recompute_row p.2 st e).closure.get e.1) ∧
      ∀ t, 0 < st.closure.get t → 0 < (recompute_row p.2 st e).closure.get t := by
  have hnn := h.keeps.nonneg e.1
  unfold recompute_row
  split
  · rename_i hnew
    have hget : ∀ t, (st.closure.add e.1 1).get t = st.closure.get t + if t = e.1 then 1 else 0 :=
      fun t => Zset.get_add _ _ _ _
    have hout : ¬ seed e.1 ∧ e.1 ∉ st.attr := by
      have hnot : ¬ 0 < st.closure.get e.1 := by omega
      rwa [h.keeps.rows, not_or] at hnot
    have hmem : ∀ t, t ∈ st.attr.insertIfNew e.1 p.2 ↔ t = e.1 ∨ t ∈ st.attr := by
      intro t
      rw [ExtTreeMap.mem_insertIfNew, compare_triple_iff, eq_comm]
    refine ⟨⟨⟨fun t => ?_, fun t => ?_, fun t ht => ?_, fun t rid hrid => ?_⟩, fun t => ?_, nofun⟩,
      fun _ => ?_, fun t ht => ?_⟩
    · have := h.keeps.nonneg t
      dsimp only
      rw [hget]
      split <;> omega
    · dsimp only
      rw [hget, hmem]
      have hrow := h.keeps.rows t
      by_cases hte : t = e.1
      · subst hte
        rw [if_pos rfl, hnew.2]
        simp
      · simp [hte, hrow]
    · rcases (hmem t).mp ht with rfl | ht
      · exact hout.1
      · exact h.keeps.apart t ht
    · dsimp only at hrid
      rw [ExtTreeMap.getElem?_insertIfNew] at hrid
      split at hrid
      · rename_i hte
        cases hrid
        rw [← compare_triple_iff.mp hte.1]
        exact ⟨p, hp, rfl, hfired⟩
      · exact h.keeps.fired t rid hrid
    · have := h.grows t
      dsimp only
      rw [hget]
      split <;> omega
    · dsimp only
      rw [hget, if_pos rfl]
      omega
    · dsimp only
      rw [hget]
      split <;> omega
  · rename_i hold
    refine ⟨h, fun hne => ?_, fun _ => id⟩
    have : st.closure.get e.1 ≠ 0 := fun hz => hold ⟨hne, hz⟩
    omega

/-- A round derives every row that a plan gives over the closure before it. -/
theorem recompute_round_spec (himp : Implements plans rules) {seed : TripleId → Prop}
    {st : Recompute} (h : Recomputing plans seed (.from_zset st.closure) st) :
    Rounding plans seed st.closure (recompute_round plans st) ∧
      ∀ p ∈ plans, ∀ t, 0 < (p.1.apply_full (.from_zset st.closure)).get t →
        0 < (recompute_round plans st).closure.get t := by
  have hext : ∀ x, 0 ≤ (PredExtent.from_zset st.closure).get x := fun x => by
    rw [get_from_zset]
    exact h.nonneg x
  unfold recompute_round
  dsimp only
  apply RowFold.foldl_covers (P := Rounding plans seed st.closure)
    (Q := fun (p : NaryPlan × RuleId) (s : Recompute) =>
      ∀ t, 0 < (p.1.apply_full (.from_zset st.closure)).get t → 0 < s.closure.get t)
  · exact ⟨⟨h.nonneg, h.rows, h.apart, h.fired⟩, fun _ => Int.le_refl _, fun _ => rfl⟩
  · intro s hs p hp
    obtain ⟨r, hbuilt⟩ := built_of_implements himp hp
    -- Beside its own rows, the plan keeps each row that was there before it.
    have hrun := RowFold.foldl_covers (recompute_row p.2)
      (l := (p.1.apply_full (.from_zset st.closure)).iter) (s := s)
      (P := fun s' => Rounding plans seed st.closure s' ∧
        ∀ t, 0 < s.closure.get t → 0 < s'.closure.get t)
      (Q := fun e s' => e.2 ≠ 0 → 0 < s'.closure.get e.1) ⟨hs, fun _ => id⟩
      (fun s' hs' e he => by
        obtain ⟨t, m⟩ := e
        obtain ⟨hne, hget⟩ := Zset.mem_iter.mp he
        have hpos : 0 < (p.1.apply_full (.from_zset st.closure)).get t := by
          have := (NaryPlan.built_pos_iff hbuilt hext t).1
          omega
        obtain ⟨h1, h2, h3⟩ := recompute_row_spec hs'.1 hp (e := (t, m)) hpos
        exact ⟨⟨h1, fun u hu => h3 u (hs'.2 u hu)⟩, h2, fun f hf hne => h3 f.1 (hf hne)⟩)
    refine ⟨hrun.1.1, fun t ht => ?_, fun q hq t ht => hrun.1.2 t (hq t ht)⟩
    exact hrun.2 (t, _) (Zset.mem_iter.mpr ⟨ht.ne', rfl⟩) ht.ne'

/-- The recompute stops on a closure that no plan leads out of. -/
theorem recompute_rounds_spec (himp : Implements plans rules) (seed : TripleId → Prop)
    (fuel : Nat) : ∀ {st out : Recompute}, Recomputing plans seed (.from_zset st.closure) st →
      recompute_rounds plans fuel st = some out →
      Recomputing plans seed (.from_zset out.closure) out ∧
      ∀ p ∈ plans, ∀ t, 0 < (p.1.apply_full (.from_zset out.closure)).get t →
        0 < out.closure.get t := by
  induction fuel with
  | zero =>
    intro st out _ hran
    cases hran
  | succ fuel ih =>
    intro st out h hran
    obtain ⟨hround, hclosed⟩ := recompute_round_spec himp h
    rw [recompute_rounds] at hran
    generalize recompute_round plans st = next at *
    -- What fired over the old closure fires over the new one.
    have hnext : Recomputing plans seed (.from_zset next.closure) next := by
      refine ⟨hround.keeps.nonneg, hround.keeps.rows, hround.keeps.apart, fun t rid hrid => ?_⟩
      obtain ⟨p, hp, hid, hpos⟩ := hround.keeps.fired t rid hrid
      obtain ⟨r, hbuilt⟩ := built_of_implements himp hp
      refine ⟨p, hp, hid, Int.lt_of_lt_of_le hpos ?_⟩
      refine (NaryPlan.built_le_and_lt_iff hbuilt (fun x => ?_) (fun x => ?_) t).1
      · rw [get_from_zset]
        exact h.nonneg x
      · rw [get_from_zset, get_from_zset]
        exact hround.grows x
    split at hran
    · exact ih hnext hran
    · rename_i hstop
      cases hran
      rw [Bool.not_eq_true] at hstop
      refine ⟨hnext, fun p hp t ht => ?_⟩
      rw [hround.same hstop] at ht
      exact hclosed p hp t ht

theorem from_iter_ones (l : List TripleId) (t : TripleId) :
    (Zset.from_iter (l.map fun u => (u, 1))).get t = l.count t := by
  rw [← Zset.val_apply, Zset.val_from_iter, List.map_map]
  induction l with
  | nil => rfl
  | cons u l ih =>
    rw [List.map_cons, List.sum_cons, Finsupp.add_apply, ih, Function.comp_apply,
      Finsupp.single_apply, List.count_cons]
    by_cases hu : u = t
    · simp [hu, add_comm]
    · simp [hu]

/-- The rows that the recompute starts from. -/
def Seeded (c : Circuit) (t : TripleId) : Prop :=
  0 < c.asserted_base.get t ∨ t ∈ c.closure_support

/-- The closure that the recompute starts from: the seeds, and no owner. -/
theorem recompute_start (c : Circuit) :
    let asserted := (c.asserted_base.iter.filter fun e => decide (0 < e.2)).map fun e => (e.1, 1)
    let support := c.closure_support.toList.map fun t => (t, 1)
    let st : Recompute := ⟨.from_iter (asserted ++ support), ∅, false⟩
    Recomputing c.plans c.Seeded (.from_zset st.closure) st ∧
      ∀ t, 0 < st.closure.get t ↔ c.Seeded t := by
  intro asserted support st
  have hlist : asserted ++ support =
      (((c.asserted_base.iter.filter fun e => decide (0 < e.2)).map (·.1)) ++
        c.closure_support.toList).map fun u => (u, (1 : Int)) := by
    rw [List.map_append, List.map_map]
    rfl
  have hmem : ∀ t, t ∈ (c.asserted_base.iter.filter fun e => decide (0 < e.2)).map (·.1) ++
      c.closure_support.toList ↔ c.Seeded t := by
    intro t
    rw [List.mem_append, ExtTreeSet.mem_toList, Seeded]
    apply or_congr_left
    constructor
    · intro ht
      obtain ⟨⟨u, m⟩, he, rfl⟩ := List.mem_map.mp ht
      obtain ⟨he, hpos⟩ := List.mem_filter.mp he
      rw [(Zset.mem_iter.mp he).2]
      exact of_decide_eq_true hpos
    · intro ht
      refine List.mem_map.mpr ⟨(t, _), List.mem_filter.mpr ⟨?_, decide_eq_true ht⟩, rfl⟩
      exact Zset.mem_iter.mpr ⟨ht.ne', rfl⟩
  have hget : ∀ t, st.closure.get t = List.count t
      ((c.asserted_base.iter.filter fun e => decide (0 < e.2)).map (·.1) ++
        c.closure_support.toList) := by
    intro t
    rw [← from_iter_ones, ← hlist]
  have hseeded : ∀ t, 0 < st.closure.get t ↔ c.Seeded t := by
    intro t
    rw [hget, Int.natCast_pos, List.count_pos_iff, hmem]
  refine ⟨⟨fun t => ?_, fun t => ?_, fun t ht => absurd ht ExtTreeMap.not_mem_empty,
    fun t rid hrid => ?_⟩, hseeded⟩
  · rw [hget]
    exact Int.natCast_nonneg _
  · rw [hseeded]
    exact (or_iff_left ExtTreeMap.not_mem_empty).symm
  · rw [ExtTreeMap.getElem?_empty] at hrid
    cases hrid

/-- What the recompute finds: owners apart from the seeds, each with a plan that fires, and no
plan that leads out of seeds and owned rows. -/
theorem recompute_rule_closure_spec {c : Circuit} (himp : Implements c.plans rules)
    {attr : ExtTreeMap TripleId RuleId} (hran : c.recompute_rule_closure = some attr) :
    ∃ closure : Zset TripleId,
      Recomputing c.plans c.Seeded (.from_zset closure) ⟨closure, attr, false⟩ ∧
      ∀ p ∈ c.plans, ∀ t, 0 < (p.1.apply_full (.from_zset closure)).get t →
        0 < closure.get t := by
  unfold recompute_rule_closure at hran
  dsimp only at hran
  obtain ⟨out, hout, rfl⟩ := Option.map_eq_some_iff.mp hran
  obtain ⟨hkeeps, hclosed⟩ := recompute_rounds_spec himp c.Seeded _ (recompute_start c).1 hout
  exact ⟨out.closure, ⟨hkeeps.nonneg, hkeeps.rows, hkeeps.apart, hkeeps.fired⟩, hclosed⟩

/-! ## The resync -/

theorem materialize_presence_get (c : Circuit) (t : TripleId) :
    c.materialize_presence.get t =
      if 0 < c.asserted_base.get t ∨ 0 < c.derived_base.get t then 1 else 0 := by
  have hasserted : RowFold.RowStep
      (fun (z : Zset TripleId) (e : TripleId × Int) => if 0 < e.2 then z.add e.1 1 else z)
      Prod.fst (fun _ => ()) Zset.get (fun _ e v => if 0 < e.2 then v + 1 else v) := by
    refine ⟨fun _ _ => rfl, fun s e k hk => ?_, fun s e => ?_⟩
    · split
      · rw [Zset.get_add, if_neg hk, add_zero]
      · rfl
    · split
      · rw [Zset.get_add, if_pos rfl]
      · rfl
  have hderived : RowFold.RowStep
      (fun (z : Zset TripleId) (e : TripleId × Int) =>
        if 0 < e.2 ∧ z.get e.1 = 0 then z.add e.1 1 else z)
      Prod.fst (fun _ => ()) Zset.get
      (fun _ e v => if 0 < e.2 ∧ v = 0 then v + 1 else v) := by
    refine ⟨fun _ _ => rfl, fun s e k hk => ?_, fun s e => ?_⟩
    · split
      · rw [Zset.get_add, if_neg hk, add_zero]
      · rfl
    · split
      · rw [Zset.get_add, if_pos rfl]
      · rfl
  unfold materialize_presence
  dsimp only
  have hA := foldl_iter hasserted c.asserted_base .new t
  have hD := foldl_iter hderived c.derived_base (c.asserted_base.iter.foldl
    (fun (z : Zset TripleId) e => if 0 < e.2 then z.add e.1 1 else z) .new) t
  rw [Zset.get_new] at hA
  generalize (c.asserted_base.iter.foldl
    (fun (z : Zset TripleId) e => if 0 < e.2 then z.add e.1 1 else z) .new).get t = m at *
  dsimp only at hA hD
  have hm : m = if 0 < c.asserted_base.get t then 1 else 0 := by
    rcases hA with ⟨_, h⟩ | ⟨hz, h⟩
    · rw [h]
      rfl
    · rw [h, hz]
      rfl
  rcases hD with ⟨_, h⟩ | ⟨hz, h⟩
  · rw [h, hm]
    by_cases h1 : 0 < c.asserted_base.get t
    · simp [h1]
    · by_cases h2 : 0 < c.derived_base.get t
      · simp [h1, h2]
      · simp [h1, h2]
  · rw [h, hm, hz]
    simp

/-- Filing a plan adds what it gives to the weights of its rule. -/
theorem resync_weights_val (ext : PredExtent) (w : ExtTreeMap TripleId (Zset RuleId))
    (p : NaryPlan × RuleId) (t : TripleId) :
    ((resync_weights ext w p).getD t .new).val =
      (w.getD t .new).val + Finsupp.single p.2 ((p.1.apply_full ext).get t) := by
  have hstep : RowFold.RowStep
      (fun (w : ExtTreeMap TripleId (Zset RuleId)) (e : TripleId × Int) =>
        w.insert e.1 ((w.getD e.1 .new).add p.2 e.2))
      Prod.fst (fun _ => ()) (fun w t => w.getD t .new) (fun _ e v => v.add p.2 e.2) := by
    refine ⟨fun _ _ => rfl, fun s e k hk => ?_, fun s e => ExtTreeMap.getD_insert_self⟩
    rw [ExtTreeMap.getD_insert, if_neg fun h => hk (compare_triple_iff.mp h).symm]
  unfold resync_weights
  rcases foldl_iter hstep (p.1.apply_full ext) w t with ⟨_, hv⟩ | ⟨hz, hv⟩
  · rw [hv, Zset.val_add]
  · rw [hv, hz, Finsupp.single_zero, add_zero]

theorem resynced_val (ext : PredExtent) (plans : List (NaryPlan × RuleId)) (t : TripleId) :
    ∀ w : ExtTreeMap TripleId (Zset RuleId),
      ((plans.foldl (resync_weights ext) w).getD t .new).val =
        (w.getD t .new).val + ruleWeights plans ext t := by
  induction plans with
  | nil => exact fun w => (add_zero _).symm
  | cons p plans ih =>
    intro w
    have hcons : ruleWeights (p :: plans) ext t =
        Finsupp.single p.2 ((p.1.apply_full ext).get t) + ruleWeights plans ext t := rfl
    rw [List.foldl_cons, ih, resync_weights_val, hcons, add_assoc]

/-- The weights that the plans give over an extent, with no empty entry. -/
def expected_weights (plans : List (NaryPlan × RuleId)) (extent : PredExtent) :
    ExtTreeMap TripleId (Zset RuleId) :=
  (plans.foldl (resync_weights extent) ∅).filter fun _ per_rule => !per_rule.is_empty

theorem expected_weights_entry (plans : List (NaryPlan × RuleId)) (ext : PredExtent)
    (t : TripleId) :
    (∃ w : Zset RuleId, (expected_weights plans ext)[t]? = some w ∧ w.is_empty = false ∧
      w.val = ruleWeights plans ext t) ∨
    ((expected_weights plans ext)[t]? = none ∧ ruleWeights plans ext t = 0) := by
  have hlookup : (expected_weights plans ext)[t]? =
      ((plans.foldl (resync_weights ext) ∅)[t]?).filter
        fun per_rule : Zset RuleId => !per_rule.is_empty :=
    ExtTreeMap.getElem?_filter'
  have hval := resynced_val ext plans t ∅
  rw [ExtTreeMap.getD_empty, Zset.val_new, zero_add, ExtTreeMap.getD_eq_getD_getElem?] at hval
  rw [hlookup, ← hval]
  cases hw : (plans.foldl (resync_weights ext) ∅)[t]? with
  | none => exact Or.inr ⟨rfl, Zset.val_new⟩
  | some w =>
    cases he : w.is_empty with
    | true =>
      refine Or.inr ⟨by simp [he], ?_⟩
      have hnew : w = .new := Zset.ext_get fun rid => by
        rw [Zset.is_empty_iff.mp he, Zset.get_new]
      rw [hnew]
      exact Zset.val_new
    | false => exact Or.inl ⟨w, by simp [he], he, rfl⟩

/-- What the resync leaves: the extent of the bases, exact weights and reset plans. -/
structure Resynced (c c' : Circuit) : Prop where
  fixed : c'.fixed = { c.fixed with plans := c'.plans, extent := c'.extent }
  derived : c'.derived_base = c.derived_base
  attr : c'.rule_attr = c.rule_attr
  emitted : ∀ t, c'.emitted t = c.emitted t
  plans : skeleton c'.plans = skeleton c.plans
  extent : ∀ t, c'.extent.get t =
    if 0 < c.asserted_base.get t ∨ 0 < c.derived_base.get t then 1 else 0
  weighed : c'.Weighed
  stored : c'.Stored

theorem resync_incremental_state_spec {c : Circuit} (himp : Implements c.plans rules) :
    Resynced c c.resync_incremental_state := by
  have hplans : skeleton c.resync_incremental_state.plans = skeleton c.plans := by
    unfold resync_incremental_state skeleton
    dsimp only
    rw [List.map_map]
    rfl
  have hextent : ∀ t, c.resync_incremental_state.extent.get t =
      if 0 < c.asserted_base.get t ∨ 0 < c.derived_base.get t then 1 else 0 := by
    intro t
    rw [← materialize_presence_get]
    exact get_from_zset _ t
  have hentry := expected_weights_entry c.plans c.resync_incremental_state.extent
  have hstored : c.resync_incremental_state.rule_weights =
      expected_weights c.plans c.resync_incremental_state.extent := rfl
  rw [← hstored] at hentry
  refine ⟨rfl, rfl, rfl, fun _ => rfl, hplans, hextent, ⟨?_, fun t => ?_⟩, fun t w hw hzero => ?_⟩
  · intro p hp
    obtain ⟨q, _, rfl⟩ := List.mem_map.mp hp
    exact NaryPlan.reset_state_traced _ _
  · rw [ruleWeights_skeleton hplans, weights, ExtTreeMap.getD_eq_getD_getElem?]
    rcases hentry t with ⟨w, hw, _, hv⟩ | ⟨hnone, hv⟩
    · rw [hw]
      exact hv
    · rw [hnone, hv]
      exact Zset.val_new
  · rcases hentry t with ⟨w', hw', hne, hv⟩ | ⟨hnone, _⟩
    · rw [hw] at hw'
      cases hw'
      rw [total_of_val hv] at hzero
      have hext : ∀ x, 0 ≤ c.resync_incremental_state.extent.get x := by
        intro x
        rw [hextent]
        split <;> decide
      rw [ruleWeights_eq_zero himp hext hzero] at hv
      have hempty : w.is_empty = true :=
        Zset.is_empty_iff.mpr fun rid => DFunLike.congr_fun hv rid
      rw [hne] at hempty
      cases hempty
    · rw [hw] at hnone
      cases hnone

/-! ## The rows that change hands -/

/-- The circuit with all that the rows of the recompute may change taken out. -/
def settledParts (c : Circuit) : Circuit :=
  { c with
    derived_base := .new
    pending_derived := .new
    emissions := 0 }

noncomputable def posted (c : Circuit) (t : TripleId) : Int × Int :=
  (c.derived_base.get t, c.emitted t)

theorem add_new_rule_row_step (old_rule : ExtTreeMap TripleId RuleId) :
    RowFold.RowStep (add_new_rule_row old_rule) Prod.fst settledParts posted
      (fun _ e v => if e.1 ∈ old_rule then v else (v.1 + 1, v.2 + 1)) := by
  refine ⟨fun s e => ?_, fun s e k hk => ?_, fun s e => ?_⟩
  · unfold add_new_rule_row
    split <;> rfl
  · unfold add_new_rule_row
    split
    · rfl
    · refine Prod.ext ?_ ?_
      · exact (Zset.get_add _ _ _ _).trans (by rw [if_neg hk, add_zero]; rfl)
      · refine (emitted_emit_derived _ _ _ _ _).trans ?_
        rw [if_neg hk, add_zero]
        rfl
  · unfold add_new_rule_row
    by_cases hm : e.1 ∈ old_rule
    · rw [if_pos (ExtTreeMap.mem_iff_contains.mp hm), if_pos hm]
    · rw [if_neg fun hn => hm (ExtTreeMap.mem_iff_contains.mpr hn), if_neg hm]
      refine Prod.ext ?_ ?_
      · exact (Zset.get_add _ _ _ _).trans (by rw [if_pos rfl]; rfl)
      · refine (emitted_emit_derived _ _ _ _ _).trans ?_
        rw [if_pos rfl]
        rfl

theorem drop_old_rule_row_step (new_rule : ExtTreeMap TripleId RuleId) :
    RowFold.RowStep (drop_old_rule_row new_rule) Prod.fst settledParts posted
      (fun f e v => if e.1 ∈ new_rule ∨ e.1 ∈ f.closure_support then v else (0, v.2 - 1)) := by
  refine ⟨fun s e => ?_, fun s e k hk => ?_, fun s e => ?_⟩
  · unfold drop_old_rule_row
    split
    · rfl
    · split <;> rfl
  · unfold drop_old_rule_row
    split
    · rfl
    · split
      · rfl
      · have hrow := row_withdraw s e.1 k (.RuleInferred e.2)
        rw [if_neg hk] at hrow
        exact Prod.ext (congrArg Row.derived hrow) (congrArg Row.emitted hrow)
  · unfold drop_old_rule_row
    by_cases hm : e.1 ∈ new_rule
    · rw [if_pos (ExtTreeMap.mem_iff_contains.mp hm), if_pos (Or.inl hm)]
    · rw [if_neg fun hn => hm (ExtTreeMap.mem_iff_contains.mpr hn)]
      by_cases hs : e.1 ∈ s.closure_support
      · have hin : e.1 ∈ new_rule ∨ e.1 ∈ (settledParts s).closure_support := Or.inr hs
        rw [if_pos (ExtTreeSet.mem_iff_contains.mp hs), if_pos hin]
      · have hnot : ¬ (e.1 ∈ new_rule ∨ e.1 ∈ (settledParts s).closure_support) :=
          not_or.mpr ⟨hm, hs⟩
        rw [if_neg fun hn => hs (ExtTreeSet.mem_iff_contains.mpr hn), if_neg hnot]
        have hrow := row_withdraw s e.1 e.1 (.RuleInferred e.2)
        rw [if_pos rfl] at hrow
        exact Prod.ext (congrArg Row.derived hrow) (congrArg Row.emitted hrow)

/-- The circuit with the rows and the owners of the recompute, before the resync. -/
def hand_over (c : Circuit) (new_rule : ExtTreeMap TripleId RuleId) : Circuit :=
  { c.rule_attr.toList.foldl (drop_old_rule_row new_rule)
      (new_rule.toList.foldl (add_new_rule_row c.rule_attr) c) with rule_attr := new_rule }

theorem hand_over_spec {c : Circuit} (hrows : c.OwnedRows)
    {new_rule : ExtTreeMap TripleId RuleId} (hapart : ∀ t, t ∈ new_rule → ¬ c.Seeded t) :
    (c.hand_over new_rule).settledParts = { c.settledParts with rule_attr := new_rule } ∧
    (c.hand_over new_rule).OwnedRows ∧
    ∀ t, (c.hand_over new_rule).emitted t - c.emitted t =
      (c.hand_over new_rule).derived_base.get t - c.derived_base.get t := by
  have hadd := add_new_rule_row_step c.rule_attr
  have hdrop := drop_old_rule_row_step new_rule
  unfold hand_over
  have hframe := hdrop.foldl_frame c.rule_attr.toList
    (new_rule.toList.foldl (add_new_rule_row c.rule_attr) c)
  have hframe₁ := hadd.foldl_frame new_rule.toList c
  have hpost₁ := hadd.foldl_map new_rule c
  have hpost := hdrop.foldl_map c.rule_attr
    (new_rule.toList.foldl (add_new_rule_row c.rule_attr) c)
  generalize new_rule.toList.foldl (add_new_rule_row c.rule_attr) c = c₁ at *
  rw [hframe₁] at hframe hpost
  generalize c.rule_attr.toList.foldl (drop_old_rule_row new_rule) c₁ = c₂ at *
  have hsupport : c₂.closure_support = c.closure_support := (congrArg closure_support hframe :)
  have hin : ∀ (m : ExtTreeMap TripleId RuleId) (t : TripleId),
      (∃ rid, m[t]? = some rid) ↔ t ∈ m := by
    intro m t
    rw [ExtTreeMap.mem_iff_isSome_getElem?, Option.isSome_iff_exists]
  -- The derived count of a row by its old and its new owner.
  have hcase : ∀ t, (c₂.derived_base.get t = 1 ∧ (t ∈ new_rule ∨ t ∈ c.closure_support) ∨
        c₂.derived_base.get t = 0 ∧ t ∉ new_rule ∧ t ∉ c.closure_support) ∧
      c₂.emitted t - c.emitted t = c₂.derived_base.get t - c.derived_base.get t := by
    intro t
    have hold := hrows t
    rw [Owned] at hold
    have h₁ : c₁.posted t = if t ∈ new_rule ∧ t ∉ c.rule_attr then
        ((c.posted t).1 + 1, (c.posted t).2 + 1) else c.posted t := by
      rcases hpost₁ t with ⟨rid, hrid, hv⟩ | ⟨hnone, hv⟩
      · have hm := (hin new_rule t).mp ⟨rid, hrid⟩
        rw [hv]
        by_cases hr : t ∈ c.rule_attr
        · simp [hr]
        · simp [hr, hm]
      · have hm : t ∉ new_rule := fun hn => by
          obtain ⟨rid, hrid⟩ := (hin new_rule t).mpr hn
          rw [hnone] at hrid
          cases hrid
        rw [hv, if_neg fun hn => hm hn.1]
    have h₂ : c₂.posted t = if t ∈ c.rule_attr ∧ t ∉ new_rule ∧ t ∉ c.closure_support then
        (0, (c₁.posted t).2 - 1) else c₁.posted t := by
      rcases hpost t with ⟨rid, hrid, hv⟩ | ⟨hnone, hv⟩
      · have hm := (hin c.rule_attr t).mp ⟨rid, hrid⟩
        rw [hv]
        by_cases hr : t ∈ new_rule ∨ t ∈ c.closure_support
        · have hr' : t ∈ new_rule ∨ t ∈ c.settledParts.closure_support := hr
          rw [if_pos hr', if_neg fun hn => hr.elim hn.2.1 hn.2.2]
        · have hr' : ¬ (t ∈ new_rule ∨ t ∈ c.settledParts.closure_support) := hr
          rw [if_neg hr', if_pos ⟨hm, not_or.mp hr⟩]
      · have hm : t ∉ c.rule_attr := fun hn => by
          obtain ⟨rid, hrid⟩ := (hin c.rule_attr t).mpr hn
          rw [hnone] at hrid
          cases hrid
        rw [hv, if_neg fun hn => hm hn.1]
    rw [h₁] at h₂
    have hD := congrArg Prod.fst h₂
    have hX := congrArg Prod.snd h₂
    unfold posted at hD hX
    dsimp only at hD hX
    have hcs : t ∈ new_rule → t ∉ c.closure_support := fun hn hs => hapart t hn (Or.inr hs)
    by_cases ho : t ∈ c.rule_attr
    · by_cases hn : t ∈ new_rule
      · simp only [ho, hn, not_true, and_false, false_and, if_false] at hD hX
        have h1 : c.derived_base.get t = 1 := by tauto
        exact ⟨Or.inl ⟨hD.trans h1, Or.inl hn⟩, by omega⟩
      · by_cases hs : t ∈ c.closure_support
        · simp only [ho, hn, hs, not_true, and_false, if_false] at hD hX
          have h1 : c.derived_base.get t = 1 := by tauto
          exact ⟨Or.inl ⟨hD.trans h1, Or.inr hs⟩, by omega⟩
        · simp only [ho, hn, hs, not_false_eq_true, and_self, if_true, false_and, if_false] at hD hX
          have h1 : c.derived_base.get t = 1 := by tauto
          exact ⟨Or.inr ⟨hD, hn, hs⟩, by omega⟩
    · by_cases hn : t ∈ new_rule
      · have hs := hcs hn
        simp only [ho, hn, not_false_eq_true, and_self, if_true, false_and, if_false] at hD hX
        have h1 : c.derived_base.get t = 0 := by tauto
        exact ⟨Or.inl ⟨by omega, Or.inl hn⟩, by omega⟩
      · simp only [ho, hn, false_and, if_false] at hD hX
        refine ⟨?_, by omega⟩
        rw [hD]
        tauto
  refine ⟨?_, fun t => ?_, fun t => (hcase t).2⟩
  · have : ({ c₂ with rule_attr := new_rule } : Circuit).settledParts =
        { c₂.settledParts with rule_attr := new_rule } := rfl
    rw [this, hframe]
  · change c₂.derived_base.get t = 1 ∧ (t ∈ new_rule ∨ t ∈ c₂.closure_support) ∨
      c₂.derived_base.get t = 0 ∧ t ∉ new_rule ∧ t ∉ c₂.closure_support
    rw [hsupport]
    exact (hcase t).1

/-! ## The fallback, whole -/

theorem derivations_pos_iff_plan (h : Implements plans rules) {ext : PredExtent}
    (hext : ∀ x, 0 ≤ ext.get x) (t : TripleId) :
    0 < derivations plans ext t ↔ ∃ p ∈ plans, 0 < (p.1.apply_full ext).get t := by
  induction h with
  | nil => simp [derivations]
  | @cons p r plans rules hp hrest ih =>
    have hnn := (NaryPlan.built_pos_iff hp hext t).1
    have hnn' := (derivations_pos_iff hrest hext t).1
    have hcons : derivations (p :: plans) ext t =
        (p.1.apply_full ext).get t + derivations plans ext t := rfl
    rw [hcons, List.exists_mem_cons_iff, ← ih]
    omega

theorem ruleWeights_pos (h : Implements plans rules) {ext : PredExtent}
    (hext : ∀ x, 0 ≤ ext.get x) (t : TripleId) (rid : RuleId) : 0 ≤ ruleWeights plans ext t rid ∧
      (FiredBy plans ext rid t → 0 < ruleWeights plans ext t rid) := by
  induction h with
  | nil => exact ⟨Int.le_refl _, fun ⟨p, hp, _⟩ => absurd hp List.not_mem_nil⟩
  | @cons p r plans rules hp _ ih =>
    have hnn := (NaryPlan.built_pos_iff hp hext t).1
    obtain ⟨ihnn, ihpos⟩ := ih
    have hcons : ruleWeights (p :: plans) ext t rid =
        Finsupp.single p.2 ((p.1.apply_full ext).get t) rid + ruleWeights plans ext t rid := rfl
    have hhead : 0 ≤ Finsupp.single p.2 ((p.1.apply_full ext).get t) rid := by
      rw [Finsupp.single_apply]
      split
      · exact hnn
      · exact Int.le_refl _
    rw [hcons]
    refine ⟨add_nonneg hhead ihnn, fun ⟨q, hq, hid, hpos⟩ => ?_⟩
    rcases List.mem_cons.mp hq with rfl | hq
    · rw [Finsupp.single_apply, if_pos hid]
      exact add_pos_of_pos_of_nonneg hpos ihnn
    · exact add_pos_of_nonneg_of_pos hhead (ihpos ⟨q, hq, hid, hpos⟩)

/-- What the recompute settles on, from the circuit `c` after the closure passes. -/
structure Recomputed (rules : List (List TriplePattern × TriplePattern)) (c c' : Circuit) :
    Prop where
  rest : c'.fixed = { c.fixed with plans := c'.plans, extent := c'.extent }
  plans : skeleton c'.plans = skeleton c.plans
  weighed : c'.Weighed
  flat : Flat c'.extent
  rows : c'.OwnedRows
  present : ∀ t, 0 < c'.extent.get t ↔ 0 < c'.asserted_base.get t ∨ 0 < c'.derived_base.get t
  owned : ∀ t, c'.Owned t → 0 < derivations c'.plans c'.extent t
  closed : ∀ t, 0 < derivations c'.plans c'.extent t → 0 < c'.extent.get t
  emitted : ∀ t, c'.emitted t - c.emitted t = c'.derived_base.get t - c.derived_base.get t
  stored : c'.Stored
  attributed : c'.Attributed

theorem recompute_spec {c : Circuit} (himp : Implements c.plans rules) (hrows : c.OwnedRows)
    {new_rule : ExtTreeMap TripleId RuleId} (hran : c.recompute_rule_closure = some new_rule) :
    Recomputed rules c (c.hand_over new_rule).resync_incremental_state := by
  obtain ⟨closure, hkeeps, hclosed⟩ := recompute_rule_closure_spec himp hran
  obtain ⟨hparts, hrows', hemit⟩ := hand_over_spec hrows hkeeps.apart
  have hplans : (c.hand_over new_rule).plans = c.plans := (congrArg Circuit.plans hparts :)
  have hsync := resync_incremental_state_spec (c := c.hand_over new_rule) (hplans ▸ himp)
  have hattr : (c.hand_over new_rule).rule_attr = new_rule := (congrArg rule_attr hparts :)
  have hA : (c.hand_over new_rule).asserted_base = c.asserted_base :=
    (congrArg asserted_base hparts :)
  have hS : (c.hand_over new_rule).closure_support = c.closure_support :=
    (congrArg closure_support hparts :)
  have hfixed : (c.hand_over new_rule).fixed = c.fixed := (congrArg fixed hparts :)
  generalize c.hand_over new_rule = mid at *
  generalize mid.resync_incremental_state = c' at *
  have hA' : c'.asserted_base = mid.asserted_base := (congrArg asserted_base hsync.fixed :)
  have hS' : c'.closure_support = mid.closure_support := (congrArg closure_support hsync.fixed :)
  have hown : ∀ t, mid.Owned t ↔ t ∈ new_rule := fun t => by rw [Owned, hattr]
  -- The extent holds exactly the rows of the recomputed closure.
  have hpos : ∀ t, 0 < c'.extent.get t ↔ 0 < closure.get t := by
    intro t
    have hD : 0 < mid.derived_base.get t ↔ t ∈ new_rule ∨ t ∈ c.closure_support := by
      rw [← hown, ← hS]
      rcases hrows' t with ⟨h1, h2⟩ | ⟨h1, h2, h3⟩
      · exact iff_of_true (by omega) h2
      · exact iff_of_false (by omega) (not_or.mpr ⟨h2, h3⟩)
    have hbit : 0 < c'.extent.get t ↔ 0 < mid.asserted_base.get t ∨ 0 < mid.derived_base.get t := by
      rw [hsync.extent]
      split
      · rename_i h
        exact iff_of_true (by decide) h
      · rename_i h
        exact iff_of_false (by decide) h
    rw [hbit, hkeeps.rows, Seeded, hA, hD]
    dsimp only
    tauto
  have hext : ∀ x, 0 ≤ c'.extent.get x := by
    intro x
    rw [hsync.extent]
    split <;> decide
  have hfrom : ∀ x, 0 ≤ (PredExtent.from_zset closure).get x := fun x => by
    rw [get_from_zset]
    exact hkeeps.nonneg x
  have hfires : ∀ p ∈ c.plans, ∀ t, 0 < (p.1.apply_full c'.extent).get t ↔
      0 < (p.1.apply_full (.from_zset closure)).get t := by
    intro p hp t
    obtain ⟨r, hbuilt⟩ := built_of_implements himp hp
    rw [(NaryPlan.built_pos_iff hbuilt hext t).2, (NaryPlan.built_pos_iff hbuilt hfrom t).2]
    simp only [hpos, get_from_zset]
  have hskel : skeleton c'.plans = skeleton c.plans := hplans ▸ hsync.plans
  have hder : ∀ t, derivations c'.plans c'.extent t = derivations c.plans c'.extent t :=
    fun t => derivations_skeleton hskel _ _
  have hfired : ∀ (t : TripleId) (rid : RuleId), c'.rule_attr[t]? = some rid →
      FiredBy c.plans c'.extent rid t := by
    intro t rid hrid
    rw [hsync.attr, hattr] at hrid
    obtain ⟨p, hp, hid, hf⟩ := hkeeps.fired t rid hrid
    exact ⟨p, hp, hid, (hfires p hp t).mpr hf⟩
  refine ⟨?_, hskel, hsync.weighed, fun t => ?_, fun t => ?_, fun t => ?_, fun t ho => ?_,
    fun t hd => ?_, fun t => ?_, hsync.stored, fun t rid hrid => ?_⟩
  · rw [hsync.fixed, hfixed]
  · rw [hsync.extent]
    split
    · exact Or.inr rfl
    · exact Or.inl rfl
  · rw [hsync.derived, hS', Owned, hsync.attr]
    exact hrows' t
  · rw [hsync.extent, hsync.derived, hA']
    split
    · rename_i h
      exact iff_of_true (by decide) h
    · rename_i h
      exact iff_of_false (by decide) h
  · rw [Owned, ExtTreeMap.mem_iff_isSome_getElem?, Option.isSome_iff_exists] at ho
    obtain ⟨rid, hrid⟩ := ho
    obtain ⟨p, hp, _, hf⟩ := hfired t rid hrid
    rw [hder, derivations_pos_iff_plan himp hext]
    exact ⟨p, hp, hf⟩
  · rw [hder, derivations_pos_iff_plan himp hext] at hd
    obtain ⟨p, hp, hf⟩ := hd
    exact (hpos t).mpr (hclosed p hp t ((hfires p hp t).mp hf))
  · rw [hsync.emitted, hsync.derived]
    exact hemit t
  · rw [← Zset.val_apply, hsync.weighed.exact t, ruleWeights_skeleton hskel]
    exact (ruleWeights_pos himp hext _ _).2 (hfired t rid hrid)

/-! ## The passes do not read the presence delta -/

/-- Two passes that differ at most in the presence delta. -/
def Alike (st st' : ClosurePass) : Prop :=
  st.circuit = st'.circuit ∧ st.orphans = st'.orphans

theorem Alike.withdraw_row {st st' : ClosurePass} (h : Alike st st') (t : TripleId) :
    Alike (withdraw_row st t) (withdraw_row st' t) := by
  obtain ⟨c, d, l⟩ := st
  obtain ⟨c', d', l'⟩ := st'
  obtain ⟨rfl, rfl⟩ := h
  unfold Circuit.withdraw_row
  dsimp only
  split
  · exact ⟨rfl, rfl⟩
  · split <;> exact ⟨rfl, rfl⟩

theorem Alike.promote_row {st st' : ClosurePass} (h : Alike st st') (t : TripleId) :
    Alike (promote_row st t) (promote_row st' t) := by
  obtain ⟨c, d, l⟩ := st
  obtain ⟨c', d', l'⟩ := st'
  obtain ⟨rfl, rfl⟩ := h
  unfold Circuit.promote_row
  dsimp only
  split
  · exact ⟨rfl, rfl⟩
  · split
    · exact ⟨rfl, rfl⟩
    · split <;> exact ⟨rfl, rfl⟩

theorem Alike.infer_row {st st' : ClosurePass} (h : Alike st st') (t : TripleId) :
    Alike (infer_row st t) (infer_row st' t) := by
  obtain ⟨c, d, l⟩ := st
  obtain ⟨c', d', l'⟩ := st'
  obtain ⟨rfl, rfl⟩ := h
  unfold Circuit.infer_row
  dsimp only
  split
  · split <;> exact ⟨rfl, rfl⟩
  · exact ⟨rfl, rfl⟩

theorem Alike.foldl {step : ClosurePass → TripleId → ClosurePass}
    (hstep : ∀ {st st'}, Alike st st' → ∀ t, Alike (step st t) (step st' t)) (l : List TripleId) :
    ∀ {st st'}, Alike st st' → Alike (l.foldl step st) (l.foldl step st') := by
  induction l with
  | nil => exact id
  | cons t l ih => exact fun h => ih (hstep h t)

theorem alike_retract_plans (delta : Zset TripleId) (rules : List TransitiveClosureRule) :
    ∀ {st st'}, Alike st st' →
      (retract_plans delta rules st).1 = (retract_plans delta rules st').1 ∧
      Alike (retract_plans delta rules st).2 (retract_plans delta rules st').2 := by
  induction rules with
  | nil => exact fun h => ⟨rfl, h⟩
  | cons r rules ih =>
    intro st st' h
    have hmid := (h.foldl (l := (r.apply_retract_delta delta).2.withdraw) Alike.withdraw_row).foldl
      (l := (r.apply_retract_delta delta).2.promote) Alike.promote_row
    obtain ⟨hrules, hout⟩ := ih hmid
    exact ⟨congrArg (List.cons _) hrules, hout⟩

theorem alike_insert_plans (delta : Zset TripleId) (rules : List TransitiveClosureRule) :
    ∀ {st st'}, Alike st st' →
      (insert_plans delta rules st).1 = (insert_plans delta rules st').1 ∧
      Alike (insert_plans delta rules st).2 (insert_plans delta rules st').2 := by
  induction rules with
  | nil => exact fun h => ⟨rfl, h⟩
  | cons r rules ih =>
    intro st st' h
    obtain ⟨hrules, hout⟩ := ih (h.foldl (l := (r.apply_insert_delta delta).2) Alike.infer_row)
    exact ⟨congrArg (List.cons _) hrules, hout⟩

/-- Both passes leave the same circuit whatever presence delta they started with. -/
theorem alike_passes (c : Circuit) (insert_delta retract_delta init init' : Zset TripleId) :
    (run_closure_insertion_pass (c.run_closure_retract_pass retract_delta init)
      insert_delta).circuit =
    (run_closure_insertion_pass (c.run_closure_retract_pass retract_delta init')
      insert_delta).circuit := by
  have hstart : Alike ⟨c, init, []⟩ ⟨c, init', []⟩ := ⟨rfl, rfl⟩
  obtain ⟨hrules, hout⟩ := alike_retract_plans retract_delta c.closure_plans hstart
  have hmid : Alike (c.run_closure_retract_pass retract_delta init)
      (c.run_closure_retract_pass retract_delta init') := by
    refine ⟨?_, hout.2⟩
    exact congrArg₂ (fun rules (c : Circuit) => { c with closure_plans := rules }) hrules hout.1
  generalize c.run_closure_retract_pass retract_delta init = st at *
  generalize c.run_closure_retract_pass retract_delta init' = st' at *
  obtain ⟨hrules', hout'⟩ := alike_insert_plans insert_delta st.circuit.closure_plans hmid
  unfold run_closure_insertion_pass
  rw [← hmid.1]
  exact congrArg₂ (fun rules (c : Circuit) => { c with closure_plans := rules }) hrules' hout'.1

end horndb.incremental.Circuit
