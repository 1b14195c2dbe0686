-- The re-derive phase of a retraction and its net transitions: from what the over-delete
-- left, rows come back only through an instance over rows that are there.
import HornDb.CircuitOverdelete

open HornDb.Lib Std

namespace horndb.incremental.Circuit

/-! ## One row of a re-derive round -/

/-- The mark of a row after its step in a re-derive round. -/
def rederivedMark (f : Circuit) (e : TripleId × List (RuleId × Int)) (v : Mark) : Mark :=
  let w := weighed v.per_rule e.2
  ⟨w, v.candidate, true,
    if total v.per_rule ≤ 0 ∧ 0 < total w ∧ f.extent.get e.1 + v.next ≤ 0 then v.next + 1
    else v.next⟩

theorem rederive_row_step :
    RowFold.RowStep rederive_row Prod.fst (fun st => st.circuit.unweighed) mark
      rederivedMark where
  kept := by
    intro st e
    unfold rederive_row
    dsimp only
    split
    · rfl
    · rfl
  other := by
    intro st e k hk
    have hw := weights_apply st.circuit e.1 k e.2
    rw [if_neg hk] at hw
    unfold rederive_row
    dsimp only
    split
    · refine Mark.ext hw rfl (contains_insert_other hk) ?_
      dsimp only [mark]
      rw [Zset.get_add, if_neg hk, add_zero]
    · exact Mark.ext hw rfl (contains_insert_other hk) rfl
  self := by
    intro st e
    have hw := weights_apply st.circuit e.1 e.1 e.2
    have htot := totals_apply st.circuit e.1 e.2
    rw [if_pos rfl] at hw
    have hun := unweighed_apply st.circuit e.1 e.2
    unfold rederive_row rederivedMark
    generalize st.circuit.apply_weight_deltas e.1 e.2 = out at *
    obtain ⟨c, old_total, new_total⟩ := out
    cases htot
    dsimp only
    rw [← hun]
    by_cases h : total (st.circuit.weights e.1) ≤ 0 ∧
        0 < total (weighed (st.circuit.weights e.1) e.2) ∧
        c.extent.get e.1 + st.next_delta.get e.1 ≤ 0
    · rw [if_pos h]
      refine Mark.ext hw rfl (contains_insert_self _ _) ?_
      refine Eq.trans ?_ (if_pos h).symm
      dsimp only [mark]
      rw [Zset.get_add, if_pos rfl]
    · rw [if_neg h]
      exact Mark.ext hw rfl (contains_insert_self _ _) (if_neg h).symm

theorem rederive_round_spec {st : Retraction}
    {rules : List (List TriplePattern × TriplePattern)}
    (himp : Implements st.circuit.plans rules) (hw : st.circuit.Weighed)
    (hext : ∀ x, 0 ≤ (st.circuit.extent.add_assign st.next_delta).get x) :
    RetractionRound st (rederive_round st) ∧ ∀ t,
      (st.touched.contains t = true → (rederive_round st).touched.contains t = true) ∧
      (rederive_round st).next_delta.get t =
        if derivations st.circuit.plans st.circuit.extent t ≤ 0 ∧
            0 < derivations st.circuit.plans (rederive_round st).circuit.extent t ∧
            (rederive_round st).circuit.extent.get t ≤ 0 then 1
        else 0 := by
  have hupd : ∀ f e v, (rederivedMark f e v).per_rule = weighed v.per_rule e.2 ∧
      (rederivedMark f e v).touched = true := fun _ _ _ => ⟨rfl, rfl⟩
  obtain ⟨hround, hrow⟩ := retraction_round_spec rederive_row_step hupd himp hw hext
    (rederive_round st) rfl
  refine ⟨hround, fun t => ?_⟩
  generalize rederive_round st = out at *
  rcases hrow t with ⟨deltas, f, _, hf, htotal, hm⟩ | ⟨hsame, hm⟩
  · refine ⟨fun _ => congrArg Mark.touched hm, ?_⟩
    have hn : out.next_delta.get t = _ := congrArg Mark.next hm
    rw [hn, rederivedMark]
    dsimp only
    rw [htotal, hw.total, hf, add_zero, zero_add]
  · refine ⟨fun ht => (congrArg Mark.touched hm).trans ht, ?_⟩
    have hn : out.next_delta.get t = 0 := congrArg Mark.next hm
    rw [hn, if_neg]
    rintro ⟨h1, h2, _⟩
    omega

/-! ## The run of re-derive rounds -/

/-- The invariant of the re-derive rounds after the over-delete of the ready circuit `c₀`. -/
structure Rederiving (rules : List (List TriplePattern × TriplePattern)) (c₀ : Circuit)
    (d₀ : Zset TripleId) (st : Retraction) : Prop where
  rest : st.circuit = { c₀ with
    plans := st.circuit.plans
    extent := st.circuit.extent
    rule_weights := st.circuit.rule_weights }
  plans : skeleton st.circuit.plans = skeleton c₀.plans
  weighed : st.circuit.Weighed
  flat : Flat st.circuit.extent
  delta : ∀ t, st.next_delta.get t = 0 ∨
    (st.next_delta.get t = 1 ∧ st.circuit.extent.get t = 0)
  kept : ∀ t, c₀.Covered t ∨ (0 < c₀.extent.get t ∧ ¬ Lost rules c₀ d₀ t) →
    0 < st.circuit.extent.get t + st.next_delta.get t
  closed : ∀ t, 0 < derivations c₀.plans st.circuit.extent t →
    0 < st.circuit.extent.get t + st.next_delta.get t
  backed : ∀ t, 0 < st.circuit.extent.get t + st.next_delta.get t →
    c₀.Covered t ∨ 0 < derivations c₀.plans st.circuit.extent t
  least : ∀ S, Closed rules S → (∀ t, c₀.Covered t → S t) →
    (∀ t, 0 < c₀.extent.get t → ¬ Lost rules c₀ d₀ t → S t) →
    ∀ t, 0 < st.circuit.extent.get t + st.next_delta.get t → S t
  weak : ∀ t, d₀.get t < 0 → 0 < derivations c₀.plans c₀.extent t →
    st.touched.contains t = true
  untouched : ∀ t, st.touched.contains t = false →
    derivations c₀.plans st.circuit.extent t = derivations c₀.plans c₀.extent t

/-- One re-derive round keeps the invariant. -/
theorem Rederiving.round {rules : List (List TriplePattern × TriplePattern)} {c₀ : Circuit}
    {d₀ : Zset TripleId} {st : Retraction} (himp : Implements c₀.plans rules)
    (h : Rederiving rules c₀ d₀ st) : Rederiving rules c₀ d₀ (rederive_round st) := by
  have hnext : ∀ t, (st.circuit.extent.add_assign st.next_delta).get t =
      st.circuit.extent.get t + st.next_delta.get t := fun t => PredExtent.get_add_assign _ _ _
  have hflat : Flat (st.circuit.extent.add_assign st.next_delta) := by
    intro t
    rw [hnext]
    rcases h.delta t with h1 | ⟨h1, h2⟩
    · rw [h1, add_zero]
      exact h.flat t
    · omega
  obtain ⟨hround, hrow⟩ := rederive_round_spec (implements_skeleton h.plans himp) h.weighed
    hflat.nonneg
  generalize rederive_round st = out at *
  have hext : ∀ t, out.circuit.extent.get t =
      st.circuit.extent.get t + st.next_delta.get t := by
    intro t
    rw [hround.done.extent, hnext]
  have hflat' : Flat out.circuit.extent := by
    rw [hround.done.extent]
    exact hflat
  have hgrow : ∀ t, derivations c₀.plans st.circuit.extent t ≤
      derivations c₀.plans out.circuit.extent t := by
    refine fun t => (derivations_lt_iff himp h.flat.nonneg (fun x => ?_) t).1
    rw [hext]
    rcases h.delta x with h1 | ⟨h1, _⟩ <;> omega
  have hN : ∀ t, out.next_delta.get t =
      if derivations c₀.plans st.circuit.extent t ≤ 0 ∧
          0 < derivations c₀.plans out.circuit.extent t ∧ out.circuit.extent.get t ≤ 0 then 1
      else 0 := by
    intro t
    have := (hrow t).2
    rwa [derivations_skeleton h.plans, derivations_skeleton h.plans] at this
  have hnn : ∀ t, 0 ≤ out.next_delta.get t := by
    intro t
    rw [hN]
    split <;> omega
  constructor
  · rw [hround.rest, h.rest]
  · exact hround.done.plans.trans h.plans
  · exact hround.done.weighed
  · exact hflat'
  · intro t
    rw [hN]
    split
    · rename_i hc
      rcases hflat' t with h1 | h1
      · exact Or.inr ⟨rfl, h1⟩
      · omega
    · exact Or.inl rfl
  · intro t ht
    have h1 := h.kept t ht
    have h2 := hnn t
    rw [hext]
    omega
  · intro t ht
    by_cases hold : 0 < derivations c₀.plans st.circuit.extent t
    · have h1 := h.closed t hold
      have h2 := hnn t
      rw [hext]
      omega
    · rcases hflat' t with h1 | h1
      · rw [hN, if_pos ⟨by omega, ht, by omega⟩]
        omega
      · have h2 := hnn t
        omega
  · intro t ht
    rw [hN] at ht
    split at ht
    · rename_i hc
      exact Or.inr hc.2.1
    · rw [add_zero, hext] at ht
      exact (h.backed t ht).imp_right fun hp => Int.lt_of_lt_of_le hp (hgrow t)
  · intro S hS hcov hkept t ht
    have hprev := h.least S hS hcov hkept
    rw [hN] at ht
    split at ht
    · rename_i hc
      obtain ⟨ps, hinst, hps⟩ := (derivations_pos_iff himp hflat'.nonneg t).2.mp hc.2.1
      refine hS ps t hinst fun p hp => hprev p ?_
      rw [← hext]
      exact hps p hp
    · rw [add_zero, hext] at ht
      exact hprev t ht
  · exact fun t ht hp => (hrow t).1 (h.weak t ht hp)
  · intro t ht
    obtain ⟨hst, hweights⟩ := hround.untouched t ht
    rw [← h.untouched t hst, ← derivations_skeleton (hround.done.plans.trans h.plans),
      ← hround.done.weighed.total, hweights, h.weighed.total, derivations_skeleton h.plans]

theorem rederive_rounds_spec {rules : List (List TriplePattern × TriplePattern)}
    {c₀ : Circuit} {d₀ : Zset TripleId} (himp : Implements c₀.plans rules) (fuel : Nat) :
    ∀ {st out : Retraction}, Rederiving rules c₀ d₀ st →
      rederive_rounds fuel st = some out → Rederiving rules c₀ d₀ out ∧
        ∀ t, out.next_delta.get t = 0 := by
  induction fuel with
  | zero =>
    intro st out h hran
    rw [rederive_rounds] at hran
    split at hran
    · rename_i hempty
      cases hran
      exact ⟨h, Zset.is_empty_iff.mp hempty⟩
    · cases hran
  | succ fuel ih =>
    intro st out h hran
    rw [rederive_rounds] at hran
    split at hran
    · rename_i hempty
      cases hran
      exact ⟨h, Zset.is_empty_iff.mp hempty⟩
    · exact ih (h.round himp) hran

/-- The seed of the re-derive phase at one row. -/
theorem readd_candidates_get (c : Circuit) (s : ExtTreeSet TripleId) (z : Zset TripleId)
    (t : TripleId) :
    (c.readd_candidates s z).get t =
      if s.contains t = true ∧ 0 < c.total_weight t ∧ c.extent.get t + z.get t ≤ 0
      then z.get t + 1 else z.get t := by
  have hstep : RowFold.RowStep
      (fun (z : Zset TripleId) (t : TripleId) =>
        if 0 < c.total_weight t ∧ c.extent.get t + z.get t ≤ 0 then z.add t 1 else z)
      id (fun _ => ()) Zset.get
      (fun _ t v => if 0 < c.total_weight t ∧ c.extent.get t + v ≤ 0 then v + 1 else v) := by
    refine ⟨fun _ _ => rfl, fun z e k hk => ?_, fun z e => ?_⟩
    · have hk' : k ≠ e := hk
      split
      · rw [Zset.get_add, if_neg hk', add_zero]
      · rfl
    · dsimp only [id]
      split
      · rw [Zset.get_add, if_pos rfl]
      · rfl
  rcases hstep.foldl_set s z t with ⟨hs, hv⟩ | ⟨hs, hv⟩
  · refine hv.trans ?_
    rw [ExtTreeSet.mem_iff_contains] at hs
    simp only [hs, true_and]
  · refine hv.trans ?_
    rw [not_mem_iff_contains] at hs
    simp only [hs, Bool.false_eq_true, false_and, if_false]

theorem Overdeleted.reseed {rules : List (List TriplePattern × TriplePattern)} {c : Circuit}
    {d : Zset TripleId} (hr : Ready rules c d) {st : Retraction} (h : Overdeleted rules c d st) :
    Rederiving rules c d { st with
      next_delta := st.circuit.readd_candidates st.candidates
        (seed_of (fun m => !decide (m < 0)) d) } := by
  have hseed : ∀ t, (seed_of (fun m => !decide (m < 0)) d).get t =
      if d.get t < 0 then 0 else d.get t := by
    intro t
    rw [seed_of_get]
    by_cases ht : d.get t < 0
    · simp [ht]
    · simp [ht]
  have hW : ∀ t, st.circuit.total_weight t = derivations c.plans st.circuit.extent t := by
    intro t
    rw [total_weight, h.weighed.total, derivations_skeleton h.plans]
  -- A row is seeded when the tick adds it, or when it lost its place but not its support.
  have hcase : ∀ t, let n := (st.circuit.readd_candidates st.candidates
        (seed_of (fun m => !decide (m < 0)) d)).get t
      (n = 1 ∧ st.circuit.extent.get t = 0 ∧
        (c.Covered t ∨ 0 < derivations c.plans st.circuit.extent t)) ∨
      (n = 0 ∧ (d.get t = 1 → 0 < st.circuit.extent.get t) ∧
        (st.candidates.contains t = true → 0 < derivations c.plans st.circuit.extent t →
          0 < st.circuit.extent.get t)) := by
    intro t
    have hn : (d.get t < 0 → (seed_of (fun m => !decide (m < 0)) d).get t = 0) ∧
        (¬ d.get t < 0 → (seed_of (fun m => !decide (m < 0)) d).get t = d.get t) := by
      rw [hseed]
      exact ⟨fun h => if_pos h, fun h => if_neg h⟩
    have hsurv := h.survives t
    dsimp only
    rw [readd_candidates_get, hW]
    generalize (seed_of (fun m => !decide (m < 0)) d).get t = n at hn ⊢
    split
    · rename_i hc
      refine Or.inl ⟨?_, ?_, Or.inr hc.2.1⟩
      · rcases hr.delta t with ⟨h1, _⟩ | ⟨h1, _⟩ | ⟨h1, _⟩ <;>
          rcases h.flat t with h2 | h2 <;> omega
      · rcases hr.delta t with ⟨h1, _⟩ | ⟨h1, _⟩ | ⟨h1, _⟩ <;>
          rcases h.flat t with h2 | h2 <;> omega
    · rename_i hc
      rcases h.flat t with hz | hz
      · rcases hr.delta t with ⟨h1, _⟩ | ⟨h1, _, h3⟩ | ⟨h1, _⟩
        · refine Or.inr ⟨by omega, by omega, fun hs hd => absurd ⟨hs, hd, by omega⟩ hc⟩
        · exact Or.inl ⟨by omega, hz, Or.inl h3⟩
        · refine Or.inr ⟨by omega, by omega, fun hs hd => absurd ⟨hs, hd, by omega⟩ hc⟩
      · have h0 := hsurv.mp (by omega)
        have hd0 : d.get t = 0 := by
          rcases hr.delta t with ⟨h1, _⟩ | ⟨_, h2, _⟩ | ⟨h1, _⟩
          · exact h1
          · omega
          · exact absurd (.seed (by rw [h1]; decide)) h0.2
        exact Or.inr ⟨by omega, by omega, by omega⟩
  have hlostcov : ∀ t, c.Covered t → ¬ Lost rules c d t := by
    intro t hc hl
    cases hl with
    | seed hs =>
      rcases hr.delta t with ⟨h1, _⟩ | ⟨h1, _⟩ | ⟨_, _, h3⟩
      · rw [h1] at hs
        exact Int.lt_irrefl _ hs
      · rw [h1] at hs
        exact absurd hs (by decide)
      · exact h3 hc
    | step _ _ _ _ hfree => exact hfree hc
  have hbelow : ∀ t, st.circuit.extent.get t ≤ c.extent.get t := by
    intro t
    rcases h.flat t with h1 | h1
    · rw [h1]
      exact hr.flat.nonneg t
    · have := ((h.survives t).mp (by omega)).1
      omega
  have hsurvivor : ∀ t, 0 < st.circuit.extent.get t →
      c.Covered t ∨ 0 < derivations c.plans st.circuit.extent t := by
    intro t ht
    obtain ⟨h0, hl⟩ := (h.survives t).mp ht
    by_cases hc : c.Covered t
    · exact Or.inl hc
    · refine Or.inr ?_
      rcases hr.delta t with ⟨_, h2⟩ | ⟨_, h2, _⟩ | ⟨h1, _⟩
      · have hown := (h2.mp h0).resolve_left hc
        have hd := (hr.owned t hown).2
        by_contra hno
        have hcand := h.lowered t hc (by omega)
        have := (h.candidate t hcand).1
        omega
      · omega
      · exact absurd (.seed (by rw [h1]; decide)) hl
  constructor
  · exact h.rest
  · exact h.plans
  · exact h.weighed
  · exact h.flat
  · intro t
    rcases hcase t with ⟨h1, h2, _⟩ | ⟨h1, _⟩
    · exact Or.inr ⟨h1, h2⟩
    · exact Or.inl h1
  · intro t ht
    dsimp only
    have hsurv := h.survives t
    rcases hcase t with ⟨h1, h2, _⟩ | ⟨h1, h2, _⟩
    · omega
    · rw [h1, add_zero]
      rcases ht with hc | ht
      · rcases hr.delta t with ⟨_, h4⟩ | ⟨h3, _⟩ | ⟨_, _, h5⟩
        · exact hsurv.mpr ⟨h4.mpr (Or.inl hc), hlostcov t hc⟩
        · exact h2 h3
        · exact absurd hc h5
      · exact hsurv.mpr ht
  · intro t ht
    dsimp only at ht ⊢
    rcases hcase t with ⟨h1, h2, _⟩ | ⟨h1, _, h3⟩
    · omega
    · rw [h1, add_zero]
      by_contra hno
      have hpos := Int.lt_of_lt_of_le ht (h.shrinks t)
      have h0 := hr.closed t hpos
      refine hno (h3 ?_ ht)
      -- The row was there and is not: it was lost, so a round or the seed marked it.
      have hl : Lost rules c d t := by
        by_contra hl
        exact hno ((h.survives t).mpr ⟨h0, hl⟩)
      cases hl with
      | seed hs => exact h.weak t hs hpos
      | @step ps _ p hinst hold hp hlost hfree =>
        refine h.lowered t hfree ?_
        refine (derivations_lt_iff hr.implements h.flat.nonneg hbelow t).2.mpr
          ⟨ps, hinst, hold, p, hp, ?_⟩
        rcases h.flat p with h1 | h1
        · rw [h1]
          exact hold p hp
        · exact absurd hlost ((h.survives p).mp (by omega)).2
  · intro t ht
    dsimp only at ht ⊢
    rcases hcase t with ⟨_, _, h3⟩ | ⟨h1, _⟩
    · exact h3
    · rw [h1, add_zero] at ht
      exact hsurvivor t ht
  · intro S hS hcov hkept t ht
    have hext : ∀ u, 0 < st.circuit.extent.get u → S u := fun u hu =>
      hkept u ((h.survives u).mp hu).1 ((h.survives u).mp hu).2
    dsimp only at ht
    rcases hcase t with ⟨_, _, hc | hd⟩ | ⟨h1, _⟩
    · exact hcov t hc
    · obtain ⟨ps, hinst, hps⟩ :=
        (derivations_pos_iff hr.implements h.flat.nonneg t).2.mp hd
      exact hS ps t hinst fun p hp => hext p (hps p hp)
    · rw [h1, add_zero] at ht
      exact hext t ht
  · exact fun t ht hp => (h.candidate t (h.weak t ht hp)).2
  · exact h.untouched

/-! ## The net transitions -/

/-- The row after its net transition. -/
def transitionRow (f : Circuit) (t : TripleId) (v : Row) : Row :=
  if 0 < total v.per_rule ∧ 0 < f.extent.get t ∧
      (v.attr.isSome = true ∨ ¬ (0 < f.asserted_base.get t ∨ t ∈ f.closure_support)) then
    if v.attr.isSome then { v with attr := some (first_rule v.per_rule) }
    else ⟨v.derived + 1, some (first_rule v.per_rule), v.per_rule, v.emitted + 1⟩
  else if v.attr.isSome then
    if t ∈ f.closure_support then { v with attr := none }
    else ⟨0, none, v.per_rule, v.emitted - 1⟩
  else v

theorem row_set_attr (c : Circuit) (t u : TripleId) (rid : RuleId) :
    { c with rule_attr := c.rule_attr.insert t rid }.row u =
      if u = t then { c.row t with attr := some rid } else c.row u := by
  by_cases hu : u = t
  · subst hu
    rw [if_pos rfl, row, ExtTreeMap.getElem?_insert_self]
    rfl
  · have hne : ¬ compare t u = Ordering.eq := fun h => hu (compare_triple_iff.mp h).symm
    rw [if_neg hu, row, ExtTreeMap.getElem?_insert, if_neg hne]
    rfl

theorem row_drop_attr (c : Circuit) (t u : TripleId) :
    { c with rule_attr := c.rule_attr.erase t }.row u =
      if u = t then { c.row t with attr := none } else c.row u := by
  by_cases hu : u = t
  · subst hu
    rw [if_pos rfl, row, ExtTreeMap.getElem?_erase_self]
    rfl
  · have hne : ¬ compare t u = Ordering.eq := fun h => hu (compare_triple_iff.mp h).symm
    rw [if_neg hu, row, ExtTreeMap.getElem?_erase, if_neg hne]
    rfl

theorem net_transition_step :
    RowFold.RowStep net_transition id (fun c => c.fixed) row transitionRow where
  kept := by
    intro c t
    unfold net_transition
    dsimp only
    split
    · split
      · rfl
      · rfl
    · split
      · split
        · rfl
        · rfl
      · rfl
  other := by
    intro c t u hu
    have hu' : u ≠ t := hu
    unfold net_transition
    dsimp only
    split
    · split
      · rw [row_set_attr, if_neg hu']
      · rw [row_materialize, if_neg hu']
    · split
      · split
        · rw [row_drop_attr, if_neg hu']
        · rw [row_withdraw, if_neg hu', row_drop_attr, if_neg hu']
      · rfl
  self := by
    intro c t
    have hattr : (c.row t).attr.isSome = c.rule_attr.contains t := by
      rw [ExtTreeMap.contains_eq_isSome_getElem?]
      rfl
    have hshould : (decide (0 < c.total_weight t) && decide (0 < c.extent.get t) &&
          (c.rule_attr.contains t ||
            !(decide (0 < c.asserted_base.get t) || c.closure_support.contains t))) = true ↔
        0 < total (c.row t).per_rule ∧ 0 < c.fixed.extent.get t ∧
          ((c.row t).attr.isSome = true ∨
            ¬ (0 < c.fixed.asserted_base.get t ∨ t ∈ c.fixed.closure_support)) := by
      rw [hattr]
      simp only [Bool.and_eq_true, Bool.or_eq_true, Bool.not_eq_true', decide_eq_true_eq,
        ExtTreeSet.mem_iff_contains, Bool.or_eq_false_iff, decide_eq_false_iff_not, not_or,
        Bool.not_eq_true, and_assoc]
      rfl
    unfold net_transition transitionRow
    dsimp only [id]
    by_cases hs : (decide (0 < c.total_weight t) && decide (0 < c.extent.get t) &&
          (c.rule_attr.contains t ||
            !(decide (0 < c.asserted_base.get t) || c.closure_support.contains t))) = true
    · rw [if_pos hs, if_pos (hshould.mp hs)]
      by_cases ha : c.rule_attr.contains t = true
      · rw [if_pos ha, if_pos (hattr.trans ha), row_set_attr, if_pos rfl]
        rfl
      · rw [if_neg ha, if_neg (by rw [hattr]; exact ha), row_materialize, if_pos rfl]
        rfl
    · rw [if_neg hs, if_neg fun hn => hs (hshould.mpr hn)]
      by_cases ha : c.rule_attr.contains t = true
      · rw [if_pos ha, if_pos (hattr.trans ha)]
        by_cases hc : c.closure_support.contains t = true
        · have hmem : t ∈ c.fixed.closure_support := ExtTreeSet.mem_iff_contains.mpr hc
          rw [if_pos hc, if_pos hmem, row_drop_attr, if_pos rfl]
        · have hmem : t ∉ c.fixed.closure_support := fun hn => hc (ExtTreeSet.mem_iff_contains.mp hn)
          rw [if_neg hc, if_neg hmem, row_withdraw, if_pos rfl, ExtTreeMap.getElem?_erase_self]
          rfl
      · rw [if_neg ha, if_neg (by rw [hattr]; exact ha)]

/-- The retraction fixpoint settles. -/
theorem run_two_phase_fixpoint_spec {rules : List (List TriplePattern × TriplePattern)}
    {c : Circuit} {d : Zset TripleId} (h : Ready rules c d) {c' : Circuit}
    (hran : c.run_two_phase_fixpoint d = some c') : Settled rules c d c' := by
  unfold run_two_phase_fixpoint at hran
  dsimp only at hran
  rw [Option.bind_eq_some_iff] at hran
  obtain ⟨st₁, hr1, hran⟩ := hran
  rw [Option.map_eq_some_iff] at hran
  obtain ⟨st, hr2, rfl⟩ := hran
  obtain ⟨hover, hdone1⟩ := overdelete_rounds_spec h.implements h.flat _ (.start h) hr1
  have hdeleted := hover.settles h.implements h.flat hdone1
  obtain ⟨hre, hdone⟩ := rederive_rounds_spec h.implements _ (hdeleted.reseed h) hr2
  have hzero : ∀ t, st.circuit.extent.get t + st.next_delta.get t = st.circuit.extent.get t := by
    intro t
    rw [hdone, add_zero]
  have hframe := net_transition_step.foldl_frame st.touched.toList st.circuit
  have hrow := net_transition_step.foldl_set st.touched st.circuit
  generalize st.touched.toList.foldl net_transition st.circuit = c' at *
  have hext : c'.extent = st.circuit.extent := fixed_extent hframe
  have hplans : c'.plans = st.circuit.plans := fixed_plans hframe
  have hS : c'.closure_support = c.closure_support := by
    rw [fixed_support hframe, hre.rest]
  have hstS : st.circuit.closure_support = c.closure_support := by
    rw [hre.rest]
  have hstA : st.circuit.asserted_base = c.asserted_base := by
    rw [hre.rest]
  have hstrow : ∀ t, st.circuit.row t =
      ⟨c.derived_base.get t, c.rule_attr[t]?, st.circuit.weights t, c.emitted t⟩ := by
    intro t
    rw [row, hre.rest]
    rfl
  have hW : ∀ t, total (st.circuit.weights t) = derivations c.plans st.circuit.extent t := by
    intro t
    rw [hre.weighed.total, derivations_skeleton hre.plans]
  have hpresent : ∀ t, 0 < st.circuit.extent.get t ↔
      c.Covered t ∨ 0 < derivations c.plans st.circuit.extent t := by
    intro t
    rw [← hzero]
    constructor
    · exact hre.backed t
    · rintro (hc | hd)
      · exact hre.kept t (Or.inl hc)
      · exact hre.closed t hd
  have hownedSome : ∀ t, c.Owned t ↔ (c.rule_attr[t]?).isSome = true := fun t => by
    rw [Owned, ExtTreeMap.mem_iff_isSome_getElem?]
  -- The whole effect on a row: its owner, its derived count and what was emitted for it.
  have hcase : ∀ t, c'.weights t = st.circuit.weights t ∧
      (c'.Owned t ↔ 0 < derivations c.plans st.circuit.extent t ∧ (c.Owned t ∨ ¬ c.Covered t)) ∧
      ((c'.derived_base.get t = 1 ∧ (c'.Owned t ∨ t ∈ c.closure_support)) ∨
        (c'.derived_base.get t = 0 ∧ ¬ c'.Owned t ∧ t ∉ c.closure_support)) ∧
      c'.emitted t - c.emitted t = c'.derived_base.get t - c.derived_base.get t := by
    intro t
    have hrows := h.rows t
    have hown : c'.Owned t ↔ (c'.row t).attr.isSome = true := by
      rw [Owned, ExtTreeMap.mem_iff_isSome_getElem?]
      rfl
    have hD : c'.derived_base.get t = (c'.row t).derived := rfl
    have hX : c'.emitted t = (c'.row t).emitted := rfl
    have hWt : c'.weights t = (c'.row t).per_rule := rfl
    have hnone : ¬ (none : Option RuleId).isSome = true := Bool.false_ne_true
    rw [hown, hD, hX, hWt]
    rcases hrow t with ⟨_, hv⟩ | ⟨hnot, hv⟩
    · have hshould : (0 < total (st.circuit.weights t) ∧ 0 < st.circuit.fixed.extent.get t ∧
          ((c.rule_attr[t]?).isSome = true ∨ ¬ (0 < st.circuit.fixed.asserted_base.get t ∨
            t ∈ st.circuit.fixed.closure_support))) ↔
          0 < derivations c.plans st.circuit.extent t ∧ (c.Owned t ∨ ¬ c.Covered t) := by
        rw [hW, hownedSome, Covered, ← hstA, ← hstS]
        constructor
        · intro hs
          exact ⟨hs.1, hs.2.2⟩
        · intro hs
          exact ⟨hs.1, (hpresent t).mpr (Or.inr hs.1), hs.2⟩
      rw [hstrow] at hv
      unfold transitionRow at hv
      dsimp only at hv
      by_cases hs : 0 < derivations c.plans st.circuit.extent t ∧ (c.Owned t ∨ ¬ c.Covered t)
      · rw [if_pos (hshould.mpr hs)] at hv
        by_cases ho : c.Owned t
        · rw [if_pos ((hownedSome t).mp ho)] at hv
          rw [hv]
          refine ⟨rfl, ⟨fun _ => hs, fun _ => rfl⟩, ?_, by ring⟩
          rcases hrows with ⟨h1, _⟩ | ⟨_, h2, _⟩
          · exact Or.inl ⟨h1, Or.inl rfl⟩
          · exact absurd ho h2
        · rw [if_neg fun hn => ho ((hownedSome t).mpr hn)] at hv
          rw [hv]
          refine ⟨rfl, ⟨fun _ => hs, fun _ => rfl⟩, ?_, by ring⟩
          have hncov := hs.2.resolve_left ho
          rcases hrows with ⟨_, h2 | h2⟩ | ⟨h1, _⟩
          · exact absurd h2 ho
          · exact absurd (Or.inr h2) hncov
          · refine Or.inl ⟨?_, Or.inl rfl⟩
            dsimp only
            omega
      · rw [if_neg fun hn => hs (hshould.mp hn)] at hv
        by_cases ho : c.Owned t
        · rw [if_pos ((hownedSome t).mp ho)] at hv
          by_cases hc : t ∈ c.closure_support
          · rw [if_pos (by rw [← hstS] at hc; exact hc)] at hv
            rw [hv]
            refine ⟨rfl, ⟨fun ho => absurd ho hnone, fun hn => absurd hn hs⟩, ?_, by ring⟩
            rcases hrows with ⟨h1, _⟩ | ⟨_, h2, _⟩
            · exact Or.inl ⟨h1, Or.inr hc⟩
            · exact absurd ho h2
          · rw [if_neg (by rw [← hstS] at hc; exact hc)] at hv
            rw [hv]
            refine ⟨rfl, ⟨fun ho => absurd ho hnone, fun hn => absurd hn hs⟩,
              Or.inr ⟨rfl, hnone, hc⟩, ?_⟩
            rcases hrows with ⟨h1, _⟩ | ⟨_, h2, _⟩
            · dsimp only
              omega
            · exact absurd ho h2
        · rw [if_neg fun hn => ho ((hownedSome t).mpr hn)] at hv
          rw [hv]
          refine ⟨rfl, ⟨fun hn => absurd ((hownedSome t).mpr hn) ho, fun hn => absurd hn hs⟩,
            ?_, by ring⟩
          rw [← hownedSome]
          exact hrows
    · rw [hstrow] at hv
      rw [hv]
      dsimp only
      rw [← hownedSome]
      have hclean := not_mem_iff_contains.mp hnot
      have hsame := hre.untouched t hclean
      refine ⟨rfl, ?_, hrows, by ring⟩
      constructor
      · intro ho
        rw [hsame]
        exact ⟨(h.owned t ho).2, Or.inl ho⟩
      · rintro ⟨hd, ho | hn⟩
        · exact ho
        · rw [hsame] at hd
          have h0 := h.closed t hd
          rcases h.delta t with ⟨_, h2⟩ | ⟨_, h2, _⟩ | ⟨h1, _⟩
          · exact (h2.mp h0).resolve_left hn
          · omega
          · have := hre.weak t (by omega) hd
            rw [hclean] at this
            cases this
  constructor
  · rw [hframe, hre.rest, hplans, hext, hre.rest]
    rfl
  · rw [hplans]
    exact hre.plans
  · refine ⟨?_, ?_⟩
    · rw [hplans, hext]
      exact hre.weighed.traced
    · intro t
      rw [hplans, hext, (hcase t).1]
      exact hre.weighed.exact t
  · rw [hext]
    exact hre.flat
  · intro t
    rw [hS]
    exact (hcase t).2.2.1
  · intro t
    rw [hext]
    exact hpresent t
  · intro t
    rw [hext]
    exact (hcase t).2.1
  · exact fun t => (hcase t).2.2.2
  · intro t ht hl
    rw [hext, ← hzero]
    exact hre.kept t (Or.inr ⟨ht, hl⟩)
  · intro S hcl hcov hkept t ht
    refine hre.least S hcl hcov hkept t ?_
    rw [hzero, ← hext]
    exact ht

/-- Either fixpoint settles. -/
theorem rule_fixpoint_spec {rules : List (List TriplePattern × TriplePattern)}
    {c : Circuit} {d : Zset TripleId} (h : Ready rules c d) {c' : Circuit}
    (hran : c.rule_fixpoint d = some c') : Settled rules c d c' := by
  unfold rule_fixpoint at hran
  split at hran
  · exact run_two_phase_fixpoint_spec h hran
  · rename_i hnone
    refine run_insertion_fixpoint_spec h (fun t => ?_) hran
    by_contra hneg
    refine hnone (List.any_eq_true.mpr ⟨(t, d.get t), Zset.mem_iter.mpr ⟨by omega, rfl⟩, ?_⟩)
    rw [decide_eq_true_eq]
    omega

end horndb.incremental.Circuit
