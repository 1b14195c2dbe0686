-- Over any Z-set a plan gives each head row the sum, over the assignments of the body's
-- variables that produce it, of the products of the rows' counts. The order that the
-- planner chose does not show. Over words it gives that, or a count does not fit.
import HornDb.CheckedMass
import HornDb.PlanRules

open HornDb.Lib.Pairing

namespace horndb.incremental

/-! ## Built plans over small variables -/

namespace NaryPlan

/-- Each join built over a body of small variables has small variables. -/
theorem build_joins_small {id : RuleId} {body : List TriplePattern} {head : TriplePattern}
    (hbody : ∀ q ∈ body, Small q) :
    ∀ {rest : List Nat} {left : TriplePattern} {rules : List HashJoinRule}, Small left →
      (∀ i ∈ rest, i < body.length) → build_joins id body head left rest = .ok rules →
      rules.length = rest.length ∧ ∀ r ∈ rules, r.Small := by
  intro rest
  induction rest with
  | nil =>
    intro left rules _ _ h
    cases h
    exact ⟨rfl, fun r hr => absurd hr List.not_mem_nil⟩
  | cons i rest ih =>
    intro left rules hleft hrest h
    obtain ⟨shape, r, rules', _, hnew, hrules, rfl⟩ := build_joins_cons h
    obtain ⟨hl, hr, hh⟩ := HashJoinRule.new_ok hnew
    rw [List.forall_mem_cons] at hrest
    have hright : Small (body_at body i) := by
      refine hbody _ ?_
      rw [body_at, List.getD_eq_getElem _ _ hrest.1]
      exact List.getElem_mem hrest.1
    have hshape : Small shape := by
      intro v hv
      rw [← hh] at hv
      rcases r.head_bound v hv with h | h
      · exact hleft v (hl ▸ h)
      · exact hright v (hr ▸ h)
    obtain ⟨hlen, hall⟩ := ih hshape hrest.2 hrules
    refine ⟨congrArg Nat.succ hlen, ?_⟩
    rw [List.forall_mem_cons]
    exact ⟨⟨hl ▸ hleft, hr ▸ hright⟩, hall⟩

theorem from_body_small {id : RuleId} {body : List TriplePattern} {head : TriplePattern}
    {stats : Stats} {plan : NaryPlan} (hbuilt : from_body id body head stats = .ok plan)
    (hbody : ∀ q ∈ body, Small q) :
    plan.joins.length + 1 = body.length ∧ ∀ r ∈ plan.joins, r.Small := by
  unfold from_body at hbuilt
  split at hbuilt
  · cases hbuilt
  rename_i hlen
  obtain ⟨order, horder, hbuilt⟩ := except_bind_ok.mp hbuilt
  obtain ⟨joins, hbuild, hbuilt⟩ := except_bind_ok.mp hbuilt
  cases hbuilt
  have hperm := choose_order_perm (by omega) horder
  have hlt : ∀ i ∈ order, i < body.length := fun i hi =>
    List.mem_range.mp (hperm.mem_iff.mp hi)
  have hat : ∀ i, i < body.length → Small (body_at body i) := by
    intro i hi
    rw [body_at, List.getD_eq_getElem _ _ hi]
    exact hbody _ (List.getElem_mem hi)
  have hfirst : order.headD 0 < body.length := by
    cases order with
    | nil => exact Nat.lt_of_lt_of_le Nat.zero_lt_two (Nat.not_lt.mp hlen)
    | cons i order => exact hlt i List.mem_cons_self
  obtain ⟨hcount, hsmall⟩ := build_joins_small hbody (hat _ hfirst)
    (fun i hi => hlt i (List.mem_of_mem_tail hi)) hbuild
  refine ⟨?_, hsmall⟩
  have hsize := hperm.length_eq
  rw [List.length_range] at hsize
  rw [hcount, List.length_tail]
  omega

end NaryPlan

/-! ## Sums over the matches -/

/-! ## Assignments of the body's variables -/

def body_vars (body : List TriplePattern) : List Nat := body.flatMap vars_in

/-- A value for each variable of the body. -/
abbrev Assignment (body : List TriplePattern) := {v // v ∈ body_vars body} → Nat

namespace Assignment

variable {body : List TriplePattern}

def subst (σ : Assignment body) (v : Nat) : Nat :=
  if h : v ∈ body_vars body then σ ⟨v, h⟩ else 0

/-- The product of the counts of the rows that the body matches under the assignment. -/
def weight (ext : PredExtent) (σ : Assignment body) : Int :=
  (body.map fun q => ext.get (q.at σ.subst)).prod

/-- Two substitutions give one row from a pattern exactly where they agree on its variables. -/
theorem at_eq_iff {q : TriplePattern} {σ τ : Nat → Nat} :
    q.at σ = q.at τ ↔ ∀ v ∈ vars_in q, σ v = τ v := by
  have hterm : ∀ t : Term, t.at σ = t.at τ ↔ ∀ v, t = .Var v → σ v = τ v := by
    intro t
    cases t with
    | Bound id => exact iff_of_true rfl fun v hv => nomatch hv
    | Var v =>
      constructor
      · rintro h w ⟨⟩
        exact h
      · exact fun h => h v rfl
  rw [TriplePattern.at, TriplePattern.at, TripleId.mk.injEq, hterm, hterm, hterm]
  simp only [mem_vars_in]
  constructor
  · rintro ⟨hs, hp, ho⟩ v (h | h | h)
    · exact hs v h.symm
    · exact hp v h.symm
    · exact ho v h.symm
  · intro h
    exact ⟨fun v hv => h v (Or.inl hv.symm), fun v hv => h v (Or.inr (Or.inl hv.symm)),
      fun v hv => h v (Or.inr (Or.inr hv.symm))⟩

/-- The rows that the patterns match tell the assignments apart. -/
theorem rows_injective {qs : List TriplePattern} (hperm : qs.Perm body) :
    Function.Injective fun σ : Assignment body => qs.map (TriplePattern.at σ.subst) := by
  intro σ τ h
  funext v
  obtain ⟨v, hv⟩ := v
  obtain ⟨q, hq, hvq⟩ := List.mem_flatMap.mp hv
  have heq := List.map_inj_left.mp h q (hperm.mem_iff.mpr hq)
  have := at_eq_iff.mp heq v hvq
  rwa [subst, subst, dif_pos hv, dif_pos hv] at this

/-- Only finitely many assignments match rows that count. -/
theorem finite_support (ext : PredExtent) :
    (Function.support fun σ : Assignment body => σ.weight ext).Finite := by
  -- Each value is a component of a row of the extent.
  let S : Finset Nat := ext.all.val.support.biUnion fun t => {t.s, t.p, t.o}
  refine (Set.Finite.pi' fun _ => S.finite_toSet).subset fun (σ : Assignment body) hσ => ?_
  rintro ⟨v, hv⟩
  obtain ⟨q, hq, hvq⟩ := List.mem_flatMap.mp hv
  have hne : ext.get (q.at σ.subst) ≠ 0 := by
    intro hz
    exact hσ (List.prod_eq_zero (List.mem_map.mpr ⟨q, hq, hz⟩))
  refine Finset.mem_coe.mpr (Finset.mem_biUnion.mpr ⟨q.at σ.subst, ?_, ?_⟩)
  · exact Finsupp.mem_support_iff.mpr hne
  · have hval : σ.subst v = σ ⟨v, hv⟩ := by rw [subst, dif_pos hv]
    rw [← hval]
    rcases mem_vars_in.mp hvq with h | h | h
    · simp [TriplePattern.at, ← h, Term.at]
    · simp [TriplePattern.at, ← h, Term.at]
    · simp [TriplePattern.at, ← h, Term.at]

/-- Every substitution acts on the body as an assignment. -/
theorem exists_subst (σ : Nat → Nat) :
    ∃ τ : Assignment body, ∀ v ∈ body_vars body, τ.subst v = σ v :=
  ⟨fun v => σ v.1, fun v hv => by rw [subst, dif_pos hv]⟩

end Assignment

namespace NaryPlan

/-- What a built plan gives each head row: the sum over the assignments of the body's
variables that produce it, finitely many of them over rows of the extent, of the product of
the counts of the matched rows. -/
theorem built_eq_sum {plan : NaryPlan} {body : List TriplePattern} {head : TriplePattern}
    (h : plan.BuiltFrom body head) (ext : PredExtent) (t : TripleId) :
    (Function.support fun σ : Assignment body => σ.weight ext).Finite ∧
      (plan.apply_full ext).get t =
        ∑ᶠ σ : Assignment body, if head.at σ.subst = t then σ.weight ext else 0 := by
  obtain ⟨qs, hperm, hhead, hcount⟩ := built_count h
  have hweight : ∀ σ : Assignment body,
      σ.weight ext = ((qs.map (TriplePattern.at σ.subst)).map ext.all.val).prod := by
    intro σ
    rw [Assignment.weight, List.map_map]
    exact ((hperm.map _).prod_eq).symm
  have hmem : ∀ σ : Assignment body,
      qs.map (TriplePattern.at σ.subst) ∈ matchSet ext.all.val head t .default qs ↔
        head.at σ.subst = t ∧ σ.weight ext ≠ 0 := by
    intro σ
    rw [mem_matchSet, matches_iff fun v hv => Or.inr (hhead v hv), hweight, Ne,
      List.prod_eq_zero_iff, List.mem_map]
    constructor
    · rintro ⟨⟨τ, _, hrows, ht⟩, hne⟩
      refine ⟨?_, fun ⟨y, hy, hz⟩ => hne y hy hz⟩
      have hagree : ∀ v ∈ vars_in head, σ.subst v = τ v := by
        intro v hv
        obtain ⟨q, hq, hvq⟩ := hhead v hv
        exact Assignment.at_eq_iff.mp (List.map_inj_left.mp hrows q hq) v hvq
      rw [Assignment.at_eq_iff.mpr hagree, ht]
    · rintro ⟨ht, hne⟩
      exact ⟨⟨σ.subst, Bindings.default_under _, rfl, ht⟩, fun y hy hz => hne ⟨y, hy, hz⟩⟩
  have hval := hcount ext t
  rw [Zset.val_apply] at hval
  refine ⟨Assignment.finite_support ext, ?_⟩
  have hinj := (Assignment.rows_injective hperm).injOn
    (s := Set.preimage (fun σ : Assignment body => qs.map (TriplePattern.at σ.subst))
      (matchSet ext.all.val head t .default qs))
  rw [hval, countFrom_eq_sum, finsum_eq_sum_of_support_subset
    (s := (matchSet ext.all.val head t .default qs).preimage _ hinj)]
  · rw [← Finset.sum_preimage _ _ hinj]
    · refine Finset.sum_congr rfl fun σ hσ => ?_
      have hin := Finset.mem_preimage.mp hσ
      rw [if_pos ((hmem σ).mp hin).1, hweight]
    · intro ys hys hno
      obtain ⟨hm, _⟩ := mem_matchSet.mp hys
      obtain ⟨σ, _, rfl, _⟩ := (matches_iff fun v hv => Or.inr (hhead v hv)).mp hm
      obtain ⟨τ, hτ⟩ : ∃ τ : Assignment body, ∀ v ∈ body_vars body, τ.subst v = σ v :=
        Assignment.exists_subst σ
      refine absurd ⟨τ, List.map_congr_left fun q hq => ?_⟩ hno
      refine Assignment.at_eq_iff.mpr fun v hv => hτ v ?_
      exact List.mem_flatMap.mpr ⟨q, hperm.mem_iff.mp hq, hv⟩
  · intro σ hσ
    rw [Function.mem_support] at hσ
    rw [Finset.coe_preimage, Set.mem_preimage, Finset.mem_coe, hmem]
    by_cases ht : head.at σ.subst = t
    · rw [if_pos ht] at hσ
      exact ⟨ht, hσ⟩
    · exact absurd (if_neg ht) hσ

/-- Every plan that `from_body` builds over variables that the table holds gives each head row,
over every extent, the sum over the assignments of the body's variables that produce it of the
product of the counts of the matched rows, or some count does not fit into its word; and they all
fit where the mass of the extent, to the power of the number of patterns, does. Each variable of
the head is one of the body, and finitely many assignments match rows that count. -/
theorem full_is_sum (id : RuleId) (body : List TriplePattern) (head : TriplePattern)
    (stats : Stats) (plan : NaryPlan) (hbuilt : from_body id body head stats = .ok plan)
    (hbody : ∀ q ∈ body, Small q) (ext : PredExtent) :
    (∀ v ∈ vars_in head, v ∈ body_vars body) ∧
      (Function.support fun σ : Assignment body => σ.weight ext).Finite ∧
      ((∃ out, (plan.checked_full ext).run = .ok out ∧ ∀ t,
          out.get t = ∑ᶠ σ : Assignment body, if head.at σ.subst = t then σ.weight ext else 0) ∨
        (plan.checked_full ext).run = .error .overflow) ∧
      (ext.all.mass ^ body.length < 2 ^ 63 →
        (plan.checked_full ext).run ≠ .error .overflow) := by
  have hfrom : plan.BuiltFrom body head := ⟨id, stats, plan, hbuilt, rfl⟩
  obtain ⟨qs, hperm, hhead, _⟩ := built_count hfrom
  obtain ⟨hlen, hsmall⟩ := from_body_small hbuilt hbody
  refine ⟨fun v hv => ?_, Assignment.finite_support ext, ?_, fun hmass => ?_⟩
  · obtain ⟨q, hq, hvq⟩ := hhead v hv
    exact List.mem_flatMap.mpr ⟨q, hperm.mem_iff.mp hq, hvq⟩
  · refine ((full_in_table hsmall ext).returns_or (plan.exact_full ext)).imp_left fun hrun => ?_
    exact ⟨_, hrun, fun t => (built_eq_sum hfrom ext t).2⟩
  · rw [← hlen] at hmass
    exact full_fits hmass

/-- The rule `?0 1 ?1, ?1 1 ?2 → ?0 2 ?2`. -/
def pathBody : List TriplePattern :=
  [⟨.Var 0, .Bound 1, .Var 1⟩, ⟨.Var 1, .Bound 1, .Var 2⟩]

def pathHead : TriplePattern := ⟨.Var 0, .Bound 2, .Var 2⟩

/-- No statistics: the planner keeps the order of the body. -/
def zeroStats : Stats := ⟨false, fun _ => 0, fun _ => 0⟩

/-- A row of the count -2, with itself. -/
def looped : PredExtent := .from_zset (Zset.new.add ⟨1, 1, 1⟩ (-2))

theorem path_is_sum : ∃ plan, from_body 0 pathBody pathHead zeroStats = .ok plan ∧
    ∃ out, (plan.checked_full looped).run = .ok out ∧ ∀ t,
      out.get t = ∑ᶠ σ : Assignment pathBody, if pathHead.at σ.subst = t then
        σ.weight looped else 0 := by
  refine ⟨_, rfl, ?_⟩
  have hsmall : ∀ q ∈ pathBody, Small q := by
    unfold Small
    decide
  obtain ⟨_, _, hrun, hfits⟩ := full_is_sum 0 pathBody pathHead zeroStats _ rfl hsmall looped
  exact hrun.resolve_right (hfits (by decide))

/-- The body `?8 1 ?0, ?0 1 ?1`, with a variable past the end of the table. -/
def wideBody : List TriplePattern :=
  [⟨.Var 8, .Bound 1, .Var 0⟩, ⟨.Var 0, .Bound 1, .Var 1⟩]

/-- The planner takes the wide body, and its plan panics over one row. -/
theorem wide_body_panics : ∃ plan,
    from_body 0 wideBody ⟨.Var 0, .Bound 2, .Var 1⟩ zeroStats = .ok plan ∧
      (plan.checked_full (.from_zset (Zset.new.add ⟨1, 1, 2⟩ 1))).run = .error .index := by
  refine ⟨_, rfl, ?_⟩
  rfl

end NaryPlan

end horndb.incremental
