-- A plan as a rule: the planner uses every pattern of the body once, so a plan counts
-- at a row what the rule derives it from, whichever order was chosen. Over an extent
-- that holds every row at most once it counts the instances of its rule.
import HornDb.PlanBuild

open HornDb.Lib.Pairing

namespace horndb.incremental

/-! ## The order is a permutation -/

theorem min_by_key_lt (key : Nat → Nat) {n : Nat} (hn : 0 < n) : min_by_key key n < n := by
  have run : ∀ (is : List Nat) (best : Nat), best < n → (∀ i ∈ is, i < n) →
      is.foldl (fun best i => if key i < key best then i else best) best < n := by
    intro is
    induction is with
    | nil => intro best h _; exact h
    | cons i is ih =>
      intro best h his
      rw [List.forall_mem_cons] at his
      rw [List.foldl_cons]
      refine ih _ ?_ his.2
      split
      · exact his.1
      · exact h
  exact run _ 0 hn fun i hi => List.mem_range.mp hi

theorem keep_cheapest_eq_some {best : Option (Nat × Nat)} {cost i : Nat} {e : Nat × Nat}
    (h : keep_cheapest best cost i = some e) : e = (cost, i) ∨ best = some e := by
  unfold keep_cheapest at h
  split at h
  · split at h
    · exact Or.inl (Option.some.inj h).symm
    · exact Or.inr h
  · exact Or.inl (Option.some.inj h).symm

variable {body : List TriplePattern}

theorem pick_next_fresh {stats : Stats} {order : List Nat} {joined : List TriplePattern}
    {pick : Nat} (h : pick_next body stats order joined = some pick) :
    pick < body.length ∧ pick ∉ order := by
  have run : ∀ (is : List Nat) (best : Option (Nat × Nat)),
      (∀ i ∈ is, i < body.length) →
      (∀ e, best = some e → e.2 < body.length ∧ e.2 ∉ order) →
      ∀ e, is.foldl (consider body stats order joined) best = some e →
        e.2 < body.length ∧ e.2 ∉ order := by
    intro is
    induction is with
    | nil => intro best _ hbest; exact hbest
    | cons j is ih =>
      intro best his hbest
      rw [List.forall_mem_cons] at his
      rw [List.foldl_cons]
      refine ih _ his.2 fun e he => ?_
      unfold consider at he
      dsimp only at he
      by_cases hmem : j ∈ order
      · rw [if_pos (by rw [List.contains_iff_mem.mpr hmem, Bool.true_or])] at he
        exact hbest e he
      · split at he
        · exact hbest e he
        · rcases keep_cheapest_eq_some he with rfl | he
          · exact ⟨his.1, hmem⟩
          · exact hbest e he
  unfold pick_next at h
  rw [Option.map_eq_some_iff] at h
  obtain ⟨e, he, rfl⟩ := h
  exact run _ none (fun i hi => List.mem_range.mp hi) (fun _ h => nomatch h) e he

theorem extend_order_spec {stats : Stats} :
    ∀ (n : Nat) (order : List Nat) {joined : List TriplePattern} {out : List Nat},
      order.Nodup → (∀ i ∈ order, i < body.length) →
      extend_order body stats n order joined = .ok out →
      out.Nodup ∧ (∀ i ∈ out, i < body.length) ∧ out.length = order.length + n := by
  intro n
  induction n with
  | zero =>
    intro order joined out hnodup hlt h
    cases h
    exact ⟨hnodup, hlt, rfl⟩
  | succ n ih =>
    intro order joined out hnodup hlt h
    rw [extend_order] at h
    split at h
    · cases h
    · rename_i pick hpick
      obtain ⟨hin, hfresh⟩ := pick_next_fresh hpick
      obtain ⟨hout, hlt', hlen⟩ := ih (order ++ [pick])
        (by
          rw [List.nodup_append]
          refine ⟨hnodup, List.nodup_singleton _, ?_⟩
          intro i hi j hj heq
          rw [List.mem_singleton] at hj
          subst hj heq
          exact hfresh hi)
        (by
          intro i hi
          rcases List.mem_append.mp hi with hi | hi
          · exact hlt i hi
          · rw [List.mem_singleton.mp hi]
            exact hin) h
      refine ⟨hout, hlt', ?_⟩
      rw [hlen, List.length_append, List.length_singleton]
      omega

/-- The planner joins every pattern of the body exactly once. -/
theorem choose_order_perm {stats : Stats} {order : List Nat} (hbody : 0 < body.length)
    (h : choose_order body stats = .ok order) : order.Perm (List.range body.length) := by
  unfold choose_order at h
  dsimp only at h
  obtain ⟨hnodup, hlt, hlen⟩ := extend_order_spec _ _ (List.nodup_singleton _)
    (by
      intro i hi
      rw [List.mem_singleton.mp hi]
      split
      · exact min_by_key_lt _ hbody
      · exact hbody) h
  have hsub : order ⊆ List.range body.length := fun i hi => List.mem_range.mpr (hlt i hi)
  refine (hnodup.subperm hsub).perm_of_length_le ?_
  rw [List.length_range, hlen, List.length_singleton]
  omega

theorem map_body_at_range (body : List TriplePattern) :
    (List.range body.length).map (body_at body) = body := by
  refine List.ext_getElem (by simp) fun i h₁ h₂ => ?_
  simp [body_at, h₂]

/-! ## The plan of a rule -/

/-- The rule `body → head` fires on the rows `ps` and gives `t`. -/
def Fires (body : List TriplePattern) (head : TriplePattern) (ps : List TripleId) (t : TripleId) :
    Prop :=
  ∃ σ : Nat → Nat, ps = body.map (TriplePattern.at σ) ∧ head.at σ = t

namespace NaryPlan

/-- The plan has the joins that `from_body` built for the rule. -/
def BuiltFrom (plan : NaryPlan) (body : List TriplePattern) (head : TriplePattern) : Prop :=
  ∃ id stats built, from_body id body head stats = .ok built ∧ plan.joins = built.joins

/-- What a built plan is: the count of the matches of the body in some order, with every
variable of the head in the body. -/
theorem built_count {plan : NaryPlan} {head : TriplePattern} (h : plan.BuiltFrom body head) :
    ∃ qs : List TriplePattern, qs.Perm body ∧ (∀ v ∈ vars_in head, ∃ q ∈ qs, v ∈ vars_in q) ∧
      ∀ ext t, (plan.apply_full ext).val t = countFrom ext.all.val head t .default qs := by
  obtain ⟨id, stats, built, hbuilt, hjoins⟩ := h
  unfold from_body at hbuilt
  split at hbuilt
  · cases hbuilt
  · rename_i hlen
    obtain ⟨order, horder, hbuilt⟩ := except_bind_ok.mp hbuilt
    obtain ⟨joins, hbuild, hbuilt⟩ := except_bind_ok.mp hbuilt
    cases hbuilt
    have hperm := choose_order_perm (by omega) horder
    have hlength : order.length = body.length := by
      rw [hperm.length_eq, List.length_range]
    match order, hlength with
    | [], hlength => exact absurd hlength (by simp only [List.length_nil]; omega)
    | [i], hlength => exact absurd hlength (by simp only [List.length_singleton]; omega)
    | i :: j :: rest, _ =>
      refine ⟨(i :: j :: rest).map (body_at body), ?_, ?_, ?_⟩
      · have := hperm.map (body_at body)
        rwa [map_body_at_range] at this
      · intro v hv
        obtain ⟨_, hhead⟩ := chain_build_joins 0 ⟨0, 0, 0⟩ 0 (List.cons_ne_nil j rest) hbuild
        rcases hhead v hv with h | ⟨k, hk, h⟩
        · exact ⟨_, List.mem_map.mpr ⟨i, List.mem_cons_self, rfl⟩, h⟩
        · exact ⟨_, List.mem_map.mpr ⟨k, List.mem_cons_of_mem _ hk, rfl⟩, h⟩
      · intro ext t
        obtain ⟨shape, r, rules', hshape, hnew, hrules, hcons⟩ := build_joins_cons hbuild
        obtain ⟨hcount, _⟩ := chain_build_joins ext.all.val t ext.all.val
          (List.cons_ne_nil j rest) hbuild
        rw [List.map_cons, countFrom]
        refine Eq.trans ?_ hcount
        rw [apply_full, hjoins, hcons]
        dsimp only
        rw [foldl_next_full_val, first_full_val, chain]

/-- A built plan counts at a row when the rule gives it from rows of the extent. -/
theorem built_pos_iff {plan : NaryPlan} {head : TriplePattern} (h : plan.BuiltFrom body head)
    {ext : PredExtent} (hE : ∀ x, 0 ≤ ext.get x) (t : TripleId) : 0 ≤ (plan.apply_full ext).get t ∧
      (0 < (plan.apply_full ext).get t ↔ ∃ ps, Fires body head ps t ∧ ∀ p ∈ ps, 0 < ext.get p) := by
  obtain ⟨qs, hperm, hhead, hcount⟩ := built_count h
  have hval := hcount ext t
  rw [Zset.val_apply] at hval
  rw [hval]
  refine ⟨countFrom_nonneg hE _ _ _ _, (countFrom_pos_iff hE).trans ?_⟩
  constructor
  · rintro ⟨ys, hm, hpos⟩
    obtain ⟨σ, _, rfl, ht⟩ := (matches_iff fun v hv => Or.inr (hhead v hv)).mp hm
    refine ⟨_, ⟨σ, rfl, ht⟩, fun p hp => hpos p ?_⟩
    exact (hperm.map _).mem_iff.mpr hp
  · rintro ⟨ps, ⟨σ, rfl, ht⟩, hpos⟩
    refine ⟨qs.map (TriplePattern.at σ), ?_, fun y hy => hpos y ((hperm.map _).mem_iff.mp hy)⟩
    exact (matches_iff fun v hv => Or.inr (hhead v hv)).mpr
      ⟨σ, Bindings.default_under σ, rfl, ht⟩

/-- A built plan counts more over a larger extent, exactly at the rows that the rule
gives from rows of the larger one of which one is more than before. -/
theorem built_le_and_lt_iff {plan : NaryPlan} {head : TriplePattern}
    (h : plan.BuiltFrom body head) {ext ext' : PredExtent} (hE : ∀ x, 0 ≤ ext.get x)
    (hle : ∀ x, ext.get x ≤ ext'.get x) (t : TripleId) :
    (plan.apply_full ext).get t ≤ (plan.apply_full ext').get t ∧
      ((plan.apply_full ext).get t < (plan.apply_full ext').get t ↔
        ∃ ps, Fires body head ps t ∧ (∀ p ∈ ps, 0 < ext'.get p) ∧
          ∃ p ∈ ps, ext.get p < ext'.get p) := by
  obtain ⟨qs, hperm, hhead, hcount⟩ := built_count h
  have hval := hcount ext t
  have hval' := hcount ext' t
  rw [Zset.val_apply] at hval hval'
  rw [hval, hval']
  obtain ⟨hle', hlt⟩ := countFrom_le_and_lt_iff ext.all.val ext'.all.val hE hle head t .default qs
  refine ⟨hle', hlt.trans ?_⟩
  constructor
  · rintro ⟨ys, hm, hpos, y, hy, hyl⟩
    obtain ⟨σ, _, rfl, ht⟩ := (matches_iff fun v hv => Or.inr (hhead v hv)).mp hm
    have hmem := fun p => ((hperm.map (TriplePattern.at σ)).mem_iff (a := p))
    exact ⟨_, ⟨σ, rfl, ht⟩, fun p hp => hpos p ((hmem p).mpr hp), y, (hmem y).mp hy, hyl⟩
  · rintro ⟨ps, ⟨σ, rfl, ht⟩, hpos, p, hp, hpl⟩
    have hmem := fun p => ((hperm.map (TriplePattern.at σ)).mem_iff (a := p))
    refine ⟨qs.map (TriplePattern.at σ), ?_, fun y hy => hpos y ((hmem y).mp hy), p,
      (hmem p).mpr hp, hpl⟩
    exact (matches_iff fun v hv => Or.inr (hhead v hv)).mpr
      ⟨σ, Bindings.default_under σ, rfl, ht⟩

end NaryPlan

end horndb.incremental

open HornDb.Lib.Pairing

namespace horndb.incremental

/-! ## Matches as a finite set -/

/-- The rows of `E` that match the patterns in order on top of a table and give the head. -/
noncomputable def matchSet (E : TripleId →₀ ℤ) (head : TriplePattern) (t : TripleId) :
    Bindings → List TriplePattern → Finset (List TripleId)
  | b, [] => if eval_head head b = t then {[]} else ∅
  | b, q :: qs =>
    E.support.biUnion fun y =>
      ((bind_slots (q.slots y) b).elim ∅ fun c => matchSet E head t c qs).image (List.cons y)

theorem mem_matchSet {E : TripleId →₀ ℤ} {head : TriplePattern} {t : TripleId}
    {qs : List TriplePattern} : ∀ {b : Bindings} {ys : List TripleId},
      ys ∈ matchSet E head t b qs ↔ Matches head t b qs ys ∧ ∀ y ∈ ys, E y ≠ 0 := by
  induction qs with
  | nil =>
    intro b ys
    rw [matchSet]
    cases ys with
    | nil =>
      rw [Matches]
      split
      · rename_i h
        simp [h]
      · rename_i h
        simp [h]
    | cons y ys =>
      have hno : ¬ Matches head t b [] (y :: ys) := fun h => h.elim
      split
      · simp [hno]
      · simp [hno]
  | cons q qs ih =>
    intro b ys
    rw [matchSet, Finset.mem_biUnion]
    cases ys with
    | nil => simp [Matches]
    | cons y ys =>
      rw [Matches, List.forall_mem_cons]
      constructor
      · intro h
        obtain ⟨z, hz, hmem⟩ := h
        obtain ⟨zs, hzs, heq⟩ := Finset.mem_image.mp hmem
        cases heq
        cases hc : bind_slots (q.slots y) b with
        | none =>
          rw [hc, Option.elim_none] at hzs
          exact absurd hzs (Finset.notMem_empty _)
        | some c =>
          rw [hc, Option.elim_some] at hzs
          obtain ⟨hm, hpos⟩ := ih.mp hzs
          exact ⟨⟨c, rfl, hm⟩, Finsupp.mem_support_iff.mp hz, hpos⟩
      · intro h
        obtain ⟨⟨c, hc, hm⟩, hy, hpos⟩ := h
        refine ⟨y, Finsupp.mem_support_iff.mpr hy, Finset.mem_image.mpr ⟨ys, ?_, rfl⟩⟩
        rw [hc, Option.elim_some]
        exact ih.mpr ⟨hm, hpos⟩

/-- The count of the matches is the sum over them of the products of the rows' counts. -/
theorem countFrom_eq_sum (E : TripleId →₀ ℤ) (head : TriplePattern) (t : TripleId)
    (qs : List TriplePattern) :
    ∀ b : Bindings, countFrom E head t b qs =
      ∑ ys ∈ matchSet E head t b qs, (ys.map E).prod := by
  induction qs with
  | nil =>
    intro b
    rw [countFrom, matchSet]
    split
    · simp
    · simp
  | cons q qs ih =>
    intro b
    rw [countFrom, matchSet, Finset.sum_biUnion, weigh, Finsupp.sum]
    · refine Finset.sum_congr rfl fun y _ => ?_
      rw [Finset.sum_image (List.cons_injective.injOn)]
      simp only [List.map_cons, List.prod_cons]
      rw [← Finset.mul_sum]
      cases bind_slots (q.slots y) b with
      | none => simp
      | some c => rw [Option.elim_some, Option.elim_some, ih c]
    · intro y _ z _ hyz
      rw [Function.onFun, Finset.disjoint_left]
      intro ys hys hzs
      obtain ⟨us, _, rfl⟩ := Finset.mem_image.mp hys
      obtain ⟨vs, _, heq⟩ := Finset.mem_image.mp hzs
      exact hyz (List.cons.inj heq).1.symm

/-- Where each row counts once, the matches are counted once each. -/
theorem countFrom_eq_card {E : TripleId →₀ ℤ} (hE : ∀ x, E x = 0 ∨ E x = 1)
    (head : TriplePattern) (t : TripleId) (qs : List TriplePattern) (b : Bindings) :
    countFrom E head t b qs = (matchSet E head t b qs).card := by
  rw [countFrom_eq_sum, Finset.cast_card]
  refine Finset.sum_congr rfl fun ys hys => List.prod_eq_one fun z hz => ?_
  obtain ⟨y, hy, rfl⟩ := List.mem_map.mp hz
  exact (hE y).resolve_left ((mem_matchSet.mp hys).2 y hy)

/-! ## Instances of a rule -/

/-- Two images of a set on which the maps tell the same points apart have one size. -/
theorem ncard_image_congr {α β γ : Type*} {S : Set α} {f : α → β} {g : α → γ}
    (h : ∀ a ∈ S, ∀ b ∈ S, f a = f b ↔ g a = g b) : (f '' S).ncard = (g '' S).ncard := by
  refine Set.ncard_congr (fun x hx => g hx.choose) ?_ ?_ ?_
  · intro x hx
    exact ⟨_, hx.choose_spec.1, rfl⟩
  · intro x y hx hy heq
    have := (h _ hx.choose_spec.1 _ hy.choose_spec.1).mpr heq
    rwa [hx.choose_spec.2, hy.choose_spec.2] at this
  · intro z hz
    obtain ⟨a, ha, rfl⟩ := hz
    have hx : f a ∈ f '' S := ⟨a, ha, rfl⟩
    exact ⟨f a, hx, (h _ hx.choose_spec.1 _ ha).mp hx.choose_spec.2⟩

/-- The one-step derivations of a row by a rule: the present rows that its body matches. -/
def Derivations (body : List TriplePattern) (head : TriplePattern) (ext : PredExtent)
    (t : TripleId) : Set (List TripleId) :=
  {ps | Fires body head ps t ∧ ∀ p ∈ ps, 0 < ext.get p}

/-- Over an extent of single rows a built plan counts the derivations by its rule. -/
theorem NaryPlan.built_eq_ncard {plan : NaryPlan} {body : List TriplePattern}
    {head : TriplePattern} (h : plan.BuiltFrom body head) {ext : PredExtent}
    (hflat : ∀ x, ext.get x = 0 ∨ ext.get x = 1) (t : TripleId) :
    (plan.apply_full ext).get t = (Derivations body head ext t).ncard := by
  obtain ⟨qs, hperm, hhead, hcount⟩ := built_count h
  have hmem : ∀ (σ : Nat → Nat) (p : TripleId),
      p ∈ qs.map (TriplePattern.at σ) ↔ p ∈ body.map (TriplePattern.at σ) :=
    fun σ p => (hperm.map _).mem_iff
  let S : Set (Nat → Nat) :=
    {σ | head.at σ = t ∧ ∀ p ∈ body.map (TriplePattern.at σ), 0 < ext.get p}
  have hderive : Derivations body head ext t = (fun σ => body.map (TriplePattern.at σ)) '' S := by
    ext ps
    constructor
    · intro hps
      obtain ⟨⟨σ, rfl, ht⟩, hpos⟩ := hps
      exact ⟨σ, ⟨ht, hpos⟩, rfl⟩
    · intro hps
      obtain ⟨σ, ⟨ht, hpos⟩, rfl⟩ := hps
      exact ⟨⟨σ, rfl, ht⟩, hpos⟩
  have hmatch : (matchSet ext.all.val head t .default qs : Set (List TripleId)) =
      (fun σ => qs.map (TriplePattern.at σ)) '' S := by
    ext ys
    rw [Finset.mem_coe, mem_matchSet, matches_iff fun v hv => Or.inr (hhead v hv)]
    have hne : ∀ x, ext.all.val x ≠ 0 ↔ 0 < ext.get x := by
      intro x
      have hx : ext.all.val x = ext.get x := rfl
      rw [hx]
      rcases hflat x with h0 | h0 <;> omega
    simp only [hne]
    constructor
    · intro hys
      obtain ⟨⟨σ, _, rfl, ht⟩, hpos⟩ := hys
      exact ⟨σ, ⟨ht, fun p hp => hpos p ((hmem σ p).mpr hp)⟩, rfl⟩
    · intro hys
      obtain ⟨σ, ⟨ht, hpos⟩, rfl⟩ := hys
      exact ⟨⟨σ, Bindings.default_under σ, rfl, ht⟩, fun p hp => hpos p ((hmem σ p).mp hp)⟩
  have hsame : (Derivations body head ext t).ncard =
      (matchSet ext.all.val head t .default qs).card := by
    rw [← Set.ncard_coe_finset, hmatch, hderive]
    apply ncard_image_congr
    intro σ _ τ _
    -- Either list says that the two substitutions agree on every pattern.
    rw [List.map_inj_left, List.map_inj_left]
    exact ⟨fun hq q hmemq => hq q (hperm.mem_iff.mp hmemq),
      fun hq q hmemq => hq q (hperm.mem_iff.mpr hmemq)⟩
  have hval := hcount ext t
  rw [Zset.val_apply] at hval
  rw [hval, hsame, countFrom_eq_card hflat]

end horndb.incremental
