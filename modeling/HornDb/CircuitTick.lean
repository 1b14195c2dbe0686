-- One tick, whole: what it leaves present is the least set that holds the asserted rows,
-- the closure rows and the rows it did not lose, and that no rule leads out of.
import HornDb.CircuitClosure
import HornDb.CircuitRederive

open HornDb.Lib Std

namespace horndb.incremental.Circuit

/-! ## The state between ticks -/

/-- The rows that the closure plans entail over the rows in `R`. -/
def Entailed (preds : List Nat) (R : TripleId → Prop) (t : TripleId) : Prop :=
  t.p ∈ preds ∧ Chain R t

/-- A circuit between ticks: extent, weights, owners and closures agree with the bases. -/
structure Tidy (rules : List (List TriplePattern × TriplePattern)) (c : Circuit) : Prop where
  implements : Implements c.plans rules
  weighed : c.Weighed
  flat : Flat c.extent
  present : ∀ t, 0 < c.extent.get t ↔ 0 < c.asserted_base.get t ∨ 0 < c.derived_base.get t
  rows : c.OwnedRows
  owned : ∀ t, c.Owned t → 0 < derivations c.plans c.extent t
  closed : ∀ t, 0 < derivations c.plans c.extent t → 0 < c.extent.get t
  follows : Follows c.closure_plans fun t => 0 < c.asserted_base.get t
  support : ∀ t, t ∈ c.closure_support →
    Entailed (predicates c.closure_plans) (fun t => 0 < c.asserted_base.get t) t
  entailed : ∀ t, Entailed (predicates c.closure_plans) (fun t => 0 < c.asserted_base.get t) t →
    c.Covered t

/-! ## The batch of a tick -/

theorem merge_pending_get (c : Circuit) (t : TripleId) :
    c.merge_pending.asserted_base.get t =
      c.asserted_base.get t + (batch_delta c.log.records).get t := by
  have h1 : c.merge_pending.asserted_base =
      (c.log.records.map fun rec => (rec.triple, rec.mult)).foldl
        (fun z e => z.add e.1 e.2) c.asserted_base := by
    rw [merge_pending, List.foldl_map]
  rw [← Zset.val_apply, h1, Zset.val_foldl_add, Finsupp.add_apply, batch_delta, ← Zset.val_apply,
    ← Zset.val_apply, Zset.val_from_iter]

/-- A filtered delta with one multiplicity for all its rows. -/
theorem from_iter_filter_get (z : Zset TripleId) (keep : TripleId × Int → Bool) (m : Int)
    (t : TripleId) :
    (Zset.from_iter ((z.iter.filter keep).map fun e => (e.1, m))).get t =
      if z.get t ≠ 0 ∧ keep (t, z.get t) = true then m else 0 := by
  have hstep : RowFold.RowStep
      (fun (s : Zset TripleId) (e : TripleId × Int) => if keep e then s.add e.1 m else s)
      Prod.fst (fun _ => ()) Zset.get (fun _ e v => if keep e then v + m else v) := by
    refine ⟨fun _ _ => rfl, fun s e k hk => ?_, fun s e => ?_⟩
    · split
      · rw [Zset.get_add, if_neg hk, add_zero]
      · rfl
    · split
      · rw [Zset.get_add, if_pos rfl]
      · rfl
  rw [Zset.from_iter, List.foldl_map, List.foldl_filter]
  rcases foldl_iter hstep z .new t with ⟨hz, hv⟩ | ⟨hz, hv⟩
  · rw [Zset.get_new, zero_add] at hv
    rw [hv]
    by_cases hk : keep (t, z.get t) = true
    · rw [if_pos hk, if_pos ⟨hz, hk⟩]
    · rw [if_neg hk, if_neg fun hn => hk hn.2]
  · rw [Zset.get_new] at hv
    rw [hv, if_neg fun hn => hn.1 hz]

theorem closure_insert_delta_pos (c : Circuit) (delta : Zset TripleId) (t : TripleId) :
    0 < (c.closure_insert_delta delta).get t ↔
      c.closure_plans ≠ [] ∧ 0 < delta.get t ∧ 0 < c.asserted_base.get t := by
  unfold closure_insert_delta
  cases hp : c.closure_plans with
  | nil => simp
  | cons r rules =>
    rw [if_neg (by simp), from_iter_filter_get]
    simp only [Bool.and_eq_true, decide_eq_true_eq]
    split
    · rename_i h
      exact iff_of_true (by decide) ⟨List.cons_ne_nil _ _, h.2.1, h.2.2⟩
    · rename_i h
      exact iff_of_false (by decide) fun hn => h ⟨by omega, hn.2⟩

theorem closure_retract_delta_neg (c : Circuit) (delta : Zset TripleId) (has : Bool)
    (t : TripleId) :
    (c.closure_retract_delta delta has).get t < 0 ↔
      c.closure_plans ≠ [] ∧ has = true ∧ delta.get t < 0 ∧ c.asserted_base.get t ≤ 0 := by
  unfold closure_retract_delta
  cases hp : c.closure_plans with
  | nil => simp
  | cons r rules =>
    cases has with
    | false => simp
    | true =>
      rw [if_neg (by simp), from_iter_filter_get]
      simp only [Bool.and_eq_true, decide_eq_true_eq]
      split
      · rename_i h
        exact iff_of_true (by decide) ⟨List.cons_ne_nil _ _, trivial, h.2.1, h.2.2⟩
      · rename_i h
        exact iff_of_false (by decide) fun hn => h ⟨by omega, hn.2.2⟩

/-- A batch without retractions takes no row down. -/
theorem batch_delta_nonneg {records : List DeltaRecord}
    (h : (records.any fun rec => decide (rec.mult < 0)) = false) (t : TripleId) :
    0 ≤ (batch_delta records).get t := by
  have run : ∀ (l : List DeltaRecord) (z : Zset TripleId), (∀ rec ∈ l, 0 ≤ rec.mult) →
      0 ≤ z.get t → 0 ≤ ((l.map fun rec => (rec.triple, rec.mult)).foldl
        (fun z e => z.add e.1 e.2) z).get t := by
    intro l
    induction l with
    | nil => exact fun z _ hz => hz
    | cons rec l ih =>
      intro z hl hz
      rw [List.forall_mem_cons] at hl
      refine ih _ hl.2 ?_
      dsimp only
      rw [Zset.get_add]
      have := hl.1
      split <;> omega
  refine run records .new (fun rec hrec => ?_) (by rw [Zset.get_new])
  rw [List.any_eq_false] at h
  have := h rec hrec
  rw [decide_eq_true_eq] at this
  omega

/-- The flips of asserted presence put the pending presence in step with the bases. -/
theorem presence_flips_balanced {rules : List (List TriplePattern × TriplePattern)} {c : Circuit}
    (h : Tidy rules c) :
    let c₁ := c.merge_pending
    Balanced c₁ ⟨c₁, c₁.presence_flips ((batch_delta c.log.records).iter.map fun e =>
      (e.1, decide (0 < c.asserted_base.get e.1))), []⟩ := by
  intro c₁
  have hstep : RowFold.RowStep
      (fun (s : Zset TripleId) (e : TripleId × Int) =>
        if decide (0 < c.asserted_base.get e.1) != decide (0 < c₁.asserted_base.get e.1) then
          c₁.note_presence_change e.1 s
        else s)
      Prod.fst (fun _ => ()) Zset.get
      (fun _ e v =>
        if decide (0 < c.asserted_base.get e.1) != decide (0 < c₁.asserted_base.get e.1) then
          if c₁.base_presence e.1 then (if 0 < c₁.extent.get e.1 + v then v else v + 1)
          else (if 0 < c₁.extent.get e.1 + v then v - 1 else v)
        else v) := by
    refine ⟨fun _ _ => rfl, fun s e k hk => ?_, fun s e => ?_⟩
    · split
      · cases hp : c₁.base_presence e.1 with
        | true => rw [note_present hp, if_neg hk]
        | false => rw [note_absent hp, if_neg hk]
      · rfl
    · split
      · cases hp : c₁.base_presence e.1 with
        | true => rw [note_present hp, if_pos rfl, if_pos rfl]
        | false => rw [note_absent hp, if_pos rfl, if_neg Bool.false_ne_true]
      · rfl
  have hext : c₁.extent = c.extent := rfl
  have hD : c₁.derived_base = c.derived_base := rfl
  have hboth : ∀ t, let n := (c₁.presence_flips ((batch_delta c.log.records).iter.map fun e =>
        (e.1, decide (0 < c.asserted_base.get e.1)))).get t
      (c₁.extent.get t + n = 0 ∨ c₁.extent.get t + n = 1) ∧
      (0 < c₁.extent.get t + n ↔ 0 < c₁.asserted_base.get t ∨ 0 < c₁.derived_base.get t) := by
    intro t
    dsimp only
    rw [presence_flips, List.foldl_map]
    have hpres : c₁.base_presence t = true ↔
        0 < c₁.asserted_base.get t ∨ 0 < c₁.derived_base.get t := by
      rw [base_presence, Bool.or_eq_true, decide_eq_true_eq, decide_eq_true_eq]
    have hold := h.present t
    have hflat := h.flat t
    rw [← hext] at hold hflat
    rcases foldl_iter hstep (batch_delta c.log.records) .new t with ⟨_, hv⟩ | ⟨hz, hv⟩
    · rw [Zset.get_new] at hv
      dsimp only at hv
      rw [hv]
      by_cases hflip : (decide (0 < c.asserted_base.get t) !=
          decide (0 < c₁.asserted_base.get t)) = true
      · rw [if_pos hflip, ← hpres]
        cases hp : c₁.base_presence t with
        | true =>
          rw [if_pos rfl]
          refine ⟨?_, iff_of_true ?_ rfl⟩ <;> split <;> omega
        | false =>
          rw [if_neg Bool.false_ne_true]
          refine ⟨?_, iff_of_false ?_ Bool.false_ne_true⟩ <;> split <;> omega
      · rw [if_neg hflip, add_zero]
        refine ⟨hflat, ?_⟩
        rw [bne_iff_ne, ne_eq, not_not, decide_eq_decide] at hflip
        rw [hold, hflip, hD]
    · rw [hv, Zset.get_new, add_zero]
      refine ⟨hflat, ?_⟩
      have hsame : c₁.asserted_base.get t = c.asserted_base.get t := by
        rw [merge_pending_get, hz, add_zero]
      rw [hold, hsame, hD]
  exact ⟨rfl, h.rows, fun t => (hboth t).1, fun t => (hboth t).2,
    fun t => (Int.sub_self _).trans (Int.sub_self _).symm⟩

/-! ## Both closure passes -/

/-- What the closure passes leave, from the circuit `c` before the merge of the batch. -/
structure Passed (c : Circuit) (st : ClosurePass) : Prop where
  balanced : Balanced c.merge_pending st
  predicates : predicates st.circuit.closure_plans = predicates c.closure_plans
  follows : Follows st.circuit.closure_plans fun t => 0 < c.merge_pending.asserted_base.get t
  support : ∀ t, t ∈ st.circuit.closure_support → Entailed (Circuit.predicates c.closure_plans)
    (fun t => 0 < c.merge_pending.asserted_base.get t) t
  entailed : ∀ t, Entailed (Circuit.predicates c.closure_plans)
    (fun t => 0 < c.merge_pending.asserted_base.get t) t →
    0 < c.merge_pending.asserted_base.get t ∨ t ∈ st.circuit.closure_support
  orphans : ∀ t, t ∈ st.orphans → t ∈ c.closure_support
  orphaned : ∀ t, t ∈ c.closure_support → c.Owned t →
    ¬ Entailed (Circuit.predicates c.closure_plans)
      (fun t => 0 < c.merge_pending.asserted_base.get t) t → t ∈ st.orphans

theorem Balanced.set_plans {c₀ : Circuit} {st : ClosurePass} (h : Balanced c₀ st)
    (rules : List TransitiveClosureRule) :
    Balanced c₀ { st with circuit := { st.circuit with closure_plans := rules } } :=
  ⟨h.rest, h.rows, h.flat, h.sync, h.emitted⟩

theorem closure_passes_spec {rules : List (List TriplePattern × TriplePattern)} {c : Circuit}
    (h : Tidy rules c) :
    let delta := batch_delta c.log.records
    let has := c.log.records.any fun rec => decide (rec.mult < 0)
    let c₁ := c.merge_pending
    Passed c (c₁.closure_passes
      (delta.iter.map fun e => (e.1, decide (0 < c.asserted_base.get e.1))) has
      (c₁.closure_insert_delta delta) (c₁.closure_retract_delta delta has)) := by
  intro delta has c₁
  have hA : ∀ t, c₁.asserted_base.get t = c.asserted_base.get t + delta.get t :=
    merge_pending_get c
  have hins := closure_insert_delta_pos c₁ delta
  have hret := closure_retract_delta_neg c₁ delta has
  have hplans : c₁.closure_plans = c.closure_plans := rfl
  rw [hplans] at hins hret
  have hnonneg : has = false → ∀ t, 0 ≤ delta.get t := batch_delta_nonneg
  have hflips : Balanced c₁ _ := presence_flips_balanced h
  unfold closure_passes
  dsimp only
  generalize c₁.presence_flips (delta.iter.map fun e =>
    (e.1, decide (0 < c.asserted_base.get e.1))) = init at *
  generalize c₁.closure_insert_delta delta = ins at *
  generalize c₁.closure_retract_delta delta has = ret at *
  -- The edges that stay after the retraction half are present before and after.
  have hmid : ∀ t, c.closure_plans ≠ [] → 0 < c.asserted_base.get t → ¬ ret.get t < 0 →
      0 < c₁.asserted_base.get t := by
    intro t hne hold hr
    by_contra hno
    refine hr ((hret t).mpr ⟨hne, ?_, ?_, by omega⟩)
    · by_contra hhas
      have := hnonneg (Bool.not_eq_true _ ▸ hhas) t
      have := hA t
      omega
    · have := hA t
      omega
  have hnew : ∀ t, c.closure_plans ≠ [] →
      ((0 < c.asserted_base.get t ∧ ¬ ret.get t < 0) ∨ 0 < ins.get t ↔
        0 < c₁.asserted_base.get t) := by
    intro t hne
    constructor
    · rintro (⟨hold, hr⟩ | hi)
      · exact hmid t hne hold hr
      · exact ((hins t).mp hi).2.2
    · intro hpos
      by_cases hold : 0 < c.asserted_base.get t
      · exact Or.inl ⟨hold, fun hr => by
          have := ((hret t).mp hr).2.2.2
          omega⟩
      · refine Or.inr ((hins t).mpr ⟨hne, ?_, hpos⟩)
        have := hA t
        omega
  obtain ⟨mid, hmidEq, hM⟩ : ∃ mid : ClosurePass,
      (if has then c₁.run_closure_retract_pass ret init else ⟨c₁, init, []⟩) = mid ∧
      PlansRetracted c₁ c.closure_plans (fun t => 0 < c.asserted_base.get t)
        (fun t => 0 < c.asserted_base.get t ∧ ¬ ret.get t < 0) (fun t => ret.get t < 0)
        ⟨c₁, init, []⟩ (mid.circuit.closure_plans, mid) := by
    refine ⟨_, rfl, ?_⟩
    cases hhas : has with
    | true =>
      have hspec := retract_plans_spec ret c.closure_plans h.follows hflips
      rw [if_pos rfl, run_closure_retract_pass, hplans]
      dsimp only
      exact ⟨hspec.predicates, hspec.follows, hspec.balanced.set_plans _, hspec.support,
        hspec.orphans⟩
    | false =>
      have hnone : ∀ t, ¬ ret.get t < 0 := fun t hr => by
        have := ((hret t).mp hr).2.1
        rw [hhas] at this
        cases this
      have hsame : (fun t => 0 < c.asserted_base.get t ∧ ¬ ret.get t < 0) =
          fun t => 0 < c.asserted_base.get t := by
        funext t
        exact propext (and_iff_left (hnone t))
      rw [if_neg Bool.false_ne_true, hsame]
      refine ⟨rfl, h.follows, hflips, fun u => ?_, fun u => ?_⟩
      · have := hnone u
        tauto
      · tauto
  rw [hmidEq]
  have hspec := insert_plans_spec ins mid.circuit.closure_plans hM.follows hM.balanced
  have hpreds : predicates mid.circuit.closure_plans = predicates c.closure_plans :=
    hM.predicates
  rw [run_closure_insertion_pass]
  generalize insert_plans ins mid.circuit.closure_plans mid = out at *
  obtain ⟨rules', st⟩ := out
  dsimp only at *
  have hnonempty : ∀ {u : TripleId}, u.p ∈ predicates c.closure_plans → c.closure_plans ≠ [] := by
    intro u hu hnil
    rw [hnil] at hu
    cases hu
  have hchainN : ∀ u : TripleId, u.p ∈ predicates c.closure_plans →
      (Chain (fun t => (0 < c.asserted_base.get t ∧ ¬ ret.get t < 0) ∨ 0 < ins.get t) u ↔
        Chain (fun t => 0 < c₁.asserted_base.get t) u) := by
    intro u hu
    have hfun : (fun t => (0 < c.asserted_base.get t ∧ ¬ ret.get t < 0) ∨ 0 < ins.get t) =
        fun t => 0 < c₁.asserted_base.get t := by
      funext t
      exact propext (hnew t (hnonempty hu))
    rw [hfun]
  have hchainM : ∀ u : TripleId, u.p ∈ predicates c.closure_plans →
      Chain (fun t => 0 < c.asserted_base.get t ∧ ¬ ret.get t < 0) u →
      Chain (fun t => 0 < c₁.asserted_base.get t) u :=
    fun u hu => Chain.mono fun t ht => hmid t (hnonempty hu) ht.1 ht.2
  refine ⟨hspec.balanced.set_plans _, hspec.predicates.trans hpreds, ?_, ?_, ?_, ?_, ?_⟩
  · intro r hr
    obtain ⟨hgood, hedge⟩ := hspec.follows r hr
    refine ⟨hgood, fun s o => (hedge s o).trans (hnew _ fun hnil => ?_)⟩
    have hnone : predicates rules' = [] := by
      rw [show predicates rules' = _ from hspec.predicates.trans hpreds, hnil]
      rfl
    have hr' : r.predicate ∈ predicates rules' := List.mem_map.mpr ⟨r, hr, rfl⟩
    rw [hnone] at hr'
    cases hr'
  · intro t ht
    rcases (hspec.support t).mp ht with ht | ⟨hp, hN, _⟩
    · rcases (hM.support t).mp ht with ⟨hold, hno⟩ | ⟨hp, _, _, hc, _⟩
      · obtain ⟨hp, hR⟩ := h.support t hold
        refine ⟨hp, hchainM t hp ?_⟩
        by_contra hc
        exact hno ⟨hp, hR, hc⟩
      · exact ⟨hp, hchainM t hp hc⟩
    · rw [hpreds] at hp
      exact ⟨hp, (hchainN t hp).mp hN⟩
  · rintro t ⟨hp, hN⟩
    by_cases hpos : 0 < c₁.asserted_base.get t
    · exact Or.inl hpos
    · refine Or.inr ((hspec.support t).mpr ?_)
      by_cases hc : Chain (fun t => 0 < c.asserted_base.get t ∧ ¬ ret.get t < 0) t
      · refine Or.inl ((hM.support t).mpr ?_)
        have hR : Chain (fun t => 0 < c.asserted_base.get t) t := hc.mono fun _ hu => hu.1
        rcases h.entailed t ⟨hp, hR⟩ with hold | hs
        · refine Or.inr ⟨hp, ?_, hold, hc, hpos⟩
          by_contra hr
          exact hpos (hmid t (hnonempty hp) hold hr)
        · exact Or.inl ⟨hs, fun hn => hn.2.2 hc⟩
      · rw [hpreds]
        exact Or.inr ⟨hp, (hchainN t hp).mpr hN, hc, Or.inr hpos⟩
  · intro t ht
    rw [hspec.orphans] at ht
    rcases (hM.orphans t).mp ht with ht | ht
    · cases ht
    · exact ht.1
  · intro t hs ho hno
    rw [hspec.orphans]
    obtain ⟨hp, hR⟩ := h.support t hs
    exact (hM.orphans t).mpr (Or.inr ⟨hs, ho, hp, hR, fun hc => hno ⟨hp, hchainM t hp hc⟩⟩)

/-! ## The seeds of the fixpoint -/

theorem reseed_orphans_get (c : Circuit) (l : List TripleId) (t : TripleId) :
    ∀ delta : Zset TripleId, (c.reseed_orphans l delta).get t =
      if t ∈ l ∧ (t ∉ c.closure_support ∧ ¬ 0 < c.asserted_base.get t ∧ t ∈ c.rule_attr) ∧
        delta.get t = 0 then -1
      else delta.get t := by
  induction l with
  | nil => exact fun delta => (if_neg fun h => List.not_mem_nil h.1).symm
  | cons u l ih =>
    intro delta
    have hcond : (c.closure_support.contains u || decide (0 < c.asserted_base.get u) ||
        !c.rule_attr.contains u) = false ↔
        (u ∉ c.closure_support ∧ ¬ 0 < c.asserted_base.get u ∧ u ∈ c.rule_attr) := by
      rw [Bool.or_eq_false_iff, Bool.or_eq_false_iff, not_mem_iff_contains,
        decide_eq_false_iff_not, Bool.not_eq_false', ExtTreeMap.mem_iff_contains, and_assoc]
    have hcons : c.reseed_orphans (u :: l) delta = c.reseed_orphans l
        (if c.closure_support.contains u || decide (0 < c.asserted_base.get u) ||
          !c.rule_attr.contains u then delta
        else if delta.get u = 0 then delta.add u (-1) else delta) := rfl
    rw [hcons, ih]
    by_cases hu : t = u
    · subst hu
      simp only [List.mem_cons, true_or, true_and]
      by_cases hc : t ∉ c.closure_support ∧ ¬ 0 < c.asserted_base.get t ∧ t ∈ c.rule_attr
      · rw [hcond.mpr hc, if_neg Bool.false_ne_true]
        by_cases hz : delta.get t = 0
        · rw [if_pos hz, Zset.get_add, if_pos rfl, hz]
          simp [hc]
        · simp [hz]
      · have hc' : (c.closure_support.contains t || decide (0 < c.asserted_base.get t) ||
            !c.rule_attr.contains t) = true := by
          by_contra hn
          exact hc (hcond.mp (Bool.not_eq_true _ ▸ hn))
        rw [if_pos hc', if_neg fun hn => hc hn.2.1, if_neg fun hn => hc hn.1]
    · have hsame : (if c.closure_support.contains u || decide (0 < c.asserted_base.get u) ||
          !c.rule_attr.contains u then delta
          else if delta.get u = 0 then delta.add u (-1) else delta).get t = delta.get t := by
        split
        · rfl
        · split
          · rw [Zset.get_add, if_neg hu, add_zero]
          · rfl
      rw [hsame]
      simp only [List.mem_cons, hu, false_or]

/-- The rows that are asserted once the batch is merged, and those a closure plan then entails. -/
def Held (c : Circuit) (t : TripleId) : Prop :=
  0 < c.merge_pending.asserted_base.get t ∨ Entailed (predicates c.closure_plans)
    (fun t => 0 < c.merge_pending.asserted_base.get t) t

/-- The rows that the tick drops at once: present, not held any more, and owned by a rule
only where the closure owned them too. -/
def Dropped (c : Circuit) (t : TripleId) : Prop :=
  0 < c.extent.get t ∧ ¬ c.Held t ∧ (c.Owned t → t ∈ c.closure_support)

/-- The passes leave a ready circuit, and their negative seeds are the dropped rows. -/
theorem passed_ready {rules : List (List TriplePattern × TriplePattern)} {c : Circuit}
    (h : Tidy rules c) {st : ClosurePass} (hp : Passed c st) :
    Ready rules st.circuit (st.circuit.reseed_orphans st.orphans st.init_delta) ∧
    (∀ t, st.circuit.Covered t ↔ c.Held t) ∧
    ∀ t, (st.circuit.reseed_orphans st.orphans st.init_delta).get t < 0 ↔ Dropped c t := by
  classical
  have hb := hp.balanced
  have hext : st.circuit.extent = c.extent := hb.extent
  have hplans : st.circuit.plans = c.plans := (congrArg plans hb.rest :)
  have hweights : ∀ t, st.circuit.weights t = c.weights t := by
    intro t
    rw [weights, weights, show st.circuit.rule_weights = c.rule_weights from
      (congrArg rule_weights hb.rest :)]
  have hA := hb.asserted
  have hown : ∀ t, st.circuit.Owned t ↔ c.Owned t := hb.owned
  have hcov : ∀ t, st.circuit.Covered t ↔ c.Held t := by
    intro t
    rw [Covered, hA, Held]
    constructor
    · exact fun hc => hc.imp_right (hp.support t)
    · rintro (hc | hc)
      · exact Or.inl hc
      · exact hp.entailed t hc
  have hrow : ∀ t, (0 < c.merge_pending.asserted_base.get t ∨
      0 < st.circuit.derived_base.get t) ↔ st.circuit.Covered t ∨ c.Owned t := by
    intro t
    rw [Covered, hA, ← hown]
    rcases hb.rows t with ⟨h1, h2⟩ | ⟨h1, h2, h3⟩
    · have hpos : 0 < st.circuit.derived_base.get t := by omega
      tauto
    · have hpos : ¬ 0 < st.circuit.derived_base.get t := by omega
      tauto
  have hownext : ∀ t, c.Owned t → c.extent.get t = 1 := by
    intro t ho
    have hpos : 0 < c.extent.get t := (h.present t).mpr (Or.inr (by
      rcases h.rows t with ⟨h1, _⟩ | ⟨_, h2, _⟩
      · omega
      · exact absurd ho h2))
    rcases h.flat t with h1 | h1 <;> omega
  have hsync : ∀ t, (c.extent.get t + st.init_delta.get t = 0 ∨
      c.extent.get t + st.init_delta.get t = 1) ∧
      (0 < c.extent.get t + st.init_delta.get t ↔ st.circuit.Covered t ∨ c.Owned t) := by
    intro t
    exact ⟨hb.flat t, (hb.sync t).trans (hrow t)⟩
  -- The pending delta of a row, orphans included.
  have hget : ∀ t, (st.circuit.reseed_orphans st.orphans st.init_delta).get t =
      if t ∈ st.orphans ∧ (¬ st.circuit.Covered t ∧ c.Owned t) ∧ st.init_delta.get t = 0 then -1
      else st.init_delta.get t := by
    intro t
    rw [reseed_orphans_get]
    have hiff : (t ∉ st.circuit.closure_support ∧ ¬ 0 < st.circuit.asserted_base.get t ∧
        t ∈ st.circuit.rule_attr) ↔ (¬ st.circuit.Covered t ∧ c.Owned t) := by
      rw [← hown, Covered, Owned]
      tauto
    simp only [hiff]
  refine ⟨⟨?_, ?_, ?_, hb.rows, ?_, ?_, ?_⟩, hcov, ?_⟩
  · rw [hplans]
    exact h.implements
  · refine ⟨?_, fun t => ?_⟩
    · rw [hplans, hext]
      exact h.weighed.traced
    · rw [hplans, hext, hweights]
      exact h.weighed.exact t
  · rw [hext]
    exact h.flat
  · intro t ho
    rw [hown] at ho
    rw [hext, hplans]
    exact ⟨by rw [hownext t ho]; decide, h.owned t ho⟩
  · intro t ht
    rw [hext, hplans] at *
    exact h.closed t ht
  · intro t
    rw [hext, hget, hown]
    have hs := hsync t
    have hf := h.flat t
    split
    · rename_i hc
      exact Or.inr (Or.inr ⟨rfl, hownext t hc.2.1.2, hc.2.1.1⟩)
    · by_cases hz : st.init_delta.get t = 0
      · rw [hz, add_zero] at hs
        exact Or.inl ⟨hz, hs.2⟩
      · by_cases hpos : 0 < c.extent.get t + st.init_delta.get t
        · have hc := hs.2.mp hpos
          have hzero : c.extent.get t = 0 ∧ st.init_delta.get t = 1 := by omega
          refine Or.inr (Or.inl ⟨hzero.2, hzero.1, hc.resolve_right fun ho => ?_⟩)
          have := hownext t ho
          omega
        · have hc := hs.2.not.mp hpos
          exact Or.inr (Or.inr ⟨by omega, by omega, fun hn => hc (Or.inl hn)⟩)
  · intro t
    rw [hget, Dropped, ← hcov]
    have hs := hsync t
    have hf := h.flat t
    split
    · rename_i hc
      refine iff_of_true (by decide) ⟨?_, hc.2.1.1, fun _ => hp.orphans t hc.1⟩
      rw [hownext t hc.2.1.2]
      decide
    · rename_i hc
      constructor
      · intro hneg
        have hno : ¬ 0 < c.extent.get t + st.init_delta.get t := by omega
        have hn := hs.2.not.mp hno
        exact ⟨by omega, fun hn' => hn (Or.inl hn'), fun ho => absurd (Or.inr ho) hn⟩
      · rintro ⟨hpos, hncov, hor⟩
        by_cases ho : c.Owned t
        · have hz : st.init_delta.get t = 0 := by
            have h1 := hs.2.mpr (Or.inr ho)
            have h2 := hownext t ho
            omega
          refine absurd ⟨?_, ⟨hncov, ho⟩, hz⟩ hc
          exact hp.orphaned t (hor ho) ho fun hn => hncov ((hcov t).mpr (Or.inr hn))
        · have h1 := hs.2.not.mpr (not_or.mpr ⟨hncov, ho⟩)
          omega

/-! ## The tick -/

/-- The rows that the tick loses: the dropped ones, and every row that is not held and has an
instance over the rows before the tick that uses a lost one. -/
def Loses (rules : List (List TriplePattern × TriplePattern)) (c : Circuit) :
    TripleId → Prop :=
  Horn.Lost (Instance rules) (fun t => 0 < c.extent.get t) (Dropped c) fun t => ¬ c.Held t

/-- The net of the records for `t`. -/
def net (records : List DeltaRecord) (t : TripleId) : Int :=
  ((records.filter fun rec => decide (rec.triple = t)).map (·.mult)).sum

theorem net_flush_records (t : TripleId) : ∀ (time : LogicalTime) (l : List (EmitKey × Int)),
    net (flush_records time l) t = (l.map fun e => if e.1.triple = t then e.2 else 0).sum
  | _, [] => rfl
  | time, (key, mult) :: rest => by
    have ih := net_flush_records t (time + 1) rest
    rw [net] at ih ⊢
    rw [flush_records, List.map_cons, List.sum_cons, ← ih]
    by_cases ht : key.triple = t
    · simp [ht]
    · simp [ht]

/-- The flushed records of a row sum to what the tick emitted for it. -/
theorem net_flush (c : Circuit) (t : TripleId) : net c.flush_derived_feed.2 t = c.emitted t := by
  rw [flush_derived_feed, net_flush_records, emitted]
  exact c.pending_derived.sum_iter fun k m => if k.triple = t then m else 0

/-- What a tick of the unified path does to a tidy circuit. -/
structure Ticked (rules : List (List TriplePattern × TriplePattern)) (c : Circuit)
    (out : TickOutput) : Prop where
  tidy : Tidy rules out.circuit
  asserted : out.circuit.asserted_base = c.merge_pending.asserted_base
  predicates : predicates out.circuit.closure_plans = Circuit.predicates c.closure_plans
  fallback : out.circuit.recompute_fallback = c.recompute_fallback
  log : out.circuit.log = c.log.take_pending
  published : ∀ t, net out.derived t = out.circuit.derived_base.get t - c.derived_base.get t
  owned : ∀ t, out.circuit.Owned t ↔
    0 < derivations out.circuit.plans out.circuit.extent t ∧ (c.Owned t ∨ ¬ c.Held t)
  support : ∀ t, t ∈ out.circuit.closure_support ∨ 0 < out.circuit.asserted_base.get t ↔ c.Held t
  kept : ∀ t, 0 < c.extent.get t → ¬ Loses rules c t → 0 < out.circuit.extent.get t
  least : ∀ S, Closed rules S → (∀ t, c.Held t → S t) →
    (∀ t, 0 < c.extent.get t → ¬ Loses rules c t → S t) → ∀ t, 0 < out.circuit.extent.get t → S t

theorem tick_spec {rules : List (List TriplePattern × TriplePattern)} {c : Circuit}
    (h : Tidy rules c)
    (hmode : (c.recompute_fallback && c.log.records.any fun rec => decide (rec.mult < 0)) = false)
    {out : TickOutput} (ht : c.tick = some out) : Ticked rules c out := by
  have hpassed := closure_passes_spec h
  rw [tick] at ht
  dsimp only at ht hpassed
  rw [show c.merge_pending.recompute_fallback = c.recompute_fallback from rfl, hmode,
    if_neg Bool.false_ne_true, run_unified] at ht
  generalize c.merge_pending.closure_passes _ _ _ _ = st at *
  obtain ⟨hready, hcov, hneg⟩ := passed_ready h hpassed
  obtain ⟨c', hfix, rfl⟩ := Option.map_eq_some_iff.mp ht
  have hs := rule_fixpoint_spec hready hfix
  have hb := hpassed.balanced
  have hA : c'.asserted_base = c.merge_pending.asserted_base :=
    (congrArg asserted_base hs.rest :).trans hb.asserted
  have hcs : c'.closure_support = st.circuit.closure_support :=
    (congrArg closure_support hs.rest :)
  have hcp : c'.closure_plans = st.circuit.closure_plans := (congrArg closure_plans hs.rest :)
  have hder : ∀ t, derivations c'.plans c'.extent t =
      derivations st.circuit.plans c'.extent t :=
    fun t => derivations_skeleton hs.plans _ _
  have hlost : Lost rules st.circuit (st.circuit.reseed_orphans st.orphans st.init_delta) =
      Loses rules c := by
    have hext : st.circuit.extent = c.extent := hb.extent
    rw [Lost, Loses, hext, funext fun t => propext (hneg t),
      funext fun t => propext (not_congr (hcov t))]
  have hcover : ∀ t, 0 < c'.asserted_base.get t ∨ t ∈ c'.closure_support ↔ c.Held t := by
    intro t
    rw [hA, hcs, ← hcov, Covered, hb.asserted]
  have howned : ∀ t, c'.Owned t ↔
      0 < derivations c'.plans c'.extent t ∧ (c.Owned t ∨ ¬ c.Held t) := by
    intro t
    rw [hs.owned, hder, hb.owned, hcov]
    rfl
  have hpresent : ∀ t, 0 < c'.extent.get t ↔ c.Held t ∨ 0 < derivations c'.plans c'.extent t := by
    intro t
    rw [hs.present, hder, hcov]
  have hderived : ∀ t, 0 < c'.derived_base.get t ↔ c'.Owned t ∨ t ∈ c'.closure_support := by
    intro t
    rcases hs.rows t with ⟨h1, h2⟩ | ⟨h1, h2, h3⟩
    · exact iff_of_true (by omega) h2
    · exact iff_of_false (by omega) (not_or.mpr ⟨h2, h3⟩)
  have htidy : Tidy rules (flush_derived_feed c').1 := by
    refine ⟨implements_skeleton hs.plans hready.implements, ⟨hs.weighed.traced, hs.weighed.exact⟩,
      hs.flat, fun t => ?_, hs.rows, fun t ho => ((howned t).mp ho).1,
      fun t hd => (hpresent t).mpr (Or.inr hd), ?_, ?_, ?_⟩
    · change 0 < c'.extent.get t ↔ 0 < c'.asserted_base.get t ∨ 0 < c'.derived_base.get t
      rw [hpresent, hderived, howned, ← hcover]
      tauto
    · change Follows c'.closure_plans fun t => 0 < c'.asserted_base.get t
      rw [hcp, hA]
      exact hpassed.follows
    · intro t hin
      change Entailed (predicates c'.closure_plans) (fun t => 0 < c'.asserted_base.get t) t
      rw [hcp, hA, hpassed.predicates]
      exact hpassed.support t (hcs ▸ hin)
    · intro t hin
      change Entailed (predicates c'.closure_plans) (fun t => 0 < c'.asserted_base.get t) t at hin
      rw [hcp, hA, hpassed.predicates] at hin
      exact (hcover t).mpr (Or.inr hin)
  refine ⟨htidy, hA, ?_, ?_, ?_, fun t => ?_, howned, fun t => or_comm.trans (hcover t), ?_, ?_⟩
  · exact (congrArg predicates hcp).trans hpassed.predicates
  · exact (congrArg recompute_fallback hs.rest :).trans (congrArg recompute_fallback hb.rest :)
  · exact (congrArg log hs.rest :).trans (congrArg log hb.rest :)
  · have h1 := hs.emitted t
    have h2 := hb.emitted t
    have hzero : c.merge_pending.emitted t = 0 := by
      rw [emitted, merge_pending, Zset.val_new, Finsupp.sum_zero_index]
    change net c'.flush_derived_feed.2 t = c'.derived_base.get t - c.derived_base.get t
    have h3 : c.merge_pending.derived_base.get t = c.derived_base.get t := rfl
    rw [net_flush]
    omega
  · intro t hpos hno
    refine hs.kept t ?_ (hlost ▸ hno)
    rw [hb.extent]
    exact hpos
  · intro S hS hheld hsurv t hpos
    refine hs.least S hS (fun u hu => hheld u ((hcov u).mp hu)) (fun u hu hno => ?_) t hpos
    rw [hb.extent] at hu
    exact hsurv u hu (hlost ▸ hno)

end horndb.incremental.Circuit
