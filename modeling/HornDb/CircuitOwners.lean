-- What the unified path keeps of the stored weights and of the owners: no row stores
-- weights without a derivation, and the rule that owns a row has a derivation of it.
import HornDb.CircuitTick

open HornDb.Lib Std

namespace horndb.incremental

/-- A row with a derivation has one by its first rule. -/
theorem first_rule_pos {per_rule : Zset RuleId} (h : 0 < total per_rule) :
    0 < per_rule.get (first_rule per_rule) := by
  cases hf : per_rule.iter.find? fun e => decide (0 < e.2) with
  | none =>
    have hle : total per_rule ≤ 0 := by
      rw [total_eq_sum]
      refine Finset.sum_nonpos fun rid hrid => ?_
      have hmem := Zset.mem_iter.mpr ⟨Finsupp.mem_support_iff.mp hrid, rfl⟩
      have := List.find?_eq_none.mp hf _ hmem
      rw [decide_eq_true_eq] at this
      exact Int.not_lt.mp this
    omega
  | some e =>
    have hpos := List.find?_some hf
    rw [decide_eq_true_eq] at hpos
    have hget := (Zset.mem_iter.mp (List.mem_of_find?_eq_some hf)).2
    rw [first_rule, hf, Option.map_some, Option.getD_some, hget]
    exact hpos

variable {rules : List (List TriplePattern × TriplePattern)}

/-- A larger extent has no fewer derivations by any rule. -/
theorem ruleWeights_mono {plans : List (NaryPlan × RuleId)} (h : Implements plans rules)
    {ext ext' : PredExtent} (hext : ∀ x, 0 ≤ ext.get x) (hle : ∀ x, ext.get x ≤ ext'.get x)
    (t : TripleId) (rid : RuleId) : ruleWeights plans ext t rid ≤ ruleWeights plans ext' t rid := by
  induction h with
  | nil => exact Int.le_refl _
  | @cons p r plans rules hp _ ih =>
    have hhead := (NaryPlan.built_le_and_lt_iff hp hext hle t).1
    have hcons : ∀ e, ruleWeights (p :: plans) e t rid =
        Finsupp.single p.2 ((p.1.apply_full e).get t) rid + ruleWeights plans e t rid :=
      fun _ => rfl
    rw [hcons, hcons]
    apply add_le_add _ ih
    rw [Finsupp.single_apply, Finsupp.single_apply]
    split
    · exact hhead
    · exact Int.le_refl _

namespace Circuit

/-- No row stores weights that sum to zero. -/
def Stored (c : Circuit) : Prop :=
  ∀ (t : TripleId) (per_rule : Zset RuleId), c.rule_weights[t]? = some per_rule →
    total per_rule ≠ 0

/-- The rule that owns a row has a derivation of it. -/
def Attributed (c : Circuit) : Prop :=
  ∀ (t : TripleId) (rid : RuleId), c.rule_attr[t]? = some rid → 0 < (c.weights t).get rid

variable {c : Circuit}

theorem Stored.apply (h : c.Stored) (t : TripleId) (deltas : List (RuleId × Int)) :
    (c.apply_weight_deltas t deltas).1.Stored := by
  unfold apply_weight_deltas Stored
  dsimp only
  intro u w hw
  split at hw
  · rw [ExtTreeMap.getElem?_erase] at hw
    split at hw
    · cases hw
    · exact h u w hw
  · rename_i hne
    rw [ExtTreeMap.getElem?_insert] at hw
    split at hw
    · cases hw
      exact hne
    · exact h u w hw

/-! ## The insertion fixpoint -/

theorem Stored.insertion_round (h : c.Stored) (d : Zset TripleId) :
    (c.insertion_round d).circuit.Stored := by
  unfold Circuit.insertion_round
  apply List.foldlRecOn (motive := fun st : Insertion => st.circuit.Stored)
  · exact h
  · intro st hst e _
    unfold insertion_row
    dsimp only
    split
    · exact hst.apply e.1 e.2
    · exact hst.apply e.1 e.2

/-- A round gives a row its first rule, or leaves its owner as it was. -/
theorem insertion_round_attr (c : Circuit) (d : Zset TripleId) (t : TripleId) :
    let c' := (c.insertion_round d).circuit
    c'.rule_attr[t]? = c.rule_attr[t]? ∨
      (c'.rule_attr[t]? = some (first_rule (c'.weights t)) ∧ 0 < total (c'.weights t)) := by
  unfold insertion_round
  dsimp only
  rcases foldl_merged insertion_row_step (c.fixpoint_round d).2 ⟨(c.fixpoint_round d).1, .new⟩ t
    with ⟨deltas, _, hv⟩ | ⟨_, hv⟩
  · have hattr := congrArg (fun v => v.1.attr) hv
    have hw := congrArg (fun v => v.1.per_rule) hv
    unfold insertedView row at hattr hw
    dsimp only at hattr hw
    split at hattr
    · rename_i hcross
      rw [if_pos hcross] at hw
      right
      rw [hw]
      exact ⟨hattr, hcross.2.1⟩
    · exact Or.inl hattr
  · exact Or.inl (congrArg (fun v => v.1.attr) hv)

/-- One round keeps the owners, as no rule loses a derivation in it. -/
theorem Inserting.attributed {c₀ c : Circuit} {d : Zset TripleId}
    (himp : Implements c₀.plans rules) (h : Inserting rules c₀ c d) (ha : c.Attributed) :
    (c.insertion_round d).circuit.Attributed := by
  have hnext := h.round himp
  have hle : ∀ x, c.extent.get x ≤ (c.insertion_round d).circuit.extent.get x := by
    intro x
    have hext : (c.insertion_round d).circuit.extent = c.extent.add_assign d := by
      have hflat : ∀ y, 0 ≤ (c.extent.add_assign d).get y := by
        intro y
        rw [PredExtent.get_add_assign]
        have := h.flat.nonneg y
        rcases h.delta y with h1 | ⟨h1, _⟩ <;> omega
      exact (insertion_round_spec (implements_skeleton h.plans himp) h.weighed hflat).1.extent
    rw [hext, PredExtent.get_add_assign]
    rcases h.delta x with h1 | ⟨h1, _⟩ <;> omega
  intro t rid hrid
  rcases insertion_round_attr c d t with hsame | ⟨hnew, hpos⟩
  · rw [hsame] at hrid
    have hold := ha t rid hrid
    rw [← Zset.val_apply, h.weighed.exact t, ruleWeights_skeleton h.plans] at hold
    rw [← Zset.val_apply, hnext.weighed.exact t, ruleWeights_skeleton hnext.plans]
    exact Int.lt_of_lt_of_le hold (ruleWeights_mono himp h.flat.nonneg hle t rid)
  · rw [hnew] at hrid
    cases hrid
    exact first_rule_pos hpos

theorem insertion_rounds_owners {c₀ : Circuit} (himp : Implements c₀.plans rules) (fuel : Nat) :
    ∀ {c : Circuit} {d : Zset TripleId} {c' : Circuit}, Inserting rules c₀ c d →
      c.Stored → c.Attributed → insertion_rounds fuel c d = some c' →
      c'.Stored ∧ c'.Attributed := by
  induction fuel with
  | zero =>
    intro c d c' _ hs ha hran
    rw [insertion_rounds] at hran
    split at hran
    · cases hran
      exact ⟨hs, ha⟩
    · cases hran
  | succ fuel ih =>
    intro c d c' h hs ha hran
    rw [insertion_rounds] at hran
    split at hran
    · cases hran
      exact ⟨hs, ha⟩
    · exact ih (h.round himp) (hs.insertion_round d) (h.attributed himp ha) hran

/-! ## The retraction fixpoint -/

/-- What the rounds of a retraction keep of weights and owners. -/
structure Reweighed (st out : Retraction) : Prop where
  attr : out.circuit.rule_attr = st.circuit.rule_attr
  stored : st.circuit.Stored → out.circuit.Stored
  untouched : ∀ t, t ∉ out.touched → t ∉ st.touched ∧ out.circuit.weights t = st.circuit.weights t

theorem Reweighed.refl (st : Retraction) : Reweighed st st :=
  ⟨rfl, id, fun _ h => ⟨h, rfl⟩⟩

theorem Reweighed.trans {st mid out : Retraction} (h : Reweighed st mid) (h' : Reweighed mid out) :
    Reweighed st out := by
  refine ⟨h'.attr.trans h.attr, fun hs => h'.stored (h.stored hs), fun t ht => ?_⟩
  obtain ⟨hmid, hw'⟩ := h'.untouched t ht
  obtain ⟨hst, hw⟩ := h.untouched t hmid
  exact ⟨hst, hw'.trans hw⟩

/-- A step that weighs one row and marks it touched. -/
theorem reweighed_row {st out : Retraction} (e : TripleId × List (RuleId × Int))
    (hc : out.circuit = (st.circuit.apply_weight_deltas e.1 e.2).1)
    (ht : out.touched = st.touched.insert e.1) : Reweighed st out := by
  refine ⟨by rw [hc]; rfl, fun hs => by rw [hc]; exact hs.apply e.1 e.2, fun t hn => ?_⟩
  rw [ht, mem_insert_triple, not_or] at hn
  rw [hc, weights_apply, if_neg hn.1]
  exact ⟨hn.2, rfl⟩

theorem reweighed_round {step : Retraction → TripleId × List (RuleId × Int) → Retraction}
    (hstep : ∀ st e, Reweighed st (step st e)) (st : Retraction) :
    Reweighed st ((st.circuit.fixpoint_round st.next_delta).2.toList.foldl step
      { st with
        circuit := (st.circuit.fixpoint_round st.next_delta).1
        next_delta := .new }) := by
  apply List.foldlRecOn (motive := fun out => Reweighed st out)
  · exact ⟨rfl, id, fun _ h => ⟨h, rfl⟩⟩
  · exact fun out hout e _ => hout.trans (hstep out e)

theorem reweighed_overdelete_row (st : Retraction) (e : TripleId × List (RuleId × Int)) :
    Reweighed st (overdelete_row st e) := by
  apply reweighed_row e
  · unfold overdelete_row
    dsimp only
    split <;> rfl
  · unfold overdelete_row
    dsimp only
    split <;> rfl

theorem reweighed_rederive_row (st : Retraction) (e : TripleId × List (RuleId × Int)) :
    Reweighed st (rederive_row st e) := by
  apply reweighed_row e
  · unfold rederive_row
    dsimp only
    split <;> rfl
  · unfold rederive_row
    dsimp only
    split <;> rfl

theorem reweighed_overdelete_rounds (fuel : Nat) :
    ∀ {st out : Retraction}, overdelete_rounds fuel st = some out → Reweighed st out := by
  induction fuel with
  | zero =>
    intro st out hran
    rw [overdelete_rounds] at hran
    split at hran
    · cases hran
      exact .refl _
    · cases hran
  | succ fuel ih =>
    intro st out hran
    rw [overdelete_rounds] at hran
    split at hran
    · cases hran
      exact .refl _
    · exact (reweighed_round reweighed_overdelete_row st).trans (ih hran)

theorem reweighed_rederive_rounds (fuel : Nat) :
    ∀ {st out : Retraction}, rederive_rounds fuel st = some out → Reweighed st out := by
  induction fuel with
  | zero =>
    intro st out hran
    rw [rederive_rounds] at hran
    split at hran
    · cases hran
      exact .refl _
    · cases hran
  | succ fuel ih =>
    intro st out hran
    rw [rederive_rounds] at hran
    split at hran
    · cases hran
      exact .refl _
    · exact (reweighed_round reweighed_rederive_row st).trans (ih hran)

/-- The net transitions leave no owner without a derivation, and move no weight. -/
theorem transitionRow_owners (f : Circuit) (t : TripleId) (v : Row) :
    (transitionRow f t v).per_rule = v.per_rule ∧
      ((transitionRow f t v).attr = none ∨
        ((transitionRow f t v).attr = some (first_rule v.per_rule) ∧ 0 < total v.per_rule)) := by
  unfold transitionRow
  split
  · rename_i h
    split
    · exact ⟨rfl, Or.inr ⟨rfl, h.1⟩⟩
    · exact ⟨rfl, Or.inr ⟨rfl, h.1⟩⟩
  · split
    · split
      · exact ⟨rfl, Or.inl rfl⟩
      · exact ⟨rfl, Or.inl rfl⟩
    · rename_i hnone
      refine ⟨rfl, Or.inl ?_⟩
      rwa [Bool.not_eq_true, Option.isSome_eq_false_iff, Option.isNone_iff_eq_none] at hnone

theorem net_transition_weights (c : Circuit) (t : TripleId) :
    (net_transition c t).rule_weights = c.rule_weights := by
  unfold net_transition
  dsimp only
  split
  · split <;> rfl
  · split
    · split <;> rfl
    · rfl

theorem run_two_phase_fixpoint_owners {d : Zset TripleId} (hs : c.Stored) (ha : c.Attributed)
    {c' : Circuit} (hran : c.run_two_phase_fixpoint d = some c') : c'.Stored ∧ c'.Attributed := by
  unfold run_two_phase_fixpoint at hran
  dsimp only at hran
  rw [Option.bind_eq_some_iff] at hran
  obtain ⟨st₁, hr1, hran⟩ := hran
  rw [Option.map_eq_some_iff] at hran
  obtain ⟨st, hr2, rfl⟩ := hran
  have hover := reweighed_overdelete_rounds _ hr1
  have hre := reweighed_rederive_rounds _ hr2
  constructor
  · apply List.foldlRecOn (motive := fun out : Circuit => out.Stored)
    · exact hre.stored (hover.stored hs)
    · intro out hout t _
      unfold Stored
      rw [net_transition_weights]
      exact hout
  · intro t rid hrid
    rcases net_transition_step.foldl_set st.touched st.circuit t with ⟨_, hv⟩ | ⟨hnot, hv⟩
    · obtain ⟨hw, hattr⟩ := transitionRow_owners st.circuit.fixed t (st.circuit.row t)
      rw [← hv] at hw hattr
      rcases hattr with hnone | ⟨hfirst, hpos⟩
      · rw [row, hrid] at hnone
        cases hnone
      · rw [row, hrid] at hfirst
        cases hfirst
        rw [show Circuit.weights _ t = (st.circuit.row t).per_rule from hw]
        exact first_rule_pos hpos
    · obtain ⟨hmid, hw2⟩ := hre.untouched t hnot
      obtain ⟨_, hw1⟩ := hover.untouched t hmid
      have hattr := congrArg Row.attr hv
      unfold row at hattr
      dsimp only at hattr
      rw [hattr, hre.attr] at hrid
      have hsame := hover.attr
      dsimp only at hsame hrid
      rw [hsame] at hrid
      rw [show Circuit.weights _ t = st.circuit.weights t from congrArg Row.per_rule hv, hw2]
      rw [show st₁.circuit.weights t = c.weights t from hw1]
      exact ha t rid hrid

/-- Either fixpoint keeps the stored weights and the owners. -/
theorem rule_fixpoint_owners {d : Zset TripleId} (h : Ready rules c d) (hs : c.Stored)
    (ha : c.Attributed) {c' : Circuit} (hran : c.rule_fixpoint d = some c') :
    c'.Stored ∧ c'.Attributed := by
  unfold rule_fixpoint at hran
  split at hran
  · exact run_two_phase_fixpoint_owners hs ha hran
  · rename_i hnone
    refine insertion_rounds_owners h.implements _ (.start h fun t => ?_) hs ha hran
    by_contra hneg
    refine hnone (List.any_eq_true.mpr ⟨(t, d.get t), Zset.mem_iter.mpr ⟨by omega, rfl⟩, ?_⟩)
    rw [decide_eq_true_eq]
    omega

/-- A tick of the unified path keeps the stored weights, the owners and the rules. -/
theorem tick_owners (h : Tidy rules c) (hs : c.Stored) (ha : c.Attributed)
    (hmode : (c.recompute_fallback && c.log.records.any fun rec => decide (rec.mult < 0)) = false)
    {out : TickOutput} (ht : c.tick = some out) : out.circuit.Stored ∧ out.circuit.Attributed ∧
      skeleton out.circuit.plans = skeleton c.plans := by
  have hpassed := closure_passes_spec h
  rw [tick] at ht
  dsimp only at ht hpassed
  rw [show c.merge_pending.recompute_fallback = c.recompute_fallback from rfl, hmode,
    if_neg Bool.false_ne_true, run_unified] at ht
  generalize c.merge_pending.closure_passes _ _ _ _ = st at *
  have hready := (passed_ready h hpassed).1
  obtain ⟨c', hfix, rfl⟩ := Option.map_eq_some_iff.mp ht
  have hrest := hpassed.balanced.rest
  have hweights : st.circuit.rule_weights = c.rule_weights := (congrArg rule_weights hrest :)
  have hattr : st.circuit.rule_attr = c.rule_attr := (congrArg rule_attr hrest :)
  have hplans : st.circuit.plans = c.plans := (congrArg plans hrest :)
  have howners : c'.Stored ∧ c'.Attributed := by
    refine rule_fixpoint_owners hready ?_ ?_ hfix
    · unfold Stored
      rw [hweights]
      exact hs
    · unfold Attributed weights
      rw [hweights, hattr]
      exact ha
  refine ⟨howners.1, howners.2, ?_⟩
  rw [← hplans]
  exact (rule_fixpoint_spec hready hfix).plans

end Circuit

end horndb.incremental
