-- Runs of a plan over deltas: its owner feeds them one after another, each of which then enters the
-- base, or resets the kept state. Every result is the gain of the whole evaluation, or a count does
-- not fit, or a variable is behind the table.
import HornDb.PlanSums

open HornDb.Lib.Words HornDb.Lib.Words.Checked

namespace horndb.incremental.NaryPlan

/-! ## Runs of deltas -/

/-- What the owner of a plan may do: feed a delta, which then enters the base, or reset the
kept state. -/
inductive Feed where
  | delta (delta : Zset TripleId)
  | reset

def feed (st : NaryPlan × PredExtent) : Feed → NaryPlan × PredExtent
  | .delta delta => ((st.1.apply_delta_stateful st.2 delta).1, st.2.add_assign delta)
  | .reset => (st.1.reset_state, st.2)

/-- The plan with no kept state and its base, after the calls. -/
def fed (joins : List HashJoinRule) (leaf_order : List Nat) (base : Zset TripleId)
    (calls : List Feed) : NaryPlan × PredExtent :=
  calls.foldl feed (⟨joins, leaf_order, none⟩, .from_zset base)

theorem feed_traced {st : NaryPlan × PredExtent} (h : st.1.Traced st.2) (call : Feed) :
    (feed st call).1.Traced (feed st call).2 ∧ (feed st call).1.joins = st.1.joins := by
  cases call with
  | delta delta =>
    obtain ⟨htraced, hjoins, _⟩ := apply_delta_stateful_spec h delta
    exact ⟨htraced, hjoins⟩
  | reset => exact ⟨reset_state_traced st.1 st.2, rfl⟩

/-- The kept state follows the base through every run, and the joins stay. -/
theorem fed_traced (joins : List HashJoinRule) (leaf_order : List Nat) (base : Zset TripleId)
    (calls : List Feed) :
    (fed joins leaf_order base calls).1.Traced (fed joins leaf_order base calls).2 ∧
      (fed joins leaf_order base calls).1.joins = joins := by
  unfold fed
  induction calls using List.reverseRecOn with
  | nil => exact ⟨Or.inl rfl, rfl⟩
  | append_singleton calls call ih =>
    rw [List.foldl_append]
    obtain ⟨htraced, hjoins⟩ := feed_traced ih.1 call
    exact ⟨htraced, hjoins.trans ih.2⟩

/-- The base of a run is the first base and all the deltas. -/
theorem fed_base (joins : List HashJoinRule) (leaf_order : List Nat) (base : Zset TripleId)
    (calls : List Feed) :
    (fed joins leaf_order base calls).2.all.val = base.val + (calls.map fun call =>
      match call with
      | .delta delta => delta.val
      | .reset => 0).sum := by
  unfold fed
  induction calls using List.reverseRecOn with
  | nil => simp [PredExtent.all_from_zset]
  | append_singleton calls call ih =>
    rw [List.foldl_append, List.map_append, List.sum_append, ← add_assoc, ← ih]
    cases call with
    | delta delta =>
      simp only [List.foldl_cons, List.foldl_nil, feed, List.map_cons, List.map_nil,
        List.sum_cons, List.sum_nil, add_zero]
      rw [PredExtent.all_add_assign, Zset.val_add_assign]
    | reset => simp [feed]

/-! ## Over words -/

def checked_feed (st : NaryPlan × PredExtent) : Feed → Checked (NaryPlan × PredExtent)
  | .delta delta => do
    let (plan, _) ← st.1.checked_delta_stateful st.2 delta
    let base ← st.2.checked_add_assign delta
    pure (plan, base)
  | .reset => pure (st.1.reset_state, st.2)

def checked_fed (joins : List HashJoinRule) (leaf_order : List Nat) (base : Zset TripleId)
    (calls : List Feed) : Checked (NaryPlan × PredExtent) :=
  calls.foldlM checked_feed (⟨joins, leaf_order, none⟩, .from_zset base)

theorem exact_fed (joins : List HashJoinRule) (leaf_order : List Nat) (base : Zset TripleId)
    (calls : List Feed) :
    (checked_fed joins leaf_order base calls).exact = some (fed joins leaf_order base calls) := by
  refine exact_foldlM (fun st call => ?_) calls _
  cases call with
  | delta delta => simp [checked_feed, feed]
  | reset => rfl

theorem length_intermediates (base : PredExtent) (rules : List HashJoinRule) :
    ∀ prev, (intermediates base prev rules).length = rules.length := by
  induction rules with
  | nil => exact fun _ => rfl
  | cons rule rules ih => exact fun prev => congrArg Nat.succ (ih _)

/-- A plan whose kept state follows the base has a place in it for each of its joins. -/
theorem delta_stateful_in_table {plan : NaryPlan} {base : PredExtent} (h : plan.Traced base)
    (hsmall : ∀ r ∈ plan.joins, r.Small) (delta : Zset TripleId) :
    (plan.checked_delta_stateful base delta).Avoids .index := by
  unfold checked_delta_stateful
  cases hjoins : plan.joins with
  | nil => exact avoids_pure _
  | cons first rest =>
    rw [hjoins, List.forall_mem_cons] at hsmall
    have hstate : (plan.checked_state base first rest).Avoids .index := by
      unfold checked_state
      cases plan.state with
      | some state => exact avoids_pure _
      | none =>
        dsimp only
        split
        · exact avoids_pure _
        · refine (HashJoinRule.join_in_table hsmall.1 _ _).bind fun _ _ => ?_
          exact intermediates_in_table base hsmall.2 _
    refine hstate.bind fun state hrun => ?_
    refine (HashJoinRule.delta_in_table hsmall.1 _ _ _ _).bind fun _ _ => ?_
    refine (delta_levels_in_table base _ hsmall.2 state _ ?_).bind fun _ _ => avoids_pure _
    cases (exact_state plan base first rest).symm.trans (Checked.sound _ state hrun)
    rcases h with h | ⟨first', rest', hjoins', h⟩
    · rw [h, Option.getD_none, length_intermediates]
    · rw [hjoins] at hjoins'
      cases hjoins'
      rw [h, Option.getD_some, length_intermediates]

/-- How a call over words ends: with its exact result, or for a count that does not fit, or, where
some join has a variable of 8 or above, for that. -/
def Ends {α : Type} (joins : List HashJoinRule) (call : Checked α) (gain : α → Prop) : Prop :=
  (∃ a, call.run = .ok a ∧ gain a) ∨ call.run = .error .overflow ∨
    (call.run = .error .index ∧ ∃ r ∈ joins, ¬ r.Small)

theorem ends_of_exact {α : Type} {joins : List HashJoinRule} {call : Checked α} {a : α}
    {gain : α → Prop} (hexact : call.exact = some a) (hgain : gain a)
    (htable : (∀ r ∈ joins, r.Small) → call.Avoids .index) : Ends joins call gain := by
  by_cases hend : call.Avoids .index
  · rcases hend.returns_or hexact with hrun | hrun
    · exact Or.inl ⟨a, hrun, hgain⟩
    · exact Or.inr (Or.inl hrun)
  · refine Or.inr (Or.inr ⟨not_not.mp hend, ?_⟩)
    by_contra hno
    exact hend (htable fun r hr => not_not.mp fun hwide => hno ⟨r, hr, hwide⟩)

/-- At every point of every run, the stateful delta is the gain of the whole evaluation over the
base so far, and so is the stateless delta, unless a count does not fit into its word or a
variable of a join is behind the table. The base so far is the first base and all the deltas. -/
theorem stateful_delta_exact (joins : List HashJoinRule) (leaf_order : List Nat)
    (base : Zset TripleId) (calls : List Feed) (delta : Zset TripleId) (plan : NaryPlan)
    (ext : PredExtent) (hfed : (checked_fed joins leaf_order base calls).run = .ok (plan, ext)) :
    let gain : TripleId →₀ ℤ :=
      (apply_full ⟨joins, leaf_order, none⟩ (ext.add_assign delta)).val -
        (apply_full ⟨joins, leaf_order, none⟩ ext).val
    Ends joins (plan.checked_delta_stateful ext delta) (fun out => out.2.val = gain) ∧
      Ends joins (checked_delta ⟨joins, leaf_order, none⟩ ext delta) (fun out => out.val = gain) ∧
      ext.all.val = base.val + (calls.map fun call =>
        match call with
        | .delta delta => delta.val
        | .reset => 0).sum := by
  dsimp only
  have hstate := Option.some.inj
    ((Checked.sound _ _ hfed).symm.trans (exact_fed joins leaf_order base calls))
  obtain ⟨htraced, hjoins⟩ := fed_traced joins leaf_order base calls
  have hbase := fed_base joins leaf_order base calls
  rw [← hstate] at htraced hjoins hbase
  obtain ⟨_, _, hgain⟩ := apply_delta_stateful_spec htraced delta
  have hsame : ∀ ext, plan.apply_full ext = apply_full ⟨joins, leaf_order, none⟩ ext := by
    intro ext
    unfold apply_full
    rw [hjoins]
  rw [hsame, hsame] at hgain
  refine ⟨?_, ?_, hbase⟩
  · refine ends_of_exact (exact_delta_stateful plan ext delta) hgain fun hsmall => ?_
    exact delta_stateful_in_table htraced (hjoins ▸ hsmall) delta
  · refine ends_of_exact (exact_delta _ ext delta) ?_ fun hsmall => ?_
    · rw [apply_delta_spec]
    · refine delta_in_table ?_ ext delta
      exact hsmall

/-- The one join of the path rule. -/
def pathJoin : HashJoinRule where
  id := 0
  left := ⟨.Var 0, .Bound 1, .Var 1⟩
  right := ⟨.Var 1, .Bound 1, .Var 2⟩
  head := pathHead
  head_bound := by decide
  connected := by decide

/-- Two edges, one of them of a negative count, with a reset in between. -/
def pathCalls : List Feed :=
  [.delta (Zset.new.add ⟨1, 1, 2⟩ 3), .reset, .delta (Zset.new.add ⟨2, 1, 1⟩ (-1))]

theorem path_call_exact : ∃ plan ext,
    (checked_fed [pathJoin] [0, 1] .new pathCalls).run = .ok (plan, ext) ∧
      ∃ out, (plan.checked_delta_stateful ext (Zset.new.add ⟨1, 1, 2⟩ 1)).run = .ok out ∧
        out.2.val = (apply_full ⟨[pathJoin], [0, 1], none⟩
            (ext.add_assign (Zset.new.add ⟨1, 1, 2⟩ 1))).val -
          (apply_full ⟨[pathJoin], [0, 1], none⟩ ext).val := by
  refine ⟨_, _, rfl, _, rfl, ?_⟩
  obtain ⟨⟨_, hrun, hgain⟩ | hno | ⟨hno, _⟩, _⟩ := stateful_delta_exact [pathJoin] [0, 1] .new
    pathCalls (Zset.new.add ⟨1, 1, 2⟩ 1) _ _ rfl
  · cases hrun
    exact hgain
  · cases hno
  · cases hno

/-- A join over `?8`. -/
def wideJoin : HashJoinRule where
  id := 0
  left := ⟨.Var 8, .Bound 1, .Var 0⟩
  right := ⟨.Var 0, .Bound 1, .Var 1⟩
  head := ⟨.Var 0, .Bound 2, .Var 1⟩
  head_bound := by decide
  connected := by decide

/-- The first call with a row of the wide join gives no result. -/
theorem wide_call_panics :
    (checked_fed [wideJoin] [0, 1] .new []).run = .ok (⟨[wideJoin], [0, 1], none⟩, .new) ∧
      (checked_delta_stateful ⟨[wideJoin], [0, 1], none⟩ .new (Zset.new.add ⟨1, 1, 2⟩ 1)).run =
        .error .index :=
  ⟨rfl, rfl⟩

end horndb.incremental.NaryPlan
