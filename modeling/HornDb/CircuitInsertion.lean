-- The insertion fixpoint: each round keeps the extent with its pending delta equal to
-- what the bases have, and adds only rows that an instance gives.
import HornDb.CircuitWeights
import HornDb.Lib.Horn

open HornDb.Lib Std

namespace horndb.incremental

/-- What a fold over the rows of a round leaves at `t`: the step of `t`, if it has one. -/
theorem foldl_merged {σ ρ φ : Type*} {step : σ → TripleId × List (RuleId × Int) → σ}
    {frame : σ → φ} {view : σ → TripleId → ρ} {upd : φ → TripleId × List (RuleId × Int) → ρ → ρ}
    (h : RowFold.RowStep step Prod.fst frame view upd) (merged : Circuit.Merged) (s : σ)
    (t : TripleId) :
    (∃ deltas, merged.getD t [] = deltas ∧
      view (merged.toList.foldl step s) t = upd (frame s) (t, deltas) (view s t)) ∨
    (merged.getD t [] = [] ∧ view (merged.toList.foldl step s) t = view s t) := by
  rw [ExtTreeMap.getD_eq_getD_getElem?]
  rcases h.foldl_map merged s t with ⟨deltas, hd, hv⟩ | ⟨hd, hv⟩
  · exact Or.inl ⟨deltas, by rw [hd, Option.getD_some], hv⟩
  · exact Or.inr ⟨by rw [hd, Option.getD_none], hv⟩

namespace Circuit

/-- Every row stands in the extent once or not at all. -/
def Flat (ext : PredExtent) : Prop := ∀ t, ext.get t = 0 ∨ ext.get t = 1

theorem Flat.nonneg {ext : PredExtent} (h : Flat ext) (t : TripleId) : 0 ≤ ext.get t := by
  rcases h t with h | h <;> omega

/-- Covered by the asserted base or by the closure. -/
def Covered (c : Circuit) (t : TripleId) : Prop :=
  0 < c.asserted_base.get t ∨ t ∈ c.closure_support

/-- The rules own the row. -/
def Owned (c : Circuit) (t : TripleId) : Prop := t ∈ c.rule_attr

theorem row_owned {c c' : Circuit} {t : TripleId} (h : c'.rule_attr[t]? = c.rule_attr[t]?) :
    c'.Owned t ↔ c.Owned t := by
  rw [Owned, Owned, ExtTreeMap.mem_iff_isSome_getElem?, h, ExtTreeMap.mem_iff_isSome_getElem?]

/-- The derived base holds, once, what the rules or the closure own. -/
def OwnedRows (c : Circuit) : Prop :=
  ∀ t, (c.derived_base.get t = 1 ∧ (c.Owned t ∨ t ∈ c.closure_support)) ∨
    (c.derived_base.get t = 0 ∧ ¬ c.Owned t ∧ t ∉ c.closure_support)

/-! ## One row of an insertion round -/

/-- The row and its pending presence after its step in an insertion round. -/
noncomputable def insertedView (f : Circuit) (e : TripleId × List (RuleId × Int))
    (v : Row × Int) : Row × Int :=
  let w := weighed v.1.per_rule e.2
  if total v.1.per_rule ≤ 0 ∧ 0 < total w ∧ f.asserted_base.get e.1 ≤ 0 ∧ v.1.derived = 0 then
    (⟨v.1.derived + 1, some (first_rule w), w, v.1.emitted + 1⟩,
      if 0 < f.extent.get e.1 + v.2 then v.2 else v.2 + 1)
  else ({ v.1 with per_rule := w }, v.2)

variable {c : Circuit}

theorem note_present {t : TripleId} (h : c.base_presence t = true) (delta : Zset TripleId)
    (u : TripleId) : (c.note_presence_change t delta).get u =
      if u = t then (if 0 < c.extent.get t + delta.get t then delta.get t else delta.get t + 1)
      else delta.get u := by
  unfold note_presence_change
  by_cases hp : 0 < c.extent.get t + delta.get t
  · by_cases hu : u = t
    · subst hu
      simp [h, hp]
    · simp [h, hp, hu]
  · by_cases hu : u = t
    · subst hu
      simp [h, hp, Zset.get_add]
    · simp [h, hp, hu, Zset.get_add]

theorem insertion_row_step :
    RowFold.RowStep insertion_row Prod.fst (fun st => st.circuit.fixed)
      (fun st t => (st.circuit.row t, st.next_delta.get t)) insertedView where
  kept := by
    intro st e
    unfold insertion_row
    dsimp only
    split
    · rfl
    · rfl
  other := by
    intro st e k hk
    unfold insertion_row
    dsimp only
    have hrow := row_apply st.circuit e.1 k e.2
    rw [if_neg hk] at hrow
    split
    · rw [row_materialize, if_neg hk, hrow, note_present, if_neg hk]
      simp [base_presence, materialize_rule_row, emit_derived, Zset.get_add, *]
    · rw [hrow]
  self := by
    intro st e
    have hrow := row_apply st.circuit e.1 e.1 e.2
    have htot := totals_apply st.circuit e.1 e.2
    rw [if_pos rfl] at hrow
    unfold insertion_row insertedView
    generalize hc : st.circuit.apply_weight_deltas e.1 e.2 = out at *
    obtain ⟨c, old_total, new_total⟩ := out
    cases htot
    dsimp only at *
    have hD : c.derived_base.get e.1 = st.circuit.derived_base.get e.1 :=
      congrArg Row.derived hrow
    have hW : c.weights e.1 = weighed (st.circuit.weights e.1) e.2 := congrArg Row.per_rule hrow
    have hfix : c.fixed = st.circuit.fixed := by
      rw [← fixed_apply st.circuit e.1 e.2, hc]
    have hA := fixed_asserted hfix
    have hE := fixed_extent hfix
    rw [hA, hD]
    have hrow' : st.circuit.row e.1 = ⟨st.circuit.derived_base.get e.1,
      st.circuit.rule_attr[e.1]?, st.circuit.weights e.1, st.circuit.emitted e.1⟩ := rfl
    rw [hrow']
    dsimp only
    have hA' : st.circuit.fixed.asserted_base = st.circuit.asserted_base := rfl
    have hE' : st.circuit.fixed.extent = st.circuit.extent := rfl
    rw [hA', hE']
    split
    · rename_i hcross
      have hpres : (c.materialize_rule_row e.1 (c.first_attr_rule e.1)).base_presence e.1
          = true := by
        simp [base_presence, materialize_rule_row, emit_derived, Zset.get_add, hD, hcross]
      have hX : c.emitted e.1 = st.circuit.emitted e.1 := congrArg Row.emitted hrow
      have hE'' : (c.materialize_rule_row e.1 (c.first_attr_rule e.1)).extent
          = st.circuit.extent := hE
      rw [note_present hpres, if_pos rfl, row_materialize, if_pos rfl, hE'', first_attr_rule, hW,
        hD, hX]
    · rw [hrow]
      rfl

/-! ## One round -/

/-- What an insertion round does to the row `t` when its count moves from `old` to `new`. -/
structure RowInserted (c : Circuit) (old new : Int) (out : Insertion) (t : TripleId) : Prop where
  crossed : old ≤ 0 ∧ 0 < new ∧ c.asserted_base.get t ≤ 0 ∧ c.derived_base.get t = 0 →
    out.circuit.derived_base.get t = 1 ∧ out.circuit.Owned t ∧
      out.circuit.emitted t = c.emitted t + 1 ∧
      out.next_delta.get t = if 0 < out.circuit.extent.get t then 0 else 1
  stayed : ¬ (old ≤ 0 ∧ 0 < new ∧ c.asserted_base.get t ≤ 0 ∧ c.derived_base.get t = 0) →
    out.circuit.derived_base.get t = c.derived_base.get t ∧
      (out.circuit.Owned t ↔ c.Owned t) ∧ out.circuit.emitted t = c.emitted t ∧
      out.next_delta.get t = 0

/-- What every round leaves beside the rows: the delta is in the extent, the plans and the
weights have followed it, and all else is as before. -/
structure RoundDone (c : Circuit) (round_delta : Zset TripleId) (c' : Circuit) : Prop where
  rest : c'.fixed = { c.fixed with plans := c'.plans, extent := c'.extent }
  extent : c'.extent = c.extent.add_assign round_delta
  plans : skeleton c'.plans = skeleton c.plans
  weighed : c'.Weighed

variable {rules : List (List TriplePattern × TriplePattern)}

theorem RoundRun.done {round_delta : Zset TripleId} {out : Circuit × Merged}
    (h : RoundRun c round_delta out) (himp : Implements c.plans rules)
    (hext : ∀ x, 0 ≤ (c.extent.add_assign round_delta).get x) {c' : Circuit}
    (hfixed : c'.fixed = out.1.fixed)
    (hw : ∀ t,
      (∃ deltas, out.2.getD t [] = deltas ∧ c'.weights t = weighed (out.1.weights t) deltas) ∨
        (out.2.getD t [] = [] ∧ c'.weights t = out.1.weights t)) :
    RoundDone c round_delta c' := by
  have hplans : c'.plans = out.1.plans := fixed_plans hfixed
  have hextent : c'.extent = out.1.extent := fixed_extent hfixed
  refine ⟨?_, by rw [hextent, h.extent], by rw [hplans, h.plans], ?_, ?_⟩
  · rw [hfixed, hplans, hextent, h.rest]
    rfl
  · intro p hp
    rw [hplans] at hp
    rw [hextent]
    exact h.traced p hp
  · intro t
    have hold : out.1.weights t = c.weights t := by
      rw [h.rest]
      rfl
    have hg := h.gained t
    have hskel : ruleWeights c'.plans c'.extent t = ruleWeights c.plans out.1.extent t := by
      rw [hplans, hextent, ruleWeights_skeleton h.plans]
    rw [hskel]
    rcases hw t with ⟨deltas, hd, hwt⟩ | ⟨hd, hwt⟩
    · rw [hwt, hold]
      rw [hd] at hg
      exact weighed_val himp (by rw [h.extent]; exact hext) hg
    · rw [hwt, hold]
      rw [hd, show deltaSum [] = 0 from rfl, add_zero] at hg
      exact hg

variable {d : Zset TripleId}

theorem insertion_round_spec (himp : Implements c.plans rules) (hw : c.Weighed)
    (hext : ∀ x, 0 ≤ (c.extent.add_assign d).get x) : RoundDone c d (c.insertion_round d).circuit ∧
      ∀ t, RowInserted c (derivations c.plans c.extent t)
        (derivations c.plans (c.extent.add_assign d) t) (c.insertion_round d) t := by
  have hrun := fixpoint_round_spec hw d
  unfold insertion_round
  generalize c.fixpoint_round d = out at *
  obtain ⟨c₁, merged⟩ := out
  dsimp only at *
  have hview := foldl_merged insertion_row_step merged ⟨c₁, .new⟩
  have hfixed := insertion_row_step.foldl_frame merged.toList ⟨c₁, .new⟩
  generalize merged.toList.foldl insertion_row ⟨c₁, .new⟩ = st at *
  have hdone : RoundDone c d st.circuit := by
    refine hrun.done himp hext hfixed fun t => ?_
    rcases hview t with ⟨deltas, hd, hv⟩ | ⟨hd, hv⟩
    · refine Or.inl ⟨deltas, hd, ?_⟩
      have := congrArg (fun v => v.1.per_rule) hv
      refine Eq.trans this ?_
      unfold insertedView
      dsimp only
      split
      · rfl
      · rfl
    · exact Or.inr ⟨hd, congrArg (fun v => v.1.per_rule) hv⟩
  refine ⟨hdone, fun t => ?_⟩
  have hrow : c₁.row t = c.row t := by
    have := hrun.rest
    dsimp only at this
    rw [this]
    rfl
  have hA : c₁.asserted_base = c.asserted_base := by
    have := hrun.rest
    dsimp only at this
    rw [this]
  have hold : total (c.weights t) = derivations c.plans c.extent t := hw.total t
  have hnew : total (st.circuit.weights t) =
      derivations c.plans (c.extent.add_assign d) t := by
    rw [hdone.weighed.total, derivations_skeleton hdone.plans, hdone.extent]
  rw [← hold, ← hnew]
  have hrow' : c.row t = ⟨c.derived_base.get t, c.rule_attr[t]?, c.weights t, c.emitted t⟩ := rfl
  rcases hview t with ⟨deltas, hd, hv⟩ | ⟨hd, hv⟩
  · unfold insertedView at hv
    dsimp only at hv
    rw [hrow, hrow', Zset.get_new] at hv
    dsimp only at hv
    have hA' : c₁.fixed.asserted_base.get t = c.asserted_base.get t := congrArg (Zset.get · t) hA
    have hE' : c₁.fixed.extent = st.circuit.extent := (fixed_extent hfixed).symm
    rw [hA', hE', add_zero] at hv
    have hwt : st.circuit.weights t = weighed (c.weights t) deltas := by
      refine (congrArg (fun v => v.1.per_rule) hv).trans ?_
      split
      · rfl
      · rfl
    rw [hwt]
    constructor
    · intro hcross
      rw [if_pos hcross] at hv
      refine ⟨?_, ?_, congrArg (fun v => v.1.emitted) hv, ?_⟩
      · rw [show st.circuit.derived_base.get t = c.derived_base.get t + 1 from
          congrArg (fun v => v.1.derived) hv, hcross.2.2.2]
        rfl
      · have hattr : st.circuit.rule_attr[t]? = some _ := congrArg (fun v => v.1.attr) hv
        rw [Owned, ExtTreeMap.mem_iff_isSome_getElem?, hattr]
        rfl
      · have hn := congrArg Prod.snd hv
        dsimp only at hn
        rw [hn]
        split
        · rfl
        · rfl
    · intro hstay
      rw [if_neg hstay] at hv
      exact ⟨congrArg (fun v => v.1.derived) hv, row_owned (congrArg (fun v => v.1.attr) hv),
        congrArg (fun v => v.1.emitted) hv, congrArg Prod.snd hv⟩
  · rw [hrow, hrow', Zset.get_new] at hv
    have hwt : st.circuit.weights t = c.weights t := congrArg (fun v => v.1.per_rule) hv
    rw [hwt]
    refine ⟨fun hcross => absurd hcross.2.1 (Int.not_lt.mpr hcross.1), fun _ => ?_⟩
    exact ⟨congrArg (fun v => v.1.derived) hv, row_owned (congrArg (fun v => v.1.attr) hv),
      congrArg (fun v => v.1.emitted) hv, congrArg Prod.snd hv⟩

/-! ## The run of rounds -/

/-- A circuit as a rule fixpoint finds it, with the presence changes `d` that the tick
has so far. -/
structure Ready (rules : List (List TriplePattern × TriplePattern)) (c : Circuit)
    (d : Zset TripleId) : Prop where
  implements : Implements c.plans rules
  weighed : c.Weighed
  flat : Flat c.extent
  rows : c.OwnedRows
  owned : ∀ t, c.Owned t → 0 < c.extent.get t ∧ 0 < derivations c.plans c.extent t
  closed : ∀ t, 0 < derivations c.plans c.extent t → 0 < c.extent.get t
  delta : ∀ t, (d.get t = 0 ∧ (0 < c.extent.get t ↔ c.Covered t ∨ c.Owned t)) ∨
    (d.get t = 1 ∧ c.extent.get t = 0 ∧ c.Covered t) ∨
    (d.get t = -1 ∧ c.extent.get t = 1 ∧ ¬ c.Covered t)

/-- The rows that the tick loses: the dropped ones, and every uncovered row with an
instance that uses a lost one. -/
def Lost (rules : List (List TriplePattern × TriplePattern)) (c : Circuit) (d : Zset TripleId) :
    TripleId → Prop :=
  Horn.Lost (Instance rules) (fun t => 0 < c.extent.get t) (fun t => d.get t < 0)
    fun t => ¬ c.Covered t

/-- A set of rows that no instance leads out of. -/
def Closed (rules : List (List TriplePattern × TriplePattern)) (S : TripleId → Prop) : Prop :=
  ∀ ps t, Instance rules ps t → (∀ p ∈ ps, S p) → S t

/-- What a rule fixpoint settles on, from a ready circuit `c`. -/
structure Settled (rules : List (List TriplePattern × TriplePattern)) (c : Circuit)
    (d : Zset TripleId) (c' : Circuit) : Prop where
  rest : c'.fixed = { c.fixed with plans := c'.plans, extent := c'.extent }
  plans : skeleton c'.plans = skeleton c.plans
  weighed : c'.Weighed
  flat : Flat c'.extent
  rows : c'.OwnedRows
  present : ∀ t, 0 < c'.extent.get t ↔ c.Covered t ∨ 0 < derivations c.plans c'.extent t
  owned : ∀ t, c'.Owned t ↔
    0 < derivations c.plans c'.extent t ∧ (c.Owned t ∨ ¬ c.Covered t)
  emitted : ∀ t, c'.emitted t - c.emitted t = c'.derived_base.get t - c.derived_base.get t
  kept : ∀ t, 0 < c.extent.get t → ¬ Lost rules c d t → 0 < c'.extent.get t
  least : ∀ S, Closed rules S → (∀ t, c.Covered t → S t) →
    (∀ t, 0 < c.extent.get t → ¬ Lost rules c d t → S t) → ∀ t, 0 < c'.extent.get t → S t

/-- The invariant of the insertion rounds from `c₀`. -/
structure Inserting (rules : List (List TriplePattern × TriplePattern)) (c₀ c : Circuit)
    (d : Zset TripleId) : Prop where
  rest : c.fixed = { c₀.fixed with plans := c.plans, extent := c.extent }
  plans : skeleton c.plans = skeleton c₀.plans
  weighed : c.Weighed
  flat : Flat c.extent
  delta : ∀ t, d.get t = 0 ∨ (d.get t = 1 ∧ c.extent.get t = 0)
  rows : c.OwnedRows
  present : ∀ t, 0 < c.extent.get t + d.get t ↔ c₀.Covered t ∨ c.Owned t
  closed : ∀ t, 0 < derivations c₀.plans c.extent t → 0 < c.extent.get t + d.get t
  owned : ∀ t, c.Owned t → 0 < derivations c₀.plans c.extent t
  kept : ∀ t, c₀.Owned t → c.Owned t
  fresh : ∀ t, c.Owned t → c₀.Owned t ∨ ¬ c₀.Covered t
  emitted : ∀ t, c.emitted t - c₀.emitted t = c.derived_base.get t - c₀.derived_base.get t
  least : ∀ S, Closed rules S → (∀ t, c₀.Covered t → S t) →
    (∀ t, 0 < c₀.extent.get t → S t) → ∀ t, 0 < c.extent.get t + d.get t → S t

theorem Inserting.start (h : Ready rules c d) (hpos : ∀ t, 0 ≤ d.get t) :
    Inserting rules c c d where
  rest := rfl
  plans := rfl
  weighed := h.weighed
  flat := h.flat
  delta t := by
    rcases h.delta t with ⟨h1, _⟩ | ⟨h1, h2, _⟩ | ⟨h1, _⟩
    · exact Or.inl h1
    · exact Or.inr ⟨h1, h2⟩
    · have := hpos t
      omega
  rows := h.rows
  present t := by
    rcases h.delta t with ⟨h1, h2⟩ | ⟨h1, h2, h3⟩ | ⟨h1, _⟩
    · rw [h1, add_zero, h2]
    · rw [h1, h2]
      exact ⟨fun _ => Or.inl h3, fun _ => by omega⟩
    · have := hpos t
      omega
  closed t ht := by
    have h1 := h.closed t ht
    have h2 := hpos t
    omega
  owned t ht := (h.owned t ht).2
  kept _ := id
  fresh _ ht := Or.inl ht
  emitted t := by omega
  least S _ hcov hext t ht := by
    rcases h.delta t with ⟨h1, _⟩ | ⟨_, _, h3⟩ | ⟨h1, _⟩
    · exact hext t (by omega)
    · exact hcov t h3
    · have := hpos t
      omega

theorem rest_covered {c c' : Circuit}
    (h : c'.fixed = { c.fixed with plans := c'.plans, extent := c'.extent }) (t : TripleId) :
    c'.Covered t ↔ c.Covered t := by
  have hA : c'.asserted_base = c.asserted_base := (congrArg asserted_base h :)
  have hS : c'.closure_support = c.closure_support := (congrArg closure_support h :)
  rw [Covered, Covered, hA, hS]

/-- One round keeps the invariant. -/
theorem Inserting.round {c₀ c : Circuit} (himp : Implements c₀.plans rules)
    (h : Inserting rules c₀ c d) :
    Inserting rules c₀ (c.insertion_round d).circuit (c.insertion_round d).next_delta := by
  have himp' : Implements c.plans rules := implements_skeleton h.plans himp
  have hnext : ∀ t, (c.extent.add_assign d).get t = c.extent.get t + d.get t :=
    fun t => PredExtent.get_add_assign _ _ _
  have hflat' : Flat (c.extent.add_assign d) := by
    intro t
    rw [hnext]
    rcases h.delta t with h1 | ⟨h1, h2⟩
    · rw [h1, add_zero]
      exact h.flat t
    · omega
  obtain ⟨hdone, hrow⟩ := insertion_round_spec himp' h.weighed (d := d) hflat'.nonneg
  generalize c.insertion_round d = out at *
  have hcount : ∀ ext t, derivations c.plans ext t = derivations c₀.plans ext t :=
    derivations_skeleton h.plans
  have hgrow : ∀ t, derivations c₀.plans c.extent t ≤
      derivations c₀.plans (c.extent.add_assign d) t := by
    refine fun t => (derivations_lt_iff himp h.flat.nonneg (fun x => ?_) t).1
    rw [hnext]
    rcases h.delta x with h1 | ⟨h1, _⟩ <;> omega
  have hcov : ∀ t, c.Covered t ↔ c₀.Covered t := rest_covered h.rest
  have hS : out.circuit.closure_support = c.closure_support :=
    (congrArg closure_support hdone.rest :)
  -- A row that crosses zero with no cover is new; every other row keeps its owner.
  have hcase : ∀ t,
      (0 < derivations c₀.plans (c.extent.add_assign d) t ∧ ¬ c₀.Covered t ∧ ¬ c.Owned t ∧
        (c.extent.add_assign d).get t = 0 ∧ c.derived_base.get t = 0 ∧
        out.circuit.derived_base.get t = 1 ∧ out.circuit.Owned t ∧
        out.circuit.emitted t = c.emitted t + 1 ∧ out.next_delta.get t = 1) ∨
      ((0 < derivations c₀.plans (c.extent.add_assign d) t → 0 < (c.extent.add_assign d).get t) ∧
        out.circuit.derived_base.get t = c.derived_base.get t ∧
        (out.circuit.Owned t ↔ c.Owned t) ∧ out.circuit.emitted t = c.emitted t ∧
        out.next_delta.get t = 0) := by
    intro t
    have hr := hrow t
    rw [hcount, hcount] at hr
    have hpres := h.present t
    rw [← hnext] at hpres
    by_cases hcross : derivations c₀.plans c.extent t ≤ 0 ∧
        0 < derivations c₀.plans (c.extent.add_assign d) t ∧ c.asserted_base.get t ≤ 0 ∧
        c.derived_base.get t = 0
    · obtain ⟨hD, hO, hX, hN⟩ := hr.crossed hcross
      rcases h.rows t with ⟨hone, _⟩ | ⟨hzero, hno, hns⟩
      · omega
      have hncov : ¬ c₀.Covered t := by
        rw [← hcov]
        rintro (hA | hs)
        · omega
        · exact hns hs
      have habs : ¬ 0 < (c.extent.add_assign d).get t := by
        rw [hpres]
        rintro (hc | ho)
        · exact hncov hc
        · exact hno ho
      have hz : (c.extent.add_assign d).get t = 0 := by
        rcases hflat' t with hz | hz <;> omega
      rw [hdone.extent, if_neg habs] at hN
      exact Or.inl ⟨hcross.2.1, hncov, hno, hz, hzero, hD, hO, hX, hN⟩
    · refine Or.inr ⟨fun hnew => ?_, hr.stayed hcross⟩
      by_cases hold : 0 < derivations c₀.plans c.extent t
      · rw [hnext]
        exact h.closed t hold
      · rw [hpres]
        rcases h.rows t with ⟨_, ho | hs⟩ | ⟨hzero, _, _⟩
        · exact Or.inr ho
        · exact Or.inl ((hcov t).mp (Or.inr hs))
        · refine Or.inl ((hcov t).mp (Or.inl ?_))
          by_contra hA
          exact hcross ⟨by omega, hnew, by omega, hzero⟩
  constructor
  · rw [hdone.rest, h.rest]
  · exact hdone.plans.trans h.plans
  · exact hdone.weighed
  · rw [hdone.extent]
    exact hflat'
  · intro t
    rw [hdone.extent]
    rcases hcase t with ⟨_, _, _, hz, _, _, _, _, hN⟩ | ⟨_, _, _, _, hN⟩
    · exact Or.inr ⟨hN, hz⟩
    · exact Or.inl hN
  · intro t
    rw [hS]
    rcases hcase t with ⟨_, _, _, _, _, hD, hO, _⟩ | ⟨_, hD, hO, _⟩
    · exact Or.inl ⟨hD, Or.inl hO⟩
    · rw [hD, hO]
      exact h.rows t
  · intro t
    rw [hdone.extent]
    rcases hcase t with ⟨_, _, _, hz, _, _, hO, _, hN⟩ | ⟨_, _, hO, _, hN⟩
    · rw [hz, hN]
      exact ⟨fun _ => Or.inr hO, fun _ => by omega⟩
    · rw [hN, add_zero, hnext, hO]
      exact h.present t
  · intro t ht
    rw [hdone.extent] at ht ⊢
    rcases hcase t with ⟨_, _, _, hz, _, _, _, _, hN⟩ | ⟨hp, _, _, _, hN⟩
    · omega
    · rw [hN, add_zero]
      exact hp ht
  · intro t ht
    rw [hdone.extent]
    rcases hcase t with ⟨hnew, _⟩ | ⟨_, _, hO, _⟩
    · exact hnew
    · exact Int.lt_of_lt_of_le (h.owned t (hO.mp ht)) (hgrow t)
  · intro t ht
    rcases hcase t with ⟨_, _, _, _, _, _, hO, _⟩ | ⟨_, _, hO, _⟩
    · exact hO
    · exact hO.mpr (h.kept t ht)
  · intro t ht
    rcases hcase t with ⟨_, hncov, _⟩ | ⟨_, _, hO, _⟩
    · exact Or.inr hncov
    · exact h.fresh t (hO.mp ht)
  · intro t
    have hE := h.emitted t
    rcases hcase t with ⟨_, _, _, _, hz, hD, _, hX, _⟩ | ⟨_, hD, _, hX, _⟩ <;> omega
  · intro S hS hcov' hext t ht
    have hprev := h.least S hS hcov' hext
    rw [hdone.extent] at ht
    rcases hcase t with ⟨hnew, _⟩ | ⟨_, _, _, _, hN⟩
    · obtain ⟨ps, hinst, hps⟩ := (derivations_pos_iff himp hflat'.nonneg t).2.mp hnew
      refine hS ps t hinst fun p hp => hprev p ?_
      rw [← hnext]
      exact hps p hp
    · rw [hN, add_zero, hnext] at ht
      exact hprev t ht

/-- Rounds that stop leave the invariant with nothing pending. -/
theorem insertion_rounds_spec {c₀ : Circuit} (himp : Implements c₀.plans rules) (fuel : Nat) :
    ∀ {c : Circuit} {d : Zset TripleId} {c' : Circuit}, Inserting rules c₀ c d →
      insertion_rounds fuel c d = some c' → Inserting rules c₀ c' .new := by
  have hstop : ∀ {c : Circuit} {d : Zset TripleId}, Inserting rules c₀ c d →
      d.is_empty = true → Inserting rules c₀ c .new := by
    intro c d h hempty
    have : d = .new := Zset.ext_get fun t => by
      rw [Zset.is_empty_iff.mp hempty, Zset.get_new]
    rwa [this] at h
  induction fuel with
  | zero =>
    intro c d c' h hran
    rw [insertion_rounds] at hran
    split at hran
    · rename_i hempty
      cases hran
      exact hstop h hempty
    · cases hran
  | succ fuel ih =>
    intro c d c' h hran
    rw [insertion_rounds] at hran
    split at hran
    · rename_i hempty
      cases hran
      exact hstop h hempty
    · exact ih (h.round himp) hran

/-- The insertion fixpoint settles. -/
theorem run_insertion_fixpoint_spec (h : Ready rules c d) (hpos : ∀ t, 0 ≤ d.get t) {c' : Circuit}
    (hran : c.run_insertion_fixpoint d = some c') : Settled rules c d c' := by
  have hrun := insertion_rounds_spec h.implements _ (.start h hpos) hran
  have hnone : ∀ t, ¬ Lost rules c d t := by
    intro t ht
    induction ht with
    | seed hs => exact absurd (hpos _) (Int.not_le.mpr hs)
    | step _ _ _ _ _ ih => exact ih
  have hzero : ∀ t, c'.extent.get t + (Zset.new : Zset TripleId).get t = c'.extent.get t := by
    intro t
    rw [Zset.get_new, add_zero]
  have hpres : ∀ t, 0 < c'.extent.get t ↔ c.Covered t ∨ c'.Owned t := fun t => by
    rw [← hzero, hrun.present]
  have hclosed : ∀ t, 0 < derivations c.plans c'.extent t → 0 < c'.extent.get t := fun t ht => by
    rw [← hzero]
    exact hrun.closed t ht
  refine ⟨hrun.rest, hrun.plans, hrun.weighed, hrun.flat, hrun.rows, ?_, ?_, hrun.emitted, ?_, ?_⟩
  · intro t
    rw [hpres]
    refine ⟨Or.imp_right (hrun.owned t), ?_⟩
    rintro (hc | hd)
    · exact Or.inl hc
    · exact (hpres t).mp (hclosed t hd)
  · intro t
    constructor
    · exact fun ho => ⟨hrun.owned t ho, hrun.fresh t ho⟩
    · rintro ⟨hd, ho | hn⟩
      · exact hrun.kept t ho
      · exact ((hpres t).mp (hclosed t hd)).resolve_left hn
  · intro t ht _
    rw [hpres]
    rcases h.delta t with ⟨_, h2⟩ | ⟨_, h2, _⟩ | ⟨h1, _⟩
    · exact (h2.mp ht).imp_right (hrun.kept t)
    · omega
    · have := hpos t
      omega
  · intro S hS hcov hext t ht
    refine hrun.least S hS hcov (fun u hu => hext u hu (hnone u)) t ?_
    rw [hzero]
    exact ht

end Circuit

end horndb.incremental
