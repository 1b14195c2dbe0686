-- The over-delete phase of a retraction: it takes out exactly the lost rows. What it
-- leaves is the part of the extent that does not lean on a row the tick dropped.
import HornDb.CircuitInsertion

open HornDb.Lib Std

namespace horndb.incremental

/-- What a retraction round may change at one row. -/
@[ext]
structure Mark where
  per_rule : Zset RuleId
  candidate : Bool
  touched : Bool
  next : Int

namespace Circuit

/-- The circuit with the weights taken out. -/
def unweighed (c : Circuit) : Circuit := { c with rule_weights := ∅ }

def mark (st : Retraction) (t : TripleId) : Mark :=
  ⟨st.circuit.weights t, st.candidates.contains t, st.touched.contains t, st.next_delta.get t⟩

theorem unweighed_apply (c : Circuit) (t : TripleId) (deltas : List (RuleId × Int)) :
    (c.apply_weight_deltas t deltas).1.unweighed = c.unweighed := rfl

theorem contains_insert_triple (s : ExtTreeSet TripleId) (t u : TripleId) :
    (s.insert t).contains u = (decide (u = t) || s.contains u) := by
  rw [ExtTreeSet.contains_insert]
  by_cases hu : u = t
  · subst hu
    simp
  · have hne : ¬ compare t u = Ordering.eq := fun h => hu (compare_triple_iff.mp h).symm
    simp [hne, hu]

theorem contains_insert_other {s : ExtTreeSet TripleId} {t u : TripleId} (h : u ≠ t) :
    (s.insert t).contains u = s.contains u := by
  rw [contains_insert_triple, decide_eq_false h, Bool.false_or]

theorem contains_insert_self (s : ExtTreeSet TripleId) (t : TripleId) :
    (s.insert t).contains t = true := by
  rw [contains_insert_triple, decide_eq_true rfl, Bool.true_or]

theorem not_mem_iff_contains {s : ExtTreeSet TripleId} {t : TripleId} :
    t ∉ s ↔ s.contains t = false := by
  rw [ExtTreeSet.mem_iff_contains, Bool.not_eq_true]

theorem not_covered_iff {c : Circuit} {t : TripleId} :
    ¬ c.Covered t ↔ c.asserted_base.get t ≤ 0 ∧ t ∉ c.closure_support := by
  rw [Covered, not_or, Int.not_lt]

/-! ## One row of an over-delete round -/

/-- The mark of a row after its step in an over-delete round. -/
def overdeletedMark (f : Circuit) (e : TripleId × List (RuleId × Int)) (v : Mark) : Mark :=
  let w := weighed v.per_rule e.2
  if total w < total v.per_rule ∧ v.candidate = false ∧ f.asserted_base.get e.1 ≤ 0 ∧
      e.1 ∉ f.closure_support then
    ⟨w, true, true, if 0 < f.extent.get e.1 + v.next then v.next - 1 else v.next⟩
  else ⟨w, v.candidate, true, v.next⟩

theorem overdelete_row_step :
    RowFold.RowStep overdelete_row Prod.fst (fun st => st.circuit.unweighed) mark
      overdeletedMark where
  kept := by
    intro st e
    unfold overdelete_row
    dsimp only
    split
    · rfl
    · rfl
  other := by
    intro st e k hk
    have hw := weights_apply st.circuit e.1 k e.2
    rw [if_neg hk] at hw
    unfold overdelete_row
    dsimp only
    split
    · refine Mark.ext hw (contains_insert_other hk) (contains_insert_other hk) ?_
      dsimp only [mark]
      split
      · rw [Zset.get_add, if_neg hk, add_zero]
      · rfl
    · exact Mark.ext hw rfl (contains_insert_other hk) rfl
  self := by
    intro st e
    have hw := weights_apply st.circuit e.1 e.1 e.2
    have htot := totals_apply st.circuit e.1 e.2
    rw [if_pos rfl] at hw
    have hun := unweighed_apply st.circuit e.1 e.2
    unfold overdelete_row overdeletedMark
    generalize st.circuit.apply_weight_deltas e.1 e.2 = out at *
    obtain ⟨c, old_total, new_total⟩ := out
    cases htot
    have hcond : (total (weighed (st.circuit.weights e.1) e.2) < total (st.circuit.weights e.1) ∧
          e.1 ∉ st.candidates ∧ c.asserted_base.get e.1 ≤ 0 ∧ e.1 ∉ c.closure_support) ↔
        (total (weighed (mark st e.1).per_rule e.2) < total (mark st e.1).per_rule ∧
          (mark st e.1).candidate = false ∧ c.unweighed.asserted_base.get e.1 ≤ 0 ∧
          e.1 ∉ c.unweighed.closure_support) :=
      and_congr_right fun _ => and_congr_left fun _ => not_mem_iff_contains
    dsimp only
    rw [← hun]
    by_cases h : total (weighed (st.circuit.weights e.1) e.2) < total (st.circuit.weights e.1) ∧
      e.1 ∉ st.candidates ∧ c.asserted_base.get e.1 ≤ 0 ∧ e.1 ∉ c.closure_support
    · rw [if_pos h, if_pos (hcond.mp h)]
      refine Mark.ext hw (contains_insert_self _ _) (contains_insert_self _ _) ?_
      dsimp only [mark, unweighed]
      by_cases hp : 0 < c.extent.get e.1 + st.next_delta.get e.1
      · rw [if_pos hp]
        refine Eq.trans ?_ (if_pos hp).symm
        rw [Zset.get_add, if_pos rfl]
        rfl
      · rw [if_neg hp]
        exact (if_neg hp).symm
    · rw [if_neg h, if_neg fun hn => h (hcond.mpr hn)]
      exact Mark.ext hw rfl (contains_insert_self _ _) rfl

/-! ## A retraction round -/

/-- What a retraction round leaves, whichever phase it is of: the delta is in the extent,
only plans, extent and weights have moved, and the rows it did not touch weigh the same. -/
structure RetractionRound (st out : Retraction) : Prop where
  rest : out.circuit = { st.circuit with
    plans := out.circuit.plans
    extent := out.circuit.extent
    rule_weights := out.circuit.rule_weights }
  done : RoundDone st.circuit st.next_delta out.circuit
  untouched : ∀ t, out.touched.contains t = false →
    st.touched.contains t = false ∧ out.circuit.weights t = st.circuit.weights t

/-- The round of a phase whose row step is `step`, with the mark of each row after it. -/
theorem retraction_round_spec {step : Retraction → TripleId × List (RuleId × Int) → Retraction}
    {upd : Circuit → TripleId × List (RuleId × Int) → Mark → Mark}
    (hstep : RowFold.RowStep step Prod.fst (fun st => st.circuit.unweighed) mark upd)
    (hupd : ∀ f e v, (upd f e v).per_rule = weighed v.per_rule e.2 ∧
      (upd f e v).touched = true)
    {st : Retraction} {rules : List (List TriplePattern × TriplePattern)}
    (himp : Implements st.circuit.plans rules) (hw : st.circuit.Weighed)
    (hext : ∀ x, 0 ≤ (st.circuit.extent.add_assign st.next_delta).get x)
    (out : Retraction)
    (hout : out = (st.circuit.fixpoint_round st.next_delta).2.toList.foldl step
      { st with
        circuit := (st.circuit.fixpoint_round st.next_delta).1
        next_delta := .new }) :
    RetractionRound st out ∧ ∀ t,
      (∃ deltas f, f.Covered t = st.circuit.Covered t ∧ f.extent = out.circuit.extent ∧
        total (weighed (st.circuit.weights t) deltas) =
          derivations st.circuit.plans out.circuit.extent t ∧
        mark out t = upd f (t, deltas)
          ⟨st.circuit.weights t, st.candidates.contains t, st.touched.contains t, 0⟩) ∨
      (derivations st.circuit.plans out.circuit.extent t =
          derivations st.circuit.plans st.circuit.extent t ∧
        mark out t = ⟨st.circuit.weights t, st.candidates.contains t, st.touched.contains t, 0⟩) := by
  have hrun := fixpoint_round_spec hw st.next_delta
  generalize st.circuit.fixpoint_round st.next_delta = ran at *
  obtain ⟨c₁, merged⟩ := ran
  dsimp only at *
  have hview := foldl_merged hstep merged { st with circuit := c₁, next_delta := .new }
  have hframe := hstep.foldl_frame merged.toList { st with circuit := c₁, next_delta := .new }
  rw [← hout] at hview hframe
  dsimp only at hframe
  have hrest : out.circuit = { st.circuit with
      plans := out.circuit.plans
      extent := out.circuit.extent
      rule_weights := out.circuit.rule_weights } := by
    have h1 : out.circuit = { c₁ with rule_weights := out.circuit.rule_weights } := by
      have : ({ out.circuit.unweighed with rule_weights := out.circuit.rule_weights } : Circuit) =
          { c₁.unweighed with rule_weights := out.circuit.rule_weights } := by rw [hframe]
      exact this
    have h2 := hrun.rest
    dsimp only at h2
    rw [h1, h2]
  have hw₁ : ∀ t, c₁.weights t = st.circuit.weights t := by
    intro t
    have := hrun.rest
    dsimp only at this
    rw [this]
    rfl
  have hmark : ∀ t, mark { st with circuit := c₁, next_delta := .new } t =
      ⟨st.circuit.weights t, st.candidates.contains t, st.touched.contains t, 0⟩ := by
    intro t
    rw [mark, hw₁, Zset.get_new]
  have hfix : out.circuit.fixed = c₁.fixed := (congrArg fixed hframe :)
  have hdone : RoundDone st.circuit st.next_delta out.circuit := by
    refine hrun.done himp hext hfix fun t => ?_
    rcases hview t with ⟨deltas, hd, hv⟩ | ⟨hd, hv⟩
    · refine Or.inl ⟨deltas, hd, (congrArg Mark.per_rule hv).trans ?_⟩
      rw [(hupd _ _ _).1]
      rfl
    · exact Or.inr ⟨hd, congrArg Mark.per_rule hv⟩
  have hnew : ∀ t, total (out.circuit.weights t) =
      derivations st.circuit.plans out.circuit.extent t := by
    intro t
    rw [hdone.weighed.total, derivations_skeleton hdone.plans]
  refine ⟨⟨hrest, hdone, ?_⟩, ?_⟩
  · intro t ht
    rcases hview t with ⟨deltas, _, hv⟩ | ⟨_, hv⟩
    · have htouched : out.touched.contains t = true :=
        (congrArg Mark.touched hv).trans (hupd _ _ _).2
      rw [ht] at htouched
      cases htouched
    · rw [hmark] at hv
      have htouched : out.touched.contains t = st.touched.contains t := congrArg Mark.touched hv
      rw [htouched] at ht
      exact ⟨ht, congrArg Mark.per_rule hv⟩
  · intro t
    rcases hview t with ⟨deltas, _, hv⟩ | ⟨_, hv⟩
    · rw [hmark] at hv
      refine Or.inl ⟨deltas, c₁.unweighed, ?_, ?_, ?_, hv⟩
      · have := hrun.rest
        dsimp only at this
        rw [this]
        rfl
      · exact ((congrArg extent hframe :) : out.circuit.extent = c₁.extent).symm
      · rw [← hnew, show out.circuit.weights t = _ from congrArg Mark.per_rule hv,
          (hupd _ _ _).1]
    · rw [hmark] at hv
      refine Or.inr ⟨?_, hv⟩
      rw [← hnew, show out.circuit.weights t = _ from congrArg Mark.per_rule hv, hw.total]

/-! ## The run of over-delete rounds -/

/-- The invariant of the over-delete rounds from the ready circuit `c₀`. -/
structure Overdeleting (rules : List (List TriplePattern × TriplePattern)) (c₀ : Circuit)
    (d₀ : Zset TripleId) (st : Retraction) : Prop where
  rest : st.circuit = { c₀ with
    plans := st.circuit.plans
    extent := st.circuit.extent
    rule_weights := st.circuit.rule_weights }
  plans : skeleton st.circuit.plans = skeleton c₀.plans
  weighed : st.circuit.Weighed
  delta : ∀ t, st.next_delta.get t = 0 ∨
    (st.next_delta.get t = -1 ∧ st.circuit.extent.get t = 1)
  below : ∀ t, 0 ≤ st.circuit.extent.get t ∧ st.circuit.extent.get t ≤ c₀.extent.get t
  gone : ∀ t, 0 < c₀.extent.get t → st.circuit.extent.get t + st.next_delta.get t = 0 →
    Lost rules c₀ d₀ t
  seeded : ∀ t, d₀.get t < 0 → st.circuit.extent.get t + st.next_delta.get t = 0
  dropped : ∀ t, st.candidates.contains t = true →
    st.circuit.extent.get t + st.next_delta.get t = 0 ∧ st.touched.contains t = true
  lowered : ∀ t, ¬ c₀.Covered t →
    derivations c₀.plans st.circuit.extent t < derivations c₀.plans c₀.extent t →
    st.candidates.contains t = true
  weak : ∀ t, d₀.get t < 0 → 0 < derivations c₀.plans c₀.extent t →
    st.candidates.contains t = true
  untouched : ∀ t, st.touched.contains t = false →
    derivations c₀.plans st.circuit.extent t = derivations c₀.plans c₀.extent t

theorem overdelete_round_spec {st : Retraction}
    {rules : List (List TriplePattern × TriplePattern)}
    (himp : Implements st.circuit.plans rules) (hw : st.circuit.Weighed)
    (hext : ∀ x, 0 ≤ (st.circuit.extent.add_assign st.next_delta).get x) :
    RetractionRound st (overdelete_round st) ∧ ∀ t,
      let old := derivations st.circuit.plans st.circuit.extent t
      let new := derivations st.circuit.plans (overdelete_round st).circuit.extent t
      let lost := new < old ∧ st.candidates.contains t = false ∧ ¬ st.circuit.Covered t
      (lost → (overdelete_round st).candidates.contains t = true ∧
        (overdelete_round st).touched.contains t = true ∧
        (overdelete_round st).next_delta.get t =
          if 0 < (overdelete_round st).circuit.extent.get t then -1 else 0) ∧
      (¬ lost → (overdelete_round st).candidates.contains t = st.candidates.contains t ∧
        (st.touched.contains t = true → (overdelete_round st).touched.contains t = true) ∧
        (overdelete_round st).next_delta.get t = 0) := by
  have hupd : ∀ f e v, (overdeletedMark f e v).per_rule = weighed v.per_rule e.2 ∧
      (overdeletedMark f e v).touched = true := by
    intro f e v
    unfold overdeletedMark
    dsimp only
    split <;> exact ⟨rfl, rfl⟩
  obtain ⟨hround, hrow⟩ := retraction_round_spec overdelete_row_step hupd himp hw hext
    (overdelete_round st) rfl
  refine ⟨hround, fun t => ?_⟩
  generalize overdelete_round st = out at *
  dsimp only
  rcases hrow t with ⟨deltas, f, hcov, hf, htotal, hm⟩ | ⟨hsame, hm⟩
  · unfold overdeletedMark at hm
    dsimp only at hm
    rw [htotal, hw.total, hf] at hm
    have hcov' : (f.asserted_base.get t ≤ 0 ∧ t ∉ f.closure_support) ↔
        ¬ st.circuit.Covered t := by
      rw [← hcov, not_covered_iff]
    constructor
    · rintro ⟨hlt, hc, hn⟩
      rw [if_pos ⟨hlt, hc, hcov'.mpr hn⟩, add_zero] at hm
      refine ⟨congrArg Mark.candidate hm, congrArg Mark.touched hm, ?_⟩
      exact congrArg Mark.next hm
    · intro hno
      rw [if_neg fun hn => hno ⟨hn.1, hn.2.1, hcov'.mp hn.2.2⟩] at hm
      exact ⟨congrArg Mark.candidate hm, fun _ => congrArg Mark.touched hm, congrArg Mark.next hm⟩
  · refine ⟨fun hl => ?_, fun _ => ⟨congrArg Mark.candidate hm, fun ht => ?_, congrArg Mark.next hm⟩⟩
    · have := hl.1
      omega
    · rw [← ht]
      exact congrArg Mark.touched hm

/-- One over-delete round keeps the invariant. -/
theorem Overdeleting.round {rules : List (List TriplePattern × TriplePattern)} {c₀ : Circuit}
    {d₀ : Zset TripleId} {st : Retraction} (himp : Implements c₀.plans rules)
    (hflat : Flat c₀.extent) (h : Overdeleting rules c₀ d₀ st) :
    Overdeleting rules c₀ d₀ (overdelete_round st) := by
  have hnext : ∀ t, (st.circuit.extent.add_assign st.next_delta).get t =
      st.circuit.extent.get t + st.next_delta.get t := fun t => PredExtent.get_add_assign _ _ _
  have hnonneg : ∀ t, 0 ≤ (st.circuit.extent.add_assign st.next_delta).get t := by
    intro t
    rw [hnext]
    have := (h.below t).1
    rcases h.delta t with h1 | ⟨h1, h2⟩ <;> omega
  have hshrink : ∀ t, (st.circuit.extent.add_assign st.next_delta).get t ≤
      st.circuit.extent.get t := by
    intro t
    rw [hnext]
    rcases h.delta t with h1 | ⟨h1, _⟩ <;> omega
  obtain ⟨hround, hrow⟩ := overdelete_round_spec (implements_skeleton h.plans himp) h.weighed
    hnonneg
  generalize overdelete_round st = out at *
  have hext : ∀ t, out.circuit.extent.get t =
      st.circuit.extent.get t + st.next_delta.get t := by
    intro t
    rw [hround.done.extent, hnext]
  have hbit : ∀ t, out.circuit.extent.get t = 0 ∨ out.circuit.extent.get t = 1 := by
    intro t
    have h1 := hnonneg t
    have h2 := hshrink t
    rw [hnext] at h1 h2
    have h3 := (h.below t).2
    have h4 := hext t
    rcases hflat t with h5 | h5 <;> omega
  have hcov : ∀ t, st.circuit.Covered t ↔ c₀.Covered t := by
    intro t
    rw [h.rest]
    rfl
  have hfall : ∀ t, derivations c₀.plans out.circuit.extent t ≤
      derivations c₀.plans st.circuit.extent t ∧
      (derivations c₀.plans out.circuit.extent t < derivations c₀.plans st.circuit.extent t ↔
        ∃ ps, Instance rules ps t ∧ (∀ p ∈ ps, 0 < st.circuit.extent.get p) ∧
          ∃ p ∈ ps, out.circuit.extent.get p < st.circuit.extent.get p) := by
    intro t
    refine derivations_lt_iff himp ?_ ?_ t
    · rw [hround.done.extent]
      exact hnonneg
    · rw [hround.done.extent]
      exact hshrink
  -- A row is newly dropped when it lost a derivation; every other row keeps its mark.
  have hcase : ∀ t,
      (derivations c₀.plans out.circuit.extent t < derivations c₀.plans st.circuit.extent t ∧
        ¬ c₀.Covered t ∧ out.candidates.contains t = true ∧ out.touched.contains t = true ∧
        out.next_delta.get t = if 0 < out.circuit.extent.get t then -1 else 0) ∨
      ((derivations c₀.plans out.circuit.extent t < derivations c₀.plans st.circuit.extent t →
          ¬ c₀.Covered t → st.candidates.contains t = true) ∧
        out.candidates.contains t = st.candidates.contains t ∧
        (st.touched.contains t = true → out.touched.contains t = true) ∧
        out.next_delta.get t = 0) := by
    intro t
    have hr := hrow t
    simp only [derivations_skeleton h.plans, hcov] at hr
    by_cases hl : derivations c₀.plans out.circuit.extent t <
        derivations c₀.plans st.circuit.extent t ∧ st.candidates.contains t = false ∧
        ¬ c₀.Covered t
    · exact Or.inl ⟨hl.1, hl.2.2, hr.1 hl⟩
    · refine Or.inr ⟨fun hlt hn => ?_, hr.2 hl⟩
      by_contra hc
      exact hl ⟨hlt, Bool.eq_false_iff.mpr hc, hn⟩
  constructor
  · rw [hround.rest, h.rest]
  · exact hround.done.plans.trans h.plans
  · exact hround.done.weighed
  · intro t
    rcases hcase t with ⟨_, _, _, _, hN⟩ | ⟨_, _, _, hN⟩
    · split at hN
      · rename_i hpos
        refine Or.inr ⟨hN, ?_⟩
        rcases hbit t with hz | hz
        · omega
        · exact hz
      · exact Or.inl hN
    · exact Or.inl hN
  · intro t
    have := h.below t
    have := hshrink t
    have := hnonneg t
    rw [hround.done.extent]
    omega
  · intro t ht hz
    rcases hcase t with ⟨hlt, hn, _⟩ | ⟨_, _, _, hN⟩
    · obtain ⟨ps, hinst, hps, p, hp, hpl⟩ := (hfall t).2.mp hlt
      have hold : ∀ q ∈ ps, 0 < c₀.extent.get q := fun q hq =>
        Int.lt_of_lt_of_le (hps q hq) (h.below q).2
      refine .step hinst hold hp (h.gone p (hold p hp) ?_) hn
      rw [hext] at hpl
      rcases h.delta p with h1 | ⟨h1, h2⟩ <;> omega
    · rw [hN, add_zero, hext] at hz
      exact h.gone t ht hz
  · intro t ht
    have := h.seeded t ht
    rw [hext]
    rcases hcase t with ⟨_, _, _, _, hN⟩ | ⟨_, _, _, hN⟩
    · rw [hN, hext, this]
      rfl
    · rw [hN, this]
      rfl
  · intro t ht
    rcases hcase t with ⟨_, _, _, htouched, hN⟩ | ⟨_, hc, htouched, hN⟩
    · refine ⟨?_, htouched⟩
      rw [hN]
      rcases hbit t with hz | hz
      · rw [hz]
        rfl
      · rw [hz]
        rfl
    · rw [hc] at ht
      obtain ⟨hz, htt⟩ := h.dropped t ht
      rw [hN, add_zero, hext]
      exact ⟨hz, htouched htt⟩
  · intro t hn hlt
    rcases hcase t with ⟨_, _, hc, _⟩ | ⟨hl, hc, _⟩
    · exact hc
    · rw [hc]
      by_cases hold : derivations c₀.plans st.circuit.extent t <
          derivations c₀.plans c₀.extent t
      · exact h.lowered t hn hold
      · exact hl (by omega) hn
  · intro t ht hpos
    rcases hcase t with ⟨_, _, hc, _⟩ | ⟨_, hc, _⟩
    · exact hc
    · rw [hc]
      exact h.weak t ht hpos
  · intro t ht
    obtain ⟨hst, hweights⟩ := hround.untouched t ht
    rw [← h.untouched t hst, ← derivations_skeleton (hround.done.plans.trans h.plans),
      ← hround.done.weighed.total, hweights, h.weighed.total, derivations_skeleton h.plans]

/-- What the over-delete phase leaves: the extent without the lost rows. -/
structure Overdeleted (rules : List (List TriplePattern × TriplePattern)) (c₀ : Circuit)
    (d₀ : Zset TripleId) (st : Retraction) : Prop where
  rest : st.circuit = { c₀ with
    plans := st.circuit.plans
    extent := st.circuit.extent
    rule_weights := st.circuit.rule_weights }
  plans : skeleton st.circuit.plans = skeleton c₀.plans
  weighed : st.circuit.Weighed
  flat : Flat st.circuit.extent
  survives : ∀ t, 0 < st.circuit.extent.get t ↔ 0 < c₀.extent.get t ∧ ¬ Lost rules c₀ d₀ t
  candidate : ∀ t, st.candidates.contains t = true → st.circuit.extent.get t = 0 ∧
    st.touched.contains t = true
  lowered : ∀ t, ¬ c₀.Covered t →
    derivations c₀.plans st.circuit.extent t < derivations c₀.plans c₀.extent t →
    st.candidates.contains t = true
  weak : ∀ t, d₀.get t < 0 → 0 < derivations c₀.plans c₀.extent t →
    st.candidates.contains t = true
  untouched : ∀ t, st.touched.contains t = false →
    derivations c₀.plans st.circuit.extent t = derivations c₀.plans c₀.extent t
  shrinks : ∀ t, derivations c₀.plans st.circuit.extent t ≤ derivations c₀.plans c₀.extent t

theorem overdelete_rounds_spec {rules : List (List TriplePattern × TriplePattern)}
    {c₀ : Circuit} {d₀ : Zset TripleId} (himp : Implements c₀.plans rules)
    (hflat : Flat c₀.extent) (fuel : Nat) :
    ∀ {st out : Retraction}, Overdeleting rules c₀ d₀ st →
      overdelete_rounds fuel st = some out → Overdeleting rules c₀ d₀ out ∧
        ∀ t, out.next_delta.get t = 0 := by
  induction fuel with
  | zero =>
    intro st out h hran
    rw [overdelete_rounds] at hran
    split at hran
    · rename_i hempty
      cases hran
      exact ⟨h, Zset.is_empty_iff.mp hempty⟩
    · cases hran
  | succ fuel ih =>
    intro st out h hran
    rw [overdelete_rounds] at hran
    split at hran
    · rename_i hempty
      cases hran
      exact ⟨h, Zset.is_empty_iff.mp hempty⟩
    · exact ih (h.round himp hflat) hran

theorem Overdeleting.settles {rules : List (List TriplePattern × TriplePattern)} {c₀ : Circuit}
    {d₀ : Zset TripleId} {st : Retraction} (himp : Implements c₀.plans rules)
    (hflat : Flat c₀.extent) (h : Overdeleting rules c₀ d₀ st)
    (hdone : ∀ t, st.next_delta.get t = 0) :
    Overdeleted rules c₀ d₀ st := by
  have hz : ∀ {t}, st.circuit.extent.get t + st.next_delta.get t = 0 →
      st.circuit.extent.get t = 0 := by
    intro t ht
    rwa [hdone, add_zero] at ht
  have hfall := fun t => derivations_lt_iff himp (fun x => (h.below x).1)
    (fun x => (h.below x).2) t
  have hlost : ∀ t, Lost rules c₀ d₀ t → 0 < c₀.extent.get t → st.circuit.extent.get t = 0 := by
    intro t ht
    induction ht with
    | seed hs => exact fun _ => hz (h.seeded _ hs)
    | @step ps t p hinst hold hp _ hfree ih =>
      intro ht
      have hp0 : st.circuit.extent.get p < c₀.extent.get p := by
        rw [ih (hold p hp)]
        exact hold p hp
      have hlow := (hfall t).2.mpr ⟨ps, hinst, hold, p, hp, hp0⟩
      exact hz (h.dropped t (h.lowered t hfree hlow)).1
  refine ⟨h.rest, h.plans, h.weighed, ?_, ?_, ?_, h.lowered, h.weak, h.untouched,
    fun t => (hfall t).1⟩
  · intro t
    have := h.below t
    rcases hflat t with h1 | h1 <;> omega
  · intro t
    have hb := h.below t
    constructor
    · intro ht
      have h0 : 0 < c₀.extent.get t := by omega
      refine ⟨h0, fun hl => ?_⟩
      have := hlost t hl h0
      omega
    · rintro ⟨h0, hl⟩
      by_contra hno
      refine hl (h.gone t h0 ?_)
      rw [hdone]
      omega
  · intro t ht
    obtain ⟨hzero, htouched⟩ := h.dropped t ht
    exact ⟨hz hzero, htouched⟩

/-! ## The seeds of the phases -/

theorem foldl_iter {σ ρ φ : Type*} {step : σ → TripleId × Int → σ} {frame : σ → φ}
    {view : σ → TripleId → ρ} {upd : φ → TripleId × Int → ρ → ρ}
    (h : RowFold.RowStep step Prod.fst frame view upd) (z : Zset TripleId) (s : σ)
    (t : TripleId) :
    (z.get t ≠ 0 ∧ view (z.iter.foldl step s) t = upd (frame s) (t, z.get t) (view s t)) ∨
      (z.get t = 0 ∧ view (z.iter.foldl step s) t = view s t) := by
  have hget : z.get t = (z.inner[t]?).getD 0 := ExtTreeMap.getD_eq_getD_getElem?
  rcases h.foldl_map z.inner s t with ⟨m, hm, hv⟩ | ⟨hm, hv⟩
  · obtain ⟨hne, hm⟩ := Zset.getElem?_eq_some.mp hm
    rw [hm]
    exact Or.inl ⟨hne, hv⟩
  · rw [hm] at hget
    exact Or.inr ⟨hget, hv⟩

theorem seed_of_get (keep : Int → Bool) (z : Zset TripleId) (t : TripleId) :
    (seed_of keep z).get t = if keep (z.get t) then z.get t else 0 := by
  have hstep : RowFold.RowStep
      (fun (s : Zset TripleId) (e : TripleId × Int) => if keep e.2 then s.add e.1 e.2 else s)
      Prod.fst (fun _ => ()) Zset.get (fun _ e v => if keep e.2 then v + e.2 else v) := by
    refine ⟨fun _ _ => rfl, fun s e k hk => ?_, fun s e => ?_⟩
    · split
      · rw [Zset.get_add, if_neg hk, add_zero]
      · rfl
    · split
      · rw [Zset.get_add, if_pos rfl]
      · rfl
  rcases foldl_iter hstep z .new t with ⟨_, hv⟩ | ⟨hz, hv⟩
  · rw [Zset.get_new, zero_add] at hv
    exact hv
  · rw [Zset.get_new] at hv
    rw [hz]
    refine hv.trans ?_
    split <;> rfl

theorem dropped_candidates_contains (c : Circuit) (z : Zset TripleId) (t : TripleId) :
    (c.dropped_candidates z).contains t = true ↔ z.get t < 0 ∧ 0 < c.total_weight t := by
  have hstep : RowFold.RowStep
      (fun (s : ExtTreeSet TripleId) (e : TripleId × Int) =>
        if e.2 < 0 ∧ 0 < c.total_weight e.1 then s.insert e.1 else s)
      Prod.fst (fun _ => ()) ExtTreeSet.contains
      (fun _ e v => if e.2 < 0 ∧ 0 < c.total_weight e.1 then true else v) := by
    refine ⟨fun _ _ => rfl, fun s e k hk => ?_, fun s e => ?_⟩
    · split
      · rw [contains_insert_other hk]
      · rfl
    · split
      · rw [contains_insert_self]
      · rfl
  rw [dropped_candidates]
  rcases foldl_iter hstep z ∅ t with ⟨_, hv⟩ | ⟨hz, hv⟩
  · rw [hv]
    simp
  · rw [hv, hz]
    simp

theorem Overdeleting.start {rules : List (List TriplePattern × TriplePattern)} {c : Circuit}
    {d : Zset TripleId} (h : Ready rules c d) :
    Overdeleting rules c d ⟨c, c.dropped_candidates d, c.dropped_candidates d,
      seed_of (fun m => decide (m < 0)) d⟩ := by
  have hseed : ∀ t, (seed_of (fun m => decide (m < 0)) d).get t =
      if d.get t < 0 then d.get t else 0 := by
    intro t
    rw [seed_of_get]
    simp only [decide_eq_true_eq]
  have hcand := dropped_candidates_contains c d
  have hneg : ∀ t, d.get t < 0 → d.get t = -1 ∧ c.extent.get t = 1 := by
    intro t ht
    rcases h.delta t with ⟨h1, _⟩ | ⟨h1, _⟩ | ⟨h1, h2, _⟩
    · omega
    · omega
    · exact ⟨h1, h2⟩
  constructor
  · rfl
  · rfl
  · exact h.weighed
  · intro t
    rw [hseed]
    split
    · rename_i ht
      exact Or.inr (hneg t ht)
    · exact Or.inl rfl
  · exact fun t => ⟨h.flat.nonneg t, Int.le_refl _⟩
  · intro t ht hz
    dsimp only at hz
    rw [hseed] at hz
    split at hz
    · rename_i hs
      exact .seed hs
    · omega
  · intro t ht
    dsimp only
    rw [hseed, if_pos ht]
    have := hneg t ht
    omega
  · intro t ht
    refine ⟨?_, ht⟩
    obtain ⟨hs, _⟩ := (hcand t).mp ht
    dsimp only
    rw [hseed, if_pos hs]
    have := hneg t hs
    omega
  · intro t _ hlt
    exact absurd hlt (Int.lt_irrefl _)
  · intro t ht hpos
    refine (hcand t).mpr ⟨ht, ?_⟩
    rw [total_weight, h.weighed.total]
    exact hpos
  · exact fun _ _ => rfl

end Circuit

end horndb.incremental
