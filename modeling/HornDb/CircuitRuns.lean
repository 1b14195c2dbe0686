-- Every run of assertions, retractions and ticks: the rows after each tick are the least
-- fixpoint of the rules exactly when each tick finds the rows it unasserts accounted for, over the
-- integers and, where the ticks return, over words.
import HornDb.CheckedCircuit
import HornDb.CircuitTick

open HornDb.Lib HornDb.Lib.Words HornDb.Lib.Words.Checked Std

namespace horndb.incremental

/-- A rule with the plan that `from_body` built for it. -/
structure PlannedRule where
  id : RuleId
  body : List TriplePattern
  head : TriplePattern
  stats : Stats
  plan : NaryPlan
  attribution : RuleId
  built : NaryPlan.from_body id body head stats = .ok plan

namespace PlannedRule

def bodies (rules : List PlannedRule) : List (List TriplePattern × TriplePattern) :=
  rules.map fun r => (r.body, r.head)

theorem two_patterns (r : PlannedRule) : 2 ≤ r.body.length := by
  have h := r.built
  rw [NaryPlan.from_body] at h
  by_contra hlt
  rw [if_pos (Nat.not_le.mp hlt)] at h
  cases h

theorem fresh (r : PlannedRule) : r.plan.state = none := by
  have h := r.built
  rw [NaryPlan.from_body, if_neg (Nat.not_lt.mpr r.two_patterns)] at h
  obtain ⟨order, _, h⟩ := NaryPlan.except_bind_ok.mp h
  obtain ⟨joins, _, h⟩ := NaryPlan.except_bind_ok.mp h
  rw [← Except.ok.inj h]

end PlannedRule

namespace Circuit

/-! ## The rows of a circuit -/

def Present (c : Circuit) (t : TripleId) : Prop :=
  0 < c.asserted_base.get t ∨ 0 < c.derived_base.get t

/-- The asserted rows, and the strict transitive closure of the asserted edges of each
closure plan. -/
def Base (c : Circuit) (t : TripleId) : Prop :=
  0 < c.asserted_base.get t ∨
    Entailed (predicates c.closure_plans) (fun t => 0 < c.asserted_base.get t) t

/-- The rows are the least fixpoint of the rules over the base. -/
def Exact (rules : List (List TriplePattern × TriplePattern)) (c : Circuit) : Prop :=
  ∀ t, c.Present t ↔ Horn.Derives (Instance rules) c.Base t

/-- Each row that the tick unasserts, that a rule alone owned and that the over-delete does
not reach, is still derived from what the tick holds. -/
def Accounted (rules : List (List TriplePattern × TriplePattern)) (c : Circuit) : Prop :=
  ∀ t, 0 < c.asserted_base.get t → ¬ c.Held t → c.Owned t → t ∉ c.closure_support →
    ¬ Loses rules c t → Horn.Derives (Instance rules) c.Held t

/-! ## One tick -/

variable {rules : List (List TriplePattern × TriplePattern)} {c : Circuit}

theorem Ticked.base {out : TickOutput} (h : Ticked rules c out) : out.circuit.Base = c.Held := by
  funext t
  rw [Base, h.asserted, h.predicates, Held]

/-- A tidy circuit has every row that the rules derive from its base. -/
theorem Tidy.complete (h : Tidy rules c) {t : TripleId}
    (ht : Horn.Derives (Instance rules) c.Base t) : 0 < c.extent.get t := by
  refine ht.least (S := fun u => 0 < c.extent.get u) (fun u hu => ?_) fun ps u hinst hps => ?_
  · refine (h.present u).mpr ?_
    have hcov : c.Covered u := hu.elim Or.inl (h.entailed u)
    refine hcov.imp_right fun hs => ?_
    rcases h.rows u with ⟨hd, _⟩ | ⟨_, _, hno⟩
    · omega
    · exact absurd hs hno
  · exact h.closed u ((derivations_pos_iff h.implements h.flat.nonneg u).2.mpr ⟨ps, hinst, hps⟩)

/-- From an exact circuit, the tick is exact if and only if its rows are accounted for. -/
theorem Ticked.exact_iff {out : TickOutput} (h : Ticked rules c out) (hc : Tidy rules c)
    (hexact : Exact rules c) : Exact rules out.circuit ↔ Accounted rules c := by
  have hnew : ∀ t, out.circuit.Present t ↔ 0 < out.circuit.extent.get t :=
    fun t => (h.tidy.present t).symm
  have hold : ∀ t, 0 < c.extent.get t ↔ Horn.Derives (Instance rules) c.Base t :=
    fun t => (hc.present t).trans (hexact t)
  constructor
  · intro hexact' t ha _ _ _ hkeep
    rw [← h.base]
    exact (hexact' t).mp ((hnew t).mpr (h.kept t ((hc.present t).mpr (Or.inl ha)) hkeep))
  · intro hacc t
    rw [hnew, h.base]
    refine ⟨fun hpos => ?_, fun hd => h.tidy.complete (h.base ▸ hd)⟩
    refine h.least _ (fun _ _ => Horn.Derives.step) (fun _ => Horn.Derives.base)
      (fun u hu hkeep => ?_) t hpos
    refine Horn.Derives.of_not_lost (fun v hv => (hold v).mp hv) (fun v hv => (hold v).mpr hv)
      (fun v _ hheld => .base (not_not.mp hheld)) (fun v hv hleft => ?_) hu hkeep
    by_cases hheld : c.Held v
    · exact .base hheld
    -- A base row that is not held and not dropped had a rule for its only owner.
    have hpresent : 0 < c.extent.get v := (hold v).mpr (.base hv)
    have hown : c.Owned v ∧ v ∉ c.closure_support := by
      by_contra hno
      exact hleft (.seed ⟨hpresent, hheld, fun ho => not_not.mp fun hs => hno ⟨ho, hs⟩⟩)
    refine hacc v ?_ hheld hown.1 hown.2 hleft
    rcases hv with ha | he
    · exact ha
    · exact (hc.entailed v he).resolve_right hown.2

/-! ## Runs -/

inductive Op where
  | assert_triple (triple : TripleId)
  | retract_triple (triple : TripleId)
  | tick
deriving DecidableEq, Repr

def Op.apply : Op → Circuit → Option Circuit
  | .assert_triple t, c => some (c.assert_triple t)
  | .retract_triple t, c => some (c.retract_triple t)
  | .tick, c => c.tick.map (·.circuit)

def run : List Op → Circuit → Option Circuit
  | [], c => some c
  | op :: ops, c => (op.apply c).bind (run ops)

/-- The circuit before the first call: the plans registered, and the closure plans unseeded,
as there is no edge yet to seed. -/
def start (rules : List PlannedRule) (closures : List Nat) : Circuit :=
  closures.foldl (fun c p => c.add_closure_plan (.new p))
    (rules.foldl (fun c r => c.add_plan r.plan r.attribution) .new)

theorem run_append (ops more : List Op) (c : Circuit) :
    run (ops ++ more) c = (run ops c).bind (run more) := by
  induction ops generalizing c with
  | nil => rfl
  | cons op ops ih =>
    rw [List.cons_append, run, run, Option.bind_assoc]
    exact congrArg _ (funext ih)

theorem run_snoc {ops : List Op} {op : Op} {c c' : Circuit}
    (h : run (ops ++ [op]) c = some c') : ∃ c₁, run ops c = some c₁ ∧ op.apply c₁ = some c' := by
  rw [run_append, Option.bind_eq_some_iff] at h
  obtain ⟨c₁, h₁, h₂⟩ := h
  exact ⟨c₁, h₁, (Option.bind_fun_some _).symm.trans h₂⟩

theorem start_plans (rules : List PlannedRule) (closures : List Nat) :
    start rules closures = { new with
      plans := rules.map fun r => (r.plan, r.attribution)
      closure_plans := closures.map .new } := by
  have hrules : ∀ (l : List PlannedRule) (c : Circuit),
      l.foldl (fun c r => c.add_plan r.plan r.attribution) c =
        { c with plans := c.plans ++ l.map fun r => (r.plan, r.attribution) } := by
    intro l
    induction l with
    | nil => exact fun c => by rw [List.foldl_nil, List.map_nil, List.append_nil]
    | cons r l ih =>
      intro c
      rw [List.foldl_cons, ih, List.map_cons, add_plan, List.append_assoc, List.singleton_append]
  have hclosures : ∀ (l : List Nat) (c : Circuit),
      l.foldl (fun c p => c.add_closure_plan (.new p)) c =
        { c with closure_plans := c.closure_plans ++ l.map .new } := by
    intro l
    induction l with
    | nil => exact fun c => by rw [List.foldl_nil, List.map_nil, List.append_nil]
    | cons p l ih =>
      intro c
      rw [List.foldl_cons, ih, List.map_cons, add_closure_plan, List.append_assoc,
        List.singleton_append]
  rw [start, hrules, hclosures]
  rfl

theorem get_new_extent (t : TripleId) : PredExtent.new.get t = 0 := rfl

theorem start_tidy (rules : List PlannedRule) (closures : List Nat) :
    Tidy (PlannedRule.bodies rules) (start rules closures) := by
  rw [start_plans]
  have himp : Implements (rules.map fun r => (r.plan, r.attribution))
      (PlannedRule.bodies rules) := by
    rw [Implements, PlannedRule.bodies, List.forall₂_map_left_iff, List.forall₂_map_right_iff,
      List.forall₂_same]
    exact fun r _ => ⟨r.id, r.stats, r.plan, r.built, rfl⟩
  have hzero : ∀ t, derivations (rules.map fun r => (r.plan, r.attribution)) .new t = 0 := by
    intro t
    obtain ⟨hnn, hpos⟩ := derivations_pos_iff himp (fun x => (get_new_extent x).ge) t
    refine Int.le_antisymm (Int.not_lt.mp fun hlt => ?_) hnn
    obtain ⟨ps, ⟨rb, hrb, σ, rfl, _⟩, hps⟩ := hpos.mp hlt
    obtain ⟨r, _, rfl⟩ := List.mem_map.mp hrb
    have htwo := r.two_patterns
    obtain ⟨q, hq⟩ := List.exists_mem_of_length_pos (l := r.body) (by omega)
    have := hps _ (List.mem_map_of_mem hq)
    rw [get_new_extent] at this
    exact Int.lt_irrefl 0 this
  have hnone : ∀ t, ¬ 0 < (Zset.new : Zset TripleId).get t := fun t => by
    rw [Zset.get_new]
    exact Int.lt_irrefl 0
  refine ⟨himp, ⟨?_, fun t => ?_⟩, fun t => Or.inl (get_new_extent t), fun t => ?_, fun t => ?_,
    fun t ho => ?_, fun t hd => ?_, ?_, fun t hs => ?_, ?_⟩
  · intro p hp
    obtain ⟨r, _, rfl⟩ := List.mem_map.mp hp
    exact Or.inl r.fresh
  · have hw : (Zset.new : Zset RuleId).val = _ :=
      Zset.val_new.trans (ruleWeights_eq_zero himp (fun x => (get_new_extent x).ge) (hzero t)).symm
    exact (congrArg Zset.val ExtTreeMap.getD_empty).trans hw
  · exact iff_of_false (hnone t) (not_or.mpr ⟨hnone t, hnone t⟩)
  · exact Or.inr ⟨Zset.get_new t, ExtTreeMap.not_mem_empty, ExtTreeSet.not_mem_empty⟩
  · exact absurd ho ExtTreeMap.not_mem_empty
  · exact absurd (hzero t) hd.ne'
  · intro r hr
    obtain ⟨p, _, rfl⟩ := List.mem_map.mp hr
    exact ⟨TransitiveClosureRule.new_good p, fun s o =>
      iff_of_false (TransitiveClosureRule.new_edge p s o) (hnone _)⟩
  · exact absurd hs ExtTreeSet.not_mem_empty
  · rintro t ⟨_, hc⟩
    obtain ⟨_, hm, _⟩ := Relation.TransGen.head'_iff.mp hc
    exact absurd hm (hnone _)

theorem Tidy.set_log (h : Tidy rules c) (log : DeltaLog) : Tidy rules { c with log := log } :=
  ⟨h.implements, ⟨h.weighed.traced, h.weighed.exact⟩, h.flat, h.present, h.rows, h.owned,
    h.closed, h.follows, h.support, h.entailed⟩

/-- Without a row there is nothing to derive. -/
theorem start_exact (rules : List PlannedRule) (closures : List Nat) :
    Exact (PlannedRule.bodies rules) (start rules closures) := by
  have htidy := start_tidy rules closures
  have hnone : ∀ t, ¬ 0 < (start rules closures).extent.get t := fun t => by
    rw [start_plans]
    exact (get_new_extent t).not_gt
  exact fun t => iff_of_false (fun hp => hnone t ((htidy.present t).mpr hp))
    fun hd => hnone t (htidy.complete hd)

/-- Every run keeps the circuit tidy, on the unified path. -/
theorem run_tidy (rules : List PlannedRule) (closures : List Nat) (ops : List Op) :
    ∀ c, run ops (start rules closures) = some c →
      Tidy (PlannedRule.bodies rules) c ∧ c.recompute_fallback = false := by
  induction ops using List.reverseRecOn with
  | nil =>
    rintro c ⟨⟩
    refine ⟨start_tidy rules closures, ?_⟩
    rw [start_plans]
    rfl
  | append_singleton ops op ih =>
    intro c' h
    obtain ⟨c, hc, hop⟩ := run_snoc h
    obtain ⟨htidy, hmode⟩ := ih c hc
    cases op with
    | assert_triple t =>
      cases hop
      exact ⟨htidy.set_log _, hmode⟩
    | retract_triple t =>
      cases hop
      exact ⟨htidy.set_log _, hmode⟩
    | tick =>
      obtain ⟨out, hout, rfl⟩ := Option.map_eq_some_iff.mp hop
      have hticked := tick_spec htidy (by rw [hmode, Bool.false_and]) hout
      exact ⟨hticked.tidy, hticked.fallback.trans hmode⟩

theorem Exact.set_log (h : Exact rules c) (log : DeltaLog) : Exact rules { c with log := log } := h

/-- A run is exact where its ticks were. -/
theorem run_exact_of_ticks (rules : List PlannedRule) (closures : List Nat) (ops : List Op)
    (hticks : ∀ before, before ++ [.tick] <+: ops → ∀ c,
      run (before ++ [.tick]) (start rules closures) = some c →
      Exact (PlannedRule.bodies rules) c) :
    ∀ c, run ops (start rules closures) = some c → Exact (PlannedRule.bodies rules) c := by
  induction ops using List.reverseRecOn with
  | nil =>
    rintro c ⟨⟩
    exact start_exact rules closures
  | append_singleton ops op ih =>
    intro c' h
    obtain ⟨c, hc, hop⟩ := run_snoc h
    have hbefore := ih (fun before hb => hticks before (hb.trans (List.prefix_append _ _))) c hc
    cases op with
    | assert_triple t =>
      cases hop
      exact hbefore.set_log _
    | retract_triple t =>
      cases hop
      exact hbefore.set_log _
    | tick => exact hticks ops (List.prefix_refl _) c' h

/-- A run is exact where its ticks found their rows accounted for. -/
theorem run_exact_of_accounted (rules : List PlannedRule) (closures : List Nat) (ops : List Op)
    (hacc : ∀ before, before ++ [.tick] <+: ops → ∀ c,
      run before (start rules closures) = some c → c.tick ≠ none →
      Accounted (PlannedRule.bodies rules) c) :
    ∀ c, run ops (start rules closures) = some c → Exact (PlannedRule.bodies rules) c := by
  induction ops using List.reverseRecOn with
  | nil =>
    rintro c ⟨⟩
    exact start_exact rules closures
  | append_singleton ops op ih =>
    intro c' h
    obtain ⟨c, hc, hop⟩ := run_snoc h
    have hbefore := ih (fun before hb => hacc before (hb.trans (List.prefix_append _ _))) c hc
    cases op with
    | assert_triple t =>
      cases hop
      exact hbefore.set_log _
    | retract_triple t =>
      cases hop
      exact hbefore.set_log _
    | tick =>
      obtain ⟨out, hout, rfl⟩ := Option.map_eq_some_iff.mp hop
      obtain ⟨htidy, hmode⟩ := run_tidy rules closures ops c hc
      have hticked := tick_spec htidy (by rw [hmode, Bool.false_and]) hout
      refine (hticked.exact_iff htidy hbefore).mpr ?_
      exact hacc ops (List.prefix_refl _) c hc (Option.ne_none_iff_exists'.mpr ⟨out, hout⟩)

/-- The rows after every tick of a run over the integers are the least fixpoint of the rules over
the base if and only if every tick finds its rows accounted for. -/
theorem ticks_exact_iff (rules : List PlannedRule) (closures : List Nat)
    (ops : List Op) :
    (∀ before, before ++ [.tick] <+: ops → ∀ c,
      run (before ++ [.tick]) (start rules closures) = some c →
      Exact (PlannedRule.bodies rules) c) ↔
    (∀ before, before ++ [.tick] <+: ops → ∀ c,
      run before (start rules closures) = some c → c.tick ≠ none →
      Accounted (PlannedRule.bodies rules) c) := by
  constructor
  · intro hexact before hb c hc htick
    obtain ⟨out, hout⟩ := Option.ne_none_iff_exists'.mp htick
    obtain ⟨htidy, hmode⟩ := run_tidy rules closures before c hc
    have hold := run_exact_of_ticks rules closures before
      (fun early he => hexact early (he.trans ((List.prefix_append _ _).trans hb))) c hc
    have hticked := tick_spec htidy (by rw [hmode, Bool.false_and]) hout
    refine (hticked.exact_iff htidy hold).mp (hexact before hb _ ?_)
    rw [run_append, hc, Option.bind_some, run, Op.apply, hout]
    rfl
  · intro hacc before hb
    exact run_exact_of_accounted rules closures (before ++ [.tick])
      fun early he => hacc early (he.trans hb)

/-! ## Runs over words -/

def Op.checked_apply : Op → Circuit → Checked Circuit
  | .assert_triple t, c => pure (c.assert_triple t)
  | .retract_triple t, c => pure (c.retract_triple t)
  | .tick, c => do
    let out ← c.checked_tick
    pure out.circuit

def checked_run : List Op → Circuit → Checked Circuit
  | [], c => pure c
  | op :: ops, c => do
    let c ← op.checked_apply c
    checked_run ops c

theorem Op.exact_apply (op : Op) (c : Circuit) : (op.checked_apply c).exact = op.apply c := by
  cases op with
  | assert_triple t => rfl
  | retract_triple t => rfl
  | tick =>
    rw [Op.checked_apply, exact_bind, exact_tick, Op.apply, Option.map_eq_bind]
    rfl

theorem exact_run (ops : List Op) : ∀ c : Circuit, (checked_run ops c).exact = run ops c := by
  induction ops with
  | nil => exact fun c => rfl
  | cons op ops ih =>
    intro c
    rw [checked_run, exact_bind, Op.exact_apply, run]
    exact congrArg _ (funext ih)

/-- What a run over words returns is what the run over the integers does. -/
theorem run_of_checked {ops : List Op} {c c' : Circuit} (h : (checked_run ops c).run = .ok c') :
    run ops c = some c' :=
  (exact_run ops c).symm.trans (Checked.sound _ _ h)

theorem checked_run_append (ops more : List Op) (c : Circuit) :
    checked_run (ops ++ more) c = checked_run ops c >>= checked_run more := by
  induction ops generalizing c with
  | nil => rfl
  | cons op ops ih =>
    rw [List.cons_append, checked_run, checked_run, bind_assoc]
    exact congrArg _ (funext ih)

/-- A run with a tick behind it returns where both do. -/
theorem checked_run_tick {ops : List Op} {c c' : Circuit} :
    (checked_run (ops ++ [.tick]) c).run = .ok c' ↔ ∃ c₁, (checked_run ops c).run = .ok c₁ ∧
      ∃ out, c₁.checked_tick.run = .ok out ∧ out.circuit = c' := by
  have hlast : ∀ c₁ : Circuit, (checked_run [.tick] c₁).run = .ok c' ↔
      ∃ out, c₁.checked_tick.run = .ok out ∧ out.circuit = c' := by
    intro c₁
    rw [checked_run, run_bind_ok]
    constructor
    · rintro ⟨c₂, htick, hc⟩
      obtain ⟨out, hout, hc₂⟩ := run_bind_ok.mp htick
      cases hc₂
      cases hc
      exact ⟨out, hout, rfl⟩
    · rintro ⟨out, hout, rfl⟩
      exact ⟨out.circuit, run_bind_ok.mpr ⟨out, hout, rfl⟩, rfl⟩
  rw [checked_run_append, run_bind_ok]
  exact exists_congr fun c₁ => and_congr_right fun _ => hlast c₁

/-- Every tick of a run returns, and its rows are the least fixpoint of the rules over the base, if
and only if every tick returns and finds its rows accounted for. -/
theorem ticks_exact_iff_accounted (rules : List PlannedRule) (closures : List Nat)
    (ops : List Op) :
    (∀ before, before ++ [.tick] <+: ops → ∃ c,
      (checked_run (before ++ [.tick]) (start rules closures)).run = .ok c ∧
        Exact (PlannedRule.bodies rules) c) ↔
    (∀ before, before ++ [.tick] <+: ops → ∃ c,
      (checked_run before (start rules closures)).run = .ok c ∧
        (∃ out, c.checked_tick.run = .ok out) ∧ Accounted (PlannedRule.bodies rules) c) := by
  constructor
  · intro hexact before hb
    obtain ⟨c', hc', _⟩ := hexact before hb
    obtain ⟨c, hc, out, hout, _⟩ := checked_run_tick.mp hc'
    refine ⟨c, hc, ⟨out, hout⟩, ?_⟩
    refine (ticks_exact_iff rules closures ops).mp (fun early he d hd => ?_) before hb c
      (run_of_checked hc) ?_
    · obtain ⟨d', hd', hex⟩ := hexact early he
      rw [run_of_checked hd'] at hd
      cases hd
      exact hex
    · rw [← exact_tick, Checked.sound _ _ hout]
      exact Option.some_ne_none out
  · intro hacc before hb
    obtain ⟨c, hc, ⟨out, hout⟩, _⟩ := hacc before hb
    have hc' := checked_run_tick.mpr ⟨c, hc, out, hout, rfl⟩
    refine ⟨out.circuit, hc', ?_⟩
    refine (ticks_exact_iff rules closures ops).mpr (fun early he d hd _ => ?_) before hb _
      (run_of_checked hc')
    obtain ⟨d', hd', _, hok⟩ := hacc early he
    rw [run_of_checked hd'] at hd
    cases hd
    exact hok

/-! ## A cycle that outlives its support -/

def edgePattern (p : Nat) : TriplePattern := ⟨.Var 0, .Bound p, .Var 1⟩

/-- The rule `?x p ?y, ?x guard ?y → ?x head ?y`. -/
def guardedRule (id p guard head : Nat) : PlannedRule where
  id := id
  body := [edgePattern p, edgePattern guard]
  head := edgePattern head
  stats := ⟨false, fun _ => 0, fun _ => 0⟩
  plan := ⟨[⟨id, edgePattern p, edgePattern guard, edgePattern head, fun _ h => Or.inl h,
    List.cons_ne_nil 0 [1]⟩], [0, 1], none⟩
  attribution := id
  built := rfl

/-- Row 1 gives row 3, and rows 3 and 4 give each other, under the guard 2. -/
def cyclicRules : List PlannedRule :=
  [guardedRule 1 1 2 3, guardedRule 2 3 2 4, guardedRule 3 4 2 3]

/-- Row 3 is asserted while row 1 supports it. Row 1 goes first and row 3 after it. -/
def cyclicOps : List Op :=
  [.assert_triple ⟨10, 1, 11⟩, .assert_triple ⟨10, 2, 11⟩, .tick,
    .assert_triple ⟨10, 3, 11⟩, .tick, .retract_triple ⟨10, 1, 11⟩, .tick,
    .retract_triple ⟨10, 3, 11⟩, .tick]

/-- Rows 3 and 4 survive the run, each on the other alone. -/
theorem cycle_survives : ∃ c,
    (checked_run cyclicOps (start cyclicRules [])).run = .ok c ∧
      c.Present ⟨10, 3, 11⟩ ∧ ¬ Exact (PlannedRule.bodies cyclicRules) c := by
  have hrun : ((checked_run cyclicOps (start cyclicRules [])).returns_with fun c =>
      decide (0 < c.derived_base.get ⟨10, 3, 11⟩) && c.closure_plans.isEmpty &&
        c.asserted_base.iter.all fun e => decide (e.1.p = 2)) = true := by
    decide
  obtain ⟨c, hc, hrows⟩ := returns_with_iff.mp hrun
  rw [Bool.and_eq_true, Bool.and_eq_true, decide_eq_true_eq, List.all_eq_true] at hrows
  obtain ⟨⟨hderived, hplans⟩, hasserted⟩ := hrows
  refine ⟨c, hc, Or.inr hderived, fun hexact => ?_⟩
  -- Only the guard is asserted, and every rule needs one row that is not a guard.
  have hbase : ∀ t, c.Base t → t.p = 2 := by
    rintro t (ha | he)
    · exact of_decide_eq_true (hasserted (t, c.asserted_base.get t) (Zset.mem_iter.mpr ⟨ha.ne', rfl⟩))
    · rw [List.isEmpty_iff.mp hplans] at he
      exact absurd he.1 List.not_mem_nil
  have hguard := ((hexact _).mp (Or.inr hderived)).least (S := fun t => t.p = 2) hbase ?_
  · exact absurd hguard (by decide)
  · rintro ps t ⟨r, hr, σ, rfl, -⟩ hps
    simp only [cyclicRules, PlannedRule.bodies, guardedRule, edgePattern, List.map_cons,
      List.map_nil, List.mem_cons, List.not_mem_nil, or_false] at hr
    rcases hr with rfl | rfl | rfl
    · exact absurd (hps _ (List.mem_map_of_mem List.mem_cons_self)) (show ¬ 1 = 2 by decide)
    · exact absurd (hps _ (List.mem_map_of_mem List.mem_cons_self)) (show ¬ 3 = 2 by decide)
    · exact absurd (hps _ (List.mem_map_of_mem List.mem_cons_self)) (show ¬ 4 = 2 by decide)

end Circuit

end horndb.incremental
