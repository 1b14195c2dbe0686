-- The plans over machine words: the counts are signed words of 64 bits, and a table of bindings has
-- eight places. What such a run returns is what the plan over the integers gives.
import HornDb.Lib.Words
import HornDb.NaryPlan

open HornDb.Lib.Words HornDb.Lib.Words.Checked

namespace horndb.incremental

/-! ## Z-sets -/

namespace Zset

variable {K : Type} [Ord K] [Std.TransOrd K]

def checked_add (z : Zset K) (key : K) (delta : Int) : Checked (Zset K) :=
  if delta = 0 then pure z
  else do
    let _ ← i64 (z.get key + delta)
    pure (z.add key delta)

def checked_add_assign (z other : Zset K) : Checked (Zset K) :=
  other.iter.foldlM (fun z e => z.checked_add e.1 e.2) z

def checked_from_iter (it : List (K × Int)) : Checked (Zset K) :=
  it.foldlM (fun z e => z.checked_add e.1 e.2) new

@[simp]
theorem exact_add (z : Zset K) (key : K) (delta : Int) :
    (z.checked_add key delta).exact = some (z.add key delta) := by
  unfold checked_add
  by_cases hd : delta = 0
  · rw [if_pos hd, add, dif_pos hd, exact_pure]
  · rw [if_neg hd]
    rfl

@[simp]
theorem exact_add_assign (z other : Zset K) :
    (z.checked_add_assign other).exact = some (z.add_assign other) :=
  exact_foldlM (fun z (e : K × Int) => exact_add z e.1 e.2) other.iter z

@[simp]
theorem exact_from_iter (it : List (K × Int)) :
    (checked_from_iter it).exact = some (from_iter it) :=
  exact_foldlM (fun z (e : K × Int) => exact_add z e.1 e.2) it new

end Zset

/-! ## The extent -/

namespace PredExtent

def checked_add (ext : PredExtent) (t : TripleId) (delta : Int) : Checked PredExtent := do
  let _ ← ext.all.checked_add t delta
  let _ ← (ext.slice t.p).checked_add t delta
  pure (ext.add t delta)

def checked_add_assign (ext : PredExtent) (other : Zset TripleId) : Checked PredExtent :=
  other.iter.foldlM (fun ext e => ext.checked_add e.1 e.2) ext

@[simp]
theorem exact_add_assign (ext : PredExtent) (other : Zset TripleId) :
    (ext.checked_add_assign other).exact = some (ext.add_assign other) := by
  refine exact_foldlM (fun ext e => ?_) other.iter ext
  simp [checked_add]

end PredExtent

/-! ## The join of two patterns -/

/-- The variables that the table of bindings has a place for. -/
def MAX_VARS : Nat := 8

/-- The slots behind the first that does not match are not looked at. -/
def checked_bind_slots : List (Term × Nat) → Bindings → Checked (Option Bindings)
  | [], b => pure (some b)
  | (.Bound bound, val) :: rest, b =>
    if bound = val then checked_bind_slots rest b else pure none
  | (.Var v, val) :: rest, b => do
    index v MAX_VARS
    match b.set v val with
    | some b => checked_bind_slots rest b
    | none => pure none

def checked_bind_row (pattern : TriplePattern) (triple : TripleId) :
    Checked (Option Bindings) :=
  checked_bind_slots (pattern.slots triple) .default

def checked_filter_and_bind (pattern : TriplePattern) (input : Zset TripleId) :
    Checked (List (Bindings × Int)) := do
  let rows ← input.iter.mapM fun e => do
    let b ← checked_bind_row pattern e.1
    pure (b.map fun b => (b, e.2))
  pure (rows.filterMap id)

theorem exact_bind_slots (slots : List (Term × Nat)) :
    ∀ b : Bindings, (checked_bind_slots slots b).exact = some (bind_slots slots b) := by
  induction slots with
  | nil => exact fun b => rfl
  | cons e rest ih =>
    intro b
    obtain ⟨t, val⟩ := e
    cases t with
    | Bound bound =>
      rw [checked_bind_slots, bind_slots, exact_ite, ih, exact_pure]
      split
      · rfl
      · rfl
    | Var v =>
      rw [checked_bind_slots, bind_slots, exact_bind, exact_index, Option.bind_some]
      cases b.set v val with
      | none => rfl
      | some c => exact ih c

@[simp]
theorem exact_filter_and_bind (pattern : TriplePattern) (input : Zset TripleId) :
    (checked_filter_and_bind pattern input).exact = some (filter_and_bind pattern input) := by
  have hrows := exact_mapM
    (f := fun e : TripleId × Int => do
      let b ← checked_bind_row pattern e.1
      pure (b.map fun b => (b, e.2)))
    (g := fun e => (bind_row pattern e.1).map fun b => (b, e.2))
    (fun e => by
      rw [exact_bind, checked_bind_row, exact_bind_slots]
      rfl) input.iter
  rw [checked_filter_and_bind, exact_bind, hrows, Option.bind_some, exact_pure, filter_and_bind,
    List.filterMap_map]
  rfl

namespace HashJoinRule

variable (r : HashJoinRule)

/-- Both sides are bound before either is found empty. Each product is formed right before it is
added. -/
def checked_join (a b : Zset TripleId) : Checked (Zset TripleId) := do
  let left_rows ← checked_filter_and_bind r.left a
  let right_rows ← checked_filter_and_bind r.right b
  if left_rows.isEmpty || right_rows.isEmpty then pure .new
  else
    let shared := shared_vars r.left r.right
    let pairs :=
      if left_rows.length ≤ right_rows.length then
        right_rows.flatMap fun probe =>
          (left_rows.filter fun build => key_of build.1 shared == key_of probe.1 shared).map
            fun build => (eval_head r.head (build.1.merge probe.1), build.2, probe.2)
      else
        left_rows.flatMap fun probe =>
          (right_rows.filter fun build => key_of build.1 shared == key_of probe.1 shared).map
            fun build => (eval_head r.head (probe.1.merge build.1), probe.2, build.2)
    pairs.foldlM (fun out e => do
      let mult ← i64 (e.2.1 * e.2.2)
      out.checked_add e.1 mult) .new

def checked_full (a b : Zset TripleId) : Checked (Zset TripleId) := r.checked_join a b

def checked_delta (a b da db : Zset TripleId) : Checked (Zset TripleId) := do
  let out ← r.checked_join da b
  let out ← out.checked_add_assign (← r.checked_join a db)
  out.checked_add_assign (← r.checked_join da db)

@[simp]
theorem exact_join (a b : Zset TripleId) : (r.checked_join a b).exact = some (r.join a b) := by
  have hpairs : ∀ pairs : List (TripleId × Int × Int),
      (pairs.foldlM (fun (out : Zset TripleId) (e : TripleId × Int × Int) => do
        let mult ← i64 (e.2.1 * e.2.2)
        out.checked_add e.1 mult) .new).exact =
      some (Zset.from_iter (pairs.map fun e => (e.1, e.2.1 * e.2.2))) := by
    intro pairs
    rw [Zset.from_iter, List.foldl_map]
    refine exact_foldlM (fun out e => ?_) pairs _
    rw [exact_bind, exact_i64, Option.bind_some, Zset.exact_add]
  unfold checked_join join
  simp only [exact_bind, exact_filter_and_bind, Option.bind_some, exact_ite, exact_pure, hpairs]
  split
  · rfl
  · split
    · rw [List.map_flatMap]
      simp only [List.map_map]
      rfl
    · rw [List.map_flatMap]
      simp only [List.map_map]
      rfl

@[simp]
theorem exact_full (a b : Zset TripleId) :
    (r.checked_full a b).exact = some (r.apply_full a b) := r.exact_join a b

@[simp]
theorem exact_delta (a b da db : Zset TripleId) :
    (r.checked_delta a b da db).exact = some (r.apply_delta a b da db) := by
  simp [checked_delta, apply_delta]

end HashJoinRule

/-! ## Plans -/

namespace NaryPlan

def checked_first_full (rule : HashJoinRule) (base : PredExtent) : Checked (Zset TripleId) :=
  rule.checked_full (leaf base rule.body_predicates.1) (leaf base rule.body_predicates.2)

def checked_next_full (base : PredExtent) (intermediate : Zset TripleId) (rule : HashJoinRule) :
    Checked (Zset TripleId) :=
  rule.checked_full intermediate (leaf base rule.body_predicates.2)

def checked_full (plan : NaryPlan) (base : PredExtent) : Checked (Zset TripleId) :=
  match plan.joins with
  | [] => pure base.all
  | first :: rest => do
    let intermediate ← checked_first_full first base
    rest.foldlM (checked_next_full base) intermediate

def checked_first_delta (rule : HashJoinRule) (base delta_ext : PredExtent) :
    Checked (Zset TripleId) :=
  rule.checked_delta (leaf base rule.body_predicates.1) (leaf base rule.body_predicates.2)
    (leaf delta_ext rule.body_predicates.1) (leaf delta_ext rule.body_predicates.2)

def checked_next_delta (base delta_ext : PredExtent) (int_base int_delta : Zset TripleId)
    (rule : HashJoinRule) : Checked (Zset TripleId) :=
  rule.checked_delta int_base (leaf base rule.body_predicates.2) int_delta
    (leaf delta_ext rule.body_predicates.2)

/-- The rows of the delta are put into an extent that has none of them, where no sum overflows. -/
def checked_delta (plan : NaryPlan) (base : PredExtent) (delta : Zset TripleId) :
    Checked (Zset TripleId) :=
  match plan.joins with
  | [] => pure delta
  | first :: rest => do
    let delta_ext := PredExtent.from_zset delta
    let int_base ← checked_first_full first base
    let int_delta ← checked_first_delta first base delta_ext
    let acc ← rest.foldlM
      (fun (acc : Zset TripleId × Zset TripleId) rule => do
        let next_base ← checked_next_full base acc.1 rule
        let next_delta ← checked_next_delta base delta_ext acc.1 acc.2 rule
        pure (next_base, next_delta))
      (int_base, int_delta)
    pure acc.2

/-- The last join of a plan hands nothing on, so its full result is not needed. -/
def checked_intermediates (base : PredExtent) :
    Zset TripleId → List HashJoinRule → Checked (List (Zset TripleId))
  | _, [] => pure []
  | prev, [_] => pure [prev]
  | prev, rule :: rules => do
    let next ← checked_next_full base prev rule
    let later ← checked_intermediates base next rules
    pure (prev :: later)

def checked_delta_levels (base delta_ext : PredExtent) :
    List HashJoinRule → List (Zset TripleId) → Zset TripleId →
      Checked (List (Zset TripleId) × Zset TripleId)
  | [], state, prev_delta => pure (state, prev_delta)
  | _ :: _, [], prev_delta => do
    index 0 0
    pure ([], prev_delta)
  | rule :: rules, s :: state, prev_delta => do
    let next_delta ← checked_next_delta base delta_ext s prev_delta rule
    let s ← s.checked_add_assign prev_delta
    let (state, out) ← checked_delta_levels base delta_ext rules state next_delta
    pure (s :: state, out)

/-- The state that the plan keeps, or that it builds up on its first call. -/
def checked_state (plan : NaryPlan) (base : PredExtent) (first : HashJoinRule)
    (rest : List HashJoinRule) : Checked (List (Zset TripleId)) :=
  match plan.state with
  | some state => pure state
  | none =>
    if rest.isEmpty then pure []
    else do
      let prev ← checked_first_full first base
      checked_intermediates base prev rest

def checked_delta_stateful (plan : NaryPlan) (base : PredExtent) (delta : Zset TripleId) :
    Checked (NaryPlan × Zset TripleId) :=
  match plan.joins with
  | [] => pure (plan, delta)
  | first :: rest => do
    let delta_ext := PredExtent.from_zset delta
    let state ← plan.checked_state base first rest
    let prev_delta ← checked_first_delta first base delta_ext
    let (state, out) ← checked_delta_levels base delta_ext rest state prev_delta
    pure ({ plan with state := some state }, out)

section Exact

@[simp]
theorem exact_first_full (rule : HashJoinRule) (base : PredExtent) :
    (checked_first_full rule base).exact = some (first_full rule base) :=
  rule.exact_full _ _

@[simp]
theorem exact_next_full (base : PredExtent) (int : Zset TripleId) (rule : HashJoinRule) :
    (checked_next_full base int rule).exact = some (next_full base int rule) :=
  rule.exact_full _ _

@[simp]
theorem exact_first_delta (rule : HashJoinRule) (base delta_ext : PredExtent) :
    (checked_first_delta rule base delta_ext).exact = some (first_delta rule base delta_ext) :=
  rule.exact_delta _ _ _ _

@[simp]
theorem exact_next_delta (base delta_ext : PredExtent) (int d : Zset TripleId)
    (rule : HashJoinRule) :
    (checked_next_delta base delta_ext int d rule).exact =
      some (next_delta base delta_ext int d rule) :=
  rule.exact_delta _ _ _ _

@[simp]
theorem exact_full (plan : NaryPlan) (base : PredExtent) :
    (plan.checked_full base).exact = some (plan.apply_full base) := by
  unfold checked_full apply_full
  cases plan.joins with
  | nil => rfl
  | cons first rest =>
    dsimp only
    rw [exact_bind, exact_first_full, Option.bind_some]
    exact exact_foldlM (exact_next_full base) rest _

@[simp]
theorem exact_delta (plan : NaryPlan) (base : PredExtent) (delta : Zset TripleId) :
    (plan.checked_delta base delta).exact = some (plan.apply_delta base delta) := by
  unfold checked_delta apply_delta
  cases plan.joins with
  | nil => rfl
  | cons first rest =>
    dsimp only
    rw [exact_bind, exact_first_full, Option.bind_some, exact_bind, exact_first_delta,
      Option.bind_some, exact_bind]
    rw [exact_foldlM (g := fun (acc : Zset TripleId × Zset TripleId) rule =>
      (next_full base acc.1 rule, next_delta base (PredExtent.from_zset delta) acc.1 acc.2 rule))]
    · rfl
    · intro acc rule
      simp

theorem exact_intermediates (base : PredExtent) (rules : List HashJoinRule) :
    ∀ prev, (checked_intermediates base prev rules).exact =
      some (intermediates base prev rules) := by
  induction rules with
  | nil => exact fun prev => rfl
  | cons rule rules ih =>
    intro prev
    cases rules with
    | nil => rfl
    | cons next rules =>
      rw [checked_intermediates, intermediates]
      · simp [ih]
      · simp

theorem exact_delta_levels (base delta_ext : PredExtent) (rules : List HashJoinRule) :
    ∀ state prev_delta, (checked_delta_levels base delta_ext rules state prev_delta).exact =
      some (delta_levels base delta_ext rules state prev_delta) := by
  induction rules with
  | nil => exact fun state prev_delta => rfl
  | cons rule rules ih =>
    intro state prev_delta
    cases state with
    | nil => rfl
    | cons s state =>
      rw [checked_delta_levels, delta_levels]
      simp [ih]

theorem exact_state (plan : NaryPlan) (base : PredExtent) (first : HashJoinRule)
    (rest : List HashJoinRule) : (plan.checked_state base first rest).exact =
      some (plan.state.getD (intermediates base (first_full first base) rest)) := by
  unfold checked_state
  cases plan.state with
  | some state => rfl
  | none =>
    cases rest with
    | nil => rfl
    | cons rule rest => simp [exact_intermediates]

@[simp]
theorem exact_delta_stateful (plan : NaryPlan) (base : PredExtent) (delta : Zset TripleId) :
    (plan.checked_delta_stateful base delta).exact =
      some (plan.apply_delta_stateful base delta) := by
  unfold checked_delta_stateful apply_delta_stateful
  cases plan.joins with
  | nil => rfl
  | cons first rest =>
    dsimp only
    rw [exact_bind, exact_state, Option.bind_some, exact_bind, exact_first_delta, Option.bind_some,
      exact_bind, exact_delta_levels]
    rfl

end Exact

end NaryPlan

/-! ## Rules whose variables the table holds -/

/-- All the variables of the pattern are in the table. -/
def Small (q : TriplePattern) : Prop := ∀ v ∈ vars_in q, v < MAX_VARS

theorem Zset.add_in_table {K : Type} [Ord K] [Std.TransOrd K] (z : Zset K) (key : K)
    (delta : Int) : (z.checked_add key delta).Avoids .index := by
  unfold checked_add
  split
  · exact avoids_pure z
  · exact (avoids_i64 (e := .index) nofun).bind fun _ _ => avoids_pure _

theorem Zset.add_assign_in_table {K : Type} [Ord K] [Std.TransOrd K] (z other : Zset K) :
    (z.checked_add_assign other).Avoids .index :=
  avoids_foldlM (fun _ _ z => z.add_in_table _ _) z

theorem bind_slots_in_table {slots : List (Term × Nat)}
    (h : ∀ e ∈ slots, ∀ v, e.1 = .Var v → v < MAX_VARS) :
    ∀ b : Bindings, (checked_bind_slots slots b).Avoids .index := by
  induction slots with
  | nil => exact fun b => avoids_pure _
  | cons e rest ih =>
    intro b
    rw [List.forall_mem_cons] at h
    obtain ⟨t, val⟩ := e
    cases t with
    | Bound bound =>
      rw [checked_bind_slots]
      split
      · exact ih h.2 b
      · exact avoids_pure _
    | Var v =>
      rw [checked_bind_slots]
      refine (avoids_index fun _ => h.1 v rfl).bind fun _ _ => ?_
      cases b.set v val with
      | none => exact avoids_pure _
      | some c => exact ih h.2 c

theorem filter_and_bind_in_table {q : TriplePattern} (h : Small q) (input : Zset TripleId) :
    (checked_filter_and_bind q input).Avoids .index := by
  refine (avoids_mapM (fun e => ?_) _).bind fun _ _ => avoids_pure _
  refine (bind_slots_in_table (fun slot hslot v hv => ?_) _).bind fun _ _ => avoids_pure _
  exact h v (slot_vars_slots.mp ⟨slot.2, by rw [← hv]; exact hslot⟩)

namespace HashJoinRule

def Small (r : HashJoinRule) : Prop := incremental.Small r.left ∧ incremental.Small r.right

theorem join_in_table {r : HashJoinRule} (h : r.Small) (a b : Zset TripleId) :
    (r.checked_join a b).Avoids .index := by
  refine (filter_and_bind_in_table h.1 a).bind fun _ _ => ?_
  refine (filter_and_bind_in_table h.2 b).bind fun _ _ => ?_
  split
  · exact avoids_pure _
  · refine avoids_foldlM (fun e _ out => ?_) _
    exact (avoids_i64 (e := .index) nofun).bind fun _ _ => out.add_in_table _ _

theorem delta_in_table {r : HashJoinRule} (h : r.Small) (a b da db : Zset TripleId) :
    (r.checked_delta a b da db).Avoids .index := by
  refine (join_in_table h da b).bind fun out _ => (join_in_table h a db).bind fun _ _ => ?_
  refine (out.add_assign_in_table _).bind fun out _ => (join_in_table h da db).bind fun _ _ => ?_
  exact out.add_assign_in_table _

end HashJoinRule

namespace NaryPlan

theorem full_in_table {plan : NaryPlan} (h : ∀ r ∈ plan.joins, r.Small) (base : PredExtent) :
    (plan.checked_full base).Avoids .index := by
  unfold checked_full
  cases hjoins : plan.joins with
  | nil => exact avoids_pure _
  | cons first rest =>
    rw [hjoins, List.forall_mem_cons] at h
    refine (HashJoinRule.join_in_table h.1 _ _).bind fun _ _ => ?_
    exact avoids_foldlM (fun r hr _ => HashJoinRule.join_in_table (h.2 r hr) _ _) _

theorem delta_in_table {plan : NaryPlan} (h : ∀ r ∈ plan.joins, r.Small) (base : PredExtent)
    (delta : Zset TripleId) : (plan.checked_delta base delta).Avoids .index := by
  unfold checked_delta
  cases hjoins : plan.joins with
  | nil => exact avoids_pure _
  | cons first rest =>
    rw [hjoins, List.forall_mem_cons] at h
    refine (HashJoinRule.join_in_table h.1 _ _).bind fun _ _ => ?_
    refine (HashJoinRule.delta_in_table h.1 _ _ _ _).bind fun _ _ => ?_
    refine (avoids_foldlM (fun r hr acc => ?_) _).bind fun _ _ => avoids_pure _
    refine (HashJoinRule.join_in_table (h.2 r hr) _ _).bind fun _ _ => ?_
    exact (HashJoinRule.delta_in_table (h.2 r hr) _ _ _ _).bind fun _ _ => avoids_pure _

theorem intermediates_in_table (base : PredExtent) {rules : List HashJoinRule}
    (h : ∀ r ∈ rules, r.Small) : ∀ prev, (checked_intermediates base prev rules).Avoids .index := by
  induction rules with
  | nil => exact fun prev => avoids_pure _
  | cons rule rules ih =>
    intro prev
    rw [List.forall_mem_cons] at h
    cases rules with
    | nil => exact avoids_pure _
    | cons next rules =>
      rw [checked_intermediates]
      · refine (HashJoinRule.join_in_table h.1 _ _).bind fun _ _ => ?_
        exact (ih h.2 _).bind fun _ _ => avoids_pure _
      · simp

theorem delta_levels_in_table (base delta_ext : PredExtent) {rules : List HashJoinRule}
    (h : ∀ r ∈ rules, r.Small) : ∀ state prev_delta, state.length = rules.length →
      (checked_delta_levels base delta_ext rules state prev_delta).Avoids .index := by
  induction rules with
  | nil => exact fun state prev_delta _ => avoids_pure _
  | cons rule rules ih =>
    intro state prev_delta hlen
    rw [List.forall_mem_cons] at h
    cases state with
    | nil => cases hlen
    | cons s state =>
      rw [checked_delta_levels]
      refine (HashJoinRule.delta_in_table h.1 _ _ _ _).bind fun _ _ => ?_
      refine (s.add_assign_in_table _).bind fun _ _ => ?_
      exact (ih h.2 state _ (Nat.succ.inj hlen)).bind fun _ _ => avoids_pure _

end NaryPlan

end horndb.incremental
