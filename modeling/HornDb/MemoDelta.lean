-- What a planned delta does to the snapshot of a scope: it takes the triples of the scope before
-- the write to those after it.
import HornDb.SnapshotMemo

open horndb.wcoj (Triple VecTripleSource)

namespace horndb.sparql.exec.horn

variable {names : GraphNames} {snap : StoreSnapshot} {visible : Finset String}
  {dels adds : List Quad} {scope : SnapshotScope} {g : GraphId} {t : Triple}

theorem mem_rows_in {rows : List Quad} : t ∈ rows_in rows g ↔ (g, t) ∈ rows := by
  simp [rows_in]

theorem union_graph_eq_some (h : union_graph names snap visible = some g) :
    union_graphs names snap visible = [g] := by
  unfold union_graph at h
  split at h
  · rename_i hone
    cases h
    exact hone
  · cases h

/-- The rows in one graph, where the scope reads that graph before and after. -/
theorem delta_of_graph {before after : Finset Triple}
    (hbefore : ∀ t, t ∈ before ↔ (g, t) ∈ snap.quads)
    (hafter : ∀ t, t ∈ after ↔ (g, t) ∈ (snap.apply_quads dels adds).quads) :
    after = (before \ (rows_in dels g).toFinset) ∪ (rows_in adds g).toFinset := by
  refine Finset.ext fun t => ?_
  simp only [hafter, hbefore, Finset.mem_union, Finset.mem_sdiff, List.mem_toFinset, mem_rows_in,
    StoreSnapshot.mem_apply_quads]

/-- When every row is in the union's only graph, that graph was the whole union before. -/
theorem union_before (hone : union_graphs names (snap.apply_quads dels adds) visible = [g])
    (hrows : ∀ q ∈ dels ++ adds, q.1 = g) :
    t ∈ content names snap visible .DefaultUnion ↔ (g, t) ∈ snap.quads := by
  have hg : g ∈ union_graphs names (snap.apply_quads dels adds) visible := by simp [hone]
  rw [mem_content_union]
  constructor
  · rintro ⟨g', hvis, ht⟩
    by_cases hgg : g' = g
    · exact hgg ▸ ht
    · have hnot : (g', t) ∉ dels := fun hd =>
        hgg (hrows _ (List.mem_append_left adds hd))
      have : g' ∈ union_graphs names (snap.apply_quads dels adds) visible :=
        mem_union_graphs.mpr ⟨⟨t, StoreSnapshot.mem_apply_quads.mpr (Or.inl ⟨ht, hnot⟩)⟩, hvis⟩
      rw [hone, List.mem_singleton] at this
      exact absurd this hgg
  · exact fun ht => ⟨g, (mem_union_graphs.mp hg).2, ht⟩

theorem delta_graph_eq_some {graph : Option GraphId} {rows : List Quad}
    (h : delta_graph graph rows scope = some g) :
    scope = .DefaultStrict ∧ g = DEFAULT_GRAPH ∨
      scope = .DefaultUnion ∧ graph = some g ∧ ∀ q ∈ rows, q.1 = g := by
  cases scope with
  | DefaultStrict =>
    cases h
    exact Or.inl ⟨rfl, rfl⟩
  | DefaultUnion =>
    simp only [delta_graph] at h
    split at h
    · split at h
      · rename_i hall
        cases h
        exact Or.inr ⟨rfl, rfl, by simpa using hall⟩
      · cases h
    · cases h
  | FromUnion graphs => cases h
  | OneGraph g => cases h

theorem plan_scope_scope {graph : Option GraphId} {entry : SnapshotScope × Nat} {p : ScopeDelta}
    (h : plan_scope graph dels adds entry = some p) : p.scope = entry.1 := by
  unfold plan_scope at h
  split at h
  · cases h
  · dsimp only at h
    split at h <;> cases h
    rfl

/-- The delta of a scope takes what the scope held to what it holds. -/
theorem plan_scope_content {graph : Option GraphId} {entry : SnapshotScope × Nat} {p : ScopeDelta}
    (hgraph : entry.1 = .DefaultUnion →
      graph = union_graph names (snap.apply_quads dels adds) visible)
    (h : plan_scope graph dels adds entry = some p) :
    content names (snap.apply_quads dels adds) visible p.scope =
      (content names snap visible p.scope \ p.dels.toFinset) ∪ p.adds.toFinset := by
  unfold plan_scope at h
  split at h
  · cases h
  · rename_i g hg
    dsimp only at h
    split at h
    · cases h
    · cases h
      rcases delta_graph_eq_some hg with ⟨hscope, rfl⟩ | ⟨hscope, hsome, hrows⟩
      · rw [hscope]
        exact delta_of_graph (fun t => mem_content_strict) fun t => mem_content_strict
      · have hone := union_graph_eq_some ((hgraph hscope).symm.trans hsome)
        rw [hscope]
        exact delta_of_graph (fun t => union_before hone hrows)
          fun t => content_direct (by simp [direct_graph, hone])

/-! ## Merging -/

theorem mem_cached {memo : SnapshotMemo} {e : SnapshotScope × Nat} (h : e ∈ memo.cached) :
    ∃ src, memo.map e.1 = some src := by
  simp only [SnapshotMemo.cached, List.mem_filterMap, Option.map_eq_some_iff] at h
  obtain ⟨scope, _, src, hsrc, rfl⟩ := h
  exact ⟨src, hsrc⟩

theorem cached_scopes_nodup (memo : SnapshotMemo) : (memo.cached.map Prod.fst).Nodup := by
  unfold SnapshotMemo.cached SnapshotMemo.scopes
  rcases hu : memo.map .DefaultUnion with _ | u <;>
    rcases hs : memo.map .DefaultStrict with _ | s <;> simp [hu, hs]

/-- Plans of held scopes, no scope twice, are all merged, and nothing else is changed. -/
theorem merge_plans_spec {plans : List ScopeDelta} {memo : SnapshotMemo}
    (hnodup : (plans.map (·.scope)).Nodup)
    (hheld : ∀ p ∈ plans, ∃ src, memo.map p.scope = some src) :
    ∃ memo', merge_plans memo plans = (memo', true) ∧ memo'.version = memo.version ∧
      (∀ p ∈ plans, ∀ src, memo.map p.scope = some src →
        memo'.map p.scope = some (src.apply_delta p.dels p.adds)) ∧
      ∀ scope, (∀ p ∈ plans, p.scope ≠ scope) → memo'.map scope = memo.map scope := by
  induction plans generalizing memo with
  | nil => exact ⟨memo, rfl, rfl, fun p hp => absurd hp List.not_mem_nil, fun _ _ => rfl⟩
  | cons p plans ih =>
    rw [List.forall_mem_cons] at hheld
    rw [List.map_cons, List.nodup_cons] at hnodup
    obtain ⟨src, hsrc⟩ := hheld.1
    have hother : ∀ q ∈ plans, q.scope ≠ p.scope := fun q hq heq =>
      hnodup.1 (heq ▸ List.mem_map_of_mem hq)
    have hput : ∀ scope, scope ≠ p.scope →
        (memo.put p.scope (src.apply_delta p.dels p.adds)).map scope = memo.map scope :=
      fun scope hne => Function.update_of_ne hne _ _
    have hstill : ∀ q ∈ plans, ∃ src',
        (memo.put p.scope (src.apply_delta p.dels p.adds)).map q.scope = some src' := by
      intro q hq
      rw [hput q.scope (hother q hq)]
      exact hheld.2 q hq
    obtain ⟨memo', hmerge, hversion, hplanned, hkept⟩ := ih hnodup.2 hstill
    refine ⟨memo', ?_, hversion, ?_, ?_⟩
    · rw [merge_plans, hsrc]
      exact hmerge
    · rw [List.forall_mem_cons]
      constructor
      · intro src' hsrc'
        rw [hkept p.scope hother]
        rw [Option.some.inj (hsrc.symm.trans hsrc')]
        exact Function.update_self _ _ _
      · intro q hq src' hsrc'
        refine hplanned q hq src' ?_
        rw [hput q.scope (hother q hq)]
        exact hsrc'
    · intro scope hscope
      rw [List.forall_mem_cons] at hscope
      rw [hkept scope hscope.2, hput scope (Ne.symm hscope.1)]

/-- Every entry was planned, in order. -/
theorem mapM_planned {graph : Option GraphId} {entries : List (SnapshotScope × Nat)}
    {plans : List ScopeDelta} (h : entries.mapM (plan_scope graph dels adds) = some plans) :
    List.Forall₂ (fun e p => plan_scope graph dels adds e = some p) entries plans := by
  induction entries generalizing plans with
  | nil =>
    cases h
    exact List.Forall₂.nil
  | cons e entries ih =>
    rw [List.mapM_cons] at h
    obtain ⟨p, hp, h⟩ := Option.bind_eq_some_iff.mp h
    obtain ⟨rest, hrest, h⟩ := Option.bind_eq_some_iff.mp h
    cases h
    exact List.Forall₂.cons hp (ih hrest)

theorem planned_scopes {entries : List (SnapshotScope × Nat)} {plans : List ScopeDelta}
    {R : SnapshotScope × Nat → ScopeDelta → Prop} (hR : ∀ e p, R e p → p.scope = e.1)
    (h : List.Forall₂ R entries plans) : plans.map (·.scope) = entries.map Prod.fst ∧
      ∀ p ∈ plans, ∃ e ∈ entries, R e p := by
  induction h with
  | nil => exact ⟨rfl, fun p hp => absurd hp List.not_mem_nil⟩
  | @cons e p entries plans hep _ ih =>
    rw [List.map_cons, List.map_cons, ih.1, hR e p hep, List.forall_mem_cons]
    refine ⟨rfl, ⟨e, List.mem_cons_self, hep⟩, fun q hq => ?_⟩
    obtain ⟨e', he', hq'⟩ := ih.2 q hq
    exact ⟨e', List.mem_cons_of_mem e he', hq'⟩

/-- The writer drops a memo that is not of its start, or plans deltas of scopes that are held,
each right for its scope. -/
theorem plan_delta_cases {b : HornBackend} {base : Nat} (interned : Bool)
    (hmemo : b.snapshots.version ≤ base)
    (hpost : b.commits b.version = (b.commits base).apply_quads dels adds) :
    b.plan_delta names base dels adds interned = .Invalidate ∨
      ∃ plans, b.plan_delta names base dels adds interned = .Merge base plans ∧
        b.snapshots.version = base ∧ (plans.map (·.scope)).Nodup ∧
        ∀ p ∈ plans, (∃ src, b.snapshots.map p.scope = some src) ∧
          content names (b.commits b.version) b.visible_inferred p.scope =
            (content names (b.commits base) b.visible_inferred p.scope \ p.dels.toFinset) ∪
              p.adds.toFinset := by
  unfold HornBackend.plan_delta
  rw [if_neg (not_lt.mpr hmemo)]
  split
  · exact Or.inl rfl
  · split
    · exact Or.inl rfl
    · split
      · exact Or.inl rfl
      · dsimp only
        split
        · rename_i hge _ _ plans hplans
          set graph := if b.snapshots.cached.any fun e => e.1 = .DefaultUnion then
            union_graph names (b.commits b.version) b.visible_inferred else none with hgraph
          obtain ⟨hscopes, hplanned⟩ :=
            planned_scopes (fun e p => plan_scope_scope) (mapM_planned hplans)
          refine Or.inr ⟨plans, rfl, by omega, hscopes ▸ cached_scopes_nodup _, fun p hp => ?_⟩
          obtain ⟨e, he, hplan⟩ := hplanned p hp
          obtain ⟨src, hsrc⟩ := mem_cached he
          refine ⟨⟨src, plan_scope_scope hplan ▸ hsrc⟩, ?_⟩
          rw [hpost]
          refine plan_scope_content (fun hu => ?_) hplan
          rw [hgraph, if_pos (List.any_eq_true.mpr ⟨e, he, decide_eq_true hu⟩), hpost]
        · exact Or.inl rfl

end horndb.sparql.exec.horn
