-- A write that the sink refuses: the pairs and the base edges that the call added go
-- again, whatever the maps held before, and the same batch infers the same pairs later.
import HornDb.ClosureSink

open HornDb.Lib Std
open horndb.closure.dense_id horndb.closure.incremental
open horndb.incremental (TripleId)

namespace horndb.closure.incremental.IncrementalTransitiveClosure

/-! ## Maps with the same pairs -/

/-- The maps of the two closures hold the same pairs. One may keep an empty set where
the other has no entry. -/
structure Agrees (c c' : IncrementalTransitiveClosure) : Prop where
  fwd : ∀ x y, c'.fwd.has x y = c.fwd.has x y
  bwd : ∀ y x, c'.bwd.has y x = c.bwd.has y x
  base : ∀ s o, c'.base.has s o = c.base.has s o
  bwd_base : ∀ o s, c'.bwd_base.has o s = c.bwd_base.has o s
  nnz : c'.nnz = c.nnz
  strategy : c'.strategy = c.strategy

theorem Agrees.refl (c : IncrementalTransitiveClosure) : Agrees c c :=
  ⟨fun _ _ => rfl, fun _ _ => rfl, fun _ _ => rfl, fun _ _ => rfl, rfl, rfl⟩

/-- Where the backward maps are the inverses, the forward maps decide the rest. -/
theorem Indexed.agrees {c c' : IncrementalTransitiveClosure} (hc : c.Indexed) (hc' : c'.Indexed)
    (hclosed : ∀ x y, c'.Closed x y ↔ c.Closed x y) (hedge : ∀ s o, c'.Edge s o ↔ c.Edge s o)
    (hstrategy : c'.strategy = c.strategy) : Agrees c c' := by
  refine ⟨?_, ?_, ?_, ?_, ?_, hstrategy⟩
  · intro x y
    exact Bool.eq_iff_iff.mpr (hclosed x y)
  · intro y x
    exact Bool.eq_iff_iff.mpr (by rw [hc'.backward, hc.backward, hclosed])
  · intro s o
    exact Bool.eq_iff_iff.mpr (hedge s o)
  · intro o s
    exact Bool.eq_iff_iff.mpr (by rw [hc'.base_backward, hc.base_backward, hedge])
  · have hpairs : c'.fwd.pairs = c.fwd.pairs := by
      apply Finset.ext
      rintro ⟨x, y⟩
      rw [Adjacency.mem_pairs, Adjacency.mem_pairs]
      exact hclosed x y
    rw [hc'.counted, hc.counted, hpairs]

theorem add_agrees {a a' : Adjacency Nat} (h : ∀ x y, a'.has x y = a.has x y) (x y u v : Nat) :
    (a'.add x y).has u v = (a.add x y).has u v := by
  apply Bool.eq_iff_iff.mpr
  rw [Adjacency.has_add, Adjacency.has_add, h]

variable {c c' : IncrementalTransitiveClosure}

theorem Agrees.add_closed (h : Agrees c c') (x y : Nat) :
    Agrees (c.add_closed x y) (c'.add_closed x y) := by
  unfold IncrementalTransitiveClosure.add_closed
  rw [h.fwd]
  split
  · exact h
  · exact ⟨add_agrees h.fwd x y, add_agrees h.bwd y x, h.base, h.bwd_base,
      congrArg (· + 1) h.nnz, h.strategy⟩

theorem Agrees.insert_base_edge (h : Agrees c c') (s o : Nat) :
    Agrees (c.insert_base_edge s o).1 (c'.insert_base_edge s o).1 ∧
      (c'.insert_base_edge s o).2 = (c.insert_base_edge s o).2 := by
  unfold IncrementalTransitiveClosure.insert_base_edge
  rw [h.base]
  split
  · exact ⟨h, rfl⟩
  · exact ⟨⟨h.fwd, h.bwd, add_agrees h.base s o, add_agrees h.bwd_base o s, h.nnz,
      h.strategy⟩, rfl⟩

theorem Agrees.insert_pairs (ps : List (Nat × Nat)) :
    ∀ {c c' : IncrementalTransitiveClosure} (_ : Agrees c c') (delta : List (Nat × Nat)),
      Agrees (ps.foldl insert_pair (c, delta)).1 (ps.foldl insert_pair (c', delta)).1 ∧
        (ps.foldl insert_pair (c', delta)).2 = (ps.foldl insert_pair (c, delta)).2 := by
  induction ps with
  | nil => exact fun h _ => ⟨h, rfl⟩
  | cons p ps ih =>
    intro c c' h delta
    rw [List.foldl_cons, List.foldl_cons]
    unfold insert_pair
    rw [h.fwd]
    split
    · exact ih h delta
    · exact ih (h.add_closed p.1 p.2) (delta ++ [p])

/-- Closures that agree infer the same pairs, in the same order. -/
theorem Agrees.insert_edge_tracked (h : Agrees c c') (s o : Nat) :
    Agrees (c.insert_edge_tracked s o).1 (c'.insert_edge_tracked s o).1 ∧
      (c'.insert_edge_tracked s o).2 = (c.insert_edge_tracked s o).2 := by
  obtain ⟨hbase, hnew⟩ := h.insert_base_edge s o
  unfold IncrementalTransitiveClosure.insert_edge_tracked
  dsimp only
  rw [Adjacency.neighbors_congr (hbase.bwd s), Adjacency.neighbors_congr (hbase.fwd o), hnew]
  obtain ⟨hpairs, hdelta⟩ := Agrees.insert_pairs
    ((((c.insert_base_edge s o).1.bwd.neighbors s ++ [s]).flatMap fun x =>
      ((c.insert_base_edge s o).1.fwd.neighbors o ++ [o]).map fun y => (x, y))) hbase []
  exact ⟨hpairs, by rw [hdelta]⟩

end horndb.closure.incremental.IncrementalTransitiveClosure

namespace horndb.closure.sink

open IncrementalTransitiveClosure

/-! ## A run of inserts and its rollback -/

/-- What a run of inserts has added to the closure it started from. -/
structure Tracked (c : IncrementalTransitiveClosure) (run : InsertRun) : Prop where
  indexed : run.inner.Indexed
  closed : ∀ x y, run.inner.Closed x y ↔ c.Closed x y ∨ (x, y) ∈ run.delta
  delta_new : ∀ x y, (x, y) ∈ run.delta → ¬c.Closed x y
  edge : ∀ s o, run.inner.Edge s o ↔ c.Edge s o ∨ (s, o) ∈ run.new_base_edges
  base_new : ∀ s o, (s, o) ∈ run.new_base_edges → ¬c.Edge s o
  strategy : run.inner.strategy = c.strategy

variable {c : IncrementalTransitiveClosure}

theorem Tracked.none (hc : c.Indexed) : Tracked c ⟨c, [], []⟩ :=
  ⟨hc, by simp, by simp, by simp, by simp, rfl⟩

/-- What one insert adds, each thing named if it was new. -/
theorem insert_edge_tracked_adds (hc : c.Indexed) (s o : Nat) :
    let out := c.insert_edge_tracked s o
    out.1.Indexed ∧ (∀ x y, out.1.Closed x y ↔ c.Closed x y ∨ (x, y) ∈ out.2.1) ∧
      (∀ x y, (x, y) ∈ out.2.1 → ¬c.Closed x y) ∧
      (∀ u v, out.1.Edge u v ↔ c.Edge u v ∨ (u = s ∧ v = o)) ∧
      (out.2.2 = true ↔ ¬c.Edge s o) ∧ out.1.strategy = c.strategy := by
  obtain ⟨hfwd, hbwd, hstrat⟩ := insert_base_edge_closed c s o
  have hedge := insert_base_edge_edge c s o
  have hindexed := insert_base_edge_indexed hc s o
  have hnew : (c.insert_base_edge s o).2 = true ↔ ¬c.Edge s o := by
    unfold insert_base_edge
    split <;> simp_all
  have hrun : ∀ ps : List (Nat × Nat), Inserted (c.insert_base_edge s o).1 ([] ++ ps)
      (ps.foldl insert_pair ((c.insert_base_edge s o).1, [])) := fun ps =>
    insert_pairs_inserted ps ⟨.refl _, hindexed, by simp, by simp, List.nodup_nil⟩
  unfold insert_edge_tracked
  dsimp only
  generalize List.flatMap _ _ = ps
  have hins := hrun ps
  have hclosed : ∀ x y, (c.insert_base_edge s o).1.Closed x y ↔ c.Closed x y := fun x y => by
    rw [Closed, hfwd]
  refine ⟨hins.indexed, ?_, ?_, ?_, hnew, hins.same.strategy.trans hstrat⟩
  · intro x y
    rw [hins.delta, hclosed]
    have hgrows := hins.closed x y
    rw [hclosed] at hgrows
    tauto
  · intro x y hxy
    rw [hins.delta, hclosed] at hxy
    exact hxy.2
  · intro u v
    rw [hins.same.edge, hedge, Reach.WithEdge, or_comm]

theorem Tracked.step {run : InsertRun} (h : Tracked c run) (e : Nat × Nat) :
    Tracked c (insert_run_step run e) := by
  obtain ⟨hindexed, hclosed, hdelta, hedge, hflag, hstrat⟩ :=
    insert_edge_tracked_adds h.indexed e.1 e.2
  unfold insert_run_step
  dsimp only
  refine ⟨hindexed, ?_, ?_, ?_, ?_, hstrat.trans h.strategy⟩
  · intro x y
    rw [hclosed, h.closed, List.mem_append, or_assoc]
  · intro x y hxy
    rcases List.mem_append.mp hxy with hold | hadd
    · exact h.delta_new x y hold
    · exact fun hc => hdelta x y hadd ((h.closed x y).mpr (Or.inl hc))
  · intro s o
    rw [hedge, h.edge]
    split
    · rw [List.mem_append, List.mem_singleton, or_assoc]
      simp [Prod.ext_iff]
    · rename_i hold
      have hhas : run.inner.Edge e.1 e.2 := by
        by_contra hno
        exact hold (hflag.mpr hno)
      constructor
      · rintro (hs | ⟨rfl, rfl⟩)
        · exact hs
        · exact (h.edge _ _).mp hhas
      · exact Or.inl
  · intro s o hso
    split at hso
    · rename_i hnew
      rcases List.mem_append.mp hso with hold | hadd
      · exact h.base_new s o hold
      · rw [List.mem_singleton] at hadd
        intro hc
        have hhas : run.inner.Edge e.1 e.2 := (h.edge e.1 e.2).mpr (Or.inl (hadd ▸ hc))
        exact hflag.mp hnew hhas
    · exact h.base_new s o hso

theorem tracked_run (hc : c.Indexed) (es : List (Nat × Nat)) :
    Tracked c (es.foldl insert_run_step ⟨c, [], []⟩) := by
  have hfold : ∀ (es : List (Nat × Nat)) (run : InsertRun), Tracked c run →
      Tracked c (es.foldl insert_run_step run) := by
    intro es
    induction es with
    | nil => exact fun _ h => h
    | cons e es ih => exact fun run h => ih _ (h.step e)
  exact hfold es _ (.none hc)

theorem rollback_base_edges_drops (es : List (Nat × Nat)) :
    ∀ {c : IncrementalTransitiveClosure}, c.Indexed →
      (c.rollback_base_edges es).Indexed ∧ (c.rollback_base_edges es).fwd = c.fwd ∧
        (c.rollback_base_edges es).strategy = c.strategy ∧
        ∀ s o, (c.rollback_base_edges es).Edge s o ↔ c.Edge s o ∧ (s, o) ∉ es := by
  induction es with
  | nil => exact fun hc => ⟨hc, rfl, rfl, by simp [rollback_base_edges]⟩
  | cons e es ih =>
    intro c hc
    have hdrop : ({ c with
        base := (c.base.drop e.1 e.2).prune e.1
        bwd_base := (c.bwd_base.drop e.2 e.1).prune e.2 } :
          IncrementalTransitiveClosure).Indexed := by
      refine ⟨hc.backward, fun u v => ?_, hc.counted⟩
      have := hc.base_backward u v
      simp only [Edge, Adjacency.has_prune, Adjacency.has_drop] at *
      rw [this]
      tauto
    obtain ⟨hindexed, hfwd, hstrat, hedge⟩ := ih hdrop
    refine ⟨hindexed, hfwd, hstrat, fun s o => ?_⟩
    have hone : ((c.base.drop e.1 e.2).prune e.1).has s o = true ↔
        ¬(s = e.1 ∧ o = e.2) ∧ c.Edge s o := by
      rw [Adjacency.has_prune, Adjacency.has_drop]
    refine (hedge s o).trans ((and_congr_left' hone).trans ?_)
    rw [List.mem_cons, Prod.ext_iff]
    tauto

/-- Dropping what a run added gives back the maps it started from. -/
theorem Tracked.rolled_back {run : InsertRun} (hc : c.Indexed) (h : Tracked c run) :
    ((run.inner.rollback_inserted run.delta).rollback_base_edges run.new_base_edges).Indexed ∧
      c.Agrees ((run.inner.rollback_inserted run.delta).rollback_base_edges
        run.new_base_edges) := by
  obtain ⟨hsame, hpairs, hclosed⟩ := drop_all_closed run.delta h.indexed
  rw [rollback_inserted]
  obtain ⟨hindexed, hfwd, hstrat, hedge⟩ := rollback_base_edges_drops run.new_base_edges hpairs
  refine ⟨hindexed, hc.agrees hindexed ?_ ?_ ?_⟩
  · intro x y
    rw [Closed, hfwd]
    refine (hclosed x y).trans ?_
    rw [h.closed]
    have := h.delta_new x y
    tauto
  · intro s o
    rw [hedge, hsame.edge, h.edge]
    have := h.base_new s o
    tauto
  · rw [hstrat, hsame.strategy, h.strategy]

/-- Runs over closures that agree infer the same. -/
theorem run_agrees (es : List (Nat × Nat)) :
    ∀ {c c' : IncrementalTransitiveClosure} (_ : c.Agrees c') (delta base : List (Nat × Nat)),
      (es.foldl insert_run_step ⟨c', delta, base⟩).delta =
        (es.foldl insert_run_step ⟨c, delta, base⟩).delta := by
  induction es with
  | nil => exact fun _ _ _ => rfl
  | cons e es ih =>
    intro c c' h delta base
    obtain ⟨hagrees, hout⟩ := h.insert_edge_tracked e.1 e.2
    have hstep : insert_run_step ⟨c', delta, base⟩ e =
        ⟨(c'.insert_edge_tracked e.1 e.2).1,
          (insert_run_step ⟨c, delta, base⟩ e).delta,
          (insert_run_step ⟨c, delta, base⟩ e).new_base_edges⟩ := by
      simp only [insert_run_step, hout]
    rw [List.foldl_cons, List.foldl_cons, hstep]
    exact ih hagrees _ _

/-! ## What a deletion keeps -/

/-- The backward maps stay the inverses and no base edge comes. -/
def Shrunk (c c' : IncrementalTransitiveClosure) : Prop :=
  c'.Indexed ∧ ∀ s o, c'.Edge s o → c.Edge s o

theorem Shrunk.of_same {d : IncrementalTransitiveClosure} (h : Shrunk c d)
    {d' : IncrementalTransitiveClosure} (hindexed : d'.Indexed) (hsame : SameBase d d') :
    Shrunk c d' := by
  refine ⟨hindexed, fun s o hso => h.2 s o ?_⟩
  rw [hsame.edge] at hso
  exact hso

theorem remove_base_edge_shrunk (hc : c.Indexed) (s o : Nat) :
    Shrunk c (c.remove_base_edge s o).1 := by
  by_cases hbase : c.Edge s o
  · obtain ⟨c', hrem, h'⟩ := remove_base_edge_present hc hbase
    rw [hrem]
    refine ⟨h'.indexed, fun u v huv => ?_⟩
    rw [h'.edge] at huv
    exact huv.2
  · rw [remove_base_edge_absent hbase]
    exact ⟨hc, fun _ _ h => h⟩

theorem over_delete_shrunk {d : IncrementalTransitiveClosure} (h : Shrunk c d)
    (queue : List (Nat × Nat)) : Shrunk c (d.over_delete queue).state := by
  refine Worklist.drain_keeps (I := fun st : OverDelete => Shrunk c st.state) ?_ _ _ _ h
  intro p st hst
  unfold over_delete_turn
  split
  · exact hst
  · dsimp only
    split
    · exact hst
    · have hprobe : Shrunk c { st.state with
          last_delete_probes := st.state.last_delete_probes + 1 } :=
        ⟨⟨hst.1.backward, hst.1.base_backward, hst.1.counted⟩, hst.2⟩
      exact hprobe.of_same (drop_closed_indexed hprobe.1 p.1 p.2) (drop_closed_same _ p.1 p.2)

theorem re_derive_shrunk {d : IncrementalTransitiveClosure} (h : Shrunk c d)
    (dropped : List (Nat × Nat)) : Shrunk c (d.re_derive dropped) := by
  refine Worklist.drain_keeps (I := Shrunk c) ?_ _ _ _ h
  intro p d hd
  unfold re_derive_turn
  split
  · exact hd
  · have hprobe : Shrunk c { d with last_delete_probes := d.last_delete_probes + 1 } :=
      ⟨⟨hd.1.backward, hd.1.base_backward, hd.1.counted⟩, hd.2⟩
    dsimp only
    split
    · exact hprobe.of_same (add_closed_indexed hprobe.1 p.1 p.2) (add_closed_same _ p.1 p.2)
    · exact hprobe

theorem delete_edge_shrunk (hc : c.Indexed) (s o : Nat) : Shrunk c (c.delete_edge s o).1 := by
  have hprobe : Shrunk c { c with last_delete_probes := 0 } :=
    ⟨⟨hc.backward, hc.base_backward, hc.counted⟩, fun _ _ h => h⟩
  have hremoved := remove_base_edge_shrunk hprobe.1 s o
  unfold delete_edge
  dsimp only
  split
  · unfold delete_edge_support_counting
    generalize IncrementalTransitiveClosure.remove_base_edge _ s o = removed at hremoved
    dsimp only
    split
    · exact hremoved
    · exact re_derive_shrunk (over_delete_shrunk hremoved _) _
  · unfold delete_edge_recompute
    generalize IncrementalTransitiveClosure.remove_base_edge _ s o = removed at hremoved
    dsimp only
    split
    · exact hremoved
    · generalize List.flatMap _ _ = withdrawn
      obtain ⟨hsame, hindexed, -⟩ := drop_all_closed withdrawn hremoved.1
      exact hremoved.of_same hindexed hsame

theorem delete_edges_from_shrunk (es : List (Nat × Nat)) :
    ∀ acc : IncrementalTransitiveClosure × DeleteOutcome,
      Shrunk c acc.1 → Shrunk c (es.foldl (fun acc e =>
        let (c, one) := acc.1.delete_edge e.1 e.2
        (c, (⟨acc.2.withdrawn ++ one.withdrawn, acc.2.survived ++ one.survived⟩ :
          DeleteOutcome))) acc).1 := by
  induction es with
  | nil => exact fun _ h => h
  | cons e es ih =>
    intro acc h
    have hone := delete_edge_shrunk h.1 e.1 e.2
    exact ih _ ⟨hone.1, fun s o hso => h.2 s o (hone.2 s o hso)⟩

theorem delete_edges_shrunk (hc : c.Indexed) (es : List (Nat × Nat)) :
    Shrunk c (c.delete_edges es).1 := by
  exact delete_edges_from_shrunk es (c, .default) ⟨hc, fun _ _ h => h⟩

/-! ## The calls of a backend -/

/-- A state whose backward maps are the inverses and whose base edges have numbers. The seed
of a closed extent need not be closed for it. -/
structure PredicateState.Kept (st : PredicateState) : Prop where
  indexed : st.inner.Indexed
  numbers : st.map.Numbers st.inner.Edge

theorem from_closed_edges_kept (es : List (Nat × Nat)) :
    (from_closed_edges es).Indexed ∧ ∀ s o, (from_closed_edges es).Edge s o ↔ (s, o) ∈ es := by
  refine RowFold.foldl_done (P := fun es (c : IncrementalTransitiveClosure) =>
    c.Indexed ∧ ∀ s o, c.Edge s o ↔ (s, o) ∈ es) _ ?_ ⟨new_good.toIndexed, by simp [Edge, new]⟩ es
  rintro done e c ⟨hc, hedge⟩
  have hclosed := add_closed_indexed hc e.1 e.2
  have hsame := add_closed_same c e.1 e.2
  constructor
  · refine ⟨hclosed.backward, fun u v => ?_, hclosed.counted⟩
    have := hc.base_backward u v
    simp only [Edge, Adjacency.has_add, hsame.base, hsame.bwd_base] at *
    rw [this]
    tauto
  · intro s o
    simp only [Edge, Adjacency.has_add, hsame.base, List.mem_append, List.mem_singleton]
    rw [Prod.ext_iff, or_comm]
    exact or_congr (hedge s o) Iff.rfl

theorem seeded_kept {c : IncrementalTransitiveClosure} {es : List (Nat × Nat)}
    (hc : c.Indexed) (hedge : ∀ s o, c.Edge s o → (s, o) ∈ (DenseIdMap.new.intern_edges es).2) :
    PredicateState.Kept ⟨(DenseIdMap.new.intern_edges es).1, c⟩ :=
  ⟨hc, fun si oi h => DenseIdMap.intern_edges_ends _ _ (hedge si oi h)⟩

theorem PredicateState.Kept.run {st : PredicateState} (h : st.Kept) (es : List (Nat × Nat)) :
    PredicateState.Kept ⟨(st.map.intern_edges es).1,
      ((st.map.intern_edges es).2.foldl insert_run_step ⟨st.inner, [], []⟩).inner⟩ := by
  have hrun := tracked_run h.indexed (st.map.intern_edges es).2
  have hbase : ∀ (ds : List (Nat × Nat)) (run : InsertRun) (e : Nat × Nat),
      e ∈ (ds.foldl insert_run_step run).new_base_edges → e ∈ run.new_base_edges ∨ e ∈ ds := by
    intro ds
    induction ds with
    | nil => exact fun _ _ he => Or.inl he
    | cons d ds ih =>
      intro run e he
      rcases ih _ e he with he | he
      · unfold insert_run_step at he
        dsimp only at he
        split at he
        · rcases List.mem_append.mp he with he | he
          · exact Or.inl he
          · rw [List.mem_singleton] at he
            exact Or.inr (he ▸ List.mem_cons_self)
        · exact Or.inl he
      · exact Or.inr (List.mem_cons_of_mem d he)
  refine ⟨hrun.indexed, fun si oi hso => ?_⟩
  rcases (hrun.edge si oi).mp hso with hso | hso
  · exact (h.numbers.extends (st.map.intern_edges_spec es).1) si oi hso
  · exact DenseIdMap.intern_edges_ends _ _ ((hbase _ _ _ hso).resolve_left (by simp))

namespace IncrementalClosureBackend

/-- A call on the backend. -/
inductive Call where
  | seed_transitive_closure (p : Nat) (closed_edges : List (Nat × Nat))
  | seed_base_edges (p : Nat) (base_edges : List (Nat × Nat))
  | insert_transitive_edges (p : Nat) (new_edges : List (Nat × Nat)) (sink : TripleSink)
  | delete_transitive_edges (p : Nat) (edges : List (Nat × Nat))

def call (b : IncrementalClosureBackend) : Call → IncrementalClosureBackend
  | .seed_transitive_closure p closed_edges => b.seed_transitive_closure p closed_edges
  | .seed_base_edges p base_edges => b.seed_base_edges p base_edges
  | .insert_transitive_edges p new_edges sink => (b.insert_transitive_edges p new_edges sink).1
  | .delete_transitive_edges p edges => (b.delete_transitive_edges p edges).1

/-- The backend after the calls, oldest first. -/
def after (calls : List Call) : IncrementalClosureBackend := calls.foldl call new

/-- The run of inserts that a call makes before it writes. -/
def insert_run (b : IncrementalClosureBackend) (p : Nat) (es : List (Nat × Nat)) : InsertRun :=
  ((b.state p).map.intern_edges es).2.foldl insert_run_step ⟨(b.state p).inner, [], []⟩

/-- The state that a refused write leaves. -/
def rolled_back (b : IncrementalClosureBackend) (p : Nat) (es : List (Nat × Nat)) :
    PredicateState :=
  ⟨((b.state p).map.intern_edges es).1,
    ((b.insert_run p es).inner.rollback_inserted (b.insert_run p es).delta).rollback_base_edges
      (b.insert_run p es).new_base_edges⟩

theorem insert_transitive_edges_eq (b : IncrementalClosureBackend) (p : Nat)
    (es : List (Nat × Nat)) (sink : TripleSink) :
    b.insert_transitive_edges p es sink =
      if es.isEmpty then (b, some [])
      else if (b.insert_run p es).delta.isEmpty then
        (⟨b.predicates.insert p ⟨((b.state p).map.intern_edges es).1,
          (b.insert_run p es).inner⟩⟩, some [])
      else if sink (write_closure p (b.insert_run p es).delta ((b.state p).map.intern_edges es).1)
        then (⟨b.predicates.insert p ⟨((b.state p).map.intern_edges es).1,
            (b.insert_run p es).inner⟩⟩,
          some (write_closure p (b.insert_run p es).delta ((b.state p).map.intern_edges es).1))
        else (⟨b.predicates.insert p (b.rolled_back p es)⟩, none) := rfl

/-- Every retained state is kept right. -/
def Kept (b : IncrementalClosureBackend) : Prop := ∀ p, (b.state p).Kept

theorem Kept.insert {b : IncrementalClosureBackend} (h : b.Kept) {p : Nat} {st : PredicateState}
    (hst : st.Kept) : (IncrementalClosureBackend.mk (b.predicates.insert p st)).Kept := by
  intro q
  rw [state_insert]
  split
  · exact hst
  · exact h q

theorem Kept.rolled_back {b : IncrementalClosureBackend} (h : b.Kept) (p : Nat)
    (es : List (Nat × Nat)) :
    (b.rolled_back p es).Kept ∧ (b.state p).inner.Agrees (b.rolled_back p es).inner := by
  obtain ⟨hindexed, hagrees⟩ := (tracked_run (h p).indexed
    ((b.state p).map.intern_edges es).2).rolled_back (h p).indexed
  refine ⟨⟨hindexed, fun si oi hso => ?_⟩, hagrees⟩
  exact (h p).numbers.extends ((b.state p).map.intern_edges_spec es).1 si oi
    ((Bool.eq_iff_iff.mp (hagrees.base si oi)).mp hso)

theorem call_kept {b : IncrementalClosureBackend} (h : b.Kept) (a : Call) : (b.call a).Kept := by
  cases a with
  | seed_transitive_closure p closed_edges =>
    obtain ⟨hindexed, hedge⟩ := from_closed_edges_kept (DenseIdMap.new.intern_edges closed_edges).2
    exact h.insert (seeded_kept hindexed fun s o => (hedge s o).mp)
  | seed_base_edges p base_edges =>
    obtain ⟨hgood, hedge⟩ := from_base_edges_good (DenseIdMap.new.intern_edges base_edges).2
    exact h.insert (seeded_kept hgood.toIndexed fun s o => (hedge s o).mp)
  | insert_transitive_edges p new_edges sink =>
    rw [call, insert_transitive_edges_eq]
    split
    · exact h
    · split
      · exact h.insert ((h p).run new_edges)
      · split
        · exact h.insert ((h p).run new_edges)
        · exact h.insert (h.rolled_back p new_edges).1
  | delete_transitive_edges p edges =>
    rw [call]
    unfold delete_transitive_edges
    split
    · exact h
    · split
      · obtain ⟨hindexed, hedge⟩ := delete_edges_shrunk (h p).indexed
          (edges.filterMap (pair_to_dense (b.state p).map))
        exact h.insert ⟨hindexed, fun si oi hso => (h p).numbers si oi (hedge si oi hso)⟩
      · exact h

theorem after_kept (calls : List Call) : (after calls).Kept := by
  have hfold : ∀ (calls : List Call) (b : IncrementalClosureBackend), b.Kept →
      (calls.foldl call b).Kept := by
    intro calls
    induction calls with
    | nil => exact fun _ h => h
    | cons a calls ih => exact fun b h => ih _ (call_kept h a)
  refine hfold calls new fun p => ?_
  rw [state, new, ExtTreeMap.getD_empty]
  exact ⟨PredicateState.default_good.right.toIndexed, PredicateState.default_good.numbers⟩

/-! ## The refused write -/

/-- A predicate without a state has no base edges, as the default state says. -/
theorem base_edges_eq (b : IncrementalClosureBackend) (p : Nat) :
    b.base_edges p = pairs_to_dict (b.state p).map (b.state p).inner.base_edges := by
  unfold base_edges
  split
  · rfl
  · rename_i hp
    rw [state, ExtTreeMap.getD_eq_getD_getElem?, ExtTreeMap.getElem?_eq_none
      (by rwa [← ExtTreeMap.contains_iff_mem]), Option.getD_none]
    rfl

theorem pairs_to_dict_extends {map map' : DenseIdMap} {pairs : List (Nat × Nat)}
    (hnum : map.Numbers fun x y => (x, y) ∈ pairs) (hext : map.Extends map') :
    pairs_to_dict map' pairs = pairs_to_dict map pairs := by
  unfold pairs_to_dict
  apply List.filterMap_congr
  rintro ⟨x, y⟩ hxy
  obtain ⟨s, o, hs, ho⟩ := hnum x y hxy
  unfold pair_to_dict
  rw [DenseIdMap.to_dict_eq_some.mpr hs, DenseIdMap.to_dict_eq_some.mpr ho,
    DenseIdMap.to_dict_eq_some.mpr (hext s x hs), DenseIdMap.to_dict_eq_some.mpr (hext o y ho)]

/-- A state with the same pairs under more numbers gives the same base edges. -/
theorem base_edges_perm {st st' : PredicateState} (h : st.Kept)
    (hagrees : st.inner.Agrees st'.inner) (hext : st.map.Extends st'.map) :
    (pairs_to_dict st'.map st'.inner.base_edges).Perm
      (pairs_to_dict st.map st.inner.base_edges) := by
  have hperm : st'.inner.base_edges.Perm st.inner.base_edges := by
    refine (List.perm_ext_iff_of_nodup (Adjacency.edges_nodup _) (Adjacency.edges_nodup _)).mpr ?_
    rintro ⟨s, o⟩
    rw [Adjacency.mem_edges, Adjacency.mem_edges, hagrees.base]
  have hnum : st.map.Numbers fun x y => (x, y) ∈ st.inner.base_edges := by
    intro x y hxy
    exact h.numbers x y ((Adjacency.mem_edges _ x y).mp hxy)
  rw [← pairs_to_dict_extends hnum hext]
  exact hperm.filterMap _

/-- A state with the same pairs, and the numbers of the batch, infers what the old one infers. -/
theorem reply_agrees {b b' : IncrementalClosureBackend} {p : Nat} {es : List (Nat × Nat)}
    (hmap : (b'.state p).map.intern_edges es = (b.state p).map.intern_edges es)
    (hagrees : (b.state p).inner.Agrees (b'.state p).inner) (sink : TripleSink) :
    (b'.insert_transitive_edges p es sink).2 = (b.insert_transitive_edges p es sink).2 := by
  have hdelta : (b'.insert_run p es).delta = (b.insert_run p es).delta := by
    unfold insert_run
    rw [hmap]
    exact run_agrees _ hagrees [] []
  rw [insert_transitive_edges_eq, insert_transitive_edges_eq, hdelta, hmap]
  split_ifs <;> rfl

/-- After any calls, an insert whose write the sink refuses leaves every closure with the pairs
and the base edges it had, and only the numbering of the predicate may have grown. The same batch
then infers the triples that it would have inferred the first time, in the same order. -/
theorem refused_write_leaves_no_trace (calls : List Call) (p : Nat) (es : List (Nat × Nat))
    (sink : TripleSink) (hrefused : ((after calls).insert_transitive_edges p es sink).2 = none) :
    let b := after calls
    let b' := (b.insert_transitive_edges p es sink).1
    (∀ q, (b.state q).inner.Agrees (b'.state q).inner) ∧
      (∀ q, (b.state q).map.Extends (b'.state q).map) ∧ (∀ q, q ≠ p → b'.state q = b.state q) ∧
      (∀ q, (b'.base_edges q).Perm (b.base_edges q)) ∧
      ∀ again, (b'.insert_transitive_edges p es again).2 =
        (b.insert_transitive_edges p es again).2 := by
  have hkept := after_kept calls
  generalize after calls = b at *
  obtain ⟨-, hagrees⟩ := hkept.rolled_back p es
  have hb' : (b.insert_transitive_edges p es sink).1 =
      ⟨b.predicates.insert p (b.rolled_back p es)⟩ := by
    rw [insert_transitive_edges_eq] at hrefused ⊢
    split_ifs at hrefused ⊢
    rfl
  dsimp only
  rw [hb']
  have hclosure : ∀ q, (b.state q).inner.Agrees ((IncrementalClosureBackend.mk
      (b.predicates.insert p (b.rolled_back p es))).state q).inner := by
    intro q
    rw [state_insert]
    split
    · rename_i hq
      exact hq ▸ hagrees
    · exact .refl _
  have hext : ∀ q, (b.state q).map.Extends ((IncrementalClosureBackend.mk
      (b.predicates.insert p (b.rolled_back p es))).state q).map := by
    intro q
    rw [state_insert]
    split
    · rename_i hq
      rw [hq]
      exact ((b.state p).map.intern_edges_spec es).1
    · exact .refl _
  refine ⟨hclosure, hext, ?_, ?_, ?_⟩
  · intro q hq
    rw [state_insert, if_neg hq]
  · intro q
    rw [base_edges_eq, base_edges_eq]
    exact base_edges_perm (hkept q) (hclosure q) (hext q)
  · intro again
    refine reply_agrees ?_ (hclosure p) again
    rw [state_insert, if_pos rfl]
    exact (b.state p).map.intern_edges_again es

/-- A batch with an edge that is in the base, one that is new and a duplicate. -/
theorem refused_chain_leaves_no_trace :
    let b := after [.insert_transitive_edges 7 [(1, 2)] fun _ => true]
    let b' := (b.insert_transitive_edges 7 [(2, 3), (1, 2), (2, 3)] fun _ => false).1
    (b'.base_edges 7).Perm [(1, 2)] ∧
      (b'.insert_transitive_edges 7 [(2, 3), (1, 2), (2, 3)] fun _ => true).2 =
        some [⟨1, 7, 3⟩, ⟨2, 7, 3⟩] := by
  obtain ⟨-, -, -, hbase, hagain⟩ := refused_write_leaves_no_trace
    [.insert_transitive_edges 7 [(1, 2)] fun _ => true] 7 [(2, 3), (1, 2), (2, 3)]
    (fun _ => false) (by decide)
  exact ⟨(hbase 7).trans (by decide), (hagain _).trans (by decide)⟩

end IncrementalClosureBackend

end horndb.closure.sink
