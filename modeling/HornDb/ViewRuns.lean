-- Runs of a server: writes, restarts and passes in any order. What was derived stays right, and
-- a pass leaves what it should unless it finds an inferred graph that no view accounts for.
import HornDb.ViewPass

open HornDb.Lib.Effects

namespace horndb.sparql.reasoning

open lexical (Row Absolute)
open text (Library)

variable {ox : Library}

/-! ## Writes -/

/-- A write of the store: a batch, or a sweep of CLEAR and DROP. -/
inductive FunnelWrite where
  | Batch (dels adds : List (GraphName × Row))
  | Sweep (graph : GraphTarget)

/-- What is inserted is plain. -/
def FunnelWrite.Plain (ox : Library) : FunnelWrite → Prop
  | .Batch _ adds => ∀ q ∈ adds, PlainQuad ox ⟨resolve_graph q.1, q.2⟩
  | .Sweep _ => True

def HornBackend.write (b : HornBackend) : FunnelWrite → HornBackend
  | .Batch dels adds => b.apply_quads dels adds
  | .Sweep graph => b.clear_graph graph

variable {b : HornBackend} {m : ViewManager} {r : Reasoner ox}

theorem mem_apply_quads {dels adds : List (GraphName × Row)} {g : GraphId} {row : Row} :
    row ∈ rows (b.apply_quads dels adds).quads g ↔
      (row ∈ rows b.quads g ∧ ⟨g, row⟩ ∉ dels.map fun q => Quad.mk (resolve_graph q.1) q.2) ∨
        ⟨g, row⟩ ∈ adds.map fun q => Quad.mk (resolve_graph q.1) q.2 := by
  rw [mem_rows, mem_rows, HornBackend.apply_quads, Finset.mem_union, Finset.mem_sdiff,
    List.mem_toFinset, List.mem_toFinset]

/-- A batch changes the graphs of its rows only. -/
theorem rows_apply_quads {dels adds : List (GraphName × Row)} {g : GraphId}
    (h : ∀ q ∈ dels ++ adds, resolve_graph q.1 ≠ g) :
    rows (b.apply_quads dels adds).quads g = rows b.quads g := by
  have hrow {batch : List (GraphName × Row)} (hrows : batch ⊆ dels ++ adds) (row : Row) :
      ⟨g, row⟩ ∉ batch.map fun q => Quad.mk (resolve_graph q.1) q.2 := by
    intro hmem
    obtain ⟨q, hq, heq⟩ := List.mem_map.mp hmem
    exact h q (hrows hq) (congrArg Quad.g heq)
  ext row
  rw [mem_apply_quads]
  simp only [hrow (List.subset_append_left _ _) row, hrow (List.subset_append_right _ _) row,
    not_false_eq_true, and_true, or_false]

/-- A graph that changes is touched. -/
theorem apply_quads_touched (dels adds : List (GraphName × Row)) {g : GraphId}
    (h : g ∉ (b.apply_quads dels adds).touched_graphs) :
    g ∉ b.touched_graphs ∧ rows (b.apply_quads dels adds).quads g = rows b.quads g := by
  unfold HornBackend.apply_quads at h
  dsimp only at h
  split_ifs at h with hchanged
  · rw [List.mem_union_iff, not_or, List.map_append, List.mem_append, not_or] at h
    refine ⟨h.1, rows_apply_quads fun q hq heq => ?_⟩
    have hrow {batch : List (GraphName × Row)} (hmem : q ∈ batch) :
        g ∈ (batch.map fun q => Quad.mk (resolve_graph q.1) q.2).map Quad.g := by
      rw [List.map_map, List.mem_map]
      exact ⟨q, hmem, heq⟩
    rcases List.mem_append.mp hq with hq | hq
    · exact h.2.1 (hrow hq)
    · exact h.2.2 (hrow hq)
  · refine ⟨h, ?_⟩
    rw [Bool.or_eq_true, not_or, List.any_eq_true, List.any_eq_true] at hchanged
    push Not at hchanged
    simp only [ne_eq, decide_eq_true_eq, Decidable.not_not, Finset.mem_sdiff,
      List.mem_toFinset] at hchanged
    ext row
    rw [mem_apply_quads, mem_rows]
    constructor
    · rintro (ht | ht)
      · exact ht.1
      · exact (hchanged.2 _ ht).1
    · exact fun ht => Or.inl ⟨ht, fun hrow => hchanged.1 _ hrow ht⟩

theorem rows_clear_graph {graph : GraphTarget} {g : GraphId} (h : g ∉ b.graphs_to_sweep graph) :
    rows (b.clear_graph graph).quads g = rows b.quads g := by
  unfold HornBackend.clear_graph
  dsimp only
  split
  · rfl
  · ext row
    rw [mem_rows, mem_rows, Finset.mem_filter]
    exact ⟨fun ht => ht.1, fun ht => ⟨ht, h⟩⟩

theorem rows_swept {graph : GraphTarget} {g : GraphId} (h : g ∈ b.graphs_to_sweep graph) :
    rows (b.clear_graph graph).quads g = ∅ := by
  rw [Finset.eq_empty_iff_forall_notMem]
  intro row ht
  rw [mem_rows, HornBackend.clear_graph] at ht
  split at ht
  · rename_i hnone
    have hmem : (⟨g, row⟩ : Quad) ∈ b.quads.filter fun q => q.g ∈ b.graphs_to_sweep graph :=
      Finset.mem_filter.mpr ⟨ht, h⟩
    rw [hnone] at hmem
    exact Finset.notMem_empty _ hmem
  · exact (Finset.mem_filter.mp ht).2 h

theorem clear_graph_touched (graph : GraphTarget) {g : GraphId}
    (h : g ∉ (b.clear_graph graph).touched_graphs) :
    g ∉ b.touched_graphs ∧ rows (b.clear_graph graph).quads g = rows b.quads g := by
  unfold HornBackend.clear_graph at h
  dsimp only at h
  split_ifs at h with hnone
  · refine ⟨h, ?_⟩
    rw [HornBackend.clear_graph, if_pos hnone]
  · rw [List.mem_union_iff, not_or] at h
    exact ⟨h.1, rows_clear_graph h.2⟩

theorem write_touched (w : FunnelWrite) {g : GraphId} (h : g ∉ (b.write w).touched_graphs) :
    g ∉ b.touched_graphs ∧ rows (b.write w).quads g = rows b.quads g := by
  cases w with
  | Batch dels adds => exact apply_quads_touched dels adds h
  | Sweep graph => exact clear_graph_touched graph h

theorem Plain.write (h : Plain ox b.quads) (w : FunnelWrite) (hw : w.Plain ox) :
    Plain ox (b.write w).quads := by
  rintro ⟨g, row⟩ hq
  rw [← mem_rows] at hq
  cases w with
  | Batch dels adds =>
    rcases mem_apply_quads.mp hq with hold | hnew
    · exact h _ (mem_rows.mp hold.1)
    · obtain ⟨q, hq, heq⟩ := List.mem_map.mp hnew
      exact heq ▸ hw q hq
  | Sweep graph =>
    by_cases hg : g ∈ b.graphs_to_sweep graph
    · rw [HornBackend.write, rows_swept hg] at hq
      cases hq
    · rw [HornBackend.write, rows_clear_graph hg] at hq
      exact h _ (mem_rows.mp hq)

theorem graph_name_resolve (g : GraphName) : graph_name (resolve_graph g) = g := by
  cases g <;> rfl

/-- What was derived stays right under a write that leaves the reserved graphs alone. -/
theorem Holds.write (h : Holds r b m) (w : FunnelWrite) (hw : w.Plain ox)
    (hspare : ∀ g, g.Reserved → rows (b.write w).quads g = rows b.quads g) :
    Holds r (b.write w) m := by
  have hreserved {graph : String} (hgraph : is_reserved_graph graph = true) :
      triples (b.write w).quads (.NamedNode graph) = triples b.quads (.NamedNode graph) := by
    rw [triples, triples, hspare (.NamedNode graph) hgraph]
  have hsub : b.touched_graphs ⊆ (b.write w).touched_graphs := by
    intro g hg
    by_contra hnot
    exact (write_touched w hnot).1 hg
  have hnames : b.touched_graphs.map graph_name ⊆ (b.write w).touched_graphs.map graph_name :=
    List.map_subset _ hsub
  have hsame {g : GraphName} (hg : g ∉ (b.write w).touched_graphs.map graph_name) :
      rows (b.write w).quads (resolve_graph g) = rows b.quads (resolve_graph g) :=
    (write_touched w fun hmem =>
      hg (List.mem_map.mpr ⟨_, hmem, graph_name_resolve g⟩)).2
  -- what does not touch the spine keeps it
  have hspine (htouch : ¬m.catalog.touches_spine ((b.write w).touched_graphs.map graph_name)) :
      ¬m.catalog.touches_spine (b.touched_graphs.map graph_name) ∧
        spine_data m.cfg (b.write w).quads = spine_data m.cfg b.quads := by
    refine ⟨?_, ?_⟩
    · rintro ⟨iri, hiri, hrest⟩
      exact htouch ⟨iri, hnames hiri, hrest⟩
    · refine spine_data_congr fun iri hiri => hsame (g := some iri) fun hmem => htouch ?_
      exact ⟨iri, hmem, h.accepted.not_reserved hiri, (h.fits.is_spine_graph iri).trans hiri⟩
  refine ⟨h.plain.write w hw, h.accepted, h.fits, h.named, h.selected, ?_, ?_⟩
  · intro hfresh htouch
    obtain ⟨hbefore, hdata⟩ := hspine htouch
    have hbuilt := h.spine hfresh hbefore
    refine ⟨?_, ?_, ?_⟩
    · rw [hdata]
      exact hbuilt.engine
    · rw [hdata]
      exact hbuilt.materialized
    · rw [hreserved spine_closure_reserved, spine_want, hdata]
      exact hbuilt.closure_graph
  · intro src hsrc hclean hgraph htouch
    obtain ⟨hbefore, hdata⟩ := hspine htouch
    have hdata' : view_data (b.write w).quads src = view_data b.quads src := by
      rw [view_data, triples, hsame hgraph]
      rfl
    rw [hreserved (inferred_graph_reserved src), view_want, hdata, hdata']
    exact h.views src hsrc hclean (fun hmem => hgraph (hnames hmem)) hbefore

/-! ## Runs -/

structure Server where
  backend : HornBackend
  manager : ViewManager

inductive Event where
  | Write (w : FunnelWrite)
  | Restart (cfg : Reasoning)
  | Pass (fails : Faults)

/-- A fresh manager over a store. Only the quads outlive a process. -/
def start (quads : Finset Quad) (cfg : Reasoning) : Server := ⟨⟨quads, [], ∅⟩, .new cfg⟩

namespace Server

variable (r : Reasoner ox)

/-- One pass: what it returns, and what it leaves. -/
def pass (s : Server) (fails : Faults) : Except SparqlError Nat × Server :=
  let out := (run_until_clean r fails).run.run ⟨s.backend, s.manager, 0⟩
  (out.1, ⟨out.2.backend, out.2.manager⟩)

def step (s : Server) : Event → Server
  | .Write w => { s with backend := s.backend.write w }
  | .Restart cfg => start s.backend.quads cfg
  | .Pass fails => (s.pass r fails).2

def run (s : Server) (events : List Event) : Server := events.foldl (step r) s

/-- A configuration is validated, and a write is plain and leaves the reserved graphs alone. -/
def Admits (ox : Library) (s : Server) : Event → Prop
  | .Write w => w.Plain ox ∧
    ∀ g, g.Reserved → rows (s.backend.write w).quads g = rows s.backend.quads g
  | .Restart cfg => Accepted cfg
  | .Pass _ => True

/-- Every event of a run is admitted where it happens. -/
def Admitted (s : Server) (events : List Event) : Prop :=
  ∀ before e after, events = before ++ e :: after → (s.run r before).Admits ox e

/-- Every inferred graph that holds something is the one of a view: of a current one, or of one
that the manager still has. -/
def NoOrphan (s : Server) : Prop :=
  ∀ src, rows s.backend.quads (.NamedNode src.inferred_graph) ≠ ∅ →
    IsView s.manager.cfg s.backend.quads src ∨ src ∈ s.manager.catalog.views.keys

end Server

/-- The graphs of reasoning hold what they should. -/
structure Converged (r : Reasoner ox) (cfg : Reasoning) (quads : Finset Quad) : Prop where
  views : ∀ src, IsView cfg quads src →
    rows quads (.NamedNode src.inferred_graph) = (view_want cfg quads r src).image (terms ox)
  spine : rows quads (.NamedNode SPINE_CLOSURE_GRAPH) = (spine_want cfg quads r).image (terms ox)
  gone : ∀ src, ¬IsView cfg quads src → rows quads (.NamedNode src.inferred_graph) = ∅

/-- What a pass should do: it ends unless a call fails, changes no data, leaves the graphs of
reasoning as they should be when it ends, and a pass after that changes nothing. -/
structure PassRight (r : Reasoner ox) (s : Server) (fails : Faults) : Prop where
  data : SameData s.backend.quads (s.pass r fails).2.backend.quads
  ends : (∀ i, fails i = false) → ∃ n, (s.pass r fails).1 = .ok n
  derived : s.manager.cfg.enabled = true → ∀ n, (s.pass r fails).1 = .ok n →
    Converged r s.manager.cfg (s.pass r fails).2.backend.quads
  again : ∀ n, (s.pass r fails).1 = .ok n → ∀ fails',
    ((s.pass r fails).2.pass r fails').2 = (s.pass r fails).2
  disabled : s.manager.cfg.enabled = false → s.pass r fails = (.ok 0, s)

/-- A pass that has ended leaves no wrong graph but those that no view accounted for. -/
theorem Done.converged_iff {s : Server} (h : Done r s.backend s.manager b m) :
    Converged r s.manager.cfg b.quads ↔ s.NoOrphan := by
  have hview (src : ViewSource) : IsView s.manager.cfg s.backend.quads src ↔
      IsView s.manager.cfg b.quads src := h.data.is_view
  constructor
  · intro hconverged src hgraph
    by_contra hnot
    rw [not_or] at hnot
    rw [← h.others src hnot.2 hnot.1] at hgraph
    exact hgraph (hconverged.gone src fun hb => hnot.1 ((hview src).mpr hb))
  · intro horphan
    refine ⟨fun src hsrc => ?_, ?_, fun src hsrc => ?_⟩
    · have hkeys := (h.current src).mpr ((hview src).mpr hsrc)
      rw [h.holds.plain.rows_eq, ← h.cfg]
      refine congrArg _ (h.toDeriving.clean hkeys ?_)
      have hdirty : src ∉ m.catalog.views.dirty_keys := by
        rw [Done.clean h]
        exact Finset.notMem_empty src
      rw [ViewMap.dirty_keys, Finset.mem_filter, not_and] at hdirty
      exact Bool.eq_false_iff.mpr (hdirty hkeys)
    · rw [h.holds.plain.rows_eq, ← h.cfg, (h.built h.fresh).closure_graph]
    · rw [← hview] at hsrc
      by_cases hkeys : src ∈ s.manager.catalog.views.keys
      · rw [h.holds.plain.rows_eq, h.gone src hkeys hsrc, Finset.image_empty]
      · rw [h.others src hkeys hsrc]
        by_contra hgraph
        exact (horphan src hgraph).elim hsrc hkeys

namespace Server

theorem pass_disabled {s : Server} (h : s.manager.cfg.enabled = false) (fails : Faults) :
    s.pass r fails = (.ok 0, s) := by
  have hpass : Ensures (fun w => w = ⟨s.backend, s.manager, 0⟩) (run_until_clean r fails)
      (fun n w => n = 0 ∧ w = ⟨s.backend, s.manager, 0⟩) fun _ => False := by
    unfold run_until_clean
    refine .bind (Q := fun w w' => w = ⟨s.backend, s.manager, 0⟩ ∧ w' = w)
      (fun w hw => ⟨hw, rfl⟩) fun w => ?_
    split
    · exact .pure fun w' hw => ⟨rfl, hw.2.trans hw.1⟩
    · rename_i hon
      intro w' hw
      rw [hw.1, h] at hon
      exact absurd rfl hon
  have hrun := hpass _ rfl
  unfold pass
  cases hout : (run_until_clean r fails).run.run ⟨s.backend, s.manager, 0⟩ with
  | mk out w =>
    rw [hout] at hrun
    cases out with
    | ok n =>
      obtain ⟨rfl, rfl⟩ := hrun
      rfl
    | error e => exact hrun.elim

/-- What a pass leaves, whether it ends or stops. -/
theorem pass_leaves {s : Server} (h : Holds r s.backend s.manager)
    (henabled : s.manager.cfg.enabled = true) (fails : Faults) :
    (∃ n, (s.pass r fails).1 = .ok n ∧
      Done r s.backend s.manager (s.pass r fails).2.backend (s.pass r fails).2.manager) ∨
    (∃ e, (s.pass r fails).1 = .error e) ∧ (∃ i, fails i = true) ∧
      Deriving r s.backend s.manager (s.pass r fails).2.backend (s.pass r fails).2.manager := by
  have hensures : Ensures _ (run_until_clean r fails) _ _ := run_until_clean_ensures h henabled
  have hpass := hensures ⟨s.backend, s.manager, 0⟩ ⟨rfl, rfl⟩
  unfold pass
  dsimp only
  cases hrun : (run_until_clean r fails).run.run ⟨s.backend, s.manager, 0⟩ with
  | mk out w =>
    rw [hrun] at hpass
    cases out with
    | ok n => exact Or.inl ⟨n, rfl, hpass⟩
    | error e => exact Or.inr ⟨⟨e, rfl⟩, hpass.2, hpass.1⟩

/-- Where no call fails, a pass ends. -/
theorem pass_ends {s : Server} (h : Holds r s.backend s.manager)
    (henabled : s.manager.cfg.enabled = true) {fails : Faults} (hnone : ∀ i, fails i = false) :
    ∃ n, (s.pass r fails).1 = .ok n ∧
      Done r s.backend s.manager (s.pass r fails).2.backend (s.pass r fails).2.manager := by
  rcases pass_leaves h henabled fails with hdone | ⟨-, ⟨i, hi⟩, -⟩
  · exact hdone
  · rw [hnone i] at hi
    cases hi

/-- The next pass finds nothing to do. -/
theorem pass_again {s s' : Server} (h : Done r s.backend s.manager s'.backend s'.manager)
    (fails : Faults) : (s'.pass r fails).2 = s' := by
  have hensures : Ensures _ (run_until_clean r fails) _ _ := run_until_clean_idle h
  have hpass := hensures ⟨s'.backend, s'.manager, 0⟩ ⟨rfl, rfl⟩
  unfold pass
  cases hrun : (run_until_clean r fails).run.run ⟨s'.backend, s'.manager, 0⟩ with
  | mk out w =>
    rw [hrun] at hpass
    have hw : w.backend = s'.backend ∧ w.manager = s'.manager := by
      cases out with
      | ok n => exact hpass
      | error e => exact hpass.1
    dsimp only
    rw [hw.1, hw.2]

/-- A pass is right just where it stops, or finds no graph that no view accounts for. -/
theorem pass_right_iff {s : Server} (h : Holds r s.backend s.manager) (fails : Faults) :
    PassRight r s fails ↔
      (s.manager.cfg.enabled = true → ∀ n, (s.pass r fails).1 = .ok n → s.NoOrphan) := by
  cases henabled : s.manager.cfg.enabled with
  | false =>
    have hpass (fails' : Faults) : s.pass r fails' = (.ok 0, s) := pass_disabled henabled fails'
    refine ⟨fun _ h => absurd h Bool.noConfusion, fun _ => ⟨?_, ?_, ?_, ?_, fun _ => hpass fails⟩⟩
    · rw [hpass]
      exact fun _ _ => rfl
    · exact fun _ => ⟨0, by rw [hpass]⟩
    · exact fun h => absurd (h.symm.trans henabled) Bool.noConfusion
    · intro n _ fails'
      rw [hpass, hpass]
  | true =>
    have hleaves := pass_leaves h henabled fails
    have hdata : SameData s.backend.quads (s.pass r fails).2.backend.quads := by
      rcases hleaves with ⟨n, -, hdone⟩ | ⟨-, -, hder⟩
      · exact hdone.data
      · exact hder.data
    have hdone {n : Nat} (hn : (s.pass r fails).1 = .ok n) :
        Done r s.backend s.manager (s.pass r fails).2.backend (s.pass r fails).2.manager := by
      rcases hleaves with ⟨-, -, hdone⟩ | ⟨⟨e, he⟩, -⟩
      · exact hdone
      · rw [hn] at he
        cases he
    constructor
    · exact fun hright _ n hn => (hdone hn).converged_iff.mp (hright.derived henabled n hn)
    · intro horphan
      refine ⟨hdata, ?_, ?_, ?_, fun h => absurd (h.symm.trans henabled) Bool.noConfusion⟩
      · intro hnone
        obtain ⟨n, hn, -⟩ := pass_ends h henabled hnone
        exact ⟨n, hn⟩
      · exact fun _ n hn => (hdone hn).converged_iff.mpr (horphan rfl n hn)
      · intro n hn fails'
        exact pass_again (hdone hn) fails'

theorem admitted_nil (s : Server) : s.Admitted r [] := by
  intro before e after h
  cases before <;> cases h

theorem admitted_cons {s : Server} {e : Event} {events : List Event} :
    s.Admitted r (e :: events) ↔ s.Admits ox e ∧ (s.step r e).Admitted r events := by
  constructor
  · refine fun h => ⟨h [] e events rfl, fun before e' after heq => ?_⟩
    exact h (e :: before) e' after (by rw [heq]; rfl)
  · rintro ⟨hfirst, hrest⟩ before e' after heq
    cases before with
    | nil =>
      obtain ⟨rfl, -⟩ := List.cons.inj heq
      exact hfirst
    | cons x before =>
      obtain ⟨rfl, htail⟩ := List.cons.inj heq
      exact hrest before e' after htail

theorem admits_batch (s : Server) {dels adds : List (GraphName × Row)}
    (hplain : ∀ q ∈ adds, PlainQuad ox ⟨resolve_graph q.1, q.2⟩)
    (h : ∀ q ∈ dels ++ adds, ¬(resolve_graph q.1).Reserved) :
    s.Admits ox (.Write (.Batch dels adds)) := by
  refine ⟨hplain, fun g hg => ?_⟩
  refine rows_apply_quads fun q hq heq => h q hq ?_
  rwa [heq]

theorem admits_sweep (s : Server) {iri : String} (h : is_reserved_graph iri = false) :
    s.Admits ox (.Write (.Sweep (.NamedNode iri))) := by
  refine ⟨trivial, fun g hg => ?_⟩
  refine rows_clear_graph fun hmem => ?_
  rw [HornBackend.graphs_to_sweep, List.mem_singleton] at hmem
  rw [hmem] at hg
  exact absurd (h.symm.trans hg) Bool.noConfusion

theorem holds_start {quads : Finset Quad} (hquads : Plain ox quads) {cfg : Reasoning}
    (h : Accepted cfg) : Holds r (start quads cfg).backend (start quads cfg).manager where
  plain := hquads
  accepted := h
  fits := ⟨rfl, rfl⟩
  named src hsrc := absurd hsrc (Finset.notMem_empty src)
  selected src hsrc := absurd hsrc (Finset.notMem_empty src)
  spine hfresh := absurd hfresh Bool.noConfusion
  views src hsrc := absurd hsrc (Finset.notMem_empty src)

/-- What was derived stays right, whatever the event. -/
theorem holds_step {s : Server} (h : Holds r s.backend s.manager) {e : Event} (he : s.Admits ox e) :
    Holds r (s.step r e).backend (s.step r e).manager := by
  cases e with
  | Write w => exact h.write w he.1 he.2
  | Restart cfg => exact holds_start h.plain he
  | Pass fails =>
    change Holds r (s.pass r fails).2.backend (s.pass r fails).2.manager
    cases henabled : s.manager.cfg.enabled with
    | false =>
      rw [pass_disabled henabled]
      exact h
    | true =>
      rcases pass_leaves h henabled fails with ⟨n, -, hdone⟩ | ⟨-, -, hder⟩
      · exact hdone.holds
      · exact hder.holds

theorem holds_run {s : Server} (h : Holds r s.backend s.manager) {events : List Event}
    (hevents : s.Admitted r events) :
    Holds r (s.run r events).backend (s.run r events).manager := by
  induction events generalizing s with
  | nil => exact h
  | cons e events ih =>
    rw [admitted_cons] at hevents
    exact ih (holds_step h hevents.1) hevents.2

end Server

/-- Every pass of a run, with the server that it finds. -/
def EveryPass (r : Reasoner ox) (s : Server) (events : List Event) (P : Server → Faults → Prop) :
    Prop :=
  ∀ before fails after, events = before ++ .Pass fails :: after → P (s.run r before) fails

/-- A pass that ends found no inferred graph that no view accounts for. -/
def EndsClean (r : Reasoner ox) (s : Server) (fails : Faults) : Prop :=
  s.manager.cfg.enabled = true → ∀ n, (s.pass r fails).1 = .ok n → s.NoOrphan

/-- Every pass of a run over plain quads does what it should, just when no pass that ends found an
inferred graph that no view accounts for. -/
theorem passes_right_iff (r : Reasoner ox) (quads : Finset Quad) (hquads : Plain ox quads)
    (cfg : Reasoning) (hcfg : Accepted cfg) (events : List Event)
    (hevents : (start quads cfg).Admitted r events) :
    EveryPass r (start quads cfg) events (PassRight r) ↔
      EveryPass r (start quads cfg) events (EndsClean r) := by
  have hholds {before after : List Event} (heq : events = before ++ after) :
      Holds r ((start quads cfg).run r before).backend
        ((start quads cfg).run r before).manager := by
    refine Server.holds_run (Server.holds_start hquads hcfg) fun pre e post hpre => ?_
    exact hevents pre e (post ++ after) (by simp [heq, hpre])
  refine forall_congr' fun before => forall_congr' fun fails => forall_congr' fun after =>
    forall_congr' fun heq => ?_
  exact Server.pass_right_iff (hholds heq) fails

/-! ## A view that vanishes before a restart -/

/-- A fresh manager never looks at the inferred graph of a source that is no view any more. -/
theorem restart_forgets {quads : Finset Quad} (hquads : Plain ox quads) {cfg : Reasoning}
    (hcfg : Accepted cfg) (henabled : cfg.enabled = true) (src : ViewSource)
    (hview : ¬IsView cfg quads src)
    (hgraph : rows quads (.NamedNode src.inferred_graph) ≠ ∅) {fails : Faults}
    (hnone : ∀ i, fails i = false) :
    ∃ n, ((start quads cfg).pass r fails).1 = .ok n ∧
      ¬Converged r cfg ((start quads cfg).pass r fails).2.backend.quads := by
  obtain ⟨n, hn, hdone⟩ := Server.pass_ends (s := start quads cfg)
    (Server.holds_start hquads hcfg) henabled hnone
  refine ⟨n, hn, fun hconverged => ?_⟩
  rcases hdone.converged_iff.mp hconverged src hgraph with h | h
  · exact hview h
  · exact Finset.notMem_empty src h

def same_as : List Char := "http://www.w3.org/2002/07/owl#sameAs".toList

/-- Everything that is the same as something is so the other way around. -/
def symmetric : Reasoner text.ascii where
  closure ts := ts ∪ (ts.filter fun t => (ofLex (ofLex t).2).1 = same_as).image fun t =>
    toLex ((ofLex (ofLex t).2).2, toLex (same_as, (ofLex t).1))
  consistent _ := true
  meant ts h t ht := by
    rcases Finset.mem_union.mp ht with ht | ht
    · exact h t ht
    · obtain ⟨t', ht', rfl⟩ := Finset.mem_image.mp ht
      obtain ⟨hmem, heq⟩ := Finset.mem_filter.mp ht'
      obtain ⟨hs, hp, ho⟩ := h t' hmem
      exact ⟨ho, heq ▸ hp, hs⟩

def view_cfg : Reasoning where
  enabled := true
  spine := ["http://example.org/vocabulary/"]
  views := { select := .Keyword, include_spine := true, output := .Graph }
  default_dataset_includes_inferred := false

def asserted : Row :=
  (.NamedNode "http://example.org/x".toList, .NamedNode same_as,
    .NamedNode "http://example.org/y".toList)

def no_faults : Faults := fun _ => false

/-- A graph gets a view, and is cleared just before the server restarts. -/
def lost_run : List Event :=
  [.Write (.Batch [] [(some "http://example.org/a", asserted)]), .Pass no_faults,
    .Write (.Sweep (.NamedNode "http://example.org/a")), .Restart view_cfg]

theorem view_cfg_accepted : Accepted view_cfg := by
  refine ⟨[], ?_⟩
  decide

theorem plain_empty : Plain ox ∅ := fun _ hq => absurd hq (Finset.notMem_empty _)

theorem plain_asserted : PlainQuad ox ⟨.NamedNode "http://example.org/a", asserted⟩ where
  row t ht := by
    simp only [asserted, List.mem_cons, List.not_mem_nil, or_false] at ht
    rcases ht with rfl | rfl | rfl
    all_goals exact ⟨lexical.absolute_of_all (by decide), rfl⟩
  graph iri h := by
    cases h
    exact lexical.absolute_of_all (by decide)

theorem lost_run_admitted :
    (start ∅ view_cfg).Admitted symmetric (lost_run ++ [.Pass no_faults]) := by
  have hbatch (s : Server) :
      s.Admits text.ascii (.Write (.Batch [] [(some "http://example.org/a", asserted)])) := by
    refine Server.admits_batch s ?_ fun q hq hreserved => ?_
    · rw [List.forall_mem_singleton]
      exact plain_asserted
    · rw [List.nil_append, List.mem_singleton] at hq
      rw [hq] at hreserved
      exact absurd (show is_reserved_graph "http://example.org/a" = true from hreserved)
        (by decide)
  have hsweep (s : Server) :
      s.Admits text.ascii (.Write (.Sweep (.NamedNode "http://example.org/a"))) :=
    Server.admits_sweep s (by decide)
  unfold lost_run
  simp only [List.cons_append, List.nil_append, Server.admitted_cons]
  exact ⟨hbatch _, trivial, hsweep _, view_cfg_accepted, trivial, Server.admitted_nil _⟩

/-- The server after the first write. -/
def seeded : Server :=
  (start ∅ view_cfg).step symmetric
    (.Write (.Batch [] [(some "http://example.org/a", asserted)]))

theorem mem_seeded {g : GraphId} {row : Row} :
    row ∈ rows seeded.backend.quads g ↔
      g = .NamedNode "http://example.org/a" ∧ row = asserted := by
  refine mem_apply_quads.trans ?_
  simp [start, mem_rows, resolve_graph]

theorem seeded_no_orphan : seeded.NoOrphan := by
  intro src hgraph
  obtain ⟨row, hrow⟩ := Finset.nonempty_iff_ne_empty.mpr hgraph
  have hiri : src.inferred_graph = "http://example.org/a" :=
    GraphId.NamedNode.inj (mem_seeded.mp hrow).1
  have hreserved := inferred_graph_reserved src
  rw [hiri] at hreserved
  exact absurd hreserved (by decide)

theorem seeded_view : IsView view_cfg seeded.backend.quads (.Named "http://example.org/a") := by
  refine ⟨⟨by decide, by decide, Or.inl rfl⟩, ?_⟩
  exact Finset.ne_empty_of_mem (mem_seeded.mpr ⟨rfl, rfl⟩)

/-- The view derives the triple the other way around. -/
theorem seeded_want :
    view_want view_cfg seeded.backend.quads symmetric (.Named "http://example.org/a") ≠ ∅ := by
  have hspine : spine_data view_cfg seeded.backend.quads = ∅ := by
    rw [Finset.eq_empty_iff_forall_notMem]
    intro t ht
    obtain ⟨-, iri, hiri, hmem⟩ := mem_spine_data.mp ht
    obtain ⟨row, hrow, -⟩ := mem_triples.mp hmem
    rw [GraphId.NamedNode.inj (mem_seeded.mp hrow).1] at hiri
    exact absurd hiri (by decide)
  have hview : view_data seeded.backend.quads (.Named "http://example.org/a") =
      (row_key asserted).toFinset := by
    have hrows : rows seeded.backend.quads (.NamedNode "http://example.org/a") = {asserted} := by
      ext row
      rw [Finset.mem_singleton]
      exact mem_seeded.trans (and_iff_right rfl)
    rw [view_data, triples, ViewSource.graph_name, resolve_graph, hrows, Finset.singleton_biUnion]
  rw [view_want, hspine, hview, Finset.empty_union]
  decide

/-- The view's inferred graph outlives the view: the pass after the restart ends and leaves it. -/
theorem lost_view_stays :
    Accepted view_cfg ∧ (start ∅ view_cfg).Admitted symmetric (lost_run ++ [.Pass no_faults]) ∧
      ∃ n, (((start ∅ view_cfg).run symmetric lost_run).pass symmetric no_faults).1 = .ok n ∧
        ¬Converged symmetric view_cfg (((start ∅ view_cfg).run symmetric lost_run).pass symmetric
          no_faults).2.backend.quads := by
  refine ⟨view_cfg_accepted, lost_run_admitted, ?_⟩
  obtain ⟨hbatch, hpass, hsweep, -⟩ : _ ∧ _ ∧ _ ∧ _ := by
    simpa only [lost_run, List.cons_append, List.nil_append, Server.admitted_cons]
      using lost_run_admitted
  have hholds := Server.holds_step (r := symmetric)
    (Server.holds_start plain_empty view_cfg_accepted) hbatch
  have hnone (i : Nat) : no_faults i = false := rfl
  obtain ⟨n, -, hdone⟩ := Server.pass_ends (s := seeded) hholds rfl hnone
  have hconverged : Converged symmetric view_cfg
      (seeded.pass symmetric no_faults).2.backend.quads :=
    hdone.converged_iff.mpr seeded_no_orphan
  have hgraph := hconverged.views _ (hdone.data.is_view.mp seeded_view)
  rw [← hdone.data.view_want view_cfg_accepted seeded_view.1] at hgraph
  have hswept := Server.holds_step (r := symmetric) (Server.holds_step hholds hpass) hsweep
  refine restart_forgets hswept.plain view_cfg_accepted rfl (.Named "http://example.org/a") ?_ ?_
    hnone
  · rintro ⟨-, hdata⟩
    exact hdata (rows_swept (List.mem_singleton.mpr rfl))
  · have hkept := hsweep.2 (.NamedNode (ViewSource.Named "http://example.org/a").inferred_graph)
      (inferred_graph_reserved _)
    refine fun hempty => seeded_want ?_
    exact Finset.image_eq_empty.mp (hgraph.symm.trans (hkept.symm.trans hempty))

/-- The theorem on the run of that server. -/
theorem lost_run_iff :
    (start ∅ view_cfg).Admitted symmetric (lost_run ++ [.Pass no_faults]) ∧
    (EveryPass symmetric (start ∅ view_cfg) (lost_run ++ [.Pass no_faults]) (PassRight symmetric) ↔
      EveryPass symmetric (start ∅ view_cfg) (lost_run ++ [.Pass no_faults])
        (EndsClean symmetric)) :=
  ⟨lost_run_admitted, passes_right_iff symmetric ∅ plain_empty view_cfg view_cfg_accepted _
    lost_run_admitted⟩

end horndb.sparql.reasoning
