-- One pass over the views: what it keeps at every step, also where it stops, and what it has
-- made when it ends.
import HornDb.ViewData
import HornDb.Lib.Effects

open HornDb.Lib.Effects

namespace horndb.sparql.reasoning

open lexical (Absolute)
open text (Library)

variable {ox : Library}

/-- What holds of the store and the manager, whatever was called. -/
def On (P : HornBackend → ViewManager → Prop) (w : World) : Prop := P w.backend w.manager

/-- A pass stops where a call fails, and only there. -/
def Stopped (fails : Faults) (P : HornBackend → ViewManager → Prop) (w : World) : Prop :=
  On P w ∧ ∃ i, fails i = true

/-! ## The calls -/

section

variable (fails : Faults) {P Q : HornBackend → ViewManager → Prop}

theorem Stopped.imp {fails : Faults} (h : ∀ b m, P b m → Q b m) (w : World)
    (hw : Stopped fails P w) : Stopped fails Q w := ⟨h _ _ hw.1, hw.2⟩

theorem call_ensures (msg : String) :
    Ensures (On P) (call fails msg) (fun _ => On P) (Stopped fails P) := by
  unfold call
  refine .bind (Q := fun w w' => On P w ∧ w' = w) (fun w h => ⟨h, rfl⟩) fun w => ?_
  refine .bind (Q := fun _ => On P) (fun w' h => h.1) fun _ => ?_
  split
  · rename_i hfail
    exact .throw fun _ h => ⟨h, w.calls, hfail⟩
  · exact .pure fun _ h => h

theorem get_ensures {E : World → Prop} :
    Ensures (On P) (get : Pass World)
      (fun w => On fun b m => P b m ∧ w.backend = b ∧ w.manager = m) E :=
  fun _ h => ⟨h, rfl, rfl⟩

theorem on_backend_ensures {f : HornBackend → HornBackend} {E : World → Prop}
    (h : ∀ b m, P b m → Q (f b) m) : Ensures (On P) (on_backend f) (fun _ => On Q) E :=
  fun w hw => h w.backend w.manager hw

theorem on_manager_ensures {f : ViewManager → ViewManager} {E : World → Prop}
    (h : ∀ b m, P b m → Q b (f m)) : Ensures (On P) (on_manager f) (fun _ => On Q) E :=
  fun w hw => h w.backend w.manager hw

theorem take_touched_ensures {E : World → Prop}
    (h : ∀ b m, P b m → Q { b with touched_graphs := [] } m) :
    Ensures (On P) take_touched_graphs (fun _ => On Q) E :=
  fun w hw => h w.backend w.manager hw

theorem observe_ensures {E : World → Prop}
    (h : ∀ b m, P b m → Q { b with touched_graphs := [] }
      { m with catalog := m.catalog.route (b.touched_graphs.map graph_name) }) :
    Ensures (On P) observe (fun _ => On Q) E := fun w hw => h w.backend w.manager hw

theorem scan_ensures (g : GraphName) :
    Ensures (On P) (scan_graph_lexical fails g)
      (fun ts => On fun b m => P b m ∧ ts = triples b.quads (resolve_graph g))
      (Stopped fails P) := by
  unfold scan_graph_lexical
  refine .bind (call_ensures fails _) fun _ => ?_
  refine .bind get_ensures fun w => ?_
  exact .pure fun _ h => ⟨h.1, by rw [h.2.1]⟩

/-- A graph is rewritten, or nothing is. -/
theorem write_graph_ensures {graph : String} {want : Finset LexTriple}
    (hready : ∀ b m, P b m → b.touched_graphs = [] ∧ Plain ox b.quads ∧
      ∀ t ∈ want, MeantTriple ox t)
    (h : ∀ b m, P b m → (∀ t ∈ want, MeantTriple ox t) → Q (b.set_graph ox graph want) m) :
    Ensures (On P) (write_graph fails ox graph want) (fun _ => On Q) (Stopped fails P) := by
  unfold write_graph
  refine .bind (scan_ensures fails _) fun current => ?_
  by_cases hsame : current = want
  · rw [if_pos hsame]
    refine .pure fun w hw => ?_
    obtain ⟨-, hplain, hwant⟩ := hready _ _ hw.1
    have hset := h _ _ hw.1 hwant
    rwa [set_graph_self hplain (hw.2.symm.trans hsame)] at hset
  · rw [if_neg hsame]
    refine .bind ((call_ensures fails _).stops (Stopped.imp fun _ _ hw => hw.1)) fun _ => ?_
    -- the keys that are written are all keys of terms
    refine Ensures.imp (P := fun w => ((∀ t ∈ current, MeantTriple ox t) ∧
      ∀ t ∈ want, MeantTriple ox t) ∧
        On (fun b m => P b m ∧ current = triples b.quads (.NamedNode graph)) w)
      (Ensures.given ?_) ?_ fun _ _ hw => hw
    swap
    · rintro w ⟨hw, rfl⟩
      obtain ⟨-, hplain, hwant⟩ := hready _ _ hw
      exact ⟨⟨hplain.meant, hwant⟩, hw, rfl⟩
    rintro ⟨hold, hnew⟩
    rw [quads_meant fun t ht => hold t (Finset.mem_sdiff.mp ((Finset.mem_sort _).mp ht)).1,
      quads_meant fun t ht => hnew t (Finset.mem_sdiff.mp ((Finset.mem_sort _).mp ht)).1]
    refine .bind (on_backend_ensures (Q := fun b' m =>
      Q { b' with touched_graphs := [] } m) fun b m hb => ?_) fun _ => ?_
    · obtain ⟨hquiet, hplain, hwant⟩ := hready b m hb.1
      rw [apply_quads_set_graph hquiet hplain hwant current hb.2.symm]
      exact h b m hb.1 hwant
    · exact .bind (take_touched_ensures fun _ _ hb => hb) fun _ => .pure fun _ hb => hb

theorem scan_spine_ensures (gs : List String) :
    Ensures (On P) (scan_spine fails gs)
      (fun ts => On fun b m => P b m ∧
        ∀ t, t ∈ ts ↔ ∃ g ∈ gs, t ∈ triples b.quads (.NamedNode g))
      (Stopped fails P) := by
  induction gs generalizing P with
  | nil =>
    rw [scan_spine]
    exact .pure fun _ h => ⟨h, by simp⟩
  | cons g gs ih =>
    rw [scan_spine]
    refine .bind (scan_ensures fails _) fun ts => ?_
    refine .bind (ih.stops (Stopped.imp fun _ _ hw => hw.1)) fun rest => ?_
    refine .pure fun w hw => ⟨hw.1.1, fun t => ?_⟩
    rw [Finset.mem_union, hw.1.2, hw.2 t]
    simp [resolve_graph]

end

/-! ## What every step keeps -/

section

variable (r : Reasoner ox)

/-- The template is the closed spine, and what it adds is published. -/
structure Built (quads : Finset Quad) (cfg : Reasoning) (engine : Option Engine)
    (materialized : Finset LexTriple) : Prop where
  engine : engine = some ⟨spine_data cfg quads⟩
  materialized : materialized = r.closure (spine_data cfg quads)
  closure_graph : triples quads (.NamedNode SPINE_CLOSURE_GRAPH) = spine_want cfg quads r

/-- What was derived is right wherever nothing that it depends on is stale or touched. -/
structure Holds (b : HornBackend) (m : ViewManager) : Prop where
  plain : Plain ox b.quads
  accepted : Accepted m.cfg
  fits : m.catalog.Fits m.cfg
  named : ∀ src ∈ m.catalog.views.keys,
    (m.catalog.views.state src).inferred_graph = src.inferred_graph
  selected : ∀ src ∈ m.catalog.views.keys, Selected m.cfg src
  spine : m.catalog.spine_stale = false →
    ¬m.catalog.touches_spine (b.touched_graphs.map graph_name) →
    Built r b.quads m.cfg m.spine_engine m.spine_materialized
  views : ∀ src ∈ m.catalog.views.keys, (m.catalog.views.state src).dirty = false →
    src.graph_name ∉ b.touched_graphs.map graph_name →
    ¬m.catalog.touches_spine (b.touched_graphs.map graph_name) →
    triples b.quads (.NamedNode src.inferred_graph) = view_want m.cfg b.quads r src

variable (b₀ : HornBackend) (m₀ : ViewManager)

/-- A pass that began with `b₀` and `m₀` has folded in what was touched. It rewrites reserved
graphs only, and no graph of a source that was no view and is none now. -/
structure Deriving (b : HornBackend) (m : ViewManager) : Prop where
  holds : Holds r b m
  quiet : b.touched_graphs = []
  data : SameData b₀.quads b.quads
  cfg : m.cfg = m₀.cfg
  others : ∀ src, src ∉ m₀.catalog.views.keys → ¬IsView m₀.cfg b₀.quads src →
    rows b.quads (.NamedNode src.inferred_graph) = rows b₀.quads (.NamedNode src.inferred_graph)

end

variable {r : Reasoner ox} {b₀ b : HornBackend} {m₀ m : ViewManager}

namespace ViewCatalog

theorem not_touches_nil {c : ViewCatalog} : ¬c.touches_spine [] := by
  rintro ⟨iri, h, -⟩
  cases h

end ViewCatalog

namespace Deriving

theorem built (h : Deriving r b₀ m₀ b m) (hfresh : m.catalog.spine_stale = false) :
    Built r b.quads m.cfg m.spine_engine m.spine_materialized := by
  refine h.holds.spine hfresh ?_
  rw [h.quiet]
  exact ViewCatalog.not_touches_nil

theorem ready (h : Deriving r b₀ m₀ b m) {want : Finset LexTriple}
    (hwant : ∀ t ∈ want, MeantTriple ox t) :
    b.touched_graphs = [] ∧ Plain ox b.quads ∧ ∀ t ∈ want, MeantTriple ox t :=
  ⟨h.quiet, h.holds.plain, hwant⟩

theorem clean (h : Deriving r b₀ m₀ b m) {src : ViewSource} (hsrc : src ∈ m.catalog.views.keys)
    (hclean : (m.catalog.views.state src).dirty = false) :
    triples b.quads (.NamedNode src.inferred_graph) = view_want m.cfg b.quads r src := by
  refine h.holds.views src hsrc hclean ?_ ?_
  · rw [h.quiet]
    exact List.not_mem_nil
  · rw [h.quiet]
    exact ViewCatalog.not_touches_nil

/-- A reserved graph is rewritten, which no clean view and no fresh spine wrote. -/
theorem set_graph (h : Deriving r b₀ m₀ b m) {graph : String} {want : Finset LexTriple}
    (hgraph : Output graph) (hwant : ∀ t ∈ want, MeantTriple ox t)
    (hspine : m.catalog.spine_stale = false → SPINE_CLOSURE_GRAPH ≠ graph)
    (hclean : ∀ src ∈ m.catalog.views.keys, (m.catalog.views.state src).dirty = false →
      src.inferred_graph ≠ graph)
    (hothers : ∀ src, src ∉ m₀.catalog.views.keys → ¬IsView m₀.cfg b₀.quads src →
      src.inferred_graph ≠ graph) :
    Deriving r b₀ m₀ (b.set_graph ox graph want) m := by
  have hsame : SameData b.quads (b.set_graph ox graph want).quads :=
    same_data_set_graph hgraph.reserved
  have hother {iri : String} (hne : iri ≠ graph) :
      triples (b.set_graph ox graph want).quads (.NamedNode iri) =
        triples b.quads (.NamedNode iri) := by
    rw [triples_set_graph_other fun heq => hne (GraphId.NamedNode.inj heq)]
  refine ⟨⟨h.holds.plain.set_graph hgraph.checked hwant, h.holds.accepted, h.holds.fits,
    h.holds.named, h.holds.selected, ?_, ?_⟩, h.quiet, h.data.trans hsame, h.cfg, ?_⟩
  · intro hfresh _
    have hbuilt := h.built hfresh
    refine ⟨?_, ?_, ?_⟩
    · rw [← hsame.spine_data h.holds.accepted]
      exact hbuilt.engine
    · rw [← hsame.spine_data h.holds.accepted]
      exact hbuilt.materialized
    · rw [hother (hspine hfresh), ← hsame.spine_want h.holds.accepted]
      exact hbuilt.closure_graph
  · intro src hsrc hdirty _ _
    rw [hother (hclean src hsrc hdirty),
      ← hsame.view_want h.holds.accepted (h.holds.selected src hsrc)]
    exact h.clean hsrc hdirty
  · intro src hkeys hview
    rw [rows_set_graph, if_neg fun heq => hothers src hkeys hview (GraphId.NamedNode.inj heq)]
    exact h.others src hkeys hview

/-- What was touched is folded in. -/
theorem observe (h : Holds r b₀ m₀) :
    Deriving r b₀ m₀ { b₀ with touched_graphs := [] }
      { m₀ with catalog := m₀.catalog.route (b₀.touched_graphs.map graph_name) } := by
  have hroute := ViewCatalog.route_routes m₀.catalog (b₀.touched_graphs.map graph_name)
  refine ⟨⟨h.plain, h.accepted, ⟨?_, ?_⟩, ?_, ?_, ?_, ?_⟩, rfl, fun _ _ => rfl, rfl, fun _ _ _ => rfl⟩
  · exact hroute.spine_patterns.trans h.fits.spine
  · exact hroute.select_patterns.trans h.fits.select
  · intro src hsrc
    rw [hroute.keys] at hsrc
    rcases hroute.state src with heq | heq
    · rw [heq]
      exact h.named src hsrc
    · rw [heq]
      exact h.named src hsrc
  · intro src hsrc
    rw [hroute.keys] at hsrc
    exact h.selected src hsrc
  · intro hfresh _
    obtain ⟨hfresh, htouch⟩ := hroute.fresh hfresh
    exact h.spine hfresh htouch
  · intro src hsrc hclean _ _
    rw [hroute.keys] at hsrc
    have hrouted := (h.selected src hsrc).routed h.fits
    obtain ⟨hclean, hgraph, htouch⟩ := hroute.clean src hsrc hrouted hclean
    exact h.views src hsrc hclean hgraph htouch

/-- Just the current views have entries now. -/
theorem refresh (h : Deriving r b₀ m₀ b m) {graphs : List String} {d : Bool}
    (hwanted : ∀ src, src ∈ m.catalog.wanted graphs d ↔ IsView m₀.cfg b₀.quads src) :
    Deriving r b₀ m₀ b { m with catalog := (m.catalog.refresh_membership graphs d).1 } := by
  have hkeys := ViewCatalog.refresh_keys m.catalog graphs d
  refine ⟨⟨h.holds.plain, h.holds.accepted, ⟨h.holds.fits.spine, h.holds.fits.select⟩,
    ?_, ?_, ?_, ?_⟩, h.quiet, h.data, h.cfg, h.others⟩
  · intro src hsrc
    dsimp only at hsrc ⊢
    rw [hkeys] at hsrc
    rw [ViewCatalog.refresh_state _ _ _ hsrc]
    split
    · rename_i hold
      exact h.holds.named src hold
    · rfl
  · intro src hsrc
    dsimp only at hsrc ⊢
    rw [hkeys, hwanted] at hsrc
    rw [h.cfg]
    exact hsrc.1
  · exact fun hfresh _ => h.built hfresh
  · intro src hsrc hclean _ _
    dsimp only at hsrc hclean ⊢
    rw [hkeys] at hsrc
    rw [ViewCatalog.refresh_state _ _ _ hsrc] at hclean
    split at hclean
    · rename_i hold
      exact h.clean hold hclean
    · cases hclean

/-- The template is being built: the manager says that the spine is stale. -/
theorem stale (h : Deriving r b₀ m₀ b m) (hstale : m.catalog.spine_stale = true)
    (materialized : Finset LexTriple) :
    Deriving r b₀ m₀ b { m with spine_materialized := materialized } := by
  refine ⟨⟨h.holds.plain, h.holds.accepted, h.holds.fits, h.holds.named, h.holds.selected, ?_, ?_⟩,
    h.quiet, h.data, h.cfg, h.others⟩
  · intro hfresh
    exact absurd (hstale.symm.trans hfresh) Bool.noConfusion
  · intro src hsrc hclean _ _
    exact h.clean hsrc hclean

theorem spine_fresh (h : Deriving r b₀ m₀ b m)
    (hmat : m.spine_materialized = r.closure (spine_data m.cfg b.quads))
    (hgraph : triples b.quads (.NamedNode SPINE_CLOSURE_GRAPH) = spine_want m.cfg b.quads r) :
    Deriving r b₀ m₀ b { m with
      spine_engine := some ⟨spine_data m.cfg b.quads⟩
      catalog := m.catalog.mark_spine_fresh } := by
  refine ⟨⟨h.holds.plain, h.holds.accepted, ⟨h.holds.fits.spine, h.holds.fits.select⟩, h.holds.named,
    h.holds.selected, ?_, ?_⟩, h.quiet, h.data, h.cfg, h.others⟩
  · intro _ _
    exact ⟨rfl, hmat, hgraph⟩
  · intro src hsrc hclean _ _
    exact h.clean hsrc hclean

/-- A view whose graph is right now is marked so. -/
theorem mark_derived (h : Deriving r b₀ m₀ b m) {src : ViewSource}
    (hsrc : src ∈ m.catalog.views.keys)
    (hgraph : triples b.quads (.NamedNode src.inferred_graph) = view_want m.cfg b.quads r src)
    (consistent : Bool) :
    Deriving r b₀ m₀ b { m with catalog := m.catalog.mark_derived src consistent } := by
  refine ⟨⟨h.holds.plain, h.holds.accepted, ⟨h.holds.fits.spine, h.holds.fits.select⟩,
    ?_, ?_, ?_, ?_⟩, h.quiet, h.data, h.cfg, h.others⟩
  · intro x hx
    dsimp only [ViewCatalog.mark_derived] at hx ⊢
    rw [ViewMap.keys_modify] at hx
    rw [ViewMap.state_modify hsrc]
    split
    · rename_i heq
      rw [heq]
      exact h.holds.named src hsrc
    · exact h.holds.named x hx
  · intro x hx
    dsimp only [ViewCatalog.mark_derived] at hx
    rw [ViewMap.keys_modify] at hx
    exact h.holds.selected x hx
  · exact fun hfresh _ => h.built hfresh
  · intro x hx hclean _ _
    dsimp only [ViewCatalog.mark_derived] at hx hclean
    rw [ViewMap.keys_modify] at hx
    rw [ViewMap.state_modify hsrc] at hclean
    split at hclean
    · rename_i heq
      rw [heq]
      exact hgraph
    · exact h.clean hx hclean

/-- What queries may see is not asked. -/
theorem visible (h : Deriving r b₀ m₀ b m) (visible_inferred : Finset String) :
    Deriving r b₀ m₀ { b with visible_inferred := visible_inferred } m := by
  exact ⟨⟨h.holds.plain, h.holds.accepted, h.holds.fits, h.holds.named, h.holds.selected,
    h.holds.spine, h.holds.views⟩, h.quiet, h.data, h.cfg, h.others⟩

end Deriving

/-! ## The stages of a pass -/

section

variable (r b₀ m₀)

/-- Just the current views have entries, and the graphs of the dropped ones are empty. -/
structure Cleared (b : HornBackend) (m : ViewManager) : Prop extends Deriving r b₀ m₀ b m where
  current : ∀ src, src ∈ m.catalog.views.keys ↔ IsView m₀.cfg b₀.quads src
  gone : ∀ src ∈ m₀.catalog.views.keys, ¬IsView m₀.cfg b₀.quads src →
    triples b.quads (.NamedNode src.inferred_graph) = ∅

/-- The spine is closed. -/
structure Ready (b : HornBackend) (m : ViewManager) : Prop extends Cleared r b₀ m₀ b m where
  fresh : m.catalog.spine_stale = false

/-- Everything is derived and published. -/
structure Done (b : HornBackend) (m : ViewManager) : Prop extends Ready r b₀ m₀ b m where
  clean : m.catalog.views.dirty_keys = ∅
  catalog_graph : triples b.quads (.NamedNode VIEWS_GRAPH) = m.catalog.catalog_triples.toFinset
  visible : b.visible_inferred =
    if m.cfg.default_dataset_includes_inferred then m.catalog.visible_inferred else ∅

end

/-- A graph of reasoning is rewritten that is no graph of a source without a view. -/
theorem Cleared.set_graph (h : Cleared r b₀ m₀ b m) {graph : String} {want : Finset LexTriple}
    (hgraph : Output graph) (hwant : ∀ t ∈ want, MeantTriple ox t)
    (hspine : m.catalog.spine_stale = false → SPINE_CLOSURE_GRAPH ≠ graph)
    (hclean : ∀ src ∈ m.catalog.views.keys, (m.catalog.views.state src).dirty = false →
      src.inferred_graph ≠ graph)
    (hview : ∀ src, ¬IsView m₀.cfg b₀.quads src → src.inferred_graph ≠ graph) :
    Cleared r b₀ m₀ (b.set_graph ox graph want) m where
  toDeriving := h.toDeriving.set_graph hgraph hwant hspine hclean fun src _ => hview src
  current := h.current
  gone src hsrc hnone := by
    rw [triples_set_graph_other fun heq => hview src hnone (GraphId.NamedNode.inj heq)]
    exact h.gone src hsrc hnone

theorem Cleared.catalog_meant (h : Cleared r b₀ m₀ b m) :
    ∀ t ∈ m.catalog.catalog_triples.toFinset, MeantTriple ox t := by
  refine meant_catalog fun src hsrc => ⟨h.holds.named src hsrc, ?_⟩
  rintro iri rfl
  obtain ⟨row, hrow⟩ := Finset.nonempty_iff_ne_empty.mpr (h.data.is_view.mp ((h.current _).mp hsrc)).2
  exact (h.holds.plain _ (mem_rows.mp hrow)).graph iri rfl

variable {fails : Faults}

/-- The graphs of the dropped views are emptied. -/
theorem clear_gone_ensures (gone : List ViewState)
    (hgone : ∀ v ∈ gone, ∃ src ∈ m₀.catalog.views.keys, ¬IsView m₀.cfg b₀.quads src ∧
      v.inferred_graph = src.inferred_graph)
    (hall : ∀ src ∈ m₀.catalog.views.keys, ¬IsView m₀.cfg b₀.quads src →
      ∃ v ∈ gone, v.inferred_graph = src.inferred_graph) :
    Ensures
      (On fun b m => Deriving r b₀ m₀ b m ∧
        ∀ src, src ∈ m.catalog.views.keys ↔ IsView m₀.cfg b₀.quads src)
      (gone.forM fun v => clear_derived fails ox v.inferred_graph)
      (fun _ => On (Cleared r b₀ m₀)) (Stopped fails (Deriving r b₀ m₀)) := by
  have hrun := Ensures.forM (I := fun (done : List ViewState) => On fun b m =>
    (Deriving r b₀ m₀ b m ∧ ∀ src, src ∈ m.catalog.views.keys ↔ IsView m₀.cfg b₀.quads src) ∧
      ∀ v ∈ done, triples b.quads (.NamedNode v.inferred_graph) = ∅)
    (E := Stopped fails (Deriving r b₀ m₀)) (f := fun v => clear_derived fails ox v.inferred_graph)
    gone ?_
  · refine hrun.imp (fun w hw => ⟨hw, by simp⟩) fun _ w hw => ⟨hw.1.1, hw.1.2, ?_⟩
    intro src hsrc hview
    obtain ⟨v, hv, heq⟩ := hall src hsrc hview
    rw [← heq]
    exact hw.2 v hv
  · intro done v hpre
    obtain ⟨src, hsrc, hview, heq⟩ := hgone v (hpre.subset (by simp))
    refine (write_graph_ensures fails (fun b m hb => hb.1.1.ready (by simp)) ?_).stops
      (Stopped.imp fun b m hb => hb.1.1)
    rintro b m ⟨⟨hder, hcur⟩, hdone⟩ hwant
    have hne {x : ViewSource} (hx : x ≠ src) : x.inferred_graph ≠ v.inferred_graph :=
      fun h => hx (ViewSource.inferred_graph_inj (h.trans heq))
    refine ⟨⟨hder.set_graph (heq ▸ inferred_output src) hwant ?_ ?_ ?_, hcur⟩, ?_⟩
    · intro _
      rw [heq]
      exact (inferred_graph_ne src).1.symm
    · intro x hx _
      refine hne ?_
      rintro rfl
      exact hview ((hcur x).mp hx)
    · intro x hx _
      refine hne ?_
      rintro rfl
      exact hx hsrc
    · intro u hu
      by_cases hgraph : u.inferred_graph = v.inferred_graph
      · rw [hgraph, triples_set_graph hwant]
      · rw [triples_set_graph_other fun h => hgraph (GraphId.NamedNode.inj h)]
        rcases List.mem_append.mp hu with hu | hu
        · exact hdone u hu
        · rw [List.mem_singleton] at hu
          exact absurd (congrArg _ hu) hgraph

theorem build_spine_ensures {gs : List String}
    (hgs : ∀ iri, iri ∈ gs ↔ rows b₀.quads (.NamedNode iri) ≠ ∅) :
    Ensures (On fun b m => Cleared r b₀ m₀ b m ∧ m.catalog.spine_stale = true)
      (build_spine r fails gs) (fun _ => On (Ready r b₀ m₀))
      (Stopped fails (Deriving r b₀ m₀)) := by
  unfold build_spine
  refine .bind get_ensures fun w => ?_
  -- the graphs of the spine hold what they held when the pass began
  have hscan : Ensures
      (On fun b m => (Cleared r b₀ m₀ b m ∧ m.catalog.spine_stale = true) ∧ w.backend = b ∧
        w.manager = m)
      (if w.manager.cfg.views.include_spine then
        scan_spine fails (gs.filter w.manager.catalog.is_spine_graph) else pure ∅)
      (fun asserted => On fun b m => (Cleared r b₀ m₀ b m ∧ m.catalog.spine_stale = true) ∧
        asserted = spine_data m.cfg b.quads)
      (Stopped fails (Deriving r b₀ m₀)) := by
    split
    · rename_i hspine
      refine ((scan_spine_ensures fails _).imp (fun _ hw => hw) ?_).stops
        (Stopped.imp fun _ _ hb => hb.1.1.toDeriving)
      rintro asserted w' ⟨⟨⟨hcleared, hstale⟩, hb, hm⟩, hmem⟩
      refine ⟨⟨hcleared, hstale⟩, ?_⟩
      ext t
      rw [hmem t, mem_spine_data, ← hm]
      simp only [hspine, true_and, List.mem_filter, hgs]
      refine exists_congr fun iri => ?_
      rw [hm, hcleared.holds.fits.is_spine_graph]
      constructor
      · exact fun h => ⟨h.1.2, h.2⟩
      · rintro ⟨hiri, ht⟩
        refine ⟨⟨?_, hiri⟩, ht⟩
        rw [hcleared.data.spine_graph hcleared.holds.accepted hiri]
        exact rows_ne_empty ht
    · rename_i hspine
      refine .pure ?_
      rintro w' ⟨⟨hcleared, hstale⟩, hb, hm⟩
      refine ⟨⟨hcleared, hstale⟩, ?_⟩
      rw [spine_data, ← hm, if_neg hspine]
  refine .bind hscan fun asserted => ?_
  refine .bind ((call_ensures fails _).stops (Stopped.imp fun _ _ hb => hb.1.1.toDeriving))
    fun _ => ?_
  refine .bind (on_manager_ensures (Q := fun b m =>
    (Cleared r b₀ m₀ b m ∧ m.catalog.spine_stale = true) ∧ asserted = spine_data m.cfg b.quads ∧
      m.spine_materialized = r.closure asserted) ?_) fun _ => ?_
  · rintro b m ⟨⟨hcleared, hstale⟩, hasserted⟩
    exact ⟨⟨⟨hcleared.stale hstale _, hcleared.current, hcleared.gone⟩, hstale⟩, hasserted, rfl⟩
  refine .bind ((write_graph_ensures fails (Q := fun b m =>
    ((Cleared r b₀ m₀ b m ∧ m.catalog.spine_stale = true) ∧ asserted = spine_data m.cfg b.quads ∧
      m.spine_materialized = r.closure asserted) ∧
      triples b.quads (.NamedNode SPINE_CLOSURE_GRAPH) = r.closure asserted \ asserted)
    ?_ ?_).stops (Stopped.imp fun _ _ hb => hb.1.1.toDeriving)) fun _ => ?_
  · rintro b m ⟨⟨hcleared, -⟩, hasserted, -⟩
    refine hcleared.ready fun t ht => r.meant asserted ?_ t (Finset.mem_sdiff.mp ht).1
    rw [hasserted]
    exact hcleared.holds.plain.meant_spine
  · rintro b m ⟨⟨hcleared, hstale⟩, hasserted, hmat⟩ hwant
    refine ⟨⟨⟨hcleared.set_graph spine_output hwant ?_ ?_ ?_, hstale⟩, ?_, hmat⟩, ?_⟩
    · intro hfresh
      exact absurd (hstale.symm.trans hfresh) Bool.noConfusion
    · exact fun src _ _ => (inferred_graph_ne src).1
    · exact fun src _ => (inferred_graph_ne src).1
    · rw [hasserted]
      exact (same_data_set_graph spine_output.reserved).spine_data hcleared.holds.accepted
    · rw [triples_set_graph hwant]
      rfl
  · refine on_manager_ensures ?_
    rintro b m ⟨⟨⟨hcleared, hstale⟩, hasserted, hmat⟩, hgraph⟩
    rw [hasserted] at hmat hgraph ⊢
    exact ⟨⟨hcleared.spine_fresh hmat hgraph, hcleared.current, hcleared.gone⟩, rfl⟩

theorem Ready.template (h : Ready r b₀ m₀ b m) {template : Engine}
    (hengine : m.spine_engine = some template) : template = ⟨spine_data m.cfg b.quads⟩ := by
  rw [(h.built h.fresh).engine] at hengine
  exact (Option.some.inj hengine).symm

/-- A stale view is derived, and no other one. -/
theorem derive_view_ensures {src : ViewSource} {dirty : Finset ViewSource} (hsrc : src ∈ dirty) :
    Ensures (On fun b m => Ready r b₀ m₀ b m ∧ m.catalog.views.dirty_keys = dirty)
      (derive_view r fails src)
      (fun _ => On fun b m => Ready r b₀ m₀ b m ∧
        m.catalog.views.dirty_keys = dirty.erase src)
      (Stopped fails (Deriving r b₀ m₀)) := by
  have hmem {m : ViewManager} (h : m.catalog.views.dirty_keys = dirty) :
      src ∈ m.catalog.views.keys ∧ (m.catalog.views.state src).dirty = true :=
    Finset.mem_filter.mp (h ▸ hsrc)
  unfold derive_view
  refine .bind ((scan_ensures fails _).stops (Stopped.imp fun _ _ hb => hb.1.toDeriving))
    fun asserted => ?_
  refine .bind get_ensures fun w => ?_
  cases hengine : w.manager.spine_engine with
  | none =>
    refine .throw fun w' hw => ?_
    have hbuilt := hw.1.1.1.built hw.1.1.1.fresh
    rw [← hw.2.2] at hbuilt
    exact absurd (hengine.symm.trans hbuilt.engine) (Option.some_ne_none _).symm
  | some template =>
    refine .bind ((call_ensures fails _).stops
      (Stopped.imp fun _ _ hb => hb.1.1.1.toDeriving)) fun _ => ?_
    -- what is published is what the view adds
    refine .bind ((write_graph_ensures fails (Q := fun b m =>
      (Ready r b₀ m₀ b m ∧ m.catalog.views.dirty_keys = dirty) ∧
        triples b.quads (.NamedNode src.inferred_graph) = view_want m.cfg b.quads r src)
      ?_ ?_).stops (Stopped.imp fun _ _ hb => hb.1.1.1.toDeriving)) fun _ => ?_
    · rintro b m ⟨⟨⟨hready, -⟩, hasserted⟩, -, hm⟩
      refine hready.ready fun t ht => r.meant (template.extend asserted).input ?_ t
        (Finset.mem_sdiff.mp (Finset.mem_filter.mp ht).1).1
      rw [hready.template (show _ = some template from hm ▸ hengine), hasserted]
      exact fun t ht => (Finset.mem_union.mp ht).elim (hready.holds.plain.meant_spine t)
        (hready.holds.plain.meant t)
    · rintro b m ⟨⟨⟨hready, hdirty⟩, hasserted⟩, -, hm⟩ hwant
      have hbuilt := hready.built hready.fresh
      obtain ⟨hkeys, htrue⟩ := hmem hdirty
      have hsame : SameData b.quads (b.set_graph ox src.inferred_graph
          (((template.extend asserted).materialized_triples r \
            w.manager.spine_materialized).filter fun t => t ∉ asserted)).quads :=
        same_data_set_graph (inferred_output src).reserved
      refine ⟨⟨⟨hready.set_graph (inferred_output src) hwant ?_ ?_ ?_, hready.fresh⟩, hdirty⟩, ?_⟩
      · exact fun _ => (inferred_graph_ne src).1.symm
      · intro x _ hclean heq
        rw [ViewSource.inferred_graph_inj heq, htrue] at hclean
        cases hclean
      · intro x hx heq
        rw [ViewSource.inferred_graph_inj heq] at hx
        exact hx ((hready.current src).mp hkeys)
      · rw [← hsame.view_want hready.holds.accepted (hready.holds.selected src hkeys),
          triples_set_graph hwant, hm, hbuilt.materialized]
        rw [hready.template (show _ = some template from hm ▸ hengine), hasserted]
        ext t
        simp only [Finset.mem_filter, Engine.extend, Engine.materialized_triples, view_want,
          view_data, Finset.mem_sdiff]
    · refine on_manager_ensures ?_
      rintro b m ⟨⟨hready, hdirty⟩, hgraph⟩
      obtain ⟨hkeys, -⟩ := hmem hdirty
      refine ⟨⟨⟨hready.mark_derived hkeys hgraph _, ?_, hready.gone⟩, hready.fresh⟩, ?_⟩
      · intro x
        rw [← hready.current x, ViewCatalog.mark_derived, ViewMap.keys_modify]
      · rw [ViewCatalog.dirty_keys_mark_derived _ hkeys, hdirty]

/-- There are no more turns than stale views, and each turn derives one. -/
theorem derive_dirty_ensures (turns derived : Nat) :
    Ensures (On fun b m => Ready r b₀ m₀ b m ∧ m.catalog.views.dirty_keys.card ≤ turns)
      (derive_dirty r fails turns derived)
      (fun _ => On fun b m => Ready r b₀ m₀ b m ∧ m.catalog.views.dirty_keys = ∅)
      (Stopped fails (Deriving r b₀ m₀)) := by
  induction turns generalizing derived with
  | zero =>
    rw [derive_dirty]
    exact .pure fun _ hw => ⟨hw.1, Finset.card_eq_zero.mp (Nat.le_zero.mp hw.2)⟩
  | succ turns ih =>
    rw [derive_dirty]
    refine .bind get_ensures fun w => ?_
    cases hnext : w.manager.catalog.next_dirty with
    | none =>
      refine .pure fun w' hw => ⟨hw.1.1, ?_⟩
      rw [← hw.2.2]
      exact ViewCatalog.next_dirty_none _ hnext
    | some src =>
      have hsrc := ViewCatalog.next_dirty_some _ hnext
      have hderive : Ensures _ (derive_view r fails src) _ (Stopped fails (Deriving r b₀ m₀)) :=
        derive_view_ensures hsrc
      refine .bind ((Ensures.given (p := w.manager.catalog.views.dirty_keys.card ≤ turns + 1)
        fun hcard => hderive.imp (fun _ hw => hw) ?_).imp ?_ fun _ _ hw => hw) fun _ =>
          ih (derived + 1)
      · rintro _ w' ⟨hready, hdirty⟩
        refine ⟨hready, ?_⟩
        rw [hdirty, Finset.card_erase_of_mem hsrc]
        omega
      · rintro w' ⟨⟨hready, hcard⟩, -, hm⟩
        exact ⟨hm ▸ hcard, hready, by rw [hm]⟩

theorem publish_ensures :
    Ensures (On fun b m => Ready r b₀ m₀ b m ∧ m.catalog.views.dirty_keys = ∅) (publish fails ox)
      (fun _ => On (Done r b₀ m₀)) (Stopped fails (Deriving r b₀ m₀)) := by
  unfold publish
  refine .bind get_ensures fun w => ?_
  refine .bind ((write_graph_ensures fails (Q := fun b m =>
    ((Ready r b₀ m₀ b m ∧ m.catalog.views.dirty_keys = ∅) ∧ w.manager = m) ∧
      triples b.quads (.NamedNode VIEWS_GRAPH) = m.catalog.catalog_triples.toFinset)
    ?_ ?_).stops (Stopped.imp fun _ _ hb => hb.1.1.toDeriving)) fun _ => ?_
  · rintro b m ⟨⟨hready, -⟩, -, hm⟩
    refine hready.ready ?_
    rw [hm]
    exact hready.catalog_meant
  · rintro b m ⟨⟨hready, hdirty⟩, -, hm⟩ hwant
    refine ⟨⟨⟨⟨hready.set_graph views_output hwant ?_ ?_ ?_, hready.fresh⟩, hdirty⟩, hm⟩, ?_⟩
    · exact fun _ => spine_closure_ne_views
    · exact fun src _ _ => (inferred_graph_ne src).2
    · exact fun src _ => (inferred_graph_ne src).2
    · rw [triples_set_graph hwant, hm]
  · refine on_backend_ensures ?_
    rintro b m ⟨⟨⟨hready, hdirty⟩, rfl⟩, hgraph⟩
    exact ⟨⟨⟨hready.visible _, hready.current, hready.gone⟩, hready.fresh⟩, hdirty, hgraph, rfl⟩

/-- A pass that ends has derived and published everything; one that stops leaves what holds. -/
theorem run_until_clean_ensures (h : Holds r b₀ m₀) (henabled : m₀.cfg.enabled = true) :
    Ensures (On fun b m => b = b₀ ∧ m = m₀) (run_until_clean r fails)
      (fun _ => On (Done r b₀ m₀)) (Stopped fails (Deriving r b₀ m₀)) := by
  have hobserve := Deriving.observe h
  generalize hm₁ : { m₀ with catalog := m₀.catalog.route (b₀.touched_graphs.map graph_name) } = m₁
    at hobserve
  generalize hb₁ : { b₀ with touched_graphs := [] } = b₁ at hobserve
  have hquads : b₁.quads = b₀.quads := by rw [← hb₁]
  have hkeys₁ : m₁.catalog.views.keys = m₀.catalog.views.keys := by
    rw [← hm₁]
    exact (ViewCatalog.route_routes _ _).keys
  have hstop {P : HornBackend → ViewManager → Prop} (hP : ∀ b m, P b m → b = b₁ ∧ m = m₁)
      (w : World) (hw : Stopped fails P w) : Stopped fails (Deriving r b₀ m₀) w := by
    obtain ⟨hb, hm⟩ := hP _ _ hw.1
    refine ⟨?_, hw.2⟩
    unfold On
    rw [hb, hm]
    exact hobserve
  unfold run_until_clean
  refine .bind get_ensures fun w => ?_
  split
  · rename_i hoff
    refine .pure fun w' hw => ?_
    rw [hw.2.2, hw.1.2, henabled] at hoff
    cases hoff
  refine .bind (observe_ensures (Q := fun b m => b = b₁ ∧ m = m₁) ?_) fun _ => ?_
  · rintro b m ⟨⟨rfl, rfl⟩, -⟩
    exact ⟨hb₁, hm₁⟩
  refine .bind get_ensures fun w₁ => ?_
  refine .bind ((scan_ensures fails _).stops (hstop fun b m hb => hb.1)) fun default => ?_
  refine .bind get_ensures fun w₂ => ?_
  refine Ensures.imp (P := fun s => (w₁.backend = b₁ ∧ default = triples b₁.quads .DefaultGraph ∧
    w₂.manager = m₁) ∧ On (fun b m => b = b₁ ∧ m = m₁) s) (Ensures.given ?_) ?_
    (fun _ _ hw => hw)
  swap
  · rintro s ⟨⟨⟨⟨hb, hm⟩, hw₁, -⟩, hdefault⟩, -, hw₂⟩
    exact ⟨⟨hw₁.trans hb, hb ▸ hdefault, hw₂.trans hm⟩, hb, hm⟩
  rintro ⟨hw₁, rfl, hw₂⟩
  rw [hw₁, hw₂]
  -- the sources that should have a view are the current ones
  have hwanted (src : ViewSource) :
      src ∈ m₁.catalog.wanted (graphs b₁.quads) (triples b₁.quads .DefaultGraph ≠ ∅) ↔
        IsView m₀.cfg b₀.quads src := by
    rw [hobserve.holds.fits.mem_wanted hobserve.holds.plain, hobserve.cfg, hquads]
  have hrefresh := hobserve.refresh hwanted
  have hgone {v : ViewState} := ViewCatalog.mem_refresh_gone m₁.catalog (graphs b₁.quads)
    (triples b₁.quads .DefaultGraph ≠ ∅) (v := v)
  generalize hout : m₁.catalog.refresh_membership (graphs b₁.quads)
    (triples b₁.quads .DefaultGraph ≠ ∅) = refreshed at hrefresh hgone
  dsimp only
  refine .bind (on_manager_ensures (Q := fun b m =>
    Deriving r b₀ m₀ b m ∧ ∀ src, src ∈ m.catalog.views.keys ↔ IsView m₀.cfg b₀.quads src) ?_)
    fun _ => ?_
  · rintro b m ⟨rfl, rfl⟩
    refine ⟨hrefresh, fun src => ?_⟩
    rw [← hwanted, ← ViewCatalog.refresh_keys, hout]
  refine .bind (clear_gone_ensures refreshed.2 ?_ ?_) fun _ => ?_
  · intro v hv
    obtain ⟨src, hsrc, hnot, rfl⟩ := hgone.mp hv
    refine ⟨src, hkeys₁ ▸ hsrc, fun hview => hnot ((hwanted src).mpr hview), ?_⟩
    exact hobserve.holds.named src hsrc
  · intro src hsrc hview
    rw [← hkeys₁] at hsrc
    refine ⟨m₁.catalog.views.state src, hgone.mpr ⟨src, hsrc, ?_, rfl⟩, ?_⟩
    · rwa [hwanted]
    · exact hobserve.holds.named src hsrc
  refine .bind get_ensures fun w₃ => ?_
  refine .bind (Q := fun _ => On (Ready r b₀ m₀)) ?_ fun _ => ?_
  · split
    · rename_i hstale
      refine (build_spine_ensures fun iri => ?_).imp ?_ fun _ _ hw => hw
      · rw [mem_graphs, hquads]
      · exact fun w' hw => ⟨hw.1, hw.2.2 ▸ hstale⟩
    · rename_i hfresh
      exact .pure fun w' hw => ⟨hw.1, hw.2.2 ▸ Bool.eq_false_iff.mpr hfresh⟩
  refine .bind get_ensures fun w₄ => ?_
  refine .bind ((derive_dirty_ensures _ 0).imp ?_ fun _ _ hw => hw) fun derived => ?_
  · rintro w' ⟨hready, -, hm⟩
    exact ⟨hready, by rw [hm]⟩
  exact .bind publish_ensures fun _ => .pure fun _ hw => hw

/-- After a pass that has ended, a pass changes nothing. -/
theorem run_until_clean_idle (h : Done r b₀ m₀ b m) :
    Ensures (On fun b' m' => b' = b ∧ m' = m) (run_until_clean r fails)
      (fun _ => On fun b' m' => b' = b ∧ m' = m)
      (Stopped fails fun b' m' => b' = b ∧ m' = m) := by
  have hwanted : m.catalog.views.keys =
      m.catalog.wanted (graphs b.quads) (triples b.quads .DefaultGraph ≠ ∅) := by
    ext src
    rw [h.current, h.holds.fits.mem_wanted h.holds.plain, h.cfg]
    exact h.data.is_view
  unfold run_until_clean
  refine .bind get_ensures fun w => ?_
  split
  · exact .pure fun _ hw => hw.1
  have hquiet : { b with touched_graphs := [] } = b := by rw [← h.quiet]
  refine .bind (observe_ensures (Q := fun b' m' => b' = b ∧ m' = m) ?_) fun _ => ?_
  · rintro b' m' ⟨⟨rfl, rfl⟩, -⟩
    refine ⟨hquiet, ?_⟩
    rw [h.quiet]
    rfl
  refine .bind get_ensures fun w₁ => ?_
  refine .bind ((scan_ensures fails _).stops (Stopped.imp fun _ _ hb => hb.1)) fun default => ?_
  refine .bind get_ensures fun w₂ => ?_
  refine Ensures.imp (P := fun s => (w₁.backend = b ∧ default = triples b.quads .DefaultGraph ∧
    w₂.manager = m) ∧ On (fun b' m' => b' = b ∧ m' = m) s) (Ensures.given ?_) ?_
    (fun _ _ hw => hw)
  swap
  · rintro s ⟨⟨⟨⟨hb, hm⟩, hw₁, -⟩, hdefault⟩, -, hw₂⟩
    exact ⟨⟨hw₁.trans hb, hb ▸ hdefault, hw₂.trans hm⟩, hb, hm⟩
  rintro ⟨hw₁, rfl, hw₂⟩
  rw [hw₁, hw₂]
  dsimp only
  rw [ViewCatalog.refresh_same _ _ _ hwanted]
  refine .bind (on_manager_ensures (Q := fun b' m' => b' = b ∧ m' = m) ?_) fun _ => ?_
  · rintro b' m' ⟨rfl, rfl⟩
    exact ⟨rfl, rfl⟩
  refine .bind (Q := fun _ => On fun b' m' => b' = b ∧ m' = m) (fun _ hw => hw) fun _ => ?_
  refine .bind get_ensures fun w₃ => ?_
  refine .bind (Q := fun _ => On fun b' m' => b' = b ∧ m' = m) ?_ fun _ => ?_
  · split
    · rename_i hstale
      intro w' hw
      rw [hw.2.2, hw.1.2, h.fresh] at hstale
      cases hstale
    · exact .pure fun _ hw => hw.1
  refine .bind get_ensures fun w₄ => ?_
  refine .bind (Q := fun _ => On fun b' m' => b' = b ∧ m' = m) ?_ fun derived => ?_
  · intro w' hw
    have hnone : w₄.manager.catalog.views.dirty_keys.card = 0 := by
      rw [hw.2.2, hw.1.2, h.clean]
      rfl
    rw [hnone]
    exact hw.1
  refine .bind ?_ fun _ => .pure fun _ hw => hw
  -- the catalog's graph and what queries may see are what they were
  unfold publish
  refine .bind get_ensures fun w₅ => ?_
  refine Ensures.imp (P := fun s => w₅.manager = m ∧ On (fun b' m' => b' = b ∧ m' = m) s)
    (Ensures.given fun hw₅ => ?_) (fun _ hw => ⟨hw.2.2.trans hw.1.2, hw.1⟩) (fun _ _ hw => hw)
  rw [hw₅]
  refine .bind (write_graph_ensures fails (Q := fun b' m' => b' = b ∧ m' = m) ?_ ?_) fun _ => ?_
  · rintro b' m' ⟨rfl, -⟩
    exact h.ready h.catalog_meant
  · rintro b' m' ⟨rfl, rfl⟩ -
    exact ⟨set_graph_self h.holds.plain h.catalog_graph, rfl⟩
  refine on_backend_ensures ?_
  rintro b' m' ⟨rfl, rfl⟩
  rw [← h.visible]
  exact ⟨rfl, rfl⟩

end horndb.sparql.reasoning
