-- The catalog of the views: which sources have one, which are stale, and against which version
-- of the spine each was derived.
import HornDb.ReasoningViews

namespace horndb.sparql.reasoning

/-- A triple of keys, in their order. -/
abbrev LexTriple := List Char ×ₗ List Char ×ₗ List Char

instance : DecidableEq LexTriple := inferInstance

def lex (s p o : String) : LexTriple := toLex (s.toList, toLex (p.toList, o.toList))

structure ViewState where
  inferred_graph : String
  derived_at_spine_version : Nat
  dirty : Bool
  consistent : Bool
deriving DecidableEq, Repr

/-! ## The views by their sources -/

/-- A map in the order of its sources. What it says of another source is never read. -/
structure ViewMap where
  keys : Finset ViewSource
  state : ViewSource → ViewState

namespace ViewMap

/-- The entry of a source, or a new one. -/
def or_insert (m : ViewMap) (src : ViewSource) (v : ViewState) : ViewMap :=
  if src ∈ m.keys then m else ⟨insert src m.keys, Function.update m.state src v⟩

def remove (m : ViewMap) (src : ViewSource) : ViewMap := { m with keys := m.keys.erase src }

/-- Change the entry of a source where it has one. -/
def modify (m : ViewMap) (src : ViewSource) (f : ViewState → ViewState) : ViewMap :=
  if src ∈ m.keys then { m with state := Function.update m.state src (f (m.state src)) } else m

def map_values (m : ViewMap) (f : ViewState → ViewState) : ViewMap :=
  { m with state := fun src => f (m.state src) }

def dirty_keys (m : ViewMap) : Finset ViewSource := m.keys.filter fun src => (m.state src).dirty

@[simp]
theorem keys_modify (m : ViewMap) (src : ViewSource) (f : ViewState → ViewState) :
    (m.modify src f).keys = m.keys := by
  unfold modify
  split <;> rfl

theorem state_modify {m : ViewMap} {src : ViewSource} (h : src ∈ m.keys) (f : ViewState → ViewState)
    (x : ViewSource) :
    (m.modify src f).state x = if x = src then f (m.state src) else m.state x := by
  rw [modify, if_pos h]
  exact Function.update_apply _ _ _ _

end ViewMap

/-! ## The catalog -/

structure ViewCatalog where
  spine_patterns : List String
  select_patterns : List String
  spine_version : Nat
  spine_stale : Bool
  views : ViewMap

/-- The state of a view that was never derived. Its version is behind every version. -/
def ViewSource.fresh (src : ViewSource) : ViewState where
  inferred_graph := src.inferred_graph
  derived_at_spine_version := 2 ^ 64 - 1
  dirty := true
  consistent := true

namespace ViewCatalog

/-- No views yet, and a spine that was never built. -/
def new (cfg : Reasoning) : ViewCatalog where
  spine_patterns := cfg.spine
  select_patterns := reasoning.select_patterns cfg
  spine_version := 0
  spine_stale := true
  views := ⟨∅, ViewSource.fresh⟩

def is_spine_graph (c : ViewCatalog) (iri : String) : Bool :=
  c.spine_patterns.any fun p => pattern_matches p iri

def selects (c : ViewCatalog) (iri : String) : Bool :=
  if c.is_spine_graph iri || is_reasoning_output iri then false
  else c.select_patterns.isEmpty || c.select_patterns.any fun p => pattern_matches p iri

/-- The sources that should have a view. -/
def wanted (c : ViewCatalog) (graphs : List String) (default_non_empty : Bool) :
    Finset ViewSource :=
  ((graphs.filter c.selects).map ViewSource.Named).toFinset ∪
    if default_non_empty then {.Default} else ∅

/-- Give each source that should have one a view, and drop the other views. -/
def refresh_membership (c : ViewCatalog) (graphs : List String) (default_non_empty : Bool) :
    ViewCatalog × List ViewState :=
  let wanted := c.wanted graphs default_non_empty
  let views := wanted.sort.foldl (fun m src => m.or_insert src src.fresh) c.views
  let gone := (views.keys \ wanted).sort
  ({ c with views := gone.foldl ViewMap.remove views }, gone.map views.state)

/-- Every view is stale against the next version of the spine. -/
def bump_spine (c : ViewCatalog) : ViewCatalog :=
  { c with
    spine_version := c.spine_version + 1
    spine_stale := true
    views := c.views.map_values fun v => { v with dirty := true } }

/-- What a touched graph marks, and whether it is one of the spine. -/
def route_one (out : ViewCatalog × Bool) (g : GraphName) : ViewCatalog × Bool :=
  let mark (src : ViewSource) : ViewCatalog × Bool :=
    ({ out.1 with views := out.1.views.modify src fun v => { v with dirty := true } }, out.2)
  match g with
  | some iri =>
    if is_reasoning_output iri then out
    else if out.1.is_spine_graph iri then (out.1, true)
    else mark (.Named iri)
  | none => mark .Default

def route (c : ViewCatalog) (touched : List GraphName) : ViewCatalog :=
  let out := touched.foldl route_one (c, false)
  if out.2 then out.1.bump_spine else out.1

def mark_spine_fresh (c : ViewCatalog) : ViewCatalog := { c with spine_stale := false }

/-- The first view that needs work. -/
def next_dirty (c : ViewCatalog) : Option ViewSource := c.views.dirty_keys.sort.head?

def mark_derived (c : ViewCatalog) (src : ViewSource) (consistent : Bool) : ViewCatalog :=
  { c with views := c.views.modify src fun v =>
    { v with dirty := false, consistent, derived_at_spine_version := c.spine_version } }

def visible_inferred (c : ViewCatalog) : Finset String :=
  insert SPINE_CLOSURE_GRAPH (c.views.keys.image fun src => (c.views.state src).inferred_graph)

def rdf_type : String := "http://www.w3.org/1999/02/22-rdf-syntax-ns#type"

def int (n : Nat) : String :=
  "\"" ++ toString n ++ "\"^^<http://www.w3.org/2001/XMLSchema#integer>"

def boolean (b : Bool) : String :=
  "\"" ++ toString b ++ "\"^^<http://www.w3.org/2001/XMLSchema#boolean>"

def view_triples (src : ViewSource) (v : ViewState) : List LexTriple :=
  let node := v.inferred_graph
  [lex node rdf_type (NS ++ "View"), lex node (NS ++ "inferredGraph") node,
    match src with
    | .Named s => lex node (NS ++ "source") s
    | .Default => lex node rdf_type (NS ++ "DefaultGraphView"),
    lex node (NS ++ "derivedAtSpineVersion") (int v.derived_at_spine_version),
    lex node (NS ++ "stale") (boolean v.dirty),
    lex node (NS ++ "consistent") (boolean v.consistent)]

def catalog_triples (c : ViewCatalog) : List LexTriple :=
  lex VIEWS_GRAPH (NS ++ "spineVersion") (int c.spine_version) ::
    lex VIEWS_GRAPH (NS ++ "spineClosureGraph") SPINE_CLOSURE_GRAPH ::
    c.views.keys.sort.flatMap fun src => view_triples src (c.views.state src)

/-! ## What the operations do -/

theorem mem_wanted_named {c : ViewCatalog} {graphs : List String} {d : Bool} {iri : String} :
    .Named iri ∈ c.wanted graphs d ↔ iri ∈ graphs ∧ c.selects iri = true := by
  unfold wanted
  cases d <;> simp

theorem mem_wanted_default {c : ViewCatalog} {graphs : List String} {d : Bool} :
    .Default ∈ c.wanted graphs d ↔ d = true := by
  unfold wanted
  cases d <;> simp

theorem foldl_or_insert (l : List ViewSource) (m : ViewMap) :
    (l.foldl (fun m src => m.or_insert src src.fresh) m).keys = m.keys ∪ l.toFinset ∧
      ∀ src, (l.foldl (fun m src => m.or_insert src src.fresh) m).state src =
        if src ∈ l ∧ src ∉ m.keys then src.fresh else m.state src := by
  induction l generalizing m with
  | nil => simp
  | cons x l ih =>
    obtain ⟨hkeys, hstate⟩ := ih (m.or_insert x x.fresh)
    rw [List.foldl_cons]
    by_cases hx : x ∈ m.keys
    · have heq : m.or_insert x x.fresh = m := if_pos hx
      rw [heq] at hkeys hstate ⊢
      refine ⟨?_, fun src => ?_⟩
      · rw [hkeys, List.toFinset_cons, Finset.union_insert,
          Finset.insert_eq_of_mem (Finset.mem_union_left _ hx)]
      · rw [hstate src]
        refine if_congr ⟨fun h => ⟨List.mem_cons_of_mem _ h.1, h.2⟩, fun h => ⟨?_, h.2⟩⟩ rfl rfl
        exact (List.mem_cons.mp h.1).resolve_left fun heq => h.2 (heq ▸ hx)
    · have heq : m.or_insert x x.fresh = ⟨insert x m.keys, Function.update m.state x x.fresh⟩ :=
        if_neg hx
      rw [heq] at hkeys hstate ⊢
      refine ⟨?_, fun src => ?_⟩
      · rw [hkeys, List.toFinset_cons, Finset.union_insert, Finset.insert_union]
      · rw [hstate src]
        by_cases hsrc : src = x
        · subst hsrc
          simp [hx]
        · simp [hsrc]

theorem foldl_remove (l : List ViewSource) (m : ViewMap) :
    (l.foldl ViewMap.remove m).keys = m.keys \ l.toFinset ∧
      (l.foldl ViewMap.remove m).state = m.state := by
  induction l generalizing m with
  | nil => simp
  | cons x l ih =>
    obtain ⟨hkeys, hstate⟩ := ih (m.remove x)
    rw [List.foldl_cons, hkeys, hstate, List.toFinset_cons, ViewMap.remove, Finset.sdiff_insert,
      Finset.erase_sdiff_comm]
    exact ⟨rfl, rfl⟩

variable (c : ViewCatalog) (graphs : List String) (d : Bool)

/-- Afterwards just the wanted sources have views. -/
theorem refresh_keys : (c.refresh_membership graphs d).1.views.keys = c.wanted graphs d := by
  have hinsert := (foldl_or_insert (c.wanted graphs d).sort c.views).1
  rw [refresh_membership]
  dsimp only
  rw [(foldl_remove _ _).1, hinsert, Finset.sort_toFinset, Finset.sort_toFinset]
  ext src
  simp only [Finset.mem_sdiff, Finset.mem_union]
  tauto

/-- A view that was there is kept as it is; other ones are fresh. -/
theorem refresh_state {src : ViewSource} (h : src ∈ c.wanted graphs d) :
    (c.refresh_membership graphs d).1.views.state src =
      if src ∈ c.views.keys then c.views.state src else src.fresh := by
  have hinsert := (foldl_or_insert (c.wanted graphs d).sort c.views).2 src
  rw [refresh_membership]
  dsimp only
  rw [(foldl_remove _ _).2, hinsert]
  simp only [Finset.mem_sort, h, true_and]
  by_cases hsrc : src ∈ c.views.keys
  · rw [if_neg (not_not.mpr hsrc), if_pos hsrc]
  · rw [if_pos hsrc, if_neg hsrc]

theorem mem_refresh_gone {v : ViewState} :
    v ∈ (c.refresh_membership graphs d).2 ↔
      ∃ src ∈ c.views.keys, src ∉ c.wanted graphs d ∧ c.views.state src = v := by
  have hkeys := (foldl_or_insert (c.wanted graphs d).sort c.views).1
  have hstate := (foldl_or_insert (c.wanted graphs d).sort c.views).2
  rw [refresh_membership]
  dsimp only
  rw [hkeys, List.mem_map]
  simp only [Finset.mem_sort, Finset.mem_sdiff, Finset.mem_union, hstate, Finset.sort_toFinset]
  constructor
  · rintro ⟨src, ⟨hsrc | hsrc, hgone⟩, hv⟩
    · rw [if_neg fun h => h.2 hsrc] at hv
      exact ⟨src, hsrc, hgone, hv⟩
    · exact absurd hsrc hgone
  · rintro ⟨src, hsrc, hgone, hv⟩
    exact ⟨src, ⟨Or.inl hsrc, hgone⟩, by rw [if_neg fun h => h.2 hsrc, hv]⟩

/-- Where just the wanted sources have views, nothing changes. -/
theorem refresh_same (h : c.views.keys = c.wanted graphs d) :
    c.refresh_membership graphs d = (c, []) := by
  have hkeep (l : List ViewSource) (hl : ∀ src ∈ l, src ∈ c.views.keys) :
      l.foldl (fun m src => m.or_insert src src.fresh) c.views = c.views := by
    induction l with
    | nil => rfl
    | cons x l ih =>
      rw [List.foldl_cons, ViewMap.or_insert, if_pos (hl x List.mem_cons_self)]
      exact ih fun src hsrc => hl src (List.mem_cons_of_mem _ hsrc)
  rw [refresh_membership, hkeep _ fun src hsrc => h ▸ (Finset.mem_sort _).mp hsrc, h,
    Finset.sdiff_self]
  simp

/-- A marked view is no longer dirty. -/
theorem dirty_keys_mark_derived {src : ViewSource} (h : src ∈ c.views.keys) (consistent : Bool) :
    (c.mark_derived src consistent).views.dirty_keys = c.views.dirty_keys.erase src := by
  ext x
  rw [mark_derived, ViewMap.dirty_keys, Finset.mem_filter, ViewMap.keys_modify,
    ViewMap.state_modify h, Finset.mem_erase, ViewMap.dirty_keys, Finset.mem_filter]
  split
  · rename_i heq
    simp [heq]
  · rename_i hne
    simp [hne]

theorem next_dirty_none (h : c.next_dirty = none) : c.views.dirty_keys = ∅ := by
  rw [next_dirty, List.head?_eq_none_iff] at h
  rw [← Finset.sort_toFinset c.views.dirty_keys (· ≤ ·), h]
  rfl

theorem next_dirty_some {src : ViewSource} (h : c.next_dirty = some src) :
    src ∈ c.views.dirty_keys :=
  (Finset.mem_sort _).mp (List.mem_of_head? h)

/-- The graphs that stand for the spine, of those that were touched. -/
def touches_spine (touched : List GraphName) : Prop :=
  ∃ iri, some iri ∈ touched ∧ is_reasoning_output iri = false ∧ c.is_spine_graph iri = true

/-- A source that is neither spine nor reserved. -/
def Routed (src : ViewSource) : Prop :=
  ∀ iri, src = .Named iri → is_reasoning_output iri = false ∧ c.is_spine_graph iri = false

/-- The catalog with some views marked dirty. -/
structure Marks (c c' : ViewCatalog) : Prop where
  spine_patterns : c'.spine_patterns = c.spine_patterns
  select_patterns : c'.select_patterns = c.select_patterns
  spine_version : c'.spine_version = c.spine_version
  spine_stale : c'.spine_stale = c.spine_stale
  keys : c'.views.keys = c.views.keys
  state : ∀ src, c'.views.state src = c.views.state src ∨
    c'.views.state src = { c.views.state src with dirty := true }

variable {c graphs d}

theorem Marks.refl : Marks c c := ⟨rfl, rfl, rfl, rfl, rfl, fun _ => Or.inl rfl⟩

theorem Marks.trans {c₁ c₂ c₃ : ViewCatalog} (h : Marks c₁ c₂) (h' : Marks c₂ c₃) :
    Marks c₁ c₃ where
  spine_patterns := h'.spine_patterns.trans h.spine_patterns
  select_patterns := h'.select_patterns.trans h.select_patterns
  spine_version := h'.spine_version.trans h.spine_version
  spine_stale := h'.spine_stale.trans h.spine_stale
  keys := h'.keys.trans h.keys
  state src := by
    rcases h.state src with heq | heq
    · rw [← heq]
      exact h'.state src
    · rcases h'.state src with heq' | heq'
      · exact Or.inr (heq'.trans heq)
      · rw [heq] at heq'
        exact Or.inr heq'

theorem Marks.is_spine_graph {c' : ViewCatalog} (h : Marks c c') (iri : String) :
    c'.is_spine_graph iri = c.is_spine_graph iri := by
  rw [ViewCatalog.is_spine_graph, ViewCatalog.is_spine_graph, h.spine_patterns]

theorem Marks.dirty {c' : ViewCatalog} (h : Marks c c') {src : ViewSource}
    (hdirty : (c.views.state src).dirty = true) : (c'.views.state src).dirty = true := by
  rcases h.state src with heq | heq
  · rw [heq, hdirty]
  · rw [heq]

theorem Marks.modify (c : ViewCatalog) (src : ViewSource) :
    Marks c { c with views := c.views.modify src fun v => { v with dirty := true } } where
  spine_patterns := rfl
  select_patterns := rfl
  spine_version := rfl
  spine_stale := rfl
  keys := ViewMap.keys_modify _ _ _
  state x := by
    by_cases hsrc : src ∈ c.views.keys
    · dsimp only
      rw [ViewMap.state_modify hsrc]
      by_cases hx : x = src
      · rw [if_pos hx, hx]
        exact Or.inr rfl
      · rw [if_neg hx]
        exact Or.inl rfl
    · refine Or.inl ?_
      dsimp only
      rw [ViewMap.modify, if_neg hsrc]

theorem route_one_marks (out : ViewCatalog × Bool) (g : GraphName) :
    Marks out.1 (route_one out g).1 := by
  unfold route_one
  cases g with
  | none => exact .modify _ _
  | some iri =>
    dsimp only
    split_ifs
    · exact .refl
    · exact .refl
    · exact .modify _ _

/-- The view of a touched graph is marked. -/
theorem route_one_dirty {out : ViewCatalog × Bool} {src : ViewSource}
    (hsrc : src ∈ out.1.views.keys) (hrouted : out.1.Routed src) :
    ((route_one out src.graph_name).1.views.state src).dirty = true := by
  have hmark : ((out.1.views.modify src fun v => { v with dirty := true }).state src).dirty =
      true := by
    rw [ViewMap.state_modify hsrc, if_pos rfl]
  cases src with
  | Default => exact hmark
  | Named iri =>
    obtain ⟨hreserved, hspine⟩ := hrouted iri rfl
    unfold ViewSource.graph_name route_one
    dsimp only
    rw [if_neg (Bool.eq_false_iff.mp hreserved), if_neg (Bool.eq_false_iff.mp hspine)]
    exact hmark

theorem route_one_spine {out : ViewCatalog × Bool} {g : GraphName} :
    (route_one out g).2 = true ↔ out.2 = true ∨
      ∃ iri, g = some iri ∧ is_reasoning_output iri = false ∧ out.1.is_spine_graph iri = true := by
  unfold route_one
  cases g with
  | none => simp
  | some iri =>
    dsimp only
    split_ifs with hreserved hspine
    · simp [hreserved]
    · simp [hreserved, hspine]
    · simp [hspine]

/-- What routing marks: the views of touched graphs, and whether the spine was touched. -/
theorem foldl_route (touched : List GraphName) (out : ViewCatalog × Bool) :
    Marks out.1 (touched.foldl route_one out).1 ∧
      ((touched.foldl route_one out).2 = true ↔ out.2 = true ∨ out.1.touches_spine touched) ∧
      ∀ src ∈ out.1.views.keys, out.1.Routed src → src.graph_name ∈ touched →
        ((touched.foldl route_one out).1.views.state src).dirty = true := by
  induction touched generalizing out with
  | nil => exact ⟨.refl, by simp [touches_spine], by simp⟩
  | cons g touched ih =>
    obtain ⟨hmarks, hspine, hdirty⟩ := ih (route_one out g)
    have hone := route_one_marks out g
    rw [List.foldl_cons]
    refine ⟨hone.trans hmarks, ?_, ?_⟩
    · rw [hspine, route_one_spine]
      simp only [touches_spine, List.mem_cons, hone.is_spine_graph, or_assoc]
      refine or_congr_right ?_
      constructor
      · rintro (⟨iri, rfl, h⟩ | ⟨iri, hmem, h⟩)
        · exact ⟨iri, Or.inl rfl, h⟩
        · exact ⟨iri, Or.inr hmem, h⟩
      · rintro ⟨iri, rfl | hmem, h⟩
        · exact Or.inl ⟨iri, rfl, h⟩
        · exact Or.inr ⟨iri, hmem, h⟩
    · intro src hsrc hrouted hmem
      rcases List.mem_cons.mp hmem with rfl | hmem
      · exact hmarks.dirty (route_one_dirty hsrc hrouted)
      · refine hdirty src (hone.keys ▸ hsrc) (fun iri h => ?_) hmem
        rw [hone.is_spine_graph]
        exact hrouted iri h

/-- After routing, a view is clean where it was and nothing that it is derived from was touched. -/
structure Routes (c c' : ViewCatalog) (touched : List GraphName) : Prop where
  spine_patterns : c'.spine_patterns = c.spine_patterns
  select_patterns : c'.select_patterns = c.select_patterns
  keys : c'.views.keys = c.views.keys
  fresh : c'.spine_stale = false → c.spine_stale = false ∧ ¬c.touches_spine touched
  state : ∀ src, c'.views.state src = c.views.state src ∨
    c'.views.state src = { c.views.state src with dirty := true }
  clean : ∀ src ∈ c.views.keys, c.Routed src → (c'.views.state src).dirty = false →
    (c.views.state src).dirty = false ∧ src.graph_name ∉ touched ∧ ¬c.touches_spine touched

theorem route_routes (c : ViewCatalog) (touched : List GraphName) :
    Routes c (c.route touched) touched := by
  obtain ⟨hmarks, hspine, hdirty⟩ := foldl_route touched (c, false)
  rw [Bool.false_eq_true, false_or] at hspine
  unfold route
  dsimp only
  by_cases hout : (touched.foldl route_one (c, false)).2 = true
  · rw [if_pos hout]
    refine ⟨hmarks.spine_patterns, hmarks.select_patterns, hmarks.keys, ?_, ?_, ?_⟩
    · intro h
      cases h
    · intro src
      refine Or.inr ?_
      change { (touched.foldl route_one (c, false)).1.views.state src with dirty := true } = _
      rcases hmarks.state src with heq | heq
      · rw [heq]
      · rw [heq]
    · intro src _ _ h
      cases h
  · rw [if_neg hout]
    refine ⟨hmarks.spine_patterns, hmarks.select_patterns, hmarks.keys, ?_, hmarks.state, ?_⟩
    · intro h
      exact ⟨hmarks.spine_stale ▸ h, fun htouch => hout (hspine.mpr htouch)⟩
    · intro src hsrc hrouted h
      refine ⟨?_, fun hmem => ?_, fun htouch => hout (hspine.mpr htouch)⟩
      · rw [Bool.eq_false_iff]
        intro htrue
        rw [hmarks.dirty htrue] at h
        cases h
      · rw [hdirty src hsrc hrouted hmem] at h
        cases h

end ViewCatalog

end horndb.sparql.reasoning
