-- What the store asks of a pass: the spine, the data of each view, and what the graphs that
-- reasoning writes should hold. All of this is read off the graphs that are not reserved.
import HornDb.ViewManager

namespace horndb.sparql.reasoning

open lexical (Row Absolute Meant)
open text (Library)

variable {ox : Library}

/-! ## The graphs of a set of quads -/

variable {g : GraphId}

theorem mem_rows {quads : Finset Quad} {row : Row} : row ∈ rows quads g ↔ ⟨g, row⟩ ∈ quads := by
  unfold rows
  rw [Finset.mem_image]
  constructor
  · rintro ⟨q, hq, rfl⟩
    have hmem := Finset.mem_filter.mp hq
    rw [← hmem.2]
    exact hmem.1
  · intro h
    exact ⟨⟨g, row⟩, Finset.mem_filter.mpr ⟨h, rfl⟩, rfl⟩

variable {t : LexTriple}

theorem mem_triples {quads : Finset Quad} :
    t ∈ triples quads g ↔ ∃ row ∈ rows quads g, row_key row = some t := by
  simp only [triples, Finset.mem_biUnion, Option.mem_toFinset, Option.mem_def]

theorem rows_ne_empty {quads : Finset Quad} (h : t ∈ triples quads g) : rows quads g ≠ ∅ := by
  obtain ⟨row, hrow, -⟩ := mem_triples.mp h
  exact Finset.ne_empty_of_mem hrow

theorem mem_graphs {quads : Finset Quad} {iri : String} :
    iri ∈ graphs quads ↔ rows quads (.NamedNode iri) ≠ ∅ := by
  unfold graphs
  rw [Finset.mem_sort, Finset.mem_biUnion, ← Finset.nonempty_iff_ne_empty]
  constructor
  · rintro ⟨q, hq, hiri⟩
    rw [Option.mem_toFinset, Option.mem_def, iri_eq_some] at hiri
    exact ⟨q.t, mem_rows.mpr (hiri ▸ hq)⟩
  · rintro ⟨row, hrow⟩
    exact ⟨_, mem_rows.mp hrow, by simp [GraphId.iri]⟩

/-! ## Plain quads -/

/-- The terms are checked and have no base direction, and a named graph has a checked name. -/
structure PlainQuad (ox : Library) (q : Quad) : Prop where
  row : ∀ t ∈ [q.t.1, q.t.2.1, q.t.2.2], t.Checked ox ∧ t.directional = false
  graph : ∀ iri, q.g = .NamedNode iri → Absolute iri.toList

def Plain (ox : Library) (quads : Finset Quad) : Prop := ∀ q ∈ quads, PlainQuad ox q

/-- The terms of a plain quad come back from their keys. -/
theorem PlainQuad.meant {q : Quad} (h : PlainQuad ox q) :
    ∃ t, MeantTriple ox t ∧ terms ox t = q.t := by
  have hkey {t : lexical.OxTerm} (ht : t ∈ [q.t.1, q.t.2.1, q.t.2.2]) :
      ∃ k, Meant ox k ∧ lexical.lexical_to_oxrdf ox k = t := by
    obtain ⟨hchecked, hdir⟩ := h.row t ht
    obtain ⟨k, hk, hback⟩ := lexical.lexical_of_checked hchecked
    exact ⟨k, ⟨t, hchecked, hk⟩, hback.trans ((lexical.undirected_iff t).mpr hdir)⟩
  obtain ⟨s, hs, hsubject⟩ := hkey (t := q.t.1) (by simp)
  obtain ⟨p, hp, hpredicate⟩ := hkey (t := q.t.2.1) (by simp)
  obtain ⟨o, ho, hobject⟩ := hkey (t := q.t.2.2) (by simp)
  exact ⟨toLex (s, toLex (p, o)), ⟨hs, hp, ho⟩, Prod.ext hsubject (Prod.ext hpredicate hobject)⟩

theorem plain_terms (hg : ∀ iri, g = .NamedNode iri → Absolute iri.toList) (h : MeantTriple ox t) :
    PlainQuad ox ⟨g, terms ox t⟩ where
  row x hx := by
    obtain ⟨hs, hp, ho⟩ := h
    simp only [List.mem_cons, List.not_mem_nil, or_false] at hx
    rcases hx with rfl | rfl | rfl
    · exact ⟨hs.back.1, hs.back.2.1⟩
    · exact ⟨hp.back.1, hp.back.2.1⟩
    · exact ⟨ho.back.1, ho.back.2.1⟩
  graph := hg

theorem Plain.mem_triples {quads : Finset Quad} (h : Plain ox quads) :
    t ∈ triples quads g ↔ MeantTriple ox t ∧ terms ox t ∈ rows quads g := by
  rw [reasoning.mem_triples]
  constructor
  · rintro ⟨row, hrow, hkey⟩
    obtain ⟨t', ht', rfl⟩ := (h _ (mem_rows.mp hrow)).meant
    rw [row_key_terms ht'] at hkey
    cases hkey
    exact ⟨ht', hrow⟩
  · exact fun ht => ⟨_, ht.2, row_key_terms ht.1⟩

theorem Plain.rows_eq {quads : Finset Quad} (h : Plain ox quads) (g : GraphId) :
    rows quads g = (triples quads g).image (terms ox) := by
  ext row
  rw [Finset.mem_image]
  constructor
  · intro hrow
    obtain ⟨t, ht, rfl⟩ := (h _ (mem_rows.mp hrow)).meant
    exact ⟨t, h.mem_triples.mpr ⟨ht, hrow⟩, rfl⟩
  · rintro ⟨t, ht, rfl⟩
    exact (h.mem_triples.mp ht).2

/-- The same quads outside the reserved graphs. -/
def SameData (a b : Finset Quad) : Prop :=
  ∀ g, ¬g.Reserved → rows a g = rows b g

theorem SameData.trans {a b c : Finset Quad} (h : SameData a b) (h' : SameData b c) :
    SameData a c := fun g hg => (h g hg).trans (h' g hg)

/-! ## What is derived -/

section

variable (cfg : Reasoning) (quads : Finset Quad)

/-- The patterns stay out of the reserved namespace and do not overlap. -/
def Accepted : Prop := ∃ warnings, validate cfg = .ok warnings

def in_spine (iri : String) : Bool := cfg.spine.any fun p => pattern_matches p iri

/-- The asserted spine that the views share. -/
def spine_data : Finset LexTriple :=
  if cfg.views.include_spine then
    (quads.filter fun q => q.g.iri.any (in_spine cfg)).biUnion fun q => (row_key q.t).toFinset
  else ∅

/-- The asserted triples of a view. -/
def view_data (src : ViewSource) : Finset LexTriple :=
  triples quads (resolve_graph src.graph_name)

/-- The configuration lets the source have a view. -/
def Selected : ViewSource → Prop
  | .Default => True
  | .Named iri => in_spine cfg iri = false ∧ is_reserved_graph iri = false ∧
    (select_patterns cfg = [] ∨ ∃ p ∈ select_patterns cfg, pattern_matches p iri = true)

/-- A current view: its source is selected, and its graph holds something. -/
def IsView (src : ViewSource) : Prop :=
  Selected cfg src ∧ rows quads (resolve_graph src.graph_name) ≠ ∅

variable (r : Reasoner ox)

/-- What the closure of the spine adds to the spine. -/
def spine_want : Finset LexTriple := r.closure (spine_data cfg quads) \ spine_data cfg quads

/-- What the spine with the data of a view derives, beyond the spine's closure and the data. -/
def view_want (src : ViewSource) : Finset LexTriple :=
  (r.closure (spine_data cfg quads ∪ view_data quads src) \ r.closure (spine_data cfg quads)) \
    view_data quads src

end

variable {cfg : Reasoning} {quads quads' : Finset Quad} {src : ViewSource}

/-- A graph of the spine is not reserved. -/
theorem Accepted.not_reserved (h : Accepted cfg) {iri : String} (hspine : in_spine cfg iri = true) :
    is_reserved_graph iri = false := by
  obtain ⟨warnings, hvalid⟩ := h
  obtain ⟨p, hp, hmatch⟩ := List.any_eq_true.mp hspine
  have hreach := validate_spine hvalid hp
  rw [Bool.eq_false_iff]
  intro hreserved
  unfold reaches_reserved pattern_matches at hreach
  unfold is_reserved_graph at hreserved
  unfold pattern_matches at hmatch
  rw [List.isPrefixOf_iff_prefix] at hmatch hreserved
  rw [Bool.or_eq_false_iff, Bool.eq_false_iff, Bool.eq_false_iff] at hreach
  rcases List.prefix_or_prefix_of_prefix hmatch hreserved with hpre | hpre
  · exact hreach.1 (List.isPrefixOf_iff_prefix.mpr hpre)
  · exact hreach.2 (List.isPrefixOf_iff_prefix.mpr hpre)

/-- The graphs of the spine are data. -/
theorem SameData.spine_graph (h : SameData quads quads') (hvalid : Accepted cfg) {iri : String}
    (hiri : in_spine cfg iri = true) :
    rows quads (.NamedNode iri) = rows quads' (.NamedNode iri) := by
  refine h _ fun hreserved => ?_
  have hnot := hvalid.not_reserved hiri
  rw [show is_reserved_graph iri = true from hreserved] at hnot
  cases hnot

theorem mem_spine_data : t ∈ spine_data cfg quads ↔ cfg.views.include_spine = true ∧
      ∃ iri, in_spine cfg iri = true ∧ t ∈ triples quads (.NamedNode iri) := by
  unfold spine_data
  split
  · rename_i hspine
    simp only [hspine, true_and, Finset.mem_biUnion, Finset.mem_filter, mem_triples, mem_rows,
      Option.mem_toFinset, Option.mem_def]
    constructor
    · rintro ⟨⟨g, row⟩, ⟨hq, hiri⟩, hkey⟩
      cases g with
      | NamedNode iri => exact ⟨iri, hiri, row, hq, hkey⟩
      | DefaultGraph => cases hiri
      | BlankNode l => cases hiri
    · rintro ⟨iri, hiri, row, hq, hkey⟩
      exact ⟨⟨.NamedNode iri, row⟩, ⟨hq, hiri⟩, hkey⟩
  · rename_i hspine
    simp [hspine]

theorem spine_data_congr (h : ∀ iri, in_spine cfg iri = true →
    rows quads (.NamedNode iri) = rows quads' (.NamedNode iri)) :
    spine_data cfg quads = spine_data cfg quads' := by
  ext t
  rw [mem_spine_data, mem_spine_data]
  refine and_congr_right fun _ => exists_congr fun iri => and_congr_right fun hiri => ?_
  rw [triples, triples, h iri hiri]

theorem SameData.spine_data (h : SameData quads quads') (hvalid : Accepted cfg) :
    spine_data cfg quads = spine_data cfg quads' :=
  spine_data_congr fun _ hiri => h.spine_graph hvalid hiri

theorem SameData.view_rows (h : SameData quads quads') (hsrc : Selected cfg src) :
    rows quads (resolve_graph src.graph_name) = rows quads' (resolve_graph src.graph_name) := by
  refine h _ fun hreserved => ?_
  cases src with
  | Default => exact hreserved
  | Named iri =>
    have hnot := hsrc.2.1
    rw [show is_reserved_graph iri = true from hreserved] at hnot
    cases hnot

theorem SameData.is_view (h : SameData quads quads') :
    IsView cfg quads src ↔ IsView cfg quads' src := by
  refine and_congr_right fun hsrc => ?_
  rw [h.view_rows hsrc]

theorem SameData.spine_want (h : SameData quads quads') (hvalid : Accepted cfg) (r : Reasoner ox) :
    spine_want cfg quads r = spine_want cfg quads' r := by
  unfold reasoning.spine_want
  rw [h.spine_data hvalid]

theorem SameData.view_want (h : SameData quads quads') (hvalid : Accepted cfg)
    (hsrc : Selected cfg src) (r : Reasoner ox) :
    view_want cfg quads r src = view_want cfg quads' r src := by
  unfold reasoning.view_want view_data triples
  rw [h.spine_data hvalid, h.view_rows hsrc]

theorem Plain.meant (h : Plain ox quads) : ∀ t ∈ triples quads g, MeantTriple ox t :=
  fun _ ht => (h.mem_triples.mp ht).1

theorem Plain.meant_spine (h : Plain ox quads) : ∀ t ∈ spine_data cfg quads, MeantTriple ox t := by
  intro t ht
  obtain ⟨-, iri, -, hmem⟩ := mem_spine_data.mp ht
  exact h.meant t hmem

/-! ## What the catalog asks for -/

/-- The catalog was made for the configuration. -/
structure ViewCatalog.Fits (c : ViewCatalog) (cfg : Reasoning) : Prop where
  spine : c.spine_patterns = cfg.spine
  select : c.select_patterns = reasoning.select_patterns cfg

variable {c : ViewCatalog}

theorem ViewCatalog.Fits.is_spine_graph (h : c.Fits cfg) (iri : String) :
    c.is_spine_graph iri = in_spine cfg iri := by
  rw [ViewCatalog.is_spine_graph, in_spine, h.spine]

theorem ViewCatalog.Fits.selects (h : c.Fits cfg) {iri : String} :
    c.selects iri = true ↔ Selected cfg (.Named iri) := by
  unfold ViewCatalog.selects is_reasoning_output Selected
  rw [h.is_spine_graph, h.select]
  split
  · rename_i hout
    rw [Bool.or_eq_true] at hout
    simp only [Bool.false_eq_true, false_iff]
    rintro ⟨hspine, hreserved, -⟩
    rw [hspine, hreserved] at hout
    simp at hout
  · rename_i hout
    rw [Bool.or_eq_true, not_or, Bool.not_eq_true, Bool.not_eq_true] at hout
    simp [hout.1, hout.2]

theorem Selected.routed (h : c.Fits cfg) (hsrc : Selected cfg src) : c.Routed src := by
  rintro iri rfl
  exact ⟨hsrc.2.1, by rw [h.is_spine_graph]; exact hsrc.1⟩

/-- The wanted sources are the current views. -/
theorem ViewCatalog.Fits.mem_wanted (h : c.Fits cfg) (hplain : Plain ox quads) :
    src ∈ c.wanted (graphs quads) (triples quads .DefaultGraph ≠ ∅) ↔ IsView cfg quads src := by
  cases src with
  | Default => simp [mem_wanted_default, IsView, Selected, ViewSource.graph_name, resolve_graph,
      hplain.rows_eq]
  | Named iri =>
    rw [mem_wanted_named, h.selects, mem_graphs]
    exact and_comm

/-! ## The graphs that reasoning writes -/

/-- The name of such a graph. -/
structure Output (graph : String) : Prop where
  reserved : is_reserved_graph graph = true
  checked : Absolute graph.toList

theorem percent_encode_chars (b : UInt8) :
    ∀ c ∈ percent_encode_byte b, HornDb.Lib.NTriples.iri_char c = true := by
  have hall : ∀ n < 256, (percent_encode_byte (UInt8.ofNat n)).all
      HornDb.Lib.NTriples.iri_char = true := by decide +kernel
  have hb := hall b.toNat b.toNat_lt
  rwa [UInt8.ofNat_toNat, List.all_eq_true] at hb

theorem inferred_output (src : ViewSource) : Output src.inferred_graph where
  reserved := inferred_graph_reserved src
  checked := by
    rw [ViewSource.inferred_graph, String.toList_ofList]
    refine lexical.absolute_append (lexical.absolute_of_all (by decide)) ?_
    cases src with
    | Default => exact List.all_eq_true.mp (by decide)
    | Named iri =>
      intro c hc
      rcases List.mem_append.mp hc with hc | hc
      · exact List.all_eq_true.mp (by decide) c hc
      · obtain ⟨b, -, hb⟩ := List.mem_flatMap.mp hc
        exact percent_encode_chars b c hb

theorem spine_output : Output SPINE_CLOSURE_GRAPH :=
  ⟨spine_closure_reserved, lexical.absolute_of_all (by decide)⟩

theorem views_output : Output VIEWS_GRAPH :=
  ⟨views_reserved, lexical.absolute_of_all (by decide)⟩

theorem meant_typed (value datatype back : String) (h : Absolute datatype.toList)
    (hstring : datatype.toList ≠ text.XSD_STRING)
    (hback : back.toList = '"' :: '^' :: '^' :: '<' :: (datatype.toList ++ ['>'])) :
    Meant ox ("\"" ++ value ++ back).toList := by
  refine ⟨.Literal (.Typed value.toList datatype.toList), ⟨h, hstring⟩, ?_⟩
  rw [String.toList_append, String.toList_append, hback]
  simp [lexical.oxrdf_to_lexical, lexical.OxLiteral.language, lexical.quoted,
    lexical.OxLiteral.value, lexical.OxLiteral.datatype]

/-- The catalog is told with keys of terms. -/
theorem meant_catalog
    (h : ∀ src ∈ c.views.keys, (c.views.state src).inferred_graph = src.inferred_graph ∧
      ∀ iri, src = .Named iri → Absolute iri.toList) :
    ∀ t ∈ c.catalog_triples.toFinset, MeantTriple ox t := by
  have hlex {s p o : String} (hs : Meant ox s.toList) (hp : Meant ox p.toList)
      (ho : Meant ox o.toList) : MeantTriple ox (lex s p o) := ⟨hs, hp, ho⟩
  have hname {s : String} (hs : (s.toList.head?.any Char.isAlpha &&
      s.toList.all HornDb.Lib.NTriples.iri_char) = true) : Meant ox s.toList :=
    .iri (lexical.absolute_of_all hs)
  have hint (n : Nat) : Meant ox (ViewCatalog.int n).toList :=
    meant_typed _ "http://www.w3.org/2001/XMLSchema#integer" _ (lexical.absolute_of_all (by decide))
      (by decide) (by decide)
  have hbool (b : Bool) : Meant ox (ViewCatalog.boolean b).toList :=
    meant_typed _ "http://www.w3.org/2001/XMLSchema#boolean" _ (lexical.absolute_of_all (by decide))
      (by decide) (by decide)
  intro t ht
  rw [List.mem_toFinset] at ht
  simp only [ViewCatalog.catalog_triples, List.mem_cons, List.mem_flatMap, Finset.mem_sort] at ht
  rcases ht with rfl | rfl | ⟨src, hsrc, ht⟩
  · exact hlex (hname (by decide)) (hname (by decide)) (hint _)
  · exact hlex (hname (by decide)) (hname (by decide)) (hname (by decide))
  · obtain ⟨hgraph, hchecked⟩ := h src hsrc
    have hnode : Meant ox (c.views.state src).inferred_graph.toList := by
      rw [hgraph]
      exact .iri (inferred_output src).checked
    simp only [ViewCatalog.view_triples, List.mem_cons, List.not_mem_nil, or_false] at ht
    rcases ht with rfl | rfl | rfl | rfl | rfl | rfl
    · exact hlex hnode (hname (by decide)) (hname (by decide))
    · exact hlex hnode (hname (by decide)) hnode
    · cases src with
      | Default => exact hlex hnode (hname (by decide)) (hname (by decide))
      | Named iri => exact hlex hnode (hname (by decide)) (.iri (hchecked iri rfl))
    · exact hlex hnode (hname (by decide)) (hint _)
    · exact hlex hnode (hname (by decide)) (hbool _)
    · exact hlex hnode (hname (by decide)) (hbool _)

/-! ## One graph rewritten -/

/-- The store with the terms of other triples in a graph. -/
def HornBackend.set_graph (ox : Library) (b : HornBackend) (graph : String)
    (want : Finset LexTriple) : HornBackend :=
  { b with quads := b.quads.filter (fun q => q.g ≠ .NamedNode graph) ∪
      want.image fun t => ⟨.NamedNode graph, terms ox t⟩ }

variable {b : HornBackend} {graph : String} {want : Finset LexTriple}

theorem rows_set_graph (g : GraphId) :
    rows (b.set_graph ox graph want).quads g =
      if g = .NamedNode graph then want.image (terms ox) else rows b.quads g := by
  ext row
  rw [mem_rows, HornBackend.set_graph, Finset.mem_union, Finset.mem_filter, Finset.mem_image]
  split
  · rename_i hg
    simp [hg]
  · rename_i hg
    rw [mem_rows]
    constructor
    · rintro (h | ⟨t', _, heq⟩)
      · exact h.1
      · exact absurd (congrArg Quad.g heq).symm hg
    · exact fun h => Or.inl ⟨h, hg⟩

theorem triples_set_graph_other (h : g ≠ .NamedNode graph) :
    triples (b.set_graph ox graph want).quads g = triples b.quads g := by
  rw [triples, triples, rows_set_graph, if_neg h]

theorem triples_set_graph (h : ∀ t ∈ want, MeantTriple ox t) :
    triples (b.set_graph ox graph want).quads (.NamedNode graph) = want := by
  ext t
  rw [mem_triples, rows_set_graph, if_pos rfl]
  constructor
  · rintro ⟨row, hrow, hkey⟩
    obtain ⟨t', ht', rfl⟩ := Finset.mem_image.mp hrow
    rw [row_key_terms (h t' ht')] at hkey
    cases hkey
    exact ht'
  · exact fun ht => ⟨_, Finset.mem_image_of_mem _ ht, row_key_terms (h t ht)⟩

theorem Plain.set_graph (h : Plain ox b.quads) (hgraph : Absolute graph.toList)
    (hwant : ∀ t ∈ want, MeantTriple ox t) : Plain ox (b.set_graph ox graph want).quads := by
  intro q hq
  rcases Finset.mem_union.mp hq with hq | hq
  · exact h q (Finset.mem_filter.mp hq).1
  · obtain ⟨t, ht, rfl⟩ := Finset.mem_image.mp hq
    exact plain_terms (fun _ heq => GraphId.NamedNode.inj heq ▸ hgraph) (hwant t ht)

theorem rows_ext {quads quads' : Finset Quad} (h : ∀ g, rows quads g = rows quads' g) :
    quads = quads' := by
  ext ⟨g, row⟩
  rw [← mem_rows, ← mem_rows, h]

/-- The graph that holds the triples already stays as it is. -/
theorem set_graph_self (hplain : Plain ox b.quads)
    (h : triples b.quads (.NamedNode graph) = want) : b.set_graph ox graph want = b := by
  have hquads : (b.set_graph ox graph want).quads = b.quads := by
    refine rows_ext fun g => ?_
    rw [rows_set_graph]
    split
    · rename_i hg
      rw [hg, hplain.rows_eq, h]
    · rfl
  exact congrArg (fun quads => { b with quads := quads }) hquads

/-- Rewriting a reserved graph keeps the data. -/
theorem same_data_set_graph (h : is_reserved_graph graph = true) :
    SameData b.quads (b.set_graph ox graph want).quads := by
  intro g hg
  rw [rows_set_graph, if_neg]
  rintro rfl
  exact hg h

/-- One batch from what a graph holds to what it should hold. -/
theorem apply_quads_set_graph (hquiet : b.touched_graphs = []) (hplain : Plain ox b.quads)
    (hwant : ∀ t ∈ want, MeantTriple ox t) (current : Finset LexTriple)
    (hcurrent : triples b.quads (.NamedNode graph) = current) :
    { b.apply_quads (((current \ want).sort.map (terms ox)).map (some graph, ·))
        (((want \ current).sort.map (terms ox)).map (some graph, ·)) with touched_graphs := [] } =
      b.set_graph ox graph want := by
  subst hcurrent
  have hquads : (b.apply_quads
      (((triples b.quads (.NamedNode graph) \ want).sort.map (terms ox)).map (some graph, ·))
      (((want \ triples b.quads (.NamedNode graph)).sort.map (terms ox)).map
        (some graph, ·))).quads = (b.set_graph ox graph want).quads := by
    refine rows_ext fun g => ?_
    ext row
    rw [mem_rows, rows_set_graph]
    unfold HornBackend.apply_quads
    simp only [List.map_map, Finset.mem_union, Finset.mem_sdiff, List.mem_toFinset, List.mem_map,
      Finset.mem_sort, Function.comp_apply, resolve_graph, Quad.mk.injEq]
    split
    · rename_i hg
      subst hg
      simp only [true_and, Finset.mem_image, ← mem_rows]
      constructor
      · rintro (⟨hrow, hkept⟩ | ⟨t, ht, rfl⟩)
        · rw [hplain.rows_eq, Finset.mem_image] at hrow
          obtain ⟨t, ht, rfl⟩ := hrow
          exact ⟨t, not_not.mp fun hnot => hkept ⟨t, ⟨ht, hnot⟩, rfl⟩, rfl⟩
        · exact ⟨t, ht.1, rfl⟩
      · rintro ⟨t, ht, rfl⟩
        by_cases hcurrent : t ∈ triples b.quads (.NamedNode graph)
        · refine Or.inl ⟨(hplain.mem_triples.mp hcurrent).2, ?_⟩
          rintro ⟨t', ⟨hmem, hnot⟩, heq⟩
          -- two keys of one row are the same key
          have hkeys := congrArg row_key heq
          rw [row_key_terms (hplain.meant t' hmem), row_key_terms (hwant t ht)]
            at hkeys
          cases hkeys
          exact hnot ht
        · exact Or.inr ⟨t, ⟨ht, hcurrent⟩, rfl⟩
    · rename_i hg
      rw [mem_rows]
      constructor
      · rintro (h | ⟨t', _, heq, _⟩)
        · exact h.1
        · exact absurd heq.symm hg
      · intro h
        refine Or.inl ⟨h, ?_⟩
        rintro ⟨t', _, heq, _⟩
        exact hg heq.symm
  unfold HornBackend.apply_quads HornBackend.set_graph at *
  simp only at hquads ⊢
  rw [hquads, hquiet]

end horndb.sparql.reasoning
