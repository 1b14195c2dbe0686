-- What a successful request leaves in the store, and in which cases it is what was sent.
import HornDb.GraphStoreExact

namespace horndb.server.graph_store

open sparql (GraphId GraphName resolve_graph)
open sparql.lexical (OxTerm OxLiteral Absolute)
open sparql.text (Library)

variable {ox : TermLibrary}

/-! ## Blank nodes -/

def graph_labels : GraphId → List (List Char)
  | .BlankNode label => [label.toList]
  | _ => []

def Quad.labels (q : Quad) : List (List Char) := graph_labels q.g ++ q.t.labels

/-- The new labels are of distinct nodes, and none of them is in the store. -/
structure Apart (f : List Char → List Char) (payload : List Triple) (st : Store) : Prop where
  injective : ∀ y ∈ payload, ∀ z ∈ payload, ∀ a ∈ y.labels, ∀ b ∈ z.labels, f a = f b → a = b
  fresh : ∀ y ∈ payload, ∀ l ∈ y.labels, ∀ q ∈ st.quads, f l ∉ q.labels

/-- No label under which a node of the payload is stored is in the store already. -/
def Fresh (tag : UInt64) (payload : List Triple) (st : Store) : Prop :=
  ∀ y ∈ payload, ∀ l ∈ y.labels, ∀ q ∈ st.quads, scope_blank_node_label tag l ∉ q.labels

theorem Fresh.apart {tag : UInt64} {payload : List Triple} {st : Store}
    (h : Fresh tag payload st) : Apart (scope_blank_node_label tag) payload st :=
  ⟨fun _ _ _ _ _ _ _ _ heq => scope_injective tag heq, h⟩

section Apart

variable {tag : UInt64} {st : Store} {g : GraphId} {payload : List Triple}
  {f : List Char → List Char}

/-- A renamed triple with a blank node is not in the store. -/
theorem Apart.no_labels (h : Apart f payload st) {y : Triple} (hy : y ∈ payload)
    (hheld : st.holds g (y.relabel f)) : y.labels = [] := by
  rw [List.eq_nil_iff_forall_not_mem]
  intro l hl
  refine h.fresh y hy l hl _ hheld ?_
  unfold Quad.labels
  rw [Triple.labels_relabel]
  exact List.mem_append_right _ (List.mem_map_of_mem hl)

theorem term_labels_spelled (t : OxTerm) :
    labels (spelled ox.toLibrary tag t) ⊆ labels (rename tag t) := by
  cases t with
  | Literal l => exact List.nil_subset _
  | Triple s p o => exact List.nil_subset _
  | _ => exact List.Subset.refl _

theorem labels_spelled (y : Triple) :
    (y.spelled ox.toLibrary tag).labels ⊆ (y.rename tag).labels := by
  intro l hl
  rcases List.mem_append.mp hl with hl | hl
  · exact List.mem_append_left _ hl
  · exact List.mem_append_right _ (term_labels_spelled y.o hl)

theorem Apart.odd_held (h : Apart f payload st)
    (hall : ∀ y ∈ payload, st.holds g (y.relabel f) ∨ Added ox tag (st.holds g) payload (y.relabel f))
    {y : Triple} (hy : y ∈ payload) (hodd : Odd y.o = true) :
    st.holds g (y.relabel f) ∧ y.labels = [] := by
  rcases hall y hy with hheld | hadded
  · exact ⟨hheld, h.no_labels hy hheld⟩
  · have hplain := not_odd_of_added hadded
    rw [Triple.odd_relabel, hodd] at hplain
    cases hplain

/-- A renamed triple with a blank node was added, so it is the store's renaming of one. -/
theorem Apart.scoped (h : Apart f payload st) (hsent : ∀ y ∈ payload, y.Sent ox.toLibrary)
    (hkept : ∀ u, st.holds g u → u.Kept ox.toLibrary)
    (hall : ∀ y ∈ payload, st.holds g (y.relabel f) ∨ Added ox tag (st.holds g) payload (y.relabel f))
    {y : Triple} (hy : y ∈ payload) (hlabels : y.labels ≠ []) :
    ∃ z ∈ payload, z.labels ≠ [] ∧ z.rename tag = y.relabel f := by
  have hadded : Added ox tag (st.holds g) payload (y.relabel f) := by
    rcases hall y hy with hheld | hadded
    · exact absurd (h.no_labels hy hheld) hlabels
    · exact hadded
  obtain ⟨z, hz, heq, -⟩ := added_cases hsent hkept hadded
  have hsome : (y.relabel f).labels ≠ [] := by
    rw [Triple.labels_relabel]
    exact fun hnil => hlabels (List.map_eq_nil_iff.mp hnil)
  have hzlabels : z.labels ≠ [] := by
    intro hnil
    have hrename : (z.rename tag).labels = [] := by
      rw [Triple.rename, Triple.labels_relabel, hnil]
      rfl
    refine hsome (List.eq_nil_iff_forall_not_mem.mpr fun l hl => ?_)
    rw [heq] at hl
    have hmem := labels_spelled z hl
    rw [hrename] at hmem
    cases hmem
  refine ⟨z, hz, hzlabels, ?_⟩
  cases hodd : Odd z.o with
  | false => rw [heq, spelled_eq tag (hsent z hz) hodd]
  | true => exact absurd (h.odd_held hall hz hodd).2 hzlabels

/-- As many triples are renamed as there are, so both renamings give the same triples. -/
theorem Apart.renamed_iff (h : Apart f payload st) (hsent : ∀ y ∈ payload, y.Sent ox.toLibrary)
    (hkept : ∀ u, st.holds g u → u.Kept ox.toLibrary)
    (hall : ∀ y ∈ payload, st.holds g (y.relabel f) ∨ Added ox tag (st.holds g) payload (y.relabel f)) :
    (∀ x, (∃ y ∈ payload, y.relabel f = x) ↔ Renamed tag payload x) ∧ Fresh tag payload st := by
  let labelled := payload.toFinset.filter fun y => y.labels ≠ []
  have hmem {y : Triple} : y ∈ labelled ↔ y ∈ payload ∧ y.labels ≠ [] := by
    rw [Finset.mem_filter, List.mem_toFinset]
  have hsub : labelled.image (Triple.relabel f) ⊆ labelled.image (Triple.rename tag) := by
    intro x hx
    obtain ⟨y, hy, rfl⟩ := Finset.mem_image.mp hx
    obtain ⟨z, hz, hlabels, heq⟩ := h.scoped hsent hkept hall (hmem.mp hy).1 (hmem.mp hy).2
    exact Finset.mem_image.mpr ⟨z, hmem.mpr ⟨hz, hlabels⟩, heq⟩
  have hcard : (labelled.image (Triple.relabel f)).card = labelled.card := by
    refine Finset.card_image_of_injOn fun y hy z hz heq => ?_
    exact Triple.relabel_inj (h.injective y (hmem.mp hy).1 z (hmem.mp hz).1) heq
  have hset : labelled.image (Triple.relabel f) = labelled.image (Triple.rename tag) := by
    refine Finset.eq_of_subset_of_card_le hsub ?_
    rw [hcard]
    exact Finset.card_image_le
  have hback {z : Triple} (hz : z ∈ payload) (hlabels : z.labels ≠ []) :
      ∃ y ∈ payload, y.relabel f = z.rename tag := by
    have himage := Finset.mem_image_of_mem (Triple.rename tag) (hmem.mpr ⟨hz, hlabels⟩)
    rw [← hset] at himage
    obtain ⟨y, hy, heq⟩ := Finset.mem_image.mp himage
    exact ⟨y, (hmem.mp hy).1, heq⟩
  refine ⟨fun x => ⟨?_, ?_⟩, ?_⟩
  · rintro ⟨y, hy, rfl⟩
    by_cases hlabels : y.labels = []
    · exact ⟨y, hy, by rw [Triple.rename, Triple.relabel_eq hlabels, Triple.relabel_eq hlabels]⟩
    · obtain ⟨z, hz, -, heq⟩ := h.scoped hsent hkept hall hy hlabels
      exact ⟨z, hz, heq⟩
  · rintro ⟨z, hz, rfl⟩
    by_cases hlabels : z.labels = []
    · exact ⟨z, hz, by rw [Triple.rename, Triple.relabel_eq hlabels, Triple.relabel_eq hlabels]⟩
    · exact hback hz hlabels
  · intro z hz l hl q hq hin
    obtain ⟨y, hy, heq⟩ := hback hz (List.ne_nil_of_mem hl)
    have hlabels := congrArg Triple.labels heq
    rw [Triple.rename, Triple.labels_relabel, Triple.labels_relabel] at hlabels
    have hnew := List.mem_map_of_mem (f := scope_blank_node_label tag) hl
    rw [← hlabels] at hnew
    obtain ⟨a, ha, hfa⟩ := List.mem_map.mp hnew
    refine h.fresh y hy a ha q hq ?_
    rw [hfa]
    exact hin

/-- A PUT is exact under some new labels only when it is under the store's. -/
theorem put_apart_iff (hsent : ∀ y ∈ payload, y.Sent ox.toLibrary)
    (hkept : ∀ u, st.holds g u → u.Kept ox.toLibrary) :
    (∃ f, Apart f payload st ∧
      ∀ x, AfterPut ox tag (st.holds g) payload x ↔ ∃ y ∈ payload, y.relabel f = x) ↔
        Fresh tag payload st ∧ Replaceable ox tag (st.holds g) payload := by
  constructor
  · rintro ⟨f, hf, hput⟩
    obtain ⟨hiff, hfresh⟩ := hf.renamed_iff hsent hkept fun y hy =>
      ((hput _).mpr ⟨y, hy, rfl⟩).imp And.left id
    exact ⟨hfresh, (put_iff hsent hkept).mp fun x => (hput x).trans (hiff x)⟩
  · rintro ⟨hfresh, hreplaceable⟩
    exact ⟨_, hfresh.apart, (put_iff hsent hkept).mpr hreplaceable⟩

theorem post_apart_iff (hsent : ∀ y ∈ payload, y.Sent ox.toLibrary)
    (hkept : ∀ u, st.holds g u → u.Kept ox.toLibrary) :
    (∃ f, Apart f payload st ∧ ∀ x, AfterPost ox tag (st.holds g) payload x ↔
      st.holds g x ∨ ∃ y ∈ payload, y.relabel f = x) ↔
        Fresh tag payload st ∧ Mergeable ox tag (st.holds g) payload := by
  constructor
  · rintro ⟨f, hf, hpost⟩
    obtain ⟨hiff, hfresh⟩ := hf.renamed_iff hsent hkept fun y hy =>
      (hpost _).mpr (Or.inr ⟨y, hy, rfl⟩)
    exact ⟨hfresh, (post_iff hsent hkept).mp fun x =>
      (hpost x).trans (or_congr_right (hiff x))⟩
  · rintro ⟨hfresh, hmergeable⟩
    exact ⟨_, hfresh.apart, (post_iff hsent hkept).mpr hmergeable⟩

end Apart

/-! ## What a request should leave -/

/-- The graph has the payload's triples, with its blank nodes as nodes of their own. -/
structure Replaced (payload : List Triple) (g : GraphId) (before after : Store) : Prop where
  exact : ∃ f, Apart f payload before ∧ ∀ x, after.holds g x ↔ ∃ y ∈ payload, y.relabel f = x
  others : OthersKept g before after

/-- The graph has those and what it had. -/
structure Merged (payload : List Triple) (g : GraphId) (before after : Store) : Prop where
  exact : ∃ f, Apart f payload before ∧
    ∀ x, after.holds g x ↔ before.holds g x ∨ ∃ y ∈ payload, y.relabel f = x
  others : OthersKept g before after

structure Emptied (g : GraphId) (before after : Store) : Prop where
  none : ∀ x, ¬after.holds g x
  others : OthersKept g before after

/-- A triple as the loaders and the updates leave it in a graph that can be written. -/
structure Admitted (ox : Library) (t : Triple) : Prop where
  kept : t.Kept ox
  iris : ∀ iri, t.Names iri → Absolute iri ∨ BrokenIri iri

/-! ## Successful requests -/

section Requests

variable {lib : Ttl ox} {faults : Faults} {state state' : AppState}
  {params : List (String × String)} {content_type : Option String} {body : lib.Doc}
  {t : Target} {f : Format} {ts : List Triple} {resp : Response lib.Doc} {replace : Bool}

theorem check_writable_error {materialized : Bool}
    (h : check_writable lib materialized t = .error resp) : resp.status.is_success = false := by
  unfold check_writable bad_request at h
  split at h <;> split at h <;> cases h <;> rfl

theorem write_ok (ht : target lib params = .ok t)
    (h : write_graph lib faults state params content_type body replace = (resp, state'))
    (hok : resp.status.is_success = true) :
    ∃ f ts, payload_extension content_type = some f ∧ lib.parse f t.base_iri body = .ok ts ∧
      commit lib faults state.tagged t
        (ts.map (Triple.to_terms ox.toLibrary state.store.bnode_doc_tag)).dedup replace =
          (resp, state') := by
  unfold write_graph at h
  rw [ht] at h
  split at h
  · cases h
    cases hok
  · dsimp only at h
    split at h
    · rename_i hrefused
      cases h
      rw [check_writable_error hrefused] at hok
      cases hok
    · split at h
      · cases h
        cases hok
      · rename_i f hf
        cases hparse : lib.parse f t.base_iri body with
        | error e =>
          simp only [parse_payload, hparse] at h
          cases h
          cases hok
        | ok ts =>
          simp only [parse_payload, hparse] at h
          exact ⟨f, ts, hf, hparse, h⟩

theorem commit_failed {payload : List AlgebraTriple}
    (h : commit lib faults state t payload replace = (resp, state'))
    (hok : resp.status.is_success = false) : state'.store.quads = state.store.quads := by
  unfold commit at h
  cases hscan : faults.scan with
  | some e =>
    rw [hscan] at h
    cases h
    rfl
  | none =>
    rw [hscan] at h
    dsimp only at h
    by_cases hbatch : (if replace = true then quads t.graph_name (graph_diff
        (scan_graph_quads ox.toLibrary state.store.quads t.graph).dedup payload).1 else []) ≠ [] ∨
          quads t.graph_name (graph_diff
            (scan_graph_quads ox.toLibrary state.store.quads t.graph).dedup payload).2 ≠ []
    · rw [if_pos hbatch] at h
      cases hwrite : faults.write with
      | some e =>
        rw [hwrite] at h
        cases h
        rfl
      | none =>
        rw [hwrite] at h
        cases h
        dsimp only at hok
        split at hok <;> cases hok
    · rw [if_neg hbatch] at h
      cases h
      rfl

/-- A write that fails leaves the quads. -/
theorem write_failed
    (h : write_graph lib faults state params content_type body replace = (resp, state'))
    (hok : resp.status.is_success = false) : state'.store.quads = state.store.quads := by
  unfold write_graph at h
  split at h
  · cases h
    rfl
  · split at h
    · cases h
      rfl
    · split at h
      · cases h
        rfl
      · split at h
        · cases h
          rfl
        · rename_i t _ _ _ _ f _
          cases hparse : lib.parse f t.base_iri body with
          | error e =>
            simp only [parse_payload, hparse] at h
            cases h
            rfl
          | ok ts =>
            simp only [parse_payload, hparse] at h
            have hquads := commit_failed h hok
            exact hquads

theorem put_mem (ht : target lib params = .ok t) (hf : payload_extension content_type = some f)
    (hts : lib.parse f t.base_iri body = .ok ts)
    (h : handle_put lib faults state params content_type body = (resp, state'))
    (hok : resp.status.is_success = true) :
    (∀ x, state'.store.holds t.graph x ↔
      AfterPut ox state.store.bnode_doc_tag (state.store.holds t.graph) ts x) ∧
        OthersKept t.graph state.store state'.store := by
  obtain ⟨f', ts', hf', hts', hcommit⟩ := write_ok ht h hok
  rw [hf] at hf'
  cases hf'
  rw [hts] at hts'
  cases hts'
  have hothers := commit_others hcommit hok
  refine ⟨fun x => ?_, hothers⟩
  have hmem := commit_mem hcommit hok ⟨t.graph, x⟩
  simpa [AfterPut, Store.holds] using hmem

theorem post_mem (ht : target lib params = .ok t) (hf : payload_extension content_type = some f)
    (hts : lib.parse f t.base_iri body = .ok ts)
    (h : handle_post lib faults state params content_type body = (resp, state'))
    (hok : resp.status.is_success = true) :
    (∀ x, state'.store.holds t.graph x ↔
      AfterPost ox state.store.bnode_doc_tag (state.store.holds t.graph) ts x) ∧
        OthersKept t.graph state.store state'.store := by
  obtain ⟨f', ts', hf', hts', hcommit⟩ := write_ok ht h hok
  rw [hf] at hf'
  cases hf'
  rw [hts] at hts'
  cases hts'
  have hothers := commit_others hcommit hok
  refine ⟨fun x => ?_, hothers⟩
  have hmem := commit_mem hcommit hok ⟨t.graph, x⟩
  simpa [AfterPost, Store.holds] using hmem

/-- A PUT is exact when its new labels are free and the odd triples are there already. -/
theorem put_replaced_iff (ht : target lib params = .ok t)
    (hkept : ∀ u, state.store.holds t.graph u → u.Kept ox.toLibrary)
    (hf : payload_extension content_type = some f)
    (hts : lib.parse f t.base_iri body = .ok ts)
    (h : handle_put lib faults state params content_type body = (resp, state'))
    (hok : resp.status.is_success = true) :
    Replaced ts t.graph state.store state'.store ↔
      Fresh state.store.bnode_doc_tag ts state.store ∧
        Replaceable ox state.store.bnode_doc_tag (state.store.holds t.graph) ts := by
  obtain ⟨hmem, hothers⟩ := put_mem ht hf hts h hok
  rw [← put_apart_iff (lib.parse_sent _ _ _ _ hts) hkept]
  constructor
  · rintro ⟨⟨f, hf, hexact⟩, -⟩
    exact ⟨f, hf, fun x => (hmem x).symm.trans (hexact x)⟩
  · rintro ⟨f, hf, hexact⟩
    exact ⟨⟨f, hf, fun x => (hmem x).trans (hexact x)⟩, hothers⟩

theorem post_merged_iff (ht : target lib params = .ok t)
    (hkept : ∀ u, state.store.holds t.graph u → u.Kept ox.toLibrary)
    (hf : payload_extension content_type = some f)
    (hts : lib.parse f t.base_iri body = .ok ts)
    (h : handle_post lib faults state params content_type body = (resp, state'))
    (hok : resp.status.is_success = true) :
    Merged ts t.graph state.store state'.store ↔
      Fresh state.store.bnode_doc_tag ts state.store ∧
        Mergeable ox state.store.bnode_doc_tag (state.store.holds t.graph) ts := by
  obtain ⟨hmem, hothers⟩ := post_mem ht hf hts h hok
  rw [← post_apart_iff (lib.parse_sent _ _ _ _ hts) hkept]
  constructor
  · rintro ⟨⟨f, hf, hexact⟩, -⟩
    exact ⟨f, hf, fun x => (hmem x).symm.trans (hexact x)⟩
  · rintro ⟨f, hf, hexact⟩
    exact ⟨⟨f, hf, fun x => (hmem x).trans (hexact x)⟩, hothers⟩

theorem delete_emptied (ht : target lib params = .ok t)
    (h : handle_delete lib faults state params = (resp, state'))
    (hok : resp.status.is_success = true) : Emptied t.graph state.store state'.store := by
  unfold handle_delete at h
  rw [ht] at h
  split at h
  · cases h
    cases hok
  · dsimp only at h
    split at h
    · rename_i hrefused
      cases h
      rw [check_writable_error hrefused] at hok
      cases hok
    · split at h
      · cases h
        cases hok
      · split at h
        · cases h
          cases hok
        · rename_i hclear
          have hquads := congrArg Prod.fst hclear
          cases h
          cases hquads
          refine ⟨fun x hx => ?_, fun q hq => ?_⟩
          · have hg := (List.mem_filter.mp hx).2
            simp at hg
          · simp [hq]

end Requests

/-! ## What was got is put -/

section Got

variable {lib : Ttl ox} {faults : Faults} {state state' : AppState}
  {params : List (String × String)} {t : Target} {f : Format}

theorem to_oxrdf_triple_to_algebra {u : Triple} (h : u.Kept ox.toLibrary) :
    to_oxrdf_triple ox.toLibrary (u.to_algebra ox.toLibrary) = some (u.back ox.toLibrary) := by
  obtain ⟨iri, hp⟩ := h.predicate
  unfold to_oxrdf_triple Triple.to_algebra
  rw [to_oxrdf_back, to_oxrdf_back, to_oxrdf_back, back_node h.subject, hp]
  have hsubject := h.subject
  cases hs : u.s with
  | NamedNode s => simp [Triple.back, hs, hp, back]
  | BlankNode s => simp [Triple.back, hs, hp, back]
  | _ =>
    rw [hs] at hsubject
    exact hsubject.elim

/-- The triples of a body. -/
def got (ox : Library) (st : Store) (g : GraphId) : List Triple :=
  (scan_graph_quads ox st.quads g).filterMap (to_oxrdf_triple ox)

theorem mem_got {st : Store} {g : GraphId} (hkept : ∀ u, st.holds g u → u.Kept ox.toLibrary)
    {y : Triple} : y ∈ got ox.toLibrary st g ↔ ∃ u, st.holds g u ∧ u.back ox.toLibrary = y := by
  unfold got
  rw [List.mem_filterMap]
  constructor
  · rintro ⟨a, ha, hy⟩
    obtain ⟨u, hu, rfl⟩ := mem_scan.mp ha
    rw [to_oxrdf_triple_to_algebra (hkept u hu)] at hy
    exact ⟨u, hu, Option.some.inj hy⟩
  · rintro ⟨u, hu, rfl⟩
    exact ⟨_, mem_scan.mpr ⟨u, hu, rfl⟩, to_oxrdf_triple_to_algebra (hkept u hu)⟩

theorem get_ok {accept : Option String} {content_type : String} {doc : lib.Doc}
    (ht : target lib params = .ok t)
    (h : handle_get lib faults state params accept = ⟨.OK, .document content_type doc⟩) :
    ∃ f, payload_extension (some content_type) = some f ∧
      doc = lib.serialize f (got ox.toLibrary state.store t.graph) := by
  unfold handle_get at h
  rw [ht] at h
  split at h
  · cases h
  · dsimp only at h
    split at h
    · cases h
    · split at h
      · cases h
      · split at h
        · cases h
        · unfold serialize at h
          dsimp only at h
          split at h
          · cases h
            exact ⟨.NTriples, by decide, rfl⟩
          · cases h
            exact ⟨.Turtle, by decide, rfl⟩

theorem back_labels (u : Triple) : (u.back ox.toLibrary).labels ⊆ u.labels := by
  intro l hl
  rcases List.mem_append.mp hl with hl | hl
  · exact List.mem_append_left _ hl
  · refine List.mem_append_right _ ?_
    unfold Triple.back at hl
    cases ho : u.o <;> rw [ho] at hl <;> first | exact hl | cases hl

theorem node_sent {u : OxTerm} (hnode : Node u)
    (hiri : ∀ iri, u = .NamedNode iri → Absolute iri) : Sent ox.toLibrary u := by
  cases u with
  | NamedNode iri => exact hiri iri rfl
  | BlankNode label => exact trivial
  | _ => exact hnode.elim

theorem back_object_sent {t : OxTerm} (hkept : KeptObject ox.toLibrary t)
    (hiri : ∀ iri, t = .NamedNode iri → Absolute iri)
    (hdatatype : ∀ value iri, t = .Literal (.Typed value iri) → Absolute iri)
    (hnot : IsTriple t = false) : Sent ox.toLibrary (back ox.toLibrary t) := by
  cases t with
  | NamedNode iri => exact hiri iri rfl
  | BlankNode label => exact trivial
  | Literal l =>
    cases hl : l.directional with
    | true =>
      cases l with
      | DirectionalLanguageTagged value language direction =>
        rw [back, parse_directional]
        exact trivial
      | _ => cases hl
    | false =>
      rw [back, parse_text hkept hl]
      cases l with
      | Typed value iri => exact ⟨hdatatype value iri rfl, hkept.2⟩
      | _ => exact hkept
  | Triple s p o => cases hnot

theorem broken_triple (s p o : OxTerm) : BrokenIri (term_text ox.toLibrary (.Triple s p o)) :=
  Or.inl (List.prefix_append _ _)

/-- A written triple is a parser's, when all its IRIs are. -/
theorem back_sent {u : Triple} (h : Admitted ox.toLibrary u)
    (hfine : ¬Broken (u.back ox.toLibrary)) : (u.back ox.toLibrary).Sent ox.toLibrary := by
  obtain ⟨iri, hp⟩ := h.kept.predicate
  have hsubject (s : List Char) (hs : u.s = .NamedNode s) : Absolute s :=
    (h.iris s (Or.inl hs)).resolve_right fun hb => hfine ⟨s, Or.inl hs, hb⟩
  have hpredicate : Absolute iri :=
    (h.iris iri (Or.inr (Or.inl hp))).resolve_right fun hb =>
      hfine ⟨iri, Or.inr (Or.inl hp), hb⟩
  refine ⟨h.kept.subject, node_sent h.kept.subject hsubject, ⟨iri, hp, hpredicate⟩, ?_⟩
  refine back_object_sent h.kept.object (fun o ho => ?_) (fun value datatype ho => ?_) ?_
  · refine (h.iris o (Or.inr (Or.inr (Or.inl ho)))).resolve_right fun hb => hfine ⟨o, ?_, hb⟩
    exact Or.inr (Or.inr (Or.inl (by rw [Triple.back, ho]; rfl)))
  · have hnamed : u.Names datatype := Or.inr (Or.inr (Or.inr ⟨value, ho⟩))
    refine (h.iris datatype hnamed).resolve_right fun hb => hfine ⟨datatype, ?_, hb⟩
    have hkept := h.kept.object
    rw [ho] at hkept
    have hback : (u.back ox.toLibrary).o = .Literal (.Typed value datatype) := by
      rw [Triple.back, ho]
      exact back_plain (t := .Literal (.Typed value datatype)) hkept rfl
    exact Or.inr (Or.inr (Or.inr ⟨value, hback⟩))
  · rw [← Bool.not_eq_true]
    intro htriple
    cases ho : u.o with
    | Triple s p o =>
      refine hfine ⟨term_text ox.toLibrary (.Triple s p o), ?_, broken_triple s p o⟩
      exact Or.inr (Or.inr (Or.inl (by rw [Triple.back, ho]; rfl)))
    | _ =>
      rw [ho] at htriple
      cases htriple

theorem back_not_odd (t : OxTerm) : Odd (back ox.toLibrary t) = false := by
  cases t with
  | Literal l => exact parse_undirected _
  | _ => rfl

/-- A graph that was got and put is as it was, when it had no odd triples. -/
theorem round_iff {tag : UInt64} {before : Triple → Prop} {payload : List Triple}
    (hkept : ∀ u, before u → u.Kept ox.toLibrary) (hsent : ∀ y ∈ payload, y.Sent ox.toLibrary)
    (hpayload : ∀ y, y ∈ payload ↔ ∃ u, before u ∧ u.back ox.toLibrary = y)
    (hlabels : ∀ u, before u → u.labels = []) :
    (∀ x, AfterPut ox tag before payload x ↔ before x) ↔
      ∀ u, before u → Odd u.o = false := by
  have hplain (y : Triple) (hy : y ∈ payload) : Odd y.o = false := by
    obtain ⟨u, -, rfl⟩ := (hpayload y).mp hy
    exact back_not_odd u.o
  have hnot (y : Triple) (hy : y ∈ payload) : IsTriple y.o = false := by
    rw [← Bool.not_eq_true]
    intro htriple
    have hodd := hplain y hy
    rw [triple_odd htriple] at hodd
    cases hodd
  have hsame (y : Triple) (hy : y ∈ payload) : y.rename tag = y := by
    obtain ⟨u, hu, rfl⟩ := (hpayload y).mp hy
    refine Triple.relabel_eq (List.eq_nil_iff_forall_not_mem.mpr fun l hl => ?_)
    have hmem := back_labels u hl
    rw [hlabels u hu] at hmem
    cases hmem
  constructor
  · intro hput u hu
    rw [← Bool.not_eq_true]
    intro hodd
    have hy : u.back ox.toLibrary ∈ payload := (hpayload _).mpr ⟨u, hu, rfl⟩
    by_cases hheld : before (u.back ox.toLibrary)
    · rcases (hput _).mpr hheld with ⟨-, hstays⟩ | ⟨z, hz, hnew, hrow⟩
      · -- The row of the odd triple is no row of the payload, and deletes what it was read as.
        refine hstays ⟨u, hu, fun z hz heq => ?_, to_row_to_algebra (hkept u hu)⟩
        have huz := ((to_algebra_eq_terms tag (hkept u hu) (hsent z hz)).mp heq.symm).1
        rw [huz, hsame z hz, hplain z hz] at hodd
        cases hodd
      · rw [to_row_to_terms tag (hsent z hz), spelled_eq tag (hsent z hz) (hplain z hz)] at hrow
        refine hnew _ hheld ((to_algebra_eq_terms tag (hkept _ hheld) (hsent z hz)).mpr ?_)
        exact ⟨(Option.some.inj hrow).symm, hnot z hz⟩
    · refine hheld ((hput _).mp (Or.inr ?_))
      have hnew : ¬before ((u.back ox.toLibrary).rename tag) := by rwa [hsame _ hy]
      have hadded := added_of_new hsent hkept hy (hplain _ hy) hnew
      rwa [hsame _ hy] at hadded
  · intro hodd
    have hbefore (x : Triple) : Renamed tag payload x ↔ before x := by
      constructor
      · rintro ⟨y, hy, rfl⟩
        rw [hsame y hy]
        obtain ⟨u, hu, rfl⟩ := (hpayload y).mp hy
        rwa [back_eq (hkept u hu) (hodd u hu)]
      · intro hx
        have hy : x ∈ payload := (hpayload x).mpr ⟨x, hx, back_eq (hkept x hx) (hodd x hx)⟩
        exact ⟨x, hy, hsame x hy⟩
    have hreplaceable : Replaceable ox tag before payload := by
      refine ⟨fun y hy h => ?_, fun u hu h => ?_, fun y hy h => ?_⟩
      · rw [hplain y hy] at h
        cases h
      · rw [hodd u hu] at h
        cases h
      · rw [hnot y hy] at h
        cases h
    exact fun x => ((put_iff hsent hkept).mpr hreplaceable x).trans (hbefore x)

theorem odd_eq_directional {t : OxTerm} (h : IsTriple t = false) : Odd t = t.directional := by
  cases t with
  | Triple s p o => cases h
  | _ => rfl

/-- A body that is accepted has no broken triples, so that it is read as it was written. -/
theorem got_put_iff {accept : Option String} {content_type : String} {doc : lib.Doc}
    {faults' : Faults} {resp : Response lib.Doc} (ht : target lib params = .ok t)
    (hadmitted : ∀ u, state.store.holds t.graph u → Admitted ox.toLibrary u)
    (hlabels : ∀ u, state.store.holds t.graph u → u.labels = [])
    (hget : handle_get lib faults state params accept = ⟨.OK, .document content_type doc⟩)
    (hput : handle_put lib faults' state params (some content_type) doc = (resp, state'))
    (hok : resp.status.is_success = true) :
    (∀ q, q ∈ state'.store.quads ↔ q ∈ state.store.quads) ↔
      ∀ u, state.store.holds t.graph u → u.o.directional = false := by
  have hkept (u : Triple) (hu : state.store.holds t.graph u) := (hadmitted u hu).kept
  obtain ⟨f, hf, rfl⟩ := get_ok ht hget
  obtain ⟨f', ts, hf', hts, -⟩ := write_ok ht hput hok
  rw [hf] at hf'
  cases hf'
  have hfine (y : Triple) (hy : y ∈ got ox.toLibrary state.store t.graph) : ¬Broken y := by
    intro hbroken
    obtain ⟨e, he⟩ := lib.refuses f t.base_iri _ ⟨y, hy, hbroken⟩
    rw [he] at hts
    cases hts
  have hsent (y : Triple) (hy : y ∈ got ox.toLibrary state.store t.graph) :
      y.Sent ox.toLibrary := by
    obtain ⟨u, hu, rfl⟩ := (mem_got hkept).mp hy
    exact back_sent (hadmitted u hu) (hfine _ hy)
  rw [lib.parse_serialize f t.base_iri _ hsent] at hts
  cases hts
  obtain ⟨hmem, hothers⟩ := put_mem ht hf (lib.parse_serialize f t.base_iri _ hsent) hput hok
  have htriple (u : Triple) (hu : state.store.holds t.graph u) : IsTriple u.o = false := by
    rw [← Bool.not_eq_true]
    intro h
    cases ho : u.o with
    | Triple s p o =>
      refine hfine _ ((mem_got hkept).mpr ⟨u, hu, rfl⟩)
        ⟨term_text ox.toLibrary (.Triple s p o), ?_, broken_triple s p o⟩
      exact Or.inr (Or.inr (Or.inl (by rw [Triple.back, ho]; rfl)))
    | _ =>
      rw [ho] at h
      cases h
  have hround := @round_iff _ state.store.bnode_doc_tag _ _ hkept hsent
    (fun y => mem_got hkept) hlabels
  constructor
  · intro hsame u hu
    rw [← odd_eq_directional (htriple u hu)]
    exact hround.mp (fun x => (hmem x).symm.trans (hsame ⟨t.graph, x⟩)) u hu
  · rintro hplain ⟨g, x⟩
    have hodd (u : Triple) (hu : state.store.holds t.graph u) : Odd u.o = false := by
      rw [odd_eq_directional (htriple u hu)]
      exact hplain u hu
    by_cases hg : g = t.graph
    · rw [hg]
      exact (hmem x).trans (hround.mpr hodd x)
    · exact hothers ⟨g, x⟩ hg

end Got

/-! ## Every request -/

instance : DecidablePred Absolute := fun iri =>
  decidable_of_iff (iri.head?.any Char.isAlpha = true ∧
    ∀ c ∈ iri, HornDb.Lib.NTriples.iri_char c = true)
    ⟨fun h => ⟨h.1, h.2⟩, fun h => ⟨h.scheme, h.checked⟩⟩

instance (ox : Library) : DecidablePred (OxLiteral.Checked ox)
  | .Simple _ => inferInstanceAs (Decidable True)
  | .LanguageTagged _ language => inferInstanceAs (Decidable (ox.language language = some language))
  | .DirectionalLanguageTagged _ language _ =>
    inferInstanceAs (Decidable (ox.language language = some language))
  | .Typed _ datatype =>
    inferInstanceAs (Decidable (Absolute datatype ∧ datatype ≠ sparql.text.XSD_STRING))

instance : DecidablePred Node
  | .NamedNode _ => inferInstanceAs (Decidable True)
  | .BlankNode _ => inferInstanceAs (Decidable True)
  | .Literal _ => inferInstanceAs (Decidable False)
  | .Triple _ _ _ => inferInstanceAs (Decidable False)

instance decidable_predicate : (p : OxTerm) → Decidable (∃ iri, p = .NamedNode iri ∧ Absolute iri)
  | .NamedNode iri => decidable_of_iff (Absolute iri)
    ⟨fun h => ⟨iri, rfl, h⟩, fun ⟨_, heq, h⟩ => OxTerm.NamedNode.inj heq ▸ h⟩
  | .BlankNode _ => .isFalse fun ⟨_, heq, _⟩ => OxTerm.noConfusion heq
  | .Literal _ => .isFalse fun ⟨_, heq, _⟩ => OxTerm.noConfusion heq
  | .Triple _ _ _ => .isFalse fun ⟨_, heq, _⟩ => OxTerm.noConfusion heq

instance decidable_sent (ox : Library) : DecidablePred (Sent ox)
  | .NamedNode iri => inferInstanceAs (Decidable (Absolute iri))
  | .BlankNode _ => inferInstanceAs (Decidable True)
  | .Literal l => inferInstanceAs (Decidable (l.Checked ox))
  | .Triple s p o =>
    have := decidable_sent ox s
    have := decidable_sent ox o
    inferInstanceAs (Decidable ((Node s ∧ Sent ox s) ∧
      (∃ iri, p = .NamedNode iri ∧ Absolute iri) ∧ Sent ox o))

instance (ox : Library) : DecidablePred (Triple.Sent ox) := fun t =>
  decidable_of_iff (Node t.s ∧ Sent ox t.s ∧ (∃ iri, t.p = .NamedNode iri ∧ Absolute iri) ∧
    Sent ox t.o)
    ⟨fun ⟨hs, hss, hp, ho⟩ => ⟨hs, hss, hp, ho⟩, fun h => ⟨h.1, h.2, h.3, h.4⟩⟩

theorem broken_not_absolute {iri : List Char} (h : BrokenIri iri) : ¬Absolute iri := by
  intro habs
  have hscheme := habs.scheme
  rcases h with ⟨rest, rfl⟩ | ⟨rest, rfl⟩
  · exact absurd (show '<'.isAlpha = true from hscheme) (by decide)
  · exact absurd (show '('.isAlpha = true from hscheme) (by decide)

theorem broken_not_sent {t : Triple} (h : Broken t) : ¬t.Sent ox.toLibrary := by
  obtain ⟨iri, hnames, hbroken⟩ := h
  intro hsent
  refine broken_not_absolute hbroken ?_
  rcases hnames with hs | hp | ho | ⟨value, ho⟩
  · have h := hsent.subject_sent
    rwa [hs] at h
  · obtain ⟨iri', hp', h⟩ := hsent.predicate
    rw [hp] at hp'
    rwa [OxTerm.NamedNode.inj hp']
  · have h := hsent.object
    rwa [ho] at h
  · have h := hsent.object
    rw [ho] at h
    exact h.1

def plain_ttl : Ttl plain_library where
  Doc := List Triple
  check_iri _ := none
  parse _ _ ts := if ∀ t ∈ ts, t.Sent plain_library.toLibrary then .ok ts else .error "no IRI"
  serialize _ ts := ts
  parse_sent f base d ts h := by
    split at h
    · rename_i hsent
      cases h
      exact hsent
    · cases h
  parse_serialize f base ts h := if_pos h
  refuses f base ts h := by
    obtain ⟨t, ht, hbroken⟩ := h
    exact ⟨_, if_neg fun hsent => broken_not_sent hbroken (hsent t ht)⟩

/-! ## A request that is not exact -/

theorem write_graph_ok {lib : Ttl ox} {faults : Faults} {state : AppState}
    {params : List (String × String)} {content_type : Option String} {body : lib.Doc} {t : Target}
    {f : Format} {ts : List Triple} {replace : Bool} (hloaded : state.loading = false)
    (ht : target lib params = .ok t) (hw : check_writable lib state.materialized t = .ok ())
    (hf : payload_extension content_type = some f)
    (hts : lib.parse f t.base_iri body = .ok ts) :
    write_graph lib faults state params content_type body replace =
      commit lib faults state.tagged t
        (ts.map (Triple.to_terms ox.toLibrary state.store.bnode_doc_tag)).dedup replace := by
  unfold write_graph
  simp [hloaded, ht, hw, hf, parse_payload, hts]

/-- Only a call of the store fails a write that was read. -/
theorem commit_succeeds {lib : Ttl ox} {state : AppState} {t : Target}
    {payload : List AlgebraTriple} {replace : Bool} :
    (commit lib ⟨none, none⟩ state t payload replace).1.status.is_success = true := by
  have hstatus (c : Prop) [Decidable c] :
      (if c then StatusCode.CREATED else StatusCode.NO_CONTENT).is_success = true := by
    split <;> rfl
  unfold commit
  by_cases hbatch : (if replace = true then quads t.graph_name (graph_diff
      (scan_graph_quads ox.toLibrary state.store.quads t.graph).dedup payload).1 else []) ≠ [] ∨
        quads t.graph_name (graph_diff
          (scan_graph_quads ox.toLibrary state.store.quads t.graph).dedup payload).2 ≠ []
  · simp only [if_pos hbatch, hstatus]
  · simp only [if_neg hbatch, hstatus]

/-- A write of a payload that parses succeeds, when no call of the store fails. -/
theorem write_succeeds {lib : Ttl ox} {state : AppState} {params : List (String × String)}
    {content_type : Option String} {body : lib.Doc} {t : Target} {f : Format} {ts : List Triple}
    (hloaded : state.loading = false) (ht : target lib params = .ok t)
    (hw : check_writable lib state.materialized t = .ok ())
    (hf : payload_extension content_type = some f)
    (hts : lib.parse f t.base_iri body = .ok ts) (replace : Bool) :
    (write_graph lib ⟨none, none⟩ state params content_type body replace).1.status.is_success =
      true := by
  rw [write_graph_ok hloaded ht hw hf hts]
  exact commit_succeeds

/-- A PUT of an odd triple that the graph does not have succeeds, and is not exact. -/
theorem put_odd {lib : Ttl ox} {state : AppState} {params : List (String × String)}
    {content_type : Option String} {body : lib.Doc} {t : Target} {f : Format} {ts : List Triple}
    (hloaded : state.loading = false) (ht : target lib params = .ok t)
    (hw : check_writable lib state.materialized t = .ok ())
    (hf : payload_extension content_type = some f) (hts : lib.parse f t.base_iri body = .ok ts)
    (hkept : ∀ u, state.store.holds t.graph u → u.Kept ox.toLibrary) {y : Triple} (hy : y ∈ ts)
    (hodd : Odd y.o = true)
    (hnew : ¬state.store.holds t.graph (y.rename state.store.bnode_doc_tag)) :
    ∃ resp state', handle_put lib ⟨none, none⟩ state params content_type body = (resp, state') ∧
      resp.status.is_success = true ∧ ¬Replaced ts t.graph state.store state'.store := by
  have hok := write_succeeds hloaded ht hw hf hts true
  refine ⟨_, _, rfl, hok, fun hreplaced => ?_⟩
  exact hnew (((put_replaced_iff ht hkept hf hts rfl hok).mp hreplaced).2.held y hy hodd)

theorem absolute_char {c : Char} (hc : HornDb.Lib.NTriples.iri_char c = true) :
    Absolute ['a', ':', c] := by
  refine ⟨rfl, fun d hd => ?_⟩
  simp only [List.mem_cons, List.not_mem_nil, or_false] at hd
  rcases hd with rfl | rfl | rfl
  · decide
  · decide
  · exact hc

/-- `<a:s> <a:p>` and an object. -/
def triple_of (o : OxTerm) : Triple :=
  ⟨.NamedNode ['a', ':', 's'], .NamedNode ['a', ':', 'p'], o⟩

theorem triple_of_sent {o : OxTerm} (ho : Sent ox.toLibrary o) :
    (triple_of o).Sent ox.toLibrary :=
  ⟨trivial, absolute_char (by decide), ⟨_, rfl, absolute_char (by decide)⟩, ho⟩

theorem parse_triple_of {o : OxTerm} (ho : Sent plain_library.toLibrary o) :
    plain_ttl.parse .Turtle Target.Default.base_iri [triple_of o] = .ok [triple_of o] := by
  refine plain_ttl.parse_serialize .Turtle _ _ fun t ht => ?_
  rw [List.mem_singleton] at ht
  rw [ht]
  exact triple_of_sent ho

/-- `"x"@he--rtl`. -/
def directional : OxTerm := .Literal (.DirectionalLanguageTagged ['x'] ['h', 'e'] .Rtl)

theorem directional_sent : Sent plain_library.toLibrary directional := by
  have hlanguage : plain_library.language ['h', 'e'] = some ['h', 'e'] := by
    simp [plain_library, empty_subtag, sparql.text.ascii, sparql.text.tag_char, List.tails]
  exact hlanguage

def empty_state : AppState := ⟨⟨[], 0⟩, false, false, false⟩

/-- A triple in the default graph and the same one in another graph. -/
def two_graphs : AppState :=
  let held := triple_of (.NamedNode ['a', ':', 'o'])
  ⟨⟨[⟨.DefaultGraph, held⟩, ⟨.NamedNode "a:g", held⟩], 0⟩, false, false, false⟩

end horndb.server.graph_store
