-- What a graph holds after a PUT, a POST and a DELETE, and when a PUT of what was got changes
-- nothing. The algebra has no literals with a base direction and no triple terms; whether a write
-- is exact depends on those alone.
import HornDb.GraphStore

namespace horndb.server.graph_store

open sparql (GraphId GraphName resolve_graph)
open sparql.lexical (OxTerm OxLiteral Absolute)

variable {ox : TermLibrary}

/-! ## The triples after a batch -/

section Batch

variable (ox) (tag : UInt64) (before : Triple → Prop) (payload : List Triple)

/-- A row of the payload that the scan did not have is written as `x`. -/
def Added (x : Triple) : Prop :=
  ∃ y ∈ payload, (∀ u, before u → u.to_algebra ox.toLibrary ≠ y.to_terms ox.toLibrary tag) ∧
    to_row ox.toLibrary (y.to_terms ox.toLibrary tag) = some x

/-- A row of the scan that the payload does not have is deleted as `x`. -/
def Deleted (x : Triple) : Prop :=
  ∃ u, before u ∧ (∀ y ∈ payload, y.to_terms ox.toLibrary tag ≠ u.to_algebra ox.toLibrary) ∧
    to_row ox.toLibrary (u.to_algebra ox.toLibrary) = some x

def AfterPut (x : Triple) : Prop :=
  (before x ∧ ¬Deleted ox tag before payload x) ∨ Added ox tag before payload x

def AfterPost (x : Triple) : Prop := before x ∨ Added ox tag before payload x

/-- The payload's triples, with the blank nodes under their new labels. -/
def Renamed (x : Triple) : Prop := ∃ y ∈ payload, y.rename tag = x

/-- The odd triples of the payload and of the graph are the same, and the payload has each of its
triple terms as a literal as well. -/
structure Replaceable : Prop where
  held : ∀ y ∈ payload, Odd y.o = true → before (y.rename tag)
  sent : ∀ u, before u → Odd u.o = true → Renamed tag payload u
  spelled : ∀ y ∈ payload, IsTriple y.o = true → Renamed tag payload (y.spelled ox.toLibrary tag)

/-- The graph has the odd triples of the payload, and one of both has each triple term of the
payload as a literal as well. -/
structure Mergeable : Prop where
  held : ∀ y ∈ payload, Odd y.o = true → before (y.rename tag)
  spelled : ∀ y ∈ payload, IsTriple y.o = true →
    before (y.spelled ox.toLibrary tag) ∨ Renamed tag payload (y.spelled ox.toLibrary tag)

end Batch

section Exact

variable {tag : UInt64} {before : Triple → Prop} {payload : List Triple}

theorem not_odd_of_added {x : Triple} (h : Added ox tag before payload x) : Odd x.o = false := by
  obtain ⟨y, -, -, hrow⟩ := h
  exact not_odd_of_row hrow

theorem not_odd_of_deleted {x : Triple} (h : Deleted ox tag before payload x) :
    Odd x.o = false := by
  obtain ⟨u, -, -, hrow⟩ := h
  exact not_odd_of_row hrow

/-- Only what stands in the graph already is not added, and a triple term always is. -/
theorem added_spelled (hbefore : ∀ u, before u → u.Kept ox.toLibrary) {y : Triple}
    (hy : y ∈ payload) (hsent : y.Sent ox.toLibrary)
    (hnew : before (y.rename tag) → IsTriple y.o = true) :
    Added ox tag before payload (y.spelled ox.toLibrary tag) := by
  refine ⟨y, hy, fun u hu heq => ?_, to_row_to_terms tag hsent⟩
  obtain ⟨rfl, hnot⟩ := (to_algebra_eq_terms tag (hbefore u hu) hsent).mp heq
  rw [hnew hu] at hnot
  cases hnot

/-- What is added: a triple of the payload, as the algebra spells it, that the graph does not have
or whose object is a triple term. -/
theorem added_cases (hsent : ∀ y ∈ payload, y.Sent ox.toLibrary)
    (hbefore : ∀ u, before u → u.Kept ox.toLibrary) {x : Triple}
    (h : Added ox tag before payload x) :
    ∃ y ∈ payload, x = y.spelled ox.toLibrary tag ∧
      (before (y.rename tag) → IsTriple y.o = true) := by
  obtain ⟨y, hy, hnew, hrow⟩ := h
  rw [to_row_to_terms tag (hsent y hy)] at hrow
  refine ⟨y, hy, (Option.some.inj hrow).symm, fun hu => ?_⟩
  rw [← Bool.not_eq_false]
  intro hnot
  exact hnew _ hu ((to_algebra_eq_terms tag (hbefore _ hu) (hsent y hy)).mpr ⟨rfl, hnot⟩)

/-- When the odd triples of the payload are held, an added triple is one of the payload. -/
theorem renamed_of_added (hsent : ∀ y ∈ payload, y.Sent ox.toLibrary)
    (hbefore : ∀ u, before u → u.Kept ox.toLibrary)
    (hheld : ∀ y ∈ payload, Odd y.o = true → before (y.rename tag)) {x : Triple}
    (h : Added ox tag before payload x) :
    Renamed tag payload x ∨
      ∃ y ∈ payload, IsTriple y.o = true ∧ x = y.spelled ox.toLibrary tag := by
  obtain ⟨y, hy, rfl, hnew⟩ := added_cases hsent hbefore h
  cases hodd : Odd y.o with
  | false => exact Or.inl ⟨y, hy, (spelled_eq tag (hsent y hy) hodd).symm⟩
  | true => exact Or.inr ⟨y, hy, hnew (hheld y hy hodd), rfl⟩

/-- A triple that is not odd is there after the batch, when it stays if it was there. -/
theorem added_of_new (hsent : ∀ y ∈ payload, y.Sent ox.toLibrary)
    (hbefore : ∀ u, before u → u.Kept ox.toLibrary) {y : Triple} (hy : y ∈ payload)
    (hodd : Odd y.o = false) (hnew : ¬before (y.rename tag)) :
    Added ox tag before payload (y.rename tag) := by
  rw [← spelled_eq tag (hsent y hy) hodd]
  exact added_spelled hbefore hy (hsent y hy) fun hu => absurd hu hnew

/-- No triple of the payload is deleted, when the payload has the graph's odd triples. -/
theorem not_deleted (hsent : ∀ y ∈ payload, y.Sent ox.toLibrary)
    (hbefore : ∀ u, before u → u.Kept ox.toLibrary)
    (hodd : ∀ u, before u → Odd u.o = true → Renamed tag payload u) {y : Triple}
    (hy : y ∈ payload) : ¬Deleted ox tag before payload (y.rename tag) := by
  intro hdel
  have hplain := not_odd_of_deleted hdel
  obtain ⟨u, hu, hmiss, hrow⟩ := hdel
  rw [to_row_to_algebra (hbefore u hu)] at hrow
  have hback : u.back ox.toLibrary = y.rename tag := Option.some.inj hrow
  cases huodd : Odd u.o with
  | false =>
    rw [back_eq (hbefore u hu) huodd] at hback
    refine hmiss y hy ((to_algebra_eq_terms tag (hbefore u hu) (hsent y hy)).mpr ⟨hback, ?_⟩).symm
    rw [Triple.odd_rename] at hplain
    rw [← Bool.not_eq_true]
    intro htriple
    rw [triple_odd htriple] at hplain
    cases hplain
  | true =>
    obtain ⟨z, hz, hzu⟩ := hodd u hu huodd
    cases htriple : IsTriple z.o with
    | false =>
      exact hmiss z hz
        ((to_algebra_eq_terms tag (hbefore u hu) (hsent z hz)).mpr ⟨hzu.symm, htriple⟩).symm
    | true =>
      -- A triple term is deleted under its text, and that is no IRI.
      rw [← triple_rename tag] at htriple
      have hobject : back ox.toLibrary (rename tag z.o) = rename tag y.o := by
        have ho := congrArg Triple.o hback
        rw [← hzu] at ho
        exact ho
      cases hzo : rename tag z.o with
      | Triple s p o =>
        rw [hzo] at hobject
        cases hyo : y.o with
        | NamedNode iri =>
          rw [hyo] at hobject
          have habs := (hsent y hy).object
          rw [hyo] at habs
          exact term_text_ne_iri habs (OxTerm.NamedNode.inj hobject)
        | _ =>
          rw [hyo] at hobject
          cases hobject
      | _ =>
        rw [hzo] at htriple
        cases htriple

/-- A PUT leaves the payload's triples exactly when the odd triples are there already. -/
theorem put_iff (hsent : ∀ y ∈ payload, y.Sent ox.toLibrary)
    (hbefore : ∀ u, before u → u.Kept ox.toLibrary) :
    (∀ x, AfterPut ox tag before payload x ↔ Renamed tag payload x) ↔
      Replaceable ox tag before payload := by
  constructor
  · intro hput
    refine ⟨fun y hy hodd => ?_, fun u hu hodd => ?_, fun y hy htriple => ?_⟩
    · rcases (hput (y.rename tag)).mpr ⟨y, hy, rfl⟩ with ⟨hheld, -⟩ | hadded
      · exact hheld
      · have hplain := not_odd_of_added hadded
        rw [Triple.odd_rename, hodd] at hplain
        cases hplain
    · refine (hput u).mp (Or.inl ⟨hu, fun hdel => ?_⟩)
      have hplain := not_odd_of_deleted hdel
      rw [hodd] at hplain
      cases hplain
    · exact (hput _).mp (Or.inr (added_spelled hbefore hy (hsent y hy) fun _ => htriple))
  · rintro ⟨hheld, hodd, hspelled⟩ x
    constructor
    · rintro (⟨hx, hkept⟩ | hadded)
      · cases hxodd : Odd x.o with
        | true => exact hodd x hx hxodd
        | false =>
          by_contra hnot
          refine hkept ⟨x, hx, fun y hy heq => hnot ?_, ?_⟩
          · exact ⟨y, hy,
              ((to_algebra_eq_terms tag (hbefore x hx) (hsent y hy)).mp heq.symm).1.symm⟩
          · rw [to_row_to_algebra (hbefore x hx), back_eq (hbefore x hx) hxodd]
      · rcases renamed_of_added hsent hbefore hheld hadded with hx | ⟨y, hy, htriple, rfl⟩
        · exact hx
        · exact hspelled y hy htriple
    · rintro ⟨y, hy, rfl⟩
      by_cases hx : before (y.rename tag)
      · exact Or.inl ⟨hx, not_deleted hsent hbefore hodd hy⟩
      · refine Or.inr (added_of_new hsent hbefore hy ?_ hx)
        rw [← Bool.not_eq_true]
        exact fun h => hx (hheld y hy h)

/-- A POST leaves both exactly when the graph has the payload's odd triples. -/
theorem post_iff (hsent : ∀ y ∈ payload, y.Sent ox.toLibrary)
    (hbefore : ∀ u, before u → u.Kept ox.toLibrary) :
    (∀ x, AfterPost ox tag before payload x ↔ before x ∨ Renamed tag payload x) ↔
      Mergeable ox tag before payload := by
  constructor
  · intro hpost
    refine ⟨fun y hy hodd => ?_, fun y hy htriple => ?_⟩
    · rcases (hpost (y.rename tag)).mpr (Or.inr ⟨y, hy, rfl⟩) with hheld | hadded
      · exact hheld
      · have hplain := not_odd_of_added hadded
        rw [Triple.odd_rename, hodd] at hplain
        cases hplain
    · exact (hpost _).mp (Or.inr (added_spelled hbefore hy (hsent y hy) fun _ => htriple))
  · rintro ⟨hheld, hspelled⟩ x
    constructor
    · rintro (hx | hadded)
      · exact Or.inl hx
      · rcases renamed_of_added hsent hbefore hheld hadded with hx | ⟨y, hy, htriple, rfl⟩
        · exact Or.inr hx
        · exact hspelled y hy htriple
    · rintro (hx | ⟨y, hy, rfl⟩)
      · exact Or.inl hx
      · by_cases hx : before (y.rename tag)
        · exact Or.inl hx
        · refine Or.inr (added_of_new hsent hbefore hy ?_ hx)
          rw [← Bool.not_eq_true]
          exact fun h => hx (hheld y hy h)

end Exact

/-! ## The batch of a request -/

/-- The triples of a graph. -/
def Store.holds (st : Store) (g : GraphId) (t : Triple) : Prop := ⟨g, t⟩ ∈ st.quads

@[simp]
theorem tagged_holds (state : AppState) (g : GraphId) :
    state.tagged.store.holds g = state.store.holds g := rfl

/-- All other graphs have what they had. -/
def OthersKept (g : GraphId) (before after : Store) : Prop :=
  ∀ q : Quad, q.g ≠ g → (q ∈ after.quads ↔ q ∈ before.quads)

theorem mem_rows {g : GraphName} {l : List AlgebraTriple} {q : Quad} :
    q ∈ rows ox.toLibrary (quads g l) ↔
      q.g = resolve_graph g ∧ ∃ a ∈ l, to_row ox.toLibrary a = some q.t := by
  unfold rows quads
  rw [List.mem_filterMap]
  constructor
  · rintro ⟨a, ha, hrow⟩
    obtain ⟨b, hb, rfl⟩ := List.mem_map.mp ha
    obtain ⟨t, ht, rfl⟩ := Option.map_eq_some_iff.mp hrow
    exact ⟨rfl, b, hb, ht⟩
  · rintro ⟨hg, a, ha, hrow⟩
    refine ⟨(g, a), List.mem_map.mpr ⟨a, ha, rfl⟩, ?_⟩
    rw [hrow, Option.map_some, ← hg]

theorem mem_apply_quads {before : List Quad} {g : GraphName} {dels adds : List AlgebraTriple}
    {q : Quad} :
    q ∈ apply_quads ox.toLibrary before (quads g dels) (quads g adds) ↔
      (q ∈ before ∧ ¬(q.g = resolve_graph g ∧ ∃ a ∈ dels, to_row ox.toLibrary a = some q.t)) ∨
        q.g = resolve_graph g ∧ ∃ a ∈ adds, to_row ox.toLibrary a = some q.t := by
  rw [apply_quads, List.mem_union_iff, List.mem_filter, List.mem_dedup, decide_eq_true_eq,
    mem_rows, mem_rows]

theorem mem_scan {st : Store} {g : GraphId} {a : AlgebraTriple} :
    a ∈ scan_graph_quads ox.toLibrary st.quads g ↔
      ∃ u, st.holds g u ∧ u.to_algebra ox.toLibrary = a := by
  unfold scan_graph_quads Store.holds
  rw [List.mem_map]
  constructor
  · rintro ⟨q, hq, rfl⟩
    obtain ⟨hmem, hg⟩ := List.mem_filter.mp hq
    exact ⟨q.t, by rw [← eq_of_beq hg]; exact hmem, rfl⟩
  · rintro ⟨u, hu, rfl⟩
    exact ⟨⟨g, u⟩, List.mem_filter.mpr ⟨hu, beq_self_eq_true g⟩, rfl⟩

theorem mem_dels {st : Store} {g : GraphId} {tag : UInt64} {ts : List Triple} {x : Triple} :
    (∃ a ∈ (graph_diff (scan_graph_quads ox.toLibrary st.quads g).dedup
        (ts.map (Triple.to_terms ox.toLibrary tag)).dedup).1, to_row ox.toLibrary a = some x) ↔
      Deleted ox tag (st.holds g) ts x := by
  unfold graph_diff Deleted
  constructor
  · rintro ⟨a, ha, hrow⟩
    obtain ⟨hscan, hnot⟩ := List.mem_filter.mp ha
    obtain ⟨u, hu, rfl⟩ := mem_scan.mp (List.mem_dedup.mp hscan)
    refine ⟨u, hu, fun y hy heq => ?_, hrow⟩
    rw [decide_eq_true_eq, List.mem_dedup] at hnot
    exact hnot (List.mem_map.mpr ⟨y, hy, heq⟩)
  · rintro ⟨u, hu, hmiss, hrow⟩
    refine ⟨_, List.mem_filter.mpr ⟨List.mem_dedup.mpr (mem_scan.mpr ⟨u, hu, rfl⟩), ?_⟩, hrow⟩
    rw [decide_eq_true_eq, List.mem_dedup, List.mem_map]
    rintro ⟨y, hy, heq⟩
    exact hmiss y hy heq

theorem mem_adds {st : Store} {g : GraphId} {tag : UInt64} {ts : List Triple} {x : Triple} :
    (∃ a ∈ (graph_diff (scan_graph_quads ox.toLibrary st.quads g).dedup
        (ts.map (Triple.to_terms ox.toLibrary tag)).dedup).2, to_row ox.toLibrary a = some x) ↔
      Added ox tag (st.holds g) ts x := by
  unfold graph_diff Added
  constructor
  · rintro ⟨a, ha, hrow⟩
    obtain ⟨hterms, hnot⟩ := List.mem_filter.mp ha
    obtain ⟨y, hy, rfl⟩ := List.mem_map.mp (List.mem_dedup.mp hterms)
    refine ⟨y, hy, fun u hu heq => ?_, hrow⟩
    rw [decide_eq_true_eq, List.mem_dedup] at hnot
    exact hnot (mem_scan.mpr ⟨u, hu, heq⟩)
  · rintro ⟨y, hy, hmiss, hrow⟩
    refine ⟨_, List.mem_filter.mpr ⟨List.mem_dedup.mpr (List.mem_map.mpr ⟨y, hy, rfl⟩), ?_⟩, hrow⟩
    rw [decide_eq_true_eq, List.mem_dedup]
    intro hscan
    obtain ⟨u, hu, heq⟩ := mem_scan.mp hscan
    exact hmiss u hu heq

section Commit

variable {lib : Ttl ox} {faults : Faults} {state state' : AppState} {t : Target} {tag : UInt64}
  {ts : List Triple} {resp : Response lib.Doc}

/-- What a committed batch leaves of the quads. -/
theorem commit_mem {replace : Bool}
    (h : commit lib faults state t (ts.map (Triple.to_terms ox.toLibrary tag)).dedup replace =
      (resp, state')) (hok : resp.status.is_success = true) (q : Quad) :
    q ∈ state'.store.quads ↔
      (q ∈ state.store.quads ∧ ¬(replace = true ∧ q.g = t.graph ∧
        Deleted ox tag (state.store.holds t.graph) ts q.t)) ∨
      (q.g = t.graph ∧ Added ox tag (state.store.holds t.graph) ts q.t) := by
  unfold commit at h
  cases hscan : faults.scan with
  | some e =>
    rw [hscan] at h
    cases h
    cases hok
  | none =>
    rw [hscan] at h
    dsimp only at h
    generalize hdels : (if replace = true then
      quads t.graph_name (graph_diff (scan_graph_quads ox.toLibrary state.store.quads
        t.graph).dedup (ts.map (Triple.to_terms ox.toLibrary tag)).dedup).1 else []) = dels at h
    generalize hadds : quads t.graph_name (graph_diff (scan_graph_quads ox.toLibrary
      state.store.quads t.graph).dedup (ts.map (Triple.to_terms ox.toLibrary tag)).dedup).2 =
        adds at h
    -- An empty batch leaves the quads, as its application would.
    have happlied : q ∈ state'.store.quads ↔
        q ∈ apply_quads ox.toLibrary state.store.quads dels adds := by
      split at h
      · split at h
        · cases h
          cases hok
        · cases h
          rfl
      · rename_i hempty
        simp only [ne_eq, not_or, not_not] at hempty
        cases h
        rw [hempty.1, hempty.2]
        simp [apply_quads, rows]
    rw [happlied, ← hadds]
    cases replace with
    | true =>
      rw [if_pos rfl] at hdels
      rw [← hdels, mem_apply_quads, mem_dels, mem_adds]
      simp [Target.graph]
    | false =>
      rw [if_neg Bool.false_ne_true] at hdels
      have hnone : (dels : List AlgebraQuad) = quads t.graph_name [] := hdels.symm
      rw [hnone, mem_apply_quads, mem_adds]
      simp [Target.graph]

theorem commit_others {replace : Bool}
    (h : commit lib faults state t (ts.map (Triple.to_terms ox.toLibrary tag)).dedup replace =
      (resp, state')) (hok : resp.status.is_success = true) :
    OthersKept t.graph state.store state'.store := by
  intro q hq
  rw [commit_mem h hok]
  simp [hq]

end Commit

end horndb.server.graph_store
