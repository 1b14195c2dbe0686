-- Whole requests and the reserved graphs: what is attempted, and when a request leaves those graphs
-- alone.
import HornDb.UpdateRuns
import HornDb.UpdateReserved

namespace horndb.sparql

variable {ox : text.Library} {ω : Type}

/-! ## Requests -/

variable [DecidableEq ω]

/-- Every LOAD without INTO spares the reserved graphs, or its own batch fails. -/
def LoadsSpare (env : Env ox ω) (hints : List AmcHint) (i : Nat)
    (ops : List (GraphUpdateOperation ω)) (s : Session ox) : Prop :=
  ∀ op s', Applies env hints i ops s op s' → env.fails s'.store.calls = false →
    LoadSpares env.docs s'.store.bnode_doc_tag op

/-- A LOAD without INTO reads no document that names one of the graphs. -/
def LoadAvoids (P : GraphId → Prop) (docs : Documents) (tag : UInt64)
    (op : GraphUpdateOperation ω) : Prop :=
  ∀ silent source, op = .Load silent source none → ∀ quads, fetch_and_parse docs tag source =
    .ok quads → ∀ q ∈ quads, ¬ P (resolve_graph q.g)

/-- Every LOAD without INTO that is applied avoids the graphs, or its own batch fails. -/
def LoadsAvoid (P : GraphId → Prop) (env : Env ox ω) (hints : List AmcHint) (i : Nat)
    (ops : List (GraphUpdateOperation ω)) (s : Session ox) : Prop :=
  ∀ op s', Applies env hints i ops s op s' → env.fails s'.store.calls = false →
    LoadAvoids P env.docs s'.store.bnode_doc_tag op

omit [DecidableEq ω] in
theorem LoadsSpare.avoid {env : Env ox ω} {hints : List AmcHint} {i : Nat}
    {ops : List (GraphUpdateOperation ω)} {s : Session ox} (h : LoadsSpare env hints i ops s) :
    LoadsAvoid GraphId.Reserved env hints i ops s := by
  rintro op s' happ hok silent source rfl
  exact h _ s' happ hok

theorem Write.Spares.mono {P Q : GraphId → Prop} (hPQ : ∀ g, P g → Q g) {w : Write}
    (h : w.Spares Q) : w.Spares P := by
  cases w with
  | batch touched dels adds => exact fun q hq hP => h q hq (hPQ _ hP)
  | sweep g => exact fun hP => h (hPQ _ hP)

section Avoiding

variable {P : GraphId → Prop} (hP : ∀ g, P g → g.Reserved)

include hP

omit [DecidableEq ω] in
theorem apply_op_spared {env : Env ox ω} {op : GraphUpdateOperation ω}
    {quads : List (StoredQuad ox)} {s : Session ox}
    (hv : ∃ check st₁ st₂, validate_op env op check st₁ = (.ok (), st₂))
    (hload : env.fails s.store.calls = false → LoadAvoids P env.docs s.store.bnode_doc_tag op)
    (hs : Spared P quads s) : Spared P quads (apply_op env op s).2 := by
  rw [apply_op_eq]
  cases hw : op_writes env op s.store.quads s.store.bnode_doc_tag with
  | mk res tag =>
    have htag : Spared P quads (s.with_tag tag) := ⟨hs.same, hs.journal⟩
    cases res with
    | error e => exact htag
    | ok ws =>
      obtain ⟨check, st₁, st₂, hval⟩ := hv
      by_cases hspare : LoadSpares env.docs s.store.bnode_doc_tag op
      · exact run_writes_spared (fun w hm => (op_writes_spares hval hspare hw w hm).mono hP) htag
      · -- only a LOAD without INTO can do otherwise
        cases op with
        | Load silent source destination =>
          obtain ⟨-, ⟨rfl, -⟩ | ⟨rows, hf, -, rfl⟩⟩ := op_writes_ok hw
          · exact htag
          · cases destination with
            | some dest => exact absurd trivial hspare
            | none =>
              dsimp only
              rw [run_writes_single]
              refine write_spared ?_ htag
              cases hfail : env.fails s.store.calls with
              | true => exact Or.inr hfail
              | false => exact Or.inl (hload hfail silent source rfl rows hf)
        | _ => exact absurd trivial hspare

omit [DecidableEq ω] in
theorem run_ops_spared {env : Env ox ω} {hints : List AmcHint} {i : Nat}
    {ops : List (GraphUpdateOperation ω)} {quads : List (StoredQuad ox)} {s : Session ox}
    (hv : ∀ op ∈ ops, ∃ check st₁ st₂, validate_op env op check st₁ = (.ok (), st₂))
    (hload : LoadsAvoid P env hints i ops s) (hs : Spared P quads s) :
    Spared P quads (run_ops env hints i ops s).2 := by
  induction ops generalizing i s with
  | nil => exact hs
  | cons op ops ih =>
    rw [List.forall_mem_cons] at hv
    rw [run_ops]
    split
    · exact hs
    · rename_i u hcheck
      have hone := apply_op_spared hP hv.1 (hload op s (.here hcheck)) hs
      cases hop : apply_op env op s with
      | mk res s' =>
        rw [hop] at hone
        cases res with
        | error e => exact hone
        | ok u => exact ih hv.2 (fun op' s₁ h => hload op' s₁ (.there hcheck hop h)) hone

end Avoiding

/-- A quad of the feed slot. -/
def SlotQuad (k : StoredQuad ox) : Prop :=
  k.g = .NamedNode FEED_GRAPH ∧ k.s = .NamedNode FEED_SLOT_SUBJECT ∧
    k.p ∈ [PRED_ID, PRED_GENERATION, PRED_POSITION, PRED_ADVANCED_AT].map OxTerm.NamedNode

omit [DecidableEq ω] in
theorem slot_quads_key {slot : Slot} {q : AlgebraQuad} {k : StoredQuad ox}
    (hq : q ∈ slot_quads slot) (hkey : q.key = some k) : SlotQuad k := by
  simp only [slot_quads, List.mem_cons, List.not_mem_nil, or_false] at hq
  rcases hq with rfl | rfl | rfl | rfl <;> cases hkey <;> exact ⟨rfl, rfl, by simp⟩

omit [DecidableEq ω] in
/-- An advance changes the quads of the slot alone. -/
theorem advance_slot_spares {fails : Faults} {now : String} {st : Store ox} {fp : FeedPosition}
    {k : StoredQuad ox} (hk : ¬ SlotQuad k) :
    k ∈ (advance_slot fails now st fp).2.quads ↔ k ∈ st.quads := by
  unfold advance_slot
  rw [← read_slot_quads fails st]
  rcases read_slot fails st with ⟨res, st'⟩
  cases res with
  | error e => rfl
  | ok old =>
    rcases call_quads fails st' "storage apply_quads"
      (apply_batch st'.quads (slot_delta old ⟨fp.id, 0, fp.position, now⟩).1
        (slot_delta old ⟨fp.id, 0, fp.position, now⟩).2) with h | h
    · refine (iff_of_eq (congrArg (k ∈ ·) h)).trans (mem_apply_batch_of_ne fun q hq hkey => ?_)
      rcases List.mem_append.mp hq with hq | hq
      · cases old with
        | none => simp [slot_delta] at hq
        | some old => exact hk (slot_quads_key hq hkey)
      · exact hk (slot_quads_key hq hkey)
    · exact iff_of_eq (congrArg (k ∈ ·) h)

/-! ## Attempts -/

/-- The graphs that an operation attempts to write, where it is applied. -/
inductive Attempts (env : Env ox ω) (s : Session ox) : GraphUpdateOperation ω → String → Prop
  | named {op iri} (h : iri ∈ op.names) : Attempts env s op iri
  | deleted {delete insert dataset pattern plan rows row q v iri}
      (hplan : env.query.plan pattern = .ok plan)
      (hrows : env.query.run s.store.quads (where_dataset dataset) plan = .ok rows)
      (hrow : row ∈ rows) (hq : q ∈ delete) (hgraph : q.graph_name = .Variable v)
      (hbound : row v = some (.Iri iri)) :
      Attempts env s (.DeleteInsert delete insert dataset pattern) iri
  | inserted {delete insert dataset pattern plan rows row q v iri}
      (hplan : env.query.plan pattern = .ok plan)
      (hrows : env.query.run s.store.quads (where_dataset dataset) plan = .ok rows)
      (hrow : row ∈ rows) (hq : q ∈ insert) (hgraph : q.graph_name = .Variable v)
      (hbound : row v = some (.Iri iri)) :
      Attempts env s (.DeleteInsert delete insert dataset pattern) iri
  | loaded {silent source quads q iri}
      (hread : fetch_and_parse env.docs s.store.bnode_doc_tag source = .ok quads)
      (hq : q ∈ quads) (hgraph : q.g = some iri) :
      Attempts env s (.Load silent source none) iri

/-- A LOAD without INTO that is applied, and whose batch succeeds, reads no document that names a
reserved graph. -/
def LoadsReadNoReserved (env : Env ox ω) (u : ParsedUpdate ω) (feed : Option FeedPosition)
    (st : Store ox) : Prop :=
  ∀ silent source s, Applied env u feed st (.Load silent source none) s →
    env.fails s.store.calls = false →
    ∀ quads, fetch_and_parse env.docs s.store.bnode_doc_tag source = .ok quads →
      ∀ q ∈ quads, ¬ (resolve_graph q.g).Reserved

/-- The request leaves the reserved graphs, but for the feed slot, and an attempt to write one is
an error. -/
structure KeepsReserved (env : Env ox ω) (u : ParsedUpdate ω) (feed : Option FeedPosition)
    (st : Store ox) : Prop where
  same : ∀ k : StoredQuad ox, k.g.Reserved → feed = none ∨ ¬ SlotQuad k →
    (k ∈ (apply_update_with_feed env u feed st).2.quads ↔ k ∈ st.quads)
  named : ∀ op ∈ u.operations, ∀ iri ∈ op.names, is_reserved_graph iri = true →
    ∃ e, (apply_update_with_feed env u feed st).1 = .error e
  attempted : ∀ op s iri, Applied env u feed st op s → Attempts env s op iri →
    is_reserved_graph iri = true →
    ∃ e, (apply_op env op s).1 = .error e ∧ (apply_update_with_feed env u feed st).1 = .error e

section Attempting

omit [DecidableEq ω]

variable {env : Env ox ω}

theorem reserved_check_error {iri : String} (h : is_reserved_graph iri = true) :
    reserved_iri_write_check iri = .error (reserved_graph_write_error iri) := by
  rw [reserved_iri_write_check, if_pos h]

theorem template_check_ok {pat : GraphNamePattern} (h : reserved_template_check pat = .ok ())
    {iri : String} (hiri : template_iri pat = some iri) : is_reserved_graph iri = false := by
  cases pat with
  | NamedNode n =>
    cases hiri
    exact reserved_check_ok h
  | DefaultGraph => cases hiri
  | Variable v => cases hiri

theorem data_check_ok {g : GraphName} {r : Result Unit}
    (h : (do reserved_write_check g; r) = .ok ()) {iri : String} (hiri : g = some iri) :
    is_reserved_graph iri = false := by
  subst hiri
  cases hc : reserved_write_check (some iri) with
  | error e => simp [hc, bind, Except.bind] at h
  | ok u => exact reserved_check_ok hc

theorem clear_drop_check_ok {verb : String} {silent : Bool} {graph : GraphTarget}
    {quads : List (StoredQuad ox)} {check : Bool}
    (h : validate_clear_drop verb silent graph quads check = .ok ()) {iri : String}
    (hiri : graph = .NamedNode iri) : is_reserved_graph iri = false := by
  subst hiri
  exact data_check_ok (g := some iri) h rfl

/-- An operation that passed its checks names no reserved graph. -/
theorem validate_op_names {op : GraphUpdateOperation ω} {check : Bool} {st st' : Store ox}
    (h : validate_op env op check st = (.ok (), st')) {iri : String} (hiri : iri ∈ op.names) :
    is_reserved_graph iri = false := by
  cases op with
  | InsertData data =>
    obtain ⟨d, hd, hg⟩ := List.mem_filterMap.mp hiri
    exact data_check_ok (check_all_ok (Prod.mk.inj h).1 d hd) hg
  | DeleteData data =>
    obtain ⟨d, hd, hg⟩ := List.mem_filterMap.mp hiri
    exact data_check_ok (check_all_ok (Prod.mk.inj h).1 d hd) hg
  | DeleteInsert delete insert dataset pattern =>
    cases hp : validate_delete_insert env.query delete insert pattern with
    | error e => simp [validate_op, hp, Except.map] at h
    | ok plan =>
      obtain ⟨hd, hi⟩ := validate_delete_insert_checks hp
      rcases List.mem_append.mp hiri with hiri | hiri
      · obtain ⟨q, hq, hg⟩ := List.mem_filterMap.mp hiri
        exact template_check_ok (hd q hq) hg
      · obtain ⟨q, hq, hg⟩ := List.mem_filterMap.mp hiri
        exact template_check_ok (hi q hq) hg
  | Clear silent graph =>
    refine clear_drop_check_ok (Prod.mk.inj h).1 ?_
    cases graph <;> simp_all [GraphUpdateOperation.names]
  | Drop silent graph =>
    refine clear_drop_check_ok (Prod.mk.inj h).1 ?_
    cases graph <;> simp_all [GraphUpdateOperation.names]
  | Create silent graph =>
    rw [GraphUpdateOperation.names, List.mem_singleton] at hiri
    exact data_check_ok (g := some graph) (Prod.mk.inj h).1 (congrArg some hiri.symm)
  | Load silent source destination =>
    have hg : destination = some iri := Option.mem_toList.mp hiri
    rw [validate_op] at h
    unfold validate_load at h
    cases hc : reserved_write_check destination with
    | error e => simp [hc] at h
    | ok u =>
      rw [hg] at hc
      exact reserved_check_ok hc

/-- A graph variable that is bound to a reserved graph. -/
theorem resolve_reserved {row : Bindings} {pat : GraphNamePattern} {v iri : String}
    (hgraph : pat = .Variable v) (hbound : row v = some (.Iri iri))
    (hres : is_reserved_graph iri = true) :
    resolve_graph_name row pat = .error (reserved_graph_write_error iri) := by
  subst hgraph
  rw [resolve_graph_name, hbound]
  dsimp only
  rw [reserved_check_error hres]
  rfl

/-- One instance that is an error fails them all. -/
theorem collect_error {α : Type} {l : List (Result (Option α))} {e : SparqlError}
    (h : .error e ∈ l) : ∃ e', collect l = .error e' := by
  cases hc : collect l with
  | error e' => exact ⟨e', rfl⟩
  | ok as =>
    obtain ⟨o, ho⟩ := (mem_collect hc).2 _ h
    cases ho

theorem delete_quads_error {rows : List Bindings} {delete : List GroundQuadPattern}
    {row : Bindings} {q : GroundQuadPattern} {v iri : String} (hrow : row ∈ rows) (hq : q ∈ delete)
    (hgraph : q.graph_name = .Variable v) (hbound : row v = some (.Iri iri))
    (hres : is_reserved_graph iri = true) : ∃ e, delete_quads rows delete = .error e := by
  refine collect_error (e := reserved_graph_write_error iri) ?_
  refine List.mem_flatMap.mpr ⟨row, hrow, List.mem_map.mpr ⟨q, hq, ?_⟩⟩
  rw [delete_instance, resolve_reserved hgraph hbound hres]
  rfl

theorem insert_quads_error (scope : UInt64) {rows : List Bindings} {insert : List QuadPattern}
    {row : Bindings} {q : QuadPattern} {v iri : String} (hrow : row ∈ rows) (hq : q ∈ insert)
    (hgraph : q.graph_name = .Variable v) (hbound : row v = some (.Iri iri))
    (hres : is_reserved_graph iri = true) : ∃ e, insert_quads scope rows insert = .error e := by
  obtain ⟨ix, hix, hget⟩ := List.mem_iff_getElem.mp hrow
  refine collect_error (e := reserved_graph_write_error iri) ?_
  refine List.mem_flatMap.mpr ⟨(row, ix), ?_, List.mem_map.mpr ⟨q, hq, ?_⟩⟩
  · rw [List.mem_zipIdx_iff_getElem?]
    exact List.getElem?_eq_some_iff.mpr ⟨hix, hget⟩
  · rw [insert_instance, resolve_reserved hgraph hbound hres]
    rfl

/-- An operation that attempts to write a reserved graph fails, a LOAD by its own batch. -/
theorem attempt_error {op : GraphUpdateOperation ω} {s : Session ox} {iri : String}
    (hv : ∃ check st₁ st₂, validate_op env op check st₁ = (.ok (), st₂))
    (hload : env.fails s.store.calls = false → LoadSpares env.docs s.store.bnode_doc_tag op)
    (h : Attempts env s op iri) (hres : is_reserved_graph iri = true) :
    ∃ e, (apply_op env op s).1 = .error e := by
  cases h with
  | named h =>
    obtain ⟨check, st₁, st₂, hval⟩ := hv
    rw [validate_op_names hval h] at hres
    cases hres
  | @deleted delete insert dataset pattern plan rows row q v _ hplan hrows hrow hq hgraph hbound =>
    rw [apply_op_eq, op_writes, delete_insert_writes]
    cases hsol : solve_delete env delete insert dataset pattern s.store.quads with
    | error e => exact ⟨e, rfl⟩
    | ok sols =>
      obtain ⟨rows', dels'⟩ := sols
      obtain ⟨plan', hplan', hrows', hdel⟩ := solve_delete_ok hsol
      rw [hplan] at hplan'
      cases hplan'
      rw [hrows] at hrows'
      cases hrows'
      obtain ⟨e, he⟩ := delete_quads_error hrow hq hgraph hbound hres
      rw [he] at hdel
      cases hdel
  | @inserted delete insert dataset pattern plan rows row q v _ hplan hrows hrow hq hgraph hbound =>
    rw [apply_op_eq, op_writes, delete_insert_writes]
    cases hsol : solve_delete env delete insert dataset pattern s.store.quads with
    | error e => exact ⟨e, rfl⟩
    | ok sols =>
      obtain ⟨rows', dels'⟩ := sols
      obtain ⟨plan', hplan', hrows', -⟩ := solve_delete_ok hsol
      rw [hplan] at hplan'
      cases hplan'
      rw [hrows] at hrows'
      cases hrows'
      obtain ⟨e, he⟩ := insert_quads_error s.store.bnode_doc_tag hrow hq hgraph hbound hres
      dsimp only
      rw [he]
      exact ⟨e, rfl⟩
  | @loaded silent source quads q _ hread hq hgraph =>
    have hfail : env.fails s.store.calls = true := by
      rw [← Bool.not_eq_false]
      intro hok
      apply hload hok quads hread q hq
      rw [hgraph]
      exact hres
    refine ⟨.Executor "storage apply_quads", ?_⟩
    rw [apply_op]
    unfold apply_load
    dsimp only [reserved_write_check, Store.next_bnode_doc_tag]
    rw [hread]
    dsimp only [Session.write, Store.apply_quads]
    rw [call_eq, if_pos hfail]

/-- A LOAD without INTO that takes a reserved graph succeeds, unless its batch fails. -/
theorem load_ok {silent : Bool} {source : String} {s : Session ox} {quads : List AlgebraQuad}
    (hread : fetch_and_parse env.docs s.store.bnode_doc_tag source = .ok quads)
    (hok : env.fails s.store.calls = false) :
    (apply_op env (.Load silent source none) s).1 = .ok () := by
  rw [apply_op]
  unfold apply_load
  dsimp only [reserved_write_check, Store.next_bnode_doc_tag]
  rw [hread]
  dsimp only [Session.write, Store.apply_quads]
  rw [call_eq, hok]
  rfl

end Attempting

/-- A request leaves the reserved graphs as they are, and fails where it attempts to write one, if
and only if every LOAD without INTO that it applies reads no document that names one. -/
theorem keeps_reserved_iff (env : Env ox ω) (u : ParsedUpdate ω) (feed : Option FeedPosition)
    (st : Store ox) :
    KeepsReserved env u feed st ↔ LoadsReadNoReserved env u feed st := by
  constructor
  · intro hkeep silent source s happ hok quads hread q hq hres
    cases hg : q.g with
    | none => simp [hg, resolve_graph, GraphId.Reserved] at hres
    | some iri =>
      rw [hg] at hres
      obtain ⟨e, he, -⟩ := hkeep.attempted _ s iri happ (.loaded hread hq hg) hres
      rw [load_ok hread hok] at he
      cases he
  · intro hload
    have hspare : ∀ st₁, preflight env u feed st = (.ok (), st₁) →
        LoadsSpare env (locate_amc_hints u.amc_hints u.operations) 0 u.operations
          ⟨st₁, .new (decide (u.operations.length > 1))⟩ := by
      intro st₁ hpre op s happ hok
      cases op with
      | Load silent source destination =>
        cases destination with
        | some dest => exact trivial
        | none => exact hload silent source s ⟨st₁, hpre, happ⟩ hok
      | _ => exact trivial
    have hq := preflight_quads env u feed st
    refine ⟨?_, ?_, ?_⟩
    · intro k hk hfeed
      unfold apply_update_with_feed
      cases hpre : preflight env u feed st with
      | mk res st₁ =>
        rw [hpre] at hq
        rw [← hq]
        cases res with
        | error e => rfl
        | ok un =>
          dsimp only
          have hrun : Spared GraphId.Reserved st₁.quads (run_request env u st₁).2 :=
            run_ops_spared (fun _ h => h) (preflight_ok hpre) (hspare st₁ hpre).avoid
              ⟨fun _ _ => Iff.rfl, by simp [Journal.new]⟩
          cases hreq : run_request env u st₁ with
          | mk res s =>
            rw [hreq] at hrun
            cases res with
            | error e => exact rollback_spared hrun hk
            | ok un =>
              rw [← hrun.same k hk]
              cases feed with
              | none => rfl
              | some fp =>
                rcases hfeed with h | h
                · cases h
                · exact advance_slot_spares h
    · intro op hop iri hiri hres
      unfold apply_update_with_feed
      cases hpre : preflight env u feed st with
      | mk res st₁ =>
        cases res with
        | error e => exact ⟨e, rfl⟩
        | ok un =>
          obtain ⟨check, st₂, st₃, hval⟩ := preflight_ok hpre op hop
          rw [validate_op_names hval hiri] at hres
          cases hres
    · rintro op s iri ⟨st₁, hpre, happ⟩ hatt hres
      obtain ⟨e, he⟩ := attempt_error (preflight_ok hpre op (applies_mem happ))
        (hspare st₁ hpre op s happ) hatt hres
      refine ⟨e, he, ?_⟩
      have hrun := applies_error happ (Prod.ext he rfl)
      unfold apply_update_with_feed
      rw [hpre]
      dsimp only
      rw [run_request, hrun]

/-! ## A document that names a reserved graph -/

def forged_text : List UInt8 :=
  horndb.storage.as_bytes "<http://a> <http://b> <http://c> <https://horndb.io/graph/x> .\n"

/-- One file, of N-Quads. -/
def forged_docs : Documents where
  replaced _ := "?"
  read path := if path = "/tmp/a.nq" then .ok forged_text else .error "no such file"
  nt _ := .error "expected a dot"
  nq bytes :=
    if bytes = forged_text then
      .ok [⟨⟨.NamedNode "http://a", "http://b", .NamedNode "http://c"⟩,
        .NamedNode "https://horndb.io/graph/x"⟩]
    else .error "expected a subject"
  trig _ _ := .error "expected a graph"
  turtle _ _ := .error "expected a dot"

def forged_env : Env text.ascii Unit := { bare_env with docs := forged_docs }

def forged_request : ParsedUpdate Unit := ⟨[.Load false "file:///tmp/a.nq" none], []⟩

/-- The file's quad is loaded into the reserved graph. -/
theorem forged_load_not_kept : ¬ KeepsReserved forged_env forged_request none ⟨[], 0, 0⟩ := by
  intro h
  have hin := h.same ⟨.NamedNode "https://horndb.io/graph/x", .NamedNode "http://a",
    .NamedNode "http://b", .NamedNode "http://c"⟩
    (show is_reserved_graph "https://horndb.io/graph/x" = true by decide) (Or.inl rfl)
  revert hin
  decide

end horndb.sparql
