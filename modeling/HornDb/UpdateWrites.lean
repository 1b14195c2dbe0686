-- What an operation writes, ahead of writing it: batches of quads and sweeps of graphs, in order.
-- An operation that is no error is nothing but these writes.
import HornDb.Update

namespace horndb.sparql

variable {ox : text.Library} {ω : Type}

/-- One write of an operation, with the quads that it records. -/
inductive Write where
  | batch (touched dels adds : List AlgebraQuad)
  | sweep (graph : GraphName)

def Write.run (fails : Faults) (s : Session ox) : Write → Result Unit × Session ox
  | .batch touched dels adds => s.write fails touched dels adds
  | .sweep graph => s.sweep fails graph

def run_writes (fails : Faults) : List Write → Session ox → Result Unit × Session ox
  | [], s => (.ok (), s)
  | w :: ws, s =>
    match w.run fails s with
    | (.error e, s) => (.error e, s)
    | (.ok (), s) => run_writes fails ws s

theorem run_writes_append (fails : Faults) (ws ws' : List Write) (s : Session ox) :
    run_writes fails (ws ++ ws') s =
      match run_writes fails ws s with
      | (.error e, s) => (.error e, s)
      | (.ok (), s) => run_writes fails ws' s := by
  induction ws generalizing s with
  | nil => rfl
  | cons w ws ih =>
    rw [List.cons_append, run_writes, run_writes]
    rcases w.run fails s with ⟨res, s'⟩
    cases res with
    | error e => rfl
    | ok u => exact ih s'

theorem run_writes_single (fails : Faults) (w : Write) (s : Session ox) :
    run_writes fails [w] s = w.run fails s := by
  rw [run_writes]
  rcases w.run fails s with ⟨res, s'⟩
  cases res <;> rfl

def Session.with_tag (s : Session ox) (tag : UInt64) : Session ox :=
  { s with store := { s.store with bnode_doc_tag := tag } }

/-- The writes of CLEAR and DROP. -/
def clear_drop_writes (verb : String) (silent : Bool) (graph : GraphTarget)
    (quads : List (StoredQuad ox)) : Result (List Write) :=
  match graph with
  | .DefaultGraph => .ok [.sweep none]
  | .AllGraphs => .ok (.sweep none :: (swept_graphs quads).map .sweep)
  | .NamedGraphs => .ok ((swept_graphs quads).map .sweep)
  | .NamedNode iri =>
    match reserved_iri_write_check iri with
    | .error e => .error e
    | .ok () =>
      if graph_exists quads iri then .ok [.sweep (some iri)]
      else if !silent then .error (missing_graph_error verb iri)
      else .ok []

/-- The solutions of the WHERE clause and the quads to delete. -/
def solve_delete (env : Env ox ω) (delete : List GroundQuadPattern) (insert : List QuadPattern)
    (dataset : Option QueryDataset) (pattern : GraphPattern ω) (quads : List (StoredQuad ox)) :
    Result (List Bindings × List AlgebraQuad) := do
  let plan ← validate_delete_insert env.query delete insert pattern
  let rows ← env.query.run quads (where_dataset dataset) plan
  let dels ← delete_quads rows delete
  .ok (rows, dels)

def delete_insert_writes (env : Env ox ω) (delete : List GroundQuadPattern)
    (insert : List QuadPattern) (dataset : Option QueryDataset) (pattern : GraphPattern ω)
    (quads : List (StoredQuad ox)) (tag : UInt64) : Result (List Write) × UInt64 :=
  match solve_delete env delete insert dataset pattern quads with
  | .error e => (.error e, tag)
  | .ok (rows, dels) =>
    ((insert_quads tag rows insert).map fun adds => [.batch (dels ++ adds) dels adds], tag + 1)

def load_writes (env : Env ox ω) (silent : Bool) (source : String) (destination : GraphName)
    (tag : UInt64) : Result (List Write) × UInt64 :=
  match reserved_write_check destination with
  | .error e => (.error e, tag)
  | .ok () =>
    match destination, is_dataset_format source with
    | some dest, true =>
      (if silent then .ok [] else .error (load_dataset_into_graph_error source dest), tag)
    | _, _ =>
      match fetch_and_parse env.docs tag source with
      | .error e => (if silent then .ok [] else .error e, tag + 1)
      | .ok quads => (.ok [.batch (route destination quads) [] (route destination quads)], tag + 1)

/-- The writes of an operation on the visible quads, and the next tag. -/
def op_writes (env : Env ox ω) (op : GraphUpdateOperation ω) (quads : List (StoredQuad ox))
    (tag : UInt64) : Result (List Write) × UInt64 :=
  match op with
  | .InsertData data => ((data.mapM data_quad).map fun adds => [.batch adds [] adds], tag)
  | .DeleteData data => ((data.mapM ground_quad).map fun dels => [.batch dels dels []], tag)
  | .DeleteInsert delete insert dataset pattern =>
    delete_insert_writes env delete insert dataset pattern quads tag
  | .Clear silent graph => (clear_drop_writes "CLEAR" silent graph quads, tag)
  | .Drop silent graph => (clear_drop_writes "DROP" silent graph quads, tag)
  | .Create silent graph => ((apply_create quads silent graph).map fun _ => [], tag)
  | .Load silent source destination => load_writes env silent source destination tag

/-! ## An operation is its writes -/

theorem sweep_all_eq (fails : Faults) (gs : List GraphName) (s : Session ox) :
    s.sweep_all fails gs = run_writes fails (gs.map .sweep) s := by
  induction gs generalizing s with
  | nil => rfl
  | cons g gs ih =>
    rw [Session.sweep_all, List.map_cons, run_writes, Write.run]
    rcases s.sweep fails g with ⟨res, s'⟩
    cases res with
    | error e => rfl
    | ok u => exact ih s'

theorem graphs_clear_default (quads : List (StoredQuad ox)) :
    graphs (clear_quads quads .DefaultGraph) = graphs quads := by
  have h : (clear_quads quads .DefaultGraph).filterMap (fun k => k.g.iri) =
      quads.filterMap fun k => k.g.iri := by
    rw [clear_quads, List.filterMap_filter]
    refine List.filterMap_congr fun k _ => ?_
    cases hk : k.g <;> simp [GraphTarget.selects, GraphId.iri]
  rw [graphs, h, graphs]

@[simp]
theorem target_of_none : Journal.target_of none = .DefaultGraph := rfl

/-- A call that succeeds sets the quads; a call that fails leaves them. -/
theorem call_eq (fails : Faults) (msg : String) (st : Store ox) (quads : List (StoredQuad ox)) :
    st.call fails msg quads =
      if fails st.calls then (.error (.Executor msg), { st with calls := st.calls + 1 })
      else (.ok (), { st with quads := quads, calls := st.calls + 1 }) := rfl

theorem scan_quads (fails : Faults) (st : Store ox) (graph : GraphTarget) :
    (st.scan_graph_quads fails graph).2.quads = st.quads := by
  unfold Store.scan_graph_quads
  split
  · rfl
  · rfl
  · rw [call_eq]
    cases fails st.calls <;> rfl

theorem record_cleared_quads (fails : Faults) (j : Journal) (st : Store ox) (g : GraphName) :
    (j.record_cleared fails st g).2.quads = st.quads := by
  unfold Journal.record_cleared
  split
  · rfl
  · rw [← scan_quads fails st (Journal.target_of g)]
    rcases st.scan_graph_quads fails (Journal.target_of g) with ⟨res, st'⟩
    cases res <;> rfl

/-- A sweep that succeeds clears its graph. -/
theorem sweep_quads {fails : Faults} {s s' : Session ox} {g : GraphName}
    (h : s.sweep fails g = (.ok (), s')) :
    s'.store.quads = clear_quads s.store.quads (Journal.target_of g) := by
  unfold Session.sweep at h
  have hq := record_cleared_quads fails s.journal s.store g
  cases hrec : s.journal.record_cleared fails s.store g with
  | mk res st =>
    rw [hrec] at h hq
    cases res with
    | error e => cases h
    | ok j =>
      dsimp only [Store.clear_graph] at h hq
      rw [call_eq] at h
      split at h
      · cases h
      · rw [Prod.mk.injEq] at h
        rw [← h.2, ← hq]

theorem clear_drop_eq (fails : Faults) (verb : String) (silent : Bool) (graph : GraphTarget)
    (s : Session ox) :
    apply_clear_drop fails verb silent graph s =
      match clear_drop_writes verb silent graph s.store.quads with
      | .error e => (.error e, s)
      | .ok ws => run_writes fails ws s := by
  cases graph with
  | DefaultGraph => exact (run_writes_single fails (.sweep none) s).symm
  | NamedGraphs => exact sweep_all_eq fails _ s
  | AllGraphs =>
    rw [apply_clear_drop, clear_drop_writes]
    dsimp only
    rw [run_writes, Write.run]
    cases hrun : s.sweep fails none with
    | mk res s' =>
      cases res with
      | error e => rfl
      | ok u =>
        dsimp only
        rw [clear_named_graphs, sweep_all_eq, swept_graphs, sweep_quads hrun, target_of_none,
          graphs_clear_default, swept_graphs]
  | NamedNode iri =>
    rw [apply_clear_drop, clear_drop_writes]
    cases reserved_iri_write_check iri with
    | error e => rfl
    | ok u =>
      dsimp only
      split
      · exact (run_writes_single fails (.sweep (some iri)) s).symm
      · split <;> rfl

/-- An operation is an error, or it is its writes in order. -/
theorem apply_op_eq (env : Env ox ω) (op : GraphUpdateOperation ω) (s : Session ox) :
    apply_op env op s =
      match op_writes env op s.store.quads s.store.bnode_doc_tag with
      | (.error e, tag) => (.error e, s.with_tag tag)
      | (.ok ws, tag) => run_writes env.fails ws (s.with_tag tag) := by
  cases op with
  | InsertData data =>
    rw [apply_op, op_writes]
    cases data.mapM data_quad with
    | error e => rfl
    | ok adds => exact (run_writes_single env.fails (.batch adds [] adds) s).symm
  | DeleteData data =>
    rw [apply_op, op_writes]
    cases data.mapM ground_quad with
    | error e => rfl
    | ok dels => exact (run_writes_single env.fails (.batch dels dels []) s).symm
  | DeleteInsert delete insert dataset pattern =>
    rw [apply_op, op_writes, delete_insert_writes, apply_delete_insert, ← solve_delete]
    dsimp only
    cases solve_delete env delete insert dataset pattern s.store.quads with
    | error e => rfl
    | ok sols =>
      obtain ⟨rows, dels⟩ := sols
      dsimp only [Store.next_bnode_doc_tag]
      cases insert_quads s.store.bnode_doc_tag rows insert with
      | error e => rfl
      | ok adds =>
        exact (run_writes_single env.fails (.batch (dels ++ adds) dels adds) _).symm
  | Load silent source destination =>
    rw [apply_op, op_writes]
    unfold apply_load load_writes
    cases reserved_write_check destination with
    | error e => rfl
    | ok u =>
      dsimp only [Store.next_bnode_doc_tag]
      cases destination with
      | none =>
        cases fetch_and_parse env.docs s.store.bnode_doc_tag source with
        | error e => cases silent <;> rfl
        | ok quads => exact (run_writes_single env.fails (.batch _ [] _) _).symm
      | some dest =>
        cases is_dataset_format source with
        | true => cases silent <;> rfl
        | false =>
          dsimp only
          cases fetch_and_parse env.docs s.store.bnode_doc_tag source with
          | error e => cases silent <;> rfl
          | ok quads => exact (run_writes_single env.fails (.batch _ [] _) _).symm
  | Clear silent graph =>
    rw [apply_op, op_writes, clear_drop_eq]
    cases clear_drop_writes "CLEAR" silent graph s.store.quads <;> rfl
  | Drop silent graph =>
    rw [apply_op, op_writes, clear_drop_eq]
    cases clear_drop_writes "DROP" silent graph s.store.quads <;> rfl
  | Create silent graph =>
    rw [apply_op, op_writes]
    cases apply_create s.store.quads silent graph <;> rfl

/-! ## The solutions of a WHERE clause -/

/-- An operation that passes has templates that pass, and the plan of its pattern. -/
theorem validate_delete_insert_ok {query : QueryPath ox ω} {delete : List GroundQuadPattern}
    {insert : List QuadPattern} {pattern : GraphPattern ω} {plan : query.Plan}
    (h : validate_delete_insert query delete insert pattern = .ok plan) :
    check_all (fun q => reserved_template_check q.graph_name) delete = .ok () ∧
      check_all (fun q => reserved_template_check q.graph_name) insert = .ok () ∧
      query.plan pattern = .ok plan := by
  unfold validate_delete_insert at h
  cases hd : check_all (fun q : GroundQuadPattern => reserved_template_check q.graph_name) delete with
  | error e => simp [hd, bind, Except.bind] at h
  | ok u =>
    cases hi : check_all (fun q : QuadPattern => reserved_template_check q.graph_name) insert with
    | error e => simp [hd, hi, bind, Except.bind] at h
    | ok u =>
      rw [hd, hi] at h
      simp only [bind, Except.bind] at h
      split at h
      · cases h
      · split at h
        · cases h
        · exact ⟨rfl, rfl, h⟩

/-- The solutions of an operation that finds its quads to delete. -/
theorem solve_delete_ok {env : Env ox ω} {delete : List GroundQuadPattern} {insert : List QuadPattern}
    {dataset : Option QueryDataset} {pattern : GraphPattern ω} {quads : List (StoredQuad ox)}
    {rows : List Bindings} {dels : List AlgebraQuad}
    (h : solve_delete env delete insert dataset pattern quads = .ok (rows, dels)) :
    ∃ plan, env.query.plan pattern = .ok plan ∧
      env.query.run quads (where_dataset dataset) plan = .ok rows ∧
      delete_quads rows delete = .ok dels := by
  unfold solve_delete at h
  cases hplan : validate_delete_insert env.query delete insert pattern with
  | error e => simp [hplan, bind, Except.bind] at h
  | ok plan =>
    cases hrun : env.query.run quads (where_dataset dataset) plan with
    | error e => simp [hplan, hrun, bind, Except.bind] at h
    | ok rows' =>
      cases hdel : delete_quads rows' delete with
      | error e => simp [hplan, hrun, hdel, bind, Except.bind] at h
      | ok dels' =>
        rw [hplan] at h
        simp only [bind, Except.bind, hrun, hdel, Except.ok.injEq, Prod.mk.injEq] at h
        obtain ⟨rfl, rfl⟩ := h
        exact ⟨plan, (validate_delete_insert_ok hplan).2.2, hrun, hdel⟩

/-- The writes that an operation comes to, and what it found for them. -/
def Comes (env : Env ox ω) (quads : List (StoredQuad ox)) (tag : UInt64) (ws : List Write) :
    GraphUpdateOperation ω → Prop
  | .InsertData data => ∃ adds, data.mapM data_quad = .ok adds ∧ ws = [.batch adds [] adds]
  | .DeleteData data => ∃ dels, data.mapM ground_quad = .ok dels ∧ ws = [.batch dels dels []]
  | .DeleteInsert delete insert dataset pattern => ∃ plan rows dels adds,
    env.query.plan pattern = .ok plan ∧
      env.query.run quads (where_dataset dataset) plan = .ok rows ∧
      delete_quads rows delete = .ok dels ∧ insert_quads tag rows insert = .ok adds ∧
      ws = [.batch (dels ++ adds) dels adds]
  | .Clear silent graph => clear_drop_writes "CLEAR" silent graph quads = .ok ws
  | .Drop silent graph => clear_drop_writes "DROP" silent graph quads = .ok ws
  | .Create _ _ => ws = []
  | .Load _ source destination => reserved_write_check destination = .ok () ∧
    (ws = [] ∧ ((∃ e, fetch_and_parse env.docs tag source = .error e) ∨
        destination ≠ none ∧ is_dataset_format source = true) ∨
      ∃ rows, fetch_and_parse env.docs tag source = .ok rows ∧
        (destination = none ∨ is_dataset_format source = false) ∧
        ws = [.batch (route destination rows) [] (route destination rows)])

theorem op_writes_ok {env : Env ox ω} {op : GraphUpdateOperation ω} {quads : List (StoredQuad ox)}
    {tag tag' : UInt64} {ws : List Write} (h : op_writes env op quads tag = (.ok ws, tag')) :
    Comes env quads tag ws op := by
  cases op with
  | InsertData data =>
    rw [op_writes] at h
    cases hm : data.mapM data_quad with
    | error e => simp [hm, Except.map] at h
    | ok adds =>
      rw [hm] at h
      cases h
      exact ⟨adds, hm, rfl⟩
  | DeleteData data =>
    rw [op_writes] at h
    cases hm : data.mapM ground_quad with
    | error e => simp [hm, Except.map] at h
    | ok dels =>
      rw [hm] at h
      cases h
      exact ⟨dels, hm, rfl⟩
  | DeleteInsert delete insert dataset pattern =>
    rw [op_writes, delete_insert_writes] at h
    cases hsol : solve_delete env delete insert dataset pattern quads with
    | error e => simp [hsol] at h
    | ok sols =>
      obtain ⟨rows, dels⟩ := sols
      obtain ⟨plan, hplan, hrows, hdel⟩ := solve_delete_ok hsol
      rw [hsol] at h
      dsimp only at h
      cases hadd : insert_quads tag rows insert with
      | error e => simp [hadd, Except.map] at h
      | ok adds =>
        rw [hadd] at h
        cases h
        exact ⟨plan, rows, dels, adds, hplan, hrows, hdel, hadd, rfl⟩
  | Clear silent graph => exact (Prod.mk.inj h).1
  | Drop silent graph => exact (Prod.mk.inj h).1
  | Create silent graph =>
    rw [op_writes] at h
    cases hc : apply_create quads silent graph with
    | error e => simp [hc, Except.map] at h
    | ok u =>
      rw [hc] at h
      cases h
      rfl
  | Load silent source destination =>
    rw [op_writes] at h
    unfold load_writes at h
    cases hr : reserved_write_check destination with
    | error e => simp [hr] at h
    | ok u =>
      refine ⟨hr, ?_⟩
      rw [hr] at h
      dsimp only at h
      split at h
      · rename_i hformat
        split at h
        · cases h
          exact Or.inl ⟨rfl, Or.inr ⟨nofun, hformat⟩⟩
        · cases h
      · rename_i hread
        cases hf : fetch_and_parse env.docs tag source with
        | error e =>
          rw [hf] at h
          dsimp only at h
          split at h
          · cases h
            exact Or.inl ⟨rfl, Or.inl ⟨e, rfl⟩⟩
          · cases h
        | ok rows =>
          rw [hf] at h
          cases h
          refine Or.inr ⟨rows, rfl, ?_, rfl⟩
          refine or_iff_not_imp_left.mpr fun hne => ?_
          obtain ⟨dest, hdest⟩ := Option.ne_none_iff_exists'.mp hne
          exact Bool.eq_false_iff.mpr (hread dest hdest)

end horndb.sparql
