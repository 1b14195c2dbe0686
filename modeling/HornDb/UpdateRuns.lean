-- Requests on a store: what the checks leave, which operations are applied and which writes are
-- issued, and that a run without faults goes as it goes with faults that it does not meet.
import HornDb.UpdateWrites

namespace horndb.sparql

variable {ox : text.Library} {ω : Type}

/-! ## What the checks leave -/

/-- A check leaves the store, but for the tag that it reads a document under. -/
theorem validate_op_store (env : Env ox ω) (op : GraphUpdateOperation ω) (check : Bool)
    (st : Store ox) :
    ∃ tag, (validate_op env op check st).2 = { st with bnode_doc_tag := tag } := by
  cases op with
  | Load silent source destination =>
    rw [validate_op]
    unfold validate_load
    cases reserved_write_check destination with
    | error e => exact ⟨_, rfl⟩
    | ok u =>
      dsimp only
      split
      · exact ⟨_, rfl⟩
      · split <;> exact ⟨_, rfl⟩
  | _ => exact ⟨_, rfl⟩

theorem validate_ops_store (env : Env ox ω) (i : Nat) (ops : List (GraphUpdateOperation ω))
    (st : Store ox) :
    ∃ tag, (validate_ops env i ops st).2 = { st with bnode_doc_tag := tag } := by
  induction ops generalizing i st with
  | nil => exact ⟨_, rfl⟩
  | cons op ops ih =>
    rw [validate_ops]
    obtain ⟨tag, htag⟩ := validate_op_store env op (i == 0) st
    revert htag
    rcases validate_op env op (i == 0) st with ⟨res, st'⟩
    rintro rfl
    cases res with
    | error e => exact ⟨_, rfl⟩
    | ok u => exact ih (i + 1) { st with bnode_doc_tag := tag }

theorem validate_ops_quads (env : Env ox ω) (i : Nat) (ops : List (GraphUpdateOperation ω))
    (st : Store ox) : (validate_ops env i ops st).2.quads = st.quads := by
  obtain ⟨tag, htag⟩ := validate_ops_store env i ops st
  rw [htag]

/-- Every operation of a list that passed has passed. -/
theorem validate_ops_ok {env : Env ox ω} {i : Nat} {ops : List (GraphUpdateOperation ω)}
    {st st' : Store ox} (h : validate_ops env i ops st = (.ok (), st')) :
    ∀ op ∈ ops, ∃ check st₁ st₂, validate_op env op check st₁ = (.ok (), st₂) := by
  induction ops generalizing i st with
  | nil => simp
  | cons op ops ih =>
    rw [validate_ops] at h
    cases hv : validate_op env op (i == 0) st with
    | mk res st₁ =>
      rw [hv] at h
      cases res with
      | error e => cases h
      | ok u =>
        rw [List.forall_mem_cons]
        exact ⟨⟨_, _, _, hv⟩, ih h⟩

theorem read_slot_quads (fails : Faults) (st : Store ox) :
    (read_slot fails st).2.quads = st.quads := by
  unfold read_slot
  rw [← scan_quads fails st (.NamedNode FEED_GRAPH)]
  rcases st.scan_graph_quads fails (.NamedNode FEED_GRAPH) with ⟨res, st'⟩
  cases res <;> rfl

theorem check_feed_id_quads (fails : Faults) (st : Store ox) (fp : FeedPosition) :
    (check_feed_id fails st fp).2.quads = st.quads := by
  unfold check_feed_id
  rw [← read_slot_quads fails st]
  rcases read_slot fails st with ⟨res, st'⟩
  cases res with
  | error e => rfl
  | ok slot =>
    cases slot with
    | none => rfl
    | some slot =>
      dsimp only
      split <;> rfl

variable [DecidableEq ω]

/-- The checks behind that of the position. -/
def check_operations (env : Env ox ω) (u : ParsedUpdate ω) (st : Store ox) :
    Result Unit × Store ox :=
  match check_all (preflight_hint st.quads) (locate_amc_hints u.amc_hints u.operations) with
  | .error e => (.error e, st)
  | .ok () => validate_ops env 0 u.operations st

theorem preflight_quads (env : Env ox ω) (u : ParsedUpdate ω) (feed : Option FeedPosition)
    (st : Store ox) : (preflight env u feed st).2.quads = st.quads := by
  have hrest : ∀ st₁ : Store ox, st₁.quads = st.quads →
      (check_operations env u st₁).2.quads = st.quads := by
    intro st₁ h
    unfold check_operations
    split
    · exact h
    · exact (validate_ops_quads env 0 u.operations st₁).trans h
  unfold preflight
  cases feed with
  | none => exact hrest st rfl
  | some fp =>
    have hq := check_feed_id_quads env.fails st fp
    dsimp only
    revert hq
    rcases check_feed_id env.fails st fp with ⟨res, st₁⟩
    intro hq
    cases res with
    | error e => exact hq
    | ok u => exact hrest st₁ hq

theorem preflight_ok {env : Env ox ω} {u : ParsedUpdate ω} {feed : Option FeedPosition}
    {st st' : Store ox} (h : preflight env u feed st = (.ok (), st')) :
    ∀ op ∈ u.operations, ∃ check st₁ st₂, validate_op env op check st₁ = (.ok (), st₂) := by
  have hrest : ∀ st₁ : Store ox, check_operations env u st₁ = (.ok (), st') →
      ∀ op ∈ u.operations, ∃ check st₁ st₂, validate_op env op check st₁ = (.ok (), st₂) := by
    intro st₁ h
    unfold check_operations at h
    split at h
    · cases h
    · exact validate_ops_ok h
  unfold preflight at h
  cases feed with
  | none => exact hrest st h
  | some fp =>
    dsimp only at h
    revert h
    rcases check_feed_id env.fails st fp with ⟨res, st₁⟩
    intro h
    cases res with
    | error e => cases h
    | ok u => exact hrest st₁ h

/-! ## What is applied -/

/-- What a request runs with, under other faults. -/
def Env.with_fails (env : Env ox ω) (fails : Faults) : Env ox ω := { env with fails := fails }

section Applying

omit [DecidableEq ω]

/-- The operation is applied in the session: all that comes before it succeeds. -/
inductive Applies (env : Env ox ω) (hints : List AmcHint) : Nat → List (GraphUpdateOperation ω) →
    Session ox → GraphUpdateOperation ω → Session ox → Prop
  | here {i op ops s}
      (hcheck : check_all (amc_source_check s.store.quads)
        (hints.filter fun h => h.op_index == i && i > 0) = .ok ()) :
      Applies env hints i (op :: ops) s op s
  | there {i op ops s s₁ op' s'}
      (hcheck : check_all (amc_source_check s.store.quads)
        (hints.filter fun h => h.op_index == i && i > 0) = .ok ())
      (hop : apply_op env op s = (.ok (), s₁))
      (hrest : Applies env hints (i + 1) ops s₁ op' s') :
      Applies env hints i (op :: ops) s op' s'

variable {env : Env ox ω} {hints : List AmcHint} {i : Nat} {ops : List (GraphUpdateOperation ω)}
  {s s' s'' : Session ox} {op : GraphUpdateOperation ω} {w : Write}

theorem applies_mem (h : Applies env hints i ops s op s') : op ∈ ops := by
  induction h with
  | here hcheck => exact List.mem_cons_self
  | there hcheck hop hrest ih => exact List.mem_cons_of_mem _ ih

/-- The error of an operation that is applied is the error of the request. -/
theorem applies_error (h : Applies env hints i ops s op s') {e : SparqlError}
    (he : apply_op env op s' = (.error e, s'')) :
    run_ops env hints i ops s = (.error e, s'') := by
  induction h with
  | here hcheck =>
    rw [run_ops, hcheck]
    dsimp only
    rw [he]
  | there hcheck hop hrest ih =>
    rw [run_ops, hcheck]
    dsimp only
    rw [hop]
    exact ih he

/-- The write is issued in the session, by an operation that is applied. -/
def Issues (env : Env ox ω) (hints : List AmcHint) (i : Nat) (ops : List (GraphUpdateOperation ω))
    (s : Session ox) (w : Write) (s' : Session ox) : Prop :=
  ∃ op s₁ before after tag, Applies env hints i ops s op s₁ ∧
    op_writes env op s₁.store.quads s₁.store.bnode_doc_tag = (.ok (before ++ w :: after), tag) ∧
    run_writes env.fails before (s₁.with_tag tag) = (.ok (), s')

theorem issues_error (h : Issues env hints i ops s w s') {e : SparqlError}
    (he : w.run env.fails s' = (.error e, s'')) :
    run_ops env hints i ops s = (.error e, s'') := by
  obtain ⟨op, s₁, before, after, tag, happ, hwrites, hbefore⟩ := h
  refine applies_error happ ?_
  rw [apply_op_eq, hwrites]
  dsimp only
  rw [run_writes_append, hbefore]
  dsimp only
  rw [run_writes, he]

end Applying

/-- An operation of the request is applied in the session. -/
def Applied (env : Env ox ω) (u : ParsedUpdate ω) (feed : Option FeedPosition) (st : Store ox)
    (op : GraphUpdateOperation ω) (s : Session ox) : Prop :=
  ∃ st₁, preflight env u feed st = (.ok (), st₁) ∧
    Applies env (locate_amc_hints u.amc_hints u.operations) 0 u.operations
      ⟨st₁, .new (decide (u.operations.length > 1))⟩ op s

/-- A write of the request is issued in the session. -/
def Issued (env : Env ox ω) (u : ParsedUpdate ω) (feed : Option FeedPosition) (st : Store ox)
    (w : Write) (s : Session ox) : Prop :=
  ∃ st₁, preflight env u feed st = (.ok (), st₁) ∧
    Issues env (locate_amc_hints u.amc_hints u.operations) 0 u.operations
      ⟨st₁, .new (decide (u.operations.length > 1))⟩ w s

/-! ## Runs that meet no fault -/

/-- A computation that succeeds makes some calls, and succeeds in the same way under all faults
that spare these calls. -/
def Replays {σ α : Type} (calls : σ → Nat) (f : Faults → σ → Result α × σ) : Prop :=
  ∀ fails s a s', f fails s = (.ok a, s') → calls s ≤ calls s' ∧
    ∀ fails' : Faults, (∀ n, calls s ≤ n → n < calls s' → fails' n = false) →
      f fails' s = (.ok a, s')

/-- The calls that the store of a session has seen. -/
def Session.calls (s : Session ox) : Nat := s.store.calls

section Replaying

omit [DecidableEq ω]

variable {σ α β : Type} {calls : σ → Nat}

theorem replays_const {f : σ → Result α × σ}
    (h : ∀ s a s', f s = (.ok a, s') → calls s' = calls s) :
    Replays calls fun _ => f := by
  intro fails s a s' hf
  exact ⟨(h s a s' hf).ge, fun _ _ => hf⟩

theorem Replays.congr {f g : Faults → σ → Result α × σ} (hf : Replays calls f)
    (h : ∀ fails s, g fails s = f fails s) : Replays calls g := by
  have heq : g = f := by
    funext fails s
    exact h fails s
  rwa [heq]

/-- One computation, and another that goes on from its result. -/
theorem Replays.bind {f : Faults → σ → Result α × σ} {g : α → Faults → σ → Result β × σ}
    (hf : Replays calls f) (hg : ∀ a, Replays calls (g a)) :
    Replays calls fun fails s =>
      match f fails s with
      | (.error e, s) => (.error e, s)
      | (.ok a, s) => g a fails s := by
  intro fails s b s' h
  dsimp only at h
  cases hfirst : f fails s with
  | mk res s₁ =>
    rw [hfirst] at h
    cases res with
    | error e => cases h
    | ok a =>
      obtain ⟨hle₁, hsame₁⟩ := hf fails s a s₁ hfirst
      obtain ⟨hle₂, hsame₂⟩ := hg a fails s₁ b s' h
      refine ⟨hle₁.trans hle₂, ?_⟩
      intro fails' hno
      dsimp only
      rw [hsame₁ fails' fun n hge hlt => hno n hge (hlt.trans_le hle₂)]
      exact hsame₂ fails' fun n hge hlt => hno n (hle₁.trans hge) hlt

/-- Go on where the first computation succeeds. -/
def go_on (r : Result Unit × σ) (g : σ → Result β × σ) : Result β × σ :=
  match r with
  | (.error e, s) => (.error e, s)
  | (.ok (), s) => g s

/-- One computation after another. -/
theorem Replays.seq {f : Faults → σ → Result Unit × σ} {g : Faults → σ → Result β × σ}
    (hf : Replays calls f) (hg : Replays calls g) :
    Replays calls fun fails s => go_on (f fails s) (g fails) := by
  refine (hf.bind fun _ => hg).congr fun fails s => ?_
  unfold go_on
  rcases f fails s with ⟨res, s'⟩
  cases res <;> rfl

theorem replays_call (msg : String) (f : Store ox → List (StoredQuad ox)) :
    Replays Store.calls fun fails (st : Store ox) => st.call fails msg (f st) := by
  intro fails st a st' h
  dsimp only at h
  rw [call_eq] at h
  split at h
  · cases h
  · cases h
    refine ⟨Nat.le_succ _, ?_⟩
    intro fails' hno
    dsimp only
    rw [call_eq, hno st.calls le_rfl (Nat.lt_succ_self _)]
    rfl

theorem replays_scan (graph : GraphTarget) :
    Replays Store.calls fun fails (st : Store ox) => st.scan_graph_quads fails graph := by
  let found (_ : Faults) (st : Store ox) : Result (List (Term × Term × Term)) × Store ox :=
    (.ok ((st.quads.filter fun k => graph.selects k.g).map fun k =>
      (oxrdf_to_algebra k.s, oxrdf_to_algebra k.p, oxrdf_to_algebra k.o)), st)
  have hone := (replays_call "scan_graph" (Store.quads : Store ox → _)).seq (g := found) (by
    refine replays_const ?_
    intro st a st' h
    cases h
    rfl)
  cases graph with
  | DefaultGraph =>
    refine hone.congr fun fails st => ?_
    dsimp only [Store.scan_graph_quads, go_on]
    rcases st.call fails "scan_graph" st.quads with ⟨res, st'⟩
    cases res <;> rfl
  | NamedNode iri =>
    refine hone.congr fun fails st => ?_
    dsimp only [Store.scan_graph_quads, go_on]
    rcases st.call fails "scan_graph" st.quads with ⟨res, st'⟩
    cases res <;> rfl
  | NamedGraphs =>
    refine replays_const ?_
    intro st a st' h
    cases h
  | AllGraphs =>
    refine replays_const ?_
    intro st a st' h
    cases h

theorem replays_record_cleared (j : Journal) (g : GraphName) :
    Replays Store.calls fun fails (st : Store ox) => j.record_cleared fails st g := by
  unfold Journal.record_cleared
  cases j.enabled with
  | false =>
    refine replays_const ?_
    intro st a st' h
    cases h
    rfl
  | true =>
    let noted (triples : List (Term × Term × Term)) (_ : Faults) (st : Store ox) :
        Result Journal × Store ox :=
      (.ok ⟨true, triples.foldl
        (fun before t => Journal.note before ⟨g, t.1, t.2.1, t.2.2⟩ true) j.before⟩, st)
    have hone := (replays_scan (Journal.target_of g)).bind (g := noted) fun triples => by
      refine replays_const ?_
      intro st a st' h
      cases h
      rfl
    refine hone.congr fun fails st => ?_
    rcases st.scan_graph_quads fails (Journal.target_of g) with ⟨res, st'⟩
    cases res <;> rfl

theorem replays_write (touched dels adds : List AlgebraQuad) :
    Replays Session.calls fun fails (s : Session ox) => s.write fails touched dels adds := by
  intro fails s a s' h
  dsimp only [Session.write, Store.apply_quads] at h
  rw [Prod.mk.injEq] at h
  obtain ⟨hle, hsame⟩ := replays_call "storage apply_quads"
    (fun st => apply_batch st.quads dels adds) fails s.store a _ (Prod.ext h.1 rfl)
  rw [← h.2]
  refine ⟨hle, ?_⟩
  intro fails' hno
  have hcall := hsame fails' hno
  dsimp only [Session.write, Store.apply_quads] at hcall ⊢
  rw [hcall]

theorem replays_sweep (g : GraphName) :
    Replays Session.calls fun fails (s : Session ox) => s.sweep fails g := by
  intro fails s a s' h
  dsimp only at h
  unfold Session.sweep at h
  cases hrec : s.journal.record_cleared fails s.store g with
  | mk res st₁ =>
    rw [hrec] at h
    cases res with
    | error e => cases h
    | ok j =>
      dsimp only [Store.clear_graph] at h
      rw [Prod.mk.injEq] at h
      obtain ⟨hle₁, hsame₁⟩ := replays_record_cleared s.journal g fails s.store j st₁ hrec
      obtain ⟨hle₂, hsame₂⟩ := replays_call "clear_graph"
        (fun st => clear_quads st.quads (Journal.target_of g)) fails st₁ a _ (Prod.ext h.1 rfl)
      rw [← h.2]
      refine ⟨hle₁.trans hle₂, ?_⟩
      intro fails' hno
      dsimp only
      unfold Session.sweep
      have hrec' := hsame₁ fails' fun n hge hlt => hno n hge (hlt.trans_le hle₂)
      dsimp only at hrec'
      rw [hrec']
      have hcall := hsame₂ fails' fun n hge hlt => hno n (hle₁.trans hge) hlt
      dsimp only [Store.clear_graph] at hcall ⊢
      rw [hcall]

theorem replays_write_run (w : Write) :
    Replays Session.calls fun fails (s : Session ox) => w.run fails s := by
  cases w with
  | batch touched dels adds => exact replays_write touched dels adds
  | sweep g => exact replays_sweep g

theorem replays_run_writes (ws : List Write) :
    Replays Session.calls fun fails (s : Session ox) => run_writes fails ws s := by
  induction ws with
  | nil =>
    refine replays_const ?_
    intro s a s' h
    cases h
    rfl
  | cons w ws ih =>
    refine ((replays_write_run w).seq ih).congr fun fails s => ?_
    rw [run_writes]
    unfold go_on
    rcases w.run fails s with ⟨res, s'⟩
    cases res <;> rfl

/-- What an operation writes does not depend on the faults. -/
theorem op_writes_with_fails (env : Env ox ω) (fails : Faults) :
    op_writes (env.with_fails fails) = op_writes env := rfl

theorem replays_apply_op (env : Env ox ω) (op : GraphUpdateOperation ω) :
    Replays Session.calls fun fails s => apply_op (env.with_fails fails) op s := by
  intro fails s a s' h
  dsimp only at h
  rw [apply_op_eq, op_writes_with_fails] at h
  cases hw : op_writes env op s.store.quads s.store.bnode_doc_tag with
  | mk res tag =>
    rw [hw] at h
    cases res with
    | error e => cases h
    | ok ws =>
      obtain ⟨hle, hsame⟩ := replays_run_writes ws fails (s.with_tag tag) a s' h
      refine ⟨hle, ?_⟩
      intro fails' hno
      dsimp only
      rw [apply_op_eq, op_writes_with_fails, hw]
      exact hsame fails' hno

theorem replays_run_ops (env : Env ox ω) (hints : List AmcHint) (i : Nat)
    (ops : List (GraphUpdateOperation ω)) :
    Replays Session.calls fun fails s => run_ops (env.with_fails fails) hints i ops s := by
  induction ops generalizing i with
  | nil =>
    refine replays_const ?_
    intro s a s' h
    cases h
    rfl
  | cons op ops ih =>
    have hstep := (replays_apply_op env op).seq (ih (i + 1))
    have hgo : ∀ fails s, check_all (amc_source_check s.store.quads)
        (hints.filter fun h => h.op_index == i && i > 0) = .ok () →
        run_ops (env.with_fails fails) hints i (op :: ops) s =
          go_on (apply_op (env.with_fails fails) op s)
            (run_ops (env.with_fails fails) hints (i + 1) ops) := by
      intro fails s hcheck
      unfold run_ops go_on
      rw [hcheck]
      dsimp only
      rcases apply_op (env.with_fails fails) op s with ⟨res, s'⟩
      cases res <;> rfl
    intro fails s a s' h
    cases hcheck : check_all (amc_source_check s.store.quads)
        (hints.filter fun h => h.op_index == i && i > 0) with
    | error e =>
      dsimp only at h
      rw [run_ops, hcheck] at h
      cases h
    | ok u =>
      dsimp only at h
      rw [hgo fails s hcheck] at h
      obtain ⟨hle, hsame⟩ := hstep fails s a s' h
      refine ⟨hle, ?_⟩
      intro fails' hno
      dsimp only
      rw [hgo fails' s hcheck]
      exact hsame fails' hno

theorem replays_check_feed_id (fp : FeedPosition) :
    Replays Store.calls fun fails (st : Store ox) => check_feed_id fails st fp := by
  let found (triples : List (Term × Term × Term)) (_ : Faults) (st : Store ox) :
      Result Unit × Store ox :=
    match slot_of triples with
    | some slot =>
      if slot.id ≠ fp.id then (.error (.FeedIdMismatch slot.id fp.id), st) else (.ok (), st)
    | none => (.ok (), st)
  have hscan : Replays Store.calls fun fails (st : Store ox) =>
      st.scan_graph_quads fails (.NamedNode FEED_GRAPH) := replays_scan (.NamedNode FEED_GRAPH)
  have hone := hscan.bind (g := found) fun triples => by
    refine replays_const ?_
    intro st a st' h
    split at h
    · split at h
      · cases h
      · cases h
        rfl
    · cases h
      rfl
  refine hone.congr fun fails st => ?_
  unfold check_feed_id read_slot
  rcases st.scan_graph_quads fails (.NamedNode FEED_GRAPH) with ⟨res, st'⟩
  cases res with
  | error e => rfl
  | ok triples =>
    dsimp only [found]
    cases slot_of triples <;> rfl

/-- An operation is applied as it is, under all faults that spare the calls before it. -/
theorem applies_replay {env : Env ox ω} {fails : Faults} {hints : List AmcHint} {i : Nat}
    {ops : List (GraphUpdateOperation ω)} {s s' : Session ox} {op : GraphUpdateOperation ω}
    (h : Applies (env.with_fails fails) hints i ops s op s') :
    s.calls ≤ s'.calls ∧ ∀ fails' : Faults,
      (∀ n, s.calls ≤ n → n < s'.calls → fails' n = false) →
      Applies (env.with_fails fails') hints i ops s op s' := by
  induction h with
  | here hcheck => exact ⟨le_rfl, fun fails' _ => .here hcheck⟩
  | there hcheck hop hrest ih =>
    obtain ⟨hle₁, hsame₁⟩ := replays_apply_op env _ fails _ _ _ hop
    obtain ⟨hle₂, hsame₂⟩ := ih
    refine ⟨hle₁.trans hle₂, ?_⟩
    intro fails' hno
    refine .there hcheck (hsame₁ fails' fun n hge hlt => hno n hge (hlt.trans_le hle₂)) ?_
    exact hsame₂ fails' fun n hge hlt => hno n (hle₁.trans hge) hlt

theorem issues_replay {env : Env ox ω} {fails : Faults} {hints : List AmcHint} {i : Nat}
    {ops : List (GraphUpdateOperation ω)} {s s' : Session ox} {w : Write}
    (h : Issues (env.with_fails fails) hints i ops s w s') :
    s.calls ≤ s'.calls ∧ ∀ fails' : Faults,
      (∀ n, s.calls ≤ n → n < s'.calls → fails' n = false) →
      Issues (env.with_fails fails') hints i ops s w s' := by
  obtain ⟨op, s₁, before, after, tag, happ, hwrites, hbefore⟩ := h
  obtain ⟨hle₁, hsame₁⟩ := applies_replay happ
  obtain ⟨hle₂, hsame₂⟩ := replays_run_writes before fails _ _ _ hbefore
  refine ⟨hle₁.trans hle₂, ?_⟩
  intro fails' hno
  refine ⟨op, s₁, before, after, tag, ?_, hwrites, ?_⟩
  · exact hsame₁ fails' fun n hge hlt => hno n hge (hlt.trans_le hle₂)
  · exact hsame₂ fails' fun n hge hlt => hno n (hle₁.trans hge) hlt

theorem validate_ops_with_fails (env : Env ox ω) (fails : Faults) (i : Nat)
    (ops : List (GraphUpdateOperation ω)) (st : Store ox) :
    validate_ops (env.with_fails fails) i ops st = validate_ops env i ops st := by
  induction ops generalizing i st with
  | nil => rfl
  | cons op ops ih =>
    rw [validate_ops, validate_ops]
    have hone : validate_op (env.with_fails fails) op (i == 0) st =
        validate_op env op (i == 0) st := rfl
    rw [hone]
    simp only [ih]

end Replaying

theorem replays_preflight (env : Env ox ω) (u : ParsedUpdate ω) (feed : Option FeedPosition) :
    Replays Store.calls fun fails st => preflight (env.with_fails fails) u feed st := by
  have hrest : Replays Store.calls fun _ => check_operations env u := by
    refine replays_const ?_
    intro st a st' h
    unfold check_operations at h
    split at h
    · cases h
    · obtain ⟨tag, htag⟩ := validate_ops_store env 0 u.operations st
      rw [h] at htag
      dsimp only at htag
      rw [htag]
  cases feed with
  | none =>
    refine hrest.congr fun fails st => ?_
    unfold preflight check_operations
    dsimp only
    cases check_all (preflight_hint st.quads) (locate_amc_hints u.amc_hints u.operations) with
    | error e => rfl
    | ok _ => exact validate_ops_with_fails env fails 0 u.operations st
  | some fp =>
    refine ((replays_check_feed_id fp).seq hrest).congr fun fails st => ?_
    unfold preflight go_on
    simp only [validate_ops_with_fails, check_operations]
    dsimp only [Env.with_fails]
    rcases check_feed_id fails st fp with ⟨res, st'⟩
    cases res <;> rfl

/-- A write is issued as it is, under all faults that spare the calls before it. -/
theorem issued_replay {env : Env ox ω} {fails : Faults} {u : ParsedUpdate ω}
    {feed : Option FeedPosition} {st : Store ox} {w : Write} {s : Session ox}
    (h : Issued (env.with_fails fails) u feed st w s) {fails' : Faults}
    (hno : ∀ n, n < s.calls → fails' n = false) :
    Issued (env.with_fails fails') u feed st w s := by
  obtain ⟨st₁, hpre, hissues⟩ := h
  obtain ⟨hle₁, hsame₁⟩ := replays_preflight env u feed fails st () st₁ hpre
  obtain ⟨hle₂, hsame₂⟩ := issues_replay hissues
  refine ⟨st₁, ?_, ?_⟩
  · exact hsame₁ fails' fun n _ hlt => hno n (hlt.trans_le hle₂)
  · exact hsame₂ fails' fun n _ hlt => hno n hlt

end horndb.sparql
