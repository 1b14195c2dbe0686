-- Requests that fail, and the visible quads that they leave. The journal undoes the operations of
-- a request that has several; a request of one operation has none, and the slot comes after both.
import HornDb.UpdateJournal

open HornDb.Lib.UndoLog (Right Undone logs_nil)

namespace horndb.sparql

variable {ox : text.Library} {ω : Type}

/-- No sweep takes a reserved graph, or one that a blank node names. -/
def GraphId.swept : GraphId → Bool
  | .DefaultGraph => true
  | .NamedNode iri => !is_reserved_graph iri
  | .BlankNode _ => false

/-- The graphs that an operation sweeps. -/
def GraphUpdateOperation.sweeps : GraphUpdateOperation ω → GraphId → Bool
  | .Clear _ graph, g => graph.selects g && g.swept
  | .Drop _ graph, g => graph.selects g && g.swept
  | _, _ => false

section Operations

variable {env : Env ox ω} {hints : List AmcHint} {i : Nat} {ops : List (GraphUpdateOperation ω)}
  {s s' : Session ox} {op : GraphUpdateOperation ω} {w : Write} {start : List (StoredQuad ox)}

/-! ## The writes of an operation -/

variable {ws : List Write}

theorem clear_drop_sweeps {quads : List (StoredQuad ox)} {verb : String} {silent : Bool}
    {graph : GraphTarget} (h : clear_drop_writes verb silent graph quads = .ok ws) :
    ∃ gs : List GraphName, ws = gs.map .sweep ∧
      ∀ g ∈ gs, (graph.selects (resolve_graph g) && (resolve_graph g).swept) = true := by
  have hnamed : ∀ g ∈ swept_graphs quads, ∃ iri, g = some iri ∧ is_reserved_graph iri = false := by
    intro g hg
    obtain ⟨iri, hiri, rfl⟩ := List.mem_map.mp hg
    exact ⟨iri, rfl, by simpa using (List.mem_filter.mp hiri).2⟩
  unfold clear_drop_writes at h
  split at h
  · cases h
    exact ⟨[none], rfl, by simp [resolve_graph, GraphTarget.selects, GraphId.swept]⟩
  · cases h
    refine ⟨none :: swept_graphs quads, rfl, List.forall_mem_cons.mpr ⟨rfl, ?_⟩⟩
    intro g hg
    obtain ⟨iri, rfl, hiri⟩ := hnamed g hg
    simp [resolve_graph, GraphTarget.selects, GraphId.swept, hiri]
  · cases h
    refine ⟨swept_graphs quads, rfl, ?_⟩
    intro g hg
    obtain ⟨iri, rfl, hiri⟩ := hnamed g hg
    simp [resolve_graph, GraphTarget.selects, GraphId.swept, hiri]
  · rename_i iri
    cases hc : reserved_iri_write_check iri with
    | error e =>
      rw [hc] at h
      cases h
    | ok u =>
      have hiri := reserved_check_ok hc
      rw [hc] at h
      dsimp only at h
      split at h
      · cases h
        exact ⟨[some iri], rfl, by simp [resolve_graph, GraphTarget.selects, GraphId.swept, hiri]⟩
      · split at h
        · cases h
        · cases h
          exact ⟨[], rfl, by simp⟩

/-- An operation writes one batch, which records all that it changes, or sweeps some graphs. -/
theorem op_writes_cases {quads : List (StoredQuad ox)} {tag tag' : UInt64}
    (h : op_writes env op quads tag = (.ok ws, tag')) :
    (∃ touched dels adds, ws = [.batch touched dels adds] ∧ ∀ q ∈ dels ++ adds, q ∈ touched) ∨
      ∃ gs : List GraphName, ws = gs.map .sweep ∧
        ∀ g ∈ gs, op.sweeps (resolve_graph g) = true := by
  have hnone : ∃ gs : List GraphName, [] = gs.map Write.sweep ∧
      ∀ g ∈ gs, op.sweeps (resolve_graph g) = true := ⟨[], rfl, by simp⟩
  have hcomes := op_writes_ok h
  cases op with
  | InsertData data =>
    obtain ⟨adds, -, rfl⟩ := hcomes
    exact Or.inl ⟨_, _, _, rfl, by simp⟩
  | DeleteData data =>
    obtain ⟨dels, -, rfl⟩ := hcomes
    exact Or.inl ⟨_, _, _, rfl, by simp⟩
  | DeleteInsert delete insert dataset pattern =>
    obtain ⟨-, -, dels, adds, -, -, -, -, rfl⟩ := hcomes
    exact Or.inl ⟨_, _, _, rfl, by simp⟩
  | Clear silent graph => exact Or.inr (clear_drop_sweeps hcomes)
  | Drop silent graph => exact Or.inr (clear_drop_sweeps hcomes)
  | Create silent graph =>
    obtain rfl : ws = [] := hcomes
    exact Or.inr hnone
  | Load silent source destination =>
    obtain ⟨-, ⟨rfl, -⟩ | ⟨rows, -, -, rfl⟩⟩ := hcomes
    · exact Or.inr hnone
    · exact Or.inl ⟨_, _, _, rfl, by simp⟩

theorem op_writes_recorded {quads : List (StoredQuad ox)} {tag tag' : UInt64}
    (h : op_writes env op quads tag = (.ok ws, tag')) : ∀ w ∈ ws, w.Recorded := by
  rcases op_writes_cases h with ⟨touched, dels, adds, rfl, hall⟩ | ⟨gs, rfl, -⟩
  · intro w hw
    rw [List.mem_singleton.mp hw]
    exact hall
  · intro w hw
    obtain ⟨g, -, rfl⟩ := List.mem_map.mp hw
    exact trivial

/-! ## Terms that no operation writes -/

variable {r : Result Unit} {fails : Faults}

/-- A literal with a direction, or a triple term, was there before. -/
theorem run_write_odd {k : StoredQuad ox} (hk : k.plain = false) (h : w.run fails s = (r, s'))
    (hin : k ∈ s'.store.quads) : k ∈ s.store.quads := by
  have heffect : k ∈ w.effect s.store.quads → k ∈ s.store.quads := by
    intro hin
    cases w with
    | batch touched dels adds =>
      rcases mem_apply_batch.mp hin with hin | ⟨q, -, hq⟩
      · exact hin.1
      · rw [key_plain hq] at hk
        cases hk
    | sweep g => exact (mem_clear_quads.mp hin).1
  rw [write_run_eq] at h
  dsimp only at h
  split at h
  · cases h
    exact hin
  · split at h <;> cases h
    · exact hin
    · exact heffect hin

theorem run_writes_odd {k : StoredQuad ox} (hk : k.plain = false)
    (h : run_writes fails ws s = (r, s')) (hin : k ∈ s'.store.quads) : k ∈ s.store.quads := by
  induction ws generalizing s with
  | nil =>
    cases h
    exact hin
  | cons w ws ih =>
    rw [run_writes] at h
    cases hw : w.run fails s with
    | mk res s₁ =>
      rw [hw] at h
      cases res with
      | error e =>
        cases h
        exact run_write_odd hk hw hin
      | ok u => exact run_write_odd hk hw (ih h)

theorem applies_odd {k : StoredQuad ox} (hk : k.plain = false)
    (h : Applies env hints i ops s op s') (hin : k ∈ s'.store.quads) : k ∈ s.store.quads := by
  induction h with
  | here hcheck => exact hin
  | there hcheck hop hrest ih =>
    rw [apply_op_eq] at hop
    split at hop
    · cases hop
    · rename_i ws tag hw
      exact run_writes_odd (s := Session.with_tag _ tag) hk hop (ih hin)

/-- A sweep that is issued takes quads that were there before. -/
theorem issues_plain (h : Issues env hints i ops s w s')
    (hplain : ∀ op ∈ ops, ∀ k ∈ s.store.quads, op.sweeps k.g = true → k.plain = true) :
    w.Plain s'.store.quads := by
  obtain ⟨op, s₁, before, after, tag, happ, hwrites, hbefore⟩ := h
  cases w with
  | batch touched dels adds => exact trivial
  | sweep g =>
    intro k hk hsel
    rcases op_writes_cases hwrites with ⟨touched, dels, adds, heq, -⟩ | ⟨gs, heq, hgs⟩
    · have hmem : Write.sweep g ∈ [Write.batch touched dels adds] := by simp [← heq]
      cases List.mem_singleton.mp hmem
    · have hmem : Write.sweep g ∈ gs.map Write.sweep := by simp [← heq]
      have hg : g ∈ gs := by
        obtain ⟨g', hg', hinj⟩ := List.mem_map.mp hmem
        cases hinj
        exact hg'
      by_contra hodd
      rw [Bool.not_eq_true] at hodd
      have hstart : k ∈ s.store.quads :=
        applies_odd hodd happ (run_writes_odd (s := s₁.with_tag tag) hodd hbefore hk)
      have hsweeps := hgs g hg
      rw [← selects_target_of.mp hsel] at hsweeps
      rw [hplain op (applies_mem happ) k hstart hsweeps] at hodd
      cases hodd

/-! ## Writes in order -/

theorem run_writes_undoable (hws : ∀ w ∈ ws, w.Recorded)
    (hnew : ∀ before w after s', ws = before ++ w :: after →
      run_writes fails before s = (.ok (), s') → w.Plain s'.store.quads ∧ ¬ Respells start w s')
    (h : Undoable start s) : Undoable start (run_writes fails ws s).2 := by
  induction ws generalizing s with
  | nil => exact h
  | cons w ws ih =>
    rw [List.forall_mem_cons] at hws
    obtain ⟨hplain, hspelled⟩ := hnew [] w ws s rfl rfl
    have hone : Undoable start (w.run fails s).2 := write_undoable hws.1 hplain h hspelled
    rw [run_writes]
    cases hw : w.run fails s with
    | mk res s₁ =>
      rw [hw] at hone
      cases res with
      | error e => exact hone
      | ok u =>
        refine ih hws.2 ?_ hone
        intro before w' after s' heq hrun
        refine hnew (w :: before) w' after s' (by rw [heq]; rfl) ?_
        rw [run_writes, hw]
        exact hrun

/-- A run of writes that fails has failed at one of them. -/
theorem run_writes_error {e : SparqlError} (h : run_writes fails ws s = (.error e, s')) :
    ∃ before w after s₁, ws = before ++ w :: after ∧ run_writes fails before s = (.ok (), s₁) ∧
      w.run fails s₁ = (.error e, s') := by
  induction ws generalizing s with
  | nil => cases h
  | cons w ws ih =>
    rw [run_writes] at h
    cases hw : w.run fails s with
    | mk res s₁ =>
      rw [hw] at h
      cases res with
      | error e' => exact ⟨[], w, ws, s, rfl, rfl, hw.trans h⟩
      | ok u =>
        obtain ⟨before, w', after, s₂, rfl, hbefore, hrun⟩ := ih h
        refine ⟨w :: before, w', after, s₂, rfl, ?_, hrun⟩
        rw [run_writes, hw]
        exact hbefore

theorem run_writes_enabled (h : run_writes fails ws s = (r, s')) :
    s'.journal.enabled = s.journal.enabled := by
  induction ws generalizing s with
  | nil =>
    cases h
    rfl
  | cons w ws ih =>
    rw [run_writes] at h
    cases hw : w.run fails s with
    | mk res s₁ =>
      rw [hw] at h
      cases res with
      | error e =>
        cases h
        exact write_enabled hw
      | ok u => exact (ih h).trans (write_enabled hw)

theorem run_writes_disabled (hj : s.journal.enabled = false) (h : run_writes fails ws s = (r, s')) :
    s'.journal = s.journal := by
  induction ws generalizing s with
  | nil =>
    cases h
    rfl
  | cons w ws ih =>
    rw [run_writes] at h
    cases hw : w.run fails s with
    | mk res s₁ =>
      have hone := write_disabled hj hw
      rw [hw] at h
      cases res with
      | error e =>
        cases h
        exact hone
      | ok u => exact (ih (by rw [hone, hj]) h).trans hone

/-! ## Operations in order -/

theorem apply_op_enabled (h : apply_op env op s = (r, s')) :
    s'.journal.enabled = s.journal.enabled := by
  rw [apply_op_eq] at h
  split at h
  · cases h
    rfl
  · rename_i ws tag hw
    exact run_writes_enabled (s := s.with_tag tag) h

theorem apply_op_disabled (hj : s.journal.enabled = false) (h : apply_op env op s = (r, s')) :
    s'.journal = s.journal := by
  rw [apply_op_eq] at h
  split at h
  · cases h
    rfl
  · rename_i ws tag hw
    exact run_writes_disabled (s := s.with_tag tag) hj h

theorem applies_enabled (h : Applies env hints i ops s op s') :
    s'.journal.enabled = s.journal.enabled := by
  induction h with
  | here hcheck => rfl
  | there hcheck hop hrest ih => exact ih.trans (apply_op_enabled hop)

theorem applies_disabled (h : Applies env hints i ops s op s') (hj : s.journal.enabled = false) :
    s'.journal = s.journal := by
  induction h with
  | here hcheck => rfl
  | there hcheck hop hrest ih =>
    have hone := apply_op_disabled hj hop
    exact (ih (by rw [hone, hj])).trans hone

theorem issues_enabled (h : Issues env hints i ops s w s') :
    s'.journal.enabled = s.journal.enabled := by
  obtain ⟨op, s₁, before, after, tag, happ, -, hbefore⟩ := h
  have hone := applies_enabled happ
  exact (run_writes_enabled (s := s₁.with_tag tag) hbefore).trans hone

theorem issues_disabled (h : Issues env hints i ops s w s') (hj : s.journal.enabled = false) :
    s'.journal = s.journal := by
  obtain ⟨op, s₁, before, after, tag, happ, -, hbefore⟩ := h
  have hone := applies_disabled happ hj
  exact (run_writes_disabled (s := s₁.with_tag tag) (by rw [← hj, ← hone]; rfl) hbefore).trans hone

theorem apply_op_undoable
    (hnew : ∀ w s', Issues env hints i (op :: ops) s w s' →
      w.Plain s'.store.quads ∧ ¬ Respells start w s')
    (hcheck : check_all (amc_source_check s.store.quads)
      (hints.filter fun h => h.op_index == i && i > 0) = .ok ())
    (h : Undoable start s) : Undoable start (apply_op env op s).2 := by
  rw [apply_op_eq]
  cases hw : op_writes env op s.store.quads s.store.bnode_doc_tag with
  | mk res tag =>
    have htag : Undoable start (s.with_tag tag) := ⟨h.enabled, h.logs, h.right⟩
    cases res with
    | error e => exact htag
    | ok ws =>
      refine run_writes_undoable (op_writes_recorded hw) ?_ htag
      rintro before w after s' rfl hrun
      exact hnew w s' ⟨op, s, before, after, tag, .here hcheck, hw, hrun⟩

/-- The journal undoes the operations, as long as no write respells a quad, and none sweeps what
has no spelling. -/
theorem run_ops_undoable
    (hnew : ∀ w s', Issues env hints i ops s w s' →
      w.Plain s'.store.quads ∧ ¬ Respells start w s')
    (h : Undoable start s) : Undoable start (run_ops env hints i ops s).2 := by
  induction ops generalizing i s with
  | nil => exact h
  | cons op ops ih =>
    rw [run_ops]
    split
    · exact h
    · rename_i u hcheck
      have hone := apply_op_undoable hnew hcheck h
      cases hop : apply_op env op s with
      | mk res s₁ =>
        rw [hop] at hone
        cases res with
        | error e => exact hone
        | ok u =>
          refine ih ?_ hone
          rintro w s' ⟨op', s₂, before, after, tag, happ, hrest⟩
          exact hnew w s' ⟨op', s₂, before, after, tag, .there hcheck hop happ, hrest⟩

theorem run_ops_disabled (hj : s.journal.enabled = false)
    (h : run_ops env hints i ops s = (r, s')) : s'.journal = s.journal := by
  induction ops generalizing i s with
  | nil =>
    cases h
    rfl
  | cons op ops ih =>
    rw [run_ops] at h
    split at h
    · cases h
      rfl
    · cases hop : apply_op env op s with
      | mk res s₁ =>
        have hone := apply_op_disabled hj hop
        rw [hop] at h
        cases res with
        | error e =>
          cases h
          exact hone
        | ok u => exact (ih (by rw [hone, hj]) h).trans hone

/-- A single operation that fails leaves the visible quads of a write that it has issued, or of
the start. -/
theorem run_op_error {e : SparqlError} (h : run_ops env hints 0 [op] s = (.error e, s')) :
    s'.store.quads = s.store.quads ∨
      ∃ w s₁, Issues env hints 0 [op] s w s₁ ∧ s'.store.quads = s₁.store.quads := by
  have hcheck : check_all (amc_source_check s.store.quads)
      (hints.filter fun h => h.op_index == 0 && 0 > 0) = .ok () := by
    simp [check_all]
  rw [run_ops] at h
  rw [hcheck] at h
  dsimp only at h
  cases hop : apply_op env op s with
  | mk res s₁ =>
    rw [hop] at h
    cases res with
    | ok u => cases h
    | error e' =>
      cases h
      rw [apply_op_eq] at hop
      split at hop
      · cases hop
        exact Or.inl rfl
      · rename_i ws tag hw
        obtain ⟨before, w, after, s₂, rfl, hbefore, hrun⟩ := run_writes_error hop
        exact Or.inr ⟨w, s₂, ⟨op, s, before, after, tag, .here hcheck, hw, hbefore⟩,
          write_error_quads hrun⟩

end Operations

/-! ## Requests -/

variable [DecidableEq ω]

/-- Where the operations fail, the batch that rolls them back does not. -/
def RollsBack (env : Env ox ω) (u : ParsedUpdate ω) (feed : Option FeedPosition)
    (st : Store ox) : Prop :=
  ∀ st₁ e s, preflight env u feed st = (.ok (), st₁) → run_request env u st₁ = (.error e, s) →
    s.journal.before ≠ [] → env.fails s.store.calls = false

/-- Whatever calls fail, a request that fails leaves the visible quads. -/
def Atomic (env : Env ox ω) (u : ParsedUpdate ω) (feed : Option FeedPosition) (st : Store ox) :
    Prop :=
  ∀ fails e st', RollsBack (env.with_fails fails) u feed st →
    apply_update_with_feed (env.with_fails fails) u feed st = (.error e, st') →
    ∀ k, k ∈ st'.quads ↔ k ∈ st.quads

def calm : Faults := fun _ => false

/-- Where several operations run, they sweep no graph with a literal that has a direction, or with
a triple term. -/
def SweepsPlain (u : ParsedUpdate ω) (st : Store ox) : Prop :=
  1 < u.operations.length →
    ∀ op ∈ u.operations, ∀ k ∈ st.quads, op.sweeps k.g = true → k.plain = true

/-- What keeps a request atomic, as it runs without faults. -/
structure FailsCleanly (env : Env ox ω) (u : ParsedUpdate ω) (feed : Option FeedPosition)
    (st : Store ox) : Prop where
  /-- A single operation makes no call once the visible quads have changed. -/
  single : u.operations.length ≤ 1 → ∀ w s, Issued (env.with_fails calm) u feed st w s →
    ∀ k, k ∈ s.store.quads ↔ k ∈ st.quads
  /-- Several operations respell no quad. -/
  spelled : 1 < u.operations.length → ∀ w s, Issued (env.with_fails calm) u feed st w s →
    ¬ Respells st.quads w s
  /-- Operations that a slot follows leave the visible quads. -/
  slot : feed ≠ none → ∀ st₁ s, preflight (env.with_fails calm) u feed st = (.ok (), st₁) →
    run_request (env.with_fails calm) u st₁ = (.ok (), s) →
    ∀ k, k ∈ s.store.quads ↔ k ∈ st.quads

section Requests

variable {env : Env ox ω} {u : ParsedUpdate ω} {feed : Option FeedPosition} {st st' : Store ox}

/-- The faults of one call. -/
def only (n : Nat) : Faults := fun m => m == n

omit [DecidableEq ω] in
theorem only_before {n : Nat} : ∀ m, m < n → only n m = false := by
  intro m hm
  simp [only, hm.ne]

variable {s : Session ox}

theorem update_error {st₁ : Store ox} {e : SparqlError}
    (hpre : preflight env u feed st = (.ok (), st₁))
    (hrun : run_request env u st₁ = (.error e, s)) :
    apply_update_with_feed env u feed st = (.error e, s.journal.rollback env.fails s.store) := by
  unfold apply_update_with_feed
  rw [hpre]
  dsimp only
  rw [hrun]

/-- A write of the request that fails at its last call makes the request fail there. -/
theorem issued_fails {w : Write} (h : Issued (env.with_fails calm) u feed st w s) :
    ∃ st₁ e s', preflight (env.with_fails (only (s.calls + w.reads s.journal))) u feed st =
        (.ok (), st₁) ∧
      run_request (env.with_fails (only (s.calls + w.reads s.journal))) u st₁ = (.error e, s') ∧
      s'.store.quads = s.store.quads ∧
      s'.journal = w.noted s.store.quads s.journal ∧
      s'.store.calls = s.calls + w.reads s.journal + 1 := by
  have hno : ∀ n, n < s.calls → only (s.calls + w.reads s.journal) n = false :=
    fun n hn => only_before n (by omega)
  obtain ⟨st₁, hpre, hissues⟩ := issued_replay h hno
  have hrun := write_run_eq (only (s.calls + w.reads s.journal)) w s
  have hread : ¬ (w.reads s.journal = 1 ∧
      only (s.calls + w.reads s.journal) s.store.calls = true) := by
    rintro ⟨hone, hfail⟩
    rw [hone, only, beq_iff_eq] at hfail
    exact absurd hfail (Nat.ne_of_lt (Nat.lt_succ_self _))
  have hlast : only (s.calls + w.reads s.journal) (s.store.calls + w.reads s.journal) = true :=
    beq_self_eq_true _
  rw [if_neg hread] at hrun
  dsimp only at hrun
  rw [if_pos hlast] at hrun
  exact ⟨st₁, _, _, hpre, issues_error hissues hrun, rfl, rfl, rfl⟩

theorem only_succ (n : Nat) : only n (n + 1) = false := by
  simp [only]

/-- A request that fails in its single operation. -/
theorem atomic_single (h : Atomic env u feed st) (hlen : u.operations.length ≤ 1) {w : Write}
    (hw : Issued (env.with_fails calm) u feed st w s) (k : StoredQuad ox) :
    k ∈ s.store.quads ↔ k ∈ st.quads := by
  obtain ⟨st₁, e, s', hpre, hrun, hquads, hjournal, hcalls⟩ := issued_fails hw
  have hbefore : s'.journal.before = [] := by
    obtain ⟨st₂, -, hissues⟩ := hw
    have hj := issues_disabled hissues (by simp [Journal.new]; omega)
    rw [hjournal, noted_disabled (by rw [hj]; simp [Journal.new]; omega), hj]
    rfl
  rw [← h _ e _ ?_ (update_error hpre hrun) k]
  · unfold Journal.rollback
    rw [hbefore, List.isEmpty_nil, if_pos rfl, hquads]
  · intro st₂ e₂ s₂ hpre₂ hrun₂ hne
    rw [hpre] at hpre₂
    cases hpre₂
    rw [hrun] at hrun₂
    cases hrun₂
    exact absurd hbefore hne

theorem issued_plain (hplain : SweepsPlain u st) (hlen : 1 < u.operations.length) {w : Write}
    (h : Issued env u feed st w s) : w.Plain s.store.quads := by
  obtain ⟨st₁, hpre, hissues⟩ := h
  have hquads := preflight_quads env u feed st
  rw [hpre] at hquads
  refine issues_plain hissues ?_
  dsimp only at hquads ⊢
  rw [hquads]
  exact hplain hlen

/-- A request that fails where it respells a quad. -/
theorem atomic_spelled (hplain : SweepsPlain u st) (h : Atomic env u feed st)
    (hlen : 1 < u.operations.length) {w : Write} (hw : Issued (env.with_fails calm) u feed st w s) :
    ¬ Respells st.quads w s := by
  rintro ⟨q, hq, hno, k, hk, hin, hstart⟩
  obtain ⟨st₁, e, s', hpre, hrun, hquads, hjournal, hcalls⟩ := issued_fails hw
  have hen : s.journal.enabled = true := by
    obtain ⟨st₂, -, hissues⟩ := hw
    exact (issues_enabled hissues).trans (decide_eq_true hlen)
  have hrolls : RollsBack (env.with_fails (only (s.calls + w.reads s.journal))) u feed st := by
    intro st₂ e₂ s₂ hpre₂ hrun₂ _
    rw [hpre] at hpre₂
    cases hpre₂
    rw [hrun] at hrun₂
    cases hrun₂
    rw [hcalls]
    exact only_succ _
  refine hstart ((h _ e _ hrolls (update_error hpre hrun) k).mp ?_)
  rw [rollback_undone (hrolls st₁ e s' hpre hrun)]
  refine Or.inr ⟨(q, true), ?_, rfl, hk⟩
  rw [hjournal, noted_eq_record (issued_plain hplain hlen hw), mem_record_iff hen]
  exact Or.inr ⟨hq, hno, (quad_exists_iff.mpr ⟨k, hin, hk⟩).symm⟩

/-- A request that fails at its slot. -/
theorem atomic_slot (h : Atomic env u feed st) (hfeed : feed ≠ none) {st₁ : Store ox}
    (hpre : preflight (env.with_fails calm) u feed st = (.ok (), st₁))
    (hrun : run_request (env.with_fails calm) u st₁ = (.ok (), s)) (k : StoredQuad ox) :
    k ∈ s.store.quads ↔ k ∈ st.quads := by
  obtain ⟨fp, rfl⟩ := Option.ne_none_iff_exists'.mp hfeed
  obtain ⟨hle₁, hsame₁⟩ := replays_preflight env u (some fp) calm st () st₁ hpre
  obtain ⟨hle₂, hsame₂⟩ := replays_run_ops env _ 0 u.operations calm _ () s hrun
  have hpre' : preflight (env.with_fails (only s.calls)) u (some fp) st = (.ok (), st₁) :=
    hsame₁ (only s.calls) fun n _ hlt => only_before n (hlt.trans_le hle₂)
  have hrun' : run_request (env.with_fails (only s.calls)) u st₁ = (.ok (), s) :=
    hsame₂ (only s.calls) fun n _ hlt => only_before n hlt
  have hslot : advance_slot (only s.calls) env.now s.store fp =
      (.error (.Executor "scan_graph"), { s.store with calls := s.store.calls + 1 }) := by
    have hfail : only s.calls s.store.calls = true := beq_self_eq_true _
    unfold advance_slot read_slot
    dsimp only [Store.scan_graph_quads]
    rw [call_eq, if_pos hfail]
  refine (h (only s.calls) (.Executor "scan_graph") { s.store with calls := s.store.calls + 1 }
    ?_ ?_ k)
  · intro st₂ e₂ s₂ hpre₂ hrun₂ _
    rw [hpre'] at hpre₂
    cases hpre₂
    rw [hrun'] at hrun₂
    cases hrun₂
  · unfold apply_update_with_feed
    rw [hpre']
    dsimp only
    rw [hrun']
    exact hslot

omit [DecidableEq ω] in
theorem advance_slot_error {fails : Faults} {now : String} {fp : FeedPosition} {e : SparqlError}
    (h : advance_slot fails now st fp = (.error e, st')) : st'.quads = st.quads := by
  have hq := read_slot_quads fails st
  unfold advance_slot at h
  cases hread : read_slot fails st with
  | mk res st₁ =>
    rw [hread] at h hq
    cases res with
    | error e' =>
      cases h
      exact hq
    | ok old =>
      dsimp only [Store.apply_quads] at h
      rw [call_eq] at h
      split at h
      · cases h
        exact hq
      · cases h

/-- A request that meets the conditions, and fails. -/
theorem fails_cleanly_atomic (hplain : SweepsPlain u st) (h : FailsCleanly env u feed st) :
    Atomic env u feed st := by
  intro fails e st' hrolls hfail k
  have hquads := preflight_quads (env.with_fails fails) u feed st
  unfold apply_update_with_feed at hfail
  cases hpre : preflight (env.with_fails fails) u feed st with
  | mk res st₁ =>
    rw [hpre] at hfail hquads
    dsimp only at hquads
    have hissued : ∀ {w s}, Issues (env.with_fails fails)
        (locate_amc_hints u.amc_hints u.operations) 0 u.operations
        ⟨st₁, .new (decide (u.operations.length > 1))⟩ w s → res = .ok () →
        Issued (env.with_fails calm) u feed st w s := by
      rintro w s hissues rfl
      exact issued_replay ⟨st₁, hpre, hissues⟩ fun _ _ => rfl
    cases res with
    | error e' =>
      cases hfail
      rw [hquads]
    | ok un =>
      dsimp only at hfail
      cases hrun : run_request (env.with_fails fails) u st₁ with
      | mk res s =>
        rw [hrun] at hfail
        cases res with
        | error e' =>
          cases hfail
          by_cases hlen : 1 < u.operations.length
          · have hstart : Undoable st.quads
                (⟨st₁, .new (decide (u.operations.length > 1))⟩ : Session ox) := by
              refine ⟨decide_eq_true hlen, ?_, ?_⟩
              · dsimp only
                rw [hquads]
                exact logs_nil
              · intro e he
                cases he
            have hall : Undoable st.quads (run_request (env.with_fails fails) u st₁).2 :=
              run_ops_undoable (fun w s' hissues => ⟨issued_plain hplain hlen (hissued hissues rfl),
                h.spelled hlen w s' (hissued hissues rfl)⟩) hstart
            rw [hrun] at hall
            rw [← (hall.logs.undone_iff.mpr hall.right) k]
            exact rollback_undone (hrolls st₁ e s hpre hrun)
          · have hshort : u.operations.length ≤ 1 := Nat.le_of_not_lt hlen
            have hj : s.journal.before = [] := by
              have hdis := run_ops_disabled (s := ⟨st₁, .new (decide (u.operations.length > 1))⟩)
                (by simp [Journal.new]; omega) hrun
              rw [hdis]
              rfl
            have hback : (s.journal.rollback (env.with_fails fails).fails s.store).quads =
                s.store.quads := by
              unfold Journal.rollback
              rw [hj, List.isEmpty_nil, if_pos rfl]
            rw [hback]
            match hops : u.operations with
            | [] =>
              rw [run_request, hops] at hrun
              cases hrun
            | [op] =>
              rw [run_request, hops] at hrun
              rcases run_op_error hrun with heq | ⟨w, s₁, hissues, heq⟩
              · rw [heq, hquads]
              · rw [heq]
                refine h.single hshort w s₁ (hissued ?_ rfl) k
                rw [hops]
                exact hissues
            | _ :: _ :: _ =>
              rw [hops] at hshort
              simp at hshort
        | ok un =>
          cases feed with
          | none => cases hfail
          | some fp =>
            dsimp only at hfail
            have hcalm := (replays_preflight env u (some fp) fails st () st₁ hpre).2 calm
              fun _ _ _ => rfl
            have hcalm' := (replays_run_ops env _ 0 u.operations fails _ () s hrun).2 calm
              fun _ _ _ => rfl
            rw [← h.slot (Option.some_ne_none fp) st₁ s hcalm hcalm' k, advance_slot_error hfail]

end Requests

/-! ## CLEAR of two graphs, and CLEAR ALL alone -/

def quad_of_default : StoredQuad text.ascii :=
  ⟨.DefaultGraph, .NamedNode "http://a", .NamedNode "http://b", .NamedNode "http://c"⟩

def quad_of_named : StoredQuad text.ascii := { quad_of_default with g := .NamedNode "http://g" }

def quad_of_triple : StoredQuad text.ascii :=
  { quad_of_default with
    g := .NamedNode "http://t"
    o := .Triple "<<( <http://a> <http://b> <http://c> )>>" }

def clear_twice : ParsedUpdate Unit :=
  ⟨[.Clear false .DefaultGraph, .Clear false (.NamedNode "http://g")], []⟩

def clear_request : ParsedUpdate Unit := ⟨[.Clear false .AllGraphs], []⟩

end horndb.sparql
