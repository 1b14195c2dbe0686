-- Requests against the reference semantics: every operation that is applied leaves what the
-- reference says, if and only if each finds its blank nodes new and its graphs named by IRIs.
import HornDb.UpdateMeaning

namespace horndb.sparql

variable {ox : text.Library} {ω : Type}

section Operations

variable {env : Env ox ω} {op : GraphUpdateOperation ω} {s s' : Session ox}

/-- What a sweep of a target leaves, against the reference. -/
theorem cleared_iff {verb : String} {silent : Bool} {graph : GraphTarget} {ws : List Write}
    {fails : Faults} (hw : clear_drop_writes verb silent graph s.store.quads = .ok ws)
    (h : run_writes fails ws s = (.ok (), s')) :
    Cleared s.store.quads s'.store.quads graph ↔
      (graph = .NamedGraphs ∨ graph = .AllGraphs →
        ∀ k ∈ s.store.quads, ∀ b, k.g ≠ .BlankNode b) := by
  cases graph with
  | DefaultGraph =>
    cases hw
    refine iff_of_true ?_ (by simp)
    intro k
    rw [sweeps_ok_quads [none] h, List.forall_mem_singleton]
    cases hg : k.g <;> simp [resolve_graph, GraphTarget.selects, GraphId.Reserved]
  | NamedNode iri =>
    refine iff_of_true ?_ (by simp)
    rw [clear_drop_writes] at hw
    cases hc : reserved_iri_write_check iri with
    | error e =>
      rw [hc] at hw
      cases hw
    | ok u =>
      have hres := reserved_check_ok hc
      have hsel : ∀ k : StoredQuad ox,
          (GraphTarget.selects (.NamedNode iri) k.g = true ∧ ¬ k.g.Reserved) ↔
            k.g = .NamedNode iri := by
        intro k
        cases hg : k.g with
        | NamedNode n =>
          simp only [GraphTarget.selects, beq_iff_eq, GraphId.NamedNode.injEq, GraphId.Reserved]
          refine and_iff_left_iff_imp.mpr ?_
          rintro rfl
          simp [hres]
        | DefaultGraph => simp [GraphTarget.selects]
        | BlankNode b => simp [GraphTarget.selects]
      rw [hc] at hw
      dsimp only at hw
      intro k
      rw [hsel]
      split at hw
      · cases hw
        rw [sweeps_ok_quads [some iri] h, List.forall_mem_singleton]
        rfl
      · rename_i hno
        split at hw
        · cases hw
        · cases hw
          cases h
          refine ⟨fun hk => ⟨hk, fun hg => hno ?_⟩, And.left⟩
          exact graph_exists_iff.mpr ⟨k, hk, hg⟩
  | NamedGraphs =>
    cases hw
    have hin : ∀ k, k ∈ s'.store.quads ↔ k ∈ s.store.quads ∧
        (k.g = .DefaultGraph ∨ k.g.Reserved ∨ ∃ b, k.g = .BlankNode b) := by
      intro k
      rw [sweeps_ok_quads _ h]
      exact and_congr_right fun hk => mem_swept_graphs hk
    unfold Cleared
    simp only [hin]
    constructor
    · intro hall _ k hk b hb
      have hk' := (hall k).mp ⟨hk, Or.inr (Or.inr ⟨b, hb⟩)⟩
      rw [hb] at hk'
      exact hk'.2 ⟨rfl, id⟩
    · intro hno k
      refine and_congr_right fun hk => ?_
      have hb := hno (Or.inl trivial) k hk
      cases hg : k.g with
      | DefaultGraph => simp [GraphTarget.selects]
      | BlankNode b => exact absurd hg (hb b)
      | NamedNode n => simp [GraphTarget.selects]
  | AllGraphs =>
    cases hw
    have hin : ∀ k, k ∈ s'.store.quads ↔ k ∈ s.store.quads ∧
        (k.g.Reserved ∨ ∃ b, k.g = .BlankNode b) := by
      intro k
      rw [sweeps_ok_quads (none :: swept_graphs s.store.quads) h, List.forall_mem_cons]
      refine and_congr_right fun hk => ?_
      rw [mem_swept_graphs hk]
      cases hg : k.g <;> simp [resolve_graph, GraphId.Reserved]
    unfold Cleared
    simp only [hin]
    constructor
    · intro hall _ k hk b hb
      have hk' := (hall k).mp ⟨hk, Or.inr ⟨b, hb⟩⟩
      rw [hb] at hk'
      exact hk'.2 ⟨rfl, id⟩
    · intro hno k
      refine and_congr_right fun hk => ?_
      have hb := hno (Or.inr trivial) k hk
      cases hg : k.g with
      | DefaultGraph => simp [GraphTarget.selects, GraphId.Reserved]
      | BlankNode b => exact absurd hg (hb b)
      | NamedNode n => simp [GraphTarget.selects]

/-- An operation that succeeds, and writes plain terms, leaves what the reference says, if and only
if it finds its blank nodes new and its graphs named by IRIs. -/
theorem leaves_iff (hplain : WritesPlain env s op) (h : apply_op env op s = (.ok (), s')) :
    Leaves env s.store.quads s'.store.quads op ↔ Meets env s op := by
  rw [apply_op_eq] at h
  cases hw : op_writes env op s.store.quads s.store.bnode_doc_tag with
  | mk res tag =>
    rw [hw] at h
    cases res with
    | error e => cases h
    | ok ws =>
      dsimp only at h
      have hcomes := op_writes_ok hw
      cases op with
      | InsertData data =>
        obtain ⟨adds, hm, rfl⟩ := hcomes
        refine (replaced_iff own_name fun k => ?_).trans (own_fresh_iff hplain hm)
        rw [batch_ok_quads h, data_keys hplain hm]
        simp [Deleted, Session.with_tag]
      | DeleteData data =>
        obtain ⟨dels, hm, rfl⟩ := hcomes
        refine (replaced_iff own_name fun k => ?_).trans (iff_of_true ⟨?_, ?_⟩ trivial)
        · rw [batch_ok_quads h, ground_keys hplain hm]
          simp [Inserted, Session.with_tag]
        · rintro ix b ⟨row, q, -, hq, -⟩
          cases hq
        · rintro ix b ix' b' ⟨row, q, -, hq, -⟩
          cases hq
      | DeleteInsert delete insert dataset pattern =>
        obtain ⟨plan, rows, dels, adds, hplan, hrows, hdel, hadd, rfl⟩ := hcomes
        have hres : Replaced s.store.quads s'.store.quads rows delete insert ↔
            ∀ ix b, Used ox rows insert ix b →
              ¬ Known s.store.quads rows (template_name s.store.bnode_doc_tag ix b) := by
          refine (replaced_iff _ fun k => ?_).trans template_fresh_iff
          have hrow := hplain plan rows hplan hrows
          rw [batch_ok_quads h, delete_quads_keys (fun row hin => (hrow row hin).1) hdel,
            insert_quads_keys (fun row hin => (hrow row hin).2) hadd]
          rfl
        constructor
        · rintro ⟨plan', rows', hplan', hrows', hrep⟩ plan₂ rows₂ hplan₂ hrows₂
          rw [hplan] at hplan' hplan₂
          cases hplan'
          cases hplan₂
          rw [hrows] at hrows' hrows₂
          cases hrows'
          cases hrows₂
          exact hres.mp hrep
        · intro hmeets
          exact ⟨plan, rows, hplan, hrows, hres.mpr (hmeets plan rows hplan hrows)⟩
      | Clear silent graph => exact cleared_iff (s := s.with_tag tag) hcomes h
      | Drop silent graph => exact cleared_iff (s := s.with_tag tag) hcomes h
      | Create silent graph =>
        obtain rfl : ws = [] := hcomes
        cases h
        exact iff_of_true (fun k => Iff.rfl) trivial
      | Load silent source destination =>
        refine iff_of_true ⟨s.store.bnode_doc_tag, ?_⟩ trivial
        obtain ⟨-, ⟨rfl, hread⟩ | ⟨rows, hrows, hread, rfl⟩⟩ := hcomes
        · cases h
          rcases hread with ⟨e, he⟩ | ⟨hdest, hformat⟩
          · rw [he]
            exact fun k => Iff.rfl
          · rw [hformat]
            split
            · exact absurd rfl hdest
            · rename_i heq
              cases heq
            · exact fun k => Iff.rfl
        · have hadds : ∀ k, k ∈ s'.store.quads ↔ k ∈ s.store.quads ∨
              ∃ q ∈ route destination rows, q.meant = some k := by
            intro k
            have hkeys : (∃ q ∈ route destination rows, q.meant = some k) ↔
                ∃ q ∈ route destination rows, q.key = some k :=
              exists_congr fun q => and_congr_right fun hq => by
                rw [(hplain rows hrows q hq).meant_eq]
            rw [batch_ok_quads h, hkeys]
            simp [Session.with_tag]
          rw [hrows]
          cases destination with
          | none => exact hadds
          | some dest =>
            rw [hread.resolve_left nofun]
            exact hadds

/-- Operations that succeed, each leaving what the reference says. -/
theorem run_ops_reference {hints : List AmcHint} {i : Nat} {ops : List (GraphUpdateOperation ω)}
    (hsteps : ∀ op s₁ s₂, Applies env hints i ops s op s₁ → apply_op env op s₁ = (.ok (), s₂) →
      Leaves env s₁.store.quads s₂.store.quads op)
    (h : run_ops env hints i ops s = (.ok (), s')) :
    Reference env ops s.store.quads s'.store.quads := by
  induction ops generalizing i s with
  | nil =>
    cases h
    exact .done
  | cons op ops ih =>
    rw [run_ops] at h
    split at h
    · cases h
    · rename_i u hcheck
      cases hop : apply_op env op s with
      | mk res s₁ =>
        rw [hop] at h
        cases res with
        | error e => cases h
        | ok u =>
          refine .step (hsteps op s s₁ (.here hcheck) hop) (ih ?_ h)
          intro op' s₂ s₃ happ hop'
          exact hsteps op' s₂ s₃ (.there hcheck hop happ) hop'

end Operations

/-! ## Requests -/

variable [DecidableEq ω]

/-- Every operation that succeeds leaves what the reference says, and so does a request. -/
structure Follows (env : Env ox ω) (u : ParsedUpdate ω) (st : Store ox) : Prop where
  steps : ∀ op s s', Applied env u none st op s → apply_op env op s = (.ok (), s') →
    Leaves env s.store.quads s'.store.quads op
  ends : ∀ st', apply_update env u st = (.ok (), st') →
    Reference env u.operations st.quads st'.quads

/-- A store with one quad in a graph that a blank node names, as a bulk load of N-Quads leaves. -/
def blank_graph_store : Store text.ascii :=
  ⟨[⟨.BlankNode "hdb0_g", .NamedNode "http://a", .NamedNode "http://b", .NamedNode "http://c"⟩],
    1, 0⟩

def data_request : ParsedUpdate Unit :=
  ⟨[.InsertData [⟨.NamedNode "http://a", "http://b", .Literal "\"c\"@en", none⟩],
    .Drop false .NamedGraphs], []⟩

def drop_request : ParsedUpdate Unit := ⟨[.Drop false .AllGraphs], []⟩

end horndb.sparql
