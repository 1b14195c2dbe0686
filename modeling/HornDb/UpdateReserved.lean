-- The reserved graphs under SPARQL Update. Every form of a write checks the graph that it names,
-- but a LOAD without INTO takes the graphs of its document as they are.
import HornDb.UpdateWrites

namespace horndb.sparql

variable {ox : text.Library} {ω : Type}

/-! ## Writes that spare some graphs -/

def Write.Spares (P : GraphId → Prop) : Write → Prop
  | .batch _ dels adds => ∀ q ∈ dels ++ adds, ¬ P (resolve_graph q.g)
  | .sweep g => ¬ P (resolve_graph g)

/-- The graphs hold what they held, and the journal has read them so. -/
structure Spared (P : GraphId → Prop) (quads : List (StoredQuad ox)) (s : Session ox) : Prop where
  same : ∀ k, P k.g → (k ∈ s.store.quads ↔ k ∈ quads)
  journal : ∀ e ∈ s.journal.before, P (resolve_graph e.1.g) → e.2 = quad_exists quads e.1

section Sparing

variable {P : GraphId → Prop} {quads : List (StoredQuad ox)} {s : Session ox} {fails : Faults}

variable {q : AlgebraQuad} {e : AlgebraQuad × Bool}

theorem mem_note {before : List (AlgebraQuad × Bool)} {live : Bool}
    (h : e ∈ Journal.note before q live) : e ∈ before ∨ e = (q, live) := by
  unfold Journal.note at h
  split at h
  · exact Or.inl h
  · simpa using h

theorem mem_foldl_note {α : Type} {f : α → AlgebraQuad} {g : α → Bool} {l : List α}
    {before : List (AlgebraQuad × Bool)}
    (h : e ∈ l.foldl (fun before a => Journal.note before (f a) (g a)) before) :
    e ∈ before ∨ ∃ a ∈ l, e = (f a, g a) := by
  induction l generalizing before with
  | nil => exact Or.inl h
  | cons a l ih =>
    rcases ih h with h | ⟨b, hb, rfl⟩
    · rcases mem_note h with h | rfl
      · exact Or.inl h
      · exact Or.inr ⟨a, List.mem_cons_self, rfl⟩
    · exact Or.inr ⟨b, List.mem_cons_of_mem a hb, rfl⟩

theorem mem_record {j : Journal} {qs : List AlgebraQuad} (h : e ∈ (j.record quads qs).before) :
    e ∈ j.before ∨ e.1 ∈ qs ∧ e.2 = quad_exists quads e.1 := by
  unfold Journal.record at h
  split at h
  · rcases mem_foldl_note h with h | ⟨q, hq, rfl⟩
    · exact Or.inl h
    · exact Or.inr ⟨hq, rfl⟩
  · exact Or.inl h

theorem record_cleared_journal {j j' : Journal} {st st' : Store ox} {g : GraphName}
    (h : j.record_cleared fails st g = (.ok j', st')) (he : e ∈ j'.before) :
    e ∈ j.before ∨ e.1.g = g := by
  unfold Journal.record_cleared at h
  split at h
  · cases h
    exact Or.inl he
  · cases hscan : st.scan_graph_quads fails (Journal.target_of g) with
    | mk res st₁ =>
      rw [hscan] at h
      cases res with
      | error e => cases h
      | ok triples =>
        cases h
        rcases mem_foldl_note he with he | ⟨t, -, rfl⟩
        · exact Or.inl he
        · exact Or.inr rfl

/-- What a call leaves is what it should, or what was there. -/
theorem call_quads (fails : Faults) (st : Store ox) (msg : String) (qs : List (StoredQuad ox)) :
    (st.call fails msg qs).2.quads = qs ∨ (st.call fails msg qs).2.quads = st.quads := by
  rw [call_eq]
  split
  · exact Or.inr rfl
  · exact Or.inl rfl

variable {k : StoredQuad ox}

/-- A batch leaves the quads that it does not name. -/
theorem mem_apply_batch_of_ne {dels adds : List AlgebraQuad} {qs : List (StoredQuad ox)}
    (h : ∀ q ∈ dels ++ adds, q.key ≠ some k) : k ∈ apply_batch qs dels adds ↔ k ∈ qs := by
  rw [mem_apply_batch]
  constructor
  · rintro (⟨hin, -⟩ | ⟨q, hq, hkey⟩)
    · exact hin
    · exact absurd hkey (h q (List.mem_append_right _ hq))
  · intro hin
    exact Or.inl ⟨hin, fun q hq => h q (List.mem_append_left _ hq)⟩

theorem batch_spares {dels adds : List AlgebraQuad} {qs : List (StoredQuad ox)}
    (h : ∀ q ∈ dels ++ adds, ¬ P (resolve_graph q.g)) (hk : P k.g) :
    k ∈ apply_batch qs dels adds ↔ k ∈ qs := by
  refine mem_apply_batch_of_ne fun q hq hkey => h q hq ?_
  rwa [← key_graph hkey]

theorem quad_exists_congr {as bs : List (StoredQuad ox)} (h : ∀ k, P k.g → (k ∈ as ↔ k ∈ bs))
    (hq : P (resolve_graph q.g)) : quad_exists as q = quad_exists bs q := by
  rw [Bool.eq_iff_iff, quad_exists_iff, quad_exists_iff]
  have hk : ∀ k : StoredQuad ox, q.key = some k → P k.g := by
    intro k hkey
    rwa [key_graph hkey]
  constructor
  · rintro ⟨k, hin, hkey⟩
    exact ⟨k, (h k (hk k hkey)).mp hin, hkey⟩
  · rintro ⟨k, hin, hkey⟩
    exact ⟨k, (h k (hk k hkey)).mpr hin, hkey⟩

theorem selects_target_of {g : GraphName} {i : GraphId} :
    (Journal.target_of g).selects i = true ↔ i = resolve_graph g := by
  cases g <;> simp [Journal.target_of, GraphTarget.selects, resolve_graph]

theorem clear_spares {g : GraphName} {qs : List (StoredQuad ox)} (h : ¬ P (resolve_graph g))
    (hk : P k.g) : k ∈ clear_quads qs (Journal.target_of g) ↔ k ∈ qs := by
  rw [mem_clear_quads, and_iff_left_iff_imp]
  intro _
  rw [← Bool.not_eq_true, selects_target_of]
  rintro heq
  rw [heq] at hk
  exact h hk

theorem sweep_spared {g : GraphName} (hg : ¬ P (resolve_graph g)) (hs : Spared P quads s) :
    Spared P quads (s.sweep fails g).2 := by
  unfold Session.sweep
  have hq := record_cleared_quads fails s.journal s.store g
  cases hrec : s.journal.record_cleared fails s.store g with
  | mk res st =>
    rw [hrec] at hq
    cases res with
    | error e => exact ⟨fun k hk => by rw [← hs.same k hk, ← hq], hs.journal⟩
    | ok j =>
      refine ⟨?_, ?_⟩
      · intro k hk
        rw [← hs.same k hk, ← hq]
        rcases call_quads fails st "clear_graph" (clear_quads st.quads (Journal.target_of g))
          with h | h
        · exact (iff_of_eq (congrArg (k ∈ ·) h)).trans (clear_spares hg hk)
        · exact iff_of_eq (congrArg (k ∈ ·) h)
      · intro e he hP
        rcases record_cleared_journal hrec he with h | h
        · exact hs.journal e h hP
        · rw [h] at hP
          exact absurd hP hg

/-- A batch that fails may name any graph. -/
theorem write_spared {touched dels adds : List AlgebraQuad}
    (hw : (Write.batch touched dels adds).Spares P ∨ fails s.store.calls = true)
    (hs : Spared P quads s) : Spared P quads (s.write fails touched dels adds).2 := by
  refine ⟨?_, ?_⟩
  · intro k hk
    rw [← hs.same k hk]
    rcases hw with hw | hfail
    · rcases call_quads fails s.store "storage apply_quads" (apply_batch s.store.quads dels adds)
        with h | h
      · exact (iff_of_eq (congrArg (k ∈ ·) h)).trans (batch_spares hw hk)
      · exact iff_of_eq (congrArg (k ∈ ·) h)
    · unfold Session.write Store.apply_quads
      rw [call_eq, if_pos hfail]
  · intro e he hP
    rcases mem_record he with h | ⟨-, h⟩
    · exact hs.journal e h hP
    · rw [h]
      exact quad_exists_congr hs.same hP

theorem run_writes_spared {ws : List Write} (hws : ∀ w ∈ ws, w.Spares P)
    (hs : Spared P quads s) : Spared P quads (run_writes fails ws s).2 := by
  induction ws generalizing s with
  | nil => exact hs
  | cons w ws ih =>
    rw [List.forall_mem_cons] at hws
    have hone : Spared P quads (w.run fails s).2 := by
      cases w with
      | batch touched dels adds => exact write_spared (Or.inl hws.1) hs
      | sweep g => exact sweep_spared hws.1 hs
    rw [run_writes]
    revert hone
    rcases w.run fails s with ⟨res, s'⟩
    intro hone
    cases res with
    | error e => exact hone
    | ok u => exact ih hws.2 hone

theorem mem_dels {j : Journal} : q ∈ j.dels ↔ (q, false) ∈ j.before := by
  simp [Journal.dels]

theorem mem_adds {j : Journal} : q ∈ j.adds ↔ (q, true) ∈ j.before := by
  simp [Journal.adds]

/-- What the journal has read right, its batch restores right. -/
theorem rollback_spared (hs : Spared P quads s) (hk : P k.g) :
    k ∈ (s.journal.rollback fails s.store).quads ↔ k ∈ quads := by
  have hread : ∀ q live, (q, live) ∈ s.journal.before → q.key = some k → live = true → k ∈ quads := by
    intro q live hmem hkey hlive
    have heq := hs.journal (q, live) hmem (by rwa [← key_graph hkey])
    rw [hlive] at heq
    obtain ⟨k', hin, hkey'⟩ := quad_exists_iff.mp heq.symm
    rw [hkey] at hkey'
    rwa [Option.some.inj hkey']
  unfold Journal.rollback
  split
  · exact hs.same k hk
  · rcases call_quads fails s.store "storage apply_quads"
      (apply_batch s.store.quads s.journal.dels s.journal.adds) with h | h
    · refine (iff_of_eq (congrArg (k ∈ ·) h)).trans ?_
      rw [mem_apply_batch, hs.same k hk]
      constructor
      · rintro (⟨hin, -⟩ | ⟨q, hq, hkey⟩)
        · exact hin
        · exact hread q true (mem_adds.mp hq) hkey rfl
      · intro hin
        refine Or.inl ⟨hin, fun q hq hkey => ?_⟩
        have heq := hs.journal (q, false) (mem_dels.mp hq) (by rwa [← key_graph hkey])
        exact Bool.false_ne_true (heq.trans (quad_exists_iff.mpr ⟨k, hin, hkey⟩))
    · exact (iff_of_eq (congrArg (k ∈ ·) h)).trans (hs.same k hk)

end Sparing

/-! ## The graphs that an operation names -/

def template_iri : GraphNamePattern → Option String
  | .NamedNode iri => some iri
  | _ => none

/-- The IRIs of the graphs that the text of an operation names for writing. -/
def GraphUpdateOperation.names : GraphUpdateOperation ω → List String
  | .InsertData data => data.filterMap (·.graph_name)
  | .DeleteData data => data.filterMap (·.graph_name)
  | .DeleteInsert delete insert _ _ =>
    delete.filterMap (fun q => template_iri q.graph_name) ++
      insert.filterMap fun q => template_iri q.graph_name
  | .Clear _ (.NamedNode iri) => [iri]
  | .Drop _ (.NamedNode iri) => [iri]
  | .Clear _ _ => []
  | .Drop _ _ => []
  | .Create _ iri => [iri]
  | .Load _ _ destination => destination.toList

/-- The document that a LOAD without INTO reads under the tag names no reserved graph. -/
def LoadSpares (docs : Documents) (tag : UInt64) : GraphUpdateOperation ω → Prop
  | .Load _ source none => ∀ quads, fetch_and_parse docs tag source = .ok quads →
    ∀ q ∈ quads, ¬ (resolve_graph q.g).Reserved
  | _ => True

theorem reserved_check_ok {iri : String} (h : reserved_iri_write_check iri = .ok ()) :
    is_reserved_graph iri = false := by
  unfold reserved_iri_write_check at h
  split at h
  · cases h
  · rename_i hno
    exact Bool.eq_false_iff.mpr hno

theorem not_reserved_name {g : GraphName} (h : reserved_write_check g = .ok ()) :
    ¬ (resolve_graph g).Reserved := by
  cases g with
  | none => exact id
  | some iri => simp [resolve_graph, GraphId.Reserved, reserved_check_ok h]

theorem check_all_ok {α : Type} {f : α → Result Unit} {l : List α} (h : check_all f l = .ok ()) :
    ∀ a ∈ l, f a = .ok () := by
  induction l with
  | nil => simp
  | cons a l ih =>
    rw [check_all] at h
    cases ha : f a with
    | error e => simp [ha, bind, Except.bind] at h
    | ok u =>
      rw [ha] at h
      rw [List.forall_mem_cons]
      exact ⟨ha, ih h⟩

theorem validate_delete_insert_checks {query : QueryPath ox ω} {delete : List GroundQuadPattern}
    {insert : List QuadPattern} {pattern : GraphPattern ω} {plan : query.Plan}
    (h : validate_delete_insert query delete insert pattern = .ok plan) :
    (∀ q ∈ delete, reserved_template_check q.graph_name = .ok ()) ∧
      ∀ q ∈ insert, reserved_template_check q.graph_name = .ok () := by
  obtain ⟨hdelete, hinsert, -⟩ := validate_delete_insert_ok h
  exact ⟨check_all_ok hdelete, check_all_ok hinsert⟩

theorem mapM_ok {α β : Type} {f : α → Result β} {l : List α} {bs : List β}
    (h : l.mapM f = .ok bs) :
    (∀ b ∈ bs, ∃ a ∈ l, f a = .ok b) ∧ ∀ a ∈ l, ∃ b ∈ bs, f a = .ok b := by
  induction l generalizing bs with
  | nil =>
    rw [List.mapM_nil] at h
    cases h
    simp
  | cons a l ih =>
    rw [List.mapM_cons] at h
    cases ha : f a with
    | error e => simp [ha, bind, Except.bind] at h
    | ok b =>
      cases hl : l.mapM f with
      | error e => simp [ha, hl, bind, Except.bind] at h
      | ok bs' =>
        rw [ha, hl] at h
        cases h
        obtain ⟨hback, hall⟩ := ih hl
        rw [List.forall_mem_cons, List.forall_mem_cons]
        refine ⟨⟨⟨a, List.mem_cons_self, ha⟩, ?_⟩, ⟨b, List.mem_cons_self, ha⟩, ?_⟩
        · exact fun b' hb' => (hback b' hb').imp fun _ h => ⟨List.mem_cons_of_mem a h.1, h.2⟩
        · exact fun a' ha' => (hall a' ha').imp fun _ h => ⟨List.mem_cons_of_mem b h.1, h.2⟩

/-- Where no instance is an error, the quads are those of the instances. -/
theorem mem_collect {α : Type} {l : List (Result (Option α))} {as : List α}
    (h : collect l = .ok as) :
    (∀ a, a ∈ as ↔ .ok (some a) ∈ l) ∧ ∀ r ∈ l, ∃ o, r = .ok o := by
  induction l generalizing as with
  | nil =>
    cases h
    simp
  | cons r l ih =>
    rw [collect] at h
    cases r with
    | error e => cases h
    | ok o =>
      cases hl : collect l with
      | error e => simp [hl, bind, Except.bind] at h
      | ok as' =>
        rw [hl] at h
        cases h
        obtain ⟨hmem, hok⟩ := ih hl
        refine ⟨?_, ?_⟩
        · intro a
          rw [List.mem_append, hmem, List.mem_cons, Except.ok.injEq, Option.mem_toList, eq_comm]
        · rw [List.forall_mem_cons]
          exact ⟨⟨o, rfl⟩, hok⟩

/-! ## No operation but such a LOAD writes a reserved graph -/

theorem resolved_not_reserved {row : Bindings} {pat : GraphNamePattern} {g : GraphName}
    (h : resolve_graph_name row pat = .ok (some g)) : ¬ (resolve_graph g).Reserved := by
  have hnamed : ∀ iri, (do reserved_iri_write_check iri; .ok (some (some iri)) :
      Result (Option GraphName)) = .ok (some g) → ¬ (resolve_graph g).Reserved := by
    intro iri h
    cases hc : reserved_iri_write_check iri with
    | error e => simp [hc, bind, Except.bind] at h
    | ok u =>
      rw [hc] at h
      cases h
      simp [resolve_graph, GraphId.Reserved, reserved_check_ok hc]
  unfold resolve_graph_name at h
  split at h
  · cases h
    exact id
  · exact hnamed _ h
  · split at h
    · exact hnamed _ h
    · cases h

theorem quad_of_graph {g : Option GraphName} {s p o : Option Term} {q : AlgebraQuad}
    (h : quad_of g s p o = some q) : g = some q.g := by
  unfold quad_of at h
  split at h
  · cases h
    rfl
  · cases h

theorem instance_not_reserved {row : Bindings} {pat : GraphNamePattern} {s p o : Option Term}
    {q : AlgebraQuad}
    (h : (do let g ← resolve_graph_name row pat; .ok (quad_of g s p o) :
      Result (Option AlgebraQuad)) = .ok (some q)) : ¬ (resolve_graph q.g).Reserved := by
  cases hg : resolve_graph_name row pat with
  | error e => simp [hg, bind, Except.bind] at h
  | ok g =>
    rw [hg] at h
    have hq := quad_of_graph (Except.ok.inj h)
    rw [hq] at hg
    exact resolved_not_reserved hg

theorem delete_quads_not_reserved {rows : List Bindings} {delete : List GroundQuadPattern}
    {dels : List AlgebraQuad} (h : delete_quads rows delete = .ok dels) :
    ∀ q ∈ dels, ¬ (resolve_graph q.g).Reserved := by
  intro q hq
  have hmem := ((mem_collect h).1 q).mp hq
  obtain ⟨row, -, hrow⟩ := List.mem_flatMap.mp hmem
  obtain ⟨pat, -, hpat⟩ := List.mem_map.mp hrow
  exact instance_not_reserved hpat

theorem insert_quads_not_reserved {scope : UInt64} {rows : List Bindings}
    {insert : List QuadPattern} {adds : List AlgebraQuad}
    (h : insert_quads scope rows insert = .ok adds) :
    ∀ q ∈ adds, ¬ (resolve_graph q.g).Reserved := by
  intro q hq
  have hmem := ((mem_collect h).1 q).mp hq
  obtain ⟨row, -, hrow⟩ := List.mem_flatMap.mp hmem
  obtain ⟨pat, -, hpat⟩ := List.mem_map.mp hrow
  exact instance_not_reserved hpat

theorem swept_not_reserved {quads : List (StoredQuad ox)} {g : GraphName}
    (h : g ∈ swept_graphs quads) : ¬ (resolve_graph g).Reserved := by
  obtain ⟨iri, hiri, rfl⟩ := List.mem_map.mp h
  have hno := (List.mem_filter.mp hiri).2
  rw [Bool.not_eq_true'] at hno
  simp [resolve_graph, GraphId.Reserved, hno]

theorem clear_drop_spares {verb : String} {silent : Bool} {graph : GraphTarget}
    {quads : List (StoredQuad ox)} {ws : List Write}
    (h : clear_drop_writes verb silent graph quads = .ok ws) :
    ∀ w ∈ ws, w.Spares GraphId.Reserved := by
  cases graph with
  | DefaultGraph =>
    cases h
    simp [Write.Spares, resolve_graph, GraphId.Reserved]
  | NamedGraphs =>
    cases h
    intro w hw
    obtain ⟨g, hg, rfl⟩ := List.mem_map.mp hw
    exact swept_not_reserved hg
  | AllGraphs =>
    cases h
    rw [List.forall_mem_cons]
    refine ⟨id, ?_⟩
    intro w hw
    obtain ⟨g, hg, rfl⟩ := List.mem_map.mp hw
    exact swept_not_reserved hg
  | NamedNode iri =>
    rw [clear_drop_writes] at h
    cases hc : reserved_iri_write_check iri with
    | error e =>
      rw [hc] at h
      cases h
    | ok u =>
      rw [hc] at h
      dsimp only at h
      split at h
      · cases h
        simp [Write.Spares, resolve_graph, GraphId.Reserved, reserved_check_ok hc]
      · split at h
        · cases h
        · cases h
          simp

/-- The writes of an operation that passed its checks. -/
theorem op_writes_spares {env : Env ox ω} {op : GraphUpdateOperation ω}
    {quads : List (StoredQuad ox)} {tag tag' : UInt64} {ws : List Write} {check : Bool}
    {st st' : Store ox} (hv : validate_op env op check st = (.ok (), st'))
    (hload : LoadSpares env.docs tag op) (h : op_writes env op quads tag = (.ok ws, tag')) :
    ∀ w ∈ ws, w.Spares GraphId.Reserved := by
  have hbatch : ∀ {touched dels adds : List AlgebraQuad},
      (∀ q ∈ dels, ¬ (resolve_graph q.g).Reserved) →
      (∀ q ∈ adds, ¬ (resolve_graph q.g).Reserved) →
      ∀ w ∈ [Write.batch touched dels adds], w.Spares GraphId.Reserved := by
    intro touched dels adds hd ha w hw
    rw [List.mem_singleton] at hw
    subst hw
    intro q hq
    rcases List.mem_append.mp hq with hq | hq
    · exact hd q hq
    · exact ha q hq
  have hcomes := op_writes_ok h
  cases op with
  | InsertData data =>
    obtain ⟨adds, hm, rfl⟩ := hcomes
    refine hbatch (by simp) fun q hq => ?_
    obtain ⟨d, hd, heq⟩ := (mapM_ok hm).1 q hq
    have hcheck := check_all_ok (Prod.mk.inj hv).1 d hd
    cases hr : reserved_write_check d.graph_name with
    | error e => simp [hr, bind, Except.bind] at hcheck
    | ok u =>
      unfold data_quad at heq
      cases ho : object_to_term d.object with
      | error e => simp [ho, bind, Except.bind] at heq
      | ok o =>
        rw [ho] at heq
        cases heq
        exact not_reserved_name hr
  | DeleteData data =>
    obtain ⟨dels, hm, rfl⟩ := hcomes
    refine hbatch (fun q hq => ?_) (by simp)
    obtain ⟨d, hd, heq⟩ := (mapM_ok hm).1 q hq
    have hcheck := check_all_ok (Prod.mk.inj hv).1 d hd
    cases hr : reserved_write_check d.graph_name with
    | error e => simp [hr, bind, Except.bind] at hcheck
    | ok u =>
      unfold ground_quad at heq
      cases ho : ground_term_to_term d.object with
      | error e => simp [ho, bind, Except.bind] at heq
      | ok o =>
        rw [ho] at heq
        cases heq
        exact not_reserved_name hr
  | DeleteInsert delete insert dataset pattern =>
    obtain ⟨-, rows, dels, adds, -, -, hdel, hadd, rfl⟩ := hcomes
    exact hbatch (delete_quads_not_reserved hdel) (insert_quads_not_reserved hadd)
  | Clear silent graph => exact clear_drop_spares hcomes
  | Drop silent graph => exact clear_drop_spares hcomes
  | Create silent graph =>
    obtain rfl : ws = [] := hcomes
    simp
  | Load silent source destination =>
    obtain ⟨hr, ⟨rfl, -⟩ | ⟨rows, hrows, -, rfl⟩⟩ := hcomes
    · simp
    · refine hbatch (by simp) fun q hq => ?_
      cases destination with
      | none => exact hload rows hrows q hq
      | some dest =>
        obtain ⟨q', -, rfl⟩ := List.mem_map.mp hq
        exact not_reserved_name hr

end horndb.sparql
