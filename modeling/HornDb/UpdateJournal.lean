-- What a write reads, records and changes, and the journal as an undo log: a rollback gives the
-- visible quads back as long as no quad is respelled.
import HornDb.Lib.UndoLog
import HornDb.UpdateRuns
import HornDb.UpdateReserved

open HornDb.Lib.UndoLog (Logs Right Round Undone logs_nil)

namespace horndb.sparql

variable {ox : text.Library} {ω : Type}

/-! ## What a write reads and what it does -/

/-- The quads that the write records. -/
def Write.touches (quads : List (StoredQuad ox)) : Write → List AlgebraQuad
  | .batch touched _ _ => touched
  | .sweep g =>
    (quads.filter fun k => (Journal.target_of g).selects k.g).map (StoredQuad.spell g)

def Write.effect (quads : List (StoredQuad ox)) : Write → List (StoredQuad ox)
  | .batch _ dels adds => apply_batch quads dels adds
  | .sweep g => clear_quads quads (Journal.target_of g)

/-- The write records all that it changes. -/
def Write.Recorded : Write → Prop
  | .batch touched dels adds => ∀ q ∈ dels ++ adds, q ∈ touched
  | .sweep _ => True

/-- The journal with what the write records. A sweep takes its quads as visible. -/
def Write.noted (quads : List (StoredQuad ox)) (j : Journal) : Write → Journal
  | .batch touched _ _ => j.record quads touched
  | .sweep g =>
    if j.enabled then
      { j with before := (touches quads (.sweep g)).foldl (Journal.note · · true) j.before }
    else j

/-- A sweep takes plain terms alone. -/
def Write.Plain (quads : List (StoredQuad ox)) : Write → Prop
  | .batch _ _ _ => True
  | .sweep g => ∀ k ∈ quads, (Journal.target_of g).selects k.g = true → k.plain = true

/-- The calls of a write that come before the one that changes the store. -/
def Write.reads (j : Journal) : Write → Nat
  | .batch _ _ _ => 0
  | .sweep _ => if j.enabled then 1 else 0

section Writes

variable {quads : List (StoredQuad ox)} {w : Write} {fails : Faults} {s : Session ox}
  {j : Journal}

theorem effect_kept (hw : w.Recorded) (hplain : w.Plain quads) {k : StoredQuad ox}
    (h : ∀ q ∈ w.touches quads, q.key ≠ some k) : k ∈ w.effect quads ↔ k ∈ quads := by
  cases w with
  | batch touched dels adds => exact mem_apply_batch_of_ne fun q hq => h q (hw q hq)
  | sweep g =>
    rw [Write.effect, mem_clear_quads, and_iff_left_iff_imp]
    intro hk
    rw [← Bool.not_eq_true]
    intro hsel
    refine h (k.spell g) ?_ ?_
    · exact List.mem_map.mpr ⟨k, List.mem_filter.mpr ⟨hk, hsel⟩, rfl⟩
    · rw [key_spell g (hplain k hk hsel), ← selects_target_of.mp hsel]

/-- A quad that a sweep records is visible. -/
theorem sweep_touches_visible {g : GraphName} {q : AlgebraQuad}
    (hplain : (Write.sweep g).Plain quads)
    (h : q ∈ (Write.sweep g).touches quads) : quad_exists quads q = true := by
  obtain ⟨k, hk, rfl⟩ := List.mem_map.mp h
  obtain ⟨hin, hsel⟩ := List.mem_filter.mp hk
  refine quad_exists_iff.mpr ⟨k, hin, ?_⟩
  rw [key_spell g (hplain k hin hsel), ← selects_target_of.mp hsel]

theorem noted_eq_record (hplain : w.Plain quads) :
    w.noted quads j = j.record quads (w.touches quads) := by
  cases w with
  | batch touched dels adds => rfl
  | sweep g =>
    rw [Write.noted, Journal.record]
    split
    · rw [List.foldl_ext _ (fun before q => Journal.note before q (quad_exists quads q)) j.before
        fun before q hq => by rw [sweep_touches_visible hplain hq]]
    · rfl

/-- Recording a graph reads it in one call. -/
theorem record_cleared_eq (fails : Faults) (j : Journal) (st : Store ox) (g : GraphName) :
    j.record_cleared fails st g =
      if j.enabled then
        if fails st.calls then (.error (.Executor "scan_graph"), { st with calls := st.calls + 1 })
        else (.ok ((Write.sweep g).noted st.quads j), { st with calls := st.calls + 1 })
      else (.ok j, st) := by
  unfold Journal.record_cleared
  cases hj : j.enabled with
  | false => rfl
  | true =>
    have hscan : st.scan_graph_quads fails (Journal.target_of g) =
        if fails st.calls then (.error (.Executor "scan_graph"), { st with calls := st.calls + 1 })
        else (.ok ((st.quads.filter fun k => (Journal.target_of g).selects k.g).map fun k =>
          (oxrdf_to_algebra k.s, oxrdf_to_algebra k.p, oxrdf_to_algebra k.o)),
          { st with calls := st.calls + 1 }) := by
      cases g with
      | none =>
        dsimp only [Store.scan_graph_quads, Journal.target_of]
        rw [call_eq]
        cases fails st.calls <;> rfl
      | some iri =>
        dsimp only [Store.scan_graph_quads, Journal.target_of]
        rw [call_eq]
        cases fails st.calls <;> rfl
    rw [hscan]
    cases fails st.calls with
    | true => rfl
    | false =>
      rw [Write.noted, if_pos hj, Write.touches, List.foldl_map, hj]
      simp only [Bool.not_true, Bool.false_eq_true, if_false, if_true, List.foldl_map]
      rfl

/-- What comes of a write: a call that reads fails, or the one that changes the store fails or
succeeds. -/
theorem write_run_eq (fails : Faults) (w : Write) (s : Session ox) :
    w.run fails s =
      if w.reads s.journal = 1 ∧ fails s.store.calls = true then
        (.error (.Executor "scan_graph"),
          { s with store := { s.store with calls := s.store.calls + 1 } })
      else
        let journal := w.noted s.store.quads s.journal
        if fails (s.store.calls + w.reads s.journal) then
          (.error (.Executor (match w with
            | .batch _ _ _ => "storage apply_quads"
            | .sweep _ => "clear_graph")),
            ⟨{ s.store with calls := s.store.calls + w.reads s.journal + 1 }, journal⟩)
        else
          (.ok (), ⟨{ s.store with
            quads := w.effect s.store.quads
            calls := s.store.calls + w.reads s.journal + 1 }, journal⟩) := by
  cases w with
  | batch touched dels adds =>
    dsimp only [Write.run, Session.write, Store.apply_quads]
    rw [call_eq]
    cases hf : fails s.store.calls <;> simp [hf, Write.reads, Write.noted, Write.effect]
  | sweep g =>
    dsimp only [Write.run, Session.sweep]
    rw [record_cleared_eq]
    cases hj : s.journal.enabled with
    | false =>
      simp only [Store.clear_graph, call_eq, Write.reads, hj, Write.noted]
      cases hf : fails s.store.calls <;> simp [hf, Write.effect]
    | true =>
      cases hf : fails s.store.calls with
      | true => simp [hj, Write.reads]
      | false =>
        simp only [Store.clear_graph, call_eq, Write.reads, hj]
        cases hf' : fails (s.store.calls + 1) <;> simp [hf', Write.effect]

/-- A write that is an error leaves the visible quads. -/
theorem write_error_quads {e : SparqlError} {s' : Session ox}
    (h : w.run fails s = (.error e, s')) : s'.store.quads = s.store.quads := by
  rw [write_run_eq] at h
  dsimp only at h
  split at h
  · cases h
    rfl
  · split at h
    · cases h
      rfl
    · cases h

theorem record_enabled (j : Journal) (qs : List AlgebraQuad) :
    (j.record quads qs).enabled = j.enabled := by
  unfold Journal.record
  split <;> rfl

theorem noted_enabled (j : Journal) : (w.noted quads j).enabled = j.enabled := by
  cases w with
  | batch touched dels adds => exact record_enabled j touched
  | sweep g =>
    rw [Write.noted]
    split <;> rfl

theorem noted_disabled (hj : j.enabled = false) : w.noted quads j = j := by
  cases w with
  | batch touched dels adds => rw [Write.noted, Journal.record, if_neg (by simp [hj])]
  | sweep g => rw [Write.noted, if_neg (by simp [hj])]

theorem write_enabled {r : Result Unit} {s' : Session ox} (h : w.run fails s = (r, s')) :
    s'.journal.enabled = s.journal.enabled := by
  rw [write_run_eq] at h
  dsimp only at h
  split at h
  · cases h
    rfl
  · split at h <;> cases h <;> exact noted_enabled _

/-- A journal that is not enabled stays as it is. -/
theorem write_disabled (hj : s.journal.enabled = false) {r : Result Unit} {s' : Session ox}
    (h : w.run fails s = (r, s')) : s'.journal = s.journal := by
  rw [write_run_eq] at h
  dsimp only at h
  rw [noted_disabled hj] at h
  split at h
  · cases h
    rfl
  · split at h <;> cases h <;> rfl

/-! ## The journal as a log -/

theorem mem_foldl_note_iff {f : AlgebraQuad → Bool} {qs : List AlgebraQuad}
    {before : List (AlgebraQuad × Bool)} {e : AlgebraQuad × Bool} :
    e ∈ qs.foldl (fun before q => Journal.note before q (f q)) before ↔
      e ∈ before ∨ e.1 ∈ qs ∧ (∀ e' ∈ before, e'.1 ≠ e.1) ∧ e.2 = f e.1 := by
  induction qs generalizing before with
  | nil => simp
  | cons q qs ih =>
    rw [List.foldl_cons, ih]
    unfold Journal.note
    split
    · rename_i hany
      obtain ⟨e₀, he₀, hq⟩ := List.any_eq_true.mp hany
      rw [beq_iff_eq] at hq
      constructor
      · rintro (h | ⟨hin, hrest⟩)
        · exact Or.inl h
        · exact Or.inr ⟨List.mem_cons_of_mem q hin, hrest⟩
      · rintro (h | ⟨hin, hno, hlive⟩)
        · exact Or.inl h
        · rcases List.mem_cons.mp hin with heq | hin
          · exact absurd (hq.trans heq.symm) (hno e₀ he₀)
          · exact Or.inr ⟨hin, hno, hlive⟩
    · rename_i hany
      have hno : ∀ e' ∈ before, e'.1 ≠ q := by
        intro e' he' heq
        exact hany (List.any_eq_true.mpr ⟨e', he', by simp [heq]⟩)
      simp only [List.mem_append, List.mem_cons, List.not_mem_nil, or_false]
      constructor
      · rintro ((h | rfl) | ⟨hin, hrest, hlive⟩)
        · exact Or.inl h
        · exact Or.inr ⟨Or.inl rfl, hno, rfl⟩
        · exact Or.inr ⟨Or.inr hin, fun e' he' => hrest e' (Or.inl he'), hlive⟩
      · rintro (h | ⟨rfl | hin, hrest, hlive⟩)
        · exact Or.inl (Or.inl h)
        · exact Or.inl (Or.inr (Prod.ext rfl hlive))
        · by_cases heq : e.1 = q
          · refine Or.inl (Or.inr (Prod.ext heq ?_))
            rw [hlive, heq]
          · refine Or.inr ⟨hin, ?_, hlive⟩
            rintro e' (he' | rfl)
            · exact hrest e' he'
            · exact fun h => heq h.symm

theorem mem_record_iff (hj : j.enabled = true) {qs : List AlgebraQuad}
    {e : AlgebraQuad × Bool} :
    e ∈ (j.record quads qs).before ↔
      e ∈ j.before ∨ e.1 ∈ qs ∧ (∀ e' ∈ j.before, e'.1 ≠ e.1) ∧ e.2 = quad_exists quads e.1 := by
  rw [Journal.record, if_pos hj]
  exact mem_foldl_note_iff

/-- A write is a round of the log, whether or not its last call succeeds. -/
theorem write_round (hw : w.Recorded) (hplain : w.Plain quads) (hj : j.enabled = true)
    {after : List (StoredQuad ox)}
    (hafter : after = quads ∨ after = w.effect quads) :
    Round AlgebraQuad.key (· ∈ w.touches quads) (· ∈ quads) (· ∈ after) j.before
      (j.record quads (w.touches quads)).before := by
  refine ⟨?_, ?_⟩
  · intro e
    rw [mem_record_iff hj]
    have hlive : e.2 = quad_exists quads e.1 ↔
        (e.2 = true ↔ ∃ k, AlgebraQuad.key e.1 = some k ∧ k ∈ quads) := by
      rw [Bool.eq_iff_iff, quad_exists_iff]
      simp only [and_comm]
    rw [hlive]
  · intro k hno
    rcases hafter with rfl | rfl
    · rfl
    · exact effect_kept hw hplain hno

/-- The journal of a session undoes what came since. -/
structure Undoable (quads : List (StoredQuad ox)) (s : Session ox) : Prop where
  enabled : s.journal.enabled = true
  logs : Logs AlgebraQuad.key (· ∈ quads) (· ∈ s.store.quads) s.journal.before
  right : Right AlgebraQuad.key (· ∈ quads) s.journal.before

/-- No quad is touched, under a spelling that the journal has not read, that was absent before the
request and is visible by now. -/
def Respells (start : List (StoredQuad ox)) (w : Write) (s : Session ox) : Prop :=
  ∃ q ∈ w.touches s.store.quads, (∀ e ∈ s.journal.before, e.1 ≠ q) ∧
    ∃ k, q.key = some k ∧ k ∈ s.store.quads ∧ k ∉ start

theorem write_undoable {start : List (StoredQuad ox)} (hw : w.Recorded)
    (hplain : w.Plain s.store.quads) (h : Undoable start s) (hnew : ¬ Respells start w s) :
    Undoable start (w.run fails s).2 := by
  have hround : ∀ after, after = s.store.quads ∨ after = w.effect s.store.quads →
      ∀ st : Store ox, st.quads = after →
      Undoable start ⟨st, w.noted s.store.quads s.journal⟩ := by
    intro after hafter st hst
    have hr := write_round hw hplain h.enabled hafter
    rw [noted_eq_record hplain]
    refine ⟨(record_enabled _ _).trans h.enabled, ?_, (Right.round_iff h.right hr).mpr ?_⟩
    · dsimp only
      rw [hst]
      exact h.logs.round hr
    · intro q hq hno k hk hin
      by_contra hstart
      exact hnew ⟨q, hq, hno, k, hk, hin, hstart⟩
  rw [write_run_eq]
  dsimp only
  split
  · exact ⟨h.enabled, h.logs, h.right⟩
  · split
    · exact hround _ (Or.inl rfl) _ rfl
    · exact hround _ (Or.inr rfl) _ rfl

/-- The cells that the rollback leaves. -/
theorem rollback_undone (hok : s.journal.before ≠ [] → fails s.store.calls = false)
    {k : StoredQuad ox} :
    k ∈ (s.journal.rollback fails s.store).quads ↔
      Undone AlgebraQuad.key s.journal.before (· ∈ s.store.quads) k := by
  unfold Journal.rollback
  split
  · rename_i hempty
    rw [List.isEmpty_iff] at hempty
    simp [Undone, hempty]
  · rename_i hne
    rw [List.isEmpty_iff] at hne
    unfold Store.apply_quads
    rw [call_eq, hok hne, if_neg Bool.false_ne_true]
    dsimp only
    rw [mem_apply_batch]
    unfold Undone
    simp only [mem_dels, mem_adds, Prod.forall, Prod.exists]
    constructor
    · rintro (⟨hin, hno⟩ | ⟨q, hq, hk⟩)
      · refine Or.inl ⟨hin, ?_⟩
        rintro q b hq rfl
        exact hno q hq
      · exact Or.inr ⟨q, true, hq, rfl, hk⟩
    · rintro (⟨hin, hno⟩ | ⟨q, b, hq, rfl, hk⟩)
      · exact Or.inl ⟨hin, fun q hq => hno q false hq rfl⟩
      · exact Or.inr ⟨q, hq, hk⟩

end Writes

end horndb.sparql
