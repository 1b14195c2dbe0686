-- A transitive predicate as a plan of the circuit: it takes the edges of its predicate
-- out of a delta of asserted rows and gives the closure rows that come and go.
import HornDb.ClosureSink
import HornDb.Zset

open HornDb.Lib Relation Std
open horndb.closure.sink

namespace horndb.incremental

/-- What a retraction does to the closure rows: the ones that lost all support, and the
deleted edges that the closure still entails. -/
structure ClosureRetractDelta where
  withdraw : List TripleId
  promote : List TripleId
deriving DecidableEq, Repr

def ClosureRetractDelta.default : ClosureRetractDelta := ⟨[], []⟩

/-- The incremental closure of the predicate `predicate`. -/
structure TransitiveClosureRule where
  predicate : Nat
  backend : IncrementalClosureBackend

/-- The edges of one predicate in a delta whose multiplicity passes `keep`. -/
def delta_edges (predicate : Nat) (keep : Int → Bool) (delta : Zset TripleId) :
    List (Nat × Nat) :=
  (delta.iter.filter fun e => e.1.p == predicate && keep e.2).map fun e => (e.1.s, e.1.o)

namespace TransitiveClosureRule

def new (predicate : Nat) : TransitiveClosureRule := ⟨predicate, .new⟩

/-- Insert the positive edges of the delta. The sink is a vector, so the write cannot fail. -/
def apply_insert_delta (rule : TransitiveClosureRule) (asserted_delta : Zset TripleId) :
    TransitiveClosureRule × List TripleId :=
  let edges := delta_edges rule.predicate (fun mult => decide (0 < mult)) asserted_delta
  if edges.isEmpty then (rule, [])
  else
    let (backend, collected) :=
      rule.backend.insert_transitive_edges rule.predicate edges fun _ => true
    ({ rule with backend := backend }, collected.getD [])

/-- Delete the negative edges of the delta. -/
def apply_retract_delta (rule : TransitiveClosureRule) (asserted_delta : Zset TripleId) :
    TransitiveClosureRule × ClosureRetractDelta :=
  let edges := delta_edges rule.predicate (fun mult => decide (mult < 0)) asserted_delta
  if edges.isEmpty then (rule, .default)
  else
    let (backend, outcome) := rule.backend.delete_transitive_edges rule.predicate edges
    ({ rule with backend := backend },
      ⟨outcome.withdrawn.map fun e => ⟨e.1, rule.predicate, e.2⟩,
        outcome.survived.map fun e => ⟨e.1, rule.predicate, e.2⟩⟩)

/-! ## The laws of the rule -/

theorem mem_delta_edges (predicate : Nat) (keep : Int → Bool) (delta : Zset TripleId)
    (hkeep : keep 0 = false) (s o : Nat) :
    (s, o) ∈ delta_edges predicate keep delta ↔ keep (delta.get ⟨s, predicate, o⟩) = true := by
  rw [delta_edges, List.mem_map]
  constructor
  · rintro ⟨⟨t, m⟩, hmem, heq⟩
    rw [List.mem_filter, Zset.mem_iter, Bool.and_eq_true, beq_iff_eq] at hmem
    obtain ⟨⟨_, rfl⟩, rfl, hm⟩ := hmem
    cases heq
    exact hm
  · intro h
    refine ⟨(⟨s, predicate, o⟩, _), List.mem_filter.mpr ⟨Zset.mem_iter.mpr ⟨?_, rfl⟩, ?_⟩, rfl⟩
    · intro hz
      rw [hz, hkeep] at h
      cases h
    · rw [beq_self_eq_true, Bool.true_and, h]

/-- The base edges that the rule retains. -/
def Edge (rule : TransitiveClosureRule) : Nat → Nat → Prop := rule.backend.Edge rule.predicate

/-- The rows of the strict transitive closure of the retained edges. -/
def Closed (rule : TransitiveClosureRule) (t : TripleId) : Prop :=
  t.p = rule.predicate ∧ TransGen rule.Edge t.s t.o

theorem mem_map_rows {l : List (Nat × Nat)} {p : Nat} {t : TripleId} :
    t ∈ l.map (fun e => (⟨e.1, p, e.2⟩ : TripleId)) ↔ t.p = p ∧ (t.s, t.o) ∈ l := by
  rw [List.mem_map]
  constructor
  · rintro ⟨e, he, rfl⟩
    exact ⟨rfl, he⟩
  · rintro ⟨rfl, h⟩
    exact ⟨(t.s, t.o), h, rfl⟩

theorem new_good (predicate : Nat) : (new predicate).backend.Good :=
  IncrementalClosureBackend.new_good

theorem new_edge (predicate s o : Nat) : ¬ (new predicate).Edge s o :=
  IncrementalClosureBackend.new_edge predicate s o

/-- What an insertion delta does to a rule. -/
structure Inserted (rule : TransitiveClosureRule) (delta : Zset TripleId)
    (out : TransitiveClosureRule × List TripleId) : Prop where
  good : out.1.backend.Good
  predicate : out.1.predicate = rule.predicate
  edge : ∀ s o, out.1.Edge s o ↔ rule.Edge s o ∨ 0 < delta.get ⟨s, rule.predicate, o⟩
  inferred : ∀ t, t ∈ out.2 ↔ out.1.Closed t ∧ ¬ rule.Closed t

theorem apply_insert_delta_spec {rule : TransitiveClosureRule} (h : rule.backend.Good)
    (delta : Zset TripleId) : Inserted rule delta (rule.apply_insert_delta delta) := by
  have hmem := mem_delta_edges rule.predicate (fun mult => decide (0 < mult)) delta rfl
  unfold apply_insert_delta
  dsimp only
  generalize delta_edges rule.predicate _ delta = edges at *
  split
  · rename_i hempty
    rw [List.isEmpty_iff] at hempty
    subst hempty
    refine ⟨h, rfl, fun s o => ?_, by simp⟩
    have := (hmem s o).not.mp List.not_mem_nil
    rw [decide_eq_true_eq] at this
    exact (or_iff_left this).symm
  · obtain ⟨b', written, heq, hins⟩ := IncrementalClosureBackend.insert_transitive_edges_spec h
      rule.predicate edges (fun _ => true) fun _ => rfl
    rw [heq]
    refine ⟨hins.good, rfl, fun s o => ?_, fun t => ?_⟩
    · rw [Edge, hins.edge, hmem, decide_eq_true_eq]
      rfl
    · rw [Option.getD_some, hins.written, Closed, Closed]
      simp only [Edge]
      tauto

/-- What a retraction delta does to a rule. -/
structure Retracted (rule : TransitiveClosureRule) (delta : Zset TripleId)
    (out : TransitiveClosureRule × ClosureRetractDelta) : Prop where
  good : out.1.backend.Good
  predicate : out.1.predicate = rule.predicate
  edge : ∀ s o, out.1.Edge s o ↔ rule.Edge s o ∧ ¬ delta.get ⟨s, rule.predicate, o⟩ < 0
  withdraw : ∀ t, t ∈ out.2.withdraw ↔ rule.Closed t ∧ ¬ out.1.Closed t
  promote : ∀ t, t ∈ out.2.promote ↔
    delta.get t < 0 ∧ rule.Edge t.s t.o ∧ out.1.Closed t

theorem apply_retract_delta_spec {rule : TransitiveClosureRule} (h : rule.backend.Good)
    (delta : Zset TripleId) : Retracted rule delta (rule.apply_retract_delta delta) := by
  have hmem := mem_delta_edges rule.predicate (fun mult => decide (mult < 0)) delta rfl
  unfold apply_retract_delta
  dsimp only
  generalize delta_edges rule.predicate _ delta = edges at *
  split
  · rename_i hempty
    rw [List.isEmpty_iff] at hempty
    subst hempty
    have hnot : ∀ s o, ¬ delta.get ⟨s, rule.predicate, o⟩ < 0 := by
      intro s o
      have := (hmem s o).not.mp List.not_mem_nil
      rwa [decide_eq_true_eq] at this
    refine ⟨h, rfl, fun s o => by simp [hnot], by simp [ClosureRetractDelta.default],
      fun t => ?_⟩
    simp only [ClosureRetractDelta.default, List.not_mem_nil, false_iff]
    rintro ⟨hneg, _, hp, _⟩
    exact hnot t.s t.o (by rw [← hp]; exact hneg)
  · have hdel := IncrementalClosureBackend.delete_transitive_edges_spec h rule.predicate edges
    generalize rule.backend.delete_transitive_edges rule.predicate edges = res at *
    refine ⟨hdel.good, rfl, fun s o => ?_, fun t => ?_, fun t => ?_⟩
    · rw [Edge, hdel.edge, hmem, decide_eq_true_eq]
      rfl
    · rw [mem_map_rows, hdel.withdrawn, Closed, Closed]
      simp only [Edge]
      tauto
    · rw [mem_map_rows, hdel.survived, hmem, decide_eq_true_eq, Closed]
      simp only [Edge]
      constructor
      · rintro ⟨hp, hneg, hedge, hc⟩
        rw [← hp] at hneg
        exact ⟨hneg, hedge, hp, hc⟩
      · rintro ⟨hneg, hedge, hp, hc⟩
        refine ⟨hp, ?_, hedge, hc⟩
        rw [← hp]
        exact hneg

end TransitiveClosureRule

end horndb.incremental
