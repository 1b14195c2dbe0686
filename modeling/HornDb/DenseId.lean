-- The dense renumbering of the dictionary ids of one predicate. The type carries
-- that the two directions are inverse, so a renumbered relation keeps its closure.
import HornDb.Lib.Reach

open HornDb.Lib Relation Std

namespace horndb.closure.dense_id

/-- A bijection between the dictionary ids of one predicate and `0..len`. -/
structure DenseIdMap where
  forward : ExtTreeMap Nat Nat
  reverse : List Nat
  inverse : ∀ id d : Nat, forward[id]? = some d ↔ reverse[d]? = some id

namespace DenseIdMap

def new : DenseIdMap where
  forward := ∅
  reverse := []
  inverse id d := by simp

def len (map : DenseIdMap) : Nat := map.reverse.length

def to_dense (map : DenseIdMap) (id : Nat) : Option Nat := map.forward[id]?

def to_dict (map : DenseIdMap) (idx : Nat) : Option Nat := map.reverse[idx]?

variable {map : DenseIdMap}

theorem to_dict_eq_some {id d : Nat} : map.to_dict d = some id ↔ map.to_dense id = some d :=
  (map.inverse id d).symm

/-- Append an id that has no index yet. -/
def append (map : DenseIdMap) (id : Nat) (h : map.forward[id]? = none) : DenseIdMap where
  forward := map.forward.insert id map.reverse.length
  reverse := map.reverse ++ [id]
  inverse := by
    intro k d
    rw [ExtTreeMap.getElem?_insert, List.getElem?_append]
    by_cases hk : id = k
    · subst hk
      rw [if_pos ReflCmp.compare_self, Option.some_inj]
      split
      · rename_i hd
        constructor
        · rintro rfl
          exact absurd hd (lt_irrefl _)
        · intro hr
          rw [← map.inverse, h] at hr
          cases hr
      · rename_i hd
        rw [List.getElem?_singleton]
        constructor
        · rintro rfl
          simp
        · intro hr
          have : d - map.reverse.length = 0 := by
            by_contra hne
            rw [if_neg hne] at hr
            cases hr
          omega
    · have hne : ¬ compare id k = Ordering.eq := fun heq => hk (LawfulEqOrd.eq_of_compare heq)
      rw [if_neg hne, map.inverse]
      split
      · rfl
      · rename_i hd
        rw [List.getElem?_eq_none (by omega), List.getElem?_singleton]
        split
        · simp [hk]
        · rfl

/-- The index of `id`, a new one when it has none. -/
def intern (map : DenseIdMap) (id : Nat) : DenseIdMap × Nat :=
  match h : map.forward[id]? with
  | some dense => (map, dense)
  | none => (map.append id h, map.reverse.length)

/-- Renumber the edges, and number the ends that have no index. -/
def intern_edges : DenseIdMap → List (Nat × Nat) → DenseIdMap × List (Nat × Nat)
  | map, [] => (map, [])
  | map, (s, o) :: edges =>
    let (map, si) := map.intern s
    let (map, oi) := map.intern o
    let (map, out) := map.intern_edges edges
    (map, (si, oi) :: out)

/-! ## The laws of the map -/

theorem to_dense_inj {id id' d : Nat} (h : map.to_dense id = some d)
    (h' : map.to_dense id' = some d) : id = id' := by
  rw [← to_dict_eq_some] at h h'
  exact Option.some.inj (h.symm.trans h')

/-- `map'` numbers every id of `map` as `map` does. -/
def Extends (map map' : DenseIdMap) : Prop :=
  ∀ id d, map.to_dense id = some d → map'.to_dense id = some d

theorem Extends.refl (map : DenseIdMap) : map.Extends map := fun _ _ h => h

theorem Extends.trans {a b c : DenseIdMap} (h : a.Extends b) (h' : b.Extends c) : a.Extends c :=
  fun id d hd => h' id d (h id d hd)

theorem intern_spec (map : DenseIdMap) (id : Nat) :
    map.Extends (map.intern id).1 ∧ (map.intern id).1.to_dense id = some (map.intern id).2 := by
  unfold intern
  split
  · rename_i dense h
    exact ⟨.refl map, h⟩
  · rename_i h
    refine ⟨fun k d hk => ?_, ?_⟩
    · have hne : ¬ compare id k = Ordering.eq := by
        intro heq
        rw [to_dense, ← LawfulEqOrd.eq_of_compare heq, h] at hk
        cases hk
      rw [to_dense, append, ExtTreeMap.getElem?_insert, if_neg hne]
      exact hk
    · rw [to_dense, append, ExtTreeMap.getElem?_insert_self]

/-- The renumbered edges are the edges, end by end. -/
theorem intern_edges_spec (edges : List (Nat × Nat)) :
    ∀ map : DenseIdMap, map.Extends (map.intern_edges edges).1 ∧
      List.Forall₂ (fun e d => (map.intern_edges edges).1.to_dense e.1 = some d.1 ∧
        (map.intern_edges edges).1.to_dense e.2 = some d.2) edges (map.intern_edges edges).2 := by
  induction edges with
  | nil => exact fun map => ⟨.refl map, .nil⟩
  | cons e edges ih =>
    intro map
    obtain ⟨s, o⟩ := e
    obtain ⟨hs, hsi⟩ := map.intern_spec s
    obtain ⟨ho, hoi⟩ := (map.intern s).1.intern_spec o
    obtain ⟨hext, hall⟩ := ih ((map.intern s).1.intern o).1
    exact ⟨hs.trans (ho.trans hext), .cons ⟨hext _ _ (ho _ _ hsi), hext _ _ hoi⟩ hall⟩

theorem mem_numbered {edges out : List (Nat × Nat)}
    (h : List.Forall₂ (fun e d => map.to_dense e.1 = some d.1 ∧ map.to_dense e.2 = some d.2) edges out)
    {e : Nat × Nat} (he : e ∈ edges) :
    ∃ d ∈ out, map.to_dense e.1 = some d.1 ∧ map.to_dense e.2 = some d.2 := by
  induction h with
  | nil => cases he
  | @cons e' d edges out hd _ ih =>
    rcases List.mem_cons.mp he with rfl | he
    · exact ⟨d, List.mem_cons_self, hd⟩
    · obtain ⟨d', hmem, hd'⟩ := ih he
      exact ⟨d', List.mem_cons_of_mem _ hmem, hd'⟩

theorem mem_intern_edges (map : DenseIdMap) (edges : List (Nat × Nat)) {s o si oi : Nat}
    (hs : (map.intern_edges edges).1.to_dense s = some si)
    (ho : (map.intern_edges edges).1.to_dense o = some oi) :
    (si, oi) ∈ (map.intern_edges edges).2 ↔ (s, o) ∈ edges := by
  have hall := (map.intern_edges_spec edges).2
  generalize (map.intern_edges edges).1 = map' at *
  generalize (map.intern_edges edges).2 = out at *
  induction hall with
  | nil => simp
  | @cons e d edges out hed _ ih =>
    rw [List.mem_cons, List.mem_cons]
    refine or_congr ⟨?_, ?_⟩ ih
    · rintro rfl
      exact Prod.ext (to_dense_inj hs hed.1) (to_dense_inj ho hed.2)
    · rintro rfl
      exact Prod.ext (Option.some.inj (hs.symm.trans hed.1))
        (Option.some.inj (ho.symm.trans hed.2))

theorem intern_edges_ends (map : DenseIdMap) (edges : List (Nat × Nat)) {si oi : Nat}
    (h : (si, oi) ∈ (map.intern_edges edges).2) :
    ∃ s o, (map.intern_edges edges).1.to_dense s = some si ∧
      (map.intern_edges edges).1.to_dense o = some oi := by
  have hall := (map.intern_edges_spec edges).2
  generalize (map.intern_edges edges).1 = map' at *
  generalize (map.intern_edges edges).2 = out at *
  induction hall with
  | nil => cases h
  | @cons e d edges out hed _ ih =>
    rcases List.mem_cons.mp h with rfl | h
    · exact ⟨e.1, e.2, hed⟩
    · exact ih h

/-- An id gets a number and no other id does. -/
theorem numbered_intern {id k : Nat} :
    (∃ d, (map.intern id).1.to_dense k = some d) ↔ (∃ d, map.to_dense k = some d) ∨ k = id := by
  have hspec := map.intern_spec id
  constructor
  · rintro ⟨d, hd⟩
    by_cases hk : k = id
    · exact Or.inr hk
    · refine Or.inl ⟨d, ?_⟩
      unfold intern at hd
      split at hd
      · exact hd
      · have hne : ¬ compare id k = Ordering.eq := fun h => hk (LawfulEqOrd.eq_of_compare h).symm
        rw [to_dense, append, ExtTreeMap.getElem?_insert, if_neg hne] at hd
        exact hd
  · rintro (⟨d, hd⟩ | rfl)
    · exact ⟨d, hspec.1 k d hd⟩
    · exact ⟨_, hspec.2⟩

theorem intern_of_some {id d : Nat} (h : map.to_dense id = some d) : map.intern id = (map, d) := by
  unfold intern
  split
  · rename_i d' h'
    exact congrArg (map, ·) (Option.some.inj (h'.symm.trans h))
  · rename_i h'
    rw [to_dense, h'] at h
    cases h

/-- Numbered ends keep their numbers, so the edges are renumbered as before. -/
theorem intern_edges_numbered {edges out : List (Nat × Nat)}
    (h : List.Forall₂ (fun e d => map.to_dense e.1 = some d.1 ∧ map.to_dense e.2 = some d.2) edges out) :
    map.intern_edges edges = (map, out) := by
  induction h with
  | nil => rfl
  | @cons e d edges out hd _ ih =>
    rw [intern_edges]
    simp only [intern_of_some hd.1, intern_of_some hd.2, ih]

theorem intern_edges_again (map : DenseIdMap) (edges : List (Nat × Nat)) :
    (map.intern_edges edges).1.intern_edges edges = map.intern_edges edges :=
  intern_edges_numbered (map.intern_edges_spec edges).2

/-! ## A renumbered relation -/

/-- The relation `R` over indices, read over dictionary ids. -/
def Pull (map : DenseIdMap) (R : Nat → Nat → Prop) (s o : Nat) : Prop :=
  ∃ si oi, map.to_dense s = some si ∧ map.to_dense o = some oi ∧ R si oi

/-- Every end of `R` is the index of an id. -/
def Numbers (map : DenseIdMap) (R : Nat → Nat → Prop) : Prop :=
  ∀ si oi, R si oi → ∃ s o, map.to_dense s = some si ∧ map.to_dense o = some oi

variable {R : Nat → Nat → Prop}

theorem pull_iff {s o si oi : Nat} (hs : map.to_dense s = some si) (ho : map.to_dense o = some oi) :
    map.Pull R s o ↔ R si oi := by
  constructor
  · rintro ⟨si', oi', hs', ho', h⟩
    rw [hs] at hs'
    rw [ho] at ho'
    cases hs'
    cases ho'
    exact h
  · exact fun h => ⟨si, oi, hs, ho, h⟩

theorem Numbers.extends {map map' : DenseIdMap} (h : map.Numbers R) (hext : map.Extends map') :
    map'.Numbers R := by
  intro si oi hR
  obtain ⟨s, o, hs, ho⟩ := h si oi hR
  exact ⟨s, o, hext _ _ hs, hext _ _ ho⟩

/-- More numbered ids do not change the relation that is read. -/
theorem pull_extends {map map' : DenseIdMap} (hR : map.Numbers R) (hext : map.Extends map') :
    map'.Pull R = map.Pull R := by
  funext s o
  refine propext ⟨?_, ?_⟩
  · rintro ⟨si, oi, hs, ho, h⟩
    obtain ⟨s', o', hs', ho'⟩ := hR si oi h
    rw [to_dense_inj hs (hext _ _ hs'), to_dense_inj ho (hext _ _ ho')]
    exact ⟨si, oi, hs', ho', h⟩
  · rintro ⟨si, oi, hs, ho, h⟩
    exact ⟨si, oi, hext _ _ hs, hext _ _ ho, h⟩

/-- The closure of the renumbered relation is the renumbered closure. -/
theorem pull_transGen (hR : map.Numbers R) : map.Pull (TransGen R) = TransGen (map.Pull R) := by
  funext s o
  refine propext ⟨?_, ?_⟩
  · rintro ⟨si, oi, hs, ho, h⟩
    induction h generalizing o with
    | single h => exact .single ⟨si, _, hs, ho, h⟩
    | tail _ h ih =>
      obtain ⟨m, _, hm, _⟩ := hR _ _ h
      exact (ih m hm).tail ⟨_, _, hm, ho, h⟩
  · intro h
    induction h with
    | single h =>
      obtain ⟨si, oi, hs, ho, h⟩ := h
      exact ⟨si, oi, hs, ho, .single h⟩
    | tail _ h ih =>
      obtain ⟨si, mi, hs, hm, hsm⟩ := ih
      obtain ⟨mi', oi, hm', ho, h⟩ := h
      rw [hm] at hm'
      cases hm'
      exact ⟨si, oi, hs, ho, hsm.tail h⟩

theorem Numbers.transGen (hR : map.Numbers R) : map.Numbers (TransGen R) := by
  intro si oi h
  obtain ⟨_, hhead, _⟩ := TransGen.head'_iff.mp h
  obtain ⟨_, _, htail⟩ := TransGen.tail'_iff.mp h
  obtain ⟨s, _, hs, _⟩ := hR _ _ hhead
  obtain ⟨_, o, _, ho⟩ := hR _ _ htail
  exact ⟨s, o, hs, ho⟩

end DenseIdMap

end horndb.closure.dense_id
