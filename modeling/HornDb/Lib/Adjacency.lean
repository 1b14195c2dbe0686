-- A finite relation kept as an adjacency map, a map from a node to the set of
-- its neighbours. Its meaning is the finite set of its pairs, and each update
-- is an insert or an erase on that set. A worklist loop on a budget of turns
-- searches it: the rule for the loop asks for an invariant and for a count of
-- the work that is left, and gives back that the budget was enough.
import Mathlib

open Std

namespace HornDb.Lib

/-- A map from a node to the set of its neighbours. A node may keep an empty set. -/
abbrev Adjacency (κ : Type) [Ord κ] := ExtTreeMap κ (ExtTreeSet κ)

namespace Adjacency

variable {κ : Type} [Ord κ] [TransOrd κ]

/-- `y` stands under `x`. -/
def has (a : Adjacency κ) (x y : κ) : Bool :=
  match a[x]? with
  | some set => set.contains y
  | none => false

/-- The neighbours of `x`, none when `x` has no entry. -/
def neighbors (a : Adjacency κ) (x : κ) : List κ :=
  match a[x]? with
  | some set => set.toList
  | none => []

/-- Put `y` under `x`. -/
def add (a : Adjacency κ) (x y : κ) : Adjacency κ :=
  a.insert x ((a.getD x ∅).insert y)

/-- Take `y` from under `x`, and keep the set of `x` when it gets empty. -/
def drop (a : Adjacency κ) (x y : κ) : Adjacency κ :=
  match a[x]? with
  | some set => a.insert x (set.erase y)
  | none => a

/-- Drop the entry of `x` when its set is empty. -/
def prune (a : Adjacency κ) (x : κ) : Adjacency κ :=
  match a[x]? with
  | some set => if set.isEmpty then a.erase x else a
  | none => a

/-- Every pair, by node and then by neighbour. -/
def edges (a : Adjacency κ) : List (κ × κ) :=
  a.toList.flatMap fun e => e.2.toList.map fun y => (e.1, y)

/-- The relation as a finite set of pairs. -/
def pairs [DecidableEq κ] (a : Adjacency κ) : Finset (κ × κ) := a.edges.toFinset

@[simp]
theorem has_empty (x y : κ) : (∅ : Adjacency κ).has x y = false := by
  simp [has]

/-! ## What the reads give -/

theorem nodup_toList (set : ExtTreeSet κ) : set.toList.Nodup := by
  refine (ExtTreeSet.distinct_toList (t := set)).imp ?_
  intro u v huv heq
  exact huv (by rw [heq]; exact ReflCmp.compare_self)

theorem neighbors_nodup (a : Adjacency κ) (x : κ) : (a.neighbors x).Nodup := by
  unfold neighbors
  cases h : a[x]? with
  | none => exact List.nodup_nil
  | some set => exact nodup_toList set

variable [LawfulEqOrd κ]

theorem mem_neighbors (a : Adjacency κ) (x y : κ) : y ∈ a.neighbors x ↔ a.has x y = true := by
  unfold neighbors has
  cases a[x]? <;> simp

/-- The neighbours are listed in order, so the ones that stand decide the list. -/
theorem neighbors_congr {a a' : Adjacency κ} {x : κ} (h : ∀ y, a'.has x y = a.has x y) :
    a'.neighbors x = a.neighbors x := by
  have hsets : a'.getD x ∅ = a.getD x ∅ := by
    apply ExtTreeSet.ext_contains
    intro y
    have hy := h y
    unfold has at hy
    rw [ExtTreeMap.getD_eq_getD_getElem?, ExtTreeMap.getD_eq_getD_getElem?]
    revert hy
    cases a'[x]? <;> cases a[x]? <;> simp
  have hread : ∀ b : Adjacency κ, b.neighbors x = (b.getD x ∅).toList := by
    intro b
    unfold neighbors
    rw [ExtTreeMap.getD_eq_getD_getElem?]
    cases b[x]? <;> simp
  rw [hread, hread, hsets]

theorem mem_edges (a : Adjacency κ) (x y : κ) : (x, y) ∈ a.edges ↔ a.has x y = true := by
  unfold edges has
  simp only [List.mem_flatMap, List.mem_map, Prod.mk.injEq, Prod.exists]
  constructor
  · rintro ⟨x', set, hmem, y', hy, rfl, rfl⟩
    rw [ExtTreeMap.mem_toList_iff_getElem?_eq_some] at hmem
    simpa [hmem] using hy
  · intro h
    cases hx : a[x]? with
    | none => simp [hx] at h
    | some set =>
      refine ⟨x, set, ExtTreeMap.mem_toList_iff_getElem?_eq_some.mpr hx, y, ?_, rfl, rfl⟩
      simpa [hx] using h

theorem edges_nodup (a : Adjacency κ) : a.edges.Nodup := by
  unfold edges
  rw [List.nodup_flatMap]
  constructor
  · rintro ⟨x, set⟩ hmem
    exact (nodup_toList set).map fun u v huv => (Prod.mk.inj huv).2
  · refine (ExtTreeMap.distinct_keys_toList (t := a)).imp ?_
    rintro ⟨x, s⟩ ⟨x', s'⟩ hne
    simp only [Function.onFun, List.disjoint_left, List.mem_map, not_exists, not_and]
    rintro ⟨u, v⟩ ⟨_, _, heq⟩ w _ heq'
    have : x = x' := (Prod.mk.inj heq).1.trans (Prod.mk.inj heq').1.symm
    exact hne (by rw [this]; exact ReflCmp.compare_self)

theorem neighbors_length_le (a : Adjacency κ) (x : κ) :
    (a.neighbors x).length ≤ a.edges.length := by
  have hinj : ((a.neighbors x).map fun y => (x, y)).Nodup :=
    (a.neighbors_nodup x).map fun u v huv => (Prod.mk.inj huv).2
  have hsub : (a.neighbors x).map (fun y => (x, y)) ⊆ a.edges := by
    intro p hp
    obtain ⟨y, hy, rfl⟩ := List.mem_map.mp hp
    exact (mem_edges a x y).mpr ((mem_neighbors a x y).mp hy)
  simpa using (hinj.subperm hsub).length_le

@[simp]
theorem mem_pairs [DecidableEq κ] (a : Adjacency κ) (x y : κ) :
    (x, y) ∈ a.pairs ↔ a.has x y = true := by
  rw [pairs, List.mem_toFinset, mem_edges]

theorem card_pairs [DecidableEq κ] (a : Adjacency κ) : a.pairs.card = a.edges.length :=
  List.toFinset_card_of_nodup a.edges_nodup

/-! ## What the updates give -/

@[simp]
theorem has_add (a : Adjacency κ) (x y u v : κ) :
    (a.add x y).has u v = true ↔ (u = x ∧ v = y) ∨ a.has u v = true := by
  unfold has add
  rw [ExtTreeMap.getElem?_insert, ExtTreeMap.getD_eq_getD_getElem?]
  by_cases hx : x = u
  · subst hx
    have hv : compare y v = Ordering.eq ↔ v = y := compare_eq_iff_eq.trans eq_comm
    cases h : a[x]? <;> simp [ExtTreeSet.contains_insert, hv]
  · have hne : ¬ compare x u = Ordering.eq := fun h => hx (LawfulEqOrd.eq_of_compare h)
    have hne' : ¬ u = x := fun h => hx h.symm
    simp [hne, hne']

@[simp]
theorem has_drop (a : Adjacency κ) (x y u v : κ) :
    (a.drop x y).has u v = true ↔ ¬ (u = x ∧ v = y) ∧ a.has u v = true := by
  unfold has drop
  by_cases hx : x = u
  · subst hx
    have hv : compare y v = Ordering.eq ↔ v = y := compare_eq_iff_eq.trans eq_comm
    cases h : a[x]? <;> simp [h, hv]
  · have hne : ¬ compare x u = Ordering.eq := fun h => hx (LawfulEqOrd.eq_of_compare h)
    have hne' : ¬ u = x := fun h => hx h.symm
    cases h : a[x]? <;> simp [ExtTreeMap.getElem?_insert, hne, hne']

@[simp]
theorem has_prune (a : Adjacency κ) (x u v : κ) : (a.prune x).has u v = a.has u v := by
  unfold prune
  cases h : a[x]? with
  | none => rfl
  | some set =>
    dsimp only
    split
    · rename_i hempty
      unfold has
      rw [ExtTreeMap.getElem?_erase]
      by_cases hx : x = u
      · subst hx
        rw [ExtTreeSet.isEmpty_iff] at hempty
        simp [h, hempty]
      · have hne : ¬ compare x u = Ordering.eq := fun h => hx (LawfulEqOrd.eq_of_compare h)
        simp [hne]
    · rfl

@[simp]
theorem pairs_empty [DecidableEq κ] : (∅ : Adjacency κ).pairs = ∅ := by
  ext ⟨x, y⟩
  simp

theorem pairs_add [DecidableEq κ] (a : Adjacency κ) (x y : κ) :
    (a.add x y).pairs = insert (x, y) a.pairs := by
  ext ⟨u, v⟩
  simp

theorem pairs_drop [DecidableEq κ] (a : Adjacency κ) (x y : κ) :
    (a.drop x y).pairs = a.pairs.erase (x, y) := by
  ext ⟨u, v⟩
  simp

end Adjacency

end HornDb.Lib

namespace HornDb.Lib.Worklist

variable {α σ : Type*}

/-- Take the first item, handle it, and put what the handler asks for in front. The
loop ends with an empty list or with the last turn, and gives the items it left. -/
def drain (handle : α → σ → σ × List α) : Nat → List α → σ → σ × List α
  | _, [], st => (st, [])
  | 0, q, st => (st, q)
  | n + 1, a :: q, st =>
    let (st', more) := handle a st
    drain handle n (more ++ q) st'

@[simp]
theorem drain_nil (handle : α → σ → σ × List α) (n : Nat) (st : σ) :
    drain handle n [] st = (st, []) := by
  cases n <;> rfl

theorem drain_cons (handle : α → σ → σ × List α) (n : Nat) (a : α) (q : List α) (st : σ) :
    drain handle (n + 1) (a :: q) st = drain handle n ((handle a st).2 ++ q) (handle a st).1 :=
  rfl

/-- What every turn keeps, the loop keeps, however many turns it has. -/
theorem drain_keeps {handle : α → σ → σ × List α} {I : σ → Prop}
    (keeps : ∀ a st, I st → I (handle a st).1) :
    ∀ n q st, I st → I (drain handle n q st).1 := by
  intro n
  induction n with
  | zero =>
    intro q st hinv
    cases q <;> exact hinv
  | succ n ih =>
    intro q st hinv
    cases q with
    | nil => simpa using hinv
    | cons a q =>
      rw [drain_cons]
      exact ih _ _ (keeps a st hinv)

/-- The rule of the loop. Each turn keeps `Inv`. A turn that asks for more, at most
`most` items, also does a unit of the work that `left` counts. -/
theorem drain_rule {handle : α → σ → σ × List α} (Inv : List α → σ → Prop)
    (left : σ → Nat) (most : Nat)
    (keeps : ∀ a q st, Inv (a :: q) st → Inv ((handle a st).2 ++ q) (handle a st).1)
    (pays : ∀ a q st, Inv (a :: q) st →
      (handle a st).2 = [] ∧ left (handle a st).1 ≤ left st ∨
      left (handle a st).1 < left st ∧ (handle a st).2.length ≤ most) :
    ∀ n q st, Inv q st → q.length + left st * (most + 1) ≤ n →
      (drain handle n q st).2 = [] ∧ Inv [] (drain handle n q st).1 := by
  intro n
  induction n with
  | zero =>
    intro q st hinv hn
    have hq : q = [] := List.length_eq_zero_iff.mp (by omega)
    subst hq
    simpa using hinv
  | succ n ih =>
    intro q st hinv hn
    cases q with
    | nil => simpa using hinv
    | cons a q =>
      rw [drain_cons]
      refine ih _ _ (keeps a q st hinv) ?_
      rw [List.length_append]
      simp only [List.length_cons] at hn
      rcases pays a q st hinv with ⟨hnil, hle⟩ | ⟨hlt, hlen⟩
      · have := Nat.mul_le_mul_right (most + 1) hle
        rw [hnil, List.length_nil]
        omega
      · have := Nat.mul_le_mul_right (most + 1) (Nat.succ_le_of_lt hlt)
        rw [Nat.succ_mul] at this
        omega

end HornDb.Lib.Worklist
