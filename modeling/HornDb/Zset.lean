-- A Z-set: a map from rows to counts that keeps no zero. Its meaning is a
-- function of finite support, and the updates are sums of such functions. The counts
-- are integers here; CheckedPlans has the words that the source keeps them in.
import Mathlib

open Std

namespace horndb.incremental

/-- A Z-set over `K`. The map holds no zero, so a row is in it exactly when it counts. -/
@[ext]
structure Zset (K : Type) [Ord K] [TransOrd K] where
  inner : ExtTreeMap K Int
  nonzero : ∀ k : K, inner[k]? ≠ some 0

namespace Zset

variable {K : Type} [Ord K] [TransOrd K]

def new : Zset K where
  inner := ∅
  nonzero k := by simp

def is_empty (z : Zset K) : Bool := z.inner.isEmpty

def len (z : Zset K) : Nat := z.inner.size

def get (z : Zset K) (key : K) : Int := z.inner.getD key 0

def iter (z : Zset K) : List (K × Int) := z.inner.toList

variable [LawfulEqOrd K]

/-- Add `delta` to the count of `key`, and forget the row when its count gets zero. -/
def add (z : Zset K) (key : K) (delta : Int) : Zset K :=
  if hd : delta = 0 then z
  else
    match hv : z.inner[key]? with
    | some v =>
      if hz : v + delta = 0 then
        { inner := z.inner.erase key
          nonzero := by
            intro k
            rw [ExtTreeMap.getElem?_erase]
            split
            · simp
            · exact z.nonzero k }
      else
        { inner := z.inner.insert key (v + delta)
          nonzero := by
            intro k
            rw [ExtTreeMap.getElem?_insert]
            split
            · simpa using hz
            · exact z.nonzero k }
    | none =>
      { inner := z.inner.insert key delta
        nonzero := by
          intro k
          rw [ExtTreeMap.getElem?_insert]
          split
          · simpa using hd
          · exact z.nonzero k }

def add_assign (z other : Zset K) : Zset K :=
  other.iter.foldl (fun z e => z.add e.1 e.2) z

def from_iter (it : List (K × Int)) : Zset K :=
  it.foldl (fun z e => z.add e.1 e.2) new

/-! ## Rows and counts -/

omit [LawfulEqOrd K] in
@[simp]
theorem get_new (k : K) : (new : Zset K).get k = 0 := by
  simp [get, new]

theorem get_add (z : Zset K) (key k : K) (delta : Int) [DecidableEq K] :
    (z.add key delta).get k = z.get k + if k = key then delta else 0 := by
  have hcmp : compare key k = Ordering.eq ↔ k = key := Std.compare_eq_iff_eq.trans eq_comm
  unfold add get
  split
  · rename_i hd
    simp [hd]
  · split
    · rename_i v hv
      split
      · rename_i hz
        rw [ExtTreeMap.getD_erase, ExtTreeMap.getD_eq_getD_getElem?]
        by_cases hk : k = key
        · subst hk
          simp [hv, hz]
        · simp [hcmp, hk]
      · rw [ExtTreeMap.getD_insert, ExtTreeMap.getD_eq_getD_getElem?]
        by_cases hk : k = key
        · subst hk
          simp [hv]
        · simp [hcmp, hk]
    · rename_i hv
      rw [ExtTreeMap.getD_insert, ExtTreeMap.getD_eq_getD_getElem?]
      by_cases hk : k = key
      · subst hk
        simp [hv]
      · simp [hcmp, hk]

omit [LawfulEqOrd K] in
theorem getElem?_eq_some {z : Zset K} {k : K} {m : Int} :
    z.inner[k]? = some m ↔ m ≠ 0 ∧ z.get k = m := by
  have hget : z.get k = (z.inner[k]?).getD 0 := ExtTreeMap.getD_eq_getD_getElem?
  rw [hget]
  constructor
  · intro h
    refine ⟨?_, by rw [h]; rfl⟩
    rintro rfl
    exact z.nonzero k h
  · rintro ⟨hne, hm⟩
    cases h : z.inner[k]? with
    | none =>
      rw [h] at hm
      exact absurd hm.symm hne
    | some v =>
      rw [h] at hm
      exact congrArg some hm

theorem mem_iter {z : Zset K} {k : K} {m : Int} : (k, m) ∈ z.iter ↔ m ≠ 0 ∧ z.get k = m := by
  rw [iter, ExtTreeMap.mem_toList_iff_getElem?_eq_some, getElem?_eq_some]

omit [LawfulEqOrd K] in
theorem ext_get {a b : Zset K} [LawfulEqOrd K] (h : ∀ k, a.get k = b.get k) : a = b := by
  apply Zset.ext
  apply ExtTreeMap.ext_getElem?
  intro k
  apply Option.ext
  intro m
  rw [getElem?_eq_some, getElem?_eq_some, h]

theorem is_empty_iff {z : Zset K} : z.is_empty = true ↔ ∀ k, z.get k = 0 := by
  rw [is_empty, ExtTreeMap.isEmpty_iff]
  constructor
  · intro h k
    rw [get, h]
    simp
  · intro h
    have : z = new := ext_get fun k => by rw [h, get_new]
    rw [this, new]

/-! ## The meaning -/

variable [DecidableEq K]

/-- The counts as a function of finite support. -/
noncomputable def val (z : Zset K) : K →₀ ℤ :=
  Finsupp.onFinset z.inner.keys.toFinset z.get (by
    intro k hk
    rw [List.mem_toFinset, ExtTreeMap.mem_keys, ExtTreeMap.mem_iff_isSome_getElem?,
      Option.isSome_iff_exists]
    exact ⟨z.get k, getElem?_eq_some.mpr ⟨hk, rfl⟩⟩)

@[simp]
theorem val_apply (z : Zset K) (k : K) : z.val k = z.get k := rfl

theorem val_injective {a b : Zset K} (h : a.val = b.val) : a = b :=
  ext_get fun k => DFunLike.congr_fun h k

@[simp]
theorem val_new : (new : Zset K).val = 0 := by
  ext k
  simp

theorem val_add (z : Zset K) (key : K) (delta : Int) :
    (z.add key delta).val = z.val + Finsupp.single key delta := by
  ext k
  simp [get_add, Finsupp.single_apply, eq_comm]

theorem val_foldl_add (l : List (K × Int)) (z : Zset K) :
    (l.foldl (fun z e => z.add e.1 e.2) z).val =
      z.val + (l.map fun e => Finsupp.single e.1 e.2).sum := by
  induction l generalizing z with
  | nil => simp
  | cons e l ih =>
    rw [List.foldl_cons, ih, val_add, List.map_cons, List.sum_cons, add_assoc]

/-- A sum over the rows in key order is the sum of the function. -/
theorem sum_iter {M : Type*} [AddCommMonoid M] (z : Zset K) (f : K → ℤ → M) :
    (z.iter.map fun e => f e.1 e.2).sum = z.val.sum f := by
  have hkeys : z.iter.map (fun e => f e.1 e.2) = z.inner.keys.map fun k => f k (z.get k) := by
    rw [← ExtTreeMap.map_fst_toList_eq_keys, List.map_map]
    refine List.map_congr_left ?_
    rintro ⟨k, m⟩ hmem
    rw [Function.comp_apply, (mem_iter.mp hmem).2]
  have hsupp : z.val.support = z.inner.keys.toFinset := by
    ext k
    rw [Finsupp.mem_support_iff, val_apply, List.mem_toFinset, ExtTreeMap.mem_keys,
      ExtTreeMap.mem_iff_isSome_getElem?, Option.isSome_iff_exists]
    constructor
    · exact fun hk => ⟨z.get k, getElem?_eq_some.mpr ⟨hk, rfl⟩⟩
    · rintro ⟨m, hm⟩
      obtain ⟨hne, rfl⟩ := getElem?_eq_some.mp hm
      exact hne
  rw [hkeys, Finsupp.sum, hsupp, List.sum_toFinset _ ExtTreeMap.nodup_keys]
  rfl

theorem val_from_iter (it : List (K × Int)) :
    (from_iter it).val = (it.map fun e => Finsupp.single e.1 e.2).sum := by
  rw [from_iter, val_foldl_add, val_new, zero_add]

@[simp]
theorem val_add_assign (a b : Zset K) : (a.add_assign b).val = a.val + b.val := by
  rw [add_assign, val_foldl_add, sum_iter b fun k m => Finsupp.single k m, Finsupp.sum_single]

theorem get_add_assign (a b : Zset K) (k : K) :
    (a.add_assign b).get k = a.get k + b.get k := by
  rw [← val_apply, val_add_assign, Finsupp.add_apply, val_apply, val_apply]

end Zset

end horndb.incremental
