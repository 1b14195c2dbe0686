-- Sums weighted by a function of finite support, and the product of two such
-- functions along a partial pairing of their points: it is linear on both sides,
-- and with counts that are not negative it grows with them.
import Mathlib

namespace HornDb.Lib.Pairing

variable {κ ι μ : Type*}

/-- The sum of `f` over the points of `a`, each weighed by its count. -/
noncomputable def weigh (a : κ →₀ ℤ) (f : κ → ℤ) : ℤ := a.sum fun x m => m * f x

/-- The product of two counts along a pairing: the count of `z` collects the products of
the counts of all pairs that give `z`. -/
noncomputable def pairing (g : κ → ι → Option μ) (a : κ →₀ ℤ) (b : ι →₀ ℤ) : μ →₀ ℤ :=
  a.sum fun x m => b.sum fun y n => (g x y).elim 0 fun z => Finsupp.single z (m * n)

/-! ## Linearity -/

theorem weigh_add (a b : κ →₀ ℤ) (f : κ → ℤ) : weigh (a + b) f = weigh a f + weigh b f :=
  Finsupp.sum_add_index' (fun _ => zero_mul _) fun _ _ _ => add_mul _ _ _

@[simp]
theorem weigh_zero (f : κ → ℤ) : weigh 0 f = 0 := Finsupp.sum_zero_index

theorem weigh_single (x : κ) (m : ℤ) (f : κ → ℤ) : weigh (Finsupp.single x m) f = m * f x :=
  Finsupp.sum_single_index (zero_mul _)

theorem weigh_sum {S : Type*} (s : Finset S) (h : S → κ →₀ ℤ) (f : κ → ℤ) :
    weigh (∑ i ∈ s, h i) f = ∑ i ∈ s, weigh (h i) f := by
  induction s using Finset.cons_induction with
  | empty => simp
  | cons i s hi ih => rw [Finset.sum_cons, Finset.sum_cons, weigh_add, ih]

theorem weigh_indicator [DecidableEq κ] (a : κ →₀ ℤ) (t : κ) :
    weigh a (fun x => if x = t then 1 else 0) = a t := by
  simp only [weigh, mul_ite, mul_one, mul_zero]
  rw [Finsupp.sum_ite_eq']
  split
  · rfl
  · rename_i h
    exact (Finsupp.notMem_support_iff.mp h).symm

theorem pairing_add_left (g : κ → ι → Option μ) (a a' : κ →₀ ℤ) (b : ι →₀ ℤ) :
    pairing g (a + a') b = pairing g a b + pairing g a' b := by
  refine Finsupp.sum_add_index' (fun x => ?_) fun x m n => ?_
  · refine Finset.sum_eq_zero fun y _ => ?_
    dsimp only
    cases g x y <;> simp
  · rw [← Finsupp.sum_add]
    refine Finsupp.sum_congr fun y _ => ?_
    cases g x y <;> simp [add_mul]

theorem pairing_add_right (g : κ → ι → Option μ) (a : κ →₀ ℤ) (b b' : ι →₀ ℤ) :
    pairing g a (b + b') = pairing g a b + pairing g a b' := by
  rw [pairing, pairing, pairing, ← Finsupp.sum_add]
  refine Finsupp.sum_congr fun x _ => ?_
  refine Finsupp.sum_add_index' (fun y => ?_) fun y m n => ?_
  · cases g x y <;> simp
  · cases g x y <;> simp [mul_add]

/-- Only the points that pair with something matter. -/
theorem pairing_congr {g : κ → ι → Option μ} {a a' : κ →₀ ℤ} {b b' : ι →₀ ℤ}
    (ha : ∀ x, a x = a' x ∨ ∀ y, g x y = none) (hb : ∀ y, b y = b' y ∨ ∀ x, g x y = none) :
    pairing g a b = pairing g a' b' := by
  classical
  have hsum : ∀ (a : κ →₀ ℤ) (b : ι →₀ ℤ) (s : Finset κ) (t : Finset ι), a.support ⊆ s →
      b.support ⊆ t → pairing g a b =
        ∑ x ∈ s, ∑ y ∈ t, (g x y).elim 0 fun z => Finsupp.single z (a x * b y) := by
    intro a b s t hs ht
    rw [pairing, Finsupp.sum_of_support_subset a hs]
    · refine Finset.sum_congr rfl fun x _ => ?_
      rw [Finsupp.sum_of_support_subset b ht]
      intro y _
      cases g x y <;> simp
    · intro x _
      refine Finset.sum_eq_zero fun y _ => ?_
      dsimp only
      cases g x y <;> simp
  rw [hsum a b (a.support ∪ a'.support) (b.support ∪ b'.support) Finset.subset_union_left
      Finset.subset_union_left,
    hsum a' b' (a.support ∪ a'.support) (b.support ∪ b'.support) Finset.subset_union_right
      Finset.subset_union_right]
  refine Finset.sum_congr rfl fun x _ => Finset.sum_congr rfl fun y _ => ?_
  rcases ha x with hx | hx
  · rcases hb y with hy | hy
    · rw [hx, hy]
    · rw [hy x, Option.elim_none, Option.elim_none]
  · rw [hx y, Option.elim_none, Option.elim_none]

/-- Weighing a product is weighing the left side by what the right side gives. -/
theorem weigh_pairing (g : κ → ι → Option μ) (a : κ →₀ ℤ) (b : ι →₀ ℤ) (f : μ → ℤ) :
    weigh (pairing g a b) f = weigh a fun x => weigh b fun y => (g x y).elim 0 f := by
  rw [pairing, Finsupp.sum, weigh_sum, weigh, Finsupp.sum]
  refine Finset.sum_congr rfl fun x _ => ?_
  rw [Finsupp.sum, weigh_sum, weigh, Finsupp.sum, Finset.mul_sum]
  refine Finset.sum_congr rfl fun y _ => ?_
  cases g x y with
  | none => simp
  | some z => rw [Option.elim_some, Option.elim_some, weigh_single, mul_assoc]

/-! ## Order -/

theorem weigh_eq_sum {a : κ →₀ ℤ} {s : Finset κ} (h : a.support ⊆ s) (f : κ → ℤ) :
    weigh a f = ∑ x ∈ s, a x * f x :=
  Finsupp.sum_of_support_subset a h _ fun _ _ => zero_mul _

theorem weigh_congr {a : κ →₀ ℤ} {f f' : κ → ℤ} (h : ∀ x, a x ≠ 0 → f x = f' x) :
    weigh a f = weigh a f' :=
  Finsupp.sum_congr fun x hx => by rw [h x (Finsupp.mem_support_iff.mp hx)]

theorem weigh_nonneg {a : κ →₀ ℤ} {f : κ → ℤ} (ha : ∀ x, 0 ≤ a x) (hf : ∀ x, 0 ≤ f x) :
    0 ≤ weigh a f :=
  Finset.sum_nonneg fun x _ => mul_nonneg (ha x) (hf x)

theorem weigh_pos_iff {a : κ →₀ ℤ} {f : κ → ℤ} (ha : ∀ x, 0 ≤ a x) (hf : ∀ x, 0 ≤ f x) :
    0 < weigh a f ↔ ∃ x, 0 < a x ∧ 0 < f x := by
  constructor
  · intro h
    obtain ⟨x, _, hx⟩ := Finset.exists_lt_of_sum_lt
      (show ∑ x ∈ a.support, (0 : ℤ) < ∑ x ∈ a.support, a x * f x by rwa [Finset.sum_const_zero])
    exact ⟨x, pos_of_mul_pos_left hx (hf x), pos_of_mul_pos_right hx (ha x)⟩
  · rintro ⟨x, hax, hfx⟩
    refine Finset.sum_pos' (fun y _ => mul_nonneg (ha y) (hf y)) ⟨x, ?_, mul_pos hax hfx⟩
    rw [Finsupp.mem_support_iff]
    exact hax.ne'

/-- More counts of larger values weigh at least as much, and more exactly when one
point does. -/
theorem weigh_le_and_lt_iff (a a' : κ →₀ ℤ) (f f' : κ → ℤ) (h : ∀ x, a x * f x ≤ a' x * f' x) :
    weigh a f ≤ weigh a' f' ∧
      (weigh a f < weigh a' f' ↔ ∃ x, a x * f x < a' x * f' x) := by
  classical
  have hs := weigh_eq_sum (@Finset.subset_union_left _ _ a.support a'.support) f
  have hs' := weigh_eq_sum (@Finset.subset_union_right _ _ a.support a'.support) f'
  rw [hs, hs']
  refine ⟨Finset.sum_le_sum fun x _ => h x, ?_, ?_⟩
  · intro hlt
    obtain ⟨x, _, hx⟩ := Finset.exists_lt_of_sum_lt hlt
    exact ⟨x, hx⟩
  · rintro ⟨x, hx⟩
    refine Finset.sum_lt_sum (fun y _ => h y) ⟨x, ?_, hx⟩
    rw [Finset.mem_union, Finsupp.mem_support_iff, Finsupp.mem_support_iff]
    by_contra hno
    rw [not_or, not_not, not_not] at hno
    rw [hno.1, hno.2, zero_mul, zero_mul] at hx
    exact lt_irrefl _ hx

end HornDb.Lib.Pairing
