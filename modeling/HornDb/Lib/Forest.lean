-- Forests given by the parent of each node, a root being its own parent. Shortening a path keeps
-- the roots, linking one root under another joins two classes, and joined pairs give the classes.
import Mathlib

open Relation

namespace HornDb.Lib.Forest

variable {α : Type*} {next : α → α}

/-- The measure falls along every link. -/
def Falls (depth : α → Nat) (next : α → α) : Prop := ∀ x, next x ≠ x → depth (next x) < depth x

/-- Some measure falls along every link, so no path comes back. -/
def Descends (next : α → α) : Prop := ∃ depth, Falls depth next

theorem exists_fixed (hd : Descends next) (x : α) : ∃ n, next (next^[n] x) = next^[n] x := by
  obtain ⟨depth, hdepth⟩ := hd
  induction h : depth x using Nat.strong_induction_on generalizing x with
  | _ d ih =>
    by_cases hx : next x = x
    · exact ⟨0, hx⟩
    · obtain ⟨n, hn⟩ := ih _ (h ▸ hdepth x hx) (next x) rfl
      exact ⟨n + 1, hn⟩

open Classical in
/-- The first node above `x` that is its own parent, `x` where there is none. -/
noncomputable def root (next : α → α) (x : α) : α :=
  if h : ∃ n, next (next^[n] x) = next^[n] x then next^[Nat.find h] x else x

theorem root_eq_iterate (hd : Descends next) (x : α) :
    ∃ n, root next x = next^[n] x ∧ next (next^[n] x) = next^[n] x := by
  classical
  have h := exists_fixed hd x
  refine ⟨Nat.find h, ?_, Nat.find_spec h⟩
  rw [root, dif_pos h]

theorem next_root (hd : Descends next) (x : α) : next (root next x) = root next x := by
  obtain ⟨n, hroot, hfix⟩ := root_eq_iterate hd x
  rw [hroot]
  exact hfix

/-- What is constant along links and tells a root is the root. -/
theorem root_unique (hd : Descends next) {f : α → α} (hstep : ∀ x, f (next x) = f x)
    (hfix : ∀ x, next x = x → f x = x) (x : α) : root next x = f x := by
  obtain ⟨n, hroot, hn⟩ := root_eq_iterate hd x
  have hclimb : ∀ n, f (next^[n] x) = f x := by
    intro n
    induction n with
    | zero => rfl
    | succ n ih => rw [Function.iterate_succ_apply', hstep, ih]
  rw [hroot, ← hclimb n]
  exact (hfix _ hn).symm

theorem root_of_fixed (hd : Descends next) {x : α} (h : next x = x) : root next x = x := by
  obtain ⟨n, hroot, -⟩ := root_eq_iterate hd x
  rw [hroot]
  exact Function.iterate_fixed h n

theorem root_next (hd : Descends next) (x : α) : root next (next x) = root next x := by
  obtain ⟨n, hroot, hfix⟩ := root_eq_iterate hd (next x)
  obtain ⟨m, hroot', hfix'⟩ := root_eq_iterate hd x
  have hup : ∀ {k : Nat} (j : Nat), next (next^[k] x) = next^[k] x →
      next^[j + k] x = next^[k] x := by
    intro k j hk
    rw [Function.iterate_add_apply]
    exact Function.iterate_fixed hk j
  rw [← Function.iterate_succ_apply] at hroot hfix
  rw [hroot, hroot', ← hup m hfix, ← hup (n + 1) hfix', Nat.add_comm]

/-- A path has no node twice, so it is no longer than the nodes below a root. -/
theorem iterate_card_fixed (hd : Descends next) {S : Finset α} (hS : ∀ x, next x ≠ x → x ∈ S)
    (x : α) : next (next^[S.card] x) = next^[S.card] x := by
  obtain ⟨depth, hdepth⟩ := hd
  by_contra hne
  have hlink : ∀ i ≤ S.card, next (next^[i] x) ≠ next^[i] x := by
    intro i hi heq
    apply hne
    rw [← Nat.sub_add_cancel hi, Function.iterate_add_apply, Function.iterate_fixed heq]
    exact heq
  have hdrop : ∀ i j, i < j → j ≤ S.card → depth (next^[j] x) < depth (next^[i] x) := by
    intro i j hij
    induction j, hij using Nat.le_induction with
    | base =>
      intro hj
      rw [Function.iterate_succ_apply']
      exact hdepth _ (hlink i (by omega))
    | succ j hij ih =>
      intro hj
      rw [Function.iterate_succ_apply']
      exact lt_trans (hdepth _ (hlink j (by omega))) (ih (by omega))
  have hcard : (Finset.range (S.card + 1)).card ≤ S.card := by
    refine Finset.card_le_card_of_injOn (fun i => next^[i] x) ?_ ?_
    · intro i hi
      exact hS _ (hlink i (Nat.lt_succ_iff.mp (Finset.mem_range.mp hi)))
    · intro i hi j hj heq
      rw [Finset.mem_coe, Finset.mem_range] at hi hj
      dsimp only at heq
      rcases lt_trichotomy i j with h | h | h
      · exact absurd (hdrop i j h (by omega)) (by rw [heq]; exact lt_irrefl _)
      · exact h
      · exact absurd (hdrop j i h (by omega)) (by rw [heq]; exact lt_irrefl _)
  rw [Finset.card_range] at hcard
  omega

/-- The number of links up to the root is a measure, and it is at most the number of nodes. -/
theorem exists_depth_le (hd : Descends next) {S : Finset α} (hS : ∀ x, next x ≠ x → x ∈ S) :
    ∃ depth, Falls depth next ∧ ∀ x, depth x ≤ S.card := by
  classical
  refine ⟨fun x => Nat.find (exists_fixed hd x), fun x hx => ?_, fun x => ?_⟩
  · dsimp only
    have hfix := Nat.find_spec (exists_fixed hd x)
    cases h : Nat.find (exists_fixed hd x) with
    | zero =>
      rw [h] at hfix
      exact absurd hfix hx
    | succ n =>
      rw [h, Function.iterate_succ_apply] at hfix
      exact Nat.lt_succ_of_le (Nat.find_min' _ hfix)
  · exact Nat.find_min' _ (iterate_card_fixed hd hS x)

/-! ## Updates of one link -/

variable [DecidableEq α]

theorem Falls.halve {depth : α → Nat} (hdepth : Falls depth next) (x : α) :
    Falls depth (Function.update next x (next (next x))) := by
  intro y hy
  rw [Function.update_apply] at hy ⊢
  split
  · rename_i h
    subst h
    rw [if_pos rfl] at hy
    have hstep : next y ≠ y := fun h => hy (by rw [h, h])
    by_cases hgrand : next (next y) = next y
    · rw [hgrand]
      exact hdepth y hstep
    · exact (hdepth _ hgrand).trans (hdepth y hstep)
  · rename_i h
    rw [if_neg h] at hy
    exact hdepth y hy

/-- Pointing a node at its grandparent changes no root. -/
theorem root_halve (hd : Descends next) (x y : α) :
    root (Function.update next x (next (next x))) y = root next y := by
  obtain ⟨depth, hdepth⟩ := hd
  have hd : Descends next := ⟨depth, hdepth⟩
  refine root_unique ⟨depth, hdepth.halve x⟩ ?_ ?_ y
  · intro y
    rw [Function.update_apply]
    split
    · rename_i h
      rw [h, root_next hd, root_next hd]
    · exact root_next hd y
  · intro y hy
    rw [Function.update_apply] at hy
    split at hy
    · rename_i h
      subst h
      -- a node that is its own grandparent is its own parent
      by_cases hstep : next y = y
      · exact root_of_fixed hd hstep
      · have hback := hdepth (next y) (by rw [hy]; exact fun h => hstep h.symm)
        rw [hy] at hback
        exact absurd hback (not_lt.mpr (hdepth y hstep).le)
    · exact root_of_fixed hd hy

/-- Linking one root under another puts its class there. -/
theorem link (hd : Descends next) {child top : α} (hchild : next child = child)
    (htop : next top = top) (hne : child ≠ top) :
    Descends (Function.update next child top) ∧
      ∀ x, root (Function.update next child top) x =
        if root next x = child then top else root next x := by
  have hrc := root_of_fixed hd hchild
  have hrt := root_of_fixed hd htop
  have hdesc : Descends (Function.update next child top) := by
    have hd' := hd
    obtain ⟨depth, hdepth⟩ := hd
    refine ⟨fun x => if root next x = child then depth x + depth top + 1 else depth x, ?_⟩
    intro x hx
    rw [Function.update_apply] at hx ⊢
    dsimp only
    split at hx
    · rename_i h
      subst h
      rw [if_pos rfl, hrt, if_neg hne.symm, if_pos hrc]
      omega
    · rename_i h
      rw [if_neg h, root_next hd']
      have := hdepth x hx
      split <;> omega
  refine ⟨hdesc, root_unique hdesc ?_ ?_⟩
  · intro x
    rw [Function.update_apply]
    split
    · rename_i h
      subst h
      rw [hrt, if_neg hne.symm, hrc, if_pos rfl]
    · rw [root_next hd]
  · intro x hx
    rw [Function.update_apply] at hx
    split at hx
    · rename_i h
      subst h
      exact absurd hx.symm hne
    · rename_i h
      rw [root_of_fixed hd hx, if_neg h]

/-! ## Joined pairs -/

omit [DecidableEq α] in
/-- A node of no pair is connected to itself only. -/
theorem eqvGen_ends {R : α → α → Prop} {P : α → Prop} (hends : ∀ x y, R x y → P x ∧ P y) {x y : α}
    (h : EqvGen R x y) : x = y ∨ (P x ∧ P y) := by
  induction h with
  | rel x y h => exact Or.inr (hends x y h)
  | refl x => exact Or.inl rfl
  | symm x y _ ih => exact ih.imp Eq.symm And.symm
  | trans x y z _ _ hxy hyz =>
    rcases hxy with rfl | ⟨hx, hy⟩
    · exact hyz
    · rcases hyz with rfl | ⟨-, hz⟩
      · exact Or.inr ⟨hx, hy⟩
      · exact Or.inr ⟨hx, hz⟩

omit [DecidableEq α] in
/-- One more pair joins the classes of its ends. -/
theorem eqvGen_join {R : α → α → Prop} (a b x y : α) :
    EqvGen (fun u v => R u v ∨ (u = a ∧ v = b)) x y ↔
      EqvGen R x y ∨ (EqvGen R x a ∧ EqvGen R b y) ∨ (EqvGen R x b ∧ EqvGen R a y) := by
  have hold : ∀ {x y}, EqvGen R x y → EqvGen (fun u v => R u v ∨ (u = a ∧ v = b)) x y :=
    fun h => h.mono fun _ _ => Or.inl
  have hab : EqvGen (fun u v => R u v ∨ (u = a ∧ v = b)) a b := .rel a b (Or.inr ⟨rfl, rfl⟩)
  constructor
  · intro h
    induction h with
    | rel x y h =>
      rcases h with h | ⟨rfl, rfl⟩
      · exact Or.inl (.rel x y h)
      · exact Or.inr (Or.inl ⟨.refl x, .refl y⟩)
    | refl x => exact Or.inl (.refl x)
    | symm x y _ ih =>
      rcases ih with h | ⟨h, h'⟩ | ⟨h, h'⟩
      · exact Or.inl h.symm
      · exact Or.inr (Or.inr ⟨h'.symm, h.symm⟩)
      · exact Or.inr (Or.inl ⟨h'.symm, h.symm⟩)
    | trans x y z _ _ hxy hyz =>
      rcases hxy with h | ⟨h, h'⟩ | ⟨h, h'⟩
      · rcases hyz with k | ⟨k, k'⟩ | ⟨k, k'⟩
        · exact Or.inl (h.trans _ _ _ k)
        · exact Or.inr (Or.inl ⟨h.trans _ _ _ k, k'⟩)
        · exact Or.inr (Or.inr ⟨h.trans _ _ _ k, k'⟩)
      · rcases hyz with k | ⟨-, k'⟩ | ⟨-, k'⟩
        · exact Or.inr (Or.inl ⟨h, h'.trans _ _ _ k⟩)
        · exact Or.inr (Or.inl ⟨h, k'⟩)
        · exact Or.inl (h.trans _ _ _ k')
      · rcases hyz with k | ⟨-, k'⟩ | ⟨-, k'⟩
        · exact Or.inr (Or.inr ⟨h, h'.trans _ _ _ k⟩)
        · exact Or.inl (h.trans _ _ _ k')
        · exact Or.inr (Or.inr ⟨h, k'⟩)
  · rintro (h | ⟨h, h'⟩ | ⟨h, h'⟩)
    · exact hold h
    · exact ((hold h).trans _ _ _ hab).trans _ _ _ (hold h')
    · exact ((hold h).trans _ _ _ hab.symm).trans _ _ _ (hold h')

end HornDb.Lib.Forest
