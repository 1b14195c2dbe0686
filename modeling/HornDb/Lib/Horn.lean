-- What a set of rule instances derives from a base, and what is left of it when
-- the base changes: the rows whose every derivation leans on a lost one are the
-- only ones that can go. Then how many rounds the instances need: what each round
-- has, when the rounds settle, and a loop of rounds that gives up after a bound.
import Mathlib

namespace HornDb.Lib.Horn

variable {α : Type*}

/-- What the instances `inst`, each a list of premises and a conclusion, derive from `base`. -/
inductive Derives (inst : List α → α → Prop) (base : α → Prop) : α → Prop where
  | base {t : α} (h : base t) : Derives inst base t
  | step {ps : List α} {t : α} (h : inst ps t) (hps : ∀ p ∈ ps, Derives inst base p) :
      Derives inst base t

variable {inst : List α → α → Prop}

/-- A set that holds the base and is closed under the instances holds all that is derived. -/
theorem Derives.least {base S : α → Prop} (hbase : ∀ t, base t → S t)
    (hstep : ∀ ps t, inst ps t → (∀ p ∈ ps, S p) → S t) {t : α} (h : Derives inst base t) :
    S t := by
  induction h with
  | base h => exact hbase _ h
  | step h _ ih => exact hstep _ _ h ih

/-- The rows an over-delete takes: its seeds, and every row of `old` it may take that has
an instance over `old` with a premise it took. -/
inductive Lost (inst : List α → α → Prop) (old seed free : α → Prop) : α → Prop where
  | seed {t : α} (h : seed t) : Lost inst old seed free t
  | step {ps : List α} {t p : α} (h : inst ps t) (hold : ∀ q ∈ ps, old q) (hp : p ∈ ps)
      (hlost : Lost inst old seed free p) (hfree : free t) : Lost inst old seed free t

/-- What an over-delete leaves is derived from any base that derives the rows it may not
take and the base rows it leaves. -/
theorem Derives.of_not_lost {old base base' seed free : α → Prop}
    (hold : ∀ t, old t → Derives inst base t) (hold' : ∀ t, Derives inst base t → old t)
    (hkept : ∀ t, old t → ¬ free t → Derives inst base' t)
    (hbase : ∀ t, base t → ¬ Lost inst old seed free t → Derives inst base' t)
    {t : α} (ht : old t) (hnot : ¬ Lost inst old seed free t) : Derives inst base' t := by
  have h := hold t ht
  clear ht
  induction h with
  | base h => exact hbase _ h hnot
  | @step ps t h hps ih =>
    by_cases hfree : free t
    · refine .step h fun p hp => ih p hp fun hlost => ?_
      exact hnot (.step h (fun q hq => hold' q (hps q hq)) hp hlost hfree)
    · exact hkept t (hold' t (.step h hps)) hfree

end HornDb.Lib.Horn

namespace HornDb.Lib.Horn

variable {α : Type*}

/-- What `n` rounds have: the base, and in each round the conclusions of the instances whose
premises the rounds before it have. -/
def Stage (inst : List α → α → Prop) (base : α → Prop) : Nat → α → Prop
  | 0, t => base t
  | n + 1, t => Stage inst base n t ∨ ∃ ps, inst ps t ∧ ∀ p ∈ ps, Stage inst base n p

/-- The first `n` rounds have all that is derived. -/
def SettlesIn (inst : List α → α → Prop) (base : α → Prop) (n : Nat) : Prop :=
  ∀ t, Derives inst base t → Stage inst base n t

variable {inst : List α → α → Prop} {base : α → Prop}

theorem Stage.derives {n : Nat} : ∀ {t : α}, Stage inst base n t → Derives inst base t := by
  induction n with
  | zero => exact fun h => .base h
  | succ n ih =>
    rintro t (h | ⟨ps, h, hps⟩)
    · exact ih h
    · exact .step h fun p hp => ih (hps p hp)

theorem Stage.base_mem {t : α} (h : base t) : ∀ n, Stage inst base n t
  | 0 => h
  | n + 1 => Or.inl (Stage.base_mem h n)

/-- The rounds have settled exactly when no instance leads out of them. -/
theorem settlesIn_iff {n : Nat} : SettlesIn inst base n ↔
    ∀ ps t, inst ps t → (∀ p ∈ ps, Stage inst base n p) → Stage inst base n t := by
  constructor
  · intro h ps t hinst hps
    exact h t (.step hinst fun p hp => (hps p hp).derives)
  · intro h t ht
    exact ht.least (fun u hu => Stage.base_mem hu n) h

/-- A round more at the start is a round more at the end. -/
theorem stage_shift (n : Nat) :
    ∀ t : α, Stage inst (Stage inst base 1) n t ↔ Stage inst base (n + 1) t := by
  induction n with
  | zero => exact fun t => Iff.rfl
  | succ n ih =>
    intro t
    rw [Stage, ih]
    simp only [ih]
    exact Iff.rfl

theorem settlesIn_shift {n : Nat} :
    SettlesIn inst (Stage inst base 1) n ↔ SettlesIn inst base (n + 1) := by
  rw [settlesIn_iff, settlesIn_iff]
  simp only [stage_shift]

theorem settlesIn_congr {base' : α → Prop} (h : ∀ t, base t ↔ base' t) {n : Nat} :
    SettlesIn inst base n ↔ SettlesIn inst base' n := by
  rw [show base = base' from funext fun t => propext (h t)]

/-- A closed base settles at once. -/
theorem SettlesIn.of_closed (h : ∀ ps t, inst ps t → (∀ p ∈ ps, base p) → base t) (n : Nat) :
    SettlesIn inst base n :=
  fun _ ht => Stage.base_mem (ht.least (fun _ => id) h) n

/-- The base settles at once exactly when one round brings nothing. -/
theorem settlesIn_zero : SettlesIn inst base 0 ↔ ∀ t, Stage inst base 1 t ↔ base t := by
  rw [settlesIn_iff]
  constructor
  · intro h t
    exact ⟨fun hs => hs.elim id fun ⟨ps, hinst, hps⟩ => h ps t hinst hps, Or.inl⟩
  · exact fun h ps t hinst hps => (h t).mp (Or.inr ⟨ps, hinst, hps⟩)

/-! ## Over-deletes -/

/-- The instances of an over-delete: one premise that was taken takes the conclusion. -/
def Takes (inst : List α → α → Prop) (old free : α → Prop) (ps : List α) (t : α) : Prop :=
  free t ∧ ∃ qs p, ps = [p] ∧ inst qs t ∧ (∀ q ∈ qs, old q) ∧ p ∈ qs

theorem lost_iff_derives {old seed free : α → Prop} {t : α} :
    Lost inst old seed free t ↔ Derives (Takes inst old free) seed t := by
  constructor
  · intro h
    induction h with
    | seed h => exact .base h
    | @step ps t p h hold hp _ hfree ih =>
      have hone : Takes inst old free [p] t := ⟨hfree, ps, p, rfl, h, hold, hp⟩
      refine .step hone fun q hq => ?_
      rw [List.mem_singleton.mp hq]
      exact ih
  · intro h
    refine h.least (fun _ => Lost.seed) ?_
    rintro ps t ⟨hfree, qs, p, rfl, hinst, hold, hp⟩ hlost
    exact .step hinst hold hp (hlost p List.mem_cons_self) hfree

/-! ## A loop of rounds -/

section Rounds

variable {σ : Type*}

/-- Run rounds until one is done, `fuel` of them at most. -/
def rounds (step : σ → σ) (done : σ → Bool) : Nat → σ → Option σ
  | 0, s => if done s then some s else none
  | fuel + 1, s => if done s then some s else rounds step done fuel (step s)

/-- A loop whose state always has one stage more ends within its bound if and only if the
stages settle one round earlier. -/
theorem rounds_isSome_iff {step : σ → σ} {done : σ → Bool} {I : σ → Prop} {S : σ → α → Prop}
    (hinv : ∀ s, I s → I (step s))
    (hstage : ∀ s, I s → ∀ t, S (step s) t ↔ Stage inst (S s) 1 t)
    (hdone : ∀ s, I s → (done (step s) = true ↔ ∀ t, S (step s) t ↔ S s t))
    (hclosed : ∀ s, I s → done s = true → ∀ ps t, inst ps t → (∀ p ∈ ps, S s p) → S s t)
    (fuel : Nat) : ∀ s, I s →
      ((rounds step done (fuel + 1) s).isSome = true ↔ SettlesIn inst (S s) fuel) := by
  induction fuel with
  | zero =>
    intro s hs
    rw [rounds]
    by_cases h : done s = true
    · rw [if_pos h]
      exact iff_of_true rfl (.of_closed (hclosed s hs h) 0)
    · rw [if_neg h, rounds, settlesIn_zero]
      simp only [← hstage s hs, ← hdone s hs]
      by_cases h' : done (step s) = true
      · simp [h']
      · simp [h']
  | succ fuel ih =>
    intro s hs
    rw [rounds]
    by_cases h : done s = true
    · rw [if_pos h]
      exact iff_of_true rfl (.of_closed (hclosed s hs h) _)
    · rw [if_neg h, ih (step s) (hinv s hs), settlesIn_congr (hstage s hs), settlesIn_shift]

end Rounds

end HornDb.Lib.Horn
