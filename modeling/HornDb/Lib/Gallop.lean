-- Galloping search for the first index that a predicate on indices lets go of: double the
-- stride until the index is bracketed, then bisect the bracket.
import Mathlib

namespace HornDb.Lib.Gallop

/-- Step out from `lo` by a doubling stride, to an end of the bracket that is not below. -/
def stride (below : Nat → Bool) (n : Nat) : Nat → Nat → Nat → Nat × Nat
  | 0, lo, _ => (lo, n)
  | fuel + 1, lo, step =>
    let hi := min (lo + step) n
    if hi < n && below hi then stride below n fuel hi (step * 2) else (lo, hi)

def bisect (below : Nat → Bool) : Nat → Nat → Nat → Nat
  | 0, a, _ => a
  | fuel + 1, a, b =>
    if a < b then
      let mid := a + (b - a) / 2
      if below mid then bisect below fuel (mid + 1) b else bisect below fuel a mid
    else a

/-- The first index from `start` on that is not below, at most `n`. -/
def search (below : Nat → Bool) (n start : Nat) : Nat :=
  if n ≤ start || !below start then min start n
  else
    let (lo, hi) := stride below n n start 1
    bisect below n (lo + 1) hi

variable {below : Nat → Bool}

/-- A stride ends in a window: its left end is the start or below, and its right end is not
below. -/
theorem stride_window (below : Nat → Bool) {n : Nat} (fuel lo step : Nat) (hn : lo < n)
    (hstep : 0 < step) (hfuel : n ≤ lo + fuel) :
    let out := stride below n fuel lo step
    lo ≤ out.1 ∧ out.1 < out.2 ∧ out.2 ≤ n ∧ (out.1 = lo ∨ below out.1 = true) ∧
      (out.2 < n → below out.2 = false) := by
  induction fuel generalizing lo step with
  | zero => omega
  | succ fuel ih =>
    rw [stride]
    dsimp only
    split
    · rename_i h
      rw [Bool.and_eq_true, decide_eq_true_eq] at h
      obtain ⟨h1, h2, h3, h4, h5⟩ := ih (min (lo + step) n) (step * 2) h.1 (by omega) (by omega)
      refine ⟨by omega, h2, h3, Or.inr ?_, h5⟩
      rcases h4 with h4 | h4
      · rw [h4]
        exact h.2
      · exact h4
    · rename_i h
      refine ⟨le_refl _, by dsimp only; omega, Nat.min_le_right _ _, Or.inl rfl, fun hlt => ?_⟩
      by_contra hb
      refine h (Bool.and_eq_true_iff.mpr ⟨decide_eq_true hlt, ?_⟩)
      rwa [Bool.not_eq_false] at hb

/-- From a start that is below, the left end is below. -/
theorem stride_spec {n : Nat} (fuel lo step : Nat) (hlo : below lo = true) (hn : lo < n)
    (hstep : 0 < step) (hfuel : n ≤ lo + fuel) :
    let out := stride below n fuel lo step
    lo ≤ out.1 ∧ out.1 < out.2 ∧ out.2 ≤ n ∧ below out.1 = true ∧
      (out.2 < n → below out.2 = false) := by
  obtain ⟨h1, h2, h3, h4, h5⟩ := stride_window below fuel lo step hn hstep hfuel
  refine ⟨h1, h2, h3, h4.elim (fun heq => ?_) id, h5⟩
  rw [heq]
  exact hlo

/-- Bisection keeps what is left of it below and what is right of it not below. -/
theorem bisect_spec (hmono : ∀ i j, i ≤ j → below j = true → below i = true) {n : Nat}
    (fuel a b : Nat) (hab : a ≤ b) (hfuel : b ≤ a + fuel) (ha : ∀ i < a, below i = true)
    (hb : b < n → below b = false) :
    let r := bisect below fuel a b
    a ≤ r ∧ r ≤ b ∧ (∀ i < r, below i = true) ∧ (r < n → below r = false) := by
  induction fuel generalizing a b with
  | zero =>
    obtain rfl : a = b := by omega
    exact ⟨le_refl _, le_refl _, ha, hb⟩
  | succ fuel ih =>
    rw [bisect]
    split
    · dsimp only
      split
      · rename_i hm
        obtain ⟨h1, h2, h3, h4⟩ := ih (a + (b - a) / 2 + 1) b (by omega) (by omega)
          (fun i hi => hmono i _ (by omega) hm) hb
        exact ⟨by omega, h2, h3, h4⟩
      · rename_i hm
        obtain ⟨h1, h2, h3, h4⟩ := ih a (a + (b - a) / 2) (by omega) (by omega) ha
          (fun _ => Bool.not_eq_true _ ▸ hm)
        exact ⟨h1, by omega, h3, h4⟩
    · obtain rfl : a = b := by omega
      exact ⟨le_refl _, le_refl _, ha, hb⟩

/-- All that is left of the found index is below, and the index itself is not. -/
theorem search_spec (hmono : ∀ i j, i ≤ j → below j = true → below i = true) {n start : Nat}
    (hstart : start ≤ n) (hbefore : ∀ i < start, below i = true) :
    let r := search below n start
    start ≤ r ∧ r ≤ n ∧ (∀ i < r, below i = true) ∧ (r < n → below r = false) := by
  unfold search
  split
  · rename_i h
    rw [Nat.min_eq_left hstart]
    refine ⟨le_refl _, hstart, hbefore, fun hlt => ?_⟩
    rw [Bool.or_eq_true, decide_eq_true_eq, Bool.not_eq_true'] at h
    exact h.resolve_left (by omega)
  · rename_i h
    rw [Bool.or_eq_true, decide_eq_true_eq, Bool.not_eq_true', not_or, Bool.not_eq_false] at h
    obtain ⟨h1, h2, h3, h4, h5⟩ :=
      stride_spec (n := n) n start 1 h.2 (by omega) (by omega) (by omega)
    generalize stride below n n start 1 = out at *
    obtain ⟨lo, hi⟩ := out
    dsimp only at *
    obtain ⟨g1, g2, g3, g4⟩ := bisect_spec hmono (n := n) n (lo + 1) hi (by omega) (by omega)
      (fun i hi => hmono i lo (by omega) h4) h5
    exact ⟨by omega, by omega, g3, g4⟩

end HornDb.Lib.Gallop
