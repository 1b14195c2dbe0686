-- Arithmetic of 64-bit words that stops where the machine would: a sum or a product that does not
-- fit, a difference below zero, a shift by the whole width, an index behind the end. The bit
-- fields and the searches built on it run through as long as they stay inside.
import HornDb.Lib.BitStream
import HornDb.Lib.Collect
import HornDb.Lib.Splits

namespace HornDb.Lib.Checked

open BitStream Gallop

/-! ## Words -/

def add (a b : Nat) : Option Nat := if a + b < 2 ^ 64 then some (a + b) else none

def sub (a b : Nat) : Option Nat := if b ≤ a then some (a - b) else none

def mul (a b : Nat) : Option Nat := if a * b < 2 ^ 64 then some (a * b) else none

def shl (x : BitVec 64) (n : Nat) : Option (BitVec 64) := if n < 64 then some (x <<< n) else none

def shr (x : BitVec 64) (n : Nat) : Option (BitVec 64) := if n < 64 then some (x >>> n) else none

/-- Change the element at an index. -/
def update {α : Type} (l : List α) (i : Nat) (f : α → α) : Option (List α) :=
  if i < l.length then some (l.modify i f) else none

/-- The elements from `lo` on and in front of `hi`. -/
def segment {α : Type} (l : List α) (lo hi : Nat) : Option (List α) :=
  if lo ≤ hi ∧ hi ≤ l.length then some (slice l lo hi) else none

section Words

variable {a b n : Nat} {x : BitVec 64}

theorem add_eq (h : a + b < 2 ^ 64) : add a b = some (a + b) := if_pos h

theorem sub_eq (h : b ≤ a) : sub a b = some (a - b) := if_pos h

theorem mul_eq (h : a * b < 2 ^ 64) : mul a b = some (a * b) := if_pos h

theorem shl_eq (h : n < 64) : shl x n = some (x <<< n) := if_pos h

theorem shr_eq (h : n < 64) : shr x n = some (x >>> n) := if_pos h

theorem update_eq {α : Type} {l : List α} {i : Nat} {f : α → α} (h : i < l.length) :
    update l i f = some (l.modify i f) := if_pos h

theorem segment_eq {α : Type} {l : List α} {lo hi : Nat} (h : lo ≤ hi) (hhi : hi ≤ l.length) :
    segment l lo hi = some (slice l lo hi) := if_pos ⟨h, hhi⟩

end Words

/-! ## Bit fields -/

def checked_write (words : List (BitVec 64)) (w off bits : Nat) (delta : BitVec 64) :
    Option (List (BitVec 64)) := do
  let low ← shl delta off
  let words ← update words w (· ||| low)
  let stop ← add off bits
  if stop > 64 then do
    let high ← shr delta (← sub 64 off)
    update words (← add w 1) (· ||| high)
  else some words

def checked_mask (bits : Nat) : Option (BitVec 64) :=
  if bits = 64 then some (.allOnes 64)
  else do
    let one ← shl 1#64 bits
    let _ ← sub one.toNat 1
    some (one - 1)

def checked_read (words : List (BitVec 64)) (w off bits : Nat) : Option (BitVec 64) := do
  let mask ← checked_mask bits
  let v ← shr (← words[w]?) off
  let stop ← add off bits
  if stop > 64 then do
    let high ← shl (← words[← add w 1]?) (← sub 64 off)
    some ((v ||| high) &&& mask)
  else some (v &&& mask)

section Fields

variable {words : List (BitVec 64)} {w off bits : Nat}

theorem checked_write_eq {delta : BitVec 64} (hoff : off < 64) (hbits : bits ≤ 64)
    (hpos : 0 < bits) (hroom : 64 * w + off + bits ≤ 64 * words.length)
    (hlen : words.length < 2 ^ 64) :
    checked_write words w off bits delta = some (write words w off bits delta) := by
  have hw : w < words.length := by omega
  have hstop : off + bits < 2 ^ 64 := by omega
  unfold checked_write write
  simp only [shl_eq hoff, update_eq hw, add_eq hstop, Option.bind_eq_bind, Option.bind_some]
  split
  · have hback : 64 - off < 64 := by omega
    have hnext : w + 1 < 2 ^ 64 := by omega
    simp only [sub_eq (Nat.le_of_lt hoff), shr_eq hback, add_eq hnext, Option.bind_some]
    exact update_eq (by rw [List.length_modify]; omega)
  · rfl

theorem checked_mask_eq (hbits : bits ≤ 64) : checked_mask bits = some (mask bits) := by
  unfold checked_mask mask
  split
  · rfl
  · have hpos : 1 ≤ (1#64 <<< bits).toNat := by
      have hlt : 2 ^ bits < 2 ^ 64 := Nat.pow_lt_pow_right (by omega) (by omega)
      rw [BitVec.toNat_shiftLeft, BitVec.toNat_ofNat, Nat.shiftLeft_eq,
        Nat.one_mod_two_pow (by decide), Nat.one_mul, Nat.mod_eq_of_lt hlt]
      exact Nat.two_pow_pos bits
    have hshift : bits < 64 := by omega
    simp only [shl_eq hshift, sub_eq hpos, Option.bind_eq_bind, Option.bind_some]

theorem checked_read_eq (hoff : off < 64) (hbits : bits ≤ 64) (hpos : 0 < bits)
    (hroom : 64 * w + off + bits ≤ 64 * words.length) (hlen : words.length < 2 ^ 64) :
    checked_read words w off bits = some (BitStream.read words w off bits) := by
  have hget : ∀ i < words.length, words[i]? = some (words.getD i 0) := by
    intro i hi
    rw [List.getElem?_eq_getElem hi, List.getD_eq_getElem _ _ hi]
  have hstop : off + bits < 2 ^ 64 := by omega
  unfold checked_read BitStream.read
  simp only [checked_mask_eq hbits, hget w (by omega), shr_eq hoff, add_eq hstop,
    Option.bind_eq_bind, Option.bind_some]
  split
  · have hback : 64 - off < 64 := by omega
    have hnext : w + 1 < 2 ^ 64 := by omega
    simp only [add_eq hnext, hget (w + 1) (by omega), sub_eq (Nat.le_of_lt hoff), shl_eq hback,
      Option.bind_some]
  · rfl

end Fields

/-! ## Loops -/

/-- Steps from a state until one of them answers. None when a step stops, or there is no fuel. -/
def loop {σ ρ : Type} (step : σ → Option (σ ⊕ ρ)) : Nat → σ → Option ρ
  | 0, _ => none
  | fuel + 1, s => do
    match ← step s with
    | .inl s => loop step fuel s
    | .inr r => some r

/-- A step from `s` goes on in a state that is nearer the end, or it answers. -/
def Steps {σ ρ : Type} (inv : σ → Prop) (post : ρ → Prop) (size : σ → Nat)
    (next : Option (σ ⊕ ρ)) (s : σ) : Prop :=
  (∃ s', next = some (.inl s') ∧ inv s' ∧ size s' < size s) ∨ ∃ r, next = some (.inr r) ∧ post r

/-- A loop whose steps keep an invariant and come nearer the end answers. -/
theorem loop_some {σ ρ : Type} {step : σ → Option (σ ⊕ ρ)} (inv : σ → Prop) (post : ρ → Prop)
    (size : σ → Nat) (hstep : ∀ s, inv s → Steps inv post size (step s) s) {fuel : Nat} {s : σ}
    (h : inv s) (hfuel : size s < fuel) : ∃ r, loop step fuel s = some r ∧ post r := by
  induction fuel generalizing s with
  | zero => omega
  | succ fuel ih =>
    rcases hstep s h with ⟨s', hnext, hinv, hsize⟩ | ⟨r, hnext, hpost⟩
    · obtain ⟨r, hr, hpost⟩ := ih hinv (by omega)
      refine ⟨r, ?_, hpost⟩
      rw [loop, hnext]
      exact hr
    · refine ⟨r, ?_, hpost⟩
      rw [loop, hnext]
      rfl

/-! ## Bisection -/

def checked_bisect (below : Nat → Option Bool) : Nat → Nat → Nat → Option Nat
  | 0, a, _ => some a
  | fuel + 1, a, b =>
    if a < b then do
      let mid ← add a ((← sub b a) / 2)
      if ← below mid then checked_bisect below fuel (← add mid 1) b
      else checked_bisect below fuel a mid
    else some a

theorem checked_bisect_eq {test : Nat → Option Bool} {below : Nat → Bool} (fuel a b : Nat)
    (hb : b < 2 ^ 64) (htest : ∀ i, a ≤ i → i < b → test i = some (below i)) :
    checked_bisect test fuel a b = some (bisect below fuel a b) := by
  induction fuel generalizing a b with
  | zero => rfl
  | succ fuel ih =>
    rw [checked_bisect, bisect]
    split
    · rename_i hlt
      have hmid : a + (b - a) / 2 < 2 ^ 64 := by omega
      have hnext : a + (b - a) / 2 + 1 < 2 ^ 64 := by omega
      have hbelow := htest (a + (b - a) / 2) (Nat.le_add_right a _) (by omega)
      simp only [sub_eq (Nat.le_of_lt hlt), add_eq hmid, hbelow, Option.bind_eq_bind,
        Option.bind_some]
      split
      · rw [add_eq hnext, Option.bind_some]
        exact ih _ _ hb fun i h1 h2 => htest i (by omega) h2
      · exact ih _ _ (by omega) fun i h1 h2 => htest i h1 (by omega)
    · rfl

theorem bisect_mem (below : Nat → Bool) (fuel a b : Nat) (hab : a ≤ b) :
    a ≤ bisect below fuel a b ∧ bisect below fuel a b ≤ b := by
  induction fuel generalizing a b with
  | zero => exact ⟨le_refl a, hab⟩
  | succ fuel ih =>
    rw [bisect]
    split
    · dsimp only
      split
      · have h := ih (a + (b - a) / 2 + 1) b (by omega)
        exact ⟨by omega, h.2⟩
      · have h := ih a (a + (b - a) / 2) (by omega)
        exact ⟨h.1, by omega⟩
    · exact ⟨le_refl a, hab⟩

end HornDb.Lib.Checked
