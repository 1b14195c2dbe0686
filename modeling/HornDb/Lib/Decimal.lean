-- Integers of any size as decimal text: the value of a sign and some digits, the text of a value
-- without needless zeros, and that each text of that form is the one of its value.
import Mathlib

namespace HornDb.Lib.Decimal

/-! ## Digits -/

theorem toNat_of_isDigit {c : Char} (h : c.isDigit = true) :
    48 ≤ c.toNat ∧ c.toNat ≤ 57 := by
  unfold Char.isDigit at h
  simp only [ge_iff_le, Bool.and_eq_true, decide_eq_true_eq] at h
  exact ⟨UInt32.le_iff_toNat_le.mp h.1, UInt32.le_iff_toNat_le.mp h.2⟩

theorem digitChar_of_isDigit {c : Char} (h : c.isDigit = true) :
    Nat.digitChar (c.toNat - 48) = c := by
  obtain ⟨hlo, hhi⟩ := toNat_of_isDigit h
  have hlt : c.toNat - 48 < 10 := by omega
  have hsame := Nat.toNat_digitChar_sub_48_of_lt_ten hlt
  have hdigit := toNat_of_isDigit (c := Nat.digitChar (c.toNat - 48)) (by
    rw [Nat.isDigit_digitChar]
    exact decide_eq_true hlt)
  exact Char.toNat_inj.mp (by omega)

/-- Zeros in front do not count. -/
theorem ofDigitChars_dropWhile_zero (ds : List Char) :
    Nat.ofDigitChars 10 (ds.dropWhile (· == '0')) 0 = Nat.ofDigitChars 10 ds 0 := by
  induction ds with
  | nil => rfl
  | cons c ds ih =>
    rw [List.dropWhile_cons]
    split
    · rename_i h
      rw [ih, beq_iff_eq.mp h, Nat.ofDigitChars_cons]
      rfl
    · rfl

theorem ofDigitChars_concat (ds : List Char) (c : Char) :
    Nat.ofDigitChars 10 (ds ++ [c]) 0 = 10 * Nat.ofDigitChars 10 ds 0 + (c.toNat - 48) := by
  rw [Nat.ofDigitChars_append, Nat.ofDigitChars_cons, Nat.ofDigitChars_nil]
  rfl

/-- Digits without a zero in front are those of their value, which is not zero. -/
theorem toDigits_ofDigitChars {ds : List Char} (hdigits : ∀ c ∈ ds, c.isDigit = true)
    (hne : ds ≠ []) (hhead : ds.head? ≠ some '0') :
    Nat.toDigits 10 (Nat.ofDigitChars 10 ds 0) = ds ∧ Nat.ofDigitChars 10 ds 0 ≠ 0 := by
  induction ds using List.reverseRecOn with
  | nil => exact absurd rfl hne
  | append_singleton front c ih =>
    have hc := hdigits c (by simp)
    obtain ⟨hlo, hhi⟩ := toNat_of_isDigit hc
    rw [ofDigitChars_concat]
    by_cases hfront : front = []
    · subst hfront
      have hzero : c.toNat - 48 ≠ 0 := by
        intro hz
        refine hhead ?_
        rw [← digitChar_of_isDigit hc, hz]
        rfl
      have hlt : c.toNat - 48 < 10 := by omega
      rw [Nat.ofDigitChars_nil, Nat.mul_zero, Nat.zero_add, Nat.toDigits_of_lt_base hlt,
        digitChar_of_isDigit hc]
      exact ⟨rfl, hzero⟩
    · rw [List.head?_append_of_ne_nil _ hfront] at hhead
      obtain ⟨htext, hpos⟩ := ih (fun d hd => hdigits d (by simp [hd])) hfront hhead
      generalize Nat.ofDigitChars 10 front 0 = n at htext hpos
      have hdiv : (10 * n + (c.toNat - 48)) / 10 = n := by omega
      have hmod : (10 * n + (c.toNat - 48)) % 10 = c.toNat - 48 := by omega
      rw [Nat.toDigits_of_base_le (by decide) (by omega), hdiv, hmod, htext,
        digitChar_of_isDigit hc]
      exact ⟨rfl, by omega⟩

/-! ## Signed numbers -/

/-- The text of a value. -/
def decimal (n : Int) : List Char :=
  if n < 0 then '-' :: Nat.toDigits 10 n.natAbs else Nat.toDigits 10 n.natAbs

/-- Whether the text has a minus sign, and what stands behind the sign, if there is one. -/
def split_sign : List Char → Bool × List Char
  | '-' :: rest => (true, rest)
  | '+' :: rest => (false, rest)
  | s => (false, s)

def all_digits (ds : List Char) : Bool := !ds.isEmpty && ds.all Char.isDigit

/-- The value of an optional sign with at least one digit behind it. -/
def value (s : List Char) : Option Int :=
  let (negative, digits) := split_sign s
  if all_digits digits then
    let n : Int := Nat.ofDigitChars 10 digits 0
    some (if negative then -n else n)
  else none

theorem all_digits_iff {ds : List Char} :
    all_digits ds = true ↔ ds ≠ [] ∧ ∀ c ∈ ds, c.isDigit = true := by
  unfold all_digits
  rw [Bool.and_eq_true, Bool.not_eq_true', List.isEmpty_eq_false_iff, List.all_eq_true]

theorem split_sign_of_digits {ds : List Char} (h : all_digits ds = true) :
    split_sign ds = (false, ds) := by
  obtain ⟨hne, hdigits⟩ := all_digits_iff.mp h
  unfold split_sign
  split
  · exact absurd (hdigits '-' List.mem_cons_self) (by decide)
  · exact absurd (hdigits '+' List.mem_cons_self) (by decide)
  · rfl

theorem all_digits_toDigits (n : Nat) : all_digits (Nat.toDigits 10 n) = true :=
  all_digits_iff.mpr ⟨Nat.toDigits_ne_nil, fun _ hc =>
    Nat.isDigit_of_mem_toDigits (by decide) (by decide) hc⟩

/-- A value is read back from its text. -/
theorem value_decimal (n : Int) : value (decimal n) = some n := by
  have hdigits := all_digits_toDigits n.natAbs
  unfold value decimal
  by_cases h : n < 0
  · rw [if_pos h]
    simp only [split_sign, hdigits, if_true, Nat.ofDigitChars_ten_toDigits, Option.some.injEq]
    omega
  · rw [if_neg h, split_sign_of_digits hdigits]
    simp only [hdigits, if_true, Nat.ofDigitChars_ten_toDigits, Option.some.injEq,
      Bool.false_eq_true, if_false]
    omega

theorem decimal_inj {m n : Int} : decimal m = decimal n ↔ m = n := by
  refine ⟨fun h => ?_, fun h => h ▸ rfl⟩
  have hvalue := congrArg value h
  rw [value_decimal, value_decimal, Option.some.injEq] at hvalue
  exact hvalue

end HornDb.Lib.Decimal
