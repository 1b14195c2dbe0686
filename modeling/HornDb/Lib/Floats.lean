-- Numbers of double precision: the order of those that are numbers, and the texts that are read
-- as one.
import Mathlib

open Float.Model (UnpackedFloat)
open Std (TransCmp)

namespace HornDb.Lib.Floats

/-! ## The order -/

/-- The order of two numbers. There is none with NaN. -/
def partial_cmp (x y : Float) : Option Ordering := x.toModel.compare y.toModel

/-- The kind of a number by its sign, and within a kind its exponent and its mantissa. -/
def rank : UnpackedFloat → Option (Int × Int × Int)
  | .notANumber => none
  | .infinity .negative => some (-2, 0, 0)
  | .finite .negative m e _ => some (-1, -e, -m)
  | .zero _ => some (0, 0, 0)
  | .finite .positive m e _ => some (1, e, m)
  | .infinity .positive => some (2, 0, 0)

def compare_ranks : Int × Int × Int → Int × Int × Int → Ordering :=
  compareLex (compareOn Prod.fst) (compareLex (compareOn (·.2.1)) (compareOn (·.2.2)))

instance : TransCmp compare_ranks :=
  inferInstanceAs (TransCmp (compareLex _ (compareLex _ _)))

theorem compare_cast (a b : Nat) : compare (a : Int) b = compare a b := by
  simp only [compare, compareOfLessAndEq, Int.ofNat_lt, Int.ofNat_inj]

theorem compare_neg (a b : Int) : compare (-a) (-b) = (compare a b).swap := by
  rw [← Std.OrientedOrd.eq_swap]
  simp only [compare, compareOfLessAndEq, Int.neg_lt_neg_iff, neg_inj, eq_comm]

theorem unpacked_compare (x y : UnpackedFloat) :
    x.compare y = (rank x).bind fun a => (rank y).map (compare_ranks a) := by
  rcases x with (_ | _) | _ | (_ | _) | ⟨_ | _, m, e, hm⟩ <;>
    rcases y with (_ | _) | _ | (_ | _) | ⟨_ | _, n, d, hn⟩ <;> try rfl
  · show some _ = some ((compare (-e) (-d)).then (compare (-(m : Int)) (-(n : Int))))
    rw [compare_neg, compare_neg, compare_cast, Ordering.swap_then]
  · show some _ = some ((compare e d).then (compare (m : Int) n))
    rw [compare_cast]

theorem rank_eq_none {x : UnpackedFloat} : rank x = none ↔ x.isNaN = true := by
  rcases x with (_ | _) | _ | (_ | _) | ⟨_ | _, m, e, hm⟩ <;> simp [rank, UnpackedFloat.isNaN]

/-- The order of two numbers, where NaN counts as equal to each. -/
def compare_numbers (x y : Float) : Ordering := (partial_cmp x y).getD .eq

theorem compare_numbers_nan {x y : Float} (h : x.isNaN = true ∨ y.isNaN = true) :
    compare_numbers x y = .eq := by
  unfold compare_numbers partial_cmp Float.Model.compare
  rw [unpacked_compare]
  rcases h with h | h
  · rw [rank_eq_none.mpr h]
    rfl
  · rw [rank_eq_none.mpr h]
    cases rank x.toModel.unpack <;> rfl

theorem compare_numbers_of_rank {x y : Float} {a b : Int × Int × Int}
    (hx : rank x.toModel.unpack = some a) (hy : rank y.toModel.unpack = some b) :
    compare_numbers x y = compare_ranks a b := by
  unfold compare_numbers partial_cmp Float.Model.compare
  rw [unpacked_compare, hx, hy]
  rfl

theorem exists_rank {x : Float} (h : x.isNaN = false) : ∃ a, rank x.toModel.unpack = some a := by
  refine Option.ne_none_iff_exists'.mp fun hnone => ?_
  rw [rank_eq_none] at hnone
  exact Bool.false_ne_true (h.symm.trans hnone)

theorem compare_numbers_swap (x y : Float) : compare_numbers x y = (compare_numbers y x).swap := by
  by_cases hx : x.isNaN = true
  · rw [compare_numbers_nan (.inl hx), compare_numbers_nan (.inr hx)]
    rfl
  by_cases hy : y.isNaN = true
  · rw [compare_numbers_nan (.inr hy), compare_numbers_nan (.inl hy)]
    rfl
  obtain ⟨a, ha⟩ := exists_rank (eq_false_of_ne_true hx)
  obtain ⟨b, hb⟩ := exists_rank (eq_false_of_ne_true hy)
  rw [compare_numbers_of_rank ha hb, compare_numbers_of_rank hb ha]
  exact Std.OrientedCmp.eq_swap

/-- A number between two others, itself no NaN, puts them in order. -/
theorem compare_numbers_trans {x y z : Float} (hy : y.isNaN = false)
    (hxy : (compare_numbers x y).isLE = true) (hyz : (compare_numbers y z).isLE = true) :
    (compare_numbers x z).isLE = true := by
  by_cases hx : x.isNaN = true
  · rw [compare_numbers_nan (.inl hx)]
    rfl
  by_cases hz : z.isNaN = true
  · rw [compare_numbers_nan (.inr hz)]
    rfl
  obtain ⟨a, ha⟩ := exists_rank (eq_false_of_ne_true hx)
  obtain ⟨b, hb⟩ := exists_rank hy
  obtain ⟨c, hc⟩ := exists_rank (eq_false_of_ne_true hz)
  rw [compare_numbers_of_rank ha hb] at hxy
  rw [compare_numbers_of_rank hb hc] at hyz
  rw [compare_numbers_of_rank ha hc]
  exact TransCmp.isLE_trans hxy hyz

/-! ## Texts -/

def is_digit (c : Char) : Bool := 0x30 ≤ c.toNat && c.toNat ≤ 0x39

def digits_value (ds : List Char) : Nat := ds.foldl (fun n c => 10 * n + (c.toNat - 0x30)) 0

/-- Whether a minus sign stands in front, and what comes after the sign. -/
def split_sign : List Char → Bool × List Char
  | '-' :: cs => (true, cs)
  | '+' :: cs => (false, cs)
  | cs => (false, cs)

/-- The exponent that a text ends in. An empty text has the exponent zero. -/
def parse_exponent : List Char → Option Int
  | [] => some 0
  | c :: cs =>
    let (negative, ds) := split_sign cs
    if (c = 'e' ∨ c = 'E') ∧ ds ≠ [] ∧ ds.all is_digit then
      some (if negative then -digits_value ds else digits_value ds)
    else none

/-- Digits with a point or without, and an exponent. -/
def parse_decimal (cs : List Char) : Option Float.Model :=
  let whole := cs.takeWhile is_digit
  let (part, rest) :=
    match cs.dropWhile is_digit with
    | '.' :: rest => (rest.takeWhile is_digit, rest.dropWhile is_digit)
    | rest => ([], rest)
  if whole = [] ∧ part = [] then none
  else (parse_exponent rest).map fun e =>
    .ofScientific (digits_value (whole ++ part)) (e - part.length)

def parse_magnitude (cs : List Char) : Option Float.Model :=
  let word := String.ofList (cs.map Char.toLower)
  if word = "inf" ∨ word = "infinity" then some (.pack (.infinity .positive))
  else if word = "nan" then some (.pack .notANumber)
  else parse_decimal cs

/-- The number that a text is read as, to the nearest that there is. -/
def parse (cs : List Char) : Option Float :=
  let (negative, cs) := split_sign cs
  (parse_magnitude cs).map fun x => .ofModel (if negative then -x else x)

end HornDb.Lib.Floats
