-- Triples, their order, the kinds of a derivation and the patterns of a rule, and the
-- pending records between ticks. The tag of a derivation kind is what the durable log
-- keeps of it.
import Mathlib

open Std

namespace horndb.incremental

/-- A triple of dictionary ids, ordered as a tuple. -/
structure TripleId where
  s : Nat
  p : Nat
  o : Nat
deriving DecidableEq, Repr

namespace TripleId

def order : TripleId → TripleId → Ordering :=
  compareLex (compareOn TripleId.s)
    (compareLex (compareOn TripleId.p) (compareOn TripleId.o))

instance : Ord TripleId := ⟨order⟩

instance : TransOrd TripleId :=
  inferInstanceAs (TransCmp (compareLex (compareOn TripleId.s)
    (compareLex (compareOn TripleId.p) (compareOn TripleId.o))))

instance : LawfulEqOrd TripleId where
  eq_of_compare := by
    intro a b h
    obtain ⟨s, p, o⟩ := a
    obtain ⟨s', p', o'⟩ := b
    rw [show compare (TripleId.mk s p o) ⟨s', p', o'⟩ =
      (compare s s').then ((compare p p').then (compare o o')) from rfl,
      Ordering.then_eq_eq, Ordering.then_eq_eq] at h
    obtain ⟨hs, hp, ho⟩ := h
    rw [LawfulEqOrd.eq_of_compare hs, LawfulEqOrd.eq_of_compare hp,
      LawfulEqOrd.eq_of_compare ho]

end TripleId

abbrev LogicalTime := Nat
abbrev RuleId := Nat

/-- How a row came to be. The kinds sort in the order they are declared, rules by id. -/
inductive DerivationKind where
  | Asserted
  | RuleInferred (rule : RuleId)
  | ClosureInferred
deriving DecidableEq, Repr

namespace DerivationKind

def variant : DerivationKind → Nat
  | .Asserted => 0
  | .RuleInferred _ => 1
  | .ClosureInferred => 2

def rule : DerivationKind → Nat
  | .RuleInferred r => r
  | _ => 0

theorem eq_of_variant_rule {a b : DerivationKind} (hv : a.variant = b.variant)
    (hr : a.rule = b.rule) : a = b := by
  cases a <;> cases b <;> simp_all [variant, rule]

end DerivationKind

/-- The key of a derived record before it is published: the row, then the kind. -/
structure EmitKey where
  triple : TripleId
  kind : DerivationKind
deriving DecidableEq, Repr

namespace EmitKey

def order : EmitKey → EmitKey → Ordering :=
  compareLex (compareOn EmitKey.triple)
    (compareLex (compareOn fun k => k.kind.variant) (compareOn fun k => k.kind.rule))

instance : Ord EmitKey := ⟨order⟩

instance : TransOrd EmitKey :=
  inferInstanceAs (TransCmp (compareLex (compareOn EmitKey.triple)
    (compareLex (compareOn fun k => k.kind.variant) (compareOn fun k => k.kind.rule))))

instance : LawfulEqOrd EmitKey where
  eq_of_compare := by
    intro a b h
    obtain ⟨t, k⟩ := a
    obtain ⟨t', k'⟩ := b
    rw [show compare (EmitKey.mk t k) ⟨t', k'⟩ =
      (compare t t').then ((compare k.variant k'.variant).then (compare k.rule k'.rule)) from rfl,
      Ordering.then_eq_eq, Ordering.then_eq_eq] at h
    obtain ⟨ht, hv, hr⟩ := h
    rw [LawfulEqOrd.eq_of_compare ht, DerivationKind.eq_of_variant_rule
      (LawfulEqOrd.eq_of_compare hv) (LawfulEqOrd.eq_of_compare hr)]

end EmitKey

structure DeltaRecord where
  triple : TripleId
  mult : Int
  time : LogicalTime
  kind : DerivationKind
deriving DecidableEq, Repr

/-- One slot of a triple pattern. -/
inductive Term where
  | Bound (id : Nat)
  | Var (v : Nat)
deriving DecidableEq, Repr

def Term.as_bound : Term → Option Nat
  | .Bound id => some id
  | .Var _ => none

structure TriplePattern where
  s : Term
  p : Term
  o : Term
deriving DecidableEq, Repr

end horndb.incremental

namespace horndb.incremental

structure DeltaLog where
  records : List DeltaRecord
  next_time : LogicalTime
deriving DecidableEq, Repr

namespace DeltaLog

def new : DeltaLog := ⟨[], 0⟩

/-- Append a record at the next logical time. -/
def append (log : DeltaLog) (triple : TripleId) (mult : Int) (kind : DerivationKind) :
    DeltaLog :=
  ⟨log.records ++ [⟨triple, mult, log.next_time, kind⟩], log.next_time + 1⟩

/-- The log after its pending records are moved out. -/
def take_pending (log : DeltaLog) : DeltaLog := { log with records := [] }

end DeltaLog

end horndb.incremental
