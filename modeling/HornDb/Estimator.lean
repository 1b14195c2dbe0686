-- The cardinality estimator of the join planner: a point estimate for a basic graph pattern, and
-- a bound that it is clamped to.
import HornDb.SnapshotStats

open HornDb.Lib
open Std (ExtTreeMap)

namespace horndb.wcoj

/-! ## Patterns -/

abbrev Var := Nat

/-- A slot of a pattern. -/
inductive Term where
  | Bound (id : TermId)
  | Var (v : Var)
deriving DecidableEq, Repr

namespace Term

def as_var : Term → Option horndb.wcoj.Var
  | .Bound _ => none
  | .Var v => some v

def as_bound : Term → Option TermId
  | .Bound id => some id
  | .Var _ => none

end Term

structure TriplePattern where
  s : Term
  p : Term
  o : Term
deriving DecidableEq, Repr

structure Estimate where
  estimate : Nat
  upper_bound : Nat
deriving DecidableEq, Repr

def UNBOUND_PRED_ONE_SIDE_DIVISOR : Nat := 25

def UNBOUND_PRED_BOTH_DIVISOR : Nat := 1000

/-- The largest 64-bit number. -/
def U64_MAX : Nat := 2 ^ 64 - 1

def saturating_mul (a b : Nat) : Nat := min (a * b) U64_MAX

def product (l : List Nat) : Nat := l.foldl saturating_mul 1

/-- `n` between two bounds. -/
def clamp (n lo hi : Nat) : Nat := min (max n lo) hi

/-! ## The statistics that an estimator reads -/

structure Stats where
  total_triples : Nat
  predicate_count : TermId → Nat
  distinct_predicates : Nat
  ndv : TermId → Position → Nat
  characteristic_sets : CharacteristicSetIndex
  max_degree : TermId → Position → Nat

def SnapshotStats.read (stats : SnapshotStats) : Stats where
  total_triples := stats.total
  predicate_count := stats.count_of
  distinct_predicates := stats.distinct_predicates
  ndv := stats.ndv
  characteristic_sets := stats.characteristic_sets
  max_degree := stats.degree_of

namespace Stats

variable (stats : Stats)

/-! ## One pattern -/

/-- How many triples a pattern is expected to match. -/
def pattern_base (pat : TriplePattern) : Nat :=
  let s_bound := pat.s.as_bound.isSome
  let o_bound := pat.o.as_bound.isSome
  let base :=
    match pat.p.as_bound with
    | some pid =>
      let b := stats.predicate_count pid
      let b := if s_bound then max (b / stats.ndv pid .Subject) 1 else b
      if o_bound then max (b / stats.ndv pid .Object) 1 else b
    | none =>
      let t := stats.total_triples
      match s_bound, o_bound with
      | false, false => t
      | true, false | false, true => max (t / UNBOUND_PRED_ONE_SIDE_DIVISOR) 1
      | true, true => max (t / UNBOUND_PRED_BOTH_DIVISOR) 1
  max base 1

/-- How many triples a pattern can match. -/
def pattern_upper (pat : TriplePattern) : Nat :=
  let upper :=
    match pat.p.as_bound with
    | some pid =>
      match pat.s.as_bound.isSome, pat.o.as_bound.isSome with
      | false, false => stats.predicate_count pid
      | true, false => stats.max_degree pid .Subject
      | false, true => stats.max_degree pid .Object
      | true, true => 1
    | none => stats.total_triples
  max upper 1

/-- The predicate of the pattern has no triple. -/
def is_structurally_empty (pat : TriplePattern) : Bool :=
  match pat.p.as_bound with
  | some pid => stats.predicate_count pid == 0
  | none => false

def estimate_pattern (pat : TriplePattern) : Estimate :=
  if stats.is_structurally_empty pat then ⟨0, 0⟩
  else
    let upper_bound := stats.pattern_upper pat
    ⟨max (min (stats.pattern_base pat) upper_bound) 1, upper_bound⟩

/-! ## Shared variables -/

/-- A place of a variable: its pattern, and the side it is on. The predicate has no side. -/
abbrev Occurrence := Nat × Option Position

def occurrences (patterns : List TriplePattern) : List (Var × Occurrence) :=
  patterns.zipIdx.flatMap fun (pat, idx) =>
    [(pat.s.as_var, some .Subject), (pat.p.as_var, none), (pat.o.as_var, some .Object)].filterMap
      fun (v, pos) => v.map fun v => (v, (idx, pos))

/-- The places of each variable that is in more than one pattern. -/
def shared_occurrences (patterns : List TriplePattern) : List (List Occurrence) :=
  let var_occ : ExtTreeMap Var (List Occurrence) :=
    fold_entries Prod.fst (fun e occs => occs.getD [] ++ [e.2]) (occurrences patterns) ∅
  (var_occ.toList.map Prod.snd).filter fun occs => 2 ≤ (occs.map Prod.fst).dedup.length

/-- The largest number of distinct values that a place of the variable can have. -/
def denominator (patterns : List TriplePattern) (bases : List Nat) (occs : List Occurrence) : Nat :=
  occs.foldl (fun d occ =>
    max d <|
      match occ.2 with
      | none => stats.distinct_predicates
      | some pos =>
        match patterns[occ.1]?.bind (·.p.as_bound) with
        | some pid => stats.ndv pid pos
        | none => bases.getD occ.1 0) 1

/-- Every row of a predicate has another value at some place of the variable. -/
def key_like (patterns : List TriplePattern) (occs : List Occurrence) : Bool :=
  occs.any fun occ =>
    match occ.2 with
    | none => false
    | some pos =>
      match patterns[occ.1]?.bind (·.p.as_bound) with
      | some pid => stats.ndv pid pos == stats.predicate_count pid
      | none => false

def denominator_estimate (patterns : List TriplePattern) : Nat :=
  let bases := patterns.map stats.pattern_base
  let shared := shared_occurrences patterns
  let denom_product := product (shared.map fun occs =>
    max (stats.denominator patterns bases occs) 1)
  let estimate := max (max (product bases) 1 / denom_product) 1
  let estimate := shared.foldl (fun estimate occs =>
    if stats.key_like patterns occs then
      match (occs.map fun occ => bases.getD occ.1 0).min? with
      | some min_base => min estimate min_base
      | none => estimate
    else estimate) estimate
  max estimate 1

/-! ## Stars -/

/-- A list in order contains another in order. -/
def sorted_subset : List TermId → List TermId → Bool
  | [], _ => true
  | x :: sub, sup =>
    match sup.dropWhile (· < x) with
    | [] => false
    | y :: rest => y == x && sorted_subset sub rest

def occ_in_set (cs : CharacteristicSet) (p : TermId) : Nat :=
  ((cs.occurrences.find? (·.1 == p)).map Prod.snd).getD 0

def residual_occ (index : CharacteristicSetIndex) (p : TermId) : Option Nat :=
  (index.residual_pred_occ.find? (·.1 == p)).map Prod.snd

/-- The mean for a variable object, and the chance of one object for a bound one. -/
def star_factor (p : TermId) (obj : Term) (m : Float) : Float :=
  match obj with
  | .Var _ => m
  | .Bound _ =>
    let chance := m / Float.ofNat (stats.ndv p .Object)
    if chance < 1.0 then chance else 1.0

def cs_star_estimate (star : List (TermId × Term)) (upper_bound : Nat) : Nat :=
  let index := stats.characteristic_sets
  let preds := star.map Prod.fst
  let est := index.sets.foldl (fun est cs =>
    if sorted_subset preds cs.predicates then
      let count := Float.ofNat cs.count
      est + count * star.foldl (fun factor e =>
        factor * stats.star_factor e.1 e.2 (Float.ofNat (occ_in_set cs e.1) / count)) 1.0
    else est) 0.0
  let subjects := Float.ofNat index.residual_subjects
  let tail := star.foldlM (fun factor e => do
    let occ ← residual_occ index e.1
    pure (factor * stats.star_factor e.1 e.2 (Float.ofNat occ / subjects))) 1.0
  let est :=
    match tail with
    | some factor => if 0 < index.residual_subjects then est + subjects * factor else est
    | none => est
  clamp est.round.toUInt64.toNat 1 upper_bound

/-- The predicates of a star so far, each with its object, and the variables of the objects. -/
def star_step (subj : Var) (acc : List (TermId × Term) × List Var) (pat : TriplePattern) :
    Option (List (TermId × Term) × List Var) := do
  guard (pat.s.as_var = some subj)
  let pid ← pat.p.as_bound
  guard (acc.1.all fun e => e.1 ≠ pid)
  match pat.o.as_var with
  | some ov =>
    guard (ov ≠ subj ∧ ov ∉ acc.2)
    pure (acc.1 ++ [(pid, pat.o)], ov :: acc.2)
  | none => pure (acc.1 ++ [(pid, pat.o)], acc.2)

/-- The predicates and objects of a star around one subject variable, with every predicate
once and every object free of the others. -/
def detect_pure_star (patterns : List TriplePattern) : Option (List (TermId × Term)) := do
  guard (2 ≤ patterns.length)
  let first ← patterns.head?
  let subj ← first.s.as_var
  let (preds, _) ← patterns.foldlM (star_step subj) ([], [])
  pure (preds.mergeSort fun a b => a.1 ≤ b.1)

/-! ## A basic graph pattern -/

/-- The product of what the patterns can match, as far as 64 bits go. -/
def cross_product (patterns : List TriplePattern) : Nat :=
  max (product (patterns.map stats.pattern_upper)) 1

def compute_bgp (patterns : List TriplePattern) : Estimate :=
  let upper_bound := stats.cross_product patterns
  let raw :=
    match detect_pure_star patterns with
    | some star => stats.cs_star_estimate star upper_bound
    | none => stats.denominator_estimate patterns
  ⟨clamp raw 1 upper_bound, upper_bound⟩

end Stats

/-- An estimator: the statistics and the estimates so far by the hash of their patterns. -/
structure StatsEstimator where
  stats : Stats
  memo : ExtTreeMap Nat Estimate

namespace StatsEstimator

def new (stats : Stats) : StatsEstimator := ⟨stats, ∅⟩

variable (bgp_key : List TriplePattern → Nat) (est : StatsEstimator)

def estimate_bgp (patterns : List TriplePattern) : Estimate × StatsEstimator :=
  match patterns with
  | [] => (⟨1, 1⟩, est)
  | [pat] => (est.stats.estimate_pattern pat, est)
  | _ =>
    if patterns.any est.stats.is_structurally_empty then (⟨0, 0⟩, est)
    else
      match est.memo[bgp_key patterns]? with
      | some cached => (cached, est)
      | none =>
        let result := est.stats.compute_bgp patterns
        (result, { est with memo := est.memo.insert (bgp_key patterns) result })

def estimate_bgp_fast (patterns : List TriplePattern) : Estimate × StatsEstimator :=
  if patterns.length ≤ 1 || patterns.any est.stats.is_structurally_empty then
    est.estimate_bgp bgp_key patterns
  else
    let upper_bound := est.stats.cross_product patterns
    (⟨clamp (est.stats.denominator_estimate patterns) 1 upper_bound, upper_bound⟩, est)

end StatsEstimator

end horndb.wcoj
