-- The list rules: hand written joins over lists of any length. Each takes the delta of the round
-- and puts the heads that it finds into it, with what they were found from.
import HornDb.MemStore
import HornDb.Lib.Collect

open Std (ExtTreeSet)
open HornDb.Lib

namespace horndb.owlrl

/-! ## The list axioms -/

/-- The list axioms of a schema, resolved once from the triples of a store. -/
structure SchemaAxioms where
  property_chains : List (TermId × List TermId)
  keys : List (TermId × List TermId)
  /-- Each with the head of the list that declares it. -/
  intersections : List (TermId × TermId × List TermId)
  unions : List (TermId × List TermId)
  all_disjoint_classes : List (List TermId)
  all_disjoint_properties : List (List TermId)
  /-- The node, the predicate that carries its list, the head of the list, and the members. -/
  all_different : List (TermId × TermId × TermId × List TermId)
  max_card_restrictions : List MaxCardRestriction
  qual_max_card_restrictions : List QualMaxCardRestriction
deriving DecidableEq, Repr

namespace SchemaAxioms

def is_empty (ax : SchemaAxioms) : Bool :=
  ax.property_chains.isEmpty && ax.keys.isEmpty && ax.intersections.isEmpty &&
    ax.unions.isEmpty && ax.all_disjoint_classes.isEmpty && ax.all_disjoint_properties.isEmpty &&
    ax.all_different.isEmpty && ax.max_card_restrictions.isEmpty &&
    ax.qual_max_card_restrictions.isEmpty

end SchemaAxioms

/-! ## The work pool -/

inductive ParallelStrategy where
  | Auto
  | Serial
deriving DecidableEq, Repr

def PAR_TYPE_THRESHOLD : Nat := 256

/-- The pool of threads cuts a list into pieces as it likes and joins what it collected from
them in their order. -/
structure Pool where
  pieces {α : Type} : List α → List (List α)
  joined {α : Type} (xs : List α) : (pieces xs).flatten = xs

/-- The input cut once, in the middle. -/
def Pool.halves : Pool where
  pieces xs := [xs.take (xs.length / 2), xs.drop (xs.length / 2)]
  joined xs := by simp

variable (pool : Pool)

def map_subjects {α β : Type} (xs : List α) (parallel : ParallelStrategy) (f : α → Option β) :
    List β :=
  if parallel = .Auto ∧ PAR_TYPE_THRESHOLD ≤ xs.length then
    (pool.pieces xs).flatMap fun piece => piece.filterMap f
  else xs.filterMap f

/-- The same for a function with many results. -/
def flat_map_subjects {α β : Type} (xs : List α) (parallel : ParallelStrategy)
    (f : α → List β) : List β :=
  if parallel = .Auto ∧ PAR_TYPE_THRESHOLD ≤ xs.length then
    (pool.pieces xs).flatMap fun piece => piece.flatMap f
  else xs.flatMap f

/-- Insert a head that neither the store nor the delta has. -/
def emit (st : MemStore) (out : Delta) (head : Triple) (prov : Provenance) : Delta :=
  if !out.contains head && !st.contains head then out.insert head prov else out

/-- The subjects typed with a class. -/
def instances (st : MemStore) (v : Vocabulary) (c : TermId) : List TermId :=
  (st.probe none v.rdf_type (some c)).map Triple.s

/-! ## Chains and keys -/

/-- A walk along a part of a chain: where it starts, where it is, and the triples walked. -/
structure Walk where
  u0 : TermId
  u_mid : TermId
  path : List Triple

def frontier_start (st : MemStore) (p : TermId) : List Walk :=
  (st.scan_predicate p).map fun t => ⟨t.s, t.o, [⟨t.s, p, t.o⟩]⟩

def frontier_next (st : MemStore) (frontier : List Walk) (p : TermId) : List Walk :=
  frontier.flatMap fun w =>
    (st.probe (some w.u_mid) p none).map fun t => ⟨w.u0, t.o, w.path ++ [⟨w.u_mid, p, t.o⟩]⟩

def emit_pair (out : Delta) (rule_id : RuleId) (s p o : TermId) (premises : List Triple) : Delta :=
  if !out.contains ⟨s, p, o⟩ then out.insert ⟨s, p, o⟩ ⟨rule_id, premises⟩ else out

def fire_prp_spo2 (st : MemStore) (head_pred : TermId) (chain : List TermId) (out : Delta) :
    Delta :=
  match chain with
  | [] => out
  | p :: rest =>
    (rest.foldl (frontier_next st) (frontier_start st p)).foldl
      (fun out w => emit_pair out "prp-spo2" w.u0 head_pred w.u_mid w.path) out

/-- The rows of values that a subject has for the properties. -/
def cartesian_zs (st : MemStore) (x : TermId) (rest : List TermId) : List (List TermId) :=
  rest.foldl (fun acc p =>
    let values := (st.probe (some x) p none).map Triple.o
    acc.flatMap fun row => values.map fun z => row ++ [z]) [[]]

def key_premises (v : Vocabulary) (c p0 : TermId) (x y z0 : TermId) (rest zs : List TermId) :
    List Triple :=
  [⟨x, v.rdf_type, c⟩, ⟨y, v.rdf_type, c⟩, ⟨x, p0, z0⟩, ⟨y, p0, z0⟩] ++
    (rest.zip zs).flatMap fun e => [⟨x, e.1, e.2⟩, ⟨y, e.1, e.2⟩]

/-- The other subjects of the class that share a value of the first key property. -/
def key_candidates (st : MemStore) (v : Vocabulary) (c p0 x z0 : TermId) : List TermId :=
  ((st.probe none p0 (some z0)).map Triple.s).filter fun y =>
    y != x && st.contains ⟨y, v.rdf_type, c⟩

def key_survivors (st : MemStore) (candidates rest zs : List TermId) : List TermId :=
  (rest.zip zs).foldl (fun survivors e => survivors.filter fun y => st.contains ⟨y, e.1, e.2⟩)
    candidates

/-- The shared value of the first property, the values of the others, and the partner. -/
def key_hits (st : MemStore) (v : Vocabulary) (c p0 : TermId) (rest : List TermId) (x : TermId) :
    List (TermId × List TermId × TermId) :=
  (st.probe (some x) p0 none).flatMap fun first_t =>
    (cartesian_zs st x rest).flatMap fun zs =>
      (key_survivors st (key_candidates st v c p0 x first_t.o) rest zs).map fun y =>
        (first_t.o, zs, y)

/-- One head for every partner, with the values that it was first found by. -/
def emit_for_x (st : MemStore) (v : Vocabulary) (c p0 : TermId) (rest : List TermId)
    (x : TermId) : List (Triple × Provenance) :=
  (first_by (fun hit => hit.2.2) (key_hits st v c p0 rest x)).filterMap fun (z0, zs, y) =>
    if st.contains ⟨x, v.owl_same_as, y⟩ then none
    else some (⟨x, v.owl_same_as, y⟩, ⟨"prp-key", key_premises v c p0 x y z0 rest zs⟩)

def fire_prp_key (st : MemStore) (v : Vocabulary) (c : TermId) (ps : List TermId)
    (parallel : ParallelStrategy) (out : Delta) : Delta :=
  match ps with
  | [] => out
  | p0 :: rest =>
    let xs := instances st v c
    if xs.length < 2 then out
    else out.extend (flat_map_subjects pool xs parallel (emit_for_x st v c p0 rest))

/-! ## Class lists -/

def fire_cls_int1 (st : MemStore) (v : Vocabulary) (c : TermId) (cs : List TermId)
    (parallel : ParallelStrategy) (out : Delta) : Delta :=
  match cs with
  | [] => out
  | c0 :: rest =>
    out.extend (map_subjects pool (instances st v c0) parallel fun x =>
      if !rest.all (fun ci => st.contains ⟨x, v.rdf_type, ci⟩) then none
      else if st.contains ⟨x, v.rdf_type, c⟩ then none
      else some (⟨x, v.rdf_type, c⟩, ⟨"cls-int1", (c0 :: rest).map fun ci => ⟨x, v.rdf_type, ci⟩⟩))

def fire_scm_int (st : MemStore) (v : Vocabulary) (c listhead : TermId) (cs : List TermId)
    (out : Delta) : Delta :=
  cs.foldl (fun out ci => emit st out ⟨c, v.rdfs_sub_class_of, ci⟩
    ⟨"scm-int", [⟨c, v.owl_intersection_of, listhead⟩]⟩) out

/-- The subjects typed with some class of the list, each with the first it was found under. -/
def union_subjects (st : MemStore) (v : Vocabulary) (cs : List TermId) :
    List (TermId × TermId) :=
  first_by Prod.fst (cs.flatMap fun ci => (instances st v ci).map fun x => (x, ci))

def fire_cls_uni (st : MemStore) (v : Vocabulary) (c : TermId) (cs : List TermId)
    (parallel : ParallelStrategy) (out : Delta) : Delta :=
  out.extend (map_subjects pool (union_subjects st v cs) parallel fun e =>
    if st.contains ⟨e.1, v.rdf_type, c⟩ then none
    else some (⟨e.1, v.rdf_type, c⟩, ⟨"cls-uni", [⟨e.1, v.rdf_type, e.2⟩]⟩))

/-- The clashes of one pair of disjoint classes. -/
def adc_pair (st : MemStore) (v : Vocabulary) (parallel : ParallelStrategy) (ci cj : TermId) :
    List (TermId × Triple × Provenance) :=
  map_subjects pool (instances st v ci) parallel fun x =>
    if !st.contains ⟨x, v.rdf_type, cj⟩ then none
    else if st.contains ⟨x, v.rdf_type, v.owl_nothing⟩ then none
    else some (x, ⟨x, v.rdf_type, v.owl_nothing⟩,
      ⟨"cax-adc", [⟨x, v.rdf_type, ci⟩, ⟨x, v.rdf_type, cj⟩]⟩)

/-- The pairs of a list, the earlier position first. -/
def pairs_after {α : Type} : List α → List (α × α)
  | [] => []
  | x :: xs => xs.map (fun y => (x, y)) ++ pairs_after xs

def fire_cax_adc (st : MemStore) (v : Vocabulary) (cs : List TermId)
    (parallel : ParallelStrategy) (out : Delta) : Delta :=
  out.extend ((first_by Prod.fst ((pairs_after cs).flatMap fun e =>
    adc_pair pool st v parallel e.1 e.2)).map Prod.snd)

/-! ## Property lists and lists of individuals -/

def fire_prp_adp (st : MemStore) (v : Vocabulary) (props : List TermId) (out : Delta) : Delta :=
  (pairs_after props).foldl (fun out e =>
    (st.scan_predicate e.1).foldl (fun out t =>
      if st.contains ⟨t.s, e.2, t.o⟩ then
        emit st out ⟨t.s, v.rdf_type, v.owl_nothing⟩
          ⟨"prp-adp", [⟨t.s, e.1, t.o⟩, ⟨t.s, e.2, t.o⟩]⟩
      else out) out) out

def fire_eq_diff_list (v : Vocabulary) (ad members_pred listhead : TermId) (xs : List TermId)
    (out : Delta) : Delta :=
  xs.zipIdx.foldl (fun out (x, i) =>
    xs.zipIdx.foldl (fun out (y, j) =>
      if i = j then out
      else emit_pair out "eq-diff2" x v.owl_different_from y [⟨ad, members_pred, listhead⟩])
      out) out

/-! ## Cardinalities -/

def values_of (st : MemStore) (u p : TermId) : List TermId :=
  (st.probe (some u) p none).map Triple.o

def fire_cls_maxc1 (st : MemStore) (v : Vocabulary) (r : MaxCardRestriction) (out : Delta) :
    Delta :=
  (instances st v r.class).foldl (fun out u =>
    match (values_of st u r.property).head? with
    | none => out
    | some y => emit st out ⟨u, v.rdf_type, v.owl_nothing⟩
        ⟨"cls-maxc1", [⟨u, v.rdf_type, r.class⟩, ⟨u, r.property, y⟩]⟩) out

/-- Equate two values, in both directions. -/
def emit_both (st : MemStore) (v : Vocabulary) (rule_id : RuleId) (premises : List Triple)
    (out : Delta) (y1 y2 : TermId) : Delta :=
  if y1 = y2 then out
  else
    emit st (emit st out ⟨y1, v.owl_same_as, y2⟩ ⟨rule_id, premises⟩)
      ⟨y2, v.owl_same_as, y1⟩ ⟨rule_id, premises⟩

def fire_cls_maxc2 (st : MemStore) (v : Vocabulary) (r : MaxCardRestriction) (out : Delta) :
    Delta :=
  (instances st v r.class).foldl (fun out u =>
    (pairs_after (values_of st u r.property)).foldl (fun out e =>
      emit_both st v "cls-maxc2"
        [⟨u, v.rdf_type, r.class⟩, ⟨u, r.property, e.1⟩, ⟨u, r.property, e.2⟩] out e.1 e.2) out) out

def fire_max_card (st : MemStore) (v : Vocabulary) (r : MaxCardRestriction) (out : Delta) :
    Delta :=
  match r.max with
  | 0 => fire_cls_maxc1 st v r out
  | 1 => fire_cls_maxc2 st v r out
  | _ => out

def qualifies (st : MemStore) (v : Vocabulary) (y filler : TermId) : Bool :=
  if filler = v.owl_thing then true
  else (st.probe (some y) v.rdf_type (some filler)).head?.isSome

def fire_cls_maxqc_zero (st : MemStore) (v : Vocabulary) (r : QualMaxCardRestriction)
    (out : Delta) : Delta :=
  let rule_id := if r.filler = v.owl_thing then "cls-maxqc2" else "cls-maxqc1"
  (instances st v r.class).foldl (fun out u =>
    match (values_of st u r.property).find? fun y => qualifies st v y r.filler with
    | none => out
    | some y => emit st out ⟨u, v.rdf_type, v.owl_nothing⟩
        ⟨rule_id, [⟨u, v.rdf_type, r.class⟩, ⟨u, r.property, y⟩]⟩) out

def fire_cls_maxqc_one (st : MemStore) (v : Vocabulary) (r : QualMaxCardRestriction)
    (out : Delta) : Delta :=
  let rule_id := if r.filler = v.owl_thing then "cls-maxqc4" else "cls-maxqc3"
  (instances st v r.class).foldl (fun out u =>
    let ys := (values_of st u r.property).filter fun y => qualifies st v y r.filler
    (pairs_after ys).foldl (fun out e =>
      emit_both st v rule_id
        [⟨u, v.rdf_type, r.class⟩, ⟨u, r.property, e.1⟩, ⟨u, r.property, e.2⟩] out e.1 e.2) out) out

def fire_qual_max_card (st : MemStore) (v : Vocabulary) (r : QualMaxCardRestriction)
    (out : Delta) : Delta :=
  match r.max with
  | 0 => fire_cls_maxqc_zero st v r out
  | 1 => fire_cls_maxqc_one st v r out
  | _ => out

/-! ## All of them -/

def is_dirty (dirty : Option (ExtTreeSet TermId)) (p : TermId) : Bool :=
  match dirty with
  | none => true
  | some d => d.contains p

def any_dirty_for_chains (ax : SchemaAxioms) (dirty : Option (ExtTreeSet TermId)) : Bool :=
  dirty.isNone ||
    ax.property_chains.any fun (head, chain) => is_dirty dirty head || chain.any (is_dirty dirty)

def any_dirty_for_disjoint_properties (ax : SchemaAxioms) (dirty : Option (ExtTreeSet TermId)) :
    Bool :=
  dirty.isNone || ax.all_disjoint_properties.any fun props => props.any (is_dirty dirty)

def any_dirty_for_keys (ax : SchemaAxioms) (v : Vocabulary)
    (dirty : Option (ExtTreeSet TermId)) : Bool :=
  dirty.isNone || is_dirty dirty v.rdf_type || ax.keys.any fun (_, ps) => ps.any (is_dirty dirty)

/-- Run a rule function over the axioms of its kind, if some body predicate of it is dirty. -/
def fire_when {α : Type} (relevant : Bool) (axioms : List α) (fire : α → Delta → Delta)
    (out : Delta) : Delta :=
  if !axioms.isEmpty && relevant then axioms.foldl (fun out a => fire a out) out else out

def fire_all (st : MemStore) (ax : SchemaAxioms) (v : Vocabulary)
    (dirty : Option (ExtTreeSet TermId)) (parallel : ParallelStrategy) : Delta :=
  if ax.is_empty then .new
  else
    let type_dirty := is_dirty dirty v.rdf_type
    let out := fire_when (any_dirty_for_chains ax dirty) ax.property_chains
      (fun (head, chain) => fire_prp_spo2 st head chain) .new
    let out := fire_when (any_dirty_for_keys ax v dirty) ax.keys
      (fun (c, ps) => fire_prp_key pool st v c ps parallel) out
    let out := fire_when type_dirty ax.intersections
      (fun (c, _, cs) => fire_cls_int1 pool st v c cs parallel) out
    let out := fire_when dirty.isNone ax.intersections
      (fun (c, listhead, cs) => fire_scm_int st v c listhead cs) out
    let out := fire_when type_dirty ax.unions
      (fun (c, cs) => fire_cls_uni pool st v c cs parallel) out
    let out := fire_when type_dirty ax.all_disjoint_classes
      (fun cs => fire_cax_adc pool st v cs parallel) out
    let out := fire_when (any_dirty_for_disjoint_properties ax dirty) ax.all_disjoint_properties
      (fun props => fire_prp_adp st v props) out
    let out := fire_when dirty.isNone ax.all_different
      (fun (ad, members_pred, listhead, xs) => fire_eq_diff_list v ad members_pred listhead xs) out
    -- the cardinality rules look at their own property where the types are not dirty
    let out := ax.max_card_restrictions.foldl (fun out r =>
      if type_dirty || is_dirty dirty r.property then fire_max_card st v r out else out) out
    ax.qual_max_card_restrictions.foldl (fun out r =>
      if type_dirty || is_dirty dirty r.property then fire_qual_max_card st v r out else out) out

end horndb.owlrl
