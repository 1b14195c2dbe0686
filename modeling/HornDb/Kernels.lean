-- The hash join of two triple patterns, and what it computes: each pair of rows
-- that binds the two patterns together gives the head, with the product of the counts.
import HornDb.Triples
import HornDb.Zset

open Std

namespace horndb.incremental

/-- What each variable is bound to. The source keeps a table of eight variables and panics past
it: `checked_bind_slots` has the end of the table. -/
abbrev Bindings := Nat → Option Nat

namespace Bindings

def default : Bindings := fun _ => none

/-- Bind `v`, or fail when it is bound to something else. -/
def set (b : Bindings) (v val : Nat) : Option Bindings :=
  match b v with
  | some existing => if existing = val then some b else none
  | none => some (Function.update b v (some val))

def merge (b other : Bindings) : Bindings := fun i => (other i).or (b i)

end Bindings

/-- The terms of a pattern with the components of a triple, in the order S, P, O. -/
def TriplePattern.slots (pattern : TriplePattern) (triple : TripleId) : List (Term × Nat) :=
  [(pattern.s, triple.s), (pattern.p, triple.p), (pattern.o, triple.o)]

/-- The distinct variables of a pattern in the order they first appear. -/
def vars_in (pattern : TriplePattern) : List Nat :=
  [pattern.s, pattern.p, pattern.o].foldl
    (fun vars t =>
      match t with
      | .Var v => if vars.contains v then vars else vars ++ [v]
      | .Bound _ => vars)
    []

def shared_vars (left right : TriplePattern) : List Nat :=
  (vars_in left).filter fun v => (vars_in right).contains v

def bind_slots : List (Term × Nat) → Bindings → Option Bindings
  | [], b => some b
  | (.Bound bound, val) :: rest, b => if bound = val then bind_slots rest b else none
  | (.Var v, val) :: rest, b =>
    match b.set v val with
    | some b => bind_slots rest b
    | none => none

def bind_row (pattern : TriplePattern) (triple : TripleId) : Option Bindings :=
  bind_slots (pattern.slots triple) .default

def filter_and_bind (pattern : TriplePattern) (input : Zset TripleId) :
    List (Bindings × Int) :=
  input.iter.filterMap fun e => (bind_row pattern e.1).map fun b => (b, e.2)

def key_of (bindings : Bindings) (shared : List Nat) : List Nat :=
  shared.map fun v => (bindings v).getD 0

def eval_term (bindings : Bindings) : Term → Nat
  | .Bound v => v
  | .Var v => (bindings v).getD 0

def eval_head (head : TriplePattern) (bindings : Bindings) : TripleId :=
  ⟨eval_term bindings head.s, eval_term bindings head.p, eval_term bindings head.o⟩

inductive KernelError where
  | UnboundHeadVar (v : Nat)
  | NoSharedVar
  | BodyTooShort (n : Nat)
  | DisconnectedBody
  | TooManyLiveVars (n : Nat)
deriving DecidableEq, Repr

/-- A join of two patterns under a head. The head has no variable of its own, and the
patterns share one. -/
structure HashJoinRule where
  id : RuleId
  left : TriplePattern
  right : TriplePattern
  head : TriplePattern
  head_bound : ∀ v ∈ vars_in head, v ∈ vars_in left ∨ v ∈ vars_in right
  connected : shared_vars left right ≠ []

namespace HashJoinRule

def new (id : RuleId) (left right head : TriplePattern) : Except KernelError HashJoinRule :=
  match hv : (vars_in head).find? fun v =>
      !((vars_in left).contains v || (vars_in right).contains v) with
  | some v => .error (.UnboundHeadVar v)
  | none =>
    if hs : shared_vars left right = [] then .error .NoSharedVar
    else
      .ok
        { id, left, right, head
          head_bound := by
            intro v hmem
            have := List.find?_eq_none.mp hv v hmem
            simpa [imp_iff_not_or] using this
          connected := hs }

/-- Join on the shared variables. The index of the source groups the build side by key;
here the rows of a key are read off the build side in the same order. -/
def join (r : HashJoinRule) (a b : Zset TripleId) : Zset TripleId :=
  let left_rows := filter_and_bind r.left a
  let right_rows := filter_and_bind r.right b
  if left_rows.isEmpty || right_rows.isEmpty then .new
  else
    let shared := shared_vars r.left r.right
    if left_rows.length ≤ right_rows.length then
      .from_iter <| right_rows.flatMap fun probe =>
        (left_rows.filter fun build => key_of build.1 shared == key_of probe.1 shared).map
          fun build => (eval_head r.head (build.1.merge probe.1), build.2 * probe.2)
    else
      .from_iter <| left_rows.flatMap fun probe =>
        (right_rows.filter fun build => key_of build.1 shared == key_of probe.1 shared).map
          fun build => (eval_head r.head (probe.1.merge build.1), probe.2 * build.2)

def apply_full (r : HashJoinRule) (a b : Zset TripleId) : Zset TripleId := r.join a b

def apply_delta (r : HashJoinRule) (a b da db : Zset TripleId) : Zset TripleId :=
  ((r.join da b).add_assign (r.join a db)).add_assign (r.join da db)

def body_predicates (r : HashJoinRule) : Option Nat × Option Nat :=
  (r.left.p.as_bound, r.right.p.as_bound)

end HashJoinRule

/-! ## What binding a row does -/

/-- Two tables that agree where both are bound. -/
def Bindings.Compatible (b c : Bindings) : Prop :=
  ∀ v m n, b v = some m → c v = some n → m = n

theorem bind_slots_extends {slots : List (Term × Nat)} {b c : Bindings}
    (h : bind_slots slots b = some c) {v n : Nat} (hv : b v = some n) : c v = some n := by
  induction slots generalizing b with
  | nil => cases h; exact hv
  | cons e rest ih =>
    obtain ⟨t, val⟩ := e
    cases t with
    | Bound id =>
      rw [bind_slots] at h
      split at h
      · exact ih h hv
      · cases h
    | Var w =>
      rw [bind_slots] at h
      split at h
      · rename_i b' hset
        refine ih h ?_
        rw [Bindings.set] at hset
        split at hset
        · split at hset
          · cases hset; exact hv
          · cases hset
        · rename_i hnone
          cases hset
          rw [Function.update_of_ne]
          · exact hv
          · rintro rfl
            rw [hnone] at hv
            cases hv
      · cases h

/-- The variables among some slots. -/
def slot_vars (slots : List (Term × Nat)) (v : Nat) : Prop := ∃ val, (Term.Var v, val) ∈ slots

theorem bind_slots_bound {slots : List (Term × Nat)} {b c : Bindings}
    (h : bind_slots slots b = some c) (v : Nat) :
    (c v).isSome ↔ (b v).isSome ∨ slot_vars slots v := by
  induction slots generalizing b with
  | nil => cases h; simp [slot_vars]
  | cons e rest ih =>
    obtain ⟨t, val⟩ := e
    cases t with
    | Bound id =>
      rw [bind_slots] at h
      split at h
      · rw [ih h]
        simp [slot_vars]
      · cases h
    | Var w =>
      rw [bind_slots] at h
      split at h
      · rename_i b' hset
        have hb' : (b' v).isSome ↔ (b v).isSome ∨ v = w := by
          rw [Bindings.set] at hset
          split at hset
          · rename_i n hw
            split at hset
            · cases hset
              refine ⟨Or.inl, ?_⟩
              rintro (h' | rfl)
              · exact h'
              · rw [hw]; rfl
            · cases hset
          · cases hset
            by_cases hvw : v = w
            · subst hvw
              simp
            · simp [hvw]
        rw [ih h, hb', or_assoc]
        refine or_congr_right ?_
        constructor
        · rintro (rfl | ⟨n, hn⟩)
          · exact ⟨val, List.mem_cons_self⟩
          · exact ⟨n, List.mem_cons_of_mem _ hn⟩
        · rintro ⟨n, hn⟩
          rcases List.mem_cons.mp hn with heq | hn
          · cases heq
            exact Or.inl rfl
          · exact Or.inr ⟨n, hn⟩
      · cases h

theorem mem_vars_in {pattern : TriplePattern} {v : Nat} :
    v ∈ vars_in pattern ↔ Term.Var v = pattern.s ∨ Term.Var v = pattern.p ∨
      Term.Var v = pattern.o := by
  have push : ∀ (vars : List Nat) (t : Term),
      v ∈ (match t with
        | .Var w => if vars.contains w then vars else vars ++ [w]
        | .Bound _ => vars) ↔ v ∈ vars ∨ Term.Var v = t := by
    intro vars t
    cases t with
    | Bound id => simp
    | Var w =>
      dsimp only
      split
      · rename_i hw
        simp only [Term.Var.injEq, iff_self_or]
        rintro rfl
        simpa using hw
      · simp
  unfold vars_in
  simp only [List.foldl_cons, List.foldl_nil, push]
  simp [or_assoc]

theorem slot_vars_slots {pattern : TriplePattern} {triple : TripleId} {v : Nat} :
    slot_vars (pattern.slots triple) v ↔ v ∈ vars_in pattern := by
  rw [mem_vars_in, slot_vars]
  simp only [TriplePattern.slots, List.mem_cons, Prod.mk.injEq, List.not_mem_nil, or_false]
  constructor
  · rintro ⟨_, ⟨h, _⟩ | ⟨h, _⟩ | ⟨h, _⟩⟩
    · exact Or.inl h
    · exact Or.inr (Or.inl h)
    · exact Or.inr (Or.inr h)
  · rintro (h | h | h)
    · exact ⟨_, Or.inl ⟨h, rfl⟩⟩
    · exact ⟨_, Or.inr (Or.inl ⟨h, rfl⟩)⟩
    · exact ⟨_, Or.inr (Or.inr ⟨h, rfl⟩)⟩

theorem bind_row_bound {pattern : TriplePattern} {triple : TripleId} {b : Bindings}
    (h : bind_row pattern triple = some b) (v : Nat) : (b v).isSome ↔ v ∈ vars_in pattern := by
  rw [bind_slots_bound h, slot_vars_slots]
  simp [Bindings.default]

namespace Bindings

theorem merge_default (b : Bindings) : b.merge .default = b := by
  funext v
  simp [merge, default]

theorem Compatible.set_left {b c : Bindings} {v val : Nat} (hc : c v = none)
    (hb : b v = none ∨ b v = some val) (h : Compatible b c) :
    Compatible b (Function.update c v (some val)) := by
  intro w m n hm hn
  by_cases hw : w = v
  · subst hw
    rw [Function.update_self] at hn
    cases hn
    rcases hb with hb | hb
    · rw [hb] at hm; cases hm
    · rw [hb] at hm; cases hm; rfl
  · rw [Function.update_of_ne hw] at hn
    exact h w m n hm hn

theorem merge_update (b c : Bindings) (v val : Nat) :
    b.merge (Function.update c v (some val)) = Function.update (b.merge c) v (some val) := by
  funext w
  by_cases hw : w = v
  · subst hw
    simp [merge]
  · simp [merge, hw]

end Bindings

/-- Binding slots on top of a table is binding them alone and merging, when the two
tables agree. -/
theorem bind_slots_merge (slots : List (Term × Nat)) {b c : Bindings} (h : b.Compatible c) :
    (∀ d, bind_slots slots c = some d → b.Compatible d →
      bind_slots slots (b.merge c) = some (b.merge d)) ∧
    ((∀ d, bind_slots slots c = some d → ¬ b.Compatible d) →
      bind_slots slots (b.merge c) = none) := by
  induction slots generalizing c with
  | nil =>
    refine ⟨?_, fun hno => absurd h (hno c rfl)⟩
    rintro d hd _
    cases hd
    rfl
  | cons e rest ih =>
    obtain ⟨t, val⟩ := e
    cases t with
    | Bound id =>
      simp only [bind_slots]
      split
      · exact ih h
      · exact ⟨fun d hd => (nomatch hd), fun _ => rfl⟩
    | Var v =>
      simp only [bind_slots, Bindings.set]
      cases hc : c v with
      | some n =>
        have hm : b.merge c v = some n := by simp [Bindings.merge, hc]
        simp only [hm]
        by_cases hn : n = val
        · simp only [hn, if_true]
          exact ih h
        · simp only [hn, if_false]
          exact ⟨fun d hd => (nomatch hd), fun _ => trivial⟩
      | none =>
        cases hb : b v with
        | none =>
          have hm : b.merge c v = none := by simp [Bindings.merge, hc, hb]
          simp only [hm, ← Bindings.merge_update]
          exact ih (h.set_left hc (Or.inl hb))
        | some n =>
          have hm : b.merge c v = some n := by simp [Bindings.merge, hc, hb]
          simp only [hm]
          by_cases hn : n = val
          · subst hn
            have hsame : b.merge (Function.update c v (some n)) = b.merge c := by
              rw [Bindings.merge_update]
              exact Function.update_eq_self_iff.mpr hm.symm
            simp only [if_true]
            rw [← hsame]
            exact ih (h.set_left hc (Or.inr hb))
          · simp only [hn, if_false]
            refine ⟨fun d hd hcomp => absurd (hcomp v n val hb ?_) hn, fun _ => trivial⟩
            exact bind_slots_extends hd (Function.update_self ..)

theorem compatible_default (b : Bindings) : b.Compatible .default :=
  fun _ _ _ _ h => nomatch h

/-- The join key says exactly that two rows of the patterns agree. -/
theorem key_of_eq_iff {left right : TriplePattern} {x y : TripleId} {b c : Bindings}
    (hb : bind_row left x = some b) (hc : bind_row right y = some c) :
    key_of b (shared_vars left right) = key_of c (shared_vars left right) ↔ b.Compatible c := by
  rw [key_of, key_of, List.map_inj_left]
  constructor
  · intro h v m n hm hn
    have hmem : v ∈ shared_vars left right := by
      have hl := (bind_row_bound hb v).mp (by rw [hm]; rfl)
      have hr := (bind_row_bound hc v).mp (by rw [hn]; rfl)
      rw [shared_vars, List.mem_filter, List.contains_iff_mem]
      exact ⟨hl, hr⟩
    simpa [hm, hn] using h v hmem
  · intro h v hmem
    rw [shared_vars, List.mem_filter, List.contains_iff_mem] at hmem
    obtain ⟨m, hm⟩ := Option.isSome_iff_exists.mp ((bind_row_bound hb v).mpr hmem.1)
    obtain ⟨n, hn⟩ := Option.isSome_iff_exists.mp ((bind_row_bound hc v).mpr hmem.2)
    rw [hm, hn, Option.getD_some, Option.getD_some]
    exact h v m n hm hn

/-- Binding the right row on top of the left one succeeds exactly when their keys are
equal, and then gives the merged table. -/
theorem bind_right {left right : TriplePattern} {x y : TripleId} {b : Bindings}
    (hb : bind_row left x = some b) :
    bind_slots (right.slots y) b =
      (bind_row right y).bind fun c =>
        if key_of b (shared_vars left right) = key_of c (shared_vars left right)
        then some (b.merge c) else none := by
  have h := bind_slots_merge (right.slots y) (compatible_default b)
  rw [Bindings.merge_default] at h
  cases hc : bind_row right y with
  | none =>
    rw [Option.bind_none]
    refine h.2 fun d hd => ?_
    rw [bind_row] at hc
    rw [hc] at hd
    cases hd
  | some c =>
    rw [Option.bind_some]
    split
    · rename_i hkey
      exact h.1 c hc ((key_of_eq_iff hb hc).mp hkey)
    · rename_i hkey
      refine h.2 fun d hd hcomp => hkey ((key_of_eq_iff hb hc).mpr ?_)
      rw [bind_row] at hc
      rw [hc] at hd
      cases hd
      exact hcomp

end horndb.incremental
