-- The hints of an update, its desugared operations, and the run that checks the sources: it is the
-- run in which each ADD, COPY and MOVE finds its source graph right before its first operation.
import HornDb.AmcRecovered
import HornDb.Update

open HornDb.Lib.Wire (Bytes)
open horndb.storage
open horndb.storage.turtle hiding Token Lexeme

namespace horndb.sparql.update_text

/-! ## Desugaring -/

variable {ω : Type}

def drop_op (silent : Bool) : AmcSource → GraphUpdateOperation ω
  | .Named iri => .Drop silent (.NamedNode iri)
  | _ => .Drop silent .DefaultGraph

def copy_op (source dest : AmcSource) : GraphUpdateOperation ω :=
  let graph_name := match dest with
    | .Named iri => .NamedNode iri
    | _ => .DefaultGraph
  let pattern := match source with
    | .Named iri => .Graph (.NamedNode iri) spo
    | _ => spo
  .DeleteInsert [] [⟨.Variable "s", .Variable "p", .Variable "o", graph_name⟩] none pattern

/-- The operations of a verb: none where source and destination are one graph. -/
def desugar (verb : Verb) (silent : Bool) (source dest : AmcSource) :
    List (GraphUpdateOperation ω) :=
  if is_identity source dest then []
  else match verb with
    | .Add => [copy_op source dest]
    | .Copy => [drop_op true dest, copy_op source dest]
    | .Move => [drop_op true dest, copy_op source dest, drop_op silent source]

/-- The operations of each step. Operands are without escapes and resolved, and no other operation
has the form of a copy. -/
inductive Desugars {lib : Iris} [DecidableEq ω] :
    Prologue lib → List Step → List (List (GraphUpdateOperation ω)) → Prop where
  | nil {p : Prologue lib} : Desugars p [] []
  | base {p : Prologue lib} {body : Bytes} {steps : List Step}
      {opss : List (List (GraphUpdateOperation ω))} : Desugars (adopt_base p body) steps opss →
      Desugars p (.base body :: steps) ([] :: opss)
  | pfx {p : Prologue lib} {ns body : Bytes} {steps : List Step}
      {opss : List (List (GraphUpdateOperation ω))} :
      Desugars (declare_pfx p ns body) steps opss →
      Desugars p (.pfx ns body :: steps) ([] :: opss)
  | amc {p : Prologue lib} {verb : Verb} {silent : Bool} {source dest : Operand}
      {steps : List Step} {opss : List (List (GraphUpdateOperation ω))} :
      source.escaped = false → dest.escaped = false → source.graph p ≠ .Unknown →
      dest.graph p ≠ .Unknown → Desugars p steps opss →
      Desugars p (.amc verb silent source dest :: steps)
        (desugar verb silent (source.graph p) (dest.graph p) :: opss)
  | other {p : Prologue lib} {ops : List (GraphUpdateOperation ω)} {steps : List Step}
      {opss : List (List (GraphUpdateOperation ω))} : (∀ op ∈ ops, copy_op_operands op = none) →
      Desugars p steps opss → Desugars p (.other :: steps) (ops :: opss)

/-! ## The run with its checks -/

/-- The named graph that has to be there. -/
def needed (silent : Bool) (source dest : AmcSource) : Option String :=
  match source with
  | .Named iri => if silent || is_identity source dest then none else some iri
  | _ => none

/-- The operations of each step, with the graph that has to be there before them. -/
def parts {lib : Iris} (p : Prologue lib) :
    List Step → List (List (GraphUpdateOperation ω)) →
      List (Option String × List (GraphUpdateOperation ω))
  | .base body :: steps, ops :: opss => (none, ops) :: parts (adopt_base p body) steps opss
  | .pfx ns body :: steps, ops :: opss => (none, ops) :: parts (declare_pfx p ns body) steps opss
  | .amc _ silent source dest :: steps, ops :: opss =>
    (needed silent (source.graph p) (dest.graph p), ops) :: parts p steps opss
  | .other :: steps, ops :: opss => (none, ops) :: parts p steps opss
  | _, _ => []

variable {ox : text.Library}

/-- The steps in order, each behind the check of its source. -/
def run_checked (env : Env ox ω) :
    List (Option String × List (GraphUpdateOperation ω)) → Session ox →
      Result Unit × Session ox
  | [], s => (.ok (), s)
  | (need, ops) :: rest, s =>
    if need.all (graph_exists s.store.quads) then
      match run_ops env [] 0 ops s with
      | (.error e, s) => (.error e, s)
      | (.ok (), s) => run_checked env rest s
    else (.error (amc_source_missing_error (need.getD "")), s)

/-! ## Placing the hints -/

/-- A hint, if the step has one, and its operations. -/
abbrev Item (ω : Type) := Option AmcHint × List (GraphUpdateOperation ω)

variable [DecidableEq ω]

inductive Fits : Item ω → Prop where
  | verb {verb : Verb} {silent : Bool} {source dest : AmcSource} : source ≠ .Unknown →
      dest ≠ .Unknown →
      Fits (some ⟨silent, source, dest, 0, verb.op_count, is_identity source dest⟩,
        desugar verb silent source dest)
  | other {ops : List (GraphUpdateOperation ω)} : (∀ op ∈ ops, copy_op_operands op = none) →
      Fits (none, ops)

variable {source dest : AmcSource}

theorem copy_op_operands_copy (hs : source ≠ .Unknown) (hd : dest ≠ .Unknown) :
    copy_op_operands (copy_op source dest : GraphUpdateOperation ω) = some (source, dest) := by
  cases source <;> cases dest <;> simp_all [copy_op, copy_op_operands, spo]

theorem copy_op_operands_drop (silent : Bool) (g : AmcSource) :
    copy_op_operands (drop_op silent g : GraphUpdateOperation ω) = none := by
  cases g <;> rfl

omit [DecidableEq ω] in
theorem drop_operand_drop (silent : Bool) {g : AmcSource} (h : g ≠ .Unknown) :
    drop_operand (drop_op silent g : GraphUpdateOperation ω) = some (silent, g) := by
  cases g <;> simp_all [drop_op, drop_operand]

/-- The copies among operations, with their places. -/
def copies_at (i : Nat) (ops : List (GraphUpdateOperation ω)) :
    List (Nat × AmcSource × AmcSource) :=
  (ops.zipIdx i).filterMap fun e => (copy_op_operands e.1).map fun c => (e.2, c.1, c.2)

theorem copies_at_append (i : Nat) (xs ys : List (GraphUpdateOperation ω)) :
    copies_at i (xs ++ ys) = copies_at i xs ++ copies_at (i + xs.length) ys := by
  unfold copies_at
  rw [List.zipIdx_append, List.filterMap_append, Nat.add_comm]

theorem copies_at_none (i : Nat) {ops : List (GraphUpdateOperation ω)}
    (h : ∀ op ∈ ops, copy_op_operands op = none) : copies_at i ops = [] := by
  unfold copies_at
  rw [List.filterMap_eq_nil_iff]
  intro e he
  rw [h e.1 (List.fst_mem_of_mem_zipIdx he)]
  rfl

/-- The hints of the steps with their places, from the place of the first operation. -/
def placed (i : Nat) : List (Item ω) → List AmcHint
  | [] => []
  | (none, ops) :: rest => placed (i + ops.length) rest
  | (some h, ops) :: rest =>
    (if h.is_identity then h else { h with op_index := i }) :: placed (i + ops.length) rest

omit [DecidableEq ω] in
/-- A verb is found by its copy, with the operations around it. -/
theorem locate_hint_desugar (pre post : List (GraphUpdateOperation ω)) (verb : Verb)
    (silent identity : Bool) (hs : source ≠ .Unknown) (hd : dest ≠ .Unknown)
    (hne : is_identity source dest = false) :
    locate_hint (pre ++ desugar verb silent source dest ++ post)
      ⟨silent, source, dest, 0, verb.op_count, identity⟩
      (pre.length + if verb = .Add then 0 else 1) source dest = some pre.length := by
  have hat (op op' op'' : GraphUpdateOperation ω) (more : List (GraphUpdateOperation ω)) :
      (pre ++ op :: op' :: op'' :: more)[pre.length + 1 + 1]? = some op'' := by
    rw [List.getElem?_append_right (by omega), Nat.add_assoc, Nat.add_sub_cancel_left]
    rfl
  unfold locate_hint desugar
  rw [hne, List.append_assoc]
  cases verb with
  | Add => simp [Verb.op_count]
  | Copy => simp [Verb.op_count, drop_operand_drop true hd]
  | Move => simp [Verb.op_count, hat, drop_operand_drop true hd, drop_operand_drop silent hs]

theorem copies_at_desugar (i : Nat) {verb : Verb} {silent : Bool} (hs : source ≠ .Unknown)
    (hd : dest ≠ .Unknown) (hne : is_identity source dest = false) :
    copies_at i (desugar verb silent source dest : List (GraphUpdateOperation ω)) =
      [(i + if verb = .Add then 0 else 1, source, dest)] := by
  unfold desugar
  rw [hne]
  cases verb <;>
    simp [copies_at, copy_op_operands_copy hs hd, copy_op_operands_drop]

section

variable {ops : List (GraphUpdateOperation ω)} {h : AmcHint} {hs : List AmcHint}

omit [DecidableEq ω] in
theorem locate_identity (hid : h.is_identity = true) (copies : List (Nat × AmcSource × AmcSource)) :
    locate_all ops (h :: hs) copies = (locate_all ops hs copies).map (h :: ·) := by
  rw [locate_all.eq_def]
  exact if_pos hid

omit [DecidableEq ω] in
theorem locate_live (hid : h.is_identity = false) (ci : Nat) (src dst : AmcSource)
    (copies : List (Nat × AmcSource × AmcSource)) :
    locate_all ops (h :: hs) ((ci, src, dst) :: copies) =
      (locate_hint ops h ci src dst).bind fun i =>
        (locate_all ops hs copies).map ({ h with op_index := i } :: ·) := by
  rw [locate_all.eq_def]
  dsimp only
  rw [hid, if_neg Bool.false_ne_true]
  cases locate_hint ops h ci src dst with
  | none => rfl
  | some i =>
    show (do let hs ← locate_all ops hs copies; _) = _
    cases locate_all ops hs copies <;> rfl

end

variable {items : List (Item ω)}

/-- Every hint is given the place of its first operation. -/
theorem locate_items (h : ∀ it ∈ items, Fits it) (pre : List (GraphUpdateOperation ω)) :
    locate_all (pre ++ items.flatMap (·.2)) (items.filterMap (·.1))
      (copies_at pre.length (items.flatMap (·.2))) = some (placed pre.length items) := by
  induction items generalizing pre with
  | nil => rfl
  | cons it items ih =>
    rw [List.forall_mem_cons] at h
    have hrest := ih h.2 (pre ++ it.2)
    rw [List.append_assoc, List.length_append] at hrest
    rw [List.flatMap_cons, copies_at_append]
    cases h.1 with
    | other hops =>
      rw [copies_at_none _ hops, List.nil_append]
      exact hrest
    | @verb verb silent source dest hs hd =>
      rw [List.filterMap_cons]
      by_cases hid : is_identity source dest = true
      · have hnil : desugar verb silent source dest = ([] : List (GraphUpdateOperation ω)) :=
          if_pos hid
        dsimp only at hrest ⊢
        rw [hnil] at hrest ⊢
        rw [locate_identity hid]
        dsimp only [placed]
        rw [if_pos hid]
        show Option.map _ (locate_all _ _ (copies_at (pre.length + 0) _)) = _
        exact congrArg (Option.map _) hrest
      · have hne : is_identity source dest = false := by simpa using hid
        have hplace := locate_hint_desugar pre (items.flatMap (·.2)) verb silent
          (is_identity source dest) hs hd hne
        rw [List.append_assoc] at hplace
        dsimp only at hrest ⊢
        rw [copies_at_desugar _ hs hd hne, List.singleton_append, locate_live hne, hplace]
        dsimp only [placed]
        rw [Option.bind_some, hrest, if_neg (by rw [hne]; simp)]
        rfl

theorem locate_placed (h : ∀ it ∈ items, Fits it) :
    locate_amc_hints (items.filterMap (·.1)) (items.flatMap (·.2)) = placed 0 items := by
  have hall := locate_items h []
  rw [List.nil_append] at hall
  unfold locate_amc_hints
  show (locate_all _ _ (copies_at 0 _)).getD _ = _
  rw [show locate_all _ _ (copies_at 0 _) = _ from hall]
  rfl

/-! ## Checks in place -/

/-- The hints that are checked before an operation. -/
def due (hints : List AmcHint) (i : Nat) : List AmcHint :=
  hints.filter fun h => h.op_index == i && decide (i > 0)

variable {env : Env ox ω}

omit [DecidableEq ω] in
theorem run_ops_cons (hints : List AmcHint) (i : Nat) (op : GraphUpdateOperation ω)
    (ops : List (GraphUpdateOperation ω)) (s : Session ox) :
    run_ops env hints i (op :: ops) s =
      match check_all (amc_source_check s.store.quads) (due hints i) with
      | .error e => (.error e, s)
      | .ok () =>
        match apply_op env op s with
        | (.error e, s) => (.error e, s)
        | (.ok (), s) => run_ops env hints (i + 1) ops s := rfl

omit [DecidableEq ω] in
/-- Operations that no check stands before run as they do alone. -/
theorem run_ops_quiet (env : Env ox ω) (hints : List AmcHint) {i : Nat} (k : Nat)
    (ops rest : List (GraphUpdateOperation ω))
    (h : ∀ j, i ≤ j → j < i + ops.length → due hints j = []) (s : Session ox) :
    run_ops env hints i (ops ++ rest) s =
      match run_ops env [] k ops s with
      | (.error e, s) => (.error e, s)
      | (.ok (), s) => run_ops env hints (i + ops.length) rest s := by
  induction ops generalizing i k s with
  | nil => rfl
  | cons op ops ih =>
    rw [List.length_cons] at h
    rw [List.cons_append, run_ops_cons, run_ops_cons, h i (le_refl i) (by omega)]
    generalize apply_op env op s = applied
    rcases applied with ⟨res, s'⟩
    cases res with
    | error e => rfl
    | ok u =>
      have hrest := ih (i := i + 1) (k + 1) (fun j hlo hhi => h j (by omega) (by omega)) s'
      rw [List.length_cons, show i + (ops.length + 1) = i + 1 + ops.length by omega]
      exact hrest

omit [DecidableEq ω] in
/-- Operations behind the check that stands before the first of them. -/
theorem run_ops_due {hints : List AmcHint} {i : Nat} {ops : List (GraphUpdateOperation ω)}
    (hne : ops ≠ []) (rest : List (GraphUpdateOperation ω))
    (h : ∀ j, i < j → j < i + ops.length → due hints j = []) (s : Session ox) :
    run_ops env hints i (ops ++ rest) s =
      match check_all (amc_source_check s.store.quads) (due hints i) with
      | .error e => (.error e, s)
      | .ok () =>
        match run_ops env [] 0 ops s with
        | (.error e, s) => (.error e, s)
        | (.ok (), s) => run_ops env hints (i + ops.length) rest s := by
  cases ops with
  | nil => exact absurd rfl hne
  | cons op ops =>
    rw [List.length_cons] at h
    rw [List.cons_append, run_ops_cons, run_ops_cons]
    cases check_all (amc_source_check s.store.quads) (due hints i) with
    | error e => rfl
    | ok u =>
      generalize apply_op env op s = applied
      rcases applied with ⟨res, s'⟩
      cases res with
      | error e => rfl
      | ok u =>
        have hrest := run_ops_quiet env hints (i := i + 1) 1 ops rest
          (fun j hlo hhi => h j (by omega) (by omega)) s'
        rw [List.length_cons, show i + (ops.length + 1) = i + 1 + ops.length by omega]
        exact hrest

omit [DecidableEq ω] in
theorem run_ops_congr {hints other : List AmcHint} {i : Nat}
    (h : ∀ j, i ≤ j → due hints j = due other j) (ops : List (GraphUpdateOperation ω))
    (s : Session ox) : run_ops env hints i ops s = run_ops env other i ops s := by
  induction ops generalizing i s with
  | nil => rfl
  | cons op ops ih =>
    rw [run_ops_cons, run_ops_cons, h i (le_refl i)]
    cases check_all (amc_source_check s.store.quads) (due other i) with
    | error e => rfl
    | ok u =>
      generalize apply_op env op s = applied
      rcases applied with ⟨res, s'⟩
      cases res with
      | error e => rfl
      | ok u => exact ih (fun j hj => h j (by omega)) s'

omit [DecidableEq ω] in
theorem desugar_ne {verb : Verb} {silent : Bool} (h : is_identity source dest = false) :
    (desugar verb silent source dest : List (GraphUpdateOperation ω)) ≠ [] := by
  unfold desugar
  rw [h]
  cases verb <;> simp

/-- No check of these steps stands before an earlier operation, and the preflight passes those that
stand behind the first. -/
theorem placed_later (h : ∀ it ∈ items, Fits it) {i j : Nat} (hj : j < i)
    (quads : List (StoredQuad ox)) :
    due (placed i items) j = [] ∧ check_all (preflight_hint quads) (placed i items) = .ok () := by
  induction items generalizing i with
  | nil => exact ⟨rfl, rfl⟩
  | cons it items ih =>
    rw [List.forall_mem_cons] at h
    obtain ⟨hdue, hcheck⟩ := ih h.2 (i := i + it.2.length) (by omega)
    cases h.1 with
    | other => exact ⟨hdue, hcheck⟩
    | @verb verb silent source dest hs hd =>
      dsimp only [placed]
      by_cases hid : is_identity source dest = true
      · rw [if_pos hid]
        refine ⟨?_, ?_⟩
        · unfold due at hdue ⊢
          rw [List.filter_cons_of_neg, hdue]
          simp
          omega
        · rw [check_all]
          unfold preflight_hint amc_source_check
          simp only [hid, Bool.not_true, Bool.and_false, Bool.false_and, Bool.or_true, if_true,
            Bool.false_eq_true, if_false]
          exact hcheck
      · rw [if_neg hid]
        refine ⟨?_, ?_⟩
        · unfold due at hdue ⊢
          rw [List.filter_cons_of_neg, hdue]
          simp
          omega
        · rw [check_all]
          unfold preflight_hint
          have hunknown : (source == AmcSource.Unknown) = false := by simpa using hs
          rw [hunknown, Bool.and_false, if_neg Bool.false_ne_true, if_neg (by omega : i ≠ 0)]
          exact hcheck

/-- The graph that a hint asks for. -/
def AmcHint.need (h : AmcHint) : Option String := needed h.silent h.source h.dest

def item_part (it : Item ω) : Option String × List (GraphUpdateOperation ω) :=
  (it.1.bind AmcHint.need, it.2)

omit [DecidableEq ω] in
/-- The check of a source is the check that its graph is there. -/
theorem source_check {silent : Bool} {i n : Nat} (hs : source ≠ .Unknown)
    (quads : List (StoredQuad ox)) :
    amc_source_check quads ⟨silent, source, dest, i, n, is_identity source dest⟩ =
      if (needed silent source dest).all (graph_exists quads) then .ok ()
      else .error (amc_source_missing_error ((needed silent source dest).getD "")) := by
  unfold amc_source_check needed
  cases source with
  | Unknown => exact absurd rfl hs
  | Default => simp
  | Named g =>
    cases silent || is_identity (.Named g) dest with
    | true => simp
    | false => cases graph_exists quads g <;> simp

theorem needed_identity (h : is_identity source dest = true) (silent : Bool) :
    needed silent source dest = none := by
  unfold needed
  rw [h, Bool.or_true]
  cases source <;> rfl

theorem due_cons_zero {h : AmcHint} (hzero : h.op_index = 0) (hints : List AmcHint) (j : Nat) :
    due (h :: hints) j = due hints j := by
  unfold due
  rw [List.filter_cons_of_neg]
  rw [hzero]
  simp
  omega

theorem due_cons_later {h : AmcHint} {j : Nat} (hne : h.op_index ≠ j) (hints : List AmcHint) :
    due (h :: hints) j = due hints j := by
  unfold due
  rw [List.filter_cons_of_neg]
  simp [hne]

theorem due_cons_here {h : AmcHint} {i : Nat} (hplace : h.op_index = i) (hi : 0 < i)
    {hints : List AmcHint} (hrest : due hints i = []) : due (h :: hints) i = [h] := by
  unfold due at hrest ⊢
  rw [List.filter_cons_of_pos, hrest]
  simp [hplace, hi]

theorem check_all_singleton {α : Type} (f : α → Result Unit) (a : α) : check_all f [a] = f a := by
  rw [check_all]
  cases f a <;> rfl

/-- Behind the first operation, each step runs behind the check of its source. -/
theorem run_placed (h : ∀ it ∈ items, Fits it) {hints : List AmcHint} {i : Nat} (hi : 0 < i)
    (hdue : ∀ j, i ≤ j → due hints j = due (placed i items) j) (s : Session ox) :
    run_ops env hints i (items.flatMap (·.2)) s = run_checked env (items.map item_part) s := by
  induction items generalizing hints i s with
  | nil => rfl
  | cons it items ih =>
    rw [List.forall_mem_cons] at h
    have later : ∀ j, j < i + it.2.length → due (placed (i + it.2.length) items) j = [] :=
      fun j hj => (placed_later h.2 hj s.store.quads).1
    rw [List.flatMap_cons, List.map_cons]
    cases h.1 with
    | @other ops =>
      have hquiet := run_ops_quiet env hints (i := i) 0 ops
        (items.flatMap (·.2)) (fun j hlo hhi => (hdue j hlo).trans (later j hhi)) s
      dsimp only at hquiet ⊢
      rw [hquiet]
      show _ = (if true = true then _ else _)
      rw [if_pos rfl]
      rcases run_ops env [] 0 ops s with ⟨res, s'⟩
      cases res with
      | error e => rfl
      | ok u => exact ih h.2 (by omega) (fun j hj => hdue j (by omega)) s'
    | @verb verb silent source dest hs hd =>
      dsimp only [placed] at hdue later ⊢
      by_cases hid : is_identity source dest = true
      · have hnil : desugar verb silent source dest = ([] : List (GraphUpdateOperation ω)) :=
          if_pos hid
        rw [if_pos hid, hnil] at hdue
        have hrest := ih h.2 (i := i + 0) hi (fun j hj => (hdue j hj).trans
          (due_cons_zero rfl _ j)) s
        show _ = (if ((needed silent source dest).all (graph_exists s.store.quads)) then _ else _)
        rw [needed_identity hid, hnil]
        exact hrest
      · have hne : is_identity source dest = false := by simpa using hid
        have hops : 0 < (desugar verb silent source dest :
            List (GraphUpdateOperation ω)).length := List.length_pos_iff.mpr (desugar_ne hne)
        rw [if_neg hid] at hdue
        have hhere : due hints i = [⟨silent, source, dest, i, verb.op_count,
            is_identity source dest⟩] :=
          (hdue i (le_refl i)).trans (due_cons_here rfl hi (later i (by omega)))
        rw [run_ops_due (desugar_ne hne) _ (fun j hlo hhi => (hdue j (by omega)).trans
          ((due_cons_later (by dsimp only; omega) _).trans (later j hhi))), hhere,
          check_all_singleton, source_check hs]
        show _ = (if ((needed silent source dest).all (graph_exists s.store.quads)) then _ else _)
        by_cases hneed : (needed silent source dest).all (graph_exists s.store.quads) = true
        · rw [if_pos hneed, if_pos hneed]
          dsimp only [item_part]
          rcases run_ops env [] 0 (desugar verb silent source dest) s with ⟨res, s'⟩
          cases res with
          | error e => rfl
          | ok u =>
            exact ih h.2 (by omega) (fun j hj => (hdue j (by omega)).trans
              (due_cons_later (by dsimp only; omega) _)) s'
        · rw [if_neg hneed, if_neg hneed]
          rfl

/-- The preflight and the run with the placed hints are the run in which each step stands behind the
check of its source. -/
theorem run_from_start (h : ∀ it ∈ items, Fits it) (s : Session ox) :
    (match check_all (preflight_hint s.store.quads) (placed 0 items) with
      | .error e => (.error e, s)
      | .ok () => run_ops env (placed 0 items) 0 (items.flatMap (·.2)) s) =
      run_checked env (items.map item_part) s := by
  induction items with
  | nil => rfl
  | cons it items ih =>
    rw [List.forall_mem_cons] at h
    rw [List.flatMap_cons, List.map_cons]
    by_cases hempty : it.2 = []
    · -- the step has no operations: an identity, or one of the prologue
      have hrest := ih h.2
      cases h.1 with
      | other =>
        dsimp only [placed] at hempty ⊢
        rw [hempty]
        exact hrest
      | @verb verb silent source dest hs hd =>
        have hid : is_identity source dest = true := by
          by_contra hne
          exact desugar_ne (by simpa using hne) hempty
        have hcheck : preflight_hint s.store.quads
            ⟨silent, source, dest, 0, verb.op_count, is_identity source dest⟩ = .ok () := by
          unfold preflight_hint amc_source_check
          simp [hid]
        dsimp only [placed] at hempty ⊢
        rw [hempty, if_pos hid, List.nil_append, check_all, hcheck,
          run_ops_congr fun j _ => due_cons_zero rfl _ j]
        show _ = (if ((needed silent source dest).all (graph_exists s.store.quads)) then _ else _)
        rw [needed_identity hid]
        exact hrest
    · have hops : 0 < it.2.length := List.length_pos_iff.mpr hempty
      have later : ∀ j, j < it.2.length → due (placed (0 + it.2.length) items) j = [] ∧
          check_all (preflight_hint s.store.quads) (placed (0 + it.2.length) items) = .ok () :=
        fun j hj => placed_later h.2 (by omega) s.store.quads
      have hzero : ∀ hints : List AmcHint, due hints 0 = [] := fun hints => by simp [due]
      cases h.1 with
      | @other ops =>
        dsimp only [placed] at hops later ⊢
        have hquiet := run_ops_quiet env (placed (0 + ops.length) items) (i := 0) 0
          ops (items.flatMap (·.2)) (fun j _ hhi => (later j (by omega)).1) s
        rw [(later 0 hops).2, hquiet]
        show _ = (if true = true then _ else _)
        rw [if_pos rfl]
        rcases run_ops env [] 0 ops s with ⟨res, s'⟩
        cases res with
        | error e => rfl
        | ok u => exact run_placed h.2 (by omega) (fun j _ => rfl) s'
      | @verb verb silent source dest hs hd =>
        have hne : is_identity source dest = false := by
          by_contra hid
          exact hempty (if_pos (by simpa using hid))
        have hcheck : preflight_hint s.store.quads
            ⟨silent, source, dest, 0, verb.op_count, is_identity source dest⟩ =
              amc_source_check s.store.quads
                ⟨silent, source, dest, 0, verb.op_count, is_identity source dest⟩ := by
          unfold preflight_hint
          have hunknown : (source == AmcSource.Unknown) = false := by simpa using hs
          rw [hunknown, Bool.and_false, if_neg Bool.false_ne_true, if_pos rfl]
        dsimp only [placed] at hops later ⊢
        rw [if_neg (by rw [hne]; simp), check_all, (later 0 hops).2, hcheck, source_check hs,
          run_ops_due (desugar_ne hne) _ (fun j hlo hhi =>
            (due_cons_later (by dsimp only; omega) _).trans (later j (by omega)).1), hzero]
        show _ = (if ((needed silent source dest).all (graph_exists s.store.quads)) then _ else _)
        by_cases hneed : (needed silent source dest).all (graph_exists s.store.quads) = true
        · rw [if_pos hneed, if_pos hneed]
          dsimp only [item_part]
          show (match run_ops env [] 0 (desugar verb silent source dest) s with
            | (.error e, s) => _ | (.ok (), s) => _) = _
          rcases run_ops env [] 0 (desugar verb silent source dest) s with ⟨res, s'⟩
          cases res with
          | error e => rfl
          | ok u =>
            exact run_placed h.2 (by omega) (fun j hj =>
              due_cons_later (by dsimp only; omega) _) s'
        · rw [if_neg hneed, if_neg hneed]
          rfl

/-! ## Requests with their hints -/

/-- The hints and the operations of a request, step by step. -/
theorem items_of {lib : Iris} {p : Prologue lib} {steps : List Step} {hs : List AmcHint}
    {opss : List (List (GraphUpdateOperation ω))} (ht : Told p steps hs)
    (hd : Desugars p steps opss) :
    ∃ items : List (Item ω), (∀ it ∈ items, Fits it) ∧ items.filterMap (·.1) = hs ∧
      items.flatMap (·.2) = opss.flatten ∧ items.map item_part = parts p steps opss := by
  induction ht generalizing opss with
  | nil =>
    cases hd
    exact ⟨[], by simp, rfl, rfl, rfl⟩
  | base _ ih =>
    cases hd with
    | base hd =>
      obtain ⟨items, hfits, hhints, hops, hparts⟩ := ih hd
      refine ⟨(none, []) :: items, List.forall_mem_cons.mpr ⟨.other (by simp), hfits⟩, hhints, hops,
        ?_⟩
      rw [parts, ← hparts]
      rfl
  | pfx _ ih =>
    cases hd with
    | pfx hd =>
      obtain ⟨items, hfits, hhints, hops, hparts⟩ := ih hd
      refine ⟨(none, []) :: items, List.forall_mem_cons.mpr ⟨.other (by simp), hfits⟩, hhints, hops,
        ?_⟩
      rw [parts, ← hparts]
      rfl
  | @amc p verb silent source dest steps h hs htells _ ih =>
    cases hd with
    | amc hsource hdest hs hd hrest =>
      obtain ⟨items, hfits, hhints, hops, hparts⟩ := ih hrest
      have hplain : ∀ ns loc, source = .pname ns loc → ascii '\\' ∉ loc := by
        rintro ns loc rfl
        exact of_decide_eq_false hsource
      have hh : h = ⟨silent, source.graph p, dest.graph p, 0, verb.op_count,
          is_identity (source.graph p) (dest.graph p)⟩ := by
        have hid := htells.identity
        rw [htells.dest hplain, htells.told, told_plain p hsource, told_plain p hdest] at hid
        rw [← htells.silent, ← hid, ← htells.op_index, ← htells.op_count, ← told_plain p hsource,
          ← told_plain p hdest, ← htells.told, ← htells.dest hplain]
      refine ⟨(some h, desugar verb silent (source.graph p) (dest.graph p)) :: items,
        List.forall_mem_cons.mpr ⟨?_, hfits⟩, ?_, ?_, ?_⟩
      · rw [hh]
        exact .verb hs hd
      · rw [← hhints]
        rfl
      · rw [List.flatten_cons, ← hops]
        rfl
      · rw [parts, ← hparts, hh]
        rfl
  | other _ ih =>
    cases hd with
    | @other _ ops _ _ hnone hd =>
      obtain ⟨items, hfits, hhints, hops, hparts⟩ := ih hd
      refine ⟨(none, ops) :: items, List.forall_mem_cons.mpr ⟨.other hnone, hfits⟩, hhints, ?_, ?_⟩
      · rw [List.flatten_cons, ← hops]
        rfl
      · rw [parts, ← hparts]
        rfl

/-! ## Two requests -/

theorem gap_space : Gap [ascii ' '] := .ws (by decide) .nil

theorem tail_nil : Tail [] := .inl .nil

def glued (t : Token) (h : t.Valid) : Lexeme := ⟨[], t, .nil, h⟩

def spaced (t : Token) (h : t.Valid) : Lexeme := ⟨[ascii ' '], t, gap_space, h⟩

def keyword (cs : List Char) : Token := .word (ascii_text cs)

theorem keyword_valid {c : Char} {cs : List Char} (hc : is_letter (ascii c) = true)
    (hcs : (ascii_text cs).all (fun b => is_ascii_alphanumeric b || b = ascii '_') = true) :
    (keyword (c :: cs)).Valid :=
  .word hc (List.all_eq_true.mp hcs)

/-- `COPY <body> TO DEFAULT`. -/
def copy_request (body : Bytes) (h : IriBody body) : Request where
  lexemes := [
    glued (keyword ['C', 'O', 'P', 'Y']) (keyword_valid (by decide) (by decide)),
    spaced (.iriref body) (.iriref h),
    spaced (keyword ['T', 'O']) (keyword_valid (by decide) (by decide)),
    spaced (keyword ['D', 'E', 'F', 'A', 'U', 'L', 'T']) (keyword_valid (by decide) (by decide))]
  steps := [.amc .Copy false (.iri body) .default_graph]
  reads := .last (.amc (by rfl) .loud (.bare (.iri body)) (by rfl) (.default (by rfl)))
  tail := []
  tail_ok := tail_nil

theorem copy_request_clear (body : Bytes) (h : IriBody body) : Clear (copy_request body h) where
  text := {
    blank := by
      simp only [copy_request, List.forall_mem_cons]
      exact ⟨.nil, .ws (by decide) .nil, .ws (by decide) .nil, .ws (by decide) .nil, by simp⟩
    token := by simp [copy_request, glued, spaced, keyword, Token.Clear]
    apart := by
      simp [copy_request, glued, spaced, keyword, Apart, Lexeme.bytes, Token.sticks, Token.bytes]
      decide
    less := by
      intro front l back hsplit hless
      have hl : l ∈ (copy_request body h).lexemes := by
        rw [hsplit]
        simp
      simp only [copy_request, List.mem_cons, List.not_mem_nil, or_false] at hl
      rcases hl with rfl | rfl | rfl | rfl <;> cases hless }
  steps := by simp [copy_request, Step.Clear]

/-- `DELETE WHERE{?s ?p "x"@add}`. -/
def tagged_request : Request where
  lexemes := [
    glued (keyword ['D', 'E', 'L', 'E', 'T', 'E']) (keyword_valid (by decide) (by decide)),
    spaced (keyword ['W', 'H', 'E', 'R', 'E']) (keyword_valid (by decide) (by decide)),
    glued (.sign [ascii '{']) (.sign (by decide)),
    glued (.var (ascii '?') [ascii 's']) (.var (by decide) (by simp; decide)),
    spaced (.var (ascii '?') [ascii 'p']) (.var (by decide) (by simp; decide)),
    spaced (.string (ascii '"') false [ascii 'x'])
      (.short (.inl rfl) (.char (by decide) (by decide) (by decide) .nil)),
    glued (.langtag (ascii_text ['a', 'd', 'd'])) (.langtag (by decide) (by simp; decide)),
    glued close_brace (.sign (by decide))]
  steps := [.other]
  reads := .last (.other
    (by simp [glued, spaced, keyword, close_brace]; decide)
    (by
      intro front t back hsplit hless
      have ht : t ∈ front ++ t :: back := by simp
      rw [← hsplit] at ht
      simp [glued, spaced, keyword, close_brace] at ht
      rcases ht with rfl | rfl | rfl | rfl | rfl | rfl | rfl | rfl <;> cases hless))
  tail := []
  tail_ok := tail_nil

/-- IRIs as texts. -/
def text_iris : Iris := ⟨Bytes, some, fun _ raw => some raw, id⟩

def plain_iri : Bytes := ascii_text ['x', ':', 'a']

theorem plain_iri_body : IriBody plain_iri :=
  .char (by decide) (by decide) (.char (by decide) (by decide) (.char (by decide) (by decide) .nil))

def escaped_iri : Bytes := ascii_text ['x', ':', '\\', 'u', '0', '0', '6', '1']

theorem escaped_iri_body : IriBody escaped_iri :=
  have hcode : Uchar (ascii 'u' :: ascii_text ['0', '0', '6', '1']) :=
    .four rfl (List.all_eq_true.mp (by decide))
  .char (by decide) (by decide) (.char (by decide) (by decide) (.uchar hcode .nil))

def tagged_text : Bytes :=
  ascii_text ['D', 'E', 'L', 'E', 'T', 'E', ' ', 'W', 'H', 'E', 'R', 'E', '{', '?', 's', ' ', '?',
    'p', ' ', '"', 'x', '"', '@', 'a', 'd', 'd', '}']

/-- The operations of `COPY <x:a> TO DEFAULT`. -/
def copy_ops : List (GraphUpdateOperation Unit) := desugar .Copy false (.Named "x:a") .Default

def empty_session : Session text.ascii := ⟨⟨[], 0, 0⟩, .new true⟩

/-! ## The hints of a request -/

/-- Where the scan reads a request as the grammar does, each ADD, COPY and MOVE has its hint, in
order, and nothing else has one. Where the operands have no escapes either, and no other operation
has the form of a copy, the request runs as if each of the three looked for its source graph right
before its first operation. -/
theorem amc_hints_told {lib : Iris} (r : Request) (h : Clear r) (base_iri : Option lib.Iri) :
    Told ⟨base_iri, fun _ => none⟩ r.steps (recover_amc_hints r.bytes base_iri) ∧
      ∀ {ox : text.Library} {ω : Type} [DecidableEq ω]
        (opss : List (List (GraphUpdateOperation ω))),
        Desugars ⟨base_iri, fun _ => none⟩ r.steps opss → ∀ (env : Env ox ω) (s : Session ox),
          (match check_all (preflight_hint s.store.quads)
              (locate_amc_hints (recover_amc_hints r.bytes base_iri) opss.flatten) with
            | .error e => (.error e, s)
            | .ok () => run_ops env
              (locate_amc_hints (recover_amc_hints r.bytes base_iri) opss.flatten) 0
              opss.flatten s) =
            run_checked env (parts ⟨base_iri, fun _ => none⟩ r.steps opss) s := by
  have htold := recovered_hints r h base_iri
  refine ⟨htold, fun opss hd env s => ?_⟩
  obtain ⟨items, hfits, hhints, hops, hparts⟩ := items_of htold hd
  rw [← hhints, ← hops, ← hparts, locate_placed hfits]
  exact run_from_start hfits s

theorem amc_hints_told_copy :
    Told (⟨none, fun _ => none⟩ : Prologue text_iris)
        [.amc .Copy false (.iri plain_iri) .default_graph]
        (recover_amc_hints (copy_request plain_iri plain_iri_body).bytes
          (none : Option text_iris.Iri)) ∧
      (match check_all (preflight_hint empty_session.store.quads)
          (locate_amc_hints (recover_amc_hints (copy_request plain_iri plain_iri_body).bytes
            (none : Option text_iris.Iri)) [copy_ops].flatten) with
        | .error e => (.error e, empty_session)
        | .ok () => run_ops bare_env
          (locate_amc_hints (recover_amc_hints (copy_request plain_iri plain_iri_body).bytes
            (none : Option text_iris.Iri)) [copy_ops].flatten) 0 [copy_ops].flatten
          empty_session) =
        (.error (amc_source_missing_error "x:a"), empty_session) := by
  have hall := amc_hints_told (copy_request plain_iri plain_iri_body) (copy_request_clear _ _)
    (none : Option text_iris.Iri)
  have hd : Desugars (⟨none, fun _ => none⟩ : Prologue text_iris)
      (copy_request plain_iri plain_iri_body).steps [copy_ops] := by
    have hgraph : (Operand.iri plain_iri).graph (⟨none, fun _ => none⟩ : Prologue text_iris) =
        .Named "x:a" := by decide
    have hops : (copy_ops : List (GraphUpdateOperation Unit)) = desugar .Copy false
        ((Operand.iri plain_iri).graph (⟨none, fun _ => none⟩ : Prologue text_iris))
        (Operand.default_graph.graph (⟨none, fun _ => none⟩ : Prologue text_iris)) := by
      rw [hgraph]
      rfl
    rw [hops]
    exact .amc (by decide) rfl (by rw [hgraph]; simp) (by simp [Operand.graph]) .nil
  exact ⟨hall.1, hall.2 [copy_ops] hd bare_env empty_session⟩

/-- An operand with an escape is not resolved, and a tag is taken for a verb. -/
theorem amc_hints_mistaken :
    (∃ h : AmcHint, recover_amc_hints (copy_request escaped_iri escaped_iri_body).bytes
        (none : Option text_iris.Iri) = [h] ∧ h.silent = false ∧ h.source = .Unknown) ∧
      tagged_request.steps = [.other] ∧
      recover_amc_hints tagged_request.bytes (none : Option text_iris.Iri) =
        [⟨false, .Unknown, .Unknown, 0, 1, false⟩] := by
  refine ⟨?_, rfl, ?_⟩
  · have hclear := copy_request_clear escaped_iri escaped_iri_body
    have htold := told_from (copy_request escaped_iri escaped_iri_body).reads hclear.text
      hclear.steps (copy_request escaped_iri escaped_iri_body).tail_ok
      (⟨none, fun _ => none⟩ : Prologue text_iris) (show is_sigil 0 = false by decide)
    generalize hhints : hints_from _ _ = hs at htold
    cases htold with
    | amc htells hrest =>
      cases hrest
      exact ⟨_, hhints, htells.silent, htells.told.trans (told_escaped _ rfl)⟩
  · have htext : tagged_request.bytes = tagged_text := rfl
    have htoks : amc_tokenize tagged_text = [.Other, .Other, .Other, .Other, .Other, .Other, .Other,
        .Other, .Other, .Amc 1, .Other] := by
      simp +decide [tagged_text, amc_tokenize, amc_tokens, ascii_text, trim_dots, amc_skip_string,
        skip_short]
    rw [htext]
    unfold recover_amc_hints
    rw [htoks]
    rfl

end horndb.sparql.update_text
