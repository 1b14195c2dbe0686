-- The blank nodes of BNODE: the scope that each evaluation of a plan has of its own, the BINDs and
-- the other expressions that are evaluated in it, and runs of requests against one store.
import HornDb.Lib.Minting
import HornDb.SlotRows

open HornDb.Lib.Minting
open horndb.storage (TermId)

namespace horndb.sparql.exec

/-! ## The scope -/

/-- The columns that an expression reads, as the evaluator has them. -/
abbrev Env := Finmap fun _ : Var => Term

/-- The key of `BNODE(str)`: the solution, or else the environment, and the string. -/
structure BnodeKey where
  solution : Option (List KeyPart)
  env : Env
  key : String
deriving DecidableEq

structure QueryScope where
  bnodes : List (BnodeKey × Term)
  solution : Option (List KeyPart)
  extended : List Var
  minted : Nat

namespace QueryScope

def default : QueryScope := ⟨[], none, [], 0⟩

/-- The node of a number. -/
def node (n : Nat) : Term := .BlankNode ("_:b" ++ toString n)

def fresh_bnode (q : QueryScope) : Term × QueryScope :=
  (node q.minted, { q with minted := q.minted + 1 })

def bnode_key (q : QueryScope) (env : Env) (key : String) : BnodeKey :=
  ⟨q.solution, if q.solution.isSome then ∅ else env, key⟩

def bnode (q : QueryScope) (env : Env) (key : String) : Term × QueryScope :=
  let k := q.bnode_key env key
  match q.bnodes.lookup k with
  | some t => (t, q)
  | none =>
    let (t, q) := q.fresh_bnode
    (t, { q with bnodes := (k, t) :: q.bnodes })

end QueryScope

/-! ## Expressions -/

/-- What an evaluation asks of its scope, and how it goes on with the answers. An EXISTS asks
nothing: its pattern has a scope of its own. -/
inductive Calls (α : Type) where
  | ret (a : α)
  | fresh (k : Term → Calls α)
  | keyed (key : String) (k : Term → Calls α)

/-- An expression: the variables that it mentions, whether it calls BNODE, and its evaluation. -/
structure Expression where
  referenced_vars : List Var
  mentions_bnode : Bool
  eval : Env → Calls (Result (Option Term))
  silent : mentions_bnode = false → ∀ env, ∃ slot, eval env = .ret slot

/-- A call: the solution that it is made for, its key, and its answer. -/
structure Call (ι : Type) where
  solution : ι
  key : Option BnodeKey
  answer : Term

variable {ι : Type}

def Calls.run {α : Type} (sol : ι) (env : Env) :
    Calls α → QueryScope → α × QueryScope × List (Call ι)
  | .ret a, q => (a, q, [])
  | .fresh k, q =>
    let (t, q) := q.fresh_bnode
    let (a, q, log) := (k t).run sol env q
    (a, q, ⟨sol, none, t⟩ :: log)
  | .keyed key k, q =>
    let bkey := q.bnode_key env key
    let (t, q) := q.bnode env key
    let (a, q, log) := (k t).run sol env q
    (a, q, ⟨sol, some bkey, t⟩ :: log)

/-! ## BIND -/

def decode_env (decode_term : TermId → Result Term) (row : Row) (schema want : List Var) :
    Result Env :=
  schema.zipIdx.foldlM (fun env (v, i) =>
    if v ∉ want then .ok env
    else match row.at i with
      | .Id id => do
        let t ← decode_term id
        .ok (env.insert v t)
      | .Term t => .ok (env.insert v t)
      | .Unbound => .ok env) ∅

def value_slot : Option Term → Slot
  | some t => .Term t
  | none => .Unbound

/-- The columns that tell the solutions apart: those that no BNODE has made. -/
def base_columns (q : QueryScope) (schema : List Var) : List Nat :=
  (schema.zipIdx.filter fun (v, _) => v ∉ q.extended).map Prod.snd

def extend_row (schema : List Var) (var : Var) (r : Row) (slot : Option Term) : Row :=
  match schema.idxOf? var with
  | some i => r.set i (value_slot slot)
  | none => r ++ [value_slot slot]

/-- The rows of a batch, one after the other. An error ends the batch. -/
def extend_rows (decode_term : TermId → Result Term) (schema : List Var) (base : List Nat)
    (var : Var) (expr : Expression) : List (ι × Row) → QueryScope →
    Result (List (ι × Row)) × QueryScope × List (Call ι)
  | [], q => (.ok [], q, [])
  | (sol, r) :: rows, q =>
    match decode_env decode_term r schema expr.referenced_vars with
    | .error e => (.error e, q, [])
    | .ok env =>
      let q := if expr.mentions_bnode then
          { q with solution := some (base.map fun i => (r.at i).key_part) }
        else q
      let (slot, q, log) := (expr.eval env).run sol env q
      let q := { q with solution := none }
      match slot with
      | .error e => (.error e, q, log)
      | .ok slot =>
        let (out, q, rest) := extend_rows decode_term schema base var expr rows q
        (out.map ((sol, extend_row schema var r slot) :: ·), q, log ++ rest)

def apply_extend (decode_term : TermId → Result Term) (schema : List Var)
    (rows : List (ι × Row)) (var : Var) (expr : Expression) (q : QueryScope) :
    Result (List (ι × Row)) × QueryScope × List (Call ι) :=
  let q := if expr.mentions_bnode then { q with extended := var :: q.extended } else q
  extend_rows decode_term schema (base_columns q schema) var expr rows q

/-! ## Requests -/

/-- What the operators of a plan do with the scope: the BIND of a batch, whose rows each belong to
a solution, or any other expression, for one solution. -/
inductive Step (ι : Type) where
  | extend (schema : List Var) (rows : List (ι × Row)) (var : Var) (expr : Expression)
  | other (sol : ι) (env : Env) (expr : Expression)

/-- The calls of an evaluation. A BIND that fails ends it. -/
def run_steps (decode_term : TermId → Result Term) : List (Step ι) → QueryScope → List (Call ι)
  | [], _ => []
  | .extend schema rows var expr :: steps, q =>
    match apply_extend decode_term schema rows var expr q with
    | (.error _, _, log) => log
    | (.ok _, q, log) => log ++ run_steps decode_term steps q
  | .other sol env expr :: steps, q =>
    let (_, q, log) := (expr.eval env).run sol env q
    log ++ run_steps decode_term steps q

/-- A query or an update: the evaluations it makes, for the query itself, for each operation with a
WHERE clause and for each EXISTS of each solution, every one in a scope of its own; and the blank
nodes that the store holds after it, from those it found and those it produced. -/
structure Request (ι : Type) where
  decode_term : TermId → Result Term
  evaluations : List (List (Step ι))
  writes : List Term → List Term → List Term

namespace Request

def logs (r : Request ι) : List (List (Call ι)) :=
  r.evaluations.map fun steps => run_steps r.decode_term steps .default

/-- The nodes that the request produces. -/
def nodes (r : Request ι) : List Term := r.logs.flatten.map Call.answer

/-- The blank nodes of the store after some requests. -/
def stored_after (rs : List (Request ι)) (stored : List Term) : List Term :=
  rs.foldl (fun stored r => r.writes stored r.nodes) stored

end Request

/-- Both calls name the same string, in the same solution. -/
def SameCall (c d : Call ι) : Prop :=
  c.solution = d.solution ∧ ∃ k l, c.key = some k ∧ d.key = some l ∧ k.key = l.key

/-- The nodes of a run of requests are new to the store and to one another, but for those of one
string in one solution. -/
structure RunFresh (rs : List (Request ι)) (stored : List Term) : Prop where
  store : ∀ before r after, rs = before ++ r :: after →
    ∀ t ∈ r.nodes, t ∉ Request.stored_after before stored
  requests : rs.Pairwise fun r o => ∀ t ∈ r.nodes, t ∉ o.nodes
  evaluations : ∀ r ∈ rs, r.logs.Pairwise fun l m => ∀ c ∈ l, ∀ d ∈ m, c.answer ≠ d.answer
  calls : ∀ r ∈ rs, ∀ log ∈ r.logs,
    log.Pairwise fun c d => c.answer = d.answer ↔ SameCall c d

/-- How many nodes the calls ask for: one each, and one for each key. -/
def asked (log : List (Call ι)) : Nat :=
  log.countP (fun c => c.key.isNone) + (log.filterMap Call.key).dedup.length

/-- One evaluation of the run calls BNODE at most, the store that it finds holds none of as many
first nodes as its calls ask for, and its keys are those of the strings and the solutions. -/
structure RunTold (rs : List (Request ι)) (stored : List Term) : Prop where
  one : (rs.flatMap Request.logs).Pairwise fun l m => l = [] ∨ m = []
  store : ∀ before r after, rs = before ++ r :: after → ∀ log ∈ r.logs, ∀ n < asked log,
    QueryScope.node n ∉ Request.stored_after before stored
  keys : ∀ r ∈ rs, ∀ log ∈ r.logs, log.Pairwise fun c d => ∀ k l, c.key = some k →
    d.key = some l → (k = l ↔ c.solution = d.solution ∧ k.key = l.key)

/-! ## One scope -/

namespace QueryScope

/-- The counter and the memo of a scope. -/
def minter (q : QueryScope) : Minter BnodeKey Term := ⟨q.bnodes, q.minted⟩

theorem node_injective : Function.Injective node := by
  intro n m h
  have hlist := congrArg String.toList (Term.BlankNode.inj h)
  rw [String.toList_append, String.toList_append] at hlist
  exact Nat.repr_injective (String.toList_inj.mp (List.append_cancel_left hlist))

theorem fresh_bnode_answer (q : QueryScope) :
    q.fresh_bnode.1 = (q.minter.answer node none).1 ∧
      q.fresh_bnode.2.minter = (q.minter.answer node none).2 :=
  ⟨rfl, rfl⟩

theorem bnode_answer (q : QueryScope) (env : Env) (key : String) :
    (q.bnode env key).1 = (q.minter.answer node (some (q.bnode_key env key))).1 ∧
      (q.bnode env key).2.minter = (q.minter.answer node (some (q.bnode_key env key))).2 := by
  have hlook : q.minter.memo.lookup (q.bnode_key env key) =
      q.bnodes.lookup (q.bnode_key env key) := rfl
  unfold bnode Minter.answer
  dsimp only
  rw [hlook]
  cases q.bnodes.lookup (q.bnode_key env key) with
  | some t => exact ⟨rfl, rfl⟩
  | none => exact ⟨rfl, rfl⟩

end QueryScope

open QueryScope (node node_injective)

def Call.entry (c : Call ι) : Option BnodeKey × Term := (c.key, c.answer)

/-- The calls so far, and the scope that has answered them. -/
def Answered (log : List (Call ι)) (q : QueryScope) : Prop :=
  Fits node (log.map Call.entry) q.minter

theorem answered_default : Answered ([] : List (Call ι)) .default := fits_start node

theorem Answered.append {log : List (Call ι)} {q q' : QueryScope} (h : Answered log q)
    {c : Call ι} (hanswer : c.answer = (q.minter.answer node c.key).1)
    (hminter : q'.minter = (q.minter.answer node c.key).2) : Answered (log ++ [c]) q' := by
  have hstep := Fits.answer h node_injective c.key
  rw [← hanswer, ← hminter] at hstep
  unfold Answered
  rw [List.map_append]
  exact hstep

theorem Calls.run_answered {α : Type} (sol : ι) (env : Env) (calls : Calls α) {q : QueryScope}
    {log : List (Call ι)} (h : Answered log q) :
    Answered (log ++ (calls.run sol env q).2.2) (calls.run sol env q).2.1 := by
  induction calls generalizing q log with
  | ret a =>
    rw [Calls.run, List.append_nil]
    exact h
  | fresh k ih =>
    have hone : Answered (log ++ [⟨sol, none, q.fresh_bnode.1⟩]) q.fresh_bnode.2 :=
      h.append q.fresh_bnode_answer.1 q.fresh_bnode_answer.2
    have hrest := ih q.fresh_bnode.1 hone
    rw [List.append_assoc] at hrest
    exact hrest
  | keyed key k ih =>
    have hone : Answered (log ++ [⟨sol, some (q.bnode_key env key), (q.bnode env key).1⟩])
        (q.bnode env key).2 :=
      h.append (q.bnode_answer env key).1 (q.bnode_answer env key).2
    have hrest := ih (q.bnode env key).1 hone
    rw [List.append_assoc] at hrest
    exact hrest

theorem extend_rows_answered {decode_term : TermId → Result Term} {schema : List Var}
    {base : List Nat} {var : Var} {expr : Expression} (rows : List (ι × Row)) {q : QueryScope}
    {log : List (Call ι)} (h : Answered log q) :
    Answered (log ++ (extend_rows decode_term schema base var expr rows q).2.2)
      (extend_rows decode_term schema base var expr rows q).2.1 := by
  induction rows generalizing q log with
  | nil =>
    rw [extend_rows, List.append_nil]
    exact h
  | cons row rows ih =>
    obtain ⟨sol, r⟩ := row
    rw [extend_rows]
    cases decode_env decode_term r schema expr.referenced_vars with
    | error e =>
      dsimp only
      rw [List.append_nil]
      exact h
    | ok env =>
      dsimp only
      -- setting the solution leaves the counter and the memo
      have hset : Answered log (if expr.mentions_bnode then
          { q with solution := some (base.map fun i => (r.at i).key_part) } else q) := by
        split
        · exact h
        · exact h
      have hrun := Calls.run_answered sol env (expr.eval env) hset
      revert hrun
      rcases (expr.eval env).run sol env (if expr.mentions_bnode then
        { q with solution := some (base.map fun i => (r.at i).key_part) } else q)
        with ⟨slot, q', log'⟩
      intro hrun
      have hreset : Answered (log ++ log') { q' with solution := none } := hrun
      cases slot with
      | error e => exact hreset
      | ok slot =>
        have hrest := ih hreset
        rw [List.append_assoc] at hrest
        exact hrest

theorem run_steps_answered {decode_term : TermId → Result Term} (steps : List (Step ι))
    {q : QueryScope} {log : List (Call ι)} (h : Answered log q) :
    ∃ q', Answered (log ++ run_steps decode_term steps q) q' := by
  induction steps generalizing q log with
  | nil =>
    rw [run_steps, List.append_nil]
    exact ⟨q, h⟩
  | cons step steps ih =>
    cases step with
    | extend schema rows var expr =>
      have hnote : Answered log (if expr.mentions_bnode then
          { q with extended := var :: q.extended } else q) := by
        split
        · exact h
        · exact h
      have hrows : Answered (log ++ (apply_extend decode_term schema rows var expr q).2.2)
          (apply_extend decode_term schema rows var expr q).2.1 := extend_rows_answered rows hnote
      rw [run_steps]
      revert hrows
      rcases apply_extend decode_term schema rows var expr q with ⟨out, q', log'⟩
      intro hrows
      cases out with
      | error e => exact ⟨q', hrows⟩
      | ok out =>
        obtain ⟨q'', hrest⟩ := ih hrows
        rw [List.append_assoc] at hrest
        exact ⟨q'', hrest⟩
    | other sol env expr =>
      have hrun := Calls.run_answered sol env (expr.eval env) h
      obtain ⟨q', hrest⟩ := ih hrun
      rw [List.append_assoc] at hrest
      exact ⟨q', hrest⟩

/-- The log of an evaluation is answered by its scope. -/
theorem Request.logs_answered {r : Request ι} {log : List (Call ι)} (h : log ∈ r.logs) :
    ∃ q, Answered log q := by
  obtain ⟨steps, -, rfl⟩ := List.mem_map.mp h
  exact run_steps_answered steps answered_default

section Log

variable {log : List (Call ι)} {q : QueryScope}

theorem Answered.asked (h : Answered log q) : q.minted = asked log := by
  have heq := Fits.minted_eq h
  rw [List.countP_map, List.filterMap_map] at heq
  exact heq

/-- The answers are the first nodes, as many as are asked for. -/
theorem Answered.answers (h : Answered log q) (t : Term) :
    (∃ c ∈ log, c.answer = t) ↔ ∃ n < exec.asked log, node n = t := by
  rw [← h.asked]
  refine Iff.trans ?_ (Fits.names h t)
  constructor
  · rintro ⟨c, hc, rfl⟩
    exact ⟨c.key, List.mem_map.mpr ⟨c, hc, rfl⟩⟩
  · rintro ⟨k, hk⟩
    obtain ⟨c, hc, heq⟩ := List.mem_map.mp hk
    exact ⟨c, hc, congrArg Prod.snd heq⟩

theorem Answered.apart (h : Answered log q) :
    log.Pairwise fun c d => c.answer = d.answer ↔ SameKey c.key d.key :=
  List.pairwise_map.mp (Fits.apart h)

theorem Answered.asked_pos (h : Answered log q) (hne : log ≠ []) : 0 < exec.asked log := by
  rw [← h.asked]
  exact Fits.minted_pos h (by simpa using hne)

/-- Every evaluation that calls BNODE produces the first node. -/
theorem Answered.first_node (h : Answered log q) (hne : log ≠ []) :
    ∃ c ∈ log, c.answer = node 0 :=
  (h.answers _).mpr ⟨0, h.asked_pos hne, rfl⟩

end Log

/-! ## Runs of requests -/

theorem Request.mem_nodes {r : Request ι} {t : Term} :
    t ∈ r.nodes ↔ ∃ log ∈ r.logs, ∃ c ∈ log, c.answer = t := by
  rw [Request.nodes, List.mem_map]
  constructor
  · rintro ⟨c, hc, rfl⟩
    obtain ⟨log, hlog, hc⟩ := List.mem_flatten.mp hc
    exact ⟨log, hlog, c, hc, rfl⟩
  · rintro ⟨log, hlog, c, hc, rfl⟩
    exact ⟨c, List.mem_flatten.mpr ⟨log, hlog, hc⟩, rfl⟩

/-- Two evaluations that both call BNODE produce one node. -/
theorem first_nodes_meet {r o : Request ι} {l m : List (Call ι)} (hl : l ∈ r.logs)
    (hm : m ∈ o.logs) (hlne : l ≠ []) (hmne : m ≠ []) :
    ∃ c ∈ l, ∃ d ∈ m, c.answer = d.answer := by
  obtain ⟨q, hq⟩ := Request.logs_answered hl
  obtain ⟨q', hq'⟩ := Request.logs_answered hm
  obtain ⟨c, hc, hcn⟩ := hq.first_node hlne
  obtain ⟨d, hd, hdn⟩ := hq'.first_node hmne
  exact ⟨c, hc, d, hd, hcn.trans hdn.symm⟩

theorem RunFresh.told {rs : List (Request ι)} {stored : List Term} (h : RunFresh rs stored) :
    RunTold rs stored := by
  refine ⟨?_, ?_, ?_⟩
  · rw [List.pairwise_flatMap]
    constructor
    · intro r hr
      refine (h.evaluations r hr).imp_of_mem fun {l m} hl hm hapart => ?_
      by_contra hne
      rw [not_or] at hne
      obtain ⟨c, hc, d, hd, heq⟩ := first_nodes_meet hl hm hne.1 hne.2
      exact hapart c hc d hd heq
    · refine h.requests.imp fun {r o} hdisj l hl m hm => ?_
      by_contra hne
      rw [not_or] at hne
      obtain ⟨c, hc, d, hd, heq⟩ := first_nodes_meet hl hm hne.1 hne.2
      exact hdisj c.answer (Request.mem_nodes.mpr ⟨l, hl, c, hc, rfl⟩)
        (Request.mem_nodes.mpr ⟨m, hm, d, hd, heq.symm⟩)
  · intro before r after heq log hlog n hn
    obtain ⟨q, hq⟩ := Request.logs_answered hlog
    obtain ⟨c, hc, hcn⟩ := (hq.answers (node n)).mpr ⟨n, hn, rfl⟩
    exact h.store before r after heq _ (Request.mem_nodes.mpr ⟨log, hlog, c, hc, hcn⟩)
  · intro r hr log hlog
    obtain ⟨q, hq⟩ := Request.logs_answered hlog
    refine ((h.calls r hr log hlog).and hq.apart).imp fun {c d} ⟨hcall, hkey⟩ k l hk hl => ?_
    have hsame : k = l ↔ SameKey c.key d.key := by
      rw [hk, hl]
      constructor
      · rintro rfl
        exact ⟨k, rfl, rfl⟩
      · rintro ⟨j, hj, hj'⟩
        exact Option.some.inj (hj.trans hj'.symm)
    rw [hsame, ← hkey, hcall]
    constructor
    · rintro ⟨hsol, k', l', hk', hl', hstr⟩
      rw [hk] at hk'
      rw [hl] at hl'
      cases hk'
      cases hl'
      exact ⟨hsol, hstr⟩
    · rintro ⟨hsol, hstr⟩
      exact ⟨hsol, k, l, hk, hl, hstr⟩

theorem RunTold.fresh {rs : List (Request ι)} {stored : List Term} (h : RunTold rs stored) :
    RunFresh rs stored := by
  have hone := List.pairwise_flatMap.mp h.one
  refine ⟨?_, ?_, ?_, ?_⟩
  · intro before r after heq t ht
    obtain ⟨log, hlog, hc⟩ := Request.mem_nodes.mp ht
    obtain ⟨q, hq⟩ := Request.logs_answered hlog
    obtain ⟨n, hn, rfl⟩ := (hq.answers t).mp hc
    exact h.store before r after heq log hlog n hn
  · refine hone.2.imp fun {r o} hempty t ht ht' => ?_
    obtain ⟨l, hl, c, hc, -⟩ := Request.mem_nodes.mp ht
    obtain ⟨m, hm, d, hd, -⟩ := Request.mem_nodes.mp ht'
    rcases hempty l hl m hm with rfl | rfl
    · exact absurd hc List.not_mem_nil
    · exact absurd hd List.not_mem_nil
  · intro r hr
    refine (hone.1 r hr).imp fun {l m} hempty c hc d hd => ?_
    rcases hempty with rfl | rfl
    · exact absurd hc List.not_mem_nil
    · exact absurd hd List.not_mem_nil
  · intro r hr log hlog
    obtain ⟨q, hq⟩ := Request.logs_answered hlog
    refine ((h.keys r hr log hlog).and hq.apart).imp fun {c d} ⟨hkeys, hanswer⟩ => ?_
    rw [hanswer]
    constructor
    · rintro ⟨k, hc, hd⟩
      obtain ⟨hsol, -⟩ := (hkeys k k hc hd).mp rfl
      exact ⟨hsol, k, k, hc, hd, rfl⟩
    · rintro ⟨hsol, k, l, hc, hd, hstr⟩
      have heq := (hkeys k l hc hd).mpr ⟨hsol, hstr⟩
      exact ⟨k, hc, by rw [hd, heq]⟩

/-- The blank nodes of BNODE are fresh in a run of queries and updates if and only if the run calls
it in one evaluation at most, the store that this one finds holds none of the nodes with as small
numbers, and the keys of its calls tell the solutions apart, and nothing else but the strings. -/
theorem run_fresh_iff (rs : List (Request ι)) (stored : List Term) :
    RunFresh rs stored ↔ RunTold rs stored :=
  ⟨RunFresh.told, RunTold.fresh⟩

/-- `BIND(BNODE() AS ?b)` for the empty solution, and a template that inserts ?b. -/
def insert_bnode : Request Unit where
  decode_term _ := .error (.Executor "no dictionary")
  evaluations := [[.extend [] [((), [])] "b"
    ⟨[], true, fun _ => .fresh fun t => .ret (.ok (some t)), fun h => by cases h⟩]]
  writes stored nodes := stored ++ nodes

/-- The second of two such updates inserts the node of the first. -/
theorem second_insert_merges : ¬RunFresh [insert_bnode, insert_bnode] [] := by
  intro h
  have hnodes : insert_bnode.nodes = [.BlankNode "_:b0"] := rfl
  refine h.store [insert_bnode] insert_bnode [] rfl (.BlankNode "_:b0") ?_ ?_
  · rw [hnodes]
    exact List.mem_cons_self
  · change _ ∈ [] ++ insert_bnode.nodes
    rw [hnodes]
    exact List.mem_cons_self

end horndb.sparql.exec
