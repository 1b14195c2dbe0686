-- The memo of the built snapshots, which the writer and the read views share. A lock is held for
-- one step at a time: a view looks up, builds without the lock and inserts; the writer commits,
-- plans the delta, merges it or drops the memo.
import HornDb.SnapshotScopes

open horndb.wcoj (Triple VecTripleSource)

namespace horndb.sparql.exec.horn

/-! ## The memo -/

/-- The snapshots by their scope, all built at one commit. -/
structure SnapshotMemo where
  version : Nat
  map : SnapshotScope → Option VecTripleSource

namespace SnapshotMemo

def empty (version : Nat) : SnapshotMemo := ⟨version, fun _ => none⟩

def put (memo : SnapshotMemo) (scope : SnapshotScope) (src : VecTripleSource) : SnapshotMemo :=
  { memo with map := Function.update memo.map scope (some src) }

/-- Only these scopes are put in. -/
def scopes : List SnapshotScope := [.DefaultUnion, .DefaultStrict]

/-- The scopes that are held, and how many rows each has. -/
def cached (memo : SnapshotMemo) : List (SnapshotScope × Nat) :=
  scopes.filterMap fun scope => (memo.map scope).map fun src => (scope, src.total)

@[simp]
theorem put_version (memo : SnapshotMemo) (scope : SnapshotScope) (src : VecTripleSource) :
    (memo.put scope src).version = memo.version := rfl

theorem put_eq_some {memo : SnapshotMemo} {scope scope' : SnapshotScope}
    {src src' : VecTripleSource} (h : (memo.put scope src).map scope' = some src') :
    scope' = scope ∧ src' = src ∨ memo.map scope' = some src' := by
  simp only [put, Function.update_apply] at h
  split at h
  · rename_i heq
    exact Or.inl ⟨heq, (Option.some.inj h).symm⟩
  · exact Or.inr h

end SnapshotMemo

/-! ## The delta of a write -/

def SNAPSHOT_DELTA_REBUILD_DIVISOR : Nat := 2

/-- What is merged into the snapshot of a scope. -/
structure ScopeDelta where
  scope : SnapshotScope
  dels : List Triple
  adds : List Triple

def rows_in (rows : List Quad) (g : GraphId) : List Triple :=
  (rows.filter fun q => q.1 = g).map Prod.snd

/-- The graph whose rows apply to a scope: for the union its only graph, where every row is in it. -/
def delta_graph (union_graph : Option GraphId) (rows : List Quad) :
    SnapshotScope → Option GraphId
  | .DefaultStrict => some DEFAULT_GRAPH
  | .DefaultUnion =>
    match union_graph with
    | some g => if rows.all fun q => q.1 = g then some g else none
    | none => none
  | _ => none

def plan_scope (union_graph : Option GraphId) (dels adds : List Quad)
    (entry : SnapshotScope × Nat) : Option ScopeDelta :=
  match delta_graph union_graph (dels ++ adds) entry.1 with
  | none => none
  | some g =>
    let d := rows_in dels g
    let a := rows_in adds g
    if d.length + a.length > entry.2 / SNAPSHOT_DELTA_REBUILD_DIVISOR then none
    else some ⟨entry.1, d, a⟩

/-- The one graph of the default union. -/
def union_graph (names : GraphNames) (snap : StoreSnapshot) (visible : Finset String) :
    Option GraphId :=
  match union_graphs names snap visible with
  | [g] => some g
  | _ => none

/-- Merge scope after scope, up to one that is not held. -/
def merge_plans (memo : SnapshotMemo) : List ScopeDelta → SnapshotMemo × Bool
  | [] => (memo, true)
  | plan :: plans =>
    match memo.map plan.scope with
    | some src => merge_plans (memo.put plan.scope (src.apply_delta plan.dels plan.adds)) plans
    | none => (memo, false)

/-- The merge under the lock: only a memo that still has the tag of the write's start. -/
def merge_delta (memo : SnapshotMemo) (base post : Nat) (plans : List ScopeDelta) :
    SnapshotMemo × Bool :=
  if memo.version = base then
    let (memo, ok) := merge_plans memo plans
    if ok then ({ memo with version := post }, true) else (memo, false)
  else (memo, false)

/-! ## Readers and writer -/

/-- The memory ceiling, and what a built source counts against it. -/
structure Limits where
  max_snapshot_memory : Option Nat
  approx_bytes : VecTripleSource → Nat

def SNAPSHOT_BYTES_PER_TRIPLE : Nat := 6 * 3 * 8

/-- A build that is not yet inserted. -/
structure Build where
  scope : SnapshotScope
  built : VecTripleSource

/-- A view pinned at a commit, with the setting it was pinned under. -/
structure ReadView where
  version : Nat
  visible_inferred : Finset String
  building : Option Build

/-- What a query was answered from. -/
structure Answer where
  version : Nat
  visible_inferred : Finset String
  scope : SnapshotScope
  src : VecTripleSource

/-- The next locked step of the writer. -/
inductive Writer where
  | Idle
  | Plan (base : Nat) (dels adds : List Quad)
  | Merge (base : Nat) (plans : List ScopeDelta)
  | Invalidate

/-- The backend and the views it has handed out. -/
structure HornBackend where
  version : Nat
  commits : Nat → StoreSnapshot
  visible_inferred : Finset String
  snapshots : SnapshotMemo
  writer : Writer
  views : Nat → Option ReadView
  answers : List Answer

namespace HornBackend

def new : HornBackend where
  version := 0
  commits _ := .empty
  visible_inferred := ∅
  snapshots := .empty 0
  writer := .Idle
  views _ := none
  answers := []

def set_view (b : HornBackend) (i : Nat) (view : ReadView) : HornBackend :=
  { b with views := Function.update b.views i (some view) }

def answer (b : HornBackend) (view : ReadView) (scope : SnapshotScope) (src : VecTripleSource) :
    HornBackend :=
  { b with answers := ⟨view.version, view.visible_inferred, scope, src⟩ :: b.answers }

variable (names : GraphNames) (limits : Limits)

/-- The twin of the scope where it is held at this version, and the bytes that are held. -/
def held (b : HornBackend) (version : Nat) (scope : SnapshotScope) :
    Option VecTripleSource × Nat :=
  if b.snapshots.version ≠ version then (none, 0)
  else (scope.default_twin.bind b.snapshots.map,
    (SnapshotMemo.scopes.filterMap b.snapshots.map).map limits.approx_bytes |>.sum)

def saturate (n : Nat) : Nat := min n (2 ^ 64 - 1)

/-- Whether the ceiling refuses the build. -/
def refuses (held : Nat) (snap : StoreSnapshot) : Bool :=
  match limits.max_snapshot_memory with
  | none => false
  | some limit =>
    let requested := saturate (snap.triple_count * SNAPSHOT_BYTES_PER_TRIPLE)
    saturate (held + requested) > limit

/-- A clone of the twin where both scopes read the same triples, or a build from the store. -/
def build (b : HornBackend) (view : ReadView) (scope : SnapshotScope)
    (twin : Option VecTripleSource) : VecTripleSource :=
  let snap := b.commits view.version
  match twin with
  | some twin =>
    if default_scopes_coincide names snap view.visible_inferred then twin
    else .from_triples (scope_triples names snap view.visible_inferred scope)
  | none => .from_triples (scope_triples names snap view.visible_inferred scope)

/-- The first half of `wcoj_snapshot`: a hit is answered, a miss is built unless it is refused. -/
def look_up (b : HornBackend) (i : Nat) (view : ReadView) (scope : SnapshotScope) :
    HornBackend :=
  let snap := b.commits view.version
  if !scope.memoisable then
    b.answer view scope (.from_triples (scope_triples names snap view.visible_inferred scope))
  else
    let hit := if b.snapshots.version = view.version then b.snapshots.map scope else none
    match hit with
    | some src => b.answer view scope src
    | none =>
      let (twin, bytes) := b.held limits view.version scope
      if refuses limits bytes snap then b
      else b.set_view i { view with building := some ⟨scope, b.build names view scope twin⟩ }

/-- The second half: the first build at the newest version stays. -/
def insert (b : HornBackend) (i : Nat) (view : ReadView) (build : Build) : HornBackend :=
  let b := b.set_view i { view with building := none }
  if b.snapshots.version > view.version then b.answer view build.scope build.built
  else
    let memo := if b.snapshots.version < view.version then .empty view.version else b.snapshots
    match memo.map build.scope with
    | some src => { b with snapshots := memo }.answer view build.scope src
    | none => { b with snapshots := memo.put build.scope build.built }.answer view build.scope
        build.built

/-- A commit, where the batch changes something. -/
def commit (b : HornBackend) (dels adds : List Quad) : HornBackend :=
  if (b.commits b.version).changes dels adds then
    { b with
      version := b.version + 1
      commits := Function.update b.commits (b.version + 1)
        ((b.commits b.version).apply_quads dels adds) }
  else b

/-- The first half of `apply_delta_to_snapshots`: what the writer does next. -/
def plan_delta (b : HornBackend) (base : Nat) (dels adds : List Quad) (interned : Bool) : Writer :=
  if b.snapshots.version > base then .Idle
  else if b.snapshots.version < base then .Invalidate
  else if b.snapshots.cached = [] then .Invalidate
  else if !interned then .Invalidate
  else
    let graph :=
      if b.snapshots.cached.any fun e => e.1 = .DefaultUnion then
        union_graph names (b.commits b.version) b.visible_inferred
      else none
    match b.snapshots.cached.mapM (plan_scope graph dels adds) with
    | some plans => .Merge base plans
    | none => .Invalidate

inductive Step where
  | pin_read (i : Nat)
  | drop_view (i : Nat)
  | look_up (i : Nat) (scope : SnapshotScope)
  | insert (i : Nat)
  | request (scope : SnapshotScope) (ord : wcoj.Ordering)
  | apply_quads (dels adds mirror_dels mirror_adds : List Quad)
  | plan_delta (interned : Bool)
  | merge
  | invalidate
  | write (dels adds : List Quad)
  | set_visible_inferred (iris : Finset String)
  | attach_circuit (derived : String) (dels adds : List Quad)

/-- One step, where it can be taken. A view is pinned, and a write begins, while no write is
going on; a view works on at any time. -/
def step (b : HornBackend) : Step → Option HornBackend
  | .pin_read i =>
    match b.writer, b.views i with
    | .Idle, none => some (b.set_view i ⟨b.version, b.visible_inferred, none⟩)
    | _, _ => none
  | .drop_view i => some { b with views := Function.update b.views i none }
  | .look_up i scope =>
    match b.views i with
    | some view =>
      match view.building with
      | none => some (b.look_up names limits i view scope)
      | some _ => none
    | none => none
  | .insert i =>
    match b.views i with
    | some view => view.building.map (b.insert i view)
    | none => none
  | .request scope ord =>
    (b.snapshots.map scope).map fun src =>
      { b with snapshots := b.snapshots.put scope (src.request ord) }
  | .apply_quads dels adds mirror_dels mirror_adds =>
    match b.writer with
    | .Idle =>
      let b' := b.commit (dels ++ mirror_dels) (adds ++ mirror_adds)
      -- What the circuit derives is in another graph, which the delta cannot express.
      if mirror_dels ≠ [] ∨ mirror_adds ≠ [] then some { b' with writer := .Invalidate }
      else if (b.commits b.version).changes dels adds then
        some { b' with writer := .Plan b.version dels adds }
      else some b'
    | _ => none
  | .plan_delta interned =>
    match b.writer with
    | .Plan base dels adds => some { b with writer := b.plan_delta names base dels adds interned }
    | _ => none
  | .merge =>
    match b.writer with
    | .Merge base plans =>
      let (memo, ok) := merge_delta b.snapshots base b.version plans
      some { b with snapshots := memo, writer := if ok then .Idle else .Invalidate }
    | _ => none
  | .invalidate =>
    match b.writer with
    | .Invalidate => some { b with snapshots := .empty b.version, writer := .Idle }
    | _ => none
  | .write dels adds =>
    match b.writer with
    | .Idle =>
      some { b.commit dels adds with
        writer := if (b.commits b.version).changes dels adds then .Invalidate else .Idle }
    | _ => none
  | .set_visible_inferred iris =>
    match b.writer with
    | .Idle =>
      if b.visible_inferred ≠ iris then
        some { b with visible_inferred := iris, writer := .Invalidate }
      else some b
    | _ => none
  | .attach_circuit derived dels adds =>
    match b.writer with
    | .Idle => some { b.commit dels adds with
        visible_inferred := Insert.insert derived b.visible_inferred, writer := .Invalidate }
    | _ => none

def run (b : HornBackend) : List Step → Option HornBackend
  | [] => some b
  | s :: steps => (b.step names limits s).bind fun b => b.run steps

end HornBackend

end horndb.sparql.exec.horn
