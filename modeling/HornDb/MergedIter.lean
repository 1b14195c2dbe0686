-- The cursor that merges sorted leaf blocks, one a predicate: the constant of a leaf sits at the
-- depth that the ordering gives it, and each depth keeps a window of every live leaf.
import HornDb.TrieCursor

open HornDb.Lib

namespace horndb.wcoj

/-! ## Leaf blocks -/

/-- A sorted block of rows that share one component: the two columns hold the others. -/
structure MergedLeaf where
  key : TermId
  level0 : List TermId
  level1 : List TermId
deriving DecidableEq, Repr

namespace MergedLeaf

def col (leaf : MergedLeaf) (c : Nat) : List TermId := if c = 0 then leaf.level0 else leaf.level1

def len (leaf : MergedLeaf) : Nat := leaf.level0.length

end MergedLeaf

/-- What a depth reads from a leaf. -/
inductive Slot where
  | Key
  | Col (c : Nat)
deriving DecidableEq, Repr

/-- Where an ordering puts the constant of a leaf. -/
def Ordering.key_depth : Ordering → Fin 3
  | .Pso | .Pos => 0
  | .Spo | .Ops => 1
  | .Sop | .Osp => 2

/-- The columns take the depths that the key leaves, in turn. -/
def Ordering.slots (ord : Ordering) (depth : Fin 3) : Slot :=
  if depth = ord.key_depth then .Key
  else if depth < ord.key_depth then .Col depth
  else .Col (depth - 1)

/-- The rows of a leaf that are left at a depth. -/
structure Window where
  lo : Nat
  hi : Nat
  cur : Nat
deriving DecidableEq, Repr

def Window.default : Window := ⟨0, 0, 0⟩

structure MergedIter where
  leaves : List MergedLeaf
  slots : Fin 3 → Slot
  /-- By depth and position of the leaf. -/
  win : Fin 3 → Nat → Window
  /-- The leaves whose rows still match, by depth. -/
  live : Fin 3 → List Nat

namespace MergedIter

def leaf (it : MergedIter) (i : Nat) : MergedLeaf := it.leaves.getD i ⟨0, [], []⟩

def root_window (leaves : List MergedLeaf) (i : Nat) : Window :=
  ⟨0, (leaves.getD i ⟨0, [], []⟩).len, 0⟩

/-- The positions of all leaves, counted by 32-bit words. -/
def all_live (leaves : List MergedLeaf) : List Nat := List.range (leaves.length % 2 ^ 32)

def new (ord : Ordering) (leaves : List MergedLeaf) : MergedIter :=
  let leaves := (leaves.filter fun l => 0 < l.len).mergeSort fun a b => a.key ≤ b.key
  { leaves
    slots := ord.slots
    win := fun d => if d = 0 then root_window leaves else fun _ => .default
    live := fun d => if d = 0 then all_live leaves else [] }

/-- The value of a leaf at a depth, unless it is exhausted there. -/
def value_at (it : MergedIter) (depth : Fin 3) (i : Nat) : Option TermId :=
  let w := it.win depth i
  if w.cur ≥ w.hi then none
  else
    match it.slots depth with
    | .Key => some (it.leaf i).key
    | .Col c => some (((it.leaf i).col c).getD w.cur 0)

def peek (it : MergedIter) (depth : Fin 3) : Option TermId :=
  ((it.live depth).filterMap (it.value_at depth)).min?

/-- Every live leaf has its window moved. -/
def move_live (it : MergedIter) (depth : Fin 3) (f : Nat → Window → Window) : Nat → Window :=
  fun i => if i ∈ it.live depth then f i (it.win depth i) else it.win depth i

def seek_window (slot : Slot) (leaf : MergedLeaf) (value : TermId) (w : Window) : Window :=
  if w.cur ≥ w.hi then w
  else
    match slot with
    | .Key => if leaf.key < value then { w with cur := w.hi } else w
    | .Col c =>
      { w with cur := w.cur + partition_point (· < value) (slice (leaf.col c) w.cur w.hi) }

def seek (it : MergedIter) (depth : Fin 3) (value : TermId) : MergedIter :=
  { it with
    win := Function.update it.win depth (it.move_live depth fun i w =>
      seek_window (it.slots depth) (it.leaf i) value w) }

/-- The run of the value at the front of a parent window. -/
def child_window (slot : Slot) (leaf : MergedLeaf) (v : TermId) (pw : Window) : Window :=
  match slot with
  | .Key => ⟨pw.cur, pw.hi, pw.cur⟩
  | .Col c =>
    ⟨pw.cur, pw.cur + partition_point (· == v) (slice (leaf.col c) pw.cur pw.hi), pw.cur⟩

/-- `none` is a panic: the depth is asserted. -/
def open_level (it : MergedIter) (depth : Fin 3) : Option MergedIter :=
  if depth = 0 then none
  else
    let parent := depth - 1
    match it.peek parent with
    | none =>
      some { it with
        win := Function.update it.win depth fun _ => .default
        live := Function.update it.live depth [] }
    | some v =>
      some { it with
        win := Function.update it.win depth fun i =>
          if i ∈ it.live parent then
            if it.value_at parent i ≠ some v then .default
            else child_window (it.slots parent) (it.leaf i) v (it.win parent i)
          else it.win depth i
        live := Function.update it.live depth
          ((it.live parent).filter fun i => it.value_at parent i = some v) }

def up (it : MergedIter) (depth : Fin 3) : MergedIter :=
  if depth = 0 then
    { it with
      win := Function.update it.win 0 (root_window it.leaves)
      live := Function.update it.live 0 (all_live it.leaves) }
  else
    { it with
      win := Function.update it.win depth (it.move_live depth fun _ _ => .default)
      live := Function.update it.live depth [] }

def rewind (it : MergedIter) (depth : Fin 3) : MergedIter :=
  { it with
    win := Function.update it.win depth (it.move_live depth fun _ w => { w with cur := w.lo }) }

/-- This cursor hands out no active run. -/
def step (it : MergedIter) : Call → Option MergedIter
  | .seek d value => some (it.seek d value)
  | .open_level d => it.open_level d
  | .up d => some (it.up d)
  | .rewind d => some (it.rewind d)
  | .active_run _ => some it

def run (ord : Ordering) (leaves : List MergedLeaf) (script : List Call) : Option MergedIter :=
  script.foldlM step (new ord leaves)

end MergedIter

/-! ## A leaf as a table -/

/-- A row from the constant of a leaf and its two columns. -/
def Ordering.place (ord : Ordering) (key a b : TermId) : Row :=
  match ord.key_depth with
  | 0 => .of key a b
  | 1 => .of a key b
  | 2 => .of a b key

namespace MergedLeaf

/-- A row of a leaf in an ordering. -/
def row (ord : Ordering) (leaf : MergedLeaf) (j : Nat) : Row :=
  ord.place leaf.key (leaf.level0.getD j 0) (leaf.level1.getD j 0)

/-- What a slot reads of a leaf is the key of its row. -/
theorem row_key (ord : Ordering) (leaf : MergedLeaf) (j : Nat) (d : Fin 3) :
    (leaf.row ord j).key d =
      match ord.slots d with
      | .Key => leaf.key
      | .Col c => (leaf.col c).getD j 0 := by
  match d with
  | 0 => cases ord <;> rfl
  | 1 => cases ord <;> rfl
  | 2 => cases ord <;> rfl

/-- What a leaf promises: columns of one length, with rows in order and none twice. -/
structure Sorted (ord : Ordering) (leaf : MergedLeaf) : Prop where
  length_eq : leaf.level1.length = leaf.level0.length
  table : Table leaf.len (leaf.row ord)

theorem Sorted.col_length {ord : Ordering} {leaf : MergedLeaf} (h : leaf.Sorted ord) (c : Nat) :
    (leaf.col c).length = leaf.len := by
  unfold col
  split
  · rfl
  · exact h.length_eq

end MergedLeaf

/-- The leaves hold the triples of an ordering, and are not more than a 32-bit word counts. -/
structure Leaves (ord : Ordering) (triples : List Triple) (leaves : List MergedLeaf) : Prop where
  sorted : ∀ leaf ∈ leaves, leaf.Sorted ord
  few : leaves.length < 2 ^ 32
  rows : ∀ r, (∃ leaf ∈ leaves, ∃ j < leaf.len, leaf.row ord j = r) ↔
    ∃ t ∈ triples, t.by_ordering ord = r

namespace MergedIter

section Leaf

variable {ord : Ordering} {leaf : MergedLeaf} {d : Fin 3} {l : Level} {w : Window}

/-- A leaf's window of a level. -/
abbrev Shows (ord : Ordering) (leaf : MergedLeaf) (d : Fin 3) (l : Level) (w : Window) : Prop :=
  LevelWindow leaf.len (leaf.row ord) d l w.lo w.hi w.cur

theorem seek_window_shows (hleaf : leaf.Sorted ord) (h : Shows ord leaf d l w) (value : TermId) :
    Shows ord leaf d { l with target := max l.target value }
      (seek_window (ord.slots d) leaf value w) := by
  have hlo := h.splits.lo_le
  have hcur := h.splits.le_hi
  have hfall := (h.falls_lt hleaf.table value).narrow hlo (le_refl _)
  have hkey := fun j => leaf.row_key ord j d
  unfold seek_window
  split
  · rename_i hend
    have heq : w.cur = w.hi := by omega
    refine h.seek ?_
    rw [heq]
    exact .empty _
  · rename_i hlt
    split
    · rename_i hslot
      rw [hslot] at hkey
      split
      · rename_i hless
        refine h.seek ⟨hcur, le_refl _, fun i _ _ => ?_,
          fun i h1 h2 => absurd h2 (not_lt_of_ge h1)⟩
        rw [decide_eq_true_eq, hkey]
        exact hless
      · rename_i hless
        refine h.seek ⟨le_refl _, hcur, fun i h1 h2 => by omega, fun i _ _ => ?_⟩
        rw [decide_eq_false_iff_not, hkey]
        exact hless
    · rename_i c hslot
      rw [hslot] at hkey
      have hsame : (fun j => decide ((leaf.row ord j).key d < value)) =
          fun j => decide ((leaf.col c).getD j 0 < value) := funext fun j => by rw [hkey]
      refine h.seek ?_
      rw [hsame] at hfall ⊢
      exact slice_partition_splits (decide <| · < value) hcur
        (by rw [hleaf.col_length]; exact h.hi_le) hfall

theorem child_window_shows (hleaf : leaf.Sorted ord) (h : Shows ord leaf (d - 1) l w) (hd : d ≠ 0)
    (hcur : w.cur < w.hi) {v : TermId} (hv : (leaf.row ord w.cur).key (d - 1) = v) :
    Shows ord leaf d ⟨l.path ++ [v], 0⟩ (child_window (ord.slots (d - 1)) leaf v w) := by
  subst hv
  have hlo := h.splits.lo_le
  have hfall := (h.falls_le hleaf.table ((leaf.row ord w.cur).key (d - 1))).narrow hlo (le_refl _)
  have hkey := fun j => leaf.row_key ord j (d - 1)
  unfold child_window
  split
  · rename_i hslot
    rw [hslot] at hkey
    refine h.open_level hleaf.table hd hcur ⟨hcur.le, le_refl _, fun i _ _ => ?_,
      fun i h1 h2 => absurd h2 (not_lt_of_ge h1)⟩
    rw [decide_eq_true_eq, hkey, hkey]
  · rename_i c hslot
    rw [hslot] at hkey
    dsimp only at hkey
    refine h.open_level hleaf.table hd hcur ?_
    -- from the cursor on no key is less, so to be at most the value is to be the value
    have hsame : ∀ j, w.cur ≤ j → j < w.hi →
        ((leaf.col c).getD j 0 == (leaf.row ord w.cur).key (d - 1)) =
          decide ((leaf.row ord j).key (d - 1) ≤ (leaf.row ord w.cur).key (d - 1)) := by
      intro j h1 h2
      have hle := h.key_le hleaf.table hlo h1 h2
      rw [← hkey, Bool.eq_iff_iff, beq_iff_eq, decide_eq_true_eq]
      exact ⟨fun heq => heq.le, fun hge => le_antisymm hge hle⟩
    have hequal : Falls (fun j => (leaf.col c).getD j 0 == (leaf.row ord w.cur).key (d - 1)) w.cur
        w.hi := by
      intro i j h1 h2 h3
      dsimp only
      rw [hsame i h1 (by omega), hsame j (by omega) h3]
      exact hfall i j h1 h2 h3
    have hsplit := slice_partition_splits (· == (leaf.row ord w.cur).key (d - 1)) hcur.le
      (by rw [hleaf.col_length]; exact h.hi_le) hequal
    exact hsplit.congr fun j h1 h2 => (hsame j h1 h2).symm

end Leaf

/-! ## The cursor follows the trie -/

/-- A depth stands where the cursor of the trie stands: every live leaf shows the level, and the
others have no row under its path. -/
structure At (ord : Ordering) (leaves : List MergedLeaf) (d : Fin 3) (win : Nat → Window)
    (live : List Nat) (l : Level) : Prop where
  shows : ∀ i ∈ live, i < leaves.length ∧ Shows ord (leaves.getD i ⟨0, [], []⟩) d l (win i)
  others : ∀ i < leaves.length, i ∉ live →
    table_keys (leaves.getD i ⟨0, [], []⟩).len ((leaves.getD i ⟨0, [], []⟩).row ord) d l.path = ∅

/-- A closed depth has no live leaf. -/
def Depth (ord : Ordering) (leaves : List MergedLeaf) (d : Fin 3) (win : Nat → Window)
    (live : List Nat) : Option Level → Prop
  | none => live = []
  | some l => At ord leaves d win live l

structure Follows (ord : Ordering) (it : MergedIter) (c : TrieCursor) : Prop where
  slots_eq : it.slots = ord.slots
  depth : ∀ d, Depth ord it.leaves d (it.win d) (it.live d) (c d)

section Follows

variable {ord : Ordering} {triples : List Triple} {it : MergedIter} {c c' : TrieCursor} {d : Fin 3}

theorem leaf_sorted (h : Leaves ord triples it.leaves) {i : Nat} (hi : i < it.leaves.length) :
    (it.leaf i).Sorted ord := h.sorted _ (getD_mem_of_lt hi _)

/-- The value of a leaf is the key under its cursor. -/
theorem Follows.value_at (h : Follows ord it c) (d : Fin 3) (i : Nat) :
    it.value_at d i = if (it.win d i).cur < (it.win d i).hi then
      some (((it.leaf i).row ord (it.win d i).cur).key d) else none := by
  unfold MergedIter.value_at
  dsimp only
  by_cases hcur : (it.win d i).cur < (it.win d i).hi
  · rw [if_neg (not_le_of_gt hcur), if_pos hcur, h.slots_eq, MergedLeaf.row_key]
    cases ord.slots d <;> rfl
  · rw [if_pos (not_lt.mp hcur), if_neg hcur]

/-- The keys that a leaf has left of a level. -/
def leaf_left (ord : Ordering) (leaf : MergedLeaf) (d : Fin 3) (l : Level) : Set TermId :=
  {k | k ∈ table_keys leaf.len (leaf.row ord) d l.path ∧ l.target ≤ k}

theorem Follows.value_none (h : Follows ord it c) {i : Nat} {l : Level}
    (hshows : Shows ord (it.leaf i) d l (it.win d i)) (hvalue : it.value_at d i = none) :
    leaf_left ord (it.leaf i) d l = ∅ := by
  rw [h.value_at] at hvalue
  split at hvalue
  · cases hvalue
  · rename_i hcur
    exact hshows.none_left (not_lt.mp hcur)

theorem Follows.value_some (h : Follows ord it c) {i : Nat} {l : Level} {k : TermId}
    (hleaf : (it.leaf i).Sorted ord) (hshows : Shows ord (it.leaf i) d l (it.win d i))
    (hvalue : it.value_at d i = some k) :
    (it.win d i).cur < (it.win d i).hi ∧ ((it.leaf i).row ord (it.win d i).cur).key d = k ∧
      IsLeast (leaf_left ord (it.leaf i) d l) k := by
  rw [h.value_at] at hvalue
  split at hvalue
  · rename_i hcur
    cases hvalue
    exact ⟨hcur, rfl, hshows.least hleaf.table hcur⟩
  · cases hvalue

/-- The keys of a level are those of its live leaves. -/
theorem At.mem_keys {l : Level} (hleaves : Leaves ord triples it.leaves)
    (h : At ord it.leaves d (it.win d) (it.live d) l) {k : TermId} :
    k ∈ trie_keys ord triples d l.path ↔
      ∃ i ∈ it.live d, k ∈ table_keys (it.leaf i).len ((it.leaf i).row ord) d l.path := by
  constructor
  · rintro ⟨t, ht, hpath, hkey⟩
    obtain ⟨leaf, hleaf, j, hj, hrow⟩ := (hleaves.rows _).mpr ⟨t, ht, rfl⟩
    obtain ⟨i, hi, rfl⟩ := List.mem_iff_getElem.mp hleaf
    have hget : it.leaf i = it.leaves[i] := List.getD_eq_getElem _ _ hi
    have hmem : k ∈ table_keys (it.leaf i).len ((it.leaf i).row ord) d l.path := by
      rw [hget]
      exact ⟨j, hj, hrow ▸ hpath, hrow ▸ hkey⟩
    by_cases hlive : i ∈ it.live d
    · exact ⟨i, hlive, hmem⟩
    · have hnone := h.others i hi hlive
      exact absurd hmem (by rw [MergedIter.leaf, hnone]; exact fun hk => hk)
  · rintro ⟨i, hi, j, hj, hpath, hkey⟩
    obtain ⟨hlt, -⟩ := h.shows i hi
    obtain ⟨t, ht, hrow⟩ := (hleaves.rows _).mp ⟨it.leaf i, getD_mem_of_lt hlt _, j, hj, rfl⟩
    exact ⟨t, ht, by rw [hrow]; exact hpath, by rw [hrow]; exact hkey⟩

/-- The least of the values of the live leaves is the least key left. -/
theorem Follows.peek (h : Follows ord it c) (hleaves : Leaves ord triples it.leaves) (d : Fin 3) :
    it.peek d = c.peek ord triples d := by
  have hdepth := h.depth d
  unfold MergedIter.peek TrieCursor.peek
  cases hl : c d with
  | none =>
    rw [hl] at hdepth
    rw [show it.live d = [] from hdepth]
    rfl
  | some l =>
    rw [hl] at hdepth
    have hat : At ord it.leaves d (it.win d) (it.live d) l := hdepth
    rw [Option.bind_some]
    cases hmin : ((it.live d).filterMap (it.value_at d)).min? with
    | none =>
      rw [eq_comm, Level.peek_eq_none, Set.eq_empty_iff_forall_notMem]
      rintro k ⟨hk, htarget⟩
      obtain ⟨i, hi, hkeys⟩ := (hat.mem_keys hleaves).mp hk
      have hnone := List.forall_none_of_filterMap_eq_nil (List.min?_eq_none_iff.mp hmin) i hi
      have hempty := h.value_none (hat.shows i hi).2 hnone
      exact Set.eq_empty_iff_forall_notMem.mp hempty k ⟨hkeys, htarget⟩
    | some k =>
      rw [eq_comm, Level.peek_eq_some]
      obtain ⟨hmem, hfirst⟩ := List.min?_eq_some_iff.mp hmin
      obtain ⟨i, hi, hvalue⟩ := List.mem_filterMap.mp hmem
      obtain ⟨hlt, hshows⟩ := hat.shows i hi
      obtain ⟨-, -, hleast⟩ := h.value_some (leaf_sorted hleaves hlt) hshows hvalue
      refine ⟨⟨(hat.mem_keys hleaves).mpr ⟨i, hi, hleast.1.1⟩, hleast.1.2⟩, ?_⟩
      rintro k' ⟨hk', htarget⟩
      obtain ⟨i', hi', hkeys⟩ := (hat.mem_keys hleaves).mp hk'
      obtain ⟨hlt', hshows'⟩ := hat.shows i' hi'
      cases hvalue' : it.value_at d i' with
      | none =>
        have hempty := h.value_none hshows' hvalue'
        exact absurd ⟨hkeys, htarget⟩ (Set.eq_empty_iff_forall_notMem.mp hempty k')
      | some k'' =>
        obtain ⟨-, -, hleast'⟩ := h.value_some (leaf_sorted hleaves hlt') hshows' hvalue'
        have hle := hfirst k'' (List.mem_filterMap.mpr ⟨i', hi', hvalue'⟩)
        exact hle.trans (hleast'.2 ⟨hkeys, htarget⟩)

/-- A call that moves one depth. -/
theorem Follows.move {it' : MergedIter} {ol : Option Level} (h : Follows ord it c)
    (hslots : it'.slots = it.slots) (hleaves : it'.leaves = it.leaves)
    (hrest : ∀ d' ≠ d, it'.win d' = it.win d' ∧ it'.live d' = it.live d')
    (hd : Depth ord it'.leaves d (it'.win d) (it'.live d) ol) :
    Follows ord it' (Function.update c d ol) := by
  refine ⟨hslots.trans h.slots_eq, fun d' => ?_⟩
  by_cases heq : d' = d
  · subst heq
    rw [Function.update_self]
    exact hd
  · obtain ⟨h1, h2⟩ := hrest d' heq
    rw [Function.update_of_ne heq, h1, h2, hleaves]
    exact h.depth d'

/-- All leaves show the root. -/
theorem root_depth (hleaves : Leaves ord triples it.leaves) :
    Depth ord it.leaves 0 (root_window it.leaves) (all_live it.leaves)
      (some TrieCursor.rootLevel) := by
  have hlive : all_live it.leaves = List.range it.leaves.length := by
    rw [all_live, Nat.mod_eq_of_lt hleaves.few]
  refine ⟨fun i hi => ?_, fun i hi hnot => ?_⟩
  · rw [hlive, List.mem_range] at hi
    exact ⟨hi, LevelWindow.root _ _⟩
  · rw [hlive, List.mem_range] at hnot
    exact absurd hi hnot

theorem Follows.seek (h : Follows ord it c) (hleaves : Leaves ord triples it.leaves) (d : Fin 3)
    (value : TermId) : Follows ord (it.seek d value)
      (Function.update c d ((c d).map fun l => { l with target := max l.target value })) := by
  have hdepth := h.depth d
  refine h.move rfl rfl (fun d' hd' => ⟨Function.update_of_ne hd' _ _, rfl⟩) ?_
  unfold MergedIter.seek
  dsimp only
  rw [Function.update_self]
  cases hl : c d with
  | none =>
    rw [hl] at hdepth
    exact hdepth
  | some l =>
    rw [hl] at hdepth
    refine ⟨fun i hi => ?_, hdepth.others⟩
    obtain ⟨hlt, hshows⟩ := hdepth.shows i hi
    refine ⟨hlt, ?_⟩
    unfold move_live
    rw [if_pos hi, h.slots_eq]
    exact seek_window_shows (leaf_sorted hleaves hlt) hshows value

theorem Follows.open_level (h : Follows ord it c) (hleaves : Leaves ord triples it.leaves)
    (hc : c.step ord triples (.open_level d) = some c') :
    ∃ it', it.open_level d = some it' ∧ it'.leaves = it.leaves ∧ Follows ord it' c' := by
  obtain ⟨hd, l, k, hl, hk, rfl⟩ := TrieCursor.step_open hc
  have hpeek := h.peek hleaves (d - 1)
  rw [TrieCursor.peek, hl, Option.bind_some, hk] at hpeek
  have hparent := h.depth (d - 1)
  rw [hl] at hparent
  have hparent : At ord it.leaves (d - 1) (it.win (d - 1)) (it.live (d - 1)) l := hparent
  obtain ⟨⟨-, htarget⟩, hleast⟩ := Level.peek_eq_some.mp hk
  unfold MergedIter.open_level
  dsimp only
  rw [if_neg hd, hpeek]
  refine ⟨_, rfl, rfl, h.move rfl rfl (fun d' hd' => ⟨Function.update_of_ne hd' _ _,
    Function.update_of_ne hd' _ _⟩) ?_⟩
  dsimp only
  rw [Function.update_self, Function.update_self]
  refine ⟨fun i hi => ?_, fun i hlt hnot => ?_⟩
  · obtain ⟨hi, hvalue⟩ := List.mem_filter.mp hi
    have hvalue := of_decide_eq_true hvalue
    obtain ⟨hlt, hshows⟩ := hparent.shows i hi
    obtain ⟨hcur, hkey, -⟩ := h.value_some (leaf_sorted hleaves hlt) hshows hvalue
    refine ⟨hlt, ?_⟩
    rw [if_pos hi, if_neg (not_not.mpr hvalue), h.slots_eq]
    exact child_window_shows (leaf_sorted hleaves hlt) hshows hd hcur hkey
  · -- a leaf that has another value, or none, has no row of the key
    rw [Set.eq_empty_iff_forall_notMem]
    rintro k' ⟨j, hj, hpath, -⟩
    rw [Row.path_open _ hd] at hpath
    obtain ⟨hpath, hkey⟩ := List.append_inj' hpath rfl
    rw [List.cons.injEq] at hkey
    have hkeys : k ∈ table_keys (it.leaf i).len ((it.leaf i).row ord) (d - 1) l.path :=
      ⟨j, hj, hpath, hkey.1⟩
    by_cases hi : i ∈ it.live (d - 1)
    · obtain ⟨-, hshows⟩ := hparent.shows i hi
      cases hvalue : it.value_at (d - 1) i with
      | none =>
        have hempty := h.value_none hshows hvalue
        exact Set.eq_empty_iff_forall_notMem.mp hempty k ⟨hkeys, htarget⟩
      | some k'' =>
        obtain ⟨-, -, hleast'⟩ := h.value_some (leaf_sorted hleaves hlt) hshows hvalue
        have hle := hleast'.2 ⟨hkeys, htarget⟩
        have hge := hleast ⟨(hparent.mem_keys hleaves).mpr ⟨i, hi, hleast'.1.1⟩, hleast'.1.2⟩
        refine hnot (List.mem_filter.mpr ⟨hi, decide_eq_true ?_⟩)
        rw [hvalue, le_antisymm hle hge]
    · have hempty := hparent.others i hlt hi
      exact Set.eq_empty_iff_forall_notMem.mp hempty k hkeys

theorem Follows.up (h : Follows ord it c) (hleaves : Leaves ord triples it.leaves) (d : Fin 3) :
    Follows ord (it.up d)
      (Function.update c d (if d = 0 then some TrieCursor.rootLevel else none)) := by
  unfold MergedIter.up
  by_cases hd : d = 0
  · subst hd
    rw [if_pos rfl, if_pos rfl]
    refine h.move rfl rfl (fun d' hd' => ⟨Function.update_of_ne hd' _ _,
      Function.update_of_ne hd' _ _⟩) ?_
    dsimp only
    rw [Function.update_self, Function.update_self]
    exact root_depth hleaves
  · rw [if_neg hd, if_neg hd]
    refine h.move rfl rfl (fun d' hd' => ⟨Function.update_of_ne hd' _ _,
      Function.update_of_ne hd' _ _⟩) ?_
    dsimp only
    rw [Function.update_self, Function.update_self]
    rfl

theorem Follows.rewind (h : Follows ord it c)
    (hc : c.step ord triples (.rewind d) = some c') : Follows ord (it.rewind d) c' := by
  obtain ⟨l, hl, rfl⟩ := TrieCursor.step_rewind hc
  have hdepth := h.depth d
  rw [hl] at hdepth
  refine h.move rfl rfl (fun d' hd' => ⟨Function.update_of_ne hd' _ _, rfl⟩) ?_
  unfold MergedIter.rewind
  dsimp only
  rw [Function.update_self]
  refine ⟨fun i hi => ?_, hdepth.others⟩
  obtain ⟨hlt, hshows⟩ := hdepth.shows i hi
  refine ⟨hlt, ?_⟩
  unfold move_live
  rw [if_pos hi]
  exact hshows.rewind

theorem Follows.step (h : Follows ord it c) (hleaves : Leaves ord triples it.leaves) {call : Call}
    (hc : c.step ord triples call = some c') :
    ∃ it', it.step call = some it' ∧ it'.leaves = it.leaves ∧ Follows ord it' c' := by
  cases call with
  | seek d value =>
    cases hc
    exact ⟨_, rfl, rfl, h.seek hleaves d value⟩
  | open_level d => exact h.open_level hleaves hc
  | up d =>
    cases hc
    refine ⟨_, rfl, ?_, h.up hleaves d⟩
    unfold MergedIter.up
    split <;> rfl
  | rewind d => exact ⟨_, rfl, rfl, h.rewind hc⟩
  | active_run d =>
    cases hc
    exact ⟨_, rfl, rfl, h⟩

end Follows

end MergedIter

end horndb.wcoj
