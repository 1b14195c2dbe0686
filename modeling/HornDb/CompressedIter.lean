-- The cursor over packed columns: the ranges and indices of the cursor over plain ones, with the
-- searches of the packed columns.
import HornDb.PackedColumn
import HornDb.TrieCursor

open HornDb.Lib

namespace horndb.wcoj

/-! ## The source and its cursor -/

/-- Three packed columns of one ordering. -/
structure OrderColumns where
  cols : Fin 3 → PackedColumn
  rows : Nat

structure CompressedTripleSource where
  sorted : Ordering → OrderColumns
  total : Nat

def CompressedTripleSource.from_triples (triples : List Triple) : CompressedTripleSource where
  sorted ord :=
    let cols := TripleColumns.build (triples.map (·.by_ordering ord))
    ⟨fun d => .from_slice (cols.view d), cols.rows.length⟩
  total := triples.length

structure CompressedIter where
  cols : Fin 3 → PackedColumn
  rows : Nat
  range : Fin 3 → Nat × Nat
  cursor : Fin 3 → Nat

namespace CompressedIter

def new (oc : OrderColumns) : CompressedIter where
  cols := oc.cols
  rows := oc.rows
  range d := if d = 0 then (0, oc.rows) else (0, 0)
  cursor _ := 0

def peek (it : CompressedIter) (depth : Fin 3) : Option TermId :=
  let (lo, hi) := it.range depth
  let c := max (it.cursor depth) lo
  if c ≥ hi then none else some ((it.cols depth).get c)

def seek (kernel : simd.Kernel) (it : CompressedIter) (depth : Fin 3) (value : TermId) :
    CompressedIter :=
  let (lo, hi) := it.range depth
  let start := max (it.cursor depth) lo
  let idx := (it.cols depth).lower_bound kernel start hi value
  { it with cursor := Function.update it.cursor depth idx }

/-- `none` is a panic: the depth is asserted, and the row under the parent's cursor is read. -/
def open_level (it : CompressedIter) (depth : Fin 3) : Option CompressedIter :=
  if depth = 0 then none
  else
    let parent := depth - 1
    let (_, hi_parent) := it.range parent
    let row := it.cursor parent
    if row < it.rows then
      let v := (it.cols parent).get row
      let new_hi := (it.cols parent).upper_bound row hi_parent v
      some { it with
        range := Function.update it.range depth (row, new_hi)
        cursor := Function.update it.cursor depth row }
    else none

def up (it : CompressedIter) (depth : Fin 3) : CompressedIter :=
  if depth = 0 then
    { it with
      range := Function.update it.range 0 (0, it.rows)
      cursor := Function.update it.cursor 0 0 }
  else
    { it with
      range := Function.update it.range depth (0, 0)
      cursor := Function.update it.cursor depth 0 }

def rewind (it : CompressedIter) (depth : Fin 3) : CompressedIter :=
  { it with cursor := Function.update it.cursor depth (it.range depth).1 }

/-- This cursor hands out no active run. -/
def step (kernel : simd.Kernel) (it : CompressedIter) : Call → Option CompressedIter
  | .seek d value => some (it.seek kernel d value)
  | .open_level d => it.open_level d
  | .up d => some (it.up d)
  | .rewind d => some (it.rewind d)
  | .active_run _ => some it

def run (kernel : simd.Kernel) (oc : OrderColumns) (script : List Call) : Option CompressedIter :=
  script.foldlM (step kernel) (new oc)

/-! ## The cursor follows the trie -/

/-- A cursor over the packed columns of a table that stands where the cursor of the trie stands. -/
structure Follows (cols : TripleColumns) (it : CompressedIter) (c : TrieCursor) : Prop where
  reads : ∀ d, (it.cols d).Reads (cols.view d)
  rows_eq : it.rows = cols.rows.length
  ranged : ∀ d, Ranged cols.rows.length cols.row d (it.range d) (it.cursor d) (c d)

section Follows

variable {cols : TripleColumns} {ord : Ordering} {triples : List Triple} {it : CompressedIter}
  {c c' : TrieCursor} {d : Fin 3}

theorem Follows.get_eq (h : Follows cols it c) {i : Nat} (hi : i < cols.rows.length) (d : Fin 3) :
    (it.cols d).get i = (cols.row i).key d := by
  rw [(h.reads d).get_eq i (by rwa [TripleColumns.view, List.length_map]), cols.view_getD]

theorem follows_new (cols : TripleColumns) (hbound : ∀ r ∈ cols.rows, ∀ d, r.key d < 2 ^ 64) :
    Follows cols (new ⟨fun d => .from_slice (cols.view d), cols.rows.length⟩) .start := by
  refine ⟨fun d => PackedColumn.from_slice_reads fun v hv => ?_, rfl, fun d => Ranged.start _ _ d⟩
  obtain ⟨r, hr, rfl⟩ := List.mem_map.mp hv
  exact hbound r hr d

theorem Follows.peek (h : Follows cols it c) (hcols : cols.Holds ord triples.toFinset) (d : Fin 3) :
    it.peek d = c.peek ord triples d := by
  have hpeek := (h.ranged d).peek cols.table hcols.rows
  have hbounds := (h.ranged d).bounds
  unfold CompressedIter.peek
  dsimp only
  rw [TrieCursor.peek, ← hpeek, Nat.max_eq_left hbounds.1]
  by_cases hcur : it.cursor d < (it.range d).2
  · rw [if_neg (not_le_of_gt hcur), if_pos hcur, h.get_eq (lt_of_lt_of_le hcur hbounds.2.2)]
  · rw [if_pos (not_lt.mp hcur), if_neg hcur]

/-- A call that moves one depth. -/
theorem Follows.move {it' : CompressedIter} {ol : Option Level} (h : Follows cols it c)
    (hcols : it'.cols = it.cols) (hrows : it'.rows = it.rows)
    (hrest : ∀ d' ≠ d, it'.range d' = it.range d' ∧ it'.cursor d' = it.cursor d')
    (hd : Ranged cols.rows.length cols.row d (it'.range d) (it'.cursor d) ol) :
    Follows cols it' (Function.update c d ol) := by
  refine ⟨hcols ▸ h.reads, hrows.trans h.rows_eq, fun d' => ?_⟩
  by_cases heq : d' = d
  · subst heq
    rw [Function.update_self]
    exact hd
  · obtain ⟨h1, h2⟩ := hrest d' heq
    rw [Function.update_of_ne heq, h1, h2]
    exact h.ranged d'

theorem Follows.seek (h : Follows cols it c) (kernel : simd.Kernel) (d : Fin 3) {value : TermId}
    (hv : value < 2 ^ 64) : Follows cols (it.seek kernel d value)
      (Function.update c d ((c d).map fun l => { l with target := max l.target value })) := by
  have hranged := h.ranged d
  have hbounds := hranged.bounds
  have hfall := hranged.falls_lt cols.table value
  have hlen : (cols.view d).length = cols.rows.length := List.length_map _
  have hsame : (fun i => decide ((cols.row i).key d < value)) =
      fun i => decide ((cols.view d).getD i 0 < value) := funext fun i => by rw [cols.view_getD]
  rw [hsame] at hfall
  have hsplit := (h.reads d).lower_bound_splits kernel hv hbounds.2.1 (by omega) hfall
  rw [← hsame] at hsplit
  refine h.move rfl rfl (fun d' hd' => ⟨rfl, Function.update_of_ne hd' _ _⟩) ?_
  unfold CompressedIter.seek
  dsimp only
  rw [Function.update_self, Nat.max_eq_left hbounds.1]
  exact hranged.seek hsplit

theorem Follows.open_level (h : Follows cols it c) (hcols : cols.Holds ord triples.toFinset)
    (hc : c.step ord triples (.open_level d) = some c') :
    ∃ it', it.open_level d = some it' ∧ Follows cols it' c' := by
  obtain ⟨hd, l, k, hl, hk, rfl⟩ := TrieCursor.step_open hc
  have hparent := h.ranged (d - 1)
  rw [hl] at hparent
  obtain ⟨hcur, hkey, hfall, hopen⟩ := hparent.open_level cols.table hcols.rows hd hk
  have hhi := hparent.bounds.2.2
  have hlen : (cols.view (d - 1)).length = cols.rows.length := List.length_map _
  have hsame : (fun i => decide ((cols.row i).key (d - 1) ≤ k)) =
      fun i => decide ((cols.view (d - 1)).getD i 0 ≤ k) := funext fun i => by rw [cols.view_getD]
  rw [hsame] at hfall
  have hsplit := (h.reads (d - 1)).upper_bound_splits hcur.le (by omega) hfall
  rw [← hsame] at hsplit
  have hrow : it.cursor (d - 1) < cols.rows.length := by omega
  unfold CompressedIter.open_level
  dsimp only
  rw [if_neg hd, if_pos (by rw [h.rows_eq]; exact hrow), h.get_eq hrow, hkey]
  refine ⟨_, rfl, h.move rfl rfl (fun d' hd' => ⟨Function.update_of_ne hd' _ _,
    Function.update_of_ne hd' _ _⟩) ?_⟩
  dsimp only
  rw [Function.update_self, Function.update_self]
  exact hopen _ hsplit

theorem Follows.up (h : Follows cols it c) (d : Fin 3) : Follows cols (it.up d)
    (Function.update c d (if d = 0 then some TrieCursor.rootLevel else none)) := by
  have hup := Ranged.up cols.rows.length cols.row d
  unfold CompressedIter.up
  by_cases hd : d = 0
  · subst hd
    rw [if_pos rfl] at hup ⊢
    refine h.move rfl rfl (fun d' hd' => ⟨Function.update_of_ne hd' _ _,
      Function.update_of_ne hd' _ _⟩) ?_
    dsimp only
    rw [Function.update_self, Function.update_self, h.rows_eq]
    exact hup
  · rw [if_neg hd] at hup ⊢
    refine h.move rfl rfl (fun d' hd' => ⟨Function.update_of_ne hd' _ _,
      Function.update_of_ne hd' _ _⟩) ?_
    dsimp only
    rw [Function.update_self, Function.update_self]
    exact hup

theorem Follows.rewind (h : Follows cols it c)
    (hc : c.step ord triples (.rewind d) = some c') : Follows cols (it.rewind d) c' := by
  obtain ⟨l, hl, rfl⟩ := TrieCursor.step_rewind hc
  have hranged := h.ranged d
  rw [hl] at hranged
  refine h.move rfl rfl (fun d' hd' => ⟨rfl, Function.update_of_ne hd' _ _⟩) ?_
  unfold CompressedIter.rewind
  dsimp only
  rw [Function.update_self]
  exact LevelWindow.rewind hranged

theorem Follows.step (h : Follows cols it c) (hcols : cols.Holds ord triples.toFinset)
    (kernel : simd.Kernel) {call : Call} (hcall : call.Bounded)
    (hc : c.step ord triples call = some c') :
    ∃ it', it.step kernel call = some it' ∧ Follows cols it' c' := by
  cases call with
  | seek d value =>
    cases hc
    exact ⟨_, rfl, h.seek kernel d (lt_of_lt_of_le hcall (Nat.sub_le _ _))⟩
  | open_level d => exact h.open_level hcols hc
  | up d =>
    cases hc
    exact ⟨_, rfl, h.up d⟩
  | rewind d => exact ⟨_, rfl, h.rewind hc⟩
  | active_run d =>
    cases hc
    exact ⟨_, rfl, h⟩

end Follows

end CompressedIter

end horndb.wcoj
