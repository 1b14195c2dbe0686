-- The cursor over the sorted columns of an ordering: a range of rows and an index at each depth,
-- bounded gallops with an exact search behind them, and the distinct keys of a level on demand.
import HornDb.SimdLowerBound
import HornDb.TrieCursor

open HornDb.Lib HornDb.Lib.Gallop

namespace horndb.wcoj

/-- The least range that is handed out as an active run. -/
def SIMD_INTERSECT_MIN_RUN : Nat := 64

structure VecIter where
  cols : Fin 3 → List TermId
  range : Fin 3 → Nat × Nat
  cursor : Fin 3 → Nat
  /-- The distinct keys of the range at a depth, once they were asked for. -/
  distinct : Fin 3 → Option (List TermId)

namespace VecIter

def new (cols : TripleColumns) : VecIter where
  cols := cols.view
  range d := if d = 0 then (0, cols.rows.length) else (0, 0)
  cursor _ := 0
  distinct _ := none

def col (it : VecIter) (row : Nat) (depth : Fin 3) : TermId := (it.cols depth).getD row 0

/-- The end of the run of the value that starts at the row. -/
def run_end (it : VecIter) (col_depth : Fin 3) (row hi : Nat) (v : TermId) : Nat :=
  let col := it.cols col_depth
  let n := hi - row
  let (lo_off, hi_off) := stride (fun off => col.getD (row + off) 0 ≤ v) n n 0 1
  row + lo_off + partition_point (· ≤ v) (slice col (row + lo_off) (row + hi_off))

def GALLOP_CAP : Nat := 64

/-- The window of a gallop that stays near its start. -/
def capped_window (below : Nat → Bool) (n : Nat) : Nat → Nat → Nat → Option (Nat × Nat)
  | 0, _, _ => none
  | fuel + 1, lo, step =>
    let probe := lo + step
    if probe ≥ n then some (lo, n)
    else if probe > GALLOP_CAP then none
    else if !below probe then some (lo, probe)
    else capped_window below n fuel probe (step * 2)

/-- The first row from the start whose key is not below, unless it is far. -/
def seek_gallop (it : VecIter) (depth : Fin 3) (start hi : Nat) (value : TermId) : Option Nat :=
  let col := it.cols depth
  let n := hi - start
  if n = 0 then some hi
  else if col.getD start 0 ≥ value then some start
  else
    (capped_window (fun off => col.getD (start + off) 0 < value) n (GALLOP_CAP + 1) 0 1).map
      fun (lo, hi_off) =>
        start + lo + partition_point (· < value) (slice col (start + lo) (start + hi_off))

def peek (it : VecIter) (depth : Fin 3) : Option TermId :=
  let (lo, hi) := it.range depth
  let c := max (it.cursor depth) lo
  if c ≥ hi then none else some (it.col c depth)

def seek (kernel : simd.Kernel) (it : VecIter) (depth : Fin 3) (value : TermId) : VecIter :=
  let (lo, hi) := it.range depth
  let start := max (it.cursor depth) lo
  match it.seek_gallop depth start hi value with
  | some idx => { it with cursor := Function.update it.cursor depth idx }
  | none =>
    let idx := start + simd.lower_bound kernel (slice (it.cols depth) start hi) value
    { it with cursor := Function.update it.cursor depth idx }

/-- `none` is a panic: the depth is asserted, and the row under the parent's cursor is read. -/
def open_level (it : VecIter) (depth : Fin 3) : Option VecIter :=
  if depth = 0 then none
  else
    let parent := depth - 1
    let (_, hi_parent) := it.range parent
    let row := it.cursor parent
    if row < (it.cols parent).length then
      let v := it.col row parent
      let new_hi := it.run_end parent row hi_parent v
      some { it with
        range := Function.update it.range depth (row, new_hi)
        cursor := Function.update it.cursor depth row
        distinct := Function.update it.distinct depth none }
    else none

def up (it : VecIter) (depth : Fin 3) : VecIter :=
  if depth = 0 then
    { it with
      range := Function.update it.range 0 (0, (it.cols 0).length)
      cursor := Function.update it.cursor 0 0 }
  else
    { it with
      range := Function.update it.range depth (0, 0)
      cursor := Function.update it.cursor depth 0
      distinct := Function.update it.distinct depth none }

def rewind (it : VecIter) (depth : Fin 3) : VecIter :=
  { it with cursor := Function.update it.cursor depth (it.range depth).1 }

def active_run_ready (it : VecIter) (depth : Fin 3) : Bool :=
  let (lo, hi) := it.range depth
  max (it.cursor depth) lo < hi && hi - lo ≥ SIMD_INTERSECT_MIN_RUN

def push_distinct (out : List TermId) (v : TermId) : List TermId :=
  if out.getLast? ≠ some v then out ++ [v] else out

/-- The keys left at a depth, when they are many, and the cursor that may now keep the distinct
keys of the range. -/
def active_run (it : VecIter) (depth : Fin 3) : Option (List TermId) × VecIter :=
  if !it.active_run_ready depth then (none, it)
  else
    let (lo, hi) := it.range depth
    let start := max (it.cursor depth) lo
    if depth = 2 then (some (slice (it.cols 2) start hi), it)
    else
      let cursor_val := it.col start depth
      let distinct := (it.distinct depth).getD
        ((slice (it.cols depth) lo hi).foldl push_distinct [])
      let off := partition_point (· < cursor_val) distinct
      (some (distinct.drop off),
        { it with distinct := Function.update it.distinct depth (some distinct) })

def step (kernel : simd.Kernel) (it : VecIter) : Call → Option VecIter
  | .seek d value => some (it.seek kernel d value)
  | .open_level d => it.open_level d
  | .up d => some (it.up d)
  | .rewind d => some (it.rewind d)
  | .active_run d => some (it.active_run d).2

def run (kernel : simd.Kernel) (cols : TripleColumns) (script : List Call) : Option VecIter :=
  script.foldlM (step kernel) (new cols)

/-! ## The searches split their range -/

section Searches

variable {it : VecIter} {depth : Fin 3} {hi : Nat} {v : TermId}

theorem capped_window_spec {below : Nat → Bool} {n : Nat} (fuel lo step : Nat) {out : Nat × Nat}
    (hlo : below lo = true) (hn : lo < n) (hstep : 0 < step)
    (h : capped_window below n fuel lo step = some out) :
    lo ≤ out.1 ∧ out.1 < out.2 ∧ out.2 ≤ n ∧ below out.1 = true ∧
      (out.2 < n → below out.2 = false) := by
  induction fuel generalizing lo step with
  | zero => cases h
  | succ fuel ih =>
    rw [capped_window] at h
    split at h
    · cases h
      exact ⟨le_refl _, hn, le_refl _, hlo, fun hlt => absurd hlt (lt_irrefl n)⟩
    · rename_i hprobe
      split at h
      · cases h
      · split at h
        · rename_i hback
          cases h
          rw [Bool.not_eq_true'] at hback
          exact ⟨le_refl _, by dsimp only; omega, by dsimp only; omega, hlo, fun _ => hback⟩
        · rename_i hback
          rw [Bool.not_eq_true', Bool.not_eq_false] at hback
          obtain ⟨h1, h2⟩ := ih (lo + step) (step * 2) hback (by omega) (by omega) h
          exact ⟨by omega, h2⟩

theorem seek_gallop_splits {start idx : Nat} (hstart : start ≤ hi)
    (hhi : hi ≤ (it.cols depth).length)
    (hfall : Falls (fun i => it.col i depth < v) start hi)
    (h : it.seek_gallop depth start hi v = some idx) :
    Splits (fun i => it.col i depth < v) start hi idx := by
  unfold seek_gallop at h
  dsimp only at h
  split at h
  · cases h
    obtain rfl : start = hi := by omega
    exact .empty start
  · rename_i hn
    split at h
    · rename_i hge
      cases h
      refine (Splits.empty start).widen hfall (le_refl start) hstart (by omega) fun _ => ?_
      exact decide_eq_false (not_lt_of_ge hge)
    · rename_i hlt
      obtain ⟨out, hout, rfl⟩ := Option.map_eq_some_iff.mp h
      obtain ⟨h1, h2, h3, h4, h5⟩ := capped_window_spec _ 0 1
        (by simpa using hlt) (by omega) (by omega) hout
      have hwindow := slice_partition_splits (decide <| · < v) (l := it.cols depth) (d := 0)
        (show start + out.1 ≤ start + out.2 by omega) (by omega)
        (hfall.narrow (by omega) (by omega))
      refine hwindow.widen hfall (by omega) (by omega) (fun i h6 h7 => ?_) fun hback => ?_
      · exact hfall i _ h6 (by omega) (by omega) h4
      · exact h5 (by omega)

theorem run_end_splits {row : Nat} (hrow : row < hi) (hhi : hi ≤ (it.cols depth).length)
    (hfall : Falls (fun i => it.col i depth ≤ v) row hi) :
    Splits (fun i => it.col i depth ≤ v) row hi (it.run_end depth row hi v) := by
  unfold run_end
  dsimp only
  have hwindow := stride_window (fun off => (it.cols depth).getD (row + off) 0 ≤ v) (hi - row) 0 1
    (show 0 < hi - row by omega) (by omega) (by omega)
  generalize stride (fun off => (it.cols depth).getD (row + off) 0 ≤ v) (hi - row) (hi - row) 0 1 =
    out at hwindow
  obtain ⟨h1, h2, h3, h4, h5⟩ := hwindow
  have hinner := slice_partition_splits (decide <| · ≤ v) (l := it.cols depth) (d := 0)
    (show row + out.1 ≤ row + out.2 by omega) (by omega) (hfall.narrow (by omega) (by omega))
  refine hinner.widen hfall (by omega) (by omega) (fun i h6 h7 => ?_) fun hback => ?_
  · rcases h4 with h4 | h4
    · omega
    · exact hfall i _ h6 (by omega) (by omega) h4
  · exact h5 (by omega)

end Searches

/-! ## The cursor follows the trie -/

/-- The distinct keys of a list in order. -/
theorem distinct_fold {src out : List TermId} (hsrc : src.Pairwise (· ≤ ·))
    (hout : out.Pairwise (· < ·)) (hle : ∀ a ∈ out, ∀ b ∈ src, a ≤ b) :
    (src.foldl push_distinct out).Pairwise (· < ·) ∧
      ∀ k, k ∈ src.foldl push_distinct out ↔ k ∈ out ∨ k ∈ src := by
  induction src generalizing out with
  | nil => exact ⟨hout, fun k => by simp⟩
  | cons v src ih =>
    obtain ⟨hfirst, hsrc⟩ := List.pairwise_cons.mp hsrc
    rw [List.foldl_cons]
    unfold push_distinct
    split
    · rename_i hlast
      have hlt : ∀ a ∈ out, a < v := by
        intro a ha
        refine lt_of_le_of_ne (hle a ha v List.mem_cons_self) fun heq => hlast ?_
        subst heq
        obtain ⟨front, back, rfl, -⟩ := List.eq_append_cons_of_mem ha
        have hback : back = [] := by
          refine List.eq_nil_iff_forall_not_mem.mpr fun b hb => ?_
          have hab := (List.pairwise_cons.mp (List.pairwise_append.mp hout).2.1).1 b hb
          exact absurd (hle b (by simp [hb]) a List.mem_cons_self) (not_le_of_gt hab)
        rw [hback, List.getLast?_concat]
      have hnext : (out ++ [v]).Pairwise (· < ·) := by
        rw [List.pairwise_append]
        exact ⟨hout, List.pairwise_singleton _ _, fun a ha b hb =>
          List.mem_singleton.mp hb ▸ hlt a ha⟩
      obtain ⟨h1, h2⟩ := ih hsrc hnext fun a ha b hb => by
        rcases List.mem_append.mp ha with ha | ha
        · exact hle a ha b (List.mem_cons_of_mem v hb)
        · exact List.mem_singleton.mp ha ▸ hfirst b hb
      refine ⟨h1, fun k => ?_⟩
      refine (h2 k).trans ?_
      rw [List.mem_append, List.mem_singleton, List.mem_cons, or_assoc]
    · rename_i hlast
      have hmem : v ∈ out := List.mem_of_getLast? (not_not.mp hlast)
      obtain ⟨h1, h2⟩ := ih hsrc hout fun a ha b hb => hle a ha b (List.mem_cons_of_mem v hb)
      refine ⟨h1, fun k => (h2 k).trans ?_⟩
      rw [List.mem_cons]
      constructor
      · rintro (hk | hk)
        · exact Or.inl hk
        · exact Or.inr (Or.inr hk)
      · rintro (hk | rfl | hk)
        · exact Or.inl hk
        · exact Or.inl hmem
        · exact Or.inr hk

/-- The keys of a depth, in order and each once. -/
def Distinct (keys : Set TermId) (ks : List TermId) : Prop :=
  ks.Pairwise (· < ·) ∧ ∀ k, k ∈ ks ↔ k ∈ keys

/-- A depth of a cursor that stands where the cursor of the trie stands, and whose distinct keys
are those of its range. -/
structure At (cols : TripleColumns) (d : Fin 3) (range : Nat × Nat) (cur : Nat)
    (distinct : Option (List TermId)) (ol : Option Level) : Prop where
  ranged : Ranged cols.rows.length cols.row d range cur ol
  cached : ∀ ks, distinct = some ks → ∃ l, ol = some l ∧
    Distinct (table_keys cols.rows.length cols.row d l.path) ks

structure Follows (cols : TripleColumns) (it : VecIter) (c : TrieCursor) : Prop where
  cols_eq : it.cols = cols.view
  depth : ∀ d, At cols d (it.range d) (it.cursor d) (it.distinct d) (c d)

section Follows

variable {cols : TripleColumns} {ord : Ordering} {triples : List Triple} {it : VecIter}
  {c c' : TrieCursor} {d : Fin 3}

theorem Follows.col_eq (h : Follows cols it c) (i : Nat) (d : Fin 3) :
    it.col i d = (cols.row i).key d := by
  unfold col
  rw [h.cols_eq, cols.view_getD]

theorem Follows.length_eq (h : Follows cols it c) (d : Fin 3) :
    (it.cols d).length = cols.rows.length := by
  rw [h.cols_eq, TripleColumns.view, List.length_map]

theorem follows_new (cols : TripleColumns) : Follows cols (new cols) .start :=
  ⟨rfl, fun d => ⟨Ranged.start _ _ d, fun _ h => by cases h⟩⟩

theorem Follows.peek (h : Follows cols it c) (hcols : cols.Holds ord triples.toFinset) (d : Fin 3) :
    it.peek d = c.peek ord triples d := by
  have hpeek := (h.depth d).ranged.peek cols.table hcols.rows
  have hbounds := (h.depth d).ranged.bounds
  unfold VecIter.peek
  dsimp only
  rw [TrieCursor.peek, ← hpeek, h.col_eq, Nat.max_eq_left hbounds.1]
  by_cases hcur : it.cursor d < (it.range d).2
  · rw [if_neg (not_le_of_gt hcur), if_pos hcur]
  · rw [if_pos (not_lt.mp hcur), if_neg hcur]

/-- What a seek leaves at its depth. -/
theorem Follows.seek_cursor (h : Follows cols it c) (hcols : ∀ r ∈ cols.rows, ∀ d, r.key d < 2 ^ 64)
    (kernel : simd.Kernel) (d : Fin 3) {value : TermId} (hv : value < 2 ^ 64) :
    ∃ idx, it.seek kernel d value = { it with cursor := Function.update it.cursor d idx } ∧
      Splits (fun i => (cols.row i).key d < value) (it.cursor d) (it.range d).2 idx := by
  have hbounds := (h.depth d).ranged.bounds
  have hfall := (h.depth d).ranged.falls_lt cols.table value
  have hlen := h.length_eq d
  have hsame : (fun i => decide ((cols.row i).key d < value)) =
      fun i => decide (it.col i d < value) := funext fun i => by rw [h.col_eq]
  rw [hsame] at hfall ⊢
  unfold VecIter.seek
  dsimp only
  rw [Nat.max_eq_left hbounds.1]
  split
  · rename_i idx hidx
    exact ⟨idx, rfl, seek_gallop_splits hbounds.2.1 (by omega) hfall hidx⟩
  · refine ⟨_, rfl, simd.slice_lower_bound_splits kernel ?_ hv hbounds.2.1 (by omega) hfall⟩
    intro x hx
    rw [h.cols_eq] at hx
    obtain ⟨r, hr, rfl⟩ := List.mem_map.mp hx
    exact hcols r hr d

/-- A call that moves one depth. -/
theorem Follows.move {it' : VecIter} {ol : Option Level} (h : Follows cols it c)
    (hcols : it'.cols = it.cols)
    (hrest : ∀ d' ≠ d, it'.range d' = it.range d' ∧ it'.cursor d' = it.cursor d' ∧
      it'.distinct d' = it.distinct d')
    (hd : At cols d (it'.range d) (it'.cursor d) (it'.distinct d) ol) :
    Follows cols it' (Function.update c d ol) := by
  refine ⟨hcols.trans h.cols_eq, fun d' => ?_⟩
  by_cases heq : d' = d
  · subst heq
    rw [Function.update_self]
    exact hd
  · obtain ⟨h1, h2, h3⟩ := hrest d' heq
    rw [Function.update_of_ne heq, h1, h2, h3]
    exact h.depth d'

theorem Follows.seek (h : Follows cols it c) (hbound : ∀ r ∈ cols.rows, ∀ d, r.key d < 2 ^ 64)
    (kernel : simd.Kernel) (d : Fin 3) {value : TermId} (hv : value < 2 ^ 64) :
    Follows cols (it.seek kernel d value)
      (Function.update c d ((c d).map fun l => { l with target := max l.target value })) := by
  obtain ⟨idx, hseek, hsplit⟩ := h.seek_cursor hbound kernel d hv
  rw [hseek]
  refine h.move rfl (fun d' hd' => ⟨rfl, Function.update_of_ne hd' _ _, rfl⟩) ⟨?_, ?_⟩
  · dsimp only
    rw [Function.update_self]
    exact (h.depth d).ranged.seek hsplit
  · intro ks hks
    obtain ⟨l, hl, hdistinct⟩ := (h.depth d).cached ks hks
    exact ⟨{ l with target := max l.target value }, by rw [hl]; rfl, hdistinct⟩

theorem Follows.open_level (h : Follows cols it c) (hcols : cols.Holds ord triples.toFinset)
    (hc : c.step ord triples (.open_level d) = some c') :
    ∃ it', it.open_level d = some it' ∧ Follows cols it' c' := by
  obtain ⟨hd, l, k, hl, hk, rfl⟩ := TrieCursor.step_open hc
  have hparent := (h.depth (d - 1)).ranged
  rw [hl] at hparent
  obtain ⟨hcur, hkey, hfall, hopen⟩ := hparent.open_level cols.table hcols.rows hd hk
  have hhi := hparent.bounds.2.2
  have hlen := h.length_eq (d - 1)
  have hsame : (fun i => decide ((cols.row i).key (d - 1) ≤ k)) =
      fun i => decide (it.col i (d - 1) ≤ k) := funext fun i => by rw [h.col_eq]
  rw [hsame] at hfall
  have hsplit := run_end_splits hcur (by omega) hfall
  rw [← hsame] at hsplit
  unfold VecIter.open_level
  dsimp only
  rw [if_neg hd, if_pos (by omega), h.col_eq, hkey]
  refine ⟨_, rfl, h.move rfl (fun d' hd' => ⟨Function.update_of_ne hd' _ _,
    Function.update_of_ne hd' _ _, Function.update_of_ne hd' _ _⟩) ⟨?_, ?_⟩⟩
  · dsimp only
    rw [Function.update_self, Function.update_self]
    exact hopen _ hsplit
  · intro ks hks
    dsimp only at hks
    rw [Function.update_self] at hks
    cases hks

theorem Follows.up (h : Follows cols it c) (d : Fin 3) : Follows cols (it.up d)
    (Function.update c d (if d = 0 then some TrieCursor.rootLevel else none)) := by
  have hup := Ranged.up cols.rows.length cols.row d
  unfold VecIter.up
  by_cases hd : d = 0
  · -- the distinct keys of the root are those of all rows, and stay
    subst hd
    rw [if_pos rfl] at hup ⊢
    refine h.move rfl (fun d' hd' => ⟨Function.update_of_ne hd' _ _, Function.update_of_ne hd' _ _,
      rfl⟩) ⟨?_, ?_⟩
    · dsimp only
      rw [Function.update_self, Function.update_self, h.length_eq]
      exact hup
    · intro ks hks
      obtain ⟨l, hl, hdistinct⟩ := (h.depth 0).cached ks hks
      have hroot := (h.depth 0).ranged
      rw [hl] at hroot
      rw [List.eq_nil_of_length_eq_zero hroot.length_eq] at hdistinct
      exact ⟨_, rfl, hdistinct⟩
  · rw [if_neg hd] at hup ⊢
    refine h.move rfl (fun d' hd' => ⟨Function.update_of_ne hd' _ _, Function.update_of_ne hd' _ _,
      Function.update_of_ne hd' _ _⟩) ⟨?_, ?_⟩
    · dsimp only
      rw [Function.update_self, Function.update_self]
      exact hup
    · intro ks hks
      dsimp only at hks
      rw [Function.update_self] at hks
      cases hks

theorem Follows.rewind (h : Follows cols it c)
    (hc : c.step ord triples (.rewind d) = some c') : Follows cols (it.rewind d) c' := by
  obtain ⟨l, hl, rfl⟩ := TrieCursor.step_rewind hc
  have hat := h.depth d
  rw [hl] at hat
  refine h.move rfl (fun d' hd' => ⟨rfl, Function.update_of_ne hd' _ _, rfl⟩) ⟨?_, ?_⟩
  · unfold VecIter.rewind
    dsimp only
    rw [Function.update_self]
    exact LevelWindow.rewind hat.ranged
  · intro ks hks
    obtain ⟨l', hl', hdistinct⟩ := hat.cached ks hks
    cases hl'
    exact ⟨_, rfl, hdistinct⟩

/-! ### Active runs -/

/-- The leaf column repeats no key in a window, and is handed out as it is. -/
theorem Follows.leaf_run (h : Follows cols it c) {l : Level} {lo hi cur : Nat}
    (w : LevelWindow cols.rows.length cols.row 2 l lo hi cur) :
    Distinct {k | k ∈ table_keys cols.rows.length cols.row 2 l.path ∧ l.target ≤ k}
      (slice (it.cols 2) cur hi) := by
  have hlen := h.length_eq 2
  have hlo := w.splits.lo_le
  have hhi := w.hi_le
  constructor
  · refine slice_pairwise (by omega) 0 fun i j h1 h2 h3 => ?_
    show it.col i 2 < it.col j 2
    rw [h.col_eq, h.col_eq]
    refine lt_of_le_of_ne (w.key_le cols.table (by omega) h2.le h3) ?_
    refine Row.leaf_ne_of_lt (cols.table i j h2 (by omega)) ?_
    rw [(w.rows i (by omega)).mp ⟨by omega, by omega⟩, (w.rows j (by omega)).mp ⟨by omega, h3⟩]
  · intro k
    rw [mem_slice (by omega) 0]
    refine Iff.trans ?_ w.mem_left
    exact exists_congr fun i => and_congr_right fun _ => and_congr_right fun _ => by
      rw [← h.col_eq]
      rfl

/-- The distinct keys of a window. -/
theorem Follows.distinct_keys (h : Follows cols it c) {l : Level} {lo hi cur : Nat}
    (w : LevelWindow cols.rows.length cols.row d l lo hi cur) :
    Distinct (table_keys cols.rows.length cols.row d l.path)
      ((slice (it.cols d) lo hi).foldl push_distinct []) := by
  have hlen := h.length_eq d
  have hhi := w.hi_le
  have hsorted : (slice (it.cols d) lo hi).Pairwise (· ≤ ·) := by
    refine slice_pairwise (by omega) 0 fun i j h1 h2 h3 => ?_
    show it.col i d ≤ it.col j d
    rw [h.col_eq, h.col_eq]
    exact w.key_le cols.table h1 h2.le h3
  obtain ⟨hpairwise, hmem⟩ := distinct_fold hsorted .nil nofun
  refine ⟨hpairwise, fun k => ?_⟩
  have hleft := w.rewind.mem_left (k := k)
  rw [hmem, mem_slice (by omega) 0]
  simp only [Nat.zero_le, and_true] at hleft
  rw [← hleft]
  constructor
  · rintro (hnil | ⟨i, h1, h2, h3⟩)
    · cases hnil
    · exact ⟨i, h1, h2, by rw [← h.col_eq]; exact h3⟩
  · rintro ⟨i, h1, h2, h3⟩
    exact Or.inr ⟨i, h1, h2, by rw [← h3, ← h.col_eq]; rfl⟩

/-- An active run is what is left of the keys of its level, and to ask for it moves nothing. -/
theorem Follows.active_run (h : Follows cols it c) (hcols : cols.Holds ord triples.toFinset)
    (d : Fin 3) :
    Follows cols (it.active_run d).2 c ∧ ∀ run, (it.active_run d).1 = some run →
      ∃ l, c d = some l ∧ Distinct (l.left ord triples d) run := by
  have hat := h.depth d
  have hbounds := hat.ranged.bounds
  unfold VecIter.active_run
  split
  · exact ⟨h, fun run hrun => by cases hrun⟩
  · rename_i hready
    rw [Bool.not_eq_true', Bool.not_eq_false, active_run_ready, Bool.and_eq_true,
      decide_eq_true_eq, Nat.max_eq_left hbounds.1] at hready
    dsimp only
    rw [Nat.max_eq_left hbounds.1]
    cases hl : c d with
    | none =>
      rw [hl] at hat
      obtain ⟨hrange, hcur⟩ := hat.ranged
      have hempty : it.cursor d < (it.range d).2 := hready.1
      rw [hrange] at hempty
      exact absurd hempty (Nat.not_lt_zero _)
    | some l =>
      rw [hl] at hat
      have w : LevelWindow _ _ d l _ _ _ := hat.ranged
      split
      · rename_i hd
        subst hd
        refine ⟨h, fun run hrun => ⟨l, rfl, ?_⟩⟩
        cases hrun
        rw [← hcols.rows.left_eq]
        exact h.leaf_run w
      · have hkeys : Distinct (table_keys cols.rows.length cols.row d l.path)
            ((it.distinct d).getD ((slice (it.cols d) (it.range d).1 (it.range d).2).foldl
              push_distinct [])) := by
          cases hks : it.distinct d with
          | none => exact h.distinct_keys w
          | some ks =>
            obtain ⟨l', hl', hdistinct⟩ := hat.cached ks hks
            cases hl'
            exact hdistinct
        generalize (it.distinct d).getD ((slice (it.cols d) (it.range d).1 (it.range d).2).foldl
          push_distinct []) = ks at hkeys
        constructor
        · have hsame : Function.update c d (some l) = c := by rw [← hl, Function.update_eq_self]
          rw [← hsame]
          refine h.move rfl (fun d' hd' => ⟨rfl, rfl, Function.update_of_ne hd' _ _⟩)
            ⟨hat.ranged, fun ks' hks' => ?_⟩
          dsimp only at hks'
          rw [Function.update_self] at hks'
          cases hks'
          exact ⟨l, rfl, hkeys⟩
        · intro run hrun
          refine ⟨l, rfl, ?_⟩
          cases hrun
          have hleast := w.least cols.table hready.1
          obtain ⟨hpairwise, hmem⟩ := drop_partition_point_lt hkeys.1 (it.col (it.cursor d) d)
          refine ⟨hpairwise, fun k => ?_⟩
          rw [hmem, hkeys.2, ← hcols.rows.left_eq, h.col_eq]
          refine and_congr_right fun hk => ⟨fun hge => hleast.1.2.trans hge, fun hge => ?_⟩
          exact hleast.2 ⟨hk, hge⟩

theorem Follows.step (h : Follows cols it c) (hcols : cols.Holds ord triples.toFinset)
    (hbound : ∀ r ∈ cols.rows, ∀ d, r.key d < 2 ^ 64) (kernel : simd.Kernel) {call : Call}
    (hcall : call.Bounded) (hc : c.step ord triples call = some c') :
    ∃ it', it.step kernel call = some it' ∧ Follows cols it' c' := by
  cases call with
  | seek d value =>
    cases hc
    exact ⟨_, rfl, h.seek hbound kernel d (lt_of_lt_of_le hcall (Nat.sub_le _ _))⟩
  | open_level d => exact h.open_level hcols hc
  | up d =>
    cases hc
    exact ⟨_, rfl, h.up d⟩
  | rewind d => exact ⟨_, rfl, h.rewind hc⟩
  | active_run d =>
    cases hc
    exact ⟨_, rfl, (h.active_run hcols d).1⟩

end Follows

end VecIter

end horndb.wcoj
