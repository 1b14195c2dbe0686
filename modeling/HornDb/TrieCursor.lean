-- The trie of a set of triples in one ordering, and a cursor over it: the path that each open
-- level stands under, and the least key that the seeks on it have left. A table of rows in order
-- stands for the trie when its windows do.
import HornDb.VecSource
import HornDb.Lib.Splits

open HornDb.Lib

namespace horndb.wcoj

/-! ## Keys and paths of a row -/

namespace Row

/-- The component of a row at a depth. -/
def key (r : Row) : Fin 3 → TermId
  | 0 => r.level0
  | 1 => r.level1
  | 2 => r.level2

/-- The components of a row above a depth, outermost first. -/
def path (r : Row) : Fin 3 → List TermId
  | 0 => []
  | 1 => [r.level0]
  | 2 => [r.level0, r.level1]

theorem path_open (r : Row) {d : Fin 3} (hd : d ≠ 0) :
    r.path d = r.path (d - 1) ++ [r.key (d - 1)] := by
  match d, hd with
  | 1, _ => rfl
  | 2, _ => rfl

theorem lt_cases {r r' : Row} (h : r < r') : r.level0 < r'.level0 ∨
    r.level0 = r'.level0 ∧ (r.level1 < r'.level1 ∨
      r.level1 = r'.level1 ∧ r.level2 < r'.level2) := by
  rcases lt_iff.mp h with h | ⟨h0, h⟩
  · exact Or.inl h
  · exact Or.inr ⟨h0, Prod.Lex.lt_iff.mp h⟩

/-- Under one path, the keys follow the rows. -/
theorem key_le_of_lt {r r' : Row} {d : Fin 3} (h : r < r') (hpath : r.path d = r'.path d) :
    r.key d ≤ r'.key d := by
  match d with
  | 0 => exact level0_le h
  | 1 =>
    obtain ⟨h0, -⟩ := List.cons.inj hpath
    rcases lt_cases h with hlt | ⟨-, hlt | ⟨heq, -⟩⟩
    · exact absurd h0 hlt.ne
    · exact le_of_lt hlt
    · exact le_of_eq heq
  | 2 =>
    obtain ⟨h0, hrest⟩ := List.cons.inj hpath
    obtain ⟨h1, -⟩ := List.cons.inj hrest
    rcases lt_cases h with hlt | ⟨-, hlt | ⟨-, hlt⟩⟩
    · exact absurd h0 hlt.ne
    · exact absurd h1 hlt.ne
    · exact le_of_lt hlt

/-- Under one path to the leaf, no key comes twice. -/
theorem leaf_ne_of_lt {r r' : Row} (h : r < r') (hpath : r.path 2 = r'.path 2) :
    r.key 2 ≠ r'.key 2 := by
  obtain ⟨h0, hrest⟩ := List.cons.inj hpath
  obtain ⟨h1, -⟩ := List.cons.inj hrest
  intro heq
  refine h.ne ?_
  rw [← of_levels r, ← of_levels r', h0, h1]
  exact congrArg _ heq

end Row

/-! ## The trie -/

/-- An open level of a cursor. -/
structure Level where
  /-- The keys chosen above it. -/
  path : List TermId
  /-- The greatest target sought since the level was opened or rewound. -/
  target : TermId
deriving DecidableEq, Repr

/-- The keys under a path in the trie of the triples. -/
def trie_keys (ord : Ordering) (triples : List Triple) (d : Fin 3) (path : List TermId) :
    Set TermId :=
  {k | ∃ t ∈ triples, (t.by_ordering ord).path d = path ∧ (t.by_ordering ord).key d = k}

/-- The keys that a level has left. -/
def Level.left (ord : Ordering) (triples : List Triple) (d : Fin 3) (l : Level) : Set TermId :=
  {k | k ∈ trie_keys ord triples d l.path ∧ l.target ≤ k}

/-- The least key that a level has left. -/
def Level.peek (ord : Ordering) (triples : List Triple) (d : Fin 3) (l : Level) : Option TermId :=
  let rows := (triples.map (·.by_ordering ord)).filter fun r => r.path d = l.path
  ((rows.map (·.key d)).filter (l.target ≤ ·)).min?

theorem Level.mem_rows {ord : Ordering} {triples : List Triple} {d : Fin 3} {l : Level}
    {k : TermId} :
    k ∈ ((((triples.map (·.by_ordering ord)).filter fun r => r.path d = l.path).map
      (·.key d)).filter (l.target ≤ ·)) ↔ k ∈ l.left ord triples d := by
  unfold Level.left trie_keys
  simp only [List.mem_filter, List.mem_map, decide_eq_true_eq, Set.mem_ofPred_eq]
  constructor
  · rintro ⟨⟨r, ⟨⟨t, ht, rfl⟩, hpath⟩, hkey⟩, htarget⟩
    exact ⟨⟨t, ht, hpath, hkey⟩, htarget⟩
  · rintro ⟨⟨t, ht, hpath, hkey⟩, htarget⟩
    exact ⟨⟨_, ⟨⟨t, ht, rfl⟩, hpath⟩, hkey⟩, htarget⟩

theorem Level.peek_eq_some {ord : Ordering} {triples : List Triple} {d : Fin 3} {l : Level}
    {k : TermId} :
    l.peek ord triples d = some k ↔ IsLeast (l.left ord triples d) k := by
  unfold Level.peek
  rw [List.min?_eq_some_iff, Level.mem_rows]
  refine and_congr_right fun _ => ⟨fun h b hb => h b (Level.mem_rows.mpr hb), fun h b hb => ?_⟩
  exact h (Level.mem_rows.mp hb)

theorem Level.peek_eq_none {ord : Ordering} {triples : List Triple} {d : Fin 3} {l : Level} :
    l.peek ord triples d = none ↔ l.left ord triples d = ∅ := by
  unfold Level.peek
  rw [List.min?_eq_none_iff, Set.eq_empty_iff_forall_notMem, List.eq_nil_iff_forall_not_mem]
  exact forall_congr' fun k => not_congr Level.mem_rows

/-! ## The cursor -/

inductive Call where
  | seek (depth : Fin 3) (value : TermId)
  | open_level (depth : Fin 3)
  | up (depth : Fin 3)
  | rewind (depth : Fin 3)
  | active_run (depth : Fin 3)
deriving DecidableEq, Repr

/-- The target of a call is an id, which is below the greatest word. -/
def Call.Bounded : Call → Prop
  | .seek _ value => value < 2 ^ 64 - 1
  | _ => True

/-- A cursor over a trie: its levels, of which the root is always open. -/
abbrev TrieCursor := Fin 3 → Option Level

namespace TrieCursor

/-- Every key below is left. -/
def rootLevel : Level := ⟨[], 0⟩

def start : TrieCursor := fun d => if d = 0 then some rootLevel else none

def peek (ord : Ordering) (triples : List Triple) (c : TrieCursor) (d : Fin 3) : Option TermId :=
  (c d).bind (Level.peek ord triples d)

/-- The cursor after a call. `none` is a call that breaks the contract: a level opened without a
value above it, or one rewound that is not open. -/
def step (ord : Ordering) (triples : List Triple) (c : TrieCursor) : Call → Option TrieCursor
  | .seek d value =>
    some (Function.update c d ((c d).map fun l => { l with target := max l.target value }))
  | .open_level d =>
    if d = 0 then none
    else (c (d - 1)).bind fun l => (l.peek ord triples (d - 1)).map fun k =>
      Function.update c d (some ⟨l.path ++ [k], 0⟩)
  | .up d => some (Function.update c d (if d = 0 then some rootLevel else none))
  | .rewind d => (c d).map fun l => Function.update c d (some { l with target := 0 })
  | .active_run _ => some c

def run (ord : Ordering) (triples : List Triple) (script : List Call) : Option TrieCursor :=
  script.foldlM (step ord triples) start

end TrieCursor

/-! ## Windows of a table -/

/-- Rows in strict order, by index. -/
def Table (n : Nat) (row : Nat → Row) : Prop := ∀ i j, i < j → j < n → row i < row j

/-- The keys under a path in a table. -/
def table_keys (n : Nat) (row : Nat → Row) (d : Fin 3) (path : List TermId) : Set TermId :=
  {k | ∃ i < n, (row i).path d = path ∧ (row i).key d = k}

/-- A level as a window of a table: its rows are those under the path, and the cursor splits them
at the target. -/
structure LevelWindow (n : Nat) (row : Nat → Row) (d : Fin 3) (l : Level) (lo hi cur : Nat) : Prop where
  length_eq : l.path.length = d
  hi_le : hi ≤ n
  rows : ∀ i < n, (lo ≤ i ∧ i < hi) ↔ (row i).path d = l.path
  splits : Splits (fun i => (row i).key d < l.target) lo hi cur

section LevelWindow

variable {n : Nat} {row : Nat → Row} {d : Fin 3} {l : Level} {lo hi cur : Nat}

theorem LevelWindow.key_le (w : LevelWindow n row d l lo hi cur) (ht : Table n row) {i j : Nat}
    (hlo : lo ≤ i)
    (hij : i ≤ j) (hj : j < hi) : (row i).key d ≤ (row j).key d := by
  have hn := w.hi_le
  rcases Nat.eq_or_lt_of_le hij with rfl | hlt
  · exact le_refl _
  · refine Row.key_le_of_lt (ht i j hlt (by omega)) ?_
    rw [(w.rows i (by omega)).mp ⟨hlo, by omega⟩, (w.rows j (by omega)).mp ⟨by omega, hj⟩]

theorem LevelWindow.falls_lt (w : LevelWindow n row d l lo hi cur) (ht : Table n row) (v : TermId) :
    Falls (fun i => (row i).key d < v) lo hi := by
  intro i j hlo hij hj hb
  rw [decide_eq_true_eq] at hb ⊢
  exact lt_of_le_of_lt (w.key_le ht hlo hij hj) hb

theorem LevelWindow.falls_le (w : LevelWindow n row d l lo hi cur) (ht : Table n row) (v : TermId) :
    Falls (fun i => (row i).key d ≤ v) lo hi := by
  intro i j hlo hij hj hb
  rw [decide_eq_true_eq] at hb ⊢
  exact (w.key_le ht hlo hij hj).trans hb

theorem LevelWindow.root (n : Nat) (row : Nat → Row) :
    LevelWindow n row 0 TrieCursor.rootLevel 0 n 0 := by
  refine ⟨rfl, le_refl n, fun i hi => ⟨fun _ => rfl, fun _ => ⟨Nat.zero_le i, hi⟩⟩, le_refl 0,
    Nat.zero_le n, fun i h1 h2 => by omega, fun i _ _ => ?_⟩
  simp [TrieCursor.rootLevel]

theorem LevelWindow.rewind (w : LevelWindow n row d l lo hi cur) :
    LevelWindow n row d { l with target := 0 } lo hi lo := by
  have h1 := w.splits.lo_le
  have h2 := w.splits.le_hi
  refine ⟨w.length_eq, w.hi_le, w.rows, le_refl lo, by omega, fun i h3 h4 => by omega, fun i _ _ => ?_⟩
  simp

/-- A seek splits what is left of a window: the cursor never moves back. -/
theorem LevelWindow.seek (w : LevelWindow n row d l lo hi cur) {value : TermId} {cur' : Nat}
    (h : Splits (fun i => (row i).key d < value) cur hi cur') :
    LevelWindow n row d { l with target := max l.target value } lo hi cur' := by
  have h1 := w.splits.lo_le
  have h2 := h.lo_le
  refine ⟨w.length_eq, w.hi_le, w.rows, by omega, h.le_hi, fun i h3 h4 => ?_, fun i h3 h4 => ?_⟩
  · rw [decide_eq_true_eq, lt_max_iff]
    by_cases hcur : i < cur
    · exact Or.inl (of_decide_eq_true (w.splits.front i h3 hcur))
    · exact Or.inr (of_decide_eq_true (h.front i (by omega) h4))
  · rw [decide_eq_false_iff_not, lt_max_iff, not_or]
    exact ⟨of_decide_eq_false (w.splits.back i (by omega) h4),
      of_decide_eq_false (h.back i h3 h4)⟩

/-- The rows of the key under the cursor are the window of the next level. -/
theorem LevelWindow.open_level (w : LevelWindow n row (d - 1) l lo hi cur) (ht : Table n row)
    (hd : d ≠ 0)
    (hcur : cur < hi) {e : Nat}
    (h : Splits (fun i => (row i).key (d - 1) ≤ (row cur).key (d - 1)) cur hi e) :
    LevelWindow n row d ⟨l.path ++ [(row cur).key (d - 1)], 0⟩ cur e cur := by
  have h1 := w.splits.lo_le
  have h2 := h.lo_le
  have h3 := h.le_hi
  have h4 := w.hi_le
  have hlength : (l.path ++ [(row cur).key (d - 1)]).length = d := by
    have hparent := w.length_eq
    rw [List.length_append, List.length_singleton, hparent]
    match d, hd with
    | 1, _ => rfl
    | 2, _ => rfl
  refine ⟨hlength, by omega, fun i hi' => ?_, le_refl cur, h2, fun i h5 h6 => by omega,
    fun i _ _ => by simp⟩
  rw [(row i).path_open hd]
  constructor
  · rintro ⟨h5, h6⟩
    have hle := of_decide_eq_true (h.front i h5 h6)
    have hge := w.key_le ht h1 h5 (by omega)
    rw [(w.rows i hi').mp ⟨by omega, by omega⟩, Nat.le_antisymm hle hge]
  · intro hpath
    obtain ⟨hpath, hkey⟩ := List.append_inj' hpath rfl
    obtain ⟨h5, h6⟩ := (w.rows i hi').mpr hpath
    rw [List.cons.injEq] at hkey
    have hback : ¬ (row i).key (d - 1) < l.target := by
      rw [hkey.1]
      exact of_decide_eq_false (w.splits.back cur (le_refl cur) hcur)
    have h7 : cur ≤ i := by
      by_contra hlt
      exact hback (of_decide_eq_true (w.splits.front i h5 (by omega)))
    refine ⟨h7, (h.lt_iff h7 h6).mpr ?_⟩
    rw [hkey.1, decide_eq_true_eq]

/-- The keys of a window that are not behind the cursor are those from the target on. -/
theorem LevelWindow.mem_left (w : LevelWindow n row d l lo hi cur) {k : TermId} :
    (∃ i, cur ≤ i ∧ i < hi ∧ (row i).key d = k) ↔ k ∈ table_keys n row d l.path ∧ l.target ≤ k := by
  have h1 := w.splits.lo_le
  have h2 := w.hi_le
  constructor
  · rintro ⟨i, h3, h4, rfl⟩
    have hback := of_decide_eq_false (w.splits.back i h3 h4)
    exact ⟨⟨i, by omega, (w.rows i (by omega)).mp ⟨by omega, h4⟩, rfl⟩, not_lt.mp hback⟩
  · rintro ⟨⟨i, hi', hpath, rfl⟩, htarget⟩
    obtain ⟨h3, h4⟩ := (w.rows i hi').mpr hpath
    refine ⟨i, ?_, h4, rfl⟩
    by_contra hlt
    have hfront := of_decide_eq_true (w.splits.front i h3 (by omega))
    exact absurd htarget (not_le_of_gt hfront)

/-- The key under the cursor is the least from the target on. -/
theorem LevelWindow.least (w : LevelWindow n row d l lo hi cur) (ht : Table n row) (hcur : cur < hi) :
    IsLeast {k | k ∈ table_keys n row d l.path ∧ l.target ≤ k} ((row cur).key d) := by
  refine ⟨w.mem_left.mp ⟨cur, le_refl cur, hcur, rfl⟩, fun k hk => ?_⟩
  obtain ⟨i, h1, h2, rfl⟩ := w.mem_left.mpr hk
  exact w.key_le ht w.splits.lo_le h1 h2

/-- A cursor at the end of its window has no key left. -/
theorem LevelWindow.none_left (w : LevelWindow n row d l lo hi cur) (hcur : hi ≤ cur) :
    {k | k ∈ table_keys n row d l.path ∧ l.target ≤ k} = ∅ := by
  rw [Set.eq_empty_iff_forall_notMem]
  intro k hk
  obtain ⟨i, h1, h2, -⟩ := w.mem_left.mpr hk
  omega

end LevelWindow

/-! ## Cursors of one table -/

/-- A depth of a cursor that keeps one range of rows and one index: a closed one has no rows. -/
def Ranged (n : Nat) (row : Nat → Row) (d : Fin 3) (range : Nat × Nat) (cur : Nat) :
    Option Level → Prop
  | none => range = (0, 0) ∧ cur = 0
  | some l => LevelWindow n row d l range.1 range.2 cur

section Ranged

variable {n : Nat} {row : Nat → Row} {d : Fin 3} {range : Nat × Nat} {cur : Nat} {ol : Option Level}

theorem Ranged.bounds (h : Ranged n row d range cur ol) :
    range.1 ≤ cur ∧ cur ≤ range.2 ∧ range.2 ≤ n := by
  cases ol with
  | none =>
    obtain ⟨rfl, rfl⟩ := h
    exact ⟨le_refl 0, le_refl 0, Nat.zero_le n⟩
  | some l => exact ⟨h.splits.lo_le, h.splits.le_hi, h.hi_le⟩

theorem Ranged.falls_lt (h : Ranged n row d range cur ol) (ht : Table n row) (v : TermId) :
    Falls (fun i => (row i).key d < v) cur range.2 := by
  have hbounds := h.bounds
  cases ol with
  | none =>
    obtain ⟨rfl, rfl⟩ := h
    intro i j _ _ hj
    exact absurd hj (Nat.not_lt_zero j)
  | some l => exact (LevelWindow.falls_lt h ht v).narrow hbounds.1 (le_refl _)

theorem Ranged.seek (h : Ranged n row d range cur ol) {value : TermId} {cur' : Nat}
    (hs : Splits (fun i => (row i).key d < value) cur range.2 cur') :
    Ranged n row d range cur' (ol.map fun l => { l with target := max l.target value }) := by
  cases ol with
  | none =>
    obtain ⟨rfl, rfl⟩ := h
    exact ⟨rfl, Nat.le_zero.mp hs.le_hi⟩
  | some l => exact LevelWindow.seek h hs

theorem Ranged.up (n : Nat) (row : Nat → Row) (d : Fin 3) :
    Ranged n row d (if d = 0 then (0, n) else (0, 0)) 0
      (if d = 0 then some TrieCursor.rootLevel else none) := by
  by_cases hd : d = 0
  · subst hd
    exact LevelWindow.root n row
  · rw [if_neg hd, if_neg hd]
    exact ⟨rfl, rfl⟩

theorem Ranged.start (n : Nat) (row : Nat → Row) (d : Fin 3) :
    Ranged n row d (if d = 0 then (0, n) else (0, 0)) 0 (TrieCursor.start d) :=
  Ranged.up n row d

end Ranged

/-- The table holds the triples. -/
def Rows (ord : Ordering) (triples : List Triple) (n : Nat) (row : Nat → Row) : Prop :=
  ∀ r, (∃ i < n, row i = r) ↔ ∃ t ∈ triples, t.by_ordering ord = r

theorem Rows.keys_eq {ord : Ordering} {triples : List Triple} {n : Nat} {row : Nat → Row}
    (h : Rows ord triples n row) (d : Fin 3) (path : List TermId) :
    table_keys n row d path = trie_keys ord triples d path := by
  ext k
  constructor
  · rintro ⟨i, hi, hpath, hkey⟩
    obtain ⟨t, ht, heq⟩ := (h (row i)).mp ⟨i, hi, rfl⟩
    exact ⟨t, ht, heq ▸ hpath, heq ▸ hkey⟩
  · rintro ⟨t, ht, hpath, hkey⟩
    obtain ⟨i, hi, heq⟩ := (h (t.by_ordering ord)).mpr ⟨t, ht, rfl⟩
    exact ⟨i, hi, heq ▸ hpath, heq ▸ hkey⟩

section Rows

variable {ord : Ordering} {triples : List Triple} {n : Nat} {row : Nat → Row} {d : Fin 3}
  {range : Nat × Nat} {cur : Nat} {ol : Option Level}

theorem Rows.left_eq (h : Rows ord triples n row) (d : Fin 3) (l : Level) :
    {k | k ∈ table_keys n row d l.path ∧ l.target ≤ k} = l.left ord triples d := by
  rw [h.keys_eq]
  rfl

/-- The value under the cursor is what the trie has left, at least. -/
theorem Ranged.peek (h : Ranged n row d range cur ol) (ht : Table n row)
    (hrows : Rows ord triples n row) :
    (if cur < range.2 then some ((row cur).key d) else none) =
      ol.bind (Level.peek ord triples d) := by
  cases ol with
  | none =>
    obtain ⟨rfl, rfl⟩ := h
    rfl
  | some l =>
    rw [Option.bind_some]
    split
    · rename_i hcur
      rw [eq_comm, Level.peek_eq_some, ← hrows.left_eq]
      exact LevelWindow.least h ht hcur
    · rename_i hcur
      rw [eq_comm, Level.peek_eq_none, ← hrows.left_eq]
      exact LevelWindow.none_left h (not_lt.mp hcur)

/-- Under a value that is present, the run of its rows opens the next level. -/
theorem Ranged.open_level {l : Level} {k : TermId} (h : Ranged n row (d - 1) range cur (some l))
    (ht : Table n row) (hrows : Rows ord triples n row) (hd : d ≠ 0)
    (hk : l.peek ord triples (d - 1) = some k) :
    cur < range.2 ∧ (row cur).key (d - 1) = k ∧
      Falls (fun i => (row i).key (d - 1) ≤ k) cur range.2 ∧
      ∀ e, Splits (fun i => (row i).key (d - 1) ≤ k) cur range.2 e →
        Ranged n row d (cur, e) cur (some ⟨l.path ++ [k], 0⟩) := by
  have hpeek := h.peek ht hrows
  rw [Option.bind_some, hk] at hpeek
  split at hpeek
  · rename_i hcur
    cases hpeek
    refine ⟨hcur, rfl, ?_, fun e he => LevelWindow.open_level h ht hd hcur he⟩
    exact (LevelWindow.falls_le h ht _).narrow h.bounds.1 (le_refl _)
  · cases hpeek

end Rows

/-! ## Sorted columns -/

/-- The column of each trie depth. -/
def TripleColumns.view (cols : TripleColumns) (depth : Fin 3) : List TermId :=
  cols.rows.map (·.key depth)

/-- The row at an index. -/
def TripleColumns.row (cols : TripleColumns) (i : Nat) : Row := cols.rows.getD i (.of 0 0 0)

theorem TripleColumns.view_getD (cols : TripleColumns) (d : Fin 3) (i : Nat) :
    (cols.view d).getD i 0 = (cols.row i).key d := by
  have hzero : (Row.of 0 0 0).key d = 0 := by
    match d with
    | 0 => rfl
    | 1 => rfl
    | 2 => rfl
  have hmap : (cols.rows.map (·.key d)).getD i ((Row.of 0 0 0).key d) =
      (cols.rows.getD i (.of 0 0 0)).key d := List.getD_map _ _ _
  rwa [hzero] at hmap

theorem TripleColumns.table (cols : TripleColumns) : Table cols.rows.length cols.row := by
  intro i j hij hj
  unfold row
  rw [List.getD_eq_getElem _ _ (by omega), List.getD_eq_getElem _ _ hj]
  exact List.pairwise_iff_getElem.mp cols.sorted i j (by omega) hj hij

theorem TripleColumns.Holds.rows {cols : TripleColumns} {ord : Ordering} {triples : List Triple}
    (h : cols.Holds ord triples.toFinset) : Rows ord triples cols.rows.length cols.row := by
  intro r
  have hmem : (∃ i < cols.rows.length, cols.row i = r) ↔ r ∈ cols.rows := by
    rw [List.mem_iff_getElem]
    refine exists_congr fun i => ⟨fun ⟨hi, heq⟩ => ⟨hi, ?_⟩, fun ⟨hi, heq⟩ => ⟨hi, ?_⟩⟩
    · rwa [TripleColumns.row, List.getD_eq_getElem _ _ hi] at heq
    · rwa [TripleColumns.row, List.getD_eq_getElem _ _ hi]
  rw [hmem, h.mem_iff, List.mem_toFinset]
  constructor
  · exact fun ht => ⟨_, ht, by rw [by_ordering_unpermute]⟩
  · rintro ⟨t, ht, rfl⟩
    rwa [unpermute_by_ordering]

/-! ## Calls that move the cursor -/

/-- What a level that is opened needs. -/
theorem TrieCursor.step_open {ord : Ordering} {triples : List Triple} {c c' : TrieCursor}
    {d : Fin 3} (h : step ord triples c (.open_level d) = some c') :
    d ≠ 0 ∧ ∃ l k, c (d - 1) = some l ∧ l.peek ord triples (d - 1) = some k ∧
      c' = Function.update c d (some ⟨l.path ++ [k], 0⟩) := by
  unfold step at h
  dsimp only at h
  split at h
  · cases h
  · rename_i hd
    obtain ⟨l, hl, h⟩ := Option.bind_eq_some_iff.mp h
    obtain ⟨k, hk, h⟩ := Option.map_eq_some_iff.mp h
    exact ⟨hd, l, k, hl, hk, h.symm⟩

theorem TrieCursor.step_rewind {ord : Ordering} {triples : List Triple} {c c' : TrieCursor}
    {d : Fin 3} (h : step ord triples c (.rewind d) = some c') :
    ∃ l, c d = some l ∧ c' = Function.update c d (some { l with target := 0 }) := by
  obtain ⟨l, hl, h⟩ := Option.map_eq_some_iff.mp h
  exact ⟨l, hl, h.symm⟩

/-- A cursor that follows every call of a script follows the script. -/
theorem TrieCursor.run_follows {ord : Ordering} {triples : List Triple} {σ : Type}
    {move : σ → Call → Option σ} {R : σ → TrieCursor → Prop}
    (hmove : ∀ s c call c', Call.Bounded call → R s c → step ord triples c call = some c' →
      ∃ s', move s call = some s' ∧ R s' c')
    (script : List Call) (hscript : ∀ call ∈ script, call.Bounded) {s : σ} {c c' : TrieCursor}
    (h : R s c) (hrun : script.foldlM (step ord triples) c = some c') :
    ∃ s', script.foldlM move s = some s' ∧ R s' c' := by
  induction script generalizing s c with
  | nil =>
    cases hrun
    exact ⟨s, rfl, h⟩
  | cons call script ih =>
    rw [List.foldlM_cons] at hrun ⊢
    obtain ⟨c₁, hc₁, hrest⟩ := Option.bind_eq_some_iff.mp hrun
    obtain ⟨s₁, hs₁, h₁⟩ := hmove s c call c₁ (hscript call List.mem_cons_self) h hc₁
    rw [hs₁]
    exact ih (fun call hcall => hscript call (List.mem_cons_of_mem _ hcall)) h₁ hrest

end horndb.wcoj
