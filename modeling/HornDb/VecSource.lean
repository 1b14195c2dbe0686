-- The sorted triple source of the join executor: the anchor ordering, the orderings built from
-- it on first use, and the delta that is merged into every ordering that stands.
import HornDb.Lib.Runs

open HornDb.Lib

namespace horndb.wcoj

/-! ## Triples and orderings -/

abbrev TermId := Nat

structure Triple where
  s : TermId
  p : TermId
  o : TermId
deriving DecidableEq, Repr

/-- The axes of a trie, outermost first. -/
inductive Ordering where
  | Spo
  | Sop
  | Pso
  | Pos
  | Osp
  | Ops
deriving DecidableEq, Repr

/-- A trie of triples has depths. -/
instance three_depths : NeZero (3 : Nat) := ⟨by decide⟩

/-- A triple in the axis order of an ordering. Rows compare as tuples. -/
abbrev Row := TermId ×ₗ TermId ×ₗ TermId

namespace Row

def level0 (r : Row) : TermId := (ofLex r).1

def level1 (r : Row) : TermId := (ofLex (ofLex r).2).1

def level2 (r : Row) : TermId := (ofLex (ofLex r).2).2

def of (a b c : TermId) : Row := toLex (a, toLex (b, c))

theorem of_levels (r : Row) : of r.level0 r.level1 r.level2 = r := rfl

theorem lt_iff {r r' : Row} : r < r' ↔
    r.level0 < r'.level0 ∨ r.level0 = r'.level0 ∧ (ofLex r).2 < (ofLex r').2 := by
  rw [Prod.Lex.lt_iff]
  rfl

theorem level0_le {r r' : Row} (h : r < r') : r.level0 ≤ r'.level0 := by
  rcases lt_iff.mp h with h | h
  · exact Nat.le_of_lt h
  · exact Nat.le_of_eq h.1

end Row

namespace Ordering

def permute (ord : Ordering) (s p o : TermId) : Row :=
  match ord with
  | .Spo => .of s p o
  | .Sop => .of s o p
  | .Pso => .of p s o
  | .Pos => .of p o s
  | .Osp => .of o s p
  | .Ops => .of o p s

def unpermute (ord : Ordering) (r : Row) : Triple :=
  match ord with
  | .Spo => ⟨r.level0, r.level1, r.level2⟩
  | .Sop => ⟨r.level0, r.level2, r.level1⟩
  | .Pso => ⟨r.level1, r.level0, r.level2⟩
  | .Pos => ⟨r.level2, r.level0, r.level1⟩
  | .Osp => ⟨r.level1, r.level2, r.level0⟩
  | .Ops => ⟨r.level2, r.level1, r.level0⟩

/-- The place of the outermost axis in `s`, `p`, `o`. -/
def level0_axis : Ordering → Nat
  | .Spo | .Sop => 0
  | .Pso | .Pos => 1
  | .Osp | .Ops => 2

end Ordering

def Triple.by_ordering (t : Triple) (ord : Ordering) : Row := ord.permute t.s t.p t.o

@[simp]
theorem unpermute_by_ordering (t : Triple) (ord : Ordering) :
    ord.unpermute (t.by_ordering ord) = t := by
  cases ord <;> rfl

@[simp]
theorem by_ordering_unpermute (r : Row) (ord : Ordering) :
    (ord.unpermute r).by_ordering ord = r := by
  cases ord <;> exact r.of_levels

variable {ord : Ordering}

theorem by_ordering_inj {t u : Triple} : t.by_ordering ord = u.by_ordering ord ↔ t = u := by
  refine ⟨fun h => ?_, fun h => h ▸ rfl⟩
  rw [← unpermute_by_ordering t ord, h, unpermute_by_ordering]

/-- Orderings with one outermost axis agree on the outermost level. -/
theorem level0_by_ordering {ord ord' : Ordering} (h : ord.level0_axis = ord'.level0_axis)
    (t : Triple) : (t.by_ordering ord).level0 = (t.by_ordering ord').level0 := by
  cases ord <;> cases ord' <;> first | rfl | cases h

/-! ## The rows of an ordering -/

/-- The rows of one ordering, in strict order. -/
structure TripleColumns where
  rows : List Row
  sorted : rows.Pairwise (· < ·)

namespace TripleColumns

def build (rows : List Row) : TripleColumns := ⟨sort_dedup rows, sort_dedup_strict rows⟩

/-- The block of one outermost value in another ordering: its rows in that order. -/
def derive_block (from_ord to_ord : Ordering) (block : TermId × List Row) : List Row :=
  let pairs := block.2.map fun r => (ofLex ((from_ord.unpermute r).by_ordering to_ord)).2
  (pairs.insertionSort (· ≤ ·)).map fun pair => toLex (block.1, pair)

/-- The rows of an ordering from those of one with the same outermost axis, block by block. -/
def derive_blocks (rows : List Row) (from_ord to_ord : Ordering) : List Row :=
  (runs Row.level0 rows).flatMap (derive_block from_ord to_ord)

variable {from_ord to_ord : Ordering}

theorem mem_derive_block (haxis : from_ord.level0_axis = to_ord.level0_axis)
    {block : TermId × List Row} (hblock : ∀ r ∈ block.2, r.level0 = block.1) {r : Row} :
    r ∈ derive_block from_ord to_ord block ↔
      ∃ r' ∈ block.2, (from_ord.unpermute r').by_ordering to_ord = r := by
  unfold derive_block
  dsimp only
  simp only [List.mem_map, List.mem_insertionSort, exists_exists_and_eq_and]
  refine exists_congr fun r' => and_congr_right fun hr' => ?_
  have hlevel : ((from_ord.unpermute r').by_ordering to_ord).level0 = block.1 := by
    rw [← level0_by_ordering haxis, by_ordering_unpermute, hblock r' hr']
  rw [← hlevel]
  exact Iff.rfl

theorem level_of_filter (k : TermId) (rows : List Row) :
    ∀ r ∈ rows.filter fun a => a.level0 = k, r.level0 = k := by
  intro r hr
  exact of_decide_eq_true (List.mem_filter.mp hr).2

theorem mem_derive_blocks {rows : List Row} (hsorted : rows.Pairwise (· < ·))
    (haxis : from_ord.level0_axis = to_ord.level0_axis) {r : Row} :
    r ∈ derive_blocks rows from_ord to_ord ↔
      ∃ r' ∈ rows, (from_ord.unpermute r').by_ordering to_ord = r := by
  have hle : rows.Pairwise fun a b => a.level0 ≤ b.level0 := hsorted.imp Row.level0_le
  unfold derive_blocks
  rw [List.mem_flatMap]
  constructor
  · rintro ⟨⟨k, g⟩, hg, hr⟩
    obtain ⟨rfl, _⟩ := (mem_runs hle).mp hg
    rw [mem_derive_block haxis (level_of_filter _ _)] at hr
    obtain ⟨r', hr', h⟩ := hr
    exact ⟨r', (List.mem_filter.mp hr').1, h⟩
  · rintro ⟨r', hr', h⟩
    have hmem : r' ∈ rows.filter fun a => a.level0 = r'.level0 :=
      List.mem_filter.mpr ⟨hr', decide_eq_true rfl⟩
    refine ⟨(r'.level0, _), (mem_runs hle).mpr ⟨rfl, List.ne_nil_of_mem hmem⟩, ?_⟩
    rw [mem_derive_block haxis (level_of_filter _ _)]
    exact ⟨r', hmem, h⟩

/-- Two rows of one block differ in what is left of them. -/
theorem derive_block_sorted (haxis : from_ord.level0_axis = to_ord.level0_axis) {k : TermId}
    {g : List Row} (hlevel : ∀ r ∈ g, r.level0 = k) (hnodup : g.Nodup) :
    (derive_block from_ord to_ord (k, g)).Pairwise (· < ·) := by
  unfold derive_block
  dsimp only
  rw [List.pairwise_map]
  have hpairs : (g.map fun r => (ofLex ((from_ord.unpermute r).by_ordering to_ord)).2).Nodup := by
    refine hnodup.map_on fun r hr r' hr' heq => ?_
    have hrow : (from_ord.unpermute r).by_ordering to_ord =
        (from_ord.unpermute r').by_ordering to_ord := by
      refine Prod.ext ?_ heq
      show ((from_ord.unpermute r).by_ordering to_ord).level0 =
        ((from_ord.unpermute r').by_ordering to_ord).level0
      rw [← level0_by_ordering haxis, ← level0_by_ordering haxis, by_ordering_unpermute,
        by_ordering_unpermute, hlevel r hr, hlevel r' hr']
    rw [← by_ordering_unpermute r from_ord, by_ordering_inj.mp hrow, by_ordering_unpermute]
  refine (strict_of_nodup (List.pairwise_insertionSort _ _)
    ((List.perm_insertionSort _ _).nodup_iff.mpr hpairs)).imp fun h => ?_
  exact Row.lt_iff.mpr (Or.inr ⟨rfl, h⟩)

theorem derive_blocks_sorted {rows : List Row} (hsorted : rows.Pairwise (· < ·))
    (haxis : from_ord.level0_axis = to_ord.level0_axis) :
    (derive_blocks rows from_ord to_ord).Pairwise (· < ·) := by
  have hle : rows.Pairwise fun a b => a.level0 ≤ b.level0 := hsorted.imp Row.level0_le
  have hnodup : rows.Nodup := hsorted.imp ne_of_lt
  unfold derive_blocks
  rw [List.pairwise_flatMap]
  constructor
  · rintro ⟨k, g⟩ hg
    obtain ⟨rfl, _⟩ := (mem_runs hle).mp hg
    exact derive_block_sorted haxis (level_of_filter k rows) (hnodup.filter _)
  · refine (runs_keys_strict hle).imp fun {block block'} hlt r hr r' hr' => ?_
    obtain ⟨pair, _, rfl⟩ := List.mem_map.mp hr
    obtain ⟨pair', _, rfl⟩ := List.mem_map.mp hr'
    exact Row.lt_iff.mpr (Or.inl hlt)

/-! ### A delta merged in -/

/-- Append the row, unless it stands at the end. -/
def push_row (out : List Row) (row : Row) : List Row :=
  if out.getLast? = some row then out else out ++ [row]

/-- Deletions in front of the row are skipped: they meet no row. -/
def catch_up (dels : List Row) (row : Row) : List Row := dels.dropWhile (· < row)

/-- The merge of the base rows with the deletions and the insertions, all in order. A row on
both lists stays. -/
def merge_rows : List Row → List Row → List Row → List Row → List Row
  | [], _, [], out => out
  | [], dels, a :: adds, out => merge_rows [] dels adds (push_row out a)
  | b :: base, dels, [], out =>
    let dels := catch_up dels b
    if dels.head? = some b then merge_rows base dels.tail [] out
    else merge_rows base dels [] (push_row out b)
  | b :: base, dels, a :: adds, out =>
    let dels := catch_up dels b
    if b < a then
      if dels.head? = some b then merge_rows base dels.tail (a :: adds) out
      else merge_rows base dels (a :: adds) (push_row out b)
    else if a < b then merge_rows (b :: base) dels adds (push_row out a)
    else merge_rows base dels adds (push_row out a)
termination_by base _ adds => base.length + adds.length

theorem mem_catch_up {dels : List Row} {b r : Row} (h : b ≤ r) :
    r ∈ catch_up dels b ↔ r ∈ dels := by
  refine ⟨fun hr => (List.dropWhile_sublist _).subset hr, fun hr => ?_⟩
  rw [← List.takeWhile_append_dropWhile (p := (decide <| · < b)) (l := dels), List.mem_append] at hr
  rcases hr with hr | hr
  · have hlt := List.mem_takeWhile_imp (p := fun x => decide (x < b)) hr
    exact absurd (of_decide_eq_true hlt) (not_lt_of_ge h)
  · exact hr

theorem catch_up_sorted {dels : List Row} (h : dels.Pairwise (· < ·)) (b : Row) :
    (catch_up dels b).Pairwise (· < ·) := h.sublist (List.dropWhile_sublist _)

/-- Behind the deletions that are skipped, a row is deleted when it stands in front. -/
theorem head_catch_up {dels : List Row} (h : dels.Pairwise (· < ·)) {b : Row} :
    (catch_up dels b).head? = some b ↔ b ∈ dels := by
  rw [← mem_catch_up (le_refl b)]
  refine ⟨List.mem_of_mem_head?, fun hb => ?_⟩
  have hsorted := catch_up_sorted h b
  cases hd : catch_up dels b with
  | nil => simp [hd] at hb
  | cons d rest =>
    rw [hd] at hb hsorted
    rcases List.mem_cons.mp hb with rfl | hb
    · rfl
    · have hfirst : ¬ decide (d < b) = true := by
        have := List.head?_dropWhile_not (fun x => decide (x < b)) dels
        unfold catch_up at hd
        rw [hd] at this
        simpa using this
      exact absurd (decide_eq_true ((List.pairwise_cons.mp hsorted).1 b hb)) hfirst

/-- A row behind all that was written is written. -/
theorem push_row_above {out : List Row} {row : Row} (h : ∀ r ∈ out, r < row) :
    push_row out row = out ++ [row] := by
  unfold push_row
  rw [if_neg]
  intro hlast
  exact lt_irrefl row (h row (List.mem_of_getLast? hlast))

/-- What a merge keeps: the rows written are in order, and in front of all that is left. -/
structure Merging (base adds out : List Row) : Prop where
  base_sorted : base.Pairwise (· < ·)
  adds_sorted : adds.Pairwise (· < ·)
  out_sorted : out.Pairwise (· < ·)
  below_base : ∀ r ∈ out, ∀ b ∈ base, r < b
  below_adds : ∀ r ∈ out, ∀ a ∈ adds, r < a

theorem Merging.drop_base {b : Row} {base adds out : List Row} (h : Merging (b :: base) adds out) :
    Merging base adds out :=
  ⟨(List.pairwise_cons.mp h.base_sorted).2, h.adds_sorted, h.out_sorted,
    fun r hr b' hb' => h.below_base r hr b' (List.mem_cons_of_mem b hb'), h.below_adds⟩

theorem Merging.drop_add {a : Row} {base adds out : List Row} (h : Merging base (a :: adds) out) :
    Merging base adds out :=
  ⟨h.base_sorted, (List.pairwise_cons.mp h.adds_sorted).2, h.out_sorted, h.below_base,
    fun r hr a' ha' => h.below_adds r hr a' (List.mem_cons_of_mem a ha')⟩

theorem Merging.push {row : Row} {base adds out : List Row} (h : Merging base adds out)
    (hout : ∀ r ∈ out, r < row) (hbase : ∀ b ∈ base, row < b) (hadds : ∀ a ∈ adds, row < a) :
    Merging base adds (push_row out row) := by
  rw [push_row_above hout]
  refine ⟨h.base_sorted, h.adds_sorted, ?_, ?_, ?_⟩
  · rw [List.pairwise_append]
    exact ⟨h.out_sorted, List.pairwise_singleton _ _, fun r hr r' hr' =>
      List.mem_singleton.mp hr' ▸ hout r hr⟩
  · intro r hr b hb
    rcases List.mem_append.mp hr with hr | hr
    · exact h.below_base r hr b hb
    · exact List.mem_singleton.mp hr ▸ hbase b hb
  · intro r hr a ha
    rcases List.mem_append.mp hr with hr | hr
    · exact h.below_adds r hr a ha
    · exact List.mem_singleton.mp hr ▸ hadds a ha

/-- The deletion that meets a row of the base stays behind when the base moves on. -/
theorem mem_tail_catch_up {dels : List Row} {b r : Row}
    (hhead : (catch_up dels b).head? = some b) (hr : b < r) :
    r ∈ (catch_up dels b).tail ↔ r ∈ dels := by
  have hkeep : r ∈ catch_up dels b ↔ r ∈ dels := mem_catch_up (le_of_lt hr)
  rw [← hkeep]
  cases hd : catch_up dels b with
  | nil => simp [hd] at hhead
  | cons d rest =>
    rw [hd, List.head?_cons, Option.some.injEq] at hhead
    subst hhead
    simp [hr.ne']

/-- What a merge gives: the rows written, the insertions, and the base rows that stay. -/
def Merged (base dels adds out res : List Row) : Prop :=
  res.Pairwise (· < ·) ∧ ∀ r, r ∈ res ↔ r ∈ out ∨ r ∈ adds ∨ r ∈ base ∧ r ∉ dels

section Step

variable {a b : Row} {base dels adds out res : List Row}

theorem Merged.same_dels {dels' : List Row} (h : Merged base dels' adds out res)
    (hsame : ∀ r ∈ base, r ∈ dels' ↔ r ∈ dels) : Merged base dels adds out res := by
  refine ⟨h.1, fun r => ?_⟩
  rw [h.2, and_congr_right fun hr => not_congr (hsame r hr)]

theorem Merged.deleted (h : Merged base dels adds out res) (hb : b ∈ dels) :
    Merged (b :: base) dels adds out res := by
  refine ⟨h.1, fun r => ?_⟩
  rw [h.2]
  by_cases hr : r = b
  · simp [hr, hb]
  · simp [hr]

theorem Merged.kept (h : Merged base dels adds (out ++ [b]) res) (hb : b ∉ dels) :
    Merged (b :: base) dels adds out res := by
  refine ⟨h.1, fun r => ?_⟩
  rw [h.2]
  by_cases hr : r = b
  · simp [hr, hb]
  · simp [hr]

theorem Merged.added (h : Merged base dels adds (out ++ [a]) res) :
    Merged base dels (a :: adds) out res := by
  refine ⟨h.1, fun r => ?_⟩
  rw [h.2]
  simp only [List.mem_append, List.mem_cons]
  tauto

theorem Merged.readded (h : Merged base dels (a :: adds) out res) :
    Merged (a :: base) dels (a :: adds) out res := by
  refine ⟨h.1, fun r => ?_⟩
  rw [h.2]
  by_cases hr : r = a
  · simp [hr]
  · simp [hr]

end Step

theorem merge_rows_spec {base dels adds out : List Row} (h : Merging base adds out)
    (hdels : dels.Pairwise (· < ·)) :
    Merged base dels adds out (merge_rows base dels adds out) := by
  fun_induction merge_rows base dels adds out with
  | case1 => exact ⟨h.out_sorted, by simp⟩
  | case2 dels a adds out ih =>
    have hout := fun r hr => h.below_adds r hr a List.mem_cons_self
    have hnext := h.drop_add.push hout nofun (List.pairwise_cons.mp h.adds_sorted).1
    have hrest := ih hnext hdels
    rw [push_row_above hout] at hrest ⊢
    exact hrest.added
  | case3 b base dels out dels' hhead ih =>
    have hbase := (List.pairwise_cons.mp h.base_sorted).1
    have hrest := ih h.drop_base ((catch_up_sorted hdels b).tail)
    exact (hrest.same_dels fun r hr => mem_tail_catch_up hhead (hbase r hr)).deleted
      ((head_catch_up hdels).mp hhead)
  | case4 b base dels out dels' hhead ih =>
    have hbase := (List.pairwise_cons.mp h.base_sorted).1
    have hout := fun r hr => h.below_base r hr b List.mem_cons_self
    have hrest := ih (h.drop_base.push hout hbase nofun) (catch_up_sorted hdels b)
    rw [push_row_above hout] at hrest ⊢
    exact (hrest.same_dels fun r hr => mem_catch_up (le_of_lt (hbase r hr))).kept
      (mt (head_catch_up hdels).mpr hhead)
  | case5 b base dels a adds out dels' hlt hhead ih =>
    have hbase := (List.pairwise_cons.mp h.base_sorted).1
    have hrest := ih h.drop_base ((catch_up_sorted hdels b).tail)
    exact (hrest.same_dels fun r hr => mem_tail_catch_up hhead (hbase r hr)).deleted
      ((head_catch_up hdels).mp hhead)
  | case6 b base dels a adds out dels' hlt hhead ih =>
    have hbase := (List.pairwise_cons.mp h.base_sorted).1
    have hout := fun r hr => h.below_base r hr b List.mem_cons_self
    have hadds : ∀ a' ∈ a :: adds, b < a' := by
      intro a' ha'
      rcases List.mem_cons.mp ha' with rfl | ha'
      · exact hlt
      · exact lt_trans hlt ((List.pairwise_cons.mp h.adds_sorted).1 a' ha')
    have hrest := ih (h.drop_base.push hout hbase hadds) (catch_up_sorted hdels b)
    rw [push_row_above hout] at hrest ⊢
    exact (hrest.same_dels fun r hr => mem_catch_up (le_of_lt (hbase r hr))).kept
      (mt (head_catch_up hdels).mpr hhead)
  | case7 b base dels a adds out dels' hge hlt ih =>
    have hout := fun r hr => h.below_adds r hr a List.mem_cons_self
    have hbase : ∀ b' ∈ b :: base, b ≤ b' := by
      intro b' hb'
      rcases List.mem_cons.mp hb' with rfl | hb'
      · exact le_refl _
      · exact le_of_lt ((List.pairwise_cons.mp h.base_sorted).1 b' hb')
    have hrest := ih (h.drop_add.push hout (fun b' hb' => lt_of_lt_of_le hlt (hbase b' hb'))
      (List.pairwise_cons.mp h.adds_sorted).1) (catch_up_sorted hdels b)
    rw [push_row_above hout] at hrest ⊢
    exact (hrest.same_dels fun r hr => mem_catch_up (hbase r hr)).added
  | case8 b base dels a adds out dels' hge hle ih =>
    have heq : a = b := le_antisymm (not_lt.mp hge) (not_lt.mp hle)
    subst heq
    have hbase := (List.pairwise_cons.mp h.base_sorted).1
    have hout := fun r hr => h.below_adds r hr a List.mem_cons_self
    have hrest := ih (h.drop_base.drop_add.push hout hbase
      (List.pairwise_cons.mp h.adds_sorted).1) (catch_up_sorted hdels a)
    rw [push_row_above hout] at hrest ⊢
    exact (hrest.same_dels fun r hr => mem_catch_up (le_of_lt (hbase r hr))).added.readded

/-- The rows after a delta: the insertions, and what was there and is not deleted. -/
theorem merge_delta_rows {base dels adds : List Row} (hbase : base.Pairwise (· < ·)) :
    Merged base dels adds [] (merge_rows base (sort_dedup dels) (sort_dedup adds) []) := by
  have hmerged := merge_rows_spec ⟨hbase, sort_dedup_strict adds, .nil, nofun, nofun⟩
    (sort_dedup_strict dels)
  exact ⟨hmerged.1, fun r => by rw [hmerged.2, mem_sort_dedup, mem_sort_dedup]⟩

def merge_delta (cols : TripleColumns) (ord : Ordering) (dels adds : List Triple) :
    TripleColumns where
  rows := merge_rows cols.rows (sort_dedup (dels.map (·.by_ordering ord)))
    (sort_dedup (adds.map (·.by_ordering ord))) []
  sorted := (merge_delta_rows cols.sorted).1

/-- The rows are those of the triples in `T`. -/
def Holds (cols : TripleColumns) (ord : Ordering) (T : Finset Triple) : Prop :=
  ∀ t : Triple, t.by_ordering ord ∈ cols.rows ↔ t ∈ T

variable {cols : TripleColumns} {T : Finset Triple}

theorem Holds.mem_iff (h : cols.Holds ord T) (r : Row) : r ∈ cols.rows ↔ ord.unpermute r ∈ T := by
  rw [← h, by_ordering_unpermute]

theorem Holds.triples_eq (h : cols.Holds ord T) : (cols.rows.map ord.unpermute).toFinset = T := by
  ext t
  rw [List.mem_toFinset, List.mem_map]
  constructor
  · rintro ⟨r, hr, rfl⟩
    exact (h.mem_iff r).mp hr
  · exact fun ht => ⟨_, (h t).mpr ht, unpermute_by_ordering t ord⟩

theorem build_holds (ts : List Triple) (ord : Ordering) :
    (build (ts.map (·.by_ordering ord))).Holds ord ts.toFinset := by
  intro t
  unfold build
  simp [by_ordering_inj]

theorem Holds.derived (h : cols.Holds from_ord T) {rows : List Row}
    (hrows : ∀ r, r ∈ rows ↔ ∃ r' ∈ cols.rows, (from_ord.unpermute r').by_ordering to_ord = r)
    (hsorted : rows.Pairwise (· < ·)) : (TripleColumns.mk rows hsorted).Holds to_ord T := by
  intro t
  rw [hrows]
  constructor
  · rintro ⟨r', hr', heq⟩
    rw [← by_ordering_inj.mp heq, ← h, by_ordering_unpermute]
    exact hr'
  · exact fun ht => ⟨_, (h t).mpr ht, by rw [unpermute_by_ordering]⟩

theorem Holds.merge_delta (h : cols.Holds ord T) (dels adds : List Triple) :
    (cols.merge_delta ord dels adds).Holds ord ((T \ dels.toFinset) ∪ adds.toFinset) := by
  have himage : ∀ (l : List Triple) (t : Triple),
      t.by_ordering ord ∈ l.map (·.by_ordering ord) ↔ t ∈ l := by
    intro l t
    simp [by_ordering_inj]
  intro t
  unfold TripleColumns.merge_delta
  dsimp only
  rw [(merge_delta_rows cols.sorted).2, himage, himage, h]
  simp only [List.not_mem_nil, Finset.mem_union, Finset.mem_sdiff, List.mem_toFinset]
  tauto

end TripleColumns

/-! ## The source -/

/-- The ordering that every source has, and that the others are built from. -/
def ANCHOR_ORDERING : Ordering := .Pso

/-- The anchor and the orderings built so far, which hold its triples. -/
structure VecTripleSource where
  anchor : TripleColumns
  derived : Ordering → Option TripleColumns
  total : Nat
  agrees : ∀ ord cols, derived ord = some cols →
    cols.Holds ord (anchor.rows.map ANCHOR_ORDERING.unpermute).toFinset

namespace VecTripleSource

def from_triples (triples : List Triple) : VecTripleSource where
  anchor := .build (triples.map (·.by_ordering ANCHOR_ORDERING))
  derived _ := none
  total := triples.length
  agrees := nofun

def triples (src : VecTripleSource) : Finset Triple :=
  (src.anchor.rows.map ANCHOR_ORDERING.unpermute).toFinset

/-- An ordering from the anchor. -/
def derive (src : VecTripleSource) (ord : Ordering) : TripleColumns :=
  if haxis : ANCHOR_ORDERING.level0_axis = ord.level0_axis then
    ⟨TripleColumns.derive_blocks src.anchor.rows ANCHOR_ORDERING ord,
      TripleColumns.derive_blocks_sorted src.anchor.sorted haxis⟩
  else .build (src.anchor.rows.map fun r => (ANCHOR_ORDERING.unpermute r).by_ordering ord)

def columns (src : VecTripleSource) (ord : Ordering) : TripleColumns :=
  if ord = ANCHOR_ORDERING then src.anchor
  else
    match src.derived ord with
    | some cols => cols
    | none => src.derive ord

theorem anchor_holds (src : VecTripleSource) : src.anchor.Holds ANCHOR_ORDERING src.triples := by
  intro t
  unfold triples
  rw [List.mem_toFinset, List.mem_map]
  refine ⟨fun ht => ⟨_, ht, unpermute_by_ordering _ _⟩, ?_⟩
  rintro ⟨r, hr, rfl⟩
  rw [by_ordering_unpermute]
  exact hr

theorem derive_holds (src : VecTripleSource) (ord : Ordering) :
    (src.derive ord).Holds ord src.triples := by
  unfold derive
  split
  · rename_i haxis
    exact src.anchor_holds.derived
      (fun r => TripleColumns.mem_derive_blocks src.anchor.sorted haxis) _
  · exact src.anchor_holds.derived (fun r => by simp) _

/-- Every ordering has the rows of the triples, built before or on this request. -/
theorem columns_holds (src : VecTripleSource) (ord : Ordering) :
    (src.columns ord).Holds ord src.triples := by
  unfold columns
  split
  · rename_i heq
    rw [heq]
    exact src.anchor_holds
  · split
    · rename_i hcols
      exact src.agrees _ _ hcols
    · exact src.derive_holds ord

/-- The source after an ordering is asked for: what was built stays. -/
def request (src : VecTripleSource) (ord : Ordering) : VecTripleSource :=
  if ord = ANCHOR_ORDERING then src
  else
    { src with
      derived := fun ord' => if ord' = ord then some (src.columns ord) else src.derived ord'
      agrees := by
        intro ord' cols hcols
        split at hcols
        · rename_i heq
          cases hcols
          rw [heq]
          exact src.columns_holds ord
        · exact src.agrees ord' cols hcols }

/-- Merge the delta into every ordering that stands. -/
def apply_delta (src : VecTripleSource) (dels adds : List Triple) : VecTripleSource :=
  if dels = [] ∧ adds = [] then { src with total := src.anchor.rows.length }
  else
    let anchor := src.anchor.merge_delta ANCHOR_ORDERING dels adds
    { anchor
      derived := fun ord => (src.derived ord).map (·.merge_delta ord dels adds)
      total := anchor.rows.length
      agrees := by
        intro ord cols hcols
        obtain ⟨old, hold, rfl⟩ := Option.map_eq_some_iff.mp hcols
        rw [(src.anchor_holds.merge_delta dels adds).triples_eq]
        exact (src.agrees ord old hold).merge_delta dels adds }

theorem from_triples_triples (ts : List Triple) : (from_triples ts).triples = ts.toFinset :=
  (TripleColumns.build_holds ts ANCHOR_ORDERING).triples_eq

@[simp]
theorem request_triples (src : VecTripleSource) (ord : Ordering) :
    (src.request ord).triples = src.triples := by
  unfold request
  split <;> rfl

/-- A delta takes the deletions out and puts the insertions in. -/
@[simp]
theorem apply_delta_triples (src : VecTripleSource) (dels adds : List Triple) :
    (src.apply_delta dels adds).triples = (src.triples \ dels.toFinset) ∪ adds.toFinset := by
  unfold apply_delta
  split
  · rename_i hnone
    rw [hnone.1, hnone.2]
    show src.triples = _
    simp
  · exact (src.anchor_holds.merge_delta dels adds).triples_eq

end VecTripleSource

end horndb.wcoj
