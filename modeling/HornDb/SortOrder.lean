-- Where the comparison of rows is a total preorder: a column may hold NaN only beside equal
-- numbers, and no text between two numbers that stand in the other order, or are equal.
import HornDb.Expressions
import HornDb.SortKeys

open HornDb.Lib.Floats HornDb.Lib.Sorts
open Std (TransCmp OrientedCmp)

namespace horndb.sparql.exec

open algebra (Expr OrderDir)

/-! ## Comparisons of two values -/

theorem datetime_key_eq {s k : String} (h : datetime_key s = some k) : k = s := by
  unfold datetime_key at h
  dsimp only at h
  split at h
  · cases h
  · split at h
    · exact (Option.some.inj h).symm
    · cases h

/-- An instant is compared as the text that it is. -/
theorem compare_lexical_eq (x y : String) : compare_lexical x y = compare x y := by
  unfold compare_lexical
  split
  · rename_i a b ha hb
    rw [datetime_key_eq ha, datetime_key_eq hb]
  · rfl

namespace SortCol

theorem compare_vals_swap (x y : SortVal) : compare_vals x y = (compare_vals y x).swap := by
  unfold compare_vals
  cases x.num <;> cases y.num
  · simp only [compare_lexical_eq]
    exact OrientedCmp.eq_swap
  · simp only [compare_lexical_eq]
    exact OrientedCmp.eq_swap
  · simp only [compare_lexical_eq]
    exact OrientedCmp.eq_swap
  · exact compare_numbers_swap _ _

theorem compare_vals_numbers {x y : SortVal} {p q : Float} (hx : x.num = some p)
    (hy : y.num = some q) : compare_vals x y = compare_numbers p q := by
  unfold compare_vals
  rw [hx, hy]

theorem compare_vals_texts {x y : SortVal} (h : x.num = none ∨ y.num = none) :
    compare_vals x y = compare x.lex y.lex := by
  unfold compare_vals
  rw [← compare_lexical_eq]
  rcases h with h | h <;> rw [h]
  cases x.num <;> rfl

/-! ## Columns -/

/-- Values of which the comparison is transitive. -/
def TransOn {α : Type} (cmp : α → α → Ordering) (xs : List α) : Prop :=
  ∀ x ∈ xs, ∀ y ∈ xs, ∀ z ∈ xs,
    (cmp x y).isLE = true → (cmp y z).isLE = true → (cmp x z).isLE = true

section Bound

variable {α : Type} {cmp : α → α → Ordering} {vals : List (Option α)}

theorem mem_bound {x : α} : x ∈ vals.filterMap id ↔ ∃ i, vals.getD i none = some x := by
  rw [List.mem_filterMap]
  simp only [id_eq, exists_eq_right, List.getD_eq_getElem?_getD]
  rw [List.mem_iff_getElem?]
  refine exists_congr fun i => ?_
  cases vals[i]? <;> simp

theorem compare_bound_swap (hswap : ∀ x y, cmp x y = (cmp y x).swap) (x y : Option α) :
    compare_bound cmp x y = (compare_bound cmp y x).swap := by
  cases x <;> cases y <;> first | rfl | exact hswap _ _

theorem compare_bound_trans (h : TransOn cmp (vals.filterMap id)) (a b c : Nat)
    (hab : (compare_bound cmp (vals.getD a none) (vals.getD b none)).isLE = true)
    (hbc : (compare_bound cmp (vals.getD b none) (vals.getD c none)).isLE = true) :
    (compare_bound cmp (vals.getD a none) (vals.getD c none)).isLE = true := by
  cases ha : vals.getD a none with
  | none => cases vals.getD c none <;> rfl
  | some x =>
    cases hb : vals.getD b none with
    | none =>
      rw [ha, hb] at hab
      cases hab
    | some y =>
      cases hc : vals.getD c none with
      | none =>
        rw [hb, hc] at hbc
        cases hbc
      | some z =>
        rw [ha, hb] at hab
        rw [hb, hc] at hbc
        exact h x (mem_bound.mpr ⟨a, ha⟩) y (mem_bound.mpr ⟨b, hb⟩) z (mem_bound.mpr ⟨c, hc⟩)
          hab hbc

/-- The rows of a column are in a total preorder exactly when its bound values are. -/
theorem transCmp_bound (hswap : ∀ x y, cmp x y = (cmp y x).swap) :
    TransCmp (fun a b => compare_bound cmp (vals.getD a none) (vals.getD b none)) ↔
      TransOn cmp (vals.filterMap id) := by
  constructor
  · intro h x hx y hy z hz hxy hyz
    obtain ⟨a, ha⟩ := mem_bound.mp hx
    obtain ⟨b, hb⟩ := mem_bound.mp hy
    obtain ⟨c, hc⟩ := mem_bound.mp hz
    have htrans := h.isLE_trans (a := a) (b := b) (c := c)
    simp only [ha, hb, hc, compare_bound] at htrans
    exact htrans hxy hyz
  · intro h
    exact { eq_swap := compare_bound_swap hswap _ _, isLE_trans := compare_bound_trans h _ _ _ }

end Bound

/-- Where one of the numbers is NaN, the others are equal. -/
def Alike (xs : List Float) : Prop :=
  (∃ x ∈ xs, x.isNaN = true) → ∀ x ∈ xs, ∀ y ∈ xs, compare_numbers x y = .eq

/-- A text between the texts of two numbers tells that the one number is less than the other. -/
def TextsApart (vals : List SortVal) : Prop :=
  ∀ x ∈ vals, ∀ t ∈ vals, ∀ y ∈ vals, ∀ p q, x.num = some p → t.num = none → y.num = some q →
    compare x.lex t.lex = .lt → compare t.lex y.lex = .lt → compare_numbers p q = .lt

def Consistent : SortCol → Prop
  | Num vals => Alike (vals.filterMap id)
  | Lex _ => True
  | Mixed vals =>
    Alike ((vals.filterMap id).filterMap SortVal.num) ∧ TextsApart (vals.filterMap id)

theorem transOn_numbers {xs : List Float} : TransOn compare_numbers xs ↔ Alike xs := by
  constructor
  · rintro h ⟨n, hn, hnan⟩ x hx y hy
    have hle : ∀ x ∈ xs, ∀ y ∈ xs, (compare_numbers x y).isLE = true := by
      intro x hx y hy
      refine h x hx n hn y hy ?_ ?_
      · rw [compare_numbers_nan (.inr hnan)]
        rfl
      · rw [compare_numbers_nan (.inl hnan)]
        rfl
    have hback := hle y hy x hx
    rw [compare_numbers_swap] at hback
    have hxy := hle x hx y hy
    revert hback hxy
    cases compare_numbers x y <;> simp
  · intro h x hx y hy z hz hxy hyz
    by_cases hnan : y.isNaN = true
    · rw [h ⟨y, hy, hnan⟩ x hx z hz]
      rfl
    · exact compare_numbers_trans (eq_false_of_ne_true hnan) hxy hyz

/-- Two texts of which one is a number and the other is none are not the same. -/
theorem compare_lex_ne {x y : SortVal} {p : Float} (hx : x.num = some p) (hy : y.num = none) :
    compare x.lex y.lex ≠ .eq := by
  intro heq
  rw [Std.LawfulEqOrd.compare_eq_iff_eq] at heq
  rw [x.coerced, heq, ← y.coerced, hy] at hx
  cases hx

/-- A text is on one side of a number. -/
theorem compare_lex_lt {x y : SortVal} {p : Float} (hx : x.num = some p) (hy : y.num = none) :
    ((compare x.lex y.lex).isLE = true → compare x.lex y.lex = .lt) ∧
      ((compare y.lex x.lex).isLE = true → compare y.lex x.lex = .lt) := by
  have hne := compare_lex_ne hx hy
  have hswap : compare x.lex y.lex = (compare y.lex x.lex).swap := OrientedCmp.eq_swap
  rw [hswap] at hne ⊢
  revert hne
  cases compare y.lex x.lex <;> simp

theorem not_isLE_iff {x y : String} : (compare x y).isLE = false ↔ compare y x = .lt := by
  have hswap : compare x y = (compare y x).swap := OrientedCmp.eq_swap
  rw [hswap]
  cases compare y x <;> simp

section Mixed

variable {vals : List SortVal}

/-- The comparison of a mixed column is transitive where its numbers are, and its texts stand
apart from them. -/
theorem transOn_vals (hnums : Alike (vals.filterMap SortVal.num)) (htexts : TextsApart vals) :
    TransOn compare_vals vals := by
  have hnum : ∀ x ∈ vals, ∀ p, x.num = some p → p ∈ vals.filterMap SortVal.num :=
    fun x hx p hp => List.mem_filterMap.mpr ⟨x, hx, hp⟩
  intro x hx y hy z hz hxy hyz
  cases hp : x.num with
  | none =>
    rw [compare_vals_texts (.inl hp)] at hxy ⊢
    cases hq : y.num with
    | none =>
      rw [compare_vals_texts (.inl hq)] at hyz
      exact TransCmp.isLE_trans hxy hyz
    | some q =>
      cases hr : z.num with
      | none =>
        rw [compare_vals_texts (.inr hr)] at hyz
        exact TransCmp.isLE_trans hxy hyz
      | some r =>
        -- the text `x` would stand between the numbers `z` and `y`
        rw [compare_vals_numbers hq hr] at hyz
        by_contra hnot
        have hzx := not_isLE_iff.mp (eq_false_of_ne_true hnot)
        have hlt := htexts z hz x hx y hy r q hr hp hq hzx ((compare_lex_lt hq hp).2 hxy)
        rw [compare_numbers_swap, hlt] at hyz
        cases hyz
  | some p =>
    cases hq : y.num with
    | none =>
      rw [compare_vals_texts (.inr hq)] at hxy
      rw [compare_vals_texts (.inl hq)] at hyz
      cases hr : z.num with
      | none =>
        rw [compare_vals_texts (.inr hr)]
        exact TransCmp.isLE_trans hxy hyz
      | some r =>
        rw [compare_vals_numbers hp hr, htexts x hx y hy z hz p r hp hq hr
          ((compare_lex_lt hp hq).1 hxy) ((compare_lex_lt hr hq).2 hyz)]
        rfl
    | some q =>
      rw [compare_vals_numbers hp hq] at hxy
      cases hr : z.num with
      | none =>
        -- the text `z` would stand between the numbers `y` and `x`
        rw [compare_vals_texts (.inr hr)] at hyz ⊢
        by_contra hnot
        have hzx := not_isLE_iff.mp (eq_false_of_ne_true hnot)
        have hlt := htexts y hy z hz x hx q p hq hr hp ((compare_lex_lt hq hr).1 hyz) hzx
        rw [compare_numbers_swap, hlt] at hxy
        cases hxy
      | some r =>
        rw [compare_vals_numbers hq hr] at hyz
        rw [compare_vals_numbers hp hr]
        exact transOn_numbers.mpr hnums p (hnum x hx p hp) q (hnum y hy q hq) r (hnum z hz r hr)
          hxy hyz

theorem alike_of_transOn (h : TransOn compare_vals vals) : Alike (vals.filterMap SortVal.num) := by
  refine transOn_numbers.mp fun p hp q hq r hr hpq hqr => ?_
  obtain ⟨x, hx, hxp⟩ := List.mem_filterMap.mp hp
  obtain ⟨y, hy, hyq⟩ := List.mem_filterMap.mp hq
  obtain ⟨z, hz, hzr⟩ := List.mem_filterMap.mp hr
  rw [← compare_vals_numbers hxp hyq] at hpq
  rw [← compare_vals_numbers hyq hzr] at hqr
  rw [← compare_vals_numbers hxp hzr]
  exact h x hx y hy z hz hpq hqr

theorem textsApart_of_transOn (h : TransOn compare_vals vals) : TextsApart vals := by
  intro x hx t ht y hy p q hp htext hq hxt hty
  have hxt' : compare_vals x t = .lt := by rw [compare_vals_texts (.inr htext), hxt]
  have hty' : compare_vals t y = .lt := by rw [compare_vals_texts (.inl htext), hty]
  have hle := h x hx t ht y hy (by rw [hxt']; rfl) (by rw [hty']; rfl)
  rw [compare_vals_numbers hp hq] at hle
  by_contra hne
  have hback : (compare_vals y x).isLE = true := by
    rw [compare_vals_numbers hq hp, compare_numbers_swap]
    revert hle hne
    cases compare_numbers p q <;> simp
  have hyt := h y hy x hx t ht hback (by rw [hxt']; rfl)
  rw [compare_vals_swap, hty'] at hyt
  cases hyt

end Mixed

/-- The rows of a column are in a total preorder exactly when the column is consistent. -/
theorem transCmp_iff_consistent (col : SortCol) :
    TransCmp (fun a b => col.compare_rows a b) ↔ col.Consistent := by
  cases col with
  | Num vals => exact (transCmp_bound compare_numbers_swap).trans transOn_numbers
  | Lex vals =>
    refine iff_of_true ((transCmp_bound fun x y => ?_).mpr fun x _ y _ z _ hxy hyz => ?_) trivial
    · rw [compare_lexical_eq, compare_lexical_eq]
      exact OrientedCmp.eq_swap
    · rw [compare_lexical_eq] at hxy hyz ⊢
      exact TransCmp.isLE_trans hxy hyz
  | Mixed vals =>
    refine (transCmp_bound compare_vals_swap).trans ⟨fun h => ?_, fun h => ?_⟩
    · exact ⟨alike_of_transOn h, textsApart_of_transOn h⟩
    · exact transOn_vals h.1 h.2

/-- A column that is taken for a total order is consistent. -/
theorem Consistent.of_is_total_order {col : SortCol} (h : col.is_total_order = true) :
    col.Consistent := by
  cases col with
  | Num vals =>
    rintro ⟨x, hx, hnan⟩
    unfold is_total_order at h
    rw [Bool.not_eq_true', List.any_eq_false] at h
    exact absurd hnan (h x hx)
  | Lex vals => trivial
  | Mixed vals => cases h

/-! ## Several columns -/

def directed (dir : OrderDir) (cmp : Nat → Nat → Ordering) (a b : Nat) : Ordering :=
  match dir with
  | .Asc => cmp a b
  | .Desc => (cmp a b).swap

theorem transCmp_directed (dir : OrderDir) {cmp : Nat → Nat → Ordering} :
    TransCmp (directed dir cmp) ↔ TransCmp cmp := by
  have hflip : ∀ {f : Nat → Nat → Ordering}, TransCmp f → TransCmp fun a b => (f a b).swap := by
    intro f h
    have hopp : (fun a b => (f a b).swap) = fun a b => f b a := by
      funext a b
      exact OrientedCmp.eq_swap.symm
    rw [hopp]
    exact TransCmp.opposite
  cases dir with
  | Asc => exact Iff.rfl
  | Desc =>
    refine ⟨fun h => ?_, hflip⟩
    have hback := hflip h
    simp only [directed, Ordering.swap_swap] at hback
    exact hback

end SortCol

open SortCol

theorem compare_decorated_cons (col : SortCol) (dir : OrderDir) (cols : SortCols) :
    compare_decorated ((col, dir) :: cols) =
      compareLex (directed dir fun a b => col.compare_rows a b) (compare_decorated cols) := by
  funext a b
  simp only [compare_decorated, compareLex, directed]
  cases dir <;> cases col.compare_rows a b <;> rfl

/-- Consistent columns put the rows in a total preorder. -/
theorem compare_decorated_trans {cols : SortCols} (h : ∀ c ∈ cols, c.1.Consistent) :
    TransCmp (compare_decorated cols) := by
  induction cols with
  | nil => exact { eq_swap := rfl, isLE_trans := fun _ _ => rfl }
  | cons c cols ih =>
    obtain ⟨col, dir⟩ := c
    rw [List.forall_mem_cons] at h
    have hcol := (transCmp_directed dir).mpr ((transCmp_iff_consistent col).mpr h.1)
    have hrest := ih h.2
    rw [compare_decorated_cons]
    infer_instance

/-- Under one key, the column has to be consistent. -/
theorem compare_decorated_singleton (col : SortCol) (dir : OrderDir) :
    TransCmp (compare_decorated [(col, dir)]) ↔ col.Consistent := by
  have hsame : compare_decorated [(col, dir)] = directed dir fun a b => col.compare_rows a b := by
    rw [compare_decorated_cons]
    funext a b
    unfold compareLex
    cases directed dir (fun a b => col.compare_rows a b) a b <;> rfl
  rw [hsame]
  exact (transCmp_directed dir).trans (transCmp_iff_consistent col)

/-! ## The rows in another order -/

/-- The column of the rows at some places. -/
def SortCol.at_places (place : List Nat) : SortCol → SortCol
  | Num vals => .Num (place.map (vals.getD · none))
  | Lex vals => .Lex (place.map (vals.getD · none))
  | Mixed vals => .Mixed (place.map (vals.getD · none))

def SortCols.at_places (cols : SortCols) (place : List Nat) : SortCols :=
  cols.map fun (col, dir) => (col.at_places place, dir)

theorem mem_at_places {α : Type} {vals : List (Option α)} {place : List Nat} {x : α}
    (h : x ∈ (place.map (vals.getD · none)).filterMap id) : x ∈ vals.filterMap id := by
  obtain ⟨cell, hcell, rfl⟩ := List.mem_filterMap.mp h
  obtain ⟨i, -, hi⟩ := List.mem_map.mp hcell
  exact mem_bound.mpr ⟨i, hi⟩

theorem SortCol.Alike.mono {xs ys : List Float} (hsub : ∀ x ∈ ys, x ∈ xs) (h : Alike xs) :
    Alike ys := by
  rintro ⟨n, hn, hnan⟩ x hx y hy
  exact h ⟨n, hsub n hn, hnan⟩ x (hsub x hx) y (hsub y hy)

theorem SortCol.Consistent.at_places {col : SortCol} (h : col.Consistent) (place : List Nat) :
    (col.at_places place).Consistent := by
  cases col with
  | Num vals => exact Alike.mono (fun x => mem_at_places) h
  | Lex vals => trivial
  | Mixed vals =>
    refine ⟨h.1.mono fun p hp => ?_, ?_⟩
    · obtain ⟨x, hx, hxp⟩ := List.mem_filterMap.mp hp
      exact List.mem_filterMap.mpr ⟨x, mem_at_places hx, hxp⟩
    · intro x hx t ht y hy
      exact h.2 x (mem_at_places hx) t (mem_at_places ht) y (mem_at_places hy)

theorem getD_places {α : Type} (vals : List (Option α)) {place : List Nat} {a : Nat}
    (ha : a < place.length) :
    (place.map (vals.getD · none)).getD a none = vals.getD (place.getD a 0) none := by
  rw [List.getD_eq_getElem _ _ (by rw [List.length_map]; exact ha), List.getElem_map,
    List.getD_eq_getElem _ _ ha]

theorem compare_at_places (cols : SortCols) {place : List Nat} {a b : Nat} (ha : a < place.length)
    (hb : b < place.length) :
    compare_decorated (SortCols.at_places cols place) a b =
      compare_decorated cols (place.getD a 0) (place.getD b 0) := by
  induction cols with
  | nil => rfl
  | cons c cols ih =>
    obtain ⟨col, dir⟩ := c
    have hrows : (col.at_places place).compare_rows a b =
        col.compare_rows (place.getD a 0) (place.getD b 0) := by
      cases col <;> simp only [SortCol.at_places, compare_rows, getD_places _ ha, getD_places _ hb]
    show compare_decorated ((col.at_places place, dir) :: SortCols.at_places cols place) a b = _
    simp only [compare_decorated, hrows, ih]

theorem map_places {place : List Nat} {n : Nat} (h : place.length = n) :
    (List.range n).map (place.getD · 0) = place := by
  subst h
  refine List.ext_getElem (by simp) fun i _ hi => ?_
  rw [List.getElem_map, List.getElem_range, List.getD_eq_getElem _ _ hi]

/-! ## The sort -/

theorem sorted_order_eq (sort : StableSort) {cols : SortCols} (h : ∀ c ∈ cols, c.1.Consistent)
    (n : Nat) :
    ∃ order, sorted_order sort cols n = .ok order ∧ order.Perm (List.range n) ∧
      order.Pairwise (Before (compare_decorated cols)) := by
  obtain ⟨order, hsort, hperm, hbefore⟩ := sort_range sort (compare_decorated_trans h) n
  refine ⟨order, ?_, hperm, hbefore⟩
  unfold sorted_order
  rw [hsort]

/-- No row is taken twice, so none is found empty. -/
theorem permute_eq_map {rows : List Row} {order : List Nat} (h : order.Nodup) :
    permute rows order = order.map (rows.getD · []) := by
  induction order generalizing rows with
  | nil => rfl
  | cons i order ih =>
    rw [List.nodup_cons] at h
    rw [permute, ih h.2, List.map_cons]
    congr 1
    refine List.map_congr_left fun j hj => ?_
    have hne : i ≠ j := fun heq => h.1 (heq ▸ hj)
    simp only [List.getD_eq_getElem?_getD, List.getElem?_set_ne hne]

theorem rows_map_range (rows : List Row) :
    (List.range rows.length).map (rows.getD · []) = rows := by
  refine List.ext_getElem (by simp) fun i _ hi => ?_
  rw [List.getElem_map, List.getElem_range, List.getD_eq_getElem _ _ hi]

variable {Func Pattern : Type}

/-- Under consistent columns the comparison of rows is a total preorder, and ORDER BY gives all
rows in its order. Where the rows come in another order, the keys of the result are the same. A
column that is taken for a total order is consistent, and under one key every column has to be. -/
theorem compute_order_by_sorted (sort : StableSort) (exec : Executor)
    (q : EvalScope Func Pattern) (batch : Batch) (keys : List (Expr Func Pattern × OrderDir))
    {cols : SortCols} (hcols : sort_columns exec q batch.rows batch.schema keys = .ok cols)
    (hcons : ∀ c ∈ cols, c.1.Consistent) :
    (TransCmp (compare_decorated cols) ∧
      ∃ order rows, compute_order_by sort exec q batch keys = .ok ⟨batch.schema, rows⟩ ∧
        rows = order.map (batch.rows.getD · []) ∧ rows.Perm batch.rows ∧
        order.Perm (List.range batch.rows.length) ∧
        order.Pairwise (fun a b => compare_decorated cols a b ≠ .gt) ∧
        ∀ place : List Nat, place.Perm (List.range batch.rows.length) →
          ∃ other, sorted_order sort (SortCols.at_places cols place) batch.rows.length = .ok other ∧
            List.Forall₂ (fun a b => compare_decorated cols a b = .eq) order
              (other.map (place.getD · 0))) ∧
    (∀ col : SortCol, col.is_total_order = true → col.Consistent) ∧
    ∀ (col : SortCol) (dir : OrderDir),
      TransCmp (compare_decorated [(col, dir)]) ↔ col.Consistent := by
  have htrans := compare_decorated_trans hcons
  obtain ⟨order, hsort, hperm, hbefore⟩ := sorted_order_eq sort hcons batch.rows.length
  have hsorted := hbefore.imp Before.ne_gt
  refine ⟨⟨htrans, order, _, ?_, rfl, ?_, hperm, hsorted, fun place hplace => ?_⟩,
    fun col => Consistent.of_is_total_order, compare_decorated_singleton⟩
  · unfold compute_order_by
    rw [hcols]
    show (do let order ← sorted_order sort cols batch.rows.length; _) = _
    rw [hsort]
    show Except.ok _ = _
    rw [permute_eq_map (hperm.nodup_iff.mpr List.nodup_range)]
  · have hmap := hperm.map (batch.rows.getD · [])
    rw [rows_map_range] at hmap
    exact hmap
  · have hlen : place.length = batch.rows.length := by
      rw [hplace.length_eq, List.length_range]
    have hthere : ∀ c ∈ SortCols.at_places cols place, c.1.Consistent := by
      intro c hc
      obtain ⟨c', hc', rfl⟩ := List.mem_map.mp hc
      exact (hcons c' hc').at_places place
    obtain ⟨other, hother, hperm', hbefore'⟩ := sorted_order_eq sort hthere batch.rows.length
    refine ⟨other, hother, forall₂_eq_of_perm htrans ?_ hsorted ?_⟩
    · have hmap := hperm'.map (place.getD · 0)
      rw [map_places hlen] at hmap
      exact hperm.trans (hmap.trans hplace).symm
    · rw [List.pairwise_map]
      refine hbefore'.imp_of_mem fun {a b} ha hb hab => ?_
      have ha := List.mem_range.mp (hperm'.mem_iff.mp ha)
      have hb := List.mem_range.mp (hperm'.mem_iff.mp hb)
      rw [← compare_at_places cols (by omega) (by omega)]
      exact hab.ne_gt

theorem SortVal.of_text {t : Term} {s : String} (h : literal_value t = s) :
    SortVal.of t = ⟨parse_trimmed s, s, rfl⟩ := by
  subst h
  rfl

/-- Two numbers under the key `?x`, of which the second is less, and a text behind their texts. -/
def mixed_rows : Batch :=
  ⟨["x"], ["\"10\"", "\"9\"", "\"x\""].map fun s => [.Term (.Literal s)]⟩

def by_x : List (Expr Empty Empty × OrderDir) := [(.Term (.Var "x"), .Asc)]

def no_ids : Executor := ⟨fun _ => .error (.Executor ""), fun _ => .ok none⟩

/-- A scope without numbers, functions and patterns. -/
def no_functions : EvalScope Empty Empty where
  Numeric := Empty
  numeric_of _ := none
  add x := x.elim
  sub x := x.elim
  mul x := x.elim
  div x := x.elim
  neg x := x.elim
  to_term x := x.elim
  eval_func f := f.elim
  exists_pattern p := p.elim
  pattern_vars p := p.elim

/-- The column of the three rows: each text with the number that it is read as. -/
def mixed_column : SortCol := .Mixed (["10", "9", "x"].map fun s => some ⟨parse_trimmed s, s, rfl⟩)

theorem compute_order_by_mixed :
    TransCmp (compare_decorated [(mixed_column, .Asc)]) ∧
      ∃ (order : List Nat) (rows : List Row),
        compute_order_by merge_sort no_ids no_functions mixed_rows by_x = .ok ⟨["x"], rows⟩ ∧
          rows = order.map (mixed_rows.rows.getD · []) ∧ rows.Perm mixed_rows.rows := by
  have hten : literal_value (.Literal "\"10\"") = "10" := by
    simp [literal_value, literal_lexical, text.unescape_ntriples, text.trim, text.is_whitespace,
      text.split_quoted, List.rdropWhile]
  have hnine : literal_value (.Literal "\"9\"") = "9" := by
    simp [literal_value, literal_lexical, text.unescape_ntriples, text.trim, text.is_whitespace,
      text.split_quoted, List.rdropWhile]
  have hx : literal_value (.Literal "\"x\"") = "x" := by
    simp [literal_value, literal_lexical, text.unescape_ntriples, text.trim, text.is_whitespace,
      text.split_quoted, List.rdropWhile]
  have hcols : sort_columns no_ids no_functions mixed_rows.rows mixed_rows.schema by_x =
      .ok [(mixed_column, .Asc)] := by
    have hnum : no_ids.numeric_cells 0 mixed_rows.rows = .ok none := by
      have hxnum : numeric_value (.Literal "\"x\"") = none := by
        rw [numeric_value, hx]
        rfl
      obtain ⟨ten, hten'⟩ : ∃ x, numeric_value (.Literal "\"10\"") = some x := by
        rw [numeric_value, hten]
        exact ⟨_, rfl⟩
      obtain ⟨nine, hnine'⟩ : ∃ x, numeric_value (.Literal "\"9\"") = some x := by
        rw [numeric_value, hnine]
        exact ⟨_, rfl⟩
      simp [mixed_rows, Executor.numeric_cells, Row.at, hten', hnine', hxnum]
      rfl
    have hslot : no_ids.slot_sort_col mixed_rows.rows 0 = .ok mixed_column := by
      unfold Executor.slot_sort_col
      rw [hnum]
      show Except.ok (SortCol.classify [some (.of _), some (.of _), some (.of _)]) = _
      rw [SortVal.of_text hten, SortVal.of_text hnine, SortVal.of_text hx]
      rfl
    have hbare : bare_var_col (.Term (.Var "x") : Expr Empty Empty) mixed_rows.schema = some 0 :=
      rfl
    simp only [sort_columns, by_x, List.filter_cons, hbare, List.mapM_cons, List.mapM_nil, hslot]
    rfl
  have hcons : mixed_column.Consistent := by
    refine ⟨?_, ?_⟩
    · rintro ⟨x, hx, hnan⟩
      exfalso
      revert x
      decide
    · -- the text is the last one, and no number's text comes behind it
      intro x _ t ht y hy p q _ htext hq _ hty
      have hvals : ∀ v ∈ (["10", "9", "x"].map fun s => some (SortVal.mk _ s rfl)).filterMap id,
          v.num = none ∧ v.lex = "x" ∨ v.num.isSome = true ∧ compare "x" v.lex = .gt := by
        intro v hv
        simp only [List.map_cons, List.map_nil, List.filterMap_cons, id_eq, List.filterMap_nil,
          List.mem_cons, List.not_mem_nil, or_false] at hv
        rcases hv with rfl | rfl | rfl <;> decide
      obtain ⟨-, hlast⟩ := (hvals t ht).resolve_right fun h => by simp [htext] at h
      obtain ⟨-, hgt⟩ := (hvals y hy).resolve_left fun h => by simp [hq] at h
      rw [hlast, hgt] at hty
      cases hty
  obtain ⟨⟨htrans, order, rows, hrun, hrows, hperm, -⟩, -⟩ :=
    compute_order_by_sorted merge_sort no_ids no_functions mixed_rows by_x hcols
      (by simpa using hcons)
  exact ⟨htrans, order, rows, hrun, hrows, hperm⟩

/-- A column of two numbers and of a text between their texts. -/
def mixed_texts : SortCol :=
  .classify (["\"10\"", "\"5x\"", "\"9\""].map fun s => some (.of (.Literal s)))

/-- In whatever order these rows are, some row is greater than a later one. -/
theorem mixed_texts_unsorted :
    ¬ ∃ order : List Nat, order.Perm (List.range 3) ∧
      order.Pairwise fun a b => compare_decorated [(mixed_texts, .Asc)] a b ≠ .gt := by
  have hcol : mixed_texts = .Mixed [some ⟨parse_trimmed "10", "10", rfl⟩,
      some ⟨parse_trimmed "5x", "5x", rfl⟩, some ⟨parse_trimmed "9", "9", rfl⟩] := by
    have hten : literal_value (.Literal "\"10\"") = "10" := by
      simp [literal_value, literal_lexical, text.unescape_ntriples, text.trim, text.is_whitespace,
        text.split_quoted, List.rdropWhile]
    have hfive : literal_value (.Literal "\"5x\"") = "5x" := by
      simp [literal_value, literal_lexical, text.unescape_ntriples, text.trim, text.is_whitespace,
        text.split_quoted, List.rdropWhile]
    have hnine : literal_value (.Literal "\"9\"") = "9" := by
      simp [literal_value, literal_lexical, text.unescape_ntriples, text.trim, text.is_whitespace,
        text.split_quoted, List.rdropWhile]
    unfold mixed_texts
    rw [List.map_cons, List.map_cons, List.map_cons, SortVal.of_text hten, SortVal.of_text hfive,
      SortVal.of_text hnine]
    rfl
  rintro ⟨order, hperm, hsorted⟩
  rw [hcol] at hsorted
  -- each place has to come before the next, and the last before the first
  obtain ⟨i, hi, hi0⟩ := List.getElem_of_mem (hperm.mem_iff.mpr (show 0 ∈ List.range 3 by decide))
  obtain ⟨j, hj, hj1⟩ := List.getElem_of_mem (hperm.mem_iff.mpr (show 1 ∈ List.range 3 by decide))
  obtain ⟨k, hk, hk2⟩ := List.getElem_of_mem (hperm.mem_iff.mpr (show 2 ∈ List.range 3 by decide))
  have hij := not_lt_of_gt_at hsorted hj hi (by rw [hj1, hi0]; decide)
  have hjk := not_lt_of_gt_at hsorted hk hj (by rw [hk2, hj1]; decide)
  have hki := not_lt_of_gt_at hsorted hi hk (by rw [hi0, hk2]; decide)
  have hne : i ≠ j := by
    rintro rfl
    rw [hi0] at hj1
    cases hj1
  omega

end horndb.sparql.exec
