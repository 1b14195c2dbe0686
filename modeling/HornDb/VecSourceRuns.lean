-- The triple source over its whole life: deltas and first requests of orderings in any order leave
-- every ordering as a fresh build of the resulting set has it, and the membership test agrees.
import HornDb.Lib.Splits
import HornDb.VecSource

open HornDb.Lib

namespace horndb.wcoj

/-! ## The membership test -/

/-- Whether bisection finds the value. -/
def binary_search (l : List TermId) (x : TermId) : Bool :=
  l[Gallop.bisect (fun i => decide (l.getD i 0 < x)) l.length 0 l.length]? == some x

theorem binary_search_iff {l : List TermId} (h : l.Pairwise (· ≤ ·)) {x : TermId} :
    binary_search l x = true ↔ x ∈ l := by
  have hfall : Falls (fun i => decide (l.getD i 0 < x)) 0 l.length := by
    intro i j _ hij hj hb
    rw [decide_eq_true_eq] at hb ⊢
    rcases Nat.eq_or_lt_of_le hij with rfl | hlt
    · exact hb
    · rw [List.getD_eq_getElem _ _ hj] at hb
      rw [List.getD_eq_getElem _ _ (by omega)]
      exact lt_of_le_of_lt (List.pairwise_iff_getElem.mp h i j _ hj hlt) hb
  have hsplit := bisect_splits l.length 0 l.length (Nat.zero_le _) (by omega) hfall
  unfold binary_search
  rw [beq_iff_eq]
  refine ⟨List.mem_of_getElem?, fun hx => ?_⟩
  obtain ⟨i, hi, hget⟩ := List.mem_iff_getElem.mp hx
  have hback : ¬ i < Gallop.bisect (fun i => decide (l.getD i 0 < x)) l.length 0 l.length := by
    intro hlt
    have hbelow := of_decide_eq_true (hsplit.front i (Nat.zero_le i) hlt)
    rw [List.getD_eq_getElem _ _ hi, hget] at hbelow
    exact lt_irrefl x hbelow
  generalize Gallop.bisect (fun i => decide (l.getD i 0 < x)) l.length 0 l.length = k
    at hsplit hback
  -- the split is at or in front of the value, and nothing from it on is less
  have hk : k < l.length := by omega
  have hnot := of_decide_eq_false (hsplit.back k (le_refl k) hk)
  rw [List.getD_eq_getElem _ _ hk] at hnot
  rw [List.getElem?_eq_getElem hk, Option.some.injEq]
  rcases Nat.eq_or_lt_of_le (not_lt.mp hback) with rfl | hlt
  · exact hget
  · have hle := List.pairwise_iff_getElem.mp h k i hk hi hlt
    rw [hget] at hle
    exact le_antisymm hle (not_lt.mp hnot)

section Narrow

variable {l : List Row} {lo hi : Nat} (key : Row → TermId)

theorem slice_map : slice (l.map key) lo hi = (slice l lo hi).map key := by
  unfold slice
  rw [List.map_drop, List.map_take]

/-- The two partition points of a key in a segment in order cut out its rows. -/
theorem slice_key (hsorted : (slice l lo hi).Pairwise fun a b => key a ≤ key b) (hle : lo ≤ hi)
    (hhi : hi ≤ l.length) (k : TermId) {a b : Nat}
    (ha : a = lo + partition_point (· < k) (slice (l.map key) lo hi))
    (hb : b = a + partition_point (· ≤ k) (slice (l.map key) a hi)) :
    slice l a b = (slice l lo hi).filter (fun r => key r = k) ∧ a ≤ b ∧ b ≤ hi := by
  have hdrop : slice l a hi = (slice l lo hi).dropWhile fun r => key r < k := by
    have hpoint := drop_partition_point (fun r => decide (key r < k)) (slice l lo hi)
    rw [← hpoint, ha, slice_map, partition_point_map]
    unfold slice
    rw [List.drop_drop]
    rfl
  have htake : (slice l a hi).takeWhile (fun r => key r ≤ k) =
      (slice l lo hi).filter fun r => key r = k := by
    rw [hdrop]
    exact takeWhile_le_dropWhile hsorted k
  have hlen : partition_point (· ≤ k) (slice (l.map key) a hi) ≤ (slice l a hi).length := by
    rw [slice_map, partition_point_map]
    exact (List.takeWhile_prefix _).length_le
  have hahi : a ≤ hi := by
    have hfront : partition_point (· < k) (slice (l.map key) lo hi) ≤ (slice l lo hi).length := by
      rw [slice_map, partition_point_map]
      exact (List.takeWhile_prefix _).length_le
    rw [length_slice hhi] at hfront
    omega
  rw [length_slice hhi] at hlen
  refine ⟨?_, by omega, by omega⟩
  rw [← htake, ← take_partition_point]
  have hpoint : partition_point (fun r => decide (key r ≤ k)) (slice l a hi) = b - a := by
    rw [hb, Nat.add_sub_cancel_left, slice_map, partition_point_map]
    rfl
  rw [hpoint]
  unfold slice
  rw [List.take_drop, List.take_take, Nat.add_sub_cancel' (by omega), Nat.min_eq_left (by omega)]

end Narrow

namespace VecTripleSource

/-- Narrow to the rows of the predicate, then to those of the subject, and look for the object. -/
def contains (src : VecTripleSource) (t : Triple) : Bool :=
  let rows := src.anchor.rows
  let p_col := rows.map Row.level0
  let s_col := rows.map Row.level1
  let o_col := rows.map Row.level2
  let p_lo := partition_point (· < t.p) p_col
  let p_hi := p_lo + partition_point (· ≤ t.p) (p_col.drop p_lo)
  let s_lo := p_lo + partition_point (· < t.s) (slice s_col p_lo p_hi)
  let s_hi := s_lo + partition_point (· ≤ t.s) (slice s_col s_lo p_hi)
  binary_search (slice o_col s_lo s_hi) t.o

/-- Rows of one outermost value stand in the order of the next levels. -/
theorem tail_lt (cols : TripleColumns) (p : TermId) :
    (cols.rows.filter fun r => r.level0 = p).Pairwise fun a b => (ofLex a).2 < (ofLex b).2 := by
  have hlevel : ∀ r ∈ cols.rows.filter fun r => r.level0 = p, r.level0 = p := by
    intro r hr
    exact of_decide_eq_true (List.mem_filter.mp hr).2
  refine (cols.sorted.filter _).imp_of_mem fun {a b} ha hb hlt => ?_
  rcases Row.lt_iff.mp hlt with h | h
  · rw [hlevel a ha, hlevel b hb] at h
    exact absurd h (lt_irrefl p)
  · exact h.2

theorem contains_iff (src : VecTripleSource) (t : Triple) :
    src.contains t = true ↔ t ∈ src.triples := by
  have hrows : ∀ r : Row, r ∈ src.anchor.rows ↔ ANCHOR_ORDERING.unpermute r ∈ src.triples :=
    src.anchor_holds.mem_iff
  unfold contains
  dsimp only
  generalize hp_lo : partition_point (· < t.p) (src.anchor.rows.map Row.level0) = p_lo
  generalize hp_hi : p_lo +
    partition_point (· ≤ t.p) ((src.anchor.rows.map Row.level0).drop p_lo) = p_hi
  generalize hs_lo : p_lo +
    partition_point (· < t.s) (slice (src.anchor.rows.map Row.level1) p_lo p_hi) = s_lo
  generalize hs_hi : s_lo +
    partition_point (· ≤ t.s) (slice (src.anchor.rows.map Row.level1) s_lo p_hi) = s_hi
  -- the rows of the predicate
  have hall : slice src.anchor.rows 0 src.anchor.rows.length = src.anchor.rows := by
    rw [slice_length, List.drop_zero]
  obtain ⟨hpred, hple, hphi⟩ := slice_key Row.level0 (l := src.anchor.rows)
    (by rw [hall]; exact src.anchor.sorted.imp Row.level0_le) (Nat.zero_le _) (le_refl _) t.p
    (a := p_lo) (b := p_hi)
    (by rw [← hp_lo, slice_map, hall, Nat.zero_add])
    (by rw [← hp_hi, ← slice_length, List.length_map])
  rw [hall] at hpred
  -- among them the rows of the subject
  have htail := tail_lt src.anchor t.p
  obtain ⟨hsubj, _, _⟩ := slice_key Row.level1 (l := src.anchor.rows)
    (by rw [hpred]; exact htail.imp fun h => (Prod.Lex.lt_iff.mp h).elim le_of_lt fun h => h.1.le)
    hple hphi t.s (a := s_lo) (b := s_hi) hs_lo.symm hs_hi.symm
  have hobjs : ((slice src.anchor.rows s_lo s_hi).map Row.level2).Pairwise (· ≤ ·) := by
    rw [List.pairwise_map, hsubj, hpred]
    refine (htail.filter _).imp_of_mem fun {a b} ha hb hlt => ?_
    have ha := of_decide_eq_true (List.mem_filter.mp ha).2
    have hb := of_decide_eq_true (List.mem_filter.mp hb).2
    rcases Prod.Lex.lt_iff.mp hlt with h | h
    · exact absurd (ha.trans hb.symm) (ne_of_lt h)
    · exact le_of_lt h.2
  rw [slice_map, binary_search_iff hobjs, hsubj, hpred, List.mem_map]
  constructor
  · rintro ⟨r, hr, ho⟩
    simp only [List.mem_filter, decide_eq_true_eq] at hr
    obtain ⟨⟨hr, hp⟩, hs⟩ := hr
    have ht := (hrows r).mp hr
    rwa [show ANCHOR_ORDERING.unpermute r = t by
      obtain ⟨s, p, o⟩ := t
      cases hp
      cases hs
      cases ho
      rfl] at ht
  · intro ht
    refine ⟨t.by_ordering ANCHOR_ORDERING, ?_, rfl⟩
    simp only [List.mem_filter, decide_eq_true_eq]
    exact ⟨⟨(src.anchor_holds t).mpr ht, rfl⟩, rfl⟩

/-! ## Runs -/

inductive Call where
  | request (ord : Ordering)
  | apply_delta (dels adds : List Triple)
deriving DecidableEq, Repr

def call (src : VecTripleSource) : Call → VecTripleSource
  | .request ord => src.request ord
  | .apply_delta dels adds => src.apply_delta dels adds

/-- The set that a call leaves. -/
def folded (T : Finset Triple) : Call → Finset Triple
  | .request _ => T
  | .apply_delta dels adds => (T \ dels.toFinset) ∪ adds.toFinset

theorem call_triples (src : VecTripleSource) (c : Call) :
    (src.call c).triples = folded src.triples c := by
  cases c with
  | request ord => exact src.request_triples ord
  | apply_delta dels adds => exact src.apply_delta_triples dels adds

theorem run_triples (src : VecTripleSource) (calls : List Call) :
    (calls.foldl call src).triples = calls.foldl folded src.triples := by
  induction calls generalizing src with
  | nil => rfl
  | cons c calls ih => rw [List.foldl_cons, ih, call_triples, List.foldl_cons]

/-- Columns in order that hold the same triples are the same columns. -/
theorem columns_eq_of_holds {cols cols' : TripleColumns} {ord : Ordering} {T : Finset Triple}
    (h : cols.Holds ord T) (h' : cols'.Holds ord T) : cols = cols' := by
  have hrows : cols.rows = cols'.rows := by
    refine List.Pairwise.eq_of_mem_iff cols.sorted cols'.sorted fun r => ?_
    rw [h.mem_iff, h'.mem_iff]
  cases cols
  cases cols'
  cases hrows
  rfl

/-- After deltas and requests in any order, every ordering is that of a source built afresh from
the triples that are left, and a triple is found when it is one of them. -/
theorem run_columns_fresh (ts : List Triple) (calls : List Call) (fresh : List Triple)
    (hfresh : fresh.toFinset = calls.foldl folded ts.toFinset) :
    (∀ ord, (calls.foldl call (from_triples ts)).columns ord = (from_triples fresh).columns ord) ∧
      ∀ t, (calls.foldl call (from_triples ts)).contains t = true ↔
        t ∈ calls.foldl folded ts.toFinset := by
  have htriples := run_triples (from_triples ts) calls
  rw [from_triples_triples] at htriples
  refine ⟨fun ord => ?_, fun t => ?_⟩
  · refine columns_eq_of_holds (columns_holds _ ord) ?_
    rw [htriples, ← hfresh, ← from_triples_triples]
    exact columns_holds _ ord
  · rw [contains_iff, htriples]

theorem run_columns_fresh_swap :
    let ts : List Triple := [⟨1, 2, 3⟩, ⟨7, 2, 1⟩]
    let calls : List Call := [.request .Pos, .apply_delta [⟨1, 2, 3⟩, ⟨9, 9, 9⟩] [⟨4, 2, 5⟩],
      .request .Osp, .apply_delta [⟨4, 2, 5⟩] [⟨4, 2, 5⟩]]
    (∀ ord, (calls.foldl call (from_triples ts)).columns ord =
        (from_triples [⟨4, 2, 5⟩, ⟨7, 2, 1⟩]).columns ord) ∧
      ∀ t, (calls.foldl call (from_triples ts)).contains t = true ↔
        t ∈ calls.foldl folded ts.toFinset :=
  run_columns_fresh _ _ _ (by decide)

end VecTripleSource

end horndb.wcoj
