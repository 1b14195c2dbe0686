-- Square Boolean matrices and the closure of one: the paths are made longer by a product until a
-- turn finds none that is new. The matrix kernel is taken for exact, by the entries it sets.
import HornDb.Lib.Reach

open Relation HornDb.Lib.Reach

namespace horndb.closure

/-- The operations of the matrix kernel. The ones on two matrices are for two of one size. -/
structure GraphBLAS where
  BoolMatrix : Type
  nrows : BoolMatrix → Nat
  nvals : BoolMatrix → Nat
  from_edges : Nat → List (Nat × Nat) → BoolMatrix
  extract_edges : BoolMatrix → List (Nat × Nat)
  mxm_lor_land : BoolMatrix → BoolMatrix → BoolMatrix
  or_assign : BoolMatrix → BoolMatrix → BoolMatrix
  nodup : ∀ m, (extract_edges m).Nodup
  in_range : ∀ m, ∀ e ∈ extract_edges m, e.1 < nrows m ∧ e.2 < nrows m
  nvals_eq : ∀ m, nvals m = (extract_edges m).length
  nrows_from : ∀ n edges, nrows (from_edges n edges) = n
  nrows_mxm : ∀ a b, nrows a = nrows b → nrows (mxm_lor_land a b) = nrows a
  nrows_or : ∀ a b, nrows a = nrows b → nrows (or_assign a b) = nrows a
  extract_from : ∀ n edges, (∀ e ∈ edges, e.1 < n ∧ e.2 < n) →
    ∀ e, e ∈ extract_edges (from_edges n edges) ↔ e ∈ edges
  extract_mxm : ∀ a b, nrows a = nrows b → ∀ i j, (i, j) ∈ extract_edges (mxm_lor_land a b) ↔
    ∃ k, (i, k) ∈ extract_edges a ∧ (k, j) ∈ extract_edges b
  extract_or : ∀ a b, nrows a = nrows b →
    ∀ e, e ∈ extract_edges (or_assign a b) ↔ e ∈ extract_edges a ∨ e ∈ extract_edges b

namespace GraphBLAS

variable (grb : GraphBLAS)

def new (n : Nat) : grb.BoolMatrix := grb.from_edges n []

/-- The loop of the closure, on a budget of turns; nothing when the turns run out. -/
def extend_paths (m : grb.BoolMatrix) :
    Nat → grb.BoolMatrix → grb.BoolMatrix → Option grb.BoolMatrix
  | 0, _, _ => none
  | turns + 1, reach, frontier =>
    let next_frontier := grb.mxm_lor_land frontier m
    if grb.nvals next_frontier = 0 then some reach
    else
      let reach' := grb.or_assign reach next_frontier
      if grb.nvals reach' = grb.nvals reach then some reach'
      else extend_paths m turns reach' next_frontier

/-- The strict closure. The accumulator and the frontier start as copies of the matrix. -/
def transitive_closure (turns : Nat) (m : grb.BoolMatrix) : Option grb.BoolMatrix :=
  if grb.nvals m = 0 then some (grb.new (grb.nrows m))
  else
    let n := grb.nrows m
    let edges := grb.extract_edges m
    grb.extend_paths m turns (grb.from_edges n edges) (grb.from_edges n edges)

def identity_like (m : grb.BoolMatrix) : grb.BoolMatrix :=
  grb.from_edges (grb.nrows m) ((List.range (grb.nrows m)).map fun i => (i, i))

/-- The closure with the whole diagonal. -/
def reflexive_transitive_closure (turns : Nat) (m : grb.BoolMatrix) : Option grb.BoolMatrix := do
  let closure ← grb.transitive_closure turns m
  return grb.or_assign closure (grb.identity_like m)

/-! ## Entries -/

/-- An entry of a matrix is set. -/
def Entry (m : grb.BoolMatrix) (i j : Nat) : Prop := (i, j) ∈ grb.extract_edges m

variable {grb} {m reach frontier : grb.BoolMatrix}

theorem entry_new (n i j : Nat) : ¬grb.Entry (grb.new n) i j := by
  intro h
  unfold Entry new at h
  rw [grb.extract_from n [] (by simp)] at h
  cases h

theorem entry_copy (i j : Nat) :
    grb.Entry (grb.from_edges (grb.nrows m) (grb.extract_edges m)) i j ↔ grb.Entry m i j :=
  grb.extract_from _ _ (grb.in_range m) (i, j)

theorem nvals_zero (h : grb.nvals m = 0) (i j : Nat) : ¬grb.Entry m i j := by
  intro hentry
  rw [grb.nvals_eq] at h
  unfold Entry at hentry
  rw [List.length_eq_zero_iff.mp h] at hentry
  cases hentry

theorem nvals_le (m : grb.BoolMatrix) : grb.nvals m ≤ grb.nrows m * grb.nrows m := by
  have hsub : grb.extract_edges m ⊆
      List.range (grb.nrows m) ×ˢ List.range (grb.nrows m) := by
    rintro ⟨i, j⟩ hentry
    have hrange := grb.in_range m (i, j) hentry
    simp [hrange.1, hrange.2]
  have hle := (List.Nodup.subperm (grb.nodup m) hsub).length_le
  rw [List.length_product, List.length_range] at hle
  rw [grb.nvals_eq]
  exact hle

/-- An element-wise or that adds no entry finds none that is new. -/
theorem nvals_or_assign {a b : grb.BoolMatrix} (hsize : grb.nrows a = grb.nrows b) :
    grb.nvals a ≤ grb.nvals (grb.or_assign a b) ∧
      (grb.nvals (grb.or_assign a b) = grb.nvals a → ∀ i j, grb.Entry b i j → grb.Entry a i j) := by
  have hsub : grb.extract_edges a ⊆ grb.extract_edges (grb.or_assign a b) :=
    fun e he => (grb.extract_or a b hsize e).mpr (Or.inl he)
  have hsubperm := List.Nodup.subperm (grb.nodup a) hsub
  rw [grb.nvals_eq, grb.nvals_eq]
  refine ⟨hsubperm.length_le, fun hsame i j hb => ?_⟩
  have hperm := hsubperm.perm_of_length_le (Nat.le_of_eq hsame)
  exact hperm.mem_iff.mpr ((grb.extract_or a b hsize (i, j)).mpr (Or.inr hb))

/-! ## The loop -/

/-- What the turns keep: the paths found so far, and those of the last turn, which any longer
path goes on from. -/
structure Extends (m reach frontier : grb.BoolMatrix) : Prop where
  reach_size : grb.nrows reach = grb.nrows m
  frontier_size : grb.nrows frontier = grb.nrows m
  edge : ∀ i j, grb.Entry m i j → grb.Entry reach i j
  found : ∀ i j, grb.Entry reach i j → TransGen (grb.Entry m) i j
  last : ∀ i j, grb.Entry frontier i j → TransGen (grb.Entry m) i j
  step : ∀ i j k, grb.Entry reach i j → grb.Entry m j k →
    grb.Entry reach i k ∨ ∃ l, grb.Entry frontier i l ∧ grb.Entry m l k

theorem Extends.start (m : grb.BoolMatrix) :
    Extends m (grb.from_edges (grb.nrows m) (grb.extract_edges m))
      (grb.from_edges (grb.nrows m) (grb.extract_edges m)) where
  reach_size := grb.nrows_from _ _
  frontier_size := grb.nrows_from _ _
  edge i j h := (entry_copy i j).mpr h
  found i j h := .single ((entry_copy i j).mp h)
  last i j h := .single ((entry_copy i j).mp h)
  step _ j _ hij hjk := Or.inr ⟨j, hij, hjk⟩

theorem Extends.next_size (h : Extends m reach frontier) :
    grb.nrows (grb.mxm_lor_land frontier m) = grb.nrows m :=
  (grb.nrows_mxm _ _ h.frontier_size).trans h.frontier_size

theorem Extends.next (h : Extends m reach frontier) :
    Extends m (grb.or_assign reach (grb.mxm_lor_land frontier m)) (grb.mxm_lor_land frontier m) := by
  have hsizes := h.reach_size.trans h.next_size.symm
  have hnext (i j : Nat) : grb.Entry (grb.mxm_lor_land frontier m) i j ↔
      ∃ l, grb.Entry frontier i l ∧ grb.Entry m l j :=
    grb.extract_mxm frontier m h.frontier_size i j
  have hor (i j : Nat) : grb.Entry (grb.or_assign reach (grb.mxm_lor_land frontier m)) i j ↔
      grb.Entry reach i j ∨ grb.Entry (grb.mxm_lor_land frontier m) i j :=
    grb.extract_or reach (grb.mxm_lor_land frontier m) hsizes (i, j)
  have hpath (i j : Nat) (hentry : grb.Entry (grb.mxm_lor_land frontier m) i j) :
      TransGen (grb.Entry m) i j := by
    obtain ⟨l, hl, hlj⟩ := (hnext i j).mp hentry
    exact (h.last i l hl).tail hlj
  refine ⟨(grb.nrows_or _ _ hsizes).trans h.reach_size, h.next_size, ?_, ?_, hpath, ?_⟩
  · exact fun i j hm => (hor i j).mpr (Or.inl (h.edge i j hm))
  · exact fun i j hentry => ((hor i j).mp hentry).elim (h.found i j) (hpath i j)
  · intro i j k hentry hm
    rcases (hor i j).mp hentry with hreach | hlast
    · rcases h.step i j k hreach hm with hreach | hlast
      · exact Or.inl ((hor i k).mpr (Or.inl hreach))
      · exact Or.inl ((hor i k).mpr (Or.inr ((hnext i k).mpr hlast)))
    · exact Or.inr ⟨j, hlast, hm⟩

/-- Where a turn adds nothing, what was found is the closure. -/
theorem Extends.closed (h : Extends m reach frontier)
    (hnone : ∀ i j, grb.Entry (grb.mxm_lor_land frontier m) i j → grb.Entry reach i j) (i j : Nat) :
    grb.Entry reach i j ↔ TransGen (grb.Entry m) i j := by
  refine closure_of_steps h.edge h.found (fun x y z hxy hyz => ?_) i j
  rcases h.step x y z hxy hyz with hreach | hlast
  · exact hreach
  · exact hnone x z ((grb.extract_mxm frontier m h.frontier_size x z).mpr hlast)

/-- A matrix of the size of `m` that has the entries of its strict closure. -/
structure Closure (m r : grb.BoolMatrix) : Prop where
  size : grb.nrows r = grb.nrows m
  entry : ∀ i j, grb.Entry r i j ↔ TransGen (grb.Entry m) i j

/-- A turn that goes on adds an entry, so the turns suffice when they and the entries found come
up to more than the matrix has room for. -/
theorem extend_paths_closure (turns : Nat) (h : Extends m reach frontier)
    (hturns : grb.nrows m * grb.nrows m < grb.nvals reach + turns) :
    ∃ r, grb.extend_paths m turns reach frontier = some r ∧ Closure m r := by
  induction turns generalizing reach frontier with
  | zero =>
    have hle := nvals_le reach
    rw [h.reach_size] at hle
    omega
  | succ turns ih =>
    have hsizes := h.reach_size.trans h.next_size.symm
    rw [extend_paths]
    split
    · rename_i hzero
      refine ⟨reach, rfl, h.reach_size, ?_⟩
      exact h.closed fun x y hentry => absurd hentry (nvals_zero hzero x y)
    · dsimp only
      split
      · rename_i hsame
        have hnone := (nvals_or_assign hsizes).2 hsame
        refine ⟨_, rfl, h.next.reach_size, fun i j => ?_⟩
        rw [← h.closed hnone i j]
        exact (grb.extract_or reach _ hsizes (i, j)).trans (or_iff_left_of_imp (hnone i j))
      · rename_i hgrown
        have hle := (nvals_or_assign hsizes).1
        exact ih h.next (by omega)

/-- With a turn for each entry the loop ends, and it ends with the strict closure. -/
theorem transitive_closure_spec (m : grb.BoolMatrix) (turns : Nat)
    (hturns : grb.nrows m * grb.nrows m < turns) :
    ∃ r, grb.transitive_closure turns m = some r ∧ Closure m r := by
  unfold transitive_closure
  split
  · rename_i hzero
    refine ⟨_, rfl, grb.nrows_from _ _, fun i j => iff_of_false (entry_new _ i j) fun h => ?_⟩
    obtain ⟨u, hu, -⟩ := TransGen.head'_iff.mp h
    exact nvals_zero hzero _ _ hu
  · exact extend_paths_closure turns (.start m) (by omega)

theorem reflexive_transitive_closure_spec (m : grb.BoolMatrix) (turns : Nat)
    (hturns : grb.nrows m * grb.nrows m < turns) :
    ∃ r, grb.reflexive_transitive_closure turns m = some r ∧
      ∀ i j, grb.Entry r i j ↔ TransGen (grb.Entry m) i j ∨ (i = j ∧ i < grb.nrows m) := by
  obtain ⟨c, hc, hclosure⟩ := transitive_closure_spec m turns hturns
  have hsizes : grb.nrows c = grb.nrows (grb.identity_like m) :=
    hclosure.size.trans (grb.nrows_from _ _).symm
  refine ⟨grb.or_assign c (grb.identity_like m), ?_, fun i j => ?_⟩
  · unfold reflexive_transitive_closure
    rw [hc]
    rfl
  · refine (grb.extract_or _ _ hsizes (i, j)).trans (or_congr (hclosure.entry i j) ?_)
    refine (grb.extract_from _ _ (by simp) (i, j)).trans ?_
    simp only [List.mem_map, List.mem_range, Prod.mk.injEq]
    constructor
    · rintro ⟨k, hk, rfl, rfl⟩
      exact ⟨rfl, hk⟩
    · rintro ⟨rfl, hi⟩
      exact ⟨i, hi, rfl, rfl⟩

end GraphBLAS

/-! ## A kernel over finite sets -/

/-- The entries of a square matrix as a set of pairs. -/
structure PairMatrix where
  size : Nat
  entries : Finset (Fin size × Fin size)

namespace PairMatrix

/-- The entries row by row. -/
def edges (m : PairMatrix) : List (Nat × Nat) :=
  ((List.finRange m.size ×ˢ List.finRange m.size).filter (· ∈ m.entries)).map fun e =>
    (e.1.val, e.2.val)

/-- The matrix of `n` rows whose entries satisfy `P`. -/
def ofPred (n : Nat) (P : Nat → Nat → Bool) : PairMatrix where
  size := n
  entries := {e | P e.1.val e.2.val}

theorem mem_edges {m : PairMatrix} {i j : Nat} :
    (i, j) ∈ m.edges ↔ ∃ (hi : i < m.size) (hj : j < m.size), (⟨i, hi⟩, ⟨j, hj⟩) ∈ m.entries := by
  unfold edges
  simp only [List.mem_map, List.mem_filter, decide_eq_true_eq, Prod.exists, Prod.mk.injEq]
  constructor
  · rintro ⟨a, b, ⟨-, h⟩, rfl, rfl⟩
    exact ⟨a.isLt, b.isLt, h⟩
  · rintro ⟨hi, hj, h⟩
    exact ⟨⟨i, hi⟩, ⟨j, hj⟩, ⟨by simp, h⟩, rfl, rfl⟩

theorem mem_ofPred {n : Nat} {P : Nat → Nat → Bool} {i j : Nat} :
    (i, j) ∈ (ofPred n P).edges ↔ (i < n ∧ j < n) ∧ P i j = true := by
  rw [mem_edges]
  constructor
  · rintro ⟨hi, hj, h⟩
    exact ⟨⟨hi, hj⟩, (Finset.mem_filter.mp h).2⟩
  · rintro ⟨⟨hi, hj⟩, h⟩
    exact ⟨hi, hj, Finset.mem_filter.mpr ⟨Finset.mem_univ _, h⟩⟩

theorem edges_nodup (m : PairMatrix) : m.edges.Nodup := by
  unfold edges
  refine List.Nodup.map ?_ (List.Nodup.filter _ ?_)
  · rintro ⟨a, b⟩ ⟨c, d⟩ h
    obtain ⟨hac, hbd⟩ := Prod.mk.inj h
    exact Prod.ext (Fin.ext hac) (Fin.ext hbd)
  · exact (List.nodup_finRange _).product (List.nodup_finRange _)

theorem edges_lt (m : PairMatrix) : ∀ e ∈ m.edges, e.1 < m.size ∧ e.2 < m.size := by
  rintro ⟨i, j⟩ h
  obtain ⟨hi, hj, -⟩ := mem_edges.mp h
  exact ⟨hi, hj⟩

end PairMatrix

/-- The exact kernel over sets of pairs. -/
def GraphBLAS.ofPairs : GraphBLAS where
  BoolMatrix := PairMatrix
  nrows := PairMatrix.size
  nvals m := m.edges.length
  from_edges n edges := .ofPred n fun i j => (i, j) ∈ edges
  extract_edges := PairMatrix.edges
  mxm_lor_land a b := .ofPred a.size fun i j =>
    (List.range a.size).any fun k => (i, k) ∈ a.edges && (k, j) ∈ b.edges
  or_assign a b := .ofPred a.size fun i j => (i, j) ∈ a.edges || (i, j) ∈ b.edges
  nodup := PairMatrix.edges_nodup
  in_range := PairMatrix.edges_lt
  nvals_eq _ := rfl
  nrows_from _ _ := rfl
  nrows_mxm _ _ _ := rfl
  nrows_or _ _ _ := rfl
  extract_from n edges h e := by
    rw [PairMatrix.mem_ofPred, decide_eq_true_eq]
    exact and_iff_right_of_imp (h e)
  extract_mxm a b hsize i j := by
    rw [PairMatrix.mem_ofPred, List.any_eq_true]
    simp only [List.mem_range, Bool.and_eq_true, decide_eq_true_eq]
    constructor
    · rintro ⟨-, k, -, h⟩
      exact ⟨k, h⟩
    · rintro ⟨k, hik, hkj⟩
      have hi := a.edges_lt _ hik
      have hj := b.edges_lt _ hkj
      exact ⟨⟨hi.1, hsize ▸ hj.2⟩, k, hi.2, hik, hkj⟩
  extract_or a b hsize e := by
    rw [PairMatrix.mem_ofPred, Bool.or_eq_true, decide_eq_true_eq, decide_eq_true_eq]
    refine and_iff_right_of_imp ?_
    rintro (h | h)
    · exact a.edges_lt _ h
    · exact hsize ▸ b.edges_lt _ h

end horndb.closure
