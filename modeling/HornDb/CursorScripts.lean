-- The three trie cursors over one set of triples: any script of calls that keeps the contract
-- leaves them at the same keys, which are the least that the trie has left.
import HornDb.CompressedIter
import HornDb.MergedIter
import HornDb.VecIter

open HornDb.Lib

namespace horndb.wcoj

/-! ## The leaves of a set of triples -/

def Ordering.subject_major : Ordering → Bool
  | .Spo | .Sop | .Pso => true
  | .Pos | .Osp | .Ops => false

/-- The columns of a triple in a leaf. -/
def Triple.leaf_pair (ord : Ordering) (t : Triple) : TermId ×ₗ TermId :=
  if ord.subject_major then toLex (t.s, t.o) else toLex (t.o, t.s)

def leaf_columns (triples : List Triple) (ord : Ordering) : List MergedLeaf :=
  let preds := sort_dedup (triples.map (·.p))
  preds.map fun p =>
    let rows := sort_dedup ((triples.filter (·.p = p)).map (·.leaf_pair ord))
    ⟨p, rows.map fun r => (ofLex r).1, rows.map fun r => (ofLex r).2⟩

theorem place_leaf_pair (ord : Ordering) (t : Triple) :
    ord.place t.p (ofLex (t.leaf_pair ord)).1 (ofLex (t.leaf_pair ord)).2 = t.by_ordering ord := by
  cases ord <;> rfl

theorem place_lt (ord : Ordering) (key : TermId) {a b : TermId ×ₗ TermId} (h : a < b) :
    ord.place key (ofLex a).1 (ofLex a).2 < ord.place key (ofLex b).1 (ofLex b).2 := by
  have hcases := Prod.Lex.lt_iff.mp h
  unfold Ordering.place
  split
  · exact Prod.Lex.lt_iff.mpr (Or.inr ⟨rfl, h⟩)
  · refine Prod.Lex.lt_iff.mpr (hcases.imp_right fun ⟨heq, hlt⟩ => ⟨heq, ?_⟩)
    exact Prod.Lex.lt_iff.mpr (Or.inr ⟨rfl, hlt⟩)
  · refine Prod.Lex.lt_iff.mpr (hcases.imp_right fun ⟨heq, hlt⟩ => ⟨heq, ?_⟩)
    exact Prod.Lex.lt_iff.mpr (Or.inl hlt)

/-- A leaf of sorted pairs. -/
def MergedLeaf.of_pairs (key : TermId) (rows : List (TermId ×ₗ TermId)) : MergedLeaf :=
  ⟨key, rows.map fun r => (ofLex r).1, rows.map fun r => (ofLex r).2⟩

section Pairs

variable (ord : Ordering) (key : TermId) {rows : List (TermId ×ₗ TermId)}

theorem of_pairs_len : (MergedLeaf.of_pairs key rows).len = rows.length := List.length_map _

theorem of_pairs_row {j : Nat} (hj : j < rows.length) :
    (MergedLeaf.of_pairs key rows).row ord j =
      ord.place key (ofLex rows[j]).1 (ofLex rows[j]).2 := by
  have h0 : (rows.map fun r => (ofLex r).1).getD j 0 = (ofLex rows[j]).1 := by
    rw [List.getD_eq_getElem _ _ (by rwa [List.length_map]), List.getElem_map]
  have h1 : (rows.map fun r => (ofLex r).2).getD j 0 = (ofLex rows[j]).2 := by
    rw [List.getD_eq_getElem _ _ (by rwa [List.length_map]), List.getElem_map]
  unfold MergedLeaf.row MergedLeaf.of_pairs
  dsimp only
  rw [h0, h1]

theorem of_pairs_sorted (hrows : rows.Pairwise (· < ·)) :
    (MergedLeaf.of_pairs key rows).Sorted ord := by
  refine ⟨by simp [MergedLeaf.of_pairs], fun i j hij hj => ?_⟩
  rw [of_pairs_len] at hj
  rw [of_pairs_row ord key hj, of_pairs_row ord key (hij.trans hj)]
  exact place_lt ord key (List.pairwise_iff_getElem.mp hrows i j (hij.trans hj) hj hij)

end Pairs

/-- The number of predicates of the triples. -/
def num_predicates (triples : List Triple) : Nat := (triples.map (·.p)).toFinset.card

theorem length_leaf_columns (triples : List Triple) (ord : Ordering) :
    (leaf_columns triples ord).length = num_predicates triples := by
  unfold leaf_columns num_predicates
  rw [List.length_map, ← List.toFinset_card_of_nodup ((sort_dedup_strict _).imp ne_of_lt)]
  congr 1
  ext p
  simp

/-- The leaves of a set of triples hold them. -/
theorem leaf_columns_leaves (triples : List Triple) (ord : Ordering)
    (hfew : num_predicates triples < 2 ^ 32) :
    Leaves ord triples (leaf_columns triples ord) := by
  refine ⟨fun leaf hleaf => ?_, by rw [length_leaf_columns]; exact hfew, fun r => ?_⟩
  · obtain ⟨p, _, rfl⟩ := List.mem_map.mp hleaf
    exact of_pairs_sorted ord p (sort_dedup_strict _)
  · constructor
    · rintro ⟨leaf, hleaf, j, hj, rfl⟩
      obtain ⟨p, _, rfl⟩ := List.mem_map.mp hleaf
      have hlen : j < (sort_dedup ((triples.filter (·.p = p)).map (·.leaf_pair ord))).length := by
        rw [← of_pairs_len p]
        exact hj
      have hmem := mem_sort_dedup.mp (List.getElem_mem hlen)
      obtain ⟨t, ht, hpair⟩ := List.mem_map.mp hmem
      obtain ⟨ht, hp⟩ := List.mem_filter.mp ht
      refine ⟨t, ht, ?_⟩
      rw [← place_leaf_pair, hpair, of_decide_eq_true hp]
      exact (of_pairs_row ord p hlen).symm
    · rintro ⟨t, ht, rfl⟩
      have hmem : t.leaf_pair ord ∈
          sort_dedup ((triples.filter (·.p = t.p)).map (·.leaf_pair ord)) := by
        rw [mem_sort_dedup, List.mem_map]
        exact ⟨t, List.mem_filter.mpr ⟨ht, decide_eq_true rfl⟩, rfl⟩
      obtain ⟨j, hj, heq⟩ := List.mem_iff_getElem.mp hmem
      refine ⟨_, List.mem_map.mpr ⟨t.p, mem_sort_dedup.mpr (List.mem_map_of_mem ht), rfl⟩, j, ?_, ?_⟩
      · exact (of_pairs_len t.p).symm ▸ hj
      · refine (of_pairs_row ord t.p hj).trans ?_
        rw [heq, place_leaf_pair]

/-- A cursor drops the empty leaves and sorts the others, which leaves their rows. -/
theorem Leaves.new {ord : Ordering} {triples : List Triple} {leaves : List MergedLeaf}
    (h : Leaves ord triples leaves) : Leaves ord triples (MergedIter.new ord leaves).leaves := by
  have hmem : ∀ leaf, leaf ∈ (MergedIter.new ord leaves).leaves ↔ leaf ∈ leaves ∧ 0 < leaf.len := by
    intro leaf
    unfold MergedIter.new
    dsimp only
    rw [List.mem_mergeSort, List.mem_filter, decide_eq_true_eq]
  refine ⟨fun leaf hleaf => h.sorted leaf ((hmem leaf).mp hleaf).1, ?_, fun r => ?_⟩
  · refine lt_of_le_of_lt ?_ h.few
    unfold MergedIter.new
    dsimp only
    rw [List.length_mergeSort]
    exact List.length_filter_le _ _
  · rw [← h.rows]
    constructor
    · rintro ⟨leaf, hleaf, hrow⟩
      exact ⟨leaf, ((hmem leaf).mp hleaf).1, hrow⟩
    · rintro ⟨leaf, hleaf, j, hj, hrow⟩
      exact ⟨leaf, (hmem leaf).mpr ⟨hleaf, Nat.zero_lt_of_lt hj⟩, j, hj, hrow⟩

theorem MergedIter.follows_new {ord : Ordering} {triples : List Triple} {leaves : List MergedLeaf}
    (h : Leaves ord triples leaves) : MergedIter.Follows ord (.new ord leaves) .start := by
  refine ⟨rfl, fun d => ?_⟩
  by_cases hd : d = 0
  · subst hd
    exact MergedIter.root_depth h.new
  · unfold TrieCursor.start MergedIter.new
    dsimp only
    rw [if_neg hd, if_neg hd, if_neg hd]
    rfl

/-! ## Scripts -/

/-- The ids of a triple are below the greatest word. -/
def Triple.Bounded (t : Triple) : Prop := t.s < 2 ^ 64 - 1 ∧ t.p < 2 ^ 64 - 1 ∧ t.o < 2 ^ 64 - 1

theorem key_by_ordering_lt {t : Triple} (h : t.Bounded) (ord : Ordering) (d : Fin 3) :
    (t.by_ordering ord).key d < 2 ^ 64 := by
  obtain ⟨hs, hp, ho⟩ := h
  have hle : 2 ^ 64 - 1 ≤ 2 ^ 64 := Nat.sub_le _ _
  have hs := lt_of_lt_of_le hs hle
  have hp := lt_of_lt_of_le hp hle
  have ho := lt_of_lt_of_le ho hle
  match d with
  | 0 => cases ord <;> assumption
  | 1 => cases ord <;> assumption
  | 2 => cases ord <;> assumption

theorem rows_bounded {cols : TripleColumns} {ord : Ordering} {triples : List Triple}
    (hcols : cols.Holds ord triples.toFinset) (hids : ∀ t ∈ triples, t.Bounded) :
    ∀ r ∈ cols.rows, ∀ d, r.key d < 2 ^ 64 := by
  intro r hr d
  have ht := List.mem_toFinset.mp ((hcols.mem_iff r).mp hr)
  have hlt := key_by_ordering_lt (hids _ ht) ord d
  rwa [by_ordering_unpermute] at hlt

/-- Where a depth of a cursor stands: at the least key that its level has left, and with the keys
left as its active run. A closed depth has no key. -/
def StandsAt (ord : Ordering) (triples : List Triple) (d : Fin 3) (ol : Option Level)
    (peek : Option TermId) (active_run : Option (List TermId)) : Prop :=
  (∀ k, peek = some k ↔ ∃ l, ol = some l ∧ IsLeast (l.left ord triples d) k) ∧
    ∀ run, active_run = some run → ∃ l, ol = some l ∧ run.Pairwise (· < ·) ∧
      ∀ k, k ∈ run ↔ k ∈ l.left ord triples d

/-- Any script of calls that keeps the contract runs on all three cursors, and leaves them at the
same keys: the least at or after the greatest target sought since a level was opened or rewound. -/
theorem cursors_agree (kernel : simd.Kernel) (ord : Ordering) (triples : List Triple)
    (script : List Call) (hids : ∀ t ∈ triples, t.Bounded)
    (hcalls : ∀ call ∈ script, call.Bounded) (hfew : num_predicates triples < 2 ^ 32)
    {c : TrieCursor} (hrun : TrieCursor.run ord triples script = some c) :
    ∃ v m p,
      VecIter.run kernel ((VecTripleSource.from_triples triples).columns ord) script = some v ∧
      MergedIter.run ord (leaf_columns triples ord) script = some m ∧
      CompressedIter.run kernel ((CompressedTripleSource.from_triples triples).sorted ord) script =
        some p ∧
      ∀ d, m.peek d = v.peek d ∧ p.peek d = v.peek d ∧
        StandsAt ord triples d (c d) (v.peek d) (v.active_run d).1 := by
  have hvec : ((VecTripleSource.from_triples triples).columns ord).Holds ord triples.toFinset := by
    have h := (VecTripleSource.from_triples triples).columns_holds ord
    rwa [VecTripleSource.from_triples_triples] at h
  have hbuilt := TripleColumns.build_holds triples ord
  have hleaves := leaf_columns_leaves triples ord hfew
  obtain ⟨v, hv, hvfollows⟩ := TrieCursor.run_follows
    (fun it c call c' hcall h hc => h.step hvec (rows_bounded hvec hids) kernel hcall hc) script
    hcalls (VecIter.follows_new _) hrun
  obtain ⟨p, hp, hpfollows⟩ := TrieCursor.run_follows
    (fun it c call c' hcall h hc => h.step hbuilt kernel hcall hc) script hcalls
    (CompressedIter.follows_new _ (rows_bounded hbuilt hids)) hrun
  obtain ⟨m, hm, hmleaves, hmfollows⟩ := TrieCursor.run_follows
    (R := fun it c => it.leaves = (MergedIter.new ord (leaf_columns triples ord)).leaves ∧
      MergedIter.Follows ord it c) (fun it c call c' _ h hc => by
      obtain ⟨it', h1, h2, h3⟩ := h.2.step (h.1 ▸ hleaves.new) hc
      exact ⟨it', h1, h2.trans h.1, h3⟩) script hcalls
    ⟨rfl, MergedIter.follows_new hleaves⟩ hrun
  refine ⟨v, m, p, hv, hm, hp, fun d => ?_⟩
  have hvpeek := hvfollows.peek hvec d
  rw [hmfollows.peek (hmleaves ▸ hleaves.new) d, hpfollows.peek hbuilt d, hvpeek]
  refine ⟨rfl, rfl, fun k => ?_, (hvfollows.active_run hvec d).2⟩
  unfold TrieCursor.peek
  rw [Option.bind_eq_some_iff]
  exact exists_congr fun l => and_congr_right fun _ => Level.peek_eq_some

/-- Down to the objects of a subject, and past the first of them. -/
theorem three_cursors_descend :
    ∃ c, TrieCursor.run .Spo [⟨5, 1, 2⟩, ⟨5, 1, 9⟩, ⟨10, 1, 1⟩]
      [.seek 0 3, .open_level 1, .open_level 2, .seek 2 3] = some c ∧
      ∃ v m p,
        VecIter.run .avx2 ((VecTripleSource.from_triples
          [⟨5, 1, 2⟩, ⟨5, 1, 9⟩, ⟨10, 1, 1⟩]).columns .Spo)
          [.seek 0 3, .open_level 1, .open_level 2, .seek 2 3] = some v ∧
        MergedIter.run .Spo (leaf_columns [⟨5, 1, 2⟩, ⟨5, 1, 9⟩, ⟨10, 1, 1⟩] .Spo)
          [.seek 0 3, .open_level 1, .open_level 2, .seek 2 3] = some m ∧
        CompressedIter.run .avx2 ((CompressedTripleSource.from_triples
          [⟨5, 1, 2⟩, ⟨5, 1, 9⟩, ⟨10, 1, 1⟩]).sorted .Spo)
          [.seek 0 3, .open_level 1, .open_level 2, .seek 2 3] = some p ∧
        ∀ d, m.peek d = v.peek d ∧ p.peek d = v.peek d ∧
          StandsAt .Spo [⟨5, 1, 2⟩, ⟨5, 1, 9⟩, ⟨10, 1, 1⟩] d (c d) (v.peek d)
            (v.active_run d).1 :=
  ⟨_, rfl, cursors_agree .avx2 .Spo _ _
    (by simp [Triple.Bounded]) (by simp [Call.Bounded]) (by decide) rfl⟩

/-! ### Where the cursors differ from the trie -/

/-- One triple for each of the first predicates. -/
def one_each (n : Nat) : List Triple := (List.range n).map fun p => ⟨0, p, 0⟩

theorem num_predicates_one_each (n : Nat) : num_predicates (one_each n) = n := by
  have hpreds : (one_each n).map (·.p) = List.range n := by
    unfold one_each
    rw [List.map_map]
    exact List.map_id _
  unfold num_predicates
  rw [hpreds, List.toFinset_card_of_nodup List.nodup_range, List.length_range]

theorem leaf_columns_nonempty {triples : List Triple} {ord : Ordering} {leaf : MergedLeaf}
    (h : leaf ∈ leaf_columns triples ord) : 0 < leaf.len := by
  obtain ⟨p, hp, rfl⟩ := List.mem_map.mp h
  obtain ⟨t, ht, rfl⟩ := List.mem_map.mp (mem_sort_dedup.mp hp)
  have hmem : t.leaf_pair ord ∈ sort_dedup ((triples.filter (·.p = t.p)).map (·.leaf_pair ord)) := by
    rw [mem_sort_dedup, List.mem_map]
    exact ⟨t, List.mem_filter.mpr ⟨ht, decide_eq_true rfl⟩, rfl⟩
  exact (of_pairs_len t.p).symm ▸ List.length_pos_of_mem hmem

/-- Leaves as many as a 32-bit word has values are counted as none. -/
theorem merged_root_none {triples : List Triple} {ord : Ordering}
    (h : num_predicates triples % 2 ^ 32 = 0) :
    (MergedIter.new ord (leaf_columns triples ord)).peek 0 = none := by
  have hall : (leaf_columns triples ord).filter (fun l => 0 < l.len) = leaf_columns triples ord :=
    List.filter_eq_self.mpr fun leaf hleaf => decide_eq_true (leaf_columns_nonempty hleaf)
  have hlive : (MergedIter.new ord (leaf_columns triples ord)).live 0 = [] := by
    unfold MergedIter.new MergedIter.all_live
    dsimp only
    rw [if_pos rfl, hall, List.length_mergeSort, length_leaf_columns, h, List.range_zero]
  unfold MergedIter.peek
  rw [hlive]
  rfl

theorem vec_root_one_each {n : Nat} (hn : 0 < n) :
    (VecIter.new ((VecTripleSource.from_triples (one_each n)).columns .Pso)).peek 0 = some 0 := by
  have hvec : ((VecTripleSource.from_triples (one_each n)).columns .Pso).Holds .Pso
      (one_each n).toFinset := by
    have h := (VecTripleSource.from_triples (one_each n)).columns_holds .Pso
    rwa [VecTripleSource.from_triples_triples] at h
  rw [(VecIter.follows_new _).peek hvec 0]
  refine Level.peek_eq_some.mpr ⟨⟨⟨⟨0, 0, 0⟩, ?_, rfl, rfl⟩, Nat.zero_le 0⟩, fun k _ => Nat.zero_le k⟩
  exact List.mem_map.mpr ⟨0, List.mem_range.mpr hn, rfl⟩

/-- A target behind the cursor moves no cursor, though a key stands there; and a cursor over leaf
blocks counts its leaves in 32-bit words. -/
theorem seek_back_stays :
    (VecIter.run .scalar ((VecTripleSource.from_triples [⟨5, 1, 1⟩, ⟨10, 1, 1⟩]).columns .Spo)
        [.seek 0 10, .seek 0 5]).bind (·.peek 0) = some 10 ∧
      (MergedIter.run .Spo (leaf_columns [⟨5, 1, 1⟩, ⟨10, 1, 1⟩] .Spo)
        [.seek 0 10, .seek 0 5]).bind (·.peek 0) = some 10 ∧
      (CompressedIter.run .scalar
        ((CompressedTripleSource.from_triples [⟨5, 1, 1⟩, ⟨10, 1, 1⟩]).sorted .Spo)
        [.seek 0 10, .seek 0 5]).bind (·.peek 0) = some 10 ∧
      ¬ IsLeast {k | k ∈ trie_keys .Spo [⟨5, 1, 1⟩, ⟨10, 1, 1⟩] 0 [] ∧ 5 ≤ k} 10 ∧
      (VecIter.new ((VecTripleSource.from_triples (one_each (2 ^ 32))).columns .Pso)).peek 0 =
        some 0 ∧
      (MergedIter.new .Pso (leaf_columns (one_each (2 ^ 32)) .Pso)).peek 0 = none := by
  refine ⟨by decide +kernel, by decide +kernel, by decide +kernel, fun hleast => ?_,
    vec_root_one_each (Nat.two_pow_pos 32), merged_root_none ?_⟩
  · have hfive : (10 : Nat) ≤ 5 :=
      hleast.2 ⟨⟨⟨5, 1, 1⟩, List.mem_cons_self, rfl, rfl⟩, le_refl 5⟩
    omega
  · rw [num_predicates_one_each, Nat.mod_self]

end horndb.wcoj
