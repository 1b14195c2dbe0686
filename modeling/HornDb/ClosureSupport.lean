-- The support counting delete: what the over-delete drops, what the re-derive adds
-- back, and that the two together leave the closure of the base without the edge.
import HornDb.ClosureDeletion

open HornDb.Lib Relation Std

namespace horndb.closure.incremental.IncrementalTransitiveClosure

variable {c : IncrementalTransitiveClosure}

theorem mem_pairs_before (hc : c.Indexed) {x y u v : Nat} :
    (u, v) ∈ c.pairs_before (x, y) ↔ c.Edge u x ∧ v = y := by
  simp only [pairs_before, List.mem_reverse, List.mem_map, Adjacency.mem_neighbors,
    Prod.mk.injEq, hc.base_backward]
  constructor
  · rintro ⟨w, h, rfl, rfl⟩
    exact ⟨h, rfl⟩
  · rintro ⟨h, rfl⟩
    exact ⟨u, h, rfl, rfl⟩

theorem pairs_before_length_le (c : IncrementalTransitiveClosure) (p : Nat × Nat) :
    (c.pairs_before p).length ≤ c.bwd_base.edges.length := by
  rw [pairs_before, List.length_reverse, List.length_map]
  exact Adjacency.neighbors_length_le _ _

/-! ## Phase 1: the over-delete -/

/-- A pair that could have used the deleted edge: a path to `s` that is left, and a
column that `o` reached. -/
def Affected (c : IncrementalTransitiveClosure) (s : Nat) (column : Nat → Prop)
    (x y : Nat) : Prop :=
  ReflTransGen c.Edge x s ∧ column y

/-- The invariant of the over-delete over the closure `c` it began with. -/
structure OverDeleting (c : IncrementalTransitiveClosure) (s : Nat) (column : Nat → Prop)
    (queue : List (Nat × Nat)) (st : OverDelete) : Prop where
  same : SameBase c st.state
  indexed : st.state.Indexed
  closed : ∀ x y, st.state.Closed x y ↔ (x, y) ∉ st.dropped ∧ c.Closed x y
  nodup : st.dropped.Nodup
  on_queue : ∀ x y, (x, y) ∈ queue → Affected c s column x y
  sound : ∀ x y, (x, y) ∈ st.dropped → Affected c s column x y ∧ c.Closed x y
  visited : ∀ x y, st.affected.has x y = true → (x, y) ∈ st.dropped ∨ ¬ c.Closed x y
  first : ∀ y, column y → st.affected.has s y = true ∨ (s, y) ∈ queue
  next : ∀ w x y, (x, y) ∈ st.dropped → c.Edge w x →
    st.affected.has w y = true ∨ (w, y) ∈ queue

variable {queue : List (Nat × Nat)} {p : Nat × Nat}

theorem over_delete_turn_keeps {s : Nat} {column : Nat → Prop} {st : OverDelete}
    (h : OverDeleting c s column (p :: queue) st) :
    OverDeleting c s column ((over_delete_turn p st).2 ++ queue) (over_delete_turn p st).1 := by
  obtain ⟨x, y⟩ := p
  have hp := h.on_queue x y List.mem_cons_self
  have htail : ∀ u v, (u, v) ∈ queue → Affected c s column u v :=
    fun u v hq => h.on_queue u v (List.mem_cons_of_mem _ hq)
  unfold over_delete_turn
  split
  · rename_i hseen
    have hskip : ∀ u v, st.affected.has u v = true ∨ (u, v) ∈ (x, y) :: queue →
        st.affected.has u v = true ∨ (u, v) ∈ queue := by
      intro u v hq
      rcases hq with hq | hq
      · exact Or.inl hq
      · rcases List.mem_cons.mp hq with heq | hq
        · cases heq
          exact Or.inl hseen
        · exact Or.inr hq
    exact ⟨h.same, h.indexed, h.closed, h.nodup, htail, h.sound, h.visited,
      fun v hv => hskip s v (h.first v hv), fun w u v hu hw => hskip w v (h.next w u v hu hw)⟩
  · have hmark : ∀ u v, st.affected.has u v = true ∨ (u, v) ∈ (x, y) :: queue →
        (st.affected.add x y).has u v = true ∨ (u, v) ∈ queue := by
      intro u v hq
      rw [Adjacency.has_add]
      rcases hq with hq | hq
      · exact Or.inl (Or.inr hq)
      · rcases List.mem_cons.mp hq with heq | hq
        · cases heq
          exact Or.inl (Or.inl ⟨rfl, rfl⟩)
        · exact Or.inr hq
    dsimp only
    split
    · -- The pair is not closed now: it was dropped before, or it never was closed.
      rename_i hopen
      rw [Bool.not_eq_true'] at hopen
      have hgone : (x, y) ∈ st.dropped ∨ ¬ c.Closed x y := by
        have := h.closed x y
        rw [Closed, hopen] at this
        simp only [Bool.false_eq_true, false_iff, not_and] at this
        by_contra hno
        rw [not_or, not_not] at hno
        exact this hno.1 hno.2
      refine ⟨h.same, h.indexed, h.closed, h.nodup, htail, h.sound, ?_,
        fun v hv => hmark s v (h.first v hv), fun w u v hu hw => hmark w v (h.next w u v hu hw)⟩
      intro u v huv
      rcases (Adjacency.has_add _ _ _ _ _).mp huv with ⟨rfl, rfl⟩ | huv
      · exact hgone
      · exact h.visited u v huv
    · rename_i hin
      rw [Bool.not_eq_true', Bool.not_eq_false] at hin
      have hold := (h.closed x y).mp hin
      -- The probe count is no part of what the laws read.
      generalize hprobe : { st.state with last_delete_probes := st.state.last_delete_probes + 1 } = d
      have hd : SameBase st.state d ∧ d.Indexed ∧ ∀ u v, d.Closed u v ↔ st.state.Closed u v := by
        subst hprobe
        exact ⟨⟨rfl, rfl, rfl⟩, ⟨h.indexed.1, h.indexed.2, h.indexed.3⟩, fun _ _ => Iff.rfl⟩
      obtain ⟨hsame, hind, hclosed⟩ := hd
      have hsame' : SameBase c (d.drop_closed x y) :=
        (h.same.trans hsame).trans (drop_closed_same d x y)
      have hind' := drop_closed_indexed hind x y
      have hpush : ∀ u v, (u, v) ∈ (d.drop_closed x y).pairs_before (x, y) ↔
          c.Edge u x ∧ v = y := by
        intro u v
        rw [mem_pairs_before hind', hsame'.edge]
      dsimp only
      refine ⟨hsame', hind', ?_, ?_, ?_, ?_, ?_, ?_, ?_⟩
      · intro u v
        rw [drop_closed_closed, hclosed, h.closed, List.mem_append, List.mem_singleton,
          Prod.mk.injEq]
        tauto
      · rw [List.nodup_append]
        refine ⟨h.nodup, List.nodup_singleton _, ?_⟩
        intro q hq r hr heq
        rw [List.mem_singleton] at hr
        subst hr heq
        exact hold.1 hq
      · intro u v huv
        rcases List.mem_append.mp huv with huv | huv
        · obtain ⟨hu, rfl⟩ := (hpush u v).mp huv
          exact ⟨ReflTransGen.head hu hp.1, hp.2⟩
        · exact htail u v huv
      · intro u v huv
        rcases List.mem_append.mp huv with huv | huv
        · exact h.sound u v huv
        · cases List.mem_singleton.mp huv
          exact ⟨hp, hold.2⟩
      · intro u v huv
        rw [List.mem_append]
        rcases (Adjacency.has_add _ _ _ _ _).mp huv with ⟨rfl, rfl⟩ | huv
        · exact Or.inl (Or.inr (List.mem_singleton.mpr rfl))
        · exact (h.visited u v huv).imp_left Or.inl
      · intro v hv
        exact (hmark s v (h.first v hv)).imp_right (List.mem_append_right _)
      · intro w u v hu hw
        rcases List.mem_append.mp hu with hu | hu
        · exact (hmark w v (h.next w u v hu hw)).imp_right (List.mem_append_right _)
        · cases List.mem_singleton.mp hu
          exact Or.inr (List.mem_append_left _ ((hpush w y).mpr ⟨hw, rfl⟩))

theorem over_delete_turn_pays {s : Nat} {column : Nat → Prop} {st : OverDelete}
    (h : OverDeleting c s column (p :: queue) st) :
    (over_delete_turn p st).2 = [] ∧ (over_delete_turn p st).1.state.nnz ≤ st.state.nnz ∨
      (over_delete_turn p st).1.state.nnz < st.state.nnz ∧
        (over_delete_turn p st).2.length ≤ c.bwd_base.edges.length := by
  unfold over_delete_turn
  split
  · exact Or.inl ⟨rfl, le_rfl⟩
  · dsimp only
    split
    · exact Or.inl ⟨rfl, le_rfl⟩
    · rename_i hin
      rw [Bool.not_eq_true', Bool.not_eq_false] at hin
      generalize hprobe : { st.state with last_delete_probes := st.state.last_delete_probes + 1 } = d
      have hd : d.Indexed ∧ d.Closed p.1 p.2 ∧ d.nnz = st.state.nnz ∧ SameBase st.state d := by
        subst hprobe
        exact ⟨⟨h.indexed.1, h.indexed.2, h.indexed.3⟩, hin, rfl, ⟨rfl, rfl, rfl⟩⟩
      obtain ⟨hind, hclosed, hnnz, hsame⟩ := hd
      refine Or.inr ⟨?_, ?_⟩
      · rw [← hnnz]
        exact drop_closed_nnz_lt hind hclosed
      · refine (pairs_before_length_le _ _).trans ?_
        rw [((h.same.trans hsame).trans (drop_closed_same d p.1 p.2)).bwd_base]

/-- The over-delete drops exactly the pairs that could have used the edge. -/
theorem over_delete_spec (hc : c.Indexed) {s : Nat} {column : Nat → Prop}
    (hqueue : ∀ x y, (x, y) ∈ queue ↔ x = s ∧ column y)
    (hclosed : ∀ x y, Affected c s column x y → c.Closed x y) :
    SameBase c (c.over_delete queue).state ∧ (c.over_delete queue).state.Indexed ∧
      (c.over_delete queue).dropped.Nodup ∧
      (∀ x y, (x, y) ∈ (c.over_delete queue).dropped ↔ Affected c s column x y) ∧
      ∀ x y, (c.over_delete queue).state.Closed x y ↔
        ¬ Affected c s column x y ∧ c.Closed x y := by
  have hstart : OverDeleting c s column queue ⟨c, ∅, []⟩ := by
    refine ⟨.refl c, hc, by simp, List.nodup_nil, ?_, by simp, by simp, ?_, by simp⟩
    · intro x y hxy
      obtain ⟨rfl, hy⟩ := (hqueue x y).mp hxy
      exact ⟨.refl, hy⟩
    · exact fun y hy => Or.inr ((hqueue s y).mpr ⟨rfl, hy⟩)
  obtain ⟨_, hend⟩ := Worklist.drain_rule (OverDeleting c s column)
    (fun st => st.state.nnz) c.bwd_base.edges.length
    (fun _ _ _ => over_delete_turn_keeps) (fun _ _ _ => over_delete_turn_pays) _ _ _ hstart le_rfl
  have hall : ∀ x y, Affected c s column x y → (x, y) ∈ (c.over_delete queue).dropped := by
    rintro x y ⟨hx, hy⟩
    have hkeep : ∀ u, ReflTransGen c.Edge u s → (c.over_delete queue).affected.has u y = true →
        (u, y) ∈ (c.over_delete queue).dropped := by
      intro u hu hmark
      exact (hend.visited u y hmark).resolve_right fun hno => hno (hclosed u y ⟨hu, hy⟩)
    induction hx using ReflTransGen.head_induction_on with
    | refl => exact hkeep s .refl ((hend.first y hy).resolve_right (by simp))
    | head hwx hxs ih =>
      exact hkeep _ (.head hwx hxs) ((hend.next _ _ y ih hwx).resolve_right (by simp))
  have hmem : ∀ x y, (x, y) ∈ (c.over_delete queue).dropped ↔ Affected c s column x y :=
    fun x y => ⟨fun h => (hend.sound x y h).1, hall x y⟩
  refine ⟨hend.same, hend.indexed, hend.nodup, hmem, ?_⟩
  intro x y
  rw [← hmem]
  exact hend.closed x y

/-! ## Phase 2: the re-derive -/

theorem support_pos {x y : Nat} : 1 ≤ c.support x y ↔ ∃ z, c.Edge x z ∧ (z = y ∨ c.Closed z y) := by
  rw [support, Nat.one_le_iff_ne_zero, ← Nat.pos_iff_ne_zero, List.countP_pos_iff]
  simp [Adjacency.mem_neighbors]

/-- The invariant of the re-derive: nothing stands without a path, nothing that stood
is lost, and a dropped pair that is not back waits in the queue or has no support. -/
structure ReDeriving (c : IncrementalTransitiveClosure) (dropped queue : List (Nat × Nat))
    (d : IncrementalTransitiveClosure) : Prop where
  same : SameBase c d
  indexed : d.Indexed
  sound : ∀ x y, d.Closed x y → TransGen c.Edge x y
  kept : ∀ x y, c.Closed x y → d.Closed x y
  on_queue : ∀ p ∈ queue, p ∈ dropped
  pending : ∀ x y, (x, y) ∈ dropped → d.Closed x y ∨ (x, y) ∈ queue ∨ d.support x y = 0

theorem re_derive_turn_keeps {dropped : List (Nat × Nat)}
    (hback : ∀ w x y, (x, y) ∈ dropped → c.Edge w x → (w, y) ∈ dropped)
    {d : IncrementalTransitiveClosure} (h : ReDeriving c dropped (p :: queue) d) :
    ReDeriving c dropped ((re_derive_turn p d).2 ++ queue) (re_derive_turn p d).1 := by
  obtain ⟨x, y⟩ := p
  have hp := h.on_queue (x, y) List.mem_cons_self
  have htail : ∀ q ∈ queue, q ∈ dropped := fun q hq => h.on_queue q (List.mem_cons_of_mem _ hq)
  unfold re_derive_turn
  split
  · rename_i hin
    refine ⟨h.same, h.indexed, h.sound, h.kept, htail, ?_⟩
    intro u v huv
    rcases h.pending u v huv with hc | hq | hs
    · exact Or.inl hc
    · rcases List.mem_cons.mp hq with heq | hq
      · cases heq
        exact Or.inl hin
      · exact Or.inr (Or.inl hq)
    · exact Or.inr (Or.inr hs)
  · rename_i hopen
    generalize hprobe : { d with last_delete_probes := d.last_delete_probes + 1 } = e
    have he : ReDeriving c dropped ((x, y) :: queue) e := by
      subst hprobe
      exact ⟨⟨h.same.1, h.same.2, h.same.3⟩, ⟨h.indexed.1, h.indexed.2, h.indexed.3⟩,
        h.sound, h.kept, h.on_queue, h.pending⟩
    clear hopen h
    dsimp only
    split
    · rename_i hsup
      obtain ⟨z, hxz, hzy⟩ := support_pos.mp hsup
      rw [he.same.edge] at hxz
      have hsame := he.same.trans (add_closed_same e x y)
      have hind := add_closed_indexed he.indexed x y
      have hadd := add_closed_closed e x y
      dsimp only
      refine ⟨hsame, hind, ?_, ?_, ?_, ?_⟩
      · intro u v huv
        rcases (hadd u v).mp huv with ⟨rfl, rfl⟩ | huv
        · rcases hzy with rfl | hzy
          · exact .single hxz
          · exact .head hxz (he.sound z v hzy)
        · exact he.sound u v huv
      · exact fun u v huv => (hadd u v).mpr (Or.inr (he.kept u v huv))
      · rintro ⟨u, v⟩ hq
        rcases List.mem_append.mp hq with hq | hq
        · rw [mem_pairs_before hind, hsame.edge] at hq
          obtain ⟨hu, rfl⟩ := hq
          exact hback u x v hp hu
        · exact htail _ hq
      · intro u v huv
        rw [hadd, List.mem_append, mem_pairs_before hind, hsame.edge]
        rcases he.pending u v huv with hc | hq | hs
        · exact Or.inl (Or.inr hc)
        · rcases List.mem_cons.mp hq with heq | hq
          · cases heq
            exact Or.inl (Or.inl ⟨rfl, rfl⟩)
          · exact Or.inr (Or.inl (Or.inr hq))
        · -- Its support can only grow by the pair that came back, one edge behind it.
          by_cases hs' : (e.add_closed x y).support u v = 0
          · exact Or.inr (Or.inr hs')
          · obtain ⟨w, huw, hwv⟩ := support_pos.mp (Nat.one_le_iff_ne_zero.mpr hs')
            have hno : ¬ (w = v ∨ e.Closed w v) := by
              intro hw
              have hex : ∃ w, e.Edge u w ∧ (w = v ∨ e.Closed w v) :=
                ⟨w, by rwa [(add_closed_same e x y).edge] at huw, hw⟩
              have := support_pos.mpr hex
              omega
            rw [not_or] at hno
            rcases hwv with rfl | hwv
            · exact absurd rfl hno.1
            · rcases (hadd w v).mp hwv with ⟨rfl, rfl⟩ | hwv
              · rw [hsame.edge] at huw
                exact Or.inr (Or.inl (Or.inl ⟨huw, rfl⟩))
              · exact absurd hwv hno.2
    · rename_i hsup
      refine ⟨he.same, he.indexed, he.sound, he.kept, htail, ?_⟩
      intro u v huv
      rcases he.pending u v huv with hc | hq | hs
      · exact Or.inl hc
      · rcases List.mem_cons.mp hq with heq | hq
        · cases heq
          exact Or.inr (Or.inr (Nat.eq_zero_of_not_pos hsup))
        · exact Or.inr (Or.inl hq)
      · exact Or.inr (Or.inr hs)

/-- The dropped pairs that are not back. -/
def waiting (dropped : List (Nat × Nat)) (d : IncrementalTransitiveClosure) :
    Finset (Nat × Nat) :=
  dropped.toFinset \ d.fwd.pairs

theorem re_derive_turn_pays {dropped : List (Nat × Nat)} {d : IncrementalTransitiveClosure}
    (h : ReDeriving c dropped (p :: queue) d) : (re_derive_turn p d).2 = [] ∧
        (waiting dropped (re_derive_turn p d).1).card ≤ (waiting dropped d).card ∨
      (waiting dropped (re_derive_turn p d).1).card < (waiting dropped d).card ∧
        (re_derive_turn p d).2.length ≤ c.bwd_base.edges.length := by
  obtain ⟨x, y⟩ := p
  have hp := h.on_queue (x, y) List.mem_cons_self
  unfold re_derive_turn
  split
  · exact Or.inl ⟨rfl, le_rfl⟩
  · rename_i hopen
    generalize hprobe : { d with last_delete_probes := d.last_delete_probes + 1 } = e
    have he : e.fwd = d.fwd ∧ SameBase c e := by
      subst hprobe
      exact ⟨rfl, h.same.1, h.same.2, h.same.3⟩
    obtain ⟨hfwd, hsame⟩ := he
    dsimp only at hopen ⊢
    have hpairs : (e.add_closed x y).fwd.pairs = insert (x, y) d.fwd.pairs := by
      unfold add_closed
      rw [hfwd, if_neg hopen]
      dsimp only
      rw [Adjacency.pairs_add]
    split
    · refine Or.inr ⟨Finset.card_lt_card ?_, ?_⟩
      · dsimp only [waiting]
        rw [hpairs, Finset.ssubset_iff_of_subset]
        · refine ⟨(x, y), ?_, ?_⟩
          · rw [Finset.mem_sdiff, List.mem_toFinset, Adjacency.mem_pairs]
            exact ⟨hp, hopen⟩
          · rw [Finset.mem_sdiff, not_and_not_right]
            exact fun _ => Finset.mem_insert_self _ _
        · exact Finset.sdiff_subset_sdiff (Finset.Subset.refl _) (Finset.subset_insert _ _)
      · refine (pairs_before_length_le _ _).trans ?_
        rw [(hsame.trans (add_closed_same e x y)).bwd_base]
    · refine Or.inl ⟨rfl, ?_⟩
      rw [waiting, hfwd, waiting]

/-- The re-derive ends with the closure of the base, when what it began with was sound
and every closed pair of the base either stood or was dropped. -/
theorem re_derive_spec (hc : c.Indexed) (dropped : List (Nat × Nat))
    (hback : ∀ w x y, (x, y) ∈ dropped → c.Edge w x → (w, y) ∈ dropped)
    (hsound : ∀ x y, c.Closed x y → TransGen c.Edge x y)
    (hall : ∀ x y, TransGen c.Edge x y → c.Closed x y ∨ (x, y) ∈ dropped) :
    SameBase c (c.re_derive dropped) ∧ (c.re_derive dropped).Good := by
  have hstart : ReDeriving c dropped dropped.reverse c :=
    ⟨.refl c, hc, hsound, fun _ _ => id, fun p hp => List.mem_reverse.mp hp,
      fun x y hxy => Or.inr (Or.inl (List.mem_reverse.mpr hxy))⟩
  have hfuel : dropped.reverse.length +
      (waiting dropped c).card * (c.bwd_base.edges.length + 1) ≤
        dropped.length + dropped.length * (c.bwd_base.edges.length + 1) := by
    rw [List.length_reverse]
    refine Nat.add_le_add_left (Nat.mul_le_mul_right _ ?_) _
    exact (Finset.card_le_card Finset.sdiff_subset).trans (List.toFinset_card_le _)
  obtain ⟨_, hend⟩ := Worklist.drain_rule (ReDeriving c dropped)
    (fun d => (waiting dropped d).card) c.bwd_base.edges.length
    (fun _ _ _ => re_derive_turn_keeps hback) (fun _ _ _ => re_derive_turn_pays) _ _ _
    hstart hfuel
  have hstep : ∀ x y, TransGen c.Edge x y → 1 ≤ (c.re_derive dropped).support x y →
      (c.re_derive dropped).Closed x y := by
    intro x y hxy hsup
    rcases hall x y hxy with h | h
    · exact hend.kept x y h
    · rcases hend.pending x y h with h | h | h
      · exact h
      · exact absurd h (by simp)
      · exact absurd (Nat.le_trans hsup (Nat.le_of_eq h)) (by decide)
  have hsame : SameBase c (c.re_derive dropped) := hend.same
  refine ⟨hsame, ⟨hend.indexed, ?_⟩⟩
  intro x y
  rw [hsame.edge]
  refine ⟨hend.sound x y, ?_⟩
  intro h
  induction h using TransGen.head_induction_on with
  | single h =>
    exact hstep _ _ (.single h) (support_pos.mpr ⟨y, by rwa [hsame.edge], Or.inl rfl⟩)
  | head h hxy ih =>
    exact hstep _ _ (.head h hxy) (support_pos.mpr ⟨_, by rwa [hsame.edge], Or.inr ih⟩)

theorem delete_edge_support_counting_spec (hc : c.Good) (s o : Nat) :
    EdgeDeleted c s o (c.delete_edge_support_counting s o) := by
  unfold delete_edge_support_counting
  by_cases hbase : c.Edge s o
  · obtain ⟨c', hrem, h'⟩ := remove_base_edge_present hc.toIndexed hbase
    rw [hrem]
    simp only [Bool.not_true, Bool.false_eq_true, if_false]
    generalize hq : (List.map (fun y => (s, y)) ((c'.fwd.getD o ∅).insert o).toList).reverse = queue
    have hclosed' : ∀ x y, c'.Closed x y ↔ TransGen c.Edge x y := by
      intro x y
      rw [Closed, h'.fwd, ← Closed, hc.closed]
    have hqueue : ∀ x y, (x, y) ∈ queue ↔ x = s ∧ ReflTransGen c.Edge o y := by
      intro x y
      rw [← hq, List.mem_reverse, List.mem_map, reflTransGen_iff_eq_or_transGen, ← hclosed',
        ← mem_set_with]
      simp only [ExtTreeSet.mem_toList, Prod.mk.injEq]
      constructor
      · rintro ⟨v, hv, rfl, rfl⟩
        exact ⟨rfl, hv⟩
      · rintro ⟨rfl, hv⟩
        exact ⟨y, hv, rfl, rfl⟩
    have hregion : ∀ x y, Affected c' s (ReflTransGen c.Edge o) x y → c'.Closed x y := by
      rintro x y ⟨hx, hy⟩
      rw [h'.edge] at hx
      rw [hclosed']
      exact TransGen.trans_right (Reach.reflTransGen_of_withoutEdge hx) (.head' hbase hy)
    obtain ⟨hsame, hind, hnodup, hdropped, hdrop⟩ := over_delete_spec h'.indexed hqueue hregion
    generalize c'.over_delete queue = st at *
    -- A pair with a path through the edge only is in the region the over-delete dropped.
    have hlost : ∀ x y, TransGen c.Edge x y → ¬ TransGen c'.Edge x y →
        Affected c' s (ReflTransGen c.Edge o) x y := by
      intro x y hxy hno
      rw [h'.edge] at hno
      rcases Reach.transGen_withoutEdge_or hbase hxy with h | ⟨h1, h2⟩
      · exact absurd h hno
      · exact ⟨by rwa [h'.edge], Reach.reflTransGen_of_withoutEdge h2⟩
    have hold : ∀ x y, TransGen c'.Edge x y → TransGen c.Edge x y := by
      intro x y hxy
      rw [h'.edge] at hxy
      exact Reach.transGen_of_withoutEdge hxy
    obtain ⟨hsame', hgood⟩ := re_derive_spec hind st.dropped
      (by
        intro w x y hxy hw
        rw [hsame.edge] at hw
        rw [hdropped] at hxy ⊢
        exact ⟨.head hw hxy.1, hxy.2⟩)
      (by
        intro x y hxy
        rw [hdrop, hclosed'] at hxy
        rw [hsame.edge]
        by_contra hno
        exact hxy.1 (hlost x y hxy.2 hno))
      (by
        intro x y hxy
        rw [hsame.edge] at hxy
        rw [hdrop, hdropped, hclosed']
        by_cases haff : Affected c' s (ReflTransGen c.Edge o) x y
        · exact Or.inr haff
        · exact Or.inl ⟨haff, hold x y hxy⟩)
    generalize st.state.re_derive st.dropped = d at *
    have hedge : d.Edge = c'.Edge := hsame'.edge.trans hsame.edge
    refine ⟨hgood, hedge.trans h'.edge,
      (hsame'.strategy.trans hsame.strategy).trans h'.strategy, ?_, hnodup.filter _, ?_⟩
    · intro x y
      rw [List.mem_filter, hdropped, hc.closed, Bool.not_eq_true', ← Bool.not_eq_true]
      refine and_congr_left fun hno => ⟨fun h => ?_, fun h => ?_⟩
      · exact (hclosed' x y).mp (hregion x y h)
      · refine hlost x y h ?_
        rwa [← Closed, hgood.closed, hedge] at hno
    · exact if_congr (and_iff_right hbase).symm rfl rfl
  · rw [remove_base_edge_absent hbase]
    exact edgeDeleted_absent hc hbase

end horndb.closure.incremental.IncrementalTransitiveClosure
