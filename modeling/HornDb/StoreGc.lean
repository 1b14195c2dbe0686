-- The dictionary under a compaction. The sweep frees just the slots that no stored row names, and
-- each quad that the live snapshot or a pinned one shows is stored, so its terms are still found.
import HornDb.Store
import HornDb.TierRuns

open Std

namespace horndb.storage

/-! ## The sweep -/

namespace Dictionary

variable {ox : Oxrdf} {fst : FstLib} {n : Nat}

/-- A step of the sweep empties the slot that its mark tells to free, and no other. -/
def Frees (s s' : Sweep ox fst) (e : Bool × Nat) : Prop :=
  s'.dict.base_len = s.dict.base_len ∧
    ∀ i, s'.dict.resolve (i + 1) = if e = (false, i) then none else s.dict.resolve (i + 1)

theorem Frees.nothing (s : Sweep ox fst) {e : Bool × Nat}
    (h : e.1 = false → s.dict.resolve (e.2 + 1) = none) : Frees s s e := by
  refine ⟨rfl, fun i => ?_⟩
  split
  · rename_i heq
    subst heq
    exact h rfl
  · rfl

theorem gc_base_slot_frees (s : Sweep ox fst) {e : Bool × Nat} (he : e.2 < s.dict.base_len) :
    Frees s (gc_base_slot s e) e := by
  obtain ⟨marked, k⟩ := e
  unfold gc_base_slot
  dsimp only at he ⊢
  split
  · rename_i hfreed
    simp only [Bool.and_eq_true, Bool.not_eq_true'] at hfreed
    refine ⟨rfl, fun i => ?_⟩
    have hdead : i + 1 ∈ s.dict.base_dead.insert (k + 1) ↔ k = i ∨ i + 1 ∈ s.dict.base_dead := by
      rw [ExtTreeSet.mem_insert, Std.compare_eq_iff_eq, Nat.add_right_cancel_iff]
    unfold resolve
    simp only [hdead, hfreed.1.1, Prod.mk.injEq, true_and]
    by_cases hki : k = i
    · subst hki
      simp [Nat.succ_le_of_lt he]
    · simp only [hki, false_or, if_false]
  · rename_i hkept
    refine Frees.nothing s fun hdead => ?_
    unfold resolve
    rw [if_neg (Nat.succ_ne_zero k), if_pos (Nat.succ_le_of_lt he)]
    split
    · rfl
    · rename_i hlive
      rw [← ExtTreeSet.contains_iff_mem, Bool.not_eq_true] at hlive
      -- The slot is not dead, so it was skipped for the bytes that the base lacks.
      cases hbytes : s.dict.base.bind (·.term_bytes (k + 1)) with
      | none => rfl
      | some bytes =>
        refine absurd ?_ hkept
        simp [hbytes, show marked = false from hdead, hlive]

theorem remove_key_resolve (d : Dictionary ox fst) (term : Term ox) (id : TermId) :
    (d.remove_key term id).base_len = d.base_len ∧
      (d.remove_key term id).resolve = d.resolve := by
  unfold remove_key
  split
  · split <;> exact ⟨rfl, rfl⟩
  · exact ⟨rfl, rfl⟩

theorem resolve_term (d : Dictionary ox fst) {i : Nat} (hi : d.base_len ≤ i) :
    d.resolve (i + 1) = d.terms[i - d.base_len]?.join := by
  unfold resolve
  rw [if_neg (Nat.succ_ne_zero i), if_neg (by omega), Nat.add_sub_cancel]

theorem gc_slot_frees (s : Sweep ox fst) {e : Bool × Nat} (he : s.dict.base_len ≤ e.2) :
    Frees s (gc_slot s e) e := by
  obtain ⟨marked, k⟩ := e
  dsimp only at he
  unfold gc_slot
  cases marked with
  | true => exact Frees.nothing s fun hdead => Bool.noConfusion hdead
  | false =>
    rw [if_neg Bool.false_ne_true]
    dsimp only
    split
    · rename_i term hterm
      refine ⟨(remove_key_resolve _ _ _).1, fun i => ?_⟩
      refine (congrFun (remove_key_resolve _ _ _).2 (i + 1)).trans ?_
      by_cases hki : k = i
      · subst hki
        rw [if_pos rfl]
        refine (resolve_term _ (by exact he)).trans ?_
        dsimp only
        rw [List.getElem?_set_self']
        cases s.dict.terms[k - s.dict.base_len]? <;> rfl
      · rw [if_neg fun heq => hki (Prod.mk.inj heq).2]
        by_cases hi : s.dict.base_len ≤ i
        · refine (resolve_term _ (by exact hi)).trans ?_
          rw [resolve_term s.dict hi]
          dsimp only
          rw [List.getElem?_set_ne (by omega)]
        · have hbase : i + 1 ≤ s.dict.base_len := by omega
          unfold resolve
          simp only [hbase, if_true]
    · rename_i hnone
      refine Frees.nothing s fun _ => ?_
      rw [resolve_term _ he]
      cases hterm : s.dict.terms[k - s.dict.base_len]? with
      | none => rfl
      | some slot =>
        cases slot with
        | none => rfl
        | some term => exact absurd hterm (hnone term)

theorem foldl_frees (f : Sweep ox fst → Bool × Nat → Sweep ox fst) (marks : List (Bool × Nat))
    (hf : ∀ s, s.dict.base_len = n → ∀ e ∈ marks, Frees s (f s e) e) {s : Sweep ox fst}
    (hs : s.dict.base_len = n) :
    (marks.foldl f s).dict.base_len = n ∧
      ∀ i, (marks.foldl f s).dict.resolve (i + 1) =
        if (false, i) ∈ marks then none else s.dict.resolve (i + 1) := by
  induction marks generalizing s with
  | nil => exact ⟨hs, fun i => (if_neg List.not_mem_nil).symm⟩
  | cons e marks ih =>
    obtain ⟨hlen, hres⟩ := hf s hs e List.mem_cons_self
    obtain ⟨hlen', hres'⟩ := ih (fun s hs e he => hf s hs e (List.mem_cons_of_mem _ he))
      (hlen.trans hs)
    refine ⟨hlen', fun i => ?_⟩
    rw [List.foldl_cons, hres', hres]
    by_cases hmem : (false, i) ∈ marks
    · rw [if_pos hmem, if_pos (List.mem_cons_of_mem _ hmem)]
    · simp only [hmem, List.mem_cons, or_false, if_false, eq_comm]

/-- A sweep empties just the slots whose marks tell so. -/
theorem gc_resolve (d : Dictionary ox fst) (live : List Bool) (i : Nat) :
    (d.gc live).1.resolve (i + 1) = if live[i]? = some false then none else d.resolve (i + 1) := by
  have hmark : live[i]? = some false ↔ (false, i) ∈ live.zipIdx.take d.base_len ∨
      (false, i) ∈ live.zipIdx.drop d.base_len := by
    rw [← List.mem_append, List.take_append_drop]
    exact (List.mem_zipIdx_iff_getElem? : (false, i) ∈ live.zipIdx ↔ _).symm
  obtain ⟨hlen, hbase⟩ := foldl_frees (n := d.base_len) (s := ⟨d, 0⟩) gc_base_slot
    (live.zipIdx.take d.base_len)
    (fun s hs e he => gc_base_slot_frees s <| by
      obtain ⟨j, hj, rfl⟩ := List.mem_take_iff_getElem.mp he
      rw [List.getElem_zipIdx, hs]
      omega) rfl
  obtain ⟨-, hterms⟩ := foldl_frees gc_slot (live.zipIdx.drop d.base_len)
    (fun s hs e he => gc_slot_frees s <| by
      obtain ⟨j, hj, rfl⟩ := List.mem_drop_iff_getElem.mp he
      rw [List.getElem_zipIdx, hs]
      omega) hlen
  refine (hterms i).trans ?_
  rw [hbase]
  simp only [hmark]
  by_cases hdrop : (false, i) ∈ live.zipIdx.drop d.base_len <;> simp [hdrop]

end Dictionary

/-! ## The marks -/

namespace TierSnapshot

/-- The ids of a quad. -/
def ids (q : Quad) : List TermId := [q.graph, q.subject, q.predicate, q.object]

theorem scan_of_scan_at {part : Partition} {w : Nat} {pair : Pair} (h : pair ∈ part.scan_at w) :
    pair ∈ part.scan := by
  cases part with
  | Cold part => exact h
  | Warm part =>
    obtain ⟨r, hr, rfl⟩ := List.mem_map.mp h
    exact List.mem_map_of_mem (List.mem_filter.mp hr).1

/-- What a snapshot shows at any version is stored in it. -/
theorem ids_of_shows {t : TierSnapshot} {w : Nat} {q : Quad} (h : t.shows w q = true) {id : TermId}
    (hid : id ∈ ids q) : id ∈ Store.TierSnapshot.term_ids t := by
  obtain ⟨part, hpart, hpair⟩ := (Option.any_eq_true _ _).mp h
  obtain ⟨parts, hparts, hpart⟩ := Option.bind_eq_some_iff.mp hpart
  have hgraph := ExtTreeMap.mem_toList_iff_getElem?_eq_some.mpr hparts
  have hpred := ExtTreeMap.mem_toList_iff_getElem?_eq_some.mpr hpart
  have hrow := scan_of_scan_at (List.contains_iff_mem.mp hpair)
  unfold Store.TierSnapshot.term_ids
  refine List.mem_flatMap.mpr ⟨_, hgraph, ?_⟩
  rw [List.mem_cons, List.mem_flatMap]
  simp only [ids, List.mem_cons, List.not_mem_nil, or_false] at hid
  rcases hid with rfl | rfl | rfl | rfl
  · exact Or.inl rfl
  · exact Or.inr ⟨_, hpred, List.mem_cons_of_mem _ (List.mem_flatMap.mpr ⟨_, hrow, .head _⟩)⟩
  · exact Or.inr ⟨_, hpred, List.mem_cons_self⟩
  · have hobject : q.object ∈ [(ofLex q.pair).1, (ofLex q.pair).2] :=
      List.mem_cons_of_mem _ List.mem_cons_self
    exact Or.inr ⟨_, hpred, List.mem_cons_of_mem _ (List.mem_flatMap.mpr ⟨_, hrow, hobject⟩)⟩

end TierSnapshot

namespace Store

variable {ox : Oxrdf} {fst : FstLib}

theorem marks_eq (store : Store ox fst) {i : Nat} (hi : i < store.dictionary.len) :
    store.marks[i]? =
      some ((TierSnapshot.term_ids store.tier.current).any (marks_slot i)) := by
  unfold marks
  rw [List.getElem?_map, List.getElem?_range hi, Option.map_some]

/-- The collection leaves the term of each id that the tier stores. -/
theorem gc_lookup (store : Store ox fst) {id : TermId}
    (h : id ∈ TierSnapshot.term_ids store.tier.current) :
    store.gc_dictionary.dictionary.lookup id = store.dictionary.lookup id := by
  unfold Dictionary.lookup
  split
  · rfl
  · rfl
  · rename_i kind hinline hkind
    refine congrArg Except.ok ?_
    cases hi : TermId.payload id with
    | zero => rfl
    | succ i =>
      refine (Dictionary.gc_resolve _ _ i).trans (if_neg fun hdead => ?_)
      have hlt : i < store.dictionary.len := by
        obtain ⟨hlt, -⟩ := List.getElem?_eq_some_iff.mp hdead
        simpa [marks] using hlt
      rw [marks_eq store hlt, Option.some.injEq] at hdead
      refine List.any_eq_false.mp hdead id h ?_
      have hslot : TermId.kind id ≠ some .InlineInt := by
        rw [hkind]
        exact fun heq => hinline (Option.some.inj heq)
      unfold marks_slot
      rw [decide_eq_true hslot, decide_eq_true hi]
      rfl

/-- The collection frees each slot that no stored id names. -/
theorem gc_frees (store : Store ox fst) {i : Nat} (hi : i < store.dictionary.len)
    (h : ∀ id ∈ TierSnapshot.term_ids store.tier.current, marks_slot i id = false) :
    store.gc_dictionary.dictionary.resolve (i + 1) = none := by
  refine (Dictionary.gc_resolve _ _ i).trans (if_pos ?_)
  rw [marks_eq store hi, List.any_eq_false.mpr fun id hid => by simp [h id hid]]

theorem compact_tier (store : Store ox fst) (elapsed : Nat) :
    (store.compact elapsed).tier = store.tier.compact := by
  unfold compact
  dsimp only
  split
  · rfl
  · split <;> rfl

/-- A compaction leaves the term of each id that is stored once the dead rows are gone. -/
theorem compact_lookup (store : Store ox fst) (elapsed : Nat) {id : TermId}
    (h : id ∈ TierSnapshot.term_ids store.tier.compact.current) :
    (store.compact elapsed).dictionary.lookup id = store.dictionary.lookup id := by
  unfold compact
  dsimp only
  split
  · exact gc_lookup _ h
  · split
    · exact gc_lookup _ h
    · rfl

theorem compact_frees (store : Store ox fst) (elapsed : Nat) (hwal : store.wal = none) {i : Nat}
    (hi : i < store.dictionary.len)
    (h : ∀ id ∈ TierSnapshot.term_ids store.tier.compact.current, marks_slot i id = false) :
    (store.compact elapsed).dictionary.resolve (i + 1) = none := by
  unfold compact
  dsimp only
  split
  · exact gc_frees { store with tier := store.tier.compact } hi h
  · rename_i log hlog
    rw [hwal] at hlog
    cases hlog

end Store

/-- After any run of the tier, a compaction of the store leaves the pinned snapshots as they were
and the terms of each quad that the live snapshot or a pinned one shows. Without a log it frees
each slot that no stored row names. -/
theorem compact_keeps_terms {ox : Oxrdf} {fst : FstLib} (store : Store ox fst)
    (script : List TierOp) (elapsed : Nat) :
    let before := { store with tier := MemoryTier.run script }
    let after := before.compact elapsed
    after.tier.pinned = before.tier.pinned ∧
      (∀ snap ∈ before.tier.current :: before.tier.pinned, ∀ q,
        snap.shows snap.version q = true → ∀ id ∈ TierSnapshot.ids q,
          after.dictionary.lookup id = before.dictionary.lookup id) ∧
      (before.wal = none → ∀ i < before.dictionary.len,
        (∀ id ∈ Store.TierSnapshot.term_ids after.tier.current,
          Store.marks_slot i id = false) → after.dictionary.resolve (i + 1) = none) := by
  intro before after
  obtain ⟨since, h⟩ := run_tracks script
  obtain ⟨since', h'⟩ := run_tracks (script ++ [.compact])
  have htier : MemoryTier.run (script ++ [.compact]) = (MemoryTier.run script).compact :=
    List.foldl_concat _ _ _ _
  have hledger : Ledger.run (script ++ [.compact]) = { Ledger.run script with whole := false } :=
    List.foldl_concat _ _ _ _
  rw [htier, hledger] at h'
  have hafter : after.tier = (MemoryTier.run script).compact := before.compact_tier elapsed
  refine ⟨by rw [hafter]; rfl, fun snap hsnap q hq id hid => before.compact_lookup elapsed ?_,
    fun hwal i hi hnamed => ?_⟩
  · -- The live snapshot that is left shows the quad at one version or another.
    have hseen : ∃ w, since' q.graph q.predicate ≤ w ∧ q ∈ (Ledger.run script).seen w := by
      rcases List.mem_cons.mp hsnap with rfl | hsnap
      · exact ⟨_, h'.live.version ▸ h'.live.sound.since_le _ _, (h.live.now q).mp hq⟩
      · have hpin : snap.version ∈ (Ledger.run script).pins := by
          rw [← h.pinned]
          exact List.mem_map_of_mem hsnap
        exact ⟨_, le_max_right _ _, h'.stored _ hpin q (((h.held snap hsnap).2.2 q).mp hq)⟩
    obtain ⟨w, hw, hseen⟩ := hseen
    exact TierSnapshot.ids_of_shows ((h'.live.shows w q hw).mpr hseen) hid
  · rw [hafter] at hnamed
    exact before.compact_frees elapsed hwal hi hnamed

end horndb.storage
