-- A fold over keyed entries, where a step at a key changes only what is seen at that
-- key. With no key twice, each key sees its own step and nothing else.
import Mathlib

open Std

namespace HornDb.Lib.RowFold

variable {σ ε κ ρ φ : Type*}

/-- `step` keeps the frame, and at the key of its entry it changes the view by `upd`. -/
structure RowStep (step : σ → ε → σ) (key : ε → κ) (frame : σ → φ) (view : σ → κ → ρ)
    (upd : φ → ε → ρ → ρ) : Prop where
  kept : ∀ s e, frame (step s e) = frame s
  other : ∀ s e k, k ≠ key e → view (step s e) k = view s k
  self : ∀ s e, view (step s e) (key e) = upd (frame s) e (view s (key e))

variable {step : σ → ε → σ} {key : ε → κ} {frame : σ → φ} {view : σ → κ → ρ}
  {upd : φ → ε → ρ → ρ}

theorem RowStep.foldl_frame (h : RowStep step key frame view upd) (l : List ε) (s : σ) :
    frame (l.foldl step s) = frame s := by
  induction l generalizing s with
  | nil => rfl
  | cons e l ih => rw [List.foldl_cons, ih, h.kept]

theorem RowStep.foldl_other (h : RowStep step key frame view upd) (l : List ε) (s : σ) {k : κ}
    (hk : ∀ e ∈ l, k ≠ key e) : view (l.foldl step s) k = view s k := by
  induction l generalizing s with
  | nil => rfl
  | cons e l ih =>
    rw [List.forall_mem_cons] at hk
    rw [List.foldl_cons, ih _ hk.2, h.other s e k hk.1]

theorem RowStep.foldl_self (h : RowStep step key frame view upd) {l : List ε}
    (hl : (l.map key).Nodup) (s : σ) {e : ε} (he : e ∈ l) :
    view (l.foldl step s) (key e) = upd (frame s) e (view s (key e)) := by
  induction l generalizing s with
  | nil => cases he
  | cons e' l ih =>
    rw [List.map_cons, List.nodup_cons] at hl
    rw [List.foldl_cons]
    rcases List.mem_cons.mp he with rfl | he
    · rw [h.foldl_other l _ fun f hf heq => hl.1 (List.mem_map.mpr ⟨f, hf, heq.symm⟩), h.self]
    · have hne : key e ≠ key e' := fun heq => hl.1 (List.mem_map.mpr ⟨e, he, heq⟩)
      rw [ih hl.2 _ he, h.kept, h.other s e' _ hne]

/-- Two states that are seen alike are seen alike after the same entries. -/
theorem RowStep.foldl_congr (h : RowStep step key frame view upd) (l : List ε) {s s' : σ}
    (hframe : frame s = frame s') (hview : ∀ k, view s k = view s' k) (k : κ) :
    view (l.foldl step s) k = view (l.foldl step s') k := by
  induction l generalizing s s' with
  | nil => exact hview k
  | cons e l ih =>
    rw [List.foldl_cons, List.foldl_cons]
    refine ih (by rw [h.kept, h.kept, hframe]) fun k => ?_
    by_cases hk : k = key e
    · rw [hk, h.self, h.self, hframe, hview]
    · rw [h.other s e k hk, h.other s' e k hk, hview]

/-- A counter that each step raises by what the entry costs at its key rises by the sum of what
the entries cost at the start. -/
theorem RowStep.foldl_count (h : RowStep step key frame view upd) (count : σ → Nat)
    (cost : ε → ρ → Nat) (hcount : ∀ s e, count (step s e) = count s + cost e (view s (key e)))
    {l : List ε} (hl : (l.map key).Nodup) (s : σ) :
    count (l.foldl step s) = count s + (l.map fun e => cost e (view s (key e))).sum := by
  induction l generalizing s with
  | nil => rfl
  | cons e l ih =>
    rw [List.map_cons, List.nodup_cons] at hl
    have hrest : (l.map fun f => cost f (view (step s e) (key f))) =
        l.map fun f => cost f (view s (key f)) := by
      apply List.map_congr_left
      intro f hf
      rw [h.other s e (key f) fun heq => hl.1 (List.mem_map.mpr ⟨f, hf, heq⟩)]
    rw [List.foldl_cons, ih hl.2, hrest, hcount, List.map_cons, List.sum_cons, Nat.add_assoc]

section Maps

variable {κ β : Type} [Ord κ] [TransOrd κ] [LawfulEqOrd κ]

omit [LawfulEqOrd κ] in
theorem nodup_map_toList (m : ExtTreeMap κ β) : (m.toList.map Prod.fst).Nodup := by
  rw [ExtTreeMap.map_fst_toList_eq_keys]
  exact ExtTreeMap.nodup_keys

theorem getElem?_insert_other {m : ExtTreeMap κ β} {k k' : κ} (b : β) (h : k' ≠ k) :
    (m.insert k b)[k']? = m[k']? := by
  rw [ExtTreeMap.getElem?_insert, if_neg]
  exact fun heq => h (Std.compare_eq_iff_eq.mp heq).symm

theorem getD_insert_other {m : ExtTreeMap κ β} {k k' : κ} (b d : β) (h : k' ≠ k) :
    (m.insert k b).getD k' d = m.getD k' d := by
  rw [ExtTreeMap.getD_eq_getD_getElem?, ExtTreeMap.getD_eq_getD_getElem?,
    getElem?_insert_other b h]

/-- A fold over the entries of a map. -/
theorem RowStep.foldl_map {step : σ → κ × β → σ} {view : σ → κ → ρ} {upd : φ → κ × β → ρ → ρ}
    (h : RowStep step Prod.fst frame view upd) (m : ExtTreeMap κ β) (s : σ) (k : κ) :
    (∃ b, m[k]? = some b ∧ view (m.toList.foldl step s) k = upd (frame s) (k, b) (view s k)) ∨
      (m[k]? = none ∧ view (m.toList.foldl step s) k = view s k) := by
  cases hk : m[k]? with
  | none =>
    refine Or.inr ⟨rfl, h.foldl_other _ _ ?_⟩
    rintro ⟨k', b⟩ hmem rfl
    rw [ExtTreeMap.mem_toList_iff_getElem?_eq_some, hk] at hmem
    cases hmem
  | some b =>
    have hmem : (k, b) ∈ m.toList := ExtTreeMap.mem_toList_iff_getElem?_eq_some.mpr hk
    exact Or.inl ⟨b, rfl, h.foldl_self (nodup_map_toList m) s hmem⟩

theorem nodup_toList (m : ExtTreeSet κ) : (m.toList.map id).Nodup := by
  rw [List.map_id]
  refine (ExtTreeSet.distinct_toList (t := m)).imp ?_
  intro u v huv heq
  exact huv (by rw [heq]; exact ReflCmp.compare_self)

/-- A fold over the members of a set. -/
theorem RowStep.foldl_set {step : σ → κ → σ} {view : σ → κ → ρ} {upd : φ → κ → ρ → ρ}
    (h : RowStep step id frame view upd) (m : ExtTreeSet κ) (s : σ) (k : κ) :
    (k ∈ m ∧ view (m.toList.foldl step s) k = upd (frame s) k (view s k)) ∨
      (k ∉ m ∧ view (m.toList.foldl step s) k = view s k) := by
  by_cases hk : k ∈ m
  · exact Or.inl ⟨hk, h.foldl_self (nodup_toList m) s (ExtTreeSet.mem_toList.mpr hk)⟩
  · refine Or.inr ⟨hk, h.foldl_other _ _ ?_⟩
    rintro k' hmem rfl
    exact hk (ExtTreeSet.mem_toList.mp hmem)

end Maps

/-- What each step takes from the entries done to those with one more, the fold has of all. -/
theorem foldl_done (step : σ → ε → σ) {P : List ε → σ → Prop}
    (hstep : ∀ done e s, P done s → P (done ++ [e]) (step s e)) {s : σ} (hs : P [] s)
    (l : List ε) : P l (l.foldl step s) := by
  induction l using List.reverseRecOn with
  | nil => exact hs
  | append_singleton l e ih =>
    rw [List.foldl_concat]
    exact hstep l e _ ih

/-- A fold that keeps `P`, where each step gives its entry `Q` and takes `Q` from none, leaves
`Q` at every entry. -/
theorem foldl_covers (step : σ → ε → σ) {P : σ → Prop} {Q : ε → σ → Prop} {l : List ε} {s : σ}
    (hs : P s)
    (hstep : ∀ s, P s → ∀ e ∈ l, P (step s e) ∧ Q e (step s e) ∧ ∀ f, Q f s → Q f (step s e)) :
    P (l.foldl step s) ∧ ∀ e ∈ l, Q e (l.foldl step s) := by
  have run : ∀ (rest : List ε) (s : σ), rest ⊆ l → P s →
      P (rest.foldl step s) ∧ (∀ e ∈ rest, Q e (rest.foldl step s)) ∧
        ∀ f, Q f s → Q f (rest.foldl step s) := by
    intro rest
    induction rest with
    | nil => exact fun s _ hs => ⟨hs, nofun, fun _ => id⟩
    | cons e rest ih =>
      intro s hsub hs
      rw [List.cons_subset] at hsub
      obtain ⟨hp, hq, hkeep⟩ := hstep s hs e hsub.1
      obtain ⟨hp', hq', hkeep'⟩ := ih (step s e) hsub.2 hp
      refine ⟨hp', fun f hf => ?_, fun f hf => hkeep' f (hkeep f hf)⟩
      rcases List.mem_cons.mp hf with rfl | hf
      · exact hkeep' f hq
      · exact hq' f hf
  obtain ⟨hp, hq, _⟩ := run l s (List.Subset.refl l) hs
  exact ⟨hp, hq⟩

end HornDb.Lib.RowFold
