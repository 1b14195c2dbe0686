-- When the fixpoint loops of a tick stop within their bound: exactly when the rounds of
-- the rules, and before them the rounds of the over-delete, settle one round earlier.
import HornDb.CircuitValid

open HornDb.Lib HornDb.Lib.Horn HornDb.Lib.Words HornDb.Lib.Words.Checked Std

namespace horndb.incremental.Circuit

variable {rules : List (List TriplePattern × TriplePattern)}

/-! ## The three loops -/

theorem insertion_rounds_eq (fuel : Nat) : ∀ (c : Circuit) (d : Zset TripleId),
    insertion_rounds fuel c d =
      (rounds (fun st : Insertion => st.circuit.insertion_round st.next_delta)
        (fun st => st.next_delta.is_empty) fuel ⟨c, d⟩).map (·.circuit) := by
  induction fuel with
  | zero =>
    intro c d
    rw [insertion_rounds, rounds]
    split
    · rfl
    · rfl
  | succ fuel ih =>
    intro c d
    rw [insertion_rounds, rounds]
    split
    · rfl
    · exact ih _ _

theorem overdelete_rounds_eq (fuel : Nat) : ∀ st : Retraction,
    overdelete_rounds fuel st =
      rounds overdelete_round (fun st => st.next_delta.is_empty) fuel st := by
  induction fuel with
  | zero => exact fun st => rfl
  | succ fuel ih =>
    intro st
    rw [overdelete_rounds, rounds]
    split
    · rfl
    · exact ih _

theorem rederive_rounds_eq (fuel : Nat) : ∀ st : Retraction,
    rederive_rounds fuel st =
      rounds rederive_round (fun st => st.next_delta.is_empty) fuel st := by
  induction fuel with
  | zero => exact fun st => rfl
  | succ fuel ih =>
    intro st
    rw [rederive_rounds, rounds]
    split
    · rfl
    · exact ih _

/-! ## Rows present and pending -/

/-- A round that adds: the pending rows are in the extent after it, and pending then is what
the rules give over that extent and no more. -/
structure Added (rules : List (List TriplePattern × TriplePattern)) (ext ext' : PredExtent)
    (d d' : Zset TripleId) : Prop where
  folded : ∀ t, ext'.get t = ext.get t + d.get t
  pending : ∀ t, d'.get t = 0 ∨ (d'.get t = 1 ∧ ext'.get t = 0)
  closed : ∀ t, (∃ ps, Instance rules ps t ∧ ∀ p ∈ ps, 0 < ext'.get p) → 0 < ext'.get t + d'.get t
  backed : ∀ t, 0 < ext'.get t + d'.get t → 0 < ext'.get t ∨
    ∃ ps, Instance rules ps t ∧ ∀ p ∈ ps, 0 < ext'.get p

theorem Added.stage {ext ext' : PredExtent} {d d' : Zset TripleId} (h : Added rules ext ext' d d')
    (t : TripleId) : 0 < ext'.get t + d'.get t ↔
      Stage (Instance rules) (fun u => 0 < ext.get u + d.get u) 1 t := by
  have hstage : Stage (Instance rules) (fun u => 0 < ext.get u + d.get u) 1 t ↔
      0 < ext'.get t ∨ ∃ ps, Instance rules ps t ∧ ∀ p ∈ ps, 0 < ext'.get p := by
    simp only [Stage, h.folded]
  rw [hstage]
  refine ⟨h.backed t, ?_⟩
  rintro (hold | hnew)
  · rcases h.pending t with hp | ⟨_, hp⟩ <;> omega
  · exact h.closed t hnew

theorem Added.done {ext ext' : PredExtent} {d d' : Zset TripleId} (h : Added rules ext ext' d d') :
    d'.is_empty = true ↔ ∀ t, 0 < ext'.get t + d'.get t ↔ 0 < ext.get t + d.get t := by
  rw [Zset.is_empty_iff]
  constructor
  · intro hz t
    rw [hz, add_zero, h.folded]
  · intro hsame t
    rcases h.pending t with hp | ⟨hp, hz⟩
    · exact hp
    · have := hsame t
      rw [← h.folded] at this
      omega

variable {d : Zset TripleId}

theorem Inserting.added {c₀ c : Circuit} (himp : Implements c₀.plans rules)
    (h : Inserting rules c₀ c d) : Added rules c.extent (c.insertion_round d).circuit.extent d
      (c.insertion_round d).next_delta := by
  have hout := h.round himp
  have hnonneg : ∀ x, 0 ≤ (c.extent.add_assign d).get x := by
    intro x
    rw [PredExtent.get_add_assign]
    have := h.flat.nonneg x
    rcases h.delta x with h1 | ⟨h1, _⟩ <;> omega
  have hfolded := (insertion_round_spec (implements_skeleton h.plans himp) h.weighed
    hnonneg).1.extent
  generalize c.insertion_round d = out at *
  have hinst := fun t => (derivations_pos_iff himp hout.flat.nonneg t).2
  refine ⟨fun t => ?_, hout.delta, fun t ht => hout.closed t ((hinst t).mpr ht), fun t ht => ?_⟩
  · rw [hfolded, PredExtent.get_add_assign]
  · rcases (hout.present t).mp ht with hc | ho
    · refine Or.inl ?_
      rw [hfolded, PredExtent.get_add_assign]
      exact (h.present t).mpr (Or.inl hc)
    · exact Or.inr ((hinst t).mp (hout.owned t ho))

variable {st : Retraction}

theorem Rederiving.added {c₀ : Circuit} {d₀ : Zset TripleId} (himp : Implements c₀.plans rules)
    (h : Rederiving rules c₀ d₀ st) :
    Added rules st.circuit.extent (rederive_round st).circuit.extent st.next_delta
      (rederive_round st).next_delta := by
  have hout := h.round himp
  have hnonneg : ∀ x, 0 ≤ (st.circuit.extent.add_assign st.next_delta).get x := by
    intro x
    rw [PredExtent.get_add_assign]
    have := h.flat.nonneg x
    rcases h.delta x with h1 | ⟨h1, _⟩ <;> omega
  have hfolded := (rederive_round_spec (implements_skeleton h.plans himp) h.weighed
    hnonneg).1.done.extent
  generalize rederive_round st = out at *
  have hinst := fun t => (derivations_pos_iff himp hout.flat.nonneg t).2
  refine ⟨fun t => ?_, hout.delta, fun t ht => hout.closed t ((hinst t).mpr ht), fun t ht => ?_⟩
  · rw [hfolded, PredExtent.get_add_assign]
  · rcases hout.backed t ht with hc | hd
    · refine Or.inl ?_
      rw [hfolded, PredExtent.get_add_assign]
      exact h.kept t (Or.inl hc)
    · exact Or.inr ((hinst t).mp hd)

variable {c : Circuit}

/-- The insertion rounds stop in time exactly when the rules settle from the present and
pending rows. -/
theorem insertion_rounds_iff (h : Ready rules c d) (hpos : ∀ t, 0 ≤ d.get t) (fuel : Nat) :
    (insertion_rounds (fuel + 1) c d).isSome = true ↔
      SettlesIn (Instance rules) (fun t => 0 < c.extent.get t + d.get t) fuel := by
  rw [insertion_rounds_eq, Option.isSome_map]
  refine rounds_isSome_iff (I := fun st : Insertion => Inserting rules c st.circuit st.next_delta)
    (S := fun st t => 0 < st.circuit.extent.get t + st.next_delta.get t)
    (fun st hst => hst.round h.implements) (fun st hst => (hst.added h.implements).stage)
    (fun st hst => (hst.added h.implements).done) (fun st hst hdone ps t hinst hps => ?_) fuel _
    (.start h hpos)
  have hzero := Zset.is_empty_iff.mp hdone
  refine hst.closed t ((derivations_pos_iff h.implements hst.flat.nonneg t).2.mpr
    ⟨ps, hinst, fun p hp => ?_⟩)
  have := hps p hp
  rwa [hzero, add_zero] at this

theorem rederive_rounds_iff (himp : Implements c.plans rules) (h : Rederiving rules c d st)
    (fuel : Nat) : (rederive_rounds (fuel + 1) st).isSome = true ↔ SettlesIn (Instance rules)
      (fun t => 0 < st.circuit.extent.get t + st.next_delta.get t) fuel := by
  rw [rederive_rounds_eq]
  refine rounds_isSome_iff (I := Rederiving rules c d)
    (S := fun st t => 0 < st.circuit.extent.get t + st.next_delta.get t)
    (fun st hst => hst.round himp) (fun st hst => (hst.added himp).stage)
    (fun st hst => (hst.added himp).done) (fun st hst hdone ps t hinst hps => ?_) fuel _ h
  have hzero := Zset.is_empty_iff.mp hdone
  refine hst.closed t ((derivations_pos_iff himp hst.flat.nonneg t).2.mpr
    ⟨ps, hinst, fun p hp => ?_⟩)
  have := hps p hp
  rwa [hzero, add_zero] at this

/-! ## Rows taken -/

/-- The rows that the over-delete has taken, with those that go in the next round. -/
def Taken (c₀ : Circuit) (st : Retraction) (t : TripleId) : Prop :=
  0 < c₀.extent.get t ∧ st.circuit.extent.get t + st.next_delta.get t = 0

/-- The instances by which the over-delete of `c₀` goes from row to row. -/
abbrev Cascades (rules : List (List TriplePattern × TriplePattern)) (c₀ : Circuit) :
    List TripleId → TripleId → Prop :=
  Takes (Instance rules) (fun t => 0 < c₀.extent.get t) fun t => ¬ c₀.Covered t

/-- Rows that are gone take each uncovered row with an instance that uses one. -/
theorem Overdeleting.cascades {c₀ : Circuit} {d₀ : Zset TripleId}
    (himp : Implements c₀.plans rules) (hready : Ready rules c₀ d₀)
    (h : Overdeleting rules c₀ d₀ st) {ps : List TripleId} {t : TripleId}
    (hinst : Cascades rules c₀ ps t)
    (hps : ∀ p ∈ ps, 0 < c₀.extent.get p ∧ st.circuit.extent.get p = 0) : Taken c₀ st t := by
  obtain ⟨hfree, qs, p, rfl, hrule, hold, hp⟩ := hinst
  obtain ⟨hpos, hzero⟩ := hps p List.mem_cons_self
  have hlow : derivations c₀.plans st.circuit.extent t < derivations c₀.plans c₀.extent t := by
    refine (derivations_lt_iff himp (fun x => (h.below x).1) (fun x => (h.below x).2) t).2.mpr ?_
    exact ⟨qs, hrule, hold, p, hp, by omega⟩
  refine ⟨hready.closed t ?_, (h.dropped t (h.lowered t hfree hlow)).1⟩
  exact (derivations_pos_iff himp hready.flat.nonneg t).2.mpr ⟨qs, hrule, hold⟩

/-- What one over-delete round takes. -/
theorem Overdeleting.stage {c₀ : Circuit} {d₀ : Zset TripleId} (hready : Ready rules c₀ d₀)
    (h : Overdeleting rules c₀ d₀ st) :
    (∀ t, Taken c₀ (overdelete_round st) t ↔ Stage (Cascades rules c₀) (Taken c₀ st) 1 t) ∧
      ((overdelete_round st).next_delta.is_empty = true ↔
        ∀ t, Taken c₀ (overdelete_round st) t ↔ Taken c₀ st t) := by
  have himp := hready.implements
  have hout := h.round himp hready.flat
  have hnonneg : ∀ x, 0 ≤ (st.circuit.extent.add_assign st.next_delta).get x := by
    intro x
    rw [PredExtent.get_add_assign]
    have := (h.below x).1
    rcases h.delta x with h1 | ⟨h1, _⟩ <;> omega
  obtain ⟨hround, hrow⟩ := overdelete_round_spec (implements_skeleton h.plans himp) h.weighed
    hnonneg
  generalize overdelete_round st = out at *
  have hext : ∀ t, out.circuit.extent.get t = st.circuit.extent.get t + st.next_delta.get t := by
    intro t
    rw [hround.done.extent, PredExtent.get_add_assign]
  have htaken : ∀ t, Taken c₀ st t ↔ 0 < c₀.extent.get t ∧ out.circuit.extent.get t = 0 := by
    intro t
    rw [Taken, hext]
  constructor
  · intro t
    constructor
    · rintro ⟨hpos, hzero⟩
      by_cases hold : out.circuit.extent.get t = 0
      · exact Or.inl ((htaken t).mpr ⟨hpos, hold⟩)
      -- The row goes in this round, so it lost a derivation by a row that went before.
      have hnext : out.next_delta.get t ≠ 0 := by omega
      obtain ⟨hlt, _, hfree⟩ := not_not.mp fun hno => hnext ((hrow t).2 hno).2.2
      rw [derivations_skeleton h.plans, derivations_skeleton h.plans] at hlt
      have hle : ∀ x, out.circuit.extent.get x ≤ st.circuit.extent.get x := by
        intro x
        rw [hext]
        rcases h.delta x with h1 | ⟨h1, _⟩ <;> omega
      obtain ⟨qs, hrule, hqs, p, hp, hplt⟩ := (derivations_lt_iff himp
        (fun x => (hout.below x).1) hle t).2.mp hlt
      have hold' : ∀ q ∈ qs, 0 < c₀.extent.get q := fun q hq =>
        Int.lt_of_lt_of_le (hqs q hq) (h.below q).2
      have hcov : ¬ c₀.Covered t := by
        have hrest := h.rest
        rw [Covered, hrest] at hfree
        exact hfree
      refine Or.inr ⟨[p], ⟨hcov, qs, p, rfl, hrule, hold', hp⟩, fun q hq => ?_⟩
      rw [List.mem_singleton.mp hq]
      refine (htaken p).mpr ⟨hold' p hp, ?_⟩
      have h1 := (hout.below p).1
      have h2 := hready.flat p
      have h3 := (h.below p).2
      omega
    · rintro (ht | ⟨ps, hinst, hps⟩)
      · obtain ⟨hpos, hzero⟩ := (htaken t).mp ht
        refine ⟨hpos, ?_⟩
        rcases hout.delta t with h1 | ⟨_, h1⟩ <;> omega
      · exact hout.cascades himp hready hinst fun p hp => (htaken p).mp (hps p hp)
  · rw [Zset.is_empty_iff]
    constructor
    · intro hz t
      rw [htaken, Taken, hz, add_zero]
    · intro hsame t
      rcases hout.delta t with h1 | ⟨h1, h2⟩
      · exact h1
      · have hpos : 0 < c₀.extent.get t := by
          have := (hout.below t).2
          omega
        have := ((htaken t).mp ((hsame t).mp ⟨hpos, by omega⟩)).2
        omega

/-- The over-delete rounds stop in time exactly when what they take settles. -/
theorem overdelete_rounds_iff (h : Ready rules c d) (fuel : Nat) :
    (overdelete_rounds (fuel + 1) ⟨c, c.dropped_candidates d, c.dropped_candidates d,
      seed_of (fun m => decide (m < 0)) d⟩).isSome = true ↔
      SettlesIn (Cascades rules c) (fun t => d.get t < 0) fuel := by
  rw [overdelete_rounds_eq]
  have hstart : ∀ t, Taken c ⟨c, c.dropped_candidates d, c.dropped_candidates d,
      seed_of (fun m => decide (m < 0)) d⟩ t ↔ d.get t < 0 := by
    intro t
    have hseed : (seed_of (fun m => decide (m < 0)) d).get t =
        if d.get t < 0 then d.get t else 0 := by
      rw [seed_of_get]
      simp only [decide_eq_true_eq]
    rw [Taken]
    dsimp only
    rw [hseed]
    split
    · rcases h.delta t with ⟨h1, _⟩ | ⟨h1, _⟩ | ⟨h1, h2, _⟩ <;> omega
    · omega
  rw [← settlesIn_congr hstart]
  refine rounds_isSome_iff (I := Overdeleting rules c d) (S := Taken c)
    (fun st hst => hst.round h.implements h.flat) (fun st hst => (hst.stage h).1)
    (fun st hst => (hst.stage h).2) (fun st hst hdone ps t hinst hps => ?_) fuel _ (.start h)
  have hzero := Zset.is_empty_iff.mp hdone
  refine hst.cascades h.implements h hinst fun p hp => ?_
  obtain ⟨hpos, htaken⟩ := hps p hp
  rw [hzero, add_zero] at htaken
  exact ⟨hpos, htaken⟩

/-! ## The rule fixpoint -/

/-- The rows that the rules go on from: those the tick does not lose, those it adds, and
what one step gives from the first. -/
def Restart (rules : List (List TriplePattern × TriplePattern)) (kept added : TripleId → Prop)
    (t : TripleId) : Prop :=
  kept t ∨ added t ∨ ∃ ps, Instance rules ps t ∧ ∀ p ∈ ps, kept p

/-- The rows that the over-delete leaves. -/
def Survives (rules : List (List TriplePattern × TriplePattern)) (c : Circuit)
    (d : Zset TripleId) (t : TripleId) : Prop :=
  0 < c.extent.get t ∧ ¬ Lost rules c d t

theorem Overdeleted.restart (hr : Ready rules c d) (h : Overdeleted rules c d st) (t : TripleId) :
    0 < st.circuit.extent.get t + (st.circuit.readd_candidates st.candidates
      (seed_of (fun m => !decide (m < 0)) d)).get t ↔
      Restart rules (Survives rules c d) (fun t => 0 < d.get t) t := by
  have hback := (h.reseed hr).closed t
  dsimp only at hback
  have hinst := (derivations_pos_iff hr.implements h.flat.nonneg t).2
  simp only [h.survives] at hinst
  have hsurv : 0 < st.circuit.extent.get t ↔ Survives rules c d t := h.survives t
  have hseed : (seed_of (fun m => !decide (m < 0)) d).get t =
      if d.get t < 0 then 0 else d.get t := by
    rw [seed_of_get]
    by_cases ht : d.get t < 0
    · simp [ht]
    · simp [ht]
  have hnn := h.flat.nonneg t
  have hW : st.circuit.total_weight t = derivations c.plans st.circuit.extent t := by
    rw [total_weight, h.weighed.total, derivations_skeleton h.plans]
  rw [readd_candidates_get, hW] at hback ⊢
  rw [Restart, ← hsurv]
  constructor
  · intro hpos
    by_cases hold : 0 < st.circuit.extent.get t
    · exact Or.inl hold
    by_cases hadd : 0 < d.get t
    · exact Or.inr (Or.inl hadd)
    refine Or.inr (Or.inr (hinst.mp ?_))
    split at hpos
    · rename_i hc
      exact hc.2.1
    · rw [hseed] at hpos
      split at hpos <;> omega
  · rintro (hold | hadd | hnew)
    · split
      · rw [hseed]
        split <;> omega
      · rw [hseed]
        split <;> omega
    · split
      · rw [hseed, if_neg (by omega)]
        omega
      · rw [hseed, if_neg (by omega)]
        omega
    · exact hback (hinst.mpr hnew)

/-- The rounds that a phase may take before its last look. -/
def DEPTH : Nat := MAX_FIXPOINT_ROUNDS - 1

theorem run_two_phase_fixpoint_iff (h : Ready rules c d) :
    (c.run_two_phase_fixpoint d).isSome = true ↔
      SettlesIn (Cascades rules c) (fun t => d.get t < 0) DEPTH ∧
        SettlesIn (Instance rules) (Restart rules (Survives rules c d) fun t => 0 < d.get t)
          DEPTH := by
  rw [← overdelete_rounds_iff h, run_two_phase_fixpoint]
  dsimp only
  cases hran : overdelete_rounds (DEPTH + 1) _ with
  | none =>
    rw [show MAX_FIXPOINT_ROUNDS = DEPTH + 1 from rfl, hran]
    simp
  | some st =>
    obtain ⟨hover, hdone⟩ := overdelete_rounds_spec h.implements h.flat _ (.start h) hran
    have hdeleted := hover.settles h.implements h.flat hdone
    have hre := rederive_rounds_iff h.implements (hdeleted.reseed h) DEPTH
    rw [settlesIn_congr (hdeleted.restart h)] at hre
    rw [show MAX_FIXPOINT_ROUNDS = DEPTH + 1 from rfl, hran, Option.bind_some, Option.isSome_map,
      hre]
    simp

/-- The rule fixpoint ends within its bounds exactly when both phases settle in time. -/
theorem rule_fixpoint_iff (h : Ready rules c d) : (c.rule_fixpoint d).isSome = true ↔
      SettlesIn (Cascades rules c) (fun t => d.get t < 0) DEPTH ∧
        SettlesIn (Instance rules) (Restart rules (Survives rules c d) fun t => 0 < d.get t)
          DEPTH := by
  rw [rule_fixpoint]
  split
  · exact run_two_phase_fixpoint_iff h
  rename_i hany
  have hpos : ∀ t, 0 ≤ d.get t := by
    intro t
    by_contra hneg
    refine hany (List.any_eq_true.mpr ⟨(t, d.get t), Zset.mem_iter.mpr ⟨by omega, rfl⟩, ?_⟩)
    exact decide_eq_true (by omega)
  have hnone : ∀ t, ¬ Derives (Cascades rules c) (fun t => d.get t < 0) t := by
    intro t ht
    refine ht.least (S := fun _ => False) (fun u hu => ?_) ?_
    · exact absurd (hpos u) (by omega)
    · rintro ps u ⟨_, qs, p, rfl, _⟩ hps
      exact hps p List.mem_cons_self
  have hkept : ∀ t, Survives rules c d t ↔ 0 < c.extent.get t := by
    intro t
    rw [Survives, Lost, lost_iff_derives]
    exact and_iff_left (hnone t)
  have hrestart : ∀ t, Restart rules (Survives rules c d) (fun t => 0 < d.get t) t ↔
      0 < c.extent.get t + d.get t := by
    intro t
    have hnn := h.flat.nonneg t
    have hp := hpos t
    simp only [Restart, hkept]
    constructor
    · rintro (h1 | h1 | h1)
      · omega
      · omega
      · have := h.closed t ((derivations_pos_iff h.implements h.flat.nonneg t).2.mpr h1)
        omega
    · intro hsum
      by_cases h1 : 0 < c.extent.get t
      · exact Or.inl h1
      · exact Or.inr (Or.inl (by omega))
  rw [run_insertion_fixpoint, show MAX_FIXPOINT_ROUNDS = DEPTH + 1 from rfl,
    insertion_rounds_iff h hpos, settlesIn_congr hrestart]
  exact (and_iff_right fun t ht => absurd ht (hnone t)).symm

/-! ## The recompute -/

/-- A recompute round that found something changed has a row that was not there before. -/
theorem recompute_round_changed (plans : List (NaryPlan × RuleId)) (st : Recompute)
    (hnn : ∀ t, 0 ≤ st.closure.get t) (hch : (recompute_round plans st).changed = true) :
    ∃ t, ¬ 0 < st.closure.get t ∧ 0 < (recompute_round plans st).closure.get t := by
  let P : Recompute → Prop := fun s => (∀ t, st.closure.get t ≤ s.closure.get t) ∧
    (s.changed = true → ∃ t, ¬ 0 < st.closure.get t ∧ 0 < s.closure.get t)
  have hrow : ∀ rid s e, P s → P (recompute_row rid s e) := by
    intro rid s e hs
    unfold recompute_row
    split
    · rename_i hnew
      have hget : ∀ t, (s.closure.add e.1 1).get t = s.closure.get t + if t = e.1 then 1 else 0 :=
        fun t => Zset.get_add _ _ _ _
      refine ⟨fun t => ?_, fun _ => ⟨e.1, ?_, ?_⟩⟩
      · have := hs.1 t
        dsimp only
        rw [hget]
        split <;> omega
      · have := hs.1 e.1
        omega
      · have := hnn e.1
        have := hs.1 e.1
        dsimp only
        rw [hget, if_pos rfl]
        omega
    · exact hs
  have hfold : P (recompute_round plans st) := by
    unfold recompute_round
    dsimp only
    refine List.foldlRecOn plans _ (motive := P) ⟨fun _ => Int.le_refl _, nofun⟩ ?_
    intro s hs p _
    exact List.foldlRecOn _ _ (motive := P) hs fun s' hs' e _ => hrow p.2 s' e hs'
  exact hfold.2 hch

/-- One recompute round: what it adds, and when it adds nothing. -/
theorem recompute_round_stage {plans : List (NaryPlan × RuleId)} (himp : Implements plans rules)
    {seed : TripleId → Prop} {st : Recompute}
    (h : Recomputing plans seed (.from_zset st.closure) st) :
    Recomputing plans seed (.from_zset (recompute_round plans st).closure)
        (recompute_round plans st) ∧
      (∀ t, 0 < (recompute_round plans st).closure.get t ↔
        Stage (Instance rules) (fun t => 0 < st.closure.get t) 1 t) ∧
      ((recompute_round plans st).changed = false ↔
        ∀ t, 0 < (recompute_round plans st).closure.get t ↔ 0 < st.closure.get t) := by
  obtain ⟨hround, hclosed⟩ := recompute_round_spec himp h
  have hchanged := recompute_round_changed plans st h.nonneg
  generalize recompute_round plans st = next at *
  have hold : ∀ x, 0 ≤ (PredExtent.from_zset st.closure).get x := fun x => by
    rw [get_from_zset]
    exact h.nonneg x
  have hinst : ∀ t, (∃ p ∈ plans, 0 < (p.1.apply_full (.from_zset st.closure)).get t) ↔
      ∃ ps, Instance rules ps t ∧ ∀ p ∈ ps, 0 < st.closure.get p := by
    intro t
    rw [← derivations_pos_iff_plan himp hold, (derivations_pos_iff himp hold t).2]
    simp only [get_from_zset]
  refine ⟨⟨hround.keeps.nonneg, hround.keeps.rows, hround.keeps.apart, fun t rid hrid => ?_⟩,
    fun t => ?_, ?_⟩
  · obtain ⟨p, hp, hid, hpos⟩ := hround.keeps.fired t rid hrid
    obtain ⟨r, hbuilt⟩ := built_of_implements himp hp
    refine ⟨p, hp, hid, Int.lt_of_lt_of_le hpos ?_⟩
    refine (NaryPlan.built_le_and_lt_iff hbuilt hold (fun x => ?_) t).1
    rw [get_from_zset, get_from_zset]
    exact hround.grows x
  · have hone : Stage (Instance rules) (fun t => 0 < st.closure.get t) 1 t ↔
        0 < st.closure.get t ∨ ∃ p ∈ plans, 0 < (p.1.apply_full (.from_zset st.closure)).get t := by
      rw [hinst]
      exact Iff.rfl
    rw [hone]
    constructor
    · intro hpos
      rcases (hround.keeps.rows t).mp hpos with hseed | hattr
      · exact Or.inl ((h.rows t).mpr (Or.inl hseed))
      · obtain ⟨rid, hrid⟩ := Option.isSome_iff_exists.mp
          (ExtTreeMap.mem_iff_isSome_getElem?.mp hattr)
        obtain ⟨p, hp, _, hfired⟩ := hround.keeps.fired t rid hrid
        exact Or.inr ⟨p, hp, hfired⟩
    · rintro (hpos | ⟨p, hp, hpos⟩)
      · exact Int.lt_of_lt_of_le hpos (hround.grows t)
      · exact hclosed p hp t hpos
  · constructor
    · intro hsame t
      rw [hround.same hsame]
    · intro hsame
      by_contra hch
      obtain ⟨t, hno, hpos⟩ := hchanged (Bool.not_eq_false _ ▸ hch)
      exact hno ((hsame t).mp hpos)

/-- The recompute stops in time exactly when the rules settle from its seeds. -/
theorem recompute_rounds_iff {plans : List (NaryPlan × RuleId)} (himp : Implements plans rules)
    {seed : TripleId → Prop} (fuel : Nat) : ∀ {st : Recompute},
      Recomputing plans seed (.from_zset st.closure) st →
      ((recompute_rounds plans (fuel + 1) st).isSome = true ↔
        SettlesIn (Instance rules) (fun t => 0 < st.closure.get t) fuel) := by
  induction fuel with
  | zero =>
    intro st h
    obtain ⟨_, hstage, hdone⟩ := recompute_round_stage himp h
    rw [recompute_rounds, settlesIn_zero]
    simp only [← hstage]
    rw [← hdone]
    cases (recompute_round plans st).changed with
    | true => simp [recompute_rounds]
    | false => simp
  | succ fuel ih =>
    intro st h
    obtain ⟨hnext, hstage, hdone⟩ := recompute_round_stage himp h
    rw [recompute_rounds]
    split
    · rw [ih hnext, settlesIn_congr hstage, settlesIn_shift]
    · rename_i hch
      have hsame := hdone.mp (Bool.not_eq_true _ ▸ hch)
      refine iff_of_true rfl (.of_closed (fun ps t hinst hps => ?_) _)
      exact (hsame t).mp ((hstage t).mpr (Or.inr ⟨ps, hinst, hps⟩))

/-- The rule closure from scratch is found exactly when the rules settle in time from the
rows that are asserted or have closure support. -/
theorem recompute_rule_closure_iff (himp : Implements c.plans rules) :
    c.recompute_rule_closure.isSome = true ↔ SettlesIn (Instance rules) c.Seeded DEPTH := by
  obtain ⟨hstart, hseeded⟩ := recompute_start c
  unfold recompute_rule_closure
  dsimp only
  rw [Option.isSome_map, show MAX_FIXPOINT_ROUNDS = DEPTH + 1 from rfl,
    recompute_rounds_iff himp DEPTH hstart, settlesIn_congr hseeded]

/-! ## The tick -/

/-- The rows that the tick keeps in its over-delete. -/
def Kept (rules : List (List TriplePattern × TriplePattern)) (c : Circuit) (t : TripleId) :
    Prop :=
  0 < c.extent.get t ∧ ¬ Loses rules c t

/-- The tick recomputes the rules from scratch. -/
def Recomputes (c : Circuit) : Prop :=
  (c.recompute_fallback && c.log.records.any fun rec => decide (rec.mult < 0)) = true

/-- No derivation that the tick has to follow is longer than its rounds: from the rows that
are held, where it recomputes; else by the over-delete from the dropped rows, and by the
rules from the rows that are kept or held and one step from the kept ones. -/
def Shallow (rules : List (List TriplePattern × TriplePattern)) (c : Circuit) : Prop :=
  (c.Recomputes → SettlesIn (Instance rules) c.Held DEPTH) ∧
    (¬ c.Recomputes →
      SettlesIn (Takes (Instance rules) (fun t => 0 < c.extent.get t) fun t => ¬ c.Held t)
        (Dropped c) DEPTH ∧
      SettlesIn (Instance rules) (Restart rules (Kept rules c) c.Held) DEPTH)

theorem unified_tick_iff (h : Tidy rules c) (hmode : ¬ c.Recomputes) :
    c.tick.isSome = true ↔ Shallow rules c := by
  have hpassed := closure_passes_spec h
  rw [Shallow, iff_true_intro (fun hm => absurd hm hmode : c.Recomputes → _), true_and,
    iff_true_intro hmode, true_implies]
  rw [Recomputes, Bool.not_eq_true] at hmode
  rw [tick]
  dsimp only at hpassed ⊢
  rw [show c.merge_pending.recompute_fallback = c.recompute_fallback from rfl, hmode,
    if_neg Bool.false_ne_true, run_unified, Option.isSome_map]
  generalize c.merge_pending.closure_passes _ _ _ _ = st at *
  obtain ⟨hready, hcov, hneg⟩ := passed_ready h hpassed
  have hext : st.circuit.extent = c.extent := hpassed.balanced.extent
  rw [rule_fixpoint_iff hready, settlesIn_congr hneg, Cascades, hext]
  simp only [hcov]
  have hkept : ∀ t, Survives rules st.circuit
      (st.circuit.reseed_orphans st.orphans st.init_delta) t ↔ Kept rules c t := by
    intro t
    rw [Survives, Kept, Lost, Loses, hext, funext fun t => propext (hneg t),
      funext fun t => propext (not_congr (hcov t))]
  refine and_congr_right fun _ => settlesIn_congr fun t => ?_
  rw [Restart, Restart]
  simp only [hkept]
  rw [← hcov]
  -- A held row is added, unless it is present, and then it is kept.
  have hd := hready.delta t
  rw [hext] at hd
  constructor
  · rintro (hk | hadd | hnew)
    · exact Or.inl hk
    · rcases hd with ⟨h1, _⟩ | ⟨_, _, h1⟩ | ⟨h1, _⟩
      · omega
      · exact Or.inr (Or.inl h1)
      · omega
    · exact Or.inr (Or.inr hnew)
  · rintro (hk | hheld | hnew)
    · exact Or.inl hk
    · rcases hd with ⟨_, h1⟩ | ⟨h1, _⟩ | ⟨_, _, h1⟩
      · refine Or.inl ⟨h1.mpr (Or.inl hheld), fun hlost => ?_⟩
        cases hlost with
        | seed hs => exact hs.2.1 ((hcov t).mp hheld)
        | step _ _ _ _ hfree => exact hfree ((hcov t).mp hheld)
      · exact Or.inr (Or.inl (by omega))
      · exact absurd hheld h1
    · exact Or.inr (Or.inr hnew)

theorem fallback_tick_iff (h : Tidy rules c) (hmode : c.Recomputes) :
    c.tick.isSome = true ↔ Shallow rules c := by
  have hpassed := closure_passes_spec h
  rw [Shallow, iff_true_intro (fun hm => absurd hmode hm : ¬ c.Recomputes → _), and_true,
    iff_true_intro hmode, true_implies]
  rw [Recomputes] at hmode
  have hneg := (Bool.and_eq_true_iff.mp hmode).2
  rw [tick]
  dsimp only at hpassed ⊢
  rw [show c.merge_pending.recompute_fallback = c.recompute_fallback from rfl, hmode,
    if_pos rfl, run_recompute_fallback, Option.isSome_map]
  rw [closure_passes, hneg, if_pos rfl] at hpassed
  rw [hneg]
  dsimp only at hpassed ⊢
  generalize c.merge_pending.presence_flips _ = init at hpassed
  rw [alike_passes _ _ _ .new init]
  generalize run_closure_insertion_pass _ _ = st at *
  have hplans : st.circuit.plans = c.plans := (congrArg plans hpassed.balanced.rest :)
  obtain ⟨_, hcov, _⟩ := passed_ready h hpassed
  rw [Option.isSome_map, recompute_rule_closure_iff (hplans ▸ h.implements)]
  exact settlesIn_congr hcov

theorem Sound.tick_isSome (h : Sound rules c) : c.tick.isSome = true ↔ Shallow rules c := by
  by_cases hmode : c.Recomputes
  · exact fallback_tick_iff h.tidy hmode
  · exact unified_tick_iff h.tidy hmode

/-- From a circuit between ticks, the tick ends, at a fixpoint of the rules, if and only if no
derivation it has to follow is too long. -/
theorem Sound.tick_iff (h : Sound rules c) :
    (∃ out, c.tick = some out ∧ Closed rules out.circuit.Present) ↔ Shallow rules c := by
  rw [← h.tick_isSome, Option.isSome_iff_exists]
  refine ⟨fun ⟨out, hout, _⟩ => ⟨out, hout⟩, fun ⟨out, hout⟩ => ⟨out, hout, ?_⟩⟩
  have htidy := (tick_sound h hout).1.tidy
  intro ps t hinst hps
  refine (htidy.present t).mp (htidy.closed t ?_)
  refine (derivations_pos_iff htidy.implements htidy.flat.nonneg t).2.mpr ⟨ps, hinst, ?_⟩
  exact fun p hp => (htidy.present p).mpr (hps p hp)

/-- In every run over words, of either regime: the next tick returns, at a fixpoint of the rules,
if and only if no derivation it has to follow is longer than its rounds, every count fits into its
word and every variable that it looks up has a place in the table. -/
theorem ticks_end_iff_shallow (recompute_fallback : Bool) (rules : List PlannedRule)
    (closures : List Nat) (ops : List Op) (c : Circuit)
    (h : (checked_run ops (start_with recompute_fallback rules closures)).run = .ok c) :
    (∃ out, c.checked_tick.run = .ok out ∧
        Closed (PlannedRule.bodies rules) out.circuit.Present) ↔
      Shallow (PlannedRule.bodies rules) c ∧ c.checked_tick.run ≠ .error .overflow ∧
        c.checked_tick.run ≠ .error .index := by
  have hsound := (run_sound recompute_fallback rules closures ops c (run_of_checked h)).1
  constructor
  · rintro ⟨out, hout, hclosed⟩
    have htick := (exact_tick c).symm.trans (Checked.sound _ _ hout)
    refine ⟨hsound.tick_iff.mp ⟨out, htick, hclosed⟩, ?_⟩
    rw [hout]
    exact ⟨nofun, nofun⟩
  · rintro ⟨hshallow, hfits, htable⟩
    obtain ⟨out, htick, hclosed⟩ := hsound.tick_iff.mpr hshallow
    refine ⟨out, ?_, hclosed⟩
    exact (Avoids.returns_or htable ((exact_tick c).trans htick)).resolve_right hfits

/-! ## A path that is too long -/

/-- The rule `?0 1 ?1, ?1 2 ?2 → ?0 1 ?2`. -/
def followRule : PlannedRule where
  id := 1
  body := [⟨.Var 0, .Bound 1, .Var 1⟩, ⟨.Var 1, .Bound 2, .Var 2⟩]
  head := ⟨.Var 0, .Bound 1, .Var 2⟩
  stats := ⟨false, fun _ => 0, fun _ => 0⟩
  plan := ⟨[⟨1, ⟨.Var 0, .Bound 1, .Var 1⟩, ⟨.Var 1, .Bound 2, .Var 2⟩, ⟨.Var 0, .Bound 1, .Var 2⟩,
    by decide, List.cons_ne_nil 1 []⟩], [0, 1], none⟩
  attribution := 1
  built := rfl

/-- Row 1 at node 0, and the edges 2 of a path with `n` steps from there. -/
def pathRows (n : Nat) : List TripleId :=
  ⟨0, 1, 0⟩ :: (List.range n).map fun k => ⟨k, 2, k + 1⟩

theorem mem_pathRows {n : Nat} {t : TripleId} :
    t ∈ pathRows n ↔ t = ⟨0, 1, 0⟩ ∨ ∃ k < n, t = ⟨k, 2, k + 1⟩ := by
  rw [pathRows, List.mem_cons, List.mem_map]
  simp only [List.mem_range, eq_comm]

/-- The end of the path is derived. -/
theorem path_end_derived {base : TripleId → Prop} {n : Nat} (hbase : ∀ t ∈ pathRows n, base t) :
    ∀ k ≤ n, Derives (Instance (PlannedRule.bodies [followRule])) base ⟨0, 1, k⟩ := by
  intro k
  induction k with
  | zero => exact fun _ => .base (hbase _ (mem_pathRows.mpr (Or.inl rfl)))
  | succ k ih =>
    intro hk
    have hedge : base ⟨k, 2, k + 1⟩ := hbase _ (mem_pathRows.mpr (Or.inr ⟨k, hk, rfl⟩))
    have hinst : Instance (PlannedRule.bodies [followRule]) [⟨0, 1, k⟩, ⟨k, 2, k + 1⟩]
        ⟨0, 1, k + 1⟩ := by
      refine ⟨_, List.mem_cons_self, fun v => if v = 0 then 0 else if v = 1 then k else k + 1, ?_⟩
      exact ⟨rfl, rfl⟩
    refine .step hinst ?_
    rw [List.forall_mem_cons, List.forall_mem_singleton]
    exact ⟨ih (Nat.le_of_succ_le hk), .base hedge⟩

/-- Each round goes one step further down the path. -/
theorem path_stage {base : TripleId → Prop} {n : Nat} (hbase : ∀ t, base t → t ∈ pathRows n)
    (m : Nat) : ∀ t, Stage (Instance (PlannedRule.bodies [followRule])) base m t →
      (t.p = 2 ∧ t.o = t.s + 1) ∨ (t.p = 1 ∧ t.o ≤ m) := by
  induction m with
  | zero =>
    intro t ht
    rcases mem_pathRows.mp (hbase t ht) with rfl | ⟨k, _, rfl⟩
    · exact Or.inr ⟨rfl, Nat.le_refl _⟩
    · exact Or.inl ⟨rfl, rfl⟩
  | succ m ih =>
    rintro t (ht | ⟨ps, ⟨r, hr, σ, rfl, rfl⟩, hps⟩)
    · exact (ih t ht).imp_right fun h => ⟨h.1, Nat.le_succ_of_le h.2⟩
    · rw [PlannedRule.bodies, List.map_singleton, List.mem_singleton] at hr
      subst hr
      have hrow := ih _ (hps _ (List.mem_map_of_mem List.mem_cons_self))
      have hedge := ih _ (hps _ (List.mem_map_of_mem (List.mem_cons_of_mem _ List.mem_cons_self)))
      simp [followRule, TriplePattern.at, Term.at] at hrow hedge ⊢
      omega

theorem run_asserts (l : List TripleId) : ∀ c : Circuit, ∃ log,
    (checked_run (l.map .assert_triple) c).run = .ok { c with log := log } ∧
      log.records.map (fun rec => (rec.triple, rec.mult)) =
        c.log.records.map (fun rec => (rec.triple, rec.mult)) ++ l.map fun t => (t, 1) := by
  induction l with
  | nil => exact fun c => ⟨c.log, rfl, (List.append_nil _).symm⟩
  | cons t l ih =>
    intro c
    obtain ⟨log, hrun, hrecords⟩ := ih (c.assert_triple t)
    refine ⟨log, hrun, hrecords.trans ?_⟩
    rw [assert_triple, DeltaLog.append, List.map_append, List.append_assoc]
    rfl

/-- Asserted in one tick, a path of one step more than the rounds trips the bound, and the tick does
not return. -/
theorem long_path_trips : ∃ c,
    (checked_run ((pathRows MAX_FIXPOINT_ROUNDS).map .assert_triple)
      (start_with false [followRule] [])).run = .ok c ∧
      c.tick = none ∧ ∀ out, c.checked_tick.run ≠ .ok out := by
  obtain ⟨log, hrun, hrecords⟩ := run_asserts (pathRows MAX_FIXPOINT_ROUNDS)
    (start_with false [followRule] [])
  refine ⟨_, hrun, ?_⟩
  have hiff := (run_sound false [followRule] [] _ _ (run_of_checked hrun)).1.tick_isSome
  have hstart : start_with false [followRule] [] =
      { new with plans := [(followRule.plan, 1)] } := rfl
  rw [hstart] at hiff hrecords ⊢
  generalize hc : ({ ({ new with plans := [(followRule.plan, 1)] } : Circuit) with log := log } :
    Circuit) = c at *
  have hext : ∀ t, c.extent.get t = 0 := fun t => by rw [← hc]; rfl
  have hheld : ∀ t, c.Held t ↔ t ∈ pathRows MAX_FIXPOINT_ROUNDS := by
    intro t
    have hno : ¬ Entailed (predicates c.closure_plans)
        (fun t => 0 < c.merge_pending.asserted_base.get t) t := by
      rw [← hc]
      exact fun h => absurd h.1 List.not_mem_nil
    rw [Held, or_iff_left hno, merge_pending_get, batch_delta, show c.log = log by rw [← hc],
      hrecords, show c.asserted_base.get t = 0 by rw [← hc]; exact Zset.get_new t, zero_add]
    rw [show (new.log.records.map fun rec => (rec.triple, rec.mult)) = [] from rfl,
      List.nil_append, from_iter_ones, Int.natCast_pos, List.count_pos_iff]
  have hrestart : ∀ t, Restart (PlannedRule.bodies [followRule])
      (Kept (PlannedRule.bodies [followRule]) c) c.Held t ↔
      t ∈ pathRows MAX_FIXPOINT_ROUNDS := by
    intro t
    have hkept : ∀ u, ¬ Kept (PlannedRule.bodies [followRule]) c u := fun u hk => by
      have := hk.1
      rw [hext] at this
      exact Int.lt_irrefl 0 this
    rw [Restart, ← hheld]
    refine ⟨?_, fun h => Or.inr (Or.inl h)⟩
    rintro (h | h | ⟨ps, ⟨r, hr, σ, rfl, _⟩, hps⟩)
    · exact absurd h (hkept t)
    · exact h
    · rw [PlannedRule.bodies, List.map_singleton, List.mem_singleton] at hr
      subst hr
      exact absurd (hps _ (List.mem_map_of_mem List.mem_cons_self)) (hkept _)
  suffices hnone : c.tick = none by
    refine ⟨hnone, fun out hout => ?_⟩
    rw [← exact_tick, Checked.sound _ _ hout] at hnone
    cases hnone
  rw [← Option.not_isSome_iff_eq_none]
  intro hsome
  have hmode : ¬ c.Recomputes := by
    rw [Recomputes, show c.recompute_fallback = false by rw [← hc]; rfl, Bool.false_and]
    exact Bool.false_ne_true
  have hsettles := ((hiff.mp hsome).2 hmode).2
  have hend := path_stage (fun t ht => (hrestart t).mp ht) DEPTH _
    (hsettles _ (path_end_derived (fun t ht => (hrestart t).mpr ht) MAX_FIXPOINT_ROUNDS le_rfl))
  simp [DEPTH, MAX_FIXPOINT_ROUNDS] at hend

/-- A short path: its tick returns exactly as the theorem says. -/
theorem short_path_iff : ∃ c,
    (checked_run ((pathRows 2).map .assert_triple) (start_with true [followRule] [])).run = .ok c ∧
      ((∃ out, c.checked_tick.run = .ok out ∧
        Closed (PlannedRule.bodies [followRule]) out.circuit.Present) ↔
          Shallow (PlannedRule.bodies [followRule]) c ∧ c.checked_tick.run ≠ .error .overflow ∧
            c.checked_tick.run ≠ .error .index) :=
  ⟨_, rfl, ticks_end_iff_shallow true [followRule] [] ((pathRows 2).map .assert_triple) _ rfl⟩

end horndb.incremental.Circuit
