-- What a plan built from a rule body counts: the ways the body's patterns match the
-- extent one after the other. The counts do not depend on the order the planner chose
-- for which rows they are positive at, nor on which rows lose one.
import HornDb.PlanDeltas

open HornDb.Lib.Pairing

namespace horndb.incremental

/-! ## Substitutions -/

def Term.at (σ : Nat → Nat) : Term → Nat
  | .Bound id => id
  | .Var v => σ v

/-- The triple that a substitution makes of a pattern. -/
def TriplePattern.at (σ : Nat → Nat) (q : TriplePattern) : TripleId :=
  ⟨q.s.at σ, q.p.at σ, q.o.at σ⟩

/-- The substitution agrees with the table where the table is bound. -/
def Bindings.Under (b : Bindings) (σ : Nat → Nat) : Prop := ∀ v n, b v = some n → σ v = n

theorem bind_slots_iff {slots : List (Term × Nat)} {b : Bindings} {σ : Nat → Nat} :
    (∃ c, bind_slots slots b = some c ∧ c.Under σ) ↔
      b.Under σ ∧ ∀ e ∈ slots, e.1.at σ = e.2 := by
  induction slots generalizing b with
  | nil => simp [bind_slots]
  | cons e rest ih =>
    obtain ⟨t, val⟩ := e
    rw [List.forall_mem_cons]
    cases t with
    | Bound id =>
      rw [bind_slots]
      by_cases hid : id = val
      · rw [if_pos hid, ih]
        simp [Term.at, hid]
      · rw [if_neg hid]
        simp [Term.at, hid]
    | Var v =>
      rw [bind_slots, Bindings.set]
      cases hb : b v with
      | some n =>
        dsimp only
        by_cases hn : n = val
        · rw [if_pos hn]
          dsimp only
          rw [ih]
          constructor
          · rintro ⟨hu, hrest⟩
            exact ⟨hu, (hu v n hb).trans hn, hrest⟩
          · rintro ⟨hu, _, hrest⟩
            exact ⟨hu, hrest⟩
        · rw [if_neg hn]
          dsimp only
          constructor
          · rintro ⟨c, hc, _⟩
            cases hc
          · rintro ⟨hu, hv, _⟩
            exact absurd ((hu v n hb).symm.trans hv) hn
      | none =>
        dsimp only
        rw [ih]
        constructor
        · rintro ⟨hu, hrest⟩
          refine ⟨?_, hu v val (Function.update_self ..), hrest⟩
          intro w n hw
          refine hu w n ?_
          rw [Function.update_of_ne]
          · exact hw
          · rintro rfl
            rw [hb] at hw
            cases hw
        · rintro ⟨hu, hv, hrest⟩
          refine ⟨?_, hrest⟩
          intro w n hw
          by_cases hwv : w = v
          · subst hwv
            rw [Function.update_self] at hw
            cases hw
            exact hv
          · rw [Function.update_of_ne hwv] at hw
            exact hu w n hw

theorem slots_at_iff {q : TriplePattern} {t : TripleId} {σ : Nat → Nat} :
    (∀ e ∈ q.slots t, e.1.at σ = e.2) ↔ q.at σ = t := by
  obtain ⟨s, p, o⟩ := t
  simp [TriplePattern.slots, TriplePattern.at]

theorem Bindings.default_under (σ : Nat → Nat) : Bindings.default.Under σ :=
  fun _ _ h => nomatch h

theorem eval_head_under {q : TriplePattern} {b : Bindings} {σ : Nat → Nat} (hu : b.Under σ)
    (hbound : ∀ v ∈ vars_in q, (b v).isSome) : eval_head q b = q.at σ := by
  have hterm : ∀ t : Term, (t = q.s ∨ t = q.p ∨ t = q.o) → eval_term b t = t.at σ := by
    intro t ht
    cases t with
    | Bound id => rfl
    | Var v =>
      obtain ⟨n, hn⟩ := Option.isSome_iff_exists.mp (hbound v (mem_vars_in.mpr ht))
      rw [eval_term, Term.at, hn, hu v n hn, Option.getD_some]
  rw [eval_head, TriplePattern.at, hterm q.s (Or.inl rfl), hterm q.p (Or.inr (Or.inl rfl)),
    hterm q.o (Or.inr (Or.inr rfl))]

/-! ## Counting the matches of a list of patterns -/

/-- The number of ways to match the patterns in order against `E` on top of a table, each
weighed by the counts of its rows, that give the head `t`. -/
noncomputable def countFrom (E : TripleId →₀ ℤ) (head : TriplePattern) (t : TripleId) :
    Bindings → List TriplePattern → ℤ
  | b, [] => if eval_head head b = t then 1 else 0
  | b, q :: qs =>
    weigh E fun y => (bind_slots (q.slots y) b).elim 0 fun c => countFrom E head t c qs

/-- The rows match the patterns in order on top of a table and give the head `t`. -/
def Matches (head : TriplePattern) (t : TripleId) :
    Bindings → List TriplePattern → List TripleId → Prop
  | b, [], [] => eval_head head b = t
  | b, q :: qs, y :: ys => ∃ c, bind_slots (q.slots y) b = some c ∧ Matches head t c qs ys
  | _, _, _ => False

theorem countFrom_nonneg {E : TripleId →₀ ℤ} (hE : ∀ x, 0 ≤ E x) (head : TriplePattern)
    (t : TripleId) (b : Bindings) (qs : List TriplePattern) : 0 ≤ countFrom E head t b qs := by
  induction qs generalizing b with
  | nil =>
    rw [countFrom]
    split <;> decide
  | cons q qs ih =>
    rw [countFrom]
    refine weigh_nonneg hE fun y => ?_
    cases bind_slots (q.slots y) b with
    | none => exact le_rfl
    | some c => exact ih c

/-- A count is positive exactly when some present rows match. -/
theorem countFrom_pos_iff {E : TripleId →₀ ℤ} (hE : ∀ x, 0 ≤ E x) {head : TriplePattern}
    {t : TripleId} {b : Bindings} {qs : List TriplePattern} :
    0 < countFrom E head t b qs ↔ ∃ ys, Matches head t b qs ys ∧ ∀ y ∈ ys, 0 < E y := by
  induction qs generalizing b with
  | nil =>
    rw [countFrom]
    constructor
    · intro h
      refine ⟨[], ?_, by simp⟩
      by_contra hno
      rw [Matches] at hno
      rw [if_neg hno] at h
      exact lt_irrefl _ h
    · rintro ⟨ys, hm, _⟩
      cases ys with
      | nil =>
        rw [Matches] at hm
        rw [if_pos hm]
        decide
      | cons y ys => exact hm.elim
  | cons q qs ih =>
    rw [countFrom, weigh_pos_iff hE]
    · constructor
      · rintro ⟨y, hy, hc⟩
        cases hb : bind_slots (q.slots y) b with
        | none => simp [hb] at hc
        | some c =>
          rw [hb, Option.elim_some, ih] at hc
          obtain ⟨ys, hm, hpos⟩ := hc
          exact ⟨y :: ys, ⟨c, hb, hm⟩, List.forall_mem_cons.mpr ⟨hy, hpos⟩⟩
      · rintro ⟨ys, hm, hpos⟩
        cases ys with
        | nil => exact hm.elim
        | cons y ys =>
          obtain ⟨c, hc, hm⟩ := hm
          rw [List.forall_mem_cons] at hpos
          refine ⟨y, hpos.1, ?_⟩
          rw [hc, Option.elim_some, ih]
          exact ⟨ys, hm, hpos.2⟩
    · intro y
      cases bind_slots (q.slots y) b with
      | none => exact le_rfl
      | some c => exact countFrom_nonneg hE head t c qs

/-- More rows match at least as often, and more often exactly when some rows that all
count now match and one of them counts more. -/
theorem countFrom_le_and_lt_iff (E E' : TripleId →₀ ℤ) (hE : ∀ x, 0 ≤ E x)
    (hle : ∀ x, E x ≤ E' x) (head : TriplePattern) (t : TripleId) (b : Bindings)
    (qs : List TriplePattern) :
    countFrom E head t b qs ≤ countFrom E' head t b qs ∧
      (countFrom E head t b qs < countFrom E' head t b qs ↔
        ∃ ys, Matches head t b qs ys ∧ (∀ y ∈ ys, 0 < E' y) ∧ ∃ y ∈ ys, E y < E' y) := by
  have hE' : ∀ x, 0 ≤ E' x := fun x => (hE x).trans (hle x)
  induction qs generalizing b with
  | nil =>
    rw [countFrom, countFrom]
    refine ⟨le_rfl, fun h => absurd h (lt_irrefl _), ?_⟩
    rintro ⟨ys, hm, _, y, hy, _⟩
    cases ys with
    | nil => cases hy
    | cons y ys => exact hm.elim
  | cons q qs ih =>
    rw [countFrom, countFrom]
    generalize hf : (fun y => (bind_slots (q.slots y) b).elim 0 fun c =>
      countFrom E head t c qs) = f
    generalize hf' : (fun y => (bind_slots (q.slots y) b).elim 0 fun c =>
      countFrom E' head t c qs) = f'
    have hnn : ∀ y, 0 ≤ f y ∧ f y ≤ f' y := by
      intro y
      subst hf hf'
      dsimp only
      cases bind_slots (q.slots y) b with
      | none => exact ⟨le_rfl, le_rfl⟩
      | some c => exact ⟨countFrom_nonneg hE head t c qs, (ih _).1⟩
    obtain ⟨hle', hlt'⟩ := weigh_le_and_lt_iff E E' f f'
      fun y => mul_le_mul (hle y) (hnn y).2 (hnn y).1 (hE' y)
    refine ⟨hle', hlt'.trans ?_⟩
    -- One point weighs more: its row counts more, or the rest matches more often.
    have hpoint : ∀ y, E y * f y < E' y * f' y ↔
        0 < E' y ∧ 0 < f' y ∧ (E y < E' y ∨ f y < f' y) := by
      intro y
      constructor
      · intro h
        have hpos : 0 < E' y * f' y := lt_of_le_of_lt (mul_nonneg (hE y) (hnn y).1) h
        refine ⟨pos_of_mul_pos_left hpos ((hnn y).1.trans (hnn y).2),
          pos_of_mul_pos_right hpos (hE' y), ?_⟩
        by_contra hno
        rw [not_or, not_lt, not_lt] at hno
        exact absurd h (not_lt.mpr (mul_le_mul hno.1 hno.2 ((hnn y).1.trans (hnn y).2) (hE y)))
      · rintro ⟨hy, hfy, h | h⟩
        · calc E y * f y ≤ E y * f' y := mul_le_mul_of_nonneg_left (hnn y).2 (hE y)
            _ < E' y * f' y := mul_lt_mul_of_pos_right h hfy
        · calc E y * f y ≤ E' y * f y := mul_le_mul_of_nonneg_right (hle y) (hnn y).1
            _ < E' y * f' y := mul_lt_mul_of_pos_left h hy
    have hmore : ∀ y, (0 < f' y ↔ ∃ c ys, bind_slots (q.slots y) b = some c ∧
          Matches head t c qs ys ∧ ∀ z ∈ ys, 0 < E' z) ∧
        (f y < f' y ↔ ∃ c ys, bind_slots (q.slots y) b = some c ∧ Matches head t c qs ys ∧
          (∀ z ∈ ys, 0 < E' z) ∧ ∃ z ∈ ys, E z < E' z) := by
      intro y
      subst hf hf'
      dsimp only
      cases bind_slots (q.slots y) b with
      | none => simp
      | some c =>
        rw [Option.elim_some, Option.elim_some, countFrom_pos_iff hE', (ih _).2]
        simp
    constructor
    · rintro ⟨y, hy⟩
      obtain ⟨hpos, hfpos, hor⟩ := (hpoint y).mp hy
      rcases hor with hor | hor
      · obtain ⟨c, ys, hc, hm, hys⟩ := (hmore y).1.mp hfpos
        exact ⟨y :: ys, ⟨c, hc, hm⟩, List.forall_mem_cons.mpr ⟨hpos, hys⟩, y,
          List.mem_cons_self, hor⟩
      · obtain ⟨c, ys, hc, hm, hys, z, hz, hlt⟩ := (hmore y).2.mp hor
        exact ⟨y :: ys, ⟨c, hc, hm⟩, List.forall_mem_cons.mpr ⟨hpos, hys⟩, z,
          List.mem_cons_of_mem _ hz, hlt⟩
    · rintro ⟨ys, hm, hpos, z, hz, hlt⟩
      cases ys with
      | nil => exact hm.elim
      | cons y ys =>
        obtain ⟨c, hc, hm⟩ := hm
        rw [List.forall_mem_cons] at hpos
        refine ⟨y, (hpoint y).mpr ⟨hpos.1, (hmore y).1.mpr ⟨c, ys, hc, hm, hpos.2⟩, ?_⟩⟩
        rcases List.mem_cons.mp hz with rfl | hz
        · exact Or.inl hlt
        · exact Or.inr ((hmore y).2.mpr ⟨c, ys, hc, hm, hpos.2, z, hz, hlt⟩)

/-- The rows that match are the instances of the patterns under a substitution. -/
theorem matches_iff {head : TriplePattern} {t : TripleId} {qs : List TriplePattern}
    {b : Bindings} {ys : List TripleId}
    (hbound : ∀ v ∈ vars_in head, (b v).isSome ∨ ∃ q ∈ qs, v ∈ vars_in q) :
    Matches head t b qs ys ↔
      ∃ σ, b.Under σ ∧ ys = qs.map (TriplePattern.at σ) ∧ head.at σ = t := by
  induction qs generalizing b ys with
  | nil =>
    have hb : ∀ v ∈ vars_in head, (b v).isSome := by simpa using hbound
    cases ys with
    | nil =>
      rw [Matches]
      constructor
      · intro h
        have hu : b.Under fun v => (b v).getD 0 := by
          intro v n hn
          dsimp only
          rw [hn, Option.getD_some]
        exact ⟨_, hu, rfl, by rw [← eval_head_under hu hb, h]⟩
      · rintro ⟨σ, hu, _, h⟩
        rw [eval_head_under hu hb, h]
    | cons y ys => simp [Matches]
  | cons q qs ih =>
    cases ys with
    | nil => simp [Matches]
    | cons y ys =>
      rw [Matches]
      have hbound' : ∀ c, bind_slots (q.slots y) b = some c →
          ∀ v ∈ vars_in head, (c v).isSome ∨ ∃ q ∈ qs, v ∈ vars_in q := by
        intro c hc v hv
        rw [bind_slots_bound hc, slot_vars_slots]
        rcases hbound v hv with h | ⟨q', hq', h⟩
        · exact Or.inl (Or.inl h)
        · rcases List.mem_cons.mp hq' with rfl | hq'
          · exact Or.inl (Or.inr h)
          · exact Or.inr ⟨q', hq', h⟩
      simp only [List.map_cons, List.cons.injEq]
      constructor
      · rintro ⟨c, hc, hm⟩
        obtain ⟨σ, hu, hys, ht⟩ := (ih (hbound' c hc)).mp hm
        obtain ⟨hb, hy⟩ := bind_slots_iff.mp ⟨c, hc, hu⟩
        exact ⟨σ, hb, ⟨(slots_at_iff.mp hy).symm, hys⟩, ht⟩
      · rintro ⟨σ, hu, ⟨rfl, rfl⟩, ht⟩
        obtain ⟨c, hc, hu'⟩ := bind_slots_iff.mpr ⟨hu, slots_at_iff.mpr rfl⟩
        exact ⟨c, hc, (ih (hbound' c hc)).mpr ⟨σ, hu', rfl, ht⟩⟩

end horndb.incremental
