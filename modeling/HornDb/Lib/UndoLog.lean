-- An undo log: the first reading of every name that is touched, and what becomes of the cells when
-- the readings are put back. Several names may stand for one cell.
import Mathlib

namespace HornDb.Lib.UndoLog

variable {ν κ : Type} {key : ν → Option κ} {start now now' : κ → Prop}
  {log log' : List (ν × Bool)} {names : ν → Prop}

/-- A name of the cell has a reading. -/
def Touched (key : ν → Option κ) (log : List (ν × Bool)) (k : κ) : Prop :=
  ∃ e ∈ log, key e.1 = some k

/-- The cells with the readings put back: those read empty first, then those read full. -/
def Undone (key : ν → Option κ) (log : List (ν × Bool)) (now : κ → Prop) (k : κ) : Prop :=
  (now k ∧ ∀ e ∈ log, e.2 = false → key e.1 ≠ some k) ∨ ∃ e ∈ log, e.2 = true ∧ key e.1 = some k

/-- The log keeps up with the cells: a cell without a reading is as it was, and a cell that was
full has been read so. -/
structure Logs (key : ν → Option κ) (start now : κ → Prop) (log : List (ν × Bool)) : Prop where
  untouched : ∀ k, ¬ Touched key log k → (now k ↔ start k)
  found : ∀ k, start k → Touched key log k → ∃ e ∈ log, e.2 = true ∧ key e.1 = some k

/-- Every cell that was read full was full at the start. -/
def Right (key : ν → Option κ) (start : κ → Prop) (log : List (ν × Bool)) : Prop :=
  ∀ e ∈ log, e.2 = true → ∀ k, key e.1 = some k → start k

theorem logs_nil : Logs key now now [] := by
  refine ⟨fun _ _ => Iff.rfl, ?_⟩
  rintro k - ⟨e, he, -⟩
  cases he

/-- Putting the readings back gives the start, if and only if the readings are right. -/
theorem Logs.undone_iff (h : Logs key start now log) :
    (∀ k, Undone key log now k ↔ start k) ↔ Right key start log := by
  constructor
  · intro hback e he htrue k hk
    exact (hback k).mp (Or.inr ⟨e, he, htrue, hk⟩)
  · intro hright k
    constructor
    · rintro (⟨hnow, hfalse⟩ | ⟨e, he, htrue, hk⟩)
      · by_cases ht : Touched key log k
        · obtain ⟨e, he, hk⟩ := ht
          cases hb : e.2 with
          | false => exact absurd hk (hfalse e he hb)
          | true => exact hright e he hb k hk
        · exact (h.untouched k ht).mp hnow
      · exact hright e he htrue k hk
    · intro hstart
      by_cases ht : Touched key log k
      · exact Or.inr (h.found k hstart ht)
      · refine Or.inl ⟨(h.untouched k ht).mpr hstart, ?_⟩
        intro e he _ hk
        exact ht ⟨e, he, hk⟩

/-- A round reads the names that have no reading, and then changes some of their cells. -/
structure Round (key : ν → Option κ) (names : ν → Prop) (now now' : κ → Prop)
    (log log' : List (ν × Bool)) : Prop where
  mem : ∀ e, e ∈ log' ↔ e ∈ log ∨
    names e.1 ∧ (∀ e' ∈ log, e'.1 ≠ e.1) ∧ (e.2 = true ↔ ∃ k, key e.1 = some k ∧ now k)
  kept : ∀ k, (∀ n, names n → key n ≠ some k) → (now' k ↔ now k)

theorem Round.touched (hr : Round key names now now' log log') {k : κ} {n : ν} (hn : names n)
    (hk : key n = some k) : Touched key log' k := by
  by_cases hread : ∃ e ∈ log, e.1 = n
  · obtain ⟨e, he, rfl⟩ := hread
    exact ⟨e, (hr.mem e).mpr (Or.inl he), hk⟩
  · have hno : ∀ e ∈ log, e.1 ≠ n := fun e he heq => hread ⟨e, he, heq⟩
    classical
    refine ⟨(n, decide (∃ k, key n = some k ∧ now k)), (hr.mem _).mpr (Or.inr ?_), hk⟩
    exact ⟨hn, hno, decide_eq_true_iff⟩

theorem Logs.round (h : Logs key start now log) (hr : Round key names now now' log log') :
    Logs key start now' log' := by
  have hmono : ∀ k, Touched key log k → Touched key log' k := by
    rintro k ⟨e, he, hk⟩
    exact ⟨e, (hr.mem e).mpr (Or.inl he), hk⟩
  refine ⟨?_, ?_⟩
  · intro k ht
    rw [← h.untouched k fun hl => ht (hmono k hl)]
    exact hr.kept k fun n hn hk => ht (hr.touched hn hk)
  · rintro k hstart ⟨e, he, hk⟩
    by_cases ht : Touched key log k
    · obtain ⟨e', he', hfull⟩ := h.found k hstart ht
      exact ⟨e', (hr.mem e').mpr (Or.inl he'), hfull⟩
    · rcases (hr.mem e).mp he with hold | ⟨-, -, hlive⟩
      · exact absurd ⟨e, hold, hk⟩ ht
      · exact ⟨e, he, hlive.mpr ⟨k, hk, (h.untouched k ht).mpr hstart⟩, hk⟩

/-- The readings of a round are right, if and only if no name without a reading finds a full cell
that was empty at the start. -/
theorem Right.round_iff (h : Right key start log) (hr : Round key names now now' log log') :
    Right key start log' ↔
      ∀ n, names n → (∀ e ∈ log, e.1 ≠ n) → ∀ k, key n = some k → now k → start k := by
  constructor
  · intro hright n hn hno k hk hnow
    refine hright (n, true) ((hr.mem _).mpr (Or.inr ⟨hn, hno, ?_⟩)) rfl k hk
    exact iff_of_true rfl ⟨k, hk, hnow⟩
  · intro hnew e he htrue k hk
    rcases (hr.mem e).mp he with hold | ⟨hn, hno, hlive⟩
    · exact h e hold htrue k hk
    · obtain ⟨k', hk', hnow⟩ := hlive.mp htrue
      rw [hk] at hk'
      cases hk'
      exact hnew e.1 hn hno k hk hnow

end HornDb.Lib.UndoLog
