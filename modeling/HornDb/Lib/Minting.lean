-- Names out of a counter: a call takes the next name, or the name that its key was given before.
import Mathlib

namespace HornDb.Lib.Minting

variable {κ α : Type} [DecidableEq κ]

/-- How many names were given, and the names of the keys. -/
structure Minter (κ α : Type) where
  memo : List (κ × α)
  minted : Nat

namespace Minter

def start : Minter κ α := ⟨[], 0⟩

def next (name : Nat → α) (m : Minter κ α) : α × Minter κ α :=
  (name m.minted, { m with minted := m.minted + 1 })

/-- The answer to a call, with a key or without one. -/
def answer (name : Nat → α) (m : Minter κ α) : Option κ → α × Minter κ α
  | none => m.next name
  | some k =>
    match m.memo.lookup k with
    | some a => (a, m)
    | none =>
      let (a, m) := m.next name
      (a, { m with memo := (k, a) :: m.memo })

end Minter

/-- The calls of one key. -/
def SameKey (c d : Option κ) : Prop := ∃ k, c = some k ∧ d = some k

/-- What a log of calls and answers says of the minter that gave them. -/
structure Fits (name : Nat → α) (log : List (Option κ × α)) (m : Minter κ α) : Prop where
  keys : (m.memo.map Prod.fst).Nodup
  memo : ∀ k a, (k, a) ∈ m.memo ↔ (some k, a) ∈ log
  names : ∀ a, (∃ c, (c, a) ∈ log) ↔ ∃ i < m.minted, name i = a
  minted : m.minted = log.countP (fun e => e.1.isNone) + m.memo.length
  apart : log.Pairwise fun e f => e.2 = f.2 ↔ SameKey e.1 f.1

omit [DecidableEq κ] in
theorem fits_start (name : Nat → α) : Fits name [] (Minter.start : Minter κ α) where
  keys := List.nodup_nil
  memo k a := by simp [Minter.start]
  names a := by simp [Minter.start]
  minted := rfl
  apart := List.Pairwise.nil

section Steps

variable {name : Nat → α} {log : List (Option κ × α)} {m : Minter κ α}

omit [DecidableEq κ] in
/-- The next name is none of the names given. -/
theorem Fits.next_new (h : Fits name log m) (hname : Function.Injective name)
    {e : Option κ × α} (he : e ∈ log) : e.2 ≠ name m.minted := by
  intro heq
  obtain ⟨i, hi, hin⟩ := (h.names e.2).mp ⟨e.1, he⟩
  exact absurd (hname (hin.trans heq)) hi.ne

omit [DecidableEq κ] in
theorem Fits.names_next (h : Fits name log m) (c : Option κ) (a : α) :
    (∃ d, (d, a) ∈ log ++ [(c, name m.minted)]) ↔ ∃ i < m.minted + 1, name i = a := by
  constructor
  · rintro ⟨d, hd⟩
    rcases List.mem_append.mp hd with hd | hd
    · obtain ⟨i, hi, rfl⟩ := (h.names a).mp ⟨d, hd⟩
      exact ⟨i, Nat.lt_succ_of_lt hi, rfl⟩
    · rw [List.mem_singleton, Prod.mk.injEq] at hd
      exact ⟨m.minted, Nat.lt_succ_self _, hd.2.symm⟩
  · rintro ⟨i, hi, rfl⟩
    rcases Nat.lt_succ_iff_lt_or_eq.mp hi with hi | rfl
    · obtain ⟨d, hd⟩ := (h.names _).mpr ⟨i, hi, rfl⟩
      exact ⟨d, List.mem_append_left _ hd⟩
    · exact ⟨c, List.mem_append_right _ List.mem_cons_self⟩

omit [DecidableEq κ] in
theorem Fits.apart_append (h : Fits name log m) {c : Option κ} {a : α}
    (hnew : ∀ e ∈ log, e.2 = a ↔ SameKey e.1 c) :
    (log ++ [(c, a)]).Pairwise fun e f => e.2 = f.2 ↔ SameKey e.1 f.1 := by
  rw [List.pairwise_append]
  refine ⟨h.apart, List.pairwise_singleton _ _, fun e he f hf => ?_⟩
  rw [List.mem_singleton.mp hf]
  exact hnew e he

/-- A call without a key. -/
theorem Fits.fresh (h : Fits name log m) (hname : Function.Injective name) :
    Fits name (log ++ [(none, (m.answer name none).1)]) (m.answer name none).2 where
  keys := h.keys
  memo k a := by
    rw [Minter.answer, Minter.next, h.memo]
    simp
  names := h.names_next none
  minted := by
    rw [Minter.answer, Minter.next]
    simp only [List.countP_append, List.countP_singleton, Option.isNone_none, if_true, h.minted]
    omega
  apart := by
    refine h.apart_append fun e he => ?_
    refine ⟨fun heq => absurd heq (h.next_new hname he), ?_⟩
    rintro ⟨k, -, hk⟩
    cases hk

omit [DecidableEq κ] in
theorem SameKey.symm {c d : Option κ} (h : SameKey c d) : SameKey d c := by
  obtain ⟨k, hc, hd⟩ := h
  exact ⟨k, hd, hc⟩

omit [DecidableEq κ] in
theorem Fits.apart_of_ne (h : Fits name log m) {e f : Option κ × α} (he : e ∈ log) (hf : f ∈ log)
    (hne : e ≠ f) : e.2 = f.2 ↔ SameKey e.1 f.1 := by
  have hsymm : Std.Symm fun e f : Option κ × α => e.2 = f.2 ↔ SameKey e.1 f.1 :=
    ⟨fun e f h => ⟨fun heq => (h.mp heq.symm).symm, fun hkey => (h.mpr hkey.symm).symm⟩⟩
  exact h.apart.forall he hf hne

/-- A key that has its name keeps it. -/
theorem Fits.known (h : Fits name log m) {k : κ} {a : α} (hlook : m.memo.lookup k = some a) :
    Fits name (log ++ [(some k, a)]) m := by
  have hlog : (some k, a) ∈ log := by
    obtain ⟨l₁, l₂, heq, -⟩ := List.lookup_eq_some_iff.mp hlook
    rw [← h.memo, heq]
    exact List.mem_append_right _ List.mem_cons_self
  have hmem (e : Option κ × α) : e ∈ log ++ [(some k, a)] ↔ e ∈ log := by
    rw [List.mem_append, List.mem_singleton]
    refine ⟨?_, Or.inl⟩
    rintro (he | rfl)
    · exact he
    · exact hlog
  refine ⟨h.keys, fun k' a' => ?_, fun a' => ?_, ?_, h.apart_append fun e he => ?_⟩
  · rw [hmem, h.memo]
  · simp only [hmem, h.names]
  · rw [h.minted, List.countP_append, List.countP_singleton]
    rfl
  · by_cases hne : e = (some k, a)
    · rw [hne]
      exact ⟨fun _ => ⟨k, rfl, rfl⟩, fun _ => rfl⟩
    · exact h.apart_of_ne he hlog hne

/-- A key without a name takes the next one. -/
theorem Fits.unknown (h : Fits name log m) (hname : Function.Injective name) {k : κ}
    (hlook : m.memo.lookup k = none) : Fits name (log ++ [(some k, name m.minted)])
      ⟨(k, name m.minted) :: m.memo, m.minted + 1⟩ := by
  have hno (a : α) : (k, a) ∉ m.memo := by
    intro hin
    have hne := List.lookup_eq_none_iff.mp hlook _ hin
    simp at hne
  refine ⟨?_, fun k' a' => ?_, h.names_next (some k), ?_, h.apart_append fun e he => ?_⟩
  · rw [List.map_cons, List.nodup_cons]
    refine ⟨fun hin => ?_, h.keys⟩
    obtain ⟨e, hmem, heq⟩ := List.mem_map.mp hin
    obtain ⟨k', a⟩ := e
    cases heq
    exact hno a hmem
  · rw [List.mem_cons, h.memo, List.mem_append, List.mem_singleton, or_comm]
    simp only [Prod.mk.injEq, Option.some.injEq]
  · rw [List.countP_append, List.countP_singleton, List.length_cons, h.minted]
    simp only [Option.isNone_some, Bool.false_eq_true, if_false]
    omega
  · refine ⟨fun heq => absurd heq (h.next_new hname he), ?_⟩
    rintro ⟨k', hk, heq⟩
    cases heq
    exact absurd ((h.memo k e.2).mpr (by rw [← hk]; exact he)) (hno e.2)

theorem Fits.answer (h : Fits name log m) (hname : Function.Injective name) (c : Option κ) :
    Fits name (log ++ [(c, (m.answer name c).1)]) (m.answer name c).2 := by
  cases c with
  | none => exact h.fresh hname
  | some k =>
    rw [Minter.answer]
    cases hlook : m.memo.lookup k with
    | some a => exact h.known hlook
    | none => exact h.unknown hname hlook

end Steps

/-! ## What a log says by itself -/

section Logs

variable {name : Nat → α} {log : List (Option κ × α)} {m : Minter κ α}

omit [DecidableEq κ] in
/-- A call leaves no counter at its start. -/
theorem Fits.minted_pos (h : Fits name log m) (hne : log ≠ []) : 0 < m.minted := by
  obtain ⟨e, he⟩ := List.exists_mem_of_ne_nil log hne
  obtain ⟨i, hi, -⟩ := (h.names e.2).mp ⟨e.1, he⟩
  exact i.zero_le.trans_lt hi

/-- The names given: one for each call without a key, and one for each key. -/
theorem Fits.minted_eq (h : Fits name log m) :
    m.minted = log.countP (fun e => e.1.isNone) + (log.filterMap Prod.fst).dedup.length := by
  have hperm : (m.memo.map Prod.fst).Perm (log.filterMap Prod.fst).dedup := by
    rw [List.perm_ext_iff_of_nodup h.keys (List.nodup_dedup _)]
    intro k
    simp only [List.mem_map, List.mem_dedup, List.mem_filterMap, Prod.exists, exists_and_right,
      exists_eq_right, h.memo]
  rw [h.minted, ← hperm.length_eq, List.length_map]

end Logs

end HornDb.Lib.Minting
