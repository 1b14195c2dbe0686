-- Computations over signed words of 64 bits, each kept beside the same computation over the
-- integers: where the checked run returns, it returns the exact value.
import Mathlib

namespace HornDb.Lib.Words

/-- What stops a run: a number that no signed word of 64 bits holds, an index behind the end of a
table, or the bound on the rounds of a loop. -/
inductive Panic where
  | overflow
  | index
  | rounds
deriving DecidableEq, Repr

/-- A run with the checks of the machine, and its exact value, which is none where a loop gives
up. -/
@[ext]
structure Checked (α : Type) where
  run : Except Panic α
  exact : Option α
  sound : ∀ a, run = .ok a → exact = some a
  gives_up : run = .error .rounds → exact = none

namespace Checked

variable {α β σ : Type}

protected def pure (a : α) : Checked α where
  run := .ok a
  exact := some a
  sound := by
    rintro _ ⟨⟩
    rfl
  gives_up h := nomatch h

protected def bind (x : Checked α) (f : α → Checked β) : Checked β where
  run := x.run >>= fun a => (f a).run
  exact := x.exact.bind fun a => (f a).exact
  sound := by
    intro b h
    cases hx : x.run with
    | error e =>
      rw [hx] at h
      cases h
    | ok a =>
      rw [hx] at h
      rw [x.sound a hx]
      exact (f a).sound b h
  gives_up := by
    intro h
    cases hx : x.run with
    | error e =>
      rw [hx] at h
      cases h
      rw [x.gives_up hx]
      rfl
    | ok a =>
      rw [hx] at h
      rw [x.sound a hx]
      exact (f a).gives_up h

instance : Monad Checked where
  pure := Checked.pure
  bind := Checked.bind

/-- A number that has to fit. -/
def i64 (n : Int) : Checked Int where
  run := if -2 ^ 63 ≤ n ∧ n < 2 ^ 63 then .ok n else .error .overflow
  exact := some n
  sound := by
    intro a h
    split at h
    · cases h
      rfl
    · cases h
  gives_up := by
    intro h
    split at h
    · cases h
    · cases h

/-- Look at the place `i` of a table of `n` places. -/
def index (i n : Nat) : Checked Unit where
  run := if i < n then .ok () else .error .index
  exact := some ()
  sound _ _ := rfl
  gives_up := by
    intro h
    split at h
    · cases h
    · cases h

/-- The bound on the rounds is reached. -/
def give_up : Checked α where
  run := .error .rounds
  exact := none
  sound _ h := nomatch h
  gives_up _ := rfl

/-! ## The exact value -/

section Exact

@[simp]
theorem exact_pure (a : α) : (pure a : Checked α).exact = some a := rfl

@[simp]
theorem exact_bind (x : Checked α) (f : α → Checked β) :
    (x >>= f).exact = x.exact.bind fun a => (f a).exact := rfl

@[simp]
theorem exact_map (f : α → β) (x : Checked α) : (f <$> x).exact = x.exact.map f := by
  show (x.exact.bind fun a => some (f a)) = _
  cases x.exact with
  | none => rfl
  | some a => rfl

@[simp]
theorem exact_ite {p : Prop} [Decidable p] (x y : Checked α) :
    (if p then x else y).exact = if p then x.exact else y.exact := apply_ite exact p x y

@[simp]
theorem exact_i64 (n : Int) : (i64 n).exact = some n := rfl

@[simp]
theorem exact_index (i n : Nat) : (index i n).exact = some () := rfl

/-- A pass is exact where each of its steps is. -/
theorem exact_foldlM {f : σ → α → Checked σ} {g : σ → α → σ}
    (h : ∀ s a, (f s a).exact = some (g s a)) (l : List α) :
    ∀ s, (l.foldlM f s).exact = some (l.foldl g s) := by
  induction l with
  | nil => exact fun s => rfl
  | cons a l ih =>
    intro s
    rw [List.foldlM_cons, exact_bind, h, Option.bind_some, ih, List.foldl_cons]

end Exact

instance : LawfulMonad Checked := LawfulMonad.mk' _
  (fun x => Checked.ext (id_map x.run) (Option.bind_fun_some x.exact))
  (fun _ _ => rfl)
  (fun x f g => Checked.ext (bind_assoc x.run (fun a => (f a).run) fun b => (g b).run)
    (Option.bind_assoc x.exact (fun a => (f a).exact) fun b => (g b).exact))

theorem exact_mapM {f : α → Checked β} {g : α → β}
    (h : ∀ a, (f a).exact = some (g a)) (l : List α) : (l.mapM f).exact = some (l.map g) := by
  induction l with
  | nil => rfl
  | cons a l ih =>
    rw [List.mapM_cons, exact_bind, h, Option.bind_some, exact_bind, ih]
    rfl

/-! ## The run -/

theorem run_bind_ok {x : Checked α} {f : α → Checked β} {b : β} :
    (x >>= f).run = .ok b ↔ ∃ a, x.run = .ok a ∧ (f a).run = .ok b := by
  show (x.run >>= fun a => (f a).run) = .ok b ↔ _
  cases x.run with
  | error e => exact iff_of_false (fun h => nomatch h) fun ⟨_, h, _⟩ => nomatch h
  | ok a =>
    constructor
    · exact fun h => ⟨a, rfl, h⟩
    · rintro ⟨_, ⟨⟩, h⟩
      exact h

/-- The run returns a value that passes the test. -/
def returns_with (x : Checked α) (test : α → Bool) : Bool :=
  match x.run with
  | .ok a => test a
  | .error _ => false

theorem returns_with_iff {x : Checked α} {test : α → Bool} :
    x.returns_with test = true ↔ ∃ a, x.run = .ok a ∧ test a = true := by
  unfold returns_with
  cases x.run with
  | ok a => simp
  | error e => simp

/-- The run does not end in this panic. -/
def Avoids (e : Panic) (x : Checked α) : Prop := x.run ≠ .error e

section Avoids

variable {e : Panic}

theorem avoids_pure (a : α) : (pure a : Checked α).Avoids e := nofun

theorem avoids_i64 {n : Int} (h : e = .overflow → n.natAbs < 2 ^ 63) : (i64 n).Avoids e := by
  show (if _ then _ else _) ≠ _
  split
  · exact nofun
  · rename_i hout
    rintro ⟨⟩
    have := h rfl
    omega

theorem avoids_index {i n : Nat} (h : e = .index → i < n) : (index i n).Avoids e := by
  show (if _ then _ else _) ≠ _
  split
  · exact nofun
  · rename_i hout
    rintro ⟨⟩
    exact hout (h rfl)

theorem Avoids.bind {x : Checked α} {f : α → Checked β} (hx : x.Avoids e)
    (hf : ∀ a, x.run = .ok a → (f a).Avoids e) : (x >>= f).Avoids e := by
  show (x.run >>= fun a => (f a).run) ≠ _
  cases hrun : x.run with
  | error e' =>
    intro h
    cases h
    exact hx hrun
  | ok a => exact hf a hrun

theorem avoids_foldlM {f : σ → α → Checked σ} {l : List α} (h : ∀ a ∈ l, ∀ s, (f s a).Avoids e) :
    ∀ s, (l.foldlM f s).Avoids e := by
  induction l with
  | nil => exact avoids_pure
  | cons a l ih =>
    intro s
    rw [List.forall_mem_cons] at h
    rw [List.foldlM_cons]
    exact (h.1 s).bind fun s _ => ih h.2 s

theorem avoids_mapM {f : α → Checked β} (h : ∀ a, (f a).Avoids e) (l : List α) :
    (l.mapM f).Avoids e := by
  induction l with
  | nil => exact avoids_pure _
  | cons a l ih =>
    rw [List.mapM_cons]
    exact (h a).bind fun _ _ => ih.bind fun _ _ => avoids_pure _

/-- A run with an exact value that stays inside its tables returns it, or some number does not
fit. -/
theorem Avoids.returns_or {x : Checked α} (h : x.Avoids .index) {a : α}
    (hexact : x.exact = some a) : x.run = .ok a ∨ x.run = .error .overflow := by
  cases hx : x.run with
  | ok b =>
    have hb := (x.sound b hx).symm.trans hexact
    exact Or.inl (congrArg _ (Option.some.inj hb))
  | error e =>
    cases e with
    | overflow => exact Or.inr rfl
    | index => exact absurd hx h
    | rounds =>
      rw [x.gives_up hx] at hexact
      cases hexact

end Avoids

end Checked

end HornDb.Lib.Words
