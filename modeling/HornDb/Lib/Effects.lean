-- Computations over a state that may stop with an error: what one ensures of the state that
-- it leaves, whether it ends or stops, and the rules that compose this.
import Mathlib

namespace HornDb.Lib.Effects

variable {ε σ α β : Type} {P P' : σ → Prop} {Q Q' : α → σ → Prop} {R : β → σ → Prop}
  {R' : σ → σ → Prop} {U E : σ → Prop}

/-- From a state with `P`, the computation ends with `Q`, or it stops in a state with `E`. -/
def Ensures (P : σ → Prop) (m : ExceptT ε (StateM σ) α) (Q : α → σ → Prop) (E : σ → Prop) :
    Prop :=
  ∀ s, P s →
    match m.run.run s with
    | (.ok a, s') => Q a s'
    | (.error _, s') => E s'

theorem Ensures.pure {a : α} (h : ∀ s, P s → Q a s) :
    Ensures P (pure a : ExceptT ε (StateM σ) α) Q E := h

theorem Ensures.throw {e : ε} (h : ∀ s, P s → E s) :
    Ensures P (throw e : ExceptT ε (StateM σ) α) Q E := h

theorem Ensures.get (h : ∀ s, P s → R' s s) :
    Ensures P (MonadState.get : ExceptT ε (StateM σ) σ) R' E := h

theorem Ensures.set {s' : σ} (h : ∀ s, P s → U s') :
    Ensures P (MonadStateOf.set s' : ExceptT ε (StateM σ) PUnit) (fun _ => U) E := h

theorem Ensures.modify {f : σ → σ} (h : ∀ s, P s → U (f s)) :
    Ensures P (MonadState.modifyGet (fun s => (PUnit.unit, f s)) : ExceptT ε (StateM σ) PUnit)
      (fun _ => U) E := h

theorem Ensures.bind {m : ExceptT ε (StateM σ) α} {f : α → ExceptT ε (StateM σ) β}
    (hm : Ensures P m Q E) (hf : ∀ a, Ensures (Q a) (f a) R E) : Ensures P (m >>= f) R E := by
  intro s hs
  have h := hm s hs
  change match ((m >>= f).run.run s) with
    | (.ok b, s') => R b s'
    | (.error _, s') => E s'
  rw [ExceptT.run_bind, StateT.run_bind]
  change match (match (m.run.run s).1 with
      | .ok a => (f a).run
      | .error e => Pure.pure (.error e)).run (m.run.run s).2 with
    | (.ok b, s') => R b s'
    | (.error _, s') => E s'
  cases hrun : m.run.run s with
  | mk out s' =>
    rw [hrun] at h
    cases out with
    | ok a => exact hf a s' h
    | error e => exact h

theorem Ensures.imp {m : ExceptT ε (StateM σ) α} (h : Ensures P m Q E) (hp : ∀ s, P' s → P s)
    (hq : ∀ a s, Q a s → Q' a s) : Ensures P' m Q' E := by
  intro s hs
  have hm := h s (hp s hs)
  cases hrun : m.run.run s with
  | mk out s' =>
    rw [hrun] at hm
    cases out with
    | ok a => exact hq a s' hm
    | error e => exact hm

theorem Ensures.stops {E' : σ → Prop} {m : ExceptT ε (StateM σ) α} (h : Ensures P m Q E)
    (he : ∀ s, E s → E' s) : Ensures P m Q E' := by
  intro s hs
  have hm := h s hs
  cases hrun : m.run.run s with
  | mk out s' =>
    rw [hrun] at hm
    cases out with
    | ok a => exact hm
    | error e => exact he s' hm

/-- What holds of every state before may be assumed. -/
theorem Ensures.given {p : Prop} {m : ExceptT ε (StateM σ) α} (h : p → Ensures P m Q E) :
    Ensures (fun s => p ∧ P s) m Q E := fun s hs => h hs.1 s hs.2

/-- A loop over a list, with what holds after the entries done. -/
theorem Ensures.forM {τ : Type} {I : List τ → σ → Prop} {f : τ → ExceptT ε (StateM σ) PUnit}
    (l : List τ)
    (h : ∀ done x, done ++ [x] <+: l → Ensures (I done) (f x) (fun _ => I (done ++ [x])) E) :
    Ensures (I []) (l.forM f) (fun _ => I l) E := by
  have run : ∀ (rest done : List τ), done ++ rest = l →
      Ensures (I done) (rest.forM f) (fun _ => I l) E := by
    intro rest
    induction rest with
    | nil =>
      intro done hdone
      rw [List.append_nil] at hdone
      rw [List.forM_eq_forM, List.forM_nil, hdone]
      exact .pure fun _ hs => hs
    | cons x rest ih =>
      intro done hdone
      rw [List.forM_eq_forM, List.forM_cons]
      refine .bind (h done x ⟨rest, ?_⟩) fun _ => ih (done ++ [x]) ?_
      · simp [hdone]
      · simp [hdone]
  exact run l [] rfl

/-- A loop that collects what its steps give, and keeps what holds of the state. -/
theorem Ensures.mapM {τ : Type} {I : σ → Prop} {f : τ → ExceptT ε (StateM σ) α} (l : List τ)
    (h : ∀ x ∈ l, Ensures I (f x) (fun _ => I) I) : Ensures I (l.mapM f) (fun _ => I) I := by
  induction l with
  | nil =>
    rw [List.mapM_nil]
    exact .pure fun _ hs => hs
  | cons x l ih =>
    rw [List.mapM_cons]
    refine .bind (h x List.mem_cons_self) fun a => ?_
    refine .bind (ih fun y hy => h y (List.mem_cons_of_mem _ hy)) fun as => ?_
    exact .pure fun _ hs => hs

end HornDb.Lib.Effects
