-- What one edge does to the transitive closure of a relation: the pairs an
-- added edge closes, and the pairs a removed edge can open again.
import Mathlib

open Relation

namespace HornDb.Lib.Reach

variable {α : Type*}

/-- `R` with the edge from `s` to `o`. -/
def WithEdge (R : α → α → Prop) (s o : α) (x y : α) : Prop := (x = s ∧ y = o) ∨ R x y

/-- `R` without the edge from `s` to `o`. -/
def WithoutEdge (R : α → α → Prop) (s o : α) (x y : α) : Prop := ¬ (x = s ∧ y = o) ∧ R x y

/-- A relation between the edges and their closure that is closed under an edge is the closure. -/
theorem closure_of_steps {R S : α → α → Prop} (hedge : ∀ x y, R x y → S x y)
    (hclosure : ∀ x y, S x y → TransGen R x y) (hstep : ∀ x y z, S x y → R y z → S x z) (x y : α) :
    S x y ↔ TransGen R x y := by
  refine ⟨hclosure x y, fun h => ?_⟩
  induction h with
  | single h => exact hedge _ _ h
  | tail _ h ih => exact hstep _ _ _ ih h

theorem transGen_withEdge_of {R : α → α → Prop} {s o x y : α}
    (hx : ReflTransGen R x s) (hy : ReflTransGen R o y) : TransGen (WithEdge R s o) x y := by
  have lift : ∀ {u v}, ReflTransGen R u v → ReflTransGen (WithEdge R s o) u v := by
    intro u v h
    exact ReflTransGen.mono (fun _ _ => Or.inr) _ _ h
  exact (TransGen.tail' (lift hx) (Or.inl ⟨rfl, rfl⟩)).trans_left (lift hy)

/-- A pair is closed over the new edge when it was closed before, or when it goes
through the edge. -/
theorem transGen_withEdge {R : α → α → Prop} {s o x y : α} :
    TransGen (WithEdge R s o) x y ↔
      TransGen R x y ∨ (ReflTransGen R x s ∧ ReflTransGen R o y) := by
  constructor
  · intro h
    induction h with
    | single h =>
      rcases h with ⟨rfl, rfl⟩ | h
      · exact Or.inr ⟨.refl, .refl⟩
      · exact Or.inl (.single h)
    | tail _ h ih =>
      rcases h with ⟨rfl, rfl⟩ | h
      · rcases ih with ih | ⟨hx, _⟩
        · exact Or.inr ⟨ih.to_reflTransGen, .refl⟩
        · exact Or.inr ⟨hx, .refl⟩
      · rcases ih with ih | ⟨hx, hy⟩
        · exact Or.inl (ih.tail h)
        · exact Or.inr ⟨hx, hy.tail h⟩
  · rintro (h | ⟨hx, hy⟩)
    · exact TransGen.mono (fun _ _ => Or.inr) _ _ h
    · exact transGen_withEdge_of hx hy

theorem withEdge_withoutEdge {R : α → α → Prop} {s o : α} (h : R s o) :
    WithEdge (WithoutEdge R s o) s o = R := by
  funext x y
  refine propext ⟨?_, ?_⟩
  · rintro (⟨rfl, rfl⟩ | ⟨_, hxy⟩)
    · exact h
    · exact hxy
  · intro hxy
    by_cases hso : x = s ∧ y = o
    · exact Or.inl hso
    · exact Or.inr ⟨hso, hxy⟩

/-- A closed pair that a removed edge opens had a path to the edge that did not use it,
and a path on from the edge. -/
theorem transGen_withoutEdge_or {R : α → α → Prop} {s o x y : α} (h : R s o)
    (hxy : TransGen R x y) :
    TransGen (WithoutEdge R s o) x y ∨
      (ReflTransGen (WithoutEdge R s o) x s ∧ ReflTransGen (WithoutEdge R s o) o y) := by
  rw [← withEdge_withoutEdge h] at hxy
  exact transGen_withEdge.mp hxy

theorem transGen_of_withoutEdge {R : α → α → Prop} {s o x y : α}
    (h : TransGen (WithoutEdge R s o) x y) : TransGen R x y :=
  TransGen.mono (fun _ _ h => h.2) _ _ h

theorem reflTransGen_of_withoutEdge {R : α → α → Prop} {s o x y : α}
    (h : ReflTransGen (WithoutEdge R s o) x y) : ReflTransGen R x y :=
  ReflTransGen.mono (fun _ _ h => h.2) _ _ h

end HornDb.Lib.Reach
