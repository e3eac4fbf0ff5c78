import Mathlib.Data.Set.Finite.Basic
import Mathlib.Order.WellFoundedSet
import Mathlib.Logic.Relation

/-!
# Acyclic relations

A relation with no cycle and finitely many sources is well-founded (`AcyclicRel.induction`): what
holds of a point once it holds of its predecessors holds everywhere.
-/

/-- No point is reached from itself. -/
def AcyclicRel {α : Type} (r : α → α → Prop) : Prop :=
  ∀ a, ¬ Relation.TransGen r a a

namespace AcyclicRel

open Relation

variable {α : Type} {r r' : α → α → Prop}

theorem mono (h : AcyclicRel r) (hr : ∀ a b, r' a b → r a b) : AcyclicRel r' :=
  fun a ha => h a (TransGen.mono hr a a ha)

theorem of_rank (rank : α → Nat) (hr : ∀ a b, r a b → rank a < rank b) : AcyclicRel r := by
  intro a ha
  have hlt : ∀ b, TransGen r a b → rank a < rank b := by
    intro b hb
    induction hb with
    | single hab => exact hr _ _ hab
    | tail _ hbc ih => exact ih.trans (hr _ _ hbc)
  exact (hlt a ha).false

theorem induction (h : AcyclicRel r) {s : Set α} (hs : s.Finite)
    (hr : ∀ a b, r a b → a ∈ s) {P : α → Prop} (step : ∀ b, (∀ a, r a b → P a) → P b) (b : α) : P b := by
  have hord : IsStrictOrder α (TransGen r) := { irrefl := h, trans := fun _ _ _ => TransGen.trans }
  have hwf : s.WellFoundedOn (TransGen r) := hs.wellFoundedOn
  have hin : ∀ a ∈ s, P a := by
    intro a ha
    refine hwf.induction ha fun b hb ih => step b fun c hc => ?_
    exact ih c (hr c b hc) (.single hc)
  exact step b fun a hab => hin a (hr a b hab)

end AcyclicRel
