import Mathlib.Logic.Relation
import Mathlib.Order.Basic

/-
  Relations that climb.

  A relation whose steps go up in a rank, at least where a
  further step follows, does not come back to where it was.

  Main declarations:
    * `Climbing.rank_lt`, `Climbing.no_cycle`
-/

------------------------------------------------------------
-- Cycles
------------------------------------------------------------

namespace Ns2

namespace Climbing

open Relation

variable {α β : Type*}
variable [Preorder β]
variable {R : α → α → Prop}
variable {rank : α → β}

/- Along a path that goes on, the rank goes up. -/
theorem rank_lt
    (hClimb : ∀ i j k, R i j → R j k → rank i < rank j)
    {i j k : α}
    (hPath : TransGen R i j)
    (hOn : R j k) :
    rank i < rank j := by
  induction hPath generalizing k with
  | single hStep => exact hClimb _ _ _ hStep hOn
  | tail _ hStep ih =>
      exact (ih hStep).trans (hClimb _ _ _ hStep hOn)

theorem no_cycle
    (hClimb : ∀ i j k, R i j → R j k → rank i < rank j)
    (i : α) :
    ¬TransGen R i i := by
  intro hPath
  rcases TransGen.head'_iff.mp hPath with ⟨j, hStep, _⟩
  exact lt_irrefl _ (rank_lt hClimb hPath hStep)

end Climbing

end Ns2
