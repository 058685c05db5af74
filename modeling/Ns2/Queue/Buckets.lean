import Mathlib.Algebra.BigOperators.Ring.Finset
import Mathlib.Algebra.Order.BigOperators.Group.Finset
import Mathlib.Algebra.Order.Group.Abs
import Mathlib.Algebra.Order.Ring.Int

/-
  What the queues with buckets share.

  Main declarations:
    * `Buckets.sum_update`
    * `Buckets.entered`
-/

------------------------------------------------------------
-- Buckets
------------------------------------------------------------

namespace Ns2

namespace Buckets

variable {n : Nat}

/- The sum over all buckets when one of them changes. -/
theorem sum_update
    {f g : Fin n → Int}
    {k : Fin n}
    {d : Int}
    (hk : g k = f k + d)
    (hSame : ∀ i, i ≠ k → g i = f i) :
    ∑ i, g i = (∑ i, f i) + d := by
  have hEach : ∀ i, g i = f i + (if i = k then d else 0) := by
    intro i
    by_cases hi : i = k
    · rw [hi, hk, if_pos rfl]
    · rw [hSame i hi, if_neg hi, add_zero]
  calc ∑ i, g i
      = ∑ i, (f i + (if i = k then d else 0)) :=
        Finset.sum_congr rfl fun i _ => hEach i
    _ = (∑ i, f i) + ∑ i, (if i = k then d else 0) :=
        Finset.sum_add_distrib
    _ = (∑ i, f i) + d := by
        rw [Finset.sum_ite_eq' Finset.univ k,
          if_pos (Finset.mem_univ k)]

/- The turns after a packet for a bucket. -/
def entered
    (order : List (Fin n))
    (which : Fin n) : List (Fin n) :=
  if which ∈ order then order else order ++ [which]

theorem mem_entered
    {order : List (Fin n)}
    {which i : Fin n} :
    i ∈ entered order which ↔ i = which ∨ i ∈ order := by
  unfold entered
  split_ifs with hMem
  · constructor
    · exact Or.inr
    · rintro (rfl | hi)
      · exact hMem
      · exact hi
  · rw [List.mem_append, List.mem_singleton, or_comm]

end Buckets

end Ns2
