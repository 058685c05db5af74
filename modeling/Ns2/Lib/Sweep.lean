import Mathlib.Data.List.Nodup
import Mathlib.Tactic.Common

/-
  Loops that change one cell in each pass.

  Main declarations:
    * `sweep_cell`
-/

namespace Ns2

variable {σ ι α : Type}
variable [DecidableEq ι]

/- Each cell is changed in the pass that belongs to it. -/
theorem sweep_cell
    {step : σ → ι → σ}
    {cell : σ → ι → α}
    {change : ι → α → α}
    {kept : σ → Prop}
    {passes : List ι}
    (hKept : ∀ s i, i ∈ passes → kept s → kept (step s i))
    (hHere : ∀ s i, i ∈ passes → kept s →
      cell (step s i) i = change i (cell s i))
    (hElse : ∀ s i j, i ∈ passes → kept s → j ≠ i →
      cell (step s i) j = cell s j)
    (hNodup : passes.Nodup)
    {s : σ}
    (hs : kept s) :
    kept (passes.foldl step s) ∧
      ∀ j, cell (passes.foldl step s) j =
        if j ∈ passes then change j (cell s j)
        else cell s j := by
  induction passes generalizing s with
  | nil => exact ⟨hs, fun j => by simp⟩
  | cons i rest ih =>
      rcases List.nodup_cons.mp hNodup with
        ⟨hFresh, hRest⟩
      have hFirst := hKept s i List.mem_cons_self hs
      rcases ih
          (fun s k hk => hKept s k (List.mem_cons_of_mem _ hk))
          (fun s k hk => hHere s k (List.mem_cons_of_mem _ hk))
          (fun s k j hk =>
            hElse s k j (List.mem_cons_of_mem _ hk))
          hRest hFirst with
        ⟨hEnd, hCells⟩
      refine ⟨hEnd, fun j => ?_⟩
      rw [List.foldl_cons, hCells j]
      by_cases hSame : j = i
      · subst hSame
        rw [if_neg hFresh, if_pos List.mem_cons_self]
        exact hHere s j List.mem_cons_self hs
      · have hMem : j ∈ i :: rest ↔ j ∈ rest := by
          simp [hSame]
        rw [hElse s i j List.mem_cons_self hs hSame]
        simp only [hMem]

end Ns2
