import Ns2.Routing.Correctness
import Mathlib.Data.List.ProdSigma

/-
  The matrix of link costs grows with the node numbers.

  Inserting and removing links keeps the other costs and the
  bounds on costs, also when the matrix grows; the entries of
  links are lost then.

  Main declarations:
    * `RouteLogic.check_adj`
    * `RouteLogic.Links.insert`, `RouteLogic.Links.reset`
-/

------------------------------------------------------------
-- Growing
------------------------------------------------------------

namespace Ns2

namespace RouteLogic

variable {ε : Type}
variable {r : RouteLogic ε}
variable {n m i j src dst : Nat}

theorem doubled_spec
    (hPos : 0 < m) :
    n < doubled n m ∧ m ≤ doubled n m := by
  induction m using doubled.induct (n := n) with
  | case1 m hMore ih =>
      rw [doubled, if_pos hMore]
      have hTwice := ih (by omega)
      omega
  | case2 m hEnough =>
      rw [doubled, if_neg hEnough]
      omega

/- The size after a node number has been checked. -/
def grown (r : RouteLogic ε) (n : Nat) : Nat :=
  doubled n (if r.size_ = 0 then 16 else r.size_)

theorem grown_spec :
    n < r.grown n ∧ r.size_ ≤ r.grown n := by
  unfold grown
  by_cases hZero : r.size_ = 0
  · rw [if_pos hZero]
    have hSpec := @doubled_spec n 16 (by decide)
    omega
  · rw [if_neg hZero]
    exact doubled_spec (Nat.pos_of_ne_zero hZero)

theorem check_enough
    (hLess : n < r.size_) : r.check n = r :=
  if_pos hLess

theorem check_size_grown
    (hMore : ¬ n < r.size_) :
    (r.check n).size_ = r.grown n := by
  rw [check, if_neg hMore]
  rfl

/- A larger matrix has the old costs, and no entries. -/
theorem check_adj
    (hMore : ¬ n < r.size_)
    (hj : j < r.grown n) :
    (r.check n).ADJ i j =
        (if i < r.size_ ∧ j < r.size_ then r.ADJ i j
          else INFINITY) ∧
      (r.check n).ADJ_ENTRY i j = none := by
  have hGrown := @grown_spec ε r n
  have hSweep :=
    @sweep_cell (Nat → adj_entry ε) (Nat × Nat)
      (Option (adj_entry ε)) _
      (fun adj ij =>
        Function.update adj (INDEX ij.1 ij.2 (r.grown n))
          { adj (INDEX ij.1 ij.2 (r.grown n)) with
            cost := r.ADJ ij.1 ij.2 })
      (fun adj ij =>
        if ij.2 < r.grown n then
          some (adj (INDEX ij.1 ij.2 (r.grown n)))
        else none)
      (fun ij old => old.map fun entry =>
        { entry with cost := r.ADJ ij.1 ij.2 })
      (fun _ => True)
      ((List.range r.size_).product (List.range r.size_))
      ?_ ?_ ?_ ?_ (fun _ => ⟨INFINITY, none⟩) trivial
  · have hCell := hSweep.2 (i, j)
    simp only [if_pos hj, Option.map_some] at hCell
    have hMem :
        (i, j) ∈ (List.range r.size_).product
            (List.range r.size_) ↔
          i < r.size_ ∧ j < r.size_ := by
      rw [List.pair_mem_product, List.mem_range,
        List.mem_range]
    have hEntry :
        (r.check n).adj_ (INDEX i j (r.check n).size_) =
          if i < r.size_ ∧ j < r.size_ then
            ⟨r.ADJ i j, none⟩
          else ⟨INFINITY, none⟩ := by
      rw [check_size_grown hMore, check, if_neg hMore]
      by_cases hInside : i < r.size_ ∧ j < r.size_
      · rw [if_pos (hMem.mpr hInside)] at hCell
        rw [if_pos hInside]
        exact Option.some.inj hCell
      · rw [if_neg (fun h => hInside (hMem.mp h))] at hCell
        rw [if_neg hInside]
        exact Option.some.inj hCell
    unfold ADJ ADJ_ENTRY
    rw [hEntry]
    by_cases hInside : i < r.size_ ∧ j < r.size_
    · rw [if_pos hInside, if_pos hInside]
      exact ⟨rfl, rfl⟩
    · rw [if_neg hInside, if_neg hInside]
      exact ⟨rfl, rfl⟩
  · exact fun _ _ _ _ => trivial
  · rintro adj ⟨a, b⟩ hMem _
    have hb : b < r.grown n := by
      have hRange :=
        (List.pair_mem_product.mp hMem).2
      rw [List.mem_range] at hRange
      omega
    simp only [if_pos hb, Function.update_self,
      Option.map_some]
  · rintro adj ⟨a, b⟩ ⟨a', b'⟩ hMem _ hNe
    have hb : b < r.grown n := by
      have hRange :=
        (List.pair_mem_product.mp hMem).2
      rw [List.mem_range] at hRange
      omega
    by_cases hb' : b' < r.grown n
    · have hIndex :
          INDEX a' b' (r.grown n) ≠ INDEX a b (r.grown n) := by
        intro hSame
        have hRow := INDEX_row hb' hb hSame
        subst hRow
        exact hNe (by rw [INDEX_inj hSame])
      simp only [if_pos hb', Function.update_of_ne hIndex]
    · simp only [if_neg hb']
  · exact List.nodup_range.product List.nodup_range

theorem Links.check
    (hLinks : r.Links) : (r.check n).Links := by
  by_cases hEnough : n < r.size_
  · rw [check_enough hEnough]
    exact hLinks
  · intro u v hu hv hPresent
    have hv' : v < r.grown n := by
      rw [← check_size_grown hEnough]
      exact hv.2
    have hAdj := (check_adj (i := u) hEnough hv').1
    by_cases hInside : u < r.size_ ∧ v < r.size_
    · rw [if_pos hInside] at hAdj
      rw [hAdj] at hPresent ⊢
      exact hLinks u v ⟨hu.1, hInside.1⟩ ⟨hv.1, hInside.2⟩
        hPresent
    · rw [if_neg hInside] at hAdj
      exact absurd hAdj hPresent

/- Writing one cost that is allowed, or none. -/
theorem Links.update
    {entry : adj_entry ε}
    (hLinks : r.Links)
    (hCost :
      entry.cost = INFINITY ∨
        0 < entry.cost ∧ entry.cost < INFINITY) :
    Links
      { r with
        adj_ :=
          Function.update r.adj_ (INDEX src dst r.size_)
            entry } := by
  intro u v hu hv
  by_cases hHere :
      INDEX u v r.size_ = INDEX src dst r.size_
  · unfold ADJ
    simp only [hHere, Function.update_self]
    exact fun hPresent => hCost.resolve_left hPresent
  · unfold ADJ
    simp only [Function.update_of_ne hHere]
    exact hLinks u v hu hv

theorem Links.insert
    {cost : Rat}
    {entry_ : Option ε}
    (hLinks : r.Links)
    (hPos : 0 < cost)
    (hBelow : cost < INFINITY) :
    (r.insert src dst cost entry_).Links :=
  hLinks.check.check.update (Or.inr ⟨hPos, hBelow⟩)

theorem Links.reset
    (hLinks : r.Links) : (r.reset src dst).Links :=
  hLinks.update (Or.inl rfl)

end RouteLogic

end Ns2
