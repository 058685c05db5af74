import Mathlib.Data.Multiset.Range
import Mathlib.Data.Multiset.MapFold
import Mathlib.Logic.Equiv.Basic
import Mathlib.Logic.Function.Basic
import Mathlib.Order.Defs.LinearOrder
import Mathlib.Tactic.Common

/-
  Implicit binary heaps over an array of cells.

  Cell `i` has parent `(i - 1) / 2` and children `2 * i + 1`
  and `2 * i + 2`.  `Ordered` is the heap order on the first
  `n` cells.  `HoleOrdered` is the heap order off one cell,
  the hole, and is what every sift keeps: upward past the
  hole's parent, downward to the hole's least child.

  Main declarations:
    * `BinHeap.Ordered`, `BinHeap.HoleOrdered`
    * `BinHeap.Ordered.root_le`
    * `BinHeap.HoleOrdered.moveUp`, `BinHeap.HoleOrdered.fill`
    * `BinHeap.HoleOrdered.swapUp`
    * `BinHeap.HoleOrdered.swapDown`
    * `BinHeap.cells_swap`
-/

------------------------------------------------------------
-- Index Arithmetic
------------------------------------------------------------

namespace BinHeap

/- The parent of a cell; the root is its own parent. -/
def parent (i : Nat) : Nat :=
  (i - 1) / 2

/- The left child of a cell. -/
def left (i : Nat) : Nat :=
  2 * i + 1

/- The right child of a cell. -/
def right (i : Nat) : Nat :=
  2 * i + 2

theorem parent_lt
    {i : Nat}
    (hi : 0 < i) :
    parent i < i := by
  unfold parent
  omega

theorem parent_le (i : Nat) : parent i ≤ i := by
  unfold parent
  omega

/- The cells with a given parent are its two children. -/
theorem eq_left_or_right_of_parent
    {c i : Nat}
    (hc : 0 < c)
    (hParent : parent c = i) :
    c = left i ∨ c = right i := by
  unfold parent at hParent
  unfold left right
  omega

@[simp] theorem parent_left (i : Nat) :
    parent (left i) = i := by
  unfold parent left
  omega

@[simp] theorem parent_right (i : Nat) :
    parent (right i) = i := by
  unfold parent right
  omega

theorem lt_left (i : Nat) : i < left i := by
  unfold left
  omega

theorem lt_right (i : Nat) : i < right i := by
  unfold right
  omega

end BinHeap

------------------------------------------------------------
-- Heap Order
------------------------------------------------------------

namespace BinHeap

variable {α κ : Type*} [LinearOrder κ]

/- Every cell below `n` is at or after its parent. -/
def Ordered
    (key : α → κ)
    (cells : Nat → α)
    (n : Nat) : Prop :=
  ∀ i, 0 < i → i < n →
    key (cells (parent i)) ≤ key (cells i)

/-
  The heap order off the hole: pairs that touch neither end
  of the hole are in order, and the hole's children are at
  or after the hole's parent.
-/
structure HoleOrdered
    (key : α → κ)
    (cells : Nat → α)
    (n hole : Nat) : Prop where
  off : ∀ i, 0 < i → i < n → i ≠ hole →
    parent i ≠ hole →
      key (cells (parent i)) ≤ key (cells i)
  across : 0 < hole → ∀ c, 0 < c → c < n →
    parent c = hole →
      key (cells (parent hole)) ≤ key (cells c)

variable {key : α → κ} {cells : Nat → α} {n : Nat}

/- The root of an ordered heap is least. -/
theorem Ordered.root_le
    (hOrdered : Ordered key cells n)
    {i : Nat}
    (hi : i < n) :
    key (cells 0) ≤ key (cells i) := by
  induction i using Nat.strongRecOn with
  | ind i ih =>
      by_cases hRoot : i = 0
      · rw [hRoot]
      · have hPos : 0 < i := Nat.pos_of_ne_zero hRoot
        have hLt : parent i < i := parent_lt hPos
        calc key (cells 0)
            ≤ key (cells (parent i)) :=
              ih (parent i) hLt (hLt.trans hi)
          _ ≤ key (cells i) := hOrdered i hPos hi

/- Any cell of an ordered heap may become the hole. -/
theorem Ordered.toHole
    (hOrdered : Ordered key cells n)
    (hole : Nat)
    (hHole : hole < n) :
    HoleOrdered key cells n hole where
  off := fun i hPos hi _ _ => hOrdered i hPos hi
  across := by
    intro hPos c hcPos hc hParent
    calc key (cells (parent hole))
        ≤ key (cells hole) := hOrdered hole hPos hHole
      _ = key (cells (parent c)) := by rw [hParent]
      _ ≤ key (cells c) := hOrdered c hcPos hc

/- A new last cell is a hole without children. -/
theorem Ordered.toNewHole
    (hOrdered : Ordered key cells n) :
    HoleOrdered key cells (n + 1) n where
  off := by
    intro i hPos hi hNe _
    exact hOrdered i hPos (by omega)
  across := by
    intro _ c hcPos hc hParent
    have hLt : parent c < c := parent_lt hcPos
    omega

/- Dropping the last cell keeps the order off the hole. -/
theorem HoleOrdered.mono
    {hole m : Nat}
    (hHole : HoleOrdered key cells n hole)
    (hm : m ≤ n) :
    HoleOrdered key cells m hole where
  off := fun i hPos hi hNe hParent =>
    hHole.off i hPos (hi.trans_le hm) hNe hParent
  across := fun hPos c hcPos hc hParent =>
    hHole.across hPos c hcPos (hc.trans_le hm) hParent

/- The order off the hole does not read the hole. -/
theorem HoleOrdered.congr
    {hole : Nat}
    {cells' : Nat → α}
    (hHole : HoleOrdered key cells n hole)
    (hEq : ∀ i, i < n → i ≠ hole → cells' i = cells i)
    (hLt : hole < n) :
    HoleOrdered key cells' n hole where
  off := by
    intro i hPos hi hNe hParent
    rw [hEq i hi hNe,
      hEq _ ((parent_le i).trans_lt hi) hParent]
    exact hHole.off i hPos hi hNe hParent
  across := by
    intro hPos c hcPos hc hParent
    have hcNe : c ≠ hole := by
      have := parent_lt hcPos
      omega
    have hpLt : parent hole < hole := parent_lt hPos
    rw [hEq c hc hcNe, hEq _ (by omega) (by omega)]
    exact hHole.across hPos c hcPos hc hParent

/-
  The hole moves up: its parent's value is copied into it,
  and the parent becomes the hole.
-/
theorem HoleOrdered.moveUp
    {hole : Nat}
    (hHole : HoleOrdered key cells n hole)
    (hPos : 0 < hole)
    (hLt : hole < n) :
    HoleOrdered key
      (Function.update cells hole (cells (parent hole)))
      n (parent hole) where
  off := by
    intro i hiPos hi hNe hParent
    have hpLt : parent hole < hole := parent_lt hPos
    by_cases hEq : i = hole
    · exact absurd (congrArg parent hEq) hParent
    · rw [Function.update_of_ne hEq]
      by_cases hChild : parent i = hole
      · rw [hChild, Function.update_self]
        exact hHole.across hPos i hiPos hi hChild
      · rw [Function.update_of_ne hChild]
        exact hHole.off i hiPos hi hEq hChild
  across := by
    intro hpPos c hcPos hc hParent
    have hpLt : parent hole < hole := parent_lt hPos
    have hppLt : parent (parent hole) < parent hole :=
      parent_lt hpPos
    have hUp :
        key (cells (parent (parent hole))) ≤
          key (cells (parent hole)) :=
      hHole.off (parent hole) hpPos (by omega)
        (by omega) (by omega)
    rw [Function.update_of_ne (by omega)]
    by_cases hEq : c = hole
    · rw [hEq, Function.update_self]
      exact hUp
    · rw [Function.update_of_ne hEq]
      have hSibling := hHole.off c hcPos hc hEq
        (by omega)
      rw [hParent] at hSibling
      exact hUp.trans hSibling

/-
  Filling the hole with a value that is at or after the
  hole's parent and at or before the hole's children gives
  an ordered heap.
-/
theorem HoleOrdered.fill
    {hole : Nat}
    (hHole : HoleOrdered key cells n hole)
    (value : α)
    (hAbove : 0 < hole →
      key (cells (parent hole)) ≤ key value)
    (hBelow : ∀ c, 0 < c → c < n → parent c = hole →
      key value ≤ key (cells c)) :
    Ordered key (Function.update cells hole value) n := by
  intro i hPos hi
  by_cases hEq : i = hole
  · subst hEq
    have hLt : parent i < i := parent_lt hPos
    rw [Function.update_self,
      Function.update_of_ne (by omega)]
    exact hAbove hPos
  · rw [Function.update_of_ne hEq]
    by_cases hChild : parent i = hole
    · rw [hChild, Function.update_self]
      exact hBelow i hPos hi hChild
    · rw [Function.update_of_ne hChild]
      exact hHole.off i hPos hi hEq hChild

end BinHeap

------------------------------------------------------------
-- Swaps
------------------------------------------------------------

namespace BinHeap

variable {α κ : Type*}

/- Exchange two cells. -/
def swap
    (cells : Nat → α)
    (i j : Nat) : Nat → α :=
  fun k =>
    if k = i then cells j
    else if k = j then cells i
    else cells k

@[simp] theorem swap_left
    (cells : Nat → α)
    (i j : Nat) :
    swap cells i j i = cells j := by
  simp [swap]

@[simp] theorem swap_right
    (cells : Nat → α)
    (i j : Nat) :
    swap cells i j j = cells i := by
  unfold swap
  split
  · next hEq => rw [hEq]
  · simp

theorem swap_of_ne
    (cells : Nat → α)
    {i j k : Nat}
    (hi : k ≠ i)
    (hj : k ≠ j) :
    swap cells i j k = cells k := by
  simp [swap, hi, hj]

theorem swap_eq_comp
    (cells : Nat → α)
    (i j : Nat) :
    swap cells i j = cells ∘ Equiv.swap i j := by
  funext k
  simp only [swap, Function.comp, Equiv.swap_apply_def]
  split_ifs <;> rfl

/- The values held in the first `n` cells. -/
def contents
    (cells : Nat → α)
    (n : Nat) : Multiset α :=
  (Multiset.range n).map cells

theorem mem_contents_iff
    {cells : Nat → α}
    {n : Nat}
    {a : α} :
    a ∈ contents cells n ↔ ∃ i, i < n ∧ cells i = a := by
  simp [contents]

theorem contents_succ
    (cells : Nat → α)
    (n : Nat) :
    contents cells (n + 1) =
      cells n ::ₘ contents cells n := by
  simp [contents, Multiset.range_succ]

/- The contents only read the first `n` cells. -/
theorem contents_congr
    {cells cells' : Nat → α}
    {n : Nat}
    (hEq : ∀ i, i < n → cells i = cells' i) :
    contents cells n = contents cells' n := by
  apply Multiset.map_congr rfl
  intro i hi
  exact hEq i (Multiset.mem_range.mp hi)

/- Swaps among the first `n` cells keep the contents. -/
theorem contents_swap
    (cells : Nat → α)
    {i j n : Nat}
    (hi : i < n)
    (hj : j < n) :
    contents (swap cells i j) n = contents cells n := by
  have hRange :
      (Multiset.range n).map (Equiv.swap i j) =
        Multiset.range n := by
    apply (Multiset.Nodup.ext
      ((Multiset.nodup_range n).map
        (Equiv.swap i j).injective)
      (Multiset.nodup_range n)).mpr
    intro k
    simp only [Multiset.mem_map, Multiset.mem_range]
    constructor
    · rintro ⟨m, hm, rfl⟩
      rw [Equiv.swap_apply_def]
      split_ifs <;> assumption
    · intro hk
      refine ⟨Equiv.swap i j k, ?_, by simp⟩
      rw [Equiv.swap_apply_def]
      split_ifs <;> assumption
  calc contents (swap cells i j) n
      = ((Multiset.range n).map (Equiv.swap i j)).map
          cells := by
        rw [contents, swap_eq_comp, Multiset.map_map]
    _ = contents cells n := by rw [hRange, contents]

/-
  Copying a cell over the hole and then filling the copied
  cell is a swap of the filled hole.
-/
theorem update_update_eq_swap
    (cells : Nat → α)
    {i j : Nat}
    (hNe : i ≠ j)
    (value : α) :
    Function.update
        (Function.update cells i (cells j)) j value =
      swap (Function.update cells i value) i j := by
  funext k
  by_cases hj : k = j
  · subst hj
    rw [Function.update_self, swap_right,
      Function.update_self]
  · rw [Function.update_of_ne hj]
    by_cases hi : k = i
    · subst hi
      rw [Function.update_self, swap_left,
        Function.update_of_ne hNe.symm]
    · rw [Function.update_of_ne hi, swap_of_ne _ hi hj,
        Function.update_of_ne hi]

variable [LinearOrder κ]
variable {key : α → κ} {cells : Nat → α} {n : Nat}

/- The hole's value is swapped with its parent. -/
theorem HoleOrdered.swapUp
    {hole : Nat}
    (hHole : HoleOrdered key cells n hole)
    (hPos : 0 < hole)
    (hLt : hole < n) :
    HoleOrdered key (swap cells hole (parent hole)) n
      (parent hole) := by
  have hpLt : parent hole < hole := parent_lt hPos
  refine (hHole.moveUp hPos hLt).congr ?_ (by omega)
  intro i _ hNe
  by_cases hEq : i = hole
  · rw [hEq, swap_left, Function.update_self]
  · rw [swap_of_ne _ hEq hNe, Function.update_of_ne hEq]

/- The hole's value is swapped with its least child. -/
theorem HoleOrdered.swapDown
    {hole child : Nat}
    (hHole : HoleOrdered key cells n hole)
    (hcPos : 0 < child)
    (hcLt : child < n)
    (hParent : parent child = hole)
    (hLeast : ∀ c, 0 < c → c < n → parent c = hole →
      key (cells child) ≤ key (cells c)) :
    HoleOrdered key (swap cells hole child) n child where
  off := by
    intro i hPos hi hNe hNotChild
    have hLt : hole < child := hParent ▸ parent_lt hcPos
    have hiLt : parent i < i := parent_lt hPos
    by_cases hEq : i = hole
    · -- the cell above the hole against the risen child
      subst hEq
      rw [swap_left, swap_of_ne _ (by omega) hNotChild]
      exact hHole.across hPos child hcPos hcLt hParent
    · rw [swap_of_ne _ hEq hNe]
      by_cases hSibling : parent i = hole
      · rw [hSibling, swap_left]
        exact hLeast i hPos hi hSibling
      · rw [swap_of_ne _ hSibling hNotChild]
        exact hHole.off i hPos hi hEq hSibling
  across := by
    intro _ c hPos hc hGrand
    have hLt : hole < child := hParent ▸ parent_lt hcPos
    have hcLt' : child < c := hGrand ▸ parent_lt hPos
    rw [hParent, swap_left,
      swap_of_ne _ (by omega) (by omega)]
    have hStep := hHole.off c hPos hc (by omega)
      (by omega)
    rwa [hGrand] at hStep

/-
  A hole whose own value fits between its parent and its
  children is no hole.
-/
theorem HoleOrdered.close
    {hole : Nat}
    (hHole : HoleOrdered key cells n hole)
    (hAbove : 0 < hole →
      key (cells (parent hole)) ≤ key (cells hole))
    (hBelow : ∀ c, 0 < c → c < n → parent c = hole →
      key (cells hole) ≤ key (cells c)) :
    Ordered key cells n := by
  have hFill := hHole.fill (cells hole) hAbove hBelow
  rwa [Function.update_eq_self] at hFill

end BinHeap
