import Ns2.Common.Heap.Operations

/-
  Correctness of the binary heap under deletion.

  `Heap.Ordered` is the heap order on the composite key.
  Every operation keeps it and changes the multiset of
  stored cells by exactly one cell.  Deletion first moves
  its victim to the root, which leaves the root path shifted
  by one and ordered off the root; this is the state the
  root extraction repairs.

  Main declarations:
    * `Heap.Ordered`, `Heap.contents`
    * `Heap.heapInsert_spec`
    * `Heap.heapExtractMin_spec`
    * `Heap.heapDelete_spec`
    * `Heap.heap_run_correct`
-/

------------------------------------------------------------
-- Composite Keys
------------------------------------------------------------

namespace Ns2

namespace Heap

variable {K E : Type}
variable [LinearOrder K]

/- The key a cell is compared by. -/
def compositeKey (a : HeapElem K E) : K ×ₗ Nat :=
  toLex (a.heKey, a.heSKey)

theorem cellLess_iff
    (a b : HeapElem K E) :
    cellLess a b = true ↔
      compositeKey a < compositeKey b := by
  simp [cellLess, keyLessThan, compositeKey,
    Prod.Lex.toLex_lt_toLex]

theorem cellLess_eq_false_iff
    (a b : HeapElem K E) :
    cellLess a b = false ↔
      compositeKey b ≤ compositeKey a := by
  rw [← not_lt, ← cellLess_iff, Bool.not_eq_true]

@[simp] theorem parent_eq (i : Nat) :
    parent i = BinHeap.parent i := rfl

@[simp] theorem left_eq (i : Nat) :
    left i = BinHeap.left i := by
  simp only [left, BinHeap.left]
  omega

@[simp] theorem right_eq (i : Nat) :
    right i = BinHeap.right i := by
  simp only [right, BinHeap.right]
  omega

/- Every stored cell is at or after its parent. -/
def Ordered (h : Heap K E) : Prop :=
  BinHeap.Ordered compositeKey h.hElems h.hSize

/- The stored cells. -/
def contents (h : Heap K E) : Multiset (HeapElem K E) :=
  BinHeap.contents h.hElems h.hSize

/- The heap order off the cell `hole`. -/
def HoleOrdered
    (h : Heap K E)
    (hole : Nat) : Prop :=
  BinHeap.HoleOrdered compositeKey h.hElems h.hSize hole

omit [LinearOrder K] in
@[simp] theorem swap_hSize
    (h : Heap K E)
    (i j : Nat) :
    (h.swap i j).hSize = h.hSize := rfl

omit [LinearOrder K] in
@[simp] theorem swap_hElems
    (h : Heap K E)
    (i j : Nat) :
    (h.swap i j).hElems = BinHeap.swap h.hElems i j := rfl

/- Swapping two stored cells keeps the stored multiset. -/
omit [LinearOrder K] in
theorem contents_swap
    (h : Heap K E)
    {i j : Nat}
    (hi : i < h.hSize)
    (hj : j < h.hSize) :
    (h.swap i j).contents = h.contents :=
  BinHeap.contents_swap h.hElems hi hj

end Heap

end Ns2

------------------------------------------------------------
-- Sift Down
------------------------------------------------------------

namespace Ns2

namespace Heap

variable {K E : Type}
variable [LinearOrder K]

/- The chosen child is a child, and no child is less. -/
theorem tryChild_least
    (h : Heap K E)
    {i : Nat}
    (hNe : h.tryChild i ≠ i) :
    BinHeap.parent (h.tryChild i) = i ∧
      ∀ c, 0 < c → c < h.hSize → BinHeap.parent c = i →
        compositeKey (h.hElems (h.tryChild i)) ≤
          compositeKey (h.hElems c) := by
  unfold tryChild at hNe ⊢
  simp only [left_eq, right_eq] at hNe ⊢
  have hLeftRight :
      BinHeap.left i < BinHeap.right i := by
    simp only [BinHeap.left, BinHeap.right]
    omega
  split_ifs at hNe ⊢ with hRight hLess hLeft
  · refine ⟨BinHeap.parent_left i, ?_⟩
    intro c hPos _ hParent
    rcases BinHeap.eq_left_or_right_of_parent hPos hParent
      with rfl | rfl
    · exact le_rfl
    · exact ((cellLess_iff _ _).mp hLess).le
  · refine ⟨BinHeap.parent_right i, ?_⟩
    intro c hPos _ hParent
    rcases BinHeap.eq_left_or_right_of_parent hPos hParent
      with rfl | rfl
    · rw [Bool.not_eq_true] at hLess
      exact (cellLess_eq_false_iff _ _).mp hLess
    · exact le_rfl
  · refine ⟨BinHeap.parent_left i, ?_⟩
    intro c hPos hc hParent
    rcases BinHeap.eq_left_or_right_of_parent hPos hParent
      with rfl | rfl
    · exact le_rfl
    · exact absurd hc hRight
  · exact absurd rfl hNe

/- When no child is chosen, the cell has no children. -/
theorem no_child_of_tryChild_eq
    (h : Heap K E)
    {i c : Nat}
    (hEq : h.tryChild i = i)
    (hPos : 0 < c)
    (hc : c < h.hSize) :
    BinHeap.parent c ≠ i := by
  intro hParent
  have hLt := BinHeap.lt_left i
  have hLt' := BinHeap.lt_right i
  have hLeftRight :
      BinHeap.left i < BinHeap.right i := by
    simp only [BinHeap.left, BinHeap.right]
    omega
  unfold tryChild at hEq
  simp only [left_eq, right_eq] at hEq
  rcases BinHeap.eq_left_or_right_of_parent hPos hParent
    with rfl | rfl
  · split_ifs at hEq <;> omega
  · split_ifs at hEq <;> omega

/-
  The sift-down from a hole whose value is at or after its
  parent ends in an ordered heap with the same cells.
-/
theorem heapify_spec
    (h : Heap K E)
    (i : Nat)
    (hHole : h.HoleOrdered i)
    (hAbove : 0 < i →
      compositeKey (h.hElems (BinHeap.parent i)) ≤
        compositeKey (h.hElems i)) :
    (h.heapify i).Ordered ∧
      (h.heapify i).contents = h.contents := by
  induction h, i using heapify.induct with
  | case1 h i hi x hSink ih =>
      have hBounds := h.tryChild_bounds hSink.1
      have hLeast := h.tryChild_least hSink.1
      have hLess :
          compositeKey (h.hElems x) <
            compositeKey (h.hElems i) :=
        (cellLess_iff _ _).mp hSink.2
      have hNext : (h.swap i x).HoleOrdered x :=
        BinHeap.HoleOrdered.swapDown hHole
          (Nat.zero_lt_of_lt hBounds.1) hBounds.2
          hLeast.1 hLeast.2
      have hNextAbove : 0 < x →
          compositeKey ((h.swap i x).hElems
              (BinHeap.parent x)) ≤
            compositeKey ((h.swap i x).hElems x) := by
        intro _
        rw [swap_hElems, hLeast.1, BinHeap.swap_left,
          BinHeap.swap_right]
        exact hLess.le
      have hDone := ih hNext hNextAbove
      have hStep :
          h.heapify i = (h.swap i x).heapify x := by
        rw [heapify, if_pos hi]
        exact if_pos hSink
      rw [hStep]
      exact ⟨hDone.1,
        hDone.2.trans (h.contents_swap hi hBounds.2)⟩
  | case2 h i hi x hStop =>
      have hStep : h.heapify i = h := by
        rw [heapify, if_pos hi]
        exact if_neg hStop
      rw [hStep]
      refine ⟨hHole.close hAbove ?_, rfl⟩
      intro c hPos hc hParent
      by_cases hNe : h.tryChild i = i
      · exact absurd hParent
          (h.no_child_of_tryChild_eq hNe hPos hc)
      · have hNotLess :
            cellLess (h.hElems (h.tryChild i))
              (h.hElems i) = false :=
          Bool.eq_false_iff.mpr
            (fun hLess => hStop ⟨hNe, hLess⟩)
        calc compositeKey (h.hElems i)
            ≤ compositeKey (h.hElems (h.tryChild i)) :=
              (cellLess_eq_false_iff _ _).mp hNotLess
          _ ≤ compositeKey (h.hElems c) :=
              (h.tryChild_least hNe).2 c hPos hc hParent
  | case3 h i hi =>
      rw [heapify, if_neg hi]
      refine ⟨hHole.close hAbove ?_, rfl⟩
      intro c hPos hc hParent
      have hLt := BinHeap.parent_lt hPos
      omega

end Heap

end Ns2

------------------------------------------------------------
-- Root Extraction
------------------------------------------------------------

namespace Ns2

namespace Heap

variable {K E : Type}
variable [LinearOrder K]

omit [LinearOrder K] in
theorem mem_contents_iff
    {h : Heap K E}
    {a : HeapElem K E} :
    a ∈ h.contents ↔
      ∃ i, i < h.hSize ∧ h.hElems i = a :=
  BinHeap.mem_contents_iff

/- The stored cells are the root and the others. -/
omit [LinearOrder K] in
theorem contents_eq_root_cons
    (h : Heap K E)
    (hPos : 0 < h.hSize) :
    h.contents =
      h.hElems 0 ::ₘ
        BinHeap.contents
          (Function.update h.hElems 0
            (h.hElems (h.hSize - 1))) (h.hSize - 1) := by
  obtain ⟨n, hn⟩ : ∃ n, h.hSize = n + 1 :=
    ⟨h.hSize - 1, by omega⟩
  unfold contents
  rw [hn, Nat.add_sub_cancel]
  -- exchange the root with the last cell, then split it off
  rw [← BinHeap.contents_swap h.hElems
    (Nat.succ_pos n) (Nat.lt_succ_self n),
    BinHeap.contents_succ, BinHeap.swap_right]
  congr 1
  apply BinHeap.contents_congr
  intro i hi
  by_cases hRoot : i = 0
  · rw [hRoot, BinHeap.swap_left, Function.update_self]
  · rw [BinHeap.swap_of_ne _ hRoot (by omega),
      Function.update_of_ne hRoot]

/-
  Extracting the root of a heap that is ordered off the root
  removes exactly the root cell and restores the order.
-/
theorem heapExtractMin_of_rootHole
    (h : Heap K E)
    (hHole : h.HoleOrdered 0)
    (hPos : 0 < h.hSize) :
    h.heapExtractMin.1 = some (h.hElems 0).heElem ∧
      h.heapExtractMin.2.Ordered ∧
      h.contents =
        h.hElems 0 ::ₘ h.heapExtractMin.2.contents := by
  let h' : Heap K E :=
    { h with
      hElems := Function.update h.hElems 0
        (h.hElems (h.hSize - 1))
      hSize := h.hSize - 1 }
  have hStep :
      h.heapExtractMin =
        (some (h.hElems 0).heElem, h'.heapify 0) := by
    rw [heapExtractMin, if_neg (by omega)]
  have hHole' : h'.HoleOrdered 0 := by
    by_cases hOne : h.hSize = 1
    · refine ⟨?_, ?_⟩
      · intro i _ hi
        change i < h.hSize - 1 at hi
        omega
      · intro hAbsurd
        exact absurd hAbsurd (lt_irrefl 0)
    · refine (hHole.mono (Nat.sub_le _ 1)).congr ?_ ?_
      · intro i _ hNe
        exact Function.update_of_ne hNe _ _
      · omega
  have hDone := h'.heapify_spec 0 hHole'
    (fun hAbsurd => absurd hAbsurd (lt_irrefl 0))
  rw [hStep]
  refine ⟨rfl, hDone.1, ?_⟩
  rw [hDone.2]
  exact h.contents_eq_root_cons hPos

/-
  Extraction from an ordered heap answers a stored cell with
  a least composite key and removes exactly that cell.
-/
theorem heapExtractMin_spec
    (h : Heap K E)
    (hOrdered : h.Ordered)
    (hPos : 0 < h.hSize) :
    h.heapExtractMin.2.Ordered ∧
      ∃ m ∈ h.contents,
        (∀ x ∈ h.contents,
          compositeKey m ≤ compositeKey x) ∧
        h.heapExtractMin.1 = some m.heElem ∧
        h.contents = m ::ₘ h.heapExtractMin.2.contents := by
  have hDone := h.heapExtractMin_of_rootHole
    (hOrdered.toHole 0 hPos) hPos
  refine ⟨hDone.2.1, h.hElems 0, ?_, ?_, hDone.1,
    hDone.2.2⟩
  · exact mem_contents_iff.mpr ⟨0, hPos, rfl⟩
  · intro x hx
    rcases mem_contents_iff.mp hx with ⟨i, hi, rfl⟩
    exact hOrdered.root_le hi

/- Extraction from an empty heap answers nothing. -/
theorem heapExtractMin_empty
    (h : Heap K E)
    (hEmpty : h.hSize = 0) :
    h.heapExtractMin = (none, h) := by
  rw [heapExtractMin, if_pos hEmpty]

end Heap

end Ns2

------------------------------------------------------------
-- Insertion
------------------------------------------------------------

namespace Ns2

namespace Heap

variable {K E : Type}
variable [LinearOrder K]

/-
  The percolation of a new cell ends at a place that fits
  its composite key; the cells on its way move down by one.
-/
theorem percolate_spec
    (cells : Nat → HeapElem K E)
    (value : HeapElem K E)
    (n i : Nat)
    (hHole : BinHeap.HoleOrdered compositeKey cells n i)
    (hi : i < n)
    (hBelow : ∀ c, 0 < c → c < n → BinHeap.parent c = i →
      compositeKey value ≤ compositeKey (cells c)) :
    BinHeap.Ordered compositeKey
        (Function.update
          (percolate cells value.heKey value.heSKey i).1
          (percolate cells value.heKey value.heSKey i).2
          value) n ∧
      BinHeap.contents
          (Function.update
            (percolate cells value.heKey value.heSKey i).1
            (percolate cells value.heKey value.heSKey i).2
            value) n =
        BinHeap.contents
          (Function.update cells i value) n := by
  induction cells, i using
      percolate.induct value.heKey value.heSKey with
  | case1 cells i hClimb ih =>
      have hLt : BinHeap.parent i < i :=
        BinHeap.parent_lt hClimb.1
      have hLess :
          compositeKey value <
            compositeKey (cells (BinHeap.parent i)) :=
        (cellLess_iff value _).mp hClimb.2
      have hDone := ih (hHole.moveUp hClimb.1 hi)
        (hLt.trans hi) (by
          intro c hPos hc hParent
          rw [parent_eq] at hParent ⊢
          by_cases hEq : c = i
          · rw [hEq, Function.update_self]
            exact hLess.le
          · rw [Function.update_of_ne hEq]
            have hOff := hHole.off c hPos hc hEq
              (by omega)
            rw [hParent] at hOff
            exact hLess.le.trans hOff)
      rw [percolate, if_pos hClimb]
      refine ⟨hDone.1, hDone.2.trans ?_⟩
      rw [parent_eq, BinHeap.update_update_eq_swap cells
        (by omega) value]
      exact BinHeap.contents_swap _ hi (hLt.trans hi)
  | case2 cells i hStop =>
      rw [percolate, if_neg hStop]
      refine ⟨hHole.fill value ?_ hBelow, rfl⟩
      intro hPos
      have hNotLess :
          cellLess value (cells (parent i)) = false :=
        Bool.eq_false_iff.mpr
          (fun hLess => hStop ⟨hPos, hLess⟩)
      exact (cellLess_eq_false_iff _ _).mp hNotLess

omit [LinearOrder K] in
@[simp] theorem grow_hElems (h : Heap K E) :
    h.grow.hElems = h.hElems := by
  unfold grow
  split <;> rfl

omit [LinearOrder K] in
@[simp] theorem grow_hSize (h : Heap K E) :
    h.grow.hSize = h.hSize := by
  unfold grow
  split <;> rfl

omit [LinearOrder K] in
@[simp] theorem grow_hSKey (h : Heap K E) :
    h.grow.hSKey = h.hSKey := by
  unfold grow
  split <;> rfl

/-
  Insertion adds exactly the stamped cell and keeps the
  heap order.
-/
theorem heapInsert_spec
    (h : Heap K E)
    (key : K)
    (elem : E)
    (hOrdered : h.Ordered) :
    (h.heapInsert key elem).Ordered ∧
      (h.heapInsert key elem).contents =
        ⟨key, h.hSKey, elem⟩ ::ₘ h.contents := by
  have hDone := percolate_spec h.hElems
    ⟨key, h.hSKey, elem⟩ (h.hSize + 1) h.hSize
    hOrdered.toNewHole (Nat.lt_succ_self _) (by
      intro c hPos hc hParent
      have hLt := BinHeap.parent_lt hPos
      omega)
  unfold heapInsert Ordered contents
  simp only [grow_hElems, grow_hSize, grow_hSKey]
  refine ⟨hDone.1, hDone.2.trans ?_⟩
  rw [BinHeap.contents_succ, Function.update_self]
  congr 1
  apply BinHeap.contents_congr
  intro i hi
  exact Function.update_of_ne (by omega) _ _

end Heap

end Ns2

------------------------------------------------------------
-- Deletion
------------------------------------------------------------

namespace Ns2

namespace Heap

variable {K E : Type}
variable [LinearOrder K] [DecidableEq E]

/-
  Swapping the element of cell `i` up to the root keeps the
  order off that element and the stored cells.
-/
omit [DecidableEq E] in
theorem swapToRoot_spec
    (h : Heap K E)
    (i : Nat)
    (hHole : h.HoleOrdered i)
    (hi : i < h.hSize) :
    (h.swapToRoot i).HoleOrdered 0 ∧
      (h.swapToRoot i).hElems 0 = h.hElems i ∧
      (h.swapToRoot i).hSize = h.hSize ∧
      (h.swapToRoot i).contents = h.contents := by
  induction h, i using swapToRoot.induct with
  | case1 h =>
      rw [swapToRoot, if_pos rfl]
      exact ⟨hHole, rfl, rfl, rfl⟩
  | case2 h i hNe ih =>
      have hPos : 0 < i := Nat.pos_of_ne_zero hNe
      have hLt : parent i < i := BinHeap.parent_lt hPos
      have hDone := ih (hHole.swapUp hPos hi)
        (hLt.trans hi)
      rw [swapToRoot, if_neg hNe]
      refine ⟨hDone.1, ?_, hDone.2.2.1, ?_⟩
      · rw [hDone.2.1, swap_hElems, BinHeap.swap_right]
      · rw [hDone.2.2.2]
        exact h.contents_swap hi (hLt.trans hi)

/- A found element is stored in the cell it is found at. -/
omit [LinearOrder K] in
theorem heapMember_eq_succ
    {h : Heap K E}
    {elem : E}
    {i : Nat}
    (hFound : h.heapMember elem = i + 1) :
    i < h.hSize ∧ (h.hElems i).heElem = elem := by
  unfold heapMember at hFound
  split at hFound
  · next j hFind =>
      have hEq : j = i := by omega
      subst hEq
      have hMem := List.mem_of_find?_eq_some hFind
      have hElem := List.find?_some hFind
      exact ⟨List.mem_range.mp hMem,
        of_decide_eq_true hElem⟩
  · omega

/- An element that is not found is not stored. -/
omit [LinearOrder K] in
theorem heapMember_eq_zero_iff
    (h : Heap K E)
    (elem : E) :
    h.heapMember elem = 0 ↔
      ∀ x ∈ h.contents, x.heElem ≠ elem := by
  unfold heapMember
  constructor
  · intro hZero x hx
    rcases mem_contents_iff.mp hx with ⟨i, hi, rfl⟩
    split at hZero
    · omega
    · next hFind =>
        have hNone := List.find?_eq_none.mp hFind i
          (List.mem_range.mpr hi)
        simpa using hNone
  · intro hAbsent
    split
    · next i hFind =>
        have hMem := List.mem_range.mp
          (List.mem_of_find?_eq_some hFind)
        have hElem := List.find?_some hFind
        exact absurd (of_decide_eq_true hElem)
          (hAbsent _ (mem_contents_iff.mpr ⟨i, hMem, rfl⟩))
    · rfl

/-
  Deleting a stored element answers 1 and removes exactly
  one cell that holds it.
-/
theorem heapDelete_spec
    (h : Heap K E)
    (elem : E)
    (hOrdered : h.Ordered)
    (hStored : ∃ x ∈ h.contents, x.heElem = elem) :
    (h.heapDelete elem).1 = 1 ∧
      (h.heapDelete elem).2.Ordered ∧
      ∃ m ∈ h.contents, m.heElem = elem ∧
        h.contents =
          m ::ₘ (h.heapDelete elem).2.contents := by
  obtain ⟨i, hFound⟩ :
      ∃ i, h.heapMember elem = i + 1 := by
    cases hCase : h.heapMember elem with
    | zero =>
        rcases hStored with ⟨x, hx, hElem⟩
        exact absurd hElem
          ((h.heapMember_eq_zero_iff elem).mp hCase x hx)
    | succ i => exact ⟨i, rfl⟩
  have hCell := heapMember_eq_succ hFound
  have hRoot := h.swapToRoot_spec i
    (hOrdered.toHole i hCell.1) hCell.1
  have hDone := (h.swapToRoot i).heapExtractMin_of_rootHole
    hRoot.1 (by omega)
  have hStep :
      h.heapDelete elem =
        (1, (h.swapToRoot i).heapExtractMin.2) := by
    rw [heapDelete, hFound]
  rw [hStep]
  refine ⟨rfl, hDone.2.1, h.hElems i, ?_, hCell.2, ?_⟩
  · exact mem_contents_iff.mpr ⟨i, hCell.1, rfl⟩
  · rw [← hRoot.2.2.2, hDone.2.2, hRoot.2.1]

/- Deleting an element that is not stored changes nothing. -/
theorem heapDelete_absent
    (h : Heap K E)
    (elem : E)
    (hAbsent : ∀ x ∈ h.contents, x.heElem ≠ elem) :
    h.heapDelete elem = (0, h) := by
  rw [heapDelete,
    (h.heapMember_eq_zero_iff elem).mpr hAbsent]

end Heap

end Ns2

------------------------------------------------------------
-- Array Bounds
------------------------------------------------------------

namespace Ns2

namespace Heap

variable {K E : Type}
variable [LinearOrder K] [DecidableEq E]

/- The stored cells fit in an array that is not empty. -/
structure Fits (h : Heap K E) : Prop where
  capacity_pos : 0 < h.hMaxsize
  size_le : h.hSize ≤ h.hMaxsize

omit [DecidableEq E] in
theorem heapify_size
    (h : Heap K E)
    (i : Nat) :
    (h.heapify i).hSize = h.hSize ∧
      (h.heapify i).hMaxsize = h.hMaxsize := by
  induction h, i using heapify.induct with
  | case1 h i hi x hSink ih =>
      have hStep :
          h.heapify i = (h.swap i x).heapify x := by
        rw [heapify, if_pos hi]
        exact if_pos hSink
      rw [hStep]
      exact ih
  | case2 h i hi x hStop =>
      have hStep : h.heapify i = h := by
        rw [heapify, if_pos hi]
        exact if_neg hStop
      rw [hStep]
      exact ⟨rfl, rfl⟩
  | case3 h i hi =>
      rw [heapify, if_neg hi]
      exact ⟨rfl, rfl⟩

omit [LinearOrder K] [DecidableEq E] in
theorem swapToRoot_size
    (h : Heap K E)
    (i : Nat) :
    (h.swapToRoot i).hSize = h.hSize ∧
      (h.swapToRoot i).hMaxsize = h.hMaxsize := by
  induction h, i using swapToRoot.induct with
  | case1 h =>
      rw [swapToRoot, if_pos rfl]
      exact ⟨rfl, rfl⟩
  | case2 h i hNe ih =>
      rw [swapToRoot, if_neg hNe]
      exact ih

omit [DecidableEq E] in
theorem heapExtractMin_size
    (h : Heap K E) :
    h.heapExtractMin.2.hSize = h.hSize - 1 ∧
      h.heapExtractMin.2.hMaxsize = h.hMaxsize := by
  unfold heapExtractMin
  by_cases hEmpty : h.hSize = 0
  · rw [if_pos hEmpty]
    refine ⟨?_, rfl⟩
    change h.hSize = h.hSize - 1
    omega
  · rw [if_neg hEmpty]
    exact heapify_size _ 0

/- Growing a full array leaves a free cell. -/
omit [LinearOrder K] [DecidableEq E] in
theorem Fits.lt_grow
    {h : Heap K E}
    (hFits : h.Fits) :
    h.hSize < h.grow.hMaxsize := by
  have hPos := hFits.capacity_pos
  have hLe := hFits.size_le
  unfold grow
  split
  · change h.hSize < h.hMaxsize * 2
    omega
  · omega

/- Every call keeps the stored cells inside the array. -/
theorem Fits.apply
    {h : Heap K E}
    (hFits : h.Fits)
    (op : HeapOp K E) :
    (h.apply op).Fits := by
  have hPos := hFits.capacity_pos
  have hLe := hFits.size_le
  have hLt := hFits.lt_grow
  have hExtract (h' : Heap K E)
      (hSize : h'.hSize = h.hSize)
      (hMax : h'.hMaxsize = h.hMaxsize) :
      h'.heapExtractMin.2.Fits := by
    have hEq := h'.heapExtractMin_size
    exact ⟨by omega, by omega⟩
  cases op with
  | insert key elem =>
      refine ⟨?_, ?_⟩
      · change 0 < h.grow.hMaxsize
        omega
      · change h.grow.hSize + 1 ≤ h.grow.hMaxsize
        rw [grow_hSize]
        omega
  | delete elem =>
      change (h.heapDelete elem).2.Fits
      unfold heapDelete
      split
      · exact hFits
      · next i _ =>
          have hSize := h.swapToRoot_size i
          exact hExtract _ hSize.1 hSize.2
  | extractMin =>
      exact hExtract h rfl rfl

theorem Fits.run
    {h : Heap K E}
    (hFits : h.Fits)
    (ops : List (HeapOp K E)) :
    (h.run ops).Fits := by
  induction ops generalizing h with
  | nil => exact hFits
  | cons op ops ih => exact ih (hFits.apply op)

end Heap

end Ns2

------------------------------------------------------------
-- Runs
------------------------------------------------------------

namespace Ns2

namespace Heap

variable {K E : Type}
variable [LinearOrder K] [DecidableEq E]

/- Every call keeps the heap order. -/
theorem apply_ordered
    (h : Heap K E)
    (op : HeapOp K E)
    (hOrdered : h.Ordered) :
    (h.apply op).Ordered := by
  cases op with
  | insert key elem =>
      exact (h.heapInsert_spec key elem hOrdered).1
  | delete elem =>
      by_cases hStored : ∃ x ∈ h.contents, x.heElem = elem
      · exact (h.heapDelete_spec elem hOrdered hStored).2.1
      · have hAbsent :
            ∀ x ∈ h.contents, x.heElem ≠ elem := by
          intro x hx hElem
          exact hStored ⟨x, hx, hElem⟩
        rw [apply, h.heapDelete_absent elem hAbsent]
        exact hOrdered
  | extractMin =>
      rcases Nat.eq_zero_or_pos h.hSize with hEmpty | hPos
      · rw [apply, h.heapExtractMin_empty hEmpty]
        exact hOrdered
      · exact (h.heapExtractMin_spec hOrdered hPos).1

/- A sequence of calls keeps the heap order. -/
theorem run_ordered
    (h : Heap K E)
    (ops : List (HeapOp K E))
    (hOrdered : h.Ordered) :
    (h.run ops).Ordered := by
  induction ops generalizing h with
  | nil => exact hOrdered
  | cons op ops ih =>
      exact ih (h.apply op) (h.apply_ordered op hOrdered)

/-
  The heap after any calls on a new heap.  It is ordered by
  composite key; insertion adds one cell; extraction answers
  a least stored cell and removes exactly it; deletion
  answers whether the element is stored and removes exactly
  one cell that holds it; and the cells stay in the array.
-/
theorem heap_run_correct
    (blank : HeapElem K E)
    (size : Nat)
    (ops : List (HeapOp K E)) :
    let h := (new blank size).run ops
    h.Ordered ∧
      (∀ key elem,
        (h.heapInsert key elem).contents =
          ⟨key, h.hSKey, elem⟩ ::ₘ h.contents) ∧
      (h.contents = 0 → h.heapExtractMin = (none, h)) ∧
      (h.contents ≠ 0 →
        ∃ m ∈ h.contents,
          (∀ x ∈ h.contents,
            compositeKey m ≤ compositeKey x) ∧
          h.heapExtractMin.1 = some m.heElem ∧
          h.contents =
            m ::ₘ h.heapExtractMin.2.contents) ∧
      (∀ elem, (∃ x ∈ h.contents, x.heElem = elem) →
        (h.heapDelete elem).1 = 1 ∧
          ∃ m ∈ h.contents, m.heElem = elem ∧
            h.contents =
              m ::ₘ (h.heapDelete elem).2.contents) ∧
      (∀ elem, (∀ x ∈ h.contents, x.heElem ≠ elem) →
        h.heapDelete elem = (0, h)) ∧
      (0 < size →
        h.hSize ≤ h.hMaxsize ∧
          h.hSize < h.grow.hMaxsize) := by
  intro h
  have hOrdered : h.Ordered := by
    apply run_ordered
    intro i _ hi
    exact absurd hi (Nat.not_lt_zero i)
  have hEmptyIff : h.contents = 0 ↔ h.hSize = 0 := by
    rw [← Multiset.card_eq_zero]
    simp [contents, BinHeap.contents]
  refine ⟨hOrdered, ?_, ?_, ?_, ?_, ?_, ?_⟩
  · intro key elem
    exact (h.heapInsert_spec key elem hOrdered).2
  · intro hEmpty
    exact h.heapExtractMin_empty (hEmptyIff.mp hEmpty)
  · intro hNonempty
    have hPos : 0 < h.hSize :=
      Nat.pos_of_ne_zero (hNonempty ∘ hEmptyIff.mpr)
    exact (h.heapExtractMin_spec hOrdered hPos).2
  · intro elem hStored
    have hDone := h.heapDelete_spec elem hOrdered hStored
    exact ⟨hDone.1, hDone.2.2⟩
  · intro elem hAbsent
    exact h.heapDelete_absent elem hAbsent
  · intro hSize
    have hFits : h.Fits :=
      Fits.run ⟨hSize, Nat.zero_le _⟩ ops
    exact ⟨hFits.size_le, hFits.lt_grow⟩

end Heap

end Ns2
