import Mathlib.Algebra.Order.Ring.Nat
import Mathlib.Data.Prod.Lex
import Ns2.Lib.BinHeap

/-
  The binary heap of the heap scheduler.

  Keys are compared lexicographically: the event time first,
  then the secondary key stamped at insertion from a 32-bit
  counter.  The array is a function from cell numbers; cells
  from `hSize` on hold nothing that is read.

  Main declarations:
    * `Heap.heapMember`, `Heap.heapDelete`
    * `Heap.heapInsert`, `Heap.heapExtractMin`
    * `HeapOp`, `Heap.run`
-/

------------------------------------------------------------
-- Heap State
------------------------------------------------------------

namespace Ns2

/- One array cell: primary key, secondary key, element. -/
structure HeapElem (K E : Type) where
  heKey : K
  heSKey : Nat
  heElem : E
deriving DecidableEq, Repr

/- The heap object: array, stamp counter, size, capacity. -/
structure Heap (K E : Type) where
  hElems : Nat → HeapElem K E
  hSKey : Nat
  hSize : Nat
  hMaxsize : Nat

namespace Heap

variable {K E : Type}
variable [LinearOrder K] [DecidableEq E]

/- The default capacity of the constructor. -/
def heapDefaultSize : Nat := 32

/-
  The constructor.  The array is cleared to zero bytes; here
  every cell starts as the given blank cell.
-/
def new
    (blank : HeapElem K E)
    (size : Nat := heapDefaultSize) : Heap K E where
  hElems := fun _ => blank
  hSKey := 0
  hSize := 0
  hMaxsize := size

/-
  The parent of cell `i`.  In the source it is computed on
  unsigned numbers and is not used for cell 0.
-/
def parent (i : Nat) : Nat :=
  (i - 1) / 2

def left (i : Nat) : Nat :=
  (i * 2) + 1

def right (i : Nat) : Nat :=
  (i + 1) * 2

/- Exchange cells `i` and `j`. -/
def swap
    (h : Heap K E)
    (i j : Nat) : Heap K E :=
  { h with hElems := fun k =>
      if k = i then h.hElems j
      else if k = j then h.hElems i
      else h.hElems k }

/- Strict comparison of two composite keys. -/
def keyLessThan
    (k1 : K) (ks1 : Nat)
    (k2 : K) (ks2 : Nat) : Bool :=
  decide (k1 < k2) ||
    (decide (k1 = k2) && decide (ks1 < ks2))

/- Strict comparison of two cells by their composite keys. -/
def cellLess
    (a b : HeapElem K E) : Bool :=
  keyLessThan a.heKey a.heSKey b.heKey b.heSKey

end Heap

end Ns2

------------------------------------------------------------
-- Heap Operations
------------------------------------------------------------

namespace Ns2

namespace Heap

variable {K E : Type}
variable [LinearOrder K] [DecidableEq E]

/-
  One plus the first cell that holds `elem`, or 0 when no
  cell below `hSize` does.
-/
def heapMember
    (h : Heap K E)
    (elem : E) : Nat :=
  match (List.range h.hSize).find?
      (fun i => decide ((h.hElems i).heElem = elem)) with
  | some i => i + 1
  | none => 0

/- Swap the element at cell `i` up to the root. -/
def swapToRoot
    (h : Heap K E)
    (i : Nat) : Heap K E :=
  if i = 0 then h
  else swapToRoot (h.swap i (parent i)) (parent i)
termination_by i
decreasing_by
  unfold parent
  omega

/- The child that the sift-down compares cell `i` with. -/
def tryChild
    (h : Heap K E)
    (i : Nat) : Nat :=
  if right i < h.hSize then
    if cellLess (h.hElems (left i)) (h.hElems (right i))
    then left i
    else right i
  else
    if left i < h.hSize then left i else i

/- A child chosen for comparison is a cell further down. -/
omit [DecidableEq E] in
theorem tryChild_bounds
    (h : Heap K E)
    {i : Nat}
    (hNe : h.tryChild i ≠ i) :
    i < h.tryChild i ∧ h.tryChild i < h.hSize := by
  unfold tryChild left right at hNe ⊢
  split_ifs at hNe ⊢ <;> omega

/- The sift-down loop from cell `i`. -/
def heapify
    (h : Heap K E)
    (i : Nat) : Heap K E :=
  if i < h.hSize then
    let x := h.tryChild i
    if x ≠ i ∧
        cellLess (h.hElems x) (h.hElems i) = true then
      heapify (h.swap i x) x
    else h
  else h
termination_by h.hSize - i
decreasing_by
  rename_i hSink
  have hBounds := h.tryChild_bounds hSink.1
  change h.hSize - h.tryChild i < h.hSize - i
  omega

/-
  Remove the root: the last cell takes its place and sinks.
  The element of the root is returned.
-/
def heapExtractMin
    (h : Heap K E) : Option E × Heap K E :=
  if h.hSize = 0 then (none, h)
  else
    let min := (h.hElems 0).heElem
    let last := h.hElems (h.hSize - 1)
    let h' : Heap K E :=
      { h with
        hElems := Function.update h.hElems 0 last
        hSize := h.hSize - 1 }
    (some min, h'.heapify 0)

/-
  Delete the first cell that holds `elem`: swap it to the
  root without comparing keys, then extract the root.
-/
def heapDelete
    (h : Heap K E)
    (elem : E) : Nat × Heap K E :=
  match h.heapMember elem with
  | 0 => (0, h)
  | i + 1 => (1, (h.swapToRoot i).heapExtractMin.2)

/- Double the capacity when the array is full. -/
def grow (h : Heap K E) : Heap K E :=
  if h.hMaxsize = h.hSize then
    { h with hMaxsize := h.hMaxsize * 2 }
  else h

/-
  The percolation of an insertion: while the new key is less
  than the parent's, the parent is copied down.  The result
  is the array and the cell left for the new element.
-/
def percolate
    (cells : Nat → HeapElem K E)
    (key : K)
    (sKey : Nat)
    (i : Nat) : (Nat → HeapElem K E) × Nat :=
  if 0 < i ∧
      keyLessThan key sKey
        (cells (parent i)).heKey
        (cells (parent i)).heSKey = true then
    percolate
      (Function.update cells i (cells (parent i)))
      key sKey (parent i)
  else (cells, i)
termination_by i
decreasing_by
  unfold parent
  omega

/-
  Insert `elem` under `key`, stamped with the next secondary
  key.  The stamp counter is a 32-bit unsigned number.
-/
def heapInsert
    (h : Heap K E)
    (key : K)
    (elem : E) : Heap K E :=
  let h := h.grow
  let p := percolate h.hElems key h.hSKey h.hSize
  { h with
    hElems := Function.update p.1 p.2
      ⟨key, h.hSKey, elem⟩
    hSKey := (h.hSKey + 1) % 2 ^ 32
    hSize := h.hSize + 1 }

end Heap

/- The calls a heap's client makes. -/
inductive HeapOp (K E : Type) where
| insert : K → E → HeapOp K E
| delete : E → HeapOp K E
| extractMin : HeapOp K E
deriving DecidableEq, Repr

namespace Heap

variable {K E : Type}
variable [LinearOrder K] [DecidableEq E]

/- The heap after one call. -/
def apply
    (h : Heap K E) : HeapOp K E → Heap K E
| .insert key elem => h.heapInsert key elem
| .delete elem => (h.heapDelete elem).2
| .extractMin => h.heapExtractMin.2

/- The heap after a sequence of calls. -/
def run
    (h : Heap K E)
    (ops : List (HeapOp K E)) : Heap K E :=
  ops.foldl apply h

end Heap

end Ns2
