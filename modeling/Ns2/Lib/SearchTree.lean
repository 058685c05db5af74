import Mathlib.Data.List.Pairwise
import Mathlib.Data.Tree.Basic
import Mathlib.Tactic.Common

/-
  Binary search trees and their in-order sequences.

  A tree is a search tree for a relation exactly when its
  in-order sequence is increasing.  A top-down splay works
  on two half-built trees, each a spine of linked nodes with
  one open child: `plugRight` closes a spine that is open on
  the right, `plugLeft` one that is open on the left.

  Main declarations:
    * `SearchTree.inorder`, `SearchTree.IsSearchTree`
    * `SearchTree.isSearchTree_iff`
    * `SearchTree.plugRight`, `SearchTree.plugLeft`
-/

------------------------------------------------------------
-- In-Order Sequences
------------------------------------------------------------

namespace SearchTree

open BinaryTree

variable {α : Type*}

/- The values of a tree from left to right. -/
def inorder : BinaryTree α → List α
| nil => []
| node a l r => inorder l ++ a :: inorder r

@[simp] theorem inorder_nil :
    inorder (nil : BinaryTree α) = [] := rfl

@[simp] theorem inorder_node
    (a : α)
    (l r : BinaryTree α) :
    inorder (node a l r) = inorder l ++ a :: inorder r :=
  rfl

@[simp] theorem length_inorder (t : BinaryTree α) :
    (inorder t).length = t.numNodes := by
  induction t with
  | nil => rfl
  | node a l r ihl ihr =>
      simp only [inorder_node, List.length_append,
        List.length_cons, ihl, ihr, numNodes]
      omega

/-
  Everything on the left of a node is before it, everything
  on its right is after it, and so on below.
-/
def IsSearchTree
    (before : α → α → Prop) : BinaryTree α → Prop
| nil => True
| node a l r =>
    (∀ x ∈ inorder l, before x a) ∧
      (∀ x ∈ inorder r, before a x) ∧
      IsSearchTree before l ∧ IsSearchTree before r

/- Search trees are the trees with increasing sequences. -/
theorem isSearchTree_iff
    {before : α → α → Prop}
    (hTrans : ∀ a b c, before a b → before b c → before a c)
    (t : BinaryTree α) :
    IsSearchTree before t ↔
      (inorder t).Pairwise before := by
  induction t with
  | nil => simp [IsSearchTree]
  | node a l r ihl ihr =>
      rw [IsSearchTree, ihl, ihr, inorder_node,
        List.pairwise_append, List.pairwise_cons]
      constructor
      · rintro ⟨hLeft, hRight, hl, hr⟩
        refine ⟨hl, ⟨hRight, hr⟩, ?_⟩
        intro x hx y hy
        rcases List.mem_cons.mp hy with rfl | hy
        · exact hLeft x hx
        · exact hTrans x a y (hLeft x hx) (hRight y hy)
      · rintro ⟨hl, ⟨hRight, hr⟩, hAcross⟩
        exact ⟨fun x hx => hAcross x hx a (by simp),
          hRight, hl, hr⟩

end SearchTree

------------------------------------------------------------
-- Spines
------------------------------------------------------------

namespace SearchTree

open BinaryTree

variable {α : Type*}

/-
  Close a spine whose nodes are linked by right children.
  Each frame is a node with its left subtree, the last one
  linked first.
-/
def plugRight :
    List (α × BinaryTree α) →
      BinaryTree α → BinaryTree α
| [], t => t
| (a, l) :: frames, t => plugRight frames (node a l t)

/-
  Close a spine whose nodes are linked by left children.
  Each frame is a node with its right subtree.
-/
def plugLeft :
    List (α × BinaryTree α) →
      BinaryTree α → BinaryTree α
| [], t => t
| (a, r) :: frames, t => plugLeft frames (node a t r)

/- The values before the open child of a right spine. -/
def beforeHole : List (α × BinaryTree α) → List α
| [] => []
| (a, l) :: frames => beforeHole frames ++ (inorder l ++ [a])

/- The values after the open child of a left spine. -/
def afterHole : List (α × BinaryTree α) → List α
| [] => []
| (a, r) :: frames => a :: inorder r ++ afterHole frames

theorem inorder_plugRight
    (frames : List (α × BinaryTree α))
    (t : BinaryTree α) :
    inorder (plugRight frames t) =
      beforeHole frames ++ inorder t := by
  induction frames generalizing t with
  | nil => rfl
  | cons frame frames ih =>
      simp [plugRight, ih, beforeHole]

theorem inorder_plugLeft
    (frames : List (α × BinaryTree α))
    (t : BinaryTree α) :
    inorder (plugLeft frames t) =
      inorder t ++ afterHole frames := by
  induction frames generalizing t with
  | nil => simp [plugLeft, afterHole]
  | cons frame frames ih =>
      simp [plugLeft, ih, afterHole]

end SearchTree
