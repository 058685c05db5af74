import Ns2.Common.Scheduler
import Ns2.Lib.SearchTree

/-
  The splay scheduler.

  The tree is a `BinaryTree` of events; a subtree stands for
  the pointer to its root.  Insertion is a top-down splay:
  the source links nodes to the bottom right of a left tree
  and to the bottom left of a right tree, both hanging off
  the new node.  The two half-built trees are the spines
  `ls` and `rs` here, most recently linked node first.

  Main declarations:
    * `SplayScheduler.splay`, `SplayScheduler.insert`
    * `SplayScheduler.deque`, `SplayScheduler.cancel`
    * `splayScheduler`
-/

------------------------------------------------------------
-- Insertion
------------------------------------------------------------

namespace Ns2

/- The scheduler object: the tree and its event count. -/
structure SplayScheduler (T : Type) where
  root : BinaryTree (Event T)
  qsize : Int
deriving DecidableEq

namespace SplayScheduler

open BinaryTree SearchTree

variable {T : Type} [LinearOrder T]

/- The tree under construction: a node and one subtree. -/
abbrev Frame (T : Type) : Type :=
  Event T × BinaryTree (Event T)

/-
  The splay loop for a new event due at `time`.  The result
  is the finished left tree and the finished right tree.
-/
def splay
    (time : T) :
    BinaryTree (Event T) →
      List (Frame T) → List (Frame T) →
        BinaryTree (Event T) × BinaryTree (Event T)
-- the remaining tree is empty: both spines end here
| nil, ls, rs => (plugRight ls nil, plugLeft rs nil)
| node t lt rt, ls, rs =>
    if time < t.time then
      match lt with
      | nil =>
          (plugRight ls nil, plugLeft rs (node t nil rt))
      | node x lx rx =>
          if time < x.time then
            -- rotate right, then link `x` to the right tree
            splay time lx ls ((x, node t rx rt) :: rs)
          else
            splay time (node x lx rx) ls ((t, rt) :: rs)
    else
      match rt with
      | nil =>
          (plugRight ls (node t lt nil), plugLeft rs nil)
      | node x lx rx =>
          if x.time ≤ time then
            -- rotate left, then link `x` to the left tree
            splay time rx ((x, node t lt lx) :: ls) rs
          else
            splay time (node x lx rx) ((t, lt) :: ls) rs

/- The new event becomes the root of the splayed tree. -/
def insert
    (s : SplayScheduler T)
    (n : Event T) : SplayScheduler T where
  root :=
    let trees := splay n.time s.root [] []
    node n trees.1 trees.2
  qsize := s.qsize + 1

end SplayScheduler

end Ns2

------------------------------------------------------------
-- Head and Deque
------------------------------------------------------------

namespace Ns2

namespace SplayScheduler

open BinaryTree

variable {T : Type}

/- The leftmost event of a tree. -/
def leftmost : BinaryTree (Event T) → Option (Event T)
| nil => none
| node t nil _ => some t
| node _ (node l a b) _ => leftmost (node l a b)

/- The first event, without removing it. -/
def head (s : SplayScheduler T) : Option (Event T) :=
  leftmost s.root

/-
  The deque loop on the left subtree of `t`: the removed
  event and the new left subtree of `t`.  Two levels down at
  a time, `l` is rotated with `ll` on the way.
-/
def dequeLeft :
    BinaryTree (Event T) →
      Option (Event T × BinaryTree (Event T))
| nil => none
| node l nil rl => some (l, rl)
| node l (node ll nil rll) rl => some (ll, node l rll rl)
| node l (node ll (node lll a b) rll) rl =>
    (dequeLeft (node lll a b)).map
      (fun r => (r.1, node ll r.2 (node l rll rl)))

/- Remove and return the first event. -/
def deque
    (s : SplayScheduler T) :
    Option (Event T) × SplayScheduler T :=
  match s.root with
  | nil => (none, s)
  | node t nil rt => (some t, ⟨rt, s.qsize - 1⟩)
  | node t (node l a b) rt =>
      match dequeLeft (node l a b) with
      | none => (none, s)
      | some r => (some r.1, ⟨node t r.2 rt, s.qsize - 1⟩)

end SplayScheduler

end Ns2

------------------------------------------------------------
-- Cancellation
------------------------------------------------------------

namespace Ns2

namespace SplayScheduler

open BinaryTree

variable {T : Type} [LinearOrder T]

/-
  Unlink the leftmost node of a tree: the node, and what is
  left of the tree.
-/
def popSuccessor :
    BinaryTree (Event T) →
      Option (Event T × BinaryTree (Event T))
| nil => none
| node q nil rq => some (q, rq)
| node q (node l a b) rq =>
    (popSuccessor (node l a b)).map
      (fun r => (r.1, node q r.2 rq))

/-
  The tree that takes the place of a deleted node with left
  subtree `l` and right subtree `r`.
-/
def replace
    (l r : BinaryTree (Event T)) :
    BinaryTree (Event T) :=
  match r, l with
  | nil, l => l
  | r, nil => r
  -- `p` is the successor
  | node p nil rp, l => node p l rp
  -- `q` is the successor, deeper on the left of `p`
  | node p lp rp, l =>
      match popSuccessor lp with
      | none => l
      | some (q, lp') => node q l (node p lp' rp)

/-
  Search for `e` by time and id, and delete it.  Without
  result the search ends at a null pointer, where the source
  aborts.
-/
def unlink
    (e : Event T) :
    BinaryTree (Event T) → Option (BinaryTree (Event T))
| nil => none
| node x l r =>
    if x = e then some (replace l r)
    else if x.time < e.time ∨
        (e.time = x.time ∧ x.uid < e.uid) then
      (unlink e r).map (fun r' => node x l r')
    else
      (unlink e l).map (fun l' => node x l' r)

/- Cancel an event; ids that are not positive are left. -/
def cancel
    (s : SplayScheduler T)
    (e : Event T) : Option (SplayScheduler T) :=
  if e.uid ≤ 0 then some s
  else
    (unlink e s.root).map (fun t => ⟨t, s.qsize - 1⟩)

end SplayScheduler

/- The splay scheduler's virtual calls. -/
def splayScheduler
    (T : Type) [LinearOrder T] :
    Scheduler T (SplayScheduler T) where
  insert := fun s e => some (s.insert e)
  cancel := SplayScheduler.cancel
  head := fun s => some (s.head, s)
  deque := fun s => some s.deque

end Ns2
