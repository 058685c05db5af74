import Ns2.Nix.Nixvec.Operations
import Ns2.Routealgo.Lookup

/-
  Nodes that route by vectors of neighbour indices.

  A node has its edges in the order in which they were added,
  and an index of a neighbour has the bits that the largest
  index needs.  The iterator over the edges is one for all the
  nodes; it is kept as the edges from it on.  `none` stands
  for a program that exits or reads outside of a vector.

  Main declarations:
    * `NixNode`
    * `NixNode.nextAdj`
    * `NixNode.getNix`, `NixNode.getNeighbor`
-/

------------------------------------------------------------
-- Nodes
------------------------------------------------------------

namespace Ns2

namespace Nix

open Routealgo (NODE_NONE)

/-
  An edge is the node at its other end, and the head of a link
  is the node that the link leads to.  No list of vectors is
  an empty one.
-/
structure NixNode (W : Nat) where
  m_id : Nat
  m_Adj : List Nat
  m_AdjObj : List Nat
  m_pNixVecs : List (Nat × NixVec W)
deriving DecidableEq

/- The first bit above the lowest that is set, downwards. -/
def getBitlFrom
    (l : Nat) : Nat → Nat
  | 0 => 1
  | h + 1 => if l.testBit (h + 1) then h + 2 else getBitlFrom l h

/- How many bits a number needs. -/
def getBitl (l : Nat) : Nat :=
  let h :=
    if l &&& 0xFFFF0000 = 0 then
      if l &&& 0xFFFFFF00 = 0 then 7 else 15
    else 31
  getBitlFrom l h

namespace NixNode

variable {W : Nat}

/- The next edge, and the iterator after it. -/
def nextAdj
    (u : NixNode W)
    (prev : List Nat)
    (last : Nat) : Option (Nat × List Nat) :=
  if last = NODE_NONE then
    match u.m_Adj with
    | [] => some (NODE_NONE, [])
    | n :: _ => some (n, u.m_Adj)
  else
    match prev with
    | [] => none
    | n :: rest =>
        if last = n then
          match rest with
          | [] => some (NODE_NONE, [])
          | next :: _ => some (next, rest)
        else none

def getNixl (u : NixNode W) : Nat :=
  getBitl (ulong W (u.m_Adj.length - 1))

/- The index of a neighbour and the bits it needs. -/
def getNix
    (u : NixNode W)
    (t : Nat) : BitVec W × Nat :=
  match u.m_Adj.idxOf? t with
  | some i => (BitVec.ofNat W i, u.getNixl)
  | none => (NIX_NONE W, 0)

def getNeighbor
    (u : NixNode W)
    (n : BitVec W) : Option Nat :=
  u.m_Adj[n.toNat]?

/- The head of the link to a neighbour, null out of range. -/
def getNsNeighbor
    (u : NixNode W)
    (n : BitVec W) : Option Nat :=
  u.m_AdjObj[n.toNat]?

end NixNode

end Nix

end Ns2
