import Ns2.Nix.NixNode
import Ns2.Routealgo.BitMap
import Ns2.Lib.CheckedArray

/-
  Routes by breadth-first search.

  A node is white until it is put in the queue.  What is set
  for it then is the node that it was found from and the first
  hop of the way to it.  `none` stands for a failed assertion,
  for an access outside of a vector and for a loop that takes
  more rounds than there are nodes and edges.

  Main declarations:
    * `BFS.visit`, `BFS.scan`, `BFS.search`
    * `BFS.run`
-/

------------------------------------------------------------
-- The State of the Search
------------------------------------------------------------

namespace Ns2

namespace Routealgo

open Nix (NixNode)
open CheckedArray (load store)

variable {W : Nat}

def INF : Nat := 0xffffffff

/- The variables of the function, and the iterator of edges. -/
structure BFS (W : Nat) where
  B : BitMap W
  Q : List (NixNode W)
  D : List Nat
  NextHop : List Nat
  Parent : List Nat
  prev : List Nat
deriving DecidableEq

/- The edges of a node. -/
def edges
    (N : List (NixNode W))
    (v : Nat) : List Nat :=
  ((N[v]?).map (·.m_Adj)).getD []

/- More rounds than a loop over nodes or edges makes. -/
def rounds (N : List (NixNode W)) : Nat :=
  N.length + (N.map (·.m_Adj.length)).sum + 2

namespace BFS

/- Before the root is coloured. -/
def create (N : List (NixNode W)) : BFS W where
  B := BitMap.create W N.length 1
  Q := []
  D := List.replicate N.length INF
  NextHop := List.replicate N.length NODE_NONE
  Parent := List.replicate N.length NODE_NONE
  prev := []

/- An edge from `u` leads to a white node. -/
def visit
    (s : BFS W)
    (N : List (NixNode W))
    (root : Nat)
    (u : NixNode W)
    (v : Nat) : Option (BFS W) := do
  let n ← N[v]?
  let B ← s.B.set v 1
  let d ← load s.D u.m_id
  let D ← store s.D v (d + 1)
  let Parent ← store s.Parent v u.m_id
  let hop ←
    if u.m_id = root then some v
    else load s.NextHop u.m_id
  let NextHop ← store s.NextHop v hop
  return { s with
    B := B
    Q := s.Q ++ [n]
    D := D
    NextHop := NextHop
    Parent := Parent }

/- Follow the edges of `u`, from the one after `last`. -/
def scan
    (N : List (NixNode W))
    (root : Nat)
    (u : NixNode W) :
    Nat → BFS W → Nat → Option (BFS W)
  | 0, _, _ => none
  | k + 1, s, last => do
      let (v, prev) ← u.nextAdj s.prev last
      let s := { s with prev := prev }
      if v = NODE_NONE then some s
      else
        let colour ← s.B.get v
        let s ←
          if colour = 0 then s.visit N root u v else some s
        scan N root u k s v

/- Until the queue is empty. -/
def search
    (N : List (NixNode W))
    (root : Nat) : Nat → BFS W → Option (BFS W)
  | 0, _ => none
  | k + 1, s =>
      match s.Q with
      | [] => some s
      | u :: _ => do
          let s ← scan N root u (rounds N) s NODE_NONE
          search N root k { s with Q := s.Q.tail }

/- The next hops and the parents. -/
def run
    (N : List (NixNode W))
    (root : Nat) : Option (List Nat × List Nat) := do
  let s := create N
  let B ← s.B.set root 1
  let n ← N[root]?
  let D ← store s.D root 0
  let s ← search N root (rounds N)
    { s with B := B, Q := [n], D := D }
  return (s.NextHop, s.Parent)

end BFS

end Routealgo

end Ns2
