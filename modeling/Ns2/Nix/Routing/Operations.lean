import Ns2.Lib.BreadthFirst
import Ns2.Routealgo.Bfs.Operations
import Mathlib.Logic.Relation

/-
  Routing by vectors of neighbour indices.

  A node computes a vector for a target once and keeps it, and
  a packet carries the pointer to the vector of its source and
  its own position in it.  At each node the classifier takes
  the next index from the vector and passes the packet to the
  link of that neighbour.

  Main declarations:
    * `nixRoute`, `computeNixVector`, `getNixVector`
    * `initpkt`, `find`
    * `NixNetwork`, `NixNetwork.Step`
-/

------------------------------------------------------------
-- Vectors of a Node
------------------------------------------------------------

namespace Ns2

namespace Nix

open Routealgo (BFS NODE_NONE rounds)

variable {W : Nat}

/- The indices on the way from `s` to `p`, after those before. -/
def nixPred
    (s : Nat)
    (pred : List Nat)
    (nodes : List (NixNode W)) :
    Nat → Nat → NixVec W → Option (NixVec W)
  | 0, _, _ => none
  | k + 1, p, nv =>
      if s = p then some nv
      else do
        let q ← pred[p]?
        if q = NODE_NONE then some nv
        else
          let nv ← nixPred s pred nodes k q nv
          let node ← nodes[q]?
          let n := node.getNix p
          if n.1 = NIX_NONE W then none else nv.add n

def nixRoute
    (s d : Nat)
    (pred : List Nat)
    (nodes : List (NixNode W))
    (nv : NixVec W) : Option (NixVec W) :=
  nixPred s pred nodes (rounds nodes) d nv

def computeNixVector
    (nodes : List (NixNode W))
    (u : NixNode W)
    (t : Nat) : Option (NixVec W) := do
  let (_, parent) ← BFS.run nodes u.m_id
  nixRoute u.m_id t parent nodes (NixVec.empty W)

/- The vector of a node for a target, which may be a new one. -/
def getNixVector
    (nodes : List (NixNode W))
    (s t : Nat) : Option (List (NixNode W)) := do
  let u ← nodes[s]?
  match u.m_pNixVecs.lookup t with
  | none =>
      let nv ← computeNixVector nodes u t
      let u :=
        { u with m_pNixVecs := (t, nv.reset) :: u.m_pNixVecs }
      return nodes.set s u
  | some _ =>
      let u :=
        { u with
          m_pNixVecs := u.m_pNixVecs.map fun e =>
            if e.1 = t then (e.1, e.2.reset) else e }
      return nodes.set s u

end Nix

end Ns2

------------------------------------------------------------
-- Packets
------------------------------------------------------------

namespace Ns2

namespace Nix

open Routealgo (NODE_NONE)

variable {W : Nat}

/- A pointer to a vector: the node that has it and its target. -/
structure Pointer where
  node : Nat
  target : Nat
deriving DecidableEq

structure Packet where
  daddr : Nat
  pNv : Option Pointer
  h_used : Nat
deriving DecidableEq

/- What the classifier passes a packet to. -/
inductive NsObject where
  | m_Dmux
  | link (node : Nat)
  | null
deriving DecidableEq

def getNodeObject
    (nodes : List (NixNode W))
    (n : Nat) : Option (NixNode W) :=
  nodes[n]?

def Pointer.deref
    (nodes : List (NixNode W))
    (p : Pointer) : Option (NixVec W) := do
  let u ← nodes[p.node]?
  u.m_pNixVecs.lookup p.target

/- A packet that an agent at `here` sends to `dst`. -/
def initpkt
    (nodes : List (NixNode W))
    (here dst : Nat) : Option (List (NixNode W) × Packet) :=
  match getNodeObject nodes here with
  | none => some (nodes, ⟨dst, none, 0⟩)
  | some _ => do
      let nodes ← getNixVector nodes here dst
      return (nodes, ⟨dst, some ⟨here, dst⟩, 0⟩)

/- Where the classifier of a node passes a packet. -/
def find
    (nodes : List (NixNode W))
    (m_NodeId : Nat)
    (p : Packet) : Option (NsObject × Packet) :=
  if m_NodeId = NODE_NONE then some (.null, p)
  else do
    let pN ← getNodeObject nodes m_NodeId
    if p.daddr = pN.m_id then some (.m_Dmux, p)
    else
      match p.pNv with
      | none => some (.null, p)
      | some pNv => do
          let nv ← pNv.deref nodes
          let (nix, used) ← nv.extractFrom pN.getNixl p.h_used
          let _ ← pN.getNeighbor nix
          let p := { p with h_used := used }
          match pN.getNsNeighbor nix with
          | none => some (.null, p)
          | some node => some (.link node, p)

end Nix

end Ns2

------------------------------------------------------------
-- Networks
------------------------------------------------------------

namespace Ns2

namespace Nix

open BreadthFirst (Walk)
open Routealgo (edges)

variable {W : Nat}

/-
  A packet on its way: the node that it is at, the node that
  sent it and the links that it took.
-/
structure Flight where
  packet : Packet
  node : Nat
  source : Nat
  hops : Nat
deriving DecidableEq

structure NixNetwork (W : Nat) where
  nodes : List (NixNode W)
  flying : List Flight
  delivered : List Flight
deriving DecidableEq

/-
  Packets are sent to nodes that can be reached, forwarded in
  any order and lost; a vector may also be asked for alone.
-/
inductive NixNetwork.Step :
    NixNetwork W → NixNetwork W → Prop where
  | initpkt {net : NixNetwork W} {here dst : Nat}
      {nodes : List (NixNode W)} {p : Packet} {n : Nat} :
      here < net.nodes.length →
      Walk (edges net.nodes) n here dst →
      Nix.initpkt net.nodes here dst = some (nodes, p) →
      Step net
        { net with
          nodes := nodes
          flying := ⟨p, here, here, 0⟩ :: net.flying }
  | getNixVector {net : NixNetwork W} {s t : Nat}
      {nodes : List (NixNode W)} :
      Nix.getNixVector net.nodes s t = some nodes →
      Step net { net with nodes := nodes }
  | forward {net : NixNetwork W} {before after : List Flight}
      {f : Flight} {node : Nat} {p : Packet} :
      net.flying = before ++ f :: after →
      find net.nodes f.node f.packet = some (.link node, p) →
      Step net
        { net with
          flying := before ++
            ⟨p, node, f.source, f.hops + 1⟩ :: after }
  | deliver {net : NixNetwork W} {before after : List Flight}
      {f : Flight} {p : Packet} :
      net.flying = before ++ f :: after →
      find net.nodes f.node f.packet = some (.m_Dmux, p) →
      Step net
        { net with
          flying := before ++ after
          delivered := f :: net.delivered }
  | lose {net : NixNetwork W} {before after : List Flight}
      {f : Flight} :
      net.flying = before ++ f :: after →
      Step net { net with flying := before ++ after }

def NixNetwork.Reaches :
    NixNetwork W → NixNetwork W → Prop :=
  Relation.ReflTransGen NixNetwork.Step

/-
  Nodes at their own positions, with edges to nodes and the
  links of their edges, and no vectors yet.
-/
structure NixNetwork.Initial (net : NixNetwork W) : Prop where
  id :
    ∀ (i : Nat) (n : NixNode W),
      net.nodes[i]? = some n → n.m_id = i
  edge :
    ∀ n ∈ net.nodes, ∀ v ∈ n.m_Adj, v < net.nodes.length
  wired : ∀ n ∈ net.nodes, n.m_AdjObj = n.m_Adj
  fresh : ∀ n ∈ net.nodes, n.m_pNixVecs = []
  nodes : net.nodes.length * 32 + 32 < 2 ^ 32
  edges : ∀ n ∈ net.nodes, n.m_Adj.length < 2 ^ 32
  flying : net.flying = []
  delivered : net.delivered = []

end Nix

end Ns2
