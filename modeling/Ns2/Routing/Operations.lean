import Mathlib.Algebra.Order.Ring.Rat
import Mathlib.Logic.Function.Basic

/-
  Static routes over a matrix of link costs.

  Routes are computed for one source after another. A node
  whose parent is the source has its route; node zero stands
  for no node, and the cost `INFINITY` for no link.

  Main declarations:
    * `RouteLogic`
    * `RouteLogic.check`, `RouteLogic.insert`
    * `RouteLogic.compute_routes`
-/

------------------------------------------------------------
-- Adjacency
------------------------------------------------------------

namespace Ns2

structure adj_entry (ε : Type) where
  cost : Rat
  entry : Option ε

structure route_entry (ε : Type) where
  next_hop : Nat
  entry : Option ε

structure RouteLogic (ε : Type) where
  adj_ : Nat → adj_entry ε
  route_ : Nat → route_entry ε
  size_ : Nat

namespace RouteLogic

variable {ε : Type}

def INFINITY : Rat := 0x3fff

def INDEX (i j N : Nat) : Nat := N * i + j

def ADJ (r : RouteLogic ε) (i j : Nat) : Rat :=
  (r.adj_ (INDEX i j r.size_)).cost

def ADJ_ENTRY (r : RouteLogic ε) (i j : Nat) : Option ε :=
  (r.adj_ (INDEX i j r.size_)).entry

def ROUTE (r : RouteLogic ε) (i j : Nat) : Nat :=
  (r.route_ (INDEX i j r.size_)).next_hop

def ROUTE_ENTRY (r : RouteLogic ε) (i j : Nat) : Option ε :=
  (r.route_ (INDEX i j r.size_)).entry

def alloc (r : RouteLogic ε) (n : Nat) : RouteLogic ε :=
  { r with size_ := n, adj_ := fun _ => ⟨INFINITY, none⟩ }

/- Double a size until it is above a number. -/
def doubled (n m : Nat) : Nat :=
  if m ≤ n ∧ 0 < m then doubled n (2 * m) else m
termination_by n + 1 - m

/- A larger matrix takes over the costs, not the entries. -/
def check (r : RouteLogic ε) (n : Nat) : RouteLogic ε :=
  if n < r.size_ then r
  else
    let osize := r.size_
    let m := doubled n (if osize = 0 then 16 else osize)
    let new := r.alloc m
    { new with
      adj_ :=
        ((List.range osize).product
          (List.range osize)).foldl
          (fun adj ij =>
            Function.update adj (INDEX ij.1 ij.2 m)
              { adj (INDEX ij.1 ij.2 m) with
                cost :=
                  (r.adj_ (INDEX ij.1 ij.2 osize)).cost })
          new.adj_ }

def insert
    (r : RouteLogic ε)
    (src dst : Nat)
    (cost : Rat)
    (entry_ : Option ε) : RouteLogic ε :=
  let r := (r.check src).check dst
  { r with
    adj_ :=
      Function.update r.adj_ (INDEX src dst r.size_)
        ⟨cost, entry_⟩ }

def reset
    (r : RouteLogic ε)
    (src dst : Nat) : RouteLogic ε :=
  { r with
    adj_ :=
      Function.update r.adj_ (INDEX src dst r.size_)
        { r.adj_ (INDEX src dst r.size_) with
          cost := INFINITY } }

end RouteLogic

end Ns2

------------------------------------------------------------
-- Computing Routes
------------------------------------------------------------

namespace Ns2

namespace RouteLogic

variable {ε : Type}

/- The arrays that the search for one source works on. -/
structure Search (ε : Type) where
  parent : Nat → Nat
  hopcnt : Nat → Rat
  route_ : Nat → route_entry ε

/- All nodes; zero is not one. -/
def nodes (n : Nat) : List Nat :=
  List.range' 1 (n - 1)

/- Set the route for a neighbour of the source. -/
def neighbour
    (r : RouteLogic ε)
    (k : Nat)
    (s : Search ε)
    (v : Nat) : Search ε :=
  if s.parent v ≠ k then
    { s with
      hopcnt := Function.update s.hopcnt v (r.ADJ k v)
      route_ :=
        if r.ADJ k v ≠ INFINITY then
          Function.update s.route_ (INDEX k v r.size_)
            ⟨v, r.ADJ_ENTRY k v⟩
        else s.route_ }
  else s

/- The node nearest to the ones that have been routed. -/
def nearest
    (n k : Nat)
    (s : Search ε) : Nat :=
  (nodes n).foldl
    (fun o w =>
      if s.parent w ≠ k ∧ s.hopcnt w < s.hopcnt o then w
      else o)
    0

/- Update the distance of a node adjacent to `o`. -/
def adjacent
    (r : RouteLogic ε)
    (k o : Nat)
    (s : Search ε)
    (w : Nat) : Search ε :=
  if s.parent w ≠ k ∧
      s.hopcnt o + r.ADJ o w < s.hopcnt w then
    { s with
      route_ :=
        Function.update s.route_ (INDEX k w r.size_)
          (s.route_ (INDEX k o r.size_))
      hopcnt :=
        Function.update s.hopcnt w
          (s.hopcnt o + r.ADJ o w) }
  else s

def round
    (r : RouteLogic ε)
    (k : Nat)
    (s : Search ε) : Search ε :=
  let s :=
    { s with hopcnt := Function.update s.hopcnt 0 INFINITY }
  let o := nearest r.size_ k s
  let s := { s with parent := Function.update s.parent o k }
  if o = 0 then s
  else (nodes r.size_).foldl (r.adjacent k o) s

/- The routes of one source. -/
def search
    (r : RouteLogic ε)
    (s : Search ε)
    (k : Nat) : Search ε :=
  let s :=
    { s with
      parent := fun v =>
        if v < r.size_ then v else s.parent v }
  let s := (nodes r.size_).foldl (r.neighbour k) s
  (nodes r.size_).foldl (fun s _ => r.round k s) s

/- The new arrays hold anything, the routes only zeros. -/
def compute_routes
    (r : RouteLogic ε)
    (parent : Nat → Nat)
    (hopcnt : Nat → Rat) : RouteLogic ε :=
  let s : Search ε := ⟨parent, hopcnt, fun _ => ⟨0, none⟩⟩
  let s := (nodes r.size_).foldl r.search s
  { r with
    route_ :=
      (nodes r.size_).foldl
        (fun route k =>
          Function.update route (INDEX k k r.size_)
            ⟨k, none⟩)
        s.route_ }

end RouteLogic

end Ns2
