import Mathlib.Algebra.Order.Ring.Rat
import Ns2.Lib.SortedMap

/-
  The routing table of a node.

  An entry is kept under its destination, in the order of the
  destinations.  The events that ask for a triggered update are
  left out: updates may be sent at any time here.  A timeout is
  pending or not, and packets are kept as what routing reads.

  Main declarations:
    * `RtableEnt`, `RoutingTable`
    * `RoutingTable.getEntry`, `RoutingTable.addEntry`
-/

------------------------------------------------------------
-- Tables
------------------------------------------------------------

namespace Ns2

namespace Dsdv

def BIG : Nat := 250

/- A packet that carries data. -/
structure DataPacket where
  saddr : Int
  daddr : Int
  ttl : Int
  num_forwards : Nat
deriving DecidableEq

structure RtableEnt where
  hop : Int
  metric : Nat
  seqnum : Nat
  advertise_ok_at : Rat
  advert_seqnum : Bool
  advert_metric : Bool
  last_advertised_metric : Nat
  changed_at : Rat
  new_seqnum_at : Rat
  wst : Rat
  timeout_event : Bool
  q : Option (List DataPacket)
deriving DecidableEq

/- All bytes are zero. -/
def RtableEnt.bzero : RtableEnt where
  hop := 0
  metric := 0
  seqnum := 0
  advertise_ok_at := 0
  advert_seqnum := false
  advert_metric := false
  last_advertised_metric := 0
  changed_at := 0
  new_seqnum_at := 0
  wst := 0
  timeout_event := false
  q := none

abbrev RoutingTable := SortedMap Int RtableEnt

namespace RoutingTable

def getEntry
    (t : RoutingTable)
    (dest : Int) : Option RtableEnt :=
  t.find dest

/- An entry replaces the one there is. -/
def addEntry
    (t : RoutingTable)
    (dst : Int)
    (ent : RtableEnt) : RoutingTable :=
  t.set dst ent

variable (t : RoutingTable)
variable {dst dst' : Int}
variable {ent : RtableEnt}

@[simp] theorem getEntry_addEntry_self :
    (t.addEntry dst ent).getEntry dst = some ent :=
  t.find_set_self

theorem getEntry_addEntry_ne
    (hNe : dst' ≠ dst) :
    (t.addEntry dst ent).getEntry dst' = t.getEntry dst' :=
  t.find_set_ne hNe

theorem getEntry_addEntry :
    (t.addEntry dst ent).getEntry dst' =
      if dst' = dst then some ent else t.getEntry dst' := by
  by_cases hEq : dst' = dst
  · rw [if_pos hEq, hEq, getEntry_addEntry_self]
  · rw [if_neg hEq, getEntry_addEntry_ne t hEq]

@[simp] theorem getEntry_mapValues
    {f : Int → RtableEnt → RtableEnt} :
    getEntry (t.mapValues f) dst = (t.getEntry dst).map (f dst) :=
  t.find_mapValues

end RoutingTable

end Dsdv

end Ns2
