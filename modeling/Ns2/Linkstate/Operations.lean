import Mathlib.Algebra.Order.Group.Int
import Ns2.Lib.SortedMap

/-
  Route computation of the link state protocol.

  A node computes its routes from the link state database:
  paths that are final, and tentative ones from which the
  cheapest is taken next.  Destinations keep every next hop
  of equal cost.  Sequence numbers of links, which only the
  flooding of updates reads, are left out.

  Main declarations:
    * `LsLinkState`, `LsTopoMap`
    * `LsPaths.insertPath`, `LsPaths.insertNextHopList`
    * `LsPaths.popShortestPath`
    * `LsRouting.computeRoutes`
-/

------------------------------------------------------------
-- Link states
------------------------------------------------------------

namespace Ns2

def LS_INVALID_NODE_ID : Int := 65535
def LS_INVALID_COST : Int := 65535
def LS_MAX_COST : Int := 65534

/- The sum of two `int`s of 32 bits. -/
def addInt (a b : Int) : Int :=
  (a + b).bmod 4294967296

inductive LsStatus where
| LS_STATUS_DOWN
| LS_STATUS_UP
deriving DecidableEq, Repr

structure LsLinkState where
  neighborId : Int
  status : LsStatus
  cost : Int
deriving DecidableEq, Repr

/- The links that each node of the topology reports. -/
abbrev LsTopoMap := SortedMap Int (List LsLinkState)

------------------------------------------------------------
-- Paths
------------------------------------------------------------

structure LsPath where
  destination : Int
  cost : Int
  nextHop : Int
deriving DecidableEq, Repr

/- The path of the constructor without arguments. -/
def LsPath.invalid : LsPath where
  destination := LS_INVALID_NODE_ID
  cost := 0
  nextHop := 0

/- The source compares the next hop with the invalid cost. -/
def LsPath.isValid (path : LsPath) : Bool :=
  decide (path.destination ≠ LS_INVALID_NODE_ID) &&
    decide (path.cost ≠ LS_INVALID_COST) &&
    decide (path.nextHop ≠ LS_INVALID_COST)

structure LsEqualPaths where
  cost : Int
  nextHopList : List Int
deriving DecidableEq, Repr

def appendUnique
    (ids : List Int) :
    List Int → List Int
| [] => ids
| x :: xs =>
    if x ∈ ids then appendUnique ids xs
    else appendUnique (ids ++ [x]) xs

abbrev LsPaths := SortedMap Int LsEqualPaths

namespace LsPaths

variable (paths : LsPaths)

def lookupCost (destId : Int) : Int :=
  match paths.find destId with
  | none => LS_MAX_COST + 1
  | some ep => ep.cost

def lookupNextHopList (destId : Int) : Option (List Int) :=
  (paths.find destId).map LsEqualPaths.nextHopList

def insertPathNoChecking (path : LsPath) : LsPaths :=
  paths.insert path.destination ⟨path.cost, [path.nextHop]⟩

def insertPath (path : LsPath) : LsPaths :=
  match paths.find path.destination with
  | none => insertPathNoChecking paths path
  | some ep =>
      if ep.cost < path.cost then paths
      else if path.cost < ep.cost then
        paths.modify path.destination
          fun _ => ⟨path.cost, [path.nextHop]⟩
      else if path.nextHop ∈ ep.nextHopList then paths
      else
        paths.modify path.destination
          fun ep => { ep with
            nextHopList := ep.nextHopList ++ [path.nextHop] }

def insertNextHopList
    (destId cost : Int)
    (nextHopList : List Int) : LsPaths :=
  match paths.find destId with
  | none => paths.insert destId ⟨cost, nextHopList⟩
  | some ep =>
      if ep.cost < cost then paths
      else if cost < ep.cost then
        paths.modify destId fun _ => ⟨cost, nextHopList⟩
      else
        paths.modify destId
          fun ep => { ep with
            nextHopList :=
              appendUnique ep.nextHopList nextHopList }

/- One step of the search for the cheapest entry. -/
def cheaper
    (best : Int × Option (Int × LsEqualPaths))
    (e : Int × LsEqualPaths) :
    Int × Option (Int × LsEqualPaths) :=
  if e.2.cost < best.1 ∧ e.2.nextHopList ≠ [] then
    (e.2.cost, some e)
  else best

/- The first of the cheapest entries, in the order of ids. -/
def findMinEqualPaths : Option (Int × LsEqualPaths) :=
  (paths.entries.foldl cheaper (LS_MAX_COST + 1, none)).2

/- The path taken out, and the tentative paths that remain. -/
def popShortestPath : LsPath × LsPaths :=
  match findMinEqualPaths paths with
  | none => (LsPath.invalid, paths)
  | some (destination, ep) =>
      match ep.nextHopList with
      | [] => (LsPath.invalid, paths)
      | [nextHop] =>
          (⟨destination, ep.cost, nextHop⟩,
            paths.erase destination)
      | nextHop :: rest =>
          (⟨destination, ep.cost, nextHop⟩,
            paths.modify destination
              fun ep => { ep with nextHopList := rest })

end LsPaths

------------------------------------------------------------
-- Routes
------------------------------------------------------------

namespace LsRouting

/- The final and the tentative paths. -/
structure Routes where
  paths : LsPaths
  tentativePaths : LsPaths

variable (linkStateDatabase : LsTopoMap)
variable (myNodeId : Int)

/- Step 2 for one link of the node just put in the paths. -/
def relaxLink
    (newNodeId : Int)
    (nhl : List Int)
    (paths tentativePaths : LsPaths)
    (link : LsLinkState) : LsPaths :=
  if link.status ≠ .LS_STATUS_UP then tentativePaths
  else
    let dest := link.neighborId
    let pathCost :=
      addInt link.cost (paths.lookupCost newNodeId)
    if paths.lookupCost dest < pathCost then tentativePaths
    else if newNodeId = myNodeId then
      tentativePaths.insertNextHopList dest pathCost [dest]
    else tentativePaths.insertNextHopList dest pathCost nhl

def relaxLinks
    (newNodeId : Int)
    (nhl : List Int)
    (r : Routes)
    (links : List LsLinkState) : Routes :=
  { r with
    tentativePaths :=
      links.foldl (relaxLink myNodeId newNodeId nhl r.paths)
        r.tentativePaths }

/- Step 2: nothing where the next hops cannot be found. -/
def visit
    (newNodeId : Int)
    (r : Routes)
    (links : List LsLinkState) : Option Routes :=
  if newNodeId = myNodeId then
    some (relaxLinks myNodeId newNodeId [] r links)
  else
    match r.paths.lookupNextHopList newNodeId with
    | none => none
    | some nhl =>
        some (relaxLinks myNodeId newNodeId nhl r links)

/- One round of the inner loop, with step 2 if it is due. -/
def popRound (r : Routes) : Option Routes :=
  let sp := r.tentativePaths.popShortestPath
  if sp.1.isValid then
    let next : Routes := ⟨r.paths.insertPath sp.1, sp.2⟩
    match linkStateDatabase.find sp.1.destination with
    | none => some next
    | some links => visit myNodeId sp.1.destination next links
  else none

/-
  Both loops as one: after a path is installed they look at
  the links of its destination, if any are known, and then
  go on with the next path.
-/
def popLoop :
    Nat → Routes → Option LsPaths
| 0, _ => none
| fuel + 1, r =>
    if r.tentativePaths.entries = [] then some r.paths
    else
      (popRound linkStateDatabase myNodeId r).bind
        (popLoop fuel)

/- Nothing where the program aborts or the fuel is used up. -/
def computeRoutes (fuel : Nat) : Option LsPaths :=
  let paths : LsPaths :=
    LsPaths.insertPathNoChecking .new ⟨myNodeId, 0, myNodeId⟩
  match linkStateDatabase.find myNodeId with
  | none => some paths
  | some links =>
      (visit myNodeId myNodeId ⟨paths, .new⟩ links).bind
        (popLoop linkStateDatabase myNodeId fuel)

end LsRouting

end Ns2
