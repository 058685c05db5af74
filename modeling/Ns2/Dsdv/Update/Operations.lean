import Ns2.Dsdv.Table
import Ns2.Lib.Bytes

/-
  Update packets.

  A full update carries every route that may be advertised, a
  triggered one those that changed.  The packet has a byte for
  the number of routes, and nine for each route.  `none` stands
  for an access outside the data and for a failed assertion.
  Sequence numbers start over at `limit`, and never do if it is
  zero.

  Main declarations:
    * `Agent`, `Agent.prepare`, `Agent.selected`
    * `Agent.makeUpdate`, `Agent.update`
    * `readUpdate`
-/

------------------------------------------------------------
-- Choosing Routes
------------------------------------------------------------

namespace Ns2

namespace Dsdv

/- What an update says of a destination. -/
structure Advert where
  dst : Int
  metric : Nat
  seqnum : Nat
deriving DecidableEq

structure Agent where
  myaddr_ : Int
  seqno_ : Nat
  table_ : RoutingTable

def RtableEnt.changed (e : RtableEnt) : Bool :=
  e.advert_seqnum || e.advert_metric

/- The entry of a node for itself. -/
def ownEntry
    (hop : Int)
    (seqno : Nat)
    (now : Rat) : RtableEnt :=
  { RtableEnt.bzero with
    hop := hop
    metric := 0
    seqnum := seqno
    advertise_ok_at := 0
    advert_seqnum := true
    changed_at := now
    new_seqnum_at := now
    wst := 0 }

namespace Agent

variable (a : Agent)
variable (limit : Nat)
variable (periodic : Bool)
variable (now : Rat)

def rtblSz : Nat :=
  a.table_.entries.length

def changeCount : Nat :=
  a.table_.entries.countP fun e =>
    e.2.changed && decide (e.2.advertise_ok_at ≤ now)

def unadvertiseable : Nat :=
  a.table_.entries.countP fun e =>
    decide (now < e.2.advertise_ok_at)

/- An update is full where much of the table changed. -/
def full : Bool :=
  periodic ||
    decide (a.rtblSz < a.changeCount now * 3 ∧
      3 < a.changeCount now)

/- The own entry, with the next sequence number. -/
def renewed : Agent :=
  let seqno := (a.seqno_ + 2) % limit
  { a with
    seqno_ := seqno
    table_ := a.table_.addEntry a.myaddr_
      (ownEntry a.myaddr_ seqno now) }

/- The number of routes that go out, and the agent then. -/
def prepare : Nat × Agent :=
  if a.full periodic now then
    (a.rtblSz - a.unadvertiseable now, a.renewed limit now)
  else (a.changeCount now, a)

end Agent

/- Whether the second pass takes an entry. -/
def RtableEnt.included
    (full : Bool)
    (now : Rat)
    (e : RtableEnt) : Bool :=
  if full && decide (now < e.advertise_ok_at) then false
  else full || e.changed && decide (e.advertise_ok_at ≤ now)

def RtableEnt.toAdvert
    (dst : Int)
    (e : RtableEnt) : Advert :=
  ⟨dst, e.metric, e.seqnum⟩

/- An entry after it was advertised. -/
def RtableEnt.advertised
    (full : Bool)
    (e : RtableEnt) : RtableEnt :=
  { e with
    last_advertised_metric := e.metric
    advert_seqnum := false
    advert_metric := if full then false else e.advert_metric }

/- The routes that the second pass takes, in order. -/
def RoutingTable.selected
    (t : RoutingTable)
    (full : Bool)
    (now : Rat) : List Advert :=
  (t.entries.filter fun e => e.2.included full now).map
    fun e => e.2.toAdvert e.1

def RoutingTable.advertise
    (t : RoutingTable)
    (full : Bool)
    (now : Rat) : RoutingTable :=
  t.mapValues fun _ e =>
    if e.included full now then e.advertised full else e

end Dsdv

end Ns2

------------------------------------------------------------
-- Packets
------------------------------------------------------------

namespace Ns2

namespace Dsdv

/- Bytes from a position on, if there are so many. -/
def peek
    (data : List Byte)
    (walk n : Nat) : Option (List Byte) :=
  if walk + n ≤ data.length then
    some ((data.drop walk).take n)
  else none

def poke
    (data : List Byte)
    (walk : Nat)
    (bytes : List Byte) : Option (List Byte) :=
  if walk + bytes.length ≤ data.length then
    some (data.take walk ++ bytes ++
      data.drop (walk + bytes.length))
  else none

/- A word, the high byte first; a byte keeps the low bits. -/
def wordBytes (x : Int) : List Byte :=
  [.ofInt 8 (x >>> (24 : Nat)), .ofInt 8 (x >>> (16 : Nat)),
    .ofInt 8 (x >>> (8 : Nat)), .ofInt 8 (x >>> (0 : Nat))]

def readWord (bytes : List Byte) : BitVec 32 :=
  bytes.foldl (fun x b => x <<< 8 ||| b.setWidth 32) 0

def Advert.bytes (r : Advert) : List Byte :=
  wordBytes r.dst ++ [.ofNat 8 r.metric] ++ wordBytes r.seqnum

def Advert.ofBytes (bytes : List Byte) : Advert where
  dst := (readWord (bytes.take 4)).toInt
  metric := (bytes.getD 4 0).toNat
  seqnum := (readWord (bytes.drop 5)).toNat

def writeAdverts
    (data : List Byte)
    (walk : Nat) :
    List Advert → Option (List Byte)
| [] => some data
| r :: rs => do
    let data ← poke data walk r.bytes
    writeAdverts data (walk + 9) rs

/- The agent after an update, and the packet if there is one. -/
structure Made where
  agent : Agent
  periodic : Bool
  packet : Option (List Byte)

/- Make an update, in data that holds `fresh` to begin with. -/
def Agent.makeUpdate
    (fresh : Nat → Byte)
    (limit : Nat)
    (a : Agent)
    (periodic : Bool)
    (now : Rat) : Option Made :=
  let full := a.full periodic now
  let (change_count, a) := a.prepare limit periodic now
  if change_count = 0 then some ⟨a, full, none⟩
  else do
    let routes := a.table_.selected full now
    let data := (List.range (change_count * 9 + 1)).map fresh
    let data ← poke data 0 [.ofNat 8 change_count]
    let data ← writeAdverts data 1 routes
    -- each route took one off the count
    if routes.length = change_count then
      some ⟨{ a with table_ := a.table_.advertise full now },
        full, some data⟩
    else none

/-
  The same, with the routes that are read from the packet: a
  byte has their number.
-/
def Agent.update
    (limit : Nat)
    (a : Agent)
    (periodic : Bool)
    (now : Rat) : Option (Agent × Option (List Advert)) :=
  let full := a.full periodic now
  let (change_count, a) := a.prepare limit periodic now
  if change_count = 0 then some (a, none)
  else
    let routes := a.table_.selected full now
    if routes.length = change_count then
      some ({ a with table_ := a.table_.advertise full now },
        some (routes.take (change_count % 256)))
    else none

/- The loop that takes an update apart. -/
def readAdverts
    (data : List Byte) :
    Nat → Nat → Option (List Advert)
| 0, _ => some []
| i + 1, w => do
    let bytes ← peek data w 9
    let rest ← readAdverts data i (w + 9)
    return .ofBytes bytes :: rest

def readUpdate (data : List Byte) : Option (List Advert) := do
  let count ← peek data 0 1
  readAdverts data (count.getD 0 0).toNat 1

end Dsdv

end Ns2
