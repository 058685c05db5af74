import Mathlib.Algebra.Order.Ring.Rat
import Ns2.Dsr.Path

/-
  The request table of a node.

  A circular buffer of entries, each with a network and a MAC
  id and the number of the latest request heard from there.
  A lookup takes the first slot that has either id.  Ids are
  kept as the hosts they are compared by, the last type of an
  entry, which the table never looks at, is left out, and a
  table has at least one slot.

  Main declarations:
    * `RequestTable.find`, `RequestTable.get`
    * `RequestTable.getEntry`, `RequestTable.insert`
    * `RequestTable.Call`, `RequestTable.run`
-/

------------------------------------------------------------
-- Tables
------------------------------------------------------------

namespace Ns2

namespace Dsr

structure Entry where
  MAC_id : Host
  net_id : Host
  req_num : Int
  last_arp : Rat
  rt_reqs_outstanding : Int
  last_rt_req : Rat
deriving DecidableEq

/- The next slot to be written is one of the table's. -/
structure RequestTable where
  table : List Entry
  ptr : Nat
  ptr_lt : ptr < table.length

/- An id that the constructor of `ID` left without a name. -/
def Entry.Unused (e : Entry) : Prop :=
  e.net_id.type = .NONE ∧ e.MAC_id.type = .NONE

instance : DecidablePred Entry.Unused := fun e =>
  inferInstanceAs
    (Decidable (e.net_id.type = .NONE ∧ e.MAC_id.type = .NONE))

/- The entry that a slot is overwritten with. -/
def Entry.create
    (rt_rq_period : Rat)
    (net_id MAC_id : Host)
    (req_num : Int) : Entry where
  MAC_id := MAC_id
  net_id := net_id
  req_num := req_num
  last_arp := 0
  rt_reqs_outstanding := 0
  last_rt_req := -(rt_rq_period + 1)

namespace RequestTable

/- A table in memory that holds `slots`. -/
def new
    (slots : List Entry)
    (hSize : 0 < slots.length) : RequestTable :=
  ⟨slots, 0, hSize⟩

def size (t : RequestTable) : Nat :=
  t.table.length

/- The first slot with one of the ids, or the size. -/
def find
    (t : RequestTable)
    (net_id MAC_id : Host) : Nat :=
  t.table.findIdx fun e =>
    e.net_id = net_id ∨ e.MAC_id = MAC_id

def get
    (t : RequestTable)
    (id : Host) : Int :=
  if hFound : t.find id id < t.table.length then
    t.table[t.find id id].req_num
  else 0

/- Write a slot. -/
def write
    (t : RequestTable)
    (i : Nat)
    (f : Entry → Entry) : RequestTable where
  table := t.table.modify i f
  ptr := t.ptr
  ptr_lt := by
    rw [List.length_modify]
    exact t.ptr_lt

/- Overwrite the slot whose turn it is. -/
def add
    (t : RequestTable)
    (entry : Entry) : RequestTable where
  table := t.table.set t.ptr entry
  ptr := (t.ptr + 1) % t.size
  ptr_lt := by
    rw [List.length_set]
    exact Nat.mod_lt _ (Nat.zero_lt_of_lt t.ptr_lt)

/- The slot of an id, which may be a new one. -/
def getEntry
    (rt_rq_period : Rat)
    (t : RequestTable)
    (id : Host) : Nat × RequestTable :=
  if t.find id id < t.size then (t.find id id, t)
  else
    (t.ptr, t.add (.create rt_rq_period id invalid_addr 0))

/- The number for an entry that was there already. -/
def renumber
    (MAC_id : Host)
    (req_num : Int)
    (e : Entry) : Entry :=
  { e with
    MAC_id :=
      if e.MAC_id = invalid_addr then MAC_id else e.MAC_id
    req_num := req_num }

def insert
    (rt_rq_period : Rat)
    (t : RequestTable)
    (net_id MAC_id : Host)
    (req_num : Int) : RequestTable :=
  if t.find net_id MAC_id < t.size then
    t.write (t.find net_id MAC_id) (renumber MAC_id req_num)
  else
    t.add (.create rt_rq_period net_id MAC_id req_num)

/- The insertion without a MAC id. -/
def insertNet
    (rt_rq_period : Rat)
    (t : RequestTable)
    (net_id : Host)
    (req_num : Int) : RequestTable :=
  t.insert rt_rq_period net_id invalid_addr req_num

end RequestTable

end Dsr

end Ns2

------------------------------------------------------------
-- Runs
------------------------------------------------------------

namespace Ns2

namespace Dsr

namespace RequestTable

inductive Call where
| insertNet (id : Host) (req_num : Int)
| insert (id : Host) (req_num : Int)
| getEntry (id : Host)

def Call.id : Call → Host
| insertNet id _ => id
| insert id _ => id
| getEntry id => id

def call
    (rt_rq_period : Rat)
    (t : RequestTable) :
    Call → RequestTable
| .insertNet id n => t.insertNet rt_rq_period id n
| .insert id n => t.insert rt_rq_period id id n
| .getEntry id => (t.getEntry rt_rq_period id).2

def run
    (rt_rq_period : Rat)
    (t : RequestTable)
    (calls : List Call) : RequestTable :=
  calls.foldl (call rt_rq_period) t

end RequestTable

end Dsr

end Ns2
