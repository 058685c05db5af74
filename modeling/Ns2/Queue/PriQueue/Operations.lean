import Ns2.Queue.PacketQueue

/-
  The hand-off from a queue to its link.

  A queue stores packets while the link is busy.  It drops
  packets at its limit, from the front or the tail; a priority
  queue puts the packets of routing protocols in front of the
  others, and lets packets be filtered out.  A drop-tail queue
  is one that prefers no protocols and is never filtered.  The
  statistics of the queue are left out.

  Main declarations:
    * `PriQueue`, `PriQueue.recv`, `PriQueue.resume`
    * `PriQueue.filter`, `PriQueue.filterHop`
    * `PriQueue.shrink_queue`
-/

------------------------------------------------------------
-- Queue
------------------------------------------------------------

namespace Ns2

/- The types of packets that a priority queue knows. -/
inductive PacketType where
| PT_DSR
| PT_MESSAGE
| PT_TORA
| PT_AODV
| PT_AOMDV
| PT_MDART
| other
deriving DecidableEq, Repr

/- What the queue reads in the header of a packet. -/
structure HdrCmn where
  size : Int
  ptype : PacketType
  nextHop : Int
deriving DecidableEq, Repr

/- `qib` is whether the limit is one of bytes. -/
structure PriQueue (α : Type) where
  q : PacketQueue α
  blocked : Bool
  unblockOnResume : Bool
  qlim : Int
  dropFront : Bool
  qib : Bool
  meanPktsize : Int
  preferRoutingProtocols : Bool

/- Where the packets go that leave the queue. -/
structure Moves (α : Type) where
  forwarded : List α
  dropped : List α
  filtered : List α

/- Whether a preferred packet goes in front of the others. -/
def PacketType.isRouting : PacketType → Bool
| .PT_DSR => true
| .PT_MESSAGE => true
| .PT_TORA => true
| .PT_AODV => true
| .PT_AOMDV => true
| .PT_MDART => true
| .other => false

namespace PriQueue

variable {α : Type}

/- An empty queue with an idle link. -/
def new
    (next : α → Option α)
    (qlim : Int)
    (dropFront qib : Bool)
    (meanPktsize : Int)
    (preferRoutingProtocols : Bool) : PriQueue α where
  q := .new next
  blocked := false
  unblockOnResume := true
  qlim := qlim
  dropFront := dropFront
  qib := qib
  meanPktsize := meanPktsize
  preferRoutingProtocols := preferRoutingProtocols

variable [DecidableEq α]
variable (access : α → HdrCmn)

def size (p : α) : Int :=
  (access p).size

/- Whether the queue would overflow with the packet. -/
def overflows
    (d : PriQueue α)
    (p : α) : Bool :=
  if d.qib then
    decide (d.qlim * d.meanPktsize ≤
      d.q.bytes + size access p)
  else decide (d.qlim ≤ d.q.len + 1)

/- `DropTail::enque`, with the packets it drops. -/
def enque
    (d : PriQueue α)
    (p : α) : PriQueue α × List α :=
  if d.overflows access p then
    if d.dropFront then
      let next := (d.q.enque (size access) p).deque (size access)
      ({ d with q := next.1 }, next.2.toList)
    else (d, [p])
  else ({ d with q := d.q.enque (size access) p }, [])

def deque
    (d : PriQueue α) : PriQueue α × Option α :=
  let next := d.q.deque (size access)
  ({ d with q := next.1 }, next.2)

/- Send the first packet on, unless the link is busy. -/
def sendOn
    (d : PriQueue α) : PriQueue α × List α :=
  if d.blocked then (d, [])
  else
    match d.deque access with
    | (d, none) => (d, [])
    | (d, some p) => ({ d with blocked := true }, [p])

/- `Queue::recv`. -/
def recvOrdinary
    (d : PriQueue α)
    (p : α) : PriQueue α × Moves α :=
  let stored := d.enque access p
  let sent := stored.1.sendOn access
  (sent.1, ⟨sent.2, stored.2, []⟩)

/- Store a packet in front, and drop the last one if full. -/
def enqueHead
    (d : PriQueue α)
    (p : α) : Option (PriQueue α × List α) :=
  let q := d.q.enqueHead (size access) p
  if d.qlim ≤ q.len then do
    let toDrop ← q.lookup (q.len - 1).toNat
    let q ← q.remove (size access) toDrop
    return ({ d with q := q }, [toDrop])
  else some ({ d with q := q }, [])

def recvHighPriority
    (d : PriQueue α)
    (p : α) : Option (PriQueue α × Moves α) := do
  let stored ← d.enqueHead access p
  let sent := stored.1.sendOn access
  return (sent.1, ⟨sent.2, stored.2, []⟩)

/- Whether the packet is stored in front of the others. -/
def prefers
    (d : PriQueue α)
    (p : α) : Bool :=
  d.preferRoutingProtocols && (access p).ptype.isRouting

def recv
    (d : PriQueue α)
    (p : α) : Option (PriQueue α × Moves α) :=
  if d.prefers access p then d.recvHighPriority access p
  else some (d.recvOrdinary access p)

/- The link asks for the next packet. -/
def resume
    (d : PriQueue α) : PriQueue α × Moves α :=
  match d.deque access with
  | (d, some p) => (d, ⟨[p], [], []⟩)
  | (d, none) =>
      ({ d with blocked := !d.unblockOnResume }, ⟨[], [], []⟩)

/- Drop all packets; each round of the loop takes one. -/
def resetLoop :
    Nat → PriQueue α → Option (PriQueue α × List α)
| 0, _ => none
| fuel + 1, d =>
    match d.deque access with
    | (d, none) => some (d, [])
    | (d, some p) =>
        (resetLoop fuel d).map fun next =>
          (next.1, p :: next.2)

def reset
    (d : PriQueue α) : Option (PriQueue α × Moves α) :=
  (d.resetLoop access (d.q.len.toNat + 1)).map fun next =>
    (next.1, ⟨[], next.2, []⟩)

/-
  Ask the filter about the packet at position `i`, and go on.
  The `k`th question may be answered with respect to `k`.
-/
def filterLoop
    (f : Nat → α → Bool) :
    Nat → Nat → Nat → PacketQueue α →
      Option (PacketQueue α × List α)
| 0, _, _, _ => none
| fuel + 1, k, i, q =>
    if (i : Int) < q.len then do
      let p ← q.lookup i
      if f k p then
        let q ← q.remove (size access) p
        let next ← filterLoop f fuel (k + 1) i q
        return (next.1, p :: next.2)
      else filterLoop f fuel (k + 1) (i + 1) q
    else some (q, [])

/- Each round of the loop asks about one packet. -/
def filter
    (d : PriQueue α)
    (f : Nat → α → Bool) :
    Option (PriQueue α × Moves α) :=
  (filterLoop access f (d.q.len.toNat + 1) 0 0 d.q).map
    fun next => ({ d with q := next.1 }, ⟨[], [], next.2⟩)

/- The first packet with a next hop, and the one before. -/
def findHop
    (q : PacketQueue α)
    (id : Int) :
    Nat → Option α → Option α → Option (Option (α × Option α))
| 0, _, _ => none
| _ + 1, _, none => some none
| fuel + 1, pp, some p =>
    if (access p).nextHop = id then some (some (p, pp))
    else findHop q id fuel (some p) (q.next p)

/- Return the first packet with a next hop. -/
def filterHop
    (d : PriQueue α)
    (id : Int) : Option (PriQueue α × Moves α) := do
  let found ←
    findHop access d.q id (d.q.len.toNat + 1) none d.q.head
  match found with
  | none => return (d, ⟨[], [], []⟩)
  | some (p, none) =>
      let q ← d.q.remove (size access) p
      return ({ d with q := q }, ⟨[], [], [p]⟩)
  | some (p, some pp) =>
      let q := d.q.removeAfter (size access) p pp
      return ({ d with q := q }, ⟨[], [], [p]⟩)

/- Whether the queue is longer than its limit. -/
def exceeds (d : PriQueue α) : Bool :=
  if d.qib then decide (d.qlim * d.meanPktsize < d.q.bytes)
  else decide (d.qlim < d.q.len)

/- Drop the first packet, or the last one. -/
def dropOne
    (d : PriQueue α) : Option (PacketQueue α × α) :=
  if d.dropFront then
    let next := d.q.deque (size access)
    next.2.map fun pp => (next.1, pp)
  else
    d.q.tail.bind fun pp =>
      (d.q.remove (size access) pp).map fun q => (q, pp)

/- Drop packets until the limit is kept. -/
def shrinkLoop :
    Nat → PriQueue α → Option (PriQueue α × List α)
| 0, _ => none
| fuel + 1, d =>
    if d.exceeds then do
      let next ← d.dropOne access
      let last ← shrinkLoop fuel { d with q := next.1 }
      return (last.1, next.2 :: last.2)
    else some (d, [])

def shrink_queue
    (d : PriQueue α) : Option (PriQueue α × Moves α) :=
  (d.shrinkLoop access (d.q.len.toNat + 1)).map fun next =>
    (next.1, ⟨[], next.2, []⟩)

end PriQueue

end Ns2
