import Ns2.Lib.Ring
import Ns2.Queue.Buckets

/-
  Deficit round robin.

  Packets are hashed to buckets, and the buckets that hold
  packets are served in turn.  In each turn a bucket may send
  the quantum of bytes, and what it saved from the turns
  before.  The functions get the bucket that a packet is
  hashed to.  The source address that a bucket remembers only
  serves a message and is left out.  An operation that would
  follow a null pointer has no result.

  Main declarations:
    * `DRR`, `DRR.enque`, `DRR.deque`
    * `DRR.getMaxflow`, `DRR.shrink`
-/

------------------------------------------------------------
-- Queue
------------------------------------------------------------

namespace Ns2

/- A bucket; its neighbours are kept with the ring. -/
structure PacketDRR (α : Type) where
  queue : List α
  pkts : Int
  bcount : Int
  deficitCounter : Int
  turn : Bool
deriving DecidableEq, Repr

/- The queue with `n` buckets. -/
structure DRR (n : Nat) (α : Type) where
  blimit : Int
  quantum : Int
  drr : Fin n → PacketDRR α
  links : RingLinks (Fin n)
  curr : Option (Fin n)
  bytecnt : Int
  pktcnt : Int
  flwcnt : Int

namespace PacketDRR

variable {n : Nat} {α : Type}

def empty : PacketDRR α := ⟨[], 0, 0, 0, false⟩

/- Enter the ring before its head. -/
def activate
    (links : RingLinks (Fin n))
    (this : Fin n)
    (head : Option (Fin n)) :
    Option (RingLinks (Fin n) × Fin n) :=
  links.enter this head

/- Leave the ring, at its head or elsewhere. -/
def idle
    (links : RingLinks (Fin n))
    (this : Fin n)
    (head : Option (Fin n)) :
    Option (RingLinks (Fin n) × Option (Fin n)) :=
  links.leave this head

/- The turn of a bucket begins with a new quantum. -/
def granted
    (q : PacketDRR α)
    (quantum : Int) : PacketDRR α :=
  if q.turn then q
  else
    { q with
      deficitCounter := q.deficitCounter + quantum
      turn := true }

/- The bucket without its first packet, of `size` bytes. -/
def shorten
    (q : PacketDRR α)
    (size : Int) : PacketDRR α :=
  { q with
    queue := q.queue.tail
    bcount := q.bcount - size
    pkts := q.pkts - 1 }

end PacketDRR

namespace DRR

variable {n : Nat} {α : Type}

def new (blimit quantum : Int) : DRR n α where
  blimit := blimit
  quantum := quantum
  drr := fun _ => .empty
  links := RingLinks.empty
  curr := none
  bytecnt := 0
  pktcnt := 0
  flwcnt := 0

def setBucket
    (d : DRR n α)
    (i : Fin n)
    (q : PacketDRR α) : DRR n α :=
  { d with drr := Function.update d.drr i q }

/- Follow the ring for a number of buckets. -/
def maxflowLoop
    (d : DRR n α) :
    Nat → Fin n → Option (Fin n) → Option (Fin n)
| 0, maxflow, _ => some maxflow
| i + 1, maxflow, tmp =>
    tmp.bind fun tmp =>
      d.maxflowLoop i
        (if (d.drr maxflow).bcount < (d.drr tmp).bcount
          then tmp
        else maxflow) (d.links.next tmp)

/- The bucket with the most bytes. -/
def getMaxflow (d : DRR n α) : Option (Fin n) :=
  d.curr.bind fun curr =>
    d.maxflowLoop d.flwcnt.toNat curr (some curr)

variable (size : α → Int)

/- Drop the first packet of a bucket. -/
def dropFrom
    (d : DRR n α)
    (remq : Fin n) : Option (DRR n α × α) := do
  let p ← (d.drr remq).queue.head?
  let q := (d.drr remq).shorten (size p)
  let d :=
    { d.setBucket remq q with
      bytecnt := d.bytecnt - size p
      pktcnt := d.pktcnt - 1 }
  if q.pkts = 0 then
    let next ← PacketDRR.idle d.links remq d.curr
    return ({ d with
      links := next.1
      curr := next.2
      flwcnt := d.flwcnt - 1 }, p)
  else
    return (d, p)

/-
  Drop packets of the longest bucket until the others fit.
  Each drop takes one packet, so their number bounds the loop.
-/
def shrink
    (fuel : Nat)
    (d : DRR n α) :
    Option (DRR n α × List (Fin n × α)) :=
  if d.bytecnt ≤ d.blimit then some (d, [])
  else
    match fuel with
    | 0 => none
    | fuel + 1 => do
        let remq ← d.getMaxflow
        let next ← d.dropFrom size remq
        let last ← shrink fuel next.1
        return (last.1, (remq, next.2) :: last.2)

/- Store a packet in its bucket. -/
def store
    (d : DRR n α)
    (which : Fin n)
    (pkt : α) : Option (DRR n α) :=
  let q := d.drr which
  let q :=
    { q with
      queue := q.queue ++ [pkt]
      pkts := q.pkts + 1
      bcount := q.bcount + size pkt }
  let d :=
    { d with
      pktcnt := d.pktcnt + 1
      bytecnt := d.bytecnt + size pkt }
  if q.pkts = 1 then do
    let next ← PacketDRR.activate d.links which d.curr
    return { d.setBucket which
        { q with deficitCounter := 0 } with
      links := next.1
      curr := some next.2
      flwcnt := d.flwcnt + 1 }
  else
    some (d.setBucket which q)

/- Store a packet, and return the packets that are dropped. -/
def enque
    (d : DRR n α)
    (which : Fin n)
    (pkt : α) : Option (DRR n α × List (Fin n × α)) := do
  let d ← d.store size which pkt
  d.shrink size d.pktcnt.toNat

/- Send the first packet of the bucket that has its turn. -/
def serve
    (d : DRR n α)
    (curr : Fin n)
    (pkt : α) : Option (DRR n α × Option α) :=
  let q := ((d.drr curr).granted d.quantum).shorten (size pkt)
  let q :=
    { q with
      deficitCounter := q.deficitCounter - size pkt }
  let d :=
    { d with
      pktcnt := d.pktcnt - 1
      bytecnt := d.bytecnt - size pkt }
  if q.pkts = 0 then do
    let next ← PacketDRR.idle d.links curr (some curr)
    return ({ d.setBucket curr
        { q with turn := false, deficitCounter := 0 } with
      flwcnt := d.flwcnt - 1
      links := next.1
      curr := next.2 }, some pkt)
  else
    some (d.setBucket curr q, some pkt)

/- The turn passes to the next bucket. -/
def pass
    (d : DRR n α)
    (curr : Fin n) : DRR n α :=
  { d.setBucket curr
      { (d.drr curr).granted d.quantum with turn := false } with
    curr := d.links.next curr }

def dequeLoop :
    Nat → DRR n α → Option (DRR n α × Option α)
| 0, _ => none
| fuel + 1, d => do
    let curr ← d.curr
    let pkt ← (d.drr curr).queue.head?
    if size pkt ≤
        ((d.drr curr).granted d.quantum).deficitCounter then
      d.serve size curr pkt
    else
      dequeLoop fuel (d.pass curr)

/-
  More turns than the first packets of all buckets need to
  save their bytes.
-/
def turns (d : DRR n α) : Nat :=
  ((List.finRange n).map fun i =>
    ((d.drr i).bcount / d.quantum).toNat + 1).sum + 1

/- The next packet, if there is one. -/
def deque
    (d : DRR n α) : Option (DRR n α × Option α) :=
  if d.bytecnt = 0 then some (d, none)
  else d.dequeLoop size d.turns

end DRR

end Ns2
