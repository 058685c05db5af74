import Ns2.Dsdv.Update.Operations

/-
  What an agent does with packets and timeouts.

  A data packet without a route is kept with the entry for its
  destination.  An update changes the entries for what it says,
  and packets that were kept are sent when there is a route.
  `none` stands for a failed assertion, and for a queue that is
  still not empty after `steps` packets were taken off it.  The
  nodes are in one subnet, lost links are reported, and numbers
  are exact.

  Main declarations:
    * `Agent.recv`, `RoutingTable.nextHop`
    * `Agent.processUpdate`
    * `Agent.timeout`, `Agent.lostLink`, `Agent.startUp`
-/

------------------------------------------------------------
-- Data Packets
------------------------------------------------------------

namespace Ns2

namespace Dsdv

def MAX_QUEUE_LENGTH : Nat := 5

def IP_DEF_TTL : Int := 32

def IP_BROADCAST : Int := -1

/- The constants of an agent that its routes depend on. -/
structure Config where
  alpha_ : Rat
  wst0_ : Rat

/- Where a packet for `dst` is sent, if there is a route. -/
def RoutingTable.nextHop
    (t : RoutingTable)
    (dst : Int) : Option Int :=
  (t.getEntry dst).bind fun e =>
    if e.metric = BIG then none
    else if 1 < e.metric then some e.hop
    else some dst

/- A packet joins a queue, which drops its first if too long. -/
def enque
    (q : List DataPacket)
    (p : DataPacket) : List DataPacket :=
  (q ++ [p]).drop ((q ++ [p]).length - MAX_QUEUE_LENGTH)

def RoutingTable.forwardPacket
    (cfg : Config)
    (now : Rat)
    (t : RoutingTable)
    (p : DataPacket) : RoutingTable :=
  match t.getEntry p.daddr with
  | some prte =>
      if prte.metric ≠ BIG then t
      else t.addEntry p.daddr
        { prte with q := some (enque (prte.q.getD []) p) }
  | none =>
      -- brand new destination
      t.addEntry p.daddr
        { RtableEnt.bzero with
          hop := p.daddr
          metric := BIG
          seqnum := 0
          advertise_ok_at := now + 604800
          changed_at := now
          new_seqnum_at := now
          wst := cfg.wst0_
          q := some [p] }

/- A packet as it goes on from here, if it does. -/
def DataPacket.accept
    (myaddr : Int)
    (p : DataPacket) : Option DataPacket :=
  if p.saddr = myaddr ∧ p.num_forwards = 0 then
    some { p with ttl := IP_DEF_TTL }
  else if p.saddr = myaddr then none
  else if p.ttl - 1 = 0 then none
  else some { p with ttl := p.ttl - 1 }

def RoutingTable.recv
    (cfg : Config)
    (myaddr : Int)
    (now : Rat)
    (t : RoutingTable)
    (p : DataPacket) : RoutingTable :=
  match p.accept myaddr with
  | none => t
  | some p =>
      if p.daddr = IP_BROADCAST then t
      else t.forwardPacket cfg now p

/- Receive the packets of a queue until none is left. -/
def RoutingTable.flush
    (cfg : Config)
    (myaddr : Int)
    (now : Rat)
    (dst : Int) :
    Nat → RoutingTable → Option RoutingTable
| 0, _ => none
| steps + 1, t =>
    match t.getEntry dst with
    | none => some t
    | some e =>
        match e.q with
        | some (p :: rest) =>
            flush cfg myaddr now dst steps
              ((t.addEntry dst { e with q := some rest }).recv
                cfg myaddr now p)
        | _ => some t

end Dsdv

end Ns2

------------------------------------------------------------
-- Updates
------------------------------------------------------------

namespace Ns2

namespace Dsdv

/- An entry that an update brings; it may not be above `BIG`. -/
def RoutingTable.updateRoute
    (t : RoutingTable)
    (dst : Int)
    (rte : RtableEnt) : Option RoutingTable :=
  if rte.metric ≤ BIG then some (t.addEntry dst rte) else none

/- The settling time of a route, and when its number was new. -/
def settling
    (cfg : Config)
    (now : Rat)
    (prte : Option RtableEnt)
    (r : Advert) : Rat × Rat :=
  match prte with
  | none => (cfg.wst0_, now)
  | some prte =>
      if prte.seqnum = r.seqnum then
        (prte.wst, prte.new_seqnum_at)
      else
        (cfg.alpha_ * prte.wst +
          (1 - cfg.alpha_) *
            (prte.changed_at - prte.new_seqnum_at), now)

/- The route that a neighbor tells of. -/
def learn
    (cfg : Config)
    (src : Int)
    (now : Rat)
    (prte : Option RtableEnt)
    (r : Advert) : RtableEnt :=
  let metric := if r.metric ≠ BIG then r.metric + 1 else r.metric
  let settled := settling cfg now prte r
  { prte.getD RtableEnt.bzero with
    hop := src
    metric := metric
    seqnum := r.seqnum
    changed_at := now
    wst := settled.1
    new_seqnum_at := settled.2
    advertise_ok_at :=
      if metric ≠ BIG ∧ ∀ e ∈ prte, e.metric ≠ BIG then
        now + settled.1 * 2
      else now }

/- Whether to take the route, and the route as it is then. -/
def RoutingTable.judge
    (now : Rat)
    (t : RoutingTable)
    (dst : Int)
    (rte : RtableEnt) : Option (RoutingTable × RtableEnt) :=
  match t.getEntry dst with
  | none => do
      -- a brand new destination
      let rte :=
        if rte.metric < BIG then { rte with advert_metric := true }
        else rte
      let t ← t.updateRoute dst rte
      return (t, rte)
  | some prte =>
      if prte.seqnum = rte.seqnum then
        if rte.metric < prte.metric then do
          let rte :=
            { rte with
              advert_metric := decide
                (rte.metric ≠ prte.last_advertised_metric) }
          let t ← t.updateRoute dst rte
          return (t, rte)
        else some (t, rte)
      else if prte.seqnum < rte.seqnum then do
        let rte :=
          { rte with
            advert_seqnum := true
            advert_metric := decide
              (rte.metric ≠ prte.last_advertised_metric) }
        let t ← t.updateRoute dst rte
        return (t, rte)
      else if rte.metric = BIG ∧ prte.metric ≠ BIG then
        -- the neighbor is told of the better route
        some (t.addEntry dst
          { prte with
            advertise_ok_at := now
            advert_metric := true }, rte)
      else some (t, rte)

/- Take in what an update says of one destination. -/
def RoutingTable.processAdvert
    (cfg : Config)
    (myaddr src : Int)
    (now : Rat)
    (steps : Nat)
    (t : RoutingTable)
    (r : Advert) : Option RoutingTable :=
  if r.dst = myaddr then some t
  else do
    let rte := learn cfg src now (t.getEntry r.dst) r
    let (t, rte) ← t.judge now r.dst rte
    -- packets that were kept are sent
    if rte.q ≠ none ∧ rte.metric ≠ BIG then
      let t ← t.flush cfg myaddr now r.dst steps
      t.updateRoute r.dst { rte with q := none }
    else return t

/- The neighbor was heard from. -/
def RoutingTable.hear
    (cfg : Config)
    (src : Int)
    (now : Rat)
    (t : RoutingTable) : RoutingTable :=
  match t.getEntry src with
  | some prte =>
      t.addEntry src { prte with timeout_event := true }
  | none =>
      -- a fake advertisement
      t.addEntry src
        { RtableEnt.bzero with
          hop := src
          metric := 1
          seqnum := 0
          advertise_ok_at := now + 604800
          changed_at := now
          new_seqnum_at := now
          wst := cfg.wst0_
          timeout_event := true }

def RoutingTable.processUpdate
    (cfg : Config)
    (myaddr src : Int)
    (now : Rat)
    (steps : Nat)
    (t : RoutingTable)
    (routes : List Advert) : Option RoutingTable := do
  let t ← routes.foldlM
    (RoutingTable.processAdvert cfg myaddr src now steps) t
  return t.hear cfg src now

end Dsdv

end Ns2

------------------------------------------------------------
-- Timeouts and Lost Links
------------------------------------------------------------

namespace Ns2

namespace Dsdv

/- A route through a neighbor that is gone. -/
def RtableEnt.markBroken
    (nbr : Int)
    (now : Rat)
    (e : RtableEnt) : RtableEnt :=
  if e.hop = nbr ∧ e.metric ≠ BIG then
    { e with
      metric := BIG
      advertise_ok_at := now
      advert_metric := true
      advert_seqnum := true
      seqnum := e.seqnum + 1 }
  else e

/- The timeout of a neighbor has expired. -/
def RoutingTable.helperCallback
    (nbr : Int)
    (now : Rat)
    (t : RoutingTable) : RoutingTable :=
  let marked : RoutingTable :=
    t.mapValues fun _ e => e.markBroken nbr now
  match marked.getEntry nbr with
  | none => marked
  | some prte =>
      marked.addEntry nbr { prte with timeout_event := false }

/- A packet was not sent on to `next_hop`, and is received. -/
def RoutingTable.lostLink
    (cfg : Config)
    (myaddr next_hop : Int)
    (now : Rat)
    (t : RoutingTable)
    (p : DataPacket) : RoutingTable :=
  match t.getEntry next_hop with
  | none => t
  | some prte =>
      let t :=
        if prte.timeout_event = true ∨ prte.metric ≠ BIG then
          t.helperCallback next_hop now
        else t
      t.recv cfg myaddr now p

/- A node that starts, with a sequence number of zero. -/
def Agent.startUp
    (myaddr : Int)
    (now : Rat) : Agent where
  myaddr_ := myaddr
  seqno_ := 2
  table_ := RoutingTable.addEntry .new myaddr
    { ownEntry myaddr 0 now with advert_metric := true }

end Dsdv

end Ns2
