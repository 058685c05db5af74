import Ns2.Dsdv.Routing.Operations

/-
  The events of an agent.

  An entry points to the event that asks for a triggered update
  and to the one that ends its timeout.  Entries are copied
  with these pointers and are written back.  Here an event is
  an address, which is not given out again after it was deleted,
  and the clock of an event is the time it was scheduled for.

  Main declarations:
    * `EventQueue`, `EventEnt`, `EventAgent`
    * `EventAgent.handleTrigger`
    * `EventAgent.helperCallback`, `EventAgent.lostLink`
    * `EventAgent.processAdvert`
    * `EventAgent.act`
-/

------------------------------------------------------------
-- The Scheduler
------------------------------------------------------------

namespace Ns2

namespace Dsdv

inductive EventHandler where
| trigger_handler
| helper_
deriving DecidableEq

structure ScheduledEvent where
  handler_ : EventHandler
  time_ : Rat
deriving DecidableEq

/- The events in the queue, and those that were deleted. -/
structure EventQueue where
  queue : Nat → Option ScheduledEvent
  deleted : Nat → Bool
  unused : Nat

namespace EventQueue

def empty : EventQueue := ⟨fun _ => none, fun _ => false, 0⟩

variable (q : EventQueue)
variable (e : Nat)

/- A new event has an address that is not in use. -/
def newEvent : Nat × EventQueue :=
  (q.unused, { q with unused := q.unused + 1 })

def schedule
    (h : EventHandler)
    (t : Rat) : EventQueue :=
  { q with queue := fun x => if x = e then some ⟨h, t⟩ else q.queue x }

def cancel : EventQueue :=
  { q with queue := fun x => if x = e then none else q.queue x }

def delete : EventQueue :=
  { q with deleted := fun x => if x = e then true else q.deleted x }

end EventQueue

/- An entry, and the events that it points to. -/
structure EventEnt where
  route : RtableEnt
  trigger_event : Option Nat
  timeout_event : Option Nat
deriving DecidableEq

abbrev EventTable := SortedMap Int EventEnt

/- The constants of an agent, those of its timers included. -/
structure Timing extends Config where
  perup_ : Rat
  min_update_periods_ : Rat
  limit : Nat

structure EventAgent where
  myaddr_ : Int
  seqno_ : Nat
  lasttup_ : Rat
  periodic_callback_ : Option Nat
  table_ : EventTable
  events : EventQueue

/- What may end a run. -/
inductive Abort where
| trigger_event
| unknown_event
| other
| disabled
deriving DecidableEq

end Dsdv

end Ns2

------------------------------------------------------------
-- Triggered Updates
------------------------------------------------------------

namespace Ns2

namespace Dsdv

def DSDV_MIN_TUP_PERIOD : Rat := 1

namespace EventAgent

/- The agent, without what it knows of events. -/
def toAgent (a : EventAgent) : Agent where
  myaddr_ := a.myaddr_
  seqno_ := a.seqno_
  table_ := a.table_.map EventEnt.route

def setEntry
    (a : EventAgent)
    (dst : Int)
    (ent : EventEnt) : EventAgent :=
  { a with table_ := a.table_.set dst ent }

/- The destinations, in the order of the table. -/
def destinations (a : EventAgent) : List Int :=
  a.table_.entries.map Prod.fst

def needTriggeredUpdate
    (a : EventAgent)
    (dst : Int)
    (t : Rat) : EventAgent :=
  match a.table_.find dst with
  | none => a
  | some prte =>
      match prte.trigger_event with
      | some e =>
          { a with
            events := (a.events.cancel e).schedule e
              .trigger_handler t }
      | none =>
          let (e, events) := a.events.newEvent
          { a.setEntry dst { prte with trigger_event := some e } with
            events := events.schedule e .trigger_handler t }

/- Cancel the trigger event of an entry if before `t`. -/
def cancelTrigger
    (t : Rat)
    (a : EventAgent)
    (dst : Int) : EventAgent :=
  match a.table_.find dst with
  | none => a
  | some prte =>
      match prte.trigger_event with
      | none => a
      | some e =>
          if ∃ x ∈ a.events.queue e, x.time_ < t then
            { a.setEntry dst { prte with trigger_event := none } with
              events := (a.events.cancel e).delete e }
          else a

def cancelTriggersBefore
    (a : EventAgent)
    (t : Rat) : EventAgent :=
  a.destinations.foldl (cancelTrigger t) a

/-
  Make an update: the own entry is written anew for a full one.
  The agent, whether it is full, and whether it is sent.
-/
def makeUpdate
    (limit : Nat)
    (a : EventAgent)
    (periodic : Bool)
    (now : Rat) : Except Abort (EventAgent × Bool × Bool) :=
  let full := a.toAgent.full periodic now
  match a.toAgent.update limit periodic now with
  | none => .error .other
  | some (_, packet) =>
      let a :=
        if full then
          let seqno := (a.seqno_ + 2) % limit
          { a.setEntry a.myaddr_
              ⟨ownEntry a.myaddr_ seqno now, none, none⟩ with
            seqno_ := seqno }
        else a
      if packet.isSome then
        .ok ({ a with
          table_ := a.table_.mapValues fun _ e =>
            if e.route.included full now then
              { e with route := e.route.advertised full }
            else e }, full, true)
      else .ok (a, full, false)

/- The periodic update is put off, or made at once. -/
def callPeriodic
    (a : EventAgent)
    (t : Rat) : Except Abort EventAgent :=
  match a.periodic_callback_ with
  | none => .error .other
  | some e =>
      .ok { a with
        events := (a.events.cancel e).schedule e .helper_ t }

/- Free an event that entries may point to. -/
def freeTrigger
    (a : EventAgent)
    (e : Nat) : EventAgent :=
  if a.table_.entries.any fun x =>
      decide (x.2.trigger_event = some e) then
    { a with
      table_ := a.table_.mapValues fun _ x =>
        if x.trigger_event = some e then
          { x with trigger_event := none }
        else x
      events := a.events.delete e }
  else a

/- The handler of an event that asks for an update. -/
def handleTrigger
    (cfg : Timing)
    (a : EventAgent)
    (e : Nat)
    (now jitter : Rat) : Except Abort EventAgent :=
  if a.table_.entries.any fun x =>
      decide (x.2.trigger_event = some e) then
    let next_possible := a.lasttup_ + DSDV_MIN_TUP_PERIOD
    if now < next_possible then
      .ok (cancelTriggersBefore
        { a with
          events := a.events.schedule e .trigger_handler
            next_possible }
        next_possible)
    else do
      let (a, periodic, sent) ← a.makeUpdate cfg.limit false now
      if sent then
        let a ←
          if periodic then
            a.callPeriodic (now + cfg.perup_ * (3 / 4 + jitter))
          else .ok a
        return freeTrigger { a with lasttup_ := now } e
      else return a.freeTrigger e
  else .error .trigger_event

end EventAgent

end Dsdv

end Ns2

------------------------------------------------------------
-- Timeouts and Data Packets
------------------------------------------------------------

namespace Ns2

namespace Dsdv

namespace EventTable

def forwardPacket
    (cfg : Config)
    (now : Rat)
    (t : EventTable)
    (p : DataPacket) : EventTable :=
  match t.find p.daddr with
  | some prte =>
      if prte.route.metric ≠ BIG then t
      else t.set p.daddr
        { prte with
          route := { prte.route with
            q := some (enque (prte.route.q.getD []) p) } }
  | none =>
      -- brand new destination
      t.set p.daddr
        ⟨{ RtableEnt.bzero with
            hop := p.daddr
            metric := BIG
            seqnum := 0
            advertise_ok_at := now + 604800
            changed_at := now
            new_seqnum_at := now
            wst := cfg.wst0_
            q := some [p] }, none, none⟩

def recv
    (cfg : Config)
    (myaddr : Int)
    (now : Rat)
    (t : EventTable)
    (p : DataPacket) : EventTable :=
  match p.accept myaddr with
  | none => t
  | some p =>
      if p.daddr = IP_BROADCAST then t
      else forwardPacket cfg now t p

/- Receive the packets of a queue until none is left. -/
def flush
    (cfg : Config)
    (myaddr : Int)
    (now : Rat)
    (dst : Int) :
    Nat → EventTable → Option EventTable
| 0, _ => none
| steps + 1, t =>
    match t.find dst with
    | none => some t
    | some e =>
        match e.route.q with
        | some (p :: rest) =>
            flush cfg myaddr now dst steps
              (recv cfg myaddr now
                (t.set dst { e with
                  route := { e.route with q := some rest } }) p)
        | _ => some t

end EventTable

namespace EventAgent

def recv
    (cfg : Timing)
    (a : EventAgent)
    (p : DataPacket)
    (now : Rat) : EventAgent :=
  { a with
    table_ := EventTable.recv cfg.toConfig a.myaddr_ now
      a.table_ p }

/- A route through a neighbor that is gone is told of. -/
def markBroken
    (nbr : Int)
    (now : Rat)
    (a : EventAgent)
    (dst : Int) : EventAgent :=
  match a.table_.find dst with
  | none => a
  | some pr2 =>
      if pr2.route.hop = nbr ∧ pr2.route.metric ≠ BIG then
        (a.setEntry dst
          { pr2 with route := pr2.route.markBroken nbr now })
            |>.needTriggeredUpdate dst now
      else a

/- The timeout of an entry is over, and its event is deleted. -/
def endTimeout
    (a : EventAgent)
    (nbr : Int)
    (e : Nat) : EventAgent :=
  match a.table_.find nbr with
  | none => a
  | some prte =>
      { a.setEntry nbr
          ⟨{ prte.route with timeout_event := false },
            prte.trigger_event, none⟩ with
        events := a.events.delete e }

/- The handler of the periodic event and of timeouts. -/
def helperCallback
    (cfg : Timing)
    (a : EventAgent)
    (e : Nat)
    (now jitter : Rat) : Except Abort EventAgent :=
  if a.periodic_callback_ = some e then do
    let (a, _, _) ← a.makeUpdate cfg.limit true now
    return { a with
      events := a.events.schedule e .helper_
        (now + cfg.perup_ * (3 / 4 + jitter))
      lasttup_ := now }
  else
    match a.table_.entries.find? fun x =>
        decide (x.2.timeout_event = some e) with
    | none => .error .unknown_event
    | some prte =>
        .ok ((a.destinations.foldl (markBroken prte.1 now)
          a).endTimeout prte.1 e)

/- A packet was not sent on to `next_hop`, and is received. -/
def lostLink
    (cfg : Timing)
    (a : EventAgent)
    (next_hop : Int)
    (p : DataPacket)
    (now jitter : Rat) : Except Abort EventAgent :=
  match a.table_.find next_hop with
  | none => .ok a
  | some prte => do
      let a ←
        match prte.timeout_event with
        | some e =>
            helperCallback cfg
              { a with events := a.events.cancel e } e now jitter
        | none =>
            if prte.route.metric ≠ BIG then
              let (e, events) := a.events.newEvent
              helperCallback cfg
                { a.setEntry next_hop
                    { prte with timeout_event := some e } with
                  events := events } e now jitter
            else .ok a
      return a.recv cfg p now

end EventAgent

end Dsdv

end Ns2

------------------------------------------------------------
-- Updates
------------------------------------------------------------

namespace Ns2

namespace Dsdv

/- The route that is told; the events are those of the entry. -/
def learnEnt
    (cfg : Config)
    (src : Int)
    (now : Rat)
    (prte : Option EventEnt)
    (r : Advert) : EventEnt :=
  ⟨learn cfg src now (prte.map (·.route)) r,
    prte.bind (·.trigger_event), prte.bind (·.timeout_event)⟩

namespace EventAgent

def updateRoute
    (a : EventAgent)
    (dst : Int)
    (rte : EventEnt) : Except Abort EventAgent :=
  if rte.route.metric ≤ BIG then .ok (a.setEntry dst rte)
  else .error .other

/-
  Whether to take the route: the agent and the route then, and
  whether to ask for an update.
-/
def judge
    (now : Rat)
    (a : EventAgent)
    (dst : Int)
    (rte : EventEnt) :
    Except Abort (EventAgent × EventEnt × Bool) :=
  match a.table_.find dst with
  | none => do
      -- a brand new destination
      let fresh := decide (rte.route.metric < BIG)
      let rte :=
        if fresh then
          { rte with route := { rte.route with advert_metric := true } }
        else rte
      let a ← a.updateRoute dst rte
      return (a, rte, fresh)
  | some prte =>
      let changed := decide
        (rte.route.metric ≠ prte.route.last_advertised_metric)
      if prte.route.seqnum = rte.route.seqnum then
        if rte.route.metric < prte.route.metric then do
          let rte :=
            { rte with
              route := { rte.route with advert_metric := changed } }
          let a ← a.updateRoute dst rte
          return (a, rte, changed)
        else .ok (a, rte, false)
      else if prte.route.seqnum < rte.route.seqnum then do
        let rte :=
          { rte with
            route := { rte.route with
              advert_seqnum := true
              advert_metric := changed } }
        let a ← a.updateRoute dst rte
        return (a, rte, false)
      else if rte.route.metric = BIG ∧ prte.route.metric ≠ BIG then
        -- the neighbor is told of the better route
        let a := a.setEntry dst
          { prte with
            route := { prte.route with
              advertise_ok_at := now
              advert_metric := true } }
        .ok (a.needTriggeredUpdate dst now, rte, false)
      else .ok (a, rte, false)

/- The update is made when the route may be advertised. -/
def askUpdate
    (now : Rat)
    (trigger_update : Bool)
    (a : EventAgent)
    (dst : Int)
    (rte : EventEnt) : Except Abort EventAgent :=
  if trigger_update then
    if now ≤ rte.route.advertise_ok_at then
      .ok (a.needTriggeredUpdate dst rte.route.advertise_ok_at)
    else .error .other
  else .ok a

/- Packets that were kept are sent, and the route is written. -/
def sendKept
    (cfg : Timing)
    (now : Rat)
    (steps : Nat)
    (a : EventAgent)
    (dst : Int)
    (rte : EventEnt) : Except Abort EventAgent :=
  if rte.route.q ≠ none ∧ rte.route.metric ≠ BIG then
    match EventTable.flush cfg.toConfig a.myaddr_ now dst steps
        a.table_ with
    | none => .error .other
    | some table =>
        updateRoute { a with table_ := table } dst
          { rte with route := { rte.route with q := none } }
  else .ok a

/- Take in what an update says of one destination. -/
def processAdvert
    (cfg : Timing)
    (src : Int)
    (now : Rat)
    (steps : Nat)
    (a : EventAgent)
    (r : Advert) : Except Abort EventAgent :=
  let metric := if r.metric ≠ BIG then r.metric + 1 else r.metric
  if r.dst = a.myaddr_ then
    -- the others are told that the node is there
    if metric = BIG ∧ a.periodic_callback_ ≠ none then
      a.callPeriodic now
    else .ok a
  else do
    let rte := learnEnt cfg.toConfig src now (a.table_.find r.dst) r
    let (a, rte, trigger_update) ← a.judge now r.dst rte
    let a ← a.askUpdate now trigger_update r.dst rte
    a.sendKept cfg now steps r.dst rte

/- The neighbor was heard from. -/
def hear
    (cfg : Timing)
    (src : Int)
    (now : Rat)
    (a : EventAgent) : EventAgent :=
  let t := now + cfg.min_update_periods_ * cfg.perup_
  match a.table_.find src with
  | some prte =>
      match prte.timeout_event with
      | some e =>
          { a with
            events := (a.events.cancel e).schedule e .helper_ t }
      | none =>
          let (e, events) := a.events.newEvent
          { a.setEntry src
              ⟨{ prte.route with timeout_event := true },
                prte.trigger_event, some e⟩ with
            events := events.schedule e .helper_ t }
  | none =>
      -- a fake advertisement
      let (e, events) := a.events.newEvent
      { a.setEntry src
          ⟨{ RtableEnt.bzero with
              hop := src
              metric := 1
              seqnum := 0
              advertise_ok_at := now + 604800
              changed_at := now
              new_seqnum_at := now
              wst := cfg.wst0_
              timeout_event := true }, none, some e⟩ with
        events := events.schedule e .helper_ t }

def processUpdate
    (cfg : Timing)
    (src : Int)
    (now : Rat)
    (steps : Nat)
    (a : EventAgent)
    (routes : List Advert) : Except Abort EventAgent := do
  let a ← routes.foldlM (processAdvert cfg src now steps) a
  return a.hear cfg src now

/- The agent is started, and its periodic event scheduled. -/
def startUp
    (a : EventAgent)
    (now jitter : Rat) : EventAgent :=
  let (e, events) := a.events.newEvent
  { a.setEntry a.myaddr_
      ⟨{ ownEntry a.myaddr_ a.seqno_ now with
          advert_metric := true }, none, none⟩ with
    seqno_ := a.seqno_ + 2
    periodic_callback_ := some e
    events := events.schedule e .helper_ (now + jitter) }

end EventAgent

end Dsdv

end Ns2

------------------------------------------------------------
-- Runs
------------------------------------------------------------

namespace Ns2

namespace Dsdv

/-
  What happens to an agent.  An update is taken in route by
  route, and its sender was heard from at the end.
-/
inductive Occurrence where
| start (now jitter : Rat)
| packet (p : DataPacket) (now : Rat)
| advert (src : Int) (r : Advert) (now : Rat) (steps : Nat)
| heard (src : Int) (now : Rat)
| lostLink (next_hop : Int) (p : DataPacket) (now jitter : Rat)
| fire (e : Nat) (jitter : Rat)

namespace EventAgent

/- An agent before it is started. -/
def new (myaddr : Int) : EventAgent where
  myaddr_ := myaddr
  seqno_ := 0
  lasttup_ := -10
  periodic_callback_ := none
  table_ := .new
  events := .empty

/- The scheduler hands an event that is due to its handler. -/
def dispatch
    (cfg : Timing)
    (a : EventAgent)
    (e : Nat)
    (jitter : Rat) : Except Abort EventAgent :=
  match a.events.queue e with
  | none => .error .disabled
  | some x =>
      let taken := { a with events := a.events.cancel e }
      match x.handler_ with
      | .trigger_handler =>
          taken.handleTrigger cfg e x.time_ jitter
      | .helper_ => taken.helperCallback cfg e x.time_ jitter

def act
    (cfg : Timing)
    (a : EventAgent) :
    Occurrence → Except Abort EventAgent
| .start now jitter =>
    if a.periodic_callback_ = none then .ok (a.startUp now jitter)
    else .error .disabled
| .packet p now => .ok (a.recv cfg p now)
| .advert src r now steps =>
    if src = a.myaddr_ then .error .disabled
    else a.processAdvert cfg src now steps r
| .heard src now =>
    if src = a.myaddr_ then .error .disabled
    else .ok (a.hear cfg src now)
| .lostLink next_hop p now jitter =>
    a.lostLink cfg next_hop p now jitter
| .fire e jitter => a.dispatch cfg e jitter

/- A run goes on where nothing ends it. -/
def step
    (cfg : Timing)
    (a : EventAgent)
    (x : Occurrence) : Option EventAgent :=
  (a.act cfg x).toOption

end EventAgent

end Dsdv

end Ns2
