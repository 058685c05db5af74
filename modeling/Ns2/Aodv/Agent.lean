import Ns2.Aodv.Rqueue.Correctness
import Ns2.Aodv.Table

/-
  The AODV routing agent of a node.

  The handlers are called with the current time.  What they
  send, hand over and schedule is kept in `out`, without the
  delays with which packets leave.  Local repair and link layer
  detection are compiled in, gratuitous replies are not.

  Main declarations:
    * `Aodv`, `Aodv.forward`, `Aodv.drain`
    * `Aodv.sendRequest`, `Aodv.sendReply`, `Aodv.sendError`
    * `Aodv.handle_link_failure`, `Aodv.local_rt_repair`
    * `Aodv.recvRequest`, `Aodv.recvReply`, `Aodv.recvError`
    * `Aodv.step`
-/

------------------------------------------------------------
-- Agents
------------------------------------------------------------

namespace Ns2

structure AodvNeighbor where
  nb_addr : nsaddr_t
  nb_expire : ℚ
deriving DecidableEq

structure BroadcastID where
  src : nsaddr_t
  id : Nat
  expire : ℚ
deriving DecidableEq

inductive AodvAction where
| send (p : AodvPacket)
/- The packet is handed to the agents of the node. -/
| deliver (p : AodvPacket)
| drop (p : AodvPacket)
/- The packets for a neighbor leave the interface queue. -/
| filter (nbr : nsaddr_t)
/- The repair timer gets a copy of a packet. -/
| schedule (delay : ℚ) (p : AodvPacket)
deriving DecidableEq

structure Aodv where
  index : nsaddr_t
  here_addr : nsaddr_t
  seqno : Nat
  bid : Nat
  nbhead : List AodvNeighbor
  bihead : List BroadcastID
  rtable : AodvRtable
  rqueue : AodvRqueue AodvPacket ℚ
  out : List AodvAction

namespace Aodv

def MY_ROUTE_TIMEOUT : ℚ := 10
def ACTIVE_ROUTE_TIMEOUT : ℚ := 10
def REV_ROUTE_LIFE : ℚ := 6
def BCAST_ID_SAVE : ℚ := 6
def RREQ_RETRIES : Nat := 3
def MAX_RREQ_TIMEOUT : ℚ := 10
def TTL_START : Nat := 5
def TTL_THRESHOLD : Nat := 7
def TTL_INCREMENT : Nat := 2
def NETWORK_DIAMETER : Nat := 30
def HELLO_INTERVAL : ℚ := 1
def ALLOWED_HELLO_LOSS : ℚ := 3
def AODV_RTQ_TIMEOUT : ℚ := 30

def new
    (id here_addr : nsaddr_t)
    (next : AodvPacket → Option AodvPacket)
    (ts : AodvPacket → ℚ) : Aodv where
  index := id
  here_addr := here_addr
  seqno := 2
  bid := 1
  nbhead := []
  bihead := []
  rtable := .empty
  rqueue := .new next ts AODV_RTQ_TIMEOUT
  out := []

def check
    (fault : Fault)
    (p : Prop)
    [Decidable p] : Except Fault Unit :=
  if p then .ok () else .error fault

theorem bind_ok_iff
    {α β : Type}
    {x : Except Fault α}
    {f : α → Except Fault β}
    {b : β} :
    (x >>= f) = .ok b ↔ ∃ a, x = .ok a ∧ f a = .ok b := by
  cases x with
  | error fault =>
      constructor
      · intro hOk
        cases hOk
      · rintro ⟨a, hOk, -⟩
        cases hOk
  | ok a =>
      constructor
      · exact fun hOk => ⟨a, rfl, hOk⟩
      · rintro ⟨a', ⟨⟩, hOk⟩
        exact hOk

theorem check_bind_ok_iff
    {β : Type}
    {fault : Fault}
    {p : Prop}
    [Decidable p]
    {f : Unit → Except Fault β}
    {b : β} :
    (check fault p >>= f) = .ok b ↔ p ∧ f () = .ok b := by
  by_cases hP : p
  · rw [check, if_pos hP]
    exact ⟨fun hOk => ⟨hP, hOk⟩, fun hOk => hOk.2⟩
  · rw [check, if_neg hP]
    constructor
    · intro hOk
      cases hOk
    · exact fun hOk => absurd hOk.1 hP

def emit
    (a : AodvAction)
    (n : Aodv) : Aodv :=
  { n with out := n.out ++ [a] }

def store
    (rt : AodvRtEntry)
    (n : Aodv) : Aodv :=
  { n with rtable := n.rtable.store rt }

/- The entry of a destination that is asserted to be stored. -/
def entry
    (dst : nsaddr_t)
    (n : Aodv) : Except Fault AodvRtEntry :=
  match n.rtable.rt_lookup dst with
  | some rt => .ok rt
  | none => .error .lookup

theorem check_bind
    {α : Type}
    {fault : Fault}
    {p : Prop}
    [Decidable p]
    {f : Unit → Except Fault α}
    (hP : p) :
    (check fault p >>= f) = f () := by
  rw [check, if_pos hP]
  rfl

theorem entry_bind
    {α : Type}
    {n : Aodv}
    {rt : AodvRtEntry}
    {f : AodvRtEntry → Except Fault α}
    (hMem : rt ∈ n.rtable.entries) :
    (n.entry rt.rt_dst >>= f) = f rt := by
  rw [entry, AodvRtable.rt_lookup_of_mem hMem]
  rfl

/- An entry is made for a destination that has none. -/
def ensure
    (dst : nsaddr_t)
    (n : Aodv) : Aodv :=
  match n.rtable.rt_lookup dst with
  | some _ => n
  | none => { n with rtable := n.rtable.rt_add dst }

theorem entry_unique
    {n : Aodv}
    {rt e : AodvRtEntry}
    (hRt : rt ∈ n.rtable.entries)
    (hE : e ∈ n.rtable.entries)
    (hDst : e.rt_dst = rt.rt_dst) :
    e = rt := by
  have hLookup := AodvRtable.rt_lookup_of_mem hE
  rw [hDst, AodvRtable.rt_lookup_of_mem hRt] at hLookup
  exact (Option.some.inj hLookup).symm

------------------------------------------------------------
-- Broadcast identifiers
------------------------------------------------------------

def id_insert
    (now : ℚ)
    (id : nsaddr_t)
    (bid : Nat)
    (n : Aodv) : Aodv :=
  { n with bihead := ⟨id, bid, now + BCAST_ID_SAVE⟩ :: n.bihead }

def id_lookup
    (id : nsaddr_t)
    (bid : Nat)
    (n : Aodv) : Bool :=
  n.bihead.any fun b => b.src = id ∧ b.id = bid

def id_purge
    (now : ℚ)
    (n : Aodv) : Aodv :=
  { n with bihead := n.bihead.filter fun b => ¬ b.expire ≤ now }

------------------------------------------------------------
-- Buffered packets
------------------------------------------------------------

def enque
    (now : ℚ)
    (p : AodvPacket)
    (n : Aodv) : Except Fault Aodv :=
  match n.rqueue.enque now p with
  | none => .error .rqueue
  | some r =>
      .ok { n with
        rqueue := r.queue
        out := n.out ++ r.dropped.map fun x => .drop x.1 }

/- The buffered packets for a destination, one after another. -/
def drainLoop
    (now : ℚ)
    (dst : nsaddr_t)
    (body : AodvPacket → Aodv → Except Fault Aodv) :
    Nat → Aodv → Except Fault Aodv
| 0, _ => .error .rqueue
| fuel + 1, n =>
    match n.rqueue.dequeDst AodvPacket.daddr now dst with
    | none => .error .rqueue
    | some r =>
        match r.returned with
        | [] => .ok { n with rqueue := r.queue }
        | p :: _ => do
            let n ← body p { n with rqueue := r.queue }
            drainLoop now dst body fuel n

def drain
    (now : ℚ)
    (dst : nsaddr_t)
    (body : AodvPacket → Aodv → Except Fault Aodv)
    (n : Aodv) : Except Fault Aodv :=
  drainLoop now dst body (n.rqueue.len.toNat + 1) n

/- Whether a packet for the destination is buffered. -/
def find
    (dst : nsaddr_t)
    (n : Aodv) : Except Fault Bool :=
  match n.rqueue.findPacketWithDst AodvPacket.daddr dst with
  | none => .error .rqueue
  | some (p, _) => .ok p.isSome

------------------------------------------------------------
-- Sending packets
------------------------------------------------------------

/- Forward a packet along a route, or broadcast it. -/
def forward
    (now : ℚ)
    (route : Option nsaddr_t)
    (p : AodvPacket)
    (n : Aodv) : Except Fault Aodv :=
  if p.ttl_ = 0 then .ok (n.emit (.drop p))
  else if
      (p.isAodv = false ∧ p.up = true) ∧ p.daddr = IP_BROADCAST ∨
        p.daddr = n.here_addr then
    .ok (n.emit (.deliver p))
  else
    match route with
    | some dst => do
        let rt ← n.entry dst
        check .flags (rt.rt_flags = .RTF_UP)
        let n := n.store
          { rt with rt_expire := now + ACTIVE_ROUTE_TIMEOUT }
        let p :=
          { p with next_hop_ := rt.rt_nexthop, up := false }
        check .lookup (p.daddr ≠ IP_BROADCAST)
        .ok (n.emit (.send p))
    | none => do
        check .lookup (p.daddr = IP_BROADCAST)
        .ok (n.emit (.send { p with up := false }))

/- A packet of the agent itself. -/
def packet
    (n : Aodv)
    (ah : AodvHeader)
    (daddr : nsaddr_t)
    (ttl : Int)
    (next_hop : nsaddr_t) : AodvPacket where
  uid_ := 0
  ptype := .PT_AODV ah
  saddr := n.index
  daddr := daddr
  ttl_ := ttl
  num_forwards := 0
  up := false
  next_hop_ := next_hop

/- The TTL of the next request, and the count of those that
   went through the whole network. -/
def requestTtl (rt : AodvRtEntry) : Nat × Nat :=
  let last := max rt.rt_req_last_ttl rt.rt_last_hop_count
  if last = 0 then (TTL_START, rt.rt_req_cnt)
  else if last < TTL_THRESHOLD then
    (last + TTL_INCREMENT, rt.rt_req_cnt)
  else (NETWORK_DIAMETER, rt.rt_req_cnt + 1)

def requestTimeout
    (now : ℚ)
    (rt : AodvRtEntry) : ℚ :=
  let ttl := (requestTtl rt).1
  let cnt := (requestTtl rt).2
  let once := 2 * (ttl : ℚ) * rt.PerHopTime
  let timeout := (if 0 < cnt then once * cnt else once) + now
  if now + MAX_RREQ_TIMEOUT < timeout then now + MAX_RREQ_TIMEOUT
  else timeout

/- The entry after a request has gone out for it. -/
def requested
    (now : ℚ)
    (rt : AodvRtEntry) : AodvRtEntry :=
  { rt with
    rt_req_cnt := (requestTtl rt).2
    rt_req_last_ttl := (requestTtl rt).1
    rt_req_timeout := requestTimeout now rt
    rt_expire := 0 }

def sendRequest
    (now : ℚ)
    (dst : nsaddr_t)
    (n : Aodv) : Except Fault Aodv := do
  let rt ← n.entry dst
  if rt.rt_flags = .RTF_UP then
    check .flags (rt.rt_hops ≠ INFINITY2)
    .ok n
  else if now < rt.rt_req_timeout then .ok n
  else if RREQ_RETRIES < rt.rt_req_cnt then
    -- Too many requests went through the whole network.
    let n := n.store
      { rt with
        rt_req_timeout := now + MAX_RREQ_TIMEOUT
        rt_req_cnt := 0 }
    n.drain now dst fun p n => .ok (n.emit (.drop p))
  else
    let n := n.store (requested now rt)
    let n := { n with bid := n.bid + 1, seqno := n.seqno + 2 }
    check .parity (n.seqno % 2 = 0)
    let rq : HdrAodvRequest :=
      { rq_hop_count := 1
        rq_bcast_id := n.bid - 1
        rq_dst := dst
        rq_dst_seqno := rt.rt_seqno
        rq_src := n.index
        rq_src_seqno := n.seqno
        rq_timestamp := now }
    .ok (n.emit (.send
      (n.packet (.RREQ rq) IP_BROADCAST (requestTtl rt).1 0)))

/- The counter of hops in a header has eight bits. -/
def sendReply
    (ipdst : nsaddr_t)
    (hop_count : Nat)
    (rpdst : nsaddr_t)
    (rpseq : Nat)
    (lifetime timestamp : ℚ)
    (n : Aodv) : Except Fault Aodv := do
  let rt ← n.entry ipdst
  let rp : HdrAodvReply :=
    { rp_hop_count := hop_count % 256
      rp_dst := rpdst
      rp_dst_seqno := rpseq
      rp_src := n.index
      rp_lifetime := lifetime
      rp_timestamp := timestamp }
  .ok (n.emit (.send
    (n.packet (.RREP rp) ipdst NETWORK_DIAMETER rt.rt_nexthop)))

def sendError
    (re : HdrAodvError)
    (n : Aodv) : Aodv :=
  n.emit (.send (n.packet (.RERR re) IP_BROADCAST 1 0))

def sendHello (n : Aodv) : Aodv :=
  n.emit (.send (n.packet
    (.HELLO
      { rp_hop_count := 1
        rp_dst := n.index
        rp_dst_seqno := n.seqno
        rp_src := 0
        rp_lifetime := (1 + ALLOWED_HELLO_LOSS) * HELLO_INTERVAL
        rp_timestamp := 0 })
    IP_BROADCAST 1 0))

------------------------------------------------------------
-- Link failures
------------------------------------------------------------

/- One entry of the table, when the link to a node is lost. -/
def failEntry
    (id : nsaddr_t)
    (x : Aodv × HdrAodvError)
    (dst : nsaddr_t) : Except Fault (Aodv × HdrAodvError) := do
  let rt ← x.1.entry dst
  if rt.rt_hops ≠ INFINITY2 ∧ rt.rt_nexthop = id then
    check .flags (rt.rt_flags = .RTF_UP)
    check .parity (rt.rt_seqno % 2 = 0)
    let rt := { rt with rt_seqno := rt.rt_seqno + 1 }
    let re ← x.2.put rt.rt_dst rt.rt_seqno
    .ok (x.1.store (rt.rt_down.pc_delete id), re)
  else .ok (x.1.store (rt.pc_delete id), x.2)

def handle_link_failure
    (id : nsaddr_t)
    (n : Aodv) : Except Fault Aodv := do
  let x ← n.rtable.dsts.foldlM (failEntry id) (n, .alloc)
  if 0 < x.2.DestCount then .ok (x.1.sendError x.2)
  else .ok x.1

def nb_delete
    (id : nsaddr_t)
    (n : Aodv) : Except Fault Aodv := do
  let n := { n with seqno := n.seqno + 2 }
  check .parity (n.seqno % 2 = 0)
  let n :=
    { n with
      nbhead := n.nbhead.eraseP fun nb => nb.nb_addr = id }
  n.handle_link_failure id

def nb_purge
    (now : ℚ)
    (n : Aodv) : Except Fault Aodv :=
  n.nbhead.foldlM
    (fun n nb =>
      if nb.nb_expire ≤ now then n.nb_delete nb.nb_addr
      else .ok n)
    n

/- The node when `local_rt_repair` evaluates `p->copy()`. -/
def repairRequested
    (now : ℚ)
    (dst : nsaddr_t)
    (p : AodvPacket)
    (n : Aodv) : Except Fault Aodv := do
  let n ← n.enque now p
  let rt ← n.entry dst
  let n := n.store { rt with rt_flags := .RTF_IN_REPAIR }
  n.sendRequest now dst

def local_rt_repair
    (now : ℚ)
    (dst : nsaddr_t)
    (p : AodvPacket)
    (n : Aodv) : Except Fault Aodv := do
  let n ← n.repairRequested now dst p
  let rt ← n.entry dst
  .ok (n.emit (.schedule rt.rt_req_timeout p))

def rt_ll_failed
    (now : ℚ)
    (p : AodvPacket)
    (n : Aodv) : Except Fault Aodv :=
  if p.ptype ≠ .DATA ∨ p.daddr = IP_BROADCAST then
    .ok (n.emit (.drop p))
  else
    match n.rtable.rt_lookup p.daddr with
    | none => .ok (n.emit (.drop p))
    | some rt =>
        if (rt.rt_hops : Int) < p.num_forwards then
          n.local_rt_repair now p.daddr p
        else
          ((n.emit (.drop p)).emit
            (.filter p.next_hop_)).nb_delete p.next_hop_

/- The repair timer fires, with the copy of a packet. -/
def LocalRepairTimer_handle
    (p : AodvPacket)
    (n : Aodv) : Aodv :=
  match n.rtable.rt_lookup p.daddr with
  | none => n
  | some rt =>
      if rt.rt_flags ≠ .RTF_UP then n.store rt.rt_down else n

------------------------------------------------------------
-- Routes
------------------------------------------------------------

def rt_resolve
    (now : ℚ)
    (p : AodvPacket)
    (n : Aodv) : Except Fault Aodv := do
  let n := n.ensure p.daddr
  let rt ← n.entry p.daddr
  if rt.rt_flags = .RTF_UP then
    check .flags (rt.rt_hops ≠ INFINITY2)
    n.forward now (some p.daddr) p
  else if p.saddr = n.index then
    let n ← n.enque now p
    n.sendRequest now p.daddr
  else if rt.rt_flags = .RTF_IN_REPAIR then n.enque now p
  else
    check .flags (rt.rt_flags = .RTF_DOWN)
    let re ← HdrAodvError.alloc.put rt.rt_dst rt.rt_seqno
    .ok ((n.sendError re).emit (.drop p))

def purgeEntry
    (now : ℚ)
    (n : Aodv)
    (dst : nsaddr_t) : Except Fault Aodv := do
  let rt ← n.entry dst
  if rt.rt_flags = .RTF_UP ∧ rt.rt_expire < now then
    check .flags (rt.rt_hops ≠ INFINITY2)
    let n ← n.drain now dst fun p n => .ok (n.emit (.drop p))
    let rt := { rt with rt_seqno := rt.rt_seqno + 1 }
    check .parity (rt.rt_seqno % 2 ≠ 0)
    .ok (n.store rt.rt_down)
  else if rt.rt_flags = .RTF_UP then
    check .flags (rt.rt_hops ≠ INFINITY2)
    n.drain now dst (forward now (some dst))
  else
    let waiting ← n.find dst
    if waiting then n.sendRequest now dst else .ok n

def rt_purge
    (now : ℚ)
    (n : Aodv) : Except Fault Aodv :=
  n.rtable.dsts.foldlM (purgeEntry now) n

------------------------------------------------------------
-- Received packets
------------------------------------------------------------

/- A buffered packet leaves along the reverse route. -/
def forwardReverse
    (now : ℚ)
    (dst : nsaddr_t)
    (p : AodvPacket)
    (n : Aodv) : Except Fault Aodv := do
  let rt0 ← n.entry dst
  if rt0.rt_flags = .RTF_UP then
    check .flags (rt0.rt_hops ≠ INFINITY2)
    n.forward now (some dst) p
  else .ok n

/- A buffered packet leaves along the new route. -/
def forwardReplied
    (now : ℚ)
    (dst : nsaddr_t)
    (p : AodvPacket)
    (n : Aodv) : Except Fault Aodv := do
  let rt ← n.entry dst
  if rt.rt_hops ≠ INFINITY2 then
    check .flags (rt.rt_flags = .RTF_UP)
    n.forward now (some dst) p
  else .ok n

/- The reverse route after a fresher request has come in. -/
def reversed
    (now : ℚ)
    (saddr : nsaddr_t)
    (rq : HdrAodvRequest)
    (rt0 : AodvRtEntry) : AodvRtEntry :=
  let rt0 := rt0.rt_update rq.rq_src_seqno rq.rq_hop_count saddr
    (max rt0.rt_expire (now + REV_ROUTE_LIFE))
  if 0 < rt0.rt_req_timeout then
    { rt0 with
      rt_req_cnt := 0
      rt_req_timeout := 0
      rt_req_last_ttl := rq.rq_hop_count
      rt_expire := now + ACTIVE_ROUTE_TIMEOUT }
  else rt0

/- Put the reverse route into the table. -/
def recvReverse
    (now : ℚ)
    (saddr : nsaddr_t)
    (rq : HdrAodvRequest)
    (n : Aodv) : Except Fault Aodv := do
  let n := n.ensure rq.rq_src
  let rt0 ← n.entry rq.rq_src
  let rt0 :=
    { rt0 with
      rt_expire := max rt0.rt_expire (now + REV_ROUTE_LIFE) }
  if rt0.rt_seqno < rq.rq_src_seqno ∨
      (rq.rq_src_seqno = rt0.rt_seqno ∧
        rq.rq_hop_count < rt0.rt_hops) then
    let n := n.store (reversed now saddr rq rt0)
    check .flags ((reversed now saddr rq rt0).rt_flags = .RTF_UP)
    n.drain now rq.rq_src (forwardReverse now rq.rq_src)
  else .ok (n.store rt0)

/- A double that is converted to 32 bits. -/
def u_int32_t (x : ℚ) : Nat :=
  ((if 0 ≤ x then ⌊x⌋ else ⌈x⌉) % 4294967296).toNat

/- The number with which a destination answers a request. -/
def answerSeqno (seqno dst_seqno : Nat) : Nat :=
  let seqno := max seqno dst_seqno + 1
  if seqno % 2 ≠ 0 then seqno + 1 else seqno

/- The request goes on, with the greatest number on its way. -/
def relayed
    (index : nsaddr_t)
    (rt : Option AodvRtEntry)
    (rq : HdrAodvRequest)
    (p : AodvPacket) : AodvPacket :=
  { p with
    saddr := index
    daddr := IP_BROADCAST
    ptype := .PT_AODV (.RREQ
      { rq with
        rq_hop_count := (rq.rq_hop_count + 1) % 256
        rq_dst_seqno :=
          match rt with
          | some rt => max rt.rt_seqno rq.rq_dst_seqno
          | none => rq.rq_dst_seqno }) }

/- An intermediate node with a fresh enough route answers. -/
def recvAnswer
    (now : ℚ)
    (rt : AodvRtEntry)
    (rq : HdrAodvRequest)
    (n : Aodv) : Except Fault Aodv := do
  check .lookup (rq.rq_dst = rt.rt_dst)
  let n ← n.sendReply rq.rq_src (rt.rt_hops + 1) rq.rq_dst
    rt.rt_seqno (u_int32_t (rt.rt_expire - now)) rq.rq_timestamp
  let rt0 ← n.entry rq.rq_src
  let n := n.store (rt.pc_insert rt0.rt_nexthop)
  let rt0 ← n.entry rq.rq_src
  .ok (n.store (rt0.pc_insert rt.rt_nexthop))

/- The answer to a request, or the request once more. -/
def recvForward
    (now : ℚ)
    (rq : HdrAodvRequest)
    (p : AodvPacket)
    (n : Aodv) : Except Fault Aodv :=
  let rt := n.rtable.rt_lookup rq.rq_dst
  if rq.rq_dst = n.index then
    let n :=
      { n with seqno := answerSeqno n.seqno rq.rq_dst_seqno }
    n.sendReply rq.rq_src 1 n.index n.seqno MY_ROUTE_TIMEOUT
      rq.rq_timestamp
  else
    match rt with
    | some rt =>
        if rt.rt_hops ≠ INFINITY2 ∧
            rq.rq_dst_seqno ≤ rt.rt_seqno then
          n.recvAnswer now rt rq
        else
          n.forward now none (relayed n.index (some rt) rq p)
    | none => n.forward now none (relayed n.index none rq p)

def recvRequest
    (now : ℚ)
    (rq : HdrAodvRequest)
    (p : AodvPacket)
    (n : Aodv) : Except Fault Aodv :=
  if rq.rq_src = n.index then .ok n
  else if n.id_lookup rq.rq_src rq.rq_bcast_id then .ok n
  else do
    let n := n.id_insert now rq.rq_src rq.rq_bcast_id
    let n ← n.recvReverse now p.saddr rq
    n.recvForward now rq p

/- The forward route after a newer or shorter reply. -/
def replied
    (now : ℚ)
    (rp : HdrAodvReply)
    (rt : AodvRtEntry) : AodvRtEntry :=
  { rt.rt_update rp.rp_dst_seqno rp.rp_hop_count rp.rp_src
      (now + rp.rp_lifetime) with
    rt_req_cnt := 0
    rt_req_timeout := 0
    rt_req_last_ttl := rp.rp_hop_count }

/- The source of the request keeps how long the reply took. -/
def timed
    (now : ℚ)
    (rp : HdrAodvReply)
    (rt : AodvRtEntry) : AodvRtEntry :=
  { rt with
    rt_disc_latency :=
      rt.rt_disc_latency.set rt.hist_indx
        ((now - rp.rp_timestamp) / rp.rp_hop_count)
    hist_indx := rt.hist_indx + 1 }

/- The reply goes on to the source of the request. -/
def recvRelay
    (now : ℚ)
    (rp : HdrAodvReply)
    (p : AodvPacket)
    (n : Aodv) : Except Fault Aodv :=
  match n.rtable.rt_lookup p.daddr with
  | none => .ok (n.emit (.drop p))
  | some rt0 =>
      if rt0.rt_hops ≠ INFINITY2 then do
        check .flags (rt0.rt_flags = .RTF_UP)
        let rp' : HdrAodvReply :=
          { rp with
            rp_hop_count := (rp.rp_hop_count + 1) % 256
            rp_src := n.index }
        let n ← n.forward now (some p.daddr)
          { p with ptype := .PT_AODV (.RREP rp') }
        let rt ← n.entry rp.rp_dst
        .ok (n.store (rt.pc_insert rt0.rt_nexthop))
      else .ok (n.emit (.drop p))

def recvReply
    (now : ℚ)
    (rp : HdrAodvReply)
    (p : AodvPacket)
    (n : Aodv) : Except Fault Aodv := do
  let n := n.ensure rp.rp_dst
  let rt ← n.entry rp.rp_dst
  if rt.rt_seqno < rp.rp_dst_seqno ∨
      (rt.rt_seqno = rp.rp_dst_seqno ∧
        rp.rp_hop_count < rt.rt_hops) then
    let rt := replied now rp rt
    let rt := if p.daddr = n.index then timed now rp rt else rt
    let n := n.store rt
    let n ← n.drain now rp.rp_dst (forwardReplied now rp.rp_dst)
    if p.daddr = n.index then .ok n else n.recvRelay now rp p
  else .ok n

/- One of the destinations that an error lists. -/
def errorEntry
    (saddr : nsaddr_t)
    (x : Aodv × HdrAodvError)
    (dest : nsaddr_t × Nat) :
    Except Fault (Aodv × HdrAodvError) :=
  match x.1.rtable.rt_lookup dest.1 with
  | none => .ok x
  | some rt =>
      if (rt.rt_hops ≠ INFINITY2 ∧ rt.rt_nexthop = saddr) ∧
          rt.rt_seqno ≤ dest.2 then do
        check .flags (rt.rt_flags = .RTF_UP)
        check .parity (rt.rt_seqno % 2 = 0)
        let rt := { rt with rt_seqno := dest.2 }.rt_down
        let n := (x.1.store rt).emit (.filter saddr)
        if rt.pc_empty = false then
          let nre ← x.2.put rt.rt_dst rt.rt_seqno
          .ok (n.store rt.pc_clear, nre)
        else .ok (n, x.2)
      else .ok x

def recvError
    (saddr : nsaddr_t)
    (re : HdrAodvError)
    (n : Aodv) : Except Fault Aodv := do
  let x ← re.listed.foldlM (errorEntry saddr) (n, .alloc)
  if 0 < x.2.DestCount then .ok (x.1.sendError x.2)
  else .ok x.1

def recvHello
    (now : ℚ)
    (rh : HdrAodvReply)
    (n : Aodv) : Except Fault Aodv :=
  let expire := now + 3 / 2 * ALLOWED_HELLO_LOSS * HELLO_INTERVAL
  if n.nbhead.any fun nb => nb.nb_addr = rh.rp_dst then
    .ok { n with
      nbhead := n.nbhead.map fun nb =>
        if nb.nb_addr = rh.rp_dst then
          { nb with nb_expire := expire }
        else nb }
  else do
    -- The set of neighbors has changed.
    let n :=
      { n with
        nbhead := ⟨rh.rp_dst, expire⟩ :: n.nbhead
        seqno := n.seqno + 2 }
    check .parity (n.seqno % 2 = 0)
    .ok n

def recvAODV
    (now : ℚ)
    (ah : AodvHeader)
    (p : AodvPacket)
    (n : Aodv) : Except Fault Aodv :=
  match ah with
  | .RREQ rq => n.recvRequest now rq p
  | .RREP rp => n.recvReply now rp p
  | .RERR re => n.recvError p.saddr re
  | .HELLO rh => n.recvHello now rh

/- A data packet, with its header as the node updates it. -/
def arrived
    (n : Aodv)
    (p : AodvPacket) : AodvPacket :=
  if p.saddr = n.index then
    if p.daddr = IP_BROADCAST then p
    else { p with ttl_ := NETWORK_DIAMETER }
  else { p with ttl_ := p.ttl_ - 1 }

def recv
    (now : ℚ)
    (p : AodvPacket)
    (n : Aodv) : Except Fault Aodv :=
  match p.ptype with
  | .PT_AODV ah =>
      n.recvAODV now ah { p with ttl_ := p.ttl_ - 1 }
  | _ =>
      if p.saddr = n.index ∧ p.num_forwards ≠ 0 then
        -- A packet of this node came back.
        .ok (n.emit (.drop p))
      else if p.saddr ≠ n.index ∧ p.ttl_ - 1 = 0 then
        .ok (n.emit (.drop p))
      else if p.daddr ≠ IP_BROADCAST then
        n.rt_resolve now (n.arrived p)
      else n.forward now none (n.arrived p)

------------------------------------------------------------
-- Events
------------------------------------------------------------

inductive Event where
| recv (p : AodvPacket)
| rt_ll_failed (p : AodvPacket)
| rt_purge
| nb_purge
| id_purge
| sendHello
| repair (p : AodvPacket)

def step
    (now : ℚ)
    (n : Aodv) : Event → Except Fault Aodv
| .recv p => n.recv now p
| .rt_ll_failed p => n.rt_ll_failed now p
| .rt_purge => n.rt_purge now
| .nb_purge => n.nb_purge now
| .id_purge => .ok (n.id_purge now)
| .sendHello => .ok n.sendHello
| .repair p => .ok (n.LocalRepairTimer_handle p)

end Aodv

end Ns2
