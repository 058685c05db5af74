import Mathlib.Logic.Relation
import Ns2.Aodv.Agent
import Ns2.Lib.Fallible

/-
  What an event can do to an AODV node.

  A handler is a sequence of small steps, each with its guard,
  and a fault comes from one of the states on the way.

  Main declarations:
    * `Aodv.Cause`, `Aodv.cause`
    * `Aodv.Makes`, `Aodv.Does`
    * `Aodv.Sound`
    * `Aodv.Broken`, `Aodv.Accounted`

  Correctness is proven by:
    * `Aodv.Sound.reaches`
-/

------------------------------------------------------------
-- Small steps
------------------------------------------------------------

namespace Ns2

namespace Aodv

/- The entries name the same route. -/
structure SameRoute (rt rt' : AodvRtEntry) : Prop where
  rt_dst : rt'.rt_dst = rt.rt_dst
  rt_seqno : rt'.rt_seqno = rt.rt_seqno
  rt_hops : rt'.rt_hops = rt.rt_hops
  rt_flags : rt'.rt_flags = rt.rt_flags
  rt_nexthop : rt'.rt_nexthop = rt.rt_nexthop

/- What a node is busy with. -/
inductive Cause where
| data (p : AodvPacket)
| request (rq : HdrAodvRequest) (p : AodvPacket)
| reply (rp : HdrAodvReply) (p : AodvPacket)
| error (re : HdrAodvError) (saddr : nsaddr_t)
| lost (ids : List nsaddr_t)
| repair (p : AodvPacket)
| timer (p : AodvPacket)
| purge
| other

def cause
    (now : ℚ)
    (n : Aodv) : Event → Cause
| .recv p =>
    match p.ptype with
    | .PT_AODV (.RREQ rq) =>
        .request rq { p with ttl_ := p.ttl_ - 1 }
    | .PT_AODV (.RREP rp) =>
        .reply rp { p with ttl_ := p.ttl_ - 1 }
    | .PT_AODV (.RERR re) => .error re p.saddr
    | .PT_AODV (.HELLO _) => .other
    | _ => .data p
| .rt_ll_failed p =>
    match n.rtable.rt_lookup p.daddr with
    | some rt =>
        if (rt.rt_hops : Int) < p.num_forwards then .repair p
        else .lost [p.next_hop_]
    | none => .other
| .rt_purge => .purge
| .nb_purge =>
    .lost ((n.nbhead.filter fun nb => nb.nb_expire ≤ now).map
      AodvNeighbor.nb_addr)
| .id_purge => .other
| .sendHello => .other
| .repair p => .timer p

/- The data packet that the node may buffer. -/
def Cause.uid : Cause → Option Nat
| .data p => some p.uid_
| .repair p => some p.uid_
| _ => none

/- The route that a message offers to the node. -/
inductive Offers : Cause → nsaddr_t → AodvRtEntry → Prop where
| request
    (rq : HdrAodvRequest)
    (p : AodvPacket)
    (rt : AodvRtEntry)
    (index : nsaddr_t)
    (hOther : rq.rq_src ≠ index)
    (hDst : rt.rt_dst = rq.rq_src)
    (hSeqno : rt.rt_seqno = rq.rq_src_seqno)
    (hHops : rt.rt_hops = rq.rq_hop_count)
    (hNext : rt.rt_nexthop = p.saddr)
    (hUp : rt.rt_flags = .RTF_UP) :
    Offers (.request rq p) index rt
| reply
    (rp : HdrAodvReply)
    (p : AodvPacket)
    (rt : AodvRtEntry)
    (index : nsaddr_t)
    (hDst : rt.rt_dst = rp.rp_dst)
    (hSeqno : rt.rt_seqno = rp.rp_dst_seqno)
    (hHops : rt.rt_hops = rp.rp_hop_count)
    (hNext : rt.rt_nexthop = rp.rp_src)
    (hUp : rt.rt_flags = .RTF_UP) :
    Offers (.reply rp p) index rt

/- The new route is newer, or as new and shorter. -/
def Fresher (rt rt' : AodvRtEntry) : Prop :=
  rt.rt_seqno < rt'.rt_seqno ∨
    (rt'.rt_seqno = rt.rt_seqno ∧ rt'.rt_hops < rt.rt_hops)

/- The route is brought down, with its number from then on. -/
inductive Loses : Cause → AodvRtEntry → Nat → Prop where
| purge
    (rt : AodvRtEntry)
    (hUp : rt.rt_flags = .RTF_UP)
    (hHops : rt.rt_hops ≠ INFINITY2)
    (hOdd : (rt.rt_seqno + 1) % 2 ≠ 0) :
    Loses .purge rt (rt.rt_seqno + 1)
| lost
    (ids : List nsaddr_t)
    (rt : AodvRtEntry)
    (hUp : rt.rt_flags = .RTF_UP)
    (hHops : rt.rt_hops ≠ INFINITY2)
    (hNext : rt.rt_nexthop ∈ ids)
    (hEven : rt.rt_seqno % 2 = 0) :
    Loses (.lost ids) rt (rt.rt_seqno + 1)
| error
    (re : HdrAodvError)
    (saddr : nsaddr_t)
    (rt : AodvRtEntry)
    (seqno : Nat)
    (hUp : rt.rt_flags = .RTF_UP)
    (hHops : rt.rt_hops ≠ INFINITY2)
    (hNext : rt.rt_nexthop = saddr)
    (hListed : (rt.rt_dst, seqno) ∈ re.listed)
    (hOld : rt.rt_seqno ≤ seqno)
    (hEven : rt.rt_seqno % 2 = 0) :
    Loses (.error re saddr) rt seqno
| timer
    (p : AodvPacket)
    (rt : AodvRtEntry)
    (hDst : rt.rt_dst = p.daddr)
    (hUp : rt.rt_flags ≠ .RTF_UP) :
    Loses (.timer p) rt rt.rt_seqno

/- The destinations of an error are down at the node. -/
def Lists
    (n : Aodv)
    (re : HdrAodvError) : Prop :=
  ∀ dest ∈ re.listed, ∃ rt ∈ n.rtable.entries,
    rt.rt_dst = dest.1 ∧ rt.rt_seqno = dest.2 ∧
      rt.rt_flags = .RTF_DOWN

/- The messages that a node makes or passes on. -/
inductive Makes (n : Aodv) : Cause → AodvPacket → Prop where
| request
    (c : Cause)
    (rt : AodvRtEntry)
    (rq : HdrAodvRequest)
    (ttl : Int)
    (hMem : rt ∈ n.rtable.entries)
    (hFlags : rt.rt_flags ≠ .RTF_UP)
    (hCount : rq.rq_hop_count = 1)
    (hDst : rq.rq_dst = rt.rt_dst)
    (hDstSeqno : rq.rq_dst_seqno = rt.rt_seqno)
    (hSrc : rq.rq_src = n.index)
    (hSrcSeqno : rq.rq_src_seqno = n.seqno) :
    Makes n c (n.packet (.RREQ rq) IP_BROADCAST ttl 0)
| relayRequest
    (rq : HdrAodvRequest)
    (p : AodvPacket)
    (hSrc : rq.rq_src ≠ n.index)
    (hDst : rq.rq_dst ≠ n.index)
    (hStale : ∀ rt, n.rtable.rt_lookup rq.rq_dst = some rt →
      rt.rt_hops = INFINITY2 ∨ rt.rt_seqno < rq.rq_dst_seqno) :
    Makes n (.request rq p)
      { relayed n.index (n.rtable.rt_lookup rq.rq_dst) rq p with
        up := false }
| replyOwn
    (rq : HdrAodvRequest)
    (p : AodvPacket)
    (rt : AodvRtEntry)
    (rp : HdrAodvReply)
    (hSrc : rq.rq_src ≠ n.index)
    (hDst : rq.rq_dst = n.index)
    (hMem : rt ∈ n.rtable.entries)
    (hBack : rt.rt_dst = rq.rq_src)
    (hCount : rp.rp_hop_count = 1)
    (hRpDst : rp.rp_dst = n.index)
    (hSeqno : rp.rp_dst_seqno = n.seqno)
    (hEven : n.seqno % 2 = 0)
    (hRpSrc : rp.rp_src = n.index) :
    Makes n (.request rq p)
      (n.packet (.RREP rp) rq.rq_src NETWORK_DIAMETER
        rt.rt_nexthop)
| replyCached
    (rq : HdrAodvRequest)
    (p : AodvPacket)
    (rt rt0 : AodvRtEntry)
    (rp : HdrAodvReply)
    (hSrc : rq.rq_src ≠ n.index)
    (hDst : rq.rq_dst ≠ n.index)
    (hMem : rt ∈ n.rtable.entries)
    (hThere : rt.rt_dst = rq.rq_dst)
    (hHops : rt.rt_hops ≠ INFINITY2)
    (hFresh : rq.rq_dst_seqno ≤ rt.rt_seqno)
    (hMem0 : rt0 ∈ n.rtable.entries)
    (hBack : rt0.rt_dst = rq.rq_src)
    (hCount : rp.rp_hop_count = (rt.rt_hops + 1) % 256)
    (hRpDst : rp.rp_dst = rt.rt_dst)
    (hSeqno : rp.rp_dst_seqno = rt.rt_seqno)
    (hRpSrc : rp.rp_src = n.index) :
    Makes n (.request rq p)
      (n.packet (.RREP rp) rq.rq_src NETWORK_DIAMETER
        rt0.rt_nexthop)
| relayReply
    (rp rp' : HdrAodvReply)
    (p : AodvPacket)
    (rt rt0 : AodvRtEntry)
    (hOther : p.daddr ≠ n.index)
    (hMem : rt ∈ n.rtable.entries)
    (hOffer : Offers (.reply rp p) n.index rt)
    (hMem0 : rt0 ∈ n.rtable.entries)
    (hBack : rt0.rt_dst = p.daddr)
    (hUp0 : rt0.rt_flags = .RTF_UP)
    (hCount : rp'.rp_hop_count = (rp.rp_hop_count + 1) % 256)
    (hRpDst : rp'.rp_dst = rp.rp_dst)
    (hSeqno : rp'.rp_dst_seqno = rp.rp_dst_seqno)
    (hRpSrc : rp'.rp_src = n.index) :
    Makes n (.reply rp p)
      { p with
        ptype := .PT_AODV (.RREP rp')
        next_hop_ := rt0.rt_nexthop
        up := false }
| error
    (c : Cause)
    (re : HdrAodvError)
    (hLists : n.Lists re) :
    Makes n c (n.packet (.RERR re) IP_BROADCAST 1 0)
| hello
    (c : Cause)
    (rh : HdrAodvReply) :
    Makes n c (n.packet (.HELLO rh) IP_BROADCAST 1 0)

/- The action sends a message of the protocol. -/
def Speaks : AodvAction → Prop
| .send p => p.isAodv = true
| _ => False

inductive Does (now : ℚ) (c : Cause) : Aodv → Aodv → Prop where
| act
    (n : Aodv)
    (a : AodvAction)
    (hQuiet : ¬ Speaks a) :
    Does now c n (n.emit a)
| send
    (n : Aodv)
    (p : AodvPacket)
    (hMakes : Makes n c p) :
    Does now c n (n.emit (.send p))
| aside
    (n : Aodv)
    (bid : Nat)
    (nbhead : List AodvNeighbor)
    (bihead : List BroadcastID) :
    Does now c n
      { n with bid := bid, nbhead := nbhead, bihead := bihead }
| advance
    (n : Aodv)
    (hEven : (n.seqno + 2) % 2 = 0) :
    Does now c n { n with seqno := n.seqno + 2 }
| answer
    (n : Aodv)
    (rq : HdrAodvRequest)
    (p : AodvPacket)
    (hCause : c = .request rq p)
    (hDst : rq.rq_dst = n.index) :
    Does now c n
      { n with seqno := answerSeqno n.seqno rq.rq_dst_seqno }
| enque
    (n : Aodv)
    (p : AodvPacket)
    (r : AodvRqueue.Result AodvPacket ℚ)
    (hUid : c.uid = some p.uid_)
    (hData : p.isAodv = false)
    (hNew : ∀ x ∈ n.rqueue.packets, x.uid_ ≠ p.uid_)
    (hEnque : n.rqueue.enque now p = some r) :
    Does now c n
      { n with
        rqueue := r.queue
        out := n.out ++ r.dropped.map fun x => .drop x.1 }
| deque
    (n : Aodv)
    (dst : nsaddr_t)
    (r : AodvRqueue.Result AodvPacket ℚ)
    (hDeque : n.rqueue.dequeDst AodvPacket.daddr now dst =
      some r) :
    Does now c n { n with rqueue := r.queue }
| ensure
    (n : Aodv)
    (dst : nsaddr_t) :
    Does now c n (n.ensure dst)
| touch
    (n : Aodv)
    (rt rt' : AodvRtEntry)
    (hMem : rt ∈ n.rtable.entries)
    (hSame : SameRoute rt rt') :
    Does now c n (n.store rt')
| update
    (n : Aodv)
    (rt rt' : AodvRtEntry)
    (hMem : rt ∈ n.rtable.entries)
    (hDst : rt'.rt_dst = rt.rt_dst)
    (hOffers : Offers c n.index rt')
    (hFresher : Fresher rt rt') :
    Does now c n (n.store rt')
| lose
    (n : Aodv)
    (rt rt' : AodvRtEntry)
    (seqno : Nat)
    (hMem : rt ∈ n.rtable.entries)
    (hLoses : Loses c rt seqno)
    (hDown : SameRoute
      (AodvRtEntry.rt_down { rt with rt_seqno := seqno }) rt') :
    Does now c n (n.store rt')
| repair
    (n : Aodv)
    (rt : AodvRtEntry)
    (p : AodvPacket)
    (hCause : c = .repair p)
    (hMem : rt ∈ n.rtable.entries)
    (hDst : rt.rt_dst = p.daddr) :
    Does now c n
      (n.store { rt with rt_flags := .RTF_IN_REPAIR })

abbrev Reaches
    (now : ℚ)
    (c : Cause) : Aodv → Aodv → Prop :=
  Relation.ReflTransGen (Does now c)

------------------------------------------------------------
-- Buffered packets
------------------------------------------------------------

/- The queue stores data packets, not too many of them. -/
def Sound (n : Aodv) : Prop :=
  ∃ xs, n.rqueue.Holds xs ∧
    n.rqueue.limit = AodvRqueue.AODV_RTQ_MAX_LEN ∧
      (xs.length : Int) ≤ n.rqueue.limit ∧
        ∀ x ∈ xs, x.isAodv = false

variable {now : ℚ}
variable {c : Cause}
variable {n s : Aodv}
variable {p : AodvPacket}
variable {dst : nsaddr_t}
variable {rt : AodvRtEntry}

theorem Sound.congr
    (hSound : n.Sound)
    (hSame : s.rqueue = n.rqueue) :
    s.Sound := by
  unfold Sound
  rw [hSame]
  exact hSound

theorem Sound.enque
    {r : AodvRqueue.Result AodvPacket ℚ}
    (hSound : n.Sound)
    (hData : p.isAodv = false)
    (hNew : ∀ x ∈ n.rqueue.packets, x.uid_ ≠ p.uid_)
    (hEnque : n.rqueue.enque now p = some r) :
    ∃ xs, r.queue.Holds xs ∧ p ∈ xs ∧
      r.queue.limit = AodvRqueue.AODV_RTQ_MAX_LEN ∧
        (xs.length : Int) ≤ r.queue.limit ∧
          ∀ x ∈ xs, x.isAodv = false := by
  rcases hSound with ⟨xs, hHolds, hLimit, hFits, hAll⟩
  rw [hHolds.packets_eq] at hNew
  have hNotIn : p ∉ xs := fun hIn => hNew p hIn rfl
  rcases @AodvRqueue.Holds.enque _ _ _ _ _ _ _ _ now hHolds
    (hLimit ▸ (by decide)) hFits hNotIn with
    ⟨r', ys, hEnque', hBuffers⟩
  rw [hEnque] at hEnque'
  cases hEnque'
  have hLast : p ∈ ys := by
    apply List.mem_of_getLast?
    rw [← hBuffers.holds.tail]
    exact AodvRqueue.enque_tail hEnque
  refine ⟨ys, hBuffers.holds, hLast,
    hBuffers.limit.trans hLimit, ?_, ?_⟩
  · rw [hBuffers.limit]
    exact hBuffers.fits
  · intro x hx
    rcases List.mem_append.mp (hBuffers.order.subset hx) with
      hOld | hNewest
    · exact hAll x hOld
    · rw [List.mem_singleton.mp hNewest]
      exact hData

/- The queue after a packet was looked for, and that packet. -/
theorem Sound.deque
    {r : AodvRqueue.Result AodvPacket ℚ}
    (hSound : n.Sound)
    (hDeque : n.rqueue.dequeDst AodvPacket.daddr now dst =
      some r) :
    ∃ xs, r.queue.Holds xs ∧
      r.queue.limit = AodvRqueue.AODV_RTQ_MAX_LEN ∧
        (xs.length : Int) ≤ r.queue.limit ∧
          (∀ x ∈ xs, x.isAodv = false) ∧
            ∀ x ∈ r.returned, x.isAodv = false := by
  rcases hSound with ⟨xs, hHolds, hLimit, hFits, hAll⟩
  rcases @AodvRqueue.Holds.dequeDst _ _ _ _ _ _ _ _ now
    AodvPacket.daddr dst hHolds hFits with
    ⟨r', ys, hDeque', hBuffers, hReturned⟩
  rw [hDeque] at hDeque'
  cases hDeque'
  refine ⟨ys, hBuffers.holds, hBuffers.limit.trans hLimit, ?_,
    ?_, ?_⟩
  · rw [hBuffers.limit]
    exact hBuffers.fits
  · intro x hx
    have hIn := hBuffers.order.subset hx
    rw [List.append_nil] at hIn
    exact hAll x hIn
  · intro x hx
    rw [hReturned, Option.mem_toList] at hx
    have hIn := List.mem_of_find?_eq_some hx
    exact hAll x (List.mem_filter.mp hIn).1

theorem ensure_rqueue :
    (n.ensure dst).rqueue = n.rqueue := by
  unfold ensure
  split <;> rfl

theorem Sound.does
    (hSound : n.Sound)
    (hDoes : Does now c n s) :
    s.Sound := by
  cases hDoes with
  | enque p r hUid hData hNew hEnque =>
      rcases hSound.enque hData hNew hEnque with
        ⟨xs, hHolds, -, hRest⟩
      exact ⟨xs, hHolds, hRest⟩
  | deque dst r hDeque =>
      rcases hSound.deque hDeque with
        ⟨xs, hHolds, hLimit, hFits, hAll, -⟩
      exact ⟨xs, hHolds, hLimit, hFits, hAll⟩
  | ensure dst => exact hSound.congr ensure_rqueue
  | _ => exact hSound.congr rfl

theorem Sound.reaches
    (hSound : n.Sound)
    (hReach : Reaches now c n s) :
    s.Sound := by
  induction hReach with
  | refl => exact hSound
  | tail _ hDoes ih => exact ih.does hDoes

------------------------------------------------------------
-- Faults
------------------------------------------------------------

/- The handler counts on the route that is not up. -/
inductive Met (n : Aodv) : Cause → AodvRtEntry → Prop where
| lost
    (ids : List nsaddr_t)
    (rt : AodvRtEntry)
    (hNext : rt.rt_nexthop ∈ ids) :
    Met n (.lost ids) rt
| error
    (re : HdrAodvError)
    (saddr : nsaddr_t)
    (rt : AodvRtEntry)
    (seqno : Nat)
    (hListed : (rt.rt_dst, seqno) ∈ re.listed)
    (hNext : rt.rt_nexthop = saddr)
    (hOld : rt.rt_seqno ≤ seqno) :
    Met n (.error re saddr) rt
| reply
    (rp : HdrAodvReply)
    (p : AodvPacket)
    (rt rt' : AodvRtEntry)
    (hOther : p.daddr ≠ n.index)
    (hDst : rt.rt_dst = p.daddr)
    (hMem' : rt' ∈ n.rtable.entries)
    (hOffer : Offers (.reply rp p) n.index rt') :
    Met n (.reply rp p) rt

/- Why a state on the way may end the handler. -/
def Broken
    (c : Cause)
    (n : Aodv) : Fault → Prop
| .flags => ∃ rt ∈ n.rtable.entries,
    (rt.rt_flags = .RTF_UP ∧ rt.rt_hops = INFINITY2) ∨
      (rt.rt_hops ≠ INFINITY2 ∧ rt.rt_flags ≠ .RTF_UP ∧
        Met n c rt)
| .parity => n.seqno % 2 ≠ 0 ∨ ∃ rt ∈ n.rtable.entries,
    rt.rt_flags = .RTF_UP ∧ rt.rt_seqno % 2 ≠ 0
| _ => True

def Accounted
    (now : ℚ)
    (c : Cause)
    (n : Aodv)
    (x : Except Fault Aodv) : Prop :=
  Fallible.Ensures x (Reaches now c n) fun fault =>
    ∃ s, Reaches now c n s ∧ Broken c s fault

end Aodv

end Ns2
