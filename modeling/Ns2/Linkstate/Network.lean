import Ns2.Linkstate.Routing

/-
  A network of link state nodes.

  The nodes act one at a time and share the message center.
  Packets are delivered in any order or get lost.

  Main declarations:
    * `LsNetwork`, `LsNetwork.step`
    * `LsNetwork.Initial`
    * `LsNetwork.Truthful`
-/

------------------------------------------------------------
-- Networks
------------------------------------------------------------

namespace Ns2

structure LsNetwork where
  nodes : SortedMap Int LsRouting
  center : LsMessageCenter
  inFlight : List Packet
  log : List LsAdvertisement
  issued : Nat

namespace LsNetwork

variable (net : LsNetwork)

/- The databases that topology maps point to. -/
def topology (nodeId : Int) : Option LsDatabase :=
  (net.nodes.find nodeId).map LsRouting.linkStateDatabase

/- A node acts, and its packets are on their way. -/
def act
    (nodeId : Int)
    (f : LsContext → Option LsContext) : Option LsNetwork :=
  (net.nodes.find nodeId).bind fun node =>
    (f ⟨node, net.center, [], net.log, net.issued⟩).map
      fun s => {
        nodes := net.nodes.set nodeId s.node
        center := s.center
        inFlight := net.inFlight ++ s.sent
        log := s.log
        issued := s.issued }

inductive Action where
| linkChange
    (clock : Rat)
    (nodeId : Int)
    (links : List LsLink)
| sendUpdates
    (clock : Rat)
    (nodeId : Int)
| sendBufferedMessages
    (clock : Rat)
    (nodeId : Int)
| expire
    (nodeId peerId : Int)
| deliver
    (clock : Rat)
    (p : Packet)
| lose
    (p : Packet)

def step : Action → Option LsNetwork
| .linkChange clock nodeId links =>
    net.act nodeId fun s => s.intfChanged clock links
| .sendUpdates clock nodeId =>
    net.act nodeId fun s => s.sendLinkStates false clock
| .sendBufferedMessages clock nodeId =>
    net.act nodeId fun s => s.sendBufferedMessages clock
| .expire nodeId peerId =>
    net.act nodeId fun s => s.expire peerId
| .deliver clock p =>
    if p ∈ net.inFlight then
      act { net with inFlight := net.inFlight.erase p } p.dst
        fun s =>
          s.receiveMessage clock net.topology
            (s.node.findPeerNodeId p.src) p.msgId
    else none
| .lose p =>
    if p ∈ net.inFlight then
      some { net with inFlight := net.inFlight.erase p }
    else none

/- The neighbors come from an array, which has no key twice. -/
structure Initial : Prop where
  center : ∃ max_size, net.center = .new max_size
  inFlight : net.inFlight = []
  log : net.log = []
  issued : net.issued = 0
  nodes : ∀ n node,
    net.nodes.find n = some node →
      ∃ peers links delays,
        node = LsRouting.init n peers links delays ∧
          (links.map fun l => l.neighborId).Nodup

/-
  What a node has in its history is backed by its database,
  with links that the origin advertised no earlier.
-/
def Truthful : Prop :=
  ∀ n node o seq,
    net.nodes.find n = some node →
      node.lsaHistory.find o = some seq →
        ∃ links a,
          node.linkStateDatabase.find o = some links ∧
            a ∈ net.log ∧ a.origin = o ∧
            seq ≤ a.sequenceNumber ∧
            links.map LsLink.toLsLinkState = a.links

/- No id has come near the threshold of wrapping around. -/
def BelowWraparound : Prop :=
  2 * net.issued + 1 ≤ LS_WRAPAROUND_THRESHOLD

/-
  An advertisement without links that is new to its receiver
  must not be newer than what the receiver knows already.
-/
def Backed (p : Packet) : Prop :=
  ∀ node msg,
    net.nodes.find p.dst = some node →
      node.findPeerNodeId p.src ≠ LS_INVALID_NODE_ID →
        net.center.retrieveMessage p.msgId = some msg →
          msg.type = .LS_MSG_LSA → msg.content = .null →
            msg.originNodeId ≠ p.dst →
              (node.lsaHistory.isNewMessage msg).1 = true →
                ∃ link rest,
                  node.linkStateDatabase.find
                      msg.originNodeId =
                    some (link :: rest) ∧
                  msg.sequenceNumber ≤ link.sequenceNumber

def Good : Action → Prop
| .deliver _ p => net.Backed p
| _ => True

end LsNetwork

end Ns2
