import Ns2.Lib.PartialRun
import Ns2.Linkstate.Retransmission

/-
  Link state updates at one node.

  A node floods advertisements of its links, exchanges its
  database with a neighbor whose link came up, and passes on
  what is new to it.  The routes it computes after a change
  depend on the database alone and are left out here.

  Main declarations:
    * `LsRouting`, `LsContext`
    * `LsContext.linkStateChanged`
    * `LsContext.sendLinkStates`
    * `LsContext.sendBufferedMessages`
    * `LsContext.receiveMessage`
    * `LsContext.expire`
-/

------------------------------------------------------------
-- Database
------------------------------------------------------------

namespace Ns2

/- The links of each node, with their sequence numbers. -/
abbrev LsDatabase := SortedMap Int (List LsLink)

namespace LsDatabase

/-
  One link of an update, and whether it changes anything.
  The sequence numbers of the node itself are set elsewhere.
-/
def updateLink
    (own : Bool)
    (new : LsLink) :
    List LsLink → List LsLink × Bool
| [] => ([new], true)
| old :: rest =>
    if new.neighborId = old.neighborId then
      ({ old with
          status := new.status
          cost := new.cost
          sequenceNumber :=
            if own then old.sequenceNumber
            else new.sequenceNumber } :: rest,
        decide (new.status ≠ old.status) ||
          decide (new.cost ≠ old.cost))
    else
      let r := updateLink own new rest
      (old :: r.1, r.2)

def updateLinks
    (own : Bool)
    (old new : List LsLink) : List LsLink × Bool :=
  new.foldl
    (fun r link =>
      let r' := updateLink own link r.1
      (r'.1, r.2 || r'.2))
    (old, false)

def update
    (db : LsDatabase)
    (myNodeId nodeId : Int)
    (links : List LsLink) : LsDatabase × Bool :=
  match db.find nodeId with
  | none => (db.insert nodeId links, true)
  | some old =>
      let r := updateLinks (decide (nodeId = myNodeId)) old links
      (db.modify nodeId fun _ => r.1, r.2)

/-
  Whether the record of a topology map is to replace ours.
  Nothing where the front of an empty list is read.
-/
def outdated :
    Option (List LsLink) → List LsLink → Option Bool
| some (own :: _), link :: _ =>
    some
      (decide (own.sequenceNumber < link.sequenceNumber) ||
        decide (LS_WRAPAROUND_THRESHOLD <
          subU32 own.sequenceNumber link.sequenceNumber))
| some (_ :: _), [] => none
| _, _ => some true

end LsDatabase

end Ns2

------------------------------------------------------------
-- Nodes
------------------------------------------------------------

namespace Ns2

/- A message on its way, known by its id. -/
structure Packet where
  src : Int
  dst : Int
  msgId : Nat
deriving DecidableEq, Repr

structure LsRouting where
  myNodeId : Int
  peerIdList : List Int
  linkStateList : List LsLink
  linkStateDatabase : LsDatabase
  lsaHistory : LsMessageHistory
  tpmHistory : LsMessageHistory
  ackManager : LsRetransmissionManager
  messageBuffer : List (Int × Nat)

namespace LsRouting

def init
    (myNodeId : Int)
    (peerIdList : List Int)
    (linkStateList : List LsLink)
    (delayMap : SortedMap Int Rat) : LsRouting where
  myNodeId := myNodeId
  peerIdList := peerIdList
  linkStateList := linkStateList
  linkStateDatabase :=
    SortedMap.insert .new myNodeId linkStateList
  lsaHistory := .new
  tpmHistory := .new
  ackManager :=
    LsRetransmissionManager.initTimeout .new delayMap
  messageBuffer := []

def isUp
    (node : LsRouting)
    (neighborId : Int) : Bool :=
  match node.linkStateList.find?
      fun l => decide (l.neighborId = neighborId) with
  | none => false
  | some l => decide (l.status = .LS_STATUS_UP)

/- A sender that is no peer gets the invalid id. -/
def findPeerNodeId
    (node : LsRouting)
    (src : Int) : Int :=
  if src ∈ node.peerIdList then src else LS_INVALID_NODE_ID

end LsRouting

/- The links that a node made known about itself. -/
structure LsAdvertisement where
  origin : Int
  sequenceNumber : Nat
  links : List LsLinkState
deriving DecidableEq, Repr

/-
  A node at work, with the message center that it shares and
  the packets that it has sent so far.  What all nodes have
  advertised, and how many odd ids the center has given out,
  is there to be spoken about; no operation reads it.
-/
structure LsContext where
  node : LsRouting
  center : LsMessageCenter
  sent : List Packet
  log : List LsAdvertisement
  issued : Nat

end Ns2

------------------------------------------------------------
-- Sending
------------------------------------------------------------

namespace Ns2

namespace LsContext

variable (s : LsContext)

/- Only peers have an address that a packet can be sent to. -/
def sendMessage
    (destId : Int)
    (msgId : Nat) : LsContext :=
  if destId ∈ s.node.peerIdList then
    { s with
      sent := s.sent ++ [⟨s.node.myNodeId, destId, msgId⟩] }
  else s

def messageOut
    (clock : Rat)
    (peerId : Int)
    (msg : LsMessage) : Option LsContext :=
  (s.node.ackManager.messageOut clock peerId msg).map
    fun m => { s with node := { s.node with ackManager := m } }

def bufferedSend
    (peerId : Int)
    (msgId : Nat) : LsContext :=
  { s with
    node := { s.node with
      messageBuffer := s.node.messageBuffer ++ [(peerId, msgId)] } }

def countOdd (msgId issued : Nat) : Nat :=
  if LsMessageCenter.isLSA msgId then issued + 1 else issued

def newMessage
    (nodeId : Int)
    (type : LsMessageType) : Option (LsContext × LsMessage) :=
  (s.center.newMessage nodeId type).map
    fun r =>
      ({ s with
          center := r.1
          issued := countOdd r.2.messageId s.issued }, r.2)

def fill (msg : LsMessage) : LsContext :=
  { s with center := s.center.fill msg }

def sendAck
    (nbrId : Int)
    (type : LsMessageType)
    (originNodeIdAcked : Int)
    (seqAcked : Nat) : Option LsContext :=
  (s.newMessage s.node.myNodeId type).map fun (s, fresh) =>
    let msg := { fresh with
      originNodeId := originNodeIdAcked
      sequenceNumber := seqAcked }
    (s.fill msg).sendMessage nbrId msg.messageId

/- One peer of the loop of `sendLinkStates`. -/
def sendLinkStatesTo
    (buffer : Bool)
    (clock : Rat)
    (msg : LsMessage)
    (peerId : Int) : Option LsContext :=
  if s.node.isUp peerId = false then some s
  else if buffer = false then
    (s.sendMessage peerId msg.messageId).messageOut clock
      peerId msg
  else some (s.bufferedSend peerId msg.messageId)

/- The node's own links, with a number, and logged. -/
def advertise
    (seq : Nat)
    (links : List LsLink) : LsContext :=
  { s with
    node := { s.node with
      linkStateDatabase :=
        s.node.linkStateDatabase.modify s.node.myNodeId
          fun _ => links }
    log :=
      s.log ++
        [⟨s.node.myNodeId, seq,
          links.map LsLink.toLsLinkState⟩] }

def sendLinkStates
    (buffer : Bool)
    (clock : Rat) : Option LsContext :=
  if s.node.peerIdList = [] then some s
  else
    match s.node.linkStateDatabase.find s.node.myNodeId with
    | none => some s
    | some [] => some s
    | some (link :: rest) => do
        let (s, fresh) ←
          s.newMessage s.node.myNodeId .LS_MSG_LSA
        let links := (link :: rest).map fun l =>
          { l with sequenceNumber := fresh.sequenceNumber }
        let msg := { fresh with content := .lsl links }
        let s := (s.advertise fresh.sequenceNumber links).fill msg
        PartialRun.run
          (fun s peerId =>
            sendLinkStatesTo s buffer clock msg peerId)
          s s.node.peerIdList

def sendTopo (neighborId : Int) : Option LsContext :=
  (s.newMessage s.node.myNodeId .LS_MSG_TPM).map
    fun (s, fresh) =>
      let msg := { fresh with
        content := .topo s.node.myNodeId }
      (s.fill msg).bufferedSend neighborId msg.messageId

/- One peer of the loop of `regenAndSend`. -/
def regenTo
    (exception origin : Int)
    (msgId : Nat)
    (peerId : Int) : Option LsContext :=
  if peerId = origin ∨ peerId = exception ∨
      s.node.isUp peerId = false then some s
  else some (s.bufferedSend peerId msgId)

/-
  The links are copied, but the message does not get to point
  at the copy.
-/
def regenAndSend
    (exception origin : Int) :
    List LsLink → Option LsContext
| [] => none
| link :: _ => do
    let (s, fresh) ← s.newMessage origin .LS_MSG_LSA
    let msg := { fresh with
      sequenceNumber := link.sequenceNumber
      originNodeId := origin }
    PartialRun.run
      (fun s peerId =>
        regenTo s exception origin msg.messageId peerId)
      (s.fill msg) s.node.peerIdList

/- One message of the buffer, which must still be stored. -/
def flush
    (clock : Rat)
    (entry : Int × Nat) : Option LsContext := do
  let msg ← s.center.retrieveMessage entry.2
  let s ← s.messageOut clock entry.1 msg
  return s.sendMessage entry.1 msg.messageId

def sendBufferedMessages
    (clock : Rat) : Option LsContext :=
  (PartialRun.run (fun s entry => flush s clock entry)
    s s.node.messageBuffer).map
      fun s => { s with
        node := { s.node with messageBuffer := [] } }

end LsContext

end Ns2

------------------------------------------------------------
-- Changes of links
------------------------------------------------------------

namespace Ns2

namespace LsContext

def cancelTimer
    (s : LsContext)
    (nbrId : Int) : LsContext :=
  { s with
    node := { s.node with
      ackManager := s.node.ackManager.cancelTimer nbrId } }

/-
  The second half of `linkStateChanged`, over the new and the
  old links.  Nothing where they are not aligned.
-/
def compareLinks :
    List LsLink → List LsLink → LsContext → Option LsContext
| [], _, s => some s
| _ :: _, [], _ => none
| new :: newRest, old :: oldRest, s =>
    if new.neighborId ≠ old.neighborId then none
    else
      let s :=
        if new.status = .LS_STATUS_DOWN then
          s.cancelTimer new.neighborId
        else s
      if new.status = .LS_STATUS_DOWN ∨
          old.status = .LS_STATUS_UP then
        compareLinks newRest oldRest s
      else
        (s.sendTopo new.neighborId).bind
          (compareLinks newRest oldRest)

def linkStateChanged
    (s : LsContext)
    (clock : Rat) : Option LsContext := do
  let old ← s.node.linkStateDatabase.find s.node.myNodeId
  let r :=
    s.node.linkStateDatabase.update s.node.myNodeId
      s.node.myNodeId s.node.linkStateList
  let s : LsContext :=
    { s with node := { s.node with linkStateDatabase := r.1 } }
  let s ← if r.2 then s.sendLinkStates true clock else some s
  compareLinks s.node.linkStateList old s

def intfChanged
    (s : LsContext)
    (clock : Rat)
    (links : List LsLink) : Option LsContext :=
  let s : LsContext :=
    { s with node := { s.node with linkStateList := links } }
  s.linkStateChanged clock

end LsContext

end Ns2

------------------------------------------------------------
-- Receiving
------------------------------------------------------------

namespace Ns2

namespace LsContext

variable (s : LsContext)

/- One peer of the loop that passes an advertisement on. -/
def forwardTo
    (clock : Rat)
    (senderId : Int)
    (msg : LsMessage)
    (peerId : Int) : Option LsContext :=
  if peerId = msg.originNodeId ∨ peerId = senderId ∨
      s.node.isUp peerId = false then some s
  else
    (s.messageOut clock peerId msg).map
      fun s => s.sendMessage peerId msg.messageId

/- Nothing for a message that points at no list of links. -/
def installContent
    (msg : LsMessage) : Option LsContext :=
  match msg.content with
  | .null => some s
  | .topo _ => none
  | .lsl links =>
      let r :=
        s.node.linkStateDatabase.update s.node.myNodeId
          msg.originNodeId links
      some { s with
        node := { s.node with linkStateDatabase := r.1 } }

def receiveLSA
    (clock : Rat)
    (senderId : Int)
    (msg : LsMessage) : Option LsContext := do
  let s ← s.sendAck senderId .LS_MSG_LSAACK
    msg.originNodeId msg.messageId
  if msg.originNodeId = s.node.myNodeId then return s
  else
    let r := s.node.lsaHistory.isNewMessage msg
    if r.1 = false then return s
    else
      let s : LsContext :=
        { s with node := { s.node with lsaHistory := r.2 } }
      let s ← PartialRun.run
        (fun s peerId => forwardTo s clock senderId msg peerId)
        s s.node.peerIdList
      s.installContent msg

/- One record of a topology map. -/
def receiveRecord
    (neighborId : Int)
    (record : Int × List LsLink) : Option LsContext :=
  if record.1 = s.node.myNodeId then some s
  else
    (LsDatabase.outdated
      (s.node.linkStateDatabase.find record.1) record.2).bind
      fun old =>
        if old then
          let db := s.node.linkStateDatabase.set record.1 record.2
          let s : LsContext :=
            { s with
              node := { s.node with linkStateDatabase := db } }
          s.regenAndSend neighborId record.1 record.2
        else some s

/-
  A topology map is read where it is, so `topology` gives the
  databases of the nodes as they are now.
-/
def receiveTopo
    (topology : Int → Option LsDatabase)
    (neighborId : Int)
    (msg : LsMessage) : Option LsContext := do
  let s ← s.sendAck neighborId .LS_MSG_TPMACK neighborId
    msg.sequenceNumber
  let r := s.node.tpmHistory.isNewMessage msg
  if r.1 = false then return s
  else
    let s : LsContext :=
      { s with node := { s.node with tpmHistory := r.2 } }
    match msg.content with
    | .null => some s
    | .lsl _ => none
    | .topo nodeId =>
        (topology nodeId).bind fun db =>
          PartialRun.run
            (fun s record => receiveRecord s neighborId record)
            s db.entries

def receiveAck
    (neighborId : Int)
    (msg : LsMessage) : Option LsContext :=
  (s.node.ackManager.ackIn neighborId msg).map
    fun m => { s with node := { s.node with ackManager := m } }

def deleteMessage (msgId : Nat) : LsContext :=
  { s with center := s.center.deleteMessage msgId }

def receiveMessage
    (clock : Rat)
    (topology : Int → Option LsDatabase)
    (senderId : Int)
    (msgId : Nat) : Option LsContext :=
  if senderId = LS_INVALID_NODE_ID then some s
  else
    match s.center.retrieveMessage msgId with
    | none => some s
    | some msg =>
        match msg.type with
        | .LS_MSG_TPM => s.receiveTopo topology senderId msg
        | .LS_MSG_LSA => s.receiveLSA clock senderId msg
        | .LS_MSG_LSAACK | .LS_MSG_TPMACK =>
            (s.receiveAck senderId msg).map
              fun s => s.deleteMessage msgId
        | _ => some s

/- The timer for a peer ends, and messages are sent again. -/
def expire (peerId : Int) : Option LsContext :=
  (s.node.ackManager.handle peerId).map fun (m, resends) =>
    resends.foldl
      (fun s r => sendMessage s r.peerId r.msgId)
      { s with node := { s.node with ackManager := m } }

end LsContext

end Ns2

------------------------------------------------------------
-- What the steps touch
------------------------------------------------------------

namespace Ns2

namespace LsContext

variable {s s' : LsContext}
variable {peerId : Int}
variable {msgId : Nat}
variable {msg : LsMessage}

@[simp] theorem sendMessage_node :
    (s.sendMessage peerId msgId).node = s.node := by
  unfold sendMessage
  split_ifs
  · rfl
  · rfl

@[simp] theorem sendMessage_center :
    (s.sendMessage peerId msgId).center = s.center := by
  unfold sendMessage
  split_ifs
  · rfl
  · rfl

theorem mem_sent_sendMessage
    {p : Packet}
    (hp : p ∈ (s.sendMessage peerId msgId).sent) :
    p ∈ s.sent ∨ p = ⟨s.node.myNodeId, peerId, msgId⟩ := by
  unfold sendMessage at hp
  split_ifs at hp
  · rcases List.mem_append.mp hp with hOld | hNew
    · exact Or.inl hOld
    · exact Or.inr (List.mem_singleton.mp hNew)
  · exact Or.inl hp

theorem sent_of_peer
    (hPeer : peerId ∈ s.node.peerIdList) :
    ⟨s.node.myNodeId, peerId, msgId⟩ ∈
      (s.sendMessage peerId msgId).sent := by
  unfold sendMessage
  rw [if_pos hPeer]
  exact List.mem_append_right _ (List.mem_singleton.mpr rfl)

theorem messageOut_eq
    {clock : Rat}
    (hOut : s.messageOut clock peerId msg = some s') :
    ∃ m,
      s.node.ackManager.messageOut clock peerId msg = some m ∧
        s' = { s with
          node := { s.node with ackManager := m } } := by
  rcases Option.map_eq_some_iff.mp hOut with ⟨m, hm, rfl⟩
  exact ⟨m, hm, rfl⟩

theorem newMessage_eq
    {nodeId : Int}
    {type : LsMessageType}
    (hNew : s.newMessage nodeId type = some (s', msg)) :
    ∃ c, s.center.newMessage nodeId type = some (c, msg) ∧
      s' = { s with
        center := c
        issued := countOdd msg.messageId s.issued } := by
  rcases Option.map_eq_some_iff.mp hNew with
    ⟨⟨c, fresh⟩, hc, hEq⟩
  cases hEq
  exact ⟨c, hc, rfl⟩

@[simp] theorem sendMessage_log :
    (s.sendMessage peerId msgId).log = s.log := by
  unfold sendMessage
  split_ifs
  · rfl
  · rfl

@[simp] theorem sendMessage_issued :
    (s.sendMessage peerId msgId).issued = s.issued := by
  unfold sendMessage
  split_ifs
  · rfl
  · rfl

theorem le_countOdd
    (issued : Nat) :
    issued ≤ countOdd msgId issued := by
  unfold countOdd
  split_ifs
  · exact Nat.le_succ issued
  · exact le_rfl

theorem countOdd_of_odd
    {issued : Nat}
    (hOdd : msgId % 2 = 1) :
    countOdd msgId issued = issued + 1 := by
  exact if_pos (decide_eq_true hOdd)

/- What an acknowledgement does not touch. -/
theorem sendAck_frame
    {nbrId origin : Int}
    {type : LsMessageType}
    {seq : Nat}
    (hAck : s.sendAck nbrId type origin seq = some s') :
    s'.node = s.node ∧ s'.log = s.log ∧
      s.issued ≤ s'.issued := by
  rcases Option.map_eq_some_iff.mp hAck with
    ⟨⟨s₁, fresh⟩, hNew, rfl⟩
  rcases newMessage_eq hNew with ⟨c, -, rfl⟩
  refine ⟨sendMessage_node, sendMessage_log, ?_⟩
  dsimp only
  rw [sendMessage_issued]
  exact le_countOdd s.issued

/- An acknowledgement gets a fresh id and is sent at once. -/
theorem sendAck_eq
    {nbrId origin : Int}
    {type : LsMessageType}
    {seq : Nat}
    (hType : ¬ (type = .LS_MSG_LSA ∨ type = .LS_MSG_TPM))
    (hParity : s.center.Parity)
    (hAck : s.sendAck nbrId type origin seq = some s') :
    ∃ c,
      s.center.newMessage s.node.myNodeId type =
          some (c, .new s.center.current_other_id
            s.node.myNodeId type) ∧
        s' = sendMessage
          { s with
            center := c.fill
              ⟨type, s.center.current_other_id, seq, origin,
                .null⟩ }
          nbrId s.center.current_other_id := by
  rcases Option.map_eq_some_iff.mp hAck with
    ⟨⟨s₁, fresh⟩, hNew, rfl⟩
  rcases newMessage_eq hNew with ⟨c, hCenter, rfl⟩
  have hFresh :=
    (LsMessageCenter.newMessage_other hType hCenter).1
  subst hFresh
  have hCount :
      countOdd s.center.current_other_id s.issued =
        s.issued := by
    unfold countOdd LsMessageCenter.isLSA
    rw [hParity.other]
    rfl
  refine ⟨c, hCenter, ?_⟩
  dsimp only [LsMessage.new]
  rw [hCount]
  rfl

end LsContext

end Ns2
