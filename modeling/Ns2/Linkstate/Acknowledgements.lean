import Ns2.Linkstate.Routing

/-
  Acknowledgements and what they acknowledge.

  A message goes to a peer, the peer acknowledges it, and the
  acknowledgement comes back.  The receiver acknowledges an
  advertisement by its id, while the sender waits for its
  sequence number, and the two are the same only where the
  origin itself made the message.

  Main declarations:
    * `LsMessage.Handed`
    * `RoundTrip`

  Correctness is proven by:
    * `LsContext.receiveMessage_acknowledges`
    * `ack_removes_record_iff`
-/

------------------------------------------------------------
-- Records of one peer
------------------------------------------------------------

namespace Ns2

namespace LsUnackPeer

variable {peer : LsUnackPeer}
variable {msg : LsMessage}
variable {origin : Int}

theorem record_lsa
    (hType : msg.type = .LS_MSG_LSA) :
    peer.record msg =
      { peer with
        lsaMap :=
          peer.lsaMap.set msg.originNodeId
            ⟨msg.messageId, msg.sequenceNumber⟩ } := by
  unfold record
  rw [hType]

end LsUnackPeer

namespace LsRetransmissionManager

variable {m m' : LsRetransmissionManager}
variable {peer : LsUnackPeer}
variable {peerId p origin : Int}

@[simp] theorem lsaRecord_set_self :
    lsaRecord (SortedMap.set m p peer) p origin =
      peer.lsaMap.find origin := by
  unfold lsaRecord
  rw [SortedMap.find_set_self]
  rfl

theorem lsaRecord_set_ne
    (hNe : p ≠ peerId) :
    lsaRecord (SortedMap.set m peerId peer) p origin =
      lsaRecord m p origin := by
  unfold lsaRecord
  rw [SortedMap.find_set_ne _ hNe]

theorem lsaRecord_of_find
    (hFind : m.find p = some peer) :
    m.lsaRecord p origin = peer.lsaMap.find origin := by
  unfold lsaRecord
  rw [hFind]
  rfl

/- The record of a peer after a message, known or not before. -/
theorem messageOut_cases
    {clock : Rat}
    {msg : LsMessage}
    (hOut : m.messageOut clock peerId msg = some m') :
    ∃ peer peer' : LsUnackPeer,
      m' = SortedMap.set m peerId peer' ∧
        (∀ origin, m.lsaRecord peerId origin =
          peer.lsaMap.find origin) ∧
        peer'.lsaMap = (peer.record msg).lsaMap ∧
        peer'.tpmSeq = (peer.record msg).tpmSeq := by
  unfold messageOut at hOut
  rcases Option.map_eq_some_iff.mp hOut with
    ⟨peer', hResched, rfl⟩
  rcases Option.map_eq_some_iff.mp hResched with ⟨t, -, rfl⟩
  refine ⟨_, _, rfl, ?_, rfl, rfl⟩
  intro origin
  unfold lsaRecord
  cases m.find peerId with
  | none => rfl
  | some peer => rfl

theorem lsaRecord_messageOut_lsa
    {clock : Rat}
    {msg : LsMessage}
    (hType : msg.type = .LS_MSG_LSA)
    (hOut : m.messageOut clock peerId msg = some m') :
    m'.lsaRecord peerId msg.originNodeId =
      some ⟨msg.messageId, msg.sequenceNumber⟩ := by
  rcases messageOut_cases hOut with
    ⟨peer, peer', rfl, -, hLsa, -⟩
  rw [lsaRecord_set_self, hLsa, LsUnackPeer.record_lsa hType,
    SortedMap.find_set_self]

/- Other messages leave the record of the origin alone. -/
theorem lsaRecord_messageOut_other
    {clock : Rat}
    {msg : LsMessage}
    (hOut : m.messageOut clock peerId msg = some m')
    (hOther :
      p = peerId → msg.type = .LS_MSG_LSA →
        origin ≠ msg.originNodeId) :
    m'.lsaRecord p origin = m.lsaRecord p origin := by
  rcases messageOut_cases hOut with
    ⟨peer, peer', rfl, hPeer, hLsa, -⟩
  by_cases hp : p = peerId
  · subst hp
    rw [lsaRecord_set_self, hLsa, hPeer]
    by_cases hType : msg.type = .LS_MSG_LSA
    · rw [LsUnackPeer.record_lsa hType]
      exact peer.lsaMap.find_set_ne (hOther rfl hType)
    · unfold LsUnackPeer.record
      split
      case h_1 => rfl
      case h_2 hLsaType => exact absurd hLsaType hType
      case h_3 => rfl
  · exact lsaRecord_set_ne hp

theorem lsaRecord_cancelTimer
    (nbrId : Int) :
    (m.cancelTimer nbrId).lsaRecord p origin = none ∨
      (m.cancelTimer nbrId).lsaRecord p origin =
        m.lsaRecord p origin := by
  unfold cancelTimer
  cases hFind : m.find nbrId with
  | none => exact Or.inr rfl
  | some peer =>
      by_cases hp : p = nbrId
      · subst hp
        left
        exact lsaRecord_set_self
      · exact Or.inr (lsaRecord_set_ne hp)

theorem lsaRecord_withTimer
    (hFind : m.find peerId = some peer)
    (t : TimerHandler) :
    lsaRecord (SortedMap.set m peerId (peer.withTimer t))
        p origin =
      m.lsaRecord p origin := by
  by_cases hp : p = peerId
  · subst hp
    rw [lsaRecord_set_self, lsaRecord_of_find hFind]
    rfl
  · exact lsaRecord_set_ne hp

theorem lsaRecord_modify
    {f : LsUnackPeer → LsUnackPeer}
    (hSame : ∀ peer, (f peer).lsaMap = peer.lsaMap) :
    lsaRecord (SortedMap.modify m peerId f) p origin =
      m.lsaRecord p origin := by
  unfold lsaRecord
  by_cases hp : p = peerId
  · subst hp
    rw [SortedMap.find_modify_self]
    cases m.find p with
    | none => rfl
    | some peer =>
        exact congrArg (fun map => SortedMap.find map origin)
          (hSame peer)
  · rw [SortedMap.find_modify_ne _ hp]

/- Sending again changes the timer, and no record. -/
theorem lsaRecord_handle
    {sent : List Resend}
    (hHandle : m.handle peerId = some (m', sent)) :
    m'.lsaRecord p origin = m.lsaRecord p origin := by
  unfold handle at hHandle
  rcases Option.bind_eq_some_iff.mp hHandle with
    ⟨peer, hFind, hRest⟩
  rcases Option.bind_eq_some_iff.mp hRest with
    ⟨clock, -, hRest⟩
  rcases Option.bind_eq_some_iff.mp hRest with ⟨t, -, hRest⟩
  rcases Option.bind_eq_some_iff.mp hRest with
    ⟨⟨m₁, sent₁⟩, hResend, hDone⟩
  cases hDone
  have hTimer := @lsaRecord_modify m₁ peerId p origin
    (fun peer => peer.withTimer peer.timer.endHandle)
    (fun peer => rfl)
  rw [hTimer]
  unfold resendMessages at hResend
  split at hResend
  case h_1 => cases hResend
  case h_2 old hOld =>
    rcases Option.map_eq_some_iff.mp hResend with
      ⟨peer', hResched, hEq⟩
    cases hEq
    rcases Option.map_eq_some_iff.mp hResched with
      ⟨t', -, rfl⟩
    rw [lsaRecord_withTimer hOld]
    exact lsaRecord_withTimer hFind t

end LsRetransmissionManager

end Ns2

------------------------------------------------------------
-- The acknowledgement of a receiver
------------------------------------------------------------

namespace Ns2

/- What a node sends back for a message, under a fresh id. -/
def LsMessage.ackFor
    (msg : LsMessage)
    (senderId : Int)
    (id : Nat) : LsMessage :=
  if msg.type = .LS_MSG_LSA then
    ⟨.LS_MSG_LSAACK, id, msg.messageId, msg.originNodeId, .null⟩
  else
    ⟨.LS_MSG_TPMACK, id, msg.sequenceNumber, senderId, .null⟩

namespace LsContext

end LsContext

namespace LsMessage

variable {msg : LsMessage}
variable {senderId : Int}
variable {id : Nat}

@[simp] theorem ackFor_messageId :
    (msg.ackFor senderId id).messageId = id := by
  unfold ackFor
  split_ifs
  · rfl
  · rfl

theorem ackFor_type :
    (msg.ackFor senderId id).type = .LS_MSG_LSAACK ∨
      (msg.ackFor senderId id).type = .LS_MSG_TPMACK := by
  unfold ackFor
  split_ifs
  · exact Or.inl rfl
  · exact Or.inr rfl

theorem ackFor_lsa
    (hType : msg.type = .LS_MSG_LSA) :
    msg.ackFor senderId id =
      ⟨.LS_MSG_LSAACK, id, msg.messageId, msg.originNodeId,
        .null⟩ := by
  exact if_pos hType

theorem ackFor_tpm
    (hType : msg.type = .LS_MSG_TPM) :
    msg.ackFor senderId id =
      ⟨.LS_MSG_TPMACK, id, msg.sequenceNumber, senderId,
        .null⟩ := by
  apply if_neg
  rw [hType]
  exact LsMessageType.noConfusion

end LsMessage

namespace LsContext

/- An acknowledgement is all that was sent to a neighbor. -/
structure Acknowledges
    (s : LsContext)
    (nbrId : Int)
    (ack : LsMessage) : Prop where
  parity : s.center.Parity
  stored :
    s.center.other_messages.find ack.messageId = some ack
  sent : ∀ p ∈ s.sent, p.dst = nbrId → p.msgId = ack.messageId

variable {s s' : LsContext}
variable {nbrId : Int}
variable {ack msg : LsMessage}

theorem acknowledges_sendAck
    {type : LsMessageType}
    {origin : Int}
    {seq : Nat}
    (hParity : s.center.Parity)
    (hSent : s.sent = [])
    (hType : ¬ (type = .LS_MSG_LSA ∨ type = .LS_MSG_TPM))
    (hAck : s.sendAck nbrId type origin seq = some s') :
    s'.Acknowledges nbrId
      ⟨type, s.center.current_other_id, seq, origin, .null⟩ := by
  rcases sendAck_eq hType hParity hAck with ⟨c, hNew, rfl⟩
  rcases LsMessageCenter.newMessage_other hType hNew with
    ⟨-, -, -, -, max_size, hStore⟩
  have hFind := (LsMessageCenter.store_find hStore).1
  constructor
  case parity =>
    rw [sendMessage_center]
    exact (hParity.newMessage hNew).fill _
  case stored =>
    rw [sendMessage_center,
      LsMessageCenter.fill_even hParity.other,
      SortedMap.find_modify_self]
    exact congrArg (Option.map _) hFind
  case sent =>
    intro p hp hDst
    rcases mem_sent_sendMessage hp with hOld | rfl
    · rw [hSent] at hOld
      cases hOld
    · rfl

theorem Acknowledges.withNode
    (hAck : s.Acknowledges nbrId ack)
    (node : LsRouting) :
    Acknowledges { s with node := node } nbrId ack := by
  exact ⟨hAck.parity, hAck.stored, hAck.sent⟩

/- Packets to others do not matter. -/
theorem Acknowledges.sendMessage
    (hAck : s.Acknowledges nbrId ack)
    {peerId : Int}
    (hNe : peerId ≠ nbrId)
    (msgId : Nat) :
    (s.sendMessage peerId msgId).Acknowledges nbrId ack := by
  constructor
  case parity =>
    rw [sendMessage_center]
    exact hAck.parity
  case stored =>
    rw [sendMessage_center]
    exact hAck.stored
  case sent =>
    intro p hp hDst
    rcases mem_sent_sendMessage hp with hOld | rfl
    · exact hAck.sent p hOld hDst
    · exact absurd hDst hNe

theorem Acknowledges.forwardTo
    (hAck : s.Acknowledges nbrId ack)
    {clock : Rat}
    {peerId : Int}
    (hForward :
      s.forwardTo clock nbrId msg peerId = some s') :
    s'.Acknowledges nbrId ack := by
  unfold LsContext.forwardTo at hForward
  split_ifs at hForward with hSkip
  · cases hForward
    exact hAck
  · rcases Option.map_eq_some_iff.mp hForward with
      ⟨s₁, hOut, rfl⟩
    rcases messageOut_eq hOut with ⟨m, -, rfl⟩
    apply (hAck.withNode _).sendMessage
    exact fun hEq => hSkip (Or.inr (Or.inl hEq))

theorem Acknowledges.installContent
    (hAck : s.Acknowledges nbrId ack)
    (hInstall : s.installContent msg = some s') :
    s'.Acknowledges nbrId ack := by
  unfold LsContext.installContent at hInstall
  split at hInstall
  case h_1 =>
    cases hInstall
    exact hAck
  case h_2 => cases hInstall
  case h_3 =>
    cases hInstall
    exact hAck.withNode _

/- An advertisement made again is stored with the odd ids. -/
theorem Acknowledges.regenAndSend
    (hAck : s.Acknowledges nbrId ack)
    {exception origin : Int}
    {links : List LsLink}
    (hRegen :
      s.regenAndSend exception origin links = some s') :
    s'.Acknowledges nbrId ack := by
  cases links with
  | nil => cases hRegen
  | cons link rest =>
      rcases Option.bind_eq_some_iff.mp hRegen with
        ⟨⟨s₁, fresh⟩, hNew, hRun⟩
      rcases newMessage_eq hNew with ⟨c, hCenter, rfl⟩
      rcases LsMessageCenter.newMessage_lsa (Or.inl rfl) hCenter
        with ⟨rfl, -, -, hOther, -⟩
      apply PartialRun.invariant _ _ hRun
      · intro s₂ peerId s₃ hAck₂ hTo
        unfold regenTo at hTo
        split_ifs at hTo
        · cases hTo
          exact hAck₂
        · cases hTo
          exact hAck₂.withNode _
      · constructor
        case parity =>
          exact (hAck.parity.newMessage hCenter).fill _
        case stored =>
          unfold fill
          rw [LsMessageCenter.fill_odd hAck.parity.lsa]
          exact hOther ▸ hAck.stored
        case sent => exact hAck.sent

theorem Acknowledges.receiveRecord
    (hAck : s.Acknowledges nbrId ack)
    {neighborId : Int}
    {record : Int × List LsLink}
    (hReceive :
      s.receiveRecord neighborId record = some s') :
    s'.Acknowledges nbrId ack := by
  unfold LsContext.receiveRecord at hReceive
  split_ifs at hReceive
  · cases hReceive
    exact hAck
  · rcases Option.bind_eq_some_iff.mp hReceive with
      ⟨old, -, hRest⟩
    split_ifs at hRest
    · exact (hAck.withNode _).regenAndSend hRest
    · cases hRest
      exact hAck

/-
  Whatever else a node does with a message, it sends one
  packet back, which acknowledges the message.
-/
theorem receiveMessage_acknowledges
    {clock : Rat}
    {topology : Int → Option LsDatabase}
    {senderId : Int}
    (hParity : s.center.Parity)
    (hSent : s.sent = [])
    (hType :
      msg.type = .LS_MSG_LSA ∨ msg.type = .LS_MSG_TPM)
    (hStored :
      s.center.retrieveMessage msg.messageId = some msg)
    (hValid : senderId ≠ LS_INVALID_NODE_ID)
    (hReceive :
      s.receiveMessage clock topology senderId msg.messageId =
        some s') :
    s'.Acknowledges senderId
      (msg.ackFor senderId s.center.current_other_id) := by
  unfold receiveMessage at hReceive
  rw [if_neg hValid, hStored] at hReceive
  dsimp only at hReceive
  rcases hType with hLsa | hTpm
  · rw [hLsa] at hReceive
    rcases Option.bind_eq_some_iff.mp hReceive with
      ⟨s₁, hAck, hRest⟩
    have hAcked := acknowledges_sendAck hParity hSent
      (by simp) hAck
    rw [LsMessage.ackFor_lsa hLsa]
    dsimp only at hRest
    split_ifs at hRest
    · cases hRest
      exact hAcked
    · cases hRest
      exact hAcked
    · rcases Option.bind_eq_some_iff.mp hRest with
        ⟨s₂, hRun, hInstall⟩
      apply Acknowledges.installContent _ hInstall
      apply PartialRun.invariant _ _ hRun
      · intro s₃ peerId s₄ hAck₃ hForward
        exact hAck₃.forwardTo hForward
      · exact hAcked.withNode _
  · rw [hTpm] at hReceive
    rcases Option.bind_eq_some_iff.mp hReceive with
      ⟨s₁, hAck, hRest⟩
    have hAcked := acknowledges_sendAck hParity hSent
      (by simp) hAck
    rw [LsMessage.ackFor_tpm hTpm]
    dsimp only at hRest
    split_ifs at hRest
    · cases hRest
      exact hAcked
    · split at hRest
      · cases hRest
        exact hAcked.withNode _
      · cases hRest
      · rcases Option.bind_eq_some_iff.mp hRest with
          ⟨db, -, hRun⟩
        apply PartialRun.invariant _ _ hRun
        · intro s₃ record s₄ hAck₃ hRecord
          exact hAck₃.receiveRecord hRecord
        · exact hAcked.withNode _

theorem receiveMessage_of_ack
    {clock : Rat}
    {topology : Int → Option LsDatabase}
    {senderId : Int}
    {msgId : Nat}
    (hType :
      ack.type = .LS_MSG_LSAACK ∨ ack.type = .LS_MSG_TPMACK)
    (hStored : s.center.retrieveMessage msgId = some ack)
    (hValid : senderId ≠ LS_INVALID_NODE_ID) :
    s.receiveMessage clock topology senderId msgId =
      (s.receiveAck senderId ack).map
        fun s => s.deleteMessage msgId := by
  unfold receiveMessage
  rw [if_neg hValid, hStored]
  dsimp only
  rcases hType with hLsa | hTpm
  · rw [hLsa]
  · rw [hTpm]

/- What comes back is handed to the manager. -/
theorem receiveMessage_ackIn
    {clock : Rat}
    {topology : Int → Option LsDatabase}
    {senderId : Int}
    {msgId : Nat}
    (hType :
      ack.type = .LS_MSG_LSAACK ∨ ack.type = .LS_MSG_TPMACK)
    (hStored : s.center.retrieveMessage msgId = some ack)
    (hValid : senderId ≠ LS_INVALID_NODE_ID)
    (hReceive :
      s.receiveMessage clock topology senderId msgId =
        some s') :
    s.node.ackManager.ackIn senderId ack =
      some s'.node.ackManager := by
  rw [receiveMessage_of_ack hType hStored hValid] at hReceive
  rcases Option.map_eq_some_iff.mp hReceive with
    ⟨s₁, hAck, rfl⟩
  rcases Option.map_eq_some_iff.mp hAck with ⟨m, hm, rfl⟩
  exact hm

end LsContext

end Ns2

------------------------------------------------------------
-- The record while the sender waits
------------------------------------------------------------

namespace Ns2

namespace LsUnackPeer

variable {peer : LsUnackPeer}
variable {ack : LsMessage}

/- With nothing on record there is nothing to acknowledge. -/
theorem acknowledge_of_acked
    (hAcked : ¬ peer.Unacknowledged) :
    (peer.acknowledge ack).lsaMap = peer.lsaMap ∧
      (peer.acknowledge ack).tpmSeq = peer.tpmSeq := by
  rcases not_or.mp hAcked with ⟨hTpm, hLsa⟩
  unfold acknowledge
  split
  · split_ifs
    · exact ⟨rfl, (not_not.mp hTpm).symm⟩
    · exact ⟨rfl, rfl⟩
  · rw [SortedMap.find_of_entries_nil _ (not_not.mp hLsa)]
    exact ⟨rfl, rfl⟩
  · exact ⟨rfl, rfl⟩

theorem find_acknowledge_lsa
    (hType : ack.type = .LS_MSG_LSAACK) :
    (peer.acknowledge ack).lsaMap.find ack.originNodeId =
      (peer.lsaMap.find ack.originNodeId).filter
        fun idSeq => decide (idSeq.seq ≠ ack.sequenceNumber) := by
  unfold acknowledge
  rw [hType]
  dsimp only
  cases hFind : peer.lsaMap.find ack.originNodeId with
  | none => exact hFind
  | some idSeq =>
      dsimp only
      by_cases hSeq : idSeq.seq = ack.sequenceNumber
      · rw [if_pos hSeq, SortedMap.find_erase_self]
        simp [Option.filter, hSeq]
      · rw [if_neg hSeq, hFind]
        simp [Option.filter, hSeq]

theorem tpmSeq_acknowledge
    (hType : ack.type = .LS_MSG_TPMACK) :
    (peer.acknowledge ack).tpmSeq = LS_INVALID_MESSAGE_ID ∨
      (peer.acknowledge ack).tpmSeq ≠ ack.sequenceNumber := by
  unfold acknowledge
  rw [hType]
  dsimp only
  split_ifs with hSeq
  · exact Or.inl rfl
  · exact Or.inr hSeq

end LsUnackPeer

namespace LsRetransmissionManager

variable {m m' : LsRetransmissionManager}
variable {peerId p origin : Int}
variable {ack : LsMessage}

theorem find_ackIn_none
    (hAck : m.ackIn peerId ack = some m')
    (hFind : m.find peerId = none) :
    m' = m := by
  unfold ackIn at hAck
  rw [hFind] at hAck
  exact (Option.some.inj hAck).symm

/- The records are those of the peer after it acknowledged. -/
theorem find_ackIn_some
    {peer : LsUnackPeer}
    (hAck : m.ackIn peerId ack = some m')
    (hFind : m.find peerId = some peer) :
    ∃ peer', m'.find peerId = some peer' ∧
      peer'.lsaMap = (peer.acknowledge ack).lsaMap ∧
      peer'.tpmSeq = (peer.acknowledge ack).tpmSeq := by
  unfold ackIn at hAck
  rw [hFind] at hAck
  dsimp only at hAck
  split_ifs at hAck with hBefore hAfter
  · cases hAck
    exact ⟨_, SortedMap.find_set_self _, rfl, rfl⟩
  · rcases Option.map_eq_some_iff.mp hAck with ⟨t, -, rfl⟩
    exact ⟨_, SortedMap.find_set_self _, rfl, rfl⟩
  · cases hAck
    rcases LsUnackPeer.acknowledge_of_acked hBefore with
      ⟨hLsa, hTpm⟩
    exact ⟨peer, hFind, hLsa.symm, hTpm.symm⟩

/- Only a record with the number acknowledged goes. -/
theorem lsaRecord_ackIn
    (hType : ack.type = .LS_MSG_LSAACK)
    (hAck : m.ackIn peerId ack = some m') :
    m'.lsaRecord peerId ack.originNodeId =
      (m.lsaRecord peerId ack.originNodeId).filter
        fun idSeq => decide (idSeq.seq ≠ ack.sequenceNumber) := by
  cases hFind : m.find peerId with
  | none =>
      rw [find_ackIn_none hAck hFind]
      unfold lsaRecord
      rw [hFind]
      rfl
  | some peer =>
      rcases find_ackIn_some hAck hFind with
        ⟨peer', hFind', hLsa, -⟩
      rw [lsaRecord_of_find hFind', lsaRecord_of_find hFind,
        hLsa]
      exact LsUnackPeer.find_acknowledge_lsa hType

theorem tpmRecord_ackIn
    (hType : ack.type = .LS_MSG_TPMACK)
    (hAck : m.ackIn peerId ack = some m')
    {seq : Nat}
    (hRecord : m'.tpmRecord peerId = some seq) :
    seq = LS_INVALID_MESSAGE_ID ∨ seq ≠ ack.sequenceNumber := by
  unfold tpmRecord at hRecord
  cases hFind : m.find peerId with
  | none =>
      rw [find_ackIn_none hAck hFind, hFind] at hRecord
      cases hRecord
  | some peer =>
      rcases find_ackIn_some hAck hFind with
        ⟨peer', hFind', -, hTpm⟩
      rw [hFind', Option.map_some, hTpm] at hRecord
      cases hRecord
      exact LsUnackPeer.tpmSeq_acknowledge hType

/- The record of a message, or none any more. -/
def Waits
    (m : LsRetransmissionManager)
    (peerId : Int)
    (msg : LsMessage) : Prop :=
  m.lsaRecord peerId msg.originNodeId = none ∨
    m.lsaRecord peerId msg.originNodeId =
      some ⟨msg.messageId, msg.sequenceNumber⟩

/- Without another advertisement no other record comes up. -/
theorem Waits.perform
    {msg : LsMessage}
    (hWaits : m.Waits peerId msg)
    {a : Action}
    (hAlone : ∀ clock out, a = .messageOut clock peerId out →
      out.msg.type = .LS_MSG_LSA →
      out.msg.originNodeId = msg.originNodeId → out.msg = msg)
    (hPerform : m.perform a = some m') :
    m'.Waits peerId msg := by
  cases a with
  | messageOut clock p out =>
      by_cases hSame :
          peerId = p ∧ out.msg.type = .LS_MSG_LSA ∧
            out.msg.originNodeId = msg.originNodeId
      · rcases hSame with ⟨rfl, hType, hOrigin⟩
        right
        rw [← hAlone clock out rfl hType hOrigin]
        exact lsaRecord_messageOut_lsa hType hPerform
      · unfold Waits
        rw [lsaRecord_messageOut_other hPerform]
        · exact hWaits
        · intro hp hType hOrigin
          exact hSame ⟨hp, hType, hOrigin.symm⟩
  | ackIn p ack =>
      by_cases hChange :
          m'.lsaRecord peerId msg.originNodeId =
            m.lsaRecord peerId msg.originNodeId
      · unfold Waits
        rw [hChange]
        exact hWaits
      · rcases (ackIn_changes hPerform).1 _ _ hChange with
          ⟨rfl, hOrigin, hType⟩
        unfold Waits
        rw [hOrigin, lsaRecord_ackIn hType hPerform, ← hOrigin]
        rcases hWaits with hNone | hSome
        · left
          rw [hNone]
          rfl
        · rw [hSome]
          simp only [Option.filter]
          split_ifs
          · exact Or.inr rfl
          · exact Or.inl rfl
  | cancelTimer nbrId =>
      cases hPerform
      rcases lsaRecord_cancelTimer nbrId with hNone | hSame
      · exact Or.inl hNone
      · unfold Waits
        rw [hSame]
        exact hWaits
  | expire p =>
      rcases Option.map_eq_some_iff.mp hPerform with
        ⟨⟨m₁, sent⟩, hHandle, rfl⟩
      unfold Waits
      rw [lsaRecord_handle hHandle]
      exact hWaits

end LsRetransmissionManager

end Ns2

------------------------------------------------------------
-- Round trips
------------------------------------------------------------

namespace Ns2

/-
  The messages that nodes hand to their managers: made from
  their own links, made again after a topology exchange, or
  topology maps.  A message passed on is one of these.
-/
inductive LsMessage.Handed : LsMessage → Prop
| linkStates
    {c c' : LsMessageCenter}
    {nodeId : Int}
    {fresh : LsMessage}
    (hReach : c.Reachable)
    (hNew : c.newMessage nodeId .LS_MSG_LSA = some (c', fresh))
    (links : List LsLink) :
    Handed { fresh with content := .lsl links }
| regenerated
    {c c' : LsMessageCenter}
    {origin : Int}
    {fresh : LsMessage}
    (hReach : c.Reachable)
    (hNew : c.newMessage origin .LS_MSG_LSA = some (c', fresh))
    (seq : Nat) :
    Handed { fresh with
      sequenceNumber := seq
      originNodeId := origin }
| topo
    {c c' : LsMessageCenter}
    {nodeId : Int}
    {fresh : LsMessage}
    (hReach : c.Reachable)
    (hNew : c.newMessage nodeId .LS_MSG_TPM = some (c', fresh)) :
    Handed { fresh with content := .topo nodeId }

/- The sender still has the message on record for the peer. -/
def LsRetransmissionManager.Awaits
    (m : LsRetransmissionManager)
    (peerId : Int)
    (msg : LsMessage) : Prop :=
  if msg.type = .LS_MSG_LSA then
    m.lsaRecord peerId msg.originNodeId ≠ none
  else
    m.tpmRecord peerId = some msg.sequenceNumber ∧
      msg.sequenceNumber ≠ LS_INVALID_MESSAGE_ID

/-
  A message goes to a peer and its acknowledgement comes
  back.  Meanwhile the manager of the sender goes on, but
  gets no other advertisement of the origin for the peer;
  the rest of the network does what it likes.
-/
structure RoundTrip
    (msg : LsMessage)
    (sender receiver : Int) where
  clock : Rat
  before : LsRetransmissionManager
  after : LsRetransmissionManager
  handed : before.messageOut clock receiver msg = some after
  actions : List LsRetransmissionManager.Action
  later : LsRetransmissionManager
  waited :
    PartialRun.run LsRetransmissionManager.perform after
      actions = some later
  alone : ∀ time out,
    .messageOut time receiver out ∈ actions →
      out.msg.type = .LS_MSG_LSA →
        out.msg.originNodeId = msg.originNodeId → out.msg = msg
  arrival : Rat
  topology : Int → Option LsDatabase
  arriving : LsContext
  received : LsContext
  parity : arriving.center.Parity
  quiet : arriving.sent = []
  stored :
    arriving.center.retrieveMessage msg.messageId = some msg
  receives :
    arriving.receiveMessage arrival topology sender
      msg.messageId = some received
  ackId : Nat
  answers : ⟨receiver, sender, ackId⟩ ∈ received.sent
  returning : LsContext
  returned : LsContext
  manager : returning.node.ackManager = later
  kept :
    returning.center.retrieveMessage ackId =
      received.center.retrieveMessage ackId
  comeback : Rat
  topology' : Int → Option LsDatabase
  acknowledged :
    returning.receiveMessage comeback topology' receiver ackId =
      some returned

namespace RoundTrip

variable {msg : LsMessage}
variable {sender receiver : Int}

/- The acknowledgement that comes back. -/
theorem ack_stored
    (trip : RoundTrip msg sender receiver)
    (hType :
      msg.type = .LS_MSG_LSA ∨ msg.type = .LS_MSG_TPM)
    (hSender : sender ≠ LS_INVALID_NODE_ID) :
    trip.returning.center.retrieveMessage trip.ackId =
      some (msg.ackFor sender trip.ackId) := by
  have hAck := LsContext.receiveMessage_acknowledges
    trip.parity trip.quiet hType trip.stored hSender
    trip.receives
  have hId : trip.ackId =
      trip.arriving.center.current_other_id :=
    (hAck.sent _ trip.answers rfl).trans
      LsMessage.ackFor_messageId
  have hStored := hAck.stored
  rw [LsMessage.ackFor_messageId] at hStored
  rw [trip.kept, hId,
    LsMessageCenter.retrieveMessage_even trip.parity.other]
  exact hStored

/- The manager of the sender, once it has the answer. -/
theorem ackIn_returned
    (trip : RoundTrip msg sender receiver)
    (hType :
      msg.type = .LS_MSG_LSA ∨ msg.type = .LS_MSG_TPM)
    (hSender : sender ≠ LS_INVALID_NODE_ID)
    (hReceiver : receiver ≠ LS_INVALID_NODE_ID) :
    trip.later.ackIn receiver (msg.ackFor sender trip.ackId) =
      some trip.returned.node.ackManager := by
  rw [← trip.manager]
  exact LsContext.receiveMessage_ackIn LsMessage.ackFor_type
    (trip.ack_stored hType hSender) hReceiver
    trip.acknowledged

/- The record goes if its number is the id of the message. -/
theorem lsaRecord_returned
    (trip : RoundTrip msg sender receiver)
    (hType : msg.type = .LS_MSG_LSA)
    (hSender : sender ≠ LS_INVALID_NODE_ID)
    (hReceiver : receiver ≠ LS_INVALID_NODE_ID) :
    trip.returned.node.ackManager.lsaRecord receiver
        msg.originNodeId =
      (trip.later.lsaRecord receiver msg.originNodeId).filter
        fun idSeq => decide (idSeq.seq ≠ msg.messageId) := by
  have hAck :=
    trip.ackIn_returned (Or.inl hType) hSender hReceiver
  rw [LsMessage.ackFor_lsa hType] at hAck
  exact LsRetransmissionManager.lsaRecord_ackIn rfl hAck

/- While it waits, the sender has no other record. -/
theorem waits
    (trip : RoundTrip msg sender receiver)
    (hType : msg.type = .LS_MSG_LSA) :
    trip.later.Waits receiver msg := by
  apply @PartialRun.invariant_if _ _ _
    (fun m => LsRetransmissionManager.Waits m receiver msg)
    (fun _ a => a ∈ trip.actions) _ _ _ _ _ trip.waited
  · intro before a after s₁ hEq _
    rw [hEq]
    exact List.mem_append_right before List.mem_cons_self
  · intro m a m' hWaits hMem hPerform
    apply hWaits.perform _ hPerform
    rintro time out rfl
    exact trip.alone time out hMem
  · right
    exact LsRetransmissionManager.lsaRecord_messageOut_lsa
      hType trip.handed

end RoundTrip

end Ns2

------------------------------------------------------------
-- Whether the record goes
------------------------------------------------------------

namespace Ns2

namespace LsMessage

variable {msg : LsMessage}

theorem Handed.type_cases
    (hHanded : msg.Handed) :
    msg.type = .LS_MSG_LSA ∨ msg.type = .LS_MSG_TPM := by
  cases hHanded with
  | linkStates hReach hNew links =>
      rw [(LsMessageCenter.newMessage_lsa (Or.inl rfl) hNew).1]
      exact Or.inl rfl
  | regenerated hReach hNew seq =>
      rw [(LsMessageCenter.newMessage_lsa (Or.inl rfl) hNew).1]
      exact Or.inl rfl
  | topo hReach hNew =>
      rw [(LsMessageCenter.newMessage_lsa (Or.inr rfl) hNew).1]
      exact Or.inr rfl

theorem Handed.odd
    (hHanded : msg.Handed) :
    msg.messageId % 2 = 1 := by
  cases hHanded with
  | linkStates hReach hNew links =>
      rw [(LsMessageCenter.newMessage_lsa (Or.inl rfl) hNew).1]
      exact hReach.parity.lsa
  | regenerated hReach hNew seq =>
      rw [(LsMessageCenter.newMessage_lsa (Or.inl rfl) hNew).1]
      exact hReach.parity.lsa
  | topo hReach hNew =>
      rw [(LsMessageCenter.newMessage_lsa (Or.inr rfl) hNew).1]
      exact hReach.parity.lsa

/- Advertisements point at links, or at nothing. -/
theorem Handed.installs
    (hHanded : msg.Handed)
    (hType : msg.type = .LS_MSG_LSA)
    (s : LsContext) :
    ∃ s', s.installContent msg = some s' ∧
      s'.center = s.center ∧ s'.sent = s.sent := by
  cases hHanded with
  | linkStates hReach hNew links => exact ⟨_, rfl, rfl, rfl⟩
  | regenerated hReach hNew seq =>
      have hFresh :=
        (LsMessageCenter.newMessage_lsa (Or.inl rfl) hNew).1
      subst hFresh
      exact ⟨s, rfl, rfl, rfl⟩
  | topo hReach hNew =>
      have hFresh :=
        (LsMessageCenter.newMessage_lsa (Or.inr rfl) hNew).1
      subst hFresh
      cases hType

end LsMessage

namespace RoundTrip

/- A node whose only peer is the sender of the message. -/
def hearing
    (msg : LsMessage)
    (sender receiver : Int) : LsContext where
  node := .init receiver [sender] [] .new
  center :=
    { LsMessageCenter.new 300 with
      lsa_messages := SortedMap.insert .new msg.messageId msg }
  sent := []
  log := []
  issued := 0

variable {msg : LsMessage}
variable {sender receiver : Int}

theorem hearing_receives
    (hHanded : msg.Handed)
    (hType : msg.type = .LS_MSG_LSA)
    (hSender : sender ≠ LS_INVALID_NODE_ID) :
    ∃ received,
      (hearing msg sender receiver).receiveMessage 0
          (fun _ => none) sender msg.messageId =
        some received ∧
      ⟨receiver, sender, 2⟩ ∈ received.sent := by
  have hStored :
      (hearing msg sender receiver).center.retrieveMessage
        msg.messageId = some msg := by
    rw [LsMessageCenter.retrieveMessage_odd hHanded.odd]
    exact SortedMap.find_insert_self _ rfl
  have hAck : ∃ s₁,
      (hearing msg sender receiver).sendAck sender
          .LS_MSG_LSAACK msg.originNodeId msg.messageId =
        some s₁ ∧
      s₁.node = (hearing msg sender receiver).node ∧
      ⟨receiver, sender, 2⟩ ∈ s₁.sent := by
    exact ⟨_, rfl, LsContext.sendMessage_node,
      LsContext.sent_of_peer (List.mem_singleton.mpr rfl)⟩
  rcases hAck with ⟨s₁, hAck, hNode, hSent⟩
  unfold LsContext.receiveMessage
  rw [if_neg hSender, hStored]
  dsimp only
  rw [hType]
  dsimp only
  unfold LsContext.receiveLSA
  rw [hAck, Option.bind_eq_bind, Option.bind_some]
  dsimp only
  split_ifs with hOwn hOld
  · exact ⟨s₁, rfl, hSent⟩
  · exact ⟨s₁, rfl, hSent⟩
  · -- The only peer is the sender, and gets nothing.
    rw [hNode]
    have hForward :
        ∀ s : LsContext,
          PartialRun.run
            (fun s peerId => s.forwardTo 0 sender msg peerId)
            s [sender] = some s := by
      intro s
      have hSkip : s.forwardTo 0 sender msg sender = some s :=
        if_pos (Or.inr (Or.inl rfl))
      simp only [PartialRun.run, hSkip, Option.bind_some]
    rw [show (hearing msg sender receiver).node.peerIdList =
      [sender] from rfl, hForward, Option.bind_some]
    rcases hHanded.installs hType _ with
      ⟨s₂, hInstall, -, hSame⟩
    exact ⟨s₂, hInstall, hSame ▸ hSent⟩

/- A trip without anything in between. -/
theorem exists_trip
    (hHanded : msg.Handed)
    (hType : msg.type = .LS_MSG_LSA)
    (hSender : sender ≠ LS_INVALID_NODE_ID)
    (hReceiver : receiver ≠ LS_INVALID_NODE_ID) :
    ∃ trip : RoundTrip msg sender receiver,
      trip.later.lsaRecord receiver msg.originNodeId =
        some ⟨msg.messageId, msg.sequenceNumber⟩ := by
  have hNew : LsRetransmissionManager.TimersExact .new := by
    intro p peer hFind
    cases hFind
  rcases LsRetransmissionManager.messageOut_ok hNew 0 receiver
      ⟨msg, Or.inl hType⟩ with
    ⟨after, hOut, hExact⟩
  rcases @hearing_receives msg sender receiver hHanded hType
      hSender with
    ⟨received, hReceives, hAnswers⟩
  have hParity :
      (hearing msg sender receiver).center.Parity :=
    ⟨(LsMessageCenter.parity_new 300).lsa,
      (LsMessageCenter.parity_new 300).other⟩
  have hStored :
      (hearing msg sender receiver).center.retrieveMessage
        msg.messageId = some msg := by
    rw [LsMessageCenter.retrieveMessage_odd hHanded.odd]
    exact SortedMap.find_insert_self _ rfl
  have hAck := LsContext.receiveMessage_acknowledges hParity rfl
    (Or.inl hType) hStored hSender hReceives
  let returning : LsContext :=
    { received with
      node :=
        { LsRouting.init sender [receiver] [] .new with
          ackManager := after } }
  have hBack :
      returning.center.retrieveMessage 2 =
        some (msg.ackFor sender 2) := by
    rw [LsMessageCenter.retrieveMessage_even rfl]
    have hFind := hAck.stored
    rw [LsMessage.ackFor_messageId] at hFind
    exact hFind
  rcases LsRetransmissionManager.ackIn_ok hExact receiver
      (msg.ackFor sender 2) with
    ⟨m, hAckIn, -⟩
  have hReturn := @LsContext.receiveMessage_of_ack returning _ 0
    (fun _ => none) receiver 2 LsMessage.ackFor_type hBack
    hReceiver
  unfold LsContext.receiveAck at hReturn
  rw [show returning.node.ackManager = after from rfl, hAckIn]
    at hReturn
  refine ⟨{
    clock := 0
    before := .new
    after := after
    handed := hOut
    actions := []
    later := after
    waited := rfl
    alone := fun time out hMem => absurd hMem List.not_mem_nil
    arrival := 0
    topology := fun _ => none
    arriving := hearing msg sender receiver
    received := received
    parity := hParity
    quiet := rfl
    stored := hStored
    receives := hReceives
    ackId := 2
    answers := hAnswers
    returning := returning
    returned := _
    manager := rfl
    kept := rfl
    comeback := 0
    topology' := fun _ => none
    acknowledged := hReturn }, ?_⟩
  exact LsRetransmissionManager.lsaRecord_messageOut_lsa hType
    hOut

/- A message with another number stays on record. -/
theorem exists_awaits
    (hHanded : msg.Handed)
    (hType : msg.type = .LS_MSG_LSA)
    (hSeq : msg.sequenceNumber ≠ msg.messageId)
    (hSender : sender ≠ LS_INVALID_NODE_ID)
    (hReceiver : receiver ≠ LS_INVALID_NODE_ID) :
    ∃ trip : RoundTrip msg sender receiver,
      trip.returned.node.ackManager.Awaits receiver msg := by
  rcases exists_trip hHanded hType hSender hReceiver with
    ⟨trip, hRecord⟩
  refine ⟨trip, ?_⟩
  unfold LsRetransmissionManager.Awaits
  rw [if_pos hType,
    trip.lsaRecord_returned hType hSender hReceiver, hRecord]
  simp [Option.filter, hSeq]

end RoundTrip

/-
  The acknowledgement of every round trip takes the record
  away exactly if the message is a topology map, or has its
  id for its sequence number, as the messages that a node
  makes from its own links have.
-/
theorem ack_removes_record_iff
    {msg : LsMessage}
    {sender receiver : Int}
    (hHanded : msg.Handed)
    (hSender : sender ≠ LS_INVALID_NODE_ID)
    (hReceiver : receiver ≠ LS_INVALID_NODE_ID) :
    (∀ trip : RoundTrip msg sender receiver,
      ¬ trip.returned.node.ackManager.Awaits receiver msg) ↔
      msg.type = .LS_MSG_TPM ∨
        msg.sequenceNumber = msg.messageId := by
  constructor
  · intro hAll
    rcases hHanded.type_cases with hLsa | hTpm
    · right
      by_contra hSeq
      rcases RoundTrip.exists_awaits hHanded hLsa hSeq hSender
          hReceiver with
        ⟨trip, hAwaits⟩
      exact hAll trip hAwaits
    · exact Or.inl hTpm
  · intro hWhen trip hAwaits
    unfold LsRetransmissionManager.Awaits at hAwaits
    rcases hHanded.type_cases with hLsa | hTpm
    · have hSeq : msg.sequenceNumber = msg.messageId := by
        apply hWhen.resolve_left
        rw [hLsa]
        exact LsMessageType.noConfusion
      rw [if_pos hLsa,
        trip.lsaRecord_returned hLsa hSender hReceiver]
        at hAwaits
      apply hAwaits
      rcases trip.waits hLsa with hNone | hSome
      · rw [hNone]
        rfl
      · rw [hSome]
        simp [Option.filter, hSeq]
    · have hNotLsa : msg.type ≠ .LS_MSG_LSA := by
        rw [hTpm]
        exact LsMessageType.noConfusion
      rw [if_neg hNotLsa] at hAwaits
      have hAck :=
        trip.ackIn_returned (Or.inr hTpm) hSender hReceiver
      rw [LsMessage.ackFor_tpm hTpm] at hAck
      rcases LsRetransmissionManager.tpmRecord_ackIn rfl hAck
          hAwaits.1 with hInvalid | hOther
      · exact hAwaits.2 hInvalid
      · exact hOther rfl

/- The first advertisement of node 1, sent to node 2. -/
theorem ack_removes_first_record :
    ∃ msg : LsMessage,
      msg.Handed ∧ msg.type = .LS_MSG_LSA ∧
        ∀ trip : RoundTrip msg 1 2,
          ¬ trip.returned.node.ackManager.Awaits 2 msg := by
  have hHanded :
      LsMessage.Handed ⟨.LS_MSG_LSA, 1, 1, 1, .lsl []⟩ :=
    .linkStates (.new 300) rfl []
  exact ⟨_, hHanded, rfl,
    (ack_removes_record_iff hHanded (by decide)
      (by decide)).mpr (Or.inr rfl)⟩

/-
  Node 2 has learned advertisement 1 of node 1 from topology
  map 3, makes it again as message 5 and sends that to node 3.
-/
theorem ack_misses_regenerated :
    ∃ msg : LsMessage,
      msg = ⟨.LS_MSG_LSA, 5, 1, 1, .null⟩ ∧ msg.Handed ∧
        ∃ trip : RoundTrip msg 2 3,
          trip.returned.node.ackManager.Awaits 3 msg := by
  have hFirst := @LsMessageCenter.Reachable.newMessage
    _ _ 1 .LS_MSG_LSA _ (.new 300) rfl
  have hSecond := @LsMessageCenter.Reachable.newMessage
    _ _ 1 .LS_MSG_TPM _ hFirst rfl
  have hHanded :
      LsMessage.Handed ⟨.LS_MSG_LSA, 5, 1, 1, .null⟩ :=
    .regenerated hSecond rfl 1
  exact ⟨_, rfl, hHanded,
    RoundTrip.exists_awaits hHanded rfl (by decide) (by decide)
      (by decide)⟩

end Ns2
