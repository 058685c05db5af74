import Ns2.Linkstate.Routing

/-
  The message ids that a node holds.

  A node holds the ids in its buffer, in the records of its
  manager and in the packets it has sent.  Sending takes ids
  from one of these places to another, so what is true of
  all ids held stays true.

  Main declarations:
    * `LsRetransmissionManager.All`
    * `LsContext.Holds`, `LsContext.Local`
-/

------------------------------------------------------------
-- Ids on record
------------------------------------------------------------

namespace Ns2

/- All ids on record for a peer are of a kind. -/
structure LsUnackPeer.All
    (Q : Nat → Prop)
    (peer : LsUnackPeer) : Prop where
  tpm : Q peer.tpmSeq
  lsa : ∀ origin idSeq,
    peer.lsaMap.find origin = some idSeq → Q idSeq.msgId

namespace LsUnackPeer

variable {Q : Nat → Prop}
variable {peer : LsUnackPeer}
variable {msg : LsMessage}

theorem all_new
    (hInvalid : Q LS_INVALID_MESSAGE_ID)
    (nbrId : Int)
    (timeout : Rat) :
    (new nbrId timeout).All Q := by
  constructor
  case tpm => exact hInvalid
  case lsa =>
    intro origin idSeq hFind
    cases hFind

theorem All.withTimer
    (hAll : peer.All Q)
    (t : TimerHandler) :
    (peer.withTimer t).All Q := by
  exact ⟨hAll.tpm, hAll.lsa⟩

theorem All.record
    (hAll : peer.All Q)
    (hTpm : msg.type = .LS_MSG_TPM → Q msg.sequenceNumber)
    (hLsa : msg.type = .LS_MSG_LSA → Q msg.messageId) :
    (peer.record msg).All Q := by
  unfold LsUnackPeer.record
  split
  case h_1 hType => exact ⟨hTpm hType, hAll.lsa⟩
  case h_2 hType =>
    refine ⟨hAll.tpm, ?_⟩
    intro origin idSeq hFind
    by_cases hOrigin : origin = msg.originNodeId
    · subst hOrigin
      rw [SortedMap.find_set_self] at hFind
      cases hFind
      exact hLsa hType
    · rw [SortedMap.find_set_ne _ hOrigin] at hFind
      exact hAll.lsa origin idSeq hFind
  case h_3 => exact hAll

theorem All.acknowledge
    (hAll : peer.All Q)
    (hInvalid : Q LS_INVALID_MESSAGE_ID) :
    (peer.acknowledge msg).All Q := by
  unfold LsUnackPeer.acknowledge
  split
  · split_ifs
    · exact ⟨hInvalid, hAll.lsa⟩
    · exact hAll
  · split
    · exact hAll
    · split_ifs
      · refine ⟨hAll.tpm, ?_⟩
        intro origin idSeq hFind
        by_cases hOrigin : origin = msg.originNodeId
        · subst hOrigin
          rw [SortedMap.find_erase_self] at hFind
          cases hFind
        · rw [SortedMap.find_erase_ne _ hOrigin] at hFind
          exact hAll.lsa origin idSeq hFind
      · exact hAll
  · exact hAll

theorem All.resends
    (hAll : peer.All Q)
    {peerId : Int}
    {r : Resend}
    (hr : r ∈ peer.resends peerId) :
    Q r.msgId := by
  unfold LsUnackPeer.resends at hr
  rcases List.mem_append.mp hr with hTpm | hLsa
  · split_ifs at hTpm
    · rw [List.mem_singleton.mp hTpm]
      exact hAll.tpm
    · cases hTpm
  · rcases List.mem_map.mp hLsa with ⟨e, he, rfl⟩
    exact hAll.lsa e.1 e.2 (SortedMap.mem_entries_iff _ |>.mp he)

end LsUnackPeer

namespace LsRetransmissionManager

/- All ids on record are of a kind. -/
def All
    (Q : Nat → Prop)
    (m : LsRetransmissionManager) : Prop :=
  ∀ peerId peer, m.find peerId = some peer → peer.All Q

variable {Q R : Nat → Prop}
variable {m m' : LsRetransmissionManager}
variable {peerId : Int}

theorem All.mono
    (hAll : m.All Q)
    (hMono : ∀ id, Q id → R id) :
    m.All R := by
  intro p peer hFind
  exact ⟨hMono _ (hAll p peer hFind).tpm,
    fun origin idSeq hOrigin =>
      hMono _ ((hAll p peer hFind).lsa origin idSeq hOrigin)⟩

theorem All.set
    (hAll : m.All Q)
    {peer : LsUnackPeer}
    (hPeer : peer.All Q) :
    All Q (SortedMap.set m peerId peer) := by
  intro p q hFind
  by_cases hp : p = peerId
  · subst hp
    rw [SortedMap.find_set_self] at hFind
    cases hFind
    exact hPeer
  · rw [m.find_set_ne hp] at hFind
    exact hAll p q hFind

theorem All.initTimeout
    (hInvalid : Q LS_INVALID_MESSAGE_ID)
    (delayMap : SortedMap Int Rat) :
    (initTimeout .new delayMap).All Q := by
  unfold LsRetransmissionManager.initTimeout
  apply List.foldlRecOn delayMap.entries
  · intro p q hFind
    cases hFind
  · intro m hAll e _ p q hFind
    by_cases hp : p = e.1
    · subst hp
      cases hOld : m.find e.1 with
      | none =>
          rw [m.find_insert_self hOld] at hFind
          cases hFind
          exact LsUnackPeer.all_new hInvalid _ _
      | some old =>
          rw [m.find_insert_of_some hOld] at hFind
          cases hFind
          exact hAll e.1 q hOld
    · rw [m.find_insert_ne hp] at hFind
      exact hAll p q hFind

theorem All.messageOut
    (hAll : m.All Q)
    (hInvalid : Q LS_INVALID_MESSAGE_ID)
    {clock : Rat}
    {msg : LsMessage}
    (hTpm : msg.type = .LS_MSG_TPM → Q msg.sequenceNumber)
    (hLsa : msg.type = .LS_MSG_LSA → Q msg.messageId)
    (hOut : m.messageOut clock peerId msg = some m') :
    m'.All Q := by
  unfold LsRetransmissionManager.messageOut at hOut
  rcases Option.map_eq_some_iff.mp hOut with
    ⟨peer', hResched, rfl⟩
  rcases Option.map_eq_some_iff.mp hResched with ⟨t, -, rfl⟩
  apply hAll.set
  apply LsUnackPeer.All.withTimer
  apply LsUnackPeer.All.record _ hTpm hLsa
  cases hFind : m.find peerId with
  | none => exact LsUnackPeer.all_new hInvalid _ _
  | some peer => exact hAll peerId peer hFind

theorem All.ackIn
    (hAll : m.All Q)
    (hInvalid : Q LS_INVALID_MESSAGE_ID)
    {ack : LsMessage}
    (hAck : m.ackIn peerId ack = some m') :
    m'.All Q := by
  unfold LsRetransmissionManager.ackIn at hAck
  cases hFind : m.find peerId with
  | none =>
      rw [hFind] at hAck
      cases hAck
      exact hAll
  | some peer =>
      rw [hFind] at hAck
      have hPeer := hAll peerId peer hFind
      dsimp only at hAck
      split_ifs at hAck
      · cases hAck
        exact hAll.set (hPeer.acknowledge hInvalid)
      · rcases Option.map_eq_some_iff.mp hAck with ⟨t, -, rfl⟩
        exact hAll.set ((hPeer.acknowledge hInvalid).withTimer t)
      · cases hAck
        exact hAll

theorem All.cancelTimer
    (hAll : m.All Q)
    (hInvalid : Q LS_INVALID_MESSAGE_ID)
    (nbrId : Int) :
    (m.cancelTimer nbrId).All Q := by
  unfold LsRetransmissionManager.cancelTimer
  cases hFind : m.find nbrId with
  | none => exact hAll
  | some peer =>
      apply hAll.set
      apply LsUnackPeer.All.withTimer
      constructor
      case tpm => exact hInvalid
      case lsa =>
        intro origin idSeq hNone
        cases hNone

theorem All.handle
    (hAll : m.All Q)
    {sent : List Resend}
    (hHandle : m.handle peerId = some (m', sent)) :
    m'.All Q ∧ ∀ r ∈ sent, Q r.msgId := by
  unfold LsRetransmissionManager.handle at hHandle
  rcases Option.bind_eq_some_iff.mp hHandle with
    ⟨peer, hFind, hRest⟩
  rcases Option.bind_eq_some_iff.mp hRest with
    ⟨clock, -, hRest⟩
  rcases Option.bind_eq_some_iff.mp hRest with ⟨t, -, hRest⟩
  rcases Option.bind_eq_some_iff.mp hRest with
    ⟨⟨m₁, sent₁⟩, hResend, hDone⟩
  cases hDone
  have hBefore :
      All Q (SortedMap.set m peerId (peer.withTimer t)) :=
    hAll.set ((hAll peerId peer hFind).withTimer t)
  unfold resendMessages at hResend
  split at hResend
  case h_1 => cases hResend
  case h_2 old hOld =>
    rcases Option.map_eq_some_iff.mp hResend with
      ⟨peer', hResched, hEq⟩
    cases hEq
    rcases Option.map_eq_some_iff.mp hResched with
      ⟨t', -, rfl⟩
    have hOldAll := hBefore _ old hOld
    refine ⟨?_, fun r hr => hOldAll.resends hr⟩
    intro p q hFindAfter
    by_cases hp : p = peerId
    · subst hp
      rw [SortedMap.find_modify_self] at hFindAfter
      rcases Option.map_eq_some_iff.mp hFindAfter with
        ⟨q', hq', rfl⟩
      exact (hBefore.set (hOldAll.withTimer t') p q'
        hq').withTimer _
    · rw [SortedMap.find_modify_ne _ hp] at hFindAfter
      exact hBefore.set (hOldAll.withTimer t') p q hFindAfter

end LsRetransmissionManager

end Ns2

------------------------------------------------------------
-- Ids held by a node
------------------------------------------------------------

namespace Ns2

namespace LsContext

/- All ids that the node holds are of a kind. -/
structure Holds
    (Q : Nat → Prop)
    (s : LsContext) : Prop where
  buffer : ∀ e ∈ s.node.messageBuffer, Q e.2
  manager : s.node.ackManager.All Q
  sent : ∀ p ∈ s.sent,
    p.src = s.node.myNodeId ∧ p.dst ∈ s.node.peerIdList ∧
      Q p.msgId

theorem Holds.mono
    {Q R : Nat → Prop}
    {s : LsContext}
    (hHolds : s.Holds Q)
    (hMono : ∀ id, Q id → R id) :
    s.Holds R := by
  constructor
  case buffer =>
    exact fun e he => hMono _ (hHolds.buffer e he)
  case manager => exact hHolds.manager.mono hMono
  case sent =>
    intro p hp
    rcases hHolds.sent p hp with ⟨hSrc, hDst, hId⟩
    exact ⟨hSrc, hDst, hMono _ hId⟩

/-
  A step that only moves ids about: the center, the database
  and the history of advertisements stay as they are.
-/
structure Local
    (Q : Nat → Prop)
    (s s' : LsContext) : Prop where
  center : s'.center = s.center
  log : s'.log = s.log
  issued : s'.issued = s.issued
  myNodeId : s'.node.myNodeId = s.node.myNodeId
  peers : s'.node.peerIdList = s.node.peerIdList
  links : s'.node.linkStateList = s.node.linkStateList
  database :
    s'.node.linkStateDatabase = s.node.linkStateDatabase
  history : s'.node.lsaHistory = s.node.lsaHistory
  holds : s.Holds Q → s'.Holds Q

variable {Q : Nat → Prop}
variable {s s' s'' : LsContext}

theorem Local.refl : Local Q s s := by
  exact ⟨rfl, rfl, rfl, rfl, rfl, rfl, rfl, rfl, id⟩

theorem Local.trans
    (hFirst : Local Q s s')
    (hNext : Local Q s' s'') :
    Local Q s s'' := by
  constructor
  case center => exact hNext.center.trans hFirst.center
  case log => exact hNext.log.trans hFirst.log
  case issued => exact hNext.issued.trans hFirst.issued
  case myNodeId => exact hNext.myNodeId.trans hFirst.myNodeId
  case peers => exact hNext.peers.trans hFirst.peers
  case links => exact hNext.links.trans hFirst.links
  case database => exact hNext.database.trans hFirst.database
  case history => exact hNext.history.trans hFirst.history
  case holds =>
    exact fun hHolds => hNext.holds (hFirst.holds hHolds)

/- What is in the database does not matter for that. -/
theorem Local.withDatabase
    (hLocal : Local Q s s')
    (db : LsDatabase) :
    Local Q
      { s with node := { s.node with linkStateDatabase := db } }
      { s' with
        node := { s'.node with linkStateDatabase := db } } := by
  constructor
  case center => exact hLocal.center
  case log => exact hLocal.log
  case issued => exact hLocal.issued
  case myNodeId => exact hLocal.myNodeId
  case peers => exact hLocal.peers
  case links => exact hLocal.links
  case database => rfl
  case history => exact hLocal.history
  case holds =>
    intro hHolds
    have hAfter := hLocal.holds
      ⟨hHolds.buffer, hHolds.manager, hHolds.sent⟩
    exact ⟨hAfter.buffer, hAfter.manager, hAfter.sent⟩

/- A loop moves ids about if each of its rounds does. -/
theorem Local.run
    {α : Type}
    {body : LsContext → α → Option LsContext}
    {xs : List α}
    (hBody : ∀ s₁ x s₂, Local Q s s₁ → x ∈ xs →
      body s₁ x = some s₂ → Local Q s₁ s₂)
    (hRun : PartialRun.run body s xs = some s') :
    Local Q s s' := by
  apply @PartialRun.invariant_if _ _ body
    (fun s₁ => Local Q s s₁) (fun _ x => x ∈ xs)
    _ _ _ _ .refl hRun
  · intro before x after s₁ hEq _
    rw [hEq]
    exact List.mem_append_right before List.mem_cons_self
  · intro s₁ x s₂ hLocal hx hStep
    exact hLocal.trans (hBody s₁ x s₂ hLocal hx hStep)

variable {peerId : Int}
variable {msgId : Nat}
variable {clock : Rat}
variable {msg : LsMessage}

theorem local_sendMessage
    (hId : Q msgId) :
    Local Q s (s.sendMessage peerId msgId) := by
  unfold sendMessage
  split_ifs with hPeer
  · refine ⟨rfl, rfl, rfl, rfl, rfl, rfl, rfl, rfl, ?_⟩
    intro hHolds
    refine ⟨hHolds.buffer, hHolds.manager, ?_⟩
    intro p hp
    rcases List.mem_append.mp hp with hOld | hNew
    · exact hHolds.sent p hOld
    · rw [List.mem_singleton.mp hNew]
      exact ⟨rfl, hPeer, hId⟩
  · exact .refl

theorem local_manager
    {m : LsRetransmissionManager}
    (hAll : s.node.ackManager.All Q → m.All Q) :
    Local Q s
      { s with node := { s.node with ackManager := m } } := by
  refine ⟨rfl, rfl, rfl, rfl, rfl, rfl, rfl, rfl, ?_⟩
  intro hHolds
  exact ⟨hHolds.buffer, hAll hHolds.manager, hHolds.sent⟩

theorem local_messageOut
    (hInvalid : Q LS_INVALID_MESSAGE_ID)
    (hTpm : msg.type = .LS_MSG_TPM → Q msg.sequenceNumber)
    (hLsa : msg.type = .LS_MSG_LSA → Q msg.messageId)
    (hOut : s.messageOut clock peerId msg = some s') :
    Local Q s s' := by
  rcases messageOut_eq hOut with ⟨m, hm, rfl⟩
  exact local_manager fun hAll =>
    hAll.messageOut hInvalid hTpm hLsa hm

theorem local_bufferedSend
    (hId : Q msgId) :
    Local Q s (s.bufferedSend peerId msgId) := by
  refine ⟨rfl, rfl, rfl, rfl, rfl, rfl, rfl, rfl, ?_⟩
  intro hHolds
  refine ⟨?_, hHolds.manager, hHolds.sent⟩
  intro e he
  rcases List.mem_append.mp he with hOld | hNew
  · exact hHolds.buffer e hOld
  · rw [List.mem_singleton.mp hNew]
    exact hId

theorem local_cancelTimer
    (hInvalid : Q LS_INVALID_MESSAGE_ID)
    (nbrId : Int) :
    Local Q s (s.cancelTimer nbrId) := by
  exact local_manager fun hAll =>
    hAll.cancelTimer hInvalid nbrId

theorem local_receiveAck
    (hInvalid : Q LS_INVALID_MESSAGE_ID)
    (hAck : s.receiveAck peerId msg = some s') :
    Local Q s s' := by
  rcases Option.map_eq_some_iff.mp hAck with ⟨m, hm, rfl⟩
  exact local_manager fun hAll => hAll.ackIn hInvalid hm

/- An advertisement goes to one of the peers. -/
theorem local_sendLinkStatesTo
    {buffer : Bool}
    (hInvalid : Q LS_INVALID_MESSAGE_ID)
    (hType : msg.type = .LS_MSG_LSA)
    (hId : Q msg.messageId)
    (hTo :
      s.sendLinkStatesTo buffer clock msg peerId = some s') :
    Local Q s s' := by
  unfold sendLinkStatesTo at hTo
  split_ifs at hTo
  · cases hTo
    exact .refl
  · refine (local_sendMessage hId).trans
      (local_messageOut hInvalid ?_ (fun _ => hId) hTo)
    rw [hType]
    exact fun hTpm => LsMessageType.noConfusion hTpm
  · cases hTo
    exact local_bufferedSend hId

theorem local_regenTo
    {exception origin : Int}
    (hId : Q msgId)
    (hTo :
      s.regenTo exception origin msgId peerId = some s') :
    Local Q s s' := by
  unfold regenTo at hTo
  split_ifs at hTo
  · cases hTo
    exact .refl
  · cases hTo
    exact local_bufferedSend hId

theorem local_forwardTo
    {senderId : Int}
    (hInvalid : Q LS_INVALID_MESSAGE_ID)
    (hType : msg.type = .LS_MSG_LSA)
    (hId : Q msg.messageId)
    (hForward :
      s.forwardTo clock senderId msg peerId = some s') :
    Local Q s s' := by
  unfold forwardTo at hForward
  split_ifs at hForward
  · cases hForward
    exact .refl
  · rcases Option.map_eq_some_iff.mp hForward with
      ⟨s₁, hOut, rfl⟩
    refine (local_messageOut hInvalid ?_ (fun _ => hId)
      hOut).trans (local_sendMessage hId)
    rw [hType]
    exact fun hTpm => LsMessageType.noConfusion hTpm

/- A timer that ends sends messages on record again. -/
theorem local_expire
    (hExpire : s.expire peerId = some s') :
    s.Holds Q → Local Q s s' := by
  intro hHolds
  rcases Option.map_eq_some_iff.mp hExpire with
    ⟨⟨m, resends⟩, hHandle, rfl⟩
  rcases hHolds.manager.handle hHandle with ⟨hAll, hSent⟩
  have hManager :
      Local Q s { s with
        node := { s.node with ackManager := m } } :=
    local_manager fun _ => hAll
  apply List.foldlRecOn resends
  · exact hManager
  · intro s₁ hLocal r hr
    exact hLocal.trans (local_sendMessage (hSent r hr))

end LsContext

end Ns2
