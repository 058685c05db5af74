import Ns2.Linkstate.Holding
import Ns2.Linkstate.Records
import Mathlib.Data.List.Nodup

/-
  What sending keeps.

  Every record in a database is a list that its origin
  advertised, with the number of that advertisement in every
  link, and no number in a history is greater.  A node makes
  messages, sends them and changes its own links without
  breaking that.

  Main declarations:
    * `LsNetwork.Listed`
    * `LsContext.Full`, `LsContext.Safe`

  Correctness is proven by:
    * `LsContext.safe_sendAck`
    * `LsContext.safe_regenAndSend`
    * `LsContext.safe_intfChanged`
-/

------------------------------------------------------------
-- The invariant
------------------------------------------------------------

namespace Ns2

namespace LsNetwork

/- A list of links that an origin advertised, as it was. -/
structure Listed
    (ids : Int → List Int)
    (log : List LsAdvertisement)
    (origin : Int)
    (seq : Nat)
    (links : List LsLink) : Prop where
  nonempty : links ≠ []
  numbered : ∀ l ∈ links, l.sequenceNumber = seq
  neighbors : LsDatabase.neighbors links = ids origin
  logged :
    ⟨origin, seq, links.map LsLink.toLsLinkState⟩ ∈ log

theorem Listed.mono
    {ids : Int → List Int}
    {log log' : List LsAdvertisement}
    {origin : Int}
    {seq : Nat}
    {links : List LsLink}
    (hListed : Listed ids log origin seq links)
    (hLog : ∀ a ∈ log, a ∈ log') :
    Listed ids log' origin seq links := by
  exact { hListed with logged := hLog _ hListed.logged }

/- A message with an odd id, stored under it. -/
structure MessageOk
    (ids : Int → List Int)
    (log : List LsAdvertisement)
    (bound id : Nat)
    (msg : LsMessage) : Prop where
  messageId : msg.messageId = id
  odd : id % 2 = 1
  below : id < bound
  kind :
    (msg.type = .LS_MSG_LSA ∧
      (msg.content = .null ∨
        ∃ links, msg.content = .lsl links ∧
          Listed ids log msg.originNodeId
            msg.sequenceNumber links)) ∨
    (msg.type = .LS_MSG_TPM ∧ msg.sequenceNumber = id ∧
      ∃ x, msg.content = .topo x)

structure CenterOk
    (ids : Int → List Int)
    (log : List LsAdvertisement)
    (issued : Nat)
    (c : LsMessageCenter) : Prop where
  count : c.current_lsa_id = 2 * issued + 1
  even : c.current_other_id % 2 = 0
  lsa : ∀ id msg,
    c.lsa_messages.find id = some msg →
      MessageOk ids log c.current_lsa_id id msg
  other : ∀ id msg,
    c.other_messages.find id = some msg →
      msg.messageId = id ∧ msg.type ≠ .LS_MSG_LSA ∧
        msg.type ≠ .LS_MSG_TPM
  logged : ∀ a ∈ log, a.sequenceNumber < c.current_lsa_id

/- The database of a node, but for its own links. -/
structure NodeOk
    (ids : Int → List Int)
    (log : List LsAdvertisement)
    (n : Int)
    (node : LsRouting) : Prop where
  myNodeId : node.myNodeId = n
  own : ∃ links,
    node.linkStateDatabase.find n = some links ∧
      LsDatabase.neighbors links = ids n
  entries : ∀ o links,
    o ≠ n → node.linkStateDatabase.find o = some links →
      ∃ seq, Listed ids log o seq links

def HistoryOk
    (ids : Int → List Int)
    (log : List LsAdvertisement)
    (n : Int)
    (node : LsRouting) : Prop :=
  ∀ o seq,
    node.lsaHistory.find o = some seq →
      o ≠ n ∧ ∃ links seq',
        node.linkStateDatabase.find o = some links ∧
          Listed ids log o seq' links ∧ seq ≤ seq'

/- The node's own links are as it advertised them. -/
def OwnListed
    (ids : Int → List Int)
    (log : List LsAdvertisement)
    (n : Int)
    (node : LsRouting) : Prop :=
  ∃ links seq,
    node.linkStateDatabase.find n = some links ∧
      Listed ids log n seq links

/- A node with peers advertises before it sends its map. -/
def MapsOk
    (ids : Int → List Int)
    (log : List LsAdvertisement)
    (c : LsMessageCenter)
    (n : Int)
    (node : LsRouting) : Prop :=
  ∀ id msg,
    c.lsa_messages.find id = some msg →
      msg.content = .topo n → node.peerIdList ≠ [] →
        OwnListed ids log n node

/- An id that does not belong to the map of another node. -/
structure Owned
    (c : LsMessageCenter)
    (n : Int)
    (id : Nat) : Prop where
  known : id % 2 = 1 → id < c.current_lsa_id
  map : ∀ msg x,
    c.lsa_messages.find id = some msg →
      msg.content = .topo x → x = n

end LsNetwork

namespace LsContext

open LsNetwork

/- All but what maps of the node itself need. -/
structure Almost
    (ids : Int → List Int)
    (n : Int)
    (s : LsContext) : Prop where
  center : CenterOk ids s.log s.issued s.center
  node : NodeOk ids s.log n s.node
  history : HistoryOk ids s.log n s.node
  holds : s.Holds (Owned s.center n)

structure Full
    (ids : Int → List Int)
    (n : Int)
    (s : LsContext) : Prop extends Almost ids n s where
  maps : MapsOk ids s.log s.center n s.node

def Below (s : LsContext) : Prop :=
  2 * s.issued + 1 ≤ LS_WRAPAROUND_THRESHOLD

/- New maps are those of the node, under new ids. -/
structure Grows
    (n : Int)
    (s s' : LsContext) : Prop where
  peers : s'.node.peerIdList = s.node.peerIdList
  log : ∀ a ∈ s.log, a ∈ s'.log
  ids : s.center.current_lsa_id ≤ s'.center.current_lsa_id
  maps : ∀ id msg x,
    s'.center.lsa_messages.find id = some msg →
      msg.content = .topo x →
        s.center.lsa_messages.find id = some msg ∨
          (x = n ∧ s.center.current_lsa_id ≤ id)

/- A step that keeps the invariant while ids stay small. -/
structure Safe
    (ids : Int → List Int)
    (n : Int)
    (s s' : LsContext) : Prop where
  issued : s.issued ≤ s'.issued
  full : s.Full ids n → s'.Below →
    s'.Full ids n ∧ Grows n s s'

end LsContext

end Ns2

------------------------------------------------------------
-- Steps
------------------------------------------------------------

namespace Ns2

namespace LsContext

open LsNetwork

variable {ids : Int → List Int}
variable {n : Int}
variable {s s' s'' : LsContext}

theorem Grows.refl : Grows n s s := by
  exact ⟨rfl, fun a ha => ha, le_rfl,
    fun id msg x hFind _ => Or.inl hFind⟩

theorem Grows.trans
    (hFirst : Grows n s s')
    (hNext : Grows n s' s'') :
    Grows n s s'' := by
  constructor
  case peers => exact hNext.peers.trans hFirst.peers
  case log => exact fun a ha => hNext.log a (hFirst.log a ha)
  case ids => exact hFirst.ids.trans hNext.ids
  case maps =>
    intro id msg x hFind hContent
    rcases hNext.maps id msg x hFind hContent with
      hOld | ⟨hNew, hId⟩
    · exact hFirst.maps id msg x hOld hContent
    · exact Or.inr ⟨hNew, hFirst.ids.trans hId⟩

theorem Below.mono
    (hBelow : s'.Below)
    (hIssued : s.issued ≤ s'.issued) :
    s.Below := by
  unfold Below at hBelow ⊢
  omega

theorem Safe.refl : Safe ids n s s := by
  exact ⟨le_rfl, fun hFull _ => ⟨hFull, .refl⟩⟩

theorem Safe.trans
    (hFirst : Safe ids n s s')
    (hNext : Safe ids n s' s'') :
    Safe ids n s s'' := by
  constructor
  case issued => exact hFirst.issued.trans hNext.issued
  case full =>
    intro hFull hBelow
    rcases hFirst.full hFull (hBelow.mono hNext.issued) with
      ⟨hFull', hGrows⟩
    rcases hNext.full hFull' hBelow with ⟨hFull'', hGrows'⟩
    exact ⟨hFull'', hGrows.trans hGrows'⟩

/- An id that the node may hold stays one. -/
theorem owned_grow
    {m : Int}
    {id : Nat}
    (hOwned : Owned s.center m id)
    (hGrows : Grows n s s')
    (hCenter : CenterOk ids s'.log s'.issued s'.center) :
    Owned s'.center m id := by
  constructor
  case known =>
    exact fun hOdd => (hOwned.known hOdd).trans_le hGrows.ids
  case map =>
    intro msg x hFind hContent
    rcases hGrows.maps id msg x hFind hContent with
      hOld | ⟨-, hNew⟩
    · exact hOwned.map msg x hOld hContent
    · have hOdd := (hCenter.lsa id msg hFind).odd
      exact absurd (hOwned.known hOdd) (not_lt.mpr hNew)

/- Moving ids about is safe. -/
theorem Local.almost
    (hLocal : Local (Owned s.center n) s s')
    (hAlmost : s.Almost ids n) :
    s'.Almost ids n := by
  constructor
  case center =>
    rw [hLocal.log, hLocal.issued, hLocal.center]
    exact hAlmost.center
  case node =>
    constructor
    case myNodeId =>
      exact hLocal.myNodeId.trans hAlmost.node.myNodeId
    case own =>
      rw [hLocal.database]
      exact hAlmost.node.own
    case entries =>
      rw [hLocal.database, hLocal.log]
      exact hAlmost.node.entries
  case history =>
    unfold HistoryOk
    rw [hLocal.database, hLocal.history, hLocal.log]
    exact hAlmost.history
  case holds =>
    rw [hLocal.center]
    exact hLocal.holds hAlmost.holds

theorem Local.grows
    {Q : Nat → Prop}
    (hLocal : Local Q s s') :
    Grows n s s' := by
  constructor
  case peers => exact hLocal.peers
  case log =>
    rw [hLocal.log]
    exact fun a ha => ha
  case ids =>
    rw [hLocal.center]
  case maps =>
    rw [hLocal.center]
    exact fun id msg x hFind _ => Or.inl hFind

theorem Local.ownListed
    {Q : Nat → Prop}
    (hLocal : Local Q s s')
    (hOwn : OwnListed ids s.log n s.node) :
    OwnListed ids s'.log n s'.node := by
  unfold OwnListed
  rw [hLocal.database, hLocal.log]
  exact hOwn

theorem Local.full
    (hLocal : Local (Owned s.center n) s s')
    (hFull : s.Full ids n) :
    s'.Full ids n := by
  refine ⟨hLocal.almost hFull.toAlmost, ?_⟩
  intro id msg hFind hContent hPeers
  rw [hLocal.center] at hFind
  rw [hLocal.peers] at hPeers
  exact hLocal.ownListed
    (hFull.maps id msg hFind hContent hPeers)

theorem Local.safe
    (hLocal : Local (Owned s.center n) s s') :
    Safe ids n s s' := by
  exact ⟨hLocal.issued.ge,
    fun hFull _ => ⟨hLocal.full hFull, hLocal.grows⟩⟩

end LsContext

end Ns2

------------------------------------------------------------
-- New messages
------------------------------------------------------------

namespace Ns2

namespace LsNetwork

variable {ids : Int → List Int}
variable {log log' : List LsAdvertisement}
variable {issued : Nat}
variable {c c' : LsMessageCenter}
variable {nodeId : Int}
variable {type : LsMessageType}
variable {fresh msg : LsMessage}

theorem CenterOk.parity
    (hOk : CenterOk ids log issued c) :
    c.Parity := by
  constructor
  case lsa =>
    rw [hOk.count]
    omega
  case other => exact hOk.even

theorem MessageOk.mono
    {bound bound' id : Nat}
    (hOk : MessageOk ids log bound id msg)
    (hLog : ∀ a ∈ log, a ∈ log')
    (hBound : bound ≤ bound') :
    MessageOk ids log' bound' id msg := by
  constructor
  case messageId => exact hOk.messageId
  case odd => exact hOk.odd
  case below => exact hOk.below.trans_le hBound
  case kind =>
    rcases hOk.kind with ⟨hType, hContent⟩ | hTpm
    · rcases hContent with hNull | ⟨links, hLsl, hListed⟩
      · exact Or.inl ⟨hType, Or.inl hNull⟩
      · exact Or.inl ⟨hType,
          Or.inr ⟨links, hLsl, hListed.mono hLog⟩⟩
    · exact Or.inr hTpm

/- Far from the wrap-around the next odd id is the next one. -/
theorem CenterOk.nextId
    (hOk : CenterOk ids log issued c)
    (hBelow :
      2 * (issued + 1) + 1 ≤ LS_WRAPAROUND_THRESHOLD) :
    LsMessageCenter.nextId c.current_lsa_id =
      2 * (issued + 1) + 1 := by
  unfold LS_WRAPAROUND_THRESHOLD at hBelow
  unfold LsMessageCenter.nextId addU32 LS_INVALID_MESSAGE_ID
  rw [hOk.count, Nat.mod_eq_of_lt (by omega)]
  dsimp only
  rw [if_neg (by omega)]
  omega

/- The messages after a new one with an odd id. -/
theorem CenterOk.find_made
    (hOk : CenterOk ids log issued c)
    (hType : type = .LS_MSG_LSA ∨ type = .LS_MSG_TPM)
    (hNew : c.newMessage nodeId type = some (c', fresh))
    (hId : msg.messageId = c.current_lsa_id)
    {id : Nat}
    {found : LsMessage}
    (hFind : (c'.fill msg).lsa_messages.find id = some found) :
    (id = c.current_lsa_id ∧ found = msg) ∨
      c.lsa_messages.find id = some found := by
  rcases LsMessageCenter.newMessage_lsa hType hNew with
    ⟨rfl, -, -, -, max_size, hStore⟩
  rw [LsMessageCenter.fill_odd (hId ▸ hOk.parity.lsa)] at hFind
  exact LsMessageCenter.find_stored hStore hId hFind

theorem CenterOk.make
    (hOk : CenterOk ids log issued c)
    (hBelow :
      2 * (issued + 1) + 1 ≤ LS_WRAPAROUND_THRESHOLD)
    (hType : type = .LS_MSG_LSA ∨ type = .LS_MSG_TPM)
    (hNew : c.newMessage nodeId type = some (c', fresh))
    (hLog : ∀ a ∈ log, a ∈ log')
    (hLogged : ∀ a ∈ log', a ∈ log ∨
      a.sequenceNumber = c.current_lsa_id)
    (hMsg : MessageOk ids log' (2 * (issued + 1) + 1)
      c.current_lsa_id msg) :
    CenterOk ids log' (issued + 1) (c'.fill msg) := by
  have hFound := fun id found =>
    @CenterOk.find_made ids log issued c c' nodeId type fresh
      msg hOk hType hNew hMsg.messageId id found
  rcases LsMessageCenter.newMessage_lsa hType hNew with
    ⟨hFresh, hNext, hOther, hOtherMessages, -⟩
  have hCount : c'.current_lsa_id = 2 * (issued + 1) + 1 :=
    hNext.trans (hOk.nextId hBelow)
  have hLess : c.current_lsa_id ≤ 2 * (issued + 1) + 1 := by
    rw [hOk.count]
    omega
  constructor
  case count => exact (LsMessageCenter.fill_lsa_id).trans hCount
  case even =>
    rw [LsMessageCenter.fill_other_id, hOther]
    exact hOk.even
  case lsa =>
    intro id found hFind
    rw [LsMessageCenter.fill_lsa_id, hCount]
    rcases hFound id found hFind with ⟨rfl, rfl⟩ | hOld
    · exact hMsg
    · exact (hOk.lsa id found hOld).mono hLog hLess
  case other =>
    rw [LsMessageCenter.fill_odd
      (hMsg.messageId ▸ hOk.parity.lsa)]
    dsimp only
    rw [hOtherMessages]
    exact hOk.other
  case logged =>
    intro a ha
    rw [LsMessageCenter.fill_lsa_id, hCount]
    rcases hLogged a ha with hOld | hSeq
    · exact (hOk.logged a hOld).trans_le hLess
    · rw [hSeq, hOk.count]
      omega

/- Acknowledgements do not touch what has odd ids. -/
theorem CenterOk.makeAck
    (hOk : CenterOk ids log issued c)
    (hType : ¬ (type = .LS_MSG_LSA ∨ type = .LS_MSG_TPM))
    (hNew : c.newMessage nodeId type = some (c', fresh))
    (hId : msg.messageId = c.current_other_id)
    (hKind : msg.type = type) :
    CenterOk ids log issued (c'.fill msg) ∧
      (c'.fill msg).lsa_messages = c.lsa_messages ∧
      (c'.fill msg).current_lsa_id = c.current_lsa_id := by
  rcases LsMessageCenter.newMessage_other hType hNew with
    ⟨rfl, hNext, hLsa, hLsaMessages, max_size, hStore⟩
  have hEven : msg.messageId % 2 = 0 := hId ▸ hOk.even
  rw [LsMessageCenter.fill_even hEven]
  refine ⟨?_, hLsaMessages, hLsa⟩
  constructor
  case count => exact hLsa.trans hOk.count
  case even =>
    dsimp only
    rw [hNext, LsMessageCenter.nextId_mod_two]
    exact hOk.even
  case lsa =>
    dsimp only
    rw [hLsaMessages, hLsa]
    exact hOk.lsa
  case other =>
    intro id found hFind
    rcases LsMessageCenter.find_stored hStore hId hFind with
      ⟨hSame, rfl⟩ | hOld
    · refine ⟨hId.trans hSame.symm, ?_, ?_⟩
      · rw [hKind]
        exact fun hEq => hType (Or.inl hEq)
      · rw [hKind]
        exact fun hEq => hType (Or.inr hEq)
    · exact hOk.other id found hOld
  case logged =>
    dsimp only
    rw [hLsa]
    exact hOk.logged

end LsNetwork

end Ns2

------------------------------------------------------------
-- Sending
------------------------------------------------------------

namespace Ns2

namespace LsContext

open LsNetwork

variable {ids : Int → List Int}
variable {n : Int}
variable {s s' : LsContext}
variable {msg : LsMessage}

/- The invalid id belongs to no map. -/
theorem Almost.owned_even
    (hAlmost : s.Almost ids n)
    {m : Int}
    {id : Nat}
    (hEven : id % 2 = 0) :
    Owned s.center m id := by
  constructor
  case known =>
    intro hOdd
    omega
  case map =>
    intro msg x hFind _
    have hOdd := (hAlmost.center.lsa id msg hFind).odd
    omega

/- An advertisement belongs to no map either. -/
theorem Almost.owned_lsa
    (hAlmost : s.Almost ids n)
    {m : Int}
    {id : Nat}
    (hFind : s.center.lsa_messages.find id = some msg)
    (hType : msg.type = .LS_MSG_LSA) :
    Owned s.center m id := by
  have hOk := hAlmost.center.lsa id msg hFind
  constructor
  case known => exact fun _ => hOk.below
  case map =>
    intro msg' x hFind' hContent
    rw [hFind] at hFind'
    cases hFind'
    rcases hOk.kind with ⟨-, hNull | ⟨links, hLsl, -⟩⟩ | ⟨hTpm, -⟩
    · rw [hNull] at hContent
      cases hContent
    · rw [hLsl] at hContent
      cases hContent
    · rw [hType] at hTpm
      cases hTpm

theorem safe_sendAck
    {nbrId origin : Int}
    {type : LsMessageType}
    {seq : Nat}
    (hType : ¬ (type = .LS_MSG_LSA ∨ type = .LS_MSG_TPM))
    (hAck : s.sendAck nbrId type origin seq = some s') :
    Safe ids n s s' := by
  refine ⟨(sendAck_frame hAck).2.2, ?_⟩
  intro hFull _
  rcases sendAck_eq hType hFull.center.parity hAck with
    ⟨c, hNew, rfl⟩
  generalize hAckMsg : LsMessage.mk type
    s.center.current_other_id seq origin .null = ack
  have hId : ack.messageId = s.center.current_other_id := by
    rw [← hAckMsg]
  have hKind : ack.type = type := by
    rw [← hAckMsg]
  rcases hFull.center.makeAck hType hNew hId hKind with
    ⟨hCenter, hLsa, hCurrent⟩
  generalize c.fill ack = c₁ at hCenter hLsa hCurrent ⊢
  have hOwned : ∀ id, Owned s.center n id → Owned c₁ n id := by
    intro id hId
    constructor
    case known =>
      rw [hCurrent]
      exact hId.known
    case map =>
      rw [hLsa]
      exact hId.map
  have hStored : Full ids n { s with center := c₁ } := by
    constructor
    case toAlmost =>
      have hHolds := hFull.holds.mono hOwned
      exact ⟨hCenter, hFull.node, hFull.history,
        ⟨hHolds.buffer, hHolds.manager, hHolds.sent⟩⟩
    case maps =>
      intro id msg hFind
      exact hFull.maps id msg (hLsa ▸ hFind)
  have hGrows : Grows n s { s with center := c₁ } := by
    refine ⟨rfl, fun a ha => ha, hCurrent.ge, ?_⟩
    intro id msg x hFind _
    exact Or.inl (hLsa ▸ hFind)
  have hSend :
      Local (Owned c₁ n) { s with center := c₁ }
        (sendMessage { s with center := c₁ } nbrId
          s.center.current_other_id) :=
    local_sendMessage
      (hOwned _ (hFull.owned_even hFull.center.even))
  exact ⟨hSend.full hStored, hGrows.trans hSend.grows⟩

/-
  A new advertisement or map, made by a step that leaves the
  ids of the node where they are.
-/
theorem Almost.make
    (hAlmost : s.Almost ids n)
    {c : LsMessageCenter}
    {nodeId : Int}
    {type : LsMessageType}
    {fresh : LsMessage}
    (hType : type = .LS_MSG_LSA ∨ type = .LS_MSG_TPM)
    (hNew : s.center.newMessage nodeId type = some (c, fresh))
    (hCenter : s'.center = c.fill msg)
    (hIssued : s'.issued = s.issued + 1)
    (hBelow : s'.Below)
    (hLog : ∀ a ∈ s.log, a ∈ s'.log)
    (hLogged : ∀ a ∈ s'.log, a ∈ s.log ∨
      a.sequenceNumber = s.center.current_lsa_id)
    (hMsg : MessageOk ids s'.log (2 * (s.issued + 1) + 1)
      s.center.current_lsa_id msg)
    (hMap : ∀ x, msg.content = .topo x → x = n)
    (hPeers : s'.node.peerIdList = s.node.peerIdList)
    (hNode : NodeOk ids s'.log n s'.node)
    (hHistory : HistoryOk ids s'.log n s'.node)
    (hHolds : ∀ Q, s.Holds Q → s'.Holds Q) :
    s'.Almost ids n ∧ Grows n s s' ∧
      Owned s'.center n s.center.current_lsa_id ∧
      ∀ id found,
        s'.center.lsa_messages.find id = some found →
          (id = s.center.current_lsa_id ∧ found = msg) ∨
            s.center.lsa_messages.find id = some found := by
  have hBelow' :
      2 * (s.issued + 1) + 1 ≤ LS_WRAPAROUND_THRESHOLD := by
    unfold Below at hBelow
    omega
  have hOk : CenterOk ids s'.log s'.issued s'.center := by
    rw [hCenter, hIssued]
    exact hAlmost.center.make hBelow' hType hNew hLog hLogged
      hMsg
  have hFound : ∀ id found,
      s'.center.lsa_messages.find id = some found →
        (id = s.center.current_lsa_id ∧ found = msg) ∨
          s.center.lsa_messages.find id = some found := by
    intro id found hFind
    rw [hCenter] at hFind
    exact hAlmost.center.find_made hType hNew hMsg.messageId
      hFind
  have hGrows : Grows n s s' := by
    refine ⟨hPeers, hLog, ?_, ?_⟩
    · rw [hAlmost.center.count, hOk.count, hIssued]
      omega
    · intro id found x hFind hContent
      rcases hFound id found hFind with ⟨rfl, rfl⟩ | hOld
      · exact Or.inr ⟨hMap x hContent, le_rfl⟩
      · exact Or.inl hOld
  refine ⟨?_, hGrows, ?_, hFound⟩
  · constructor
    case center => exact hOk
    case node => exact hNode
    case history => exact hHistory
    case holds =>
      exact hHolds _ (hAlmost.holds.mono
        fun id hId => owned_grow hId hGrows hOk)
  · constructor
    case known =>
      intro _
      rw [hAlmost.center.count, hOk.count, hIssued]
      omega
    case map =>
      intro found x hFind hContent
      rcases hFound _ found hFind with ⟨-, rfl⟩ | hOld
      · exact hMap x hContent
      · have hLess := (hAlmost.center.lsa _ found hOld).below
        exact absurd hLess (lt_irrefl _)

/- An advertisement that is made again has no links. -/
theorem safe_regenAndSend
    {exception origin : Int}
    {links : List LsLink}
    (hRegen :
      s.regenAndSend exception origin links = some s') :
    Safe ids n s s' := by
  cases links with
  | nil => cases hRegen
  | cons link rest =>
      rcases Option.bind_eq_some_iff.mp hRegen with
        ⟨⟨s₁, fresh⟩, hNew, hRun⟩
      rcases newMessage_eq hNew with ⟨c, hCenter, rfl⟩
      rcases LsMessageCenter.newMessage_lsa (Or.inl rfl) hCenter
        with ⟨rfl, -⟩
      dsimp only at hRun
      generalize hStart :
        (fill _ _ : LsContext) = start at hRun
      have hLoop : ∀ Q : Nat → Prop,
          Q s.center.current_lsa_id → Local Q start s' := by
        intro Q hId
        apply Local.run _ hRun
        intro s₂ peerId s₃ _ _ hTo
        exact local_regenTo hId hTo
      have hIssuedLe : s.issued ≤ start.issued := by
        rw [← hStart]
        exact le_countOdd s.issued
      have hSame := (hLoop (fun _ => True) trivial).issued
      refine ⟨hSame ▸ hIssuedLe, ?_⟩
      intro hFull hBelow
      have hOdd := hFull.center.parity.lsa
      have hMsg : MessageOk ids s.log (2 * (s.issued + 1) + 1)
          s.center.current_lsa_id
          { LsMessage.new s.center.current_lsa_id origin
              .LS_MSG_LSA with
            sequenceNumber := link.sequenceNumber
            originNodeId := origin } := by
        constructor
        case messageId => rfl
        case odd => exact hOdd
        case below =>
          rw [hFull.center.count]
          omega
        case kind => exact Or.inl ⟨rfl, Or.inl rfl⟩
      have hMade := by
        exact @Almost.make ids n s start _ hFull.toAlmost c origin
          .LS_MSG_LSA _ (Or.inl rfl) hCenter
          (by rw [← hStart]; rfl)
          (by rw [← hStart]; exact countOdd_of_odd hOdd)
          (hBelow.mono hSame.ge)
          (by rw [← hStart]; exact fun a ha => ha)
          (by rw [← hStart]; exact fun a ha => Or.inl ha)
          (by rw [← hStart]; exact hMsg)
          (fun x hNull => LsContent.noConfusion hNull)
          (by rw [← hStart]; rfl)
          (by rw [← hStart]; exact hFull.node)
          (by rw [← hStart]; exact hFull.history)
          (fun Q hHolds => by
            rw [← hStart]
            exact ⟨hHolds.buffer, hHolds.manager, hHolds.sent⟩)
      rcases hMade with ⟨hAlmost, hGrows, hOwned, hFound⟩
      have hStartFull : start.Full ids n := by
        refine ⟨hAlmost, ?_⟩
        intro id found hFind hContent hPeers
        rcases hFound id found hFind with ⟨-, rfl⟩ | hOld
        · cases hContent
        · subst hStart
          exact hFull.maps id found hOld hContent hPeers
      exact ⟨(hLoop _ hOwned).full hStartFull,
        hGrows.trans (hLoop _ hOwned).grows⟩

/- What sending a map does not touch. -/
theorem sendTopo_frame
    {neighborId : Int}
    (hTopo : s.sendTopo neighborId = some s') :
    s'.node.linkStateDatabase = s.node.linkStateDatabase ∧
      s'.node.peerIdList = s.node.peerIdList ∧
      s'.log = s.log ∧ s.issued ≤ s'.issued := by
  rcases Option.map_eq_some_iff.mp hTopo with
    ⟨⟨s₁, fresh⟩, hNew, rfl⟩
  rcases newMessage_eq hNew with ⟨c, -, rfl⟩
  exact ⟨rfl, rfl, rfl, le_countOdd s.issued⟩

/- A map goes out when the node has advertised its links. -/
theorem safe_sendTopo
    {neighborId : Int}
    (hOwn : s.node.peerIdList ≠ [] →
      OwnListed ids s.log n s.node)
    (hTopo : s.sendTopo neighborId = some s') :
    Safe ids n s s' := by
  refine ⟨(sendTopo_frame hTopo).2.2.2, ?_⟩
  intro hFull hBelow
  rcases Option.map_eq_some_iff.mp hTopo with
    ⟨⟨s₁, fresh⟩, hNew, rfl⟩
  rcases newMessage_eq hNew with ⟨c, hCenter, rfl⟩
  rcases LsMessageCenter.newMessage_lsa (Or.inr rfl) hCenter
    with ⟨rfl, -⟩
  have hOdd := hFull.center.parity.lsa
  have hId := hFull.node.myNodeId
  have hMsg : MessageOk ids s.log (2 * (s.issued + 1) + 1)
      s.center.current_lsa_id
      { LsMessage.new s.center.current_lsa_id
          s.node.myNodeId .LS_MSG_TPM with
        content := .topo s.node.myNodeId } := by
    constructor
    case messageId => rfl
    case odd => exact hOdd
    case below =>
      rw [hFull.center.count]
      omega
    case kind => exact Or.inr ⟨rfl, rfl, _, rfl⟩
  dsimp only at hBelow ⊢
  generalize hStart : (fill _ _ : LsContext) = start at hBelow ⊢
  have hMade := by
    exact @Almost.make ids n s start _ hFull.toAlmost c
      s.node.myNodeId .LS_MSG_TPM _ (Or.inr rfl) hCenter
      (by rw [← hStart]; rfl)
      (by rw [← hStart]; exact countOdd_of_odd hOdd)
      (hBelow.mono le_rfl)
      (by rw [← hStart]; exact fun a ha => ha)
      (by rw [← hStart]; exact fun a ha => Or.inl ha)
      (by rw [← hStart]; exact hMsg)
      (fun x hTopo => (LsContent.topo.inj hTopo).symm.trans hId)
      (by rw [← hStart]; rfl)
      (by rw [← hStart]; exact hFull.node)
      (by rw [← hStart]; exact hFull.history)
      (fun Q hHolds => by
        rw [← hStart]
        exact ⟨hHolds.buffer, hHolds.manager, hHolds.sent⟩)
  rcases hMade with ⟨hAlmost, hGrows, hOwned, -⟩
  have hStartFull : start.Full ids n := by
    refine ⟨hAlmost, ?_⟩
    intro id found _ _ hPeers
    subst hStart
    exact hOwn hPeers
  have hSend :
      Local (Owned start.center n) start
        (start.bufferedSend neighborId
          s.center.current_lsa_id) :=
    local_bufferedSend hOwned
  exact ⟨hSend.full hStartFull, hGrows.trans hSend.grows⟩

/-
  A node that advertises its links has them listed; one that
  does not has no peers or no links.
-/
theorem almost_sendLinkStates
    {buffer : Bool}
    {clock : Rat}
    (hSend : s.sendLinkStates buffer clock = some s') :
    s.issued ≤ s'.issued ∧
      s'.node.linkStateList = s.node.linkStateList ∧
      (s.Almost ids n → s'.Below →
        s'.Almost ids n ∧ Grows n s s' ∧
          ((s' = s ∧ (s.node.peerIdList = [] ∨ ids n = [])) ∨
            OwnListed ids s'.log n s'.node)) := by
  unfold sendLinkStates at hSend
  split_ifs at hSend with hPeers
  · cases hSend
    exact ⟨le_rfl, rfl, fun hAlmost _ =>
      ⟨hAlmost, .refl, Or.inl ⟨rfl, Or.inl hPeers⟩⟩⟩
  split at hSend
  case h_1 hOwn =>
    cases hSend
    refine ⟨le_rfl, rfl, ?_⟩
    intro hAlmost _
    rcases hAlmost.node.own with ⟨links, hLinks, -⟩
    rw [hAlmost.node.myNodeId, hLinks] at hOwn
    cases hOwn
  case h_2 hOwn =>
    cases hSend
    refine ⟨le_rfl, rfl, ?_⟩
    intro hAlmost _
    rcases hAlmost.node.own with ⟨links, hLinks, hIds⟩
    rw [hAlmost.node.myNodeId, hLinks] at hOwn
    cases hOwn
    exact ⟨hAlmost, .refl, Or.inl ⟨rfl, Or.inr hIds.symm⟩⟩
  case h_3 link rest hOwn =>
    rcases Option.bind_eq_some_iff.mp hSend with
      ⟨⟨s₁, fresh⟩, hNew, hRun⟩
    rcases newMessage_eq hNew with ⟨c, hCenter, rfl⟩
    rcases LsMessageCenter.newMessage_lsa (Or.inl rfl) hCenter
      with ⟨rfl, -⟩
    dsimp only at hRun
    generalize hLinks :
      ((link :: rest).map fun l =>
        { l with
          sequenceNumber := (LsMessage.new
            s.center.current_lsa_id s.node.myNodeId
            .LS_MSG_LSA).sequenceNumber }) = links at hRun
    generalize hStart :
      (fill _ _ : LsContext) = start at hRun
    have hLoop : ∀ Q : Nat → Prop,
        Q LS_INVALID_MESSAGE_ID →
          Q s.center.current_lsa_id → Local Q start s' := by
      intro Q hInvalid hId
      apply Local.run _ hRun
      intro s₂ peerId s₃ _ _ hTo
      exact local_sendLinkStatesTo hInvalid rfl hId hTo
    have hFrame := hLoop (fun _ => True) trivial trivial
    have hIssuedLe : s.issued ≤ start.issued := by
      rw [← hStart]
      exact le_countOdd s.issued
    have hStartLinks :
        start.node.linkStateList = s.node.linkStateList := by
      rw [← hStart]
      rfl
    refine ⟨hFrame.issued ▸ hIssuedLe,
      hFrame.links.trans hStartLinks, ?_⟩
    intro hAlmost hBelow
    have hOdd := hAlmost.center.parity.lsa
    have hId := hAlmost.node.myNodeId
    have hOwn' :
        start.node.linkStateDatabase.find n = some links := by
      rw [← hStart, ← hId]
      show (s.node.linkStateDatabase.modify _ _).find _ = _
      rw [SortedMap.find_modify_self, hOwn]
      rfl
    have hLog : start.log = s.log ++
        [⟨n, s.center.current_lsa_id,
          links.map LsLink.toLsLinkState⟩] := by
      rw [← hStart, ← hId]
      rfl
    have hGrowLog : ∀ a ∈ s.log, a ∈ start.log := by
      rw [hLog]
      exact fun a ha => List.mem_append_left _ ha
    have hListed : Listed ids start.log n
        s.center.current_lsa_id links := by
      constructor
      case nonempty =>
        rw [← hLinks]
        exact List.cons_ne_nil _ _
      case numbered =>
        intro l hl
        rw [← hLinks] at hl
        rcases List.mem_map.mp hl with ⟨l', -, rfl⟩
        rfl
      case neighbors =>
        rcases hAlmost.node.own with ⟨own, hFind, hIds⟩
        rw [hId, hFind] at hOwn
        cases hOwn
        rw [← hLinks, ← hIds]
        exact List.map_map
      case logged =>
        rw [hLog]
        exact List.mem_append_right _
          (List.mem_singleton.mpr rfl)
    have hOthers : ∀ o, o ≠ n →
        start.node.linkStateDatabase.find o =
          s.node.linkStateDatabase.find o := by
      intro o ho
      rw [← hStart]
      exact SortedMap.find_modify_ne _ (hId.symm ▸ ho)
    have hNode : NodeOk ids start.log n start.node := by
      constructor
      case myNodeId =>
        rw [← hStart]
        exact hId
      case own => exact ⟨links, hOwn', hListed.neighbors⟩
      case entries =>
        intro o links' ho hFind
        rw [hOthers o ho] at hFind
        rcases hAlmost.node.entries o links' ho hFind with
          ⟨seq, hOther⟩
        exact ⟨seq, hOther.mono hGrowLog⟩
    have hHistory : HistoryOk ids start.log n start.node := by
      intro o seq hSeen
      have hSeen' : s.node.lsaHistory.find o = some seq := by
        rw [← hStart] at hSeen
        exact hSeen
      rcases hAlmost.history o seq hSeen' with
        ⟨ho, links', seq', hFind, hOther, hLe⟩
      exact ⟨ho, links', seq', (hOthers o ho).trans hFind,
        hOther.mono hGrowLog, hLe⟩
    have hMsg : MessageOk ids start.log
        (2 * (s.issued + 1) + 1) s.center.current_lsa_id
        { LsMessage.new s.center.current_lsa_id
            s.node.myNodeId .LS_MSG_LSA with
          content := .lsl links } := by
      constructor
      case messageId => rfl
      case odd => exact hOdd
      case below =>
        rw [hAlmost.center.count]
        omega
      case kind =>
        exact Or.inl ⟨rfl, Or.inr ⟨links, rfl,
          hId.symm ▸ hListed⟩⟩
    have hMade := by
      exact @Almost.make ids n s start _ hAlmost c
        s.node.myNodeId .LS_MSG_LSA _ (Or.inl rfl) hCenter
        (by rw [← hStart]; rfl)
        (by rw [← hStart]; exact countOdd_of_odd hOdd)
        (hBelow.mono hFrame.issued.ge)
        hGrowLog
        (by
          intro a ha
          rw [hLog] at ha
          rcases List.mem_append.mp ha with hOld | hNewest
          · exact Or.inl hOld
          · rw [List.mem_singleton.mp hNewest]
            exact Or.inr rfl)
        hMsg
        (fun x hLsl => LsContent.noConfusion hLsl)
        (by rw [← hStart]; rfl)
        hNode hHistory
        (fun Q hHolds => by
          rw [← hStart]
          exact ⟨hHolds.buffer, hHolds.manager, hHolds.sent⟩)
    rcases hMade with ⟨hStartAlmost, hGrows, hOwned, -⟩
    have hInvalid :=
      @Almost.owned_even ids n start hStartAlmost n
        LS_INVALID_MESSAGE_ID rfl
    have hLocal := hLoop _ hInvalid hOwned
    exact ⟨hLocal.almost hStartAlmost,
      hGrows.trans hLocal.grows,
      Or.inr (hLocal.ownListed ⟨links, _, hOwn', hListed⟩)⟩

end LsContext

end Ns2

------------------------------------------------------------
-- Changes of links
------------------------------------------------------------

namespace Ns2

namespace LsContext

open LsNetwork

variable {ids : Int → List Int}
variable {n : Int}
variable {s s' : LsContext}
variable {new old : List LsLink}

/- One round of the loop over the new and the old links. -/
theorem compareLinks_cons
    {l : LsLink}
    (hCompare : compareLinks (l :: new) old s = some s') :
    ∃ l' old' s₁ s₂,
      old = l' :: old' ∧ l.neighborId = l'.neighborId ∧
        (s₁ = s ∨ s₁ = s.cancelTimer l.neighborId) ∧
        (s₂ = s₁ ∨
          (l.status ≠ l'.status ∧
            s₁.sendTopo l.neighborId = some s₂)) ∧
        compareLinks new old' s₂ = some s' := by
  cases old with
  | nil => cases hCompare
  | cons l' old' =>
      unfold compareLinks at hCompare
      split_ifs at hCompare with hDiffer hDown hSkip hSkip
      · have hId := not_not.mp hDiffer
        exact ⟨l', old', _, _, rfl, hId, Or.inr rfl, Or.inl rfl,
          hCompare⟩
      · exact absurd (Or.inl hDown) hSkip
      · have hId := not_not.mp hDiffer
        exact ⟨l', old', _, _, rfl, hId, Or.inl rfl, Or.inl rfl,
          hCompare⟩
      · have hId := not_not.mp hDiffer
        rcases Option.bind_eq_some_iff.mp hCompare with
          ⟨s₂, hTopo, hNext⟩
        have hChange : l.status ≠ l'.status := by
          intro hSame
          cases hStatus : l.status with
          | LS_STATUS_DOWN => exact hDown hStatus
          | LS_STATUS_UP =>
              exact hSkip (Or.inr (hSame.symm.trans hStatus))
        exact ⟨l', old', _, _, rfl, hId, Or.inl rfl,
          Or.inr ⟨hChange, hTopo⟩, hNext⟩

/- The loop goes through only where the lists are aligned. -/
theorem compareLinks_aligned
    (hCompare : compareLinks new old s = some s') :
    (∀ l ∈ new, l.neighborId ∈ LsDatabase.neighbors old) ∧
      ∀ e ∈ new.zip old, e.1.neighborId = e.2.neighborId := by
  induction new generalizing old s with
  | nil =>
      exact ⟨fun l hl => absurd hl List.not_mem_nil,
        fun e he => absurd he List.not_mem_nil⟩
  | cons l new ih =>
      rcases compareLinks_cons hCompare with
        ⟨l', old', s₁, s₂, rfl, hId, -, -, hNext⟩
      rcases ih hNext with ⟨hKnown, hPairs⟩
      constructor
      · intro x hx
        rcases List.mem_cons.mp hx with rfl | hMem
        · rw [hId]
          exact List.mem_cons_self
        · exact List.mem_cons_of_mem _ (hKnown x hMem)
      · intro e he
        rcases List.mem_cons.mp he with rfl | hMem
        · exact hId
        · exact hPairs e hMem

theorem issued_compareLinks
    (hCompare : compareLinks new old s = some s') :
    s.issued ≤ s'.issued := by
  induction new generalizing old s with
  | nil =>
      cases hCompare
      exact le_rfl
  | cons l new ih =>
      rcases compareLinks_cons hCompare with
        ⟨l', old', s₁, s₂, -, -, hFirst, hSecond, hNext⟩
      have hIssued : s₁.issued = s.issued := by
        rcases hFirst with rfl | rfl
        · rfl
        · rfl
      rw [← hIssued]
      rcases hSecond with rfl | ⟨-, hTopo⟩
      · exact ih hNext
      · exact (sendTopo_frame hTopo).2.2.2.trans (ih hNext)

theorem safe_cancelTimer
    (nbrId : Int) :
    Safe ids n s (s.cancelTimer nbrId) := by
  refine ⟨le_rfl, ?_⟩
  intro hFull _
  have hLocal :
      Local (Owned s.center n) s (s.cancelTimer nbrId) :=
    local_cancelTimer (hFull.owned_even rfl) nbrId
  exact ⟨hLocal.full hFull, hLocal.grows⟩

/- Maps are sent by a node that has advertised its links. -/
theorem safe_compareLinks
    (hOwn :
      (s.node.peerIdList ≠ [] →
        OwnListed ids s.log n s.node) ∨
      ∀ e ∈ new.zip old, e.1.status = e.2.status)
    (hCompare : compareLinks new old s = some s') :
    Safe ids n s s' := by
  induction new generalizing old s with
  | nil =>
      cases hCompare
      exact .refl
  | cons l new ih =>
      rcases compareLinks_cons hCompare with
        ⟨l', old', s₁, s₂, rfl, -, hFirst, hSecond, hNext⟩
      have hSafe₁ : Safe ids n s s₁ := by
        rcases hFirst with rfl | rfl
        · exact .refl
        · exact safe_cancelTimer l.neighborId
      have hOwn₁ :
          (s₁.node.peerIdList ≠ [] →
            OwnListed ids s₁.log n s₁.node) ∨
          ∀ e ∈ (l :: new).zip (l' :: old'),
            e.1.status = e.2.status := by
        rcases hFirst with rfl | rfl
        · exact hOwn
        · exact hOwn
      have hRest : ∀ e ∈ new.zip old',
          e ∈ (l :: new).zip (l' :: old') :=
        fun e he => List.mem_cons_of_mem _ he
      rcases hSecond with rfl | ⟨hChange, hTopo⟩
      · apply hSafe₁.trans (ih _ hNext)
        exact hOwn₁.imp id fun hSame e he =>
          hSame e (hRest e he)
      · have hListed := hOwn₁.resolve_right fun hSame =>
          hChange (hSame _ List.mem_cons_self)
        apply (hSafe₁.trans (safe_sendTopo hListed hTopo)).trans
        apply ih _ hNext
        rcases sendTopo_frame hTopo with
          ⟨hDatabase, hPeers, hLog, -⟩
        left
        unfold OwnListed
        rw [hDatabase, hPeers, hLog]
        exact hListed

/- A change that is none leaves every status as it was. -/
theorem same_status_of_unchanged
    (hNodup : (LsDatabase.neighbors old).Nodup)
    (hFlag :
      (LsDatabase.updateLinks true old new).2 = false)
    (hPairs :
      ∀ e ∈ new.zip old, e.1.neighborId = e.2.neighborId) :
    ∀ e ∈ new.zip old, e.1.status = e.2.status := by
  intro e he
  rcases List.of_mem_zip he with ⟨hNew, hOld⟩
  rcases (LsDatabase.updateLinks_unchanged hFlag).2 e.1 hNew
    with ⟨l, hl, hId, hStatus⟩
  have hSame : l = e.2 :=
    List.inj_on_of_nodup_map hNodup hl hOld
      (hId.trans (hPairs e he))
  rw [← hSame]
  exact hStatus.symm

/- New links of the node, before it makes them known. -/
def relink
    (s : LsContext)
    (links own : List LsLink) : LsContext :=
  { s with
    node := { s.node with
      linkStateList := links
      linkStateDatabase :=
        s.node.linkStateDatabase.modify s.node.myNodeId
          fun _ => own } }

/- The steps of a change of links. -/
theorem intfChanged_cases
    {clock : Rat}
    {links : List LsLink}
    (hChanged : s.intfChanged clock links = some s') :
    ∃ old,
      s.node.linkStateDatabase.find s.node.myNodeId =
          some old ∧
        (((LsDatabase.updateLinks true old links).2 = false ∧
            compareLinks links old
              (s.relink links
                (LsDatabase.updateLinks true old links).1) =
                  some s') ∨
          ∃ s₁,
            (s.relink links
                (LsDatabase.updateLinks true old links).1
              ).sendLinkStates true clock = some s₁ ∧
            compareLinks s₁.node.linkStateList old s₁ =
              some s') := by
  unfold intfChanged linkStateChanged at hChanged
  rcases Option.bind_eq_some_iff.mp hChanged with
    ⟨old, hOld, hRest⟩
  dsimp only at hOld hRest
  refine ⟨old, hOld, ?_⟩
  have hUpdate :
      s.node.linkStateDatabase.update s.node.myNodeId
          s.node.myNodeId links =
        (s.node.linkStateDatabase.modify s.node.myNodeId
            fun _ => (LsDatabase.updateLinks true old links).1,
          (LsDatabase.updateLinks true old links).2) := by
    unfold LsDatabase.update
    rw [hOld, decide_eq_true rfl]
  rw [hUpdate] at hRest
  dsimp only at hRest
  split_ifs at hRest with hFlag
  · right
    rcases Option.bind_eq_some_iff.mp hRest with
      ⟨s₁, hSend, hCompare⟩
    exact ⟨s₁, hSend, hCompare⟩
  · left
    exact ⟨Bool.not_eq_true _ |>.mp hFlag, hRest⟩

theorem neighbors_own
    (hAlmost : s.Almost ids n)
    (hOld : s.node.linkStateDatabase.find s.node.myNodeId =
      some old) :
    LsDatabase.neighbors old = ids n := by
  rcases hAlmost.node.own with ⟨own, hFind, hIds⟩
  rw [hAlmost.node.myNodeId, hFind] at hOld
  cases hOld
  exact hIds

theorem almost_relink
    (hAlmost : s.Almost ids n)
    (hOld : s.node.linkStateDatabase.find s.node.myNodeId =
      some old)
    {links own : List LsLink}
    (hOwn : LsDatabase.neighbors own =
      LsDatabase.neighbors old) :
    (s.relink links own).Almost ids n := by
  have hId := hAlmost.node.myNodeId
  have hOthers : ∀ o, o ≠ n →
      (s.relink links own).node.linkStateDatabase.find o =
        s.node.linkStateDatabase.find o :=
    fun o ho => SortedMap.find_modify_ne _ (hId.symm ▸ ho)
  constructor
  case center => exact hAlmost.center
  case node =>
    constructor
    case myNodeId => exact hId
    case own =>
      rcases hAlmost.node.own with ⟨old', hFind, hIds⟩
      rw [hId, hFind] at hOld
      cases hOld
      refine ⟨own, ?_, hOwn.trans hIds⟩
      unfold relink
      dsimp only
      rw [hId, SortedMap.find_modify_self, hFind]
      rfl
    case entries =>
      intro o links' ho hFind
      exact hAlmost.node.entries o links' ho
        ((hOthers o ho).symm.trans hFind)
  case history =>
    intro o seq hSeen
    rcases hAlmost.history o seq hSeen with
      ⟨ho, links', seq', hFind, hRest⟩
    exact ⟨ho, links', seq', (hOthers o ho).trans hFind, hRest⟩
  case holds =>
    exact ⟨hAlmost.holds.buffer, hAlmost.holds.manager,
      hAlmost.holds.sent⟩

theorem safe_intfChanged
    {clock : Rat}
    {links : List LsLink}
    (hIds : (ids n).Nodup)
    (hChanged : s.intfChanged clock links = some s') :
    Safe ids n s s' := by
  rcases intfChanged_cases hChanged with
    ⟨old, hOld, ⟨hFlag, hCompare⟩ | ⟨s₁, hSend, hCompare⟩⟩
  · -- Nothing changed, and no map is sent.
    rcases LsDatabase.updateLinks_unchanged hFlag with ⟨hSame, -⟩
    rw [hSame] at hCompare
    have hIssued := issued_compareLinks hCompare
    refine ⟨hIssued, ?_⟩
    intro hFull hBelow
    rcases compareLinks_aligned hCompare with ⟨-, hPairs⟩
    have hOwnIds := neighbors_own hFull.toAlmost hOld
    have hStatus := same_status_of_unchanged
      (hOwnIds.symm ▸ hIds) hFlag hPairs
    have hRelinked : (s.relink links old).Full ids n := by
      refine ⟨almost_relink hFull.toAlmost hOld rfl, ?_⟩
      intro id msg hFind hContent hPeers
      rcases hFull.maps id msg hFind hContent hPeers with
        ⟨own, seq, hFind', hListed⟩
      rw [hFull.node.myNodeId, hFind'] at hOld
      cases hOld
      refine ⟨old, seq, ?_, hListed⟩
      unfold relink
      dsimp only
      rw [hFull.node.myNodeId, SortedMap.find_modify_self,
        hFind']
      rfl
    rcases (safe_compareLinks (Or.inr hStatus) hCompare).full
        hRelinked hBelow with
      ⟨hFull', hGrows⟩
    exact ⟨hFull', hGrows.peers, hGrows.log, hGrows.ids,
      hGrows.maps⟩
  · have hCompareIssued := issued_compareLinks hCompare
    rcases @almost_sendLinkStates ids n _ _ _ _ hSend with
      ⟨hSendIssued, hLinks, hSent⟩
    refine ⟨hSendIssued.trans hCompareIssued, ?_⟩
    intro hFull hBelow
    rw [hLinks] at hCompare
    rcases compareLinks_aligned hCompare with ⟨hKnown, -⟩
    have hOwn := @LsDatabase.neighbors_updateLinks true _ _
      hKnown
    dsimp only [relink] at hOwn
    generalize (LsDatabase.updateLinks true old links).1 = own
      at hSend hLinks hSent hOwn
    have hRelinked : (s.relink links own).Almost ids n :=
      almost_relink hFull.toAlmost hOld hOwn
    rcases hSent hRelinked (hBelow.mono hCompareIssued) with
      ⟨hAlmost, hGrows, hCases⟩
    have hGrows₁ : Grows n s s₁ :=
      ⟨hGrows.peers, hGrows.log, hGrows.ids, hGrows.maps⟩
    rcases hCases with ⟨rfl, hPeers | hNone⟩ | hListed
    · -- Without peers nothing is advertised.
      have hFull₁ : (s.relink links own).Full ids n :=
        ⟨hAlmost, fun id msg _ _ hSome => absurd hPeers hSome⟩
      rcases (safe_compareLinks
          (Or.inl fun hSome => absurd hPeers hSome)
          hCompare).full hFull₁ hBelow with
        ⟨hFull', hGrows'⟩
      exact ⟨hFull', hGrows₁.trans hGrows'⟩
    · -- Without links there is nothing to advertise.
      have hOldNil : old = [] :=
        List.map_eq_nil_iff.mp
          ((neighbors_own hFull.toAlmost hOld).trans hNone)
      have hFull₁ : (s.relink links own).Full ids n := by
        refine ⟨hAlmost, ?_⟩
        intro id msg hFind hContent hSome
        rcases hFull.maps id msg hFind hContent hSome with
          ⟨own, seq, -, hListed⟩
        have hNil := hListed.neighbors.trans hNone
        exact absurd (List.map_eq_nil_iff.mp hNil)
          hListed.nonempty
      have hStatus : ∀ e ∈ links.zip old,
          e.1.status = e.2.status := by
        intro e he
        rw [hOldNil, List.zip_nil_right] at he
        cases he
      rcases (safe_compareLinks (Or.inr hStatus)
          hCompare).full hFull₁ hBelow with
        ⟨hFull', hGrows'⟩
      exact ⟨hFull', hGrows₁.trans hGrows'⟩
    · have hFull₁ : s₁.Full ids n :=
        ⟨hAlmost, fun id msg _ _ _ => hListed⟩
      rcases (safe_compareLinks (Or.inl fun _ => hListed)
          hCompare).full hFull₁ hBelow with
        ⟨hFull', hGrows'⟩
      exact ⟨hFull', hGrows₁.trans hGrows'⟩

end LsContext

end Ns2
