import Ns2.Linkstate.Advertising
import Ns2.Linkstate.Network

/-
  Flooding keeps databases truthful.

  As long as no advertisement without links brings news to
  its receiver, what a node has in its history is backed by
  links in its database that the origin advertised no
  earlier.

  Main declarations:
    * `LsNetwork.Inv`

  Correctness is proven by:
    * `LsNetwork.Inv.step`
    * `LsNetwork.flooding_truthful`
-/

------------------------------------------------------------
-- Receiving an advertisement
------------------------------------------------------------

namespace Ns2

namespace LsContext

open LsNetwork

variable {ids : Int → List Int}
variable {n : Int}
variable {s s' : LsContext}
variable {msg : LsMessage}
variable {clock : Rat}
variable {senderId : Int}

theorem installContent_issued
    (hInstall : s.installContent msg = some s') :
    s'.issued = s.issued := by
  unfold installContent at hInstall
  split at hInstall
  · cases hInstall
    rfl
  · cases hInstall
  · cases hInstall
    rfl

/- The steps of receiving an advertisement. -/
theorem receiveLSA_cases
    (hType : msg.type = .LS_MSG_LSA)
    (hReceive : s.receiveLSA clock senderId msg = some s') :
    ∃ s₁,
      s.sendAck senderId .LS_MSG_LSAACK msg.originNodeId
          msg.messageId = some s₁ ∧
        s'.issued = s₁.issued ∧
        (s' = s₁ ∨
          (msg.originNodeId ≠ s₁.node.myNodeId ∧
            (s₁.node.lsaHistory.isNewMessage msg).1 = true ∧
            ∃ s₂,
              (∀ Q : Nat → Prop,
                Q LS_INVALID_MESSAGE_ID → Q msg.messageId →
                  Local Q { s₁ with
                    node := { s₁.node with
                      lsaHistory :=
                        (s₁.node.lsaHistory.isNewMessage
                          msg).2 } }
                    s₂) ∧
                s₂.installContent msg = some s')) := by
  rcases Option.bind_eq_some_iff.mp hReceive with
    ⟨s₁, hAck, hRest⟩
  refine ⟨s₁, hAck, ?_⟩
  dsimp only at hRest
  split_ifs at hRest with hOwn hOld
  · cases hRest
    exact ⟨rfl, Or.inl rfl⟩
  · cases hRest
    exact ⟨rfl, Or.inl rfl⟩
  · rcases Option.bind_eq_some_iff.mp hRest with
      ⟨s₂, hRun, hInstall⟩
    have hLoop : ∀ Q : Nat → Prop,
        Q LS_INVALID_MESSAGE_ID → Q msg.messageId →
          Local Q { s₁ with
            node := { s₁.node with
              lsaHistory :=
                (s₁.node.lsaHistory.isNewMessage msg).2 } }
            s₂ := by
      intro Q hInvalid hId
      apply Local.run _ hRun
      intro s₃ peerId s₄ _ _ hForward
      exact local_forwardTo hInvalid hType hId hForward
    have hIssued := (hLoop (fun _ => True) trivial trivial).issued
    exact ⟨(installContent_issued hInstall).trans hIssued,
      Or.inr ⟨hOwn, Bool.not_eq_false _ |>.mp hOld, s₂, hLoop,
        hInstall⟩⟩

theorem issued_receiveLSA
    (hType : msg.type = .LS_MSG_LSA)
    (hReceive : s.receiveLSA clock senderId msg = some s') :
    s.issued ≤ s'.issued := by
  rcases receiveLSA_cases hType hReceive with
    ⟨s₁, hAck, hIssued, -⟩
  rw [hIssued]
  exact (sendAck_frame hAck).2.2

/-
  The history and the database with something new about one
  origin, where the links are no older than the history.
-/
theorem full_of_backed
    {origin : Int}
    {seq' : Nat}
    {links : List LsLink}
    {history : LsMessageHistory}
    {db : LsDatabase}
    (hFull : s.Full ids n)
    (hOrigin : origin ≠ n)
    (hSeen : ∀ seq, history.find origin = some seq →
      seq ≤ seq')
    (hSeenOthers : ∀ o, o ≠ origin →
      history.find o = s.node.lsaHistory.find o)
    (hFind : db.find origin = some links)
    (hFindOthers : ∀ o, o ≠ origin →
      db.find o = s.node.linkStateDatabase.find o)
    (hListed : Listed ids s.log origin seq' links) :
    Full ids n { s with
      node := { s.node with
        lsaHistory := history
        linkStateDatabase := db } } := by
  constructor
  case maps =>
    intro id msg hMsg hContent hPeers
    rcases hFull.maps id msg hMsg hContent hPeers with
      ⟨own, seq₁, hOwn, hOwnListed⟩
    exact ⟨own, seq₁, (hFindOthers n hOrigin.symm).trans hOwn,
      hOwnListed⟩
  case toAlmost =>
    constructor
    case center => exact hFull.center
    case node =>
      constructor
      case myNodeId => exact hFull.node.myNodeId
      case own =>
        dsimp only
        rw [hFindOthers n hOrigin.symm]
        exact hFull.node.own
      case entries =>
        intro o links' ho hFind'
        by_cases hSame : o = origin
        · subst hSame
          rw [show db.find o = some links' from hFind'] at hFind
          cases hFind
          exact ⟨seq', hListed⟩
        · exact hFull.node.entries o links' ho
            ((hFindOthers o hSame).symm.trans hFind')
    case history =>
      intro o seq₁ hSeen₁
      by_cases hSame : o = origin
      · subst hSame
        exact ⟨hOrigin, links, seq', hFind, hListed,
          hSeen seq₁ hSeen₁⟩
      · rcases hFull.history o seq₁
            ((hSeenOthers o hSame).symm.trans hSeen₁) with
          ⟨ho, links', seq₂, hFind', hRest⟩
        exact ⟨ho, links', seq₂,
          (hFindOthers o hSame).trans hFind', hRest⟩
    case holds =>
      exact ⟨hFull.holds.buffer, hFull.holds.manager,
        hFull.holds.sent⟩

/- An advertisement passed on, and its links installed. -/
theorem full_installContent
    {start : LsContext}
    (hIds : ∀ o, (ids o).Nodup)
    (hFull : s.Full ids n)
    (hOrigin : msg.originNodeId ≠ n)
    (hNew : (s.node.lsaHistory.isNewMessage msg).1 = true)
    (hKind : msg.content = .null ∨
      ∃ links, msg.content = .lsl links ∧
        Listed ids s.log msg.originNodeId
          msg.sequenceNumber links)
    (hBacked : msg.content = .null →
      ∃ link rest,
        s.node.linkStateDatabase.find msg.originNodeId =
            some (link :: rest) ∧
          msg.sequenceNumber ≤ link.sequenceNumber)
    (hLocal : Local (Owned s.center n)
      { s with
        node := { s.node with
          lsaHistory :=
            (s.node.lsaHistory.isNewMessage msg).2 } } start)
    (hInstall : start.installContent msg = some s') :
    s'.Full ids n ∧ Grows n s s' := by
  rcases LsMessageHistory.find_isNewMessage hNew with
    ⟨hSeen, hSeenOthers⟩
  have hSeenLe : ∀ seq', msg.sequenceNumber ≤ seq' →
      ∀ seq,
        (s.node.lsaHistory.isNewMessage msg).2.find
            msg.originNodeId = some seq → seq ≤ seq' := by
    intro seq' hLe seq hSeq
    rw [hSeen] at hSeq
    cases hSeq
    exact hLe
  unfold installContent at hInstall
  rcases hKind with hNull | ⟨links, hLsl, hListed⟩
  · rw [hNull] at hInstall
    cases hInstall
    rcases hBacked hNull with ⟨link, rest, hFind, hLe⟩
    rcases hFull.node.entries _ _ hOrigin hFind with
      ⟨seq, hListed⟩
    have hSeq := hListed.numbered link List.mem_cons_self
    have hInstalled := full_of_backed hFull hOrigin
      (hSeenLe _ (hSeq ▸ hLe)) hSeenOthers hFind
      (fun o _ => rfl) hListed
    have hGrows := hLocal.grows (n := n)
    exact ⟨hLocal.full hInstalled, hGrows.peers, hGrows.log,
      hGrows.ids, hGrows.maps⟩
  · rw [hLsl] at hInstall
    cases hInstall
    have hSame :
        ∀ old, s.node.linkStateDatabase.find
            msg.originNodeId = some old →
          LsDatabase.neighbors old =
            LsDatabase.neighbors links := by
      intro old hOld
      rcases hFull.node.entries _ old hOrigin hOld with
        ⟨seq, hOldListed⟩
      exact hOldListed.neighbors.trans hListed.neighbors.symm
    have hOther : msg.originNodeId ≠ s.node.myNodeId :=
      hFull.node.myNodeId.symm ▸ hOrigin
    rcases LsDatabase.find_update hOther hSame
        (hListed.neighbors.symm ▸ hIds _) with
      ⟨hFind, hFindOthers⟩
    have hInstalled := full_of_backed hFull hOrigin
      (hSeenLe _ le_rfl) hSeenOthers hFind hFindOthers hListed
    rw [hLocal.database, hLocal.myNodeId]
    have hMoved := hLocal.withDatabase
      (s.node.linkStateDatabase.update s.node.myNodeId
        msg.originNodeId links).1
    have hGrows := hMoved.grows (n := n)
    exact ⟨hMoved.full hInstalled, hGrows.peers, hGrows.log,
      hGrows.ids, hGrows.maps⟩

theorem safe_receiveLSA
    (hIds : ∀ o, (ids o).Nodup)
    (hType : msg.type = .LS_MSG_LSA)
    (hStored :
      s.center.lsa_messages.find msg.messageId = some msg)
    (hBacked : msg.content = .null →
      msg.originNodeId ≠ n →
        (s.node.lsaHistory.isNewMessage msg).1 = true →
          ∃ link rest,
            s.node.linkStateDatabase.find msg.originNodeId =
                some (link :: rest) ∧
              msg.sequenceNumber ≤ link.sequenceNumber)
    (hReceive : s.receiveLSA clock senderId msg = some s')
    (hFull : s.Full ids n)
    (hBelow : s'.Below) :
    s'.Full ids n ∧ Grows n s s' := by
  rcases receiveLSA_cases hType hReceive with
    ⟨s₁, hAck, hIssued, hCases⟩
  have hSafe : Safe ids n s s₁ := safe_sendAck (by simp) hAck
  rcases hSafe.full hFull (hBelow.mono hIssued.ge) with
    ⟨hFull₁, hGrows₁⟩
  rcases hCases with
    rfl | ⟨hOrigin, hNew, s₂, hLoop, hInstall⟩
  · exact ⟨hFull₁, hGrows₁⟩
  rcases sendAck_frame hAck with ⟨hNode, hLog, -⟩
  have hOk := hFull.center.lsa _ _ hStored
  have hKind : msg.content = .null ∨
      ∃ links, msg.content = .lsl links ∧
        Listed ids s₁.log msg.originNodeId
          msg.sequenceNumber links := by
    rw [hLog]
    rcases hOk.kind with ⟨-, hContent⟩ | ⟨hTpm, -⟩
    · exact hContent
    · rw [hType] at hTpm
      cases hTpm
  have hOwned : Owned s₁.center n msg.messageId :=
    owned_grow (hFull.owned_lsa hStored hType) hGrows₁
      hFull₁.center
  rw [hFull₁.node.myNodeId] at hOrigin
  have hBacked₁ : msg.content = .null →
      ∃ link rest,
        s₁.node.linkStateDatabase.find msg.originNodeId =
            some (link :: rest) ∧
          msg.sequenceNumber ≤ link.sequenceNumber := by
    rw [hNode] at hNew ⊢
    exact fun hNull => hBacked hNull hOrigin hNew
  rcases full_installContent hIds hFull₁ hOrigin hNew hKind
      hBacked₁ (hLoop _ (hFull₁.owned_even rfl) hOwned)
      hInstall with
    ⟨hFull', hGrows'⟩
  exact ⟨hFull', hGrows₁.trans hGrows'⟩

end LsContext

end Ns2

------------------------------------------------------------
-- Receiving a topology map
------------------------------------------------------------

namespace Ns2

namespace LsContext

open LsNetwork

variable {ids : Int → List Int}
variable {n : Int}
variable {s s' : LsContext}
variable {msg : LsMessage}
variable {neighborId : Int}
variable {record : Int × List LsLink}

/- Numbers below the threshold are compared as they are. -/
theorem less_of_outdated
    {own link : LsLink}
    {ownRest linkRest : List LsLink}
    (hOwn : own.sequenceNumber < LS_WRAPAROUND_THRESHOLD)
    (hLink : link.sequenceNumber < LS_WRAPAROUND_THRESHOLD)
    (hOutdated :
      LsDatabase.outdated (some (own :: ownRest))
        (link :: linkRest) = some true) :
    own.sequenceNumber < link.sequenceNumber := by
  have hCompare := Option.some.inj hOutdated
  rcases Bool.or_eq_true_iff.mp hCompare with hLess | hWrap
  · exact of_decide_eq_true hLess
  · have hFar := of_decide_eq_true hWrap
    unfold LS_WRAPAROUND_THRESHOLD at hOwn hLink hFar
    unfold subU32 at hFar
    omega

/- A newer record replaces the one in the database. -/
theorem full_setRecord
    (hFull : s.Full ids n)
    (hBelow : s.Below)
    (hOther : record.1 ≠ n)
    {seq : Nat}
    (hListed : Listed ids s.log record.1 seq record.2)
    (hOutdated :
      LsDatabase.outdated
        (s.node.linkStateDatabase.find record.1) record.2 =
          some true) :
    Full ids n { s with
      node := { s.node with
        linkStateDatabase :=
          s.node.linkStateDatabase.set record.1 record.2 } } := by
  have hBound : ∀ o seq links,
      Listed ids s.log o seq links →
        seq < LS_WRAPAROUND_THRESHOLD := by
    intro o seq links hAny
    have hLess := hFull.center.logged _ hAny.logged
    rw [hFull.center.count] at hLess
    unfold Below at hBelow
    exact hLess.trans_le hBelow
  refine full_of_backed hFull hOther ?_ (fun o _ => rfl)
    (SortedMap.find_set_self _)
    (fun o ho => SortedMap.find_set_ne _ ho) hListed
  intro seq₁ hSeen
  rcases hFull.history _ seq₁ hSeen with
    ⟨-, links, seq₂, hFind, hOwnListed, hLe⟩
  rw [hFind] at hOutdated
  rcases List.exists_cons_of_ne_nil hOwnListed.nonempty with
    ⟨own, ownRest, rfl⟩
  rcases List.exists_cons_of_ne_nil hListed.nonempty with
    ⟨link, linkRest, hRecord⟩
  have hOwn := hOwnListed.numbered own List.mem_cons_self
  have hLink := hListed.numbered link
    (hRecord ▸ List.mem_cons_self)
  rw [hRecord] at hOutdated
  have hLess := less_of_outdated
    (hOwn.symm ▸ hBound _ _ _ hOwnListed)
    (hLink.symm ▸ hBound _ _ _ hListed) hOutdated
  omega

theorem regenAndSend_frame
    {exception origin : Int}
    {links : List LsLink}
    (hRegen :
      s.regenAndSend exception origin links = some s') :
    s'.log = s.log ∧ s.issued ≤ s'.issued := by
  cases links with
  | nil => cases hRegen
  | cons link rest =>
      rcases Option.bind_eq_some_iff.mp hRegen with
        ⟨⟨s₁, fresh⟩, hNew, hRun⟩
      rcases newMessage_eq hNew with ⟨c, -, rfl⟩
      have hLoop := @Local.run (fun _ => True) _ _ _ _ _
        (fun s₂ peerId s₃ _ _ hTo =>
          local_regenTo (Q := fun _ => True) trivial hTo) hRun
      refine ⟨hLoop.log, ?_⟩
      rw [hLoop.issued]
      exact le_countOdd s.issued

theorem receiveRecord_frame
    (hReceive :
      s.receiveRecord neighborId record = some s') :
    s'.log = s.log ∧ s.issued ≤ s'.issued := by
  unfold receiveRecord at hReceive
  split_ifs at hReceive
  · cases hReceive
    exact ⟨rfl, le_rfl⟩
  · rcases Option.bind_eq_some_iff.mp hReceive with
      ⟨old, -, hRest⟩
    dsimp only at hRest
    split_ifs at hRest
    · rcases regenAndSend_frame hRest with ⟨hLog, hIssued⟩
      exact ⟨hLog, hIssued⟩
    · cases hRest
      exact ⟨rfl, le_rfl⟩

/- One record of the map of another node. -/
theorem safe_receiveRecord
    (hListed : record.1 ≠ n →
      ∃ seq, Listed ids s.log record.1 seq record.2)
    (hReceive :
      s.receiveRecord neighborId record = some s') :
    Safe ids n s s' := by
  refine ⟨(receiveRecord_frame hReceive).2, ?_⟩
  intro hFull hBelow
  unfold receiveRecord at hReceive
  split_ifs at hReceive with hOwn
  · cases hReceive
    exact ⟨hFull, .refl⟩
  · rcases Option.bind_eq_some_iff.mp hReceive with
      ⟨old, hOld, hRest⟩
    dsimp only at hRest
    split_ifs at hRest with hFlag
    · rw [hFull.node.myNodeId] at hOwn
      rcases hListed hOwn with ⟨seq, hSeq⟩
      have hSet := full_setRecord hFull
        (hBelow.mono (regenAndSend_frame hRest).2) hOwn hSeq
        (hFlag ▸ hOld)
      rcases (safe_regenAndSend hRest).full hSet hBelow with
        ⟨hFull', hGrows⟩
      exact ⟨hFull', hGrows.peers, hGrows.log, hGrows.ids,
        hGrows.maps⟩
    · cases hRest
      exact ⟨hFull, .refl⟩

/- The steps of receiving a map. -/
theorem receiveTopo_cases
    {topology : Int → Option LsDatabase}
    (hReceive :
      s.receiveTopo topology neighborId msg = some s') :
    ∃ s₁,
      s.sendAck neighborId .LS_MSG_TPMACK neighborId
          msg.sequenceNumber = some s₁ ∧
        (s' = s₁ ∨
          ∃ history,
            s' = { s₁ with
                node := { s₁.node with
                  tpmHistory := history } } ∨
              ∃ nodeId db,
                msg.content = .topo nodeId ∧
                  topology nodeId = some db ∧
                  PartialRun.run
                      (fun s record =>
                        receiveRecord s neighborId record)
                      { s₁ with
                        node := { s₁.node with
                          tpmHistory := history } }
                      db.entries = some s') := by
  rcases Option.bind_eq_some_iff.mp hReceive with
    ⟨s₁, hAck, hRest⟩
  refine ⟨s₁, hAck, ?_⟩
  dsimp only at hRest
  split_ifs at hRest
  · exact Or.inl (Option.some.inj hRest).symm
  · right
    refine ⟨(s₁.node.tpmHistory.isNewMessage msg).2, ?_⟩
    cases hContent : msg.content with
    | null =>
        rw [hContent] at hRest
        exact Or.inl (Option.some.inj hRest).symm
    | lsl links =>
        rw [hContent] at hRest
        cases hRest
    | topo nodeId =>
        rw [hContent] at hRest
        rcases Option.bind_eq_some_iff.mp hRest with
          ⟨db, hDb, hRun⟩
        exact Or.inr ⟨nodeId, db, rfl, hDb, hRun⟩

theorem local_tpmHistory
    {Q : Nat → Prop}
    (history : LsMessageHistory) :
    Local Q s
      { s with
        node := { s.node with tpmHistory := history } } := by
  refine ⟨rfl, rfl, rfl, rfl, rfl, rfl, rfl, rfl, ?_⟩
  intro hHolds
  exact ⟨hHolds.buffer, hHolds.manager, hHolds.sent⟩

theorem issued_receiveTopo
    {topology : Int → Option LsDatabase}
    (hReceive :
      s.receiveTopo topology neighborId msg = some s') :
    s.issued ≤ s'.issued := by
  rcases receiveTopo_cases hReceive with ⟨s₁, hAck, hCases⟩
  have hIssued := (sendAck_frame hAck).2.2
  rcases hCases with
    rfl | ⟨history, rfl | ⟨nodeId, db, -, -, hRun⟩⟩
  · exact hIssued
  · exact hIssued
  · refine @PartialRun.invariant _ _ _
      (fun s₂ => s.issued ≤ s₂.issued) ?_ _ _ _ hIssued hRun
    intro s₂ r s₃ hLe hStep
    exact hLe.trans (receiveRecord_frame hStep).2

theorem safe_receiveTopo
    {topology : Int → Option LsDatabase}
    (hMap : ∀ nodeId db,
      msg.content = .topo nodeId → topology nodeId = some db →
        ∀ record ∈ db.entries, record.1 ≠ n →
          ∃ seq, Listed ids s.log record.1 seq record.2)
    (hReceive :
      s.receiveTopo topology neighborId msg = some s') :
    Safe ids n s s' := by
  rcases receiveTopo_cases hReceive with ⟨s₁, hAck, hCases⟩
  have hSafe : Safe ids n s s₁ := safe_sendAck (by simp) hAck
  rcases hCases with rfl | ⟨history, hHistory⟩
  · exact hSafe
  have hSeen := hSafe.trans
    (local_tpmHistory (s := s₁) history).safe
  rcases hHistory with rfl | ⟨nodeId, db, hContent, hDb, hRun⟩
  · exact hSeen
  have hRecords := hMap nodeId db hContent hDb
  generalize hStart : LsContext.mk _ _ _ _ _ = start
    at hSeen hRun
  have hLog : start.log = s.log := by
    rw [← hStart]
    exact (sendAck_frame hAck).2.1
  have hLoop : Safe ids n start s' ∧ s'.log = s.log := by
    apply @PartialRun.invariant_if _ _ _
      (fun s₂ => Safe ids n start s₂ ∧ s₂.log = s.log)
      (fun _ record => record ∈ db.entries)
      _ _ _ _ ⟨.refl, hLog⟩ hRun
    · intro before r after s₂ hEq _
      rw [hEq]
      exact List.mem_append_right before List.mem_cons_self
    · rintro s₂ r s₃ ⟨hSafe₂, hLog₂⟩ hr hStep
      have hListed := hRecords r hr
      rw [← hLog₂] at hListed
      exact ⟨hSafe₂.trans (safe_receiveRecord hListed hStep),
        (receiveRecord_frame hStep).1.trans hLog₂⟩
  exact hSeen.trans hLoop.1

end LsContext

end Ns2

------------------------------------------------------------
-- All steps of a node
------------------------------------------------------------

namespace Ns2

namespace LsContext

open LsNetwork

variable {ids : Int → List Int}
variable {n : Int}
variable {s s' : LsContext}
variable {msg : LsMessage}
variable {clock : Rat}

theorem safe_sendLinkStates
    {buffer : Bool}
    (hSend : s.sendLinkStates buffer clock = some s') :
    Safe ids n s s' := by
  rcases @almost_sendLinkStates ids n _ _ _ _ hSend with
    ⟨hIssued, -, hSent⟩
  refine ⟨hIssued, ?_⟩
  intro hFull hBelow
  rcases hSent hFull.toAlmost hBelow with
    ⟨hAlmost, hGrows, ⟨rfl, -⟩ | hListed⟩
  · exact ⟨hFull, hGrows⟩
  · exact ⟨⟨hAlmost, fun id msg _ _ _ => hListed⟩, hGrows⟩

/- What an id stands for has that id. -/
theorem Almost.retrieved
    (hAlmost : s.Almost ids n)
    {id : Nat}
    (hMsg : s.center.retrieveMessage id = some msg) :
    msg.messageId = id ∧
      (msg.type = .LS_MSG_TPM → msg.sequenceNumber = id) ∧
      (msg.type = .LS_MSG_LSA ∨ msg.type = .LS_MSG_TPM →
        s.center.lsa_messages.find id = some msg) := by
  rcases Nat.mod_two_eq_zero_or_one id with hEven | hOdd
  · rw [LsMessageCenter.retrieveMessage_even hEven] at hMsg
    rcases hAlmost.center.other id msg hMsg with
      ⟨hId, hLsa, hTpm⟩
    exact ⟨hId, fun hType => absurd hType hTpm,
      fun hType => absurd hType (not_or.mpr ⟨hLsa, hTpm⟩)⟩
  · rw [LsMessageCenter.retrieveMessage_odd hOdd] at hMsg
    have hOk := hAlmost.center.lsa id msg hMsg
    refine ⟨hOk.messageId, ?_, fun _ => hMsg⟩
    intro hType
    rcases hOk.kind with ⟨hLsa, -⟩ | ⟨-, hSeq, -⟩
    · rw [hType] at hLsa
      cases hLsa
    · exact hSeq

/- A message of the buffer, whose id the node may hold. -/
theorem local_flush
    {Q : Nat → Prop}
    {entry : Int × Nat}
    (hInvalid : Q LS_INVALID_MESSAGE_ID)
    (hMsg : ∀ msg,
      s.center.retrieveMessage entry.2 = some msg →
        Q msg.messageId ∧
          (msg.type = .LS_MSG_TPM → Q msg.sequenceNumber))
    (hFlush : s.flush clock entry = some s') :
    Local Q s s' := by
  rcases Option.bind_eq_some_iff.mp hFlush with
    ⟨msg, hFound, hRest⟩
  rcases Option.bind_eq_some_iff.mp hRest with
    ⟨s₁, hOut, hSend⟩
  cases hSend
  rcases hMsg msg hFound with ⟨hId, hTpm⟩
  exact (local_messageOut hInvalid hTpm (fun _ => hId)
    hOut).trans (local_sendMessage hId)

theorem local_clearBuffer
    {Q : Nat → Prop} :
    Local Q s
      { s with node := { s.node with messageBuffer := [] } } := by
  refine ⟨rfl, rfl, rfl, rfl, rfl, rfl, rfl, rfl, ?_⟩
  intro hHolds
  exact ⟨fun e he => absurd he List.not_mem_nil,
    hHolds.manager, hHolds.sent⟩

theorem safe_sendBufferedMessages
    (hSend : s.sendBufferedMessages clock = some s') :
    Safe ids n s s' := by
  rcases Option.map_eq_some_iff.mp hSend with ⟨s₁, hRun, rfl⟩
  have hTrue : Local (fun _ => True) s s₁ := by
    apply Local.run _ hRun
    intro s₂ entry s₃ _ _ hFlush
    exact local_flush trivial
      (fun _ _ => ⟨trivial, fun _ => trivial⟩) hFlush
  refine ⟨hTrue.issued.ge, ?_⟩
  intro hFull _
  have hLocal : Local (Owned s.center n) s s₁ := by
    apply Local.run _ hRun
    intro s₂ entry s₃ hSoFar hEntry hFlush
    have hOwned := hFull.holds.buffer entry hEntry
    apply local_flush (hFull.owned_even rfl) _ hFlush
    intro msg hMsg
    rw [hSoFar.center] at hMsg
    rcases hFull.retrieved hMsg with ⟨hId, hTpm, -⟩
    rw [hId]
    refine ⟨hOwned, ?_⟩
    intro hType
    rw [hTpm hType]
    exact hOwned
  have hCleared := hLocal.trans local_clearBuffer
  exact ⟨hCleared.full hFull, hCleared.grows⟩

theorem safe_expire
    {peerId : Int}
    (hExpire : s.expire peerId = some s') :
    Safe ids n s s' := by
  have hIssued : s'.issued = s.issued := by
    rcases Option.map_eq_some_iff.mp hExpire with
      ⟨⟨m, resends⟩, -, rfl⟩
    exact List.foldlRecOn
      (motive := fun s₁ : LsContext => s₁.issued = s.issued)
      resends _ rfl
      fun s₁ hSame r _ => sendMessage_issued.trans hSame
  refine ⟨hIssued.ge, ?_⟩
  intro hFull _
  have hLocal := local_expire hExpire hFull.holds
  exact ⟨hLocal.full hFull, hLocal.grows⟩

/- Acknowledgements that are deleted are missed by nobody. -/
theorem safe_deleteMessage
    (msgId : Nat) :
    Safe ids n s (s.deleteMessage msgId) := by
  refine ⟨le_rfl, ?_⟩
  intro hFull _
  have hOwned : ∀ id, Owned s.center n id →
      Owned (s.deleteMessage msgId).center n id :=
    fun id hId => ⟨hId.known, hId.map⟩
  have hHolds := hFull.holds.mono hOwned
  constructor
  · constructor
    case maps => exact hFull.maps
    case toAlmost =>
      refine ⟨?_, hFull.node, hFull.history,
        ⟨hHolds.buffer, hHolds.manager, hHolds.sent⟩⟩
      constructor
      case count => exact hFull.center.count
      case even => exact hFull.center.even
      case lsa => exact hFull.center.lsa
      case logged => exact hFull.center.logged
      case other =>
        intro id msg hFind
        by_cases hSame : id = msgId
        · subst hSame
          have hErased : SortedMap.find
              (s.center.other_messages.erase id) id =
                some msg := hFind
          rw [SortedMap.find_erase_self] at hErased
          cases hErased
        · exact hFull.center.other id msg
            ((SortedMap.find_erase_ne _ hSame).symm.trans
              hFind)
  · exact ⟨rfl, fun a ha => ha, le_rfl,
      fun id msg x hFind _ => Or.inl hFind⟩

/- Receiving never makes the ids run backwards. -/
theorem issued_receiveMessage
    {topology : Int → Option LsDatabase}
    {senderId : Int}
    {msgId : Nat}
    (hReceive :
      s.receiveMessage clock topology senderId msgId =
        some s') :
    s.issued ≤ s'.issued := by
  unfold receiveMessage at hReceive
  split_ifs at hReceive
  · cases hReceive
    exact le_rfl
  split at hReceive
  · cases hReceive
    exact le_rfl
  · split at hReceive
    case h_1 => exact issued_receiveTopo hReceive
    case h_2 hType => exact issued_receiveLSA hType hReceive
    case h_3 | h_4 =>
      rcases Option.map_eq_some_iff.mp hReceive with
        ⟨s₁, hAck, rfl⟩
      have hLocal := @local_receiveAck (fun _ => True) _ _ _ _
        trivial hAck
      exact hLocal.issued.ge
    case h_5 =>
      cases hReceive
      exact le_rfl

theorem safe_receiveMessage
    {topology : Int → Option LsDatabase}
    {senderId : Int}
    {msgId : Nat}
    (hIds : ∀ o, (ids o).Nodup)
    (hBacked : senderId ≠ LS_INVALID_NODE_ID → ∀ msg,
      s.center.retrieveMessage msgId = some msg →
        msg.type = .LS_MSG_LSA → msg.content = .null →
          msg.originNodeId ≠ n →
            (s.node.lsaHistory.isNewMessage msg).1 = true →
              ∃ link rest,
                s.node.linkStateDatabase.find
                    msg.originNodeId = some (link :: rest) ∧
                  msg.sequenceNumber ≤ link.sequenceNumber)
    (hMap : ∀ msg nodeId db,
      s.center.lsa_messages.find msgId = some msg →
        msg.content = .topo nodeId →
          topology nodeId = some db →
            ∀ record ∈ db.entries, record.1 ≠ n →
              ∃ seq, Listed ids s.log record.1 seq record.2)
    (hReceive :
      s.receiveMessage clock topology senderId msgId = some s')
    (hFull : s.Full ids n)
    (hBelow : s'.Below) :
    s'.Full ids n ∧ Grows n s s' := by
  unfold receiveMessage at hReceive
  split_ifs at hReceive with hSender
  · cases hReceive
    exact ⟨hFull, .refl⟩
  cases hMsg : s.center.retrieveMessage msgId with
  | none =>
      rw [hMsg] at hReceive
      cases hReceive
      exact ⟨hFull, .refl⟩
  | some msg =>
      rw [hMsg] at hReceive
      dsimp only at hReceive
      rcases hFull.retrieved hMsg with ⟨hId, -, hFind⟩
      split at hReceive
      case h_1 hType =>
        have hSafe : Safe ids n s s' := by
          apply safe_receiveTopo _ hReceive
          intro nodeId db
          exact hMap msg nodeId db (hFind (Or.inr hType))
        exact hSafe.full hFull hBelow
      case h_2 hType =>
        have hStored := hFind (Or.inl hType)
        rw [← hId] at hStored
        exact safe_receiveLSA hIds hType hStored
          (hBacked hSender msg hMsg hType) hReceive hFull hBelow
      case h_3 | h_4 =>
        rcases Option.map_eq_some_iff.mp hReceive with
          ⟨s₁, hAck, rfl⟩
        have hLocal : Local (Owned s.center n) s s₁ :=
          local_receiveAck (hFull.owned_even rfl) hAck
        have hSafe : Safe ids n s (s₁.deleteMessage msgId) :=
          hLocal.safe.trans (safe_deleteMessage msgId)
        exact hSafe.full hFull hBelow
      case h_5 =>
        cases hReceive
        exact ⟨hFull, .refl⟩

end LsContext

end Ns2

------------------------------------------------------------
-- Networks
------------------------------------------------------------

namespace Ns2

namespace LsNetwork

open LsContext

/- What holds of every node, with its ids its own. -/
structure NodeInv
    (ids : Int → List Int)
    (log : List LsAdvertisement)
    (c : LsMessageCenter)
    (n : Int)
    (node : LsRouting) : Prop where
  database : NodeOk ids log n node
  history : HistoryOk ids log n node
  maps : MapsOk ids log c n node
  buffer : ∀ e ∈ node.messageBuffer, Owned c n e.2
  manager : node.ackManager.All (Owned c n)

/- A packet comes from a node that has its receiver as a peer. -/
structure PacketOk
    (net : LsNetwork)
    (p : Packet) : Prop where
  owned : Owned net.center p.src p.msgId
  peer : ∃ node,
    net.nodes.find p.src = some node ∧ p.dst ∈ node.peerIdList

structure Inv
    (ids : Int → List Int)
    (net : LsNetwork) : Prop where
  center : CenterOk ids net.log net.issued net.center
  nodes : ∀ n node,
    net.nodes.find n = some node →
      NodeInv ids net.log net.center n node
  inFlight : ∀ p ∈ net.inFlight, net.PacketOk p

variable {ids : Int → List Int}
variable {n : Int}
variable {net net' : LsNetwork}
variable {node : LsRouting}

/- A node about to act. -/
def start
    (net : LsNetwork)
    (node : LsRouting) : LsContext :=
  ⟨node, net.center, [], net.log, net.issued⟩

theorem Inv.start
    (hInv : net.Inv ids)
    (hNode : net.nodes.find n = some node) :
    (net.start node).Full ids n := by
  have hNodeInv := hInv.nodes n node hNode
  constructor
  case maps => exact hNodeInv.maps
  case toAlmost =>
    constructor
    case center => exact hInv.center
    case node => exact hNodeInv.database
    case history => exact hNodeInv.history
    case holds =>
      exact ⟨hNodeInv.buffer, hNodeInv.manager,
        fun p hp => absurd hp List.not_mem_nil⟩

/- The other nodes do not mind what one of them does. -/
theorem NodeInv.grow
    {m : Int}
    {s s' : LsContext}
    (hNode : NodeInv ids s.log s.center m node)
    (hGrows : Grows n s s')
    (hCenter : CenterOk ids s'.log s'.issued s'.center)
    (hm : m ≠ n) :
    NodeInv ids s'.log s'.center m node := by
  constructor
  case database =>
    refine ⟨hNode.database.myNodeId, hNode.database.own, ?_⟩
    intro o links ho hFind
    rcases hNode.database.entries o links ho hFind with
      ⟨seq, hListed⟩
    exact ⟨seq, hListed.mono hGrows.log⟩
  case history =>
    intro o seq hSeen
    rcases hNode.history o seq hSeen with
      ⟨ho, links, seq', hFind, hListed, hLe⟩
    exact ⟨ho, links, seq', hFind, hListed.mono hGrows.log,
      hLe⟩
  case maps =>
    intro id msg hFind hContent hPeers
    rcases hGrows.maps id msg m hFind hContent with
      hOld | ⟨hSame, -⟩
    · rcases hNode.maps id msg hOld hContent hPeers with
        ⟨links, seq, hOwn, hListed⟩
      exact ⟨links, seq, hOwn, hListed.mono hGrows.log⟩
    · exact absurd hSame hm
  case buffer =>
    exact fun e he =>
      owned_grow (hNode.buffer e he) hGrows hCenter
  case manager =>
    exact hNode.manager.mono fun id hId =>
      owned_grow hId hGrows hCenter

/- The network after a node has acted. -/
def finish
    (net : LsNetwork)
    (n : Int)
    (s : LsContext) : LsNetwork where
  nodes := net.nodes.set n s.node
  center := s.center
  inFlight := net.inFlight ++ s.sent
  log := s.log
  issued := s.issued

theorem Inv.finish
    {s : LsContext}
    (hInv : net.Inv ids)
    (hNode : net.nodes.find n = some node)
    (hFull : s.Full ids n)
    (hGrows : Grows n (net.start node) s) :
    (net.finish n s).Inv ids := by
  constructor
  case center => exact hFull.center
  case nodes =>
    intro m node' hFind
    by_cases hm : m = n
    · subst hm
      rw [show (net.finish m s).nodes = net.nodes.set m s.node
        from rfl, SortedMap.find_set_self] at hFind
      cases hFind
      exact ⟨hFull.node, hFull.history, hFull.maps,
        hFull.holds.buffer, hFull.holds.manager⟩
    · have hOld := (SortedMap.find_set_ne _ hm).symm.trans hFind
      exact (hInv.nodes m node' hOld).grow (s := net.start node)
        hGrows hFull.center hm
  case inFlight =>
    intro p hp
    rcases List.mem_append.mp hp with hOld | hNew
    · have hOk := hInv.inFlight p hOld
      refine ⟨owned_grow (s := net.start node) hOk.owned hGrows
        hFull.center, ?_⟩
      rcases hOk.peer with ⟨src, hSrc, hDst⟩
      by_cases hSame : p.src = n
      · rw [hSame, hNode] at hSrc
        cases hSrc
        refine ⟨s.node, ?_, ?_⟩
        · rw [hSame]
          exact SortedMap.find_set_self _
        · rw [hGrows.peers]
          exact hDst
      · exact ⟨src, (SortedMap.find_set_ne _ hSame).trans hSrc,
          hDst⟩
    · rcases hFull.holds.sent p hNew with ⟨hSrc, hDst, hOwned⟩
      rw [hFull.node.myNodeId] at hSrc
      constructor
      case owned =>
        rw [hSrc]
        exact hOwned
      case peer =>
        refine ⟨s.node, ?_, hDst⟩
        rw [hSrc]
        exact SortedMap.find_set_self _

theorem act_cases
    {f : LsContext → Option LsContext}
    (hAct : net.act n f = some net') :
    ∃ node s,
      net.nodes.find n = some node ∧
        f (net.start node) = some s ∧ net' = net.finish n s := by
  rcases Option.bind_eq_some_iff.mp hAct with
    ⟨node, hNode, hRest⟩
  rcases Option.map_eq_some_iff.mp hRest with ⟨s, hs, rfl⟩
  exact ⟨node, s, hNode, hs, rfl⟩

/- A node that acts on its own. -/
theorem Inv.act
    {f : LsContext → Option LsContext}
    (hSafe : ∀ s s', f s = some s' → Safe ids n s s')
    (hAct : net.act n f = some net') :
    net.issued ≤ net'.issued ∧
      (net.Inv ids → net'.BelowWraparound →
        net'.Inv ids) := by
  rcases act_cases hAct with ⟨node, s, hNode, hs, rfl⟩
  have hNodeSafe := hSafe _ s hs
  refine ⟨hNodeSafe.issued, ?_⟩
  intro hInv hBelow
  rcases hNodeSafe.full (hInv.start hNode) hBelow with
    ⟨hFull, hGrows⟩
  exact hInv.finish hNode hFull hGrows

/- Packets that are on their way no more. -/
theorem Inv.erase
    (hInv : net.Inv ids)
    (p : Packet) :
    Inv ids { net with inFlight := net.inFlight.erase p } := by
  constructor
  case center => exact hInv.center
  case nodes => exact hInv.nodes
  case inFlight =>
    intro q hq
    have hOk := hInv.inFlight q (List.mem_of_mem_erase hq)
    exact ⟨hOk.owned, hOk.peer⟩

/- A map that is read shows advertised links only. -/
theorem Inv.map
    (hInv : net.Inv ids)
    {p : Packet}
    (hp : p ∈ net.inFlight)
    {msg : LsMessage}
    {nodeId : Int}
    {db : LsDatabase}
    (hMsg : net.center.lsa_messages.find p.msgId = some msg)
    (hContent : msg.content = .topo nodeId)
    (hDb : net.topology nodeId = some db) :
    ∀ record ∈ db.entries,
      ∃ seq, Listed ids net.log record.1 seq record.2 := by
  have hOk := hInv.inFlight p hp
  have hSource : nodeId = p.src :=
    hOk.owned.map msg nodeId hMsg hContent
  subst hSource
  rcases Option.map_eq_some_iff.mp hDb with ⟨node, hNode, rfl⟩
  have hNodeInv := hInv.nodes _ node hNode
  intro record hRecord
  have hFind := SortedMap.mem_entries_iff _ |>.mp hRecord
  by_cases hOwn : record.1 = p.src
  · rcases hOk.peer with ⟨node', hNode', hDst⟩
    rw [hNode] at hNode'
    cases hNode'
    rcases hNodeInv.maps p.msgId msg hMsg hContent
        (List.ne_nil_of_mem hDst) with
      ⟨links, seq, hLinks, hListed⟩
    rw [← hOwn] at hLinks hListed
    rw [hLinks] at hFind
    cases hFind
    exact ⟨seq, hListed⟩
  · exact hNodeInv.database.entries _ _ hOwn hFind

/- Every good step keeps the invariant while ids are small. -/
theorem Inv.step
    (hIds : ∀ o, (ids o).Nodup)
    {a : Action}
    (hGood : net.Good a)
    (hStep : net.step a = some net') :
    net.issued ≤ net'.issued ∧
      (net.Inv ids → net'.BelowWraparound →
        net'.Inv ids) := by
  unfold LsNetwork.step at hStep
  cases a with
  | linkChange clock nodeId links =>
      apply Inv.act _ hStep
      exact fun s s' hs => safe_intfChanged (hIds nodeId) hs
  | sendUpdates clock nodeId =>
      apply Inv.act _ hStep
      exact fun s s' hs => safe_sendLinkStates hs
  | sendBufferedMessages clock nodeId =>
      apply Inv.act _ hStep
      exact fun s s' hs => safe_sendBufferedMessages hs
  | expire nodeId peerId =>
      apply Inv.act _ hStep
      exact fun s s' hs => safe_expire hs
  | deliver clock p =>
      dsimp only at hStep
      split_ifs at hStep with hp
      rcases act_cases hStep with ⟨node, s, hNode, hs, rfl⟩
      refine ⟨issued_receiveMessage hs, ?_⟩
      intro hInv hBelow
      have hErased := hInv.erase p
      have hReceived :=
        safe_receiveMessage hIds
          (fun hSender msg => hGood node msg hNode hSender)
          (fun msg nodeId db hMsg hContent hDb record hr _ =>
            hInv.map hp hMsg hContent hDb record hr)
          hs (hErased.start hNode) hBelow
      exact hErased.finish hNode hReceived.1 hReceived.2
  | lose p =>
      dsimp only at hStep
      split_ifs at hStep with hp
      cases hStep
      exact ⟨le_rfl, fun hInv _ => hInv.erase p⟩

/- At the start nothing has been advertised. -/
def initialIds
    (net : LsNetwork)
    (n : Int) : List Int :=
  match net.nodes.find n with
  | none => []
  | some node => LsDatabase.neighbors node.linkStateList

theorem initialIds_nodup
    (hInitial : net.Initial)
    (o : Int) :
    (net.initialIds o).Nodup := by
  unfold initialIds
  cases hNode : net.nodes.find o with
  | none => exact List.nodup_nil
  | some node =>
      rcases hInitial.nodes o node hNode with
        ⟨peers, links, delays, rfl, hNodup⟩
      exact hNodup

theorem inv_initial
    (hInitial : net.Initial) :
    net.Inv net.initialIds := by
  rcases hInitial.center with ⟨max_size, hCenter⟩
  constructor
  case center =>
    rw [hCenter, hInitial.issued, hInitial.log]
    constructor
    case count => rfl
    case even => exact (LsMessageCenter.parity_new _).other
    case lsa =>
      intro id msg hFind
      cases hFind
    case other =>
      intro id msg hFind
      cases hFind
    case logged =>
      exact fun a ha => absurd ha List.not_mem_nil
  case nodes =>
    intro n node hNode
    have hIds : net.initialIds n =
        LsDatabase.neighbors node.linkStateList := by
      unfold initialIds
      rw [hNode]
    rcases hInitial.nodes n node hNode with
      ⟨peers, links, delays, rfl, -⟩
    have hOthers : ∀ o, o ≠ n →
        (LsRouting.init n peers links
          delays).linkStateDatabase.find o = none :=
      fun o ho => SortedMap.find_insert_ne _ ho
    constructor
    case database =>
      constructor
      case myNodeId => rfl
      case own =>
        exact ⟨links, SortedMap.find_insert_self _ rfl,
          hIds.symm⟩
      case entries =>
        intro o links' ho hFind
        rw [hOthers o ho] at hFind
        cases hFind
    case history =>
      intro o seq hSeen
      cases hSeen
    case maps =>
      intro id msg hFind
      rw [hCenter] at hFind
      cases hFind
    case buffer =>
      exact fun e he => absurd he List.not_mem_nil
    case manager =>
      apply LsRetransmissionManager.All.initTimeout
      constructor
      case known =>
        intro hOdd
        cases hOdd
      case map =>
        intro msg x hFind
        rw [hCenter] at hFind
        cases hFind
  case inFlight =>
    rw [hInitial.inFlight]
    exact fun p hp => absurd hp List.not_mem_nil

/- The invariant makes databases truthful. -/
theorem Inv.truthful
    (hInv : net.Inv ids) :
    net.Truthful := by
  intro n node o seq hNode hSeen
  rcases (hInv.nodes n node hNode).history o seq hSeen with
    ⟨-, links, seq', hFind, hListed, hLe⟩
  exact ⟨links, _, hFind, hListed.logged, rfl, hLe, rfl⟩

/-
  In every run in which advertisements without links bring no
  news, and in which ids stay small, the databases back what
  the histories say.
-/
theorem flooding_truthful
    {actions : List Action}
    (hInitial : net.Initial)
    (hRun : PartialRun.run step net actions = some net')
    (hGood : ∀ before a after net₁,
      actions = before ++ a :: after →
        PartialRun.run step net before = some net₁ →
          net₁.Good a)
    (hBelow : net'.BelowWraparound) :
    net'.Truthful := by
  have hIds := initialIds_nodup hInitial
  have hKept : net'.BelowWraparound →
      net'.Inv net.initialIds := by
    refine @PartialRun.invariant_if _ _ _
      (fun net₁ => net₁.BelowWraparound →
        net₁.Inv net.initialIds)
      Good ?_ _ _ _ (fun _ => inv_initial hInitial) hRun hGood
    intro net₁ a net₂ hInv hGood₁ hStep
    rcases Inv.step hIds hGood₁ hStep with ⟨hIssued, hNext⟩
    intro hBelow₂
    have hBelow₁ : net₁.BelowWraparound := by
      unfold BelowWraparound at hBelow₂ ⊢
      omega
    exact hNext (hInv hBelow₁) hBelow₂
  exact (hKept hBelow).truthful

end LsNetwork

end Ns2

------------------------------------------------------------
-- Runs
------------------------------------------------------------

namespace Ns2

namespace LsNetwork

/- A network without nodes. -/
def new (max_size : Nat) : LsNetwork where
  nodes := .new
  center := .new max_size
  inFlight := []
  log := []
  issued := 0

def addNode
    (net : LsNetwork)
    (n : Int)
    (peers : List Int)
    (links : List LsLink) : LsNetwork :=
  { net with
    nodes := net.nodes.set n (.init n peers links .new) }

theorem initial_new
    (max_size : Nat) :
    (new max_size).Initial := by
  refine ⟨⟨max_size, rfl⟩, rfl, rfl, rfl, ?_⟩
  intro n node hFind
  cases hFind

theorem Initial.addNode
    {net : LsNetwork}
    (hInitial : net.Initial)
    (n : Int)
    (peers : List Int)
    {links : List LsLink}
    (hNodup : (links.map fun l => l.neighborId).Nodup) :
    (net.addNode n peers links).Initial := by
  refine ⟨hInitial.center, hInitial.inFlight, hInitial.log,
    hInitial.issued, ?_⟩
  intro m node hFind
  by_cases hm : m = n
  · subst hm
    rw [show (net.addNode m peers links).nodes =
      net.nodes.set m (.init m peers links .new) from rfl,
      SortedMap.find_set_self] at hFind
    cases hFind
    exact ⟨peers, links, .new, rfl, hNodup⟩
  · exact hInitial.nodes m node
      ((SortedMap.find_set_ne _ hm).symm.trans hFind)

/- An advertisement with links is no news without links. -/
theorem backed_of_filled
    {net : LsNetwork}
    {p : Packet}
    (hFilled :
      (net.center.retrieveMessage p.msgId).all
        (fun msg => decide (msg.content ≠ .null)) = true) :
    net.Backed p := by
  intro node msg _ _ hMsg _ hNull
  rw [hMsg] at hFilled
  exact absurd hNull (of_decide_eq_true hFilled)

def linkTo
    (neighborId : Int)
    (status : LsStatus) : LsLink where
  neighborId := neighborId
  status := status
  cost := 1
  sequenceNumber := 0

/- Three nodes in a row, with a first link that is down. -/
def threeInARow : LsNetwork :=
  (((new 12).addNode 1 [2] [linkTo 2 .LS_STATUS_DOWN]).addNode
      2 [1, 3] [linkTo 1 .LS_STATUS_UP, linkTo 3 .LS_STATUS_UP]
    ).addNode 3 [2] [linkTo 2 .LS_STATUS_UP]

theorem initial_threeInARow :
    threeInARow.Initial := by
  apply Initial.addNode
  · apply Initial.addNode
    · apply Initial.addNode
      · exact initial_new 12
      · decide
    · decide
  · decide

/- Node 3 hears of the links that node 2 advertises. -/
theorem flooding_truthful_advertised :
    ∃ net',
      PartialRun.run step threeInARow
          [.sendUpdates 0 2, .deliver 1 ⟨2, 3, 1⟩] =
        some net' ∧
      (net'.nodes.find 3).bind
          (fun node => node.lsaHistory.find 2) = some 1 ∧
      net'.Truthful := by
  have hSent :
      (PartialRun.run step threeInARow
        [.sendUpdates 0 2]).all
          (fun net =>
            (net.center.retrieveMessage 1).all
              fun msg => decide (msg.content ≠ .null)) =
        true := by
    decide +kernel
  have hRun :
      (PartialRun.run step threeInARow
        [.sendUpdates 0 2, .deliver 1 ⟨2, 3, 1⟩]).map
          (fun net' =>
            (net'.issued, (net'.nodes.find 3).bind
              fun node => node.lsaHistory.find 2)) =
        some (1, some 1) := by
    decide +kernel
  rcases Option.map_eq_some_iff.mp hRun with
    ⟨net', hSome, hAfter⟩
  rcases Prod.mk.inj hAfter with ⟨hIssued, hSeen⟩
  refine ⟨net', hSome, hSeen, ?_⟩
  apply flooding_truthful initial_threeInARow hSome
  · intro before a after net₁ hEq hBefore
    rcases before with _ | ⟨b, _ | ⟨c, before⟩⟩
    · cases hEq
      trivial
    · cases hEq
      rw [hBefore] at hSent
      exact backed_of_filled hSent
    · rcases List.cons.inj hEq with ⟨-, hRest⟩
      rcases List.cons.inj hRest with ⟨-, hNil⟩
      exact absurd hNil.symm
        (List.append_ne_nil_of_right_ne_nil before
          (List.cons_ne_nil a after))
  · unfold BelowWraparound
    rw [hIssued]
    decide

/-
  Node 1 makes its link known when it comes up.  Node 2 also
  gets the map of node 1, and passes the record of node 1 on
  without its links.
-/
theorem flooding_loses_links :
    ∃ net actions net',
      net.Initial ∧
        PartialRun.run step net actions = some net' ∧
        net'.BelowWraparound ∧ ¬ net'.Truthful := by
  have hRun :
      (PartialRun.run step threeInARow
        [.linkChange 1 1 [linkTo 2 .LS_STATUS_UP],
          .sendBufferedMessages 1 1, .deliver 2 ⟨1, 2, 3⟩,
          .sendBufferedMessages 2 2,
          .deliver 3 ⟨2, 3, 5⟩]).map
          (fun net' =>
            (net'.issued,
              (net'.nodes.find 3).map fun node =>
                (node.lsaHistory.find 1,
                  node.linkStateDatabase.find 1))) =
        some (3, some (some 1, none)) := by
    decide +kernel
  rcases Option.map_eq_some_iff.mp hRun with
    ⟨net', hSome, hAfter⟩
  rcases Prod.mk.inj hAfter with ⟨hIssued, hThree⟩
  rcases Option.map_eq_some_iff.mp hThree with
    ⟨node, hNode, hNode'⟩
  rcases Prod.mk.inj hNode' with ⟨hSeen, hNone⟩
  refine ⟨threeInARow, _, net', initial_threeInARow, hSome,
    ?_, ?_⟩
  · unfold BelowWraparound
    rw [hIssued]
    decide
  · intro hTruthful
    rcases hTruthful 3 node 1 1 hNode hSeen with
      ⟨links, a, hFind, -⟩
    rw [hNone] at hFind
    cases hFind

end LsNetwork

end Ns2
