import Ns2.Common.TimerHandler
import Ns2.Linkstate.Messages

/-
  Retransmission of link state messages.

  For each peer the manager remembers the advertisements and
  the topology map that the peer has not acknowledged, and a
  timer after which they are sent again.

  Main declarations:
    * `LsRetransmissionManager.messageOut`
    * `LsRetransmissionManager.ackIn`
    * `LsRetransmissionManager.cancelTimer`
    * `LsRetransmissionManager.handle`

  Correctness is proven by:
    * `LsRetransmissionManager.ackIn_changes`
    * `LsRetransmissionManager.timer_exact`
-/

------------------------------------------------------------
-- Peers
------------------------------------------------------------

namespace Ns2

def LS_RTX_TIMEOUT : Rat := 2 / 1000
def LS_TIMEOUT_FACTOR : Rat := 3

structure LsRetransTimer extends TimerHandler where
  neighborId : Int
deriving DecidableEq, Repr

structure LsIdSeq where
  msgId : Nat
  seq : Nat
deriving DecidableEq, Repr

structure LsUnackPeer where
  rtxTimeout : Rat
  timer : LsRetransTimer
  tpmSeq : Nat
  lsaMap : SortedMap Int LsIdSeq

/- A message that is sent once more. -/
structure Resend where
  peerId : Int
  msgId : Nat
  type : LsMessageType
deriving DecidableEq, Repr

namespace LsUnackPeer

variable (peer : LsUnackPeer)

def new
    (nbrId : Int)
    (timeout : Rat) : LsUnackPeer where
  rtxTimeout := timeout
  timer := { TimerHandler.new with neighborId := nbrId }
  tpmSeq := LS_INVALID_MESSAGE_ID
  lsaMap := .new

def Unacknowledged : Prop :=
  peer.tpmSeq ≠ LS_INVALID_MESSAGE_ID ∨
    peer.lsaMap.entries ≠ []

instance : Decidable peer.Unacknowledged :=
  inferInstanceAs (Decidable (_ ∨ _))

def record (msg : LsMessage) : LsUnackPeer :=
  match msg.type with
  | .LS_MSG_TPM => { peer with tpmSeq := msg.sequenceNumber }
  | .LS_MSG_LSA =>
      { peer with
        lsaMap :=
          peer.lsaMap.set msg.originNodeId
            ⟨msg.messageId, msg.sequenceNumber⟩ }
  | _ => peer

def acknowledge (msg : LsMessage) : LsUnackPeer :=
  match msg.type with
  | .LS_MSG_TPMACK =>
      if peer.tpmSeq = msg.sequenceNumber then
        { peer with tpmSeq := LS_INVALID_MESSAGE_ID }
      else peer
  | .LS_MSG_LSAACK =>
      match peer.lsaMap.find msg.originNodeId with
      | none => peer
      | some idSeq =>
          if idSeq.seq = msg.sequenceNumber then
            { peer with
              lsaMap := peer.lsaMap.erase msg.originNodeId }
          else peer
  | _ => peer

def withTimer (t : TimerHandler) : LsUnackPeer :=
  { peer with
    timer := { peer.timer with toTimerHandler := t } }

def resched (clock : Rat) : Option LsUnackPeer :=
  (peer.timer.resched clock peer.rtxTimeout).map
    peer.withTimer

/- The topology map goes first; its number is its id. -/
def resends (peerId : Int) : List Resend :=
  (if peer.tpmSeq ≠ LS_INVALID_MESSAGE_ID then
    [⟨peerId, peer.tpmSeq, .LS_MSG_TPM⟩]
  else []) ++
    peer.lsaMap.entries.map fun e =>
      ⟨peerId, e.2.msgId, .LS_MSG_LSA⟩

end LsUnackPeer

end Ns2

------------------------------------------------------------
-- Manager
------------------------------------------------------------

namespace Ns2

abbrev LsRetransmissionManager := SortedMap Int LsUnackPeer

namespace LsRetransmissionManager

variable (m : LsRetransmissionManager)

def initTimeout
    (delayMap : SortedMap Int Rat) :
    LsRetransmissionManager :=
  delayMap.entries.foldl
    (fun m e =>
      m.insert e.1
        (LsUnackPeer.new e.1 (LS_TIMEOUT_FACTOR * e.2)))
    m

def cancelTimer (nbrId : Int) : LsRetransmissionManager :=
  match m.find nbrId with
  | none => m
  | some peer =>
      let peer :=
        { peer with
          tpmSeq := LS_INVALID_MESSAGE_ID
          lsaMap := .new }
      m.set nbrId (peer.withTimer peer.timer.force_cancel)

def messageOut
    (clock : Rat)
    (peerId : Int)
    (msg : LsMessage) : Option LsRetransmissionManager :=
  let peer :=
    (m.find peerId).getD
      (LsUnackPeer.new peerId LS_RTX_TIMEOUT)
  ((peer.record msg).resched clock).map (m.set peerId)

def ackIn
    (peerId : Int)
    (msg : LsMessage) : Option LsRetransmissionManager :=
  match m.find peerId with
  | none => some m
  | some peer =>
      if peer.Unacknowledged then
        let peer := peer.acknowledge msg
        if peer.Unacknowledged then some (m.set peerId peer)
        else
          peer.timer.cancel.map
            fun t => m.set peerId (peer.withTimer t)
      else some m

/- It is an error to have nothing about the peer. -/
def resendMessages
    (clock : Rat)
    (peerId : Int) :
    Option (LsRetransmissionManager × List Resend) :=
  match m.find peerId with
  | none => none
  | some peer =>
      (peer.resched clock).map
        fun peer' => (m.set peerId peer', peer.resends peerId)

/- The timer of a peer ends and handles its event. -/
def handle
    (peerId : Int) :
    Option (LsRetransmissionManager × List Resend) := do
  let peer ← m.find peerId
  let clock ← peer.timer.event
  let t ← peer.timer.beginHandle
  let (m', sent) ←
    resendMessages (m.set peerId (peer.withTimer t)) clock
      peer.timer.neighborId
  return (m'.modify peerId
    fun peer => peer.withTimer peer.timer.endHandle, sent)

/- What is on record for a peer. -/
def tpmRecord (peerId : Int) : Option Nat :=
  (m.find peerId).map LsUnackPeer.tpmSeq

def lsaRecord (peerId origin : Int) : Option LsIdSeq :=
  (m.find peerId).bind fun peer => peer.lsaMap.find origin

end LsRetransmissionManager

end Ns2

------------------------------------------------------------
-- Runs of the manager
------------------------------------------------------------

namespace Ns2

/-
  A message that nodes hand to their managers: any
  advertisement, or a topology map as it is made with the
  help of the message center.
-/
structure OutMessage where
  msg : LsMessage
  made :
    msg.type = .LS_MSG_LSA ∨
      ∃ (c c' : LsMessageCenter)
        (nodeId : Int)
        (fresh : LsMessage),
        c.Reachable ∧
          c.newMessage nodeId .LS_MSG_TPM =
            some (c', fresh) ∧
          msg = { fresh with content := .topo nodeId }

namespace LsRetransmissionManager

inductive Action where
| messageOut
    (clock : Rat)
    (peerId : Int)
    (out : OutMessage)
| ackIn
    (peerId : Int)
    (ack : LsMessage)
| cancelTimer
    (peerId : Int)
| expire
    (peerId : Int)

/- Nothing where the simulation is aborted. -/
def perform
    (m : LsRetransmissionManager) :
    Action → Option LsRetransmissionManager
| .messageOut clock peerId out =>
    m.messageOut clock peerId out.msg
| .ackIn peerId ack => m.ackIn peerId ack
| .cancelTimer peerId => some (m.cancelTimer peerId)
| .expire peerId => (m.handle peerId).map Prod.fst

/- The scheduler has an event for the timer of the peer. -/
def HasEvent
    (m : LsRetransmissionManager)
    (peerId : Int) : Prop :=
  ∃ peer,
    m.find peerId = some peer ∧ peer.timer.event ≠ none

/- Only an event that is scheduled can expire. -/
def Enabled
    (m : LsRetransmissionManager) :
    Action → Prop
| .expire peerId => m.HasEvent peerId
| _ => True

/- Managers after an interleaving of enabled actions. -/
inductive Reachable : LsRetransmissionManager → Prop
| init
    (delayMap : SortedMap Int Rat) :
    Reachable (initTimeout .new delayMap)
| step
    {m m' : LsRetransmissionManager}
    {a : Action}
    (hReach : Reachable m)
    (hEnabled : m.Enabled a)
    (hPerform : m.perform a = some m') :
    Reachable m'

end LsRetransmissionManager

end Ns2

------------------------------------------------------------
-- Timers and what is unacknowledged
------------------------------------------------------------

namespace Ns2

/- The timer of a peer, while its handler is not running. -/
structure LsUnackPeer.Exact
    (peer : LsUnackPeer)
    (peerId : Int) : Prop where
  sound : peer.timer.toTimerHandler.Sound
  neighbor : peer.timer.neighborId = peerId
  pending : peer.timer.Pending ↔ peer.Unacknowledged

namespace LsUnackPeer

variable {peer peer' : LsUnackPeer}
variable {peerId : Int}
variable {clock : Rat}
variable {msg : LsMessage}

theorem exact_new
    (timeout : Rat) :
    (new peerId timeout).Exact peerId := by
  constructor
  case sound => exact TimerHandler.sound_new
  case neighbor => rfl
  case pending =>
    constructor
    · exact fun hPending =>
        absurd hPending TimerHandler.not_pending_new
    · rintro (hTpm | hLsa)
      · exact absurd rfl hTpm
      · exact absurd rfl hLsa

/- A timer that is set makes up for what is unacknowledged. -/
theorem exact_resched
    (hFree : peer.timer.event ≠ none → peer.timer.Pending)
    (hNeighbor : peer.timer.neighborId = peerId)
    (hUnack : peer.Unacknowledged)
    (clock : Rat) :
    ∃ peer', peer.resched clock = some peer' ∧
      peer'.Exact peerId ∧ peer'.timer.Pending := by
  unfold resched
  rw [TimerHandler.resched_ok hFree]
  refine ⟨_, rfl, ?_, rfl⟩
  constructor
  case sound => exact TimerHandler.sound_scheduled _
  case neighbor => exact hNeighbor
  case pending => exact ⟨fun _ => hUnack, fun _ => rfl⟩

/- A timer that is not set goes with nothing left. -/
theorem exact_idle
    (hNeighbor : peer.timer.neighborId = peerId)
    (hAcked : ¬ peer.Unacknowledged) :
    (peer.withTimer .new).Exact peerId := by
  constructor
  case sound => exact TimerHandler.sound_new
  case neighbor => exact hNeighbor
  case pending =>
    constructor
    · exact fun hPending =>
        absurd hPending TimerHandler.not_pending_new
    · exact fun hUnack => absurd hUnack hAcked

theorem record_timer :
    (peer.record msg).timer = peer.timer := by
  unfold record
  split
  · rfl
  · rfl
  · rfl

theorem acknowledge_timer :
    (peer.acknowledge msg).timer = peer.timer := by
  unfold acknowledge
  split
  · split_ifs
    · rfl
    · rfl
  · split
    · rfl
    · split_ifs
      · rfl
      · rfl
  · rfl

/- An advertisement, or a map with a number, is remembered. -/
theorem unacknowledged_record
    (out : OutMessage) :
    (peer.record out.msg).Unacknowledged := by
  rcases out.made with hLsa | hTpm
  · right
    unfold record
    rw [hLsa]
    intro hNil
    have hFind :=
      peer.lsaMap.find_set_self
        (k := out.msg.originNodeId)
        (a := ⟨out.msg.messageId, out.msg.sequenceNumber⟩)
    rw [SortedMap.find_of_entries_nil _ hNil] at hFind
    cases hFind
  · left
    rcases hTpm with
      ⟨c, c', nodeId, fresh, hReach, hNew, hMsg⟩
    rcases LsMessageCenter.newMessage_lsa (Or.inr rfl) hNew with
      ⟨hFresh, -⟩
    unfold record
    rw [hMsg, hFresh]
    intro hZero
    have hOdd := hReach.parity.lsa
    rw [show c.current_lsa_id = 0 from hZero] at hOdd
    cases hOdd

end LsUnackPeer

end Ns2

------------------------------------------------------------
-- The invariant of the manager
------------------------------------------------------------

namespace Ns2

namespace LsRetransmissionManager

/- Every timer is pending for just what is unacknowledged. -/
def TimersExact (m : LsRetransmissionManager) : Prop :=
  ∀ peerId peer,
    m.find peerId = some peer → peer.Exact peerId

variable {m m' : LsRetransmissionManager}
variable {peer : LsUnackPeer}
variable {peerId : Int}

theorem TimersExact.set
    (hExact : m.TimersExact)
    (hPeer : peer.Exact peerId) :
    TimersExact (SortedMap.set m peerId peer) := by
  intro p q hFind
  by_cases hp : p = peerId
  · subst hp
    rw [SortedMap.find_set_self] at hFind
    cases hFind
    exact hPeer
  · rw [m.find_set_ne hp] at hFind
    exact hExact p q hFind

theorem timersExact_insert
    (hExact : m.TimersExact)
    (timeout : Rat) :
    TimersExact
      (m.insert peerId (LsUnackPeer.new peerId timeout)) := by
  intro p q hFind
  by_cases hp : p = peerId
  · subst hp
    cases hOld : m.find p with
    | none =>
        rw [m.find_insert_self hOld] at hFind
        cases hFind
        exact LsUnackPeer.exact_new timeout
    | some old =>
        rw [m.find_insert_of_some hOld] at hFind
        cases hFind
        exact hExact p q hOld
  · rw [m.find_insert_ne hp] at hFind
    exact hExact p q hFind

theorem timersExact_initTimeout
    (delayMap : SortedMap Int Rat) :
    (initTimeout .new delayMap).TimersExact := by
  unfold initTimeout
  apply List.foldlRecOn delayMap.entries
  · intro p q hFind
    cases hFind
  · intro m hExact e _
    exact timersExact_insert hExact _

/- The record that an operation starts from. -/
theorem TimersExact.getD
    (hExact : m.TimersExact)
    (peerId : Int)
    (timeout : Rat) :
    ((m.find peerId).getD
      (LsUnackPeer.new peerId timeout)).Exact peerId := by
  cases hFind : m.find peerId with
  | none => exact LsUnackPeer.exact_new timeout
  | some peer => exact hExact peerId peer hFind

theorem messageOut_ok
    (hExact : m.TimersExact)
    (clock : Rat)
    (peerId : Int)
    (out : OutMessage) :
    ∃ m', m.messageOut clock peerId out.msg = some m' ∧
      m'.TimersExact := by
  have hOld := hExact.getD peerId LS_RTX_TIMEOUT
  generalize hPeer :
    (m.find peerId).getD
      (LsUnackPeer.new peerId LS_RTX_TIMEOUT) = peer at hOld
  have hTimer : (peer.record out.msg).timer = peer.timer :=
    LsUnackPeer.record_timer
  rcases @LsUnackPeer.exact_resched
      (peer.record out.msg) peerId
      (hTimer.symm ▸ hOld.sound.scheduled.mp)
      (hTimer.symm ▸ hOld.neighbor)
      (LsUnackPeer.unacknowledged_record out) clock with
    ⟨peer', hResched, hExact', _⟩
  refine ⟨_, ?_, hExact.set hExact'⟩
  simp only [messageOut, hPeer, hResched]
  rfl

theorem ackIn_ok
    (hExact : m.TimersExact)
    (peerId : Int)
    (ack : LsMessage) :
    ∃ m', m.ackIn peerId ack = some m' ∧
      m'.TimersExact := by
  unfold ackIn
  cases hFind : m.find peerId with
  | none => exact ⟨m, rfl, hExact⟩
  | some peer =>
      have hPeer := hExact peerId peer hFind
      have hTimer : (peer.acknowledge ack).timer = peer.timer :=
        LsUnackPeer.acknowledge_timer
      dsimp only
      split_ifs with hBefore hAfter
      · -- Something is left, and the timer stays as it is.
        refine ⟨_, rfl, hExact.set ?_⟩
        constructor
        case sound =>
          rw [hTimer]
          exact hPeer.sound
        case neighbor =>
          rw [hTimer]
          exact hPeer.neighbor
        case pending =>
          rw [hTimer]
          exact ⟨fun _ => hAfter,
            fun _ => hPeer.pending.mpr hBefore⟩
      · -- Nothing is left, and the timer was pending.
        rw [hTimer,
          TimerHandler.cancel_ok (hPeer.pending.mpr hBefore)]
        refine ⟨_, rfl, hExact.set ?_⟩
        apply LsUnackPeer.exact_idle _ hAfter
        rw [hTimer]
        exact hPeer.neighbor
      · exact ⟨m, rfl, hExact⟩

theorem TimersExact.cancelTimer
    (hExact : m.TimersExact)
    (nbrId : Int) :
    (m.cancelTimer nbrId).TimersExact := by
  unfold LsRetransmissionManager.cancelTimer
  cases hFind : m.find nbrId with
  | none => exact hExact
  | some peer =>
      have hPeer := hExact nbrId peer hFind
      apply hExact.set
      dsimp only
      rw [hPeer.sound.force_cancel_eq]
      apply LsUnackPeer.exact_idle
      · exact hPeer.neighbor
      · rintro (hTpm | hLsa)
        · exact hTpm rfl
        · exact hLsa rfl

/- The handler finds the record, and sets the timer again. -/
theorem handle_ok
    (hExact : m.TimersExact)
    (hEvent : m.HasEvent peerId) :
    ∃ m' sent, m.handle peerId = some (m', sent) ∧
      m'.TimersExact := by
  rcases hEvent with ⟨peer, hFind, hScheduled⟩
  have hPeer := hExact peerId peer hFind
  have hPending := hPeer.sound.scheduled.mp hScheduled
  rcases Option.ne_none_iff_exists'.mp hScheduled with
    ⟨clock, hClock⟩
  let handling := peer.withTimer ⟨.TIMER_HANDLING, none⟩
  rcases @LsUnackPeer.exact_resched handling peerId
      (fun hSome => absurd rfl hSome) hPeer.neighbor
      (hPeer.pending.mp hPending) clock with
    ⟨peer', hResched, hPeer', hPending'⟩
  let before : LsRetransmissionManager :=
    SortedMap.set m peerId handling
  have hResend :
      resendMessages before clock peer.timer.neighborId =
        some (before.set peerId peer',
          handling.resends peerId) := by
    unfold resendMessages
    rw [hPeer.neighbor, SortedMap.find_set_self]
    dsimp only
    rw [hResched]
    rfl
  refine ⟨(before.set peerId peer').modify peerId
      fun peer => peer.withTimer peer.timer.endHandle,
    handling.resends peerId, ?_, ?_⟩
  · simp only [handle, hFind, hClock,
      TimerHandler.beginHandle_ok hPending,
      Option.bind_eq_bind, Option.bind_some]
    rw [hResend]
    rfl
  · have hDone :
        peer'.withTimer peer'.timer.endHandle = peer' := by
      rw [TimerHandler.endHandle_of_pending hPending']
      rfl
    intro p q hFindAfter
    by_cases hp : p = peerId
    · subst hp
      rw [SortedMap.find_modify_self, SortedMap.find_set_self,
        Option.map_some, hDone] at hFindAfter
      cases hFindAfter
      exact hPeer'
    · rw [SortedMap.find_modify_ne _ hp,
        SortedMap.find_set_ne _ hp,
        SortedMap.find_set_ne _ hp] at hFindAfter
      exact hExact p q hFindAfter

end LsRetransmissionManager

end Ns2

------------------------------------------------------------
-- What an acknowledgement changes
------------------------------------------------------------

namespace Ns2

namespace LsUnackPeer

variable {peer : LsUnackPeer}
variable {ack : LsMessage}

theorem acknowledge_lsaMap
    {origin : Int}
    (hChange :
      (peer.acknowledge ack).lsaMap.find origin ≠
        peer.lsaMap.find origin) :
    origin = ack.originNodeId ∧ ack.type = .LS_MSG_LSAACK := by
  unfold acknowledge at hChange
  split at hChange
  case h_1 hType =>
    split_ifs at hChange
    · exact absurd rfl hChange
    · exact absurd rfl hChange
  case h_2 hType =>
    refine ⟨?_, hType⟩
    by_contra hOther
    apply hChange
    split
    · rfl
    · split_ifs
      · exact SortedMap.find_erase_ne _ hOther
      · rfl
  case h_3 => exact absurd rfl hChange

theorem acknowledge_tpmSeq
    (hChange :
      (peer.acknowledge ack).tpmSeq ≠ peer.tpmSeq) :
    ack.type = .LS_MSG_TPMACK := by
  unfold acknowledge at hChange
  split at hChange
  case h_1 hType => exact hType
  case h_2 hType =>
    exfalso
    apply hChange
    split
    · rfl
    · split_ifs
      · rfl
      · rfl
  case h_3 => exact absurd rfl hChange

end LsUnackPeer

namespace LsRetransmissionManager

variable {m m' : LsRetransmissionManager}
variable {peerId : Int}
variable {ack : LsMessage}

/- At most the record of the peer is exchanged. -/
theorem ackIn_cases
    (hAck : m.ackIn peerId ack = some m') :
    m' = m ∨ ∃ peer peer' : LsUnackPeer,
      m.find peerId = some peer ∧
        m' = SortedMap.set m peerId peer' ∧
        peer'.tpmSeq = (peer.acknowledge ack).tpmSeq ∧
        peer'.lsaMap = (peer.acknowledge ack).lsaMap := by
  unfold ackIn at hAck
  cases hFind : m.find peerId with
  | none =>
      rw [hFind] at hAck
      exact Or.inl (Option.some.inj hAck).symm
  | some peer =>
      rw [hFind] at hAck
      dsimp only at hAck
      split_ifs at hAck
      · cases hAck
        exact Or.inr ⟨peer, _, rfl, rfl, rfl, rfl⟩
      · rcases Option.map_eq_some_iff.mp hAck with ⟨t, -, rfl⟩
        exact Or.inr ⟨peer, _, rfl, rfl, rfl, rfl⟩
      · exact Or.inl (Option.some.inj hAck).symm

theorem ackIn_changes
    (hAck : m.ackIn peerId ack = some m') :
    (∀ p origin,
      m'.lsaRecord p origin ≠ m.lsaRecord p origin →
        p = peerId ∧ origin = ack.originNodeId ∧
          ack.type = .LS_MSG_LSAACK) ∧
      ∀ p, m'.tpmRecord p ≠ m.tpmRecord p →
        p = peerId ∧ ack.type = .LS_MSG_TPMACK := by
  rcases ackIn_cases hAck with
    rfl | ⟨peer, peer', hFind, rfl, hTpm, hLsa⟩
  · exact ⟨fun p origin hChange => absurd rfl hChange,
      fun p hChange => absurd rfl hChange⟩
  constructor
  · intro p origin hChange
    by_cases hp : p = peerId
    · subst hp
      unfold lsaRecord at hChange
      rw [SortedMap.find_set_self, hFind, Option.bind_some,
        Option.bind_some, hLsa] at hChange
      exact ⟨rfl, LsUnackPeer.acknowledge_lsaMap hChange⟩
    · unfold lsaRecord at hChange
      rw [m.find_set_ne hp] at hChange
      exact absurd rfl hChange
  · intro p hChange
    by_cases hp : p = peerId
    · subst hp
      unfold tpmRecord at hChange
      rw [SortedMap.find_set_self, hFind, Option.map_some,
        Option.map_some, hTpm] at hChange
      have hTpmSeq :
          (peer.acknowledge ack).tpmSeq ≠ peer.tpmSeq :=
        fun hSame => hChange (congrArg some hSame)
      exact ⟨rfl, LsUnackPeer.acknowledge_tpmSeq hTpmSeq⟩
    · unfold tpmRecord at hChange
      rw [m.find_set_ne hp] at hChange
      exact absurd rfl hChange

end LsRetransmissionManager

end Ns2

------------------------------------------------------------
-- Reachable managers
------------------------------------------------------------

namespace Ns2

namespace LsRetransmissionManager

variable {m m' : LsRetransmissionManager}

/- An enabled action goes through and keeps the timers exact. -/
theorem TimersExact.perform
    (hExact : m.TimersExact)
    {a : Action}
    (hEnabled : m.Enabled a) :
    ∃ m', m.perform a = some m' ∧ m'.TimersExact := by
  cases a with
  | messageOut clock peerId out =>
      exact messageOut_ok hExact clock peerId out
  | ackIn peerId ack => exact ackIn_ok hExact peerId ack
  | cancelTimer peerId =>
      exact ⟨_, rfl, hExact.cancelTimer peerId⟩
  | expire peerId =>
      rcases handle_ok hExact hEnabled with
        ⟨m', sent, hHandle, hExact'⟩
      exact ⟨m', congrArg (Option.map Prod.fst) hHandle,
        hExact'⟩

theorem Reachable.timersExact
    (hReach : m.Reachable) :
    m.TimersExact := by
  induction hReach with
  | init delayMap => exact timersExact_initTimeout delayMap
  | step _ hEnabled hPerform ih =>
      rcases ih.perform hEnabled with ⟨m₁, hOk, hExact⟩
      rw [hPerform] at hOk
      cases hOk
      exact hExact

/-
  In every manager that can be reached the timers that are
  pending, and that the scheduler has events for, are those
  of the peers with something unacknowledged.  No action
  aborts, and an acknowledgement changes at most the record
  of its own peer, kind and origin.
-/
theorem timer_exact
    (hReach : m.Reachable) :
    (∀ peerId peer,
      m.find peerId = some peer →
        (peer.timer.Pending ↔ peer.Unacknowledged) ∧
          (peer.timer.event ≠ none ↔ peer.Unacknowledged)) ∧
      (∀ a, m.Enabled a → ∃ m', m.perform a = some m') ∧
      ∀ peerId ack m',
        m.perform (.ackIn peerId ack) = some m' →
          (∀ p origin,
            m'.lsaRecord p origin ≠ m.lsaRecord p origin →
              p = peerId ∧ origin = ack.originNodeId ∧
                ack.type = .LS_MSG_LSAACK) ∧
            ∀ p, m'.tpmRecord p ≠ m.tpmRecord p →
              p = peerId ∧ ack.type = .LS_MSG_TPMACK := by
  have hExact := hReach.timersExact
  refine ⟨?_, ?_, ?_⟩
  · intro peerId peer hFind
    have hPeer := hExact peerId peer hFind
    exact ⟨hPeer.pending,
      hPeer.sound.scheduled.trans hPeer.pending⟩
  · intro a hEnabled
    rcases hExact.perform hEnabled with ⟨m', hPerform, -⟩
    exact ⟨m', hPerform⟩
  · intro peerId ack m' hAck
    exact ackIn_changes hAck

/- An advertisement that was sent and not acknowledged yet. -/
theorem timer_exact_after_sending :
    ∃ (m : LsRetransmissionManager) (peer : LsUnackPeer),
      m.find 2 = some peer ∧ peer.Unacknowledged ∧
        peer.timer.Pending := by
  let msg := LsMessage.new 1 1 .LS_MSG_LSA
  let sent : LsRetransmissionManager :=
    SortedMap.set .new 2
      ((LsUnackPeer.new 2 LS_RTX_TIMEOUT).record msg
        |>.withTimer ⟨.TIMER_PENDING, some (0 + LS_RTX_TIMEOUT)⟩)
  have hReach : sent.Reachable :=
    .step (.init .new)
      (a := .messageOut 0 2 ⟨msg, Or.inl rfl⟩) trivial rfl
  have hUnack : ((LsUnackPeer.new 2 LS_RTX_TIMEOUT).record
      msg).Unacknowledged := by
    decide +kernel
  exact ⟨sent, _, rfl, hUnack,
    ((timer_exact hReach).1 2 _ rfl).1.mpr hUnack⟩

end LsRetransmissionManager

end Ns2
