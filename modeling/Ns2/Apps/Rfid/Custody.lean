import Ns2.Apps.Rfid.Network
import Ns2.Lib.TokenPool

/-
  Who owns the packets of the RFID agents.

  The receptions of the agents are given once more with their
  calls of `allocpkt`, `send`, `schedule` and `Packet::free`,
  for headers whose codes may lie outside the enumerations.
  `free` has no effect on a packet of the free list, whose
  flag `fflag_` is off; the call is recorded.

  Main declarations:
    * `Header`, `Header.decode`
    * `Tag.recvCalls`, `Reader.recvCalls`
    * `Traffic`, `Traffic.act`
    * `Traffic.packets_conserved_iff`
-/

------------------------------------------------------------
-- Headers
------------------------------------------------------------

namespace Ns2

namespace Rfid

def Flow.code : Flow → Int
| .rt => 0
| .tr => 1
| .rtAck => 2

def Service.code : Service → Int
| .noservice => 0
| .tracking => 1
| .standard => 2
| .ebtsa => 3
| .edfsa => 4

def Command.code : Command → Int
| .RC_QUERY => 0
| .RC_QUERYADJUST => 1
| .RC_QUERYREPLY => 2
| .RC_ACK => 3
| .RC_NAK => 4
| .TC_REPLY => 5
| .RC_EST => 6
| .TR_EST_REPLY => 7
| .RC_EST_FINISH => 8
| .RC_SING => 9

/- What the agents read of a packet, with any codes. -/
structure Header where
  id : Int
  tagEPC : Int
  tipo : Int
  singularization : Int
  service : Int
  ack : Int
  rng16 : Rat
  qValue : Int
  command : Int
  slotNumber : Int
  reply : Int
  mechanism : Int
  saddr : Int
deriving DecidableEq, Repr

/- An unknown direction is `other`. -/
def Flow.ofCode
    (other : Flow)
    (n : Int) : Flow :=
  match n with
  | 0 => .rt
  | 1 => .tr
  | 2 => .rtAck
  | _ => other

/- An unknown service is none. -/
def Service.ofCode (n : Int) : Service :=
  match n with
  | 1 => .tracking
  | 2 => .standard
  | 3 => .ebtsa
  | 4 => .edfsa
  | _ => .noservice

/- An unknown command is one that no agent acts on. -/
def Command.ofCode (n : Int) : Command :=
  match n with
  | 0 => .RC_QUERY
  | 1 => .RC_QUERYADJUST
  | 2 => .RC_QUERYREPLY
  | 5 => .TC_REPLY
  | 6 => .RC_EST
  | 7 => .TR_EST_REPLY
  | 8 => .RC_EST_FINISH
  | 9 => .RC_SING
  | _ => .RC_ACK

/- The packet an agent takes a header for. -/
def Header.decode
    (other : Flow)
    (h : Header) : Packet where
  id := h.id
  tagEPC := h.tagEPC
  tipo := Flow.ofCode other h.tipo
  singularization := h.singularization
  service := Service.ofCode h.service
  ack := h.ack
  rng16 := h.rng16
  qValue := h.qValue
  command := Command.ofCode h.command
  slotNumber := h.slotNumber
  reply := h.reply
  mechanism := h.mechanism
  saddr := h.saddr
  daddr := 0

end Rfid

end Ns2

------------------------------------------------------------
-- Receptions
------------------------------------------------------------

namespace Ns2

namespace Rfid

open TokenPool

def allocpkt : StateM Pool Nat :=
  fun p => p.acquire

def send (pkt : Nat) : StateM Pool Unit :=
  fun p => ((), p.handOver pkt)

/- The scheduler owns a packet that it is to deliver. -/
def schedule (pkt : Nat) : StateM Pool Unit :=
  fun p => ((), p.handOver pkt)

def free (pkt : Nat) : StateM Pool Unit :=
  fun p => ((), p.release pkt)

namespace Tag

def sendPacketCalls : StateM Pool Unit := do
  let pktret ← allocpkt
  send pktret

/- The reply is allocated before the reader is looked at. -/
def recvTrackingCalls
    (t : Tag)
    (hdr : Header) : StateM Pool Tag := do
  let pktret ← allocpkt
  if hdr.singularization = SING_NOSINGULARIZATION then
    if hdr.id ≠ t.id then
      send pktret
  else
    if hdr.id ≠ t.id then
      schedule pktret
  return t

def drawAndReplyCalls
    (t : Tag)
    (u : Rat) : StateM Pool Tag := do
  let t := t.updateSlot u
  if t.slot = 0 then
    sendPacketCalls
    return { t with state := .T_REPLY }
  else
    return { t with state := .T_ARBITRATE }

def recvStandardCalls
    (t : Tag)
    (hdr : Header)
    (u : Rat) : StateM Pool Tag := do
  let t := { t with memory := hdr.qValue }
  if hdr.command = Command.RC_QUERY.code ∧ t.state ≠ .T_ACKNOWLEDGED then
    ({ t with id := hdr.id } : Tag).drawAndReplyCalls u
  else if hdr.command = Command.RC_QUERY.code ∧
      t.state = .T_ACKNOWLEDGED then
    if hdr.mechanism = 0 ∨ t.id ≠ hdr.id then
      ({ t with
        id := hdr.id
        state := .T_READY } : Tag).drawAndReplyCalls u
    else
      return t
  else if hdr.command = Command.RC_QUERYADJUST.code ∧
      t.state ≠ .T_ACKNOWLEDGED then
    ({ t with id := hdr.id } : Tag).drawAndReplyCalls u
  else if hdr.command = Command.RC_QUERYREPLY.code ∧
      hdr.tagEPC = t.tagEPC then
    sendPacketCalls
    return { t with
      id := hdr.id
      state := .T_ACKNOWLEDGED
      slot := t.slot - 1 }
  else if hdr.command = Command.RC_QUERYREPLY.code ∧
      hdr.tagEPC = IP_BROADCAST ∧ 0 < t.slot then
    let t := { t with id := hdr.id }
    if t.state ≠ .T_ACKNOWLEDGED then
      let t := { t with slot := t.slot - 1 }
      if t.slot = 0 then
        sendPacketCalls
        return { t with state := .T_REPLY }
      else
        return { t with state := .T_ARBITRATE }
    else
      return t
  else
    return t

/- No command is both that of a round and that of its end. -/
def recvEstimationCalls
    (t : Tag)
    (hdr : Header)
    (u : Rat) : StateM Pool Tag := do
  let t := { t with memory := hdr.qValue }
  if hdr.command = Command.RC_EST.code then
    ({ t with
      state := .T_ARBITRATE } : Tag).drawAndReplyCalls u
  else if hdr.command = Command.RC_EST_FINISH.code then
    return { t with state := .T_READY }
  else
    return t

def replyInSlotCalls
    (t : Tag)
    (hdr : Header) : StateM Pool Tag := do
  if hdr.slotNumber = t.slot then
    sendPacketCalls
    return { t with state := .T_REPLY }
  else
    return t

def drawFrameCalls
    (t : Tag)
    (hdr : Header)
    (u : Rat) : StateM Pool Tag :=
  ({ t with
    memory := hdr.qValue
    state := .T_ARBITRATE }.updateSlot2 u).replyInSlotCalls
      hdr

def recvEdfsaCalls
    (t : Tag)
    (hdr : Header)
    (u : Rat) : StateM Pool Tag := do
  if hdr.command = Command.RC_QUERY.code ∧ t.state ≠ .T_ACKNOWLEDGED then
    if hdr.reply = 0 then
      t.drawFrameCalls hdr u
    else if 0 < hdr.reply then
      if hdr.reply = t.slot then
        ({ t with
          memory2 := hdr.reply } : Tag).drawFrameCalls hdr u
      else if hdr.reply = t.memory2 then
        t.drawFrameCalls hdr u
      else
        return t
    else
      return t
  else if hdr.command = Command.RC_SING.code ∧
      t.state ≠ .T_ACKNOWLEDGED then
    if hdr.reply = 0 then
      t.replyInSlotCalls hdr
    else if 0 < hdr.reply then
      if hdr.reply = t.memory2 then
        t.replyInSlotCalls hdr
      else
        return t
    else
      return t
  else if hdr.command = Command.RC_QUERYREPLY.code ∧
      t.state ≠ .T_ACKNOWLEDGED then
    return { t with state := .T_ACKNOWLEDGED }
  else
    return t

/- A packet that no reader sent is freed. -/
def recvFlowCalls
    (t : Tag)
    (pkt : Nat)
    (hdr : Header)
    (u : Rat) : StateM Pool Tag := do
  if hdr.tipo = Flow.rt.code then
    if hdr.service = Service.tracking.code then
      t.recvTrackingCalls hdr
    else if hdr.service = Service.standard.code then
      t.recvStandardCalls hdr u
    else if hdr.service = Service.ebtsa.code then
      t.recvEstimationCalls hdr u
    else if hdr.service = Service.edfsa.code then
      t.recvEdfsaCalls hdr u
    else
      return t
  else if hdr.tipo = Flow.rtAck.code then
    return { t with id := hdr.id }
  else
    free pkt
    return t

/- Every packet is freed at the end. -/
def recvCalls
    (t : Tag)
    (pkt : Nat)
    (hdr : Header)
    (u : Rat) : StateM Pool Tag := do
  let t ← t.recvFlowCalls pkt hdr u
  free pkt
  return t

end Tag

namespace Reader

def hearHeader
    (r : Reader)
    (hdr : Header) : Reader :=
  { r with
    tagEPC := hdr.tagEPC
    tagIP := hdr.saddr
    rng16 := hdr.rng16 }

/- The confirmation that a tracked tag gets. -/
def trackingCalls
    (r : Reader)
    (hdr : Header) : StateM Pool Reader := do
  if hdr.ack = 1 then
    let pktret ← allocpkt
    send pktret
    return r
  else
    return r

def recvFlowCalls
    (r : Reader)
    (hdr : Header) : StateM Pool Reader := do
  if hdr.tipo = Flow.tr.code ∧ hdr.id = r.id ∧
      hdr.service = Service.tracking.code then
    r.trackingCalls hdr
  else if hdr.tipo = Flow.tr.code ∧ hdr.id = r.id ∧
      hdr.service = Service.standard.code then
    return { r.hearHeader hdr with
      counter :=
        if hdr.command = Command.TC_REPLY.code then 0
        else r.counter + 1 }
  else if hdr.tipo = Flow.tr.code ∧ hdr.id = r.id ∧
      hdr.service = Service.ebtsa.code then
    return { r.hearHeader hdr with
      counter :=
        if hdr.command = Command.TR_EST_REPLY.code then
          r.counter + 1
        else r.counter }
  else if hdr.tipo = Flow.tr.code ∧ hdr.id = r.id ∧
      hdr.service = Service.edfsa.code then
    return { r.hearHeader hdr with
      counter :=
        if hdr.command = Command.TC_REPLY.code then
          r.counter + 1
        else r.counter }
  else
    return r

def recvCalls
    (r : Reader)
    (pkt : Nat)
    (hdr : Header) : StateM Pool Reader := do
  let r ← r.recvFlowCalls hdr
  free pkt
  return r

end Reader

end Rfid

end Ns2

------------------------------------------------------------
-- Replies
------------------------------------------------------------

namespace Ns2

namespace Rfid

open TokenPool

/- Each reply is a packet that is allocated and sent. -/
def sentAll
    (p : Pool) :
    List Packet → Pool
| [] => p
| _ :: out => sentAll p.sent out

theorem Command.ofCode_eq_iff
    {c : Command}
    (hAck : c ≠ .RC_ACK)
    (hNak : c ≠ .RC_NAK)
    (n : Int) :
    Command.ofCode n = c ↔ n = c.code := by
  constructor
  · intro h
    unfold ofCode at h
    split at h
    all_goals
      subst h
      first
        | rfl
        | exact absurd rfl hAck
  · rintro rfl
    cases c with
    | RC_ACK => exact absurd rfl hAck
    | RC_NAK => exact absurd rfl hNak
    | _ => rfl

theorem Service.ofCode_of_unknown
    {n : Int}
    (hTrack : ¬ n = Service.tracking.code)
    (hStandard : ¬ n = Service.standard.code)
    (hEbtsa : ¬ n = Service.ebtsa.code)
    (hEdfsa : ¬ n = Service.edfsa.code) :
    Service.ofCode n = .noservice := by
  unfold ofCode
  split
  · exact absurd rfl hTrack
  · exact absurd rfl hStandard
  · exact absurd rfl hEbtsa
  · exact absurd rfl hEdfsa
  · rfl

theorem Flow.ofCode_eq_tr_iff (n : Int) :
    Flow.ofCode .rt n = .tr ↔ n = Flow.tr.code := by
  constructor
  · intro h
    unfold ofCode at h
    split at h
    · cases h
    · rfl
    · cases h
    · cases h
  · rintro rfl
    rfl

/- What a tag reads of a packet is what the header says. -/
structure Header.Encodes
    (hdr : Header)
    (q : Packet) : Prop where
  id : q.id = hdr.id
  tagEPC : q.tagEPC = hdr.tagEPC
  qValue : q.qValue = hdr.qValue
  slotNumber : q.slotNumber = hdr.slotNumber
  reply : q.reply = hdr.reply
  mechanism : q.mechanism = hdr.mechanism
  command : ∀ c : Command, c ≠ .RC_ACK → c ≠ .RC_NAK →
    (q.command = c ↔ hdr.command = c.code)

theorem Header.encodes_decode
    (hdr : Header)
    (other : Flow) :
    hdr.Encodes (hdr.decode other) :=
  ⟨rfl, rfl, rfl, rfl, rfl, rfl,
    fun _ hAck hNak => Command.ofCode_eq_iff hAck hNak _⟩

namespace Tag

variable (t : Tag)
variable {hdr : Header}
variable {q : Packet}
variable (u : Rat)
variable (p : Pool)

theorem drawAndReplyCalls_eq
    (q : Packet)
    (command : Command) :
    t.drawAndReplyCalls u p =
      ((t.drawAndReply q u command).1,
        sentAll p (t.drawAndReply q u command).2) := by
  unfold drawAndReplyCalls drawAndReply
  dsimp only
  split_ifs
  · rfl
  · rfl

theorem recvStandardCalls_eq
    (hq : hdr.Encodes q) :
    t.recvStandardCalls hdr u p =
      ((t.recvStandard q u).1,
        sentAll p (t.recvStandard q u).2) := by
  have hQuery := hq.command .RC_QUERY (by decide) (by decide)
  have hAdjust := hq.command .RC_QUERYADJUST
    (by decide) (by decide)
  have hReply := hq.command .RC_QUERYREPLY
    (by decide) (by decide)
  unfold recvStandardCalls recvStandard
  simp only [hQuery, hAdjust, hReply, hq.id, hq.tagEPC,
    hq.qValue, hq.mechanism]
  split_ifs
  all_goals first
    | rfl
    | exact drawAndReplyCalls_eq _ u p q _

theorem recvEstimationCalls_eq
    (hq : hdr.Encodes q) :
    t.recvEstimationCalls hdr u p =
      ((t.recvEstimation q u).1,
        sentAll p (t.recvEstimation q u).2) := by
  have hEst := hq.command .RC_EST (by decide) (by decide)
  have hFinish := hq.command .RC_EST_FINISH
    (by decide) (by decide)
  unfold recvEstimationCalls recvEstimation
  simp only [hEst, hFinish, hq.qValue]
  by_cases hRound : hdr.command = Command.RC_EST.code
  · rw [if_pos hRound, if_pos hRound]
    exact drawAndReplyCalls_eq _ u p q .TR_EST_REPLY
  · rw [if_neg hRound, if_neg hRound]
    split_ifs
    · rfl
    · rfl

theorem replyInSlotCalls_eq
    (hq : hdr.Encodes q) :
    t.replyInSlotCalls hdr p =
      ((t.replyInSlot q).1, sentAll p (t.replyInSlot q).2) := by
  unfold replyInSlotCalls replyInSlot
  simp only [hq.slotNumber]
  split_ifs
  · rfl
  · rfl

theorem drawFrameCalls_eq
    (hq : hdr.Encodes q) :
    t.drawFrameCalls hdr u p =
      ((t.drawFrame q u).1,
        sentAll p (t.drawFrame q u).2) := by
  unfold drawFrameCalls drawFrame
  rw [hq.qValue]
  exact replyInSlotCalls_eq _ p hq

theorem recvEdfsaCalls_eq
    (hq : hdr.Encodes q) :
    t.recvEdfsaCalls hdr u p =
      ((t.recvEdfsa q u).1,
        sentAll p (t.recvEdfsa q u).2) := by
  have hQuery := hq.command .RC_QUERY (by decide) (by decide)
  have hSing := hq.command .RC_SING (by decide) (by decide)
  have hReply := hq.command .RC_QUERYREPLY
    (by decide) (by decide)
  unfold recvEdfsaCalls recvEdfsa
  simp only [hQuery, hSing, hReply, hq.reply]
  split_ifs
  all_goals first
    | rfl
    | exact drawFrameCalls_eq _ u p hq
    | exact replyInSlotCalls_eq _ p hq

/- A tag that is tracked keeps a reply it does not send. -/
theorem recvTrackingCalls_eq
    (hq : hdr.Encodes q) :
    t.recvTrackingCalls hdr p =
      ((t.recvTracking q).1,
        if hdr.id = t.id then p.acquire.2
        else sentAll p (t.recvTracking q).2) := by
  unfold recvTrackingCalls recvTracking
  simp only [hq.id]
  by_cases hId : hdr.id = t.id
  · by_cases hSing :
        hdr.singularization = SING_NOSINGULARIZATION
    · simp [hId, hSing]
      rfl
    · simp [hId, hSing]
      rfl
  · by_cases hSing :
        hdr.singularization = SING_NOSINGULARIZATION
    · simp [hId, hSing]
      rfl
    · simp [hId, hSing]
      rfl

/- A delivery a tag deals with as the others do. -/
def Deals
    (t : Tag)
    (hdr : Header) : Prop :=
  (hdr.tipo = Flow.rt.code ∨ hdr.tipo = Flow.rtAck.code) ∧
    ¬ (hdr.tipo = Flow.rt.code ∧
      hdr.service = Service.tracking.code ∧ hdr.id = t.id)

instance
    (t : Tag)
    (hdr : Header) :
    Decidable (t.Deals hdr) :=
  inferInstanceAs (Decidable (_ ∧ _))

/- A tag deals with a packet as its reception says. -/
theorem recvFlowCalls_of_deals
    {t : Tag}
    {hdr : Header}
    (hDeals : t.Deals hdr)
    (pkt : Nat)
    (u : Rat)
    (p : Pool) :
    t.recvFlowCalls pkt hdr u p =
      ((t.recv (hdr.decode .tr) u).1,
        sentAll p (t.recv (hdr.decode .tr) u).2) := by
  have hq := hdr.encodes_decode .tr
  have hService : (hdr.decode .tr).service =
      Service.ofCode hdr.service := rfl
  unfold recvFlowCalls recv
  rcases hDeals with ⟨hRt | hAck, hTracking⟩
  · have hFlow : (hdr.decode .tr).tipo = .rt := by
      simp [Header.decode, hRt, Flow.code, Flow.ofCode]
    rw [hFlow, if_pos hRt]
    dsimp only
    split_ifs with hTrack hStandard hEbtsa hEdfsa
    · have hId : ¬ hdr.id = t.id :=
        fun hId => hTracking ⟨hRt, hTrack, hId⟩
      rw [hService, hTrack, recvTrackingCalls_eq t p hq,
        if_neg hId]
      rfl
    · rw [hService, hStandard]
      exact recvStandardCalls_eq t u p hq
    · rw [hService, hEbtsa]
      exact recvEstimationCalls_eq t u p hq
    · rw [hService, hEdfsa]
      exact recvEdfsaCalls_eq t u p hq
    · rw [hService, Service.ofCode_of_unknown hTrack
        hStandard hEbtsa hEdfsa]
      rfl
  · have hFlow : (hdr.decode .tr).tipo = .rtAck := by
      simp [Header.decode, hAck, Flow.code, Flow.ofCode]
    have hRt : ¬ hdr.tipo = Flow.rt.code := by
      rw [hAck]
      decide
    rw [hFlow, if_neg hRt, if_pos hAck]
    rfl

/- A tracked tag leaves a packet behind. -/
theorem recvFlowCalls_of_tracked
    {t : Tag}
    {hdr : Header}
    (hRt : hdr.tipo = Flow.rt.code)
    (hTracking : hdr.service = Service.tracking.code)
    (hId : hdr.id = t.id)
    (pkt : Nat)
    (u : Rat)
    (p : Pool) :
    t.recvFlowCalls pkt hdr u p = (t, p.acquire.2) := by
  unfold recvFlowCalls
  rw [if_pos hRt, if_pos hTracking,
    recvTrackingCalls_eq t p (hdr.encodes_decode .tr),
    if_pos hId]
  rfl

theorem recvFlowCalls_of_unknown
    {t : Tag}
    {hdr : Header}
    (hRt : ¬ hdr.tipo = Flow.rt.code)
    (hAck : ¬ hdr.tipo = Flow.rtAck.code)
    (pkt : Nat)
    (u : Rat)
    (p : Pool) :
    t.recvFlowCalls pkt hdr u p = (t, p.release pkt) := by
  unfold recvFlowCalls
  rw [if_neg hRt, if_neg hAck]
  rfl

end Tag

namespace Reader

theorem trackingCalls_eq
    (r : Reader)
    (hdr : Header)
    (q : Packet)
    (p : Pool) :
    r.trackingCalls hdr p =
      (r, sentAll p
        (if hdr.ack = 1 then [r.trackingAck q] else [])) := by
  unfold trackingCalls
  split_ifs
  · rfl
  · rfl

/- A reader deals with a packet as its reception says. -/
theorem recvFlowCalls_eq
    (r : Reader)
    (hdr : Header)
    (p : Pool) :
    r.recvFlowCalls hdr p =
      ((r.recv (hdr.decode .rt)).1,
        sentAll p (r.recv (hdr.decode .rt)).2) := by
  have hTipo : (hdr.decode .rt).tipo = .tr ↔
      hdr.tipo = Flow.tr.code := Flow.ofCode_eq_tr_iff _
  have hCommand : ∀ {c : Command}, c ≠ .RC_ACK →
      c ≠ .RC_NAK → ((hdr.decode .rt).command = c ↔
        hdr.command = c.code) :=
    (hdr.encodes_decode .rt).command _
  have hService : (hdr.decode .rt).service =
      Service.ofCode hdr.service := rfl
  unfold recvFlowCalls recv
  by_cases hMine : hdr.tipo = Flow.tr.code ∧ hdr.id = r.id
  · have hMine' : (hdr.decode .rt).tipo = .tr ∧
        (hdr.decode .rt).id = r.id :=
      ⟨hTipo.mpr hMine.1, hMine.2⟩
    rw [if_pos hMine', hService]
    simp only [hMine.1, hMine.2, true_and]
    by_cases hTrack : hdr.service = Service.tracking.code
    · rw [if_pos hTrack, hTrack]
      exact trackingCalls_eq r hdr _ p
    rw [if_neg hTrack]
    by_cases hStandard : hdr.service = Service.standard.code
    · have hReply := hCommand (c := .TC_REPLY)
        (by decide) (by decide)
      rw [if_pos hStandard, hStandard]
      simp only [Service.ofCode, Service.code, hReply]
      rfl
    rw [if_neg hStandard]
    by_cases hEbtsa : hdr.service = Service.ebtsa.code
    · have hReply := hCommand (c := .TR_EST_REPLY)
        (by decide) (by decide)
      rw [if_pos hEbtsa, hEbtsa]
      simp only [Service.ofCode, Service.code, hReply]
      rfl
    rw [if_neg hEbtsa]
    by_cases hEdfsa : hdr.service = Service.edfsa.code
    · have hReply := hCommand (c := .TC_REPLY)
        (by decide) (by decide)
      rw [if_pos hEdfsa, hEdfsa]
      simp only [Service.ofCode, Service.code, hReply]
      rfl
    rw [if_neg hEdfsa, Service.ofCode_of_unknown hTrack
      hStandard hEbtsa hEdfsa]
    rfl
  · have hMine' : ¬ ((hdr.decode .rt).tipo = .tr ∧
        (hdr.decode .rt).id = r.id) :=
      fun h => hMine ⟨hTipo.mp h.1, h.2⟩
    have hNot : ∀ s : Service, ¬ (hdr.tipo = Flow.tr.code ∧
        hdr.id = r.id ∧ hdr.service = s.code) :=
      fun s h => hMine ⟨h.1, h.2.1⟩
    rw [if_neg hMine', if_neg (hNot .tracking),
      if_neg (hNot .standard), if_neg (hNot .ebtsa),
      if_neg (hNot .edfsa)]
    rfl

end Reader

end Rfid

end Ns2

------------------------------------------------------------
-- Calls of a Reception
------------------------------------------------------------

namespace Ns2

namespace Rfid

open TokenPool

/- A tag replies at most once. -/
theorem Tag.length_recv_le
    (t : Tag)
    (q : Packet)
    (u : Rat) :
    (t.recv q u).2.length ≤ 1 := by
  have hDraw : ∀ (t : Tag) (command : Command),
      (t.drawAndReply q u command).2.length ≤ 1 := by
    intro t command
    unfold drawAndReply
    dsimp only
    split_ifs
    · exact Nat.le_refl 1
    · exact Nat.zero_le 1
  have hSlot : ∀ t : Tag,
      (t.replyInSlot q).2.length ≤ 1 := by
    intro t
    unfold replyInSlot
    split_ifs
    · exact Nat.le_refl 1
    · exact Nat.zero_le 1
  have hFrame : ∀ t : Tag, (t.drawFrame q u).2.length ≤ 1 :=
    fun t => hSlot _
  unfold recv
  split
  · split
    · unfold recvTracking
      dsimp only
      split_ifs
      · exact Nat.le_refl 1
      · exact Nat.zero_le 1
    · unfold recvStandard
      dsimp only
      split_ifs
      all_goals first
        | exact hDraw _ _
        | exact Nat.le_refl 1
        | exact Nat.zero_le 1
    · unfold recvEstimation
      dsimp only
      split_ifs
      all_goals first
        | exact Nat.le_refl 1
        | exact Nat.zero_le 1
    · unfold recvEdfsa
      split_ifs
      all_goals first
        | exact hFrame _
        | exact hSlot _
        | exact Nat.zero_le 1
    · exact Nat.zero_le 1
  · exact Nat.zero_le 1
  · exact Nat.zero_le 1

/- A reader confirms at most one packet. -/
theorem Reader.length_recv_le
    (r : Reader)
    (q : Packet) :
    (r.recv q).2.length ≤ 1 := by
  unfold recv
  by_cases hMine : q.tipo = .tr ∧ q.id = r.id
  · rw [if_pos hMine]
    cases q.service with
    | tracking =>
        dsimp only
        split_ifs
        · exact Nat.le_refl 1
        · exact Nat.zero_le 1
    | _ => exact Nat.zero_le 1
  · rw [if_neg hMine]
    exact Nat.zero_le 1

/- The packets sent by at most one reply. -/
theorem sentAll_of_length_le
    {out : List Packet}
    (hOut : out.length ≤ 1)
    (p : Pool) :
    sentAll p out = p ∨ sentAll p out = p.sent := by
  rcases out with _ | ⟨q, _ | ⟨q', out⟩⟩
  · exact Or.inl rfl
  · exact Or.inr rfl
  · simp at hOut

variable {p : Pool}
variable {used : List Nat}
variable {pkt : Nat}

/- A tag conserves packets exactly if it deals with them. -/
theorem Tag.conserves_iff
    (t : Tag)
    (hdr : Header)
    (u : Rat)
    (hp : p.Valid (pkt :: used))
    (hCalls : p.calls = []) :
    (Pool.Conserves pkt (t.recvCalls pkt hdr u p).2.calls ↔
      t.Deals hdr) ∧
    (t.recvCalls pkt hdr u p).2.Valid
      (used ++ (t.recvCalls pkt hdr u p).2.handed) := by
  have hFree : (t.recvCalls pkt hdr u p).2 =
      (t.recvFlowCalls pkt hdr u p).2.release pkt := rfl
  rw [hFree]
  by_cases hDeals : t.Deals hdr
  · rw [recvFlowCalls_of_deals hDeals]
    dsimp only
    rcases sentAll_of_length_le (length_recv_le t _ u) p with
      hSent | hSent
    · rw [hSent]
      rcases hp.end_release hCalls with ⟨hConserves, hValid⟩
      exact ⟨iff_of_true hConserves hDeals, hValid⟩
    · rw [hSent]
      rcases hp.end_reply hCalls with ⟨hConserves, hValid⟩
      exact ⟨iff_of_true hConserves hDeals, hValid⟩
  · by_cases hTracked : hdr.tipo = Flow.rt.code ∧
        hdr.service = Service.tracking.code ∧ hdr.id = t.id
    · rw [recvFlowCalls_of_tracked hTracked.1 hTracked.2.1
        hTracked.2.2]
      rcases hp.end_leak hCalls with ⟨hConserves, hValid⟩
      exact ⟨iff_of_false hConserves hDeals, hValid⟩
    · have hUnknown : ¬ (hdr.tipo = Flow.rt.code ∨
          hdr.tipo = Flow.rtAck.code) :=
        fun h => hDeals ⟨h, hTracked⟩
      rw [recvFlowCalls_of_unknown
        (fun h => hUnknown (Or.inl h))
        (fun h => hUnknown (Or.inr h))]
      rcases hp.end_again hCalls with ⟨hConserves, hValid⟩
      exact ⟨iff_of_false hConserves hDeals, hValid⟩

/- A reader always conserves packets. -/
theorem Reader.conserves
    (r : Reader)
    (hdr : Header)
    (hp : p.Valid (pkt :: used))
    (hCalls : p.calls = []) :
    Pool.Conserves pkt (r.recvCalls pkt hdr p).2.calls ∧
    (r.recvCalls pkt hdr p).2.Valid
      (used ++ (r.recvCalls pkt hdr p).2.handed) := by
  have hFree : (r.recvCalls pkt hdr p).2 =
      (r.recvFlowCalls hdr p).2.release pkt := rfl
  rw [hFree, recvFlowCalls_eq]
  dsimp only
  rcases sentAll_of_length_le (length_recv_le r _) p with
    hSent | hSent
  · rw [hSent]
    exact hp.end_release hCalls
  · rw [hSent]
    exact hp.end_reply hCalls

end Rfid

end Ns2

------------------------------------------------------------
-- Traffic
------------------------------------------------------------

namespace Ns2

namespace Rfid

open TokenPool

/- The packets that are free, and those in flight. -/
structure Traffic where
  pool : Pool
  flight : List Nat
deriving DecidableEq, Repr

/-
  Another agent sends a packet, or frees the `k`th packet in
  flight; or a tag or a reader, in any state, receives the
  `k`th packet in flight, with any header.
-/
inductive Event where
| create
| consume (k : Nat)
| tag (k : Nat) (t : Tag) (hdr : Header) (u : Rat)
| reader (k : Nat) (r : Reader) (hdr : Header)

/- A tag that receives a packet deals with it. -/
def Event.Dealt : Event → Prop
| .tag _ t hdr _ => t.Deals hdr
| _ => True

namespace Traffic

def empty : Traffic := ⟨Pool.empty, []⟩

/- The `k`th packet leaves, and what is passed on enters. -/
def deliver
    (w : Traffic)
    (k : Nat)
    (recv : Nat → Pool → Pool) : Option Traffic :=
  w.flight[k]?.map fun pkt =>
    let pool := recv pkt w.pool.clear
    ⟨pool, w.flight.eraseIdx k ++ pool.handed⟩

def act
    (w : Traffic) :
    Event → Option Traffic
| .create =>
    let next := w.pool.clear.acquire
    some ⟨next.2, w.flight ++ [next.1]⟩
| .consume k =>
    w.deliver k fun pkt pool => pool.release pkt
| .tag k t hdr u =>
    w.deliver k fun pkt pool => (t.recvCalls pkt hdr u pool).2
| .reader k r hdr =>
    w.deliver k fun pkt pool => (r.recvCalls pkt hdr pool).2

/- The packet that an agent receives, and what it calls. -/
def receptions
    (w : Traffic) :
    Event → List (Nat × List TokenPool.Call)
| .tag k t hdr u =>
    w.flight[k]?.toList.map fun pkt =>
      (pkt, (t.recvCalls pkt hdr u w.pool.clear).2.calls)
| .reader k r hdr =>
    w.flight[k]?.toList.map fun pkt =>
      (pkt, (r.recvCalls pkt hdr w.pool.clear).2.calls)
| _ => []

/- The packets in flight are not free. -/
def Inv (w : Traffic) : Prop :=
  w.pool.Valid w.flight

/- A packet that is delivered was in flight. -/
theorem deliver_spec
    {w w' : Traffic}
    (hInv : w.Inv)
    {k : Nat}
    {recv : Nat → Pool → Pool}
    (hDeliver : w.deliver k recv = some w') :
    ∃ pkt, w.flight[k]? = some pkt ∧
      w.pool.clear.Valid (pkt :: w.flight.eraseIdx k) ∧
      w' = ⟨recv pkt w.pool.clear, w.flight.eraseIdx k ++
        (recv pkt w.pool.clear).handed⟩ := by
  rcases Option.map_eq_some_iff.mp hDeliver with
    ⟨pkt, hGet, rfl⟩
  refine ⟨pkt, hGet, ?_, rfl⟩
  have hClear : w.pool.clear.Valid w.flight :=
    ⟨hInv.nodup, hInv.made⟩
  rcases World.split_at_index hGet with ⟨hFlight, hErase⟩
  rw [hErase]
  rw [hFlight] at hClear
  exact hClear.perm List.perm_middle

/- The packets in flight stay apart from the free ones. -/
theorem Inv.act
    {w w' : Traffic}
    (hInv : w.Inv)
    {e : Event}
    (hAct : w.act e = some w') :
    w'.Inv := by
  cases e with
  | create =>
      cases hAct
      have hClear : w.pool.clear.Valid w.flight :=
        ⟨hInv.nodup, hInv.made⟩
      exact hClear.acquire.perm
        (List.perm_append_singleton _ _).symm
  | consume k =>
      rcases deliver_spec hInv hAct with ⟨pkt, _, hp, rfl⟩
      exact (hp.end_release rfl).2
  | tag k t hdr u =>
      have hDeliver : w.deliver k (fun pkt pool =>
          (t.recvCalls pkt hdr u pool).2) = some w' := hAct
      rcases deliver_spec hInv hDeliver with ⟨pkt, _, hp, rfl⟩
      exact (t.conserves_iff hdr u hp rfl).2
  | reader k r hdr =>
      have hDeliver : w.deliver k (fun pkt pool =>
          (r.recvCalls pkt hdr pool).2) = some w' := hAct
      rcases deliver_spec hInv hDeliver with ⟨pkt, _, hp, rfl⟩
      exact (r.conserves hdr hp rfl).2

/- Packets are conserved when they are dealt with. -/
theorem Inv.conserves_iff
    {w w' : Traffic}
    (hInv : w.Inv)
    {e : Event}
    (hAct : w.act e = some w') :
    (∀ c ∈ w.receptions e, Pool.Conserves c.1 c.2) ↔
      e.Dealt := by
  cases e with
  | create => simp [receptions, Event.Dealt]
  | consume k => simp [receptions, Event.Dealt]
  | tag k t hdr u =>
      have hDeliver : w.deliver k (fun pkt pool =>
          (t.recvCalls pkt hdr u pool).2) = some w' := hAct
      rcases deliver_spec hInv hDeliver with
        ⟨pkt, hGet, hp, _⟩
      simp only [receptions, Event.Dealt, hGet]
      rw [← (t.conserves_iff hdr u hp rfl).1]
      simp
  | reader k r hdr =>
      have hDeliver : w.deliver k (fun pkt pool =>
          (r.recvCalls pkt hdr pool).2) = some w' := hAct
      rcases deliver_spec hInv hDeliver with
        ⟨pkt, hGet, hp, _⟩
      simp only [receptions, Event.Dealt, hGet]
      have hConserves := (r.conserves hdr hp rfl).1
      simpa using hConserves

/-
  In every run the agents conserve all packets they receive
  and allocate exactly if no tag receives a packet that is
  neither a reader's nor an acknowledgement, or a tracking
  packet of the reader it knows.
-/
theorem packets_conserved_iff
    (events : List Event) :
    (∀ c ∈ PartialRun.outputs act receptions empty events,
      Pool.Conserves c.1 c.2) ↔
    ∀ before e after w w',
      events = before ++ e :: after →
      PartialRun.run act empty before = some w →
      w.act e = some w' → e.Dealt := by
  have hEmpty : empty.Inv :=
    ⟨List.nodup_nil, fun k hk => by cases hk⟩
  exact PartialRun.forall_outputs_iff
    (fun _ _ _ hInv hAct => hInv.conserves_iff hAct)
    (fun _ _ _ hInv hAct _ => hInv.act hAct) hEmpty events

/-
  A tag frees the packet of another tag twice, and forgets
  the reply to a tracking packet of the reader it knows.
-/
theorem tag_loses_packets :
    PartialRun.outputs act receptions empty
      [.create, .tag 0 (Tag.new 5 1)
        ⟨7, 0, 1, 0, 1, 0, 0, 0, 0, 0, 0, 0, 2⟩ 0] =
      [(0, [.release 0, .releaseAgain 0])] ∧
    ¬ Pool.Conserves 0 [.release 0, .releaseAgain 0] ∧
    PartialRun.outputs act receptions empty
      [.create, .tag 0 { Tag.new 5 1 with id := 7 }
        ⟨7, 0, 0, 0, 1, 0, 0, 0, 0, 0, 0, 0, 2⟩ 0] =
      [(0, [.acquire 1, .release 0])] ∧
    ¬ Pool.Conserves 0 [.acquire 1, .release 0] := by
  refine ⟨by decide +kernel, ?_, by decide +kernel, ?_⟩
  · exact Pool.not_conserves_again 0
  · exact Pool.not_conserves_leak (by decide)

end Traffic

end Rfid

end Ns2
