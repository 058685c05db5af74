import Ns2.Apps.Rfid.Packet

/-
  The tag of the RFID agents.

  A tag answers the packets of a reader.  `recv` gets the
  value `u` that the random generator returns if the call
  draws a slot, and returns the tag and its replies.

  Main declarations:
    * `Tag`, `Tag.updateSlot`, `Tag.updateSlot2`
    * `Tag.sendPacket`
    * `Tag.recv`
-/

------------------------------------------------------------
-- Tag State
------------------------------------------------------------

namespace Ns2

namespace Rfid

inductive TagState where
| T_READY
| T_ARBITRATE
| T_REPLY
| T_ACKNOWLEDGED
| T_OPEN
| T_SECURED
| T_KILLED
deriving DecidableEq, Repr

/- The fields `recv` uses; `addr` is the address of the agent. -/
structure Tag where
  id : Int
  tagEPC : Int
  slot : Int
  rng16 : Rat
  memory : Int
  memory2 : Int
  state : TagState
  addr : Int
deriving DecidableEq, Repr

namespace Tag

/- A tag as its constructor leaves it. -/
def new (tagEPC addr : Int) : Tag where
  id := 0
  tagEPC := tagEPC
  slot := 0
  rng16 := 0
  memory := 0
  memory2 := -1
  state := .T_READY
  addr := addr

/- Draw a slot from 0 to `2^Q - 1`. -/
def updateSlot
    (t : Tag)
    (u : Rat) : Tag :=
  let rng16 := uniform u 0 (pow2 t.memory - 1)
  { t with
    rng16 := rng16
    slot :=
      if t.state ≠ .T_ACKNOWLEDGED then ctrunc rng16
      else t.slot }

/- Draw a slot from 1 to `Q`. -/
def updateSlot2
    (t : Tag)
    (u : Rat) : Tag :=
  let rng16 := uniform u 1 t.memory
  { t with
    rng16 := rng16
    slot :=
      if t.state ≠ .T_ACKNOWLEDGED then cround rng16
      else t.slot }

/- The reply to `pkt` with a command of its own. -/
def sendPacket
    (t : Tag)
    (pkt : Packet)
    (command : Command) : Packet :=
  { Packet.alloc t.addr with
    tagEPC := t.tagEPC
    id := pkt.id
    tipo := .tr
    service := pkt.service
    singularization := pkt.singularization
    command := command
    rng16 := t.rng16
    qValue := t.memory
    daddr := pkt.saddr }

end Tag

end Rfid

end Ns2

------------------------------------------------------------
-- Reception
------------------------------------------------------------

namespace Ns2

namespace Rfid

namespace Tag

/-
  A tracked tag tells its code to a new reader.  With random
  times the reply waits, which is a delay of its delivery.
-/
def recvTracking
    (t : Tag)
    (hdr : Packet) : Tag × List Packet :=
  let reply : Packet :=
    { Packet.alloc t.addr with
      tagEPC := t.tagEPC
      id := hdr.id
      tipo := .tr
      service := hdr.service
      ack := 1
      daddr := hdr.saddr }
  (t, if hdr.id ≠ t.id then [reply] else [])

/- Draw a slot and answer at once when it is the first. -/
def drawAndReply
    (t : Tag)
    (hdr : Packet)
    (u : Rat)
    (command : Command) : Tag × List Packet :=
  let t := t.updateSlot u
  if t.slot = 0 then
    let t := { t with state := .T_REPLY }
    (t, [t.sendPacket hdr command])
  else ({ t with state := .T_ARBITRATE }, [])

/- The Q algorithm. -/
def recvStandard
    (t : Tag)
    (hdr : Packet)
    (u : Rat) : Tag × List Packet :=
  let t := { t with memory := hdr.qValue }
  if hdr.command = .RC_QUERY ∧ t.state ≠ .T_ACKNOWLEDGED then
    { t with id := hdr.id }.drawAndReply hdr u .RC_QUERY
  else if hdr.command = .RC_QUERY ∧
      t.state = .T_ACKNOWLEDGED then
    if hdr.mechanism = 0 ∨ t.id ≠ hdr.id then
      { t with id := hdr.id, state := .T_READY }.drawAndReply
        hdr u .RC_QUERY
    else (t, [])
  else if hdr.command = .RC_QUERYADJUST ∧
      t.state ≠ .T_ACKNOWLEDGED then
    { t with id := hdr.id }.drawAndReply hdr u .RC_QUERYADJUST
  else if hdr.command = .RC_QUERYREPLY ∧
      hdr.tagEPC = t.tagEPC then
    let t :=
      { t with
        id := hdr.id
        state := .T_ACKNOWLEDGED
        slot := t.slot - 1 }
    (t, [t.sendPacket hdr .TC_REPLY])
  else if hdr.command = .RC_QUERYREPLY ∧
      hdr.tagEPC = IP_BROADCAST ∧ 0 < t.slot then
    let t := { t with id := hdr.id }
    if t.state ≠ .T_ACKNOWLEDGED then
      let t := { t with slot := t.slot - 1 }
      if t.slot = 0 then
        let t := { t with state := .T_REPLY }
        (t, [t.sendPacket hdr .RC_QUERYREPLY])
      else ({ t with state := .T_ARBITRATE }, [])
    else (t, [])
  else (t, [])

/- The rounds that estimate the number of tags. -/
def recvEstimation
    (t : Tag)
    (hdr : Packet)
    (u : Rat) : Tag × List Packet :=
  let t := { t with memory := hdr.qValue }
  if hdr.command = .RC_EST then
    let t := { t with state := .T_ARBITRATE }.updateSlot u
    if t.slot = 0 then
      let t := { t with state := .T_REPLY }
      (t, [t.sendPacket hdr .TR_EST_REPLY])
    else ({ t with state := .T_ARBITRATE }, [])
  else if hdr.command = .RC_EST_FINISH then
    ({ t with state := .T_READY }, [])
  else (t, [])

/- Answer in the slot the packet calls. -/
def replyInSlot
    (t : Tag)
    (hdr : Packet) : Tag × List Packet :=
  if hdr.slotNumber = t.slot then
    let t := { t with state := .T_REPLY }
    (t, [t.sendPacket hdr .TC_REPLY])
  else (t, [])

/- Draw a slot of a new frame. -/
def drawFrame
    (t : Tag)
    (hdr : Packet)
    (u : Rat) : Tag × List Packet :=
  let t :=
    { t with
      memory := hdr.qValue
      state := .T_ARBITRATE }.updateSlot2 u
  t.replyInSlot hdr

/-
  Framed ALOHA.  A frame with a positive `reply` is for the
  tags that collided in that slot of the main frame.
-/
def recvEdfsa
    (t : Tag)
    (hdr : Packet)
    (u : Rat) : Tag × List Packet :=
  if hdr.command = .RC_QUERY ∧ t.state ≠ .T_ACKNOWLEDGED then
    if hdr.reply = 0 then t.drawFrame hdr u
    else if 0 < hdr.reply then
      if hdr.reply = t.slot then
        { t with memory2 := hdr.reply }.drawFrame hdr u
      else if hdr.reply = t.memory2 then t.drawFrame hdr u
      else (t, [])
    else (t, [])
  else if hdr.command = .RC_SING ∧
      t.state ≠ .T_ACKNOWLEDGED then
    if hdr.reply = 0 then t.replyInSlot hdr
    else if 0 < hdr.reply then
      if hdr.reply = t.memory2 then t.replyInSlot hdr
      else (t, [])
    else (t, [])
  else if hdr.command = .RC_QUERYREPLY ∧
      t.state ≠ .T_ACKNOWLEDGED then
    ({ t with state := .T_ACKNOWLEDGED }, [])
  else (t, [])

/- A packet that no reader sent is dropped. -/
def recv
    (t : Tag)
    (hdr : Packet)
    (u : Rat) : Tag × List Packet :=
  match hdr.tipo with
  | .rt =>
      match hdr.service with
      | .tracking => t.recvTracking hdr
      | .standard => t.recvStandard hdr u
      | .ebtsa => t.recvEstimation hdr u
      | .edfsa => t.recvEdfsa hdr u
      | .noservice => (t, [])
  | .rtAck => ({ t with id := hdr.id }, [])
  | .tr => (t, [])

end Tag

end Rfid

end Ns2
