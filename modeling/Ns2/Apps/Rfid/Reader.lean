import Ns2.Apps.Rfid.Tag

/-
  The reader of the RFID agents.

  The functions of the reader return its new state and the
  packets they send, in the order they are sent.  A timer is
  `true` while it is pending.  The frame size of the method
  of Eom and Lee is a fixed point of a formula with `exp` in
  floating-point numbers; the function `eomlee` stands for
  it, given the last frame size and the counts of collisions
  and successes.

  Main declarations:
    * `Reader`, `Reader.query`, `Reader.send_query_reply`
    * `Reader.start_sing`
    * `Reader.start_est`
    * `Reader.calculate_next_Q`, `Reader.start_edfsa`
    * `Reader.start_estimationDFSA`
    * `Reader.resolve_collisions`
    * `Reader.expireRs`, `Reader.expireCol`, `Reader.recv`
-/

------------------------------------------------------------
-- Reader State
------------------------------------------------------------

namespace Ns2

namespace Rfid

/- `addr` is the address of the agent. -/
structure Reader where
  id : Int
  tagEPC : Int
  singularization : Int
  service : Service
  qValue : Int
  Qfp : Rat
  rng16 : Rat
  counter : Int
  c : Rat
  slotCounter : Int
  collisions : Int
  idle : Int
  success : Int
  bigQ : Int
  total : Int
  uniqCounter : Int
  session : Int
  tagIP : Int
  mechanism : Int
  finalQ : Rat
  operation : Nat
  estCounter : Int
  estConstant : Int
  slotEstCounter : Int
  rebuttal : Int
  temp : Int
  tempSuc : Int
  suc : Int
  estMethod : Int
  subQValue : Int
  subSlotNumber : Int
  slotNumber : Int
  backlog : Int
  initialFrameSize : Int
  frameMultiplier : Rat
  rsTimer : Bool
  colTimer : Bool
  addr : Int
deriving DecidableEq, Repr

namespace Reader

/-
  A reader as its constructor and the default values of its
  bound variables leave it; what neither sets is 0.
-/
def new (addr : Int) : Reader where
  id := 12345
  tagEPC := 1
  singularization := 0
  service := .standard
  qValue := 4
  Qfp := 4
  rng16 := 0
  counter := 0
  c := 3 / 10
  slotCounter := 0
  collisions := 0
  idle := 0
  success := 0
  bigQ := 0
  total := 0
  uniqCounter := 1
  session := 0
  tagIP := 0
  mechanism := 0
  finalQ := 0
  operation := 0
  estCounter := 1
  estConstant := 3
  slotEstCounter := 0
  rebuttal := 0
  temp := 0
  tempSuc := 0
  suc := 0
  estMethod := 1
  subQValue := 0
  subSlotNumber := 0
  slotNumber := 0
  backlog := 2
  initialFrameSize := 3
  frameMultiplier := 67 / 100
  rsTimer := false
  colTimer := false
  addr := addr

end Reader

end Rfid

end Ns2

------------------------------------------------------------
-- Packets of the Reader
------------------------------------------------------------

namespace Ns2

namespace Rfid

namespace Reader

/- What every packet of the reader says. -/
def header
    (r : Reader)
    (command : Command)
    (qValue tagEPC daddr : Int) : Packet :=
  { Packet.alloc r.addr with
    id := r.id
    tipo := .rt
    singularization := r.singularization
    service := r.service
    command := command
    qValue := qValue
    tagEPC := tagEPC
    mechanism := r.mechanism
    daddr := daddr }

/- The only packet without a command, a code or a mechanism. -/
def resend (r : Reader) : Packet :=
  { Packet.alloc r.addr with
    id := r.id
    tipo := .rt
    singularization := r.singularization
    service := r.service
    daddr := IP_BROADCAST }

def query
    (r : Reader)
    (command : Command)
    (slotNumber rep : Int) : Packet :=
  { r.header command
      (if rep = 0 then r.qValue else r.subQValue)
      IP_BROADCAST IP_BROADCAST with
    reply := rep
    slotNumber := slotNumber }

def send_query (r : Reader) : Packet :=
  r.query .RC_QUERY 0 0

def finish
    (r : Reader)
    (dest : Int) : Packet :=
  r.header .RC_EST_FINISH (cround r.finalQ) dest dest

def send_query_estimate (r : Reader) : Packet :=
  r.header .RC_EST r.qValue IP_BROADCAST IP_BROADCAST

def send_query_ajust (r : Reader) : Packet :=
  r.header .RC_QUERYADJUST r.qValue IP_BROADCAST IP_BROADCAST

/- The reply goes to the tag that was heard last. -/
def send_query_reply (r : Reader) : Packet :=
  { r.header .RC_QUERYREPLY r.qValue r.tagEPC r.tagIP with
    rng16 := r.rng16 }

def send_query_reply_update_slot (r : Reader) : Packet :=
  r.header .RC_QUERYREPLY r.qValue IP_BROADCAST IP_BROADCAST

end Reader

end Rfid

end Ns2

------------------------------------------------------------
-- Reception
------------------------------------------------------------

namespace Ns2

namespace Rfid

namespace Reader

/- Remember the tag that sent the packet. -/
def hear
    (r : Reader)
    (hdr : Packet) : Reader :=
  { r with
    tagEPC := hdr.tagEPC
    tagIP := hdr.saddr
    rng16 := hdr.rng16 }

/- The confirmation that a tracked tag gets. -/
def trackingAck
    (r : Reader)
    (hdr : Packet) : Packet :=
  { Packet.alloc r.addr with
    tagEPC := hdr.tagEPC
    id := hdr.id
    tipo := .rtAck
    service := r.service
    singularization := r.singularization
    daddr := hdr.saddr }

def recv
    (r : Reader)
    (hdr : Packet) : Reader × List Packet :=
  if hdr.tipo = .tr ∧ hdr.id = r.id then
    match hdr.service with
    | .tracking =>
        (r, if hdr.ack = 1 then [r.trackingAck hdr] else [])
    | .standard =>
        -- The reply of an identified tag clears the counter.
        ({ r.hear hdr with
          counter :=
            if hdr.command = .TC_REPLY then 0
            else r.counter + 1 }, [])
    | .ebtsa =>
        ({ r.hear hdr with
          counter :=
            if hdr.command = .TR_EST_REPLY then r.counter + 1
            else r.counter }, [])
    | .edfsa =>
        ({ r.hear hdr with
          counter :=
            if hdr.command = .TC_REPLY then r.counter + 1
            else r.counter }, [])
    | .noservice => (r, [])
  else (r, [])

end Reader

end Rfid

end Ns2

------------------------------------------------------------
-- The Q Algorithm
------------------------------------------------------------

namespace Ns2

namespace Rfid

namespace Reader

/- The start command of a session of the Q algorithm. -/
def standard_query_tags
    (r : Reader) : Reader × List Packet :=
  let r :=
    { r with
      operation := 0
      bigQ := r.qValue
      collisions := 0
      idle := 0
      success := 0
      session := r.session + 1
      slotCounter := 0
      total := 0
      uniqCounter := 0 }
  ({ r with rsTimer := true }, [r.send_query])

/- Take over a new `Q`, and remember the biggest. -/
def setQ
    (r : Reader)
    (q : Int) : Reader :=
  { r with
    qValue := q
    bigQ := if r.bigQ ≤ q then q else r.bigQ }

/- `Qfp` moves within the range from 0 to 15. -/
def lowerQfp (r : Reader) : Rat :=
  let q := if 0 < r.Qfp - r.c then r.Qfp - r.c else 0
  if 15 < q then 15 else q

def raiseQfp (r : Reader) : Rat :=
  let q := if r.Qfp + r.c < 15 then r.Qfp + r.c else 15
  if q < 0 then 0 else q

/- Ask for new slots, or end the session at `Q = -1`. -/
def adjustOrStop
    (r : Reader) : Reader × List Packet :=
  if 0 < r.qValue then
    ({ r with rsTimer := true }, [r.send_query_ajust])
  else if r.qValue = 0 then
    let r := { r with qValue := r.qValue - 1 }
    ({ r with rsTimer := true }, [r.send_query_ajust])
  else (r, [])

/- A slot without a reply. -/
def singIdle
    (r : Reader) : Reader × List Packet :=
  let r := { r with idle := r.idle + 1, Qfp := r.lowerQfp }
  if r.qValue ≠ -1 then
    let r := r.setQ (cround r.Qfp)
    if r.qValue = -1 then (r, []) else r.adjustOrStop
  else r.adjustOrStop

/- A slot with one reply. -/
def singSuccess
    (r : Reader) : Reader × List Packet :=
  let r :=
    { r with
      uniqCounter := r.uniqCounter + 1
      success := r.success + 1
      total := r.total + r.collisions
      counter := 0 }
  ({ r with rsTimer := true },
    [r.send_query_reply, r.send_query_reply_update_slot])

/- A slot with a collision. -/
def singCollision
    (r : Reader) : Reader × List Packet :=
  let r :=
    { r with
      collisions := r.collisions + 1
      Qfp := r.raiseQfp }
  let r : Reader := { r.setQ (cround r.Qfp) with counter := 0 }
  if r.qValue = 15 then (r, [r.send_query_ajust])
  else ({ r with rsTimer := true }, [r.send_query_ajust])

/-
  Each of the three cases leaves the counter at 0, so no
  later case is taken after an earlier one.
-/
def start_sing
    (r : Reader) : Reader × List Packet :=
  let r := { r with slotCounter := r.slotCounter + 1 }
  if r.counter = 0 then r.singIdle
  else if r.counter = 1 then r.singSuccess
  else if 1 < r.counter then r.singCollision
  else (r, [])

end Reader

end Rfid

end Ns2

------------------------------------------------------------
-- Estimation
------------------------------------------------------------

namespace Ns2

namespace Rfid

namespace Reader

/- The start command of an estimation. -/
def standard_with_estimation
    (r : Reader) : Reader × List Packet :=
  let r :=
    { r with
      operation := 1
      estCounter := 1
      bigQ := r.qValue
      collisions := 0
      idle := 0
      success := 0
      session := r.session + 1
      slotCounter := 0
      total := 0
      uniqCounter := 0
      slotEstCounter := 0
      rebuttal := 0 }
  ({ r with rsTimer := true }, [r.send_query_estimate])

/- The start command of the proposed algorithm. -/
def estimation_dfsa_query
    (r : Reader) : Reader × List Packet :=
  let r :=
    { r with
      operation := 3
      estCounter := 1
      bigQ := r.qValue
      collisions := 0
      idle := 0
      success := 0
      suc := 0
      session := r.session + 1
      slotCounter := 0
      total := 0
      uniqCounter := 1
      slotEstCounter := 0
      rebuttal := 0 }
  ({ r with rsTimer := true }, [r.send_query_estimate])

/- End the estimation, or go on with framed ALOHA. -/
def finish_start
    (r : Reader)
    (dest method : Int) : Reader × List Packet :=
  if method = 4 then (r, [r.finish dest])
  else if method = 3 then
    let r :=
      { r with
        service := .edfsa
        estMethod := r.backlog
        operation := 4
        slotCounter := r.slotEstCounter
        qValue :=
          cround (pow2 r.qValue * r.frameMultiplier) }
    ({ r with rsTimer := true },
      [r.query .RC_QUERY r.uniqCounter 0])
  else (r, [])

def reset_est (r : Reader) : Reader :=
  { r with
    estCounter := 1
    collisions := 0
    idle := 0
    success := 0
    counter := 0 }

def update_Q
    (r : Reader)
    (soma : Int) : Reader :=
  let q :=
    if soma = 0 then r.Qfp - r.c
    else if soma = 1 then
      if 15 < r.Qfp + r.c then 4 else r.Qfp + r.c
    else r.Qfp
  { r with Qfp := q, qValue := cround q }

/- Ask for the next slot of the estimation. -/
def estimateNext
    (r : Reader) : Reader × List Packet :=
  ({ r with rsTimer := true }, [r.send_query_estimate])

def check_rebuttal
    (r : Reader) : Reader × List Packet :=
  if r.finalQ = r.Qfp then
    r.reset_est.finish_start IP_BROADCAST r.estMethod
  else
    let r :=
      { r with Qfp := r.finalQ, qValue := cround r.finalQ }
    { r.reset_est.update_Q 2 with rebuttal := 0 }.estimateNext

/- The end of a round: the decision about the next `Q`. -/
def estDecide
    (r : Reader) : Reader × List Packet :=
  if r.idle = r.estConstant then
    if r.rebuttal = 0 then
      (r.reset_est.update_Q 0).estimateNext
    else (r.update_Q 0).check_rebuttal
  else if r.collisions = r.estConstant then
    if r.rebuttal = 0 then
      (r.reset_est.update_Q 1).estimateNext
    else (r.update_Q 1).check_rebuttal
  else if r.collisions < r.estConstant ∧
      r.idle < r.estConstant then
    if r.rebuttal = 0 then
      let r :=
        { r with finalQ := r.Qfp, rebuttal := r.rebuttal + 1 }
      (r.reset_est.update_Q 2).estimateNext
    else r.check_rebuttal
  else (r, [])

def start_est
    (r : Reader) : Reader × List Packet :=
  let r := { r with slotEstCounter := r.slotEstCounter + 1 }
  let r :=
    if r.counter = 0 then { r with idle := r.idle + 1 } else r
  let r :=
    if r.counter = 1 then { r with success := r.success + 1 }
    else r
  let replies :=
    if r.counter = 1 then [r.send_query_reply] else []
  let r :=
    if 1 < r.counter then
      { r with collisions := r.collisions + 1 }
    else r
  let r := { r with estCounter := r.estCounter + 1 }
  let next :=
    if r.estCounter = r.estConstant + 1 then r.estDecide
    else r.estimateNext
  (next.1, replies ++ next.2)

end Reader

end Rfid

end Ns2

------------------------------------------------------------
-- Framed ALOHA
------------------------------------------------------------

namespace Ns2

namespace Rfid

namespace Reader

/- The start command of framed ALOHA. -/
def edfsa_query
    (r : Reader) : Reader × List Packet :=
  let r :=
    { r with
      operation := 2
      estCounter := 1
      bigQ := r.qValue
      collisions := 0
      idle := 0
      success := 0
      suc := 0
      session := r.session + 1
      slotCounter := 0
      total := 0
      uniqCounter := 1
      slotEstCounter := 0
      rebuttal := 0 }
  ({ r with rsTimer := true },
    [r.query .RC_QUERY r.uniqCounter 0])

/-
  The size of the next frame, if the estimation method is a
  known one.
-/
def frameSize
    (eomlee : Int → Int → Int → Int)
    (r : Reader)
    (col suc method rep : Int) : Option Int :=
  if method = 0 then some (2 * col)
  else if method = 1 then some (cround (239 / 100 * col))
  else if method = 2 then
    some (eomlee (if rep = 0 then r.qValue else r.subQValue)
      col suc)
  else if method = 3 then some (ctrunc (245 / 100 * col))
  else if method = 4 then some (ctrunc (262 / 100 * col))
  else none

/- Start a frame, of the whole session or of one slot. -/
def startFrame
    (r : Reader)
    (size rep : Int) : Reader × List Packet :=
  if rep = 0 then
    let r := { r with qValue := size }
    ({ r with rsTimer := true },
      [r.query .RC_QUERY r.uniqCounter rep])
  else
    let r := { r with subQValue := size }
    ({ r with colTimer := true },
      [r.query .RC_QUERY r.subSlotNumber rep])

/-
  A frame with collisions is followed by another one; after
  the last frame of a slot the session goes on with the next
  slot.
-/
def calculate_next_Q
    (eomlee : Int → Int → Int → Int)
    (r : Reader)
    (col suc method rep : Int) : Reader × List Packet :=
  if 0 < col then
    match r.frameSize eomlee col suc method rep with
    | some size => r.startFrame size rep
    | none => (r, [])
  else if rep ≠ 0 then
    let r :=
      { r with uniqCounter := r.slotNumber + 1, counter := 0 }
    ({ r with rsTimer := true },
      [r.query .RC_SING r.uniqCounter 0])
  else (r, [])

/- Count the slot that has ended. -/
def countSlot (r : Reader) : Reader :=
  if r.counter = 0 then { r with idle := r.idle + 1 }
  else if r.counter = 1 then
    { r with success := r.success + 1, suc := r.suc + 1 }
  else if 1 < r.counter then
    { r with collisions := r.collisions + 1 }
  else r

/- The reply to the tag of a slot with one reply. -/
def slotReply (r : Reader) : List Packet :=
  if r.counter = 1 then [r.send_query_reply] else []

/- Clear the counts of the frame, and keep the two of use. -/
def endFrame (r : Reader) : Reader :=
  { r with
    temp := r.collisions
    tempSuc := r.suc
    collisions := 0
    suc := 0
    idle := 0
    counter := 0 }

def start_edfsa
    (eomlee : Int → Int → Int → Int)
    (r : Reader) : Reader × List Packet :=
  let r :=
    { r with
      slotCounter := r.slotCounter + 1
      uniqCounter := r.uniqCounter + 1 }
  let replies := r.slotReply
  let r := r.countSlot
  if r.uniqCounter ≤ r.qValue then
    let r := { r with counter := 0 }
    ({ r with rsTimer := true },
      replies ++ [r.query .RC_SING r.uniqCounter 0])
  else
    let r := { r.endFrame with uniqCounter := 1 }
    let next :=
      r.calculate_next_Q eomlee r.temp r.tempSuc r.estMethod 0
    (next.1, replies ++ next.2)

end Reader

end Rfid

end Ns2

------------------------------------------------------------
-- Collision Resolution
------------------------------------------------------------

namespace Ns2

namespace Rfid

namespace Reader

/-
  Resolve the collision of the slot that has ended.  The
  slot counter leaves the frame, so that no slot of it is
  called before the collision is resolved.
-/
def descend
    (r : Reader) : Reader × List Packet :=
  let r :=
    { r with
      slotNumber := r.uniqCounter - 1
      uniqCounter := r.qValue + 1
      subQValue := r.initialFrameSize
      subSlotNumber := 1
      counter := 0
      collisions := 0
      suc := 0 }
  ({ r with colTimer := true },
    [r.query .RC_QUERY r.subSlotNumber r.slotNumber])

def start_estimationDFSA
    (r : Reader) : Reader × List Packet :=
  let r :=
    { r with
      slotCounter := r.slotCounter + 1
      uniqCounter := r.uniqCounter + 1 }
  let replies := r.slotReply
  let collided := r.counter
  let r := r.countSlot
  let next :=
    if 1 < collided then
      (r.descend.1, replies ++ r.descend.2)
    else (r, replies)
  let r := next.1
  if r.uniqCounter ≤ r.qValue then
    let r := { r with counter := 0 }
    ({ r with rsTimer := true },
      next.2 ++ [r.query .RC_SING r.uniqCounter 0])
  else next

def resolve_collisions
    (eomlee : Int → Int → Int → Int)
    (r : Reader) : Reader × List Packet :=
  let r :=
    { r with
      slotCounter := r.slotCounter + 1
      subSlotNumber := r.subSlotNumber + 1 }
  let replies := r.slotReply
  let r := r.countSlot
  if r.subSlotNumber ≤ r.subQValue then
    let r := { r with counter := 0 }
    ({ r with colTimer := true },
      replies ++ [r.query .RC_SING r.subSlotNumber r.slotNumber])
  else
    let r := { r.endFrame with subSlotNumber := 1 }
    let next :=
      r.calculate_next_Q eomlee r.temp r.tempSuc r.estMethod
        r.slotNumber
    (next.1, replies ++ next.2)

end Reader

end Rfid

end Ns2

------------------------------------------------------------
-- Timers
------------------------------------------------------------

namespace Ns2

namespace Rfid

namespace Reader

/- `RetransmitTimer::expire`. -/
def expireRs
    (eomlee : Int → Int → Int → Int)
    (r : Reader) : Reader × List Packet :=
  let r := { r with rsTimer := false }
  if r.operation = 0 then r.start_sing
  else if r.operation = 1 ∨ r.operation = 3 then r.start_est
  else if r.operation = 2 then r.start_edfsa eomlee
  else if r.operation = 4 then r.start_estimationDFSA
  else (r, [])

/- `CollisionsTimer::expire`. -/
def expireCol
    (eomlee : Int → Int → Int → Int)
    (r : Reader) : Reader × List Packet :=
  { r with colTimer := false }.resolve_collisions eomlee

end Reader

end Rfid

end Ns2
