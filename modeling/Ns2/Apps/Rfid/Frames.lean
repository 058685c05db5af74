import Ns2.Apps.Rfid.QAlgorithm
import Mathlib.Data.Fintype.Card

/-
  Slots of framed ALOHA.

  The reader calls the slots of a frame one after the other,
  and a called tag replies in the slot it drew.  The replies
  of a slot are those of the tags whose slot it is, and a tag
  whose slot has passed was part of a collision.  The packets
  of the reader are received in order: a frame that overtakes
  a query reply finds the tag still there.

  Main declarations:
    * `Tag.Called`, `Tag.recv_call`
    * `World.Contestant`, `World.Slot`
    * `World.Slot.within`, `World.Slot.next`
    * `World.Over`, `World.Slot.last`
-/

------------------------------------------------------------
-- Receptions of a Tag
------------------------------------------------------------

namespace Ns2

namespace Rfid

/- The packet that calls a slot of a frame. -/
structure Packet.IsCall
    (p : Packet)
    (r : Reader) : Prop where
  tipo : p.tipo = .rt
  service : p.service = .edfsa
  id : p.id = r.id
  daddr : p.daddr = IP_BROADCAST
  command : p.command = .RC_QUERY ∨ p.command = .RC_SING
  size : 1 ≤ p.qValue
  first : 1 ≤ p.slotNumber
  begins : p.command = .RC_QUERY → p.slotNumber = 1

/- The packet that acknowledges a tag. -/
structure Packet.IsAck (p : Packet) : Prop where
  tipo : p.tipo = .rt
  service : p.service = .edfsa
  command : p.command = .RC_QUERYREPLY
  daddr : p.daddr ≠ IP_BROADCAST

theorem Packet.IsCall.not_reply
    {p : Packet}
    {r : Reader}
    (hCall : p.IsCall r) :
    p.isQueryReply = false := by
  simp [isQueryReply, hCall.daddr]

theorem Packet.IsAck.is_reply
    {p : Packet}
    (hAck : p.IsAck) :
    p.isQueryReply = true := by
  simp [isQueryReply, hAck.command, hAck.daddr]

namespace Tag

/- Whether a call is meant for the tag. -/
def Called
    (t : Tag)
    (p : Packet) : Prop :=
  p.reply = 0 ∨
    0 < p.reply ∧ (p.reply = t.memory2 ∨
      p.command = .RC_QUERY ∧ p.reply = t.slot)

/-
  What a called tag does: it draws a slot when a frame begins,
  and replies in its slot.
-/
structure Answers
    (t : Tag)
    (p : Packet)
    (next : Tag × List Packet) : Prop where
  state : next.1.state ≠ .T_ACKNOWLEDGED
  called : next.1.Called p
  memory2 : next.1.memory2 =
    if p.reply = 0 then t.memory2 else p.reply
  kept : p.command = .RC_SING → next.1.slot = t.slot
  drawn : p.command = .RC_QUERY →
    1 ≤ next.1.slot ∧ next.1.slot ≤ p.qValue
  replies :
    next.1.slot = p.slotNumber ∧
        next.2 = [next.1.sendPacket p .TC_REPLY] ∨
      next.1.slot ≠ p.slotNumber ∧ next.2 = []

theorem replyInSlot_spec
    {t t' : Tag}
    {p : Packet}
    (hSame : t.Same t')
    (hState : t'.state ≠ .T_ACKNOWLEDGED)
    (hCalled : t'.Called p)
    (hMemory2 : t'.memory2 =
      if p.reply = 0 then t.memory2 else p.reply)
    (hKept : p.command = .RC_SING → t'.slot = t.slot)
    (hDrawn : p.command = .RC_QUERY →
      1 ≤ t'.slot ∧ t'.slot ≤ p.qValue) :
    t.Same (t'.replyInSlot p).1 ∧
      t.Answers p (t'.replyInSlot p) := by
  unfold replyInSlot
  by_cases hSlot : p.slotNumber = t'.slot
  · simp only [if_pos hSlot]
    refine ⟨⟨hSame.addr, hSame.tagEPC⟩, ?_⟩
    exact ⟨by simp, hCalled, hMemory2, hKept, hDrawn,
      Or.inl ⟨hSlot.symm, rfl⟩⟩
  · simp only [if_neg hSlot]
    exact ⟨hSame, hState, hCalled, hMemory2, hKept, hDrawn,
      Or.inr ⟨fun h => hSlot h.symm, rfl⟩⟩

theorem drawFrame_spec
    {t t' : Tag}
    {p : Packet}
    {u : Rat}
    (hu : 0 ≤ u)
    (hu' : u ≤ 1)
    (hSize : 1 ≤ p.qValue)
    (hCommand : p.command = .RC_QUERY)
    (hSame : t.Same t')
    (hMark : p.reply = 0 ∨
      0 < p.reply ∧ t'.memory2 = p.reply)
    (hMemory2 : t'.memory2 =
      if p.reply = 0 then t.memory2 else p.reply) :
    t.Same (t'.drawFrame p u).1 ∧
      t.Answers p (t'.drawFrame p u) := by
  simp only [drawFrame]
  apply replyInSlot_spec
  case hSame => exact ⟨hSame.addr, hSame.tagEPC⟩
  case hState => simp [updateSlot2]
  case hCalled =>
    rcases hMark with hAll | ⟨hPos, hMark⟩
    · exact Or.inl hAll
    · exact Or.inr ⟨hPos, Or.inl hMark.symm⟩
  case hMemory2 => exact hMemory2
  case hKept =>
    intro hSing
    rw [hCommand] at hSing
    cases hSing
  case hDrawn =>
    intro _
    simp only [updateSlot2, ne_eq, reduceCtorEq,
      not_false_eq_true, if_true]
    exact cround_uniform_bounds hu hu' hSize

theorem recv_edfsa
    {p : Packet}
    (hTipo : p.tipo = .rt)
    (hService : p.service = .edfsa)
    (t : Tag)
    (u : Rat) :
    t.recv p u = t.recvEdfsa p u := by
  simp only [recv, hTipo, hService]

/- A call leaves a tag as it is, or the tag answers. -/
theorem recv_call
    {p : Packet}
    {r : Reader}
    (hCall : p.IsCall r)
    (t : Tag)
    {u : Rat}
    (hu : 0 ≤ u)
    (hu' : u ≤ 1) :
    let next := t.recv p u
    t.Same next.1 ∧
      ((t.state = .T_ACKNOWLEDGED ∨ ¬t.Called p) ∧
          next = (t, []) ∨
        t.state ≠ .T_ACKNOWLEDGED ∧ t.Called p ∧
          t.Answers p next) := by
  rw [recv_edfsa hCall.tipo hCall.service]
  simp only [recvEdfsa]
  by_cases hState : t.state = .T_ACKNOWLEDGED
  · rw [if_neg fun h => h.2 hState, if_neg fun h => h.2 hState,
      if_neg fun h => h.2 hState]
    exact ⟨⟨rfl, rfl⟩, Or.inl ⟨Or.inl hState, rfl⟩⟩
  · rcases hCall.command with hQuery | hSing
    · rw [if_pos ⟨hQuery, hState⟩]
      by_cases hAll : p.reply = 0
      · rw [if_pos hAll]
        rcases @drawFrame_spec t t p u hu hu' hCall.size hQuery
            ⟨rfl, rfl⟩ (Or.inl hAll) (if_pos hAll).symm with
          ⟨hSame, hAnswers⟩
        exact ⟨hSame, Or.inr ⟨hState, Or.inl hAll, hAnswers⟩⟩
      · rw [if_neg hAll]
        by_cases hPos : 0 < p.reply
        · rw [if_pos hPos]
          by_cases hSlot : p.reply = t.slot
          · rw [if_pos hSlot]
            rcases @drawFrame_spec t
                { t with memory2 := p.reply } p u hu hu'
                hCall.size hQuery ⟨rfl, rfl⟩
                (Or.inr ⟨hPos, rfl⟩) (if_neg hAll).symm with
              ⟨hSame, hAnswers⟩
            exact ⟨hSame, Or.inr ⟨hState,
              Or.inr ⟨hPos, Or.inr ⟨hQuery, hSlot⟩⟩,
              hAnswers⟩⟩
          · rw [if_neg hSlot]
            by_cases hMark : p.reply = t.memory2
            · rw [if_pos hMark]
              rcases @drawFrame_spec t t p u hu hu' hCall.size
                  hQuery ⟨rfl, rfl⟩ (Or.inr ⟨hPos, hMark.symm⟩)
                  (by rw [if_neg hAll, hMark]) with
                ⟨hSame, hAnswers⟩
              exact ⟨hSame, Or.inr ⟨hState,
                Or.inr ⟨hPos, Or.inl hMark⟩, hAnswers⟩⟩
            · rw [if_neg hMark]
              refine ⟨⟨rfl, rfl⟩, Or.inl ⟨Or.inr ?_, rfl⟩⟩
              rintro (h | ⟨_, h | ⟨_, h⟩⟩)
              · exact hAll h
              · exact hMark h
              · exact hSlot h
        · rw [if_neg hPos]
          refine ⟨⟨rfl, rfl⟩, Or.inl ⟨Or.inr ?_, rfl⟩⟩
          rintro (h | ⟨h, _⟩)
          · exact hAll h
          · exact hPos h
    · rw [if_neg (by simp [hSing]), if_pos ⟨hSing, hState⟩]
      have hDrawn : p.command = .RC_QUERY →
          1 ≤ t.slot ∧ t.slot ≤ p.qValue := by
        intro hQuery
        rw [hSing] at hQuery
        cases hQuery
      by_cases hAll : p.reply = 0
      · rw [if_pos hAll]
        rcases @replyInSlot_spec t t p ⟨rfl, rfl⟩ hState
            (Or.inl hAll) (if_pos hAll).symm (fun _ => rfl)
            hDrawn with ⟨hSame, hAnswers⟩
        exact ⟨hSame, Or.inr ⟨hState, Or.inl hAll, hAnswers⟩⟩
      · rw [if_neg hAll]
        by_cases hMark : 0 < p.reply ∧ p.reply = t.memory2
        · rw [if_pos hMark.1, if_pos hMark.2]
          have hCalled : t.Called p :=
            Or.inr ⟨hMark.1, Or.inl hMark.2⟩
          rcases @replyInSlot_spec t t p ⟨rfl, rfl⟩ hState
              hCalled (by rw [if_neg hAll, hMark.2])
              (fun _ => rfl) hDrawn with ⟨hSame, hAnswers⟩
          exact ⟨hSame, Or.inr ⟨hState, hCalled, hAnswers⟩⟩
        · have hNone : (if 0 < p.reply then
              if p.reply = t.memory2 then t.replyInSlot p
              else (t, [])
            else (t, [])) = (t, []) := by
            split_ifs with hPos hEq
            · exact absurd ⟨hPos, hEq⟩ hMark
            · rfl
            · rfl
          rw [hNone]
          refine ⟨⟨rfl, rfl⟩, Or.inl ⟨Or.inr ?_, rfl⟩⟩
          rintro (h | ⟨hPos, h | ⟨h, _⟩⟩)
          · exact hAll h
          · exact hMark ⟨hPos, h⟩
          · rw [hSing] at h
            cases h

/- The query reply acknowledges the tag. -/
theorem recv_ack
    {p : Packet}
    (hAck : p.IsAck)
    {t : Tag}
    (hState : t.state ≠ .T_ACKNOWLEDGED)
    (u : Rat) :
    t.recv p u = ({ t with state := .T_ACKNOWLEDGED }, []) := by
  rw [recv_edfsa hAck.tipo hAck.service]
  simp only [recvEdfsa]
  rw [if_neg (by simp [hAck.command]),
    if_neg (by simp [hAck.command]),
    if_pos ⟨hAck.command, hState⟩]

end Tag

end Rfid

end Ns2

------------------------------------------------------------
-- Slots
------------------------------------------------------------

namespace Ns2

namespace Rfid

namespace World

variable {n : Nat}
variable {w w' : World n}
variable {target target' : Option (Fin n)}
variable {p p' : Packet}
variable {i j : Fin n}

/- Tag `i` waits for its acknowledgement to be sent. -/
def Waiting
    (w : World n)
    (target : Option (Fin n))
    (i : Fin n) : Prop :=
  (w.tags i).state ≠ .T_ACKNOWLEDGED ∧ target ≠ some i

/- What is in flight to tag `i`, before the call `p` if any. -/
inductive InFlight
    (target : Option (Fin n))
    (p : Packet)
    (i : Fin n) : List Packet → Prop
| received
    (hTarget : target ≠ some i) :
    InFlight target p i []
| call
    (hTarget : target ≠ some i) :
    InFlight target p i [p]
| both
    (ack : Packet)
    (hTarget : target = some i)
    (hAck : ack.IsAck) :
    InFlight target p i [ack, p]

/- What holds of tag `i` while the slot of the call `p` lasts. -/
structure Contestant
    (w : World n)
    (target : Option (Fin n))
    (p : Packet)
    (i : Fin n) : Prop where
  down : InFlight target p i (w.down i)
  entered : (w.tags i).state = .T_ACKNOWLEDGED → i ∈ w.entered
  alone : target = some i → w.polled = [i]
  range : w.Waiting target i → (w.tags i).Called p →
    w.down i = [] ∨ p.command = .RC_SING →
    1 ≤ (w.tags i).slot ∧ (w.tags i).slot ≤ p.qValue ∧
      ((w.tags i).slot < p.slotNumber →
        0 < w.reader.collisions)
  marked : w.Waiting target i → (w.tags i).Called p →
    w.down i = [] → p.reply ≠ 0 →
    (w.tags i).memory2 = p.reply
  replied : i ∈ w.replied ↔
    w.Waiting target i ∧ (w.tags i).Called p ∧
      w.down i = [] ∧ (w.tags i).slot = p.slotNumber

/- A reply of this slot that is in flight to the reader. -/
structure SlotReply
    (w : World n)
    (q : Packet) : Prop where
  tipo : q.tipo = .tr
  service : q.service = .edfsa
  id : q.id = w.reader.id
  command : q.command = .TC_REPLY
  sender : ∃ i ∈ w.replied, q.saddr = (w.tags i).addr

/- What holds while the slot of the call `p` lasts. -/
structure Slot
    (w : World n)
    (target : Option (Fin n))
    (p : Packet) : Prop where
  tally : w.Tally target
  service : w.reader.service = .edfsa
  addr_injective : ∀ i j,
    (w.tags i).addr = (w.tags j).addr → i = j
  addr_ne : ∀ i, (w.tags i).addr ≠ IP_BROADCAST
  call : p.IsCall w.reader
  contestants : ∀ i, w.Contestant target p i
  nodup : w.replied.Nodup
  counter : 0 ≤ w.reader.counter
  count : w.reader.counter + w.up.length = w.replied.length
  collisions : 0 ≤ w.reader.collisions
  replies : ∀ q ∈ w.up, w.SlotReply q
  heard : 0 < w.reader.counter →
    ∃ i ∈ w.replied, w.reader.tagIP = (w.tags i).addr

/- A tag that a step leaves alone. -/
theorem Contestant.frame
    (hContestant : w.Contestant target p i)
    (hTag : w'.tags i = w.tags i)
    (hDown : w'.down i = w.down i)
    (hTarget : target' = some i ↔ target = some i)
    (hEntered : i ∈ w.entered → i ∈ w'.entered)
    (hPolled : w'.polled = w.polled)
    (hReplied : i ∈ w'.replied ↔ i ∈ w.replied)
    (hCollisions :
      w'.reader.collisions = w.reader.collisions) :
    w'.Contestant target' p i := by
  have hWaiting : w'.Waiting target' i ↔ w.Waiting target i := by
    unfold Waiting
    rw [hTag, ne_eq target', hTarget]
  constructor
  case down =>
    have hFlight := hContestant.down
    rw [hDown]
    generalize w.down i = packets at hFlight ⊢
    cases hFlight with
    | received hOther =>
        exact .received fun h => hOther (hTarget.mp h)
    | call hOther =>
        exact .call fun h => hOther (hTarget.mp h)
    | both ack hThis hAck =>
        exact .both ack (hTarget.mpr hThis) hAck
  case entered =>
    rw [hTag]
    exact fun h => hEntered (hContestant.entered h)
  case alone =>
    rw [hTarget, hPolled]
    exact hContestant.alone
  case range =>
    rw [hWaiting, hTag, hDown, hCollisions]
    exact hContestant.range
  case marked =>
    rw [hWaiting, hTag, hDown]
    exact hContestant.marked
  case replied =>
    rw [hReplied, hWaiting, hTag, hDown]
    exact hContestant.replied

/- The packet that is received is the first one in flight. -/
theorem Slot.first_in_flight
    {before after : List Packet}
    {q : Packet}
    (hSlot : w.Slot target p)
    (hDown : w.down i = before ++ q :: after)
    (hOrder : ∀ q ∈ before, q.isQueryReply = false) :
    before = [] ∧
      (target ≠ some i ∧ q = p ∧ after = [] ∨
        target = some i ∧ q.IsAck ∧ after = [p]) := by
  have hFlight := (hSlot.contestants i).down
  rw [hDown] at hFlight
  generalize hAll : before ++ q :: after = packets at hFlight
  cases hFlight with
  | received hTarget => simp at hAll
  | call hTarget =>
      rcases List.append_eq_singleton_iff.mp hAll with
        ⟨hBefore, hRest⟩ | ⟨_, hRest⟩
      · simp only [List.cons.injEq] at hRest
        exact ⟨hBefore, Or.inl ⟨hTarget, hRest⟩⟩
      · cases hRest
  | both ack hTarget hAck =>
      cases before with
      | nil =>
          simp only [List.nil_append, List.cons.injEq] at hAll
          rcases hAll with ⟨rfl, hRest⟩
          exact ⟨rfl, Or.inr ⟨hTarget, hAck, hRest⟩⟩
      | cons first others =>
          simp only [List.cons_append, List.cons.injEq] at hAll
          rcases hAll with ⟨rfl, _⟩
          have hNot := hOrder first (List.mem_cons_self ..)
          rw [hAck.is_reply] at hNot
          cases hNot

end World

end Rfid

end Ns2

------------------------------------------------------------
-- Receptions in a Slot
------------------------------------------------------------

namespace Ns2

namespace Rfid

namespace World

variable {n : Nat}
variable {w w' : World n}
variable {target target' : Option (Fin n)}
variable {p p' : Packet}
variable {i j : Fin n}

/-
  What the reception of a packet or of a reply does to the
  tags that wait, and to the reader.
-/
structure Within
    (w w' : World n)
    (target target' : Option (Fin n))
    (p : Packet) : Prop where
  tags : ∀ i, w'.Waiting target' i →
    w.Waiting target i ∧
      (w'.tags i = w.tags i ∨
        (w.tags i).Called p ∧ (w'.tags i).Called p ∧
          (w'.tags i).memory2 =
            if p.reply = 0 then (w.tags i).memory2
            else p.reply)
  reader : ∃ tagEPC tagIP rng16 counter,
    w'.reader =
      { w.reader with
        tagEPC := tagEPC
        tagIP := tagIP
        rng16 := rng16
        counter := counter }
  mainPolled : w'.mainPolled = w.mainPolled

/- The target receives its query reply. -/
theorem Slot.receive_ack
    {q : Packet}
    (hSlot : w.Slot target p)
    (hDown : w.down i = [q, p])
    (hTarget : target = some i)
    (hAck : q.IsAck)
    (u : Rat) :
    (w.receive i q [p] u).Slot none p ∧
      w.Within (w.receive i q [p] u) target none p := by
  have hState := hSlot.tally.waiting i hTarget
  have hRecv := Tag.recv_ack hAck hState u
  have hOut : ((w.tags i).recv q u).2 = [] := by rw [hRecv]
  have hState' : ((w.tags i).recv q u).1.state =
      .T_ACKNOWLEDGED := by rw [hRecv]
  have hReplied := receive_replied_of_silent hOut [p]
  have hEntered : (w.receive i q [p] u).entered =
      w.entered ++ [i] := if_pos ⟨hState, hState'⟩
  have hUp : (w.receive i q [p] u).up = w.up := by
    rw [receive_up, hOut, List.append_nil]
  have hNot : ¬(w.receive i q [p] u).Waiting none i := by
    rintro ⟨h, _⟩
    rw [receive_tags_self] at h
    exact h hState'
  have hSilent : i ∉ w.replied := by
    rw [(hSlot.contestants i).replied]
    exact fun h => h.1.2 hTarget
  have hAddr : ∀ j, ((w.receive i q [p] u).tags j).addr =
      (w.tags j).addr := by
    intro j
    by_cases hji : j = i
    · subst hji
      rw [receive_tags_self, hRecv]
    · rw [receive_tags_ne w hji]
  constructor
  · constructor
    case tally =>
      exact @Tally.receive_reply _ _ _ hSlot.tally _ [] _ _
        hDown hAck.is_reply _ hState'
    case service => exact hSlot.service
    case addr_injective =>
      intro j k
      rw [hAddr, hAddr]
      exact hSlot.addr_injective j k
    case addr_ne =>
      intro j
      rw [hAddr]
      exact hSlot.addr_ne j
    case call => exact hSlot.call
    case contestants =>
      intro j
      by_cases hji : j = i
      · subst hji
        constructor
        case down =>
          rw [receive_down_self]
          exact .call (by simp)
        case entered =>
          intro _
          rw [hEntered]
          simp
        case alone =>
          intro h
          cases h
        case range => exact fun h => absurd h hNot
        case marked => exact fun h => absurd h hNot
        case replied =>
          rw [hReplied]
          exact iff_of_false hSilent fun h => hNot h.1
      · apply (hSlot.contestants j).frame
          (receive_tags_ne w hji ..) (receive_down_ne w hji ..)
        case hTarget =>
          rw [hTarget]
          simp [Ne.symm hji]
        case hEntered =>
          rw [hEntered]
          exact fun h => List.mem_append_left _ h
        case hPolled => rfl
        case hReplied => rw [hReplied]
        case hCollisions => rfl
    case nodup =>
      rw [hReplied]
      exact hSlot.nodup
    case counter => exact hSlot.counter
    case count =>
      rw [hUp, hReplied]
      exact hSlot.count
    case collisions => exact hSlot.collisions
    case replies =>
      intro q' hq'
      rw [hUp] at hq'
      have hOld := hSlot.replies q' hq'
      refine ⟨hOld.tipo, hOld.service, hOld.id, hOld.command, ?_⟩
      rcases hOld.sender with ⟨j, hj, hSender⟩
      exact ⟨j, hReplied ▸ hj, hSender.trans (hAddr j).symm⟩
    case heard =>
      intro hPos
      rcases hSlot.heard hPos with ⟨j, hj, hSender⟩
      exact ⟨j, hReplied ▸ hj, hSender.trans (hAddr j).symm⟩
  · constructor
    case tags =>
      intro j hWaiting
      by_cases hji : j = i
      · subst hji
        exact absurd hWaiting hNot
      · have hTag := receive_tags_ne w hji q [p] u
        refine ⟨⟨?_, ?_⟩, Or.inl hTag⟩
        · rw [← hTag]
          exact hWaiting.1
        · rw [hTarget]
          simp [Ne.symm hji]
    case reader =>
      exact ⟨w.reader.tagEPC, w.reader.tagIP, w.reader.rng16,
        w.reader.counter, rfl⟩
    case mainPolled => rfl

/- A tag receives the call. -/
theorem Slot.receive_call
    {u : Rat}
    (hSlot : w.Slot target p)
    (hDown : w.down i = [p])
    (hTarget : target ≠ some i)
    (hu : 0 ≤ u)
    (hu' : u ≤ 1) :
    (w.receive i p [] u).Slot target p ∧
      w.Within (w.receive i p [] u) target target p := by
  rcases Tag.recv_call hSlot.call (w.tags i) hu hu' with
    ⟨hSame, hNext⟩
  have hKeep : (w.tags i).state = .T_ACKNOWLEDGED ↔
      ((w.tags i).recv p u).1.state = .T_ACKNOWLEDGED := by
    rcases hNext with ⟨_, hSilent⟩ | ⟨hState, _, hAnswers⟩
    · rw [hSilent]
    · exact iff_of_false hState hAnswers.state
  have hEntered : (w.receive i p [] u).entered = w.entered :=
    receive_entered (fun h h' => h (hKeep.mpr h')) []
  have hBefore : i ∉ w.replied := by
    rw [(hSlot.contestants i).replied]
    intro h
    rw [hDown] at h
    exact absurd h.2.2.1 (by simp)
  have hAddr : ∀ j, ((w.receive i p [] u).tags j).addr =
      (w.tags j).addr := by
    intro j
    by_cases hji : j = i
    · subst hji
      rw [receive_tags_self]
      exact hSame.addr
    · rw [receive_tags_ne w hji]
  -- The tag is silent, or it replies in its slot.
  have hOut :
      (w.receive i p [] u).replied = w.replied ∧
          (w.receive i p [] u).up = w.up ∧
          ¬(w.Waiting target i ∧ (w.tags i).Called p ∧
            ((w.tags i).recv p u).1.slot = p.slotNumber) ∨
        (w.receive i p [] u).replied = w.replied ++ [i] ∧
          (w.receive i p [] u).up = w.up ++
            [((w.tags i).recv p u).1.sendPacket p .TC_REPLY] ∧
          w.Waiting target i ∧ (w.tags i).Called p ∧
            ((w.tags i).recv p u).1.slot = p.slotNumber := by
    rcases hNext with ⟨hIdle, hSilent⟩ | ⟨hState, hCalled, hAnswers⟩
    · have hNone : ((w.tags i).recv p u).2 = [] := by
        rw [hSilent]
      refine Or.inl ⟨receive_replied_of_silent hNone [], ?_, ?_⟩
      · rw [receive_up, hNone, List.append_nil]
      · rintro ⟨hWaiting, hCalled, _⟩
        rcases hIdle with hAcked | hNot
        · exact hWaiting.1 hAcked
        · exact hNot hCalled
    · rcases hAnswers.replies with ⟨hSlotNow, hReply⟩ |
        ⟨hLater, hNone⟩
      · refine Or.inr ⟨receive_replied_of_reply hReply [], ?_,
          ⟨hState, hTarget⟩, hCalled, hSlotNow⟩
        rw [receive_up, hReply]
      · refine Or.inl
          ⟨receive_replied_of_silent hNone [], ?_, ?_⟩
        · rw [receive_up, hNone, List.append_nil]
        · exact fun h => hLater h.2.2
  have hTag : ((w.receive i p [] u).tags i) =
      ((w.tags i).recv p u).1 := receive_tags_self ..
  have hWaiting : (w.receive i p [] u).Waiting target i ↔
      w.Waiting target i := by
    simp only [Waiting, hTag, ne_eq, hKeep]
  have hCalled : w.Waiting target i →
      (((w.tags i).recv p u).1.Called p ↔
        (w.tags i).Called p) := by
    intro hWait
    rcases hNext with ⟨_, hSilent⟩ | ⟨_, hCalled, hAnswers⟩
    · rw [hSilent]
    · exact iff_of_true hAnswers.called hCalled
  have hOther : ∀ j, j ≠ i →
      (j ∈ (w.receive i p [] u).replied ↔ j ∈ w.replied) := by
    intro j hji
    rcases hOut with ⟨hReplied, _⟩ | ⟨hReplied, _⟩
    · rw [hReplied]
    · rw [hReplied]
      simp [hji]
  have hMono : ∀ j ∈ w.replied,
      j ∈ (w.receive i p [] u).replied := by
    intro j hj
    rw [hOther j fun h => hBefore (h ▸ hj)]
    exact hj
  constructor
  · constructor
    case tally =>
      exact @Tally.receive_other _ _ _ hSlot.tally _ [] _ _
        hDown hSlot.call.not_reply _
        (fun h => hKeep.mp (hSlot.tally.acknowledged i h))
        (fun h h' => h (hKeep.mpr h'))
    case service => exact hSlot.service
    case addr_injective =>
      intro j k
      rw [hAddr, hAddr]
      exact hSlot.addr_injective j k
    case addr_ne =>
      intro j
      rw [hAddr]
      exact hSlot.addr_ne j
    case call => exact hSlot.call
    case contestants =>
      intro j
      by_cases hji : j = i
      · subst hji
        constructor
        case down =>
          rw [receive_down_self]
          exact .received hTarget
        case entered =>
          rw [hTag, ← hKeep, hEntered]
          exact (hSlot.contestants j).entered
        case alone => exact fun h => absurd h hTarget
        case range =>
          intro hWait hCall _
          rw [hTag] at hCall ⊢
          rw [hWaiting] at hWait
          have hRange := (hSlot.contestants j).range hWait
            ((hCalled hWait).mp hCall)
          rcases hNext with ⟨hIdle, _⟩ | ⟨_, _, hAnswers⟩
          · rcases hIdle with hAcked | hNot
            · exact absurd hAcked hWait.1
            · exact absurd ((hCalled hWait).mp hCall) hNot
          · rcases hSlot.call.command with hQuery | hSing
            · rcases hAnswers.drawn hQuery with ⟨hLow, hHigh⟩
              refine ⟨hLow, hHigh, fun hPassed => ?_⟩
              rw [hSlot.call.begins hQuery] at hPassed
              omega
            · rw [hAnswers.kept hSing]
              exact hRange (Or.inr hSing)
        case marked =>
          intro hWait hCall _ hReply
          rw [hTag] at hCall ⊢
          rw [hWaiting] at hWait
          rcases hNext with ⟨hIdle, _⟩ | ⟨_, _, hAnswers⟩
          · rcases hIdle with hAcked | hNot
            · exact absurd hAcked hWait.1
            · exact absurd ((hCalled hWait).mp hCall) hNot
          · rw [hAnswers.memory2, if_neg hReply]
        case replied =>
          rw [hWaiting, hTag, receive_down_self]
          rcases hOut with ⟨hReplied, _, hNot⟩ |
            ⟨hReplied, _, hWait, hCall, hNow⟩
          · rw [hReplied]
            refine iff_of_false hBefore ?_
            rintro ⟨hWait, hCall, _, hNow⟩
            exact hNot ⟨hWait, (hCalled hWait).mp hCall, hNow⟩
          · rw [hReplied]
            exact iff_of_true (by simp)
              ⟨hWait, (hCalled hWait).mpr hCall, rfl, hNow⟩
      · apply (hSlot.contestants j).frame
          (receive_tags_ne w hji ..) (receive_down_ne w hji ..)
          Iff.rfl
        case hEntered => rw [hEntered]; exact id
        case hPolled => rfl
        case hReplied => exact hOther j hji
        case hCollisions => rfl
    case nodup =>
      rcases hOut with ⟨hReplied, _⟩ | ⟨hReplied, _⟩
      · rw [hReplied]
        exact hSlot.nodup
      · rw [hReplied, List.nodup_append]
        refine ⟨hSlot.nodup, by simp, ?_⟩
        intro j hj k hk hEq
        cases List.mem_singleton.mp hk
        exact hBefore (hEq ▸ hj)
    case counter => exact hSlot.counter
    case count =>
      have hCount := hSlot.count
      rcases hOut with ⟨hReplied, hUp, _⟩ | ⟨hReplied, hUp, _⟩
      · rw [hReplied, hUp]
        exact hCount
      · rw [hReplied, hUp, receive_reader, List.length_append,
          List.length_append]
        push_cast
        simp only [List.length_singleton]
        omega
    case collisions => exact hSlot.collisions
    case replies =>
      have hOld : ∀ q ∈ w.up,
          (w.receive i p [] u).SlotReply q := by
        intro q hq
        have hOld := hSlot.replies q hq
        refine ⟨hOld.tipo, hOld.service, hOld.id, hOld.command,
          ?_⟩
        rcases hOld.sender with ⟨j, hj, hSender⟩
        exact ⟨j, hMono j hj, hSender.trans (hAddr j).symm⟩
      intro q hq
      rcases hOut with ⟨_, hUp, _⟩ | ⟨hReplied, hUp, _⟩
      · rw [hUp] at hq
        exact hOld q hq
      · rw [hUp] at hq
        rcases List.mem_append.mp hq with hq | hq
        · exact hOld q hq
        · cases List.mem_singleton.mp hq
          refine ⟨rfl, hSlot.call.service, hSlot.call.id, rfl, i,
            ?_, ?_⟩
          · rw [hReplied]
            simp
          · rw [hTag]
            rfl
    case heard =>
      intro hPos
      rcases hSlot.heard hPos with ⟨j, hj, hSender⟩
      exact ⟨j, hMono j hj, hSender.trans (hAddr j).symm⟩
  · constructor
    case tags =>
      intro j hWait
      by_cases hji : j = i
      · subst hji
        rw [hWaiting] at hWait
        rw [hTag]
        refine ⟨hWait, ?_⟩
        rcases hNext with ⟨_, hSilent⟩ | ⟨_, hCall, hAnswers⟩
        · exact Or.inl (by rw [hSilent])
        · exact Or.inr ⟨hCall, hAnswers.called, hAnswers.memory2⟩
      · have hTag := receive_tags_ne w hji p [] u
        refine ⟨⟨?_, hWait.2⟩, Or.inl hTag⟩
        rw [← hTag]
        exact hWait.1
    case reader =>
      exact ⟨w.reader.tagEPC, w.reader.tagIP, w.reader.rng16,
        w.reader.counter, rfl⟩
    case mainPolled => rfl

end World

end Rfid

end Ns2

------------------------------------------------------------
-- The Reader in a Slot
------------------------------------------------------------

namespace Ns2

namespace Rfid

namespace Reader

/- A reply of framed ALOHA is counted. -/
theorem recv_edfsa
    {r : Reader}
    {q : Packet}
    (hTipo : q.tipo = .tr)
    (hId : q.id = r.id)
    (hService : q.service = .edfsa)
    (hCommand : q.command = .TC_REPLY) :
    r.recv q =
      ({ r.hear q with counter := r.counter + 1 }, []) := by
  simp only [recv, hTipo, hId, hService, hCommand, and_self,
    if_true]

end Reader

namespace World

variable {n : Nat}
variable {w w' : World n}
variable {target target' : Option (Fin n)}
variable {p p' : Packet}
variable {i j : Fin n}

/- The reader hears a reply of the slot. -/
theorem Slot.answer
    {before after : List Packet}
    {q : Packet}
    (hSlot : w.Slot target p)
    (hUp : w.up = before ++ q :: after) :
    (w.answer q (before ++ after)).Slot target p ∧
      w.Within (w.answer q (before ++ after))
        target target p := by
  have hMem : q ∈ w.up := by
    rw [hUp]
    simp
  have hRest : ∀ q' ∈ before ++ after, q' ∈ w.up := by
    intro q' hq'
    rw [hUp]
    rcases List.mem_append.mp hq' with hBefore | hAfter
    · exact List.mem_append_left _ hBefore
    · exact List.mem_append_right _ (List.mem_cons_of_mem _ hAfter)
  have hReply := hSlot.replies q hMem
  have hRecv := Reader.recv_edfsa hReply.tipo hReply.id
    hReply.service hReply.command
  have hTally := hSlot.tally.answer hRecv rfl (before ++ after)
  have hNonneg := hSlot.counter
  rw [answer_eq hRecv] at hTally ⊢
  constructor
  · constructor
    case tally => exact hTally
    case service => exact hSlot.service
    case addr_injective => exact hSlot.addr_injective
    case addr_ne => exact hSlot.addr_ne
    case call =>
      have hCall := hSlot.call
      exact ⟨hCall.tipo, hCall.service, hCall.id, hCall.daddr,
        hCall.command, hCall.size, hCall.first, hCall.begins⟩
    case contestants =>
      intro i
      exact (hSlot.contestants i).frame rfl rfl Iff.rfl id rfl
        Iff.rfl rfl
    case nodup => exact hSlot.nodup
    case counter =>
      dsimp only
      omega
    case count =>
      have hCount := hSlot.count
      rw [hUp, List.length_append, List.length_cons] at hCount
      dsimp only
      rw [List.length_append]
      push_cast at hCount ⊢
      omega
    case collisions => exact hSlot.collisions
    case replies =>
      intro q' hq'
      have hOld := hSlot.replies q' (hRest q' hq')
      exact ⟨hOld.tipo, hOld.service, hOld.id, hOld.command,
        hOld.sender⟩
    case heard =>
      intro _
      exact hReply.sender
  · constructor
    case tags => exact fun i hWaiting => ⟨hWaiting, Or.inl rfl⟩
    case reader =>
      exact ⟨q.tagEPC, q.saddr, q.rng16, w.reader.counter + 1,
        rfl⟩
    case mainPolled => rfl

/-
  Every step in a slot but its end: what the packets of an
  ordered channel and the replies do.
-/
theorem Slot.within
    {eomlee : Int → Int → Int → Int}
    {ordered : Packet → Bool}
    (hOrdered : ∀ p, ordered p = true)
    (hSlot : w.Slot target p)
    (hStep : Step eomlee ordered w w') :
    (∃ target', w'.Slot target' p ∧
        w.Within w' target target' p) ∨
      w.Quiet ∧
        (w.reader.rsTimer = true ∧ w' = w.expireRs eomlee ∨
          w.reader.colTimer = true ∧
            w' = w.expireCol eomlee) := by
  cases hStep with
  | expireRs hPending hQuiet =>
      exact Or.inr ⟨hQuiet, Or.inl ⟨hPending, rfl⟩⟩
  | expireCol hPending hQuiet =>
      exact Or.inr ⟨hQuiet, Or.inr ⟨hPending, rfl⟩⟩
  | receive i before after q u hDown hOrder hu hu' =>
      rcases hSlot.first_in_flight hDown
          (hOrder (hOrdered q)) with
        ⟨rfl, ⟨hTarget, rfl, rfl⟩ | ⟨hTarget, hAck, rfl⟩⟩
      · exact Or.inl ⟨target,
          hSlot.receive_call hDown hTarget hu hu'⟩
      · exact Or.inl ⟨none,
          hSlot.receive_ack hDown hTarget hAck u⟩
  | answer before after q hUp =>
      exact Or.inl ⟨target, hSlot.answer hUp⟩

end World

end Rfid

end Ns2

------------------------------------------------------------
-- Ends of a Slot
------------------------------------------------------------

namespace Ns2

namespace Rfid

namespace World

variable {n : Nat}
variable {w w' : World n}
variable {target target' : Option (Fin n)}
variable {p p' : Packet}
variable {i j : Fin n}

/- The tag that replied alone in the slot. -/
def sole : List (Fin n) → Option (Fin n)
  | [i] => some i
  | _ => none

theorem sole_eq_some
    {replied : List (Fin n)} :
    sole replied = some i ↔ replied = [i] := by
  cases replied with
  | nil => simp [sole]
  | cons j rest =>
      cases rest with
      | nil => simp [sole]
      | cons k rest => simp [sole]

/- What is known when all packets of the slot were received. -/
structure Outcome
    (w : World n)
    (p : Packet) : Prop where
  counter : w.reader.counter = w.replied.length
  sender : ∀ i, w.replied = [i] →
    w.reader.tagIP = (w.tags i).addr ∧
      (w.tags i).state ≠ .T_ACKNOWLEDGED
  range : ∀ i, (w.tags i).state ≠ .T_ACKNOWLEDGED →
    (w.tags i).Called p →
    1 ≤ (w.tags i).slot ∧ (w.tags i).slot ≤ p.qValue ∧
      ((w.tags i).slot < p.slotNumber →
        0 < w.reader.collisions)
  marked : ∀ i, (w.tags i).state ≠ .T_ACKNOWLEDGED →
    (w.tags i).Called p → p.reply ≠ 0 →
    (w.tags i).memory2 = p.reply
  replied : ∀ i, i ∈ w.replied ↔
    (w.tags i).state ≠ .T_ACKNOWLEDGED ∧
      (w.tags i).Called p ∧ (w.tags i).slot = p.slotNumber

theorem Slot.outcome
    (hSlot : w.Slot target p)
    (hQuiet : w.Quiet) :
    target = none ∧ w.Outcome p := by
  have hNone := hSlot.tally.target_of_quiet hQuiet.down
  subst hNone
  have hWaiting : ∀ i, w.Waiting none i ↔
      (w.tags i).state ≠ .T_ACKNOWLEDGED := by
    intro i
    simp [Waiting]
  have hCount := hSlot.count
  rw [hQuiet.up, List.length_nil] at hCount
  refine ⟨rfl, ?_⟩
  constructor
  case counter => omega
  case sender =>
    intro i hSole
    rw [hSole, List.length_singleton] at hCount
    have hPos : 0 < w.reader.counter := by omega
    rcases hSlot.heard hPos with ⟨j, hj, hSender⟩
    rw [hSole] at hj
    cases List.mem_singleton.mp hj
    refine ⟨hSender, ?_⟩
    have hHere : i ∈ w.replied := by
      rw [hSole]
      exact hj
    exact ((hSlot.contestants i).replied.mp hHere).1.1
  case range =>
    intro i hState hCalled
    exact (hSlot.contestants i).range ((hWaiting i).mpr hState)
      hCalled (Or.inl (hQuiet.down i))
  case marked =>
    intro i hState hCalled
    exact (hSlot.contestants i).marked ((hWaiting i).mpr hState)
      hCalled (hQuiet.down i)
  case replied =>
    intro i
    rw [(hSlot.contestants i).replied, hWaiting]
    simp only [hQuiet.down i, true_and]

/- A tag that was not called in vain is still to be called. -/
theorem Outcome.unresolved
    (hOutcome : w.Outcome p)
    (hState : (w.tags i).state ≠ .T_ACKNOWLEDGED)
    (hSole : w.replied ≠ [i])
    (hCalled : (w.tags i).Called p)
    (hPassed : (w.tags i).slot < p.slotNumber + 1) :
    0 < w.reader.collisions ∨ 1 < w.reader.counter := by
  by_cases hNow : (w.tags i).slot = p.slotNumber
  · have hMem := (hOutcome.replied i).mpr
      ⟨hState, hCalled, hNow⟩
    right
    rw [hOutcome.counter]
    cases hReplied : w.replied with
    | nil =>
        rw [hReplied] at hMem
        cases hMem
    | cons j rest =>
        cases rest with
        | nil =>
            rw [hReplied] at hMem hSole
            rw [List.mem_singleton.mp hMem] at hSole
            exact absurd rfl hSole
        | cons k rest =>
            simp only [List.length_cons]
            omega
  · left
    exact (hOutcome.range i hState hCalled).2.2 (by omega)

/- The query replies that are sent at the end of the slot. -/
theorem Outcome.filter_slotReply
    (hSlot : w.Slot target p)
    (hOutcome : w.Outcome p)
    (i : Fin n) :
    w.reader.slotReply.filter (·.reaches (w.tags i)) =
      if sole w.replied = some i then
        [w.reader.send_query_reply]
      else [] := by
  unfold Reader.slotReply
  by_cases hOne : w.reader.counter = 1
  · rw [if_pos hOne]
    have hLength : w.replied.length = 1 := by
      have hCounter := hOutcome.counter
      omega
    rcases List.length_eq_one_iff.mp hLength with ⟨j, hSole⟩
    have hAddr : w.reader.send_query_reply.daddr =
        (w.tags j).addr := (hOutcome.sender j hSole).1
    by_cases hji : j = i
    · subst hji
      rw [if_pos (sole_eq_some.mpr hSole)]
      simp [Packet.reaches, hAddr]
    · have hOther : ¬sole w.replied = some i := by
        rw [sole_eq_some, hSole]
        simp [hji]
      rw [if_neg hOther, List.filter_eq_nil_iff]
      intro q hq
      cases List.mem_singleton.mp hq
      simp only [Packet.reaches, hAddr, Bool.or_eq_true,
        decide_eq_true_eq, not_or]
      exact ⟨hSlot.addr_ne j, fun h =>
        hji (hSlot.addr_injective j i h)⟩
  · have hOther : ¬sole w.replied = some i := by
      rw [sole_eq_some]
      intro hSole
      apply hOne
      rw [hOutcome.counter, hSole]
      rfl
    rw [if_neg hOne, if_neg hOther, List.filter_nil]

theorem Outcome.isAck
    (hSlot : w.Slot target p)
    (hOutcome : w.Outcome p)
    (hSole : sole w.replied = some i) :
    w.reader.send_query_reply.IsAck := by
  refine ⟨rfl, hSlot.service, rfl, ?_⟩
  have hAddr := (hOutcome.sender i (sole_eq_some.mp hSole)).1
  change w.reader.tagIP ≠ IP_BROADCAST
  rw [hAddr]
  exact hSlot.addr_ne i

/-
  The end of a slot: the tag that replied alone, if there is
  one, is the new target.  The last packets are those that
  come after the query reply.
-/
structure EndOfSlot
    (w w' : World n)
    (calls : List Packet) : Prop where
  tags : w'.tags = w.tags
  entered : w'.entered = w.entered
  up : w'.up = []
  replied : w'.replied = []
  polled : w'.polled = w.replied
  down : ∀ i, w'.down i =
    (w.reader.slotReply ++ calls).filter
      (·.reaches (w.tags i))
  service : w'.reader.service = w.reader.service
  success : w'.reader.success = w.reader.success +
    if w.reader.counter = 1 then 1 else 0

theorem EndOfSlot.tally
    {calls : List Packet}
    (hEnd : w.EndOfSlot w' calls)
    (hSlot : w.Slot target p)
    (hQuiet : w.Quiet)
    (hOutcome : w.Outcome p)
    (hCalls : ∀ q ∈ calls, q.isQueryReply = false) :
    w'.Tally (sole w.replied) := by
  apply hSlot.tally.end_slot hQuiet.down hEnd.tags hEnd.entered
  case hPending =>
    intro i
    have hNone : (calls.filter (·.reaches (w.tags i))).countP
        Packet.isQueryReply = 0 := by
      rw [List.countP_eq_zero]
      intro q hq
      rw [hCalls q (List.mem_filter.mp hq).1]
      exact Bool.false_ne_true
    rw [hEnd.down i, List.filter_append, List.countP_append,
      hNone, hOutcome.filter_slotReply hSlot i]
    by_cases hSole : sole w.replied = some i
    · have hAck := hOutcome.isAck hSlot hSole
      rw [if_pos hSole, if_pos hSole]
      simp [hAck.is_reply]
    · rw [if_neg hSole, if_neg hSole]
      rfl
  case hWaiting =>
    intro i hSole
    exact (hOutcome.sender i (sole_eq_some.mp hSole)).2
  case hSuccess =>
    rw [hEnd.success, hOutcome.counter]
    cases w.replied with
    | nil => rfl
    | cons j rest =>
        cases rest with
        | nil => rfl
        | cons k rest =>
            simp only [sole, List.length_cons]
            rw [if_neg (by omega)]
            rfl

/- The next slot. -/
theorem EndOfSlot.next
    (hEnd : w.EndOfSlot w' [p'])
    (hSlot : w.Slot target p)
    (hQuiet : w.Quiet)
    (hCall : p'.IsCall w'.reader)
    (hCounter : w'.reader.counter = 0)
    (hCollisions : 0 ≤ w'.reader.collisions)
    (hRange : p'.command = .RC_SING → ∀ i,
      (w.tags i).state ≠ .T_ACKNOWLEDGED → w.replied ≠ [i] →
      (w.tags i).Called p' →
      1 ≤ (w.tags i).slot ∧ (w.tags i).slot ≤ p'.qValue ∧
        ((w.tags i).slot < p'.slotNumber →
          0 < w'.reader.collisions)) :
    w'.Slot (sole w.replied) p' := by
  have hOutcome := (hSlot.outcome hQuiet).2
  have hDown : ∀ i, w'.down i =
      (if sole w.replied = some i then
        [w.reader.send_query_reply] else []) ++ [p'] := by
    intro i
    rw [hEnd.down i, List.filter_append,
      hOutcome.filter_slotReply hSlot i,
      filter_broadcast hCall.daddr]
  have hSome : ∀ i, w'.down i ≠ [] := by
    intro i
    rw [hDown i]
    simp
  have hNotReply : ∀ q ∈ [p'], q.isQueryReply = false := by
    intro q hq
    cases List.mem_singleton.mp hq
    exact hCall.not_reply
  constructor
  case tally =>
    exact hEnd.tally hSlot hQuiet hOutcome hNotReply
  case service => exact hEnd.service.trans hSlot.service
  case addr_injective =>
    rw [hEnd.tags]
    exact hSlot.addr_injective
  case addr_ne =>
    rw [hEnd.tags]
    exact hSlot.addr_ne
  case call => exact hCall
  case contestants =>
    intro i
    constructor
    case down =>
      rw [hDown i]
      by_cases hSole : sole w.replied = some i
      · rw [if_pos hSole]
        exact .both _ hSole (hOutcome.isAck hSlot hSole)
      · rw [if_neg hSole]
        exact .call hSole
    case entered =>
      rw [hEnd.tags, hEnd.entered]
      exact (hSlot.contestants i).entered
    case alone =>
      intro hSole
      rw [hEnd.polled]
      exact sole_eq_some.mp hSole
    case range =>
      intro hWaiting hCalled hSing
      rw [hEnd.tags] at hCalled ⊢
      rcases hSing with hNone | hSing
      · exact absurd hNone (hSome i)
      · unfold Waiting at hWaiting
        rw [hEnd.tags, ne_eq (sole _), sole_eq_some] at hWaiting
        exact hRange hSing i hWaiting.1 hWaiting.2 hCalled
    case marked => exact fun _ _ h => absurd h (hSome i)
    case replied =>
      rw [hEnd.replied]
      refine iff_of_false (by simp) ?_
      exact fun h => hSome i h.2.2.1
  case nodup =>
    rw [hEnd.replied]
    exact List.nodup_nil
  case counter => exact hCounter.ge
  case count =>
    rw [hCounter, hEnd.up, hEnd.replied]
    rfl
  case collisions => exact hCollisions
  case replies =>
    rw [hEnd.up]
    intro q hq
    cases hq
  case heard =>
    intro hPos
    omega

/-
  The session is over: every tag is acknowledged but the one
  whose query reply is in flight.
-/
structure Over
    (w : World n)
    (target : Option (Fin n)) : Prop where
  tally : w.Tally target
  acknowledged : ∀ i,
    (w.tags i).state = .T_ACKNOWLEDGED ∨ target = some i
  entered : ∀ i, (w.tags i).state = .T_ACKNOWLEDGED →
    i ∈ w.entered
  alone : ∀ i, target = some i → w.polled = [i]
  down : ∀ i, target ≠ some i ∧ w.down i = [] ∨
    target = some i ∧ ∃ ack, w.down i = [ack] ∧ ack.IsAck
  up : w.up = []
  rsTimer : w.reader.rsTimer = false
  colTimer : w.reader.colTimer = false

/- The last slot. -/
theorem EndOfSlot.last
    (hEnd : w.EndOfSlot w' [])
    (hSlot : w.Slot target p)
    (hQuiet : w.Quiet)
    (hRs : w'.reader.rsTimer = false)
    (hCol : w'.reader.colTimer = false)
    (hAll : ∀ i, (w.tags i).state ≠ .T_ACKNOWLEDGED →
      w.replied = [i]) :
    w'.Over (sole w.replied) := by
  have hOutcome := (hSlot.outcome hQuiet).2
  constructor
  case tally =>
    exact hEnd.tally hSlot hQuiet hOutcome (by simp)
  case acknowledged =>
    intro i
    rw [hEnd.tags, sole_eq_some]
    by_cases hState : (w.tags i).state = .T_ACKNOWLEDGED
    · exact Or.inl hState
    · exact Or.inr (hAll i hState)
  case entered =>
    rw [hEnd.tags, hEnd.entered]
    exact fun i => (hSlot.contestants i).entered
  case alone =>
    intro i hSole
    rw [hEnd.polled]
    exact sole_eq_some.mp hSole
  case down =>
    intro i
    rw [hEnd.down i, List.append_nil,
      hOutcome.filter_slotReply hSlot i]
    by_cases hSole : sole w.replied = some i
    · rw [if_pos hSole]
      exact Or.inr ⟨hSole, _, rfl, hOutcome.isAck hSlot hSole⟩
    · rw [if_neg hSole]
      exact Or.inl ⟨hSole, rfl⟩
  case up => exact hEnd.up
  case rsTimer => exact hRs
  case colTimer => exact hCol

/- All that can happen is that the query reply is received. -/
theorem Over.step
    {eomlee : Int → Int → Int → Int}
    {ordered : Packet → Bool}
    (hOver : w.Over target)
    (hStep : Step eomlee ordered w w') :
    w'.Over none ∧ w'.replied = w.replied := by
  cases hStep with
  | expireRs hPending =>
      rw [hOver.rsTimer] at hPending
      cases hPending
  | expireCol hPending =>
      rw [hOver.colTimer] at hPending
      cases hPending
  | answer before after q hUp =>
      rw [hOver.up] at hUp
      simp at hUp
  | receive i before after q u hDown =>
      rcases hOver.down i with ⟨_, hNone⟩ |
        ⟨hTarget, ack, hAckDown, hAck⟩
      · rw [hNone] at hDown
        simp at hDown
      · rw [hAckDown] at hDown
        rcases List.append_eq_singleton_iff.mp hDown.symm with
          ⟨rfl, hRest⟩ | ⟨_, hRest⟩
        · simp only [List.cons.injEq] at hRest
          rcases hRest with ⟨rfl, rfl⟩
          have hState := hOver.tally.waiting i hTarget
          have hRecv := Tag.recv_ack hAck hState u
          have hState' : ((w.tags i).recv q u).1.state =
              .T_ACKNOWLEDGED := by rw [hRecv]
          have hOut : ((w.tags i).recv q u).2 = [] := by
            rw [hRecv]
          refine ⟨?_, receive_replied_of_silent hOut _⟩
          have hEntered :
              (w.receive i q ([] ++ []) u).entered =
                w.entered ++ [i] := if_pos ⟨hState, hState'⟩
          have hAcked : ∀ j,
              ((w.receive i q ([] ++ []) u).tags j).state =
                .T_ACKNOWLEDGED := by
            intro j
            by_cases hji : j = i
            · subst hji
              rw [receive_tags_self]
              exact hState'
            · rw [receive_tags_ne w hji]
              rcases hOver.acknowledged j with hDone | hThis
              · exact hDone
              · rw [hTarget] at hThis
                exact absurd (Option.some.inj hThis).symm hji
          constructor
          case tally =>
            exact @Tally.receive_reply _ _ _ hOver.tally _ [] []
              _ hAckDown hAck.is_reply _ hState'
          case acknowledged => exact fun j => Or.inl (hAcked j)
          case entered =>
            intro j _
            rw [hEntered, List.mem_append, List.mem_singleton]
            by_cases hji : j = i
            · exact Or.inr hji
            · left
              apply hOver.entered j
              have hDone := hAcked j
              rw [receive_tags_ne w hji] at hDone
              exact hDone
          case alone =>
            intro j hj
            cases hj
          case down =>
            intro j
            refine Or.inl ⟨by simp, ?_⟩
            by_cases hji : j = i
            · subst hji
              exact receive_down_self ..
            · rw [receive_down_ne w hji]
              rcases hOver.down j with ⟨_, hNone⟩ |
                ⟨hThis, _⟩
              · exact hNone
              · rw [hTarget] at hThis
                exact absurd (Option.some.inj hThis).symm hji
          case up =>
            rw [receive_up, hOut, hOver.up]
            rfl
          case rsTimer => exact hOver.rsTimer
          case colTimer => exact hOver.colTimer
        · cases hRest

/- All tags were counted when the session is over. -/
theorem Over.success
    (hOver : w.Over target)
    (hQuiet : w.Quiet) :
    (∀ i, (w.tags i).state = .T_ACKNOWLEDGED) ∧
      w.reader.success = n := by
  have hNone := hOver.tally.target_of_quiet hQuiet.down
  subst hNone
  have hAcked : ∀ i, (w.tags i).state = .T_ACKNOWLEDGED := by
    intro i
    rcases hOver.acknowledged i with hDone | hThis
    · exact hDone
    · cases hThis
  refine ⟨hAcked, ?_⟩
  have hLength : w.entered.length = n := by
    have hAll : w.entered.toFinset = Finset.univ := by
      ext i
      simp [hOver.entered i (hAcked i)]
    rw [← List.toFinset_card_of_nodup hOver.tally.nodup, hAll,
      Finset.card_univ, Fintype.card_fin]
  rw [hOver.tally.success, hLength]
  simp

end World

end Rfid

end Ns2
