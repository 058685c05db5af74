import Ns2.Apps.Rfid.Network

/-
  Sessions of the Q algorithm.

  A slot begins with a poll, which makes every tag without an
  acknowledgement draw a slot, or with a query reply to one
  tag and an update for all.  The reader stops at `Q = -1`,
  which it reaches only by a poll that every such tag has to
  answer.  The success counter runs ahead of the tags by the
  query reply in flight.

  Main declarations:
    * `Tag.recv_poll`, `Tag.recv_update`, `Tag.recv_reply`
    * `Reader.Sing`, `Reader.sing_of_expireRs`
    * `World.QInv`
    * `World.q_algorithm_session`
-/

------------------------------------------------------------
-- Receptions of a Tag
------------------------------------------------------------

namespace Ns2

namespace Rfid

namespace Tag

/- A reception keeps the identity of the tag. -/
structure Same (t t' : Tag) : Prop where
  addr : t'.addr = t.addr
  tagEPC : t'.tagEPC = t.tagEPC

/-
  A tag that draws a slot at a poll: it answers at once if
  that is the slot 0.
-/
structure Drew
    (t : Tag)
    (p : Packet)
    (next : Tag × List Packet) : Prop where
  eligible :
    t.state ≠ .T_ACKNOWLEDGED ∨ p.command = .RC_QUERY
  state : next.1.state ≠ .T_ACKNOWLEDGED
  replies :
    next.1.slot = 0 ∧
        next.2 = [next.1.sendPacket p p.command] ∨
      next.1.slot ≠ 0 ∧ next.2 = []
  last : p.qValue = -1 → next.1.slot = 0

/- The draw itself, for a tag that takes part. -/
theorem drawAndReply_spec
    {t t' : Tag}
    {p : Packet}
    {u : Rat}
    (hu : 0 ≤ u)
    (hu' : u ≤ 1)
    (hSame : t.Same t')
    (hState : t'.state ≠ .T_ACKNOWLEDGED)
    (hMemory : t'.memory = p.qValue)
    (hEligible : t.state ≠ .T_ACKNOWLEDGED ∨
      p.command = .RC_QUERY)
    {command : Command}
    (hCommand : p.command = command) :
    let next := t'.drawAndReply p u command
    t.Same next.1 ∧ t.Drew p next := by
  subst hCommand
  have hSlot : (t'.updateSlot u).slot =
      ctrunc (uniform u 0 (pow2 t'.memory - 1)) :=
    if_pos hState
  have hLast : p.qValue = -1 → (t'.updateSlot u).slot = 0 := by
    intro hQ
    rw [hSlot, hMemory, hQ]
    exact ctrunc_uniform_neg_one hu hu'
  unfold drawAndReply
  by_cases hZero : (t'.updateSlot u).slot = 0
  · simp only [if_pos hZero]
    refine ⟨⟨hSame.addr, hSame.tagEPC⟩, ?_⟩
    exact ⟨hEligible, by simp, Or.inl ⟨hZero, rfl⟩, hLast⟩
  · simp only [if_neg hZero]
    refine ⟨⟨hSame.addr, hSame.tagEPC⟩, ?_⟩
    exact ⟨hEligible, by simp, Or.inr ⟨hZero, rfl⟩, hLast⟩

theorem recv_standard
    {p : Packet}
    (hTipo : p.tipo = .rt)
    (hService : p.service = .standard)
    (t : Tag)
    (u : Rat) :
    t.recv p u = t.recvStandard p u := by
  simp only [recv, hTipo, hService]

/- A poll leaves a tag acknowledged or makes it draw. -/
theorem recv_poll
    {p : Packet}
    (hTipo : p.tipo = .rt)
    (hService : p.service = .standard)
    (hCommand : p.command = .RC_QUERY ∨
      p.command = .RC_QUERYADJUST)
    (t : Tag)
    {u : Rat}
    (hu : 0 ≤ u)
    (hu' : u ≤ 1) :
    let next := t.recv p u
    t.Same next.1 ∧
      (t.state = .T_ACKNOWLEDGED ∧
          next.1.state = .T_ACKNOWLEDGED ∧ next.2 = [] ∨
        t.Drew p next) := by
  rw [recv_standard hTipo hService]
  simp only [recvStandard]
  by_cases hState : t.state = .T_ACKNOWLEDGED
  · rw [if_neg fun h => h.2 hState]
    rcases hCommand with hQuery | hAdjust
    · rw [if_pos ⟨hQuery, hState⟩]
      by_cases hOn : p.mechanism = 0 ∨ t.id ≠ p.id
      · rw [if_pos hOn]
        rcases @drawAndReply_spec t
            { t with
              id := p.id
              memory := p.qValue
              state := .T_READY } p u hu hu' ⟨rfl, rfl⟩
            (by simp) rfl (Or.inr hQuery) _ hQuery with
          ⟨hSame, hDrew⟩
        exact ⟨hSame, Or.inr hDrew⟩
      · rw [if_neg hOn]
        exact ⟨⟨rfl, rfl⟩, Or.inl ⟨hState, hState, rfl⟩⟩
    · rw [if_neg (by simp [hAdjust]),
        if_neg fun h => h.2 hState, if_neg (by simp [hAdjust]),
        if_neg (by simp [hAdjust])]
      exact ⟨⟨rfl, rfl⟩, Or.inl ⟨hState, hState, rfl⟩⟩
  · rcases hCommand with hQuery | hAdjust
    · rw [if_pos ⟨hQuery, hState⟩]
      rcases @drawAndReply_spec t
          { t with id := p.id, memory := p.qValue } p u hu hu'
          ⟨rfl, rfl⟩ hState rfl (Or.inl hState) _ hQuery with
        ⟨hSame, hDrew⟩
      exact ⟨hSame, Or.inr hDrew⟩
    · rw [if_neg (by simp [hAdjust]),
        if_neg (by simp [hAdjust]), if_pos ⟨hAdjust, hState⟩]
      rcases @drawAndReply_spec t
          { t with id := p.id, memory := p.qValue } p u hu hu'
          ⟨rfl, rfl⟩ hState rfl (Or.inl hState) _ hAdjust with
        ⟨hSame, hDrew⟩
      exact ⟨hSame, Or.inr hDrew⟩

/- The update counts a waiting tag down; at 0 it answers. -/
theorem recv_update
    {p : Packet}
    (hTipo : p.tipo = .rt)
    (hService : p.service = .standard)
    (hCommand : p.command = .RC_QUERYREPLY)
    (hAll : p.tagEPC = IP_BROADCAST)
    {t : Tag}
    (hEPC : t.tagEPC ≠ IP_BROADCAST)
    (u : Rat) :
    let next := t.recv p u
    t.Same next.1 ∧
      (next.1.state = .T_ACKNOWLEDGED ↔
        t.state = .T_ACKNOWLEDGED) ∧
      ((t.slot = 0 → next.1.slot = 0) ∧ next.2 = [] ∨
        (t.state ≠ .T_ACKNOWLEDGED ∧ 0 < t.slot) ∧
          next.1.slot = 0 ∧
          next.2 = [next.1.sendPacket p .RC_QUERYREPLY]) := by
  have hOther : p.tagEPC ≠ t.tagEPC := by
    rw [hAll]
    exact hEPC.symm
  rw [recv_standard hTipo hService]
  simp only [recvStandard]
  rw [if_neg (by simp [hCommand]), if_neg (by simp [hCommand]),
    if_neg (by simp [hCommand]), if_neg fun h => hOther h.2]
  by_cases hPos : 0 < t.slot
  · rw [if_pos ⟨hCommand, hAll, hPos⟩]
    by_cases hState : t.state = .T_ACKNOWLEDGED
    · rw [if_neg fun h => h hState]
      refine ⟨⟨rfl, rfl⟩, Iff.rfl, Or.inl ⟨?_, rfl⟩⟩
      exact fun h => h
    · rw [if_pos hState]
      by_cases hZero : t.slot - 1 = 0
      · rw [if_pos hZero]
        refine ⟨⟨rfl, rfl⟩, ?_, Or.inr ?_⟩
        · simpa using hState
        · exact ⟨⟨hState, hPos⟩, hZero, rfl⟩
      · rw [if_neg hZero]
        refine ⟨⟨rfl, rfl⟩, ?_, Or.inl ⟨?_, rfl⟩⟩
        · simpa using hState
        · intro hSlot
          omega
  · rw [if_neg fun h => hPos h.2.2]
    refine ⟨⟨rfl, rfl⟩, Iff.rfl, Or.inl ⟨?_, rfl⟩⟩
    exact fun h => h

/- A query reply acknowledges the tag. -/
theorem recv_reply
    {p : Packet}
    (hTipo : p.tipo = .rt)
    (hService : p.service = .standard)
    (hCommand : p.command = .RC_QUERYREPLY)
    {t : Tag}
    (hEPC : p.tagEPC = t.tagEPC)
    (u : Rat) :
    let next := t.recv p u
    t.Same next.1 ∧ next.1.state = .T_ACKNOWLEDGED ∧
      next.2 = [next.1.sendPacket p .TC_REPLY] := by
  rw [recv_standard hTipo hService]
  simp only [recvStandard]
  rw [if_neg (by simp [hCommand]), if_neg (by simp [hCommand]),
    if_neg (by simp [hCommand]), if_pos ⟨hCommand, hEPC⟩]
  exact ⟨⟨rfl, rfl⟩, rfl, rfl⟩

end Tag

end Rfid

end Ns2

------------------------------------------------------------
-- Ends of a Slot
------------------------------------------------------------

namespace Ns2

namespace Rfid

namespace Reader

/- What the reader does not change during the session. -/
structure SameSession (r r' : Reader) : Prop where
  id : r'.id = r.id
  service : r'.service = r.service
  operation : r'.operation = r.operation
  colTimer : r'.colTimer = r.colTimer
  Qfp_nonneg : 0 ≤ r'.Qfp
  Qfp_le : r'.Qfp ≤ 15

/-
  What the end of a slot can do.  A poll follows an idle slot
  or a collision, and can only lead to `Q = -1` from an idle
  slot; the session ends with an idle slot at `Q = -1` or
  with a collision at `Q = 15`.
-/
inductive Sing (r r' : Reader) : List Packet → Prop
| stop
    (hCounter : r.counter = 0)
    (hLast : r.qValue = -1)
    (hCounter' : r'.counter = 0)
    (hSuccess : r'.success = r.success) :
    Sing r r' []
| poll
    (hCounter' : r'.counter = 0)
    (hSuccess : r'.success = r.success)
    (hStop : r'.rsTimer = false →
      1 < r.counter ∧ r'.qValue = 15) :
    Sing r r' [r'.send_query_ajust]
| single
    (hCounter : r.counter = 1)
    (hCounter' : r'.counter = 0)
    (hSuccess : r'.success = r.success + 1)
    (hQ : r'.qValue = r.qValue)
    (hTagEPC : r'.tagEPC = r.tagEPC)
    (hTagIP : r'.tagIP = r.tagIP)
    (hPending : r'.rsTimer = true) :
    Sing r r' [r'.send_query_reply,
      r'.send_query_reply_update_slot]

theorem lowerQfp_bounds
    (r : Reader) :
    0 ≤ r.lowerQfp ∧ r.lowerQfp ≤ 15 := by
  unfold lowerQfp
  dsimp only
  split_ifs <;> constructor <;> linarith

theorem raiseQfp_bounds
    (r : Reader) :
    0 ≤ r.raiseQfp ∧ r.raiseQfp ≤ 15 := by
  unfold raiseQfp
  dsimp only
  split_ifs <;> constructor <;> linarith

theorem adjustOrStop_spec
    {r₀ r : Reader}
    (hSame : r₀.SameSession r)
    (hCounter : r.counter = 0)
    (hQ : -1 ≤ r.qValue) :
    let next := r.adjustOrStop
    r₀.SameSession next.1 ∧ next.1.counter = 0 ∧
      next.1.success = r.success ∧
      (r.qValue = -1 ∧ next.2 = [] ∨
        next.1.rsTimer = true ∧
          next.2 = [next.1.send_query_ajust]) := by
  rcases hSame with
    ⟨hId, hService, hOperation, hCol, hNonneg, hLe⟩
  unfold adjustOrStop
  by_cases hPos : 0 < r.qValue
  · rw [if_pos hPos]
    exact ⟨⟨hId, hService, hOperation, hCol, hNonneg, hLe⟩,
      hCounter, rfl, Or.inr ⟨rfl, rfl⟩⟩
  · rw [if_neg hPos]
    by_cases hZero : r.qValue = 0
    · rw [if_pos hZero]
      exact ⟨⟨hId, hService, hOperation, hCol, hNonneg, hLe⟩,
        hCounter, rfl, Or.inr ⟨rfl, rfl⟩⟩
    · rw [if_neg hZero]
      exact ⟨⟨hId, hService, hOperation, hCol, hNonneg, hLe⟩,
        hCounter, rfl, Or.inl ⟨by omega, rfl⟩⟩

/- An idle slot polls again, or ends the session. -/
theorem sing_of_singIdle
    {r₀ r : Reader}
    (hSame : r₀.SameSession r)
    (hCounter : r.counter = 0) :
    r₀.SameSession r.singIdle.1 ∧
      r.Sing r.singIdle.1 r.singIdle.2 := by
  rcases hSame with ⟨hId, hService, hOperation, hCol, _, _⟩
  rcases r.lowerQfp_bounds with ⟨hNonneg, hLe⟩
  unfold singIdle
  by_cases hLast : r.qValue = -1
  · simp only [adjustOrStop, hLast, ne_eq, not_true, if_false]
    rw [if_neg (by decide), if_neg (by decide)]
    exact ⟨⟨hId, hService, hOperation, hCol, hNonneg, hLe⟩,
      .stop hCounter hLast hCounter rfl⟩
  · have hRound : 0 ≤ cround r.lowerQfp := by
      apply le_cround (le_refl 0)
      exact_mod_cast hNonneg
    have hQ : cround r.lowerQfp ≠ -1 := by omega
    simp only [setQ]
    rw [if_pos hLast, if_neg hQ]
    rcases @adjustOrStop_spec r₀
        { r with
          idle := r.idle + 1
          Qfp := r.lowerQfp
          qValue := cround r.lowerQfp
          bigQ :=
            if r.bigQ ≤ cround r.lowerQfp then
              cround r.lowerQfp
            else r.bigQ }
        ⟨hId, hService, hOperation, hCol, hNonneg, hLe⟩
        hCounter (by dsimp only; omega) with
      ⟨hSame, hCounter', hSuccess, hEnd⟩
    rcases hEnd with ⟨hEq, _⟩ | ⟨hTimer, hOut⟩
    · exact absurd hEq hQ
    · rw [hOut]
      refine ⟨hSame, .poll hCounter' hSuccess ?_⟩
      intro hStop
      rw [hTimer] at hStop
      cases hStop

/- A collision polls again, even when it ends the session. -/
theorem sing_of_singCollision
    {r₀ r : Reader}
    (hSame : r₀.SameSession r)
    (hCounter : 1 < r.counter) :
    r₀.SameSession r.singCollision.1 ∧
      r.Sing r.singCollision.1 r.singCollision.2 := by
  rcases hSame with ⟨hId, hService, hOperation, hCol, _, _⟩
  rcases r.raiseQfp_bounds with ⟨hNonneg, hLe⟩
  unfold singCollision
  simp only [setQ]
  by_cases hStop : cround r.raiseQfp = 15
  · rw [if_pos hStop]
    refine ⟨⟨hId, hService, hOperation, hCol, hNonneg, hLe⟩,
      .poll rfl rfl ?_⟩
    intro _
    exact ⟨hCounter, hStop⟩
  · rw [if_neg hStop]
    exact ⟨⟨hId, hService, hOperation, hCol, hNonneg, hLe⟩,
      .poll rfl rfl Bool.noConfusion⟩

/- The slot counter has no part in the decision. -/
theorem Sing.of_slotCounter
    {r r' : Reader}
    {slotCounter : Int}
    {rsTimer : Bool}
    {out : List Packet}
    (hSing :
      { r with
        slotCounter := slotCounter
        rsTimer := rsTimer }.Sing r' out) :
    r.Sing r' out := by
  cases hSing with
  | stop hCounter hLast hCounter' hSuccess =>
      exact .stop hCounter hLast hCounter' hSuccess
  | poll hCounter' hSuccess hStop =>
      exact .poll hCounter' hSuccess hStop
  | single hCounter hCounter' hSuccess hQ hEPC hIP hPending =>
      exact .single hCounter hCounter' hSuccess hQ hEPC hIP
        hPending

theorem sing_of_expireRs
    (eomlee : Int → Int → Int → Int)
    {r : Reader}
    (hOperation : r.operation = 0)
    (hCounter : 0 ≤ r.counter)
    (hNonneg : 0 ≤ r.Qfp)
    (hLe : r.Qfp ≤ 15) :
    let next := r.expireRs eomlee
    r.SameSession next.1 ∧ r.Sing next.1 next.2 := by
  simp only [expireRs, start_sing]
  rw [if_pos hOperation]
  have hSame : r.SameSession
      { r with
        rsTimer := false
        slotCounter := r.slotCounter + 1 } :=
    ⟨rfl, rfl, rfl, rfl, hNonneg, hLe⟩
  by_cases hIdle : r.counter = 0
  · rw [if_pos hIdle]
    rcases sing_of_singIdle hSame hIdle with ⟨hSame, hSing⟩
    exact ⟨hSame, hSing.of_slotCounter⟩
  · rw [if_neg hIdle]
    by_cases hOne : r.counter = 1
    · rw [if_pos hOne]
      exact ⟨⟨rfl, rfl, rfl, rfl, hNonneg, hLe⟩,
        .single hOne rfl rfl rfl rfl rfl rfl⟩
    · have hMore : 1 < r.counter := by omega
      rw [if_neg hOne, if_pos hMore]
      rcases sing_of_singCollision hSame hMore with
        ⟨hSame, hSing⟩
      exact ⟨hSame, hSing.of_slotCounter⟩

end Reader

end Rfid

end Ns2

------------------------------------------------------------
-- The Session Invariant
------------------------------------------------------------

namespace Ns2

namespace Rfid

namespace Packet

/- All tags without an acknowledgement draw a slot. -/
def IsPoll (p : Packet) : Prop :=
  p.command = .RC_QUERY ∨ p.command = .RC_QUERYADJUST

/- All waiting tags count down. -/
structure IsUpdate (p : Packet) : Prop where
  command : p.command = .RC_QUERYREPLY
  tagEPC : p.tagEPC = IP_BROADCAST
  daddr : p.daddr = IP_BROADCAST

/- The tag `t` gets its acknowledgement. -/
structure IsReplyTo
    (p : Packet)
    (t : Tag) : Prop where
  command : p.command = .RC_QUERYREPLY
  tagEPC : p.tagEPC = t.tagEPC
  daddr : p.daddr ≠ IP_BROADCAST

theorem IsPoll.not_reply
    {p : Packet}
    (hPoll : p.IsPoll) :
    p.isQueryReply = false := by
  rcases hPoll with hQuery | hAdjust
  · simp [isQueryReply, hQuery]
  · simp [isQueryReply, hAdjust]

theorem IsPoll.command_ne
    {p : Packet}
    (hPoll : p.IsPoll) :
    p.command ≠ .RC_QUERYREPLY := by
  rcases hPoll with hQuery | hAdjust
  · simp [hQuery]
  · simp [hAdjust]

theorem IsUpdate.not_reply
    {p : Packet}
    (hUpdate : p.IsUpdate) :
    p.isQueryReply = false := by
  simp [isQueryReply, hUpdate.daddr]

theorem IsReplyTo.is_reply
    {p : Packet}
    {t : Tag}
    (hReply : p.IsReplyTo t) :
    p.isQueryReply = true := by
  simp [isQueryReply, hReply.command, hReply.daddr]

/- A packet of the session in flight to the tag `t`. -/
structure InSession
    (p : Packet)
    (r : Reader)
    (t : Tag) : Prop where
  tipo : p.tipo = .rt
  service : p.service = .standard
  id : p.id = r.id
  qValue : p.qValue = r.qValue
  kind : p.IsPoll ∨ p.IsUpdate ∨ p.IsReplyTo t

end Packet

namespace World

variable {n : Nat}

/-
  Tag `i` sent the reply that names `tagEPC` and `saddr`,
  and waits for the end of the slot.
-/
structure Caller
    (w : World n)
    (tagEPC saddr : Int)
    (i : Fin n) : Prop where
  tagEPC : tagEPC = (w.tags i).tagEPC
  saddr : saddr = (w.tags i).addr
  state : (w.tags i).state ≠ .T_ACKNOWLEDGED
  slot : (w.tags i).slot = 0
  down : w.down i = []

/- A reply of the session in flight to the reader. -/
structure ReplyInSession
    (w : World n)
    (p : Packet) : Prop where
  tipo : p.tipo = .tr
  service : p.service = .standard
  id : p.id = w.reader.id
  caller : p.command ≠ .TC_REPLY →
    ∃ i, w.Caller p.tagEPC p.saddr i

/-
  The slot of a poll at `Q = -1`: a tag that has received it
  is acknowledged or has replied, and each reply counts.
-/
structure LastPoll (w : World n) : Prop where
  polls : ∀ i, ∀ p ∈ w.down i, p.IsPoll
  counted : ∀ p ∈ w.up, p.command ≠ .TC_REPLY
  heard : ∀ i, w.down i = [] →
    (w.tags i).state = .T_ACKNOWLEDGED ∨ i ∈ w.replied
  nodup : w.replied.Nodup
  received : ∀ i ∈ w.replied, w.down i = []
  count : w.reader.counter + w.up.length = w.replied.length

/- The slot after it: all other tags are acknowledged. -/
structure LastReply
    (w : World n)
    (target : Option (Fin n)) : Prop where
  others : ∀ i,
    (w.tags i).state = .T_ACKNOWLEDGED ∨ target = some i
  commands : ∀ i, ∀ p ∈ w.down i, p.command = .RC_QUERYREPLY
  counter : w.reader.counter = 0
  up : ∀ p ∈ w.up, p.command = .TC_REPLY

/- What holds at every point of a session. -/
structure QInv
    (w : World n)
    (target : Option (Fin n)) : Prop where
  tally : w.Tally target
  service : w.reader.service = .standard
  operation : w.reader.operation = 0
  colTimer : w.reader.colTimer = false
  Qfp_nonneg : 0 ≤ w.reader.Qfp
  Qfp_le : w.reader.Qfp ≤ 15
  counter_nonneg : 0 ≤ w.reader.counter
  addr_injective : ∀ i j,
    (w.tags i).addr = (w.tags j).addr → i = j
  addr_ne : ∀ i, (w.tags i).addr ≠ IP_BROADCAST
  tagEPC_ne : ∀ i, (w.tags i).tagEPC ≠ IP_BROADCAST
  packets : ∀ i, ∀ p ∈ w.down i,
    p.InSession w.reader (w.tags i)
  short : ∀ i, (w.down i).length ≤
    if target = some i then 2 else 1
  poll_target : ∀ i, ∀ p ∈ w.down i, p.IsPoll →
    target = none
  query_entered : ∀ i, ∀ p ∈ w.down i,
    p.command = .RC_QUERY → w.entered = []
  target_slot : ∀ i, target = some i → (w.tags i).slot = 0
  replies : ∀ p ∈ w.up, w.ReplyInSession p
  heard : 0 < w.reader.counter →
    ∃ i, w.Caller w.reader.tagEPC w.reader.tagIP i
  last : w.reader.qValue = -1 →
    w.LastPoll ∨ w.LastReply target

end World

end Rfid

end Ns2

------------------------------------------------------------
-- Receptions in a Session
------------------------------------------------------------

namespace Ns2

namespace Rfid

namespace World

variable {n : Nat}

/- A caller has nothing to receive. -/
theorem Caller.receive
    {w : World n}
    {i j : Fin n}
    {before after : List Packet}
    {p : Packet}
    {tagEPC saddr : Int}
    (hCaller : w.Caller tagEPC saddr j)
    (hDown : w.down i = before ++ p :: after)
    (u : Rat) :
    (w.receive i p (before ++ after) u).Caller
      tagEPC saddr j := by
  have hji : j ≠ i := by
    rintro rfl
    have hEmpty := hCaller.down
    rw [hDown] at hEmpty
    simp at hEmpty
  constructor
  case down =>
    rw [receive_down_ne w hji]
    exact hCaller.down
  all_goals rw [receive_tags_ne w hji]
  case tagEPC => exact hCaller.tagEPC
  case saddr => exact hCaller.saddr
  case state => exact hCaller.state
  case slot => exact hCaller.slot

/- The packets still in flight were in flight. -/
theorem mem_of_mem_receive
    {w : World n}
    {i j : Fin n}
    {before after : List Packet}
    {p q : Packet}
    {u : Rat}
    (hDown : w.down i = before ++ p :: after)
    (hMem : q ∈ (w.receive i p (before ++ after) u).down j) :
    q ∈ w.down j := by
  by_cases hji : j = i
  · subst hji
    rw [receive_down_self] at hMem
    rw [hDown]
    rcases List.mem_append.mp hMem with hBefore | hAfter
    · exact List.mem_append_left _ hBefore
    · exact List.mem_append_right _ (List.mem_cons_of_mem _ hAfter)
  · rw [receive_down_ne w hji] at hMem
    exact hMem

/- A tag without an acknowledgement that did not get one. -/
theorem receive_entered
    {w : World n}
    {i : Fin n}
    {p : Packet}
    {u : Rat}
    (hState : (w.tags i).state ≠ .T_ACKNOWLEDGED →
      ((w.tags i).recv p u).1.state ≠ .T_ACKNOWLEDGED)
    (rest : List Packet) :
    (w.receive i p rest u).entered = w.entered :=
  if_neg fun h => hState h.1 h.2

/-
  What a reception has to establish: the new tally, the slot
  of the target, the replies it adds and the case `Q = -1`.
-/
theorem QInv.of_receive
    {w : World n}
    {target target' : Option (Fin n)}
    (hInv : w.QInv target)
    {i : Fin n}
    {before after : List Packet}
    {p : Packet}
    {u : Rat}
    (hDown : w.down i = before ++ p :: after)
    (hSame : (w.tags i).Same ((w.tags i).recv p u).1)
    (hTally :
      (w.receive i p (before ++ after) u).Tally target')
    (hTarget : target' = target ∨
      target = some i ∧ target' = none)
    (hQuery : ∀ j, ∀ q ∈ w.down j, q.command = .RC_QUERY →
      (w.receive i p (before ++ after) u).entered = [])
    (hSlot : ∀ j, target' = some j →
      ((w.receive i p (before ++ after) u).tags j).slot = 0)
    (hReplies : ∀ q ∈ ((w.tags i).recv p u).2,
      (w.receive i p (before ++ after) u).ReplyInSession q)
    (hLast : w.reader.qValue = -1 →
      (w.receive i p (before ++ after) u).LastPoll ∨
        (w.receive i p (before ++ after) u).LastReply
          target') :
    (w.receive i p (before ++ after) u).QInv target' := by
  have hTags : ∀ j,
      (w.tags j).Same
        ((w.receive i p (before ++ after) u).tags j) := by
    intro j
    by_cases hji : j = i
    · subst hji
      rw [receive_tags_self]
      exact hSame
    · rw [receive_tags_ne w hji]
      exact ⟨rfl, rfl⟩
  constructor
  case tally => exact hTally
  case service => exact hInv.service
  case operation => exact hInv.operation
  case colTimer => exact hInv.colTimer
  case Qfp_nonneg => exact hInv.Qfp_nonneg
  case Qfp_le => exact hInv.Qfp_le
  case counter_nonneg => exact hInv.counter_nonneg
  case addr_injective =>
    intro j k hEq
    rw [(hTags j).addr, (hTags k).addr] at hEq
    exact hInv.addr_injective j k hEq
  case addr_ne =>
    intro j
    rw [(hTags j).addr]
    exact hInv.addr_ne j
  case tagEPC_ne =>
    intro j
    rw [(hTags j).tagEPC]
    exact hInv.tagEPC_ne j
  case packets =>
    intro j q hq
    have hOld := hInv.packets j q (mem_of_mem_receive hDown hq)
    refine ⟨hOld.tipo, hOld.service, hOld.id, hOld.qValue, ?_⟩
    rcases hOld.kind with hPoll | hUpdate | hReply
    · exact Or.inl hPoll
    · exact Or.inr (Or.inl hUpdate)
    · refine Or.inr (Or.inr ⟨hReply.command, ?_, hReply.daddr⟩)
      rw [(hTags j).tagEPC]
      exact hReply.tagEPC
  case short =>
    intro j
    have hShort := hInv.short j
    by_cases hji : j = i
    · subst hji
      rw [hDown, List.length_append, List.length_cons]
        at hShort
      rw [receive_down_self, List.length_append]
      split_ifs at hShort ⊢ <;> omega
    · rw [receive_down_ne w hji]
      rcases hTarget with rfl | ⟨rfl, rfl⟩
      · exact hShort
      · rw [if_neg (by simp [Ne.symm hji])] at hShort
        rw [if_neg (by simp)]
        exact hShort
  case poll_target =>
    intro j q hq hPoll
    have hNone := hInv.poll_target j q
      (mem_of_mem_receive hDown hq) hPoll
    rcases hTarget with hEq | ⟨_, hEq⟩
    · exact hEq.trans hNone
    · exact hEq
  case query_entered =>
    intro j q hq hCommand
    exact hQuery j q (mem_of_mem_receive hDown hq) hCommand
  case target_slot => exact hSlot
  case replies =>
    intro q hq
    rcases List.mem_append.mp hq with hOld | hNew
    · have hReply := hInv.replies q hOld
      refine ⟨hReply.tipo, hReply.service, hReply.id, ?_⟩
      intro hCommand
      rcases hReply.caller hCommand with ⟨j, hj⟩
      exact ⟨j, hj.receive hDown u⟩
    · exact hReplies q hNew
  case heard =>
    intro hCounter
    rcases hInv.heard hCounter with ⟨j, hj⟩
    exact ⟨j, hj.receive hDown u⟩
  case last => exact hLast

end World

end Rfid

end Ns2

------------------------------------------------------------
-- The Three Receptions
------------------------------------------------------------

namespace Ns2

namespace Rfid

namespace World

variable {n : Nat}

/- The reply of a tag that answers in this slot. -/
theorem reply_of_send
    {w : World n}
    {i : Fin n}
    {before after : List Packet}
    {p : Packet}
    {u : Rat}
    (hPacket : p.InSession w.reader (w.tags i))
    {command : Command}
    (hCaller : command ≠ .TC_REPLY →
      ((w.tags i).recv p u).1.state ≠ .T_ACKNOWLEDGED ∧
        ((w.tags i).recv p u).1.slot = 0 ∧
        before ++ after = []) :
    (w.receive i p (before ++ after) u).ReplyInSession
      (((w.tags i).recv p u).1.sendPacket p command) := by
  refine ⟨rfl, hPacket.service, hPacket.id, ?_⟩
  intro hCommand
  rcases hCaller hCommand with ⟨hState, hSlot, hRest⟩
  refine ⟨i, ?_⟩
  constructor
  case down =>
    rw [receive_down_self]
    exact hRest
  all_goals rw [receive_tags_self]
  case tagEPC => rfl
  case saddr => rfl
  case state => exact hState
  case slot => exact hSlot

/- The only packet in flight to a tag that is no target. -/
theorem QInv.rest_nil
    {w : World n}
    {target : Option (Fin n)}
    (hInv : w.QInv target)
    {i : Fin n}
    {before after : List Packet}
    {p : Packet}
    (hDown : w.down i = before ++ p :: after)
    (hTarget : target ≠ some i) :
    before ++ after = [] := by
  have hShort := hInv.short i
  rw [hDown, if_neg hTarget, List.length_append,
    List.length_cons] at hShort
  apply List.eq_nil_of_length_eq_zero
  rw [List.length_append]
  omega

/- A reply to the last poll is counted. -/
theorem LastPoll.receive
    {w : World n}
    (hLast : w.LastPoll)
    {i : Fin n}
    {before after : List Packet}
    {p : Packet}
    {u : Rat}
    (hDown : w.down i = before ++ p :: after)
    (hRest : before ++ after = [])
    (hNext :
      ((w.tags i).recv p u).1.state = .T_ACKNOWLEDGED ∧
          ((w.tags i).recv p u).2 = [] ∨
        ∃ q, q.command ≠ .TC_REPLY ∧
          ((w.tags i).recv p u).2 = [q]) :
    (w.receive i p (before ++ after) u).LastPoll := by
  have hNot : i ∉ w.replied := by
    intro hMem
    have hEmpty := hLast.received i hMem
    rw [hDown] at hEmpty
    simp at hEmpty
  -- With a reply the tag joins those that replied.
  have hReplied :
      (w.receive i p (before ++ after) u).replied =
          w.replied ∧
        ((w.tags i).recv p u).1.state = .T_ACKNOWLEDGED ∧
        ((w.tags i).recv p u).2 = [] ∨
      (w.receive i p (before ++ after) u).replied =
          w.replied ++ [i] ∧
        ∃ q, q.command ≠ .TC_REPLY ∧
          ((w.tags i).recv p u).2 = [q] := by
    rcases hNext with ⟨hState, hOut⟩ | ⟨q, hCommand, hOut⟩
    · exact Or.inl
        ⟨receive_replied_of_silent hOut _, hState, hOut⟩
    · exact Or.inr
        ⟨receive_replied_of_reply hOut _, q, hCommand, hOut⟩
  constructor
  case polls =>
    intro j q hq
    exact hLast.polls j q (mem_of_mem_receive hDown hq)
  case counted =>
    intro q hq
    rw [receive_up] at hq
    rcases List.mem_append.mp hq with hOld | hNew
    · exact hLast.counted q hOld
    · rcases hNext with ⟨_, hOut⟩ | ⟨q', hCommand, hOut⟩
      · rw [hOut] at hNew
        cases hNew
      · rw [hOut] at hNew
        rw [List.mem_singleton.mp hNew]
        exact hCommand
  case heard =>
    intro j hj
    by_cases hji : j = i
    · subst hji
      rw [receive_tags_self]
      rcases hReplied with ⟨_, hState, _⟩ | ⟨hEq, _⟩
      · exact Or.inl hState
      · apply Or.inr
        rw [hEq]
        exact List.mem_append_right _ (List.mem_singleton_self j)
    · rw [receive_down_ne w hji] at hj
      rw [receive_tags_ne w hji]
      rcases hLast.heard j hj with hState | hMem
      · exact Or.inl hState
      · apply Or.inr
        rcases hReplied with ⟨hEq, _⟩ | ⟨hEq, _⟩
        · rw [hEq]
          exact hMem
        · rw [hEq]
          exact List.mem_append_left _ hMem
  case nodup =>
    rcases hReplied with ⟨hEq, _⟩ | ⟨hEq, _⟩
    · rw [hEq]
      exact hLast.nodup
    · rw [hEq, List.nodup_append]
      refine ⟨hLast.nodup, by simp, ?_⟩
      intro j hj k hk hSame
      cases List.mem_singleton.mp hk
      exact hNot (hSame ▸ hj)
  case received =>
    intro j hj
    by_cases hji : j = i
    · subst hji
      rw [receive_down_self]
      exact hRest
    · rw [receive_down_ne w hji]
      rcases hReplied with ⟨hEq, _⟩ | ⟨hEq, _⟩
      · rw [hEq] at hj
        exact hLast.received j hj
      · rw [hEq] at hj
        rcases List.mem_append.mp hj with hOld | hNew
        · exact hLast.received j hOld
        · exact absurd (List.mem_singleton.mp hNew) hji
  case count =>
    have hCount := hLast.count
    rw [receive_reader, receive_up, List.length_append]
    rcases hReplied with ⟨hEq, _, hOut⟩ | ⟨hEq, q, _, hOut⟩
    · rw [hEq, hOut]
      simpa using hCount
    · rw [hEq, hOut, List.length_append]
      simp only [List.length_singleton]
      push_cast
      omega

theorem QInv.receive_poll
    {w : World n}
    {target : Option (Fin n)}
    (hInv : w.QInv target)
    {i : Fin n}
    {before after : List Packet}
    {p : Packet}
    {u : Rat}
    (hDown : w.down i = before ++ p :: after)
    (hMem : p ∈ w.down i)
    (hPoll : p.IsPoll)
    (hu : 0 ≤ u)
    (hu' : u ≤ 1) :
    (w.receive i p (before ++ after) u).QInv target := by
  have hPacket := hInv.packets i p hMem
  have hTarget := hInv.poll_target i p hMem hPoll
  have hRest : before ++ after = [] := by
    apply hInv.rest_nil hDown
    simp [hTarget]
  rcases Tag.recv_poll hPacket.tipo hPacket.service hPoll
      (w.tags i) hu hu' with ⟨hSame, hCases⟩
  have hState : (w.tags i).state ≠ .T_ACKNOWLEDGED →
      ((w.tags i).recv p u).1.state ≠ .T_ACKNOWLEDGED := by
    intro hUnacked
    rcases hCases with ⟨hOld, _⟩ | hDrew
    · exact absurd hOld hUnacked
    · exact hDrew.state
  have hEntered := receive_entered hState (before ++ after)
  apply hInv.of_receive hDown hSame ?hTally (Or.inl rfl)
  case hTally =>
    apply hInv.tally.receive_other hDown hPoll.not_reply ?_ hState
    intro hMemEntered
    rcases hCases with ⟨_, hNew, _⟩ | hDrew
    · exact hNew
    · have hOld := hInv.tally.acknowledged i hMemEntered
      rcases hDrew.eligible with hUnacked | hQuery
      · exact absurd hOld hUnacked
      · rw [hInv.query_entered i p hMem hQuery] at hMemEntered
        cases hMemEntered
  case hQuery =>
    intro j q hq hCommand
    rw [hEntered]
    exact hInv.query_entered j q hq hCommand
  case hSlot =>
    intro j hj
    rw [hTarget] at hj
    cases hj
  case hReplies =>
    intro q hq
    rcases hCases with ⟨_, _, hOut⟩ | hDrew
    · rw [hOut] at hq
      cases hq
    · rcases hDrew.replies with ⟨hSlot, hOut⟩ | ⟨_, hOut⟩
      · rw [hOut] at hq
        rw [List.mem_singleton.mp hq]
        apply reply_of_send hPacket
        intro _
        exact ⟨hDrew.state, hSlot, hRest⟩
      · rw [hOut] at hq
        cases hq
  case hLast =>
    intro hQ
    rcases hInv.last hQ with hLast | hLast
    · apply Or.inl
      apply hLast.receive hDown hRest
      rcases hCases with ⟨_, hNew, hOut⟩ | hDrew
      · exact Or.inl ⟨hNew, hOut⟩
      · have hSlot := hDrew.last (hPacket.qValue.trans hQ)
        rcases hDrew.replies with ⟨_, hOut⟩ | ⟨hNe, _⟩
        · refine Or.inr ⟨_, ?_, hOut⟩
          rcases hPoll with hQuery | hAdjust
          · simp [Tag.sendPacket, hQuery]
          · simp [Tag.sendPacket, hAdjust]
        · exact absurd hSlot hNe
    · exact absurd (hLast.commands i p hMem) hPoll.command_ne

theorem QInv.receive_update
    {w : World n}
    {target : Option (Fin n)}
    (hInv : w.QInv target)
    {i : Fin n}
    {before after : List Packet}
    {p : Packet}
    (hDown : w.down i = before ++ p :: after)
    (hMem : p ∈ w.down i)
    (hUpdate : p.IsUpdate)
    (u : Rat) :
    (w.receive i p (before ++ after) u).QInv target := by
  have hPacket := hInv.packets i p hMem
  rcases Tag.recv_update hPacket.tipo hPacket.service
      hUpdate.command hUpdate.tagEPC (hInv.tagEPC_ne i) u with
    ⟨hSame, hIff, hCases⟩
  have hState : (w.tags i).state ≠ .T_ACKNOWLEDGED →
      ((w.tags i).recv p u).1.state ≠ .T_ACKNOWLEDGED :=
    fun hUnacked hNew => hUnacked (hIff.mp hNew)
  have hEntered := receive_entered hState (before ++ after)
  -- The target waits in slot 0 and does not answer.
  have hAnswer : 0 < (w.tags i).slot → target ≠ some i := by
    intro hPos hTarget
    have := hInv.target_slot i hTarget
    omega
  apply hInv.of_receive hDown hSame ?hTally (Or.inl rfl)
  case hTally =>
    apply hInv.tally.receive_other hDown hUpdate.not_reply ?_
      hState
    intro hMemEntered
    exact hIff.mpr (hInv.tally.acknowledged i hMemEntered)
  case hQuery =>
    intro j q hq hCommand
    rw [hEntered]
    exact hInv.query_entered j q hq hCommand
  case hSlot =>
    intro j hj
    have hZero := hInv.target_slot j hj
    by_cases hji : j = i
    · subst hji
      rw [receive_tags_self]
      rcases hCases with ⟨hKeep, _⟩ | ⟨⟨_, hPos⟩, _⟩
      · exact hKeep hZero
      · exact absurd hj (hAnswer hPos)
    · rw [receive_tags_ne w hji]
      exact hZero
  case hReplies =>
    intro q hq
    rcases hCases with
      ⟨_, hOut⟩ | ⟨⟨hUnacked, hPos⟩, hSlot, hOut⟩
    · rw [hOut] at hq
      cases hq
    · rw [hOut] at hq
      rw [List.mem_singleton.mp hq]
      apply reply_of_send hPacket
      intro _
      exact ⟨hState hUnacked, hSlot,
        hInv.rest_nil hDown (hAnswer hPos)⟩
  case hLast =>
    intro hQ
    rcases hInv.last hQ with hLast | hLast
    · exact absurd hUpdate.command
        (hLast.polls i p hMem).command_ne
    · apply Or.inr
      have hOut : ((w.tags i).recv p u).2 = [] := by
        rcases hCases with ⟨_, hOut⟩ | ⟨⟨hUnacked, hPos⟩, _⟩
        · exact hOut
        · rcases hLast.others i with hOld | hTarget
          · exact absurd hOld hUnacked
          · exact absurd hTarget (hAnswer hPos)
      constructor
      case others =>
        intro j
        by_cases hji : j = i
        · subst hji
          rw [receive_tags_self, hIff]
          exact hLast.others j
        · rw [receive_tags_ne w hji]
          exact hLast.others j
      case commands =>
        intro j q hq
        exact hLast.commands j q (mem_of_mem_receive hDown hq)
      case counter => exact hLast.counter
      case up =>
        intro q hq
        rcases List.mem_append.mp hq with hOld | hNew
        · exact hLast.up q hOld
        · rw [hOut] at hNew
          cases hNew

theorem QInv.receive_reply
    {w : World n}
    {target : Option (Fin n)}
    (hInv : w.QInv target)
    {i : Fin n}
    {before after : List Packet}
    {p : Packet}
    (hDown : w.down i = before ++ p :: after)
    (hMem : p ∈ w.down i)
    (hReply : p.IsReplyTo (w.tags i))
    (u : Rat) :
    (w.receive i p (before ++ after) u).QInv none := by
  have hPacket := hInv.packets i p hMem
  have hTarget :=
    hInv.tally.target_of_mem hMem hReply.is_reply
  rcases Tag.recv_reply hPacket.tipo hPacket.service
      hReply.command hReply.tagEPC u with
    ⟨hSame, hState, hOut⟩
  apply hInv.of_receive hDown hSame ?hTally
    (Or.inr ⟨hTarget, rfl⟩)
  case hTally =>
    exact hInv.tally.receive_reply hDown hReply.is_reply hState
  case hQuery =>
    intro j q hq hCommand
    have hNone := hInv.poll_target j q hq (Or.inl hCommand)
    rw [hTarget] at hNone
    cases hNone
  case hSlot =>
    intro j hj
    cases hj
  case hReplies =>
    intro q hq
    rw [hOut] at hq
    rw [List.mem_singleton.mp hq]
    apply reply_of_send hPacket
    intro hCommand
    exact absurd rfl hCommand
  case hLast =>
    intro hQ
    rcases hInv.last hQ with hLast | hLast
    · exact absurd hReply.command
        (hLast.polls i p hMem).command_ne
    · apply Or.inr
      constructor
      case others =>
        intro j
        by_cases hji : j = i
        · subst hji
          rw [receive_tags_self]
          exact Or.inl hState
        · rw [receive_tags_ne w hji]
          rcases hLast.others j with hOld | hOther
          · exact Or.inl hOld
          · rw [hTarget] at hOther
            exact absurd (Option.some.inj hOther).symm hji
      case commands =>
        intro j q hq
        exact hLast.commands j q (mem_of_mem_receive hDown hq)
      case counter => exact hLast.counter
      case up =>
        intro q hq
        rcases List.mem_append.mp hq with hOld | hNew
        · exact hLast.up q hOld
        · rw [hOut] at hNew
          rw [List.mem_singleton.mp hNew]
          rfl

end World

end Rfid

end Ns2

------------------------------------------------------------
-- Replies and Ends of a Slot
------------------------------------------------------------

namespace Ns2

namespace Rfid

namespace Reader

theorem recv_standard
    {r : Reader}
    {p : Packet}
    (hTipo : p.tipo = .tr)
    (hId : p.id = r.id)
    (hService : p.service = .standard) :
    r.recv p =
      ({ r.hear p with
        counter :=
          if p.command = .TC_REPLY then 0
          else r.counter + 1 }, []) := by
  simp only [recv, hTipo, hId, hService, and_self, if_true]

end Reader

namespace World

variable {n : Nat}

/- The reader counts a reply, or clears its counter. -/
theorem QInv.answer
    {w : World n}
    {target : Option (Fin n)}
    (hInv : w.QInv target)
    {before after : List Packet}
    {p : Packet}
    (hUp : w.up = before ++ p :: after) :
    (w.answer p (before ++ after)).QInv target := by
  have hMem : p ∈ w.up := by
    rw [hUp]
    simp
  have hRest : ∀ q ∈ before ++ after, q ∈ w.up := by
    intro q hq
    rw [hUp]
    rcases List.mem_append.mp hq with hBefore | hAfter
    · exact List.mem_append_left _ hBefore
    · exact List.mem_append_right _ (List.mem_cons_of_mem _ hAfter)
  have hReply := hInv.replies p hMem
  have hRecv := Reader.recv_standard hReply.tipo hReply.id
    hReply.service
  have hTally := hInv.tally.answer hRecv rfl (before ++ after)
  have hNonneg := hInv.counter_nonneg
  rw [answer_eq hRecv] at hTally ⊢
  constructor
  case tally => exact hTally
  case service => exact hInv.service
  case operation => exact hInv.operation
  case colTimer => exact hInv.colTimer
  case Qfp_nonneg => exact hInv.Qfp_nonneg
  case Qfp_le => exact hInv.Qfp_le
  case counter_nonneg =>
    dsimp only
    split_ifs <;> omega
  case addr_injective => exact hInv.addr_injective
  case addr_ne => exact hInv.addr_ne
  case tagEPC_ne => exact hInv.tagEPC_ne
  case packets =>
    intro i q hq
    have hOld := hInv.packets i q hq
    exact ⟨hOld.tipo, hOld.service, hOld.id, hOld.qValue,
      hOld.kind⟩
  case short => exact hInv.short
  case poll_target => exact hInv.poll_target
  case query_entered => exact hInv.query_entered
  case target_slot => exact hInv.target_slot
  case replies =>
    intro q hq
    have hOld := hInv.replies q (hRest q hq)
    refine ⟨hOld.tipo, hOld.service, hOld.id, ?_⟩
    intro hCommand
    rcases hOld.caller hCommand with ⟨i, hi⟩
    exact ⟨i, hi.tagEPC, hi.saddr, hi.state, hi.slot, hi.down⟩
  case heard =>
    intro hCounter
    by_cases hCommand : p.command = .TC_REPLY
    · simp [hCommand] at hCounter
    · rcases hReply.caller hCommand with ⟨i, hi⟩
      exact ⟨i, hi.tagEPC, hi.saddr, hi.state, hi.slot,
        hi.down⟩
  case last =>
    intro hQ
    rcases hInv.last hQ with hLast | hLast
    · apply Or.inl
      constructor
      case polls => exact hLast.polls
      case counted =>
        intro q hq
        exact hLast.counted q (hRest q hq)
      case heard => exact hLast.heard
      case nodup => exact hLast.nodup
      case received => exact hLast.received
      case count =>
        have hCount := hLast.count
        rw [hUp, List.length_append, List.length_cons]
          at hCount
        dsimp only
        rw [if_neg (hLast.counted p hMem), List.length_append]
        push_cast at hCount ⊢
        omega
    · apply Or.inr
      constructor
      case others => exact hLast.others
      case commands => exact hLast.commands
      case counter => exact if_pos (hLast.up p hMem)
      case up =>
        intro q hq
        exact hLast.up q (hRest q hq)

/- An idle slot at `Q = -1` leaves no tag to acknowledge. -/
theorem QInv.all_acknowledged
    {w : World n}
    {target : Option (Fin n)}
    (hInv : w.QInv target)
    (hQuiet : w.Quiet)
    (hQ : w.reader.qValue = -1)
    (hCounter : w.reader.counter = 0)
    (i : Fin n) :
    (w.tags i).state = .T_ACKNOWLEDGED := by
  rcases hInv.last hQ with hLast | hLast
  · rcases hLast.heard i (hQuiet.down i) with hState | hMem
    · exact hState
    · have hCount := hLast.count
      rw [hCounter, hQuiet.up] at hCount
      have hEmpty : w.replied = [] := by
        apply List.eq_nil_of_length_eq_zero
        simpa using hCount.symm
      rw [hEmpty] at hMem
      cases hMem
  · have hTarget := hInv.tally.target_of_quiet hQuiet.down
    rcases hLast.others i with hState | hSome
    · exact hState
    · rw [hTarget] at hSome
      cases hSome

/- With one reply at `Q = -1` only its sender is left. -/
theorem QInv.last_caller
    {w : World n}
    {target : Option (Fin n)}
    (hInv : w.QInv target)
    (hQuiet : w.Quiet)
    (hQ : w.reader.qValue = -1)
    (hCounter : w.reader.counter = 1)
    {tagEPC saddr : Int}
    {i : Fin n}
    (hCaller : w.Caller tagEPC saddr i)
    (j : Fin n) :
    (w.tags j).state = .T_ACKNOWLEDGED ∨ some i = some j := by
  rcases hInv.last hQ with hLast | hLast
  · have hCount := hLast.count
    rw [hCounter, hQuiet.up] at hCount
    rcases List.length_eq_one_iff.mp
        (show w.replied.length = 1 by simpa using hCount.symm)
      with ⟨k, hk⟩
    rcases hLast.heard j (hQuiet.down j) with hState | hj
    · exact Or.inl hState
    · apply Or.inr
      rcases hLast.heard i (hQuiet.down i) with hState | hi
      · exact absurd hState hCaller.state
      · rw [hk] at hi hj
        rw [List.mem_singleton.mp hi, List.mem_singleton.mp hj]
  · have := hLast.counter
    omega

end World

end Rfid

end Ns2

------------------------------------------------------------
-- Whole Sessions
------------------------------------------------------------

namespace Ns2

namespace Rfid

namespace World

variable {n : Nat}

/- What the end of a slot has to establish. -/
theorem QInv.of_end_slot
    {w w' : World n}
    {target target' : Option (Fin n)}
    (hInv : w.QInv target)
    (hSame : w.reader.SameSession w'.reader)
    (hTags : w'.tags = w.tags)
    (hUp : w'.up = [])
    (hCounter : w'.reader.counter = 0)
    (hTally : w'.Tally target')
    (hPackets : ∀ i, ∀ p ∈ w'.down i,
      p.InSession w'.reader (w.tags i))
    (hQuery : ∀ i, ∀ p ∈ w'.down i, p.command ≠ .RC_QUERY)
    (hShort : ∀ i, (w'.down i).length ≤
      if target' = some i then 2 else 1)
    (hPoll : ∀ i, ∀ p ∈ w'.down i, p.IsPoll →
      target' = none)
    (hSlot : ∀ i, target' = some i → (w.tags i).slot = 0)
    (hLast : w'.reader.qValue = -1 →
      w'.LastPoll ∨ w'.LastReply target') :
    w'.QInv target' := by
  constructor
  case tally => exact hTally
  case service => exact hSame.service.trans hInv.service
  case operation => exact hSame.operation.trans hInv.operation
  case colTimer => exact hSame.colTimer.trans hInv.colTimer
  case Qfp_nonneg => exact hSame.Qfp_nonneg
  case Qfp_le => exact hSame.Qfp_le
  case counter_nonneg => exact hCounter.ge
  case addr_injective =>
    rw [hTags]
    exact hInv.addr_injective
  case addr_ne =>
    rw [hTags]
    exact hInv.addr_ne
  case tagEPC_ne =>
    rw [hTags]
    exact hInv.tagEPC_ne
  case packets =>
    rw [hTags]
    exact hPackets
  case short => exact hShort
  case poll_target => exact hPoll
  case query_entered =>
    intro i p hp hCommand
    exact absurd hCommand (hQuery i p hp)
  case target_slot =>
    rw [hTags]
    exact hSlot
  case replies =>
    rw [hUp]
    intro p hp
    cases hp
  case heard =>
    intro hPos
    omega
  case last => exact hLast

/- A broadcast reaches every tag. -/
theorem filter_broadcast
    {p : Packet}
    (hAddr : p.daddr = IP_BROADCAST)
    (t : Tag) :
    [p].filter (·.reaches t) = [p] := by
  simp [Packet.reaches, hAddr]

/- The session ends, or a poll opens the next slot. -/
theorem QInv.end_slot_idle
    {w w' : World n}
    {target : Option (Fin n)}
    (hInv : w.QInv target)
    (hQuiet : w.Quiet)
    (hSame : w.reader.SameSession w'.reader)
    (hTags : w'.tags = w.tags)
    (hUp : w'.up = [])
    (hEntered : w'.entered = w.entered)
    (hReplied : w'.replied = [])
    (hCounter : w'.reader.counter = 0)
    (hSuccess : w'.reader.success = w.reader.success)
    (hDown :
      (w.reader.qValue = -1 ∧ w.reader.counter = 0 ∧
        ∀ i, w'.down i = []) ∨
      ∀ i, w'.down i = [w'.reader.send_query_ajust]) :
    w'.QInv none := by
  have hMem : ∀ i, ∀ p ∈ w'.down i,
      p = w'.reader.send_query_ajust := by
    intro i p hp
    rcases hDown with ⟨_, _, hEmpty⟩ | hPoll
    · rw [hEmpty i] at hp
      cases hp
    · rw [hPoll i] at hp
      exact List.mem_singleton.mp hp
  have hTally : w'.Tally none := by
    apply hInv.tally.end_slot hQuiet.down hTags hEntered
    case hPending =>
      intro i
      rw [if_neg (by simp), List.countP_eq_zero]
      intro p hp
      have hPoll : w'.reader.send_query_ajust.IsPoll :=
        Or.inr rfl
      rw [hMem i p hp, hPoll.not_reply]
      exact Bool.false_ne_true
    case hWaiting =>
      intro i hi
      cases hi
    case hSuccess => simpa using hSuccess
  apply hInv.of_end_slot hSame hTags hUp hCounter hTally
  case hPackets =>
    intro i p hp
    rw [hMem i p hp]
    exact ⟨rfl, hSame.service.trans hInv.service, rfl, rfl,
      Or.inl (Or.inr rfl)⟩
  case hQuery =>
    intro i p hp
    rw [hMem i p hp]
    simp [Reader.send_query_ajust, Reader.header]
  case hShort =>
    intro i
    rw [if_neg (by simp)]
    rcases hDown with ⟨_, _, hEmpty⟩ | hPoll
    · simp [hEmpty i]
    · simp [hPoll i]
  case hPoll =>
    intro i p hp _
    rfl
  case hSlot =>
    intro i hi
    cases hi
  case hLast =>
    intro _
    rcases hDown with ⟨hQ, hIdle, hEmpty⟩ | hPoll
    · apply Or.inr
      constructor
      case others =>
        intro i
        rw [hTags]
        exact Or.inl (hInv.all_acknowledged hQuiet hQ hIdle i)
      case commands =>
        intro i p hp
        rw [hEmpty i] at hp
        cases hp
      case counter => exact hCounter
      case up =>
        rw [hUp]
        intro p hp
        cases hp
    · apply Or.inl
      constructor
      case polls =>
        intro i p hp
        rw [hMem i p hp]
        exact Or.inr rfl
      case counted =>
        rw [hUp]
        intro p hp
        cases hp
      case heard =>
        intro i hi
        rw [hPoll i] at hi
        cases hi
      case nodup =>
        rw [hReplied]
        exact List.nodup_nil
      case received =>
        rw [hReplied]
        intro i hi
        cases hi
      case count => simp [hCounter, hUp, hReplied]

/- One tag gets its query reply, and the others count down. -/
theorem QInv.end_slot_single
    {w w' : World n}
    {target : Option (Fin n)}
    (hInv : w.QInv target)
    (hQuiet : w.Quiet)
    (hSame : w.reader.SameSession w'.reader)
    (hTags : w'.tags = w.tags)
    (hUp : w'.up = [])
    (hEntered : w'.entered = w.entered)
    (hOne : w.reader.counter = 1)
    (hCounter : w'.reader.counter = 0)
    (hSuccess : w'.reader.success = w.reader.success + 1)
    (hQ : w'.reader.qValue = w.reader.qValue)
    {i : Fin n}
    (hCaller :
      w.Caller w'.reader.tagEPC w'.reader.tagIP i)
    (hDown : ∀ j, w'.down j =
      [w'.reader.send_query_reply,
        w'.reader.send_query_reply_update_slot].filter
          (·.reaches (w.tags j))) :
    w'.QInv (some i) := by
  have hAddr : w'.reader.send_query_reply.daddr =
      (w.tags i).addr := hCaller.saddr
  have hIs : w'.reader.send_query_reply.IsReplyTo
      (w.tags i) :=
    ⟨rfl, hCaller.tagEPC, fun h =>
      hInv.addr_ne i (hAddr.symm.trans h)⟩
  have hUpdate :
      w'.reader.send_query_reply_update_slot.IsUpdate :=
    ⟨rfl, rfl, rfl⟩
  -- The target gets both packets and the others the update.
  have hDown' : ∀ j, w'.down j =
      if some i = some j then
        [w'.reader.send_query_reply,
          w'.reader.send_query_reply_update_slot]
      else [w'.reader.send_query_reply_update_slot] := by
    intro j
    rw [hDown j, List.filter_cons,
      filter_broadcast hUpdate.daddr]
    by_cases hji : some i = some j
    · cases hji
      rw [if_pos (by simp [Packet.reaches, hAddr]), if_pos rfl]
    · rw [if_neg hji, if_neg]
      intro hReaches
      simp only [Packet.reaches, Bool.or_eq_true,
        decide_eq_true_eq] at hReaches
      rcases hReaches with hAll | hEq
      · exact hIs.daddr hAll
      · rw [hAddr] at hEq
        exact hji (congrArg some (hInv.addr_injective i j hEq))
  have hMem : ∀ j, ∀ p ∈ w'.down j,
      (some i = some j ∧
          p = w'.reader.send_query_reply) ∨
        p = w'.reader.send_query_reply_update_slot := by
    intro j p hp
    rw [hDown' j] at hp
    by_cases hji : some i = some j
    · rw [if_pos hji] at hp
      simpa [hji] using hp
    · rw [if_neg hji] at hp
      exact Or.inr (List.mem_singleton.mp hp)
  have hCommand : ∀ j, ∀ p ∈ w'.down j,
      p.command = .RC_QUERYREPLY := by
    intro j p hp
    rcases hMem j p hp with ⟨_, rfl⟩ | rfl
    · rfl
    · rfl
  have hTally : w'.Tally (some i) := by
    apply hInv.tally.end_slot hQuiet.down hTags hEntered
    case hPending =>
      intro j
      rw [hDown' j]
      split_ifs
      · simp [hIs.is_reply, hUpdate.not_reply]
      · simp [hUpdate.not_reply]
    case hWaiting =>
      intro j hj
      cases hj
      exact hCaller.state
    case hSuccess => simpa using hSuccess
  apply hInv.of_end_slot hSame hTags hUp hCounter hTally
  case hPackets =>
    intro j p hp
    have hService := hSame.service.trans hInv.service
    rcases hMem j p hp with ⟨hji, rfl⟩ | rfl
    · cases hji
      exact ⟨rfl, hService, rfl, rfl, Or.inr (Or.inr hIs)⟩
    · exact ⟨rfl, hService, rfl, rfl, Or.inr (Or.inl hUpdate)⟩
  case hQuery =>
    intro j p hp
    simp [hCommand j p hp]
  case hShort =>
    intro j
    rw [hDown' j]
    split_ifs <;> simp
  case hPoll =>
    intro j p hp hPoll
    exact absurd (hCommand j p hp) hPoll.command_ne
  case hSlot =>
    intro j hj
    cases hj
    exact hCaller.slot
  case hLast =>
    intro hLast
    apply Or.inr
    constructor
    case others =>
      rw [hTags]
      exact hInv.last_caller hQuiet (hQ ▸ hLast) hOne hCaller
    case commands => exact hCommand
    case counter => exact hCounter
    case up =>
      rw [hUp]
      intro p hp
      cases hp

/- The end of a slot keeps the invariant. -/
theorem QInv.expireRs
    {w : World n}
    {target : Option (Fin n)}
    (hInv : w.QInv target)
    (eomlee : Int → Int → Int → Int)
    (hQuiet : w.Quiet) :
    ∃ target', (w.expireRs eomlee).QInv target' := by
  rcases Reader.sing_of_expireRs eomlee hInv.operation
      hInv.counter_nonneg hInv.Qfp_nonneg hInv.Qfp_le with
    ⟨hSame, hSing⟩
  have hDown : ∀ i, (w.expireRs eomlee).down i =
      (w.reader.expireRs eomlee).2.filter
        (·.reaches (w.tags i)) := by
    intro i
    simp only [World.expireRs, post, hQuiet.down i,
      List.nil_append]
  generalize hOut : (w.reader.expireRs eomlee).2 = out
    at hSing hDown
  cases hSing with
  | stop hCounter hLast hCounter' hSuccess =>
      refine ⟨none, hInv.end_slot_idle hQuiet hSame rfl
        hQuiet.up rfl rfl hCounter' hSuccess
        (Or.inl ⟨hLast, hCounter, ?_⟩)⟩
      exact hDown
  | poll hCounter' hSuccess hStop =>
      refine ⟨none, hInv.end_slot_idle hQuiet hSame rfl
        hQuiet.up rfl rfl hCounter' hSuccess
        (Or.inr ?_)⟩
      intro i
      rw [hDown i]
      exact filter_broadcast rfl (w.tags i)
  | single hCounter hCounter' hSuccess hQ hEPC hIP hPending =>
      rcases hInv.heard (by omega) with ⟨i, hi⟩
      rw [← hEPC, ← hIP] at hi
      exact ⟨some i, @QInv.end_slot_single n w
        (w.expireRs eomlee) target hInv hQuiet hSame rfl
        hQuiet.up rfl hCounter hCounter' hSuccess hQ i hi
        hDown⟩

/- Every step keeps the invariant. -/
theorem QInv.step
    {eomlee : Int → Int → Int → Int}
    {ordered : Packet → Bool}
    {w w' : World n}
    (hInv : ∃ target, w.QInv target)
    (hStep : Step eomlee ordered w w') :
    ∃ target, w'.QInv target := by
  rcases hInv with ⟨target, hInv⟩
  cases hStep with
  | expireRs hPending hQuiet =>
      exact hInv.expireRs eomlee hQuiet
  | expireCol hPending hQuiet =>
      rw [hInv.colTimer] at hPending
      cases hPending
  | receive i before after p u hDown hOrder hu hu' =>
      have hMem : p ∈ w.down i := by
        rw [hDown]
        simp
      rcases (hInv.packets i p hMem).kind with
        hPoll | hUpdate | hReply
      · exact ⟨target,
          hInv.receive_poll hDown hMem hPoll hu hu'⟩
      · exact ⟨target,
          hInv.receive_update hDown hMem hUpdate u⟩
      · exact ⟨none, hInv.receive_reply hDown hMem hReply u⟩
  | answer before after p hUp =>
      exact ⟨target, hInv.answer hUp⟩

/- The invariant after the start command. -/
theorem QInv.start
    {r : Reader}
    {tags : Fin n → Tag}
    (hService : r.service = .standard)
    (hCounter : r.counter = 0)
    (hNonneg : 0 ≤ r.Qfp)
    (hLe : r.Qfp ≤ 15)
    (hTimer : r.colTimer = false)
    (hAddr : ∀ i j, (tags i).addr = (tags j).addr → i = j)
    (hAddrNe : ∀ i, (tags i).addr ≠ IP_BROADCAST)
    (hEPC : ∀ i, (tags i).tagEPC ≠ IP_BROADCAST) :
    (World.start r.standard_query_tags tags).QInv none := by
  have hDown : ∀ i,
      (World.start r.standard_query_tags tags).down i =
        [r.send_query] := by
    intro i
    have hAll : r.send_query.daddr = IP_BROADCAST := rfl
    exact filter_broadcast hAll (tags i)
  have hMem : ∀ i, ∀ p ∈
      (World.start r.standard_query_tags tags).down i,
        p = r.send_query := by
    intro i p hp
    rw [hDown i] at hp
    exact List.mem_singleton.mp hp
  constructor
  case tally =>
    constructor
    case nodup => exact List.nodup_nil
    case acknowledged =>
      intro i hi
      cases hi
    case pending =>
      intro i
      rw [hDown i]
      rfl
    case waiting =>
      intro i hi
      cases hi
    case success => rfl
  case service => exact hService
  case operation => rfl
  case colTimer => exact hTimer
  case Qfp_nonneg => exact hNonneg
  case Qfp_le => exact hLe
  case counter_nonneg => exact hCounter.ge
  case addr_injective => exact hAddr
  case addr_ne => exact hAddrNe
  case tagEPC_ne => exact hEPC
  case packets =>
    intro i p hp
    rw [hMem i p hp]
    exact ⟨rfl, hService, rfl, rfl, Or.inl (Or.inl rfl)⟩
  case short =>
    intro i
    rw [hDown i]
    simp
  case poll_target =>
    intro i p hp _
    rfl
  case query_entered =>
    intro i p hp _
    rfl
  case target_slot =>
    intro i hi
    cases hi
  case replies =>
    intro p hp
    cases hp
  case heard =>
    intro hPos
    exact absurd hPos (by
      show ¬ 0 < r.counter
      omega)
  case last =>
    intro _
    apply Or.inl
    constructor
    case polls =>
      intro i p hp
      rw [hMem i p hp]
      exact Or.inl rfl
    case counted =>
      intro p hp
      cases hp
    case heard =>
      intro i hi
      rw [hDown i] at hi
      cases hi
    case nodup => exact List.nodup_nil
    case received =>
      intro i hi
      cases hi
    case count =>
      show r.counter + _ = _
      rw [hCounter]
      rfl

/-
  At every point of every session of the Q algorithm the
  success counter is the number of tags that entered the
  acknowledged state, plus the query reply in flight, if
  there is one; and when a slot ends and the reader stops,
  but not after a collision at `Q = 15`, all tags are
  acknowledged.
-/
theorem q_algorithm_session
    (eomlee : Int → Int → Int → Int)
    (r : Reader)
    (tags : Fin n → Tag)
    (hService : r.service = .standard)
    (hCounter : r.counter = 0)
    (hNonneg : 0 ≤ r.Qfp)
    (hLe : r.Qfp ≤ 15)
    (hTimer : r.colTimer = false)
    (hAddr : ∀ i j, (tags i).addr = (tags j).addr → i = j)
    (hAddrNe : ∀ i, (tags i).addr ≠ IP_BROADCAST)
    (hEPC : ∀ i, (tags i).tagEPC ≠ IP_BROADCAST)
    (actions : List (Action n))
    (w : World n)
    (hRun : (World.start r.standard_query_tags tags).run
      eomlee (fun _ => false) actions = some w) :
    (∃ target, w.Tally target) ∧
      (w.quiet = true →
        w.reader.success = w.entered.length) ∧
      ∀ w', w.act eomlee (fun _ => false) .expireRs =
          some w' →
        w'.reader.rsTimer = false →
        ¬ (1 < w.reader.counter ∧ w'.reader.qValue = 15) →
        ∀ i, (w'.tags i).state = .T_ACKNOWLEDGED := by
  have hStart : ∃ target,
      (World.start r.standard_query_tags tags).QInv target :=
    ⟨none, QInv.start hService hCounter hNonneg hLe hTimer
      hAddr hAddrNe hEPC⟩
  rcases run_invariant (fun _ _ => QInv.step) hStart hRun with
    ⟨target, hInv⟩
  refine ⟨⟨target, hInv.tally⟩, ?_, ?_⟩
  · intro hQuiet
    have hNone := hInv.tally.target_of_quiet
      ((quiet_iff w).mp hQuiet).down
    have hSuccess := hInv.tally.success
    rw [hNone] at hSuccess
    simpa using hSuccess
  · intro w' hAct hStop hOther i
    simp only [act, Option.ite_none_right_eq_some,
      Option.some.injEq] at hAct
    rcases hAct with ⟨⟨_, hQuiet⟩, rfl⟩
    have hQuiet := (quiet_iff w).mp hQuiet
    rcases Reader.sing_of_expireRs eomlee hInv.operation
        hInv.counter_nonneg hInv.Qfp_nonneg hInv.Qfp_le with
      ⟨_, hSing⟩
    generalize hOut : (w.reader.expireRs eomlee).2 = out
      at hSing
    cases hSing with
    | stop hIdle hLast =>
        exact hInv.all_acknowledged hQuiet hLast hIdle i
    | poll hCounter' hSuccess hEnd =>
        exact absurd (hEnd hStop) hOther
    | single hOne hCounter' hSuccess hQ hTag hIP hPending =>
        exact absurd (hPending.symm.trans hStop) (by simp)

/- One tag is identified, and the session stops. -/
theorem q_algorithm_session_one_tag :
    ∃ w w' : World 1,
      w.act (fun _ _ _ => 0) (fun _ => false) .expireRs =
        some w' ∧
      (w'.tags 0).state = .T_ACKNOWLEDGED ∧
      w.reader.success = w.entered.length ∧
      w.entered = [0] := by
  have hRun :
      ((World.start { Reader.new 0 with
          qValue := 0, Qfp := 0 }.standard_query_tags
        (fun _ : Fin 1 => Tag.new 5 1)).run
          (fun _ _ _ => 0) (fun _ => false)
          [.receive 0 0 0, .answer 0, .expireRs,
            .receive 0 0 0, .receive 0 0 0, .answer 0,
            .expireRs, .receive 0 0 0]).bind (fun w =>
        (w.act (fun _ _ _ => 0) (fun _ => false)
          .expireRs).map fun w' =>
            (w.quiet, w.entered, w'.reader.rsTimer,
              w'.reader.qValue)) =
        some (true, [0], false, -1) := by decide +kernel
  rcases Option.bind_eq_some_iff.mp hRun with ⟨w, hw, hMap⟩
  rcases Option.map_eq_some_iff.mp hMap with ⟨w', hAct, hEq⟩
  simp only [Prod.mk.injEq] at hEq
  rcases hEq with ⟨hQuiet, hEntered, hTimer, hQ⟩
  rcases q_algorithm_session (fun _ _ _ => 0)
      { Reader.new 0 with qValue := 0, Qfp := 0 }
      (fun _ : Fin 1 => Tag.new 5 1) rfl rfl
      (by decide +kernel) (by decide +kernel) rfl
      (by decide) (by decide) (by decide) _ w hw with
    ⟨_, hSuccess, hStop⟩
  refine ⟨w, w', hAct, ?_, hSuccess hQuiet, hEntered⟩
  apply hStop w' hAct hTimer
  rintro ⟨_, hFifteen⟩
  rw [hQ] at hFifteen
  cases hFifteen

/-
  A tag whose code is the broadcast code takes the update
  for its query reply and is acknowledged uncounted; and the
  counter runs ahead while a query reply is in flight.
-/
theorem broadcast_code_uncounted :
    ((World.start { Reader.new 0 with
        qValue := 1, Qfp := 1 }.standard_query_tags
      (fun i : Fin 2 =>
        if i = 0 then Tag.new 5 1 else Tag.new (-1) 2)).run
        (fun _ _ _ => 0) (fun _ => false)
        [.receive 0 0 0, .receive 1 0 1, .answer 0, .expireRs,
          .receive 0 0 0, .receive 0 0 0, .receive 1 0 0,
          .answer 0, .answer 0]).map (fun w =>
      (w.quiet, w.reader.success, w.entered)) =
      some (true, 1, [0, 1]) ∧
    ((World.start { Reader.new 0 with
        qValue := 0, Qfp := 0 }.standard_query_tags
      (fun _ : Fin 1 => Tag.new 5 1)).run
        (fun _ _ _ => 0) (fun _ => false)
        [.receive 0 0 0, .answer 0, .expireRs]).map (fun w =>
      (w.reader.success, w.entered)) = some (1, []) := by
  constructor
  · decide +kernel
  · decide +kernel

end World

end Rfid

end Ns2
