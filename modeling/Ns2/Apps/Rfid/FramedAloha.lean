import Ns2.Apps.Rfid.Frames

/-
  Sessions of framed ALOHA, and of the proposed algorithm.

  A frame with a collision is followed by another one.  In the
  proposed algorithm a collision of the main frame is resolved
  by frames of its own before the next slot of the main frame
  is called, with the same slot variable of the tags: the tags
  of the collision carry its mark, and all others wait for a
  later slot and carry none.

  Main declarations:
    * `Reader.Turn`, `Reader.SubTurn`
    * `Reader.turn_of_start_edfsa`
    * `Reader.turn_of_start_estimationDFSA`
    * `Reader.turn_of_resolve_collisions`
    * `World.MainSlot`, `World.SubSlot`, `World.Contest`

  Correctness is proven by:
    * `World.framed_aloha_session`
    * `World.collision_resolution_session`
-/

------------------------------------------------------------
-- Ends of a Slot
------------------------------------------------------------

namespace Ns2

namespace Rfid

namespace Reader

/- The methods whose frame sizes are multiples. -/
def Multiplies (method : Int) : Prop :=
  method = 0 ∨ method = 1 ∨ method = 3 ∨ method = 4

theorem frameSize_pos
    {col method : Int}
    (hMethod : Multiplies method)
    (hCol : 0 < col)
    (eomlee : Int → Int → Int → Int)
    (r : Reader)
    (suc rep : Int) :
    ∃ size, r.frameSize eomlee col suc method rep =
      some size ∧ 1 ≤ size := by
  have hOne : (1 : Rat) ≤ col := by exact_mod_cast hCol
  unfold frameSize
  rcases hMethod with h | h | h | h
  · rw [h, if_pos rfl]
    exact ⟨_, rfl, by omega⟩
  · rw [h, if_neg (by decide), if_pos rfl]
    refine ⟨_, rfl, le_cround (by decide) ?_⟩
    push_cast
    linarith
  · rw [h, if_neg (by decide), if_neg (by decide),
      if_neg (by decide), if_pos rfl]
    refine ⟨_, rfl, le_ctrunc (by decide) ?_⟩
    push_cast
    linarith
  · rw [h, if_neg (by decide), if_neg (by decide),
      if_neg (by decide), if_neg (by decide), if_pos rfl]
    refine ⟨_, rfl, le_ctrunc (by decide) ?_⟩
    push_cast
    linarith

/- A frame with a collision is followed by another one. -/
theorem calculate_next_Q_frame
    {col method : Int}
    (hMethod : Multiplies method)
    (hCol : 0 < col)
    (eomlee : Int → Int → Int → Int)
    (r : Reader)
    (suc rep : Int) :
    ∃ size, 1 ≤ size ∧
      r.calculate_next_Q eomlee col suc method rep =
        r.startFrame size rep := by
  rcases frameSize_pos hMethod hCol eomlee r suc rep with
    ⟨size, hSize, hPos⟩
  refine ⟨size, hPos, ?_⟩
  simp only [calculate_next_Q, hCol, if_true, hSize]

/- What the end of a slot does not change. -/
structure SameContest (r r' : Reader) : Prop where
  id : r'.id = r.id
  service : r'.service = r.service
  operation : r'.operation = r.operation
  estMethod : r'.estMethod = r.estMethod
  initialFrameSize : r'.initialFrameSize = r.initialFrameSize
  success : r'.success =
    r.success + if r.counter = 1 then 1 else 0

/-
  What the end of a slot that `rsTimer` ends can do: call the
  next slot, begin another frame, begin to resolve the
  collision, or end the session.
-/
inductive Turn (r r' : Reader) : List Packet → Prop
| call
    (hUniq : r'.uniqCounter = r.uniqCounter + 1)
    (hQ : r'.qValue = r.qValue)
    (hCollisions : r'.collisions =
      r.collisions + if 1 < r.counter then 1 else 0)
    (hSingle : r.operation = 4 → r.counter ≤ 1)
    (hCounter : r'.counter = 0)
    (hRs : r'.rsTimer = true)
    (hCol : r'.colTimer = r.colTimer) :
    Turn r r' [r'.query .RC_SING r'.uniqCounter 0]
| frame
    (hOperation : r.operation = 2)
    (hUniq : r'.uniqCounter = 1)
    (hQ : 1 ≤ r'.qValue)
    (hCollisions : r'.collisions = 0)
    (hCounter : r'.counter = 0)
    (hRs : r'.rsTimer = true)
    (hCol : r'.colTimer = r.colTimer) :
    Turn r r' [r'.query .RC_QUERY r'.uniqCounter 0]
| descend
    (hOperation : r.operation = 4)
    (hSlotNumber : r'.slotNumber = r.uniqCounter)
    (hQ : r'.qValue = r.qValue)
    (hSub : r'.subSlotNumber = 1)
    (hSubQ : r'.subQValue = r.initialFrameSize)
    (hCollisions : r'.collisions = 0)
    (hCounter : r'.counter = 0)
    (hRs : r'.rsTimer = false)
    (hCol : r'.colTimer = true) :
    Turn r r'
      [r'.query .RC_QUERY r'.subSlotNumber r'.slotNumber]
| stop
    (hLast : r.qValue < r.uniqCounter + 1)
    (hSingle : r.counter ≤ 1)
    (hNone : r.operation = 2 → r.collisions ≤ 0)
    (hRs : r'.rsTimer = false)
    (hCol : r'.colTimer = r.colTimer) :
    Turn r r' []

/-
  What the end of a slot that `colTimer` ends can do: call the
  next slot for the tags of the collision, begin another frame
  for them, or go on with the main frame.
-/
inductive SubTurn (r r' : Reader) : List Packet → Prop
| call
    (hSub : r'.subSlotNumber = r.subSlotNumber + 1)
    (hSubQ : r'.subQValue = r.subQValue)
    (hSlotNumber : r'.slotNumber = r.slotNumber)
    (hQ : r'.qValue = r.qValue)
    (hCollisions : r'.collisions =
      r.collisions + if 1 < r.counter then 1 else 0)
    (hCounter : r'.counter = 0)
    (hRs : r'.rsTimer = r.rsTimer)
    (hCol : r'.colTimer = true) :
    SubTurn r r'
      [r'.query .RC_SING r'.subSlotNumber r'.slotNumber]
| frame
    (hSub : r'.subSlotNumber = 1)
    (hSubQ : 1 ≤ r'.subQValue)
    (hSlotNumber : r'.slotNumber = r.slotNumber)
    (hQ : r'.qValue = r.qValue)
    (hCollisions : r'.collisions = 0)
    (hCounter : r'.counter = 0)
    (hRs : r'.rsTimer = r.rsTimer)
    (hCol : r'.colTimer = true) :
    SubTurn r r'
      [r'.query .RC_QUERY r'.subSlotNumber r'.slotNumber]
| ascend
    (hLast : r.subQValue < r.subSlotNumber + 1)
    (hSingle : r.counter ≤ 1)
    (hNone : r.collisions ≤ 0)
    (hUniq : r'.uniqCounter = r.slotNumber + 1)
    (hQ : r'.qValue = r.qValue)
    (hCollisions : r'.collisions = 0)
    (hCounter : r'.counter = 0)
    (hRs : r'.rsTimer = true)
    (hCol : r'.colTimer = false) :
    SubTurn r r' [r'.query .RC_SING r'.uniqCounter 0]

/- What counting a slot does. -/
structure Counted (r r' : Reader) : Prop where
  same : r.SameContest r'
  qValue : r'.qValue = r.qValue
  uniqCounter : r'.uniqCounter = r.uniqCounter
  subQValue : r'.subQValue = r.subQValue
  subSlotNumber : r'.subSlotNumber = r.subSlotNumber
  slotNumber : r'.slotNumber = r.slotNumber
  rsTimer : r'.rsTimer = r.rsTimer
  colTimer : r'.colTimer = r.colTimer
  collisions : r'.collisions =
    r.collisions + if 1 < r.counter then 1 else 0

theorem counted_countSlot
    {r : Reader}
    (hCounter : 0 ≤ r.counter) :
    r.Counted r.countSlot := by
  unfold countSlot
  by_cases hIdle : r.counter = 0
  · rw [if_pos hIdle]
    exact ⟨⟨rfl, rfl, rfl, rfl, rfl, by simp [hIdle]⟩, rfl, rfl,
      rfl, rfl, rfl, rfl, rfl, by simp [hIdle]⟩
  · rw [if_neg hIdle]
    by_cases hOne : r.counter = 1
    · rw [if_pos hOne]
      exact ⟨⟨rfl, rfl, rfl, rfl, rfl, by simp [hOne]⟩, rfl,
        rfl, rfl, rfl, rfl, rfl, rfl, by simp [hOne]⟩
    · have hMore : 1 < r.counter := by omega
      rw [if_neg hOne, if_pos hMore]
      exact ⟨⟨rfl, rfl, rfl, rfl, rfl, by simp [hOne]⟩, rfl,
        rfl, rfl, rfl, rfl, rfl, rfl, by simp [hMore]⟩

/- The end of a slot of framed ALOHA. -/
theorem turn_of_start_edfsa
    {r : Reader}
    (hOperation : r.operation = 2)
    (hCounter : 0 ≤ r.counter)
    (hCollisions : 0 ≤ r.collisions)
    (hMethod : Multiplies r.estMethod)
    (eomlee : Int → Int → Int → Int) :
    ∃ r' calls,
      { r with rsTimer := false }.start_edfsa eomlee =
        (r', r.slotReply ++ calls) ∧
      r.SameContest r' ∧ r.Turn r' calls := by
  have hCounted := @counted_countSlot
    { r with
      rsTimer := false
      slotCounter := r.slotCounter + 1
      uniqCounter := r.uniqCounter + 1 } hCounter
  simp only [start_edfsa]
  generalize Reader.countSlot _ = r₂ at hCounted ⊢
  have hSame : r.SameContest r₂ :=
    ⟨hCounted.same.id, hCounted.same.service,
      hCounted.same.operation, hCounted.same.estMethod,
      hCounted.same.initialFrameSize, hCounted.same.success⟩
  have hUniq : r₂.uniqCounter = r.uniqCounter + 1 :=
    hCounted.uniqCounter
  have hQ : r₂.qValue = r.qValue := hCounted.qValue
  have hCol : r₂.colTimer = r.colTimer := hCounted.colTimer
  have hCollided : r₂.collisions =
      r.collisions + if 1 < r.counter then 1 else 0 :=
    hCounted.collisions
  by_cases hNext : r₂.uniqCounter ≤ r₂.qValue
  · rw [if_pos hNext]
    refine ⟨_, _, rfl, ⟨hSame.id, hSame.service,
      hSame.operation, hSame.estMethod, hSame.initialFrameSize,
      hSame.success⟩, ?_⟩
    exact .call hUniq hQ hCollided (fun h => by omega) rfl rfl hCol
  · rw [if_neg hNext]
    by_cases hMore : 0 < r₂.collisions
    · rcases calculate_next_Q_frame
          (hSame.estMethod ▸ hMethod) hMore eomlee
          { r₂.endFrame with uniqCounter := 1 } r₂.suc 0 with
        ⟨size, hSize, hFrame⟩
      simp only [endFrame] at hFrame ⊢
      rw [hFrame]
      refine ⟨_, _, rfl, ⟨hSame.id, hSame.service,
        hSame.operation, hSame.estMethod,
        hSame.initialFrameSize, hSame.success⟩, ?_⟩
      exact .frame hOperation rfl hSize rfl rfl rfl hCol
    · simp only [endFrame, calculate_next_Q, if_neg hMore,
        ne_eq, not_true, if_false]
      refine ⟨_, _, rfl, ⟨hSame.id, hSame.service,
        hSame.operation, hSame.estMethod,
        hSame.initialFrameSize, hSame.success⟩, ?_⟩
      have hFew : ¬1 < r.counter := by
        intro hMany
        rw [if_pos hMany] at hCollided
        omega
      rw [if_neg hFew] at hCollided
      exact .stop (by omega) (by omega) (fun _ => by omega)
        hCounted.rsTimer hCol

/- The end of a slot of the main frame. -/
theorem turn_of_start_estimationDFSA
    {r : Reader}
    (hOperation : r.operation = 4)
    (hCounter : 0 ≤ r.counter) :
    ∃ r' calls,
      { r with rsTimer := false }.start_estimationDFSA =
        (r', r.slotReply ++ calls) ∧
      r.SameContest r' ∧ r.Turn r' calls := by
  have hCounted := @counted_countSlot
    { r with
      rsTimer := false
      slotCounter := r.slotCounter + 1
      uniqCounter := r.uniqCounter + 1 } hCounter
  simp only [start_estimationDFSA]
  generalize Reader.countSlot _ = r₂ at hCounted ⊢
  have hSame : r.SameContest r₂ :=
    ⟨hCounted.same.id, hCounted.same.service,
      hCounted.same.operation, hCounted.same.estMethod,
      hCounted.same.initialFrameSize, hCounted.same.success⟩
  have hUniq : r₂.uniqCounter = r.uniqCounter + 1 :=
    hCounted.uniqCounter
  have hQ : r₂.qValue = r.qValue := hCounted.qValue
  by_cases hMany : 1 < r.counter
  · have hLeft : ¬r₂.descend.1.uniqCounter ≤
        r₂.descend.1.qValue := by
      simp only [descend]
      omega
    simp only [if_pos hMany]
    rw [if_neg hLeft]
    refine ⟨_, _, rfl, ⟨hSame.id, hSame.service,
      hSame.operation, hSame.estMethod, hSame.initialFrameSize,
      hSame.success⟩, ?_⟩
    apply Turn.descend hOperation
    case hSlotNumber =>
      simp only [descend]
      omega
    case hQ => exact hQ
    case hSub => rfl
    case hSubQ => exact hSame.initialFrameSize
    case hCollisions => rfl
    case hCounter => rfl
    case hRs => exact hCounted.rsTimer
    case hCol => rfl
  · simp only [if_neg hMany]
    by_cases hNext : r₂.uniqCounter ≤ r₂.qValue
    · rw [if_pos hNext]
      refine ⟨_, _, rfl, ⟨hSame.id, hSame.service,
        hSame.operation, hSame.estMethod,
        hSame.initialFrameSize, hSame.success⟩, ?_⟩
      exact .call hUniq hQ hCounted.collisions
        (fun _ => by omega) rfl rfl hCounted.colTimer
    · rw [if_neg hNext]
      refine ⟨r₂, [], by rw [List.append_nil]; rfl, hSame, ?_⟩
      exact .stop (by omega) (by omega)
        (fun h => by rw [hOperation] at h; cases h)
        hCounted.rsTimer hCounted.colTimer

theorem turn_of_expireRs
    {r : Reader}
    (hOperation : r.operation = 2 ∨ r.operation = 4)
    (hCounter : 0 ≤ r.counter)
    (hCollisions : 0 ≤ r.collisions)
    (hMethod : Multiplies r.estMethod)
    (eomlee : Int → Int → Int → Int) :
    ∃ r' calls,
      r.expireRs eomlee = (r', r.slotReply ++ calls) ∧
      r.SameContest r' ∧ r.Turn r' calls := by
  simp only [expireRs]
  rcases hOperation with hOp | hOp
  · rw [if_neg (by rw [hOp]; decide),
      if_neg (by rw [hOp]; decide), if_pos hOp]
    exact turn_of_start_edfsa hOp hCounter hCollisions hMethod
      eomlee
  · rw [if_neg (by rw [hOp]; decide),
      if_neg (by rw [hOp]; decide),
      if_neg (by rw [hOp]; decide), if_pos hOp]
    exact turn_of_start_estimationDFSA hOp hCounter

/- The end of a slot that resolves a collision. -/
theorem turn_of_resolve_collisions
    {r : Reader}
    (hCounter : 0 ≤ r.counter)
    (hCollisions : 0 ≤ r.collisions)
    (hMethod : Multiplies r.estMethod)
    (hSlotNumber : r.slotNumber ≠ 0)
    (eomlee : Int → Int → Int → Int) :
    ∃ r' calls,
      { r with colTimer := false }.resolve_collisions eomlee =
        (r', r.slotReply ++ calls) ∧
      r.SameContest r' ∧ r.SubTurn r' calls := by
  have hCounted := @counted_countSlot
    { r with
      colTimer := false
      slotCounter := r.slotCounter + 1
      subSlotNumber := r.subSlotNumber + 1 } hCounter
  simp only [resolve_collisions]
  generalize Reader.countSlot _ = r₂ at hCounted ⊢
  have hSame : r.SameContest r₂ :=
    ⟨hCounted.same.id, hCounted.same.service,
      hCounted.same.operation, hCounted.same.estMethod,
      hCounted.same.initialFrameSize, hCounted.same.success⟩
  have hSub : r₂.subSlotNumber = r.subSlotNumber + 1 :=
    hCounted.subSlotNumber
  have hSubQ : r₂.subQValue = r.subQValue := hCounted.subQValue
  have hMain : r₂.slotNumber = r.slotNumber :=
    hCounted.slotNumber
  have hQ : r₂.qValue = r.qValue := hCounted.qValue
  have hCollided : r₂.collisions =
      r.collisions + if 1 < r.counter then 1 else 0 :=
    hCounted.collisions
  by_cases hNext : r₂.subSlotNumber ≤ r₂.subQValue
  · rw [if_pos hNext]
    refine ⟨_, _, rfl, ⟨hSame.id, hSame.service,
      hSame.operation, hSame.estMethod, hSame.initialFrameSize,
      hSame.success⟩, ?_⟩
    exact .call hSub hSubQ hMain hQ hCollided rfl
      hCounted.rsTimer rfl
  · rw [if_neg hNext]
    by_cases hMore : 0 < r₂.collisions
    · rcases calculate_next_Q_frame
          (hSame.estMethod ▸ hMethod) hMore eomlee
          { r₂.endFrame with subSlotNumber := 1 } r₂.suc
          r₂.slotNumber with
        ⟨size, hSize, hFrame⟩
      simp only [endFrame] at hFrame ⊢
      rw [hFrame, startFrame, if_neg (hMain ▸ hSlotNumber)]
      refine ⟨_, _, rfl, ⟨hSame.id, hSame.service,
        hSame.operation, hSame.estMethod,
        hSame.initialFrameSize, hSame.success⟩, ?_⟩
      exact .frame rfl hSize hMain hQ rfl rfl
        hCounted.rsTimer rfl
    · simp only [endFrame, calculate_next_Q, if_neg hMore,
        ne_eq, hMain, hSlotNumber, not_false_eq_true, if_true]
      refine ⟨_, _, rfl, ⟨hSame.id, hSame.service,
        hSame.operation, hSame.estMethod,
        hSame.initialFrameSize, hSame.success⟩, ?_⟩
      have hFew : ¬1 < r.counter := by
        intro hMany
        rw [if_pos hMany] at hCollided
        omega
      rw [if_neg hFew] at hCollided
      exact .ascend (by omega) (by omega) (by omega) rfl hQ rfl
        rfl rfl hCounted.colTimer

end Reader

end Rfid

end Ns2

------------------------------------------------------------
-- The Session Invariant
------------------------------------------------------------

namespace Ns2

namespace Rfid

open Reader (Multiplies)

namespace World

variable {n : Nat}
variable {w w' : World n}
variable {target target' : Option (Fin n)}
variable {p p' : Packet}

/- A slot of a frame for all tags. -/
structure MainSlot
    (w : World n)
    (target : Option (Fin n))
    (p : Packet) : Prop where
  slot : w.Slot target p
  rsTimer : w.reader.rsTimer = true
  colTimer : w.reader.colTimer = false
  method : Multiplies w.reader.estMethod
  position : p.slotNumber = w.reader.uniqCounter
  whole : p.reply = 0
  size : p.qValue = w.reader.qValue
  mode : w.reader.operation = 2 ∨
    w.reader.operation = 4 ∧ w.reader.collisions = 0 ∧
      1 ≤ w.reader.initialFrameSize ∧
      ∀ i, w.Waiting target i → (w.tags i).memory2 = -1

/-
  A slot of a frame that resolves a collision of the slot
  `slotNumber` of the main frame.
-/
structure SubSlot
    (w : World n)
    (target : Option (Fin n))
    (p : Packet) : Prop where
  slot : w.Slot target p
  rsTimer : w.reader.rsTimer = false
  colTimer : w.reader.colTimer = true
  method : Multiplies w.reader.estMethod
  operation : w.reader.operation = 4
  frameSize : 1 ≤ w.reader.initialFrameSize
  position : p.slotNumber = w.reader.subSlotNumber
  reply : p.reply = w.reader.slotNumber
  main : 1 ≤ w.reader.slotNumber
  size : p.qValue = w.reader.subQValue
  mainSize : 1 ≤ w.reader.qValue
  members : ∀ i, w.Waiting target i → (w.tags i).Called p →
    i ∈ w.mainPolled
  others : ∀ i, w.Waiting target i → ¬(w.tags i).Called p →
    (w.tags i).memory2 = -1 ∧
      w.reader.slotNumber < (w.tags i).slot ∧
      (w.tags i).slot ≤ w.reader.qValue

/- What holds at every point of a session. -/
inductive Contest
    (operation : Nat)
    (w : World n) : Prop
| main
    (target : Option (Fin n))
    (p : Packet)
    (hMain : w.MainSlot target p)
    (hOperation : w.reader.operation = operation)
| sub
    (target : Option (Fin n))
    (p : Packet)
    (hSub : w.SubSlot target p)
    (hOperation : operation = 4)
| stopped
    (target : Option (Fin n))
    (hOver : w.Over target)

theorem MainSlot.within
    (hMain : w.MainSlot target p)
    (hSlot : w'.Slot target' p)
    (hWithin : w.Within w' target target' p) :
    w'.MainSlot target' p := by
  rcases hWithin.reader with ⟨_, _, _, _, hReader⟩
  constructor
  case slot => exact hSlot
  case rsTimer => rw [hReader]; exact hMain.rsTimer
  case colTimer => rw [hReader]; exact hMain.colTimer
  case method => rw [hReader]; exact hMain.method
  case position => rw [hReader]; exact hMain.position
  case whole => exact hMain.whole
  case size => rw [hReader]; exact hMain.size
  case mode =>
    rw [hReader]
    rcases hMain.mode with hFramed | ⟨hOp, hNone, hFrame, hUnmarked⟩
    · exact Or.inl hFramed
    · refine Or.inr ⟨hOp, hNone, hFrame, ?_⟩
      intro i hWaiting
      rcases hWithin.tags i hWaiting with
        ⟨hBefore, hTag | ⟨_, _, hMemory2⟩⟩
      · rw [hTag]
        exact hUnmarked i hBefore
      · rw [hMemory2, if_pos hMain.whole]
        exact hUnmarked i hBefore

theorem SubSlot.within
    (hSub : w.SubSlot target p)
    (hSlot : w'.Slot target' p)
    (hWithin : w.Within w' target target' p) :
    w'.SubSlot target' p := by
  rcases hWithin.reader with ⟨_, _, _, _, hReader⟩
  constructor
  case slot => exact hSlot
  case rsTimer => rw [hReader]; exact hSub.rsTimer
  case colTimer => rw [hReader]; exact hSub.colTimer
  case method => rw [hReader]; exact hSub.method
  case operation => rw [hReader]; exact hSub.operation
  case frameSize => rw [hReader]; exact hSub.frameSize
  case position => rw [hReader]; exact hSub.position
  case reply => rw [hReader]; exact hSub.reply
  case main => rw [hReader]; exact hSub.main
  case size => rw [hReader]; exact hSub.size
  case mainSize => rw [hReader]; exact hSub.mainSize
  case members =>
    intro i hWaiting hCalled
    rw [hWithin.mainPolled]
    rcases hWithin.tags i hWaiting with
      ⟨hBefore, hTag | ⟨hCalledBefore, _⟩⟩
    · rw [hTag] at hCalled
      exact hSub.members i hBefore hCalled
    · exact hSub.members i hBefore hCalledBefore
  case others =>
    intro i hWaiting hNot
    rw [hReader]
    rcases hWithin.tags i hWaiting with
      ⟨hBefore, hTag | ⟨_, hCalled, _⟩⟩
    · rw [hTag] at hNot ⊢
      exact hSub.others i hBefore hNot
    · exact absurd hCalled hNot

end World

end Rfid

end Ns2

------------------------------------------------------------
-- From Slot to Slot
------------------------------------------------------------

namespace Ns2

namespace Rfid

open Reader (Multiplies)

namespace World

variable {n : Nat}
variable {w w' : World n}
variable {target target' : Option (Fin n)}
variable {p p' : Packet}

theorem isCall_query
    {r : Reader}
    {command : Command}
    {slotNumber rep : Int}
    (hService : r.service = .edfsa)
    (hCommand : command = .RC_QUERY ∨ command = .RC_SING)
    (hSize : 1 ≤ if rep = 0 then r.qValue else r.subQValue)
    (hFirst : 1 ≤ slotNumber)
    (hBegins : command = .RC_QUERY → slotNumber = 1) :
    (r.query command slotNumber rep).IsCall r :=
  ⟨rfl, hService, rfl, rfl, hCommand, hSize, hFirst, hBegins⟩

/- The packets that the reader sends at the end of a slot. -/
theorem endOfSlot_of_post
    {r' : Reader}
    {calls : List Packet}
    {mainPolled : List (Fin n)}
    (hQuiet : w.Quiet)
    (hSame : w.reader.SameContest r') :
    w.EndOfSlot
      { w.post (r', w.reader.slotReply ++ calls) with
        replied := []
        polled := w.replied
        mainPolled := mainPolled } calls := by
  constructor
  case tags => rfl
  case entered => rfl
  case up => exact hQuiet.up
  case replied => rfl
  case polled => rfl
  case down =>
    intro i
    simp only [post, hQuiet.down i, List.nil_append]
  case service => exact hSame.service
  case success => exact hSame.success

/- The tags that still wait after the end of a slot. -/
theorem EndOfSlot.waiting
    {calls : List Packet}
    {i : Fin n}
    (hEnd : w.EndOfSlot w' calls)
    (hWaiting : w'.Waiting (sole w.replied) i) :
    w.Waiting none i ∧ w.replied ≠ [i] := by
  unfold Waiting at hWaiting ⊢
  rw [hEnd.tags, ne_eq (sole _), sole_eq_some] at hWaiting
  exact ⟨⟨hWaiting.1, by simp⟩, hWaiting.2⟩

/- The end of a slot of the main frame. -/
theorem MainSlot.turn
    {calls : List Packet}
    (hMain : w.MainSlot target p)
    (hQuiet : w.Quiet)
    (hEnd : w.EndOfSlot w' calls)
    (hSame : w.reader.SameContest w'.reader)
    (hTurn : w.reader.Turn w'.reader calls)
    (hPolled : w'.mainPolled = w.replied) :
    w'.Contest w.reader.operation := by
  rcases hMain.slot.outcome hQuiet with ⟨rfl, hOutcome⟩
  have hService : w'.reader.service = .edfsa :=
    hSame.service.trans hMain.slot.service
  have hMethod : Multiplies w'.reader.estMethod := by
    rw [hSame.estMethod]
    exact hMain.method
  have hFirst : 1 ≤ w.reader.uniqCounter := by
    rw [← hMain.position]
    exact hMain.slot.call.first
  have hSize : 1 ≤ w.reader.qValue := by
    rw [← hMain.size]
    exact hMain.slot.call.size
  have hRangeAll := fun i hState =>
    hOutcome.range i hState (Or.inl hMain.whole)
  have hCollisions := hMain.slot.collisions
  have hCounter := hMain.slot.counter
  cases hTurn with
  | call hUniq hQ hCollided hSingle hZero hRs hCol =>
      refine .main (sole w.replied)
        (w'.reader.query .RC_SING w'.reader.uniqCounter 0) ?_
        hSame.operation
      constructor
      case slot =>
        apply hEnd.next hMain.slot hQuiet
        case hCall =>
          apply isCall_query hService (Or.inr rfl)
          · rw [if_pos rfl, hQ]
            exact hSize
          · omega
          · intro h
            cases h
        case hCounter => exact hZero
        case hCollisions =>
          rw [hCollided]
          split_ifs <;> omega
        case hRange =>
          intro _ i hState hSole _
          rcases hRangeAll i hState with ⟨hLow, hHigh, _⟩
          refine ⟨hLow, ?_, ?_⟩
          · change _ ≤ w'.reader.qValue
            rw [hQ, ← hMain.size]
            exact hHigh
          · intro hPassed
            change _ < w'.reader.uniqCounter at hPassed
            rw [hUniq, ← hMain.position] at hPassed
            rw [hCollided]
            rcases hOutcome.unresolved hState hSole
                (Or.inl hMain.whole) hPassed with hOld | hNow
            · split_ifs <;> omega
            · rw [if_pos hNow]
              omega
      case rsTimer => exact hRs
      case colTimer => exact hCol.trans hMain.colTimer
      case method => exact hMethod
      case position => rfl
      case whole => rfl
      case size => rfl
      case mode =>
        rw [hSame.operation, hSame.initialFrameSize, hCollided]
        rcases hMain.mode with hFramed |
          ⟨hOp, hNone, hFrame, hUnmarked⟩
        · exact Or.inl hFramed
        · refine Or.inr ⟨hOp, ?_, hFrame, ?_⟩
          · have hFew := hSingle hOp
            rw [if_neg (by omega), hNone]
            rfl
          · intro i hWaiting
            rw [hEnd.tags]
            exact hUnmarked i (hEnd.waiting hWaiting).1
  | frame hOperation hUniq hQ hNone hZero hRs hCol =>
      refine .main (sole w.replied)
        (w'.reader.query .RC_QUERY w'.reader.uniqCounter 0) ?_
        hSame.operation
      constructor
      case slot =>
        apply hEnd.next hMain.slot hQuiet
        case hCall =>
          apply isCall_query hService (Or.inl rfl)
          · rw [if_pos rfl]
            exact hQ
          · omega
          · exact fun _ => hUniq
        case hCounter => exact hZero
        case hCollisions => exact hNone.ge
        case hRange =>
          intro hSing
          cases hSing
      case rsTimer => exact hRs
      case colTimer => exact hCol.trans hMain.colTimer
      case method => exact hMethod
      case position => rfl
      case whole => rfl
      case size => rfl
      case mode => exact Or.inl (hSame.operation.trans hOperation)
  | descend hOperation hSlotNumber hQ hSub hSubQ hNone hZero hRs
      hCol =>
      rcases hMain.mode with hFramed |
        ⟨_, hClean, hFrame, hUnmarked⟩
      · rw [hFramed] at hOperation
        cases hOperation
      refine .sub (sole w.replied)
        (w'.reader.query .RC_QUERY w'.reader.subSlotNumber
          w'.reader.slotNumber) ?_ hOperation
      have hRep : w'.reader.slotNumber ≠ 0 := by omega
      constructor
      case slot =>
        apply hEnd.next hMain.slot hQuiet
        case hCall =>
          apply isCall_query hService (Or.inl rfl)
          · rw [if_neg hRep, hSubQ]
            exact hFrame
          · omega
          · exact fun _ => hSub
        case hCounter => exact hZero
        case hCollisions => exact hNone.ge
        case hRange =>
          intro hSing
          cases hSing
      case rsTimer => exact hRs
      case colTimer => exact hCol
      case method => exact hMethod
      case operation => exact hSame.operation.trans hOperation
      case frameSize =>
        rw [hSame.initialFrameSize]
        exact hFrame
      case position => rfl
      case reply => rfl
      case main => omega
      case size =>
        change (if w'.reader.slotNumber = 0 then _ else _) = _
        rw [if_neg hRep]
      case mainSize =>
        rw [hQ]
        exact hSize
      case members =>
        intro i hWaiting hCalled
        rcases hEnd.waiting hWaiting with ⟨hBefore, _⟩
        rw [hEnd.tags] at hCalled
        rw [hPolled, hOutcome.replied i]
        refine ⟨hBefore.1, Or.inl hMain.whole, ?_⟩
        have hMark := hUnmarked i hBefore
        rcases hCalled with hAll | ⟨hPos, hMarked | ⟨_, hHere⟩⟩
        · exact absurd hAll hRep
        · change w'.reader.slotNumber = _ at hMarked
          omega
        · change w'.reader.slotNumber = _ at hHere
          rw [← hHere, hSlotNumber, hMain.position]
      case others =>
        intro i hWaiting hNot
        rcases hEnd.waiting hWaiting with ⟨hBefore, _⟩
        rw [hEnd.tags] at hNot ⊢
        rcases hRangeAll i hBefore.1 with ⟨_, hHigh, hPassed⟩
        refine ⟨hUnmarked i hBefore, ?_, ?_⟩
        · rw [hMain.position, hClean] at hPassed
          have hNotHere :
              w'.reader.slotNumber ≠ (w.tags i).slot :=
            fun hHere => hNot (Or.inr ⟨by
              change 0 < w'.reader.slotNumber
              omega, Or.inr ⟨rfl, hHere⟩⟩)
          omega
        · rw [hQ, ← hMain.size]
          exact hHigh
  | stop hLast hSingle hNone hRs hCol =>
      refine .stopped (sole w.replied) ?_
      apply hEnd.last hMain.slot hQuiet hRs
        (hCol.trans hMain.colTimer)
      intro i hState
      by_contra hSole
      rcases hRangeAll i hState with ⟨_, hHigh, _⟩
      have hClean : w.reader.collisions ≤ 0 := by
        rcases hMain.mode with hFramed | ⟨_, hClean, _⟩
        · exact hNone hFramed
        · exact hClean.le
      rw [hMain.size] at hHigh
      rcases hOutcome.unresolved hState hSole
          (Or.inl hMain.whole)
          (by rw [hMain.position]; omega) with hOld | hNow
      · omega
      · omega

/- The end of a slot that resolves a collision. -/
theorem SubSlot.turn
    {calls : List Packet}
    (hSub : w.SubSlot target p)
    (hQuiet : w.Quiet)
    (hEnd : w.EndOfSlot w' calls)
    (hSame : w.reader.SameContest w'.reader)
    (hTurn : w.reader.SubTurn w'.reader calls)
    (hPolled : w'.mainPolled = w.mainPolled) :
    w'.Contest 4 := by
  rcases hSub.slot.outcome hQuiet with ⟨rfl, hOutcome⟩
  have hService : w'.reader.service = .edfsa :=
    hSame.service.trans hSub.slot.service
  have hMethod : Multiplies w'.reader.estMethod := by
    rw [hSame.estMethod]
    exact hSub.method
  have hOperation := hSame.operation.trans hSub.operation
  have hFrame : 1 ≤ w'.reader.initialFrameSize := by
    rw [hSame.initialFrameSize]
    exact hSub.frameSize
  have hMain := hSub.main
  have hFirst : 1 ≤ w.reader.subSlotNumber := by
    rw [← hSub.position]
    exact hSub.slot.call.first
  have hRep : p.reply ≠ 0 := by
    rw [hSub.reply]
    omega
  have hSubQ : p.qValue = w.reader.subQValue := hSub.size
  have hCollisions := hSub.slot.collisions
  have hCounter := hSub.slot.counter
  -- The tags of the collision carry its mark by now.
  have hMarked : ∀ i, (w.tags i).state ≠ .T_ACKNOWLEDGED →
      ((w.tags i).Called p ↔
        (w.tags i).memory2 = w.reader.slotNumber) := by
    intro i hState
    constructor
    · intro hCalled
      rw [← hSub.reply]
      exact hOutcome.marked i hState hCalled hRep
    · intro hMark
      refine Or.inr ⟨by rw [hSub.reply]; omega, Or.inl ?_⟩
      rw [hSub.reply, hMark]
  cases hTurn with
  | call hNext hSameQ hSlotNumber hQ hCollided hZero hRs hCol =>
      have hRep' : w'.reader.slotNumber ≠ 0 := by omega
      have hCalled' : ∀ i,
          (w.tags i).Called (w'.reader.query .RC_SING
              w'.reader.subSlotNumber w'.reader.slotNumber) ↔
            (w.tags i).memory2 = w.reader.slotNumber := by
        intro i
        rw [← hSlotNumber]
        constructor
        · rintro (hAll | ⟨_, hMark | ⟨hQuery, _⟩⟩)
          · exact absurd hAll hRep'
          · exact hMark.symm
          · cases hQuery
        · intro hMark
          refine Or.inr ⟨?_, Or.inl hMark.symm⟩
          change 0 < w'.reader.slotNumber
          omega
      refine .sub (sole w.replied)
        (w'.reader.query .RC_SING w'.reader.subSlotNumber
          w'.reader.slotNumber) ?_ rfl
      constructor
      case slot =>
        apply hEnd.next hSub.slot hQuiet
        case hCall =>
          apply isCall_query hService (Or.inr rfl)
          · rw [if_neg hRep', hSameQ, ← hSubQ]
            exact hSub.slot.call.size
          · omega
          · intro h
            cases h
        case hCounter => exact hZero
        case hCollisions =>
          rw [hCollided]
          split_ifs <;> omega
        case hRange =>
          intro _ i hState hSole hCalled
          rw [hCalled' i, ← hMarked i hState] at hCalled
          rcases hOutcome.range i hState hCalled with
            ⟨hLow, hHigh, _⟩
          refine ⟨hLow, ?_, ?_⟩
          · change _ ≤ if w'.reader.slotNumber = 0 then _
              else w'.reader.subQValue
            rw [if_neg hRep', hSameQ, ← hSubQ]
            exact hHigh
          · intro hPassed
            change _ < w'.reader.subSlotNumber at hPassed
            rw [hNext, ← hSub.position] at hPassed
            rw [hCollided]
            rcases hOutcome.unresolved hState hSole hCalled
                hPassed with hOld | hNow
            · split_ifs <;> omega
            · rw [if_pos hNow]
              omega
      case rsTimer => exact hRs.trans hSub.rsTimer
      case colTimer => exact hCol
      case method => exact hMethod
      case operation => exact hOperation
      case frameSize => exact hFrame
      case position => rfl
      case reply => rfl
      case main => omega
      case size =>
        change (if w'.reader.slotNumber = 0 then _ else _) = _
        rw [if_neg hRep']
      case mainSize =>
        rw [hQ]
        exact hSub.mainSize
      case members =>
        intro i hWaiting hCalled
        rcases hEnd.waiting hWaiting with ⟨hBefore, _⟩
        rw [hEnd.tags, hCalled' i, ← hMarked i hBefore.1]
          at hCalled
        rw [hPolled]
        exact hSub.members i hBefore hCalled
      case others =>
        intro i hWaiting hNot
        rcases hEnd.waiting hWaiting with ⟨hBefore, _⟩
        rw [hEnd.tags, hCalled' i, ← hMarked i hBefore.1]
          at hNot
        rw [hEnd.tags, hSlotNumber, hQ]
        exact hSub.others i hBefore hNot
  | frame hNext hSize hSlotNumber hQ hNone hZero hRs hCol =>
      have hRep' : w'.reader.slotNumber ≠ 0 := by omega
      have hCalled' : ∀ i, w.Waiting none i →
          ((w.tags i).Called (w'.reader.query .RC_QUERY
              w'.reader.subSlotNumber w'.reader.slotNumber) ↔
            (w.tags i).Called p) := by
        intro i hWaiting
        rw [hMarked i hWaiting.1, ← hSlotNumber]
        constructor
        · rintro (hAll | ⟨_, hMark | ⟨_, hHere⟩⟩)
          · exact absurd hAll hRep'
          · exact hMark.symm
          · -- No other tag waits for the slot of the collision.
            by_contra hOther
            rw [hSlotNumber, ← hMarked i hWaiting.1] at hOther
            have hLater := (hSub.others i hWaiting hOther).2.1
            change w'.reader.slotNumber = _ at hHere
            omega
        · intro hMark
          refine Or.inr ⟨?_, Or.inl hMark.symm⟩
          change 0 < w'.reader.slotNumber
          omega
      refine .sub (sole w.replied)
        (w'.reader.query .RC_QUERY w'.reader.subSlotNumber
          w'.reader.slotNumber) ?_ rfl
      constructor
      case slot =>
        apply hEnd.next hSub.slot hQuiet
        case hCall =>
          apply isCall_query hService (Or.inl rfl)
          · rw [if_neg hRep']
            exact hSize
          · omega
          · exact fun _ => hNext
        case hCounter => exact hZero
        case hCollisions => exact hNone.ge
        case hRange =>
          intro hSing
          cases hSing
      case rsTimer => exact hRs.trans hSub.rsTimer
      case colTimer => exact hCol
      case method => exact hMethod
      case operation => exact hOperation
      case frameSize => exact hFrame
      case position => rfl
      case reply => rfl
      case main => omega
      case size =>
        change (if w'.reader.slotNumber = 0 then _ else _) = _
        rw [if_neg hRep']
      case mainSize =>
        rw [hQ]
        exact hSub.mainSize
      case members =>
        intro i hWaiting hCalled
        rcases hEnd.waiting hWaiting with ⟨hBefore, _⟩
        rw [hEnd.tags, hCalled' i hBefore] at hCalled
        rw [hPolled]
        exact hSub.members i hBefore hCalled
      case others =>
        intro i hWaiting hNot
        rcases hEnd.waiting hWaiting with ⟨hBefore, _⟩
        rw [hEnd.tags, hCalled' i hBefore] at hNot
        rw [hEnd.tags, hSlotNumber, hQ]
        exact hSub.others i hBefore hNot
  | ascend hLast hSingle hNone hUniq hQ hClean hZero hRs hCol =>
      -- All tags of the collision are acknowledged.
      have hDone : ∀ i, (w.tags i).state ≠ .T_ACKNOWLEDGED →
          w.replied ≠ [i] → ¬(w.tags i).Called p := by
        intro i hState hSole hCalled
        have hHigh := (hOutcome.range i hState hCalled).2.1
        rw [hSubQ] at hHigh
        rcases hOutcome.unresolved hState hSole hCalled
            (by rw [hSub.position]; omega) with hOld | hNow
        · omega
        · omega
      have hOthers : ∀ i, (w.tags i).state ≠ .T_ACKNOWLEDGED →
          w.replied ≠ [i] →
          (w.tags i).memory2 = -1 ∧
            w.reader.slotNumber < (w.tags i).slot ∧
            (w.tags i).slot ≤ w.reader.qValue :=
        fun i hState hSole => hSub.others i ⟨hState, by simp⟩
          (hDone i hState hSole)
      refine .main (sole w.replied)
        (w'.reader.query .RC_SING w'.reader.uniqCounter 0) ?_
        hOperation
      constructor
      case slot =>
        apply hEnd.next hSub.slot hQuiet
        case hCall =>
          apply isCall_query hService (Or.inr rfl)
          · rw [if_pos rfl, hQ]
            exact hSub.mainSize
          · omega
          · intro h
            cases h
        case hCounter => exact hZero
        case hCollisions => exact hClean.ge
        case hRange =>
          intro _ i hState hSole _
          rcases hOthers i hState hSole with ⟨_, hLater, hHigh⟩
          refine ⟨by omega, ?_, ?_⟩
          · change _ ≤ w'.reader.qValue
            rw [hQ]
            exact hHigh
          · intro hPassed
            change _ < w'.reader.uniqCounter at hPassed
            omega
      case rsTimer => exact hRs
      case colTimer => exact hCol
      case method => exact hMethod
      case position => rfl
      case whole => rfl
      case size => rfl
      case mode =>
        refine Or.inr ⟨hOperation, hClean, hFrame, ?_⟩
        intro i hWaiting
        rcases hEnd.waiting hWaiting with ⟨hBefore, hSole⟩
        rw [hEnd.tags]
        exact (hOthers i hBefore.1 hSole).1

/- Every step keeps the invariant. -/
theorem Contest.step
    {eomlee : Int → Int → Int → Int}
    {ordered : Packet → Bool}
    {operation : Nat}
    (hOrdered : ∀ p, ordered p = true)
    (hContest : w.Contest operation)
    (hStep : Step eomlee ordered w w') :
    w'.Contest operation := by
  cases hContest with
  | stopped target hOver =>
      exact .stopped none (hOver.step hStep).1
  | main target p hMain hOperation =>
      rcases hMain.slot.within hOrdered hStep with
        ⟨target', hSlot, hWithin⟩ |
          ⟨hQuiet, ⟨_, rfl⟩ | ⟨hPending, _⟩⟩
      · refine .main target' p (hMain.within hSlot hWithin) ?_
        rcases hWithin.reader with ⟨_, _, _, _, hReader⟩
        rw [hReader]
        exact hOperation
      · rcases Reader.turn_of_expireRs
            (hMain.mode.imp_right And.left) hMain.slot.counter
            hMain.slot.collisions hMain.method eomlee with
          ⟨r', calls, hExpire, hSame, hTurn⟩
        rw [← hOperation]
        unfold expireRs
        rw [hExpire]
        exact hMain.turn hQuiet
          (endOfSlot_of_post hQuiet hSame) hSame hTurn rfl
      · rw [hMain.colTimer] at hPending
        cases hPending
  | sub target p hSub hOperation =>
      rcases hSub.slot.within hOrdered hStep with
        ⟨target', hSlot, hWithin⟩ |
          ⟨hQuiet, ⟨hPending, _⟩ | ⟨_, rfl⟩⟩
      · exact .sub target' p (hSub.within hSlot hWithin)
          hOperation
      · rw [hSub.rsTimer] at hPending
        cases hPending
      · have hMain := hSub.main
        rcases Reader.turn_of_resolve_collisions
            hSub.slot.counter hSub.slot.collisions hSub.method
            (by omega) eomlee with
          ⟨r', calls, hExpire, hSame, hTurn⟩
        rw [hOperation]
        unfold expireCol Reader.expireCol
        rw [hExpire]
        exact hSub.turn hQuiet
          (endOfSlot_of_post hQuiet hSame) hSame hTurn rfl

/- The first slot after a start command. -/
theorem Slot.start
    {r : Reader}
    {p : Packet}
    {tags : Fin n → Tag}
    (hService : r.service = .edfsa)
    (hCall : p.IsCall r)
    (hQuery : p.command = .RC_QUERY)
    (hCounter : r.counter = 0)
    (hSuccess : r.success = 0)
    (hCollisions : r.collisions = 0)
    (hFresh : ∀ i, (tags i).state ≠ .T_ACKNOWLEDGED)
    (hAddr : ∀ i j, (tags i).addr = (tags j).addr → i = j)
    (hAddrNe : ∀ i, (tags i).addr ≠ IP_BROADCAST) :
    (World.start (r, [p]) tags).Slot none p := by
  have hDown : ∀ i, (World.start (r, [p]) tags).down i = [p] :=
    fun i => filter_broadcast hCall.daddr (tags i)
  constructor
  case tally =>
    constructor
    case nodup => exact List.nodup_nil
    case acknowledged =>
      intro i hi
      cases hi
    case pending =>
      intro i
      rw [hDown i]
      simp [hCall.not_reply]
    case waiting =>
      intro i hi
      cases hi
    case success => exact hSuccess
  case service => exact hService
  case addr_injective => exact hAddr
  case addr_ne => exact hAddrNe
  case call => exact hCall
  case contestants =>
    intro i
    constructor
    case down =>
      rw [hDown i]
      exact .call (by simp)
    case entered => exact fun h => absurd h (hFresh i)
    case alone =>
      intro h
      cases h
    case range =>
      intro _ _ hEither
      rw [hDown i, hQuery] at hEither
      simp at hEither
    case marked =>
      intro _ _ hNone
      rw [hDown i] at hNone
      cases hNone
    case replied =>
      rw [hDown i]
      exact iff_of_false (by simp [World.start, post])
        fun h => absurd h.2.2.1 (by simp)
  case nodup => exact List.nodup_nil
  case counter => exact hCounter.ge
  case count =>
    change r.counter + _ = _
    rw [hCounter]
    rfl
  case collisions => exact hCollisions.ge
  case replies =>
    intro q hq
    cases hq
  case heard =>
    intro hPos
    change 0 < r.counter at hPos
    omega

/- A query reply is for the tag that replied alone. -/
theorem Contest.alone
    {operation : Nat}
    (hContest : w.Contest operation)
    {i : Fin n}
    {q : Packet}
    (hMem : q ∈ w.down i)
    (hReply : q.isQueryReply = true) :
    w.polled = [i] := by
  have hSlot : ∀ target p, w.Slot target p → w.polled = [i] :=
    fun target p hSlot => (hSlot.contestants i).alone
      (hSlot.tally.target_of_mem hMem hReply)
  cases hContest with
  | main target p hMain => exact hSlot target p hMain.slot
  | sub target p hSub => exact hSlot target p hSub.slot
  | stopped target hOver =>
      exact hOver.alone i (hOver.tally.target_of_mem hMem hReply)

theorem Contest.tally
    {operation : Nat}
    (hContest : w.Contest operation) :
    ∃ target, w.Tally target := by
  cases hContest with
  | main target p hMain => exact ⟨target, hMain.slot.tally⟩
  | sub target p hSub => exact ⟨target, hSub.slot.tally⟩
  | stopped target hOver => exact ⟨target, hOver.tally⟩

theorem Contest.success
    {operation : Nat}
    (hContest : w.Contest operation)
    (hRs : w.reader.rsTimer = false)
    (hCol : w.reader.colTimer = false)
    (hQuiet : w.quiet = true) :
    (∀ i, (w.tags i).state = .T_ACKNOWLEDGED) ∧
      w.reader.success = n := by
  cases hContest with
  | main target p hMain =>
      rw [hMain.rsTimer] at hRs
      cases hRs
  | sub target p hSub =>
      rw [hSub.colTimer] at hCol
      cases hCol
  | stopped target hOver =>
      exact hOver.success ((quiet_iff w).mp hQuiet)

end World

end Rfid

end Ns2

------------------------------------------------------------
-- Sessions
------------------------------------------------------------

namespace Ns2

namespace Rfid

open Reader (Multiplies)

namespace World

variable {n : Nat}

/- What every step keeps holds after every run. -/
theorem Contest.run
    {eomlee : Int → Int → Int → Int}
    {operation : Nat}
    {w w' : World n}
    {actions : List (Action n)}
    (hContest : w.Contest operation)
    (hRun : w.run eomlee (fun _ => true) actions = some w') :
    w'.Contest operation :=
  run_invariant
    (fun _ _ hContest hStep =>
      hContest.step (fun _ => rfl) hStep) hContest hRun

/-
  In every session of framed ALOHA a query reply is only sent
  to a tag that replied alone, the success counter is the
  number of tags that got acknowledged and of query replies in
  flight, and when the reader has stopped and nothing is in
  flight all tags are acknowledged and counted.
-/
theorem framed_aloha_session
    (eomlee : Int → Int → Int → Int)
    (r : Reader)
    (tags : Fin n → Tag)
    (hService : r.service = .edfsa)
    (hCounter : r.counter = 0)
    (hTimer : r.colTimer = false)
    (hSize : 1 ≤ r.qValue)
    (hMethod : Multiplies r.estMethod)
    (hFresh : ∀ i, (tags i).state ≠ .T_ACKNOWLEDGED)
    (hAddr : ∀ i j, (tags i).addr = (tags j).addr → i = j)
    (hAddrNe : ∀ i, (tags i).addr ≠ IP_BROADCAST)
    (actions : List (Action n))
    (w : World n)
    (hRun : (World.start r.edfsa_query tags).run
      eomlee (fun _ => true) actions = some w) :
    (∀ i, ∀ q ∈ w.down i, q.isQueryReply = true →
      w.polled = [i]) ∧
    (∃ target, w.Tally target) ∧
    w.reader.colTimer = false ∧
    (w.reader.rsTimer = false → w.quiet = true →
      (∀ i, (w.tags i).state = .T_ACKNOWLEDGED) ∧
        w.reader.success = n) := by
  have hStart : (World.start r.edfsa_query tags).Contest 2 := by
    refine .main none (r.edfsa_query.1.query .RC_QUERY 1 0) ?_ rfl
    constructor
    case slot =>
      exact @Slot.start n r.edfsa_query.1 _ tags hService
        (@isCall_query r.edfsa_query.1 .RC_QUERY 1 0 hService
          (Or.inl rfl) hSize (by decide) fun _ => rfl)
        rfl hCounter rfl rfl hFresh hAddr hAddrNe
    case rsTimer => rfl
    case colTimer => exact hTimer
    case method => exact hMethod
    case position => rfl
    case whole => rfl
    case size => rfl
    case mode => exact Or.inl rfl
  have hContest := hStart.run hRun
  have hCol : w.reader.colTimer = false := by
    cases hContest with
    | main target p hMain => exact hMain.colTimer
    | sub target p hSub hOperation => cases hOperation
    | stopped target hOver => exact hOver.colTimer
  exact ⟨fun i q hMem hReply => hContest.alone hMem hReply,
    hContest.tally, hCol,
    fun hRs hQuiet => hContest.success hRs hCol hQuiet⟩

/- A reader of two tags with addresses 1 and 2. -/
def twoTagReader : Reader :=
  { Reader.new 0 with
    service := .edfsa
    qValue := 1
    Qfp := 1
    estMethod := 0
    backlog := 0
    initialFrameSize := 2 }

def twoTags (i : Fin 2) : Tag :=
  Tag.new 5 (i.val + 1)

/- Two tags collide in a frame of one slot. -/
theorem framed_aloha_session_collision :
    ∃ w, (World.start twoTagReader.edfsa_query twoTags).run
        (fun _ _ _ => 0) (fun _ => true)
        [.receive 0 0 0, .receive 1 0 0, .answer 0, .answer 0,
          .expireRs, .receive 0 0 0, .receive 1 0 1, .answer 0,
          .expireRs, .receive 0 0 0, .receive 0 0 0,
          .receive 1 0 0, .answer 0, .expireRs,
          .receive 1 0 0] = some w ∧
      (∀ i, (w.tags i).state = .T_ACKNOWLEDGED) ∧
      w.reader.success = 2 := by
  have hRun : ((World.start twoTagReader.edfsa_query twoTags).run
      (fun _ _ _ => 0) (fun _ => true)
      [.receive 0 0 0, .receive 1 0 0, .answer 0, .answer 0,
        .expireRs, .receive 0 0 0, .receive 1 0 1, .answer 0,
        .expireRs, .receive 0 0 0, .receive 0 0 0,
        .receive 1 0 0, .answer 0, .expireRs,
        .receive 1 0 0]).map (fun w =>
          (w.reader.rsTimer, w.quiet)) =
      some (false, true) := by decide +kernel
  rcases Option.map_eq_some_iff.mp hRun with ⟨w, hw, hEq⟩
  simp only [Prod.mk.injEq] at hEq
  rcases framed_aloha_session (fun _ _ _ => 0) twoTagReader
      twoTags rfl rfl rfl (by decide) (Or.inl rfl) (by decide)
      (by decide) (by decide) _ w hw with ⟨_, _, _, hStop⟩
  exact ⟨w, hw, hStop hEq.1 hEq.2⟩

/-
  A frame that overtakes a query reply is answered by the tag
  that the reply acknowledges, and the tag is counted again.
-/
theorem overtaken_reply_counted_twice :
    ((World.start { twoTagReader with
        qValue := 2 }.edfsa_query
      (fun i : Fin 3 => Tag.new 5 (i.val + 1))).run
        (fun _ _ _ => 0) (fun _ => false)
        [.receive 0 0 0, .receive 1 0 0, .receive 2 0 1,
          .answer 0, .answer 0, .expireRs, .receive 0 0 0,
          .receive 1 0 0, .receive 2 0 0, .answer 0, .expireRs,
          .receive 2 1 0, .receive 2 0 0, .receive 0 0 1,
          .receive 1 0 1, .answer 0, .expireRs]).map (fun w =>
      (w.reader.success, w.entered)) = some (2, [2]) := by
  decide +kernel

end World

end Rfid

end Ns2
