import Ns2.Dsdv.Events.Bookkeeping
import Ns2.Lib.Fallible

/-
  What the handlers of an agent do to its books.

  Main declarations:
    * `EventAgent.Kept`, `Harmless`

  Correctness is proven by:
    * `EventAgent.handleTrigger_kept`
    * `EventAgent.helperCallback_kept`
    * `EventAgent.lostLink_kept`
-/

------------------------------------------------------------
-- Data Packets
------------------------------------------------------------

namespace Ns2

namespace Dsdv

namespace EventTable

variable {cfg : Config}
variable {own dst : Int}
variable {now : Rat}
variable {t t' : EventTable}
variable {p : DataPacket}

/- The entries point to the same events. -/
structure SameEvents (t t' : EventTable) : Prop where
  trigger : ∀ d, trigger t' d = trigger t d
  timeout : ∀ d, timeout t' d = timeout t d

theorem SameEvents.refl : SameEvents t t :=
  ⟨fun _ => rfl, fun _ => rfl⟩

theorem SameEvents.trans
    {t'' : EventTable}
    (hFirst : SameEvents t t')
    (hNext : SameEvents t' t'') :
    SameEvents t t'' :=
  ⟨fun d => (hNext.trigger d).trans (hFirst.trigger d),
    fun d => (hNext.timeout d).trans (hFirst.timeout d)⟩

theorem sameEvents_set
    {ent : EventEnt}
    (hTrigger : ent.trigger_event = trigger t dst)
    (hTimeout : ent.timeout_event = timeout t dst) :
    SameEvents t (t.set dst ent) := by
  constructor
  case trigger =>
    intro d
    rw [trigger_set]
    split
    next hSame => rw [hSame, hTrigger]
    next => rfl
  case timeout =>
    intro d
    rw [timeout_set]
    split
    next hSame => rw [hSame, hTimeout]
    next => rfl

theorem forwardPacket_sameEvents :
    SameEvents t (forwardPacket cfg now t p) := by
  unfold forwardPacket
  cases hFind : t.find p.daddr with
  | some prte =>
      dsimp only
      split
      · exact .refl
      · exact sameEvents_set (trigger_of_find hFind).symm
          (timeout_of_find hFind).symm
  | none =>
      refine sameEvents_set ?_ ?_
      · simp [trigger, hFind]
      · simp [timeout, hFind]

theorem recv_sameEvents :
    SameEvents t (recv cfg own now t p) := by
  unfold recv
  split
  · exact .refl
  · split
    · exact .refl
    · exact forwardPacket_sameEvents

theorem flush_sameEvents
    {steps : Nat}
    (hFlush : flush cfg own now dst steps t = some t') :
    SameEvents t t' := by
  induction steps generalizing t with
  | zero => cases hFlush
  | succ steps ih =>
      unfold flush at hFlush
      cases hFind : t.find dst with
      | none =>
          rw [hFind] at hFlush
          cases hFlush
          exact .refl
      | some e =>
          rw [hFind] at hFlush
          dsimp only at hFlush
          split at hFlush
          next p rest hq =>
            have hTaken := @sameEvents_set dst t
              { e with route := { e.route with q := some rest } }
              (trigger_of_find hFind).symm
              (timeout_of_find hFind).symm
            exact (hTaken.trans recv_sameEvents).trans (ih hFlush)
          next =>
            cases hFlush
            exact .refl

end EventTable

theorem Books.sameEvents
    {own : Int}
    {periodic : Option Nat}
    {hand : InHand}
    {t t' : EventTable}
    {q : EventQueue}
    (hBooks : Books own periodic hand t q)
    (hSame : EventTable.SameEvents t t') :
    Books own periodic hand t' q :=
  hBooks.table hSame.trigger hSame.timeout

end Dsdv

end Ns2

------------------------------------------------------------
-- Asking for Updates
------------------------------------------------------------

namespace Ns2

namespace Dsdv

namespace EventAgent

open EventTable

/- The books of an agent are kept. -/
def Kept
    (a : EventAgent)
    (hand : InHand) : Prop :=
  Books a.myaddr_ a.periodic_callback_ hand a.table_ a.events

variable {cfg : Timing}
variable {a a' : EventAgent}
variable {hand : InHand}
variable {dst : Int}
variable {t now jitter : Rat}
variable {e : Nat}

theorem recv_kept
    {p : DataPacket}
    (hKept : a.Kept hand) :
    (a.recv cfg p now).Kept hand :=
  hKept.sameEvents recv_sameEvents

theorem needTriggeredUpdate_kept
    (hKept : a.Kept hand)
    (hHand : ∀ e, hand ≠ some (.trigger_handler, e)) :
    (a.needTriggeredUpdate dst t).Kept hand := by
  unfold needTriggeredUpdate
  cases hFind : a.table_.find dst with
  | none => exact hKept
  | some prte =>
      dsimp only
      have hTrigger := trigger_of_find hFind
      cases hEvent : prte.trigger_event with
      | some e =>
          have hLive :=
            hKept.triggers.live dst e (hTrigger.trans hEvent)
          dsimp only
          unfold Kept
          rw [EventQueue.schedule_cancel]
          refine hKept.reschedule hLive fun h' hTaken => ?_
          have hOne := hKept.sane.one (Or.inr hTaken) hLive
          exact hHand e (hOne ▸ hTaken)
      | none =>
          exact hKept.newTrigger (hTrigger.trans hEvent) rfl
            (timeout_of_find hFind).symm

theorem needTriggeredUpdate_timeout
    {d : Int} :
    timeout (a.needTriggeredUpdate dst t).table_ d =
      timeout a.table_ d := by
  unfold needTriggeredUpdate
  cases hFind : a.table_.find dst with
  | none => rfl
  | some prte =>
      dsimp only
      cases prte.trigger_event with
      | some e => rfl
      | none =>
          dsimp only [setEntry]
          rw [timeout_set]
          split
          next hSame => rw [hSame, timeout_of_find hFind]
          next => rfl

/- An entry that has a trigger event keeps it. -/
theorem needTriggeredUpdate_table
    (hEvent : trigger a.table_ dst ≠ none) :
    (a.needTriggeredUpdate dst t).table_ = a.table_ := by
  unfold needTriggeredUpdate
  cases hFind : a.table_.find dst with
  | none => rfl
  | some prte =>
      dsimp only
      rw [trigger_of_find hFind] at hEvent
      cases hHas : prte.trigger_event with
      | some e => rfl
      | none => exact absurd hHas hEvent

theorem needTriggeredUpdate_myaddr :
    (a.needTriggeredUpdate dst t).myaddr_ = a.myaddr_ := by
  unfold needTriggeredUpdate
  cases a.table_.find dst with
  | none => rfl
  | some prte =>
      dsimp only
      cases prte.trigger_event <;> rfl

theorem cancelTrigger_kept
    (hKept : a.Kept none) :
    (cancelTrigger t a dst).Kept none := by
  unfold cancelTrigger
  cases hFind : a.table_.find dst with
  | none => exact hKept
  | some prte =>
      dsimp only
      cases hEvent : prte.trigger_event with
      | none => exact hKept
      | some e =>
          dsimp only
          split
          · exact hKept.cancelTrigger
              ((trigger_of_find hFind).trans hEvent) rfl
              (timeout_of_find hFind).symm
          · exact hKept

theorem cancelTriggersBefore_kept
    (hKept : a.Kept none) :
    (a.cancelTriggersBefore t).Kept none := by
  unfold cancelTriggersBefore
  generalize a.destinations = ds
  induction ds generalizing a with
  | nil => exact hKept
  | cons d ds ih => exact ih (cancelTrigger_kept hKept)

end EventAgent

end Dsdv

end Ns2

------------------------------------------------------------
-- Making Updates
------------------------------------------------------------

namespace Ns2

namespace Dsdv

/- Neither an assertion on events nor an unknown event. -/
def Harmless (x : Abort) : Prop :=
  x ≠ .trigger_event ∧ x ≠ .unknown_event

namespace EventAgent

open EventTable Fallible

variable {cfg : Timing}
variable {a a' : EventAgent}
variable {hand : InHand}
variable {dst : Int}
variable {t now jitter : Rat}
variable {periodic : Bool}
variable {e limit : Nat}

/- What an update leaves: the own entry has no events. -/
structure Made
    (full : Bool)
    (a a' : EventAgent) : Prop where
  myaddr_ : a'.myaddr_ = a.myaddr_
  callback : a'.periodic_callback_ = a.periodic_callback_
  events : a'.events = a.events
  trigger : ∀ d, trigger a'.table_ d =
    if full ∧ d = a.myaddr_ then none else trigger a.table_ d
  timeout : ∀ d, timeout a'.table_ d =
    if full ∧ d = a.myaddr_ then none else timeout a.table_ d

theorem sameEvents_mapValues
    {t : EventTable}
    {f : Int → EventEnt → EventEnt}
    (hTrigger : ∀ d x, (f d x).trigger_event = x.trigger_event)
    (hTimeout : ∀ d x, (f d x).timeout_event = x.timeout_event) :
    SameEvents t (t.mapValues f) := by
  constructor
  case trigger =>
    intro d
    unfold trigger
    rw [SortedMap.find_mapValues]
    cases t.find d with
    | none => rfl
    | some x => exact hTrigger d x
  case timeout =>
    intro d
    unfold timeout
    rw [SortedMap.find_mapValues]
    cases t.find d with
    | none => rfl
    | some x => exact hTimeout d x

theorem makeUpdate_made :
    Ensures (a.makeUpdate limit periodic now)
      (fun made =>
        made.2.1 = a.toAgent.full periodic now ∧
          Made made.2.1 a made.1)
      Harmless := by
  have hOwn :
      Made (a.toAgent.full periodic now) a
        (if a.toAgent.full periodic now then
          { a.setEntry a.myaddr_
              ⟨ownEntry a.myaddr_ ((a.seqno_ + 2) % limit) now,
                none, none⟩ with
            seqno_ := (a.seqno_ + 2) % limit }
        else a) := by
    cases a.toAgent.full periodic now with
    | false => exact ⟨rfl, rfl, rfl, fun d => rfl, fun d => rfl⟩
    | true =>
        refine ⟨rfl, rfl, rfl, fun d => ?_, fun d => ?_⟩
        · refine trigger_set.trans ?_
          simp
        · refine timeout_set.trans ?_
          simp
  unfold makeUpdate
  dsimp only
  cases a.toAgent.update limit periodic now with
  | none => exact .of_error ⟨by decide, by decide⟩
  | some made =>
      dsimp only
      refine .ite (fun _ => ?_) fun _ => ?_
      · refine .of_ok ⟨rfl, hOwn.myaddr_, hOwn.callback,
          hOwn.events, ?_, ?_⟩
        all_goals
          have hSame := @sameEvents_mapValues
            (if a.toAgent.full periodic now then
              { a.setEntry a.myaddr_
                  ⟨ownEntry a.myaddr_ ((a.seqno_ + 2) % limit) now,
                    none, none⟩ with
                seqno_ := (a.seqno_ + 2) % limit }
            else a).table_
            (fun _ e =>
              if e.route.included
                  (a.toAgent.full periodic now) now then
                { e with
                  route := e.route.advertised
                    (a.toAgent.full periodic now) }
              else e)
            (fun _ _ => by split <;> rfl)
            (fun _ _ => by split <;> rfl)
          intro d
        · exact (hSame.trigger d).trans (hOwn.trigger d)
        · exact (hSame.timeout d).trans (hOwn.timeout d)
      · exact .of_ok ⟨rfl, hOwn⟩

theorem callPeriodic_kept :
    Ensures (a.callPeriodic t)
      (fun a' =>
        (∀ hand, a.Kept hand → a'.Kept hand) ∧
          a'.table_ = a.table_) Harmless := by
  unfold callPeriodic
  split
  next => exact .of_error ⟨by decide, by decide⟩
  next e hCallback =>
    refine .of_ok ⟨fun hand hKept => ?_, rfl⟩
    unfold Kept
    rw [EventQueue.schedule_cancel]
    exact hKept.callback hCallback

/- The event in hand is given up, or was with the own entry. -/
def Freeing
    (a : EventAgent)
    (e : Nat) : Prop :=
  a.Kept (some (.trigger_handler, e)) ∨
    a.Kept none ∧ ∀ d, trigger a.table_ d ≠ some e

theorem freeTrigger_kept
    (hFreeing : Freeing a e) :
    (a.freeTrigger e).Kept none := by
  unfold freeTrigger
  rcases hFreeing with hKept | ⟨hKept, hNone⟩
  · have hIn := hKept.sane.handled .trigger_handler e rfl
    rw [if_pos (trigger_iff_any.mpr
      (hKept.triggers.found e (Or.inr rfl)))]
    refine Books.delete (hKept.dropTrigger (fun d => ?_)
      fun d => ?_) hIn.1 hIn.2.2.1 hIn.2.2.2
    · unfold trigger
      rw [SortedMap.find_mapValues]
      cases a.table_.find d with
      | none => rfl
      | some x =>
          simp only [Option.map_some, Option.bind_some]
          split <;> rfl
    · unfold timeout
      rw [SortedMap.find_mapValues]
      cases a.table_.find d with
      | none => rfl
      | some x =>
          simp only [Option.map_some, Option.bind_some]
          split <;> rfl
  · rw [if_neg]
    · exact hKept
    · intro hAny
      rcases trigger_iff_any.mp hAny with ⟨d, hd⟩
      exact hNone d hd

/-
  The own entry points to no trigger event but the one that is
  handled, if the own entry is written.
-/
def OwnFree
    (a : EventAgent)
    (e : Nat) : Prop :=
  ∀ x, trigger a.table_ a.myaddr_ = some x → x = e

theorem freeing_of_made
    {full : Bool}
    (hMade : Made full a a')
    (hKept : a.Kept (some (.trigger_handler, e)))
    (hOwn : full = true → a.OwnFree e) :
    Freeing a' e := by
  have hTimer : ∀ d, timeout a'.table_ d = timeout a.table_ d := by
    intro d
    rw [hMade.timeout]
    split
    next hBoth =>
      rw [hBoth.2]
      cases hTimeout : timeout a.table_ a.myaddr_ with
      | none => rfl
      | some x => cases hKept.own x hTimeout
    next => rfl
  unfold Freeing Kept
  rw [hMade.myaddr_, hMade.callback, hMade.events]
  cases hThere : trigger a.table_ a.myaddr_ with
  | none =>
      left
      apply hKept.table ?_ hTimer
      intro d
      rw [hMade.trigger]
      split
      next hBoth => rw [hBoth.2, hThere]
      next => rfl
  | some x =>
      cases full with
      | false =>
          left
          exact hKept.table (fun d => by simp [hMade.trigger])
            hTimer
      | true =>
          right
          cases hOwn rfl x hThere
          have hDropped : ∀ d, trigger a'.table_ d =
              if trigger a.table_ d = some e then none
                else trigger a.table_ d := by
            intro d
            rw [hMade.trigger]
            by_cases hSame : d = a.myaddr_
            · rw [if_pos ⟨rfl, hSame⟩, hSame, if_pos hThere]
            · rw [if_neg fun hBoth => hSame hBoth.2, if_neg]
              exact fun hAlso =>
                hSame (hKept.triggers.one d _ e hAlso hThere)
          refine ⟨hKept.dropTrigger hDropped hTimer, ?_⟩
          intro d
          rw [hDropped]
          split
          · exact fun hNone => by cases hNone
          next hOther => exact hOther

/- The handler of trigger events keeps the books. -/
theorem handleTrigger_kept
    (hKept : a.Kept (some (.trigger_handler, e))) :
    Ensures (a.handleTrigger cfg e now jitter)
      (fun a' =>
        (a.lasttup_ + DSDV_MIN_TUP_PERIOD ≤ now →
          a.toAgent.full false now = true → a.OwnFree e) →
            a'.Kept none) Harmless := by
  unfold handleTrigger
  rw [if_pos (trigger_iff_any.mpr
    (hKept.triggers.found e (Or.inr rfl)))]
  dsimp only
  refine .ite (fun _ => ?_) fun hLate => ?_
  · refine .of_ok fun _ => ?_
    exact cancelTriggersBefore_kept hKept.putBack
  · refine makeUpdate_made.bind fun made hMade => ?_
    rcases made with ⟨a₁, full, sent⟩
    rcases hMade with ⟨rfl, hMade⟩
    dsimp only at hMade ⊢
    have hFreeing :
        (a.toAgent.full false now = true → a.OwnFree e) →
          Freeing a₁ e :=
      fun hOwn => freeing_of_made hMade hKept hOwn
    have hEnd : ∀ a₂, (Freeing a₁ e → Freeing a₂ e) →
        (a.lasttup_ + DSDV_MIN_TUP_PERIOD ≤ now →
          a.toAgent.full false now = true → a.OwnFree e) →
            (a₂.freeTrigger e).Kept none :=
      fun a₂ hNext hMeets => freeTrigger_kept
        (hNext (hFreeing (hMeets (not_lt.mp hLate))))
    refine .ite (fun _ => ?_) fun _ => .of_ok (hEnd a₁ id)
    refine .ite (fun _ => ?_) fun _ => ?_
    · refine callPeriodic_kept.bind fun a₂ h₂ => ?_
      refine .of_ok (hEnd { a₂ with lasttup_ := now } ?_)
      rintro (hStill | ⟨hDone, hNone⟩)
      · exact Or.inl (h₂.1 _ hStill)
      · refine Or.inr ⟨h₂.1 _ hDone, ?_⟩
        rw [← h₂.2] at hNone
        exact hNone
    · exact .of_ok (hEnd { a₁ with lasttup_ := now } id)

end EventAgent

end Dsdv

end Ns2

------------------------------------------------------------
-- Timeouts and Lost Links
------------------------------------------------------------

namespace Ns2

namespace Dsdv

namespace EventAgent

open EventTable Fallible

variable {cfg : Timing}
variable {a a' : EventAgent}
variable {nbr dst : Int}
variable {now jitter : Rat}
variable {e : Nat}

theorem markBroken_kept
    (hKept : a.Kept (some (.helper_, e))) :
    (markBroken nbr now a dst).Kept (some (.helper_, e)) := by
  unfold markBroken
  cases hFind : a.table_.find dst with
  | none => exact hKept
  | some pr2 =>
      dsimp only
      split
      · apply needTriggeredUpdate_kept
        · exact hKept.setEntry (trigger_of_find hFind).symm
            (timeout_of_find hFind).symm
        · intro x hx
          cases hx
      · exact hKept

theorem markBroken_timeout
    {d : Int} :
    timeout (markBroken nbr now a dst).table_ d =
      timeout a.table_ d := by
  unfold markBroken
  cases hFind : a.table_.find dst with
  | none => rfl
  | some pr2 =>
      dsimp only
      split
      · rw [needTriggeredUpdate_timeout]
        refine timeout_set.trans ?_
        split
        next hSame => rw [hSame, timeout_of_find hFind]
        next => rfl
      · rfl

/- All the routes through a neighbor are lost. -/
theorem markAll_kept
    {ds : List Int}
    (hKept : a.Kept (some (.helper_, e)))
    (hThere : timeout a.table_ dst = some e) :
    (ds.foldl (markBroken nbr now) a).Kept
        (some (.helper_, e)) ∧
      timeout (ds.foldl (markBroken nbr now) a).table_ dst =
        some e := by
  induction ds generalizing a with
  | nil => exact ⟨hKept, hThere⟩
  | cons d ds ih =>
      exact ih (markBroken_kept hKept)
        (markBroken_timeout.trans hThere)

theorem endTimeout_kept
    (hKept : a.Kept (some (.helper_, e)))
    (hThere : timeout a.table_ nbr = some e) :
    (a.endTimeout nbr e).Kept none := by
  have hIn := hKept.sane.handled .helper_ e rfl
  unfold endTimeout
  cases hFind : a.table_.find nbr with
  | none =>
      unfold timeout at hThere
      rw [hFind] at hThere
      cases hThere
  | some prte =>
      exact Books.delete
        (hKept.dropTimeout hThere (trigger_of_find hFind).symm rfl)
        hIn.1 hIn.2.2.1 hIn.2.2.2

/- The timeout in hand is found, and is over. -/
theorem helperCallback_timeout
    (hKept : a.Kept (some (.helper_, e))) :
    Ensures (a.helperCallback cfg e now jitter)
      (fun a' => a'.Kept none) Harmless := by
  have hIn := hKept.sane.handled .helper_ e rfl
  unfold helperCallback
  rw [if_neg hIn.2.2.2]
  cases hSearch : a.table_.entries.find? fun x =>
      decide (x.2.timeout_event = some e) with
  | none =>
      rcases hKept.timeouts.found e (Or.inr rfl) with ⟨d, hd⟩
      rcases Option.bind_eq_some_iff.mp hd with
        ⟨ent, hFind, hThere⟩
      have hMem := (a.table_.mem_entries_iff).mpr hFind
      exact absurd (decide_eq_true hThere)
        (List.find?_eq_none.mp hSearch _ hMem)
  | some prte =>
      have hMem : (prte.1, prte.2) ∈ a.table_.entries :=
        List.mem_of_find?_eq_some hSearch
      have hEvent := List.find?_some hSearch
      have hThere : timeout a.table_ prte.1 = some e := by
        rw [timeout_of_find ((a.table_.mem_entries_iff).mp hMem)]
        exact of_decide_eq_true hEvent
      have hMarked := @markAll_kept a prte.1 prte.1 now e
        a.destinations hKept hThere
      exact .of_ok (endTimeout_kept hMarked.1 hMarked.2)

/- The periodic event is handled and scheduled again. -/
theorem helperCallback_periodic
    (hKept : a.Kept none)
    (hPeriodic : a.periodic_callback_ = some e) :
    Ensures (a.helperCallback cfg e now jitter)
      (fun a' =>
        trigger a.table_ a.myaddr_ = none → a'.Kept none)
      Harmless := by
  unfold helperCallback
  rw [if_pos hPeriodic]
  refine makeUpdate_made.bind fun made hMade => ?_
  rcases made with ⟨a₁, full, sent⟩
  rcases hMade with ⟨_, hMade⟩
  dsimp only at hMade ⊢
  refine .of_ok fun hOwn => ?_
  have hTimer : timeout a.table_ a.myaddr_ = none := by
    cases hTimeout : timeout a.table_ a.myaddr_ with
    | none => rfl
    | some x => cases hKept.own x hTimeout
  have hMadeKept : a₁.Kept none := by
    unfold Kept
    rw [hMade.myaddr_, hMade.callback, hMade.events]
    apply Books.table hKept
    · intro d
      rw [hMade.trigger]
      split
      next hBoth => rw [hBoth.2, hOwn]
      next => rfl
    · intro d
      rw [hMade.timeout]
      split
      next hBoth => rw [hBoth.2, hTimer]
      next => rfl
  exact hMadeKept.callback (hMade.callback.trans hPeriodic)

/- A lost link ends the timeout of the neighbor, or a new one. -/
theorem lostLink_kept
    {p : DataPacket}
    (hKept : a.Kept none) :
    Ensures (a.lostLink cfg nbr p now jitter)
      (fun a' => a'.Kept none) Harmless := by
  unfold lostLink
  cases hFind : a.table_.find nbr with
  | none => exact .of_ok hKept
  | some prte =>
      dsimp only
      have hTrigger := trigger_of_find hFind
      have hTimeout := timeout_of_find hFind
      cases hEvent : prte.timeout_event with
      | some e =>
          have hLive := hKept.timeouts.live nbr e
            (hTimeout.trans hEvent)
          have hIn := hKept.sane.live hLive
          rcases hLive with ⟨⟨y, hy, hHelper⟩, _⟩ | hHand
          · have hTaken := hKept.take hy hIn.2.2
            rw [hHelper] at hTaken
            exact (helperCallback_timeout
              (a := { a with events := a.events.cancel e })
              hTaken).bind fun a₁ h₁ => .of_ok (recv_kept h₁)
          · cases hHand
      | none =>
          dsimp only
          refine .ite (fun _ => ?_) fun _ => .of_ok (recv_kept hKept)
          have hTaken := @Books.takeTimeout _ _ _ _ _
            { prte with timeout_event := some a.events.unused }
            hKept (hTimeout.trans hEvent) hTrigger.symm rfl
          refine Ensures.bind (helperCallback_timeout ?_)
            fun a₁ h₁ => .of_ok (recv_kept h₁)
          exact hTaken

end EventAgent

end Dsdv

end Ns2

------------------------------------------------------------
-- Updates
------------------------------------------------------------

namespace Ns2

namespace Dsdv

namespace EventAgent

open EventTable Fallible

variable {cfg : Timing}
variable {a a' : EventAgent}
variable {src dst : Int}
variable {now : Rat}
variable {steps : Nat}
variable {r : Advert}
variable {rte : EventEnt}

theorem hear_kept
    (hKept : a.Kept none)
    (hOther : src ≠ a.myaddr_) :
    (a.hear cfg src now).Kept none := by
  unfold hear
  cases hFind : a.table_.find src with
  | none =>
      have hTrigger : trigger a.table_ src = none := by
        simp [trigger, hFind]
      have hTimeout : timeout a.table_ src = none := by
        simp [timeout, hFind]
      exact hKept.newTimeout hTimeout hOther hTrigger.symm rfl
  | some prte =>
      dsimp only
      have hTimeout := timeout_of_find hFind
      cases hEvent : prte.timeout_event with
      | some e =>
          have hLive := hKept.timeouts.live src e
            (hTimeout.trans hEvent)
          dsimp only
          unfold Kept
          rw [EventQueue.schedule_cancel]
          exact hKept.reschedule hLive (by simp)
      | none =>
          exact hKept.newTimeout (hTimeout.trans hEvent) hOther
            (trigger_of_find hFind).symm rfl

theorem startUp_kept
    {jitter : Rat}
    (hKept : a.Kept none)
    (hNew : a.periodic_callback_ = none)
    (hOwn : trigger a.table_ a.myaddr_ = none) :
    (a.startUp now jitter).Kept none := by
  unfold Kept at hKept
  rw [hNew] at hKept
  have hRenewed := @Books.renew _ _ _ _ _
    ⟨{ ownEntry a.myaddr_ a.seqno_ now with
        advert_metric := true }, none, none⟩
    hKept hOwn (by simp) rfl rfl
  exact hRenewed.start

end EventAgent

end Dsdv

end Ns2
