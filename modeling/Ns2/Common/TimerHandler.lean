import Mathlib.Logic.Basic
import Mathlib.Tactic.Common

/-
  Timers of the simulator.

  A timer owns one event.  Its status says whether the event
  is scheduled or being handled.  Operations that find the
  timer in a status they do not expect abort the simulation,
  and so does the scheduler when it gets an event that is
  scheduled already; both are modeled by no result.

  Main declarations:
    * `TimerHandler`
    * `TimerHandler.resched`, `TimerHandler.cancel`
    * `TimerHandler.beginHandle`, `TimerHandler.endHandle`
    * `TimerHandler.Sound`
-/

------------------------------------------------------------
-- Timers
------------------------------------------------------------

namespace Ns2

inductive TimerStatus where
| TIMER_IDLE
| TIMER_PENDING
| TIMER_HANDLING
deriving DecidableEq, Repr

/- The event is known by the time it is scheduled for. -/
structure TimerHandler where
  status : TimerStatus
  event : Option Rat
deriving DecidableEq, Repr

namespace TimerHandler

def new : TimerHandler where
  status := .TIMER_IDLE
  event := none

def _sched
    (t : TimerHandler)
    (clock delay : Rat) : Option TimerHandler :=
  match t.event with
  | some _ => none
  | none => some { t with event := some (clock + delay) }

def _cancel (t : TimerHandler) : TimerHandler :=
  { t with event := none }

def cancel (t : TimerHandler) : Option TimerHandler :=
  if t.status ≠ .TIMER_PENDING then none
  else some { t._cancel with status := .TIMER_IDLE }

def force_cancel (t : TimerHandler) : TimerHandler :=
  if t.status = .TIMER_PENDING then
    { t._cancel with status := .TIMER_IDLE }
  else t

def resched
    (t : TimerHandler)
    (clock delay : Rat) : Option TimerHandler :=
  let t :=
    if t.status = .TIMER_PENDING then t._cancel else t
  (t._sched clock delay).map
    fun t => { t with status := .TIMER_PENDING }

/-
  The scheduler has taken the event out and hands it to the
  timer, which now runs the code of its owner.
-/
def beginHandle (t : TimerHandler) : Option TimerHandler :=
  if t.status ≠ .TIMER_PENDING then none
  else some { t._cancel with status := .TIMER_HANDLING }

/- A timer that its owner did not set again is done. -/
def endHandle (t : TimerHandler) : TimerHandler :=
  if t.status = .TIMER_HANDLING then
    { t with status := .TIMER_IDLE }
  else t

end TimerHandler

------------------------------------------------------------
-- Status and event
------------------------------------------------------------

namespace TimerHandler

def Pending (t : TimerHandler) : Prop :=
  t.status = .TIMER_PENDING

instance (t : TimerHandler) : Decidable t.Pending :=
  inferInstanceAs (Decidable (t.status = .TIMER_PENDING))

/- Outside its handler the status tells if it is scheduled. -/
structure Sound (t : TimerHandler) : Prop where
  not_handling : t.status ≠ .TIMER_HANDLING
  scheduled : t.event ≠ none ↔ t.Pending

variable {t t' : TimerHandler}
variable {clock delay : Rat}

theorem sound_new : new.Sound := by
  constructor
  case not_handling => exact TimerStatus.noConfusion
  case scheduled =>
    exact ⟨fun hEvent => absurd rfl hEvent,
      TimerStatus.noConfusion⟩

theorem not_pending_new : ¬ new.Pending := by
  exact TimerStatus.noConfusion

theorem Sound.idle_of_not_pending
    (hSound : t.Sound)
    (hIdle : ¬ t.Pending) :
    t = new := by
  have hEvent : t.event = none :=
    not_not.mp (mt hSound.scheduled.mp hIdle)
  have hStatus : t.status = .TIMER_IDLE := by
    cases hCase : t.status with
    | TIMER_IDLE => rfl
    | TIMER_PENDING => exact absurd hCase hIdle
    | TIMER_HANDLING =>
        exact absurd hCase hSound.not_handling
  cases t
  simp only at hEvent hStatus
  rw [hEvent, hStatus]
  rfl

/- Set again, the timer is pending, whatever it was before. -/
theorem resched_ok
    (hFree : t.event ≠ none → t.Pending) :
    t.resched clock delay =
      some ⟨.TIMER_PENDING, some (clock + delay)⟩ := by
  unfold resched
  by_cases hPending : t.status = .TIMER_PENDING
  · rw [if_pos hPending]
    rfl
  · have hEvent : t.event = none :=
      not_not.mp (mt hFree hPending)
    rw [if_neg hPending]
    simp only [_sched, hEvent]
    rfl

theorem sound_scheduled
    (time : Rat) :
    Sound ⟨.TIMER_PENDING, some time⟩ := by
  constructor
  case not_handling => exact TimerStatus.noConfusion
  case scheduled =>
    exact ⟨fun _ => rfl, fun _ => Option.some_ne_none time⟩

theorem cancel_ok
    (hPending : t.Pending) :
    t.cancel = some new := by
  exact if_neg (not_not.mpr hPending)

theorem Sound.force_cancel_eq
    (hSound : t.Sound) :
    t.force_cancel = new := by
  unfold force_cancel
  split_ifs with hPending
  · rfl
  · exact hSound.idle_of_not_pending hPending

theorem beginHandle_ok
    (hPending : t.Pending) :
    t.beginHandle = some ⟨.TIMER_HANDLING, none⟩ := by
  exact if_neg (not_not.mpr hPending)

theorem endHandle_of_pending
    (hPending : t.Pending) :
    t.endHandle = t := by
  unfold endHandle
  rw [if_neg]
  rw [hPending]
  exact TimerStatus.noConfusion

end TimerHandler

end Ns2
