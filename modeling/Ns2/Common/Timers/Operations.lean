import Ns2.Common.EventLoop.Operations
import Ns2.Common.TimerHandler

/-
  The timers of a program in the simulator loop.

  Every timer owns one event, `.inl t`, and is the handler
  of it; the other events of the program have handlers of
  their own.  A handler invocation lies between `next` and
  `finish`, and a history is kept of what happened to each
  timer.

  Main declarations:
    * `Timers.sched`, `Timers.resched`
    * `Timers.cancel`, `Timers.force_cancel`
    * `Timers.beginHandle`, `Timers.endHandle`
    * `Timers.step`, `Timers.Allowed`
-/

------------------------------------------------------------
-- Timer State
------------------------------------------------------------

namespace Ns2

/- The aborts of the timers, and those of the scheduler. -/
inductive TimerAbort where
| scheduler (a : Abort)
| notScheduled
| alreadySet
| notPending
deriving DecidableEq, Repr

/- What happened to a timer, and at which time. -/
inductive TimerEntry (T : Type) where
| set (now delay : T)
| cancelled (now : T)
| expired (now : T)
deriving DecidableEq, Repr

/-
  The simulator, the timers, and the handler that runs.  A
  history has its last entry first.
-/
structure Timers (τ ε η T : Type) where
  world : World (τ ⊕ ε) (τ ⊕ η) T
  status_ : τ → TimerStatus
  running : Option (τ ⊕ η)
  history : τ → List (TimerEntry T)

namespace Timers

variable {τ ε η T : Type}

def init
    (τ ε η T : Type) [Zero T] : Timers τ ε η T where
  world := World.init (τ ⊕ ε) (τ ⊕ η) T
  status_ := fun _ => .TIMER_IDLE
  running := none
  history := fun _ => []

def clock (s : Timers τ ε η T) : T :=
  s.world.sim.clock

def queue (s : Timers τ ε η T) : List (τ ⊕ ε) :=
  s.world.sim.queue

end Timers

end Ns2

------------------------------------------------------------
-- Timer Calls
------------------------------------------------------------

namespace Ns2

namespace Timers

variable {τ ε η T : Type}
variable [DecidableEq τ] [DecidableEq ε] [LinearOrder T]

/- Give `t` a new status and write down why. -/
def mark
    (s : Timers τ ε η T)
    (t : τ)
    (status : TimerStatus)
    (entry : TimerEntry T) : Timers τ ε η T :=
  { s with
    status_ := Function.update s.status_ t status
    history :=
      Function.update s.history t (entry :: s.history t) }

/- A call of the scheduler. -/
def scheduler
    [Add T]
    (s : Timers τ ε η T)
    (c : Call (τ ⊕ ε) (τ ⊕ η) T) :
    Except TimerAbort (Timers τ ε η T) :=
  ((s.world.call c).mapError .scheduler).map
    fun w => { s with world := w }

def _sched
    [Add T]
    (s : Timers τ ε η T)
    (t : τ)
    (delay : T) : Except TimerAbort (Timers τ ε η T) :=
  s.scheduler (.schedule (.inl t) (.inl t) delay)

def _cancel
    [Add T]
    (s : Timers τ ε η T)
    (t : τ) : Except TimerAbort (Timers τ ε η T) :=
  s.scheduler (.cancel (.inl t))

def sched
    [Add T]
    (s : Timers τ ε η T)
    (t : τ)
    (delay : T) : Except TimerAbort (Timers τ ε η T) :=
  if s.status_ t ≠ .TIMER_IDLE then .error .alreadySet
  else
    (s._sched t delay).map
      (·.mark t .TIMER_PENDING (.set s.clock delay))

def resched
    [Add T]
    (s : Timers τ ε η T)
    (t : τ)
    (delay : T) : Except TimerAbort (Timers τ ε η T) :=
  ((if s.status_ t = .TIMER_PENDING then s._cancel t
    else .ok s).bind (·._sched t delay)).map
      (·.mark t .TIMER_PENDING (.set s.clock delay))

def cancel
    [Add T]
    (s : Timers τ ε η T)
    (t : τ) : Except TimerAbort (Timers τ ε η T) :=
  if s.status_ t ≠ .TIMER_PENDING then .error .notScheduled
  else
    (s._cancel t).map
      (·.mark t .TIMER_IDLE (.cancelled s.clock))

def force_cancel
    [Add T]
    (s : Timers τ ε η T)
    (t : τ) : Except TimerAbort (Timers τ ε η T) :=
  if s.status_ t = .TIMER_PENDING then
    (s._cancel t).map
      (·.mark t .TIMER_IDLE (.cancelled s.clock))
  else .ok s

/- `handle` up to the call of `expire`. -/
def beginHandle
    (s : Timers τ ε η T)
    (t : τ) : Except TimerAbort (Timers τ ε η T) :=
  if s.status_ t ≠ .TIMER_PENDING then .error .notPending
  else .ok (s.mark t .TIMER_HANDLING (.expired s.clock))

/- `handle` after `expire` has returned. -/
def endHandle
    (s : Timers τ ε η T)
    (t : τ) : Timers τ ε η T :=
  if s.status_ t = .TIMER_HANDLING then
    { s with
      status_ := Function.update s.status_ t .TIMER_IDLE }
  else s

end Timers

end Ns2

------------------------------------------------------------
-- Runs
------------------------------------------------------------

namespace Ns2

/- What a handler may call; other events are its own. -/
inductive TimerCall (τ ε η T : Type) where
| sched (t : τ) (delay : T)
| resched (t : τ) (delay : T)
| cancel (t : τ)
| force_cancel (t : τ)
| status (t : τ)
| scheduleOther (h : η) (e : ε) (delay : T)
| cancelOther (e : ε)
| halt

/- The loop takes an event; its handler calls and returns. -/
inductive TimerAction (τ ε η T : Type) where
| call (c : TimerCall τ ε η T)
| next
| finish
| resume

namespace Timers

variable {τ ε η T : Type}
variable [DecidableEq τ] [DecidableEq ε] [LinearOrder T]

def call
    [Add T]
    (s : Timers τ ε η T) :
    TimerCall τ ε η T → Except TimerAbort (Timers τ ε η T)
| .sched t delay => s.sched t delay
| .resched t delay => s.resched t delay
| .cancel t => s.cancel t
| .force_cancel t => s.force_cancel t
| .status _ => .ok s
| .scheduleOther h e delay =>
    s.scheduler (.schedule (.inr h) (.inr e) delay)
| .cancelOther e => s.scheduler (.cancel (.inr e))
| .halt => s.scheduler .halt

/- Enter the handler of the event that was taken. -/
def enter
    (s : Timers τ ε η T) :
    Option (τ ⊕ η) → Except TimerAbort (Timers τ ε η T)
| none => .error (.scheduler .nullHandler)
| some (.inl t) =>
    { s with running := some (.inl t) }.beginHandle t
| some (.inr h) => .ok { s with running := some (.inr h) }

/- Dispatch the event that the loop has taken, if any. -/
def dispatch
    (r : Option (τ ⊕ ε) × Timers τ ε η T) :
    Except TimerAbort (Timers τ ε η T) :=
  match r.1 with
  | none => .ok r.2
  | some e => r.2.enter (r.2.world.sim.objects e).handler

def next
    (s : Timers τ ε η T) :
    Except TimerAbort (Timers τ ε η T) :=
  (s.world.next.mapError .scheduler).bind fun r =>
    dispatch (r.1, { s with world := r.2 })

/- The running handler returns to the loop. -/
def leave
    (s : Timers τ ε η T) :
    Option (τ ⊕ η) → Timers τ ε η T
| some (.inl t) => { s.endHandle t with running := none }
| _ => { s with running := none }

def step
    [Add T]
    (s : Timers τ ε η T) :
    TimerAction τ ε η T →
      Except TimerAbort (Timers τ ε η T)
| .call c => s.call c
| .next => s.next
| .finish => .ok (s.leave s.running)
| .resume =>
    .ok
      { s with
        world :=
          { s.world with
            sim := { s.world.sim with halted := false } } }

/- The action, if it does not abort. -/
def act
    [Add T]
    (s : Timers τ ε η T)
    (a : TimerAction τ ε η T) : Option (Timers τ ε η T) :=
  (s.step a).toOption

/-
  Timers are scheduled when idle and cancelled when pending,
  and delays are not negative.  The loop goes on when the
  handler has returned.
-/
def Allowed
    [Zero T]
    (s : Timers τ ε η T) :
    TimerAction τ ε η T → Prop
| .call (.sched t delay) =>
    s.status_ t = .TIMER_IDLE ∧ 0 ≤ delay
| .call (.resched _ delay) => 0 ≤ delay
| .call (.cancel t) => s.status_ t = .TIMER_PENDING
| .call (.scheduleOther _ e delay) =>
    .inr e ∉ s.queue ∧ 0 ≤ delay
| .next => s.running = none
| .finish => s.running ≠ none
| _ => True

end Timers

end Ns2
