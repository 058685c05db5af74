import Mathlib.Algebra.Order.Ring.Rat

/-
  The backoff timer of a station.

  The timer is paused while the medium is busy. Whenever it is
  resumed it waits for DIFS first, and then for the slots that
  remain. Times are exact here, and an event that is queued is
  given by the time it is queued for.

  Main declarations:
    * `BackoffRfidTimer`
    * `BackoffRfidTimer.start`, `BackoffRfidTimer.stop`
    * `BackoffRfidTimer.pause`, `BackoffRfidTimer.resume`
    * `BackoffRfidTimer.Run`
-/

------------------------------------------------------------
-- Timer State
------------------------------------------------------------

namespace Ns2

namespace Mac

structure BackoffRfidTimer where
  busy_ : Bool
  paused_ : Bool
  stime : Rat
  rtime : Rat
  difs_wait : Rat
  intr : List Rat

namespace BackoffRfidTimer

/- An assertion, or the scheduler's check of an event. -/
inductive Fault where
| assertion
| queued

/- A quotient is cut towards zero. -/
def int (x : Rat) : Int :=
  x.num.tdiv x.den

def assert (b : Bool) : Except Fault Unit :=
  if b then .ok () else .error .assertion

def schedule
    (s : BackoffRfidTimer)
    (clock delay : Rat) : Except Fault BackoffRfidTimer :=
  if s.intr.isEmpty then
    .ok { s with intr := [clock + delay] }
  else .error .queued

def cancel (s : BackoffRfidTimer) : BackoffRfidTimer :=
  { s with intr := s.intr.tail }

end BackoffRfidTimer

end Mac

end Ns2

------------------------------------------------------------
-- Timer Calls
------------------------------------------------------------

namespace Ns2

namespace Mac

namespace BackoffRfidTimer

/- `random` is the number drawn, `slot` the slot time. -/
def start
    (s : BackoffRfidTimer)
    (clock slot : Rat)
    (random cw : Nat)
    (idle : Bool)
    (difs : Rat) : Except Fault BackoffRfidTimer := do
  assert (!s.busy_)
  let s :=
    { s with
      busy_ := true
      paused_ := false
      stime := clock
      rtime := (random % cw : Nat) * slot
      difs_wait := difs }
  if idle then
    assert (decide (0 ≤ s.rtime + s.difs_wait))
    s.schedule clock (s.rtime + s.difs_wait)
  else return { s with paused_ := true }

/- The whole slots that are over. -/
def slots
    (s : BackoffRfidTimer)
    (clock slot : Rat) : Int :=
  let sr := clock - (s.stime + s.difs_wait)
  if int (sr / slot) < 0 then 0 else int (sr / slot)

def pause
    (s : BackoffRfidTimer)
    (clock slot : Rat) : Except Fault BackoffRfidTimer := do
  let slots := s.slots clock slot
  assert (s.busy_ && !s.paused_)
  let s :=
    { s with
      paused_ := true
      rtime := s.rtime - slots * slot }
  assert (decide (0 ≤ s.rtime))
  return { s with difs_wait := 0 }.cancel

def resume
    (s : BackoffRfidTimer)
    (clock difs : Rat) : Except Fault BackoffRfidTimer := do
  assert (s.busy_ && s.paused_)
  let s :=
    { s with
      paused_ := false
      stime := clock
      difs_wait := difs }
  assert (decide (0 ≤ s.rtime + s.difs_wait))
  s.schedule clock (s.rtime + s.difs_wait)

def stop
    (s : BackoffRfidTimer) : Except Fault BackoffRfidTimer := do
  assert s.busy_
  let s := if s.paused_ then s else s.cancel
  return { s with
    busy_ := false
    paused_ := false
    stime := 0
    rtime := 0 }

def handle (s : BackoffRfidTimer) : BackoffRfidTimer :=
  { s with
    busy_ := false
    paused_ := false
    stime := 0
    rtime := 0
    difs_wait := 0 }

/- The scheduler takes the event and calls the handler. -/
def expire (s : BackoffRfidTimer) : BackoffRfidTimer :=
  handle { s with intr := s.intr.tail }

end BackoffRfidTimer

end Mac

end Ns2

------------------------------------------------------------
-- Runs
------------------------------------------------------------

namespace Ns2

namespace Mac

namespace BackoffRfidTimer

/- Neither busy nor queued. -/
def Idle (s : BackoffRfidTimer) : Prop :=
  s.busy_ = false ∧ s.intr = []

/- From `begun` to `ended` the timer was not paused. -/
structure Interval where
  begun : Rat
  difs : Rat
  ended : Rat

/-
  What happened since a start: the slots that were drawn, the
  time, the intervals that ended with a pause, and the begin
  and the DIFS wait of the one that has not ended. The time
  never passes a queued event.
-/
inductive Run (slot : Rat) (drawn : Nat) :
    Rat → List Interval → Option (Rat × Rat) →
      BackoffRfidTimer → Prop
| start
    {s s' : BackoffRfidTimer}
    {clock difs : Rat}
    {random cw : Nat}
    {idle : Bool}
    (hIdle : s.Idle)
    (hWindow : 1 ≤ cw)
    (hDifs : 0 ≤ difs)
    (hDrawn : drawn = random % cw)
    (hStart : s.start clock slot random cw idle difs = .ok s') :
    Run slot drawn clock []
      (if idle then some (clock, difs) else none) s'
| wait
    {s : BackoffRfidTimer}
    {now later : Rat}
    {past : List Interval}
    {current : Option (Rat × Rat)}
    (hRun : Run slot drawn now past current s)
    (hLater : now ≤ later)
    (hQueued : ∀ time ∈ s.intr, later ≤ time) :
    Run slot drawn later past current s
| pause
    {s s' : BackoffRfidTimer}
    {now begun difs : Rat}
    {past : List Interval}
    (hRun : Run slot drawn now past (some (begun, difs)) s)
    (hPause : s.pause now slot = .ok s') :
    Run slot drawn now (⟨begun, difs, now⟩ :: past) none s'
| resume
    {s s' : BackoffRfidTimer}
    {now difs : Rat}
    {past : List Interval}
    (hRun : Run slot drawn now past none s)
    (hDifs : 0 ≤ difs)
    (hResume : s.resume now difs = .ok s') :
    Run slot drawn now past (some (now, difs)) s'

end BackoffRfidTimer

end Mac

end Ns2
