import Mathlib.Algebra.Order.Monoid.Defs
import Mathlib.Logic.Function.Basic
import Ns2.Common.ListScheduler

/-
  The simulator loop over the list scheduler.

  Event objects are named by a type `ι` of pointers; the
  queue links pointers, and the due time and the id are
  read from the objects.  A handler invocation is a finite
  list of calls, so a run is a list of actions: the calls
  and the rounds of the loop.  A log of what was scheduled,
  cancelled and dispatched goes along with the run.

  Main declarations:
    * `Simulator.schedule`, `Simulator.cancel`
    * `Simulator.dispatch`, `Simulator.next`
    * `World.step`, `World.exec`, `World.run`
-/

------------------------------------------------------------
-- Simulator State
------------------------------------------------------------

namespace Ns2

/- An event object. -/
structure EventObject (H T : Type) where
  handler : Option H
  time : T
  uid : Int
deriving DecidableEq, Repr

/- The ways a run aborts. -/
inductive Abort where
| nullHandler
| uidNotValid
| uidSpaceExhausted
| goingBackwards
| notQueued
deriving DecidableEq, Repr

/- The scheduler, and the event objects of the program. -/
structure Simulator (ι H T : Type) where
  clock : T
  uid : Int
  halted : Bool
  queue : List ι
  objects : ι → EventObject H T

/- The last id of the signed 64-bit counter. -/
def uidMax : Int := 2 ^ 63 - 1

/- The counter after handing out `uid`; it wraps around. -/
def nextUid (uid : Int) : Int :=
  if uid = uidMax then -uidMax - 1
  else uid + 1

namespace Simulator

variable {ι H T : Type}

/- A new scheduler and new event objects. -/
def init
    (ι H T : Type) [Zero T] : Simulator ι H T where
  clock := 0
  uid := 1
  halted := false
  queue := []
  objects := fun _ => ⟨none, 0, 0⟩

end Simulator

end Ns2

------------------------------------------------------------
-- Scheduler Calls
------------------------------------------------------------

namespace Ns2

namespace Simulator

variable {ι H T : Type} [DecidableEq ι]

/- The due time of an event object. -/
def due
    (s : Simulator ι H T)
    (e : ι) : T :=
  (s.objects e).time

/-
  Schedule `e` at `delay` past the clock.  An event whose id
  is positive is queued already; a negative delay only draws
  a warning.
-/
def schedule
    [Add T] [LinearOrder T]
    (s : Simulator ι H T)
    (h : Option H)
    (e : ι)
    (delay : T) : Except Abort (Simulator ι H T) :=
  match h with
  | none => .error .nullHandler
  | some h =>
      if 0 < (s.objects e).uid then .error .uidNotValid
      else if s.uid < 0 then .error .uidSpaceExhausted
      else
        let s' : Simulator ι H T :=
          { s with
            uid := nextUid s.uid
            objects := Function.update s.objects e
              ⟨some h, s.clock + delay, s.uid⟩ }
        .ok { s' with
          queue := ListScheduler.insert s'.due e s.queue }

/- Flip the sign of the id of `e`. -/
def flipUid
    (s : Simulator ι H T)
    (e : ι) : Simulator ι H T :=
  { s with
    objects := Function.update s.objects e
      { s.objects e with uid := -(s.objects e).uid } }

/- Cancel `e`; an event that is not queued is left alone. -/
def cancel
    (s : Simulator ι H T)
    (e : ι) : Except Abort (Simulator ι H T) :=
  if (s.objects e).uid ≤ 0 then .ok s
  else
    match ListScheduler.unlink e s.queue with
    | none => .error .notQueued
    | some queue => .ok ({ s with queue := queue }.flipUid e)

/- Set the clock to `t` and mark `e` as dispatched. -/
def dispatch
    [LinearOrder T]
    (s : Simulator ι H T)
    (e : ι)
    (t : T) : Except Abort (Simulator ι H T) :=
  if t < s.clock then .error .goingBackwards
  else .ok ({ s with clock := t }.flipUid e)

/-
  One round of the loop: the event dispatched, or none when
  the loop ends.  The queue is read only when not halted.
-/
def next
    [LinearOrder T]
    (s : Simulator ι H T) :
    Except Abort (Option ι × Simulator ι H T) :=
  if s.halted then .ok (none, s)
  else
    match ListScheduler.deque s.queue with
    | (none, queue) => .ok (none, { s with queue := queue })
    | (some e, queue) =>
        ({ s with queue := queue }.dispatch e (s.due e)).map
          (some e, ·)

end Simulator

end Ns2

------------------------------------------------------------
-- Runs
------------------------------------------------------------

namespace Ns2

/- What a handler, or the code before the loop, may call. -/
inductive Call (ι H T : Type) where
| schedule : H → ι → T → Call ι H T
| cancel : ι → Call ι H T
| halt : Call ι H T
deriving DecidableEq, Repr

/- A call, a round of the loop, or the resume command. -/
inductive Action (ι H T : Type) where
| call : Call ι H T → Action ι H T
| next : Action ι H T
| resume : Action ι H T
deriving DecidableEq, Repr

/- What happened to an event object under which id. -/
inductive Record (ι T : Type) where
| scheduled (e : ι) (uid : Int) (now delay : T)
| cancelled (e : ι) (uid : Int)
| dispatched (e : ι) (uid : Int) (now : T)
deriving DecidableEq, Repr

/- The simulator and the log of the run, last entry first. -/
structure World (ι H T : Type) where
  sim : Simulator ι H T
  log : List (Record ι T)

namespace World

variable {ι H T : Type} [DecidableEq ι]
variable [LinearOrder T]

/- The start of a run. -/
def init
    (ι H T : Type) [Zero T] : World ι H T :=
  ⟨Simulator.init ι H T, []⟩

/- One call. -/
def call
    [Add T]
    (w : World ι H T) :
    Call ι H T → Except Abort (World ι H T)
| .schedule h e delay =>
    (w.sim.schedule (some h) e delay).map fun s =>
      ⟨s, .scheduled e w.sim.uid w.sim.clock delay :: w.log⟩
| .cancel e =>
    (w.sim.cancel e).map fun s =>
      ⟨s, if (w.sim.objects e).uid ≤ 0 then w.log
        else .cancelled e (w.sim.objects e).uid :: w.log⟩
| .halt =>
    .ok { w with sim := { w.sim with halted := true } }

/- One round of the loop, and the event it dispatched. -/
def next
    (w : World ι H T) :
    Except Abort (Option ι × World ι H T) :=
  w.sim.next.map fun r =>
    (r.1, ⟨r.2,
      match r.1 with
      | none => w.log
      | some e =>
          .dispatched e (w.sim.objects e).uid r.2.clock ::
            w.log⟩)

/- One action. -/
def step
    [Add T]
    (w : World ι H T) :
    Action ι H T → Except Abort (World ι H T)
| .call c => w.call c
| .next => w.next.map Prod.snd
| .resume =>
    .ok { w with sim := { w.sim with halted := false } }

/- A sequence of actions. -/
def exec
    [Add T]
    (w : World ι H T) :
    List (Action ι H T) → Except Abort (World ι H T)
| [] => .ok w
| a :: as => (w.step a).bind (exec · as)

/-
  `fuel` rounds of `Scheduler::run`, or less when the loop
  ends.  `handle n` tells what the `n`th handler invocation
  calls, given the handler and the event.
-/
def run
    [Add T]
    (handle : Nat → Option H → ι → List (Call ι H T))
    (n : Nat)
    (w : World ι H T) :
    Nat → Except Abort (World ι H T)
| 0 => .ok w
| fuel + 1 =>
    w.next.bind fun r =>
      match r.1 with
      | none => .ok r.2
      | some e =>
          (r.2.exec
            ((handle n (r.2.sim.objects e).handler e).map
              .call)).bind
            (run handle (n + 1) · fuel)

end World

end Ns2
