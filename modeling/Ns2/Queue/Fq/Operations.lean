import Mathlib.Logic.Function.Basic
import Ns2.Lib.PartialRun

/-
  Fair queueing over upstream queues.

  An upstream queue hands its head-of-line packet to the fair
  queue and is blocked until the fair queue sends it on.  The
  fair queue resumes the upstream queue before it hands the
  packet to the downstream, and the upstream queue then calls
  it again with its next packet.  Calls that do not end within
  the fuel, an abort and a call through a handler that is not
  set have no result.  The floating-point operations of the
  finish times are parameters.

  Main declarations:
    * `FQ`, `FQ.update`, `FQ.deque`, `FQ.recv`
    * `FQ.Event`, `FQ.act`
-/

------------------------------------------------------------
-- State
------------------------------------------------------------

namespace Ns2

/- The packets that the fair queue sees. -/
structure FlowPacket (α : Type) where
  flowid : Nat
  size : Int
  body : α
deriving DecidableEq, Repr

/- An upstream queue with a FIFO discipline. -/
structure UpstreamQueue (α : Type) where
  packets : List (FlowPacket α)
  blocked : Bool
deriving DecidableEq, Repr

/- The operations on times, which are floating-point numbers. -/
structure FinishTimes (τ : Type) where
  zero : τ
  less : τ → τ → Bool
  delta : Int → τ
  finish : τ → τ → Nat → τ

/-
  A handler is the one of the upstream queue of a flow; it is
  not set before the first packet of the flow.
-/
structure FlowState (τ α : Type) where
  q : Option (UpstreamQueue α)
  hol : Option (FlowPacket α)
  finishTime : τ
  delta : τ
  handler : Option Nat

/-
  The fair queue with its downstream: the packets sent, those
  that the downstream has not resumed for, and the most it
  ever had of these.
-/
structure FQ (τ α : Type) where
  fs : Nat → FlowState τ α
  maxflow : Int
  blocked : Bool
  unblock_on_resume : Bool
  sent : List (FlowPacket α)
  outstanding : Nat
  peak : Nat

namespace FQ

variable {τ α : Type}

def MAXFLOW : Nat := 32

def new
    (times : FinishTimes τ)
    (unblock_on_resume : Bool) : FQ τ α where
  fs := fun _ => ⟨none, none, times.zero, times.zero, none⟩
  maxflow := -1
  blocked := false
  unblock_on_resume := unblock_on_resume
  sent := []
  outstanding := 0
  peak := 0

def setFlow
    (s : FQ τ α)
    (i : Nat)
    (f : FlowState τ α) : FQ τ α :=
  { s with fs := Function.update s.fs i f }

/- Change the upstream queue of a flow. -/
def setQueue
    (s : FQ τ α)
    (i : Nat)
    (q : UpstreamQueue α) : FQ τ α :=
  s.setFlow i { s.fs i with q := some q }

/- The command that installs an upstream queue. -/
def install
    (s : FQ τ α)
    (flowID : Nat) : FQ τ α :=
  let s := s.setQueue flowID ⟨[], false⟩
  if s.maxflow < flowID then { s with maxflow := flowID } else s

/- Hand a packet to the downstream. -/
def send
    (s : FQ τ α)
    (p : FlowPacket α) : FQ τ α :=
  { s with
    sent := s.sent ++ [p]
    outstanding := s.outstanding + 1
    peak := max s.peak (s.outstanding + 1) }

/- The flows that the loops go over. -/
def flows (s : FQ τ α) : List Nat :=
  List.range (s.maxflow + 1).toNat

end FQ

end Ns2

------------------------------------------------------------
-- Sending
------------------------------------------------------------

namespace Ns2

namespace FQ

variable {τ α : Type}

/- One round of `update`, with the number of active flows. -/
def updateFlow
    (r : Nat × FQ τ α)
    (i : Nat) : Nat × FQ τ α :=
  match (r.2.fs i).q with
  | none => r
  | some q =>
      match (r.2.fs i).hol with
      | some _ => (r.1 + 1, r.2)
      | none =>
          match q.packets with
          | [] => r
          | p :: packets =>
              let s := r.2.setQueue i { q with packets := packets }
              (r.1 + 1, s.setFlow i { s.fs i with hol := some p })

def update (s : FQ τ α) : Nat × FQ τ α :=
  s.flows.foldl updateFlow (0, s)

/- The flow with the least finish time, the first one of these. -/
def better
    (times : FinishTimes τ)
    (s : FQ τ α)
    (nactive : Nat)
    (best : Option (Nat × τ))
    (i : Nat) : Option (Nat × τ) :=
  if (s.fs i).hol = none then best
  else
    let F := times.finish (s.fs i).finishTime (s.fs i).delta
      nactive
    match best with
    | none => some (i, F)
    | some b => if times.less F b.2 then some (i, F) else some b

def target
    (times : FinishTimes τ)
    (s : FQ τ α)
    (nactive : Nat) : Option (Nat × τ) :=
  s.flows.foldl (better times s nactive) none

/-
  `FQ::recv` of a packet from the upstream queue `handler`,
  where `deque` is the way it calls `FQ::deque`.
-/
def recvWith
    (times : FinishTimes τ)
    (deque : FQ τ α → Option (Option (FlowPacket α) × FQ τ α))
    (now : τ)
    (s : FQ τ α)
    (p : FlowPacket α)
    (handler : Nat) : Option (FQ τ α) :=
  let f := s.fs p.flowid
  if MAXFLOW ≤ p.flowid ∨ f.hol ≠ none then none
  else
    let s := s.setFlow p.flowid
      { f with
        hol := some p
        finishTime :=
          if times.less f.finishTime now then now
          else f.finishTime
        handler := some handler
        delta := times.delta p.size }
    if s.blocked then some s
    else
      (deque s).map fun r =>
        match r.1 with
        | none => r.2
        | some p => { r.2 with blocked := true }.send p

/- `Queue::resume` of an upstream queue. -/
def resumeUpstream
    (recv : FQ τ α → FlowPacket α → Nat → Option (FQ τ α))
    (s : FQ τ α)
    (i : Nat) : Option (FQ τ α) :=
  (s.fs i).q.bind fun q =>
    match q.packets with
    | [] => some (s.setQueue i { q with blocked := false })
    | p :: packets =>
        recv (s.setQueue i { q with packets := packets }) p i

/- Send the target's packet and let its queue resume. -/
def deque
    (times : FinishTimes τ)
    (fuel : Nat)
    (now : τ)
    (s : FQ τ α) : Option (Option (FlowPacket α) × FQ τ α) :=
  match fuel with
  | 0 => none
  | fuel + 1 =>
      let r := s.update
      match r.2.target times r.1 with
      | none => some (none, r.2)
      | some (i, best) =>
          let f := r.2.fs i
          let s := r.2.setFlow i
            { f with hol := none, finishTime := best }
          f.handler.bind fun h =>
            (resumeUpstream
              (recvWith times (deque times fuel now) now)
              s h).map fun s => (f.hol, s)

def recv
    (times : FinishTimes τ)
    (fuel : Nat)
    (now : τ)
    (s : FQ τ α)
    (p : FlowPacket α)
    (handler : Nat) : Option (FQ τ α) :=
  recvWith times (deque times fuel now) now s p handler

/- `Queue::resume` of the fair queue itself. -/
def resume
    (times : FinishTimes τ)
    (fuel : Nat)
    (now : τ)
    (s : FQ τ α) : Option (FQ τ α) :=
  (deque times fuel now s).map fun r =>
    match r.1 with
    | none => { r.2 with blocked := !r.2.unblock_on_resume }
    | some p => r.2.send p

/-
  `Queue::recv` of an upstream queue, whose discipline stores
  the packet or drops it.
-/
def recvUpstream
    (times : FinishTimes τ)
    (fuel : Nat)
    (now : τ)
    (s : FQ τ α)
    (i : Nat)
    (p : FlowPacket α)
    (stored : Bool) : Option (FQ τ α) :=
  (s.fs i).q.bind fun q =>
    let stock := if stored then q.packets ++ [p] else q.packets
    if q.blocked then
      some (s.setQueue i { q with packets := stock })
    else
      match stock with
      | [] => some (s.setQueue i { q with packets := [] })
      | p :: packets =>
          recv times fuel now (s.setQueue i ⟨packets, true⟩) p i

end FQ

end Ns2

------------------------------------------------------------
-- Runs
------------------------------------------------------------

namespace Ns2

namespace FQ

variable {τ α : Type}

/-
  A packet arrives at the upstream queue of its flow, or the
  downstream resumes for a packet it has.
-/
inductive Event (τ α : Type) where
  | arrive (now : τ) (p : FlowPacket α) (stored : Bool)
  | resume (now : τ)

/- Flows without an upstream queue get no packets. -/
def Event.Enabled
    (s : FQ τ α) : Event τ α → Prop
| .arrive _ p _ => (s.fs p.flowid).q.isSome = true
| .resume _ => 0 < s.outstanding

instance
    (s : FQ τ α)
    (e : Event τ α) : Decidable (e.Enabled s) :=
  match e with
  | .arrive _ _ _ => inferInstanceAs (Decidable (_ = _))
  | .resume _ => inferInstanceAs (Decidable (_ < _))

/- Calls are nested at most `fuel` deep. -/
def act
    (times : FinishTimes τ)
    (fuel : Nat)
    (s : FQ τ α) : Event τ α → Option (FQ τ α)
| .arrive now p stored =>
    s.recvUpstream times fuel now p.flowid p stored
| .resume now =>
    { s with outstanding := s.outstanding - 1 }.resume times
      fuel now

end FQ

end Ns2
