import Mathlib.Algebra.Order.Ring.Rat
import Ns2.Common.TimerHandler

/-
  The token bucket filter.

  Packets go on to the target while there are tokens for
  their bits; other packets wait in a queue whose head a
  timer sends on.  Times, tokens and the rate are rationals.
  A call that aborts has no result, and what happened to a
  packet that came in is returned beside the filter.

  Main declarations:
    * `TBF.recv`, `TBF.timeout`, `TBF.handle`
    * `TBF.World`, `TBF.act`, `TBF.Allowed`
-/

------------------------------------------------------------
-- Filters
------------------------------------------------------------

namespace Ns2

/- The bound variables. -/
structure TBF.Config where
  rate : Rat
  bucket : Int
  qlen : Int

structure TBF (α : Type) where
  tokens : Rat
  lastupdatetime : Rat
  q : List α
  tbf_timer : TimerHandler
  init : Bool

namespace TBF

variable {α : Type}

/- The time of the last update is not set yet. -/
def new (lastupdatetime : Rat) : TBF α where
  tokens := 0
  lastupdatetime := lastupdatetime
  q := []
  tbf_timer := .new
  init := true

/- What becomes of a packet that comes in. -/
inductive Fate where
| sent
| stored
| dropped
deriving DecidableEq, Repr

variable (size : α → Int) (cfg : Config)

/- The bits of a packet, whose size is in bytes. -/
def pktsize (p : α) : Int :=
  size p * 2 ^ 3

def getupdatedtokens
    (now : Rat)
    (s : TBF α) : TBF α :=
  let tokens := s.tokens + (now - s.lastupdatetime) * cfg.rate
  { s with
    tokens := if tokens > cfg.bucket then cfg.bucket else tokens
    lastupdatetime := now }

/- The first packet finds a full bucket. -/
def start
    (now : Rat)
    (s : TBF α) : TBF α :=
  if s.init then
    { s with
      tokens := cfg.bucket
      lastupdatetime := now
      init := false }
  else s

/- Set the timer for when there are tokens for `p`. -/
def await
    (now : Rat)
    (p : α)
    (s : TBF α) : Option (TBF α) :=
  (s.tbf_timer.resched now
    ((pktsize size p - s.tokens) / cfg.rate)).map fun t =>
      { s with tbf_timer := t }

def recv
    (now : Rat)
    (p : α)
    (s : TBF α) : Option (Fate × TBF α) :=
  let s := s.start cfg now
  if s.q.length ≠ 0 then
    if s.q.length < cfg.qlen then
      some (.stored, { s with q := s.q ++ [p] })
    else some (.dropped, s)
  else
    let s := s.getupdatedtokens cfg now
    if s.tokens ≥ pktsize size p then
      some (.sent, { s with tokens := s.tokens - pktsize size p })
    else if cfg.qlen ≠ 0 then
      (await size cfg now p { s with q := s.q ++ [p] }).map
        fun s => (.stored, s)
    else some (.dropped, s)

/- Send the head on without a look at the tokens. -/
def timeout
    (now : Rat)
    (s : TBF α) : Option (α × TBF α) :=
  match s.q with
  | [] => none
  | p :: q =>
      let s := { s with q := q }.getupdatedtokens cfg now
      let s := { s with tokens := s.tokens - pktsize size p }
      match q with
      | [] => some (p, s)
      | head :: _ =>
          (await size cfg now head s).map fun s => (p, s)

/- The scheduler hands the filter's timer its event. -/
def handle
    (now : Rat)
    (s : TBF α) : Option (α × TBF α) :=
  s.tbf_timer.beginHandle.bind fun t =>
    (timeout size cfg now { s with tbf_timer := t }).map
      fun r =>
        (r.1, { r.2 with tbf_timer := r.2.tbf_timer.endHandle })

end TBF

end Ns2

------------------------------------------------------------
-- Runs
------------------------------------------------------------

namespace Ns2

namespace TBF

variable {α : Type}

/- The filter, the time, what came and what went on when. -/
structure World (α : Type) where
  clock : Rat
  tbf : TBF α
  arrived : List α
  sent : List (Rat × α)

inductive Happening (α : Type) where
| arrive (time : Rat) (p : α)
| fire

def World.new
    (clock lastupdatetime : Rat) : World α where
  clock := clock
  tbf := .new lastupdatetime
  arrived := []
  sent := []

variable (size : α → Int) (cfg : Config)

def act
    (w : World α) :
    Happening α → Option (World α)
| .arrive time p =>
    (w.tbf.recv size cfg time p).map fun r =>
      { clock := time
        tbf := r.2
        arrived := w.arrived ++ [p]
        sent :=
          if r.1 = .sent then w.sent ++ [(time, p)]
          else w.sent }
| .fire =>
    w.tbf.tbf_timer.event.bind fun due =>
      (w.tbf.handle size cfg due).map fun r =>
        { w with
          clock := due
          tbf := r.2
          sent := w.sent ++ [(due, r.1)] }

/-
  Packets come in order of time with bits for which there is
  room in the bucket, and not after the timer is due.
-/
def Allowed
    (w : World α) :
    Happening α → Prop
| .arrive time p =>
    w.clock ≤ time ∧
      (∀ due ∈ w.tbf.tbf_timer.event, time ≤ due) ∧
      0 < pktsize size p ∧ pktsize size p ≤ cfg.bucket
| .fire => w.tbf.tbf_timer.event ≠ none

instance
    (w : World α) :
    (h : Happening α) → Decidable (Allowed size cfg w h)
| .arrive time p =>
    inferInstanceAs (Decidable
      (w.clock ≤ time ∧
        (∀ due ∈ w.tbf.tbf_timer.event, time ≤ due) ∧
        0 < pktsize size p ∧ pktsize size p ≤ cfg.bucket))
| .fire =>
    inferInstanceAs
      (Decidable (w.tbf.tbf_timer.event ≠ none))

end TBF

end Ns2
