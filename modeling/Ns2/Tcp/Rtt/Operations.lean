import Mathlib.Algebra.Order.Ring.Rat
import Mathlib.Data.Rat.Floor
import Ns2.Lib.PartialRun

/-
  The round-trip estimator and the retransmission time-out.

  The smoothed time and its deviation are integers of ticks,
  scaled by powers of two.  An `int` has 32 bits and a `short`
  has 16; what does not fit wraps around.  Times are exact.

  Main declarations:
    * `RttParams`, `Rtt`
    * `Rtt.timeout`, `Rtt.update`, `Rtt.backoff`
    * `Rtt.act`
-/

------------------------------------------------------------
-- Numbers
------------------------------------------------------------

namespace Ns2

namespace Tcp

def toInt (x : Int) : Int := x.bmod 4294967296

def toShort (x : Int) : Int := x.bmod 65536

/- A number without its fraction. -/
def truncate (x : Rat) : Int := x.num.tdiv x.den

def fmod (x y : Rat) : Rat := x - y * truncate (x / y)

theorem toInt_of_lt
    {x : Int}
    (hLow : -2147483648 ≤ x)
    (hHigh : x < 2147483648) :
    toInt x = x :=
  Int.bmod_eq_of_le_mul_two (by omega) (by omega)

theorem toShort_of_lt
    {x : Int}
    (hLow : -32768 ≤ x)
    (hHigh : x < 32768) :
    toShort x = x :=
  Int.bmod_eq_of_le_mul_two (by omega) (by omega)

end Tcp

end Ns2

------------------------------------------------------------
-- The Estimator
------------------------------------------------------------

namespace Ns2

namespace Tcp

structure RttParams where
  T_SRTT_BITS : Nat
  T_RTTVAR_BITS : Nat
  rttvar_exp_ : Nat
  srtt_init_ : Int
  rttvar_init_ : Int
  rtxcur_init_ : Rat
  tcp_tick_ : Rat
  minrto_ : Rat
  maxrto_ : Rat
  boot_time_ : Rat
  rfc2988_ : Bool
  ts_option_ : Bool

structure Rtt where
  t_rtt_ : Int
  t_srtt_ : Int
  t_rttvar_ : Int
  t_rtxcur_ : Rat
  t_backoff_ : Int
  use_rtt_ : Bool

namespace Rtt

def init (c : RttParams) : Rtt where
  t_rtt_ := 0
  t_srtt_ := toInt
    (truncate (c.srtt_init_ / c.tcp_tick_) * 2 ^ c.T_SRTT_BITS)
  t_rttvar_ := toInt
    (truncate (c.rttvar_init_ / c.tcp_tick_) *
      2 ^ c.T_RTTVAR_BITS)
  t_rtxcur_ := c.rtxcur_init_
  t_backoff_ := 1
  use_rtt_ := false

/- The time-out before it is limited from above. -/
def rawTimeout
    (c : RttParams)
    (s : Rtt) : Rat :=
  if c.rfc2988_ then
    if s.t_rtxcur_ < c.minrto_ ∧ s.use_rtt_ = false then
      c.minrto_ * s.t_backoff_
    else s.t_rtxcur_ * s.t_backoff_
  else if s.t_rtxcur_ * s.t_backoff_ < c.minrto_ then c.minrto_
  else s.t_rtxcur_ * s.t_backoff_

/- `none` stands for the exit because of a negative time-out. -/
def timeout
    (c : RttParams)
    (s : Rtt) : Option (Rat × Rtt) :=
  let timeout :=
    if c.maxrto_ < s.rawTimeout c then c.maxrto_
    else s.rawTimeout c
  let s' := { s with use_rtt_ := false }
  if timeout < 2 * c.tcp_tick_ then
    if timeout < 0 then none
    else if s.use_rtt_ ∧ timeout < c.tcp_tick_ then
      some (c.tcp_tick_, s')
    else some (2 * c.tcp_tick_, s')
  else some (timeout, s')

/- The ticks of a round trip that took the time `tao`. -/
def measure
    (c : RttParams)
    (now tao : Rat) : Int :=
  let t_rtt :=
    if c.ts_option_ then truncate (tao / c.tcp_tick_ + 1 / 2)
    else
      let sendtime := now - tao + c.boot_time_
      let tickoff := fmod sendtime c.tcp_tick_
      truncate ((tao + tickoff) / c.tcp_tick_)
  if t_rtt < 1 then 1 else t_rtt

/- The difference to the estimate, as it is kept in a `short`. -/
def delta
    (c : RttParams)
    (s : Rtt)
    (t_rtt : Int) : Int :=
  toShort (t_rtt - s.t_srtt_ >>> c.T_SRTT_BITS)

def deviation
    (c : RttParams)
    (s : Rtt)
    (delta : Int) : Int :=
  toShort ((if delta < 0 then toShort (-delta) else delta) -
    s.t_rttvar_ >>> c.T_RTTVAR_BITS)

/- A sum that is not positive becomes one. -/
def accumulate (x delta : Int) : Int :=
  if toInt (x + delta) ≤ 0 then 1 else toInt (x + delta)

/- The estimates after a sample of `t_rtt` ticks. -/
def estimate
    (c : RttParams)
    (s : Rtt)
    (t_rtt : Int) : Int × Int :=
  if s.t_srtt_ ≠ 0 then
    (accumulate s.t_srtt_ (s.delta c t_rtt),
      accumulate s.t_rttvar_ (s.deviation c (s.delta c t_rtt)))
  else
    (toInt (t_rtt * 2 ^ c.T_SRTT_BITS),
      toInt (t_rtt * 2 ^ (c.T_RTTVAR_BITS - 1)))

def update
    (c : RttParams)
    (s : Rtt)
    (now tao : Rat) : Rtt :=
  let t_rtt := measure c now tao
  let (t_srtt, t_rttvar) := s.estimate c t_rtt
  let scaled := toInt (t_rttvar *
    2 ^ (c.rttvar_exp_ + c.T_SRTT_BITS - c.T_RTTVAR_BITS))
  { s with
    t_rtt_ := t_rtt
    t_srtt_ := t_srtt
    t_rttvar_ := t_rttvar
    t_rtxcur_ :=
      ((toInt (scaled + t_srtt) >>> c.T_SRTT_BITS : Int) : Rat) *
        c.tcp_tick_ }

/- Whether to double the factor. -/
def doubles
    (c : RttParams)
    (s : Rtt) : Option (Bool × Rtt) :=
  if s.t_backoff_ < 64 then some (true, s)
  else if c.rfc2988_ then do
    let (timeout, s) ← s.timeout c
    return (decide (timeout < c.maxrto_), s)
  else some (false, s)

/- If backed off far, the estimate is taken as a deviation. -/
def clobber
    (c : RttParams)
    (s : Rtt) : Rtt :=
  if 8 < s.t_backoff_ then
    { s with
      t_rttvar_ :=
        toInt (s.t_rttvar_ + s.t_srtt_ >>> c.T_SRTT_BITS)
      t_srtt_ := 0 }
  else s

def backoff
    (c : RttParams)
    (s : Rtt) : Option Rtt := do
  let (more, s) ← s.doubles c
  let s :=
    if more then { s with t_backoff_ := toInt (s.t_backoff_ * 2) }
    else s
  return s.clobber c

end Rtt

inductive RttCall where
| update (now tao : Rat)
| backoff

def Rtt.act
    (c : RttParams)
    (s : Rtt) : RttCall → Option Rtt
| .update now tao => some (s.update c now tao)
| .backoff => s.backoff c

end Tcp

end Ns2
