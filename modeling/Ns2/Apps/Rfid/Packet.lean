import Mathlib.Algebra.Order.Ring.Rat
import Mathlib.Tactic.Linarith
import Mathlib.Tactic.Ring

/-
  The packets of the RFID agents, and the arithmetic that
  computes their numbers.

  Floating-point numbers are rationals: `ctrunc` is the
  conversion to `int`, `cround` is `round`, which moves a
  half away from zero, and `pow2` is `pow(2, n)`.

  Main declarations:
    * `Packet`, `Packet.isQueryReply`
    * `ctrunc`, `cround`, `pow2`, `uniform`
    * `ctrunc_uniform_neg_one`, `cround_uniform_bounds`
-/

------------------------------------------------------------
-- Header Fields
------------------------------------------------------------

namespace Ns2

namespace Rfid

/- The direction of a packet. -/
inductive Flow where
| rt
| tr
| rtAck
deriving DecidableEq, Repr

inductive Service where
| noservice
| tracking
| standard
| ebtsa
| edfsa
deriving DecidableEq, Repr

inductive Command where
| RC_QUERY
| RC_QUERYADJUST
| RC_QUERYREPLY
| RC_ACK
| RC_NAK
| TC_REPLY
| RC_EST
| TR_EST_REPLY
| RC_EST_FINISH
| RC_SING
deriving DecidableEq, Repr

/- The broadcast address, read as a signed integer. -/
def IP_BROADCAST : Int := -1

def SING_NOSINGULARIZATION : Int := 0

/-
  The RFID header and the addresses of the IP header.  The
  slot and session counters of the header are not kept: an
  agent writes them and none reads them.
-/
structure Packet where
  id : Int
  tagEPC : Int
  tipo : Flow
  singularization : Int
  service : Service
  ack : Int
  rng16 : Rat
  qValue : Int
  command : Command
  slotNumber : Int
  reply : Int
  mechanism : Int
  saddr : Int
  daddr : Int
deriving DecidableEq, Repr

namespace Packet

/- A packet as `allocpkt` returns it: its header is zero. -/
def alloc (saddr : Int) : Packet where
  id := 0
  tagEPC := 0
  tipo := .rt
  singularization := 0
  service := .noservice
  ack := 0
  rng16 := 0
  qValue := 0
  command := .RC_QUERY
  slotNumber := 0
  reply := 0
  mechanism := 0
  saddr := saddr
  daddr := 0

/- A query reply that is addressed to one tag. -/
def isQueryReply (p : Packet) : Bool :=
  decide (p.command = .RC_QUERYREPLY) &&
    decide (p.daddr ≠ IP_BROADCAST)

end Packet

end Rfid

end Ns2

------------------------------------------------------------
-- Arithmetic
------------------------------------------------------------

namespace Ns2

namespace Rfid

/- The conversion of a floating-point number to an `int`. -/
def ctrunc (x : Rat) : Int :=
  if 0 ≤ x then x.floor else -(-x).floor

/- `round` of the C library. -/
def cround (x : Rat) : Int :=
  if 0 ≤ x then (x + 1 / 2).floor
  else -(-x + 1 / 2).floor

/- `pow(2, n)`. -/
def pow2 (n : Int) : Rat :=
  if 0 ≤ n then mkRat (2 ^ n.toNat) 1
  else mkRat 1 (2 ^ (-n).toNat)

/- `Random::uniform(a, b)` when the generator returns `u`. -/
def uniform (u a b : Rat) : Rat :=
  a + u * (b - a)

/- A draw lies between the two ends of its range. -/
theorem le_uniform
    {u a b : Rat}
    (hu : 0 ≤ u)
    (hab : a ≤ b) :
    a ≤ uniform u a b := by
  have := mul_nonneg hu (sub_nonneg.mpr hab)
  unfold uniform
  linarith

theorem uniform_le
    {u a b : Rat}
    (hu : u ≤ 1)
    (hab : a ≤ b) :
    uniform u a b ≤ b := by
  have := mul_nonneg (sub_nonneg.mpr hu) (sub_nonneg.mpr hab)
  unfold uniform
  linarith

theorem le_ctrunc
    {x : Rat}
    {z : Int}
    (hz : 0 ≤ z)
    (hx : (z : Rat) ≤ x) :
    z ≤ ctrunc x := by
  have hz' : (0 : Rat) ≤ z := by exact_mod_cast hz
  unfold ctrunc
  rw [if_pos (hz'.trans hx), Rat.le_floor_iff]
  exact hx

theorem le_cround
    {x : Rat}
    {z : Int}
    (hz : 0 ≤ z)
    (hx : (z : Rat) ≤ x) :
    z ≤ cround x := by
  have hz' : (0 : Rat) ≤ z := by exact_mod_cast hz
  unfold cround
  rw [if_pos (hz'.trans hx), Rat.le_floor_iff]
  linarith

theorem cround_le
    {x : Rat}
    {z : Int}
    (hNonneg : 0 ≤ x)
    (hx : x ≤ z) :
    cround x ≤ z := by
  unfold cround
  rw [if_pos hNonneg]
  apply Int.lt_add_one_iff.mp
  rw [Rat.floor_lt_iff]
  push_cast
  linarith

/- With `Q` at -1 every draw of a slot is 0. -/
theorem ctrunc_uniform_neg_one
    {u : Rat}
    (hu : 0 ≤ u)
    (hu' : u ≤ 1) :
    ctrunc (uniform u 0 (pow2 (-1) - 1)) = 0 := by
  have hPow : pow2 (-1) - 1 = -(1 / 2) := by decide +kernel
  have hValue : uniform u 0 (pow2 (-1) - 1) = -(u / 2) := by
    rw [hPow, uniform]
    ring
  rw [hValue]
  unfold ctrunc
  by_cases hZero : 0 ≤ -(u / 2)
  · have hu0 : u = 0 := by linarith
    rw [if_pos hZero, hu0]
    decide +kernel
  · rw [if_neg hZero, neg_neg]
    have hLow : 0 ≤ (u / 2).floor := by
      rw [Rat.le_floor_iff]
      push_cast
      linarith
    have hHigh : (u / 2).floor < 1 := by
      rw [Rat.floor_lt_iff]
      push_cast
      linarith
    omega

/- A draw from a frame of `n` slots is one of its slots. -/
theorem cround_uniform_bounds
    {u : Rat}
    {n : Int}
    (hu : 0 ≤ u)
    (hu' : u ≤ 1)
    (hn : 1 ≤ n) :
    1 ≤ cround (uniform u 1 n) ∧
      cround (uniform u 1 n) ≤ n := by
  have hn' : (1 : Rat) ≤ n := by exact_mod_cast hn
  have hLow := le_uniform hu hn'
  constructor
  · apply le_cround (by omega)
    exact_mod_cast hLow
  · apply cround_le
    · linarith
    · exact uniform_le hu' hn'

end Rfid

end Ns2
