import Mathlib.Algebra.Order.Ring.Rat
import Mathlib.Logic.Function.Basic

/-
  The pool of packets.

  A packet counts its holders but the first one, and packets
  without holders are linked by the pointer that also queues
  use. A failed assertion has no result.

  Main declarations:
    * `PooledPacket`, `PacketPool`
    * `PacketPool.alloc`, `PacketPool.copy`
    * `PacketPool.refcopy`, `PacketPool.free`
-/

------------------------------------------------------------
-- Packets
------------------------------------------------------------

namespace Ns2

/- The header fields that a new packet is given; the rest. -/
structure Header (ω : Type) where
  next_hop_ : Int
  last_hop_ : Int
  direction_ : Int
  others : ω

def DOWN : Int := -1

/- The options of a header belong to it and are copied. -/
structure PooledPacket (ω δ ρ : Type) where
  bits_ : Header ω
  data_ : Option δ
  fflag_ : Bool
  ref_count_ : Int
  next_ : Option Nat
  uid_ : Int
  time_ : Rat
  txinfo_ : ρ

namespace PooledPacket

variable {ω δ ρ : Type}
variable (zeros : ω)

/- A new packet; the other fields hold what was there. -/
def new (p : PooledPacket ω δ ρ) : PooledPacket ω δ ρ :=
  { p with
    data_ := none
    ref_count_ := 0
    next_ := none
    uid_ := 0
    time_ := 0 }

def init (p : PooledPacket ω δ ρ) : PooledPacket ω δ ρ :=
  { p with bits_ := ⟨0, 0, 0, zeros⟩ }

/- A packet as it is handed out. -/
def prepare (p : PooledPacket ω δ ρ) : PooledPacket ω δ ρ :=
  let p := p.init zeros
  { p with
    bits_ :=
      { p.bits_ with
        next_hop_ := -2
        last_hop_ := -2
        direction_ := DOWN }
    fflag_ := true
    next_ := none }

/- A packet as it is put before the free ones. -/
def freed
    (free_ : Option Nat)
    (p : PooledPacket ω δ ρ) : PooledPacket ω δ ρ :=
  let p := { p with data_ := none }.init zeros
  { p with next_ := free_, fflag_ := false }

/- What a copy takes over from another packet. -/
def copied
    (copyData : δ → δ)
    (self p : PooledPacket ω δ ρ) : PooledPacket ω δ ρ :=
  { p with
    bits_ := self.bits_
    data_ :=
      if self.data_.isSome then self.data_.map copyData
      else p.data_
    txinfo_ := self.txinfo_ }

end PooledPacket

end Ns2

------------------------------------------------------------
-- The Pool
------------------------------------------------------------

namespace Ns2

/- The packets that were ever made, by their addresses. -/
structure PacketPool (ω δ ρ : Type) where
  packet : Nat → PooledPacket ω δ ρ
  made : Nat
  free_ : Option Nat

namespace PacketPool

variable {ω δ ρ : Type}

def next (pool : PacketPool ω δ ρ) (p : Nat) : Option Nat :=
  (pool.packet p).next_

def write
    (pool : PacketPool ω δ ρ)
    (p : Nat)
    (pkt : PooledPacket ω δ ρ) : PacketPool ω δ ρ :=
  { pool with packet := Function.update pool.packet p pkt }

/- Take a packet from the free list. -/
def reuse
    (zeros : ω)
    (pool : PacketPool ω δ ρ)
    (p : Nat) : Option (PacketPool ω δ ρ × Nat) :=
  let pkt := pool.packet p
  if pkt.fflag_ = false ∧ pkt.data_ = none then
    let pkt := { pkt with uid_ := 0, time_ := 0 }
    some
      ({ pool.write p (pkt.prepare zeros) with
        free_ := pool.next p }, p)
  else none

def make
    (zeros : ω)
    (pool : PacketPool ω δ ρ) : PacketPool ω δ ρ × Nat :=
  let p := pool.made
  let pkt := (pool.packet p).new
  ({ pool.write p (pkt.prepare zeros) with made := p + 1 }, p)

def alloc
    (zeros : ω)
    (pool : PacketPool ω δ ρ) : Option (PacketPool ω δ ρ × Nat) :=
  match pool.free_ with
  | some p => pool.reuse zeros p
  | none => some (pool.make zeros)

def allocdata
    (packetData : Int → δ)
    (pool : PacketPool ω δ ρ)
    (p : Nat)
    (n : Int) : Option (PacketPool ω δ ρ) :=
  let pkt := pool.packet p
  if pkt.data_ = none then
    some (pool.write p { pkt with data_ := packetData n })
  else none

/- Allocate a packet with a data buffer. -/
def allocN
    (zeros : ω)
    (packetData : Int → δ)
    (pool : PacketPool ω δ ρ)
    (n : Int) : Option (PacketPool ω δ ρ × Nat) :=
  (pool.alloc zeros).bind fun result =>
    if n > 0 then
      (allocdata packetData result.1 result.2 n).map
        (·, result.2)
    else some result

def copy
    (zeros : ω)
    (copyData : δ → δ)
    (pool : PacketPool ω δ ρ)
    (src : Nat) : Option (PacketPool ω δ ρ × Nat) :=
  (pool.alloc zeros).map fun result =>
    (result.1.write result.2
      (PooledPacket.copied copyData (result.1.packet src)
        (result.1.packet result.2)), result.2)

def refcopy
    (pool : PacketPool ω δ ρ)
    (p : Nat) : PacketPool ω δ ρ :=
  let pkt := pool.packet p
  pool.write p { pkt with ref_count_ := pkt.ref_count_ + 1 }

/- Only the last holder's call frees the packet. -/
def free
    (zeros : ω)
    (pool : PacketPool ω δ ρ)
    (p : Nat) : Option (PacketPool ω δ ρ) :=
  let pkt := pool.packet p
  if pkt.fflag_ = true then
    if pkt.ref_count_ = 0 then
      if pkt.uid_ ≤ 0 then
        some
          { pool.write p (pkt.freed zeros pool.free_) with
            free_ := some p }
      else none
    else
      some (pool.write p
        { pkt with ref_count_ := pkt.ref_count_ - 1 })
  else some pool

end PacketPool

end Ns2

------------------------------------------------------------
-- Holders
------------------------------------------------------------

namespace Ns2

/- The pool, and how many holders each packet has. -/
structure Holding (ω δ ρ : Type) where
  pool : PacketPool ω δ ρ
  holders : Nat → Nat

/- Between the calls, holders change their packets. -/
inductive PacketCall (ω δ ρ : Type) where
| alloc
| allocN (n : Int)
| copy (src : Nat)
| refcopy (p : Nat)
| free (p : Nat)
| use
    (p : Nat)
    (bits_ : Header ω)
    (data_ : Option δ)
    (next_ : Option Nat)
    (uid_ : Int)
    (txinfo_ : ρ)

namespace Holding

variable {ω δ ρ : Type}

/- One more holder of a packet that is handed out. -/
def hold
    (h : Holding ω δ ρ)
    (result : PacketPool ω δ ρ × Nat) : Holding ω δ ρ :=
  ⟨result.1,
    Function.update h.holders result.2
      (h.holders result.2 + 1)⟩

variable (zeros : ω)
variable (copyData : δ → δ)
variable (packetData : Int → δ)

def call
    (h : Holding ω δ ρ) :
    PacketCall ω δ ρ → Option (Holding ω δ ρ)
| .alloc => (h.pool.alloc zeros).map h.hold
| .allocN n => (h.pool.allocN zeros packetData n).map h.hold
| .copy src => (h.pool.copy zeros copyData src).map h.hold
| .refcopy p => some (h.hold (h.pool.refcopy p, p))
| .free p =>
    (h.pool.free zeros p).map fun pool =>
      ⟨pool,
        Function.update h.holders p (h.holders p - 1)⟩
| .use p bits_ data_ next_ uid_ txinfo_ =>
    some
      { h with
        pool :=
          h.pool.write p
            { h.pool.packet p with
              bits_, data_, next_, uid_, txinfo_ } }

/- Only holders use, copy and free a packet. -/
def Allowed
    (h : Holding ω δ ρ) :
    PacketCall ω δ ρ → Prop
| .alloc => True
| .allocN _ => True
| .copy src => 0 < h.holders src
| .refcopy p => 0 < h.holders p
| .free p => 0 < h.holders p
| .use p _ _ _ uid_ _ => 0 < h.holders p ∧ uid_ ≤ 0

/- No packet has been made, and memory holds anything. -/
def start (packet : Nat → PooledPacket ω δ ρ) : Holding ω δ ρ :=
  ⟨⟨packet, 0, none⟩, fun _ => 0⟩

end Holding

end Ns2
