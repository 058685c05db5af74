import Ns2.Lib.RingBuffer

/-
  The cumulative acknowledgements of a TCP sink.

  `seen` is a ring buffer of byte counts; the entries in the
  window from `next` to `maxseen + 1` are kept, and stale
  entries lie outside it.

  Main declarations:
    * `Acker.resizeBuffers`
    * `Acker.update`, `Acker.run`
-/

------------------------------------------------------------
-- Acker State
------------------------------------------------------------

namespace Ns2

/- The state that `update` reads and writes. -/
structure Acker where
  next : Nat
  maxseen : Nat
  wndmask : Nat
  seen : Nat → Int
  isDup : Bool

namespace Acker

/- The initial size of the buffer. -/
def mws : Nat := 64

def new : Acker where
  next := 0
  maxseen := 0
  wndmask := mws - 1
  seen := fun _ => 0
  isDup := false

/-
  Move the entries of the window to a buffer of `sz` slots,
  which must be a power of two for the mask to work.
-/
def resizeBuffers
    (a : Acker)
    (sz : Nat) : Acker :=
  let newWndmask := sz - 1
  { a with
    seen := RingBuffer.store newWndmask (fun _ => 0)
      (RingBuffer.read a.wndmask a.seen)
      (List.range' a.next (a.maxseen + 2 - a.next))
    wndmask := newWndmask }

/- Double the buffer until `seq + 1` fits. -/
def grow
    (a : Acker)
    (seq : Nat) : Acker :=
  if (a.wndmask : Int) ≤ (seq : Int) + 1 - a.next then
    (a.resizeBuffers ((a.wndmask + 1) * 2)).grow seq
  else a
termination_by seq + 2 - a.wndmask
decreasing_by
  simp only [resizeBuffers]
  omega

/- Record a number above all numbers seen so far. -/
def markHighest
    (a : Acker)
    (seq : Nat)
    (numBytes : Int) : Acker :=
  let seen := RingBuffer.store a.wndmask a.seen (fun _ => 0)
    (List.range' (a.maxseen + 1) (seq - (a.maxseen + 1)))
  let seen := RingBuffer.write a.wndmask seen seq numBytes
  { a with
    maxseen := seq
    seen := RingBuffer.write a.wndmask seen (seq + 1) 0 }

/-
  The delivery loop: the left edge of the window after it and
  the bytes it hands over; `none` when the fuel runs out.
-/
def deliver
    (a : Acker)
    (fuel next : Nat) : Option (Nat × Int) :=
  match fuel with
  | 0 => none
  | fuel + 1 =>
      let bytes := RingBuffer.read a.wndmask a.seen next
      if bytes ≠ 0 then
        (a.deliver fuel (next + 1)).map fun r =>
          (r.1, bytes + r.2)
      else some (next, 0)

/- A number left of the window was received before. -/
def noticeLeft
    (a : Acker)
    (seq : Nat) : Acker :=
  if seq < a.next then { a with isDup := true } else a

/-
  Record a number inside the window and move its left edge;
  a number that is recorded already is a duplicate, unless it
  was just marked as seen.  A round of the delivery loop
  passes one slot, so there is fuel enough.
-/
def fillWindow
    (a : Acker)
    (seq : Nat)
    (numBytes : Int)
    (justMarkedAsSeen : Bool) : Option (Int × Acker) :=
  if a.next ≤ seq ∧ seq ≤ a.maxseen then
    let dup : Bool :=
      decide (RingBuffer.read a.wndmask a.seen seq ≠ 0) &&
        !justMarkedAsSeen
    let a :=
      { a with
        isDup := a.isDup || dup
        seen :=
          RingBuffer.write a.wndmask a.seen seq numBytes }
    (a.deliver (a.wndmask + 2) a.next).map fun r =>
      (r.2, { a with next := r.1 })
  else some (0, a)

/- The bytes packet `seq` lets through and the new state. -/
def update
    (a : Acker)
    (seq : Nat)
    (numBytes : Int) : Option (Int × Acker) :=
  let a := { a with isDup := false }.grow seq
  if a.maxseen < seq then
    ((a.markHighest seq numBytes).noticeLeft seq).fillWindow
      seq numBytes true
  else (a.noticeLeft seq).fillWindow seq numBytes false

/- The returned values and the state after several calls. -/
def run
    (a : Acker) :
    List (Nat × Int) → Option (List Int × Acker)
| [] => some ([], a)
| c :: calls =>
    (a.update c.1 c.2).bind fun r =>
      (r.2.run calls).map fun rs => (r.1 :: rs.1, rs.2)

end Acker

end Ns2
