import Ns2.Tcp.Acker.Operations

/-
  The selective acknowledgements of a TCP sink.

  The history of blocks is a bounded stack, most recent
  first; popped and unused slots of its array hold -1 and
  are left out of the list.

  Main declarations:
    * `SackStack.push`
    * `Sacker.appendAck`
    * `Sacker.recv`, `Sacker.run`
-/

------------------------------------------------------------
-- Stack of Blocks
------------------------------------------------------------

namespace Ns2

/- A block: the numbers from `left` up to before `right`. -/
structure SackBlock where
  left : Int
  right : Int
deriving DecidableEq, Repr

structure SackStack where
  size : Nat
  entries : List SackBlock
deriving DecidableEq, Repr

namespace SackStack

def reset (sf : SackStack) : SackStack :=
  { sf with entries := [] }

/- Put a block on top; a full stack loses its last one. -/
def push
    (sf : SackStack)
    (b : SackBlock) : SackStack :=
  let kept :=
    if sf.size ≤ sf.entries.length then
      sf.entries.take (sf.size - 1)
    else sf.entries
  { sf with entries := b :: kept }

end SackStack

end Ns2

------------------------------------------------------------
-- Appending Blocks
------------------------------------------------------------

namespace Ns2

structure Sacker where
  acker : Acker
  baseNblocks : Nat
  dsacks : Bool
  sf : SackStack

/-
  The blocks of an acknowledgement in the order of the
  header: at most one block for a duplicate, and then the
  traditional blocks.
-/
structure SackOption where
  dsack : List SackBlock
  blocks : List SackBlock
deriving DecidableEq, Repr

namespace Sacker

/- The first hole from `i` on, at most one past the end. -/
def holeRight
    (a : Acker)
    (i : Nat) : Nat :=
  if a.maxseen < i then a.maxseen + 1
  else if RingBuffer.read a.wndmask a.seen i = 0 then i
  else holeRight a (i + 1)
termination_by a.maxseen + 1 - i

/-
  The left edge of the run that ends before `i`, or -1 when
  the search meets the left edge of the window first.
-/
def holeLeft
    (a : Acker)
    (i : Nat) : Int :=
  match i with
  | 0 => -1
  | i + 1 =>
      if i < a.next then -1
      else if RingBuffer.read a.wndmask a.seen i = 0 then
        i + 1
      else holeLeft a i

/- The newest block covers up an older one. -/
def covers
    (recent b : SackBlock) : Prop :=
  recent.left ≤ b.left ∧ b.right ≤ recent.right

instance (recent b : SackBlock) :
    Decidable (covers recent b) :=
  inferInstanceAs (Decidable (_ ∧ _))

/-
  Walk the history while the option has room: blocks covered
  up by the newest one are popped, and the others reported.
  The result is the blocks reported and the history left.
-/
def walkHistory
    (a : Acker)
    (recent : SackBlock)
    (room : Nat)
    (history : List SackBlock) :
    List SackBlock × List SackBlock :=
  match history with
  | [] => ([], [])
  | b :: rest =>
      if room = 0 then ([], b :: rest)
      else if b.left < 0 ∨ b.right < 0 ∨
          (a.maxseen : Int) + 1 < b.right then
        ([], b :: rest)
      else if covers recent b then
        walkHistory a recent room rest
      else
        let r := walkHistory a recent (room - 1) rest
        (b :: r.1, b :: r.2)

/- The traditional blocks, after `used` blocks of the option. -/
def appendBlocks
    (s : Sacker)
    (oldSeqno used : Nat) : List SackBlock × Sacker :=
  let right := holeRight s.acker oldSeqno
  if oldSeqno < s.acker.next then
    let r := walkHistory s.acker ⟨0, right⟩
      (s.baseNblocks - used) s.sf.entries
    (r.1, { s with sf := { s.sf with entries := r.2 } })
  else
    let recent : SackBlock := ⟨holeLeft s.acker right, right⟩
    let r := walkHistory s.acker recent
      (s.baseNblocks - (used + 1)) s.sf.entries
    let sf := { s.sf with entries := r.2 }
    (recent :: r.1, { s with sf := sf.push recent })

/- The blocks of the acknowledgement of `oldSeqno`. -/
def appendAck
    (s : Sacker)
    (oldSeqno : Nat) : SackOption × Sacker :=
  if s.acker.maxseen < s.acker.next ∧ s.sf.entries ≠ [] then
    (⟨[], []⟩, { s with sf := s.sf.reset })
  else if (s.acker.next ≤ s.acker.maxseen ∨
      s.acker.isDup = true) ∧ 0 < s.baseNblocks then
    let dsack : List SackBlock :=
      if s.dsacks = true ∧ s.acker.isDup = true then
        [⟨oldSeqno, oldSeqno + 1⟩]
      else []
    -- With a single block a duplicate leaves no room.
    if s.baseNblocks ≤ dsack.length then (⟨dsack, []⟩, s)
    else
      let r := s.appendBlocks oldSeqno dsack.length
      (⟨dsack, r.1⟩, r.2)
  else (⟨[], []⟩, s)

/- Receive a packet and build its acknowledgement. -/
def recv
    (s : Sacker)
    (c : Nat × Int) : Option (SackOption × Sacker) :=
  (s.acker.update c.1 c.2).map fun r =>
    { s with acker := r.2 }.appendAck c.1

/- The state after several packets. -/
def run
    (s : Sacker) : List (Nat × Int) → Option Sacker
| [] => some s
| c :: calls => (s.recv c).bind fun r => r.2.run calls

end Sacker

end Ns2
