import Mathlib.Algebra.Order.Ring.Rat
import Ns2.Lib.CheckedArray
import Ns2.Lib.PartialRun

/-
  The table of send times.

  The time of a transmission is stored under its sequence
  number modulo the size of the table.  When the window gets
  close to the size the table is copied into one twice as
  large.  `none` stands for an access outside of an array.

  Main declarations:
    * `SendTimes.grow`, `SendTimes.output`
    * `SendTimes.act`, `SendTimes.sends`
    * `SendTimes.time`
-/

------------------------------------------------------------
-- The Table
------------------------------------------------------------

namespace Ns2

namespace Tcp

open CheckedArray

structure SendParams where
  bugfix_ts_ : Bool
  syn_ : Bool
  delay_growth_ : Bool
  max_connects_ : Int

structure SendTimes where
  tss : Option (List Rat)
  tss_size_ : Int
  maxseq_ : Int
  highest_ack_ : Int
  syn_connects_ : Int

namespace SendTimes

/- A new agent; the counter of the SYN packets is not set. -/
def new (syn_connects : Int) : SendTimes :=
  ⟨none, 100, 0, 0, syn_connects⟩

def reset
    (c : SendParams)
    (s : SendTimes) : SendTimes :=
  { s with
    maxseq_ := -1
    highest_ack_ := -1
    syn_connects_ :=
      if c.syn_ ∧ c.delay_growth_ then 0 else s.syn_connects_ }

/- The entry of a sequence number. -/
def time
    (s : SendTimes)
    (seqno : Int) : Option Rat := do
  let tss ← s.tss
  load tss (seqno.tmod s.tss_size_)

/- `tss_size_` entries, from that of `highest_ack_` on. -/
def copyEntry
    (highest_ack size : Int)
    (tss ntss : List Rat)
    (i : Nat) : Option (List Rat) := do
  let time ← load tss ((highest_ack + i).tmod size)
  store ntss ((highest_ack + i).tmod (size * 2)) time

def grow
    (s : SendTimes)
    (tss : List Rat) : Option SendTimes := do
  let ntss ← (List.range s.tss_size_.toNat).foldlM
    (copyEntry s.highest_ack_ s.tss_size_ tss)
    (List.replicate (s.tss_size_ * 2).toNat 0)
  return { s with tss := some ntss, tss_size_ := s.tss_size_ * 2 }

/- More than nine tenths of the table are outstanding. -/
def Full
    (s : SendTimes)
    (seqno : Int) : Prop :=
  s.tss_size_ * 9 < (seqno - s.highest_ack_) * 10

instance
    (s : SendTimes)
    (seqno : Int) :
    Decidable (s.Full seqno) :=
  Int.decLt _ _

/- The table that the time goes into, if there is one. -/
def prepare
    (c : SendParams)
    (s : SendTimes)
    (seqno : Int) : Option SendTimes :=
  if c.bugfix_ts_ then
    let tss := s.tss.getD (List.replicate s.tss_size_.toNat 0)
    if s.Full seqno then s.grow tss
    else some { s with tss := some tss }
  else some s

def stamp
    (s : SendTimes)
    (seqno : Int)
    (now : Rat) : Option SendTimes :=
  match s.tss with
  | none => some s
  | some tss => do
      let tss ← store tss (seqno.tmod s.tss_size_) now
      return { s with tss := some tss }

/- The SYN packets, the one of this call included. -/
def connects
    (c : SendParams)
    (s : SendTimes)
    (seqno : Int) : Int :=
  if seqno = 0 ∧ c.syn_ then s.syn_connects_ + 1
  else s.syn_connects_

/- Too many SYN packets: the call returns without sending. -/
def Aborts
    (c : SendParams)
    (s : SendTimes)
    (seqno : Int) : Prop :=
  seqno = 0 ∧ c.syn_ ∧ 0 < c.max_connects_ ∧
    c.max_connects_ < s.connects c seqno

instance
    (c : SendParams)
    (s : SendTimes)
    (seqno : Int) :
    Decidable (s.Aborts c seqno) :=
  inferInstanceAs (Decidable (_ ∧ _ ∧ _ ∧ _))

def output
    (c : SendParams)
    (s : SendTimes)
    (seqno : Int)
    (now : Rat) : Option SendTimes := do
  let s ← s.prepare c seqno
  let s ← s.stamp seqno now
  let aborts := decide (s.Aborts c seqno)
  let s := { s with syn_connects_ := s.connects c seqno }
  return if aborts then s
    else if s.maxseq_ < seqno then { s with maxseq_ := seqno }
    else s

end SendTimes

------------------------------------------------------------
-- Runs
------------------------------------------------------------

inductive SendAction where
| output (seqno : Int) (now : Rat)
| ack (seqno : Int)
| reset

namespace SendTimes

def act
    (c : SendParams)
    (s : SendTimes) : SendAction → Option SendTimes
| .output seqno now => s.output c seqno now
| .ack seqno => some { s with highest_ack_ := seqno }
| .reset => some (s.reset c)

/- The transmission of a step, with its time. -/
def sends
    (c : SendParams)
    (s : SendTimes) : SendAction → List (Int × Rat)
| .output seqno now =>
    if s.Aborts c seqno then [] else [(seqno, now)]
| .ack _ => []
| .reset => []

end SendTimes

end Tcp

end Ns2
