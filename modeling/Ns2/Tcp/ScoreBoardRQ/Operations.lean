import Ns2.Lib.PartialRun
import Ns2.Tcp.ReassemblyQueue.Holes

/-
  The scoreboard of a SACK sender over a reassembly queue.

  The queue holds the blocks reported, and its in-sequence
  point is the scoreboard's own `sack_min`: adding a block can
  move it.

  Main declarations:
    * `ScoreBoardRQ.getNextRetran`
    * `ScoreBoardRQ.updateScoreBoard`
    * `ScoreBoardRQ.markRetran`
    * `ScoreBoardRQ.call`
-/

------------------------------------------------------------
-- Scoreboards
------------------------------------------------------------

namespace Ns2

structure ScoreBoardRQ where
  h_seqno : Int
  rq : ReassemblyQueue
  changed : Bool

namespace ScoreBoardRQ

def new : ScoreBoardRQ where
  h_seqno := -1
  rq := ReassemblyQueue.new (-1)
  changed := false

variable (sb : ScoreBoardRQ)

/- The highest cumulative ACK seen, plus one. -/
def sack_min : Int :=
  sb.rq.rcvNxt

/- The number to send again, or -1. -/
def getNextRetran : Option (Int × ScoreBoardRQ) :=
  let sb :=
    if sb.h_seqno < sb.sack_min then
      { sb with h_seqno := sb.sack_min }
    else sb
  (sb.rq.nexthole sb.h_seqno).map fun r =>
    let sb := { sb with rq := r.2 }
    let seq := r.1.seq
    if 0 < seq then
      if r.1.nxtcnt ≤ 0 then (-1, sb)
      else if sb.h_seqno < seq then
        (seq, { sb with h_seqno := seq })
      else (seq, sb)
    else (-1, sb)

/- A cumulative ACK moves the queue on, and clears it. -/
def acknowledge
    (last_ack : Int) : Option ScoreBoardRQ :=
  if sb.sack_min ≤ last_ack then
    let rq := { sb.rq with rcvNxt := last_ack + 1 }
    if rq.empty then some { sb with rq := rq }
    else
      rq.cleartonxt.map fun r =>
        { sb with rq := r.2, changed := true }
  else some sb

/- Add the blocks of an ACK, from first to last. -/
def addBlocks
    (rq : ReassemblyQueue) :
    List (Int × Int) → Option ReassemblyQueue
| [] => some rq
| b :: blocks =>
    (rq.add b.1 b.2 0 0).bind fun r => addBlocks r.2 blocks

def updateScoreBoard
    (last_ack : Int)
    (blocks : List (Int × Int)) : Option ScoreBoardRQ :=
  let old_total := sb.rq.total
  (acknowledge { sb with changed := false } last_ack).bind
    fun sb => (addBlocks sb.rq blocks).map fun rq =>
      { sb with
        rq := rq
        changed := sb.changed || decide (old_total ≠ rq.total) }

def markRetran
    (retran_seqno : Int) : ScoreBoardRQ :=
  if sb.h_seqno ≤ retran_seqno then
    { sb with h_seqno := retran_seqno + 1 }
  else sb

end ScoreBoardRQ

end Ns2

------------------------------------------------------------
-- Runs
------------------------------------------------------------

namespace Ns2

namespace ScoreBoardRQ

inductive Call where
  | updateScoreBoard (last_ack : Int)
      (blocks : List (Int × Int))
  | markRetran (retran_seqno : Int)
  | getNextRetran
deriving DecidableEq, Repr

/- The scoreboard after a call, whatever the call returns. -/
def call
    (sb : ScoreBoardRQ) : Call → Option ScoreBoardRQ
| .updateScoreBoard last_ack blocks =>
    sb.updateScoreBoard last_ack blocks
| .markRetran retran_seqno => some (sb.markRetran retran_seqno)
| .getNextRetran => sb.getNextRetran.map Prod.snd

end ScoreBoardRQ

end Ns2
