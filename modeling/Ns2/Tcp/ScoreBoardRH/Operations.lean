import Ns2.Lib.CircularArray
import Ns2.Lib.PartialRun

/-
  The scoreboard of a rate-halving TCP sender.

  The array has a fixed size, an entry counts the reports of
  its hole, and a hole is sent again after enough of them.

  Main declarations:
    * `ScoreBoardRH.updateScoreBoard`
    * `ScoreBoardRH.getNextRetran`, `ScoreBoardRH.markRetran`
    * `ScoreBoardRH.call`
-/

------------------------------------------------------------
-- Scoreboards
------------------------------------------------------------

namespace Ns2

structure ScoreBoardRHNode where
  seq_no : Int
  ack_flag : Bool
  sack_flag : Bool
  retran : Bool
  snd_nxt : Int
  sack_cnt : Int
  rh_id : Int
deriving Repr

structure ScoreBoardRH where
  first : Int
  length : Int
  retran_occured : Int
  retran_sacked : Int
  SBN : Int → ScoreBoardRHNode

namespace ScoreBoardRH

def SBSIZE : Int := 1024

/- What is not set here is not known. -/
def new
    (retran_sacked : Int)
    (sbn : Int → ScoreBoardRHNode) : ScoreBoardRH where
  first := 0
  length := 0
  retran_occured := 0
  retran_sacked := retran_sacked
  SBN := sbn

variable (sb : ScoreBoardRH)

/- The entry `SBNI`.  No index is negative. -/
def get (i : Int) : ScoreBoardRHNode :=
  CircularArray.read SBSIZE sb.SBN i

def set
    (i : Int)
    (node : ScoreBoardRHNode) : ScoreBoardRH :=
  { sb with SBN := CircularArray.write SBSIZE sb.SBN i node }

/- The number in the first entry. -/
def firstSeq : Int :=
  (sb.get sb.first).seq_no

/- The number in the last entry. -/
def lastSeq : Int :=
  (sb.get (sb.first + sb.length + SBSIZE - 1)).seq_no

/- The entries that are in use. -/
def live : List ScoreBoardRHNode :=
  (Int.range sb.first (sb.first + sb.length)).map sb.get

end ScoreBoardRH

end Ns2

------------------------------------------------------------
-- Updates
------------------------------------------------------------

namespace Ns2

namespace ScoreBoardRH

/- A scoreboard at work, and what it has counted so far. -/
structure Progress where
  sb : ScoreBoardRH
  retran_decr : Int
  sack_max : Int

def freshNode (i : Int) : ScoreBoardRHNode where
  seq_no := i
  ack_flag := false
  sack_flag := false
  retran := false
  snd_nxt := 0
  sack_cnt := 0
  rh_id := 0

/- Nothing where the scoreboard gets too large. -/
def createEntry
    (sb : ScoreBoardRH)
    (i : Int) : Option ScoreBoardRH :=
  let sb := sb.set i (freshNode i)
  let sb := { sb with length := sb.length + 1 }
  if SBSIZE ≤ sb.length then none else some sb

/- A scoreboard is created if there is none. -/
def create
    (sb : ScoreBoardRH)
    (last_ack : Int) : Option ScoreBoardRH :=
  if sb.length = 0 then
    (createEntry sb (last_ack + 1)).map fun sb =>
      { sb with first := (last_ack + 1) % SBSIZE }
  else some sb

/- A retransmission of this entry is done with. -/
def settle
    (rh_id : Int)
    (p : Progress)
    (i : Int)
    (node : ScoreBoardRHNode) : Progress :=
  if node.retran then
    { p with
      sb :=
        { p.sb.set i { node with retran := false, snd_nxt := 0 }
          with retran_sacked := rh_id }
      retran_decr := p.retran_decr + 1 }
  else { p with sb := p.sb.set i node }

/- The first entry is acknowledged. -/
def ackEntry
    (rh_id : Int)
    (p : Progress)
    (i : Int) : Progress :=
  let p := settle rh_id p i
    { p.sb.get i with ack_flag := true, sack_flag := true }
  { p with
    sb := { p.sb with
      first := (p.sb.first + 1) % SBSIZE
      length := p.sb.length - 1 } }

/- Nothing where an assertion fails. -/
def advance
    (rh_id last_ack : Int) :
    List Int → Progress → Option Progress
| [], p => some p
| i :: is, p =>
    if (p.sb.get i).seq_no ≤ last_ack then
      if p.sb.first ≠ i % SBSIZE then none
      else if p.sb.length - 1 < 0 then none
      else
        let p := ackEntry rh_id p i
        if p.sb.length = 0 then some p
        else advance rh_id last_ack is p
    else advance rh_id last_ack is p

def advanceEdge
    (rh_id last_ack : Int)
    (sb : ScoreBoardRH) : Option Progress :=
  if sb.firstSeq ≤ last_ack then
    advance rh_id last_ack
      (Int.range sb.firstSeq (last_ack + 1)) ⟨sb, 0, 0⟩
  else some ⟨sb, 0, 0⟩

def extend
    (sack_right : Int)
    (sb : ScoreBoardRH) : Option ScoreBoardRH :=
  if sb.lastSeq < sack_right then
    PartialRun.run createEntry sb
      (Int.range (sb.lastSeq + 1) sack_right)
  else some sb

/- One entry of the loop over the entries below a block's end. -/
def sackEntry
    (rh_id sack_left sack_right : Int)
    (p : Progress)
    (i : Int) : Progress :=
  let node := p.sb.get i
  if sack_left ≤ node.seq_no ∧ node.seq_no < sack_right then
    settle rh_id p i { node with sack_flag := true }
  else p

def sackBlock
    (rh_id : Int)
    (p : Progress)
    (block : Int × Int) : Option Progress :=
  (extend block.2 p.sb).map fun sb =>
    (Int.range sb.firstSeq block.2).foldl
      (sackEntry rh_id block.1 block.2)
      { p with
        sb := sb
        sack_max :=
          if p.sack_max < block.2 then block.2
          else p.sack_max }

/- One more report of a hole. -/
def countHole
    (sb : ScoreBoardRH)
    (i : Int) : ScoreBoardRH :=
  let node := sb.get i
  if node.ack_flag = false ∧ node.sack_flag = false then
    sb.set i { node with sack_cnt := node.sack_cnt + 1 }
  else sb

def countHoles
    (sb : ScoreBoardRH)
    (sack_max : Int) : ScoreBoardRH :=
  if sb.length ≠ 0 then
    (Int.range sb.firstSeq sack_max).foldl countHole sb
  else sb

/- A packet that was sent again is lost again. -/
def checkEntry
    (sack_max : Int)
    (r : ScoreBoardRH × Int)
    (i : Int) : ScoreBoardRH × Int :=
  let node := r.1.get i
  if node.retran = true ∧ node.snd_nxt < sack_max then
    (r.1.set i
      { node with retran := false, snd_nxt := 0, sack_cnt := 1 },
      r.2 + 1)
  else r

def checkSndNxt
    (sb : ScoreBoardRH)
    (sack_max : Int) : ScoreBoardRH × Int :=
  if sb.length ≠ 0 then
    (Int.range sb.firstSeq sack_max).foldl
      (checkEntry sack_max) (sb, 0)
  else (sb, 0)

/- All holes are reported once more when the blocks are done. -/
def report (p : Progress) : ScoreBoardRH × Int :=
  let r := (countHoles p.sb p.sack_max).checkSndNxt p.sack_max
  (r.1, p.retran_decr + r.2)

/- Also counts the retransmissions that are done with. -/
def updateScoreBoard
    (sb : ScoreBoardRH)
    (last_ack : Int)
    (blocks : List (Int × Int))
    (rh_id : Int) : Option (ScoreBoardRH × Int) :=
  if blocks = [] ∧ sb.length = 0 then some (sb, 0)
  else do
    let sb ← sb.create last_ack
    let p ← advanceEdge rh_id last_ack sb
    let p ← PartialRun.run (sackBlock rh_id) p blocks
    return report p

end ScoreBoardRH

end Ns2

------------------------------------------------------------
-- Other calls
------------------------------------------------------------

namespace Ns2

namespace ScoreBoardRH

variable (sb : ScoreBoardRH)

/- How many reports are enough is up to the sender. -/
def getNextRetran (numdupacks : Int) : Int :=
  if sb.length ≠ 0 then
    ((Int.range sb.firstSeq (sb.firstSeq + sb.length)).find?
      fun i =>
        !(sb.get i).ack_flag && !(sb.get i).sack_flag &&
          !(sb.get i).retran &&
          decide (numdupacks ≤ (sb.get i).sack_cnt)).getD (-1)
  else -1

def markRetran
    (retran_seqno snd_nxt rh_id : Int) : ScoreBoardRH :=
  { sb.set retran_seqno
      { sb.get retran_seqno with
        retran := true
        snd_nxt := snd_nxt
        rh_id := rh_id }
    with retran_occured := rh_id }

def getFack (last_ack : Int) : Int :=
  if sb.length ≠ 0 then sb.firstSeq + sb.length - 1
  else last_ack

inductive Call where
| updateScoreBoard
    (last_ack : Int)
    (blocks : List (Int × Int))
    (rh_id : Int)
| markRetran
    (retran_seqno snd_nxt rh_id : Int)

def call (sb : ScoreBoardRH) : Call → Option ScoreBoardRH
| .updateScoreBoard last_ack blocks rh_id =>
    (sb.updateScoreBoard last_ack blocks rh_id).map Prod.fst
| .markRetran retran_seqno snd_nxt rh_id =>
    some (sb.markRetran retran_seqno snd_nxt rh_id)

end ScoreBoardRH

end Ns2
