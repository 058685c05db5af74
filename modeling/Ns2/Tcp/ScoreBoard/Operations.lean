import Ns2.Lib.CircularArray
import Ns2.Lib.PartialRun

/-
  The scoreboard of a TCP sender with SACK.

  The entries of the numbers that are neither acknowledged nor
  above all blocks are in a circular array, which grows when
  it has to.

  Main declarations:
    * `ScoreBoard.updateScoreBoard`
    * `ScoreBoard.getNextRetran`, `ScoreBoard.markRetran`
    * `ScoreBoard.getNextUnacked`
    * `ScoreBoard.call`
-/

------------------------------------------------------------
-- Scoreboards
------------------------------------------------------------

namespace Ns2

structure ScoreBoardNode where
  seq_no : Int
  ack_flag : Bool
  sack_flag : Bool
  retran : Bool
  snd_nxt : Int
deriving Repr

structure ScoreBoard where
  first : Int
  length : Int
  sbsize : Int
  changed : Int
  SBN : Int → ScoreBoardNode

namespace ScoreBoard

def new
    (sbn : Int → ScoreBoardNode)
    (sz : Int) : ScoreBoard where
  first := 0
  length := 0
  sbsize := sz
  changed := 0
  SBN := sbn

variable (sb : ScoreBoard)

/- The entry `SBNI`.  No index is negative. -/
def get (i : Int) : ScoreBoardNode :=
  CircularArray.read sb.sbsize sb.SBN i

def set
    (i : Int)
    (node : ScoreBoardNode) : ScoreBoard :=
  { sb with
    SBN := CircularArray.write sb.sbsize sb.SBN i node }

/- The number in the first entry. -/
def firstSeq : Int :=
  (sb.get sb.first).seq_no

/- The number in the last entry. -/
def lastSeq : Int :=
  (sb.get (sb.first + sb.length + sb.sbsize - 1)).seq_no

end ScoreBoard

end Ns2

------------------------------------------------------------
-- Updates
------------------------------------------------------------

namespace Ns2

namespace ScoreBoard

/- The first entry is acknowledged. -/
def ackEntry
    (sb : ScoreBoard)
    (i : Int) : ScoreBoard :=
  let node := sb.get i
  let sb := sb.set i
    { node with
      ack_flag := true
      sack_flag := true
      retran := false
      snd_nxt := if node.retran then 0 else node.snd_nxt }
  { sb with
    first := sb.first + 1
    length := sb.length - 1
    changed := sb.changed + 1 }

/- Nothing where an assertion fails or the program exits. -/
def advance
    (last_ack : Int) :
    List Int → ScoreBoard × Int → Option (ScoreBoard × Int)
| [], r => some r
| i :: is, (sb, retran_decr) =>
    if (sb.get i).seq_no ≤ last_ack then
      if sb.first ≠ i then none
      else if sb.length - 1 < 0 then none
      else
        let retran_decr :=
          if (sb.get i).retran then retran_decr + 1
          else retran_decr
        let sb := sb.ackEntry i
        if sb.length = 0 then some (sb, retran_decr)
        else advance last_ack is (sb, retran_decr)
    else advance last_ack is (sb, retran_decr)

def freshNode (i : Int) : ScoreBoardNode where
  seq_no := i
  ack_flag := false
  sack_flag := false
  retran := false
  snd_nxt := 0

/- Nothing where the scoreboard gets too large. -/
def createEntry
    (sb : ScoreBoard)
    (i : Int) : Option ScoreBoard :=
  let sb := sb.set i (freshNode i)
  let sb := { sb with length := sb.length + 1 }
  if sb.sbsize ≤ sb.length then none
  else some { sb with changed := sb.changed + 1 }

/-
  The entries, and one more, go to a new array.  What is in
  the rest of a new array of each size is not known.
-/
def resizeSB
    (uninit : Int → Int → ScoreBoardNode)
    (sb : ScoreBoard)
    (sz : Int) : ScoreBoard :=
  { sb with
    SBN :=
      CircularArray.modifyAll sz (fun i _ => sb.get i)
        (Int.range sb.firstSeq (sb.firstSeq + sb.length + 1))
        (uninit sz)
    sbsize := sz }

/- Each round doubles the array; nothing without fuel. -/
def makeRoom
    (uninit : Int → Int → ScoreBoardNode)
    (width : Int) :
    Nat → ScoreBoard → Option ScoreBoard
| 0, _ => none
| fuel + 1, sb =>
    if sb.sbsize - 1 ≤ width then
      makeRoom uninit width fuel
        (sb.resizeSB uninit (sb.sbsize * 2))
    else some sb

def extend
    (uninit : Int → Int → ScoreBoardNode)
    (last_ack sack_right : Int)
    (sb : ScoreBoard) : Option ScoreBoard :=
  if sb.lastSeq < sack_right then
    let width := sack_right - last_ack
    (makeRoom uninit width (width.toNat + 1) sb).bind fun sb =>
      PartialRun.run createEntry sb
        (Int.range (sb.lastSeq + 1) sack_right)
  else some sb

/- One entry of the loop over the entries below a block's end. -/
def sackEntry
    (sack_left sack_right : Int)
    (r : ScoreBoard × Int)
    (i : Int) : ScoreBoard × Int :=
  let node := r.1.get i
  if sack_left ≤ node.seq_no ∧ node.seq_no < sack_right then
    let sb := r.1.set i
      { node with sack_flag := true, retran := false }
    ({ sb with
        changed :=
          if node.sack_flag then sb.changed
          else sb.changed + 1 },
      if node.retran then r.2 + 1 else r.2)
  else r

def sackBlock
    (uninit : Int → Int → ScoreBoardNode)
    (last_ack : Int)
    (r : ScoreBoard × Int)
    (block : Int × Int) : Option (ScoreBoard × Int) :=
  (extend uninit last_ack block.2 r.1).map fun sb =>
    (Int.range sb.firstSeq block.2).foldl
      (sackEntry block.1 block.2) (sb, r.2)

def advanceEdge
    (sb : ScoreBoard)
    (last_ack : Int) : Option (ScoreBoard × Int) :=
  if sb.length ≠ 0 ∧ sb.firstSeq ≤ last_ack then
    advance last_ack (Int.range sb.firstSeq (last_ack + 1))
      (sb, 0)
  else some (sb, 0)

/- A scoreboard is created if there is none. -/
def create
    (sb : ScoreBoard)
    (last_ack : Int)
    (blocks : List (Int × Int)) : Option ScoreBoard :=
  if sb.length = 0 ∧ blocks ≠ [] then
    createEntry { sb with first := last_ack + 1 } (last_ack + 1)
  else some sb

/- Also counts the retransmissions that are done with. -/
def updateScoreBoard
    (uninit : Int → Int → ScoreBoardNode)
    (sb : ScoreBoard)
    (last_ack : Int)
    (blocks : List (Int × Int)) :
    Option (ScoreBoard × Int) := do
  let (sb, retran_decr) ←
    advanceEdge { sb with changed := 0 } last_ack
  let sb ← sb.create last_ack blocks
  PartialRun.run (sackBlock uninit last_ack) (sb, retran_decr)
    blocks

end ScoreBoard

end Ns2

------------------------------------------------------------
-- Other calls
------------------------------------------------------------

namespace Ns2

namespace ScoreBoard

variable (sb : ScoreBoard)

def clearScoreBoard : ScoreBoard :=
  { sb with length := 0 }

def getNextRetran : Int :=
  if sb.length ≠ 0 then
    ((Int.range sb.firstSeq (sb.firstSeq + sb.length)).find?
      fun i =>
        !(sb.get i).ack_flag && !(sb.get i).sack_flag &&
          !(sb.get i).retran).getD (-1)
  else -1

def getNextUnacked (seqno : Int) : Int :=
  if sb.length = 0 then -1
  else if seqno < sb.firstSeq ∨
      sb.firstSeq + sb.length ≤ seqno then -1
  else
    ((Int.range seqno (sb.firstSeq + sb.length)).find?
      fun i =>
        !(sb.get i).ack_flag && !(sb.get i).sack_flag).getD (-1)

/- With the number to be sent next, or without it. -/
def markRetran
    (retran_seqno : Int)
    (snd_nxt : Option Int) : ScoreBoard :=
  let node := sb.get retran_seqno
  sb.set retran_seqno
    { node with
      retran := true
      snd_nxt := snd_nxt.getD node.snd_nxt }

/- The entries that are in use. -/
def live : List ScoreBoardNode :=
  (Int.range sb.first (sb.first + sb.length)).map sb.get

inductive Call where
| updateScoreBoard
    (last_ack : Int)
    (blocks : List (Int × Int))
| markRetran
    (retran_seqno : Int)
    (snd_nxt : Option Int)
| clearScoreBoard

def call
    (uninit : Int → Int → ScoreBoardNode)
    (sb : ScoreBoard) : Call → Option ScoreBoard
| .updateScoreBoard last_ack blocks =>
    (sb.updateScoreBoard uninit last_ack blocks).map Prod.fst
| .markRetran retran_seqno snd_nxt =>
    some (sb.markRetran retran_seqno snd_nxt)
| .clearScoreBoard => some sb.clearScoreBoard

end ScoreBoard

end Ns2
