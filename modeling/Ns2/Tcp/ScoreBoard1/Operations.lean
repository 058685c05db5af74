import Mathlib.Algebra.Order.Group.Int
import Mathlib.Data.List.DropRight
import Mathlib.Tactic.Common

/-
  The scoreboard of the Linux TCP sender.

  A list of blocks of packets in one state each.  One pass
  over it splits blocks, changes their states, merges them
  and counts what was selectively acknowledged or lost.

  Main declarations:
    * `ScoreBoard1.cleanRtxQueue`
    * `ScoreBoard1.updateScoreBoard`
    * `ScoreBoard1.markLoss`
    * `ScoreBoard1.getNextRetran`, `ScoreBoard1.markRetran`
-/

------------------------------------------------------------
-- Blocks
------------------------------------------------------------

namespace Ns2

inductive SkbFlag where
| SKB_FLAG_INFLIGHT
| SKB_FLAG_SACKED
| SKB_FLAG_LOST
| SKB_FLAG_RETRANSMITTED
deriving DecidableEq, Repr

/-
  A node of the list at its address.  The id of a
  retransmission is only there for retransmitted packets.
-/
structure ScoreBoardNode1 where
  addr : Nat
  flag : SkbFlag
  seq : Int
  nxt : Int
  retran : Int
deriving DecidableEq, Repr

namespace ScoreBoardNode1

variable (node : ScoreBoardNode1)

def getStart : Int :=
  node.seq

def getEnd : Int :=
  if node.flag = .SKB_FLAG_RETRANSMITTED then node.seq
  else node.nxt

def getLength : Int :=
  if node.flag = .SKB_FLAG_RETRANSMITTED then 1
  else node.nxt + 1 - node.seq

def setFlag (flag : SkbFlag) : ScoreBoardNode1 :=
  { node with
    flag := flag
    nxt :=
      if node.flag = .SKB_FLAG_RETRANSMITTED then node.seq
      else node.nxt }

def inside (seq : Int) : Bool :=
  if node.flag = .SKB_FLAG_RETRANSMITTED then
    decide (seq = node.seq)
  else decide (node.seq ≤ seq) && decide (seq ≤ node.nxt)

/- Nothing, the whole block, or as many packets of it. -/
def shouldClean (ackseq : Int) : Int :=
  if ackseq < node.seq then 0
  else if node.flag = .SKB_FLAG_RETRANSMITTED ∨
      node.nxt ≤ ackseq then -1
  else ackseq + 1 - node.seq

/- Whether the next node can be merged to this one. -/
def mergable (next : ScoreBoardNode1) : Prop :=
  next.flag ≠ .SKB_FLAG_RETRANSMITTED ∧ next.flag = node.flag

instance (next : ScoreBoardNode1) :
    Decidable (node.mergable next) :=
  inferInstanceAs (Decidable (_ ∧ _))

def merge (next : ScoreBoardNode1) : ScoreBoardNode1 :=
  { node with nxt := next.nxt }

/- What is left of a node that is split. -/
def splitFront (seq : Int) : ScoreBoardNode1 :=
  { node with nxt := seq - 1 }

/- The new node. -/
def splitBack
    (addr : Nat)
    (seq : Int) : ScoreBoardNode1 where
  addr := addr
  flag := node.flag
  seq := seq
  nxt := node.nxt
  retran := 0

end ScoreBoardNode1

end Ns2

------------------------------------------------------------
-- Scoreboards
------------------------------------------------------------

namespace Ns2

/- New nodes get addresses that have not been in use. -/
structure ScoreBoard1 where
  nodes : List ScoreBoardNode1
  nxt_to_retrx : Option Nat
  acked_rtx_id : Int
  rtx_id : Int
  fack : Int
  fack_out : Int
  sack_out : Int
  last_rtx_seq : Int
  fresh : Nat
deriving DecidableEq, Repr

namespace ScoreBoard1

def FLAG_DATA_SACKED : Nat := 2
def FLAG_DATA_LOST : Nat := 8
def FLAG_UNSURE_TSTAMP : Nat := 16

def clearScoreBoard (sb : ScoreBoard1) : ScoreBoard1 :=
  { sb with
    nodes := []
    nxt_to_retrx := none
    acked_rtx_id := -1
    rtx_id := 0
    fack := 0
    fack_out := 0
    sack_out := 0 }

def new : ScoreBoard1 where
  nodes := []
  nxt_to_retrx := none
  acked_rtx_id := -1
  rtx_id := 0
  fack := 0
  fack_out := 0
  sack_out := 0
  last_rtx_seq := -1
  fresh := 0

def packets_in_flight
    (sb : ScoreBoard1)
    (snd_una snd_nxt : Int) : Int :=
  snd_nxt - snd_una - sb.fack_out - sb.sack_out

end ScoreBoard1

end Ns2

------------------------------------------------------------
-- Cleaning
------------------------------------------------------------

namespace Ns2

namespace ScoreBoard1

structure Cleaning where
  sb : ScoreBoard1
  changed_acked_rtx : Bool
  flag : Nat

namespace Cleaning

variable (c : Cleaning)

/- Nothing where a count gets negative. -/
def release
    (flag : SkbFlag)
    (pkt_num : Int) : Option Cleaning :=
  match flag with
  | .SKB_FLAG_SACKED =>
      if c.sb.sack_out - pkt_num < 0 then none
      else some { c with
        sb := { c.sb with
          sack_out := c.sb.sack_out - pkt_num } }
  | .SKB_FLAG_LOST =>
      if c.sb.fack_out - pkt_num < 0 then none
      else some { c with
        sb := { c.sb with
          fack_out := c.sb.fack_out - pkt_num } }
  | _ => some c

/- A retransmission that has arrived. -/
def noticeRtx (node : ScoreBoardNode1) : Cleaning :=
  if node.flag = .SKB_FLAG_RETRANSMITTED then
    if c.sb.acked_rtx_id < node.retran then
      { sb := { c.sb with acked_rtx_id := node.retran }
        changed_acked_rtx := true
        flag := c.flag ||| FLAG_UNSURE_TSTAMP }
    else { c with flag := c.flag ||| FLAG_UNSURE_TSTAMP }
  else c

/- The first node is deleted. -/
def free
    (node : ScoreBoardNode1)
    (rest : List ScoreBoardNode1) : Cleaning :=
  let c := c.noticeRtx node
  if c.sb.nxt_to_retrx = some node.addr then
    { c with
      sb := { c.sb with
        nxt_to_retrx := rest.head?.map (·.addr) } }
  else c

def withNodes (nodes : List ScoreBoardNode1) : Cleaning :=
  { c with sb := { c.sb with nodes := nodes } }

end Cleaning

def cleanRtxQueue
    (last_ack : Int) :
    List ScoreBoardNode1 → Cleaning → Option Cleaning
| [], c => some (c.withNodes [])
| node :: rest, c =>
    let cmp := node.shouldClean last_ack
    if cmp = 0 then some (c.withNodes (node :: rest))
    else
      let pkt_num := if cmp < 0 then node.getLength else cmp
      (c.release node.flag pkt_num).bind fun c =>
        if cmp < 0 then
          cleanRtxQueue last_ack rest (c.free node rest)
        else
          some (c.withNodes
            ({ node with seq := last_ack + 1 } :: rest))

end ScoreBoard1

end Ns2

------------------------------------------------------------
-- One pass
------------------------------------------------------------

namespace Ns2

namespace ScoreBoard1

/- A pass over the list, with the blocks that are still due. -/
structure Pass where
  sb : ScoreBoard1
  flag : Nat
  thorough : Bool
  sacks : List (Int × Int)

/- The node that a pass is at, and what comes after it. -/
structure Place where
  pass : Pass
  now : ScoreBoardNode1
  rest : List ScoreBoardNode1

namespace Place

variable (p : Place)

def split (seq : Int) : Place where
  pass := { p.pass with
    sb := { p.pass.sb with fresh := p.pass.sb.fresh + 1 } }
  now := p.now.splitFront seq
  rest := p.now.splitBack p.pass.sb.fresh seq :: p.rest

def setSacked : Place :=
  let sb := p.pass.sb
  let pktnum := p.now.getLength
  let again := decide (p.now.flag = .SKB_FLAG_RETRANSMITTED)
  { p with
    pass := { p.pass with
      sb := { sb with
        sack_out := sb.sack_out + pktnum
        fack_out :=
          if p.now.flag = .SKB_FLAG_LOST then
            sb.fack_out - pktnum
          else sb.fack_out
        acked_rtx_id :=
          if again then p.now.retran else sb.acked_rtx_id }
      thorough := p.pass.thorough || again
      flag :=
        p.pass.flag ||| FLAG_DATA_SACKED |||
          if again then FLAG_UNSURE_TSTAMP else 0 }
    now := p.now.setFlag .SKB_FLAG_SACKED }

/- Blocks that end before the node are done. -/
def skip : Place :=
  { p with
    pass := { p.pass with
      sacks := p.pass.sacks.dropWhile
        fun block => decide (block.2 ≤ p.now.getStart) } }

/- The block that is due splits the node, or covers it. -/
def sack : Place :=
  let p := p.skip
  match p.pass.sacks with
  | [] => p
  | (left, right) :: _ =>
      if left ≤ p.now.getEnd then
        if p.now.getStart < left then p.split left
        else if right ≤ p.now.getEnd then
          (p.split right).setSacked
        else p.setSacked
      else p

/- The first lost node is to be retransmitted next. -/
def remember : Place :=
  match p.pass.sb.nxt_to_retrx with
  | none =>
      { p with
        pass := { p.pass with
          sb := { p.pass.sb with
            nxt_to_retrx := some p.now.addr } } }
  | some _ => p

def setLost : Place :=
  let now := p.now.setFlag .SKB_FLAG_LOST
  remember { p with
    now := now
    pass := { p.pass with
      sb := { p.pass.sb with
        fack_out := p.pass.sb.fack_out + now.getLength }
      flag := p.pass.flag ||| FLAG_DATA_LOST } }

def lose (dupack_threshold : Int) : Place :=
  let sb := p.pass.sb
  let lost_seq_threshold := sb.fack - (dupack_threshold + 1)
  match p.now.flag with
  | .SKB_FLAG_RETRANSMITTED =>
      if p.now.nxt ≤ sb.fack ∨
          p.now.retran + dupack_threshold + 1 <
            sb.acked_rtx_id then
        p.setLost
      else p
  | .SKB_FLAG_INFLIGHT =>
      if p.now.getStart ≤ lost_seq_threshold then
        if lost_seq_threshold < p.now.getEnd then
          (p.split (lost_seq_threshold + 1)).setLost
        else p.setLost
      else p
  | .SKB_FLAG_LOST => p.remember
  | .SKB_FLAG_SACKED => p

/- No block that is due has a packet of the node. -/
def missed : Bool :=
  p.pass.sacks.head?.all fun block =>
    decide (p.now.getEnd < block.1)

def look (dupack_threshold : Int) : Place :=
  if p.now.flag ≠ .SKB_FLAG_SACKED then
    let p := p.sack
    if p.missed then p.lose dupack_threshold else p
  else p

end Place

/- The node is linked to those seen, the last one first. -/
def link
    (now : ScoreBoardNode1) :
    List ScoreBoardNode1 → List ScoreBoardNode1
| [] => [now]
| prev :: front =>
    if prev.mergable now then prev.merge now :: front
    else now :: prev :: front

/- The scoreboard is extended at its end. -/
def append
    (sb : ScoreBoard1)
    (seen rest : List ScoreBoardNode1) :
    ScoreBoard1 × List ScoreBoardNode1 :=
  match seen, rest with
  | prev :: _, [] =>
      if prev.getEnd < sb.fack then
        ({ sb with fresh := sb.fresh + 1 },
          [⟨sb.fresh, .SKB_FLAG_INFLIGHT, prev.getEnd + 1,
            sb.fack, 0⟩])
      else (sb, rest)
  | _, _ => (sb, rest)

/- Nothing where there are too few rounds. -/
def traverse
    (dupack_threshold : Int) :
    Nat → Pass → List ScoreBoardNode1 →
      List ScoreBoardNode1 → Option Pass
| _, pass, seen, [] =>
    some { pass with
      sb := { pass.sb with nodes := seen.reverse } }
| rounds, pass, seen, now :: rest =>
    if pass.sacks = [] ∧ pass.thorough = false then
      some { pass with
        sb := { pass.sb with
          nodes := seen.reverse ++ now :: rest } }
    else
      match rounds with
      | 0 => none
      | rounds + 1 =>
          let p := Place.look ⟨pass, now, rest⟩ dupack_threshold
          let seen := link p.now seen
          let r := append p.pass.sb seen p.rest
          traverse dupack_threshold rounds
            { p.pass with sb := r.1 } seen r.2

end ScoreBoard1

end Ns2

------------------------------------------------------------
-- Updates
------------------------------------------------------------

namespace Ns2

namespace ScoreBoard1

/- In order of their left edges, without duplicate reports. -/
def sortSacks
    (last_ack : Int)
    (blocks : List (Int × Int)) : List (Int × Int) :=
  blocks.foldl
    (fun sorted block =>
      if last_ack ≤ block.1 then
        sorted.rdropWhile (fun b => decide (block.1 < b.1)) ++
          block ::
            sorted.rtakeWhile (fun b => decide (block.1 < b.1))
      else sorted)
    []

/- The right end of the last block advances `fack`. -/
def advanceFack
    (sb : ScoreBoard1)
    (thorough : Bool)
    (sacks : List (Int × Int)) : ScoreBoard1 × Bool :=
  match sacks.getLast? with
  | none => (sb, thorough)
  | some block =>
      if sb.fack < block.2 - 1 then
        ({ sb with fack := block.2 - 1 }, true)
      else (sb, thorough)

def create
    (sb : ScoreBoard1)
    (last_ack : Int) : ScoreBoard1 :=
  match sb.nodes with
  | [] =>
      { sb with
        nodes :=
          [⟨sb.fresh, .SKB_FLAG_INFLIGHT, last_ack + 1, sb.fack,
            0⟩]
        fresh := sb.fresh + 1 }
  | _ :: _ => sb

/- Each round of a pass goes past a packet or a block. -/
def rounds (sb : ScoreBoard1) : Nat :=
  match sb.nodes.head?, sb.nodes.getLast? with
  | some node, some last =>
      sb.nodes.length +
        (max last.getEnd sb.fack + 1 - node.getStart).toNat
  | _, _ => 0

/- The new scoreboard and what has been found. -/
def updateScoreBoard
    (sb : ScoreBoard1)
    (last_ack : Int)
    (blocks : List (Int × Int))
    (dupack_threshold : Int) : Option (ScoreBoard1 × Nat) :=
  (cleanRtxQueue last_ack sb.nodes ⟨sb, false, 0⟩).bind fun c =>
    let sb :=
      if c.sb.nodes = [] then c.sb.clearScoreBoard else c.sb
    let thorough :=
      if c.sb.nodes = [] then false else c.changed_acked_rtx
    if thorough = false ∧ blocks = [] then some (sb, c.flag)
    else
      let sacks := sortSacks last_ack blocks
      if thorough = false ∧ sacks = [] then some (sb, c.flag)
      else
        let r := advanceFack sb thorough sacks
        let sb := r.1.create last_ack
        let pass : Pass :=
          ⟨{ sb with nxt_to_retrx := none }, c.flag, r.2, sacks⟩
        (traverse dupack_threshold sb.rounds pass []
          sb.nodes).map fun pass => (pass.sb, pass.flag)

end ScoreBoard1

end Ns2

------------------------------------------------------------
-- Other calls
------------------------------------------------------------

namespace Ns2

namespace ScoreBoard1

variable (sb : ScoreBoard1)

/- A walk over the list that takes every packet for lost. -/
structure Losing where
  fack_out : Int
  nxt_to_retrx : Option Nat
  last_lost : Bool
  seen : List ScoreBoardNode1

def loseNode
    (s : Losing)
    (now : ScoreBoardNode1) : Losing :=
  if now.flag ≠ .SKB_FLAG_SACKED then
    let lost := now.setFlag .SKB_FLAG_LOST
    { fack_out :=
        if now.flag ≠ .SKB_FLAG_LOST then
          s.fack_out + (now.getEnd - now.getStart + 1)
        else s.fack_out
      nxt_to_retrx :=
        if s.last_lost = false ∧ s.nxt_to_retrx = none then
          some now.addr
        else s.nxt_to_retrx
      last_lost := true
      seen :=
        match s.last_lost, s.seen with
        | true, prev :: front => prev.merge lost :: front
        | _, _ => lost :: s.seen }
  else
    { s with
      last_lost := false
      seen := now :: s.seen }

/- All packets that were sent have been lost. -/
def markLoss (snd_una snd_nxt : Int) : ScoreBoard1 :=
  let sb := { sb with rtx_id := 0, acked_rtx_id := -1 }
  let s : Losing :=
    sb.nodes.foldl loseNode ⟨sb.fack_out, none, false, []⟩
  match s.seen with
  | [] =>
      if snd_una < snd_nxt then
        { sb with
          nodes :=
            [⟨sb.fresh, .SKB_FLAG_LOST, snd_una, snd_nxt - 1, 0⟩]
          nxt_to_retrx := some sb.fresh
          fack_out := sb.fack_out + (snd_nxt - snd_una)
          fresh := sb.fresh + 1 }
      else { sb with nxt_to_retrx := none }
  | prev :: _ =>
      if prev.getEnd + 1 < snd_nxt then
        let s := loseNode s
          ⟨sb.fresh, .SKB_FLAG_INFLIGHT, prev.getEnd + 1,
            snd_nxt - 1, 0⟩
        { sb with
          nodes := s.seen.reverse
          nxt_to_retrx := s.nxt_to_retrx
          fack_out := s.fack_out
          fresh := sb.fresh + 1 }
      else
        { sb with
          nodes := s.seen.reverse
          nxt_to_retrx := s.nxt_to_retrx
          fack_out := s.fack_out }

/- The nodes from an address on. -/
def from_addr (addr : Nat) : List ScoreBoardNode1 :=
  sb.nodes.dropWhile fun node => decide (node.addr ≠ addr)

def getNextRetran : Int × ScoreBoard1 :=
  match sb.nxt_to_retrx with
  | none => (-1, sb)
  | some addr =>
      match (sb.from_addr addr).dropWhile fun node =>
          decide (node.flag ≠ .SKB_FLAG_LOST) with
      | [] => (-1, { sb with nxt_to_retrx := none })
      | node :: _ =>
          (node.getStart,
            { sb with nxt_to_retrx := some node.addr })

/- The first packet of a block is a retransmission. -/
def markNode
    (snd_nxt : Int)
    (node : ScoreBoardNode1) : List ScoreBoardNode1 :=
  if node.seq < node.nxt then
    [{ node with
        flag := .SKB_FLAG_RETRANSMITTED
        nxt := snd_nxt
        retran := sb.rtx_id },
      node.splitBack sb.fresh (node.seq + 1)]
  else
    [{ node with
        flag := .SKB_FLAG_RETRANSMITTED
        nxt := snd_nxt
        retran := sb.rtx_id }]

/- Nothing where an assertion fails. -/
def markRetran
    (retran_seqno snd_nxt : Int) : Option ScoreBoard1 :=
  match sb.nxt_to_retrx with
  | none => none
  | some addr =>
      match sb.from_addr addr with
      | [] => none
      | node :: rest =>
          if node.inside retran_seqno = false then none
          else if sb.fack_out - 1 < 0 then none
          else
            some { sb with
              nodes :=
                sb.nodes.takeWhile
                  (fun node => decide (node.addr ≠ addr)) ++
                  (sb.markNode snd_nxt node ++ rest)
              fack_out := sb.fack_out - 1
              rtx_id := sb.rtx_id + 1
              last_rtx_seq := retran_seqno
              fresh := sb.fresh + 1 }

inductive Call where
| updateScoreBoard
    (last_ack : Int)
    (blocks : List (Int × Int))
    (dupack_threshold : Int)
| getNextRetran
| markRetran
    (retran_seqno snd_nxt : Int)
| markLoss
    (last_ack snd_nxt : Int)
| clearScoreBoard

def call (sb : ScoreBoard1) : Call → Option ScoreBoard1
| .updateScoreBoard last_ack blocks dupack_threshold =>
    (sb.updateScoreBoard last_ack blocks
      dupack_threshold).map Prod.fst
| .getNextRetran => some sb.getNextRetran.2
| .markRetran retran_seqno snd_nxt =>
    sb.markRetran retran_seqno snd_nxt
| .markLoss last_ack snd_nxt =>
    some (sb.markLoss (last_ack + 1) snd_nxt)
| .clearScoreBoard => some sb.clearScoreBoard

end ScoreBoard1

end Ns2
