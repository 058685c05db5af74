import Ns2.Queue.Srr.Operations
import Mathlib.Algebra.BigOperators.Group.Finset.Basic

/-
  The packets of the smoothed round robin queue.

  The packets of a queue that is active are sent as the scan
  of the weight matrix comes to the queue, the quantum for
  each of its nodes.  A packet that was sent is counted with
  its queue until the next call, so that the queue stays in
  the matrix until then.  A call that crashes, exits or never
  returns has no result.

  Main declarations:
    * `SRRConfig`, `PacketSRR`, `SRRQueue`
    * `SRRQueue.enque`, `SRRQueue.deque`
    * `SRRQueue.setrate`
-/

------------------------------------------------------------
-- Queue
------------------------------------------------------------

namespace Ns2

/- What is set from outside, and what the packets say. -/
structure SRRConfig (α : Type) where
  flowid : α → Nat
  size : α → Int
  f2q : Nat → Nat
  maxqueuenumber_ : Nat
  mtu_ : Int
  granularity_ : Nat
  qlim_ : Int

structure PacketSRR (α : Type) where
  queue : List α
  pkts : Int
  bcount : Int
  deficitCounter : Int
  turn : Bool

/- The matrix has the counter of bytes and the columns. -/
structure SRRQueue (α : Type) where
  wm : SRR
  srr : Nat → PacketSRR α
  pktcnt : Int
  flwcnt : Int
  last_queueid : Option Nat
  last_size : Int
  private_rate : Nat → Nat

namespace SRRQueue

variable {α : Type}

def MAXFLOW : Nat := 100
def MAXQUEUE : Nat := 100
def MAXWSSORDER : Nat := 16
def minRate : Int := 1000
def maxRate : Int := 100000000

/- The rates are those of the default granularity. -/
def new : SRRQueue α where
  wm := SRR.new MAXWSSORDER
  srr := fun _ => ⟨[], 0, 0, 0, false⟩
  pktcnt := 0
  flwcnt := 0
  last_queueid := none
  last_size := 0
  private_rate := fun _ => 1000

/- The weight that a queue is activated with. -/
def weight
    (cfg : SRRConfig α)
    (s : SRRQueue α)
    (q : Nat) : Nat :=
  s.private_rate q / cfg.granularity_

/- Store a packet, or drop it where the queue is full. -/
def enque
    (cfg : SRRConfig α)
    (s : SRRQueue α)
    (pkt : α) : Option (SRRQueue α × Bool) :=
  let queueid := cfg.f2q (cfg.flowid pkt)
  if MAXFLOW ≤ cfg.flowid pkt ∨ MAXFLOW ≤ queueid then none
  else if cfg.maxqueuenumber_ < queueid then none
  else
    let q := s.srr queueid
    if q.pkts = cfg.qlim_ then some (s, true)
    else
      let q :=
        { q with
          queue := q.queue ++ [pkt]
          pkts := q.pkts + 1
          bcount := q.bcount + cfg.size pkt }
      let s :=
        { s with
          srr := Function.update s.srr queueid q
          pktcnt := s.pktcnt + 1
          wm := { s.wm with
            bytecnt := s.wm.bytecnt + cfg.size pkt } }
      if q.pkts = 1 then
        (s.wm.add_to_WM queueid (s.weight cfg queueid)).map
          fun wm =>
            ({ s with
              wm := wm
              flwcnt := s.flwcnt + 1
              srr := Function.update s.srr queueid
                { q with deficitCounter := 0 } }, false)
      else some (s, false)

/- Account for the packet that was sent last. -/
def settle (s : SRRQueue α) : Option (SRRQueue α) :=
  match s.last_queueid with
  | none => some s
  | some last =>
      let q := s.srr last
      let q :=
        { q with
          bcount := q.bcount - s.last_size
          pkts := q.pkts - 1 }
      let wm :=
        { s.wm with bytecnt := s.wm.bytecnt - s.last_size }
      if q.pkts = 0 then
        (wm.del_from_WM last).map fun wm =>
          { s with
            wm := wm
            srr := Function.update s.srr last
              { q with turn := false, deficitCounter := 0 }
            pktcnt := s.pktcnt - 1
            flwcnt := s.flwcnt - 1
            last_queueid :=
              if wm.wmEmptyFlag then none else some last }
      else
        some { s with
          wm := wm
          srr := Function.update s.srr last q
          pktcnt := s.pktcnt - 1 }

/- The quantum at the start of a turn. -/
def granted
    (q : PacketSRR α)
    (mtu : Int) : PacketSRR α :=
  if q.turn then q
  else
    { q with
      deficitCounter := q.deficitCounter + mtu
      turn := true }

/- Send the first packet of the queue that has the credit. -/
def serve
    (cfg : SRRConfig α) :
    Nat → SRRQueue α → Option (α × SRRQueue α)
  | 0, _ => none
  | k + 1, s =>
      s.wm.pwmCurr.bind fun n =>
        if MAXFLOW ≤ n.queueid then none
        else
          (s.srr n.queueid).queue.head?.bind fun pkt =>
            if cfg.f2q (cfg.flowid pkt) ≠ n.queueid then none
            else
              let pP := granted (s.srr n.queueid) cfg.mtu_
              if cfg.size pkt ≤ pP.deficitCounter then
                some (pkt,
                  { s with
                    srr := Function.update s.srr n.queueid
                      { pP with
                        queue := pP.queue.tail
                        deficitCounter :=
                          pP.deficitCounter - cfg.size pkt }
                    last_size := cfg.size pkt
                    last_queueid := some n.queueid })
              else
                s.wm.getNextNode.bind fun r =>
                  serve cfg k
                    { s with
                      wm := r.2
                      srr := Function.update s.srr n.queueid
                        { pP with turn := false } }

/- What a queue lacks until its first packet is sent. -/
def lack
    (cfg : SRRConfig α)
    (q : PacketSRR α) : Nat :=
  (if q.turn then 1 else 0) +
    (q.queue.head?.map fun pkt =>
      (cfg.size pkt - q.deficitCounter).toNat).getD 0

/- More rounds than the loop makes. -/
def rounds
    (cfg : SRRConfig α)
    (s : SRRQueue α) : Nat :=
  ∑ q ∈ Finset.range MAXFLOW, lack cfg (s.srr q) + 1

def deque
    (cfg : SRRConfig α)
    (s : SRRQueue α) : Option (Option α × SRRQueue α) :=
  s.settle.bind fun s =>
    if s.pktcnt < 0 then none
    else if s.pktcnt = 0 then
      some (none, { s with last_queueid := none })
    else if s.wm.pwmCurr = none then none
    else (serve cfg (s.rounds cfg) s).map fun r =>
      (some r.1, r.2)

/- The exponent of the highest power of two up to `i`. -/
def getOrderFrom (i order : Nat) : Nat :=
  if hLe : 2 ^ order ≤ i then getOrderFrom i (order + 1)
  else order
termination_by i - order
decreasing_by
  have hLess : order < 2 ^ order := Nat.lt_two_pow_self
  omega

def getOrder (i : Nat) : Nat :=
  getOrderFrom i 0 - 1

/- Set the rate of a queue, and the columns it needs. -/
def setrate
    (cfg : SRRConfig α)
    (s : SRRQueue α)
    (queue : Nat)
    (rate : Int) : Option (SRRQueue α) :=
  if MAXQUEUE < queue ∨ MAXFLOW ≤ queue then none
  else
    let rate := max rate minRate
    if maxRate < rate then none
    else
      let success := rate.toNat / cfg.granularity_
      let success := if success = 0 then 1 else success
      let temp := getOrder success
      let maxColumn := max s.wm.maxColumn temp
      if MAXWSSORDER - 1 < maxColumn then none
      else
        some { s with
          private_rate :=
            Function.update s.private_rate queue rate.toNat
          wm := { s.wm with maxColumn := maxColumn } }

end SRRQueue

end Ns2
