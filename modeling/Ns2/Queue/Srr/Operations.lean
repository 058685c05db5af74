import Mathlib.Algebra.Order.Ring.Int

/-
  The weight matrix of the smoothed round robin queue.

  An active queue has a node in each column that stands for a
  binary digit of its weight.  The scan goes through a column
  from its head to its tail and takes the next column from
  the weight spread sequence.  A node is known by its column
  and its queue, and a column is the list of its queues.  The
  links along the row of a queue serve to find its nodes and
  are left out.  A call that crashes, exits or never returns
  has no result.

  Main declarations:
    * `rawScan`, `WSS.init`, `WSS.get`, `WSS.inc_ptr`
    * `SRR.add_to_WM`, `SRR.del_from_WM`
    * `SRR.getNextNode`
-/

------------------------------------------------------------
-- Weight Spread Sequence
------------------------------------------------------------

namespace Ns2

/- A loop that multiplies `j` times. -/
def power (base j : Nat) : Nat :=
  base ^ j

/- The scan starts at or below the order `N`. -/
def rawScan
    (i j N : Nat)
    (hLe : j ≤ N) : Nat :=
  if hEq : j = N then N
  else if i % power 2 j ≠ 0 then j
  else rawScan i (j + 1) N (by omega)
termination_by N - j

structure WSS where
  ptr : Nat
  pwss : List Nat
deriving DecidableEq, Repr

namespace WSS

/- There is nothing to scan for in a sequence of order 0. -/
def init (maxOrder : Nat) : WSS where
  ptr := 0
  pwss :=
    if hOrder : 1 ≤ maxOrder then
      (List.range (2 ^ maxOrder - 1)).map fun j =>
        rawScan (j + 1) 1 maxOrder hOrder
    else []

def get_ptr (w : WSS) : Nat :=
  w.ptr

def set_ptr
    (w : WSS)
    (val : Nat) : WSS :=
  { w with ptr := val }

/- The pointer comes after `2 ^ order - 2` to 0 again. -/
def inc_ptr
    (w : WSS)
    (order : Nat) : WSS :=
  { w with
    ptr := if 2 ^ order < w.ptr + 1 + 2 then 0 else w.ptr + 1 }

def get
    (w : WSS)
    (order : Nat) : Option Nat :=
  if 2 ^ order < w.ptr + 2 then none
  else w.pwss[w.ptr]?

end WSS

end Ns2

------------------------------------------------------------
-- Weight Matrix
------------------------------------------------------------

namespace Ns2

/- A node of the matrix: its queue and its column. -/
structure WmNode where
  queueid : Nat
  weight : Nat
deriving DecidableEq, Repr

structure SRR where
  bytecnt : Int
  wss : WSS
  wm : Nat → List Nat
  pwmCurr : Option WmNode
  wmEmptyFlag : Bool
  maxColumn : Nat
  currMaxColumn : Int

namespace SRR

/- The sequence is made for columns below `maxOrder`. -/
def new (maxOrder : Nat) : SRR where
  bytecnt := 0
  wss := .init maxOrder
  wm := fun _ => []
  pwmCurr := none
  wmEmptyFlag := true
  maxColumn := 0
  currMaxColumn := -1

/- The order that the sequence is used with. -/
def order (s : SRR) : Nat :=
  (s.currMaxColumn + 1).toNat

/- The queues behind `q` in a column. -/
def behind
    (q : Nat)
    (column : List Nat) : List Nat :=
  (column.dropWhile (· ≠ q)).tail

/- The queue of the next node, unless that is the tail. -/
def next
    (s : SRR)
    (n : WmNode) : Option Nat :=
  (behind n.queueid (s.wm n.weight)).head?

/- Link `q` into a column in front of `p`. -/
def linkBefore
    (p q : Nat)
    (column : List Nat) : List Nat :=
  column.takeWhile (· ≠ p) ++ q :: column.dropWhile (· ≠ p)

/-
  A node for `queueid` in column `i`: in front of the node
  being scanned, if that is in the column, or at the end.
-/
def addNode
    (queueid : Nat)
    (s : SRR)
    (i : Nat) : SRR :=
  { s with
    wm := Function.update s.wm i
      (match s.pwmCurr with
      | some n =>
          if n.weight = i then
            linkBefore n.queueid queueid (s.wm i)
          else s.wm i ++ [queueid]
      | none => s.wm i ++ [queueid])
    currMaxColumn :=
      if s.currMaxColumn < i then i else s.currMaxColumn
    wmEmptyFlag := false
    pwmCurr :=
      if s.wmEmptyFlag ∧ s.pwmCurr = none then
        some ⟨queueid, i⟩
      else s.pwmCurr }

/- The nodes for the digits of a weight, the highest first. -/
def addRow
    (s : SRR)
    (queueid weight : Nat) : SRR :=
  ((List.range (s.maxColumn + 1)).reverse.filter
    weight.testBit).foldl (addNode queueid) s

/- Keep the place in a sequence that got longer. -/
def stretchPtr
    (s : SRR)
    (old_colno : Int) : SRR :=
  if old_colno < s.currMaxColumn ∧ 0 ≤ old_colno then
    { s with
      wss := s.wss.set_ptr
        ((s.wss.get_ptr + 1) *
          2 ^ (s.currMaxColumn - old_colno).toNat - 1) }
  else s

def add_to_WM
    (s : SRR)
    (queueid weight : Nat) : Option SRR :=
  if weight = 0 then none
  else if 2 ^ (s.maxColumn + 1) - 1 < weight then none
  else
    some ((s.addRow queueid weight).stretchPtr
      s.currMaxColumn)

/-
  Look for a column with a node, one after the other as the
  sequence says.  The columns looked at are returned beside
  the state.
-/
def again (s : SRR) : Nat → Option (List Nat × SRR)
| 0 => none
| fuel + 1 =>
    (s.wss.get s.order).bind fun wss_term =>
      if s.order < wss_term then none
      else
        let wss := s.wss.inc_ptr s.order
        let temp := s.order - wss_term
        match s.wm temp with
        | [] =>
            (again { s with wss := wss } fuel).map fun r =>
              (temp :: r.1, r.2)
        | q :: _ =>
            some ([temp],
              { s with
                wss := wss
                pwmCurr := some ⟨q, temp⟩ })

/- A whole round without a node is repeated for ever. -/
def advance (s : SRR) : Option (List Nat × SRR) :=
  again s (2 ^ s.order - 1)

/- Keep the place in a sequence that got shorter. -/
def shrinkPtr
    (s : SRR)
    (old_colno : Int) : SRR :=
  if s.currMaxColumn < old_colno then
    let pc := s.wss.get_ptr + 1
    let mul := 2 ^ (old_colno - s.currMaxColumn).toNat
    let tmpc :=
      if pc % mul ≠ 0 then
        if 2 ^ s.order - 1 < pc / mul + 1 then 1
        else pc / mul + 1
      else pc / mul
    { s with wss := s.wss.set_ptr (tmpc - 1) }
  else s

/- The highest column with a node, up to `n`. -/
def topColumn (s : SRR) : Nat → Option Nat
| 0 => none
| n + 1 => if s.wm n ≠ [] then some n else topColumn s n

/- The scan leaves the nodes of `q`, and they are freed. -/
def without
    (s : SRR)
    (q : Nat)
    (n : WmNode) : SRR :=
  { s with
    pwmCurr :=
      if n.queueid = q then
        (s.next n).map fun q => ⟨q, n.weight⟩
      else some n
    wm := fun i => (s.wm i).erase q }

/- No node is left. -/
def vacate (s : SRR) : SRR :=
  { s with
    wmEmptyFlag := true
    currMaxColumn := -1
    pwmCurr := none
    wss := s.wss.set_ptr 0 }

/- The highest column is now `i`. -/
def relocate
    (s : SRR)
    (i : Nat) : Option SRR :=
  let s :=
    { s with currMaxColumn := i }.shrinkPtr s.currMaxColumn
  if s.pwmCurr = none then s.advance.map Prod.snd
  else some s

def del_from_WM
    (s : SRR)
    (queueid : Nat) : Option SRR :=
  s.pwmCurr.bind fun n =>
    let s := s.without queueid n
    (s.topColumn s.order).elim (some s.vacate) s.relocate

/- The columns that a call for the next node looks at. -/
def looked (s : SRR) : List Nat :=
  if s.bytecnt = 0 then []
  else
    match s.pwmCurr.bind s.next with
    | some _ => []
    | none => (s.advance.map Prod.fst).getD []

def getNextNode (s : SRR) : Option (Option WmNode × SRR) :=
  if s.bytecnt = 0 then some (none, s)
  else
    s.pwmCurr.bind fun n =>
      match s.next n with
      | some q =>
          some (some ⟨q, n.weight⟩,
            { s with pwmCurr := some ⟨q, n.weight⟩ })
      | none =>
          if s.currMaxColumn = -1 then none
          else s.advance.map fun r => (r.2.pwmCurr, r.2)

end SRR

end Ns2
