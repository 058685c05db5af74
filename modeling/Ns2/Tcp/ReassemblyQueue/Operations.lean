import Mathlib.Algebra.Order.Ring.Int
import Ns2.Lib.LinkedList

/-
  The reassembly queue of a TCP receiver.

  Segments are nodes of a table, on a queue in the order of
  their sequence numbers and on a stack with the most recent
  one on top.  An operation is `none` where the code would
  abort or follow a null pointer.  Sequence numbers are not
  negative in the code, and so their differences fit an int.

  Main declarations:
    * `ReassemblyQueue.add`
    * `ReassemblyQueue.coalesce`
    * `ReassemblyQueue.clearto`, `ReassemblyQueue.clear`
-/

------------------------------------------------------------
-- Segments and Lists
------------------------------------------------------------

namespace Ns2

/- A segment: the numbers from `startseq` to before `endseq`. -/
structure Seginfo where
  startseq : Int
  endseq : Int
  pflags : Nat
  rqflags : Nat
  cnt : Int
deriving DecidableEq, Repr

/-
  `fresh` is the next node to allocate; nodes given back form
  a list over their `next` pointers.
-/
structure ReassemblyQueue where
  seg : Nat → Seginfo
  fifo : Links Nat
  lifo : Links Nat
  hint : Option Nat
  freelist : Option Nat
  fresh : Nat
  total : Int
  rcvNxt : Int

namespace ReassemblyQueue

def new (rcvNxt : Int) : ReassemblyQueue where
  seg := fun _ => ⟨0, 0, 0, 0, 0⟩
  fifo := Links.empty
  lifo := Links.empty
  hint := none
  freelist := none
  fresh := 0
  total := 0
  rcvNxt := rcvNxt

/- A node to use: one given back, or a new one. -/
def newseginfo
    (rq : ReassemblyQueue) : Nat × ReassemblyQueue :=
  match rq.freelist with
  | some s => (s, { rq with freelist := rq.fifo.next s })
  | none => (rq.fresh, { rq with fresh := rq.fresh + 1 })

/- Giving a node back overwrites its `next` pointer. -/
def deleteseginfo
    (rq : ReassemblyQueue)
    (s : Nat) : ReassemblyQueue :=
  { rq with
    fifo :=
      { rq.fifo with
        next := Function.update rq.fifo.next s rq.freelist }
    freelist := some s }

/- Forget the hint when its node is unlinked. -/
def dropHint
    (rq : ReassemblyQueue)
    (p : Nat) : Option Nat :=
  if rq.hint = some p then none else rq.hint

def fremove
    (rq : ReassemblyQueue)
    (p : Nat) : ReassemblyQueue :=
  { rq with
    hint := rq.dropHint p
    fifo := rq.fifo.unlink p }

def sremove
    (rq : ReassemblyQueue)
    (p : Nat) : ReassemblyQueue :=
  { rq with
    hint := rq.dropHint p
    lifo := rq.lifo.unlink p }

def push
    (rq : ReassemblyQueue)
    (p : Nat) : ReassemblyQueue :=
  { rq with lifo := rq.lifo.insert none p rq.lifo.first }

/- Change the fields of one segment. -/
def modify
    (rq : ReassemblyQueue)
    (p : Nat)
    (f : Seginfo → Seginfo) : ReassemblyQueue :=
  { rq with seg := Function.update rq.seg p (f (rq.seg p)) }

def empty (rq : ReassemblyQueue) : Prop :=
  rq.fifo.first = none

instance (rq : ReassemblyQueue) : Decidable rq.empty :=
  inferInstanceAs (Decidable (_ = _))

/- A walk over the queue passes every node at most once. -/
def fuel (rq : ReassemblyQueue) : Nat :=
  rq.fresh + 1

/- The in-sequence point moves over a block it touches. -/
def advance
    (rq : ReassemblyQueue)
    (startseq endseq : Int) : ReassemblyQueue :=
  if startseq ≤ rq.rcvNxt then { rq with rcvNxt := endseq }
  else rq

end ReassemblyQueue

end Ns2

------------------------------------------------------------
-- Coalescing
------------------------------------------------------------

namespace Ns2

namespace ReassemblyQueue

/-
  The new block `n` fills the hole between `p` and `q`; `p`
  takes the numbers of all three.
-/
def bridge
    (rq : ReassemblyQueue)
    (p n q : Nat) : Nat × ReassemblyQueue :=
  let sn := rq.seg n
  let sq := rq.seg q
  let rq := (rq.sremove n).fremove n
  let rq := (rq.sremove q).fremove q
  let rq := rq.modify p fun s =>
    { s with
      endseq := sq.endseq
      cnt := s.cnt + (sn.cnt + sq.cnt)
      pflags := s.pflags ||| sn.pflags }
  let rq := (rq.deleteseginfo n).deleteseginfo q
  let sp := rq.seg p
  (sp.pflags, rq.advance sp.startseq sp.endseq)

/- The new block `n` joins `p`. -/
def joinLeft
    (rq : ReassemblyQueue)
    (p n : Nat) : Nat × ReassemblyQueue :=
  let sn := rq.seg n
  let rq := (rq.sremove n).fremove n
  let rq := rq.modify p fun s =>
    { s with
      endseq := sn.endseq
      pflags := s.pflags ||| sn.pflags
      cnt := s.cnt + sn.cnt }
  let rq := rq.deleteseginfo n
  let sp := rq.seg p
  (sp.pflags, rq.advance sp.startseq sp.endseq)

/- The new block `n` joins `q`. -/
def joinRight
    (rq : ReassemblyQueue)
    (n q : Nat) : Nat × ReassemblyQueue :=
  let sn := rq.seg n
  let rq := (rq.sremove n).fremove n
  let rq := rq.modify q fun s =>
    { s with
      startseq := sn.startseq
      pflags := s.pflags ||| sn.pflags
      cnt := s.cnt + sn.cnt }
  let rq := rq.deleteseginfo n
  let sq := rq.seg q
  (sq.pflags, rq.advance sq.startseq sq.endseq)

/-
  The node `n` was inserted between `p` and `q`; blocks that
  touch it become one.  When none does, `p` is followed.
-/
def coalesce
    (rq : ReassemblyQueue)
    (p : Option Nat)
    (n : Nat)
    (q : Option Nat) : Option (Nat × ReassemblyQueue) :=
  match p, q with
  | some p, some q =>
      if (rq.seg p).endseq = (rq.seg n).startseq ∧
          (rq.seg n).endseq = (rq.seg q).startseq then
        some (rq.bridge p n q)
      else if (rq.seg p).endseq = (rq.seg n).startseq then
        some (rq.joinLeft p n)
      else if (rq.seg n).endseq = (rq.seg q).startseq then
        some (rq.joinRight n q)
      else
        some (0, rq.advance (rq.seg p).startseq
          (rq.seg p).endseq)
  | some p, none =>
      if (rq.seg p).endseq = (rq.seg n).startseq then
        some (rq.joinLeft p n)
      else
        some (0, rq.advance (rq.seg p).startseq
          (rq.seg p).endseq)
  | none, some q =>
      if (rq.seg n).endseq = (rq.seg q).startseq then
        some (rq.joinRight n q)
      else none
  | none, none => none

end ReassemblyQueue

end Ns2

------------------------------------------------------------
-- Adding a Segment
------------------------------------------------------------

namespace Ns2

namespace ReassemblyQueue

/- Link a new block between `p` and `q`. -/
def link
    (rq : ReassemblyQueue)
    (p q : Option Nat)
    (s : Seginfo)
    (needmerge : Bool) : Option (Nat × ReassemblyQueue) :=
  let r := rq.newseginfo
  let n := r.1
  let rq := (r.2.modify n fun _ => s).push n
  let rq :=
    { rq with
      fifo := rq.fifo.insert p n q
      total := rq.total + (s.endseq - s.startseq) }
  if needmerge then rq.coalesce p n q
  else some (s.pflags, rq.advance s.startseq s.endseq)

/- The two ways the loop over the overlapped blocks ends. -/
inductive Overlap where
  | exact (flags : Nat) (rq : ReassemblyQueue)
  | rest (rq : ReassemblyQueue) (altered : Bool)
      (tiflags : Nat) (initcnt : Int)

/-
  Kill the blocks from `r` to before `q` that the segment
  overlaps completely.  An exact duplicate ends the search;
  duplicates are not counted.
-/
def kill
    (q : Option Nat)
    (start endseq : Int)
    (fuel : Nat)
    (rq : ReassemblyQueue)
    (r : Option Nat)
    (altered : Bool)
    (tiflags : Nat)
    (initcnt : Int) : Option Overlap :=
  match fuel with
  | 0 => none
  | fuel + 1 =>
      match r with
      | none => some (.rest rq altered tiflags initcnt)
      | some x =>
          let sx := rq.seg x
          if q = some x then
            some (.rest rq altered tiflags initcnt)
          else if start = sx.startseq ∧ endseq = sx.endseq then
            let rq := rq.modify x fun s =>
              { s with pflags := s.pflags ||| tiflags }
            some (.exact (rq.seg x).pflags rq)
          else if start ≤ sx.startseq ∧ sx.endseq ≤ endseq then
            let r := rq.fifo.next x
            let rq :=
              { rq with
                total := rq.total - (sx.endseq - sx.startseq) }
            kill q start endseq fuel
              (((rq.fremove x).sremove x).deleteseginfo x) r
              true (tiflags ||| sx.pflags) (initcnt + sx.cnt)
          else
            kill q start endseq fuel rq (rq.fifo.next x)
              altered tiflags initcnt

/- The block `x` takes in the segment on its left side. -/
def widenLeft
    (rq : ReassemblyQueue)
    (x : Nat)
    (start : Int)
    (tiflags : Nat) : ReassemblyQueue :=
  let sx := rq.seg x
  let rq :=
    if start < sx.startseq then
      { rq.modify x (fun s => { s with startseq := start }) with
        total := rq.total + (sx.startseq - start) }
    else rq
  rq.modify x fun s =>
    { s with
      pflags := s.pflags ||| tiflags
      cnt := s.cnt + 1 }

/- The block `x` takes in the segment on its right side. -/
def widenRight
    (rq : ReassemblyQueue)
    (x : Nat)
    (endseq : Int)
    (tiflags : Nat) : ReassemblyQueue :=
  let sx := rq.seg x
  let rq :=
    if sx.endseq < endseq then
      { rq.modify x (fun s => { s with endseq := endseq }) with
        total := rq.total + (endseq - sx.endseq) }
    else rq
  rq.modify x fun s => { s with pflags := s.pflags ||| tiflags }

/- A search for an overlapped block and what it leaves. -/
structure Side where
  rq : ReassemblyQueue
  block : Option Nat
  edge : Int
  needmerge : Bool
  initcnt : Int

/- Merge with a block that overlaps the start. -/
def mergeLeft
    (rq : ReassemblyQueue)
    (p : Option Nat)
    (start : Int)
    (tiflags : Nat)
    (initcnt : Int) : Option Side :=
  let merge (x : Nat) : Side :=
    ⟨rq.widenLeft x start tiflags, some x, (rq.seg x).endseq,
      true, initcnt - 1⟩
  match p with
  | none => rq.fifo.first.map merge
  | some p =>
      (rq.fifo.next p).map fun x =>
        if (rq.seg x).startseq < start then merge x
        else ⟨rq, some p, start, false, initcnt⟩

/-
  Merge with a block that overlaps the end.  The merge flag
  is set before it is tested, so the count stays.
-/
def mergeRight
    (rq : ReassemblyQueue)
    (q : Option Nat)
    (endseq : Int)
    (tiflags : Nat)
    (needmerge : Bool)
    (initcnt : Int) : Option Side :=
  let merge (x : Nat) : Side :=
    ⟨rq.widenRight x endseq tiflags, some x,
      (rq.seg x).startseq, true, initcnt⟩
  match q with
  | none => rq.fifo.last.map merge
  | some q =>
      (rq.fifo.prev q).map fun x =>
        if endseq < (rq.seg x).endseq then merge x
        else ⟨rq, some q, endseq, needmerge, initcnt⟩

/- A segment that fits between `p` and `q` and touches one. -/
def touches
    (rq : ReassemblyQueue)
    (p q : Option Nat)
    (start endseq : Int) : Option Bool :=
  match p with
  | none => none
  | some p =>
      if rq.fifo.next p = q ∧ (rq.seg p).endseq ≤ start then
        q.map fun q =>
          decide (endseq ≤ (rq.seg q).startseq ∧
            ((rq.seg p).endseq = start ∨
              (rq.seg q).startseq = endseq))
      else some false

/- Insert what the blocks on both sides leave uncovered. -/
def merge
    (rq : ReassemblyQueue)
    (p q : Option Nat)
    (start endseq : Int)
    (tiflags rqflags : Nat)
    (initcnt : Int) : Option (Nat × ReassemblyQueue) :=
  (rq.mergeLeft p start tiflags initcnt).bind fun l =>
    (l.rq.mergeRight q endseq tiflags l.needmerge
        l.initcnt).bind fun r =>
      if r.edge ≤ l.edge then
        r.rq.fifo.first.map fun h =>
          (tiflags, r.rq.advance (r.rq.seg h).startseq
            (r.rq.seg h).endseq)
      else
        let s : Seginfo :=
          ⟨l.edge, r.edge, tiflags, rqflags, r.initcnt⟩
        if r.needmerge then
          r.rq.link l.block r.block s true
        else
          (r.rq.touches l.block r.block l.edge
              r.edge).bind fun needmerge =>
            r.rq.link l.block r.block s needmerge

/- The two ways a pass over the queue ends. -/
inductive Pass where
  | done (flags : Nat) (rq : ReassemblyQueue)
  | again (rq : ReassemblyQueue) (tiflags : Nat)
      (initcnt : Int)

/- One pass; it starts over when it has killed a block. -/
def pass
    (rq : ReassemblyQueue)
    (start endseq : Int)
    (tiflags rqflags : Nat)
    (initcnt : Int) : Option Pass :=
  let ret (r : Nat × ReassemblyQueue) : Pass :=
    .done r.1 r.2
  rq.fifo.last.bind fun tail => rq.fifo.first.bind fun head =>
    let st := (rq.seg tail).endseq
    let sh := (rq.seg head).startseq
    if st ≤ start then
      (rq.link (some tail) none
        ⟨start, endseq, tiflags, rqflags, initcnt⟩
        (decide (start = st))).map ret
    else if endseq ≤ sh then
      (rq.link none (some head)
        ⟨start, endseq, tiflags, rqflags, initcnt⟩
        (decide (endseq = sh))).map ret
    else
      (LinkedList.follow rq.fifo.next
          (fun q => decide ((rq.seg q).startseq < endseq))
          rq.fuel (some head)).bind fun q =>
      (LinkedList.follow rq.fifo.prev
          (fun p => decide (start < (rq.seg p).endseq))
          rq.fuel (some tail)).bind fun p =>
      (kill q start endseq rq.fuel rq (p.or (some head))
          false tiflags initcnt).bind fun o =>
        match o with
        | .exact flags rq => some (.done flags rq)
        | .rest rq altered tiflags initcnt =>
            if rq.empty then
              (rq.link p q
                ⟨start, endseq, tiflags, rqflags, initcnt⟩
                false).map ret
            else if altered then
              some (.again rq tiflags initcnt)
            else
              (rq.merge p q start endseq tiflags rqflags
                initcnt).map ret

def passes
    (fuel : Nat)
    (rq : ReassemblyQueue)
    (start endseq : Int)
    (tiflags rqflags : Nat)
    (initcnt : Int) : Option (Nat × ReassemblyQueue) :=
  match fuel with
  | 0 => none
  | fuel + 1 =>
      (rq.pass start endseq tiflags rqflags initcnt).bind
        fun r =>
          match r with
          | .done flags rq => some (flags, rq)
          | .again rq tiflags initcnt =>
              passes fuel rq start endseq tiflags rqflags
                initcnt

/- Add a segment; the result is its block's flags. -/
def add
    (rq : ReassemblyQueue)
    (start endseq : Int)
    (tiflags rqflags : Nat) :
    Option (Nat × ReassemblyQueue) :=
  if endseq < start then none
  else if rq.empty then
    if rq.lifo.first ≠ none then none
    else
      let r := rq.newseginfo
      let n := r.1
      let rq := r.2.modify n fun _ =>
        ⟨start, endseq, tiflags, rqflags, 1⟩
      let rq :=
        { rq with
          fifo := rq.fifo.insert none n none
          lifo := rq.lifo.insert none n none
          total := endseq - start }
      some (tiflags, rq.advance start endseq)
  else passes rq.fuel rq start endseq tiflags rqflags 1

end ReassemblyQueue

end Ns2

------------------------------------------------------------
-- Clearing
------------------------------------------------------------

namespace Ns2

namespace ReassemblyQueue

/- Remove the blocks that end at `seq` or before. -/
def clearBlocks
    (seq : Int)
    (fuel : Nat)
    (rq : ReassemblyQueue)
    (p : Option Nat)
    (flag : Nat) :
    Option (Option Nat × Nat × ReassemblyQueue) :=
  match fuel with
  | 0 => none
  | fuel + 1 =>
      match p with
      | none => some (none, flag, rq)
      | some x =>
          let sx := rq.seg x
          if sx.endseq ≤ seq then
            let q := rq.fifo.next x
            let rq :=
              { rq with
                total := rq.total - (sx.endseq - sx.startseq) }
            clearBlocks seq fuel
              (((rq.sremove x).fremove x).deleteseginfo x) q
              (flag ||| sx.pflags)
          else some (some x, flag, rq)

/- Trim the block that contains `seq`. -/
def trim
    (rq : ReassemblyQueue)
    (p : Option Nat)
    (seq : Int)
    (flag : Nat) : Nat × ReassemblyQueue :=
  match p with
  | none => (flag, rq)
  | some x =>
      let sx := rq.seg x
      if sx.startseq ≤ seq ∧ seq < sx.endseq then
        (flag ||| sx.pflags,
          { rq.modify x (fun s => { s with startseq := seq })
            with total := rq.total - (seq - sx.startseq) })
      else (flag, rq)

/- Clear the queue up to `seq`. -/
def clearto
    (rq : ReassemblyQueue)
    (seq : Int) : Option (Nat × ReassemblyQueue) :=
  (clearBlocks seq rq.fuel rq rq.fifo.first 0).map fun r =>
    r.2.2.trim r.1 seq r.2.1

def cleartonxt
    (rq : ReassemblyQueue) : Option (Nat × ReassemblyQueue) :=
  rq.clearto rq.rcvNxt

/- Give back the nodes of the queue. -/
def release
    (fuel : Nat)
    (rq : ReassemblyQueue) : Option ReassemblyQueue :=
  match fuel with
  | 0 => none
  | fuel + 1 =>
      match rq.fifo.first with
      | none => some rq
      | some p =>
          let rq :=
            { rq with
              fifo := { rq.fifo with first := rq.fifo.next p } }
          release fuel (rq.deleteseginfo p)

def clear
    (rq : ReassemblyQueue) : Option ReassemblyQueue :=
  let rq :=
    { rq with
      fifo := { rq.fifo with last := none }
      lifo := { rq.lifo with first := none, last := none }
      hint := none }
  (release rq.fuel rq).map fun rq =>
    { rq with
      fifo := { rq.fifo with last := none }
      total := 0 }

end ReassemblyQueue

end Ns2

------------------------------------------------------------
-- Runs
------------------------------------------------------------

namespace Ns2

namespace ReassemblyQueue

inductive Call where
  | add (start endseq : Int) (tiflags rqflags : Nat)
  | clearto (seq : Int)
  | clear
deriving DecidableEq, Repr

/- The queue after a call, whatever the call returns. -/
def call
    (rq : ReassemblyQueue)
    (c : Call) : Option ReassemblyQueue :=
  match c with
  | .add start endseq tiflags rqflags =>
      (rq.add start endseq tiflags rqflags).map Prod.snd
  | .clearto seq => (rq.clearto seq).map Prod.snd
  | .clear => rq.clear

def run
    (rq : ReassemblyQueue) :
    List Call → Option ReassemblyQueue
| [] => some rq
| c :: calls => (rq.call c).bind fun rq => rq.run calls

end ReassemblyQueue

end Ns2
