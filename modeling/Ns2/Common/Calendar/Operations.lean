import Mathlib.Algebra.Order.Floor.Ring
import Mathlib.Data.List.DropRight
import Mathlib.Data.Rat.Floor
import Ns2.Common.Scheduler

/-
  The calendar queue scheduler.

  Times and widths are rationals.  A bucket's circular list
  is the list of its events from `list_` on in the order of
  `next_`, so the last event is `list_->prev_`.  The results
  of `sqrt` are the entries of a sequence `sqrtWidth`; the
  `k`th call of `sqrt` yields the width `sqrtWidth k`.  A
  failed assertion, a null pointer and a search that does not
  end are `none`.

  Main declarations:
    * `CalendarScheduler.insert`, `CalendarScheduler.insert2`
    * `CalendarScheduler.head`, `CalendarScheduler.deque`
    * `CalendarScheduler.resize`, `CalendarScheduler.cancel`
    * `calendarScheduler`
-/

------------------------------------------------------------
-- Calendar State
------------------------------------------------------------

namespace Ns2

/- A bucket: its ring of events and the distinct times. -/
structure Bucket where
  list : List (Event ℚ)
  count : Int
deriving DecidableEq

/-
  The search statistics that pick a new width.  They are
  set up only when automatic adjustment is on.
-/
structure Adjust where
  timeToNewwidth : Nat
  headSearch : Nat
  insertSearch : Nat
  roundNum : Nat
  gapNum : Nat
  lastTime : ℚ
  avgGap : ℚ
deriving DecidableEq

/- The statistics at the start of a window. -/
def Adjust.clearSearch (a : Adjust) : Adjust :=
  { a with
    headSearch := 0
    insertSearch := 0
    roundNum := 0 }

/- The statistics when a window of gaps ends at `t`. -/
def Adjust.closeWindow
    (a : Adjust)
    (t : ℚ) : Adjust :=
  { a with
    avgGap := (t - a.lastTime) / (a.gapNum + 1 : Nat)
    gapNum := 0
    lastTime := t
    roundNum := a.roundNum + 1 }

structure CalendarScheduler where
  minBinWidth : ℚ
  adjustNewWidthInterval : Nat
  adjust : Adjust
  width : ℚ
  diff0 : ℚ
  diff1 : ℚ
  diff2 : ℚ
  statQsize : Int
  nbuckets : Nat
  lastbucket : Nat
  topThreshold : Int
  botThreshold : Int
  buckets : Nat → Bucket
  qsize : Nat
  calClock : ℚ
  sqrtCalls : Nat

namespace CalendarScheduler

/- The bucket of a time that is not negative. -/
def calendarHash
    (s : CalendarScheduler)
    (t : ℚ) : Nat :=
  ⌊t / s.width⌋₊ % s.nbuckets

/- Empty buckets of a given number and width. -/
def reinit
    (s : CalendarScheduler)
    (nbuck : Nat)
    (bwidth start : ℚ) : CalendarScheduler :=
  let s : CalendarScheduler :=
    { s with
      buckets := fun _ => ⟨[], 0⟩
      width := bwidth
      nbuckets := nbuck
      qsize := 0
      statQsize := 0 }
  { s with
    lastbucket := s.calendarHash start
    diff0 := bwidth * nbuck / 2
    diff1 := bwidth * nbuck / 2 + bwidth
    diff2 := bwidth * nbuck
    botThreshold := (nbuck / 2 : Nat) - 2
    topThreshold := nbuck * 2 }

/-
  A new scheduler.  `junk` is the memory the statistics lie
  in, which stays as it is when adjustment is off.
-/
def new
    (minBinWidth : ℚ)
    (adjustNewWidthInterval : Nat)
    (junk : Adjust) : CalendarScheduler :=
  let s : CalendarScheduler :=
    { minBinWidth := minBinWidth
      adjustNewWidthInterval := adjustNewWidthInterval
      adjust :=
        if adjustNewWidthInterval = 0 then junk
        else
          { timeToNewwidth := adjustNewWidthInterval
            headSearch := 0
            insertSearch := 0
            roundNum := 0
            gapNum := 0
            lastTime := -2
            avgGap := -2 }
      width := 0
      diff0 := 0
      diff1 := 0
      diff2 := 0
      statQsize := 0
      nbuckets := 0
      lastbucket := 0
      topThreshold := 0
      botThreshold := 0
      buckets := fun _ => ⟨[], 0⟩
      qsize := 0
      calClock := 0
      sqrtCalls := 0 }
  s.reinit 4 1 s.calClock

/- Replace the statistics. -/
def setAdjust
    (s : CalendarScheduler)
    (a : Adjust) : CalendarScheduler :=
  { s with adjust := a }

/- Replace bucket `i`. -/
def setBucket
    (s : CalendarScheduler)
    (i : Nat)
    (b : Bucket) : CalendarScheduler :=
  { s with buckets := Function.update s.buckets i b }

end CalendarScheduler

end Ns2

------------------------------------------------------------
-- Bucket Insertion
------------------------------------------------------------

namespace Ns2

/-
  A bucket after an insertion, whether the time was new to
  it, and the events passed by the walk.
-/
structure Inserted where
  list : List (Event ℚ)
  unique : Bool
  passed : Nat
deriving DecidableEq

namespace Bucket

/-
  Insert after the events of the same time: in front of the
  ring, or behind the last event that is not due later,
  walking back from the tail.
-/
def insert
    (ring : List (Event ℚ))
    (e : Event ℚ) : Inserted :=
  match ring with
  | [] => ⟨[e], true, 0⟩
  | head :: rest =>
      if e.time < head.time then
        ⟨e :: head :: rest, true, 1⟩
      else
        let later : Event ℚ → Bool :=
          fun x => decide (e.time < x.time)
        let front := (head :: rest).rdropWhile later
        let passed := (head :: rest).rtakeWhile later
        ⟨front ++ e :: passed,
          match front.getLast? with
          | none => false
          | some after => decide (after.time < e.time),
          passed.length + 1⟩

/-
  Insert before the events of the same time: at the tail, or
  in front of the first event that is not due earlier.
-/
def insert2
    (ring : List (Event ℚ))
    (e : Event ℚ) : List (Event ℚ) × Bool :=
  match ring with
  | [] => ([e], true)
  | head :: rest =>
      let ring := head :: rest
      if (ring.getLast (by simp [ring])).time < e.time then
        (ring ++ [e], decide (head.time ≠ e.time))
      else
        let earlier : Event ℚ → Bool :=
          fun x => decide (x.time < e.time)
        let back := ring.dropWhile earlier
        (ring.takeWhile earlier ++ e :: back,
          match back with
          | [] => false
          | before :: _ => decide (before.time ≠ e.time))

/- The ring after `e`, in the order of `next_`. -/
def others
    (ring : List (Event ℚ))
    (e : Event ℚ) : List (Event ℚ) :=
  (ring.dropWhile (fun x => decide (x ≠ e))).tail ++
    ring.takeWhile (fun x => decide (x ≠ e))

/- No neighbour of `e` in the ring has the time of `e`. -/
def alone
    (ring : List (Event ℚ))
    (e : Event ℚ) : Bool :=
  match (others ring e).head?, (others ring e).getLast? with
  | some next, some prev =>
      decide (next.time ≠ e.time ∧ prev.time ≠ e.time)
  | _, _ => true

end Bucket

end Ns2

------------------------------------------------------------
-- Widths and Resizing
------------------------------------------------------------

namespace Ns2

namespace CalendarScheduler

/- The index of the fullest of the first `n` buckets. -/
def maxBucket
    (s : CalendarScheduler) : Nat → Nat
| 0 => 0
| i + 1 =>
    let best := s.maxBucket i
    if (s.buckets best).count < (s.buckets i).count then i
    else best

/- A width from samples of the most populated bucket. -/
def sampleWidth
    (s : CalendarScheduler)
    (newsize : Nat) : Option ℚ :=
  let b := s.buckets (s.maxBucket s.nbuckets)
  if b.count ≤ 4 then some s.width
  else
    match b.list.head?, b.list.getLast? with
    | some first, some last =>
        let nw := last.time - first.time
        if 0 < nw then
          let samples : Int :=
            if newsize < b.count then newsize
            else b.count
          some (nw / samples * 4)
        else none
    | _, _ => none

/- A new width, from the average gap when it is known. -/
def newwidth
    (s : CalendarScheduler)
    (newsize : Nat) : Option (ℚ × Adjust) :=
  if s.adjustNewWidthInterval = 0 then
    (s.sampleWidth newsize).map (·, s.adjust)
  else
    let a : Adjust :=
      { s.adjust with
        timeToNewwidth := s.adjustNewWidthInterval }
    if 0 < a.avgGap then some (a.avgGap * 4, a)
    else (s.sampleWidth newsize).map (·, a)

/- Insertion during a resize. -/
def insert2
    (s : CalendarScheduler)
    (e : Event ℚ) : CalendarScheduler :=
  let i := s.calendarHash e.time
  let b := s.buckets i
  let r := Bucket.insert2 b.list e
  let one : Int := if r.2 then 1 else 0
  { s.setBucket i ⟨r.1, b.count + one⟩ with
    statQsize := s.statQsize + one
    qsize := s.qsize + 1 }

/- The events in the order they are moved in. -/
def moved
    (s : CalendarScheduler) : List (Event ℚ) :=
  (List.range s.nbuckets).flatMap fun i =>
    (s.buckets i).list.reverse

/- Move every event into `newsize` new buckets. -/
def rehash
    (s : CalendarScheduler)
    (newsize : Nat)
    (bwidth start : ℚ) : CalendarScheduler :=
  let s := s.moved.foldl insert2
    (s.reinit newsize bwidth start)
  s.setAdjust s.adjust.clearSearch

/-
  Resize for the bucket width, when the number of buckets
  stays, or for the number of buckets.
-/
def resize
    (sqrtWidth : Nat → ℚ)
    (s : CalendarScheduler)
    (newsize : Nat)
    (start : ℚ) : Option CalendarScheduler :=
  if newsize = s.nbuckets then
    let bwidth := sqrtWidth s.sqrtCalls
    let s : CalendarScheduler :=
      { s with sqrtCalls := s.sqrtCalls + 1 }
    if bwidth < s.minBinWidth then
      if 0 < s.adjust.timeToNewwidth then
        some (s.setAdjust
          { s.adjust.clearSearch with
            timeToNewwidth := s.adjust.timeToNewwidth - 1 })
      else
        (s.newwidth newsize).map fun r =>
          (s.setAdjust r.2).rehash newsize r.1 start
    else some (s.rehash newsize bwidth start)
  else
    (s.newwidth newsize).map fun r =>
      (s.setAdjust r.2).rehash
        (if newsize < 4 then 4 else newsize) r.1 start

end CalendarScheduler

end Ns2

------------------------------------------------------------
-- Insert and Cancel
------------------------------------------------------------

namespace Ns2

namespace CalendarScheduler

/- Put `e` into its bucket, before a check for resizing. -/
def place
    (s : CalendarScheduler)
    (e : Event ℚ) : CalendarScheduler :=
  let s : CalendarScheduler :=
    if e.time < s.calClock then
      { s with
        calClock := e.time
        lastbucket := s.calendarHash e.time }
    else s
  let i := s.calendarHash e.time
  let b := s.buckets i
  let r := Bucket.insert b.list e
  let one : Int := if r.unique then 1 else 0
  { s.setBucket i ⟨r.list, b.count + one⟩ with
    adjust :=
      { s.adjust with
        insertSearch := s.adjust.insertSearch + r.passed }
    statQsize := s.statQsize + one
    qsize := s.qsize + 1 }

def insert
    (sqrtWidth : Nat → ℚ)
    (s : CalendarScheduler)
    (e : Event ℚ) : Option CalendarScheduler :=
  let s := s.place e
  if s.topThreshold < s.statQsize then
    s.resize sqrtWidth (s.nbuckets * 2) s.calClock
  else some s

/-
  Cancel an event; ids that are not positive mark events
  that are not queued.
-/
def cancel
    (s : CalendarScheduler)
    (e : Event ℚ) : Option CalendarScheduler :=
  if e.uid ≤ 0 then some s
  else
    let i := s.calendarHash e.time
    let b := s.buckets i
    if e ∉ b.list then none
    else
      let alone := Bucket.alone b.list e
      let one : Int := if alone then 1 else 0
      let list :=
        if b.list.head? = some e then Bucket.others b.list e
        else b.list.erase e
      let b' : Bucket := ⟨list, b.count - one⟩
      let s' : CalendarScheduler :=
        { s.setBucket i b' with
          statQsize := s.statQsize - one
          qsize := s.qsize - 1 }
      if alone = true ∧ (s'.statQsize < 0 ∨ b'.count < 0) then
        none
      else if b'.count = 0 ∧ b'.list ≠ [] then none
      else some s'

end CalendarScheduler

end Ns2

------------------------------------------------------------
-- Head and Deque
------------------------------------------------------------

namespace Ns2

/- The variables of the search for the first event. -/
structure Search where
  l : Option Nat
  i : Nat
  minE : Option (Event ℚ)
  headSearch : Nat
deriving DecidableEq

/- The bucket and the event at the label `found_l`. -/
structure Found where
  l : Option Nat
  e : Event ℚ
  headSearch : Nat
deriving DecidableEq

namespace CalendarScheduler

/-
  Look at one bucket.  An error is the jump to `found_l`
  with an event due within `diff` of the calendar clock.
-/
def calDequeue
    (s : CalendarScheduler)
    (diff : ℚ)
    (q : Search) : Except Found Search :=
  let i := if q.i + 1 = s.nbuckets then 0 else q.i + 1
  let n := q.headSearch + 1
  match (s.buckets q.i).list.head? with
  | none => .ok { q with i := i, headSearch := n }
  | some e =>
      if e.time - s.calClock < diff then
        .error ⟨some q.i, e, n⟩
      else
        match q.minE with
        | none => .ok ⟨some q.i, i, some e, n⟩
        | some m =>
            if e.time < m.time then
              .ok ⟨some q.i, i, some e, n⟩
            else .ok { q with i := i, headSearch := n }

/- The loop over the buckets up to `lastbucketDec`. -/
def calYear
    (s : CalendarScheduler)
    (lastbucketDec : Nat)
    (fuel : Nat)
    (q : Search) : Option (Except Found Search) :=
  match fuel with
  | 0 => none
  | fuel + 1 =>
      if q.i = lastbucketDec then some (.ok q)
      else
        match s.calDequeue s.diff2 q with
        | .error f => some (.error f)
        | .ok q => s.calYear lastbucketDec fuel q

/- The last bucket against the least event seen so far. -/
def calLast
    (s : CalendarScheduler)
    (q : Search) : Option Found :=
  match q.minE, (s.buckets q.i).list.head? with
  | some m, none => some ⟨q.l, m, q.headSearch⟩
  | some m, some e =>
      if m.time < e.time then some ⟨q.l, m, q.headSearch⟩
      else some ⟨some q.i, e, q.headSearch⟩
  | none, some e => some ⟨some q.i, e, q.headSearch⟩
  | none, none => none

/- The search of `head`. -/
def search
    (s : CalendarScheduler) : Option Found :=
  let lastbucketDec :=
    if s.lastbucket = 0 then s.nbuckets - 1
    else s.lastbucket - 1
  let start : Search :=
    ⟨none, s.lastbucket, none, s.adjust.headSearch⟩
  match s.calDequeue s.diff0 start with
  | .error f => some f
  | .ok q =>
      match s.calDequeue s.diff1 q with
      | .error f => some f
      | .ok q =>
          match s.calYear lastbucketDec s.nbuckets q with
          | none => none
          | some (.error f) => some f
          | some (.ok q) => s.calLast q

/- The first event; the calendar clock moves up to it. -/
def head
    (s : CalendarScheduler) :
    Option (Option (Event ℚ) × CalendarScheduler) :=
  if s.qsize = 0 then some (none, s)
  else
    s.search.bind fun f =>
      f.l.map fun l =>
        (some f.e,
          { s.setAdjust
              { s.adjust with headSearch := f.headSearch } with
            lastbucket := l
            calClock := f.e.time })

/- Sample the gaps between departures. -/
def sampleGap
    (sqrtWidth : Nat → ℚ)
    (s : CalendarScheduler)
    (e : Event ℚ) : Option CalendarScheduler :=
  if s.adjustNewWidthInterval = 0 then some s
  else if s.adjust.lastTime < 0 then
    some (s.setAdjust
      { s.adjust with lastTime := e.time })
  else if s.adjust.gapNum + 1 < s.qsize then
    some (s.setAdjust
      { s.adjust with gapNum := s.adjust.gapNum + 1 })
  else
    let a := s.adjust.closeWindow e.time
    if 20 < a.roundNum ∧
        (a.insertSearch * 2 < a.headSearch ∨
          a.headSearch * 2 < a.insertSearch) then
      ((s.setAdjust a).resize sqrtWidth s.nbuckets
        s.calClock).map fun s =>
          s.setAdjust { s.adjust with roundNum := 0 }
    else if 100 < a.roundNum then
      some (s.setAdjust a.clearSearch)
    else some (s.setAdjust a)

/- A time is gone when no next event of the list has it. -/
def timesLost
    (e : Event ℚ)
    (next : Option (Event ℚ)) : Int :=
  match next with
  | some next => if next.time ≠ e.time then 1 else 0
  | none => 1

/- Unlink the head `e` of bucket `lastbucket`. -/
def takeHead
    (s : CalendarScheduler)
    (e : Event ℚ) : CalendarScheduler :=
  let b := s.buckets s.lastbucket
  let others := Bucket.others b.list e
  let one := timesLost e others.head?
  { s.setBucket s.lastbucket ⟨others, b.count - one⟩ with
    statQsize := s.statQsize - one
    qsize := s.qsize - 1 }

def deque
    (sqrtWidth : Nat → ℚ)
    (s : CalendarScheduler) :
    Option (Option (Event ℚ) × CalendarScheduler) :=
  s.head.bind fun r =>
    match r.1 with
    | none => some (none, r.2)
    | some e =>
        (r.2.sampleGap sqrtWidth e).bind fun s =>
          let s := s.takeHead e
          if s.statQsize < s.botThreshold then
            (s.resize sqrtWidth (s.nbuckets / 2)
              s.calClock).map (some e, ·)
          else some (some e, s)

end CalendarScheduler

/- The calendar scheduler's virtual calls. -/
def calendarScheduler
    (sqrtWidth : Nat → ℚ) :
    Scheduler ℚ CalendarScheduler where
  insert := CalendarScheduler.insert sqrtWidth
  cancel := CalendarScheduler.cancel
  head := CalendarScheduler.head
  deque := CalendarScheduler.deque sqrtWidth

end Ns2
