import Ns2.Common.Calendar.Resize
import Ns2.Common.Calendar.Search

/-
  The calendar queue refines the list scheduler.

  Main declarations:
    * `CalendarScheduler.simulates_listScheduler`
    * `CalendarScheduler.calendar_refines_list`
-/

------------------------------------------------------------
-- Insert and Cancel
------------------------------------------------------------

namespace Ns2

namespace CalendarScheduler

variable {queue : List (Event ℚ)} {s : CalendarScheduler}

/- The empty calendar. -/
theorem holds_new
    (minBinWidth : ℚ)
    (interval : Nat)
    (junk : Adjust) :
    Holds [] (new minBinWidth interval junk) :=
  holds_reinit _ le_rfl one_pos le_rfl

/- Insertion, with any resize it sets off. -/
theorem Holds.insert
    (hHolds : Holds queue s)
    {sqrtWidth : Nat → ℚ}
    (hSqrt : ∀ k, 0 < sqrtWidth k)
    {e : Event ℚ}
    (hNonneg : 0 ≤ e.time)
    (hStamped :
      SortedQueue.Stamped Event.time Event.uid queue)
    (hNew : ∀ x ∈ queue, x.uid < e.uid) :
    ∃ s', s.insert sqrtWidth e = some s' ∧
      Holds (ListScheduler.insert Event.time e queue) s' := by
  have hPlaced := hHolds.place hStamped.sorted hNonneg
  rw [← ListScheduler.insert_eq] at hPlaced
  have hStamped' :
      SortedQueue.Stamped Event.time Event.uid
        (ListScheduler.insert Event.time e queue) := by
    rw [ListScheduler.insert_eq]
    exact hStamped.insert e hNew
  unfold CalendarScheduler.insert
  simp only
  split
  · have hSize : 0 < (s.place e).nbuckets * 2 := by
      have := hPlaced.nbuckets_ge
      omega
    rcases hPlaced.resize hStamped' hSqrt hSize with
      ⟨s', hResize, hHolds', _⟩
    exact ⟨s', hResize, hHolds'⟩
  · exact ⟨_, rfl, hPlaced⟩

/- The parts of a queue around a queued event. -/
theorem exists_split
    {ring : List (Event ℚ)}
    {e : Event ℚ}
    (hNodup : ring.Nodup)
    (hMem : e ∈ ring) :
    ∃ front back, ring = front ++ e :: back ∧
      e ∉ front ∧ ring.erase e = front ++ back := by
  rcases List.append_of_mem hMem with ⟨front, back, rfl⟩
  have hFront : e ∉ front := by
    intro hIn
    exact (List.nodup_append.mp hNodup).2.2
      e hIn e (by simp) rfl
  refine ⟨front, back, rfl, hFront, ?_⟩
  rw [List.erase_append_right _ hFront, List.erase_cons_head]

theorem Holds.count_nonneg
    (hHolds : Holds queue s)
    {i : Nat}
    (hi : i < s.nbuckets) :
    0 ≤ (s.buckets i).count := by
  rw [hHolds.bucket_count i hi]
  exact Bucket.distinct_nonneg _

theorem Holds.stat_nonneg
    (hHolds : Holds queue s) :
    0 ≤ s.statQsize := by
  rw [hHolds.stat_eq]
  refine Finset.sum_nonneg ?_
  intro i hi
  exact hHolds.count_nonneg (Finset.mem_range.mp hi)

/- Cancelling a queued event; no assertion fails. -/
theorem Holds.cancel
    (hHolds : Holds queue s)
    (hStamped :
      SortedQueue.Stamped Event.time Event.uid queue)
    {e : Event ℚ}
    (hPos : 0 < e.uid)
    (hMem : e ∈ queue) :
    ∃ s', s.cancel e = some s' ∧
      Holds (queue.erase e) s' := by
  have hi := hHolds.hash_lt e.time
  have hList := hHolds.bucket_list _ hi
  have hCount := hHolds.bucket_count _ hi
  have hRing :
      SortedQueue.Stamped Event.time Event.uid
        (s.buckets (s.calendarHash e.time)).list := by
    rw [hList]
    exact List.Pairwise.filter _ hStamped
  have hIn : e ∈ (s.buckets (s.calendarHash e.time)).list := by
    rw [hList]
    exact List.mem_filter.mpr ⟨hMem, by simp [inBucket]⟩
  rcases exists_split hRing.nodup hIn with
    ⟨front, back, hSplit, hFront, hErase⟩
  have hAlone : Bucket.alone
      (s.buckets (s.calendarHash e.time)).list e = true ↔
        e.time ∉ Bucket.times ((s.buckets
          (s.calendarHash e.time)).list.erase e) := by
    rw [hErase, hSplit]
    exact Bucket.alone_iff (hSplit ▸ hRing)
  -- Unlinking leaves the ring without `e`.
  have hUnlink :
      (if (s.buckets (s.calendarHash e.time)).list.head? =
          some e
        then Bucket.others
          (s.buckets (s.calendarHash e.time)).list e
        else (s.buckets
          (s.calendarHash e.time)).list.erase e) =
        (s.buckets (s.calendarHash e.time)).list.erase e := by
    split
    · next hHead =>
        rw [hErase, hSplit, Bucket.others_split hFront]
        rw [hSplit] at hHead
        cases front with
        | nil => simp
        | cons x front =>
            have hx : x = e := by simpa using hHead
            exact absurd (by simp [hx]) hFront
    · rfl
  have hOne :
      (if Bucket.alone
          (s.buckets (s.calendarHash e.time)).list e = true
        then (1 : Int) else 0) =
        if e.time ∈ Bucket.times ((s.buckets
          (s.calendarHash e.time)).list.erase e)
        then 0 else 1 := by
    by_cases hOld : e.time ∈ Bucket.times ((s.buckets
        (s.calendarHash e.time)).list.erase e)
    · rw [if_pos hOld, if_neg (by simp [hAlone, hOld])]
    · rw [if_neg hOld, if_pos (hAlone.mpr hOld)]
  have hRemoved := hHolds.remove hStamped.nodup hMem
    rfl hOne rfl rfl rfl
  have hStat := hRemoved.stat_nonneg
  have hNonneg := hRemoved.count_nonneg hi
  have hEmpty := hRemoved.bucket_count _ hi
  simp only [setBucket, Function.update_self] at hNonneg hEmpty
  unfold CalendarScheduler.cancel
  rw [if_neg (by omega)]
  simp only
  rw [if_neg (by simpa using hIn), hUnlink, if_neg, if_neg]
  · exact ⟨_, rfl, hRemoved⟩
  · rintro ⟨hZero, hNe⟩
    rw [hZero] at hEmpty
    exact absurd ((Bucket.distinct_pos_iff _).mpr hNe)
      (by omega)
  · rintro ⟨_, hNeg | hNeg⟩
    · exact absurd hStat (not_le.mpr hNeg)
    · exact absurd hNonneg (not_le.mpr hNeg)

end CalendarScheduler

end Ns2

------------------------------------------------------------
-- Head and Deque
------------------------------------------------------------

namespace Ns2

namespace CalendarScheduler

variable {queue : List (Event ℚ)} {s : CalendarScheduler}

theorem Holds.head_nil
    (hHolds : Holds [] s) :
    s.head = some (none, s) :=
  if_pos hHolds.qsize_eq

/- The head is the first event; the clock moves to it. -/
theorem Holds.head_cons
    {e : Event ℚ}
    {rest : List (Event ℚ)}
    (hHolds : Holds (e :: rest) s)
    (hSorted : SortedQueue.Sorted Event.time (e :: rest)) :
    ∃ s', s.head = some (some e, s') ∧
      Holds (e :: rest) s' ∧ s'.calClock = e.time := by
  rcases hHolds.search hSorted with ⟨f, hSearch, rfl, hl⟩
  have hSize : s.qsize ≠ 0 := by
    rw [hHolds.qsize_eq]
    simp
  have hMoved :=
    (hHolds.setAdjust
      { s.adjust with headSearch := f.headSearch }).moveClock
        (hHolds.event_nonneg (by simp))
        (fun x hx => hSorted.head_le hx)
  refine ⟨_, ?_, hMoved, rfl⟩
  unfold CalendarScheduler.head
  rw [if_neg hSize, hSearch, Option.bind_some, hl]
  rfl

/- Sampling the gap may resize, and keeps the queue. -/
theorem Holds.sampleGap
    (hHolds : Holds queue s)
    (hStamped :
      SortedQueue.Stamped Event.time Event.uid queue)
    {sqrtWidth : Nat → ℚ}
    (hSqrt : ∀ k, 0 < sqrtWidth k)
    (e : Event ℚ) :
    ∃ s', s.sampleGap sqrtWidth e = some s' ∧
      Holds queue s' ∧ s'.calClock = s.calClock := by
  unfold CalendarScheduler.sampleGap
  split
  · exact ⟨s, rfl, hHolds, rfl⟩
  · split
    · exact ⟨_, rfl, hHolds.setAdjust _, rfl⟩
    · split
      · exact ⟨_, rfl, hHolds.setAdjust _, rfl⟩
      · simp only
        split
        · have hSize : 0 < s.nbuckets := by
            have := hHolds.nbuckets_ge
            omega
          have hClosed := hHolds.setAdjust
            (s.adjust.closeWindow e.time)
          rcases hClosed.resize hStamped hSqrt hSize with
            ⟨s', hResize, hHolds', hClock⟩
          exact ⟨_, congrArg (Option.map _) hResize,
            hHolds'.setAdjust _, hClock⟩
        · split
          · exact ⟨_, rfl, hHolds.setAdjust _, rfl⟩
          · exact ⟨_, rfl, hHolds.setAdjust _, rfl⟩

/- Unlinking the first event, once the clock is there. -/
theorem Holds.takeHead
    {e : Event ℚ}
    {rest : List (Event ℚ)}
    (hHolds : Holds (e :: rest) s)
    (hStamped :
      SortedQueue.Stamped Event.time Event.uid (e :: rest))
    (hClock : s.calClock = e.time) :
    Holds rest (s.takeHead e) := by
  have hl : s.lastbucket = s.calendarHash e.time := by
    rw [hHolds.lastbucket_eq, hClock]
  have hi := hHolds.hash_lt e.time
  have hList := hHolds.bucket_list _ hi
  rw [List.filter_cons_of_pos (by simp [inBucket])] at hList
  have hOthers : Bucket.others
      (s.buckets (s.calendarHash e.time)).list e =
        (s.buckets
          (s.calendarHash e.time)).list.erase e := by
    rw [hList, List.erase_cons_head]
    simpa using @Bucket.others_split e []
      (rest.filter (s.inBucket (s.calendarHash e.time)))
      (by simp)
  have hSorted : SortedQueue.Sorted Event.time
      (s.buckets (s.calendarHash e.time)).list := by
    rw [hHolds.bucket_list _ hi]
    exact hStamped.sorted.filter _
  -- The next event tells whether the time of `e` remains.
  have hOne :
      timesLost e (Bucket.others
        (s.buckets (s.calendarHash e.time)).list e).head? =
        if e.time ∈ Bucket.times (Bucket.others
          (s.buckets (s.calendarHash e.time)).list e)
        then 0 else 1 := by
    rw [hOthers]
    rw [hList] at hSorted ⊢
    rw [List.erase_cons_head]
    cases hRing :
        rest.filter (s.inBucket (s.calendarHash e.time)) with
    | nil => simp [timesLost, Bucket.times]
    | cons next ring =>
        rw [hRing] at hSorted
        have hCons := List.pairwise_cons.mp hSorted
        simp only [timesLost, List.head?_cons]
        by_cases hSame : next.time = e.time
        · rw [if_neg (by simpa using hSame), if_pos]
          exact Bucket.mem_times.mpr
            ⟨next, by simp, hSame⟩
        · rw [if_pos hSame, if_neg]
          intro hIn
          rcases Bucket.mem_times.mp hIn with ⟨x, hx, hEq⟩
          have hLater : SortedQueue.Sorted Event.time
              (next :: ring) := hCons.2
          exact hSame (le_antisymm
            ((hLater.head_le hx).trans hEq.le)
            (hCons.1 next (by simp)))
  have hRemoved := hHolds.remove hStamped.nodup
    (e := e) (by simp) hOthers hOne rfl rfl rfl
  rw [List.erase_cons_head] at hRemoved
  unfold CalendarScheduler.takeHead
  rw [hl]
  exact hRemoved

/- Deque answers the first event and removes exactly it. -/
theorem Holds.deque_cons
    {e : Event ℚ}
    {rest : List (Event ℚ)}
    (hHolds : Holds (e :: rest) s)
    (hStamped :
      SortedQueue.Stamped Event.time Event.uid (e :: rest))
    {sqrtWidth : Nat → ℚ}
    (hSqrt : ∀ k, 0 < sqrtWidth k) :
    ∃ s', s.deque sqrtWidth = some (some e, s') ∧
      Holds rest s' := by
  rcases hHolds.head_cons hStamped.sorted with
    ⟨s₁, hHead, hHolds₁, hClock₁⟩
  rcases hHolds₁.sampleGap hStamped hSqrt e with
    ⟨s₂, hSample, hHolds₂, hClock₂⟩
  have hHolds₃ := hHolds₂.takeHead hStamped
    (hClock₂.trans hClock₁)
  have hRest :
      SortedQueue.Stamped Event.time Event.uid rest :=
    (List.pairwise_cons.mp hStamped).2
  unfold CalendarScheduler.deque
  rw [hHead, Option.bind_some]
  simp only [hSample, Option.bind_some]
  split
  · have hSize : 0 < (s₂.takeHead e).nbuckets / 2 := by
      have := hHolds₃.nbuckets_ge
      omega
    rcases hHolds₃.resize hRest hSqrt hSize with
      ⟨s', hResize, hHolds', _⟩
    rw [hResize]
    exact ⟨s', rfl, hHolds'⟩
  · exact ⟨_, rfl, hHolds₃⟩

end CalendarScheduler

end Ns2

------------------------------------------------------------
-- Refinement
------------------------------------------------------------

namespace Ns2

namespace CalendarScheduler

/- The list scheduler's queue and a calendar that holds it. -/
structure Refines
    (uid : Int)
    (queue : List (Event ℚ))
    (s : CalendarScheduler) : Prop where
  wf : ListScheduler.Wf uid queue
  holds : Holds queue s

/- Call by call, the calendar simulates the list. -/
theorem simulates_listScheduler
    {sqrtWidth : Nat → ℚ}
    (hSqrt : ∀ k, 0 < sqrtWidth k) :
    Scheduler.Simulates (listScheduler ℚ)
      (calendarScheduler sqrtWidth)
      (fun t => 0 ≤ t) Refines where
  insert := by
    intro uid uid' queue s t queue' hRef hUid hNonneg hCall
    cases hCall
    rcases hRef.holds.insert hSqrt
        (e := ⟨t, uid'⟩) hNonneg hRef.wf.stamped
        (fun x hx => (hRef.wf.uids x hx).2.trans_le hUid)
      with ⟨s', hInsert, hHolds⟩
    exact ⟨s', hInsert, hRef.wf.insert hUid t, hHolds⟩
  cancel := by
    intro uid queue s e queue' hRef hCall
    rcases (ListScheduler.cancel_eq_some_iff
        queue queue' e).mp hCall with
      ⟨hUid, rfl⟩ | ⟨hPos, hMem, rfl⟩
    · refine ⟨s, ?_, hRef⟩
      exact if_pos hUid
    · rcases hRef.holds.cancel hRef.wf.stamped hPos hMem
        with ⟨s', hCancel, hHolds⟩
      exact ⟨s', hCancel, hRef.wf.erase e, hHolds⟩
  head := by
    intro uid queue s r hRef hCall
    cases hCall
    cases queue with
    | nil => exact ⟨s, hRef.holds.head_nil, hRef⟩
    | cons e rest =>
        rcases hRef.holds.head_cons hRef.wf.stamped.sorted
          with ⟨s', hHead, hHolds, _⟩
        exact ⟨s', hHead, hRef.wf, hHolds⟩
  deque := by
    intro uid queue s r hRef hCall
    cases hCall
    cases queue with
    | nil =>
        refine ⟨s, ?_, hRef⟩
        change s.deque sqrtWidth = _
        rw [CalendarScheduler.deque, hRef.holds.head_nil]
        rfl
    | cons e rest =>
        rcases hRef.holds.deque_cons hRef.wf.stamped hSqrt
          with ⟨s', hDeque, hHolds⟩
        exact ⟨s', hDeque, hRef.wf.deque, hHolds⟩

/-
  Every sequence of calls that the list scheduler completes,
  with times that are not negative, is completed by the
  calendar with the same answers, whatever positive widths
  its square roots yield.  No event is lost or duplicated,
  and head and deque answer the first event by time and id.
-/
theorem calendar_refines_list
    (sqrtWidth : Nat → ℚ)
    (hSqrt : ∀ k, 0 < sqrtWidth k)
    (minBinWidth : ℚ)
    (interval : Nat)
    (junk : Adjust)
    (ops : List (SchedOp ℚ))
    (hTimes : ∀ taken t, .schedule taken t ∈ ops → 0 ≤ t)
    (uid : Int)
    (queue : List (Event ℚ))
    (answers : List (Option (Event ℚ)))
    (hRun :
      (listScheduler ℚ).run (1, []) ops =
        some ((uid, queue), answers)) :
    ∃ s : CalendarScheduler,
      (calendarScheduler sqrtWidth).run
          (1, new minBinWidth interval junk) ops =
        some ((uid, s), answers) ∧
      s.moved.Perm queue ∧
      s.qsize = queue.length ∧
      queue.Pairwise
        (SortedQueue.Before Event.time Event.uid) ∧
      s.head.map Prod.fst = some queue.head? ∧
      ∃ s' : CalendarScheduler,
        s.deque sqrtWidth = some (queue.head?, s') ∧
          s'.moved.Perm queue.tail := by
  rcases (simulates_listScheduler hSqrt).run
      ⟨ListScheduler.wf_nil,
        holds_new minBinWidth interval junk⟩
      hTimes hRun with
    ⟨s, hRun', hRef⟩
  have hStamped := hRef.wf.stamped
  refine ⟨s, hRun', hRef.holds.moved_perm hStamped,
    hRef.holds.qsize_eq, hStamped, ?_, ?_⟩
  · cases queue with
    | nil => rw [hRef.holds.head_nil]; rfl
    | cons e rest =>
        rcases hRef.holds.head_cons hStamped.sorted with
          ⟨s', hHead, _⟩
        rw [hHead]
        rfl
  · rcases (simulates_listScheduler hSqrt).deque hRef rfl
      with ⟨s', hDeque, hRef'⟩
    have hPerm := hRef'.holds.moved_perm hRef'.wf.stamped
    refine ⟨s', ?_, ?_⟩
    · cases queue <;> exact hDeque
    · cases queue <;> exact hPerm

/- An insertion in front of the head just looked at. -/
theorem calendar_refines_list_earlier :
    ∃ s : CalendarScheduler,
      (calendarScheduler (fun _ => 1)).run
          (1, new 1 10 ⟨0, 0, 0, 0, 0, 0, 0⟩)
          [.schedule 0 5, .schedule 0 3, .head,
            .schedule 2 1, .deque, .cancel ⟨5, 1⟩] =
        some ((6, s), [none, none, some ⟨3, 2⟩, none,
          some ⟨1, 5⟩, none]) ∧
      s.moved.Perm [⟨3, 2⟩] := by
  have hTimes : ∀ taken t, SchedOp.schedule taken t ∈
      ([.schedule 0 5, .schedule 0 3, .head,
        .schedule 2 1, .deque, .cancel ⟨5, 1⟩] :
        List (SchedOp ℚ)) → 0 ≤ t := by
    intro taken t hMem
    have hCases : t = 5 ∨ t = 3 ∨ t = 1 := by
      simp at hMem
      tauto
    rcases hCases with rfl | rfl | rfl <;> norm_num
  rcases calendar_refines_list (fun _ => 1)
      (fun _ => one_pos) 1 10 ⟨0, 0, 0, 0, 0, 0, 0⟩
      [.schedule 0 5, .schedule 0 3, .head,
        .schedule 2 1, .deque, .cancel ⟨5, 1⟩]
      hTimes 6 [⟨3, 2⟩]
      [none, none, some ⟨3, 2⟩, none, some ⟨1, 5⟩, none]
      (by decide) with
    ⟨s, hRun, hPerm, _⟩
  exact ⟨s, hRun, hPerm⟩

end CalendarScheduler

end Ns2
