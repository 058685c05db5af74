import Mathlib.Algebra.BigOperators.Group.Finset.Basic
import Mathlib.Algebra.Order.BigOperators.Group.Finset
import Ns2.Common.Calendar.Operations
import Ns2.Common.ListScheduler

/-
  The buckets of the calendar queue.

  A bucket's ring is the part of the list scheduler's queue
  that hashes to it, and its count is the number of distinct
  times in it.

  Main declarations:
    * `Bucket.distinct`
    * `Bucket.insert_spec`, `Bucket.insert2_spec`
    * `CalendarScheduler.Holds`
    * `CalendarScheduler.Holds.place`
    * `CalendarScheduler.Holds.remove`
-/

------------------------------------------------------------
-- Distinct Times
------------------------------------------------------------

namespace Ns2

namespace Bucket

/- The times in a ring. -/
def times (ring : List (Event ℚ)) : Finset ℚ :=
  (ring.map Event.time).toFinset

/- The number of distinct times in a ring. -/
def distinct (ring : List (Event ℚ)) : Int :=
  (times ring).card

theorem mem_times
    {t : ℚ}
    {ring : List (Event ℚ)} :
    t ∈ times ring ↔ ∃ x ∈ ring, x.time = t := by
  simp [times]

theorem times_perm
    {ring ring' : List (Event ℚ)}
    (hPerm : ring.Perm ring') :
    times ring = times ring' := by
  ext t
  simp only [mem_times, hPerm.mem_iff]

theorem distinct_cons
    (e : Event ℚ)
    (ring : List (Event ℚ)) :
    distinct (e :: ring) =
      distinct ring +
        if e.time ∈ times ring then 0 else 1 := by
  have hTimes :
      times (e :: ring) = Insert.insert e.time (times ring) := by
    simp [times]
  unfold distinct
  rw [hTimes]
  by_cases hMem : e.time ∈ times ring
  · rw [Finset.insert_eq_of_mem hMem, if_pos hMem]
    omega
  · rw [Finset.card_insert_of_notMem hMem, if_neg hMem]
    push_cast
    rfl

theorem distinct_perm_cons
    {e : Event ℚ}
    {ring ring' : List (Event ℚ)}
    (hPerm : ring'.Perm (e :: ring)) :
    distinct ring' =
      distinct ring +
        if e.time ∈ times ring then 0 else 1 := by
  rw [← distinct_cons, distinct, distinct,
    times_perm hPerm]

theorem distinct_nonneg (ring : List (Event ℚ)) :
    0 ≤ distinct ring :=
  Int.natCast_nonneg _

theorem distinct_pos_iff (ring : List (Event ℚ)) :
    0 < distinct ring ↔ ring ≠ [] := by
  cases ring with
  | nil => simp [distinct, times]
  | cons e ring => simp [distinct, times]

end Bucket

end Ns2

------------------------------------------------------------
-- Bucket Insertion
------------------------------------------------------------

namespace Ns2

namespace Bucket

/-
  Insertion into a ring in time order is the list
  scheduler's, and notices a time that is new to the ring.
-/
theorem insert_spec
    (ring : List (Event ℚ))
    (e : Event ℚ)
    (hSorted : SortedQueue.Sorted Event.time ring) :
    (insert ring e).list =
        SortedQueue.insert Event.time e ring ∧
      ((insert ring e).unique = true ↔
        e.time ∉ times ring) := by
  cases ring with
  | nil => simp [insert, SortedQueue.insert, times]
  | cons head rest =>
      by_cases hFirst : e.time < head.time
      · have hBack : ∀ x ∈ head :: rest,
            e.time < x.time := by
          intro x hx
          exact hFirst.trans_le (hSorted.head_le hx)
        rw [SortedQueue.insert_of_lt hBack]
        simp only [insert, if_pos hFirst, true_and,
          true_iff, mem_times, not_exists, not_and]
        intro x hx hEq
        exact absurd hEq (hBack x hx).ne'
      · simp only [insert, if_neg hFirst]
        -- The walk from the tail splits the ring in two.
        generalize hFront :
          (head :: rest).rdropWhile
            (fun x => decide (e.time < x.time)) = front
        generalize hPassed :
          (head :: rest).rtakeWhile
            (fun x => decide (e.time < x.time)) = passed
        have hSplit : front ++ passed = head :: rest := by
          rw [← hFront, ← hPassed,
            List.rdropWhile_append_rtakeWhile]
        have hLater : ∀ x ∈ passed, e.time < x.time := by
          intro x hx
          rw [← hPassed] at hx
          simpa using List.mem_rtakeWhile_imp hx
        have hNonempty : front ≠ [] := by
          rintro rfl
          rw [List.nil_append] at hSplit
          exact hFirst (hLater head (by simp [hSplit]))
        rcases List.eq_nil_or_concat front with
          hNil | ⟨before, after, hConcat⟩
        · exact absurd hNil hNonempty
        · rw [List.concat_eq_append] at hConcat
          have hAfter : after.time ≤ e.time := by
            have hLast :=
              List.rdropWhile_last_not
                (fun x : Event ℚ => decide (e.time < x.time))
                (head :: rest) (by rwa [hFront])
            simp only [hFront, hConcat] at hLast
            simpa using hLast
          rw [← hSplit, hConcat] at hSorted ⊢
          have hParts := List.pairwise_append.mp hSorted
          have hBefore : ∀ x ∈ before,
              x.time ≤ after.time := by
            intro x hx
            exact (List.pairwise_append.mp hParts.1).2.2
              x hx after (by simp)
          have hEarlier : ∀ x ∈ before ++ [after],
              x.time ≤ e.time := by
            intro x hx
            rcases List.mem_append.mp hx with hx | hx
            · exact (hBefore x hx).trans hAfter
            · rw [List.mem_singleton.mp hx]
              exact hAfter
          refine ⟨?_, ?_⟩
          · rw [SortedQueue.insert_split hEarlier hLater]
          · simp only [List.getLast?_append,
              List.getLast?_singleton, Option.some_or,
              decide_eq_true_eq, mem_times, not_exists,
              not_and]
            constructor
            · intro hLt x hx hEq
              rcases List.mem_append.mp hx with hx | hx
              · rcases List.mem_append.mp hx with hx | hx
                · exact ((hBefore x hx).trans_lt hLt).ne hEq
                · rw [List.mem_singleton.mp hx] at hEq
                  exact hLt.ne hEq
              · exact (hLater x hx).ne' hEq
            · intro hNew
              exact lt_of_le_of_ne hAfter
                (hNew after (by simp))

/- The events of a sorted ring that are not due earlier. -/
theorem le_of_mem_dropWhile
    {ring : List (Event ℚ)}
    {t : ℚ}
    (hSorted : SortedQueue.Sorted Event.time ring)
    {x : Event ℚ}
    (hx : x ∈ ring.dropWhile
      (fun y => decide (y.time < t))) :
    t ≤ x.time := by
  induction ring with
  | nil => simp at hx
  | cons y ys ih =>
      have hCons := List.pairwise_cons.mp hSorted
      by_cases hEarlier : y.time < t
      · rw [List.dropWhile_cons_of_pos (by simpa)] at hx
        exact ih hCons.2 hx
      · rw [List.dropWhile_cons_of_neg
          (by simpa using hEarlier)] at hx
        exact (not_lt.mp hEarlier).trans
          (hSorted.head_le hx)

/- Both branches of `insert2` split the ring at the time. -/
theorem insert2_list
    (ring : List (Event ℚ))
    (e : Event ℚ)
    (hSorted : SortedQueue.Sorted Event.time ring) :
    (insert2 ring e).1 =
      ring.takeWhile (fun x => decide (x.time < e.time)) ++
        e :: ring.dropWhile
          (fun x => decide (x.time < e.time)) := by
  cases ring with
  | nil => rfl
  | cons head rest =>
      simp only [insert2]
      split
      · next hTail =>
          have hAll : ∀ x ∈ head :: rest,
              decide (x.time < e.time) = true := by
            intro x hx
            have hLe := hSorted.le_getLast hx (by simp)
            simpa using hLe.trans_lt hTail
          rw [List.takeWhile_eq_self_iff.mpr hAll,
            List.dropWhile_eq_nil_iff.mpr hAll]
      · rfl

/- A time is new unless the first later event has it. -/
theorem insert2_unique
    (ring : List (Event ℚ))
    (e : Event ℚ)
    (hSorted : SortedQueue.Sorted Event.time ring) :
    (insert2 ring e).2 = true ↔ e.time ∉ times ring := by
  cases ring with
  | nil => simp [insert2, times]
  | cons head rest =>
      simp only [insert2, mem_times, not_exists, not_and]
      split
      · next hTail =>
          have hAll : ∀ x ∈ head :: rest,
              x.time < e.time := by
            intro x hx
            exact (hSorted.le_getLast hx (by simp)).trans_lt hTail
          simp only [decide_eq_true_eq]
          constructor
          · intro _ x hx
            exact (hAll x hx).ne
          · intro _
            exact (hAll head (by simp)).ne
      · next hTail =>
          have hSplit :=
            List.takeWhile_append_dropWhile
              (p := fun x : Event ℚ =>
                decide (x.time < e.time))
              (l := head :: rest)
          have hBack := fun x =>
            @le_of_mem_dropWhile _ e.time hSorted x
          have hFront : ∀ x ∈ (head :: rest).takeWhile
              (fun x => decide (x.time < e.time)),
              x.time < e.time := by
            intro x hx
            simpa using List.mem_takeWhile_imp hx
          revert hSplit hBack hFront
          generalize (head :: rest).takeWhile
            (fun x => decide (x.time < e.time)) = front
          generalize (head :: rest).dropWhile
            (fun x => decide (x.time < e.time)) = back
          intro hSplit hBack hFront
          cases back with
          | nil =>
              exfalso
              rw [List.append_nil] at hSplit
              rw [hSplit] at hFront
              exact hTail (hFront _ (List.getLast_mem _))
          | cons before back =>
              simp only [decide_eq_true_eq]
              rw [← hSplit] at hSorted ⊢
              constructor
              · intro hNe x hx hEq
                rcases List.mem_append.mp hx with hx | hx
                · exact (hFront x hx).ne hEq
                · have hLater : SortedQueue.Sorted
                      Event.time (before :: back) :=
                    (List.pairwise_append.mp hSorted).2.1
                  have hLe := hLater.head_le hx
                  have hGe := hBack before (by simp)
                  exact hNe
                    (le_antisymm (hLe.trans hEq.le) hGe)
              · intro hNew
                exact hNew before (by simp)

/-
  Insertion during a resize puts `e` in front of the events
  of its time, so it keeps the order by time and id when
  these all have greater ids.
-/
theorem insert2_spec
    (ring : List (Event ℚ))
    (e : Event ℚ)
    (hStamped :
      SortedQueue.Stamped Event.time Event.uid ring)
    (hTies : ∀ x ∈ ring, x.time = e.time → e.uid < x.uid) :
    SortedQueue.Stamped Event.time Event.uid
        (insert2 ring e).1 ∧
      (insert2 ring e).1.Perm (e :: ring) := by
  rw [insert2_list ring e hStamped.sorted]
  have hSplit :=
    @List.takeWhile_append_dropWhile _
      (fun x : Event ℚ => decide (x.time < e.time)) ring
  have hBack := fun x =>
    @le_of_mem_dropWhile _ e.time hStamped.sorted x
  have hFront : ∀ x ∈ ring.takeWhile
      (fun x => decide (x.time < e.time)),
      x.time < e.time := by
    intro x hx
    simpa using List.mem_takeWhile_imp hx
  revert hSplit hBack hFront
  generalize ring.takeWhile
    (fun x => decide (x.time < e.time)) = front
  generalize ring.dropWhile
    (fun x => decide (x.time < e.time)) = back
  rintro rfl hBack hFront
  have hParts := List.pairwise_append.mp hStamped
  refine ⟨?_, List.perm_middle⟩
  refine List.pairwise_append.mpr ⟨hParts.1, ?_, ?_⟩
  · refine List.pairwise_cons.mpr ⟨?_, hParts.2.1⟩
    intro x hx
    rcases (hBack x hx).lt_or_eq with hLt | hEq
    · exact Or.inl hLt
    · exact Or.inr ⟨hEq, hTies x (by simp [hx]) hEq.symm⟩
  · intro x hx y hy
    rcases List.mem_cons.mp hy with rfl | hy
    · exact Or.inl (hFront x hx)
    · exact hParts.2.2 x hx y hy

end Bucket

end Ns2

------------------------------------------------------------
-- Rings
------------------------------------------------------------

namespace Ns2

namespace Bucket

/- The ring after `e` wraps around to what is before `e`. -/
theorem others_split
    {e : Event ℚ}
    {front back : List (Event ℚ)}
    (hFront : e ∉ front) :
    others (front ++ e :: back) e = back ++ front := by
  have hNe : ∀ x ∈ front, decide (x ≠ e) = true := by
    intro x hx
    simp only [decide_eq_true_eq]
    rintro rfl
    exact hFront hx
  unfold others
  rw [List.dropWhile_append_of_pos hNe,
    List.takeWhile_append_of_pos hNe]
  simp

/- Looking at the two neighbours is enough. -/
theorem alone_iff
    {e : Event ℚ}
    {front back : List (Event ℚ)}
    (hStamped : SortedQueue.Stamped Event.time Event.uid
      (front ++ e :: back)) :
    alone (front ++ e :: back) e = true ↔
      e.time ∉ times (front ++ back) := by
  have hNodup := hStamped.nodup
  have hFront : e ∉ front := by
    intro hMem
    exact (List.nodup_append.mp hNodup).2.2
      e hMem e (by simp) rfl
  have hParts := hStamped.split
  have hBackSorted : SortedQueue.Sorted Event.time back :=
    (List.pairwise_cons.mp
      (List.pairwise_append.mp
        hStamped.sorted).2.1).2
  have hFrontSorted : SortedQueue.Sorted Event.time front :=
    (List.pairwise_append.mp hStamped.sorted).1
  unfold alone
  rw [others_split hFront]
  simp only [mem_times, not_exists, not_and]
  cases hHead : (back ++ front).head? with
  | none =>
      have hNil : back ++ front = [] := by simpa using hHead
      have hBoth := List.append_eq_nil_iff.mp hNil
      simp [hBoth.1, hBoth.2]
  | some next =>
      cases hLast : (back ++ front).getLast? with
      | none => simp_all
      | some prev =>
          have hNext : next ∈ front ++ back := by
            have hMem := List.mem_of_mem_head? hHead
            simpa [or_comm] using hMem
          have hPrev : prev ∈ front ++ back := by
            have hMem := List.mem_of_getLast? hLast
            simpa [or_comm] using hMem
          simp only [decide_eq_true_eq]
          constructor
          · rintro ⟨hNextNe, hPrevNe⟩ x hx hEq
            rcases List.mem_append.mp hx with hx | hx
            · have hSome : front.getLast? = some prev := by
                cases front with
                | nil => simp at hx
                | cons y ys => simpa using hLast
              have hMem := List.mem_of_getLast? hSome
              have hLe : x.time ≤ prev.time := by
                rcases List.getLast?_eq_some_iff.mp hSome
                  with ⟨init, rfl⟩
                have hGe := hFrontSorted.le_getLast hx
                  (by simp)
                simpa using hGe
              exact hPrevNe (le_antisymm
                (hParts.1 prev hMem).le (hEq.ge.trans hLe))
            · cases back with
              | nil => simp at hx
              | cons y ys =>
                  have hy : y = next := by simpa using hHead
                  subst hy
                  have hLe := hBackSorted.head_le hx
                  exact hNextNe (le_antisymm
                    (hLe.trans hEq.le)
                    (hParts.2 y (by simp)).le)
          · intro hNew
            exact ⟨hNew next hNext, hNew prev hPrev⟩

end Bucket

end Ns2

------------------------------------------------------------
-- The Queue in Buckets
------------------------------------------------------------

namespace Ns2

namespace CalendarScheduler

/- The events of a bucket. -/
def inBucket
    (s : CalendarScheduler)
    (i : Nat)
    (e : Event ℚ) : Bool :=
  decide (s.calendarHash e.time = i)

/-
  The calendar holds a queue: the ring of each bucket is the
  part of the queue that hashes to it, and the calendar
  clock is not past any event.
-/
structure Holds
    (queue : List (Event ℚ))
    (s : CalendarScheduler) : Prop where
  nbuckets_ge : 4 ≤ s.nbuckets
  width_pos : 0 < s.width
  diff0_eq : s.diff0 = s.width * s.nbuckets / 2
  diff1_eq : s.diff1 = s.width * s.nbuckets / 2 + s.width
  diff2_eq : s.diff2 = s.width * s.nbuckets
  lastbucket_eq : s.lastbucket = s.calendarHash s.calClock
  clock_nonneg : 0 ≤ s.calClock
  clock_le : ∀ e ∈ queue, s.calClock ≤ e.time
  bucket_list : ∀ i < s.nbuckets,
    (s.buckets i).list = queue.filter (s.inBucket i)
  bucket_count : ∀ i < s.nbuckets,
    (s.buckets i).count =
      Bucket.distinct (s.buckets i).list
  stat_eq : s.statQsize =
    ∑ i ∈ Finset.range s.nbuckets, (s.buckets i).count
  qsize_eq : s.qsize = queue.length

variable {queue : List (Event ℚ)} {s : CalendarScheduler}

theorem Holds.hash_lt
    (hHolds : Holds queue s)
    (t : ℚ) :
    s.calendarHash t < s.nbuckets :=
  Nat.mod_lt _ (by have := hHolds.nbuckets_ge; omega)

/- The count of one bucket changes the sum of the counts. -/
theorem sum_setBucket
    (s : CalendarScheduler)
    {n i : Nat}
    (hi : i < n)
    (b : Bucket) :
    ∑ j ∈ Finset.range n, ((s.setBucket i b).buckets j).count =
      ∑ j ∈ Finset.range n, (s.buckets j).count +
        (b.count - (s.buckets i).count) := by
  have hMem : i ∈ Finset.range n := Finset.mem_range.mpr hi
  rw [← Finset.add_sum_erase _ _ hMem,
    ← Finset.add_sum_erase _ (fun j => (s.buckets j).count)
      hMem]
  have hRest :
      ∑ j ∈ (Finset.range n).erase i,
          ((s.setBucket i b).buckets j).count =
        ∑ j ∈ (Finset.range n).erase i,
          (s.buckets j).count := by
    refine Finset.sum_congr rfl ?_
    intro j hj
    simp [setBucket, Finset.ne_of_mem_erase hj]
  rw [hRest]
  simp only [setBucket, Function.update_self]
  omega

/- The clock may move to any time before all events. -/
theorem Holds.moveClock
    (hHolds : Holds queue s)
    {t : ℚ}
    (hNonneg : 0 ≤ t)
    (hLe : ∀ e ∈ queue, t ≤ e.time) :
    Holds queue
      { s with
        calClock := t
        lastbucket := s.calendarHash t } :=
  { hHolds with
    lastbucket_eq := rfl
    clock_nonneg := hNonneg
    clock_le := hLe }

/- Changing the events of one bucket. -/
theorem Holds.change
    (hHolds : Holds queue s)
    {queue' ring : List (Event ℚ)}
    {i qsize : Nat}
    {count stat : Int}
    (a : Adjust)
    (hi : i < s.nbuckets)
    (hClock : ∀ e ∈ queue', s.calClock ≤ e.time)
    (hOther : ∀ j, j ≠ i →
      queue'.filter (s.inBucket j) =
        queue.filter (s.inBucket j))
    (hRing : ring = queue'.filter (s.inBucket i))
    (hCount : count = Bucket.distinct ring)
    (hStat : stat =
      s.statQsize + (count - (s.buckets i).count))
    (hSize : qsize = queue'.length) :
    Holds queue'
      { s.setBucket i ⟨ring, count⟩ with
        adjust := a
        statQsize := stat
        qsize := qsize } where
  nbuckets_ge := hHolds.nbuckets_ge
  width_pos := hHolds.width_pos
  diff0_eq := hHolds.diff0_eq
  diff1_eq := hHolds.diff1_eq
  diff2_eq := hHolds.diff2_eq
  lastbucket_eq := hHolds.lastbucket_eq
  clock_nonneg := hHolds.clock_nonneg
  clock_le := hClock
  bucket_list := by
    intro j hj
    by_cases hEq : j = i
    · subst hEq
      simp only [setBucket, Function.update_self]
      exact hRing
    · simp only [setBucket, Function.update_of_ne hEq]
      rw [hHolds.bucket_list j hj]
      exact (hOther j hEq).symm
  bucket_count := by
    intro j hj
    by_cases hEq : j = i
    · subst hEq
      simp only [setBucket, Function.update_self]
      exact hCount
    · simp only [setBucket, Function.update_of_ne hEq]
      exact hHolds.bucket_count j hj
  stat_eq := by
    change stat = ∑ j ∈ Finset.range s.nbuckets,
      ((s.setBucket i ⟨ring, count⟩).buckets j).count
    rw [sum_setBucket s hi, hStat, hHolds.stat_eq]
  qsize_eq := hSize

/- Insertion into a bucket is insertion into the queue. -/
theorem Holds.place
    (hHolds : Holds queue s)
    (hSorted : SortedQueue.Sorted Event.time queue)
    {e : Event ℚ}
    (hNonneg : 0 ≤ e.time) :
    Holds (SortedQueue.insert Event.time e queue)
      (s.place e) := by
  -- Moving the clock back leaves the buckets alone.
  have hMoved : ∃ s₁ : CalendarScheduler,
      s₁ = (if e.time < s.calClock then
        { s with
          calClock := e.time
          lastbucket := s.calendarHash e.time }
        else s) ∧
      Holds queue s₁ ∧ s₁.calClock ≤ e.time := by
    refine ⟨_, rfl, ?_⟩
    split
    · next hBack =>
        refine ⟨hHolds.moveClock hNonneg ?_, le_rfl⟩
        intro x hx
        exact hBack.le.trans (hHolds.clock_le x hx)
    · next hFront => exact ⟨hHolds, not_lt.mp hFront⟩
  rcases hMoved with ⟨s₁, hEq, hHolds₁, hClock⟩
  unfold CalendarScheduler.place
  rw [← hEq]
  have hi := hHolds₁.hash_lt e.time
  have hRing := hHolds₁.bucket_list _ hi
  have hInsert := Bucket.insert_spec
    (s₁.buckets (s₁.calendarHash e.time)).list e
    (by rw [hRing]; exact hSorted.filter _)
  have hSelf : s₁.inBucket (s₁.calendarHash e.time) e =
      true := by
    simp [inBucket]
  refine hHolds₁.change _ hi ?_ ?_ ?_ ?_ ?_ ?_
  · intro x hx
    rcases SortedQueue.mem_insert.mp hx with rfl | hx
    · exact hClock
    · exact hHolds₁.clock_le x hx
  · intro j hj
    have hNot : ¬ s₁.inBucket j e = true := by
      simpa [inBucket] using Ne.symm hj
    rw [SortedQueue.filter_insert hSorted, if_neg hNot]
  · rw [hInsert.1, SortedQueue.filter_insert hSorted,
      if_pos hSelf, hRing]
  · rw [hInsert.1, Bucket.distinct_perm_cons
      (SortedQueue.insert_perm Event.time e _),
      hHolds₁.bucket_count _ hi]
    by_cases hNew : e.time ∈ Bucket.times
        (s₁.buckets (s₁.calendarHash e.time)).list
    · rw [if_pos hNew, if_neg (by simp [hInsert.2, hNew])]
    · rw [if_neg hNew, if_pos (hInsert.2.mpr hNew)]
  · omega
  · rw [SortedQueue.length_insert, hHolds₁.qsize_eq]

/- Removal from a bucket is removal from the queue. -/
theorem Holds.remove
    (hHolds : Holds queue s)
    (hNodup : queue.Nodup)
    {e : Event ℚ}
    (hMem : e ∈ queue)
    {ring : List (Event ℚ)}
    {count stat one : Int}
    {qsize : Nat}
    (hRing : ring =
      (s.buckets (s.calendarHash e.time)).list.erase e)
    (hOne : one =
      if e.time ∈ Bucket.times ring then 0 else 1)
    (hCount : count =
      (s.buckets (s.calendarHash e.time)).count - one)
    (hStat : stat = s.statQsize - one)
    (hSize : qsize = s.qsize - 1) :
    Holds (queue.erase e)
      { s.setBucket (s.calendarHash e.time)
          ⟨ring, count⟩ with
        statQsize := stat
        qsize := qsize } := by
  have hi := hHolds.hash_lt e.time
  have hList := hHolds.bucket_list _ hi
  have hSelf : s.inBucket (s.calendarHash e.time) e =
      true := by
    simp [inBucket]
  have hInRing :
      e ∈ (s.buckets (s.calendarHash e.time)).list := by
    rw [hList]
    exact List.mem_filter.mpr ⟨hMem, hSelf⟩
  refine hHolds.change s.adjust hi ?_ ?_ ?_ ?_ ?_ ?_
  · intro x hx
    exact hHolds.clock_le x (List.mem_of_mem_erase hx)
  · intro j hj
    rw [hNodup.erase_eq_filter, List.filter_filter]
    refine List.filter_congr ?_
    intro x hx
    by_cases hEq : x = e
    · have hNot : s.inBucket j x = false := by
        simpa [inBucket, hEq] using Ne.symm hj
      simp [hNot]
    · simp [hEq]
  · rw [hRing, hList, hNodup.erase_eq_filter,
      (hNodup.filter _).erase_eq_filter, List.filter_filter,
      List.filter_filter]
    refine List.filter_congr ?_
    intro x _
    exact Bool.and_comm _ _
  · have hDistinct := Bucket.distinct_perm_cons
      (List.perm_cons_erase hInRing)
    rw [← hRing] at hDistinct
    rw [hCount, hHolds.bucket_count _ hi, hDistinct, hOne]
    split <;> omega
  · omega
  · rw [hSize, hHolds.qsize_eq,
      List.length_erase_of_mem hMem]

end CalendarScheduler

end Ns2
