import Mathlib.Tactic.Positivity
import Ns2.Common.Calendar.Buckets

/-
  Resizing the calendar queue.

  Old buckets are emptied from their tails, so the events of
  one time arrive in decreasing order of ids, and `insert2`
  puts each in front of the ones before it.  While events
  are moved the calendar holds the part of the queue that
  has arrived.

  Main declarations:
    * `CalendarScheduler.Holds.newwidth`
    * `CalendarScheduler.Holds.rehash`
    * `CalendarScheduler.Holds.resize`
-/

------------------------------------------------------------
-- New Widths
------------------------------------------------------------

namespace Ns2

namespace CalendarScheduler

variable {queue : List (Event ℚ)} {s : CalendarScheduler}

theorem maxBucket_lt
    (s : CalendarScheduler)
    {n : Nat}
    (hPos : 0 < n) :
    s.maxBucket n < n := by
  induction n with
  | zero => omega
  | succ n ih =>
      unfold maxBucket
      simp only
      split
      · omega
      · rcases Nat.eq_zero_or_pos n with rfl | hn
        · exact Nat.one_pos
        · have := ih hn
          omega

/- More than one time in a ring means a positive span. -/
theorem span_pos
    {ring : List (Event ℚ)}
    {first last : Event ℚ}
    (hSorted : SortedQueue.Sorted Event.time ring)
    (hHead : ring.head? = some first)
    (hLast : ring.getLast? = some last)
    (hMany : 1 < Bucket.distinct ring) :
    0 < last.time - first.time := by
  by_contra hNot
  have hLe : last.time ≤ first.time := by linarith
  have hAll : Bucket.times ring ⊆ {first.time} := by
    intro t ht
    rcases Bucket.mem_times.mp ht with ⟨x, hx, rfl⟩
    rcases List.getLast?_eq_some_iff.mp hLast with
      ⟨init, hInit⟩
    rcases List.head?_eq_some_iff.mp hHead with
      ⟨rest, hRest⟩
    have hUpper : x.time ≤ last.time := by
      have hGe := hSorted.le_getLast hx (by simp [hRest])
      simpa [hInit] using hGe
    have hLower : first.time ≤ x.time := by
      rw [hRest] at hSorted hx
      exact hSorted.head_le hx
    exact Finset.mem_singleton.mpr
      (le_antisymm (hUpper.trans hLe) hLower)
  have hCard := Finset.card_le_card hAll
  rw [Finset.card_singleton] at hCard
  unfold Bucket.distinct at hMany
  omega

/- A width from samples is positive. -/
theorem Holds.sampleWidth
    (hHolds : Holds queue s)
    (hSorted : SortedQueue.Sorted Event.time queue)
    {newsize : Nat}
    (hSize : 0 < newsize) :
    ∃ bwidth, s.sampleWidth newsize = some bwidth ∧
      0 < bwidth := by
  have hPos : 0 < s.nbuckets := by
    have := hHolds.nbuckets_ge
    omega
  have hMax := s.maxBucket_lt hPos
  have hList := hHolds.bucket_list _ hMax
  have hCount := hHolds.bucket_count _ hMax
  unfold CalendarScheduler.sampleWidth
  simp only
  split
  · exact ⟨_, rfl, hHolds.width_pos⟩
  · next hMany =>
      have hRing : SortedQueue.Sorted Event.time
          (s.buckets (s.maxBucket s.nbuckets)).list := by
        rw [hList]
        exact hSorted.filter _
      generalize s.buckets (s.maxBucket s.nbuckets) = b at *
      have hNe : b.list ≠ [] := by
        rw [← Bucket.distinct_pos_iff]
        omega
      have hHead := List.head?_eq_some_head hNe
      have hLast := List.getLast?_eq_some_getLast hNe
      have hSpan := span_pos hRing hHead hLast (by omega)
      simp only [hHead, hLast, if_pos hSpan]
      refine ⟨_, rfl, ?_⟩
      have hSamples : (0 : Int) <
          if (newsize : Int) < b.count then (newsize : Int)
          else b.count := by
        split <;> omega
      have hCast : (0 : ℚ) <
          ((if (newsize : Int) < b.count then (newsize : Int)
            else b.count : Int) : ℚ) := by
        exact_mod_cast hSamples
      exact mul_pos (div_pos hSpan hCast) (by norm_num)

/- A new width is positive, and its assertion holds. -/
theorem Holds.newwidth
    (hHolds : Holds queue s)
    (hSorted : SortedQueue.Sorted Event.time queue)
    {newsize : Nat}
    (hSize : 0 < newsize) :
    ∃ bwidth a, s.newwidth newsize = some (bwidth, a) ∧
      0 < bwidth := by
  rcases hHolds.sampleWidth hSorted hSize with
    ⟨bwidth, hSample, hPos⟩
  unfold CalendarScheduler.newwidth
  rw [hSample]
  split
  · exact ⟨bwidth, _, rfl, hPos⟩
  · simp only
    split
    · next hGap =>
        exact ⟨_, _, rfl, mul_pos hGap (by norm_num)⟩
    · exact ⟨bwidth, _, rfl, hPos⟩

end CalendarScheduler

end Ns2

------------------------------------------------------------
-- Moving Events
------------------------------------------------------------

namespace Ns2

namespace CalendarScheduler

variable {queue : List (Event ℚ)} {s : CalendarScheduler}

theorem Holds.setAdjust
    (hHolds : Holds queue s)
    (a : Adjust) :
    Holds queue (s.setAdjust a) :=
  { hHolds with }

/-
  Events are moved in an order in which, among equal times,
  ids decrease.
-/
def MovesBefore (x y : Event ℚ) : Prop :=
  x.time = y.time → y.uid < x.uid

theorem Holds.mem_moved
    (hHolds : Holds queue s)
    {e : Event ℚ} :
    e ∈ s.moved ↔ e ∈ queue := by
  simp only [moved, List.mem_flatMap, List.mem_range,
    List.mem_reverse]
  constructor
  · rintro ⟨i, hi, hMem⟩
    rw [hHolds.bucket_list i hi] at hMem
    exact List.mem_of_mem_filter hMem
  · intro hMem
    have hi := hHolds.hash_lt e.time
    refine ⟨s.calendarHash e.time, hi, ?_⟩
    rw [hHolds.bucket_list _ hi]
    exact List.mem_filter.mpr ⟨hMem, by simp [inBucket]⟩

theorem Holds.moved_pairwise
    (hHolds : Holds queue s)
    (hStamped :
      SortedQueue.Stamped Event.time Event.uid queue) :
    s.moved.Pairwise MovesBefore := by
  refine List.pairwise_flatMap.mpr ⟨?_, ?_⟩
  · intro i hi
    have hi := List.mem_range.mp hi
    rw [List.pairwise_reverse, hHolds.bucket_list i hi]
    refine (List.Pairwise.filter _ hStamped).imp ?_
    rintro x y (hLt | ⟨_, hUid⟩) hEq
    · exact absurd hEq hLt.ne'
    · exact hUid
  · refine List.pairwise_lt_range.imp_of_mem ?_
    intro i j hi hj hLt x hx y hy hEq
    have hi := List.mem_range.mp hi
    have hj := List.mem_range.mp hj
    rw [List.mem_reverse, hHolds.bucket_list i hi] at hx
    rw [List.mem_reverse, hHolds.bucket_list j hj] at hy
    have hxi : s.calendarHash x.time = i := by
      simpa [inBucket] using (List.mem_filter.mp hx).2
    have hyj : s.calendarHash y.time = j := by
      simpa [inBucket] using (List.mem_filter.mp hy).2
    rw [hEq, hyj] at hxi
    omega

/- The buckets hold every event of the queue once. -/
theorem Holds.moved_perm
    (hHolds : Holds queue s)
    (hStamped :
      SortedQueue.Stamped Event.time Event.uid queue) :
    s.moved.Perm queue := by
  refine (List.perm_ext_iff_of_nodup ?_
    hStamped.nodup).mpr fun e => hHolds.mem_moved
  refine (hHolds.moved_pairwise hStamped).imp ?_
  rintro x y hBefore rfl
  exact lt_irrefl _ (hBefore rfl)

/- The part of the queue that has arrived. -/
def arrived
    (queue done : List (Event ℚ)) : List (Event ℚ) :=
  queue.filter (fun x => done.contains x)

theorem arrived_cons_perm
    {done : List (Event ℚ)}
    {e : Event ℚ}
    (hNodup : queue.Nodup)
    (hMem : e ∈ queue)
    (hNew : e ∉ done) :
    (arrived queue (e :: done)).Perm
      (e :: arrived queue done) := by
  refine (List.perm_ext_iff_of_nodup (hNodup.filter _)
    ?_).mpr ?_
  · refine List.nodup_cons.mpr ⟨?_, hNodup.filter _⟩
    simp [arrived, hNew]
  · intro x
    simp only [arrived, List.mem_filter, List.mem_cons,
      List.contains_iff_mem]
    constructor
    · rintro ⟨hx, rfl | hDone⟩
      · exact Or.inl rfl
      · exact Or.inr ⟨hx, hDone⟩
    · rintro (rfl | ⟨hx, hDone⟩)
      · exact ⟨hMem, Or.inl rfl⟩
      · exact ⟨hx, Or.inr hDone⟩

/- Moving one event in. -/
theorem Holds.insert2
    {done : List (Event ℚ)}
    (hHolds : Holds (arrived queue done) s)
    (hStamped :
      SortedQueue.Stamped Event.time Event.uid queue)
    {e : Event ℚ}
    (hMem : e ∈ queue)
    (hLater : ∀ x ∈ done, MovesBefore x e)
    (hClock : s.calClock ≤ e.time) :
    Holds (arrived queue (e :: done)) (s.insert2 e) := by
  have hi := hHolds.hash_lt e.time
  have hList := hHolds.bucket_list _ hi
  have hNew : e ∉ done := by
    intro hDone
    exact absurd (hLater e hDone rfl) (lt_irrefl _)
  have hPerm :=
    arrived_cons_perm hStamped.nodup hMem hNew
  have hSelf : s.inBucket (s.calendarHash e.time) e =
      true := by
    simp [inBucket]
  have hRingStamped :
      SortedQueue.Stamped Event.time Event.uid
        (s.buckets (s.calendarHash e.time)).list := by
    rw [hList]
    exact List.Pairwise.filter _
      (List.Pairwise.filter _ hStamped)
  have hInsert := Bucket.insert2_spec _ e hRingStamped (by
    intro x hx hEq
    rw [hList] at hx
    have hDone :=
      (List.mem_filter.mp (List.mem_of_mem_filter hx)).2
    exact hLater x (by simpa using hDone) hEq)
  have hUnique := Bucket.insert2_unique _ e
    hRingStamped.sorted
  refine hHolds.change s.adjust hi ?_ ?_ ?_ ?_ ?_ ?_
  · intro x hx
    rcases List.mem_cons.mp (hPerm.mem_iff.mp hx) with
      rfl | hx
    · exact hClock
    · exact hHolds.clock_le x hx
  · intro j hj
    have hNot : s.inBucket j e = false := by
      simpa [inBucket] using Ne.symm hj
    simp only [arrived, List.filter_filter]
    refine List.filter_congr ?_
    intro x _
    by_cases hEq : x = e
    · simp [hEq, hNot]
    · simp [hEq]
  · refine hInsert.1.eq_of_perm ?_ ?_
    · exact List.Pairwise.filter _
        (List.Pairwise.filter _ hStamped)
    · refine hInsert.2.trans ?_
      rw [hList]
      have hFiltered :=
        hPerm.filter (s.inBucket (s.calendarHash e.time))
      rw [List.filter_cons_of_pos hSelf] at hFiltered
      exact hFiltered.symm
  · rw [Bucket.distinct_perm_cons hInsert.2,
      hHolds.bucket_count _ hi]
    by_cases hOld : e.time ∈ Bucket.times
        (s.buckets (s.calendarHash e.time)).list
    · rw [if_pos hOld, if_neg (by simp [hUnique, hOld])]
    · rw [if_neg hOld, if_pos (hUnique.mpr hOld)]
  · omega
  · rw [hPerm.length_eq, List.length_cons, hHolds.qsize_eq]

end CalendarScheduler

end Ns2

------------------------------------------------------------
-- Resizing
------------------------------------------------------------

namespace Ns2

namespace CalendarScheduler

variable {queue : List (Event ℚ)} {s : CalendarScheduler}

/- Moving events in, one after the other. -/
theorem Holds.foldl_insert2
    {done : List (Event ℚ)}
    (hHolds : Holds (arrived queue done) s)
    (hStamped :
      SortedQueue.Stamped Event.time Event.uid queue)
    (hClock : ∀ e ∈ queue, s.calClock ≤ e.time)
    {l : List (Event ℚ)}
    (hMem : ∀ e ∈ l, e ∈ queue)
    (hOrder : l.Pairwise MovesBefore)
    (hLater : ∀ x ∈ done, ∀ e ∈ l, MovesBefore x e) :
    Holds (arrived queue (l.reverse ++ done))
        (l.foldl CalendarScheduler.insert2 s) ∧
      (l.foldl CalendarScheduler.insert2 s).calClock =
        s.calClock := by
  induction l generalizing done s with
  | nil => exact ⟨hHolds, rfl⟩
  | cons e l ih =>
      have hCons := List.pairwise_cons.mp hOrder
      have hStep := hHolds.insert2 hStamped
        (hMem e (by simp))
        (fun x hx => hLater x hx e (by simp))
        (hClock e (hMem e (by simp)))
      have hRest := ih hStep hClock
        (fun x hx => hMem x (by simp [hx])) hCons.2 (by
          intro x hx y hy
          rcases List.mem_cons.mp hx with rfl | hx
          · exact hCons.1 y hy
          · exact hLater x hx y (by simp [hy]))
      rw [List.foldl_cons, List.reverse_cons,
        List.append_assoc]
      exact hRest

/- Empty buckets hold the empty queue. -/
theorem holds_reinit
    (s : CalendarScheduler)
    {nbuck : Nat}
    {bwidth : ℚ}
    (hBuckets : 4 ≤ nbuck)
    (hWidth : 0 < bwidth)
    (hClock : 0 ≤ s.calClock) :
    Holds [] (s.reinit nbuck bwidth s.calClock) where
  nbuckets_ge := hBuckets
  width_pos := hWidth
  diff0_eq := rfl
  diff1_eq := rfl
  diff2_eq := rfl
  lastbucket_eq := rfl
  clock_nonneg := hClock
  clock_le := by simp
  bucket_list := fun _ _ => rfl
  bucket_count := fun _ _ => rfl
  stat_eq := by simp [reinit]
  qsize_eq := rfl

/- Rehashing keeps the queue. -/
theorem Holds.rehash
    (hHolds : Holds queue s)
    (hStamped :
      SortedQueue.Stamped Event.time Event.uid queue)
    {newsize : Nat}
    {bwidth : ℚ}
    (hSize : 4 ≤ newsize)
    (hWidth : 0 < bwidth) :
    Holds queue (s.rehash newsize bwidth s.calClock) ∧
      (s.rehash newsize bwidth s.calClock).calClock =
        s.calClock := by
  have hEmpty : Holds (arrived queue [])
      (s.reinit newsize bwidth s.calClock) := by
    have hNone : arrived queue [] = [] := by
      simp [arrived]
    rw [hNone]
    exact holds_reinit s hSize hWidth hHolds.clock_nonneg
  have hMoved := hEmpty.foldl_insert2 hStamped
    hHolds.clock_le (fun e => hHolds.mem_moved.mp)
    (hHolds.moved_pairwise hStamped) (by simp)
  have hAll : arrived queue (s.moved.reverse ++ []) =
      queue := by
    refine List.filter_eq_self.mpr ?_
    intro e he
    simpa using hHolds.mem_moved.mpr he
  rw [hAll] at hMoved
  exact ⟨hMoved.1.setAdjust _, hMoved.2⟩

/-
  Resizing keeps the queue and the clock, for positive
  widths and at least one bucket asked for.
-/
theorem Holds.resize
    (hHolds : Holds queue s)
    (hStamped :
      SortedQueue.Stamped Event.time Event.uid queue)
    {sqrtWidth : Nat → ℚ}
    (hSqrt : ∀ k, 0 < sqrtWidth k)
    {newsize : Nat}
    (hSize : 0 < newsize) :
    ∃ s', s.resize sqrtWidth newsize s.calClock = some s' ∧
      Holds queue s' ∧ s'.calClock = s.calClock := by
  unfold CalendarScheduler.resize
  split
  · next hSame =>
      have hBuckets : 4 ≤ newsize :=
        hSame ▸ hHolds.nbuckets_ge
      -- Only the number of square roots has changed.
      have hHolds₁ : Holds queue
          { s with sqrtCalls := s.sqrtCalls + 1 } :=
        { hHolds with }
      simp only
      split
      · split
        · exact ⟨_, rfl, hHolds₁.setAdjust _, rfl⟩
        · rcases hHolds₁.newwidth hStamped.sorted hSize with
            ⟨bwidth, a, hWidth, hPos⟩
          rw [hWidth]
          exact ⟨_, rfl,
            (hHolds₁.setAdjust a).rehash hStamped
              hBuckets hPos⟩
      · exact ⟨_, rfl,
          hHolds₁.rehash hStamped hBuckets (hSqrt _)⟩
  · rcases hHolds.newwidth hStamped.sorted hSize with
      ⟨bwidth, a, hWidth, hPos⟩
    rw [hWidth]
    refine ⟨_, rfl, (hHolds.setAdjust a).rehash hStamped
      ?_ hPos⟩
    split <;> omega

end CalendarScheduler

end Ns2
