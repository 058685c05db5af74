import Mathlib.Data.Nat.ModEq
import Mathlib.Tactic.Linarith
import Ns2.Common.Calendar.Buckets

/-
  The search for the first event of the calendar queue.

  A day is an interval of one width.  No event is due before
  the day of the calendar clock, so the buckets, taken from
  the clock's on, are the days of one year; the limits of the
  search tell an event of this year from one of a later year.
  While no event is found, the search has passed empty days
  and keeps the least event it has seen.

  Main declarations:
    * `CalendarScheduler.Passed`
    * `CalendarScheduler.Holds.calDequeue`
    * `CalendarScheduler.Holds.search`
-/

------------------------------------------------------------
-- Days
------------------------------------------------------------

namespace Ns2

namespace CalendarScheduler

variable {queue : List (Event ℚ)} {s : CalendarScheduler}

/- The day of a time. -/
def day
    (s : CalendarScheduler)
    (t : ℚ) : Nat :=
  ⌊t / s.width⌋₊

/- The bucket `j` days after the clock's. -/
def dayBucket
    (s : CalendarScheduler)
    (j : Nat) : Nat :=
  (s.day s.calClock + j) % s.nbuckets

theorem Holds.day_le
    (hHolds : Holds queue s)
    {t : ℚ}
    (hNonneg : 0 ≤ t) :
    s.day t * s.width ≤ t := by
  have hFloor := Nat.floor_le
    (div_nonneg hNonneg hHolds.width_pos.le)
  exact (le_div_iff₀ hHolds.width_pos).mp hFloor

theorem Holds.lt_day_succ
    (hHolds : Holds queue s)
    (t : ℚ) :
    t < (s.day t + 1) * s.width := by
  have hFloor := Nat.lt_floor_add_one (t / s.width)
  exact (div_lt_iff₀ hHolds.width_pos).mp hFloor

theorem Holds.day_mono
    (hHolds : Holds queue s)
    {t t' : ℚ}
    (hLe : t ≤ t') :
    s.day t ≤ s.day t' :=
  Nat.floor_mono
    (div_le_div_of_nonneg_right hLe hHolds.width_pos.le)

/- An earlier day means an earlier time. -/
theorem Holds.lt_of_day_lt
    (hHolds : Holds queue s)
    {t t' : ℚ}
    (hLt : s.day t < s.day t') :
    t < t' := by
  by_contra hNot
  exact absurd (hHolds.day_mono (not_lt.mp hNot))
    (not_le.mpr hLt)

theorem Holds.event_nonneg
    (hHolds : Holds queue s)
    {e : Event ℚ}
    (hMem : e ∈ queue) :
    0 ≤ e.time :=
  hHolds.clock_nonneg.trans (hHolds.clock_le e hMem)

theorem Holds.dayBucket_lt
    (hHolds : Holds queue s)
    (j : Nat) :
    s.dayBucket j < s.nbuckets :=
  Nat.mod_lt _ (by have := hHolds.nbuckets_ge; omega)

/- The next bucket in the search. -/
theorem Holds.dayBucket_succ
    (hHolds : Holds queue s)
    (j : Nat) :
    (if s.dayBucket j + 1 = s.nbuckets then 0
      else s.dayBucket j + 1) = s.dayBucket (j + 1) := by
  have hLt := hHolds.dayBucket_lt j
  unfold dayBucket at *
  generalize hDay : s.day s.calClock + j = d at *
  have hSucc : (d + 1) % s.nbuckets =
      (d % s.nbuckets + 1) % s.nbuckets := by
    rw [Nat.mod_add_mod]
  rw [← Nat.add_assoc, hDay, hSucc]
  by_cases hEnd : d % s.nbuckets + 1 = s.nbuckets
  · rw [if_pos hEnd, hEnd, Nat.mod_self]
  · have hNext : d % s.nbuckets + 1 < s.nbuckets := by omega
    rw [if_neg hEnd, Nat.mod_eq_of_lt hNext]

/- Buckets of one year differ. -/
theorem dayBucket_inj
    {j k : Nat}
    (hj : j < s.nbuckets)
    (hk : k < s.nbuckets)
    (hEq : s.dayBucket j = s.dayBucket k) :
    j = k := by
  unfold dayBucket at hEq
  have hMod : j % s.nbuckets = k % s.nbuckets :=
    Nat.ModEq.add_left_cancel' _ hEq
  rwa [Nat.mod_eq_of_lt hj, Nat.mod_eq_of_lt hk] at hMod

end CalendarScheduler

end Ns2

------------------------------------------------------------
-- One Bucket
------------------------------------------------------------

namespace Ns2

namespace CalendarScheduler

variable {queue : List (Event ℚ)} {s : CalendarScheduler}

/- An event with no event due as early in other buckets. -/
structure Least
    (queue : List (Event ℚ))
    (s : CalendarScheduler)
    (f : Found) : Prop where
  bucket : ∃ l, f.l = some l ∧ l < s.nbuckets ∧
    (s.buckets l).list.head? = some f.e ∧
    ∀ x ∈ queue, s.calendarHash x.time ≠ l →
      f.e.time < x.time

/-
  The search has passed `j` buckets: every event is due `j`
  days after the clock's day or later, and `minE` is the
  least event in the buckets passed.
-/
structure Passed
    (queue : List (Event ℚ))
    (s : CalendarScheduler)
    (j : Nat)
    (q : Search) : Prop where
  here : q.i = s.dayBucket j
  late : ∀ x ∈ queue, s.day s.calClock + j ≤ s.day x.time
  seen : ∀ k < j, ∀ x ∈ queue,
    s.calendarHash x.time = s.dayBucket k →
      ∃ m, q.minE = some m ∧ m.time ≤ x.time
  least : ∀ m, q.minE = some m →
    ∃ k < j, q.l = some (s.dayBucket k) ∧
      (s.buckets (s.dayBucket k)).list.head? = some m

/- What one bucket of the search leads to. -/
def Settled
    (queue : List (Event ℚ))
    (s : CalendarScheduler)
    (j : Nat) : Except Found Search → Prop
| .error f => Least queue s f
| .ok q => Passed queue s j q

/- The head of a ring is the least event of its bucket. -/
theorem Holds.head_le
    (hHolds : Holds queue s)
    (hSorted : SortedQueue.Sorted Event.time queue)
    {l : Nat}
    (hl : l < s.nbuckets)
    {e x : Event ℚ}
    (hHead : (s.buckets l).list.head? = some e)
    (hMem : x ∈ queue)
    (hBucket : s.calendarHash x.time = l) :
    e.time ≤ x.time := by
  have hList := hHolds.bucket_list l hl
  have hRing : SortedQueue.Sorted Event.time
      (s.buckets l).list := by
    rw [hList]
    exact hSorted.filter _
  have hx : x ∈ (s.buckets l).list := by
    rw [hList]
    exact List.mem_filter.mpr ⟨hMem, by simp [inBucket, hBucket]⟩
  rcases List.head?_eq_some_iff.mp hHead with ⟨rest, hRest⟩
  rw [hRest] at hx hRing
  exact hRing.head_le hx

theorem Holds.mem_of_head
    (hHolds : Holds queue s)
    {l : Nat}
    (hl : l < s.nbuckets)
    {e : Event ℚ}
    (hHead : (s.buckets l).list.head? = some e) :
    e ∈ queue ∧ s.calendarHash e.time = l := by
  have hx := List.mem_of_mem_head? hHead
  rw [hHolds.bucket_list l hl] at hx
  have hBoth := List.mem_filter.mp hx
  exact ⟨hBoth.1, by simpa [inBucket] using hBoth.2⟩

/- Days of one bucket are whole years apart. -/
theorem Holds.day_eq_or_ge
    {j : Nat}
    {t : ℚ}
    (hLate : s.day s.calClock + j ≤ s.day t)
    (hBucket : s.calendarHash t = s.dayBucket j) :
    s.day t = s.day s.calClock + j ∨
      s.day s.calClock + j + s.nbuckets ≤ s.day t := by
  have hMod : s.day s.calClock + j ≡ s.day t
      [MOD s.nbuckets] := hBucket.symm
  rcases (Nat.modEq_iff_dvd' hLate).mp hMod with ⟨k, hk⟩
  rcases Nat.eq_zero_or_pos k with rfl | hPos
  · left
    rw [Nat.mul_zero] at hk
    omega
  · right
    have := Nat.le_mul_of_pos_right s.nbuckets hPos
    omega

theorem calendarHash_of_day
    {j : Nat}
    {t : ℚ}
    (hDay : s.day t = s.day s.calClock + j) :
    s.calendarHash t = s.dayBucket j := by
  change s.day t % s.nbuckets = _
  rw [hDay]
  rfl

/- An event within the limit is due on day `j`. -/
theorem Holds.day_of_within
    (hHolds : Holds queue s)
    {j : Nat}
    {diff t : ℚ}
    (hLimit : diff ≤ (j + s.nbuckets - 1) * s.width)
    (hNonneg : 0 ≤ t)
    (hLate : s.day s.calClock + j ≤ s.day t)
    (hBucket : s.calendarHash t = s.dayBucket j)
    (hWithin : t - s.calClock < diff) :
    s.day t = s.day s.calClock + j := by
  rcases Holds.day_eq_or_ge hLate hBucket with hEq | hFar
  · exact hEq
  · exfalso
    have hClock := hHolds.lt_day_succ s.calClock
    have hTime := hHolds.day_le hNonneg
    have hCast : ((s.day s.calClock + j + s.nbuckets : Nat)
        : ℚ) * s.width ≤ s.day t * s.width :=
      mul_le_mul_of_nonneg_right (Nat.cast_le.mpr hFar)
        hHolds.width_pos.le
    push_cast at hCast
    linarith

/- An event of day `j` is within the limit. -/
theorem Holds.within_of_day
    (hHolds : Holds queue s)
    {j : Nat}
    {diff t : ℚ}
    (hReach : (j + 1) * s.width ≤ diff)
    (hDay : s.day t = s.day s.calClock + j) :
    t - s.calClock < diff := by
  have hClock := hHolds.day_le hHolds.clock_nonneg
  have hTime := hHolds.lt_day_succ t
  rw [hDay] at hTime
  push_cast at hTime
  linarith

/- Passing a bucket without an event of its day. -/
theorem Passed.late_succ
    {j : Nat}
    {q : Search}
    (hPassed : Passed queue s j q)
    (hNone : ∀ x ∈ queue,
      s.day x.time ≠ s.day s.calClock + j) :
    ∀ x ∈ queue,
      s.day s.calClock + (j + 1) ≤ s.day x.time := by
  intro x hx
  have := hPassed.late x hx
  have := hNone x hx
  omega

/-
  One bucket of the search.  The limit `diff` reaches to the
  end of day `j` and not to the same bucket's next day.
-/
theorem Holds.calDequeue
    (hHolds : Holds queue s)
    (hSorted : SortedQueue.Sorted Event.time queue)
    {j : Nat}
    {q : Search}
    (hPassed : Passed queue s j q)
    (diff : ℚ)
    (hReach : (j + 1) * s.width ≤ diff)
    (hLimit : diff ≤ (j + s.nbuckets - 1) * s.width) :
    Settled queue s (j + 1) (s.calDequeue diff q) := by
  have hl := hHolds.dayBucket_lt j
  unfold CalendarScheduler.calDequeue
  rw [hPassed.here]
  simp only [hHolds.dayBucket_succ j]
  cases hHead : (s.buckets (s.dayBucket j)).list.head? with
  | none =>
      have hEmpty : ∀ x ∈ queue,
          s.calendarHash x.time ≠ s.dayBucket j := by
        intro x hx hBucket
        have hMem : x ∈
            (s.buckets (s.dayBucket j)).list := by
          rw [hHolds.bucket_list _ hl]
          exact List.mem_filter.mpr
            ⟨hx, by simp [inBucket, hBucket]⟩
        rw [List.head?_eq_none_iff.mp hHead] at hMem
        simp at hMem
      refine ⟨rfl, hPassed.late_succ ?_, ?_, ?_⟩
      · intro x hx hDay
        exact hEmpty x hx (calendarHash_of_day hDay)
      · intro k hk x hx hBucket
        have hNe : k ≠ j := by
          rintro rfl
          exact hEmpty x hx hBucket
        exact hPassed.seen k (by omega) x hx hBucket
      · intro m hm
        rcases hPassed.least m hm with ⟨k, hk, hRest⟩
        exact ⟨k, by omega, hRest⟩
  | some e =>
      have hMem := hHolds.mem_of_head hl hHead
      have hLeast : ∀ x ∈ queue,
          s.calendarHash x.time = s.dayBucket j →
            e.time ≤ x.time :=
        fun x hx => hHolds.head_le hSorted hl hHead hx
      simp only
      by_cases hWithin : e.time - s.calClock < diff
      · rw [if_pos hWithin]
        have hDay := hHolds.day_of_within hLimit
          (hHolds.event_nonneg hMem.1)
          (hPassed.late e hMem.1) hMem.2 hWithin
        refine ⟨_, rfl, hl, hHead, ?_⟩
        intro x hx hOther
        refine hHolds.lt_of_day_lt ?_
        have hNe : s.day x.time ≠ s.day s.calClock + j :=
          fun hEq => hOther (calendarHash_of_day hEq)
        have := hPassed.late x hx
        change s.day e.time < s.day x.time
        omega
      · rw [if_neg hWithin]
        have hLate := hPassed.late_succ (by
          intro x hx hDay
          have := hLeast x hx (calendarHash_of_day hDay)
          have := hHolds.within_of_day hReach hDay
          exact hWithin (by linarith))
        cases hMin : q.minE with
        | none =>
            refine ⟨rfl, hLate, ?_, ?_⟩
            · intro k hk x hx hBucket
              refine ⟨e, rfl, ?_⟩
              rcases Nat.lt_succ_iff_lt_or_eq.mp hk with
                hk | rfl
              · rcases hPassed.seen k hk x hx hBucket with
                  ⟨m, hm, _⟩
                rw [hMin] at hm
                cases hm
              · exact hLeast x hx hBucket
            · intro m hm
              cases hm
              exact ⟨j, by omega, rfl, hHead⟩
        | some m =>
            simp only
            by_cases hLt : e.time < m.time
            · rw [if_pos hLt]
              refine ⟨rfl, hLate, ?_, ?_⟩
              · intro k hk x hx hBucket
                refine ⟨e, rfl, ?_⟩
                rcases Nat.lt_succ_iff_lt_or_eq.mp hk with
                  hk | rfl
                · rcases hPassed.seen k hk x hx hBucket
                    with ⟨m', hm, hLe⟩
                  rw [hMin] at hm
                  cases hm
                  exact hLt.le.trans hLe
                · exact hLeast x hx hBucket
              · intro m' hm
                cases hm
                exact ⟨j, by omega, rfl, hHead⟩
            · rw [if_neg hLt]
              refine ⟨rfl, hLate, ?_, ?_⟩
              · intro k hk x hx hBucket
                rcases Nat.lt_succ_iff_lt_or_eq.mp hk with
                  hk | rfl
                · rw [← hMin]
                  exact hPassed.seen k hk x hx hBucket
                · exact ⟨m, rfl, (not_lt.mp hLt).trans
                    (hLeast x hx hBucket)⟩
              · intro m' hm
                rw [← hMin] at hm
                rcases hPassed.least m' hm with
                  ⟨k, hk, hRest⟩
                exact ⟨k, by omega, hRest⟩

end CalendarScheduler

end Ns2

------------------------------------------------------------
-- The Search
------------------------------------------------------------

namespace Ns2

namespace CalendarScheduler

variable {queue : List (Event ℚ)} {s : CalendarScheduler}

/- Every event is in a bucket of the year. -/
theorem Holds.exists_dayBucket
    (hHolds : Holds queue s)
    {x : Event ℚ}
    (hMem : x ∈ queue) :
    ∃ k < s.nbuckets,
      s.calendarHash x.time = s.dayBucket k := by
  have hPos : 0 < s.nbuckets := by
    have := hHolds.nbuckets_ge
    omega
  have hDay := hHolds.day_mono (hHolds.clock_le x hMem)
  refine ⟨(s.day x.time - s.day s.calClock) % s.nbuckets,
    Nat.mod_lt _ hPos, ?_⟩
  unfold dayBucket
  rw [Nat.add_mod_mod, Nat.add_sub_cancel' hDay]
  rfl

/- The bucket before the clock's is the year's last. -/
theorem Holds.lastbucketDec_eq
    (hHolds : Holds queue s) :
    (if s.lastbucket = 0 then s.nbuckets - 1
      else s.lastbucket - 1) =
        s.dayBucket (s.nbuckets - 1) := by
  have hGe := hHolds.nbuckets_ge
  have hLt := hHolds.dayBucket_lt (s.nbuckets - 1)
  have hSucc := hHolds.dayBucket_succ (s.nbuckets - 1)
  have hYear : s.dayBucket (s.nbuckets - 1 + 1) =
      s.lastbucket := by
    rw [hHolds.lastbucket_eq]
    unfold dayBucket
    rw [Nat.sub_add_cancel (by omega), Nat.add_mod_right]
    rfl
  rw [hYear] at hSucc
  split at hSucc <;> split <;> omega

/- A least event is the first event of the queue. -/
theorem Least.eq_head
    {e : Event ℚ}
    {rest : List (Event ℚ)}
    (hHolds : Holds (e :: rest) s)
    (hSorted : SortedQueue.Sorted Event.time (e :: rest))
    {f : Found}
    (hLeast : Least (e :: rest) s f) :
    f.e = e ∧ f.l = some (s.calendarHash e.time) := by
  rcases hLeast.bucket with ⟨l, hl, hlt, hHead, hOther⟩
  have hMem := hHolds.mem_of_head hlt hHead
  have hSame : s.calendarHash e.time = l := by
    by_contra hNe
    exact absurd (hOther e (by simp) hNe)
      (not_lt.mpr (hSorted.head_le hMem.1))
  rw [hHolds.bucket_list l hlt, List.filter_cons_of_pos
    (by simp [inBucket, hSame])] at hHead
  exact ⟨by simpa using hHead.symm, by rw [hl, hSame]⟩

/- The loop over the year ends, with or without an event. -/
theorem Holds.calYear
    (hHolds : Holds queue s)
    (hSorted : SortedQueue.Sorted Event.time queue)
    (fuel : Nat)
    {j : Nat}
    {q : Search}
    (hPassed : Passed queue s j q)
    (hFirst : 1 ≤ j)
    (hLast : j ≤ s.nbuckets - 1)
    (hFuel : s.nbuckets - 1 < j + fuel) :
    ∃ r, s.calYear (s.dayBucket (s.nbuckets - 1)) fuel q =
        some r ∧
      Settled queue s (s.nbuckets - 1) r := by
  have hGe := hHolds.nbuckets_ge
  induction fuel generalizing j q with
  | zero => omega
  | succ fuel ih =>
      unfold CalendarScheduler.calYear
      rw [hPassed.here]
      by_cases hEnd : s.dayBucket j =
          s.dayBucket (s.nbuckets - 1)
      · have hj : j = s.nbuckets - 1 :=
          dayBucket_inj (by omega) (by omega) hEnd
        rw [if_pos hEnd]
        exact ⟨_, rfl, hj ▸ hPassed⟩
      · have hj : j ≠ s.nbuckets - 1 :=
          fun hEq => hEnd (by rw [hEq])
        have hWidth := hHolds.width_pos
        have hStep := hHolds.calDequeue hSorted hPassed
          s.diff2
          (by
            have hCast : ((j : ℚ) + 1) ≤ s.nbuckets := by
              exact_mod_cast (by omega : j + 1 ≤ s.nbuckets)
            rw [hHolds.diff2_eq]
            nlinarith)
          (by
            have hCast : (1 : ℚ) ≤ j := by
              exact_mod_cast hFirst
            rw [hHolds.diff2_eq]
            nlinarith)
        rw [if_neg hEnd]
        cases hCall : s.calDequeue s.diff2 q with
        | error f =>
            rw [hCall] at hStep
            exact ⟨_, rfl, hStep⟩
        | ok q' =>
            rw [hCall] at hStep
            exact ih hStep (by omega) (by omega) (by omega)

/- The last bucket against the least of the others. -/
theorem Holds.calLast
    (hHolds : Holds queue s)
    (hSorted : SortedQueue.Sorted Event.time queue)
    (hNonempty : queue ≠ [])
    {q : Search}
    (hPassed : Passed queue s (s.nbuckets - 1) q) :
    ∃ f, s.calLast q = some f ∧ Least queue s f := by
  have hGe := hHolds.nbuckets_ge
  have hl := hHolds.dayBucket_lt (s.nbuckets - 1)
  -- An event is in a bucket passed or in the last one.
  have hWhere : ∀ x ∈ queue,
      (∃ m, q.minE = some m ∧ m.time ≤ x.time) ∨
        s.calendarHash x.time =
          s.dayBucket (s.nbuckets - 1) := by
    intro x hx
    rcases hHolds.exists_dayBucket hx with ⟨k, hk, hBucket⟩
    by_cases hEnd : k = s.nbuckets - 1
    · exact Or.inr (hEnd ▸ hBucket)
    · exact Or.inl
        (hPassed.seen k (by omega) x hx hBucket)
  have hStrict : ∀ {x y : Event ℚ}, x.time ≤ y.time →
      s.calendarHash y.time ≠ s.calendarHash x.time →
        x.time < y.time := by
    intro x y hLe hNe
    refine lt_of_le_of_ne hLe ?_
    intro hEq
    exact hNe (by rw [hEq])
  -- The least event seen, when it is before the last bucket.
  have hKeep : ∀ m, q.minE = some m →
      (∀ x ∈ queue, s.calendarHash x.time =
        s.dayBucket (s.nbuckets - 1) → m.time < x.time) →
        Least queue s ⟨q.l, m, q.headSearch⟩ := by
    intro m hm hBefore
    rcases hPassed.least m hm with ⟨k, hk, hkl, hHead⟩
    have hkLt := hHolds.dayBucket_lt k
    have hMem := hHolds.mem_of_head hkLt hHead
    refine ⟨_, hkl, hkLt, hHead, ?_⟩
    intro x hx hOther
    rcases hWhere x hx with ⟨m', hm', hLe⟩ | hLast
    · rw [hm] at hm'
      cases hm'
      exact hStrict hLe (by rwa [hMem.2])
    · exact hBefore x hx hLast
  unfold CalendarScheduler.calLast
  rw [hPassed.here]
  cases hHead :
      (s.buckets (s.dayBucket (s.nbuckets - 1))).list.head?
    with
  | none =>
      have hEmpty : ∀ x ∈ queue, s.calendarHash x.time ≠
          s.dayBucket (s.nbuckets - 1) := by
        intro x hx hBucket
        have hMem : x ∈ (s.buckets
            (s.dayBucket (s.nbuckets - 1))).list := by
          rw [hHolds.bucket_list _ hl]
          exact List.mem_filter.mpr
            ⟨hx, by simp [inBucket, hBucket]⟩
        rw [List.head?_eq_none_iff.mp hHead] at hMem
        simp at hMem
      rcases List.exists_mem_of_ne_nil queue hNonempty with
        ⟨x, hx⟩
      rcases hWhere x hx with ⟨m, hm, _⟩ | hLast
      · refine ⟨⟨q.l, m, q.headSearch⟩, by rw [hm],
          hKeep m hm ?_⟩
        intro y hy hLast
        exact absurd hLast (hEmpty y hy)
      · exact absurd hLast (hEmpty x hx)
  | some e =>
      have hMem := hHolds.mem_of_head hl hHead
      have hLeast : ∀ x ∈ queue, s.calendarHash x.time =
          s.dayBucket (s.nbuckets - 1) →
            e.time ≤ x.time :=
        fun x hx => hHolds.head_le hSorted hl hHead hx
      cases hMin : q.minE with
      | none =>
          refine ⟨_, rfl, _, rfl, hl, hHead, ?_⟩
          intro x hx hOther
          rcases hWhere x hx with ⟨m, hm, _⟩ | hLast
          · rw [hMin] at hm
            cases hm
          · exact absurd hLast hOther
      | some m =>
          simp only
          by_cases hLt : m.time < e.time
          · rw [if_pos hLt]
            refine ⟨_, rfl, hKeep m hMin ?_⟩
            intro x hx hLast
            exact hLt.trans_le (hLeast x hx hLast)
          · rw [if_neg hLt]
            refine ⟨_, rfl, _, rfl, hl, hHead, ?_⟩
            intro x hx hOther
            rcases hWhere x hx with ⟨m', hm', hLe⟩ | hLast
            · rw [hMin] at hm'
              cases hm'
              exact hStrict ((not_lt.mp hLt).trans hLe)
                (by rwa [hMem.2])
            · exact absurd hLast hOther

/- The search ends at the first event of the queue. -/
theorem Holds.search
    {e : Event ℚ}
    {rest : List (Event ℚ)}
    (hHolds : Holds (e :: rest) s)
    (hSorted : SortedQueue.Sorted Event.time (e :: rest)) :
    ∃ f, s.search = some f ∧ f.e = e ∧
      f.l = some (s.calendarHash e.time) := by
  have hGe := hHolds.nbuckets_ge
  have hWidth := hHolds.width_pos
  have hCast : (4 : ℚ) ≤ s.nbuckets := by
    exact_mod_cast hGe
  suffices hFound : ∃ f, s.search = some f ∧
      Least (e :: rest) s f by
    rcases hFound with ⟨f, hSearch, hLeast⟩
    exact ⟨f, hSearch, hLeast.eq_head hHolds hSorted⟩
  unfold CalendarScheduler.search
  rw [hHolds.lastbucketDec_eq]
  simp only
  have hStart : Passed (e :: rest) s 0
      ⟨none, s.lastbucket, none, s.adjust.headSearch⟩ := by
    refine ⟨hHolds.lastbucket_eq, ?_, by omega, by simp⟩
    intro x hx
    exact hHolds.day_mono (hHolds.clock_le x hx)
  have hFirst := hHolds.calDequeue hSorted hStart
    s.diff0
    (by rw [hHolds.diff0_eq]; push_cast; nlinarith)
    (by rw [hHolds.diff0_eq]; push_cast; nlinarith)
  cases hCall : s.calDequeue s.diff0
      ⟨none, s.lastbucket, none, s.adjust.headSearch⟩ with
  | error f =>
      rw [hCall] at hFirst
      exact ⟨f, rfl, hFirst⟩
  | ok q =>
      rw [hCall] at hFirst
      have hSecond := hHolds.calDequeue hSorted hFirst
        s.diff1
        (by rw [hHolds.diff1_eq]; push_cast; nlinarith)
        (by rw [hHolds.diff1_eq]; push_cast; nlinarith)
      simp only
      cases hCall₁ : s.calDequeue s.diff1 q with
      | error f =>
          rw [hCall₁] at hSecond
          exact ⟨f, rfl, hSecond⟩
      | ok q₁ =>
          rw [hCall₁] at hSecond
          rcases hHolds.calYear hSorted s.nbuckets hSecond
              (by omega) (by omega) (by omega) with
            ⟨r, hCall₂, hYear⟩
          simp only [hCall₂]
          cases r with
          | error f => exact ⟨f, rfl, hYear⟩
          | ok q₂ =>
              exact hHolds.calLast hSorted (by simp) hYear

end CalendarScheduler

end Ns2
