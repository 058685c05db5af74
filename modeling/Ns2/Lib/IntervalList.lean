import Mathlib.Data.Int.Interval
import Mathlib.Data.List.Pairwise
import Mathlib.Order.Interval.Finset.Basic
import Mathlib.Tactic.Common

/-
  Sets as sorted lists of intervals.

  An interval `(a, b)` holds the values from `a` to before
  `b`.  A list is normal when its intervals are non-empty,
  in order, and have a gap between any two; then it is the
  only normal list of its set, and the lengths add up.

  Main declarations:
    * `IntervalList.Normal`
    * `IntervalList.cover`
    * `IntervalList.Normal.replace`
    * `IntervalList.Normal.split`
    * `IntervalList.Normal.card_cover`
-/

------------------------------------------------------------
-- Normal Lists
------------------------------------------------------------

namespace IntervalList

variable {α : Type*} [LinearOrder α]

/- Non-empty intervals in order, with gaps between them. -/
structure Normal (xs : List (α × α)) : Prop where
  nonempty : ∀ b ∈ xs, b.1 < b.2
  sorted : xs.Pairwise fun a b => a.2 < b.1

variable {as bs mid xs : List (α × α)} {b : α × α}
variable {lo hi n : α}

theorem normal_nil : Normal ([] : List (α × α)) := by
  constructor
  · intro b hb
    cases hb
  · exact List.Pairwise.nil

theorem normal_append :
    Normal (as ++ bs) ↔ Normal as ∧ Normal bs ∧
      ∀ a ∈ as, ∀ b ∈ bs, a.2 < b.1 := by
  constructor
  · intro hNormal
    have hSorted := List.pairwise_append.mp hNormal.sorted
    refine ⟨⟨?_, hSorted.1⟩, ⟨?_, hSorted.2.1⟩, hSorted.2.2⟩
    · intro a ha
      exact hNormal.nonempty a (List.mem_append_left bs ha)
    · intro b hb
      exact hNormal.nonempty b (List.mem_append_right as hb)
  · rintro ⟨hFront, hBack, hGap⟩
    constructor
    · intro b hb
      rcases List.mem_append.mp hb with hIn | hIn
      · exact hFront.nonempty b hIn
      · exact hBack.nonempty b hIn
    · exact List.pairwise_append.mpr
        ⟨hFront.sorted, hBack.sorted, hGap⟩

theorem normal_cons :
    Normal (b :: xs) ↔ b.1 < b.2 ∧ Normal xs ∧
      ∀ c ∈ xs, b.2 < c.1 := by
  constructor
  · intro hNormal
    have hSorted := List.pairwise_cons.mp hNormal.sorted
    refine ⟨hNormal.nonempty b List.mem_cons_self,
      ⟨?_, hSorted.2⟩, hSorted.1⟩
    intro c hc
    exact hNormal.nonempty c (List.mem_cons_of_mem b hc)
  · rintro ⟨hHere, hRest, hGap⟩
    constructor
    · intro c hc
      rcases List.mem_cons.mp hc with rfl | hc
      · exact hHere
      · exact hRest.nonempty c hc
    · exact List.pairwise_cons.mpr ⟨hGap, hRest.sorted⟩

/- One interval in the place of the intervals `mid`. -/
theorem Normal.replace
    (hNormal : Normal (as ++ (mid ++ bs)))
    (hLt : lo < hi)
    (hFront : ∀ a ∈ as, a.2 < lo)
    (hBack : ∀ b ∈ bs, hi < b.1) :
    Normal (as ++ (lo, hi) :: bs) := by
  rcases normal_append.mp hNormal with ⟨hAs, hRest, hGap⟩
  have hBs := (normal_append.mp hRest).2.1
  apply normal_append.mpr
  refine ⟨hAs, normal_cons.mpr ⟨hLt, hBs, hBack⟩, ?_⟩
  intro a ha b hb
  rcases List.mem_cons.mp hb with rfl | hb
  · exact hFront a ha
  · exact hGap a ha b (List.mem_append_right mid hb)

theorem Normal.sublist
    (hNormal : Normal xs)
    (hSub : as.Sublist xs) :
    Normal as :=
  ⟨fun b hb => hNormal.nonempty b (hSub.subset hb),
    hNormal.sorted.sublist hSub⟩

/-
  The intervals that end by `lo`, those that overlap the
  interval from `lo` to `hi`, and those that start from `hi`.
-/
theorem Normal.split
    (hNormal : Normal xs) :
    ∃ as mid bs, xs = as ++ (mid ++ bs) ∧
      (∀ a ∈ as, a.2 ≤ lo) ∧
      (∀ m ∈ mid, lo < m.2 ∧ m.1 < hi) ∧
      (∀ b ∈ bs, hi ≤ b.1) := by
  induction xs with
  | nil => exact ⟨[], [], [], by simp⟩
  | cons b xs ih =>
      rcases normal_cons.mp hNormal with ⟨hb, hRest, hGap⟩
      rcases ih hRest with
        ⟨as, mid, bs, rfl, hAs, hMid, hBs⟩
      by_cases hLow : b.2 ≤ lo
      · refine ⟨b :: as, mid, bs, rfl, ?_, hMid, hBs⟩
        intro a ha
        rcases List.mem_cons.mp ha with rfl | ha
        · exact hLow
        · exact hAs a ha
      -- What follows the first block ends behind `lo`, too.
      have hNone : as = [] := by
        rcases as with _ | ⟨a, as⟩
        · rfl
        · have hFar := hGap a (by simp)
          have hNear := hAs a (by simp)
          have hIn := hRest.nonempty a (by simp)
          exact absurd (hFar.trans hIn |>.le.trans hNear) hLow
      subst hNone
      by_cases hHigh : hi ≤ b.1
      · refine ⟨[], [], b :: (mid ++ bs), rfl, ?_, ?_, ?_⟩
        · intro a ha
          cases ha
        · intro m hm
          cases hm
        · intro c hc
          rcases List.mem_cons.mp hc with rfl | hc
          · exact hHigh
          · exact hHigh.trans (hb.trans (hGap c hc)).le
      · refine ⟨[], b :: mid, bs, rfl, ?_, ?_, hBs⟩
        · intro a ha
          cases ha
        · intro m hm
          rcases List.mem_cons.mp hm with rfl | hm
          · exact ⟨not_le.mp hLow, not_le.mp hHigh⟩
          · exact hMid m hm

end IntervalList

------------------------------------------------------------
-- The Set of a List
------------------------------------------------------------

namespace IntervalList

variable {α : Type*} [LinearOrder α] [LocallyFiniteOrder α]

/- The values from `lo` to before `hi`. -/
def values (lo hi : α) : Finset α :=
  Finset.Ico lo hi

/- The values in the intervals of a list. -/
def cover (xs : List (α × α)) : Finset α :=
  match xs with
  | [] => ∅
  | b :: xs => values b.1 b.2 ∪ cover xs

variable {as bs xs : List (α × α)} {b : α × α} {n : α}

@[simp]
theorem mem_values
    {lo hi : α} :
    n ∈ values lo hi ↔ lo ≤ n ∧ n < hi :=
  Finset.mem_Ico

theorem values_union_values
    {lo mid hi : α}
    (hLow : lo ≤ mid)
    (hHigh : mid ≤ hi) :
    values lo mid ∪ values mid hi = values lo hi :=
  Finset.Ico_union_Ico_eq_Ico hLow hHigh

@[simp]
theorem cover_nil : cover ([] : List (α × α)) = ∅ :=
  rfl

@[simp]
theorem mem_cover_cons :
    n ∈ cover (b :: xs) ↔
      (b.1 ≤ n ∧ n < b.2) ∨ n ∈ cover xs := by
  simp [cover]

@[simp]
theorem mem_cover_append :
    n ∈ cover (as ++ bs) ↔ n ∈ cover as ∨ n ∈ cover bs := by
  induction as with
  | nil => simp
  | cons a as ih => simp [ih, or_assoc]

theorem mem_cover :
    n ∈ cover xs ↔ ∃ b ∈ xs, b.1 ≤ n ∧ n < b.2 := by
  induction xs with
  | nil => simp
  | cons b xs ih => simp [ih]

/- Nothing is counted twice in a normal list. -/
theorem Normal.card_cover
    (hNormal : Normal xs) :
    (cover xs).card =
      (xs.map fun b => (values b.1 b.2).card).sum := by
  induction xs with
  | nil => rfl
  | cons b xs ih =>
      rcases normal_cons.mp hNormal with ⟨hb, hRest, hGap⟩
      rw [List.map_cons, List.sum_cons, ← ih hRest]
      apply Finset.card_union_of_disjoint
      apply Finset.disjoint_left.mpr
      intro n hHere hThere
      rcases mem_cover.mp hThere with ⟨c, hc, hLow, _⟩
      have hLt := (mem_values.mp hHere).2
      exact absurd (hLt.trans (hGap c hc)) (not_lt.mpr hLow)

end IntervalList

------------------------------------------------------------
-- Lengths of Integer Intervals
------------------------------------------------------------

namespace IntervalList

/- The sum of the lengths. -/
def total (xs : List (Int × Int)) : Int :=
  (xs.map fun b => b.2 - b.1).sum

variable {as bs xs : List (Int × Int)} {b : Int × Int}

@[simp]
theorem total_nil : total [] = 0 :=
  rfl

@[simp]
theorem total_cons :
    total (b :: xs) = b.2 - b.1 + total xs := by
  simp [total]

@[simp]
theorem total_append :
    total (as ++ bs) = total as + total bs := by
  simp [total]

/- The total of a normal list is the size of its set. -/
theorem Normal.total_eq_card
    (hNormal : Normal xs) :
    total xs = (cover xs).card := by
  rw [hNormal.card_cover]
  induction xs with
  | nil => rfl
  | cons b xs ih =>
      rcases normal_cons.mp hNormal with ⟨hb, hRest, _⟩
      rw [total_cons, ih hRest, List.map_cons, List.sum_cons,
        Nat.cast_add, values, Int.card_Ico]
      omega

end IntervalList
