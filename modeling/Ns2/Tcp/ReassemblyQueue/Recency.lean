import Ns2.Lib.PartialRun
import Ns2.Tcp.ReassemblyQueue.Correctness

/-
  The order in which the reassembly queue reports its blocks.

  A list of blocks keeps the one changed last in front.  The
  stack has that order as long as a block that takes a
  segment in without getting a new node is its top already,
  but for blocks that go.

  Main declarations:
    * `ReassemblyQueue.gensack`
    * `ReassemblyQueue.recent`
    * `ReassemblyQueue.most_recent_iff`
-/

------------------------------------------------------------
-- Blocks by Their Last Change
------------------------------------------------------------

namespace Ns2

namespace ReassemblyQueue

open LinkedList

/- The first `n` blocks on the stack. -/
def gensack
    (rq : ReassemblyQueue)
    (n : Nat) : List (Int × Int) :=
  (walk rq.lifo.next n rq.lifo.first).map rq.interval

/- The segment overlaps or touches the block. -/
def touching
    (start endseq : Int)
    (block : Int × Int) : Bool :=
  decide (start ≤ block.2 ∧ block.1 ≤ endseq)

/- The numbers from the least start to the greatest end. -/
def hull
    (start endseq : Int)
    (blocks : List (Int × Int)) : Int × Int :=
  (blocks.foldr (fun b v => min b.1 v) start,
    blocks.foldr (fun b v => max b.2 v) endseq)

/-
  A segment changes one block, which takes in all that it
  touches; clearing cuts blocks where they are.
-/
def recentCall
    (blocks : List (Int × Int)) : Call → List (Int × Int)
| .add start endseq _ _ =>
    hull start endseq
        (blocks.filter (touching start endseq)) ::
      blocks.filter (fun b => !touching start endseq b)
| .clearto seq =>
    (blocks.filter fun b => decide (seq < b.2)).map
      fun b => (max seq b.1, b.2)
| .clear => []

/- The blocks after some calls, the last one changed first. -/
def recent (calls : List Call) : List (Int × Int) :=
  calls.foldl recentCall []

/-
  What SACK blocks are to say: the blocks of the queue, each
  once, the one changed last first; after a segment was added
  that is the block which contains it.
-/
structure ReportsRecent
    (calls : List Call)
    (rq : ReassemblyQueue) : Prop where
  gensack_eq : ∀ n, rq.gensack n = (recent calls).take n
  perm : (recent calls).Perm (rq.order.map rq.interval)
  nodup : (recent calls).Nodup
  first : ∀ before start endseq tiflags rqflags,
    calls = before ++ [.add start endseq tiflags rqflags] →
    ∃ block, (recent calls).head? = some block ∧
      block.1 ≤ start ∧ endseq ≤ block.2

def Call.Sacked : Call → Prop
| .add start endseq _ _ => start < endseq
| .clearto _ => True
| .clear => False

/-
  The first block that joins the segment, or a block equal to
  it, has only blocks that the segment meets above it on the
  stack.
-/
def Call.Tops
    (rq : ReassemblyQueue) : Call → Prop
| .add start endseq _ _ =>
    ∀ k ∈ rq.order,
      (Joins rq start endseq k ∨
        rq.interval k = (start, endseq)) →
      (∀ j ∈ rq.order, Joins rq start endseq j →
        (rq.interval k).1 ≤ (rq.interval j).1) →
      ∀ i ∈ rq.stack.takeWhile (fun i => decide (i ≠ k)),
        Meets rq start endseq i
| _ => True

variable {rq : ReassemblyQueue} {xs ys fs : List Nat}

theorem Shape.gensack_eq
    (hShape : Shape rq xs ys fs)
    (n : Nat) :
    rq.gensack n = (ys.map rq.interval).take n := by
  unfold gensack
  rw [hShape.lifo.forward.walk_take, List.map_take]

/- A sublist without repetitions is told by its members. -/
theorem sublist_eq_filter
    {zs : List Nat}
    {p : Nat → Bool}
    (hSub : zs.Sublist ys)
    (hNodup : ys.Nodup)
    (hMem : ∀ i ∈ ys, i ∈ zs ↔ p i = true) :
    zs = ys.filter p := by
  induction hSub with
  | slnil => rfl
  | @cons zs ys a hSub ih =>
      have hParts := List.nodup_cons.mp hNodup
      have hOut : ¬ p a = true := by
        rw [← hMem a List.mem_cons_self]
        intro hIn
        exact hParts.1 (hSub.subset hIn)
      rw [List.filter_cons_of_neg hOut]
      apply ih hParts.2
      intro i hi
      exact hMem i (List.mem_cons_of_mem a hi)
  | @cons_cons zs ys a hSub ih =>
      have hParts := List.nodup_cons.mp hNodup
      have hIn : p a = true :=
        (hMem a List.mem_cons_self).mp List.mem_cons_self
      rw [List.filter_cons_of_pos hIn]
      congr 1
      apply ih hParts.2
      intro i hi
      rw [← hMem i (List.mem_cons_of_mem a hi), List.mem_cons]
      constructor
      · exact Or.inr
      · rintro (rfl | hi')
        · exact absurd hi hParts.1
        · exact hi'

theorem foldr_min_eq
    {blocks : List (Int × Int)}
    {start v : Int}
    (hLow : ∀ b ∈ blocks, v ≤ b.1)
    (hStart : v ≤ start)
    (hHit : v = start ∨ ∃ b ∈ blocks, v = b.1) :
    blocks.foldr (fun b v => min b.1 v) start = v := by
  apply le_antisymm
  · rcases hHit with rfl | ⟨b, hb, rfl⟩
    · clear hLow hStart
      induction blocks with
      | nil => exact le_rfl
      | cons b blocks ih => exact (min_le_right _ _).trans ih
    · clear hLow hStart
      induction blocks with
      | nil => cases hb
      | cons c blocks ih =>
          rcases List.mem_cons.mp hb with rfl | hIn
          · exact min_le_left _ _
          · exact (min_le_right _ _).trans (ih hIn)
  · clear hHit
    induction blocks with
    | nil => exact hStart
    | cons b blocks ih =>
        apply le_min (hLow b List.mem_cons_self)
        apply ih
        intro c hc
        exact hLow c (List.mem_cons_of_mem b hc)

theorem foldr_max_eq
    {blocks : List (Int × Int)}
    {endseq v : Int}
    (hHigh : ∀ b ∈ blocks, b.2 ≤ v)
    (hEnd : endseq ≤ v)
    (hHit : v = endseq ∨ ∃ b ∈ blocks, v = b.2) :
    blocks.foldr (fun b v => max b.2 v) endseq = v := by
  apply le_antisymm
  · clear hHit
    induction blocks with
    | nil => exact hEnd
    | cons b blocks ih =>
        apply max_le (hHigh b List.mem_cons_self)
        apply ih
        intro c hc
        exact hHigh c (List.mem_cons_of_mem b hc)
  · rcases hHit with rfl | ⟨b, hb, rfl⟩
    · clear hHigh hEnd
      induction blocks with
      | nil => exact le_rfl
      | cons b blocks ih => exact ih.trans (le_max_right _ _)
    · clear hHigh hEnd
      induction blocks with
      | nil => cases hb
      | cons c blocks ih =>
          rcases List.mem_cons.mp hb with rfl | hIn
          · exact le_max_left _ _
          · exact (ih hIn).trans (le_max_right _ _)

end ReassemblyQueue

end Ns2

------------------------------------------------------------
-- The Stack after a Segment
------------------------------------------------------------

namespace Ns2

namespace ReassemblyQueue

open IntervalList

variable {rq rq' : ReassemblyQueue}
variable {xs ys fs xs' ys' fs' : List Nat} {x : Nat}
variable {covered : Finset Int}
variable {start endseq : Int} {t ret : Nat}

/- The landing block is the hull of what the segment meets. -/
theorem Landed.hull_eq
    (hLanded : Landed rq rq' xs ys xs' ys' start endseq t ret
      x)
    (hHolds : Holds rq xs ys fs covered)
    (hDone : Holds rq' xs' ys' fs'
      (covered ∪ values start endseq))
    (hLt : start < endseq) :
    hull start endseq
      ((ys.map rq.interval).filter (touching start endseq)) =
        rq'.interval x := by
  have hLow := hLanded.low
  have hHigh := hLanded.high
  have hTouched : ∀ b,
      b ∈ (ys.map rq.interval).filter
        (touching start endseq) ↔
      ∃ i ∈ xs, Meets rq start endseq i ∧
        rq.interval i = b := by
    intro b
    simp only [List.mem_filter, List.mem_map, touching,
      decide_eq_true_eq]
    constructor
    · rintro ⟨⟨i, hi, rfl⟩, hMeets⟩
      exact ⟨i, hHolds.shape.perm.mem_iff.mp hi, hMeets, rfl⟩
    · rintro ⟨i, hi, hMeets, rfl⟩
      exact ⟨⟨i, hHolds.shape.perm.mem_iff.mpr hi, rfl⟩,
        hMeets⟩
  -- Where the block begins or ends beyond the segment.
  have hBlock : ∀ n, (rq'.interval x).1 ≤ n →
      n < (rq'.interval x).2 →
      start ≤ n ∧ n < endseq ∨
        ∃ i ∈ xs, Meets rq start endseq i ∧
          (rq.interval i).1 ≤ n ∧ n < (rq.interval i).2 := by
    intro n hn hn'
    have hIn := hDone.mem hLanded.mem hn hn'
    rw [Finset.mem_union, mem_values] at hIn
    rcases hIn with hIn | hIn
    · rcases (hHolds.mem_iff _).mp hIn with
        ⟨i, hi, hStart, hEnd⟩
      refine Or.inr ⟨i, hi, ?_, hStart, hEnd⟩
      by_contra hNot
      have hApart := hLanded.leaves hHolds hDone hLt hi hNot
      omega
    · exact Or.inl hIn
  have hTaken : ∀ i ∈ xs, Meets rq start endseq i →
      (rq'.interval x).1 ≤ (rq.interval i).1 ∧
        (rq.interval i).2 ≤ (rq'.interval x).2 :=
    fun i hi hMeets =>
      hLanded.takes_in hHolds hDone hLt hi hMeets
  unfold hull
  apply Prod.ext
  · apply foldr_min_eq
    · intro b hb
      rcases (hTouched b).mp hb with ⟨i, hi, hMeets, rfl⟩
      exact (hTaken i hi hMeets).1
    · exact hLow
    · rcases hBlock (rq'.interval x).1 le_rfl (by omega) with
        hIn | ⟨i, hi, hMeets, hStart, hEnd⟩
      · left
        omega
      · right
        refine ⟨rq.interval i,
          (hTouched _).mpr ⟨i, hi, hMeets, rfl⟩, ?_⟩
        have hBoth := hTaken i hi hMeets
        omega
  · apply foldr_max_eq
    · intro b hb
      rcases (hTouched b).mp hb with ⟨i, hi, hMeets, rfl⟩
      exact (hTaken i hi hMeets).2
    · exact hHigh
    · rcases hBlock ((rq'.interval x).2 - 1) (by omega)
          (by omega) with
        hIn | ⟨i, hi, hMeets, hStart, hEnd⟩
      · left
        omega
      · right
        refine ⟨rq.interval i,
          (hTouched _).mpr ⟨i, hi, hMeets, rfl⟩, ?_⟩
        have hBoth := hTaken i hi hMeets
        omega

/- The blocks that the segment misses. -/
def missed
    (rq : ReassemblyQueue)
    (start endseq : Int)
    (i : Nat) : Bool :=
  decide (¬ Meets rq start endseq i)

/- A new block is on top of those that the segment misses. -/
theorem Landed.stack_created
    (hLanded : Landed rq rq' xs ys xs' ys' start endseq t ret
      x)
    (hHolds : Holds rq xs ys fs covered)
    (hDone : Holds rq' xs' ys' fs'
      (covered ∪ values start endseq))
    (hLt : start < endseq)
    (hCreated : Created rq rq' xs ys ys' start endseq t x) :
    ys' = x :: ys.filter (missed rq start endseq) := by
  rcases hCreated.pushed with ⟨zs, hEq, hSub⟩
  have hOthers := hLanded.others_iff hHolds hDone hLt
  have hNodup := hDone.shape.lifo.nodup
  rw [hEq] at hNodup
  have hOut := (List.nodup_cons.mp hNodup).1
  rw [hEq]
  congr 1
  apply sublist_eq_filter hSub hHolds.shape.lifo.nodup
  intro i hi
  have hOld := hHolds.shape.perm.mem_iff.mp hi
  have hNew : i ∈ zs ↔ i ∈ xs' ∧ i ≠ x := by
    rw [← hDone.shape.perm.mem_iff, hEq, List.mem_cons]
    constructor
    · intro hIn
      refine ⟨Or.inr hIn, ?_⟩
      rintro rfl
      exact hOut hIn
    · rintro ⟨hHere | hIn, hNe⟩
      · exact absurd hHere hNe
      · exact hIn
  rw [hNew, hOthers i, missed, decide_eq_true_eq]
  exact and_iff_right hOld

/- A block that stays has the others around it. -/
theorem Landed.stack_kept
    (hLanded : Landed rq rq' xs ys xs' ys' start endseq t ret
      x)
    (hHolds : Holds rq xs ys fs covered)
    (hDone : Holds rq' xs' ys' fs'
      (covered ∪ values start endseq))
    (hLt : start < endseq)
    (hKept : Kept rq rq' xs ys ys' start endseq t x) :
    ys' = ys.filter fun i =>
      decide (i = x) || missed rq start endseq i := by
  have hOthers := hLanded.others_iff hHolds hDone hLt
  apply sublist_eq_filter hKept.stack hHolds.shape.lifo.nodup
  intro i hi
  have hOld := hHolds.shape.perm.mem_iff.mp hi
  rw [hDone.shape.perm.mem_iff, Bool.or_eq_true,
    decide_eq_true_eq, missed, decide_eq_true_eq]
  constructor
  · intro hIn
    by_cases hEq : i = x
    · exact Or.inl hEq
    · exact Or.inr ((hOthers i).mp ⟨hIn, hEq⟩).2
  · rintro (rfl | hNot)
    · exact hLanded.mem
    · exact ((hOthers i).mpr ⟨hOld, hNot⟩).1

/- The blocks above one of the stack and those below it. -/
theorem split_top
    (hNodup : ys.Nodup)
    (hx : x ∈ ys) :
    ∃ above below, ys = above ++ x :: below ∧
      (∀ i ∈ above, i ≠ x) ∧ (∀ i ∈ below, i ≠ x) ∧
      ys.takeWhile (fun i => decide (i ≠ x)) = above := by
  rcases List.append_of_mem hx with ⟨above, below, rfl⟩
  have hOut : x ∉ above ++ below :=
    (List.nodup_cons.mp (List.nodup_middle.mp hNodup)).1
  have hAbove : ∀ i ∈ above, i ≠ x := by
    rintro i hi rfl
    exact hOut (List.mem_append_left _ hi)
  have hBelow : ∀ i ∈ below, i ≠ x := by
    rintro i hi rfl
    exact hOut (List.mem_append_right _ hi)
  refine ⟨above, below, rfl, hAbove, hBelow, ?_⟩
  rw [List.takeWhile_append_of_pos
    (fun i hi => decide_eq_true (hAbove i hi))]
  simp

/-
  When one more block stays it is on top if none above it
  stays.
-/
theorem filter_top_iff
    {p : Nat → Bool}
    (hNodup : ys.Nodup)
    (hx : x ∈ ys) :
    (ys.filter fun i => decide (i = x) || p i).head? =
        some x ↔
      ∀ i ∈ ys.takeWhile (fun i => decide (i ≠ x)),
        p i = false := by
  rcases split_top hNodup hx with
    ⟨above, below, rfl, hAbove, _, hTake⟩
  rw [hTake, List.filter_append, List.filter_cons_of_pos
    (by simp)]
  constructor
  · intro hHead i hi
    cases hCases : above.filter
        (fun i => decide (i = x) || p i) with
    | nil =>
        have hNone := List.filter_eq_nil_iff.mp hCases i hi
        simp only [Bool.or_eq_true, not_or,
          Bool.not_eq_true] at hNone
        exact hNone.2
    | cons j rest =>
        exfalso
        rw [hCases, List.cons_append, List.head?_cons] at hHead
        have hIn : j ∈ above.filter
            (fun i => decide (i = x) || p i) := by
          rw [hCases]
          exact List.mem_cons_self
        exact hAbove j (List.mem_of_mem_filter hIn)
          (Option.some.inj hHead)
  · intro hAll
    have hNone : above.filter
        (fun i => decide (i = x) || p i) = [] := by
      apply List.filter_eq_nil_iff.mpr
      intro i hi
      simp [hAbove i hi, hAll i hi]
    rw [hNone, List.nil_append, List.head?_cons]

/- Then it is followed by the others. -/
theorem filter_top
    {p : Nat → Bool}
    (hNodup : ys.Nodup)
    (hx : x ∈ ys)
    (hp : p x = false)
    (hAll : ∀ i ∈ ys.takeWhile (fun i => decide (i ≠ x)),
      p i = false) :
    (ys.filter fun i => decide (i = x) || p i) =
      x :: ys.filter p := by
  rcases split_top hNodup hx with
    ⟨above, below, rfl, hAbove, hBelow, hTake⟩
  rw [hTake] at hAll
  have hNone : above.filter p = [] := by
    apply List.filter_eq_nil_iff.mpr
    intro i hi
    simp [hAll i hi]
  have hNone' : above.filter
      (fun i => decide (i = x) || p i) = [] := by
    apply List.filter_eq_nil_iff.mpr
    intro i hi
    simp [hAbove i hi, hAll i hi]
  have hSame : below.filter
      (fun i => decide (i = x) || p i) = below.filter p := by
    apply List.filter_congr
    intro i hi
    simp [hBelow i hi]
  rw [List.filter_append, List.filter_append,
    List.filter_cons_of_pos (by simp),
    List.filter_cons_of_neg (by simp [hp]), hNone, hNone',
    hSame, List.nil_append, List.nil_append]

/- The block that keeps its node is the only one to do so. -/
theorem Kept.unique
    {k : Nat}
    (hKept : Kept rq rq' xs ys ys' start endseq t x)
    (hHolds : Holds rq xs ys fs covered)
    (hk : k ∈ xs)
    (hJoined : Joins rq start endseq k ∨
      rq.interval k = (start, endseq))
    (hFirst : ∀ j ∈ xs, Joins rq start endseq j →
      (rq.interval k).1 ≤ (rq.interval j).1) :
    k = x := by
  by_contra hNe
  have hGap := hHolds.gap hKept.mem hk hNe
  have hPos := normal_pos hHolds.normal hk
  have hPosX := normal_pos hHolds.normal hKept.mem
  have hMeets : ∀ i, i ∈ xs →
      (Joins rq start endseq i ∨
        rq.interval i = (start, endseq)) →
      Meets rq start endseq i := by
    intro i hi hEither
    rcases hEither with hJoins | hExact
    · exact hJoins.1
    · have hPosI := normal_pos hHolds.normal hi
      unfold Meets
      rw [hExact] at hPosI ⊢
      exact ⟨hPosI.le, hPosI.le⟩
  have hMeetsK := hMeets k hk hJoined
  have hMeetsX := hMeets x hKept.mem hKept.joined
  unfold Meets at hMeetsK hMeetsX
  rcases hJoined with hJoinsK | hExactK
  · rcases hKept.joined with hJoinsX | hExactX
    · have hLe := hKept.first k hk hJoinsK
      have hGe := hFirst x hKept.mem hJoinsX
      omega
    · rw [hExactX] at hGap
      simp only at hGap
      omega
  · rw [hExactK] at hGap
    simp only at hGap
    omega

/- The condition of a segment, for the block that stays. -/
theorem Kept.tops_iff
    {rqflags : Nat}
    (hKept : Kept rq rq' xs ys ys' start endseq t x)
    (hHolds : Holds rq xs ys fs covered) :
    (Call.add start endseq t rqflags).Tops rq ↔
      ∀ i ∈ ys.takeWhile (fun i => decide (i ≠ x)),
        missed rq start endseq i = false := by
  unfold Call.Tops missed
  rw [hHolds.shape.order_eq, hHolds.shape.stack_eq]
  simp only [decide_eq_false_iff_not, not_not]
  constructor
  · intro hAll
    exact hAll x hKept.mem hKept.joined hKept.first
  · intro hAll k hk hJoined hFirst
    rw [hKept.unique hHolds hk hJoined hFirst]
    exact hAll

end ReassemblyQueue

end Ns2

------------------------------------------------------------
-- Runs with SACK Blocks
------------------------------------------------------------

namespace Ns2

namespace ReassemblyQueue

open IntervalList
open PartialRun (Throughout)

variable {rq rq' : ReassemblyQueue}
variable {xs ys fs xs' ys' fs' : List Nat} {x : Nat}
variable {covered : Finset Int}
variable {start endseq rcvNxt : Int} {t ret rqflags : Nat}
variable {calls : List Call}

theorem recent_concat
    {c : Call} :
    recent (calls ++ [c]) = recentCall (recent calls) c := by
  unfold recent
  rw [List.foldl_append]
  rfl

/- The stack has the blocks, the one changed last on top. -/
structure Ranked
    (calls : List Call)
    (rq : ReassemblyQueue)
    (xs ys fs : List Nat)
    (covered : Finset Int) : Prop where
  holds : Holds rq xs ys fs covered
  recent_eq : recent calls = ys.map rq.interval

/- Blocks are told by their numbers. -/
theorem Holds.interval_inj
    {i j : Nat}
    (hHolds : Holds rq xs ys fs covered)
    (hi : i ∈ xs)
    (hj : j ∈ xs)
    (hEq : rq.interval i = rq.interval j) :
    i = j := by
  have hPos := normal_pos hHolds.normal hj
  exact hHolds.eq_of_overlap hj hi
    (n := (rq.interval j).1) (by omega)
    (by rw [hEq]; omega)

/- The blocks that a segment leaves, behind its own. -/
theorem Landed.recent_eq
    (hLanded : Landed rq rq' xs ys xs' ys' start endseq t ret
      x)
    (hHolds : Holds rq xs ys fs covered)
    (hDone : Holds rq' xs' ys' fs'
      (covered ∪ values start endseq))
    (hLt : start < endseq) :
    recentCall (ys.map rq.interval)
        (.add start endseq t rqflags) =
      rq'.interval x ::
        (ys.filter (missed rq start endseq)).map
          rq'.interval := by
  unfold recentCall
  simp only
  rw [hLanded.hull_eq hHolds hDone hLt]
  congr 1
  rw [List.filter_map]
  have hSame : (fun b => !touching start endseq b) ∘
      rq.interval = missed rq start endseq := by
    funext i
    unfold missed
    rw [decide_not]
    rfl
  rw [hSame]
  apply List.map_congr_left
  intro i hi
  rcases List.mem_filter.mp hi with ⟨hIn, hMissed⟩
  have hOld := hHolds.shape.perm.mem_iff.mp hIn
  have hStays :=
    (hLanded.others_iff hHolds hDone hLt i).mpr
      ⟨hOld, of_decide_eq_true hMissed⟩
  unfold interval
  rw [(hLanded.others i hStays.1 hStays.2).2]

/- A segment keeps the order exactly if its block is on top. -/
theorem Ranked.add_iff
    (hRanked : Ranked calls rq xs ys fs covered)
    (hLanded : Landed rq rq' xs ys xs' ys' start endseq t ret
      x)
    (hDone : Holds rq' xs' ys' fs'
      (covered ∪ values start endseq))
    (hLt : start < endseq) :
    recent (calls ++ [.add start endseq t rqflags]) =
        ys'.map rq'.interval ↔
      (Call.add start endseq t rqflags).Tops rq := by
  have hHolds := hRanked.holds
  rw [recent_concat, hRanked.recent_eq,
    hLanded.recent_eq hHolds hDone hLt]
  rcases hLanded.place with hCreated | hKept
  · apply iff_of_true
    · rw [hLanded.stack_created hHolds hDone hLt hCreated]
      rfl
    · intro k hk hJoined
      exfalso
      rw [hHolds.shape.order_eq] at hk
      have hAlone := hCreated.alone k hk
      exact hJoined.elim hAlone.1 hAlone.2
  · have hStack := hLanded.stack_kept hHolds hDone hLt hKept
    have hNodup := hHolds.shape.lifo.nodup
    have hx : x ∈ ys :=
      hHolds.shape.perm.mem_iff.mpr hKept.mem
    rw [hKept.tops_iff hHolds]
    constructor
    · intro hEq
      apply (filter_top_iff hNodup hx).mp
      rw [← hStack]
      rcases ys' with _ | ⟨y, zs⟩
      · cases hEq
      · rw [List.map_cons, List.cons.injEq] at hEq
        have hy : y ∈ xs' :=
          hDone.shape.perm.mem_iff.mp List.mem_cons_self
        rw [hDone.interval_inj hy hLanded.mem hEq.1.symm]
        rfl
    · intro hAll
      have hMeets : missed rq start endseq x = false := by
        have hPos := normal_pos hHolds.normal hKept.mem
        unfold missed
        apply decide_eq_false
        rw [not_not]
        rcases hKept.joined with hJoins | hExact
        · exact hJoins.1
        · unfold Meets
          rw [hExact]
          exact ⟨hLt.le, hLt.le⟩
      rw [hStack, filter_top hNodup hx hMeets hAll]
      rfl

/- Clearing cuts the blocks where they are. -/
theorem Ranked.clearto
    (hRanked : Ranked calls rq xs ys fs covered)
    (seq : Int) :
    ∃ rq' xs' ys' fs' covered',
      rq.call (.clearto seq) = some rq' ∧
      Ranked (calls ++ [.clearto seq]) rq' xs' ys' fs'
        covered' := by
  have hHolds := hRanked.holds
  rcases clearto_spec hHolds seq with
    ⟨r, xs', ys', fs', hClear, hDone, hCleared⟩
  refine ⟨r.2, xs', ys', fs', covered.filter (seq ≤ ·), ?_,
    hDone, ?_⟩
  · unfold call
    simp only
    rw [hClear, Option.map_some]
  · have hStack : ys' = ys.filter
        (fun i => decide (seq < (rq.interval i).2)) := by
      apply sublist_eq_filter hCleared.stack
        hHolds.shape.lifo.nodup
      intro i hi
      rw [hDone.shape.perm.mem_iff, hCleared.mem_iff,
        decide_eq_true_eq]
      exact and_iff_right (hHolds.shape.perm.mem_iff.mp hi)
    have hCut : ys'.map r.2.interval = ys'.map fun i =>
        (max seq (rq.interval i).1, (rq.interval i).2) := by
      apply List.map_congr_left
      intro i hi
      exact hCleared.cut i (hDone.shape.perm.mem_iff.mp hi)
    rw [recent_concat, hRanked.recent_eq, hCut, hStack]
    unfold recentCall
    simp only
    rw [List.filter_map, List.map_map]
    rfl

theorem ranked_new
    (rcvNxt : Int) :
    Ranked [] (new rcvNxt) [] [] [] ∅ :=
  ⟨holds_new rcvNxt, rfl⟩

/- What `gensack` reports tells whether the stack is in order. -/
theorem Holds.ranked_of_gensack
    (hHolds : Holds rq xs ys fs covered)
    (hReports : ∀ n, rq.gensack n = (recent calls).take n) :
    Ranked calls rq xs ys fs covered := by
  refine ⟨hHolds, ?_⟩
  have hAll := hReports (ys.length + (recent calls).length)
  rw [hHolds.shape.gensack_eq,
    List.take_of_length_le (by simp),
    List.take_of_length_le (by omega)] at hAll
  exact hAll.symm

theorem Ranked.reports
    (hRanked : Ranked calls rq xs ys fs covered) :
    ReportsRecent calls rq := by
  have hHolds := hRanked.holds
  have hPerm := hHolds.shape.perm
  constructor
  case gensack_eq =>
    intro n
    rw [hHolds.shape.gensack_eq, hRanked.recent_eq]
  case perm =>
    rw [hRanked.recent_eq, hHolds.shape.order_eq]
    exact hPerm.map rq.interval
  case nodup =>
    rw [hRanked.recent_eq]
    apply List.Nodup.map_on _ hHolds.shape.lifo.nodup
    intro i hi j hj hEq
    exact hHolds.interval_inj (hPerm.mem_iff.mp hi)
      (hPerm.mem_iff.mp hj) hEq
  case first =>
    intro before start endseq tiflags rqflags hLast
    rw [hLast, recent_concat]
    refine ⟨_, rfl, ?_, ?_⟩
    · unfold hull
      simp only
      generalize List.filter _ _ = blocks
      induction blocks with
      | nil => exact le_rfl
      | cons b blocks ih => exact (min_le_right _ _).trans ih
    · unfold hull
      simp only
      generalize List.filter _ _ = blocks
      induction blocks with
      | nil => exact le_rfl
      | cons b blocks ih => exact ih.trans (le_max_right _ _)

theorem Ranked.call
    {c : Call}
    (hRanked : Ranked calls rq xs ys fs covered)
    (hSacked : c.Sacked)
    (hTops : c.Tops rq) :
    ∃ rq' xs' ys' fs' covered', rq.call c = some rq' ∧
      Ranked (calls ++ [c]) rq' xs' ys' fs' covered' := by
  cases c with
  | clearto seq => exact hRanked.clearto seq
  | clear => exact absurd hSacked id
  | add start endseq t rqflags =>
      have hLt : start < endseq := hSacked
      rcases add_spec hRanked.holds hLt t rqflags with
        ⟨r, xs', ys', fs', x, hAdd, hDone, hLanded⟩
      refine ⟨r.2, xs', ys', fs',
        covered ∪ values start endseq, ?_, hDone,
        (hRanked.add_iff hLanded hDone hLt).mpr hTops⟩
      unfold ReassemblyQueue.call
      simp only
      rw [hAdd, Option.map_some]

theorem run_ranked
    (hSacked : ∀ c ∈ calls, c.Sacked)
    (hTops : Throughout call (fun rq c => c.Tops rq)
      (new rcvNxt) calls) :
    ∃ rq, PartialRun.run call (new rcvNxt) calls = some rq ∧
      ∃ xs ys fs covered,
        Ranked calls rq xs ys fs covered := by
  apply @PartialRun.progress _ _ ReassemblyQueue.call
    (fun calls rq => ∃ xs ys fs covered,
      Ranked calls rq xs ys fs covered)
    (fun _ rq c => c.Sacked ∧ c.Tops rq)
  · rintro before rq c ⟨xs, ys, fs, covered, hRanked⟩
      ⟨hSack, hTop⟩
    rcases hRanked.call hSack hTop with
      ⟨rq', xs', ys', fs', covered', hCall, hNext⟩
    exact ⟨rq', hCall, xs', ys', fs', covered', hNext⟩
  · exact ⟨[], [], [], ∅, ranked_new rcvNxt⟩
  · intro before c after rq hEq hRun
    exact ⟨hSacked c (by simp [hEq]),
      hTops before c after rq hEq hRun⟩

theorem run_sacked
    (hSacked : ∀ c ∈ calls, c.Sacked) :
    ∃ rq, PartialRun.run call (new rcvNxt) calls =
      some rq := by
  have h := @PartialRun.progress _ _ ReassemblyQueue.call
    (fun _ rq => ∃ xs ys fs covered,
      Holds rq xs ys fs covered)
    (fun _ _ c => c.Sacked) ?_ (new rcvNxt) calls
    ⟨[], [], [], ∅, holds_new rcvNxt⟩ ?_
  · rcases h with ⟨rq, hRun, _⟩
    exact ⟨rq, hRun⟩
  · rintro before rq c ⟨xs, ys, fs, covered, hHolds⟩ hSack
    have hProper : c.Proper := by
      cases c with
      | add start endseq t rqflags => exact hSack
      | clearto seq => trivial
      | clear => trivial
    rcases call_spec hHolds hProper with
      ⟨rq', xs', ys', fs', hCall, hDone⟩
    exact ⟨rq', hCall, xs', ys', fs', _, hDone⟩
  · intro before c after rq hEq _
    exact hSacked c (by simp [hEq])

/- Where all reports are right, every block was on top. -/
theorem throughout_tops
    (hSacked : ∀ c ∈ calls, c.Sacked)
    (hReports : ∀ before after rq, calls = before ++ after →
      PartialRun.run call (new rcvNxt) before = some rq →
      ReportsRecent before rq) :
    Throughout call (fun rq c => c.Tops rq) (new rcvNxt)
      calls := by
  induction calls using List.reverseRecOn with
  | nil => exact PartialRun.throughout_nil _
  | append_singleton calls c ih =>
      have hBefore : ∀ d ∈ calls, d.Sacked := by
        intro d hd
        exact hSacked d (by simp [hd])
      have hTops := ih hBefore (by
        intro before after rq hEq hRun
        apply hReports before (after ++ [c]) rq ?_ hRun
        rw [hEq, List.append_assoc])
      rcases run_ranked hBefore hTops with
        ⟨rq, hRun, xs, ys, fs, covered, hRanked⟩
      rw [PartialRun.throughout_concat hRun]
      refine ⟨hTops, ?_⟩
      have hSack := hSacked c (by simp)
      cases c with
      | clearto seq => trivial
      | clear => trivial
      | add start endseq t rqflags =>
          have hLt : start < endseq := hSack
          rcases add_spec hRanked.holds hLt t rqflags with
            ⟨r, xs', ys', fs', x, hAdd, hDone, hLanded⟩
          have hCall : rq.call
              (.add start endseq t rqflags) = some r.2 := by
            unfold ReassemblyQueue.call
            simp only
            rw [hAdd, Option.map_some]
          have hNext := hReports
            (calls ++ [.add start endseq t rqflags]) [] r.2
            (by simp) (by
              rw [PartialRun.run_append, hRun]
              simp only [Option.bind_some, PartialRun.run,
                hCall])
          exact (hRanked.add_iff hLanded hDone hLt).mp
            (hDone.ranked_of_gensack
              hNext.gensack_eq).recent_eq

/-
  In a run of segments added and cleared, the reports always
  have the block changed last first, and every block of the
  queue once, exactly if each segment gets a new node or
  lands in a block that is on top of the stack, but for
  blocks that the segment takes in.
-/
theorem most_recent_iff
    (rcvNxt : Int)
    (calls : List Call)
    (hSacked : ∀ c ∈ calls, c.Sacked) :
    (∃ rq,
      PartialRun.run call (new rcvNxt) calls = some rq) ∧
    ((∀ before after rq, calls = before ++ after →
      PartialRun.run call (new rcvNxt) before = some rq →
      ReportsRecent before rq) ↔
    Throughout call (fun rq c => c.Tops rq) (new rcvNxt)
      calls) := by
  refine ⟨run_sacked hSacked, throughout_tops hSacked, ?_⟩
  intro hTops before after rq hEq hRun
  rw [hEq] at hTops
  have hBefore : ∀ c ∈ before, c.Sacked := by
    intro c hc
    exact hSacked c (by simp [hEq, hc])
  rcases run_ranked hBefore
      (PartialRun.throughout_append_left hTops) with
    ⟨rq₁, hRun₁, xs, ys, fs, covered, hRanked⟩
  rw [hRun] at hRun₁
  cases hRun₁
  exact hRanked.reports

/- Two blocks with a hole, and the second one cut. -/
theorem most_recent_iff_hole :
    ∃ rq, PartialRun.run call (new 0)
      [.add 5 9 0 0, .add 12 15 0 0, .clearto 7] = some rq :=
  (most_recent_iff 0
    [.add 5 9 0 0, .add 12 15 0 0, .clearto 7] (by
      intro c hc
      simp only [List.mem_cons, List.not_mem_nil, or_false]
        at hc
      rcases hc with rfl | rfl | rfl
      · show (5 : Int) < 9
        decide
      · show (12 : Int) < 15
        decide
      · trivial)).1

/-
  The segment [5, 7) joins the block [0, 5), but the report
  has the block [10, 15) first.
-/
theorem old_block_first :
    ∃ rq,
      PartialRun.run call (new 0)
        [.add 0 5 0 0, .add 10 15 0 0, .add 5 7 0 0] =
          some rq ∧
      rq.order.map rq.interval = [(0, 7), (10, 15)] ∧
      rq.gensack 1 = [(10, 15)] := by
  refine ⟨_, rfl, ?_, ?_⟩
  · decide
  · decide

end ReassemblyQueue

end Ns2
