import Ns2.Tcp.ReassemblyQueue.Merging

/-
  Merging in the reassembly queue.

  A segment that overlaps blocks in part overlaps at most
  two; both are widened, and what lies between them is linked
  as a new block.

  Main declarations:
    * `ReassemblyQueue.Overlaps`
    * `ReassemblyQueue.Landed.widen`
    * `ReassemblyQueue.merge_spec`
-/

------------------------------------------------------------
-- Widening Blocks
------------------------------------------------------------

namespace Ns2

namespace ReassemblyQueue

open IntervalList

variable {rq rq' : ReassemblyQueue}
variable {as bs cs xs ys fs : List Nat} {x p q : Nat}
variable {lo hi start endseq : Int} {covered : Finset Int}

section Fields

variable {i t : Nat}

theorem widenLeft_others
    (hNe : i ≠ x) :
    (rq.widenLeft x start t).seg i = rq.seg i := by
  unfold widenLeft
  simp only
  rw [modify_seg_of_ne hNe]
  split
  · exact Function.update_of_ne hNe _ _
  · rfl

theorem widenLeft_flags :
    ((rq.widenLeft x start t).seg x).pflags =
      (rq.seg x).pflags ||| t := by
  unfold widenLeft
  simp only
  rw [modify_seg]
  split
  · simp only
    rw [modify_seg]
  · rfl

theorem widenLeft_rcvNxt :
    (rq.widenLeft x start t).rcvNxt = rq.rcvNxt := by
  unfold widenLeft
  simp only [ReassemblyQueue.modify]
  split <;> rfl

theorem widenRight_others
    (hNe : i ≠ x) :
    (rq.widenRight x endseq t).seg i = rq.seg i := by
  unfold widenRight
  simp only
  rw [modify_seg_of_ne hNe]
  split
  · exact Function.update_of_ne hNe _ _
  · rfl

theorem widenRight_flags :
    ((rq.widenRight x endseq t).seg x).pflags =
      (rq.seg x).pflags ||| t := by
  unfold widenRight
  simp only
  rw [modify_seg]
  split
  · simp only
    rw [modify_seg]
  · rfl

theorem widenRight_rcvNxt :
    (rq.widenRight x endseq t).rcvNxt = rq.rcvNxt := by
  unfold widenRight
  simp only [ReassemblyQueue.modify]
  split <;> rfl

end Fields

theorem Holds.mem
    (hHolds : Holds rq xs ys fs covered)
    (hx : x ∈ xs)
    {i : Int}
    (hLow : (rq.interval x).1 ≤ i)
    (hHigh : i < (rq.interval x).2) :
    i ∈ covered := by
  rw [← hHolds.cover_eq]
  exact mem_cover.mpr ⟨_, mem_blocks hx, hLow, hHigh⟩

/- The numbers covered are in the intervals of the blocks. -/
theorem Holds.mem_iff
    (hHolds : Holds rq xs ys fs covered)
    (i : Int) :
    i ∈ covered ↔ ∃ x ∈ xs, (rq.interval x).1 ≤ i ∧
      i < (rq.interval x).2 := by
  rw [← hHolds.cover_eq, mem_cover]
  constructor
  · rintro ⟨b, hb, hIn⟩
    rcases List.mem_map.mp hb with ⟨x, hx, rfl⟩
    exact ⟨x, hx, hIn⟩
  · rintro ⟨x, hx, hIn⟩
    exact ⟨_, mem_blocks hx, hIn⟩

/- There is a gap between any two blocks. -/
theorem Holds.gap
    {z : Nat}
    (hHolds : Holds rq xs ys fs covered)
    (hx : x ∈ xs)
    (hz : z ∈ xs)
    (hNe : z ≠ x) :
    (rq.interval z).2 < (rq.interval x).1 ∨
      (rq.interval x).2 < (rq.interval z).1 := by
  have hNormal := hHolds.normal
  rcases List.append_of_mem hx with ⟨as, bs, rfl⟩
  rcases List.mem_append.mp hz with hIn | hIn
  · exact Or.inl (normal_gap hNormal hIn List.mem_cons_self)
  · right
    have hBack := (List.mem_cons.mp hIn).resolve_left hNe
    have hList : as ++ x :: bs = (as ++ [x]) ++ bs := by simp
    rw [hList] at hNormal
    exact normal_gap hNormal (by simp) hBack

/- A block that holds one of the numbers holds them all. -/
theorem Holds.contains
    {l : Int}
    (hHolds : Holds rq xs ys fs covered)
    (hx : x ∈ xs)
    (hSub : values start endseq ⊆ covered)
    (hLow : (rq.interval x).1 ≤ l)
    (hHigh : l < (rq.interval x).2)
    (hStart : start ≤ l)
    (hEnd : l < endseq) :
    (rq.interval x).1 ≤ start ∧ endseq ≤ (rq.interval x).2 := by
  constructor
  · by_contra hNot
    have hIn : (rq.interval x).1 - 1 ∈ covered := by
      apply hSub
      rw [mem_values]
      omega
    rcases (hHolds.mem_iff _).mp hIn with ⟨z, hz, hzl, hzh⟩
    by_cases hEq : z = x
    · subst hEq
      omega
    · have hGap := hHolds.gap hx hz hEq
      omega
  · by_contra hNot
    have hIn : (rq.interval x).2 ∈ covered := by
      apply hSub
      rw [mem_values]
      omega
    rcases (hHolds.mem_iff _).mp hIn with ⟨z, hz, hzl, hzh⟩
    by_cases hEq : z = x
    · subst hEq
      omega
    · have hGap := hHolds.gap hx hz hEq
      omega

/- A change of a block that leaves its numbers alone. -/
theorem Between.modify
    {f : Seginfo → Seginfo}
    (hBetween : Between rq rq' as x bs ys fs lo hi)
    (hStart : ∀ s, (f s).startseq = s.startseq)
    (hEnd : ∀ s, (f s).endseq = s.endseq) :
    Between rq (rq'.modify x f) as x bs ys fs lo hi := by
  apply Between.rebase _ hBetween.others
  apply hBetween.shape.modify_between
  · rw [hStart]
    exact congrArg Prod.fst hBetween.here
  · rw [hEnd]
    exact congrArg Prod.snd hBetween.here

theorem Shape.between_self
    (hShape : Shape rq (as ++ x :: bs) ys fs) :
    Between rq rq as x bs ys fs
      (rq.interval x).1 (rq.interval x).2 :=
  ⟨hShape, rfl, fun _ _ => rfl⟩

theorem widenLeft_between
    (hShape : Shape rq (as ++ x :: bs) ys fs)
    (start : Int)
    (tiflags : Nat) :
    Between rq (rq.widenLeft x start tiflags) as x bs ys fs
        (min start (rq.interval x).1) (rq.interval x).2 ∧
      (rq.widenLeft x start tiflags).total = rq.total +
        ((rq.interval x).1 - min start (rq.interval x).1) := by
  unfold widenLeft
  by_cases hLess : start < (rq.seg x).startseq
  · simp only [if_pos hLess]
    have hMin : min start (rq.interval x).1 = start :=
      min_eq_left hLess.le
    rw [hMin]
    refine ⟨?_, rfl⟩
    apply Between.modify
    · have hHere := hShape.modify_between
        (f := fun s => { s with startseq := start })
        rfl rfl
      exact ⟨hHere.shape.congr rfl rfl rfl rfl,
        hHere.here, hHere.others⟩
    · intro s
      rfl
    · intro s
      rfl
  · simp only [if_neg hLess]
    have hMin : min start (rq.interval x).1 =
        (rq.interval x).1 :=
      min_eq_right (not_lt.mp hLess)
    rw [hMin]
    constructor
    · apply hShape.between_self.modify <;> intro s <;> rfl
    · rw [sub_self, add_zero]
      rfl

theorem widenRight_between
    (hShape : Shape rq (as ++ x :: bs) ys fs)
    (endseq : Int)
    (tiflags : Nat) :
    Between rq (rq.widenRight x endseq tiflags) as x bs ys fs
        (rq.interval x).1 (max endseq (rq.interval x).2) ∧
      (rq.widenRight x endseq tiflags).total = rq.total +
        (max endseq (rq.interval x).2 -
          (rq.interval x).2) := by
  unfold widenRight
  by_cases hLess : (rq.seg x).endseq < endseq
  · simp only [if_pos hLess]
    have hMax : max endseq (rq.interval x).2 = endseq :=
      max_eq_left hLess.le
    rw [hMax]
    refine ⟨?_, rfl⟩
    apply Between.modify
    · have hHere := hShape.modify_between
        (f := fun s => { s with endseq := endseq })
        rfl rfl
      exact ⟨hHere.shape.congr rfl rfl rfl rfl,
        hHere.here, hHere.others⟩
    · intro s
      rfl
    · intro s
      rfl
  · simp only [if_neg hLess]
    have hMax : max endseq (rq.interval x).2 =
        (rq.interval x).2 :=
      max_eq_right (not_lt.mp hLess)
    rw [hMax]
    constructor
    · apply hShape.between_self.modify <;> intro s <;> rfl
    · rw [sub_self, add_zero]
      rfl

/- The block behind `p` is merged, or the first one. -/
theorem mergeLeft_merge
    (hShape : Shape rq (as ++ x :: cs) ys fs)
    (hCase : as = [] ∨ (rq.interval x).1 < start)
    (tiflags : Nat)
    (initcnt : Int) :
    rq.mergeLeft as.getLast? start tiflags initcnt =
      some ⟨rq.widenLeft x start tiflags, some x,
        (rq.interval x).2, true, initcnt - 1⟩ := by
  unfold mergeLeft
  rcases List.eq_nil_or_concat as with rfl | ⟨as, p, rfl⟩
  · simp only [List.getLast?_nil]
    rw [hShape.fifo.first_eq]
    rfl
  · rw [List.concat_eq_append] at hShape hCase ⊢
    simp only [List.getLast?_concat]
    have hStart : (rq.seg x).startseq < start := by
      rcases hCase with hNil | hLess
      · simp at hNil
      · exact hLess
    have hLists : rq.fifo.Lists (as ++ p :: x :: cs) := by
      simpa using hShape.fifo
    rw [hLists.next_eq]
    simp [hStart, interval]

theorem mergeLeft_skip
    (hShape : Shape rq (as ++ p :: x :: cs) ys fs)
    (hCase : start ≤ (rq.interval x).1)
    (tiflags : Nat)
    (initcnt : Int) :
    rq.mergeLeft (some p) start tiflags initcnt =
      some ⟨rq, some p, start, false, initcnt⟩ := by
  unfold mergeLeft
  simp only
  have hNot : ¬ (rq.seg x).startseq < start :=
    not_lt.mpr hCase
  rw [hShape.fifo.next_eq, List.head?_cons, Option.map_some,
    if_neg hNot]

/- The block before `q` is merged, or the last one. -/
theorem mergeRight_merge
    (hShape : Shape rq (cs ++ x :: bs) ys fs)
    (hCase : bs = [] ∨ endseq < (rq.interval x).2)
    (tiflags : Nat)
    (needmerge : Bool)
    (initcnt : Int) :
    rq.mergeRight bs.head? endseq tiflags needmerge initcnt =
      some ⟨rq.widenRight x endseq tiflags, some x,
        (rq.interval x).1, true, initcnt⟩ := by
  unfold mergeRight
  cases bs with
  | nil =>
      simp only [List.head?_nil]
      rw [hShape.fifo.last_eq, List.getLast?_concat]
      rfl
  | cons q bs =>
      simp only [List.head?_cons]
      have hEnd : endseq < (rq.seg x).endseq := by
        rcases hCase with hNil | hLess
        · cases hNil
        · exact hLess
      have hLists : rq.fifo.Lists ((cs ++ [x]) ++ q :: bs) := by
        simpa using hShape.fifo
      rw [hLists.prev_eq, List.getLast?_concat]
      simp [hEnd, interval]

theorem mergeRight_skip
    (hShape : Shape rq (cs ++ x :: q :: bs) ys fs)
    (hCase : (rq.interval x).2 ≤ endseq)
    (tiflags : Nat)
    (needmerge : Bool)
    (initcnt : Int) :
    rq.mergeRight (some q) endseq tiflags needmerge initcnt =
      some ⟨rq, some q, endseq, needmerge, initcnt⟩ := by
  unfold mergeRight
  simp only
  have hLists : rq.fifo.Lists ((cs ++ [x]) ++ q :: bs) := by
    simpa using hShape.fifo
  have hNot : ¬ endseq < (rq.seg x).endseq :=
    not_lt.mpr hCase
  rw [hLists.prev_eq, List.getLast?_concat, Option.map_some,
    if_neg hNot]

end ReassemblyQueue

end Ns2

------------------------------------------------------------
-- Partial Overlaps
------------------------------------------------------------

namespace Ns2

namespace ReassemblyQueue

open IntervalList

/- The blocks around a segment that overlaps `mid` in part. -/
structure Overlaps
    (rq : ReassemblyQueue)
    (as mid bs : List Nat)
    (start endseq : Int) : Prop where
  lt : start < endseq
  low : ∀ a ∈ as, (rq.interval a).2 ≤ start
  high : ∀ b ∈ bs, endseq ≤ (rq.interval b).1
  overlap : ∀ m ∈ mid, start < (rq.interval m).2 ∧
    (rq.interval m).1 < endseq
  partly : ∀ m ∈ mid, ¬ (start ≤ (rq.interval m).1 ∧
    (rq.interval m).2 ≤ endseq)

variable {rq : ReassemblyQueue}
variable {as bs mid ys fs : List Nat} {x y p q : Nat}
variable {start endseq : Int} {covered : Finset Int}

/- A segment between two blocks, overlapping none. -/
theorem merge_none
    (hHolds : Holds rq (as ++ p :: q :: bs) ys fs covered)
    (hOver : Overlaps rq (as ++ [p]) [] (q :: bs)
      start endseq)
    (tiflags rqflags : Nat)
    (initcnt : Int) :
    ∃ r xs' ys' fs' x,
      rq.merge (some p) (some q) start endseq tiflags rqflags
        initcnt = some r ∧
      Holds r.2 xs' ys' fs'
        (covered ∪ values start endseq) ∧
      Landed rq r.2 (as ++ p :: q :: bs) ys xs' ys' start
        endseq tiflags r.1 x := by
  have hShape := hHolds.shape
  have hLt := hOver.lt
  have hp : (rq.interval p).2 ≤ start :=
    hOver.low p (by simp)
  have hq : endseq ≤ (rq.interval q).1 :=
    hOver.high q (by simp)
  have hEndP : (rq.seg p).endseq = (rq.interval p).2 := rfl
  have hStartQ : (rq.seg q).startseq = (rq.interval q).1 :=
    rfl
  have hAfter : start ≤ (rq.interval q).1 := by omega
  have hBefore : (rq.interval p).2 ≤ endseq := by omega
  have hLeft := mergeLeft_skip hShape hAfter tiflags initcnt
  have hRight := mergeRight_skip hShape hBefore tiflags false
    initcnt
  have hTouches : rq.touches (some p) (some q) start endseq =
      some (decide ((rq.interval p).2 = start ∨
        (rq.interval q).1 = endseq)) := by
    unfold touches
    simp only
    rw [hShape.fifo.next_eq, if_pos ⟨rfl, hp⟩]
    simp [hEndP, hStartQ, hq]
  have hList : as ++ p :: q :: bs =
      (as ++ [p]) ++ (q :: bs) := by
    simp
  rw [hList] at hHolds ⊢
  rcases hHolds.link_spec
      ⟨start, endseq, tiflags, rqflags, initcnt⟩
      (decide ((rq.interval p).2 = start ∨
        (rq.interval q).1 = endseq))
      hLt hOver.low hOver.high (by simp) with
    ⟨r, xs', ys', fs', x, hLink, hDone, hLanded⟩
  rw [List.getLast?_concat, List.head?_cons] at hLink
  refine ⟨r, xs', ys', fs', x, ?_, hDone, hLanded⟩
  unfold merge
  rw [hLeft, Option.bind_some]
  simp only
  rw [hRight, Option.bind_some]
  simp only [if_neg (not_le.mpr hLt)]
  rw [if_neg (by decide), hTouches, Option.bind_some]
  exact hLink

theorem Holds.advance
    {xs : List Nat}
    (hHolds : Holds rq xs ys fs covered)
    (a b : Int) :
    Holds (rq.advance a b) xs ys fs covered := by
  have hBlocks : (rq.advance a b).blocks xs = rq.blocks xs := by
    apply blocks_congr
    intro i _
    unfold interval
    rw [advance_seg]
  constructor
  case shape => exact hHolds.shape.advance
  case normal => rw [hBlocks]; exact hHolds.normal
  case total_eq =>
    rw [hBlocks, advance_total]
    exact hHolds.total_eq
  case cover_eq => rw [hBlocks]; exact hHolds.cover_eq

theorem Holds.cast
    {xs : List Nat}
    {covered' : Finset Int}
    (hHolds : Holds rq xs ys fs covered)
    (hSame : covered = covered') :
    Holds rq xs ys fs covered' :=
  hSame ▸ hHolds

theorem Between.same
    {rq' : ReassemblyQueue}
    (hBetween : Between rq rq' as x bs ys fs
      (rq.interval x).1 (rq.interval x).2) :
    ∀ i ∈ as ++ x :: bs, rq'.interval i = rq.interval i := by
  intro i hi
  rcases List.mem_cons.mp (List.perm_middle.mem_iff.mp hi)
    with rfl | hIn
  · exact hBetween.here
  · exact hBetween.others i hIn

/- A block whose numbers stay the same. -/
theorem Holds.of_same
    {rq' : ReassemblyQueue}
    {ys' fs' : List Nat}
    (hHolds : Holds rq (as ++ ([x] ++ bs)) ys fs covered)
    (hBetween : Between rq rq' as x bs ys' fs'
      (rq.interval x).1 (rq.interval x).2)
    (hTotal : rq'.total = rq.total) :
    Holds rq' (as ++ x :: bs) ys' fs' covered := by
  have hBlocks : rq'.blocks (as ++ x :: bs) =
      rq.blocks (as ++ ([x] ++ bs)) := by
    rw [hBetween.blocks_eq]
    simp
  constructor
  case shape => exact hBetween.shape
  case normal => rw [hBlocks]; exact hHolds.normal
  case total_eq =>
    rw [hBlocks, hTotal]
    exact hHolds.total_eq
  case cover_eq => rw [hBlocks]; exact hHolds.cover_eq

/-
  The queue `rq'` has the blocks of `rq`; those that join the
  segment may have its flags as well.
-/
structure Widened
    (rq rq' : ReassemblyQueue)
    (xs : List Nat)
    (start endseq : Int)
    (tiflags : Nat) : Prop where
  same : ∀ i ∈ xs, rq'.interval i = rq.interval i
  others : ∀ i ∈ xs, ¬ Joins rq start endseq i →
    rq'.seg i = rq.seg i
  flags : ∀ i ∈ xs, (rq'.seg i).pflags ||| tiflags =
    (rq.seg i).pflags ||| tiflags
  point : rq'.rcvNxt = rq.rcvNxt

/-
  Linking what the blocks leave of a segment brings the whole
  segment to its block.
-/
theorem Landed.widen
    {rq' d : ReassemblyQueue}
    {xs xs' ys' fs' : List Nat}
    {covered' : Finset Int}
    {l r : Int}
    {t ret : Nat}
    (hLanded : Landed rq' d xs ys xs' ys' l r t ret x)
    (hWide : Widened rq rq' xs start endseq t)
    (hDone : Holds d xs' ys' fs' covered')
    (hCovered : values start endseq ⊆ covered')
    (hLow : start ≤ l)
    (hLt : l < r)
    (hHigh : r ≤ endseq)
    (hApart : Apart rq xs l r)
    (hInside : ∀ i ∈ xs, ¬ Inside rq start endseq i)
    (hJoins : ∀ i ∈ xs,
      Meets rq l r i ↔ Meets rq start endseq i)
    (hSome : ∃ i ∈ xs, Meets rq start endseq i)
    (hStops : ¬ Stops rq xs start endseq) :
    Landed rq d xs ys xs' ys' start endseq t ret x := by
  have hApart' : Apart rq' xs l r := by
    constructor
    case lt => exact hLt
    case pos =>
      intro i hi
      rw [hWide.same i hi]
      exact hApart.pos i hi
    case sides =>
      intro i hi
      rw [hWide.same i hi]
      exact hApart.sides i hi
  have hMeets : ∀ i ∈ xs,
      Meets rq' l r i ↔ Meets rq start endseq i := by
    intro i hi
    rw [← hJoins i hi]
    unfold Meets
    rw [hWide.same i hi]
  have hBlock : (d.interval x).1 ≤ start ∧
      endseq ≤ (d.interval x).2 := by
    have hx := hLanded.low
    have hx' := hLanded.high
    exact hDone.contains hLanded.mem hCovered hx
      (by omega) hLow (by omega)
  -- The other blocks of the new queue are apart from it.
  have hFar : ∀ i ∈ xs', i ≠ x →
      i ∈ xs ∧ d.seg i = rq'.seg i ∧
        ¬ Meets rq start endseq i := by
    intro i hi hNe
    rcases hLanded.others i hi hNe with ⟨hOld, hSeg⟩
    refine ⟨hOld, hSeg, ?_⟩
    have hGap := hDone.gap hLanded.mem hi hNe
    have hHere : d.interval i = rq.interval i := by
      rw [← hWide.same i hOld]
      unfold interval
      rw [hSeg]
    rw [hHere] at hGap
    unfold Meets
    omega
  have hGathers : ∀ b,
      Gathers rq xs start endseq t b ↔ t.testBit b = true := by
    intro b
    constructor
    · rintro (hBit | ⟨i, hi, hIn, _⟩)
      · exact hBit
      · exact absurd hIn (hInside i hi)
    · exact Or.inl
  constructor
  case mem => exact hLanded.mem
  case low => exact hBlock.1
  case high => exact hBlock.2
  case others =>
    intro i hi hNe
    rcases hFar i hi hNe with ⟨hOld, hSeg, hNot⟩
    refine ⟨hOld, hSeg.trans ?_⟩
    exact hWide.others i hOld fun hJoin => hNot hJoin.1
  case place =>
    rcases hLanded.place with hCreated | hKept
    · rcases hSome with ⟨i, hi, hMeet⟩
      exfalso
      exact (hCreated.alone i hi).1
        ⟨(hMeets i hi).mpr hMeet, hApart'.not_inside hi⟩
    · right
      have hJoin : Joins rq start endseq x := by
        rcases hKept.joined with hJoin | hExact
        · exact ⟨(hMeets x hKept.mem).mp hJoin.1,
            hInside x hKept.mem⟩
        · exact absurd hExact (hApart'.ne hKept.mem)
      constructor
      case mem => exact hKept.mem
      case joined => exact Or.inl hJoin
      case first =>
        intro i hi hOther
        have hFirst := hKept.first i hi
          ⟨(hMeets i hi).mpr hOther.1,
            hApart'.not_inside hi⟩
        rw [hWide.same x hKept.mem, hWide.same i hi]
          at hFirst
        exact hFirst
      case stack => exact hKept.stack
      case flags =>
        intro b
        have hMixed := congrArg (Nat.testBit · b)
          (hWide.flags x hKept.mem)
        simp only [Nat.testBit_or] at hMixed
        rw [hKept.flags, hApart'.gathers, hGathers,
          ← Bool.or_eq_true, ← Bool.or_eq_true, Bool.or_comm,
          hMixed, Bool.or_comm]
  case told =>
    intro _
    exact hLanded.told hApart'.not_stops
  case untold =>
    intro hStop
    exact absurd hStop hStops
  case point =>
    right
    rcases hLanded.point with ⟨_, i, hi, hExact⟩ |
      ⟨z, hz, hStart, hPoint⟩
    · exact absurd hExact (hApart'.ne hi)
    · refine ⟨z, hz, ?_, ?_⟩
      · by_cases hEq : z = x
        · rw [hEq]
          exact hBlock.1
        · have hGap := hDone.gap hLanded.mem hz hEq
          have hPos := normal_pos hDone.normal hz
          omega
      · rw [hPoint, hWide.point]

/-
  In the queue `rq'` the block `x` has taken the segment in,
  and the segment meets no other block.
-/
structure Stopped
    (rq rq' : ReassemblyQueue)
    (xs : List Nat)
    (start endseq : Int)
    (tiflags x : Nat) : Prop where
  mem : x ∈ xs
  cross : Crosses rq start endseq x
  partly : ¬ Inside rq start endseq x
  only : ∀ i ∈ xs, i ≠ x → ¬ Meets rq start endseq i
  left : (rq.interval x).1 ≤ start ∨
    ∀ i ∈ xs, start < (rq.interval i).2
  right : endseq ≤ (rq.interval x).2 ∨
    ∀ i ∈ xs, (rq.interval i).1 < endseq
  others : ∀ i ∈ xs, i ≠ x → rq'.seg i = rq.seg i
  flags : (rq'.seg x).pflags = (rq.seg x).pflags ||| tiflags
  low : (rq'.interval x).1 ≤ start
  high : endseq ≤ (rq'.interval x).2
  point : rq'.rcvNxt = rq.rcvNxt

/- The in-sequence point moves over the head of the queue. -/
theorem Stopped.landed
    {rq' : ReassemblyQueue}
    {h t : Nat}
    {tl ys' fs' : List Nat}
    (hStopped : Stopped rq rq' (h :: tl) start endseq t x)
    (hHolds : Holds rq' (h :: tl) ys' fs' covered)
    (hStack : ys'.Sublist ys) :
    Landed rq
      (rq'.advance (rq'.seg h).startseq (rq'.seg h).endseq)
      (h :: tl) ys (h :: tl) ys' start endseq t t x := by
  have hCross := hStopped.cross
  have hMeets : Meets rq start endseq x :=
    ⟨hCross.1.le, hCross.2.le⟩
  have hOne : ∀ i ∈ h :: tl,
      Meets rq start endseq i → i = x := by
    intro i hi hMeet
    by_contra hNe
    exact hStopped.only i hi hNe hMeet
  have hStops : Stops rq (h :: tl) start endseq := by
    refine ⟨x, hStopped.mem, ⟨hCross, hStopped.partly⟩, ?_,
      hStopped.left, hStopped.right⟩
    intro i hi hOver _
    exact hOne i hi ⟨hOver.1.le, hOver.2.le⟩
  have hGathers : ∀ b,
      Gathers rq (h :: tl) start endseq t b ↔
        t.testBit b = true := by
    intro b
    constructor
    · rintro (hBit | ⟨i, hi, hIn, _⟩)
      · exact hBit
      · by_cases hEq : i = x
        · exact absurd (hEq ▸ hIn) hStopped.partly
        · exfalso
          have hPos := normal_pos hHolds.normal hi
          have hSame : rq'.interval i = rq.interval i := by
            unfold interval
            rw [hStopped.others i hi hEq]
          rw [hSame] at hPos
          apply hStopped.only i hi hEq
          unfold Inside at hIn
          unfold Meets
          omega
    · exact Or.inl
  constructor
  case mem => exact hStopped.mem
  case low =>
    unfold interval
    rw [advance_seg]
    exact hStopped.low
  case high =>
    unfold interval
    rw [advance_seg]
    exact hStopped.high
  case others =>
    intro i hi hNe
    rw [advance_seg]
    exact ⟨hi, hStopped.others i hi hNe⟩
  case place =>
    right
    constructor
    case mem => exact hStopped.mem
    case joined => exact Or.inl ⟨hMeets, hStopped.partly⟩
    case first =>
      intro i hi hJoins
      rw [hOne i hi hJoins.1]
    case stack => exact hStack
    case flags =>
      intro b
      rw [advance_seg, hStopped.flags, hGathers,
        Nat.testBit_or, Bool.or_eq_true, or_comm]
  case told =>
    intro hNot
    exact absurd hStops hNot
  case untold =>
    intro _ b
    exact (hGathers b).symm
  case point =>
    right
    have hFirst := head_le_starts hHolds.normal x
      hStopped.mem
    have hLow := hStopped.low
    refine ⟨h, List.mem_cons_self, ?_, ?_⟩
    · unfold interval
      rw [advance_seg]
      exact hFirst.trans hLow
    · rw [← hStopped.point]
      exact advance_point

/- The end of a merge with nothing left to link. -/
theorem merge_stop
    {l r : Side}
    {p q : Option Nat}
    {xs : List Nat}
    {tiflags : Nat}
    {initcnt : Int}
    (hLeft : rq.mergeLeft p start tiflags initcnt = some l)
    (hRight : l.rq.mergeRight q endseq tiflags l.needmerge
      l.initcnt = some r)
    (hEdge : r.edge ≤ l.edge)
    (hHolds : Holds r.rq xs ys fs covered)
    (hStopped : Stopped rq r.rq xs start endseq tiflags x)
    (rqflags : Nat) :
    ∃ d xs' ys' fs' z,
      rq.merge p q start endseq tiflags rqflags initcnt =
        some d ∧ Holds d.2 xs' ys' fs' covered ∧
      Landed rq d.2 xs ys xs' ys' start endseq tiflags
        d.1 z := by
  rcases List.exists_cons_of_ne_nil
    (List.ne_nil_of_mem hStopped.mem) with ⟨h, xs, rfl⟩
  unfold merge
  rw [hLeft, Option.bind_some, hRight, Option.bind_some,
    if_pos hEdge, hHolds.shape.fifo.first_eq]
  exact ⟨_, _, ys, fs, x, rfl, hHolds.advance _ _,
    hStopped.landed hHolds (List.Sublist.refl ys)⟩

/- The end of a merge with a block left to link. -/
theorem merge_link
    {l r : Side}
    {p q : Option Nat}
    {tiflags : Nat}
    {initcnt : Int}
    (hLeft : rq.mergeLeft p start tiflags initcnt = some l)
    (hRight : l.rq.mergeRight q endseq tiflags l.needmerge
      l.initcnt = some r)
    (hEdge : l.edge < r.edge)
    (hMerge : r.needmerge = true)
    (hHolds : Holds r.rq (as ++ bs) ys fs covered)
    (hBlockL : l.block = as.getLast?)
    (hBlockR : r.block = bs.head?)
    (hLow : ∀ a ∈ as, (r.rq.interval a).2 ≤ l.edge)
    (hHigh : ∀ b ∈ bs, r.edge ≤ (r.rq.interval b).1)
    (hTouch : (∃ p, as.getLast? = some p ∧
        (r.rq.interval p).2 = l.edge) ∨
      ∃ q, bs.head? = some q ∧ (r.rq.interval q).1 = r.edge)
    (rqflags : Nat) :
    ∃ d xs' ys' fs' z,
      rq.merge p q start endseq tiflags rqflags initcnt =
        some d ∧
      Holds d.2 xs' ys' fs'
        (covered ∪ values l.edge r.edge) ∧
      Landed r.rq d.2 (as ++ bs) ys xs' ys' l.edge r.edge
        tiflags d.1 z := by
  rcases hHolds.link_spec
      ⟨l.edge, r.edge, tiflags, rqflags, r.initcnt⟩ true
      hEdge hLow hHigh
      (iff_of_true rfl hTouch) with
    ⟨d, xs', ys', fs', z, hLink, hDone, hLanded⟩
  refine ⟨d, xs', ys', fs', z, ?_, hDone, hLanded⟩
  unfold merge
  rw [hLeft, Option.bind_some, hRight, Option.bind_some,
    if_neg (not_le.mpr hEdge), if_pos hMerge, hBlockL,
    hBlockR]
  exact hLink

theorem Overlaps.not_inside
    {xs : List Nat}
    (hOver : Overlaps rq as mid bs start endseq)
    (hNormal : Normal (rq.blocks xs))
    (hList : xs = as ++ (mid ++ bs)) :
    ∀ i ∈ xs, ¬ Inside rq start endseq i := by
  intro i hi hInside
  have hPos := normal_pos hNormal hi
  have hLt := hOver.lt
  unfold Inside at hInside
  rw [hList] at hi
  simp only [List.mem_append] at hi
  rcases hi with hIn | hIn | hIn
  · have hFar := hOver.low i hIn
    omega
  · exact hOver.partly i hIn hInside
  · have hFar := hOver.high i hIn
    omega

/- A segment that overlaps one block, on its right side. -/
theorem merge_one_left
    (hHolds : Holds rq (as ++ ([x] ++ bs)) ys fs covered)
    (hOver : Overlaps rq as [x] bs start endseq)
    (hCase : as = [] ∨ (rq.interval x).1 < start)
    (tiflags rqflags : Nat)
    (initcnt : Int) :
    ∃ d xs' ys' fs' z,
      rq.merge as.getLast? bs.head? start endseq tiflags
        rqflags initcnt = some d ∧
      Holds d.2 xs' ys' fs'
        (covered ∪ values start endseq) ∧
      Landed rq d.2 (as ++ ([x] ++ bs)) ys xs' ys' start
        endseq tiflags d.1 z := by
  have hLt := hOver.lt
  have hOverlap := hOver.overlap x (by simp)
  have hPartly := hOver.partly x (by simp)
  have hShape : Shape rq (as ++ x :: bs) ys fs :=
    hHolds.shape
  have hNormal : Normal (rq.blocks (as ++ x :: bs)) :=
    hHolds.normal
  have hPos := normal_pos hNormal (x := x) (by simp)
  have hNormal' : Normal (rq.blocks ((as ++ [x]) ++ bs)) := by
    simpa using hNormal
  have hLeft := mergeLeft_merge hShape hCase tiflags initcnt
  rcases widenLeft_between hShape start tiflags with
    ⟨hWide, hTotal⟩
  have hOthers₁ : ∀ i, i ≠ x →
      (rq.widenLeft x start tiflags).seg i = rq.seg i :=
    fun i hNe => widenLeft_others hNe
  have hFlags₁ :=
    @widenLeft_flags rq x start tiflags
  have hPoint₁ :=
    @widenLeft_rcvNxt rq x start tiflags
  have hFront : ∀ a ∈ as, (rq.interval a).2 <
      min start (rq.interval x).1 := by
    intro a ha
    have hGap := normal_gap hNormal ha List.mem_cons_self
    rcases hCase with rfl | hLess
    · cases ha
    · omega
  have hBack : ∀ b ∈ bs,
      (rq.interval x).2 < (rq.interval b).1 := by
    intro b hb
    exact normal_gap hNormal' (by simp) hb
  have hMember : ∀ i ∈ as ++ x :: bs,
      i ∈ as ∨ i = x ∨ i ∈ bs := by
    intro i hi
    simpa using hi
  generalize rq.widenLeft x start tiflags = rq₁ at *
  have hHere : rq₁.interval x =
      (min start (rq.interval x).1, (rq.interval x).2) :=
    hWide.here
  have hStart₁ := congrArg Prod.fst hHere
  have hEnd₁ := congrArg Prod.snd hHere
  simp only at hStart₁ hEnd₁
  -- Where the segment reaches to the left.
  have hReach : (rq.interval x).1 ≤ start ∨
      ∀ i ∈ as ++ x :: bs, start < (rq.interval i).2 := by
    rcases hCase with rfl | hLess
    · right
      intro i hi
      rcases hMember i hi with hIn | rfl | hIn
      · cases hIn
      · exact hOverlap.1
      · have hFar := hBack i hIn
        have hPosI := normal_pos hNormal hi
        omega
    · exact Or.inl hLess.le
  by_cases hMore : bs = [] ∨
      endseq < (rq.interval x).2
  · have hRight := mergeRight_merge hWide.shape
      (by rw [hEnd₁]; exact hMore) tiflags true (initcnt - 1)
    rcases widenRight_between hWide.shape endseq tiflags with
      ⟨hWide₂, hTotal₂⟩
    apply merge_stop (x := x) hLeft hRight
    · change (rq₁.interval x).1 ≤ (rq.interval x).2
      omega
    · apply Between.holds [x] hHolds
        (hWide₂.rebase hWide.others)
      · omega
      · rw [hStart₁]
        exact hFront
      · intro b hb
        rw [hEnd₁]
        have := hBack b hb
        rcases hMore with rfl | hLess
        · cases hb
        · omega
      · simp only [blocks_cons, blocks_nil, total_cons,
          total_nil]
        omega
      · intro i
        simp only [blocks_cons, blocks_nil, mem_cover_cons,
          cover_nil, Finset.notMem_empty, or_false]
        omega
    · constructor
      case mem => simp
      case cross => exact hOverlap
      case partly => exact hPartly
      case only =>
        intro i hi hNe
        unfold Meets
        rcases hMember i hi with hIn | hEq | hIn
        · have hFar := hFront i hIn
          omega
        · exact absurd hEq hNe
        · have hFar := hBack i hIn
          rcases hMore with rfl | hLess
          · cases hIn
          · omega
      case left => exact hReach
      case right =>
        rcases hMore with rfl | hLess
        · right
          intro i hi
          rcases hMember i hi with hIn | rfl | hIn
          · have hFar := hFront i hIn
            have hPosI := normal_pos hNormal hi
            omega
          · exact hOverlap.2
          · cases hIn
        · exact Or.inl hLess.le
      case others =>
        intro i _ hNe
        rw [widenRight_others hNe, hOthers₁ i hNe]
      case flags =>
        rw [widenRight_flags, hFlags₁, Nat.or_assoc,
          Nat.or_self]
      case low =>
        rw [hWide₂.here, hStart₁]
        exact min_le_left _ _
      case high =>
        rw [hWide₂.here]
        exact le_max_left _ _
      case point => rw [widenRight_rcvNxt, hPoint₁]
  · push Not at hMore
    rcases List.exists_cons_of_ne_nil hMore.1 with
      ⟨q, bs, rfl⟩
    have hEnough : (rq₁.interval x).2 ≤ endseq := by
      rw [hEnd₁]
      exact hMore.2
    have hLess : (rq.interval x).1 < start := by
      by_contra hNot
      exact hPartly ⟨not_lt.mp hNot, hMore.2⟩
    have hRight := mergeRight_skip hWide.shape hEnough
      tiflags true (initcnt - 1)
    have hHolds₁ : Holds rq₁ (as ++ x :: q :: bs) ys fs
        (covered ∪ values start (rq.interval x).2) := by
      apply Between.holds [x] hHolds hWide
      · omega
      · exact hFront
      · exact hBack
      · simp only [blocks_cons, blocks_nil, total_cons,
          total_nil]
        omega
      · intro i
        simp only [blocks_cons, blocks_nil, mem_cover_cons,
          cover_nil, Finset.notMem_empty, or_false]
        omega
    by_cases hEdge : endseq ≤ (rq.interval x).2
    · have hSame : (rq.interval x).2 = endseq := by omega
      rw [hSame] at hHolds₁
      apply merge_stop (x := x) hLeft hRight hEdge hHolds₁
      constructor
      case mem => simp
      case cross => exact hOverlap
      case partly => exact hPartly
      case only =>
        intro i hi hNe
        unfold Meets
        rcases hMember i hi with hIn | hEq | hIn
        · have hFar := hFront i hIn
          omega
        · exact absurd hEq hNe
        · have hFar := hBack i hIn
          omega
      case left => exact hReach
      case right => exact Or.inl hEdge
      case others =>
        intro i _ hNe
        exact hOthers₁ i hNe
      case flags => exact hFlags₁
      case low =>
        rw [hStart₁]
        exact min_le_left _ _
      case high =>
        rw [hEnd₁]
        exact hEdge
      case point => exact hPoint₁
    · have hList : as ++ x :: q :: bs =
          (as ++ [x]) ++ (q :: bs) := by
        simp
      rw [hList] at hHolds₁
      have hLow : ∀ a ∈ as ++ [x],
          (rq₁.interval a).2 ≤ (rq.interval x).2 := by
        intro a ha
        rcases List.mem_append.mp ha with hIn | hIn
        · have hGap := hFront a hIn
          rw [hWide.others a (by simp [hIn])]
          omega
        · cases List.mem_singleton.mp hIn
          exact hEnd₁.le
      have hHigh : ∀ b ∈ q :: bs,
          endseq ≤ (rq₁.interval b).1 := by
        intro b hb
        rw [hWide.others b (List.mem_append_right as hb)]
        exact hOver.high b hb
      have hSame : ∀ i ∈ as ++ x :: q :: bs,
          rq₁.interval i = rq.interval i := by
        intro i hi
        by_cases hEq : i = x
        · rw [hEq, hHere, min_eq_right hLess.le]
        · unfold interval
          rw [hOthers₁ i hEq]
      rcases merge_link hLeft hRight (not_le.mp hEdge) rfl
          hHolds₁ (by simp) rfl hLow hHigh
          (Or.inl ⟨x, by simp, hEnd₁⟩) rqflags with
        ⟨d, xs', ys', fs', z, hMerge, hDone, hLanded⟩
      have hCovered : covered ∪
            values start (rq.interval x).2 ∪
            values (rq.interval x).2 endseq =
          covered ∪ values start endseq := by
        rw [Finset.union_assoc]
        congr 1
        exact values_union_values hOverlap.1.le
          (not_le.mp hEdge).le
      refine ⟨d, xs', ys', fs', z, hMerge,
        hDone.cast hCovered, ?_⟩
      rw [← hList] at hLanded
      apply Landed.widen (l := (rq.interval x).2)
        (r := endseq) hLanded _ (hDone.cast hCovered)
        Finset.subset_union_right hOverlap.1.le
        (not_le.mp hEdge) le_rfl
      · rw [hList]
        apply apart_of_gap hNormal' (not_le.mp hEdge)
        · intro a ha
          have ha' : a ∈ as ++ x :: q :: bs := by
            rw [hList]
            exact List.mem_append_left _ ha
          rw [← hSame a ha']
          exact hLow a ha
        · exact hOver.high
      · exact hOver.not_inside hNormal rfl
      · intro i hi
        unfold Meets
        rcases hMember i hi with hIn | rfl | hIn
        · have hFar := hFront i hIn
          omega
        · omega
        · have hFar := hBack i hIn
          have hPosI := normal_pos hNormal hi
          omega
      · exact ⟨x, by simp, hOverlap.1.le, hOverlap.2.le⟩
      · rintro ⟨w, hw, _, hOnly, _, hReachR⟩
        have hEq := hOnly x (by simp) hOverlap hPartly
        rw [← hEq] at hReachR
        rcases hReachR with hFar | hAll
        · exact hEdge hFar
        · have hHighQ := hOver.high q (by simp)
          have hLessQ := hAll q (by simp)
          omega
      · constructor
        case same => exact hSame
        case others =>
          intro i hi hNot
          apply hOthers₁
          rintro rfl
          exact hNot ⟨⟨hOverlap.1.le, hOverlap.2.le⟩,
            hPartly⟩
        case flags =>
          intro i hi
          by_cases hEq : i = x
          · rw [hEq, hFlags₁, Nat.or_assoc, Nat.or_self]
          · rw [hOthers₁ i hEq]
        case point => exact hPoint₁

/- A segment that overlaps one block, on its left side. -/
theorem merge_one_right
    (hHolds : Holds rq ((as ++ [p]) ++ ([x] ++ bs)) ys fs
      covered)
    (hOver : Overlaps rq (as ++ [p]) [x] bs start endseq)
    (hCase : start ≤ (rq.interval x).1)
    (tiflags rqflags : Nat)
    (initcnt : Int) :
    ∃ d xs' ys' fs' z,
      rq.merge (some p) bs.head? start endseq tiflags
        rqflags initcnt = some d ∧
      Holds d.2 xs' ys' fs'
        (covered ∪ values start endseq) ∧
      Landed rq d.2 ((as ++ [p]) ++ ([x] ++ bs)) ys xs' ys'
        start endseq tiflags d.1 z := by
  have hLt := hOver.lt
  have hOverlap := hOver.overlap x (by simp)
  have hPartly := hOver.partly x (by simp)
  have hMore : endseq < (rq.interval x).2 := by
    by_contra hNot
    exact hPartly ⟨hCase, not_lt.mp hNot⟩
  have hShape : Shape rq ((as ++ [p]) ++ x :: bs) ys fs :=
    hHolds.shape
  have hNormal : Normal (rq.blocks ((as ++ [p]) ++ x :: bs)) :=
    hHolds.normal
  have hNormal' : Normal
      (rq.blocks (((as ++ [p]) ++ [x]) ++ bs)) := by
    simpa using hNormal
  have hFront : ∀ a ∈ as ++ [p],
      (rq.interval a).2 < (rq.interval x).1 := by
    intro a ha
    exact normal_gap hNormal ha List.mem_cons_self
  have hBack : ∀ b ∈ bs,
      (rq.interval x).2 < (rq.interval b).1 := by
    intro b hb
    exact normal_gap hNormal' (by simp) hb
  have hMember : ∀ i ∈ (as ++ [p]) ++ x :: bs,
      i ∈ as ++ [p] ∨ i = x ∨ i ∈ bs := by
    intro i hi
    simpa [or_assoc] using hi
  have hLeft := mergeLeft_skip
    (by simpa using hShape : Shape rq (as ++ p :: x :: bs)
      ys fs)
    hCase tiflags initcnt
  have hRight := mergeRight_merge hShape (Or.inr hMore)
    tiflags false initcnt
  rcases widenRight_between hShape endseq tiflags with
    ⟨hWide, hTotal⟩
  have hOthers₁ : ∀ i, i ≠ x →
      (rq.widenRight x endseq tiflags).seg i = rq.seg i :=
    fun i hNe => widenRight_others hNe
  have hFlags₁ :=
    @widenRight_flags rq x endseq tiflags
  have hPoint₁ :=
    @widenRight_rcvNxt rq x endseq tiflags
  have hMax : max endseq (rq.interval x).2 =
      (rq.interval x).2 :=
    max_eq_right hMore.le
  rw [hMax] at hWide hTotal
  generalize rq.widenRight x endseq tiflags = rq₁ at *
  have hHolds₁ := hHolds.of_same hWide
    (by rw [hTotal, sub_self, add_zero])
  have hCovered := fun {i} =>
    @Holds.mem _ _ _ _ x _ hHolds (by simp) i
  by_cases hEdge : (rq.interval x).1 ≤ start
  · have hStopped : Stopped rq rq₁ ((as ++ [p]) ++ x :: bs)
        start endseq tiflags x := by
      constructor
      case mem => simp
      case cross => exact hOverlap
      case partly => exact hPartly
      case only =>
        intro i hi hNe
        unfold Meets
        rcases hMember i hi with hIn | hEq | hIn
        · have hFar := hFront i hIn
          omega
        · exact absurd hEq hNe
        · have hFar := hBack i hIn
          omega
      case left => exact Or.inl hEdge
      case right => exact Or.inl hMore.le
      case others =>
        intro i _ hNe
        exact hOthers₁ i hNe
      case flags => exact hFlags₁
      case low =>
        rw [hWide.here]
        exact hEdge
      case high =>
        rw [hWide.here]
        exact hMore.le
      case point => exact hPoint₁
    rcases merge_stop hLeft hRight hEdge hHolds₁ hStopped
        rqflags with
      ⟨d, xs', ys', fs', z, hMerge, hDone, hLanded⟩
    refine ⟨d, xs', ys', fs', z, hMerge, hDone.cast ?_,
      hLanded⟩
    ext i
    simp only [Finset.mem_union, mem_values]
    constructor
    · exact Or.inl
    · rintro (hIn | ⟨hGe, hLess⟩)
      · exact hIn
      · exact hCovered (by omega) (by omega)
  · have hLow : ∀ a ∈ as ++ [p],
        (rq₁.interval a).2 ≤ start := by
      intro a ha
      rw [hWide.others a (List.mem_append_left bs ha)]
      exact hOver.low a ha
    have hHigh : ∀ b ∈ x :: bs,
        (rq.interval x).1 ≤ (rq₁.interval b).1 := by
      intro b hb
      rcases List.mem_cons.mp hb with rfl | hIn
      · rw [hWide.here]
      · have hGap := hBack b hIn
        have hPos := normal_pos hHolds.normal (x := x)
          (by simp)
        rw [hWide.others b (List.mem_append_right _ hIn)]
        omega
    have hTouch : (rq₁.interval x).1 = (rq.interval x).1 := by
      rw [hWide.here]
    have hSame : ∀ i ∈ (as ++ [p]) ++ x :: bs,
        rq₁.interval i = rq.interval i :=
      hWide.same
    rcases merge_link hLeft hRight (not_le.mp hEdge) rfl
        hHolds₁ (by simp) rfl hLow hHigh
        (Or.inr ⟨x, rfl, hTouch⟩) rqflags with
      ⟨d, xs', ys', fs', z, hMerge, hDone, hLanded⟩
    have hUnion : covered ∪
          values start (rq.interval x).1 =
        covered ∪ values start endseq := by
      ext i
      simp only [Finset.mem_union, mem_values]
      constructor
      · rintro (hIn | ⟨hGe, hLess⟩)
        · exact Or.inl hIn
        · exact Or.inr ⟨hGe, by omega⟩
      · rintro (hIn | ⟨hGe, hLess⟩)
        · exact Or.inl hIn
        · by_cases hBelow : i < (rq.interval x).1
          · exact Or.inr ⟨hGe, hBelow⟩
          · exact Or.inl (hCovered (by omega) (by omega))
    refine ⟨d, xs', ys', fs', z, hMerge, hDone.cast hUnion,
      ?_⟩
    apply Landed.widen (l := start)
      (r := (rq.interval x).1) hLanded _ (hDone.cast hUnion)
      Finset.subset_union_right le_rfl (not_le.mp hEdge)
      hOverlap.2.le
    · apply apart_of_gap hNormal (not_le.mp hEdge) hOver.low
      intro b hb
      rw [← hSame b (List.mem_append_right _ hb)]
      exact hHigh b hb
    · exact hOver.not_inside hNormal rfl
    · intro i hi
      unfold Meets
      rcases hMember i hi with hIn | rfl | hIn
      · have hFar := hFront i hIn
        have hPosI := normal_pos hNormal hi
        omega
      · omega
      · have hFar := hBack i hIn
        omega
    · exact ⟨x, by simp, hOverlap.1.le, hOverlap.2.le⟩
    · rintro ⟨w, hw, _, hOnly, hReachL, _⟩
      have hEq := hOnly x (by simp) hOverlap hPartly
      rw [← hEq] at hReachL
      rcases hReachL with hFar | hAll
      · exact hEdge hFar
      · have hLowP := hOver.low p (by simp)
        have hMoreP := hAll p (by simp)
        omega
    · constructor
      case same => exact hSame
      case others =>
        intro i hi hNot
        apply hOthers₁
        rintro rfl
        exact hNot ⟨⟨hOverlap.1.le, hOverlap.2.le⟩, hPartly⟩
      case flags =>
        intro i hi
        by_cases hEq : i = x
        · rw [hEq, hFlags₁, Nat.or_assoc, Nat.or_self]
        · rw [hOthers₁ i hEq]
      case point => exact hPoint₁

/- A segment that overlaps two blocks and fills their gap. -/
theorem merge_two
    (hHolds : Holds rq (as ++ ([x, y] ++ bs)) ys fs covered)
    (hOver : Overlaps rq as [x, y] bs start endseq)
    (tiflags rqflags : Nat)
    (initcnt : Int) :
    ∃ d xs' ys' fs' z,
      rq.merge as.getLast? bs.head? start endseq tiflags
        rqflags initcnt = some d ∧
      Holds d.2 xs' ys' fs'
        (covered ∪ values start endseq) ∧
      Landed rq d.2 (as ++ ([x, y] ++ bs)) ys xs' ys' start
        endseq tiflags d.1 z := by
  have hOverX := hOver.overlap x (by simp)
  have hOverY := hOver.overlap y (by simp)
  have hPartX := hOver.partly x (by simp)
  have hPartY := hOver.partly y (by simp)
  have hShape : Shape rq (as ++ x :: y :: bs) ys fs :=
    hHolds.shape
  have hList : as ++ ([x, y] ++ bs) =
      (as ++ [x]) ++ (y :: bs) := by
    simp
  have hNormal := hHolds.normal
  rw [hList] at hNormal
  have hGapXY : (rq.interval x).2 < (rq.interval y).1 :=
    normal_gap hNormal (by simp) List.mem_cons_self
  have hPosX := normal_pos hNormal (x := x) (by simp)
  have hPosY := normal_pos hNormal (x := y) (by simp)
  have hLess : (rq.interval x).1 < start := by omega
  have hMore : endseq < (rq.interval y).2 := by omega
  have hLeft := mergeLeft_merge hShape (Or.inr hLess)
    tiflags initcnt
  rcases widenLeft_between hShape start tiflags with
    ⟨hWide₁, hTotal₁⟩
  rw [min_eq_right hLess.le] at hWide₁ hTotal₁
  have hOthers₁ : ∀ i, i ≠ x →
      (rq.widenLeft x start tiflags).seg i = rq.seg i :=
    fun i hNe => widenLeft_others hNe
  have hFlags₁ :=
    @widenLeft_flags rq x start tiflags
  have hPoint₁ :=
    @widenLeft_rcvNxt rq x start tiflags
  generalize rq.widenLeft x start tiflags = rq₁ at *
  have hHolds₁ := Holds.of_same hHolds hWide₁
    (by rw [hTotal₁, sub_self, add_zero])
  have hY₁ : rq₁.interval y = rq.interval y :=
    hWide₁.others y (by simp)
  have hShape₁ : Shape rq₁ ((as ++ [x]) ++ y :: bs) ys fs := by
    simpa using hHolds₁.shape
  have hRight := mergeRight_merge hShape₁
    (by rw [hY₁]; exact Or.inr hMore) tiflags true
    (initcnt - 1)
  rcases widenRight_between hShape₁ endseq tiflags with
    ⟨hWide₂, hTotal₂⟩
  rw [hY₁, max_eq_right hMore.le] at hWide₂ hTotal₂
  have hOthers₂ : ∀ i, i ≠ y →
      (rq₁.widenRight y endseq tiflags).seg i = rq₁.seg i :=
    fun i hNe => widenRight_others hNe
  have hFlags₂ :=
    @widenRight_flags rq₁ y endseq tiflags
  have hPoint₂ :=
    @widenRight_rcvNxt rq₁ y endseq tiflags
  generalize rq₁.widenRight y endseq tiflags = rq₂ at *
  have hHolds₁' : Holds rq₁ ((as ++ [x]) ++ ([y] ++ bs))
      ys fs covered := by
    simpa using hHolds₁
  have hSame₂ := Between.same (hY₁.symm ▸ hWide₂)
  have hHolds₂ := hHolds₁'.of_same (hY₁.symm ▸ hWide₂)
    (by rw [hTotal₂, sub_self, add_zero])
  have hSame : ∀ i ∈ (as ++ [x]) ++ y :: bs,
      rq₂.interval i = rq.interval i := by
    intro i hi
    rw [hSame₂ i hi]
    exact hWide₁.same i (by simpa using hi)
  have hLow : ∀ a ∈ as ++ [x],
      (rq₂.interval a).2 ≤ (rq.interval x).2 := by
    intro a ha
    rw [hSame a (List.mem_append_left _ ha)]
    rcases List.mem_append.mp ha with hIn | hIn
    · have hFar := hOver.low a hIn
      omega
    · cases List.mem_singleton.mp hIn
      exact le_rfl
  have hHigh : ∀ b ∈ y :: bs,
      (rq.interval y).1 ≤ (rq₂.interval b).1 := by
    intro b hb
    rw [hSame b (List.mem_append_right _ hb)]
    rcases List.mem_cons.mp hb with rfl | hIn
    · exact le_rfl
    · have hFar := hOver.high b hIn
      omega
  have hTouch : (rq₂.interval y).1 = (rq.interval y).1 := by
    rw [hSame y (by simp)]
  rw [hY₁] at hRight
  rcases merge_link hLeft hRight hGapXY rfl hHolds₂
      (by simp) rfl hLow hHigh (Or.inr ⟨y, rfl, hTouch⟩)
      rqflags with
    ⟨d, xs', ys', fs', z, hMerge, hDone, hLanded⟩
  have hCoverX := fun {i} =>
    @Holds.mem _ _ _ _ x _ hHolds (by simp) i
  have hCoverY := fun {i} =>
    @Holds.mem _ _ _ _ y _ hHolds (by simp) i
  have hUnion : covered ∪
        values (rq.interval x).2 (rq.interval y).1 =
      covered ∪ values start endseq := by
    ext i
    simp only [Finset.mem_union, mem_values]
    constructor
    · rintro (hIn | ⟨hGe, hLt⟩)
      · exact Or.inl hIn
      · exact Or.inr ⟨by omega, by omega⟩
    · rintro (hIn | ⟨hGe, hLt⟩)
      · exact Or.inl hIn
      · by_cases hBelow : i < (rq.interval x).2
        · exact Or.inl (hCoverX (by omega) hBelow)
        · by_cases hAbove : (rq.interval y).1 ≤ i
          · exact Or.inl (hCoverY hAbove (by omega))
          · exact Or.inr ⟨by omega, by omega⟩
  refine ⟨d, xs', ys', fs', z, hMerge, hDone.cast hUnion, ?_⟩
  rw [hList]
  have hNe : x ≠ y := by
    rintro rfl
    omega
  have hFrontX : ∀ a ∈ as,
      (rq.interval a).2 < (rq.interval x).1 := by
    intro a ha
    have hAll := hHolds.normal
    exact normal_gap hAll ha (by simp)
  have hBackY : ∀ b ∈ bs,
      (rq.interval y).2 < (rq.interval b).1 := by
    intro b hb
    have hAll := hHolds.normal
    rw [← List.append_assoc] at hAll
    exact normal_gap hAll (by simp) hb
  have hMember : ∀ i ∈ (as ++ [x]) ++ y :: bs,
      i ∈ as ∨ i = x ∨ i = y ∨ i ∈ bs := by
    intro i hi
    simpa [or_assoc] using hi
  apply Landed.widen (l := (rq.interval x).2)
    (r := (rq.interval y).1) hLanded _ (hDone.cast hUnion)
    Finset.subset_union_right hOverX.1.le hGapXY hOverY.2.le
  · apply apart_of_gap hNormal hGapXY
    · intro a ha
      rw [← hSame a (List.mem_append_left _ ha)]
      exact hLow a ha
    · intro b hb
      rw [← hSame b (List.mem_append_right _ hb)]
      exact hHigh b hb
  · exact hOver.not_inside hNormal (by simp)
  · intro i hi
    unfold Meets
    rcases hMember i hi with hIn | rfl | rfl | hIn
    · have hFar := hFrontX i hIn
      omega
    · omega
    · omega
    · have hFar := hBackY i hIn
      omega
  · exact ⟨x, by simp, hOverX.1.le, hOverX.2.le⟩
  · rintro ⟨w, hw, _, hOnly, _⟩
    apply hNe
    rw [hOnly x (by simp) hOverX hPartX,
      hOnly y (by simp) hOverY hPartY]
  · constructor
    case same => exact hSame
    case others =>
      intro i hi hNot
      have hNeX : i ≠ x := by
        rintro rfl
        exact hNot ⟨⟨hOverX.1.le, hOverX.2.le⟩, hPartX⟩
      have hNeY : i ≠ y := by
        rintro rfl
        exact hNot ⟨⟨hOverY.1.le, hOverY.2.le⟩, hPartY⟩
      rw [hOthers₂ i hNeY, hOthers₁ i hNeX]
    case flags =>
      intro i hi
      by_cases hEqY : i = y
      · rw [hEqY, hFlags₂, hOthers₁ y hNe.symm, Nat.or_assoc,
          Nat.or_self]
      · rw [hOthers₂ i hEqY]
        by_cases hEqX : i = x
        · rw [hEqX, hFlags₁, Nat.or_assoc, Nat.or_self]
        · rw [hOthers₁ i hEqX]
    case point => rw [hPoint₂, hPoint₁]

/-
  A segment that overlaps blocks in part overlaps at most
  two, for a block in the middle would be inside it.
-/
theorem merge_spec
    (hHolds : Holds rq (as ++ (mid ++ bs)) ys fs covered)
    (hOver : Overlaps rq as mid bs start endseq)
    (hHead : as ++ mid ≠ [])
    (hTail : mid ++ bs ≠ [])
    (tiflags rqflags : Nat)
    (initcnt : Int) :
    ∃ d xs' ys' fs' z,
      rq.merge as.getLast? bs.head? start endseq tiflags
        rqflags initcnt = some d ∧
      Holds d.2 xs' ys' fs'
        (covered ∪ values start endseq) ∧
      Landed rq d.2 (as ++ (mid ++ bs)) ys xs' ys' start
        endseq tiflags d.1 z := by
  rcases mid with _ | ⟨x, _ | ⟨y, _ | ⟨z, mid⟩⟩⟩
  · rw [List.append_nil] at hHead
    rw [List.nil_append] at hTail
    rcases List.eq_nil_or_concat as with rfl | ⟨as, p, rfl⟩
    · exact absurd rfl hHead
    rcases List.exists_cons_of_ne_nil hTail with
      ⟨q, bs, rfl⟩
    rw [List.concat_eq_append] at hHolds hOver ⊢
    rw [List.getLast?_concat]
    have hList : (as ++ [p]) ++ ([] ++ q :: bs) =
        as ++ p :: q :: bs := by
      simp
    rw [hList] at hHolds ⊢
    exact merge_none hHolds hOver tiflags rqflags initcnt
  · by_cases hCase : as = [] ∨ (rq.interval x).1 < start
    · exact merge_one_left hHolds hOver hCase tiflags rqflags
        initcnt
    · push Not at hCase
      rcases List.eq_nil_or_concat as with rfl | ⟨as, p, rfl⟩
      · exact absurd rfl hCase.1
      rw [List.concat_eq_append] at hHolds hOver ⊢
      rw [List.getLast?_concat]
      exact merge_one_right hHolds hOver hCase.2 tiflags
        rqflags initcnt
  · exact merge_two hHolds hOver tiflags rqflags initcnt
  · exfalso
    have hNormal := hHolds.normal
    have hList : as ++ (x :: y :: z :: mid ++ bs) =
        (as ++ [x]) ++ ([y] ++ (z :: mid ++ bs)) := by
      simp
    rw [hList] at hNormal
    have hGapXY := normal_gap hNormal (a := x) (b := y)
      (by simp) (by simp)
    rw [← List.append_assoc] at hNormal
    have hGapYZ := normal_gap hNormal (a := y) (b := z)
      (by simp) (by simp)
    have hX := hOver.overlap x (by simp)
    have hZ := hOver.overlap z (by simp)
    exact hOver.partly y (by simp) ⟨by omega, by omega⟩

end ReassemblyQueue

end Ns2
