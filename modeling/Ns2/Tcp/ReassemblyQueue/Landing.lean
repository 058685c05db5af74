import Ns2.Tcp.ReassemblyQueue.Lists

/-
  Where a segment lands in the reassembly queue.

  The blocks inside a segment are killed.  The first of the
  others it meets keeps its node and takes the segment in;
  when there is none, the segment gets a node of its own on
  top of the stack.

  Main declarations:
    * `ReassemblyQueue.Joins`
    * `ReassemblyQueue.Stops`
    * `ReassemblyQueue.Landed`
-/

------------------------------------------------------------
-- Segments and Blocks
------------------------------------------------------------

namespace Ns2

namespace ReassemblyQueue

/- The segment overlaps or touches the block `i`. -/
def Meets
    (rq : ReassemblyQueue)
    (start endseq : Int)
    (i : Nat) : Prop :=
  start ≤ (rq.interval i).2 ∧ (rq.interval i).1 ≤ endseq

/- The segment overlaps the block. -/
def Crosses
    (rq : ReassemblyQueue)
    (start endseq : Int)
    (i : Nat) : Prop :=
  start < (rq.interval i).2 ∧ (rq.interval i).1 < endseq

/- The block is inside the segment. -/
def Inside
    (rq : ReassemblyQueue)
    (start endseq : Int)
    (i : Nat) : Prop :=
  start ≤ (rq.interval i).1 ∧ (rq.interval i).2 ≤ endseq

/- The block meets the segment and holds more than it. -/
def Joins
    (rq : ReassemblyQueue)
    (start endseq : Int)
    (i : Nat) : Prop :=
  Meets rq start endseq i ∧ ¬ Inside rq start endseq i

/-
  One block overlaps the segment in part, and on each side it
  reaches beyond the segment or nothing else is there.  The
  block is widened and no new one is linked.
-/
def Stops
    (rq : ReassemblyQueue)
    (xs : List Nat)
    (start endseq : Int) : Prop :=
  ∃ x ∈ xs,
    (Crosses rq start endseq x ∧ ¬ Inside rq start endseq x) ∧
    (∀ i ∈ xs, Crosses rq start endseq i →
      ¬ Inside rq start endseq i → i = x) ∧
    ((rq.interval x).1 ≤ start ∨
      ∀ i ∈ xs, start < (rq.interval i).2) ∧
    (endseq ≤ (rq.interval x).2 ∨
      ∀ i ∈ xs, (rq.interval i).1 < endseq)

instance
    (rq : ReassemblyQueue)
    (start endseq : Int)
    (i : Nat) : Decidable (Meets rq start endseq i) :=
  inferInstanceAs (Decidable (_ ∧ _))

instance
    (rq : ReassemblyQueue)
    (start endseq : Int)
    (i : Nat) : Decidable (Crosses rq start endseq i) :=
  inferInstanceAs (Decidable (_ ∧ _))

instance
    (rq : ReassemblyQueue)
    (start endseq : Int)
    (i : Nat) : Decidable (Inside rq start endseq i) :=
  inferInstanceAs (Decidable (_ ∧ _))

instance
    (rq : ReassemblyQueue)
    (start endseq : Int)
    (i : Nat) : Decidable (Joins rq start endseq i) :=
  inferInstanceAs (Decidable (_ ∧ ¬ _))

instance
    (rq : ReassemblyQueue)
    (xs : List Nat)
    (start endseq : Int) :
    Decidable (Stops rq xs start endseq) :=
  inferInstanceAs (Decidable (∃ x ∈ xs, _ ∧ _))

/- A flag of the segment or of a block inside it. -/
def Gathers
    (rq : ReassemblyQueue)
    (xs : List Nat)
    (start endseq : Int)
    (tiflags b : Nat) : Prop :=
  tiflags.testBit b = true ∨
    ∃ i ∈ xs, Inside rq start endseq i ∧
      (rq.seg i).pflags.testBit b = true

end ReassemblyQueue

end Ns2

------------------------------------------------------------
-- Landing
------------------------------------------------------------

namespace Ns2

namespace ReassemblyQueue

/- The segment got the node `x`, on top of the stack. -/
structure Created
    (rq rq' : ReassemblyQueue)
    (xs ys ys' : List Nat)
    (start endseq : Int)
    (tiflags x : Nat) : Prop where
  alone : ∀ i ∈ xs, ¬ Joins rq start endseq i ∧
    rq.interval i ≠ (start, endseq)
  pushed : ∃ zs, ys' = x :: zs ∧ zs.Sublist ys
  flags : ∀ b, (rq'.seg x).pflags.testBit b = true ↔
    Gathers rq xs start endseq tiflags b

/-
  The first block that joins the segment, or a block equal to
  it, took the segment in and stayed where it was.
-/
structure Kept
    (rq rq' : ReassemblyQueue)
    (xs ys ys' : List Nat)
    (start endseq : Int)
    (tiflags x : Nat) : Prop where
  mem : x ∈ xs
  joined : Joins rq start endseq x ∨
    rq.interval x = (start, endseq)
  first : ∀ i ∈ xs, Joins rq start endseq i →
    (rq.interval x).1 ≤ (rq.interval i).1
  stack : ys'.Sublist ys
  flags : ∀ b, (rq'.seg x).pflags.testBit b = true ↔
    Gathers rq xs start endseq tiflags b ∨
      (rq.seg x).pflags.testBit b = true

/-
  A segment lands in the block `x` of the queue `rq'`.  The
  other blocks are as they were, and the in-sequence point
  moves over a block that starts before the segment or with
  it.
-/
structure Landed
    (rq rq' : ReassemblyQueue)
    (xs ys xs' ys' : List Nat)
    (start endseq : Int)
    (tiflags ret x : Nat) : Prop where
  mem : x ∈ xs'
  low : (rq'.interval x).1 ≤ start
  high : endseq ≤ (rq'.interval x).2
  others : ∀ i ∈ xs', i ≠ x → i ∈ xs ∧ rq'.seg i = rq.seg i
  place : Created rq rq' xs ys ys' start endseq tiflags x ∨
    Kept rq rq' xs ys ys' start endseq tiflags x
  told : ¬ Stops rq xs start endseq →
    ret = (rq'.seg x).pflags
  untold : Stops rq xs start endseq →
    ∀ b, ret.testBit b = true ↔
      Gathers rq xs start endseq tiflags b
  point : (rq'.rcvNxt = rq.rcvNxt ∧
      ∃ i ∈ xs, rq.interval i = (start, endseq)) ∨
    ∃ z ∈ xs', (rq'.interval z).1 ≤ start ∧
      rq'.rcvNxt =
        if (rq'.interval z).1 ≤ rq.rcvNxt then
          (rq'.interval z).2
        else rq.rcvNxt

end ReassemblyQueue

end Ns2

------------------------------------------------------------
-- A Segment That Overlaps No Block
------------------------------------------------------------

namespace Ns2

namespace ReassemblyQueue

variable {rq rq' : ReassemblyQueue}
variable {xs ys xs' ys' : List Nat} {x t : Nat}
variable {start endseq : Int}

/- The blocks are apart from the segment or touch it. -/
structure Apart
    (rq : ReassemblyQueue)
    (xs : List Nat)
    (start endseq : Int) : Prop where
  lt : start < endseq
  pos : ∀ i ∈ xs, (rq.interval i).1 < (rq.interval i).2
  sides : ∀ i ∈ xs, (rq.interval i).2 ≤ start ∨
    endseq ≤ (rq.interval i).1

theorem Apart.not_inside
    (hApart : Apart rq xs start endseq)
    {i : Nat}
    (hi : i ∈ xs) :
    ¬ Inside rq start endseq i := by
  have hLt := hApart.lt
  have hPos := hApart.pos i hi
  have hSide := hApart.sides i hi
  unfold Inside
  omega

theorem Apart.not_stops
    (hApart : Apart rq xs start endseq) :
    ¬ Stops rq xs start endseq := by
  rintro ⟨i, hi, ⟨hCross, _⟩, _⟩
  have hSide := hApart.sides i hi
  unfold Crosses at hCross
  omega

theorem Apart.gathers
    (hApart : Apart rq xs start endseq)
    (b : Nat) :
    Gathers rq xs start endseq t b ↔
      t.testBit b = true := by
  constructor
  · rintro (hBit | ⟨i, hi, hInside, _⟩)
    · exact hBit
    · exact absurd hInside (hApart.not_inside hi)
  · exact Or.inl

theorem Apart.ne
    (hApart : Apart rq xs start endseq)
    {i : Nat}
    (hi : i ∈ xs) :
    rq.interval i ≠ (start, endseq) := by
  intro hEq
  apply hApart.not_inside hi
  unfold Inside
  rw [hEq]
  exact ⟨le_rfl, le_rfl⟩

/- The segment is a block of its own. -/
theorem Apart.landed_created
    (hApart : Apart rq xs start endseq)
    (hFar : ∀ i ∈ xs, ¬ Meets rq start endseq i)
    (hMem : x ∈ xs')
    (hHere : rq'.interval x = (start, endseq))
    (hFlags : (rq'.seg x).pflags = t)
    (hOthers : ∀ i ∈ xs', i ≠ x →
      i ∈ xs ∧ rq'.seg i = rq.seg i)
    (hPushed : ys' = x :: ys)
    (hPoint : rq'.rcvNxt =
      if start ≤ rq.rcvNxt then endseq else rq.rcvNxt) :
    Landed rq rq' xs ys xs' ys' start endseq t t x := by
  constructor
  case mem => exact hMem
  case low => rw [hHere]
  case high => rw [hHere]
  case others => exact hOthers
  case place =>
    left
    constructor
    case alone =>
      intro i hi
      exact ⟨fun hJoins => hFar i hi hJoins.1, hApart.ne hi⟩
    case pushed => exact ⟨ys, hPushed, List.Sublist.refl ys⟩
    case flags =>
      intro b
      rw [hFlags, hApart.gathers]
  case told =>
    intro _
    exact hFlags.symm
  case untold =>
    intro hStops
    exact absurd hStops hApart.not_stops
  case point =>
    right
    refine ⟨x, hMem, ?_, ?_⟩
    · rw [hHere]
    · rw [hHere]
      exact hPoint

/- The segment extends a block. -/
theorem Apart.landed_kept
    (hApart : Apart rq xs start endseq)
    (hOld : x ∈ xs)
    (hMeets : Meets rq start endseq x)
    (hFirst : ∀ i ∈ xs, Meets rq start endseq i →
      (rq.interval x).1 ≤ (rq.interval i).1)
    (hMem : x ∈ xs')
    (hLow : (rq'.interval x).1 ≤ start)
    (hHigh : endseq ≤ (rq'.interval x).2)
    (hFlags : (rq'.seg x).pflags =
      (rq.seg x).pflags ||| t)
    (hOthers : ∀ i ∈ xs', i ≠ x →
      i ∈ xs ∧ rq'.seg i = rq.seg i)
    (hStack : ys'.Sublist ys)
    (hPoint : rq'.rcvNxt =
      if (rq'.interval x).1 ≤ rq.rcvNxt then
        (rq'.interval x).2
      else rq.rcvNxt) :
    Landed rq rq' xs ys xs' ys' start endseq t
      ((rq.seg x).pflags ||| t) x := by
  constructor
  case mem => exact hMem
  case low => exact hLow
  case high => exact hHigh
  case others => exact hOthers
  case place =>
    right
    constructor
    case mem => exact hOld
    case joined =>
      exact Or.inl ⟨hMeets, hApart.not_inside hOld⟩
    case first =>
      intro i hi hJoins
      exact hFirst i hi hJoins.1
    case stack => exact hStack
    case flags =>
      intro b
      rw [hFlags, hApart.gathers, Nat.testBit_or,
        Bool.or_eq_true, or_comm]
  case told =>
    intro _
    exact hFlags.symm
  case untold =>
    intro hStops
    exact absurd hStops hApart.not_stops
  case point => exact Or.inr ⟨x, hMem, hLow, hPoint⟩

end ReassemblyQueue

end Ns2

------------------------------------------------------------
-- Killed Blocks
------------------------------------------------------------

namespace Ns2

namespace ReassemblyQueue

/-
  The queue `rq'` is `rq` without some of the blocks inside
  the segment, whose flags `tiflags'` has instead.
-/
structure Thinned
    (rq rq' : ReassemblyQueue)
    (xs xs' ys ys' : List Nat)
    (start endseq : Int)
    (tiflags tiflags' : Nat) : Prop where
  seg : rq'.seg = rq.seg
  point : rq'.rcvNxt = rq.rcvNxt
  sub : ∀ i ∈ xs', i ∈ xs
  rest : ∀ i ∈ xs, i ∈ xs' ∨
    Inside rq start endseq i ∧
      (rq.interval i).1 < (rq.interval i).2 ∧
      rq.interval i ≠ (start, endseq)
  stack : ys'.Sublist ys
  flags : ∀ b, Gathers rq xs' start endseq tiflags' b ↔
    Gathers rq xs start endseq tiflags b

variable {rq rq' d : ReassemblyQueue}
variable {xs ys xs' ys' zs ws : List Nat} {x t t' ret : Nat}
variable {start endseq : Int}

theorem interval_of_seg
    (hSeg : rq'.seg = rq.seg) :
    rq'.interval = rq.interval := by
  funext i
  unfold interval
  rw [hSeg]

theorem Thinned.refl :
    Thinned rq rq xs xs ys ys start endseq t t := by
  constructor
  case seg => rfl
  case point => rfl
  case sub => exact fun i hi => hi
  case rest => exact fun i hi => Or.inl hi
  case stack => exact List.Sublist.refl ys
  case flags => exact fun b => Iff.rfl

theorem Thinned.gathers
    (hThinned : Thinned rq rq' xs xs' ys ys' start endseq
      t t')
    (b : Nat) :
    Gathers rq' xs' start endseq t' b ↔
      Gathers rq xs start endseq t b := by
  rw [← hThinned.flags b]
  unfold Gathers Inside
  rw [interval_of_seg hThinned.seg, hThinned.seg]

theorem Thinned.trans
    {d : ReassemblyQueue}
    {xs₂ ys₂ : List Nat}
    {t₂ : Nat}
    (hFirst : Thinned rq rq' xs xs' ys ys' start endseq t t')
    (hSecond : Thinned rq' d xs' xs₂ ys' ys₂ start endseq
      t' t₂) :
    Thinned rq d xs xs₂ ys ys₂ start endseq t t₂ := by
  constructor
  case seg => exact hSecond.seg.trans hFirst.seg
  case point => exact hSecond.point.trans hFirst.point
  case sub =>
    intro i hi
    exact hFirst.sub i (hSecond.sub i hi)
  case rest =>
    intro i hi
    rcases hFirst.rest i hi with hIn | hOut
    · have hRest := hSecond.rest i hIn
      unfold Inside at hRest ⊢
      rw [interval_of_seg hFirst.seg] at hRest
      exact hRest
    · exact Or.inr hOut
  case stack => exact hSecond.stack.trans hFirst.stack
  case flags =>
    intro b
    rw [← hFirst.gathers b, ← hSecond.flags b]
    unfold Gathers Inside
    rw [interval_of_seg hFirst.seg, hFirst.seg]

/- The blocks left decide where the segment lands. -/
theorem Thinned.stops_iff
    (hThinned : Thinned rq rq' xs xs' ys ys' start endseq
      t t') :
    Stops rq' xs' start endseq ↔ Stops rq xs start endseq := by
  have hSame := interval_of_seg hThinned.seg
  unfold Stops Crosses Inside
  rw [hSame]
  constructor
  · rintro ⟨x, hx, ⟨hCross, hPartly⟩, hOnly, hL, hR⟩
    refine ⟨x, hThinned.sub x hx, ⟨hCross, hPartly⟩, ?_, ?_,
      ?_⟩
    · intro i hi hOver hNot
      rcases hThinned.rest i hi with hIn | hOut
      · exact hOnly i hIn hOver hNot
      · exact absurd hOut.1 hNot
    · apply hL.imp_right
      intro hAll i hi
      rcases hThinned.rest i hi with hIn | ⟨hOut, hPos, _⟩
      · exact hAll i hIn
      · exact hOut.1.trans_lt hPos
    · apply hR.imp_right
      intro hAll i hi
      rcases hThinned.rest i hi with hIn | ⟨hOut, hPos, _⟩
      · exact hAll i hIn
      · exact hPos.trans_le hOut.2
  · rintro ⟨x, hx, ⟨hCross, hPartly⟩, hOnly, hL, hR⟩
    have hHere : x ∈ xs' := by
      rcases hThinned.rest x hx with hIn | hOut
      · exact hIn
      · exact absurd hOut.1 hPartly
    refine ⟨x, hHere, ⟨hCross, hPartly⟩, ?_, ?_, ?_⟩
    · intro i hi
      exact hOnly i (hThinned.sub i hi)
    · apply hL.imp_right
      intro hAll i hi
      exact hAll i (hThinned.sub i hi)
    · apply hR.imp_right
      intro hAll i hi
      exact hAll i (hThinned.sub i hi)

theorem Thinned.landed
    (hThinned : Thinned rq rq' xs xs' ys ys' start endseq
      t t')
    (hLanded : Landed rq' d xs' ys' zs ws start endseq t'
      ret x) :
    Landed rq d xs ys zs ws start endseq t ret x := by
  have hSame := interval_of_seg hThinned.seg
  constructor
  case mem => exact hLanded.mem
  case low => exact hLanded.low
  case high => exact hLanded.high
  case others =>
    intro i hi hNe
    rcases hLanded.others i hi hNe with ⟨hIn, hSeg⟩
    rw [hThinned.seg] at hSeg
    exact ⟨hThinned.sub i hIn, hSeg⟩
  case place =>
    rcases hLanded.place with hCreated | hKept
    · left
      constructor
      case alone =>
        intro i hi
        rcases hThinned.rest i hi with hIn | hOut
        · have hAlone := hCreated.alone i hIn
          unfold Joins Meets Inside at hAlone ⊢
          rw [hSame] at hAlone
          exact hAlone
        · exact ⟨fun hJoins => hJoins.2 hOut.1, hOut.2.2⟩
      case pushed =>
        rcases hCreated.pushed with ⟨us, hEq, hSub⟩
        exact ⟨us, hEq, hSub.trans hThinned.stack⟩
      case flags =>
        intro b
        rw [hCreated.flags, hThinned.gathers]
    · right
      constructor
      case mem => exact hThinned.sub x hKept.mem
      case joined =>
        have hJoined := hKept.joined
        unfold Joins Meets Inside at hJoined ⊢
        rw [hSame] at hJoined
        exact hJoined
      case first =>
        intro i hi hJoins
        rcases hThinned.rest i hi with hIn | hOut
        · have hFirst := hKept.first i hIn
          unfold Joins Meets Inside at hFirst
          rw [hSame] at hFirst
          exact hFirst hJoins
        · exact absurd hOut.1 hJoins.2
      case stack => exact hKept.stack.trans hThinned.stack
      case flags =>
        intro b
        rw [hKept.flags, hThinned.gathers, hThinned.seg]
  case told =>
    intro hNot
    exact hLanded.told (mt hThinned.stops_iff.mp hNot)
  case untold =>
    intro hStops b
    rw [hLanded.untold (hThinned.stops_iff.mpr hStops) b,
      hThinned.gathers]
  case point =>
    rcases hLanded.point with ⟨hPoint, i, hi, hExact⟩ | hMoved
    · left
      refine ⟨hPoint.trans hThinned.point, i,
        hThinned.sub i hi, ?_⟩
      rw [hSame] at hExact
      exact hExact
    · right
      rw [hThinned.point] at hMoved
      exact hMoved

end ReassemblyQueue

end Ns2
