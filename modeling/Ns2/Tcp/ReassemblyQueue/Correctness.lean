import Ns2.Tcp.ReassemblyQueue.Widening

/-
  Correctness of the reassembly queue.

  Adding a segment kills the blocks inside it and merges with
  those it overlaps in part; clearing removes blocks from the
  head of the queue.  So the blocks always are the normal
  list of the numbers added and not cleared.

  Main declarations:
    * `ReassemblyQueue.kill_spec`
    * `ReassemblyQueue.add_spec`
    * `ReassemblyQueue.clearto_spec`
    * `ReassemblyQueue.interval_set_correct`
-/

------------------------------------------------------------
-- Killing Blocks
------------------------------------------------------------

namespace Ns2

namespace ReassemblyQueue

open IntervalList

variable {rq : ReassemblyQueue}
variable {as bs mid xs ys fs : List Nat} {x : Nat}
variable {start endseq : Int} {covered : Finset Int}

/- A block taken out of the queue. -/
theorem Holds.remove
    (hHolds : Holds rq (as ++ x :: bs) ys fs covered) :
    ∃ covered',
      Holds
        ((({ rq with
            total := rq.total - ((rq.seg x).endseq -
              (rq.seg x).startseq) }.fremove x).sremove
          x).deleteseginfo x)
        (as ++ bs) (ys.erase x) (x :: fs) covered' ∧
      ∀ i, i ∈ covered ↔ i ∈ covered' ∨
        (rq.interval x).1 ≤ i ∧ i < (rq.interval x).2 := by
  have hShape := hHolds.shape.remove_delete
  refine ⟨cover (rq.blocks (as ++ bs)), ?_, ?_⟩
  · constructor
    case shape => apply hShape.congr <;> rfl
    case normal =>
      apply hHolds.normal.sublist
      apply List.Sublist.map
      exact (List.sublist_cons_self x bs).append_left as
    case total_eq =>
      change rq.total - ((rq.interval x).2 -
        (rq.interval x).1) = _
      rw [hHolds.total_eq]
      change _ = IntervalList.total (rq.blocks (as ++ bs))
      simp only [blocks_append, blocks_cons, total_append,
        total_cons]
      omega
    case cover_eq => rfl
  · intro i
    rw [← hHolds.cover_eq]
    simp only [blocks_append, blocks_cons, mem_cover_append,
      mem_cover_cons]
    rw [or_comm (a := _ ∧ _), or_assoc]

/- Taking out a block inside the segment. -/
theorem Holds.thinned
    (hHolds : Holds rq (as ++ x :: bs) ys fs covered)
    (hInside : Inside rq start endseq x)
    (hExact : rq.interval x ≠ (start, endseq))
    (tiflags : Nat) :
    Thinned rq
      ((({ rq with
          total := rq.total - ((rq.seg x).endseq -
            (rq.seg x).startseq) }.fremove x).sremove
        x).deleteseginfo x)
      (as ++ x :: bs) (as ++ bs) ys (ys.erase x) start endseq
      tiflags (tiflags ||| (rq.seg x).pflags) := by
  have hMember : ∀ i, i ∈ as ++ x :: bs ↔
      i = x ∨ i ∈ as ++ bs := by
    intro i
    rw [List.perm_middle.mem_iff, List.mem_cons]
  constructor
  case seg => rfl
  case point => rfl
  case sub =>
    intro i hi
    exact (hMember i).mpr (Or.inr hi)
  case rest =>
    intro i hi
    rcases (hMember i).mp hi with rfl | hIn
    · exact Or.inr ⟨hInside, normal_pos hHolds.normal hi,
        hExact⟩
    · exact Or.inl hIn
  case stack => exact List.erase_sublist
  case flags =>
    intro b
    unfold Gathers
    rw [Nat.testBit_or, Bool.or_eq_true]
    constructor
    · rintro ((hBit | hBit) | ⟨i, hi, hIn, hBit⟩)
      · exact Or.inl hBit
      · exact Or.inr ⟨x, (hMember x).mpr (Or.inl rfl),
          hInside, hBit⟩
      · exact Or.inr ⟨i, (hMember i).mpr (Or.inr hi), hIn,
          hBit⟩
    · rintro (hBit | ⟨i, hi, hIn, hBit⟩)
      · exact Or.inl (Or.inl hBit)
      · rcases (hMember i).mp hi with rfl | hi
        · exact Or.inl (Or.inr hBit)
        · exact Or.inr ⟨i, hi, hIn, hBit⟩

/- The overlapped blocks that are not inside the segment. -/
structure Killed
    (rq rq' : ReassemblyQueue)
    (as mid bs ys : List Nat)
    (start endseq : Int)
    (covered : Finset Int)
    (tiflags tiflags' : Nat)
    (mid' : List Nat) : Prop where
  sub : mid'.Sublist mid
  seg_eq : rq'.seg = rq.seg
  holds : ∃ ys' fs covered',
    Holds rq' (as ++ (mid' ++ bs)) ys' fs covered' ∧
      covered' ∪ values start endseq =
        covered ∪ values start endseq ∧
      Thinned rq rq' (as ++ (mid ++ bs))
        (as ++ (mid' ++ bs)) ys ys' start endseq tiflags
        tiflags'
  partly : ∀ m ∈ mid', ¬ (start ≤ (rq.interval m).1 ∧
    (rq.interval m).2 ≤ endseq)

/- An exact duplicate lands in the block equal to it. -/
theorem Holds.landed_exact
    {t : Nat}
    (hHolds : Holds rq xs ys fs covered)
    (hx : x ∈ xs)
    (hExact : rq.interval x = (start, endseq)) :
    Landed rq
      (rq.modify x fun s =>
        { s with pflags := s.pflags ||| t })
      xs ys xs ys start endseq t
      ((rq.modify x fun s =>
        { s with pflags := s.pflags ||| t }).seg x).pflags
      x := by
  have hStart := congrArg Prod.fst hExact
  have hEnd := congrArg Prod.snd hExact
  simp only at hStart hEnd
  -- The segment meets no other block.
  have hOnly : ∀ i ∈ xs, Meets rq start endseq i → i = x := by
    intro i hi hMeets
    by_contra hNe
    have hGap := hHolds.gap hx hi hNe
    unfold Meets at hMeets
    omega
  have hInside : Inside rq start endseq x :=
    ⟨hStart.ge, hEnd.le⟩
  have hMeetsOf : ∀ i ∈ xs, Inside rq start endseq i →
      Meets rq start endseq i := by
    intro i hi hIn
    have hPos := normal_pos hHolds.normal hi
    unfold Inside at hIn
    unfold Meets
    omega
  have hFlags : ((rq.modify x fun s =>
      { s with pflags := s.pflags ||| t }).seg x).pflags =
        (rq.seg x).pflags ||| t := by
    rw [modify_seg]
  have hSame : (rq.modify x fun s =>
      { s with pflags := s.pflags ||| t }).interval x =
        rq.interval x := by
    unfold interval
    rw [modify_seg]
  constructor
  case mem => exact hx
  case low => rw [hSame, hStart]
  case high => rw [hSame, hEnd]
  case others =>
    intro i hi hNe
    exact ⟨hi, modify_seg_of_ne hNe⟩
  case place =>
    right
    constructor
    case mem => exact hx
    case joined => exact Or.inr hExact
    case first =>
      intro i hi hJoins
      rw [hOnly i hi hJoins.1]
    case stack => exact List.Sublist.refl ys
    case flags =>
      intro b
      rw [hFlags, Nat.testBit_or, Bool.or_eq_true]
      constructor
      · rintro (hOld | hNew)
        · exact Or.inr hOld
        · exact Or.inl (Or.inl hNew)
      · rintro ((hNew | ⟨i, hi, hIn, hBit⟩) | hOld)
        · exact Or.inr hNew
        · rw [hOnly i hi (hMeetsOf i hi hIn)] at hBit
          exact Or.inl hBit
        · exact Or.inl hOld
  case told =>
    intro _
    rfl
  case untold =>
    rintro ⟨i, hi, ⟨hCross, hPartly⟩, _⟩
    exfalso
    apply hPartly
    rw [hOnly i hi ⟨hCross.1.le, hCross.2.le⟩]
    exact hInside
  case point => exact Or.inl ⟨rfl, x, hx, hExact⟩

/-
  The loop kills the blocks inside the segment, or it finds
  an exact duplicate, whose numbers are in the queue already.
-/
theorem kill_spec
    (hHolds : Holds rq (as ++ (mid ++ bs)) ys fs covered)
    (start endseq : Int)
    (fuel : Nat)
    (hFuel : mid.length < fuel)
    (altered : Bool)
    (tiflags : Nat)
    (initcnt : Int) :
    (∃ flags rq' xs' ys' fs' x,
      kill bs.head? start endseq fuel rq (mid ++ bs).head?
        altered tiflags initcnt = some (.exact flags rq') ∧
      Holds rq' xs' ys' fs'
        (covered ∪ values start endseq) ∧
      Landed rq rq' (as ++ (mid ++ bs)) ys xs' ys' start
        endseq tiflags flags x) ∨
    ∃ rq' altered' tiflags' initcnt' mid',
      kill bs.head? start endseq fuel rq (mid ++ bs).head?
        altered tiflags initcnt =
          some (.rest rq' altered' tiflags' initcnt') ∧
      Killed rq rq' as mid bs ys start endseq covered
        tiflags tiflags' mid' ∧
      (altered' = true → altered = true ∨
        mid'.length < mid.length) ∧
      (altered' = false → altered = false ∧ mid' = mid) := by
  induction mid generalizing rq as ys fs covered fuel altered
    tiflags initcnt with
  | nil =>
      right
      refine ⟨rq, altered, tiflags, initcnt, [], ?_, ?_,
        Or.inl, fun hFalse => ⟨hFalse, rfl⟩⟩
      · cases fuel with
        | zero => cases hFuel
        | succ fuel =>
            unfold kill
            cases bs with
            | nil => rfl
            | cons q bs => simp
      · exact ⟨List.Sublist.refl [], rfl,
          ⟨ys, fs, covered, hHolds, rfl, Thinned.refl⟩,
          fun m hm => by cases hm⟩
  | cons m mid ih =>
      rcases Nat.exists_eq_add_of_lt hFuel with ⟨k, rfl⟩
      have hFuel' : mid.length < mid.length + 1 + k := by omega
      have hFuelEq : (m :: mid).length + k + 1 =
          (mid.length + 1 + k) + 1 := by
        rw [List.length_cons]
      have hShape : Shape rq (as ++ m :: (mid ++ bs)) ys fs :=
        hHolds.shape
      have hNext : rq.fifo.next m = (mid ++ bs).head? :=
        hShape.fifo.next_eq
      have hNe : bs.head? ≠ some m := by
        intro hHead
        apply hShape.used.1
        simp [List.mem_of_head? hHead]
      rw [hFuelEq]
      unfold kill
      simp only [List.cons_append, List.head?_cons]
      rw [if_neg hNe]
      by_cases hExact : start = (rq.seg m).startseq ∧
          endseq = (rq.seg m).endseq
      · left
        rw [if_pos hExact]
        refine ⟨_, _, as ++ m :: (mid ++ bs), ys, fs, m, rfl,
          ?_, ?_⟩
        rotate_left
        · apply hHolds.landed_exact (by simp)
          exact (Prod.ext hExact.1 hExact.2).symm
        have hSame : Between rq
            (rq.modify m fun s =>
              { s with pflags := s.pflags ||| tiflags })
            as m (mid ++ bs) ys fs
            (rq.interval m).1 (rq.interval m).2 := by
          apply hShape.between_self.modify <;> intro s <;> rfl
        apply (Holds.of_same hHolds hSame rfl).cast
        symm
        apply Finset.union_eq_left.mpr
        intro i hi
        rcases mem_values.mp hi with ⟨hGe, hLt⟩
        apply hHolds.mem (x := m) (by simp)
        · exact hExact.1.symm.trans_le hGe
        · exact hLt.trans_eq hExact.2
      rw [if_neg hExact]
      by_cases hInside : start ≤ (rq.seg m).startseq ∧
          (rq.seg m).endseq ≤ endseq
      · rw [if_pos hInside, hNext]
        rcases Holds.remove hHolds with
          ⟨covered₁, hHolds₁, hSplit⟩
        have hThinned := hHolds.thinned hInside
          (fun hEq => hExact
            ⟨(congrArg Prod.fst hEq).symm,
              (congrArg Prod.snd hEq).symm⟩) tiflags
        -- The segment covers what the block held.
        have hCovered : covered₁ ∪ values start endseq =
            covered ∪ values start endseq := by
          ext i
          simp only [Finset.mem_union, mem_values, hSplit]
          constructor
          · rintro (hIn | hIn)
            · exact Or.inl (Or.inl hIn)
            · exact Or.inr hIn
          · rintro ((hIn | ⟨hGe, hLt⟩) | hIn)
            · exact Or.inl hIn
            · exact Or.inr ⟨hInside.1.trans hGe,
                hLt.trans_le hInside.2⟩
            · exact Or.inr hIn
        rcases ih hHolds₁ (mid.length + 1 + k) hFuel' true
            (tiflags ||| (rq.seg m).pflags)
            (initcnt + (rq.seg m).cnt) with
          ⟨flags, rq', xs', ys', fs', z, hKill, hDone,
            hLanded⟩ |
          ⟨rq', altered', tiflags', initcnt', mid', hKill,
            hKilled, _, hNot⟩
        · left
          exact ⟨flags, rq', xs', ys', fs', z, hKill,
            hDone.cast hCovered, hThinned.landed hLanded⟩
        · right
          rcases hKilled.holds with
            ⟨ys', fs', covered', hDone, hSame, hFewer⟩
          have hLength := hKilled.sub.length_le
          refine ⟨rq', altered', tiflags', initcnt', mid',
            hKill, ⟨?_, hKilled.seg_eq, ?_,
              hKilled.partly⟩, ?_, ?_⟩
          · exact hKilled.sub.cons m
          · exact ⟨ys', fs', covered', hDone,
              hSame.trans hCovered, hThinned.trans hFewer⟩
          · intro _
            right
            rw [List.length_cons]
            omega
          · intro hFalse
            cases (hNot hFalse).1
      · rw [if_neg hInside, hNext]
        have hList : as ++ (m :: mid ++ bs) =
            (as ++ [m]) ++ (mid ++ bs) := by
          simp
        rw [hList] at hHolds
        rcases ih hHolds (mid.length + 1 + k) hFuel' altered
            tiflags initcnt with
          hExacts |
          ⟨rq', altered', tiflags', initcnt', mid', hKill,
            hKilled, hYes, hNot⟩
        · left
          simpa using hExacts
        · right
          rcases hKilled.holds with
            ⟨ys', fs', covered', hDone, hSame, hFewer⟩
          refine ⟨rq', altered', tiflags', initcnt',
            m :: mid', hKill, ⟨?_, hKilled.seg_eq, ?_, ?_⟩,
            ?_, ?_⟩
          · exact hKilled.sub.cons_cons m
          · refine ⟨ys', fs', covered', ?_, hSame, ?_⟩
            · simpa using hDone
            · simpa using hFewer
          · intro d hd
            rcases List.mem_cons.mp hd with rfl | hd
            · exact hInside
            · exact hKilled.partly d hd
          · intro hTrue
            simpa using hYes hTrue
          · intro hFalse
            exact ⟨(hNot hFalse).1, by rw [(hNot hFalse).2]⟩

end ReassemblyQueue

end Ns2

------------------------------------------------------------
-- Passes over the Queue
------------------------------------------------------------

namespace Ns2

namespace ReassemblyQueue

open IntervalList LinkedList

variable {rq : ReassemblyQueue}
variable {as bs mid xs ys fs : List Nat} {x : Nat}
variable {start endseq : Int} {covered : Finset Int}

/- The blocks before, over and behind a segment. -/
theorem Holds.split
    (hHolds : Holds rq xs ys fs covered)
    (start endseq : Int) :
    ∃ as mid bs, xs = as ++ (mid ++ bs) ∧
      (∀ a ∈ as, (rq.interval a).2 ≤ start) ∧
      (∀ m ∈ mid, start < (rq.interval m).2 ∧
        (rq.interval m).1 < endseq) ∧
      (∀ b ∈ bs, endseq ≤ (rq.interval b).1) := by
  rcases @Normal.split _ _ _ start endseq hHolds.normal with
    ⟨front, middle, back, hEq, hFront, hMiddle, hBack⟩
  rcases List.map_eq_append_iff.mp hEq with
    ⟨as, rest, rfl, rfl, hRest⟩
  rcases List.map_eq_append_iff.mp hRest with
    ⟨mid, bs, rfl, rfl, rfl⟩
  refine ⟨as, mid, bs, rfl, ?_, ?_, ?_⟩
  · intro a ha
    exact hFront _ (mem_blocks ha)
  · intro m hm
    exact hMiddle _ (mem_blocks hm)
  · intro b hb
    exact hBack _ (mem_blocks hb)

/- The search for the first block behind the segment. -/
theorem follow_next
    (hHolds : Holds rq (as ++ (mid ++ bs)) ys fs covered)
    (hLt : start < endseq)
    (hLow : ∀ a ∈ as, (rq.interval a).2 ≤ start)
    (hMid : ∀ m ∈ mid, start < (rq.interval m).2 ∧
      (rq.interval m).1 < endseq)
    (hHigh : ∀ b ∈ bs, endseq ≤ (rq.interval b).1) :
    follow rq.fifo.next
      (fun q => decide ((rq.seg q).startseq < endseq))
      rq.fuel rq.fifo.first = some bs.head? := by
  have hSeg := hHolds.shape.fifo.forward
  have hFuel := hHolds.shape.length_lt_fuel
  rw [← List.append_assoc] at hSeg hFuel
  apply follow_spec hSeg
  · intro a ha
    apply decide_eq_true
    change (rq.interval a).1 < endseq
    rcases List.mem_append.mp ha with hIn | hIn
    · have hPos := normal_pos hHolds.normal (x := a)
        (by simp [hIn])
      have hEnd := hLow a hIn
      omega
    · exact (hMid a hIn).2
  · intro b hb
    apply decide_eq_false
    have hStart := hHigh b (List.mem_of_head? hb)
    change ¬ (rq.interval b).1 < endseq
    omega
  · rw [List.length_append] at hFuel
    omega

/- The search for the last block before the segment. -/
theorem follow_prev
    (hHolds : Holds rq (as ++ (mid ++ bs)) ys fs covered)
    (hLt : start < endseq)
    (hLow : ∀ a ∈ as, (rq.interval a).2 ≤ start)
    (hMid : ∀ m ∈ mid, start < (rq.interval m).2 ∧
      (rq.interval m).1 < endseq)
    (hHigh : ∀ b ∈ bs, endseq ≤ (rq.interval b).1) :
    follow rq.fifo.prev
      (fun p => decide (start < (rq.seg p).endseq))
      rq.fuel rq.fifo.last = some as.getLast? := by
  have hSeg := hHolds.shape.fifo.backward
  have hFuel := hHolds.shape.length_lt_fuel
  rw [List.reverse_append] at hSeg
  rw [List.length_append] at hFuel
  rw [← List.head?_reverse]
  apply follow_spec hSeg
  · intro b hb
    apply decide_eq_true
    change start < (rq.interval b).2
    rcases List.mem_append.mp (List.mem_reverse.mp hb) with
      hIn | hIn
    · exact (hMid b hIn).1
    · have hPos := normal_pos hHolds.normal (x := b)
        (by simp [hIn])
      have hStart := hHigh b hIn
      omega
  · intro a ha
    apply decide_eq_false
    have hMem := List.mem_reverse.mp (List.mem_of_head? ha)
    have hEnd := hLow a hMem
    change ¬ start < (rq.interval a).2
    omega
  · rw [List.length_reverse]
    omega

/- The block before the segment is passed over. -/
theorem kill_start
    (hHolds : Holds rq (as ++ (mid ++ bs)) ys fs covered)
    (hLow : ∀ a ∈ as, (rq.interval a).2 ≤ start)
    (altered : Bool)
    (tiflags : Nat)
    (initcnt : Int) :
    ∃ fuel, mid.length < fuel ∧
      kill bs.head? start endseq rq.fuel rq
          (as.getLast?.or rq.fifo.first) altered tiflags
          initcnt =
        kill bs.head? start endseq fuel rq
          (mid ++ bs).head? altered tiflags initcnt := by
  have hFuel := hHolds.shape.length_lt_fuel
  simp only [List.length_append] at hFuel
  rcases List.eq_nil_or_concat as with rfl | ⟨as, p, rfl⟩
  · refine ⟨rq.fuel, by omega, ?_⟩
    rw [hHolds.shape.fifo.first_eq]
    rfl
  · rw [List.concat_eq_append] at hHolds hLow hFuel ⊢
    rw [List.getLast?_concat, Option.some_or]
    have hShape : Shape rq (as ++ p :: (mid ++ bs)) ys fs := by
      simpa using hHolds.shape
    have hNe : bs.head? ≠ some p := by
      intro hHead
      apply hShape.used.1
      simp [List.mem_of_head? hHead]
    have hPos := normal_pos hHolds.normal (x := p) (by simp)
    have hEnd := hLow p (by simp)
    have hFar : ¬ start ≤ (rq.seg p).startseq := by
      change ¬ start ≤ (rq.interval p).1
      omega
    refine ⟨rq.fresh, ?_, ?_⟩
    · unfold fuel at hFuel
      simp only [List.length_append] at hFuel
      rw [List.length_singleton] at hFuel
      omega
    · unfold fuel
      rw [kill.eq_def]
      simp only
      rw [if_neg hNe, if_neg, if_neg]
      · rw [hShape.fifo.next_eq]
      · exact fun hInside => hFar hInside.1
      · exact fun hExact => hFar hExact.1.le

end ReassemblyQueue

end Ns2

------------------------------------------------------------
-- Adding a Segment
------------------------------------------------------------

namespace Ns2

namespace ReassemblyQueue

open IntervalList LinkedList

variable {rq : ReassemblyQueue}
variable {as bs mid xs ys fs : List Nat} {x : Nat}
variable {start endseq : Int} {covered : Finset Int}

theorem Overlaps.congr
    {rq' : ReassemblyQueue}
    (hOver : Overlaps rq as mid bs start endseq)
    (hSeg : rq'.seg = rq.seg) :
    Overlaps rq' as mid bs start endseq := by
  have hSame : rq'.interval = rq.interval := by
    funext i
    unfold interval
    rw [hSeg]
  constructor
  case lt => exact hOver.lt
  case low => rw [hSame]; exact hOver.low
  case high => rw [hSame]; exact hOver.high
  case overlap => rw [hSame]; exact hOver.overlap
  case partly => rw [hSame]; exact hOver.partly

/-
  A pass adds the segment, or it kills blocks inside it and
  leaves others; then the next pass finds fewer blocks.
-/
theorem pass_spec
    (hHolds : Holds rq xs ys fs covered)
    (hSome : xs ≠ [])
    (hLt : start < endseq)
    (tiflags rqflags : Nat)
    (initcnt : Int) :
    (∃ flags rq' xs' ys' fs' x,
      rq.pass start endseq tiflags rqflags initcnt =
        some (.done flags rq') ∧
      Holds rq' xs' ys' fs'
        (covered ∪ values start endseq) ∧
      Landed rq rq' xs ys xs' ys' start endseq tiflags flags
        x) ∨
    ∃ rq' tiflags' initcnt' xs' ys' fs' covered',
      rq.pass start endseq tiflags rqflags initcnt =
        some (.again rq' tiflags' initcnt') ∧
      Holds rq' xs' ys' fs' covered' ∧
      covered' ∪ values start endseq =
        covered ∪ values start endseq ∧
      Thinned rq rq' xs xs' ys ys' start endseq tiflags
        tiflags' ∧
      xs' ≠ [] ∧ xs'.length < xs.length := by
  rcases List.exists_cons_of_ne_nil hSome with
    ⟨head, rest, hHeadEq⟩
  rcases List.eq_nil_or_concat xs with hNil | ⟨ws, tail, hTailEq⟩
  · exact absurd hNil hSome
  rw [List.concat_eq_append] at hTailEq
  have hFirst : rq.fifo.first = some head := by
    rw [hHolds.shape.fifo.first_eq, hHeadEq]
    rfl
  have hLast : rq.fifo.last = some tail := by
    rw [hHolds.shape.fifo.last_eq, hTailEq,
      List.getLast?_concat]
  unfold pass
  simp only
  rw [hLast, Option.bind_some, hFirst, Option.bind_some]
  by_cases hBehind : (rq.seg tail).endseq ≤ start
  · left
    have hEnds : ∀ a ∈ xs, (rq.interval a).2 ≤ start := by
      intro a ha
      rw [hTailEq] at ha
      exact (ends_le_last (hTailEq ▸ hHolds.normal) a
        ha).trans hBehind
    rw [if_pos hBehind]
    have hBack : Holds rq (xs ++ []) ys fs covered := by
      simpa using hHolds
    rcases hBack.link_spec
        ⟨start, endseq, tiflags, rqflags, initcnt⟩
        (decide (start = (rq.seg tail).endseq)) hLt hEnds
        (fun b hb => by cases hb)
        (by simp [hTailEq, interval, eq_comm]) with
      ⟨r, xs', ys', fs', x, hLink, hDone, hLanded⟩
    rw [hTailEq, List.getLast?_concat, List.head?_nil]
      at hLink
    rw [hLink]
    rw [List.append_nil] at hLanded
    exact ⟨_, _, xs', ys', fs', x, rfl, hDone, hLanded⟩
  rw [if_neg hBehind]
  by_cases hBefore : endseq ≤ (rq.seg head).startseq
  · left
    have hStarts : ∀ b ∈ xs, endseq ≤ (rq.interval b).1 := by
      intro b hb
      rw [hHeadEq] at hb
      exact hBefore.trans
        (head_le_starts (hHeadEq ▸ hHolds.normal) b hb)
    rw [if_pos hBefore]
    have hFront : Holds rq ([] ++ xs) ys fs covered := hHolds
    rcases hFront.link_spec
        ⟨start, endseq, tiflags, rqflags, initcnt⟩
        (decide (endseq = (rq.seg head).startseq)) hLt
        (fun a ha => by cases ha) hStarts
        (by simp [hHeadEq, interval, eq_comm]) with
      ⟨r, xs', ys', fs', x, hLink, hDone, hLanded⟩
    rw [hHeadEq, List.getLast?_nil, List.head?_cons]
      at hLink
    rw [hLink]
    exact ⟨_, _, xs', ys', fs', x, rfl, hDone, hLanded⟩
  rw [if_neg hBefore]
  rcases hHolds.split start endseq with
    ⟨as, mid, bs, rfl, hLow, hMid, hHigh⟩
  have hNext := follow_next hHolds hLt hLow hMid hHigh
  have hPrev := follow_prev hHolds hLt hLow hMid hHigh
  rw [hFirst] at hNext
  rw [hLast] at hPrev
  rcases kill_start hHolds hLow false tiflags initcnt with
    ⟨fuel, hFuel, hStart⟩
  rw [hFirst] at hStart
  rw [hNext, Option.bind_some, hPrev, Option.bind_some, hStart]
  rcases kill_spec hHolds start endseq fuel hFuel false
      tiflags initcnt with
    ⟨flags, rq', xs', ys', fs', x, hKill, hDone, hLanded⟩ |
    ⟨rq', altered', tiflags', initcnt', mid', hKill, hKilled,
      hYes, hNot⟩
  · left
    rw [hKill]
    exact ⟨flags, rq', xs', ys', fs', x, rfl, hDone, hLanded⟩
  rcases hKilled.holds with
    ⟨ys', fs', covered', hHolds', hCovered, hThinned⟩
  rw [hKill, Option.bind_some]
  simp only
  by_cases hEmpty : rq'.empty
  · left
    have hNil := hHolds'.shape.empty_iff.mp hEmpty
    simp only [List.append_eq_nil_iff] at hNil
    rcases hNil with ⟨rfl, rfl, rfl⟩
    rw [if_pos hEmpty]
    have hAlone : Holds rq' ([] ++ []) ys' fs' covered' :=
      hHolds'
    rcases hAlone.link_spec
        ⟨start, endseq, tiflags', rqflags, initcnt'⟩ false hLt
        (fun a ha => by cases ha) (fun b hb => by cases hb)
        (by simp) with
      ⟨r, xs₁, ys₁, fs₁, x, hLink, hDone, hLanded⟩
    rw [hLink]
    exact ⟨_, _, xs₁, ys₁, fs₁, x, rfl, hDone.cast hCovered,
      hThinned.landed hLanded⟩
  rw [if_neg hEmpty]
  by_cases hAltered : altered' = true
  · right
    rw [if_pos hAltered]
    refine ⟨rq', tiflags', initcnt', _, ys', fs', covered',
      rfl, hHolds', hCovered, hThinned, ?_, ?_⟩
    · intro hNil
      exact hEmpty (hHolds'.shape.empty_iff.mpr hNil)
    · rcases hYes hAltered with hFalse | hLess
      · cases hFalse
      · simp only [List.length_append]
        omega
  · left
    have hMidEq := (hNot (by simpa using hAltered)).2
    subst hMidEq
    rw [if_neg hAltered]
    have hOver : Overlaps rq as mid' bs start endseq :=
      ⟨hLt, hLow, hHigh, hMid, hKilled.partly⟩
    have hOverHead : as ++ mid' ≠ [] := by
      intro hNil
      rcases List.append_eq_nil_iff.mp hNil with ⟨rfl, rfl⟩
      apply hBefore
      apply hHigh head
      rw [List.nil_append, List.nil_append] at hHeadEq
      rw [hHeadEq]
      exact List.mem_cons_self
    have hOverTail : mid' ++ bs ≠ [] := by
      intro hNil
      rcases List.append_eq_nil_iff.mp hNil with ⟨rfl, rfl⟩
      apply hBehind
      apply hLow tail
      rw [List.append_nil, List.append_nil] at hTailEq
      rw [hTailEq]
      simp
    rcases merge_spec hHolds' (hOver.congr hKilled.seg_eq)
        hOverHead hOverTail tiflags' rqflags initcnt' with
      ⟨r, xs₁, ys₁, fs₁, x, hMerge, hDone, hLanded⟩
    rw [hMerge]
    exact ⟨_, _, xs₁, ys₁, fs₁, x, rfl, hDone.cast hCovered,
      hThinned.landed hLanded⟩

/- The passes end, for each new one finds fewer blocks. -/
theorem passes_spec
    (fuel : Nat)
    (hFuel : xs.length < fuel)
    (hHolds : Holds rq xs ys fs covered)
    (hSome : xs ≠ [])
    (hLt : start < endseq)
    (tiflags rqflags : Nat)
    (initcnt : Int) :
    ∃ r xs' ys' fs' x,
      passes fuel rq start endseq tiflags rqflags initcnt =
        some r ∧
      Holds r.2 xs' ys' fs'
        (covered ∪ values start endseq) ∧
      Landed rq r.2 xs ys xs' ys' start endseq tiflags r.1
        x := by
  induction fuel generalizing rq xs ys fs covered tiflags
    initcnt with
  | zero => cases hFuel
  | succ fuel ih =>
      unfold passes
      rcases pass_spec hHolds hSome hLt tiflags rqflags
          initcnt with
        ⟨flags, rq', xs', ys', fs', x, hPass, hDone,
          hLanded⟩ |
        ⟨rq', tiflags', initcnt', xs', ys', fs', covered',
          hPass, hHolds', hCovered, hThinned, hSome', hLess⟩
      · rw [hPass, Option.bind_some]
        exact ⟨_, xs', ys', fs', x, rfl, hDone, hLanded⟩
      · rw [hPass, Option.bind_some]
        rcases ih (by omega) hHolds' hSome' tiflags'
            initcnt' with
          ⟨r, xs₁, ys₁, fs₁, x, hAdd, hDone, hLanded⟩
        exact ⟨r, xs₁, ys₁, fs₁, x, hAdd,
          hDone.cast hCovered, hThinned.landed hLanded⟩

/- The first block of an empty queue. -/
theorem Between.first
    {rq' : ReassemblyQueue}
    {ys' fs' : List Nat}
    (hHolds : Holds rq [] [] fs covered)
    (hBetween : Between rq rq' [] x [] ys' fs' start endseq)
    (hLt : start < endseq)
    (hTotal : rq'.total = endseq - start) :
    Holds rq' [x] ys' fs'
      (covered ∪ values start endseq) := by
  have hZero : rq.total = 0 := hHolds.total_eq
  have hAlone : Holds rq ([] ++ ([] ++ [])) [] fs covered :=
    hHolds
  apply Between.holds [] hAlone hBetween hLt
  · intro a ha
    cases ha
  · intro b hb
    cases hb
  · simp [hTotal, hZero]
  · intro i
    simp

/- Adding a segment adds its numbers. -/
theorem add_spec
    (hHolds : Holds rq xs ys fs covered)
    (hLt : start < endseq)
    (tiflags rqflags : Nat) :
    ∃ r xs' ys' fs' x,
      rq.add start endseq tiflags rqflags = some r ∧
      Holds r.2 xs' ys' fs'
        (covered ∪ values start endseq) ∧
      Landed rq r.2 xs ys xs' ys' start endseq tiflags r.1
        x := by
  unfold add
  rw [if_neg (not_lt.mpr hLt.le)]
  by_cases hEmpty : rq.empty
  · rw [if_pos hEmpty]
    have hNil := hHolds.shape.empty_iff.mp hEmpty
    subst hNil
    have hNone : ys = [] := hHolds.shape.perm.eq_nil
    subst hNone
    have hTop : rq.lifo.first = none :=
      hHolds.shape.lifo.first_eq
    rw [hTop, if_neg (fun hNe => hNe rfl)]
    rcases hHolds.shape.newseginfo with
      ⟨n, fresh, freelist, fs', hNew, hReady, hOff, hUsed,
        hOld⟩
    rw [hNew]
    have hList : Shape
        { rq with freelist := freelist, fresh := fresh }
        ([] ++ []) [] fs' := hReady
    have hApart : Apart rq [] start endseq :=
      ⟨hLt, by simp, by simp⟩
    refine ⟨_, [n], [n], fs', n, rfl, ?_, ?_⟩
    rotate_left
    · apply hApart.landed_created
      · intro i hi
        cases hi
      · simp
      · unfold interval
        simp [ReassemblyQueue.modify]
      · simp [ReassemblyQueue.modify]
      · intro i hi hNe
        exact absurd (List.mem_singleton.mp hi) hNe
      · rfl
      · exact advance_rcvNxt
    apply Holds.advance
    apply Between.first hHolds _ hLt rfl
    constructor
    case shape =>
      apply hList.link hOff hUsed hOld
      · rfl
      · simp only
        rw [hTop]
        rfl
      · rfl
      · rfl
    case here =>
      unfold interval
      simp only [ReassemblyQueue.modify, Function.update_self]
    case others =>
      intro i hi
      cases hi
  · rw [if_neg hEmpty]
    apply passes_spec _ hHolds.shape.length_lt_fuel hHolds _
      hLt
    intro hNil
    exact hEmpty (hHolds.shape.empty_iff.mpr hNil)

end ReassemblyQueue

end Ns2

------------------------------------------------------------
-- What a Landing Leaves
------------------------------------------------------------

namespace Ns2

namespace ReassemblyQueue

open IntervalList

variable {rq rq' : ReassemblyQueue}
variable {xs ys fs xs' ys' fs' : List Nat} {i x : Nat}
variable {start endseq : Int} {covered : Finset Int}
variable {t ret : Nat}

/- The number where a block ends is in no block. -/
theorem Holds.end_not_mem
    (hHolds : Holds rq xs ys fs covered)
    (hx : x ∈ xs) :
    (rq.interval x).2 ∉ covered := by
  intro hIn
  rcases (hHolds.mem_iff _).mp hIn with ⟨z, hz, hLow, hHigh⟩
  by_cases hEq : z = x
  · rw [hEq] at hHigh
    omega
  · have hGap := hHolds.gap hx hz hEq
    have hPos := normal_pos hHolds.normal hx
    omega

/- Neither is the number before its start. -/
theorem Holds.start_not_mem
    (hHolds : Holds rq xs ys fs covered)
    (hx : x ∈ xs) :
    (rq.interval x).1 - 1 ∉ covered := by
  intro hIn
  rcases (hHolds.mem_iff _).mp hIn with ⟨z, hz, hLow, hHigh⟩
  by_cases hEq : z = x
  · rw [hEq] at hLow
    omega
  · have hGap := hHolds.gap hx hz hEq
    have hPos := normal_pos hHolds.normal hx
    omega

/- Blocks with a number in common are one. -/
theorem Holds.eq_of_overlap
    {z : Nat}
    {n : Int}
    (hHolds : Holds rq xs ys fs covered)
    (hx : x ∈ xs)
    (hz : z ∈ xs)
    (hInX : (rq.interval x).1 ≤ n ∧ n < (rq.interval x).2)
    (hInZ : (rq.interval z).1 ≤ n ∧ n < (rq.interval z).2) :
    z = x := by
  by_contra hNe
  have hGap := hHolds.gap hx hz hNe
  omega

/- The block takes in the blocks that the segment meets. -/
theorem Landed.takes_in
    (hLanded : Landed rq rq' xs ys xs' ys' start endseq t ret
      x)
    (hHolds : Holds rq xs ys fs covered)
    (hDone : Holds rq' xs' ys' fs'
      (covered ∪ values start endseq))
    (hLt : start < endseq)
    (hi : i ∈ xs)
    (hMeets : Meets rq start endseq i) :
    (rq'.interval x).1 ≤ (rq.interval i).1 ∧
      (rq.interval i).2 ≤ (rq'.interval x).2 := by
  have hLow := hLanded.low
  have hHigh := hLanded.high
  have hPos := normal_pos hHolds.normal hi
  unfold Meets at hMeets
  have hSub : values (min (rq.interval i).1 start)
      (max (rq.interval i).2 endseq) ⊆
        covered ∪ values start endseq := by
    intro n hn
    rw [mem_values] at hn
    rw [Finset.mem_union, mem_values]
    by_cases hIn : start ≤ n ∧ n < endseq
    · exact Or.inr hIn
    · exact Or.inl (hHolds.mem hi (by omega) (by omega))
  have hBoth := hDone.contains hLanded.mem hSub hLow
    (by omega) (min_le_right _ _)
    (lt_of_lt_of_le hLt (le_max_right _ _))
  omega

/- It stays apart from the others. -/
theorem Landed.leaves
    (hLanded : Landed rq rq' xs ys xs' ys' start endseq t ret
      x)
    (hHolds : Holds rq xs ys fs covered)
    (hDone : Holds rq' xs' ys' fs'
      (covered ∪ values start endseq))
    (hLt : start < endseq)
    (hi : i ∈ xs)
    (hNot : ¬ Meets rq start endseq i) :
    (rq.interval i).2 < (rq'.interval x).1 ∨
      (rq'.interval x).2 < (rq.interval i).1 := by
  have hLow := hLanded.low
  have hHigh := hLanded.high
  unfold Meets at hNot
  by_cases hBefore : (rq.interval i).2 < start
  · left
    by_contra hReach
    have hIn := hDone.mem hLanded.mem
      (i := (rq.interval i).2) (by omega) (by omega)
    rw [Finset.mem_union, mem_values] at hIn
    rcases hIn with hIn | hIn
    · exact hHolds.end_not_mem hi hIn
    · omega
  · right
    by_contra hReach
    have hIn := hDone.mem hLanded.mem
      (i := (rq.interval i).1 - 1) (by omega) (by omega)
    rw [Finset.mem_union, mem_values] at hIn
    rcases hIn with hIn | hIn
    · exact hHolds.start_not_mem hi hIn
    · omega

/- The other blocks are those that the segment misses. -/
theorem Landed.others_iff
    (hLanded : Landed rq rq' xs ys xs' ys' start endseq t ret
      x)
    (hHolds : Holds rq xs ys fs covered)
    (hDone : Holds rq' xs' ys' fs'
      (covered ∪ values start endseq))
    (hLt : start < endseq)
    (i : Nat) :
    i ∈ xs' ∧ i ≠ x ↔ i ∈ xs ∧ ¬ Meets rq start endseq i := by
  constructor
  · rintro ⟨hi, hNe⟩
    rcases hLanded.others i hi hNe with ⟨hOld, hSeg⟩
    refine ⟨hOld, ?_⟩
    have hGap := hDone.gap hLanded.mem hi hNe
    have hSame : rq'.interval i = rq.interval i := by
      unfold interval
      rw [hSeg]
    have hLow := hLanded.low
    have hHigh := hLanded.high
    rw [hSame] at hGap
    unfold Meets
    omega
  · rintro ⟨hi, hNot⟩
    have hPos := normal_pos hHolds.normal hi
    have hIn : (rq.interval i).1 ∈
        covered ∪ values start endseq :=
      Finset.mem_union_left _ (hHolds.mem hi le_rfl hPos)
    rcases (hDone.mem_iff _).mp hIn with ⟨z, hz, hLow, hHigh⟩
    have hApart := hLanded.leaves hHolds hDone hLt hi hNot
    have hOther : z ≠ x := by
      rintro rfl
      omega
    rcases hLanded.others z hz hOther with ⟨hOld, hSeg⟩
    have hSame : rq'.interval z = rq.interval z := by
      unfold interval
      rw [hSeg]
    rw [hSame] at hLow hHigh
    have hEq := hHolds.eq_of_overlap hi hOld ⟨le_rfl, hPos⟩
      ⟨hLow, hHigh⟩
    rw [← hEq]
    exact ⟨hz, hOther⟩

end ReassemblyQueue

end Ns2

------------------------------------------------------------
-- Clearing
------------------------------------------------------------

namespace Ns2

namespace ReassemblyQueue

open IntervalList LinkedList

variable {rq : ReassemblyQueue}
variable {xs ys fs : List Nat} {x : Nat}
variable {covered : Finset Int}

/- The queue `rq'` is `rq` without the blocks `gone`. -/
structure Freed
    (rq rq' : ReassemblyQueue)
    (xs xs' ys ys' : List Nat)
    (seq : Int)
    (flag flag' : Nat)
    (gone : List Nat) : Prop where
  split : xs = gone ++ xs'
  past : ∀ i ∈ gone, (rq.interval i).2 ≤ seq
  seg : rq'.seg = rq.seg
  point : rq'.rcvNxt = rq.rcvNxt
  stack : ys'.Sublist ys
  flags : ∀ b, flag'.testBit b = true ↔
    flag.testBit b = true ∨
      ∃ i ∈ gone, (rq.seg i).pflags.testBit b = true

theorem Freed.refl
    {seq : Int}
    {flag : Nat} :
    Freed rq rq xs xs ys ys seq flag flag [] := by
  constructor
  case split => rfl
  case past => simp
  case seg => rfl
  case point => rfl
  case stack => exact List.Sublist.refl ys
  case flags => simp

/- One more block in front of those that go. -/
theorem Freed.cons
    {rq₁ rq' : ReassemblyQueue}
    {xs' ys₁ ys' gone : List Nat}
    {seq : Int}
    {flag flag' : Nat}
    (hFreed : Freed rq₁ rq' xs xs' ys₁ ys' seq
      (flag ||| (rq.seg x).pflags) flag' gone)
    (hSeg : rq₁.seg = rq.seg)
    (hPoint : rq₁.rcvNxt = rq.rcvNxt)
    (hStack : ys₁.Sublist ys)
    (hEnd : (rq.interval x).2 ≤ seq) :
    Freed rq rq' (x :: xs) xs' ys ys' seq flag flag'
      (x :: gone) := by
  have hSame := interval_of_seg hSeg
  constructor
  case split => rw [hFreed.split, List.cons_append]
  case past =>
    intro i hi
    rcases List.mem_cons.mp hi with rfl | hIn
    · exact hEnd
    · rw [← hSame]
      exact hFreed.past i hIn
  case seg => exact hFreed.seg.trans hSeg
  case point => exact hFreed.point.trans hPoint
  case stack => exact hFreed.stack.trans hStack
  case flags =>
    intro b
    rw [hFreed.flags, Nat.testBit_or, Bool.or_eq_true, hSeg]
    simp only [List.mem_cons, exists_eq_or_imp]
    rw [or_assoc]

/- The blocks that end by `seq` are at the head. -/
theorem clearBlocks_spec
    (seq : Int)
    (fuel : Nat)
    (hFuel : xs.length < fuel)
    (hHolds : Holds rq xs ys fs covered)
    (flag : Nat) :
    ∃ flag' rq' xs' ys' fs' covered',
      clearBlocks seq fuel rq xs.head? flag =
        some (xs'.head?, flag', rq') ∧
      Holds rq' xs' ys' fs' covered' ∧
      (∀ i, seq ≤ i → (i ∈ covered' ↔ i ∈ covered)) ∧
      (∀ b ∈ xs', seq < (rq'.interval b).2) ∧
      ∃ gone, Freed rq rq' xs xs' ys ys' seq flag flag'
        gone := by
  induction xs generalizing rq ys fs covered fuel flag with
  | nil =>
      cases fuel with
      | zero => cases hFuel
      | succ fuel =>
          refine ⟨flag, rq, [], ys, fs, covered, rfl, hHolds,
            fun i _ => Iff.rfl, ?_, [], Freed.refl⟩
          intro b hb
          cases hb
  | cons x xs ih =>
      cases fuel with
      | zero => cases hFuel
      | succ fuel =>
          have hLess : xs.length < fuel := by
            simpa using hFuel
          have hFront : Holds rq ([] ++ x :: xs) ys fs
              covered := hHolds
          have hNext : rq.fifo.next x = xs.head? :=
            hFront.shape.fifo.next_eq
          unfold clearBlocks
          simp only [List.head?_cons]
          by_cases hEnd : (rq.seg x).endseq ≤ seq
          · rw [if_pos hEnd, hNext, fremove_sremove]
            rcases hFront.remove with
              ⟨covered₁, hHolds₁, hSplit⟩
            rcases ih fuel hLess hHolds₁
                (flag ||| (rq.seg x).pflags) with
              ⟨flag', rq', xs', ys', fs', covered', hClear,
                hDone, hCovered, hRest, gone, hFreed⟩
            refine ⟨flag', rq', xs', ys', fs', covered',
              hClear, hDone, ?_, hRest, x :: gone,
              hFreed.cons rfl rfl List.erase_sublist hEnd⟩
            intro i hi
            have hOut : ¬ i < (rq.interval x).2 := by
              change ¬ i < (rq.seg x).endseq
              omega
            rw [hCovered i hi, hSplit]
            simp [hOut]
          · rw [if_neg hEnd]
            refine ⟨flag, rq, x :: xs, ys, fs, covered, rfl,
              hHolds, fun i _ => Iff.rfl, ?_, [], Freed.refl⟩
            intro b hb
            have hStart := head_le_starts hHolds.normal b hb
            have hPos := normal_pos hHolds.normal hb
            have hHere : seq < (rq.interval x).2 :=
              not_le.mp hEnd
            rcases List.mem_cons.mp hb with rfl | hIn
            · exact hHere
            · have hList : Normal (rq.blocks ([x] ++ xs)) :=
                hHolds.normal
              have hGap := normal_gap hList
                List.mem_cons_self hIn
              omega

/- The first block loses what is before `seq`. -/
theorem Between.trimmed
    {rq' : ReassemblyQueue}
    {seq : Int}
    (hHolds : Holds rq (x :: xs) ys fs covered)
    (hBetween : Between rq rq' [] x xs ys fs seq
      (rq.interval x).2)
    (hTotal : rq'.total =
      rq.total - (seq - (rq.interval x).1))
    (hLow : (rq.interval x).1 ≤ seq)
    (hHigh : seq < (rq.interval x).2) :
    Holds rq' (x :: xs) ys fs
      (covered.filter fun i => seq ≤ i) := by
  have hGap : ∀ b ∈ xs,
      (rq.interval x).2 < (rq.interval b).1 := by
    intro b hb
    have hList : Normal (rq.blocks ([x] ++ xs)) :=
      hHolds.normal
    exact normal_gap hList List.mem_cons_self hb
  have hBlocks : rq'.blocks (x :: xs) =
      (seq, (rq.interval x).2) :: rq.blocks xs :=
    hBetween.blocks_eq
  constructor
  case shape => exact hBetween.shape
  case normal =>
    rw [hBlocks]
    have hList : Normal
        ([] ++ ([rq.interval x] ++ rq.blocks xs)) :=
      hHolds.normal
    apply hList.replace hHigh
    · intro a ha
      cases ha
    · intro b hb
      rcases List.mem_map.mp hb with ⟨i, hi, rfl⟩
      exact hGap i hi
  case total_eq =>
    rw [hBlocks, hTotal, hHolds.total_eq, blocks_cons,
      total_cons, total_cons]
    simp only
    omega
  case cover_eq =>
    rw [hBlocks, ← hHolds.cover_eq, blocks_cons]
    ext i
    rw [Finset.mem_filter, mem_cover_cons, mem_cover_cons]
    simp only
    have hRest : i ∈ cover (rq.blocks xs) → seq ≤ i := by
      intro hIn
      rcases mem_cover.mp hIn with ⟨b, hb, hStart, _⟩
      rcases List.mem_map.mp hb with ⟨j, hj, rfl⟩
      have hFar := hGap j hj
      omega
    constructor
    · rintro (⟨hGe, hLt⟩ | hIn)
      · exact ⟨Or.inl ⟨by omega, hLt⟩, hGe⟩
      · exact ⟨Or.inr hIn, hRest hIn⟩
    · rintro ⟨⟨_, hLt⟩ | hIn, hGe⟩
      · exact Or.inl ⟨hGe, hLt⟩
      · exact Or.inr hIn

/- The block that contains `seq` loses what is before it. -/
theorem trim_spec
    (hHolds : Holds rq xs ys fs covered)
    {seq : Int}
    (hEnds : ∀ b ∈ xs, seq < (rq.interval b).2)
    (flag : Nat) :
    Holds (rq.trim xs.head? seq flag).2 xs ys fs
      (covered.filter fun i => seq ≤ i) := by
  rcases xs with _ | ⟨x, xs⟩
  · apply hHolds.cast
    ext i
    rw [Finset.mem_filter, hHolds.mem_iff]
    simp
  · unfold trim
    simp only [List.head?_cons]
    by_cases hCut : (rq.seg x).startseq ≤ seq ∧
        seq < (rq.seg x).endseq
    · rw [if_pos hCut]
      have hShape : Shape rq ([] ++ x :: xs) ys fs :=
        hHolds.shape
      have hHere := hShape.modify_between
        (f := fun s => { s with startseq := seq }) rfl rfl
      apply Between.trimmed hHolds _ rfl hCut.1 hCut.2
      exact ⟨hHere.shape.congr rfl rfl rfl rfl, hHere.here,
        hHere.others⟩
    · rw [if_neg hCut]
      apply hHolds.cast
      ext i
      rw [Finset.mem_filter, hHolds.mem_iff]
      constructor
      · rintro ⟨b, hb, hLow, hHigh⟩
        refine ⟨⟨b, hb, hLow, hHigh⟩, ?_⟩
        have hStart := head_le_starts hHolds.normal b hb
        have hEnd := hEnds x List.mem_cons_self
        have hOut : ¬ ((rq.interval x).1 ≤ seq ∧
            seq < (rq.interval x).2) := hCut
        omega
      · exact And.left

/-
  The blocks that end behind `seq` are left, without what is
  before `seq`; the result has the flags of the blocks that
  are gone or cut.
-/
structure Cleared
    (rq rq' : ReassemblyQueue)
    (xs xs' ys ys' : List Nat)
    (seq : Int)
    (flag : Nat) : Prop where
  mem_iff : ∀ i, i ∈ xs' ↔ i ∈ xs ∧ seq < (rq.interval i).2
  cut : ∀ i ∈ xs', rq'.interval i =
    (max seq (rq.interval i).1, (rq.interval i).2)
  kept : ∀ i ∈ xs', (rq'.seg i).pflags = (rq.seg i).pflags
  point : rq'.rcvNxt = rq.rcvNxt
  stack : ys'.Sublist ys
  flags : ∀ b, flag.testBit b = true ↔
    ∃ i ∈ xs, (rq.interval i).1 ≤ seq ∧
      (rq.seg i).pflags.testBit b = true

theorem Freed.flags_iff
    {rq' : ReassemblyQueue}
    {xs' ys' gone : List Nat}
    {seq : Int}
    {flag : Nat}
    (hFreed : Freed rq rq' xs xs' ys ys' seq 0 flag gone)
    (hNodup : xs.Nodup)
    (hGone : ∀ i ∈ gone, (rq.interval i).1 ≤ seq)
    (b : Nat) :
    flag.testBit b = true ↔
      ∃ i ∈ xs, i ∉ xs' ∧ (rq.interval i).1 ≤ seq ∧
        (rq.seg i).pflags.testBit b = true := by
  rw [hFreed.flags, Nat.zero_testBit]
  rw [hFreed.split] at hNodup ⊢
  constructor
  · rintro (hNo | ⟨i, hi, hBit⟩)
    · cases hNo
    · refine ⟨i, List.mem_append_left _ hi, ?_, hGone i hi,
        hBit⟩
      intro hIn
      exact (List.nodup_append.mp hNodup).2.2 i hi i hIn rfl
  · rintro ⟨i, hi, hOut, _, hBit⟩
    right
    exact ⟨i, (List.mem_append.mp hi).resolve_right hOut,
      hBit⟩

/- Trimming after the blocks before `seq` are gone. -/
theorem Freed.trim
    {rq' : ReassemblyQueue}
    {xs' ys' gone : List Nat}
    {seq : Int}
    {flag : Nat}
    (hFreed : Freed rq rq' xs xs' ys ys' seq 0 flag gone)
    (hNodup : xs.Nodup)
    (hNormal : Normal (rq.blocks xs))
    (hEnds : ∀ b ∈ xs', seq < (rq'.interval b).2) :
    Cleared rq (rq'.trim xs'.head? seq flag).2 xs xs' ys ys'
      seq (rq'.trim xs'.head? seq flag).1 := by
  have hSame := interval_of_seg hFreed.seg
  have hPos : ∀ i ∈ xs,
      (rq.interval i).1 < (rq.interval i).2 :=
    fun i hi => normal_pos hNormal hi
  have hMem : ∀ i, i ∈ xs' ↔
      i ∈ xs ∧ seq < (rq.interval i).2 := by
    intro i
    rw [hFreed.split, List.mem_append]
    constructor
    · intro hIn
      refine ⟨Or.inr hIn, ?_⟩
      rw [← hSame]
      exact hEnds i hIn
    · rintro ⟨hGone | hIn, hEnd⟩
      · exact absurd (hFreed.past i hGone) (not_le.mpr hEnd)
      · exact hIn
  have hGone : ∀ i ∈ gone, (rq.interval i).1 ≤ seq := by
    intro i hi
    have hPast := hFreed.past i hi
    have hFar := hPos i (by simp [hFreed.split, hi])
    omega
  -- Where the first block left is not cut, nothing is.
  have hLater : ∀ h tl, xs' = h :: tl →
      ∀ i ∈ tl, seq < (rq.interval i).1 := by
    intro h tl hEq i hi
    have hHead : seq < (rq.interval h).2 :=
      ((hMem h).mp (by simp [hEq])).2
    have hGap : (rq.interval h).2 < (rq.interval i).1 := by
      rw [hFreed.split, hEq] at hNormal
      have hList : gone ++ h :: tl = (gone ++ [h]) ++ tl := by
        simp
      rw [hList] at hNormal
      exact normal_gap hNormal (by simp) hi
    omega
  cases xs' with
  | nil =>
      constructor
      case mem_iff => exact hMem
      case cut => simp
      case kept => simp
      case point => exact hFreed.point
      case stack => exact hFreed.stack
      case flags =>
        intro b
        apply (hFreed.flags_iff hNodup hGone b).trans
        simp
  | cons h tl =>
      have hHead : seq < (rq.interval h).2 :=
        ((hMem h).mp List.mem_cons_self).2
      have hTail := hLater h tl rfl
      by_cases hCut : (rq'.seg h).startseq ≤ seq ∧
          seq < (rq'.seg h).endseq
      · have hTrim : rq'.trim (h :: tl).head? seq flag =
            (flag ||| (rq'.seg h).pflags,
              { rq'.modify h (fun s => { s with startseq := seq })
                with total := rq'.total -
                  (seq - (rq'.seg h).startseq) }) := by
          unfold ReassemblyQueue.trim
          simp only [List.head?_cons]
          rw [if_pos hCut]
        have hStart : (rq.interval h).1 ≤ seq := by
          rw [← hSame]
          exact hCut.1
        rw [hTrim]
        constructor
        case mem_iff => exact hMem
        case cut =>
          intro i hi
          by_cases hEq : i = h
          · rw [hEq, max_eq_left hStart, ← hSame]
            simp [interval, ReassemblyQueue.modify]
          · have hFar := hTail i
              ((List.mem_cons.mp hi).resolve_left hEq)
            rw [max_eq_right hFar.le, ← hSame]
            simp [interval, ReassemblyQueue.modify, hEq]
        case kept =>
          intro i hi
          rw [← hFreed.seg]
          by_cases hEq : i = h
          · simp [hEq, ReassemblyQueue.modify]
          · simp [hEq, ReassemblyQueue.modify]
        case point => exact hFreed.point
        case stack => exact hFreed.stack
        case flags =>
          intro b
          rw [Nat.testBit_or, Bool.or_eq_true,
            hFreed.flags_iff hNodup hGone b, hFreed.seg]
          constructor
          · rintro (⟨i, hi, _, hLow, hBit⟩ | hBit)
            · exact ⟨i, hi, hLow, hBit⟩
            · exact ⟨h, ((hMem h).mp List.mem_cons_self).1,
                hStart, hBit⟩
          · rintro ⟨i, hi, hLow, hBit⟩
            by_cases hIn : i ∈ h :: tl
            · rcases List.mem_cons.mp hIn with rfl | hIn
              · exact Or.inr hBit
              · have hFar := hTail i hIn
                omega
            · exact Or.inl ⟨i, hi, hIn, hLow, hBit⟩
      · have hTrim : rq'.trim (h :: tl).head? seq flag =
            (flag, rq') := by
          unfold ReassemblyQueue.trim
          simp only [List.head?_cons]
          rw [if_neg hCut]
        have hStart : seq < (rq.interval h).1 := by
          by_contra hNot
          apply hCut
          constructor
          · change (rq'.interval h).1 ≤ seq
            rw [hSame]
            omega
          · exact hEnds h List.mem_cons_self
        have hAll : ∀ i ∈ h :: tl,
            seq < (rq.interval i).1 := by
          intro i hi
          rcases List.mem_cons.mp hi with rfl | hIn
          · exact hStart
          · exact hTail i hIn
        rw [hTrim]
        constructor
        case mem_iff => exact hMem
        case cut =>
          intro i hi
          rw [hSame, max_eq_right (hAll i hi).le]
        case kept =>
          intro i hi
          rw [hFreed.seg]
        case point => exact hFreed.point
        case stack => exact hFreed.stack
        case flags =>
          intro b
          rw [hFreed.flags_iff hNodup hGone b]
          constructor
          · rintro ⟨i, hi, _, hLow, hBit⟩
            exact ⟨i, hi, hLow, hBit⟩
          · rintro ⟨i, hi, hLow, hBit⟩
            refine ⟨i, hi, ?_, hLow, hBit⟩
            intro hIn
            have hFar := hAll i hIn
            omega

/- Clearing removes the numbers before `seq`. -/
theorem clearto_spec
    (hHolds : Holds rq xs ys fs covered)
    (seq : Int) :
    ∃ r xs' ys' fs', rq.clearto seq = some r ∧
      Holds r.2 xs' ys' fs'
        (covered.filter fun i => seq ≤ i) ∧
      Cleared rq r.2 xs xs' ys ys' seq r.1 := by
  rcases clearBlocks_spec seq rq.fuel
      hHolds.shape.length_lt_fuel hHolds 0 with
    ⟨flag, rq', xs', ys', fs', covered', hClear, hDone,
      hCovered, hEnds, gone, hFreed⟩
  unfold clearto
  rw [hHolds.shape.fifo.first_eq, hClear]
  refine ⟨_, xs', ys', fs', rfl, ?_,
    hFreed.trim hHolds.shape.fifo.nodup hHolds.normal hEnds⟩
  apply (trim_spec hDone hEnds flag).cast
  ext i
  rw [Finset.mem_filter, Finset.mem_filter]
  constructor
  · rintro ⟨hIn, hGe⟩
    exact ⟨(hCovered i hGe).mp hIn, hGe⟩
  · rintro ⟨hIn, hGe⟩
    exact ⟨(hCovered i hGe).mpr hIn, hGe⟩

/- Giving back the nodes that the first pointer leads to. -/
theorem release_spec
    (fuel : Nat)
    (hFuel : xs.length < fuel)
    (hSeg : Seg rq.fifo.next rq.fifo.first xs none)
    (hFree : Seg rq.fifo.next rq.freelist fs none)
    (hNodup : (xs ++ fs).Nodup) :
    ∃ next freelist,
      release fuel rq =
        some { rq with
          fifo := { rq.fifo with first := none, next := next }
          freelist := freelist } ∧
      ∃ fs', Seg next freelist fs' none ∧ fs'.Nodup ∧
        ∀ i ∈ fs', i ∈ xs ∨ i ∈ fs := by
  induction xs generalizing rq fs fuel with
  | nil =>
      cases fuel with
      | zero => cases hFuel
      | succ fuel =>
          have hFirst : rq.fifo.first = none := hSeg
          refine ⟨rq.fifo.next, rq.freelist, ?_, fs, hFree,
            hNodup, fun i hi => Or.inr hi⟩
          unfold release
          rw [hFirst]
          simp only
          rw [← hFirst]
  | cons x xs ih =>
      cases fuel with
      | zero => cases hFuel
      | succ fuel =>
          have hFirst : rq.fifo.first = some x := hSeg.1
          have hApart := List.nodup_cons.mp hNodup
          have hUsed : x ∉ fs := fun hIn =>
            hApart.1 (List.mem_append_right xs hIn)
          have hOff : x ∉ xs := fun hIn =>
            hApart.1 (List.mem_append_left fs hIn)
          let rq₁ : ReassemblyQueue :=
            { rq with
              fifo :=
                { rq.fifo with first := rq.fifo.next x } }
          have hNext : ∀ y, y ≠ x →
              (rq₁.deleteseginfo x).fifo.next y =
                rq.fifo.next y := by
            intro y hy
            exact Function.update_of_ne hy _ _
          have hSeg₁ : Seg (rq₁.deleteseginfo x).fifo.next
              (rq₁.deleteseginfo x).fifo.first xs none := by
            apply hSeg.2.congr
            intro y hy
            apply hNext
            rintro rfl
            exact hOff hy
          have hFree₁ : Seg (rq₁.deleteseginfo x).fifo.next
              (rq₁.deleteseginfo x).freelist (x :: fs)
              none := by
            refine ⟨rfl, ?_⟩
            have hHere :
                (rq₁.deleteseginfo x).fifo.next x =
                  rq.freelist := Function.update_self x _ _
            rw [hHere]
            apply hFree.congr
            intro y hy
            apply hNext
            rintro rfl
            exact hUsed hy
          rcases ih fuel (by simpa using hFuel) hSeg₁ hFree₁
              (List.nodup_middle.mpr hNodup) with
            ⟨next, freelist, hRelease, fs', hFs, hNodup',
              hMem⟩
          refine ⟨next, freelist, ?_, fs', hFs, hNodup', ?_⟩
          · unfold release
            rw [hFirst]
            exact hRelease
          · intro i hi
            rcases hMem i hi with hIn | hIn
            · exact Or.inl (List.mem_cons_of_mem x hIn)
            · rcases List.mem_cons.mp hIn with rfl | hIn
              · exact Or.inl List.mem_cons_self
              · exact Or.inr hIn

/- Clearing the whole queue. -/
theorem clear_spec
    (hHolds : Holds rq xs ys fs covered) :
    ∃ rq' fs', rq.clear = some rq' ∧
      Holds rq' [] [] fs' ∅ := by
  have hShape := hHolds.shape
  let rq₁ : ReassemblyQueue :=
    { rq with
      fifo := { rq.fifo with last := none }
      lifo := { rq.lifo with first := none, last := none }
      hint := none }
  have hNodup : (xs ++ fs).Nodup := by
    apply List.nodup_append.mpr
    refine ⟨hShape.fifo.nodup, hShape.free_nodup, ?_⟩
    rintro i hi j hj rfl
    exact hShape.free_apart i hj hi
  rcases @release_spec rq₁ xs fs rq.fuel
      hShape.length_lt_fuel hShape.fifo.forward hShape.free
      hNodup with
    ⟨next, freelist, hRelease, fs', hFs, hNodup', hMem⟩
  unfold clear
  change ∃ rq' fs', (release rq.fuel rq₁).map _ = some rq' ∧ _
  rw [hRelease]
  refine ⟨_, fs', rfl, ?_⟩
  constructor
  case shape =>
    constructor
    case fifo => exact ⟨List.nodup_nil, rfl, rfl⟩
    case lifo => exact ⟨List.nodup_nil, rfl, rfl⟩
    case perm => exact List.Perm.refl []
    case free => exact hFs
    case free_nodup => exact hNodup'
    case free_apart =>
      intro i _ hi
      cases hi
    case bounded =>
      intro i hi
      rcases hi with hi | hi
      · cases hi
      · exact hShape.bounded i (hMem i hi)
  case normal => exact normal_nil
  case total_eq => rfl
  case cover_eq => rfl

end ReassemblyQueue

end Ns2

------------------------------------------------------------
-- Runs of the Queue
------------------------------------------------------------

namespace Ns2

namespace ReassemblyQueue

open IntervalList

/- A call as the code's users make it. -/
def Call.Proper : Call → Prop
| .add start endseq _ _ => start < endseq
| _ => True

/- What a call does to a set of numbers. -/
def Call.apply
    (covered : Finset Int) : Call → Finset Int
| .add start endseq _ _ => covered ∪ values start endseq
| .clearto seq => covered.filter fun i => seq ≤ i
| .clear => ∅

/- The numbers added and not cleared again. -/
def remaining (calls : List Call) : Finset Int :=
  calls.foldl Call.apply ∅

variable {rq : ReassemblyQueue}
variable {xs ys fs : List Nat} {covered : Finset Int}

theorem holds_new
    (rcvNxt : Int) :
    Holds (new rcvNxt) [] [] [] ∅ :=
  ⟨shape_new rcvNxt, normal_nil, rfl, rfl⟩

/- A call does to the queue what it does to its numbers. -/
theorem call_spec
    (hHolds : Holds rq xs ys fs covered)
    {c : Call}
    (hProper : c.Proper) :
    ∃ rq' xs' ys' fs', rq.call c = some rq' ∧
      Holds rq' xs' ys' fs' (c.apply covered) := by
  cases c with
  | add start endseq tiflags rqflags =>
      rcases add_spec hHolds hProper tiflags rqflags with
        ⟨r, xs', ys', fs', _, hAdd, hDone, _⟩
      refine ⟨r.2, xs', ys', fs', ?_, hDone⟩
      unfold call
      simp only
      rw [hAdd, Option.map_some]
  | clearto seq =>
      rcases clearto_spec hHolds seq with
        ⟨r, xs', ys', fs', hClear, hDone, _⟩
      refine ⟨r.2, xs', ys', fs', ?_, hDone⟩
      unfold call
      simp only
      rw [hClear, Option.map_some]
  | clear =>
      rcases clear_spec hHolds with
        ⟨rq', fs', hClear, hDone⟩
      exact ⟨rq', [], [], fs', hClear, hDone⟩

theorem run_spec
    (hHolds : Holds rq xs ys fs covered)
    {calls : List Call}
    (hProper : ∀ c ∈ calls, c.Proper) :
    ∃ rq' xs' ys' fs', rq.run calls = some rq' ∧
      Holds rq' xs' ys' fs'
        (calls.foldl Call.apply covered) := by
  induction calls generalizing rq xs ys fs covered with
  | nil => exact ⟨rq, xs, ys, fs, rfl, hHolds⟩
  | cons c calls ih =>
      rcases call_spec hHolds (hProper c (by simp)) with
        ⟨rq₁, xs₁, ys₁, fs₁, hCall, hHolds₁⟩
      rcases ih hHolds₁ (fun d hd => hProper d (by simp [hd]))
        with ⟨rq₂, xs₂, ys₂, fs₂, hRun, hHolds₂⟩
      refine ⟨rq₂, xs₂, ys₂, fs₂, ?_, hHolds₂⟩
      unfold run
      rw [hCall]
      exact hRun

/-
  The queue after any calls.  No call aborts or follows a
  null pointer.  The queue is a list of non-empty blocks in
  order and with gaps, whose numbers are those added and not
  cleared; the stack holds the same nodes, and the total is
  how many numbers there are.
-/
theorem interval_set_correct
    (rcvNxt : Int)
    (calls : List Call)
    (hProper : ∀ c ∈ calls, c.Proper) :
    ∃ rq xs ys, (new rcvNxt).run calls = some rq ∧
      rq.fifo.Lists xs ∧ rq.lifo.Lists ys ∧ ys.Perm xs ∧
      (∀ x ∈ xs, (rq.seg x).startseq < (rq.seg x).endseq) ∧
      xs.Pairwise (fun x y =>
        (rq.seg x).endseq < (rq.seg y).startseq) ∧
      (∀ i, i ∈ remaining calls ↔
        ∃ x ∈ xs, (rq.seg x).startseq ≤ i ∧
          i < (rq.seg x).endseq) ∧
      rq.total = (remaining calls).card := by
  rcases run_spec (holds_new rcvNxt) hProper with
    ⟨rq, xs, ys, fs, hRun, hHolds⟩
  refine ⟨rq, xs, ys, hRun, hHolds.shape.fifo,
    hHolds.shape.lifo, hHolds.shape.perm, ?_, ?_, ?_, ?_⟩
  · intro x hx
    exact normal_pos hHolds.normal hx
  · exact List.pairwise_map.mp hHolds.normal.sorted
  · exact hHolds.mem_iff
  · rw [hHolds.total_eq, hHolds.normal.total_eq_card,
      hHolds.cover_eq]
    rfl

/- A hole filled from both sides, and a cut through it. -/
theorem interval_set_correct_hole :
    ∃ rq, (new 0).run
        [.add 10 20 0 0, .add 30 40 0 0, .add 15 35 0 0,
          .clearto 25] = some rq ∧
      rq.total = 15 := by
  rcases interval_set_correct 0
      [.add 10 20 0 0, .add 30 40 0 0, .add 15 35 0 0,
        .clearto 25] (by
        intro c hc
        simp only [List.mem_cons, List.not_mem_nil, or_false]
          at hc
        rcases hc with rfl | rfl | rfl | rfl
        · show (10 : Int) < 20
          decide
        · show (30 : Int) < 40
          decide
        · show (15 : Int) < 35
          decide
        · trivial) with
    ⟨rq, xs, ys, hRun, _, _, _, _, _, _, hTotal⟩
  refine ⟨rq, hRun, hTotal.trans ?_⟩
  decide

end ReassemblyQueue

end Ns2
