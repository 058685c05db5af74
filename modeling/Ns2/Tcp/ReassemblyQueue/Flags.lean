import Mathlib.Data.Finset.Max
import Ns2.Lib.BitWords
import Ns2.Lib.PartialRun
import Ns2.Tcp.ReassemblyQueue.Correctness

/-
  The header flags that the reassembly queue keeps.

  A block has the flags of all segments that lie in it, as
  long as no segment bridges two blocks of which the second
  has a flag of its own: its flags are dropped.  The flags
  returned are those of the block, except that a segment that
  only widens a block returns no flags of that block.

  Main declarations:
    * `ReassemblyQueue.Tagged`
    * `ReassemblyQueue.Tagged.add`
    * `ReassemblyQueue.flags_kept_iff`
-/

------------------------------------------------------------
-- Segments and Their Flags
------------------------------------------------------------

namespace Ns2

namespace ReassemblyQueue

/- A segment as it arrives. -/
structure Arrival where
  start : Int
  endseq : Int
  tiflags : Nat
  rqflags : Nat
deriving DecidableEq, Repr

def Arrival.LiesIn
    (a : Arrival)
    (block : Int × Int) : Prop :=
  block.1 ≤ a.start ∧ a.endseq ≤ block.2

instance
    (a : Arrival)
    (block : Int × Int) : Decidable (a.LiesIn block) :=
  inferInstanceAs (Decidable (_ ∧ _))

/- The flags of the segments that lie in a block. -/
def flagsIn
    (arrivals : List Arrival)
    (block : Int × Int) : Nat :=
  BitWords.orAll
    ((arrivals.filter (·.LiesIn block)).map (·.tiflags))

def Arrival.add
    (rq : ReassemblyQueue)
    (a : Arrival) : Option (Nat × ReassemblyQueue) :=
  rq.add a.start a.endseq a.tiflags a.rqflags

def arrive
    (rq : ReassemblyQueue)
    (a : Arrival) : Option ReassemblyQueue :=
  (a.add rq).map Prod.snd

/-
  The segment `a` after `before` lies in a block, and what is
  returned and what the block has are the flags of all the
  segments in it.
-/
def Arrival.Reported
    (before : List Arrival)
    (rq : ReassemblyQueue)
    (a : Arrival) : Prop :=
  ∃ ret rq', a.add rq = some (ret, rq') ∧
    ∃ x ∈ rq'.order, a.LiesIn (rq'.interval x) ∧
      (rq'.seg x).pflags =
        flagsIn (before ++ [a]) (rq'.interval x) ∧
      ret = flagsIn (before ++ [a]) (rq'.interval x)

/- The flags of a segment and of the blocks inside it. -/
def Arrival.gathered
    (rq : ReassemblyQueue)
    (a : Arrival) : Nat :=
  a.tiflags ||| BitWords.orAll
    ((rq.order.filter (Inside rq a.start a.endseq ·)).map
      fun i => (rq.seg i).pflags)

/-
  Where the segment bridges the block `p` to a later one, the
  later one has no flag that the segment, the blocks inside
  it and `p` lack.
-/
def Arrival.Bridges
    (rq : ReassemblyQueue)
    (a : Arrival) : Prop :=
  ∀ p ∈ rq.order, ∀ q ∈ rq.order,
    Joins rq a.start a.endseq p →
    Joins rq a.start a.endseq q →
    (rq.interval p).1 < (rq.interval q).1 →
    (a.gathered rq ||| (rq.seg p).pflags) |||
        (rq.seg q).pflags =
      a.gathered rq ||| (rq.seg p).pflags

/-
  Where the segment only widens a block, the block has no
  flag that the segment and the blocks inside it lack.
-/
def Arrival.Widens
    (rq : ReassemblyQueue)
    (a : Arrival) : Prop :=
  Stops rq rq.order a.start a.endseq →
    ∀ x ∈ rq.order, Joins rq a.start a.endseq x →
      a.gathered rq ||| (rq.seg x).pflags = a.gathered rq

instance
    (rq : ReassemblyQueue)
    (a : Arrival) : Decidable (a.Bridges rq) :=
  inferInstanceAs (Decidable (∀ p ∈ rq.order, _))

instance
    (rq : ReassemblyQueue)
    (a : Arrival) : Decidable (a.Widens rq) :=
  inferInstanceAs (Decidable (_ → _))

theorem testBit_flagsIn
    {arrivals : List Arrival}
    {block : Int × Int}
    {b : Nat} :
    (flagsIn arrivals block).testBit b = true ↔
      ∃ a ∈ arrivals, a.LiesIn block ∧
        a.tiflags.testBit b = true := by
  unfold flagsIn
  rw [BitWords.testBit_orAll]
  simp [and_assoc]

theorem testBit_gathered
    {rq : ReassemblyQueue}
    {a : Arrival}
    {b : Nat} :
    (a.gathered rq).testBit b = true ↔
      Gathers rq rq.order a.start a.endseq a.tiflags b := by
  unfold Arrival.gathered Gathers
  rw [Nat.testBit_or, Bool.or_eq_true, BitWords.testBit_orAll]
  simp [and_assoc]

end ReassemblyQueue

end Ns2

------------------------------------------------------------
-- The Flags of the Blocks
------------------------------------------------------------

namespace Ns2

namespace ReassemblyQueue

open IntervalList

variable {rq rq' : ReassemblyQueue}
variable {xs ys fs xs' ys' fs' : List Nat} {x : Nat}
variable {covered : Finset Int}
variable {arrivals : List Arrival} {a : Arrival}
variable {ret : Nat}

/- Every block has the flags of the segments in it. -/
structure Tagged
    (arrivals : List Arrival)
    (rq : ReassemblyQueue)
    (xs ys fs : List Nat)
    (covered : Finset Int) : Prop where
  holds : Holds rq xs ys fs covered
  proper : ∀ a ∈ arrivals, a.start < a.endseq
  lodged : ∀ a ∈ arrivals,
    ∃ x ∈ xs, a.LiesIn (rq.interval x)
  flags : ∀ x ∈ xs, ∀ b,
    (rq.seg x).pflags.testBit b = true ↔
      ∃ a ∈ arrivals, a.LiesIn (rq.interval x) ∧
        a.tiflags.testBit b = true

theorem tagged_new
    (rcvNxt : Int) :
    Tagged [] (new rcvNxt) [] [] [] ∅ := by
  constructor
  case holds => exact holds_new rcvNxt
  case proper => simp
  case lodged => simp
  case flags => simp

/- Where the blocks of the segments seen so far are then. -/
theorem Tagged.lands
    (hTagged : Tagged arrivals rq xs ys fs covered)
    (hLanded : Landed rq rq' xs ys xs' ys' a.start a.endseq
      a.tiflags ret x)
    (hDone : Holds rq' xs' ys' fs'
      (covered ∪ values a.start a.endseq))
    (hLt : a.start < a.endseq)
    {c : Arrival}
    (hc : c ∈ arrivals)
    {i : Nat}
    (hi : i ∈ xs)
    (hLies : c.LiesIn (rq.interval i)) :
    c.LiesIn (rq'.interval x) ↔
      Meets rq a.start a.endseq i := by
  have hProper := hTagged.proper c hc
  unfold Arrival.LiesIn at hLies ⊢
  constructor
  · intro hIn
    by_contra hNot
    have hApart := hLanded.leaves hTagged.holds hDone hLt hi
      hNot
    omega
  · intro hMeets
    have hTaken := hLanded.takes_in hTagged.holds hDone hLt hi
      hMeets
    omega

/- The segments in the block where the new one lands. -/
theorem Tagged.landed_flags
    (hTagged : Tagged arrivals rq xs ys fs covered)
    (hLanded : Landed rq rq' xs ys xs' ys' a.start a.endseq
      a.tiflags ret x)
    (hDone : Holds rq' xs' ys' fs'
      (covered ∪ values a.start a.endseq))
    (hLt : a.start < a.endseq)
    (b : Nat) :
    (flagsIn (arrivals ++ [a]) (rq'.interval x)).testBit b =
        true ↔
      Gathers rq xs a.start a.endseq a.tiflags b ∨
        ∃ i ∈ xs, Joins rq a.start a.endseq i ∧
          (rq.seg i).pflags.testBit b = true := by
  rw [testBit_flagsIn]
  constructor
  · rintro ⟨c, hc, hIn, hBit⟩
    rcases List.mem_append.mp hc with hOld | hNew
    · rcases hTagged.lodged c hOld with ⟨i, hi, hLies⟩
      have hMeets := (hTagged.lands hLanded hDone hLt hOld hi
        hLies).mp hIn
      have hHere := (hTagged.flags i hi b).mpr
        ⟨c, hOld, hLies, hBit⟩
      by_cases hInside : Inside rq a.start a.endseq i
      · exact Or.inl (Or.inr ⟨i, hi, hInside, hHere⟩)
      · exact Or.inr ⟨i, hi, ⟨hMeets, hInside⟩, hHere⟩
    · rw [List.mem_singleton.mp hNew] at hBit
      exact Or.inl (Or.inl hBit)
  · have hBlock : ∀ i ∈ xs, Meets rq a.start a.endseq i →
        (rq.seg i).pflags.testBit b = true →
        ∃ c ∈ arrivals ++ [a], c.LiesIn (rq'.interval x) ∧
          c.tiflags.testBit b = true := by
      intro i hi hMeets hBit
      rcases (hTagged.flags i hi b).mp hBit with
        ⟨c, hc, hLies, hBit⟩
      refine ⟨c, List.mem_append_left _ hc, ?_, hBit⟩
      exact (hTagged.lands hLanded hDone hLt hc hi hLies).mpr
        hMeets
    rintro ((hBit | ⟨i, hi, hInside, hBit⟩) |
      ⟨i, hi, hJoins, hBit⟩)
    · exact ⟨a, by simp, ⟨hLanded.low, hLanded.high⟩, hBit⟩
    · apply hBlock i hi _ hBit
      have hPos := normal_pos hTagged.holds.normal hi
      unfold Inside at hInside
      unfold Meets
      omega
    · exact hBlock i hi hJoins.1 hBit

/- The first block that joins the segment, and the others. -/
theorem Landed.joined_iff
    (hLanded : Landed rq rq' xs ys xs' ys' a.start a.endseq
      a.tiflags ret x)
    (hHolds : Holds rq xs ys fs covered)
    (b : Nat) :
    (rq'.seg x).pflags.testBit b = true ↔
      Gathers rq xs a.start a.endseq a.tiflags b ∨
        ∃ i ∈ xs, Joins rq a.start a.endseq i ∧
          (∀ j ∈ xs, Joins rq a.start a.endseq j →
            (rq.interval i).1 ≤ (rq.interval j).1) ∧
          (rq.seg i).pflags.testBit b = true := by
  rcases hLanded.place with hCreated | hKept
  · rw [hCreated.flags]
    constructor
    · exact Or.inl
    · rintro (hBit | ⟨i, hi, hJoins, _⟩)
      · exact hBit
      · exact absurd hJoins (hCreated.alone i hi).1
  · rw [hKept.flags]
    constructor
    · rintro (hBit | hBit)
      · exact Or.inl hBit
      · rcases hKept.joined with hJoins | hExact
        · exact Or.inr ⟨x, hKept.mem, hJoins, hKept.first,
            hBit⟩
        · left
          right
          refine ⟨x, hKept.mem, ?_, hBit⟩
          unfold Inside
          rw [hExact]
          exact ⟨le_rfl, le_rfl⟩
    · rintro (hBit | ⟨i, hi, hJoins, hFirst, hBit⟩)
      · exact Or.inl hBit
      · right
        have hLe := hKept.first i hi hJoins
        rcases hKept.joined with hJoinsX | hExact
        · have hGe := hFirst x hKept.mem hJoinsX
          have hPosX := normal_pos hHolds.normal hKept.mem
          have hPosI := normal_pos hHolds.normal hi
          have hEq := hHolds.eq_of_overlap hKept.mem hi
            (n := (rq.interval x).1) (by omega) (by omega)
          rw [← hEq]
          exact hBit
        · exfalso
          by_cases hEq : i = x
          · apply hJoins.2
            unfold Inside
            rw [hEq, hExact]
            exact ⟨le_rfl, le_rfl⟩
          · have hGap := hHolds.gap hKept.mem hi hEq
            have hMeets := hJoins.1
            unfold Meets at hMeets
            rw [hExact] at hGap
            simp only at hGap
            omega

/- A block between two that join the segment is inside it. -/
theorem Holds.middle_inside
    {i j k : Nat}
    {start endseq : Int}
    (hHolds : Holds rq xs ys fs covered)
    (hi : i ∈ xs)
    (hj : j ∈ xs)
    (hk : k ∈ xs)
    (hMeetsI : Meets rq start endseq i)
    (hMeetsK : Meets rq start endseq k)
    (hij : (rq.interval i).1 < (rq.interval j).1)
    (hjk : (rq.interval j).1 < (rq.interval k).1) :
    Inside rq start endseq j := by
  have hPosI := normal_pos hHolds.normal hi
  have hPosJ := normal_pos hHolds.normal hj
  have hPosK := normal_pos hHolds.normal hk
  have hGapIJ := hHolds.gap hj hi (by rintro rfl; omega)
  have hGapJK := hHolds.gap hk hj (by rintro rfl; omega)
  unfold Meets at hMeetsI hMeetsK
  unfold Inside
  omega

theorem exists_first
    {i : Nat}
    {start endseq : Int}
    (hi : i ∈ xs)
    (hJoins : Joins rq start endseq i) :
    ∃ f ∈ xs, Joins rq start endseq f ∧
      ∀ j ∈ xs, Joins rq start endseq j →
        (rq.interval f).1 ≤ (rq.interval j).1 := by
  rcases Finset.exists_min_image
      (xs.toFinset.filter (Joins rq start endseq ·))
      (fun j => (rq.interval j).1)
      ⟨i, by simp [hi, hJoins]⟩ with ⟨f, hf, hMin⟩
  simp only [Finset.mem_filter, List.mem_toFinset] at hf hMin
  exact ⟨f, hf.1, hf.2, fun j hj hJoin => hMin j ⟨hj, hJoin⟩⟩

/- The block has all the flags if none of a second is lost. -/
theorem Tagged.stored_iff
    (hTagged : Tagged arrivals rq xs ys fs covered)
    (hLanded : Landed rq rq' xs ys xs' ys' a.start a.endseq
      a.tiflags ret x)
    (hDone : Holds rq' xs' ys' fs'
      (covered ∪ values a.start a.endseq))
    (hLt : a.start < a.endseq) :
    (rq'.seg x).pflags =
        flagsIn (arrivals ++ [a]) (rq'.interval x) ↔
      a.Bridges rq := by
  have hHolds := hTagged.holds
  have hOrder := hHolds.shape.order_eq
  have hAll := hTagged.landed_flags hLanded hDone hLt
  have hStored := hLanded.joined_iff hHolds
  unfold Arrival.Bridges
  simp only [hOrder, BitWords.or_eq_iff, Nat.testBit_or,
    Bool.or_eq_true, testBit_gathered]
  constructor
  · intro hEq p hp q hq hJoinsP hJoinsQ hLess b hBit
    have hIn := (hAll b).mpr (Or.inr ⟨q, hq, hJoinsQ, hBit⟩)
    rw [← hEq] at hIn
    rcases (hStored b).mp hIn with
      hGathers | ⟨i, hi, hJoinsI, hFirst, hBitI⟩
    · exact Or.inl hGathers
    · right
      have hLe := hFirst p hp hJoinsP
      by_cases hSame : i = p
      · rw [← hSame]
        exact hBitI
      · exfalso
        apply hJoinsP.2
        have hPos := normal_pos hHolds.normal hi
        have hPosP := normal_pos hHolds.normal hp
        have hGap := hHolds.gap hp hi hSame
        exact hHolds.middle_inside hi hp hq hJoinsI.1
          hJoinsQ.1 (by omega) hLess
  · intro hBridges
    apply BitWords.eq_of_flags
    intro b
    rw [hAll b, hStored b]
    constructor
    · rintro (hGathers | ⟨i, hi, hJoins, _, hBit⟩)
      · exact Or.inl hGathers
      · exact Or.inr ⟨i, hi, hJoins, hBit⟩
    · rintro (hGathers | ⟨i, hi, hJoins, hBit⟩)
      · exact Or.inl hGathers
      · rcases exists_first hi hJoins with
          ⟨f, hf, hJoinsF, hFirst⟩
        have hLe := hFirst i hi hJoins
        by_cases hSame : (rq.interval f).1 = (rq.interval i).1
        · refine Or.inr ⟨i, hi, hJoins, ?_, hBit⟩
          intro j hj hJoinsJ
          rw [← hSame]
          exact hFirst j hj hJoinsJ
        · rcases hBridges f hf i hi hJoinsF hJoins
              (lt_of_le_of_ne hLe hSame) b hBit with
            hGathers | hBitF
          · exact Or.inl hGathers
          · exact Or.inr ⟨f, hf, hJoinsF, hFirst, hBitF⟩

/- What is returned is all the flags if nothing is widened. -/
theorem Tagged.returned_iff
    (hTagged : Tagged arrivals rq xs ys fs covered)
    (hLanded : Landed rq rq' xs ys xs' ys' a.start a.endseq
      a.tiflags ret x)
    (hDone : Holds rq' xs' ys' fs'
      (covered ∪ values a.start a.endseq))
    (hLt : a.start < a.endseq)
    (hStored : (rq'.seg x).pflags =
      flagsIn (arrivals ++ [a]) (rq'.interval x)) :
    ret = flagsIn (arrivals ++ [a]) (rq'.interval x) ↔
      a.Widens rq := by
  have hOrder := hTagged.holds.shape.order_eq
  have hAll := hTagged.landed_flags hLanded hDone hLt
  unfold Arrival.Widens
  simp only [hOrder, BitWords.or_eq_iff, testBit_gathered]
  by_cases hStops : Stops rq xs a.start a.endseq
  · have hRet := hLanded.untold hStops
    constructor
    · intro hEq _ i hi hJoins b hBit
      have hIn := (hAll b).mpr (Or.inr ⟨i, hi, hJoins, hBit⟩)
      rw [← hEq] at hIn
      exact (hRet b).mp hIn
    · intro hWidens
      apply BitWords.eq_of_flags
      intro b
      rw [hRet b, hAll b]
      constructor
      · exact Or.inl
      · rintro (hGathers | ⟨i, hi, hJoins, hBit⟩)
        · exact hGathers
        · exact hWidens hStops i hi hJoins b hBit
  · constructor
    · intro _ hNot
      exact absurd hNot hStops
    · intro _
      rw [hLanded.told hStops, hStored]

end ReassemblyQueue

end Ns2

------------------------------------------------------------
-- Runs of Arrivals
------------------------------------------------------------

namespace Ns2

namespace ReassemblyQueue

open IntervalList
open PartialRun (Throughout)

variable {rq : ReassemblyQueue}
variable {xs ys fs : List Nat}
variable {covered : Finset Int}
variable {arrivals : List Arrival} {a : Arrival}
variable {rcvNxt : Int}

/- A segment is reported exactly if nothing is dropped. -/
theorem Tagged.reported_iff
    (hTagged : Tagged arrivals rq xs ys fs covered)
    (hLt : a.start < a.endseq) :
    a.Reported arrivals rq ↔ a.Bridges rq ∧ a.Widens rq := by
  rcases add_spec hTagged.holds hLt a.tiflags a.rqflags with
    ⟨r, xs', ys', fs', x, hAdd, hDone, hLanded⟩
  have hOrder := hDone.shape.order_eq
  constructor
  · rintro ⟨ret, rq', hRun, z, hz, hLies, hFlags, hRet⟩
    have hEq : r = (ret, rq') :=
      Option.some.inj (hAdd.symm.trans hRun)
    subst hEq
    simp only at hOrder hDone hLanded
    rw [hOrder] at hz
    have hSame : z = x := by
      have hLow := hLanded.low
      have hHigh := hLanded.high
      unfold Arrival.LiesIn at hLies
      exact hDone.eq_of_overlap hLanded.mem hz
        (n := a.start) (by omega) (by omega)
    subst hSame
    exact ⟨(hTagged.stored_iff hLanded hDone hLt).mp hFlags,
      (hTagged.returned_iff hLanded hDone hLt hFlags).mp
        hRet⟩
  · rintro ⟨hBridges, hWidens⟩
    have hStored :=
      (hTagged.stored_iff hLanded hDone hLt).mpr hBridges
    refine ⟨r.1, r.2, hAdd, x, ?_,
      ⟨hLanded.low, hLanded.high⟩, hStored,
      (hTagged.returned_iff hLanded hDone hLt hStored).mpr
        hWidens⟩
    rw [hOrder]
    exact hLanded.mem

/- A segment whose flags are kept keeps the flags of all. -/
theorem Tagged.add
    (hTagged : Tagged arrivals rq xs ys fs covered)
    (hLt : a.start < a.endseq)
    (hBridges : a.Bridges rq) :
    ∃ rq' xs' ys' fs' covered', rq.arrive a = some rq' ∧
      Tagged (arrivals ++ [a]) rq' xs' ys' fs' covered' := by
  rcases add_spec hTagged.holds hLt a.tiflags a.rqflags with
    ⟨r, xs', ys', fs', x, hAdd, hDone, hLanded⟩
  have hStored :=
    (hTagged.stored_iff hLanded hDone hLt).mpr hBridges
  have hOthers := hLanded.others_iff hTagged.holds hDone hLt
  have hLow := hLanded.low
  have hHigh := hLanded.high
  refine ⟨r.2, xs', ys', fs',
    covered ∪ values a.start a.endseq, ?_, ?_⟩
  · unfold arrive Arrival.add
    rw [hAdd, Option.map_some]
  · constructor
    case holds => exact hDone
    case proper =>
      intro c hc
      rcases List.mem_append.mp hc with hOld | hNew
      · exact hTagged.proper c hOld
      · rw [List.mem_singleton.mp hNew]
        exact hLt
    case lodged =>
      intro c hc
      rcases List.mem_append.mp hc with hOld | hNew
      · rcases hTagged.lodged c hOld with ⟨i, hi, hLies⟩
        by_cases hMeets : Meets rq a.start a.endseq i
        · exact ⟨x, hLanded.mem,
            (hTagged.lands hLanded hDone hLt hOld hi
              hLies).mpr hMeets⟩
        · have hStays := (hOthers i).mpr ⟨hi, hMeets⟩
          refine ⟨i, hStays.1, ?_⟩
          unfold interval
          rw [(hLanded.others i hStays.1 hStays.2).2]
          exact hLies
      · rw [List.mem_singleton.mp hNew]
        exact ⟨x, hLanded.mem, hLow, hHigh⟩
    case flags =>
      intro i hi b
      by_cases hEq : i = x
      · rw [hEq, hStored, testBit_flagsIn]
      · rcases hLanded.others i hi hEq with ⟨hOld, hSeg⟩
        have hSame : r.2.interval i = rq.interval i := by
          unfold interval
          rw [hSeg]
        rw [hSeg, hTagged.flags i hOld b, hSame]
        constructor
        · rintro ⟨c, hc, hIn⟩
          exact ⟨c, List.mem_append_left _ hc, hIn⟩
        · rintro ⟨c, hc, hIn, hBit⟩
          rcases List.mem_append.mp hc with hOldC | hNew
          · exact ⟨c, hOldC, hIn, hBit⟩
          · exfalso
            rw [List.mem_singleton.mp hNew] at hIn
            have hGap := hDone.gap hLanded.mem hi hEq
            unfold Arrival.LiesIn at hIn
            rw [hSame] at hGap
            omega

/- Clearing a block reports the flags of its segments. -/
theorem Tagged.cleared
    (hTagged : Tagged arrivals rq xs ys fs covered)
    (seq : Int) :
    ∃ r, rq.clearto seq = some r ∧
      ∀ a ∈ arrivals, ∀ x ∈ rq.order,
        a.LiesIn (rq.interval x) →
        (rq.interval x).2 ≤ seq →
        r.1 ||| a.tiflags = r.1 := by
  rcases clearto_spec hTagged.holds seq with
    ⟨r, xs', ys', fs', hClear, _, hCleared⟩
  refine ⟨r, hClear, ?_⟩
  intro a ha x hx hLies hEnd
  rw [hTagged.holds.shape.order_eq] at hx
  have hPos := normal_pos hTagged.holds.normal hx
  rw [BitWords.or_eq_iff]
  intro b hBit
  rw [hCleared.flags]
  refine ⟨x, hx, by omega, ?_⟩
  exact (hTagged.flags x hx b).mpr ⟨a, ha, hLies, hBit⟩

theorem run_tagged
    (hProper : ∀ a ∈ arrivals, a.start < a.endseq)
    (hBridges : Throughout arrive (fun rq a => a.Bridges rq)
      (new rcvNxt) arrivals) :
    ∃ rq, PartialRun.run arrive (new rcvNxt) arrivals =
        some rq ∧
      ∃ xs ys fs covered,
        Tagged arrivals rq xs ys fs covered := by
  apply @PartialRun.progress _ _ arrive
    (fun arrivals rq => ∃ xs ys fs covered,
      Tagged arrivals rq xs ys fs covered)
    (fun _ rq a => a.start < a.endseq ∧ a.Bridges rq)
  · rintro before rq a ⟨xs, ys, fs, covered, hTagged⟩
      ⟨hLt, hBridge⟩
    rcases hTagged.add hLt hBridge with
      ⟨rq', xs', ys', fs', covered', hArrive, hNext⟩
    exact ⟨rq', hArrive, xs', ys', fs', covered', hNext⟩
  · exact ⟨[], [], [], ∅, tagged_new rcvNxt⟩
  · intro before a after rq hEq hRun
    exact ⟨hProper a (by simp [hEq]),
      hBridges before a after rq hEq hRun⟩

theorem run_arrives
    (hProper : ∀ a ∈ arrivals, a.start < a.endseq) :
    ∃ rq, PartialRun.run arrive (new rcvNxt) arrivals =
      some rq := by
  have h := @PartialRun.progress _ _ arrive
    (fun _ rq => ∃ xs ys fs covered,
      Holds rq xs ys fs covered)
    (fun _ _ a => a.start < a.endseq) ?_ (new rcvNxt)
    arrivals ⟨[], [], [], ∅, holds_new rcvNxt⟩ ?_
  · rcases h with ⟨rq, hRun, _⟩
    exact ⟨rq, hRun⟩
  · rintro before rq a ⟨xs, ys, fs, covered, hHolds⟩ hLt
    rcases add_spec hHolds hLt a.tiflags a.rqflags with
      ⟨r, xs', ys', fs', _, hAdd, hDone, _⟩
    refine ⟨r.2, ?_, xs', ys', fs', _, hDone⟩
    unfold arrive Arrival.add
    rw [hAdd, Option.map_some]
  · intro before a after rq hEq _
    exact hProper a (by simp [hEq])

/- Where all segments are reported, none drops a flag. -/
theorem throughout_keeps
    (hProper : ∀ a ∈ arrivals, a.start < a.endseq)
    (hReported : ∀ before a after rq,
      arrivals = before ++ a :: after →
      PartialRun.run arrive (new rcvNxt) before = some rq →
      a.Reported before rq) :
    Throughout arrive
      (fun rq a => a.Bridges rq ∧ a.Widens rq) (new rcvNxt)
      arrivals := by
  induction arrivals using List.reverseRecOn with
  | nil => exact PartialRun.throughout_nil _
  | append_singleton arrivals a ih =>
      have hBefore := ih
        (fun c hc => hProper c (by simp [hc]))
        (by
          intro before c after rq hEq hRun
          apply hReported before c (after ++ [a]) rq ?_ hRun
          rw [hEq, List.append_assoc, List.cons_append])
      rcases run_tagged
          (fun c hc => hProper c (by simp [hc]))
          (fun before c after rq hEq hRun =>
            (hBefore before c after rq hEq hRun).1) with
        ⟨rq, hRun, xs, ys, fs, covered, hTagged⟩
      rw [PartialRun.throughout_concat hRun]
      refine ⟨hBefore, ?_⟩
      rw [← hTagged.reported_iff (hProper a (by simp))]
      exact hReported arrivals a [] rq rfl hRun

/-
  In a run of arrivals, every call of `add` returns the flags
  of all segments in the block where its segment lands, and
  the block has them, exactly if no segment drops the flags
  of a second block that it bridges or holds back those of a
  block that it only widens.  Then clearing a block reports
  the flags of every segment in it.
-/
theorem flags_kept_iff
    (rcvNxt : Int)
    (arrivals : List Arrival)
    (hProper : ∀ a ∈ arrivals, a.start < a.endseq) :
    (∃ rq, PartialRun.run arrive (new rcvNxt) arrivals =
      some rq) ∧
    ((∀ before a after rq,
      arrivals = before ++ a :: after →
      PartialRun.run arrive (new rcvNxt) before = some rq →
      a.Reported before rq) ↔
    Throughout arrive
      (fun rq a => a.Bridges rq ∧ a.Widens rq) (new rcvNxt)
      arrivals) ∧
    (Throughout arrive (fun rq a => a.Bridges rq)
      (new rcvNxt) arrivals →
    ∀ rq, PartialRun.run arrive (new rcvNxt) arrivals =
      some rq →
    ∀ seq, ∃ r, rq.clearto seq = some r ∧
      ∀ a ∈ arrivals, ∀ x ∈ rq.order,
        a.LiesIn (rq.interval x) →
        (rq.interval x).2 ≤ seq →
        r.1 ||| a.tiflags = r.1) := by
  refine ⟨run_arrives hProper, ⟨throughout_keeps hProper, ?_⟩,
    ?_⟩
  · intro hKeeps before a after rq hEq hRun
    have hNow := hKeeps before a after rq hEq hRun
    rw [hEq] at hKeeps
    rcases run_tagged
        (fun c hc => hProper c (by simp [hEq, hc]))
        (fun before' c after' s hEq' hRun' =>
          (PartialRun.throughout_append_left hKeeps before' c
            after' s hEq' hRun').1) with
      ⟨rq₁, hRun₁, xs, ys, fs, covered, hTagged⟩
    rw [hRun] at hRun₁
    cases hRun₁
    exact (hTagged.reported_iff
      (hProper a (by simp [hEq]))).mpr hNow
  · intro hBridges rq hRun seq
    rcases run_tagged hProper hBridges with
      ⟨rq₁, hRun₁, xs, ys, fs, covered, hTagged⟩
    rw [hRun] at hRun₁
    cases hRun₁
    exact hTagged.cleared seq

/- A FIN out of order, and the segment before it. -/
theorem flags_kept_iff_fin :
    ∃ rq, PartialRun.run arrive (new 0)
      [⟨5, 9, 1, 0⟩, ⟨0, 5, 0, 0⟩] = some rq :=
  (flags_kept_iff 0 [⟨5, 9, 1, 0⟩, ⟨0, 5, 0, 0⟩]
    (by decide)).1

/-
  The flag of the block [10, 15) is lost when [5, 10) bridges
  [0, 5) to it: the call returns no flag, and clearing the
  block [0, 15) reports none.
-/
theorem flag_dropped :
    ∃ rq r s,
      PartialRun.run arrive (new 0)
        [⟨0, 5, 0, 0⟩, ⟨10, 15, 1, 0⟩] = some rq ∧
      Arrival.add rq ⟨5, 10, 0, 0⟩ = some r ∧
      r.2.order.map r.2.interval = [(0, 15)] ∧
      flagsIn [⟨0, 5, 0, 0⟩, ⟨10, 15, 1, 0⟩, ⟨5, 10, 0, 0⟩]
        (0, 15) = 1 ∧
      r.1 = 0 ∧ r.2.clearto 15 = some s ∧ s.1 = 0 := by
  refine ⟨_, _, _, rfl, rfl, ?_, ?_, rfl, rfl, rfl⟩
  · decide
  · decide

end ReassemblyQueue

end Ns2
