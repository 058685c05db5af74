import Mathlib.Order.Bounds.Basic
import Ns2.Lib.PartialRun
import Ns2.Tcp.ReassemblyQueue.Correctness

/-
  The in-sequence point of the reassembly queue.

  The point moves over a block that starts before it, to the
  end of that block.  It is the first number not added as
  long as the blocks behind it reach up to it; a segment that
  ends below it and reaches no block moves it back.

  Main declarations:
    * `ReassemblyQueue.Sequenced`
    * `ReassemblyQueue.Sequenced.add`
    * `ReassemblyQueue.in_sequence_iff`
-/

------------------------------------------------------------
-- What a Receiver Has Seen
------------------------------------------------------------

namespace Ns2

namespace ReassemblyQueue

open IntervalList

/-
  A receiver adds segments and clears what is in sequence;
  `cleartonxt` is `clearto` at the in-sequence point.
-/
def Call.Lawful
    (rq : ReassemblyQueue) : Call → Prop
| .add start endseq _ _ => start < endseq
| .clearto seq => seq ≤ rq.rcvNxt
| .clear => False

instance
    (rq : ReassemblyQueue)
    (c : Call) : Decidable (c.Lawful rq) :=
  match c with
  | .add start endseq _ _ =>
      inferInstanceAs (Decidable (start < endseq))
  | .clearto seq =>
      inferInstanceAs (Decidable (seq ≤ rq.rcvNxt))
  | .clear => inferInstanceAs (Decidable False)

/-
  A segment ends at the in-sequence point or behind it, or it
  reaches the first block.
-/
def Call.Reaches
    (rq : ReassemblyQueue) : Call → Prop
| .add _ endseq _ _ =>
    rq.rcvNxt ≤ endseq ∨
      ∃ h, rq.fifo.first = some h ∧
        (rq.seg h).startseq ≤ endseq
| _ => True

/- Some segment added holds the number. -/
def Added (calls : List Call) (n : Int) : Prop :=
  ∃ start endseq tiflags rqflags,
    Call.add start endseq tiflags rqflags ∈ calls ∧
      start ≤ n ∧ n < endseq

/- The first number from `rcvNxt` on that was not added. -/
def InSequence
    (rcvNxt : Int)
    (calls : List Call)
    (n : Int) : Prop :=
  IsLeast {i | rcvNxt ≤ i ∧ ¬ Added calls i} n

/-
  The call `c` after `before` leaves the point where it was
  or moves it on, to the first number that was not added.
-/
def Advances
    (rcvNxt : Int)
    (before : List Call)
    (c : Call)
    (rq rq' : ReassemblyQueue) : Prop :=
  rq.rcvNxt ≤ rq'.rcvNxt ∧
    InSequence rcvNxt (before ++ [c]) rq'.rcvNxt

theorem added_add
    {calls : List Call}
    {start endseq : Int}
    {tiflags rqflags : Nat}
    {n : Int} :
    Added (calls ++ [.add start endseq tiflags rqflags]) n ↔
      Added calls n ∨ start ≤ n ∧ n < endseq := by
  unfold Added
  simp only [List.mem_append, List.mem_singleton,
    Call.add.injEq]
  constructor
  · rintro ⟨s, e, t, f, hIn | ⟨rfl, rfl, rfl, rfl⟩, hn⟩
    · exact Or.inl ⟨s, e, t, f, hIn, hn⟩
    · exact Or.inr hn
  · rintro (⟨s, e, t, f, hIn, hn⟩ | hn)
    · exact ⟨s, e, t, f, Or.inl hIn, hn⟩
    · exact ⟨_, _, _, _, Or.inr ⟨rfl, rfl, rfl, rfl⟩, hn⟩

theorem added_clearto
    {calls : List Call}
    {seq n : Int} :
    Added (calls ++ [.clearto seq]) n ↔ Added calls n := by
  unfold Added
  simp

end ReassemblyQueue

end Ns2

------------------------------------------------------------
-- The Point and the Blocks
------------------------------------------------------------

namespace Ns2

namespace ReassemblyQueue

open IntervalList

variable {rq rq' : ReassemblyQueue}
variable {xs ys fs xs' ys' fs' : List Nat} {x z : Nat}
variable {covered covered' : Finset Int}
variable {start endseq r : Int} {t ret : Nat}

/-
  The blocks hold what was added from the in-sequence point
  on, and a block behind the point reaches up to it.
-/
structure Sequenced
    (rcvNxt : Int)
    (calls : List Call)
    (rq : ReassemblyQueue)
    (xs ys fs : List Nat)
    (covered : Finset Int) : Prop where
  holds : Holds rq xs ys fs covered
  least : InSequence rcvNxt calls rq.rcvNxt
  ahead : ∀ n, rq.rcvNxt ≤ n → (n ∈ covered ↔ Added calls n)
  behind : ∀ i ∈ covered, ∀ j, i ≤ j → j < rq.rcvNxt →
    j ∈ covered

theorem sequenced_new
    (rcvNxt : Int) :
    Sequenced rcvNxt [] (new rcvNxt) [] [] [] ∅ := by
  constructor
  case holds => exact holds_new rcvNxt
  case least =>
    constructor
    · exact ⟨le_rfl, by simp [Added]⟩
    · intro n hn
      exact hn.1
  case ahead => simp [Added]
  case behind => simp

/-
  Where what is held behind `r` reaches up to it, a block
  that starts before `r` ends at the first number from `r` on
  that is not held.
-/
theorem Holds.least_end
    (hHolds : Holds rq xs ys fs covered)
    (hz : z ∈ xs)
    (hBehind : ∀ i ∈ covered, ∀ j, i ≤ j → j < r →
      j ∈ covered)
    (hStart : (rq.interval z).1 ≤ r) :
    IsLeast {n | r ≤ n ∧ n ∉ covered} (rq.interval z).2 := by
  have hOut := hHolds.end_not_mem hz
  have hPos := normal_pos hHolds.normal hz
  constructor
  · refine ⟨?_, hOut⟩
    by_contra hNot
    apply hOut
    apply hBehind ((rq.interval z).2 - 1)
    · exact hHolds.mem hz (by omega) (by omega)
    · omega
    · omega
  · rintro n ⟨hGe, hFree⟩
    by_contra hNot
    exact hFree (hHolds.mem hz (by omega) (by omega))

/- The segment keeps what is behind the point reaching it. -/
theorem Sequenced.behind_add
    {rcvNxt : Int}
    {calls : List Call}
    {rqflags : Nat}
    (hState : Sequenced rcvNxt calls rq xs ys fs covered)
    (hReaches : (Call.add start endseq t rqflags).Reaches rq) :
    ∀ i ∈ covered ∪ values start endseq, ∀ j, i ≤ j →
      j < rq.rcvNxt → j ∈ covered ∪ values start endseq := by
  intro i hi j hij hj
  rw [Finset.mem_union] at hi ⊢
  rcases hi with hIn | hIn
  · exact Or.inl (hState.behind i hIn j hij hj)
  · rw [mem_values] at hIn ⊢
    by_cases hEnd : j < endseq
    · exact Or.inr ⟨by omega, hEnd⟩
    · left
      rcases hReaches with hPast | ⟨h, hFirst, hHead⟩
      · omega
      · rw [hState.holds.shape.fifo.first_eq] at hFirst
        have hMem := List.mem_of_head? hFirst
        have hPos := normal_pos hState.holds.normal hMem
        change (rq.interval h).1 ≤ endseq at hHead
        apply hState.behind (rq.interval h).1
        · exact hState.holds.mem hMem le_rfl hPos
        · omega
        · exact hj

/- The point is again the first number not held. -/
theorem Landed.least_point
    (hLanded : Landed rq rq' xs ys xs' ys' start endseq t ret
      x)
    (hHolds : Holds rq xs ys fs covered)
    (hDone : Holds rq' xs' ys' fs'
      (covered ∪ values start endseq))
    (hOut : rq.rcvNxt ∉ covered)
    (hBehind : ∀ i ∈ covered ∪ values start endseq, ∀ j,
      i ≤ j → j < rq.rcvNxt →
        j ∈ covered ∪ values start endseq) :
    IsLeast {n | rq.rcvNxt ≤ n ∧
      n ∉ covered ∪ values start endseq} rq'.rcvNxt := by
  rcases hLanded.point with ⟨hSame, i, hi, hExact⟩ |
    ⟨z, hz, hStart, hPoint⟩
  · rw [hSame]
    refine ⟨⟨le_rfl, ?_⟩, fun n hn => hn.1⟩
    rw [Finset.mem_union, mem_values]
    rintro (hIn | ⟨hLow, hHigh⟩)
    · exact hOut hIn
    · apply hOut
      apply hHolds.mem hi
      · rw [hExact]
        exact hLow
      · rw [hExact]
        exact hHigh
  · by_cases hBefore : (rq'.interval z).1 ≤ rq.rcvNxt
    · rw [hPoint, if_pos hBefore]
      exact hDone.least_end hz hBehind hBefore
    · rw [hPoint, if_neg hBefore]
      refine ⟨⟨le_rfl, ?_⟩, fun n hn => hn.1⟩
      rw [Finset.mem_union, mem_values]
      rintro (hIn | ⟨hLow, _⟩)
      · exact hOut hIn
      · exact hBefore (hStart.trans hLow)

end ReassemblyQueue

end Ns2

------------------------------------------------------------
-- One Call
------------------------------------------------------------

namespace Ns2

namespace ReassemblyQueue

open IntervalList

variable {rq rq' : ReassemblyQueue}
variable {xs ys fs xs' ys' fs' : List Nat}
variable {covered : Finset Int}
variable {start endseq rcvNxt : Int} {t rqflags : Nat}
variable {calls : List Call}

/- A segment that reaches the point or the first block. -/
theorem Sequenced.add
    (hState : Sequenced rcvNxt calls rq xs ys fs covered)
    (hLt : start < endseq)
    (hReaches : (Call.add start endseq t rqflags).Reaches rq) :
    ∃ rq' xs' ys' fs' covered',
      rq.call (.add start endseq t rqflags) = some rq' ∧
      Sequenced rcvNxt
        (calls ++ [.add start endseq t rqflags]) rq' xs' ys'
        fs' covered' ∧
      rq.rcvNxt ≤ rq'.rcvNxt := by
  rcases add_spec hState.holds hLt t rqflags with
    ⟨r, xs', ys', fs', x, hAdd, hDone, hLanded⟩
  have hFree : ¬ Added calls rq.rcvNxt := hState.least.1.2
  have hOut : rq.rcvNxt ∉ covered := by
    rw [hState.ahead _ le_rfl]
    exact hFree
  have hBehind := hState.behind_add hReaches
  have hLeast := hLanded.least_point hState.holds hDone hOut
    hBehind
  have hGe : rq.rcvNxt ≤ r.2.rcvNxt := hLeast.1.1
  have hHeld : ∀ n, rq.rcvNxt ≤ n →
      (n ∈ covered ∪ values start endseq ↔
        Added (calls ++ [.add start endseq t rqflags]) n) := by
    intro n hn
    rw [added_add, Finset.mem_union, mem_values,
      hState.ahead n hn]
  refine ⟨r.2, xs', ys', fs', covered ∪ values start endseq,
    ?_, ?_, hGe⟩
  · unfold call
    simp only
    rw [hAdd, Option.map_some]
  · constructor
    case holds => exact hDone
    case least =>
      constructor
      · refine ⟨hState.least.1.1.trans hGe, ?_⟩
        rw [← hHeld _ hGe]
        exact hLeast.1.2
      · rintro n ⟨hn, hNot⟩
        have hOld : ¬ Added calls n := by
          intro hIn
          exact hNot (added_add.mpr (Or.inl hIn))
        have hPast : rq.rcvNxt ≤ n := hState.least.2 ⟨hn, hOld⟩
        apply hLeast.2
        refine ⟨hPast, ?_⟩
        rw [hHeld n hPast]
        exact hNot
    case ahead =>
      intro n hn
      exact hHeld n (hGe.trans hn)
    case behind =>
      intro i hi j hij hj
      by_cases hPast : rq.rcvNxt ≤ j
      · by_contra hNot
        have hLow := hLeast.2 ⟨hPast, hNot⟩
        omega
      · exact hBehind i hi j hij (not_le.mp hPast)

/- A segment that ends below both moves the point back. -/
theorem Sequenced.add_back
    (hState : Sequenced rcvNxt calls rq xs ys fs covered)
    (hLt : start < endseq)
    (hNot : ¬ (Call.add start endseq t rqflags).Reaches rq)
    (hCall : rq.call (.add start endseq t rqflags) =
      some rq') :
    rq'.rcvNxt < rq.rcvNxt := by
  rcases add_spec hState.holds hLt t rqflags with
    ⟨r, xs', ys', fs', x, hAdd, hDone, hLanded⟩
  have hEq : r.2 = rq' := by
    unfold call at hCall
    simp only at hCall
    rw [hAdd, Option.map_some] at hCall
    exact Option.some.inj hCall
  rw [← hEq]
  unfold Call.Reaches at hNot
  push Not at hNot
  rcases hNot with ⟨hEnd, hHead⟩
  -- All blocks are behind the segment.
  have hFar : ∀ i ∈ xs, endseq < (rq.interval i).1 := by
    intro i hi
    rcases xs with _ | ⟨h, xs⟩
    · cases hi
    · have hStart := hHead h hState.holds.shape.fifo.first_eq
      have hLe := head_le_starts hState.holds.normal i hi
      change endseq < (rq.interval h).1 at hStart
      omega
  rcases hLanded.point with ⟨_, i, hi, hExact⟩ |
    ⟨z, hz, hStart, hPoint⟩
  · have hPast := hFar i hi
    rw [hExact] at hPast
    simp only at hPast
    omega
  · rw [hPoint, if_pos (by omega)]
    by_contra hBack
    have hIn : endseq ∈ covered ∪ values start endseq :=
      hDone.mem hz (by omega) (by omega)
    rw [Finset.mem_union, mem_values] at hIn
    rcases hIn with hIn | hIn
    · rcases (hState.holds.mem_iff _).mp hIn with
        ⟨i, hi, hLow, _⟩
      have hPast := hFar i hi
      omega
    · omega

/- Clearing what is in sequence leaves the point alone. -/
theorem Sequenced.clearto
    {seq : Int}
    (hState : Sequenced rcvNxt calls rq xs ys fs covered)
    (hSeq : seq ≤ rq.rcvNxt) :
    ∃ rq' xs' ys' fs' covered',
      rq.call (.clearto seq) = some rq' ∧
      Sequenced rcvNxt (calls ++ [.clearto seq]) rq' xs' ys'
        fs' covered' ∧
      rq.rcvNxt ≤ rq'.rcvNxt := by
  rcases clearto_spec hState.holds seq with
    ⟨r, xs', ys', fs', hClear, hDone, hCleared⟩
  have hPoint := hCleared.point
  refine ⟨r.2, xs', ys', fs', covered.filter (seq ≤ ·), ?_,
    ?_, hPoint.ge⟩
  · unfold call
    simp only
    rw [hClear, Option.map_some]
  · constructor
    case holds => exact hDone
    case least =>
      unfold InSequence
      simp only [added_clearto]
      rw [hPoint]
      exact hState.least
    case ahead =>
      intro n hn
      rw [hPoint] at hn
      rw [added_clearto, Finset.mem_filter,
        hState.ahead n hn]
      exact and_iff_left (hSeq.trans hn)
    case behind =>
      intro i hi j hij hj
      rw [hPoint] at hj
      rw [Finset.mem_filter] at hi ⊢
      exact ⟨hState.behind i hi.1 j hij hj, hi.2.trans hij⟩

theorem Sequenced.call
    {c : Call}
    (hState : Sequenced rcvNxt calls rq xs ys fs covered)
    (hLawful : c.Lawful rq)
    (hReaches : c.Reaches rq) :
    ∃ rq' xs' ys' fs' covered', rq.call c = some rq' ∧
      Sequenced rcvNxt (calls ++ [c]) rq' xs' ys' fs'
        covered' ∧
      rq.rcvNxt ≤ rq'.rcvNxt := by
  cases c with
  | add start endseq t rqflags =>
      exact hState.add hLawful hReaches
  | clearto seq => exact hState.clearto hLawful
  | clear => exact absurd hLawful id

end ReassemblyQueue

end Ns2

------------------------------------------------------------
-- Runs of a Receiver
------------------------------------------------------------

namespace Ns2

namespace ReassemblyQueue

open PartialRun (Throughout)

variable {rq rq' : ReassemblyQueue}
variable {rcvNxt : Int} {calls : List Call}

theorem run_sequenced
    (hLawful : Throughout call (fun rq c => c.Lawful rq)
      (new rcvNxt) calls)
    (hReaches : Throughout call (fun rq c => c.Reaches rq)
      (new rcvNxt) calls) :
    ∃ rq, PartialRun.run call (new rcvNxt) calls = some rq ∧
      ∃ xs ys fs covered,
        Sequenced rcvNxt calls rq xs ys fs covered := by
  apply @PartialRun.progress _ _ call
    (fun calls rq => ∃ xs ys fs covered,
      Sequenced rcvNxt calls rq xs ys fs covered)
    (fun _ rq c => c.Lawful rq ∧ c.Reaches rq)
  · rintro before rq c ⟨xs, ys, fs, covered, hState⟩
      ⟨hLaw, hReach⟩
    rcases hState.call hLaw hReach with
      ⟨rq', xs', ys', fs', covered', hCall, hNext, _⟩
    exact ⟨rq', hCall, xs', ys', fs', covered', hNext⟩
  · exact ⟨[], [], [], ∅, sequenced_new rcvNxt⟩
  · intro before c after rq hEq hRun
    exact ⟨hLawful before c after rq hEq hRun,
      hReaches before c after rq hEq hRun⟩

theorem run_exists
    (hLawful : Throughout call (fun rq c => c.Lawful rq)
      (new rcvNxt) calls) :
    ∃ rq, PartialRun.run call (new rcvNxt) calls = some rq := by
  have h := @PartialRun.progress _ _ call
    (fun _ rq => ∃ xs ys fs covered,
      Holds rq xs ys fs covered)
    (fun _ rq c => c.Lawful rq) ?_ (new rcvNxt) calls
    ⟨[], [], [], ∅, holds_new rcvNxt⟩ hLawful
  · rcases h with ⟨rq, hRun, _⟩
    exact ⟨rq, hRun⟩
  · rintro before rq c ⟨xs, ys, fs, covered, hHolds⟩ hLaw
    have hProper : c.Proper := by
      cases c with
      | add start endseq t rqflags => exact hLaw
      | clearto seq => trivial
      | clear => trivial
    rcases call_spec hHolds hProper with
      ⟨rq', xs', ys', fs', hCall, hDone⟩
    exact ⟨rq', hCall, xs', ys', fs', _, hDone⟩

/- A run that never moves the point back reaches. -/
theorem throughout_reaches
    (hLawful : Throughout call (fun rq c => c.Lawful rq)
      (new rcvNxt) calls)
    (hGrows : ∀ before c after rq rq',
      calls = before ++ c :: after →
      PartialRun.run call (new rcvNxt) before = some rq →
      rq.call c = some rq' → rq.rcvNxt ≤ rq'.rcvNxt) :
    Throughout call (fun rq c => c.Reaches rq) (new rcvNxt)
      calls := by
  induction calls using List.reverseRecOn with
  | nil => exact PartialRun.throughout_nil _
  | append_singleton calls c ih =>
      have hBefore :=
        PartialRun.throughout_append_left hLawful
      have hReaches := ih hBefore (by
        intro before d after rq rq' hEq hRun hCall
        apply hGrows before d (after ++ [c]) rq rq' ?_ hRun
          hCall
        rw [hEq, List.append_assoc, List.cons_append])
      rcases run_sequenced hBefore hReaches with
        ⟨rq, hRun, xs, ys, fs, covered, hState⟩
      rw [PartialRun.throughout_concat hRun]
      refine ⟨hReaches, ?_⟩
      by_contra hNot
      have hLaw := hLawful calls c [] rq rfl hRun
      cases c with
      | clearto seq => exact hNot trivial
      | clear => exact hLaw
      | add start endseq t rqflags =>
          rcases add_spec hState.holds hLaw t rqflags with
            ⟨r, _, _, _, _, hAdd, _⟩
          have hCall : rq.call
              (.add start endseq t rqflags) = some r.2 := by
            unfold call
            simp only
            rw [hAdd, Option.map_some]
          have hBack := hState.add_back hLaw hNot hCall
          have hOn := hGrows calls _ [] rq r.2 rfl hRun hCall
          omega

/-
  A receiver's in-sequence point never moves back and always
  is the first number not added exactly if every segment of
  the run ends at the point or behind it, or reaches the
  first block of the queue.
-/
theorem in_sequence_iff
    (rcvNxt : Int)
    (calls : List Call)
    (hLawful : Throughout call (fun rq c => c.Lawful rq)
      (new rcvNxt) calls) :
    (∃ rq,
      PartialRun.run call (new rcvNxt) calls = some rq) ∧
    ((∀ before c after rq rq',
      calls = before ++ c :: after →
      PartialRun.run call (new rcvNxt) before = some rq →
      rq.call c = some rq' →
      Advances rcvNxt before c rq rq') ↔
    Throughout call (fun rq c => c.Reaches rq) (new rcvNxt)
      calls) := by
  refine ⟨run_exists hLawful, ?_, ?_⟩
  · intro hAll
    apply throughout_reaches hLawful
    intro before c after rq rq' hEq hRun hCall
    exact (hAll before c after rq rq' hEq hRun hCall).1
  · intro hReaches before c after rq rq' hEq hRun hCall
    have hLaw := hLawful before c after rq hEq hRun
    have hReach := hReaches before c after rq hEq hRun
    rw [hEq] at hLawful hReaches
    rcases run_sequenced
        (PartialRun.throughout_append_left hLawful)
        (PartialRun.throughout_append_left hReaches) with
      ⟨rq₁, hRun₁, xs, ys, fs, covered, hState⟩
    rw [hRun] at hRun₁
    cases hRun₁
    rcases hState.call hLaw hReach with
      ⟨rq₂, xs', ys', fs', covered', hCall₂, hNext, hGe⟩
    rw [hCall] at hCall₂
    cases hCall₂
    exact ⟨hGe, hNext.least⟩

/- A hole, a segment that fills it, and clearing. -/
theorem in_sequence_iff_hole :
    ∃ rq, PartialRun.run call (new 0)
      [.add 5 9 0 0, .add 0 5 0 0, .clearto 9] = some rq :=
  (in_sequence_iff 0
    [.add 5 9 0 0, .add 0 5 0 0, .clearto 9]
    (PartialRun.throughout_of_check rfl)).1

/-
  After the numbers below 10 were added and cleared, a late
  duplicate of [2, 5) moves the point back to 5.
-/
theorem point_moves_back :
    Throughout call (fun rq c => c.Lawful rq) (new 0)
        [.add 0 10 0 0, .clearto 10, .add 2 5 0 0] ∧
    ∃ rq rq',
      PartialRun.run call (new 0)
        [.add 0 10 0 0, .clearto 10] = some rq ∧
      rq.call (.add 2 5 0 0) = some rq' ∧
      rq.rcvNxt = 10 ∧ rq'.rcvNxt = 5 := by
  refine ⟨PartialRun.throughout_of_check rfl, _, _, rfl, rfl,
    rfl, rfl⟩

end ReassemblyQueue

end Ns2
