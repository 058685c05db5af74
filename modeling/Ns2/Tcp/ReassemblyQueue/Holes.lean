import Mathlib.Order.Bounds.Basic
import Ns2.Tcp.ReassemblyQueue.Correctness

/-
  Holes of the reassembly queue.

  The search for a hole walks over the blocks from the lowest
  one on.  It ends at the first block that does not end before
  the number it starts from, and counts the blocks behind the
  hole.

  Main declarations:
    * `ReassemblyQueue.cnts`, `ReassemblyQueue.nexthole`
    * `ReassemblyQueue.Hole`
    * `ReassemblyQueue.nexthole_spec`
-/

------------------------------------------------------------
-- The Search
------------------------------------------------------------

namespace Ns2

namespace ReassemblyQueue

/- Count the blocks from `p` on, and their bytes. -/
def cnts
    (fuel : Nat)
    (rq : ReassemblyQueue)
    (p : Option Nat)
    (blks bytes : Int) : Option (Int × Int) :=
  match fuel with
  | 0 => none
  | fuel + 1 =>
      match p with
      | none => some (blks, bytes)
      | some x =>
          cnts fuel rq (rq.fifo.next x) (blks + 1)
            (bytes + ((rq.seg x).endseq - (rq.seg x).startseq))

/- What a search returns: both counts are -1 without blocks. -/
structure NextHole where
  seq : Int
  nxtcnt : Int
  nxtbytes : Int
deriving DecidableEq, Repr

/- The hole `seq` in front of the block `p`. -/
def holeBefore
    (rq : ReassemblyQueue)
    (seq : Int)
    (p : Nat) : Option NextHole :=
  (cnts rq.fuel rq (some p) 0 0).map fun c => ⟨seq, c.1, c.2⟩

def holeFrom
    (seq : Int)
    (fuel : Nat)
    (rq : ReassemblyQueue)
    (p : Option Nat) : Option NextHole :=
  match fuel with
  | 0 => none
  | fuel + 1 =>
      match p with
      | none => some ⟨-1, -1, -1⟩
      | some x =>
          let sx := rq.seg x
          if seq < sx.startseq then rq.holeBefore seq x
          else if sx.startseq ≤ seq ∧ seq ≤ sx.endseq then
            match rq.fifo.next x with
            | none => some ⟨sx.endseq, -1, -1⟩
            | some y => rq.holeBefore sx.endseq y
          else holeFrom seq fuel rq (rq.fifo.next x)

/- The next hole from `seq` on; the hint is set to the head. -/
def nexthole
    (rq : ReassemblyQueue)
    (seq : Int) : Option (NextHole × ReassemblyQueue) :=
  let rq := { rq with hint := rq.fifo.first }
  (holeFrom seq rq.fuel rq rq.hint).map fun r => (r, rq)

/- A number in no block and in front of one. -/
def Hole
    (rq : ReassemblyQueue)
    (n : Int) : Prop :=
  (∀ x ∈ rq.order,
    ¬ ((rq.seg x).startseq ≤ n ∧ n < (rq.seg x).endseq)) ∧
  ∃ x ∈ rq.order, n < (rq.seg x).startseq

instance
    (rq : ReassemblyQueue)
    (n : Int) : Decidable (rq.Hole n) :=
  inferInstanceAs (Decidable (_ ∧ _))

end ReassemblyQueue

end Ns2

------------------------------------------------------------
-- What the Search Finds
------------------------------------------------------------

namespace Ns2

namespace ReassemblyQueue

open IntervalList LinkedList

variable {rq : ReassemblyQueue}
variable {xs ys fs : List Nat} {x fuel : Nat}
variable {covered : Finset Int} {p : Option Nat}
variable {seq blks bytes : Int}

theorem cnts_spec
    (hSeg : Seg rq.fifo.next p xs none)
    (hFuel : xs.length < fuel) :
    cnts fuel rq p blks bytes =
      some (blks + xs.length,
        bytes + IntervalList.total (rq.blocks xs)) := by
  induction xs generalizing p fuel blks bytes with
  | nil =>
      cases hSeg
      cases fuel with
      | zero => cases hFuel
      | succ fuel => simp [cnts]
  | cons x xs ih =>
      rcases hSeg with ⟨rfl, hRest⟩
      cases fuel with
      | zero => cases hFuel
      | succ fuel =>
          unfold cnts
          simp only
          rw [ih hRest (by simpa using hFuel), blocks_cons,
            total_cons, List.length_cons]
          simp only [interval]
          push_cast
          congr 2 <;> omega

/-
  The search found the first hole from `seq` on of the
  numbers `s`, or has not counted a block where there is no
  hole.
-/
def Finds
    (s : Finset Int)
    (seq : Int)
    (r : NextHole) : Prop :=
  (0 < r.nxtcnt ∧
    IsLeast {n | seq ≤ n ∧ n ∉ s ∧ ∃ k ∈ s, n < k} r.seq) ∨
  (r.nxtcnt ≤ 0 ∧ ∀ n, seq ≤ n → n ∉ s → ∀ k ∈ s, k ≤ n)

variable {b c : Int × Int} {bs : List (Int × Int)}
variable {r : NextHole}

/- The numbers behind the first block start after its end. -/
theorem lt_of_mem_tail
    {n : Int}
    (hNormal : Normal (b :: bs))
    (hn : n ∈ cover bs) :
    b.2 < n := by
  rcases mem_cover.mp hn with ⟨c, hc, hLow, _⟩
  exact ((normal_cons.mp hNormal).2.2 c hc).trans_le hLow

/- The search starts in front of all blocks. -/
theorem finds_front
    (hNormal : Normal (b :: bs))
    (hLt : seq < b.1)
    (hSeq : r.seq = seq)
    (hCnt : 0 < r.nxtcnt) :
    Finds (cover (b :: bs)) seq r := by
  have hPos := (normal_cons.mp hNormal).1
  refine Or.inl ⟨hCnt, ?_⟩
  rw [hSeq]
  refine ⟨⟨le_rfl, ?_, b.1, ?_, hLt⟩, fun n hn => hn.1⟩
  · rw [mem_cover_cons]
    rintro (⟨hLow, _⟩ | hIn)
    · omega
    · have hFar := lt_of_mem_tail hNormal hIn
      omega
  · rw [mem_cover_cons]
    exact Or.inl ⟨le_rfl, hPos⟩

/- What is not held from `seq` on is behind its block. -/
theorem end_le_of_not_mem
    {n : Int}
    (hLow : b.1 ≤ seq)
    (hn : seq ≤ n)
    (hNot : n ∉ cover (b :: bs)) :
    b.2 ≤ n := by
  by_contra hLt
  apply hNot
  rw [mem_cover_cons]
  exact Or.inl ⟨hLow.trans hn, not_le.mp hLt⟩

/- The search starts in a block, and there is a next one. -/
theorem finds_end
    (hNormal : Normal (b :: c :: bs))
    (hLow : b.1 ≤ seq)
    (hHigh : seq ≤ b.2)
    (hSeq : r.seq = b.2)
    (hCnt : 0 < r.nxtcnt) :
    Finds (cover (b :: c :: bs)) seq r := by
  have hRest := (normal_cons.mp hNormal).2
  have hPos := (normal_cons.mp hRest.1).1
  have hGap := hRest.2 c List.mem_cons_self
  refine Or.inl ⟨hCnt, ?_⟩
  rw [hSeq]
  refine ⟨⟨hHigh, ?_, c.1, ?_, hGap⟩, ?_⟩
  · rw [mem_cover_cons]
    rintro (⟨_, hLt⟩ | hIn)
    · exact lt_irrefl _ hLt
    · exact lt_irrefl _ (lt_of_mem_tail hNormal hIn)
  · rw [mem_cover_cons, mem_cover_cons]
    exact Or.inr (Or.inl ⟨le_rfl, hPos⟩)
  · rintro n ⟨hn, hNot, _⟩
    exact end_le_of_not_mem hLow hn hNot

/- The search starts in the last block. -/
theorem finds_last
    (hLow : b.1 ≤ seq)
    (hCnt : r.nxtcnt ≤ 0) :
    Finds (cover [b]) seq r := by
  refine Or.inr ⟨hCnt, ?_⟩
  intro n hn hNot k hk
  have hLe := end_le_of_not_mem hLow hn hNot
  rw [mem_cover_cons] at hk
  rcases hk with ⟨_, hLt⟩ | hk
  · omega
  · cases hk

/- A block that ends before the search starts is passed. -/
theorem finds_skip
    (hPast : b.2 < seq)
    (hFinds : Finds (cover bs) seq r) :
    Finds (cover (b :: bs)) seq r := by
  have hSame : ∀ n, seq ≤ n →
      (n ∈ cover (b :: bs) ↔ n ∈ cover bs) := by
    intro n hn
    rw [mem_cover_cons]
    exact or_iff_right (by omega)
  rcases hFinds with
    ⟨hCnt, ⟨hSeq, hOut, k, hk, hLt⟩, hLow⟩ | ⟨hCnt, hNone⟩
  · refine Or.inl ⟨hCnt, ⟨hSeq, ?_, k, ?_, hLt⟩, ?_⟩
    · rw [hSame _ hSeq]
      exact hOut
    · rw [hSame k (by omega)]
      exact hk
    · rintro n ⟨hn, hNot, m, hm, hAbove⟩
      rw [hSame n hn] at hNot
      rw [hSame m (by omega)] at hm
      exact hLow ⟨hn, hNot, m, hm, hAbove⟩
  · refine Or.inr ⟨hCnt, ?_⟩
    intro n hn hNot k hk
    by_contra hLt
    rw [hSame n hn] at hNot
    rw [hSame k (by omega)] at hk
    exact hLt (hNone n hn hNot k hk)

/- A hole in front of the block `x` has blocks behind it. -/
theorem holeBefore_spec
    (hSeg : Seg rq.fifo.next (some x) (x :: xs) none)
    (hFuel : (x :: xs).length < rq.fuel)
    (n : Int) :
    ∃ r, rq.holeBefore n x = some r ∧ r.seq = n ∧
      0 < r.nxtcnt := by
  unfold holeBefore
  rw [cnts_spec hSeg hFuel, Option.map_some]
  refine ⟨_, rfl, rfl, ?_⟩
  rw [List.length_cons]
  push_cast
  omega

theorem holeFrom_spec
    (hSeg : Seg rq.fifo.next p xs none)
    (hNormal : Normal (rq.blocks xs))
    (hFuel : xs.length < fuel)
    (hEnough : xs.length < rq.fuel) :
    ∃ r, holeFrom seq fuel rq p = some r ∧
      Finds (cover (rq.blocks xs)) seq r := by
  induction xs generalizing p fuel with
  | nil =>
      cases hSeg
      cases fuel with
      | zero => cases hFuel
      | succ fuel =>
          refine ⟨_, rfl, Or.inr ⟨neg_one_lt_zero.le, ?_⟩⟩
          intro n _ _ k hk
          cases hk
  | cons x xs ih =>
      have hHere := hSeg
      rcases hSeg with ⟨rfl, hRest⟩
      rw [List.length_cons] at hFuel hEnough
      cases fuel with
      | zero => cases hFuel
      | succ fuel =>
          unfold holeFrom
          simp only
          by_cases hFront : seq < (rq.seg x).startseq
          · rw [if_pos hFront]
            rcases holeBefore_spec hHere hEnough seq with
              ⟨r, hr, hSeq, hCnt⟩
            exact ⟨r, hr, finds_front hNormal hFront hSeq hCnt⟩
          · rw [if_neg hFront]
            by_cases hMeet : (rq.seg x).startseq ≤ seq ∧
                seq ≤ (rq.seg x).endseq
            · rw [if_pos hMeet]
              rcases xs with _ | ⟨y, xs⟩
              · rw [show rq.fifo.next x = none from hRest]
                exact ⟨_, rfl,
                  finds_last hMeet.1 neg_one_lt_zero.le⟩
              · have hNext := hRest.1
                rw [hNext] at hRest ⊢
                simp only
                rcases holeBefore_spec hRest (by omega)
                    (rq.seg x).endseq with ⟨r, hr, hSeq, hCnt⟩
                exact ⟨r, hr, finds_end hNormal hMeet.1 hMeet.2
                  hSeq hCnt⟩
            · rw [if_neg hMeet]
              rcases ih hRest (normal_cons.mp hNormal).2.1
                  (Nat.lt_of_succ_lt_succ hFuel) (by omega) with
                ⟨r, hr, hFinds⟩
              refine ⟨r, hr, finds_skip ?_ hFinds⟩
              change (rq.seg x).endseq < seq
              omega

theorem nexthole_spec
    (hHolds : Holds rq xs ys fs covered)
    (seq : Int) :
    ∃ r, rq.nexthole seq =
        some (r, { rq with hint := rq.fifo.first }) ∧
      Finds covered seq r := by
  have hFuel := hHolds.shape.length_lt_fuel
  rcases @holeFrom_spec { rq with hint := rq.fifo.first } xs
      rq.fuel rq.fifo.first seq hHolds.shape.fifo.forward
      hHolds.normal hFuel hFuel with ⟨r, hr, hFinds⟩
  refine ⟨r, ?_, ?_⟩
  · unfold nexthole
    simp only
    rw [show ReassemblyQueue.fuel
        { rq with hint := rq.fifo.first } = rq.fuel from rfl,
      hr, Option.map_some]
  · rw [← hHolds.cover_eq]
    exact hFinds

/- The hint does not matter. -/
theorem Holds.set_hint
    (hHolds : Holds rq xs ys fs covered)
    (hint : Option Nat) :
    Holds { rq with hint := hint } xs ys fs covered :=
  ⟨hHolds.shape.congr rfl rfl rfl rfl, hHolds.normal,
    hHolds.total_eq, hHolds.cover_eq⟩

theorem Holds.hole_iff
    (hHolds : Holds rq xs ys fs covered)
    (n : Int) :
    rq.Hole n ↔ n ∉ covered ∧ ∃ k ∈ covered, n < k := by
  unfold Hole
  rw [hHolds.shape.order_eq, hHolds.mem_iff]
  constructor
  · rintro ⟨hOut, x, hx, hLt⟩
    refine ⟨?_, (rq.interval x).1, ?_, hLt⟩
    · rintro ⟨z, hz, hIn⟩
      exact hOut z hz hIn
    · exact hHolds.mem hx le_rfl (normal_pos hHolds.normal hx)
  · rintro ⟨hOut, k, hk, hLt⟩
    rcases (hHolds.mem_iff k).mp hk with ⟨x, hx, hLow, hHigh⟩
    refine ⟨?_, x, hx, ?_⟩
    · intro z hz hIn
      exact hOut ⟨z, hz, hIn⟩
    · by_contra hGe
      exact hOut ⟨x, hx, not_lt.mp hGe, by omega⟩

end ReassemblyQueue

end Ns2
