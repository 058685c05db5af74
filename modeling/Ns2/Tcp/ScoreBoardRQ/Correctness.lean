import Ns2.Tcp.ScoreBoardRQ.Operations

/-
  What the scoreboard chooses to send again.

  The search starts from `h_seqno` or from `sack_min`, the
  larger one.  All numbers above the last ACK that are behind
  that start are reported or marked, and so what the search
  finds is right where it is above the last ACK.  A block
  below `sack_min` moves it back, and 0 is never returned.

  Main declarations:
    * `ScoreBoardRQ.Candidate`, `ScoreBoardRQ.Right`
    * `ScoreBoardRQ.Noted`
    * `ScoreBoardRQ.next_retran_iff`
-/

------------------------------------------------------------
-- What a Sender Knows
------------------------------------------------------------

namespace Ns2

namespace ScoreBoardRQ

/- The cumulative ACKs of the calls. -/
def acks (calls : List Call) : List Int :=
  calls.filterMap fun
    | .updateScoreBoard last_ack _ => some last_ack
    | _ => none

def lastAck (calls : List Call) : Int :=
  (acks calls).getLast?.getD (-1)

/- The blocks that the calls report. -/
def reported (calls : List Call) : List (Int × Int) :=
  calls.flatMap fun
    | .updateScoreBoard _ blocks => blocks
    | _ => []

/- The numbers that the calls mark. -/
def marks (calls : List Call) : List Int :=
  calls.filterMap fun
    | .markRetran retran_seqno => some retran_seqno
    | _ => none

/- Some block reported holds the number. -/
def Sacked (calls : List Call) (n : Int) : Prop :=
  ∃ b ∈ reported calls, b.1 ≤ n ∧ n < b.2

/-
  A number above the last ACK that no block holds, not below
  the mark and below a number that some block holds.
-/
def Candidate (calls : List Call) (n : Int) : Prop :=
  lastAck calls < n ∧ ¬ Sacked calls n ∧
    (∀ k ∈ marks calls, k < n) ∧ ∃ k, n < k ∧ Sacked calls k

/- The least candidate, or -1 where there is none. -/
def Right (calls : List Call) (seq : Int) : Prop :=
  IsLeast {n | Candidate calls n} seq ∨
    seq = -1 ∧ ∀ n, ¬ Candidate calls n

/- ACKs do not go down, and no block is empty. -/
structure Lawful (calls : List Call) : Prop where
  rising : (acks calls).Pairwise (· ≤ ·)
  low : ∀ a ∈ acks calls, -1 ≤ a
  filled : ∀ b ∈ reported calls, b.1 < b.2

/- A hole of the queue from the start of the search on. -/
def Open
    (sb : ScoreBoardRQ)
    (n : Int) : Prop :=
  max sb.h_seqno sb.sack_min ≤ n ∧ sb.rq.Hole n

/-
  No hole up to the last ACK or up to 0 is in the way; one
  that is not positive does no harm without a candidate.
-/
def Unblocked
    (calls : List Call)
    (sb : ScoreBoardRQ) : Prop :=
  (∀ n, n ≤ max (lastAck calls) 0 → ¬ sb.Open n) ∨
    (∃ n, n ≤ 0 ∧ sb.Open n) ∧ ∀ n, ¬ Candidate calls n

end ScoreBoardRQ

end Ns2

------------------------------------------------------------
-- The Queue of the Scoreboard
------------------------------------------------------------

namespace Ns2

namespace ScoreBoardRQ

open IntervalList ReassemblyQueue

variable {rq : ReassemblyQueue}
variable {sb : ScoreBoardRQ}
variable {xs ys fs : List Nat}
variable {covered : Finset Int}
variable {last_ack : Int} {S : Int → Prop}

/-
  Above the last ACK, the queue holds the numbers of `S`, and
  the numbers below its in-sequence point are in `S`.
-/
structure Tracks
    (rq : ReassemblyQueue)
    (xs ys fs : List Nat)
    (covered : Finset Int)
    (last_ack : Int)
    (S : Int → Prop) : Prop where
  holds : Holds rq xs ys fs covered
  held : ∀ n, last_ack < n → (n ∈ covered ↔ S n)
  floor : ∀ n, last_ack < n → n < rq.rcvNxt → S n

theorem Tracks.add
    {start endseq : Int}
    (hTracks : Tracks rq xs ys fs covered last_ack S)
    (hLt : start < endseq) :
    ∃ r xs' ys' fs' covered',
      rq.add start endseq 0 0 = some r ∧
      Tracks r.2 xs' ys' fs' covered' last_ack
        fun n => S n ∨ start ≤ n ∧ n < endseq := by
  rcases add_spec hTracks.holds hLt 0 0 with
    ⟨r, xs', ys', fs', x, hAdd, hDone, hLanded⟩
  have hHeld : ∀ n, last_ack < n →
      (n ∈ covered ∪ values start endseq ↔
        S n ∨ start ≤ n ∧ n < endseq) := by
    intro n hn
    rw [Finset.mem_union, mem_values, hTracks.held n hn]
  refine ⟨r, xs', ys', fs', _, hAdd, hDone, hHeld, ?_⟩
  intro n hn hBelow
  rcases hLanded.point with ⟨hSame, _⟩ | ⟨z, hz, _, hPoint⟩
  · rw [hSame] at hBelow
    exact Or.inl (hTracks.floor n hn hBelow)
  · rw [hPoint] at hBelow
    split at hBelow
    case isFalse => exact Or.inl (hTracks.floor n hn hBelow)
    case isTrue hStart =>
      -- What is below the new point is in its block or was
      -- below the old point.
      by_cases hOld : n < rq.rcvNxt
      · exact Or.inl (hTracks.floor n hn hOld)
      · rw [← hHeld n hn]
        exact hDone.mem hz (by omega) hBelow

theorem Tracks.addBlocks
    {blocks : List (Int × Int)}
    (hTracks : Tracks rq xs ys fs covered last_ack S)
    (hFilled : ∀ b ∈ blocks, b.1 < b.2) :
    ∃ rq' xs' ys' fs' covered',
      addBlocks rq blocks = some rq' ∧
      Tracks rq' xs' ys' fs' covered' last_ack
        fun n => S n ∨ ∃ b ∈ blocks, b.1 ≤ n ∧ n < b.2 := by
  induction blocks generalizing rq xs ys fs covered S with
  | nil =>
      refine ⟨rq, xs, ys, fs, covered, rfl, ?_⟩
      simpa using hTracks
  | cons b blocks ih =>
      rcases hTracks.add (hFilled b List.mem_cons_self) with
        ⟨r, xs', ys', fs', covered', hAdd, hNext⟩
      rcases ih hNext fun c hc =>
          hFilled c (List.mem_cons_of_mem b hc) with
        ⟨rq', xs₁, ys₁, fs₁, covered₁, hRest, hDone⟩
      refine ⟨rq', xs₁, ys₁, fs₁, covered₁, ?_, ?_⟩
      · unfold ScoreBoardRQ.addBlocks
        rw [hAdd]
        exact hRest
      · simpa [or_assoc] using hDone

theorem Tracks.acknowledge
    {later : Int}
    (hTracks : Tracks sb.rq xs ys fs covered last_ack S)
    (hLater : last_ack ≤ later) :
    ∃ sb' xs' ys' fs' covered',
      sb.acknowledge later = some sb' ∧
      sb'.h_seqno = sb.h_seqno ∧
      Tracks sb'.rq xs' ys' fs' covered' later S := by
  unfold ScoreBoardRQ.acknowledge
  by_cases hMoves : sb.sack_min ≤ later
  · rw [if_pos hMoves]
    simp only
    have hHolds : Holds { sb.rq with rcvNxt := later + 1 } xs ys
        fs covered :=
      ⟨hTracks.holds.shape.congr rfl rfl rfl rfl,
        hTracks.holds.normal, hTracks.holds.total_eq,
        hTracks.holds.cover_eq⟩
    split
    · refine ⟨_, xs, ys, fs, covered, rfl, rfl, hHolds, ?_, ?_⟩
      · intro n hn
        exact hTracks.held n (hLater.trans_lt hn)
      · intro n hn hBelow
        simp only at hBelow
        omega
    · rcases clearto_spec hHolds (later + 1) with
        ⟨r, xs', ys', fs', hClear, hDone, hCleared⟩
      unfold cleartonxt
      simp only
      rw [hClear, Option.map_some]
      refine ⟨_, xs', ys', fs', _, rfl, rfl, hDone, ?_, ?_⟩
      · intro n hn
        rw [Finset.mem_filter,
          hTracks.held n (hLater.trans_lt hn)]
        exact and_iff_left hn
      · intro n hn hBelow
        rw [hCleared.point] at hBelow
        simp only at hBelow
        omega
  · rw [if_neg hMoves]
    refine ⟨sb, xs, ys, fs, covered, rfl, rfl, hTracks.holds,
      ?_, ?_⟩
    · intro n hn
      exact hTracks.held n (hLater.trans_lt hn)
    · intro n hn
      exact hTracks.floor n (hLater.trans_lt hn)

end ScoreBoardRQ

end Ns2

------------------------------------------------------------
-- The History of the Calls
------------------------------------------------------------

namespace Ns2

namespace ScoreBoardRQ

variable {calls : List Call}
variable {last_ack retran_seqno n : Int}
variable {blocks : List (Int × Int)}

@[simp]
theorem lastAck_update :
    lastAck (calls ++ [.updateScoreBoard last_ack blocks]) =
      last_ack := by
  simp [lastAck, acks]

@[simp]
theorem lastAck_mark :
    lastAck (calls ++ [.markRetran retran_seqno]) =
      lastAck calls := by
  simp [lastAck, acks]

@[simp]
theorem lastAck_getNextRetran :
    lastAck (calls ++ [.getNextRetran]) = lastAck calls := by
  simp [lastAck, acks]

@[simp]
theorem sacked_update :
    Sacked (calls ++ [.updateScoreBoard last_ack blocks]) n ↔
      Sacked calls n ∨ ∃ b ∈ blocks, b.1 ≤ n ∧ n < b.2 := by
  simp [Sacked, reported, or_and_right, exists_or]

@[simp]
theorem sacked_mark :
    Sacked (calls ++ [.markRetran retran_seqno]) n ↔
      Sacked calls n := by
  simp [Sacked, reported]

@[simp]
theorem sacked_getNextRetran :
    Sacked (calls ++ [.getNextRetran]) n ↔
      Sacked calls n := by
  simp [Sacked, reported]

@[simp]
theorem marks_update :
    marks (calls ++ [.updateScoreBoard last_ack blocks]) =
      marks calls := by
  simp [marks]

@[simp]
theorem marks_mark :
    marks (calls ++ [.markRetran retran_seqno]) =
      marks calls ++ [retran_seqno] := by
  simp [marks]

@[simp]
theorem marks_getNextRetran :
    marks (calls ++ [.getNextRetran]) = marks calls := by
  simp [marks]

/- No ACK is below the last one before it. -/
theorem Lawful.lastAck_le
    {after : List Call}
    (hLawful : Lawful
      (calls ++ .updateScoreBoard last_ack blocks :: after)) :
    lastAck calls ≤ last_ack := by
  have hRising := hLawful.rising
  have hLow := hLawful.low last_ack (by simp [acks])
  unfold acks at hRising
  rw [List.filterMap_append, List.pairwise_append] at hRising
  unfold lastAck acks
  cases hLast : (calls.filterMap _).getLast? with
  | none => exact hLow
  | some a =>
      apply hRising.2.2 a (List.mem_of_getLast? hLast)
      simp

theorem Lawful.lastAck_ge
    {after : List Call}
    (hLawful : Lawful (calls ++ after)) :
    -1 ≤ lastAck calls := by
  unfold lastAck
  cases hLast : (acks calls).getLast? with
  | none => exact le_rfl
  | some a =>
      apply hLawful.low a
      unfold acks
      rw [List.filterMap_append]
      exact List.mem_append_left _ (List.mem_of_getLast? hLast)

end ScoreBoardRQ

end Ns2

------------------------------------------------------------
-- One Call
------------------------------------------------------------

namespace Ns2

namespace ScoreBoardRQ

open ReassemblyQueue

variable {sb : ScoreBoardRQ}
variable {calls : List Call}
variable {xs ys fs : List Nat}
variable {covered : Finset Int}
variable {last_ack retran_seqno seq : Int}
variable {blocks : List (Int × Int)}

/-
  The marks are below `h_seqno`, and above the last ACK what
  is below `h_seqno` is reported or not above all marks.
-/
structure Noted
    (calls : List Call)
    (sb : ScoreBoardRQ)
    (xs ys fs : List Nat)
    (covered : Finset Int) : Prop where
  tracks : Tracks sb.rq xs ys fs covered (lastAck calls)
    (Sacked calls)
  below : ∀ k ∈ marks calls, k < sb.h_seqno
  above : ∀ n, lastAck calls < n → n < sb.h_seqno →
    Sacked calls n ∨ ∃ k ∈ marks calls, n ≤ k

theorem noted_new : Noted [] new [] [] [] ∅ := by
  refine ⟨⟨holds_new (-1), ?_, ?_⟩, ?_, ?_⟩
  · simp [Sacked, reported]
  · intro n hLow hHigh
    exact absurd hLow hHigh.le.not_gt
  · simp [marks]
  · intro n hLow hHigh
    exact absurd hLow hHigh.le.not_gt

theorem Noted.updateScoreBoard
    (hNoted : Noted calls sb xs ys fs covered)
    (hLater : lastAck calls ≤ last_ack)
    (hFilled : ∀ b ∈ blocks, b.1 < b.2) :
    ∃ sb' xs' ys' fs' covered',
      sb.updateScoreBoard last_ack blocks = some sb' ∧
      Noted (calls ++ [.updateScoreBoard last_ack blocks]) sb'
        xs' ys' fs' covered' := by
  rcases @Tracks.acknowledge { sb with changed := false } _ _ _
      _ _ _ _ hNoted.tracks hLater with
    ⟨sb₁, xs₁, ys₁, fs₁, covered₁, hAck, hSeqno, hFirst⟩
  rcases hFirst.addBlocks hFilled with
    ⟨rq', xs', ys', fs', covered', hAdd, hDone⟩
  have hCall : sb.updateScoreBoard last_ack blocks = some
      { sb₁ with
        rq := rq'
        changed := sb₁.changed ||
          decide (sb.rq.total ≠ rq'.total) } := by
    unfold ScoreBoardRQ.updateScoreBoard
    simp only
    rw [hAck, Option.bind_some, hAdd, Option.map_some]
  refine ⟨_, xs', ys', fs', covered', hCall, ?_⟩
  constructor
  case tracks =>
    rw [lastAck_update]
    refine ⟨hDone.holds, ?_, ?_⟩
    · intro n hn
      rw [sacked_update]
      exact hDone.held n hn
    · intro n hn hBelow
      rw [sacked_update]
      exact hDone.floor n hn hBelow
  case below =>
    rw [marks_update]
    change ∀ k ∈ marks calls, k < sb₁.h_seqno
    rw [hSeqno]
    exact hNoted.below
  case above =>
    intro n hn hBelow
    rw [lastAck_update] at hn
    change n < sb₁.h_seqno at hBelow
    rw [hSeqno] at hBelow
    rw [sacked_update, marks_update]
    rcases hNoted.above n (hLater.trans_lt hn) hBelow with
      hIn | hMark
    · exact Or.inl (Or.inl hIn)
    · exact Or.inr hMark

theorem Noted.markRetran
    (hNoted : Noted calls sb xs ys fs covered) :
    Noted (calls ++ [.markRetran retran_seqno])
      (sb.markRetran retran_seqno) xs ys fs covered := by
  have hQueue : (sb.markRetran retran_seqno).rq = sb.rq := by
    unfold ScoreBoardRQ.markRetran
    split <;> rfl
  have hMark : (sb.markRetran retran_seqno).h_seqno =
      max sb.h_seqno (retran_seqno + 1) := by
    unfold ScoreBoardRQ.markRetran
    split
    case isTrue h => rw [max_eq_right (by omega)]
    case isFalse h => rw [max_eq_left (by omega)]
  constructor
  case tracks =>
    rw [hQueue, lastAck_mark]
    refine ⟨hNoted.tracks.holds, ?_, ?_⟩
    · simpa using hNoted.tracks.held
    · simpa using hNoted.tracks.floor
  case below =>
    intro k hk
    rw [marks_mark, List.mem_append, List.mem_singleton] at hk
    rw [hMark]
    rcases hk with hOld | rfl
    · have hLt := hNoted.below k hOld
      omega
    · omega
  case above =>
    intro n hn hBelow
    rw [lastAck_mark] at hn
    rw [sacked_mark, marks_mark]
    by_cases hOld : n < sb.h_seqno
    · rcases hNoted.above n hn hOld with hIn | ⟨k, hk, hLe⟩
      · exact Or.inl hIn
      · exact Or.inr ⟨k, List.mem_append_left _ hk, hLe⟩
    · refine Or.inr ⟨retran_seqno, by simp, ?_⟩
      omega

/-
  The answer is the first hole from the start of the search
  on, if there is one and it is positive.
-/
def Answers
    (sb : ScoreBoardRQ)
    (seq : Int) : Prop :=
  (∃ n, IsLeast {n | sb.Open n} n ∧
    seq = if 0 < n then n else -1) ∨
  seq = -1 ∧ ∀ n, ¬ sb.Open n

/- The search starts at the mark or at the floor. -/
theorem getNextRetran_eq :
    sb.getNextRetran =
      (sb.rq.nexthole (max sb.h_seqno sb.sack_min)).map
        fun r =>
          if 0 < r.1.seq ∧ 0 < r.1.nxtcnt then
            (r.1.seq,
              { sb with
                h_seqno := max (max sb.h_seqno sb.sack_min)
                  r.1.seq
                rq := r.2 })
          else
            (-1,
              { sb with
                h_seqno := max sb.h_seqno sb.sack_min
                rq := r.2 }) := by
  unfold ScoreBoardRQ.getNextRetran
  have hStart : (if sb.h_seqno < sb.sack_min then
      { sb with h_seqno := sb.sack_min } else sb) =
      { sb with h_seqno := max sb.h_seqno sb.sack_min } := by
    split
    case isTrue h => rw [max_eq_right h.le]
    case isFalse h => rw [max_eq_left (not_lt.mp h)]
  rw [hStart]
  simp only
  congr 1
  funext r
  by_cases hPos : 0 < r.1.seq
  · by_cases hCnt : 0 < r.1.nxtcnt
    · rw [if_pos hPos, if_neg (not_le.mpr hCnt),
        if_pos (And.intro hPos hCnt)]
      by_cases hLt : max sb.h_seqno sb.sack_min < r.1.seq
      · rw [if_pos hLt, max_eq_right hLt.le]
      · rw [if_neg hLt, max_eq_left (not_lt.mp hLt)]
    · rw [if_pos hPos, if_pos (not_lt.mp hCnt),
        if_neg (fun h => hCnt h.2)]
  · rw [if_neg hPos, if_neg (fun h => hPos h.1)]

theorem Noted.open_iff
    {n : Int}
    (hNoted : Noted calls sb xs ys fs covered) :
    sb.Open n ↔ max sb.h_seqno sb.sack_min ≤ n ∧
      n ∉ covered ∧ ∃ k ∈ covered, n < k := by
  unfold Open
  rw [hNoted.tracks.holds.hole_iff]

/- The search moves the mark over numbers that are held. -/
theorem Noted.search
    {start : Int}
    (hNoted : Noted calls sb xs ys fs covered)
    (hint : Option Nat)
    (hStart : max sb.h_seqno sb.sack_min ≤ start)
    (hHeld : ∀ n, max sb.h_seqno sb.sack_min ≤ n →
      n < start → n ∈ covered) :
    Noted (calls ++ [.getNextRetran])
      { sb with
        h_seqno := start
        rq := { sb.rq with hint := hint } } xs ys fs
      covered := by
  constructor
  case tracks =>
    rw [lastAck_getNextRetran]
    refine ⟨hNoted.tracks.holds.set_hint hint, ?_, ?_⟩
    · simpa using hNoted.tracks.held
    · simpa using hNoted.tracks.floor
  case below =>
    rw [marks_getNextRetran]
    intro k hk
    have hLt := hNoted.below k hk
    simp only
    omega
  case above =>
    intro n hn hBelow
    simp only at hBelow
    rw [lastAck_getNextRetran] at hn
    rw [sacked_getNextRetran, marks_getNextRetran]
    by_cases hMark : n < sb.h_seqno
    · exact hNoted.above n hn hMark
    · left
      by_cases hFloor : n < sb.sack_min
      · exact hNoted.tracks.floor n hn hFloor
      · rw [← hNoted.tracks.held n hn]
        exact hHeld n (by omega) hBelow

theorem Noted.getNextRetran
    (hNoted : Noted calls sb xs ys fs covered) :
    ∃ r, sb.getNextRetran = some r ∧ Answers sb r.1 ∧
      Noted (calls ++ [.getNextRetran]) r.2 xs ys fs
        covered := by
  rcases nexthole_spec hNoted.tracks.holds
      (max sb.h_seqno sb.sack_min) with ⟨r, hr, hFinds⟩
  rw [getNextRetran_eq, hr, Option.map_some]
  refine ⟨_, rfl, ?_, ?_⟩
  · simp only
    rcases hFinds with ⟨hCnt, hLeast⟩ | ⟨hCnt, hNone⟩
    · left
      refine ⟨r.seq, ?_, ?_⟩
      · simpa [hNoted.open_iff] using hLeast
      · simp only [hCnt, and_true]
        split <;> rfl
    · right
      refine ⟨?_, ?_⟩
      · rw [if_neg (fun h => hCnt.not_gt h.2)]
      · intro n hOpen
        rcases hNoted.open_iff.mp hOpen with
          ⟨hn, hOut, k, hk, hLt⟩
        exact (hNone n hn hOut k hk).not_gt hLt
  · simp only
    split
    case isFalse =>
      apply hNoted.search _ le_rfl
      intro n hLow hHigh
      exact absurd hHigh hLow.not_gt
    case isTrue hFound =>
      rcases hFinds with ⟨_, hLeast⟩ | ⟨hCnt, _⟩
      · apply hNoted.search _ (le_max_left _ _)
        intro n hLow hHigh
        have hLt := (lt_max_iff.mp hHigh).resolve_left
          hLow.not_gt
        -- A number not held is a hole before the first one.
        by_contra hOut
        rcases hLeast.1 with ⟨_, _, k, hk, hBehind⟩
        have hLe := hLeast.2
          ⟨hLow, hOut, k, hk, hLt.trans hBehind⟩
        exact hLe.not_gt hLt
      · exact absurd hFound.2 hCnt.not_gt

end ScoreBoardRQ

end Ns2

------------------------------------------------------------
-- The Choice
------------------------------------------------------------

namespace Ns2

namespace ScoreBoardRQ

open PartialRun (Throughout)

variable {sb : ScoreBoardRQ}
variable {calls : List Call}
variable {xs ys fs : List Nat}
variable {covered : Finset Int}
variable {seq n : Int}

/- A candidate is a hole above the last ACK. -/
theorem Noted.candidate_iff
    (hNoted : Noted calls sb xs ys fs covered) :
    Candidate calls n ↔ lastAck calls < n ∧ sb.Open n := by
  unfold Candidate
  rw [hNoted.open_iff]
  have hTracks := hNoted.tracks
  constructor
  · rintro ⟨hn, hNot, hMarks, k, hk, hIn⟩
    refine ⟨hn, ?_, ?_, k, ?_, hk⟩
    · rw [max_le_iff]
      constructor
      · by_contra hLt
        rcases hNoted.above n hn (not_le.mp hLt) with
          hSacked | ⟨m, hm, hLe⟩
        · exact hNot hSacked
        · exact (hMarks m hm).not_ge hLe
      · by_contra hLt
        exact hNot (hTracks.floor n hn (not_le.mp hLt))
    · rw [hTracks.held n hn]
      exact hNot
    · rw [hTracks.held k (hn.trans hk)]
      exact hIn
  · rintro ⟨hn, hStart, hOut, k, hk, hLt⟩
    rw [hTracks.held n hn] at hOut
    rw [hTracks.held k (hn.trans hLt)] at hk
    refine ⟨hn, hOut, ?_, k, hLt, hk⟩
    intro m hm
    exact (hNoted.below m hm).trans_le
      ((le_max_left _ _).trans hStart)

/- An answer is right exactly if nothing is in its way. -/
theorem Noted.right_iff
    (hNoted : Noted calls sb xs ys fs covered)
    (hGe : -1 ≤ lastAck calls)
    (hAnswer : Answers sb seq) :
    Right calls seq ↔ Unblocked calls sb := by
  unfold Right Unblocked
  rcases hAnswer with ⟨m, hLeast, hSeq⟩ | ⟨hSeq, hNone⟩
  · by_cases hPos : 0 < m
    · rw [if_pos hPos] at hSeq
      subst hSeq
      constructor
      · rintro (hRight | ⟨hEq, _⟩)
        · left
          intro n hn hOpen
          have hLow := (hNoted.candidate_iff.mp hRight.1).1
          have hLe := hLeast.2 hOpen
          omega
        · omega
      · rintro (hFree | ⟨⟨n, hn, hOpen⟩, _⟩)
        · left
          have hLow : lastAck calls < seq := by
            by_contra hNot
            exact hFree seq (by omega) hLeast.1
          refine ⟨hNoted.candidate_iff.mpr ⟨hLow, hLeast.1⟩, ?_⟩
          intro n hn
          exact hLeast.2 (hNoted.candidate_iff.mp hn).2
        · have hLe := hLeast.2 hOpen
          omega
    · rw [if_neg hPos] at hSeq
      subst hSeq
      constructor
      · rintro (hRight | ⟨_, hNone⟩)
        · have hLow := (hNoted.candidate_iff.mp hRight.1).1
          omega
        · exact Or.inr ⟨⟨m, not_lt.mp hPos, hLeast.1⟩, hNone⟩
      · rintro (hFree | ⟨_, hNone⟩)
        · exact absurd hLeast.1 (hFree m (by omega))
        · exact Or.inr ⟨rfl, hNone⟩
  · constructor
    · intro _
      exact Or.inl fun n _ => hNone n
    · intro _
      refine Or.inr ⟨hSeq, ?_⟩
      intro n hn
      exact hNone n (hNoted.candidate_iff.mp hn).2

theorem Noted.call
    {c : Call}
    {after : List Call}
    (hNoted : Noted calls sb xs ys fs covered)
    (hLawful : Lawful (calls ++ c :: after)) :
    ∃ sb' xs' ys' fs' covered', sb.call c = some sb' ∧
      Noted (calls ++ [c]) sb' xs' ys' fs' covered' := by
  cases c with
  | updateScoreBoard last_ack blocks =>
      apply hNoted.updateScoreBoard hLawful.lastAck_le
      intro b hb
      exact hLawful.filled b (by simp [reported, hb])
  | markRetran retran_seqno =>
      exact ⟨_, xs, ys, fs, covered, rfl, hNoted.markRetran⟩
  | getNextRetran =>
      rcases hNoted.getNextRetran with ⟨r, hr, _, hNext⟩
      refine ⟨r.2, xs, ys, fs, covered, ?_, hNext⟩
      unfold ScoreBoardRQ.call
      simp only
      rw [hr, Option.map_some]

theorem run_noted
    {after : List Call}
    (hLawful : Lawful (calls ++ after)) :
    ∃ sb, PartialRun.run call new calls = some sb ∧
      ∃ xs ys fs covered, Noted calls sb xs ys fs covered := by
  apply @PartialRun.progress _ _ call
    (fun calls sb => ∃ xs ys fs covered,
      Noted calls sb xs ys fs covered)
    (fun before _ c => ∃ after, Lawful (before ++ c :: after))
  · rintro before sb c ⟨xs, ys, fs, covered, hNoted⟩
      ⟨after, hLaw⟩
    rcases hNoted.call hLaw with
      ⟨sb', xs', ys', fs', covered', hCall, hNext⟩
    exact ⟨sb', hCall, xs', ys', fs', covered', hNext⟩
  · exact ⟨[], [], [], ∅, noted_new⟩
  · intro before c rest sb hEq _
    refine ⟨rest ++ after, ?_⟩
    rw [hEq, List.append_assoc, List.cons_append] at hLawful
    exact hLawful

/-
  `getNextRetran` returns the least number to send again, and
  -1 only if there is none, exactly if no hole of the queue
  from the start of the search up to the last ACK, or up to
  0, is in the way.
-/
theorem next_retran_iff
    (calls : List Call)
    (hLawful : Lawful calls) :
    (∃ sb, PartialRun.run call new calls = some sb) ∧
    ∀ before after sb r,
      calls = before ++ .getNextRetran :: after →
      PartialRun.run call new before = some sb →
      sb.getNextRetran = some r →
      (Right before r.1 ↔ Unblocked before sb) := by
  constructor
  · rcases @run_noted calls [] (by simpa using hLawful) with
      ⟨sb, hRun, _⟩
    exact ⟨sb, hRun⟩
  · intro before after sb r hEq hRun hCall
    rw [hEq] at hLawful
    rcases run_noted hLawful with
      ⟨sb₁, hRun₁, xs, ys, fs, covered, hNoted⟩
    rw [hRun] at hRun₁
    cases hRun₁
    rcases hNoted.getNextRetran with ⟨r₁, hr, hAnswer, _⟩
    rw [hCall] at hr
    cases hr
    exact hNoted.right_iff hLawful.lastAck_ge hAnswer

/- Two holes are sent one after the other. -/
theorem next_retran_iff_holes :
    ∃ sb, PartialRun.run call new
      [.updateScoreBoard 3 [(6, 8), (10, 12)], .getNextRetran,
        .markRetran 4, .getNextRetran] = some sb :=
  (next_retran_iff
    [.updateScoreBoard 3 [(6, 8), (10, 12)], .getNextRetran,
      .markRetran 4, .getNextRetran]
    ⟨by decide, by decide, by decide⟩).1

/-
  With 0 missing the answer is -1.  A D-SACK block below the
  last ACK makes a number below it the answer.
-/
theorem zero_not_sent :
    (Lawful [.updateScoreBoard (-1) [(5, 8)],
        .getNextRetran] ∧
      ∃ sb r,
        PartialRun.run call new
          [.updateScoreBoard (-1) [(5, 8)]] = some sb ∧
        sb.getNextRetran = some r ∧ r.1 = -1 ∧
        Candidate [.updateScoreBoard (-1) [(5, 8)]] 0 ∧
        ¬ Right [.updateScoreBoard (-1) [(5, 8)]] r.1) ∧
    Lawful [.updateScoreBoard 9 [(2, 5), (12, 14)],
        .getNextRetran] ∧
      ∃ sb r,
        PartialRun.run call new
          [.updateScoreBoard 9 [(2, 5), (12, 14)]] = some sb ∧
        sb.getNextRetran = some r ∧ r.1 = 5 ∧
        ¬ Right [.updateScoreBoard 9 [(2, 5), (12, 14)]]
          r.1 := by
  have hZero :
      Candidate [.updateScoreBoard (-1) [(5, 8)]] 0 := by
    refine ⟨by decide, ?_, by decide, 5, by decide, (5, 8),
      List.mem_cons_self, by decide⟩
    rintro ⟨b, hb, hLow, _⟩
    cases List.mem_singleton.mp hb
    exact absurd hLow (by decide)
  constructor
  · refine ⟨⟨by decide, by decide, by decide⟩, _, _, rfl, rfl,
      rfl, hZero, ?_⟩
    rintro (hLeast | ⟨_, hNone⟩)
    · exact absurd hLeast.1.1 (by decide)
    · exact hNone 0 hZero
  · refine ⟨⟨by decide, by decide, by decide⟩, _, _, rfl, rfl,
      rfl, ?_⟩
    rintro (hLeast | ⟨hEq, _⟩)
    · exact absurd hLeast.1.1 (by decide)
    · exact absurd hEq (by decide)

end ScoreBoardRQ

end Ns2
