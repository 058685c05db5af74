import Ns2.Lib.CircularArray
import Ns2.Tcp.SendTimes.Operations

/-
  The table has the times of what is outstanding.

  The outstanding numbers fill at most nine tenths of the
  table, so that they have entries of their own.  A growth
  starts from the entry of `highest_ack_`, which is in the
  table only once something has been acknowledged.

  Main declarations:
    * `SendTimes.Harmless`, `SendTimes.Lawful`
    * `SendTimes.Timed`, `lastSent`

  Correctness is proven by:
    * `SendTimes.grow_spec`, `SendTimes.output_spec`
    * `times_kept`
-/

------------------------------------------------------------
-- Growth
------------------------------------------------------------

namespace Ns2

namespace Tcp

open CheckedArray

namespace SendTimes

variable {c : SendParams}
variable {s s' : SendTimes}
variable {seqno h size : Int}
variable {now : Rat}
variable {tss : List Rat}

/- Close numbers have entries of their own. -/
theorem tmod_ne
    {i j : Int}
    (hi : 0 ≤ i)
    (hj : 0 ≤ j)
    (hNe : i ≠ j)
    (hij : i < j + size)
    (hji : j < i + size) :
    i.tmod size ≠ j.tmod size := by
  rw [Int.tmod_eq_emod_of_nonneg hi, Int.tmod_eq_emod_of_nonneg hj]
  exact CircularArray.slot_ne hNe hij hji

theorem tmod_range
    {i : Int}
    (hi : 0 ≤ i)
    (hSize : 0 < size) :
    0 ≤ i.tmod size ∧ i.tmod size < size := by
  rw [Int.tmod_eq_emod_of_nonneg hi]
  exact ⟨Int.emod_nonneg i hSize.ne', Int.emod_lt_of_pos i hSize⟩

/- The entries copied so far can be read in the new table. -/
theorem copy_spec
    (hAck : 0 ≤ h)
    (hLength : tss.length = size)
    {k : Nat}
    (hk : k ≤ size) :
    ∃ ntss, (List.range k).foldlM (copyEntry h size tss)
        (List.replicate (size * 2).toNat 0) = some ntss ∧
      ntss.length = size * 2 ∧
      ∀ i : Int, h ≤ i → i < h + k →
        load ntss (i.tmod (size * 2)) =
          load tss (i.tmod size) := by
  induction k with
  | zero =>
      refine ⟨_, rfl, ?_, fun i hLow hHigh => by omega⟩
      rw [List.length_replicate]
      omega
  | succ k ih =>
      rcases ih (by omega) with ⟨ntss, hCopy, hLong, hRead⟩
      have hOld : 0 ≤ (h + k).tmod size ∧
          (h + k).tmod size < size :=
        tmod_range (by omega) (by omega)
      have hNew : 0 ≤ (h + k).tmod (size * 2) ∧
          (h + k).tmod (size * 2) < size * 2 :=
        tmod_range (by omega) (by omega)
      rcases exists_load hOld.1 (by rw [hLength]; exact hOld.2)
        with ⟨time, hLoad⟩
      rcases exists_store hNew.1 (by rw [hLong]; exact hNew.2) time
        with ⟨ntss', hStore⟩
      have hEntry :
          copyEntry h size tss ntss k = some ntss' := by
        unfold copyEntry
        rw [hLoad]
        exact hStore
      refine ⟨ntss', ?_, ?_, ?_⟩
      · rw [List.range_succ, List.foldlM_append, hCopy]
        simp [hEntry]
      · rw [length_store hStore]
        exact hLong
      · intro i hLow hHigh
        rw [load_store hStore]
        by_cases hLast : i = h + k
        · rw [if_pos (by rw [hLast]), hLast]
          exact hLoad.symm
        · have hNe : i.tmod (size * 2) ≠
              (h + k).tmod (size * 2) :=
            tmod_ne (by omega) (by omega) hLast (by omega)
              (by omega)
          rw [if_neg hNe]
          exact hRead i hLow (by omega)

/- A growth after the first acknowledgement keeps the times. -/
theorem grow_spec
    (hAck : 0 ≤ s.highest_ack_)
    (hLength : tss.length = s.tss_size_) :
    ∃ ntss, s.grow tss = some { s with
        tss := some ntss
        tss_size_ := s.tss_size_ * 2 } ∧
      ntss.length = s.tss_size_ * 2 ∧
      ∀ i, s.highest_ack_ ≤ i →
        i < s.highest_ack_ + s.tss_size_ →
          load ntss (i.tmod (s.tss_size_ * 2)) =
            load tss (i.tmod s.tss_size_) := by
  have hAll : (s.tss_size_.toNat : Int) = s.tss_size_ := by
    omega
  rcases copy_spec hAck hLength hAll.le with
    ⟨ntss, hCopy, hLong, hRead⟩
  refine ⟨ntss, ?_, hLong, ?_⟩
  · unfold grow
    rw [hCopy]
    rfl
  · intro i hLow hHigh
    exact hRead i hLow (by omega)

end SendTimes

end Tcp

end Ns2

------------------------------------------------------------
-- Transmissions
------------------------------------------------------------

namespace Ns2

namespace Tcp

open CheckedArray

/- The time of the last transmission of a number. -/
def lastSent
    (sent : List (Int × Rat))
    (n : Int) : Option Rat :=
  (sent.reverse.find? fun p => p.1 = n).map Prod.snd

theorem lastSent_concat
    (sent : List (Int × Rat))
    (seqno : Int)
    (now : Rat)
    (n : Int) :
    lastSent (sent ++ [(seqno, now)]) n =
      if n = seqno then some now else lastSent sent n := by
  unfold lastSent
  rw [List.reverse_append, List.reverse_singleton,
    List.singleton_append, List.find?_cons]
  by_cases hSame : n = seqno
  · simp [hSame]
  · simp [hSame, Ne.symm hSame]

namespace SendTimes

variable {c : SendParams}
variable {s s' : SendTimes}
variable {seqno : Int}
variable {now : Rat}
variable {sent : List (Int × Rat)}

/- The table has as many entries as it is said to have. -/
structure Sized (s : SendTimes) : Prop where
  size : 100 ≤ s.tss_size_
  length : ∀ tss, s.tss = some tss → tss.length = s.tss_size_

/- The times are those of the last transmissions. -/
structure Timed
    (sent : List (Int × Rat))
    (s : SendTimes) : Prop extends Sized s where
  ack_ge : -1 ≤ s.highest_ack_
  ack_le : s.highest_ack_ ≤ s.maxseq_
  room : (s.maxseq_ - s.highest_ack_) * 10 ≤ s.tss_size_ * 9
  times : ∀ n, s.highest_ack_ < n → n ≤ s.maxseq_ →
    ∃ time, s.time n = some time ∧ lastSent sent n = some time

/- Only outstanding numbers and the next one are sent. -/
def Lawful (s : SendTimes) : SendAction → Prop
| .output seqno _ =>
    s.highest_ack_ < seqno ∧ seqno ≤ s.maxseq_ + 1
| .ack seqno => s.highest_ack_ ≤ seqno ∧ seqno ≤ s.maxseq_
| .reset => True

/-
  The table does not grow before the first acknowledgement,
  and no call that sends nothing is for a number sent before.
-/
def Harmless
    (c : SendParams)
    (s : SendTimes) : SendAction → Prop
| .output seqno _ =>
    (s.Full seqno → 0 ≤ s.highest_ack_) ∧
      (s.Aborts c seqno → s.maxseq_ < seqno)
| .ack _ => True
| .reset => True

instance
    (s : SendTimes)
    (a : SendAction) :
    Decidable (s.Lawful a) :=
  match a with
  | .output _ _ => inferInstanceAs (Decidable (_ ∧ _))
  | .ack _ => inferInstanceAs (Decidable (_ ∧ _))
  | .reset => .isTrue trivial

instance
    (s : SendTimes)
    (a : SendAction) :
    Decidable (s.Harmless c a) :=
  match a with
  | .output seqno _ =>
      inferInstanceAs (Decidable
        ((s.Full seqno → 0 ≤ s.highest_ack_) ∧
          (s.Aborts c seqno → s.maxseq_ < seqno)))
  | .ack _ => .isTrue trivial
  | .reset => .isTrue trivial

/- There is room for the number, and the times are kept. -/
theorem prepare_spec
    (hFix : c.bugfix_ts_ = true)
    (hSized : s.Sized)
    (hRoom : (s.maxseq_ - s.highest_ack_) * 10 ≤
      s.tss_size_ * 9)
    (hNext : seqno ≤ s.maxseq_ + 1)
    (hGrowth : s.Full seqno → 0 ≤ s.highest_ack_) :
    ∃ tss size,
      s.prepare c seqno =
        some { s with tss := some tss, tss_size_ := size } ∧
      tss.length = size ∧ s.tss_size_ ≤ size ∧
      (seqno - s.highest_ack_) * 10 ≤ size * 9 ∧
      ∀ n time, s.highest_ack_ < n → n ≤ s.maxseq_ →
        s.time n = some time →
          load tss (n.tmod size) = some time := by
  have hSize := hSized.size
  generalize hTss :
    s.tss.getD (List.replicate s.tss_size_.toNat 0) = tss
  have hLength : tss.length = s.tss_size_ := by
    rw [← hTss]
    cases hNow : s.tss with
    | none =>
        rw [Option.getD_none, List.length_replicate]
        omega
    | some old => exact hSized.length old hNow
  have hOld : ∀ n time, s.time n = some time →
      load tss (n.tmod s.tss_size_) = some time := by
    intro n time hTime
    rcases Option.bind_eq_some_iff.mp hTime with
      ⟨old, hNow, hLoad⟩
    rw [← hTss, hNow]
    exact hLoad
  unfold prepare
  rw [if_pos hFix]
  dsimp only
  rw [hTss]
  by_cases hFull : s.Full seqno
  · rcases grow_spec (hGrowth hFull) hLength with
      ⟨ntss, hGrow, hLong, hRead⟩
    rw [if_pos hFull]
    refine ⟨ntss, s.tss_size_ * 2, hGrow, hLong, by omega,
      by omega, ?_⟩
    intro n time hLow hHigh hTime
    rw [hRead n hLow.le (by omega)]
    exact hOld n time hTime
  · rw [if_neg hFull]
    refine ⟨tss, s.tss_size_, rfl, hLength, le_rfl,
      not_lt.mp hFull, ?_⟩
    intro n time _ _ hTime
    exact hOld n time hTime

/- What a call changes, once the time is stored. -/
theorem output_eq
    {tss tss' : List Rat}
    {size : Int}
    (hPrepare : s.prepare c seqno =
      some { s with tss := some tss, tss_size_ := size })
    (hStore : store tss (seqno.tmod size) now = some tss') :
    s.output c seqno now = some
      { tss := some tss'
        tss_size_ := size
        maxseq_ := if s.Aborts c seqno then s.maxseq_
          else max s.maxseq_ seqno
        highest_ack_ := s.highest_ack_
        syn_connects_ := s.connects c seqno } := by
  have hStamp :
      ({ s with tss := some tss, tss_size_ := size }
        : SendTimes).stamp seqno now =
        some { s with tss := some tss', tss_size_ := size } := by
    unfold stamp
    dsimp only
    rw [hStore]
    rfl
  have hAborts :
      ({ s with tss := some tss', tss_size_ := size }
        : SendTimes).Aborts c seqno ↔ s.Aborts c seqno :=
    Iff.rfl
  unfold output
  rw [hPrepare]
  dsimp only [Option.bind_eq_bind, Option.bind_some]
  rw [hStamp]
  dsimp only [Option.bind_some]
  by_cases hStop : s.Aborts c seqno
  · rw [if_pos (decide_eq_true (hAborts.mpr hStop)),
      if_pos hStop]
    rfl
  · rw [if_neg (by simpa using fun h => hStop (hAborts.mp h)),
      if_neg hStop]
    by_cases hNew : s.maxseq_ < seqno
    · rw [if_pos hNew, max_eq_right hNew.le]
      rfl
    · rw [if_neg hNew, max_eq_left (not_lt.mp hNew)]
      rfl

/- A call stores the time and leaves the others alone. -/
theorem output_spec
    (hFix : c.bugfix_ts_ = true)
    (hTimed : Timed sent s)
    (hLawful : s.Lawful (.output seqno now))
    (hHarmless : s.Harmless c (.output seqno now)) :
    ∃ s', s.output c seqno now = some s' ∧
      Timed (sent ++ s.sends c (.output seqno now)) s' := by
  rcases hLawful with ⟨hAfter, hNext⟩
  have hAck := hTimed.ack_ge
  have hSize := hTimed.size
  rcases prepare_spec hFix hTimed.toSized hTimed.room hNext
      hHarmless.1 with
    ⟨tss, size, hPrepare, hLength, hMore, hRoom, hKept⟩
  have hSlot := tmod_range (show 0 ≤ seqno by omega)
    (show 0 < size by omega)
  rcases exists_store hSlot.1 (by rw [hLength]; exact hSlot.2)
      now with ⟨tss', hStore⟩
  have hLength' : tss'.length = size := by
    rw [length_store hStore]
    exact hLength
  have hRead : ∀ n, s.highest_ack_ < n →
      n ≤ max s.maxseq_ seqno →
        load tss' (n.tmod size) =
          if n = seqno then some now
          else load tss (n.tmod size) := by
    intro n hLow hHigh
    have hBefore := hTimed.room
    rw [load_store hStore]
    by_cases hSame : n = seqno
    · rw [hSame, if_pos rfl, if_pos rfl]
    · rw [if_neg hSame, if_neg]
      exact tmod_ne (by omega) (by omega) hSame (by omega)
        (by omega)
  have hTimes : ∀ n, s.highest_ack_ < n → n ≤ s.maxseq_ →
      n ≠ seqno → ∃ time, load tss' (n.tmod size) = some time ∧
        lastSent sent n = some time := by
    intro n hLow hHigh hOther
    rcases hTimed.times n hLow hHigh with ⟨time, hTime, hLast⟩
    refine ⟨time, ?_, hLast⟩
    rw [hRead n hLow (le_max_of_le_left hHigh), if_neg hOther]
    exact hKept n time hLow hHigh hTime
  have hSized' : ∀ m,
      (SendTimes.mk (some tss') size m s.highest_ack_
        (s.connects c seqno)).Sized := by
    intro m
    refine ⟨hSize.trans hMore, fun table hTable => ?_⟩
    cases hTable
    exact hLength'
  refine ⟨_, output_eq hPrepare hStore, ?_⟩
  dsimp only [sends]
  by_cases hStop : s.Aborts c seqno
  · have hNew := hHarmless.2 hStop
    rw [if_pos hStop, if_pos hStop, List.append_nil]
    constructor
    case toSized => exact hSized' _
    case ack_ge => exact hAck
    case ack_le => exact hTimed.ack_le
    case room =>
        have hBefore := hTimed.room
        dsimp only
        omega
    case times =>
        intro n hLow hHigh
        exact hTimes n hLow hHigh
          (lt_of_le_of_lt hHigh hNew).ne
  · rw [if_neg hStop, if_neg hStop]
    constructor
    case toSized => exact hSized' _
    case ack_ge => exact hAck
    case ack_le => exact hTimed.ack_le.trans (le_max_left _ _)
    case room =>
        have hBefore := hTimed.room
        dsimp only
        omega
    case times =>
        intro n hLow hHigh
        dsimp only at hLow hHigh
        rw [lastSent_concat]
        by_cases hSame : n = seqno
        · refine ⟨now, ?_, if_pos hSame⟩
          have hNow := hRead n hLow hHigh
          rw [if_pos hSame] at hNow
          exact hNow
        · rw [if_neg hSame]
          exact hTimes n hLow (by omega) hSame

/- An acknowledgement and a reset leave less outstanding. -/
theorem act_spec
    (hFix : c.bugfix_ts_ = true)
    (hTimed : Timed sent s)
    {a : SendAction}
    (hLawful : s.Lawful a)
    (hHarmless : s.Harmless c a) :
    ∃ s', s.act c a = some s' ∧
      Timed (sent ++ s.sends c a) s' := by
  cases a with
  | output seqno now =>
      exact output_spec hFix hTimed hLawful hHarmless
  | ack seqno =>
      refine ⟨_, rfl, ?_⟩
      have hAck := hTimed.ack_ge
      have hRoom := hTimed.room
      rcases hLawful with ⟨hLow, hHigh⟩
      unfold sends
      rw [List.append_nil]
      constructor
      case toSized => exact ⟨hTimed.size, hTimed.length⟩
      case ack_ge => exact hAck.trans hLow
      case ack_le => exact hHigh
      case room =>
          dsimp only
          omega
      case times =>
          intro n hAbove hMax
          exact hTimed.times n (hLow.trans_lt hAbove) hMax
  | reset =>
      refine ⟨_, rfl, ?_⟩
      have hSize := hTimed.size
      unfold sends
      rw [List.append_nil]
      constructor
      case toSized => exact ⟨hSize, hTimed.length⟩
      case ack_ge => exact le_rfl
      case ack_le => exact le_rfl
      case room =>
          dsimp only [reset]
          omega
      case times =>
          intro n hAbove hMax
          exact absurd (hAbove.trans_le hMax) (lt_irrefl _)

/- The state in which a run starts. -/
def start
    (c : SendParams)
    (syn_connects : Int) : SendTimes :=
  (new syn_connects).reset c

theorem start_timed
    (connects : Int) :
    Timed [] (start c connects) := by
  constructor
  case toSized => exact ⟨le_rfl, fun tss hNone => by cases hNone⟩
  case ack_ge => exact le_rfl
  case ack_le => exact le_rfl
  case room =>
      show (-1 - -1 : Int) * 10 ≤ 100 * 9
      omega
  case times =>
      intro n hAbove hMax
      exact absurd (hAbove.trans_le hMax) (lt_irrefl _)

end SendTimes

open SendTimes

/-
  In a run whose growths come after the first acknowledgement
  and that does not give up a SYN packet once it was sent, no
  access is outside of its array, and what is outstanding has
  the time of its last transmission in the table.
-/
theorem times_kept
    {c : SendParams}
    {connects : Int}
    {actions : List SendAction}
    (hFix : c.bugfix_ts_ = true)
    (hLawful : PartialRun.Throughout (act c) Lawful
      (start c connects) actions)
    (hHarmless : PartialRun.Throughout (act c) (Harmless c)
      (start c connects) actions) :
    ∃ s, PartialRun.run (act c) (start c connects) actions =
        some s ∧
      ∀ n, s.highest_ack_ < n → n ≤ s.maxseq_ →
        ∃ time, s.time n = some time ∧
          lastSent (PartialRun.outputs (act c) (sends c)
            (start c connects) actions) n = some time := by
  have hStep : ∀ before s a,
      PartialRun.run (act c) (start c connects) before = some s ∧
        Timed (PartialRun.outputs (act c) (sends c)
          (start c connects) before) s →
        s.Lawful a ∧ s.Harmless c a →
        ∃ s', s.act c a = some s' ∧
          PartialRun.run (act c) (start c connects)
            (before ++ [a]) = some s' ∧
          Timed (PartialRun.outputs (act c) (sends c)
            (start c connects) (before ++ [a])) s' := by
    intro before s a hState hGood
    rcases act_spec hFix hState.2 hGood.1 hGood.2 with
      ⟨s', hAct, hTimed⟩
    refine ⟨s', hAct, ?_, ?_⟩
    · rw [PartialRun.run_append, hState.1]
      simp only [Option.bind_some, PartialRun.run, hAct]
    · rw [PartialRun.outputs_concat hState.1 hAct]
      exact hTimed
  rcases PartialRun.progress hStep ⟨rfl, start_timed connects⟩
      (fun before a after s hSplit hBefore =>
        ⟨hLawful before a after s hSplit hBefore,
          hHarmless before a after s hSplit hBefore⟩) with
    ⟨s, hRun, _, hTimed⟩
  exact ⟨s, hRun, hTimed.times⟩

/- The numbers from `first` on, each at a time of its own. -/
def outputsFrom (first count : Nat) : List SendAction :=
  (List.range count).map fun k =>
    .output (first + k : Nat) (first + k : Nat)

def usualSend : SendParams := ⟨true, true, true, 3⟩

/- A growth with the numbers from 10 to 100 outstanding. -/
def growing : List SendAction :=
  outputsFrom 0 90 ++ .ack 9 :: outputsFrom 90 11

theorem times_kept_growing :
    ∃ s,
      PartialRun.run (act usualSend) (start usualSend 0) growing =
        some s ∧
      ∀ n, s.highest_ack_ < n → n ≤ s.maxseq_ →
        ∃ time, s.time n = some time ∧
          lastSent (PartialRun.outputs (act usualSend)
            (sends usualSend) (start usualSend 0) growing) n =
              some time :=
  times_kept rfl
    (PartialRun.throughout_of_check (by decide +kernel))
    (PartialRun.throughout_of_check (by decide +kernel))

/-
  Before anything is acknowledged the entry that a growth
  starts from is that of -1: the 91st packet of a window.
-/
theorem grow_outside :
    ¬∀ actions : List SendAction,
      PartialRun.Throughout (act usualSend) Lawful
          (start usualSend 0) actions →
        ∃ s, PartialRun.run (act usualSend) (start usualSend 0)
          actions = some s := by
  intro hAll
  rcases hAll (outputsFrom 0 91)
      (PartialRun.throughout_of_check (by decide +kernel)) with
    ⟨s, hRun⟩
  have hNone : PartialRun.run (act usualSend)
      (start usualSend 0) (outputsFrom 0 91) = none := by
    decide +kernel
  rw [hNone] at hRun
  cases hRun

end Tcp

end Ns2
