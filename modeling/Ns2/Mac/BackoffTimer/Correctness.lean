import Mathlib.Algebra.Order.Field.Basic
import Mathlib.Algebra.Order.Floor.Semiring
import Mathlib.Data.Rat.Floor
import Mathlib.Tactic.FieldSimp
import Mathlib.Tactic.Linarith
import Mathlib.Tactic.Ring
import Ns2.Mac.BackoffTimer.Operations

/-
  The backoff timer counts the slots it is not paused in.

  The remaining time is always that of the slots drawn less
  the whole slots that have elapsed behind DIFS, so the event
  is queued for the time when they add up.

  Main declarations:
    * `BackoffRfidTimer.elapsed`
    * `BackoffRfidTimer.Counts`

  Correctness is proven by:
    * `BackoffRfidTimer.Run.counts`
    * `BackoffRfidTimer.backoff_counts_slots`
-/

------------------------------------------------------------
-- Whole Slots
------------------------------------------------------------

namespace Ns2

namespace Mac

namespace BackoffRfidTimer

variable {slot now begun difs : Rat}
variable {drawn : Nat}
variable {past : List Interval}
variable {current : Option (Rat × Rat)}
variable {s s' : BackoffRfidTimer}

/- The whole slots behind the DIFS wait of an interval. -/
def elapsedIn (slot : Rat) (i : Interval) : Nat :=
  ⌊(i.ended - i.begun - i.difs) / slot⌋₊

def elapsed (slot : Rat) (past : List Interval) : Nat :=
  (past.map (elapsedIn slot)).sum

theorem int_nonneg
    {x : Rat}
    (hx : 0 ≤ x) : int x = ⌊x⌋ := by
  rw [int, Int.tdiv_eq_ediv_of_nonneg (Rat.num_nonneg.mpr hx)]
  exact (Rat.floor_def x).symm

/- A negative count is taken for zero. -/
theorem int_eq_floor
    (x : Rat) :
    (if int x < 0 then 0 else int x) = (⌊x⌋₊ : Int) := by
  rcases le_or_gt 0 x with hx | hx
  · have hFloor : int x = (⌊x⌋₊ : Int) := by
      rw [int_nonneg hx, Int.natCast_floor_eq_floor hx]
    rw [hFloor, if_neg (by omega)]
  · rw [Nat.floor_of_nonpos hx.le]
    have hCut : int x ≤ 0 := by
      have hNum := (Rat.num_neg.mpr hx).le
      have hBack : 0 ≤ (-x.num).tdiv x.den :=
        Int.tdiv_nonneg (by omega) (Int.natCast_nonneg _)
      rw [Int.neg_tdiv] at hBack
      exact Int.neg_nonneg.mp hBack
    split
    · rfl
    · push_cast
      omega

theorem slots_eq
    (s : BackoffRfidTimer)
    (clock slot : Rat) :
    s.slots clock slot =
      (⌊(clock - s.stime - s.difs_wait) / slot⌋₊ : Int) := by
  unfold slots
  rw [int_eq_floor, sub_add_eq_sub_sub]

/-
  What a timer that was started knows: the slots that remain,
  and the event for the time when they will be over.
-/
structure Counts
    (slot : Rat)
    (drawn : Nat)
    (now : Rat)
    (past : List Interval)
    (current : Option (Rat × Rat))
    (s : BackoffRfidTimer) : Prop where
  busy : s.busy_ = true
  count : elapsed slot past ≤ drawn
  rest : s.rtime = (drawn - elapsed slot past : Nat) * slot
  running : ∀ begun difs, current = some (begun, difs) →
    s.paused_ = false ∧ s.stime = begun ∧
      s.difs_wait = difs ∧ 0 ≤ difs ∧ begun ≤ now ∧
      now ≤ begun + (s.rtime + difs) ∧
      s.intr = [begun + (s.rtime + difs)]
  halted : current = none → s.paused_ = true ∧ s.intr = []

theorem rest_nonneg
    {n : Nat}
    (hSlot : 0 < slot) : 0 ≤ (n : Rat) * slot :=
  mul_nonneg (Nat.cast_nonneg n) hSlot.le

theorem schedule_ok
    {clock delay : Rat}
    (hQueue : s.intr = []) :
    s.schedule clock delay =
      .ok { s with intr := [clock + delay] } := by
  rw [schedule, hQueue]
  rfl

theorem assert_ok
    {b : Bool}
    (hHolds : b = true) : assert b = .ok () :=
  if_pos hHolds

/- A timer that is neither busy nor queued can be started. -/
theorem start_counts
    {clock : Rat}
    {random cw : Nat}
    {idle : Bool}
    (hSlot : 0 < slot)
    (hIdle : s.Idle)
    (hDifs : 0 ≤ difs) :
    ∃ s', s.start clock slot random cw idle difs = .ok s' ∧
      Counts slot (random % cw) clock []
        (if idle then some (clock, difs) else none) s' := by
  have hRest := rest_nonneg (n := random % cw) hSlot
  rcases hIdle with ⟨hBusy, hQueue⟩
  unfold start
  rw [assert_ok (by rw [hBusy]; rfl)]
  cases idle with
  | false =>
      refine ⟨_, rfl, ?_⟩
      constructor
      case busy => rfl
      case count => exact Nat.zero_le _
      case rest => rfl
      case running => exact nofun
      case halted => exact fun _ => ⟨rfl, hQueue⟩
  | true =>
      have hDelay : 0 ≤ ((random % cw : Nat) : Rat) * slot + difs :=
        add_nonneg hRest hDifs
      dsimp only [bind, Except.bind, ↓reduceIte]
      rw [assert_ok (decide_eq_true hDelay)]
      dsimp only [↓reduceIte]
      rw [schedule_ok]
      swap
      · exact hQueue
      refine ⟨_, rfl, ?_⟩
      constructor
      case busy => rfl
      case count => exact Nat.zero_le _
      case rest => rfl
      case running =>
        rintro _ _ ⟨⟩
        refine ⟨rfl, rfl, rfl, hDifs, le_rfl, ?_, rfl⟩
        exact le_add_of_nonneg_right hDelay
      case halted => exact nofun

theorem Counts.resume
    (hSlot : 0 < slot)
    (hCounts : Counts slot drawn now past none s)
    (hDifs : 0 ≤ difs) :
    ∃ s', s.resume now difs = .ok s' ∧
      Counts slot drawn now past (some (now, difs)) s' := by
  rcases hCounts.halted rfl with ⟨hPaused, hQueue⟩
  have hRest : 0 ≤ s.rtime := by
    rw [hCounts.rest]
    exact rest_nonneg hSlot
  have hDelay : 0 ≤ s.rtime + difs := add_nonneg hRest hDifs
  unfold BackoffRfidTimer.resume
  rw [assert_ok (by rw [hCounts.busy, hPaused]; rfl)]
  dsimp only [bind, Except.bind]
  rw [assert_ok (decide_eq_true hDelay)]
  dsimp only
  rw [schedule_ok]
  swap
  · exact hQueue
  refine ⟨_, rfl, ?_⟩
  constructor
  case busy => exact hCounts.busy
  case count => exact hCounts.count
  case rest => exact hCounts.rest
  case running =>
    rintro _ _ ⟨⟩
    refine ⟨rfl, rfl, rfl, hDifs, le_rfl, ?_, rfl⟩
    exact le_add_of_nonneg_right hDelay
  case halted => exact nofun

/- At most the slots that remain have elapsed. -/
theorem Counts.slots_le
    (hSlot : 0 < slot)
    (hCounts : Counts slot drawn now past (some (begun, difs)) s) :
    ⌊(now - begun - difs) / slot⌋₊ ≤
      drawn - elapsed slot past := by
  rcases hCounts.running begun difs rfl with
    ⟨-, -, -, -, -, hBefore, -⟩
  apply Nat.floor_le_of_le
  rw [div_le_iff₀ hSlot, ← hCounts.rest]
  linarith

theorem Counts.pause
    (hSlot : 0 < slot)
    (hCounts : Counts slot drawn now past (some (begun, difs)) s) :
    ∃ s', s.pause now slot = .ok s' ∧
      Counts slot drawn now (⟨begun, difs, now⟩ :: past) none
        s' := by
  have hLess := hCounts.slots_le hSlot
  rcases hCounts.running begun difs rfl with
    ⟨hPaused, hBegun, hDifs, -, -, -, hQueue⟩
  have hSlots : s.slots now slot =
      (⌊(now - begun - difs) / slot⌋₊ : Int) := by
    rw [slots_eq, hBegun, hDifs]
  have hElapsed :
      elapsed slot (⟨begun, difs, now⟩ :: past) =
        ⌊(now - begun - difs) / slot⌋₊ + elapsed slot past :=
    rfl
  have hCount := hCounts.count
  have hRest :
      s.rtime - (s.slots now slot : Rat) * slot =
        (drawn - elapsed slot (⟨begun, difs, now⟩ :: past) :
          Nat) * slot := by
    rw [hSlots, hCounts.rest, hElapsed, ← sub_mul]
    have hSum : drawn - elapsed slot past =
        ⌊(now - begun - difs) / slot⌋₊ +
          (drawn - (⌊(now - begun - difs) / slot⌋₊ +
            elapsed slot past)) := by
      omega
    congr 1
    rw [sub_eq_iff_eq_add']
    exact_mod_cast congrArg (Nat.cast (R := Rat)) hSum
  unfold BackoffRfidTimer.pause
  dsimp only
  rw [hRest, assert_ok (by rw [hCounts.busy, hPaused]; rfl)]
  dsimp only [bind, Except.bind]
  rw [assert_ok (decide_eq_true (rest_nonneg hSlot))]
  refine ⟨_, rfl, ?_⟩
  constructor
  case busy => exact hCounts.busy
  case count =>
    rw [hElapsed]
    omega
  case rest => rfl
  case running => exact nofun
  case halted =>
    refine fun _ => ⟨rfl, ?_⟩
    exact congrArg List.tail hQueue

theorem Counts.stop
    (hCounts : Counts slot drawn now past current s) :
    ∃ s', s.stop = .ok s' ∧ s'.Idle := by
  unfold BackoffRfidTimer.stop
  rw [assert_ok hCounts.busy]
  refine ⟨_, rfl, rfl, ?_⟩
  cases current with
  | none =>
      rcases hCounts.halted rfl with ⟨hPaused, hQueue⟩
      rw [if_pos hPaused]
      exact hQueue
  | some interval =>
      rcases hCounts.running interval.1 interval.2 rfl with
        ⟨hPaused, -, -, -, -, -, hQueue⟩
      rw [if_neg (by rw [hPaused]; exact nofun)]
      exact congrArg List.tail hQueue

theorem Counts.wait
    {later : Rat}
    (hCounts : Counts slot drawn now past current s)
    (hLater : now ≤ later)
    (hQueued : ∀ time ∈ s.intr, later ≤ time) :
    Counts slot drawn later past current s := by
  refine ⟨hCounts.busy, hCounts.count, hCounts.rest, ?_,
    hCounts.halted⟩
  intro begun difs hCurrent
  rcases hCounts.running begun difs hCurrent with
    ⟨hPaused, hBegun, hWait, hDifs, hStarted, -, hQueue⟩
  refine ⟨hPaused, hBegun, hWait, hDifs,
    hStarted.trans hLater, ?_, hQueue⟩
  apply hQueued
  rw [hQueue]
  exact List.mem_singleton.mpr rfl

theorem Run.counts
    (hSlot : 0 < slot)
    (hRun : Run slot drawn now past current s) :
    Counts slot drawn now past current s := by
  induction hRun with
  | start hIdle hWindow hDifs hDrawn hStart =>
      rcases start_counts hSlot hIdle hDifs with
        ⟨s', hOk, hCounts⟩
      rw [hStart] at hOk
      rw [hDrawn, Except.ok.inj hOk]
      exact hCounts
  | wait hRun hLater hQueued ih => exact ih.wait hLater hQueued
  | pause hRun hPause ih =>
      rcases ih.pause hSlot with ⟨s', hOk, hCounts⟩
      rw [hPause] at hOk
      rw [Except.ok.inj hOk]
      exact hCounts
  | resume hRun hDifs hResume ih =>
      rcases ih.resume hSlot hDifs with ⟨s', hOk, hCounts⟩
      rw [hResume] at hOk
      rw [Except.ok.inj hOk]
      exact hCounts

theorem Counts.queued
    (hCounts : Counts slot drawn now past current s) :
    s.intr.length = if s.busy_ && !s.paused_ then 1 else 0 := by
  cases current with
  | none =>
      rcases hCounts.halted rfl with ⟨hPaused, hQueue⟩
      rw [hQueue, hPaused, hCounts.busy]
      rfl
  | some interval =>
      rcases hCounts.running interval.1 interval.2 rfl with
        ⟨hPaused, -, -, -, -, -, hQueue⟩
      rw [hQueue, hPaused, hCounts.busy]
      rfl

/- The event is due when DIFS and the slots are over. -/
theorem Counts.due_iff
    (hSlot : 0 < slot)
    (hCounts : Counts slot drawn now past current s) :
    now ∈ s.intr ↔
      ∃ begun difs, current = some (begun, difs) ∧
        begun + difs ≤ now ∧
        elapsed slot past + ⌊(now - begun - difs) / slot⌋₊ =
          drawn := by
  cases current with
  | none =>
      rw [(hCounts.halted rfl).2]
      exact iff_of_false List.not_mem_nil nofun
  | some interval =>
      rcases interval with ⟨begun, difs⟩
      have hLess := hCounts.slots_le hSlot
      have hCount := hCounts.count
      rcases hCounts.running begun difs rfl with
        ⟨-, -, -, -, -, hBefore, hQueue⟩
      rw [hQueue, List.mem_singleton, hCounts.rest]
      rw [hCounts.rest] at hBefore
      constructor
      · intro hNow
        refine ⟨begun, difs, rfl, ?_, ?_⟩
        · have hRest :=
            rest_nonneg (n := drawn - elapsed slot past) hSlot
          linarith
        · have hQuotient : (now - begun - difs) / slot =
              (drawn - elapsed slot past : Nat) := by
            rw [div_eq_iff hSlot.ne', hNow]
            ring
          rw [hQuotient, Nat.floor_natCast]
          omega
      · rintro ⟨_, _, ⟨⟩, hWaited, hAll⟩
        have hWhole : ⌊(now - begun - difs) / slot⌋₊ =
            drawn - elapsed slot past := by
          omega
        have hNonneg : 0 ≤ (now - begun - difs) / slot :=
          div_nonneg (by linarith) hSlot.le
        have hFloor := Nat.floor_le hNonneg
        rw [hWhole, le_div_iff₀ hSlot] at hFloor
        linarith

/-
  After every start and any pauses: one event is queued when
  the timer is busy and not paused, and none otherwise; what
  remains is a number of slots; pausing, resuming, stopping
  and expiring go through; and the timer expires exactly when
  the whole slots add up to those drawn.
-/
theorem backoff_counts_slots
    (slot : Rat)
    (hSlot : 0 < slot) :
    (∀ (s : BackoffRfidTimer) clock random cw idle difs,
      s.Idle → 1 ≤ cw → 0 ≤ difs →
        ∃ s', s.start clock slot random cw idle difs =
          .ok s') ∧
    ∀ drawn now past current s,
      Run slot drawn now past current s →
      s.intr.length = (if s.busy_ && !s.paused_ then 1 else 0) ∧
      (∃ n : Nat, s.rtime = n * slot) ∧
      (current = none → ∀ difs, 0 ≤ difs →
        ∃ s', s.resume now difs = .ok s') ∧
      (current ≠ none → ∃ s', s.pause now slot = .ok s') ∧
      (∃ s', s.stop = .ok s' ∧ s'.Idle) ∧
      (now ∈ s.intr → s.expire.Idle) ∧
      (now ∈ s.intr ↔
        ∃ begun difs, current = some (begun, difs) ∧
          begun + difs ≤ now ∧
          elapsed slot past +
              ⌊(now - begun - difs) / slot⌋₊ =
            drawn) := by
  constructor
  · intro s clock random cw idle difs hIdle _ hDifs
    rcases start_counts hSlot hIdle hDifs with ⟨s', hOk, -⟩
    exact ⟨s', hOk⟩
  · intro drawn now past current s hRun
    have hCounts := hRun.counts hSlot
    refine ⟨hCounts.queued, ⟨_, hCounts.rest⟩, ?_, ?_,
      hCounts.stop, ?_, hCounts.due_iff hSlot⟩
    · rintro rfl difs hDifs
      rcases hCounts.resume hSlot hDifs with ⟨s', hOk, -⟩
      exact ⟨s', hOk⟩
    · intro hCurrent
      cases current with
      | none => exact absurd rfl hCurrent
      | some interval =>
          rcases hCounts.pause hSlot with ⟨s', hOk, -⟩
          exact ⟨s', hOk⟩
    · intro hDue
      refine ⟨rfl, ?_⟩
      cases current with
      | none =>
          rw [(hCounts.halted rfl).2] at hDue
          exact absurd hDue List.not_mem_nil
      | some interval =>
          rcases hCounts.running interval.1 interval.2 rfl with
            ⟨-, -, -, -, -, -, hQueue⟩
          exact congrArg List.tail hQueue

/- Seven of eight slots of 20 are drawn, and DIFS is 50. -/
theorem backoff_counts_seven :
    ∃ s : BackoffRfidTimer,
      Run 20 7 0 [] (some (0, 50)) s ∧
        (∃ n : Nat, s.rtime = n * 20) ∧
        ∃ s', s.pause 0 20 = .ok s' := by
  have hAll := backoff_counts_slots 20 (by norm_num)
  rcases hAll.1 ⟨false, false, 0, 0, 0, []⟩ 0 7 8 true 50
      ⟨rfl, rfl⟩ (by decide) (by norm_num) with
    ⟨s, hStart⟩
  have hRun : Run 20 7 0 [] (some (0, 50)) s :=
    .start ⟨rfl, rfl⟩ (by decide) (by norm_num) rfl hStart
  rcases hAll.2 7 0 [] (some (0, 50)) s hRun with
    ⟨-, hSlots, -, hPause, -⟩
  exact ⟨s, hRun, hSlots, hPause nofun⟩

end BackoffRfidTimer

end Mac

end Ns2
