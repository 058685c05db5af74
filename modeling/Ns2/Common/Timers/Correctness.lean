import Ns2.Common.EventLoop.Correctness
import Ns2.Common.Timers.Operations
import Ns2.Lib.PartialRun

/-
  Timers and the event queue agree.

  A timer is pending exactly when its event is queued, at
  every moment of a run.  The history of a timer is that of
  an alarm: every time it was set, it was next cancelled,
  set again or expired, the last exactly when it was due.

  Main declarations:
    * `World.Linked`, `World.Unlinked`
    * `Alarm`, `Agrees`
    * `Agrees.call`, `Agrees.next`
    * `Timers.timers_agree`
-/

------------------------------------------------------------
-- Scheduler Calls
------------------------------------------------------------

namespace Ns2

namespace World

variable {ι H T : Type} [DecidableEq ι] [LinearOrder T]

/- The handler that an event object was scheduled with. -/
def handlerOf
    (w : World ι H T)
    (e : ι) : Option H :=
  (w.sim.objects e).handler

/- `e` was put into the queue. -/
structure Linked
    [Add T]
    (w w' : World ι H T)
    (h : H)
    (e : ι)
    (delay : T) : Prop where
  mem : ∀ f, f ∈ w'.sim.queue ↔ f = e ∨ f ∈ w.sim.queue
  clock_eq : w'.sim.clock = w.sim.clock
  due_self : w'.sim.due e = w.sim.clock + delay
  due_of_ne : ∀ f, f ≠ e → w'.sim.due f = w.sim.due f
  handler_self : w'.handlerOf e = some h
  handler_of_ne :
    ∀ f, f ≠ e → w'.handlerOf f = w.handlerOf f
  issued_eq : w'.issued.length = w.issued.length + 1

/- `e` was taken out of the queue. -/
structure Unlinked
    (w w' : World ι H T)
    (e : ι) : Prop where
  mem : ∀ f, f ∈ w'.sim.queue ↔ f ≠ e ∧ f ∈ w.sim.queue
  due_eq : w'.sim.due = w.sim.due
  handler_eq : w'.handlerOf = w.handlerOf
  issued_eq : w'.issued = w.issued

/- The due times and the handlers are the same. -/
structure Kept
    (s s' : Simulator ι H T) : Prop where
  due_eq : s'.due = s.due
  handler_eq : ∀ e,
    (s'.objects e).handler = (s.objects e).handler

omit [LinearOrder T] in
theorem flipUid_kept
    (s : Simulator ι H T)
    (e : ι) :
    Kept s (s.flipUid e) := by
  constructor
  case due_eq => exact Simulator.flipUid_due s e
  case handler_eq =>
    intro f
    by_cases hEq : f = e
    · subst hEq
      simp [Simulator.flipUid]
    · simp [Simulator.flipUid, hEq]

omit [LinearOrder T] in
theorem cancel_kept
    {s s' : Simulator ι H T}
    {e : ι}
    (hOk : s.cancel e = .ok s') :
    Kept s s' := by
  unfold Simulator.cancel at hOk
  split_ifs at hOk with hFree
  · cases hOk
    exact ⟨rfl, fun _ => rfl⟩
  · cases hUnlink : ListScheduler.unlink e s.queue with
    | none => simp [hUnlink] at hOk
    | some queue =>
        simp only [hUnlink, Except.ok.injEq] at hOk
        subst hOk
        have hFlip := flipUid_kept { s with queue := queue } e
        exact ⟨hFlip.due_eq, hFlip.handler_eq⟩

theorem next_kept
    {s s' : Simulator ι H T}
    {taken : Option ι}
    (hOk : s.next = .ok (taken, s')) :
    Kept s s' := by
  unfold Simulator.next at hOk
  split_ifs at hOk with hHalted
  · cases hOk
    exact ⟨rfl, fun _ => rfl⟩
  · cases hQueue : s.queue with
    | nil =>
        simp only [hQueue, ListScheduler.deque] at hOk
        cases hOk
        exact ⟨rfl, fun _ => rfl⟩
    | cons e rest =>
        simp only [hQueue, ListScheduler.deque,
          Simulator.dispatch] at hOk
        split_ifs at hOk with hLate
        · cases hOk
        · cases hOk
          have hFlip := flipUid_kept
            { s with clock := s.due e, queue := rest } e
          exact ⟨hFlip.due_eq, hFlip.handler_eq⟩

/- An event that is not queued is queued by the call. -/
theorem Good.link
    [AddZeroClass T] [AddLeftMono T]
    {w : World ι H T}
    (hGood : Good w)
    {h : H}
    {e : ι}
    {delay : T}
    (hDelay : 0 ≤ delay)
    (hOut : e ∉ w.sim.queue) :
    (w.issued.length < uidMax →
      ∃ w', w.call (.schedule h e delay) = .ok w' ∧
        Good w' ∧ Linked w w' h e delay) ∧
    (uidMax ≤ w.issued.length →
      w.call (.schedule h e delay) =
        .error .uidSpaceExhausted) := by
  have hCounter := hGood.ledger.counter
  rcases w.sim.schedule_cases h e delay with
    ⟨hPos, _⟩ | ⟨_, hNeg, hError⟩ |
      ⟨_, hLeft, s', hOk, hSched⟩
  · exact absurd ((hGood.consistent.queued e).mpr hPos) hOut
  · refine ⟨?_, ?_⟩
    · intro hIds
      exact absurd (hCounter.neg_iff.mp hNeg)
        (not_le.mpr hIds)
    · intro _
      rw [call, hError]
      rfl
  · refine ⟨?_, ?_⟩
    · intro _
      have hCall : w.call (.schedule h e delay) =
          .ok ⟨s', .scheduled e w.sim.uid w.sim.clock delay ::
            w.log⟩ := by
        rw [call, hOk]
        rfl
      refine ⟨_, hCall, (hGood.schedule hDelay hCall).1, ?_⟩
      have hObjects : s'.objects =
          Function.update w.sim.objects e
            ⟨some h, w.sim.clock + delay, w.sim.uid⟩ := by
        unfold Simulator.schedule at hOk
        simp only at hOk
        split_ifs at hOk
        cases hOk
        rfl
      constructor
      case mem =>
        intro f
        rw [hSched.queue_eq, SortedQueue.mem_insert]
      case clock_eq => exact hSched.clock_eq
      case due_self => exact hSched.due_self
      case due_of_ne => exact hSched.due_of_ne
      case handler_self => simp [handlerOf, hObjects]
      case handler_of_ne =>
        intro f hNe
        simp [handlerOf, hObjects, hNe]
      case issued_eq => rfl
    · intro hIds
      exact absurd (hCounter.neg_iff.mpr hIds) hLeft

/- A queued event is taken out by the call. -/
theorem Good.unlink
    [Add T]
    {w : World ι H T}
    (hGood : Good w)
    (e : ι) :
    ∃ w', w.call (.cancel e) = .ok w' ∧ Good w' ∧
      w'.sim.clock = w.sim.clock ∧ Unlinked w w' e := by
  rcases hGood.cancel e with
    ⟨w', hOk, hGood', hClock, hQueue, hIssued⟩
  have hKept : Kept w.sim w'.sim := by
    simp only [call] at hOk
    cases hCancel : w.sim.cancel e with
    | error a =>
        rw [hCancel] at hOk
        cases hOk
    | ok s' =>
        rw [hCancel] at hOk
        cases hOk
        exact cancel_kept hCancel
  refine ⟨w', hOk, hGood', hClock, ?_⟩
  constructor
  case mem =>
    intro f
    rw [hQueue, hGood.consistent.nodup.mem_erase_iff]
  case due_eq => exact hKept.due_eq
  case handler_eq =>
    funext f
    exact hKept.handler_eq f
  case issued_eq => exact hIssued

/-
  A round takes the first event out, at its due time, or
  leaves everything as it was.
-/
theorem Good.take
    [Add T]
    {w : World ι H T}
    (hGood : Good w) :
    w.next = .ok (none, w) ∨
    ∃ e w', w.next = .ok (some e, w') ∧ Good w' ∧
      e ∈ w.sim.queue ∧ w'.sim.clock = w.sim.due e ∧
      Unlinked w w' e := by
  rcases hGood.next with ⟨r, hOk, hGood', _, _⟩
  rcases Simulator.next_cases hGood.consistent with
    ⟨_, hNext⟩ | ⟨_, _, hNext⟩ |
      ⟨_, e, s', hNext, hClock, hRemoved, _⟩
  · refine Or.inl ?_
    simp only [World.next, hNext]
    rfl
  · refine Or.inl ?_
    simp only [World.next, hNext]
    rfl
  · have hWorld : w.next =
        .ok (some e, ⟨s', .dispatched e (w.sim.uidOf e)
          s'.clock :: w.log⟩) := by
      simp only [World.next, hNext]
      rfl
    rw [hWorld] at hOk
    cases hOk
    refine Or.inr ⟨e, _, hWorld, hGood', hRemoved.mem,
      hClock, ?_⟩
    constructor
    case mem =>
      intro f
      rw [hRemoved.queue_eq,
        hGood.consistent.nodup.mem_erase_iff]
    case due_eq => exact hRemoved.due_eq
    case handler_eq =>
      funext f
      exact (next_kept hNext).handler_eq f
    case issued_eq => rfl

end World

end Ns2

------------------------------------------------------------
-- Histories
------------------------------------------------------------

namespace Ns2

/-
  A history, and when the timer is due that has it.  What
  ends the time of a timer does not come late, and it
  expires exactly when it is due.
-/
inductive Alarm {T : Type} [Add T] [LE T] :
    Option T → List (TimerEntry T) → Prop where
| new : Alarm none []
| set
    {now delay : T}
    {older : List (TimerEntry T)}
    (hOld : Alarm none older) :
    Alarm (some (now + delay)) (.set now delay :: older)
| reset
    {due now delay : T}
    {older : List (TimerEntry T)}
    (hOld : Alarm (some due) older)
    (hNow : now ≤ due) :
    Alarm (some (now + delay)) (.set now delay :: older)
| cancelled
    {due now : T}
    {older : List (TimerEntry T)}
    (hOld : Alarm (some due) older)
    (hNow : now ≤ due) :
    Alarm none (.cancelled now :: older)
| expired
    {due : T}
    {older : List (TimerEntry T)}
    (hOld : Alarm (some due) older) :
    Alarm none (.expired due :: older)

namespace TimerEntry

variable {T : Type}

/- The entry ends the time of a timer due then. -/
def Ends
    [LE T]
    (due : T) :
    TimerEntry T → Prop
| .set now _ => now ≤ due
| .cancelled now => now ≤ due
| .expired now => now = due

end TimerEntry

namespace Alarm

variable {T : Type} [Add T] [LE T]
variable {due : Option T}
variable {history : List (TimerEntry T)}

/- The last entry of a pending timer is the one that set it. -/
theorem head_set
    {d : T}
    (hAlarm : Alarm (some d) history) :
    ∃ now delay older,
      history = .set now delay :: older ∧ d = now + delay := by
  cases hAlarm with
  | set _ => exact ⟨_, _, _, rfl, rfl⟩
  | reset _ _ => exact ⟨_, _, _, rfl, rfl⟩

/- What a timer was set for, when it was set last. -/
theorem due_of_head
    {now delay : T}
    {older : List (TimerEntry T)}
    (hAlarm : Alarm due (.set now delay :: older)) :
    due = some (now + delay) := by
  cases hAlarm with
  | set _ => rfl
  | reset _ _ => rfl

/- A history without its last entry is one, too. -/
theorem tail
    {entry : TimerEntry T}
    {older : List (TimerEntry T)}
    (hAlarm : Alarm due (entry :: older)) :
    ∃ before, Alarm before older ∧
      ∀ d, before = some d → entry.Ends d := by
  cases hAlarm with
  | set hOld => exact ⟨none, hOld, nofun⟩
  | reset hOld hNow =>
      refine ⟨_, hOld, ?_⟩
      rintro d ⟨⟩
      exact hNow
  | cancelled hOld hNow =>
      refine ⟨_, hOld, ?_⟩
      rintro d ⟨⟩
      exact hNow
  | expired hOld =>
      refine ⟨_, hOld, ?_⟩
      rintro d ⟨⟩
      exact rfl

theorem suffix
    {newer older : List (TimerEntry T)}
    (hAlarm : Alarm due (newer ++ older)) :
    ∃ before, Alarm before older := by
  induction newer generalizing due with
  | nil => exact ⟨due, hAlarm⟩
  | cons entry newer ih =>
      rcases hAlarm.tail with ⟨before, hTail, _⟩
      exact ih hTail

/- Whenever a timer was set, the next entry ends its time. -/
theorem next_ends
    {entry : TimerEntry T}
    {newer older : List (TimerEntry T)}
    {now delay : T}
    (hAlarm :
      Alarm due
        (newer ++ entry :: .set now delay :: older)) :
    entry.Ends (now + delay) := by
  rcases hAlarm.suffix with ⟨_, hEntry⟩
  rcases hEntry.tail with ⟨before, hSet, hEnds⟩
  exact hEnds _ hSet.due_of_head

/- Whenever a timer expired, it was set before for then. -/
theorem set_before
    {newer older : List (TimerEntry T)}
    {now : T}
    (hAlarm : Alarm due (newer ++ .expired now :: older)) :
    ∃ earlier delay oldest,
      older = .set earlier delay :: oldest ∧
        now = earlier + delay := by
  rcases hAlarm.suffix with ⟨_, hExpired⟩
  cases hExpired with
  | expired hOld => exact hOld.head_set

/- A timer that is not pending was not set last. -/
theorem not_set
    {now delay : T}
    {older : List (TimerEntry T)} :
    ¬ Alarm none (.set now delay :: older) := by
  intro hAlarm
  cases hAlarm.due_of_head

end Alarm

end Ns2

------------------------------------------------------------
-- Invariant
------------------------------------------------------------

namespace Ns2

variable {τ ε η T : Type}
variable [DecidableEq τ] [DecidableEq ε] [LinearOrder T]

/- When the event of a timer is due. -/
def Timers.due
    (s : Timers τ ε η T)
    (t : τ) : T :=
  s.world.sim.due (.inl t)

namespace Timers

variable (s : Timers τ ε η T)
variable (t : τ)
variable (status : TimerStatus)
variable (entry : TimerEntry T)

omit [DecidableEq ε] [LinearOrder T] in
@[simp] theorem mark_status_self :
    (s.mark t status entry).status_ t = status := by
  simp [mark]

omit [DecidableEq ε] [LinearOrder T] in
@[simp] theorem mark_history_self :
    (s.mark t status entry).history t =
      entry :: s.history t := by
  simp [mark]

variable {t}

omit [DecidableEq ε] [LinearOrder T] in
@[simp] theorem mark_status_of_ne
    {u : τ}
    (hNe : u ≠ t) :
    (s.mark t status entry).status_ u = s.status_ u := by
  simp [mark, hNe]

omit [DecidableEq ε] [LinearOrder T] in
@[simp] theorem mark_history_of_ne
    {u : τ}
    (hNe : u ≠ t) :
    (s.mark t status entry).history u = s.history u := by
  simp [mark, hNe]

end Timers

/- Status, queue and history agree for every timer. -/
structure Agrees
    [Add T]
    (s : Timers τ ε η T) : Prop where
  good : World.Good s.world
  handler : ∀ t, .inl t ∈ s.queue →
    s.world.handlerOf (.inl t) = some (.inl t)
  other : ∀ e, .inr e ∈ s.queue →
    ∃ h, s.world.handlerOf (.inr e) = some (.inr h)
  pending : ∀ t,
    s.status_ t = .TIMER_PENDING ↔ .inl t ∈ s.queue
  handling : ∀ t, s.status_ t = .TIMER_HANDLING →
    s.running = some (.inl t)
  queued : ∀ t, .inl t ∈ s.queue →
    Alarm (some (s.due t)) (s.history t)
  idle : ∀ t, .inl t ∉ s.queue → Alarm none (s.history t)

/-
  They agree but for `t`, whose event is not queued and which
  was due at `d` by its history.
-/
structure Beside
    [Add T]
    (s : Timers τ ε η T)
    (t : τ)
    (d : Option T) : Prop where
  good : World.Good s.world
  handler : ∀ u, .inl u ∈ s.queue →
    s.world.handlerOf (.inl u) = some (.inl u)
  other : ∀ e, .inr e ∈ s.queue →
    ∃ h, s.world.handlerOf (.inr e) = some (.inr h)
  out : .inl t ∉ s.queue
  pending : ∀ u, u ≠ t →
    (s.status_ u = .TIMER_PENDING ↔ .inl u ∈ s.queue)
  handling : ∀ u, u ≠ t → s.status_ u = .TIMER_HANDLING →
    s.running = some (.inl u)
  queued : ∀ u, .inl u ∈ s.queue →
    Alarm (some (s.due u)) (s.history u)
  idle : ∀ u, u ≠ t → .inl u ∉ s.queue →
    Alarm none (s.history u)
  alarm : Alarm d (s.history t)

namespace Agrees

variable [Add T]
variable {s : Timers τ ε η T}

omit [DecidableEq τ] [DecidableEq ε] in
/- A timer that is not pending can be looked at apart. -/
theorem beside
    (hs : Agrees s)
    {t : τ}
    (hOut : .inl t ∉ s.queue) :
    Beside s t none where
  good := hs.good
  handler := hs.handler
  other := hs.other
  out := hOut
  pending := fun u _ => hs.pending u
  handling := fun u _ => hs.handling u
  queued := hs.queued
  idle := fun u _ => hs.idle u
  alarm := hs.idle t hOut

omit [DecidableEq τ] [DecidableEq ε] in
/- Taking the event of another kind out changes nothing. -/
theorem unlinkOther
    (hs : Agrees s)
    {e : ε}
    {w : World (τ ⊕ ε) (τ ⊕ η) T}
    (hGood : World.Good w)
    (hUnlinked : World.Unlinked s.world w (.inr e)) :
    Agrees { s with world := w } := by
  have hMem : ∀ t, .inl t ∈ w.sim.queue ↔ .inl t ∈ s.queue := by
    intro t
    rw [hUnlinked.mem]
    exact and_iff_right nofun
  constructor
  case good => exact hGood
  case handler =>
    intro t ht
    change w.handlerOf _ = _
    rw [hUnlinked.handler_eq]
    exact hs.handler t ((hMem t).mp ht)
  case other =>
    intro f hf
    change ∃ h, w.handlerOf _ = _
    rw [hUnlinked.handler_eq]
    exact hs.other f ((hUnlinked.mem _).mp hf).2
  case pending =>
    intro t
    exact (hs.pending t).trans (hMem t).symm
  case handling => exact hs.handling
  case queued =>
    intro t ht
    change Alarm (some (w.sim.due _)) _
    rw [hUnlinked.due_eq]
    exact hs.queued t ((hMem t).mp ht)
  case idle =>
    intro t ht
    exact hs.idle t (mt (hMem t).mpr ht)

omit [DecidableEq τ] [DecidableEq ε] in
theorem linkOther
    (hs : Agrees s)
    {h : η}
    {e : ε}
    {delay : T}
    {w : World (τ ⊕ ε) (τ ⊕ η) T}
    (hGood : World.Good w)
    (hLinked :
      World.Linked s.world w (.inr h) (.inr e) delay) :
    Agrees { s with world := w } := by
  have hMem : ∀ t, .inl t ∈ w.sim.queue ↔ .inl t ∈ s.queue := by
    intro t
    rw [hLinked.mem]
    exact or_iff_right nofun
  constructor
  case good => exact hGood
  case handler =>
    intro t ht
    change w.handlerOf _ = _
    rw [hLinked.handler_of_ne _ Sum.inl_ne_inr]
    exact hs.handler t ((hMem t).mp ht)
  case other =>
    intro f hf
    change ∃ h, w.handlerOf _ = _
    by_cases hEq : f = e
    · subst hEq
      exact ⟨h, hLinked.handler_self⟩
    · have hNe : (.inr f : τ ⊕ ε) ≠ .inr e :=
        fun hSame => hEq (Sum.inr.inj hSame)
      rw [hLinked.handler_of_ne _ hNe]
      rcases (hLinked.mem _).mp hf with hSame | hOld
      · exact absurd hSame hNe
      · exact hs.other f hOld
  case pending =>
    intro t
    exact (hs.pending t).trans (hMem t).symm
  case handling => exact hs.handling
  case queued =>
    intro t ht
    change Alarm (some (w.sim.due _)) _
    rw [hLinked.due_of_ne _ Sum.inl_ne_inr]
    exact hs.queued t ((hMem t).mp ht)
  case idle =>
    intro t ht
    exact hs.idle t (mt (hMem t).mpr ht)

omit [DecidableEq τ] [DecidableEq ε] in
/- The timer whose event was taken out is to be marked. -/
theorem unlink
    (hs : Agrees s)
    {t : τ}
    (hQueued : .inl t ∈ s.queue)
    {w : World (τ ⊕ ε) (τ ⊕ η) T}
    (hGood : World.Good w)
    (hUnlinked : World.Unlinked s.world w (.inl t)) :
    Beside { s with world := w } t (some (s.due t)) := by
  have hMem : ∀ u, u ≠ t →
      (.inl u ∈ w.sim.queue ↔ .inl u ∈ s.queue) := by
    intro u hNe
    rw [hUnlinked.mem]
    exact and_iff_right
      (fun hSame => hNe (Sum.inl.inj hSame))
  have hOut : .inl t ∉ w.sim.queue := by
    intro ht
    exact ((hUnlinked.mem _).mp ht).1 rfl
  have hNe : ∀ u, .inl u ∈ w.sim.queue → u ≠ t := by
    rintro u hu rfl
    exact hOut hu
  constructor
  case good => exact hGood
  case handler =>
    intro u hu
    change w.handlerOf _ = _
    rw [hUnlinked.handler_eq]
    exact hs.handler u ((hMem u (hNe u hu)).mp hu)
  case other =>
    intro f hf
    change ∃ h, w.handlerOf _ = _
    rw [hUnlinked.handler_eq]
    exact hs.other f ((hUnlinked.mem _).mp hf).2
  case out => exact hOut
  case pending =>
    intro u hu
    exact (hs.pending u).trans (hMem u hu).symm
  case handling => exact fun u _ => hs.handling u
  case queued =>
    intro u hu
    change Alarm (some (w.sim.due _)) _
    rw [hUnlinked.due_eq]
    exact hs.queued u ((hMem u (hNe u hu)).mp hu)
  case idle =>
    intro u hNe' hu
    exact hs.idle u (mt (hMem u hNe').mpr hu)
  case alarm => exact hs.queued t hQueued

end Agrees

namespace Beside

variable [Add T]
variable {s : Timers τ ε η T}
variable {t : τ}
variable {d : Option T}

omit [DecidableEq ε] in
/- The timer is marked as one that is not pending. -/
theorem mark
    (hs : Beside s t d)
    {status : TimerStatus}
    {entry : TimerEntry T}
    (hStatus : status ≠ .TIMER_PENDING)
    (hRunning : status = .TIMER_HANDLING →
      s.running = some (.inl t))
    (hAlarm : Alarm none (entry :: s.history t)) :
    Agrees (s.mark t status entry) := by
  constructor
  case good => exact hs.good
  case handler => exact hs.handler
  case other => exact hs.other
  case pending =>
    intro u
    by_cases hEq : u = t
    · subst hEq
      rw [Timers.mark_status_self]
      exact iff_of_false hStatus hs.out
    · rw [Timers.mark_status_of_ne _ _ _ hEq]
      exact hs.pending u hEq
  case handling =>
    intro u
    by_cases hEq : u = t
    · subst hEq
      rw [Timers.mark_status_self]
      exact hRunning
    · rw [Timers.mark_status_of_ne _ _ _ hEq]
      exact hs.handling u hEq
  case queued =>
    intro u hu
    have hNe : u ≠ t := by
      rintro rfl
      exact hs.out hu
    rw [Timers.mark_history_of_ne _ _ _ hNe]
    exact hs.queued u hu
  case idle =>
    intro u hu
    by_cases hEq : u = t
    · subst hEq
      rw [Timers.mark_history_self]
      exact hAlarm
    · rw [Timers.mark_history_of_ne _ _ _ hEq]
      exact hs.idle u hEq hu

omit [DecidableEq ε] in
/- The event is queued, and the timer marked as pending. -/
theorem link
    (hs : Beside s t d)
    {delay : T}
    {entry : TimerEntry T}
    {w : World (τ ⊕ ε) (τ ⊕ η) T}
    (hGood : World.Good w)
    (hLinked :
      World.Linked s.world w (.inl t) (.inl t) delay)
    (hAlarm :
      Alarm (some (s.clock + delay)) (entry :: s.history t)) :
    Agrees
      (Timers.mark { s with world := w } t .TIMER_PENDING
        entry) := by
  have hMem : ∀ u, u ≠ t →
      (.inl u ∈ w.sim.queue ↔ .inl u ∈ s.queue) := by
    intro u hNe
    rw [hLinked.mem]
    exact or_iff_right
      (fun hSame => hNe (Sum.inl.inj hSame))
  have hIn : .inl t ∈ w.sim.queue :=
    (hLinked.mem _).mpr (Or.inl rfl)
  constructor
  case good => exact hGood
  case handler =>
    intro u hu
    change w.handlerOf _ = _
    by_cases hEq : u = t
    · subst hEq
      exact hLinked.handler_self
    · rw [hLinked.handler_of_ne _
        (fun hSame => hEq (Sum.inl.inj hSame))]
      exact hs.handler u ((hMem u hEq).mp hu)
  case other =>
    intro f hf
    change ∃ h, w.handlerOf _ = _
    rw [hLinked.handler_of_ne _ Sum.inr_ne_inl]
    rcases (hLinked.mem _).mp hf with hSame | hOld
    · cases hSame
    · exact hs.other f hOld
  case pending =>
    intro u
    by_cases hEq : u = t
    · subst hEq
      rw [Timers.mark_status_self]
      exact iff_of_true rfl hIn
    · rw [Timers.mark_status_of_ne _ _ _ hEq]
      exact (hs.pending u hEq).trans (hMem u hEq).symm
  case handling =>
    intro u
    by_cases hEq : u = t
    · subst hEq
      rw [Timers.mark_status_self]
      exact nofun
    · rw [Timers.mark_status_of_ne _ _ _ hEq]
      exact hs.handling u hEq
  case queued =>
    intro u hu
    change Alarm (some (w.sim.due _)) _
    by_cases hEq : u = t
    · subst hEq
      rw [hLinked.due_self, Timers.mark_history_self]
      exact hAlarm
    · rw [hLinked.due_of_ne _
          (fun hSame => hEq (Sum.inl.inj hSame)),
        Timers.mark_history_of_ne _ _ _ hEq]
      exact hs.queued u ((hMem u hEq).mp hu)
  case idle =>
    intro u hu
    have hEq : u ≠ t := by
      rintro rfl
      exact hu hIn
    rw [Timers.mark_history_of_ne _ _ _ hEq]
    exact hs.idle u hEq (mt (hMem u hEq).mpr hu)

end Beside

end Ns2

------------------------------------------------------------
-- Actions
------------------------------------------------------------

namespace Ns2

variable {τ ε η T : Type}
variable [DecidableEq τ] [DecidableEq ε] [LinearOrder T]

/- An action is taken, or the ids of events have run out. -/
def Taken
    [Add T]
    (s : Timers τ ε η T)
    (result : Except TimerAbort (Timers τ ε η T)) : Prop :=
  (∃ s', result = .ok s' ∧ Agrees s') ∨
    (result = .error (.scheduler .uidSpaceExhausted) ∧
      uidMax ≤ s.world.issued.length)

namespace Timers

variable [Add T]
variable {s : Timers τ ε η T}
variable {c : Call (τ ⊕ ε) (τ ⊕ η) T}

theorem scheduler_ok
    {w : World (τ ⊕ ε) (τ ⊕ η) T}
    (hCall : s.world.call c = .ok w) :
    s.scheduler c = .ok { s with world := w } := by
  rw [scheduler, hCall]
  rfl

theorem scheduler_error
    {a : Abort}
    (hCall : s.world.call c = .error a) :
    s.scheduler c = .error (.scheduler a) := by
  rw [scheduler, hCall]
  rfl

end Timers

/- The event of the timer is scheduled and it is marked. -/
theorem Beside.sched
    [AddZeroClass T] [AddLeftMono T]
    {s : Timers τ ε η T}
    {t : τ}
    {d : Option T}
    (hs : Beside s t d)
    {delay : T}
    {entry : TimerEntry T}
    (hDelay : 0 ≤ delay)
    (hAlarm :
      Alarm (some (s.clock + delay))
        (entry :: s.history t)) :
    Taken s
      ((s._sched t delay).map
        (·.mark t .TIMER_PENDING entry)) := by
  rcases hs.good.link hDelay hs.out with ⟨hLeft, hNone⟩
  by_cases hIds : s.world.issued.length < uidMax
  · rcases hLeft hIds with ⟨w, hCall, hGood, hLinked⟩
    refine Or.inl ⟨_, ?_, hs.link hGood hLinked hAlarm⟩
    rw [Timers._sched, Timers.scheduler_ok hCall]
    rfl
  · have hIds := not_lt.mp hIds
    refine Or.inr ⟨?_, hIds⟩
    rw [Timers._sched, Timers.scheduler_error (hNone hIds)]
    rfl

namespace Agrees

section

variable [Add T]
variable {s : Timers τ ε η T}

omit [DecidableEq τ] [DecidableEq ε] in
/- No queued event is late. -/
theorem clock_le
    (hs : Agrees s)
    {t : τ}
    (hQueued : .inl t ∈ s.queue) :
    s.clock ≤ s.due t :=
  hs.good.consistent.clock_le _ hQueued

/- The event of a pending timer is taken out. -/
theorem _cancel
    (hs : Agrees s)
    {t : τ}
    (hPending : s.status_ t = .TIMER_PENDING) :
    ∃ s', s._cancel t = .ok s' ∧
      s'.clock = s.clock ∧
      s'.history = s.history ∧
      s'.world.issued = s.world.issued ∧
      Beside s' t (some (s.due t)) := by
  have hQueued := (hs.pending t).mp hPending
  rcases hs.good.unlink (.inl t) with
    ⟨w, hCall, hGood, hClock, hUnlinked⟩
  refine ⟨{ s with world := w }, ?_, hClock, rfl,
    hUnlinked.issued_eq, hs.unlink hQueued hGood hUnlinked⟩
  exact Timers.scheduler_ok hCall

/- Cancelling a pending timer makes it idle. -/
theorem cancelPending
    (hs : Agrees s)
    {t : τ}
    (hPending : s.status_ t = .TIMER_PENDING) :
    Taken s
      ((s._cancel t).map
        (·.mark t .TIMER_IDLE (.cancelled s.clock))) := by
  rcases hs._cancel hPending with
    ⟨s', hOk, _, _, _, hBeside⟩
  have hLe := hs.clock_le ((hs.pending t).mp hPending)
  rw [hOk]
  exact Or.inl ⟨_, rfl,
    hBeside.mark nofun nofun (.cancelled hBeside.alarm hLe)⟩

theorem cancel
    (hs : Agrees s)
    {t : τ}
    (hPending : s.status_ t = .TIMER_PENDING) :
    Taken s (s.cancel t) := by
  rw [Timers.cancel, if_neg (not_not.mpr hPending)]
  exact hs.cancelPending hPending

theorem force_cancel
    (hs : Agrees s)
    (t : τ) :
    Taken s (s.force_cancel t) := by
  unfold Timers.force_cancel
  split_ifs with hPending
  · exact hs.cancelPending hPending
  · exact Or.inl ⟨s, rfl, hs⟩

theorem cancelOther
    (hs : Agrees s)
    (e : ε) :
    Taken s (s.scheduler (.cancel (.inr e))) := by
  rcases hs.good.unlink (.inr e) with
    ⟨w, hCall, hGood, _, hUnlinked⟩
  exact Or.inl ⟨_, Timers.scheduler_ok hCall,
    hs.unlinkOther hGood hUnlinked⟩

omit [DecidableEq τ] [DecidableEq ε] in
theorem setHalted
    (hs : Agrees s)
    (halted : Bool) :
    Agrees
      { s with
        world :=
          { s.world with
            sim := { s.world.sim with halted := halted } } } where
  good := hs.good.setHalted halted
  handler := hs.handler
  other := hs.other
  pending := hs.pending
  handling := hs.handling
  queued := hs.queued
  idle := hs.idle

/-
  The event that the loop takes belongs to its handler, and
  a timer that is handled was pending.
-/
theorem taken
    (hs : Agrees s)
    {e : τ ⊕ ε}
    {w : World (τ ⊕ ε) (τ ⊕ η) T}
    {t : τ}
    (hNext : s.world.next = .ok (some e, w))
    (hHandler : w.handlerOf e = some (.inl t)) :
    e = .inl t ∧ s.status_ t = .TIMER_PENDING := by
  rcases hs.good.take with
    hNone | ⟨e', w', hSome, _, hMem, _, hUnlinked⟩
  · rw [hNone] at hNext
    cases hNext
  · rw [hSome] at hNext
    cases hNext
    rw [hUnlinked.handler_eq] at hHandler
    cases e with
    | inl u =>
        rw [hs.handler u hMem] at hHandler
        cases hHandler
        exact ⟨rfl, (hs.pending t).mpr hMem⟩
    | inr f =>
        rcases hs.other f hMem with ⟨h, hOther⟩
        rw [hOther] at hHandler
        cases hHandler

omit [DecidableEq τ] [DecidableEq ε] in
/- Between two handlers no timer is being handled. -/
theorem not_handling
    (hs : Agrees s)
    (hReturned : s.running = none)
    (t : τ) :
    s.status_ t ≠ .TIMER_HANDLING := by
  intro hStatus
  have hRunning := hs.handling t hStatus
  rw [hReturned] at hRunning
  cases hRunning

theorem next
    (hs : Agrees s)
    (hReturned : s.running = none) :
    Taken s s.next := by
  refine Or.inl ?_
  rcases hs.good.take with
    hNone | ⟨e, w, hSome, hGood, hMem, hClock, hUnlinked⟩
  · refine ⟨s, ?_, hs⟩
    rw [Timers.next, hNone]
    rfl
  · rw [Timers.next, hSome]
    change ∃ s', Timers.enter { s with world := w }
      (w.handlerOf e) = .ok s' ∧ Agrees s'
    rw [hUnlinked.handler_eq]
    cases e with
    | inl t =>
        have hBeside := hs.unlink hMem hGood hUnlinked
        have hEntered : Beside
            { s with world := w, running := some (.inl t) }
            t (some (s.due t)) :=
          { hBeside with
            handling := fun u _ hStatus =>
              absurd hStatus (hs.not_handling hReturned u) }
        have hAlarm : Alarm none
            (.expired w.sim.clock :: s.history t) := by
          rw [hClock]
          exact .expired hBeside.alarm
        rw [hs.handler t hMem, Timers.enter,
          Timers.beginHandle,
          if_neg (not_not.mpr ((hs.pending t).mpr hMem))]
        exact ⟨_, rfl, hEntered.mark nofun (fun _ => rfl)
          hAlarm⟩
    | inr f =>
        rcases hs.other f hMem with ⟨h, hOther⟩
        have hOut := hs.unlinkOther hGood hUnlinked
        rw [hOther]
        refine ⟨_, rfl, ?_⟩
        exact { hOut with
          handling := fun u hStatus =>
            absurd hStatus (hs.not_handling hReturned u) }

omit [DecidableEq ε] in
/- A timer that was not set again is idle in the end. -/
theorem leave
    (hs : Agrees s) :
    Agrees (s.leave s.running) := by
  have hElse : (∀ t, s.running ≠ some (.inl t)) →
      Agrees { s with running := none } := by
    intro hOther
    exact { hs with
      handling := fun t hStatus =>
        absurd (hs.handling t hStatus) (hOther t) }
  cases hRunning : s.running with
  | none =>
      apply hElse
      rw [hRunning]
      exact nofun
  | some h =>
      cases h with
      | inr h =>
          apply hElse
          rw [hRunning]
          exact nofun
      | inl t =>
          have hSame : ∀ u,
              s.status_ u = .TIMER_HANDLING → u = t := by
            intro u hStatus
            have hOwn := hs.handling u hStatus
            rw [hRunning] at hOwn
            cases hOwn
            rfl
          rw [Timers.leave, Timers.endHandle]
          by_cases hHandling : s.status_ t = .TIMER_HANDLING
          · rw [if_pos hHandling]
            have hOut : .inl t ∉ s.queue := by
              rw [← hs.pending, hHandling]
              exact nofun
            refine { hs with pending := ?_, handling := ?_ }
            · intro u
              by_cases hEq : u = t
              · subst hEq
                simp only [Function.update_self]
                exact iff_of_false nofun hOut
              · simp only [Function.update_of_ne hEq]
                exact hs.pending u
            · intro u
              by_cases hEq : u = t
              · subst hEq
                simp only [Function.update_self]
                exact nofun
              · simp only [Function.update_of_ne hEq]
                exact fun hStatus =>
                  absurd (hSame u hStatus) hEq
          · rw [if_neg hHandling]
            refine { hs with handling := ?_ }
            intro u hStatus
            have hEq := hSame u hStatus
            subst hEq
            exact absurd hStatus hHandling

end

variable [AddZeroClass T] [AddLeftMono T]
variable {s : Timers τ ε η T}

theorem sched
    (hs : Agrees s)
    {t : τ}
    {delay : T}
    (hIdle : s.status_ t = .TIMER_IDLE)
    (hDelay : 0 ≤ delay) :
    Taken s (s.sched t delay) := by
  have hOut : .inl t ∉ s.queue := by
    rw [← hs.pending, hIdle]
    exact nofun
  rw [Timers.sched, if_neg (not_not.mpr hIdle)]
  exact (hs.beside hOut).sched hDelay
    (.set (hs.idle t hOut))

/- A timer can be set again whatever its status is. -/
theorem resched
    (hs : Agrees s)
    (t : τ)
    {delay : T}
    (hDelay : 0 ≤ delay) :
    Taken s (s.resched t delay) := by
  unfold Timers.resched
  by_cases hPending : s.status_ t = .TIMER_PENDING
  · rcases hs._cancel hPending with
      ⟨s', hOk, hClock, hHistory, hIssued, hBeside⟩
    have hLe := hs.clock_le ((hs.pending t).mp hPending)
    have hAlarm : Alarm (some (s'.clock + delay))
        (.set s.clock delay :: s'.history t) := by
      rw [hClock]
      exact .reset hBeside.alarm hLe
    rw [if_pos hPending, hOk]
    have hTaken := hBeside.sched hDelay hAlarm
    unfold Taken at hTaken
    rw [hIssued] at hTaken
    exact hTaken
  · have hOut : .inl t ∉ s.queue :=
      mt (hs.pending t).mpr hPending
    rw [if_neg hPending]
    exact (hs.beside hOut).sched hDelay
      (.set (hs.idle t hOut))

theorem scheduleOther
    (hs : Agrees s)
    {h : η}
    {e : ε}
    {delay : T}
    (hOut : .inr e ∉ s.queue)
    (hDelay : 0 ≤ delay) :
    Taken s
      (s.scheduler
        (.schedule (.inr h) (.inr e) delay)) := by
  rcases @World.Good.link _ _ _ _ _ _ _ _ hs.good (.inr h) _ _
    hDelay hOut with ⟨hLeft, hNone⟩
  by_cases hIds : s.world.issued.length < uidMax
  · rcases hLeft hIds with ⟨w, hCall, hGood, hLinked⟩
    exact Or.inl ⟨_, Timers.scheduler_ok hCall,
      hs.linkOther hGood hLinked⟩
  · have hIds := not_lt.mp hIds
    exact Or.inr ⟨Timers.scheduler_error (hNone hIds), hIds⟩

/- The calls that a handler is allowed to make. -/
theorem call
    (hs : Agrees s)
    {c : TimerCall τ ε η T}
    (hAllowed : s.Allowed (.call c)) :
    Taken s (s.call c) := by
  cases c with
  | sched t delay => exact hs.sched hAllowed.1 hAllowed.2
  | resched t delay => exact hs.resched t hAllowed
  | cancel t => exact hs.cancel hAllowed
  | force_cancel t => exact hs.force_cancel t
  | status t => exact Or.inl ⟨s, rfl, hs⟩
  | scheduleOther h e delay =>
      exact hs.scheduleOther hAllowed.1 hAllowed.2
  | cancelOther e => exact hs.cancelOther e
  | halt =>
      exact Or.inl ⟨_, Timers.scheduler_ok rfl,
        hs.setHalted true⟩

/- Every allowed action is taken, as long as ids are left. -/
theorem step
    (hs : Agrees s)
    {a : TimerAction τ ε η T}
    (hAllowed : s.Allowed a) :
    Taken s (s.step a) := by
  cases a with
  | call c => exact hs.call hAllowed
  | next => exact hs.next hAllowed
  | finish => exact Or.inl ⟨_, rfl, hs.leave⟩
  | resume => exact Or.inl ⟨_, rfl, hs.setHalted false⟩

end Agrees

end Ns2

------------------------------------------------------------
-- Runs
------------------------------------------------------------

namespace Ns2

namespace Timers

variable {τ ε η T : Type}
variable [DecidableEq τ] [DecidableEq ε] [LinearOrder T]
variable [AddZeroClass T]

omit [DecidableEq τ] [DecidableEq ε] in
theorem agrees_init :
    Agrees (init τ ε η T) where
  good := World.init_good
  handler := nofun
  other := nofun
  pending := fun _ => ⟨nofun, nofun⟩
  handling := nofun
  queued := nofun
  idle := fun _ _ => .new

variable [AddLeftMono T]

theorem agrees_act
    {s s' : Timers τ ε η T}
    {a : TimerAction τ ε η T}
    (hs : Agrees s)
    (hAllowed : s.Allowed a)
    (hAct : s.act a = some s') :
    Agrees s' := by
  rcases hs.step hAllowed with ⟨s₁, hOk, hs₁⟩ | ⟨hError, _⟩
  · rw [act, hOk] at hAct
    cases hAct
    exact hs₁
  · rw [act, hError] at hAct
    cases hAct

theorem agrees_run
    {s : Timers τ ε η T}
    {actions : List (TimerAction τ ε η T)}
    (hAllowed : PartialRun.Throughout act Allowed
      (init τ ε η T) actions)
    (hRun : PartialRun.run act (init τ ε η T) actions =
      some s) :
    Agrees s := by
  refine PartialRun.invariant_if ?_ agrees_init hRun hAllowed
  intro s a s' hs hNow hAct
  exact agrees_act hs hNow hAct

/-
  Timers and the event queue agree, at every moment of every
  run.  A timer is pending exactly when its event is queued,
  which it is once at most, and no timer is being handled
  between two handlers.  A timer whose handler is invoked
  was pending.  Until the ids of events run out nothing that
  is allowed aborts, and afterwards only with that abort.
  When the queue is empty, whatever set a timer was next
  followed by a cancel or by setting it again, not after it
  was due, or by an expiration exactly when it was due; and
  a timer expired only when it had just been set for then.
-/
theorem timers_agree
    (actions : List (TimerAction τ ε η T))
    (hAllowed : PartialRun.Throughout act Allowed
      (init τ ε η T) actions)
    (s : Timers τ ε η T)
    (hRun : PartialRun.run act (init τ ε η T) actions =
      some s) :
    (∀ t,
      s.status_ t = .TIMER_PENDING ↔ .inl t ∈ s.queue) ∧
      s.queue.Nodup ∧
      (s.running = none →
        ∀ t, s.status_ t ≠ .TIMER_HANDLING) ∧
      (∀ e w t, s.world.next = .ok (some e, w) →
        w.handlerOf e = some (.inl t) →
          e = .inl t ∧ s.status_ t = .TIMER_PENDING) ∧
      (s.world.issued.length < uidMax →
        ∀ a, s.Allowed a → ∃ s', s.step a = .ok s') ∧
      (∀ a abort, s.Allowed a → s.step a = .error abort →
        abort = .scheduler .uidSpaceExhausted) ∧
      (s.queue = [] → ∀ t,
        (∀ newer now delay older,
          s.history t = newer ++ .set now delay :: older →
            ∃ newest entry, newer = newest ++ [entry] ∧
              entry.Ends (now + delay)) ∧
        (∀ newer now older,
          s.history t = newer ++ .expired now :: older →
            ∃ earlier delay oldest,
              older = .set earlier delay :: oldest ∧
                now = earlier + delay)) := by
  have hs := agrees_run hAllowed hRun
  refine ⟨hs.pending, hs.good.consistent.nodup,
    hs.not_handling, ?_, ?_, ?_, ?_⟩
  · intro e w t hNext hHandler
    exact hs.taken hNext hHandler
  · intro hIds a hNow
    rcases hs.step hNow with ⟨s', hOk, _⟩ | ⟨_, hNone⟩
    · exact ⟨s', hOk⟩
    · exact absurd hNone (not_le.mpr hIds)
  · intro a abort hNow hAbort
    rcases hs.step hNow with ⟨s', hOk, _⟩ | ⟨hError, _⟩
    · rw [hOk] at hAbort
      cases hAbort
    · rw [hError] at hAbort
      cases hAbort
      rfl
  · intro hEmpty t
    have hAlarm : Alarm none (s.history t) := by
      apply hs.idle t
      rw [hEmpty]
      exact List.not_mem_nil
    refine ⟨?_, ?_⟩
    · intro newer now delay older hEq
      rw [hEq] at hAlarm
      rcases List.eq_nil_or_concat newer with
        rfl | ⟨newest, entry, rfl⟩
      · exact absurd hAlarm Alarm.not_set
      · rw [List.concat_eq_append, List.append_assoc]
          at hAlarm
        exact ⟨newest, entry, List.concat_eq_append,
          hAlarm.next_ends⟩
    · intro newer now older hEq
      rw [hEq] at hAlarm
      exact hAlarm.set_before

/-
  A timer that sets itself again when it expires first, and
  cancels another one.
-/
theorem timers_agree_set_again :
    ∃ s : Timers Bool Unit Unit ℤ,
      PartialRun.run act (init Bool Unit Unit ℤ)
        [.call (.sched true 2), .call (.sched false 5), .next,
          .call (.resched true 4), .call (.cancel false),
          .finish, .next, .finish] = some s ∧
      s.queue = [] ∧
      s.history true =
        [.expired 6, .set 2 4, .expired 2, .set 0 2] ∧
      (∀ newer now delay older,
        s.history true = newer ++ .set now delay :: older →
          ∃ newest entry, newer = newest ++ [entry] ∧
            entry.Ends (now + delay)) := by
  let actions : List (TimerAction Bool Unit Unit ℤ) :=
    [.call (.sched true 2), .call (.sched false 5), .next,
      .call (.resched true 4), .call (.cancel false),
      .finish, .next, .finish]
  have hAllowed : PartialRun.Throughout act Allowed
      (init Bool Unit Unit ℤ) actions := by
    refine PartialRun.throughout_cons ⟨rfl, by decide⟩ ?_
    rintro _ ⟨⟩
    refine PartialRun.throughout_cons ⟨rfl, by decide⟩ ?_
    rintro _ ⟨⟩
    refine PartialRun.throughout_cons rfl ?_
    rintro _ ⟨⟩
    refine PartialRun.throughout_cons
      (show (0 : ℤ) ≤ 4 by decide) ?_
    rintro _ ⟨⟩
    refine PartialRun.throughout_cons rfl ?_
    rintro _ ⟨⟩
    refine PartialRun.throughout_cons nofun ?_
    rintro _ ⟨⟩
    refine PartialRun.throughout_cons rfl ?_
    rintro _ ⟨⟩
    refine PartialRun.throughout_cons nofun ?_
    rintro _ ⟨⟩
    exact PartialRun.throughout_nil _
  rcases timers_agree actions hAllowed _ rfl with
    ⟨_, _, _, _, _, _, hEmpty⟩
  exact ⟨_, rfl, rfl, rfl, (hEmpty rfl true).1⟩

end Timers

end Ns2

------------------------------------------------------------
-- Exhausted Ids
------------------------------------------------------------

namespace Ns2

namespace Timers

section

variable {τ ε η T : Type}
variable [DecidableEq τ] [DecidableEq ε] [LinearOrder T]

/- Every event that is scheduled takes an id. -/
theorem issued_sched
    [Add T]
    {s s' : Timers τ ε η T}
    (hGood : World.Good s.world)
    {t : τ}
    {delay : T}
    {status : TimerStatus}
    {entry : TimerEntry T}
    (hOk : (s._sched t delay).map (·.mark t status entry) =
      .ok s') :
    s.world.issued.length < uidMax ∧
      s'.world.issued.length =
        s.world.issued.length + 1 := by
  unfold _sched scheduler World.call at hOk
  rcases s.world.sim.schedule_cases (.inl t) (.inl t) delay
    with ⟨_, hError⟩ | ⟨_, _, hError⟩ | ⟨_, hLeft, sim, hSim, _⟩
  · simp only [hError] at hOk
    cases hOk
  · simp only [hError] at hOk
    cases hOk
  · simp only [hSim] at hOk
    cases hOk
    rw [hGood.ledger.counter.neg_iff] at hLeft
    exact ⟨not_le.mp hLeft, rfl⟩

theorem issued_resched
    [Add T]
    {s s' : Timers τ ε η T}
    (hs : Agrees s)
    {t : τ}
    {delay : T}
    (hOk : s.resched t delay = .ok s') :
    s.world.issued.length < uidMax ∧
      s'.world.issued.length =
        s.world.issued.length + 1 := by
  unfold resched at hOk
  by_cases hPending : s.status_ t = .TIMER_PENDING
  · rcases hs._cancel hPending with
      ⟨s₁, hCancel, _, _, hIssued, hBeside⟩
    rw [if_pos hPending, hCancel] at hOk
    rw [← hIssued]
    exact issued_sched hBeside.good hOk
  · rw [if_neg hPending] at hOk
    exact issued_sched hs.good hOk

end

/- One timer is set again and again. -/
def setAgain : TimerAction Unit Unit Unit ℤ :=
  .call (.resched () 0)

theorem run_setAgain
    (n : Nat)
    (hIds : n ≤ uidMax) :
    ∃ s, PartialRun.Throughout act Allowed
        (init Unit Unit Unit ℤ)
        (List.replicate n setAgain) ∧
      PartialRun.run act (init Unit Unit Unit ℤ)
        (List.replicate n setAgain) = some s ∧
      s.world.issued.length = n := by
  induction n with
  | zero =>
      exact ⟨_, PartialRun.throughout_nil _, rfl, rfl⟩
  | succ n ih =>
      push_cast at hIds
      rcases ih (by omega) with ⟨s, hAllowed, hRun, hCount⟩
      have hs := agrees_run hAllowed hRun
      have hNow : s.Allowed setAgain := le_refl (0 : ℤ)
      rcases hs.step hNow with ⟨s', hOk, _⟩ | ⟨_, hNone⟩
      · refine ⟨s', ?_, ?_, ?_⟩
        · rw [List.replicate_succ',
            PartialRun.throughout_concat hRun]
          exact ⟨hAllowed, hNow⟩
        · rw [List.replicate_succ', PartialRun.run_append,
            hRun]
          simp only [Option.bind_some, PartialRun.run, act,
            hOk]
          rfl
        · rw [(issued_resched hs hOk).2, hCount]
      · omega

/-
  A timer that has been set 2^63 - 1 times cannot be set
  again: the scheduler aborts on its event.
-/
theorem resched_aborts :
    ∃ actions s,
      PartialRun.Throughout act Allowed
        (init Unit Unit Unit ℤ) actions ∧
      PartialRun.run act (init Unit Unit Unit ℤ) actions =
        some s ∧
      s.Allowed setAgain ∧
      s.step setAgain =
        .error (.scheduler .uidSpaceExhausted) := by
  have hIds : ((2 ^ 63 - 1 : Nat) : Int) = uidMax := by
    decide
  rcases run_setAgain (2 ^ 63 - 1) hIds.le with
    ⟨s, hAllowed, hRun, hCount⟩
  have hs := agrees_run hAllowed hRun
  have hNow : s.Allowed setAgain := le_refl (0 : ℤ)
  refine ⟨_, s, hAllowed, hRun, hNow, ?_⟩
  rcases hs.step hNow with ⟨s', hOk, _⟩ | ⟨hError, _⟩
  · have hLeft := (issued_resched hs hOk).1
    rw [hCount] at hLeft
    exact absurd hIds hLeft.ne
  · exact hError

end Timers

end Ns2
