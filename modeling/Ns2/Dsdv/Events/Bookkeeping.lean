import Ns2.Dsdv.Events.Operations
import Ns2.Lib.References

/-
  Which entry points to which event.

  Every event in the queue is pointed to by one entry, and no
  entry points to another event.  An event that is handled is
  out of the queue and in hand, until it is scheduled again or
  deleted.

  Main declarations:
    * `EventTable.trigger`, `EventTable.timeout`
    * `EventQueue.Live`, `EventQueue.Sane`
    * `Books`
-/

------------------------------------------------------------
-- The Scheduler
------------------------------------------------------------

namespace Ns2

namespace Dsdv

abbrev InHand := Option (EventHandler × Nat)

namespace EventQueue

/- An event that `h` will handle, or that is handled now. -/
def Live
    (q : EventQueue)
    (periodic : Option Nat)
    (hand : InHand)
    (h : EventHandler)
    (e : Nat) : Prop :=
  ((∃ x, q.queue e = some x ∧ x.handler_ = h) ∧
      periodic ≠ some e) ∨
    hand = some (h, e)

/- Events in use have an address, and were not deleted. -/
structure Sane
    (q : EventQueue)
    (periodic : Option Nat)
    (hand : InHand) : Prop where
  queued : ∀ e, q.queue e ≠ none →
    e < q.unused ∧ q.deleted e = false
  callback : ∀ e, periodic = some e →
    e < q.unused ∧ q.deleted e = false ∧
      ∀ x, q.queue e = some x → x.handler_ = .helper_
  handled : ∀ h e, hand = some (h, e) →
    e < q.unused ∧ q.deleted e = false ∧
      q.queue e = none ∧ periodic ≠ some e
  fresh : ∀ e, q.unused ≤ e → q.deleted e = false

variable {q : EventQueue}
variable {periodic : Option Nat}
variable {hand : InHand}
variable {h h' : EventHandler}
variable {e x : Nat}
variable {t : Rat}

@[simp] theorem schedule_cancel :
    (q.cancel e).schedule e h t = q.schedule e h t := by
  unfold cancel schedule
  congr 1
  funext x
  dsimp only
  split <;> rfl

theorem Sane.live
    (hSane : q.Sane periodic hand)
    (hLive : q.Live periodic hand h e) :
    e < q.unused ∧ q.deleted e = false ∧
      periodic ≠ some e := by
  rcases hLive with ⟨⟨y, hy, _⟩, hOther⟩ | hHand
  · have hIn := hSane.queued e (by rw [hy]; simp)
    exact ⟨hIn.1, hIn.2, hOther⟩
  · have hIn := hSane.handled h e hHand
    exact ⟨hIn.1, hIn.2.1, hIn.2.2.2⟩

/- An event has one handler. -/
theorem Sane.one
    (hSane : q.Sane periodic hand)
    (hLive : q.Live periodic hand h e)
    (hLive' : q.Live periodic hand h' e) :
    h = h' := by
  rcases hLive with ⟨⟨y, hy, rfl⟩, _⟩ | hHand
  · rcases hLive' with ⟨⟨y', hy', rfl⟩, _⟩ | hHand'
    · rw [hy] at hy'
      cases hy'
      rfl
    · rw [(hSane.handled h' e hHand').2.2.1] at hy
      cases hy
  · rcases hLive' with ⟨⟨y', hy', rfl⟩, _⟩ | hHand'
    · rw [(hSane.handled h e hHand).2.2.1] at hy'
      cases hy'
    · rw [hHand] at hHand'
      cases hHand'
      rfl

/- The next event is not in use. -/
theorem Sane.not_live_unused
    (hSane : q.Sane periodic hand) :
    ¬q.Live periodic hand h q.unused :=
  fun hLive => absurd (hSane.live hLive).1 (lt_irrefl _)

theorem Sane.schedule
    (hSane : q.Sane periodic hand)
    (hUsed : e < q.unused)
    (hKept : q.deleted e = false)
    (hHand : ∀ h', hand ≠ some (h', e))
    (hHelper : periodic = some e → h = .helper_) :
    (q.schedule e h t).Sane periodic hand := by
  constructor
  case queued =>
    intro x hx
    by_cases hSame : x = e
    · rw [hSame]
      exact ⟨hUsed, hKept⟩
    · apply hSane.queued x
      simpa [EventQueue.schedule, hSame] using hx
  case callback =>
    intro x hx
    have hIn := hSane.callback x hx
    refine ⟨hIn.1, hIn.2.1, fun y hy => ?_⟩
    by_cases hSame : x = e
    · subst hSame
      simp only [EventQueue.schedule, if_pos,
        Option.some.injEq] at hy
      rw [← hy]
      exact hHelper hx
    · apply hIn.2.2 y
      simpa [EventQueue.schedule, hSame] using hy
  case handled =>
    intro h' x hx
    have hIn := hSane.handled h' x hx
    have hNe : x ≠ e := by
      intro hSame
      rw [hSame] at hx
      exact hHand h' hx
    exact ⟨hIn.1, hIn.2.1,
      by simpa [EventQueue.schedule, hNe] using hIn.2.2.1,
      hIn.2.2.2⟩
  case fresh => exact hSane.fresh

theorem Sane.newEvent
    (hSane : q.Sane periodic hand) :
    q.newEvent.2.Sane periodic hand := by
  have hMore : ∀ x, x < q.unused → x < q.unused + 1 :=
    fun x hx => Nat.lt_succ_of_lt hx
  constructor
  case queued =>
    intro x hx
    exact ⟨hMore x (hSane.queued x hx).1, (hSane.queued x hx).2⟩
  case callback =>
    intro x hx
    exact ⟨hMore x (hSane.callback x hx).1,
      (hSane.callback x hx).2⟩
  case handled =>
    intro h x hx
    exact ⟨hMore x (hSane.handled h x hx).1,
      (hSane.handled h x hx).2⟩
  case fresh =>
    exact fun x hx => hSane.fresh x (Nat.le_of_succ_le hx)

/- What is cancelled may be taken in hand. -/
theorem Sane.cancel
    (hSane : q.Sane periodic hand) :
    (q.cancel e).Sane periodic hand := by
  have hSub : ∀ x y, (q.cancel e).queue x = some y →
      q.queue x = some y := by
    intro x y hx
    unfold EventQueue.cancel at hx
    dsimp only at hx
    split at hx
    · cases hx
    · exact hx
  constructor
  case queued =>
    intro x hx
    rcases Option.ne_none_iff_exists'.mp hx with ⟨y, hy⟩
    exact hSane.queued x (by rw [hSub x y hy]; simp)
  case callback =>
    intro x hx
    have hIn := hSane.callback x hx
    exact ⟨hIn.1, hIn.2.1, fun y hy => hIn.2.2 y (hSub x y hy)⟩
  case handled =>
    intro h x hx
    have hIn := hSane.handled h x hx
    refine ⟨hIn.1, hIn.2.1, ?_, hIn.2.2.2⟩
    unfold EventQueue.cancel
    dsimp only
    rw [hIn.2.2.1, ite_self]
  case fresh => exact hSane.fresh

theorem Sane.letGo
    (hSane : q.Sane periodic hand) :
    q.Sane periodic none := by
  constructor
  case queued => exact hSane.queued
  case callback => exact hSane.callback
  case handled =>
    intro h x hx
    cases hx
  case fresh => exact hSane.fresh

theorem Sane.take
    (hSane : q.Sane periodic none)
    (hUsed : e < q.unused)
    (hKept : q.deleted e = false)
    (hOut : q.queue e = none)
    (hOther : periodic ≠ some e) :
    q.Sane periodic (some (h, e)) := by
  constructor
  case queued => exact hSane.queued
  case callback => exact hSane.callback
  case handled =>
    intro h' x hx
    cases hx
    exact ⟨hUsed, hKept, hOut, hOther⟩
  case fresh => exact hSane.fresh

theorem Sane.delete
    (hSane : q.Sane periodic hand)
    (hUsed : e < q.unused)
    (hOut : q.queue e = none)
    (hHand : ∀ h', hand ≠ some (h', e))
    (hOther : periodic ≠ some e) :
    (q.delete e).Sane periodic hand := by
  have hStays : ∀ x, x ≠ e →
      (q.delete e).deleted x = q.deleted x :=
    fun x hx => if_neg hx
  constructor
  case queued =>
    intro x hx
    have hNe : x ≠ e := by
      rintro rfl
      exact hx hOut
    rw [hStays x hNe]
    exact hSane.queued x hx
  case callback =>
    intro x hx
    have hNe : x ≠ e := by
      rintro rfl
      exact hOther hx
    rw [hStays x hNe]
    exact hSane.callback x hx
  case handled =>
    intro h' x hx
    have hNe : x ≠ e := by
      rintro rfl
      exact hHand h' hx
    rw [hStays x hNe]
    exact hSane.handled h' x hx
  case fresh =>
    intro x hx
    have hNe : x ≠ e := by
      rintro rfl
      exact absurd hUsed (Nat.not_lt.mpr hx)
    rw [hStays x hNe]
    exact hSane.fresh x hx

/- An event that is scheduled is live from then on. -/
theorem live_schedule
    (hOther : periodic ≠ some e)
    (hHand : ∀ h', hand ≠ some (h', e)) :
    (q.schedule e h t).Live periodic hand h' x ↔
      if x = e then h' = h else q.Live periodic hand h' x := by
  unfold Live EventQueue.schedule
  dsimp only
  by_cases hSame : x = e
  · subst hSame
    rw [if_pos rfl, if_pos rfl]
    constructor
    · rintro (⟨⟨y, hy, rfl⟩, _⟩ | hIn)
      · cases hy
        rfl
      · exact absurd hIn (hHand h')
    · rintro rfl
      exact Or.inl ⟨⟨⟨h', t⟩, rfl, rfl⟩, hOther⟩
  · rw [if_neg hSame, if_neg hSame]

theorem live_cancel
    (hHand : ∀ h', hand ≠ some (h', e)) :
    (q.cancel e).Live periodic hand h x ↔
      q.Live periodic hand h x ∧ x ≠ e := by
  unfold Live EventQueue.cancel
  dsimp only
  by_cases hSame : x = e
  · subst hSame
    rw [if_pos rfl]
    constructor
    · rintro (⟨⟨y, hy, _⟩, _⟩ | hIn)
      · cases hy
      · exact absurd hIn (hHand h)
    · exact fun hBoth => absurd rfl hBoth.2
  · rw [if_neg hSame]
    exact (and_iff_left hSame).symm

/- The periodic event is not one of an entry. -/
theorem live_schedule_callback
    (hPeriodic : periodic = some e) :
    (q.schedule e h t).Live periodic hand h' x ↔
      q.Live periodic hand h' x := by
  unfold Live EventQueue.schedule
  dsimp only
  by_cases hSame : x = e
  · subst hSame
    simp [hPeriodic]
  · rw [if_neg hSame]

theorem live_take
    (hOut : q.queue e = none) :
    q.Live periodic (some (h, e)) h' x ↔
      if x = e then h' = h else q.Live periodic none h' x := by
  unfold Live
  by_cases hSame : x = e
  · subst hSame
    rw [if_pos rfl, hOut]
    simp [eq_comm]
  · rw [if_neg hSame]
    simp [Ne.symm hSame]

end EventQueue

end Dsdv

end Ns2

------------------------------------------------------------
-- Entries and Their Events
------------------------------------------------------------

namespace Ns2

namespace Dsdv

namespace EventTable

def trigger
    (t : EventTable)
    (d : Int) : Option Nat :=
  (t.find d).bind (·.trigger_event)

def timeout
    (t : EventTable)
    (d : Int) : Option Nat :=
  (t.find d).bind (·.timeout_event)

variable {t : EventTable}
variable {d dst : Int}
variable {e : Nat}
variable {ent : EventEnt}

theorem find_set :
    (t.set dst ent).find d =
      if d = dst then some ent else t.find d := by
  by_cases hSame : d = dst
  · rw [if_pos hSame, hSame, t.find_set_self]
  · rw [if_neg hSame, t.find_set_ne hSame]

theorem trigger_set :
    trigger (t.set dst ent) d =
      if d = dst then ent.trigger_event else trigger t d := by
  unfold trigger
  rw [find_set]
  split <;> rfl

theorem timeout_set :
    timeout (t.set dst ent) d =
      if d = dst then ent.timeout_event else timeout t d := by
  unfold timeout
  rw [find_set]
  split <;> rfl

theorem trigger_of_find
    (hFind : t.find d = some ent) :
    trigger t d = ent.trigger_event := by
  unfold trigger
  rw [hFind]
  rfl

theorem timeout_of_find
    (hFind : t.find d = some ent) :
    timeout t d = ent.timeout_event := by
  unfold timeout
  rw [hFind]
  rfl

/- An event that is pointed to is found by a search. -/
theorem trigger_iff_any :
    (t.entries.any fun x =>
        decide (x.2.trigger_event = some e)) = true ↔
      ∃ d, trigger t d = some e := by
  rw [List.any_eq_true]
  constructor
  · rintro ⟨⟨d, ent⟩, hMem, hEvent⟩
    refine ⟨d, ?_⟩
    rw [trigger_of_find ((t.mem_entries_iff).mp hMem)]
    exact of_decide_eq_true hEvent
  · rintro ⟨d, hEvent⟩
    rcases Option.bind_eq_some_iff.mp hEvent with
      ⟨ent, hFind, hThere⟩
    exact ⟨(d, ent), (t.mem_entries_iff).mpr hFind,
      decide_eq_true hThere⟩

end EventTable

/-
  The books of an agent are kept: events that are live are
  pointed to once, and the own entry has a timeout only while
  that is handled.
-/
structure Books
    (own : Int)
    (periodic : Option Nat)
    (hand : InHand)
    (t : EventTable)
    (q : EventQueue) : Prop where
  sane : q.Sane periodic hand
  triggers :
    Referenced (q.Live periodic hand .trigger_handler) (EventTable.trigger t)
  timeouts :
    Referenced (q.Live periodic hand .helper_) (EventTable.timeout t)
  own : ∀ e, EventTable.timeout t own = some e →
    hand = some (.helper_, e)

namespace Books

open EventQueue EventTable

variable {own dst : Int}
variable {periodic : Option Nat}
variable {hand : InHand}
variable {t t' : EventTable}
variable {q : EventQueue}
variable {ent : EventEnt}
variable {h : EventHandler}
variable {e : Nat}
variable {s : Rat}

/- The entries may change, if not where they point to. -/
theorem table
    (hBooks : Books own periodic hand t q)
    (hTrigger : ∀ d, trigger t' d = trigger t d)
    (hTimeout : ∀ d, timeout t' d = timeout t d) :
    Books own periodic hand t' q :=
  ⟨hBooks.sane, hBooks.triggers.congr (fun _ => .rfl) hTrigger,
    hBooks.timeouts.congr (fun _ => .rfl) hTimeout,
    fun e he => hBooks.own e ((hTimeout own).symm.trans he)⟩

theorem setEntry
    (hBooks : Books own periodic hand t q)
    (hTrigger : ent.trigger_event = trigger t dst)
    (hTimeout : ent.timeout_event = timeout t dst) :
    Books own periodic hand (t.set dst ent) q := by
  apply hBooks.table
  · intro d
    rw [trigger_set]
    split
    next hSame => rw [hSame, hTrigger]
    next => rfl
  · intro d
    rw [timeout_set]
    split
    next hSame => rw [hSame, hTimeout]
    next => rfl

/- A live event is scheduled for another time. -/
theorem reschedule
    (hBooks : Books own periodic hand t q)
    (hLive : q.Live periodic hand h e)
    (hHand : ∀ h', hand ≠ some (h', e)) :
    Books own periodic hand t (q.schedule e h s) := by
  have hIn := hBooks.sane.live hLive
  have hSame : ∀ h' x,
      (q.schedule e h s).Live periodic hand h' x ↔
        q.Live periodic hand h' x := by
    intro h' x
    rw [live_schedule hIn.2.2 hHand]
    split
    next hSame =>
      subst hSame
      constructor
      · rintro rfl
        exact hLive
      · exact fun hLive' => hBooks.sane.one hLive' hLive
    next => rfl
  exact ⟨hBooks.sane.schedule hIn.1 hIn.2.1 hHand
      fun hPeriodic => absurd hPeriodic hIn.2.2,
    hBooks.triggers.congr (hSame _) fun _ => rfl,
    hBooks.timeouts.congr (hSame _) fun _ => rfl, hBooks.own⟩

/- So is the periodic event. -/
theorem callback
    (hBooks : Books own periodic hand t q)
    (hPeriodic : periodic = some e) :
    Books own periodic hand t (q.schedule e .helper_ s) := by
  have hIn := hBooks.sane.callback e hPeriodic
  exact ⟨hBooks.sane.schedule hIn.1 hIn.2.1
      (fun h' hHand =>
        (hBooks.sane.handled h' e hHand).2.2.2 hPeriodic)
      fun _ => rfl,
    hBooks.triggers.congr
      (fun _ => live_schedule_callback hPeriodic) fun _ => rfl,
    hBooks.timeouts.congr
      (fun _ => live_schedule_callback hPeriodic) fun _ => rfl,
    hBooks.own⟩

/- A new event is live once it is scheduled. -/
theorem live_newEvent
    (hSane : q.Sane periodic hand)
    {h' : EventHandler}
    {x : Nat} :
    (q.newEvent.2.schedule q.unused h s).Live periodic hand h'
        x ↔
      q.Live periodic hand h' x ∨ h' = h ∧ x = q.unused := by
  have hOther : periodic ≠ some q.unused := fun hPeriodic =>
    absurd (hSane.callback _ hPeriodic).1 (lt_irrefl _)
  have hHand : ∀ h', hand ≠ some (h', q.unused) :=
    fun h' hHand =>
      absurd (hSane.handled h' _ hHand).1 (lt_irrefl _)
  rw [live_schedule hOther hHand]
  split
  next hSame =>
    subst hSame
    constructor
    · exact fun hSame => Or.inr ⟨hSame, rfl⟩
    · rintro (hLive | hBoth)
      · exact absurd hLive hSane.not_live_unused
      · exact hBoth.1
  next hNe =>
    constructor
    · exact Or.inl
    · exact fun hAny => hAny.resolve_right fun hBoth => hNe hBoth.2

theorem sane_newEvent
    (hSane : q.Sane periodic hand) :
    (q.newEvent.2.schedule q.unused h s).Sane periodic hand := by
  apply hSane.newEvent.schedule (Nat.lt_succ_self _)
    (hSane.fresh _ le_rfl)
  · intro h' hHand
    exact absurd (hSane.handled h' _ hHand).1 (lt_irrefl _)
  · intro hPeriodic
    exact absurd (hSane.callback _ hPeriodic).1 (lt_irrefl _)

/- An entry without a trigger event is given a new one. -/
theorem newTrigger
    (hBooks : Books own periodic hand t q)
    (hFree : trigger t dst = none)
    (hTrigger : ent.trigger_event = some q.unused)
    (hTimeout : ent.timeout_event = timeout t dst) :
    Books own periodic hand (t.set dst ent)
      (q.newEvent.2.schedule q.unused .trigger_handler s) := by
  have hSame : ∀ d, timeout (t.set dst ent) d = timeout t d := by
    intro d
    rw [timeout_set]
    split
    next hSame => rw [hSame, hTimeout]
    next => rfl
  constructor
  case sane => exact sane_newEvent hBooks.sane
  case triggers =>
    refine hBooks.triggers.attach hFree
      hBooks.sane.not_live_unused (fun x => ?_) fun d => ?_
    · simp [live_newEvent hBooks.sane]
    · rw [trigger_set, hTrigger]
  case timeouts =>
    refine hBooks.timeouts.congr (fun x => ?_) hSame
    simp [live_newEvent hBooks.sane]
  case own =>
    exact fun e he => hBooks.own e ((hSame own).symm.trans he)

/- An entry without a timeout is given a new one. -/
theorem newTimeout
    (hBooks : Books own periodic hand t q)
    (hFree : timeout t dst = none)
    (hOther : dst ≠ own)
    (hTrigger : ent.trigger_event = trigger t dst)
    (hTimeout : ent.timeout_event = some q.unused) :
    Books own periodic hand (t.set dst ent)
      (q.newEvent.2.schedule q.unused .helper_ s) := by
  constructor
  case sane => exact sane_newEvent hBooks.sane
  case triggers =>
    refine hBooks.triggers.congr (fun x => ?_) fun d => ?_
    · simp [live_newEvent hBooks.sane]
    · rw [trigger_set]
      split
      next hSame => rw [hSame, hTrigger]
      next => rfl
  case timeouts =>
    refine hBooks.timeouts.attach hFree
      hBooks.sane.not_live_unused (fun x => ?_) fun d => ?_
    · simp [live_newEvent hBooks.sane]
    · rw [timeout_set, hTimeout]
  case own =>
    rw [timeout_set, if_neg (Ne.symm hOther)]
    exact hBooks.own

/- An event that is due is taken out of the queue. -/
theorem take
    {y : ScheduledEvent}
    (hBooks : Books own periodic none t q)
    (hQueued : q.queue e = some y)
    (hOther : periodic ≠ some e) :
    Books own periodic (some (y.handler_, e)) t (q.cancel e) := by
  have hIn := hBooks.sane.queued e (by rw [hQueued]; simp)
  have hOut : (q.cancel e).queue e = none := if_pos rfl
  have hLive : ∀ h' x,
      (q.cancel e).Live periodic (some (y.handler_, e)) h' x ↔
        q.Live periodic none h' x := by
    intro h' x
    rw [live_take hOut, live_cancel (by simp)]
    split
    next hSame =>
      subst hSame
      have hNow : q.Live periodic none y.handler_ x :=
        Or.inl ⟨⟨y, hQueued, rfl⟩, hOther⟩
      constructor
      · rintro rfl
        exact hNow
      · exact fun hLive => hBooks.sane.one hLive hNow
    next hNe => exact and_iff_left hNe
  refine ⟨hBooks.sane.cancel.take hIn.1 hIn.2 hOut hOther,
    hBooks.triggers.congr (hLive _) fun _ => rfl,
    hBooks.timeouts.congr (hLive _) fun _ => rfl, ?_⟩
  intro x hx
  cases hBooks.own x hx

theorem takeCallback
    (hBooks : Books own periodic none t q)
    (hPeriodic : periodic = some e) :
    Books own periodic none t (q.cancel e) := by
  have hLive : ∀ h' x, (q.cancel e).Live periodic none h' x ↔
      q.Live periodic none h' x := by
    intro h' x
    rw [live_cancel (by simp)]
    apply and_iff_left_of_imp
    rintro hLive rfl
    exact (hBooks.sane.live hLive).2.2 hPeriodic
  exact ⟨hBooks.sane.cancel,
    hBooks.triggers.congr (hLive _) fun _ => rfl,
    hBooks.timeouts.congr (hLive _) fun _ => rfl, hBooks.own⟩

/- The event in hand goes back into the queue. -/
theorem putBack
    (hBooks : Books own periodic (some (.trigger_handler, e)) t q) :
    Books own periodic none t
      (q.schedule e .trigger_handler s) := by
  have hIn := hBooks.sane.handled .trigger_handler e rfl
  have hLive : ∀ h' x,
      (q.schedule e .trigger_handler s).Live periodic none h' x ↔
        q.Live periodic (some (.trigger_handler, e)) h' x := by
    intro h' x
    rw [live_schedule hIn.2.2.2 (by simp), live_take hIn.2.2.1]
  refine ⟨hBooks.sane.letGo.schedule hIn.1 hIn.2.1 (by simp)
      fun hPeriodic => absurd hPeriodic hIn.2.2.2,
    hBooks.triggers.congr (hLive _) fun _ => rfl,
    hBooks.timeouts.congr (hLive _) fun _ => rfl, ?_⟩
  intro x hx
  cases hBooks.own x hx

theorem letGo_live
    (hSane : q.Sane periodic (some (h, e)))
    {h' : EventHandler}
    {x : Nat} :
    q.Live periodic none h' x ↔
      q.Live periodic (some (h, e)) h' x ∧ x ≠ e := by
  have hIn := hSane.handled h e rfl
  rw [live_take hIn.2.2.1]
  split
  next hSame =>
    subst hSame
    constructor
    · rintro (⟨⟨y, hy, _⟩, _⟩ | hHand)
      · rw [hIn.2.2.1] at hy
        cases hy
      · cases hHand
    · exact fun hBoth => absurd rfl hBoth.2
  next hNe => exact (and_iff_left hNe).symm

/- The trigger event in hand is given up by its entries. -/
theorem dropTrigger
    (hBooks : Books own periodic (some (.trigger_handler, e)) t q)
    (hTrigger : ∀ d, trigger t' d =
      if trigger t d = some e then none else trigger t d)
    (hTimeout : ∀ d, timeout t' d = timeout t d) :
    Books own periodic none t' q := by
  have hLive := @letGo_live periodic q .trigger_handler e
    hBooks.sane
  constructor
  case sane => exact hBooks.sane.letGo
  case triggers => exact hBooks.triggers.release (fun x => hLive) hTrigger
  case timeouts =>
    refine hBooks.timeouts.congr (fun x => ?_) hTimeout
    rw [hLive]
    apply and_iff_left_of_imp
    rintro hTimer rfl
    have hOne := hBooks.sane.one hTimer (Or.inr rfl)
    cases hOne
  case own =>
    intro x hx
    rw [hTimeout] at hx
    cases hBooks.own x hx

/- The timeout in hand is given up by its entry. -/
theorem dropTimeout
    (hBooks : Books own periodic (some (.helper_, e)) t q)
    (hThere : timeout t dst = some e)
    (hTrigger : ent.trigger_event = trigger t dst)
    (hTimeout : ent.timeout_event = none) :
    Books own periodic none (t.set dst ent) q := by
  have hLive := @letGo_live periodic q .helper_ e hBooks.sane
  have hFree : ∀ d, timeout (t.set dst ent) d =
      if d = dst then none else timeout t d := by
    intro d
    rw [timeout_set, hTimeout]
  constructor
  case sane => exact hBooks.sane.letGo
  case triggers =>
    refine hBooks.triggers.congr (fun x => ?_) fun d => ?_
    · rw [hLive]
      apply and_iff_left_of_imp
      rintro hTimer rfl
      have hOne := hBooks.sane.one hTimer (Or.inr rfl)
      cases hOne
    · rw [trigger_set]
      split
      next hSame => rw [hSame, hTrigger]
      next => rfl
  case timeouts =>
    exact hBooks.timeouts.release_at hThere (fun x => hLive) hFree
  case own =>
    intro x hx
    rw [hFree] at hx
    split at hx
    next => cases hx
    next hNe =>
      cases hBooks.own x hx
      exact absurd (hBooks.timeouts.one _ _ _ hx hThere) hNe

/- A new event is taken in hand as the timeout of an entry. -/
theorem takeTimeout
    (hBooks : Books own periodic none t q)
    (hFree : timeout t dst = none)
    (hTrigger : ent.trigger_event = trigger t dst)
    (hTimeout : ent.timeout_event = some q.unused) :
    Books own periodic (some (.helper_, q.unused))
      (t.set dst ent) q.newEvent.2 := by
  have hSane := hBooks.sane
  have hOut : q.queue q.unused = none := by
    by_contra hIn
    exact absurd (hSane.queued _ hIn).1 (lt_irrefl _)
  have hOther : periodic ≠ some q.unused := fun hPeriodic =>
    absurd (hSane.callback _ hPeriodic).1 (lt_irrefl _)
  have hLive : ∀ h' x,
      q.newEvent.2.Live periodic (some (.helper_, q.unused)) h'
          x ↔
        q.Live periodic none h' x ∨
          h' = .helper_ ∧ x = q.unused := by
    intro h' x
    change q.Live periodic (some (.helper_, q.unused)) h' x ↔ _
    rw [live_take hOut]
    split
    next hSame =>
      subst hSame
      constructor
      · exact fun hSame => Or.inr ⟨hSame, rfl⟩
      · rintro (hLive | hBoth)
        · exact absurd hLive hSane.not_live_unused
        · exact hBoth.1
    next hNe =>
      constructor
      · exact Or.inl
      · exact fun hAny =>
          hAny.resolve_right fun hBoth => hNe hBoth.2
  constructor
  case sane =>
    exact hSane.newEvent.take (Nat.lt_succ_self _)
      (hSane.fresh _ le_rfl) hOut hOther
  case triggers =>
    refine hBooks.triggers.congr (fun x => ?_) fun d => ?_
    · simp [hLive]
    · rw [trigger_set]
      split
      next hSame => rw [hSame, hTrigger]
      next => rfl
  case timeouts =>
    refine hBooks.timeouts.attach hFree hSane.not_live_unused
      (fun x => ?_) fun d => ?_
    · simp [hLive]
    · rw [timeout_set, hTimeout]
  case own =>
    intro x hx
    rw [timeout_set, hTimeout] at hx
    split at hx
    next =>
      cases hx
      rfl
    next => cases hBooks.own x hx

/- A trigger event is cancelled and deleted. -/
theorem cancelTrigger
    (hBooks : Books own periodic none t q)
    (hThere : trigger t dst = some e)
    (hTrigger : ent.trigger_event = none)
    (hTimeout : ent.timeout_event = timeout t dst) :
    Books own periodic none (t.set dst ent)
      ((q.cancel e).delete e) := by
  have hNow := hBooks.triggers.live dst e hThere
  have hIn := hBooks.sane.live hNow
  have hLive : ∀ h' x,
      ((q.cancel e).delete e).Live periodic none h' x ↔
        q.Live periodic none h' x ∧ x ≠ e :=
    fun h' x => live_cancel (by simp)
  have hSame : ∀ d, timeout (t.set dst ent) d = timeout t d := by
    intro d
    rw [timeout_set]
    split
    next hSame => rw [hSame, hTimeout]
    next => rfl
  constructor
  case sane =>
    exact hBooks.sane.cancel.delete hIn.1 (if_pos rfl) (by simp)
      hIn.2.2
  case triggers =>
    refine hBooks.triggers.release_at hThere (hLive _) fun d => ?_
    rw [trigger_set, hTrigger]
  case timeouts =>
    refine hBooks.timeouts.congr (fun x => ?_) hSame
    rw [hLive]
    apply and_iff_left_of_imp
    rintro hTimer rfl
    have hOne := hBooks.sane.one hTimer hNow
    cases hOne
  case own =>
    exact fun x hx => hBooks.own x ((hSame own).symm.trans hx)

/- An event that nothing points to any more is deleted. -/
theorem delete
    (hBooks : Books own periodic none t q)
    (hUsed : e < q.unused)
    (hOut : q.queue e = none)
    (hOther : periodic ≠ some e) :
    Books own periodic none t (q.delete e) :=
  ⟨hBooks.sane.delete hUsed hOut (by simp) hOther,
    hBooks.triggers, hBooks.timeouts, hBooks.own⟩

/- The own entry is written anew, if it has no trigger event. -/
theorem renew
    (hBooks : Books own periodic hand t q)
    (hFree : trigger t own = none)
    (hHand : ∀ e, hand ≠ some (.helper_, e))
    (hTrigger : ent.trigger_event = none)
    (hTimeout : ent.timeout_event = none) :
    Books own periodic hand (t.set own ent) q := by
  apply hBooks.setEntry
  · rw [hTrigger, hFree]
  · rw [hTimeout]
    cases hOwn : timeout t own with
    | none => rfl
    | some e => exact absurd (hBooks.own e hOwn) (hHand e)

/- The periodic event is made. -/
theorem start
    (hBooks : Books own none none t q) :
    Books own (some q.unused) none t
      (q.newEvent.2.schedule q.unused .helper_ s) := by
  have hSane := hBooks.sane
  have hLive : ∀ h' x,
      (q.newEvent.2.schedule q.unused .helper_ s).Live
          (some q.unused) none h' x ↔
        q.Live none none h' x := by
    intro h' x
    rw [live_schedule_callback rfl]
    constructor
    · rintro (⟨hQueued, _⟩ | hHand)
      · exact Or.inl ⟨hQueued, by simp⟩
      · cases hHand
    · intro hLive
      have hIn := hSane.live hLive
      rcases hLive with ⟨hQueued, _⟩ | hHand
      · exact Or.inl ⟨hQueued, by
          intro hSame
          cases hSame
          exact absurd hIn.1 (lt_irrefl _)⟩
      · cases hHand
  have hNew : q.newEvent.2.Sane (some q.unused) none := by
    have hOld := hSane.newEvent
    constructor
    case queued => exact hOld.queued
    case callback =>
      intro x hx
      cases hx
      refine ⟨Nat.lt_succ_self _, hSane.fresh _ le_rfl, ?_⟩
      intro y hy
      have hQueued := hSane.queued q.unused (by
        rw [show q.queue q.unused = some y from hy]
        simp)
      exact absurd hQueued.1 (lt_irrefl _)
    case handled =>
      intro h' x hx
      cases hx
    case fresh => exact hOld.fresh
  exact ⟨hNew.schedule (Nat.lt_succ_self _)
      (hSane.fresh _ le_rfl) (by simp) (fun _ => rfl),
    hBooks.triggers.congr (hLive _) fun _ => rfl,
    hBooks.timeouts.congr (hLive _) fun _ => rfl,
    hBooks.own⟩

theorem new : Books own none none .new .empty := by
  constructor
  case sane =>
    exact ⟨fun e he => absurd rfl he, fun e he => (by cases he),
      fun h e he => (by cases he), fun _ _ => rfl⟩
  case triggers =>
    refine ⟨fun e he => ?_, fun d e he => (by cases he),
      fun d d' e he => (by cases he)⟩
    rcases he with ⟨⟨y, hy, _⟩, _⟩ | hHand
    · cases hy
    · cases hHand
  case timeouts =>
    refine ⟨fun e he => ?_, fun d e he => (by cases he),
      fun d d' e he => (by cases he)⟩
    rcases he with ⟨⟨y, hy, _⟩, _⟩ | hHand
    · cases hy
    · cases hHand
  case own =>
    intro e he
    cases he

end Books

end Dsdv

end Ns2
