import Ns2.Dsdv.Events.Handlers
import Ns2.Dsdv.Routing.Settling
import Ns2.Lib.PartialRun

/-
  The events of an agent in every run.

  Main declarations:
    * `EventAgent.Booked`
    * `Loses`, `EventAgent.Meets`

  Correctness is proven by:
    * `EventAgent.processAdvert_kept`
    * `EventAgent.processUpdate_run`
    * `EventAgent.events_booked`
-/

------------------------------------------------------------
-- One Route of an Update
------------------------------------------------------------

namespace Ns2

namespace Dsdv

/-
  A route for which an update is asked and packets are sent:
  the entry is written with the pointer from before, which was
  to no event.
-/
def Loses
    (prte : Option EventEnt)
    (r : Advert) : Prop :=
  ∃ e ∈ prte, e.route.q ≠ none ∧ e.trigger_event = none ∧
    e.route.seqnum = r.seqnum ∧
      told r < e.route.metric ∧ told r ≠ BIG ∧
        told r ≠ e.route.last_advertised_metric

instance
    (prte : Option EventEnt)
    (r : Advert) :
    Decidable (Loses prte r) :=
  inferInstanceAs (Decidable (∃ e ∈ prte, _))

namespace EventAgent

open EventTable Fallible

variable {cfg : Timing}
variable {a a' : EventAgent}
variable {src dst : Int}
variable {now : Rat}
variable {steps : Nat}
variable {r : Advert}
variable {rte : EventEnt}

/- What is known once a route was judged. -/
structure Judged
    (a : EventAgent)
    (dst : Int)
    (rte : EventEnt)
    (made : EventAgent × EventEnt × Bool) : Prop where
  kept : made.1.Kept none
  trigger_event : made.2.1.trigger_event = rte.trigger_event
  timeout_event : made.2.1.timeout_event = rte.timeout_event
  q : made.2.1.route.q = rte.route.q
  metric : made.2.1.route.metric = rte.route.metric
  timeout : EventTable.timeout made.1.table_ dst =
    rte.timeout_event
  trigger : rte.route.metric ≠ BIG →
    EventTable.trigger made.1.table_ dst = rte.trigger_event
  asks : made.2.2 = true →
    ∀ prte, a.table_.find dst = some prte →
      prte.route.seqnum = rte.route.seqnum ∧
        rte.route.metric < prte.route.metric ∧
          rte.route.metric ≠ prte.route.last_advertised_metric

theorem updateRoute_spec :
    Ensures (a.updateRoute dst rte)
      (fun a' => a' = a.setEntry dst rte) Harmless := by
  unfold updateRoute
  refine .ite (fun _ => .of_ok rfl) fun _ => ?_
  exact .of_error ⟨by decide, by decide⟩

/- The route is written, and the entry has the same events. -/
theorem judged_write
    {rte' : EventEnt}
    {asks : Bool}
    (hKept : a.Kept none)
    (hTrigger : rte.trigger_event = trigger a.table_ dst)
    (hTimeout : rte.timeout_event = timeout a.table_ dst)
    (hTrigger' : rte'.trigger_event = rte.trigger_event)
    (hTimeout' : rte'.timeout_event = rte.timeout_event)
    (hq : rte'.route.q = rte.route.q)
    (hMetric : rte'.route.metric = rte.route.metric)
    (hAsks : asks = true →
      ∀ prte, a.table_.find dst = some prte →
        prte.route.seqnum = rte.route.seqnum ∧
          rte.route.metric < prte.route.metric ∧
            rte.route.metric ≠
              prte.route.last_advertised_metric) :
    Judged a dst rte (a.setEntry dst rte', rte', asks) := by
  constructor
  case kept =>
    exact hKept.setEntry (hTrigger'.trans hTrigger)
      (hTimeout'.trans hTimeout)
  case trigger_event => exact hTrigger'
  case timeout_event => exact hTimeout'
  case q => exact hq
  case metric => exact hMetric
  case timeout =>
    exact (timeout_set.trans (if_pos rfl)).trans hTimeout'
  case trigger =>
    exact fun _ => (trigger_set.trans (if_pos rfl)).trans hTrigger'
  case asks => exact hAsks

theorem judge_judged
    (hKept : a.Kept none)
    (hTrigger : rte.trigger_event = trigger a.table_ dst)
    (hTimeout : rte.timeout_event = timeout a.table_ dst) :
    Ensures (a.judge now dst rte) (Judged a dst rte) Harmless := by
  have hStays : Judged a dst rte (a, rte, false) := by
    refine ⟨hKept, rfl, rfl, rfl, rfl, hTimeout.symm,
      fun _ => hTrigger.symm, fun hNo => ?_⟩
    cases hNo
  unfold judge
  cases hFind : a.table_.find dst with
  | none =>
      dsimp only
      refine updateRoute_spec.bind fun a₁ h₁ => .of_ok ?_
      rw [h₁]
      apply judged_write hKept hTrigger hTimeout
      · split <;> rfl
      · split <;> rfl
      · split <;> rfl
      · split <;> rfl
      · intro _ prte hSome
        rw [hFind] at hSome
        cases hSome
  | some prte =>
      dsimp only
      refine .ite (fun hEqual => ?_) fun _ => ?_
      · refine .ite (fun hLess => ?_) fun _ => .of_ok hStays
        refine updateRoute_spec.bind fun a₁ h₁ => .of_ok ?_
        rw [h₁]
        refine judged_write hKept hTrigger hTimeout ?_ ?_ ?_ ?_
          fun hChanged prte' hSome => ?_
        iterate 4 rfl
        rw [hFind] at hSome
        cases hSome
        exact ⟨hEqual, hLess, of_decide_eq_true hChanged⟩
      · refine .ite (fun _ => ?_) fun _ => ?_
        · refine updateRoute_spec.bind fun a₁ h₁ => .of_ok ?_
          rw [h₁]
          refine judged_write hKept hTrigger hTimeout ?_ ?_ ?_ ?_
            fun hNo => ?_
          iterate 4 rfl
          cases hNo
        · refine .ite (fun hTold => ?_) fun _ => .of_ok hStays
          -- the entry stays, and the neighbor is told of it
          refine .of_ok ⟨?_, rfl, rfl, rfl, rfl, ?_, ?_, ?_⟩
          · apply needTriggeredUpdate_kept
            · exact hKept.setEntry (trigger_of_find hFind).symm
                (timeout_of_find hFind).symm
            · simp
          · rw [needTriggeredUpdate_timeout, hTimeout,
              timeout_of_find hFind]
            exact timeout_set.trans (if_pos rfl)
          · exact fun hRoute => absurd hTold.1 hRoute
          · intro hNo
            cases hNo

/- A route of an update keeps the books, if no event is lost. -/
theorem processAdvert_kept
    (hKept : a.Kept none) :
    Ensures (a.processAdvert cfg src now steps r)
      (fun a' =>
        (r.dst ≠ a.myaddr_ → ¬Loses (a.table_.find r.dst) r) →
          a'.Kept none) Harmless := by
  unfold processAdvert
  dsimp only
  refine .ite (fun _ => ?_) fun hOther => ?_
  · refine .ite (fun _ => ?_) fun _ => .of_ok fun _ => hKept
    exact callPeriodic_kept.mono
      (fun a' h' _ => h'.1 none hKept) fun _ => id
  have hTrigger :
      (learnEnt cfg.toConfig src now (a.table_.find r.dst)
        r).trigger_event = trigger a.table_ r.dst := rfl
  have hTimeout :
      (learnEnt cfg.toConfig src now (a.table_.find r.dst)
        r).timeout_event = timeout a.table_ r.dst := rfl
  refine (judge_judged hKept hTrigger hTimeout).bind
    fun made hJudged => ?_
  rcases made with ⟨a₁, rte, asks⟩
  dsimp only
  have hAsked :
      Ensures (a₁.askUpdate now asks r.dst rte)
        (fun a₂ => a₂.Kept none ∧
          timeout a₂.table_ r.dst = rte.timeout_event ∧
            ((asks = true → rte.trigger_event ≠ none) →
              rte.route.metric ≠ BIG →
                trigger a₂.table_ r.dst = rte.trigger_event))
        Harmless := by
    have hTimer :
        timeout a₁.table_ r.dst = rte.timeout_event :=
      hJudged.timeout.trans hJudged.timeout_event.symm
    have hEvent : rte.route.metric ≠ BIG →
        trigger a₁.table_ r.dst = rte.trigger_event := by
      intro hRoute
      rw [hJudged.metric] at hRoute
      exact (hJudged.trigger hRoute).trans
        hJudged.trigger_event.symm
    unfold askUpdate
    refine .ite (fun hAsks => ?_) fun _ => ?_
    · refine .ite (fun _ => ?_) fun _ => ?_
      · refine .of_ok ⟨needTriggeredUpdate_kept hJudged.kept
          (by simp), ?_, fun hHas hRoute => ?_⟩
        · rw [needTriggeredUpdate_timeout]
          exact hTimer
        · rw [needTriggeredUpdate_table]
          · exact hEvent hRoute
          · rw [hEvent hRoute]
            exact hHas hAsks
      · exact .of_error ⟨by decide, by decide⟩
    · exact .of_ok ⟨hJudged.kept, hTimer, fun _ => hEvent⟩
  refine hAsked.bind fun a₂ h₂ => ?_
  unfold sendKept
  refine .ite (fun hSend => ?_) fun _ => .of_ok fun _ => h₂.1
  split
  next => exact .of_error ⟨by decide, by decide⟩
  next table hFlush =>
    have hSame := flush_sameEvents hFlush
    refine updateRoute_spec.mono (fun a₃ h₃ hMeets => ?_)
      fun _ => id
    rw [h₃]
    -- an event that was asked for is one the entry had before
    have hHas : asks = true → rte.trigger_event ≠ none := by
      intro hAsks hNone
      apply hMeets hOther
      cases hFind : a.table_.find r.dst with
      | none =>
          have hEmpty : rte.route.q = none := by
            rw [hJudged.q, hFind]
            rfl
          exact absurd hEmpty hSend.1
      | some prte =>
          have hBetter := hJudged.asks hAsks prte hFind
          have hMetric := hJudged.metric
          have hQueue := hJudged.q
          have hEvent := hJudged.trigger_event
          rw [hFind] at hBetter hMetric hQueue hEvent
          refine ⟨prte, rfl, ?_, ?_, hBetter.1, hBetter.2.1, ?_,
            hBetter.2.2⟩
          · exact fun hEmpty => hSend.1 (hQueue.trans hEmpty)
          · exact hEvent.symm.trans hNone
          · exact fun hBig => hSend.2 (hMetric.trans hBig)
    refine Books.setEntry (Books.sameEvents h₂.1 hSame) ?_ ?_
    · rw [hSame.trigger]
      exact (h₂.2.2 hHas hSend.2).symm
    · rw [hSame.timeout]
      exact h₂.2.1.symm

end EventAgent

end Dsdv

end Ns2

------------------------------------------------------------
-- Runs
------------------------------------------------------------

namespace Ns2

namespace Dsdv

namespace EventAgent

open EventTable Fallible

/-
  The events in the queue are those that entries point to, each
  of them one entry; the periodic event is not of an entry.
-/
structure Booked (a : EventAgent) : Prop where
  triggers : ∀ e x, a.events.queue e = some x →
    x.handler_ = .trigger_handler →
      ∃! d, trigger a.table_ d = some e
  timeouts : ∀ e x, a.events.queue e = some x →
    x.handler_ = .helper_ → a.periodic_callback_ ≠ some e →
      ∃! d, timeout a.table_ d = some e
  trigger_queued : ∀ d e, trigger a.table_ d = some e →
    a.events.deleted e = false ∧
      ∃ x, a.events.queue e = some x ∧
        x.handler_ = .trigger_handler
  timeout_queued : ∀ d e, timeout a.table_ d = some e →
    a.events.deleted e = false ∧
      ∃ x, a.events.queue e = some x ∧ x.handler_ = .helper_

/- The event has the own entry written anew. -/
def Renews
    (a : EventAgent)
    (e : Nat) : Prop :=
  ∃ x ∈ a.events.queue e,
    a.periodic_callback_ = some e ∨
      x.handler_ = .trigger_handler ∧
        a.lasttup_ + DSDV_MIN_TUP_PERIOD ≤ x.time_ ∧
          a.toAgent.full false x.time_ = true

/- No pointer to an event that waits is written over. -/
def Meets
    (a : EventAgent) :
    Occurrence → Prop
| .start _ _ => trigger a.table_ a.myaddr_ = none
| .advert _ r _ _ =>
    r.dst ≠ a.myaddr_ → ¬Loses (a.table_.find r.dst) r
| .fire e _ => a.Renews e → a.OwnFree e
| .packet _ _ => True
| .heard _ _ => True
| .lostLink _ _ _ _ => True

instance
    (a : EventAgent)
    (e : Nat) :
    Decidable (a.Renews e) :=
  inferInstanceAs (Decidable (∃ x ∈ a.events.queue e, _))

instance
    (a : EventAgent)
    (e : Nat) :
    Decidable (a.OwnFree e) :=
  inferInstanceAs (Decidable
    (∀ x ∈ trigger a.table_ a.myaddr_, x = e))

instance
    (a : EventAgent)
    (x : Occurrence) :
    Decidable (a.Meets x) :=
  match x with
  | .start _ _ => inferInstanceAs (Decidable (_ = none))
  | .advert _ r _ _ =>
      inferInstanceAs (Decidable
        (r.dst ≠ a.myaddr_ → ¬Loses (a.table_.find r.dst) r))
  | .fire e _ =>
      inferInstanceAs (Decidable (a.Renews e → a.OwnFree e))
  | .packet _ _ => .isTrue trivial
  | .heard _ _ => .isTrue trivial
  | .lostLink _ _ _ _ => .isTrue trivial

variable {cfg : Timing}
variable {a a' : EventAgent}
variable {own : Int}
variable {x : Occurrence}

theorem Kept.booked
    (hKept : a.Kept none) :
    a.Booked := by
  have hQueued : ∀ {h e},
      a.events.Live a.periodic_callback_ none h e →
        a.events.deleted e = false ∧
          ∃ x, a.events.queue e = some x ∧ x.handler_ = h := by
    intro h e hLive
    refine ⟨(hKept.sane.live hLive).2.1, ?_⟩
    rcases hLive with ⟨hThere, _⟩ | hHand
    · exact hThere
    · cases hHand
  constructor
  case triggers =>
    intro e x hx hTrigger
    apply hKept.triggers.existsUnique
    refine Or.inl ⟨⟨x, hx, hTrigger⟩, fun hPeriodic => ?_⟩
    have hHelper := (hKept.sane.callback e hPeriodic).2.2 x hx
    rw [hTrigger] at hHelper
    cases hHelper
  case timeouts =>
    intro e x hx hHelper hOther
    exact hKept.timeouts.existsUnique
      (Or.inl ⟨⟨x, hx, hHelper⟩, hOther⟩)
  case trigger_queued =>
    exact fun d e he => hQueued (hKept.triggers.live d e he)
  case timeout_queued =>
    exact fun d e he => hQueued (hKept.timeouts.live d e he)

/- An event that is due is handled. -/
theorem dispatch_kept
    {e : Nat}
    {jitter : Rat}
    (hKept : a.Kept none) :
    Ensures (a.dispatch cfg e jitter)
      (fun a' => (a.Renews e → a.OwnFree e) → a'.Kept none)
      Harmless := by
  unfold dispatch
  cases hQueue : a.events.queue e with
  | none => exact .of_error ⟨by decide, by decide⟩
  | some x =>
      dsimp only
      by_cases hPeriodic : a.periodic_callback_ = some e
      · have hIn := hKept.sane.callback e hPeriodic
        rw [hIn.2.2 x hQueue]
        refine (@helperCallback_periodic cfg
          { a with events := a.events.cancel e } x.time_ jitter e
          (hKept.takeCallback hPeriodic) hPeriodic).mono
            (fun a' h' hMeets => h' ?_) fun _ => id
        cases hOwn : trigger a.table_ a.myaddr_ with
        | none => rfl
        | some y =>
            have hSame := hMeets
              ⟨x, hQueue, Or.inl hPeriodic⟩ y hOwn
            have hLive := hKept.triggers.live _ y hOwn
            rw [hSame] at hLive
            exact absurd hPeriodic (hKept.sane.live hLive).2.2
      · have hTaken := hKept.take hQueue hPeriodic
        cases hHandler : x.handler_ with
        | trigger_handler =>
            rw [hHandler] at hTaken
            refine (@handleTrigger_kept cfg
              { a with events := a.events.cancel e } x.time_
              jitter e hTaken).mono (fun a' h' hMeets => h' ?_)
                fun _ => id
            intro hLate hFull
            exact hMeets ⟨x, hQueue,
              Or.inr ⟨hHandler, hLate, hFull⟩⟩
        | helper_ =>
            rw [hHandler] at hTaken
            exact (@helperCallback_timeout cfg
              { a with events := a.events.cancel e } x.time_
              jitter e hTaken).mono (fun a' h' _ => h')
                fun _ => id

/- What may happen keeps the books, if it meets the condition. -/
theorem act_kept
    (hKept : a.Kept none) :
    Ensures (a.act cfg x)
      (fun a' => a.Meets x → a'.Kept none) Harmless := by
  cases x with
  | start now jitter =>
      refine .ite (fun hNew => ?_) fun _ => ?_
      · exact .of_ok fun hOwn => startUp_kept hKept hNew hOwn
      · exact .of_error ⟨by decide, by decide⟩
  | packet p now => exact .of_ok fun _ => recv_kept hKept
  | advert src r now steps =>
      refine .ite (fun _ => ?_) fun _ => ?_
      · exact .of_error ⟨by decide, by decide⟩
      · exact processAdvert_kept hKept
  | heard src now =>
      refine .ite (fun _ => ?_) fun hOther => ?_
      · exact .of_error ⟨by decide, by decide⟩
      · exact .of_ok fun _ => hear_kept hKept hOther
  | lostLink next_hop p now jitter =>
      exact (lostLink_kept hKept).mono (fun _ h' _ => h')
        fun _ => id
  | fire e jitter => exact dispatch_kept hKept

theorem act_of_step
    (hStep : a.step cfg x = some a') :
    a.act cfg x = .ok a' := by
  unfold step at hStep
  cases hAct : a.act cfg x with
  | error y =>
      rw [hAct] at hStep
      cases hStep
  | ok a₁ =>
      rw [hAct] at hStep
      exact congrArg Except.ok (Option.some.inj hStep)

/-
  In a run in which no pointer to an event that waits is
  written over, the events are booked and are all known when
  they are handled.
-/
theorem events_booked
    {actions : List Occurrence}
    (hRun :
      PartialRun.run (step cfg) (.new own) actions = some a)
    (hMeets :
      PartialRun.Throughout (step cfg) Meets (.new own)
        actions) :
    a.Booked ∧
      ∀ x, a.act cfg x ≠ .error .trigger_event ∧
        a.act cfg x ≠ .error .unknown_event := by
  have hKept : a.Kept none := by
    have hNew : Kept (.new own) none := Books.new
    refine @PartialRun.invariant_if _ _ (step cfg)
      (fun a => a.Kept none) Meets
      (fun a₁ x a₂ h₁ hx hStep => ?_) _ _ _ hNew hRun hMeets
    exact (act_kept h₁).ok a₂ (act_of_step hStep) hx
  refine ⟨hKept.booked, fun x => ⟨fun hAbort => ?_,
    fun hAbort => ?_⟩⟩
  · exact ((act_kept hKept).error _ hAbort).1 rfl
  · exact ((act_kept hKept).error _ hAbort).2 rfl

/- The adverts of an update do not change the own address. -/
theorem processAdvert_myaddr
    {src : Int}
    {now : Rat}
    {steps : Nat}
    {r : Advert} :
    Ensures (a.processAdvert cfg src now steps r)
      (fun a' => a'.myaddr_ = a.myaddr_) Harmless := by
  have hWrite : ∀ (a₁ : EventAgent) (rte : EventEnt),
      Ensures (a₁.updateRoute r.dst rte)
        (fun a' => a'.myaddr_ = a₁.myaddr_) Harmless :=
    fun a₁ rte => updateRoute_spec.mono
      (fun a' h' => by rw [h']; rfl) fun _ => id
  unfold processAdvert
  dsimp only
  refine .ite (fun _ => ?_) fun _ => ?_
  · refine .ite (fun _ => ?_) fun _ => .of_ok rfl
    unfold callPeriodic
    split
    · exact .of_error ⟨by decide, by decide⟩
    · exact .of_ok rfl
  have hJudge :
      Ensures
        (a.judge now r.dst
          (learnEnt cfg.toConfig src now (a.table_.find r.dst) r))
        (fun made => made.1.myaddr_ = a.myaddr_) Harmless := by
    unfold judge
    cases a.table_.find r.dst with
    | none => exact (hWrite a _).bind fun _ h => .of_ok h
    | some prte =>
        dsimp only
        refine .ite (fun _ => ?_) fun _ => ?_
        · refine .ite (fun _ => ?_) fun _ => .of_ok rfl
          exact (hWrite a _).bind fun _ h => .of_ok h
        · refine .ite (fun _ => ?_) fun _ => ?_
          · exact (hWrite a _).bind fun _ h => .of_ok h
          · refine .ite (fun _ => ?_) fun _ => .of_ok rfl
            exact .of_ok needTriggeredUpdate_myaddr
  refine hJudge.bind fun made hMade => ?_
  have hAsk :
      Ensures (made.1.askUpdate now made.2.2 r.dst made.2.1)
        (fun a' => a'.myaddr_ = a.myaddr_) Harmless := by
    unfold askUpdate
    refine .ite (fun _ => ?_) fun _ => .of_ok hMade
    refine .ite (fun _ => ?_) fun _ => ?_
    · exact .of_ok (needTriggeredUpdate_myaddr.trans hMade)
    · exact .of_error ⟨by decide, by decide⟩
  refine hAsk.bind fun a₁ h₁ => ?_
  unfold sendKept
  refine .ite (fun _ => ?_) fun _ => .of_ok h₁
  split
  · exact .of_error ⟨by decide, by decide⟩
  · exact (hWrite _ _).mono (fun _ h => h.trans h₁) fun _ => id

/- An update packet is a run: its adverts, and who sent them. -/
theorem processUpdate_run
    {src : Int}
    {now : Rat}
    {steps : Nat}
    {routes : List Advert}
    (hOther : src ≠ a.myaddr_) :
    PartialRun.run (step cfg) a
        (routes.map (fun r => .advert src r now steps) ++
          [.heard src now]) =
      (a.processUpdate cfg src now steps routes).toOption := by
  induction routes generalizing a with
  | nil =>
      have hHeard :
          a.step cfg (.heard src now) =
            some (a.hear cfg src now) := by
        rw [step, act, if_neg hOther]
        rfl
      simp only [List.map_nil, List.nil_append, PartialRun.run,
        hHeard]
      rfl
  | cons r routes ih =>
      have hAdvert :
          a.step cfg (.advert src r now steps) =
            (a.processAdvert cfg src now steps r).toOption := by
        rw [step, act, if_neg hOther]
      rw [List.map_cons, List.cons_append, PartialRun.run,
        hAdvert, processUpdate, List.foldlM_cons]
      cases hFirst : a.processAdvert cfg src now steps r with
      | error x => rfl
      | ok a₁ =>
          have hSame := processAdvert_myaddr.ok a₁ hFirst
          exact ih (hSame ▸ hOther)

def timing : Timing := ⟨⟨7 / 8, 6⟩, 15, 3, 0⟩

/- Routes are learned and lost, and each event is handled. -/
def busyRun : List Occurrence :=
  [.start 0 (3 / 2),
    .packet ⟨1, 4, 32, 0⟩ (1 / 2),
    .advert 2 ⟨3, 1, 4⟩ 1 6, .heard 2 1,
    .fire 0 0,
    .advert 2 ⟨4, 1, 4⟩ 2 6, .heard 2 2,
    .lostLink 2 ⟨1, 3, 32, 1⟩ 5 0,
    .fire 4 0, .fire 1 0]

theorem events_booked_busy :
    ∃ a,
      PartialRun.run (step timing) (.new 1) busyRun = some a ∧
        (a.Booked ∧
          ∀ x, a.act timing x ≠ .error .trigger_event ∧
            a.act timing x ≠ .error .unknown_event) := by
  have hSome :
      (PartialRun.run (step timing) (.new 1)
        busyRun).isSome = true := by
    decide +kernel
  rcases Option.isSome_iff_exists.mp hSome with ⟨a, hRun⟩
  exact ⟨a, hRun, events_booked hRun
    (PartialRun.throughout_of_check (by decide +kernel))⟩

/-
  A packet waits for a route to node 3, and node 2 tells of one
  that has the same number.  An update is asked for, the packet
  is sent, and the entry is written as it was before.
-/
def lostTrigger : List Occurrence :=
  [.start 0 (3 / 2),
    .packet ⟨1, 3, 32, 0⟩ (1 / 2),
    .advert 2 ⟨3, 1, 0⟩ 1 6, .heard 2 1]

theorem trigger_event_lost :
    ∃ a,
      PartialRun.run (step timing) (.new 1) lostTrigger =
          some a ∧
        ¬a.Booked ∧
          a.act timing (.fire 1 0) = .error .trigger_event := by
  have hSome :
      (PartialRun.run (step timing) (.new 1) lostTrigger).map
        (fun a => (a.events.queue 1,
          a.table_.entries.any fun x =>
            decide (x.2.trigger_event = some 1))) =
        some (some ⟨.trigger_handler, 1⟩, false) := by
    decide +kernel
  rcases Option.map_eq_some_iff.mp hSome with ⟨a, hRun, hThere⟩
  rcases Prod.mk.inj hThere with ⟨hQueue, hNone⟩
  refine ⟨a, hRun, fun hBooked => ?_, ?_⟩
  · rcases (hBooked.triggers 1 _ hQueue rfl).exists with ⟨d, hd⟩
    have hAny := trigger_iff_any.mpr ⟨d, hd⟩
    rw [hNone] at hAny
    cases hAny
  · simp only [act, dispatch, hQueue, handleTrigger]
    rw [if_neg]
    simp only [hNone]
    decide

end EventAgent

end Dsdv

end Ns2
