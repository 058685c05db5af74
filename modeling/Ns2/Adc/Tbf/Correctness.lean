import Mathlib.Data.Rat.Cast.Order
import Mathlib.Tactic.FieldSimp
import Ns2.Adc.Tbf.Operations
import Ns2.Lib.PartialRun
import Ns2.Lib.TokenBucket

/-
  The token bucket filter conforms to its bucket.

  The level of the bucket and the time of its last update
  pay for all that was sent.  While packets wait the bucket
  is left alone, and the timer is due at the very moment
  when it would hold the bits of the head.

  Main declarations:
    * `TBF.Sound`, `TBF.Sound.arrive`, `TBF.Sound.fire`
    * `TBF.Conforms`, `TBF.filter_conforms`
-/

------------------------------------------------------------
-- Invariant
------------------------------------------------------------

namespace Ns2

namespace TBF

variable {α : Type}
variable (size : α → Int) (cfg : Config)

/- When how many bits were sent. -/
def bits (sent : List (Rat × α)) : List (Rat × Rat) :=
  sent.map fun x => (x.1, (pktsize size x.2 : Rat))

/- When there are tokens for `p`. -/
def dueTime
    (s : TBF α)
    (p : α) : Rat :=
  s.lastupdatetime + (pktsize size p - s.tokens) / cfg.rate

structure Sound (w : World α) : Prop where
  fresh : w.tbf.init = true →
    w.tbf.tokens = 0 ∧ w.tbf.q = [] ∧ w.sent = []
  balanced : w.tbf.init = false →
    TokenBucket.Balanced (cfg.bucket : Rat) cfg.rate
        w.tbf.tokens w.tbf.lastupdatetime
        (bits size w.sent) ∧
      w.tbf.lastupdatetime ≤ w.clock
  idle : w.tbf.q = [] → w.tbf.tbf_timer = .new
  waiting : ∀ p rest, w.tbf.q = p :: rest →
    w.tbf.init = false ∧
      w.tbf.tokens ≤ pktsize size p ∧
      w.tbf.tbf_timer =
        ⟨.TIMER_PENDING, some (dueTime size cfg w.tbf p)⟩
  sizes : ∀ p ∈ w.tbf.q,
    0 < pktsize size p ∧ pktsize size p ≤ cfg.bucket
  order :
    (w.sent.map Prod.snd ++ w.tbf.q).Sublist w.arrived
  stored : w.tbf.q.length ≤ cfg.qlen

variable {size} {cfg}

theorem sound_new
    (hQlen : 0 ≤ cfg.qlen)
    (clock lastupdatetime : Rat) :
    Sound size cfg
      (World.new clock lastupdatetime : World α) where
  fresh := fun _ => ⟨rfl, rfl, rfl⟩
  balanced := fun hInit => absurd hInit Bool.noConfusion
  idle := fun _ => rfl
  waiting := fun _ _ hCons => absurd hCons.symm
    (List.cons_ne_nil _ _)
  sizes := fun _ hMem => absurd hMem List.not_mem_nil
  order := List.Sublist.refl _
  stored := hQlen

/- The bound of a bucket is a minimum. -/
theorem getupdatedtokens_tokens
    (now : Rat)
    (s : TBF α) :
    (s.getupdatedtokens cfg now).tokens =
      TokenBucket.refill (cfg.bucket : Rat) cfg.rate s.tokens
        (now - s.lastupdatetime) := by
  rw [TokenBucket.refill, min_def, getupdatedtokens]
  dsimp only
  by_cases hFull : (cfg.bucket : Rat) <
      s.tokens + (now - s.lastupdatetime) * cfg.rate
  · rw [if_pos hFull, if_pos hFull.le]
  · rw [if_neg hFull]
    split
    · exact le_antisymm (not_lt.mp hFull) ‹_›
    · rfl

variable {w : World α}

/- Before a packet is looked at the bucket is up to date. -/
theorem Sound.ready
    (hSound : Sound size cfg w)
    (hRate : 0 < cfg.rate)
    (hBucket : 0 < cfg.bucket)
    {now : Rat}
    (hNow : w.clock ≤ now) :
    TokenBucket.Balanced (cfg.bucket : Rat) cfg.rate
      ((w.tbf.start cfg now).getupdatedtokens cfg now).tokens
      now (bits size w.sent) := by
  rw [getupdatedtokens_tokens, start]
  by_cases hInit : w.tbf.init
  · have hDepth : (0 : Rat) ≤ cfg.bucket := by
      exact_mod_cast hBucket.le
    have hFull := TokenBucket.balanced_full
      hDepth hRate.le now
    have hSame := hFull.refill hRate.le le_rfl
    rw [if_pos hInit, (hSound.fresh hInit).2.2]
    exact hSame
  · have hBalanced :=
      hSound.balanced (Bool.eq_false_of_not_eq_true hInit)
    rw [if_neg hInit]
    exact hBalanced.1.refill hRate.le
      (hBalanced.2.trans hNow)

@[simp]
theorem start_q
    (now : Rat)
    (s : TBF α) :
    (s.start cfg now).q = s.q := by
  unfold start
  split <;> rfl

@[simp]
theorem start_tbf_timer
    (now : Rat)
    (s : TBF α) :
    (s.start cfg now).tbf_timer = s.tbf_timer := by
  unfold start
  split <;> rfl

@[simp]
theorem start_init
    (now : Rat)
    (s : TBF α) :
    (s.start cfg now).init = false := by
  unfold start
  split
  · rfl
  · exact Bool.eq_false_of_not_eq_true ‹_›

/- A filter that was started is not started again. -/
theorem start_of_started
    {s : TBF α}
    (hInit : s.init = false)
    (now : Rat) :
    s.start cfg now = s :=
  if_neg (by rw [hInit]; exact Bool.noConfusion)

/- A packet that came in is the last to have come in. -/
theorem Sound.order_store
    (hSound : Sound size cfg w)
    (p : α) :
    (w.sent.map Prod.snd ++ (w.tbf.q ++ [p])).Sublist
      (w.arrived ++ [p]) := by
  rw [← List.append_assoc]
  exact hSound.order.append (List.Sublist.refl [p])

theorem Sound.order_drop
    (hSound : Sound size cfg w)
    (p : α) :
    (w.sent.map Prod.snd ++ w.tbf.q).Sublist
      (w.arrived ++ [p]) :=
  hSound.order.trans (List.sublist_append_left _ _)

end TBF

end Ns2

------------------------------------------------------------
-- Packets Coming In
------------------------------------------------------------

namespace Ns2

namespace TBF

variable {α : Type}
variable {size : α → Int} {cfg : Config} {w : World α}

/- What the filter does with a packet behind others. -/
theorem recv_behind
    {s : TBF α}
    (hInit : s.init = false)
    (hWait : s.q ≠ [])
    (time : Rat)
    (p : α) :
    s.recv size cfg time p =
      if s.q.length < cfg.qlen then
        some (.stored, { s with q := s.q ++ [p] })
      else some (.dropped, s) := by
  have hNe : s.q.length ≠ 0 :=
    mt List.length_eq_zero_iff.mp hWait
  rw [recv]
  dsimp only
  rw [start_of_started hInit, if_pos hNe]

/- While packets wait only the queue can change. -/
theorem Sound.arrive_behind
    (hSound : Sound size cfg w)
    {time : Rat}
    {p : α}
    (hAllowed : Allowed size cfg w (.arrive time p))
    (hWait : w.tbf.q ≠ []) :
    ∃ w', act size cfg w (.arrive time p) = some w' ∧
      Sound size cfg w' := by
  rcases List.exists_cons_of_ne_nil hWait with
    ⟨head, rest, hQueue⟩
  have hWaiting := hSound.waiting head rest hQueue
  have hInit := hWaiting.1
  have hBalanced := hSound.balanced hInit
  rw [act, recv_behind hInit hWait]
  by_cases hRoom : w.tbf.q.length < cfg.qlen
  · rw [if_pos hRoom]
    refine ⟨_, rfl, ?_⟩
    constructor
    case fresh =>
      exact fun h => absurd (hInit.symm.trans h)
        Bool.false_ne_true
    case balanced =>
      exact fun _ =>
        ⟨hBalanced.1, hBalanced.2.trans hAllowed.1⟩
    case idle => exact fun h => absurd h (by simp)
    case waiting =>
      intro head' rest' hCons
      dsimp only at hCons ⊢
      rw [hQueue, List.cons_append, List.cons.injEq] at hCons
      rw [← hCons.1]
      exact hWaiting
    case sizes =>
      intro x hx
      rcases List.mem_append.mp hx with hOld | hNew
      · exact hSound.sizes x hOld
      · rw [List.mem_singleton.mp hNew]
        exact hAllowed.2.2
    case order => exact hSound.order_store p
    case stored =>
      dsimp only
      rw [List.length_append, List.length_singleton]
      omega
  · rw [if_neg hRoom]
    refine ⟨_, rfl, ?_⟩
    exact
      { hSound with
        balanced := fun _ =>
          ⟨hBalanced.1, hBalanced.2.trans hAllowed.1⟩
        order := hSound.order_drop p }

/- What the filter does with a packet that has no others
before it. -/
theorem recv_first
    {s : TBF α}
    (hEmpty : s.q = [])
    (hTimer : s.tbf_timer = .new)
    (time : Rat)
    (p : α) :
    s.recv size cfg time p =
      let s' := (s.start cfg time).getupdatedtokens cfg time
      if s'.tokens ≥ pktsize size p then
        some (.sent,
          { s' with tokens := s'.tokens - pktsize size p })
      else if cfg.qlen ≠ 0 then
        some (.stored,
          { s' with
            q := [p]
            tbf_timer :=
              ⟨.TIMER_PENDING, some (dueTime size cfg s' p)⟩ })
      else some (.dropped, s') := by
  have hNone : ¬(s.start cfg time).q.length ≠ 0 := by
    simp [hEmpty]
  have hQueue :
      ((s.start cfg time).getupdatedtokens cfg time).q = [] :=
    (start_q time s).trans hEmpty
  have hIdle : ((s.start cfg time).getupdatedtokens
      cfg time).tbf_timer = .new :=
    (start_tbf_timer time s).trans hTimer
  rw [recv]
  dsimp only
  rw [if_neg hNone, await, hQueue]
  dsimp only
  rw [hIdle, TimerHandler.resched_ok
    (fun h => absurd rfl h)]
  rfl

/- A packet is sent at once, starts the queue or is lost. -/
theorem Sound.arrive_first
    (hSound : Sound size cfg w)
    (hRate : 0 < cfg.rate)
    (hBucket : 0 < cfg.bucket)
    {time : Rat}
    {p : α}
    (hAllowed : Allowed size cfg w (.arrive time p))
    (hEmpty : w.tbf.q = []) :
    ∃ w', act size cfg w (.arrive time p) = some w' ∧
      Sound size cfg w' := by
  have hTimer := hSound.idle hEmpty
  have hReady := hSound.ready hRate hBucket hAllowed.1
  have hInit : ((w.tbf.start cfg time).getupdatedtokens
      cfg time).init = false := start_init time w.tbf
  have hQueue : ((w.tbf.start cfg time).getupdatedtokens
      cfg time).q = [] := (start_q time w.tbf).trans hEmpty
  have hIdle : ((w.tbf.start cfg time).getupdatedtokens
      cfg time).tbf_timer = .new :=
    (start_tbf_timer time w.tbf).trans hTimer
  have hLast : ((w.tbf.start cfg time).getupdatedtokens
      cfg time).lastupdatetime = time := rfl
  rw [act, recv_first hEmpty hTimer]
  generalize (w.tbf.start cfg time).getupdatedtokens cfg time
    = s at hReady hInit hQueue hIdle hLast
  dsimp only
  have hFresh : s.init ≠ true := by
    rw [hInit]
    exact Bool.false_ne_true
  have hOrder := hSound.order
  rw [hEmpty, List.append_nil] at hOrder
  have hLater := hOrder.trans
    (List.sublist_append_left w.arrived [p])
  have hAdded := hOrder.append (List.Sublist.refl [p])
  have hQlen : 0 ≤ cfg.qlen :=
    (Int.natCast_nonneg _).trans hSound.stored
  by_cases hEnough : s.tokens ≥ pktsize size p
  · rw [if_pos hEnough]
    refine ⟨_, rfl, ?_⟩
    have hSpend := hReady.spend hRate.le
      (by exact_mod_cast hAllowed.2.2.1.le) hEnough
    constructor
    case fresh => exact fun h => absurd h hFresh
    case balanced =>
      intro _
      refine ⟨?_, hLast.le⟩
      dsimp only
      rw [if_pos rfl, bits, List.map_append, hLast]
      exact hSpend
    case idle => exact fun _ => hIdle
    case waiting =>
      exact fun _ _ hCons => absurd (hQueue.symm.trans hCons)
        (List.cons_ne_nil _ _).symm
    case sizes =>
      intro x hx
      exact absurd (hQueue ▸ hx) List.not_mem_nil
    case order =>
      dsimp only
      rw [if_pos rfl, hQueue, List.append_nil,
        List.map_append]
      exact hAdded
    case stored =>
      dsimp only
      rw [hQueue]
      exact hQlen
  · rw [if_neg hEnough]
    by_cases hSome : cfg.qlen ≠ 0
    · rw [if_pos hSome]
      refine ⟨_, rfl, ?_⟩
      constructor
      case fresh => exact fun h => absurd h hFresh
      case balanced =>
        intro _
        refine ⟨?_, hLast.le⟩
        dsimp only
        rw [hLast]
        exact hReady
      case idle => exact fun h => absurd h (List.cons_ne_nil _ _)
      case waiting =>
        intro head rest hCons
        dsimp only at hCons ⊢
        rw [List.cons.injEq] at hCons
        rw [← hCons.1]
        exact ⟨hInit, (not_le.mp hEnough).le, rfl⟩
      case sizes =>
        intro x hx
        rw [List.mem_singleton.mp hx]
        exact hAllowed.2.2
      case order => exact hAdded
      case stored =>
        dsimp only
        rw [List.length_singleton]
        omega
    · rw [if_neg hSome]
      refine ⟨_, rfl, ?_⟩
      constructor
      case fresh => exact fun h => absurd h hFresh
      case balanced =>
        intro _
        refine ⟨?_, hLast.le⟩
        dsimp only
        rw [hLast]
        exact hReady
      case idle => exact fun _ => hIdle
      case waiting =>
        exact fun _ _ hCons =>
          absurd (hQueue.symm.trans hCons)
            (List.cons_ne_nil _ _).symm
      case sizes =>
        intro x hx
        exact absurd (hQueue ▸ hx) List.not_mem_nil
      case order =>
        dsimp only
        rw [hQueue, List.append_nil]
        exact hLater
      case stored =>
        dsimp only
        rw [hQueue]
        exact hQlen

end TBF

end Ns2

------------------------------------------------------------
-- The Timer
------------------------------------------------------------

namespace Ns2

namespace TBF

variable {α : Type}
variable {size : α → Int} {cfg : Config} {w : World α}

/- The filter after it sent the head. -/
def afterHead
    (size : α → Int)
    (cfg : Config)
    (now : Rat)
    (p : α)
    (rest : List α)
    (s : TBF α) : TBF α where
  tokens :=
    (s.getupdatedtokens cfg now).tokens - pktsize size p
  lastupdatetime := now
  q := rest
  tbf_timer := ⟨.TIMER_HANDLING, none⟩
  init := s.init

/- The timer is done with the last packet. -/
theorem handle_last
    {s : TBF α}
    {p : α}
    (hQueue : s.q = [p])
    (hPending : s.tbf_timer.Pending)
    (now : Rat) :
    s.handle size cfg now =
      some (p,
        { afterHead size cfg now p [] s with
          tbf_timer := .new }) := by
  rw [handle, TimerHandler.beginHandle_ok hPending,
    Option.bind_some, timeout]
  simp only [hQueue]
  rfl

/- The timer is set for the packet behind the head. -/
theorem handle_next
    {s : TBF α}
    {p next : α}
    {rest : List α}
    (hQueue : s.q = p :: next :: rest)
    (hPending : s.tbf_timer.Pending)
    (now : Rat) :
    s.handle size cfg now =
      some (p,
        { afterHead size cfg now p (next :: rest) s with
          tbf_timer :=
            ⟨.TIMER_PENDING,
              some (dueTime size cfg
                (afterHead size cfg now p (next :: rest) s)
                next)⟩ }) := by
  have hResched := @TimerHandler.resched_ok
    ⟨.TIMER_HANDLING, none⟩ now
    ((pktsize size next -
      (afterHead size cfg now p (next :: rest) s).tokens) /
        cfg.rate) (fun h => absurd rfl h)
  rw [handle, TimerHandler.beginHandle_ok hPending,
    Option.bind_some, timeout]
  simp only [hQueue]
  show ((await size cfg now next
    (afterHead size cfg now p (next :: rest) s)).map
      fun s => (p, s)).map _ = _
  rw [await]
  show (((TimerHandler.resched ⟨.TIMER_HANDLING, none⟩ _ _).map
    _).map _).map _ = _
  rw [hResched]
  rfl

/- When the timer is due there are the bits of the head. -/
theorem tokens_due
    {s : TBF α}
    {p : α}
    (hRate : 0 < cfg.rate)
    (hFits : pktsize size p ≤ cfg.bucket) :
    (s.getupdatedtokens cfg (dueTime size cfg s p)).tokens =
      pktsize size p := by
  have hLevel : s.tokens +
      (dueTime size cfg s p - s.lastupdatetime) * cfg.rate =
        pktsize size p := by
    rw [dueTime, add_sub_cancel_left,
      div_mul_cancel₀ _ hRate.ne']
    ring
  rw [getupdatedtokens_tokens, TokenBucket.refill, hLevel]
  exact min_eq_right (by exact_mod_cast hFits)

theorem dueTime_ge
    {s : TBF α}
    {p : α}
    (hRate : 0 < cfg.rate)
    (hTokens : s.tokens ≤ pktsize size p) :
    s.lastupdatetime ≤ dueTime size cfg s p := by
  have hWait : 0 ≤ (pktsize size p - s.tokens) / cfg.rate :=
    div_nonneg (sub_nonneg.mpr hTokens) hRate.le
  rw [dueTime]
  linarith

/- The timer finds a packet and sends it. -/
theorem Sound.fire
    (hSound : Sound size cfg w)
    (hRate : 0 < cfg.rate)
    (hAllowed : Allowed size cfg w .fire) :
    ∃ w', act size cfg w .fire = some w' ∧
      Sound size cfg w' := by
  have hWait : w.tbf.q ≠ [] := by
    intro hEmpty
    have hIdle := hSound.idle hEmpty
    exact hAllowed (by rw [hIdle]; rfl)
  rcases List.exists_cons_of_ne_nil hWait with
    ⟨p, rest, hQueue⟩
  rcases hSound.waiting p rest hQueue with
    ⟨hInit, hTokens, hTimer⟩
  have hSizes := hSound.sizes p
    (hQueue ▸ List.mem_cons_self)
  have hPending : w.tbf.tbf_timer.Pending := by
    rw [hTimer]
    rfl
  have hEvent : w.tbf.tbf_timer.event =
      some (dueTime size cfg w.tbf p) := by
    rw [hTimer]
  have hLevel := tokens_due (s := w.tbf) hRate hSizes.2
  have hSpend : TokenBucket.Balanced (cfg.bucket : Rat)
      cfg.rate
      ((w.tbf.getupdatedtokens cfg
          (dueTime size cfg w.tbf p)).tokens -
        pktsize size p)
      (dueTime size cfg w.tbf p)
      (bits size (w.sent ++
        [(dueTime size cfg w.tbf p, p)])) := by
    have hBalanced := (hSound.balanced hInit).1.refill
      hRate.le (dueTime_ge hRate hTokens)
    rw [← getupdatedtokens_tokens] at hBalanced
    rw [bits, List.map_append]
    exact hBalanced.spend hRate.le
      (by exact_mod_cast hSizes.1.le) hLevel.ge
  have hRest : ∀ x ∈ rest, x ∈ w.tbf.q := fun x hx =>
    hQueue ▸ List.mem_cons_of_mem p hx
  have hOrder := hSound.order
  have hStored := hSound.stored
  rw [hQueue] at hOrder hStored
  rw [List.length_cons] at hStored
  have hFresh : w.tbf.init ≠ true := by
    rw [hInit]
    exact Bool.false_ne_true
  rw [act, hEvent, Option.bind_some]
  cases rest with
  | nil =>
      rw [handle_last hQueue hPending]
      refine ⟨_, rfl, ?_⟩
      constructor
      case fresh => exact fun h => absurd h hFresh
      case balanced => exact fun _ => ⟨hSpend, le_rfl⟩
      case idle => exact fun _ => rfl
      case waiting =>
        exact fun _ _ hCons => absurd hCons.symm
          (List.cons_ne_nil _ _)
      case sizes =>
        exact fun _ hx => absurd hx List.not_mem_nil
      case order =>
        dsimp only [afterHead]
        rw [List.map_append, List.append_nil]
        exact hOrder
      case stored =>
        dsimp only [afterHead]
        rw [List.length_nil] at hStored ⊢
        omega
  | cons next rest =>
      rw [handle_next hQueue hPending]
      refine ⟨_, rfl, ?_⟩
      constructor
      case fresh => exact fun h => absurd h hFresh
      case balanced => exact fun _ => ⟨hSpend, le_rfl⟩
      case idle => exact fun h => absurd h (List.cons_ne_nil _ _)
      case waiting =>
        intro head rest' hCons
        dsimp only [afterHead] at hCons ⊢
        rw [List.cons.injEq] at hCons
        rw [← hCons.1]
        refine ⟨hInit, ?_, rfl⟩
        have hNext := (hSound.sizes next
          (hRest next List.mem_cons_self)).1
        rw [hLevel, sub_self]
        exact_mod_cast hNext.le
      case sizes => exact fun x hx => hSound.sizes x (hRest x hx)
      case order =>
        dsimp only [afterHead]
        rw [List.map_append, List.append_assoc]
        exact hOrder
      case stored =>
        dsimp only [afterHead]
        omega

end TBF

end Ns2

------------------------------------------------------------
-- Conformance
------------------------------------------------------------

namespace Ns2

namespace TBF

variable {α : Type}

/- What holds of a filter whatever comes in. -/
structure Conforms
    (size : α → Int)
    (cfg : Config)
    (w : World α) : Prop where
  tokens : 0 ≤ w.tbf.tokens ∧ w.tbf.tokens ≤ cfg.bucket
  bits : ∀ t₁ t₂, t₁ ≤ t₂ →
    TokenBucket.spent t₁ t₂ (bits size w.sent) ≤
      cfg.bucket + cfg.rate * (t₂ - t₁)
  order :
    (w.sent.map Prod.snd ++ w.tbf.q).Sublist w.arrived
  stored : w.tbf.q.length ≤ cfg.qlen
  pending : w.tbf.tbf_timer.Pending ↔ w.tbf.q ≠ []
  dropped : ∀ time p s,
    Allowed size cfg w (.arrive time p) →
      w.tbf.recv size cfg time p = some (.dropped, s) →
        w.tbf.q.length = cfg.qlen ∧ cfg.qlen ≠ 0 ∨
          cfg.qlen = 0 ∧ s.tokens < pktsize size p
  enabled : ∀ h, Allowed size cfg w h →
    act size cfg w h ≠ none

variable {size : α → Int} {cfg : Config} {w : World α}

theorem Sound.act
    (hSound : Sound size cfg w)
    (hRate : 0 < cfg.rate)
    (hBucket : 0 < cfg.bucket)
    {h : Happening α}
    (hAllowed : Allowed size cfg w h) :
    ∃ w', act size cfg w h = some w' ∧
      Sound size cfg w' := by
  cases h with
  | arrive time p =>
      by_cases hEmpty : w.tbf.q = []
      · exact hSound.arrive_first hRate hBucket hAllowed hEmpty
      · exact hSound.arrive_behind hAllowed hEmpty
  | fire => exact hSound.fire hRate hAllowed

theorem Sound.conforms
    (hSound : Sound size cfg w)
    (hRate : 0 < cfg.rate)
    (hBucket : 0 < cfg.bucket) :
    Conforms size cfg w := by
  have hFull : (0 : Rat) ≤ cfg.bucket := by
    exact_mod_cast hBucket.le
  constructor
  case tokens =>
    by_cases hInit : w.tbf.init
    · rw [(hSound.fresh hInit).1]
      exact ⟨le_rfl, hFull⟩
    · have hBalanced := (hSound.balanced
        (Bool.eq_false_of_not_eq_true hInit)).1
      exact ⟨hBalanced.nonneg, hBalanced.le_depth⟩
  case bits =>
    intro t₁ t₂ hTimes
    by_cases hInit : w.tbf.init
    · rw [(hSound.fresh hInit).2.2]
      exact (TokenBucket.balanced_full hFull hRate.le 0).bound
        t₁ t₂ hTimes
    · exact (hSound.balanced
        (Bool.eq_false_of_not_eq_true hInit)).1.bound
          t₁ t₂ hTimes
  case order => exact hSound.order
  case stored => exact hSound.stored
  case pending =>
    constructor
    · intro hPending hEmpty
      rw [hSound.idle hEmpty] at hPending
      exact TimerHandler.not_pending_new hPending
    · intro hWait
      rcases List.exists_cons_of_ne_nil hWait with
        ⟨p, rest, hQueue⟩
      rw [(hSound.waiting p rest hQueue).2.2]
      rfl
  case dropped =>
    intro time p s hAllowed hRecv
    have hStored := hSound.stored
    by_cases hEmpty : w.tbf.q = []
    · rw [recv_first hEmpty (hSound.idle hEmpty)] at hRecv
      dsimp only at hRecv
      split at hRecv
      · cases hRecv
      · split at hRecv
        · cases hRecv
        · cases hRecv
          exact .inr ⟨not_not.mp ‹_›, not_le.mp ‹_›⟩
    · rcases List.exists_cons_of_ne_nil hEmpty with
        ⟨head, rest, hQueue⟩
      rw [recv_behind (hSound.waiting head rest hQueue).1
        hEmpty] at hRecv
      split at hRecv
      · cases hRecv
      · have hPos := List.length_pos_of_ne_nil hEmpty
        exact .inl ⟨by omega, by omega⟩
  case enabled =>
    intro h hAllowed hNone
    rcases hSound.act hRate hBucket hAllowed with
      ⟨w', hAct, _⟩
    exact Option.some_ne_none w' (hAct.symm.trans hNone)

/- Whatever comes in, no call aborts and the filter conforms
after every run. -/
theorem filter_conforms
    (size : α → Int)
    (cfg : Config)
    (hRate : 0 < cfg.rate)
    (hBucket : 0 < cfg.bucket)
    (hQlen : 0 ≤ cfg.qlen)
    (clock lastupdatetime : Rat)
    (happenings : List (Happening α))
    (hAllowed : PartialRun.Throughout (act size cfg)
      (Allowed size cfg) (World.new clock lastupdatetime)
      happenings) :
    ∃ w, PartialRun.run (act size cfg)
        (World.new clock lastupdatetime) happenings = some w ∧
      Conforms size cfg w := by
  rcases PartialRun.progress
      (P := fun _ w => Sound size cfg w)
      (fun _ w h hSound hGood =>
        hSound.act hRate hBucket hGood)
      (sound_new hQlen clock lastupdatetime) hAllowed with
    ⟨w, hRun, hSound⟩
  exact ⟨w, hRun, hSound.conforms hRate hBucket⟩

/- Packets of one byte. -/
def byte : Unit → Int := fun _ => 1

/- A packet that waits for its bits, and its timer. -/
theorem filter_conforms_waiting :
    ∃ w, PartialRun.run (act byte ⟨1, 8, 1⟩) (World.new 0 0)
        [.arrive 0 (), .arrive 0 (), .arrive 4 (), .fire] =
          some w ∧
      Conforms byte ⟨1, 8, 1⟩ w :=
  filter_conforms byte ⟨1, 8, 1⟩ (by decide +kernel)
    (by decide) (by decide) 0 0
    [.arrive 0 (), .arrive 0 (), .arrive 4 (), .fire]
    (PartialRun.throughout_of_check (by decide +kernel))

/- With a negative length one packet is stored all the same. -/
theorem negative_qlen_stores :
    PartialRun.Throughout (act byte ⟨1, 8, -1⟩)
        (Allowed byte ⟨1, 8, -1⟩) (World.new 0 0)
        [.arrive 0 (), .arrive 0 ()] ∧
      ∃ w, PartialRun.run (act byte ⟨1, 8, -1⟩)
          (World.new 0 0) [.arrive 0 (), .arrive 0 ()] =
            some w ∧
        ¬(w.tbf.q.length : Int) ≤ -1 := by
  refine ⟨PartialRun.throughout_of_check (by decide +kernel),
    ?_⟩
  have hLength : (PartialRun.run (act byte ⟨1, 8, -1⟩)
      (World.new 0 0) [.arrive 0 (), .arrive 0 ()]).map
        (fun w => w.tbf.q.length) = some 1 := by
    decide +kernel
  rcases Option.map_eq_some_iff.mp hLength with ⟨w, hRun, hW⟩
  exact ⟨w, hRun, by omega⟩

end TBF

end Ns2
