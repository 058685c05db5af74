import Ns2.Lib.PartialRun
import Ns2.Queue.PriQueue.Invariant

/-
  Every sequence of calls of a queue and its link.

  A packet that was handed in is stored, forwarded, dropped
  or filtered out, and never in two of these places.

  Main declarations:
    * `HandOff`, `HandOff.act`
    * `HandOff.Inv`
    * `HandOff.queue_conserves`
-/

------------------------------------------------------------
-- Histories
------------------------------------------------------------

namespace Ns2

/-
  A queue with its link, and where all packets are that were
  handed in: stored, or in one of three lists.  `accepted` is
  how many of the forwarded packets the link has not yet
  answered with `resume`.
-/
structure HandOff (α : Type) where
  queue : PriQueue α
  accepted : Nat
  arrived : List α
  forwarded : List α
  dropped : List α
  filtered : List α

namespace HandOff

open PriQueue

variable {α : Type}

/-
  A call from outside.  A packet arrives with its pointer
  leading anywhere.
-/
inductive Call (α : Type) where
| recv (p : α) (next : Option α)
| resume
| reset
| filter (f : Nat → α → Bool)
| filterHop (id : Int)
| shrink_queue

def start (queue : PriQueue α) : HandOff α :=
  ⟨queue, 0, [], [], [], []⟩

def stored (h : HandOff α) : List α :=
  h.queue.q.packets

/- The state after a call, and where its packets went. -/
def record
    (h : HandOff α)
    (arrived : List α)
    (next : PriQueue α × Moves α) : HandOff α where
  queue := next.1
  accepted := h.accepted + next.2.forwarded.length
  arrived := h.arrived ++ arrived
  forwarded := h.forwarded ++ next.2.forwarded
  dropped := h.dropped ++ next.2.dropped
  filtered := h.filtered ++ next.2.filtered

variable [DecidableEq α]

/-
  A stored packet is not handed in again, the link answers
  each packet once, and a limit in bytes is not negative.
-/
def enabled
    (h : HandOff α) :
    Call α → Bool
| .recv p _ => decide (p ∉ h.stored)
| .resume => decide (0 < h.accepted)
| .shrink_queue =>
    !h.queue.qib || decide (0 ≤ h.queue.meanPktsize)
| _ => true

def call
    (access : α → HdrCmn)
    (h : HandOff α) :
    Call α → Option (HandOff α)
| .recv p next =>
    let q := h.queue.q
    (({ h.queue with
        q := { q with
          next := Function.update q.next p next } } :
            PriQueue α).recv access p).map (h.record [p])
| .resume =>
    some ({ h with accepted := h.accepted - 1 }.record []
      (h.queue.resume access))
| .reset => (h.queue.reset access).map (h.record [])
| .filter f => (h.queue.filter access f).map (h.record [])
| .filterHop id =>
    (h.queue.filterHop access id).map (h.record [])
| .shrink_queue =>
    (h.queue.shrink_queue access).map (h.record [])

def act
    (access : α → HdrCmn)
    (h : HandOff α)
    (c : Call α) : Option (HandOff α) :=
  if h.enabled c then h.call access c else none

def run
    (access : α → HdrCmn)
    (h : HandOff α)
    (calls : List (Call α)) : Option (HandOff α) :=
  PartialRun.run (act access) h calls

/- What holds after every sequence of calls. -/
structure Inv
    (access : α → HdrCmn)
    (start : PriQueue α)
    (h : HandOff α)
    (xs : List α) : Prop where
  ready : h.queue.Ready access xs
  same : h.queue.SameSettings start
  accepted : h.accepted = held h.queue.blocked
  perm : h.arrived.Perm
    (xs ++ h.forwarded ++ h.dropped ++ h.filtered)
  order : ((h.forwarded ++ xs).filter
    fun p => !start.prefers access p).Sublist
      (h.arrived.filter fun p => !start.prefers access p)

variable {access : α → HdrCmn}
variable {start : PriQueue α}
variable {h : HandOff α}
variable {xs : List α}

/- A call that moves packets is recorded. -/
theorem Inv.record
    (hInv : h.Inv access start xs)
    {arrived after : List α}
    {d d' : PriQueue α}
    {m : Moves α}
    {accepted : Nat}
    (hSettings : d.SameSettings h.queue)
    (hMoved : Moved access d d' (xs ++ arrived) after m)
    (hHeld : m.forwarded.length + accepted =
      held d'.blocked) :
    ({ h with accepted := accepted }.record arrived
      (d', m)).Inv access start after := by
  have hSame : d.SameSettings start :=
    hSettings.trans hInv.same
  constructor
  case ready => exact hMoved.ready
  case same => exact hMoved.same.trans hSame
  case accepted =>
    show accepted + m.forwarded.length = held d'.blocked
    omega
  case perm =>
    rw [List.perm_iff_count]
    intro a
    have hOld := List.perm_iff_count.mp hInv.perm a
    have hNew := List.perm_iff_count.mp hMoved.perm a
    simp only [HandOff.record, List.count_append] at *
    omega
  case order =>
    have hPrefers : ∀ p, d.prefers access p =
        start.prefers access p := by
      intro p
      unfold prefers
      rw [hSame.preferRoutingProtocols]
    have hNew := hMoved.order
    simp only [hPrefers] at hNew
    have hOld := hInv.order
    simp only [HandOff.record, List.filter_append] at *
    have hFront := (List.Sublist.refl
      (h.forwarded.filter fun p =>
        !start.prefers access p)).append hNew
    rw [← List.append_assoc, ← List.append_assoc] at hFront
    exact hFront.trans (hOld.append (List.Sublist.refl _))

omit [DecidableEq α] in
theorem Inv.stored_eq
    (hInv : h.Inv access start xs) :
    h.stored = xs :=
  hInv.ready.holds.packets_eq

/- Nothing is sent on without a call of the link. -/
theorem Inv.record_quiet
    (hInv : h.Inv access start xs)
    {after : List α}
    {d' : PriQueue α}
    {m : Moves α}
    (hMoved : Moved access h.queue d' xs after m)
    (hNone : m.forwarded = [])
    (hBlocked : d'.blocked = h.queue.blocked) :
    (h.record [] (d', m)).Inv access start after := by
  apply hInv.record (d := h.queue) (m := m)
    ⟨rfl, rfl, rfl, rfl, rfl, rfl⟩
  · rw [List.append_nil]
    exact hMoved
  · rw [hNone, hBlocked, hInv.accepted, List.length_nil,
      Nat.zero_add]

/- Every call that may be made has a result. -/
theorem Inv.call
    (hInv : h.Inv access start xs)
    (hLimit : 1 ≤ start.qlim)
    (hUnblock : start.unblockOnResume = true)
    {c : Call α}
    (hEnabled : h.enabled c = true) :
    ∃ h' xs', h.call access c = some h' ∧
      h'.Inv access start xs' := by
  have hReady := hInv.ready
  cases c with
  | recv p next =>
      have hNew : p ∉ xs := by
        rw [← hInv.stored_eq]
        exact of_decide_eq_true hEnabled
      have hReady' : ({ h.queue with
          q := { h.queue.q with
            next := Function.update h.queue.q.next p next } } :
              PriQueue α).Ready access xs :=
        ⟨hReady.holds.update hNew next, hReady.fits,
          hReady.idle⟩
      rcases hReady'.recv hNew with
        ⟨d', m, after, hRecv, hMoved, hHeld⟩
      have hSettings := SameSettings.refl h.queue
        { h.queue.q with
          next := Function.update h.queue.q.next p next }
        h.queue.blocked
      have hHeld' : m.forwarded.length + h.accepted =
          held d'.blocked := by
        rw [hInv.accepted]
        exact hHeld
      refine ⟨_, after, ?_,
        hInv.record hSettings hMoved hHeld'⟩
      simp only [HandOff.call, hRecv, Option.map_some]
  | resume =>
      have hSome : 0 < h.accepted :=
        of_decide_eq_true hEnabled
      have hBlocked : h.queue.blocked = true := by
        rw [hInv.accepted] at hSome
        cases hFree : h.queue.blocked with
        | true => rfl
        | false =>
            rw [hFree] at hSome
            cases hSome
      rcases hReady.resume hBlocked
          (hInv.same.unblockOnResume.trans hUnblock) with
        ⟨d', m, after, hResume, hMoved, hHeld⟩
      refine ⟨_, after, rfl, ?_⟩
      rw [hResume]
      apply hInv.record (d := h.queue)
        ⟨rfl, rfl, rfl, rfl, rfl, rfl⟩
      · rw [List.append_nil]
        exact hMoved
      · rw [hHeld, hInv.accepted, hBlocked]
        rfl
  | reset =>
      rcases hReady.reset with
        ⟨d', m, after, hReset, hMoved, hNone, hBlocked⟩
      refine ⟨_, after, ?_,
        hInv.record_quiet hMoved hNone hBlocked⟩
      simp only [HandOff.call, hReset, Option.map_some]
  | filter f =>
      rcases hReady.filter f with
        ⟨d', m, after, hFilter, hMoved, hNone, hBlocked⟩
      refine ⟨_, after, ?_,
        hInv.record_quiet hMoved hNone hBlocked⟩
      simp only [HandOff.call, hFilter, Option.map_some]
  | filterHop id =>
      rcases hReady.filterHop id with
        ⟨d', m, after, hFilter, hMoved, hNone, hBlocked⟩
      refine ⟨_, after, ?_,
        hInv.record_quiet hMoved hNone hBlocked⟩
      simp only [HandOff.call, hFilter, Option.map_some]
  | shrink_queue =>
      have hMean : h.queue.qib = true →
          0 ≤ h.queue.meanPktsize := by
        intro hBytes
        unfold enabled at hEnabled
        rw [hBytes] at hEnabled
        exact of_decide_eq_true hEnabled
      have hQlim : 1 ≤ h.queue.qlim := by
        rw [hInv.same.qlim]
        exact hLimit
      rcases hReady.shrink_queue hQlim hMean with
        ⟨d', m, after, hShrink, hMoved, hNone, hBlocked⟩
      refine ⟨_, after, ?_,
        hInv.record_quiet hMoved hNone hBlocked⟩
      simp only [HandOff.call, hShrink, Option.map_some]

end HandOff

end Ns2
