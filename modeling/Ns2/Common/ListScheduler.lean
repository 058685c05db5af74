import Mathlib.Algebra.Order.Ring.Int
import Ns2.Common.Scheduler
import Ns2.Lib.SortedQueue

/-
  The list scheduler: a singly linked queue in time order.

  Main declarations:
    * `ListScheduler.insert`, `ListScheduler.cancel`
    * `ListScheduler.deque`, `listScheduler`
    * `ListScheduler.Wf`, kept by every call
-/

------------------------------------------------------------
-- List Scheduler
------------------------------------------------------------

namespace Ns2

namespace ListScheduler

/-
  Walk the queue to the first event due after `e` and link
  `e` in front of it.  The due time is a parameter, so that
  the queue may hold events or the names of event objects.
-/
def insert
    {α T : Type} [LinearOrder T]
    (time : α → T)
    (e : α) : List α → List α
| [] => [e]
| p :: next =>
    if time e < time p then e :: p :: next
    else p :: insert time e next

/- Unlink `e`; `none` when the walk meets the end first. -/
def unlink
    {α : Type} [DecidableEq α]
    (e : α) : List α → Option (List α)
| [] => none
| p :: next =>
    if p = e then some next
    else (unlink e next).map (p :: ·)

variable {T : Type} [LinearOrder T]

/-
  Cancel an event.  Ids that are not positive mark events
  that are not queued; these are left alone.
-/
def cancel
    (queue : List (Event T))
    (e : Event T) : Option (List (Event T)) :=
  if e.uid ≤ 0 then some queue
  else unlink e queue

/- The first event, without removing it. -/
def head
    {α : Type}
    (queue : List α) : Option α :=
  queue.head?

/- The first event and the rest of the queue. -/
def deque
    {α : Type} : List α → Option α × List α
| [] => (none, [])
| e :: next => (some e, next)

end ListScheduler

/- The list scheduler's virtual calls. -/
def listScheduler
    (T : Type) [LinearOrder T] :
    Scheduler T (List (Event T)) where
  insert := fun queue e =>
    some (ListScheduler.insert Event.time e queue)
  cancel := ListScheduler.cancel
  head := fun queue => some (ListScheduler.head queue, queue)
  deque := fun queue => some (ListScheduler.deque queue)

end Ns2

------------------------------------------------------------
-- Queue Order
------------------------------------------------------------

namespace Ns2

namespace ListScheduler

theorem insert_eq
    {α T : Type} [LinearOrder T]
    (time : α → T)
    (e : α)
    (queue : List α) :
    insert time e queue =
      SortedQueue.insert time e queue := by
  induction queue with
  | nil => rfl
  | cons p next ih =>
      simp only [insert, SortedQueue.insert, ih]

/- Unlinking a queued element erases it. -/
theorem unlink_eq_some_iff
    {α : Type} [DecidableEq α]
    (e : α)
    (queue rest : List α) :
    unlink e queue = some rest ↔
      e ∈ queue ∧ rest = queue.erase e := by
  induction queue generalizing rest with
  | nil => simp [unlink]
  | cons p next ih =>
      unfold unlink
      by_cases hEq : p = e
      · simp [hEq, eq_comm]
      · rw [if_neg hEq, List.erase_cons_tail (by simpa)]
        simp only [Option.map_eq_some_iff, ih]
        constructor
        · rintro ⟨rest', ⟨hMem, rfl⟩, rfl⟩
          exact ⟨by simp [hMem], rfl⟩
        · rintro ⟨hMem, rfl⟩
          have hNext : e ∈ next := by
            rcases List.mem_cons.mp hMem with hHere | hNext
            · exact absurd hHere.symm hEq
            · exact hNext
          exact ⟨next.erase e, ⟨hNext, rfl⟩, rfl⟩

variable {T : Type} [LinearOrder T]

/-
  A well-formed queue below the next unique id: positive
  ids, and events in strictly increasing order of time and
  id, so that events of equal time stand in the order they
  were inserted in.
-/
structure Wf
    (uid : Int)
    (queue : List (Event T)) : Prop where
  uid_pos : 0 < uid
  stamped : SortedQueue.Stamped Event.time Event.uid queue
  uids : ∀ e ∈ queue, 0 < e.uid ∧ e.uid < uid

theorem wf_nil : Wf 1 ([] : List (Event T)) where
  uid_pos := Int.one_pos
  stamped := List.Pairwise.nil
  uids := by simp

/- A cancelled event that is not queued changes nothing. -/
theorem cancel_eq_some_iff
    (queue rest : List (Event T))
    (e : Event T) :
    cancel queue e = some rest ↔
      (e.uid ≤ 0 ∧ rest = queue) ∨
        (0 < e.uid ∧ e ∈ queue ∧ rest = queue.erase e) := by
  unfold cancel
  by_cases hUid : e.uid ≤ 0
  · simp [hUid, not_lt.mpr hUid, eq_comm]
  · simp [hUid, not_le.mp hUid, unlink_eq_some_iff]

theorem Wf.insert
    {uid uid' : Int}
    {queue : List (Event T)}
    (hWf : Wf uid queue)
    (hUid : uid ≤ uid')
    (t : T) :
    Wf (uid' + 1)
      (ListScheduler.insert Event.time ⟨t, uid'⟩ queue) where
  uid_pos := by
    have := hWf.uid_pos
    omega
  stamped := by
    rw [insert_eq]
    exact hWf.stamped.insert _
      (fun x hx => (hWf.uids x hx).2.trans_le hUid)
  uids := by
    intro e he
    rw [insert_eq, SortedQueue.mem_insert] at he
    rcases he with rfl | he
    · exact ⟨hWf.uid_pos.trans_le hUid, Int.lt_succ uid'⟩
    · have := hWf.uids e he
      omega

theorem Wf.erase
    {uid : Int}
    {queue : List (Event T)}
    (hWf : Wf uid queue)
    (e : Event T) :
    Wf uid (queue.erase e) where
  uid_pos := hWf.uid_pos
  stamped := hWf.stamped.erase e
  uids := fun x hx => hWf.uids x (List.mem_of_mem_erase hx)

theorem Wf.cancel
    {uid : Int}
    {queue rest : List (Event T)}
    (hWf : Wf uid queue)
    {e : Event T}
    (hCancel : ListScheduler.cancel queue e = some rest) :
    Wf uid rest := by
  rcases (cancel_eq_some_iff queue rest e).mp hCancel with
    ⟨_, rfl⟩ | ⟨_, _, rfl⟩
  · exact hWf
  · exact hWf.erase e

theorem Wf.deque
    {uid : Int}
    {queue : List (Event T)}
    (hWf : Wf uid queue) :
    Wf uid (ListScheduler.deque queue).2 := by
  cases queue with
  | nil => exact hWf
  | cons e next =>
      exact ⟨hWf.uid_pos,
        (List.pairwise_cons.mp hWf.stamped).2,
        fun x hx =>
          hWf.uids x (List.mem_cons_of_mem e hx)⟩

end ListScheduler

end Ns2
