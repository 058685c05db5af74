import Mathlib.Algebra.Order.Ring.Int
import Ns2.Common.EventLoop.Operations

/-
  The life cycle of events in the simulator loop.

  `Consistent` ties the sign of an object's id to the queue;
  `Ledger` ties the queue to the log.  Every action of a run
  keeps both.  Cancelling and dispatching are one kind of
  step here: they unlink an event and flip its id.

  Main declarations:
    * `World.Consistent`, `World.Ledger`
    * `World.step_good`, `World.exec_good`
    * `World.run_eq_exec`
    * `World.event_life_cycle`
-/

------------------------------------------------------------
-- Invariants
------------------------------------------------------------

namespace Ns2

namespace Simulator

variable {ι H T : Type}

/- The id of an event object. -/
def uidOf
    (s : Simulator ι H T)
    (e : ι) : Int :=
  (s.objects e).uid

end Simulator

namespace Record

variable {ι T : Type}

/- The id of a schedule entry. -/
def scheduledUid : Record ι T → Option Int
| .scheduled _ uid _ _ => some uid
| _ => none

/- The id of an entry that takes an event off the queue. -/
def closedUid : Record ι T → Option Int
| .scheduled _ _ _ _ => none
| .cancelled _ uid => some uid
| .dispatched _ uid _ => some uid

end Record

namespace World

variable {ι H T : Type}

/- The ids handed out so far. -/
def issued (w : World ι H T) : List Int :=
  w.log.filterMap Record.scheduledUid

/- The ids whose events were cancelled or dispatched. -/
def closed (w : World ι H T) : List Int :=
  w.log.filterMap Record.closedUid

/- The counter after `n` ids were handed out. -/
def Counter
    (n : Nat)
    (uid : Int) : Prop :=
  (n < uidMax ∧ uid = n + 1) ∨
    (n = uidMax ∧ uid = -uidMax - 1)

/- Ids, queue order and clock agree. -/
structure Consistent
    [LinearOrder T]
    (s : Simulator ι H T) : Prop where
  queued : ∀ e, e ∈ s.queue ↔ 0 < s.uidOf e
  nodup : s.queue.Nodup
  distinct : ∀ e ∈ s.queue, ∀ f ∈ s.queue,
    s.uidOf e = s.uidOf f → e = f
  sorted : SortedQueue.Sorted s.due s.queue
  clock_le : ∀ e ∈ s.queue, s.clock ≤ s.due e

/-
  The log accounts for every id: each was handed out once,
  is closed at most once, and is either queued at the due
  time it was scheduled for or closed.
-/
structure Ledger
    [Add T]
    (w : World ι H T) : Prop where
  counter : Counter w.issued.length w.sim.uid
  issued_le : ∀ u ∈ w.issued, 0 < u ∧ u ≤ w.issued.length
  issued_nodup : w.issued.Nodup
  queued_le : ∀ e ∈ w.sim.queue,
    w.sim.uidOf e ≤ w.issued.length
  queued_open : ∀ e ∈ w.sim.queue,
    w.sim.uidOf e ∉ w.closed
  closed_le : ∀ u ∈ w.closed, u ≤ w.issued.length
  closed_nodup : w.closed.Nodup
  fate : ∀ e u now delay,
    Record.scheduled e u now delay ∈ w.log →
      (e ∈ w.sim.queue ∧ w.sim.uidOf e = u ∧
        w.sim.due e = now + delay) ∨
      Record.cancelled e u ∈ w.log ∨
      Record.dispatched e u (now + delay) ∈ w.log

theorem Counter.next
    {n : Nat}
    {uid : Int}
    (hCounter : Counter n uid)
    (hLeft : ¬ uid < 0) :
    uid = n + 1 ∧ Counter (n + 1) (nextUid uid) := by
  have hMax : 0 < uidMax := by decide
  rcases hCounter with ⟨hLt, rfl⟩ | ⟨_, rfl⟩
  · refine ⟨rfl, ?_⟩
    unfold Counter nextUid
    split <;> push_cast <;> omega
  · exact absurd (by omega) hLeft

/- The counter is negative once every id is taken. -/
theorem Counter.neg_iff
    {n : Nat}
    {uid : Int}
    (hCounter : Counter n uid) :
    uid < 0 ↔ uidMax ≤ n := by
  have hMax : 0 < uidMax := by decide
  rcases hCounter with ⟨hLt, rfl⟩ | ⟨hEq, rfl⟩ <;> omega

end World

end Ns2

------------------------------------------------------------
-- What Each Call Does
------------------------------------------------------------

namespace Ns2

namespace Simulator

variable {ι H T : Type} [DecidableEq ι]

@[simp] theorem flipUid_uidOf_self
    (s : Simulator ι H T)
    (e : ι) :
    (s.flipUid e).uidOf e = -s.uidOf e := by
  simp [flipUid, uidOf]

@[simp] theorem flipUid_uidOf_of_ne
    (s : Simulator ι H T)
    {e f : ι}
    (hNe : f ≠ e) :
    (s.flipUid e).uidOf f = s.uidOf f := by
  simp [flipUid, uidOf, hNe]

@[simp] theorem flipUid_due
    (s : Simulator ι H T)
    (e : ι) :
    (s.flipUid e).due = s.due := by
  funext f
  by_cases hEq : f = e
  · subst hEq
    simp [flipUid, due]
  · simp [flipUid, due, hEq]

/- The state after an accepted schedule call. -/
structure Scheduled
    [Add T] [LinearOrder T]
    (s s' : Simulator ι H T)
    (e : ι)
    (delay : T) : Prop where
  clock_eq : s'.clock = s.clock
  uid_eq : s'.uid = nextUid s.uid
  queue_eq : s'.queue = SortedQueue.insert s'.due e s.queue
  uidOf_self : s'.uidOf e = s.uid
  due_self : s'.due e = s.clock + delay
  uidOf_of_ne : ∀ f, f ≠ e → s'.uidOf f = s.uidOf f
  due_of_ne : ∀ f, f ≠ e → s'.due f = s.due f

/- The three outcomes of a schedule call. -/
theorem schedule_cases
    [Add T] [LinearOrder T]
    (s : Simulator ι H T)
    (h : H)
    (e : ι)
    (delay : T) :
    (0 < s.uidOf e ∧
      s.schedule (some h) e delay = .error .uidNotValid) ∨
    (s.uidOf e ≤ 0 ∧ s.uid < 0 ∧
      s.schedule (some h) e delay =
        .error .uidSpaceExhausted) ∨
    (s.uidOf e ≤ 0 ∧ ¬ s.uid < 0 ∧
      ∃ s', s.schedule (some h) e delay = .ok s' ∧
        Scheduled s s' e delay) := by
  unfold schedule
  by_cases hQueued : 0 < (s.objects e).uid
  · exact Or.inl ⟨hQueued, if_pos hQueued⟩
  · have hFree : s.uidOf e ≤ 0 := not_lt.mp hQueued
    by_cases hNeg : s.uid < 0
    · refine Or.inr (Or.inl ⟨hFree, hNeg, ?_⟩)
      simp only [if_neg hQueued, if_pos hNeg]
    · refine Or.inr (Or.inr ⟨hFree, hNeg, ?_⟩)
      simp only [if_neg hQueued, if_neg hNeg]
      refine ⟨_, rfl, ?_⟩
      constructor
      case queue_eq => exact ListScheduler.insert_eq _ _ _
      case uidOf_of_ne =>
        intro f hNe
        simp [uidOf, hNe]
      case due_of_ne =>
        intro f hNe
        simp [due, hNe]
      all_goals simp [uidOf, due]

/- A step that unlinks `e` and flips the sign of its id. -/
structure Removed
    (s s' : Simulator ι H T)
    (e : ι) : Prop where
  mem : e ∈ s.queue
  uid_eq : s'.uid = s.uid
  queue_eq : s'.queue = s.queue.erase e
  uidOf_self : s'.uidOf e = -s.uidOf e
  uidOf_of_ne : ∀ f, f ≠ e → s'.uidOf f = s.uidOf f
  due_eq : s'.due = s.due

theorem flipUid_removed
    (s : Simulator ι H T)
    {s' : Simulator ι H T}
    {e : ι}
    (hMem : e ∈ s.queue)
    (hUid : s'.uid = s.uid)
    (hQueue : s'.queue = s.queue.erase e)
    (hObjects : s'.objects = s.objects) :
    Removed s (s'.flipUid e) e where
  mem := hMem
  uid_eq := hUid
  queue_eq := hQueue
  uidOf_self := by
    rw [flipUid_uidOf_self, uidOf, uidOf, hObjects]
  uidOf_of_ne := by
    intro f hNe
    rw [flipUid_uidOf_of_ne _ hNe, uidOf, uidOf, hObjects]
  due_eq := by
    rw [flipUid_due]
    funext f
    rw [due, due, hObjects]

/- The two outcomes of a cancel call, given consistency. -/
theorem cancel_cases
    [LinearOrder T]
    {s : Simulator ι H T}
    (hCons : World.Consistent s)
    (e : ι) :
    (s.uidOf e ≤ 0 ∧ s.cancel e = .ok s) ∨
    (0 < s.uidOf e ∧ ∃ s', s.cancel e = .ok s' ∧
      s'.clock = s.clock ∧ Removed s s' e) := by
  unfold cancel
  by_cases hFree : (s.objects e).uid ≤ 0
  · exact Or.inl ⟨hFree, if_pos hFree⟩
  · have hPos : 0 < s.uidOf e := not_le.mp hFree
    have hMem : e ∈ s.queue := (hCons.queued e).mpr hPos
    have hUnlink :
        ListScheduler.unlink e s.queue =
          some (s.queue.erase e) :=
      (ListScheduler.unlink_eq_some_iff e _ _).mpr
        ⟨hMem, rfl⟩
    refine Or.inr ⟨hPos, ?_⟩
    simp only [if_neg hFree, hUnlink]
    exact ⟨_, rfl, rfl, flipUid_removed s hMem rfl rfl rfl⟩

/- The three outcomes of a round, given consistency. -/
theorem next_cases
    [LinearOrder T]
    {s : Simulator ι H T}
    (hCons : World.Consistent s) :
    (s.halted = true ∧ s.next = .ok (none, s)) ∨
    (s.halted = false ∧ s.queue = [] ∧
      s.next = .ok (none, s)) ∨
    (s.halted = false ∧
      ∃ e s', s.next = .ok (some e, s') ∧
        s'.clock = s.due e ∧ Removed s s' e ∧
        ∀ f ∈ s.queue, s.due e ≤ s.due f) := by
  unfold next
  by_cases hHalted : s.halted = true
  · exact Or.inl ⟨hHalted, if_pos hHalted⟩
  · rw [if_neg hHalted, Bool.not_eq_true] at *
    cases hQueue : s.queue with
    | nil =>
        refine Or.inr (Or.inl ⟨hHalted, rfl, ?_⟩)
        change Except.ok (none, { s with queue := [] }) = _
        rw [← hQueue]
    | cons e rest =>
        have hMem : e ∈ s.queue := by simp [hQueue]
        have hLate : ¬ s.due e < s.clock :=
          not_lt.mpr (hCons.clock_le e hMem)
        have hFirst : ∀ f ∈ e :: rest,
            s.due e ≤ s.due f := by
          have hSorted := hCons.sorted
          rw [hQueue] at hSorted
          exact fun f => hSorted.head_le
        have hRemoved :
            Removed s
              (flipUid { s with
                clock := s.due e, queue := rest } e) e := by
          refine flipUid_removed s hMem rfl ?_ rfl
          simp [hQueue]
        refine Or.inr (Or.inr ⟨hHalted, e, _, ?_, rfl,
          hRemoved, hFirst⟩)
        simp only [ListScheduler.deque, dispatch,
          if_neg hLate]
        rfl

end Simulator

end Ns2

------------------------------------------------------------
-- Preservation
------------------------------------------------------------

namespace Ns2

namespace World

variable {ι H T : Type} [DecidableEq ι] [LinearOrder T]

/- An accepted schedule call keeps consistency. -/
theorem Consistent.scheduled
    [AddZeroClass T] [AddLeftMono T]
    {s s' : Simulator ι H T}
    {e : ι}
    {delay : T}
    (hCons : Consistent s)
    (hSched : Simulator.Scheduled s s' e delay)
    (hFree : s.uidOf e ≤ 0)
    (hPos : 0 < s.uid)
    (hNew : ∀ f ∈ s.queue, s.uidOf f ≠ s.uid)
    (hDelay : 0 ≤ delay) :
    Consistent s' := by
  have hOut : e ∉ s.queue := by
    rw [hCons.queued e]
    exact not_lt.mpr hFree
  have hNe : ∀ f ∈ s.queue, f ≠ e := by
    rintro f hf rfl
    exact hOut hf
  have hMem : ∀ f, f ∈ s'.queue ↔ f = e ∨ f ∈ s.queue := by
    intro f
    rw [hSched.queue_eq, SortedQueue.mem_insert]
  constructor
  case queued =>
    intro f
    rw [hMem]
    by_cases hEq : f = e
    · simp [hEq, hSched.uidOf_self, hPos]
    · simp [hEq, hSched.uidOf_of_ne f hEq, hCons.queued f]
  case nodup =>
    rw [hSched.queue_eq,
      (SortedQueue.insert_perm _ _ _).nodup_iff]
    exact List.nodup_cons.mpr ⟨hOut, hCons.nodup⟩
  case distinct =>
    intro f hf g hg hUid
    rcases (hMem f).mp hf with hf | hf <;>
      rcases (hMem g).mp hg with hg | hg
    · exact hf.trans hg.symm
    · rw [hf, hSched.uidOf_self,
        hSched.uidOf_of_ne g (hNe g hg)] at hUid
      exact absurd hUid.symm (hNew g hg)
    · rw [hg, hSched.uidOf_self,
        hSched.uidOf_of_ne f (hNe f hf)] at hUid
      exact absurd hUid (hNew f hf)
    · rw [hSched.uidOf_of_ne f (hNe f hf),
        hSched.uidOf_of_ne g (hNe g hg)] at hUid
      exact hCons.distinct f hf g hg hUid
  case sorted =>
    rw [hSched.queue_eq]
    refine SortedQueue.Sorted.insert ?_ e
    refine List.Pairwise.imp_of_mem ?_ hCons.sorted
    intro f g hf hg hLe
    rwa [hSched.due_of_ne f (hNe f hf),
      hSched.due_of_ne g (hNe g hg)]
  case clock_le =>
    intro f hf
    rw [hSched.clock_eq]
    rcases (hMem f).mp hf with rfl | hf
    · rw [hSched.due_self]
      exact le_add_of_nonneg_right hDelay
    · rw [hSched.due_of_ne f (hNe f hf)]
      exact hCons.clock_le f hf

/- Unlinking an event keeps consistency. -/
theorem Consistent.removed
    {s s' : Simulator ι H T}
    {e : ι}
    (hCons : Consistent s)
    (hRemoved : Simulator.Removed s s' e)
    (hClock : ∀ f ∈ s.queue, s'.clock ≤ s.due f) :
    Consistent s' := by
  have hPos := (hCons.queued e).mp hRemoved.mem
  have hMem : ∀ f, f ∈ s'.queue ↔ f ≠ e ∧ f ∈ s.queue := by
    intro f
    rw [hRemoved.queue_eq, hCons.nodup.mem_erase_iff]
  constructor
  case queued =>
    intro f
    rw [hMem]
    by_cases hEq : f = e
    · simp [hEq, hRemoved.uidOf_self, hPos.le]
    · simp [hEq, hRemoved.uidOf_of_ne f hEq,
        hCons.queued f]
  case nodup =>
    rw [hRemoved.queue_eq]
    exact hCons.nodup.erase e
  case distinct =>
    intro f hf g hg hUid
    have hf := (hMem f).mp hf
    have hg := (hMem g).mp hg
    rw [hRemoved.uidOf_of_ne f hf.1,
      hRemoved.uidOf_of_ne g hg.1] at hUid
    exact hCons.distinct f hf.2 g hg.2 hUid
  case sorted =>
    rw [hRemoved.queue_eq, hRemoved.due_eq]
    exact hCons.sorted.sublist List.erase_sublist
  case clock_le =>
    intro f hf
    rw [hRemoved.due_eq]
    exact hClock f ((hMem f).mp hf).2

omit [DecidableEq ι] in
/- An accepted schedule call keeps the ledger. -/
theorem Ledger.scheduled
    [Add T]
    {w : World ι H T}
    {s' : Simulator ι H T}
    {e : ι}
    {delay : T}
    (hCons : Consistent w.sim)
    (hLedger : Ledger w)
    (hSched : Simulator.Scheduled w.sim s' e delay)
    (hFree : w.sim.uidOf e ≤ 0)
    (hLeft : ¬ w.sim.uid < 0) :
    Ledger ⟨s', .scheduled e w.sim.uid w.sim.clock delay ::
      w.log⟩ := by
  rcases hLedger.counter.next hLeft with ⟨hUid, hCounter⟩
  have hNe : ∀ f ∈ w.sim.queue, f ≠ e := by
    rintro f hf rfl
    exact absurd ((hCons.queued f).mp hf) (not_lt.mpr hFree)
  have hMem : ∀ f, f ∈ s'.queue ↔
      f = e ∨ f ∈ w.sim.queue := by
    intro f
    rw [hSched.queue_eq, SortedQueue.mem_insert]
  have hIssued :
      World.issued ⟨s', .scheduled e w.sim.uid w.sim.clock
        delay :: w.log⟩ = w.sim.uid :: w.issued := rfl
  have hClosed :
      World.closed ⟨s', .scheduled e w.sim.uid w.sim.clock
        delay :: w.log⟩ = w.closed := rfl
  constructor
  case counter =>
    rw [hIssued, List.length_cons, hSched.uid_eq]
    exact hCounter
  case issued_le =>
    intro u hu
    rw [hIssued] at hu
    rw [hIssued, List.length_cons]
    push_cast
    rcases List.mem_cons.mp hu with rfl | hu
    · omega
    · have := hLedger.issued_le u hu
      omega
  case issued_nodup =>
    rw [hIssued, List.nodup_cons]
    refine ⟨?_, hLedger.issued_nodup⟩
    intro hu
    have := hLedger.issued_le _ hu
    omega
  case queued_le =>
    intro f hf
    rw [hIssued, List.length_cons]
    push_cast
    rcases (hMem f).mp hf with rfl | hf
    · exact (hSched.uidOf_self.trans hUid).le
    · have hLe := hLedger.queued_le f hf
      rw [← hSched.uidOf_of_ne f (hNe f hf)] at hLe
      omega
  case queued_open =>
    intro f hf
    rw [hClosed]
    rcases (hMem f).mp hf with rfl | hf
    · rw [hSched.uidOf_self]
      intro hu
      have := hLedger.closed_le _ hu
      omega
    · rw [hSched.uidOf_of_ne f (hNe f hf)]
      exact hLedger.queued_open f hf
  case closed_le =>
    intro u hu
    have := hLedger.closed_le u hu
    rw [hIssued, List.length_cons]
    push_cast
    omega
  case closed_nodup => exact hLedger.closed_nodup
  case fate =>
    intro f u now delay' hRecord
    rcases List.mem_cons.mp hRecord with hNew | hOld
    · cases hNew
      exact Or.inl ⟨(hMem e).mpr (Or.inl rfl),
        hSched.uidOf_self, hSched.due_self⟩
    · rcases hLedger.fate f u now delay' hOld with
        ⟨hf, hu, hDue⟩ | hCancelled | hDispatched
      · refine Or.inl ⟨(hMem f).mpr (Or.inr hf), ?_, ?_⟩
        · rw [hSched.uidOf_of_ne f (hNe f hf), hu]
        · rw [hSched.due_of_ne f (hNe f hf), hDue]
      · exact Or.inr (Or.inl (List.mem_cons_of_mem _
          hCancelled))
      · exact Or.inr (Or.inr (List.mem_cons_of_mem _
          hDispatched))

/-
  Unlinking an event keeps the ledger, once its id is
  entered as cancelled, or as dispatched at its due time.
-/
theorem Ledger.removed
    [Add T]
    {w : World ι H T}
    {s' : Simulator ι H T}
    {e : ι}
    {r : Record ι T}
    (hCons : Consistent w.sim)
    (hLedger : Ledger w)
    (hRemoved : Simulator.Removed w.sim s' e)
    (hRecord : r = .cancelled e (w.sim.uidOf e) ∨
      r = .dispatched e (w.sim.uidOf e) (w.sim.due e)) :
    Ledger ⟨s', r :: w.log⟩ := by
  have hMem : ∀ f, f ∈ s'.queue ↔
      f ≠ e ∧ f ∈ w.sim.queue := by
    intro f
    rw [hRemoved.queue_eq, hCons.nodup.mem_erase_iff]
  have hIssued :
      World.issued ⟨s', r :: w.log⟩ = w.issued := by
    rcases hRecord with rfl | rfl <;> rfl
  have hClosed :
      World.closed ⟨s', r :: w.log⟩ =
        w.sim.uidOf e :: w.closed := by
    rcases hRecord with rfl | rfl <;> rfl
  constructor
  case counter =>
    rw [hIssued, hRemoved.uid_eq]
    exact hLedger.counter
  case issued_le =>
    rw [hIssued]
    exact hLedger.issued_le
  case issued_nodup =>
    rw [hIssued]
    exact hLedger.issued_nodup
  case queued_le =>
    intro f hf
    have hf := (hMem f).mp hf
    rw [hIssued, hRemoved.uidOf_of_ne f hf.1]
    exact hLedger.queued_le f hf.2
  case queued_open =>
    intro f hf
    have hf := (hMem f).mp hf
    rw [hClosed, hRemoved.uidOf_of_ne f hf.1,
      List.mem_cons]
    rintro (hEq | hOld)
    · exact hf.1 (hCons.distinct f hf.2 e hRemoved.mem hEq)
    · exact hLedger.queued_open f hf.2 hOld
  case closed_le =>
    intro u hu
    rw [hClosed] at hu
    rw [hIssued]
    rcases List.mem_cons.mp hu with rfl | hu
    · exact hLedger.queued_le e hRemoved.mem
    · exact hLedger.closed_le u hu
  case closed_nodup =>
    rw [hClosed, List.nodup_cons]
    exact ⟨hLedger.queued_open e hRemoved.mem,
      hLedger.closed_nodup⟩
  case fate =>
    intro f u now delay hOld
    have hOld : Record.scheduled f u now delay ∈ w.log := by
      rcases List.mem_cons.mp hOld with hEq | hOld
      · rcases hRecord with rfl | rfl <;> cases hEq
      · exact hOld
    rcases hLedger.fate f u now delay hOld with
      ⟨hf, rfl, hDue⟩ | hCancelled | hDispatched
    · by_cases hEq : f = e
      · subst hEq
        rw [← hDue]
        rcases hRecord with rfl | rfl
        · exact Or.inr (Or.inl (by simp))
        · exact Or.inr (Or.inr (by simp))
      · refine Or.inl ⟨(hMem f).mpr ⟨hEq, hf⟩, ?_, ?_⟩
        · exact hRemoved.uidOf_of_ne f hEq
        · rw [hRemoved.due_eq, hDue]
    · exact Or.inr (Or.inl (List.mem_cons_of_mem _
        hCancelled))
    · exact Or.inr (Or.inr (List.mem_cons_of_mem _
        hDispatched))

end World

end Ns2

------------------------------------------------------------
-- Runs
------------------------------------------------------------

namespace Ns2

namespace World

variable {ι H T : Type} [DecidableEq ι] [LinearOrder T]

/- The invariant of a run. -/
structure Good
    [Add T]
    (w : World ι H T) : Prop where
  consistent : Consistent w.sim
  ledger : Ledger w

/- The delay of a schedule call is not negative. -/
def NonnegDelay
    [Zero T] : Action ι H T → Prop
| .call (.schedule _ _ delay) => 0 ≤ delay
| _ => True

omit [DecidableEq ι] in
theorem init_good
    [AddZeroClass T] :
    Good (World.init ι H T) := by
  have hMax : (0 : Int) < uidMax := by decide
  constructor
  · constructor <;>
      simp [World.init, Simulator.init, Simulator.uidOf,
        SortedQueue.Sorted]
  · constructor
    case counter => exact Or.inl ⟨hMax, rfl⟩
    all_goals
      simp [World.init, Simulator.init, issued, closed]

omit [DecidableEq ι] in
/- The invariant does not read the halted flag. -/
theorem Good.setHalted
    [Add T]
    {w : World ι H T}
    (hGood : Good w)
    (halted : Bool) :
    Good { w with
      sim := { w.sim with halted := halted } } :=
  ⟨{ hGood.consistent with }, { hGood.ledger with }⟩

theorem Good.schedule
    [AddZeroClass T] [AddLeftMono T]
    {w w' : World ι H T}
    (hGood : Good w)
    {h : H}
    {e : ι}
    {delay : T}
    (hDelay : 0 ≤ delay)
    (hCall : w.call (.schedule h e delay) = .ok w') :
    Good w' ∧ w.sim.clock ≤ w'.sim.clock := by
  rcases w.sim.schedule_cases h e delay with
    ⟨_, hError⟩ | ⟨_, _, hError⟩ |
      ⟨hFree, hLeft, s', hOk, hSched⟩
  · simp [call, hError, Except.map] at hCall
  · simp [call, hError, Except.map] at hCall
  · rw [call, hOk] at hCall
    cases hCall
    rcases hGood.ledger.counter.next hLeft with ⟨hUid, _⟩
    have hNew : ∀ f ∈ w.sim.queue,
        w.sim.uidOf f ≠ w.sim.uid := by
      intro f hf
      have := hGood.ledger.queued_le f hf
      omega
    have hPos : 0 < w.sim.uid := by omega
    exact ⟨⟨hGood.consistent.scheduled hSched hFree hPos
        hNew hDelay,
      hGood.ledger.scheduled hGood.consistent hSched hFree
        hLeft⟩, hSched.clock_eq.ge⟩

/- A cancel call never aborts and takes `e` off the queue. -/
theorem Good.cancel
    [Add T]
    {w : World ι H T}
    (hGood : Good w)
    (e : ι) :
    ∃ w', w.call (.cancel e) = .ok w' ∧ Good w' ∧
      w'.sim.clock = w.sim.clock ∧
      w'.sim.queue = w.sim.queue.erase e ∧
      w'.issued = w.issued := by
  have hCons := hGood.consistent
  rcases Simulator.cancel_cases hCons e with
    ⟨hFree, hOk⟩ | ⟨hPos, s', hOk, hClock, hRemoved⟩
  · have hUid : (w.sim.objects e).uid ≤ 0 := hFree
    have hOut : e ∉ w.sim.queue := by
      rw [hCons.queued e]
      exact not_lt.mpr hFree
    refine ⟨w, ?_, hGood, rfl, ?_, rfl⟩
    · simp only [call, hOk, if_pos hUid]
      rfl
    · exact (List.erase_of_not_mem hOut).symm
  · have hUid : ¬ (w.sim.objects e).uid ≤ 0 :=
      not_le.mpr hPos
    refine ⟨⟨s', .cancelled e (w.sim.uidOf e) :: w.log⟩,
      ?_, ⟨?_, ?_⟩, hClock, hRemoved.queue_eq, rfl⟩
    · simp only [call, hOk, if_neg hUid]
      rfl
    · refine hCons.removed hRemoved ?_
      rw [hClock]
      exact hCons.clock_le
    · exact hGood.ledger.removed hCons hRemoved
        (Or.inl rfl)

/-
  A round never aborts.  The loop ends only when halted or
  when the queue is empty.
-/
theorem Good.next
    [Add T]
    {w : World ι H T}
    (hGood : Good w) :
    ∃ r, w.next = .ok r ∧ Good r.2 ∧
      w.sim.clock ≤ r.2.sim.clock ∧
      (r.1 = none →
        w.sim.halted = true ∨ w.sim.queue = []) := by
  rcases Simulator.next_cases hGood.consistent with
    ⟨hHalted, hOk⟩ | ⟨_, hEmpty, hOk⟩ |
      ⟨_, e, s', hOk, hClock, hRemoved, hFirst⟩
  · refine ⟨(none, w), ?_, hGood, le_rfl, ?_⟩
    · simp only [World.next, hOk]
      rfl
    · exact fun _ => Or.inl hHalted
  · refine ⟨(none, w), ?_, hGood, le_rfl, ?_⟩
    · simp only [World.next, hOk]
      rfl
    · exact fun _ => Or.inr hEmpty
  · refine ⟨(some e, ⟨s', .dispatched e (w.sim.uidOf e)
      s'.clock :: w.log⟩), ?_, ⟨?_, ?_⟩, ?_, ?_⟩
    · simp only [World.next, hOk]
      rfl
    · refine hGood.consistent.removed hRemoved ?_
      rw [hClock]
      exact hFirst
    · refine hGood.ledger.removed hGood.consistent
        hRemoved (Or.inr ?_)
      rw [hClock]
    · rw [hClock]
      exact hGood.consistent.clock_le e hRemoved.mem
    · exact nofun

/- Every action keeps the invariant; time does not go back. -/
theorem step_good
    [AddZeroClass T] [AddLeftMono T]
    {w w' : World ι H T}
    (hGood : Good w)
    {a : Action ι H T}
    (hDelay : NonnegDelay a)
    (hStep : w.step a = .ok w') :
    Good w' ∧ w.sim.clock ≤ w'.sim.clock := by
  cases a with
  | call c =>
      cases c with
      | schedule h e delay =>
          exact hGood.schedule hDelay hStep
      | cancel e =>
          rcases hGood.cancel e with
            ⟨w₁, hOk, hGood₁, hClock, _⟩
          cases hOk.symm.trans hStep
          exact ⟨hGood₁, hClock.ge⟩
      | halt =>
          cases hStep
          exact ⟨hGood.setHalted true, le_rfl⟩
  | next =>
      rcases hGood.next with ⟨r, hOk, hGood₁, hClock, _⟩
      rw [step, hOk] at hStep
      cases hStep
      exact ⟨hGood₁, hClock⟩
  | resume =>
      cases hStep
      exact ⟨hGood.setHalted false, le_rfl⟩

theorem exec_good
    [AddZeroClass T] [AddLeftMono T]
    {w w' : World ι H T}
    (hGood : Good w)
    {actions : List (Action ι H T)}
    (hDelays : ∀ a ∈ actions, NonnegDelay a)
    (hExec : w.exec actions = .ok w') :
    Good w' := by
  induction actions generalizing w with
  | nil =>
      cases hExec
      exact hGood
  | cons a actions ih =>
      rw [exec] at hExec
      cases hStep : w.step a with
      | error _ => rw [hStep] at hExec; cases hExec
      | ok w₁ =>
          rw [hStep] at hExec
          exact ih
            (step_good hGood (hDelays a (by simp)) hStep).1
            (fun b hb => hDelays b (by simp [hb])) hExec

theorem exec_append
    [Add T]
    (w : World ι H T)
    (first second : List (Action ι H T)) :
    w.exec (first ++ second) =
      (w.exec first).bind (exec · second) := by
  induction first generalizing w with
  | nil => rfl
  | cons a first ih =>
      simp only [List.cons_append, exec]
      cases w.step a with
      | error _ => rfl
      | ok w₁ => exact ih w₁

/- Running the loop is executing some list of actions. -/
theorem run_eq_exec
    [AddZeroClass T]
    (handle : Nat → Option H → ι → List (Call ι H T))
    (hHandle : ∀ n h e, ∀ c ∈ handle n h e,
      NonnegDelay (.call c))
    (n fuel : Nat)
    (w : World ι H T) :
    ∃ actions : List (Action ι H T),
      (∀ a ∈ actions, NonnegDelay a) ∧
        w.run handle n fuel = w.exec actions := by
  induction fuel generalizing n w with
  | zero => exact ⟨[], by simp, rfl⟩
  | succ fuel ih =>
      cases hNext : w.next with
      | error a =>
          refine ⟨[.next], by simp [NonnegDelay], ?_⟩
          simp only [run, exec, step, hNext]
          rfl
      | ok r =>
          rcases r with ⟨_ | e, w₁⟩
          · refine ⟨[.next], by simp [NonnegDelay], ?_⟩
            simp only [run, exec, step, hNext]
            rfl
          · let calls : List (Action ι H T) :=
              (handle n (w₁.sim.objects e).handler e).map
                .call
            have hCalls : ∀ a ∈ calls, NonnegDelay a := by
              intro a ha
              rcases List.mem_map.mp ha with ⟨c, hc, rfl⟩
              exact hHandle n _ e c hc
            have hRun : w.run handle n (fuel + 1) =
                (w₁.exec calls).bind
                  (run handle (n + 1) · fuel) := by
              simp only [run, hNext]
              rfl
            have hHead : ∀ rest : List (Action ι H T),
                w.exec (.next :: rest) = w₁.exec rest := by
              intro rest
              simp only [exec, step, hNext]
              rfl
            cases hBody : w₁.exec calls with
            | error a =>
                refine ⟨.next :: calls, ?_, ?_⟩
                · exact List.forall_mem_cons.mpr
                    ⟨trivial, hCalls⟩
                · rw [hRun, hHead, hBody]
                  rfl
            | ok w₂ =>
                rcases ih (n + 1) w₂ with
                  ⟨rest, hRest, hEq⟩
                refine ⟨.next :: (calls ++ rest), ?_, ?_⟩
                · refine List.forall_mem_cons.mpr
                    ⟨trivial, ?_⟩
                  exact List.forall_mem_append.mpr
                    ⟨hCalls, hRest⟩
                · rw [hRun, hHead, exec_append, hBody]
                  exact hEq

/-
  The life of events, at every moment of every run whose
  delays are not negative.  The queue holds exactly the
  objects of positive id, each once and under its own id.  A
  queued event cannot be scheduled; an unqueued one can,
  until the ids run out.  Cancelling and the loop never
  abort and no step turns back the clock.  Each schedule has
  its own id, taken off the queue at most once; what was
  scheduled is queued at its due time, cancelled, or was
  dispatched at exactly that time.
-/
theorem event_life_cycle
    [AddZeroClass T] [AddLeftMono T]
    (actions : List (Action ι H T))
    (hDelays : ∀ a ∈ actions, NonnegDelay a)
    (w : World ι H T)
    (hExec : (World.init ι H T).exec actions = .ok w) :
    (∀ e, e ∈ w.sim.queue ↔ 0 < w.sim.uidOf e) ∧
      w.sim.queue.Nodup ∧
      (∀ e ∈ w.sim.queue, ∀ f ∈ w.sim.queue,
        w.sim.uidOf e = w.sim.uidOf f → e = f) ∧
      (∀ h e delay, e ∈ w.sim.queue →
        w.call (.schedule h e delay) =
          .error .uidNotValid) ∧
      (∀ h e delay, e ∉ w.sim.queue →
        w.issued.length < uidMax →
          ∃ w', w.call (.schedule h e delay) = .ok w' ∧
            e ∈ w'.sim.queue) ∧
      (∀ h e delay, e ∉ w.sim.queue →
        uidMax ≤ w.issued.length →
          w.call (.schedule h e delay) =
            .error .uidSpaceExhausted) ∧
      (∀ e, ∃ w', w.call (.cancel e) = .ok w') ∧
      (∃ r, w.next = .ok r ∧
        (r.1 = none →
          w.sim.halted = true ∨ w.sim.queue = [])) ∧
      (∀ a w', NonnegDelay a → w.step a = .ok w' →
        w.sim.clock ≤ w'.sim.clock) ∧
      w.issued.Nodup ∧
      w.closed.Nodup ∧
      (∀ e u now delay,
        Record.scheduled e u now delay ∈ w.log →
          (e ∈ w.sim.queue ∧ w.sim.uidOf e = u ∧
            w.sim.due e = now + delay) ∨
          Record.cancelled e u ∈ w.log ∨
          Record.dispatched e u (now + delay) ∈ w.log) ∧
      (∀ (handle : Nat → Option H → ι → List (Call ι H T))
          (n fuel : Nat),
        (∀ n h e, ∀ c ∈ handle n h e,
          NonnegDelay (.call c)) →
          ∃ more : List (Action ι H T),
            (∀ a ∈ more, NonnegDelay a) ∧
              w.run handle n fuel =
                (World.init ι H T).exec
                  (actions ++ more)) := by
  have hGood : Good w := exec_good init_good hDelays hExec
  have hCons := hGood.consistent
  have hLedger := hGood.ledger
  refine ⟨hCons.queued, hCons.nodup, hCons.distinct,
    ?_, ?_, ?_, ?_, ?_, ?_, hLedger.issued_nodup,
    hLedger.closed_nodup, hLedger.fate, ?_⟩
  · intro h e delay hQueued
    have hPos := (hCons.queued e).mp hQueued
    rcases w.sim.schedule_cases h e delay with
      ⟨_, hError⟩ | ⟨hFree, _⟩ | ⟨hFree, _⟩
    · rw [call, hError]
      rfl
    · exact absurd hPos (not_lt.mpr hFree)
    · exact absurd hPos (not_lt.mpr hFree)
  · intro h e delay hOut hIds
    rcases w.sim.schedule_cases h e delay with
      ⟨hPos, _⟩ | ⟨_, hNeg, _⟩ | ⟨_, _, s', hOk, hSched⟩
    · exact absurd ((hCons.queued e).mpr hPos) hOut
    · exact absurd (hLedger.counter.neg_iff.mp hNeg)
        (not_le.mpr hIds)
    · rw [call, hOk]
      refine ⟨_, rfl, ?_⟩
      change e ∈ s'.queue
      rw [hSched.queue_eq]
      simp
  · intro h e delay hOut hIds
    have hNeg := hLedger.counter.neg_iff.mpr hIds
    rcases w.sim.schedule_cases h e delay with
      ⟨hPos, _⟩ | ⟨_, _, hError⟩ | ⟨_, hLeft, _⟩
    · exact absurd ((hCons.queued e).mpr hPos) hOut
    · rw [call, hError]
      rfl
    · exact absurd hNeg hLeft
  · intro e
    rcases hGood.cancel e with ⟨w', hOk, _⟩
    exact ⟨w', hOk⟩
  · rcases hGood.next with ⟨r, hOk, _, _, hEnd⟩
    exact ⟨r, hOk, hEnd⟩
  · intro a w' hDelay hStep
    exact (step_good hGood hDelay hStep).2
  · intro handle n fuel hHandle
    rcases run_eq_exec handle hHandle n fuel w with
      ⟨more, hMore, hRun⟩
    refine ⟨more, hMore, ?_⟩
    rw [exec_append, hExec]
    exact hRun

/-
  A handler that cancels another event and schedules its own
  event again.
-/
theorem event_life_cycle_reschedule :
    ∃ w : World Bool Unit ℤ,
      (World.init Bool Unit ℤ).exec
        [.call (.schedule () true 2),
          .call (.schedule () false 5), .next,
          .call (.cancel false),
          .call (.schedule () true 1), .next] = .ok w ∧
      w.sim.queue = [] ∧
      w.closed = [3, 2, 1] ∧
      w.closed.Nodup ∧
      (∃ r, w.next = .ok r ∧
        (r.1 = none →
          w.sim.halted = true ∨ w.sim.queue = [])) := by
  let actions : List (Action Bool Unit ℤ) :=
    [.call (.schedule () true 2),
      .call (.schedule () false 5), .next,
      .call (.cancel false),
      .call (.schedule () true 1), .next]
  have hLife := event_life_cycle actions
    (by simp [actions, NonnegDelay]) _ rfl
  rcases hLife with
    ⟨_, _, _, _, _, _, _, hNext, _, _, hClosed, _⟩
  exact ⟨_, rfl, rfl, rfl, hClosed, hNext⟩

end World

end Ns2

------------------------------------------------------------
-- Exhausted Ids
------------------------------------------------------------

namespace Ns2

namespace World

/- Schedule and cancel one event, `n` times over. -/
def scheduleCancel :
    Nat → List (Action Unit Unit ℤ)
| 0 => []
| n + 1 =>
    scheduleCancel n ++
      [.call (.schedule () () 0), .call (.cancel ())]

/- Each round of schedule and cancel takes an id. -/
theorem exec_scheduleCancel
    (n : Nat)
    (hIds : n ≤ uidMax) :
    ∃ w, (World.init Unit Unit ℤ).exec
        (scheduleCancel n) = .ok w ∧
      Good w ∧ w.sim.queue = [] ∧ w.issued.length = n := by
  induction n with
  | zero => exact ⟨_, rfl, init_good, rfl, rfl⟩
  | succ n ih =>
      push_cast at hIds
      rcases ih (by omega) with
        ⟨w, hExec, hGood, hEmpty, hCount⟩
      have hFree : () ∉ w.sim.queue := by simp [hEmpty]
      rcases w.sim.schedule_cases () () 0 with
        ⟨hPos, _⟩ | ⟨_, hNeg, _⟩ | ⟨_, _, s', hOk, hSched⟩
      · exact absurd
          ((hGood.consistent.queued ()).mpr hPos) hFree
      · have := hGood.ledger.counter.neg_iff.mp hNeg
        omega
      · have hCall : w.call (.schedule () () 0) =
            .ok ⟨s', .scheduled () w.sim.uid w.sim.clock 0 ::
              w.log⟩ := by
          rw [call, hOk]
          rfl
        rcases hGood.schedule le_rfl hCall with ⟨hGood₁, _⟩
        rcases hGood₁.cancel () with
          ⟨w₂, hCancel, hGood₂, _, hQueue, hIssued⟩
        refine ⟨w₂, ?_, hGood₂, ?_, ?_⟩
        · rw [scheduleCancel, exec_append, hExec]
          simp only [Except.bind, exec, step, hCall, hCancel]
        · have hOne : s'.queue = [()] := by
            rw [hSched.queue_eq, hEmpty]
            rfl
          rw [hQueue]
          simp [hOne]
        · rw [hIssued, ← hCount]
          rfl

/-
  After 2^63 - 1 schedule calls an event that is not queued
  can no longer be scheduled.
-/
theorem schedule_unqueued_aborts :
    ∃ w, (World.init Unit Unit ℤ).exec
        (scheduleCancel (2 ^ 63 - 1)) = .ok w ∧
      () ∉ w.sim.queue ∧
      w.call (.schedule () () 0) =
        .error .uidSpaceExhausted := by
  have hIds : ((2 ^ 63 - 1 : Nat) : Int) = uidMax := by
    decide
  rcases exec_scheduleCancel (2 ^ 63 - 1) hIds.le with
    ⟨w, hExec, hGood, hEmpty, hCount⟩
  have hFree : () ∉ w.sim.queue := by simp [hEmpty]
  refine ⟨w, hExec, hFree, ?_⟩
  have hNeg : w.sim.uid < 0 := by
    rw [hGood.ledger.counter.neg_iff, hCount]
    exact hIds.ge
  rcases w.sim.schedule_cases () () 0 with
    ⟨hPos, _⟩ | ⟨_, _, hError⟩ | ⟨_, hLeft, _⟩
  · exact absurd
      ((hGood.consistent.queued ()).mpr hPos) hFree
  · rw [call, hError]
    rfl
  · exact absurd hNeg hLeft

end World

end Ns2
