import Ns2.Common.Heap.Correctness
import Ns2.Common.ListScheduler

/-
  Simultaneous events in the heap scheduler.

  Events of equal time are told apart by the stamp of their
  insertion, which wraps at 2^32.  As long as an event never
  meets a queued event of its time whose stamp is not below
  its own, the heap gives events up in the order of time and
  insertion, as the list scheduler does.

  Main declarations:
    * `Heap.heapMin`, `heapScheduler`, `fifoScheduler`
    * `Heap.Queues`, `Heap.Queues.step`
    * `Heap.ties_in_order`, `Heap.deque_overtakes`
-/

------------------------------------------------------------
-- Heap Scheduler
------------------------------------------------------------

namespace Ns2

/- The element at the root. -/
def Heap.heapMin
    {K E : Type}
    (h : Heap K E) : Option E :=
  if 0 < h.hSize then some (h.hElems 0).heElem else none

/- The heap scheduler's virtual calls. -/
def heapScheduler
    (T : Type) [LinearOrder T] :
    Scheduler T (Heap T (Event T)) where
  insert := fun h e => some (h.heapInsert e.time e)
  cancel := fun h e =>
    if e.uid ≤ 0 then some h
    else some (h.heapDelete e).2
  head := fun h => some (h.heapMin, h)
  deque := fun h => some h.heapExtractMin

/-
  The list scheduler, with a walk that stops at the end: to
  cancel an event that is not queued changes nothing.
-/
def fifoScheduler
    (T : Type) [LinearOrder T] :
    Scheduler T (List (Event T)) where
  insert := (listScheduler T).insert
  cancel := fun queue e =>
    if e.uid ≤ 0 then some queue
    else some (queue.erase e)
  head := (listScheduler T).head
  deque := (listScheduler T).deque

end Ns2

------------------------------------------------------------
-- Queued Events
------------------------------------------------------------

namespace Ns2

namespace Heap

variable {T : Type} [LinearOrder T]

/- The heap holds the events of a queue. -/
structure Queues
    (uid : Int)
    (queue : List (Event T))
    (h : Heap T (Event T)) : Prop where
  wf : ListScheduler.Wf uid queue
  ordered : h.Ordered
  events : h.contents.map HeapElem.heElem = queue
  times : ∀ x ∈ h.contents, x.heKey = x.heElem.time
  ties : ∀ x ∈ h.contents, ∀ y ∈ h.contents,
    x.heKey = y.heKey → x.heElem.uid < y.heElem.uid →
      x.heSKey < y.heSKey

theorem queues_new
    (blank : HeapElem T (Event T))
    (size : Nat) :
    Queues 1 [] (new blank size) where
  wf := ListScheduler.wf_nil
  ordered := fun _ _ hi => absurd hi (Nat.not_lt_zero _)
  events := rfl
  times := fun _ hx => absurd hx (Multiset.notMem_zero _)
  ties := fun _ hx => absurd hx (Multiset.notMem_zero _)

variable {uid : Int} {queue : List (Event T)}
variable {h : Heap T (Event T)}

theorem Queues.mem_queue
    (hQueues : Queues uid queue h)
    {x : HeapElem T (Event T)}
    (hx : x ∈ h.contents) :
    x.heElem ∈ queue := by
  rw [← Multiset.mem_coe, ← hQueues.events]
  exact Multiset.mem_map_of_mem _ hx

/- An event has one cell. -/
theorem Queues.cell
    (hQueues : Queues uid queue h)
    {e : Event T}
    (he : e ∈ queue) :
    ∃ x ∈ h.contents, x.heElem = e := by
  rw [← Multiset.mem_coe, ← hQueues.events] at he
  exact Multiset.mem_map.mp he

/- The cells that are left hold the events that are left. -/
theorem Queues.remove
    (hQueues : Queues uid queue h)
    {h' : Heap T (Event T)}
    {m : HeapElem T (Event T)}
    {rest : List (Event T)}
    (hWf : ListScheduler.Wf uid rest)
    (hRest : (rest : Multiset (Event T)) =
      (queue : Multiset (Event T)).erase m.heElem)
    (hOrdered : h'.Ordered)
    (hCells : h.contents = m ::ₘ h'.contents) :
    Queues uid rest h' := by
  have hSub : ∀ x ∈ h'.contents, x ∈ h.contents := by
    intro x hx
    rw [hCells]
    exact Multiset.mem_cons_of_mem hx
  constructor
  case wf => exact hWf
  case ordered => exact hOrdered
  case events =>
    rw [hRest, ← hQueues.events, hCells, Multiset.map_cons,
      Multiset.erase_cons_head]
  case times => exact fun x hx => hQueues.times x (hSub x hx)
  case ties =>
    exact fun x hx y hy =>
      hQueues.ties x (hSub x hx) y (hSub y hy)

/-
  The condition on a call: a new event's stamp is above the
  stamps of the queued events of its time.
-/
def Distinguishes
    (h : Heap T (Event T)) :
    SchedOp T → Prop
| .schedule _ t =>
    ∀ x ∈ h.contents, x.heKey = t → x.heSKey < h.hSKey
| _ => True

theorem Queues.insert
    (hQueues : Queues uid queue h)
    {uid' : Int}
    (hUid : uid ≤ uid')
    (t : T)
    (hTies :
      ∀ x ∈ h.contents, x.heKey = t → x.heSKey < h.hSKey) :
    Queues (uid' + 1)
      (ListScheduler.insert Event.time ⟨t, uid'⟩ queue)
      (h.heapInsert t ⟨t, uid'⟩) := by
  have hSpec := h.heapInsert_spec t ⟨t, uid'⟩ hQueues.ordered
  constructor
  case wf => exact hQueues.wf.insert hUid t
  case ordered => exact hSpec.1
  case events =>
    rw [hSpec.2, Multiset.map_cons, hQueues.events,
      Multiset.cons_coe, ListScheduler.insert_eq,
      Multiset.coe_eq_coe]
    exact (SortedQueue.insert_perm _ _ _).symm
  case times =>
    intro x hx
    rw [hSpec.2] at hx
    rcases Multiset.mem_cons.mp hx with rfl | hx
    · rfl
    · exact hQueues.times x hx
  case ties =>
    intro x hx y hy hKey hLt
    rw [hSpec.2] at hx hy
    rcases Multiset.mem_cons.mp hx with rfl | hx
    · rcases Multiset.mem_cons.mp hy with rfl | hy
      · exact absurd hLt (Int.lt_irrefl uid')
      · have hBelow :=
          (hQueues.wf.uids _ (hQueues.mem_queue hy)).2
        have hLt : uid' < y.heElem.uid := hLt
        omega
    · rcases Multiset.mem_cons.mp hy with rfl | hy
      · exact hTies x hx hKey
      · exact hQueues.ties x hx y hy hKey hLt

/- The root is the first event of the queue. -/
theorem Queues.least
    {e : Event T}
    {rest : List (Event T)}
    (hQueues : Queues uid (e :: rest) h)
    {m : HeapElem T (Event T)}
    (hm : m ∈ h.contents)
    (hLeast : ∀ x ∈ h.contents,
      compositeKey m ≤ compositeKey x) :
    m.heElem = e := by
  rcases List.mem_cons.mp (hQueues.mem_queue hm) with
    hEq | hRest
  · exact hEq
  -- otherwise the first event's cell has a smaller key
  rcases hQueues.cell List.mem_cons_self with ⟨x, hx, hElem⟩
  have hBefore : SortedQueue.Before Event.time Event.uid
      x.heElem m.heElem := by
    rw [hElem]
    exact (List.pairwise_cons.mp hQueues.wf.stamped).1 _ hRest
  have hNot := not_lt.mpr (hLeast x hx)
  refine absurd ?_ hNot
  rw [compositeKey, compositeKey, Prod.Lex.toLex_lt_toLex]
  rcases hBefore with hTime | ⟨hTime, hUid⟩
  · rw [← hQueues.times x hx, ← hQueues.times m hm] at hTime
    exact .inl hTime
  · rw [← hQueues.times x hx, ← hQueues.times m hm] at hTime
    exact .inr ⟨hTime, hQueues.ties x hx m hm hTime hUid⟩

theorem Queues.size_eq
    (hQueues : Queues uid queue h) :
    h.hSize = queue.length := by
  have hCard := congrArg Multiset.card hQueues.events
  rw [Multiset.card_map, Multiset.coe_card] at hCard
  rw [← hCard]
  simp [contents, BinHeap.contents]

theorem Queues.head
    (hQueues : Queues uid queue h) :
    h.heapMin = queue.head? := by
  have hSize := hQueues.size_eq
  cases queue with
  | nil => exact if_neg (by rw [hSize]; simp)
  | cons e rest =>
      have hPos : 0 < h.hSize := by rw [hSize]; simp
      rw [heapMin, if_pos hPos]
      refine congrArg some (hQueues.least
        (mem_contents_iff.mpr ⟨0, hPos, rfl⟩) ?_)
      intro x hx
      rcases mem_contents_iff.mp hx with ⟨i, hi, rfl⟩
      exact hQueues.ordered.root_le hi

theorem Queues.deque
    (hQueues : Queues uid queue h) :
    h.heapExtractMin.1 = queue.head? ∧
      Queues uid queue.tail h.heapExtractMin.2 := by
  have hSize := hQueues.size_eq
  cases queue with
  | nil =>
      rw [h.heapExtractMin_empty hSize]
      exact ⟨rfl, hQueues⟩
  | cons e rest =>
      have hPos : 0 < h.hSize := by rw [hSize]; simp
      rcases h.heapExtractMin_spec hQueues.ordered hPos with
        ⟨hOrdered, m, hm, hLeast, hAnswer, hCells⟩
      have hElem := hQueues.least hm hLeast
      refine ⟨hAnswer.trans (congrArg some hElem), ?_⟩
      refine hQueues.remove hQueues.wf.deque ?_ hOrdered
        hCells
      rw [hElem, ← Multiset.cons_coe,
        Multiset.erase_cons_head]
      rfl

theorem Queues.cancel
    (hQueues : Queues uid queue h)
    (e : Event T) :
    Queues uid (queue.erase e) (h.heapDelete e).2 := by
  by_cases hMem : e ∈ queue
  · rcases h.heapDelete_spec e hQueues.ordered
        (hQueues.cell hMem) with
      ⟨_, hOrdered, m, _, hElem, hCells⟩
    refine hQueues.remove (hQueues.wf.erase e) ?_ hOrdered
      hCells
    rw [hElem, Multiset.coe_erase]
  · have hAbsent : ∀ x ∈ h.contents, x.heElem ≠ e := by
      rintro x hx rfl
      exact hMem (hQueues.mem_queue hx)
    rw [h.heapDelete_absent e hAbsent,
      List.erase_of_not_mem hMem]
    exact hQueues

end Heap

end Ns2

------------------------------------------------------------
-- Runs
------------------------------------------------------------

namespace Ns2

namespace Heap

variable {T : Type} [LinearOrder T]

/- Each call of a run finds the heap as it is required. -/
def DistinguishesAll
    (w : Int × Heap T (Event T)) :
    List (SchedOp T) → Prop
| [] => True
| op :: ops =>
    Distinguishes w.2 op ∧
      ∀ r, (heapScheduler T).step w op = some r →
        DistinguishesAll r.1 ops

/- One call answers as the queue in order does. -/
theorem Queues.step
    {uid : Int}
    {queue : List (Event T)}
    {h : Heap T (Event T)}
    (hQueues : Queues uid queue h)
    {op : SchedOp T}
    (hTies : Distinguishes h op)
    {r : (Int × Heap T (Event T)) × Option (Event T)}
    (hStep : (heapScheduler T).step (uid, h) op = some r) :
    ∃ queue',
      (fifoScheduler T).step (uid, queue) op =
          some ((r.1.1, queue'), r.2) ∧
        Queues r.1.1 queue' r.1.2 := by
  cases op with
  | schedule taken t =>
      cases hStep
      have hUid : uid ≤ uid + taken := by omega
      exact ⟨_, rfl, hQueues.insert hUid t hTies⟩
  | cancel e =>
      rcases Option.map_eq_some_iff.mp hStep with
        ⟨h', hCall, rfl⟩
      by_cases hUid : e.uid ≤ 0
      · have hCall := hCall.symm.trans (if_pos hUid)
        cases hCall
        refine ⟨queue, ?_, hQueues⟩
        simp [Scheduler.step, fifoScheduler, hUid]
      · have hCall := hCall.symm.trans (if_neg hUid)
        cases hCall
        refine ⟨queue.erase e, ?_, hQueues.cancel e⟩
        simp [Scheduler.step, fifoScheduler, hUid]
  | head =>
      cases hStep
      refine ⟨queue, ?_, hQueues⟩
      exact congrArg (fun e => some ((uid, queue), e))
        hQueues.head.symm
  | deque =>
      cases hStep
      have hDone := hQueues.deque
      refine ⟨queue.tail, ?_, hDone.2⟩
      refine Eq.trans ?_ (congrArg
        (fun e => some ((uid, queue.tail), e)) hDone.1.symm)
      cases queue <;> rfl

/- Where the list scheduler completes a run, so does the
queue in order, with the same answers. -/
theorem fifo_of_list :
    Scheduler.Simulates (listScheduler T) (fifoScheduler T)
      (fun _ => True) (fun _ queue queue' => queue' = queue)
    where
  insert := by
    rintro uid uid' queue _ t queue' rfl _ _ hCall
    exact ⟨queue', hCall, rfl⟩
  cancel := by
    rintro uid queue _ e queue' rfl hCall
    rcases (ListScheduler.cancel_eq_some_iff
        _ queue' e).mp hCall with
      ⟨hUid, rfl⟩ | ⟨hUid, _, rfl⟩
    · exact ⟨queue', if_pos hUid, rfl⟩
    · exact ⟨_, if_neg (not_le.mpr hUid), rfl⟩
  head := by
    rintro uid queue _ r rfl hCall
    cases hCall
    exact ⟨_, rfl, rfl⟩
  deque := by
    rintro uid queue _ r rfl hCall
    cases hCall
    exact ⟨_, rfl, rfl⟩

/-
  In a run whose insertions all find a stamp above those of
  the queued events of the same time, the calls are answered
  as by a queue in the order of time and insertion.
-/
theorem ties_in_order
    (blank : HeapElem T (Event T))
    (size : Nat)
    (ops : List (SchedOp T))
    (hTies : DistinguishesAll (1, new blank size) ops)
    (uid : Int)
    (h : Heap T (Event T))
    (answers : List (Option (Event T)))
    (hRun :
      (heapScheduler T).run (1, new blank size) ops =
        some ((uid, h), answers)) :
    ∃ queue,
      (fifoScheduler T).run (1, []) ops =
          some ((uid, queue), answers) ∧
        SortedQueue.Stamped Event.time Event.uid queue ∧
        h.contents.map HeapElem.heElem = queue ∧
        h.heapExtractMin.1 = queue.head? ∧
        ∀ r, (listScheduler T).run (1, []) ops = some r →
          r = ((uid, queue), answers) := by
  have hGeneral : ∀ ops w queue r, Queues w.1 queue w.2 →
      DistinguishesAll w ops →
      (heapScheduler T).run w ops = some r →
      ∃ queue',
        (fifoScheduler T).run (w.1, queue) ops =
            some ((r.1.1, queue'), r.2) ∧
          Queues r.1.1 queue' r.1.2 := by
    intro ops
    induction ops with
    | nil =>
        intro w queue r hQueues _ hRun
        cases hRun
        exact ⟨queue, rfl, hQueues⟩
    | cons op ops ih =>
        intro w queue r hQueues hAll hRun
        rcases Option.bind_eq_some_iff.mp hRun with
          ⟨r₁, hStep, hTail⟩
        rcases Option.map_eq_some_iff.mp hTail with
          ⟨r₂, hRest, rfl⟩
        rcases hQueues.step hAll.1 hStep with
          ⟨queue₁, hStep', hQueues₁⟩
        rcases ih r₁.1 queue₁ r₂ hQueues₁ (hAll.2 r₁ hStep)
            hRest with
          ⟨queue₂, hRest', hQueues₂⟩
        refine ⟨queue₂, ?_, hQueues₂⟩
        simp [Scheduler.run, hStep', hRest']
  rcases hGeneral ops _ [] _ (queues_new blank size) hTies
      hRun with
    ⟨queue, hRun', hQueues⟩
  refine ⟨queue, hRun', hQueues.wf.stamped, hQueues.events,
    hQueues.deque.1, fun r hList => ?_⟩
  rcases fifo_of_list.run rfl (fun _ _ _ => trivial) hList
    with ⟨_, hFifo, rfl⟩
  exact Option.some.inj (hFifo.symm.trans hRun')

/- Two simultaneous events, and the first comes out. -/
theorem ties_in_order_two :
    ∃ h : Heap Nat (Event Nat),
      (heapScheduler Nat).run
          (1, new ⟨0, 0, ⟨0, 0⟩⟩ heapDefaultSize)
          [.schedule 0 5, .schedule 0 5, .deque] =
        some ((3, h), [none, none, some ⟨5, 1⟩]) := by
  let h₀ : Heap Nat (Event Nat) :=
    new ⟨0, 0, ⟨0, 0⟩⟩ heapDefaultSize
  have hOrdered : h₀.Ordered :=
    fun _ _ hi => absurd hi (Nat.not_lt_zero _)
  have hCells := (h₀.heapInsert_spec 5 ⟨5, 1⟩ hOrdered).2
  have hTies : DistinguishesAll (1, h₀)
      [.schedule 0 5, .schedule 0 5, .deque] := by
    refine ⟨fun x hx => absurd hx (Multiset.notMem_zero x),
      fun r hStep => ?_⟩
    cases hStep
    refine ⟨fun x hx _ => ?_, fun r _ =>
      ⟨trivial, fun _ _ => trivial⟩⟩
    have hx : x ∈ ((⟨5, 0, ⟨5, 1⟩⟩ : HeapElem Nat _) ::ₘ 0) :=
      hCells ▸ hx
    rw [Multiset.mem_cons] at hx
    rcases hx with rfl | hx
    · exact Nat.zero_lt_one
    · exact absurd hx (Multiset.notMem_zero x)
  let h₂ := (h₀.heapInsert 5 ⟨5, 1⟩).heapInsert 5 ⟨5, 2⟩
  have hRun : (heapScheduler Nat).run (1, h₀)
      [.schedule 0 5, .schedule 0 5, .deque] =
      some ((3, h₂.heapExtractMin.2),
        [none, none, h₂.heapExtractMin.1]) := rfl
  rcases ties_in_order _ _ _ hTies _ _ _ hRun with
    ⟨queue, hFifo, _⟩
  have hAnswers : some [none, none, some ⟨5, 1⟩] =
      some [none, none, h₂.heapExtractMin.1] :=
    congrArg (Option.map Prod.snd) hFifo
  have hFirst : h₂.heapExtractMin.1 = some ⟨5, 1⟩ := by
    injection hAnswers with hList
    injection hList with _ hList
    injection hList with _ hList
    injection hList with hHead
    exact hHead.symm
  exact ⟨_, hFirst ▸ hRun⟩

end Heap

end Ns2

------------------------------------------------------------
-- Wrapping
------------------------------------------------------------

namespace Ns2

namespace Heap

/- An event comes and goes, `n` times. -/
def rounds : Nat → List (SchedOp Nat)
| 0 => []
| n + 1 => .schedule 0 0 :: .deque :: rounds n

variable {h : Heap Nat (Event Nat)}

theorem heapInsert_hSKey
    (h : Heap Nat (Event Nat))
    (t : Nat)
    (e : Event Nat) :
    (h.heapInsert t e).hSKey = (h.hSKey + 1) % 2 ^ 32 := by
  show (h.grow.hSKey + 1) % 2 ^ 32 = _
  rw [grow_hSKey]

/- The only event comes out, and nothing else changes. -/
theorem heapExtractMin_last
    (hLast : h.hSize = 1) :
    h.heapExtractMin.2.hSize = 0 ∧
      h.heapExtractMin.2.hSKey = h.hSKey := by
  have hNe : h.hSize ≠ 0 := by omega
  have hStop : ∀ h' : Heap Nat (Event Nat),
      h'.hSize = 0 → h'.heapify 0 = h' := by
    intro h' hEmpty
    rw [heapify, if_neg (by omega)]
  have hSize := h.heapExtractMin_size.1
  refine ⟨by omega, ?_⟩
  rw [heapExtractMin, if_neg hNe]
  dsimp only
  rw [hStop _ (by show h.hSize - 1 = 0; omega)]

theorem run_rounds
    (uid : Int)
    (n : Nat)
    (hEmpty : h.hSize = 0)
    (hKey : h.hSKey < 2 ^ 32)
    (ops : List (SchedOp Nat)) :
    ∃ h' answers, h'.hSize = 0 ∧
      h'.hSKey = (h.hSKey + n) % 2 ^ 32 ∧
      ∀ r, (heapScheduler Nat).run (uid + n, h') ops =
          some r →
        (heapScheduler Nat).run (uid, h) (rounds n ++ ops) =
          some (r.1, answers ++ r.2) := by
  induction n generalizing uid h with
  | zero =>
      refine ⟨h, [], hEmpty, (Nat.mod_eq_of_lt hKey).symm, ?_⟩
      intro r hRun
      rw [Int.natCast_zero, Int.add_zero] at hRun
      exact hRun
  | succ n ih =>
      let e : Event Nat := ⟨0, uid⟩
      have hOne : (h.heapInsert 0 e).hSize = 1 := by
        show h.grow.hSize + 1 = 1
        rw [grow_hSize, hEmpty]
      have hOut := heapExtractMin_last hOne
      have hKey' := h.heapInsert_hSKey 0 e
      rcases ih (uid + 1) hOut.1
          (by rw [hOut.2, hKey']; exact Nat.mod_lt _ (by omega))
        with ⟨h', answers, hSize', hSKey', hRest⟩
      refine ⟨h', none :: (h.heapInsert 0 e).heapExtractMin.1
        :: answers, hSize', ?_, ?_⟩
      · rw [hSKey', hOut.2, hKey']
        omega
      · intro r hRun
        have hUid : uid + 1 + n = uid + ((n + 1 : Nat) : Int) := by
          omega
        have hTail := hRest r (hUid ▸ hRun)
        have hIn : (heapScheduler Nat).step (uid, h)
            (.schedule 0 0) =
              some ((uid + 1, h.heapInsert 0 e), none) := by
          simp [Scheduler.step, heapScheduler, e]
        have hOut : (heapScheduler Nat).step
            (uid + 1, h.heapInsert 0 e) .deque =
              some ((uid + 1,
                (h.heapInsert 0 e).heapExtractMin.2),
                (h.heapInsert 0 e).heapExtractMin.1) := rfl
        simp only [rounds, List.cons_append, Scheduler.run,
          hIn, hOut, hTail, Option.map_some, Option.bind_some]

/- The stamp of the second event has wrapped. -/
theorem wrapped_first
    (hEmpty : h.hSize = 0)
    (hKey : h.hSKey = 2 ^ 32 - 1)
    (e₁ e₂ : Event Nat) :
    e₁ ∈ ((h.heapInsert 0 e₁).heapInsert 0 e₂).contents.map
        HeapElem.heElem ∧
      ((h.heapInsert 0 e₁).heapInsert 0 e₂).heapExtractMin.1 =
        some e₂ := by
  have hOrdered : h.Ordered := fun i _ hi => by omega
  have hFirst := h.heapInsert_spec 0 e₁ hOrdered
  have hSecond :=
    (h.heapInsert 0 e₁).heapInsert_spec 0 e₂ hFirst.1
  have hWrap : (h.heapInsert 0 e₁).hSKey = 0 := by
    rw [heapInsert_hSKey, hKey]
    rfl
  have hCells := hSecond.2
  rw [hWrap, hFirst.2, hKey] at hCells
  constructor
  · rw [hCells]
    simp
  · have hPos :
        0 < ((h.heapInsert 0 e₁).heapInsert 0 e₂).hSize :=
      Nat.succ_pos _
    rcases heapExtractMin_spec _ hSecond.1 hPos with
      ⟨_, m, hm, hLeast, hAnswer, _⟩
    have hNone : h.contents = 0 := by
      simp [contents, BinHeap.contents, hEmpty]
    rw [hCells, hNone] at hm hLeast
    have hLe := hLeast _ (Multiset.mem_cons_self _ _)
    rw [hAnswer]
    rcases Multiset.mem_cons.mp hm with rfl | hm
    · rfl
    · rw [Multiset.mem_cons] at hm
      rcases hm with rfl | hm
      · -- the older stamp is not below the wrapped one
        rw [compositeKey, compositeKey,
          Prod.Lex.toLex_le_toLex] at hLe
        simp at hLe
      · exact absurd hm (Multiset.notMem_zero _)

/- After 2^32 - 1 insertions, the later of two simultaneous
events comes out first. -/
theorem deque_overtakes :
    ∃ (h : Heap Nat (Event Nat))
      (answers : List (Option (Event Nat))),
      (heapScheduler Nat).run
          (1, new ⟨0, 0, ⟨0, 0⟩⟩ heapDefaultSize)
          (rounds (2 ^ 32 - 1) ++
            [.schedule 0 0, .schedule 0 0]) =
        some ((2 ^ 32 + 2, h), answers) ∧
      (⟨0, 2 ^ 32⟩ : Event Nat) ∈
        h.contents.map HeapElem.heElem ∧
      h.heapExtractMin.1 = some ⟨0, 2 ^ 32 + 1⟩ := by
  have hRounds := run_rounds
    (h := new ⟨0, 0, ⟨0, 0⟩⟩ heapDefaultSize) 1
    (2 ^ 32 - 1) rfl (by decide)
    [.schedule 0 0, .schedule 0 0]
  rcases hRounds with ⟨h, answers, hEmpty, hKey, hRest⟩
  have hKey : h.hSKey = 2 ^ 32 - 1 := by
    rw [hKey]
    rfl
  have hFirst := wrapped_first hEmpty hKey ⟨0, 2 ^ 32⟩
    ⟨0, 2 ^ 32 + 1⟩
  have hUid : (1 : Int) + ((2 ^ 32 - 1 : Nat) : Int) =
      2 ^ 32 := by
    omega
  rw [hUid] at hRest
  exact ⟨_, _, hRest ((2 ^ 32 + 2, _), [none, none]) rfl,
    hFirst.1, hFirst.2⟩

end Heap

end Ns2
