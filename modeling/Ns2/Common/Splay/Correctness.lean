import Ns2.Common.ListScheduler
import Ns2.Common.Splay.Operations

/-
  The splay scheduler refines the list scheduler.

  The in-order sequence of the tree is the list scheduler's
  queue.  Splaying cuts the sequence between the events due
  at or before the new event and the later ones, which is
  where the list scheduler inserts.

  Main declarations:
    * `SplayScheduler.splay_spec`
    * `SplayScheduler.dequeLeft_spec`
    * `SplayScheduler.unlink_spec`
    * `SplayScheduler.simulates_listScheduler`
    * `SplayScheduler.splay_refines_list`
-/

------------------------------------------------------------
-- Splaying
------------------------------------------------------------

namespace Ns2

namespace SplayScheduler

open BinaryTree SearchTree

variable {T : Type} [LinearOrder T]

/- A sequence of events in time order. -/
abbrev TimeSorted (l : List (Event T)) : Prop :=
  SortedQueue.Sorted Event.time l

/- The in-order sequence of a sorted tree around its root. -/
theorem timeSorted_node
    {t : Event T}
    {l r : BinaryTree (Event T)}
    (hSorted : TimeSorted (inorder (node t l r))) :
    TimeSorted (inorder l) ∧ TimeSorted (inorder r) ∧
      (∀ x ∈ inorder l, x.time ≤ t.time) ∧
      ∀ x ∈ inorder r, t.time ≤ x.time := by
  have hParts := List.pairwise_append.mp hSorted
  have hRight := List.pairwise_cons.mp hParts.2.1
  exact ⟨hParts.1, hRight.2,
    fun x hx => hParts.2.2 x hx t (by simp), hRight.1⟩

/-
  The splay loop cuts the sequence of the two spines and
  the remaining tree, in this order, at the new time.
-/
theorem splay_spec
    (time : T)
    (t : BinaryTree (Event T))
    (ls rs : List (Frame T))
    (hSorted : TimeSorted (inorder t))
    (hLeft : ∀ x ∈ beforeHole ls, x.time ≤ time)
    (hRight : ∀ x ∈ afterHole rs, time < x.time) :
    inorder (splay time t ls rs).1 ++
          inorder (splay time t ls rs).2 =
        beforeHole ls ++ inorder t ++ afterHole rs ∧
      (∀ x ∈ inorder (splay time t ls rs).1,
        x.time ≤ time) ∧
      ∀ x ∈ inorder (splay time t ls rs).2,
        time < x.time := by
  induction t, ls, rs using splay.induct time with
  | case1 ls rs =>
      simp only [splay.eq_def, inorder_plugRight,
        inorder_plugLeft, inorder_nil, List.append_nil,
        List.nil_append]
      exact ⟨trivial, hLeft, hRight⟩
  | case2 t rt ls rs hLt =>
      have hNode := timeSorted_node hSorted
      have hStep :
          splay time (node t nil rt) ls rs =
            (plugRight ls nil,
              plugLeft rs (node t nil rt)) := by
        rw [splay.eq_def]
        simp only [if_pos hLt]
      rw [hStep]
      simp only [inorder_plugRight, inorder_plugLeft,
        inorder_nil, inorder_node, List.append_nil,
        List.nil_append]
      refine ⟨by simp, hLeft, ?_⟩
      intro x hx
      rcases List.mem_append.mp hx with hx | hx
      · rcases List.mem_cons.mp hx with rfl | hx
        · exact hLt
        · exact hLt.trans_le (hNode.2.2.2 x hx)
      · exact hRight x hx
  | case3 t rt ls rs hLt x lx rx hLt' ih =>
      have hNode := timeSorted_node hSorted
      have hChild := timeSorted_node hNode.1
      have hDone := ih hChild.1 hLeft (by
        intro y hy
        simp only [afterHole, inorder_node, List.mem_cons,
          List.mem_append] at hy
        rcases hy with (rfl | hy | rfl | hy) | hy
        · exact hLt'
        · exact hLt'.trans_le (hChild.2.2.2 y hy)
        · exact hLt
        · exact hLt.trans_le (hNode.2.2.2 y hy)
        · exact hRight y hy)
      have hStep :
          splay time (node t (node x lx rx) rt) ls rs =
            splay time lx ls ((x, node t rx rt) :: rs) := by
        rw [splay.eq_def]
        simp only [if_pos hLt, if_pos hLt']
      rw [hStep]
      refine ⟨?_, hDone.2⟩
      rw [hDone.1]
      simp [afterHole]
  | case4 t rt ls rs hLt x lx rx hLe ih =>
      have hNode := timeSorted_node hSorted
      have hDone := ih hNode.1 hLeft (by
        intro y hy
        simp only [afterHole, List.mem_cons,
          List.mem_append] at hy
        rcases hy with (rfl | hy) | hy
        · exact hLt
        · exact hLt.trans_le (hNode.2.2.2 y hy)
        · exact hRight y hy)
      have hStep :
          splay time (node t (node x lx rx) rt) ls rs =
            splay time (node x lx rx) ls
              ((t, rt) :: rs) := by
        rw [splay.eq_def]
        simp only [if_pos hLt, if_neg hLe]
      rw [hStep]
      refine ⟨?_, hDone.2⟩
      rw [hDone.1]
      simp [afterHole]
  | case5 t lt ls rs hLe =>
      have hNode := timeSorted_node hSorted
      have hStep :
          splay time (node t lt nil) ls rs =
            (plugRight ls (node t lt nil),
              plugLeft rs nil) := by
        rw [splay.eq_def]
        simp only [if_neg hLe]
      rw [hStep]
      simp only [inorder_plugRight, inorder_plugLeft,
        inorder_nil, inorder_node, List.nil_append]
      refine ⟨by simp, ?_, hRight⟩
      intro x hx
      simp only [List.mem_append, List.mem_cons,
        List.not_mem_nil, or_false] at hx
      rcases hx with hx | hx | rfl
      · exact hLeft x hx
      · exact (hNode.2.2.1 x hx).trans (not_lt.mp hLe)
      · exact not_lt.mp hLe
  | case6 t lt ls rs hLe x lx rx hLe' ih =>
      have hNode := timeSorted_node hSorted
      have hChild := timeSorted_node hNode.2.1
      have hDone := ih hChild.2.1 (by
        intro y hy
        simp only [beforeHole, inorder_node,
          List.mem_append, List.mem_cons,
          List.not_mem_nil, or_false] at hy
        rcases hy with hy | (hy | rfl | hy) | rfl
        · exact hLeft y hy
        · exact (hNode.2.2.1 y hy).trans (not_lt.mp hLe)
        · exact not_lt.mp hLe
        · exact (hChild.2.2.1 y hy).trans hLe'
        · exact hLe') hRight
      have hStep :
          splay time (node t lt (node x lx rx)) ls rs =
            splay time rx ((x, node t lt lx) :: ls) rs := by
        rw [splay.eq_def]
        simp only [if_neg hLe, if_pos hLe']
      rw [hStep]
      refine ⟨?_, hDone.2⟩
      rw [hDone.1]
      simp [beforeHole]
  | case7 t lt ls rs hLe x lx rx hLt ih =>
      have hNode := timeSorted_node hSorted
      have hDone := ih hNode.2.1 (by
        intro y hy
        simp only [beforeHole, List.mem_append,
          List.mem_cons, List.not_mem_nil, or_false] at hy
        rcases hy with hy | hy | rfl
        · exact hLeft y hy
        · exact (hNode.2.2.1 y hy).trans (not_lt.mp hLe)
        · exact not_lt.mp hLe) hRight
      have hStep :
          splay time (node t lt (node x lx rx)) ls rs =
            splay time (node x lx rx)
              ((t, lt) :: ls) rs := by
        rw [splay.eq_def]
        simp only [if_neg hLe, if_neg hLt]
      rw [hStep]
      refine ⟨?_, hDone.2⟩
      rw [hDone.1]
      simp [beforeHole]

/- Splay insertion is list insertion on the sequence. -/
theorem inorder_insert
    (s : SplayScheduler T)
    (n : Event T)
    (hSorted : TimeSorted (inorder s.root)) :
    inorder (s.insert n).root =
      SortedQueue.insert Event.time n (inorder s.root) := by
  have hCut := splay_spec n.time s.root [] [] hSorted
    (by simp [beforeHole]) (by simp [afterHole])
  have hSequence :
      inorder s.root =
        inorder (splay n.time s.root [] []).1 ++
          inorder (splay n.time s.root [] []).2 := by
    rw [hCut.1]
    simp [beforeHole, afterHole]
  rw [hSequence,
    SortedQueue.insert_split hCut.2.1 hCut.2.2]
  rfl

end SplayScheduler

end Ns2

------------------------------------------------------------
-- Deque
------------------------------------------------------------

namespace Ns2

namespace SplayScheduler

open BinaryTree SearchTree

variable {T : Type}

theorem leftmost_eq_head? (t : BinaryTree (Event T)) :
    leftmost t = (inorder t).head? := by
  induction t with
  | nil => rfl
  | node t l r ihl _ =>
      cases l with
      | nil => rfl
      | node l a b =>
          rw [leftmost, ihl, inorder_node t,
            List.head?_append_of_ne_nil]
          simp

/-
  The deque loop takes the first event off the sequence of
  a tree that is not empty.
-/
theorem dequeLeft_spec
    (l : Event T)
    (a b : BinaryTree (Event T)) :
    ∃ e t, dequeLeft (node l a b) = some (e, t) ∧
      inorder (node l a b) = e :: inorder t := by
  cases a with
  | nil => exact ⟨l, b, rfl, by simp⟩
  | node ll c rll =>
      cases c with
      | nil => exact ⟨ll, node l rll b, rfl, by simp⟩
      | node lll c d =>
          rcases dequeLeft_spec lll c d with
            ⟨e, t, hCall, hSequence⟩
          refine ⟨e, node ll t (node l rll b), ?_, ?_⟩
          · simp [dequeLeft, hCall]
          · rw [inorder_node l, inorder_node ll, hSequence]
            simp

theorem deque_of_sequence_nil
    {s : SplayScheduler T}
    (hEmpty : inorder s.root = []) :
    s.deque = (none, s) := by
  rcases s with ⟨root, qsize⟩
  cases root with
  | nil => rfl
  | node t l r => simp at hEmpty

/- Deque takes the first event off the sequence. -/
theorem deque_of_sequence_cons
    {s : SplayScheduler T}
    {e : Event T}
    {rest : List (Event T)}
    (hSequence : inorder s.root = e :: rest) :
    s.deque.1 = some e ∧
      inorder s.deque.2.root = rest ∧
      s.deque.2.qsize = s.qsize - 1 := by
  rcases s with ⟨root, qsize⟩
  cases root with
  | nil => simp at hSequence
  | node t l r =>
      cases l with
      | nil =>
          simp only [inorder_node, inorder_nil,
            List.nil_append, List.cons.injEq] at hSequence
          simp [deque, hSequence]
      | node l a b =>
          rcases dequeLeft_spec l a b with
            ⟨e', l', hCall, hLeft⟩
          rw [inorder_node t, hLeft] at hSequence
          simp only [List.cons_append,
            List.cons.injEq] at hSequence
          simp [deque, hCall, hSequence]

end SplayScheduler

end Ns2

------------------------------------------------------------
-- Cancellation
------------------------------------------------------------

namespace Ns2

namespace SplayScheduler

open BinaryTree SearchTree

variable {T : Type}

theorem popSuccessor_spec
    (q : Event T)
    (l r : BinaryTree (Event T)) :
    ∃ e t, popSuccessor (node q l r) = some (e, t) ∧
      inorder (node q l r) = e :: inorder t := by
  induction l generalizing q r with
  | nil => exact ⟨q, r, rfl, by simp⟩
  | node p a b iha _ =>
      rcases iha p b with ⟨e, t, hCall, hSequence⟩
      refine ⟨e, node q t r, ?_, ?_⟩
      · simp [popSuccessor, hCall]
      · rw [inorder_node q, hSequence]
        simp

/- The replacement of a node joins its two subtrees. -/
theorem inorder_replace (l r : BinaryTree (Event T)) :
    inorder (replace l r) = inorder l ++ inorder r := by
  cases r with
  | nil => simp [replace]
  | node p lp rp =>
      cases l with
      | nil => simp [replace]
      | node x a b =>
          cases lp with
          | nil => simp [replace]
          | node q c d =>
              rcases popSuccessor_spec q c d with
                ⟨e, t, hCall, hSequence⟩
              rw [inorder_node p, hSequence]
              simp [replace, hCall]

variable [LinearOrder T]

/- The order in which the tree is searched. -/
abbrev SearchOrder (a b : Event T) : Prop :=
  SortedQueue.Before Event.time Event.uid a b

/-
  The search for a stored event finds it, and its deletion
  erases it from the sequence.
-/
theorem unlink_spec
    (e : Event T)
    (t : BinaryTree (Event T))
    (hStamped : (inorder t).Pairwise SearchOrder)
    (hMem : e ∈ inorder t) :
    ∃ t', unlink e t = some t' ∧
      inorder t' = (inorder t).erase e := by
  induction t with
  | nil => simp at hMem
  | node x l r ihl ihr =>
      have hParts := List.pairwise_append.mp hStamped
      have hRoot := SortedQueue.Stamped.split hStamped
      have hRight :=
        (List.pairwise_cons.mp hParts.2.1).2
      unfold unlink
      by_cases hEq : x = e
      · subst hEq
        refine ⟨replace l r, if_pos rfl, ?_⟩
        have hNotLeft : x ∉ inorder l := by
          intro hx
          exact SortedQueue.Before.irrefl x (hRoot.1 x hx)
        rw [inorder_replace, inorder_node,
          List.erase_append_right _ hNotLeft,
          List.erase_cons_head]
      · rw [if_neg hEq]
        have hCases : e ∈ inorder l ∨ e ∈ inorder r := by
          rcases List.mem_append.mp hMem with hl | hr
          · exact Or.inl hl
          · rcases List.mem_cons.mp hr with hHere | hr
            · exact absurd hHere.symm hEq
            · exact Or.inr hr
        by_cases hGo : x.time < e.time ∨
            (e.time = x.time ∧ x.uid < e.uid)
        · -- the comparison sends the search to the right
          have hNotLeft : e ∉ inorder l := by
            intro hl
            apply (hRoot.1 e hl).asymm
            exact hGo.imp id (fun h => ⟨h.1.symm, h.2⟩)
          rcases ihr hRight
              (hCases.resolve_left hNotLeft) with
            ⟨r', hCall, hSequence⟩
          refine ⟨node x l r', ?_, ?_⟩
          · rw [if_pos hGo, hCall]
            rfl
          · rw [inorder_node, inorder_node, hSequence,
              List.erase_append_right _ hNotLeft,
              List.erase_cons_tail (by simpa)]
        · have hNotRight : e ∉ inorder r := by
            intro hr
            apply hGo
            exact (hRoot.2 e hr).imp id
              (fun h => ⟨h.1.symm, h.2⟩)
          have hLeft := hCases.resolve_right hNotRight
          rcases ihl hParts.1 hLeft with
            ⟨l', hCall, hSequence⟩
          refine ⟨node x l' r, ?_, ?_⟩
          · rw [if_neg hGo, hCall]
            rfl
          · rw [inorder_node, inorder_node, hSequence,
              List.erase_append_left _ hLeft]

end SplayScheduler

end Ns2

------------------------------------------------------------
-- Refinement
------------------------------------------------------------

namespace Ns2

namespace SplayScheduler

open BinaryTree SearchTree

variable {T : Type} [LinearOrder T]

/- The scheduler object the constructor makes. -/
def new : SplayScheduler T where
  root := nil
  qsize := 0

/-
  The tree holds a well-formed list scheduler queue as its
  in-order sequence, and counts its events.
-/
structure Holds
    (uid : Int)
    (queue : List (Event T))
    (s : SplayScheduler T) : Prop where
  wf : ListScheduler.Wf uid queue
  sequence : inorder s.root = queue
  size : s.qsize = queue.length

theorem holds_new : Holds 1 [] (new : SplayScheduler T) where
  wf := ListScheduler.wf_nil
  sequence := rfl
  size := rfl

theorem Holds.insert
    {uid uid' : Int}
    {queue : List (Event T)}
    {s : SplayScheduler T}
    (hHolds : Holds uid queue s)
    (hUid : uid ≤ uid')
    (t : T) :
    Holds (uid' + 1)
      (ListScheduler.insert Event.time ⟨t, uid'⟩ queue)
      (s.insert ⟨t, uid'⟩) where
  wf := hHolds.wf.insert hUid t
  sequence := by
    have hSorted : TimeSorted (inorder s.root) := by
      rw [hHolds.sequence]
      exact hHolds.wf.stamped.sorted
    rw [inorder_insert s _ hSorted, hHolds.sequence,
      ListScheduler.insert_eq]
  size := by
    have hSize := hHolds.size
    rw [ListScheduler.insert_eq, SortedQueue.length_insert]
    change s.qsize + 1 = _
    omega

/- Cancelling a queued event finds and removes it. -/
theorem Holds.cancel
    {uid : Int}
    {queue : List (Event T)}
    {s : SplayScheduler T}
    (hHolds : Holds uid queue s)
    {e : Event T}
    (hMem : e ∈ queue) :
    ∃ s', s.cancel e = some s' ∧
      Holds uid (queue.erase e) s' := by
  have hPos := (hHolds.wf.uids e hMem).1
  rcases unlink_spec e s.root
      (by rw [hHolds.sequence]; exact hHolds.wf.stamped)
      (by rw [hHolds.sequence]; exact hMem) with
    ⟨t, hCall, hSequence⟩
  refine ⟨⟨t, s.qsize - 1⟩, ?_, ?_⟩
  · rw [SplayScheduler.cancel, if_neg (by omega), hCall]
    rfl
  · refine ⟨hHolds.wf.erase e, ?_, ?_⟩
    · rw [hSequence, hHolds.sequence]
    · have hSize := hHolds.size
      have hLength := List.length_erase_of_mem hMem
      have hNonempty := List.length_pos_of_mem hMem
      change s.qsize - 1 = _
      omega

theorem Holds.head
    {uid : Int}
    {queue : List (Event T)}
    {s : SplayScheduler T}
    (hHolds : Holds uid queue s) :
    s.head = queue.head? := by
  rw [SplayScheduler.head, leftmost_eq_head?,
    hHolds.sequence]

/- Deque answers the head of the queue and removes it. -/
theorem Holds.deque
    {uid : Int}
    {queue : List (Event T)}
    {s : SplayScheduler T}
    (hHolds : Holds uid queue s) :
    s.deque.1 = (ListScheduler.deque queue).1 ∧
      Holds uid (ListScheduler.deque queue).2 s.deque.2 := by
  cases queue with
  | nil =>
      rw [deque_of_sequence_nil hHolds.sequence]
      exact ⟨rfl, hHolds⟩
  | cons e rest =>
      have hDone := deque_of_sequence_cons hHolds.sequence
      refine ⟨hDone.1, hHolds.wf.deque, hDone.2.1, ?_⟩
      rw [hDone.2.2, hHolds.size]
      simp [ListScheduler.deque]

/- Call by call, the splay tree simulates the list. -/
theorem simulates_listScheduler :
    Scheduler.Simulates (listScheduler T) (splayScheduler T)
      (fun _ => True) Holds where
  insert := by
    intro uid uid' queue s t queue' hHolds hUid _ hCall
    cases hCall
    exact ⟨_, rfl, hHolds.insert hUid t⟩
  cancel := by
    intro uid queue s e queue' hHolds hCall
    rcases (ListScheduler.cancel_eq_some_iff
        queue queue' e).mp hCall with
      ⟨hUid, rfl⟩ | ⟨_, hMem, rfl⟩
    · refine ⟨s, ?_, hHolds⟩
      exact if_pos hUid
    · exact hHolds.cancel hMem
  head := by
    intro uid queue s r hHolds hCall
    cases hCall
    refine ⟨s, ?_, hHolds⟩
    exact congrArg (fun e => some (e, s)) hHolds.head
  deque := by
    intro uid queue s r hHolds hCall
    cases hCall
    have hDone := hHolds.deque
    refine ⟨s.deque.2, ?_, hDone.2⟩
    rw [← hDone.1]
    rfl

/-
  Every sequence of calls that the list scheduler completes
  is completed by the splay scheduler with the same answers.
  The tree is then a search tree, its in-order sequence is
  the list scheduler's queue in strictly increasing order of
  time and id, `qsize` is its size, deque answers the first
  event, and a queued event is always found for deletion.
-/
theorem splay_refines_list
    (ops : List (SchedOp T))
    (uid : Int)
    (queue : List (Event T))
    (answers : List (Option (Event T)))
    (hRun :
      (listScheduler T).run (1, []) ops =
        some ((uid, queue), answers)) :
    ∃ s : SplayScheduler T,
      (splayScheduler T).run (1, new) ops =
          some ((uid, s), answers) ∧
        IsSearchTree SearchOrder s.root ∧
        inorder s.root = queue ∧
        queue.Pairwise SearchOrder ∧
        s.qsize = s.root.numNodes ∧
        s.deque.1 = queue.head? ∧
        inorder s.deque.2.root = queue.tail ∧
        ∀ e ∈ queue, ∃ s', s.cancel e = some s' ∧
          inorder s'.root = queue.erase e := by
  rcases simulates_listScheduler.run holds_new
      (fun _ _ _ => trivial) hRun with
    ⟨s, hRun', hHolds⟩
  have hStamped := hHolds.wf.stamped
  have hDeque := hHolds.deque
  refine ⟨s, hRun', ?_, hHolds.sequence, hStamped, ?_, ?_,
    ?_, ?_⟩
  · rw [isSearchTree_iff
      (fun _ _ _ => SortedQueue.Before.trans),
      hHolds.sequence]
    exact hStamped
  · rw [hHolds.size, ← hHolds.sequence, length_inorder]
  · rw [hDeque.1]
    cases queue <;> rfl
  · rw [hDeque.2.sequence]
    cases queue <;> rfl
  · intro e hMem
    rcases hHolds.cancel hMem with ⟨s', hCall, hHolds'⟩
    exact ⟨s', hCall, hHolds'.sequence⟩

/- A run with equal times, a cancellation and a deque. -/
theorem splay_refines_list_ties :
    ∃ s : SplayScheduler Nat,
      (splayScheduler Nat).run (1, new)
          [.schedule 0 5, .schedule 0 3, .schedule 2 5,
            .cancel ⟨3, 2⟩, .deque] =
          some ((6, s), [none, none, none, none,
            some ⟨5, 1⟩]) ∧
        inorder s.root = [⟨5, 5⟩] := by
  rcases splay_refines_list
      [.schedule 0 5, .schedule 0 3, .schedule 2 5,
        .cancel ⟨3, 2⟩, .deque]
      6 [⟨5, 5⟩] [none, none, none, none, some ⟨5, 1⟩]
      (by decide) with
    ⟨s, hRun, _, hSequence, _⟩
  exact ⟨s, hRun, hSequence⟩

end SplayScheduler

end Ns2
