import Ns2.Lib.PartialRun
import Ns2.Lib.Ring
import Ns2.Lib.RoundRobin
import Ns2.Queue.Buckets

/-
  Stochastic fair queueing.

  Packets are hashed to buckets, and the buckets that hold
  packets are served in turn, one packet each.  The functions
  get the bucket that a packet is hashed to.  An operation
  that would follow a null pointer has no result.

  Main declarations:
    * `SFQ`, `SFQ.enque`, `SFQ.deque`
    * `SFQ.Inv`, `SFQ.Inv.enque`, `SFQ.Inv.deque`
    * `SFQ.History`, `SFQ.History.act`
    * `SFQ.History.sfq_correct`
-/

------------------------------------------------------------
-- Queue
------------------------------------------------------------

namespace Ns2

/- A bucket; its neighbours are kept with the ring. -/
structure PacketSFQ (α : Type) where
  queue : List α
  pkts : Int
deriving DecidableEq, Repr

/- The queue with `n` buckets. -/
structure SFQ (n : Nat) (α : Type) where
  maxqueue : Int
  fairshare : Int
  bucket : Fin n → PacketSFQ α
  links : RingLinks (Fin n)
  active : Option (Fin n)
  occupied : Int

namespace PacketSFQ

variable {n : Nat}

/- Enter the ring before its head. -/
def activate
    (links : RingLinks (Fin n))
    (this : Fin n)
    (head : Option (Fin n)) :
    Option (RingLinks (Fin n) × Fin n) :=
  links.enter this head

/- Only the head leaves the ring. -/
def idle
    (links : RingLinks (Fin n))
    (this : Fin n)
    (head : Option (Fin n)) :
    Option (RingLinks (Fin n) × Option (Fin n)) :=
  if head = some this then links.leave this head
  else some (links, head)

end PacketSFQ

namespace SFQ

variable {n : Nat} {α : Type}

/- The first call of a function creates the buckets. -/
def initsfq (maxqueue : Int) : SFQ n α where
  maxqueue := maxqueue
  fairshare := maxqueue.tdiv n
  bucket := fun _ => ⟨[], 0⟩
  links := RingLinks.empty
  active := none
  occupied := 0

/- The next packet, if there is one. -/
def deque
    (s : SFQ n α) : Option (SFQ n α × Option α) :=
  match s.active with
  | none => some (s, none)
  | some active => do
      let q := s.bucket active
      let pkt := q.queue.head?
      let q : PacketSFQ α := ⟨q.queue.tail, q.pkts - 1⟩
      let s :=
        { s with
          occupied := s.occupied - 1
          bucket := Function.update s.bucket active q }
      if q.pkts = 0 then
        let next ← PacketSFQ.idle s.links active (some active)
        return ({ s with
          links := next.1
          active := next.2 }, pkt)
      else
        return ({ s with
          active := s.links.next active }, pkt)

/- Store a packet, or return it as dropped. -/
def enque
    (s : SFQ n α)
    (which : Fin n)
    (pkt : α) : Option (SFQ n α × Option α) :=
  let q := s.bucket which
  let used := q.pkts
  let left := s.maxqueue - s.occupied
  if left >>> (1 : Nat) ≤ used ∨
      (left < n ∧ s.fairshare < used) ∨ left ≤ 0 then
    some (s, some pkt)
  else do
    let q : PacketSFQ α := ⟨q.queue ++ [pkt], q.pkts + 1⟩
    let s :=
      { s with
        occupied := s.occupied + 1
        bucket := Function.update s.bucket which q }
    if q.pkts = 1 then
      let next ← PacketSFQ.activate s.links which s.active
      return ({ s with
        links := next.1
        active := some next.2 }, none)
    else
      return (s, none)

end SFQ

end Ns2

------------------------------------------------------------
-- Invariant
------------------------------------------------------------

namespace Ns2

namespace SFQ

open Buckets RingLinks

variable {n : Nat} {α : Type}

/- The packets that are stored for a bucket. -/
def stored
    (s : SFQ n α)
    (i : Fin n) : List α :=
  (s.bucket i).queue

/-
  The ring holds the buckets with packets, in the order of
  their turns, and the counters are right.
-/
structure Inv
    (s : SFQ n α)
    (order : List (Fin n)) : Prop where
  ring : s.links.Ring order
  active : s.active = order.head?
  mem : ∀ i, i ∈ order ↔ s.stored i ≠ []
  pkts : ∀ i, (s.bucket i).pkts = (s.stored i).length
  occupied : s.occupied = ∑ i, ((s.stored i).length : Int)
  limit : s.occupied ≤ max s.maxqueue 0

theorem inv_initsfq (maxqueue : Int) :
    (initsfq maxqueue : SFQ n α).Inv [] := by
  constructor
  case ring => exact ring_nil _
  case active => rfl
  case mem => simp [initsfq, stored]
  case pkts => simp [initsfq, stored]
  case occupied => simp [initsfq, stored]
  case limit => exact le_max_right _ _

/- The invariant after a change of one bucket. -/
theorem Inv.of_update
    {s s' : SFQ n α}
    {order order' : List (Fin n)}
    (hInv : s.Inv order)
    {k : Fin n}
    {q : PacketSFQ α}
    {d : Int}
    (hBucket : s'.bucket = Function.update s.bucket k q)
    (hPkts : q.pkts = q.queue.length)
    (hd : (q.queue.length : Int) = (s.stored k).length + d)
    (hOccupied : s'.occupied = s.occupied + d)
    (hLimit : s'.occupied ≤ max s'.maxqueue 0)
    (hRing : s'.links.Ring order')
    (hActive : s'.active = order'.head?)
    (hSelf : k ∈ order' ↔ q.queue ≠ [])
    (hOther : ∀ i, i ≠ k → (i ∈ order' ↔ i ∈ order)) :
    s'.Inv order' := by
  have hk : s'.bucket k = q := by
    rw [hBucket, Function.update_self]
  have hNe : ∀ i, i ≠ k → s'.bucket i = s.bucket i := by
    intro i hi
    rw [hBucket, Function.update_of_ne hi]
  constructor
  case ring => exact hRing
  case active => exact hActive
  case mem =>
    intro i
    unfold stored
    by_cases hi : i = k
    · rw [hi, hk]
      exact hSelf
    · rw [hNe i hi, hOther i hi]
      exact hInv.mem i
  case pkts =>
    intro i
    unfold stored
    by_cases hi : i = k
    · rw [hi, hk]
      exact hPkts
    · rw [hNe i hi]
      exact hInv.pkts i
  case occupied =>
    rw [hOccupied, hInv.occupied]
    apply (sum_update (k := k) ?_ ?_).symm
    · unfold stored
      rw [hk]
      exact hd
    · intro i hi
      unfold stored
      rw [hNe i hi]
  case limit => exact hLimit

theorem stored_of_update
    {s s' : SFQ n α}
    {k : Fin n}
    {q : PacketSFQ α}
    {rest : List α}
    (hBucket : s'.bucket = Function.update s.bucket k q)
    (hRest : q.queue = rest) :
    s'.stored = Function.update s.stored k rest := by
  funext i
  unfold stored
  rw [hBucket, ← hRest]
  by_cases hi : i = k
  · rw [hi, Function.update_self, Function.update_self]
  · rw [Function.update_of_ne hi, Function.update_of_ne hi]

/- Nothing is served when no bucket has its turn. -/
theorem Inv.deque_empty
    {s : SFQ n α}
    (hInv : s.Inv []) :
    s.deque = some (s, none) := by
  unfold SFQ.deque
  rw [hInv.active]
  rfl

/- The first bucket leaves the ring at its last packet. -/
theorem idle_first
    {links : RingLinks (Fin n)}
    {q : Fin n}
    {order : List (Fin n)}
    (hRing : links.Ring (q :: order)) :
    ∃ next, PacketSFQ.idle links q (some q) = some next ∧
      next.1.Ring order ∧ next.2 = order.head? := by
  unfold PacketSFQ.idle
  rw [if_pos rfl]
  exact hRing.leave_head

/- The first bucket of the ring is served. -/
theorem Inv.deque
    {s : SFQ n α}
    {q : Fin n}
    {order : List (Fin n)}
    {pkt : α}
    {rest : List α}
    (hInv : s.Inv (q :: order))
    (hStored : s.stored q = pkt :: rest) :
    ∃ s', s.deque = some (s', some pkt) ∧
      s'.stored = Function.update s.stored q rest ∧
      s'.maxqueue = s.maxqueue ∧
      s'.Inv (if rest = [] then order
        else order ++ [q]) := by
  have hActive : s.active = some q := hInv.active
  have hNodup := List.nodup_cons.mp hInv.ring.nodup
  have hPkts := hInv.pkts q
  have hLimit := hInv.limit
  have hQueue : (s.bucket q).queue = pkt :: rest := hStored
  rw [hStored, List.length_cons] at hPkts
  push_cast at hPkts
  have hOther : ∀ i, i ≠ q →
      (i ∈ order ↔ i ∈ q :: order) := by
    intro i hi
    rw [List.mem_cons, or_iff_right hi]
  unfold SFQ.deque
  rw [hActive]
  by_cases hRest : rest = []
  · rcases idle_first hInv.ring with
      ⟨next, hIdle, hRing, hHead⟩
    have hZero : (s.bucket q).pkts - 1 = 0 := by
      rw [hPkts, hRest]
      rfl
    rw [if_pos hRest]
    simp only [hQueue, if_pos hZero, hIdle]
    refine ⟨_, rfl, stored_of_update rfl rfl, rfl, ?_⟩
    apply hInv.of_update (d := -1) rfl
    case hPkts =>
      rw [hRest]
      exact hZero
    case hd =>
      rw [hStored, hRest]
      rfl
    case hOccupied => rfl
    case hLimit =>
      dsimp only
      omega
    case hRing => exact hRing
    case hActive => exact hHead
    case hSelf =>
      rw [hRest]
      simp [hNodup.1]
    case hOther => exact hOther
  · have hPos : 0 < rest.length := List.length_pos_of_ne_nil hRest
    have hZero : ¬ (s.bucket q).pkts - 1 = 0 := by
      omega
    rw [if_neg hRest]
    simp only [hQueue, if_neg hZero]
    refine ⟨_, rfl, stored_of_update rfl rfl, rfl, ?_⟩
    apply hInv.of_update (d := -1) rfl
    case hPkts =>
      dsimp only [List.tail_cons]
      omega
    case hd =>
      rw [hStored, List.length_cons]
      push_cast
      dsimp only [List.tail_cons]
      omega
    case hOccupied => rfl
    case hLimit =>
      dsimp only
      omega
    case hRing => exact hInv.ring.rotate_head
    case hActive => exact hInv.ring.next_eq
    case hSelf => simp [hRest]
    case hOther =>
      intro i hi
      rw [← hOther i hi, List.mem_append,
        List.mem_singleton, or_iff_left hi]

/- A packet that is not dropped is the last of its bucket. -/
theorem Inv.enque
    {s : SFQ n α}
    {order : List (Fin n)}
    (hInv : s.Inv order)
    (which : Fin n)
    (pkt : α) :
    s.enque which pkt = some (s, some pkt) ∨
    ∃ s', s.enque which pkt = some (s', none) ∧
      s'.stored = Function.update s.stored which
        (s.stored which ++ [pkt]) ∧
      s'.maxqueue = s.maxqueue ∧
      s'.Inv (entered order which) := by
  have hPkts := hInv.pkts which
  have hMem := hInv.mem which
  have hQueue : (s.bucket which).queue = s.stored which := rfl
  have hOther : ∀ i, i ≠ which →
      (i ∈ order ++ [which] ↔ i ∈ order) := by
    intro i hi
    rw [List.mem_append, List.mem_singleton, or_iff_left hi]
  unfold SFQ.enque
  dsimp only
  split_ifs with hDrop hFirst
  · exact Or.inl rfl
  · -- The first packet of the bucket.
    have hEmpty : s.stored which = [] := by
      apply List.length_eq_zero_iff.mp
      omega
    have hNew : which ∉ order := by
      rw [hMem, hEmpty]
      simp
    rcases hInv.ring.enter hNew with
      ⟨next, hNext, hRing, hHead⟩
    have hEntered : entered order which = order ++ [which] :=
      if_neg hNew
    unfold PacketSFQ.activate
    rw [hEntered, hInv.active, hNext]
    refine Or.inr ⟨_, rfl, stored_of_update rfl rfl, rfl, ?_⟩
    apply hInv.of_update (d := 1) rfl
    case hPkts =>
      dsimp only
      rw [hQueue, hEmpty]
      exact hFirst
    case hd => simp [hQueue]
    case hOccupied => rfl
    case hLimit =>
      dsimp only
      omega
    case hRing => exact hRing
    case hActive => exact hHead
    case hSelf => simp
    case hOther => exact hOther
  · have hOld : which ∈ order := by
      rw [hMem]
      intro hEmpty
      rw [hEmpty] at hPkts
      apply hFirst
      rw [hPkts]
      rfl
    have hEntered : entered order which = order :=
      if_pos hOld
    rw [hEntered]
    refine Or.inr ⟨_, rfl, stored_of_update rfl rfl, rfl, ?_⟩
    apply hInv.of_update (d := 1) rfl
    case hPkts =>
      dsimp only
      rw [hPkts, hQueue]
      simp
    case hd => simp [hQueue]
    case hOccupied => rfl
    case hLimit =>
      dsimp only
      omega
    case hRing => exact hInv.ring
    case hActive => exact hInv.active
    case hSelf => simp [hOld]
    case hOther => exact fun i _ => Iff.rfl

end SFQ

end Ns2

------------------------------------------------------------
-- Histories
------------------------------------------------------------

namespace Ns2

namespace SFQ

inductive Call (n : Nat) (α : Type) where
| enque (which : Fin n) (pkt : α)
| deque

/-
  A queue with the packets it has stored for each bucket, the
  packets that left each bucket, and the packets it dropped.
-/
structure History (n : Nat) (α : Type) where
  sfq : SFQ n α
  accepted : Fin n → List α
  dequeued : Fin n → List α
  dropped : List α

namespace History

open Buckets

variable {n : Nat} {α : Type}

def start (maxqueue : Int) : History n α :=
  ⟨initsfq maxqueue, fun _ => [], fun _ => [], []⟩

def act
    (h : History n α) :
    Call n α → Option (History n α)
| .enque which pkt =>
    (h.sfq.enque which pkt).map fun next =>
      match next.2 with
      | none =>
          { h with
            sfq := next.1
            accepted := Function.update h.accepted which
              (h.accepted which ++ [pkt]) }
      | some p =>
          { h with
            sfq := next.1
            dropped := h.dropped ++ [p] }
| .deque =>
    h.sfq.deque.map fun next =>
      match h.sfq.active, next.2 with
      | some q, some p =>
          { h with
            sfq := next.1
            dequeued := Function.update h.dequeued q
              (h.dequeued q ++ [p]) }
      | _, _ => { h with sfq := next.1 }

def run
    (h : History n α)
    (calls : List (Call n α)) : Option (History n α) :=
  PartialRun.run act h calls

/- The number of packets that left a bucket. -/
def departures
    (h : History n α)
    (i : Fin n) : Int :=
  (h.dequeued i).length

/- What holds after every sequence of calls. -/
structure HInv
    (h : History n α)
    (order : List (Fin n)) : Prop where
  inv : h.sfq.Inv order
  fifo : ∀ i, h.accepted i = h.dequeued i ++ h.sfq.stored i

/- What a call can do, and how it changes the turns. -/
inductive Change
    (h : History n α)
    (order : List (Fin n)) :
    Call n α → History n α → List (Fin n) → Prop
| dropped
    (which : Fin n)
    (pkt : α) :
    Change h order (.enque which pkt)
      { h with dropped := h.dropped ++ [pkt] } order
| stored
    (which : Fin n)
    (pkt : α)
    (s : SFQ n α)
    (hStored : s.stored = Function.update h.sfq.stored which
      (h.sfq.stored which ++ [pkt]))
    (hMax : s.maxqueue = h.sfq.maxqueue) :
    Change h order (.enque which pkt)
      { h with
        sfq := s
        accepted := Function.update h.accepted which
          (h.accepted which ++ [pkt]) }
      (entered order which)
| empty
    (hOrder : order = []) :
    Change h order .deque h order
| served
    (q : Fin n)
    (rest : List (Fin n))
    (pkt : α)
    (pkts : List α)
    (s : SFQ n α)
    (hOrder : order = q :: rest)
    (hQueue : h.sfq.stored q = pkt :: pkts)
    (hStored : s.stored =
      Function.update h.sfq.stored q pkts)
    (hMax : s.maxqueue = h.sfq.maxqueue) :
    Change h order .deque
      { h with
        sfq := s
        dequeued := Function.update h.dequeued q
          (h.dequeued q ++ [pkt]) }
      (if pkts = [] then rest else rest ++ [q])

/- Every call has a result. -/
theorem HInv.act
    {h : History n α}
    {order : List (Fin n)}
    (hInv : h.HInv order)
    (call : Call n α) :
    ∃ h' order', h.act call = some h' ∧ h'.HInv order' ∧
      Change h order call h' order' := by
  cases call with
  | enque which pkt =>
      rcases hInv.inv.enque which pkt with
        hDrop | ⟨s, hEnque, hStored, hMax, hInv'⟩
      · refine ⟨_, order, ?_, ?_, .dropped which pkt⟩
        · simp only [History.act, hDrop, Option.map_some]
        · exact ⟨hInv.inv, hInv.fifo⟩
      · refine ⟨_, _, ?_, ⟨hInv', ?_⟩,
          .stored which pkt s hStored hMax⟩
        · simp only [History.act, hEnque, Option.map_some]
        · intro i
          dsimp only
          rw [hStored]
          by_cases hi : i = which
          · rw [hi, Function.update_self,
              Function.update_self, hInv.fifo,
              List.append_assoc]
          · rw [Function.update_of_ne hi,
              Function.update_of_ne hi, hInv.fifo]
  | deque =>
      cases order with
      | nil =>
          refine ⟨h, [], ?_, hInv, .empty rfl⟩
          simp only [History.act, hInv.inv.deque_empty,
            Option.map_some, hInv.inv.active, List.head?_nil]
      | cons q rest =>
          have hNe := (hInv.inv.mem q).mp List.mem_cons_self
          rcases List.exists_cons_of_ne_nil hNe with
            ⟨pkt, pkts, hQueue⟩
          rcases hInv.inv.deque hQueue with
            ⟨s, hDeque, hStored, hMax, hInv'⟩
          refine ⟨_, _, ?_, ⟨hInv', ?_⟩,
            .served q rest pkt pkts s rfl hQueue hStored hMax⟩
          · simp only [History.act, hDeque, Option.map_some,
              hInv.inv.active, List.head?_cons]
          · intro i
            dsimp only
            rw [hStored]
            by_cases hi : i = q
            · rw [hi, Function.update_self,
                Function.update_self, hInv.fifo, hQueue,
                List.append_assoc]
              rfl
            · rw [Function.update_of_ne hi,
                Function.update_of_ne hi, hInv.fifo]

theorem hInv_start (maxqueue : Int) :
    (start maxqueue : History n α).HInv [] :=
  ⟨inv_initsfq maxqueue, fun _ => rfl⟩

theorem Change.maxqueue_eq
    {h h' : History n α}
    {order order' : List (Fin n)}
    {call : Call n α}
    (hChange : Change h order call h' order') :
    h'.sfq.maxqueue = h.sfq.maxqueue := by
  cases hChange with
  | dropped which pkt => rfl
  | stored which pkt s hStored hMax => exact hMax
  | empty hOrder => rfl
  | served q rest pkt pkts s hOrder hQueue hStored hMax =>
      exact hMax

/- Every sequence of calls has a result. -/
theorem HInv.run
    {h : History n α}
    {order : List (Fin n)}
    (hInv : h.HInv order)
    (calls : List (Call n α)) :
    ∃ h' order', h.run calls = some h' ∧ h'.HInv order' ∧
      h'.sfq.maxqueue = h.sfq.maxqueue := by
  induction calls generalizing h order with
  | nil => exact ⟨h, order, rfl, hInv, rfl⟩
  | cons call calls ih =>
      rcases hInv.act call with
        ⟨h₁, order₁, hAct, hInv₁, hChange⟩
      rcases ih hInv₁ with ⟨h', order', hRun, hInv', hMax⟩
      refine ⟨h', order', ?_, hInv',
        hMax.trans hChange.maxqueue_eq⟩
      unfold History.run PartialRun.run
      rw [hAct]
      exact hRun

end History

end SFQ

end Ns2

------------------------------------------------------------
-- Fairness and Progress
------------------------------------------------------------

namespace Ns2

namespace SFQ

namespace History

open Buckets RoundRobin

variable {n : Nat} {α : Type}

/- Two buckets hold packets. -/
def Busy
    (i j : Fin n)
    (h : History n α) : Prop :=
  h.sfq.stored i ≠ [] ∧ h.sfq.stored j ≠ []

/-
  While two buckets hold packets, the one is ahead of the
  other by the change of its lead.
-/
theorem Change.lead_eq
    {h h' : History n α}
    {order order' : List (Fin n)}
    {call : Call n α}
    (hChange : Change h order call h' order')
    (hInv : h.HInv order)
    (hInv' : h'.HInv order')
    {i j : Fin n}
    (hij : i ≠ j)
    (hBusy : h.Busy i j)
    (hBusy' : h'.Busy i j) :
    h'.departures i - h.departures i -
        (h'.departures j - h.departures j) =
      lead i j order' - lead i j order := by
  have hi := (hInv.inv.mem i).mpr hBusy.1
  have hj := (hInv.inv.mem j).mpr hBusy.2
  have hi' := (hInv'.inv.mem i).mpr hBusy'.1
  have hj' := (hInv'.inv.mem j).mpr hBusy'.2
  cases hChange with
  | dropped which pkt =>
      unfold departures
      dsimp only
      omega
  | stored which pkt s hStored hMax =>
      have hLead : lead i j (entered order which) =
          lead i j order := by
        unfold entered
        split_ifs
        · rfl
        · exact lead_append hi hj
      rw [hLead]
      unfold departures
      dsimp only
      omega
  | empty hOrder =>
      rw [hOrder] at hi
      cases hi
  | served q rest pkt pkts s hOrder hQueue hStored hMax =>
      subst hOrder
      have hCount : ∀ k, departures { h with
          sfq := s
          dequeued := Function.update h.dequeued q
            (h.dequeued q ++ [pkt]) } k =
          h.departures k + (if q = k then 1 else 0) := by
        intro k
        unfold departures
        dsimp only
        by_cases hk : q = k
        · rw [← hk, Function.update_self, if_pos rfl,
            List.length_append]
          rfl
        · rw [Function.update_of_ne (fun h => hk h.symm),
            if_neg hk, add_zero]
      have hLead : lead i j
          (if pkts = [] then rest else rest ++ [q]) =
          lead i j (rest ++ [q]) := by
        by_cases hPkts : pkts = []
        · rw [if_pos hPkts] at hi' hj' ⊢
          exact (lead_append hi' hj').symm
        · rw [if_neg hPkts]
      rw [hCount, hCount, hLead,
        lead_serve hInv.inv.ring.nodup hij hi hj]
      omega

/- The packets that leave two busy buckets differ by one. -/
theorem departures_fair
    {h h' : History n α}
    {order : List (Fin n)}
    (hInv : h.HInv order)
    {calls : List (Call n α)}
    (hRun : h.run calls = some h')
    {i j : Fin n}
    (hThroughout : ∀ before after h₁,
      calls = before ++ after →
      h.run before = some h₁ → h₁.Busy i j) :
    |h'.departures i - h.departures i -
      (h'.departures j - h.departures j)| ≤ 1 := by
  by_cases hij : i = j
  · rw [hij, sub_self, abs_zero]
    exact zero_le_one
  have hLead : ∃ order', h'.HInv order' ∧
      h'.departures i - h.departures i -
          (h'.departures j - h.departures j) =
        lead i j order' - lead i j order := by
    apply PartialRun.invariant_while
      (P := fun h' => ∃ order', h'.HInv order' ∧
        h'.departures i - h.departures i -
            (h'.departures j - h.departures j) =
          lead i j order' - lead i j order)
      (C := Busy i j) ?_ ⟨order, hInv, by omega⟩ hRun
      hThroughout
    rintro h₁ call h₂ ⟨order₁, hInv₁, hEq₁⟩ hBusy₁ hBusy₂ hAct
    rcases hInv₁.act call with
      ⟨h₃, order₃, hAct₃, hInv₃, hChange⟩
    rw [hAct] at hAct₃
    cases hAct₃
    refine ⟨order₃, hInv₃, ?_⟩
    have := hChange.lead_eq hInv₁ hInv₃ hij hBusy₁ hBusy₂
    omega
  rcases hLead with ⟨order', _, hEq⟩
  have hLow := lead_nonneg i j order
  have hHigh := lead_le_one i j order
  have hLow' := lead_nonneg i j order'
  have hHigh' := lead_le_one i j order'
  rw [hEq, abs_le]
  omega

/- Packets that have left do not come back. -/
theorem Change.departures_le
    {h h' : History n α}
    {order order' : List (Fin n)}
    {call : Call n α}
    (hChange : Change h order call h' order')
    (i : Fin n) :
    h.departures i ≤ h'.departures i := by
  cases hChange with
  | dropped which pkt => exact le_refl _
  | stored which pkt s hStored hMax => exact le_refl _
  | empty hOrder => exact le_refl _
  | served q rest pkt pkts s hOrder hQueue hStored hMax =>
      unfold departures
      dsimp only
      by_cases hi : i = q
      · rw [hi, Function.update_self, List.length_append]
        push_cast
        omega
      · rw [Function.update_of_ne hi]

theorem departures_le
    {h h' : History n α}
    {order : List (Fin n)}
    (hInv : h.HInv order)
    {calls : List (Call n α)}
    (hRun : h.run calls = some h')
    (i : Fin n) :
    h.departures i ≤ h'.departures i := by
  have hBoth : (∃ order', h'.HInv order') ∧
      h.departures i ≤ h'.departures i := by
    apply PartialRun.invariant
      (P := fun h' => (∃ order', h'.HInv order') ∧
        h.departures i ≤ h'.departures i)
      ?_ ⟨⟨order, hInv⟩, le_refl _⟩ hRun
    rintro h₁ call h₂ ⟨⟨order₁, hInv₁⟩, hLe⟩ hAct
    rcases hInv₁.act call with
      ⟨h₃, order₃, hAct₃, hInv₃, hChange⟩
    rw [hAct] at hAct₃
    cases hAct₃
    exact ⟨⟨order₃, hInv₃⟩,
      hLe.trans (hChange.departures_le i)⟩
  exact hBoth.2

def Call.isDeque : Call n α → Bool
| .deque => true
| _ => false

/-
  A packet with `m` packets of its bucket before it leaves
  after the turns that come before it.
-/
theorem leaves_after
    {h h' : History n α}
    {order : List (Fin n)}
    (hInv : h.HInv order)
    {calls : List (Call n α)}
    (hRun : h.run calls = some h')
    {i : Fin n}
    {m : Nat}
    (hm : m < (h.sfq.stored i).length)
    (hTurns : order.idxOf i + n * m <
      calls.countP Call.isDeque) :
    h.departures i + m < h'.departures i := by
  induction calls generalizing h order m with
  | nil => simp at hTurns
  | cons call calls ih =>
      rcases hInv.act call with
        ⟨h₁, order₁, hAct, hInv₁, hChange⟩
      have hRest : h₁.run calls = some h' := by
        unfold History.run PartialRun.run at hRun
        rw [hAct] at hRun
        exact hRun
      have hi : i ∈ order := by
        rw [hInv.inv.mem]
        intro hNil
        rw [hNil] at hm
        cases hm
      cases hChange with
      | dropped which pkt =>
          apply ih hInv₁ hRest hm
          simpa [List.countP_cons, Call.isDeque] using hTurns
      | stored which pkt s hStored hMax =>
          have hLength : (h.sfq.stored i).length ≤
              (s.stored i).length := by
            rw [hStored]
            by_cases hw : i = which
            · rw [hw, Function.update_self,
                List.length_append]
              omega
            · rw [Function.update_of_ne hw]
          have hIdx : (entered order which).idxOf i =
              order.idxOf i := by
            unfold entered
            split_ifs
            · rfl
            · exact List.idxOf_append_of_mem hi
          apply ih hInv₁ hRest (lt_of_lt_of_le hm hLength)
          rw [hIdx]
          simpa [List.countP_cons, Call.isDeque] using hTurns
      | empty hOrder =>
          rw [hOrder] at hi
          cases hi
      | served q rest pkt pkts s hOrder hQueue hStored hMax =>
          subst hOrder
          have hNodup := hInv.inv.ring.nodup
          have hTurns' : (q :: rest).idxOf i + n * m ≤
              calls.countP Call.isDeque := by
            have hOne : (Call.deque :: calls).countP
                Call.isDeque =
                calls.countP Call.isDeque + 1 :=
              List.countP_cons_of_pos rfl
            omega
          by_cases hq : q = i
          · subst hq
            have hDeparted : departures { h with
                sfq := s
                dequeued := Function.update h.dequeued q
                  (h.dequeued q ++ [pkt]) } q =
                h.departures q + 1 := by
              unfold departures
              dsimp only
              rw [Function.update_self, List.length_append]
              rfl
            have hLater := departures_le hInv₁ hRest q
            rw [hDeparted] at hLater
            cases m with
            | zero =>
                push_cast
                omega
            | succ m =>
                rw [hQueue, List.length_cons] at hm
                have hPkts : pkts ≠ [] := by
                  rintro rfl
                  simp at hm
                have hNew := (List.nodup_cons.mp hNodup).1
                have hAll := hNodup.length_le_card
                rw [Fintype.card_fin, List.length_cons] at hAll
                have hLeft := ih hInv₁ hRest (m := m) ?_ ?_
                · rw [hDeparted] at hLeft
                  push_cast
                  omega
                · dsimp only
                  rw [hStored, Function.update_self]
                  omega
                · rw [if_neg hPkts,
                    List.idxOf_append_of_notMem hNew,
                    List.idxOf_cons_self]
                  rw [Nat.mul_succ] at hTurns'
                  omega
          · have hi' : i ∈ rest :=
              (List.mem_cons.mp hi).resolve_left
                fun h => hq h.symm
            have hIdx : (if pkts = [] then rest
                else rest ++ [q]).idxOf i = rest.idxOf i := by
              split_ifs
              · rfl
              · exact List.idxOf_append_of_mem hi'
            have hSame : s.stored i = h.sfq.stored i := by
              rw [hStored,
                Function.update_of_ne fun h => hq h.symm]
            have hDeparted : departures { h with
                sfq := s
                dequeued := Function.update h.dequeued q
                  (h.dequeued q ++ [pkt]) } i =
                h.departures i := by
              unfold departures
              dsimp only
              rw [Function.update_of_ne fun h => hq h.symm]
            rw [← hDeparted]
            apply ih hInv₁ hRest
            · dsimp only
              rw [hSame]
              exact hm
            · rw [hIdx]
              rw [List.idxOf_cons_ne _ hq] at hTurns'
              omega

/-
  After every sequence of calls the ring holds the buckets
  with packets, the counters are right and the limit is kept.
  A packet is dropped on arrival or stored, and the packets
  of a bucket leave in the order of their arrival, each after
  the turns before it.  While two buckets hold packets, the
  numbers of their packets that leave differ by at most one.
-/
theorem sfq_correct
    (maxqueue : Int)
    (calls : List (Call n α)) :
    ∃ h : History n α,
      (start maxqueue).run calls = some h ∧
      (∃ ring, h.sfq.links.Ring ring ∧
        h.sfq.active = ring.head? ∧
        ∀ i, i ∈ ring ↔ 0 < (h.sfq.bucket i).pkts) ∧
      (∀ i, (h.sfq.bucket i).pkts =
        (h.sfq.stored i).length) ∧
      h.sfq.occupied = ∑ i, (h.sfq.bucket i).pkts ∧
      h.sfq.occupied ≤ max maxqueue 0 ∧
      (∀ i, h.accepted i =
        h.dequeued i ++ h.sfq.stored i) ∧
      (∀ which pkt,
        h.act (.enque which pkt) =
            some { h with dropped := h.dropped ++ [pkt] } ∨
        ∃ s, h.act (.enque which pkt) = some { h with
          sfq := s
          accepted := Function.update h.accepted which
            (h.accepted which ++ [pkt]) }) ∧
      (∃ s p, h.sfq.deque = some (s, p) ∧
        (p.isSome ↔ ∃ i, h.sfq.stored i ≠ [])) ∧
      (∀ more h', h.run more = some h' →
        (∀ i m, m < (h.sfq.stored i).length →
          n * (m + 1) ≤ more.countP Call.isDeque →
          h.departures i + m < h'.departures i) ∧
        ∀ i j,
          (∀ before after h₁, more = before ++ after →
            h.run before = some h₁ → h₁.Busy i j) →
          |h'.departures i - h.departures i -
            (h'.departures j - h.departures j)| ≤ 1) := by
  rcases (hInv_start maxqueue).run calls with
    ⟨h, order, hRun, hInv, hMax⟩
  have hPos : ∀ i, i ∈ order ↔ 0 < (h.sfq.bucket i).pkts := by
    intro i
    rw [hInv.inv.mem, hInv.inv.pkts, ← List.length_pos_iff]
    exact Int.natCast_pos.symm
  refine ⟨h, hRun, ⟨order, hInv.inv.ring, hInv.inv.active,
    hPos⟩, hInv.inv.pkts, ?_, ?_, hInv.fifo, ?_, ?_, ?_⟩
  · rw [hInv.inv.occupied]
    exact Finset.sum_congr rfl
      fun i _ => (hInv.inv.pkts i).symm
  · have hLimit := hInv.inv.limit
    rw [hMax] at hLimit
    exact hLimit
  · intro which pkt
    rcases hInv.act (.enque which pkt) with
      ⟨h', order', hAct, _, hChange⟩
    rw [hAct]
    cases hChange with
    | dropped => exact Or.inl rfl
    | stored _ _ s hStored hMax => exact Or.inr ⟨s, rfl⟩
  · cases order with
    | nil =>
        refine ⟨_, _, hInv.inv.deque_empty, ?_⟩
        have hNone : ∀ i, ¬ h.sfq.stored i ≠ [] := by
          intro i hi
          have hMem := (hInv.inv.mem i).mpr hi
          cases hMem
        simpa using hNone
    | cons q rest =>
        have hNe := (hInv.inv.mem q).mp List.mem_cons_self
        rcases List.exists_cons_of_ne_nil hNe with
          ⟨pkt, pkts, hQueue⟩
        rcases hInv.inv.deque hQueue with ⟨s, hDeque, _⟩
        exact ⟨s, some pkt, hDeque,
          iff_of_true rfl ⟨q, hNe⟩⟩
  · intro more h' hMore
    constructor
    · intro i m hm hCalls
      apply leaves_after hInv hMore hm
      have hi : i ∈ order := by
        rw [hInv.inv.mem]
        intro hNil
        rw [hNil] at hm
        cases hm
      have hIdx := List.idxOf_lt_length_of_mem hi
      have hAll := hInv.inv.ring.nodup.length_le_card
      rw [Fintype.card_fin] at hAll
      rw [Nat.mul_succ] at hCalls
      omega
    · intro i j hThroughout
      exact departures_fair hInv hMore hThroughout

end History

end SFQ

end Ns2
