import Ns2.Lib.PartialRun
import Ns2.Queue.Srr.Matrix
import Ns2.Queue.Srr.Packets
import Mathlib.Algebra.BigOperators.Ring.Finset
import Mathlib.Algebra.Order.BigOperators.Group.Finset

/-
  The smoothed round robin queue never fails.

  The queues with packets, stored or sent last, are those with
  nodes in the matrix, and the counters are right.  So there
  is always a node with a packet while one is stored, and the
  scan gives a queue its quantum until that packet fits.

  Main declarations:
    * `SRRQueue.Sound`
    * `SRRQueue.Event`, `SRRQueue.act`, `SRRQueue.Allowed`

  Correctness is proven by:
    * `SRRQueue.Sound.enque`, `SRRQueue.Sound.settle`
    * `SRRQueue.Sound.serve`
    * `SRRQueue.srr_never_fails`
-/

------------------------------------------------------------
-- What the Matrix Leaves Alone
------------------------------------------------------------

namespace Ns2

namespace SRR

variable {s s' : SRR}
variable {q weight : Nat}

theorem addRow_frame
    (s : SRR)
    (q weight : Nat) :
    (s.addRow q weight).bytecnt = s.bytecnt ∧
      (s.addRow q weight).maxColumn = s.maxColumn := by
  unfold addRow
  generalize (List.range (s.maxColumn + 1)).reverse.filter
    weight.testBit = cols
  induction cols generalizing s with
  | nil => exact ⟨rfl, rfl⟩
  | cons i cols ih =>
      rw [List.foldl_cons]
      rcases ih (addNode q s i) with ⟨hBytes, hColumn⟩
      exact ⟨hBytes, hColumn⟩

theorem add_to_WM_frame
    (hAdd : s.add_to_WM q weight = some s') :
    s'.bytecnt = s.bytecnt ∧ s'.maxColumn = s.maxColumn := by
  unfold add_to_WM at hAdd
  split at hAdd
  · cases hAdd
  · split at hAdd
    · cases hAdd
    · cases hAdd
      have hFrame := addRow_frame s q weight
      unfold stretchPtr
      split
      · exact hFrame
      · exact hFrame

theorem again_frame
    {fuel : Nat}
    {r : List Nat × SRR}
    (hAgain : again s fuel = some r) :
    r.2.bytecnt = s.bytecnt ∧ r.2.maxColumn = s.maxColumn := by
  induction fuel generalizing s r with
  | zero => cases hAgain
  | succ fuel ih =>
      unfold again at hAgain
      rcases Option.bind_eq_some_iff.mp hAgain with
        ⟨t, _, hTurn⟩
      split at hTurn
      · cases hTurn
      · simp only at hTurn
        split at hTurn
        · rcases Option.map_eq_some_iff.mp hTurn with
            ⟨r', hMore, rfl⟩
          have hFrame := ih hMore
          exact hFrame
        · cases hTurn
          exact ⟨rfl, rfl⟩

theorem shrinkPtr_frame
    (s : SRR)
    (old_colno : Int) :
    (s.shrinkPtr old_colno).bytecnt = s.bytecnt ∧
      (s.shrinkPtr old_colno).maxColumn = s.maxColumn := by
  rw [(shrinkPtr_spec s old_colno).1]
  exact ⟨rfl, rfl⟩

theorem del_from_WM_frame
    (hDel : s.del_from_WM q = some s') :
    s'.bytecnt = s.bytecnt ∧ s'.maxColumn = s.maxColumn := by
  unfold del_from_WM at hDel
  rcases Option.bind_eq_some_iff.mp hDel with ⟨n, _, hFreed⟩
  simp only at hFreed
  cases hTop : (s.without q n).topColumn
      (s.without q n).order with
  | none =>
      rw [hTop] at hFreed
      cases hFreed
      exact ⟨rfl, rfl⟩
  | some i =>
      rw [hTop] at hFreed
      change (s.without q n).relocate i = some s' at hFreed
      unfold relocate at hFreed
      simp only at hFreed
      have hShrunk := shrinkPtr_frame
        { s.without q n with currMaxColumn := i }
        (s.without q n).currMaxColumn
      split at hFreed
      · rcases Option.map_eq_some_iff.mp hFreed with
          ⟨r, hAdvance, rfl⟩
        have hMoved := again_frame hAdvance
        exact ⟨hMoved.1.trans hShrunk.1,
          hMoved.2.trans hShrunk.2⟩
      · cases hFreed
        exact hShrunk

end SRR

end Ns2

------------------------------------------------------------
-- Sound Queues
------------------------------------------------------------

namespace Ns2

namespace SRRQueue

variable {α : Type}
variable {cfg : SRRConfig α}
variable {w : Nat → Nat}
variable {s s' : SRRQueue α}
variable {q : Nat}

/- The packet of a queue that was sent and is still counted. -/
def pending
    (s : SRRQueue α)
    (q : Nat) : Option Int :=
  if s.last_queueid = some q then some s.last_size else none

/- The counters of one queue and what it stores. -/
structure Counted
    (cfg : SRRConfig α)
    (q : Nat)
    (pending : Option Int)
    (pq : PacketSRR α) : Prop where
  pkts :
    pq.pkts = pq.queue.length + pending.elim 0 fun _ => 1
  bcount :
    pq.bcount = (pq.queue.map cfg.size).sum + pending.getD 0
  mine : ∀ p ∈ pq.queue, cfg.f2q (cfg.flowid p) = q
  size : ∀ p ∈ pq.queue, 0 < cfg.size p
  sent : ∀ b ∈ pending, 0 < b ∧ pq.turn = true
  credit : 0 ≤ pq.deficitCounter
  waits :
    pq.turn = false → ∀ p ∈ pq.queue.head?,
      pq.deficitCounter < cfg.size p

/-
  The weights are those of the queues that count packets, and
  the totals are the sums of the counters.
-/
structure Sound
    (cfg : SRRConfig α)
    (w : Nat → Nat)
    (s : SRRQueue α) : Prop where
  matrix : SRR.Matrix MAXWSSORDER w s.wm
  queues : ∀ q, Counted cfg q (s.pending q) (s.srr q)
  active : ∀ q, w q ≠ 0 ↔ (s.srr q).pkts ≠ 0
  range : ∀ q, w q ≠ 0 → q < MAXFLOW
  limit :
    0 ≤ cfg.qlim_ → ∀ q, (s.srr q).pkts ≤ cfg.qlim_
  pktcnt :
    s.pktcnt = ∑ q ∈ Finset.range MAXFLOW, (s.srr q).pkts
  bytecnt :
    s.wm.bytecnt =
      ∑ q ∈ Finset.range MAXFLOW, (s.srr q).bcount
  flwcnt :
    s.flwcnt =
      ((Finset.range MAXFLOW).filter (w · ≠ 0)).card

theorem sound_new (cfg : SRRConfig α) :
    Sound cfg (fun _ => 0) new := by
  constructor
  case matrix => exact SRR.matrix_new (by decide)
  case queues =>
    intro q
    constructor
    case pkts => rfl
    case bcount => rfl
    case mine => exact fun p h => absurd h List.not_mem_nil
    case size => exact fun p h => absurd h List.not_mem_nil
    case sent =>
      intro b hb
      cases hb
    case credit => exact le_rfl
    case waits =>
      intro _ p hp
      cases hp
  case active => exact fun q => by simp [new]
  case range => exact fun q h => absurd rfl h
  case limit => exact fun h q => h
  case pktcnt => exact (Finset.sum_const_zero).symm
  case bytecnt => exact (Finset.sum_const_zero).symm
  case flwcnt => rfl

theorem Counted.nonneg
    {o : Option Int}
    {pq : PacketSRR α}
    (hCounted : Counted cfg q o pq) :
    0 ≤ pq.pkts ∧ 0 ≤ pq.bcount := by
  have hBytes : 0 ≤ (pq.queue.map cfg.size).sum := by
    refine List.sum_nonneg fun x hx => ?_
    rcases List.mem_map.mp hx with ⟨p, hMem, rfl⟩
    exact (hCounted.size p hMem).le
  rw [hCounted.pkts, hCounted.bcount]
  cases o with
  | none =>
      simp only [Option.elim_none, Option.getD_none]
      omega
  | some b =>
      have hPos := (hCounted.sent b rfl).1
      simp only [Option.elim_some, Option.getD_some]
      omega

/- A sum over the queues when one of them changes. -/
theorem sum_queues
    (f : PacketSRR α → Int)
    (srr : Nat → PacketSRR α)
    (hq : q < MAXFLOW)
    (pq : PacketSRR α) :
    ∑ i ∈ Finset.range MAXFLOW, f (Function.update srr q pq i) =
      ∑ i ∈ Finset.range MAXFLOW, f (srr i) +
        (f pq - f (srr q)) := by
  have hMem : q ∈ Finset.range MAXFLOW :=
    Finset.mem_range.mpr hq
  rw [← Finset.add_sum_erase _ _ hMem,
    ← Finset.add_sum_erase (Finset.range MAXFLOW)
      (fun i => f (srr i)) hMem, Function.update_self]
  have hRest : ∑ i ∈ (Finset.range MAXFLOW).erase q,
      f (Function.update srr q pq i) =
      ∑ i ∈ (Finset.range MAXFLOW).erase q, f (srr i) := by
    refine Finset.sum_congr rfl fun i hi => ?_
    rw [Function.update_of_ne (Finset.ne_of_mem_erase hi)]
  rw [hRest]
  omega

/- The number of active queues when one starts or stops. -/
theorem card_active
    (w : Nat → Nat)
    (hq : q < MAXFLOW)
    (x : Nat) :
    (((Finset.range MAXFLOW).filter
        (Function.update w q x · ≠ 0)).card : Int) =
      ((Finset.range MAXFLOW).filter (w · ≠ 0)).card +
        ((if x ≠ 0 then 1 else 0) -
          (if w q ≠ 0 then 1 else 0)) := by
  have hMem : q ∈ Finset.range MAXFLOW :=
    Finset.mem_range.mpr hq
  have hCount : ∀ v : Nat → Nat,
      (((Finset.range MAXFLOW).filter (v · ≠ 0)).card : Int) =
        (if v q ≠ 0 then 1 else 0) +
          ∑ i ∈ (Finset.range MAXFLOW).erase q,
            if v i ≠ 0 then 1 else 0 := by
    intro v
    rw [Finset.card_filter, Nat.cast_sum,
      ← Finset.add_sum_erase _ _ hMem]
    push_cast
    rfl
  have hRest : ∑ i ∈ (Finset.range MAXFLOW).erase q,
      (if Function.update w q x i ≠ 0 then (1 : Int) else 0) =
      ∑ i ∈ (Finset.range MAXFLOW).erase q,
        if w i ≠ 0 then 1 else 0 := by
    refine Finset.sum_congr rfl fun i hi => ?_
    rw [Function.update_of_ne (Finset.ne_of_mem_erase hi)]
  rw [hCount, hCount, hRest, Function.update_self]
  omega

end SRRQueue

end Ns2

------------------------------------------------------------
-- Storing and Accounting
------------------------------------------------------------

namespace Ns2

namespace SRRQueue

variable {α : Type}
variable {cfg : SRRConfig α}
variable {w : Nat → Nat}
variable {s : SRRQueue α}

/- A packet that may arrive, and the weight of its queue. -/
structure Arrives
    (cfg : SRRConfig α)
    (s : SRRQueue α)
    (p : α) : Prop where
  flow : cfg.flowid p < MAXFLOW
  queue : cfg.f2q (cfg.flowid p) < MAXFLOW
  known : cfg.f2q (cfg.flowid p) ≤ cfg.maxqueuenumber_
  size : 0 < cfg.size p
  some : s.weight cfg (cfg.f2q (cfg.flowid p)) ≠ 0
  fits :
    s.weight cfg (cfg.f2q (cfg.flowid p)) <
      2 ^ (s.wm.maxColumn + 1)

/- The weights after a packet for a queue was stored. -/
def activated
    (cfg : SRRConfig α)
    (s : SRRQueue α)
    (w : Nat → Nat)
    (q : Nat) : Nat → Nat :=
  if (s.srr q).pkts = 0 then
    Function.update w q (s.weight cfg q)
  else w

/- The queue of a packet with the packet at its end. -/
theorem Counted.stored
    {o : Option Int}
    {pq : PacketSRR α}
    {p : α}
    (hCounted : Counted cfg (cfg.f2q (cfg.flowid p)) o pq)
    (hSize : 0 < cfg.size p)
    {d : Int}
    (hCredit : 0 ≤ d)
    (hWaits : pq.turn = false →
      ∀ p' ∈ (pq.queue ++ [p]).head?, d < cfg.size p') :
    Counted cfg (cfg.f2q (cfg.flowid p)) o
      { pq with
        queue := pq.queue ++ [p]
        pkts := pq.pkts + 1
        bcount := pq.bcount + cfg.size p
        deficitCounter := d } := by
  constructor
  case pkts =>
    have hPkts := hCounted.pkts
    change pq.pkts + 1 = ((pq.queue ++ [p]).length : Int) + _
    rw [List.length_append, List.length_singleton]
    push_cast
    omega
  case bcount =>
    have hBytes := hCounted.bcount
    change pq.bcount + cfg.size p =
      ((pq.queue ++ [p]).map cfg.size).sum + _
    rw [List.map_append, List.sum_append, List.map_singleton,
      List.sum_singleton]
    omega
  case mine =>
    intro p' hMem
    rcases List.mem_append.mp hMem with hOld | hNew
    · exact hCounted.mine p' hOld
    · rw [List.mem_singleton.mp hNew]
  case size =>
    intro p' hMem
    rcases List.mem_append.mp hMem with hOld | hNew
    · exact hCounted.size p' hOld
    · rw [List.mem_singleton.mp hNew]
      exact hSize
  case sent => exact hCounted.sent
  case credit => exact hCredit
  case waits => exact hWaits

/- Changing one queue and the totals with it. -/
theorem Sound.update
    {s' : SRRQueue α}
    {q : Nat}
    (hSound : Sound cfg w s)
    (w' : Nat → Nat)
    (pq : PacketSRR α)
    (hq : q < MAXFLOW)
    (hMatrix : SRR.Matrix MAXWSSORDER w' s'.wm)
    (hSrr : s'.srr = Function.update s.srr q pq)
    (hPending : ∀ i, i ≠ q → s'.pending i = s.pending i)
    (hCounted : Counted cfg q (s'.pending q) pq)
    (hActive : w' q ≠ 0 ↔ pq.pkts ≠ 0)
    (hOther : ∀ i, i ≠ q → w' i = w i)
    (hLimit : 0 ≤ cfg.qlim_ → pq.pkts ≤ cfg.qlim_)
    (hPktcnt : s'.pktcnt = s.pktcnt +
      (pq.pkts - (s.srr q).pkts))
    (hBytecnt : s'.wm.bytecnt = s.wm.bytecnt +
      (pq.bcount - (s.srr q).bcount))
    (hFlwcnt : s'.flwcnt = s.flwcnt +
      ((if w' q ≠ 0 then 1 else 0) -
        (if w q ≠ 0 then 1 else 0))) :
    Sound cfg w' s' := by
  have hWeights : w' = Function.update w q (w' q) := by
    funext i
    by_cases hi : i = q
    · rw [hi, Function.update_self]
    · rw [Function.update_of_ne hi, hOther i hi]
  have hHere : s'.srr q = pq := by
    rw [hSrr, Function.update_self]
  have hThere : ∀ i, i ≠ q → s'.srr i = s.srr i := fun i hi => by
    rw [hSrr, Function.update_of_ne hi]
  constructor
  case matrix => exact hMatrix
  case queues =>
    intro i
    by_cases hi : i = q
    · rw [hi, hHere]
      exact hCounted
    · rw [hThere i hi, hPending i hi]
      exact hSound.queues i
  case active =>
    intro i
    by_cases hi : i = q
    · rw [hi, hHere]
      exact hActive
    · rw [hThere i hi, hOther i hi]
      exact hSound.active i
  case range =>
    intro i hSome
    by_cases hi : i = q
    · rw [hi]
      exact hq
    · rw [hOther i hi] at hSome
      exact hSound.range i hSome
  case limit =>
    intro hNonneg i
    by_cases hi : i = q
    · rw [hi, hHere]
      exact hLimit hNonneg
    · rw [hThere i hi]
      exact hSound.limit hNonneg i
  case pktcnt =>
    rw [hPktcnt, hSound.pktcnt, hSrr]
    exact (sum_queues (·.pkts) s.srr hq pq).symm
  case bytecnt =>
    rw [hBytecnt, hSound.bytecnt, hSrr]
    exact (sum_queues (·.bcount) s.srr hq pq).symm
  case flwcnt =>
    rw [hFlwcnt, hSound.flwcnt, hWeights,
      card_active w hq (w' q), Function.update_self]

/- A packet is stored, or dropped where the queue is full. -/
theorem Sound.enque
    {p : α}
    (hSound : Sound cfg w s)
    (hArrives : Arrives cfg s p) :
    ∃ s', ((s.srr (cfg.f2q (cfg.flowid p))).pkts = cfg.qlim_ ∧
        s.enque cfg p = some (s', true) ∧ s' = s ∨
      (s.srr (cfg.f2q (cfg.flowid p))).pkts ≠ cfg.qlim_ ∧
        s.enque cfg p = some (s', false) ∧
        Sound cfg (activated cfg s w (cfg.f2q (cfg.flowid p)))
          s' ∧
        (∀ i, (s'.srr i).queue =
          Function.update (fun i => (s.srr i).queue)
            (cfg.f2q (cfg.flowid p))
            ((s.srr (cfg.f2q (cfg.flowid p))).queue ++ [p])
            i)) := by
  have hq := hArrives.queue
  have hCall : ¬(MAXFLOW ≤ cfg.flowid p ∨
      MAXFLOW ≤ cfg.f2q (cfg.flowid p)) := by
    have hFlow := hArrives.flow
    omega
  have hKnown := hArrives.known
  have hSome := hArrives.some
  have hFits := hArrives.fits
  have hCounted := hSound.queues (cfg.f2q (cfg.flowid p))
  unfold SRRQueue.enque activated
  simp only
  rw [if_neg hCall, if_neg (not_lt.mpr hKnown)]
  generalize hQueue : cfg.f2q (cfg.flowid p) = q at *
  by_cases hFull : (s.srr q).pkts = cfg.qlim_
  · exact ⟨s, Or.inl ⟨hFull, by rw [if_pos hFull], rfl⟩⟩
  · have hLimit : 0 ≤ cfg.qlim_ →
        (s.srr q).pkts + 1 ≤ cfg.qlim_ := by
      intro hNonneg
      have hLe := hSound.limit hNonneg q
      omega
    have hNonneg := hCounted.nonneg.1
    rw [if_neg hFull]
    by_cases hIdle : (s.srr q).pkts = 0
    · -- the queue had nothing, so it gets nodes
      have hEmpty : (s.srr q).queue = [] ∧
          s.pending q = none := by
        have hPkts := hCounted.pkts
        rw [hIdle] at hPkts
        cases hPending : s.pending q with
        | none =>
            rw [hPending] at hPkts
            simp only [Option.elim_none] at hPkts
            exact ⟨List.length_eq_zero_iff.mp (by omega), rfl⟩
        | some b =>
            rw [hPending] at hPkts
            simp only [Option.elim_some] at hPkts
            omega
      have hWeight : w q = 0 := by
        by_contra hNe
        exact (hSound.active q).mp hNe hIdle
      let wm : SRR := { s.wm with
        bytecnt := s.wm.bytecnt + cfg.size p }
      have hMatrix : SRR.Matrix MAXWSSORDER w wm :=
        { hSound.matrix with }
      rcases hMatrix.add_to_WM hWeight hSome hFits with
        ⟨wm', hAdd, hMatrix'⟩
      have hFrame := SRR.add_to_WM_frame hAdd
      have hOne : (s.srr q).pkts + 1 = 1 := by omega
      rw [if_pos hIdle]
      refine ⟨_, Or.inr ⟨hFull, by
        rw [if_pos hOne]
        change (wm.add_to_WM q (s.weight cfg q)).map _ = _
        rw [hAdd]
        rfl, ?_, ?_⟩⟩
      · have hNew : Counted cfg q (s.pending q)
            { s.srr q with
              queue := (s.srr q).queue ++ [p]
              pkts := (s.srr q).pkts + 1
              bcount := (s.srr q).bcount + cfg.size p
              deficitCounter := 0 } := by
          rw [← hQueue] at hCounted ⊢
          refine hCounted.stored hArrives.size le_rfl ?_
          intro _ p' hHead
          rw [hQueue, hEmpty.1] at hHead
          cases hHead
          exact hArrives.size
        refine hSound.update _ _ hq hMatrix' ?_ (fun _ _ => rfl) hNew
          ?_ ?_ hLimit ?_ ?_ ?_
        · exact Function.update_idem ..
        · rw [Function.update_self]
          exact ⟨fun _ => by rw [hOne]; exact one_ne_zero,
            fun _ => hSome⟩
        · exact fun i hi => Function.update_of_ne hi _ _
        · change s.pktcnt + 1 = s.pktcnt +
            ((s.srr q).pkts + 1 - (s.srr q).pkts)
          omega
        · change wm'.bytecnt = _
          rw [hFrame.1]
          change s.wm.bytecnt + cfg.size p = s.wm.bytecnt +
            ((s.srr q).bcount + cfg.size p - (s.srr q).bcount)
          omega
        · change s.flwcnt + 1 = _
          rw [Function.update_self, if_pos hSome,
            if_neg (not_not.mpr hWeight)]
          omega
      · intro i
        by_cases hi : i = q
        · rw [hi, Function.update_self]
          simp only [Function.update_self]
        · rw [Function.update_of_ne hi]
          simp only [Function.update_of_ne hi]
    · have hMore : ¬(s.srr q).pkts + 1 = 1 := by omega
      rw [if_neg hIdle]
      refine ⟨_, Or.inr ⟨hFull, by rw [if_neg hMore], ?_, ?_⟩⟩
      · have hNew : Counted cfg q (s.pending q)
            { s.srr q with
              queue := (s.srr q).queue ++ [p]
              pkts := (s.srr q).pkts + 1
              bcount := (s.srr q).bcount + cfg.size p
              deficitCounter := (s.srr q).deficitCounter } := by
          have hSent := hCounted.sent
          have hPkts := hCounted.pkts
          have hWaits := hCounted.waits
          rw [← hQueue] at hCounted ⊢
          refine hCounted.stored hArrives.size hCounted.credit ?_
          rw [hQueue]
          intro hTurn p' hHead
          cases hStored : (s.srr q).queue with
          | cons first rest =>
              rw [hStored] at hHead hWaits
              exact hWaits hTurn p' hHead
          | nil =>
              -- what is counted was sent, in a turn
              cases hPending : s.pending q with
              | none =>
                  rw [hPending, hStored] at hPkts
                  exact absurd hPkts hIdle
              | some b =>
                  rw [(hSent b hPending).2] at hTurn
                  cases hTurn
        refine hSound.update w _ hq
          { hSound.matrix with } rfl (fun _ _ => rfl) hNew
          ?_ (fun _ _ => rfl) hLimit ?_ ?_ ?_
        · rw [hSound.active q]
          exact ⟨fun _ => by
            change (s.srr q).pkts + 1 ≠ 0
            omega, fun _ => hIdle⟩
        · change s.pktcnt + 1 = s.pktcnt +
            ((s.srr q).pkts + 1 - (s.srr q).pkts)
          omega
        · change s.wm.bytecnt + cfg.size p = s.wm.bytecnt +
            ((s.srr q).bcount + cfg.size p - (s.srr q).bcount)
          omega
        · change s.flwcnt = _
          omega
      · intro i
        by_cases hi : i = q
        · rw [hi, Function.update_self]
          simp only [Function.update_self]
        · rw [Function.update_of_ne hi]
          simp only [Function.update_of_ne hi]

end SRRQueue

end Ns2

------------------------------------------------------------
-- Sending
------------------------------------------------------------

namespace Ns2

namespace SRRQueue

variable {α : Type}
variable {cfg : SRRConfig α}
variable {w : Nat → Nat}
variable {s : SRRQueue α}

/- No packet is counted that is not stored. -/
def cleared (s : SRRQueue α) : SRRQueue α :=
  { s with last_queueid := none }

/- The weights after the packet sent last was accounted for. -/
def settled
    (s : SRRQueue α)
    (w : Nat → Nat) : Nat → Nat :=
  fun q => if (s.srr q).pkts = 0 then 0 else w q

theorem cleared_pending
    (s : SRRQueue α)
    (q : Nat) :
    s.cleared.pending q = none :=
  if_neg (Option.some_ne_none q).symm

/- A queue after its packet that was sent is accounted for. -/
theorem Counted.settled
    {q : Nat}
    {b d : Int}
    {turn : Bool}
    {pq : PacketSRR α}
    (hCounted : Counted cfg q (some b) pq)
    (hCredit : 0 ≤ d)
    (hWaits : turn = false →
      ∀ p ∈ pq.queue.head?, d < cfg.size p) :
    Counted cfg q none
      { pq with
        bcount := pq.bcount - b
        pkts := pq.pkts - 1
        turn := turn
        deficitCounter := d } := by
  constructor
  case pkts =>
    have hPkts := hCounted.pkts
    change pq.pkts - 1 = (pq.queue.length : Int) + 0
    simp only [Option.elim_some] at hPkts
    omega
  case bcount =>
    have hBytes := hCounted.bcount
    change pq.bcount - b = (pq.queue.map cfg.size).sum + 0
    simp only [Option.getD_some] at hBytes
    omega
  case mine => exact hCounted.mine
  case size => exact hCounted.size
  case sent =>
    intro b hb
    cases hb
  case credit => exact hCredit
  case waits => exact hWaits

/- A queue whose last packet was sent loses its nodes. -/
theorem Sound.settle
    (hSound : Sound cfg w s) :
    ∃ s', s.settle = some s' ∧
      Sound cfg (s'.settled w) s'.cleared ∧
      ∀ i, (s'.srr i).queue = (s.srr i).queue := by
  cases hLast : s.last_queueid with
  | none =>
      have hSame : s.cleared = s := by
        cases s
        cases hLast
        rfl
      have hWeights : s.settled w = w := by
        funext q
        unfold settled
        split
        · next hIdle =>
            by_contra hNe
            exact (hSound.active q).mp (Ne.symm hNe) hIdle
        · rfl
      refine ⟨s, ?_, ?_, fun _ => rfl⟩
      · unfold SRRQueue.settle
        rw [hLast]
      · rw [hSame, hWeights]
        exact hSound
  | some q =>
      have hPending : s.pending q = some s.last_size :=
        if_pos hLast
      have hNone : ∀ i, i ≠ q → s.pending i = none := by
        intro i hi
        refine if_neg fun h => hi ?_
        rw [hLast] at h
        exact (Option.some.inj h).symm
      have hCounted := hSound.queues q
      rw [hPending] at hCounted
      have hPkts : (s.srr q).pkts - 1 =
          (s.srr q).queue.length := by
        have h := hCounted.pkts
        simp only [Option.elim_some] at h
        omega
      have hActive : w q ≠ 0 := by
        rw [hSound.active q]
        omega
      have hq := hSound.range q hActive
      have hLimit : 0 ≤ cfg.qlim_ →
          (s.srr q).pkts - 1 ≤ cfg.qlim_ := by
        intro hNonneg
        have hLe := hSound.limit hNonneg q
        omega
      have hOld : ∀ i, i ≠ q → s.settled w i = w i := by
        intro i _
        unfold settled
        split
        · next hIdle =>
            by_contra hNe
            exact (hSound.active i).mp (Ne.symm hNe) hIdle
        · rfl
      let wm : SRR := { s.wm with
        bytecnt := s.wm.bytecnt - s.last_size }
      have hMatrix : SRR.Matrix MAXWSSORDER w wm :=
        { hSound.matrix with }
      unfold SRRQueue.settle
      rw [hLast]
      simp only
      by_cases hIdle : (s.srr q).pkts - 1 = 0
      · rw [if_pos hIdle]
        rcases hMatrix.del_from_WM hActive with
          ⟨wm', hDel, hMatrix'⟩
        have hFrame := SRR.del_from_WM_frame hDel
        let pq : PacketSRR α := { s.srr q with
          bcount := (s.srr q).bcount - s.last_size
          pkts := (s.srr q).pkts - 1
          turn := false
          deficitCounter := 0 }
        let s' : SRRQueue α := { s with
          wm := wm'
          srr := Function.update s.srr q pq
          pktcnt := s.pktcnt - 1
          flwcnt := s.flwcnt - 1
          last_queueid :=
            if wm'.wmEmptyFlag then none else some q }
        have hEmpty : (s.srr q).queue = [] := by
          rw [hIdle] at hPkts
          exact List.length_eq_zero_iff.mp (by omega)
        have hNew : Counted cfg q none pq := by
          refine hCounted.settled le_rfl fun _ p hp => ?_
          rw [hEmpty] at hp
          cases hp
        have hSrr : ∀ i, i ≠ q → s'.srr i = s.srr i :=
          fun i hi => Function.update_of_ne hi _ _
        have hHere : s'.srr q = pq := Function.update_self ..
        have hWeights : s'.settled w =
            Function.update w q 0 := by
          funext i
          by_cases hi : i = q
          · rw [hi, Function.update_self]
            unfold settled
            rw [hHere, if_pos hIdle]
          · rw [Function.update_of_ne hi, ← hOld i hi]
            unfold settled
            rw [hSrr i hi]
        refine ⟨s', by
          change (wm.del_from_WM q).map _ = _
          rw [hDel]
          rfl, ?_, ?_⟩
        · rw [hWeights]
          refine hSound.update _ pq hq hMatrix' rfl ?_ ?_
            ?_ ?_ hLimit ?_ ?_ ?_
          · intro i hi
            rw [cleared_pending, hNone i hi]
          · rw [cleared_pending]
            exact hNew
          · rw [Function.update_self]
            exact iff_of_false (fun h => h rfl)
              (fun h => h hIdle)
          · exact fun i hi => Function.update_of_ne hi _ _
          · change s.pktcnt - 1 = s.pktcnt +
              ((s.srr q).pkts - 1 - (s.srr q).pkts)
            omega
          · change wm'.bytecnt = s.wm.bytecnt +
              ((s.srr q).bcount - s.last_size -
                (s.srr q).bcount)
            rw [hFrame.1]
            change s.wm.bytecnt - s.last_size = _
            omega
          · change s.flwcnt - 1 = _
            rw [Function.update_self, if_neg (fun h => h rfl),
              if_pos hActive]
            omega
        · intro i
          by_cases hi : i = q
          · rw [hi, hHere]
          · rw [hSrr i hi]
      · rw [if_neg hIdle]
        let pq : PacketSRR α := { s.srr q with
          bcount := (s.srr q).bcount - s.last_size
          pkts := (s.srr q).pkts - 1 }
        let s' : SRRQueue α := { s with
          wm := wm
          srr := Function.update s.srr q pq
          pktcnt := s.pktcnt - 1
          last_queueid := some q }
        have hNew : Counted cfg q none pq :=
          hCounted.settled hCounted.credit hCounted.waits
        have hSrr : ∀ i, i ≠ q → s'.srr i = s.srr i :=
          fun i hi => Function.update_of_ne hi _ _
        have hHere : s'.srr q = pq := Function.update_self ..
        have hWeights : s'.settled w = w := by
          funext i
          by_cases hi : i = q
          · rw [hi]
            unfold settled
            rw [hHere, if_neg hIdle]
          · rw [← hOld i hi]
            unfold settled
            rw [hSrr i hi]
        refine ⟨s', rfl, ?_, ?_⟩
        · rw [hWeights]
          refine hSound.update _ pq hq hMatrix rfl ?_ ?_
            ?_ (fun _ _ => rfl) hLimit ?_ ?_ ?_
          · intro i hi
            rw [cleared_pending, hNone i hi]
          · rw [cleared_pending]
            exact hNew
          · exact ⟨fun _ => hIdle, fun _ => hActive⟩
          · change s.pktcnt - 1 = s.pktcnt +
              ((s.srr q).pkts - 1 - (s.srr q).pkts)
            omega
          · change s.wm.bytecnt - s.last_size = s.wm.bytecnt +
              ((s.srr q).bcount - s.last_size -
                (s.srr q).bcount)
            omega
          · change s.flwcnt = _
            omega
        · intro i
          by_cases hi : i = q
          · rw [hi, hHere]
          · rw [hSrr i hi]

end SRRQueue

end Ns2

------------------------------------------------------------
-- Serving
------------------------------------------------------------

namespace Ns2

namespace SRRQueue

variable {α : Type}
variable {cfg : SRRConfig α}
variable {w : Nat → Nat}
variable {s : SRRQueue α}

theorem granted_turn
    (pq : PacketSRR α)
    (mtu : Int) :
    (granted pq mtu).queue = pq.queue ∧
      (granted pq mtu).pkts = pq.pkts ∧
      (granted pq mtu).bcount = pq.bcount ∧
      (granted pq mtu).turn = true := by
  unfold granted
  split
  · next hTurn => exact ⟨rfl, rfl, rfl, hTurn⟩
  · exact ⟨rfl, rfl, rfl, rfl⟩

theorem granted_credit
    (pq : PacketSRR α)
    (mtu : Int) :
    (granted pq mtu).deficitCounter =
      pq.deficitCounter + if pq.turn then 0 else mtu := by
  unfold granted
  split
  · simp
  · simp

/- A turn that sends nothing brings the queue nearer to it. -/
theorem lack_lt
    {pq : PacketSRR α}
    {p : α}
    {rest : List α}
    (hMtu : 0 < cfg.mtu_)
    (hQueue : pq.queue = p :: rest)
    (hShort :
      (granted pq cfg.mtu_).deficitCounter < cfg.size p) :
    lack cfg { granted pq cfg.mtu_ with turn := false } <
      lack cfg pq := by
  have hCredit := granted_credit pq cfg.mtu_
  unfold lack
  simp only [(granted_turn pq cfg.mtu_).1, hQueue,
    List.head?_cons, Option.map_some, Option.getD_some]
  cases hTurn : pq.turn with
  | true =>
      simp only [hTurn, if_true] at hCredit
      simp only [if_true, Bool.false_eq_true, if_false]
      omega
  | false =>
      simp only [hTurn, Bool.false_eq_true, if_false] at hCredit
      simp only [Bool.false_eq_true, if_false]
      omega

/- The queue being scanned has a packet. -/
theorem Sound.scanned
    (hSound : Sound cfg w s)
    (hLast : s.last_queueid = none)
    (hSome : ∃ q, w q ≠ 0) :
    ∃ n p rest, s.wm.pwmCurr = some n ∧
      n.queueid < MAXFLOW ∧ w n.queueid ≠ 0 ∧
      (s.srr n.queueid).queue = p :: rest := by
  rcases hSome with ⟨q, hActive⟩
  have hBusy := hSound.matrix.busy_of_active hActive
  rcases (hSound.matrix.busy hBusy).2.2 with ⟨n, hCurr, hNode⟩
  have hHere : w n.queueid ≠ 0 := by
    intro hZero
    have hBit := (hSound.matrix.bits _ _).mp hNode
    rw [hZero, Nat.zero_testBit] at hBit
    cases hBit
  have hPkts := (hSound.queues n.queueid).pkts
  have hNone : s.pending n.queueid = none :=
    if_neg (by rw [hLast]; exact (Option.some_ne_none _).symm)
  rw [hNone] at hPkts
  have hCount := (hSound.active n.queueid).mp hHere
  cases hQueue : (s.srr n.queueid).queue with
  | nil =>
      rw [hQueue] at hPkts
      exact absurd hPkts hCount
  | cons p rest =>
      exact ⟨n, p, rest, hCurr, hSound.range _ hHere, hHere,
        hQueue⟩

/- Bytes are counted while there is a packet. -/
theorem Sound.bytecnt_ne_zero
    {q : Nat}
    {p : α}
    {rest : List α}
    (hSound : Sound cfg w s)
    (hq : q < MAXFLOW)
    (hQueue : (s.srr q).queue = p :: rest) :
    s.wm.bytecnt ≠ 0 := by
  rw [hSound.bytecnt]
  refine ne_of_gt (Finset.sum_pos' ?_ ⟨q, ?_, ?_⟩)
  · exact fun i _ => (hSound.queues i).nonneg.2
  · exact Finset.mem_range.mpr hq
  · have hCounted := hSound.queues q
    have hBytes := hCounted.bcount
    have hFirst := hCounted.size p (by rw [hQueue]; simp)
    have hRest : 0 ≤ (rest.map cfg.size).sum := by
      refine List.sum_nonneg fun x hx => ?_
      rcases List.mem_map.mp hx with ⟨p', hMem, rfl⟩
      exact (hCounted.size p' (by rw [hQueue]; simp [hMem])).le
    have hPending : 0 ≤ (s.pending q).getD 0 := by
      cases hOut : s.pending q with
      | none => exact le_rfl
      | some b => exact (hCounted.sent b hOut).1.le
    rw [hQueue, List.map_cons, List.sum_cons] at hBytes
    omega

/- A packet is sent, the first of its queue. -/
theorem Sound.serve
    {k : Nat}
    (hMtu : 0 < cfg.mtu_)
    (hSound : Sound cfg w s)
    (hLast : s.last_queueid = none)
    (hSome : ∃ q, w q ≠ 0)
    (hk : ∑ q ∈ Finset.range MAXFLOW, lack cfg (s.srr q) < k) :
    ∃ p s' q rest,
      serve cfg k s = some (p, s') ∧ Sound cfg w s' ∧
      (s.srr q).queue = p :: rest ∧
      ∀ i, (s'.srr i).queue =
        Function.update (fun i => (s.srr i).queue) q rest i := by
  induction k generalizing s with
  | zero => exact absurd hk (Nat.not_lt_zero _)
  | succ k ih =>
      rcases hSound.scanned hLast hSome with
        ⟨n, p, rest, hCurr, hq, hActive, hQueue⟩
      generalize hName : n.queueid = q at *
      have hCounted := hSound.queues q
      have hNone : ∀ i, s.pending i = none := fun i =>
        if_neg (by rw [hLast]; exact (Option.some_ne_none _).symm)
      rw [hNone q] at hCounted
      have hMine : ¬cfg.f2q (cfg.flowid p) ≠ q :=
        not_not.mpr (hCounted.mine p (by rw [hQueue]; simp))
      have hTurn := granted_turn (s.srr q) cfg.mtu_
      have hCredit := granted_credit (s.srr q) cfg.mtu_
      have hEnough : 0 ≤
          (granted (s.srr q) cfg.mtu_).deficitCounter := by
        have hOld := hCounted.credit
        rw [hCredit]
        split <;> omega
      unfold SRRQueue.serve
      simp only [hCurr, Option.bind_some, hName,
        if_neg (not_le.mpr hq), hQueue, List.head?_cons,
        if_neg hMine]
      by_cases hFits : cfg.size p ≤
          (granted (s.srr q) cfg.mtu_).deficitCounter
      · rw [if_pos hFits]
        refine ⟨p, _, q, rest, rfl, ?_, hQueue, ?_⟩
        · refine hSound.update w _ hq hSound.matrix rfl ?_
            ?_ ?_ (fun _ _ => rfl) ?_ ?_ ?_ ?_
          · intro i hi
            rw [hNone i]
            refine if_neg fun h => hi ?_
            exact (Option.some.inj h).symm
          · have hOut : ∀ s₁ : SRRQueue α,
                s₁.last_queueid = some q →
                s₁.pending q = some s₁.last_size :=
              fun s₁ h => if_pos h
            rw [hOut _ rfl]
            constructor
            case pkts =>
              have hPkts := hCounted.pkts
              change (granted (s.srr q) cfg.mtu_).pkts =
                ((granted (s.srr q) cfg.mtu_).queue.tail.length
                  : Int) + 1
              rw [hTurn.2.1, hTurn.1, hPkts, hQueue]
              simp
            case bcount =>
              have hBytes := hCounted.bcount
              change (granted (s.srr q) cfg.mtu_).bcount =
                (((granted (s.srr q) cfg.mtu_).queue.tail).map
                  cfg.size).sum + cfg.size p
              rw [hTurn.2.2.1, hTurn.1, hBytes, hQueue,
                List.map_cons, List.sum_cons, List.tail_cons,
                Option.getD_none]
              omega
            case mine =>
              intro p' hMem
              change p' ∈ (granted (s.srr q) cfg.mtu_).queue.tail
                at hMem
              rw [hTurn.1] at hMem
              exact hCounted.mine p' (List.mem_of_mem_tail hMem)
            case size =>
              intro p' hMem
              change p' ∈ (granted (s.srr q) cfg.mtu_).queue.tail
                at hMem
              rw [hTurn.1] at hMem
              exact hCounted.size p' (List.mem_of_mem_tail hMem)
            case sent =>
              intro b hb
              cases hb
              exact ⟨hCounted.size p (by rw [hQueue]; simp),
                hTurn.2.2.2⟩
            case credit =>
              change 0 ≤ (granted (s.srr q)
                cfg.mtu_).deficitCounter - cfg.size p
              omega
            case waits =>
              intro hOver
              change (granted (s.srr q) cfg.mtu_).turn = false
                at hOver
              rw [hTurn.2.2.2] at hOver
              cases hOver
          · rw [hSound.active q]
            change _ ↔ (granted (s.srr q) cfg.mtu_).pkts ≠ 0
            rw [hTurn.2.1]
          · intro hNonneg
            change (granted (s.srr q) cfg.mtu_).pkts ≤ cfg.qlim_
            rw [hTurn.2.1]
            exact hSound.limit hNonneg q
          · change s.pktcnt = s.pktcnt +
              ((granted (s.srr q) cfg.mtu_).pkts -
                (s.srr q).pkts)
            rw [hTurn.2.1]
            omega
          · change s.wm.bytecnt = s.wm.bytecnt +
              ((granted (s.srr q) cfg.mtu_).bcount -
                (s.srr q).bcount)
            rw [hTurn.2.2.1]
            omega
          · change s.flwcnt = _
            omega
        · intro i
          by_cases hi : i = q
          · rw [hi, Function.update_self]
            simp only [Function.update_self]
            rw [hTurn.1, hQueue]
            rfl
          · rw [Function.update_of_ne hi]
            simp only [Function.update_of_ne hi]
      · rw [if_neg hFits]
        have hBusy := hSound.matrix.busy_of_active hActive
        rcases hSound.matrix.getNextNode hBusy
            (hSound.bytecnt_ne_zero hq hQueue) with
          ⟨n', wm, hNext, hSteps, hMatrix⟩
        have hFrame : wm.bytecnt = s.wm.bytecnt := by
          rw [hSteps.rest]
        let pq : PacketSRR α :=
          { granted (s.srr q) cfg.mtu_ with turn := false }
        let s₁ : SRRQueue α := { s with
          wm := wm
          srr := Function.update s.srr q pq }
        have hNew : Counted cfg q none pq := by
          constructor
          case pkts =>
            change (granted (s.srr q) cfg.mtu_).pkts =
              ((granted (s.srr q) cfg.mtu_).queue.length : Int)
                + 0
            rw [hTurn.2.1, hTurn.1]
            exact hCounted.pkts
          case bcount =>
            change (granted (s.srr q) cfg.mtu_).bcount =
              ((granted (s.srr q) cfg.mtu_).queue.map
                cfg.size).sum + 0
            rw [hTurn.2.2.1, hTurn.1]
            exact hCounted.bcount
          case mine =>
            intro p' hMem
            exact hCounted.mine p' (hTurn.1 ▸ hMem)
          case size =>
            intro p' hMem
            exact hCounted.size p' (hTurn.1 ▸ hMem)
          case sent =>
            intro b hb
            cases hb
          case credit => exact hEnough
          case waits =>
            intro _ p' hHead
            have hHead : p' ∈ (s.srr q).queue.head? :=
              hTurn.1 ▸ hHead
            rw [hQueue] at hHead
            cases hHead
            exact lt_of_not_ge hFits
        have hSound₁ : Sound cfg w s₁ := by
          refine hSound.update _ pq hq hMatrix rfl
            (fun _ _ => rfl) ?_ ?_ (fun _ _ => rfl) ?_ ?_ ?_ ?_
          · have hStill : s₁.pending q = none := hNone q
            rw [hStill]
            exact hNew
          · rw [hSound.active q]
            change _ ↔ (granted (s.srr q) cfg.mtu_).pkts ≠ 0
            rw [hTurn.2.1]
          · intro hNonneg
            change (granted (s.srr q) cfg.mtu_).pkts ≤ cfg.qlim_
            rw [hTurn.2.1]
            exact hSound.limit hNonneg q
          · change s.pktcnt = s.pktcnt +
              ((granted (s.srr q) cfg.mtu_).pkts -
                (s.srr q).pkts)
            rw [hTurn.2.1]
            omega
          · change wm.bytecnt = s.wm.bytecnt +
              ((granted (s.srr q) cfg.mtu_).bcount -
                (s.srr q).bcount)
            rw [hTurn.2.2.1]
            omega
          · change s.flwcnt = _
            omega
        have hLess : ∑ i ∈ Finset.range MAXFLOW,
            lack cfg (s₁.srr i) <
            ∑ i ∈ Finset.range MAXFLOW, lack cfg (s.srr i) := by
          have hLack := lack_lt hMtu hQueue (lt_of_not_ge hFits)
          refine Finset.sum_lt_sum ?_
            ⟨q, Finset.mem_range.mpr hq, ?_⟩
          · intro i _
            by_cases hi : i = q
            · rw [hi]
              change lack cfg (Function.update s.srr q pq q) ≤ _
              rw [Function.update_self]
              exact hLack.le
            · change lack cfg (Function.update s.srr q pq i) ≤ _
              rw [Function.update_of_ne hi]
          · change lack cfg (Function.update s.srr q pq q) < _
            rw [Function.update_self]
            exact hLack
        rcases ih hSound₁ hLast (by omega) with
          ⟨p', s', q', rest', hServe, hSound', hFirst, hQueues⟩
        have hSame : ∀ i, (s₁.srr i).queue = (s.srr i).queue := by
          intro i
          by_cases hi : i = q
          · rw [hi]
            change (Function.update s.srr q pq q).queue = _
            rw [Function.update_self]
            exact hTurn.1
          · change (Function.update s.srr q pq i).queue = _
            rw [Function.update_of_ne hi]
        refine ⟨p', s', q', rest', ?_, hSound', ?_, ?_⟩
        · rw [hNext, Option.bind_some]
          exact hServe
        · rw [← hSame q']
          exact hFirst
        · intro i
          rw [hQueues i]
          exact congrArg (fun f => Function.update f q' rest' i)
            (funext hSame)

end SRRQueue

end Ns2

------------------------------------------------------------
-- Calls
------------------------------------------------------------

namespace Ns2

namespace SRRQueue

variable {α : Type}
variable {cfg : SRRConfig α}
variable {w : Nat → Nat}
variable {s : SRRQueue α}

/- What was sent last is not looked at before it is replaced. -/
theorem serve_cleared
    (k : Nat)
    (s : SRRQueue α) :
    serve cfg k s.cleared = serve cfg k s := by
  induction k generalizing s with
  | zero => rfl
  | succ k ih =>
      unfold serve
      change s.wm.pwmCurr.bind _ = s.wm.pwmCurr.bind _
      congr 1
      funext n
      split
      · rfl
      · change (s.srr n.queueid).queue.head?.bind _ =
          (s.srr n.queueid).queue.head?.bind _
        congr 1
        funext pkt
        split
        · rfl
        · simp only
          by_cases hFits : cfg.size pkt ≤
              (granted (s.srr n.queueid) cfg.mtu_).deficitCounter
          · have hSame : cfg.size pkt ≤ (granted
                (s.cleared.srr n.queueid)
                cfg.mtu_).deficitCounter := hFits
            rw [if_pos hFits, if_pos hSame]
            rfl
          · have hSame : ¬cfg.size pkt ≤ (granted
                (s.cleared.srr n.queueid)
                cfg.mtu_).deficitCounter := hFits
            rw [if_neg hFits, if_neg hSame]
            change s.wm.getNextNode.bind _ =
              s.wm.getNextNode.bind _
            congr 1
            funext r
            exact ih { s with
              wm := r.2
              srr := Function.update s.srr n.queueid
                { granted (s.srr n.queueid) cfg.mtu_ with
                  turn := false } }

/- Without packets, nothing is stored. -/
theorem Sound.empty
    (hSound : Sound cfg w s)
    (hLast : s.last_queueid = none)
    (hNone : s.pktcnt = 0)
    (q : Nat) :
    (s.srr q).queue = [] := by
  have hEach : ∀ i ∈ Finset.range MAXFLOW,
      0 ≤ (s.srr i).pkts := fun i _ =>
    (hSound.queues i).nonneg.1
  have hZero : (s.srr q).pkts = 0 := by
    by_contra hSome
    have hActive := (hSound.active q).mpr hSome
    have hTotal := hSound.pktcnt
    rw [hNone] at hTotal
    have hAll := (Finset.sum_eq_zero_iff_of_nonneg hEach).mp
      hTotal.symm
    exact hSome (hAll q
      (Finset.mem_range.mpr (hSound.range q hActive)))
  have hPkts := (hSound.queues q).pkts
  have hPending : s.pending q = none :=
    if_neg (by rw [hLast]; exact (Option.some_ne_none _).symm)
  rw [hZero, hPending] at hPkts
  simp only [Option.elim_none] at hPkts
  exact List.length_eq_zero_iff.mp (by omega)

/- The weights after a call for a packet. -/
def dequed
    (s : SRRQueue α)
    (w : Nat → Nat) : Nat → Nat :=
  fun q =>
    if s.last_queueid = some q ∧ (s.srr q).pkts = 1 then 0
    else w q

theorem Sound.settled_eq
    {s₁ : SRRQueue α}
    (hSound : Sound cfg w s)
    (hSettle : s.settle = some s₁) :
    s₁.settled w = s.dequed w := by
  have hIdle : ∀ i, (s.srr i).pkts = 0 → w i = 0 := by
    intro i hZero
    by_contra hNe
    exact (hSound.active i).mp hNe hZero
  have hShape : ∀ i, (s₁.srr i).pkts = (s.srr i).pkts -
      if s.last_queueid = some i then 1 else 0 := by
    intro i
    unfold SRRQueue.settle at hSettle
    cases hLast : s.last_queueid with
    | none =>
        simp only [hLast] at hSettle
        cases hSettle
        simp
    | some q =>
        simp only [hLast] at hSettle
        have hUpdate : ∀ pq : PacketSRR α,
            pq.pkts = (s.srr q).pkts - 1 →
            (Function.update s.srr q pq i).pkts =
              (s.srr i).pkts - if some q = some i then 1 else 0
            := by
          intro pq hPkts
          by_cases hi : i = q
          · rw [hi, Function.update_self, if_pos rfl, hPkts]
          · rw [Function.update_of_ne hi,
              if_neg (fun h => hi (Option.some.inj h).symm)]
            omega
        split at hSettle
        · rcases Option.map_eq_some_iff.mp hSettle with
            ⟨wm, _, rfl⟩
          exact hUpdate _ rfl
        · cases hSettle
          exact hUpdate _ rfl
  funext i
  unfold settled dequed
  rw [hShape i]
  by_cases hLast : s.last_queueid = some i
  · simp only [hLast, if_true, true_and]
    by_cases hOne : (s.srr i).pkts = 1
    · rw [if_pos hOne, if_pos (by omega)]
    · rw [if_neg hOne, if_neg (by omega)]
  · simp only [hLast, if_false, false_and]
    by_cases hZero : (s.srr i).pkts = 0
    · rw [if_pos (by omega), hIdle i hZero]
    · rw [if_neg (by omega)]

/- A packet comes from the head of its queue, if one is stored. -/
theorem Sound.deque
    (hMtu : 0 < cfg.mtu_)
    (hSound : Sound cfg w s) :
    ∃ o s', s.deque cfg = some (o, s') ∧
      Sound cfg (s.dequed w) s' ∧
      (o = none ∧ (∀ i, (s.srr i).queue = []) ∧
          (∀ i, (s'.srr i).queue = []) ∨
        ∃ p q rest, o = some p ∧ (s.srr q).queue = p :: rest ∧
          ∀ i, (s'.srr i).queue =
            Function.update (fun i => (s.srr i).queue) q rest
              i) := by
  rcases hSound.settle with ⟨s₁, hSettle, hSound₁, hQueues⟩
  rw [hSound.settled_eq hSettle] at hSound₁
  have hNonneg : 0 ≤ s₁.pktcnt := by
    have hTotal : s₁.pktcnt = _ := hSound₁.pktcnt
    rw [hTotal]
    exact Finset.sum_nonneg fun i _ =>
      (hSound₁.queues i).nonneg.1
  unfold SRRQueue.deque
  rw [hSettle, Option.bind_some, if_neg (not_lt.mpr hNonneg)]
  by_cases hNone : s₁.pktcnt = 0
  · rw [if_pos hNone]
    have hEmpty := hSound₁.empty rfl hNone
    refine ⟨none, s₁.cleared, rfl, hSound₁,
      Or.inl ⟨rfl, fun i => ?_, hEmpty⟩⟩
    rw [← hQueues i]
    exact hEmpty i
  · rw [if_neg hNone]
    have hSome : ∃ q, s.dequed w q ≠ 0 := by
      by_contra hIdle
      push Not at hIdle
      apply hNone
      have hTotal : s₁.pktcnt = _ := hSound₁.pktcnt
      rw [hTotal]
      refine Finset.sum_eq_zero fun i _ => ?_
      by_contra hPkts
      exact (hSound₁.active i).mpr hPkts (hIdle i)
    rcases hSound₁.scanned rfl hSome with
      ⟨n, _, _, hCurr, _⟩
    have hCurr : s₁.wm.pwmCurr = some n := hCurr
    rcases hSound₁.serve (k := s₁.rounds cfg) hMtu rfl hSome
        (Nat.lt_succ_self _) with
      ⟨p, s', q, rest, hServe, hSound', hFirst, hAfter⟩
    rw [serve_cleared] at hServe
    refine ⟨some p, s', ?_, hSound', Or.inr
      ⟨p, q, rest, rfl, ?_, ?_⟩⟩
    · rw [if_neg (by rw [hCurr]; exact Option.some_ne_none n),
        hServe]
      rfl
    · rw [← hQueues q]
      exact hFirst
    · intro i
      rw [hAfter i]
      exact congrArg (fun f => Function.update f q rest i)
        (funext hQueues)

/- A rate that is set keeps all as it is. -/
theorem Sound.setrate
    {s' : SRRQueue α}
    {queue : Nat}
    {rate : Int}
    (hSound : Sound cfg w s)
    (hSet : s.setrate cfg queue rate = some s') :
    Sound cfg w s' ∧ s'.srr = s.srr := by
  unfold SRRQueue.setrate at hSet
  split at hSet
  · cases hSet
  · simp only at hSet
    generalize getOrder
      (if (max rate minRate).toNat / cfg.granularity_ = 0 then 1
      else (max rate minRate).toNat / cfg.granularity_) = temp
      at hSet
    split at hSet
    · cases hSet
    · split at hSet
      · cases hSet
      · next hColumn =>
          cases hSet
          have hMatrix := hSound.matrix
          have hBounds := hMatrix.bounds
          refine ⟨⟨{ hMatrix with
            room := ?_
            bounds := ?_ }, hSound.queues, hSound.active,
            hSound.range, hSound.limit, hSound.pktcnt,
            hSound.bytecnt, hSound.flwcnt⟩, rfl⟩
          · unfold MAXWSSORDER at hColumn ⊢
            change max _ _ < 16
            omega
          · refine ⟨hBounds.1, hBounds.2.trans ?_⟩
            exact_mod_cast le_max_left _ _

end SRRQueue

end Ns2

------------------------------------------------------------
-- Runs
------------------------------------------------------------

namespace Ns2

namespace SRRQueue

variable {α : Type}
variable {cfg : SRRConfig α}

inductive Event (α : Type) where
  | enque (p : α)
  | deque
  | setrate (queue : Nat) (rate : Int)

/-
  A queue, the weights with which its queues became active,
  and the packets that it took and sent.
-/
structure History (α : Type) where
  queue : SRRQueue α
  weights : Nat → Nat
  accepted : List α
  sent : List α

def start : History α :=
  ⟨new, fun _ => 0, [], []⟩

def act
    (cfg : SRRConfig α)
    (h : History α) :
    Event α → Option (History α)
  | .enque p =>
      (h.queue.enque cfg p).map fun r =>
        if r.2 then { h with queue := r.1 }
        else
          { h with
            queue := r.1
            weights := activated cfg h.queue h.weights
              (cfg.f2q (cfg.flowid p))
            accepted := h.accepted ++ [p] }
  | .deque =>
      (h.queue.deque cfg).map fun r =>
        { h with
          queue := r.2
          weights := h.queue.dequed h.weights
          sent := h.sent ++ r.1.toList }
  | .setrate queue rate =>
      (h.queue.setrate cfg queue rate).map fun s =>
        { h with queue := s }

/- Rates may be set to what the command accepts. -/
def Allowed
    (cfg : SRRConfig α)
    (h : History α) :
    Event α → Prop
  | .enque p => Arrives cfg h.queue p
  | .deque => True
  | .setrate queue rate =>
      (h.queue.setrate cfg queue rate).isSome

/- The packets of a queue. -/
def ofQueue
    (cfg : SRRConfig α)
    (q : Nat)
    (packets : List α) : List α :=
  packets.filter fun p => cfg.f2q (cfg.flowid p) = q

theorem ofQueue_concat
    (q : Nat)
    (packets : List α)
    (p : α) :
    ofQueue cfg q (packets ++ [p]) = ofQueue cfg q packets ++
      if cfg.f2q (cfg.flowid p) = q then [p] else [] := by
  unfold ofQueue
  rw [List.filter_append]
  by_cases hQueue : cfg.f2q (cfg.flowid p) = q
  · simp [hQueue]
  · simp [hQueue]

/- What a queue took is what it sent and what it stores. -/
structure Kept
    (cfg : SRRConfig α)
    (h : History α) : Prop where
  sound : Sound cfg h.weights h.queue
  order :
    ∀ q, ofQueue cfg q h.accepted =
      ofQueue cfg q h.sent ++ (h.queue.srr q).queue

theorem Kept.act
    {h : History α}
    {e : Event α}
    (hMtu : 0 < cfg.mtu_)
    (hKept : Kept cfg h)
    (hAllowed : Allowed cfg h e) :
    ∃ h', act cfg h e = some h' ∧ Kept cfg h' := by
  cases e with
  | enque p =>
      rcases hKept.sound.enque hAllowed with
        ⟨s, ⟨_, hCall, hSame⟩ | ⟨_, hCall, hSound, hQueues⟩⟩
      · refine ⟨{ h with queue := s }, ?_, ?_⟩
        · simp only [SRRQueue.act, hCall, Option.map_some,
            if_true]
        · subst hSame
          exact hKept
      · refine ⟨{ h with
            queue := s
            weights := activated cfg h.queue h.weights
              (cfg.f2q (cfg.flowid p))
            accepted := h.accepted ++ [p] }, ?_, hSound, ?_⟩
        · simp only [SRRQueue.act, hCall, Option.map_some,
            Bool.false_eq_true, if_false]
        · intro q
          change ofQueue cfg q (h.accepted ++ [p]) = _
          rw [ofQueue_concat, hKept.order q, hQueues q,
            List.append_assoc]
          by_cases hHere : cfg.f2q (cfg.flowid p) = q
          · rw [if_pos hHere, hHere, Function.update_self]
          · rw [if_neg hHere, List.append_nil,
              Function.update_of_ne (Ne.symm hHere)]
  | deque =>
      rcases hKept.sound.deque hMtu with
        ⟨o, s, hCall, hSound, hResult⟩
      refine ⟨{ h with
          queue := s
          weights := h.queue.dequed h.weights
          sent := h.sent ++ o.toList }, ?_, hSound, ?_⟩
      · simp only [SRRQueue.act, hCall, Option.map_some]
      · intro q
        change ofQueue cfg q h.accepted =
          ofQueue cfg q (h.sent ++ o.toList) ++ (s.srr q).queue
        rw [hKept.order q]
        rcases hResult with ⟨rfl, hBefore, hAfter⟩ |
          ⟨p, q', rest, rfl, hFirst, hAfter⟩
        · rw [hBefore q, hAfter q, Option.toList_none,
            List.append_nil, List.append_nil, List.append_nil]
        · have hMine := (hKept.sound.queues q').mine p
            (by rw [hFirst]; simp)
          rw [Option.toList_some, ofQueue_concat, hAfter q,
            hMine]
          by_cases hHere : q' = q
          · subst hHere
            rw [if_pos rfl, Function.update_self, hFirst,
              List.append_assoc]
            rfl
          · rw [if_neg hHere, List.append_nil,
              Function.update_of_ne (Ne.symm hHere)]
  | setrate queue rate =>
      rcases Option.isSome_iff_exists.mp hAllowed with
        ⟨s, hCall⟩
      rcases hKept.sound.setrate hCall with ⟨hSound, hSame⟩
      refine ⟨{ h with queue := s }, ?_, hSound, ?_⟩
      · simp only [SRRQueue.act, hCall, Option.map_some]
      · intro q
        change ofQueue cfg q h.accepted =
          ofQueue cfg q h.sent ++ (s.srr q).queue
        rw [hSame]
        exact hKept.order q

end SRRQueue

end Ns2
