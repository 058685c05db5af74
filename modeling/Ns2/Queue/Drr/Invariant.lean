import Mathlib.Algebra.BigOperators.Fin
import Mathlib.Tactic.Ring
import Ns2.Queue.Drr.Operations

/-
  The invariant of the deficit round robin.

  The ring holds the buckets with packets in the order of
  their turns, and the counters are right.  `DropLongest` is
  the policy that the loop of `enque` carries out.

  Main declarations:
    * `DRR.Inv`
    * `DRR.DropLongest`
    * `DRR.Inv.enque`
    * `DRR.Inv.dequeLoop`, `DRR.Inv.serve`
-/

------------------------------------------------------------
-- Stored Packets
------------------------------------------------------------

namespace Ns2

namespace DRR

open Buckets RingLinks LinkedList

variable {n : Nat} {α : Type}

/- The packets that are stored for a bucket. -/
def stored
    (d : DRR n α)
    (i : Fin n) : List α :=
  (d.drr i).queue

/- The bytes of some packets. -/
def bytes
    (size : α → Int)
    (packets : List α) : Int :=
  (packets.map size).sum

/-
  The ring holds the buckets with packets, in the order of
  their turns, and the counters are right.
-/
structure Inv
    (size : α → Int)
    (d : DRR n α)
    (order : List (Fin n)) : Prop where
  ring : d.links.Ring order
  curr : d.curr = order.head?
  mem : ∀ i, i ∈ order ↔ d.stored i ≠ []
  pkts : ∀ i, (d.drr i).pkts = (d.stored i).length
  bcount : ∀ i, (d.drr i).bcount = bytes size (d.stored i)
  pktcnt : d.pktcnt = ∑ i, (d.drr i).pkts
  bytecnt : d.bytecnt = ∑ i, (d.drr i).bcount
  flwcnt : d.flwcnt = order.length
  deficit : ∀ i, 0 ≤ (d.drr i).deficitCounter

variable {size : α → Int}

theorem inv_new (blimit quantum : Int) :
    (new blimit quantum : DRR n α).Inv size [] := by
  constructor
  case ring => exact ring_nil _
  case curr => rfl
  case mem => simp [new, stored, PacketDRR.empty]
  case pkts => simp [new, stored, PacketDRR.empty]
  case bcount => simp [new, stored, bytes, PacketDRR.empty]
  case pktcnt => simp [new, PacketDRR.empty]
  case bytecnt => simp [new, PacketDRR.empty]
  case flwcnt => rfl
  case deficit => simp [new, PacketDRR.empty]

theorem bytes_cons
    (p : α)
    (packets : List α) :
    bytes size (p :: packets) = size p + bytes size packets :=
  rfl

theorem bytes_concat
    (packets : List α)
    (p : α) :
    bytes size (packets ++ [p]) =
      bytes size packets + size p := by
  simp [bytes]

theorem bytes_nonneg
    (hSize : ∀ p, 0 < size p)
    (packets : List α) :
    0 ≤ bytes size packets := by
  induction packets with
  | nil => exact le_refl 0
  | cons p packets ih =>
      have := hSize p
      rw [bytes_cons]
      omega

/- The invariant after a change of one bucket. -/
theorem Inv.of_update
    {d d' : DRR n α}
    {order order' : List (Fin n)}
    (hInv : d.Inv size order)
    {k : Fin n}
    {q : PacketDRR α}
    {p b : Int}
    (hDrr : d'.drr = Function.update d.drr k q)
    (hPkts : q.pkts = q.queue.length)
    (hBcount : q.bcount = bytes size q.queue)
    (hp : q.pkts = (d.drr k).pkts + p)
    (hb : q.bcount = (d.drr k).bcount + b)
    (hPktcnt : d'.pktcnt = d.pktcnt + p)
    (hBytecnt : d'.bytecnt = d.bytecnt + b)
    (hDeficit : 0 ≤ q.deficitCounter)
    (hRing : d'.links.Ring order')
    (hCurr : d'.curr = order'.head?)
    (hFlwcnt : d'.flwcnt = order'.length)
    (hSelf : k ∈ order' ↔ q.queue ≠ [])
    (hOther : ∀ i, i ≠ k → (i ∈ order' ↔ i ∈ order)) :
    d'.Inv size order' := by
  have hk : d'.drr k = q := by
    rw [hDrr, Function.update_self]
  have hNe : ∀ i, i ≠ k → d'.drr i = d.drr i := by
    intro i hi
    rw [hDrr, Function.update_of_ne hi]
  constructor
  case ring => exact hRing
  case curr => exact hCurr
  case mem =>
    intro i
    unfold stored
    by_cases hi : i = k
    · rw [hi, hk]
      exact hSelf
    · rw [hNe i hi, hOther i hi]
      exact hInv.mem i
  case pkts =>
    intro i
    unfold stored
    by_cases hi : i = k
    · rw [hi, hk]
      exact hPkts
    · rw [hNe i hi]
      exact hInv.pkts i
  case bcount =>
    intro i
    unfold stored
    by_cases hi : i = k
    · rw [hi, hk]
      exact hBcount
    · rw [hNe i hi]
      exact hInv.bcount i
  case pktcnt =>
    rw [hPktcnt, hInv.pktcnt]
    apply (sum_update (k := k) ?_ ?_).symm
    · rw [hk]
      exact hp
    · intro i hi
      rw [hNe i hi]
  case bytecnt =>
    rw [hBytecnt, hInv.bytecnt]
    apply (sum_update (k := k) ?_ ?_).symm
    · rw [hk]
      exact hb
    · intro i hi
      rw [hNe i hi]
  case flwcnt => exact hFlwcnt
  case deficit =>
    intro i
    by_cases hi : i = k
    · rw [hi, hk]
      exact hDeficit
    · rw [hNe i hi]
      exact hInv.deficit i

theorem stored_of_update
    {d d' : DRR n α}
    {k : Fin n}
    {q : PacketDRR α}
    {rest : List α}
    (hDrr : d'.drr = Function.update d.drr k q)
    (hRest : q.queue = rest) :
    d'.stored = Function.update d.stored k rest := by
  funext i
  unfold stored
  rw [hDrr, ← hRest]
  by_cases hi : i = k
  · rw [hi, Function.update_self, Function.update_self]
  · rw [Function.update_of_ne hi, Function.update_of_ne hi]

/- No bytes are stored exactly if no bucket has its turn. -/
theorem Inv.bytecnt_eq_zero_iff
    {d : DRR n α}
    {order : List (Fin n)}
    (hInv : d.Inv size order)
    (hSize : ∀ p, 0 < size p) :
    d.bytecnt = 0 ↔ order = [] := by
  have hNonneg : ∀ i ∈ Finset.univ, 0 ≤ (d.drr i).bcount := by
    intro i _
    rw [hInv.bcount]
    exact bytes_nonneg hSize _
  rw [hInv.bytecnt, Finset.sum_eq_zero_iff_of_nonneg hNonneg]
  constructor
  · intro hZero
    apply List.eq_nil_iff_forall_not_mem.mpr
    intro i hi
    have hBytes := hZero i (Finset.mem_univ i)
    rw [hInv.bcount] at hBytes
    rcases List.exists_cons_of_ne_nil
      ((hInv.mem i).mp hi) with ⟨p, rest, hStored⟩
    rw [hStored, bytes_cons] at hBytes
    have := hSize p
    have := bytes_nonneg hSize rest
    omega
  · intro hNil i _
    have hEmpty : d.stored i = [] := by
      by_contra hNe
      have hMem := (hInv.mem i).mpr hNe
      rw [hNil] at hMem
      cases hMem
    rw [hInv.bcount, hEmpty]
    rfl

end DRR

end Ns2

------------------------------------------------------------
-- Dropping
------------------------------------------------------------

namespace Ns2

namespace DRR

open Buckets RingLinks LinkedList

variable {n : Nat} {α : Type}

/-
  Packets are dropped from the front of a longest bucket as
  long as all packets have more bytes than the limit.
-/
inductive DropLongest
    (size : α → Int)
    (limit : Int) :
    (Fin n → List α) → List (Fin n × α) →
      (Fin n → List α) → Prop
| fits
    {queues : Fin n → List α}
    (hFits : ∑ i, bytes size (queues i) ≤ limit) :
    DropLongest size limit queues [] queues
| drop
    {queues queues' : Fin n → List α}
    {drops : List (Fin n × α)}
    (r : Fin n)
    (p : α)
    (rest : List α)
    (hOver : limit < ∑ i, bytes size (queues i))
    (hLongest : ∀ i,
      bytes size (queues i) ≤ bytes size (queues r))
    (hHead : queues r = p :: rest)
    (hNext : DropLongest size limit
      (Function.update queues r rest) drops queues') :
    DropLongest size limit queues ((r, p) :: drops) queues'

/- The limits, turns and deficits are those of before. -/
structure SameTurns (d' d : DRR n α) : Prop where
  blimit : d'.blimit = d.blimit
  quantum : d'.quantum = d.quantum
  turn : ∀ i, (d'.drr i).turn = (d.drr i).turn
  deficit : ∀ i, (d'.drr i).deficitCounter =
    (d.drr i).deficitCounter

theorem SameTurns.trans
    {d d₁ d' : DRR n α}
    (hNext : d'.SameTurns d₁)
    (hFirst : d₁.SameTurns d) :
    d'.SameTurns d :=
  ⟨hNext.blimit.trans hFirst.blimit,
    hNext.quantum.trans hFirst.quantum,
    fun i => (hNext.turn i).trans (hFirst.turn i),
    fun i => (hNext.deficit i).trans (hFirst.deficit i)⟩

variable {size : α → Int}

/- The loop finds a bucket with the most bytes. -/
theorem maxflowLoop_spec
    {d : DRR n α}
    {tmp q : Option (Fin n)}
    {xs : List (Fin n)}
    (hSeg : Seg d.links.next tmp xs q)
    (maxflow : Fin n) :
    ∃ r, d.maxflowLoop xs.length maxflow tmp = some r ∧
      (r = maxflow ∨ r ∈ xs) ∧
      (d.drr maxflow).bcount ≤ (d.drr r).bcount ∧
      ∀ i ∈ xs, (d.drr i).bcount ≤ (d.drr r).bcount := by
  induction xs generalizing tmp maxflow with
  | nil =>
      exact ⟨maxflow, rfl, Or.inl rfl, le_refl _,
        fun i hi => by cases hi⟩
  | cons x xs ih =>
      rcases hSeg with ⟨rfl, hRest⟩
      have hBigger : (d.drr maxflow).bcount ≤ (d.drr
            (if (d.drr maxflow).bcount < (d.drr x).bcount
              then x else maxflow)).bcount ∧
          (d.drr x).bcount ≤ (d.drr
            (if (d.drr maxflow).bcount < (d.drr x).bcount
              then x else maxflow)).bcount := by
        split_ifs with hLess
        · exact ⟨hLess.le, le_refl _⟩
        · exact ⟨le_refl _, not_lt.mp hLess⟩
      rcases ih hRest (if (d.drr maxflow).bcount <
          (d.drr x).bcount then x else maxflow) with
        ⟨r, hLoop, hMem, hMax, hAll⟩
      refine ⟨r, hLoop, ?_, hBigger.1.trans hMax, ?_⟩
      · rcases hMem with hEq | hLater
        · rw [hEq]
          split_ifs
          · exact Or.inr List.mem_cons_self
          · exact Or.inl rfl
        · exact Or.inr (List.mem_cons_of_mem x hLater)
      · intro i hi
        rcases List.mem_cons.mp hi with rfl | hLater
        · exact hBigger.2.trans hMax
        · exact hAll i hLater

theorem Inv.getMaxflow
    {d : DRR n α}
    {order : List (Fin n)}
    (hInv : d.Inv size order)
    (hSize : ∀ p, 0 < size p)
    (hNe : order ≠ []) :
    ∃ r, d.getMaxflow = some r ∧ r ∈ order ∧
      ∀ i, (d.drr i).bcount ≤ (d.drr r).bcount := by
  rcases List.exists_cons_of_ne_nil hNe with ⟨c, rest, rfl⟩
  have hFlow : d.flwcnt.toNat = (c :: rest).length := by
    rw [hInv.flwcnt]
    rfl
  have hSeg : Seg d.links.next (some c) (c :: rest)
      (some c) := hInv.ring.forward
  rcases maxflowLoop_spec hSeg c with
    ⟨r, hLoop, hMem, _, hAll⟩
  have hr : r ∈ c :: rest := by
    rcases hMem with rfl | hr
    · exact List.mem_cons_self
    · exact hr
  refine ⟨r, ?_, hr, ?_⟩
  · unfold DRR.getMaxflow
    rw [hInv.curr, hFlow]
    exact hLoop
  · intro i
    by_cases hi : i ∈ c :: rest
    · exact hAll i hi
    · have hEmpty : d.stored i = [] := by
        by_contra hNe'
        exact hi ((hInv.mem i).mpr hNe')
      rw [hInv.bcount i, hInv.bcount r, hEmpty]
      exact bytes_nonneg hSize _

/- A bucket without its first packet. -/
theorem Inv.dropFrom
    {d : DRR n α}
    {as bs : List (Fin n)}
    {r : Fin n}
    {p : α}
    {rest : List α}
    (hInv : d.Inv size (as ++ r :: bs))
    (hStored : d.stored r = p :: rest) :
    ∃ d', d.dropFrom size r = some (d', p) ∧
      d'.stored = Function.update d.stored r rest ∧
      d'.pktcnt = d.pktcnt - 1 ∧ d'.SameTurns d ∧
      d'.Inv size
        (if rest = [] then as ++ bs else as ++ r :: bs) := by
  have hQueue : (d.drr r).queue = p :: rest := hStored
  have hPkts := hInv.pkts r
  have hBcount := hInv.bcount r
  have hNodup := hInv.ring.nodup
  rw [hStored, List.length_cons] at hPkts
  rw [hStored, bytes_cons] at hBcount
  push_cast at hPkts
  have hNew : r ∉ as ++ bs := by
    have hPerm : (as ++ r :: bs).Perm (r :: (as ++ bs)) :=
      List.perm_middle
    exact (List.nodup_cons.mp (hPerm.nodup_iff.mp hNodup)).1
  have hOther : ∀ i, i ≠ r →
      (i ∈ as ++ bs ↔ i ∈ as ++ r :: bs) := by
    intro i hi
    simp [hi]
  have hTurn : ∀ i,
      (Function.update d.drr r ((d.drr r).shorten (size p))
        i).turn = (d.drr i).turn := by
    intro i
    by_cases hi : i = r
    · rw [hi, Function.update_self]
      rfl
    · rw [Function.update_of_ne hi]
  have hDeficit : ∀ i,
      (Function.update d.drr r ((d.drr r).shorten (size p))
        i).deficitCounter = (d.drr i).deficitCounter := by
    intro i
    by_cases hi : i = r
    · rw [hi, Function.update_self]
      rfl
    · rw [Function.update_of_ne hi]
  have hQueue' : ((d.drr r).shorten (size p)).queue =
      rest := by
    unfold PacketDRR.shorten
    rw [hQueue]
    rfl
  unfold DRR.dropFrom
  rw [hQueue]
  by_cases hRest : rest = []
  · have hZero : ((d.drr r).shorten (size p)).pkts = 0 := by
      unfold PacketDRR.shorten
      dsimp only
      rw [hPkts, hRest]
      rfl
    rcases hInv.ring.leave with ⟨next, hLeave, hRing, hHead⟩
    rw [if_pos hRest]
    simp only [List.head?_cons, Option.bind_eq_bind,
      Option.bind_some, if_pos hZero, setBucket,
      PacketDRR.idle, hInv.curr, hLeave]
    refine ⟨_, rfl, stored_of_update rfl hQueue', rfl,
      ⟨rfl, rfl, hTurn, hDeficit⟩, ?_⟩
    apply hInv.of_update (p := -1) (b := - size p) rfl
    case hPkts =>
      rw [hQueue', hRest]
      exact hZero
    case hBcount =>
      rw [hQueue']
      unfold PacketDRR.shorten
      dsimp only
      omega
    case hp => rfl
    case hb => rfl
    case hPktcnt => rfl
    case hBytecnt => rfl
    case hDeficit => exact hInv.deficit r
    case hRing => exact hRing
    case hCurr => exact hHead
    case hFlwcnt =>
      dsimp only
      rw [hInv.flwcnt, List.length_append,
        List.length_append, List.length_cons]
      push_cast
      omega
    case hSelf =>
      rw [hQueue', hRest]
      exact iff_of_false hNew (fun h => h rfl)
    case hOther => exact hOther
  · have hPos : 0 < rest.length :=
      List.length_pos_of_ne_nil hRest
    have hZero : ¬ ((d.drr r).shorten (size p)).pkts = 0 := by
      unfold PacketDRR.shorten
      dsimp only
      omega
    rw [if_neg hRest]
    simp only [List.head?_cons, Option.bind_eq_bind,
      Option.bind_some, if_neg hZero, setBucket]
    refine ⟨_, rfl, stored_of_update rfl hQueue', rfl,
      ⟨rfl, rfl, hTurn, hDeficit⟩, ?_⟩
    apply hInv.of_update (p := -1) (b := - size p) rfl
    case hPkts =>
      rw [hQueue']
      unfold PacketDRR.shorten
      dsimp only
      omega
    case hBcount =>
      rw [hQueue']
      unfold PacketDRR.shorten
      dsimp only
      omega
    case hp => rfl
    case hb => rfl
    case hPktcnt => rfl
    case hBytecnt => rfl
    case hDeficit => exact hInv.deficit r
    case hRing => exact hInv.ring
    case hCurr => exact hInv.curr
    case hFlwcnt => exact hInv.flwcnt
    case hSelf =>
      rw [hQueue']
      exact iff_of_true (by simp) hRest
    case hOther => exact fun i _ => Iff.rfl

theorem Inv.bytecnt_eq
    {d : DRR n α}
    {order : List (Fin n)}
    (hInv : d.Inv size order) :
    d.bytecnt = ∑ i, bytes size (d.stored i) := by
  rw [hInv.bytecnt]
  exact Finset.sum_congr rfl fun i _ => hInv.bcount i

/- A packet of a bucket counts. -/
theorem Inv.pktcnt_pos
    {d : DRR n α}
    {order : List (Fin n)}
    (hInv : d.Inv size order)
    {r : Fin n}
    (hr : r ∈ order) :
    0 < d.pktcnt := by
  have hNonneg : ∀ i ∈ Finset.univ, 0 ≤ (d.drr i).pkts := by
    intro i _
    rw [hInv.pkts]
    exact Int.natCast_nonneg _
  have hLe := Finset.single_le_sum hNonneg
    (Finset.mem_univ r)
  have hPos := List.length_pos_of_ne_nil
    ((hInv.mem r).mp hr)
  have hPkts := hInv.pkts r
  rw [hInv.pktcnt]
  omega

/- The loop drops packets of longest buckets until all fit. -/
theorem Inv.shrink
    {d : DRR n α}
    {order : List (Fin n)}
    (hInv : d.Inv size order)
    (hSize : ∀ p, 0 < size p)
    (hLimit : 0 ≤ d.blimit)
    {fuel : Nat}
    (hFuel : d.pktcnt ≤ fuel) :
    ∃ d' drops order',
      d.shrink size fuel = some (d', drops) ∧
      DropLongest size d.blimit d.stored drops d'.stored ∧
      d'.bytecnt ≤ d'.blimit ∧ d'.SameTurns d ∧
      order'.Sublist order ∧
      (drops = [] → d' = d ∧ order' = order) ∧
      d'.Inv size order' := by
  induction fuel generalizing d order with
  | zero =>
      have hFits : d.bytecnt ≤ d.blimit := by
        by_contra hOver
        have hNe : order ≠ [] := by
          rintro rfl
          have := (hInv.bytecnt_eq_zero_iff hSize).mpr rfl
          omega
        rcases List.exists_mem_of_ne_nil order hNe with
          ⟨r, hr⟩
        have := hInv.pktcnt_pos hr
        push_cast at hFuel
        omega
      refine ⟨d, [], order, ?_, .fits ?_, hFits,
        ⟨rfl, rfl, fun _ => rfl, fun _ => rfl⟩,
        List.Sublist.refl order, fun _ => ⟨rfl, rfl⟩, hInv⟩
      · unfold DRR.shrink
        rw [if_pos hFits]
      · rw [← hInv.bytecnt_eq]
        exact hFits
  | succ fuel ih =>
      by_cases hFits : d.bytecnt ≤ d.blimit
      · refine ⟨d, [], order, ?_, .fits ?_, hFits,
          ⟨rfl, rfl, fun _ => rfl, fun _ => rfl⟩,
          List.Sublist.refl order, fun _ => ⟨rfl, rfl⟩, hInv⟩
        · unfold DRR.shrink
          rw [if_pos hFits]
        · rw [← hInv.bytecnt_eq]
          exact hFits
      · have hNe : order ≠ [] := by
          rintro rfl
          have := (hInv.bytecnt_eq_zero_iff hSize).mpr rfl
          omega
        rcases hInv.getMaxflow hSize hNe with
          ⟨r, hMaxflow, hr, hMost⟩
        rcases List.exists_cons_of_ne_nil
          ((hInv.mem r).mp hr) with ⟨p, rest, hStored⟩
        rcases List.append_of_mem hr with ⟨as, bs, rfl⟩
        rcases hInv.dropFrom hStored with
          ⟨d₁, hDrop, hStored₁, hPktcnt, hTurns, hInv₁⟩
        have hLimit₁ : 0 ≤ d₁.blimit := by
          rw [hTurns.blimit]
          exact hLimit
        have hFuel₁ : d₁.pktcnt ≤ fuel := by
          push_cast at hFuel
          omega
        rcases ih hInv₁ hLimit₁ hFuel₁ with
          ⟨d', drops, order', hShrink, hDrops, hFits',
            hTurns', hSub, _, hInv'⟩
        refine ⟨d', (r, p) :: drops, order', ?_, ?_, hFits',
          hTurns'.trans hTurns, ?_, ?_, hInv'⟩
        · unfold DRR.shrink
          rw [if_neg hFits]
          simp only [hMaxflow, hDrop, hShrink,
            Option.bind_eq_bind, Option.bind_some]
          rfl
        · apply DropLongest.drop r p rest ?_ ?_ hStored
          · rw [← hStored₁, ← hTurns.blimit]
            exact hDrops
          · rw [← hInv.bytecnt_eq]
            omega
          · intro i
            have hLe := hMost i
            rw [hInv.bcount, hInv.bcount] at hLe
            exact hLe
        · apply hSub.trans
          split_ifs
          · exact (List.Sublist.refl as).append
              (List.sublist_cons_self r bs)
          · exact List.Sublist.refl _
        · intro hNil
          cases hNil

end DRR

end Ns2

------------------------------------------------------------
-- Storing
------------------------------------------------------------

namespace Ns2

namespace DRR

open Buckets RingLinks LinkedList

variable {n : Nat} {α : Type}
variable {size : α → Int}

/- A packet is the last of its bucket. -/
theorem Inv.store
    {d : DRR n α}
    {order : List (Fin n)}
    (hInv : d.Inv size order)
    (which : Fin n)
    (pkt : α) :
    ∃ d', d.store size which pkt = some d' ∧
      d'.stored = Function.update d.stored which
        (d.stored which ++ [pkt]) ∧
      d'.blimit = d.blimit ∧ d'.quantum = d.quantum ∧
      (∀ i, (d'.drr i).turn = (d.drr i).turn) ∧
      (∀ i, (d'.drr i).deficitCounter =
        if i = which ∧ which ∉ order then 0
        else (d.drr i).deficitCounter) ∧
      d'.Inv size (entered order which) := by
  have hPkts := hInv.pkts which
  have hBcount := hInv.bcount which
  have hMem := hInv.mem which
  have hQueue : (d.drr which).queue = d.stored which := rfl
  have hOther : ∀ i, i ≠ which →
      (i ∈ order ++ [which] ↔ i ∈ order) := by
    intro i hi
    rw [List.mem_append, List.mem_singleton, or_iff_left hi]
  unfold DRR.store
  dsimp only
  by_cases hFirst : (d.drr which).pkts + 1 = 1
  · -- The first packet of the bucket.
    have hEmpty : d.stored which = [] := by
      apply List.length_eq_zero_iff.mp
      omega
    have hNew : which ∉ order := by
      rw [hMem, hEmpty]
      exact fun h => h rfl
    have hEntered : entered order which = order ++ [which] :=
      if_neg hNew
    rcases hInv.ring.enter hNew with
      ⟨next, hNext, hRing, hHead⟩
    rw [if_pos hFirst, hEntered]
    simp only [PacketDRR.activate, hInv.curr, hNext,
      Option.bind_eq_bind, Option.bind_some, setBucket]
    refine ⟨_, rfl, stored_of_update rfl rfl, rfl, rfl, ?_,
      ?_, ?_⟩
    · intro i
      dsimp only
      by_cases hi : i = which
      · rw [hi, Function.update_self]
      · rw [Function.update_of_ne hi]
    · intro i
      dsimp only
      by_cases hi : i = which
      · rw [hi, Function.update_self, if_pos ⟨rfl, hNew⟩]
      · rw [Function.update_of_ne hi,
          if_neg (fun h => hi h.1)]
    · apply hInv.of_update (p := 1) (b := size pkt) rfl
      case hPkts =>
        dsimp only
        rw [hPkts, hQueue, List.length_append]
        rfl
      case hBcount =>
        dsimp only
        rw [hBcount, hQueue, bytes_concat]
      case hp => rfl
      case hb => rfl
      case hPktcnt => rfl
      case hBytecnt => rfl
      case hDeficit => exact le_refl 0
      case hRing => exact hRing
      case hCurr => exact hHead
      case hFlwcnt =>
        dsimp only
        rw [hInv.flwcnt, List.length_append]
        rfl
      case hSelf => simp
      case hOther => exact hOther
  · have hOld : which ∈ order := by
      rw [hMem]
      intro hEmpty
      rw [hEmpty] at hPkts
      apply hFirst
      rw [hPkts]
      rfl
    have hEntered : entered order which = order :=
      if_pos hOld
    rw [if_neg hFirst, hEntered]
    refine ⟨_, rfl, stored_of_update rfl rfl, rfl, rfl, ?_,
      ?_, ?_⟩
    · intro i
      unfold setBucket
      dsimp only
      by_cases hi : i = which
      · rw [hi, Function.update_self]
      · rw [Function.update_of_ne hi]
    · intro i
      unfold setBucket
      dsimp only
      rw [if_neg (fun h => h.2 hOld)]
      by_cases hi : i = which
      · rw [hi, Function.update_self]
      · rw [Function.update_of_ne hi]
    · apply hInv.of_update (p := 1) (b := size pkt) rfl
      case hPkts =>
        dsimp only
        rw [hPkts, hQueue, List.length_append]
        rfl
      case hBcount =>
        dsimp only
        rw [hBcount, hQueue, bytes_concat]
      case hp => rfl
      case hb => rfl
      case hPktcnt => rfl
      case hBytecnt => rfl
      case hDeficit => exact hInv.deficit which
      case hRing => exact hInv.ring
      case hCurr => exact hInv.curr
      case hFlwcnt => exact hInv.flwcnt
      case hSelf => simp [hOld]
      case hOther => exact fun i _ => Iff.rfl

/-
  A packet is stored, and then packets of longest buckets are
  dropped until the limit is kept.
-/
theorem Inv.enque
    {d : DRR n α}
    {order : List (Fin n)}
    (hInv : d.Inv size order)
    (hSize : ∀ p, 0 < size p)
    (hLimit : 0 ≤ d.blimit)
    (which : Fin n)
    (pkt : α) :
    ∃ d' drops order',
      d.enque size which pkt = some (d', drops) ∧
      DropLongest size d.blimit
        (Function.update d.stored which
          (d.stored which ++ [pkt])) drops d'.stored ∧
      d'.bytecnt ≤ d'.blimit ∧
      d'.blimit = d.blimit ∧ d'.quantum = d.quantum ∧
      (∀ i, (d'.drr i).turn = (d.drr i).turn) ∧
      (∀ i, (d'.drr i).deficitCounter =
        if i = which ∧ which ∉ order then 0
        else (d.drr i).deficitCounter) ∧
      order'.Sublist (entered order which) ∧
      (drops = [] → order' = entered order which ∧
        d'.stored = Function.update d.stored which
          (d.stored which ++ [pkt])) ∧
      d'.Inv size order' := by
  rcases hInv.store which pkt with
    ⟨d₁, hStore, hStored, hBlimit, hQuantum, hTurn, hDeficit,
      hInv₁⟩
  have hFuel : d₁.pktcnt ≤ d₁.pktcnt.toNat :=
    Int.self_le_toNat _
  rcases hInv₁.shrink hSize (by rw [hBlimit]; exact hLimit)
      hFuel with
    ⟨d', drops, order', hShrink, hDrops, hFits, hTurns, hSub,
      hNone, hInv'⟩
  refine ⟨d', drops, order', ?_, ?_, hFits,
    hTurns.blimit.trans hBlimit, hTurns.quantum.trans hQuantum,
    fun i => (hTurns.turn i).trans (hTurn i),
    fun i => (hTurns.deficit i).trans (hDeficit i), hSub, ?_,
    hInv'⟩
  · unfold DRR.enque
    rw [hStore]
    exact hShrink
  · rw [← hStored, ← hBlimit]
    exact hDrops
  · intro hNil
    rcases hNone hNil with ⟨hSame, hOrder⟩
    rw [hSame]
    exact ⟨hOrder, hStored⟩

end DRR

end Ns2

------------------------------------------------------------
-- Serving
------------------------------------------------------------

namespace Ns2

namespace DRR

open Buckets RingLinks LinkedList

variable {n : Nat} {α : Type}
variable {size : α → Int}

theorem granted_queue
    (q : PacketDRR α)
    (quantum : Int) :
    (q.granted quantum).queue = q.queue ∧
      (q.granted quantum).pkts = q.pkts ∧
      (q.granted quantum).bcount = q.bcount ∧
      (q.granted quantum).turn = true := by
  unfold PacketDRR.granted
  cases hTurn : q.turn with
  | true =>
      rw [if_pos rfl]
      exact ⟨rfl, rfl, rfl, hTurn⟩
  | false => exact ⟨rfl, rfl, rfl, rfl⟩

theorem granted_deficit_nonneg
    {q : PacketDRR α}
    {quantum : Int}
    (hQuantum : 0 < quantum)
    (hDeficit : 0 ≤ q.deficitCounter) :
    0 ≤ (q.granted quantum).deficitCounter := by
  unfold PacketDRR.granted
  split_ifs
  · exact hDeficit
  · dsimp only
    omega

theorem pass_drr_self
    (d : DRR n α)
    (c : Fin n) :
    (d.pass c).drr c =
      { (d.drr c).granted d.quantum with turn := false } :=
  Function.update_self c _ _

theorem pass_drr_ne
    (d : DRR n α)
    {c i : Fin n}
    (hi : i ≠ c) :
    (d.pass c).drr i = d.drr i :=
  Function.update_of_ne hi _ _

/- The turn passes to the bucket behind. -/
theorem Inv.pass
    {d : DRR n α}
    {c : Fin n}
    {order : List (Fin n)}
    (hInv : d.Inv size (c :: order))
    (hQuantum : 0 < d.quantum) :
    (d.pass c).stored = d.stored ∧
      (d.pass c).Inv size (order ++ [c]) := by
  rcases granted_queue (d.drr c) d.quantum with
    ⟨hQueue, hPkts, hBcount, _⟩
  have hNe := (hInv.mem c).mp List.mem_cons_self
  constructor
  · funext i
    unfold stored DRR.pass setBucket
    dsimp only
    by_cases hi : i = c
    · rw [hi, Function.update_self]
      exact hQueue
    · rw [Function.update_of_ne hi]
  · apply hInv.of_update (p := 0) (b := 0) rfl
    case hPkts =>
      dsimp only
      rw [hPkts, hQueue]
      exact hInv.pkts c
    case hBcount =>
      dsimp only
      rw [hBcount, hQueue]
      exact hInv.bcount c
    case hp =>
      dsimp only
      rw [hPkts, add_zero]
    case hb =>
      dsimp only
      rw [hBcount, add_zero]
    case hPktcnt => exact (add_zero _).symm
    case hBytecnt => exact (add_zero _).symm
    case hDeficit =>
      exact granted_deficit_nonneg hQuantum (hInv.deficit c)
    case hRing => exact hInv.ring.rotate_head
    case hCurr => exact hInv.ring.next_eq
    case hFlwcnt =>
      show d.flwcnt = _
      rw [hInv.flwcnt, List.length_append]
      rfl
    case hSelf =>
      dsimp only
      rw [hQueue]
      exact iff_of_true (by simp) hNe
    case hOther =>
      intro i hi
      rw [List.mem_append, List.mem_singleton, List.mem_cons,
        or_iff_left hi, or_iff_right hi]

/- The bucket that has its turn sends its first packet. -/
theorem Inv.serve
    {d : DRR n α}
    {c : Fin n}
    {order : List (Fin n)}
    {pkt : α}
    {rest : List α}
    (hInv : d.Inv size (c :: order))
    (hStored : d.stored c = pkt :: rest)
    (hSaved : size pkt ≤
      ((d.drr c).granted d.quantum).deficitCounter) :
    ∃ d', d.serve size c pkt = some (d', some pkt) ∧
      d'.stored = Function.update d.stored c rest ∧
      d'.blimit = d.blimit ∧ d'.quantum = d.quantum ∧
      (∀ i, i ≠ c → d'.drr i = d.drr i) ∧
      (d'.drr c).turn = decide (rest ≠ []) ∧
      (d'.drr c).deficitCounter = (if rest = [] then 0
        else ((d.drr c).granted d.quantum).deficitCounter -
          size pkt) ∧
      d'.Inv size
        (if rest = [] then order else c :: order) := by
  rcases granted_queue (d.drr c) d.quantum with
    ⟨hQueue, hPkts, hBcount, hTurn⟩
  have hQueue' : (((d.drr c).granted d.quantum).shorten
      (size pkt)).queue = rest := by
    unfold PacketDRR.shorten
    dsimp only
    rw [hQueue]
    show (d.stored c).tail = rest
    rw [hStored]
    rfl
  have hOldPkts := hInv.pkts c
  have hOldBytes := hInv.bcount c
  rw [hStored, List.length_cons] at hOldPkts
  rw [hStored, bytes_cons] at hOldBytes
  push_cast at hOldPkts
  have hNodup := List.nodup_cons.mp hInv.ring.nodup
  unfold DRR.serve
  dsimp only
  by_cases hRest : rest = []
  · have hZero : (((d.drr c).granted d.quantum).shorten
        (size pkt)).pkts = 0 := by
      unfold PacketDRR.shorten
      dsimp only
      rw [hPkts, hOldPkts, hRest]
      rfl
    rcases hInv.ring.leave_head with
      ⟨next, hLeave, hRing, hHead⟩
    rw [if_pos hZero]
    unfold PacketDRR.idle
    rw [hLeave, if_pos hRest, if_pos hRest]
    refine ⟨_, rfl, stored_of_update rfl hQueue', rfl, rfl,
      ?_, ?_, ?_, ?_⟩
    · intro i hi
      exact Function.update_of_ne hi _ _
    · unfold setBucket
      dsimp only
      rw [Function.update_self]
      simp [hRest]
    · unfold setBucket
      dsimp only
      rw [Function.update_self]
    · apply hInv.of_update (p := -1) (b := - size pkt) rfl
      case hPkts =>
        dsimp only
        rw [hQueue', hRest]
        exact hZero
      case hBcount =>
        dsimp only
        rw [hQueue']
        unfold PacketDRR.shorten
        dsimp only
        omega
      case hp =>
        unfold PacketDRR.shorten
        dsimp only
        omega
      case hb =>
        unfold PacketDRR.shorten
        dsimp only
        omega
      case hPktcnt => rfl
      case hBytecnt => rfl
      case hDeficit => exact le_refl 0
      case hRing => exact hRing
      case hCurr => exact hHead
      case hFlwcnt =>
        dsimp only
        rw [hInv.flwcnt, List.length_cons]
        push_cast
        omega
      case hSelf =>
        dsimp only
        rw [hQueue', hRest]
        exact iff_of_false hNodup.1 (fun h => h rfl)
      case hOther =>
        intro i hi
        rw [List.mem_cons, or_iff_right hi]
  · have hPos : 0 < rest.length :=
      List.length_pos_of_ne_nil hRest
    have hZero : ¬ (((d.drr c).granted d.quantum).shorten
        (size pkt)).pkts = 0 := by
      unfold PacketDRR.shorten
      dsimp only
      omega
    rw [if_neg hZero, if_neg hRest, if_neg hRest]
    refine ⟨_, rfl, stored_of_update rfl hQueue', rfl, rfl,
      ?_, ?_, ?_, ?_⟩
    · intro i hi
      exact Function.update_of_ne hi _ _
    · unfold setBucket
      dsimp only
      rw [Function.update_self]
      unfold PacketDRR.shorten
      dsimp only
      rw [hTurn]
      simp [hRest]
    · unfold setBucket
      dsimp only
      rw [Function.update_self]
      rfl
    · apply hInv.of_update (p := -1) (b := - size pkt) rfl
      case hPkts =>
        dsimp only
        rw [hQueue']
        unfold PacketDRR.shorten
        dsimp only
        omega
      case hBcount =>
        dsimp only
        rw [hQueue']
        unfold PacketDRR.shorten
        dsimp only
        omega
      case hp =>
        unfold PacketDRR.shorten
        dsimp only
        omega
      case hb =>
        unfold PacketDRR.shorten
        dsimp only
        omega
      case hPktcnt => rfl
      case hBytecnt => rfl
      case hDeficit =>
        unfold PacketDRR.shorten
        dsimp only
        omega
      case hRing => exact hInv.ring
      case hCurr => exact hInv.curr
      case hFlwcnt => exact hInv.flwcnt
      case hSelf =>
        dsimp only
        rw [hQueue']
        exact iff_of_true List.mem_cons_self hRest
      case hOther => exact fun i _ => Iff.rfl

end DRR

end Ns2

------------------------------------------------------------
-- Turns
------------------------------------------------------------

namespace Ns2

namespace DRR

open Buckets

variable {n : Nat} {α : Type}
variable {size : α → Int}

def firstBytes
    (size : α → Int) :
    List α → Int
| [] => 0
| p :: _ => size p

/- The turns in which a bucket still sends nothing. -/
def waits
    (size : α → Int)
    (d : DRR n α)
    (i : Fin n) : Nat :=
  ((firstBytes size (d.stored i) -
    (d.drr i).deficitCounter) / d.quantum).toNat +
      if (d.drr i).turn then 1 else 0

/- A turn in which a bucket sends nothing is one less. -/
theorem Inv.waits_pass
    {d : DRR n α}
    {c : Fin n}
    {order : List (Fin n)}
    (hInv : d.Inv size (c :: order))
    (hQuantum : 0 < d.quantum)
    {pkt : α}
    {rest : List α}
    (hStored : d.stored c = pkt :: rest)
    (hShort : ((d.drr c).granted d.quantum).deficitCounter <
      size pkt) :
    ∑ i, (d.pass c).waits size i < ∑ i, d.waits size i := by
  have hPass := (hInv.pass hQuantum).1
  have hSame : (d.pass c).quantum = d.quantum := rfl
  have hc : (d.pass c).waits size c < d.waits size c := by
    unfold waits
    simp only [hPass, hStored, hSame, pass_drr_self,
      firstBytes]
    unfold PacketDRR.granted at hShort ⊢
    cases hTurn : (d.drr c).turn with
    | true => simp
    | false =>
        simp only [hTurn, Bool.false_eq_true, if_false]
          at hShort ⊢
        have hOne : 1 ≤ (size pkt -
            (d.drr c).deficitCounter) / d.quantum := by
          rw [Int.le_ediv_iff_mul_le hQuantum]
          omega
        have hLess : (size pkt -
            ((d.drr c).deficitCounter + d.quantum)) /
              d.quantum = (size pkt -
                (d.drr c).deficitCounter) / d.quantum - 1 := by
          have hEq : size pkt -
              ((d.drr c).deficitCounter + d.quantum) =
              (size pkt - (d.drr c).deficitCounter) +
                -1 * d.quantum := by ring
          rw [hEq, Int.add_mul_ediv_right _ _
            (by omega : d.quantum ≠ 0)]
          rfl
        rw [hLess]
        omega
  have hOther : ∀ i, i ≠ c →
      (d.pass c).waits size i = d.waits size i := by
    intro i hi
    unfold waits
    simp only [hPass, hSame, pass_drr_ne d hi]
  apply Finset.sum_lt_sum
  · intro i _
    by_cases hi : i = c
    · rw [hi]
      exact hc.le
    · exact (hOther i hi).le
  · exact ⟨c, Finset.mem_univ c, hc⟩

/-
  The loop passes turns until the bucket that has its turn
  can send its first packet, which it serves.  What is kept
  when a turn passes holds until then.
-/
theorem Inv.dequeLoop
    {P : DRR n α → List (Fin n) → Prop}
    (hPass : ∀ d c order pkt rest,
      d.Inv size (c :: order) → P d (c :: order) →
      d.stored c = pkt :: rest →
      ((d.drr c).granted d.quantum).deficitCounter <
        size pkt →
      P (d.pass c) (order ++ [c]))
    {d : DRR n α}
    {order : List (Fin n)}
    (hInv : d.Inv size order)
    (hNe : order ≠ [])
    (hQuantum : 0 < d.quantum)
    (hP : P d order)
    {fuel : Nat}
    (hFuel : ∑ i, d.waits size i < fuel) :
    ∃ d₁ c order₁ pkt rest,
      d₁.Inv size (c :: order₁) ∧ P d₁ (c :: order₁) ∧
      d₁.stored = d.stored ∧ d₁.blimit = d.blimit ∧
      d₁.quantum = d.quantum ∧ d₁.stored c = pkt :: rest ∧
      size pkt ≤
        ((d₁.drr c).granted d₁.quantum).deficitCounter ∧
      d.dequeLoop size fuel = d₁.serve size c pkt := by
  induction fuel generalizing d order with
  | zero => cases hFuel
  | succ fuel ih =>
      rcases List.exists_cons_of_ne_nil hNe with
        ⟨c, order, rfl⟩
      rcases List.exists_cons_of_ne_nil
        ((hInv.mem c).mp List.mem_cons_self) with
        ⟨pkt, rest, hStored⟩
      have hHead : (d.drr c).queue.head? = some pkt := by
        show (d.stored c).head? = some pkt
        rw [hStored]
        rfl
      have hCurr : d.curr = some c := hInv.curr
      unfold DRR.dequeLoop
      simp only [hCurr, hHead, Option.bind_eq_bind,
        Option.bind_some]
      by_cases hSaved : size pkt ≤
          ((d.drr c).granted d.quantum).deficitCounter
      · rw [if_pos hSaved]
        exact ⟨d, c, order, pkt, rest, hInv, hP, rfl, rfl,
          rfl, hStored, hSaved, rfl⟩
      · rw [if_neg hSaved]
        have hShort := not_le.mp hSaved
        have hLess := hInv.waits_pass hQuantum hStored hShort
        rcases hInv.pass hQuantum with ⟨hSame, hInv'⟩
        rcases ih hInv' (by simp) hQuantum
            (hPass d c order pkt rest hInv hP hStored hShort)
            (by omega) with
          ⟨d₁, c₁, order₁, pkt₁, rest₁, hInv₁, hP₁, hStored₁,
            hBlimit, hQuantum₁, hServe⟩
        exact ⟨d₁, c₁, order₁, pkt₁, rest₁, hInv₁, hP₁,
          hStored₁.trans hSame, hBlimit, hQuantum₁, hServe⟩

/- The turns that `deque` allows are enough. -/
theorem Inv.waits_lt_turns
    {d : DRR n α}
    {order : List (Fin n)}
    (hInv : d.Inv size order)
    (hSize : ∀ p, 0 < size p)
    (hQuantum : 0 < d.quantum) :
    ∑ i, d.waits size i < d.turns := by
  have hEach : ∀ i, d.waits size i ≤
      ((d.drr i).bcount / d.quantum).toNat + 1 := by
    intro i
    have hFirst : firstBytes size (d.stored i) ≤
        (d.drr i).bcount := by
      rw [hInv.bcount]
      cases d.stored i with
      | nil => exact le_refl 0
      | cons p rest =>
          rw [bytes_cons]
          have := bytes_nonneg hSize rest
          dsimp only [firstBytes]
          omega
    have hDeficit := hInv.deficit i
    have hDiv := Int.ediv_le_ediv hQuantum
      (by omega : firstBytes size (d.stored i) -
        (d.drr i).deficitCounter ≤ (d.drr i).bcount)
    have hNat := Int.toNat_le_toNat hDiv
    unfold waits
    split_ifs
    · omega
    · omega
  unfold turns
  rw [← Fin.sum_univ_def]
  exact Nat.lt_succ_of_le
    (Finset.sum_le_sum fun i _ => hEach i)

/- Nothing is served when no bucket has its turn. -/
theorem Inv.deque_empty
    {d : DRR n α}
    (hInv : d.Inv size [])
    (hSize : ∀ p, 0 < size p) :
    d.deque size = some (d, none) := by
  unfold DRR.deque
  rw [if_pos ((hInv.bytecnt_eq_zero_iff hSize).mpr rfl)]

/- A packet is served when there is one. -/
theorem Inv.deque
    {P : DRR n α → List (Fin n) → Prop}
    (hPass : ∀ d c order pkt rest,
      d.Inv size (c :: order) → P d (c :: order) →
      d.stored c = pkt :: rest →
      ((d.drr c).granted d.quantum).deficitCounter <
        size pkt →
      P (d.pass c) (order ++ [c]))
    {d : DRR n α}
    {order : List (Fin n)}
    (hInv : d.Inv size order)
    (hNe : order ≠ [])
    (hSize : ∀ p, 0 < size p)
    (hQuantum : 0 < d.quantum)
    (hP : P d order) :
    ∃ d₁ c order₁ pkt rest,
      d₁.Inv size (c :: order₁) ∧ P d₁ (c :: order₁) ∧
      d₁.stored = d.stored ∧ d₁.blimit = d.blimit ∧
      d₁.quantum = d.quantum ∧ d₁.stored c = pkt :: rest ∧
      size pkt ≤
        ((d₁.drr c).granted d₁.quantum).deficitCounter ∧
      d.deque size = d₁.serve size c pkt := by
  have hBytes : ¬ d.bytecnt = 0 := by
    rw [hInv.bytecnt_eq_zero_iff hSize]
    exact hNe
  unfold DRR.deque
  rw [if_neg hBytes]
  exact hInv.dequeLoop hPass hNe hQuantum hP
    (hInv.waits_lt_turns hSize hQuantum)

end DRR

end Ns2
