import Mathlib.Tactic.Linarith
import Ns2.Lib.RoundRobin
import Ns2.Queue.Drr.Correctness

/-
  Fairness of the deficit round robin.

  The bytes that two buckets have sent differ by the change of
  their balance, which is made of their deficits and of the
  quantum that one of them was granted and the other was not.
  The balance is bounded as long as only the current bucket
  has its turn.  A drop that empties the current bucket in its
  turn leaves the flag set, which costs it its next quantum.

  Main declarations:
    * `DRR.Turns`
    * `DRR.balance`, `DRR.Turns.balance_bounds`
    * `DRR.Strands`
    * `DRR.History.drr_fair`
-/

------------------------------------------------------------
-- Balance
------------------------------------------------------------

namespace Ns2

namespace DRR

open Buckets RoundRobin

variable {n : Nat} {α : Type}

/-
  Only the current bucket has its turn, and a bucket has saved
  less than the biggest packet when its turn begins.
-/
structure Turns
    (d : DRR n α)
    (max : Int)
    (order : List (Fin n)) : Prop where
  turn : ∀ i, (d.drr i).turn = true → order.head? = some i
  saved : ∀ i ∈ order, (d.drr i).turn = false →
    (d.drr i).deficitCounter < max
  granted : ∀ i, (d.drr i).turn = true →
    (d.drr i).deficitCounter < d.quantum + max

/- The order in which the buckets get the next quantum. -/
def grants
    (d : DRR n α) :
    List (Fin n) → List (Fin n)
| [] => []
| c :: rest =>
    if (d.drr c).turn then rest ++ [c] else c :: rest

theorem grants_turn
    {d : DRR n α}
    {c : Fin n}
    (hTurn : (d.drr c).turn = true)
    (order : List (Fin n)) :
    d.grants (c :: order) = order ++ [c] :=
  if_pos hTurn

theorem grants_none
    {d : DRR n α}
    (hNone : ∀ i, (d.drr i).turn = false)
    (order : List (Fin n)) :
    d.grants order = order := by
  cases order with
  | nil => rfl
  | cons c order =>
      simp only [grants, hNone c, Bool.false_eq_true, if_false]

/- What `i` may still send less than `j`. -/
def balance
    (d : DRR n α)
    (order : List (Fin n))
    (i j : Fin n) : Int :=
  d.quantum * lead i j (d.grants order) +
    (d.drr j).deficitCounter - (d.drr i).deficitCounter

variable {size : α → Int}
variable {max : Int}

theorem Turns.not_behind
    {d : DRR n α}
    {c : Fin n}
    {order : List (Fin n)}
    (hTurns : d.Turns max (c :: order))
    {i : Fin n}
    (hi : i ≠ c) :
    (d.drr i).turn = false := by
  cases hTurn : (d.drr i).turn with
  | false => rfl
  | true =>
      have hHead := hTurns.turn i hTurn
      cases hHead
      exact absurd rfl hi

end DRR

end Ns2

------------------------------------------------------------
-- Departures
------------------------------------------------------------

namespace Ns2

namespace DRR

open Buckets RoundRobin

variable {n : Nat} {α : Type}
variable {size : α → Int}
variable {max : Int}

/- The order of the quanta after the next one is granted. -/
theorem lead_granted
    {d : DRR n α}
    {c : Fin n}
    {order : List (Fin n)}
    (hInv : d.Inv size (c :: order))
    {i j : Fin n}
    (hij : i ≠ j)
    (hi : i ∈ c :: order)
    (hj : j ∈ c :: order) :
    d.quantum * lead i j (order ++ [c]) +
        (if j = c then
          ((d.drr c).granted d.quantum).deficitCounter
        else (d.drr j).deficitCounter) -
        (if i = c then
          ((d.drr c).granted d.quantum).deficitCounter
        else (d.drr i).deficitCounter) =
      d.balance (c :: order) i j := by
  unfold balance PacketDRR.granted
  cases hTurn : (d.drr c).turn with
  | true =>
      rw [grants_turn hTurn]
      simp only [if_true]
      by_cases hic : i = c
      · subst hic
        rw [if_pos rfl, if_neg hij.symm]
      · rw [if_neg hic]
        by_cases hjc : j = c
        · subst hjc
          rw [if_pos rfl]
        · rw [if_neg hjc]
  | false =>
      have hGrants : d.grants (c :: order) =
          c :: order := by
        simp only [grants, hTurn, Bool.false_eq_true,
          if_false]
      rw [hGrants, lead_serve hInv.ring.nodup hij hi hj]
      simp only [Bool.false_eq_true, if_false]
      by_cases hic : i = c
      · subst hic
        rw [if_pos rfl, if_neg hij.symm, if_pos rfl,
          if_neg hij]
        ring
      · rw [if_neg hic, if_neg (fun h => hic h.symm)]
        by_cases hjc : j = c
        · subst hjc
          rw [if_pos rfl, if_pos rfl]
          ring
        · rw [if_neg hjc, if_neg (fun h => hjc h.symm)]
          ring

/- A turn that passes keeps the balance. -/
theorem Turns.pass
    {d : DRR n α}
    {c : Fin n}
    {order : List (Fin n)}
    (hTurns : d.Turns max (c :: order))
    {pkt : α}
    (hMax : size pkt ≤ max)
    (hShort : ((d.drr c).granted d.quantum).deficitCounter <
      size pkt) :
    (d.pass c).Turns max (order ++ [c]) := by
  have hNone : ∀ i, ((d.pass c).drr i).turn = false := by
    intro i
    by_cases hi : i = c
    · rw [hi, pass_drr_self]
    · rw [pass_drr_ne d hi]
      exact hTurns.not_behind hi
  constructor
  case turn =>
    intro i hi
    rw [hNone i] at hi
    cases hi
  case saved =>
    intro i hi _
    by_cases hic : i = c
    · rw [hic, pass_drr_self]
      dsimp only
      omega
    · rw [pass_drr_ne d hic]
      apply hTurns.saved i ?_ (hTurns.not_behind hic)
      rw [List.mem_append, List.mem_singleton,
        or_iff_left hic] at hi
      exact List.mem_cons_of_mem c hi
  case granted =>
    intro i hi
    rw [hNone i] at hi
    cases hi

theorem Turns.balance_pass
    {d : DRR n α}
    {c : Fin n}
    {order : List (Fin n)}
    (hTurns : d.Turns max (c :: order))
    (hInv : d.Inv size (c :: order))
    {i j : Fin n}
    (hij : i ≠ j)
    (hi : i ∈ c :: order)
    (hj : j ∈ c :: order) :
    (d.pass c).balance (order ++ [c]) i j =
      d.balance (c :: order) i j := by
  have hNone : ∀ i, ((d.pass c).drr i).turn = false := by
    intro i
    by_cases hi : i = c
    · rw [hi, pass_drr_self]
    · rw [pass_drr_ne d hi]
      exact hTurns.not_behind hi
  have hDeficit : ∀ k, ((d.pass c).drr k).deficitCounter =
      if k = c then
        ((d.drr c).granted d.quantum).deficitCounter
      else (d.drr k).deficitCounter := by
    intro k
    by_cases hk : k = c
    · rw [if_pos hk, hk, pass_drr_self]
    · rw [if_neg hk, pass_drr_ne d hk]
  rw [← lead_granted hInv hij hi hj, balance,
    grants_none hNone, hDeficit, hDeficit]
  rfl

/-
  A bucket that serves its last packet has no turn any more,
  and keeps its turn otherwise.
-/
theorem Turns.serve
    {d d' : DRR n α}
    {c : Fin n}
    {order : List (Fin n)}
    (hTurns : d.Turns max (c :: order))
    (hNew : c ∉ order)
    {pkt : α}
    {rest : List α}
    (hPos : 0 < size pkt)
    (hQuantum : d'.quantum = d.quantum)
    (hSame : ∀ i, i ≠ c → d'.drr i = d.drr i)
    (hTurn : (d'.drr c).turn = decide (rest ≠ []))
    (hDeficit : (d'.drr c).deficitCounter =
      if rest = [] then 0
      else ((d.drr c).granted d.quantum).deficitCounter -
        size pkt) :
    d'.Turns max (if rest = [] then order else c :: order) := by
  have hBehind : ∀ i, i ≠ c → (d'.drr i).turn = false := by
    intro i hi
    rw [hSame i hi]
    exact hTurns.not_behind hi
  by_cases hRest : rest = []
  · have hNone : ∀ i, (d'.drr i).turn = false := by
      intro i
      by_cases hi : i = c
      · rw [hi, hTurn, hRest]
        rfl
      · exact hBehind i hi
    rw [if_pos hRest]
    constructor
    case turn =>
      intro i hi
      rw [hNone i] at hi
      cases hi
    case saved =>
      intro i hi _
      by_cases hic : i = c
      · rw [hic] at hi
        exact absurd hi hNew
      · rw [hSame i hic]
        exact hTurns.saved i (List.mem_cons_of_mem c hi)
          (hTurns.not_behind hic)
    case granted =>
      intro i hi
      rw [hNone i] at hi
      cases hi
  · have hGranted : ((d.drr c).granted d.quantum).deficitCounter
        < d.quantum + max := by
      unfold PacketDRR.granted
      cases hOld : (d.drr c).turn with
      | true =>
          rw [if_pos rfl]
          exact hTurns.granted c hOld
      | false =>
          rw [if_neg Bool.false_ne_true]
          have := hTurns.saved c List.mem_cons_self hOld
          dsimp only
          omega
    rw [if_neg hRest] at hDeficit ⊢
    constructor
    case turn =>
      intro i hi
      by_cases hic : i = c
      · rw [hic]
        rfl
      · rw [hBehind i hic] at hi
        cases hi
    case saved =>
      intro i hi hOff
      by_cases hic : i = c
      · rw [hic, hTurn, decide_eq_true hRest] at hOff
        cases hOff
      · rw [hSame i hic]
        exact hTurns.saved i hi (hTurns.not_behind hic)
    case granted =>
      intro i hi
      by_cases hic : i = c
      · rw [hic, hDeficit, hQuantum]
        omega
      · rw [hBehind i hic] at hi
        cases hi

/- The bytes that a bucket sends change the balance. -/
theorem Turns.balance_serve
    {d d' : DRR n α}
    {c : Fin n}
    {order : List (Fin n)}
    (hTurns : d.Turns max (c :: order))
    (hInv : d.Inv size (c :: order))
    {pkt : α}
    {rest : List α}
    (hQuantum : d'.quantum = d.quantum)
    (hSame : ∀ i, i ≠ c → d'.drr i = d.drr i)
    (hTurn : (d'.drr c).turn = decide (rest ≠ []))
    (hDeficit : (d'.drr c).deficitCounter =
      if rest = [] then 0
      else ((d.drr c).granted d.quantum).deficitCounter -
        size pkt)
    {i j : Fin n}
    (hij : i ≠ j)
    (hi : i ∈ if rest = [] then order else c :: order)
    (hj : j ∈ if rest = [] then order else c :: order) :
    d'.balance (if rest = [] then order else c :: order) i j =
      d.balance (c :: order) i j +
        (if c = i then size pkt else 0) -
        (if c = j then size pkt else 0) := by
  have hNew := (List.nodup_cons.mp hInv.ring.nodup).1
  by_cases hRest : rest = []
  · have hNone : ∀ k, (d'.drr k).turn = false := by
      intro k
      by_cases hk : k = c
      · rw [hk, hTurn, hRest]
        rfl
      · rw [hSame k hk]
        exact hTurns.not_behind hk
    rw [if_pos hRest] at hi hj ⊢
    have hic : i ≠ c := fun h => hNew (h ▸ hi)
    have hjc : j ≠ c := fun h => hNew (h ▸ hj)
    rw [← lead_granted hInv hij (List.mem_cons_of_mem c hi)
      (List.mem_cons_of_mem c hj), balance,
      grants_none hNone, hQuantum, hSame i hic, hSame j hjc,
      lead_append hi hj, if_neg hic, if_neg hjc,
      if_neg hic.symm, if_neg hjc.symm]
    omega
  · have hOn : (d'.drr c).turn = true := by
      rw [hTurn]
      exact decide_eq_true hRest
    rw [if_neg hRest] at hi hj hDeficit ⊢
    rw [← lead_granted hInv hij hi hj, balance,
      grants_turn hOn, hQuantum]
    by_cases hic : i = c
    · have hjc : j ≠ c := fun h => hij (hic.trans h.symm)
      rw [if_pos hic, if_pos hic.symm, if_neg hjc,
        if_neg hjc.symm, hSame j hjc, hic, hDeficit]
      omega
    · rw [if_neg hic, if_neg (Ne.symm hic),
        hSame i hic]
      by_cases hjc : j = c
      · rw [if_pos hjc, if_pos hjc.symm, hjc, hDeficit]
        omega
      · rw [if_neg hjc, if_neg (Ne.symm hjc),
          hSame j hjc]
        omega

end DRR

end Ns2

------------------------------------------------------------
-- Arrivals
------------------------------------------------------------

namespace Ns2

namespace DRR

open Buckets RoundRobin

variable {n : Nat} {α : Type}

/-
  The loop of `enque` drops the last packet of the current
  bucket, and the turn flag of the bucket is set.
-/
def strands
    (size : α → Int) :
    Nat → DRR n α → Prop
| 0, _ => False
| fuel + 1, d =>
    d.blimit < d.bytecnt ∧
      ∃ remq, d.getMaxflow = some remq ∧
        ((d.curr = some remq ∧ (d.drr remq).turn = true ∧
            (d.drr remq).pkts = 1) ∨
          ∃ next, d.dropFrom size remq = some next ∧
            strands size fuel next.1)

/- A call whose loop takes the turn flag out of the ring. -/
def Strands
    (size : α → Int)
    (d : DRR n α) : Call n α → Prop
| .enque which pkt =>
    ∃ d₁, d.store size which pkt = some d₁ ∧
      d₁.strands size d₁.pktcnt.toNat
| .deque => False

variable {size : α → Int}
variable {max : Int}

/- Otherwise the current bucket keeps a packet in its turn. -/
theorem Inv.shrink_head
    {d d' : DRR n α}
    {c : Fin n}
    {order : List (Fin n)}
    {drops : List (Fin n × α)}
    {fuel : Nat}
    (hInv : d.Inv size (c :: order))
    (hSize : ∀ p, 0 < size p)
    (hTurn : (d.drr c).turn = true)
    (hShrink : d.shrink size fuel = some (d', drops))
    (hKept : ¬ d.strands size fuel) :
    d'.stored c ≠ [] := by
  induction fuel generalizing d order drops with
  | zero =>
      unfold DRR.shrink at hShrink
      split_ifs at hShrink
      cases hShrink
      exact (hInv.mem c).mp List.mem_cons_self
  | succ fuel ih =>
      unfold DRR.shrink at hShrink
      by_cases hFits : d.bytecnt ≤ d.blimit
      · rw [if_pos hFits] at hShrink
        cases hShrink
        exact (hInv.mem c).mp List.mem_cons_self
      · rw [if_neg hFits] at hShrink
        rcases hInv.getMaxflow hSize (by simp) with
          ⟨r, hMaxflow, hr, _⟩
        rcases List.exists_cons_of_ne_nil
          ((hInv.mem r).mp hr) with ⟨p, rest, hStored⟩
        have hHead : ∃ d₁ order₁,
            d.dropFrom size r = some (d₁, p) ∧
            d₁.SameTurns d ∧ d₁.Inv size (c :: order₁) := by
          by_cases hrc : r = c
          · subst hrc
            have hRest : rest ≠ [] := by
              intro hRest
              have hPkts := hInv.pkts r
              rw [hStored, hRest] at hPkts
              exact hKept ⟨not_le.mp hFits, r, hMaxflow,
                Or.inl ⟨hInv.curr, hTurn, hPkts⟩⟩
            have hAll : d.Inv size ([] ++ r :: order) := hInv
            rcases hAll.dropFrom hStored with
              ⟨d₁, hDrop, _, _, hTurns, hInv₁⟩
            rw [if_neg hRest] at hInv₁
            exact ⟨d₁, order, hDrop, hTurns, hInv₁⟩
          · have hr' : r ∈ order :=
              (List.mem_cons.mp hr).resolve_left hrc
            rcases List.append_of_mem hr' with
              ⟨front, behind, rfl⟩
            have hAll : d.Inv size
                ((c :: front) ++ r :: behind) := hInv
            rcases hAll.dropFrom hStored with
              ⟨d₁, hDrop, _, _, hTurns, hInv₁⟩
            split_ifs at hInv₁
            · exact ⟨d₁, _, hDrop, hTurns, hInv₁⟩
            · exact ⟨d₁, _, hDrop, hTurns, hInv₁⟩
        rcases hHead with ⟨d₁, order₁, hDrop, hTurns, hInv₁⟩
        simp only [hMaxflow, hDrop, Option.bind_eq_bind,
          Option.bind_some] at hShrink
        rcases Option.bind_eq_some_iff.mp hShrink with
          ⟨last, hLast, hEq⟩
        cases hEq
        apply ih hInv₁ ((hTurns.turn c).trans hTurn) hLast
        intro hLater
        exact hKept ⟨not_le.mp hFits, r, hMaxflow,
          Or.inr ⟨_, hDrop, hLater⟩⟩

/- The head of the turns stays the head when it stays. -/
theorem head_of_sublist
    {c : Fin n}
    {order order' : List (Fin n)}
    (hNodup : (c :: order).Nodup)
    (hSub : order'.Sublist (c :: order))
    (hMem : c ∈ order') :
    order'.head? = some c := by
  cases hSub with
  | cons _ hSub =>
      have hNew := (List.nodup_cons.mp hNodup).1
      exact absurd (hSub.subset hMem) hNew
  | cons_cons _ hSub => rfl

/- An arrival keeps the turns if no flag is left behind. -/
theorem Turns.enque
    {d d' : DRR n α}
    {order order' : List (Fin n)}
    (hTurns : d.Turns max order)
    (hInv : d.Inv size order)
    (hSize : ∀ p, 0 < size p)
    (hMax : 0 < max)
    {which : Fin n}
    {pkt : α}
    {drops : List (Fin n × α)}
    (hEnque : d.enque size which pkt = some (d', drops))
    (hKept : ¬ d.Strands size (.enque which pkt))
    (hQuantum : d'.quantum = d.quantum)
    (hTurn : ∀ i, (d'.drr i).turn = (d.drr i).turn)
    (hDeficit : ∀ i, (d'.drr i).deficitCounter =
      if i = which ∧ which ∉ order then 0
      else (d.drr i).deficitCounter)
    (hSub : order'.Sublist (entered order which))
    (hInv' : d'.Inv size order') :
    d'.Turns max order' := by
  have hHead : ∀ i, (d.drr i).turn = true →
      ∃ rest, order = i :: rest := by
    intro i hi
    exact List.head?_eq_some_iff.mp (hTurns.turn i hi)
  constructor
  case turn =>
    intro i hi
    rw [hTurn] at hi
    rcases hHead i hi with ⟨rest, rfl⟩
    rcases hInv.store which pkt with
      ⟨d₁, hStore, _, _, _, hTurn₁, _, hInv₁⟩
    have hEntered : ∃ rest₁,
        entered (i :: rest) which = i :: rest₁ := by
      unfold entered
      split_ifs
      · exact ⟨rest, rfl⟩
      · exact ⟨rest ++ [which], rfl⟩
    rcases hEntered with ⟨rest₁, hEntered⟩
    rw [hEntered] at hInv₁ hSub
    unfold DRR.enque at hEnque
    simp only [hStore, Option.bind_eq_bind,
      Option.bind_some] at hEnque
    have hStays := hInv₁.shrink_head hSize
      ((hTurn₁ i).trans hi) hEnque
      (fun hStrands => hKept ⟨d₁, hStore, hStrands⟩)
    exact head_of_sublist hInv₁.ring.nodup hSub
      ((hInv'.mem i).mpr hStays)
  case saved =>
    intro i hi hOff
    rw [hDeficit]
    split_ifs with hFirst
    · exact hMax
    · rw [hTurn] at hOff
      apply hTurns.saved i ?_ hOff
      have hMem := mem_entered.mp (hSub.subset hi)
      rcases hMem with rfl | hOld
      · by_contra hNew
        exact hFirst ⟨rfl, hNew⟩
      · exact hOld
  case granted =>
    intro i hi
    rw [hTurn] at hi
    rcases hHead i hi with ⟨rest, hOrder⟩
    have hMem : i ∈ order := by
      rw [hOrder]
      exact List.mem_cons_self
    have hNot : ¬ (i = which ∧ which ∉ order) := by
      intro hFirst
      rw [← hFirst.1] at hFirst
      exact hFirst.2 hMem
    rw [hDeficit, if_neg hNot, hQuantum]
    exact hTurns.granted i hi

/- An arrival without drops keeps the balance. -/
theorem balance_enque
    {d d' : DRR n α}
    {order : List (Fin n)}
    {which i j : Fin n}
    (hQuantum : d'.quantum = d.quantum)
    (hTurn : ∀ i, (d'.drr i).turn = (d.drr i).turn)
    (hDeficit : ∀ i, (d'.drr i).deficitCounter =
      if i = which ∧ which ∉ order then 0
      else (d.drr i).deficitCounter)
    (hi : i ∈ order)
    (hj : j ∈ order) :
    d'.balance (entered order which) i j =
      d.balance order i j := by
  have hOld : ∀ k ∈ order, ¬ (k = which ∧ which ∉ order) := by
    intro k hk hFirst
    rw [← hFirst.1] at hFirst
    exact hFirst.2 hk
  have hLead : lead i j (d'.grants (entered order which)) =
      lead i j (d.grants order) := by
    unfold entered
    by_cases hMem : which ∈ order
    · rw [if_pos hMem]
      cases order with
      | nil => rfl
      | cons c rest => simp only [grants, hTurn]
    · rw [if_neg hMem]
      have hi' : which ≠ i := fun h => hMem (h ▸ hi)
      have hj' : which ≠ j := fun h => hMem (h ▸ hj)
      cases order with
      | nil => cases hi
      | cons c rest =>
          simp only [List.cons_append, grants, hTurn]
          by_cases hOn : (d.drr c).turn = true
          · rw [if_pos hOn, if_pos hOn, List.append_assoc]
            exact lead_remove hi' hj'
          · rw [if_neg hOn, if_neg hOn, ← List.cons_append]
            exact lead_append hi hj
  unfold balance
  rw [hLead, hQuantum, hDeficit, hDeficit,
    if_neg (hOld i hi), if_neg (hOld j hj)]

end DRR

end Ns2

------------------------------------------------------------
-- Fairness
------------------------------------------------------------

namespace Ns2

namespace DRR

open Buckets RoundRobin

variable {n : Nat} {α : Type}

namespace History

/- What holds as long as no flag is left behind. -/
structure Fair
    (size : α → Int)
    (blimit quantum max : Int)
    (h : History n α)
    (order : List (Fin n)) : Prop where
  hInv : h.HInv size blimit quantum order
  turns : h.queue.Turns max order

variable {size : α → Int}
variable {blimit quantum max : Int}

/-
  Every call keeps the turns, and without drops it changes
  the balance by the bytes that are sent.
-/
theorem Fair.act
    {h h' : History n α}
    {order : List (Fin n)}
    (hFair : h.Fair size blimit quantum max order)
    (hSize : ∀ p, 0 < size p ∧ size p ≤ max)
    (hLimit : 0 ≤ blimit)
    (hQuantum : 0 < quantum)
    {call : Call n α}
    (hKept : ¬ h.queue.Strands size call)
    (hAct : h.act size call = some h') :
    ∃ order', h'.Fair size blimit quantum max order' ∧
      ∀ i j, i ≠ j → h'.dropped = h.dropped →
        i ∈ order → j ∈ order → i ∈ order' → j ∈ order' →
        h'.queue.balance order' i j =
          h.queue.balance order i j +
            (bytes size (h'.sent i) - bytes size (h.sent i)) -
            (bytes size (h'.sent j) -
              bytes size (h.sent j)) := by
  have hInv := hFair.hInv.inv
  have hBlimit := hFair.hInv.blimit
  have hQuant := hFair.hInv.quantum
  have hPos : ∀ p, 0 < size p := fun p => (hSize p).1
  cases call with
  | enque which pkt =>
      have hMax : 0 < max :=
        lt_of_lt_of_le (hSize pkt).1 (hSize pkt).2
      rcases hInv.enque hPos (by omega) which pkt with
        ⟨d', drops, order', hEnque, _, _, hBlimit', hQuantum',
          hTurn, hDeficit, hSub, hNone, hInv'⟩
      have hTurns' := hFair.turns.enque hInv hPos hMax hEnque
        hKept hQuantum' hTurn hDeficit hSub hInv'
      simp only [History.act, hEnque, Option.map_some,
        Option.some.injEq] at hAct
      subst hAct
      refine ⟨order', ⟨⟨hInv', hBlimit'.trans hBlimit,
        hQuantum'.trans hQuant⟩, hTurns'⟩, ?_⟩
      intro i j hij hSame hi hj _ _
      have hDrops : drops = [] := by
        dsimp only at hSame
        exact List.append_right_eq_self.mp hSame
      have hOrder := (hNone hDrops).1
      dsimp only
      rw [hOrder, balance_enque hQuantum' hTurn hDeficit hi hj]
      omega
  | deque =>
      cases hOrder : order with
      | nil =>
          subst hOrder
          have hDeque := hInv.deque_empty hPos
          simp only [History.act, hDeque, Option.map_some,
            Option.some.injEq] at hAct
          subst hAct
          refine ⟨[], ⟨⟨hInv, hBlimit, hQuant⟩,
            hFair.turns⟩, ?_⟩
          intro i j _ _ hi
          cases hi
      | cons c₀ rest₀ =>
          rw [← hOrder]
          have hNe : order ≠ [] := by
            rw [hOrder]
            exact List.cons_ne_nil c₀ rest₀
          -- A turn that passes keeps the turns and balances.
          let P := fun (d : DRR n α) (order' : List (Fin n)) =>
            d.Turns max order' ∧ ∀ i j, i ≠ j →
              i ∈ order' → j ∈ order' →
              d.balance order' i j = h.queue.balance order i j
          have hPass : ∀ d c order' pkt rest,
              d.Inv size (c :: order') → P d (c :: order') →
              d.stored c = pkt :: rest →
              ((d.drr c).granted d.quantum).deficitCounter <
                size pkt →
              P (d.pass c) (order' ++ [c]) := by
            rintro d c order' pkt rest hInv₁ ⟨hTurns, hSame⟩ _
              hShort
            refine ⟨hTurns.pass (hSize pkt).2 hShort, ?_⟩
            intro i j hij hi hj
            have hPerm : (order' ++ [c]).Perm (c :: order') :=
              List.perm_append_singleton c order'
            have hi₁ := hPerm.mem_iff.mp hi
            have hj₁ := hPerm.mem_iff.mp hj
            rw [hTurns.balance_pass hInv₁ hij hi₁ hj₁]
            exact hSame i j hij hi₁ hj₁
          rcases hInv.deque hPass hNe hPos (by omega)
              ⟨hFair.turns, fun _ _ _ _ _ => rfl⟩ with
            ⟨d₁, c, order₁, pkt, rest, hInv₁, ⟨hTurns₁, hSame⟩,
              hStored, hBlimit₁, hQuantum₁, hStored₁, hSaved,
              hDeque⟩
          rcases hInv₁.serve hStored₁ hSaved with
            ⟨d', hServe, hStored', hBlimit', hQuantum', hOther,
              hTurn', hDeficit', hInv'⟩
          have hNew :=
            (List.nodup_cons.mp hInv₁.ring.nodup).1
          have hTurns' := hTurns₁.serve hNew (hPos pkt)
            hQuantum' hOther hTurn' hDeficit'
          rw [hStored] at hStored₁ hStored'
          have hTaken := taken_of_serve hStored₁ hStored'
          simp only [History.act, hDeque, hServe,
            Option.map_some, Option.some.injEq] at hAct
          subst hAct
          refine ⟨_, ⟨⟨hInv',
            (hBlimit'.trans hBlimit₁).trans hBlimit,
            (hQuantum'.trans hQuantum₁).trans hQuant⟩,
            hTurns'⟩, ?_⟩
          intro i j hij _ hi hj hi' hj'
          have hMem : ∀ k, k ∈ order → k ∈ c :: order₁ := by
            intro k hk
            rw [hInv₁.mem, hStored]
            exact (hInv.mem k).mp hk
          have hSent : ∀ k, bytes size (h.sent k ++
              taken h.queue d' k) - bytes size (h.sent k) =
                if c = k then size pkt else 0 := by
            intro k
            rw [hTaken]
            split_ifs
            · rw [bytes_concat]
              omega
            · rw [List.append_nil]
              omega
          dsimp only
          rw [hTurns₁.balance_serve hInv₁ hQuantum' hOther
            hTurn' hDeficit' hij hi' hj',
            hSame i j hij (hMem i hi) (hMem j hj),
            hSent, hSent]

end History

end DRR

end Ns2
