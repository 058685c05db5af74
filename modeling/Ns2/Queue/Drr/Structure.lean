import Ns2.Queue.Drr.Invariant

/-
  Deficit round robin with any limit, quantum and sizes.

  The ring and the counters do not depend on what the buckets
  saved.  So they are right in every state that is reached,
  also where a loop would not end in another one.

  Main declarations:
    * `DRR.bare`, `DRR.Sound`
    * `DRR.Sound.enque`, `DRR.Sound.deque`
    * `DRR.Sound.drained`
-/

------------------------------------------------------------
-- Bare Queues
------------------------------------------------------------

namespace Ns2

namespace PacketDRR

variable {α : Type}

/- The bucket without its turn and savings. -/
def bare (q : PacketDRR α) : PacketDRR α :=
  { q with
    deficitCounter := 0
    turn := false }

end PacketDRR

namespace DRR

variable {n : Nat} {α : Type}

/- The queue without turns and savings. -/
def bare
    (quantum : Int)
    (d : DRR n α) : DRR n α :=
  { d with
    quantum := quantum
    drr := fun i => (d.drr i).bare }

/- The ring and the counters are right. -/
def Sound
    (size : α → Int)
    (d : DRR n α)
    (order : List (Fin n)) : Prop :=
  (d.bare 0).Inv size order

variable {size : α → Int}
variable {d d' : DRR n α}
variable {order : List (Fin n)}

theorem Inv.sound
    (hInv : d.Inv size order) :
    d.Sound size order := by
  constructor
  case ring => exact hInv.ring
  case curr => exact hInv.curr
  case mem => exact hInv.mem
  case pkts => exact hInv.pkts
  case bcount => exact hInv.bcount
  case pktcnt => exact hInv.pktcnt
  case bytecnt => exact hInv.bytecnt
  case flwcnt => exact hInv.flwcnt
  case deficit => exact fun _ => le_refl 0

/- It says the same with any quantum. -/
theorem Sound.inv_bare
    (hSound : d.Sound size order)
    (quantum : Int) :
    (d.bare quantum).Inv size order := by
  constructor
  case ring => exact hSound.ring
  case curr => exact hSound.curr
  case mem => exact hSound.mem
  case pkts => exact hSound.pkts
  case bcount => exact hSound.bcount
  case pktcnt => exact hSound.pktcnt
  case bytecnt => exact hSound.bytecnt
  case flwcnt => exact hSound.flwcnt
  case deficit => exact hSound.deficit

/- Queues that only differ in turns and savings. -/
theorem Sound.of_bare_eq
    {d₀ : DRR n α}
    (hInv : d₀.Inv size order)
    (hEq : d₀.bare 0 = d.bare 0) :
    d.Sound size order := by
  have hSound := hInv.sound
  unfold Sound at hSound ⊢
  rw [← hEq]
  exact hSound

theorem bare_ext
    (hBlimit : d.blimit = d'.blimit)
    (hLinks : d.links = d'.links)
    (hCurr : d.curr = d'.curr)
    (hBytecnt : d.bytecnt = d'.bytecnt)
    (hPktcnt : d.pktcnt = d'.pktcnt)
    (hFlwcnt : d.flwcnt = d'.flwcnt)
    (hDrr : ∀ i, (d.drr i).bare = (d'.drr i).bare) :
    d.bare 0 = d'.bare 0 := by
  unfold bare
  rw [hBlimit, hLinks, hCurr, hBytecnt, hPktcnt, hFlwcnt]
  congr 1
  exact funext hDrr

/- A bucket that changes in both queues. -/
theorem bare_update
    {f : Fin n → PacketDRR α}
    {k : Fin n}
    {q q' : PacketDRR α}
    (hq : q.bare = q'.bare)
    (i : Fin n) :
    (Function.update (fun i => (f i).bare) k q i).bare =
      (Function.update f k q' i).bare := by
  by_cases hi : i = k
  · rw [hi, Function.update_self, Function.update_self, hq]
  · rw [Function.update_of_ne hi, Function.update_of_ne hi]
    rfl

theorem store_bare
    (d : DRR n α)
    (quantum : Int)
    (which : Fin n)
    (pkt : α) :
    ((d.bare quantum).store size which pkt).map (bare 0) =
      (d.store size which pkt).map (bare 0) := by
  have hPkts :
      ((d.bare quantum).drr which).pkts = (d.drr which).pkts :=
    rfl
  unfold store
  dsimp only
  rw [hPkts]
  by_cases hFirst : (d.drr which).pkts + 1 = 1
  · rw [if_pos hFirst, if_pos hFirst]
    change Option.map _ (Option.bind
      (PacketDRR.activate d.links which d.curr) _) = _
    cases PacketDRR.activate d.links which d.curr with
    | none => rfl
    | some next =>
        apply congrArg some
        apply bare_ext
        case hDrr => exact bare_update rfl
        all_goals rfl
  · rw [if_neg hFirst, if_neg hFirst]
    apply congrArg some
    apply bare_ext
    case hDrr => exact bare_update rfl
    all_goals rfl

theorem dropFrom_bare
    (d : DRR n α)
    (quantum : Int)
    (r : Fin n) :
    ((d.bare quantum).dropFrom size r).map (·.1.bare 0) =
      (d.dropFrom size r).map (·.1.bare 0) := by
  have hQueue :
      ((d.bare quantum).drr r).queue = (d.drr r).queue := rfl
  unfold dropFrom
  rw [hQueue]
  cases (d.drr r).queue.head? with
  | none => rfl
  | some p =>
      simp only [Option.bind_eq_bind, Option.bind_some]
      have hPkts :
          (((d.bare quantum).drr r).shorten (size p)).pkts =
            ((d.drr r).shorten (size p)).pkts := rfl
      rw [hPkts]
      by_cases hZero : ((d.drr r).shorten (size p)).pkts = 0
      · rw [if_pos hZero, if_pos hZero]
        change Option.map _ (Option.bind
            (PacketDRR.idle d.links r d.curr) _) =
          Option.map _ (Option.bind
            (PacketDRR.idle d.links r d.curr) _)
        cases PacketDRR.idle d.links r d.curr with
        | none => rfl
        | some next =>
            apply congrArg some
            apply bare_ext
            case hDrr => exact bare_update rfl
            all_goals rfl
      · rw [if_neg hZero, if_neg hZero]
        apply congrArg some
        apply bare_ext
        case hDrr => exact bare_update rfl
        all_goals rfl

theorem bare_granted
    (q : PacketDRR α)
    (quantum : Int) :
    (q.granted quantum).bare = q.bare := by
  unfold PacketDRR.granted
  split_ifs
  · rfl
  · rfl

theorem serve_bare
    (d : DRR n α)
    (quantum : Int)
    (c : Fin n)
    (pkt : α) :
    ((d.bare quantum).serve size c pkt).map (·.1.bare 0) =
      (d.serve size c pkt).map (·.1.bare 0) := by
  have hBare :
      ((((d.bare quantum).drr c).granted
        (d.bare quantum).quantum).shorten (size pkt)).bare =
      (((d.drr c).granted d.quantum).shorten (size pkt)).bare := by
    have hSame := (bare_granted (d.drr c).bare quantum).trans
      (bare_granted (d.drr c) d.quantum).symm
    exact congrArg (fun q => (q.shorten (size pkt)).bare) hSame
  have hPkts :
      ((((d.bare quantum).drr c).granted
        (d.bare quantum).quantum).shorten (size pkt)).pkts =
      (((d.drr c).granted d.quantum).shorten (size pkt)).pkts :=
    congrArg (fun q : PacketDRR α => q.bare.pkts) hBare
  unfold serve
  dsimp only
  by_cases hZero : (((d.drr c).granted d.quantum).shorten
      (size pkt)).pkts = 0
  · rw [if_pos (hPkts.trans hZero), if_pos hZero]
    change Option.map _ (Option.bind
        (PacketDRR.idle d.links c (some c)) _) =
      Option.map _ (Option.bind
        (PacketDRR.idle d.links c (some c)) _)
    cases PacketDRR.idle d.links c (some c) with
    | none => rfl
    | some next =>
        apply congrArg some
        apply bare_ext
        case hDrr => exact bare_update hBare
        all_goals rfl
  · rw [if_neg (fun h => hZero (hPkts.symm.trans h)),
      if_neg hZero]
    apply congrArg some
    apply bare_ext
    case hDrr => exact bare_update hBare
    all_goals rfl

theorem pass_bare
    (d : DRR n α)
    (quantum : Int)
    (c : Fin n) :
    ((d.bare quantum).pass c).bare 0 = (d.pass c).bare 0 := by
  apply bare_ext
  case hDrr =>
    exact bare_update
      ((bare_granted (d.drr c).bare quantum).trans
        (bare_granted (d.drr c) d.quantum).symm)
  all_goals rfl

end DRR

end Ns2

------------------------------------------------------------
-- Steps
------------------------------------------------------------

namespace Ns2

namespace DRR

open Buckets

variable {n : Nat} {α : Type}
variable {size : α → Int}
variable {d d' : DRR n α}
variable {order : List (Fin n)}

theorem Sound.store
    (hSound : d.Sound size order)
    {which : Fin n}
    {pkt : α}
    (hStore : d.store size which pkt = some d') :
    d'.Sound size (entered order which) := by
  rcases Inv.store hSound which pkt with
    ⟨d₀, hStore₀, -, -, -, -, -, hInv₀⟩
  have hBare := @store_bare n α size d 0 which pkt
  rw [hStore, hStore₀] at hBare
  exact .of_bare_eq hInv₀ (Option.some.inj hBare)

/- Only a bucket with packets can lose one. -/
theorem Sound.mem_of_head
    (hSound : d.Sound size order)
    {r : Fin n}
    {p : α}
    (hHead : (d.drr r).queue.head? = some p) :
    r ∈ order ∧ ∃ rest, d.stored r = p :: rest := by
  rcases List.head?_eq_some_iff.mp hHead with ⟨rest, hQueue⟩
  refine ⟨(hSound.mem r).mpr ?_, rest, hQueue⟩
  change (d.drr r).queue ≠ []
  rw [hQueue]
  exact List.cons_ne_nil p rest

theorem Sound.dropFrom
    (hSound : d.Sound size order)
    {r : Fin n}
    {p : α}
    (hDrop : d.dropFrom size r = some (d', p)) :
    ∃ order', d'.Sound size order' := by
  have hHead : ∃ q, (d.drr r).queue.head? = some q := by
    rcases Option.bind_eq_some_iff.mp hDrop with ⟨q, hq, -⟩
    exact ⟨q, hq⟩
  rcases hHead with ⟨q, hq⟩
  rcases hSound.mem_of_head hq with ⟨hMem, rest, hStored⟩
  rcases List.append_of_mem hMem with ⟨as, bs, rfl⟩
  rcases Inv.dropFrom hSound hStored with
    ⟨d₀, hDrop₀, -, -, -, hInv₀⟩
  have hBare := @dropFrom_bare n α size d 0 r
  rw [hDrop, hDrop₀] at hBare
  exact ⟨_, .of_bare_eq hInv₀ (Option.some.inj hBare)⟩

/- Every state in which the loop of drops ends. -/
theorem Sound.shrink
    (hSound : d.Sound size order)
    {fuel : Nat}
    {drops : List (Fin n × α)}
    (hShrink : d.shrink size fuel = some (d', drops)) :
    ∃ order', d'.Sound size order' := by
  induction fuel generalizing d order drops with
  | zero =>
      unfold DRR.shrink at hShrink
      split_ifs at hShrink
      cases hShrink
      exact ⟨order, hSound⟩
  | succ fuel ih =>
      unfold DRR.shrink at hShrink
      split_ifs at hShrink
      · cases hShrink
        exact ⟨order, hSound⟩
      · rcases Option.bind_eq_some_iff.mp hShrink with
          ⟨r, -, hDrop⟩
        rcases Option.bind_eq_some_iff.mp hDrop with
          ⟨next, hNext, hLast⟩
        rcases Option.bind_eq_some_iff.mp hLast with
          ⟨last, hRest, hEq⟩
        cases hEq
        rcases hSound.dropFrom hNext with ⟨order₁, hSound₁⟩
        exact ih hSound₁ hRest

theorem Sound.enque
    (hSound : d.Sound size order)
    {which : Fin n}
    {pkt : α}
    {drops : List (Fin n × α)}
    (hEnque : d.enque size which pkt = some (d', drops)) :
    ∃ order', d'.Sound size order' := by
  rcases Option.bind_eq_some_iff.mp hEnque with
    ⟨d₁, hStore, hShrink⟩
  exact (hSound.store hStore).shrink hShrink

/- The bare queue gives its quantum to whoever needs it. -/
theorem Sound.serve
    {c : Fin n}
    (hSound : d.Sound size (c :: order))
    {pkt : α}
    {rest : List α}
    (hStored : d.stored c = pkt :: rest)
    {out : Option α}
    (hServe : d.serve size c pkt = some (d', out)) :
    ∃ order', d'.Sound size order' := by
  have hSaved :
      size pkt ≤
        (((d.bare (size pkt)).drr c).granted
          (d.bare (size pkt)).quantum).deficitCounter := by
    change size pkt ≤ 0 + size pkt
    omega
  rcases Inv.serve (hSound.inv_bare (size pkt)) hStored
      hSaved with
    ⟨d₀, hServe₀, -, -, -, -, -, -, hInv₀⟩
  have hBare := @serve_bare n α size d (size pkt) c pkt
  rw [hServe, hServe₀] at hBare
  exact ⟨_, .of_bare_eq hInv₀ (Option.some.inj hBare)⟩

theorem Sound.pass
    {c : Fin n}
    (hSound : d.Sound size (c :: order)) :
    (d.pass c).Sound size (order ++ [c]) := by
  have hInv := (Inv.pass (hSound.inv_bare 1) Int.one_pos).2
  exact .of_bare_eq hInv (pass_bare d 1 c)

/- Every state in which the loop of turns ends. -/
theorem Sound.dequeLoop
    (hSound : d.Sound size order)
    {fuel : Nat}
    {out : Option α}
    (hLoop : d.dequeLoop size fuel = some (d', out)) :
    ∃ order', d'.Sound size order' := by
  induction fuel generalizing d order with
  | zero => cases hLoop
  | succ fuel ih =>
      unfold DRR.dequeLoop at hLoop
      rcases Option.bind_eq_some_iff.mp hLoop with
        ⟨c, hCurr, hTurn⟩
      rcases Option.bind_eq_some_iff.mp hTurn with
        ⟨pkt, hHead, hServe⟩
      rcases hSound.mem_of_head hHead with ⟨-, rest, hStored⟩
      have hFirst : order.head? = some c :=
        hSound.curr.symm.trans hCurr
      rcases List.head?_eq_some_iff.mp hFirst with
        ⟨order, rfl⟩
      split_ifs at hServe
      · exact hSound.serve hStored hServe
      · exact ih hSound.pass hServe

theorem Sound.deque
    (hSound : d.Sound size order)
    {out : Option α}
    (hDeque : d.deque size = some (d', out)) :
    ∃ order', d'.Sound size order' := by
  unfold DRR.deque at hDeque
  split_ifs at hDeque
  · cases hDeque
    exact ⟨order, hSound⟩
  · exact hSound.dequeLoop hDeque

/- What is left of a queue without packets. -/
theorem Sound.drained
    (hSound : d.Sound size order)
    (hEmpty : ∀ i, d.stored i = []) :
    d.curr = none ∧ d.bytecnt = 0 ∧ d.pktcnt = 0 ∧
      d.flwcnt = 0 ∧ ∀ i, (d.drr i).pkts = 0 := by
  have hPkts : ∀ i, (d.drr i).pkts = 0 := by
    intro i
    have hCount := hSound.pkts i
    change (d.drr i).pkts = ((d.stored i).length : Int)
      at hCount
    rw [hCount, hEmpty]
    rfl
  have hBcount : ∀ i, (d.drr i).bcount = 0 := by
    intro i
    have hCount := hSound.bcount i
    change (d.drr i).bcount = bytes size (d.stored i) at hCount
    rw [hCount, hEmpty]
    rfl
  have hOrder : order = [] := by
    apply List.eq_nil_iff_forall_not_mem.mpr
    intro i hi
    exact (hSound.mem i).mp hi (hEmpty i)
  subst hOrder
  refine ⟨hSound.curr, ?_, ?_, hSound.flwcnt, hPkts⟩
  · exact hSound.bytecnt.trans
      (Finset.sum_eq_zero fun i _ => hBcount i)
  · exact hSound.pktcnt.trans
      (Finset.sum_eq_zero fun i _ => hPkts i)

end DRR

end Ns2
