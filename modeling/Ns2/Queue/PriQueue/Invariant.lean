import Ns2.Queue.PriQueue.Operations

/-
  What one operation of a queue does with its packets.

  Each operation stores every packet or sends it off once, in
  an order that keeps the ordinary packets in their places.

  Main declarations:
    * `PriQueue.Ready`, `PriQueue.Moved`
    * `PriQueue.Ready.recv`, `PriQueue.Ready.resume`
    * `PriQueue.Ready.filter`, `PriQueue.Ready.shrink_queue`
-/

------------------------------------------------------------
-- One Operation
------------------------------------------------------------

namespace Ns2

namespace PriQueue

variable {α : Type}
variable [DecidableEq α]

/- In packet mode the queue is not full. -/
def Fits
    (d : PriQueue α)
    (xs : List α) : Prop :=
  d.qib = false → (xs.length : Int) < max d.qlim 1

/- What holds between two operations. -/
structure Ready
    (access : α → HdrCmn)
    (d : PriQueue α)
    (xs : List α) : Prop where
  holds : d.q.Holds (size access) xs
  fits : d.Fits xs
  idle : d.blocked = false → xs = []

/- The settings are those of before. -/
structure SameSettings (d' d : PriQueue α) : Prop where
  unblockOnResume : d'.unblockOnResume = d.unblockOnResume
  qlim : d'.qlim = d.qlim
  dropFront : d'.dropFront = d.dropFront
  qib : d'.qib = d.qib
  meanPktsize : d'.meanPktsize = d.meanPktsize
  preferRoutingProtocols :
    d'.preferRoutingProtocols = d.preferRoutingProtocols

/- The packets that the link holds when the queue is blocked. -/
def held (blocked : Bool) : Nat :=
  if blocked then 1 else 0

/-
  An operation stored or sent off each packet once, and the
  ordinary packets did not change places.
-/
structure Moved
    (access : α → HdrCmn)
    (d d' : PriQueue α)
    (before after : List α)
    (m : Moves α) : Prop where
  ready : d'.Ready access after
  same : d'.SameSettings d
  perm : before.Perm
    (after ++ m.forwarded ++ m.dropped ++ m.filtered)
  order : ((m.forwarded ++ after).filter
    fun p => !d.prefers access p).Sublist
      (before.filter fun p => !d.prefers access p)

variable {access : α → HdrCmn}
variable {d : PriQueue α}
variable {xs : List α}
variable {p : α}

omit [DecidableEq α] in
theorem SameSettings.refl
    (d : PriQueue α)
    (q : PacketQueue α)
    (blocked : Bool) :
    { d with q := q, blocked := blocked }.SameSettings d :=
  ⟨rfl, rfl, rfl, rfl, rfl, rfl⟩

omit [DecidableEq α] in
theorem SameSettings.trans
    {d₁ d' : PriQueue α}
    (hNext : d'.SameSettings d₁)
    (hFirst : d₁.SameSettings d) :
    d'.SameSettings d :=
  ⟨hNext.unblockOnResume.trans hFirst.unblockOnResume,
    hNext.qlim.trans hFirst.qlim,
    hNext.dropFront.trans hFirst.dropFront,
    hNext.qib.trans hFirst.qib,
    hNext.meanPktsize.trans hFirst.meanPktsize,
    hNext.preferRoutingProtocols.trans
      hFirst.preferRoutingProtocols⟩

theorem enque_spec
    (hHolds : d.q.Holds (size access) xs)
    (hFits : d.Fits xs)
    (hNew : p ∉ xs) :
    ∃ q' dropped xs',
      d.enque access p = ({ d with q := q' }, dropped) ∧
      q'.Holds (size access) xs' ∧ d.Fits xs' ∧
      xs'.Sublist (xs ++ [p]) ∧
      (xs ++ [p]).Perm (xs' ++ dropped) := by
  have hStored := hHolds.enque hNew
  unfold PriQueue.enque
  by_cases hOver : d.overflows access p = true
  · rw [if_pos hOver]
    by_cases hFront : d.dropFront = true
    · have hFirst : ∃ y ys, xs ++ [p] = y :: ys ∧
          ys.length = xs.length := by
        cases xs with
        | nil => exact ⟨p, [], rfl, rfl⟩
        | cons y ys => exact ⟨y, ys ++ [p], rfl, by simp⟩
      rcases hFirst with ⟨y, ys, hEq, hLength⟩
      rw [hEq] at hStored ⊢
      rcases hStored.deque_cons with ⟨q', hDeque, hHolds'⟩
      rw [if_pos hFront, hDeque]
      refine ⟨q', [y], ys, rfl, hHolds', ?_,
        List.sublist_cons_self y ys,
        (List.perm_append_singleton y ys).symm⟩
      intro hPackets
      rw [hLength]
      exact hFits hPackets
    · rw [if_neg hFront]
      exact ⟨d.q, [p], xs, rfl, hHolds, hFits,
        List.sublist_append_left xs [p], List.Perm.refl _⟩
  · rw [if_neg hOver]
    refine ⟨_, [], xs ++ [p], rfl, hStored, ?_,
      List.Sublist.refl _, by rw [List.append_nil]⟩
    intro hPackets
    have hLen := hHolds.len
    unfold overflows at hOver
    rw [hPackets] at hOver
    simp only [Bool.false_eq_true, if_false,
      decide_eq_true_eq, not_le] at hOver
    rw [List.length_append, List.length_singleton]
    push_cast
    omega

theorem enqueHead_spec
    (hHolds : d.q.Holds (size access) xs)
    (hFits : d.Fits xs)
    (hNew : p ∉ xs) :
    ∃ q' dropped xs',
      d.enqueHead access p =
        some ({ d with q := q' }, dropped) ∧
      q'.Holds (size access) xs' ∧ d.Fits xs' ∧
      xs'.Sublist (p :: xs) ∧
      (p :: xs).Perm (xs' ++ dropped) := by
  have hStored := hHolds.enqueHead hNew
  have hLen := hStored.len
  unfold PriQueue.enqueHead
  dsimp only
  by_cases hOver : d.qlim ≤
      (d.q.enqueHead (size access) p).len
  · rw [if_pos hOver]
    rcases List.eq_nil_or_concat (p :: xs) with
      hNil | ⟨ys, y, hEq⟩
    · cases hNil
    · rw [List.concat_eq_append] at hEq
      have hLength := congrArg List.length hEq
      rw [List.length_append, List.length_cons,
        List.length_singleton] at hLength
      rw [hEq] at hStored hLen ⊢
      have hIndex : ((d.q.enqueHead (size access)
          p).len - 1).toNat = ys.length := by
        rw [hLen, List.length_append]
        simp
      have hLast : (d.q.enqueHead (size access) p).lookup
          ((d.q.enqueHead (size access) p).len - 1).toNat =
            some y := by
        rw [hIndex, hStored.lookup_eq]
        simp
      rcases hStored.remove with ⟨q', hRemove, hHolds'⟩
      simp only [hLast, hRemove, Option.bind_eq_bind,
        Option.bind_some]
      rw [List.append_nil] at hHolds'
      refine ⟨q', [y], ys, rfl, hHolds', ?_,
        List.sublist_append_left ys [y], List.Perm.refl _⟩
      intro hPackets
      have hOld := hFits hPackets
      omega
  · rw [if_neg hOver]
    refine ⟨_, [], p :: xs, rfl, hStored, ?_,
      List.Sublist.refl _, by rw [List.append_nil]⟩
    intro _
    rw [← hLen]
    omega

theorem sendOn_spec
    (hHolds : d.q.Holds (size access) xs) :
    ∃ q' blocked forwarded xs',
      d.sendOn access =
        ({ d with q := q', blocked := blocked }, forwarded) ∧
      q'.Holds (size access) xs' ∧ xs = forwarded ++ xs' ∧
      forwarded.length + held d.blocked = held blocked ∧
      (d.blocked = false → blocked = false → xs' = []) := by
  unfold sendOn
  cases hBlocked : d.blocked with
  | true =>
      refine ⟨d.q, true, [], xs, ?_, hHolds, rfl, rfl, ?_⟩
      · rw [if_pos rfl, ← hBlocked]
      · intro hNot
        cases hNot
  | false =>
      rw [if_neg Bool.false_ne_true]
      unfold PriQueue.deque
      cases xs with
      | nil =>
          rw [hHolds.deque_nil]
          refine ⟨d.q, false, [], [], ?_, hHolds, rfl, rfl,
            fun _ _ => rfl⟩
          rw [← hBlocked]
      | cons x xs =>
          rcases hHolds.deque_cons with ⟨q', hDeque, hHolds'⟩
          rw [hDeque]
          refine ⟨q', true, [x], xs, rfl, hHolds', rfl, rfl, ?_⟩
          intro _ hNot
          cases hNot

/- What is stored is sent on, unless the link is busy. -/
theorem moved_sendOn
    {q₁ : PacketQueue α}
    {before dropped xs₁ : List α}
    (hHolds : q₁.Holds (size access) xs₁)
    (hFits : d.Fits xs₁)
    (hPerm : before.Perm (xs₁ ++ dropped))
    (hOrder : (xs₁.filter fun p =>
      !d.prefers access p).Sublist
        (before.filter fun p => !d.prefers access p)) :
    ∃ d' forwarded after,
      { d with q := q₁ }.sendOn access = (d', forwarded) ∧
      Moved access d d' before after
        ⟨forwarded, dropped, []⟩ ∧
      forwarded.length + held d.blocked = held d'.blocked := by
  have hStored : { d with q := q₁ }.q.Holds (size access) xs₁ :=
    hHolds
  rcases sendOn_spec hStored with
    ⟨q', blocked, forwarded, xs', hSend, hHolds', hSplit,
      hHeld, hIdle⟩
  refine ⟨_, forwarded, xs', hSend, ?_, hHeld⟩
  rw [hSplit] at hFits hPerm hOrder
  constructor
  case ready =>
    refine ⟨hHolds', ?_, ?_⟩
    · intro hPackets
      have hLess := hFits hPackets
      rw [List.length_append] at hLess
      push_cast at hLess
      dsimp only
      omega
    · intro hFree
      cases hBlocked : d.blocked with
      | false => exact hIdle hBlocked hFree
      | true =>
          have hFree' : blocked = false := hFree
          simp [hBlocked, hFree', held] at hHeld
  case same => exact SameSettings.refl d q' blocked
  case perm =>
    rw [List.append_nil]
    exact hPerm.trans
      (List.perm_append_comm.append_right dropped)
  case order => exact hOrder

theorem Ready.recv
    (hReady : d.Ready access xs)
    (hNew : p ∉ xs) :
    ∃ d' m after, d.recv access p = some (d', m) ∧
      Moved access d d' (xs ++ [p]) after m ∧
      m.forwarded.length + held d.blocked =
        held d'.blocked := by
  unfold PriQueue.recv
  by_cases hPrefers : d.prefers access p = true
  · rcases enqueHead_spec hReady.holds hReady.fits hNew with
      ⟨q₁, dropped, xs₁, hEnque, hHolds₁, hFits₁, hSub,
        hPerm⟩
    have hLast : (xs ++ [p]).Perm (p :: xs) :=
      List.perm_append_singleton p xs
    have hOrder : (xs₁.filter fun p =>
        !d.prefers access p).Sublist ((xs ++ [p]).filter
          fun p => !d.prefers access p) := by
      have hFilter := hSub.filter fun p =>
        !d.prefers access p
      rw [List.filter_cons_of_neg (by simp [hPrefers])]
        at hFilter
      exact hFilter.trans
        ((List.sublist_append_left xs [p]).filter _)
    rcases moved_sendOn hHolds₁ hFits₁ (hLast.trans hPerm)
        hOrder with
      ⟨d', forwarded, after, hSend, hMoved, hHeld⟩
    refine ⟨d', ⟨forwarded, dropped, []⟩, after, ?_, hMoved,
      hHeld⟩
    unfold recvHighPriority
    simp only [if_pos hPrefers, hEnque, hSend,
      Option.bind_eq_bind, Option.bind_some]
    rfl
  · rcases enque_spec hReady.holds hReady.fits hNew with
      ⟨q₁, dropped, xs₁, hEnque, hHolds₁, hFits₁, hSub,
        hPerm⟩
    rcases moved_sendOn hHolds₁ hFits₁ hPerm (hSub.filter _)
      with ⟨d', forwarded, after, hSend, hMoved, hHeld⟩
    refine ⟨d', ⟨forwarded, dropped, []⟩, after, ?_, hMoved,
      hHeld⟩
    unfold recvOrdinary
    simp only [if_neg hPrefers, hEnque, hSend]

theorem Ready.resume
    (hReady : d.Ready access xs)
    (hBlocked : d.blocked = true)
    (hUnblock : d.unblockOnResume = true) :
    ∃ d' m after, d.resume access = (d', m) ∧
      Moved access d d' xs after m ∧
      m.forwarded.length = held d'.blocked := by
  unfold PriQueue.resume PriQueue.deque
  cases xs with
  | nil =>
      rw [hReady.holds.deque_nil]
      refine ⟨_, _, [], rfl, ⟨⟨hReady.holds, hReady.fits,
        fun _ => rfl⟩, SameSettings.refl d _ _,
        List.Perm.refl _, List.Sublist.refl _⟩, ?_⟩
      simp [held, hUnblock]
  | cons x xs =>
      rcases hReady.holds.deque_cons with
        ⟨q', hDeque, hHolds'⟩
      rw [hDeque]
      refine ⟨_, _, xs, rfl, ⟨⟨hHolds', ?_, ?_⟩,
        SameSettings.refl d q' d.blocked, ?_,
        List.Sublist.refl _⟩, ?_⟩
      · intro hPackets
        have hLess := hReady.fits hPackets
        rw [List.length_cons] at hLess
        push_cast at hLess
        dsimp only
        omega
      · intro hFree
        rw [hBlocked] at hFree
        cases hFree
      · simp only [List.append_nil]
        exact (List.perm_append_singleton x xs).symm
      · simp [held, hBlocked]

/- Packets are taken out without being sent on. -/
omit [DecidableEq α] in
theorem Ready.taken
    (hReady : d.Ready access xs)
    {q' : PacketQueue α}
    {xs' dropped filtered : List α}
    (hHolds : q'.Holds (size access) xs')
    (hSub : xs'.Sublist xs)
    (hPerm : xs.Perm (xs' ++ (dropped ++ filtered))) :
    Moved access d { d with q := q' } xs xs'
      ⟨[], dropped, filtered⟩ := by
  constructor
  case ready =>
    refine ⟨hHolds, ?_, ?_⟩
    · intro hPackets
      have hLess := hReady.fits hPackets
      have hShort := hSub.length_le
      dsimp only
      omega
    · intro hFree
      rw [hReady.idle hFree] at hSub
      exact List.sublist_nil.mp hSub
  case same => exact SameSettings.refl d q' d.blocked
  case perm =>
    rw [List.append_nil, List.append_assoc]
    exact hPerm
  case order => exact hSub.filter _

theorem resetLoop_spec
    {fuel : Nat}
    (hHolds : d.q.Holds (size access) xs)
    (hFuel : xs.length < fuel) :
    ∃ q', d.resetLoop access fuel =
        some ({ d with q := q' }, xs) ∧
      q'.Holds (size access) [] := by
  induction fuel generalizing d xs with
  | zero => cases hFuel
  | succ fuel ih =>
      unfold resetLoop PriQueue.deque
      cases xs with
      | nil =>
          rw [hHolds.deque_nil]
          exact ⟨d.q, rfl, hHolds⟩
      | cons x xs =>
          rcases hHolds.deque_cons with
            ⟨q₁, hDeque, hHolds₁⟩
          rw [hDeque]
          have hRest : { d with q := q₁ }.q.Holds
              (size access) xs := hHolds₁
          rcases ih hRest (Nat.lt_of_succ_lt_succ hFuel) with
            ⟨q', hLoop, hHolds'⟩
          refine ⟨q', ?_, hHolds'⟩
          dsimp only
          rw [hLoop]
          rfl

theorem Ready.reset
    (hReady : d.Ready access xs) :
    ∃ d' m after, d.reset access = some (d', m) ∧
      Moved access d d' xs after m ∧ m.forwarded = [] ∧
      d'.blocked = d.blocked := by
  have hFuel : xs.length < d.q.len.toNat + 1 := by
    rw [hReady.holds.len]
    omega
  rcases resetLoop_spec hReady.holds hFuel with
    ⟨q', hLoop, hHolds'⟩
  have hPerm : xs.Perm ([] ++ (xs ++ [])) := by simp
  refine ⟨_, _, [], ?_, hReady.taken hHolds'
    (List.nil_sublist xs) hPerm, rfl, rfl⟩
  unfold PriQueue.reset
  rw [hLoop]
  rfl

theorem filterLoop_spec
    (f : Nat → α → Bool)
    {fuel k : Nat}
    {q : PacketQueue α}
    {as bs : List α}
    (hHolds : q.Holds (size access) (as ++ bs))
    (hFuel : bs.length < fuel) :
    ∃ q' filtered kept,
      filterLoop access f fuel k as.length q =
        some (q', filtered) ∧
      q'.Holds (size access) (as ++ kept) ∧
      kept.Sublist bs ∧ bs.Perm (kept ++ filtered) := by
  induction fuel generalizing k q as bs with
  | zero => cases hFuel
  | succ fuel ih =>
      have hLen := hHolds.len
      rw [List.length_append] at hLen
      push_cast at hLen
      unfold filterLoop
      cases bs with
      | nil =>
          have hEnd : ¬ (as.length : Int) < q.len := by
            rw [hLen]
            simp
          rw [if_neg hEnd]
          exact ⟨q, [], [], rfl, hHolds, List.Sublist.refl _,
            List.Perm.refl _⟩
      | cons b bs =>
          have hMore : (as.length : Int) < q.len := by
            rw [hLen, List.length_cons]
            push_cast
            omega
          have hFuel' : bs.length < fuel :=
            Nat.lt_of_succ_lt_succ hFuel
          have hLookup : q.lookup as.length = some b := by
            rw [hHolds.lookup_eq]
            simp
          simp only [if_pos hMore, hLookup,
            Option.bind_eq_bind, Option.bind_some]
          by_cases hYes : f k b = true
          · rcases hHolds.remove with
              ⟨q₁, hRemove, hHolds₁⟩
            rcases ih (k := k + 1) hHolds₁ hFuel' with
              ⟨q', filtered, kept, hLoop, hHolds', hSub,
                hPerm⟩
            simp only [if_pos hYes, hRemove, hLoop,
              Option.bind_some]
            refine ⟨q', b :: filtered, kept, rfl, hHolds',
              hSub.cons b, ?_⟩
            exact (hPerm.cons b).trans
              List.perm_middle.symm
          · have hMoved : as ++ b :: bs =
                (as ++ [b]) ++ bs := by simp
            rw [hMoved] at hHolds
            rcases ih (k := k + 1) hHolds hFuel' with
              ⟨q', filtered, kept, hLoop, hHolds', hSub,
                hPerm⟩
            rw [List.length_append,
              List.length_singleton] at hLoop
            rw [if_neg hYes, hLoop]
            refine ⟨q', filtered, b :: kept, rfl, ?_,
              hSub.cons_cons b, hPerm.cons b⟩
            rw [List.append_assoc] at hHolds'
            exact hHolds'

theorem Ready.filter
    (hReady : d.Ready access xs)
    (f : Nat → α → Bool) :
    ∃ d' m after, d.filter access f = some (d', m) ∧
      Moved access d d' xs after m ∧ m.forwarded = [] ∧
      d'.blocked = d.blocked := by
  have hFuel : xs.length < d.q.len.toNat + 1 := by
    rw [hReady.holds.len]
    omega
  have hAll : d.q.Holds (size access) ([] ++ xs) :=
    hReady.holds
  rcases filterLoop_spec f (k := 0) hAll hFuel with
    ⟨q', filtered, kept, hLoop, hHolds', hSub, hPerm⟩
  have hTaken : xs.Perm (kept ++ ([] ++ filtered)) := hPerm
  refine ⟨_, _, kept, ?_, hReady.taken hHolds' hSub hTaken,
    rfl, rfl⟩
  unfold PriQueue.filter
  rw [List.length_nil] at hLoop
  rw [hLoop]
  rfl

/- The search ends at the first packet with the next hop. -/
omit [DecidableEq α] in
theorem findHop_spec
    {id : Int}
    {fuel : Nat}
    {q : PacketQueue α}
    {first : Option α}
    {as bs : List α}
    (hSeg : LinkedList.Seg q.next first bs none)
    (hFuel : bs.length < fuel) :
    findHop access q id fuel as.getLast? first = some none ∨
      ∃ front x behind, as ++ bs = front ++ x :: behind ∧
        findHop access q id fuel as.getLast? first =
          some (some (x, front.getLast?)) := by
  induction bs generalizing as first fuel with
  | nil =>
      cases fuel with
      | zero => cases hFuel
      | succ fuel =>
          cases hSeg
          exact Or.inl rfl
  | cons b bs ih =>
      cases fuel with
      | zero => cases hFuel
      | succ fuel =>
          rcases hSeg with ⟨rfl, hRest⟩
          unfold findHop
          by_cases hHop : (access b).nextHop = id
          · rw [if_pos hHop]
            exact Or.inr ⟨as, b, bs, rfl, rfl⟩
          · rw [if_neg hHop]
            have hMoved : as ++ b :: bs =
                (as ++ [b]) ++ bs := by simp
            have hLast : some b = (as ++ [b]).getLast? :=
              List.getLast?_concat.symm
            rw [hMoved, hLast]
            exact ih hRest (Nat.lt_of_succ_lt_succ hFuel)

theorem Ready.filterHop
    (hReady : d.Ready access xs)
    (id : Int) :
    ∃ d' m after, d.filterHop access id = some (d', m) ∧
      Moved access d d' xs after m ∧ m.forwarded = [] ∧
      d'.blocked = d.blocked := by
  have hFuel : xs.length < d.q.len.toNat + 1 := by
    rw [hReady.holds.len]
    omega
  have hFound :=
    @findHop_spec _ access id _ d.q d.q.head [] xs
      hReady.holds.forward hFuel
  unfold PriQueue.filterHop
  rcases hFound with hNone | ⟨front, x, behind, hEq, hSome⟩
  · rw [List.getLast?_nil] at hNone
    simp only [hNone, Option.bind_eq_bind, Option.bind_some]
    have hPerm : xs.Perm (xs ++ ([] ++ [])) := by simp
    exact ⟨_, _, xs, rfl, hReady.taken hReady.holds
      (List.Sublist.refl xs) hPerm, rfl, rfl⟩
  · rw [List.getLast?_nil] at hSome
    rw [List.nil_append] at hEq
    subst hEq
    have hSub : (front ++ behind).Sublist
        (front ++ x :: behind) :=
      (List.Sublist.refl front).append
        (List.sublist_cons_self x behind)
    have hPerm : (front ++ x :: behind).Perm
        (front ++ behind ++ ([] ++ [x])) :=
      List.perm_middle.trans
        (List.perm_append_singleton x _).symm
    rcases List.eq_nil_or_concat front with
      rfl | ⟨ys, a, rfl⟩
    · rcases hReady.holds.remove with
        ⟨q', hRemove, hHolds'⟩
      simp only [hSome, List.getLast?_nil, hRemove,
        Option.bind_eq_bind, Option.bind_some]
      exact ⟨_, _, _, rfl, hReady.taken hHolds' hSub hPerm,
        rfl, rfl⟩
    · rw [List.concat_eq_append] at *
      have hHolds := hReady.holds
      rw [List.append_assoc] at hHolds
      have hHolds' := hHolds.removeAfter
      simp only [hSome, List.getLast?_concat,
        Option.bind_eq_bind, Option.bind_some]
      have hJoin : ys ++ a :: behind =
          (ys ++ [a]) ++ behind := by simp
      rw [hJoin] at hHolds'
      exact ⟨_, _, _, rfl, hReady.taken hHolds' hSub hPerm,
        rfl, rfl⟩

theorem dropOne_spec
    (hHolds : d.q.Holds (size access) xs)
    (hNe : xs ≠ []) :
    ∃ q' y xs', d.dropOne access = some (q', y) ∧
      q'.Holds (size access) xs' ∧ xs'.Sublist xs ∧
      xs.Perm (y :: xs') := by
  unfold dropOne
  by_cases hFront : d.dropFront = true
  · rcases List.exists_cons_of_ne_nil hNe with ⟨y, ys, rfl⟩
    rcases hHolds.deque_cons with ⟨q', hDeque, hHolds'⟩
    rw [if_pos hFront, hDeque]
    exact ⟨q', y, ys, rfl, hHolds',
      List.sublist_cons_self y ys, List.Perm.refl _⟩
  · rcases List.eq_nil_or_concat xs with hNil | ⟨ys, y, rfl⟩
    · exact absurd hNil hNe
    · rw [List.concat_eq_append] at *
      have hTail : d.q.tail = some y := by
        rw [hHolds.tail, List.getLast?_concat]
      rcases hHolds.remove with ⟨q', hRemove, hHolds'⟩
      rw [List.append_nil] at hHolds'
      rw [if_neg hFront, hTail, Option.bind_some, hRemove]
      exact ⟨q', y, ys, rfl, hHolds',
        List.sublist_append_left ys [y],
        List.perm_append_singleton y ys⟩

theorem shrinkLoop_spec
    {fuel : Nat}
    (hHolds : d.q.Holds (size access) xs)
    (hLimit : 1 ≤ d.qlim)
    (hMean : d.qib = true → 0 ≤ d.meanPktsize)
    (hFuel : xs.length < fuel) :
    ∃ q' dropped xs',
      d.shrinkLoop access fuel =
        some ({ d with q := q' }, dropped) ∧
      q'.Holds (size access) xs' ∧ xs'.Sublist xs ∧
      xs.Perm (xs' ++ dropped) := by
  induction fuel generalizing d xs with
  | zero => cases hFuel
  | succ fuel ih =>
      unfold shrinkLoop
      by_cases hOver : d.exceeds = true
      · rw [if_pos hOver]
        have hNe : xs ≠ [] := by
          rintro rfl
          have hLen := hHolds.len
          have hBytes := hHolds.bytes
          rw [List.length_nil] at hLen
          rw [List.map_nil, List.sum_nil] at hBytes
          unfold exceeds at hOver
          split_ifs at hOver with hMode
          · have hProduct := mul_nonneg
              (show 0 ≤ d.qlim by omega) (hMean hMode)
            simp only [decide_eq_true_eq] at hOver
            omega
          · simp only [decide_eq_true_eq] at hOver
            omega
        rcases dropOne_spec hHolds hNe with
          ⟨q₁, y, xs₁, hDrop, hHolds₁, hSub₁, hPerm₁⟩
        have hFuel₁ : xs₁.length < fuel := by
          have hLength := hPerm₁.length_eq
          rw [List.length_cons] at hLength
          omega
        have hRest : { d with q := q₁ }.q.Holds
            (size access) xs₁ := hHolds₁
        rcases ih hRest hLimit hMean hFuel₁ with
          ⟨q', dropped, xs', hLoop, hHolds', hSub, hPerm⟩
        refine ⟨q', y :: dropped, xs', ?_, hHolds',
          hSub.trans hSub₁, ?_⟩
        · simp only [hDrop, hLoop, Option.bind_eq_bind,
            Option.bind_some]
          rfl
        · exact hPerm₁.trans ((hPerm.cons y).trans
            List.perm_middle.symm)
      · rw [if_neg hOver]
        exact ⟨d.q, [], xs, rfl, hHolds, List.Sublist.refl xs,
          by rw [List.append_nil]⟩

theorem Ready.shrink_queue
    (hReady : d.Ready access xs)
    (hLimit : 1 ≤ d.qlim)
    (hMean : d.qib = true → 0 ≤ d.meanPktsize) :
    ∃ d' m after, d.shrink_queue access = some (d', m) ∧
      Moved access d d' xs after m ∧ m.forwarded = [] ∧
      d'.blocked = d.blocked := by
  have hFuel : xs.length < d.q.len.toNat + 1 := by
    rw [hReady.holds.len]
    omega
  rcases shrinkLoop_spec hReady.holds hLimit hMean hFuel with
    ⟨q', dropped, xs', hLoop, hHolds', hSub, hPerm⟩
  have hTaken : xs.Perm (xs' ++ (dropped ++ [])) := by
    rw [List.append_nil]
    exact hPerm
  refine ⟨_, _, xs', ?_, hReady.taken hHolds' hSub hTaken,
    rfl, rfl⟩
  unfold PriQueue.shrink_queue
  rw [hLoop]
  rfl

end PriQueue

end Ns2
