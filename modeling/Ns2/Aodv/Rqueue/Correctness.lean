import Ns2.Aodv.Rqueue.Operations
import Ns2.Lib.PartialRun
import Mathlib.Data.List.TakeWhile

/-
  The queue of an agent is a list of its packets, in the order
  in which they came, and a packet gets lost only where it has
  become too old.

  Main declarations:
    * `AodvRqueue.Holds`
    * `Buffering`, `Buffering.call`

  Correctness is proven by:
    * `AodvRqueue.Holds.purge`
    * `AodvRqueue.Holds.dequeDst`
    * `Buffering.rqueue_conserves`
-/

------------------------------------------------------------
-- Lists of packets
------------------------------------------------------------

namespace Ns2

namespace AodvRqueue

open LinkedList

variable {α κ : Type}
variable {q : AodvRqueue α κ}
variable {xs as bs : List α}
variable {x p : α}

/- The queue stores the packets `xs`, in this order. -/
structure Holds
    (q : AodvRqueue α κ)
    (xs : List α) : Prop where
  nodup : xs.Nodup
  forward : Seg q.next q.head xs none
  tail : q.tail = xs.getLast?
  len : q.len = xs.length

theorem Holds.toNat_len
    (hHolds : q.Holds xs) :
    q.len.toNat = xs.length := by
  rw [hHolds.len]
  rfl

theorem Holds.packets_eq
    (hHolds : q.Holds xs) :
    q.packets = xs := by
  unfold packets
  rw [hHolds.toNat_len]
  exact hHolds.forward.walk_eq

theorem Holds.head_eq
    (hHolds : q.Holds xs) :
    q.head = xs.head? :=
  hHolds.forward.first_eq

/- A walk that may go further ends with the list. -/
theorem walk_succ
    {next : α → Option α}
    {first : Option α}
    (hSeg : Seg next first xs none) :
    walk next (xs.length + 1) first = xs := by
  induction xs generalizing first with
  | nil =>
      cases hSeg
      rfl
  | cons x xs ih =>
      rcases hSeg with ⟨rfl, hRest⟩
      exact congrArg (x :: ·) (ih hRest)

theorem Holds.verifyQueue
    (hHolds : q.Holds xs) :
    q.verifyQueue := by
  unfold AodvRqueue.verifyQueue
  rw [hHolds.toNat_len, walk_succ hHolds.forward]
  exact ⟨hHolds.len.symm, hHolds.tail.symm⟩

/- The search ends at the first packet with the property. -/
theorem findFrom_spec
    {next : α → Option α}
    {here : α → Bool}
    {fuel : Nat}
    {first : Option α}
    (hSeg : Seg next first (bs ++ xs) none)
    (hBefore : ∀ b ∈ bs, here b = false)
    (hHere : ∀ x, xs.head? = some x → here x = true)
    (hFuel : bs.length < fuel) :
    findFrom next here fuel first as.getLast? =
      some (xs.head?, (as ++ bs).getLast?) := by
  induction bs generalizing as first fuel with
  | nil =>
      rw [List.append_nil]
      cases xs with
      | nil =>
          cases hSeg
          unfold findFrom
          rfl
      | cons x xs =>
          rcases hSeg with ⟨rfl, -⟩
          cases fuel with
          | zero => cases hFuel
          | succ fuel =>
              unfold findFrom
              rw [if_pos (hHere x rfl)]
              rfl
  | cons b bs ih =>
      rcases hSeg with ⟨rfl, hRest⟩
      cases fuel with
      | zero => cases hFuel
      | succ fuel =>
          have hNot : ¬ here b = true := by
            rw [hBefore b List.mem_cons_self]
            exact Bool.false_ne_true
          have hFound := @ih (as ++ [b]) fuel (next b) hRest
            (fun c hc => hBefore c (List.mem_cons_of_mem b hc))
            (Nat.lt_of_succ_lt_succ hFuel)
          rw [List.getLast?_concat, List.append_assoc] at hFound
          unfold findFrom
          rw [if_neg hNot]
          exact hFound

theorem Holds.find
    {here : α → Bool}
    (hHolds : q.Holds (as ++ bs))
    (hBefore : ∀ a ∈ as, here a = false)
    (hHere : ∀ b, bs.head? = some b → here b = true) :
    q.find here = some (bs.head?, as.getLast?) := by
  have hFuel : as.length < q.len.toNat + 1 := by
    rw [hHolds.toNat_len, List.length_append]
    omega
  exact @findFrom_spec _ bs [] as _ _ _ _ hHolds.forward
    hBefore hHere hFuel

/- A list up to the first element with a property. -/
theorem exists_first
    (here : α → Bool)
    (xs : List α) :
    ∃ as bs, xs = as ++ bs ∧
      (∀ a ∈ as, here a = false) ∧
        ∀ b, bs.head? = some b → here b = true := by
  refine ⟨xs.takeWhile (fun x => !here x),
    xs.dropWhile (fun x => !here x),
    List.takeWhile_append_dropWhile.symm, ?_, ?_⟩
  · intro a ha
    have hNot := List.mem_takeWhile_imp ha
    simpa using hNot
  · intro b hb
    have hHead := List.head?_dropWhile_not
      (fun x => !here x) xs
    rw [hb] at hHead
    simpa using hHead

variable [DecidableEq α]

theorem Holds.verified
    (hHolds : q.Holds xs) :
    q.verified = some q :=
  if_pos hHolds.verifyQueue

/- The fields that only one call changes. -/
structure Frame (q q' : AodvRqueue α κ) : Prop where
  ts : q'.ts = q.ts
  limit : q'.limit = q.limit
  timeout : q'.timeout = q.timeout

omit [DecidableEq α] in
theorem Frame.trans
    {q q' q'' : AodvRqueue α κ}
    (hFirst : Frame q q')
    (hSecond : Frame q' q'') :
    Frame q q'' :=
  ⟨hSecond.ts.trans hFirst.ts,
    hSecond.limit.trans hFirst.limit,
    hSecond.timeout.trans hFirst.timeout⟩

theorem remove_head_frame :
    Frame q q.remove_head.1 := by
  unfold remove_head
  dsimp only
  split_ifs <;> exact ⟨rfl, rfl, rfl⟩

theorem Holds.remove_head_nil
    (hHolds : q.Holds []) :
    q.remove_head.1.Holds [] ∧ q.remove_head.2 = none := by
  have hHead : q.head = none := hHolds.head_eq
  have hTail : q.tail = none := hHolds.tail
  have hLen : q.len = 0 := hHolds.len
  unfold remove_head
  dsimp only
  rw [hHead, hTail, if_pos rfl, if_pos rfl]
  exact ⟨⟨List.nodup_nil, rfl, rfl, hLen⟩, rfl⟩

theorem Holds.remove_head_cons
    (hHolds : q.Holds (x :: xs)) :
    q.remove_head.1.Holds xs ∧
      q.remove_head.2 = some x := by
  have hHead : q.head = some x := hHolds.head_eq
  have hTail := hHolds.tail
  have hNodup := List.nodup_cons.mp hHolds.nodup
  have hLen : q.len - 1 = xs.length := by
    rw [hHolds.len, List.length_cons]
    push_cast
    omega
  unfold remove_head
  dsimp only
  rw [hHead, if_neg (Option.some_ne_none x)]
  cases xs with
  | nil =>
      have hLast : q.tail = some x := hTail
      rw [if_pos hLast.symm]
      exact ⟨⟨List.nodup_nil, rfl, rfl, hLen⟩, rfl⟩
  | cons y ys =>
      have hLast : some x ≠ q.tail := by
        rw [hTail, List.getLast?_cons_cons]
        intro hEq
        exact hNodup.1 (List.mem_of_getLast? hEq.symm)
      rw [if_neg hLast]
      refine ⟨⟨hNodup.2, hHolds.forward.2, ?_, hLen⟩, rfl⟩
      rw [List.getLast?_cons_cons] at hTail
      exact hTail

/- The list without a packet that has been found in it. -/
theorem Holds.unlink
    (hHolds : q.Holds (as ++ x :: bs)) :
    ∃ q', q.unlink x as.getLast? = some q' ∧
      q'.Holds (as ++ bs) ∧ Frame q q' := by
  have hNodup := hHolds.nodup
  unfold AodvRqueue.unlink
  rcases List.eq_nil_or_concat as with rfl | ⟨ys, a, rfl⟩
  · have hHead : q.head = some x := hHolds.head_eq
    have hLinked : q.linked x none := hHead
    rw [List.getLast?_nil, if_pos hLinked, if_pos hHead]
    exact ⟨_, rfl, hHolds.remove_head_cons.1,
      remove_head_frame⟩
  · rw [List.concat_eq_append, List.append_assoc] at *
    have hSeg : Seg q.next q.head (ys ++ a :: x :: bs) none :=
      hHolds.forward
    have hLinked : q.linked x (some a) :=
      hSeg.at_node.2.1
    have hHead : q.head ≠ some x := by
      rw [hHolds.head_eq]
      cases ys with
      | nil =>
          intro hEq
          cases hEq
          exact (List.nodup_cons.mp hNodup).1
            List.mem_cons_self
      | cons y ys =>
          intro hEq
          cases hEq
          apply (List.nodup_cons.mp hNodup).1
          simp
    have hSub : (ys ++ a :: bs).Sublist
        (ys ++ a :: x :: bs) :=
      (List.Sublist.refl ys).append
        ((List.sublist_cons_self x bs).cons_cons a)
    have hLen : q.len - 1 = (ys ++ a :: bs).length := by
      rw [hHolds.len]
      simp only [List.length_append, List.length_cons,
        List.length_nil]
      push_cast
      omega
    rw [List.getLast?_concat, if_pos hLinked, if_neg hHead,
      Option.map_some]
    refine ⟨_, rfl, ?_, ?_⟩
    · split_ifs with hTail
      · have hLast : bs = [] := by
          by_contra hSome
          rw [hHolds.tail] at hTail
          have hIn : x ∈ bs := by
            rw [List.getLast?_append_of_ne_nil _ (by simp),
              List.singleton_append, List.getLast?_cons_cons]
              at hTail
            cases bs with
            | nil => exact absurd rfl hSome
            | cons b bs =>
                rw [List.getLast?_cons_cons] at hTail
                exact List.mem_of_getLast? hTail
          have hApart := (List.nodup_append.mp hNodup).2.1
          exact (List.nodup_cons.mp
            (List.nodup_cons.mp hApart).2).1 hIn
        subst hLast
        have hNext : q.next x = none :=
          (hSeg.at_node.2.2 : Seg q.next (q.next x) [] none)
        have hSkip := hSeg.skip hNodup
        rw [hNext] at hSkip
        refine ⟨hNodup.sublist hSub, hSkip, ?_, hLen⟩
        rw [List.singleton_append, List.getLast?_concat]
      · refine ⟨hNodup.sublist hSub, hSeg.skip hNodup, ?_, hLen⟩
        have hLast := hHolds.tail
        cases bs with
        | nil =>
            exfalso
            apply hTail
            rw [hLast]
            simp
        | cons b bs =>
            change q.tail = _
            rw [hLast]
            simp [List.getLast?_append]
    · split_ifs <;> exact ⟨rfl, rfl, rfl⟩

end AodvRqueue

end Ns2

------------------------------------------------------------
-- Calls
------------------------------------------------------------

namespace Ns2

namespace AodvRqueue

open LinkedList

variable {α κ : Type}
variable [DecidableEq α]
variable [LinearOrder κ]
variable {q : AodvRqueue α κ}
variable {xs as bs : List α}
variable {x p : α}

omit [DecidableEq α] in
theorem Frame.aged
    {q' : AodvRqueue α κ}
    (hFrame : Frame q q')
    (now : κ) :
    q'.aged now = q.aged now := by
  funext p
  unfold AodvRqueue.aged
  rw [hFrame.ts]

/- The packets that are not too old stay, in their order. -/
theorem Holds.purgeLoop
    {now : κ}
    {fuel : Nat}
    (hHolds : q.Holds xs)
    (hFuel : xs.length ≤ fuel) :
    ∃ q', purgeLoop now fuel q = some q' ∧
      q'.Holds (xs.filter fun p => !q.aged now p) ∧
        Frame q q' := by
  induction fuel generalizing q xs with
  | zero =>
      have hNil : xs = [] := List.length_eq_zero_iff.mp
        (Nat.le_zero.mp hFuel)
      subst hNil
      have hFind := @Holds.find _ _ q [] [] (q.aged now) hHolds
        (fun _ h => absurd h List.not_mem_nil)
        (fun _ h => by cases h)
      unfold AodvRqueue.purgeLoop findAgedPacket
      rw [hFind]
      exact ⟨q, rfl, hHolds, rfl, rfl, rfl⟩
  | succ fuel ih =>
      rcases exists_first (q.aged now) xs with
        ⟨as, bs, rfl, hBefore, hHere⟩
      unfold AodvRqueue.purgeLoop findAgedPacket
      rw [hHolds.find hBefore hHere]
      cases bs with
      | nil =>
          refine ⟨q, rfl, ?_, rfl, rfl, rfl⟩
          rw [List.append_nil] at hHolds ⊢
          rw [List.filter_eq_self.mpr]
          · exact hHolds
          · intro a ha
            rw [hBefore a ha]
            rfl
      | cons b bs =>
          rcases hHolds.unlink with
            ⟨q₁, hUnlink, hHolds₁, hFrame₁⟩
          have hShorter : (as ++ bs).length ≤ fuel := by
            rw [List.length_append] at hFuel ⊢
            rw [List.length_cons] at hFuel
            omega
          rcases ih hHolds₁ hShorter with
            ⟨q', hLoop, hHolds', hFrame'⟩
          refine ⟨q', ?_, ?_, hFrame₁.trans hFrame'⟩
          · dsimp only [List.head?_cons]
            rw [hUnlink, Option.bind_some, hHolds₁.verified,
              Option.bind_some]
            exact hLoop
          · rw [hFrame₁.aged] at hHolds'
            rw [List.filter_append] at hHolds' ⊢
            rw [List.filter_cons_of_neg]
            · exact hHolds'
            · rw [hHere b rfl]
              exact Bool.false_ne_true

theorem Holds.purge
    (now : κ)
    (hHolds : q.Holds xs) :
    ∃ q', q.purge now = some q' ∧
      q'.Holds (xs.filter fun p => !q.aged now p) ∧
        Frame q q' :=
  hHolds.purgeLoop hHolds.toNat_len.ge

omit [LinearOrder κ] in
/- A packet that leads nowhere comes behind the others. -/
theorem Holds.append
    (hHolds : q.Holds xs)
    (hNew : p ∉ xs)
    (hNone : q.next p = none) :
    ∃ q', q.append p = some q' ∧ q'.Holds (xs ++ [p]) := by
  have hNodup : (xs ++ [p]).Nodup := by
    rw [List.nodup_append]
    refine ⟨hHolds.nodup, List.nodup_singleton p, ?_⟩
    intro y hy z hz hEq
    rw [List.mem_singleton.mp hz] at hEq
    exact hNew (hEq ▸ hy)
  have hLen : q.len + 1 = ((xs ++ [p]).length : Int) := by
    rw [hHolds.len, List.length_append]
    rfl
  have hLast : (xs ++ [p]).getLast? = some p :=
    List.getLast?_concat
  have hHead := hHolds.head_eq
  have hTail := hHolds.tail
  unfold AodvRqueue.append
  rcases List.eq_nil_or_concat xs with rfl | ⟨ys, a, rfl⟩
  · have hEmpty : q.head = none := hHead
    rw [hEmpty]
    exact ⟨_, rfl, hNodup, ⟨rfl, hNone⟩, hLast.symm, hLen⟩
  · rw [List.concat_eq_append] at *
    rw [List.getLast?_concat] at hTail
    have hSome : ∃ h, q.head = some h := by
      rw [hHead]
      cases ys with
      | nil => exact ⟨a, rfl⟩
      | cons y ys => exact ⟨y, rfl⟩
    rcases hSome with ⟨h, hh⟩
    have hNe : p ≠ a := by
      rintro rfl
      exact hNew (List.mem_append_right _
        (List.mem_singleton_self p))
    have hSeg := hHolds.forward.concat hHolds.nodup hNew
    have hSame : Function.update
        (Function.update q.next a (some p)) p none =
          Function.update q.next a (some p) := by
      rw [Function.update_eq_self_iff,
        Function.update_of_ne hNe]
      exact hNone.symm
    rw [hSame] at hSeg
    rw [hh, hTail]
    refine ⟨_, rfl, hNodup, ?_, hLast.symm, hLen⟩
    dsimp only
    rw [← hh]
    exact hSeg

omit [LinearOrder κ] in
theorem append_frame
    {q' : AodvRqueue α κ}
    (hAppend : q.append p = some q') :
    Frame q q' := by
  unfold AodvRqueue.append at hAppend
  split at hAppend
  · cases hAppend
    exact ⟨rfl, rfl, rfl⟩
  · cases hAppend
    exact ⟨rfl, rfl, rfl⟩
  · cases hAppend

omit [LinearOrder κ] in
theorem append_tail
    {q' : AodvRqueue α κ}
    (hAppend : q.append p = some q') :
    q'.tail = some p := by
  unfold AodvRqueue.append at hAppend
  split at hAppend
  · cases hAppend
    rfl
  · cases hAppend
    rfl
  · cases hAppend

/- A packet that is enqueued is the last one of the queue. -/
theorem enque_tail
    [Add κ]
    {now : κ}
    {r : Result α κ}
    (hEnque : q.enque now p = some r) :
    r.queue.tail = some p := by
  unfold AodvRqueue.enque at hEnque
  rcases Option.bind_eq_some_iff.mp hEnque with
    ⟨q₁, -, hEnque⟩
  rcases Option.bind_eq_some_iff.mp hEnque with
    ⟨r₁, -, hEnque⟩
  rcases Option.bind_eq_some_iff.mp hEnque with
    ⟨q₂, hAppend, hEnque⟩
  rcases Option.map_eq_some_iff.mp hEnque with
    ⟨q₃, hVerified, rfl⟩
  unfold AodvRqueue.verified at hVerified
  split at hVerified
  · cases hVerified
    exact append_tail hAppend
  · cases hVerified

omit [LinearOrder κ] in
theorem remove_head_next :
    q.remove_head.1.next = q.next := by
  unfold remove_head
  dsimp only
  split_ifs <;> rfl

/- The first packet has to go when the queue is full. -/
theorem Holds.makeRoom
    {now : κ}
    (hHolds : q.Holds xs)
    (hLimit : 0 < q.limit)
    (hFits : (xs.length : Int) ≤ q.limit) :
    ∃ r ys, q.makeRoom now = some r ∧ r.queue.Holds ys ∧
      r.returned = [] ∧ Frame q r.queue ∧
        r.queue.next = q.next ∧
          xs = r.dropped.map Prod.fst ++ ys ∧
            ((ys.length : Int) < q.limit) := by
  have hLen := hHolds.len
  unfold AodvRqueue.makeRoom
  split_ifs with hFull
  · cases xs with
    | nil =>
        rw [List.length_nil] at hLen
        exfalso
        omega
    | cons x xs =>
        rcases hHolds.remove_head_cons with ⟨hRest, hFirst⟩
        have hFrame := @remove_head_frame _ _ q _
        have hNext := @remove_head_next _ _ _ q
        rcases hRemove : q.remove_head with ⟨q', p0⟩
        rw [hRemove] at hRest hFirst hFrame hNext
        dsimp only at hRest hFirst hFrame hNext
        subst hFirst
        refine ⟨_, xs, rfl, hRest, rfl, hFrame, hNext, rfl, ?_⟩
        rw [List.length_cons] at hFits
        push_cast at hFits
        omega
  · refine ⟨_, xs, rfl, hHolds, rfl, ⟨rfl, rfl, rfl⟩, rfl, rfl,
      ?_⟩
    omega

/-
  What a call does to the packets: those that are too old are
  left out, and the others go on to be stored, returned or
  dropped.
-/
structure Buffers
    (q : AodvRqueue α κ)
    (xs more : List α)
    (now : κ)
    (r : Result α κ)
    (ys : List α) : Prop where
  holds : r.queue.Holds ys
  limit : r.queue.limit = q.limit
  fits : (ys.length : Int) ≤ q.limit
  order : ys.Sublist (xs ++ more)
  kept : ((xs.filter fun p => !q.aged now p) ++ more).Perm
    (ys ++ r.returned ++ r.dropped.map Prod.fst)

omit [DecidableEq α] in
theorem filter_length_le
    (now : κ)
    (hFits : (xs.length : Int) ≤ q.limit) :
    (((xs.filter fun p => !q.aged now p).length : Nat) : Int) ≤
      q.limit := by
  have hLe := List.length_filter_le
    (fun p => !q.aged now p) xs
  omega

theorem Holds.enque
    [Add κ]
    {now : κ}
    (hHolds : q.Holds xs)
    (hLimit : 0 < q.limit)
    (hFits : (xs.length : Int) ≤ q.limit)
    (hNew : p ∉ xs) :
    ∃ r ys, q.enque now p = some r ∧
      Buffers q xs [p] now r ys := by
  rcases hHolds.purge now with ⟨q₁, hPurge, hHolds₁, hFrame₁⟩
  have hNew₁ : p ∉ xs.filter fun p => !q.aged now p :=
    fun hIn => hNew (List.mem_filter.mp hIn).1
  have hReady : ({ q₁ with
      next := Function.update q₁.next p none
      ts := Function.update q₁.ts p (now + q₁.timeout) } :
        AodvRqueue α κ).Holds
      (xs.filter fun p => !q.aged now p) :=
    ⟨hHolds₁.nodup, hHolds₁.forward.update hNew₁,
      hHolds₁.tail, hHolds₁.len⟩
  have hLimit₁ := hFrame₁.limit
  have hFits₁ := @filter_length_le _ _ _ q xs now hFits
  rcases @Holds.makeRoom _ _ _ _ _ _ now hReady
    (by
      change 0 < q₁.limit
      omega)
    (by
      change _ ≤ q₁.limit
      omega) with
    ⟨r, ys, hRoom, hHolds₂, hReturned, hFrame₂, hNext, hSplit,
      hLess⟩
  have hNew₂ : p ∉ ys := by
    intro hIn
    apply hNew₁
    rw [hSplit]
    exact List.mem_append_right _ hIn
  have hNone : r.queue.next p = none := by
    rw [hNext]
    exact Function.update_self p none q₁.next
  rcases hHolds₂.append hNew₂ hNone with
    ⟨q', hAppend, hHolds'⟩
  have hLimit' : q'.limit = q.limit :=
    ((append_frame hAppend).limit.trans
      hFrame₂.limit).trans hLimit₁
  refine ⟨{ r with queue := q' }, ys ++ [p], ?_, hHolds',
    hLimit', ?_, ?_, ?_⟩
  · unfold AodvRqueue.enque
    rw [hPurge, Option.bind_some]
    dsimp only
    rw [hRoom, Option.bind_some, hAppend, Option.bind_some,
      hHolds'.verified]
    rfl
  · change _ < q₁.limit at hLess
    rw [List.length_append, List.length_singleton]
    push_cast
    omega
  · apply List.Sublist.append_right
    apply List.Sublist.trans _
      (List.filter_sublist (p := fun p => !q.aged now p))
    rw [hSplit]
    exact List.sublist_append_right _ ys
  · rw [hSplit]
    dsimp only
    rw [hReturned, List.append_nil, List.append_assoc]
    exact List.perm_append_comm

theorem Holds.deque
    {now : κ}
    (hHolds : q.Holds xs)
    (hFits : (xs.length : Int) ≤ q.limit) :
    ∃ r ys, q.deque now = some r ∧
      Buffers q xs [] now r ys ∧
        r.returned =
          (xs.filter fun p => !q.aged now p).head?.toList := by
  rcases hHolds.purge now with ⟨q₁, hPurge, hHolds₁, hFrame₁⟩
  have hFits₁ := @filter_length_le _ _ _ q xs now hFits
  have hSub := List.filter_sublist
    (p := fun p => !q.aged now p) (l := xs)
  unfold AodvRqueue.deque
  rw [hPurge, Option.bind_some]
  generalize hZs : (xs.filter fun p => !q.aged now p) = zs
    at hHolds₁ hFits₁ hSub ⊢
  have hLimit : q₁.remove_head.1.limit = q.limit :=
    remove_head_frame.limit.trans hFrame₁.limit
  cases zs with
  | nil =>
      rcases hHolds₁.remove_head_nil with ⟨hRest, hFirst⟩
      rw [hRest.verified, hFirst]
      refine ⟨_, [], rfl,
        ⟨hRest, hLimit, hFits₁, List.nil_sublist _, ?_⟩, rfl⟩
      rw [hZs]
      rfl
  | cons z zs =>
      rcases hHolds₁.remove_head_cons with ⟨hRest, hFirst⟩
      rw [hRest.verified, hFirst]
      refine ⟨_, zs, rfl,
        ⟨hRest, hLimit, ?_, ?_, ?_⟩, rfl⟩
      · rw [List.length_cons] at hFits₁
        push_cast at hFits₁
        omega
      · rw [List.append_nil]
        exact (List.sublist_cons_self z zs).trans hSub
      · rw [hZs]
        dsimp only [Option.toList_some]
        rw [List.append_nil, List.map_nil, List.append_nil]
        exact (List.perm_append_singleton z zs).symm

/- The oldest packet for the destination is returned. -/
theorem Holds.dequeDst
    {δ : Type}
    [DecidableEq δ]
    {now : κ}
    (daddr : α → δ)
    (dst : δ)
    (hHolds : q.Holds xs)
    (hFits : (xs.length : Int) ≤ q.limit) :
    ∃ r ys, q.dequeDst daddr now dst = some r ∧
      Buffers q xs [] now r ys ∧
        r.returned =
          ((xs.filter fun p => !q.aged now p).find?
            fun p => decide (daddr p = dst)).toList := by
  rcases hHolds.purge now with ⟨q₁, hPurge, hHolds₁, hFrame₁⟩
  have hFits₁ := @filter_length_le _ _ _ q xs now hFits
  have hSub := List.filter_sublist
    (p := fun p => !q.aged now p) (l := xs)
  unfold AodvRqueue.dequeDst
  rw [hPurge, Option.bind_some]
  generalize hZs : (xs.filter fun p => !q.aged now p) = zs
    at hHolds₁ hFits₁ hSub ⊢
  rcases exists_first (fun p => decide (daddr p = dst)) zs with
    ⟨as, bs, rfl, hBefore, hHere⟩
  have hFind := hHolds₁.find hBefore hHere
  have hNone : as.find? (fun p => decide (daddr p = dst)) =
      none := by
    rw [List.find?_eq_none]
    intro a ha
    rw [hBefore a ha]
    exact Bool.false_ne_true
  unfold findPacketWithDst
  rw [hFind, Option.bind_some, List.find?_append, hNone]
  cases bs with
  | nil =>
      rw [List.append_nil] at hHolds₁ hFits₁ hSub hZs
      refine ⟨_, as, rfl,
        ⟨hHolds₁, hFrame₁.limit, hFits₁, ?_, ?_⟩, rfl⟩
      · rw [List.append_nil]
        exact hSub
      · rw [hZs]
        dsimp only
        rw [List.append_nil, List.map_nil, List.append_nil]
  | cons b bs =>
      rcases hHolds₁.unlink with
        ⟨q₂, hUnlink, hHolds₂, hFrame₂⟩
      have hDst : daddr b = dst :=
        of_decide_eq_true (hHere b rfl)
      have hShorter : (as ++ bs).Sublist (as ++ b :: bs) :=
        (List.Sublist.refl as).append
          (List.sublist_cons_self b bs)
      dsimp only [List.head?_cons]
      rw [hUnlink, Option.bind_some, hHolds₂.verified,
        Option.map_some, List.find?_cons_of_pos (by simpa)]
      refine ⟨_, as ++ bs, rfl,
        ⟨hHolds₂, hFrame₂.limit.trans hFrame₁.limit, ?_, ?_, ?_⟩,
        rfl⟩
      · have hLe := hShorter.length_le
        omega
      · rw [List.append_nil]
        exact hShorter.trans hSub
      · rw [hZs]
        dsimp only
        rw [List.append_nil, List.map_nil, List.append_nil]
        exact List.perm_middle.trans
          (List.perm_append_singleton b (as ++ bs)).symm

end AodvRqueue

end Ns2

------------------------------------------------------------
-- Runs
------------------------------------------------------------

namespace Ns2

/- A queue, with what went into it and what came out. -/
structure Buffering (α κ : Type) where
  queue : AodvRqueue α κ
  enqueued : List α
  returned : List α
  dropped : List α

def AodvRqueue.Call.packets
    {α κ δ : Type} :
    AodvRqueue.Call α κ δ → List α
| .enque _ p => [p]
| _ => []

namespace Buffering

open AodvRqueue

variable {α κ δ : Type}

def start
    (next : α → Option α)
    (ts : α → κ)
    (AODV_RTQ_TIMEOUT : κ) : Buffering α κ :=
  ⟨.new next ts AODV_RTQ_TIMEOUT, [], [], []⟩

variable [DecidableEq α]
variable [LinearOrder κ]
variable [DecidableEq δ]

def call
    [Add κ]
    (daddr : α → δ)
    (b : Buffering α κ)
    (c : Call α κ δ) : Option (Buffering α κ) :=
  (b.queue.call daddr c).map fun r =>
    { queue := r.queue
      enqueued := b.enqueued ++ c.packets
      returned := b.returned ++ r.returned
      dropped := b.dropped ++ r.dropped.map Prod.fst }

/- A packet is not enqueued while it is stored. -/
def Allowed
    (b : Buffering α κ)
    (c : Call α κ δ) : Prop :=
  ∀ p ∈ c.packets, p ∉ b.queue.packets

/- No stored packet has become too old. -/
def Good
    (b : Buffering α κ)
    (c : Call α κ δ) : Prop :=
  ∀ p ∈ b.queue.packets, ¬ b.queue.aged c.now p = true

/- Every packet is stored, or was returned or dropped. -/
def Conserves (b : Buffering α κ) : Prop :=
  b.enqueued.Perm
    (b.queue.packets ++ b.returned ++ b.dropped)

/- What does not depend on how old the packets become. -/
structure Meets
    (daddr : α → δ)
    (b : Buffering α κ) : Prop where
  holds : b.queue.Holds b.queue.packets
  fits : b.queue.packets.length ≤ 64
  order : b.queue.packets.Sublist b.enqueued
  oldest : ∀ now dst, ∃ r,
    b.queue.dequeDst daddr now dst = some r ∧
      r.returned =
        ((b.queue.packets.filter fun p =>
          !b.queue.aged now p).find?
            fun p => decide (daddr p = dst)).toList

variable {daddr : α → δ}
variable {b b₀ : Buffering α κ}

/- The invariant, with the packets that got lost. -/
structure Inv
    [Add κ]
    (daddr : α → δ)
    (b₀ : Buffering α κ)
    (calls : List (Call α κ δ))
    (b : Buffering α κ) : Prop where
  run : PartialRun.run (call daddr) b₀ calls = some b
  holds : b.queue.Holds b.queue.packets
  limit : b.queue.limit = 64
  fits : (b.queue.packets.length : Int) ≤ 64
  order : b.queue.packets.Sublist b.enqueued
  lost : ∃ leaked,
    b.enqueued.Perm (b.queue.packets ++ b.returned ++
      b.dropped ++ leaked) ∧
    (leaked = [] ↔
      PartialRun.Throughout (call daddr) Good b₀ calls)

/- Every call does one thing to the packets. -/
theorem buffers_call
    [Add κ]
    {c : Call α κ δ}
    (hHolds : b.queue.Holds b.queue.packets)
    (hLimit : b.queue.limit = 64)
    (hFits : (b.queue.packets.length : Int) ≤ 64)
    (hAllowed : Allowed b c) :
    ∃ r ys, b.queue.call daddr c = some r ∧
      Buffers b.queue b.queue.packets c.packets c.now r ys := by
  rw [← hLimit] at hFits
  cases c with
  | enque now p =>
      have hPos : 0 < b.queue.limit := by
        omega
      exact hHolds.enque hPos hFits
        (hAllowed p (List.mem_singleton_self p))
  | deque now =>
      rcases @Holds.deque _ _ _ _ _ _ now hHolds hFits with
        ⟨r, ys, hCall, hBuffers, -⟩
      exact ⟨r, ys, hCall, hBuffers⟩
  | dequeDst now dst =>
      rcases @Holds.dequeDst _ _ _ _ _ _ _ _ now daddr dst
        hHolds hFits with ⟨r, ys, hCall, hBuffers, -⟩
      exact ⟨r, ys, hCall, hBuffers⟩

theorem Inv.call
    [Add κ]
    {before : List (Call α κ δ)}
    {c : Call α κ δ}
    (hInv : Inv daddr b₀ before b)
    (hAllowed : Allowed b c) :
    ∃ b', call daddr b c = some b' ∧
      Inv daddr b₀ (before ++ [c]) b' := by
  rcases @buffers_call _ _ _ _ _ _ daddr _ _ _ hInv.holds
    hInv.limit hInv.fits hAllowed with
    ⟨r, ys, hCall, hBuffers⟩
  have hPackets := hBuffers.holds.packets_eq
  have hStep : Buffering.call daddr b c = some
      { queue := r.queue
        enqueued := b.enqueued ++ c.packets
        returned := b.returned ++ r.returned
        dropped := b.dropped ++ r.dropped.map Prod.fst } := by
    unfold Buffering.call
    rw [hCall, Option.map_some]
  refine ⟨_, hStep, ?_⟩
  rcases hInv.lost with ⟨leaked, hPerm, hLeaked⟩
  constructor
  case run =>
    rw [PartialRun.run_append, hInv.run]
    simp only [Option.bind_some, PartialRun.run, hStep]
  case holds =>
    dsimp only
    rw [hPackets]
    exact hBuffers.holds
  case limit => exact hBuffers.limit.trans hInv.limit
  case fits =>
    dsimp only
    rw [hPackets, ← hInv.limit]
    exact hBuffers.fits
  case order =>
    dsimp only
    rw [hPackets]
    exact hBuffers.order.trans
      (hInv.order.append_right c.packets)
  case lost =>
    refine ⟨leaked ++ b.queue.packets.filter fun p =>
      b.queue.aged c.now p, ?_, ?_⟩
    · have hSplit := List.filter_append_perm
        (fun p => b.queue.aged c.now p) b.queue.packets
      have hKept := hBuffers.kept
      dsimp only
      rw [hPackets]
      rw [List.perm_iff_count] at hPerm hKept hSplit ⊢
      intro a
      have hPerm' := hPerm a
      have hKept' := hKept a
      have hSplit' := hSplit a
      simp only [List.count_append] at hPerm' hKept' hSplit' ⊢
      omega
    · rw [PartialRun.throughout_concat hInv.run, ← hLeaked,
        List.append_eq_nil_iff, List.filter_eq_nil_iff]
      exact Iff.rfl

theorem Inv.meets
    [Add κ]
    {calls : List (Call α κ δ)}
    (hInv : Inv daddr b₀ calls b) :
    b.Meets daddr := by
  have hFits := hInv.fits
  constructor
  case holds => exact hInv.holds
  case fits => omega
  case order => exact hInv.order
  case oldest =>
    intro now dst
    rw [← hInv.limit] at hFits
    rcases @Holds.dequeDst _ _ _ _ _ _ _ _ now daddr dst
      hInv.holds hFits with ⟨r, ys, hCall, -, hReturned⟩
    exact ⟨r, hCall, hReturned⟩

/-
  In every run the queue is a list of its packets, and no
  packet gets lost exactly when none becomes too old while it
  is stored.
-/
theorem rqueue_conserves
    [Add κ]
    {next : α → Option α}
    {ts : α → κ}
    {AODV_RTQ_TIMEOUT : κ}
    {calls : List (Call α κ δ)}
    (hCalls : PartialRun.Throughout (call daddr) Allowed
      (start next ts AODV_RTQ_TIMEOUT) calls) :
    ∃ b,
      PartialRun.run (call daddr)
          (start next ts AODV_RTQ_TIMEOUT) calls = some b ∧
        b.Meets daddr ∧
        (b.Conserves ↔
          PartialRun.Throughout (call daddr) Good
            (start next ts AODV_RTQ_TIMEOUT) calls) := by
  have hStart : Inv daddr (start next ts AODV_RTQ_TIMEOUT) []
      (start next ts AODV_RTQ_TIMEOUT) := by
    constructor
    case run => rfl
    case holds => exact ⟨List.nodup_nil, rfl, rfl, rfl⟩
    case limit => rfl
    case fits => exact Int.natCast_nonneg 64
    case order => exact List.Sublist.refl []
    case lost =>
      exact ⟨[], List.Perm.refl [],
        iff_of_true rfl (PartialRun.throughout_nil _)⟩
  rcases @PartialRun.progress _ _ (call daddr)
    (Inv daddr (start next ts AODV_RTQ_TIMEOUT))
    (fun _ b c => Allowed b c)
    (fun _ _ _ hInv hc => hInv.call hc) _ _ hStart hCalls with
    ⟨b, hRun, hInv⟩
  refine ⟨b, hRun, hInv.meets, ?_⟩
  rcases hInv.lost with ⟨leaked, hPerm, hLeaked⟩
  rw [← hLeaked]
  constructor
  · intro hConserves
    have hLength := (hConserves.symm.trans hPerm).length_eq
    rw [@List.length_append _ _ leaked] at hLength
    apply List.length_eq_zero_iff.mp
    omega
  · intro hNil
    rw [hNil, List.append_nil] at hPerm
    exact hPerm

/- An empty queue, for packets that are numbers. -/
def idle : Buffering Nat Int :=
  start (fun _ => none) (fun _ => 0) 30

/- The second packet leaves first, the first one stays. -/
theorem rqueue_conserves_two :
    ∃ b : Buffering Nat Int,
      PartialRun.run (call id) idle
          [.enque 0 1, .enque 5 2, .dequeDst 30 2] = some b ∧
        b.returned = [2] ∧ b.queue.packets = [1] ∧
        b.Meets id ∧ b.Conserves := by
  have hOne :
      (PartialRun.run (call id) idle
        ([.enque 0 1] : List (Call Nat Int Nat))).map
          (fun b => (b.queue.packets, b.queue.ts 1)) =
        some ([1], 30) := by
    decide +kernel
  have hTwo :
      (PartialRun.run (call id) idle
        ([.enque 0 1, .enque 5 2] :
          List (Call Nat Int Nat))).map
          (fun b => (b.queue.packets, b.queue.ts 1,
            b.queue.ts 2)) =
        some ([1, 2], 30, 35) := by
    decide +kernel
  have hThree :
      (PartialRun.run (call id) idle
        ([.enque 0 1, .enque 5 2, .dequeDst 30 2] :
          List (Call Nat Int Nat))).map
          (fun b => (b.returned, b.queue.packets)) =
        some ([2], [1]) := by
    decide +kernel
  have hSplits : ∀ before c after,
      ([.enque 0 1, .enque 5 2, .dequeDst 30 2] :
        List (Call Nat Int Nat)) = before ++ c :: after →
      before = [] ∧ c = .enque 0 1 ∨
        before = [.enque 0 1] ∧ c = .enque 5 2 ∨
          before = [.enque 0 1, .enque 5 2] ∧
            c = .dequeDst 30 2 := by
    intro before c after hEq
    rcases before with _ | ⟨c₁, _ | ⟨c₂, _ | ⟨c₃, before⟩⟩⟩
    · cases hEq
      exact Or.inl ⟨rfl, rfl⟩
    · cases hEq
      exact Or.inr (Or.inl ⟨rfl, rfl⟩)
    · cases hEq
      exact Or.inr (Or.inr ⟨rfl, rfl⟩)
    · have hNil := congrArg (List.drop 3) hEq
      exact absurd hNil.symm
        (List.append_ne_nil_of_right_ne_nil before
          (List.cons_ne_nil c after))
  have hRun := @rqueue_conserves Nat Int Nat _ _ _ id _
    (fun _ => none) (fun _ => 0) 30
    [.enque 0 1, .enque 5 2, .dequeDst 30 2] ?_
  · rcases hRun with ⟨b, hRun, hMeets, hConserves⟩
    change PartialRun.run (call id) idle _ = some b at hRun
    rw [hRun] at hThree
    have hBoth := Option.some.inj hThree
    refine ⟨b, hRun, congrArg Prod.fst hBoth,
      congrArg Prod.snd hBoth, hMeets, hConserves.mpr ?_⟩
    intro before c after b₁ hEq hBefore
    change PartialRun.run (call id) idle before = some b₁
      at hBefore
    rcases hSplits before c after hEq with
      ⟨rfl, rfl⟩ | ⟨rfl, rfl⟩ | ⟨rfl, rfl⟩
    · cases hBefore
      intro p hp
      cases hp
    · rw [hBefore] at hOne
      have hState := Option.some.inj hOne
      have hPackets : b₁.queue.packets = [1] :=
        congrArg Prod.fst hState
      have hTime : b₁.queue.ts 1 = 30 :=
        congrArg Prod.snd hState
      intro p hp
      rw [hPackets] at hp
      rw [List.mem_singleton.mp hp]
      simp [AodvRqueue.aged, Call.now, hTime]
    · rw [hBefore] at hTwo
      have hState := Option.some.inj hTwo
      have hPackets : b₁.queue.packets = [1, 2] :=
        congrArg Prod.fst hState
      have hTime : b₁.queue.ts 1 = 30 :=
        congrArg (fun s => s.2.1) hState
      have hLater : b₁.queue.ts 2 = 35 :=
        congrArg (fun s => s.2.2) hState
      intro p hp
      rw [hPackets] at hp
      rcases List.mem_cons.mp hp with rfl | hp
      · simp [AodvRqueue.aged, Call.now, hTime]
      · rw [List.mem_singleton.mp hp]
        simp [AodvRqueue.aged, Call.now, hLater]
  intro before c after b hEq hBefore
  change PartialRun.run (call id) idle before = some b
    at hBefore
  rcases hSplits before c after hEq with
    ⟨rfl, rfl⟩ | ⟨rfl, rfl⟩ | ⟨rfl, rfl⟩
  · cases hBefore
    intro p _ hp
    cases hp
  · rw [hBefore] at hOne
    have hPackets : b.queue.packets = [1] :=
      congrArg Prod.fst (Option.some.inj hOne)
    intro p hp
    rw [List.mem_singleton.mp hp, hPackets]
    decide
  · intro p hp
    cases hp

/- A packet that has become too old is nowhere any more. -/
theorem rqueue_loses_packet :
    ∃ b : Buffering Nat Int,
      PartialRun.run (call id) idle
          [.enque 0 1, .dequeDst 31 1] = some b ∧
        b.queue.packets = [] ∧ b.returned = [] ∧
        b.dropped = [] ∧ ¬ b.Conserves := by
  have hRun :
      (PartialRun.run (call id) idle
        ([.enque 0 1, .dequeDst 31 1] :
          List (Call Nat Int Nat))).map
          (fun b => (b.enqueued, b.queue.packets, b.returned,
            b.dropped)) =
        some ([1], [], [], []) := by
    decide +kernel
  rcases Option.map_eq_some_iff.mp hRun with ⟨b, hRun, hState⟩
  have hEnqueued : b.enqueued = [1] :=
    congrArg (fun s => s.1) hState
  have hPackets : b.queue.packets = [] :=
    congrArg (fun s => s.2.1) hState
  have hReturned : b.returned = [] :=
    congrArg (fun s => s.2.2.1) hState
  have hDropped : b.dropped = [] :=
    congrArg (fun s => s.2.2.2) hState
  refine ⟨b, hRun, hPackets, hReturned, hDropped, ?_⟩
  unfold Conserves
  rw [hEnqueued, hPackets, hReturned, hDropped]
  decide

end Buffering

end Ns2
