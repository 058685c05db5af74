import Mathlib.Algebra.Order.BigOperators.Group.List
import Mathlib.Algebra.Order.Ring.Int
import Ns2.Lib.LinkedList

/-
  The list of packets of a queue.

  The packets are linked by a pointer that each of them
  carries, so the pointers are a table over all packets, and
  a packet that is not in the list may point anywhere.  The
  list keeps pointers to both ends and counts its packets and
  bytes.  A loop that would not end, and a call that aborts,
  have no result.

  Main declarations:
    * `PacketQueue`
    * `PacketQueue.enque`, `PacketQueue.deque`
    * `PacketQueue.remove`, `PacketQueue.removeAfter`
    * `PacketQueue.Holds`
-/

------------------------------------------------------------
-- Operations
------------------------------------------------------------

namespace Ns2

structure PacketQueue (α : Type) where
  head : Option α
  tail : Option α
  next : α → Option α
  len : Int
  bytes : Int

namespace PacketQueue

variable {α : Type}

def new (next : α → Option α) : PacketQueue α :=
  ⟨none, none, next, 0, 0⟩

/- The stored packets, from the head on. -/
def packets (q : PacketQueue α) : List α :=
  LinkedList.walk q.next q.len.toNat q.head

/- Follow the pointers for `n` packets. -/
def lookupFrom
    (q : PacketQueue α) :
    Nat → Option α → Option α
| 0, p => p
| _ + 1, none => none
| n + 1, some p => q.lookupFrom n (q.next p)

def lookup
    (q : PacketQueue α)
    (n : Nat) : Option α :=
  q.lookupFrom n q.head

variable [DecidableEq α]
variable (size : α → Int)

/- Store a packet behind the others. -/
def enque
    (q : PacketQueue α)
    (p : α) : PacketQueue α :=
  let q :=
    match q.tail with
    | none => { q with head := some p, tail := some p }
    | some t =>
        { q with
          next := Function.update q.next t (some p)
          tail := some p }
  { q with
    next := Function.update q.next p none
    len := q.len + 1
    bytes := q.bytes + size p }

/- Take the first packet. -/
def deque
    (q : PacketQueue α) : PacketQueue α × Option α :=
  match q.head with
  | none => (q, none)
  | some p =>
      let q :=
        if q.tail = some p then
          { q with head := none, tail := none }
        else { q with head := q.next p }
      ({ q with len := q.len - 1, bytes := q.bytes - size p },
        some p)

/- Store a packet before the others. -/
def enqueHead
    (q : PacketQueue α)
    (p : α) : PacketQueue α :=
  let q :=
    if q.head = none then { q with tail := some p } else q
  { q with
    next := Function.update q.next p q.head
    head := some p
    len := q.len + 1
    bytes := q.bytes + size p }

/- Take the packet behind `pp` out. -/
def unlink
    (q : PacketQueue α)
    (p pp : α) : PacketQueue α :=
  { q with
    tail := if q.tail = some p then some pp else q.tail
    next := Function.update q.next pp (q.next p)
    len := q.len - 1
    bytes := q.bytes - size p }

/- Look for the packet behind `pp`; a missing one aborts. -/
def removeFrom
    (q : PacketQueue α)
    (target : α) :
    Nat → Option α → Option α → Option (PacketQueue α)
| 0, _, _ => none
| _ + 1, _, none => none
| fuel + 1, pp, some p =>
    if p = target then
      match pp with
      | none => some (q.deque size).1
      | some pp => some (q.unlink size p pp)
    else q.removeFrom target fuel (some p) (q.next p)

/- Take a packet out, which has to be in the list. -/
def remove
    (q : PacketQueue α)
    (target : α) : Option (PacketQueue α) :=
  q.removeFrom size target (q.len.toNat + 1) none q.head

/- Take out a packet that is behind `prev`, or the head. -/
def removeAfter
    (q : PacketQueue α)
    (pkt prev : α) : PacketQueue α :=
  if q.head = some pkt then (q.deque size).1
  else q.unlink size pkt prev

end PacketQueue

end Ns2

------------------------------------------------------------
-- Invariant
------------------------------------------------------------

namespace Ns2

namespace PacketQueue

open LinkedList

variable {α : Type}

/- The list stores the packets `xs`, in this order. -/
structure Holds
    (size : α → Int)
    (q : PacketQueue α)
    (xs : List α) : Prop where
  nodup : xs.Nodup
  forward : Seg q.next q.head xs none
  tail : q.tail = xs.getLast?
  len : q.len = xs.length
  bytes : q.bytes = (xs.map size).sum

variable {size : α → Int}
variable {q : PacketQueue α}
variable {xs as bs : List α}
variable {x p : α}

theorem holds_new (next : α → Option α) :
    (new next).Holds size [] :=
  ⟨List.nodup_nil, rfl, rfl, rfl, rfl⟩

theorem Holds.packets_eq
    (hHolds : q.Holds size xs) :
    q.packets = xs := by
  have hLength : q.len.toNat = xs.length := by
    rw [hHolds.len]
    rfl
  unfold packets
  rw [hLength]
  exact hHolds.forward.walk_eq

theorem Holds.head_eq
    (hHolds : q.Holds size xs) :
    q.head = xs.head? :=
  hHolds.forward.first_eq

theorem lookupFrom_spec
    {p : Option α}
    (hSeg : Seg q.next p xs none)
    (n : Nat) :
    q.lookupFrom n p = xs[n]? := by
  induction xs generalizing p n with
  | nil =>
      cases hSeg
      cases n with
      | zero => rfl
      | succ n => rfl
  | cons x xs ih =>
      rcases hSeg with ⟨rfl, hRest⟩
      cases n with
      | zero => rfl
      | succ n => exact ih hRest n

theorem Holds.lookup_eq
    (hHolds : q.Holds size xs)
    (n : Nat) :
    q.lookup n = xs[n]? :=
  lookupFrom_spec hHolds.forward n

variable [DecidableEq α]

/- A packet that is not stored may point anywhere. -/
theorem Holds.update
    (hHolds : q.Holds size xs)
    (hNew : p ∉ xs)
    (v : Option α) :
    { q with
      next := Function.update q.next p v }.Holds size xs :=
  ⟨hHolds.nodup, hHolds.forward.update hNew, hHolds.tail,
    hHolds.len, hHolds.bytes⟩

theorem Holds.enque
    (hHolds : q.Holds size xs)
    (hNew : p ∉ xs) :
    (q.enque size p).Holds size (xs ++ [p]) := by
  have hTail := hHolds.tail
  have hNodup : (xs ++ [p]).Nodup := by
    rw [List.nodup_append]
    refine ⟨hHolds.nodup, List.nodup_singleton p, ?_⟩
    intro y hy z hz hEq
    rw [List.mem_singleton.mp hz] at hEq
    exact hNew (hEq ▸ hy)
  have hLen : q.len + 1 = ((xs ++ [p]).length : Int) := by
    rw [hHolds.len, List.length_append]
    rfl
  have hBytes : q.bytes + size p =
      ((xs ++ [p]).map size).sum := by
    rw [hHolds.bytes, List.map_append, List.sum_append]
    simp
  have hLast : (xs ++ [p]).getLast? = some p :=
    List.getLast?_concat
  rcases List.eq_nil_or_concat xs with rfl | ⟨ys, a, rfl⟩
  · have hEmpty : q.tail = none := hTail
    unfold PacketQueue.enque
    rw [hEmpty]
    refine ⟨hNodup, ⟨rfl, ?_⟩, hLast.symm, hLen, hBytes⟩
    exact Function.update_self p none q.next
  · rw [List.concat_eq_append] at *
    have hSome : q.tail = some a := by
      rw [hTail, List.getLast?_concat]
    unfold PacketQueue.enque
    rw [hSome]
    exact ⟨hNodup, hHolds.forward.concat hHolds.nodup hNew,
      hLast.symm, hLen, hBytes⟩

theorem Holds.deque_nil
    (hHolds : q.Holds size []) :
    q.deque size = (q, none) := by
  have hEmpty : q.head = none := hHolds.head_eq
  unfold PacketQueue.deque
  rw [hEmpty]

theorem Holds.deque_cons
    (hHolds : q.Holds size (x :: xs)) :
    ∃ q', q.deque size = (q', some x) ∧
      q'.Holds size xs := by
  have hHead : q.head = some x := hHolds.head_eq
  have hNodup := List.nodup_cons.mp hHolds.nodup
  have hTail := hHolds.tail
  have hLen : q.len - 1 = (xs.length : Int) := by
    rw [hHolds.len, List.length_cons]
    push_cast
    omega
  have hBytes : q.bytes - size x = (xs.map size).sum := by
    rw [hHolds.bytes, List.map_cons, List.sum_cons]
    omega
  unfold PacketQueue.deque
  rw [hHead]
  refine ⟨_, rfl, ?_⟩
  cases xs with
  | nil =>
      have hLast : q.tail = some x := hTail
      rw [if_pos hLast]
      exact ⟨List.nodup_nil, rfl, rfl, hLen, hBytes⟩
  | cons y ys =>
      have hLast : q.tail ≠ some x := by
        rw [hTail, List.getLast?_cons_cons]
        intro hEq
        exact hNodup.1 (List.mem_of_getLast? hEq)
      rw [if_neg hLast]
      refine ⟨hNodup.2, hHolds.forward.2, ?_, hLen, hBytes⟩
      rw [← List.getLast?_cons_cons (a := x)]
      exact hTail

theorem Holds.enqueHead
    (hHolds : q.Holds size xs)
    (hNew : p ∉ xs) :
    (q.enqueHead size p).Holds size (p :: xs) := by
  have hHead := hHolds.head_eq
  have hLen : q.len + 1 = ((p :: xs).length : Int) := by
    rw [hHolds.len]
    rfl
  have hBytes : q.bytes + size p =
      ((p :: xs).map size).sum := by
    rw [hHolds.bytes, List.map_cons, List.sum_cons]
    omega
  unfold PacketQueue.enqueHead
  cases xs with
  | nil =>
      have hEmpty : q.head = none := hHead
      rw [if_pos hEmpty]
      exact ⟨List.nodup_cons.mpr ⟨hNew, hHolds.nodup⟩,
        hHolds.forward.cons hNew, rfl, hLen, hBytes⟩
  | cons y ys =>
      have hSome : q.head ≠ none := by
        rw [hHead]
        exact Option.some_ne_none y
      rw [if_neg hSome]
      refine ⟨List.nodup_cons.mpr ⟨hNew, hHolds.nodup⟩,
        hHolds.forward.cons hNew, ?_, hLen, hBytes⟩
      rw [List.getLast?_cons_cons]
      exact hHolds.tail

/- The packet behind another one is taken out. -/
theorem Holds.unlink
    {a : α}
    (hHolds : q.Holds size (as ++ a :: x :: bs)) :
    (q.unlink size x a).Holds size (as ++ a :: bs) := by
  have hNodup := hHolds.nodup
  have hSub : (as ++ a :: bs).Sublist
      (as ++ a :: x :: bs) :=
    (List.Sublist.refl as).append
      ((List.sublist_cons_self x bs).cons_cons a)
  constructor
  case nodup => exact hNodup.sublist hSub
  case forward => exact hHolds.forward.skip hNodup
  case tail =>
    show (if q.tail = some x then some a else q.tail) = _
    rw [hHolds.tail]
    cases bs with
    | nil =>
        have hLast : (as ++ [a, x]).getLast? = some x := by
          simp
        rw [if_pos hLast]
        simp
    | cons b bs =>
        have hOther : x ∉ b :: bs := by
          have hBehind := (List.nodup_append.mp hNodup).2.1
          exact (List.nodup_cons.mp
            (List.nodup_cons.mp hBehind).2).1
        rw [List.getLast?_append_of_ne_nil _ (by simp),
          List.getLast?_append_of_ne_nil _ (by simp),
          List.getLast?_cons_cons, List.getLast?_cons_cons,
          List.getLast?_cons_cons, if_neg]
        intro hEq
        exact hOther (List.mem_of_getLast? hEq)
  case len =>
    show q.len - 1 = _
    rw [hHolds.len]
    simp only [List.length_append, List.length_cons]
    push_cast
    omega
  case bytes =>
    show q.bytes - size x = _
    rw [hHolds.bytes]
    simp only [List.map_append, List.map_cons,
      List.sum_append, List.sum_cons]
    omega

/- The search finds the packet behind those it has passed. -/
theorem Holds.removeFrom
    {fuel : Nat}
    {first : Option α}
    (hHolds : q.Holds size (as ++ bs ++ x :: xs))
    (hSeg : Seg q.next first (bs ++ x :: xs) none)
    (hFuel : bs.length < fuel) :
    ∃ q', q.removeFrom size x fuel as.getLast? first =
        some q' ∧
      q'.Holds size (as ++ bs ++ xs) := by
  induction bs generalizing as first fuel with
  | nil =>
      cases fuel with
      | zero => cases hFuel
      | succ fuel =>
          rcases hSeg with ⟨rfl, _⟩
          rw [List.append_nil] at hHolds ⊢
          unfold PacketQueue.removeFrom
          rw [if_pos rfl]
          rcases List.eq_nil_or_concat as with
            rfl | ⟨ys, a, rfl⟩
          · rcases hHolds.deque_cons with
              ⟨q', hDeque, hHolds'⟩
            refine ⟨q', ?_, hHolds'⟩
            show some (q.deque size).1 = some q'
            rw [hDeque]
          · rw [List.concat_eq_append] at hHolds ⊢
            rw [List.getLast?_concat]
            rw [List.append_assoc] at hHolds ⊢
            exact ⟨_, rfl, hHolds.unlink⟩
  | cons b bs ih =>
      cases fuel with
      | zero => cases hFuel
      | succ fuel =>
          rcases hSeg with ⟨rfl, hRest⟩
          have hNe : b ≠ x := by
            have hParts := List.nodup_append.mp hHolds.nodup
            intro hEq
            apply hParts.2.2 b (by simp) x List.mem_cons_self
            exact hEq
          unfold PacketQueue.removeFrom
          rw [if_neg hNe]
          have hMoved : as ++ b :: bs = (as ++ [b]) ++ bs := by
            simp
          rw [hMoved] at hHolds ⊢
          have hFound := ih hHolds hRest
            (Nat.lt_of_succ_lt_succ hFuel)
          rw [List.getLast?_concat] at hFound
          exact hFound

theorem Holds.remove
    (hHolds : q.Holds size (as ++ x :: bs)) :
    ∃ q', q.remove size x = some q' ∧
      q'.Holds size (as ++ bs) := by
  have hFuel : as.length < q.len.toNat + 1 := by
    have hLen := hHolds.len
    rw [List.length_append] at hLen
    omega
  have hAll : q.Holds size ([] ++ as ++ x :: bs) := hHolds
  exact hAll.removeFrom hHolds.forward hFuel

/- The packet behind another one, or the head, is removed. -/
theorem Holds.removeAfter
    {a : α}
    (hHolds : q.Holds size (as ++ a :: x :: bs)) :
    (q.removeAfter size x a).Holds size (as ++ a :: bs) := by
  have hNe : q.head ≠ some x := by
    rw [hHolds.head_eq]
    have hNodup := hHolds.nodup
    cases as with
    | nil =>
        intro hEq
        cases hEq
        exact (List.nodup_cons.mp hNodup).1 List.mem_cons_self
    | cons y ys =>
        intro hEq
        cases hEq
        apply (List.nodup_cons.mp hNodup).1
        simp
  unfold PacketQueue.removeAfter
  rw [if_neg hNe]
  exact hHolds.unlink

end PacketQueue

end Ns2
