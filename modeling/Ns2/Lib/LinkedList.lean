import Mathlib.Data.List.Nodup
import Mathlib.Logic.Function.Basic
import Mathlib.Tactic.Common

/-
  Singly and doubly linked lists over a table of nodes.

  A list is a pointer to its first node and a successor for
  every node of the table; an absent pointer ends it.  A
  doubly linked list is a list over its nodes and another
  over the nodes in reverse, so every rule about the second
  is the rule about the first, read the other way.

  Main declarations:
    * `LinkedList.Seg`
    * `LinkedList.follow_spec`
    * `LinkedList.Seg.concat`, `LinkedList.Seg.skip`
    * `Links.Lists`
    * `Links.Lists.unlink`, `Links.Lists.insert`
-/

------------------------------------------------------------
-- Segments
------------------------------------------------------------

namespace LinkedList

variable {ι : Type*}

/- The nodes `xs` lead from pointer `p` to pointer `q`. -/
def Seg
    (next : ι → Option ι)
    (p : Option ι)
    (xs : List ι)
    (q : Option ι) : Prop :=
  match xs with
  | [] => p = q
  | x :: xs => p = some x ∧ Seg next (next x) xs q

variable {next next' : ι → Option ι}
variable {p q r v : Option ι}
variable {as bs xs : List ι} {x y : ι}

theorem Seg.append
    (hFront : Seg next p as q)
    (hBack : Seg next q bs r) :
    Seg next p (as ++ bs) r := by
  induction as generalizing p with
  | nil =>
      cases hFront
      exact hBack
  | cons a as ih => exact ⟨hFront.1, ih hFront.2⟩

theorem Seg.split
    (hSeg : Seg next p (as ++ bs) r) :
    ∃ q, Seg next p as q ∧ Seg next q bs r := by
  induction as generalizing p with
  | nil => exact ⟨p, rfl, hSeg⟩
  | cons a as ih =>
      rcases ih hSeg.2 with ⟨q, hFront, hBack⟩
      exact ⟨q, ⟨hSeg.1, hFront⟩, hBack⟩

/- The first pointer is the first node. -/
theorem Seg.first_eq
    (hSeg : Seg next p xs none) :
    p = xs.head? := by
  cases xs with
  | nil => exact hSeg
  | cons x xs => exact hSeg.1

/- The part of a list up to a node, and the part behind. -/
theorem Seg.at_node
    (hSeg : Seg next p (as ++ x :: bs) r) :
    Seg next p as (some x) ∧ Seg next (next x) bs r := by
  rcases hSeg.split with ⟨q, hFront, hNode, hBack⟩
  subst hNode
  exact ⟨hFront, hBack⟩

/- Nodes outside the list may change. -/
theorem Seg.congr
    (hSeg : Seg next p xs q)
    (hSame : ∀ y ∈ xs, next' y = next y) :
    Seg next' p xs q := by
  induction xs generalizing p with
  | nil => exact hSeg
  | cons x xs ih =>
      refine ⟨hSeg.1, ?_⟩
      rw [hSame x List.mem_cons_self]
      exact ih hSeg.2 fun y hy =>
        hSame y (List.mem_cons_of_mem x hy)

/- The pointers lead through one list only. -/
theorem Seg.unique
    {ys : List ι}
    (hSeg : Seg next p xs none)
    (hOther : Seg next p ys none) : xs = ys := by
  induction xs generalizing p ys with
  | nil =>
      have hEmpty : p = none := hSeg
      subst hEmpty
      cases ys with
      | nil => rfl
      | cons y ys => exact absurd hOther.1 nofun
  | cons x xs ih =>
      rcases hSeg with
        ⟨hHere, hRest⟩
      subst hHere
      cases ys with
      | nil => exact absurd hOther nofun
      | cons y ys =>
          rcases hOther with
            ⟨hSame, hOther⟩
          cases hSame
          exact congrArg (x :: ·) (ih hRest hOther)

/- Follow the pointers as long as the nodes are kept. -/
def follow
    (next : ι → Option ι)
    (keep : ι → Bool)
    (fuel : Nat)
    (p : Option ι) : Option (Option ι) :=
  match fuel with
  | 0 => none
  | fuel + 1 =>
      match p with
      | none => some none
      | some x =>
          if keep x then follow next keep fuel (next x)
          else some (some x)

/- The search ends at the first node that is not kept. -/
theorem follow_spec
    {keep : ι → Bool}
    {fuel : Nat}
    (hSeg : Seg next p (as ++ bs) none)
    (hKeep : ∀ a ∈ as, keep a = true)
    (hStop : ∀ b, bs.head? = some b → keep b = false)
    (hFuel : as.length < fuel) :
    follow next keep fuel p = some bs.head? := by
  induction as generalizing p fuel with
  | nil =>
      cases fuel with
      | zero => cases hFuel
      | succ fuel =>
          rw [List.nil_append] at hSeg
          have hFirst := hSeg.first_eq
          subst hFirst
          unfold follow
          cases hHead : bs.head? with
          | none => rfl
          | some b => simp [hStop b hHead]
  | cons a as ih =>
      cases fuel with
      | zero => cases hFuel
      | succ fuel =>
          rcases hSeg with ⟨rfl, hRest⟩
          unfold follow
          simp only [hKeep a List.mem_cons_self, if_true]
          apply ih hRest
          · intro b hb
            exact hKeep b (List.mem_cons_of_mem a hb)
          · simpa using hFuel

------------------------------------------------------------
-- Changing a Pointer
------------------------------------------------------------

/- The nodes of a list of a known number. -/
def walk
    (next : ι → Option ι) :
    Nat → Option ι → List ι
| 0, _ => []
| _ + 1, none => []
| n + 1, some x => x :: walk next n (next x)

theorem Seg.walk_eq
    (hSeg : Seg next p xs q) :
    walk next xs.length p = xs := by
  induction xs generalizing p with
  | nil => rfl
  | cons x xs ih =>
      rcases hSeg with ⟨rfl, hRest⟩
      exact congrArg (x :: ·) (ih hRest)

/- A walk along a list that ends, of at most `n` nodes. -/
theorem Seg.walk_take
    (hSeg : Seg next p xs none)
    (n : Nat) :
    walk next n p = xs.take n := by
  induction n generalizing p xs with
  | zero => rfl
  | succ n ih =>
      cases xs with
      | nil =>
          have hEnd : p = none := hSeg
          rw [hEnd]
          rfl
      | cons x xs =>
          rcases hSeg with ⟨rfl, hRest⟩
          exact congrArg (x :: ·) (ih hRest)

variable [DecidableEq ι]

/- Let the last node lead to `v`. -/
theorem Seg.redirect
    {a : ι}
    (hSeg : Seg next p (as ++ [a]) q)
    (hNew : a ∉ as) :
    Seg (Function.update next a v) p (as ++ [a]) v := by
  rcases hSeg.at_node with ⟨hFront, _⟩
  apply Seg.append (q := some a)
  · apply hFront.congr
    intro y hy
    apply Function.update_of_ne
    rintro rfl
    exact hNew hy
  · refine ⟨rfl, ?_⟩
    exact Function.update_self a v next

/- A node outside the list may lead anywhere. -/
theorem Seg.update
    (hSeg : Seg next p xs q)
    (hNew : y ∉ xs) :
    Seg (Function.update next y v) p xs q := by
  apply hSeg.congr
  intro x hx
  apply Function.update_of_ne
  rintro rfl
  exact hNew hx

/- Put a node behind the last one. -/
theorem Seg.concat
    {a : ι}
    (hSeg : Seg next p (as ++ [a]) none)
    (hNodup : (as ++ [a]).Nodup)
    (hNew : y ∉ as ++ [a]) :
    Seg (Function.update
      (Function.update next a (some y)) y none) p
        (as ++ [a] ++ [y]) none := by
  have hLast : a ∉ as := by
    intro ha
    exact (List.nodup_append.mp hNodup).2.2 a ha a
      (List.mem_singleton_self a) rfl
  apply Seg.append (q := some y)
  · exact (hSeg.redirect hLast).update hNew
  · refine ⟨rfl, ?_⟩
    exact Function.update_self y none
      (Function.update next a (some y))

/- Put a node before the first one. -/
theorem Seg.cons
    (hSeg : Seg next p xs q)
    (hNew : x ∉ xs) :
    Seg (Function.update next x p) (some x) (x :: xs) q := by
  refine ⟨rfl, ?_⟩
  rw [Function.update_self]
  exact hSeg.update hNew

/- Leave out the node behind `a`. -/
theorem Seg.skip
    {a : ι}
    (hSeg : Seg next p (as ++ a :: x :: bs) q)
    (hNodup : (as ++ a :: x :: bs).Nodup) :
    Seg (Function.update next a (next x)) p
      (as ++ a :: bs) q := by
  have hParts := List.nodup_append.mp hNodup
  have hBehind := (List.nodup_cons.mp hParts.2.1).1
  rcases hSeg.at_node with ⟨hFront, _, hBack⟩
  apply Seg.append (q := some a)
  · apply hFront.update
    intro ha
    exact hParts.2.2 a ha a List.mem_cons_self rfl
  · refine ⟨rfl, ?_⟩
    rw [Function.update_self]
    apply hBack.update
    intro ha
    exact hBehind (List.mem_cons_of_mem x ha)

end LinkedList

------------------------------------------------------------
-- Doubly Linked Lists
------------------------------------------------------------

/- Pointers to both ends, and each node's neighbours. -/
structure Links (ι : Type*) where
  first : Option ι
  last : Option ι
  next : ι → Option ι
  prev : ι → Option ι

namespace Links

open LinkedList

variable {ι : Type*}

def empty : Links ι :=
  ⟨none, none, fun _ => none, fun _ => none⟩

/- The same list read from its other end. -/
def swap (l : Links ι) : Links ι :=
  ⟨l.last, l.first, l.prev, l.next⟩

/- The list holds the nodes `xs`, in this order. -/
structure Lists
    (l : Links ι)
    (xs : List ι) : Prop where
  nodup : xs.Nodup
  forward : Seg l.next l.first xs none
  backward : Seg l.prev l.last xs.reverse none

variable {l : Links ι}
variable {as bs xs : List ι} {x : ι}

theorem lists_empty : (empty : Links ι).Lists [] :=
  ⟨List.nodup_nil, rfl, rfl⟩

theorem Lists.swap
    (hLists : l.Lists xs) :
    l.swap.Lists xs.reverse := by
  refine ⟨List.nodup_reverse.mpr hLists.nodup,
    hLists.backward, ?_⟩
  rw [List.reverse_reverse]
  exact hLists.forward

theorem Lists.first_eq
    (hLists : l.Lists xs) :
    l.first = xs.head? :=
  hLists.forward.first_eq

theorem Lists.last_eq
    (hLists : l.Lists xs) :
    l.last = xs.getLast? := by
  rw [← List.head?_reverse]
  exact hLists.swap.first_eq

theorem Lists.next_eq
    (hLists : l.Lists (as ++ x :: bs)) :
    l.next x = bs.head? :=
  hLists.forward.at_node.2.first_eq

theorem Lists.prev_eq
    (hLists : l.Lists (as ++ x :: bs)) :
    l.prev x = as.getLast? := by
  have hSwap := hLists.swap
  rw [List.reverse_append, List.reverse_cons,
    List.append_assoc] at hSwap
  rw [← List.head?_reverse]
  exact hSwap.next_eq

/- Nodes outside the list may change. -/
theorem Lists.congr
    {l' : Links ι}
    (hLists : l.Lists xs)
    (hFirst : l'.first = l.first)
    (hLast : l'.last = l.last)
    (hNext : ∀ y ∈ xs, l'.next y = l.next y)
    (hPrev : ∀ y ∈ xs, l'.prev y = l.prev y) :
    l'.Lists xs := by
  constructor
  case nodup => exact hLists.nodup
  case forward =>
    rw [hFirst]
    exact hLists.forward.congr hNext
  case backward =>
    rw [hLast]
    exact hLists.backward.congr fun y hy =>
      hPrev y (List.mem_reverse.mp hy)

end Links

------------------------------------------------------------
-- Changing Links
------------------------------------------------------------

namespace Links

open LinkedList

variable {ι : Type*}
variable [DecidableEq ι]

/- Let the pointer behind `p`, or the first one, be `v`. -/
def setNext
    (l : Links ι)
    (p v : Option ι) : Links ι :=
  match p with
  | some a => { l with next := Function.update l.next a v }
  | none => { l with first := v }

/- Let the pointer before `q`, or the last one, be `v`. -/
def setPrev
    (l : Links ι)
    (q v : Option ι) : Links ι :=
  match q with
  | some b => { l with prev := Function.update l.prev b v }
  | none => { l with last := v }

/- Take a node out. -/
def unlink
    (l : Links ι)
    (x : ι) : Links ι :=
  let l := l.setNext (l.prev x) (l.next x)
  l.setPrev (l.next x) (l.prev x)

/- Put a node between two neighbours. -/
def insert
    (l : Links ι)
    (p : Option ι)
    (x : ι)
    (q : Option ι) : Links ι :=
  let l :=
    { l with
      prev := Function.update l.prev x p
      next := Function.update l.next x q }
  (l.setNext p (some x)).setPrev q (some x)

variable {l : Links ι} {p q v : Option ι}
variable {as bs xs : List ι} {x : ι}

@[simp]
theorem setNext_prev :
    (l.setNext p v).prev = l.prev := by
  cases p <;> rfl

@[simp]
theorem setNext_last :
    (l.setNext p v).last = l.last := by
  cases p <;> rfl

@[simp]
theorem setPrev_next :
    (l.setPrev q v).next = l.next := by
  cases q <;> rfl

@[simp]
theorem setPrev_first :
    (l.setPrev q v).first = l.first := by
  cases q <;> rfl

theorem swap_setPrev :
    (l.setPrev q v).swap = l.swap.setNext q v := by
  cases q <;> rfl

theorem setNext_next_of_ne
    (hNe : p ≠ some x) :
    (l.setNext p v).next x = l.next x := by
  cases p with
  | none => rfl
  | some a =>
      apply Function.update_of_ne
      rintro rfl
      exact hNe rfl

omit [DecidableEq ι] in
theorem getLast?_ne_of_not_mem
    (hx : x ∉ as) :
    as.getLast? ≠ some x := by
  intro hLast
  exact hx (List.mem_of_getLast? hLast)

/- Let the nodes `as` lead to `v`. -/
theorem seg_setNext
    (hSeg : Seg l.next l.first as q)
    (hNodup : as.Nodup) :
    Seg (l.setNext as.getLast? v).next
      (l.setNext as.getLast? v).first as v := by
  rcases List.eq_nil_or_concat as with rfl | ⟨as, a, rfl⟩
  · rfl
  · rw [List.concat_eq_append] at hSeg hNodup ⊢
    rw [List.getLast?_concat]
    have hNotIn : a ∉ as := by
      intro hIn
      exact List.nodup_append.mp hNodup |>.2.2 a hIn a
        (List.mem_singleton_self a) rfl
    rcases hSeg.split with ⟨r, hFront, hLast, _⟩
    subst hLast
    apply Seg.append (q := some a)
    · exact hFront.update hNotIn
    · refine ⟨rfl, ?_⟩
      exact Function.update_self a v l.next

/- The links behind a node that is left out. -/
theorem seg_unlink
    (hSeg : Seg l.next l.first (as ++ x :: bs) none)
    (hNodup : (as ++ x :: bs).Nodup) :
    Seg (l.setNext as.getLast? bs.head?).next
      (l.setNext as.getLast? bs.head?).first
      (as ++ bs) none := by
  rcases hSeg.at_node with ⟨hFront, hBack⟩
  have hApart := List.nodup_append.mp hNodup
  rw [hBack.first_eq] at hBack
  apply Seg.append (q := bs.head?)
  · exact seg_setNext hFront hApart.1
  · apply hBack.congr
    intro y hy
    apply setNext_next_of_ne
    apply getLast?_ne_of_not_mem
    intro hIn
    exact hApart.2.2 y hIn y (List.mem_cons_of_mem x hy) rfl

/- The links behind a node that is put in. -/
theorem seg_insert
    (hSeg : Seg l.next l.first (as ++ bs) none)
    (hNodup : (as ++ x :: bs).Nodup)
    (hNext : l.next x = bs.head?) :
    Seg (l.setNext as.getLast? (some x)).next
      (l.setNext as.getLast? (some x)).first
      (as ++ x :: bs) none := by
  rcases hSeg.split with ⟨q, hFront, hBack⟩
  have hApart := List.nodup_append.mp hNodup
  rw [hBack.first_eq] at hBack
  have hSame : ∀ y ∈ x :: bs,
      (l.setNext as.getLast? (some x)).next y = l.next y := by
    intro y hy
    apply setNext_next_of_ne
    apply getLast?_ne_of_not_mem
    intro hIn
    exact hApart.2.2 y hIn y hy rfl
  apply Seg.append (q := some x)
  · exact seg_setNext hFront hApart.1
  · refine ⟨rfl, ?_⟩
    rw [hSame x List.mem_cons_self, hNext]
    exact hBack.congr fun y hy =>
      hSame y (List.mem_cons_of_mem x hy)

theorem Lists.unlink
    (hLists : l.Lists (as ++ x :: bs)) :
    (l.unlink x).Lists (as ++ bs) := by
  have hNodup := hLists.nodup
  have hMid := List.nodup_middle.mp hNodup
  have hNotIn : x ∉ as := fun hIn =>
    (List.nodup_cons.mp hMid).1 (List.mem_append_left _ hIn)
  unfold Links.unlink
  rw [hLists.prev_eq, hLists.next_eq]
  have hNext :
      (l.setNext as.getLast? bs.head?).next x = bs.head? := by
    rw [setNext_next_of_ne (getLast?_ne_of_not_mem hNotIn),
      hLists.next_eq]
  have hPrev :
      (l.setNext as.getLast? bs.head?).prev x =
        as.getLast? := by
    rw [setNext_prev, hLists.prev_eq]
  simp only [hNext, hPrev]
  constructor
  case nodup => exact (List.nodup_cons.mp hMid).2
  case forward =>
    rw [setPrev_next, setPrev_first]
    exact seg_unlink hLists.forward hNodup
  case backward =>
    have hBackward : Seg
        (l.setNext as.getLast? bs.head?).swap.next
        (l.setNext as.getLast? bs.head?).swap.first
        (bs.reverse ++ x :: as.reverse) none := by
      change Seg (l.setNext as.getLast? bs.head?).prev
        (l.setNext as.getLast? bs.head?).last _ none
      simpa using hLists.backward
    have hHalf := seg_unlink hBackward
      (by simpa using List.nodup_reverse.mpr hNodup)
    rw [List.getLast?_reverse, List.head?_reverse,
      ← swap_setPrev, ← List.reverse_append] at hHalf
    exact hHalf

theorem Lists.insert
    (hLists : l.Lists (as ++ bs))
    (hNew : x ∉ as ++ bs) :
    (l.insert as.getLast? x bs.head?).Lists
      (as ++ x :: bs) := by
  have hNodup : (as ++ x :: bs).Nodup :=
    List.nodup_middle.mpr
      (List.nodup_cons.mpr ⟨hNew, hLists.nodup⟩)
  have hNe : ∀ y ∈ as ++ bs, y ≠ x := by
    rintro y hy rfl
    exact hNew hy
  -- The node's own neighbours are set before it is linked.
  unfold Links.insert
  simp only
  set ready : Links ι :=
    { l with
      prev := Function.update l.prev x as.getLast?
      next := Function.update l.next x bs.head? }
  have hReady : ready.Lists (as ++ bs) := by
    apply hLists.congr
    · rfl
    · rfl
    · intro y hy
      exact Function.update_of_ne (hNe y hy) _ _
    · intro y hy
      exact Function.update_of_ne (hNe y hy) _ _
  constructor
  case nodup => exact hNodup
  case forward =>
    rw [setPrev_next, setPrev_first]
    apply seg_insert hReady.forward hNodup
    exact Function.update_self x _ l.next
  case backward =>
    have hBackward : Seg
        (ready.setNext as.getLast? (some x)).swap.next
        (ready.setNext as.getLast? (some x)).swap.first
        (bs.reverse ++ as.reverse) none := by
      change Seg (ready.setNext as.getLast? (some x)).prev
        (ready.setNext as.getLast? (some x)).last _ none
      simpa using hReady.backward
    have hHalf := seg_insert (x := x) hBackward
      (by simpa using List.nodup_reverse.mpr hNodup)
      (by
        rw [List.head?_reverse]
        change (ready.setNext as.getLast? (some x)).prev x = _
        rw [setNext_prev]
        exact Function.update_self x _ l.prev)
    rw [List.getLast?_reverse, ← swap_setPrev] at hHalf
    rw [List.reverse_append, List.reverse_cons,
      List.append_assoc]
    exact hHalf

end Links
