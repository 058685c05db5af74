import Ns2.Lib.LinkedList

/-
  Circular doubly linked lists over a table of nodes.

  The nodes of a ring lead from its first node back to it, by
  the pointers in one direction and in the other.  Absent
  pointers are outside all rings, so an operation that would
  follow one has no result.

  Main declarations:
    * `RingLinks`, `RingLinks.Ring`
    * `RingLinks.enter`, `RingLinks.leave`
    * `Ring.rotate`, `Ring.enter`, `Ring.leave`
-/

------------------------------------------------------------
-- Loops
------------------------------------------------------------

namespace LinkedList

variable {ι : Type*}
variable {next next' : ι → Option ι}
variable {as bs xs : List ι} {x y : ι}

/- The nodes `xs` lead from the first of them back to it. -/
def Loop
    (next : ι → Option ι)
    (xs : List ι) : Prop :=
  Seg next xs.head? xs xs.head?

theorem Seg.first_eq_or
    {p q : Option ι}
    (hSeg : Seg next p xs q) :
    p = xs.head?.or q := by
  cases xs with
  | nil => exact hSeg
  | cons x xs => exact hSeg.1

theorem loop_of_seg
    {p : Option ι}
    (hSeg : Seg next p xs p)
    (hNe : xs ≠ []) :
    Loop next xs := by
  cases xs with
  | nil => exact absurd rfl hNe
  | cons x xs =>
      have hFirst : p = some x := hSeg.1
      rw [hFirst] at hSeg
      exact hSeg

theorem Loop.rotate
    (hLoop : Loop next (x :: xs)) :
    Loop next (xs ++ [x]) := by
  have hNext : Seg next (next x) xs (some x) := hLoop.2
  have hLast : Seg next (some x) [x] (next x) := ⟨rfl, rfl⟩
  apply loop_of_seg (hNext.append hLast)
  simp

/- The pointer of the first node. -/
theorem Loop.next_eq
    (hLoop : Loop next (x :: xs)) :
    next x = (xs ++ [x]).head? := by
  have hNext : Seg next (next x) xs (some x) := hLoop.2
  rw [hNext.first_eq_or, List.head?_append]
  rfl

theorem Loop.rotate_append
    (hLoop : Loop next (as ++ bs)) :
    Loop next (bs ++ as) := by
  induction as generalizing bs with
  | nil =>
      rw [List.append_nil]
      exact hLoop
  | cons a as ih =>
      have hNext : Loop next (as ++ bs ++ [a]) := hLoop.rotate
      rw [List.append_assoc] at hNext
      have hEnd := ih hNext
      rw [List.append_assoc] at hEnd
      exact hEnd

/- The pointer of the last node. -/
theorem Loop.next_last
    (hLoop : Loop next (xs ++ [x])) :
    next x = (xs ++ [x]).head? := by
  have hFirst : Loop next ([x] ++ xs) := hLoop.rotate_append
  exact hFirst.next_eq

/- Nodes outside the loop may change. -/
theorem Loop.congr
    (hLoop : Loop next xs)
    (hSame : ∀ y ∈ xs, next' y = next y) :
    Loop next' xs :=
  Seg.congr hLoop hSame

/- Put a node behind the last one. -/
theorem Loop.insert
    (hLoop : Loop next (xs ++ [y]))
    (hy : next' y = some x)
    (hx : next' x = (xs ++ [y]).head?)
    (hSame : ∀ z ∈ xs, next' z = next z) :
    Loop next' (xs ++ [y] ++ [x]) := by
  have hFront := Seg.at_node hLoop
  have hFront' : Seg next' (xs ++ [y]).head? xs (some y) :=
    hFront.1.congr hSame
  have hBack : Seg next' (some y) [y, x]
      (xs ++ [y]).head? := by
    refine ⟨rfl, ?_, ?_⟩
    · exact hy
    · exact hx
  have hAll := hFront'.append hBack
  apply loop_of_seg (p := (xs ++ [y]).head?)
  · rw [List.append_assoc]
    exact hAll
  · simp

/- Take the first node out. -/
theorem Loop.remove
    (hLoop : Loop next (x :: xs ++ [y]))
    (hy : next' y = next x)
    (hSame : ∀ z ∈ xs, next' z = next z) :
    Loop next' (xs ++ [y]) := by
  have hNext : Seg next (next x) (xs ++ [y]) (some x) :=
    hLoop.2
  have hFront := hNext.at_node.1.congr hSame
  have hBack : Seg next' (some y) [y] (next x) :=
    ⟨rfl, hy⟩
  apply loop_of_seg (hFront.append hBack)
  simp

end LinkedList

------------------------------------------------------------
-- Rings
------------------------------------------------------------

/- The neighbours of the nodes of a table. -/
structure RingLinks (ι : Type*) where
  next : ι → Option ι
  prev : ι → Option ι

namespace RingLinks

open LinkedList

variable {ι : Type*}

def empty : RingLinks ι :=
  ⟨fun _ => none, fun _ => none⟩

/- The same ring in its other direction. -/
def swap (l : RingLinks ι) : RingLinks ι :=
  ⟨l.prev, l.next⟩

/- The nodes `xs` are a ring, in this order. -/
structure Ring
    (l : RingLinks ι)
    (xs : List ι) : Prop where
  nodup : xs.Nodup
  forward : Loop l.next xs
  backward : Loop l.prev xs.reverse

variable {l : RingLinks ι}
variable {as bs xs : List ι} {x y : ι}

theorem ring_nil (l : RingLinks ι) : l.Ring [] :=
  ⟨List.nodup_nil, rfl, rfl⟩

theorem Ring.swap
    (hRing : l.Ring xs) :
    l.swap.Ring xs.reverse := by
  refine ⟨List.nodup_reverse.mpr hRing.nodup,
    hRing.backward, ?_⟩
  rw [List.reverse_reverse]
  exact hRing.forward

/- A ring may be read from any of its nodes. -/
theorem Ring.rotate
    (hRing : l.Ring (as ++ bs)) :
    l.Ring (bs ++ as) := by
  refine ⟨(List.perm_append_comm.nodup_iff).mp hRing.nodup,
    hRing.forward.rotate_append, ?_⟩
  have hBack := hRing.backward
  rw [List.reverse_append] at hBack ⊢
  exact hBack.rotate_append

/- The first node becomes the last one. -/
theorem Ring.rotate_head
    (hRing : l.Ring (x :: bs)) :
    l.Ring (bs ++ [x]) := by
  rw [← List.singleton_append] at hRing
  exact hRing.rotate

theorem Ring.next_eq
    (hRing : l.Ring (x :: xs)) :
    l.next x = (xs ++ [x]).head? :=
  hRing.forward.next_eq

/- The node before the first one is the last one. -/
theorem Ring.prev_eq
    (hRing : l.Ring (x :: xs)) :
    l.prev x = (x :: xs).getLast? := by
  have hBack : Loop l.prev (xs.reverse ++ [x]) := by
    have hReverse := hRing.backward
    rwa [List.reverse_cons] at hReverse
  rw [hBack.next_last, ← List.reverse_cons,
    List.head?_reverse]

/- Nodes outside the ring may change. -/
theorem Ring.congr
    {l' : RingLinks ι}
    (hRing : l.Ring xs)
    (hNext : ∀ y ∈ xs, l'.next y = l.next y)
    (hPrev : ∀ y ∈ xs, l'.prev y = l.prev y) :
    l'.Ring xs :=
  ⟨hRing.nodup, hRing.forward.congr hNext,
    hRing.backward.congr fun y hy =>
      hPrev y (List.mem_reverse.mp hy)⟩

end RingLinks

------------------------------------------------------------
-- Changing Rings
------------------------------------------------------------

namespace RingLinks

open LinkedList

variable {ι : Type*}
variable [DecidableEq ι]

def setNext
    (l : RingLinks ι)
    (x : ι)
    (v : Option ι) : RingLinks ι :=
  { l with next := Function.update l.next x v }

def setPrev
    (l : RingLinks ι)
    (x : ι)
    (v : Option ι) : RingLinks ι :=
  { l with prev := Function.update l.prev x v }

/- A node that is its own neighbour. -/
def alone
    (l : RingLinks ι)
    (x : ι) : RingLinks ι :=
  (l.setPrev x (some x)).setNext x (some x)

/- Put a node before another one. -/
def insertBefore
    (l : RingLinks ι)
    (x head : ι) : Option (RingLinks ι) := do
  let l := l.setPrev x (l.prev head)
  let l := l.setNext x (some head)
  let last ← l.prev head
  let l := l.setNext last (some x)
  return l.setPrev head (some x)

/- Take a node out. -/
def unlink
    (l : RingLinks ι)
    (x : ι) : Option (RingLinks ι) := do
  let after ← l.next x
  let l := l.setPrev after (l.prev x)
  let before ← l.prev x
  return l.setNext before (l.next x)

/- Enter the ring of `head` before it, or make a new ring. -/
def enter
    (l : RingLinks ι)
    (x : ι)
    (head : Option ι) : Option (RingLinks ι × ι) :=
  match head with
  | some head =>
      (l.insertBefore x head).map fun l => (l, head)
  | none => some (l.alone x, x)

/- Leave the ring of `head`, which may be the node itself. -/
def leave
    (l : RingLinks ι)
    (x : ι)
    (head : Option ι) : Option (RingLinks ι × Option ι) :=
  if head = some x then
    if l.next x = some x then some (l, none)
    else (l.unlink x).map fun l => (l, l.next x)
  else (l.unlink x).map fun l => (l, head)

variable {l : RingLinks ι}
variable {as bs xs : List ι} {x y : ι}

@[simp]
theorem setNext_next
    {v : Option ι} :
    (l.setNext x v).next = Function.update l.next x v := rfl

@[simp]
theorem setNext_prev
    {v : Option ι} :
    (l.setNext x v).prev = l.prev := rfl

@[simp]
theorem setPrev_prev
    {v : Option ι} :
    (l.setPrev x v).prev = Function.update l.prev x v := rfl

@[simp]
theorem setPrev_next
    {v : Option ι} :
    (l.setPrev x v).next = l.next := rfl

theorem ring_alone
    (l : RingLinks ι)
    (x : ι) :
    (l.alone x).Ring [x] := by
  refine ⟨by simp, ?_, ?_⟩
  · exact ⟨rfl, Function.update_self x _ _⟩
  · exact ⟨rfl, Function.update_self x _ _⟩

/- A node before the first one is the new last one. -/
theorem Ring.insertBefore
    (hRing : l.Ring (y :: xs))
    (hNew : x ∉ y :: xs) :
    ∃ l', l.insertBefore x y = some l' ∧
      l'.Ring (y :: xs ++ [x]) := by
  rcases List.eq_nil_or_concat (y :: xs) with hNil | hConcat
  · cases hNil
  rcases hConcat with ⟨init, z, hEq⟩
  rw [List.concat_eq_append] at hEq
  have hPrev : l.prev y = some z := by
    rw [hRing.prev_eq, hEq, List.getLast?_concat]
  have hNodup : (y :: xs).Nodup := hRing.nodup
  have hz : z ∈ y :: xs := by
    rw [hEq]
    simp
  have hxz : x ≠ z := fun h => hNew (h ▸ hz)
  have hxy : x ≠ y := fun h => hNew (h ▸ List.mem_cons_self)
  have hResult : l.insertBefore x y =
      some ((((l.setPrev x (some z)).setNext x
        (some y)).setNext z (some x)).setPrev y
          (some x)) := by
    simp only [RingLinks.insertBefore, setPrev, setNext,
      Function.update_of_ne hxy.symm, hPrev]
    rfl
  refine ⟨_, hResult, ?_⟩
  constructor
  case nodup =>
    rw [List.nodup_append]
    refine ⟨hNodup, by simp, ?_⟩
    intro a ha b hb hab
    cases List.mem_singleton.mp hb
    exact hNew (hab ▸ ha)
  case forward =>
    have hForward := hRing.forward
    rw [hEq] at hForward hNodup hNew ⊢
    apply hForward.insert
    · exact Function.update_self z _ _
    · simp only [setPrev_next, setNext_next]
      rw [Function.update_of_ne hxz, Function.update_self,
        ← hEq]
      rfl
    · intro w hw
      have hwz : w ≠ z := by
        rintro rfl
        exact (List.nodup_append.mp hNodup).2.2 w hw w
          (List.mem_singleton_self w) rfl
      have hwx : w ≠ x := by
        rintro rfl
        exact hNew (List.mem_append_left _ hw)
      simp only [setPrev_next, setNext_next]
      rw [Function.update_of_ne hwz,
        Function.update_of_ne hwx]
  case backward =>
    have hBack : Loop l.prev (xs.reverse ++ [y]) := by
      have hReverse := hRing.backward
      rwa [List.reverse_cons] at hReverse
    have hReverse : (y :: xs ++ [x]).reverse =
        [x] ++ (xs.reverse ++ [y]) := by simp
    rw [hReverse]
    apply Loop.rotate_append
    apply hBack.insert
    · exact Function.update_self y _ _
    · simp only [setPrev_prev, setNext_prev]
      rw [Function.update_of_ne hxy, Function.update_self,
        ← List.reverse_cons, List.head?_reverse, hEq,
        List.getLast?_concat]
    · intro w hw
      have hMem : w ∈ xs := List.mem_reverse.mp hw
      have hwy : w ≠ y := by
        rintro rfl
        exact (List.nodup_cons.mp hNodup).1 hMem
      have hwx : w ≠ x := by
        rintro rfl
        exact hNew (List.mem_cons_of_mem y hMem)
      simp only [setPrev_prev, setNext_prev]
      rw [Function.update_of_ne hwy,
        Function.update_of_ne hwx]

/- The first node is taken out. -/
theorem Ring.unlink_first
    (hRing : l.Ring (x :: xs))
    (hNe : xs ≠ []) :
    ∃ l', l.unlink x = some l' ∧ l'.Ring xs ∧
      l'.next x = xs.head? := by
  rcases List.exists_cons_of_ne_nil hNe with ⟨y, ys, rfl⟩
  rcases List.eq_nil_or_concat (y :: ys) with hNil | hConcat
  · cases hNil
  rcases hConcat with ⟨init, z, hEq⟩
  rw [List.concat_eq_append] at hEq
  have hNext : l.next x = some y := hRing.next_eq
  have hPrev : l.prev x = some z := by
    rw [hRing.prev_eq, hEq, ← List.cons_append,
      List.getLast?_concat]
  have hNodup := List.nodup_cons.mp hRing.nodup
  have hyx : x ≠ y := fun h =>
    hNodup.1 (h ▸ List.mem_cons_self)
  have hResult : l.unlink x =
      some ((l.setPrev y (some z)).setNext z (some y)) := by
    simp only [RingLinks.unlink, setPrev, setNext, hNext,
      hPrev, Option.bind_eq_bind, Option.bind_some,
      Function.update_of_ne hyx]
    rfl
  have hxz : x ≠ z := by
    rintro rfl
    apply hNodup.1
    rw [hEq]
    simp
  refine ⟨_, hResult, ?_, ?_⟩
  case refine_2 =>
    rw [setNext_next, Function.update_of_ne hxz,
      setPrev_next, hNext]
    rfl
  constructor
  case nodup => exact hNodup.2
  case forward =>
    have hForward := hRing.forward
    have hNodup' := hNodup.2
    rw [hEq] at hForward hNodup' ⊢
    apply Loop.remove (x := x) hForward
    · simp only [setPrev_next, setNext_next]
      rw [Function.update_self, hNext]
    · intro w hw
      have hwz : w ≠ z := by
        rintro rfl
        exact (List.nodup_append.mp hNodup').2.2 w hw w
          (List.mem_singleton_self w) rfl
      simp only [setPrev_next, setNext_next]
      rw [Function.update_of_ne hwz]
  case backward =>
    have hBack : Loop l.prev (x :: ys.reverse ++ [y]) := by
      have hReverse := hRing.backward
      simp only [List.reverse_cons, List.append_assoc]
        at hReverse
      have hJoined : Loop l.prev
          ((ys.reverse ++ [y]) ++ [x]) := by
        simpa using hReverse
      simpa using hJoined.rotate_append
    rw [List.reverse_cons]
    apply hBack.remove
    · simp only [setPrev_prev, setNext_prev]
      rw [Function.update_self, hPrev]
    · intro w hw
      have hwy : w ≠ y := by
        rintro rfl
        exact (List.nodup_cons.mp hNodup.2).1
          (List.mem_reverse.mp hw)
      simp only [setPrev_prev, setNext_prev]
      rw [Function.update_of_ne hwy]

/- Any node but an only one is taken out. -/
theorem Ring.unlink
    (hRing : l.Ring (as ++ x :: bs))
    (hNe : as ++ bs ≠ []) :
    ∃ l', l.unlink x = some l' ∧ l'.Ring (as ++ bs) ∧
      l'.next x = (bs ++ as).head? := by
  have hFirst : l.Ring (x :: (bs ++ as)) := hRing.rotate
  have hNe' : bs ++ as ≠ [] := by
    intro hNil
    rw [List.append_eq_nil_iff] at hNil
    apply hNe
    rw [hNil.1, hNil.2]
    rfl
  rcases hFirst.unlink_first hNe' with
    ⟨l', hUnlink, hRing', hNext⟩
  exact ⟨l', hUnlink, hRing'.rotate, hNext⟩

/- A node that enters is the last one. -/
theorem Ring.enter
    (hRing : l.Ring xs)
    (hNew : x ∉ xs) :
    ∃ next, l.enter x xs.head? = some next ∧
      next.1.Ring (xs ++ [x]) ∧
      some next.2 = (xs ++ [x]).head? := by
  cases xs with
  | nil => exact ⟨_, rfl, ring_alone l x, rfl⟩
  | cons y ys =>
      rcases hRing.insertBefore hNew with
        ⟨l', hInsert, hRing'⟩
      refine ⟨(l', y), ?_, hRing', rfl⟩
      simp only [RingLinks.enter, List.head?_cons, hInsert,
        Option.map_some]

theorem Ring.leave
    (hRing : l.Ring (as ++ x :: bs)) :
    ∃ next, l.leave x (as ++ x :: bs).head? = some next ∧
      next.1.Ring (as ++ bs) ∧
      next.2 = (as ++ bs).head? := by
  unfold RingLinks.leave
  cases as with
  | nil =>
      have hFirst : l.Ring (x :: bs) := hRing
      have hHead : ([] ++ x :: bs).head? = some x := rfl
      rw [if_pos hHead]
      cases bs with
      | nil =>
          have hSelf : l.next x = some x := hFirst.next_eq
          rw [if_pos hSelf]
          exact ⟨_, rfl, ring_nil l, rfl⟩
      | cons y ys =>
          have hNe : ¬ l.next x = some x := by
            rw [hFirst.next_eq]
            intro hEq
            cases hEq
            exact (List.nodup_cons.mp hFirst.nodup).1
              List.mem_cons_self
          rw [if_neg hNe]
          rcases hFirst.unlink_first (by simp) with
            ⟨l', hUnlink, hRing', hNext⟩
          rw [hUnlink]
          exact ⟨_, rfl, hRing', hNext⟩
  | cons y ys =>
      have hNe : ¬ (y :: ys ++ x :: bs).head? = some x := by
        intro hEq
        cases hEq
        apply (List.nodup_cons.mp hRing.nodup).1
        simp
      rw [if_neg hNe]
      rcases hRing.unlink (by simp) with
        ⟨l', hUnlink, hRing', _⟩
      rw [hUnlink]
      exact ⟨_, rfl, hRing', rfl⟩

theorem Ring.leave_head
    (hRing : l.Ring (x :: bs)) :
    ∃ next, l.leave x (some x) = some next ∧
      next.1.Ring bs ∧ next.2 = bs.head? := by
  rw [← List.nil_append (x :: bs)] at hRing
  exact hRing.leave

end RingLinks
