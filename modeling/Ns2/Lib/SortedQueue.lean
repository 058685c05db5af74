import Mathlib.Data.List.Basic
import Mathlib.Data.List.Pairwise
import Mathlib.Order.Defs.LinearOrder
import Mathlib.Order.Lattice
import Mathlib.Tactic.Common

/-
  First-in first-out queues kept in key order.

  `insert` places an element after every element whose key
  is at or below its own, so elements of equal key stay in
  the order of insertion.  When every element carries a
  stamp that grows with insertion, the queue is strictly
  increasing in key and stamp.

  Main declarations:
    * `SortedQueue.insert`
    * `SortedQueue.Sorted`, `SortedQueue.Stamped`
    * `SortedQueue.insert_append`
    * `SortedQueue.filter_insert`
    * `SortedQueue.Stamped.insert`
-/

------------------------------------------------------------
-- Insertion
------------------------------------------------------------

namespace SortedQueue

variable {α κ : Type*} [LinearOrder κ]

/- Insert after every element at or below the new key. -/
def insert
    (key : α → κ)
    (e : α) : List α → List α
| [] => [e]
| x :: xs =>
    if key e < key x then e :: x :: xs
    else x :: insert key e xs

/- The queue is in key order. -/
def Sorted
    (key : α → κ)
    (l : List α) : Prop :=
  l.Pairwise (fun a b => key a ≤ key b)

variable {key : α → κ}

theorem insert_perm
    (key : α → κ)
    (e : α)
    (l : List α) :
    (insert key e l).Perm (e :: l) := by
  induction l with
  | nil => exact List.Perm.refl _
  | cons x xs ih =>
      unfold insert
      split
      · exact List.Perm.refl _
      · exact (ih.cons x).trans (List.Perm.swap e x xs)

@[simp] theorem mem_insert
    {e a : α}
    {l : List α} :
    a ∈ insert key e l ↔ a = e ∨ a ∈ l := by
  rw [(insert_perm key e l).mem_iff, List.mem_cons]

@[simp] theorem length_insert
    (key : α → κ)
    (e : α)
    (l : List α) :
    (insert key e l).length = l.length + 1 :=
  (insert_perm key e l).length_eq

/- Insertion passes a prefix at or below the new key. -/
theorem insert_append
    {e : α}
    {front back : List α}
    (hFront : ∀ x ∈ front, key x ≤ key e) :
    insert key e (front ++ back) =
      front ++ insert key e back := by
  induction front with
  | nil => rfl
  | cons x xs ih =>
      have hx : ¬ key e < key x :=
        not_lt.mpr (hFront x (by simp))
      have hxs : ∀ y ∈ xs, key y ≤ key e := by
        intro y hy
        exact hFront y (by simp [hy])
      simp only [List.cons_append, insert, if_neg hx,
        ih hxs]

/- Insertion stops before keys above the new key. -/
theorem insert_of_lt
    {e : α}
    {back : List α}
    (hBack : ∀ x ∈ back, key e < key x) :
    insert key e back = e :: back := by
  cases back with
  | nil => rfl
  | cons x xs =>
      simp only [insert, if_pos (hBack x (by simp))]

/-
  The place of an insertion: between the keys at or below
  the new key and the keys above it.
-/
theorem insert_split
    {e : α}
    {front back : List α}
    (hFront : ∀ x ∈ front, key x ≤ key e)
    (hBack : ∀ x ∈ back, key e < key x) :
    insert key e (front ++ back) = front ++ e :: back := by
  rw [insert_append hFront, insert_of_lt hBack]

/- Insertion keeps the key order. -/
theorem Sorted.insert
    {l : List α}
    (hSorted : Sorted key l)
    (e : α) :
    Sorted key (SortedQueue.insert key e l) := by
  induction l with
  | nil => exact List.pairwise_singleton _ e
  | cons x xs ih =>
      have hCons := List.pairwise_cons.mp hSorted
      unfold SortedQueue.insert
      split
      · next hLt =>
          refine List.pairwise_cons.mpr ⟨?_, hSorted⟩
          intro y hy
          rcases List.mem_cons.mp hy with rfl | hy
          · exact hLt.le
          · exact hLt.le.trans (hCons.1 y hy)
      · next hNotLt =>
          refine List.pairwise_cons.mpr ⟨?_, ih hCons.2⟩
          intro y hy
          rcases mem_insert.mp hy with rfl | hy
          · exact not_lt.mp hNotLt
          · exact hCons.1 y hy

/- Insertion commutes with filtering a sorted queue. -/
theorem filter_insert
    {l : List α}
    (hSorted : Sorted key l)
    (e : α)
    (p : α → Bool) :
    (SortedQueue.insert key e l).filter p =
      if p e then SortedQueue.insert key e (l.filter p)
      else l.filter p := by
  induction l with
  | nil => cases h : p e <;> simp [SortedQueue.insert, h]
  | cons x xs ih =>
      have hCons := List.pairwise_cons.mp hSorted
      by_cases hLt : key e < key x
      · have hBack :
            ∀ y ∈ (x :: xs).filter p, key e < key y := by
          intro y hy
          rcases List.mem_cons.mp
            (List.mem_of_mem_filter hy) with rfl | hy
          · exact hLt
          · exact hLt.trans_le (hCons.1 y hy)
        rw [insert_of_lt hBack]
        simp only [SortedQueue.insert, if_pos hLt,
          @List.filter_cons α e]
      · simp only [SortedQueue.insert, if_neg hLt,
          @List.filter_cons α x, ih hCons.2]
        cases hx : p x <;> cases he : p e <;>
          simp [SortedQueue.insert, hLt]

/- The first element of a sorted queue has a least key. -/
theorem Sorted.head_le
    {x y : α}
    {xs : List α}
    (hSorted : Sorted key (x :: xs))
    (hy : y ∈ x :: xs) :
    key x ≤ key y := by
  rcases List.mem_cons.mp hy with rfl | hy
  · exact le_rfl
  · exact (List.pairwise_cons.mp hSorted).1 y hy

/- The last element of a sorted queue has a greatest key. -/
theorem Sorted.le_getLast
    {x : α}
    {l : List α}
    (hSorted : Sorted key l)
    (hx : x ∈ l)
    (hNe : l ≠ []) :
    key x ≤ key (l.getLast hNe) := by
  rw [← List.dropLast_append_getLast hNe] at hx hSorted
  rcases List.mem_append.mp hx with hx | hx
  · exact (List.pairwise_append.mp hSorted).2.2
      x hx _ (by simp)
  · rw [List.mem_singleton.mp hx]

theorem Sorted.filter
    {l : List α}
    (hSorted : Sorted key l)
    (p : α → Bool) :
    Sorted key (l.filter p) :=
  List.Pairwise.filter p hSorted

end SortedQueue

------------------------------------------------------------
-- Stamped Queues
------------------------------------------------------------

namespace SortedQueue

variable {α κ ι : Type*} [LinearOrder κ] [LinearOrder ι]

/- The order by key, and by stamp among equal keys. -/
def Before
    (key : α → κ)
    (stamp : α → ι)
    (a b : α) : Prop :=
  key a < key b ∨ key a = key b ∧ stamp a < stamp b

/- The queue is strictly increasing in key and stamp. -/
def Stamped
    (key : α → κ)
    (stamp : α → ι)
    (l : List α) : Prop :=
  l.Pairwise (Before key stamp)

variable {key : α → κ} {stamp : α → ι}

theorem Before.le
    {a b : α}
    (hBefore : Before key stamp a b) :
    key a ≤ key b := by
  rcases hBefore with hLt | ⟨hEq, _⟩
  · exact hLt.le
  · exact hEq.le

theorem Before.trans
    {a b c : α}
    (hab : Before key stamp a b)
    (hbc : Before key stamp b c) :
    Before key stamp a c := by
  rcases hab with hLt | ⟨hEq, hStamp⟩
  · exact Or.inl (hLt.trans_le hbc.le)
  · rcases hbc with hLt | ⟨hEq', hStamp'⟩
    · exact Or.inl (hEq ▸ hLt)
    · exact Or.inr
        ⟨hEq.trans hEq', hStamp.trans hStamp'⟩

theorem Before.irrefl (a : α) :
    ¬ Before key stamp a a := by
  rintro (hLt | ⟨_, hLt⟩)
  · exact lt_irrefl _ hLt
  · exact lt_irrefl _ hLt

theorem Before.asymm
    {a b : α}
    (hBefore : Before key stamp a b) :
    ¬ Before key stamp b a := by
  rintro (hLt | ⟨hEq, hStamp⟩)
  · exact absurd hBefore.le (not_le.mpr hLt)
  · rcases hBefore with hLt | ⟨_, hStamp'⟩
    · exact hLt.ne' hEq
    · exact lt_asymm hStamp hStamp'

theorem Stamped.sorted
    {l : List α}
    (hStamped : Stamped key stamp l) :
    Sorted key l :=
  hStamped.imp Before.le

theorem Stamped.nodup
    {l : List α}
    (hStamped : Stamped key stamp l) :
    l.Nodup := by
  refine List.Pairwise.imp ?_ hStamped
  rintro a b hBefore rfl
  exact Before.irrefl a hBefore

/- The order determines the queue. -/
theorem Stamped.eq_of_perm
    {l l' : List α}
    (hStamped : Stamped key stamp l)
    (hStamped' : Stamped key stamp l')
    (hPerm : l.Perm l') :
    l = l' := by
  refine hPerm.eq_of_pairwise ?_ hStamped hStamped'
  intro a b _ _ hab hba
  exact absurd hba hab.asymm

/- Insertion under a new greatest stamp keeps the order. -/
theorem Stamped.insert
    {l : List α}
    (hStamped : Stamped key stamp l)
    (e : α)
    (hNew : ∀ x ∈ l, stamp x < stamp e) :
    Stamped key stamp (SortedQueue.insert key e l) := by
  induction l with
  | nil => exact List.pairwise_singleton _ e
  | cons x xs ih =>
      have hCons := List.pairwise_cons.mp hStamped
      unfold SortedQueue.insert
      split
      · next hLt =>
          refine List.pairwise_cons.mpr ⟨?_, hStamped⟩
          intro y hy
          rcases List.mem_cons.mp hy with rfl | hy
          · exact Or.inl hLt
          · exact Or.inl
              (hLt.trans_le (hCons.1 y hy).le)
      · next hNotLt =>
          have hRest := ih hCons.2
            (fun y hy => hNew y (by simp [hy]))
          refine List.pairwise_cons.mpr ⟨?_, hRest⟩
          intro y hy
          rcases mem_insert.mp hy with rfl | hy
          · have hStamp := hNew x (by simp)
            rcases (not_lt.mp hNotLt).lt_or_eq with
              hLt | hEq
            · exact Or.inl hLt
            · exact Or.inr ⟨hEq, hStamp⟩
          · exact hCons.1 y hy

/- Removing an element keeps the order. -/
theorem Stamped.erase
    [DecidableEq α]
    {l : List α}
    (hStamped : Stamped key stamp l)
    (e : α) :
    Stamped key stamp (l.erase e) :=
  List.Pairwise.sublist List.erase_sublist hStamped

/- What stands before a queued element, and what after it. -/
theorem Stamped.split
    {e : α}
    {front back : List α}
    (hStamped : Stamped key stamp (front ++ e :: back)) :
    (∀ x ∈ front, Before key stamp x e) ∧
      ∀ x ∈ back, Before key stamp e x := by
  have hParts := List.pairwise_append.mp hStamped
  refine ⟨?_, ?_⟩
  · intro x hx
    exact hParts.2.2 x hx e (by simp)
  · exact (List.pairwise_cons.mp hParts.2.1).1

end SortedQueue
