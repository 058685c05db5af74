import Mathlib.Data.List.Pairwise
import Mathlib.Order.Lattice
import Mathlib.Tactic.Common

/-
  Maps as lists that are sorted by their keys.

  A map carries the proof that its keys increase, so that a
  pass over the entries meets each key once and in order.

  Main declarations:
    * `SortedMap`, `SortedMap.find`
    * `SortedMap.insert`, `SortedMap.modify`
    * `SortedMap.erase`, `SortedMap.map`
-/

------------------------------------------------------------
-- Entries
------------------------------------------------------------

namespace SortedEntries

variable {κ v : Type*}
variable [LinearOrder κ]

def find
    (k : κ) :
    List (κ × v) → Option v
| [] => none
| e :: es => if e.1 = k then some e.2 else find k es

/- Put in an entry before the first one with no less key. -/
def insert
    (k : κ)
    (a : v) :
    List (κ × v) → List (κ × v)
| [] => [(k, a)]
| e :: es =>
    if e.1 < k then e :: insert k a es
    else if e.1 = k then e :: es
    else (k, a) :: e :: es

def modify
    (k : κ)
    (f : v → v)
    (es : List (κ × v)) : List (κ × v) :=
  es.map fun e => if e.1 = k then (e.1, f e.2) else e

/- Change all the values. -/
def mapValues
    (f : κ → v → v)
    (es : List (κ × v)) : List (κ × v) :=
  es.map fun e => (e.1, f e.1 e.2)

def erase
    (k : κ)
    (es : List (κ × v)) : List (κ × v) :=
  es.filter fun e => decide (e.1 ≠ k)

variable {es : List (κ × v)}
variable {k k' : κ} {a : v}

theorem find_cons
    {x : κ × v} :
    find k (x :: es) =
      if x.1 = k then some x.2 else find k es := by
  rfl

theorem mem_insert
    {e : κ × v}
    (he : e ∈ insert k a es) :
    e = (k, a) ∨ e ∈ es := by
  induction es with
  | nil => exact Or.inl (List.mem_singleton.mp he)
  | cons x es ih =>
      unfold insert at he
      split_ifs at he with hLess hSame
      · rcases List.mem_cons.mp he with rfl | hRest
        · exact Or.inr List.mem_cons_self
        · rcases ih hRest with hNew | hOld
          · exact Or.inl hNew
          · exact Or.inr (List.mem_cons_of_mem x hOld)
      · exact Or.inr he
      · exact List.mem_cons.mp he

theorem sorted_insert
    (hSorted : es.Pairwise fun x y => x.1 < y.1) :
    (insert k a es).Pairwise fun x y => x.1 < y.1 := by
  induction es with
  | nil => exact List.pairwise_singleton _ _
  | cons x es ih =>
      rcases List.pairwise_cons.mp hSorted with
        ⟨hFirst, hRest⟩
      unfold insert
      split_ifs with hLess hSame
      · apply List.pairwise_cons.mpr
        refine ⟨?_, ih hRest⟩
        intro e he
        rcases mem_insert he with rfl | hOld
        · exact hLess
        · exact hFirst e hOld
      · exact hSorted
      · have hBefore : k < x.1 :=
          lt_of_le_of_ne (not_lt.mp hLess) (Ne.symm hSame)
        apply List.pairwise_cons.mpr
        refine ⟨?_, hSorted⟩
        intro e he
        rcases List.mem_cons.mp he with rfl | hOld
        · exact hBefore
        · exact hBefore.trans (hFirst e hOld)

theorem sorted_modify
    {f : v → v}
    (hSorted : es.Pairwise fun x y => x.1 < y.1) :
    (modify k f es).Pairwise fun x y => x.1 < y.1 := by
  have hKey : ∀ e : κ × v,
      (if e.1 = k then (e.1, f e.2) else e).1 = e.1 := by
    intro e
    split_ifs
    · rfl
    · rfl
  apply List.Pairwise.map _ ?_ hSorted
  intro x y hLess
  rw [hKey, hKey]
  exact hLess

theorem find_mapValues
    {f : κ → v → v} :
    find k (mapValues f es) = (find k es).map (f k) := by
  induction es with
  | nil => rfl
  | cons x es ih =>
      have hCons :
          mapValues f (x :: es) =
            (x.1, f x.1 x.2) :: mapValues f es := by
        rfl
      rw [hCons, find_cons, find_cons, ih]
      by_cases hx : x.1 = k
      · rw [if_pos hx, if_pos hx, hx]
        rfl
      · rw [if_neg hx, if_neg hx]

theorem find_map
    {w : Type*}
    {f : v → w} :
    find k (es.map fun e => (e.1, f e.2)) =
      (find k es).map f := by
  induction es with
  | nil => rfl
  | cons x es ih =>
      rw [List.map_cons, find_cons, find_cons, ih]
      by_cases hx : x.1 = k
      · rw [if_pos hx, if_pos hx]
        rfl
      · rw [if_neg hx, if_neg hx]

/- A new entry is counted, and no other differently. -/
theorem countP_insert
    {p : κ × v → Bool}
    (hNew : find k es = none) :
    (insert k a es).countP p =
      es.countP p + if p (k, a) then 1 else 0 := by
  induction es with
  | nil => rw [insert, List.countP_cons, List.countP_nil]
  | cons x es ih =>
      rw [find_cons] at hNew
      split_ifs at hNew with hSame
      unfold insert
      by_cases hLess : x.1 < k
      · rw [if_pos hLess, List.countP_cons, ih hNew,
          List.countP_cons]
        exact Nat.add_right_comm _ _ _
      · rw [if_neg hLess, if_neg hSame, List.countP_cons]

theorem modify_of_ne
    {f : v → v}
    (hNe : ∀ e ∈ es, e.1 ≠ k) :
    modify k f es = es := by
  unfold modify
  conv => rhs; rw [← List.map_id es]
  apply List.map_congr_left
  intro e he
  exact if_neg (hNe e he)

/- A changed entry is counted for what it is now. -/
theorem countP_modify
    {p : κ × v → Bool}
    {b : v}
    (hSorted : es.Pairwise fun x y => x.1 < y.1)
    (hOld : find k es = some b) :
    (modify k (fun _ => a) es).countP p +
        (if p (k, b) then 1 else 0) =
      es.countP p + if p (k, a) then 1 else 0 := by
  induction es with
  | nil => cases hOld
  | cons x es ih =>
      rcases List.pairwise_cons.mp hSorted with
        ⟨hFirst, hRest⟩
      have hCons :
          modify k (fun _ => a) (x :: es) =
            (if x.1 = k then (x.1, a) else x) ::
              modify k (fun _ => a) es := by
        rfl
      rw [find_cons] at hOld
      rw [hCons, List.countP_cons, List.countP_cons]
      by_cases hSame : x.1 = k
      · rw [if_pos hSame] at hOld
        have hx : x = (k, b) :=
          Prod.ext hSame (Option.some.inj hOld)
        rw [if_pos hSame, modify_of_ne, hSame, ← hx]
        · exact Nat.add_right_comm _ _ _
        · intro e he hEq
          have hLess := hFirst e he
          rw [hSame, hEq] at hLess
          exact lt_irrefl _ hLess
      · rw [if_neg hSame] at hOld ⊢
        rw [Nat.add_right_comm, ih hRest hOld]
        exact Nat.add_right_comm _ _ _

theorem find_insert_self
    (hNew : find k es = none) :
    find k (insert k a es) = some a := by
  induction es with
  | nil => exact if_pos rfl
  | cons x es ih =>
      unfold find at hNew
      split_ifs at hNew with hSame
      unfold insert
      rw [if_neg hSame]
      split_ifs with hLess
      · unfold find
        rw [if_neg hSame]
        exact ih hNew
      · exact if_pos rfl

theorem find_insert_ne
    (hNe : k' ≠ k) :
    find k' (insert k a es) = find k' es := by
  induction es with
  | nil => exact if_neg hNe.symm
  | cons x es ih =>
      unfold insert
      split_ifs
      · unfold find
        rw [ih]
      · rfl
      · exact if_neg hNe.symm

theorem find_modify
    {f : v → v} :
    find k' (modify k f es) =
      if k' = k then (find k' es).map f else find k' es := by
  induction es with
  | nil => exact (ite_self none).symm
  | cons x es ih =>
      have hCons :
          modify k f (x :: es) =
            (if x.1 = k then (x.1, f x.2) else x) ::
              modify k f es := by
        rfl
      rw [hCons, find_cons, find_cons, ih]
      by_cases hxk : x.1 = k
      · simp only [if_pos hxk]
        by_cases hx : x.1 = k'
        · rw [if_pos hx, if_pos hx, if_pos (hx.symm.trans hxk)]
          rfl
        · rw [if_neg hx, if_neg hx]
      · simp only [if_neg hxk]
        by_cases hx : x.1 = k'
        · have hNe : k' ≠ k := hx ▸ hxk
          rw [if_pos hx, if_neg hNe, if_pos hx]
        · rw [if_neg hx, if_neg hx]

theorem find_erase :
    find k' (erase k es) =
      if k' = k then none else find k' es := by
  induction es with
  | nil => exact (ite_self none).symm
  | cons x es ih =>
      by_cases hxk : x.1 = k
      · have hCons : erase k (x :: es) = erase k es := by
          exact List.filter_cons_of_neg (by simp [hxk])
        rw [hCons, ih, find_cons]
        by_cases hEq : k' = k
        · rw [if_pos hEq, if_pos hEq]
        · rw [if_neg hEq, if_neg hEq, if_neg]
          exact fun hx => hEq (hx.symm.trans hxk)
      · have hCons :
            erase k (x :: es) = x :: erase k es := by
          exact List.filter_cons_of_pos (by simp [hxk])
        rw [hCons, find_cons, find_cons, ih]
        by_cases hEq : k' = k
        · rw [if_pos hEq, if_pos hEq, if_neg]
          exact fun hx => hxk (hx.trans hEq)
        · rw [if_neg hEq, if_neg hEq]

/- The keys of a sorted list tell its entries apart. -/
theorem mem_iff_find
    (hSorted : es.Pairwise fun x y => x.1 < y.1) :
    (k, a) ∈ es ↔ find k es = some a := by
  induction es with
  | nil => simp [find]
  | cons x es ih =>
      rcases List.pairwise_cons.mp hSorted with
        ⟨hFirst, hRest⟩
      unfold find
      rw [List.mem_cons, ih hRest]
      by_cases hx : x.1 = k
      · rw [if_pos hx]
        constructor
        · rintro (hEq | hFind)
          · rw [← hEq]
          · have hLess := hFirst _ ((ih hRest).mpr hFind)
            exact absurd hx hLess.ne
        · intro hEq
          exact Or.inl
            (Prod.ext hx.symm (Option.some.inj hEq).symm)
      · rw [if_neg hx]
        constructor
        · rintro (hEq | hFind)
          · exact absurd (congrArg Prod.fst hEq).symm hx
          · exact hFind
        · exact Or.inr

theorem find_insert_of_some
    {b : v}
    (hSorted : es.Pairwise fun x y => x.1 < y.1)
    (hOld : find k es = some b) :
    find k (insert k a es) = some b := by
  induction es with
  | nil => cases hOld
  | cons x es ih =>
      rcases List.pairwise_cons.mp hSorted with
        ⟨hFirst, hRest⟩
      rw [find_cons] at hOld
      unfold insert
      by_cases hSame : x.1 = k
      · rw [if_pos hSame] at hOld
        rw [if_neg (not_lt.mpr hSame.ge), if_pos hSame,
          find_cons, if_pos hSame]
        exact hOld
      · rw [if_neg hSame] at hOld
        have hMem : (k, b) ∈ es :=
          (mem_iff_find hRest).mpr hOld
        rw [if_pos (hFirst _ hMem), find_cons, if_neg hSame]
        exact ih hRest hOld

end SortedEntries

------------------------------------------------------------
-- Maps
------------------------------------------------------------

structure SortedMap (κ v : Type*) [LinearOrder κ] where
  entries : List (κ × v)
  sorted : entries.Pairwise fun x y => x.1 < y.1

namespace SortedMap

variable {κ v : Type*}
variable [LinearOrder κ]

def new : SortedMap κ v where
  entries := []
  sorted := List.Pairwise.nil

def find
    (m : SortedMap κ v)
    (k : κ) : Option v :=
  SortedEntries.find k m.entries

/- An entry that has the key already stays. -/
def insert
    (m : SortedMap κ v)
    (k : κ)
    (a : v) : SortedMap κ v where
  entries := SortedEntries.insert k a m.entries
  sorted := SortedEntries.sorted_insert m.sorted

/- Change the value of a key where it is stored. -/
def modify
    (m : SortedMap κ v)
    (k : κ)
    (f : v → v) : SortedMap κ v where
  entries := SortedEntries.modify k f m.entries
  sorted := SortedEntries.sorted_modify m.sorted

def erase
    (m : SortedMap κ v)
    (k : κ) : SortedMap κ v where
  entries := SortedEntries.erase k m.entries
  sorted := m.sorted.sublist List.filter_sublist

/- Change all the values. -/
def mapValues
    (m : SortedMap κ v)
    (f : κ → v → v) : SortedMap κ v where
  entries := SortedEntries.mapValues f m.entries
  sorted := List.Pairwise.map _ (fun _ _ h => h) m.sorted

/- The values may become those of another type. -/
def map
    {w : Type*}
    (m : SortedMap κ v)
    (f : v → w) : SortedMap κ w where
  entries := m.entries.map fun e => (e.1, f e.2)
  sorted := List.Pairwise.map _ (fun _ _ h => h) m.sorted

/- Put in an entry, or replace the value it has already. -/
def set
    (m : SortedMap κ v)
    (k : κ)
    (a : v) : SortedMap κ v :=
  match m.find k with
  | none => m.insert k a
  | some _ => m.modify k fun _ => a

variable (m : SortedMap κ v)
variable {k k' : κ} {a : v}

@[simp] theorem find_new :
    (new : SortedMap κ v).find k = none := by
  rfl

theorem find_insert_self
    (hNew : m.find k = none) :
    (m.insert k a).find k = some a := by
  exact SortedEntries.find_insert_self hNew

theorem find_insert_of_some
    {b : v}
    (hOld : m.find k = some b) :
    (m.insert k a).find k = some b := by
  exact SortedEntries.find_insert_of_some m.sorted hOld

theorem find_insert_ne
    (hNe : k' ≠ k) :
    (m.insert k a).find k' = m.find k' := by
  exact SortedEntries.find_insert_ne hNe

theorem find_modify_self
    {f : v → v} :
    (m.modify k f).find k = (m.find k).map f := by
  exact SortedEntries.find_modify.trans (if_pos rfl)

theorem find_modify_ne
    {f : v → v}
    (hNe : k' ≠ k) :
    (m.modify k f).find k' = m.find k' := by
  exact SortedEntries.find_modify.trans (if_neg hNe)

@[simp] theorem find_mapValues
    {f : κ → v → v} :
    (m.mapValues f).find k = (m.find k).map (f k) := by
  exact SortedEntries.find_mapValues

@[simp] theorem find_map
    {w : Type*}
    {f : v → w} :
    (m.map f).find k = (m.find k).map f := by
  exact SortedEntries.find_map

theorem find_erase_self :
    (m.erase k).find k = none := by
  exact SortedEntries.find_erase.trans (if_pos rfl)

theorem find_erase_ne
    (hNe : k' ≠ k) :
    (m.erase k).find k' = m.find k' := by
  exact SortedEntries.find_erase.trans (if_neg hNe)

@[simp] theorem find_set_self :
    (m.set k a).find k = some a := by
  unfold set
  split
  case h_1 hNew => exact m.find_insert_self hNew
  case h_2 b hOld =>
    rw [find_modify_self, hOld]
    rfl

theorem find_set_ne
    (hNe : k' ≠ k) :
    (m.set k a).find k' = m.find k' := by
  unfold set
  split
  · exact m.find_insert_ne hNe
  · exact m.find_modify_ne hNe

/- What is counted when an entry is put in or replaced. -/
theorem countP_set_of_none
    {p : κ × v → Bool}
    (hNew : m.find k = none) :
    (m.set k a).entries.countP p =
      m.entries.countP p + if p (k, a) then 1 else 0 := by
  unfold set
  rw [hNew]
  exact SortedEntries.countP_insert hNew

theorem countP_set_of_some
    {p : κ × v → Bool}
    {b : v}
    (hOld : m.find k = some b) :
    (m.set k a).entries.countP p +
        (if p (k, b) then 1 else 0) =
      m.entries.countP p + if p (k, a) then 1 else 0 := by
  unfold set
  rw [hOld]
  exact SortedEntries.countP_modify m.sorted hOld

theorem mem_entries_iff :
    (k, a) ∈ m.entries ↔ m.find k = some a := by
  exact SortedEntries.mem_iff_find m.sorted

/- A map without entries finds nothing. -/
theorem find_of_entries_nil
    (hNil : m.entries = [])
    (k : κ) :
    m.find k = none := by
  unfold find
  rw [hNil]
  rfl

end SortedMap
