import Mathlib.Data.List.Rotate
import Mathlib.Tactic.Common

/-
  Bounded maps that forget their oldest entry.

  A bounded map is a list of entries with a key each, the
  oldest first.  A new key joins at the end, and where there
  is no room the oldest entry goes.  A ring of slots with a
  pointer at its oldest slot holds such a map.

  Main declarations:
    * `BoundedMap.touch`, `BoundedMap.lookup`
    * `BoundedMap.nodup_touch`, `BoundedMap.lookup_touch`
    * `BoundedMap.rotate_set`
-/

------------------------------------------------------------
-- Keyed Entries
------------------------------------------------------------

namespace BoundedMap

variable {α κ : Type*} [DecidableEq κ]
variable (key : α → κ)

/- The entry of a key. -/
def lookup
    (k : κ)
    (es : List α) : Option α :=
  es.find? fun e => key e = k

/- Change the entry of a key. -/
def update
    (k : κ)
    (f : α → α)
    (es : List α) : List α :=
  es.map fun e => if key e = k then f e else e

/- Change the entry of a key, or let a fresh one join. -/
def touch
    (capacity : Nat)
    (k : κ)
    (f : α → α)
    (fresh : α)
    (es : List α) : List α :=
  if k ∈ es.map key then update key k f es
  else
    (if es.length < capacity then es else es.tail) ++ [fresh]

variable {key} {capacity : Nat} {k : κ}
variable {f : α → α} {fresh : α} {es : List α}

theorem map_update
    (hKey : ∀ e, key (f e) = key e) :
    (update key k f es).map key = es.map key := by
  rw [update, List.map_map]
  refine List.map_congr_left fun e _ => ?_
  by_cases hEq : key e = k
  · simp [hEq, hKey]
  · simp [hEq]

theorem nodup_touch
    (hKey : ∀ e, key (f e) = key e)
    (hFresh : key fresh = k)
    (hNodup : (es.map key).Nodup) :
    ((touch key capacity k f fresh es).map key).Nodup := by
  unfold touch
  by_cases hMem : k ∈ es.map key
  · rw [if_pos hMem, map_update hKey]
    exact hNodup
  · have hSub :
        ((if es.length < capacity then es
          else es.tail).map key).Sublist (es.map key) := by
      split
      · exact List.Sublist.refl _
      · exact (List.tail_sublist es).map key
    rw [if_neg hMem, List.map_append, List.map_singleton,
      hFresh]
    refine List.nodup_append.mpr
      ⟨hNodup.sublist hSub, List.nodup_singleton k, ?_⟩
    intro a hA b hB hEq
    rw [List.mem_singleton.mp hB] at hEq
    exact hMem (hEq ▸ hSub.subset hA)

theorem mem_touch
    (hKey : ∀ e, key (f e) = key e)
    (hFresh : key fresh = k)
    {x : κ}
    (hMem : x ∈ (touch key capacity k f fresh es).map key) :
    x = k ∨ x ∈ es.map key := by
  unfold touch at hMem
  split at hMem
  · rw [map_update hKey] at hMem
    exact .inr hMem
  · rw [List.map_append, List.mem_append] at hMem
    rcases hMem with hOld | hNew
    · split at hOld
      · exact .inr hOld
      · exact .inr
          (((List.tail_sublist es).map key).subset hOld)
    · rw [List.map_singleton, hFresh] at hNew
      exact .inl (List.mem_singleton.mp hNew)

theorem touch_of_room
    (hRoom : es.length < capacity)
    (hNew : k ∉ es.map key) :
    touch key capacity k f fresh es = es ++ [fresh] := by
  rw [touch, if_neg hNew, if_pos hRoom]

theorem lookup_eq_none :
    lookup key k es = none ↔ k ∉ es.map key := by
  simp [lookup]

theorem lookup_update_self
    (hKey : ∀ e, key (f e) = key e) :
    lookup key k (update key k f es) =
      (lookup key k es).map f := by
  induction es with
  | nil => rfl
  | cons e es ih =>
      by_cases hEq : key e = k
      · simp [lookup, update, hEq, hKey]
      · simpa [lookup, update, hEq] using ih

theorem lookup_update_of_ne
    (hKey : ∀ e, key (f e) = key e)
    {x : κ}
    (hNe : x ≠ k) :
    lookup key x (update key k f es) = lookup key x es := by
  induction es with
  | nil => rfl
  | cons e es ih =>
      have ih : (es.map fun e =>
          if key e = k then f e else e).find?
            (fun e => key e = x) =
          es.find? (fun e => key e = x) := ih
      by_cases hEq : key e = k
      · have hOther : key e ≠ x := fun h => hNe (h ▸ hEq)
        simp [lookup, update, hEq, hKey, hNe.symm, ih]
      · simp [lookup, update, hEq, ih, List.find?_cons]

/- With room for a fresh entry, one key's entry changes. -/
theorem lookup_touch
    (hKey : ∀ e, key (f e) = key e)
    (hFresh : key fresh = k)
    (hRoom : k ∈ es.map key ∨ es.length < capacity)
    (x : κ) :
    lookup key x (touch key capacity k f fresh es) =
      if x = k then
        some (((lookup key k es).map f).getD fresh)
      else lookup key x es := by
  by_cases hMem : k ∈ es.map key
  · rw [touch, if_pos hMem]
    by_cases hX : x = k
    · subst hX
      have hSome : lookup key x es ≠ none := fun h =>
        lookup_eq_none.mp h hMem
      rcases Option.ne_none_iff_exists'.mp hSome with ⟨e, he⟩
      rw [lookup_update_self hKey, he, if_pos rfl]
      rfl
    · rw [lookup_update_of_ne hKey hX, if_neg hX]
  · rw [touch_of_room (hRoom.resolve_left hMem) hMem]
    by_cases hX : x = k
    · subst hX
      have hNone := lookup_eq_none.mpr hMem
      unfold lookup at hNone ⊢
      rw [List.find?_append, hNone]
      simp [hFresh]
    · unfold lookup
      rw [List.find?_append]
      simp [hFresh, hX, Ne.symm hX]

end BoundedMap

------------------------------------------------------------
-- Rings of Slots
------------------------------------------------------------

namespace BoundedMap

variable {α κ : Type*} [DecidableEq κ] {key : α → κ}

/- Writing the oldest slot makes it the newest. -/
theorem rotate_set
    {slots : List α}
    {p : Nat}
    (hPtr : p < slots.length)
    (x : α) :
    (slots.set p x).rotate ((p + 1) % slots.length) =
      (slots.rotate p).tail ++ [x] := by
  have hMod := List.rotate_mod (slots.set p x) (p + 1)
  rw [List.length_set] at hMod
  rw [hMod]
  have hLength : (slots.take p).length = p :=
    List.length_take_of_le hPtr.le
  have hSplit : slots =
      slots.take p ++ slots[p] :: slots.drop (p + 1) := by
    rw [← List.drop_eq_getElem_cons hPtr,
      List.take_append_drop]
  generalize slots.take p = xs at hLength hSplit
  generalize slots.drop (p + 1) = ys at hSplit
  generalize slots[p] = y at hSplit
  subst hLength hSplit
  have hNew := List.rotate_append_length_eq (xs ++ [x]) ys
  have hOld := List.rotate_append_length_eq xs (y :: ys)
  rw [List.append_assoc, List.singleton_append,
    List.length_append, List.length_singleton] at hNew
  rw [hOld, List.set_append_right _ _ le_rfl, Nat.sub_self,
    List.set_cons_zero, hNew, List.cons_append,
    List.tail_cons, List.append_assoc]

/- The oldest slot comes first. -/
theorem head?_rotate
    {slots : List α}
    {p : Nat}
    (hPtr : p < slots.length) :
    (slots.rotate p).head? = slots[p]? :=
  List.head?_rotate hPtr

/- Changing the only slot of a key. -/
theorem modify_eq_update
    {slots : List α}
    {i : Nat}
    {k : κ}
    {f : α → α}
    (hOnly : ∀ j e, slots[j]? = some e →
      (key e = k ↔ j = i)) :
    slots.modify i f = update key k f slots := by
  refine List.ext_getElem? fun j => ?_
  rw [List.getElem?_modify, update, List.getElem?_map]
  cases hSlot : slots[j]? with
  | none => rfl
  | some e =>
      have hKey := hOnly j e hSlot
      by_cases hEq : j = i
      · simp [hEq, hKey.mpr hEq]
      · simp [Ne.symm hEq, mt hKey.mp hEq]

theorem rotate_update
    (slots : List α)
    (p : Nat)
    (k : κ)
    (f : α → α) :
    (update key k f slots).rotate p =
      update key k f (slots.rotate p) :=
  (List.map_rotate _ _ _).symm

/- Keys of their own give slots of their own. -/
theorem slot_unique
    {slots : List α}
    {k : κ}
    (hCount : slots.countP (fun e => key e = k) ≤ 1)
    {i j : Nat}
    {a b : α}
    (hI : slots[i]? = some a)
    (hJ : slots[j]? = some b)
    (hA : key a = k)
    (hB : key b = k) :
    i = j := by
  induction slots generalizing i j with
  | nil => simp at hI
  | cons s slots ih =>
      rw [List.countP_cons] at hCount
      have hPos : ∀ (n : Nat) (e : α),
          slots[n]? = some e → key e = k →
          0 < slots.countP (fun e => key e = k) := by
        intro n e hN hE
        exact List.countP_pos_iff.mpr
          ⟨e, List.mem_of_getElem? hN, by simpa using hE⟩
      cases i with
      | zero =>
          cases j with
          | zero => rfl
          | succ j =>
              simp only [List.getElem?_cons_zero,
                Option.some.injEq] at hI
              have hRest := hPos j b hJ hB
              rw [hI, if_pos (decide_eq_true hA)] at hCount
              omega
      | succ i =>
          cases j with
          | zero =>
              simp only [List.getElem?_cons_zero,
                Option.some.injEq] at hJ
              have hRest := hPos i a hI hA
              rw [hJ, if_pos (decide_eq_true hB)] at hCount
              omega
          | succ j =>
              have hRest : slots.countP
                  (fun e => key e = k) ≤ 1 := by omega
              exact congrArg (· + 1) (ih hRest hI hJ)

end BoundedMap
