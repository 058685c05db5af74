import Mathlib.Data.Int.Order.Basic

/-
  Arrays that check their indices.

  An index may be any integer.  An access outside of the array
  gives nothing.

  Main declarations:
    * `CheckedArray.load`, `CheckedArray.store`
    * `CheckedArray.exists_load`, `CheckedArray.exists_store`
    * `CheckedArray.load_store`
-/

------------------------------------------------------------
-- Accesses
------------------------------------------------------------

namespace Ns2

namespace CheckedArray

variable {α : Type}
variable {array array' : List α}
variable {i j : Int}
variable {a : α}

def load
    (array : List α)
    (i : Int) : Option α :=
  if 0 ≤ i then array[i.toNat]? else none

def store
    (array : List α)
    (i : Int)
    (a : α) : Option (List α) :=
  if 0 ≤ i ∧ i < array.length then some (array.set i.toNat a)
  else none

theorem exists_load
    (hLow : 0 ≤ i)
    (hHigh : i < array.length) :
    ∃ a, load array i = some a := by
  have hLess : i.toNat < array.length := by omega
  unfold load
  rw [if_pos hLow, List.getElem?_eq_getElem hLess]
  exact ⟨_, rfl⟩

theorem exists_store
    (hLow : 0 ≤ i)
    (hHigh : i < array.length)
    (a : α) :
    ∃ array', store array i a = some array' := by
  unfold store
  rw [if_pos ⟨hLow, hHigh⟩]
  exact ⟨_, rfl⟩

theorem length_store
    (hStore : store array i a = some array') :
    array'.length = array.length := by
  unfold store at hStore
  split at hStore
  · cases hStore
    exact List.length_set
  · cases hStore

/- A store changes one entry. -/
theorem load_store
    (hStore : store array i a = some array')
    (j : Int) :
    load array' j = if j = i then some a else load array j := by
  unfold store at hStore
  split at hStore
  next hRange =>
    cases hStore
    unfold load
    by_cases hSame : j = i
    · subst hSame
      have hLess : j.toNat < array.length := by omega
      rw [if_pos rfl, if_pos hRange.1,
        List.getElem?_set_self hLess]
    · rw [if_neg hSame]
      split
      next hNonneg =>
        have hNe : i.toNat ≠ j.toNat := by omega
        rw [List.getElem?_set_ne hNe]
      next => rfl
  next => cases hStore

end CheckedArray

end Ns2
