import Mathlib.Algebra.Order.Group.Int
import Mathlib.Data.Int.Range
import Mathlib.Logic.Function.Basic
import Mathlib.Tactic.Common

/-
  Circular arrays.

  The entry of index `i` is in slot `i % size`.  Indices that
  are less than `size` apart have slots of their own, so over
  such indices the array behaves like a function.

  Main declarations:
    * `CircularArray.read`, `CircularArray.write`
    * `CircularArray.modifyAll`
    * `CircularArray.read_modifyAll`
    * `CircularArray.range_cons`
-/

------------------------------------------------------------
-- Slots
------------------------------------------------------------

namespace Ns2

namespace CircularArray

variable {α : Type}

/- The entry of index `i`. -/
def read
    (size : Int)
    (array : Int → α)
    (i : Int) : α :=
  array (i % size)

/- Store an entry under index `i`. -/
def write
    (size : Int)
    (array : Int → α)
    (i : Int)
    (a : α) : Int → α :=
  Function.update array (i % size) a

/- Change the entries of several indices, one by one. -/
def modifyAll
    (size : Int)
    (f : Int → α → α) : List Int → (Int → α) → Int → α
| [], array => array
| i :: is, array =>
    modifyAll size f is
      (write size array i (f i (read size array i)))

/- Indices that are close have different slots. -/
theorem slot_ne
    {size i j : Int}
    (hNe : i ≠ j)
    (hij : i < j + size)
    (hji : j < i + size) :
    i % size ≠ j % size := by
  intro hSame
  have hDvd : size ∣ i - j :=
    Int.dvd_of_emod_eq_zero
      (Int.emod_eq_emod_iff_emod_sub_eq_zero.mp hSame)
  have hZero : i - j = 0 := by
    apply Int.eq_zero_of_dvd_of_natAbs_lt_natAbs hDvd
    omega
  omega

end CircularArray

end Ns2

------------------------------------------------------------
-- Reading back
------------------------------------------------------------

namespace Ns2

namespace CircularArray

variable {α : Type}
variable {size : Int}
variable {array : Int → α}

@[simp] theorem read_write_self
    (i : Int)
    (a : α) :
    read size (write size array i a) i = a :=
  Function.update_self _ _ _

/- Writing leaves alone what is close by. -/
theorem read_write_of_ne
    {i j : Int}
    (hNe : j ≠ i)
    (hij : i < j + size)
    (hji : j < i + size)
    (a : α) :
    read size (write size array i a) j = read size array j :=
  Function.update_of_ne (slot_ne hNe hji hij) _ _

/- One index more than a range goes first. -/
theorem range_cons
    {low high : Int}
    (hLess : low < high) :
    Int.range low high = low :: Int.range (low + 1) high := by
  have hCount :
      (high - low).toNat = (high - (low + 1)).toNat + 1 := by
    omega
  unfold Int.range
  rw [hCount, List.range_succ_eq_map, List.map_cons,
    List.map_map]
  congr 1
  · simp
  · apply List.map_congr_left
    intro k _
    dsimp only [Function.comp_apply]
    omega

theorem range_eq_nil
    {low high : Int}
    (hLe : high ≤ low) :
    Int.range low high = [] := by
  unfold Int.range
  rw [Int.toNat_of_nonpos (by omega)]
  rfl

/-
  Changing the entries from `low` on is what it is for a
  function, as far as it can be seen from close by.
-/
theorem read_modifyAll
    (f : Int → α → α)
    {low high j : Int}
    (hLow : high ≤ j + size)
    (hHigh : j < low + size) :
    read size (modifyAll size f (Int.range low high) array) j =
      if low ≤ j ∧ j < high then f j (read size array j)
      else read size array j := by
  generalize hCount : (high - low).toNat = count
  induction count generalizing low array with
  | zero =>
      rw [range_eq_nil (by omega), if_neg (by omega)]
      rfl
  | succ count ih =>
      rw [range_cons (by omega)]
      unfold modifyAll
      rw [ih (by omega) (by omega)]
      by_cases hFirst : j = low
      · subst hFirst
        rw [if_neg (by omega), if_pos (by omega),
          read_write_self]
      · rw [read_write_of_ne hFirst (by omega) (by omega)]
        by_cases hIn : low + 1 ≤ j ∧ j < high
        · rw [if_pos hIn, if_pos (by omega)]
        · rw [if_neg hIn, if_neg (by omega)]

end CircularArray

end Ns2
