import Mathlib.Algebra.Order.Ring.Nat
import Mathlib.Data.Nat.Bitwise
import Mathlib.Logic.Function.Basic
import Mathlib.Tactic.Common

/-
  Ring buffers indexed by a mask.

  A buffer of `mask + 1` slots, a power of two, stores the
  entry of index `i` in slot `i &&& mask`.  The indices of a
  window no wider than the buffer have slots of their own,
  so inside a window the buffer behaves like a function.

  Main declarations:
    * `RingBuffer.IsMask`
    * `RingBuffer.read`, `RingBuffer.write`
    * `RingBuffer.store`
    * `RingBuffer.read_store`
-/

------------------------------------------------------------
-- Slots
------------------------------------------------------------

namespace RingBuffer

variable {α : Type*}

/- One less than a power of two. -/
def IsMask (mask : Nat) : Prop :=
  ∃ k, mask + 1 = 2 ^ k

/- The entry of index `i`. -/
def read
    (mask : Nat)
    (buffer : Nat → α)
    (i : Nat) : α :=
  buffer (i &&& mask)

/- Store an entry under index `i`. -/
def write
    (mask : Nat)
    (buffer : Nat → α)
    (i : Nat)
    (a : α) : Nat → α :=
  Function.update buffer (i &&& mask) a

/- Store the entries of several indices, one by one. -/
def store
    (mask : Nat)
    (buffer : Nat → α)
    (entry : Nat → α) : List Nat → Nat → α
| [] => buffer
| i :: is => store mask (write mask buffer i (entry i)) entry is

theorem IsMask.double
    {mask : Nat}
    (hMask : IsMask mask) :
    IsMask ((mask + 1) * 2 - 1) := by
  rcases hMask with ⟨k, hk⟩
  refine ⟨k + 1, ?_⟩
  rw [pow_succ, ← hk]
  omega

theorem IsMask.slot_eq_mod
    {mask : Nat}
    (hMask : IsMask mask)
    (i : Nat) :
    i &&& mask = i % (mask + 1) := by
  rcases hMask with ⟨k, hk⟩
  have hSub : mask = 2 ^ k - 1 := by omega
  rw [hk, hSub, Nat.and_two_pow_sub_one_eq_mod]

/- Indices of one window have different slots. -/
theorem IsMask.slot_ne
    {mask i j : Nat}
    (hMask : IsMask mask)
    (hNe : i ≠ j)
    (hij : i ≤ j + mask)
    (hji : j ≤ i + mask) :
    i &&& mask ≠ j &&& mask := by
  rw [hMask.slot_eq_mod, hMask.slot_eq_mod]
  intro hEq
  -- The distance of the indices is a multiple of the size.
  have hLess : ∀ {a b : Nat}, a < b → b ≤ a + mask →
      a % (mask + 1) ≠ b % (mask + 1) := by
    intro a b hab hba hSame
    have hZero := Nat.sub_mod_eq_zero_of_mod_eq hSame.symm
    rw [Nat.mod_eq_of_lt (by omega)] at hZero
    omega
  rcases Nat.lt_or_gt_of_ne hNe with hLt | hGt
  · exact hLess hLt hji hEq
  · exact hLess hGt hij hEq.symm

end RingBuffer

------------------------------------------------------------
-- Reading Back
------------------------------------------------------------

namespace RingBuffer

variable {α : Type*} {mask : Nat} {buffer : Nat → α}

@[simp] theorem read_write_self
    (mask : Nat)
    (buffer : Nat → α)
    (i : Nat)
    (a : α) :
    read mask (write mask buffer i a) i = a :=
  Function.update_self _ _ _

/- Writing leaves the rest of the window alone. -/
theorem read_write_of_ne
    (hMask : IsMask mask)
    {i j : Nat}
    (hNe : j ≠ i)
    (hij : i ≤ j + mask)
    (hji : j ≤ i + mask)
    (a : α) :
    read mask (write mask buffer i a) j =
      read mask buffer j :=
  Function.update_of_ne (hMask.slot_ne hNe hji hij) _ _

/-
  Storing entries within the window from `low` on is what it
  is for a function.
-/
theorem read_store
    (hMask : IsMask mask)
    (buffer entry : Nat → α)
    (indices : List Nat)
    (low j : Nat)
    (hWindow : ∀ i ∈ indices, low ≤ i ∧ i ≤ low + mask)
    (hj : low ≤ j ∧ j ≤ low + mask) :
    read mask (store mask buffer entry indices) j =
      if j ∈ indices then entry j
      else read mask buffer j := by
  induction indices generalizing buffer with
  | nil => simp [store]
  | cons i is ih =>
      have hi := hWindow i (by simp)
      have hRest := ih
        (write mask buffer i (entry i))
        (fun k hk => hWindow k (by simp [hk]))
      rw [store, hRest]
      by_cases hIn : j ∈ is
      · simp [hIn]
      · rw [if_neg hIn]
        by_cases hEq : j = i
        · simp [hEq]
        · rw [read_write_of_ne hMask hEq (by omega)
            (by omega), if_neg (by simp [hEq, hIn])]

end RingBuffer
