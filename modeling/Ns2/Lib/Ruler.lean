import Mathlib.Algebra.BigOperators.Group.List.Basic
import Mathlib.Algebra.BigOperators.Group.Finset.Basic
import Mathlib.Algebra.Order.Ring.Nat
import Mathlib.Data.List.Rotate
import Mathlib.Tactic.Ring

/-
  The ruler sequence.

  The marks of a ruler of order `k + 1` are those of a ruler
  of order `k`, the mark `k + 1`, and those of a ruler of
  order `k` again.  Mark `t` is on it `2 ^ (k - t)` times, so
  that marks standing for binary digits are met as often as
  the digits are worth.

  Main declarations:
    * `Ruler.ruler`, `Ruler.count_ruler`
    * `Ruler.round`, `Ruler.round_perm`
    * `Ruler.sum_digits`
-/

------------------------------------------------------------
-- Marks
------------------------------------------------------------

namespace Ruler

def ruler : Nat → List Nat
| 0 => []
| k + 1 => ruler k ++ (k + 1) :: ruler k

theorem length_ruler (k : Nat) :
    (ruler k).length + 1 = 2 ^ k := by
  induction k with
  | zero => rfl
  | succ k ih =>
      rw [ruler, List.length_append, List.length_cons,
        Nat.pow_succ]
      omega

theorem length_ruler_eq (k : Nat) :
    (ruler k).length = 2 ^ k - 1 := by
  have hLength := length_ruler k
  omega

theorem ruler_bounds
    {k t : Nat}
    (hMark : t ∈ ruler k) :
    1 ≤ t ∧ t ≤ k := by
  induction k with
  | zero => exact absurd hMark List.not_mem_nil
  | succ k ih =>
      rw [ruler, List.mem_append, List.mem_cons] at hMark
      rcases hMark with hLow | rfl | hLow
      · have := ih hLow
        omega
      · omega
      · have := ih hLow
        omega

/- A mark is half as frequent as the one below it. -/
theorem count_ruler
    {k t : Nat}
    (hPos : 1 ≤ t)
    (hLe : t ≤ k) :
    (ruler k).count t = 2 ^ (k - t) := by
  induction k with
  | zero => omega
  | succ k ih =>
      rw [ruler, List.count_append, List.count_cons]
      by_cases hTop : t = k + 1
      · subst hTop
        have hNone : (ruler k).count (k + 1) = 0 := by
          refine List.count_eq_zero.mpr fun hMark => ?_
          have := ruler_bounds hMark
          omega
        rw [hNone, Nat.sub_self]
        simp
      · have hLow : t ≤ k := by omega
        have hExp : k + 1 - t = k - t + 1 := by omega
        have hOther : ¬(k + 1 == t) = true := by
          rw [beq_iff_eq]
          omega
        rw [ih hLow, if_neg hOther, hExp, Nat.pow_succ]
        omega

/- A shorter ruler is the beginning of a longer one. -/
theorem take_ruler
    {j k : Nat}
    (hLe : j ≤ k) :
    (ruler k).take (2 ^ j - 1) = ruler j := by
  induction k with
  | zero =>
      have hZero : j = 0 := by omega
      subst hZero
      rfl
  | succ k ih =>
      have hLength := length_ruler k
      by_cases hTop : j = k + 1
      · subst hTop
        rw [← length_ruler_eq, List.take_length]
      · have hLow : j ≤ k := by omega
        have hFits : 2 ^ j - 1 ≤ (ruler k).length := by
          have := Nat.pow_le_pow_right (n := 2)
            (by omega) hLow
          omega
        rw [ruler, List.take_append_of_le_length hFits, ih hLow]

end Ruler

------------------------------------------------------------
-- Rounds
------------------------------------------------------------

namespace Ruler

variable {α : Type*}

/- Read `m` entries of a cyclic list from `p` on. -/
def round
    (l : List α)
    (p : Nat) :
    Nat → List α
| 0 => []
| m + 1 => (l[p]?).toList ++ round l ((p + 1) % l.length) m

theorem round_add
    (l : List α)
    (p m n : Nat)
    (hPtr : p < l.length) :
    round l p (m + n) =
      round l p m ++ round l ((p + m) % l.length) n := by
  induction m generalizing p with
  | zero =>
      rw [Nat.zero_add, Nat.add_zero, Nat.mod_eq_of_lt hPtr]
      rfl
  | succ m ih =>
      have hNext : (p + 1) % l.length < l.length :=
        Nat.mod_lt _ (by omega)
      rw [Nat.succ_add, round, round, List.append_assoc,
        ih _ hNext, Nat.mod_add_mod]
      rw [Nat.add_assoc, Nat.add_comm 1 m]

theorem length_round
    (l : List α)
    (p m : Nat)
    (hPtr : p < l.length) :
    (round l p m).length = m := by
  induction m generalizing p with
  | zero => rfl
  | succ m ih =>
      have hNext : (p + 1) % l.length < l.length :=
        Nat.mod_lt _ (by omega)
      rw [round, List.length_append, ih _ hNext,
        List.getElem?_eq_getElem hPtr]
      exact Nat.add_comm 1 m

theorem take_round
    (l : List α)
    {p m n : Nat}
    (hPtr : p < l.length)
    (hLe : m ≤ n) :
    (round l p n).take m = round l p m := by
  have hSplit : n = m + (n - m) := by omega
  rw [hSplit, round_add l p _ _ hPtr]
  exact List.take_left' (length_round l p m hPtr)

/- Up to the end a round reads the list as it stands. -/
theorem round_eq_drop
    (l : List α)
    (p m : Nat)
    (hEnd : p + m ≤ l.length) :
    round l p m = (l.drop p).take m := by
  induction m generalizing p with
  | zero => rfl
  | succ m ih =>
      have hPtr : p < l.length := by omega
      rw [round, List.drop_eq_getElem_cons hPtr,
        List.take_succ_cons, List.getElem?_eq_getElem hPtr]
      by_cases hLast : p + 1 = l.length
      · have hNone : m = 0 := by omega
        subst hNone
        rfl
      · have hNext : (p + 1) % l.length = p + 1 :=
          Nat.mod_eq_of_lt (by omega)
        rw [hNext, ih (p + 1) (by omega)]
        rfl

/- A whole round reads every entry once. -/
theorem round_perm
    (l : List α)
    (p : Nat)
    (hPtr : p < l.length) :
    (round l p l.length).Perm l := by
  have hSplit : l.length = (l.length - p) + p := by omega
  have hStart : (p + (l.length - p)) % l.length = 0 := by
    have hSum : p + (l.length - p) = l.length := by omega
    rw [hSum, Nat.mod_self]
  have hRound : round l p l.length = l.drop p ++ l.take p := by
    conv_lhs => rw [hSplit]
    rw [round_add l p _ _ hPtr, hStart,
      round_eq_drop l p _ (by omega),
      round_eq_drop l 0 p (by omega), List.drop_zero]
    rw [List.take_of_length_le (by rw [List.length_drop])]
  rw [hRound]
  exact List.perm_append_comm.trans
    (List.Perm.of_eq (List.take_append_drop p l))

end Ruler

------------------------------------------------------------
-- Digits
------------------------------------------------------------

namespace Ruler

/- A number is what its binary digits are worth. -/
theorem sum_digits
    {k w : Nat}
    (hFits : w < 2 ^ k) :
    (∑ i ∈ Finset.range k,
      2 ^ i * (if w.testBit i then 1 else 0)) = w := by
  have hGeneral : ∀ j, (∑ i ∈ Finset.range j,
      2 ^ i * (if w.testBit i then 1 else 0)) = w % 2 ^ j := by
    intro j
    induction j with
    | zero => rw [Finset.sum_range_zero, Nat.pow_zero, Nat.mod_one]
    | succ j ih =>
        have hDigit : (if w.testBit j then 1 else 0) =
            w / 2 ^ j % 2 := by
          rw [Nat.testBit_eq_decide_div_mod_eq]
          have := Nat.mod_two_eq_zero_or_one (w / 2 ^ j)
          rcases this with hZero | hOne
          · rw [hZero]
            rfl
          · rw [hOne]
            rfl
        rw [Finset.sum_range_succ, ih, hDigit,
          Nat.mod_pow_succ]
  rw [hGeneral k, Nat.mod_eq_of_lt hFits]

end Ruler
