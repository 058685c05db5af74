import Mathlib.Data.List.Nodup
import Mathlib.Tactic.Common

/-
  The order of turns.

  Parties wait in a list, and the first one has its turn and
  waits behind all others again.  `lead` is the number of
  turns by which the second of two parties is ahead of the
  first, so that the numbers of turns they had differ by the
  change of `lead`.

  Main declarations:
    * `RoundRobin.lead`
    * `RoundRobin.lead_serve`
    * `RoundRobin.lead_remove`
-/

namespace RoundRobin

variable {ι : Type*}
variable [DecidableEq ι]

/- Whether `j` has a turn before `i`. -/
def lead
    (i j : ι)
    (xs : List ι) : Int :=
  if xs.idxOf i < xs.idxOf j then 0 else 1

variable {i j x : ι}
variable {xs ys as bs : List ι}

theorem lead_nonneg
    (i j : ι)
    (xs : List ι) :
    0 ≤ lead i j xs := by
  unfold lead
  split_ifs
  · exact Int.le_refl 0
  · exact Int.zero_le_ofNat 1

theorem lead_le_one
    (i j : ι)
    (xs : List ι) :
    lead i j xs ≤ 1 := by
  unfold lead
  split_ifs
  · exact Int.zero_le_ofNat 1
  · exact Int.le_refl 1

theorem lead_head
    (hij : i ≠ j) :
    lead i j (i :: xs) = 0 := by
  unfold lead
  rw [List.idxOf_cons_self, List.idxOf_cons_ne _ hij]
  exact if_pos (Nat.succ_pos _)

theorem lead_head_other :
    lead i j (j :: xs) = 1 := by
  unfold lead
  rw [List.idxOf_cons_self]
  exact if_neg (Nat.not_lt_zero _)

theorem lead_cons
    (hi : x ≠ i)
    (hj : x ≠ j) :
    lead i j (x :: xs) = lead i j xs := by
  unfold lead
  rw [List.idxOf_cons_ne _ hi, List.idxOf_cons_ne _ hj]
  simp only [Nat.succ_eq_add_one, Nat.add_lt_add_iff_right]

/- Later parties do not matter. -/
theorem lead_append
    (hi : i ∈ xs)
    (hj : j ∈ xs) :
    lead i j (xs ++ ys) = lead i j xs := by
  unfold lead
  rw [List.idxOf_append_of_mem hi,
    List.idxOf_append_of_mem hj]

theorem lead_last
    (hi : i ∉ xs)
    (hj : j ∈ xs) :
    lead i j (xs ++ [i]) = 1 := by
  have hLt := List.idxOf_lt_length_of_mem hj
  unfold lead
  rw [List.idxOf_append_of_mem hj,
    List.idxOf_append_of_notMem hi]
  apply if_neg
  omega

theorem lead_last_other
    (hi : i ∈ xs)
    (hj : j ∉ xs) :
    lead i j (xs ++ [j]) = 0 := by
  have hLt := List.idxOf_lt_length_of_mem hi
  unfold lead
  rw [List.idxOf_append_of_mem hi,
    List.idxOf_append_of_notMem hj]
  apply if_pos
  omega

/- A third party may come or go anywhere. -/
theorem lead_remove
    (hi : x ≠ i)
    (hj : x ≠ j) :
    lead i j (as ++ x :: bs) = lead i j (as ++ bs) := by
  induction as with
  | nil => exact lead_cons hi hj
  | cons a as ih =>
      simp only [List.cons_append]
      by_cases hai : a = i
      · subst hai
        by_cases haj : a = j
        · subst haj
          rw [lead_head_other, lead_head_other]
        · rw [lead_head haj, lead_head haj]
      · by_cases haj : a = j
        · subst haj
          rw [lead_head_other, lead_head_other]
        · rw [lead_cons hai haj, lead_cons hai haj, ih]

/- The first party has its turn. -/
theorem lead_serve
    (hNodup : (x :: xs).Nodup)
    (hij : i ≠ j)
    (hi : i ∈ x :: xs)
    (hj : j ∈ x :: xs) :
    lead i j (xs ++ [x]) = lead i j (x :: xs) +
      (if x = i then 1 else 0) -
      (if x = j then 1 else 0) := by
  have hNew := (List.nodup_cons.mp hNodup).1
  by_cases hxi : x = i
  · subst hxi
    have hj' : j ∈ xs :=
      (List.mem_cons.mp hj).resolve_left hij.symm
    rw [lead_last hNew hj', lead_head hij, if_pos rfl,
      if_neg hij]
    rfl
  · have hi' : i ∈ xs :=
      (List.mem_cons.mp hi).resolve_left fun h => hxi h.symm
    by_cases hxj : x = j
    · subst hxj
      rw [lead_last_other hi' hNew, lead_head_other,
        if_neg hxi, if_pos rfl]
      rfl
    · have hj' : j ∈ xs :=
        (List.mem_cons.mp hj).resolve_left
          fun h => hxj h.symm
      rw [lead_append hi' hj', lead_cons hxi hxj,
        if_neg hxi, if_neg hxj]
      omega

end RoundRobin
