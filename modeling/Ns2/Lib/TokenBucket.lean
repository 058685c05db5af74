import Mathlib.Algebra.BigOperators.Group.List.Basic
import Mathlib.Algebra.Order.BigOperators.Group.List
import Mathlib.Algebra.Order.Field.Basic
import Mathlib.Tactic.Linarith
import Mathlib.Tactic.Ring

/-
  Token buckets.

  A bucket of some depth fills at a constant rate, and what
  is spent is taken out of it.  The log says when how much
  was spent.  In no interval more was spent than the depth
  and what came in during the interval.

  Main declarations:
    * `TokenBucket.spent`, `TokenBucket.refill`
    * `TokenBucket.Balanced`
    * `TokenBucket.Balanced.refill`
    * `TokenBucket.Balanced.spend`
-/

------------------------------------------------------------
-- Spending
------------------------------------------------------------

namespace TokenBucket

variable {K : Type*}
variable [Field K] [LinearOrder K] [IsStrictOrderedRing K]

/- What the entries of a log from `t₁` to `t₂` add up to. -/
def spent
    (t₁ t₂ : K)
    (log : List (K × K)) : K :=
  ((log.filter fun x => t₁ ≤ x.1 ∧ x.1 ≤ t₂).map
    Prod.snd).sum

/- The level after some time without spending. -/
def refill
    (depth rate level elapsed : K) : K :=
  min depth (level + elapsed * rate)

omit [IsStrictOrderedRing K] in
theorem spent_concat
    (t₁ t₂ : K)
    (log : List (K × K))
    (x : K × K) :
    spent t₁ t₂ (log ++ [x]) =
      spent t₁ t₂ log +
        if t₁ ≤ x.1 ∧ x.1 ≤ t₂ then x.2 else 0 := by
  unfold spent
  rw [List.filter_append, List.map_append, List.sum_append]
  by_cases hIn : t₁ ≤ x.1 ∧ x.1 ≤ t₂
  · simp [hIn]
  · simp [hIn]

omit [IsStrictOrderedRing K] in
theorem spent_eq_zero
    {t₁ t₂ : K}
    {log : List (K × K)}
    (hNone : ∀ x ∈ log, x.1 < t₁) :
    spent t₁ t₂ log = 0 := by
  have hEmpty :
      (log.filter fun x => t₁ ≤ x.1 ∧ x.1 ≤ t₂) = [] := by
    refine List.filter_eq_nil_iff.mpr fun x hx hIn => ?_
    exact absurd (of_decide_eq_true hIn).1
      (not_le.mpr (hNone x hx))
  rw [spent, hEmpty]
  rfl

/- Nothing is spent after the last entry. -/
omit [IsStrictOrderedRing K] in
theorem spent_of_past
    {t₁ last t₂ : K}
    {log : List (K × K)}
    (hPast : ∀ x ∈ log, x.1 ≤ last)
    (hLast : last ≤ t₂) :
    spent t₁ t₂ log = spent t₁ last log := by
  unfold spent
  refine congrArg (fun l => (List.map Prod.snd l).sum) ?_
  refine List.filter_congr fun x hx => ?_
  have hx := hPast x hx
  simp only [decide_eq_decide]
  exact ⟨fun h => ⟨h.1, hx⟩, fun h => ⟨h.1, hx.trans hLast⟩⟩

end TokenBucket

------------------------------------------------------------
-- Balance
------------------------------------------------------------

namespace TokenBucket

variable {K : Type*}
variable [Field K] [LinearOrder K] [IsStrictOrderedRing K]

/- The level at time `last` pays for what was spent. -/
structure Balanced
    (depth rate level last : K)
    (log : List (K × K)) : Prop where
  nonneg : 0 ≤ level
  le_depth : level ≤ depth
  past : ∀ x ∈ log, x.1 ≤ last
  since : ∀ t, t ≤ last →
    spent t last log + level ≤ depth + rate * (last - t)
  bound : ∀ t₁ t₂, t₁ ≤ t₂ →
    spent t₁ t₂ log ≤ depth + rate * (t₂ - t₁)

variable {depth rate level last : K}
variable {log : List (K × K)}

/- A full bucket from which nothing was spent. -/
theorem balanced_full
    (hDepth : 0 ≤ depth)
    (hRate : 0 ≤ rate)
    (last : K) :
    Balanced depth rate depth last [] := by
  have hIncome : ∀ t₁ t₂ : K, t₁ ≤ t₂ →
      0 ≤ rate * (t₂ - t₁) := fun t₁ t₂ hLe =>
    mul_nonneg hRate (sub_nonneg.mpr hLe)
  constructor
  case nonneg => exact hDepth
  case le_depth => exact le_rfl
  case past => exact fun x hx => absurd hx List.not_mem_nil
  case since =>
    intro t ht
    have := hIncome t last ht
    simp only [spent, List.filter_nil, List.map_nil,
      List.sum_nil]
    linarith
  case bound =>
    intro t₁ t₂ ht
    have := hIncome t₁ t₂ ht
    simp only [spent, List.filter_nil, List.map_nil,
      List.sum_nil]
    linarith

/- Tokens that come in stay within what came in. -/
theorem Balanced.refill
    (hBalanced : Balanced depth rate level last log)
    (hRate : 0 ≤ rate)
    {now : K}
    (hNow : last ≤ now) :
    Balanced depth rate
      (TokenBucket.refill depth rate level (now - last))
      now log := by
  have hIncome : 0 ≤ (now - last) * rate :=
    mul_nonneg (sub_nonneg.mpr hNow) hRate
  have hNonneg := hBalanced.nonneg
  have hDepth := hBalanced.le_depth
  constructor
  case nonneg =>
    exact le_min (hNonneg.trans hDepth)
      (add_nonneg hNonneg hIncome)
  case le_depth => exact min_le_left _ _
  case past => exact fun x hx => (hBalanced.past x hx).trans hNow
  case since =>
    intro t ht
    rw [spent_of_past hBalanced.past hNow]
    by_cases hLast : t ≤ last
    · have hSince := hBalanced.since t hLast
      have hLevel : TokenBucket.refill depth rate level
          (now - last) ≤ level + (now - last) * rate :=
        min_le_right _ _
      calc spent t last log +
            TokenBucket.refill depth rate level (now - last)
          ≤ spent t last log + level +
              (now - last) * rate := by linarith
        _ ≤ depth + rate * (last - t) +
              (now - last) * rate := by linarith
        _ = depth + rate * (now - t) := by ring
    · have hNone : spent t last log = 0 :=
        spent_eq_zero fun x hx =>
          (hBalanced.past x hx).trans_lt (not_le.mp hLast)
      have hLevel : TokenBucket.refill depth rate level
          (now - last) ≤ depth := min_le_left _ _
      have hSpan : 0 ≤ rate * (now - t) :=
        mul_nonneg hRate (sub_nonneg.mpr ht)
      rw [hNone, zero_add]
      linarith
  case bound => exact hBalanced.bound

/- Spending at the time of the level is paid for. -/
theorem Balanced.spend
    (hBalanced : Balanced depth rate level last log)
    (hRate : 0 ≤ rate)
    {amount : K}
    (hAmount : 0 ≤ amount)
    (hEnough : amount ≤ level) :
    Balanced depth rate (level - amount) last
      (log ++ [(last, amount)]) := by
  have hSince : ∀ t, t ≤ last →
      spent t last (log ++ [(last, amount)]) +
          (level - amount) ≤
        depth + rate * (last - t) := by
    intro t ht
    have hOld := hBalanced.since t ht
    rw [spent_concat, if_pos ⟨ht, le_rfl⟩]
    linarith
  constructor
  case nonneg => exact sub_nonneg.mpr hEnough
  case le_depth =>
    exact (sub_le_self level hAmount).trans hBalanced.le_depth
  case past =>
    intro x hx
    rcases List.mem_append.mp hx with hOld | hNew
    · exact hBalanced.past x hOld
    · rw [List.mem_singleton.mp hNew]
  case since => exact hSince
  case bound =>
    intro t₁ t₂ ht
    by_cases hIn : t₁ ≤ last ∧ last ≤ t₂
    · -- an interval around the new entry
      have hPast : ∀ x ∈ log ++ [(last, amount)],
          x.1 ≤ last := by
        intro x hx
        rcases List.mem_append.mp hx with hOld | hNew
        · exact hBalanced.past x hOld
        · rw [List.mem_singleton.mp hNew]
      have hNow := hSince t₁ hIn.1
      have hLater : rate * (last - t₁) ≤ rate * (t₂ - t₁) :=
        mul_le_mul_of_nonneg_left
          (sub_le_sub_right hIn.2 t₁) hRate
      rw [spent_of_past hPast hIn.2]
      linarith
    · rw [spent_concat, if_neg hIn, add_zero]
      exact hBalanced.bound t₁ t₂ ht

end TokenBucket
