import Mathlib.Tactic.Common
import Ns2.Lib.Ruler
import Ns2.Queue.Srr.Operations

/-
  The weight spread sequence is a ruler.

  A scan stops at the first power of two that does not divide
  the index.  So the sequence of a lower order begins each
  longer one, and the columns a round of the pointer names
  are as many as their nodes are worth.

  Main declarations:
    * `WSS.init_pwss`
    * `WSS.columns`, `WSS.count_columns`
    * `WSS.Reads`, `WSS.Reads.get`, `WSS.Reads.inc_ptr`
-/

------------------------------------------------------------
-- Scans
------------------------------------------------------------

namespace Ns2

theorem rawScan_end
    (i N : Nat) :
    rawScan i N N le_rfl = N := by
  rw [rawScan, dif_pos rfl]

theorem rawScan_stop
    {i j N : Nat}
    (hLt : j < N)
    (hStop : i % 2 ^ j ≠ 0) :
    rawScan i j N hLt.le = j := by
  rw [rawScan, dif_neg hLt.ne, power, if_pos hStop]

theorem rawScan_pass
    {i j N : Nat}
    (hLt : j < N)
    (hPass : i % 2 ^ j = 0) :
    rawScan i j N hLt.le = rawScan i (j + 1) N hLt := by
  rw [rawScan, dif_neg hLt.ne, power,
    if_neg (not_not.mpr hPass)]

/- A power of two is passed up to its exponent. -/
theorem rawScan_pow
    {k N : Nat}
    (hN : k + 1 ≤ N)
    (d : Nat)
    {j : Nat}
    (hJ : j + d = k + 1) :
    rawScan (2 ^ k) j N (by omega) = k + 1 := by
  induction d generalizing j with
  | zero =>
      have hTop : j = k + 1 := by omega
      subst hTop
      rcases Nat.eq_or_lt_of_le hN with hLast | hLt
      · subst hLast
        exact rawScan_end _ _
      · refine rawScan_stop hLt ?_
        have hSmall : 2 ^ k < 2 ^ (k + 1) :=
          Nat.pow_lt_pow_right (by omega) (by omega)
        rw [Nat.mod_eq_of_lt hSmall]
        exact (Nat.two_pow_pos k).ne'
  | succ d ih =>
      have hPass : 2 ^ k % 2 ^ j = 0 :=
        Nat.mod_eq_zero_of_dvd
          (Nat.pow_dvd_pow 2 (by omega))
      rw [rawScan_pass (by omega) hPass]
      exact ih (by omega)

/- A higher power added to an index is not noticed. -/
theorem rawScan_shift
    {i k N : Nat}
    (hN : k ≤ N)
    (hPos : 0 < i)
    (hLt : i < 2 ^ k)
    (d : Nat)
    {j : Nat}
    (hJ : j + d = k) :
    rawScan (2 ^ k + i) j N (by omega) =
      rawScan i j N (by omega) := by
  induction d generalizing j with
  | zero =>
      have hTop : j = k := by omega
      subst hTop
      rcases Nat.eq_or_lt_of_le hN with hLast | hLess
      · subst hLast
        rw [rawScan_end, rawScan_end]
      · have hStop : i % 2 ^ j ≠ 0 := by
          rw [Nat.mod_eq_of_lt hLt]
          omega
        have hStop' : (2 ^ j + i) % 2 ^ j ≠ 0 := by
          rw [Nat.add_mod_left]
          exact hStop
        rw [rawScan_stop hLess hStop,
          rawScan_stop hLess hStop']
  | succ d ih =>
      have hLess : j < N := by omega
      have hDvd : 2 ^ j ∣ 2 ^ k :=
        Nat.pow_dvd_pow 2 (by omega)
      have hMod : (2 ^ k + i) % 2 ^ j = i % 2 ^ j := by
        rw [Nat.add_mod, Nat.mod_eq_zero_of_dvd hDvd,
          Nat.zero_add, Nat.mod_mod]
      by_cases hPass : i % 2 ^ j = 0
      · rw [rawScan_pass hLess hPass,
          rawScan_pass hLess (hMod.trans hPass)]
        exact ih (by omega)
      · rw [rawScan_stop hLess hPass,
          rawScan_stop hLess (by rw [hMod]; exact hPass)]

/- What the scans of all indices find are a ruler's marks. -/
theorem map_rawScan
    {k N : Nat}
    (hPos : 1 ≤ N)
    (hLe : k ≤ N) :
    (List.range (2 ^ k - 1)).map
        (fun j => rawScan (j + 1) 1 N hPos) =
      Ruler.ruler k := by
  induction k with
  | zero => rfl
  | succ k ih =>
      have hPow := Nat.two_pow_pos k
      have hLow := ih (by omega)
      have hSplit : 2 ^ (k + 1) - 1 =
          (2 ^ k - 1) + (1 + (2 ^ k - 1)) := by
        rw [Nat.pow_succ]
        omega
      rw [hSplit, List.range_add, List.map_append, hLow,
        List.range_add, List.map_append, List.map_append,
        Ruler.ruler, List.range_one, List.map_singleton,
        List.map_singleton, List.singleton_append, List.map_map,
        List.map_map]
      congr 2
      · have hIndex : 2 ^ k - 1 + 0 + 1 = 2 ^ k := by omega
        simp only [hIndex]
        exact rawScan_pow hLe k (by omega)
      · rw [← hLow]
        refine List.map_congr_left fun j hj => ?_
        have hj := List.mem_range.mp hj
        have hIndex : 2 ^ k - 1 + (1 + j) + 1 =
            2 ^ k + (j + 1) := by omega
        simp only [Function.comp_apply, hIndex]
        have hOne : 1 ≤ k := by
          rcases Nat.eq_zero_or_pos k with hZero | hPos
          · subst hZero
            simp at hj
          · exact hPos
        exact rawScan_shift (by omega) (by omega) (by omega)
          (k - 1) (by omega)

/- The sequence is a ruler of the order it was made for. -/
theorem WSS.init_pwss (maxOrder : Nat) :
    (WSS.init maxOrder).pwss = Ruler.ruler maxOrder := by
  unfold WSS.init
  by_cases hOrder : 1 ≤ maxOrder
  · simp only [dif_pos hOrder]
    exact map_rawScan hOrder le_rfl
  · have hZero : maxOrder = 0 := by omega
    subst hZero
    rfl

end Ns2

------------------------------------------------------------
-- Columns
------------------------------------------------------------

namespace Ns2

namespace WSS

/- The columns that a round of order `k` names. -/
def columns (k : Nat) : List Nat :=
  (Ruler.ruler k).map (k - ·)

theorem length_columns (k : Nat) :
    (columns k).length = 2 ^ k - 1 := by
  rw [columns, List.length_map, Ruler.length_ruler_eq]

theorem columns_lt
    {k i : Nat}
    (hMem : i ∈ columns k) :
    i < k := by
  rcases List.mem_map.mp hMem with ⟨t, ht, rfl⟩
  have := Ruler.ruler_bounds ht
  omega

/- A column is named as often as its nodes are worth. -/
theorem count_columns
    {k i : Nat}
    (hLt : i < k) :
    (columns k).count i = 2 ^ i := by
  have hMark : (columns k).count i =
      (Ruler.ruler k).count (k - i) := by
    rw [columns, List.count, List.count, List.countP_map]
    refine List.countP_congr fun t ht => ?_
    have hBounds := Ruler.ruler_bounds ht
    simp only [Function.comp_apply, beq_iff_eq]
    omega
  have hExp : k - (k - i) = i := by omega
  rw [hMark, Ruler.count_ruler (by omega) (by omega), hExp]

/- A sequence used with order `k`, and its pointer. -/
structure Reads
    (maxOrder k : Nat)
    (w : WSS) : Prop where
  pwss : w.pwss = Ruler.ruler maxOrder
  order_le : k ≤ maxOrder
  ptr_lt : w.ptr + 1 < 2 ^ k

variable {maxOrder k : Nat} {w : WSS}

theorem Reads.ptr_lt_length
    (hReads : Reads maxOrder k w) :
    w.ptr < (columns k).length := by
  have hPtr := hReads.ptr_lt
  rw [length_columns]
  omega

/- The entry at the pointer names a column. -/
theorem Reads.get
    (hReads : Reads maxOrder k w) :
    ∃ t, w.get k = some t ∧ 1 ≤ t ∧ t ≤ k ∧
      (columns k)[w.ptr]? = some (k - t) := by
  have hPtr := hReads.ptr_lt
  have hLength := hReads.ptr_lt_length
  rw [columns, List.length_map] at hLength
  have hTake := Ruler.take_ruler hReads.order_le
  have hEntry : (Ruler.ruler maxOrder)[w.ptr]? =
      some (Ruler.ruler k)[w.ptr] := by
    rw [← List.getElem?_eq_getElem hLength, ← hTake,
      List.getElem?_take_of_lt (by omega)]
  have hBounds := Ruler.ruler_bounds
    (List.getElem_mem hLength)
  refine ⟨(Ruler.ruler k)[w.ptr], ?_, hBounds.1, hBounds.2,
    ?_⟩
  · rw [WSS.get, if_neg (by omega), hReads.pwss, hEntry]
  · rw [columns, List.getElem?_map,
      List.getElem?_eq_getElem hLength]
    rfl

/- The pointer goes round. -/
theorem Reads.inc_ptr
    (hReads : Reads maxOrder k w) :
    (w.inc_ptr k).ptr = (w.ptr + 1) % (columns k).length ∧
      Reads maxOrder k (w.inc_ptr k) := by
  have hPtr := hReads.ptr_lt
  rw [length_columns]
  by_cases hLast : 2 ^ k < w.ptr + 1 + 2
  · have hNext : (w.inc_ptr k).ptr = 0 := if_pos hLast
    have hEnd : w.ptr + 1 = 2 ^ k - 1 := by omega
    refine ⟨?_, hReads.pwss, hReads.order_le, ?_⟩
    · rw [hNext, hEnd, Nat.mod_self]
    · rw [hNext]
      omega
  · have hNext : (w.inc_ptr k).ptr = w.ptr + 1 := if_neg hLast
    refine ⟨?_, hReads.pwss, hReads.order_le, ?_⟩
    · rw [hNext, Nat.mod_eq_of_lt (by omega)]
    · rw [hNext]
      omega

end WSS

end Ns2
