import Ns2.Nix.Nixvec.Adding

/-
  What is extracted from a vector, and what a copy holds.

  Where `unsigned long` has 32 bits the next bits of the stream
  are extracted.  Where it has 64 the mask is a single bit, so
  that of an index in one word only the lowest bit is left.

  Main declarations:
    * `NixVec.mask_spec`
    * `NixVec.extractFrom_spec`, `NixVec.extractFrom_end`
    * `NixVec.copy_spec`
-/

------------------------------------------------------------
-- Masks
------------------------------------------------------------

namespace Ns2

namespace Nix

namespace NixVec

variable {W : Nat}

/- The bits that a mask for `n` bits has. -/
def kept (W n : Nat) : Nat :=
  if W = 32 then n else 1

/- A `long` of 32 bits is negative there, and shifts ones in. -/
theorem mask_spec
    {n b : Nat}
    (hW : W = 32 ∨ W = 64)
    (hPos : 1 ≤ n)
    (hFits : b + n ≤ 32) :
    ∃ u,
      mask W n b = some u ∧
      ∀ j,
        u.getLsbD j =
          decide (32 - b - n ≤ j ∧
            j < 32 - b - n + kept W n) := by
  have hShift : ulong W ((n : Int) - 1) = n - 1 := by
    rcases hW with rfl | rfl <;>
      exact ulong_eq (by omega) (by omega)
  refine ⟨((BitVec.ofNat W 0x80000000).sshiftRight (n - 1)) >>>
    b, ?_, ?_⟩
  · rw [mask, hShift, sar, if_pos (by omega)]
    exact shr_of_lt (by omega) _
  · intro j
    exact BitWords.getLsbD_mask hW hPos hFits j

end NixVec

end Nix

end Ns2

------------------------------------------------------------
-- Extracting
------------------------------------------------------------

namespace Ns2

namespace Nix

namespace NixVec

variable {W : Nat}
variable {v : NixVec W}
variable {t n used : Nat}

open BitWords

/- Past the end nothing is extracted. -/
theorem extractFrom_end
    (hv : v.Shape t)
    (hMost : n ≤ 32)
    (hUsed : used ≤ t)
    (hPast : t < used + n)
    (hRoom : t + 32 < 2 ^ W) :
    v.extractFrom n used = some (NIX_NONE W, used) := by
  have hSum : ulong W ((used : Int) + n) = used + n :=
    ulong_eq (by omega) (by omega)
  unfold extractFrom
  simp only [hSum, hv.alth]
  rw [if_pos hPast]

/- The words that bits before the end are in. -/
theorem word_spec
    (hW : 32 ≤ W)
    (hv : v.Shape t)
    {p : Nat}
    (hp : p < t) :
    v.word (p / 32) =
      some (v.m_pNV.words.getD (p / 32) 0) := by
  have hSpec := room_spec t
  unfold word
  rcases Nat.lt_or_ge 32 t with hLong | hShort
  · rcases hv.block hLong with ⟨ws, hStored, hLength⟩
    have hNe : v.lth ≠ NIX_BPW := by
      rw [hv.lth hW, NIX_BPW]
      omega
    have hi : p / 32 < ws.length := by omega
    rw [if_neg hNe, hStored]
    simp [Contents.deref, Contents.words, hi,
      List.getD_eq_getElem?_getD]
  · rcases hv.one hShort with ⟨w, hStored⟩
    have hEq : v.lth = NIX_BPW := by
      rw [hv.lth hW, NIX_BPW]
      omega
    have hZero : p / 32 = 0 := by omega
    rw [if_pos hEq, hStored, hZero]
    rfl

theorem next_word_spec
    (hv : v.Shape t)
    {i : Nat}
    (hi : 32 * (i + 1) < t) :
    ∃ ws,
      v.m_pNV.deref = some ws ∧
      ws[i + 1]? = some (v.m_pNV.words.getD (i + 1) 0) := by
  have hSpec := room_spec t
  rcases hv.block (by omega) with ⟨ws, hStored, hLength⟩
  refine ⟨ws, by rw [hStored]; rfl, ?_⟩
  have hLt : i + 1 < ws.length := by omega
  rw [hStored]
  simp [Contents.words, hLt, List.getD_eq_getElem?_getD]

/- An index in one word. -/
theorem extractFrom_one
    (hW : W = 32 ∨ W = 64)
    (hv : v.Shape t)
    (hPos : 1 ≤ n)
    (hEnd : used + n ≤ t)
    (hOne : used % 32 + n ≤ 32) :
    ∃ r,
      v.extractFrom n used = some (r, used + n) ∧
      ∀ k,
        r.getLsbD k =
          (decide (k < kept W n) &&
            v.bit (used + n - 1 - k)) := by
  have hBound := hv.bound
  have hSum : ulong W ((used : Int) + n) = used + n :=
    ulong_eq (by omega) (by omega)
  have hBit : used - used / 32 * 32 = used % 32 := by omega
  have hFits :
      ulong W (((used % 32 : Nat) : Int) + n) =
        used % 32 + n :=
    ulong_eq (by omega) (by omega)
  have hShift :
      ulong W ((NIX_BPW : Int) - (used % 32 : Nat) - n) =
        32 - used % 32 - n :=
    ulong_eq (by simp only [NIX_BPW]; omega) (by omega)
  rcases mask_spec hW hPos hOne with ⟨u, hMask, hBits⟩
  refine ⟨((v.m_pNV.words.getD (used / 32) 0) &&& u) >>>
    (32 - used % 32 - n), ?_, ?_⟩
  · unfold extractFrom
    simp only [hSum, hv.alth]
    rw [if_neg (by omega)]
    simp only [NIX_BPW] at hShift ⊢
    simp only [hBit, hFits, hShift, hMask,
      word_spec (by omega) hv (by omega : used < t),
      Option.bind_eq_bind, Option.bind_some]
    rw [if_pos hOne, shr_of_lt (by omega)]
    rfl
  · intro k
    rw [BitVec.getLsbD_ushiftRight, BitVec.getLsbD_and, hBits]
    have hKept : kept W n ≤ n := by
      unfold kept
      split <;> omega
    by_cases hk : k < kept W n
    · have hWord : (used + n - 1 - k) / 32 = used / 32 := by
        omega
      have hAt :
          32 - 1 - (used + n - 1 - k) % 32 =
            32 - used % 32 - n + k := by
        omega
      rw [bit, bitAt, hWord, hAt, decide_eq_true (by omega),
        decide_eq_true hk, Bool.and_true, Bool.true_and]
    · rw [decide_eq_false (by omega), decide_eq_false hk,
        Bool.and_false, Bool.false_and]

/- An index in two words. -/
theorem extractFrom_two
    (hW : W = 32 ∨ W = 64)
    (hv : v.Shape t)
    (hMost : n ≤ 32)
    (hEnd : used + n ≤ t)
    (hTwo : 32 < used % 32 + n) :
    ∃ r,
      v.extractFrom n used = some (r, used + n) ∧
      ∀ k, W = 32 ∨ k = 0 →
        r.getLsbD k =
          (decide (k < n) && v.bit (used + n - 1 - k)) := by
  have hBound := hv.bound
  have hSum : ulong W ((used : Int) + n) = used + n :=
    ulong_eq (by omega) (by omega)
  have hBit : used - used / 32 * 32 = used % 32 := by omega
  have hFits :
      ulong W (((used % 32 : Nat) : Int) + n) =
        used % 32 + n :=
    ulong_eq (by omega) (by omega)
  have hRest :
      ulong W ((n : Int) - (32 - used % 32 : Nat)) =
        n - (32 - used % 32) :=
    ulong_eq (by omega) (by omega)
  have hShift :
      ulong W ((NIX_BPW : Int) -
        (n - (32 - used % 32) : Nat)) =
          32 - (n - (32 - used % 32)) :=
    ulong_eq (by simp only [NIX_BPW]; omega) (by omega)
  rcases mask_spec hW (n := 32 - used % 32) (b := used % 32)
      (by omega) (by omega)
    with ⟨u, hMask, hBits⟩
  rcases next_word_spec hv (i := used / 32) (by omega)
    with ⟨ws, hDeref, hNext⟩
  refine ⟨((v.m_pNV.words.getD (used / 32) 0) &&& u) <<<
    (n - (32 - used % 32)) |||
      (v.m_pNV.words.getD (used / 32 + 1) 0) >>>
        (32 - (n - (32 - used % 32))), ?_, ?_⟩
  · unfold extractFrom
    simp only [hSum, hv.alth]
    rw [if_neg (by omega)]
    simp only [NIX_BPW] at hShift ⊢
    simp only [hBit, hFits, hRest, hShift, hMask, hDeref,
      hNext, word_spec (by omega) hv (by omega : used < t),
      Option.bind_eq_bind, Option.bind_some]
    rw [if_neg (by omega), shl_of_lt (by omega),
      shr_of_lt (by omega)]
    rfl
  · intro k hk
    rw [BitVec.getLsbD_or, BitVec.getLsbD_shiftLeft,
      BitVec.getLsbD_ushiftRight, BitVec.getLsbD_and, hBits]
    rcases Nat.lt_or_ge k (n - (32 - used % 32))
      with hLow | hHigh
    · have hWord :
          (used + n - 1 - k) / 32 = used / 32 + 1 := by
        omega
      have hAt :
          32 - 1 - (used + n - 1 - k) % 32 =
            32 - (n - (32 - used % 32)) + k := by
        omega
      rw [bit, bitAt, hWord, hAt]
      simp [hLow, (by omega : k < n)]
    · have hW32 : W = 32 := by omega
      subst hW32
      rw [BitVec.getLsbD_of_ge _
        (32 - (n - (32 - used % 32)) + k) (by omega),
        Bool.or_false, kept, if_pos rfl]
      by_cases hIn : k < n
      · have hWord : (used + n - 1 - k) / 32 = used / 32 := by
          omega
        have hAt :
            32 - 1 - (used + n - 1 - k) % 32 =
              k - (n - (32 - used % 32)) := by
          omega
        rw [bit, bitAt, hWord, hAt,
          decide_eq_true (p := k < 32) (by omega),
          decide_eq_false (p := k < n - (32 - used % 32))
            (by omega),
          decide_eq_true hIn]
        rw [decide_eq_true (by omega)]
        simp
      · rw [decide_eq_false (p := 32 - used % 32 -
          (32 - used % 32) ≤ _ ∧ _) (by omega),
          decide_eq_false hIn]
        simp

end NixVec

end Nix

end Ns2

------------------------------------------------------------
-- Copies
------------------------------------------------------------

namespace Ns2

namespace Nix

namespace NixVec

variable {W : Nat}
variable {v : NixVec W}
variable {t : Nat}

open BitWords

/- Bits that the bytes reach are copied. -/
theorem memcpy_copied
    {fresh w : BitVec W}
    {lth k : Nat}
    (hIn : (k + 1) * W ≤ lth) :
    memcpy fresh w lth k = w := by
  have hAll : W - (lth - k * W) = 0 := by
    rw [Nat.succ_mul] at hIn
    omega
  unfold memcpy
  simp [hAll]

/- Bits that they do not reach are not. -/
theorem memcpy_fresh
    {fresh w : BitVec W}
    {lth k : Nat}
    (hOut : lth ≤ k * W) :
    memcpy fresh w lth k = fresh := by
  have hNone : W - (lth - k * W) = W := by omega
  unfold memcpy
  rw [hNone, BitVec.ushiftRight_eq_zero (Nat.le_refl W)]
  simp

/-
  A copy has the bits of the original, unless the words have
  64 bits and there are several.
-/
theorem copy_spec
    (hW : W = 32 ∨ W = 64)
    (hv : v.Shape t)
    (fresh : Nat → BitVec W) :
    ∃ c,
      v.copy fresh = some c ∧
      c.Shape t ∧
      c.m_used = 0 ∧
      (W = 32 ∨ t ≤ 32 → ∀ p < t, c.bit p = v.bit p) ∧
      (W = 64 → 32 < t →
        c.bit (t - 1) =
          (fresh ((t - 1) / 32)).getLsbD
            (31 - (t - 1) % 32)) := by
  have hSpec := room_spec t
  have hLth := hv.lth (by omega)
  unfold copy
  rcases Nat.lt_or_ge 32 t with hLong | hShort
  · rcases hv.block hLong with ⟨ws, hStored, hLength⟩
    have hCount : room t / 32 = ws.length := by omega
    have hEnough : ¬ws.length * W < room t := by
      rcases hW with rfl | rfl <;> omega
    have hBlock : NIX_BPW < v.lth := by
      rw [hLth, NIX_BPW]
      omega
    have hWord : ∀ p < t,
        ((List.range (room t / 32)).map fun k =>
          memcpy (fresh k) (ws.getD k 0) (room t) k).getD
            (p / 32) 0 =
          memcpy (fresh (p / 32)) (ws.getD (p / 32) 0)
            (room t) (p / 32) := by
      intro p hp
      rw [List.getD_eq_getElem?_getD, List.getElem?_map,
        List.getElem?_range (by omega)]
      rfl
    refine ⟨⟨.pointer ((List.range (room t / 32)).map fun k =>
      memcpy (fresh k) (ws.getD k 0) (room t) k), 0,
      v.m_alth⟩, ?_, ?_, rfl, ?_, ?_⟩
    · rw [if_pos hBlock, hStored, hLth]
      simp only [Contents.deref, Option.bind_eq_bind,
        Option.bind_some, hEnough, if_false]
      rfl
    · constructor
      case alth => exact hv.alth
      case bound => exact hv.bound
      case one => omega
      case block =>
        refine fun _ => ⟨_, rfl, ?_⟩
        simp only [List.length_map, List.length_range]
        omega
    · intro hSame p hp
      have hW32 : W = 32 := by omega
      unfold bit bitAt
      rw [hStored]
      simp only [Contents.words]
      rw [hWord p hp, memcpy_copied]
      rw [hW32]
      omega
    · intro hW64 _
      unfold bit bitAt
      simp only [Contents.words]
      rw [hWord (t - 1) (by omega), memcpy_fresh]
      rw [hW64]
      omega
  · have hSmall : ¬NIX_BPW < v.lth := by
      rw [hLth, NIX_BPW]
      omega
    refine ⟨⟨v.m_pNV, 0, v.m_alth⟩, by rw [if_neg hSmall],
      ?_, rfl, fun _ _ _ => rfl, by omega⟩
    exact ⟨hv.alth, hv.bound, hv.one, hv.block⟩

end NixVec

end Nix

end Ns2
