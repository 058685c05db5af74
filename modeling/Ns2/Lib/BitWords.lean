import Mathlib.Data.Nat.Bitwise

/-
  Streams of bits kept in words.

  The bits of a list of words, of which only the low `b` bits
  of each word count, are read from the most significant of
  the `b` down and from the first word on.

  A word may hold fields of a width instead.  A mask cut out
  of a sign bit selects one of them where a word has 32 bits.

  Main declarations:
    * `BitWords.bitAt`, `BitWords.orAt`
    * `BitWords.bitAt_set_or`, `BitWords.bitAt_snoc`
    * `BitWords.eq_of_bits`
    * `BitWords.getLsbD_mask`, `BitWords.getLsbD_store`
    * `BitWords.orAll`
-/

------------------------------------------------------------
-- Bits of a Stream
------------------------------------------------------------

namespace Ns2

namespace BitWords

variable {W : Nat}

/- The bit at a position, which is zero past the words. -/
def bitAt
    (b : Nat)
    (ws : List (BitVec W))
    (p : Nat) : Bool :=
  (ws.getD (p / b) 0).getLsbD (b - 1 - p % b)

/- Set the bits of `x` in a word, if there is such a word. -/
def orAt
    (ws : List (BitVec W))
    (i : Nat)
    (x : BitVec W) : Option (List (BitVec W)) :=
  ws[i]?.map fun w => ws.set i (w ||| x)

variable {ws : List (BitVec W)}

theorem orAt_of_lt
    {i : Nat}
    (hi : i < ws.length)
    (x : BitVec W) :
    orAt ws i x = some (ws.set i (ws[i] ||| x)) := by
  rw [orAt, List.getElem?_eq_getElem hi]
  rfl

/- Setting bits adds the bits of `x` that fall in the word. -/
theorem bitAt_set_or
    {i : Nat}
    (hi : i < ws.length)
    (b : Nat)
    (x : BitVec W)
    (p : Nat) :
    bitAt b (ws.set i (ws[i] ||| x)) p =
      (bitAt b ws p ||
        (decide (p / b = i) &&
          x.getLsbD (b - 1 - p % b))) := by
  unfold bitAt
  by_cases hp : p / b = i
  · subst hp
    simp [List.getD_eq_getElem?_getD, hi]
  · have hNe : i ≠ p / b := fun h => hp h.symm
    simp [List.getD_eq_getElem?_getD, hp,
      List.getElem?_set_ne hNe]

/- A word of zeros at the end changes no bit. -/
theorem bitAt_snoc
    (b : Nat)
    (ws : List (BitVec W))
    (p : Nat) :
    bitAt b (ws ++ [0]) p = bitAt b ws p := by
  unfold bitAt
  rcases Nat.lt_or_ge (p / b) ws.length with hp | hp
  · rw [List.getD_append _ _ _ _ hp]
  · rw [List.getD_append_right _ _ _ _ hp,
      List.getD_eq_default ws _ hp]
    rcases Nat.eq_or_lt_of_le hp with h | h
    · rw [← h, Nat.sub_self]
      rfl
    · rw [List.getD_eq_default _ _ (by simp; omega)]

end BitWords

end Ns2

------------------------------------------------------------
-- Bits of a Number
------------------------------------------------------------

namespace Ns2

namespace BitWords

variable {W : Nat}

/- A number below a power of two has no bit from there on. -/
theorem getLsbD_of_lt
    {x : BitVec W}
    {n k : Nat}
    (hx : x.toNat < 2 ^ n)
    (hk : n ≤ k) :
    x.getLsbD k = false := by
  rw [BitVec.getLsbD]
  exact Nat.testBit_lt_two_pow
    (lt_of_lt_of_le hx (Nat.pow_le_pow_right (by simp) hk))

/- Numbers with the same bits below `n`, and no others. -/
theorem eq_of_bits
    {x y : BitVec W}
    {n : Nat}
    (hy : y.toNat < 2 ^ n)
    (hBits :
      ∀ k, x.getLsbD k = (decide (k < n) && y.getLsbD k)) :
    x = y := by
  apply BitVec.eq_of_getLsbD_eq
  intro k _
  rw [hBits]
  rcases Nat.lt_or_ge k n with hk | hk
  · simp [hk]
  · rw [getLsbD_of_lt hy hk, Bool.and_false]

end BitWords

end Ns2

------------------------------------------------------------
-- Masks and Fields
------------------------------------------------------------

namespace Ns2

namespace BitWords

variable {W : Nat}

theorem getLsbD_sign
    (hW : W = 32 ∨ W = 64)
    (j : Nat) :
    (BitVec.ofNat W 0x80000000).getLsbD j =
      decide (j = 31) := by
  rw [show (0x80000000 : Nat) = 2 ^ 31 from rfl,
    BitVec.getLsbD_ofNat, Nat.testBit_two_pow]
  by_cases hj : j = 31
  · rw [decide_eq_true (by omega)]
    simp [hj]
  · have hNe : ¬31 = j := fun h => hj h.symm
    simp [hj, hNe]

/- A number of 32 bits is negative there, and shifts ones in. -/
theorem getLsbD_mask
    {n b : Nat}
    (hW : W = 32 ∨ W = 64)
    (hPos : 1 ≤ n)
    (hFits : b + n ≤ 32)
    (j : Nat) :
    (((BitVec.ofNat W 0x80000000).sshiftRight (n - 1)) >>>
        b).getLsbD j =
      decide (32 - b - n ≤ j ∧
        j < 32 - b - n + if W = 32 then n else 1) := by
  rw [BitVec.getLsbD_ushiftRight, BitVec.getLsbD_sshiftRight,
    getLsbD_sign hW]
  rcases hW with rfl | rfl
  · rw [show (BitVec.ofNat 32 0x80000000).msb = true from
      by decide]
    by_cases hIn : n - 1 + (b + j) < 32
    · simp only [hIn, if_true]
      rw [decide_eq_false (p := 32 ≤ b + j) (by omega),
        Bool.not_false, Bool.true_and]
      exact decide_eq_decide.mpr (by omega)
    · simp only [hIn, if_true, if_false, Bool.and_true]
      rw [← decide_not]
      exact decide_eq_decide.mpr (by omega)
  · rw [show (BitVec.ofNat 64 0x80000000).msb = false from
      by decide]
    by_cases hIn : n - 1 + (b + j) < 64
    · simp only [hIn, if_true]
      rw [← decide_not, ← Bool.decide_and]
      exact decide_eq_decide.mpr (by
        rw [if_neg (by omega)]
        omega)
    · simp only [hIn, if_false, Bool.and_false]
      rw [decide_eq_false]
      rw [if_neg (by omega)]
      omega

/- A position belongs to one field. -/
theorem field_iff
    {B b : Nat}
    (hb : b < B)
    (a c : Nat) :
    (c * B ≤ a * B + b ∧ a * B + b < c * B + B) ↔ a = c := by
  constructor
  · intro ⟨hLow, hHigh⟩
    have hDiv : (a * B + b) / B = c :=
      (Nat.div_eq_iff (by omega)).mpr
        ⟨hLow, by omega⟩
    rw [Nat.add_comm, Nat.add_mul_div_right _ _ (by omega),
      Nat.div_eq_of_lt hb] at hDiv
    omega
  · intro h
    subst h
    omega

/-
  Storing a number under a mask that may cover the lower bits
  of its field only.
-/
theorem getLsbD_store
    {B width a b c : Nat}
    {w mask v : BitVec W}
    (hb : b < B)
    (hWidth : width ≤ B)
    (hFit : v.toNat < 2 ^ B)
    (hWord : a * B + b < W)
    (hMask :
      ∀ j, mask.getLsbD j =
        decide (c * B ≤ j ∧ j < c * B + width)) :
    ((w &&& ~~~mask) ||| v <<< (c * B)).getLsbD (a * B + b) =
      if a = c then
        v.getLsbD b ||
          (w.getLsbD (a * B + b) && !decide (b < width))
      else w.getLsbD (a * B + b) := by
  rw [BitVec.getLsbD_or, BitVec.getLsbD_and,
    BitVec.getLsbD_not, BitVec.getLsbD_shiftLeft, hMask,
    decide_eq_true hWord, Bool.true_and, Bool.true_and]
  by_cases hSame : a = c
  · subst hSame
    have hNot : ¬a * B + b < a * B := by omega
    rw [if_pos rfl, Nat.add_sub_cancel_left, Bool.or_comm]
    simp [hNot]
  · rw [if_neg hSame]
    have hOff := fun h => hSame ((field_iff hb a c).mp h)
    have hClear :
        ¬(c * B ≤ a * B + b ∧
          a * B + b < c * B + width) :=
      fun h => hOff ⟨h.1, by omega⟩
    rw [decide_eq_false hClear, Bool.not_false, Bool.and_true]
    by_cases hBelow : a * B + b < c * B
    · simp [hBelow]
    · have hAbove : B ≤ a * B + b - c * B := by
        have hPast : ¬a * B + b < c * B + B :=
          fun h => hOff ⟨Nat.le_of_not_lt hBelow, h⟩
        omega
      rw [getLsbD_of_lt hFit hAbove, Bool.and_false,
        Bool.or_false]

end BitWords

end Ns2

------------------------------------------------------------
-- Words as Sets of Flags
------------------------------------------------------------

namespace Ns2

namespace BitWords

/- The flags of all the words. -/
def orAll (words : List Nat) : Nat :=
  words.foldr (· ||| ·) 0

theorem testBit_orAll
    {words : List Nat}
    {b : Nat} :
    (orAll words).testBit b = true ↔
      ∃ w ∈ words, w.testBit b = true := by
  induction words with
  | nil => simp [orAll]
  | cons w words ih =>
      have hCons : orAll (w :: words) = w ||| orAll words := rfl
      rw [hCons, Nat.testBit_or, Bool.or_eq_true, ih]
      simp only [List.mem_cons, exists_eq_or_imp]

theorem eq_of_flags
    {v w : Nat}
    (hFlags : ∀ b, v.testBit b = true ↔ w.testBit b = true) :
    v = w := by
  apply Nat.eq_of_testBit_eq
  intro b
  exact Bool.eq_iff_iff.mpr (hFlags b)

/- Adding flags that are there changes nothing. -/
theorem or_eq_iff
    {v w : Nat} :
    v ||| w = v ↔
      ∀ b, w.testBit b = true → v.testBit b = true := by
  constructor
  · intro hEq b hBit
    rw [← hEq, Nat.testBit_or, hBit, Bool.or_true]
  · intro hSub
    apply eq_of_flags
    intro b
    rw [Nat.testBit_or, Bool.or_eq_true]
    exact or_iff_left_of_imp (hSub b)

end BitWords

end Ns2
