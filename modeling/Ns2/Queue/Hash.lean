import Mathlib.Algebra.Order.Ring.Int

/-
  The bucket of a packet.

  The queues with buckets mix an address, or the sum of two,
  into a number and take remainders of it.  All of it is
  arithmetic of signed words of 32 bits, where a remainder
  has the sign of the dividend.

  Main declarations:
    * `Hash.mix`, `Hash.spread`, `Hash.mix_toInt`
    * `SFQ.hash`, `SFQ.which`
    * `DRR.hash`, `DRR.which`
    * `Hash.which_in_range_iff`
-/

------------------------------------------------------------
-- Remainders
------------------------------------------------------------

namespace Ns2

namespace Hash

/- A word as an index among `n` items. -/
def InRange
    (which n : BitVec 32) : Prop :=
  0 ≤ which.toInt ∧ which.toInt ≤ n.toInt - 1

/- A remainder is an index unless it is negative. -/
theorem inRange_srem
    {x n : BitVec 32}
    (hN : 1 ≤ n.toInt) :
    InRange (x.srem n) n ↔
      0 ≤ x.toInt ∨ n.toInt ∣ x.toInt := by
  have hLt : x.toInt.tmod n.toInt < n.toInt :=
    Int.tmod_lt_of_pos _ (by omega)
  unfold InRange
  rw [BitVec.toInt_srem]
  constructor
  · rintro ⟨hNonneg, -⟩
    rcases lt_or_ge x.toInt 0 with hNeg | hPos
    · have hFlip : (-x.toInt).tmod n.toInt =
          -x.toInt.tmod n.toInt := Int.neg_tmod _ _
      have hFlipped : 0 ≤ (-x.toInt).tmod n.toInt :=
        Int.tmod_nonneg _ (by omega)
      exact Or.inr (Int.dvd_iff_tmod_eq_zero.mpr (by omega))
    · exact Or.inl hPos
  · rintro (hPos | hDvd)
    · exact ⟨Int.tmod_nonneg _ hPos, by omega⟩
    · rw [Int.tmod_eq_zero_of_dvd hDvd]
      omega

/- The remainder of a negative number. -/
theorem tmod_of_neg
    {a b : Int}
    (ha : a < 0) :
    a.tmod b = -((-a) % b) := by
  have hFlip := Int.neg_tmod (-a) b
  rw [neg_neg] at hFlip
  rw [hFlip, Int.tmod_eq_emod_of_nonneg (by omega)]

end Hash

end Ns2

------------------------------------------------------------
-- Mixing
------------------------------------------------------------

namespace Ns2

namespace Hash

/- The mix of shifted copies that both queues use. -/
def mix
    (k : BitVec 32) : BitVec 32 :=
  k + k.sshiftRight 8 + ~~~(k.sshiftRight 4)

/- The mix as a number. -/
def spread
    (k : Int) : Int :=
  k + k / 256 - k / 16 - 1

/- The complement is the negation less one. -/
private theorem toInt_complement
    (x : BitVec 32) :
    (~~~x).toInt = -x.toInt - 1 := by
  have hLt := x.isLt
  rw [BitVec.toInt_eq_toNat_cond, BitVec.toInt_eq_toNat_cond,
    BitVec.toNat_not]
  split_ifs <;> omega

/- The shifted copies outweigh no sum, so the last addition
is exact, whatever the first one did. -/
theorem mix_toInt
    (k : BitVec 32) :
    (mix k).toInt = spread k.toInt := by
  have hLt := BitVec.toInt_lt (x := k)
  have hGe := BitVec.le_toInt k
  have h8 : k.toInt >>> (8 : Nat) = k.toInt / 256 :=
    Int.shiftRight_eq_div_pow _ _
  have h4 : k.toInt >>> (4 : Nat) = k.toInt / 16 :=
    Int.shiftRight_eq_div_pow _ _
  unfold mix spread
  rw [BitVec.toInt_add, BitVec.toInt_add, toInt_complement,
    BitVec.toInt_sshiftRight, BitVec.toInt_sshiftRight,
    Int.bmod_add_bmod, h8, h4,
    Int.bmod_eq_of_le_mul_two (by omega) (by omega)]
  omega

/- The mix of a positive number is no less than zero, and
that of any other is negative. -/
theorem spread_nonneg
    {k : Int} :
    0 ≤ spread k ↔ 0 < k := by
  unfold spread
  omega

end Hash

end Ns2

------------------------------------------------------------
-- The Buckets
------------------------------------------------------------

namespace Ns2

namespace SFQ

/- The hash of a packet. -/
def hash
    (saddr daddr : BitVec 32) : BitVec 32 :=
  -- modulo a large prime
  (Hash.mix (saddr + daddr)).srem ((2 <<< 19) - 1)

/- The bucket that `enque` takes. -/
def which
    (saddr daddr buckets_ : BitVec 32) : BitVec 32 :=
  (hash saddr daddr).srem buckets_

end SFQ

namespace DRR

/- The address that counts, of which a mask leaves the
address of the node. -/
def hashed
    (mask_ saddr : BitVec 32) : BitVec 32 :=
  if mask_ ≠ 0 then saddr &&& 0xfff0 else saddr

/- The hash of a packet. -/
def hash
    (mask_ saddr : BitVec 32) : BitVec 32 :=
  -- modulo a large prime
  (Hash.mix (hashed mask_ saddr)).srem ((2 <<< 23) - 1) + 1

/- The bucket that `enque` takes. -/
def which
    (mask_ saddr buckets_ : BitVec 32) : BitVec 32 :=
  (hash mask_ saddr).srem buckets_

end DRR

namespace Hash

theorem toInt_hash_sfq
    (saddr daddr : BitVec 32) :
    (SFQ.hash saddr daddr).toInt =
      (spread (saddr + daddr).toInt).tmod (2 ^ 20 - 1) := by
  rw [SFQ.hash, BitVec.toInt_srem, mix_toInt]
  rfl

/- Nothing is lost when one is added to a remainder. -/
theorem toInt_hash_drr
    (mask_ saddr : BitVec 32) :
    (DRR.hash mask_ saddr).toInt =
      (spread (DRR.hashed mask_ saddr).toInt).tmod
        (2 ^ 24 - 1) + 1 := by
  have hPrime :
      ((2 <<< 23) - 1 : BitVec 32).toInt = 2 ^ 24 - 1 := by
    decide
  have hOne : (1 : BitVec 32).toInt = 1 := by decide
  have hLt := Int.tmod_lt_of_pos
    (spread (DRR.hashed mask_ saddr).toInt)
    (show (0 : Int) < 2 ^ 24 - 1 by decide)
  have hGt := Int.tmod_lt_of_pos
    (-spread (DRR.hashed mask_ saddr).toInt)
    (show (0 : Int) < 2 ^ 24 - 1 by decide)
  rw [Int.neg_tmod] at hGt
  rw [DRR.hash, BitVec.toInt_add, BitVec.toInt_srem,
    mix_toInt, hPrime, hOne]
  exact Int.bmod_eq_of_le_mul_two (by omega) (by omega)

/- A mask leaves no sign. -/
theorem hashed_nonneg
    (saddr : BitVec 32)
    {mask_ : BitVec 32}
    (hMask : mask_ ≠ 0) :
    0 ≤ (DRR.hashed mask_ saddr).toInt := by
  have hLe : (saddr &&& 0xfff0).toNat ≤ 0xfff0 := by
    rw [BitVec.toNat_and]
    exact Nat.and_le_right
  rw [DRR.hashed, if_pos hMask, BitVec.toInt_eq_toNat_of_lt]
  · exact Int.natCast_nonneg _
  · omega

/- Which buckets stochastic fair queueing takes are in range:
those of a sum that is positive, and the first one. -/
theorem sfq_which
    {saddr daddr buckets_ : BitVec 32}
    (hBuckets : 1 ≤ buckets_.toInt) :
    InRange (SFQ.which saddr daddr buckets_) buckets_ ↔
      0 < (saddr + daddr).toInt ∨
        buckets_.toInt ∣
          -spread (saddr + daddr).toInt % (2 ^ 20 - 1) := by
  rw [SFQ.which, inRange_srem hBuckets, toInt_hash_sfq]
  rcases lt_or_ge 0 (saddr + daddr).toInt with hPos | hNeg
  · have hSpread := spread_nonneg.mpr hPos
    exact iff_of_true
      (Or.inl (Int.tmod_nonneg _ hSpread)) (Or.inl hPos)
  · have hSpread :
        spread (saddr + daddr).toInt < 0 := by
      rw [← not_le, spread_nonneg]
      omega
    rw [tmod_of_neg hSpread]
    have hRest := Int.emod_nonneg
      (-spread (saddr + daddr).toInt)
      (show (2 ^ 20 - 1 : Int) ≠ 0 by decide)
    rw [Int.dvd_neg]
    constructor
    · rintro (hLe | hDvd)
      · rw [show -spread (saddr + daddr).toInt %
          (2 ^ 20 - 1) = 0 by omega]
        exact Or.inr (Int.dvd_zero _)
      · exact Or.inr hDvd
    · rintro (hLt | hDvd)
      · omega
      · exact Or.inr hDvd

/- Which buckets deficit round robin takes are in range: those
of an address that is not negative, and the first two, if
they are reached from below. -/
theorem drr_which
    {mask_ saddr buckets_ : BitVec 32}
    (hBuckets : 1 ≤ buckets_.toInt) :
    InRange (DRR.which mask_ saddr buckets_) buckets_ ↔
      mask_ ≠ 0 ∨ 0 ≤ saddr.toInt ∨
        -spread saddr.toInt % (2 ^ 24 - 1) = 0 ∨
        buckets_.toInt ∣
          -spread saddr.toInt % (2 ^ 24 - 1) - 1 := by
  rw [DRR.which, inRange_srem hBuckets, toInt_hash_drr]
  -- a number that is not negative gives a bucket
  have hGood : 0 ≤ (DRR.hashed mask_ saddr).toInt →
      0 ≤ (spread (DRR.hashed mask_ saddr).toInt).tmod
        (2 ^ 24 - 1) + 1 := by
    intro hNonneg
    rcases Int.lt_or_eq_of_le hNonneg with hPos | hZero
    · have := Int.tmod_nonneg (2 ^ 24 - 1)
        (spread_nonneg.mpr hPos)
      omega
    · rw [← hZero]
      decide
  by_cases hMask : mask_ = 0
  · have hSame : DRR.hashed mask_ saddr = saddr := by
      rw [DRR.hashed, if_neg (not_not.mpr hMask)]
    rw [hSame] at hGood ⊢
    rcases lt_or_ge saddr.toInt 0 with hNeg | hPos
    · have hSpread : spread saddr.toInt < 0 := by
        rw [← not_le, spread_nonneg]
        omega
      have hRest := Int.emod_nonneg (-spread saddr.toInt)
        (show (2 ^ 24 - 1 : Int) ≠ 0 by decide)
      rw [tmod_of_neg hSpread, or_iff_right (not_not.mpr hMask),
        or_iff_right (not_le.mpr hNeg)]
      rw [show -(-spread saddr.toInt % (2 ^ 24 - 1)) + 1 =
        -(-spread saddr.toInt % (2 ^ 24 - 1) - 1) by omega,
        Int.dvd_neg]
      constructor
      · rintro (hLe | hDvd)
        · rcases Int.lt_or_eq_of_le hRest with hLt | hZero
          · rw [show -spread saddr.toInt % (2 ^ 24 - 1) = 1
              by omega]
            exact Or.inr (Int.dvd_zero _)
          · exact Or.inl hZero.symm
        · exact Or.inr hDvd
      · rintro (hZero | hDvd)
        · rw [hZero]
          exact Or.inl (by decide)
        · exact Or.inr hDvd
    · exact iff_of_true (Or.inl (hGood hPos))
        (Or.inr (Or.inl hPos))
  · exact iff_of_true
      (Or.inl (hGood (hashed_nonneg saddr hMask)))
      (Or.inl hMask)

/-
  When both queues take a bucket that there is.

  For a negative address, or a sum of addresses that is not
  positive, the mix is negative, and then its remainder is an
  index only when it falls on a multiple of the buckets.
-/
theorem which_in_range_iff
    (saddr daddr mask_ buckets_ : BitVec 32)
    (hBuckets : 1 ≤ buckets_.toInt) :
    (InRange (SFQ.which saddr daddr buckets_) buckets_ ↔
      0 < (saddr + daddr).toInt ∨
        buckets_.toInt ∣
          -spread (saddr + daddr).toInt % (2 ^ 20 - 1)) ∧
    (InRange (DRR.which mask_ saddr buckets_) buckets_ ↔
      mask_ ≠ 0 ∨ 0 ≤ saddr.toInt ∨
        -spread saddr.toInt % (2 ^ 24 - 1) = 0 ∨
        buckets_.toInt ∣
          -spread saddr.toInt % (2 ^ 24 - 1) - 1) :=
  ⟨sfq_which hBuckets, drr_which hBuckets⟩

theorem which_in_range_one :
    1 ≤ (16 : BitVec 32).toInt ∧
    InRange (SFQ.which 1 2 16) 16 ∧
    InRange (DRR.which 0 1 16) 16 :=
  ⟨by decide,
    (which_in_range_iff 1 2 0 16 (by decide)).1.mpr
      (Or.inl (by decide)),
    (which_in_range_iff 1 2 0 16 (by decide)).2.mpr
      (Or.inr (Or.inl (by decide)))⟩

/- A packet from address 1 to the broadcast address, and one
from the broadcast address, with 16 buckets. -/
theorem which_of_broadcast :
    ¬ InRange (SFQ.which 1 (-1) 16) 16 ∧
    ¬ InRange (DRR.which 0 (-1) 16) 16 := by
  constructor
  · rintro ⟨hNonneg, -⟩
    revert hNonneg
    decide
  · rintro ⟨hNonneg, -⟩
    revert hNonneg
    decide

end Hash

end Ns2
