import Ns2.Nix.Nixvec.Operations
import Mathlib.Tactic.Ring

/-
  What adding to a vector stores.

  A vector of `t` bits has the words for them and no more, and
  an index that is added to it sets the next bits of the
  stream and no others.  An index that would bring the vector
  to within 32 bits of what `unsigned long` counts cannot be
  added.

  Main declarations:
    * `NixVec.Shape`
    * `NixVec.Added`
    * `NixVec.add_spec`, `NixVec.add_full`
-/

------------------------------------------------------------
-- Vectors of So Many Bits
------------------------------------------------------------

namespace Ns2

namespace Nix

namespace NixVec

variable {W : Nat}

open BitWords

/- The bits that are allocated for `t` bits. -/
def room (t : Nat) : Nat :=
  if t = 0 then 32 else ((t - 1) / 32 + 1) * 32

def bit
    (v : NixVec W)
    (p : Nat) : Bool :=
  bitAt 32 v.m_pNV.words p

structure Shape
    (v : NixVec W)
    (t : Nat) : Prop where
  alth : v.m_alth = t
  bound : t + 32 ≤ 2 ^ W
  one : t ≤ 32 → ∃ w, v.m_pNV = .value w
  block :
    32 < t → ∃ ws,
      v.m_pNV = .pointer ws ∧ ws.length * 32 = room t

/- The room is what the bits need, in words of 32. -/
theorem room_spec (t : Nat) :
    room t % 32 = 0 ∧ 32 ≤ room t ∧ t ≤ room t ∧
      (room t < t + 32 ∨ room t = 32) := by
  unfold room
  split <;> omega

theorem two_pow_le
    (hW : 32 ≤ W) : 2 ^ 32 ≤ 2 ^ W :=
  Nat.pow_le_pow_right (by simp) hW

theorem Shape.lth
    {v : NixVec W}
    {t : Nat}
    (hW : 32 ≤ W)
    (hv : v.Shape t) :
    v.lth = room t := by
  have hPow := two_pow_le hW
  have hBound := hv.bound
  unfold NixVec.lth room
  rw [hv.alth]
  split
  · rfl
  · exact ulong_eq rfl (by omega)

/- The new vector holds nothing. -/
theorem shape_empty
    (hW : 32 ≤ W) :
    (empty W).Shape 0 := by
  have hPow := two_pow_le hW
  constructor
  case alth => rfl
  case bound => omega
  case one => exact fun _ => ⟨0, rfl⟩
  case block => omega

theorem bit_empty (p : Nat) :
    (empty W).bit p = false := by
  unfold bit bitAt empty Contents.words
  rcases Nat.eq_zero_or_pos (p / 32) with hp | hp
  · rw [hp]
    simp
  · rw [List.getD_eq_default _ _ hp]
    simp

end NixVec

end Nix

end Ns2

------------------------------------------------------------
-- Adding an Index
------------------------------------------------------------

namespace Ns2

namespace Nix

namespace NixVec

variable {W : Nat}

open BitWords

/- The bits that an index of `n` bits sets from `t` on. -/
def newBit
    (t : Nat)
    (q : BitVec W × Nat)
    (p : Nat) : Bool :=
  decide (t ≤ p ∧ p < t + q.2) &&
    q.1.getLsbD (t + q.2 - 1 - p)

/- The words `ws'` are `ws` with an index added at `t`. -/
def Writes
    (ws ws' : List (BitVec W))
    (t : Nat)
    (q : BitVec W × Nat) : Prop :=
  q.1.toNat < 2 ^ q.2 → ∀ p,
    bitAt 32 ws' p = (bitAt 32 ws p || newBit t q p)

/- The index falls in one word, `s` bits above its low end. -/
theorem writes_one
    {ws : List (BitVec W)}
    {t i s : Nat}
    {q : BitVec W × Nat}
    (hW : 32 ≤ W)
    (hi : i < ws.length)
    (hStart : 32 * i ≤ t)
    (hFits : t + q.2 + s = 32 * i + 32) :
    Writes ws (ws.set i (ws[i] ||| q.1 <<< s)) t q := by
  intro hLt p
  rw [bitAt_set_or hi]
  congr 1
  rw [newBit, BitVec.getLsbD_shiftLeft]
  by_cases hp : t ≤ p ∧ p < t + q.2
  · have hWord : p / 32 = i := by omega
    have hAt : 32 - 1 - p % 32 - s = t + q.2 - 1 - p := by
      omega
    rw [hAt]
    simp only [hWord, hp, and_self, decide_true,
      Bool.true_and]
    rw [decide_eq_true (by omega),
      decide_eq_false (by omega)]
    rfl
  · simp only [hp, decide_false, Bool.false_and]
    by_cases hWord : p / 32 = i
    · rcases Nat.lt_or_ge p t with hBefore | hAfter
      · rw [getLsbD_of_lt hLt (by omega)]
        simp
      · rw [decide_eq_true
          (p := 32 - 1 - p % 32 < s) (by omega)]
        simp
    · simp [hWord]

/- It falls in two words, the first `left` bits in the first. -/
theorem writes_two
    {ws : List (BitVec W)}
    {t i left : Nat}
    {q : BitVec W × Nat}
    (hW : 32 ≤ W)
    (hi : i + 1 < ws.length)
    (hStart : t + left = 32 * i + 32)
    (hLeft : 0 < left)
    (hFirst : left ≤ 32)
    (hMore : left < q.2)
    (hTwo : q.2 ≤ 32) :
    ∃ mid,
      orAt ws i (q.1 >>> (q.2 - left)) = some mid ∧
        ∃ ws',
          orAt mid (i + 1) (q.1 <<< (32 - (q.2 - left))) =
            some ws' ∧
          ws'.length = ws.length ∧
          Writes ws ws' t q := by
  refine ⟨_, orAt_of_lt (by omega) _, _,
    orAt_of_lt (by rw [List.length_set]; exact hi) _,
    by simp, ?_⟩
  intro hLt p
  rw [bitAt_set_or (by rw [List.length_set]; exact hi),
    bitAt_set_or (by omega), Bool.or_assoc]
  congr 1
  rw [newBit, BitVec.getLsbD_ushiftRight,
    BitVec.getLsbD_shiftLeft]
  by_cases hp : t ≤ p ∧ p < t + q.2
  · simp only [hp, and_self, decide_true, Bool.true_and]
    rcases Nat.lt_or_ge p (32 * i + 32) with hLow | hHigh
    · have hWord : p / 32 = i := by omega
      have hAt :
          q.2 - left + (32 - 1 - p % 32) =
            t + q.2 - 1 - p := by
        omega
      rw [hAt]
      simp [hWord]
    · have hWord : p / 32 = i + 1 := by omega
      have hAt :
          32 - 1 - p % 32 - (32 - (q.2 - left)) =
            t + q.2 - 1 - p := by
        omega
      rw [hAt, hWord, decide_eq_true (p := _ < W) (by omega),
        decide_eq_false
          (p := 32 - 1 - p % 32 < 32 - (q.2 - left))
          (by omega)]
      simp
  · simp only [hp, decide_false, Bool.false_and]
    have hFirstWord :
        (decide (p / 32 = i) &&
          q.1.getLsbD (q.2 - left + (32 - 1 - p % 32))) =
          false := by
      by_cases hWord : p / 32 = i
      · rw [getLsbD_of_lt hLt (by omega), Bool.and_false]
      · simp [hWord]
    rw [hFirstWord, Bool.false_or]
    by_cases hWord : p / 32 = i + 1
    · rw [decide_eq_true
        (p := 32 - 1 - p % 32 < 32 - (q.2 - left))
        (by omega)]
      simp
    · simp [hWord]

/- What adding an index to a vector of `t` bits does. -/
structure Added
    (v v' : NixVec W)
    (t : Nat)
    (q : BitVec W × Nat) : Prop where
  used : v'.m_used = t + q.2
  shape : v'.Shape (t + q.2)
  writes : Writes v.m_pNV.words v'.m_pNV.words t q

variable {v : NixVec W}
variable {t : Nat}
variable {q : BitVec W × Nat}

/- Where the bits fit, they go to the last word. -/
theorem addWithin_spec
    (hW : 32 ≤ W)
    (hv : v.Shape t)
    (hUsed : v.m_used = t)
    (hPos : 1 ≤ q.2)
    (hFits : t + q.2 ≤ room t) :
    ∃ c,
      v.addWithin q = some c ∧
      Writes v.m_pNV.words c.words t q ∧
      (t + q.2 ≤ 32 → ∃ w, c = .value w) ∧
      (32 < t + q.2 → ∃ ws,
        c = .pointer ws ∧ ws.length * 32 = room (t + q.2)) := by
  have hPow := two_pow_le hW
  have hBound := hv.bound
  have hRoom := room_spec t
  have hRoom' := room_spec (t + q.2)
  have hShift :
      ulong W ((NIX_BPW : Int) - v.m_used +
        ((v.lth : Int) - 32) - q.2) = room t - (t + q.2) := by
    rw [hUsed, hv.lth hW]
    exact ulong_eq (by simp only [NIX_BPW]; omega) (by omega)
  unfold addWithin
  rw [hShift, shl_of_lt (by omega)]
  rcases Nat.lt_or_ge 32 t with hLong | hShort
  · rcases hv.block hLong with ⟨ws, hStored, hLength⟩
    have hNe : v.lth ≠ NIX_BPW := by
      rw [hv.lth hW, NIX_BPW]
      omega
    have hi : t / 32 < ws.length := by omega
    have hSum :
        t + q.2 + (room t - (t + q.2)) =
          32 * (t / 32) + 32 := by
      omega
    refine ⟨.pointer (ws.set (t / 32)
      (ws[t / 32] ||| q.1 <<< (room t - (t + q.2)))),
      ?_, ?_, ?_, ?_⟩
    · simp only [Option.bind_eq_bind, Option.bind_some]
      rw [if_neg hNe, hStored, hUsed]
      simp only [Contents.deref, NIX_BPW,
        Option.bind_some, orAt_of_lt hi]
      rfl
    · rw [hStored]
      exact writes_one hW hi (by omega) hSum
    · omega
    · exact fun _ => ⟨_, rfl, by simp; omega⟩
  · rcases hv.one hShort with ⟨w, hStored⟩
    have hEq : v.lth = NIX_BPW := by
      rw [hv.lth hW, NIX_BPW]
      omega
    have hi : 0 < [w].length := Nat.one_pos
    have hOne := writes_one
      (t := t) (s := room t - (t + q.2)) (q := q)
      hW hi (by omega) (by omega)
    refine ⟨.value (w ||| q.1 <<< (room t - (t + q.2))),
      ?_, ?_, ?_, ?_⟩
    · simp only [hEq, hStored, Contents.asValue, if_true,
        Option.bind_eq_bind, Option.bind_some]
      rfl
    · rw [hStored]
      exact hOne
    · exact fun _ => ⟨_, rfl⟩
    · omega

/- The words before a block grows. -/
theorem grown_spec
    (hW : 32 ≤ W)
    (hv : v.Shape t) :
    v.grown (room t + 32) = some (v.m_pNV.words ++ [0]) ∧
      v.m_pNV.words.length * 32 = room t := by
  have hSpec := room_spec t
  unfold grown
  rcases Nat.lt_or_ge 32 t with hLong | hShort
  · rcases hv.block hLong with ⟨ws, hStored, hLength⟩
    have hNe : v.lth ≠ NIX_BPW := by
      rw [hv.lth hW, NIX_BPW]
      omega
    have hCount : room t / 32 = ws.length := by omega
    rw [if_neg hNe, hv.lth hW, hStored]
    simp only [Contents.deref, Contents.words,
      Option.bind_eq_bind, Option.bind_some, NIX_BPW,
      hCount, List.take_length]
    rw [if_neg (by omega)]
    exact ⟨rfl, hLength⟩
  · rcases hv.one hShort with ⟨w, hStored⟩
    have hEq : room t = 32 := by omega
    rw [hv.lth hW, hStored, hEq]
    exact ⟨rfl, rfl⟩

/- Where they do not, a word is added for the rest. -/
theorem addGrowing_spec
    (hW : 32 ≤ W)
    (hv : v.Shape t)
    (hUsed : v.m_used = t)
    (hPos : 1 ≤ q.2)
    (hMost : q.2 ≤ 32)
    (hGrows : room t < t + q.2)
    (hRoom : room t + 32 < 2 ^ W) :
    ∃ ws,
      v.addGrowing q = some (.pointer ws) ∧
      Writes v.m_pNV.words ws t q ∧
      ws.length * 32 = room (t + q.2) := by
  have hSpec := room_spec t
  have hSpec' := room_spec (t + q.2)
  rcases grown_spec hW hv with ⟨hGrown, hLength⟩
  have hNew : ulong W ((room t : Int) + NIX_BPW) = room t + 32 :=
    ulong_eq (by simp [NIX_BPW]) hRoom
  have hMore :
      (v.m_pNV.words ++ [0]).length * 32 = room t + 32 := by
    simp
    omega
  unfold addGrowing
  simp only [hUsed, hv.lth hW, hNew, hGrown,
    Option.bind_eq_bind, Option.bind_some]
  by_cases hFull : t = room t
  · have hShift :
        ulong W ((NIX_BPW : Int) - t +
          (((room t + 32 : Nat) : Int) - 32) - q.2) =
            32 - q.2 :=
      ulong_eq (by simp only [NIX_BPW]; omega) (by omega)
    rw [if_pos hFull, hShift, shl_of_lt (by omega)]
    have hi : t / 32 < (v.m_pNV.words ++ [0]).length := by
      omega
    have hWrites := writes_one
      (t := t) (s := 32 - q.2) (q := q)
      hW hi (by omega) (by omega)
    refine ⟨(v.m_pNV.words ++ [0]).set (t / 32)
      ((v.m_pNV.words ++ [0])[t / 32] |||
        q.1 <<< (32 - q.2)), ?_, ?_, ?_⟩
    · simp only [Option.bind_some, NIX_BPW, orAt_of_lt hi]
      rfl
    · intro hLt p
      rw [← bitAt_snoc 32 v.m_pNV.words]
      exact hWrites hLt p
    · rw [List.length_set]
      omega
  · have hLeft :
        ulong W ((room t : Int) - t) = room t - t :=
      ulong_eq (by omega) (by omega)
    have hFirst :
        ulong W ((q.2 : Int) - (room t - t : Nat)) =
          q.2 - (room t - t) :=
      ulong_eq (by omega) (by omega)
    have hSecond :
        ulong W ((NIX_BPW : Int) -
          ((q.2 : Int) - (room t - t : Nat))) =
            32 - (q.2 - (room t - t)) :=
      ulong_eq (by simp only [NIX_BPW]; omega) (by omega)
    rw [if_neg hFull, hLeft, hFirst, hSecond,
      shl_of_lt (by omega), shr_of_lt (by omega)]
    have hi : t / 32 + 1 < (v.m_pNV.words ++ [0]).length := by
      omega
    have hStart : t + (room t - t) = 32 * (t / 32) + 32 := by
      omega
    rcases writes_two (q := q) hW hi hStart (by omega)
        (by omega) (by omega) hMost
      with ⟨mid, hMid, ws, hWs, hSame, hWrites⟩
    refine ⟨ws, ?_, ?_, by omega⟩
    · simp only [Option.bind_some, NIX_BPW, hMid, hWs]
      rfl
    · intro hLt p
      rw [← bitAt_snoc 32 v.m_pNV.words]
      exact hWrites hLt p

/- An index is added while the vector is not too long. -/
theorem add_spec
    (hW : 32 ≤ W)
    (hv : v.Shape t)
    (hUsed : v.m_used = t)
    (hPos : 1 ≤ q.2)
    (hMost : q.2 ≤ 32)
    (hBound : t + q.2 + 32 ≤ 2 ^ W) :
    ∃ v', v.add q = some v' ∧ Added v v' t q := by
  have hSpec := room_spec t
  have hSpec' := room_spec (t + q.2)
  have hNew : ulong W ((v.m_used : Int) + q.2) = t + q.2 :=
    ulong_eq (by rw [hUsed]; omega) (by omega)
  have hMax : max v.m_alth (t + q.2) = t + q.2 := by
    rw [hv.alth]
    omega
  unfold add
  rw [if_neg (by omega)]
  simp only [hNew, hMax, hv.lth hW]
  rcases Nat.lt_or_ge (room t) (t + q.2) with hGrows | hFits
  · rcases addGrowing_spec hW hv hUsed hPos hMost hGrows
        (by omega)
      with ⟨ws, hAdd, hWrites, hLength⟩
    refine ⟨⟨.pointer ws, t + q.2, t + q.2⟩, ?_, rfl, ?_,
      hWrites⟩
    · rw [if_pos hGrows, hAdd]
      rfl
    · constructor
      case alth => rfl
      case bound => exact hBound
      case one => omega
      case block => exact fun _ => ⟨ws, rfl, hLength⟩
  · rcases addWithin_spec hW hv hUsed hPos hFits
      with ⟨c, hAdd, hWrites, hOne, hBlock⟩
    refine ⟨⟨c, t + q.2, t + q.2⟩, ?_, rfl, ?_, hWrites⟩
    · rw [if_neg (by omega), hAdd]
      rfl
    · constructor
      case alth => rfl
      case bound => exact hBound
      case one => exact hOne
      case block => exact hBlock

end NixVec

end Nix

end Ns2

------------------------------------------------------------
-- The Longest Vectors
------------------------------------------------------------

namespace Ns2

namespace Nix

namespace NixVec

variable {W : Nat}

theorem two_pow_mod
    (hW : 32 ≤ W) : 2 ^ W % 32 = 0 :=
  Nat.mod_eq_zero_of_dvd (pow_dvd_pow 2 (n := W) (by omega : 5 ≤ W))

theorem width_le
    (hW : 32 ≤ W) : W + 32 ≤ 2 ^ W := by
  have hHalf : W - 1 < 2 ^ (W - 1) := Nat.lt_two_pow_self
  have hDouble : 2 ^ W = 2 * 2 ^ (W - 1) := by
    rw [← pow_succ']
    congr 1
    omega
  omega

/- The new length, or the new position, starts over at zero. -/
theorem add_full
    {v : NixVec W}
    {t : Nat}
    {q : BitVec W × Nat}
    (hW : 32 ≤ W)
    (hv : v.Shape t)
    (hUsed : v.m_used = t)
    (hPos : 1 ≤ q.2)
    (hMost : q.2 ≤ 32)
    (hFull : 2 ^ W < t + q.2 + 32) :
    v.add q = none := by
  have hBound := hv.bound
  have hSpec := room_spec t
  have hPow := two_pow_le hW
  have hMod := two_pow_mod hW
  have hWidth := width_le hW
  have hRoom : room t = 2 ^ W - 32 := by omega
  have hLth := hv.lth hW
  unfold add
  rw [if_neg (by omega)]
  rcases Nat.lt_or_ge (t + q.2) (2 ^ W) with hLess | hMore
  · have hNew : ulong W ((v.m_used : Int) + q.2) = t + q.2 :=
      ulong_eq (by rw [hUsed]; omega) hLess
    have hLong : 32 < t := by omega
    have hZero : ulong W ((v.lth : Int) + NIX_BPW) = 0 := by
      have hSum : (v.lth : Int) + NIX_BPW = (2 ^ W : Nat) := by
        rw [hLth, hRoom, NIX_BPW]
        omega
      rw [hSum, ulong, Int.emod_self]
      rfl
    have hGrown : v.grown 0 = none := by
      rcases hv.block hLong with ⟨ws, hStored, _⟩
      have hNe : v.lth ≠ NIX_BPW := by
        rw [hLth, NIX_BPW]
        omega
      have hLess : 0 < v.lth := by omega
      unfold grown
      rw [if_neg hNe, hStored]
      simp [Contents.deref, hLess]
    simp only [hNew]
    rw [if_pos (by omega), addGrowing]
    simp only [hZero, hGrown]
    rfl
  · have hSum : t + q.2 = 2 ^ W := by omega
    have hNew : ulong W ((v.m_used : Int) + q.2) = 0 := by
      have hCast : (v.m_used : Int) + q.2 = (2 ^ W : Nat) := by
        rw [hUsed]
        omega
      rw [hCast, ulong, Int.emod_self]
      rfl
    have hShift :
        ulong W ((NIX_BPW : Int) - v.m_used +
          ((v.lth : Int) - 32) - q.2) = 2 ^ W - 32 := by
      have hLess :
          (NIX_BPW : Int) - v.m_used +
            ((v.lth : Int) - 32) - q.2 =
              (2 ^ W - 32 : Nat) - (2 ^ W : Nat) := by
        rw [hUsed, hLth, NIX_BPW]
        omega
      rw [hLess, ulong, Int.sub_emod_right]
      exact ulong_eq rfl (by omega)
    simp only [hNew]
    rw [if_neg (by omega), addWithin, hShift, shl,
      if_neg (by omega)]
    rfl

end NixVec

end Nix

end Ns2

------------------------------------------------------------
-- Adding Indices One by One
------------------------------------------------------------

namespace Ns2

namespace Nix

namespace NixVec

variable {W : Nat}

/- The number of bits of all the indices. -/
def total (pairs : List (BitVec W × Nat)) : Nat :=
  (pairs.map (·.2)).sum

/- Every index fits its bits, and these a word. -/
def Proper (pairs : List (BitVec W × Nat)) : Prop :=
  ∀ q ∈ pairs, 1 ≤ q.2 ∧ q.2 ≤ 32 ∧ q.1.toNat < 2 ^ q.2

instance (pairs : List (BitVec W × Nat)) :
    Decidable (Proper pairs) :=
  inferInstanceAs (Decidable
    (∀ q ∈ pairs, 1 ≤ q.2 ∧ q.2 ≤ 32 ∧ q.1.toNat < 2 ^ q.2))

/- The stream `f` has the indices, one after another. -/
def Stores
    (f : Nat → Bool) :
    Nat → List (BitVec W × Nat) → Prop
  | _, [] => True
  | t, q :: qs =>
      (∀ k < q.2, f (t + q.2 - 1 - k) = q.1.getLsbD k) ∧
        Stores f (t + q.2) qs

theorem total_cons
    (q : BitVec W × Nat)
    (qs : List (BitVec W × Nat)) :
    total (q :: qs) = q.2 + total qs := by
  simp [total]

/- An index is in the stream where it was written. -/
theorem newBit_at
    {t k : Nat}
    {q : BitVec W × Nat}
    (hk : k < q.2) :
    newBit t q (t + q.2 - 1 - k) = q.1.getLsbD k := by
  have hAt : t + q.2 - 1 - (t + q.2 - 1 - k) = k := by omega
  rw [newBit, hAt, decide_eq_true (by omega), Bool.true_and]

theorem newBit_off
    {t p : Nat}
    {q : BitVec W × Nat}
    (hp : p < t ∨ t + q.2 ≤ p) :
    newBit t q p = false := by
  rw [newBit, decide_eq_false (by omega), Bool.false_and]

/- What is added first stays, the rest follows it. -/
theorem addAll_spec
    {pairs : List (BitVec W × Nat)}
    {v : NixVec W}
    {t : Nat}
    (hW : 32 ≤ W)
    (hv : v.Shape t)
    (hUsed : v.m_used = t)
    (hClear : ∀ p, t ≤ p → v.bit p = false)
    (hPairs : Proper pairs)
    (hRoom : t + total pairs + 32 ≤ 2 ^ W) :
    ∃ v',
      v.addAll pairs = some v' ∧
      v'.Shape (t + total pairs) ∧
      (∀ p < t, v'.bit p = v.bit p) ∧
      Stores v'.bit t pairs := by
  induction pairs generalizing v t with
  | nil =>
      exact ⟨v, rfl, hv, fun _ _ => rfl, trivial⟩
  | cons q qs ih =>
      rw [total_cons, ← Nat.add_assoc] at hRoom ⊢
      rcases hPairs q (by simp) with ⟨hPos, hMost, hLt⟩
      rcases add_spec hW hv hUsed hPos hMost (by omega)
        with ⟨v₁, hAdd, hAdded⟩
      have hBits := hAdded.writes hLt
      have hClear₁ :
          ∀ p, t + q.2 ≤ p → v₁.bit p = false := by
        intro p hp
        have hBit := hBits p
        have hOld := hClear p (by omega)
        unfold bit at hOld ⊢
        rw [hBit, hOld, newBit_off (by omega)]
        rfl
      rcases ih hAdded.shape hAdded.used hClear₁
          (fun q' hq' => hPairs q' (by simp [hq'])) hRoom
        with ⟨v', hAll, hShape, hKept, hStores⟩
      refine ⟨v', ?_, hShape, ?_, ?_, hStores⟩
      · simp only [addAll, List.foldlM_cons, hAdd,
          Option.bind_eq_bind, Option.bind_some]
        exact hAll
      · intro p hp
        have hBit := hBits p
        rw [hKept p (by omega)]
        unfold bit
        rw [hBit, newBit_off (by omega), Bool.or_false]
      · intro k hk
        have hBit := hBits (t + q.2 - 1 - k)
        have hOld := hClear (t + q.2 - 1 - k) (by omega)
        rw [hKept _ (by omega)]
        unfold bit at hOld ⊢
        rw [hBit, hOld, newBit_at hk, Bool.false_or]

theorem addAll_full
    {pairs : List (BitVec W × Nat)}
    {v : NixVec W}
    {t : Nat}
    (hW : 32 ≤ W)
    (hv : v.Shape t)
    (hUsed : v.m_used = t)
    (hPairs : Proper pairs)
    (hFull : 2 ^ W < t + total pairs + 32) :
    v.addAll pairs = none := by
  induction pairs generalizing v t with
  | nil =>
      have hBound := hv.bound
      simp only [total, List.map_nil, List.sum_nil] at hFull
      omega
  | cons q qs ih =>
      rw [total_cons, ← Nat.add_assoc] at hFull
      rcases hPairs q (by simp) with ⟨hPos, hMost, hLt⟩
      simp only [addAll, List.foldlM_cons,
        Option.bind_eq_bind]
      rcases Nat.lt_or_ge (2 ^ W) (t + q.2 + 32)
        with hNow | hLater
      · rw [add_full hW hv hUsed hPos hMost hNow]
        rfl
      · rcases add_spec hW hv hUsed hPos hMost hLater
          with ⟨v₁, hAdd, hAdded⟩
        rw [hAdd]
        exact ih hAdded.shape hAdded.used
          (fun q' hq' => hPairs q' (by simp [hq'])) hFull

end NixVec

end Nix

end Ns2
