import Ns2.Nix.Nixvec.Extracting

/-
  What is added to a vector is extracted from it.

  Indices come back in order, from the vector and from a copy
  of it, where `unsigned long` has 32 bits and can count the
  bits of one more word.  Where it has 64 bits they do only
  while all of them are in one word and none is above one: the
  mask is a single bit there, and a copy of several words has
  only the first half of their bytes.

  Main declarations:
    * `NixVec.RoundTrip`
    * `NixVec.yields_of_stores`
    * `NixVec.extract_returns`
-/

------------------------------------------------------------
-- Round Trips
------------------------------------------------------------

namespace Ns2

namespace Nix

namespace NixVec

variable {W : Nat}

/- The indices are extracted, and nothing after them. -/
def Yields :
    NixVec W → List (BitVec W × Nat) → Prop
  | v, [] =>
      ∀ n, 1 ≤ n → n ≤ 32 →
        v.extract n = some (NIX_NONE W, v)
  | v, q :: qs =>
      ∃ v', v.extract q.2 = some (q.1, v') ∧ Yields v' qs

/-
  Added to a new vector, the indices are extracted after a
  reset, and from a copy whatever its block held before.
-/
def RoundTrip
    (W : Nat)
    (pairs : List (BitVec W × Nat)) : Prop :=
  ∃ v,
    (empty W).addAll pairs = some v ∧
    v.reset.Yields pairs ∧
    ∀ fresh, ∃ c, v.copy fresh = some c ∧ c.Yields pairs

end NixVec

end Nix

end Ns2

------------------------------------------------------------
-- One Extraction
------------------------------------------------------------

namespace Ns2

namespace Nix

namespace NixVec

variable {W : Nat}
variable {v : NixVec W}
variable {t : Nat}
variable {q : BitVec W × Nat}
variable {qs : List (BitVec W × Nat)}

open BitWords

theorem Shape.advance
    (hv : v.Shape t)
    (used : Nat) :
    Shape { v with m_used := used } t :=
  ⟨hv.alth, hv.bound, hv.one, hv.block⟩

/- What is extracted before the end. -/
theorem extract_spec
    (hW : W = 32 ∨ W = 64)
    (hv : v.Shape t)
    (hPos : 1 ≤ q.2)
    (hMost : q.2 ≤ 32)
    (hEnd : v.m_used + q.2 ≤ t) :
    ∃ r,
      v.extract q.2 =
        some (r, { v with m_used := v.m_used + q.2 }) ∧
      (∀ k, W = 32 ∨ k = 0 →
        r.getLsbD k =
          (decide (k < q.2) &&
            v.bit (v.m_used + q.2 - 1 - k))) ∧
      (W = 64 → t ≤ 32 → ∀ k, 0 < k → r.getLsbD k = false) := by
  unfold extract
  rcases Nat.lt_or_ge 32 (v.m_used % 32 + q.2)
    with hTwo | hOne
  · rcases extractFrom_two hW hv hMost hEnd hTwo
      with ⟨r, hGet, hBits⟩
    refine ⟨r, by rw [hGet]; rfl, hBits, by omega⟩
  · rcases extractFrom_one hW hv hPos hEnd hOne
      with ⟨r, hGet, hBits⟩
    refine ⟨r, by rw [hGet]; rfl, ?_, ?_⟩
    · intro k hk
      rw [hBits]
      congr 1
      unfold kept
      exact decide_eq_decide.mpr (by split <;> omega)
    · intro hW64 _ k hk
      rw [hBits, kept, if_neg (by omega),
        decide_eq_false (by omega), Bool.false_and]

/- A step of a sequence that is extracted. -/
theorem Yields.step
    (hW : W = 32 ∨ W = 64)
    (hv : v.Shape t)
    (hPairs : Proper (q :: qs))
    (hEnd : v.m_used + total (q :: qs) ≤ t)
    (hYields : v.Yields (q :: qs)) :
    Yields { v with m_used := v.m_used + q.2 } qs ∧
      q.1.getLsbD 0 = v.bit (v.m_used + q.2 - 1) ∧
      (W = 64 → t ≤ 32 → q.1.toNat ≤ 1) := by
  rw [total_cons] at hEnd
  rcases hPairs q (by simp) with ⟨hPos, hMost, _⟩
  rcases extract_spec (q := q) hW hv hPos hMost (by omega)
    with ⟨r, hGet, hBits, hHigh⟩
  rcases hYields with ⟨v', hGot, hRest⟩
  have hSame := Option.some.inj (hGet.symm.trans hGot)
  have hr : r = q.1 := congrArg Prod.fst hSame
  have hv' : { v with m_used := v.m_used + q.2 } = v' :=
    congrArg Prod.snd hSame
  subst hv'
  refine ⟨hRest, ?_, ?_⟩
  · have hLow := hBits 0 (Or.inr rfl)
    rw [hr, decide_eq_true (by omega), Bool.true_and] at hLow
    exact hLow
  · intro hW64 hShort
    have hBit : ∀ k, 0 < k → q.1.getLsbD k = false := by
      rw [← hr]
      exact hHigh hW64 hShort
    have hLt : q.1.toNat < 2 ^ 1 := by
      apply Nat.lt_pow_two_of_testBit
      intro k hk
      exact hBit k (by omega)
    omega

end NixVec

end Nix

end Ns2

------------------------------------------------------------
-- Extracting What Was Added
------------------------------------------------------------

namespace Ns2

namespace Nix

namespace NixVec

variable {W : Nat}
variable {t : Nat}

open BitWords

/- What the stream has is extracted. -/
theorem yields_of_stores
    {v : NixVec W}
    {pairs : List (BitVec W × Nat)}
    (hW : W = 32 ∨ W = 64)
    (hv : v.Shape t)
    (hRoom : t + 32 < 2 ^ W)
    (hRead :
      W = 32 ∨ t ≤ 32 ∧ ∀ q ∈ pairs, q.1.toNat ≤ 1)
    (hPairs : Proper pairs)
    (hEnd : v.m_used + total pairs = t)
    (hStores : Stores v.bit v.m_used pairs) :
    v.Yields pairs := by
  induction pairs generalizing v with
  | nil =>
      have hAll : v.m_used = t := hEnd
      intro n hPos hMost
      unfold extract
      rw [extractFrom_end hv hMost (by omega) (by omega) hRoom]
      rfl
  | cons q qs ih =>
      rw [total_cons, ← Nat.add_assoc] at hEnd
      rcases hPairs q (by simp) with ⟨hPos, hMost, hLt⟩
      rcases extract_spec (q := q) hW hv hPos hMost (by omega)
        with ⟨r, hGet, hBits, hHigh⟩
      have hValue : r = q.1 := by
        apply eq_of_bits hLt
        intro k
        by_cases hk : W = 32 ∨ k = 0
        · rw [hBits k hk]
          rcases Nat.lt_or_ge k q.2 with hIn | hOut
          · rw [hStores.1 k hIn]
          · rw [decide_eq_false (by omega)]
            rfl
        · have hOne : q.1.toNat < 2 ^ 1 := by
            have := (hRead.resolve_left (by omega)).2 q (by simp)
            omega
          rw [hHigh (by omega)
              (hRead.resolve_left (by omega)).1 k (by omega),
            getLsbD_of_lt hOne (by omega), Bool.and_false]
      refine ⟨_, by rw [hGet, hValue], ?_⟩
      exact ih (hv.advance _)
        (hRead.imp_right fun h =>
          ⟨h.1, fun q' hq' => h.2 q' (by simp [hq'])⟩)
        (fun q' hq' => hPairs q' (by simp [hq']))
        hEnd hStores.2

/- A new vector to which the indices were added. -/
theorem addAll_empty
    {pairs : List (BitVec W × Nat)}
    (hW : 32 ≤ W)
    (hPairs : Proper pairs)
    (hRoom : total pairs + 32 ≤ 2 ^ W) :
    ∃ v,
      (empty W).addAll pairs = some v ∧
      v.Shape (total pairs) ∧
      Stores v.bit 0 pairs := by
  rcases addAll_spec hW (shape_empty hW) rfl
      (fun p _ => bit_empty p) hPairs (by omega)
    with ⟨v, hAll, hShape, _, hStores⟩
  rw [Nat.zero_add] at hShape
  exact ⟨v, hAll, hShape, hStores⟩

theorem Stores.congr
    {f g : Nat → Bool}
    {pairs : List (BitVec W × Nat)}
    {u : Nat}
    (hPairs : Proper pairs)
    (hSame : ∀ p < u + total pairs, g p = f p)
    (hStores : Stores f u pairs) :
    Stores g u pairs := by
  induction pairs generalizing u with
  | nil => trivial
  | cons q qs ih =>
      rw [total_cons, ← Nat.add_assoc] at hSame
      have hPos := (hPairs q (by simp)).1
      refine ⟨fun k hk => ?_, ?_⟩
      · rw [hSame _ (by omega)]
        exact hStores.1 k hk
      · exact ih (fun q' hq' => hPairs q' (by simp [hq']))
          hSame hStores.2

/- Where the bits can be read, all comes back. -/
theorem roundTrip_of_read
    {pairs : List (BitVec W × Nat)}
    (hW : W = 32 ∨ W = 64)
    (hPairs : Proper pairs)
    (hRoom : total pairs + 32 < 2 ^ W)
    (hRead :
      W = 32 ∨
        total pairs ≤ 32 ∧ ∀ q ∈ pairs, q.1.toNat ≤ 1) :
    RoundTrip W pairs := by
  rcases addAll_empty (by omega) hPairs (by omega)
    with ⟨v, hAll, hShape, hStores⟩
  refine ⟨v, hAll, ?_, fun fresh => ?_⟩
  · exact yields_of_stores hW (hShape.advance 0) hRoom hRead
      hPairs (Nat.zero_add _) hStores
  · rcases copy_spec hW hShape fresh
      with ⟨c, hCopy, hCopied, hUsed, hSame, _⟩
    refine ⟨c, hCopy, ?_⟩
    apply yields_of_stores hW hCopied hRoom hRead hPairs
    · rw [hUsed, Nat.zero_add]
    · rw [hUsed]
      refine hStores.congr hPairs ?_
      rw [Nat.zero_add]
      exact hSame (hRead.imp_right And.left)

end NixVec

end Nix

end Ns2

------------------------------------------------------------
-- Where It Does Not Come Back
------------------------------------------------------------

namespace Ns2

namespace Nix

namespace NixVec

variable {W : Nat}
variable {t : Nat}

/- After the indices, nothing is extracted. -/
theorem Yields.atEnd
    {v : NixVec W}
    {pairs : List (BitVec W × Nat)}
    (hW : W = 32 ∨ W = 64)
    (hv : v.Shape t)
    (hPairs : Proper pairs)
    (hEnd : v.m_used + total pairs ≤ t)
    (hYields : v.Yields pairs) :
    Yields { v with m_used := v.m_used + total pairs } [] := by
  induction pairs generalizing v with
  | nil => exact hYields
  | cons q qs ih =>
      have hRest :=
        (Yields.step hW hv hPairs hEnd hYields).1
      rw [total_cons, ← Nat.add_assoc] at hEnd ⊢
      exact ih (hv.advance _)
        (fun q' hq' => hPairs q' (by simp [hq'])) hEnd hRest

/- The lowest bit of the last index is the last bit. -/
theorem Yields.last_bit
    {v : NixVec W}
    (pairs : List (BitVec W × Nat))
    {last : BitVec W × Nat}
    (hW : W = 32 ∨ W = 64)
    (hv : v.Shape t)
    (hPairs : Proper (pairs ++ [last]))
    (hEnd : v.m_used + total (pairs ++ [last]) = t)
    (hYields : v.Yields (pairs ++ [last])) :
    last.1.getLsbD 0 = v.bit (t - 1) := by
  induction pairs generalizing v with
  | nil =>
      rw [← (show v.m_used + last.2 = t from hEnd)]
      exact (Yields.step hW hv hPairs (Nat.le_of_eq hEnd)
        hYields).2.1
  | cons q qs ih =>
      rw [List.cons_append] at hPairs hEnd hYields
      have hRest := (Yields.step
        hW hv hPairs (Nat.le_of_eq hEnd) hYields).1
      rw [total_cons, ← Nat.add_assoc] at hEnd
      have hLast := ih (hv.advance (v.m_used + q.2))
        (fun q' hq' => hPairs q' (List.mem_cons_of_mem q hq'))
        hEnd hRest
      exact hLast

/- With a single word of 64 bits, none is above one. -/
theorem Yields.le_one
    {v : NixVec W}
    {pairs : List (BitVec W × Nat)}
    (hW : W = 64)
    (hv : v.Shape t)
    (hShort : t ≤ 32)
    (hPairs : Proper pairs)
    (hEnd : v.m_used + total pairs ≤ t)
    (hYields : v.Yields pairs) :
    ∀ q ∈ pairs, q.1.toNat ≤ 1 := by
  induction pairs generalizing v with
  | nil => simp
  | cons q qs ih =>
      rcases Yields.step (Or.inr hW) hv hPairs hEnd hYields
        with ⟨hRest, _, hOne⟩
      rw [total_cons, ← Nat.add_assoc] at hEnd
      have hLater := ih (hv.advance (v.m_used + q.2))
        (fun q' hq' => hPairs q' (by simp [hq'])) hEnd hRest
      intro q' hq'
      rcases List.mem_cons.mp hq' with rfl | hq'
      · exact hOne hW hShort
      · exact hLater q' hq'

/- The position starts over where a word more is counted. -/
theorem not_yields_full
    {v : NixVec W}
    (hW : W = 32 ∨ W = 64)
    (hv : v.Shape t)
    (hUsed : v.m_used = t)
    (hFull : t + 32 = 2 ^ W) :
    ¬v.Yields [] := by
  intro hYields
  have hGet := hYields 32 (by omega) (by omega)
  have hPow := two_pow_le (W := W) (by omega)
  have hSpec := room_spec t
  have hMod := two_pow_mod (W := W) (by omega)
  have hWrap : ulong W ((t : Int) + (32 : Nat)) = 0 := by
    have hSum : (t : Int) + (32 : Nat) = (2 ^ W : Nat) := by
      omega
    rw [hSum, ulong, Int.emod_self]
    rfl
  rcases hv.block (by omega) with ⟨ws, hStored, hLength⟩
  have hNe : v.lth ≠ 32 := by
    rw [hv.lth (by omega)]
    omega
  have hOut : ws[t / 32]? = none :=
    List.getElem?_eq_none (by omega)
  have hNone : v.extract 32 = none := by
    unfold extract extractFrom word
    rw [hUsed]
    simp only [hWrap, hStored, Contents.deref, NIX_BPW]
    rw [if_neg (Nat.not_lt_zero _), if_neg hNe]
    simp only [hOut, Option.bind_eq_bind, Option.bind_some]
    rfl
  rw [hNone] at hGet
  contradiction

/- A copy of several words of 64 bits ends in what was there. -/
theorem not_roundTrip_long
    {pairs : List (BitVec W × Nat)}
    (hW : W = 64)
    (hPairs : Proper pairs)
    (hLong : 32 < total pairs)
    (hRoom : total pairs + 32 ≤ 2 ^ W) :
    ¬RoundTrip W pairs := by
  rintro ⟨v, hAll, _, hCopies⟩
  rcases addAll_empty (by omega) hPairs hRoom
    with ⟨v', hAll', hShape, _⟩
  have hSame : v' = v := Option.some.inj (hAll'.symm.trans hAll)
  subst hSame
  have hCons : pairs ≠ [] := by
    rintro rfl
    simp [total] at hLong
  have hSplit := List.dropLast_concat_getLast hCons
  -- the last bit is whatever the block had there
  have hBit : ∀ fresh : Nat → BitVec W,
      (pairs.getLast hCons).1.getLsbD 0 =
        (fresh ((total pairs - 1) / 32)).getLsbD
          (31 - (total pairs - 1) % 32) := by
    intro fresh
    rcases copy_spec (Or.inr hW) hShape fresh
      with ⟨c, hCopy, hCopied, hUsed, _, hFresh⟩
    rcases hCopies fresh with ⟨c', hCopy', hYields⟩
    have hEq : c = c' :=
      Option.some.inj (hCopy.symm.trans hCopy')
    subst hEq
    rw [← hFresh hW hLong]
    refine Yields.last_bit pairs.dropLast
      (Or.inr hW) hCopied ?_ ?_ ?_
    · rw [hSplit]
      exact hPairs
    · rw [hSplit, hUsed, Nat.zero_add]
    · rw [hSplit]
      exact hYields
  have hZero := hBit fun _ => 0
  have hOne := hBit fun _ => BitVec.allOnes W
  rw [hZero, BitVec.getLsbD_allOnes,
    decide_eq_true (by omega)] at hOne
  simp at hOne

/-
  Indices come back exactly when a number has 32 bits and
  counts a word more than they have, or has 64 and all of them
  are zeros and ones in one word.
-/
theorem extract_returns
    (W : Nat)
    (pairs : List (BitVec W × Nat))
    (hW : W = 32 ∨ W = 64)
    (hPairs : Proper pairs) :
    RoundTrip W pairs ↔
      W = 32 ∧ total pairs + 32 < 2 ^ 32 ∨
        W = 64 ∧ total pairs ≤ 32 ∧
          ∀ q ∈ pairs, q.1.toNat ≤ 1 := by
  constructor
  · intro hTrip
    rcases hTrip with ⟨v, hAll, hYields, hCopies⟩
    have hRoom : total pairs + 32 ≤ 2 ^ W := by
      by_contra hMore
      rw [addAll_full (by omega) (shape_empty (by omega)) rfl
        hPairs (by omega)] at hAll
      contradiction
    rcases addAll_empty (by omega) hPairs hRoom
      with ⟨v', hAll', hShape, _⟩
    have hSame : v' = v :=
      Option.some.inj (hAll'.symm.trans hAll)
    subst hSame
    rcases hW with rfl | rfl
    · refine Or.inl ⟨rfl, ?_⟩
      have hLast := Yields.atEnd (Or.inl rfl)
        (hShape.advance 0) hPairs
        (Nat.le_of_eq (Nat.zero_add _)) hYields
      have hNot : total pairs + 32 ≠ 2 ^ 32 := fun hFull =>
        not_yields_full (Or.inl rfl) (hShape.advance _)
          (Nat.zero_add _) hFull hLast
      omega
    · refine Or.inr ⟨rfl, ?_⟩
      have hShort : total pairs ≤ 32 := by
        by_contra hLong
        exact not_roundTrip_long rfl hPairs (by omega) hRoom
          ⟨v', hAll', hYields, hCopies⟩
      exact ⟨hShort, Yields.le_one rfl (hShape.advance 0)
        hShort hPairs (Nat.le_of_eq (Nat.zero_add _)) hYields⟩
  · rintro (⟨rfl, hRoom⟩ | ⟨rfl, hShort, hOnes⟩)
    · exact roundTrip_of_read hW hPairs hRoom (Or.inl rfl)
    · exact roundTrip_of_read hW hPairs (by omega)
        (Or.inr ⟨hShort, hOnes⟩)

/- Three indices, one of them in two words. -/
theorem extract_returns_three :
    ∃ pairs : List (BitVec 32 × Nat),
      pairs = [(2, 2), (12345, 31), (7, 3)] ∧
        RoundTrip 32 pairs :=
  ⟨_, rfl,
    (extract_returns 32 _ (Or.inl rfl) (by decide)).mpr
      (Or.inl ⟨rfl, by decide⟩)⟩

/- An index of two bits is lost where a word has 64. -/
theorem extract_loses_two :
    ¬∀ (W : Nat) (pairs : List (BitVec W × Nat)),
      W = 32 ∨ W = 64 → Proper pairs →
        RoundTrip W pairs := by
  intro hAll
  rcases hAll 64 [(2, 2)] (Or.inr rfl) (by decide)
    with ⟨v, hAdd, ⟨v', hGet, _⟩, _⟩
  have hStored :
      (empty 64).addAll [(2, 2)] =
        some ⟨.value 0x80000000, 2, 2⟩ := by
    decide
  have hv := Option.some.inj (hStored.symm.trans hAdd)
  subst hv
  have hZero :
      (reset ⟨.value 0x80000000, 2, 2⟩ : NixVec 64).extract 2 =
        some (0, ⟨.value 0x80000000, 2, 2⟩) := by
    decide
  rw [hZero] at hGet
  simp at hGet

end NixVec

end Nix

end Ns2
