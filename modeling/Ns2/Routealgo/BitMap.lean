import Ns2.Lib.BitWords
import Mathlib.Algebra.Order.Ring.Nat
import Mathlib.Data.Nat.Size

/-
  Bitmaps with several bits in an entry.

  A word holds as many entries as fit in 32 bits, and a bitmap
  of one word keeps it in place of the pointer to its words.
  `W` is the number of bits of `unsigned long`.

  Main declarations:
    * `BitMap`
    * `BitMap.create`, `BitMap.findBPE`
    * `BitMap.set`, `BitMap.get`

  Correctness is proven by:
    * `BitMap.set_spec`, `BitMap.get_spec`
    * `BitMap.setAll_spec`
    * `BitMap.keeps_iff`
-/

------------------------------------------------------------
-- Bitmap Definition
------------------------------------------------------------

namespace Ns2

namespace Routealgo

/- What the pointer of a bitmap stands for. -/
inductive Store (W : Nat) where
| value (w : BitVec W)
| words (ws : List (BitVec W))
  deriving DecidableEq

structure BitMap (W : Nat) where
  m_Size : Nat
  m_BPE : Nat
  m_Words : Nat
  m_EPW : Nat
  m_pM : Store W
  deriving DecidableEq

namespace BitMap

variable {W : Nat}

def BITS_ULONG : Nat := 32

def create
    (W size bitsPerEntry : Nat) : BitMap W :=
  let epw := BITS_ULONG / bitsPerEntry
  let words := (size + epw - 1) / epw
  { m_Size := size
    m_BPE := bitsPerEntry
    m_Words := words
    m_EPW := epw
    m_pM :=
      if 1 < words then .words (List.replicate words 0)
      else .value 0 }

/- The assertion that an entry exists. -/
def validate
    (m : BitMap W)
    (which : Nat) : Option Unit :=
  if which < m.m_Size then some () else none

def getShiftCount
    (m : BitMap W)
    (which : Nat) : Option Nat := do
  m.validate which
  let ind := which / m.m_EPW
  let left := which - ind * m.m_EPW
  return left * m.m_BPE

def getBitMask
    (m : BitMap W)
    (which : Nat) : Option (BitVec W) := do
  let v :=
    (BitVec.ofNat W 0x80000000).sshiftRight (m.m_BPE - 1)
  let c ← m.getShiftCount which
  return v >>> (32 - (c + m.m_BPE))

def getWordAddress
    (m : BitMap W)
    (which : Nat) : Option Nat := do
  m.validate which
  let ind := which / m.m_EPW
  if m.m_Words = 1 then return 0 else return ind

end BitMap

end Routealgo

end Ns2

------------------------------------------------------------
-- Reading and Writing
------------------------------------------------------------

namespace Ns2

namespace Routealgo

variable {W : Nat}

namespace Store

def load
    (s : Store W)
    (a : Nat) : Option (BitVec W) :=
  match s with
  | .value w => if a = 0 then some w else none
  | .words ws => ws[a]?

def store
    (s : Store W)
    (a : Nat)
    (x : BitVec W) : Store W :=
  match s with
  | .value w => if a = 0 then .value x else .value w
  | .words ws => .words (ws.set a x)

end Store

namespace BitMap

def set
    (m : BitMap W)
    (which : Nat)
    (value : BitVec W) : Option (BitMap W) := do
  let pW ← m.getWordAddress which
  let mask ← m.getBitMask which
  let shift ← m.getShiftCount which
  let w ← m.m_pM.load pW
  let w := w &&& ~~~mask
  let w := w ||| (value <<< shift)
  return { m with m_pM := m.m_pM.store pW w }

def get
    (m : BitMap W)
    (which : Nat) : Option (BitVec W) := do
  let pW ← m.getWordAddress which
  let mask ← m.getBitMask which
  let shift ← m.getShiftCount which
  let r ← m.m_pM.load pW
  return (r &&& mask) >>> shift

/- `k` is the bit tested first, the lowest bit being 1. -/
def findBPEFrom
    (m : Nat) : Nat → Nat
| 0 => 0
| k + 1 => if m.testBit k then k + 1 else findBPEFrom m k

def findBPE (m : Nat) : Nat :=
  findBPEFrom m 32

end BitMap

end Routealgo

end Ns2

------------------------------------------------------------
-- Sound Bitmaps
------------------------------------------------------------

namespace Ns2

namespace Routealgo

variable {W : Nat}

namespace Store

variable {s : Store W}

/- The words that can be read. -/
def Holds
    (s : Store W)
    (n : Nat) : Prop :=
  ∀ a, a < n → ∃ w, s.load a = some w

theorem load_store
    {a : Nat}
    {w x : BitVec W}
    (hLoad : s.load a = some w) :
    (s.store a x).load a = some x := by
  cases s with
  | value y =>
      by_cases ha : a = 0
      · simp [load, store, ha]
      · simp [load, ha] at hLoad
  | words ws =>
      have ha : a < ws.length :=
        (List.getElem?_eq_some_iff.mp hLoad).1
      simp [load, store, ha]

theorem load_store_ne
    {a c : Nat}
    {x : BitVec W}
    (hNe : c ≠ a) :
    (s.store a x).load c = s.load c := by
  cases s with
  | value y =>
      by_cases ha : a = 0
      · have hc : c ≠ 0 := fun h => hNe (h.trans ha.symm)
        simp [load, store, ha, hc]
      · simp [load, store, ha]
  | words ws =>
      simp [load, store, List.getElem?_set_ne hNe.symm]

theorem Holds.store
    {n a : Nat}
    {x : BitVec W}
    (hs : s.Holds n) :
    (s.store a x).Holds n := by
  intro c hc
  rcases hs c hc with ⟨w, hw⟩
  by_cases hSame : c = a
  · subst hSame
    exact ⟨x, load_store hw⟩
  · exact ⟨w, (load_store_ne hSame).trans hw⟩

end Store

namespace BitMap

variable {m : BitMap W}

/- How the parts of a bitmap belong together. -/
structure Sound (m : BitMap W) : Prop where
  bits_pos : 1 ≤ m.m_BPE
  bits_le : m.m_BPE ≤ 32
  entries : m.m_EPW = 32 / m.m_BPE
  words : m.m_Words = (m.m_Size + m.m_EPW - 1) / m.m_EPW
  stored : m.m_pM.Holds m.m_Words

theorem Sound.entries_pos
    (hm : m.Sound) :
    0 < m.m_EPW := by
  rw [hm.entries]
  exact Nat.div_pos hm.bits_le hm.bits_pos

theorem Sound.address_lt
    (hm : m.Sound)
    {k : Nat}
    (hk : k < m.m_Size) :
    k / m.m_EPW < m.m_Words := by
  have hPos := hm.entries_pos
  rw [hm.words, Nat.div_lt_iff_lt_mul hPos]
  have hLast := Nat.lt_div_mul_add
    (a := m.m_Size + m.m_EPW - 1) hPos
  omega

theorem Sound.address
    (hm : m.Sound)
    {k : Nat}
    (hk : k < m.m_Size) :
    m.getWordAddress k = some (k / m.m_EPW) := by
  have hLt := hm.address_lt hk
  unfold getWordAddress validate
  rw [if_pos hk]
  by_cases hOne : m.m_Words = 1
  · have hZero : k / m.m_EPW = 0 := by
      rw [hOne] at hLt
      exact Nat.lt_one_iff.mp hLt
    simp [hOne, hZero]
  · simp [hOne]

theorem shiftCount
    {k : Nat}
    (hk : k < m.m_Size) :
    m.getShiftCount k =
      some (k % m.m_EPW * m.m_BPE) := by
  have hMod :=
    Nat.mod_eq_sub_div_mul (x := k) (k := m.m_EPW)
  unfold getShiftCount validate
  rw [if_pos hk, hMod]
  rfl

/- An entry ends within the low 32 bits of its word. -/
theorem Sound.shift_le
    (hm : m.Sound)
    (k : Nat) :
    k % m.m_EPW * m.m_BPE + m.m_BPE ≤ 32 := by
  have hMod := Nat.mod_lt k hm.entries_pos
  calc
    k % m.m_EPW * m.m_BPE + m.m_BPE
      = (k % m.m_EPW + 1) * m.m_BPE := by
        rw [Nat.add_mul, Nat.one_mul]
    _ ≤ m.m_EPW * m.m_BPE :=
        Nat.mul_le_mul_right _ hMod
    _ ≤ 32 := by
        rw [hm.entries]
        exact Nat.div_mul_le_self _ _

end BitMap

end Routealgo

end Ns2

------------------------------------------------------------
-- New Bitmaps
------------------------------------------------------------

namespace Ns2

namespace Routealgo

namespace BitMap

variable {W : Nat}

theorem create_sound
    {size bpe : Nat}
    (hPos : 1 ≤ bpe)
    (hLe : bpe ≤ 32) :
    (create W size bpe).Sound := by
  constructor
  case bits_pos => exact hPos
  case bits_le => exact hLe
  case entries => rfl
  case words => rfl
  case stored =>
    intro a ha
    change a < (create W size bpe).m_Words at ha
    have hStore :
        (create W size bpe).m_pM =
          if 1 < (create W size bpe).m_Words then
            .words (List.replicate
              (create W size bpe).m_Words 0)
          else .value 0 := rfl
    rw [hStore]
    split
    · exact ⟨0, by simp [Store.load, ha]⟩
    · have hZero : a = 0 := by omega
      exact ⟨0, by simp [Store.load, hZero]⟩

theorem findBPEFrom_spec
    {n k : Nat}
    (hn : n < 2 ^ k) :
    n < 2 ^ findBPEFrom n k ∧ findBPEFrom n k ≤ k := by
  induction k with
  | zero => exact ⟨hn, le_rfl⟩
  | succ k ih =>
      rw [findBPEFrom]
      split
      · exact ⟨hn, le_rfl⟩
      next hClear =>
        have hBelow : n < 2 ^ k := by
          apply Nat.lt_pow_two_of_testBit
          intro i hi
          rcases Nat.eq_or_lt_of_le hi with rfl | hLt
          · simpa using hClear
          · exact Nat.testBit_lt_two_pow
              (Nat.lt_of_lt_of_le hn
                (Nat.pow_le_pow_right (by omega) hLt))
        exact ⟨(ih hBelow).1, Nat.le_succ_of_le (ih hBelow).2⟩

/- The bits of a number are enough to hold it. -/
theorem findBPE_spec
    {n : Nat}
    (hn : n < 2 ^ 32) :
    n < 2 ^ findBPE n ∧ findBPE n ≤ 32 :=
  findBPEFrom_spec hn

end BitMap

end Routealgo

end Ns2

------------------------------------------------------------
-- Entries
------------------------------------------------------------

namespace Ns2

namespace Routealgo

namespace BitMap

variable {W : Nat}
variable {m : BitMap W}

/- The low bits of an entry that its mask covers. -/
def covered
    (W bpe : Nat) : Nat :=
  if W = 32 then bpe else 1

/- Where `unsigned long` has 64 bits the mask is one bit. -/
theorem Sound.bitMask
    (hm : m.Sound)
    (hW : W = 32 ∨ W = 64)
    {k : Nat}
    (hk : k < m.m_Size) :
    ∃ mask,
      m.getBitMask k = some mask ∧
      ∀ j,
        mask.getLsbD j =
          decide (k % m.m_EPW * m.m_BPE ≤ j ∧
            j < k % m.m_EPW * m.m_BPE +
              covered W m.m_BPE) := by
  have hFit := hm.shift_le k
  refine ⟨_, by rw [getBitMask, shiftCount hk]; rfl,
    fun j => ?_⟩
  have hBits := BitWords.getLsbD_mask (W := W) (j := j)
    (n := m.m_BPE)
    (b := 32 - (k % m.m_EPW * m.m_BPE + m.m_BPE))
    hW hm.bits_pos (by omega)
  have hLow :
      32 - (32 - (k % m.m_EPW * m.m_BPE + m.m_BPE)) -
        m.m_BPE = k % m.m_EPW * m.m_BPE := by
    omega
  rw [hLow] at hBits
  exact hBits

theorem covered_le
    (hPos : 1 ≤ m.m_BPE) :
    covered W m.m_BPE ≤ m.m_BPE := by
  unfold covered
  split
  · exact le_rfl
  · exact hPos

/- A bit of an entry as it is stored. -/
def bitOf
    (m : BitMap W)
    (k b : Nat) : Bool :=
  ((m.m_pM.load (k / m.m_EPW)).getD 0).getLsbD
    (k % m.m_EPW * m.m_BPE + b)

theorem get_spec
    (hm : m.Sound)
    (hW : W = 32 ∨ W = 64)
    {k : Nat}
    (hk : k < m.m_Size) :
    ∃ x,
      m.get k = some x ∧
      ∀ b,
        x.getLsbD b =
          (decide (b < covered W m.m_BPE) && m.bitOf k b) := by
  rcases hm.bitMask hW hk with ⟨mask, hMask, hBits⟩
  rcases hm.stored _ (hm.address_lt hk) with ⟨w, hw⟩
  refine ⟨(w &&& mask) >>> (k % m.m_EPW * m.m_BPE), ?_, ?_⟩
  · rw [get, hm.address hk, hMask, shiftCount hk]
    simp [hw]
  · intro b
    rw [BitVec.getLsbD_ushiftRight, BitVec.getLsbD_and, hBits,
      bitOf, hw, Bool.and_comm]
    simp

/- What setting an entry leaves and what it changes. -/
structure Sets
    (m : BitMap W)
    (k : Nat)
    (v : BitVec W)
    (m' : BitMap W) : Prop where
  sound : m'.Sound
  size : m'.m_Size = m.m_Size
  bits : m'.m_BPE = m.m_BPE
  here :
    ∀ b, b < covered W m.m_BPE → m'.bitOf k b = v.getLsbD b
  elsewhere :
    ∀ j, j ≠ k → ∀ b, b < m.m_BPE → m'.bitOf j b = m.bitOf j b

theorem set_spec
    (hm : m.Sound)
    (hW : W = 32 ∨ W = 64)
    {k : Nat}
    {v : BitVec W}
    (hk : k < m.m_Size)
    (hv : v.toNat < 2 ^ m.m_BPE) :
    ∃ m', m.set k v = some m' ∧ m.Sets k v m' := by
  rcases hm.bitMask hW hk with ⟨mask, hMask, hBits⟩
  rcases hm.stored _ (hm.address_lt hk) with ⟨w, hw⟩
  have hRoom : 32 ≤ W := by omega
  -- the bits of the word that is written
  have hWord :
      ∀ j b, b < m.m_BPE →
        ((w &&& ~~~mask) |||
            v <<< (k % m.m_EPW * m.m_BPE)).getLsbD
              (j % m.m_EPW * m.m_BPE + b) =
          if j % m.m_EPW = k % m.m_EPW then
            v.getLsbD b ||
              (w.getLsbD (j % m.m_EPW * m.m_BPE + b) &&
                !decide (b < covered W m.m_BPE))
          else w.getLsbD (j % m.m_EPW * m.m_BPE + b) := by
    intro j b hb
    have hFit := hm.shift_le j
    exact BitWords.getLsbD_store hb (covered_le hm.bits_pos)
      hv (by omega) hBits
  refine ⟨_, by
    rw [set, hm.address hk, hMask, shiftCount hk]
    simp only [Option.bind_eq_bind, Option.bind_some, hw]
    rfl, ?_⟩
  constructor
  case sound =>
    exact
      { bits_pos := hm.bits_pos
        bits_le := hm.bits_le
        entries := hm.entries
        words := hm.words
        stored := hm.stored.store }
  case size => rfl
  case bits => rfl
  case here =>
    intro b hb
    have hLt := Nat.lt_of_lt_of_le hb (covered_le hm.bits_pos)
    simp only [bitOf, Store.load_store hw, Option.getD_some]
    rw [hWord k b hLt, if_pos rfl, decide_eq_true hb]
    simp
  case elsewhere =>
    intro j hNe b hb
    by_cases hSame : j / m.m_EPW = k / m.m_EPW
    · have hOther : j % m.m_EPW ≠ k % m.m_EPW := by
        intro hMod
        apply hNe
        rw [← Nat.div_add_mod j m.m_EPW, hSame, hMod,
          Nat.div_add_mod]
      simp only [bitOf, hSame, Store.load_store hw, hw,
        Option.getD_some]
      rw [hWord j b hb, if_neg hOther]
    · simp only [bitOf, Store.load_store_ne hSame]

end BitMap

end Routealgo

end Ns2

------------------------------------------------------------
-- Histories of a Bitmap
------------------------------------------------------------

namespace Ns2

namespace Routealgo

namespace BitMap

variable {W : Nat}
variable {m m' : BitMap W}

def setAll
    (m : BitMap W)
    (sets : List (Nat × BitVec W)) : Option (BitMap W) :=
  sets.foldlM (fun m s => m.set s.1 s.2) m

/- What was set last in each entry, if anything was. -/
def lastSet
    (f : Nat → Option (BitVec W))
    (sets : List (Nat × BitVec W)) : Nat → Option (BitVec W) :=
  sets.foldl (fun f s => Function.update f s.1 (some s.2)) f

/- Values that fit in the entries there are. -/
def InRange
    (m : BitMap W)
    (sets : List (Nat × BitVec W)) : Prop :=
  ∀ s, s ∈ sets →
    s.1 < m.m_Size ∧ s.2.toNat < 2 ^ m.m_BPE

/- Every history leaves in each entry what was set last. -/
def Keeps (m : BitMap W) : Prop :=
  ∀ sets, m.InRange sets →
    ∃ m',
      m.setAll sets = some m' ∧
      ∀ k v, k < m.m_Size →
        lastSet (fun _ => none) sets k = some v →
        m'.get k = some v

/- The covered bits of an entry are those set last. -/
def Agrees
    (m : BitMap W)
    (f : Nat → Option (BitVec W)) : Prop :=
  ∀ k v, f k = some v →
    ∀ b, b < covered W m.m_BPE → m.bitOf k b = v.getLsbD b

theorem Agrees.step
    {f : Nat → Option (BitVec W)}
    {k : Nat}
    {v : BitVec W}
    (hm : m.Sound)
    (hAgrees : m.Agrees f)
    (hSets : m.Sets k v m') :
    m'.Agrees (Function.update f k (some v)) := by
  intro j u hLast b hb
  rw [hSets.bits] at hb
  by_cases hSame : j = k
  · subst hSame
    rw [Function.update_self] at hLast
    cases hLast
    exact hSets.here b hb
  · rw [Function.update_of_ne hSame] at hLast
    have hLt := Nat.lt_of_lt_of_le hb (covered_le hm.bits_pos)
    rw [hSets.elsewhere j hSame b hLt]
    exact hAgrees j u hLast b hb

theorem setAll_spec
    (hW : W = 32 ∨ W = 64)
    {sets : List (Nat × BitVec W)}
    {f : Nat → Option (BitVec W)}
    (hm : m.Sound)
    (hRange : m.InRange sets)
    (hAgrees : m.Agrees f) :
    ∃ m',
      m.setAll sets = some m' ∧
      m'.Sound ∧
      m'.m_Size = m.m_Size ∧
      m'.m_BPE = m.m_BPE ∧
      m'.Agrees (lastSet f sets) := by
  induction sets generalizing m f with
  | nil => exact ⟨m, rfl, hm, rfl, rfl, hAgrees⟩
  | cons s rest ih =>
      rcases hRange s List.mem_cons_self with ⟨hIn, hFit⟩
      rcases set_spec hm hW hIn hFit with ⟨m₁, hSet, hSets⟩
      have hRest : m₁.InRange rest := by
        intro u hu
        rw [hSets.size, hSets.bits]
        exact hRange u (List.mem_cons_of_mem _ hu)
      rcases ih hSets.sound hRest (hAgrees.step hm hSets) with
        ⟨m', hAll, hSound, hSize, hBits, hEnd⟩
      refine ⟨m', ?_, hSound, hSize.trans hSets.size,
        hBits.trans hSets.bits, hEnd⟩
      rw [setAll, List.foldlM_cons, hSet]
      exact hAll

/- An entry reads as the covered bits of what was set last. -/
theorem Agrees.get
    (hW : W = 32 ∨ W = 64)
    {f : Nat → Option (BitVec W)}
    {k : Nat}
    {v : BitVec W}
    (hm : m.Sound)
    (hAgrees : m.Agrees f)
    (hk : k < m.m_Size)
    (hLast : f k = some v) :
    ∃ x,
      m.get k = some x ∧
      x.toNat = v.toNat % 2 ^ covered W m.m_BPE := by
  rcases get_spec hm hW hk with ⟨x, hGet, hBits⟩
  refine ⟨x, hGet, Nat.eq_of_testBit_eq fun b => ?_⟩
  rw [Nat.testBit_mod_two_pow]
  have hBit := hBits b
  by_cases hb : b < covered W m.m_BPE
  · rw [hAgrees k v hLast b hb] at hBit
    simpa [BitVec.getLsbD, hb] using hBit
  · simpa [BitVec.getLsbD, hb] using hBit

/- What was set last was set in the history. -/
theorem lastSet_mem
    {sets : List (Nat × BitVec W)}
    {f : Nat → Option (BitVec W)}
    {k : Nat}
    {v : BitVec W}
    (hLast : lastSet f sets k = some v) :
    (k, v) ∈ sets ∨ f k = some v := by
  induction sets generalizing f with
  | nil => exact Or.inr hLast
  | cons s rest ih =>
      rcases ih hLast with hMem | hHead
      · exact Or.inl (List.mem_cons_of_mem _ hMem)
      · change Function.update f s.1 (some s.2) k = some v
          at hHead
        by_cases hSame : k = s.1
        · subst hSame
          rw [Function.update_self] at hHead
          cases hHead
          exact Or.inl List.mem_cons_self
        · rw [Function.update_of_ne hSame] at hHead
          exact Or.inr hHead

theorem agrees_none :
    m.Agrees fun _ => none := by
  intro k v hNone
  cases hNone

theorem keeps_iff
    (hW : W = 32 ∨ W = 64)
    (hm : m.Sound)
    (hSize : 0 < m.m_Size)
    (hTwo : 2 ≤ m.m_BPE) :
    m.Keeps ↔ W = 32 := by
  constructor
  · intro hKeeps
    by_contra hWide
    -- two is set where the mask covers the lowest bit
    have hFour : 2 ^ 2 ≤ 2 ^ m.m_BPE :=
      Nat.pow_le_pow_right (by omega) hTwo
    have hLarge : (2 : Nat) < 2 ^ W :=
      Nat.lt_of_lt_of_le (by omega)
        (Nat.pow_le_pow_right (n := 2) (i := 2)
          (by omega) (by omega))
    have hValue : (BitVec.ofNat W 2).toNat = 2 := by
      rw [BitVec.toNat_ofNat, Nat.mod_eq_of_lt hLarge]
    have hRange : m.InRange [(0, BitVec.ofNat W 2)] := by
      intro s hs
      rw [List.mem_singleton.mp hs]
      exact ⟨hSize, by rw [hValue]; omega⟩
    have hLast :
        lastSet (fun _ => none) [(0, BitVec.ofNat W 2)] 0 =
          some (BitVec.ofNat W 2) := by
      simp [lastSet]
    rcases hKeeps _ hRange with ⟨m₁, hAll, hGets⟩
    rcases setAll_spec hW hm hRange agrees_none with
      ⟨m₂, hAll', hSound, hSame, hBits, hAgrees⟩
    cases hAll.symm.trans hAll'
    rcases hAgrees.get hW hSound (by omega) hLast with
      ⟨x, hGet, hx⟩
    cases (hGets 0 _ hSize hLast).symm.trans hGet
    rw [hValue, covered, if_neg hWide] at hx
    omega
  · intro hNarrow sets hRange
    rcases setAll_spec hW hm hRange agrees_none with
      ⟨m', hAll, hSound, hSame, hBits, hAgrees⟩
    refine ⟨m', hAll, fun k v hk hLast => ?_⟩
    rcases hAgrees.get hW hSound (by omega) hLast with
      ⟨x, hGet, hx⟩
    rw [hGet]
    -- the value fits, as it was set in the history
    have hFit : v.toNat < 2 ^ m.m_BPE := by
      rcases lastSet_mem hLast with hMem | hNone
      · exact (hRange _ hMem).2
      · cases hNone
    rw [covered, if_pos hNarrow, hBits,
      Nat.mod_eq_of_lt hFit] at hx
    exact congrArg some (BitVec.eq_of_toNat_eq hx)

end BitMap

end Routealgo

end Ns2
