import Ns2.Lib.BitWords

/-
  Vectors of neighbour indices.

  A vector holds the indices of the neighbours that a packet
  is to be forwarded to, each with the number of bits it was
  added with.  A vector of at most 32 bits is kept where the
  pointer to a longer one would be.  The words are numbers of
  `W` bits, the width of `unsigned long`, and hold 32 bits
  each.  `none` stands for what the language leaves undefined:
  an access outside the words, a pointer read as a number or a
  shift by the width or more.

  Main declarations:
    * `NixVec.add`, `NixVec.extract`
    * `NixVec.reset`, `NixVec.copy`
    * `NixVec.addAll`
-/

------------------------------------------------------------
-- Unsigned Numbers
------------------------------------------------------------

namespace Ns2

namespace Nix

variable {W : Nat}

/- The value of a sum in `unsigned long`. -/
def ulong
    (W : Nat)
    (x : Int) : Nat :=
  (x % (2 ^ W : Nat)).toNat

def shl
    (x : BitVec W)
    (s : Nat) : Option (BitVec W) :=
  if s < W then some (x <<< s) else none

def shr
    (x : BitVec W)
    (s : Nat) : Option (BitVec W) :=
  if s < W then some (x >>> s) else none

/- A shift of a `long`, which copies the sign. -/
def sar
    (x : BitVec W)
    (s : Nat) : Option (BitVec W) :=
  if s < W then some (x.sshiftRight s) else none

theorem ulong_eq
    {x : Int}
    {n : Nat}
    (hx : x = n)
    (hn : n < 2 ^ W) :
    ulong W x = n := by
  rw [hx, ulong, ← Int.natCast_mod, Int.toNat_natCast,
    Nat.mod_eq_of_lt hn]

theorem shl_of_lt
    {s : Nat}
    (hs : s < W)
    (x : BitVec W) :
    shl x s = some (x <<< s) :=
  if_pos hs

theorem shr_of_lt
    {s : Nat}
    (hs : s < W)
    (x : BitVec W) :
    shr x s = some (x >>> s) :=
  if_pos hs

end Nix

end Ns2

------------------------------------------------------------
-- Vectors
------------------------------------------------------------

namespace Ns2

namespace Nix

def NIX_BPW : Nat := 32

def NIX_NONE (W : Nat) : BitVec W :=
  BitVec.ofNat W 0xffffffff

/- The pointer, or the only word in its place. -/
inductive Contents (W : Nat) where
  | value (w : BitVec W)
  | pointer (ws : List (BitVec W))
deriving DecidableEq

structure NixVec (W : Nat) where
  m_pNV : Contents W
  m_used : Nat
  m_alth : Nat
deriving DecidableEq

variable {W : Nat}

namespace Contents

/- All the words. -/
def words : Contents W → List (BitVec W)
  | .value w => [w]
  | .pointer ws => ws

/- The member as a number. -/
def asValue : Contents W → Option (BitVec W)
  | .value w => some w
  | .pointer _ => none

/- The words that the member points to. -/
def deref : Contents W → Option (List (BitVec W))
  | .value _ => none
  | .pointer ws => some ws

end Contents

namespace NixVec

def empty (W : Nat) : NixVec W :=
  ⟨.value 0, 0, 0⟩

/- The length in bits of what is allocated. -/
def lth (v : NixVec W) : Nat :=
  if v.m_alth = 0 then NIX_BPW
  else ulong W (((v.m_alth - 1) / NIX_BPW + 1) * NIX_BPW : Nat)

def reset (v : NixVec W) : NixVec W :=
  { v with m_used := 0 }

end NixVec

end Nix

end Ns2

------------------------------------------------------------
-- Adding
------------------------------------------------------------

namespace Ns2

namespace Nix

namespace NixVec

variable {W : Nat}

open BitWords

/- The words in a new block, with a word of zeros at its end. -/
def grown
    (v : NixVec W)
    (newlth : Nat) : Option (List (BitVec W)) := do
  let old ←
    if v.lth = NIX_BPW then v.m_pNV.asValue.map ([·])
    else v.m_pNV.deref
  if newlth < v.lth ∨ old.length < v.lth / NIX_BPW then none
  else some (old.take (v.lth / NIX_BPW) ++ [0])

/- Where the bits do not fit in the words there are. -/
def addGrowing
    (v : NixVec W)
    (p : BitVec W × Nat) : Option (Contents W) := do
  let newlth := ulong W (v.lth + NIX_BPW)
  let pNew ← v.grown newlth
  if v.m_used = v.lth then
    -- no overlap, the new word has them all
    let newbits ← shl p.1 (ulong W
      (NIX_BPW - v.m_used + (newlth - 32) - p.2))
    let ws ← orAt pNew (v.m_used / NIX_BPW) newbits
    return .pointer ws
  else
    let left := ulong W (v.lth - v.m_used)
    let newbits ← shr p.1 (ulong W (p.2 - left))
    let ws ← orAt pNew (v.m_used / NIX_BPW) newbits
    let newbits ← shl p.1 (ulong W (NIX_BPW - (p.2 - left)))
    let ws ← orAt ws (v.m_used / NIX_BPW + 1) newbits
    return .pointer ws

/- Where they do. -/
def addWithin
    (v : NixVec W)
    (p : BitVec W × Nat) : Option (Contents W) := do
  let newbits ← shl p.1 (ulong W
    (NIX_BPW - v.m_used + (v.lth - 32) - p.2))
  if v.lth = NIX_BPW then
    let n ← v.m_pNV.asValue
    return .value (n ||| newbits)
  else
    let ws ← v.m_pNV.deref
    let ws ← orAt ws (v.m_used / NIX_BPW) newbits
    return .pointer ws

/- Add an index of so many bits. -/
def add
    (v : NixVec W)
    (p : BitVec W × Nat) : Option (NixVec W) :=
  if p.2 = 0 then some v
  else do
    let newused := ulong W (v.m_used + p.2)
    let m_pNV ←
      if v.lth < newused then v.addGrowing p
      else v.addWithin p
    return ⟨m_pNV, newused, max v.m_alth newused⟩

def addAll
    (v : NixVec W)
    (pairs : List (BitVec W × Nat)) : Option (NixVec W) :=
  pairs.foldlM add v

end NixVec

end Nix

end Ns2

------------------------------------------------------------
-- Extracting and Copying
------------------------------------------------------------

namespace Ns2

namespace Nix

namespace NixVec

variable {W : Nat}

/- The mask of `n` bits that starts `bit` bits down. -/
def mask
    (W n bit : Nat) : Option (BitVec W) := do
  let m ← sar (BitVec.ofNat W 0x80000000) (ulong W (n - 1))
  shr m bit

/- The word that the bits start in. -/
def word
    (v : NixVec W)
    (i : Nat) : Option (BitVec W) :=
  if v.lth = NIX_BPW then v.m_pNV.asValue
  else do
    let ws ← v.m_pNV.deref
    ws[i]?

/-
  The next `n` bits from a position, and the position after
  them.  The mask that is made for the second word is not
  used.
-/
def extractFrom
    (v : NixVec W)
    (n used : Nat) : Option (BitVec W × Nat) :=
  let i := used / NIX_BPW
  let bit := used - i * NIX_BPW
  if v.m_alth < ulong W (used + n) then
    some (NIX_NONE W, used)
  else do
    let w ← v.word i
    if ulong W (bit + n) ≤ NIX_BPW then
      let u ← mask W n bit
      let w ← shr (w &&& u) (ulong W (NIX_BPW - bit - n))
      return (w, ulong W (used + n))
    else
      -- the bits span two words
      let t := NIX_BPW - bit
      let u ← mask W t bit
      let t := ulong W (n - t)
      let w ← shl (w &&& u) t
      let ws ← v.m_pNV.deref
      let next ← ws[i + 1]?
      let low ← shr next (ulong W (NIX_BPW - t))
      return (w ||| low, ulong W (used + n))

def extract
    (v : NixVec W)
    (n : Nat) : Option (BitVec W × NixVec W) := do
  let (w, used) ← v.extractFrom n v.m_used
  return (w, { v with m_used := used })

/-
  A word of the block that `lth / 8` bytes were copied to, the
  low bytes of a word first.
-/
def memcpy
    (fresh ws : BitVec W)
    (lth k : Nat) : BitVec W :=
  let copied := BitVec.allOnes W >>> (W - (lth - k * W))
  ws &&& copied ||| fresh &&& ~~~copied

/- A copy, whose new block holds `fresh` to begin with. -/
def copy
    (fresh : Nat → BitVec W)
    (p : NixVec W) : Option (NixVec W) :=
  if NIX_BPW < p.lth then do
    let ws ← p.m_pNV.deref
    if ws.length * W < p.lth then none
    else
      let words := (List.range (p.lth / NIX_BPW)).map fun k =>
        memcpy (fresh k) (ws.getD k 0) p.lth k
      return ⟨.pointer words, 0, p.m_alth⟩
  else some ⟨p.m_pNV, 0, p.m_alth⟩

end NixVec

end Nix

end Ns2
