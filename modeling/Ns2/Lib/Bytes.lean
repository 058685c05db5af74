import Mathlib.Tactic.Common
import Mathlib.Tactic.Ring

/-
  Numbers in memory.

  A number is stored as a fixed count of bytes in the order of
  the host, and a memory is a function from addresses to bytes.
  What is read back is what was stored.

  Main declarations:
    * `ByteOrder.store`, `ByteOrder.load`
    * `ByteOrder.toNetwork`
    * `Memory.write`, `Memory.read`
-/

------------------------------------------------------------
-- Bytes of a Number
------------------------------------------------------------

namespace Ns2

abbrev Byte := BitVec 8

/- The low bytes of a number, the lowest one first. -/
def lowBytes : Nat → Nat → List Byte
| 0, _ => []
| n + 1, k => BitVec.ofNat 8 k :: lowBytes n (k / 256)

/- The number with these bytes. -/
def ofLowBytes : List Byte → Nat
| [] => 0
| b :: rest => b.toNat + 256 * ofLowBytes rest

theorem lowBytes_length (n k : Nat) :
    (lowBytes n k).length = n := by
  induction n generalizing k with
  | zero => rfl
  | succ n ih => simp [lowBytes, ih]

theorem ofLowBytes_lowBytes (n k : Nat) :
    ofLowBytes (lowBytes n k) = k % 256 ^ n := by
  induction n generalizing k with
  | zero => simp [lowBytes, ofLowBytes, Nat.mod_one]
  | succ n ih =>
      have hByte : (BitVec.ofNat 8 k).toNat = k % 256 :=
        BitVec.toNat_ofNat k 8
      simp only [lowBytes, ofLowBytes, hByte, ih]
      rw [Nat.pow_succ', Nat.mod_mul]

theorem ofLowBytes_lt (bytes : List Byte) :
    ofLowBytes bytes < 256 ^ bytes.length := by
  induction bytes with
  | nil => simp [ofLowBytes]
  | cons b rest ih =>
      have hByte : b.toNat < 256 := b.isLt
      rw [ofLowBytes, List.length_cons, Nat.pow_succ']
      omega

theorem lowBytes_ofLowBytes
    {n : Nat}
    {bytes : List Byte}
    (hLength : bytes.length = n) :
    lowBytes n (ofLowBytes bytes) = bytes := by
  subst hLength
  induction bytes with
  | nil => rfl
  | cons b rest ih =>
      have hByte : b.toNat < 256 := b.isLt
      have hLow :
          BitVec.ofNat 8 (b.toNat + 256 * ofLowBytes rest) =
            b := by
        apply BitVec.eq_of_toNat_eq
        rw [BitVec.toNat_ofNat]
        omega
      have hHigh :
          (b.toNat + 256 * ofLowBytes rest) / 256 =
            ofLowBytes rest := by
        omega
      rw [ofLowBytes, List.length_cons, lowBytes, hLow, hHigh,
        ih]

end Ns2

------------------------------------------------------------
-- The Order of the Host
------------------------------------------------------------

namespace Ns2

inductive ByteOrder where
| littleEndian
| bigEndian
deriving DecidableEq, Repr

namespace ByteOrder

variable {n : Nat}

/- The bytes of a machine integer at growing addresses. -/
def store
    (host : ByteOrder)
    (x : BitVec (8 * n)) : List Byte :=
  match host with
  | littleEndian => lowBytes n x.toNat
  | bigEndian => (lowBytes n x.toNat).reverse

/- The machine integer with these bytes. -/
def load
    (host : ByteOrder)
    (n : Nat)
    (bytes : List Byte) : BitVec (8 * n) :=
  match host with
  | littleEndian => BitVec.ofNat (8 * n) (ofLowBytes bytes)
  | bigEndian =>
      BitVec.ofNat (8 * n) (ofLowBytes bytes.reverse)

/- The bytes of an integer in the opposite order. -/
def swap (x : BitVec (8 * n)) : BitVec (8 * n) :=
  load bigEndian n (store littleEndian x)

/- A big endian host keeps integers as the network does. -/
def toNetwork
    (host : ByteOrder)
    (x : BitVec (8 * n)) : BitVec (8 * n) :=
  match host with
  | littleEndian => swap x
  | bigEndian => x

theorem store_length
    (host : ByteOrder)
    (x : BitVec (8 * n)) : (host.store x).length = n := by
  cases host with
  | littleEndian => exact lowBytes_length n x.toNat
  | bigEndian =>
      rw [store, List.length_reverse, lowBytes_length]

theorem ofNat_lowBytes (x : BitVec (8 * n)) :
    BitVec.ofNat (8 * n) (ofLowBytes (lowBytes n x.toNat)) =
      x := by
  have hPower : (256 : Nat) ^ n = 2 ^ (8 * n) := by
    rw [Nat.pow_mul]
  rw [ofLowBytes_lowBytes, hPower]
  apply BitVec.eq_of_toNat_eq
  rw [BitVec.toNat_ofNat, Nat.mod_mod,
    Nat.mod_eq_of_lt x.isLt]

/- What was stored is loaded. -/
theorem load_store
    (host : ByteOrder)
    (x : BitVec (8 * n)) : host.load n (host.store x) = x := by
  cases host with
  | littleEndian => exact ofNat_lowBytes x
  | bigEndian =>
      rw [store, load, List.reverse_reverse]
      exact ofNat_lowBytes x

theorem swap_swap (x : BitVec (8 * n)) :
    swap (swap x) = x := by
  have hPower : (256 : Nat) ^ n = 2 ^ (8 * n) := by
    rw [Nat.pow_mul]
  have hReverse :
      lowBytes n (swap x).toNat =
        (lowBytes n x.toNat).reverse := by
    have hLength :
        (lowBytes n x.toNat).reverse.length = n := by
      rw [List.length_reverse, lowBytes_length]
    have hBound := ofLowBytes_lt (lowBytes n x.toNat).reverse
    rw [hLength, hPower] at hBound
    rw [swap, load, store, BitVec.toNat_ofNat,
      Nat.mod_eq_of_lt hBound]
    exact lowBytes_ofLowBytes hLength
  rw [swap, load, store, hReverse, List.reverse_reverse]
  exact ofNat_lowBytes x

/- The way to the network order is also the way back. -/
theorem toNetwork_toNetwork
    (host : ByteOrder)
    (x : BitVec (8 * n)) :
    host.toNetwork (host.toNetwork x) = x := by
  cases host with
  | littleEndian => exact swap_swap x
  | bigEndian => rfl

end ByteOrder

end Ns2

------------------------------------------------------------
-- Memory
------------------------------------------------------------

namespace Ns2

abbrev Memory := Nat → Byte

namespace Memory

variable {mem other : Memory}
variable {bytes front back : List Byte}
variable {pos start : Nat}
variable {i n : Nat}

/- Copy bytes to an address and the ones behind it. -/
def write
    (mem : Memory)
    (pos : Nat)
    (bytes : List Byte) : Memory :=
  fun i =>
    if pos ≤ i then bytes[i - pos]?.getD (mem i) else mem i

def read
    (mem : Memory)
    (pos n : Nat) : List Byte :=
  (List.range n).map fun i => mem (pos + i)

theorem read_length : (read mem pos n).length = n := by
  simp [read]

theorem read_succ :
    read mem pos (n + 1) =
      mem pos :: read mem (pos + 1) n := by
  simp only [read, List.range_succ_eq_map, List.map_cons,
    List.map_map]
  congr 1
  apply List.map_congr_left
  intro i _
  exact congrArg mem (by simp; omega)

/- Only the bytes that are read matter. -/
theorem read_congr
    (hSame : ∀ i, i < n → mem (pos + i) = other (start + i)) :
    read mem pos n = read other start n := by
  apply List.map_congr_left
  intro i hMem
  exact hSame i (List.mem_range.mp hMem)

theorem write_outside
    (hOutside : i < pos ∨ pos + bytes.length ≤ i) :
    write mem pos bytes i = mem i := by
  unfold write
  by_cases hAfter : pos ≤ i
  · have hEnd : bytes.length ≤ i - pos := by omega
    rw [if_pos hAfter, List.getElem?_eq_none hEnd]
    rfl
  · rw [if_neg hAfter]

theorem read_write :
    read (write mem pos bytes) pos bytes.length = bytes := by
  apply List.ext_getElem read_length
  intro i hRead hBytes
  simp [read, write, hBytes]

/- Bytes written elsewhere are not seen. -/
theorem read_write_apart
    (hApart :
      pos + n ≤ start ∨ start + bytes.length ≤ pos) :
    read (write mem start bytes) pos n =
      read mem pos n := by
  apply read_congr
  intro i hLess
  apply write_outside
  omega

end Memory

end Ns2
