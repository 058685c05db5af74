import Ns2.Diffusion.Attributes

/-
  Attribute vectors in packets.

  An attribute takes a header of eight bytes, its value and as
  many bytes as make the next one start at a multiple of four.
  Keys, lengths and integers are in network order, all other
  values as the host keeps them.

  Main declarations:
    * `CopyAttrs`
    * `CalculateSize`
    * `PackAttrs`, `UnpackAttrs`
-/

------------------------------------------------------------
-- Making Attributes
------------------------------------------------------------

namespace Ns2

open NRValue

/- The characters up to the zero that ends a string. -/
def stringAt (mem : Memory) : Nat → Nat → Option (List Byte)
| 0, _ => none
| fuel + 1, pos =>
    if mem pos = 0 then some []
    else (stringAt mem fuel (pos + 1)).map (mem pos :: ·)

/- A string too long for its recorded length is not made. -/
def newString
    (mem : Memory)
    (val : Nat) : Option NRValue :=
  (stringAt mem INT16_MAX val).bind fun chars =>
    if h : (∀ c ∈ chars, c ≠ 0) ∧
        chars.length + 1 ≤ INT16_MAX then
      some (STRING ⟨chars, h.1, h.2⟩)
    else none

def newBlob
    (mem : Memory)
    (val size : Nat) : Option NRValue :=
  if h : (Memory.read mem val size).length ≤ INT16_MAX then
    some (BLOB ⟨Memory.read mem val size, h⟩)
  else none

namespace NRValue

/- The bytes that the value pointer leads to. -/
def genericVal (host : ByteOrder) : NRValue → List Byte
| INT32 v => host.store (n := 4) v
| FLOAT32 v => host.store (n := 4) v
| FLOAT64 v => host.store (n := 8) v
| STRING s => s.bytes
| BLOB b => b.bytes

/- The value of a new attribute made from this one. -/
def copy
    (host : ByteOrder)
    (heap : Memory)
    (val : NRValue) : Option NRValue :=
  let mem := Memory.write heap 0 (val.genericVal host)
  match val with
  | INT32 v => some (INT32 v)
  | FLOAT32 v => some (FLOAT32 v)
  | FLOAT64 v => some (FLOAT64 v)
  | STRING _ => newString mem 0
  | BLOB b => newBlob mem 0 b.bytes.length

end NRValue

def copyAttr
    (host : ByteOrder)
    (heap : Memory)
    (src : NRAttribute) : Option NRAttribute :=
  (src.val_.copy host heap).map fun val =>
    ⟨src.getKey, src.getOp, val⟩

def CopyAttrs
    (host : ByteOrder)
    (heap : Memory) : NRAttrVec → Option NRAttrVec
| [] => some []
| src :: itr =>
    (copyAttr host heap src).bind fun dst =>
      (CopyAttrs host heap itr).map (dst :: ·)

end Ns2

------------------------------------------------------------
-- Packing
------------------------------------------------------------

namespace Ns2

/- The size of a packed attribute without its value. -/
def headerSize : Nat := 8

def padding (attr_len : Nat) : Nat :=
  if attr_len % 4 ≠ 0 then 4 - attr_len % 4 else 0

/- From the start of an attribute to that of the next. -/
def stride (attr_len : Nat) : Nat :=
  headerSize + attr_len + padding attr_len

def CalculateSize : NRAttrVec → Nat
| [] => 0
| temp :: itr => stride temp.getLen + CalculateSize itr

def packValue
    (host : ByteOrder)
    (temp : NRAttribute)
    (current : Nat)
    (mem : Memory) : Memory :=
  match temp.val_ with
  | .INT32 v =>
      let t := host.toNetwork (n := 4) v
      Memory.write mem (current + 8) (host.store (n := 4) t)
  | val =>
      Memory.write mem (current + 8) (val.genericVal host)

def packAttr
    (host : ByteOrder)
    (temp : NRAttribute)
    (current : Nat)
    (mem : Memory) : Memory :=
  let mem := Memory.write mem current
    (host.store (n := 4)
      (host.toNetwork (n := 4) temp.getKey))
  let mem := Memory.write mem (current + 4) [temp.getType]
  let mem := Memory.write mem (current + 5) [temp.getOp]
  let mem := Memory.write mem (current + 6)
    (host.store (n := 2)
      (host.toNetwork (n := 2)
        (BitVec.ofNat 16 temp.getLen)))
  if temp.getLen > 0 then
    packValue host temp current mem
  else mem

/- The memory behind the packing, and the bytes it took. -/
def PackAttrs
    (host : ByteOrder) :
    NRAttrVec → Nat → Memory → Memory × Nat
| [], _, mem => (mem, 0)
| temp :: itr, current, mem =>
    let rest := PackAttrs host itr
      (current + stride temp.getLen)
      (packAttr host temp current mem)
    (rest.1, stride temp.getLen + rest.2)

end Ns2

------------------------------------------------------------
-- Unpacking
------------------------------------------------------------

namespace Ns2

open NRValue

/- An integer in network order. -/
def ntoh
    (host : ByteOrder)
    (n : Nat)
    (mem : Memory)
    (pos : Nat) : BitVec (8 * n) :=
  host.toNetwork (host.load n (Memory.read mem pos n))

/- A type that is not known leads to no attribute. -/
def unpackVal
    (host : ByteOrder)
    (mem : Memory)
    (type : Byte)
    (val attr_len : Nat) : Option (List NRValue) :=
  if type = INT32_TYPE then
    some [INT32 (ntoh host 4 mem val)]
  else if type = FLOAT32_TYPE then
    some [FLOAT32 (host.load 4 (Memory.read mem val 4))]
  else if type = FLOAT64_TYPE then
    some [FLOAT64 (host.load 8 (Memory.read mem val 8))]
  else if type = STRING_TYPE then
    (newString mem val).map ([·])
  else if type = BLOB_TYPE then
    (newBlob mem val attr_len).map ([·])
  else some []

def unpackAttr
    (host : ByteOrder)
    (mem : Memory)
    (current : Nat) : Option NRAttrVec :=
  let attr_len := (ntoh host 2 mem (current + 6)).toNat
  (unpackVal host mem (mem (current + 4)) (current + 8)
    attr_len).map fun vals =>
      vals.map fun val =>
        ⟨ntoh host 4 mem current, mem (current + 5), val⟩

def unpackFrom
    (host : ByteOrder)
    (mem : Memory) : Nat → Nat → Option NRAttrVec
| 0, _ => some []
| num_attr + 1, current =>
    let attr_len := (ntoh host 2 mem (current + 6)).toNat
    (unpackAttr host mem current).bind fun first =>
      (unpackFrom host mem num_attr
        (current + stride attr_len)).map (first ++ ·)

/- The header of a packet: six integers of several sizes. -/
def sizeof_hdr_diff : Nat := 24

def UnpackAttrs
    (host : ByteOrder)
    (pkt : Memory)
    (num_attr : Nat) : Option NRAttrVec :=
  unpackFrom host pkt num_attr sizeof_hdr_diff

end Ns2
