import Mathlib.Tactic.Common
import Ns2.Lib.Bytes

/-
  Attributes of diffusion messages.

  An attribute has a key, a match operator and a value of one
  of five types; its length is that of the value. A value is
  compared with another one of its own type only, any other
  comparison ends the program and has no result.

  Main declarations:
    * `NRAttribute`
    * `NRValue.bytes`
    * `NRAttribute.isEQ`, `NRAttribute.isGT`
    * `NRAttribute.isGE`
-/

------------------------------------------------------------
-- Comparing Bytes
------------------------------------------------------------

namespace Ns2

/- The first two bytes that differ decide. -/
def memcmp : Nat → List Byte → List Byte → Int
| n + 1, a :: s, b :: t =>
    if a = b then memcmp n s t
    else (a.toNat : Int) - b.toNat
| _, _, _ => 0

def strcmp : List Byte → List Byte → Int
| a :: s, b :: t =>
    if a = b then if a = 0 then 0 else strcmp s t
    else (a.toNat : Int) - b.toNat
| _, _ => 0

def strncmp : Nat → List Byte → List Byte → Int
| n + 1, a :: s, b :: t =>
    if a = b then if a = 0 then 0 else strncmp n s t
    else (a.toNat : Int) - b.toNat
| _, _, _ => 0

end Ns2

------------------------------------------------------------
-- Comparing Floating Point Numbers
------------------------------------------------------------

namespace Ns2

namespace Float

variable {w : Nat}

/- The bits of the infinite number in both formats. -/
def inf32 : Nat := 0x7f800000

def inf64 : Nat := 0x7ff0000000000000

/- The bits behind the sign grow with the absolute value. -/
def magnitude (bits : BitVec w) : Nat :=
  bits.toNat % 2 ^ (w - 1)

def rank (bits : BitVec w) : Int :=
  if bits.msb then -(magnitude bits : Int)
  else magnitude bits

def isNaN
    (inf : Nat)
    (bits : BitVec w) : Bool :=
  decide (inf < magnitude bits)

/- Neither of them is a NaN. -/
def ordered
    (inf : Nat)
    (v w' : BitVec w) : Bool :=
  !isNaN inf v && !isNaN inf w'

def eq
    (inf : Nat)
    (v w' : BitVec w) : Bool :=
  ordered inf v w' && decide (rank v = rank w')

def gt
    (inf : Nat)
    (v w' : BitVec w) : Bool :=
  ordered inf v w' && decide (rank v > rank w')

def ge
    (inf : Nat)
    (v w' : BitVec w) : Bool :=
  ordered inf v w' && decide (rank v ≥ rank w')

end Float

end Ns2

------------------------------------------------------------
-- Values
------------------------------------------------------------

namespace Ns2

/- The largest length that an attribute can record. -/
def INT16_MAX : Nat := 32767

/- A string; its length with the final zero is recorded. -/
structure CString where
  chars : List Byte
  nonzero : ∀ c ∈ chars, c ≠ 0
  short : chars.length + 1 ≤ INT16_MAX
deriving DecidableEq

structure Blob where
  bytes : List Byte
  short : bytes.length ≤ INT16_MAX
deriving DecidableEq

def CString.bytes (s : CString) : List Byte :=
  s.chars ++ [0]

/- A value; floating point numbers are given by their bits. -/
inductive NRValue where
| INT32 (val : BitVec 32)
| FLOAT32 (val : BitVec 32)
| FLOAT64 (val : BitVec 64)
| STRING (val : CString)
| BLOB (val : Blob)
deriving DecidableEq

namespace NRValue

def INT32_TYPE : Byte := 0

def FLOAT32_TYPE : Byte := 1

def FLOAT64_TYPE : Byte := 2

def STRING_TYPE : Byte := 3

def BLOB_TYPE : Byte := 4

def type_ : NRValue → Byte
| INT32 _ => INT32_TYPE
| FLOAT32 _ => FLOAT32_TYPE
| FLOAT64 _ => FLOAT64_TYPE
| STRING _ => STRING_TYPE
| BLOB _ => BLOB_TYPE

def len_ : NRValue → Nat
| INT32 _ => 4
| FLOAT32 _ => 4
| FLOAT64 _ => 8
| STRING s => s.bytes.length
| BLOB b => b.bytes.length

end NRValue

end Ns2

------------------------------------------------------------
-- Attributes
------------------------------------------------------------

namespace Ns2

structure NRAttribute where
  key_ : BitVec 32
  op_ : Byte
  val_ : NRValue
deriving DecidableEq

abbrev NRAttrVec := List NRAttribute

namespace NRAttribute

def IS : Byte := 0

def LE : Byte := 1

def GE : Byte := 2

def LT : Byte := 3

def GT : Byte := 4

def EQ : Byte := 5

def NE : Byte := 6

def EQ_ANY : Byte := 7

def getKey (attr : NRAttribute) : BitVec 32 :=
  attr.key_

def getType (attr : NRAttribute) : Byte :=
  attr.val_.type_

def getOp (attr : NRAttribute) : Byte :=
  attr.op_

def getLen (attr : NRAttribute) : Nat :=
  attr.val_.len_

/- The first attribute with a key, and the place it is at. -/
def find_key_from
    (key : BitVec 32) :
    NRAttrVec → Option (NRAttribute × NRAttrVec)
| [] => none
| attr :: rest =>
    if attr.getKey = key then some (attr, attr :: rest)
    else find_key_from key rest

def find_matching_key_from
    (attr : NRAttribute)
    (start : NRAttrVec) : Option (NRAttribute × NRAttrVec) :=
  find_key_from attr.key_ start

def isSameKey
    (self attr : NRAttribute) : Bool :=
  self.getType == attr.getType && self.getKey == attr.getKey

/- Compare the values of attributes with one key and type. -/
def compare
    (self attr : NRAttribute)
    (test : NRValue → NRValue → Option Bool) :
    Option Bool :=
  if self.isSameKey attr then test self.val_ attr.val_
  else none

end NRAttribute

namespace NRValue

def isEQ : NRValue → NRValue → Option Bool
| INT32 v, INT32 w => some (decide (v.toInt = w.toInt))
| FLOAT32 v, FLOAT32 w => some (Float.eq Float.inf32 v w)
| FLOAT64 v, FLOAT64 w => some (Float.eq Float.inf64 v w)
| STRING s, STRING t =>
    if s.bytes.length ≠ t.bytes.length then some false
    else
      some (decide
        (strncmp s.bytes.length s.bytes t.bytes = 0))
| BLOB s, BLOB t =>
    if s.bytes.length ≠ t.bytes.length then some false
    else
      some (decide
        (memcmp s.bytes.length s.bytes t.bytes = 0))
| _, _ => none

/- A result of `strncmp` is true when it is not zero. -/
def isGT : NRValue → NRValue → Option Bool
| INT32 v, INT32 w => some (decide (v.toInt > w.toInt))
| FLOAT32 v, FLOAT32 w => some (Float.gt Float.inf32 v w)
| FLOAT64 v, FLOAT64 w => some (Float.gt Float.inf64 v w)
| STRING s, STRING t =>
    some (decide
      (strncmp (min s.bytes.length t.bytes.length)
        s.bytes t.bytes ≠ 0))
| BLOB s, BLOB t =>
    let cmplen := min s.bytes.length t.bytes.length
    let cmp := memcmp cmplen s.bytes t.bytes
    if cmp > 0 then some true
    else if cmp = 0 ∧ s.bytes.length > t.bytes.length then
      some true
    else some false
| _, _ => none

def isGE : NRValue → NRValue → Option Bool
| INT32 v, INT32 w => some (decide (v.toInt ≥ w.toInt))
| FLOAT32 v, FLOAT32 w => some (Float.ge Float.inf32 v w)
| FLOAT64 v, FLOAT64 w => some (Float.ge Float.inf64 v w)
| STRING s, STRING t =>
    some (decide (strcmp s.bytes t.bytes ≥ 0))
| BLOB s, BLOB t =>
    let cmplen := min s.bytes.length t.bytes.length
    let cmp := memcmp cmplen s.bytes t.bytes
    some (decide (cmp ≥ 0))
| _, _ => none

end NRValue

namespace NRAttribute

def isEQ (self attr : NRAttribute) : Option Bool :=
  self.compare attr NRValue.isEQ

def isGT (self attr : NRAttribute) : Option Bool :=
  self.compare attr NRValue.isGT

def isGE (self attr : NRAttribute) : Option Bool :=
  self.compare attr NRValue.isGE

def isNE (self attr : NRAttribute) : Option Bool :=
  (self.isEQ attr).map (!·)

def isLT (self attr : NRAttribute) : Option Bool :=
  (self.isGE attr).map (!·)

def isLE (self attr : NRAttribute) : Option Bool :=
  (self.isGT attr).map (!·)

end NRAttribute

end Ns2
