import Mathlib.Algebra.Order.Ring.Rat

/-
  Source routes.

  An id names a host and says how it came into a route; ids
  are compared by the host only.  A path has room for
  `MAX_SR_LEN` ids.  A failed assertion has no result, and
  the owner of a path, which is only printed, is left out.

  Main declarations:
    * `Host`, `ID`, `Path`
    * `Path.appendToPath`, `Path.setLength`
    * `CopyIntoPath`
-/

------------------------------------------------------------
-- Ids
------------------------------------------------------------

namespace Ns2

namespace Dsr

inductive ID_Type where
| NONE
| MAC
| IP
deriving DecidableEq, Repr

inductive Link_Type where
| LT_NONE
| LT_TESTED
| LT_UNTESTED
deriving DecidableEq, Repr

inductive Log_Status where
| LS_NONE
| LS_UNLOGGED
| LS_LOGGED
deriving DecidableEq, Repr

/- What the comparison of ids looks at. -/
structure Host where
  addr : Nat
  type : ID_Type
deriving DecidableEq, Repr

structure ID extends Host where
  t : Rat
  link_type : Link_Type
  log_stat : Log_Status
deriving DecidableEq, Repr

def ID.new
    (addr : Nat)
    (type : ID_Type) : ID :=
  ⟨⟨addr, type⟩, -1, .LT_NONE, .LS_NONE⟩

def invalid_addr : Host := ⟨0xffffffff, .NONE⟩

end Dsr

end Ns2

------------------------------------------------------------
-- Paths
------------------------------------------------------------

namespace Ns2

namespace Dsr

def MAX_SR_LEN : Nat := 16

/- The ids up to the length of the path, and its index. -/
structure Path where
  path : List ID
  len_le : path.length ≤ MAX_SR_LEN
  cur_index : Int
deriving DecidableEq

namespace Path

def new : Path where
  path := []
  len_le := Nat.zero_le _
  cur_index := 0

def length (p : Path) : Nat :=
  p.path.length

def index (p : Path) : Int :=
  p.cur_index

/- The hosts of a path, in order. -/
def hosts (p : Path) : List Host :=
  p.path.map ID.toHost

/- A path of the same length with other ids. -/
def withIds
    (p : Path)
    (ids : List ID)
    (hLength : ids.length = p.path.length) : Path :=
  { p with
    path := ids
    len_le := hLength.trans_le p.len_le }

def reset (_ : Path) : Path := new

/- Paths are only ever shortened. -/
def setLength
    (p : Path)
    (l : Nat) : Path :=
  { p with
    path := p.path.take l
    len_le := (List.length_take_le' l p.path).trans p.len_le }

def full (p : Path) : Bool :=
  decide (MAX_SR_LEN ≤ p.length)

def appendToPath
    (p : Path)
    (id : ID) : Option Path :=
  if hRoom : p.path.length < MAX_SR_LEN then
    some
      { p with
        path := p.path ++ [id]
        len_le := by
          rw [List.length_append, List.length_singleton]
          exact hRoom }
  else none

/- Append one id after the other. -/
def appendAll
    (p : Path)
    (ids : List ID) : Option Path :=
  ids.foldlM appendToPath p

/- Append ids until the path is full. -/
def appendWhile
    (p : Path) :
    List ID → Option Path
| [] => some p
| id :: ids =>
    if p.full then some p
    else (p.appendToPath id).bind (appendWhile · ids)

end Path

/- What is behind the copied ids stays. -/
def CopyIntoPath
    (target source : Path)
    (start : Nat)
    (stop : Int) : Option Path :=
  let count := (stop - start + 1).toNat
  if hStop : stop < source.path.length then
    some
      { target with
        path :=
          (source.path.drop start).take count ++
            target.path.drop count
        len_le := by
          have hTarget := target.len_le
          have hSource := source.len_le
          simp only [List.length_append, List.length_take,
            List.length_drop, count]
          omega }
  else none

end Dsr

end Ns2
