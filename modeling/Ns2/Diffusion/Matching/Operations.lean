import Ns2.Diffusion.Attributes

/-
  Matching of attribute vectors.

  The two kinds of matching search a vector for an attribute
  with the key of a given one, from the place after the last
  one on; they differ in which of these they accept.

  Main declarations:
    * `searchFrom`
    * `OneWayMatch`, `MatchAttrs`
    * `OneWayPerfectMatch`, `PerfectMatch`
-/

------------------------------------------------------------
-- Searching a Vector
------------------------------------------------------------

namespace Ns2

namespace NRAttribute

theorem find_key_from_length
    {key : BitVec 32}
    {start place : NRAttrVec}
    {attr : NRAttribute}
    (hFind : find_key_from key start = some (attr, place)) :
    place.tail.length < start.length := by
  induction start with
  | nil => cases hFind
  | cons first rest ih =>
      by_cases hKey : first.getKey = key
      · simp only [find_key_from, if_pos hKey] at hFind
        cases hFind
        simp
      · simp only [find_key_from, if_neg hKey] at hFind
        have hLess := ih hFind
        simp only [List.length_cons]
        omega

end NRAttribute

open NRAttribute

/- Is an attribute with the same key accepted? -/
def searchFrom
    (accept : NRAttribute → NRAttribute → Option Bool)
    (a : NRAttribute)
    (itr2 : NRAttrVec) : Option Bool :=
  match _hFind : a.find_matching_key_from itr2 with
  | none => some false
  | some (b, place) =>
      match accept a b with
      | none => none
      | some true => some true
      | some false => searchFrom accept a place.tail
termination_by itr2.length
decreasing_by exact find_key_from_length _hFind

/- Search for each of the attributes in turn. -/
def searchAll
    (accept : NRAttribute → NRAttribute → Option Bool)
    (attr_vec2 : NRAttrVec) :
    NRAttrVec → Option Bool
| [] => some true
| a :: itr1 =>
    match searchFrom accept a attr_vec2 with
    | none => none
    | some false => some false
    | some true => searchAll accept attr_vec2 itr1

end Ns2

------------------------------------------------------------
-- Matching
------------------------------------------------------------

namespace Ns2

/- An operator that is not known is never met. -/
def matchOp (a b : NRAttribute) : Option Bool :=
  if a.getOp = NRAttribute.EQ then b.isEQ a
  else if a.getOp = NRAttribute.GT then b.isGT a
  else if a.getOp = NRAttribute.GE then b.isGE a
  else if a.getOp = NRAttribute.LT then b.isLT a
  else if a.getOp = NRAttribute.LE then b.isLE a
  else if a.getOp = NRAttribute.NE then b.isNE a
  else some false

def matchable (a b : NRAttribute) : Option Bool :=
  if b.getOp ≠ NRAttribute.IS then some false
  else if a.getOp = NRAttribute.EQ_ANY then some true
  else matchOp a b

def OneWayMatch
    (attr_vec1 attr_vec2 : NRAttrVec) : Option Bool :=
  searchAll matchable attr_vec2
    (attr_vec1.filter fun a => a.getOp ≠ NRAttribute.IS)

/- The second question is asked if the first holds. -/
def bothWays
    (oneWay : NRAttrVec → NRAttrVec → Option Bool)
    (attr_vec1 attr_vec2 : NRAttrVec) : Option Bool :=
  match oneWay attr_vec1 attr_vec2 with
  | some true => oneWay attr_vec2 attr_vec1
  | result => result

def MatchAttrs
    (attr_vec1 attr_vec2 : NRAttrVec) : Option Bool :=
  bothWays OneWayMatch attr_vec1 attr_vec2

/- The same operator and the same value. -/
def sameAttr (a b : NRAttribute) : Option Bool :=
  if a.getOp = b.getOp then a.isEQ b else some false

def OneWayPerfectMatch
    (attr_vec1 attr_vec2 : NRAttrVec) : Option Bool :=
  searchAll sameAttr attr_vec2 attr_vec1

def PerfectMatch
    (attr_vec1 attr_vec2 : NRAttrVec) : Option Bool :=
  if attr_vec1.length ≠ attr_vec2.length then some false
  else bothWays OneWayPerfectMatch attr_vec1 attr_vec2

end Ns2
