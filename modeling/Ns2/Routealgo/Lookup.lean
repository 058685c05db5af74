import Ns2.Routealgo.BitMap

/-
  Compressed and plain lookup of next hops.

  A table of next hops is analyzed for the next hop used most,
  which becomes the default, and for the range of targets whose
  next hop is another.  The bitmap lookup stores for the targets
  in that range an index into the vector of neighbors.

  The loops count with `unsigned int`, so that over 2^32 entries
  or more they do not end.

  Main declarations:
    * `analyze`
    * `BMLookup.populate`, `BMLookup.lookup`
    * `NHLookup.populate`, `NHLookup.lookup`
-/

------------------------------------------------------------
-- Analysis of a Table
------------------------------------------------------------

namespace Ns2

namespace Routealgo

def NODE_NONE : Nat := 0xffffffff

/- The default `d` occurs `n` times. -/
structure Analysis where
  p : List Nat
  d : Nat
  n : Nat
  f : Nat
  l : Nat
  deriving DecidableEq

/- An entry of a vector. -/
def entry
    (r : List Nat)
    (i : Nat) : Nat :=
  r.getD i NODE_NONE

def countHop
    (r : List Nat)
    (o : Nat)
    (p : List Nat)
    (i : Nat) : List Nat :=
  if i ≠ o then p.modify (entry r i) (· + 1) else p

/- Count occurrences of each next hop, except the owner's. -/
def population
    (r : List Nat)
    (o : Nat) : List Nat :=
  (List.range r.length).foldl (countHop r o)
    (List.replicate r.length 0)

/- Update the best default and the number of next hops. -/
def tryDefault
    (p : List Nat)
    (s : Nat × Nat)
    (i : Nat) : Nat × Nat :=
  let nonzero := if entry p i ≠ 0 then s.2 + 1 else s.2
  if s.1 = NODE_NONE ∨ entry p s.1 < entry p i then
    (i, nonzero)
  else (s.1, nonzero)

def bestDefault (p : List Nat) : Nat × Nat :=
  (List.range p.length).foldl (tryDefault p) (NODE_NONE, 0)

/- Update the first and the last non-default. -/
def tryRange
    (r : List Nat)
    (o d : Nat)
    (s : Nat × Nat)
    (i : Nat) : Nat × Nat :=
  if i ≠ o then
    let f := if entry r i ≠ d ∧ s.1 = NODE_NONE then i else s.1
    let l := if entry r i ≠ d then i else s.2
    (f, l)
  else s

def nonDefaults
    (r : List Nat)
    (o d : Nat) : Nat × Nat :=
  (List.range r.length).foldl (tryRange r o d)
    (NODE_NONE, NODE_NONE)

def analyze
    (r : List Nat)
    (o : Nat) : Option Analysis :=
  if r.length < 2 ^ 32 then
    let p := population r o
    let (largest, nonzero) := bestDefault p
    let d := if nonzero = 0 then NODE_NONE else largest
    let (f, l) :=
      if nonzero = 1 then (NODE_NONE, NODE_NONE)
      else nonDefaults r o d
    some { p := p, d := d, n := entry p largest, f := f, l := l }
  else none

end Routealgo

end Ns2

------------------------------------------------------------
-- Lookup Tables
------------------------------------------------------------

namespace Ns2

namespace Routealgo

structure BMLookup (W : Nat) where
  m_Default : Nat
  m_FirstNonDefault : Nat
  m_LastNonDefault : Nat
  m_NVec : List Nat
  m_pBitMap : Option (BitMap W)
  deriving DecidableEq

namespace BMLookup

variable {W : Nat}

def create (W : Nat) : BMLookup W :=
  { m_Default := NODE_NONE
    m_FirstNonDefault := NODE_NONE
    m_LastNonDefault := NODE_NONE
    m_NVec := []
    m_pBitMap := none }

/- The neighbors that some next hop is. -/
def neighbors (p : List Nat) : List Nat :=
  (List.range p.length).filter fun i => entry p i ≠ 0

/- The bitmap for the non-defaults, with nothing set. -/
def newBitMap
    (W : Nat)
    (nvec : List Nat)
    (f l : Nat) : BitMap W :=
  BitMap.create W (l - f + 1) (BitMap.findBPE nvec.length)

/- The index of a neighbor, or their number for the owner. -/
def index
    (nvec r : List Nat)
    (f k : Nat) : Nat :=
  nvec.idxOf (entry r (f + k))

def populate
    (b : BMLookup W)
    (r p : List Nat)
    (d f l : Nat) : Option (BMLookup W) := do
  if p.length < 2 ^ 32 then
    let nvec := b.m_NVec ++ neighbors p
    let c := l - f + 1
    let m ←
      (List.range c).foldlM
        (fun m k => m.set k (BitVec.ofNat W (index nvec r f k)))
        (newBitMap W nvec f l)
    some
      { m_Default := d
        m_FirstNonDefault := f
        m_LastNonDefault := l
        m_NVec := nvec
        m_pBitMap := some m }
  else none

/- An index past the neighbors has no meaning. -/
def lookup
    (b : BMLookup W)
    (t : Nat) : Option Nat :=
  if t < b.m_FirstNonDefault then some b.m_Default
  else if b.m_LastNonDefault < t then some b.m_Default
  else
    match b.m_pBitMap with
    | none => some NODE_NONE
    | some m => do
        let i ← m.get (t - b.m_FirstNonDefault)
        b.m_NVec[i.toNat]?

end BMLookup

structure NHLookup where
  m_RouteTable : List Nat
  deriving DecidableEq

namespace NHLookup

def create : NHLookup :=
  { m_RouteTable := [] }

def populate
    (b : NHLookup)
    (r : List Nat) : Option NHLookup :=
  if r.length < 2 ^ 32 then
    some { m_RouteTable := b.m_RouteTable ++ r }
  else none

def lookup
    (b : NHLookup)
    (t : Nat) : Nat :=
  if b.m_RouteTable.length ≤ t then NODE_NONE
  else entry b.m_RouteTable t

end NHLookup

end Routealgo

end Ns2
