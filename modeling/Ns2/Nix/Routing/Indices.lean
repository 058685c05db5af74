import Ns2.Nix.NixNode
import Ns2.Nix.Nixvec.Correctness
import Ns2.Routealgo.Bfs.Correctness

/-
  The indices that lead along a way.

  The bits of an index are those that the node it is read at
  expects, and every index of a neighbour fits them.

  Main declarations:
    * `getBitl_spec`, `NixNode.getNix_spec`
    * `Leads`
-/

------------------------------------------------------------
-- Bits of an Index
------------------------------------------------------------

namespace Ns2

namespace Nix

theorem getBitlFrom_spec
    {l h : Nat}
    (hLt : l < 2 ^ (h + 1)) :
    1 ≤ getBitlFrom l h ∧ getBitlFrom l h ≤ h + 1 ∧
      l < 2 ^ getBitlFrom l h := by
  induction h with
  | zero => exact ⟨Nat.le_refl 1, Nat.le_refl 1, hLt⟩
  | succ h ih =>
      unfold getBitlFrom
      split
      · exact ⟨by omega, by omega, hLt⟩
      · next hBit =>
          have hLess : l < 2 ^ (h + 1) := by
            apply Nat.lt_pow_two_of_testBit
            intro i hi
            rcases Nat.eq_or_lt_of_le hi with hSame | hMore
            · rw [← hSame]
              exact Bool.eq_false_of_not_eq_true hBit
            · exact Nat.testBit_lt_two_pow
                (Nat.lt_of_lt_of_le hLt
                  (Nat.pow_le_pow_right (by omega) (by omega)))
          rcases ih hLess with ⟨hPos, hMost, hFits⟩
          exact ⟨hPos, by omega, hFits⟩

/- A number without the bits of a mask is below them. -/
theorem lt_of_mask
    {l mask a : Nat}
    (hLt : l < 2 ^ 32)
    (hMask : ∀ i, a ≤ i → i < 32 → mask.testBit i = true)
    (hNone : l &&& mask = 0) :
    l < 2 ^ a := by
  apply Nat.lt_pow_two_of_testBit
  intro i hi
  rcases Nat.lt_or_ge i 32 with hIn | hOut
  · have hBit : (l &&& mask).testBit i = false := by
      rw [hNone, Nat.zero_testBit]
    rw [Nat.testBit_and, hMask i hi hIn, Bool.and_true] at hBit
    exact hBit
  · exact Nat.testBit_lt_two_pow
      (Nat.lt_of_lt_of_le hLt
        (Nat.pow_le_pow_right (by omega) hOut))

theorem getBitl_spec
    {l : Nat}
    (hLt : l < 2 ^ 32) :
    1 ≤ getBitl l ∧ getBitl l ≤ 32 ∧ l < 2 ^ getBitl l := by
  unfold getBitl
  simp only
  by_cases hHigh : l &&& 0xFFFF0000 = 0
  · rw [if_pos hHigh]
    by_cases hLow : l &&& 0xFFFFFF00 = 0
    · rw [if_pos hLow]
      have hFits : l < 2 ^ 8 :=
        lt_of_mask hLt (by decide) hLow
      rcases getBitlFrom_spec (h := 7) hFits with
        ⟨hPos, hMost, hLess⟩
      exact ⟨hPos, by omega, hLess⟩
    · rw [if_neg hLow]
      have hFits : l < 2 ^ 16 :=
        lt_of_mask hLt (by decide) hHigh
      rcases getBitlFrom_spec (h := 15) hFits with
        ⟨hPos, hMost, hLess⟩
      exact ⟨hPos, by omega, hLess⟩
  · rw [if_neg hHigh]
    exact getBitlFrom_spec (h := 31) hLt

namespace NixNode

variable {u : NixNode 32}
variable {t : Nat}

theorem getNixl_spec
    (hPos : 0 < u.m_Adj.length)
    (hFew : u.m_Adj.length < 2 ^ 32) :
    1 ≤ u.getNixl ∧ u.getNixl ≤ 32 ∧
      u.m_Adj.length ≤ 2 ^ u.getNixl := by
  have hLast : ulong 32 ((u.m_Adj.length : Int) - 1) =
      u.m_Adj.length - 1 :=
    ulong_eq (by omega) (by omega)
  unfold getNixl
  rw [hLast]
  rcases getBitl_spec (l := u.m_Adj.length - 1) (by omega) with
    ⟨hOne, hMost, hFits⟩
  exact ⟨hOne, hMost, by omega⟩

/- The index of a neighbour leads to it and fits its bits. -/
theorem getNix_spec
    (hFew : u.m_Adj.length < 2 ^ 32)
    (hMem : t ∈ u.m_Adj) :
    (u.getNix t).2 = u.getNixl ∧
      u.m_Adj[(u.getNix t).1.toNat]? = some t ∧
      (u.getNix t).1 ≠ NIX_NONE 32 := by
  have hSome := List.isSome_idxOf?.mpr hMem
  rcases Option.isSome_iff_exists.mp hSome with ⟨i, hIndex⟩
  rcases List.idxOf?_eq_some_iff.mp hIndex with ⟨hLt, hAt, _⟩
  have hValue : (BitVec.ofNat 32 i).toNat = i := by
    rw [BitVec.toNat_ofNat, Nat.mod_eq_of_lt (by omega)]
  unfold getNix
  rw [hIndex]
  refine ⟨rfl, ?_, ?_⟩
  · simp only [hValue]
    rw [List.getElem?_eq_getElem hLt, hAt]
  · intro hSame
    have hNone := congrArg BitVec.toNat hSame
    simp only [hValue] at hNone
    have hMax : (NIX_NONE 32).toNat = 0xffffffff := rfl
    omega

end NixNode

end Nix

end Ns2

------------------------------------------------------------
-- Ways
------------------------------------------------------------

namespace Ns2

namespace Nix

open BreadthFirst (Walk Distance)
open NixVec (Proper total)
open Routealgo (edges WellFormed edges_of_node)

variable {nodes : List (NixNode 32)}
variable {a b c : Nat}
variable {q : BitVec 32 × Nat}
variable {qs : List (BitVec 32 × Nat)}

/- The indices lead from a node to a node, in their bits. -/
def Leads
    (nodes : List (NixNode 32)) :
    Nat → List (BitVec 32 × Nat) → Nat → Prop
  | a, [], b => a = b
  | a, q :: qs, b =>
      ∃ u v,
        nodes[a]? = some u ∧
        q.2 = u.getNixl ∧
        u.m_Adj[q.1.toNat]? = some v ∧
        Leads nodes v qs b

theorem Leads.concat
    {u : NixNode 32}
    (hLeads : Leads nodes a qs b)
    (hNode : nodes[b]? = some u)
    (hBits : q.2 = u.getNixl)
    (hNext : u.m_Adj[q.1.toNat]? = some c) :
    Leads nodes a (qs ++ [q]) c := by
  induction qs generalizing a with
  | nil =>
      have hSame : a = b := hLeads
      exact ⟨u, c, hSame ▸ hNode, hBits, hNext, rfl⟩
  | cons q' qs ih =>
      rcases hLeads with ⟨u', v, hNode', hBits', hNext', hRest⟩
      exact ⟨u', v, hNode', hBits', hNext', ih hRest⟩

theorem Leads.walk
    (hLeads : Leads nodes a qs b) :
    Walk (edges nodes) qs.length a b := by
  induction qs generalizing a with
  | nil =>
      have hSame : a = b := hLeads
      exact hSame ▸ Walk.refl a
  | cons q qs ih =>
      rcases hLeads with ⟨u, v, hNode, _, hNext, hRest⟩
      refine (ih hRest).head ?_
      rw [edges_of_node hNode]
      exact List.mem_of_getElem? hNext

/- Every index on a way fits its bits. -/
theorem Leads.proper
    (hFew : ∀ n ∈ nodes, n.m_Adj.length < 2 ^ 32)
    (hLeads : Leads nodes a qs b) :
    Proper qs := by
  induction qs generalizing a with
  | nil =>
      intro q hMem
      exact absurd hMem List.not_mem_nil
  | cons q qs ih =>
      rcases hLeads with ⟨u, v, hNode, hBits, hNext, hRest⟩
      have hLt := (List.getElem?_eq_some_iff.mp hNext).1
      rcases NixNode.getNixl_spec (u := u) (by omega)
          (hFew u (List.mem_of_getElem? hNode)) with
        ⟨hPos, hMost, hFits⟩
      intro q' hMem
      rcases List.mem_cons.mp hMem with hSame | hLater
      · rw [hSame, hBits]
        exact ⟨hPos, hMost, by omega⟩
      · exact ih hRest q' hLater

theorem total_le
    (hProper : Proper qs) :
    total qs ≤ 32 * qs.length := by
  induction qs with
  | nil => exact Nat.le_refl 0
  | cons q qs ih =>
      have hFirst := (hProper q List.mem_cons_self).2.1
      have hRest := ih fun q' hMem =>
        hProper q' (List.mem_cons_of_mem q hMem)
      rw [NixVec.total_cons, List.length_cons]
      omega

/- Ways depend on the edges of the nodes only. -/
theorem Leads.congr
    {nodes' : List (NixNode 32)}
    (hSame : ∀ (i : Nat) (u : NixNode 32),
      nodes[i]? = some u →
      ∃ u' : NixNode 32,
        nodes'[i]? = some u' ∧ u'.m_Adj = u.m_Adj)
    (hLeads : Leads nodes a qs b) :
    Leads nodes' a qs b := by
  induction qs generalizing a with
  | nil => exact hLeads
  | cons q qs ih =>
      rcases hLeads with ⟨u, v, hNode, hBits, hNext, hRest⟩
      rcases hSame a u hNode with ⟨u', hNode', hAdj⟩
      refine ⟨u', v, hNode', ?_, ?_, ih hRest⟩
      · rw [hBits]
        unfold NixNode.getNixl
        rw [hAdj]
      · rw [hAdj]
        exact hNext

end Nix

end Ns2
