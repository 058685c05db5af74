import Ns2.Lib.BreadthFirst
import Ns2.Routealgo.Bfs.Operations
import Mathlib.Algebra.Order.BigOperators.Group.List

/-
  Breadth-first search finds the shortest ways.

  The search ends, and the bits of the nodes that were found,
  the queue and the vectors are those of a search in the
  graph of the edges.

  Main declarations:
    * `WellFormed`
    * `BFS.Follows`

  Correctness is proven by:
    * `BFS.visit_spec`, `BFS.scan_spec`, `BFS.search_spec`
    * `BFS.run_spec`
-/

------------------------------------------------------------
-- Graphs of Nodes
------------------------------------------------------------

namespace Ns2

namespace Routealgo

open Nix (NixNode)
open BreadthFirst (Walk Distance)
open CheckedArray (load store)

variable {W : Nat}

/- Nodes at their own positions, with edges to nodes. -/
structure WellFormed (N : List (NixNode W)) : Prop where
  id : ∀ {i : Nat} {n : NixNode W}, N[i]? = some n → n.m_id = i
  edge : ∀ n ∈ N, ∀ v ∈ n.m_Adj, v < N.length
  few : N.length ≤ NODE_NONE

variable {N : List (NixNode W)}
variable {u : NixNode W}
variable {i v w : Nat}

theorem edges_of_node
    (hNode : N[i]? = some u) :
    edges N i = u.m_Adj := by
  rw [edges, hNode]
  rfl

theorem WellFormed.edges_lt
    (hN : WellFormed N)
    (hEdge : w ∈ edges N v) :
    w < N.length := by
  unfold edges at hEdge
  cases hNode : N[v]? with
  | none =>
      rw [hNode] at hEdge
      exact absurd hEdge List.not_mem_nil
  | some n =>
      rw [hNode] at hEdge
      exact hN.edge n (List.mem_of_getElem? hNode) w hEdge

theorem WellFormed.walk_lt
    {n : Nat}
    (hN : WellFormed N)
    (hStart : i < N.length)
    (hWalk : Walk (edges N) n i v) :
    v < N.length := by
  cases hWalk with
  | refl => exact hStart
  | tail _ hEdge => exact hN.edges_lt hEdge

/- A node has fewer edges than a loop has rounds. -/
theorem degree_lt
    (hNode : N[i]? = some u) :
    u.m_Adj.length + 1 < rounds N := by
  have hMem : u.m_Adj.length ∈ N.map (·.m_Adj.length) :=
    List.mem_map_of_mem (List.mem_of_getElem? hNode)
  have hLe := List.single_le_sum (fun _ _ => Nat.zero_le _)
    _ hMem
  have hPos : 0 < N.length := by
    have := (List.getElem?_eq_some_iff.mp hNode).1
    omega
  unfold rounds
  omega

end Routealgo

end Ns2

------------------------------------------------------------
-- The Search That a State Stands For
------------------------------------------------------------

namespace Ns2

namespace Routealgo

namespace BFS

open Nix (NixNode)
open BreadthFirst (Walk Distance)
open CheckedArray (load store)

variable {W : Nat}
variable {N : List (NixNode W)}
variable {root i w : Nat}
variable {u : NixNode W}
variable {done waiting rest : List Nat}
variable {labels : BreadthFirst.Labels Nat}
variable {s s' : BFS W}

/- What a vector has for the nodes that were found. -/
def Records
    (N : List (NixNode W))
    (root : Nat)
    (found : List Nat)
    (f : Nat → Nat)
    (xs : List Nat) : Prop :=
  xs.length = N.length ∧
    ∀ v < N.length,
      load xs v = some
        (if v ∈ found ∧ v ≠ root then f v else NODE_NONE)

structure Follows
    (N : List (NixNode W))
    (root : Nat)
    (done waiting : List Nat)
    (labels : BreadthFirst.Labels Nat)
    (s : BFS W) : Prop where
  search : BreadthFirst.Search (edges N) root done waiting labels
  range : ∀ v ∈ done ++ waiting, v < N.length
  sound : s.B.Sound
  size : s.B.m_Size = N.length
  bits : s.B.m_BPE = 1
  colour :
    ∀ v < N.length,
      s.B.bitOf v 0 = decide (v ∈ done ++ waiting)
  queue :
    waiting.Forall₂ (fun v n => N[v]? = some n) s.Q
  length : s.D.length = N.length
  distance :
    ∀ v ∈ done ++ waiting,
      load s.D v = some (labels.distance v)
  hops : Records N root (done ++ waiting) labels.hop s.NextHop
  parents :
    Records N root (done ++ waiting) labels.parent s.Parent

/- The bit of one node. -/
theorem Follows.get
    (hW : W = 32 ∨ W = 64)
    (hFollows : Follows N root done waiting labels s)
    (hw : w < N.length) :
    ∃ x, s.B.get w = some x ∧
      (x = 0 ↔ w ∉ done ++ waiting) := by
  rcases BitMap.get_spec hFollows.sound hW
      (by rw [hFollows.size]; exact hw) with ⟨x, hGet, hBits⟩
  have hCovered : BitMap.covered W s.B.m_BPE = 1 := by
    rw [hFollows.bits]
    rcases hW with rfl | rfl <;> rfl
  have hBit := hBits 0
  rw [hCovered, hFollows.colour w hw] at hBit
  refine ⟨x, hGet, ?_⟩
  constructor
  · intro hZero hFound
    rw [hZero, decide_eq_true hFound] at hBit
    simp at hBit
  · intro hNew
    rw [decide_eq_false hNew] at hBit
    apply BitVec.eq_of_getLsbD_eq
    intro b _
    change x.getLsbD b = (0#W).getLsbD b
    rw [BitVec.getLsbD_zero]
    by_cases hb : b = 0
    · rw [hb, hBit]
      simp
    · rw [hBits b, hCovered, decide_eq_false (by omega)]
      rfl

theorem one_toNat
    (hPos : 0 < W) :
    (1 : BitVec W).toNat = 1 := by
  change 1 % 2 ^ W = 1
  exact Nat.mod_eq_of_lt (Nat.one_lt_two_pow (by omega))

/- A record of the node that was found last. -/
theorem Records.store
    {found : List Nat}
    {f : Nat → Nat}
    {xs : List Nat}
    (hRecords : Records N root found f xs)
    (hw : w < N.length)
    (hNe : w ≠ root)
    (hNew : w ∉ found)
    (x : Nat) :
    ∃ ys, store xs w x = some ys ∧
      Records N root (found ++ [w]) (Function.update f w x)
        ys := by
  rcases hRecords with ⟨hLength, hValues⟩
  rcases @CheckedArray.exists_store _ xs w
      (by omega) (by omega) x with ⟨ys, hStore⟩
  refine ⟨ys, hStore,
    (CheckedArray.length_store hStore).trans hLength, ?_⟩
  intro v hv
  rw [CheckedArray.load_store hStore, hValues v hv]
  by_cases hSame : v = w
  · subst hSame
    rw [if_pos rfl, if_pos ⟨by simp, hNe⟩, Function.update_self]
  · rw [if_neg (by exact_mod_cast hSame),
      Function.update_of_ne hSame]
    simp [hSame]

end BFS

end Routealgo

end Ns2

------------------------------------------------------------
-- Steps of the Search
------------------------------------------------------------

namespace Ns2

namespace Routealgo

namespace BFS

open Nix (NixNode)
open BreadthFirst (Walk Distance)
open CheckedArray (load)

variable {W : Nat}
variable {N : List (NixNode W)}
variable {root i w : Nat}
variable {u : NixNode W}
variable {done waiting rest : List Nat}
variable {labels : BreadthFirst.Labels Nat}
variable {s : BFS W}

/- A white neighbour of the first in the queue is coloured. -/
theorem visit_spec
    (hW : W = 32 ∨ W = 64)
    (hN : WellFormed N)
    (hFollows : Follows N root done (i :: rest) labels s)
    (hNode : N[i]? = some u)
    (hEdge : w ∈ u.m_Adj)
    (hNew : w ∉ done ++ i :: rest) :
    ∃ s', s.visit N root u w = some s' ∧ s'.prev = s.prev ∧
      Follows N root done (i :: (rest ++ [w]))
        (labels.discover root i w) s' := by
  have hList :
      done ++ i :: (rest ++ [w]) = (done ++ i :: rest) ++ [w] := by
    simp
  have hHere : i ∈ done ++ i :: rest := by simp
  have hw : w < N.length :=
    hN.edge u (List.mem_of_getElem? hNode) w hEdge
  have hId : u.m_id = i := hN.id hNode
  have hRootOld : w ≠ root := fun hSame =>
    hNew (hSame ▸ hFollows.search.root_mem)
  have hOne := one_toNat (W := W) (by omega)
  rcases BitMap.set_spec (k := w) (v := 1) hFollows.sound hW
      (by rw [hFollows.size]; exact hw)
      (by rw [hFollows.bits, hOne]; omega) with
    ⟨B, hSet, hSets⟩
  rcases @CheckedArray.exists_store _ s.D w
      (by omega)
      (by rw [hFollows.length]; exact_mod_cast hw)
      (labels.distance i + 1) with ⟨D, hD⟩
  rcases hFollows.parents.store hw hRootOld hNew i with
    ⟨Parent, hParent, hParents⟩
  let hop := if i = root then w else labels.hop i
  have hHop :
      (if u.m_id = root then some w
        else load s.NextHop u.m_id) = some hop := by
    rw [hId]
    by_cases hRoot : i = root
    · rw [if_pos hRoot]
      exact congrArg some (if_pos hRoot).symm
    · rw [if_neg hRoot, hFollows.hops.2 i
        (hFollows.range i hHere), if_pos ⟨hHere, hRoot⟩]
      exact congrArg some (if_neg hRoot).symm
  rcases hFollows.hops.store hw hRootOld hNew hop with
    ⟨NextHop, hNextHop, hHops⟩
  have hThere : N[w]? = some N[w] := List.getElem?_eq_getElem hw
  have hDistance : load s.D i = some (labels.distance i) :=
    hFollows.distance i hHere
  have hVisit : s.visit N root u w = some { s with
      B := B, Q := s.Q ++ [N[w]], D := D, NextHop := NextHop,
      Parent := Parent } := by
    unfold visit
    rw [hId] at hHop ⊢
    simp only [hThere, hSet, hD, hParent, hDistance,
      Option.bind_eq_bind, Option.bind_some]
    by_cases hRoot : i = root
    · have hSame : hop = w := if_pos hRoot
      rw [hSame] at hNextHop
      rw [if_pos hRoot, hNextHop]
      rfl
    · rw [if_neg hRoot] at hHop ⊢
      rw [hHop, Option.bind_some, hNextHop]
      rfl
  refine ⟨_, hVisit, rfl, ?_⟩
  constructor
  case search =>
    exact hFollows.search.discover
      (by rw [edges_of_node hNode]; exact hEdge) hNew
  case range =>
    rw [hList]
    intro v hMem
    rcases List.mem_append.mp hMem with hOld | hLast
    · exact hFollows.range v hOld
    · rw [List.mem_singleton.mp hLast]
      exact hw
  case sound => exact hSets.sound
  case size => exact hSets.size.trans hFollows.size
  case bits => exact hSets.bits.trans hFollows.bits
  case colour =>
    have hCovered : BitMap.covered W s.B.m_BPE = 1 := by
      rw [hFollows.bits]
      rcases hW with rfl | rfl <;> rfl
    rw [hList]
    intro v hv
    by_cases hSame : v = w
    · subst hSame
      rw [hSets.here 0 (by rw [hCovered]; omega),
        decide_eq_true (by simp)]
      rcases hW with rfl | rfl <;> rfl
    · rw [hSets.elsewhere v hSame 0
        (by rw [hFollows.bits]; omega), hFollows.colour v hv]
      exact decide_eq_decide.mpr (by simp [hSame])
  case queue =>
    have hLast :
        [w].Forall₂ (fun v n => N[v]? = some n) [N[w]] :=
      .cons hThere .nil
    exact List.rel_append hFollows.queue hLast
  case length =>
    exact (CheckedArray.length_store hD).trans hFollows.length
  case distance =>
    rw [hList]
    intro v hMem
    change load D v = some (Function.update labels.distance w
      (labels.distance i + 1) v)
    rw [CheckedArray.load_store hD]
    by_cases hSame : v = w
    · rw [hSame, if_pos rfl, Function.update_self]
    · rw [if_neg (by exact_mod_cast hSame),
        Function.update_of_ne hSame]
      rcases List.mem_append.mp hMem with hOld | hLast
      · exact hFollows.distance v hOld
      · exact absurd (List.mem_singleton.mp hLast) hSame
  case hops =>
    rw [hList]
    exact hHops
  case parents =>
    rw [hList]
    exact hParents

/- The iterator is no part of what the state stands for. -/
theorem Follows.advance
    (hFollows : Follows N root done waiting labels s)
    (prev : List Nat) :
    Follows N root done waiting labels { s with prev := prev } :=
  ⟨hFollows.search, hFollows.range, hFollows.sound,
    hFollows.size, hFollows.bits, hFollows.colour,
    hFollows.queue, hFollows.length, hFollows.distance,
    hFollows.hops, hFollows.parents⟩

theorem nextAdj_first (u : NixNode W) (prev : List Nat) :
    u.nextAdj prev NODE_NONE =
      some (u.m_Adj.headD NODE_NONE, u.m_Adj) := by
  unfold NixNode.nextAdj
  rw [if_pos rfl]
  cases u.m_Adj with
  | nil => rfl
  | cons n rest => rfl

theorem nextAdj_next
    (u : NixNode W)
    {v : Nat}
    {more : List Nat}
    (hNode : v ≠ NODE_NONE) :
    u.nextAdj (v :: more) v =
      some (more.headD NODE_NONE, more) := by
  unfold NixNode.nextAdj
  rw [if_neg hNode]
  simp only [if_true]
  cases more with
  | nil => rfl
  | cons n rest => rfl

/- After all its edges, every neighbour has been found. -/
theorem scan_spec
    (hW : W = 32 ∨ W = 64)
    (hN : WellFormed N)
    (hNode : N[i]? = some u)
    {k last : Nat}
    {remaining : List Nat}
    (hFollows : Follows N root done (i :: rest) labels s)
    (hNext : u.nextAdj s.prev last =
      some (remaining.headD NODE_NONE, remaining))
    (hEdges : ∀ w ∈ remaining, w ∈ u.m_Adj)
    (hk : remaining.length < k) :
    ∃ s' new labels',
      scan N root u k s last = some s' ∧
      Follows N root done (i :: (rest ++ new)) labels' s' ∧
      ∀ w ∈ remaining, w ∈ done ++ i :: (rest ++ new) := by
  induction remaining generalizing s last rest labels k with
  | nil =>
      cases k with
      | zero => exact absurd hk (Nat.not_lt_zero _)
      | succ k =>
          refine ⟨{ s with prev := [] }, [], labels, ?_, ?_, ?_⟩
          · simp only [scan, hNext, Option.bind_eq_bind,
              Option.bind_some, List.headD_nil, if_true]
          · rw [List.append_nil]
            exact hFollows.advance []
          · intro w hMem
            exact absurd hMem List.not_mem_nil
  | cons v more ih =>
      cases k with
      | zero => exact absurd hk (Nat.not_lt_zero _)
      | succ k =>
          have hEdge : v ∈ u.m_Adj := hEdges v List.mem_cons_self
          have hv : v < N.length :=
            hN.edge u (List.mem_of_getElem? hNode) v hEdge
          have hNone : v ≠ NODE_NONE :=
            Nat.ne_of_lt (Nat.lt_of_lt_of_le hv hN.few)
          have hAfter := hFollows.advance (v :: more)
          have hMore : ∀ w ∈ more, w ∈ u.m_Adj := fun w hMem =>
            hEdges w (List.mem_cons_of_mem v hMem)
          rcases hAfter.get hW hv with ⟨x, hGet, hColour⟩
          by_cases hNew : v ∈ done ++ i :: rest
          · have hGrey : x ≠ 0 := fun hZero =>
              hColour.mp hZero hNew
            rcases ih hAfter (nextAdj_next u hNone) hMore
                (Nat.lt_of_succ_lt_succ hk) with
              ⟨s', new, labels', hScan, hEnd, hAll⟩
            refine ⟨s', new, labels', ?_, hEnd, ?_⟩
            · simp only [scan, hNext, Option.bind_eq_bind,
                Option.bind_some, List.headD_cons, if_neg hNone,
                hGet, if_neg hGrey]
              exact hScan
            · intro w hMem
              rcases List.mem_cons.mp hMem with hSame | hLater
              · rw [hSame]
                have hSub : done ++ i :: rest ⊆
                    done ++ i :: (rest ++ new) := by
                  intro y hy
                  simp only [List.mem_append, List.mem_cons]
                    at hy ⊢
                  tauto
                exact hSub hNew
              · exact hAll w hLater
          · have hWhite : x = 0 := hColour.mpr hNew
            rcases visit_spec hW hN hAfter hNode hEdge hNew with
              ⟨s₁, hVisit, hPrev, hVisited⟩
            have hNext₁ : u.nextAdj s₁.prev v =
                some (more.headD NODE_NONE, more) := by
              rw [hPrev]
              exact nextAdj_next u hNone
            rcases ih hVisited hNext₁ hMore
                (Nat.lt_of_succ_lt_succ hk) with
              ⟨s', new, labels', hScan, hEnd, hAll⟩
            have hList : rest ++ [v] ++ new =
                rest ++ (v :: new) := by
              simp
            rw [hList] at hEnd hAll
            refine ⟨s', v :: new, labels', ?_, hEnd, ?_⟩
            · simp only [scan, hNext, Option.bind_eq_bind,
                Option.bind_some, List.headD_cons, if_neg hNone,
                hGet, if_pos hWhite, hVisit]
              exact hScan
            · intro w hMem
              rcases List.mem_cons.mp hMem with hSame | hLater
              · rw [hSame]
                simp
              · exact hAll w hLater

/- The nodes that were found are no more than there are. -/
theorem Follows.length_le
    (hFollows : Follows N root done waiting labels s) :
    done.length + waiting.length ≤ N.length := by
  have hSub : done ++ waiting ⊆ List.range N.length :=
    fun v hMem => List.mem_range.mpr (hFollows.range v hMem)
  have hLe := (hFollows.search.nodup.subperm hSub).length_le
  rwa [List.length_append, List.length_range] at hLe

theorem search_spec
    (hW : W = 32 ∨ W = 64)
    (hN : WellFormed N)
    {k : Nat}
    (hFollows : Follows N root done waiting labels s)
    (hk : N.length < k + done.length) :
    ∃ s' done' labels',
      search N root k s = some s' ∧
      Follows N root done' [] labels' s' := by
  induction k generalizing s done waiting labels with
  | zero =>
      have hLe := hFollows.length_le
      omega
  | succ k ih =>
      have hQueue := hFollows.queue
      unfold search
      cases hQueue : s.Q with
      | nil =>
          have hPairs := hFollows.queue
          rw [hQueue] at hPairs
          cases hPairs
          exact ⟨s, done, labels, rfl, hFollows⟩
      | cons u more =>
          have hPairs := hFollows.queue
          rw [hQueue] at hPairs
          cases hPairs with
          | @cons i _ rest _ hNode hRest =>
              have hDegree := degree_lt hNode
              rcases scan_spec hW hN hNode hFollows
                  (nextAdj_first u s.prev) (fun _ h => h)
                  (Nat.lt_of_succ_lt hDegree) with
                ⟨s₁, new, labels₁, hScan, hScanned, hAll⟩
              have hRetired : Follows N root (done ++ [i])
                  (rest ++ new) labels₁
                  { s₁ with Q := s₁.Q.tail } := by
                have hList : (done ++ [i]) ++ (rest ++ new) =
                    done ++ i :: (rest ++ new) := by
                  simp
                constructor
                case search =>
                  refine hScanned.search.retire ?_
                  rw [edges_of_node hNode]
                  exact hAll
                case range =>
                  rw [hList]
                  exact hScanned.range
                case sound => exact hScanned.sound
                case size => exact hScanned.size
                case bits => exact hScanned.bits
                case colour =>
                  rw [hList]
                  exact hScanned.colour
                case queue =>
                  have hQ := hScanned.queue
                  cases hQ' : s₁.Q with
                  | nil =>
                      rw [hQ'] at hQ
                      cases hQ
                  | cons n later =>
                      rw [hQ'] at hQ
                      cases hQ with
                      | cons _ hLater => exact hLater
                case length => exact hScanned.length
                case distance =>
                  rw [hList]
                  exact hScanned.distance
                case hops =>
                  rw [hList]
                  exact hScanned.hops
                case parents =>
                  rw [hList]
                  exact hScanned.parents
              rcases ih hRetired (by
                  rw [List.length_append, List.length_singleton]
                  omega) with ⟨s', done', labels', hSearch, hEnd⟩
              refine ⟨s', done', labels', ?_, hEnd⟩
              simp only [hScan, Option.bind_eq_bind,
                Option.bind_some]
              exact hSearch

end BFS

end Routealgo

end Ns2

------------------------------------------------------------
-- The Whole Search
------------------------------------------------------------

namespace Ns2

namespace Routealgo

variable {W : Nat}

/- No bit of a new bitmap is set. -/
theorem BitMap.create_bitOf
    (W size bpe k b : Nat) :
    (create W size bpe).bitOf k b = false := by
  unfold bitOf create
  simp only
  split
  · unfold Store.load
    simp only
    rcases Nat.lt_or_ge (k / (BITS_ULONG / bpe))
        ((size + BITS_ULONG / bpe - 1) / (BITS_ULONG / bpe))
      with hIn | hOut
    · rw [List.getElem?_replicate, if_pos hIn]
      simp
    · rw [List.getElem?_replicate, if_neg (by omega)]
      simp
  · unfold Store.load
    simp only
    split <;> simp

namespace BFS

open Nix (NixNode)
open BreadthFirst (Walk Distance)
open CheckedArray (load)

variable {N : List (NixNode W)}
variable {root v : Nat}
variable {done : List Nat}
variable {labels : BreadthFirst.Labels Nat}
variable {s : BFS W}

theorem records_create
    (N : List (NixNode W))
    (root : Nat)
    (f : Nat → Nat) :
    Records N root [root] f
      (List.replicate N.length NODE_NONE) := by
  refine ⟨List.length_replicate, fun v hv => ?_⟩
  have hNone : ¬(v ∈ [root] ∧ v ≠ root) := fun h =>
    h.2 (List.mem_singleton.mp h.1)
  rw [if_neg hNone, load, if_pos (by omega),
    List.getElem?_replicate, if_pos (by omega)]

/- The search starts with the root alone. -/
theorem start_spec
    (hW : W = 32 ∨ W = 64)
    (hRoot : root < N.length) :
    ∃ B D,
      (create N).B.set root 1 = some B ∧
      CheckedArray.store (create N).D root 0 = some D ∧
      Follows N root [] [root] ⟨fun _ => 0, id, id⟩
        { create N with B := B, Q := [N[root]], D := D } := by
  have hOne := one_toNat (W := W) (by omega)
  have hSound : (create N).B.Sound :=
    BitMap.create_sound (by omega) (by omega)
  have hCovered : BitMap.covered W (create N).B.m_BPE = 1 := by
    rcases hW with rfl | rfl <;> rfl
  rcases BitMap.set_spec (k := root) (v := 1) hSound hW
      hRoot (by rw [hOne]; exact Nat.one_lt_two_pow one_ne_zero)
    with ⟨B, hSet, hSets⟩
  have hLength : (create N).D.length = N.length :=
    List.length_replicate
  rcases @CheckedArray.exists_store _ (create N).D root (by omega)
      (by rw [hLength]; exact_mod_cast hRoot) 0 with ⟨D, hD⟩
  refine ⟨B, D, hSet, hD, ?_⟩
  constructor
  case search => exact BreadthFirst.search_root rfl
  case range =>
    intro v hMem
    rw [List.mem_singleton.mp hMem]
    exact hRoot
  case sound => exact hSets.sound
  case size => exact hSets.size
  case bits => exact hSets.bits
  case colour =>
    intro v hv
    by_cases hSame : v = root
    · subst hSame
      rw [hSets.here 0 (by rw [hCovered]; omega),
        decide_eq_true (by simp)]
      rcases hW with rfl | rfl <;> rfl
    · rw [hSets.elsewhere v hSame 0
        (Nat.lt_of_lt_of_le Nat.zero_lt_one hSound.bits_pos),
        create, BitMap.create_bitOf]
      exact (decide_eq_false (by simpa using hSame)).symm
  case queue =>
    exact .cons (List.getElem?_eq_getElem hRoot) .nil
  case length =>
    exact (CheckedArray.length_store hD).trans hLength
  case distance =>
    intro v hMem
    rw [List.mem_singleton.mp hMem, CheckedArray.load_store hD,
      if_pos rfl]
  case hops => exact records_create N root id
  case parents => exact records_create N root id

/-
  The entries of a node that is reached: the parent is one
  edge before it on a shortest way, the next hop is one edge
  after the root on one.
-/
structure OnShortest
    (N : List (NixNode W))
    (root v hop parent : Nat) : Prop where
  last : v ∈ edges N parent
  first : hop ∈ edges N root
  short :
    ∃ n, Distance (edges N) root v (n + 1) ∧
      Distance (edges N) root parent n ∧
      Distance (edges N) hop v n

theorem Follows.onShortest
    (hFollows : Follows N root done [] labels s)
    (hMem : v ∈ done)
    (hNe : v ≠ root) :
    OnShortest N root v (labels.hop v) (labels.parent v) := by
  have hSearch := hFollows.search
  have hIn : v ∈ done ++ [] := List.mem_append_left _ hMem
  rcases hSearch.parent v hIn hNe with
    ⟨hParent, hLast, hNext⟩
  rcases hSearch.hop v hIn hNe with ⟨hFirst, n, hLength, hWalk⟩
  have hDistance := hSearch.distance hMem
  rw [List.append_nil] at hParent
  have hBefore := hSearch.distance hParent
  refine ⟨hLast, hFirst, n, hLength ▸ hDistance, ?_, ?_⟩
  · have hSame : labels.distance (labels.parent v) = n := by
      omega
    exact hSame ▸ hBefore
  · refine BreadthFirst.Distance.rest (n := 1) (m := n) ?_
      (Walk.tail (.refl root) hFirst) hWalk
    rw [Nat.add_comm]
    exact hLength ▸ hDistance

/-
  For every graph and root the search ends.  What it gives for
  a node that can be reached is on shortest ways, and for the
  root and the others that there is none.
-/
theorem run_shortest
    (hW : W = 32 ∨ W = 64)
    (hN : WellFormed N)
    (hRoot : root < N.length) :
    ∃ NextHop Parent,
      run N root = some (NextHop, Parent) ∧
      NextHop.length = N.length ∧
      Parent.length = N.length ∧
      ∀ v < N.length,
        (∀ n, Walk (edges N) n root v → v ≠ root →
          ∃ hop parent,
            NextHop[v]? = some hop ∧
            Parent[v]? = some parent ∧
            OnShortest N root v hop parent) ∧
        ((∀ n, ¬Walk (edges N) n root v) ∨ v = root →
          NextHop[v]? = some NODE_NONE ∧
          Parent[v]? = some NODE_NONE) := by
  rcases start_spec hW hRoot with ⟨B, D, hSet, hD, hStart⟩
  rcases search_spec hW hN hStart (k := rounds N)
      (by unfold rounds; simp only [List.length_nil]; omega)
    with ⟨s, done, labels, hSearch, hEnd⟩
  refine ⟨s.NextHop, s.Parent, ?_, hEnd.hops.1,
    hEnd.parents.1, ?_⟩
  · have hThere : N[root]? = some N[root] :=
      List.getElem?_eq_getElem hRoot
    simp only [run, hSet, hThere, hD, hSearch,
      Option.bind_eq_bind, Option.bind_some]
    rfl
  · intro v hv
    have hHop := hEnd.hops.2 v hv
    have hParent := hEnd.parents.2 v hv
    have hLoad : ∀ xs : List Nat, load xs v = xs[v]? := fun xs => by
      rw [load, if_pos (by omega)]
      rfl
    rw [hLoad, List.append_nil] at hHop hParent
    constructor
    · intro n hWalk hNe
      have hMem := (hEnd.search.complete hWalk).1
      rw [if_pos ⟨hMem, hNe⟩] at hHop hParent
      exact ⟨_, _, hHop, hParent, hEnd.onShortest hMem hNe⟩
    · intro hNone
      have hNot : ¬(v ∈ done ∧ v ≠ root) := by
        rintro ⟨hMem, hNe⟩
        rcases hNone with hWalk | hSame
        · exact hWalk _ (hEnd.search.distance hMem).walk
        · exact hNe hSame
      rw [if_neg hNot] at hHop hParent
      exact ⟨hHop, hParent⟩

/- Three nodes in a line. -/
def line : List (NixNode 32) :=
  [⟨0, [1], [1], []⟩, ⟨1, [0, 2], [0, 2], []⟩, ⟨2, [1], [1], []⟩]

theorem wellFormed_line : WellFormed line := by
  constructor
  case id =>
    intro i n hNode
    rcases i with _ | _ | _ | i
    · cases hNode
      rfl
    · cases hNode
      rfl
    · cases hNode
      rfl
    · cases hNode
  case edge => decide
  case few => decide

theorem walk_line : Walk (edges line) 2 0 2 := by
  have hFirst : 1 ∈ edges line 0 := by decide
  have hSecond : 2 ∈ edges line 1 := by decide
  exact .tail (.tail (.refl 0) hFirst) hSecond

theorem run_shortest_line :
    ∃ NextHop Parent hop parent,
      run line 0 = some (NextHop, Parent) ∧
      NextHop[2]? = some hop ∧ Parent[2]? = some parent ∧
      OnShortest line 0 2 hop parent := by
  rcases run_shortest (Or.inl rfl) wellFormed_line
      (show 0 < line.length by decide) with
    ⟨NextHop, Parent, hRun, _, _, hEntries⟩
  rcases (hEntries 2 (by decide)).1 2 walk_line (by decide) with
    ⟨hop, parent, hHop, hParent, hShort⟩
  exact ⟨NextHop, Parent, hop, parent, hRun, hHop, hParent,
    hShort⟩

end BFS

end Routealgo

end Ns2
