import Ns2.Nix.Routing.Operations
import Ns2.Nix.Routing.Indices

/-
  Packets with vectors take the shortest ways.

  The vector of a node has the indices along a shortest way to
  its target, and stays as it is when others are computed.  A
  packet has those that lead from where it is still to come.

  Main declarations:
    * `Carries`, `Flight.Carried`
    * `NixNetwork.Sound`

  Correctness is proven by:
    * `computeNixVector_spec`, `getNixVector_spec`
    * `find_spec`
    * `delivered_by_shortest_way`
-/

------------------------------------------------------------
-- Computing a Vector
------------------------------------------------------------

namespace Ns2

namespace Nix

open BreadthFirst (Walk Distance)
open NixVec (Proper total Yields)
open Routealgo (BFS NODE_NONE WellFormed edges rounds
  edges_of_node)

/- Nodes whose vectors can be counted and read. -/
structure Routable (nodes : List (NixNode 32)) : Prop where
  graph : WellFormed nodes
  many : nodes.length * 32 + 32 < 2 ^ 32
  few : ∀ n ∈ nodes, n.m_Adj.length < 2 ^ 32
  wired : ∀ n ∈ nodes, n.m_AdjObj = n.m_Adj

variable {nodes nodes' : List (NixNode 32)}
variable {s t p n : Nat}
variable {qs : List (BitVec 32 × Nat)}
variable {nv : NixVec 32}

/- What the parents of a search from `s` say of a node. -/
def Parents
    (nodes : List (NixNode 32))
    (s : Nat)
    (parent : List Nat) : Prop :=
  ∀ v < nodes.length,
    (∀ n, Walk (edges nodes) n s v → v ≠ s →
      ∃ hop q, parent[v]? = some q ∧
        BFS.OnShortest nodes s v hop q) ∧
    ((∀ n, ¬Walk (edges nodes) n s v) ∨ v = s →
      parent[v]? = some NODE_NONE)

/- The indices that are added are those along a shortest way. -/
theorem nixPred_spec
    {parent : List Nat}
    {k : Nat}
    (hNodes : Routable nodes)
    (hs : s < nodes.length)
    (hParents : Parents nodes s parent)
    (hDistance : Distance (edges nodes) s p n)
    (hk : n < k) :
    ∃ qs, Leads nodes s qs p ∧ qs.length = n ∧
      nixPred s parent nodes k p nv = nv.addAll qs := by
  induction n generalizing p k with
  | zero =>
      have hSame : s = p := by
        have hWalk := hDistance.walk
        cases hWalk
        rfl
      cases k with
      | zero => exact absurd hk (Nat.not_lt_zero _)
      | succ k =>
          refine ⟨[], hSame, rfl, ?_⟩
          unfold nixPred
          rw [if_pos hSame]
          rfl
  | succ n ih =>
      cases k with
      | zero => exact absurd hk (Nat.not_lt_zero _)
      | succ k =>
          have hNe : s ≠ p := by
            rintro rfl
            have hLe := hDistance.least 0 (.refl s)
            omega
          have hp := hNodes.graph.walk_lt hs hDistance.walk
          rcases (hParents p hp).1 _ hDistance.walk hNe.symm with
            ⟨hop, q, hParent, hShort⟩
          rcases hShort.short with ⟨m, hLong, hBefore, _⟩
          have hLength : m = n :=
            Nat.succ.inj (hLong.unique hDistance)
          subst hLength
          have hq := hNodes.graph.walk_lt hs hBefore.walk
          have hSome : q ≠ NODE_NONE :=
            Nat.ne_of_lt (Nat.lt_of_lt_of_le hq hNodes.graph.few)
          have hNode : nodes[q]? = some nodes[q] :=
            List.getElem?_eq_getElem hq
          have hEdge := hShort.last
          rw [edges_of_node hNode] at hEdge
          rcases NixNode.getNix_spec
              (hNodes.few _ (List.getElem_mem hq)) hEdge with
            ⟨hBits, hNext, hIndex⟩
          rcases ih hBefore (Nat.lt_of_succ_lt_succ hk) with
            ⟨qs, hLeads, hCount, hAdded⟩
          refine ⟨qs ++ [nodes[q].getNix p],
            hLeads.concat hNode hBits hNext, ?_, ?_⟩
          · rw [List.length_append, hCount]
            rfl
          · unfold nixPred
            simp only [if_neg hNe, hParent, if_neg hSome, hAdded,
              hNode, if_neg hIndex, Option.bind_eq_bind,
              Option.bind_some, NixVec.addAll,
              List.foldlM_append]
            cases List.foldlM NixVec.add nv qs with
            | none => rfl
            | some nv' =>
                simp only [Option.bind_some, List.foldlM_cons,
                  List.foldlM_nil, Option.bind_eq_bind]
                cases nv'.add (nodes[q].getNix p) <;> rfl

/- The vector has the indices of a shortest way to its target. -/
def Carries
    (nodes : List (NixNode 32))
    (s t : Nat)
    (nv : NixVec 32) : Prop :=
  ∀ n, Distance (edges nodes) s t n →
    ∃ qs, Leads nodes s qs t ∧ qs.length = n ∧
      nv.reset.Yields qs

theorem computeNixVector_spec
    {u : NixNode 32}
    (hNodes : Routable nodes)
    (hNode : nodes[s]? = some u)
    (ht : t < nodes.length) :
    ∃ nv, computeNixVector nodes u t = some nv ∧
      Carries nodes s t nv := by
  have hs := (List.getElem?_eq_some_iff.mp hNode).1
  rcases BFS.run_shortest (Or.inl rfl) hNodes.graph hs with
    ⟨hops, parent, hRun, _, _, hEntries⟩
  have hParents : Parents nodes s parent := by
    intro v hv
    rcases hEntries v hv with ⟨hReached, hOther⟩
    refine ⟨fun n hWalk hNe => ?_, fun hNone => (hOther hNone).2⟩
    rcases hReached n hWalk hNe with
      ⟨hop, q, _, hParent, hShort⟩
    exact ⟨hop, q, hParent, hShort⟩
  have hId : u.m_id = s := hNodes.graph.id hNode
  by_cases hReach : ∃ n, Walk (edges nodes) n s t
  · rcases BreadthFirst.exists_distance hReach with
      ⟨n, hDistance⟩
    have hLess : n < nodes.length :=
      hDistance.lt_of_range fun m v hWalk =>
        hNodes.graph.walk_lt hs hWalk
    rcases @nixPred_spec nodes s t n
        (NixVec.empty 32) _ (rounds nodes) hNodes hs hParents hDistance
        (by unfold rounds; omega) with
      ⟨qs, hLeads, hCount, hAdded⟩
    have hProper := hLeads.proper hNodes.few
    have hTotal := total_le hProper
    have hMany := hNodes.many
    rcases NixVec.addAll_empty (W := 32) (by omega) hProper
        (by omega) with ⟨nv, hAll, hShape, hStores⟩
    refine ⟨nv, ?_, ?_⟩
    · simp only [computeNixVector, nixRoute, hId, hRun,
        Option.bind_eq_bind, Option.bind_some, hAdded]
      exact hAll
    · intro m hOther
      refine ⟨qs, hLeads, hCount.trans (hDistance.unique hOther),
        ?_⟩
      exact NixVec.yields_of_stores (Or.inl rfl)
        (hShape.advance 0) (by omega) (Or.inl rfl) hProper
        (Nat.zero_add _) hStores
  · have hNone : ∀ n, ¬Walk (edges nodes) n s t :=
      fun n hWalk => hReach ⟨n, hWalk⟩
    have hNe : s ≠ t := by
      rintro rfl
      exact hNone 0 (.refl s)
    have hParent := (hParents t ht).2 (Or.inl hNone)
    refine ⟨NixVec.empty 32, ?_, fun n hDistance =>
      absurd hDistance.walk (hNone n)⟩
    simp only [computeNixVector, nixRoute, hId, hRun,
      Option.bind_eq_bind, Option.bind_some]
    have hRounds : rounds nodes =
        (nodes.length + (nodes.map (·.m_Adj.length)).sum + 1)
          + 1 := rfl
    rw [hRounds]
    unfold nixPred
    simp only [if_neg hNe, hParent, Option.bind_eq_bind,
      Option.bind_some, if_true]

end Nix

end Ns2

------------------------------------------------------------
-- Keeping the Vectors
------------------------------------------------------------

namespace Ns2

namespace Nix

open BreadthFirst (Walk Distance)
open NixVec (Yields)
open Routealgo (BFS WellFormed edges)

variable {nodes nodes' : List (NixNode 32)}
variable {s t : Nat}
variable {nv : NixVec 32}
variable {p : Pointer}

/- Nodes that have changed only in the vectors they keep. -/
structure Keeps (nodes nodes' : List (NixNode 32)) : Prop where
  length : nodes'.length = nodes.length
  node :
    ∀ (i : Nat) (u : NixNode 32), nodes[i]? = some u →
      ∃ u' : NixNode 32, nodes'[i]? = some u' ∧
        u'.m_id = u.m_id ∧
        u'.m_Adj = u.m_Adj ∧ u'.m_AdjObj = u.m_AdjObj ∧
        ∀ t nv, u.m_pNixVecs.lookup t = some nv →
          ∃ nv', u'.m_pNixVecs.lookup t = some nv' ∧
            nv'.reset = nv.reset

/- A node of those that have changed is one of those before. -/
theorem Keeps.before
    {i : Nat}
    {u' : NixNode 32}
    (hKeeps : Keeps nodes nodes')
    (hNode : nodes'[i]? = some u') :
    ∃ u, nodes[i]? = some u ∧ u'.m_id = u.m_id ∧
      u'.m_Adj = u.m_Adj ∧ u'.m_AdjObj = u.m_AdjObj := by
  have hLt := (List.getElem?_eq_some_iff.mp hNode).1
  rw [hKeeps.length] at hLt
  have hBefore : nodes[i]? = some nodes[i] :=
    List.getElem?_eq_getElem hLt
  rcases hKeeps.node i _ hBefore with
    ⟨u, hSame, hId, hAdj, hObj, _⟩
  rw [hNode] at hSame
  cases hSame
  exact ⟨_, hBefore, hId, hAdj, hObj⟩

theorem Keeps.edges
    (hKeeps : Keeps nodes nodes') :
    edges nodes' = edges nodes := by
  funext v
  unfold Routealgo.edges
  cases hNode : nodes[v]? with
  | some u =>
      rcases hKeeps.node v u hNode with ⟨u', hNode', _, hAdj, _⟩
      rw [hNode']
      exact congrArg (fun xs => (some xs).getD []) hAdj
  | none =>
      have hOut : nodes.length ≤ v :=
        List.getElem?_eq_none_iff.mp hNode
      rw [List.getElem?_eq_none (by rw [hKeeps.length]; exact hOut)]

theorem Keeps.routable
    (hKeeps : Keeps nodes nodes')
    (hNodes : Routable nodes) :
    Routable nodes' := by
  have hBefore : ∀ u' ∈ nodes', ∃ u ∈ nodes,
      u'.m_Adj = u.m_Adj ∧ u'.m_AdjObj = u.m_AdjObj := by
    intro u' hMem
    rcases List.getElem?_of_mem hMem with ⟨i, hNode⟩
    rcases hKeeps.before hNode with ⟨u, hOld, _, hAdj, hObj⟩
    exact ⟨u, List.mem_of_getElem? hOld, hAdj, hObj⟩
  refine ⟨⟨?_, ?_, ?_⟩, ?_, ?_, ?_⟩
  · intro i u' hNode
    rcases hKeeps.before hNode with ⟨u, hOld, hId, _⟩
    exact hId.trans (hNodes.graph.id hOld)
  · intro u' hMem v hEdge
    rcases hBefore u' hMem with ⟨u, hOld, hAdj, _⟩
    rw [hAdj] at hEdge
    rw [hKeeps.length]
    exact hNodes.graph.edge u hOld v hEdge
  · rw [hKeeps.length]
    exact hNodes.graph.few
  · rw [hKeeps.length]
    exact hNodes.many
  · intro u' hMem
    rcases hBefore u' hMem with ⟨u, hOld, hAdj, _⟩
    rw [hAdj]
    exact hNodes.few u hOld
  · intro u' hMem
    rcases hBefore u' hMem with ⟨u, hOld, hAdj, hObj⟩
    rw [hAdj, hObj]
    exact hNodes.wired u hOld

theorem Keeps.leads
    {a b : Nat}
    {qs : List (BitVec 32 × Nat)}
    (hKeeps : Keeps nodes nodes')
    (hLeads : Leads nodes a qs b) :
    Leads nodes' a qs b := by
  refine hLeads.congr fun i u hNode => ?_
  rcases hKeeps.node i u hNode with ⟨u', hNode', _, hAdj, _⟩
  exact ⟨u', hNode', hAdj⟩

theorem Keeps.carries
    {nv' : NixVec 32}
    (hKeeps : Keeps nodes nodes')
    (hSame : nv'.reset = nv.reset)
    (hCarries : Carries nodes s t nv) :
    Carries nodes' s t nv' := by
  intro n hDistance
  rw [hKeeps.edges] at hDistance
  rcases hCarries n hDistance with ⟨qs, hLeads, hCount, hYields⟩
  exact ⟨qs, hKeeps.leads hLeads, hCount, hSame ▸ hYields⟩

theorem Keeps.deref
    (hKeeps : Keeps nodes nodes')
    (hDeref : p.deref nodes = some nv) :
    ∃ nv', p.deref nodes' = some nv' ∧ nv'.reset = nv.reset := by
  unfold Pointer.deref at hDeref ⊢
  cases hNode : nodes[p.node]? with
  | none =>
      rw [hNode] at hDeref
      cases hDeref
  | some u =>
      rw [hNode] at hDeref
      rcases hKeeps.node _ u hNode with ⟨u', hNode', _, _, _, hVecs⟩
      rw [hNode']
      exact hVecs _ _ hDeref

/- The vectors that the nodes keep are those of shortest ways. -/
def Cached (nodes : List (NixNode 32)) : Prop :=
  ∀ (i : Nat) (u : NixNode 32) (t : Nat) (nv : NixVec 32),
    nodes[i]? = some u →
    u.m_pNixVecs.lookup t = some nv → Carries nodes i t nv

theorem Cached.deref
    (hCached : Cached nodes)
    (hDeref : p.deref nodes = some nv) :
    Carries nodes p.node p.target nv := by
  unfold Pointer.deref at hDeref
  cases hNode : nodes[p.node]? with
  | none =>
      rw [hNode] at hDeref
      cases hDeref
  | some u =>
      rw [hNode] at hDeref
      exact hCached _ u _ nv hNode hDeref

/- A node whose list of vectors is another one. -/
theorem keeps_set
    {u : NixNode 32}
    {vecs : List (Nat × NixVec 32)}
    (hNode : nodes[s]? = some u)
    (hVecs : ∀ t nv, u.m_pNixVecs.lookup t = some nv →
      ∃ nv', vecs.lookup t = some nv' ∧ nv'.reset = nv.reset) :
    Keeps nodes (nodes.set s { u with m_pNixVecs := vecs }) := by
  have hLt := (List.getElem?_eq_some_iff.mp hNode).1
  refine ⟨List.length_set, fun i v hOld => ?_⟩
  by_cases hSame : s = i
  · subst hSame
    rw [hNode] at hOld
    cases hOld
    exact ⟨_, List.getElem?_set_self hLt, rfl, rfl, rfl, hVecs⟩
  · refine ⟨v, ?_, rfl, rfl, rfl, fun t nv hLookup =>
      ⟨nv, hLookup, rfl⟩⟩
    rw [List.getElem?_set_ne hSame]
    exact hOld

theorem lookup_reset
    (vecs : List (Nat × NixVec 32))
    (t t' : Nat) :
    (vecs.map fun e =>
        if e.1 = t then (e.1, e.2.reset) else e).lookup t' =
      (vecs.lookup t').map fun nv =>
        if t' = t then nv.reset else nv := by
  induction vecs with
  | nil => rfl
  | cons e vecs ih =>
      rcases e with ⟨x, nv⟩
      rw [List.map_cons]
      by_cases hHere : t' = x
      · subst hHere
        by_cases hReset : t' = t
        · simp [hReset]
        · simp [hReset]
      · have hSkip : (t' == x) = false := by simpa using hHere
        by_cases hReset : x = t
        · simp only [if_pos hReset, List.lookup_cons, hSkip, ih]
        · simp only [if_neg hReset, List.lookup_cons, hSkip, ih]

/- No vector is computed for a target that is no node. -/
theorem computeNixVector_lt
    {u : NixNode 32}
    (hNodes : Routable nodes)
    (hNode : nodes[s]? = some u)
    (hSome : computeNixVector nodes u t = some nv) :
    t < nodes.length := by
  have hs := (List.getElem?_eq_some_iff.mp hNode).1
  rcases BFS.run_shortest (Or.inl rfl) hNodes.graph hs with
    ⟨hops, parent, hRun, _, hLength, _⟩
  by_contra hOut
  have hNone : parent[t]? = none :=
    List.getElem?_eq_none (by omega)
  have hId : u.m_id = s := hNodes.graph.id hNode
  have hNe : s ≠ t := by omega
  have hRounds : Routealgo.rounds nodes =
      (nodes.length + (nodes.map (·.m_Adj.length)).sum + 1)
        + 1 := rfl
  simp only [computeNixVector, nixRoute, hId, hRun,
    Option.bind_eq_bind, Option.bind_some, hRounds] at hSome
  unfold nixPred at hSome
  simp only [if_neg hNe, hNone, Option.bind_eq_bind,
    Option.bind_none, reduceCtorEq] at hSome

/- Asking for a vector changes none that are kept. -/
theorem getNixVector_keeps
    (hNodes : Routable nodes)
    (hCached : Cached nodes)
    (hGet : getNixVector nodes s t = some nodes') :
    Keeps nodes nodes' ∧ Cached nodes' := by
  unfold getNixVector at hGet
  cases hNode : nodes[s]? with
  | none =>
      rw [hNode] at hGet
      cases hGet
  | some u =>
      have hs := (List.getElem?_eq_some_iff.mp hNode).1
      simp only [hNode, Option.bind_eq_bind,
        Option.bind_some] at hGet
      cases hLookup : u.m_pNixVecs.lookup t with
      | none =>
          simp only [hLookup] at hGet
          cases hCompute : computeNixVector nodes u t with
          | none =>
              rw [hCompute] at hGet
              cases hGet
          | some nv =>
              rw [hCompute] at hGet
              cases hGet
              have ht := computeNixVector_lt hNodes hNode hCompute
              rcases computeNixVector_spec hNodes hNode ht with
                ⟨nv', hCompute', hCarries⟩
              cases hCompute.symm.trans hCompute'
              have hOther : ∀ t', t' ≠ t →
                  ((t, nv.reset) :: u.m_pNixVecs).lookup t' =
                    u.m_pNixVecs.lookup t' := by
                intro t' hNe
                have hSkip : (t' == t) = false := by
                  simpa using hNe
                rw [List.lookup_cons, hSkip]
              have hKeeps : Keeps nodes (nodes.set s
                  { u with m_pNixVecs :=
                      (t, nv.reset) :: u.m_pNixVecs }) := by
                refine keeps_set hNode fun t' nv' hOld => ?_
                have hNe : t' ≠ t := by
                  rintro rfl
                  rw [hLookup] at hOld
                  cases hOld
                exact ⟨nv', (hOther t' hNe).trans hOld, rfl⟩
              refine ⟨hKeeps, fun i v t' nv' hThere hFind => ?_⟩
              by_cases hSame : s = i
              · subst hSame
                rw [List.getElem?_set_self hs] at hThere
                cases hThere
                by_cases hNew : t' = t
                · subst hNew
                  simp only [List.lookup_cons, beq_self_eq_true]
                    at hFind
                  cases hFind
                  exact hKeeps.carries rfl hCarries
                · change List.lookup t' ((t, nv.reset) ::
                    u.m_pNixVecs) = some nv' at hFind
                  rw [hOther t' hNew] at hFind
                  exact hKeeps.carries rfl
                    (hCached _ u t' nv' hNode hFind)
              · rw [List.getElem?_set_ne hSame] at hThere
                exact hKeeps.carries rfl
                  (hCached i v t' nv' hThere hFind)
      | some nv =>
          simp only [hLookup] at hGet
          cases hGet
          have hKeeps : Keeps nodes (nodes.set s
              { u with m_pNixVecs :=
                  u.m_pNixVecs.map fun e =>
                    if e.1 = t then (e.1, e.2.reset)
                    else e }) := by
            refine keeps_set hNode fun t' nv' hOld => ?_
            rw [lookup_reset, hOld]
            by_cases hSame : t' = t
            · exact ⟨nv'.reset, by simp [hSame], rfl⟩
            · exact ⟨nv', by simp [hSame], rfl⟩
          refine ⟨hKeeps, fun i v t' nv' hThere hFind => ?_⟩
          by_cases hSame : s = i
          · subst hSame
            rw [List.getElem?_set_self hs] at hThere
            cases hThere
            simp only [lookup_reset] at hFind
            rcases Option.map_eq_some_iff.mp hFind with
              ⟨old, hOld, hValue⟩
            refine hKeeps.carries ?_
              (hCached s u t' old hNode hOld)
            rw [← hValue]
            split <;> rfl
          · rw [List.getElem?_set_ne hSame] at hThere
            exact hKeeps.carries rfl
              (hCached i v t' nv' hThere hFind)

/- A vector for a node can be had, and the pointer leads to it. -/
theorem getNixVector_some
    (hNodes : Routable nodes)
    (hs : s < nodes.length)
    (ht : t < nodes.length) :
    ∃ nodes' nv, getNixVector nodes s t = some nodes' ∧
      (Pointer.mk s t).deref nodes' = some nv := by
  have hNode : nodes[s]? = some nodes[s] :=
    List.getElem?_eq_getElem hs
  unfold getNixVector Pointer.deref
  simp only [hNode, Option.bind_eq_bind, Option.bind_some]
  cases hLookup : nodes[s].m_pNixVecs.lookup t with
  | none =>
      rcases computeNixVector_spec hNodes hNode ht with
        ⟨nv, hCompute, _⟩
      refine ⟨_, nv.reset, by
        simp only [hCompute, Option.bind_some]
        rfl, ?_⟩
      rw [List.getElem?_set_self hs]
      simp
  | some nv =>
      refine ⟨_, nv.reset, rfl, ?_⟩
      rw [List.getElem?_set_self hs]
      simp only [Option.bind_some, lookup_reset, hLookup]
      simp

end Nix

end Ns2

------------------------------------------------------------
-- Packets on Their Way
------------------------------------------------------------

namespace Ns2

namespace Nix

open BreadthFirst (Walk Distance)
open NixVec (Proper Yields)
open Routealgo (NODE_NONE edges)

variable {nodes nodes' : List (NixNode 32)}
variable {f : Flight}

/- The indices after a packet's position lead to where it goes. -/
structure Flight.Carried
    (nodes : List (NixNode 32))
    (f : Flight) : Prop where
  pointer :
    f.packet.pNv = some ⟨f.source, f.packet.daddr⟩
  inside : f.source < nodes.length
  walk : Walk (edges nodes) f.hops f.source f.node
  way :
    ∃ nv qs,
      (Pointer.mk f.source f.packet.daddr).deref nodes =
        some nv ∧
      Distance (edges nodes) f.source f.packet.daddr
        (f.hops + qs.length) ∧
      Leads nodes f.node qs f.packet.daddr ∧
      Yields { nv with m_used := f.packet.h_used } qs

theorem Flight.Carried.keeps
    (hCarried : f.Carried nodes)
    (hKeeps : Keeps nodes nodes') :
    f.Carried nodes' := by
  rcases hCarried.way with
    ⟨nv, qs, hDeref, hDistance, hLeads, hYields⟩
  rcases hKeeps.deref hDeref with ⟨nv', hDeref', hSame⟩
  constructor
  case pointer => exact hCarried.pointer
  case inside =>
    rw [hKeeps.length]
    exact hCarried.inside
  case walk =>
    rw [hKeeps.edges]
    exact hCarried.walk
  case way =>
    refine ⟨nv', qs, hDeref', ?_, hKeeps.leads hLeads, ?_⟩
    · rw [hKeeps.edges]
      exact hDistance
    · have hAt := congrArg (fun nv : NixVec 32 =>
        { nv with m_used := f.packet.h_used }) hSame
      simp only [NixVec.reset] at hAt
      rw [hAt]
      exact hYields

/- How far a packet has come, and how far it has to go. -/
theorem Flight.Carried.left
    (hCarried : f.Carried nodes) :
    ∃ n, Distance (edges nodes) f.node f.packet.daddr n ∧
      Distance (edges nodes) f.source f.packet.daddr
        (f.hops + n) := by
  rcases hCarried.way with
    ⟨nv, qs, _, hDistance, hLeads, _⟩
  exact ⟨qs.length,
    hDistance.rest hCarried.walk hLeads.walk, hDistance⟩

/- A packet at its target has taken a shortest way. -/
theorem Flight.Carried.arrived
    (hCarried : f.Carried nodes)
    (hHere : f.node = f.packet.daddr) :
    Distance (edges nodes) f.source f.packet.daddr f.hops := by
  rcases hCarried.left with ⟨n, hLeft, hDistance⟩
  have hZero : n = 0 := by
    have hLe := hLeft.least 0 (hHere ▸ .refl f.node)
    omega
  subst hZero
  exact hDistance

/- The classifier passes a packet one edge on, or up. -/
theorem find_spec
    (hNodes : Routable nodes)
    (hCarried : f.Carried nodes) :
    (f.node = f.packet.daddr ∧
      find nodes f.node f.packet = some (.m_Dmux, f.packet)) ∨
    f.node ≠ f.packet.daddr ∧ ∃ node p,
      find nodes f.node f.packet = some (.link node, p) ∧
      node ∈ edges nodes f.node ∧ p.daddr = f.packet.daddr ∧
      Flight.Carried nodes ⟨p, node, f.source, f.hops + 1⟩ := by
  have hIn : f.node < nodes.length :=
    hNodes.graph.walk_lt hCarried.inside hCarried.walk
  have hSome : f.node ≠ NODE_NONE :=
    Nat.ne_of_lt (Nat.lt_of_lt_of_le hIn hNodes.graph.few)
  have hNode : nodes[f.node]? = some nodes[f.node] :=
    List.getElem?_eq_getElem hIn
  have hId := hNodes.graph.id hNode
  by_cases hHere : f.node = f.packet.daddr
  · left
    refine ⟨hHere, ?_⟩
    unfold find
    rw [if_neg hSome]
    simp only [getNodeObject, hNode, Option.bind_eq_bind,
      Option.bind_some, hId]
    rw [if_pos hHere.symm]
  · refine Or.inr ⟨hHere, ?_⟩
    rcases hCarried.way with
      ⟨nv, qs, hDeref, hDistance, hLeads, hYields⟩
    cases qs with
    | nil => exact absurd hLeads hHere
    | cons q qs =>
        rcases hLeads with ⟨u, v, hThere, hBits, hNext, hRest⟩
        cases hNode.symm.trans hThere
        rcases hYields with ⟨nv', hExtract, hLater⟩
        have hWired := hNodes.wired _ (List.getElem_mem hIn)
        have hObj : nodes[f.node].m_AdjObj[q.1.toNat]? =
            some v := by
          rw [hWired]
          exact hNext
        unfold NixVec.extract at hExtract
        cases hFrom : nv.extractFrom q.2 f.packet.h_used with
        | none =>
            have hSame : NixVec.extractFrom
                { nv with m_used := f.packet.h_used } q.2
                f.packet.h_used = none := hFrom
            simp only [hSame, Option.bind_eq_bind,
              Option.bind_none, reduceCtorEq] at hExtract
        | some r =>
            have hSame : NixVec.extractFrom
                { nv with m_used := f.packet.h_used } q.2
                f.packet.h_used = some r := hFrom
            simp only [hSame, Option.bind_eq_bind,
              Option.bind_some] at hExtract
            have hPair := Option.some.inj hExtract
            rcases Prod.mk.inj hPair with ⟨hIndex, rfl⟩
            refine ⟨v, { f.packet with h_used := r.2 }, ?_, ?_,
              rfl, ?_⟩
            · unfold find
              rw [if_neg hSome]
              simp only [getNodeObject, hNode,
                Option.bind_eq_bind, Option.bind_some, hId]
              rw [if_neg (Ne.symm hHere), hCarried.pointer]
              simp only [hDeref, Option.bind_some, ← hBits,
                hFrom, hIndex, NixNode.getNeighbor, hNext,
                NixNode.getNsNeighbor, hObj]
            · rw [Routealgo.edges_of_node hNode]
              exact List.mem_of_getElem? hNext
            · constructor
              case pointer => exact hCarried.pointer
              case inside => exact hCarried.inside
              case walk =>
                refine hCarried.walk.tail ?_
                rw [Routealgo.edges_of_node hNode]
                exact List.mem_of_getElem? hNext
              case way =>
                refine ⟨nv, qs, hDeref, ?_, hRest, hLater⟩
                have hLength : f.hops + (q :: qs).length =
                    f.hops + 1 + qs.length := by
                  rw [List.length_cons]
                  omega
                exact hLength ▸ hDistance

end Nix

end Ns2

------------------------------------------------------------
-- Runs of the Network
------------------------------------------------------------

namespace Ns2

namespace Nix

namespace NixNetwork

open BreadthFirst (Walk Distance)
open Routealgo (BFS edges NODE_NONE)

variable {net net' : NixNetwork 32}

structure Sound (net : NixNetwork 32) : Prop where
  routable : Routable net.nodes
  cached : Cached net.nodes
  flying : ∀ f ∈ net.flying, f.Carried net.nodes
  delivered :
    ∀ f ∈ net.delivered, f.node = f.packet.daddr ∧
      Distance (edges net.nodes) f.source f.packet.daddr f.hops

theorem sound_initial
    (hInitial : net.Initial) :
    net.Sound := by
  constructor
  case routable =>
    refine ⟨⟨?_, hInitial.edge, ?_⟩, hInitial.nodes,
      hInitial.edges, hInitial.wired⟩
    · exact fun hNode => hInitial.id _ _ hNode
    · have hMany := hInitial.nodes
      unfold NODE_NONE
      omega
  case cached =>
    intro i u t nv hNode hLookup
    rw [hInitial.fresh u (List.mem_of_getElem? hNode)] at hLookup
    cases hLookup
  case flying =>
    intro f hMem
    rw [hInitial.flying] at hMem
    exact absurd hMem List.not_mem_nil
  case delivered =>
    intro f hMem
    rw [hInitial.delivered] at hMem
    exact absurd hMem List.not_mem_nil

/- Vectors that are computed leave the packets as they are. -/
theorem Sound.keeps
    {nodes : List (NixNode 32)}
    (hSound : net.Sound)
    (hKeeps : Keeps net.nodes nodes)
    (hCached : Cached nodes) :
    Sound { net with nodes := nodes } := by
  constructor
  case routable => exact hKeeps.routable hSound.routable
  case cached => exact hCached
  case flying =>
    intro f hMem
    exact (hSound.flying f hMem).keeps hKeeps
  case delivered =>
    intro f hMem
    rcases hSound.delivered f hMem with ⟨hHere, hDistance⟩
    refine ⟨hHere, ?_⟩
    change Distance (edges nodes) _ _ _
    rw [hKeeps.edges]
    exact hDistance

/- A packet that is sent has the whole way to go. -/
theorem initpkt_carried
    {nodes : List (NixNode 32)}
    {here dst n : Nat}
    {p : Packet}
    (hSound : net.Sound)
    (hHere : here < net.nodes.length)
    (hWalk : Walk (edges net.nodes) n here dst)
    (hSend : initpkt net.nodes here dst = some (nodes, p)) :
    Keeps net.nodes nodes ∧ Cached nodes ∧
      Flight.Carried nodes ⟨p, here, here, 0⟩ := by
  have hNodes := hSound.routable
  have hDst := hNodes.graph.walk_lt hHere hWalk
  rcases getNixVector_some hNodes hHere hDst with
    ⟨nodes', nv, hGet, hDeref⟩
  unfold initpkt getNodeObject at hSend
  rw [List.getElem?_eq_getElem hHere] at hSend
  simp only [hGet, Option.bind_eq_bind, Option.bind_some] at hSend
  cases hSend
  rcases getNixVector_keeps hNodes hSound.cached hGet with
    ⟨hKeeps, hCached⟩
  refine ⟨hKeeps, hCached, ?_⟩
  rcases BreadthFirst.exists_distance ⟨n, hWalk⟩ with
    ⟨m, hDistance⟩
  rw [← hKeeps.edges] at hDistance
  rcases hCached.deref hDeref m hDistance with
    ⟨qs, hLeads, hCount, hYields⟩
  constructor
  case pointer => rfl
  case inside =>
    rw [hKeeps.length]
    exact hHere
  case walk => exact .refl here
  case way =>
    refine ⟨nv, qs, hDeref, ?_, hLeads, hYields⟩
    rw [hCount, Nat.zero_add]
    exact hDistance

theorem Sound.step
    (hSound : net.Sound)
    (hStep : Step net net') :
    net'.Sound ∧ edges net'.nodes = edges net.nodes ∧
      net'.nodes.length = net.nodes.length := by
  cases hStep with
  | initpkt hHere hWalk hSend =>
      rcases initpkt_carried hSound hHere hWalk hSend with
        ⟨hKeeps, hCached, hCarried⟩
      have hNext := hSound.keeps hKeeps hCached
      refine ⟨⟨hNext.routable, hCached, ?_, hNext.delivered⟩,
        hKeeps.edges, hKeeps.length⟩
      intro f hMem
      rcases List.mem_cons.mp hMem with hNew | hOld
      · rw [hNew]
        exact hCarried
      · exact hNext.flying f hOld
  | getNixVector hGet =>
      rcases getNixVector_keeps hSound.routable hSound.cached
          hGet with ⟨hKeeps, hCached⟩
      exact ⟨hSound.keeps hKeeps hCached, hKeeps.edges,
        hKeeps.length⟩
  | @forward before after f node p hFlying hFind =>
      have hMem : f ∈ net.flying := by
        rw [hFlying]
        simp
      refine ⟨⟨hSound.routable, hSound.cached, ?_,
        hSound.delivered⟩, rfl, rfl⟩
      intro g hIn
      rcases find_spec hSound.routable (hSound.flying f hMem)
        with ⟨_, hUp⟩ | ⟨_, node', p', hFound, _, _, hCarried⟩
      · rw [hUp] at hFind
        cases hFind
      · cases hFound.symm.trans hFind
        simp only [List.mem_append, List.mem_cons] at hIn
        rcases hIn with hBefore | hNew | hAfter
        · exact hSound.flying g (by rw [hFlying]; simp [hBefore])
        · rw [hNew]
          exact hCarried
        · exact hSound.flying g (by rw [hFlying]; simp [hAfter])
  | @deliver before after f p hFlying hFind =>
      have hMem : f ∈ net.flying := by
        rw [hFlying]
        simp
      have hCarried := hSound.flying f hMem
      refine ⟨⟨hSound.routable, hSound.cached, ?_, ?_⟩, rfl, rfl⟩
      · intro g hIn
        apply hSound.flying g
        rw [hFlying]
        rcases List.mem_append.mp hIn with hBefore | hAfter
        · simp [hBefore]
        · simp [hAfter]
      · intro g hIn
        rcases List.mem_cons.mp hIn with hNew | hOld
        · rw [hNew]
          rcases find_spec hSound.routable hCarried with
            ⟨hHere, _⟩ | ⟨_, node, p', hFound, _⟩
          · exact ⟨hHere, hCarried.arrived hHere⟩
          · rw [hFound] at hFind
            cases hFind
        · exact hSound.delivered g hOld
  | @lose before after f hFlying =>
      refine ⟨⟨hSound.routable, hSound.cached, ?_,
        hSound.delivered⟩, rfl, rfl⟩
      intro g hIn
      apply hSound.flying g
      rw [hFlying]
      rcases List.mem_append.mp hIn with hBefore | hAfter
      · simp [hBefore]
      · simp [hAfter]

theorem Sound.reaches
    (hSound : net.Sound)
    (hReach : Reaches net net') :
    net'.Sound ∧ edges net'.nodes = edges net.nodes ∧
      net'.nodes.length = net.nodes.length := by
  induction hReach with
  | refl => exact ⟨hSound, rfl, rfl⟩
  | tail _ hStep ih =>
      rcases ih with ⟨hNow, hEdges, hLength⟩
      rcases hNow.step hStep with ⟨hNext, hEdges', hLength'⟩
      exact ⟨hNext, hEdges'.trans hEdges, hLength'.trans hLength⟩

/-
  In every run, an agent can send to every node; the classifier
  never fails on a packet, which is passed up at its target
  and along an edge before; with the links that are left it
  will have taken as few as there can be; and a packet that was
  passed up is at its target and took so few.
-/
theorem delivered_by_shortest_way
    (hInitial : net.Initial)
    (hReach : Reaches net net') :
    (∀ here dst, here < net.nodes.length →
      dst < net.nodes.length →
      (initpkt net'.nodes here dst).isSome) ∧
    (∀ f ∈ net'.flying,
      (f.node = f.packet.daddr ∧
          find net'.nodes f.node f.packet =
            some (.m_Dmux, f.packet) ∨
        f.node ≠ f.packet.daddr ∧ ∃ node p,
          find net'.nodes f.node f.packet =
            some (.link node, p) ∧
          node ∈ edges net.nodes f.node) ∧
      ∃ n, Distance (edges net.nodes) f.node f.packet.daddr n ∧
        Distance (edges net.nodes) f.source f.packet.daddr
          (f.hops + n)) ∧
    ∀ f ∈ net'.delivered, f.node = f.packet.daddr ∧
      Distance (edges net.nodes) f.source f.packet.daddr
        f.hops := by
  rcases (sound_initial hInitial).reaches hReach with
    ⟨hSound, hEdges, hLength⟩
  rw [← hEdges, ← hLength]
  refine ⟨?_, ?_, hSound.delivered⟩
  · intro here dst hHere hDst
    rcases getNixVector_some hSound.routable hHere hDst with
      ⟨nodes, nv, hGet, _⟩
    unfold initpkt getNodeObject
    rw [List.getElem?_eq_getElem hHere]
    simp only [hGet]
    rfl
  · intro f hMem
    have hCarried := hSound.flying f hMem
    refine ⟨?_, hCarried.left⟩
    rcases find_spec hSound.routable hCarried with
      hUp | ⟨hAway, node, p, hFind, hEdge, _⟩
    · exact Or.inl hUp
    · exact Or.inr ⟨hAway, node, p, hFind, hEdge⟩

/- The line of nodes before and after a vector is computed. -/
def lined : NixNetwork 32 :=
  ⟨BFS.line, [], []⟩

def linedNodes : List (NixNode 32) :=
  BFS.line.set 0
    ⟨0, [1], [1], [(2, ⟨.value 0x40000000, 0, 2⟩)]⟩

theorem lined_initial : lined.Initial := by
  constructor
  case id => exact fun _ _ hNode => BFS.wellFormed_line.id hNode
  case edge => exact BFS.wellFormed_line.edge
  case wired => decide
  case fresh => decide
  case nodes => decide
  case edges => decide
  case flying => rfl
  case delivered => rfl

/- A packet from one end of the line to the other. -/
theorem delivered_by_shortest_way_line :
    ∃ net', Reaches lined net' ∧
      ∃ f ∈ net'.delivered, f.node = 2 ∧
        Distance (edges lined.nodes) 0 2 f.hops := by
  have hFirst : find linedNodes 0 ⟨2, some ⟨0, 2⟩, 0⟩ =
      some (.link 1, ⟨2, some ⟨0, 2⟩, 1⟩) := by
    decide +kernel
  have hSecond : find linedNodes 1 ⟨2, some ⟨0, 2⟩, 1⟩ =
      some (.link 2, ⟨2, some ⟨0, 2⟩, 2⟩) := by
    decide +kernel
  let first : Flight := ⟨⟨2, some ⟨0, 2⟩, 0⟩, 0, 0, 0⟩
  let second : Flight := ⟨⟨2, some ⟨0, 2⟩, 1⟩, 1, 0, 1⟩
  let third : Flight := ⟨⟨2, some ⟨0, 2⟩, 2⟩, 2, 0, 2⟩
  let sent : NixNetwork 32 := ⟨linedNodes, [first], []⟩
  let halfway : NixNetwork 32 := ⟨linedNodes, [second], []⟩
  let there : NixNetwork 32 := ⟨linedNodes, [third], []⟩
  let done : NixNetwork 32 := ⟨linedNodes, [], [third]⟩
  have hSent : Step lined sent :=
    .initpkt (by decide) BFS.walk_line rfl
  have hHalfway : Step sent halfway :=
    @Step.forward 32 sent [] [] first 1 second.packet rfl
      hFirst
  have hThere : Step halfway there :=
    @Step.forward 32 halfway [] [] second 2 third.packet rfl
      hSecond
  have hDone : Step there done :=
    @Step.deliver 32 there [] [] third third.packet rfl rfl
  have hReach : Reaches lined done :=
    (((Relation.ReflTransGen.single hSent).tail hHalfway).tail
      hThere).tail hDone
  have hAll := (delivered_by_shortest_way lined_initial hReach).2.2
  exact ⟨done, hReach, _, List.mem_singleton_self _, rfl,
    (hAll _ (List.mem_singleton_self _)).2⟩

end NixNetwork

end Nix

end Ns2
