import Ns2.Lib.ShortestPaths
import Mathlib.Data.Finset.Card

/-
  Least-cost walks below a bound, by settling nodes.

  The nearest node that is not settled yet is settled and its
  edges are tried for the other ones. Costs from the bound on
  count as none at all. Tables made for each source agree: the
  walks along their first hops have least costs.

  Main declarations:
    * `Tentative`, `Tentative.settle`
    * `Tentative.leastCost`
    * `Onward`, `Onward.follow`
-/

------------------------------------------------------------
-- Walks from Their First Edge
------------------------------------------------------------

namespace ShortestPaths

variable {ι κ : Type*}
variable [AddCommMonoid κ]
variable {edge : ι → ι → κ → Prop}
variable {s t v : ι} {p : List ι} {c w : κ}

theorem Walk.cons
    (hEdge : edge s v w)
    (hWalk : Walk edge v p t c) :
    Walk edge s (v :: p) t (w + c) := by
  induction hWalk with
  | nil =>
      rw [add_zero]
      exact Walk.single hEdge
  | @snoc p u x c y hBefore hLast ih =>
      rw [← add_assoc]
      exact ih.snoc hLast

theorem Walk.of_cons
    (hWalk : Walk edge s (v :: p) t c) :
    ∃ w c', edge s v w ∧ Walk edge v p t c' ∧ c = w + c' := by
  generalize hList : v :: p = q at hWalk
  induction hWalk generalizing p with
  | nil => cases hList
  | @snoc q u x c y hBefore hLast ih =>
      cases q with
      | nil =>
          rcases hBefore.of_nil with
            ⟨hSource, hCost⟩
          subst hSource
          subst hCost
          cases hList
          exact ⟨y, 0, hLast, Walk.nil, add_comm _ _⟩
      | cons first rest =>
          cases hList
          rcases ih rfl with
            ⟨w, c', hEdge, hRest, hCost⟩
          refine ⟨w, c' + y, hEdge, hRest.snoc hLast, ?_⟩
          rw [hCost, add_assoc]

theorem Walk.nonneg
    {κ : Type*}
    [AddCommMonoid κ] [LinearOrder κ]
    [IsOrderedCancelAddMonoid κ]
    {edge : ι → ι → κ → Prop}
    {c : κ}
    (hPos : ∀ u v w, edge u v w → 0 < w)
    (hWalk : Walk edge s p t c) : 0 ≤ c := by
  cases p with
  | nil => exact hWalk.of_nil.2.ge
  | cons x p =>
      exact (hWalk.pos hPos (List.cons_ne_nil _ _)).le

theorem LeastCost.unique
    {κ : Type*}
    [AddCommMonoid κ] [PartialOrder κ]
    {edge : ι → ι → κ → Prop}
    {c c' : κ}
    (hFirst : LeastCost edge s t c)
    (hSecond : LeastCost edge s t c') : c = c' := by
  rcases hFirst.1 with
    ⟨p, hWalk⟩
  rcases hSecond.1 with
    ⟨q, hWalk'⟩
  exact le_antisymm (hFirst.2 q c' hWalk')
    (hSecond.2 p c hWalk)

/- A least-cost walk goes on as one from its second node. -/
theorem LeastCost.tail
    {κ : Type*}
    [AddCommMonoid κ] [LinearOrder κ]
    [IsOrderedCancelAddMonoid κ]
    {edge : ι → ι → κ → Prop}
    {c : κ}
    (hLeast : LeastCost edge s t c)
    (hHop : FirstHop edge s t c v) :
    ∃ w c', edge s v w ∧ LeastCost edge v t c' ∧
      c = w + c' := by
  rcases hHop with
    ⟨p, hWalk⟩
  rcases hWalk.of_cons with
    ⟨w, c', hEdge, hRest, hSum⟩
  refine ⟨w, c', hEdge, ⟨⟨p, hRest⟩, ?_⟩, hSum⟩
  intro q d hOther
  have hLess := hLeast.2 _ _ (Walk.cons hEdge hOther)
  rw [hSum] at hLess
  exact le_of_add_le_add_left hLess

open Classical in
/- The least cost of the walks to a target. -/
noncomputable def costTo
    {κ : Type*}
    [AddCommMonoid κ] [LE κ]
    (edge : ι → ι → κ → Prop)
    (t u : ι) : κ :=
  if h : ∃ c, LeastCost edge u t c then h.choose else 0

theorem costTo_eq
    {κ : Type*}
    [AddCommMonoid κ] [PartialOrder κ]
    {edge : ι → ι → κ → Prop}
    {c : κ}
    (hLeast : LeastCost edge s t c) :
    costTo edge t s = c := by
  have hSome : ∃ c, LeastCost edge s t c := ⟨c, hLeast⟩
  rw [costTo, dif_pos hSome]
  exact hSome.choose_spec.unique hLeast

end ShortestPaths

------------------------------------------------------------
-- Settling Nodes
------------------------------------------------------------

namespace ShortestPaths

variable {ι κ : Type*}
variable [AddCommMonoid κ] [LinearOrder κ]

/- Costs and first hops while some nodes are settled. -/
structure Table (ι κ : Type*) where
  settled : ι → Prop
  dist : ι → κ
  hop : ι → ι

/- Settled nodes are nearer, and their edges were tried. -/
structure Tentative
    (edge : ι → ι → κ → Prop)
    (s : ι)
    (bound : κ)
    (T : Table ι κ) : Prop where
  source : T.settled s ∧ T.dist s = 0
  sound : ∀ v, v ≠ s → T.dist v < bound →
    FirstHop edge s v (T.dist v) (T.hop v)
  ordered : ∀ u v, T.settled u → ¬ T.settled v →
    T.dist u ≤ T.dist v
  closed : ∀ u v w, T.settled u → edge u v w →
    T.dist u + w < bound → T.dist v ≤ T.dist u + w

/- Settle the nearest node, and try its edges. -/
structure Settles
    (edge : ι → ι → κ → Prop)
    (bound : κ)
    (T : Table ι κ)
    (o : ι)
    (T' : Table ι κ) : Prop where
  nearest : ∀ v, ¬ T.settled v → T.dist o ≤ T.dist v
  unsettled : ¬ T.settled o
  within : T.dist o < bound
  settled : ∀ v, T'.settled v ↔ T.settled v ∨ v = o
  kept : ∀ v, T'.settled v →
    T'.dist v = T.dist v ∧ T'.hop v = T.hop v
  tried : ∀ v, ¬ T'.settled v →
    (T'.dist v = T.dist v ∧ T'.hop v = T.hop v ∧
      ∀ w, edge o v w → T.dist o + w < bound →
        T.dist v ≤ T.dist o + w) ∨
    (∃ w, edge o v w ∧ T'.dist v = T.dist o + w ∧
      T'.dist v < T.dist v ∧ T'.hop v = T.hop o ∧
      ∀ w', edge o v w' → w ≤ w')

variable {edge : ι → ι → κ → Prop}
variable {s o t v : ι} {bound : κ}
variable {T T' : Table ι κ}

theorem Settles.dist_le
    (hSettles : Settles edge bound T o T')
    (v : ι) : T'.dist v ≤ T.dist v := by
  by_cases hSettled : T'.settled v
  · exact (hSettles.kept v hSettled).1.le
  · rcases hSettles.tried v hSettled with
      ⟨hDist, _⟩ | ⟨w, _, _, hLess, _⟩
    · exact hDist.le
    · exact hLess.le

variable [IsOrderedCancelAddMonoid κ]

/- An edge of the settled node keeps the order. -/
theorem Settles.le_dist
    (hSettles : Settles edge bound T o T')
    (hPos : ∀ u v w, edge u v w → 0 < w)
    (hUnsettled : ¬ T'.settled v) :
    T.dist o ≤ T'.dist v := by
  rcases hSettles.tried v hUnsettled with
    ⟨hDist, _⟩ | ⟨w, hEdge, hDist, _⟩
  · rw [hDist]
    apply hSettles.nearest
    exact fun hSettled =>
      hUnsettled ((hSettles.settled v).mpr (Or.inl hSettled))
  · rw [hDist]
    exact le_add_of_nonneg_right (hPos o v w hEdge).le

theorem Tentative.settle
    (hTable : Tentative edge s bound T)
    (hPos : ∀ u v w, edge u v w → 0 < w)
    (hSettles : Settles edge bound T o T') :
    Tentative edge s bound T' := by
  have hSource : T'.settled s :=
    (hSettles.settled s).mpr (Or.inl hTable.source.1)
  have hApart : o ≠ s := by
    intro hSame
    exact hSettles.unsettled (hSame ▸ hTable.source.1)
  have hHere : T'.settled o :=
    (hSettles.settled o).mpr (Or.inr rfl)
  constructor
  case source =>
    refine ⟨hSource, ?_⟩
    rw [(hSettles.kept s hSource).1]
    exact hTable.source.2
  case sound =>
    intro v hv hLess
    by_cases hSettled : T'.settled v
    · rcases hSettles.kept v hSettled with
        ⟨hDist, hHop⟩
      rw [hDist] at hLess ⊢
      rw [hHop]
      exact hTable.sound v hv hLess
    · rcases hSettles.tried v hSettled with
        ⟨hDist, hHop, _⟩ | ⟨w, hEdge, hDist, _, hHop, _⟩
      · rw [hDist] at hLess ⊢
        rw [hHop]
        exact hTable.sound v hv hLess
      · rw [hDist, hHop]
        exact (hTable.sound o hApart
          hSettles.within).snoc hEdge
  case ordered =>
    intro u v hu hv
    rw [(hSettles.kept u hu).1]
    rcases (hSettles.settled u).mp hu with
      hOld | hNew
    · have hFar : T.dist u ≤ T.dist o :=
        hTable.ordered u o hOld hSettles.unsettled
      exact hFar.trans (hSettles.le_dist hPos hv)
    · rw [hNew]
      exact hSettles.le_dist hPos hv
  case closed =>
    intro u v w hu hEdge hLess
    rw [(hSettles.kept u hu).1] at hLess ⊢
    rcases (hSettles.settled u).mp hu with
      hOld | hNew
    · exact (hSettles.dist_le v).trans
        (hTable.closed u v w hOld hEdge hLess)
    · subst hNew
      by_cases hSettled : T'.settled v
      · -- A node settled before is no further away.
        have hNear : T'.dist v ≤ T.dist u := by
          rw [(hSettles.kept v hSettled).1]
          rcases (hSettles.settled v).mp hSettled with
            hOld | hSame
          · exact hTable.ordered v u hOld
              hSettles.unsettled
          · rw [hSame]
        exact hNear.trans
          (le_add_of_nonneg_right (hPos u v w hEdge).le)
      · rcases hSettles.tried v hSettled with
          ⟨hDist, _, hTried⟩ | ⟨w', _, hDist, _, _, hLeast⟩
        · rw [hDist]
          exact hTried w hEdge hLess
        · rw [hDist]
          exact add_le_add_right (hLeast w hEdge) _

/- When no node is left, no walk is cheaper. -/
theorem Tentative.le_of_walk
    (hTable : Tentative edge s bound T)
    (hPos : ∀ u v w, edge u v w → 0 < w)
    (hDone : ∀ v, ¬ T.settled v → bound ≤ T.dist v)
    {p : List ι}
    {c : κ}
    (hWalk : Walk edge s p t c)
    (hLess : c < bound) : T.dist t ≤ c := by
  induction hWalk with
  | nil => exact hTable.source.2.le
  | @snoc p u v c w hBefore hEdge ih =>
      have hw := hPos u v w hEdge
      have hPrefix : c < bound :=
        (le_add_of_nonneg_right hw.le).trans_lt hLess
      have hNear := ih hPrefix
      have hSettled : T.settled u := by
        by_contra hNot
        exact absurd (hNear.trans_lt hPrefix)
          (hDone u hNot).not_gt
      have hSum : T.dist u + w ≤ c + w :=
        add_le_add_left hNear w
      exact (hTable.closed u v w hSettled hEdge
        (hSum.trans_lt hLess)).trans hSum

/- A finished table knows the costs below the bound. -/
theorem Tentative.leastCost
    (hTable : Tentative edge s bound T)
    (hPos : ∀ u v w, edge u v w → 0 < w)
    (hDone : ∀ v, ¬ T.settled v → bound ≤ T.dist v)
    (ht : t ≠ s)
    (hLess : T.dist t < bound) :
    LeastCost edge s t (T.dist t) ∧
      FirstHop edge s t (T.dist t) (T.hop t) := by
  have hHop := hTable.sound t ht hLess
  refine ⟨⟨?_, ?_⟩, hHop⟩
  · rcases hHop with
      ⟨p, hWalk⟩
    exact ⟨_, hWalk⟩
  · intro p c hWalk
    rcases lt_or_ge c bound with
      hBelow | hAbove
    · exact hTable.le_of_walk hPos hDone hWalk hBelow
    · exact (hLess.trans_le hAbove).le

end ShortestPaths

------------------------------------------------------------
-- Following First Hops
------------------------------------------------------------

namespace ShortestPaths

variable {ι κ : Type*}
variable [AddCommMonoid κ] [LinearOrder κ]

/- The next node towards a target, on a least-cost walk. -/
structure Onward
    (edge : ι → ι → κ → Prop)
    (nodes : Finset ι)
    (bound : κ)
    (next : ι → ι)
    (t : ι) : Prop where
  positive : ∀ u v w, edge u v w → 0 < w
  step : ∀ u c, u ∈ nodes → u ≠ t → c < bound →
    LeastCost edge u t c →
    next u ∈ nodes ∧
      ∃ w c', edge u (next u) w ∧
        LeastCost edge (next u) t c' ∧ c = w + c'

/- The nodes that the next hops lead through. -/
def follow
    [DecidableEq ι]
    (next : ι → ι)
    (t : ι) : Nat → ι → Option (List ι)
| fuel, u =>
    if u = t then some []
    else
      match fuel with
      | 0 => none
      | fuel + 1 =>
          (follow next t fuel (next u)).map (next u :: ·)

variable [DecidableEq ι]
variable {next : ι → ι}
variable {s t u : ι}
variable {fuel : Nat}

theorem follow_here :
    follow next t fuel t = some [] := by
  unfold follow
  rw [if_pos rfl]

theorem follow_step
    (hu : u ≠ t) :
    follow next t (fuel + 1) u =
      (follow next t fuel (next u)).map (next u :: ·) := by
  rw [follow, if_neg hu]

variable {edge : ι → ι → κ → Prop}
variable {nodes : Finset ι}
variable {bound c : κ}

/- The nodes whose least cost to the target is smaller. -/
def closer
    (nodes : Finset ι)
    (cost : ι → κ)
    (c : κ) : Finset ι :=
  nodes.filter (cost · < c)

variable [IsOrderedCancelAddMonoid κ]

omit [DecidableEq ι] in
theorem LeastCost.self
    (hPos : ∀ u v w, edge u v w → 0 < w)
    (hLeast : LeastCost edge t t c) : c = 0 := by
  exact hLeast.unique
    ⟨⟨[], Walk.nil⟩, fun _ _ hWalk => hWalk.nonneg hPos⟩

omit [DecidableEq ι] [AddCommMonoid κ]
  [IsOrderedCancelAddMonoid κ] in
theorem closer_card_lt
    {cost : ι → κ}
    (hu : u ∈ nodes)
    (hLess : cost u < c) :
    (closer nodes cost (cost u)).card <
      (closer nodes cost c).card := by
  apply Finset.card_lt_card
  apply (Finset.ssubset_iff_of_subset ?_).mpr
  · refine ⟨u, Finset.mem_filter.mpr ⟨hu, hLess⟩, ?_⟩
    intro hMem
    exact lt_irrefl _ (Finset.mem_filter.mp hMem).2
  · intro x hx
    rcases Finset.mem_filter.mp hx with
      ⟨hNode, hNear⟩
    exact Finset.mem_filter.mpr ⟨hNode, hNear.trans hLess⟩

/- Each step comes closer, so the target is reached. -/
theorem Onward.follow
    {cost : ι → κ}
    (hOnward : Onward edge nodes bound next t)
    (hCost : ∀ u c, LeastCost edge u t c → cost u = c)
    (hs : s ∈ nodes)
    (hBound : c < bound)
    (hLeast : LeastCost edge s t c)
    (hFuel : (closer nodes cost c).card ≤ fuel) :
    ∃ p, ShortestPaths.follow next t fuel s = some p ∧
      Walk edge s p t c ∧ (s :: p).Nodup ∧
      ∀ x ∈ p, cost x < c := by
  induction fuel generalizing s c with
  | zero =>
      by_cases hHere : s = t
      · subst hHere
        have hZero := hLeast.self hOnward.positive
        exact ⟨[], follow_here, hZero ▸ Walk.nil,
          List.nodup_singleton s, nofun⟩
      · rcases hOnward.step s c hs hHere hBound hLeast with
          ⟨hNext, w, c', hEdge, hLater, hSum⟩
        have hLess : cost (next s) < c := by
          rw [hCost _ _ hLater, hSum]
          exact lt_add_of_pos_left c'
            (hOnward.positive _ _ _ hEdge)
        have hFewer := closer_card_lt hNext hLess
        omega
  | succ fuel ih =>
      by_cases hHere : s = t
      · subst hHere
        have hZero := hLeast.self hOnward.positive
        exact ⟨[], follow_here, hZero ▸ Walk.nil,
          List.nodup_singleton s, nofun⟩
      · rcases hOnward.step s c hs hHere hBound hLeast with
          ⟨hNext, w, c', hEdge, hLater, hSum⟩
        have hSame := hCost _ _ hLater
        have hLess : c' < c := by
          rw [hSum]
          exact lt_add_of_pos_left c'
            (hOnward.positive _ _ _ hEdge)
        have hFewer :=
          closer_card_lt hNext (hSame.trans_lt hLess)
        rw [hSame] at hFewer
        rcases ih hNext (hLess.trans hBound) hLater
            (by omega) with
          ⟨p, hFollow, hWalk, hNodup, hNearer⟩
        have hAll : ∀ x ∈ next s :: p, cost x < c := by
          intro x hx
          rcases List.mem_cons.mp hx with
            hFirst | hRest
          · rw [hFirst, hSame]
            exact hLess
          · exact (hNearer x hRest).trans hLess
        refine ⟨next s :: p, ?_, ?_, ?_, hAll⟩
        · rw [follow_step hHere, hFollow]
          rfl
        · rw [hSum]
          exact Walk.cons hEdge hWalk
        · refine List.nodup_cons.mpr ⟨?_, hNodup⟩
          intro hAgain
          have hSelf := hAll s hAgain
          rw [hCost _ _ hLeast] at hSelf
          exact lt_irrefl _ hSelf

end ShortestPaths
