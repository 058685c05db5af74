import Ns2.Lib.ShortestPaths
import Ns2.Linkstate.Operations
import Mathlib.Algebra.Order.Group.Defs

/-
  What the route computation keeps about its paths.

  The final paths cost no more than the tentative ones, and
  every link of a final node is covered by one of the two
  tables, except while the links of a node that was just
  put in the paths are looked at.

  Main declarations:
    * `LsTopoMap.edge`, `LsTopoMap.Proper`
    * `Routes.Table`, `Routes.Covered`
    * `Routes.CoveredBut`
-/

------------------------------------------------------------
-- Next hop lists
------------------------------------------------------------

namespace Ns2

section AppendUnique

variable {ids xs : List Int}

theorem mem_appendUnique
    {h : Int} :
    h ∈ appendUnique ids xs ↔ h ∈ ids ∨ h ∈ xs := by
  induction xs generalizing ids with
  | nil => simp [appendUnique]
  | cons x xs ih =>
      unfold appendUnique
      by_cases hx : x ∈ ids
      · rw [if_pos hx, ih, List.mem_cons]
        constructor
        · rintro (hOld | hNew)
          · exact Or.inl hOld
          · exact Or.inr (Or.inr hNew)
        · rintro (hOld | rfl | hNew)
          · exact Or.inl hOld
          · exact Or.inl hx
          · exact Or.inr hNew
      · rw [if_neg hx, ih, List.mem_append,
          List.mem_singleton, List.mem_cons, or_assoc]

theorem nodup_appendUnique
    (hNodup : ids.Nodup) :
    (appendUnique ids xs).Nodup := by
  induction xs generalizing ids with
  | nil => exact hNodup
  | cons x xs ih =>
      unfold appendUnique
      split_ifs with hx
      · exact ih hNodup
      · apply ih
        exact List.nodup_append.mpr
          ⟨hNodup, List.nodup_singleton x,
            fun y hy z hz hEq =>
              hx (List.mem_singleton.mp hz ▸ hEq ▸ hy)⟩

end AppendUnique

end Ns2

------------------------------------------------------------
-- Operations on paths
------------------------------------------------------------

namespace Ns2

namespace LsPaths

variable {paths : LsPaths}
variable {destId cost t : Int} {nhl : List Int}

theorem find_insertNextHopList_ne
    (hNe : t ≠ destId) :
    (insertNextHopList paths destId cost nhl).find t =
      paths.find t := by
  unfold insertNextHopList
  split
  · exact paths.find_insert_ne hNe
  · split_ifs
    · rfl
    · exact paths.find_modify_ne hNe
    · exact paths.find_modify_ne hNe

/- New, replaced, left alone, or joined at an equal cost. -/
theorem find_insertNextHopList_self :
    ((insertNextHopList paths destId cost nhl).find destId =
        some ⟨cost, nhl⟩ ∧
      ∀ ep, paths.find destId = some ep → cost < ep.cost) ∨
    (∃ ep, paths.find destId = some ep ∧ ep.cost < cost ∧
      (insertNextHopList paths destId cost nhl).find destId =
        some ep) ∨
    ∃ hops, paths.find destId = some ⟨cost, hops⟩ ∧
      (insertNextHopList paths destId cost nhl).find destId =
        some ⟨cost, appendUnique hops nhl⟩ := by
  unfold insertNextHopList
  cases hFind : paths.find destId with
  | none =>
      refine Or.inl ⟨paths.find_insert_self hFind, ?_⟩
      intro ep hEp
      cases hEp
  | some ep =>
      simp only
      split_ifs with hLess hMore
      · exact Or.inr (Or.inl ⟨ep, rfl, hLess, hFind⟩)
      · refine Or.inl ⟨?_, ?_⟩
        · rw [SortedMap.find_modify_self, hFind]
          rfl
        · intro ep' hEp'
          cases hEp'
          exact hMore
      · have hEq : ep.cost = cost :=
          le_antisymm (not_lt.mp hMore) (not_lt.mp hLess)
        refine Or.inr (Or.inr ⟨ep.nextHopList, ?_, ?_⟩)
        · rw [← hEq]
        · rw [SortedMap.find_modify_self, hFind, ← hEq]
          rfl

variable {path : LsPath}

theorem find_insertPath_ne
    (hNe : t ≠ path.destination) :
    (insertPath paths path).find t = paths.find t := by
  unfold insertPath
  split
  · exact paths.find_insert_ne hNe
  · split_ifs
    · rfl
    · exact paths.find_modify_ne hNe
    · rfl
    · exact paths.find_modify_ne hNe

theorem find_insertPath_new
    (hNew : paths.find path.destination = none) :
    (insertPath paths path).find path.destination =
      some ⟨path.cost, [path.nextHop]⟩ := by
  unfold insertPath
  rw [hNew]
  exact paths.find_insert_self hNew

theorem find_insertPath_equal
    {hops : List Int}
    (hOld : paths.find path.destination =
      some ⟨path.cost, hops⟩)
    (hHop : path.nextHop ∉ hops) :
    (insertPath paths path).find path.destination =
      some ⟨path.cost, hops ++ [path.nextHop]⟩ := by
  unfold insertPath
  rw [hOld]
  simp only
  rw [if_neg (lt_irrefl _), if_neg (lt_irrefl _),
    if_neg hHop, SortedMap.find_modify_self, hOld]
  rfl

theorem cheaper_spec
    (es : List (Int × LsEqualPaths))
    (best : Int × Option (Int × LsEqualPaths)) :
    (es.foldl cheaper best = best ∧
      ∀ e ∈ es, e.2.nextHopList ≠ [] → best.1 ≤ e.2.cost) ∨
    ∃ e ∈ es, es.foldl cheaper best = (e.2.cost, some e) ∧
      e.2.nextHopList ≠ [] ∧ e.2.cost < best.1 ∧
      ∀ e' ∈ es, e'.2.nextHopList ≠ [] →
        e.2.cost ≤ e'.2.cost := by
  induction es generalizing best with
  | nil =>
      refine Or.inl ⟨rfl, ?_⟩
      intro e he
      cases he
  | cons x es ih =>
      rw [List.foldl_cons]
      by_cases hx : x.2.cost < best.1 ∧ x.2.nextHopList ≠ []
      · have hStep : cheaper best x = (x.2.cost, some x) :=
          if_pos hx
        rw [hStep]
        right
        rcases ih (x.2.cost, some x) with
          ⟨hSame, hLeast⟩ | ⟨e, he, hFold, hHops, hLess, hLeast⟩
        · refine ⟨x, List.mem_cons_self, hSame, hx.2, hx.1, ?_⟩
          intro e' he' hHops'
          rcases List.mem_cons.mp he' with rfl | he'
          · exact le_rfl
          · exact hLeast e' he' hHops'
        · refine ⟨e, List.mem_cons_of_mem x he, hFold, hHops,
            hLess.trans hx.1, ?_⟩
          intro e' he' hHops'
          rcases List.mem_cons.mp he' with rfl | he'
          · exact hLess.le
          · exact hLeast e' he' hHops'
      · have hStep : cheaper best x = best := if_neg hx
        have hFirst : x.2.nextHopList ≠ [] →
            best.1 ≤ x.2.cost := by
          intro hHops
          exact not_lt.mp fun hLess => hx ⟨hLess, hHops⟩
        rw [hStep]
        rcases ih best with
          ⟨hSame, hLeast⟩ | ⟨e, he, hFold, hHops, hLess, hLeast⟩
        · refine Or.inl ⟨hSame, ?_⟩
          intro e' he' hHops'
          rcases List.mem_cons.mp he' with rfl | he'
          · exact hFirst hHops'
          · exact hLeast e' he' hHops'
        · refine Or.inr ⟨e, List.mem_cons_of_mem x he, hFold,
            hHops, hLess, ?_⟩
          intro e' he' hHops'
          rcases List.mem_cons.mp he' with rfl | he'
          · exact hLess.le.trans (hFirst hHops')
          · exact hLeast e' he' hHops'

/- What is popped is cheapest, and only its hop is gone. -/
structure Popped
    (paths : LsPaths)
    (sp : LsPath)
    (rest : List Int)
    (paths' : LsPaths) : Prop where
  before :
    paths.find sp.destination =
      some ⟨sp.cost, sp.nextHop :: rest⟩
  least :
    ∀ t ep, paths.find t = some ep → sp.cost ≤ ep.cost
  after :
    paths'.find sp.destination =
      if rest = [] then none else some ⟨sp.cost, rest⟩
  others :
    ∀ t, t ≠ sp.destination → paths'.find t = paths.find t

theorem popShortestPath_popped
    (hHops : ∀ t ep, paths.find t = some ep →
      ep.nextHopList ≠ [] ∧ ep.cost ≤ LS_MAX_COST)
    (hSome : paths.entries ≠ []) :
    ∃ rest, Popped paths (popShortestPath paths).1 rest
      (popShortestPath paths).2 := by
  have hEntry : ∀ e ∈ paths.entries,
      paths.find e.1 = some e.2 := by
    intro e he
    exact paths.mem_entries_iff.mp he
  rcases cheaper_spec paths.entries
    (LS_MAX_COST + 1, none) with
    ⟨hSame, hLeast⟩ | ⟨⟨t, ep⟩, he, hFold, hNe, hLess, hLeast⟩
  · rcases List.exists_mem_of_ne_nil _ hSome with ⟨e, he⟩
    have hFine := hHops e.1 e.2 (hEntry e he)
    have hBound := hLeast e he hFine.1
    simp only at hBound
    omega
  · have hFind : paths.find t = some ep := hEntry _ he
    have hMin : findMinEqualPaths paths = some (t, ep) := by
      unfold findMinEqualPaths
      rw [hFold]
    have hBest : ∀ t' ep', paths.find t' = some ep' →
        ep.cost ≤ ep'.cost := by
      intro t' ep' hFind'
      exact hLeast (t', ep')
        (paths.mem_entries_iff.mpr hFind')
        (hHops t' ep' hFind').1
    rcases ep with ⟨c, hops⟩
    unfold popShortestPath
    rw [hMin]
    match hops, hNe with
    | [h], _ =>
        refine ⟨[], hFind, hBest, ?_, ?_⟩
        · exact paths.find_erase_self
        · intro t' hNe'
          exact paths.find_erase_ne hNe'
    | h :: h' :: rest, _ =>
        refine ⟨h' :: rest, hFind, hBest, ?_, ?_⟩
        · rw [if_neg (List.cons_ne_nil _ _)]
          simp only
          rw [SortedMap.find_modify_self, hFind]
          rfl
        · intro t' hNe'
          exact paths.find_modify_ne hNe'

end LsPaths

end Ns2

------------------------------------------------------------
-- Topology
------------------------------------------------------------

namespace Ns2

open ShortestPaths

/- A link that the database reports as up. -/
def LsTopoMap.edge
    (db : LsTopoMap)
    (u v w : Int) : Prop :=
  ∃ links, db.find u = some links ∧
    ∃ l ∈ links, l.status = .LS_STATUS_UP ∧
      l.neighborId = v ∧ l.cost = w

/- Links have positive costs, and simple paths bounded ones. -/
structure LsTopoMap.Bounded (db : LsTopoMap) : Prop where
  cost : ∀ u v w, db.edge u v w → 1 ≤ w
  simple :
    ∀ u p v c, Walk db.edge u p v c → (u :: p).Nodup →
      c ≤ LS_MAX_COST

/-
  What else is asked of a database.  The link of a node to
  itself is on no simple path, but its cost is added up too.
-/
structure LsTopoMap.Proper
    (db : LsTopoMap)
    (s : Int) : Prop extends db.Bounded where
  loop :
    ∀ u w, db.edge u u w → w + LS_MAX_COST < 2147483648
  id :
    ∀ t, Reachable db.edge s t → t ≠ s →
      t ≠ LS_INVALID_NODE_ID

namespace LsTopoMap.Proper

variable {db : LsTopoMap}
variable {s u v w c : Int} {inside : Int → Prop}
variable (hDb : db.Proper s)

include hDb

theorem pos :
    ∀ u v w, db.edge u v w → 0 < w := by
  intro u v w hEdge
  have hCost := hDb.cost u v w hEdge
  omega

theorem le_of_simple
    (hSimple : SimpleWithin db.edge s inside v c) :
    c ≤ LS_MAX_COST := by
  rcases hSimple with ⟨p, hWalk, hNodup, _⟩
  exact hDb.simple s p v c hWalk hNodup

theorem nonneg_of_simple
    (hSimple : SimpleWithin db.edge s inside v c) :
    0 ≤ c := by
  rcases hSimple with ⟨p, hWalk, _⟩
  by_cases hNil : p = []
  · subst hNil
    exact hWalk.of_nil.2.ge
  · exact (hWalk.pos hDb.pos hNil).le

theorem edge_le
    (hEdge : db.edge u v w) :
    w + LS_MAX_COST < 2147483648 := by
  by_cases hLoop : u = v
  · subst hLoop
    exact hDb.loop u w hEdge
  · have hBound :=
      hDb.simple u [v] v w (Walk.single hEdge)
        (List.nodup_cons.mpr
          ⟨fun h => hLoop (List.mem_singleton.mp h),
            List.nodup_singleton v⟩)
    unfold LS_MAX_COST at hBound ⊢
    omega

/- The cost of a path by one more link does not overflow. -/
theorem addInt_eq
    (hEdge : db.edge u v w)
    (hSimple : SimpleWithin db.edge s inside u c) :
    addInt w c = c + w := by
  have hw := hDb.cost u v w hEdge
  have hLoop := hDb.edge_le hEdge
  have hc := hDb.le_of_simple hSimple
  have hc₀ := hDb.nonneg_of_simple hSimple
  unfold addInt
  rw [Int.bmod_eq_of_le (by omega) (by omega), add_comm]

end LsTopoMap.Proper

end Ns2

------------------------------------------------------------
-- Labels
------------------------------------------------------------

namespace Ns2

open ShortestPaths

namespace LsPaths

/- A table of paths as costs and first hops. -/
def label (paths : LsPaths) : Labels Int Int :=
  fun t =>
    (paths.find t).map fun ep => (ep.cost, ep.nextHopList)

variable {paths : LsPaths}
variable {t v c cost h : Int} {hops nhl : List Int}

theorem label_eq_some :
    paths.label t = some (c, hops) ↔
      paths.find t = some ⟨c, hops⟩ := by
  unfold label
  constructor
  · intro hLabel
    rcases Option.map_eq_some_iff.mp hLabel with
      ⟨ep, hFind, hEq⟩
    cases hEq
    exact hFind
  · intro hFind
    rw [hFind]
    rfl

/- What an entry is after an insertion, or was before it. -/
theorem of_find_insertNextHopList
    {ep : LsEqualPaths}
    (hFind :
      (insertNextHopList paths v cost nhl).find t = some ep) :
    paths.find t = some ep ∨
      t = v ∧ ep.cost = cost ∧
        (ep.nextHopList = nhl ∨
          ∃ hops, paths.find v = some ⟨cost, hops⟩ ∧
            ep.nextHopList = appendUnique hops nhl) := by
  by_cases hEq : t = v
  · subst hEq
    rcases @find_insertNextHopList_self
      paths t cost nhl with
      ⟨hSelf, _⟩ | ⟨ep', hOld, _, hSelf⟩ |
        ⟨hops, hOld, hSelf⟩
    · rw [hSelf] at hFind
      cases hFind
      exact Or.inr ⟨rfl, rfl, Or.inl rfl⟩
    · rw [hSelf] at hFind
      exact Or.inl (hOld.trans hFind)
    · rw [hSelf] at hFind
      cases hFind
      exact Or.inr ⟨rfl, rfl, Or.inr ⟨hops, hOld, rfl⟩⟩
  · rw [find_insertNextHopList_ne hEq] at hFind
    exact Or.inl hFind

/- An insertion loses nothing that was covered. -/
theorem covers_insertNextHopList
    (hCovers : paths.label.Covers t c h) :
    (insertNextHopList paths v cost nhl).label.Covers
      t c h := by
  by_cases hEq : t = v
  · subst hEq
    rcases hCovers with ⟨c₁, hops, hLabel, hBound⟩
    have hFind := label_eq_some.mp hLabel
    rcases @find_insertNextHopList_self
      paths t cost nhl with
      ⟨hSelf, hLess⟩ | ⟨ep', hOld, _, hSelf⟩ |
        ⟨hops', hOld, hSelf⟩
    · have hCost : cost < c₁ := hLess _ hFind
      refine ⟨cost, nhl, label_eq_some.mpr hSelf, Or.inl ?_⟩
      rcases hBound with hLt | ⟨hEq, _⟩
      · exact hCost.trans hLt
      · exact hEq ▸ hCost
    · rw [hFind] at hOld
      cases hOld
      exact ⟨c₁, hops, label_eq_some.mpr hSelf, hBound⟩
    · rw [hFind] at hOld
      cases hOld
      refine ⟨cost, _, label_eq_some.mpr hSelf, ?_⟩
      rcases hBound with hLt | ⟨hEq, hMem⟩
      · exact Or.inl hLt
      · exact Or.inr
          ⟨hEq, mem_appendUnique.mpr (Or.inl hMem)⟩
  · rcases hCovers with ⟨c₁, hops, hLabel, hBound⟩
    refine ⟨c₁, hops, ?_, hBound⟩
    apply label_eq_some.mpr
    rw [find_insertNextHopList_ne hEq]
    exact label_eq_some.mp hLabel

theorem covers_inserted
    (hMem : h ∈ nhl) :
    (insertNextHopList paths v cost nhl).label.Covers
      v cost h := by
  rcases @find_insertNextHopList_self
    paths v cost nhl with
    ⟨hSelf, _⟩ | ⟨ep, _, hLess, hSelf⟩ | ⟨hops, _, hSelf⟩
  · exact ⟨cost, nhl, label_eq_some.mpr hSelf,
      Or.inr ⟨rfl, hMem⟩⟩
  · exact ⟨ep.cost, ep.nextHopList,
      label_eq_some.mpr hSelf, Or.inl hLess⟩
  · exact ⟨cost, _, label_eq_some.mpr hSelf,
      Or.inr ⟨rfl, mem_appendUnique.mpr (Or.inr hMem)⟩⟩

end LsPaths

end Ns2

------------------------------------------------------------
-- Tables
------------------------------------------------------------

namespace Ns2

open ShortestPaths

namespace LsRouting

/- The hops of an entry are first ones of walks, each once. -/
structure HopsOf
    (db : LsTopoMap)
    (s t : Int)
    (ep : LsEqualPaths) : Prop where
  nonempty : ep.nextHopList ≠ []
  nodup : ep.nextHopList.Nodup
  first :
    ∀ h ∈ ep.nextHopList,
      h ≠ s ∧ FirstHop db.edge s t ep.cost h

def Routes.Final
    (r : Routes)
    (t : Int) : Prop :=
  r.paths.find t ≠ none

/- The two tables, without what they say of the links. -/
structure Routes.Table
    (r : Routes)
    (db : LsTopoMap)
    (s : Int) : Prop where
  source : r.paths.find s = some ⟨0, [s]⟩
  fresh : r.tentativePaths.find s = none
  pathHops :
    ∀ t ep, r.paths.find t = some ep → t ≠ s →
      HopsOf db s t ep
  tentativeHops :
    ∀ t ep, r.tentativePaths.find t = some ep →
      HopsOf db s t ep
  pathSimple :
    ∀ t ep, r.paths.find t = some ep →
      SimpleWithin db.edge s r.Final t ep.cost
  tentativeSimple :
    ∀ t ep, r.tentativePaths.find t = some ep →
      ¬ r.Final t → SimpleWithin db.edge s r.Final t ep.cost
  both :
    ∀ t ep ep', r.paths.find t = some ep →
      r.tentativePaths.find t = some ep' →
      ep'.cost = ep.cost ∧
        ∀ h ∈ ep'.nextHopList, h ∉ ep.nextHopList
  below :
    ∀ u ep t ep', r.paths.find u = some ep →
      r.tentativePaths.find t = some ep' →
      ep.cost ≤ ep'.cost

/- A final node that costs no less than any other. -/
structure Routes.Newest
    (r : Routes)
    (u : Int)
    (ep : LsEqualPaths) : Prop where
  found : r.paths.find u = some ep
  peak :
    ∀ x epx, r.paths.find x = some epx → epx.cost ≤ ep.cost

def Routes.Covered
    (r : Routes)
    (t c h : Int) : Prop :=
  r.paths.label.Covers t c h ∨
    r.tentativePaths.label.Covers t c h

/- All links of final nodes are covered but some of `u`'s. -/
def Routes.CoveredBut
    (r : Routes)
    (db : LsTopoMap)
    (s u : Int)
    (waived : LsLinkState → Prop) : Prop :=
  ∀ x links l ep, db.find x = some links → l ∈ links →
    l.status = .LS_STATUS_UP → (x = u → ¬ waived l) →
    r.paths.find x = some ep → ∀ h ∈ ep.nextHopList,
      r.Covered l.neighborId (ep.cost + l.cost)
        (viaHop s x l.neighborId h)

variable {db : LsTopoMap}
variable {s u v w : Int} {r : Routes} {ep : LsEqualPaths}

theorem HopsOf.appendUnique
    {c : Int}
    {hops nhl : List Int}
    (hOld : HopsOf db s v ⟨c, hops⟩)
    (hNew : HopsOf db s v ⟨c, nhl⟩) :
    HopsOf db s v ⟨c, Ns2.appendUnique hops nhl⟩ := by
  constructor
  case nonempty =>
    rcases List.exists_mem_of_ne_nil _ hOld.nonempty with
      ⟨h, hh⟩
    exact List.ne_nil_of_mem
      (mem_appendUnique.mpr (Or.inl hh))
  case nodup => exact nodup_appendUnique hOld.nodup
  case first =>
    intro h hh
    rcases mem_appendUnique.mp hh with hh | hh
    · exact hOld.first h hh
    · exact hNew.first h hh

/- A cheapest entry yet for a node that is not final. -/
theorem Routes.Table.insert
    {nhl : List Int}
    (hTable : r.Table db s)
    (hNewest : r.Newest u ep)
    (hEdge : db.edge u v w)
    (hNew : r.paths.find v = none)
    (hHops : HopsOf db s v ⟨ep.cost + w, nhl⟩)
    (hPos : 0 < w) :
    Routes.Table
      { r with
        tentativePaths :=
          r.tentativePaths.insertNextHopList v
            (ep.cost + w) nhl } db s := by
  have hu : r.Final u := by
    unfold Routes.Final
    rw [hNewest.found]
    exact Option.some_ne_none ep
  have hs : r.Final s := by
    unfold Routes.Final
    rw [hTable.source]
    exact Option.some_ne_none _
  constructor
  case source => exact hTable.source
  case fresh =>
    have hNe : s ≠ v := by
      rintro rfl
      exact hs hNew
    exact (LsPaths.find_insertNextHopList_ne hNe).trans
      hTable.fresh
  case pathHops => exact hTable.pathHops
  case tentativeHops =>
    intro t ep' hFind
    rcases LsPaths.of_find_insertNextHopList hFind with
      hOld | ⟨rfl, hCost, hList⟩
    · exact hTable.tentativeHops t ep' hOld
    · rcases ep' with ⟨c', hops'⟩
      cases hCost
      rcases hList with hList | ⟨hops, hOld, hList⟩
      · cases hList
        exact hHops
      · cases hList
        exact (hTable.tentativeHops t _ hOld).appendUnique
          hHops
  case pathSimple => exact hTable.pathSimple
  case tentativeSimple =>
    intro t ep' hFind hNotFinal
    rcases LsPaths.of_find_insertNextHopList hFind with
      hOld | ⟨rfl, hCost, _⟩
    · exact hTable.tentativeSimple t ep' hOld hNotFinal
    · rw [hCost]
      exact (hTable.pathSimple u ep hNewest.found).snoc
        hs hu (fun h => h hNew) hEdge
  case both =>
    intro t ep₁ ep' hPath hFind
    rcases LsPaths.of_find_insertNextHopList hFind with
      hOld | ⟨rfl, _⟩
    · exact hTable.both t ep₁ ep' hPath hOld
    · have hPath' : r.paths.find t = some ep₁ := hPath
      rw [hNew] at hPath'
      cases hPath'
  case below =>
    intro x ep₁ t ep' hPath hFind
    rcases LsPaths.of_find_insertNextHopList hFind with
      hOld | ⟨rfl, hCost, _⟩
    · exact hTable.below x ep₁ t ep' hPath hOld
    · have hPeak := hNewest.peak x ep₁ hPath
      omega

end LsRouting

end Ns2
