import Ns2.Linkstate.Invariant
import Mathlib.Data.Finset.Prod

/-
  The route computation is exact.

  It ends with a path to every node that can be reached over
  links that are up, of least cost, by all the first hops of
  the cheapest paths.

  Main declarations:
    * `LsRouting.relaxLinks_visited`
    * `LsRouting.popRound_step`
    * `LsRouting.compute_routes_exact`
-/

------------------------------------------------------------
-- Links of a new node
------------------------------------------------------------

namespace Ns2

open ShortestPaths

namespace LsRouting

variable {db : LsTopoMap}
variable {s u : Int} {r : Routes} {ep : LsEqualPaths}
variable {nhl : List Int} {l : LsLinkState}

/- The next hops by a link of the node just put in. -/
def hopsVia
    (s u v : Int)
    (nhl : List Int) : List Int :=
  if u = s then [v] else nhl

theorem lookupCost_of_find
    (hFind : r.paths.find u = some ep) :
    r.paths.lookupCost u = ep.cost := by
  unfold LsPaths.lookupCost
  rw [hFind]

/- A link is down, or leads nowhere better, or is taken. -/
theorem relaxLink_cases
    (hDb : db.Proper s)
    (hTable : r.Table db s)
    (hNewest : r.Newest u ep)
    (hLink : l.status = .LS_STATUS_UP →
      db.edge u l.neighborId l.cost) :
    (relaxLink s u nhl r.paths r.tentativePaths l =
        r.tentativePaths ∧
      (l.status = .LS_STATUS_UP →
        ∃ epv, r.paths.find l.neighborId = some epv ∧
          epv.cost < ep.cost + l.cost)) ∨
    (l.status = .LS_STATUS_UP ∧
      r.paths.find l.neighborId = none ∧
      relaxLink s u nhl r.paths r.tentativePaths l =
        r.tentativePaths.insertNextHopList l.neighborId
          (ep.cost + l.cost)
          (hopsVia s u l.neighborId nhl)) := by
  unfold relaxLink
  by_cases hUp : l.status = .LS_STATUS_UP
  · rw [if_neg (not_not.mpr hUp)]
    have hEdge := hLink hUp
    have hSimple := hTable.pathSimple u ep hNewest.found
    have hCost :
        addInt l.cost (r.paths.lookupCost u) =
          ep.cost + l.cost := by
      rw [lookupCost_of_find hNewest.found]
      exact hDb.addInt_eq hEdge hSimple
    have hPos := hDb.cost u _ _ hEdge
    simp only [hCost]
    cases hFind : r.paths.find l.neighborId with
    | some epv =>
        left
        have hPeak := hNewest.peak l.neighborId epv hFind
        have hLess : epv.cost < ep.cost + l.cost := by
          omega
        rw [lookupCost_of_find hFind, if_pos hLess]
        exact ⟨rfl, fun _ => ⟨epv, rfl, hLess⟩⟩
    | none =>
        right
        have hs : r.Final s := by
          unfold Routes.Final
          rw [hTable.source]
          exact Option.some_ne_none _
        have hu : r.Final u := by
          unfold Routes.Final
          rw [hNewest.found]
          exact Option.some_ne_none ep
        have hBound :=
          hDb.le_of_simple
            (hSimple.snoc hs hu (fun h => h hFind) hEdge)
        have hLookup :
            r.paths.lookupCost l.neighborId =
              LS_MAX_COST + 1 := by
          unfold LsPaths.lookupCost
          rw [hFind]
        rw [hLookup, if_neg (by omega)]
        refine ⟨hUp, rfl, ?_⟩
        unfold hopsVia
        split_ifs
        · rfl
        · rfl
  · rw [if_pos hUp]
    exact Or.inl ⟨rfl, fun h => absurd h hUp⟩

/- The entry that a link of the new node puts in. -/
theorem HopsOf.via
    {v w : Int}
    (hTable : r.Table db s)
    (hNewest : r.Newest u ep)
    (hNhl : u ≠ s → nhl = ep.nextHopList)
    (hEdge : db.edge u v w)
    (hNew : r.paths.find v = none) :
    HopsOf db s v ⟨ep.cost + w, hopsVia s u v nhl⟩ := by
  have hNe : v ≠ s := by
    rintro rfl
    rw [hTable.source] at hNew
    cases hNew
  by_cases hu : u = s
  · subst hu
    have hEp := hNewest.found.symm.trans hTable.source
    cases hEp
    unfold hopsVia
    rw [if_pos rfl, zero_add]
    refine ⟨List.cons_ne_nil _ _, List.nodup_singleton v, ?_⟩
    intro h hh
    cases List.mem_singleton.mp hh
    exact ⟨hNe, FirstHop.single hEdge⟩
  · have hOld := hTable.pathHops u ep hNewest.found hu
    unfold hopsVia
    rw [if_neg hu, hNhl hu]
    refine ⟨hOld.nonempty, hOld.nodup, ?_⟩
    intro h hh
    exact ⟨(hOld.first h hh).1,
      (hOld.first h hh).2.snoc hEdge⟩

/- The state while the links in `rest` are still to come. -/
structure Routes.Visiting
    (r : Routes)
    (db : LsTopoMap)
    (s u : Int)
    (ep : LsEqualPaths)
    (rest : List LsLinkState) : Prop where
  table : r.Table db s
  newest : r.Newest u ep
  covered : r.CoveredBut db s u fun l => l ∈ rest

theorem Routes.Covered.insert
    {v t c h cost : Int}
    (hCovered : r.Covered t c h) :
    Routes.Covered
      { r with
        tentativePaths :=
          r.tentativePaths.insertNextHopList v cost nhl }
      t c h := by
  rcases hCovered with hPath | hTentative
  · exact Or.inl hPath
  · exact Or.inr
      (LsPaths.covers_insertNextHopList hTentative)

/- A link that is looked at is covered from then on. -/
theorem relaxLink_visiting
    {rest : List LsLinkState}
    (hDb : db.Proper s)
    (hVisiting : r.Visiting db s u ep (l :: rest))
    (hLink : l.status = .LS_STATUS_UP →
      db.edge u l.neighborId l.cost)
    (hNhl : u ≠ s → nhl = ep.nextHopList) :
    Routes.Visiting
      { r with
        tentativePaths :=
          relaxLink s u nhl r.paths r.tentativePaths l }
      db s u ep rest := by
  have hTable := hVisiting.table
  have hNewest := hVisiting.newest
  rcases @relaxLink_cases db s u r ep nhl l hDb hTable
    hNewest hLink with ⟨hSame, hBetter⟩ | ⟨hUp, hNew, hInsert⟩
  · rw [hSame]
    refine ⟨hTable, hNewest, ?_⟩
    intro x links l' ep' hFind hMem hUp' hWaived hPath h hh
    by_cases hl : x = u ∧ l' = l
    · rcases hl with ⟨rfl, rfl⟩
      rcases hBetter hUp' with ⟨epv, hv, hLess⟩
      have hEp := hPath.symm.trans hNewest.found
      cases hEp
      exact Or.inl ⟨epv.cost, epv.nextHopList,
        LsPaths.label_eq_some.mpr hv, Or.inl hLess⟩
    · apply hVisiting.covered x links l' ep' hFind hMem hUp'
        ?_ hPath h hh
      intro hx hRest
      rcases List.mem_cons.mp hRest with hEq | hRest
      · exact hl ⟨hx, hEq⟩
      · exact hWaived hx hRest
  · rw [hInsert]
    have hEdge := hLink hUp
    have hHops := HopsOf.via hTable hNewest hNhl hEdge hNew
    refine ⟨?_, ⟨hNewest.found, hNewest.peak⟩, ?_⟩
    · exact hTable.insert hNewest hEdge hNew hHops
        (hDb.pos u _ _ hEdge)
    · intro x links l' ep' hFind hMem hUp' hWaived hPath h hh
      by_cases hl : x = u ∧ l' = l
      · rcases hl with ⟨rfl, rfl⟩
        have hEp := hPath.symm.trans hNewest.found
        cases hEp
        apply Or.inr
        apply LsPaths.covers_inserted
        unfold viaHop hopsVia
        split_ifs with hx
        · exact List.mem_cons_self
        · rw [hNhl hx]
          exact hh
      · apply Routes.Covered.insert
        apply hVisiting.covered x links l' ep' hFind hMem hUp'
          ?_ hPath h hh
        intro hx hRest
        rcases List.mem_cons.mp hRest with hEq | hRest
        · exact hl ⟨hx, hEq⟩
        · exact hWaived hx hRest

theorem relaxLinks_visiting
    {links : List LsLinkState}
    (hDb : db.Proper s)
    (hVisiting : r.Visiting db s u ep links)
    (hLinks : ∀ l ∈ links, l.status = .LS_STATUS_UP →
      db.edge u l.neighborId l.cost)
    (hNhl : u ≠ s → nhl = ep.nextHopList) :
    (relaxLinks s u nhl r links).Visiting db s u ep [] := by
  induction links generalizing r with
  | nil => exact hVisiting
  | cons l links ih =>
      have hStep := relaxLink_visiting hDb hVisiting
        (hLinks l List.mem_cons_self) hNhl
      exact ih hStep fun l' hl' =>
        hLinks l' (List.mem_cons_of_mem l hl')

/- Between the rounds no link is waived. -/
structure Routes.Settled
    (r : Routes)
    (db : LsTopoMap)
    (s : Int) : Prop where
  table : r.Table db s
  covered : r.CoveredBut db s s fun _ => False

theorem Routes.Visiting.settled
    (hVisiting : r.Visiting db s u ep []) :
    r.Settled db s := by
  refine ⟨hVisiting.table, ?_⟩
  intro x links l ep' hFind hMem hUp _ hPath h hh
  exact hVisiting.covered x links l ep' hFind hMem hUp
    (fun _ h => nomatch h) hPath h hh

/- Step 2 never fails, and leaves the final paths alone. -/
theorem visit_settled
    {links : List LsLinkState}
    (hDb : db.Proper s)
    (hVisiting : r.Visiting db s u ep links)
    (hFind : db.find u = some links) :
    ∃ r', visit s u r links = some r' ∧
      r'.paths = r.paths ∧ r'.Settled db s := by
  have hLinks : ∀ l ∈ links, l.status = .LS_STATUS_UP →
      db.edge u l.neighborId l.cost := by
    intro l hl hUp
    exact ⟨links, hFind, l, hl, hUp, rfl, rfl⟩
  unfold visit
  by_cases hu : u = s
  · rw [if_pos hu]
    refine ⟨_, rfl, rfl, ?_⟩
    exact (relaxLinks_visiting hDb hVisiting hLinks
      fun hNe => absurd hu hNe).settled
  · rw [if_neg hu]
    have hLookup :
        r.paths.lookupNextHopList u =
          some ep.nextHopList := by
      unfold LsPaths.lookupNextHopList
      rw [hVisiting.newest.found]
      rfl
    simp only [hLookup]
    refine ⟨_, rfl, rfl, ?_⟩
    exact (relaxLinks_visiting hDb hVisiting hLinks
      fun _ => rfl).settled

end LsRouting

end Ns2

------------------------------------------------------------
-- Installing a path
------------------------------------------------------------

namespace Ns2

open ShortestPaths

namespace LsRouting

variable {db : LsTopoMap}
variable {s t c h : Int} {r r' : Routes}
variable {old rest : List Int}

/- A cheapest tentative hop that has become a final one. -/
structure Routes.Installs
    (r r' : Routes)
    (t c h : Int)
    (old rest : List Int) : Prop where
  pathBefore :
    r.paths.find t = none ∧ old = [] ∨
      r.paths.find t = some ⟨c, old⟩
  pathAfter : r'.paths.find t = some ⟨c, old ++ [h]⟩
  pathOthers :
    ∀ x, x ≠ t → r'.paths.find x = r.paths.find x
  tentativeBefore :
    r.tentativePaths.find t = some ⟨c, h :: rest⟩
  tentativeAfter :
    r'.tentativePaths.find t =
      if rest = [] then none else some ⟨c, rest⟩
  tentativeOthers :
    ∀ x, x ≠ t →
      r'.tentativePaths.find x = r.tentativePaths.find x
  least :
    ∀ x ep, r.tentativePaths.find x = some ep → c ≤ ep.cost

theorem Routes.Table.installs
    {sp : LsPath}
    {tentativePaths : LsPaths}
    (hTable : r.Table db s)
    (hPopped : r.tentativePaths.Popped sp rest
      tentativePaths) :
    ∃ old, r.Installs ⟨r.paths.insertPath sp, tentativePaths⟩
      sp.destination sp.cost sp.nextHop old rest := by
  have hBefore := hPopped.before
  cases hFind : r.paths.find sp.destination with
  | none =>
      refine ⟨[], Or.inl ⟨hFind, rfl⟩, ?_, ?_, hBefore,
        hPopped.after, hPopped.others, hPopped.least⟩
      · exact LsPaths.find_insertPath_new hFind
      · intro x hx
        exact LsPaths.find_insertPath_ne hx
  | some ep =>
      have hBoth := hTable.both _ ep _ hFind hBefore
      rcases ep with ⟨c', old⟩
      have hCost : sp.cost = c' := hBoth.1
      subst hCost
      refine ⟨old, Or.inr hFind, ?_, ?_, hBefore,
        hPopped.after, hPopped.others, hPopped.least⟩
      · exact LsPaths.find_insertPath_equal hFind
          (hBoth.2 sp.nextHop List.mem_cons_self)
      · intro x hx
        exact LsPaths.find_insertPath_ne hx

variable (hInstalls : r.Installs r' t c h old rest)

include hInstalls

/- A final entry is an old one, or the one installed. -/
theorem Routes.Installs.path_cases
    {x : Int}
    {ep : LsEqualPaths}
    (hFind : r'.paths.find x = some ep) :
    x ≠ t ∧ r.paths.find x = some ep ∨
      x = t ∧ ep = ⟨c, old ++ [h]⟩ := by
  by_cases hx : x = t
  · subst hx
    rw [hInstalls.pathAfter] at hFind
    cases hFind
    exact Or.inr ⟨rfl, rfl⟩
  · rw [hInstalls.pathOthers x hx] at hFind
    exact Or.inl ⟨hx, hFind⟩

theorem Routes.Installs.tentative_cases
    {x : Int}
    {ep : LsEqualPaths}
    (hFind : r'.tentativePaths.find x = some ep) :
    x ≠ t ∧ r.tentativePaths.find x = some ep ∨
      x = t ∧ rest ≠ [] ∧ ep = ⟨c, rest⟩ := by
  by_cases hx : x = t
  · subst hx
    rw [hInstalls.tentativeAfter] at hFind
    split_ifs at hFind with hNil
    cases hFind
    exact Or.inr ⟨rfl, hNil, rfl⟩
  · rw [hInstalls.tentativeOthers x hx] at hFind
    exact Or.inl ⟨hx, hFind⟩

theorem Routes.Installs.final
    {x : Int}
    (hFinal : r.Final x) :
    r'.Final x := by
  unfold Routes.Final at hFinal ⊢
  by_cases hx : x = t
  · subst hx
    rw [hInstalls.pathAfter]
    exact Option.some_ne_none _
  · rw [hInstalls.pathOthers x hx]
    exact hFinal

theorem Routes.Installs.simple
    (hTable : r.Table db s) :
    SimpleWithin db.edge s r.Final t c := by
  rcases hInstalls.pathBefore with ⟨hNone, _⟩ | hSome
  · exact hTable.tentativeSimple t _
      hInstalls.tentativeBefore fun hFinal => hFinal hNone
  · exact hTable.pathSimple t _ hSome

theorem Routes.Installs.hop_not_mem
    (hTable : r.Table db s) :
    ∀ h' ∈ h :: rest, h' ∉ old := by
  intro h' hh'
  rcases hInstalls.pathBefore with ⟨_, rfl⟩ | hSome
  · exact List.not_mem_nil
  · exact (hTable.both t _ _ hSome
      hInstalls.tentativeBefore).2 h' hh'

theorem Routes.Installs.ne_source
    (hTable : r.Table db s) :
    t ≠ s := by
  rintro rfl
  have hBefore := hInstalls.tentativeBefore
  rw [hTable.fresh] at hBefore
  cases hBefore

theorem Routes.Installs.hopsOf
    (hTable : r.Table db s) :
    HopsOf db s t ⟨c, old ++ [h]⟩ := by
  have hNew := hTable.tentativeHops t _
    hInstalls.tentativeBefore
  have hOld : old.Nodup ∧ ∀ h' ∈ old,
      h' ≠ s ∧ FirstHop db.edge s t c h' := by
    rcases hInstalls.pathBefore with ⟨_, rfl⟩ | hSome
    · exact ⟨List.nodup_nil, fun h' hh' => nomatch hh'⟩
    · have hOld := hTable.pathHops t _ hSome
        (hInstalls.ne_source hTable)
      exact ⟨hOld.nodup, hOld.first⟩
  constructor
  case nonempty => exact List.concat_ne_nil h old
  case nodup =>
    apply List.nodup_append.mpr
    refine ⟨hOld.1, List.nodup_singleton h, ?_⟩
    intro x hx y hy hEq
    cases List.mem_singleton.mp hy
    exact hInstalls.hop_not_mem hTable h
      List.mem_cons_self (hEq ▸ hx)
  case first =>
    intro h' hh'
    rcases List.mem_append.mp hh' with hh' | hh'
    · exact hOld.2 h' hh'
    · cases List.mem_singleton.mp hh'
      exact hNew.first h List.mem_cons_self

theorem Routes.Installs.table
    (hTable : r.Table db s) :
    r'.Table db s := by
  have hNe := hInstalls.ne_source hTable
  have hTentative := hTable.tentativeHops t _
    hInstalls.tentativeBefore
  have hRest := List.nodup_cons.mp hTentative.nodup
  constructor
  case source =>
    rw [hInstalls.pathOthers s hNe.symm]
    exact hTable.source
  case fresh =>
    rw [hInstalls.tentativeOthers s hNe.symm]
    exact hTable.fresh
  case pathHops =>
    intro x ep hFind hx
    rcases hInstalls.path_cases hFind with
      ⟨_, hOld⟩ | ⟨rfl, rfl⟩
    · exact hTable.pathHops x ep hOld hx
    · exact hInstalls.hopsOf hTable
  case tentativeHops =>
    intro x ep hFind
    rcases hInstalls.tentative_cases hFind with
      ⟨_, hOld⟩ | ⟨rfl, hNil, rfl⟩
    · exact hTable.tentativeHops x ep hOld
    · exact ⟨hNil, hRest.2, fun h' hh' =>
        hTentative.first h' (List.mem_cons_of_mem h hh')⟩
  case pathSimple =>
    intro x ep hFind
    rcases hInstalls.path_cases hFind with
      ⟨_, hOld⟩ | ⟨rfl, rfl⟩
    · exact (hTable.pathSimple x ep hOld).mono
        fun y => hInstalls.final
    · exact (hInstalls.simple hTable).mono
        fun y => hInstalls.final
  case tentativeSimple =>
    intro x ep hFind hNotFinal
    rcases hInstalls.tentative_cases hFind with
      ⟨_, hOld⟩ | ⟨rfl, _, rfl⟩
    · exact (hTable.tentativeSimple x ep hOld
        fun h => hNotFinal (hInstalls.final h)).mono
          fun y => hInstalls.final
    · exact (hInstalls.simple hTable).mono
        fun y => hInstalls.final
  case both =>
    intro x ep ep' hPath hFind
    rcases hInstalls.tentative_cases hFind with
      ⟨hx, hOld⟩ | ⟨rfl, _, rfl⟩
    · rw [hInstalls.pathOthers x hx] at hPath
      exact hTable.both x ep ep' hPath hOld
    · rw [hInstalls.pathAfter] at hPath
      cases hPath
      refine ⟨rfl, ?_⟩
      intro h' hh' hMem
      rcases List.mem_append.mp hMem with hMem | hMem
      · exact hInstalls.hop_not_mem hTable h'
          (List.mem_cons_of_mem h hh') hMem
      · cases List.mem_singleton.mp hMem
        exact hRest.1 hh'
  case below =>
    intro x ep y ep' hPath hFind
    have hOldTentative : ∃ ep₀,
        r.tentativePaths.find y = some ep₀ ∧
          ep₀.cost = ep'.cost := by
      rcases hInstalls.tentative_cases hFind with
        ⟨_, hOld⟩ | ⟨rfl, _, rfl⟩
      · exact ⟨ep', hOld, rfl⟩
      · exact ⟨_, hInstalls.tentativeBefore, rfl⟩
    rcases hOldTentative with ⟨ep₀, hOld, hCost⟩
    rw [← hCost]
    rcases hInstalls.path_cases hPath with
      ⟨_, hOldPath⟩ | ⟨rfl, rfl⟩
    · exact hTable.below x ep y ep₀ hOldPath hOld
    · exact hInstalls.least y ep₀ hOld

theorem Routes.Installs.newest
    (hTable : r.Table db s) :
    r'.Newest t ⟨c, old ++ [h]⟩ := by
  refine ⟨hInstalls.pathAfter, ?_⟩
  intro x ep hFind
  rcases hInstalls.path_cases hFind with
    ⟨_, hOld⟩ | ⟨rfl, rfl⟩
  · exact hTable.below x ep t ⟨c, h :: rest⟩ hOld
      hInstalls.tentativeBefore
  · exact le_rfl

/- Moving a hop from one table to the other loses nothing. -/
theorem Routes.Installs.covered
    {x c' h' : Int}
    (hCovered : r.Covered x c' h') :
    r'.Covered x c' h' := by
  by_cases hx : x = t
  · subst hx
    have hAfter :
        (c < c' ∨ c = c' ∧ h' ∈ old ++ [h]) →
          r'.Covered x c' h' := by
      intro hBound
      exact Or.inl ⟨c, old ++ [h],
        LsPaths.label_eq_some.mpr hInstalls.pathAfter, hBound⟩
    rcases hCovered with
      ⟨c₁, hops, hLabel, hBound⟩ | ⟨c₁, hops, hLabel, hBound⟩
    · have hFind := LsPaths.label_eq_some.mp hLabel
      rcases hInstalls.pathBefore with ⟨hNone, _⟩ | hSome
      · rw [hNone] at hFind
        cases hFind
      · rw [hSome] at hFind
        cases hFind
        apply hAfter
        rcases hBound with hLess | ⟨hEq, hMem⟩
        · exact Or.inl hLess
        · exact Or.inr ⟨hEq, List.mem_append_left _ hMem⟩
    · have hFind := LsPaths.label_eq_some.mp hLabel
      rw [hInstalls.tentativeBefore] at hFind
      cases hFind
      rcases hBound with hLess | ⟨hEq, hMem⟩
      · exact hAfter (Or.inl hLess)
      · rcases List.mem_cons.mp hMem with rfl | hMem
        · exact hAfter (Or.inr ⟨hEq,
            List.mem_append_right _ List.mem_cons_self⟩)
        · have hRest := hInstalls.tentativeAfter
          rw [if_neg (List.ne_nil_of_mem hMem)] at hRest
          exact Or.inr ⟨c, rest,
            LsPaths.label_eq_some.mpr hRest,
            Or.inr ⟨hEq, hMem⟩⟩
  · rcases hCovered with
      ⟨c₁, hops, hLabel, hBound⟩ | ⟨c₁, hops, hLabel, hBound⟩
    · refine Or.inl ⟨c₁, hops, ?_, hBound⟩
      apply LsPaths.label_eq_some.mpr
      rw [hInstalls.pathOthers x hx]
      exact LsPaths.label_eq_some.mp hLabel
    · refine Or.inr ⟨c₁, hops, ?_, hBound⟩
      apply LsPaths.label_eq_some.mpr
      rw [hInstalls.tentativeOthers x hx]
      exact LsPaths.label_eq_some.mp hLabel

/- After a path is installed only its node is not covered. -/
theorem Routes.Installs.coveredBut
    (hSettled : r.Settled db s) :
    r'.CoveredBut db s t fun _ => True := by
  intro x links l ep hFind hMem hUp hWaived hPath h' hh'
  rcases hInstalls.path_cases hPath with ⟨_, hOld⟩ | ⟨hx, _⟩
  · apply hInstalls.covered
    exact hSettled.covered x links l ep hFind hMem hUp
      (fun _ h => h) hOld h' hh'
  · exact absurd trivial (hWaived hx)

theorem Routes.Installs.settled
    (hSettled : r.Settled db s)
    (hFind : db.find t = none) :
    r'.Settled db s := by
  refine ⟨hInstalls.table hSettled.table, ?_⟩
  intro x links l ep hLinks hMem hUp _ hPath h' hh'
  apply hInstalls.coveredBut hSettled x links l ep hLinks
    hMem hUp ?_ hPath h' hh'
  rintro rfl
  rw [hFind] at hLinks
  cases hLinks

theorem Routes.Installs.visiting
    {links : List LsLinkState}
    (hSettled : r.Settled db s)
    (hFind : db.find t = some links) :
    r'.Visiting db s t ⟨c, old ++ [h]⟩ links := by
  refine ⟨hInstalls.table hSettled.table,
    hInstalls.newest hSettled.table, ?_⟩
  intro x links' l ep hLinks hMem hUp hWaived
  apply hInstalls.coveredBut hSettled x links' l ep hLinks
    hMem hUp
  intro hx _
  subst hx
  rw [hFind] at hLinks
  cases hLinks
  exact hWaived rfl hMem

end LsRouting

end Ns2

------------------------------------------------------------
-- Rounds
------------------------------------------------------------

namespace Ns2

open ShortestPaths

/- The nodes that can be on a path from `s`. -/
def LsTopoMap.ids
    (db : LsTopoMap)
    (s : Int) : Finset Int :=
  insert s
    ((db.entries.flatMap fun e => e.2).map
      LsLinkState.neighborId).toFinset

theorem LsTopoMap.mem_ids
    {db : LsTopoMap}
    {s t : Int}
    (hReachable : Reachable db.edge s t) :
    t ∈ db.ids s := by
  rcases hReachable with ⟨p, c, hWalk⟩
  cases hWalk with
  | nil => exact Finset.mem_insert_self s _
  | snoc hBefore hEdge =>
      rcases hEdge with ⟨links, hFind, l, hl, _, rfl, _⟩
      apply Finset.mem_insert_of_mem
      rw [List.mem_toFinset]
      apply List.mem_map_of_mem
      exact List.mem_flatMap.mpr
        ⟨_, db.mem_entries_iff.mpr hFind, hl⟩

def LsPaths.hops
    (paths : LsPaths)
    (t : Int) : List Int :=
  match paths.find t with
  | none => []
  | some ep => ep.nextHopList

namespace LsRouting

/- The hops that are not yet installed. -/
def pending
    (ids : Finset Int)
    (paths : LsPaths) : Finset (Int × Int) :=
  (ids ×ˢ ids).filter fun e => e.2 ∉ paths.hops e.1

variable {db : LsTopoMap}
variable {s t c h : Int} {r r' : Routes}
variable {old rest : List Int}

theorem Routes.Installs.pending_lt
    (hInstalls : r.Installs r' t c h old rest)
    (hTable : r.Table db s) :
    (pending (db.ids s) r'.paths).card <
      (pending (db.ids s) r.paths).card := by
  have hOldHops : r.paths.hops t = old := by
    unfold LsPaths.hops
    rcases hInstalls.pathBefore with ⟨hNone, rfl⟩ | hSome
    · rw [hNone]
    · rw [hSome]
  have hNewHops : r'.paths.hops t = old ++ [h] := by
    unfold LsPaths.hops
    rw [hInstalls.pathAfter]
  have hFirst := (hTable.tentativeHops t _
    hInstalls.tentativeBefore).first h List.mem_cons_self
  have ht : t ∈ db.ids s := by
    rcases hFirst.2 with ⟨p, hWalk⟩
    exact LsTopoMap.mem_ids ⟨_, _, hWalk⟩
  have hh : h ∈ db.ids s :=
    LsTopoMap.mem_ids hFirst.2.reachable
  apply Finset.card_lt_card
  apply Finset.ssubset_iff_subset_ne.mpr
  constructor
  · intro e he
    rcases Finset.mem_filter.mp he with ⟨hIds, hNot⟩
    refine Finset.mem_filter.mpr ⟨hIds, ?_⟩
    by_cases hx : e.1 = t
    · rw [hx, hNewHops] at hNot
      rw [hx, hOldHops]
      exact fun hMem => hNot (List.mem_append_left _ hMem)
    · unfold LsPaths.hops at hNot ⊢
      rw [← hInstalls.pathOthers e.1 hx]
      exact hNot
  · intro hEq
    have hPending : (t, h) ∈ pending (db.ids s) r.paths := by
      refine Finset.mem_filter.mpr
        ⟨Finset.mem_product.mpr ⟨ht, hh⟩, ?_⟩
      rw [hOldHops]
      exact hInstalls.hop_not_mem hTable h List.mem_cons_self
    rw [← hEq] at hPending
    have hNot := (Finset.mem_filter.mp hPending).2
    rw [hNewHops] at hNot
    exact hNot (List.mem_append_right _ List.mem_cons_self)

theorem Routes.Table.tentative_fine
    (hDb : db.Proper s)
    (hTable : r.Table db s) :
    ∀ t ep, r.tentativePaths.find t = some ep →
      ep.nextHopList ≠ [] ∧ ep.cost ≤ LS_MAX_COST := by
  intro t ep hFind
  refine ⟨(hTable.tentativeHops t ep hFind).nonempty, ?_⟩
  cases hPath : r.paths.find t with
  | none =>
      apply hDb.le_of_simple
      exact hTable.tentativeSimple t ep hFind
        fun hFinal => hFinal hPath
  | some ep' =>
      rw [(hTable.both t ep' ep hPath hFind).1]
      exact hDb.le_of_simple (hTable.pathSimple t ep' hPath)

/- A popped path passes its check. -/
theorem Routes.Table.popped_valid
    {sp : LsPath}
    {tentativePaths : LsPaths}
    (hDb : db.Proper s)
    (hTable : r.Table db s)
    (hPopped : r.tentativePaths.Popped sp rest
      tentativePaths) :
    sp.isValid := by
  have hBefore := hPopped.before
  have hFirst := (hTable.tentativeHops _ _ hBefore).first
    sp.nextHop List.mem_cons_self
  have hReachable :
      Reachable db.edge s sp.destination := by
    rcases hFirst.2 with ⟨p, hWalk⟩
    exact ⟨_, _, hWalk⟩
  have hNe : sp.destination ≠ s := by
    intro hEq
    rw [hEq, hTable.fresh] at hBefore
    cases hBefore
  have hDestination :=
    hDb.id sp.destination hReachable hNe
  have hCost : sp.cost ≠ LS_INVALID_COST := by
    have hBound := (hTable.tentative_fine hDb _ _ hBefore).2
    unfold LS_MAX_COST at hBound
    unfold LS_INVALID_COST
    simp only at hBound
    omega
  have hHop : sp.nextHop ≠ LS_INVALID_COST :=
    hDb.id sp.nextHop hFirst.2.reachable hFirst.1
  unfold LsPath.isValid
  simp [hDestination, hCost, hHop]

theorem popRound_step
    (hDb : db.Proper s)
    (hSettled : r.Settled db s)
    (hSome : r.tentativePaths.entries ≠ []) :
    ∃ r', popRound db s r = some r' ∧ r'.Settled db s ∧
      (pending (db.ids s) r'.paths).card <
        (pending (db.ids s) r.paths).card := by
  have hTable := hSettled.table
  rcases LsPaths.popShortestPath_popped
    (hTable.tentative_fine hDb) hSome with ⟨rest, hPopped⟩
  rcases hTable.installs hPopped with ⟨old, hInstalls⟩
  have hPending := hInstalls.pending_lt hTable
  unfold popRound
  simp only
  rw [if_pos (hTable.popped_valid hDb hPopped)]
  cases hFind : db.find
      r.tentativePaths.popShortestPath.1.destination with
  | none =>
      exact ⟨_, rfl, hInstalls.settled hSettled hFind,
        hPending⟩
  | some links =>
      have hVisiting := hInstalls.visiting hSettled hFind
      rcases visit_settled hDb hVisiting hFind with
        ⟨r', hVisit, hPaths, hSettled'⟩
      refine ⟨r', hVisit, hSettled', ?_⟩
      rw [hPaths]
      exact hPending

/- The rounds end, with no tentative path left. -/
theorem popLoop_ends
    (hDb : db.Proper s)
    (n : Nat)
    (hSettled : r.Settled db s)
    (hBound : (pending (db.ids s) r.paths).card ≤ n) :
    ∃ r' : Routes, r'.Settled db s ∧
      r'.tentativePaths.entries = [] ∧
      ∀ fuel, n < fuel →
        popLoop db s fuel r = some r'.paths := by
  induction n generalizing r with
  | zero =>
      by_cases hSome : r.tentativePaths.entries = []
      · refine ⟨r, hSettled, hSome, ?_⟩
        intro fuel hFuel
        cases fuel with
        | zero => omega
        | succ fuel => exact if_pos hSome
      · rcases popRound_step hDb hSettled hSome with
          ⟨_, _, _, hLess⟩
        omega
  | succ n ih =>
      by_cases hSome : r.tentativePaths.entries = []
      · refine ⟨r, hSettled, hSome, ?_⟩
        intro fuel hFuel
        cases fuel with
        | zero => omega
        | succ fuel => exact if_pos hSome
      · rcases popRound_step hDb hSettled hSome with
          ⟨r₁, hRound, hSettled₁, hLess⟩
        rcases ih hSettled₁ (by omega) with
          ⟨r', hSettled', hNil, hLoop⟩
        refine ⟨r', hSettled', hNil, ?_⟩
        intro fuel hFuel
        cases fuel with
        | zero => omega
        | succ fuel =>
            unfold popLoop
            rw [if_neg hSome, hRound]
            exact hLoop fuel (by omega)

end LsRouting

end Ns2

------------------------------------------------------------
-- Exactness
------------------------------------------------------------

namespace Ns2

open ShortestPaths

namespace LsRouting

variable {db : LsTopoMap}
variable {s : Int} {r : Routes}

theorem Routes.Settled.sound
    (hSettled : r.Settled db s) :
    r.paths.label.Sound db.edge s := by
  have hTable := hSettled.table
  constructor
  case source =>
    exact ⟨[s], LsPaths.label_eq_some.mpr hTable.source⟩
  case nonempty =>
    intro t c hops hLabel
    have hFind := LsPaths.label_eq_some.mp hLabel
    by_cases ht : t = s
    · subst ht
      rw [hTable.source] at hFind
      cases hFind
      exact List.cons_ne_nil t []
    · exact (hTable.pathHops t _ hFind ht).nonempty
  case walk =>
    intro t c hops hLabel
    have hFind := LsPaths.label_eq_some.mp hLabel
    rcases hTable.pathSimple t _ hFind with ⟨p, hWalk, _⟩
    exact ⟨p, hWalk⟩
  case hop =>
    intro t c hops hLabel ht h hh
    have hFind := LsPaths.label_eq_some.mp hLabel
    exact ((hTable.pathHops t _ hFind ht).first h hh).2

theorem Routes.Settled.closed
    (hSettled : r.Settled db s)
    (hNil : r.tentativePaths.entries = []) :
    r.paths.label.Closed db.edge s := by
  intro u c hops hLabel v w hEdge h hh
  have hFind := LsPaths.label_eq_some.mp hLabel
  rcases hEdge with ⟨links, hLinks, l, hl, hUp, rfl, rfl⟩
  rcases hSettled.covered u links l _ hLinks hl hUp
    (fun _ h => h) hFind h hh with
    hCovers | ⟨c', hops', hLabel', _⟩
  · exact hCovers
  · have hFind' := LsPaths.label_eq_some.mp hLabel'
    rw [SortedMap.find_of_entries_nil _ hNil] at hFind'
    cases hFind'

/- A node's path to itself, before any link is seen. -/
def initial (s : Int) : Routes where
  paths := LsPaths.insertPathNoChecking .new ⟨s, 0, s⟩
  tentativePaths := .new

theorem find_initial_iff
    {t : Int}
    {ep : LsEqualPaths} :
    (initial s).paths.find t = some ep ↔
      t = s ∧ ep = ⟨0, [s]⟩ := by
  have hSource :
      (initial s).paths.find s = some ⟨0, [s]⟩ := by
    exact SortedMap.find_insert_self _ rfl
  constructor
  · intro hFind
    by_cases ht : t = s
    · subst ht
      rw [hSource] at hFind
      cases hFind
      exact ⟨rfl, rfl⟩
    · have hNone := SortedMap.find_insert_ne
        (SortedMap.new : LsPaths) (a := ⟨0, [s]⟩) ht
      exact absurd (hFind.symm.trans hNone)
        (Option.some_ne_none ep)
  · rintro ⟨rfl, rfl⟩
    exact hSource

theorem initial_table :
    (initial s).Table db s := by
  constructor
  case source => exact find_initial_iff.mpr ⟨rfl, rfl⟩
  case fresh => rfl
  case pathHops =>
    intro t ep hFind ht
    exact absurd (find_initial_iff.mp hFind).1 ht
  case tentativeHops =>
    intro t ep hFind
    cases hFind
  case pathSimple =>
    intro t ep hFind
    rcases find_initial_iff.mp hFind with ⟨rfl, rfl⟩
    exact ⟨[], Walk.nil, List.nodup_singleton t,
      fun x hx => nomatch hx⟩
  case tentativeSimple =>
    intro t ep hFind
    cases hFind
  case both =>
    intro t ep ep' _ hFind
    cases hFind
  case below =>
    intro u ep t ep' _ hFind
    cases hFind

theorem initial_visiting
    {links : List LsLinkState}
    (hFind : db.find s = some links) :
    (initial s).Visiting db s s ⟨0, [s]⟩ links := by
  refine ⟨initial_table, ⟨?_, ?_⟩, ?_⟩
  · exact find_initial_iff.mpr ⟨rfl, rfl⟩
  · intro x ep hPath
    rw [(find_initial_iff.mp hPath).2]
  · intro x links' l ep hLinks hMem _ hWaived hPath
    have hx := (find_initial_iff.mp hPath).1
    subst hx
    rw [hFind] at hLinks
    cases hLinks
    exact absurd hMem (hWaived rfl)

theorem initial_settled
    (hFind : db.find s = none) :
    (initial s).Settled db s := by
  refine ⟨initial_table, ?_⟩
  intro x links l ep hLinks _ _ _ hPath
  rw [(find_initial_iff.mp hPath).1, hFind] at hLinks
  cases hLinks

/- The computation ends with both of its loops done. -/
theorem computeRoutes_settled
    (hDb : db.Proper s) :
    ∃ r : Routes, r.Settled db s ∧
      r.tentativePaths.entries = [] ∧
      ∃ n, ∀ fuel, n ≤ fuel →
        computeRoutes db s fuel = some r.paths := by
  unfold computeRoutes
  cases hFind : db.find s with
  | none =>
      exact ⟨initial s, initial_settled hFind, rfl,
        0, fun _ _ => rfl⟩
  | some links =>
      rcases visit_settled hDb (initial_visiting hFind) hFind
        with ⟨r, hVisit, _, hSettled⟩
      rcases popLoop_ends hDb _ hSettled le_rfl with
        ⟨r', hSettled', hNil, hLoop⟩
      refine ⟨r', hSettled', hNil,
        (pending (db.ids s) r.paths).card + 1, ?_⟩
      intro fuel hFuel
      change (visit s s (initial s) links).bind _ = _
      rw [hVisit]
      exact hLoop fuel (Nat.lt_of_succ_le hFuel)

/-
  The table is returned, has exactly the nodes that can be
  reached, their least costs, and every first hop of the
  cheapest paths once.
-/
theorem compute_routes_exact
    (db : LsTopoMap)
    (s : Int)
    (hDb : db.Proper s) :
    ∃ paths : LsPaths,
      (∃ n, ∀ fuel, n ≤ fuel →
        computeRoutes db s fuel = some paths) ∧
      (∀ t, (paths.find t).isSome ↔
        Reachable db.edge s t) ∧
      ∀ t ep, paths.find t = some ep →
        LeastCost db.edge s t ep.cost ∧
        (t ≠ s → ep.nextHopList.Nodup ∧
          ∀ h, h ∈ ep.nextHopList ↔
            FirstHop db.edge s t ep.cost h) := by
  rcases computeRoutes_settled hDb with
    ⟨r, hSettled, hNil, hRun⟩
  have hSound := hSettled.sound
  have hClosed := hSettled.closed hNil
  refine ⟨r.paths, hRun, ?_, ?_⟩
  · intro t
    rw [← Labels.reachable_iff hSound hClosed hDb.pos]
    unfold LsPaths.label
    rw [Option.isSome_map]
  · intro t ep hFind
    have hLabel : r.paths.label t =
        some (ep.cost, ep.nextHopList) :=
      LsPaths.label_eq_some.mpr hFind
    refine ⟨Labels.leastCost hSound hClosed hDb.pos hLabel,
      ?_⟩
    intro ht
    refine ⟨(hSettled.table.pathHops t ep hFind ht).nodup,
      ?_⟩
    intro h
    exact Labels.mem_hops_iff hSound hClosed hDb.pos hLabel ht

/- A potential below the bound keeps simple paths below it. -/
theorem bounded_of_potential
    {db : LsTopoMap}
    (f : Int → Int)
    (hStep : ∀ u v w, db.edge u v w →
      1 ≤ w ∧ (u ≠ v → f v = f u + w))
    (hRange : ∀ x, 0 ≤ f x ∧ f x ≤ LS_MAX_COST) :
    db.Bounded := by
  refine ⟨fun u v w hEdge => (hStep u v w hEdge).1, ?_⟩
  intro u p v c hWalk hNodup
  have hEq := hWalk.potential
    (fun u v w hEdge => (hStep u v w hEdge).2) hNodup
  have hu := hRange u
  have hv := hRange v
  omega

/- Two ways of equal cost from node 1 to node 4. -/
def diamond : LsTopoMap where
  entries :=
    [(1, [⟨2, .LS_STATUS_UP, 1⟩, ⟨3, .LS_STATUS_UP, 1⟩]),
      (2, [⟨4, .LS_STATUS_UP, 1⟩]),
      (3, [⟨4, .LS_STATUS_UP, 1⟩])]
  sorted := by decide

theorem diamond_edge
    {u v w : Int}
    (hEdge : diamond.edge u v w) :
    w = 1 ∧ (u = 1 ∧ (v = 2 ∨ v = 3) ∨
      (u = 2 ∨ u = 3) ∧ v = 4) := by
  rcases hEdge with ⟨links, hFind, l, hl, _, rfl, rfl⟩
  have hEntry := diamond.mem_entries_iff.mpr hFind
  simp only [diamond, List.mem_cons, Prod.mk.injEq,
    List.not_mem_nil, or_false] at hEntry
  rcases hEntry with ⟨rfl, rfl⟩ | ⟨rfl, rfl⟩ | ⟨rfl, rfl⟩
  · simp only [List.mem_cons, List.not_mem_nil,
      or_false] at hl
    rcases hl with rfl | rfl
    · simp
    · simp
  · cases List.mem_singleton.mp hl
    simp
  · cases List.mem_singleton.mp hl
    simp

theorem diamond_proper :
    diamond.Proper 1 := by
  constructor
  case toBounded =>
    apply bounded_of_potential fun x =>
      if x = 1 then 0 else if x = 4 then 2 else 1
    · intro u v w hEdge
      rcases diamond_edge hEdge with
        ⟨rfl, ⟨rfl, rfl | rfl⟩ | ⟨rfl | rfl, rfl⟩⟩
      · decide
      · decide
      · decide
      · decide
    · intro x
      unfold LS_MAX_COST
      split_ifs
      · decide
      · decide
      · decide
  case loop =>
    intro u w hEdge
    rcases diamond_edge hEdge with
      ⟨rfl, ⟨rfl, hv⟩ | ⟨hu, rfl⟩⟩
    · omega
    · omega
  case id =>
    intro t hReachable ht
    rcases hReachable with ⟨p, c, hWalk⟩
    unfold LS_INVALID_NODE_ID
    cases hWalk with
    | nil => exact absurd rfl ht
    | snoc hBefore hEdge =>
        rcases diamond_edge hEdge with
          ⟨_, ⟨_, hv⟩ | ⟨_, hv⟩⟩
        · omega
        · omega

theorem compute_routes_diamond :
    ∃ paths : LsPaths,
      (∃ n, ∀ fuel, n ≤ fuel →
        computeRoutes diamond 1 fuel = some paths) ∧
      (∀ t, (paths.find t).isSome ↔
        Reachable diamond.edge 1 t) ∧
      ∀ t ep, paths.find t = some ep →
        LeastCost diamond.edge 1 t ep.cost ∧
        (t ≠ 1 → ep.nextHopList.Nodup ∧
          ∀ h, h ∈ ep.nextHopList ↔
            FirstHop diamond.edge 1 t ep.cost h) := by
  exact compute_routes_exact diamond 1 diamond_proper

/- A neighbor whose id marks invalid nodes. -/
def invalidNeighbor : LsTopoMap where
  entries := [(1, [⟨65535, .LS_STATUS_UP, 1⟩])]
  sorted := List.pairwise_singleton _ _

/- A node with a link to itself that costs the most. -/
def dearLoop : LsTopoMap where
  entries :=
    [(1, [⟨2, .LS_STATUS_UP, 1⟩]),
      (2, [⟨2, .LS_STATUS_UP, 2147483647⟩])]
  sorted := by decide

theorem invalidNeighbor_bounded :
    invalidNeighbor.Bounded := by
  apply bounded_of_potential fun x =>
    if x = 65535 then 1 else 0
  · rintro u v w ⟨links, hFind, l, hl, _, rfl, rfl⟩
    have hEntry := invalidNeighbor.mem_entries_iff.mpr hFind
    cases List.mem_singleton.mp hEntry
    cases List.mem_singleton.mp hl
    decide
  · intro x
    unfold LS_MAX_COST
    split_ifs
    · decide
    · decide

theorem dearLoop_bounded :
    dearLoop.Bounded := by
  apply bounded_of_potential fun x => if x = 2 then 1 else 0
  · rintro u v w ⟨links, hFind, l, hl, _, rfl, rfl⟩
    have hEntry := dearLoop.mem_entries_iff.mpr hFind
    simp only [dearLoop, List.mem_cons, Prod.mk.injEq,
      List.not_mem_nil, or_false] at hEntry
    rcases hEntry with ⟨rfl, rfl⟩ | ⟨rfl, rfl⟩
    · cases List.mem_singleton.mp hl
      decide
    · cases List.mem_singleton.mp hl
      decide
  · intro x
    unfold LS_MAX_COST
    split_ifs
    · decide
    · decide

/-
  The program aborts where a node has the invalid id, and a
  dear link of a node to itself overflows its cost.
-/
theorem compute_routes_aborts_and_overflows :
    (invalidNeighbor.Bounded ∧
      ∀ fuel, computeRoutes invalidNeighbor 1 fuel = none) ∧
    dearLoop.Bounded ∧
    Walk dearLoop.edge 1 [2] 2 1 ∧
    ((computeRoutes dearLoop 1 9).bind (·.find 2)).map
      LsEqualPaths.cost = some (-2147483648) := by
  refine ⟨⟨invalidNeighbor_bounded, ?_⟩,
    dearLoop_bounded, ?_, by decide +kernel⟩
  · intro fuel
    cases fuel with
    | zero => rfl
    | succ fuel => rfl
  · apply Walk.single
    exact ⟨_, rfl, _, List.mem_cons_self, rfl, rfl, rfl⟩

end LsRouting

end Ns2
