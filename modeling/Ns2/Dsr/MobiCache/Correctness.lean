import Mathlib.Data.List.Nodup
import Mathlib.Data.List.Infix
import Ns2.Dsr.MobiCache.Operations
import Ns2.Lib.PartialRun

/-
  Correctness of the path cache.

  All results are about the hosts on the lines.  Adding a
  route puts it on a line and keeps every other line, or a
  line that begins with it; a dead link is cut out of every
  line; a search finds the shortest way.

  Main declarations:
    * `Stores`, `Cache.addRoute_spec`
    * `cutLink_prefix`, `cutLink_not_infix`
    * `Shortest`, `MobiCache.searchBoth_spec`
    * `MobiCache.cache_correct`
-/

------------------------------------------------------------
-- Hosts of Paths
------------------------------------------------------------

namespace Ns2

namespace Dsr

namespace Path

variable {p : Path}
variable {ids : List ID}

theorem hosts_length
    (p : Path) :
    p.hosts.length = p.length :=
  List.length_map _

/- Ids with the same hosts make up the same route. -/
theorem hosts_withIds
    (hLength : ids.length = p.path.length)
    (hHosts : ids.map ID.toHost = p.path.map ID.toHost) :
    (p.withIds ids hLength).hosts = p.hosts :=
  hHosts

theorem hosts_setLength
    (p : Path)
    (l : Nat) :
    (p.setLength l).hosts = p.hosts.take l :=
  List.map_take

/- Appending ids to a path that has room for them. -/
theorem appendAll_spec
    (p : Path)
    (ids : List ID)
    (hRoom : p.path.length + ids.length ≤ MAX_SR_LEN) :
    ∃ q, p.appendAll ids = some q ∧
      q.path = p.path ++ ids := by
  induction ids generalizing p with
  | nil =>
      refine ⟨p, rfl, ?_⟩
      rw [List.append_nil]
  | cons id ids ih =>
      rw [List.length_cons] at hRoom
      have hOne : p.path.length < MAX_SR_LEN := by omega
      let p' : Path :=
        { p with
          path := p.path ++ [id]
          len_le := by
            rw [List.length_append, List.length_singleton]
            exact hOne }
      have hAppend : p.appendToPath id = some p' :=
        dif_pos hOne
      have hRest :
          p'.path.length + ids.length ≤ MAX_SR_LEN := by
        simp only [p', List.length_append,
          List.length_singleton]
        omega
      rcases ih p' hRest with ⟨q, hAll, hPath⟩
      refine ⟨q, ?_, ?_⟩
      · rw [appendAll, List.foldlM_cons, hAppend]
        exact hAll
      · rw [hPath, List.append_assoc]
        rfl

/- Appending ids as long as there is room. -/
theorem appendWhile_spec
    (p : Path)
    (ids : List ID) :
    ∃ q, p.appendWhile ids = some q ∧
      q.path =
        p.path ++ ids.take (MAX_SR_LEN - p.path.length) := by
  induction ids generalizing p with
  | nil =>
      refine ⟨p, rfl, ?_⟩
      rw [List.take_nil, List.append_nil]
  | cons id ids ih =>
      rw [appendWhile]
      by_cases hFull : p.full = true
      · rw [if_pos hFull]
        have hLe : MAX_SR_LEN ≤ p.path.length :=
          of_decide_eq_true hFull
        refine ⟨p, rfl, ?_⟩
        rw [Nat.sub_eq_zero_of_le hLe, List.take_zero,
          List.append_nil]
      · rw [if_neg hFull]
        have hOne : p.path.length < MAX_SR_LEN :=
          not_le.mp fun hLe => hFull (decide_eq_true hLe)
        rcases p.appendAll_spec [id] hOne with
          ⟨p', hAll, hPath⟩
        have hAppend : p.appendToPath id = some p' := by
          simpa [appendAll] using hAll
        rcases ih p' with ⟨q, hWhile, hRest⟩
        refine ⟨q, ?_, ?_⟩
        · rw [hAppend]
          exact hWhile
        · have hLess : MAX_SR_LEN - p.path.length =
              MAX_SR_LEN - (p.path.length + 1) + 1 := by
            omega
          rw [hRest, hPath, List.length_append,
            List.length_singleton, hLess, List.take_succ_cons,
            List.append_assoc]
          rfl

end Path

/- An end of a path is copied into one without ids. -/
theorem CopyIntoPath_spec
    (target source : Path)
    (start : Nat)
    (hEmpty : target.path = [])
    (hStart : start ≤ source.path.length) :
    ∃ q, CopyIntoPath target source start
        (source.length - 1) = some q ∧
      q.path = source.path.drop start := by
  have hStop : (source.length : Int) - 1 <
      source.path.length := by
    rw [Path.length]
    omega
  unfold CopyIntoPath
  rw [dif_pos hStop]
  refine ⟨_, rfl, ?_⟩
  have hCount :
      ((source.length : Int) - 1 - start + 1).toNat =
        source.path.length - start := by
    rw [Path.length]
    omega
  simp only [hEmpty, List.drop_nil, List.append_nil, hCount]
  apply List.take_of_length_le
  rw [List.length_drop]

/- Freshening and labelling do not change the hosts. -/
theorem map_freshenLinks
    (as bs : List ID) :
    (freshenLinks as bs).map ID.toHost =
      as.map ID.toHost := by
  fun_induction freshenLinks as bs with
  | case1 a a' as b b' bs hEq ih =>
      rw [List.map_cons, ih]
      split_ifs <;> rfl
  | case2 => rfl
  | case3 => rfl

theorem map_label
    (who_from : Host)
    (t : Rat)
    (kind : Link_Type)
    (ids : List ID) :
    (label who_from t kind ids).map ID.toHost =
      ids.map ID.toHost := by
  induction ids generalizing kind with
  | nil => rfl
  | cons id ids ih =>
      rw [label, List.map_cons, List.map_cons, ih]

theorem hosts_labelled
    (p : Path)
    (who_from : Host)
    (t : Rat) :
    (p.labelled who_from t).hosts = p.hosts :=
  Path.hosts_withIds _ (map_label _ _ _ _)

theorem map_modify
    {f : ID → ID}
    (hHost : ∀ id, (f id).toHost = id.toHost)
    (ids : List ID)
    (n : Nat) :
    (ids.modify n f).map ID.toHost = ids.map ID.toHost := by
  induction ids generalizing n with
  | nil => cases n <;> rfl
  | cons id ids ih =>
      cases n with
      | zero => simp [hHost]
      | succ n => simp [ih]

theorem hosts_unlog
    (p : Path)
    (n : Nat) :
    (unlog p n).hosts = p.hosts := by
  apply Path.hosts_withIds
  apply map_modify
  intro id
  rfl

theorem hosts_firstUntested
    (p : Path) :
    p.firstUntested.hosts = p.hosts := by
  apply Path.hosts_withIds
  apply map_modify
  intro id
  rfl

end Dsr

end Ns2

------------------------------------------------------------
-- Adding a Route
------------------------------------------------------------

namespace Ns2

namespace Dsr

theorem take_commonLen
    (as bs : List ID) :
    (as.map ID.toHost).take (commonLen as bs) =
      (bs.map ID.toHost).take (commonLen as bs) := by
  fun_induction commonLen as bs with
  | case1 a as b bs hEq ih =>
      simp only [List.map_cons, List.take_succ_cons, ih, hEq]
  | case2 => rfl
  | case3 => rfl

/- All of the line, or all of the route, is common. -/
theorem prefix_of_commonLen
    {p q : Path}
    (hAll : commonLen p.path q.path = p.length) :
    p.hosts <+: q.hosts := by
  have hTake := take_commonLen p.path q.path
  rw [hAll, List.take_of_length_le (by simp [Path.length])]
    at hTake
  rw [Path.hosts, hTake]
  exact List.take_prefix _ _

theorem prefix_of_commonLen_route
    {p q : Path}
    (hAll : commonLen p.path q.path = q.length) :
    q.hosts <+: p.hosts := by
  have hTake := take_commonLen p.path q.path
  rw [hAll, List.take_of_length_le
    (l := q.path.map ID.toHost) (by simp [Path.length])]
    at hTake
  rw [Path.hosts, ← hTake]
  exact List.take_prefix _ _

/- What adding a route does to the lines. -/
structure Stores
    (c c' : Cache)
    (path : Path) : Prop where
  size_eq : c'.size = c.size
  victim_lt : c'.victim_ptr < c'.size
  mem : ∀ l ∈ c'.lines, l ∈ c.lines ∨ l = path.hosts
  stored : ∃ l ∈ c'.lines, path.hosts <+: l
  kept : ∀ l ∈ c.lines,
    (∃ l' ∈ c'.lines, l <+: l') ∨
      ∃ v, c.evicted path = some v ∧ v.hosts = l

namespace Cache

variable {c : Cache}

theorem lines_length
    (c : Cache) :
    c.lines.length = c.size :=
  List.length_map _

theorem lines_write
    (c : Cache)
    (i : Nat)
    (p : Path) :
    (c.write i p).lines = c.lines.set i p.hosts :=
  List.map_set

theorem size_write
    (c : Cache)
    (i : Nat)
    (p : Path) :
    (c.write i p).size = c.size :=
  List.length_set

theorem lines_get
    {i : Nat}
    (hi : i < c.size) :
    c.lines[i]? = some (c.line i).hosts := by
  unfold lines line
  rw [List.getElem?_map, List.getD_eq_getElem?_getD,
    List.getElem?_eq_getElem hi]
  rfl

theorem line_mem
    {i : Nat}
    (hi : i < c.size) :
    (c.line i).hosts ∈ c.lines :=
  List.mem_of_getElem? (lines_get hi)

/- A line is written over, or it stays. -/
theorem mem_write
    {i : Nat}
    {l : List Host}
    (p : Path)
    (hMem : l ∈ c.lines) :
    l ∈ (c.write i p).lines ∨ (c.line i).hosts = l := by
  rcases List.mem_iff_getElem?.mp hMem with ⟨k, hk⟩
  have hSize : k < c.size := by
    rw [← c.lines_length]
    exact (List.getElem?_eq_some_iff.mp hk).1
  by_cases hEq : i = k
  · subst hEq
    rw [lines_get hSize] at hk
    exact Or.inr (Option.some.inj hk)
  · refine Or.inl (List.mem_of_getElem? (i := k) ?_)
    rw [lines_write, List.getElem?_set_ne hEq, hk]

theorem of_mem_write
    {i : Nat}
    {l : List Host}
    {p : Path}
    (hMem : l ∈ (c.write i p).lines) :
    l ∈ c.lines ∨ l = p.hosts := by
  rw [lines_write] at hMem
  exact List.mem_or_eq_of_mem_set hMem

theorem write_mem
    {i : Nat}
    (hi : i < c.size)
    (p : Path) :
    p.hosts ∈ (c.write i p).lines := by
  rw [lines_write]
  apply List.mem_set
  rw [lines_length]
  exact hi

theorem pickVictim_spec
    (hVictim : c.victim_ptr < c.size) :
    c.pickVictim.1 < c.size ∧
      c.pickVictim.2.cache = c.cache ∧
      c.pickVictim.2.victim_ptr < c.size := by
  unfold pickVictim
  cases hEmpty : c.cache.findIdx? (fun p => p.length = 0) with
  | some i =>
      have hi := (List.findIdx?_eq_some_iff_getElem.mp hEmpty).1
      exact ⟨hi, rfl, hVictim⟩
  | none =>
      refine ⟨hVictim, rfl, ?_⟩
      simp only
      split_ifs with hLast <;> omega

/- The slot that was found is part of the route, or whole. -/
theorem findSlot_spec
    {path : Path}
    {index : Nat}
    (hSlot : c.findSlot path = some index) :
    index < c.size ∧
      (commonLen (c.line index).path path.path =
          (c.line index).length ∨
        commonLen (c.line index).path path.path =
          path.length) := by
  rcases List.findIdx?_eq_some_iff_getElem.mp hSlot with
    ⟨hi, hFound, _⟩
  refine ⟨hi, ?_⟩
  have hLine : c.line index = c.cache[index] := by
    rw [line, List.getD_eq_getElem?_getD,
      List.getElem?_eq_getElem hi]
    rfl
  rw [hLine]
  exact of_decide_eq_true hFound

/- The route is written over a part of it, or the victim. -/
theorem stores_write
    {c₁ : Cache}
    {path p : Path}
    {i : Nat}
    (hCache : c₁.cache = c.cache)
    (hVictim : c₁.victim_ptr < c.size)
    (hi : i < c.size)
    (hHosts : p.hosts = path.hosts)
    (hOld : (c.line i).hosts <+: path.hosts ∨
      c.evicted path = some (c.line i)) :
    Stores c (c₁.write i p) path := by
  have hLines : (c₁.write i p).lines = (c.write i p).lines := by
    unfold lines write
    rw [hCache]
  have hSize : (c₁.write i p).size = c.size := by
    rw [size_write, size, hCache]
    rfl
  have hNew := write_mem hi p
  rw [hHosts] at hNew
  constructor
  case size_eq => exact hSize
  case victim_lt =>
    rw [hSize]
    exact hVictim
  case mem =>
    intro l hl
    rw [hLines] at hl
    rw [← hHosts]
    exact of_mem_write hl
  case stored =>
    rw [hLines]
    exact ⟨_, hNew, List.prefix_refl _⟩
  case kept =>
    intro l hl
    rw [hLines]
    rcases mem_write (i := i) p hl with hStays | rfl
    · exact Or.inl ⟨l, hStays, List.prefix_refl l⟩
    · rcases hOld with hPrefix | hEvicted
      · exact Or.inl ⟨_, hNew, hPrefix⟩
      · exact Or.inr ⟨_, hEvicted, rfl⟩

theorem storeIn_spec
    {path : Path}
    {index : Nat}
    (hVictim : c.victim_ptr < c.size)
    (hSlot : c.findSlot path = some index) :
    ∃ c' n, c.storeIn path index = some (c', n) ∧
      Stores c c' path := by
  rcases findSlot_spec hSlot with ⟨hi, hAll⟩
  unfold storeIn
  by_cases hLine : commonLen (c.line index).path path.path =
      (c.line index).length
  · rw [if_pos hLine, hLine]
    have hPrefix := prefix_of_commonLen hLine
    have hShort : (c.line index).path.length ≤
        path.path.length := by
      simpa [Path.hosts] using hPrefix.length_le
    rcases (c.line index).appendAll_spec
        (path.path.drop (c.line index).length) (by
          rw [List.length_drop, Path.length,
            Nat.add_sub_cancel' hShort]
          exact path.len_le) with
      ⟨q, hAppend, hPath⟩
    have hHosts : q.hosts = path.hosts := by
      have hTake := List.prefix_iff_eq_take.mp hPrefix
      have hDrop :
          (path.path.drop (c.line index).length).map
              ID.toHost =
            path.hosts.drop (c.line index).hosts.length := by
        rw [Path.hosts_length, Path.hosts, List.map_drop]
      rw [Path.hosts, hPath, List.map_append, hDrop]
      change (c.line index).hosts ++ _ = _
      nth_rewrite 1 [hTake]
      exact List.take_append_drop _ _
    refine ⟨c.write index q, (c.line index).length, ?_,
      stores_write rfl hVictim hi hHosts (Or.inl hPrefix)⟩
    rw [hAppend]
    rfl
  · have hRoute := hAll.resolve_left hLine
    rw [if_neg hLine]
    refine ⟨c, _, rfl, ?_⟩
    constructor
    case size_eq => rfl
    case victim_lt => exact hVictim
    case mem => exact fun l hl => Or.inl hl
    case stored =>
      exact ⟨_, line_mem hi, prefix_of_commonLen_route hRoute⟩
    case kept =>
      exact fun l hl => Or.inl ⟨l, hl, List.prefix_refl l⟩

theorem storeNew_spec
    {path : Path}
    (hVictim : c.victim_ptr < c.size)
    (hSlot : c.findSlot path = none) :
    ∃ c', c.storeNew path = some (c', 0) ∧
      Stores c c' path := by
  rcases pickVictim_spec hVictim with ⟨hi, hCache, hNext⟩
  rcases CopyIntoPath_spec
      (c.pickVictim.2.line c.pickVictim.1).reset path 0 rfl
      (Nat.zero_le _) with
    ⟨q, hCopy, hPath⟩
  have hHosts : q.hosts = path.hosts := by
    rw [Path.hosts, hPath, List.drop_zero]
    rfl
  have hEvicted : c.evicted path =
      some (c.line c.pickVictim.1) := by
    rw [evicted, hSlot]
    rfl
  refine ⟨_, ?_,
    stores_write hCache hNext hi hHosts (Or.inr hEvicted)⟩
  simp only [storeNew, hCopy, Option.map_some]

theorem storeRoute_spec
    (path : Path)
    (hVictim : c.victim_ptr < c.size) :
    ∃ c' n, c.storeRoute path = some (c', n) ∧
      Stores c c' path := by
  unfold storeRoute
  cases hSlot : c.findSlot path with
  | some index => exact storeIn_spec hVictim hSlot
  | none =>
      rcases storeNew_spec hVictim hSlot with ⟨c', hNew⟩
      exact ⟨c', 0, hNew⟩

theorem lines_freshen
    (c : Cache)
    (path : Path) :
    (c.freshen path).lines = c.lines := by
  unfold freshen lines
  rw [List.map_map]
  apply List.map_congr_left
  intro p _
  exact Path.hosts_withIds _ (map_freshenLinks _ _)

theorem addRoute_spec
    (path : Path)
    (hVictim : c.victim_ptr < c.size) :
    ∃ c' n, c.addRoute path = some (c', n) ∧
      Stores c c' path := by
  rcases storeRoute_spec path hVictim with
    ⟨c', n, hStore, hStores⟩
  have hLines := c'.lines_freshen path
  have hSize : (c'.freshen path).size = c'.size :=
    List.length_map _
  refine ⟨c'.freshen path, n, ?_, ?_⟩
  · rw [addRoute, hStore]
    rfl
  · constructor
    case size_eq => exact hSize.trans hStores.size_eq
    case victim_lt =>
      rw [hSize]
      exact hStores.victim_lt
    all_goals rw [hLines]
    case mem => exact hStores.mem
    case stored => exact hStores.stored
    case kept => exact hStores.kept

end Cache

end Dsr

end Ns2

------------------------------------------------------------
-- Dead Links
------------------------------------------------------------

namespace Ns2

namespace Dsr

theorem findLink_none
    {a b : Host}
    {ids : List ID}
    (hNone : findLink a b ids = none) :
    ¬ [a, b] <:+: ids.map ID.toHost := by
  fun_induction findLink a b ids with
  | case1 => cases hNone
  | case2 x y ids hOther ih =>
      rw [Option.map_eq_none_iff] at hNone
      intro hInfix
      rcases List.infix_cons_iff.mp hInfix with
        hPrefix | hRest
      · simp only [List.map_cons, List.cons_prefix_cons]
          at hPrefix
        exact hOther ⟨hPrefix.1.symm, hPrefix.2.1.symm⟩
      · exact ih hNone hRest
  | case3 ids hShort =>
      intro hInfix
      have hLength := hInfix.length_le
      rcases ids with _ | ⟨x, _ | ⟨y, ids⟩⟩
      · simp at hLength
      · simp at hLength
      · exact hShort x y ids rfl

/- Up to the link, the path does not contain it. -/
theorem findLink_some
    {a b : Host}
    {ids : List ID}
    {n : Nat}
    (hSome : findLink a b ids = some n) :
    n + 1 < ids.length ∧
      ¬ [a, b] <:+: (ids.map ID.toHost).take (n + 1) := by
  fun_induction findLink a b ids generalizing n with
  | case1 x y ids =>
      cases hSome
      refine ⟨by simp, ?_⟩
      intro hInfix
      have hLength := hInfix.length_le
      simp at hLength
  | case2 x y ids hOther ih =>
      rcases Option.map_eq_some_iff.mp hSome with
        ⟨m, hRest, rfl⟩
      rcases ih hRest with ⟨hLength, hNot⟩
      refine ⟨by simpa using hLength, ?_⟩
      intro hInfix
      rw [List.map_cons, List.take_succ_cons] at hInfix
      rcases List.infix_cons_iff.mp hInfix with
        hPrefix | hTail
      · simp only [List.map_cons, List.take_succ_cons,
          List.cons_prefix_cons] at hPrefix
        exact hOther ⟨hPrefix.1.symm, hPrefix.2.1.symm⟩
      · exact hNot hTail
  | case3 => cases hSome

theorem cutLink_not_infix
    (a b : Host)
    (p : Path) :
    ¬ [a, b] <:+: (cutLink a b p).hosts := by
  unfold cutLink
  cases hLink : findLink a b p.path with
  | none => exact findLink_none hLink
  | some n =>
      cases n with
      | zero =>
          intro hInfix
          have hLength := hInfix.length_le
          simp [Path.hosts, Path.reset, Path.new] at hLength
      | succ n =>
          simp only [hosts_unlog, Path.hosts_setLength]
          exact (findLink_some hLink).2

/- A path is killed, or a part of two hosts at least stays. -/
theorem cutLink_prefix
    (a b : Host)
    (p : Path) :
    (cutLink a b p).hosts = [] ∨
      ((cutLink a b p).hosts <+: p.hosts ∧
        (2 ≤ p.hosts.length →
          2 ≤ (cutLink a b p).hosts.length)) := by
  unfold cutLink
  cases hLink : findLink a b p.path with
  | none => exact Or.inr ⟨List.prefix_refl _, id⟩
  | some n =>
      cases n with
      | zero => exact Or.inl rfl
      | succ n =>
          have hLength := (findLink_some hLink).1
          refine Or.inr ?_
          simp only [hosts_unlog, Path.hosts_setLength]
          refine ⟨List.take_prefix _ _, fun _ => ?_⟩
          rw [List.length_take, Path.hosts, List.length_map]
          omega

end Dsr

end Ns2

------------------------------------------------------------
-- Searching
------------------------------------------------------------

namespace Ns2

namespace Dsr

variable {dest : Host}

/- The place that was found is the first of the host. -/
theorem findIdx_spec
    {p : Path}
    {i : Nat}
    (hFirst : p.hosts.findIdx? (· = dest) = some i) :
    i < p.hosts.length ∧ p.hosts[i]? = some dest ∧
      ∀ k, p.hosts[k]? = some dest → i ≤ k := by
  rcases List.findIdx?_eq_some_iff_getElem.mp hFirst with
    ⟨hi, hFound, hBefore⟩
  refine ⟨hi, ?_, ?_⟩
  · rw [List.getElem?_eq_getElem hi]
    exact congrArg some (of_decide_eq_true hFound)
  · intro k hk
    by_contra hLess
    have hNot := hBefore k (not_le.mp hLess)
    rcases List.getElem?_eq_some_iff.mp hk with ⟨_, hSame⟩
    exact hNot (decide_eq_true hSame)

namespace Cache

/- The first path with the host, or that there is none. -/
theorem searchFrom_spec
    (dest : Host)
    (index : Nat)
    (paths : List Path) :
    (searchFrom dest index paths = none ∧
      ∀ p ∈ paths, dest ∉ p.hosts) ∨
    ∃ before p after i, paths = before ++ p :: after ∧
      (∀ q ∈ before, dest ∉ q.hosts) ∧
      p.hosts.findIdx? (· = dest) = some i ∧
      searchFrom dest index paths =
        some (i, p, index + before.length) := by
  induction paths generalizing index with
  | nil => exact Or.inl ⟨rfl, nofun⟩
  | cons p paths ih =>
      cases hFirst : p.hosts.findIdx? (· = dest) with
      | some i =>
          refine Or.inr ⟨[], p, paths, i, rfl, nofun, hFirst,
            ?_⟩
          simp only [searchFrom, hFirst]
          rfl
      | none =>
          have hNot : dest ∉ p.hosts := by
            intro hMem
            have hNone :=
              List.findIdx?_eq_none_iff.mp hFirst dest hMem
            simp at hNone
          have hSearch : searchFrom dest index (p :: paths) =
              searchFrom dest (index + 1) paths := by
            simp only [searchFrom, hFirst]
          rw [hSearch]
          rcases ih (index + 1) with
            ⟨hNone, hAll⟩ |
              ⟨before, q, after, i, rfl, hBefore, hq, hFound⟩
          · exact Or.inl ⟨hNone,
              List.forall_mem_cons.mpr ⟨hNot, hAll⟩⟩
          · refine Or.inr ⟨p :: before, q, after, i, rfl,
              List.forall_mem_cons.mpr ⟨hNot, hBefore⟩, hq,
              ?_⟩
            rw [hFound, List.length_cons, Nat.add_assoc,
              Nat.add_comm 1]

end Cache

namespace Search

/-
  What holds of the lines that were looked at, and of the
  best route, is kept by skipping lines and by every route
  that is found, and holds of all the lines in the end.
-/
theorem overLines_spec
    {better : Search → Nat × Path × Nat → Search}
    {c : Cache}
    {I : List Path → Search → Prop}
    (hSkip : ∀ seen more best, I seen best →
      (∀ p ∈ more, dest ∉ p.hosts) → I (seen ++ more) best)
    (hFound : ∀ seen p after i best, I seen best →
      c.cache = seen ++ p :: after →
      p.hosts.findIdx? (· = dest) = some i →
        I (seen ++ [p]) (better best (i, p, seen.length)))
    (fuel : Nat)
    (seen rest : List Path)
    (best : Search)
    (hCache : c.cache = seen ++ rest)
    (hFuel : rest.length ≤ fuel)
    (hSeen : I seen best) :
    I c.cache (overLines better c dest fuel seen.length best) := by
  induction fuel generalizing seen rest best with
  | zero =>
      have hEmpty : rest = [] :=
        List.eq_nil_of_length_eq_zero (Nat.le_zero.mp hFuel)
      rw [hCache, hEmpty, List.append_nil]
      exact hSeen
  | succ fuel ih =>
      have hRoute : c.searchRoute dest seen.length =
          Cache.searchFrom dest seen.length rest := by
        rw [Cache.searchRoute, hCache, List.drop_left]
      rw [overLines, hRoute]
      rcases Cache.searchFrom_spec dest seen.length rest with
        ⟨hNone, hAll⟩ |
          ⟨before, p, after, i, rfl, hBefore, hp, hSome⟩
      · rw [hNone, hCache]
        exact hSkip seen rest best hSeen hAll
      · rw [hSome]
        have hPassed := hSkip seen before best hSeen hBefore
        have hSplit :
            c.cache = (seen ++ before) ++ p :: after := by
          rw [hCache, List.append_assoc]
        have hNext := hFound _ p after i best hPassed hSplit hp
        have hAfter :
            c.cache = (seen ++ before ++ [p]) ++ after := by
          rw [hSplit, List.append_assoc (seen ++ before)]
          rfl
        have hLess : after.length ≤ fuel := by
          rw [List.length_append, List.length_cons] at hFuel
          omega
        have hDone := ih _ after _ hAfter hLess hNext
        rw [List.length_append, List.length_append,
          List.length_singleton] at hDone
        exact hDone

end Search

/- The best route to the host among the paths seen. -/
structure Shortest
    (dest : Host)
    (seen : List Path)
    (best : Search) : Prop where
  missing : best.min_cache = 0 →
    best.min_length = MAX_SR_LEN + 1
  found : best.min_cache ≠ 0 →
    best.route ∈ seen ∧
      best.route.hosts[best.min_length]? = some dest
  least : ∀ p ∈ seen, ∀ k,
    p.hosts[k]? = some dest → best.min_length ≤ k

namespace Shortest

variable {seen : List Path}
variable {best : Search}

theorem start (dest : Host) :
    Shortest dest [] Search.start where
  missing := fun _ => rfl
  found := fun hFound => absurd rfl hFound
  least := nofun

theorem skip
    (hBest : Shortest dest seen best)
    {more : List Path}
    (hMore : ∀ p ∈ more, dest ∉ p.hosts) :
    Shortest dest (seen ++ more) best := by
  constructor
  case missing => exact hBest.missing
  case found =>
    intro hFound
    have hOld := hBest.found hFound
    exact ⟨List.mem_append_left _ hOld.1, hOld.2⟩
  case least =>
    intro p hp k hk
    rcases List.mem_append.mp hp with hSeen | hNew
    · exact hBest.least p hSeen k hk
    · exact absurd (List.mem_of_getElem? hk) (hMore p hNew)

/- A shorter route to the host takes the place of the best. -/
theorem shorter
    (hBest : Shortest dest seen best)
    {p : Path}
    {i : Nat}
    {best' : Search}
    (hFirst : p.hosts.findIdx? (· = dest) = some i)
    (hLess : i < best.min_length)
    (hCache : best'.min_cache ≠ 0)
    (hLength : best'.min_length = i)
    (hRoute : best'.route = p) :
    Shortest dest (seen ++ [p]) best' := by
  rcases findIdx_spec hFirst with ⟨_, hAt, hLeast⟩
  constructor
  case missing => exact fun hZero => absurd hZero hCache
  case found =>
    intro _
    rw [hRoute, hLength]
    exact ⟨List.mem_append_right _ (List.mem_singleton_self p),
      hAt⟩
  case least =>
    intro q hq k hk
    rw [hLength]
    rcases List.mem_append.mp hq with hSeen | hNew
    · exact hLess.le.trans (hBest.least q hSeen k hk)
    · rw [List.mem_singleton] at hNew
      rw [hNew] at hk
      exact hLeast k hk

/- A route that is not shorter leaves the best one alone. -/
theorem longer
    (hBest : Shortest dest seen best)
    {p : Path}
    {i : Nat}
    {best' : Search}
    (hFirst : p.hosts.findIdx? (· = dest) = some i)
    (hLess : ¬ i < best.min_length)
    (hCache : best.min_cache ≠ 0 → best'.min_cache ≠ 0)
    (hLength : best'.min_length = best.min_length)
    (hRoute : best'.route = best.route) :
    Shortest dest (seen ++ [p]) best' := by
  rcases findIdx_spec hFirst with ⟨hRoom, _, hLeast⟩
  have hLe := p.len_le
  rw [Path.hosts_length, Path.length] at hRoom
  have hSome : best.min_cache ≠ 0 := by
    intro hZero
    have hMissing := hBest.missing hZero
    omega
  have hOld := hBest.found hSome
  constructor
  case missing =>
    exact fun hZero => absurd hZero (hCache hSome)
  case found =>
    intro _
    rw [hRoute, hLength]
    exact ⟨List.mem_append_left _ hOld.1, hOld.2⟩
  case least =>
    intro q hq k hk
    rw [hLength]
    rcases List.mem_append.mp hq with hSeen | hNew
    · exact hBest.least q hSeen k hk
    · rw [List.mem_singleton] at hNew
      rw [hNew] at hk
      exact (not_lt.mp hLess).trans (hLeast k hk)

theorem primary
    (hBest : Shortest dest seen best)
    {p : Path}
    {i : Nat}
    (index : Nat)
    (hFirst : p.hosts.findIdx? (· = dest) = some i) :
    Shortest dest (seen ++ [p])
      (best.primary (i, p, index)) := by
  unfold Search.primary
  by_cases hLess : i < best.min_length
  · simp only [if_pos hLess]
    exact hBest.shorter hFirst hLess (by simp) rfl rfl
  · simp only [if_neg hLess]
    exact hBest.longer hFirst hLess (fun _ => by simp) rfl
      rfl

theorem secondary
    (hBest : Shortest dest seen best)
    {p : Path}
    {i : Nat}
    (index : Nat)
    (hFirst : p.hosts.findIdx? (· = dest) = some i) :
    Shortest dest (seen ++ [p])
      (best.secondary (i, p, index)) := by
  unfold Search.secondary
  by_cases hLess : i < best.min_length
  · simp only [if_pos hLess]
    exact hBest.shorter hFirst hLess (by simp) rfl rfl
  · simp only [if_neg hLess]
    exact hBest.longer hFirst hLess id rfl rfl

end Shortest

namespace MobiCache

theorem searchPrimary_spec
    (m : MobiCache)
    (dest : Host) :
    Shortest dest m.primary_cache.cache
        (Search.overLines Search.primary m.primary_cache dest
          m.primary_cache.size 0 Search.start) ∧
      (Search.overLines Search.primary m.primary_cache dest
        m.primary_cache.size 0 Search.start).min_cache ≠ 1 := by
  refine @Search.overLines_spec dest Search.primary
    m.primary_cache
    (fun seen best =>
      Shortest dest seen best ∧ best.min_cache ≠ 1)
    ?_ ?_ m.primary_cache.size [] m.primary_cache.cache
    Search.start rfl le_rfl ⟨.start dest, by decide⟩
  · intro seen more best hBest hMore
    exact ⟨hBest.1.skip hMore, hBest.2⟩
  · intro seen p after i best hBest _ hFirst
    refine ⟨hBest.1.primary _ hFirst, ?_⟩
    simp only [Search.primary]
    split_ifs <;> simp

/- The shortest way of both caches, and the line it is on. -/
theorem searchBoth_spec
    (m : MobiCache)
    (dest : Host) :
    Shortest dest
        (m.primary_cache.cache ++ m.secondary_cache.cache)
        (m.searchBoth dest) ∧
      ((m.searchBoth dest).min_cache = 1 →
        m.secondary_cache.cache[
            (m.searchBoth dest).min_index]? =
          some (m.searchBoth dest).route) := by
  rcases m.searchPrimary_spec dest with ⟨hPrimary, hNot⟩
  refine @Search.overLines_spec dest Search.secondary
    m.secondary_cache
    (fun seen best =>
      Shortest dest (m.primary_cache.cache ++ seen) best ∧
        (best.min_cache = 1 →
          m.secondary_cache.cache[best.min_index]? =
            some best.route))
    ?_ ?_ m.secondary_cache.size [] m.secondary_cache.cache
    _ rfl le_rfl ⟨?_, fun hOne => absurd hOne hNot⟩
  · intro seen more best hBest hMore
    rw [← List.append_assoc]
    exact ⟨hBest.1.skip hMore, hBest.2⟩
  · intro seen p after i best hBest hCache hFirst
    rw [← List.append_assoc]
    refine ⟨hBest.1.secondary _ hFirst, ?_⟩
    unfold Search.secondary
    by_cases hLess : i < best.min_length
    · simp only [if_pos hLess]
      intro _
      rw [hCache, List.getElem?_append_right le_rfl,
        Nat.sub_self]
      rfl
    · simp only [if_neg hLess]
      exact hBest.2
  · rw [List.append_nil]
    exact hPrimary

end MobiCache

end Dsr

end Ns2

------------------------------------------------------------
-- Routes That Come In
------------------------------------------------------------

namespace Ns2

namespace Dsr

namespace MobiCache

/- No route, or one from this node that visits no host twice. -/
def IsRoute
    (m : MobiCache)
    (l : List Host) : Prop :=
  l = [] ∨
    (2 ≤ l.length ∧ (∃ host ∈ l.head?, m.IsOwn host) ∧
      l.Nodup)

variable {m : MobiCache}

theorem pre_addRoute_spec
    (hValid : m.net_id.toHost ≠ invalid_addr)
    {route : Path}
    (hNodup : route.hosts.Nodup)
    (t : Rat)
    (who_from : Host) :
    ∃ r, m.pre_addRoute route t who_from = some r ∧
      ∀ rt, r = some rt → m.IsRoute rt.hosts := by
  unfold pre_addRoute
  rw [if_neg hValid]
  by_cases hShort : route.length < 2
  · exact ⟨none, if_pos hShort, nofun⟩
  · rw [if_neg hShort]
    by_cases hOwn : ∃ host ∈ route.hosts.head?, m.IsOwn host
    · refine ⟨_, if_pos hOwn, ?_⟩
      rintro rt ⟨⟩
      rw [hosts_labelled]
      refine Or.inr ⟨?_, hOwn, hNodup⟩
      rw [Path.hosts_length]
      exact not_lt.mp hShort
    · exact ⟨none, if_neg hOwn, nofun⟩

/- The part of a route that starts with us. -/
theorem subpath_spec
    {p : Path}
    {c : Nat}
    (hNodup : p.hosts.Nodup)
    (hOwn : ∃ host ∈ p.hosts[c]?, m.IsOwn host) :
    ∃ r, subpath p c = some r ∧
      ∀ stub, r = some stub → m.IsRoute stub.hosts := by
  rcases hOwn with ⟨host, hHost, hOwn⟩
  have hLess : c < p.path.length := by
    have hBound := (List.getElem?_eq_some_iff.mp hHost).1
    rwa [Path.hosts_length] at hBound
  unfold subpath
  by_cases hLast : c = p.length - 1
  · exact ⟨none, if_pos hLast, nofun⟩
  · rw [if_neg hLast]
    rcases CopyIntoPath_spec Path.new p c rfl hLess.le with
      ⟨q, hCopy, hPath⟩
    have hHosts : q.hosts = p.hosts.drop c := by
      rw [Path.hosts, hPath, List.map_drop]
      rfl
    refine ⟨some q, ?_, ?_⟩
    · rw [hCopy]
      rfl
    · rintro stub ⟨⟩
      rw [hHosts]
      refine Or.inr ⟨?_, ⟨host, ?_, hOwn⟩, ?_⟩
      · rw [List.length_drop, Path.hosts_length]
        rw [Path.length] at hLast ⊢
        omega
      · rw [List.head?_drop]
        exact hHost
      · exact hNodup.sublist (List.drop_sublist _ _)

/- A route that we are not on, behind the assumed link. -/
theorem overheard_spec
    {p : Path}
    (hNodup : p.hosts.Nodup)
    (hNot : ∀ host ∈ p.hosts, ¬ m.IsOwn host)
    (hIndex : 0 ≤ p.index ∧ p.index ≤ p.length) :
    ∃ r, m.overheard p = some r ∧
      ∀ stub, r = some stub → m.IsRoute stub.hosts := by
  unfold overheard
  by_cases hUse : m.cache_use_overheard_routes = true
  · rw [if_pos hUse]
    by_cases hZero : p.index = 0
    · exact ⟨none, if_pos hZero, nofun⟩
    · have hPos : ¬ p.index - 1 < 0 := by omega
      simp only [if_neg hZero, if_neg hPos]
      let own : Path :=
        { path := [m.net_id]
          len_le := by simp [MAX_SR_LEN]
          cur_index := 0 }
      have hOwn : Path.new.appendToPath m.net_id =
          some own := rfl
      rcases own.appendWhile_spec
          (p.path.drop (p.index - 1).toNat) with
        ⟨q, hWhile, hPath⟩
      have hHosts : q.hosts = m.net_id.toHost ::
          (p.hosts.drop (p.index - 1).toNat).take 15 := by
        rw [Path.hosts, hPath, List.map_append,
          List.map_take, List.map_drop]
        rfl
      refine ⟨some q, ?_, ?_⟩
      · rw [hOwn, Option.bind_some, hWhile]
        rfl
      · rintro stub ⟨⟩
        rw [hHosts]
        refine Or.inr ⟨?_, ⟨m.net_id.toHost, rfl, Or.inl rfl⟩,
          List.nodup_cons.mpr ⟨?_, ?_⟩⟩
        · rw [List.length_cons, List.length_take,
            List.length_drop, Path.hosts_length]
          omega
        · intro hMem
          have hOn := List.mem_of_mem_drop
            (List.mem_of_mem_take hMem)
          exact hNot _ hOn (Or.inl rfl)
        · exact (hNodup.sublist
            (List.drop_sublist _ _)).sublist
              (List.take_sublist _ _)
  · exact ⟨none, if_neg hUse, nofun⟩

theorem pre_noticeRouteUsed_spec
    {p : Path}
    (hNodup : p.hosts.Nodup)
    (hIndex : 0 ≤ p.index ∧ p.index ≤ p.length)
    (t : Rat)
    (who_from : Host) :
    ∃ r, m.pre_noticeRouteUsed p t who_from = some r ∧
      ∀ stub, r = some stub → m.IsRoute stub.hosts := by
  unfold pre_noticeRouteUsed
  by_cases hShort : p.length < 2
  · exact ⟨none, if_pos hShort, nofun⟩
  rw [if_neg hShort]
  by_cases hIgnore : m.cache_ignore_hints = true
  · exact ⟨none, if_pos hIgnore, nofun⟩
  rw [if_neg hIgnore]
  cases hFirst :
      p.hosts.findIdx? (fun host => m.IsOwn host) with
  | some c =>
      rcases List.findIdx?_eq_some_iff_getElem.mp hFirst with
        ⟨hc, hOwn, _⟩
      have hAt : ∃ host ∈ p.hosts[c]?, m.IsOwn host :=
        ⟨p.hosts[c], List.getElem?_eq_getElem hc,
          of_decide_eq_true hOwn⟩
      rcases subpath_spec hNodup hAt with ⟨r, hSub, hRoute⟩
      refine ⟨r.map (·.labelled who_from t), ?_, ?_⟩
      · simp only [hSub, Option.map_some]
      · intro stub hStub
        rcases Option.map_eq_some_iff.mp hStub with
          ⟨q, hq, rfl⟩
        rw [hosts_labelled]
        exact hRoute q hq
  | none =>
      have hNot : ∀ host ∈ p.hosts, ¬ m.IsOwn host := by
        intro host hMem
        have hNone :=
          List.findIdx?_eq_none_iff.mp hFirst host hMem
        exact of_decide_eq_false hNone
      rcases overheard_spec hNodup hNot hIndex with
        ⟨r, hOver, hRoute⟩
      refine ⟨r.map
        (fun stub => (stub.labelled who_from t).firstUntested),
        ?_, ?_⟩
      · simp only [hOver, Option.map_some]
      · intro stub hStub
        rcases Option.map_eq_some_iff.mp hStub with
          ⟨q, hq, rfl⟩
        rw [hosts_firstUntested, hosts_labelled]
        exact hRoute q hq

end MobiCache

end Dsr

end Ns2

------------------------------------------------------------
-- Calls
------------------------------------------------------------

namespace Ns2

namespace Dsr

/- The node has an address, and all lines are routes. -/
structure Sound (m : MobiCache) : Prop where
  valid : m.net_id.toHost ≠ invalid_addr
  primary_lt :
    m.primary_cache.victim_ptr < m.primary_cache.size
  secondary_lt :
    m.secondary_cache.victim_ptr < m.secondary_cache.size
  routes : ∀ l ∈ m.lines, m.IsRoute l

/- The addresses are those of the node. -/
structure SameNode (m m' : MobiCache) : Prop where
  net_eq : m'.net_id = m.net_id
  mac_eq : m'.MAC_id = m.MAC_id

/- Every line is cut from an old one, or one that is added. -/
def FromLines
    (m m' : MobiCache)
    (added : Option Path) : Prop :=
  ∀ l ∈ m'.lines, l = [] ∨ (∃ l' ∈ m.lines, l <+: l') ∨
    ∃ rt, added = some rt ∧ l = rt.hosts

theorem SameNode.isRoute
    {m m' : MobiCache}
    (hNode : SameNode m m')
    {l : List Host}
    (hRoute : m.IsRoute l) :
    m'.IsRoute l := by
  unfold MobiCache.IsRoute MobiCache.IsOwn at *
  rw [hNode.net_eq, hNode.mac_eq]
  exact hRoute

namespace MobiCache

variable {m : MobiCache}

theorem mem_lines
    {l : List Host} :
    l ∈ m.lines ↔
      l ∈ m.primary_cache.lines ∨
        l ∈ m.secondary_cache.lines :=
  List.mem_append

/- Every line is an old one or the route that is added. -/
theorem adds_spec
    (hm : Sound m)
    {m' : MobiCache}
    {rt : Path}
    (hRoute : m.IsRoute rt.hosts)
    (hNode : SameNode m m')
    (hPrimary :
      m'.primary_cache.victim_ptr < m'.primary_cache.size)
    (hSecondary :
      m'.secondary_cache.victim_ptr < m'.secondary_cache.size)
    (hMem : ∀ l ∈ m'.lines, l ∈ m.lines ∨ l = rt.hosts) :
    Sound m' ∧ SameNode m m' ∧ FromLines m m' (some rt) := by
  refine ⟨?_, hNode, ?_⟩
  · constructor
    case valid =>
      rw [hNode.net_eq]
      exact hm.valid
    case primary_lt => exact hPrimary
    case secondary_lt => exact hSecondary
    case routes =>
      intro l hl
      apply hNode.isRoute
      rcases hMem l hl with hOld | rfl
      · exact hm.routes l hOld
      · exact hRoute
  · intro l hl
    rcases hMem l hl with hOld | hNew
    · exact Or.inr (Or.inl ⟨l, hOld, List.prefix_refl l⟩)
    · exact Or.inr (Or.inr ⟨rt, rfl, hNew⟩)

theorem addPrimary_spec
    (hm : Sound m)
    {r : Option Path}
    (hRoute : ∀ rt, r = some rt → m.IsRoute rt.hosts) :
    ∃ m', m.addPrimary r = some m' ∧ Sound m' ∧
      SameNode m m' ∧ FromLines m m' r := by
  cases r with
  | none =>
      refine ⟨m, rfl, hm, ⟨rfl, rfl⟩, ?_⟩
      exact fun l hl =>
        Or.inr (Or.inl ⟨l, hl, List.prefix_refl l⟩)
  | some rt =>
      rcases m.primary_cache.addRoute_spec rt hm.primary_lt
        with ⟨c', n, hAdd, hStores⟩
      refine ⟨{ m with primary_cache := c' }, ?_,
        adds_spec hm (hRoute rt rfl) ⟨rfl, rfl⟩
          hStores.victim_lt hm.secondary_lt ?_⟩
      · rw [addPrimary, hAdd]
        rfl
      · intro l hl
        rcases mem_lines.mp hl with hNew | hOld
        · exact (hStores.mem l hNew).imp_left
            (fun hIn => mem_lines.mpr (Or.inl hIn))
        · exact Or.inl (mem_lines.mpr (Or.inr hOld))

theorem addSecondary_spec
    (hm : Sound m)
    {r : Option Path}
    (hRoute : ∀ stub, r = some stub → m.IsRoute stub.hosts) :
    ∃ m', m.addSecondary r = some m' ∧ Sound m' ∧
      SameNode m m' ∧ FromLines m m' r := by
  cases r with
  | none =>
      refine ⟨m, rfl, hm, ⟨rfl, rfl⟩, ?_⟩
      exact fun l hl =>
        Or.inr (Or.inl ⟨l, hl, List.prefix_refl l⟩)
  | some stub =>
      rcases m.secondary_cache.addRoute_spec stub
        hm.secondary_lt with ⟨c', n, hAdd, hStores⟩
      refine ⟨{ m with secondary_cache := c' }, ?_,
        adds_spec hm (hRoute stub rfl) ⟨rfl, rfl⟩
          hm.primary_lt hStores.victim_lt ?_⟩
      · rw [addSecondary, hAdd]
        rfl
      · intro l hl
        rcases mem_lines.mp hl with hOld | hNew
        · exact Or.inl (mem_lines.mpr (Or.inl hOld))
        · exact (hStores.mem l hNew).imp_left
            (fun hIn => mem_lines.mpr (Or.inr hIn))

/- A part of a route with two hosts at least is a route. -/
theorem IsRoute.part
    {l l' : List Host}
    (hRoute : m.IsRoute l)
    (hPrefix : l' <+: l)
    (hLength : 2 ≤ l.length → 2 ≤ l'.length) :
    m.IsRoute l' := by
  rcases hRoute with rfl | ⟨hTwo, ⟨host, hHead, hOwn⟩, hNodup⟩
  · exact Or.inl (List.prefix_nil.mp hPrefix)
  · have hTwo' := hLength hTwo
    refine Or.inr ⟨hTwo', ⟨host, ?_, hOwn⟩,
      hNodup.sublist hPrefix.sublist⟩
    rcases l' with _ | ⟨x, l'⟩
    · simp at hTwo'
    · rcases hPrefix with ⟨more, rfl⟩
      exact hHead

theorem noticeDeadLink_spec
    (hm : Sound m)
    (a b : Host) :
    Sound (m.noticeDeadLink a b) ∧
      FromLines m (m.noticeDeadLink a b) none ∧
      ∀ l ∈ (m.noticeDeadLink a b).lines,
        ¬ [a, b] <:+: l := by
  have hCut : ∀ l ∈ (m.noticeDeadLink a b).lines,
      ∃ p : Path, p.hosts ∈ m.lines ∧
        l = (cutLink a b p).hosts := by
    intro l hl
    rcases mem_lines.mp hl with hIn | hIn
    · rcases List.mem_map.mp hIn with ⟨q, hq, rfl⟩
      rcases List.mem_map.mp hq with ⟨p, hp, rfl⟩
      exact ⟨p, mem_lines.mpr
        (Or.inl (List.mem_map_of_mem hp)), rfl⟩
    · rcases List.mem_map.mp hIn with ⟨q, hq, rfl⟩
      rcases List.mem_map.mp hq with ⟨p, hp, rfl⟩
      exact ⟨p, mem_lines.mpr
        (Or.inr (List.mem_map_of_mem hp)), rfl⟩
  refine ⟨?_, ?_, ?_⟩
  · constructor
    case valid => exact hm.valid
    case primary_lt =>
      exact hm.primary_lt.trans_eq (List.length_map _).symm
    case secondary_lt =>
      exact hm.secondary_lt.trans_eq (List.length_map _).symm
    case routes =>
      intro l hl
      rcases hCut l hl with ⟨p, hp, rfl⟩
      rcases cutLink_prefix a b p with
        hEmpty | ⟨hPrefix, hTwo⟩
      · exact Or.inl hEmpty
      · exact (hm.routes _ hp).part hPrefix hTwo
  · intro l hl
    rcases hCut l hl with ⟨p, hp, rfl⟩
    rcases cutLink_prefix a b p with hEmpty | ⟨hPrefix, _⟩
    · exact Or.inl hEmpty
    · exact Or.inr (Or.inl ⟨_, hp, hPrefix⟩)
  · intro l hl
    rcases hCut l hl with ⟨p, _, rfl⟩
    exact cutLink_not_infix a b p

theorem hosts_killLine
    (c : Cache)
    (i n : Nat) :
    (killLine c i n).lines = c.lines.set i [] := by
  unfold killLine
  rw [Cache.lines_write, Path.hosts_setLength, List.take_zero]

/-
  A promoted line moves to the primary cache.  No host is
  lost but those on the path it drives out there.
-/
theorem promote_spec
    (hm : Sound m)
    {i : Nat}
    (hi : i < m.secondary_cache.size) :
    ∃ m', m.promote i = some m' ∧ Sound m' ∧
      SameNode m m' ∧ FromLines m m' none ∧
      ∀ l ∈ m.lines,
        (∃ l' ∈ m'.lines, l <+: l') ∨
          ∃ v, m.primary_cache.evicted
              (m.secondary_cache.line i) = some v ∧
            v.hosts = l := by
  have hLine : (m.secondary_cache.line i).hosts ∈ m.lines :=
    mem_lines.mpr (Or.inr (Cache.line_mem hi))
  rcases m.primary_cache.addRoute_spec
    (m.secondary_cache.line i) hm.primary_lt with
    ⟨c', n, hAdd, hStores⟩
  let m' : MobiCache :=
    { m with
      primary_cache := c'
      secondary_cache := killLine m.secondary_cache i n }
  have hMem : ∀ l ∈ m'.lines, l = [] ∨ l ∈ m.lines := by
    intro l hl
    rcases mem_lines.mp hl with hIn | hIn
    · rcases hStores.mem l hIn with hOld | rfl
      · exact Or.inr (mem_lines.mpr (Or.inl hOld))
      · exact Or.inr hLine
    · rw [hosts_killLine] at hIn
      rcases List.mem_or_eq_of_mem_set hIn with hOld | hNew
      · exact Or.inr (mem_lines.mpr (Or.inr hOld))
      · exact Or.inl hNew
  refine ⟨m', ?_, ?_, ⟨rfl, rfl⟩, ?_, ?_⟩
  · rw [promote, hAdd]
    rfl
  · constructor
    case valid => exact hm.valid
    case primary_lt => exact hStores.victim_lt
    case secondary_lt =>
      exact hm.secondary_lt.trans_eq
        (Cache.size_write _ _ _).symm
    case routes =>
      intro l hl
      rcases hMem l hl with hEmpty | hOld
      · exact Or.inl hEmpty
      · exact hm.routes l hOld
  · intro l hl
    rcases hMem l hl with hEmpty | hOld
    · exact Or.inl hEmpty
    · exact Or.inr (Or.inl ⟨l, hOld, List.prefix_refl l⟩)
  · intro l hl
    rcases mem_lines.mp hl with hIn | hIn
    · refine (hStores.kept l hIn).imp_left ?_
      rintro ⟨l', hl', hPrefix⟩
      exact ⟨l', mem_lines.mpr (Or.inl hl'), hPrefix⟩
    · refine Or.inl ?_
      rcases Cache.mem_write (i := i) Path.new hIn with
        hStays | rfl
      · refine ⟨l, mem_lines.mpr (Or.inr ?_),
          List.prefix_refl l⟩
        rw [Cache.lines_write] at hStays
        rw [hosts_killLine]
        exact hStays
      · rcases hStores.stored with ⟨l', hl', hPrefix⟩
        exact ⟨l', mem_lines.mpr (Or.inl hl'), hPrefix⟩

/- What a search does to the cache, and what it returns. -/
theorem findRoute_spec
    (hm : Sound m)
    (dest : Host)
    (for_me : Bool) :
    ∃ m' r, m.findRoute dest for_me = some (m', r) ∧
      Sound m' ∧ SameNode m m' ∧ FromLines m m' none ∧
      (r.isSome ↔ ∃ l ∈ m.lines, dest ∈ l) ∧
      (∀ route, r = some route →
        (∃ l ∈ m.lines, route.hosts <+: l ∧
          route.hosts.getLast? = some dest) ∧
        ∀ l ∈ m.lines, ∀ k, l[k]? = some dest →
          route.length ≤ k + 1) ∧
      ∀ l ∈ m.lines,
        (∃ l' ∈ m'.lines, l <+: l') ∨
          ∃ v, m.evicted dest for_me = some v ∧
            v.hosts = l := by
  rcases m.searchBoth_spec dest with ⟨hBest, hPlace⟩
  have hLines : m.lines =
      (m.primary_cache.cache ++ m.secondary_cache.cache).map
        Path.hosts := by
    rw [List.map_append]
    rfl
  have hMoved : ∃ m', (if (m.searchBoth dest).min_cache = 1 ∧
        for_me then m.promote (m.searchBoth dest).min_index
      else some m) = some m' ∧ Sound m' ∧
      SameNode m m' ∧ FromLines m m' none ∧
      ∀ l ∈ m.lines,
        (∃ l' ∈ m'.lines, l <+: l') ∨
          ∃ v, m.evicted dest for_me = some v ∧
            v.hosts = l := by
    unfold evicted
    by_cases hPromote :
        (m.searchBoth dest).min_cache = 1 ∧ for_me
    · simp only [if_pos hPromote]
      have hAt := hPlace hPromote.1
      exact promote_spec hm
        (List.getElem?_eq_some_iff.mp hAt).1
    · simp only [if_neg hPromote]
      refine ⟨m, rfl, hm, ⟨rfl, rfl⟩, ?_, ?_⟩
      · exact fun l hl =>
          Or.inr (Or.inl ⟨l, hl, List.prefix_refl l⟩)
      · exact fun l hl =>
          Or.inl ⟨l, hl, List.prefix_refl l⟩
  rcases hMoved with ⟨m', hMove, hm', hNode, hFrom, hKept⟩
  have hLeast : ∀ l ∈ m.lines, ∀ k, l[k]? = some dest →
      (m.searchBoth dest).min_length ≤ k := by
    intro l hl k hk
    rw [hLines] at hl
    rcases List.mem_map.mp hl with ⟨p, hp, rfl⟩
    exact hBest.least p hp k hk
  unfold findRoute
  rw [if_neg hm.valid]
  by_cases hCache : (m.searchBoth dest).min_cache = 0
  · refine ⟨m', none, ?_, hm', hNode, hFrom, ?_, nofun, hKept⟩
    · simp only [hMove, Option.map_some]
      rw [if_neg (not_not.mpr hCache)]
    · refine iff_of_false (by simp) ?_
      rintro ⟨l, hl, hMem⟩
      rcases List.mem_iff_getElem?.mp hMem with ⟨k, hk⟩
      have hLong := hLeast l hl k hk
      have hLess : k < l.length :=
        (List.getElem?_eq_some_iff.mp hk).1
      have hMissing := hBest.missing hCache
      rw [hLines] at hl
      rcases List.mem_map.mp hl with ⟨p, _, rfl⟩
      have hLe := p.len_le
      rw [Path.hosts_length, Path.length] at hLess
      omega
  · rcases hBest.found hCache with ⟨hIn, hAt⟩
    have hRoute : (m.searchBoth dest).route.hosts ∈ m.lines := by
      rw [hLines]
      exact List.mem_map_of_mem hIn
    refine ⟨m', some ((m.searchBoth dest).route.setLength
        ((m.searchBoth dest).min_length + 1)), ?_, hm', hNode,
      hFrom, ?_, ?_, hKept⟩
    · simp only [hMove, Option.map_some]
      rw [if_pos hCache]
    · refine iff_of_true (by simp) ?_
      exact ⟨_, hRoute, List.mem_of_getElem? hAt⟩
    · rintro route ⟨⟩
      refine ⟨⟨_, hRoute, ?_, ?_⟩, ?_⟩
      · rw [Path.hosts_setLength]
        exact List.take_prefix _ _
      · rw [Path.hosts_setLength, List.take_add_one, hAt]
        exact List.getLast?_concat
      · intro l hl k hk
        have hLe := hLeast l hl k hk
        rw [← Path.hosts_length, Path.hosts_setLength,
          List.length_take]
        omega

end MobiCache

end Dsr

end Ns2

------------------------------------------------------------
-- Runs
------------------------------------------------------------

namespace Ns2

namespace Dsr

namespace MobiCache

variable {m : MobiCache}

/- No call fails an assertion, and every call keeps routes. -/
theorem call_spec
    (hm : Sound m)
    {c : CacheCall}
    (hAllowed : c.Allowed) :
    ∃ m' r, m.call c = some m' ∧ m.added c = some r ∧
      Sound m' ∧ SameNode m m' ∧ FromLines m m' r := by
  cases c with
  | addRoute route t who_from =>
      rcases pre_addRoute_spec hm.valid hAllowed t who_from
        with ⟨r, hPre, hRoute⟩
      rcases addPrimary_spec hm hRoute with
        ⟨m', hAdd, hSpec⟩
      refine ⟨m', r, ?_, hPre, hSpec⟩
      rw [call, addRoute, hPre]
      exact hAdd
  | noticeRouteUsed p t who_from =>
      rcases @pre_noticeRouteUsed_spec m p hAllowed.1
        hAllowed.2 t who_from with ⟨r, hPre, hRoute⟩
      rcases addSecondary_spec hm hRoute with
        ⟨m', hAdd, hSpec⟩
      refine ⟨m', r, ?_, hPre, hSpec⟩
      rw [call, noticeRouteUsed, hPre]
      exact hAdd
  | noticeDeadLink a b =>
      rcases noticeDeadLink_spec hm a b with
        ⟨hSound, hFrom, _⟩
      exact ⟨_, none, rfl, rfl, hSound, ⟨rfl, rfl⟩, hFrom⟩
  | findRoute dest for_me =>
      rcases findRoute_spec hm dest for_me with
        ⟨m', r, hFind, hSound, hNode, hFrom, _⟩
      refine ⟨m', none, ?_, rfl, hSound, hNode, hFrom⟩
      rw [call, hFind]
      rfl

theorem sound_new
    {net_id MAC_id : ID}
    {ignore overheard : Bool}
    (hValid : net_id.toHost ≠ invalid_addr) :
    Sound (new net_id MAC_id ignore overheard) := by
  constructor
  case valid => exact hValid
  case primary_lt => exact Nat.zero_lt_succ 29
  case secondary_lt => exact Nat.zero_lt_succ 63
  case routes =>
    intro l hl
    have hEmpty : ∀ n, ∀ l ∈ (Cache.new n).lines,
        l = [] := by
      intro n l hl
      rcases List.mem_map.mp hl with ⟨p, hp, rfl⟩
      rw [List.eq_of_mem_replicate hp]
      rfl
    rcases mem_lines.mp hl with hIn | hIn
    · exact Or.inl (hEmpty 30 l hIn)
    · exact Or.inl (hEmpty 64 l hIn)

/- Allowed calls run through, and keep the cache sound. -/
theorem run_spec
    (hm : Sound m)
    {calls : List CacheCall}
    (hAllowed : ∀ c ∈ calls, c.Allowed) :
    ∃ m', PartialRun.run call m calls = some m' ∧
      Sound m' ∧ SameNode m m' := by
  induction calls generalizing m with
  | nil => exact ⟨m, rfl, hm, ⟨rfl, rfl⟩⟩
  | cons c calls ih =>
      have hSplit := List.forall_mem_cons.mp hAllowed
      rcases call_spec hm hSplit.1 with
        ⟨m₁, _, hCall, _, hm₁, hNode₁, _⟩
      rcases ih hm₁ hSplit.2 with ⟨m', hRun, hm', hNode'⟩
      refine ⟨m', ?_, hm',
        ⟨hNode'.net_eq.trans hNode₁.net_eq,
          hNode'.mac_eq.trans hNode₁.mac_eq⟩⟩
      rw [PartialRun.run, hCall]
      exact hRun

/- No call adds a route with the link from `a` to `b`. -/
def NeverAdded
    (a b : Host)
    (m : MobiCache)
    (c : CacheCall) : Prop :=
  ∀ rt, m.added c = some (some rt) → ¬ [a, b] <:+: rt.hosts

/- A link that is on no line comes back only when added. -/
theorem run_not_infix
    {a b : Host}
    (hm : Sound m)
    (hNone : ∀ l ∈ m.lines, ¬ [a, b] <:+: l)
    {calls : List CacheCall}
    (hAllowed : ∀ c ∈ calls, c.Allowed)
    (hNever :
      PartialRun.Throughout call (NeverAdded a b) m calls)
    {m' : MobiCache}
    (hRun : PartialRun.run call m calls = some m') :
    ∀ l ∈ m'.lines, ¬ [a, b] <:+: l := by
  have hInv : Sound m' ∧ ∀ l ∈ m'.lines, ¬ [a, b] <:+: l := by
    refine @PartialRun.invariant_if _ _ call
      (fun m => Sound m ∧ ∀ l ∈ m.lines, ¬ [a, b] <:+: l)
      (fun m c => c.Allowed ∧ NeverAdded a b m c)
      ?_ m m' calls ⟨hm, hNone⟩ hRun ?_
    · rintro m c m' ⟨hm, hNone⟩ ⟨hNow, hNot⟩ hCall
      rcases call_spec hm hNow with
        ⟨m₁, r, hCall₁, hAdded, hm₁, _, hFrom⟩
      rw [hCall] at hCall₁
      cases hCall₁
      refine ⟨hm₁, ?_⟩
      intro l hl hInfix
      rcases hFrom l hl with
        rfl | ⟨l', hl', hPrefix⟩ | ⟨rt, rfl, rfl⟩
      · simp at hInfix
      · exact hNone l' hl' (hInfix.trans hPrefix.isInfix)
      · exact hNot rt hAdded hInfix
    · intro before c after m₁ hEq hBefore
      refine ⟨hAllowed c ?_, hNever before c after m₁ hEq
        hBefore⟩
      rw [hEq]
      exact List.mem_append_right _ List.mem_cons_self
  exact hInv.2

/-
  The path cache of a node is correct after any calls.  No
  assertion fails.  Every line is empty or a route of two
  hosts at least that starts with this node and visits no
  host twice.  A dead link is on no line, and on no route
  that is found, until a route with it is added.  A search
  finds a route exactly if the host is on a line; the route
  is the start of a line, up to the host, and there is no
  shorter one.  No search loses a host but those on the path
  that a promotion drives out.
-/
theorem cache_correct
    (net_id MAC_id : ID)
    (ignore overheard : Bool)
    (hValid : net_id.toHost ≠ invalid_addr)
    (calls : List CacheCall)
    (hAllowed : ∀ c ∈ calls, c.Allowed) :
    ∃ m, PartialRun.run call
        (new net_id MAC_id ignore overheard) calls = some m ∧
      (∀ l ∈ m.lines, l = [] ∨
        (2 ≤ l.length ∧
          (∃ host ∈ l.head?,
            host = net_id.toHost ∨ host = MAC_id.toHost) ∧
          l.Nodup)) ∧
      (∀ before a b after m₁,
        calls = before ++ .noticeDeadLink a b :: after →
        PartialRun.run call
            (new net_id MAC_id ignore overheard)
            (before ++ [.noticeDeadLink a b]) = some m₁ →
        PartialRun.Throughout call (NeverAdded a b) m₁
            after →
          (∀ l ∈ m.lines, ¬ [a, b] <:+: l) ∧
          ∀ dest for_me m' route,
            m.findRoute dest for_me = some (m', some route) →
              ¬ [a, b] <:+: route.hosts) ∧
      ∀ dest for_me,
        ∃ m' r, m.findRoute dest for_me = some (m', r) ∧
          (r.isSome ↔ ∃ l ∈ m.lines, dest ∈ l) ∧
          (∀ route, r = some route →
            (∃ l ∈ m.lines, route.hosts <+: l ∧
              route.hosts.getLast? = some dest) ∧
            ∀ l ∈ m.lines, ∀ k, l[k]? = some dest →
              route.length ≤ k + 1) ∧
          ∀ l ∈ m.lines, ∀ host ∈ l,
            (∃ l' ∈ m'.lines, host ∈ l') ∨
              ∃ v, m.evicted dest for_me = some v ∧
                host ∈ v.hosts := by
  have hNew : Sound (new net_id MAC_id ignore overheard) :=
    sound_new hValid
  rcases run_spec hNew hAllowed with ⟨m, hRun, hm, hNode⟩
  refine ⟨m, hRun, ?_, ?_, ?_⟩
  · intro l hl
    have hRoute := hm.routes l hl
    unfold IsRoute IsOwn at hRoute
    rw [hNode.net_eq, hNode.mac_eq] at hRoute
    exact hRoute
  · intro before a b after m₁ hCalls hDead hNever
    have hOn : ∀ c ∈ before ++ after, c.Allowed := by
      intro c hc
      apply hAllowed
      rw [hCalls]
      rcases List.mem_append.mp hc with hIn | hIn
      · exact List.mem_append_left _ hIn
      · exact List.mem_append_right _
          (List.mem_cons_of_mem _ hIn)
    rcases run_spec hNew (fun c hc =>
        hOn c (List.mem_append_left _ hc)) with
      ⟨m₀, hBefore, hm₀, _⟩
    have hStep : m₁ = m₀.noticeDeadLink a b := by
      rw [PartialRun.run_append, hBefore] at hDead
      cases hDead
      rfl
    rcases noticeDeadLink_spec hm₀ a b with
      ⟨hSound, _, hNone⟩
    rw [← hStep] at hSound hNone
    have hRest : PartialRun.run call m₁ after = some m := by
      have hAll : calls =
          (before ++ [.noticeDeadLink a b]) ++ after := by
        rw [hCalls, List.append_assoc]
        rfl
      rw [hAll, PartialRun.run_append, hDead] at hRun
      exact hRun
    have hLines := run_not_infix hSound hNone
      (fun c hc => hOn c (List.mem_append_right _ hc))
      hNever hRest
    refine ⟨hLines, ?_⟩
    intro dest for_me m' route hFind hInfix
    rcases findRoute_spec hm dest for_me with
      ⟨m₂, r, hFound, _, _, _, _, hRoute, _⟩
    rw [hFind] at hFound
    cases hFound
    rcases (hRoute route rfl).1 with ⟨l, hl, hPrefix, _⟩
    exact hLines l hl (hInfix.trans hPrefix.isInfix)
  · intro dest for_me
    rcases findRoute_spec hm dest for_me with
      ⟨m', r, hFind, _, _, _, hSome, hRoute, hKept⟩
    refine ⟨m', r, hFind, hSome, hRoute, ?_⟩
    intro l hl host hHost
    rcases hKept l hl with
      ⟨l', hl', hPrefix⟩ | ⟨v, hEvicted, rfl⟩
    · exact Or.inl ⟨l', hl', hPrefix.subset hHost⟩
    · exact Or.inr ⟨v, hEvicted, hHost⟩

def host1 : ID := ID.new 1 .IP
def mac1 : ID := ID.new 1 .MAC
def host2 : ID := ID.new 2 .IP
def host3 : ID := ID.new 3 .IP

/- The index `cur_index` on the route from 2 to 3. -/
def remote (cur_index : Int) : Path where
  path := [host2, host3]
  len_le := by decide
  cur_index := cur_index

/-
  A route that was overheard, a dead link on it, and the
  search for a host on what is left.
-/
theorem cache_correct_overheard :
    ∃ m, PartialRun.run call (new host1 mac1 false true)
        [.noticeRouteUsed (remote 1) 0 host2.toHost,
          .noticeDeadLink host2.toHost host3.toHost] =
          some m ∧
      (∀ l ∈ m.lines, l = [] ∨
        (2 ≤ l.length ∧
          (∃ host ∈ l.head?,
            host = host1.toHost ∨ host = mac1.toHost) ∧
          l.Nodup)) ∧
      ∃ m' r, m.findRoute host2.toHost true = some (m', r) ∧
        (r.isSome ↔ ∃ l ∈ m.lines, host2.toHost ∈ l) := by
  have hAllowed : ∀ c ∈
      [CacheCall.noticeRouteUsed (remote 1) 0 host2.toHost,
        .noticeDeadLink host2.toHost host3.toHost],
      c.Allowed := by
    simp only [List.forall_mem_cons]
    refine ⟨⟨by decide, by decide, by decide⟩, trivial, nofun⟩
  rcases cache_correct host1 mac1 false true (by decide) _
    hAllowed with ⟨m, hRun, hRoutes, _, hFind⟩
  rcases hFind host2.toHost true with
    ⟨m', r, hResult, hSome, _⟩
  exact ⟨m, hRun, hRoutes, m', r, hResult, hSome⟩

/-
  With an index behind the end of its route, all there is of
  an overheard route is this node: a line with one host.
-/
theorem overheard_single_host :
    (remote 3).hosts.Nodup ∧
      ∃ m, PartialRun.run call (new host1 mac1 false true)
          [.noticeRouteUsed (remote 3) 0 host2.toHost] =
            some m ∧
        ∃ l ∈ m.lines, l ≠ [] ∧ ¬ 2 ≤ l.length := by
  refine ⟨by decide, _, rfl, [host1.toHost], ?_, by decide,
    by decide⟩
  exact mem_lines.mpr (Or.inr List.mem_cons_self)

end MobiCache

end Dsr

end Ns2
