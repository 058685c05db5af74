import Ns2.Linkstate.Routing

/-
  What updates do to the record of a node.

  An update of the same neighbors, none of them twice, takes
  the place of the record.  An update of the node's own
  record that changes nothing leaves it as it is.

  Main declarations:
    * `LsDatabase.neighbors`
    * `LsDatabase.neighbors_updateLinks`
    * `LsDatabase.updateLinks_unchanged`
    * `LsDatabase.updateLinks_replaces`
    * `LsDatabase.find_update`
-/

------------------------------------------------------------
-- One link
------------------------------------------------------------

namespace Ns2

namespace LsDatabase

def neighbors (links : List LsLink) : List Int :=
  links.map fun l => l.neighborId

variable {own : Bool}
variable {new : LsLink}
variable {links : List LsLink}

theorem updateLink_same
    {old : LsLink}
    (hSame : new.neighborId = old.neighborId) :
    updateLink own new (old :: links) =
      ({ old with
          status := new.status
          cost := new.cost
          sequenceNumber :=
            if own then old.sequenceNumber
            else new.sequenceNumber } :: links,
        decide (new.status ≠ old.status) ||
          decide (new.cost ≠ old.cost)) := by
  exact if_pos hSame

theorem updateLink_ne
    {old : LsLink}
    (hNe : new.neighborId ≠ old.neighborId) :
    updateLink own new (old :: links) =
      (old :: (updateLink own new links).1,
        (updateLink own new links).2) := by
  exact if_neg hNe

theorem neighbors_updateLink
    (hKnown : new.neighborId ∈ neighbors links) :
    neighbors (updateLink own new links).1 =
      neighbors links := by
  induction links with
  | nil => cases hKnown
  | cons old rest ih =>
      by_cases hSame : new.neighborId = old.neighborId
      · rw [updateLink_same hSame]
        rfl
      · have hRest : new.neighborId ∈ neighbors rest := by
          rcases List.mem_cons.mp hKnown with hOld | hMem
          · exact absurd hOld hSame
          · exact hMem
        rw [updateLink_ne hSame]
        exact congrArg (old.neighborId :: ·) (ih hRest)

/- A link of one's own that changes nothing is known. -/
theorem updateLink_unchanged
    (hFlag : (updateLink true new links).2 = false) :
    (updateLink true new links).1 = links ∧
      ∃ old ∈ links,
        old.neighborId = new.neighborId ∧
          old.status = new.status := by
  induction links with
  | nil => cases hFlag
  | cons old rest ih =>
      by_cases hSame : new.neighborId = old.neighborId
      · rw [updateLink_same hSame] at hFlag ⊢
        rcases Bool.or_eq_false_iff.mp hFlag with
          ⟨hStatus, hCost⟩
        have hStatus' : new.status = old.status :=
          not_not.mp (of_decide_eq_false hStatus)
        have hCost' : new.cost = old.cost :=
          not_not.mp (of_decide_eq_false hCost)
        refine ⟨?_, old, List.mem_cons_self, hSame.symm,
          hStatus'.symm⟩
        rw [hStatus', hCost']
        rfl
      · rw [updateLink_ne hSame] at hFlag ⊢
        rcases ih hFlag with ⟨hLinks, l, hl, hId, hStatus⟩
        exact ⟨congrArg (old :: ·) hLinks, l,
          List.mem_cons_of_mem old hl, hId, hStatus⟩

/- The first link to the neighbor is replaced. -/
theorem updateLink_replaces
    {done rest : List LsLink}
    {old : LsLink}
    (hSame : new.neighborId = old.neighborId)
    (hFirst : new.neighborId ∉ neighbors done) :
    (updateLink false new (done ++ old :: rest)).1 =
      done ++ new :: rest := by
  induction done with
  | nil =>
      rw [List.nil_append, updateLink_same hSame, ← hSame]
      rfl
  | cons l done ih =>
      have hNe : new.neighborId ≠ l.neighborId :=
        fun hEq => hFirst (hEq ▸ List.mem_cons_self)
      have hRest : new.neighborId ∉ neighbors done :=
        fun hMem => hFirst (List.mem_cons_of_mem _ hMem)
      rw [List.cons_append, updateLink_ne hNe, ih hRest]
      rfl

end LsDatabase

end Ns2

------------------------------------------------------------
-- All links
------------------------------------------------------------

namespace Ns2

namespace LsDatabase

variable {own : Bool}
variable {old new : List LsLink}

/- One round of the loop over the links of an update. -/
def updateRound
    (own : Bool)
    (r : List LsLink × Bool)
    (link : LsLink) : List LsLink × Bool :=
  ((updateLink own link r.1).1,
    r.2 || (updateLink own link r.1).2)

theorem updateLinks_eq :
    updateLinks own old new =
      new.foldl (updateRound own) (old, false) := by
  rfl

theorem neighbors_updateLinks
    (hKnown : ∀ l ∈ new, l.neighborId ∈ neighbors old) :
    neighbors (updateLinks own old new).1 =
      neighbors old := by
  rw [updateLinks_eq]
  generalize false = flag
  induction new generalizing old flag with
  | nil => rfl
  | cons l rest ih =>
      have hLink :
          neighbors (updateLink own l old).1 =
            neighbors old :=
        neighbors_updateLink (hKnown l List.mem_cons_self)
      rw [List.foldl_cons, updateRound, ih, hLink]
      intro l' hl'
      rw [hLink]
      exact hKnown l' (List.mem_cons_of_mem l hl')

/- A change that was seen is not forgotten. -/
theorem updateRound_flag
    {r : List LsLink × Bool}
    (hFlag : (new.foldl (updateRound own) r).2 = false) :
    r.2 = false := by
  induction new generalizing r with
  | nil => exact hFlag
  | cons l rest ih =>
      have hRound := ih hFlag
      exact (Bool.or_eq_false_iff.mp hRound).1

theorem updateLinks_unchanged
    (hFlag : (updateLinks true old new).2 = false) :
    (updateLinks true old new).1 = old ∧
      ∀ l ∈ new, ∃ l' ∈ old,
        l'.neighborId = l.neighborId ∧
          l'.status = l.status := by
  have hLoop :
      ∀ (rest : List LsLink) (flag : Bool),
        (rest.foldl (updateRound true) (old, flag)).2 = false →
          (rest.foldl (updateRound true) (old, flag)).1 =
              old ∧
            ∀ l ∈ rest, ∃ l' ∈ old,
              l'.neighborId = l.neighborId ∧
                l'.status = l.status := by
    intro rest
    induction rest with
    | nil =>
        intro flag _
        exact ⟨rfl, fun l hl => absurd hl List.not_mem_nil⟩
    | cons l rest ih =>
        intro flag hRest
        rw [List.foldl_cons] at hRest ⊢
        have hLink :=
          (Bool.or_eq_false_iff.mp (updateRound_flag hRest)).2
        rcases updateLink_unchanged hLink with ⟨hSame, hKnown⟩
        rw [updateRound, hSame] at hRest ⊢
        rcases ih _ hRest with ⟨hAll, hOthers⟩
        refine ⟨hAll, ?_⟩
        intro l' hl'
        rcases List.mem_cons.mp hl' with rfl | hMem
        · exact hKnown
        · exact hOthers l' hMem
  exact hLoop new false hFlag

/- The links done already stand first, as the update has them. -/
theorem updateLinks_replaces
    (hSame : neighbors old = neighbors new)
    (hNodup : (neighbors new).Nodup) :
    (updateLinks false old new).1 = new := by
  have hLoop :
      ∀ (rest left done : List LsLink) (flag : Bool),
        neighbors left = neighbors rest →
          (neighbors (done ++ rest)).Nodup →
            (rest.foldl (updateRound false)
              (done ++ left, flag)).1 = done ++ rest := by
    intro rest
    induction rest with
    | nil =>
        intro left done flag hLeft _
        rw [List.map_eq_nil_iff.mp hLeft]
        rfl
    | cons l rest ih =>
        intro left done flag hLeft hDistinct
        cases left with
        | nil => cases hLeft
        | cons l' left =>
            rcases List.cons.inj hLeft with ⟨hId, hLeft'⟩
            have hNotDone :
                l.neighborId ∉ neighbors done := by
              unfold neighbors at hDistinct
              rw [List.map_append, List.map_cons] at hDistinct
              intro hDone
              exact (List.nodup_append.mp hDistinct).2.2 _
                hDone _ List.mem_cons_self rfl
            rw [List.foldl_cons, updateRound,
              updateLink_replaces hId.symm hNotDone]
            have hNext := ih left (done ++ [l])
              (flag || (updateLink false l
                (done ++ l' :: left)).2) hLeft'
              (by rwa [List.append_assoc])
            rw [List.append_assoc, List.append_assoc] at hNext
            exact hNext
  exact hLoop new old [] false hSame hNodup

/- An update of the same neighbors becomes the record. -/
theorem find_update
    {db : LsDatabase}
    {myNodeId nodeId : Int}
    (hOther : nodeId ≠ myNodeId)
    (hOld : ∀ old, db.find nodeId = some old →
      neighbors old = neighbors new)
    (hNodup : (neighbors new).Nodup) :
    (update db myNodeId nodeId new).1.find nodeId = some new ∧
      ∀ o, o ≠ nodeId →
        (update db myNodeId nodeId new).1.find o =
          db.find o := by
  unfold update
  cases hFind : db.find nodeId with
  | none =>
      exact ⟨SortedMap.find_insert_self _ hFind,
        fun o ho => SortedMap.find_insert_ne _ ho⟩
  | some old =>
      refine ⟨?_, fun o ho => SortedMap.find_modify_ne _ ho⟩
      dsimp only
      rw [SortedMap.find_modify_self, hFind,
        decide_eq_false hOther, Option.map_some,
        updateLinks_replaces (hOld old hFind) hNodup]

end LsDatabase

end Ns2
