import Mathlib.Data.Fintype.Card
import Mathlib.Data.List.Nodup
import Mathlib.Data.Nat.Find

/-
  Searching a graph breadth first.

  A vertex is found once, from the first vertex found before
  it that has an edge to it, and waits until its own edges
  have been followed.  When none waits, the distances are
  those of the shortest walks, the parents form a tree of
  them, and each vertex has the first step of one.

  Main declarations:
    * `BreadthFirst.Walk`, `BreadthFirst.Distance`
    * `BreadthFirst.Search`

  Correctness is proven by:
    * `Search.discover`, `Search.retire`
    * `Search.complete`, `Search.distance`
-/

------------------------------------------------------------
-- Walks
------------------------------------------------------------

namespace Ns2

namespace BreadthFirst

variable {α : Type}

/- A walk along so many edges. -/
inductive Walk (adj : α → List α) : Nat → α → α → Prop where
  | refl (a : α) : Walk adj 0 a a
  | tail {n : Nat} {a b c : α} :
      Walk adj n a b → c ∈ adj b → Walk adj (n + 1) a c

/- The length of the shortest walks between two vertices. -/
structure Distance
    (adj : α → List α)
    (a b : α)
    (n : Nat) : Prop where
  walk : Walk adj n a b
  least : ∀ m, Walk adj m a b → n ≤ m

variable {adj : α → List α}
variable {a b c : α}
variable {n m : Nat}

theorem Walk.head
    (hEdge : b ∈ adj a)
    (hWalk : Walk adj n b c) :
    Walk adj (n + 1) a c := by
  induction hWalk with
  | refl => exact .tail (.refl a) hEdge
  | tail _ hLast ih => exact .tail (ih hEdge) hLast

theorem Walk.append
    (hFirst : Walk adj n a b)
    (hSecond : Walk adj m b c) :
    Walk adj (n + m) a c := by
  induction hSecond with
  | refl => exact hFirst
  | tail _ hLast ih => exact .tail (ih hFirst) hLast

theorem Distance.unique
    (hDistance : Distance adj a b n)
    (hOther : Distance adj a b m) :
    n = m :=
  Nat.le_antisymm (hDistance.least m hOther.walk)
    (hOther.least n hDistance.walk)

/- The rest of a shortest walk is a shortest walk. -/
theorem Distance.rest
    (hDistance : Distance adj a c (n + m))
    (hFirst : Walk adj n a b)
    (hSecond : Walk adj m b c) :
    Distance adj b c m := by
  refine ⟨hSecond, fun k hWalk => ?_⟩
  have hLe := hDistance.least _ (hFirst.append hWalk)
  omega

theorem exists_distance
    (hReach : ∃ n, Walk adj n a b) :
    ∃ n, Distance adj a b n := by
  classical
  refine ⟨Nat.find hReach, Nat.find_spec hReach, ?_⟩
  intro m hWalk
  exact Nat.find_min' hReach hWalk

/- A shortest walk has a vertex at each smaller distance. -/
theorem Distance.exists_at
    (hDistance : Distance adj a b n)
    (hLe : m ≤ n) :
    ∃ c, Distance adj a c m := by
  induction n generalizing b with
  | zero =>
      rw [Nat.le_zero.mp hLe]
      exact ⟨b, hDistance⟩
  | succ n ih =>
      rcases Nat.eq_or_lt_of_le hLe with hSame | hLess
      · exact ⟨b, hSame ▸ hDistance⟩
      · have hWalk := hDistance.walk
        cases hWalk with
        | @tail _ _ c _ hFirst hEdge =>
            have hBefore : Distance adj a c n := by
              refine ⟨hFirst, fun k hOther => ?_⟩
              have hLong := hDistance.least _ (.tail hOther hEdge)
              omega
            exact ih hBefore (Nat.lt_succ_iff.mp hLess)

/- A distance is less than the number of vertices. -/
theorem Distance.lt_of_range
    {adj : Nat → List Nat}
    {a b size : Nat}
    (hDistance : Distance adj a b n)
    (hRange : ∀ m v, Walk adj m a v → v < size) :
    n < size := by
  have hAt : ∀ m : Fin (n + 1), ∃ c, Distance adj a c m :=
    fun m => hDistance.exists_at (Nat.lt_succ_iff.mp m.isLt)
  choose f hf using hAt
  let g : Fin (n + 1) → Fin size := fun m =>
    ⟨f m, hRange _ _ (hf m).walk⟩
  have hInjective : Function.Injective g := by
    intro i j hSame
    have hValue : f i = f j := congrArg Fin.val hSame
    have hTo := hf j
    rw [← hValue] at hTo
    exact Fin.ext ((hf i).unique hTo)
  have hCard := Fintype.card_le_of_injective g hInjective
  rw [Fintype.card_fin, Fintype.card_fin] at hCard
  omega

end BreadthFirst

end Ns2

------------------------------------------------------------
-- The State of a Search
------------------------------------------------------------

namespace Ns2

namespace BreadthFirst

variable {α : Type}

/- What a search knows of each vertex it has found. -/
structure Labels (α : Type) where
  distance : α → Nat
  parent : α → α
  hop : α → α

/-
  A search from a root: the vertices `done` have had all their
  edges followed, those `waiting` are found, and the first of
  them is the next or has some of its edges followed.
-/
structure Search
    (adj : α → List α)
    (root : α)
    (done waiting : List α)
    (labels : Labels α) : Prop where
  nodup : (done ++ waiting).Nodup
  root_mem : root ∈ done ++ waiting
  distance_root : labels.distance root = 0
  parent :
    ∀ v ∈ done ++ waiting, v ≠ root →
      labels.parent v ∈ done ++ waiting ∧
      v ∈ adj (labels.parent v) ∧
      labels.distance v =
        labels.distance (labels.parent v) + 1
  hop :
    ∀ v ∈ done ++ waiting, v ≠ root →
      labels.hop v ∈ adj root ∧
      ∃ n, labels.distance v = n + 1 ∧
        Walk adj n (labels.hop v) v
  ordered :
    (done ++ waiting).Pairwise fun u v =>
      labels.distance u ≤ labels.distance v
  span :
    ∀ u ∈ waiting.head?, ∀ v ∈ done ++ waiting,
      labels.distance v ≤ labels.distance u + 1
  closed :
    ∀ u ∈ done, ∀ w ∈ adj u, w ∈ done ++ waiting ∧
      labels.distance w ≤ labels.distance u + 1

variable {adj : α → List α}
variable {root u w : α}
variable {done rest : List α}
variable {labels : Labels α}

theorem search_root
    (hRoot : labels.distance root = 0) :
    Search adj root [] [root] labels := by
  constructor
  case nodup => exact List.nodup_singleton root
  case root_mem => exact List.mem_singleton_self root
  case distance_root => exact hRoot
  case parent =>
    intro v hMem hNe
    exact absurd (List.mem_singleton.mp hMem) hNe
  case hop =>
    intro v hMem hNe
    exact absurd (List.mem_singleton.mp hMem) hNe
  case ordered => exact List.pairwise_singleton _ root
  case span =>
    intro u hHead v hMem
    rw [List.mem_singleton.mp hMem, hRoot]
    exact Nat.zero_le _
  case closed =>
    intro u hMem
    exact absurd hMem List.not_mem_nil

/- The labels after an edge from `u` has led to `w`. -/
def Labels.discover
    [DecidableEq α]
    (labels : Labels α)
    (root u w : α) : Labels α where
  distance :=
    Function.update labels.distance w (labels.distance u + 1)
  parent := Function.update labels.parent w u
  hop :=
    Function.update labels.hop w
      (if u = root then w else labels.hop u)

/- An edge of the first that waits leads to a new vertex. -/
theorem Search.discover
    [DecidableEq α]
    (hSearch : Search adj root done (u :: rest) labels)
    (hEdge : w ∈ adj u)
    (hNew : w ∉ done ++ u :: rest) :
    Search adj root done (u :: (rest ++ [w]))
      (labels.discover root u w) := by
  have hList :
      done ++ u :: (rest ++ [w]) = (done ++ u :: rest) ++ [w] := by
    simp
  have hHere : u ∈ done ++ u :: rest := by simp
  have hOld : ∀ v ∈ done ++ u :: rest, v ≠ w := by
    intro v hMem hSame
    exact hNew (hSame ▸ hMem)
  have hDistance : ∀ v ∈ done ++ u :: rest,
      (labels.discover root u w).distance v =
        labels.distance v :=
    fun v hMem => Function.update_of_ne (hOld v hMem) _ _
  have hDistanceNew :
      (labels.discover root u w).distance w =
        labels.distance u + 1 :=
    Function.update_self ..
  have hRootOld : w ≠ root := fun hSame =>
    hNew (hSame ▸ hSearch.root_mem)
  have hMem : ∀ v, v ∈ done ++ u :: (rest ++ [w]) →
      v ∈ done ++ u :: rest ∨ v = w := by
    intro v hIn
    rw [hList] at hIn
    rcases List.mem_append.mp hIn with hBefore | hLast
    · exact Or.inl hBefore
    · exact Or.inr (List.mem_singleton.mp hLast)
  have hKept : ∀ v, v ∈ done ++ u :: rest →
      v ∈ done ++ u :: (rest ++ [w]) := by
    intro v hIn
    rw [hList]
    exact List.mem_append_left _ hIn
  constructor
  case nodup =>
    rw [hList]
    exact List.Nodup.append hSearch.nodup
      (List.nodup_singleton w) (by simpa using hNew)
  case root_mem => exact hKept _ hSearch.root_mem
  case distance_root =>
    rw [hDistance root hSearch.root_mem]
    exact hSearch.distance_root
  case parent =>
    intro v hIn hNe
    rcases hMem v hIn with hBefore | hNow
    · rcases hSearch.parent v hBefore hNe with
        ⟨hParent, hAdj, hNext⟩
      have hSame : (labels.discover root u w).parent v =
          labels.parent v :=
        Function.update_of_ne (hOld v hBefore) _ _
      rw [hSame, hDistance v hBefore, hDistance _ hParent]
      exact ⟨hKept _ hParent, hAdj, hNext⟩
    · subst hNow
      have hParent : (labels.discover root u v).parent v = u :=
        Function.update_self ..
      rw [hParent, hDistanceNew, hDistance u hHere]
      exact ⟨hKept _ hHere, hEdge, rfl⟩
  case hop =>
    intro v hIn hNe
    rcases hMem v hIn with hBefore | hNow
    · have hSame : (labels.discover root u w).hop v =
          labels.hop v :=
        Function.update_of_ne (hOld v hBefore) _ _
      rw [hSame, hDistance v hBefore]
      exact hSearch.hop v hBefore hNe
    · subst hNow
      have hHop : (labels.discover root u v).hop v =
          if u = root then v else labels.hop u :=
        Function.update_self ..
      rw [hHop, hDistanceNew]
      by_cases hFirst : u = root
      · rw [if_pos hFirst, hFirst, hSearch.distance_root]
        exact ⟨hFirst ▸ hEdge, 0, rfl, .refl v⟩
      · rw [if_neg hFirst]
        rcases hSearch.hop u hHere hFirst with
          ⟨hAdj, n, hLength, hWalk⟩
        exact ⟨hAdj, n + 1, by rw [hLength],
          .tail hWalk hEdge⟩
  case ordered =>
    rw [hList, List.pairwise_append]
    refine ⟨?_, List.pairwise_singleton _ w, ?_⟩
    · refine hSearch.ordered.imp_of_mem ?_
      intro a b hA hB hLe
      rw [hDistance a hA, hDistance b hB]
      exact hLe
    · intro a hA b hB
      rw [List.mem_singleton.mp hB, hDistanceNew,
        hDistance a hA]
      exact hSearch.span u rfl a hA
  case span =>
    intro x hHead v hIn
    have hSame : u = x := Option.some.inj hHead
    subst hSame
    rw [hDistance u hHere]
    rcases hMem v hIn with hBefore | hNow
    · rw [hDistance v hBefore]
      exact hSearch.span u rfl v hBefore
    · subst hNow
      exact hDistanceNew.le
  case closed =>
    intro x hDone y hAdj
    rcases hSearch.closed x hDone y hAdj with ⟨hIn, hLe⟩
    rw [hDistance y hIn,
      hDistance x (List.mem_append_left _ hDone)]
    exact ⟨hKept _ hIn, hLe⟩

/- All edges of the first that waits have been followed. -/
theorem Search.retire
    (hSearch : Search adj root done (u :: rest) labels)
    (hAll : ∀ w ∈ adj u, w ∈ done ++ u :: rest) :
    Search adj root (done ++ [u]) rest labels := by
  have hList : (done ++ [u]) ++ rest = done ++ u :: rest := by
    simp
  constructor
  case nodup =>
    rw [hList]
    exact hSearch.nodup
  case root_mem =>
    rw [hList]
    exact hSearch.root_mem
  case distance_root => exact hSearch.distance_root
  case parent =>
    rw [hList]
    exact hSearch.parent
  case hop =>
    rw [hList]
    exact hSearch.hop
  case ordered =>
    rw [hList]
    exact hSearch.ordered
  case span =>
    rw [hList]
    intro x hHead v hIn
    have hLe := hSearch.span u rfl v hIn
    have hMem : x ∈ rest := List.mem_of_mem_head? hHead
    have hOrdered :=
      ((List.pairwise_append.mp hSearch.ordered).2.1)
    have hFrom := List.rel_of_pairwise_cons hOrdered hMem
    exact hLe.trans (Nat.add_le_add_right hFrom 1)
  case closed =>
    rw [hList]
    intro x hDone y hAdj
    rcases List.mem_append.mp hDone with hBefore | hNow
    · exact hSearch.closed x hBefore y hAdj
    · rw [List.mem_singleton.mp hNow] at hAdj ⊢
      have hIn := hAll y hAdj
      exact ⟨hIn, hSearch.span u rfl y hIn⟩

end BreadthFirst

end Ns2

------------------------------------------------------------
-- A Search That Is Over
------------------------------------------------------------

namespace Ns2

namespace BreadthFirst

variable {α : Type}
variable {adj : α → List α}
variable {root v : α}
variable {done waiting : List α}
variable {labels : Labels α}

/- A vertex is found by a walk as long as its distance. -/
theorem Search.walk
    (hSearch : Search adj root done waiting labels)
    (hMem : v ∈ done ++ waiting) :
    Walk adj (labels.distance v) root v := by
  by_cases hRoot : v = root
  · rw [hRoot, hSearch.distance_root]
    exact .refl root
  · rcases hSearch.hop v hMem hRoot with
      ⟨hAdj, n, hLength, hWalk⟩
    rw [hLength]
    exact hWalk.head hAdj

/- What a walk leads to is found, and not further away. -/
theorem Search.complete
    {n : Nat}
    (hSearch : Search adj root done [] labels)
    (hWalk : Walk adj n root v) :
    v ∈ done ∧ labels.distance v ≤ n := by
  have hSame : done ++ [] = done := List.append_nil done
  have hClosed := hSearch.closed
  have hRoot := hSearch.root_mem
  rw [hSame] at hClosed hRoot
  induction hWalk with
  | refl => exact ⟨hRoot, hSearch.distance_root.le⟩
  | tail _ hEdge ih =>
      rcases ih hSearch hRoot with ⟨hIn, hLe⟩
      rcases hClosed _ hIn _ hEdge with ⟨hNext, hLe'⟩
      exact ⟨hNext, hLe'.trans (Nat.add_le_add_right hLe 1)⟩

theorem Search.distance
    (hSearch : Search adj root done [] labels)
    (hMem : v ∈ done) :
    Distance adj root v (labels.distance v) := by
  refine ⟨hSearch.walk (List.mem_append_left _ hMem), ?_⟩
  intro m hWalk
  exact (hSearch.complete hWalk).2

end BreadthFirst

end Ns2
