import Ns2.Lib.Settling
import Ns2.Lib.Sweep
import Ns2.Routing.Operations
import Mathlib.Tactic.IntervalCases

/-
  The computed routes have least costs.

  The arrays of one search are a table of tentative costs in
  which the nodes with the source as parent are settled, and
  costs from `INFINITY` on count as none.

  Main declarations:
    * `RouteLogic.Links`
    * `RouteLogic.Searching`
    * `RouteLogic.search_exact`
    * `RouteLogic.routes_correct`
-/

------------------------------------------------------------
-- Links and Tables
------------------------------------------------------------

namespace Ns2

namespace RouteLogic

open ShortestPaths

variable {ε : Type}
variable {r : RouteLogic ε}
variable {n k o v w : Nat}

theorem infinity_pos : 0 < INFINITY := by
  decide

/- The nodes that routes are computed for. -/
def Node (n v : Nat) : Prop :=
  0 < v ∧ v < n

instance : Decidable (Node n v) :=
  inferInstanceAs (Decidable (_ ∧ _))

theorem mem_nodes : v ∈ nodes n ↔ Node n v := by
  unfold nodes Node
  rw [List.mem_range'_1]
  omega

theorem nodes_nodup : (nodes n).Nodup :=
  List.nodup_range'

/- A link that is present, with its cost. -/
def Link
    (r : RouteLogic ε)
    (u v : Nat)
    (c : Rat) : Prop :=
  Node r.size_ u ∧ Node r.size_ v ∧ r.ADJ u v = c ∧
    c ≠ INFINITY

/- Links have a positive cost below `INFINITY`. -/
def Links (r : RouteLogic ε) : Prop :=
  ∀ u v, Node r.size_ u → Node r.size_ v →
    r.ADJ u v ≠ INFINITY →
      0 < r.ADJ u v ∧ r.ADJ u v < INFINITY

theorem Links.positive
    (hLinks : r.Links) :
    ∀ u v c, r.Link u v c → 0 < c := by
  rintro u v c ⟨hu, hv, hCost, hPresent⟩
  subst hCost
  exact (hLinks u v hu hv hPresent).1

theorem Links.adj_pos
    (hLinks : r.Links)
    (hu : Node r.size_ v)
    (hv : Node r.size_ w) : 0 < r.ADJ v w := by
  by_cases hPresent : r.ADJ v w = INFINITY
  · rw [hPresent]
    exact infinity_pos
  · exact (hLinks v w hu hv hPresent).1

theorem Links.adj_le
    (hLinks : r.Links)
    (hu : Node r.size_ v)
    (hv : Node r.size_ w) : r.ADJ v w ≤ INFINITY := by
  by_cases hPresent : r.ADJ v w = INFINITY
  · exact hPresent.le
  · exact (hLinks v w hu hv hPresent).2.le

theorem INDEX_inj
    (hIndex : INDEX k v n = INDEX k w n) : v = w := by
  unfold INDEX at hIndex
  omega

/- Different rows do not share a cell. -/
theorem INDEX_row
    {k' : Nat}
    (hv : v < n)
    (hw : w < n)
    (hIndex : INDEX k v n = INDEX k' w n) : k = k' := by
  unfold INDEX at hIndex
  have hFirst : (n * k + v) / n = k := by
    rw [Nat.mul_add_div (by omega), Nat.div_eq_of_lt hv,
      Nat.add_zero]
  have hSecond : (n * k' + w) / n = k' := by
    rw [Nat.mul_add_div (by omega), Nat.div_eq_of_lt hw,
      Nat.add_zero]
  rw [← hFirst, hIndex, hSecond]

/- What a search knows, as a table of tentative costs. -/
def table
    (r : RouteLogic ε)
    (k : Nat)
    (s : Search ε) : Table Nat Rat where
  settled v := Node r.size_ v ∧ s.parent v = k
  dist v :=
    if v = k then 0
    else if 0 < v ∧ v < r.size_ then s.hopcnt v
    else INFINITY
  hop v := (s.route_ (INDEX k v r.size_)).next_hop

/- The first node of a route comes with its link. -/
def Stored
    (r : RouteLogic ε)
    (k : Nat)
    (s : Search ε)
    (v : Nat) : Prop :=
  (s.hopcnt v < INFINITY →
    (s.route_ (INDEX k v r.size_)).entry =
      r.ADJ_ENTRY k
        (s.route_ (INDEX k v r.size_)).next_hop) ∧
  (INFINITY ≤ s.hopcnt v →
    s.route_ (INDEX k v r.size_) = ⟨0, none⟩)

/- A search for the routes of `k`. -/
structure Searching
    (r : RouteLogic ε)
    (k : Nat)
    (s : Search ε) : Prop where
  node : Node r.size_ k
  source : s.parent k = k
  bounded : ∀ v, Node r.size_ v → v ≠ k →
    s.hopcnt v ≤ INFINITY
  stored : ∀ v, Node r.size_ v → v ≠ k → r.Stored k s v
  tentative : Tentative r.Link k INFINITY (r.table k s)

variable {s : Search ε}

theorem table_dist
    (hv : Node r.size_ v)
    (hk : v ≠ k) : (r.table k s).dist v = s.hopcnt v := by
  have hv : 0 < v ∧ v < r.size_ := hv
  simp [table, hk, hv]

theorem table_dist_outside
    (hv : ¬ Node r.size_ v)
    (hk : v ≠ k) : (r.table k s).dist v = INFINITY := by
  have hv : ¬ (0 < v ∧ v < r.size_) := hv
  simp only [table, if_neg hk, if_neg hv]

end RouteLogic

end Ns2

------------------------------------------------------------
-- The Nearest Node
------------------------------------------------------------

namespace Ns2

namespace RouteLogic

variable {n k o v w : Nat}
variable {ε : Type}
variable {s : Search ε}

/- The best node so far, after some of the nodes. -/
def Best
    (s : Search ε)
    (k start : Nat)
    (seen : List Nat)
    (o : Nat) : Prop :=
  (o = start ∨ o ∈ seen ∧ s.parent o ≠ k ∧
    s.hopcnt o < s.hopcnt start) ∧
  s.hopcnt o ≤ s.hopcnt start ∧
  ∀ w ∈ seen, s.parent w ≠ k → s.hopcnt o ≤ s.hopcnt w

theorem foldl_best
    {seen rest : List Nat}
    {start : Nat}
    (hBest : Best s k start seen o) :
    Best s k start (seen ++ rest)
      (rest.foldl
        (fun o w =>
          if s.parent w ≠ k ∧ s.hopcnt w < s.hopcnt o then w
          else o)
        o) := by
  induction rest generalizing seen o with
  | nil => simpa using hBest
  | cons w rest ih =>
      rcases hBest with
        ⟨hWhere, hStart, hLeast⟩
      have hSplit : seen ++ w :: rest = (seen ++ [w]) ++ rest := by
        simp
      rw [hSplit, List.foldl_cons]
      apply ih
      by_cases hBetter :
          s.parent w ≠ k ∧ s.hopcnt w < s.hopcnt o
      · rw [if_pos hBetter]
        refine ⟨Or.inr ⟨by simp, hBetter.1,
          hBetter.2.trans_le hStart⟩,
          hBetter.2.le.trans hStart, ?_⟩
        intro x hx hUnsettled
        rcases List.mem_append.mp hx with
          hOld | hNew
        · exact hBetter.2.le.trans (hLeast x hOld hUnsettled)
        · rw [List.mem_singleton.mp hNew]
      · rw [if_neg hBetter]
        refine ⟨?_, hStart, ?_⟩
        · rcases hWhere with
            hSame | ⟨hMem, hOther⟩
          · exact Or.inl hSame
          · exact Or.inr ⟨List.mem_append_left _ hMem, hOther⟩
        · intro x hx hUnsettled
          rcases List.mem_append.mp hx with
            hOld | hNew
          · exact hLeast x hOld hUnsettled
          · rw [List.mem_singleton.mp hNew] at hUnsettled ⊢
            exact not_lt.mp fun hLess =>
              hBetter ⟨hUnsettled, hLess⟩

/- Zero, or a node with a cost that no other one is below. -/
theorem nearest_spec :
    Best s k 0 (nodes n) (nearest n k s) := by
  have hStart : Best s k 0 [] 0 :=
    ⟨Or.inl rfl, le_rfl, nofun⟩
  exact foldl_best hStart

end RouteLogic

end Ns2

------------------------------------------------------------
-- Trying the Edges of a Node
------------------------------------------------------------

namespace Ns2

namespace RouteLogic

variable {ε : Type}
variable {r : RouteLogic ε}
variable {k o v w : Nat}
variable {s : Search ε}

/- The cost and the route of a node. -/
def entryOf
    (r : RouteLogic ε)
    (k : Nat)
    (s : Search ε)
    (v : Nat) : Rat × route_entry ε :=
  (s.hopcnt v, s.route_ (INDEX k v r.size_))

/- The cell of another row. -/
def OtherRow (r : RouteLogic ε) (k i : Nat) : Prop :=
  ∀ v, v < r.size_ → i ≠ INDEX k v r.size_

/- What a node becomes when the edge from `o` is tried. -/
def improved
    (r : RouteLogic ε)
    (k o : Nat)
    (s : Search ε)
    (w : Nat)
    (old : Rat × route_entry ε) : Rat × route_entry ε :=
  if s.parent w ≠ k ∧ s.hopcnt o + r.ADJ o w < old.1 then
    (s.hopcnt o + r.ADJ o w, s.route_ (INDEX k o r.size_))
  else old

theorem adjacent_here :
    entryOf r k (r.adjacent k o s w) w =
      improved r k o s w (entryOf r k s w) := by
  unfold adjacent improved entryOf
  by_cases hBetter :
      s.parent w ≠ k ∧
        s.hopcnt o + r.ADJ o w < s.hopcnt w
  · rw [if_pos hBetter, if_pos hBetter]
    simp
  · rw [if_neg hBetter, if_neg hBetter]

theorem adjacent_else
    (hv : v ≠ w) :
    entryOf r k (r.adjacent k o s w) v = entryOf r k s v := by
  have hIndex : INDEX k v r.size_ ≠ INDEX k w r.size_ :=
    fun hSame => hv (INDEX_inj hSame)
  unfold adjacent entryOf
  split
  · simp [Function.update_of_ne hv,
      Function.update_of_ne hIndex]
  · rfl

theorem adjacent_parent :
    (r.adjacent k o s w).parent = s.parent := by
  unfold adjacent
  split <;> rfl

theorem adjacent_row
    {i : Nat}
    (hw : w < r.size_)
    (hi : OtherRow r k i) :
    (r.adjacent k o s w).route_ i = s.route_ i := by
  unfold adjacent
  split
  · exact Function.update_of_ne (hi w hw) _ _
  · rfl

/- The whole loop over the nodes adjacent to `o`. -/
theorem foldl_adjacent
    (ho : s.parent o = k) :
    (((nodes r.size_).foldl (r.adjacent k o) s).parent =
        s.parent ∧
      ∀ i, OtherRow r k i →
        ((nodes r.size_).foldl (r.adjacent k o) s).route_ i =
          s.route_ i) ∧
    ∀ v,
      entryOf r k
          ((nodes r.size_).foldl (r.adjacent k o) s) v =
        if v ∈ nodes r.size_ then
          improved r k o s v (entryOf r k s v)
        else entryOf r k s v := by
  have hSweep :=
    @sweep_cell (Search ε) Nat (Rat × route_entry ε) _
      (r.adjacent k o) (entryOf r k) (improved r k o s)
      (fun s' => s'.parent = s.parent ∧
        (∀ i, OtherRow r k i → s'.route_ i = s.route_ i) ∧
        entryOf r k s' o = entryOf r k s o)
      (nodes r.size_) ?_ ?_ ?_ nodes_nodup s
      ⟨rfl, fun _ _ => rfl, rfl⟩
  · exact ⟨⟨hSweep.1.1, hSweep.1.2.1⟩, hSweep.2⟩
  · rintro s' w hw ⟨hParent, hRow, hEntry⟩
    refine ⟨adjacent_parent.trans hParent, ?_, ?_⟩
    · intro i hi
      rw [adjacent_row (mem_nodes.mp hw).2 hi]
      exact hRow i hi
    · by_cases hSame : o = w
      · subst hSame
        rw [adjacent_here, improved, hParent, ho,
          if_neg (fun h => h.1 rfl)]
        exact hEntry
      · rw [adjacent_else hSame]
        exact hEntry
  · rintro s' w hw ⟨hParent, _, hEntry⟩
    rw [adjacent_here]
    have hCost : s'.hopcnt o = s.hopcnt o :=
      congrArg Prod.fst hEntry
    have hRoute :
        s'.route_ (INDEX k o r.size_) =
          s.route_ (INDEX k o r.size_) :=
      congrArg Prod.snd hEntry
    unfold improved
    rw [hParent, hCost, hRoute]
  · intro s' w v hw _ hv
    exact adjacent_else hv

end RouteLogic

end Ns2

------------------------------------------------------------
-- One Round
------------------------------------------------------------

namespace Ns2

namespace RouteLogic

open ShortestPaths

variable {ε : Type}
variable {r : RouteLogic ε}
variable {k o v w : Nat}
variable {s : Search ε}

theorem Searching.congr
    {s' : Search ε}
    (hSearching : Searching r k s)
    (hParent : ∀ v, Node r.size_ v →
      s'.parent v = s.parent v)
    (hCost : ∀ v, Node r.size_ v → v ≠ k →
      s'.hopcnt v = s.hopcnt v)
    (hRoute : s'.route_ = s.route_) :
    Searching r k s' := by
  have hSettled :
      (r.table k s').settled = (r.table k s).settled := by
    funext v
    exact propext (and_congr_right fun hv => by
      rw [hParent v hv])
  have hDist : (r.table k s').dist = (r.table k s).dist := by
    funext v
    by_cases hk : v = k
    · simp [table, hk]
    · by_cases hv : Node r.size_ v
      · rw [table_dist hv hk, table_dist hv hk, hCost v hv hk]
      · rw [table_dist_outside hv hk,
          table_dist_outside hv hk]
  have hHop : (r.table k s').hop = (r.table k s).hop := by
    simp only [table, hRoute]
  have hTable : r.table k s' = r.table k s := by
    calc r.table k s' =
        ⟨(r.table k s').settled, (r.table k s').dist,
          (r.table k s').hop⟩ := rfl
      _ = ⟨(r.table k s).settled, (r.table k s).dist,
          (r.table k s).hop⟩ := by rw [hSettled, hDist, hHop]
      _ = r.table k s := rfl
  constructor
  case node => exact hSearching.node
  case source =>
    rw [hParent k hSearching.node]
    exact hSearching.source
  case bounded =>
    intro v hv hk
    rw [hCost v hv hk]
    exact hSearching.bounded v hv hk
  case stored =>
    intro v hv hk
    have hOld := hSearching.stored v hv hk
    unfold Stored at hOld ⊢
    rw [hCost v hv hk, hRoute]
    exact hOld
  case tentative =>
    rw [hTable]
    exact hSearching.tentative

theorem Searching.cost_pos
    (hSearching : Searching r k s)
    (hLinks : r.Links)
    (hv : Node r.size_ v)
    (hk : v ≠ k)
    (hLess : s.hopcnt v < INFINITY) :
    0 < s.hopcnt v := by
  have hDist := table_dist (s := s) hv hk
  have hHop := hSearching.tentative.sound v hk
    (hDist.trans_lt hLess)
  rcases hHop with
    ⟨p, hWalk⟩
  rw [hDist] at hWalk
  exact hWalk.pos hLinks.positive (List.cons_ne_nil _ _)

/- The state after the edges of `o` have been tried. -/
def settled
    (r : RouteLogic ε)
    (k o : Nat)
    (s : Search ε) : Search ε :=
  (nodes r.size_).foldl (r.adjacent k o)
    { s with parent := Function.update s.parent o k }

theorem settled_parent :
    (settled r k o s).parent =
      Function.update s.parent o k :=
  (foldl_adjacent (Function.update_self _ _ _)).1.1

theorem settled_row
    {i : Nat}
    (hi : OtherRow r k i) :
    (settled r k o s).route_ i = s.route_ i :=
  (foldl_adjacent (Function.update_self _ _ _)).1.2 i hi

theorem settled_entry :
    entryOf r k (settled r k o s) v =
      if v ∈ nodes r.size_ then
        improved r k o
          { s with parent := Function.update s.parent o k }
          v (entryOf r k s v)
      else entryOf r k s v :=
  (foldl_adjacent (Function.update_self _ _ _)).2 v

/- The edge from `o` makes a node cheaper. -/
def Better
    (r : RouteLogic ε)
    (k o : Nat)
    (s : Search ε)
    (v : Nat) : Prop :=
  Node r.size_ v ∧ v ≠ o ∧ s.parent v ≠ k ∧
    s.hopcnt o + r.ADJ o v < s.hopcnt v

theorem settled_better
    (hBetter : Better r k o s v) :
    (settled r k o s).hopcnt v = s.hopcnt o + r.ADJ o v ∧
      (settled r k o s).route_ (INDEX k v r.size_) =
        s.route_ (INDEX k o r.size_) := by
  rcases hBetter with
    ⟨hv, ho, hParent, hLess⟩
  have hEntry := @settled_entry ε r k o v s
  rw [if_pos (mem_nodes.mpr hv), improved, if_pos ?_]
    at hEntry
  · exact ⟨congrArg Prod.fst hEntry, congrArg Prod.snd hEntry⟩
  · refine ⟨?_, hLess⟩
    change Function.update s.parent o k v ≠ k
    rwa [Function.update_of_ne ho]

theorem settled_kept
    (hBetter : ¬ Better r k o s v) :
    (settled r k o s).hopcnt v = s.hopcnt v ∧
      (settled r k o s).route_ (INDEX k v r.size_) =
        s.route_ (INDEX k v r.size_) := by
  have hEntry := @settled_entry ε r k o v s
  have hSame :
      entryOf r k (settled r k o s) v = entryOf r k s v := by
    rw [hEntry]
    by_cases hv : v ∈ nodes r.size_
    · rw [if_pos hv, improved, if_neg ?_]
      rintro ⟨hParent, hLess⟩
      have ho : v ≠ o := by
        rintro rfl
        exact hParent (Function.update_self _ _ _)
      have hParent : Function.update s.parent o k v ≠ k :=
        hParent
      rw [Function.update_of_ne ho] at hParent
      exact hBetter ⟨mem_nodes.mp hv, ho, hParent, hLess⟩
    · rw [if_neg hv]
  exact ⟨congrArg Prod.fst hSame, congrArg Prod.snd hSame⟩

/- The nearest node, its cost below `INFINITY`. -/
structure Chosen
    (r : RouteLogic ε)
    (k : Nat)
    (s : Search ε)
    (o : Nat) : Prop where
  node : Node r.size_ o
  unsettled : s.parent o ≠ k
  within : s.hopcnt o < INFINITY
  least : ∀ v, Node r.size_ v → s.parent v ≠ k →
    s.hopcnt o ≤ s.hopcnt v

theorem Chosen.ne
    (hChosen : Chosen r k s o)
    (hSearching : Searching r k s) : o ≠ k := by
  rintro rfl
  exact hChosen.unsettled hSearching.source

/- A better way uses a link that is present. -/
theorem Better.link
    (hBetter : Better r k o s v)
    (hChosen : Chosen r k s o)
    (hSearching : Searching r k s)
    (hLinks : r.Links) : r.Link o v (r.ADJ o v) := by
  rcases hBetter with
    ⟨hv, ho, hParent, hLess⟩
  have hk : v ≠ k := by
    rintro rfl
    exact hParent hSearching.source
  have hPos := hSearching.cost_pos hLinks hChosen.node
    (hChosen.ne hSearching) hChosen.within
  have hBound := hSearching.bounded v hv hk
  refine ⟨hChosen.node, hv, rfl, ?_⟩
  intro hAbsent
  rw [hAbsent] at hLess
  have hMore : INFINITY < s.hopcnt o + INFINITY :=
    lt_add_of_pos_left _ hPos
  exact absurd (hMore.trans hLess) hBound.not_gt

theorem Chosen.settles
    (hChosen : Chosen r k s o)
    (hSearching : Searching r k s)
    (hLinks : r.Links) :
    Settles r.Link INFINITY (r.table k s) o
      (r.table k (settled r k o s)) := by
  have hOk := hChosen.ne hSearching
  have hDist := table_dist (s := s) hChosen.node hOk
  constructor
  case nearest =>
    intro v hUnsettled
    have hk : v ≠ k := by
      rintro rfl
      exact hUnsettled ⟨hSearching.node, hSearching.source⟩
    rw [hDist]
    by_cases hv : Node r.size_ v
    · rw [table_dist hv hk]
      exact hChosen.least v hv
        fun hParent => hUnsettled ⟨hv, hParent⟩
    · rw [table_dist_outside hv hk]
      exact hChosen.within.le
  case unsettled =>
    exact fun hSettled => hChosen.unsettled hSettled.2
  case within =>
    rw [hDist]
    exact hChosen.within
  case settled =>
    intro v
    change Node r.size_ v ∧ _ = k ↔
      (Node r.size_ v ∧ s.parent v = k) ∨ v = o
    rw [settled_parent]
    by_cases ho : v = o
    · subst ho
      simp [hChosen.node]
    · rw [Function.update_of_ne ho]
      simp [ho]
  case kept =>
    rintro v ⟨hv, hParent⟩
    rw [settled_parent] at hParent
    have hNot : ¬ Better r k o s v := by
      rintro ⟨_, ho, hOther, _⟩
      rw [Function.update_of_ne ho] at hParent
      exact hOther hParent
    rcases settled_kept hNot with
      ⟨hCost, hRoute⟩
    simp only [table, hCost, hRoute, and_self]
  case tried =>
    intro v hUnsettled
    by_cases hBetter : Better r k o s v
    · right
      rcases settled_better hBetter with
        ⟨hCost, hRoute⟩
      have hk : v ≠ k := by
        rintro rfl
        exact hBetter.2.2.1 hSearching.source
      have hLink :=
        hBetter.link hChosen hSearching hLinks
      refine ⟨r.ADJ o v, hLink, ?_, ?_, ?_, ?_⟩
      · rw [table_dist hBetter.1 hk, hCost, hDist]
      · rw [table_dist hBetter.1 hk, hCost,
          table_dist hBetter.1 hk]
        exact hBetter.2.2.2
      · simp only [table, hRoute]
      · rintro w ⟨_, _, hCost, _⟩
        exact hCost.le
    · left
      rcases settled_kept hBetter with
        ⟨hCost, hRoute⟩
      refine ⟨by simp only [table, hCost],
        by simp only [table, hRoute], ?_⟩
      rintro w ⟨_, hv, rfl, _⟩ hLess
      have hParent : (settled r k o s).parent v ≠ k :=
        fun hSettled => hUnsettled ⟨hv, hSettled⟩
      rw [settled_parent] at hParent
      have ho : v ≠ o := by
        rintro rfl
        exact hParent (Function.update_self _ _ _)
      rw [Function.update_of_ne ho] at hParent
      have hk : v ≠ k := by
        rintro rfl
        exact hParent hSearching.source
      rw [table_dist hv hk, hDist]
      exact not_lt.mp fun hCheaper =>
        hBetter ⟨hv, ho, hParent, hCheaper⟩

theorem Chosen.searching
    (hChosen : Chosen r k s o)
    (hSearching : Searching r k s)
    (hLinks : r.Links) :
    Searching r k (settled r k o s) := by
  have hOk := hChosen.ne hSearching
  constructor
  case node => exact hSearching.node
  case source =>
    rw [settled_parent, Function.update_of_ne hOk.symm]
    exact hSearching.source
  case bounded =>
    intro v hv hk
    by_cases hBetter : Better r k o s v
    · rw [(settled_better hBetter).1]
      exact hBetter.2.2.2.le.trans
        (hSearching.bounded v hv hk)
    · rw [(settled_kept hBetter).1]
      exact hSearching.bounded v hv hk
  case stored =>
    intro v hv hk
    by_cases hBetter : Better r k o s v
    · rcases settled_better hBetter with
        ⟨hCost, hRoute⟩
      have hFrom := hSearching.stored o hChosen.node hOk
      unfold Stored
      rw [hCost, hRoute]
      refine ⟨fun _ => hFrom.1 hChosen.within, ?_⟩
      intro hFar
      have hNear := hBetter.2.2.2.trans_le
        (hSearching.bounded v hv hk)
      exact absurd hNear hFar.not_gt
    · rcases settled_kept hBetter with
        ⟨hCost, hRoute⟩
      unfold Stored
      rw [hCost, hRoute]
      exact hSearching.stored v hv hk
  case tentative =>
    exact hSearching.tentative.settle hLinks.positive
      (hChosen.settles hSearching hLinks)

end RouteLogic

end Ns2

------------------------------------------------------------
-- All Rounds of a Source
------------------------------------------------------------

namespace Ns2

namespace RouteLogic

open ShortestPaths

variable {ε : Type}
variable {r : RouteLogic ε}
variable {k o v : Nat}
variable {s : Search ε}

/- No node is left whose cost is below `INFINITY`. -/
def Finished
    (r : RouteLogic ε)
    (k : Nat)
    (s : Search ε) : Prop :=
  ∀ v, Node r.size_ v → s.parent v ≠ k →
    INFINITY ≤ s.hopcnt v

/- The nodes that have no route yet. -/
def waiting
    (r : RouteLogic ε)
    (k : Nat)
    (s : Search ε) : Finset Nat :=
  (nodes r.size_).toFinset.filter (s.parent · ≠ k)

theorem mem_waiting :
    v ∈ waiting r k s ↔
      Node r.size_ v ∧ s.parent v ≠ k := by
  unfold waiting
  rw [Finset.mem_filter, List.mem_toFinset, mem_nodes]

/- The node zero costs as much as no way at all. -/
def withZero (s : Search ε) : Search ε :=
  { s with hopcnt := Function.update s.hopcnt 0 INFINITY }

theorem withZero_hopcnt
    (hv : Node r.size_ v) :
    (withZero s).hopcnt v = s.hopcnt v :=
  Function.update_of_ne (Nat.ne_of_gt hv.1) _ _

theorem withZero_zero :
    (withZero s).hopcnt 0 = INFINITY := by
  simp [withZero]

theorem Searching.with_zero
    (hSearching : Searching r k s) :
    Searching r k (withZero s) :=
  hSearching.congr (fun _ _ => rfl)
    (fun _ hv _ => withZero_hopcnt hv) rfl

theorem chosen_of_nearest
    (ho : nearest r.size_ k (withZero s) ≠ 0) :
    Chosen r k (withZero s)
      (nearest r.size_ k (withZero s)) := by
  have hBest := @nearest_spec r.size_ k ε (withZero s)
  rcases hBest with
    ⟨hWhere, hStart, hLeast⟩
  rcases hWhere with
    hZero | ⟨hMem, hUnsettled, hLess⟩
  · exact absurd hZero ho
  · constructor
    case node => exact mem_nodes.mp hMem
    case unsettled => exact hUnsettled
    case within =>
      exact hLess.trans_eq withZero_zero
    case least =>
      exact fun v hv => hLeast v (mem_nodes.mpr hv)

theorem finished_of_nearest
    (ho : nearest r.size_ k (withZero s) = 0) :
    Finished r k s := by
  have hBest := @nearest_spec r.size_ k ε (withZero s)
  rw [ho] at hBest
  intro v hv hUnsettled
  have hLeast := hBest.2.2 v (mem_nodes.mpr hv) hUnsettled
  rw [withZero_hopcnt hv] at hLeast
  exact withZero_zero.ge.trans hLeast

theorem round_zero
    (ho : nearest r.size_ k (withZero s) = 0) :
    round r k s =
      { withZero s with
        parent := Function.update s.parent 0 k } := by
  have ho :
      nearest r.size_ k
        { s with
          hopcnt := Function.update s.hopcnt 0 INFINITY } =
        0 :=
    ho
  unfold round
  simp only [ho, if_true]
  rfl

theorem round_chosen
    (ho : nearest r.size_ k (withZero s) ≠ 0) :
    round r k s =
      settled r k (nearest r.size_ k (withZero s))
        (withZero s) := by
  change (if nearest r.size_ k (withZero s) = 0 then _
    else _) = _
  rw [if_neg ho]
  rfl

theorem round_row
    {i : Nat}
    (hi : OtherRow r k i) :
    (round r k s).route_ i = s.route_ i := by
  by_cases ho : nearest r.size_ k (withZero s) = 0
  · rw [round_zero ho]
    rfl
  · rw [round_chosen ho]
    exact settled_row hi

theorem Searching.next
    (hSearching : Searching r k s)
    (hLinks : r.Links) :
    Searching r k (round r k s) := by
  by_cases ho : nearest r.size_ k (withZero s) = 0
  · rw [round_zero ho]
    refine hSearching.congr ?_
      (fun _ hv _ => withZero_hopcnt hv) rfl
    intro v hv
    exact Function.update_of_ne (Nat.ne_of_gt hv.1) _ _
  · rw [round_chosen ho]
    exact (chosen_of_nearest ho).searching
      hSearching.with_zero hLinks

theorem Finished.next
    (hFinished : Finished r k s) :
    Finished r k (round r k s) := by
  have ho : nearest r.size_ k (withZero s) = 0 := by
    by_contra hNot
    have hChosen := chosen_of_nearest hNot
    have hFar := hFinished _ hChosen.node hChosen.unsettled
    have hLess := hChosen.within
    rw [withZero_hopcnt hChosen.node] at hLess
    exact absurd hLess hFar.not_gt
  rw [round_zero ho]
  intro v hv hUnsettled
  have hSame : Function.update s.parent 0 k v = s.parent v :=
    Function.update_of_ne (Nat.ne_of_gt hv.1) _ _
  have hUnsettled :
      Function.update s.parent 0 k v ≠ k := hUnsettled
  rw [hSame] at hUnsettled
  exact (hFinished v hv hUnsettled).trans_eq
    (withZero_hopcnt hv).symm

/- A round settles a node, or nothing is left to do. -/
theorem round_progress :
    Finished r k (round r k s) ∨
      (waiting r k (round r k s)).card <
        (waiting r k s).card := by
  by_cases ho : nearest r.size_ k (withZero s) = 0
  · left
    exact (finished_of_nearest ho).next
  · right
    have hChosen := chosen_of_nearest ho
    rw [round_chosen ho]
    apply Finset.card_lt_card
    apply (Finset.ssubset_iff_of_subset ?_).mpr
    · refine ⟨_, mem_waiting.mpr
        ⟨hChosen.node, hChosen.unsettled⟩, ?_⟩
      intro hMem
      have hNot := (mem_waiting.mp hMem).2
      rw [settled_parent] at hNot
      exact hNot (Function.update_self _ _ _)
    · intro v hMem
      rcases mem_waiting.mp hMem with
        ⟨hv, hNot⟩
      rw [settled_parent] at hNot
      refine mem_waiting.mpr ⟨hv, ?_⟩
      intro hSettled
      apply hNot
      by_cases hSame : v = nearest r.size_ k (withZero s)
      · rw [hSame, Function.update_self]
      · rw [Function.update_of_ne hSame]
        exact hSettled

/- As many rounds as nodes are waiting are enough. -/
theorem foldl_round
    (rounds : List Nat)
    (hSearching : Searching r k s)
    (hLinks : r.Links)
    (hEnough :
      Finished r k s ∨
        (waiting r k s).card ≤ rounds.length) :
    Searching r k
        (rounds.foldl (fun s _ => r.round k s) s) ∧
      Finished r k
        (rounds.foldl (fun s _ => r.round k s) s) ∧
      ∀ i, OtherRow r k i →
        (rounds.foldl (fun s _ => r.round k s) s).route_ i =
          s.route_ i := by
  induction rounds generalizing s with
  | nil =>
      refine ⟨hSearching, ?_, fun _ _ => rfl⟩
      rcases hEnough with
        hFinished | hNone
      · exact hFinished
      · intro v hv hUnsettled
        have hEmpty : waiting r k s = ∅ :=
          Finset.card_eq_zero.mp (Nat.le_zero.mp hNone)
        have hMem : v ∈ waiting r k s :=
          mem_waiting.mpr ⟨hv, hUnsettled⟩
        rw [hEmpty] at hMem
        exact absurd hMem (Finset.notMem_empty v)
  | cons _ rest ih =>
      have hNext :
          Finished r k (r.round k s) ∨
            (waiting r k (r.round k s)).card ≤
              rest.length := by
        rcases hEnough with
          hFinished | hFew
        · exact Or.inl hFinished.next
        · rcases @round_progress ε r k s with
            hFinished | hLess
          · exact Or.inl hFinished
          · right
            rw [List.length_cons] at hFew
            omega
      rcases ih (hSearching.next hLinks) hNext with
        ⟨hEnd, hDone, hRow⟩
      refine ⟨hEnd, hDone, fun i hi => ?_⟩
      rw [List.foldl_cons, hRow i hi, round_row hi]

end RouteLogic

end Ns2

------------------------------------------------------------
-- The Neighbours of a Source
------------------------------------------------------------

namespace Ns2

namespace RouteLogic

open ShortestPaths

variable {ε : Type}
variable {r : RouteLogic ε}
variable {k v w : Nat}
variable {s : Search ε}

/- What a node becomes when it is tried as a neighbour. -/
def asNeighbour
    (r : RouteLogic ε)
    (k : Nat)
    (s : Search ε)
    (v : Nat)
    (old : Rat × route_entry ε) : Rat × route_entry ε :=
  if s.parent v ≠ k then
    (r.ADJ k v,
      if r.ADJ k v ≠ INFINITY then ⟨v, r.ADJ_ENTRY k v⟩
      else old.2)
  else old

theorem neighbour_here :
    entryOf r k (r.neighbour k s v) v =
      asNeighbour r k s v (entryOf r k s v) := by
  unfold neighbour asNeighbour entryOf
  by_cases hParent : s.parent v ≠ k
  · rw [if_pos hParent, if_pos hParent]
    by_cases hPresent : r.ADJ k v ≠ INFINITY
    · simp [hPresent]
    · simp [hPresent]
  · rw [if_neg hParent, if_neg hParent]

theorem neighbour_else
    (hw : w ≠ v) :
    entryOf r k (r.neighbour k s v) w = entryOf r k s w := by
  have hIndex : INDEX k w r.size_ ≠ INDEX k v r.size_ :=
    fun hSame => hw (INDEX_inj hSame)
  unfold neighbour entryOf
  by_cases hParent : s.parent v ≠ k
  · rw [if_pos hParent]
    by_cases hPresent : r.ADJ k v ≠ INFINITY
    · simp [hPresent, Function.update_of_ne hw,
        Function.update_of_ne hIndex]
    · simp [hPresent, Function.update_of_ne hw]
  · rw [if_neg hParent]

theorem neighbour_parent :
    (r.neighbour k s v).parent = s.parent := by
  unfold neighbour
  split <;> rfl

theorem neighbour_row
    {i : Nat}
    (hv : v < r.size_)
    (hi : OtherRow r k i) :
    (r.neighbour k s v).route_ i = s.route_ i := by
  unfold neighbour
  split
  · split
    · exact Function.update_of_ne (hi v hv) _ _
    · rfl
  · rfl

theorem foldl_neighbour :
    (((nodes r.size_).foldl (r.neighbour k) s).parent =
        s.parent ∧
      ∀ i, OtherRow r k i →
        ((nodes r.size_).foldl (r.neighbour k) s).route_ i =
          s.route_ i) ∧
    ∀ v,
      entryOf r k ((nodes r.size_).foldl (r.neighbour k) s) v =
        if v ∈ nodes r.size_ then
          asNeighbour r k s v (entryOf r k s v)
        else entryOf r k s v := by
  have hSweep :=
    @sweep_cell (Search ε) Nat (Rat × route_entry ε) _
      (r.neighbour k) (entryOf r k) (asNeighbour r k s)
      (fun s' => s'.parent = s.parent ∧
        ∀ i, OtherRow r k i → s'.route_ i = s.route_ i)
      (nodes r.size_) ?_ ?_ ?_ nodes_nodup s
      ⟨rfl, fun _ _ => rfl⟩
  · exact hSweep
  · rintro s' v hv ⟨hParent, hRow⟩
    refine ⟨neighbour_parent.trans hParent, ?_⟩
    intro i hi
    rw [neighbour_row (mem_nodes.mp hv).2 hi]
    exact hRow i hi
  · rintro s' v hv ⟨hParent, _⟩
    rw [neighbour_here]
    unfold asNeighbour
    rw [hParent]
  · intro s' v w _ _ hw
    exact neighbour_else hw

/- The arrays before the first round. -/
def start
    (r : RouteLogic ε)
    (k : Nat)
    (s : Search ε) : Search ε :=
  (nodes r.size_).foldl (r.neighbour k)
    { s with
      parent := fun v =>
        if v < r.size_ then v else s.parent v }

theorem start_parent
    (hv : Node r.size_ v) :
    (start r k s).parent v = v := by
  have hParent :=
    (@foldl_neighbour ε r k
      { s with
        parent := fun v =>
          if v < r.size_ then v else s.parent v }).1.1
  rw [start, hParent]
  exact if_pos hv.2

theorem start_row
    {i : Nat}
    (hi : OtherRow r k i) :
    (start r k s).route_ i = s.route_ i :=
  foldl_neighbour.1.2 i hi

/- A neighbour costs as much as its link. -/
theorem start_entry
    (hv : Node r.size_ v)
    (hk : v ≠ k) :
    (start r k s).hopcnt v = r.ADJ k v ∧
      (start r k s).route_ (INDEX k v r.size_) =
        if r.ADJ k v ≠ INFINITY then ⟨v, r.ADJ_ENTRY k v⟩
        else s.route_ (INDEX k v r.size_) := by
  have hEntry :=
    (@foldl_neighbour ε r k
      { s with
        parent := fun v =>
          if v < r.size_ then v else s.parent v }).2 v
  rw [if_pos (mem_nodes.mpr hv), asNeighbour, if_pos ?_]
    at hEntry
  · exact ⟨congrArg Prod.fst hEntry, congrArg Prod.snd hEntry⟩
  · change (if v < r.size_ then v else s.parent v) ≠ k
    rwa [if_pos hv.2]

/- The routes of a source that has not been searched yet. -/
def Cleared
    (r : RouteLogic ε)
    (k : Nat)
    (s : Search ε) : Prop :=
  ∀ v, v < r.size_ →
    s.route_ (INDEX k v r.size_) = ⟨0, none⟩

theorem start_searching
    (hk : Node r.size_ k)
    (hLinks : r.Links)
    (hCleared : Cleared r k s) :
    Searching r k (start r k s) := by
  have hDist :
      ∀ v, Node r.size_ v → v ≠ k →
        (r.table k (start r k s)).dist v = r.ADJ k v := by
    intro v hv hNe
    rw [table_dist hv hNe, (start_entry hv hNe).1]
  have hSource : (r.table k (start r k s)).dist k = 0 := by
    simp [table]
  have hSettled :
      ∀ v, (r.table k (start r k s)).settled v → v = k := by
    rintro v ⟨hv, hParent⟩
    rwa [start_parent hv] at hParent
  constructor
  case node => exact hk
  case source => exact start_parent hk
  case bounded =>
    intro v hv hNe
    rw [(start_entry hv hNe).1]
    exact hLinks.adj_le hk hv
  case stored =>
    intro v hv hNe
    rcases start_entry (s := s) hv hNe with
      ⟨hCost, hRoute⟩
    unfold Stored
    rw [hCost, hRoute]
    constructor
    · intro hLess
      rw [if_pos hLess.ne]
    · intro hFar
      rw [if_neg (not_not.mpr
        (le_antisymm (hLinks.adj_le hk hv) hFar))]
      exact hCleared v hv.2
  case tentative =>
    constructor
    case source =>
      exact ⟨⟨hk, start_parent hk⟩, hSource⟩
    case sound =>
      intro v hNe hLess
      by_cases hv : Node r.size_ v
      · rw [hDist v hv hNe] at hLess ⊢
        have hHop :
            (r.table k (start r k s)).hop v = v := by
          simp only [table, (start_entry hv hNe).2]
          rw [if_pos hLess.ne]
        rw [hHop]
        exact FirstHop.single ⟨hk, hv, rfl, hLess.ne⟩
      · rw [table_dist_outside hv hNe] at hLess
        exact absurd hLess (lt_irrefl _)
    case ordered =>
      intro u v hu hv
      have hNe : v ≠ k := by
        rintro rfl
        exact hv ⟨hk, start_parent hk⟩
      rw [hSettled u hu, hSource]
      by_cases hNode : Node r.size_ v
      · rw [hDist v hNode hNe]
        exact (hLinks.adj_pos hk hNode).le
      · rw [table_dist_outside hNode hNe]
        exact infinity_pos.le
    case closed =>
      intro u v w hu hLink _
      have hPos := hLinks.positive u v w hLink
      rw [hSettled u hu] at hLink ⊢
      rw [hSource, zero_add]
      rcases hLink with
        ⟨_, hv, hCost, _⟩
      by_cases hNe : v = k
      · rw [hNe, hSource]
        exact hPos.le
      · rw [hDist v hv hNe]
        exact hCost.le

theorem start_waiting :
    (waiting r k (start r k s)).card ≤
      (nodes r.size_).length := by
  have hAll :
      waiting r k (start r k s) ⊆ (nodes r.size_).toFinset :=
    Finset.filter_subset _ _
  exact (Finset.card_le_card hAll).trans
    (List.toFinset_card_le _)

end RouteLogic

end Ns2

------------------------------------------------------------
-- All Sources
------------------------------------------------------------

namespace Ns2

namespace RouteLogic

open ShortestPaths

variable {ε : Type}
variable {r : RouteLogic ε}
variable {k t v : Nat}
variable {s : Search ε}

/- The stored route is the start of a least-cost walk. -/
structure Shortest
    (r : RouteLogic ε)
    (k t : Nat)
    (here : route_entry ε)
    (d : Rat) : Prop where
  below : d < INFINITY
  least : LeastCost r.Link k t d
  hop : FirstHop r.Link k t d here.next_hop
  entry : here.entry = r.ADJ_ENTRY k here.next_hop

/- The route is right, or there is none and no cheap walk. -/
def Exact
    (r : RouteLogic ε)
    (k t : Nat)
    (here : route_entry ε) : Prop :=
  (∃ d, Shortest r k t here d) ∨
    (here = ⟨0, none⟩ ∧
      ∀ p c, Walk r.Link k p t c → INFINITY ≤ c)

/- The routes of a source after its search. -/
def ExactRow
    (r : RouteLogic ε)
    (k : Nat)
    (route : Nat → route_entry ε) : Prop :=
  ∀ t, Node r.size_ t → t ≠ k →
    Exact r k t (route (INDEX k t r.size_))

theorem Searching.exact
    (hSearching : Searching r k s)
    (hLinks : r.Links)
    (hFinished : Finished r k s) :
    ExactRow r k s.route_ := by
  have hDone :
      ∀ v, ¬ (r.table k s).settled v →
        INFINITY ≤ (r.table k s).dist v := by
    intro v hUnsettled
    have hNe : v ≠ k := by
      rintro rfl
      exact hUnsettled ⟨hSearching.node, hSearching.source⟩
    by_cases hv : Node r.size_ v
    · rw [table_dist hv hNe]
      exact hFinished v hv
        fun hParent => hUnsettled ⟨hv, hParent⟩
    · exact (table_dist_outside hv hNe).ge
  intro t ht hNe
  have hDist := table_dist (s := s) ht hNe
  have hStored := hSearching.stored t ht hNe
  rcases lt_or_ge (s.hopcnt t) INFINITY with
    hBelow | hAbove
  · left
    rcases hSearching.tentative.leastCost hLinks.positive
        hDone hNe (hDist.trans_lt hBelow) with
      ⟨hLeast, hHop⟩
    rw [hDist] at hLeast hHop
    exact ⟨s.hopcnt t, hBelow, hLeast, hHop,
      hStored.1 hBelow⟩
  · right
    refine ⟨hStored.2 hAbove, ?_⟩
    intro p c hWalk
    by_contra hLess
    have hNear := hSearching.tentative.le_of_walk
      hLinks.positive hDone hWalk (not_le.mp hLess)
    rw [hDist] at hNear
    exact hLess (hAbove.trans hNear)

/- One search fills its row and leaves the others alone. -/
theorem search_exact
    (hk : Node r.size_ k)
    (hLinks : r.Links)
    (hCleared : Cleared r k s) :
    ExactRow r k (r.search s k).route_ ∧
      ∀ i, OtherRow r k i →
        (r.search s k).route_ i = s.route_ i := by
  rcases foldl_round (nodes r.size_)
      (start_searching hk hLinks hCleared) hLinks
      (Or.inr start_waiting) with
    ⟨hSearching, hFinished, hRow⟩
  refine ⟨hSearching.exact hLinks hFinished, ?_⟩
  intro i hi
  exact (hRow i hi).trans (start_row hi)

theorem otherRow
    {k' : Nat}
    (hNe : k ≠ k')
    (hv : v < r.size_) :
    OtherRow r k (INDEX k' v r.size_) :=
  fun _ hw hIndex => hNe (INDEX_row hw hv hIndex.symm)

/- The searches fill the rows of their sources. -/
theorem foldl_search
    {sources : List Nat}
    (hLinks : r.Links)
    (hNodes : ∀ k ∈ sources, Node r.size_ k)
    (hNodup : sources.Nodup)
    (hCleared : ∀ k ∈ sources, Cleared r k s) :
    (∀ k ∈ sources,
      ExactRow r k (sources.foldl r.search s).route_) ∧
      ∀ k, k ∉ sources → ∀ v, v < r.size_ →
        (sources.foldl r.search s).route_
            (INDEX k v r.size_) =
          s.route_ (INDEX k v r.size_) := by
  induction sources generalizing s with
  | nil => exact ⟨nofun, fun _ _ _ _ => rfl⟩
  | cons first rest ih =>
      rcases List.nodup_cons.mp hNodup with
        ⟨hFresh, hRest⟩
      rcases search_exact (hNodes first List.mem_cons_self)
          hLinks (hCleared first List.mem_cons_self) with
        ⟨hExact, hKept⟩
      have hLater :
          ∀ k ∈ rest, Cleared r k (r.search s first) := by
        intro k hk v hv
        have hNe : first ≠ k := by
          rintro rfl
          exact hFresh hk
        rw [hKept _ (otherRow hNe hv)]
        exact hCleared k (List.mem_cons_of_mem _ hk) v hv
      rcases ih
          (fun k hk => hNodes k (List.mem_cons_of_mem _ hk))
          hRest hLater with
        ⟨hRows, hOthers⟩
      constructor
      · intro k hk
        rcases List.mem_cons.mp hk with
          hSame | hMem
        · subst hSame
          intro t ht hNe
          rw [List.foldl_cons, hOthers k hFresh t ht.2]
          exact hExact t ht hNe
        · exact hRows k hMem
      · intro k hk v hv
        have hNe : k ≠ first := by
          rintro rfl
          exact hk List.mem_cons_self
        have hMem : k ∉ rest :=
          fun hMem => hk (List.mem_cons_of_mem _ hMem)
        rw [List.foldl_cons, hOthers k hMem v hv]
        exact hKept _ (otherRow (Ne.symm hNe) hv)

theorem INDEX_diagonal
    {n k' : Nat}
    (hIndex : INDEX k k n = INDEX k' k' n) : k = k' := by
  have hBoth : (n + 1) * k = (n + 1) * k' := by
    unfold INDEX at hIndex
    rw [Nat.add_one_mul, Nat.add_one_mul]
    exact hIndex
  exact Nat.eq_of_mul_eq_mul_left (Nat.succ_pos n) hBoth

/- The last loop writes the diagonal only. -/
theorem foldl_diagonal
    {sources : List Nat}
    {n : Nat}
    (route : Nat → route_entry ε)
    (hSources : ∀ k ∈ sources, k < n)
    (hNodup : sources.Nodup) :
    (∀ k t, k ≠ t → t < n →
      sources.foldl
          (fun route k =>
            Function.update route (INDEX k k n) ⟨k, none⟩)
          route (INDEX k t n) =
        route (INDEX k t n)) ∧
      ∀ k, k ∈ sources →
        sources.foldl
            (fun route k =>
              Function.update route (INDEX k k n) ⟨k, none⟩)
            route (INDEX k k n) =
          ⟨k, none⟩ := by
  have hSweep :=
    @sweep_cell (Nat → route_entry ε) Nat (route_entry ε) _
      (fun route k =>
        Function.update route (INDEX k k n) ⟨k, none⟩)
      (fun route k => route (INDEX k k n))
      (fun k _ => ⟨k, none⟩)
      (fun route' => ∀ k t, k ≠ t → t < n →
        route' (INDEX k t n) = route (INDEX k t n))
      sources ?_ ?_ ?_ hNodup route
      (fun _ _ _ _ => rfl)
  · refine ⟨hSweep.1, fun k hk => ?_⟩
    exact (hSweep.2 k).trans (if_pos hk)
  · intro route' i hi hKept k t hNe ht
    have hIndex : INDEX k t n ≠ INDEX i i n := by
      intro hSame
      have hRow := INDEX_row ht (hSources i hi) hSame
      subst hRow
      exact hNe (INDEX_inj hSame).symm
    rw [Function.update_of_ne hIndex]
    exact hKept k t hNe ht
  · intro route' i _ _
    exact Function.update_self _ _ _
  · intro route' i j _ _ hNe
    exact Function.update_of_ne
      (fun hSame => hNe (INDEX_diagonal hSame)) _ _

variable (parent : Nat → Nat)
variable (hopcnt : Nat → Rat)

theorem compute_routes_row
    (hLinks : r.Links)
    (hk : Node r.size_ k)
    (ht : Node r.size_ t)
    (hNe : k ≠ t) :
    Exact r k t
      ((r.compute_routes parent hopcnt).route_
        (INDEX k t r.size_)) := by
  have hSearches :=
    (foldl_search
      (s := ⟨parent, hopcnt, fun _ => ⟨0, none⟩⟩) hLinks
      (fun k hk => mem_nodes.mp hk) nodes_nodup
      (fun _ _ _ _ => rfl)).1 k (mem_nodes.mpr hk) t ht
      (Ne.symm hNe)
  have hLast :=
    (foldl_diagonal
      ((nodes r.size_).foldl r.search
        ⟨parent, hopcnt, fun _ => ⟨0, none⟩⟩).route_
      (fun k hk => (mem_nodes.mp hk).2)
      nodes_nodup).1 k t hNe ht.2
  have hRoute :
      (r.compute_routes parent hopcnt).route_
          (INDEX k t r.size_) =
        ((nodes r.size_).foldl r.search
          ⟨parent, hopcnt, fun _ => ⟨0, none⟩⟩).route_
            (INDEX k t r.size_) :=
    hLast
  rw [hRoute]
  exact hSearches

/- The route to yourself is yourself. -/
theorem compute_routes_self
    (hk : Node r.size_ k) :
    (r.compute_routes parent hopcnt).ROUTE k k = k := by
  have hLast :=
    (foldl_diagonal
      ((nodes r.size_).foldl r.search
        ⟨parent, hopcnt, fun _ => ⟨0, none⟩⟩).route_
      (fun k hk => (mem_nodes.mp hk).2)
      nodes_nodup).2 k (mem_nodes.mpr hk)
  exact congrArg route_entry.next_hop hLast

/- Every hop comes closer by the cost of its link. -/
theorem compute_routes_onward
    (hLinks : r.Links)
    (ht : Node r.size_ t) :
    Onward r.Link (nodes r.size_).toFinset INFINITY
      (fun u => (r.compute_routes parent hopcnt).ROUTE u t)
      t := by
  constructor
  case positive => exact hLinks.positive
  case step =>
    intro u c hu hNe hBelow hLeast
    have hu := mem_nodes.mp (List.mem_toFinset.mp hu)
    rcases compute_routes_row parent hopcnt hLinks hu ht hNe with
      ⟨d, hShortest⟩ | ⟨_, hFar⟩
    · have hSame := hShortest.least.unique hLeast
      subst hSame
      rcases hShortest.least.tail hShortest.hop with
        ⟨w, c', hLink, hLater, hSum⟩
      exact ⟨List.mem_toFinset.mpr
        (mem_nodes.mpr hLink.2.1), w, c', hLink, hLater,
        hSum⟩
    · rcases hLeast.1 with
        ⟨p, hWalk⟩
      exact absurd hBelow (hFar p c hWalk).not_gt

/- Forwarding follows least-cost paths, where there are. -/
theorem routes_correct
    (r : RouteLogic ε)
    (parent : Nat → Nat)
    (hopcnt : Nat → Rat)
    (hLinks : r.Links)
    (k w : Nat)
    (hk : Node r.size_ k)
    (hw : Node r.size_ w) :
    (k ≠ w → ∀ d, LeastCost r.Link k w d → d < INFINITY →
      ∃ v, (r.compute_routes parent hopcnt).ROUTE k w = v ∧
        (∃ c d', r.Link k v c ∧ LeastCost r.Link v w d' ∧
          c + d' = d) ∧
        (r.compute_routes parent hopcnt).ROUTE_ENTRY k w =
          r.ADJ_ENTRY k v ∧
        ∃ p,
          follow
              (fun u =>
                (r.compute_routes parent hopcnt).ROUTE u w)
              w r.size_ k =
            some p ∧
          Walk r.Link k p w d ∧ (k :: p).Nodup) ∧
    (k ≠ w → (¬ ∃ d, LeastCost r.Link k w d ∧ d < INFINITY) →
      (r.compute_routes parent hopcnt).ROUTE k w = 0) ∧
    (r.compute_routes parent hopcnt).ROUTE k k = k := by
  refine ⟨?_, ?_, compute_routes_self parent hopcnt hk⟩
  · intro hNe d hLeast hBelow
    rcases compute_routes_row parent hopcnt hLinks hk hw hNe with
      ⟨d', hShortest⟩ | ⟨_, hFar⟩
    · have hSame := hShortest.least.unique hLeast
      subst hSame
      rcases hShortest.least.tail hShortest.hop with
        ⟨c, d₁, hLink, hLater, hSum⟩
      refine ⟨_, rfl, ⟨c, d₁, hLink, hLater, hSum.symm⟩,
        hShortest.entry, ?_⟩
      have hFuel :
          (closer (nodes r.size_).toFinset
            (costTo r.Link w) d').card ≤ r.size_ := by
        have hFilter :
            (closer (nodes r.size_).toFinset
              (costTo r.Link w) d').card ≤
              (nodes r.size_).toFinset.card :=
          Finset.card_filter_le _ _
        have hLength := List.toFinset_card_le (nodes r.size_)
        have hNodes : (nodes r.size_).length = r.size_ - 1 :=
          List.length_range'
        omega
      rcases (compute_routes_onward parent hopcnt hLinks hw).follow
          (fun _ _ => costTo_eq)
          (List.mem_toFinset.mpr (mem_nodes.mpr hk))
          hBelow hLeast hFuel with
        ⟨p, hFollow, hWalk, hNodup, _⟩
      exact ⟨p, hFollow, hWalk, hNodup⟩
    · rcases hLeast.1 with
        ⟨p, hWalk⟩
      exact absurd hBelow (hFar p d hWalk).not_gt
  · intro hNe hNone
    rcases compute_routes_row parent hopcnt hLinks hk hw hNe with
      ⟨d, hShortest⟩ | ⟨hClear, _⟩
    · exact absurd ⟨d, hShortest.least, hShortest.below⟩
        hNone
    · exact congrArg route_entry.next_hop hClear

/- Three nodes in a row; the links lead one way. -/
def threeNodes : RouteLogic Nat where
  adj_ i :=
    if i = INDEX 1 2 4 then ⟨3, some 12⟩
    else if i = INDEX 2 3 4 then ⟨1, some 23⟩
    else ⟨INFINITY, none⟩
  route_ _ := ⟨0, none⟩
  size_ := 4

theorem threeNodes_links : threeNodes.Links := by
  rintro u v ⟨hu, hu'⟩ ⟨hv, hv'⟩ hPresent
  change u < 4 at hu'
  change v < 4 at hv'
  interval_cases u <;> interval_cases v <;>
    first | exact absurd rfl hPresent | decide

theorem threeNodes_into
    {u : Nat}
    {c : Rat}
    (hLink : threeNodes.Link u 2 c) : u = 1 ∧ c = 3 := by
  rcases hLink with
    ⟨⟨hu, hu'⟩, _, rfl, hPresent⟩
  change u < 4 at hu'
  interval_cases u
  · exact ⟨rfl, rfl⟩
  · exact absurd rfl hPresent
  · exact absurd rfl hPresent

theorem threeNodes_least :
    LeastCost threeNodes.Link 1 2 3 := by
  refine ⟨⟨[2], Walk.single
    ⟨by decide, by decide, rfl, by decide⟩⟩, ?_⟩
  intro p c hWalk
  cases hWalk with
  | snoc hBefore hLink =>
      rcases threeNodes_into hLink with
        ⟨rfl, rfl⟩
      have hLess := hBefore.nonneg threeNodes_links.positive
      exact le_add_of_nonneg_left hLess

theorem routes_correct_three :
    (∃ v,
      (threeNodes.compute_routes id fun _ => 0).ROUTE 1 2 =
        v ∧
      ∃ c d', threeNodes.Link 1 v c ∧
        LeastCost threeNodes.Link v 2 d' ∧ c + d' = 3) ∧
      (threeNodes.compute_routes id fun _ => 0).ROUTE 1 1 =
        1 := by
  have hRoutes :=
    routes_correct threeNodes id (fun _ => 0)
      threeNodes_links 1 2 ⟨by decide, by decide⟩
      ⟨by decide, by decide⟩
  rcases hRoutes.1 (by decide) 3 threeNodes_least
      (by decide) with
    ⟨v, hRoute, hSplit, _⟩
  exact ⟨⟨v, hRoute, hSplit⟩, hRoutes.2.2⟩

end RouteLogic

end Ns2
