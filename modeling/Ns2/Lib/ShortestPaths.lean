import Mathlib.Algebra.Order.Monoid.Defs
import Mathlib.Algebra.Order.Monoid.Unbundled.Basic
import Mathlib.Data.List.Nodup
import Mathlib.Order.Lattice
import Mathlib.Tactic.Common

/-
  Least-cost walks in a graph with positive costs.

  A walk is the list of the nodes it goes through after its
  source.  A table that gives nodes a cost and first hops is
  exact when it is sound, and closed under every edge that
  leaves a node in it.

  Main declarations:
    * `Walk`, `Reachable`, `LeastCost`, `FirstHop`
    * `Labels.Sound`, `Labels.Closed`
    * `Labels.reachable_iff`, `Labels.leastCost`
    * `Labels.mem_hops_iff`
-/

------------------------------------------------------------
-- Walks
------------------------------------------------------------

namespace ShortestPaths

variable {ι κ : Type*}
variable [AddCommMonoid κ]

/- Walks from `s`: nodes after the source, target, cost. -/
inductive Walk
    (edge : ι → ι → κ → Prop)
    (s : ι) :
    List ι → ι → κ → Prop
| nil : Walk edge s [] s 0
| snoc
    {p : List ι}
    {u v : ι}
    {c w : κ} :
    Walk edge s p u c → edge u v w →
      Walk edge s (p ++ [v]) v (c + w)

variable (edge : ι → ι → κ → Prop)

def Reachable
    (s t : ι) : Prop :=
  ∃ p c, Walk edge s p t c

def LeastCost
    [LE κ]
    (s t : ι)
    (c : κ) : Prop :=
  (∃ p, Walk edge s p t c) ∧
    ∀ p c', Walk edge s p t c' → c ≤ c'

/- Some walk of the cost goes to `h` first. -/
def FirstHop
    (s t : ι)
    (c : κ)
    (h : ι) : Prop :=
  ∃ p, Walk edge s (h :: p) t c

variable {edge : ι → ι → κ → Prop}
variable {s t u v h : ι} {p : List ι} {c w : κ}

theorem Walk.single
    (hEdge : edge s v w) :
    Walk edge s [v] v w := by
  have hWalk := Walk.snoc Walk.nil hEdge
  rw [zero_add] at hWalk
  exact hWalk

theorem FirstHop.single
    (hEdge : edge s v w) :
    FirstHop edge s v w v := by
  exact ⟨[], Walk.single hEdge⟩

theorem FirstHop.snoc
    (hHop : FirstHop edge s u c h)
    (hEdge : edge u v w) :
    FirstHop edge s v (c + w) h := by
  rcases hHop with ⟨p, hWalk⟩
  exact ⟨p ++ [v], hWalk.snoc hEdge⟩

theorem Walk.target_mem
    (hWalk : Walk edge s p t c) :
    t ∈ s :: p := by
  cases hWalk with
  | nil => exact List.mem_cons_self
  | snoc hBefore hEdge =>
      apply List.mem_cons_of_mem
      exact List.mem_append_right _ List.mem_cons_self

/- A potential tells the costs of walks without repetition. -/
theorem Walk.potential
    {f : ι → κ}
    (hStep : ∀ u v w, edge u v w → u ≠ v → f v = f u + w)
    (hWalk : Walk edge s p t c)
    (hNodup : (s :: p).Nodup) :
    f t = f s + c := by
  induction hWalk with
  | nil => exact (add_zero _).symm
  | @snoc p u v c w hBefore hEdge ih =>
      rw [← List.cons_append] at hNodup
      rcases List.nodup_append.mp hNodup with
        ⟨hFirst, _, hApart⟩
      have hNe : u ≠ v :=
        hApart u hBefore.target_mem v List.mem_cons_self
      rw [hStep u v w hEdge hNe, ih hFirst, add_assoc]

theorem Walk.of_nil
    (hWalk : Walk edge s [] t c) :
    t = s ∧ c = 0 := by
  generalize hNil : ([] : List ι) = p at hWalk
  cases hWalk with
  | nil => exact ⟨rfl, rfl⟩
  | snoc hBefore hEdge =>
      exact absurd hNil.symm (List.concat_ne_nil _ _)

theorem Walk.reachable_of_mem
    (hWalk : Walk edge s p t c) :
    ∀ x ∈ p, Reachable edge s x := by
  induction hWalk with
  | nil =>
      intro x hx
      cases hx
  | snoc hBefore hEdge ih =>
      intro x hx
      rcases List.mem_append.mp hx with hOld | hNew
      · exact ih x hOld
      · cases List.mem_singleton.mp hNew
        exact ⟨_, _, hBefore.snoc hEdge⟩

theorem FirstHop.reachable
    (hHop : FirstHop edge s t c h) :
    Reachable edge s h := by
  rcases hHop with ⟨p, hWalk⟩
  exact hWalk.reachable_of_mem h List.mem_cons_self

/- A walk without repeated nodes, all in the set but its end. -/
def SimpleWithin
    (edge : ι → ι → κ → Prop)
    (s : ι)
    (inside : ι → Prop)
    (t : ι)
    (c : κ) : Prop :=
  ∃ p, Walk edge s p t c ∧ (s :: p).Nodup ∧
    ∀ x ∈ p, x ≠ t → inside x

theorem SimpleWithin.mono
    {inside inside' : ι → Prop}
    (hMono : ∀ x, inside x → inside' x)
    (hSimple : SimpleWithin edge s inside t c) :
    SimpleWithin edge s inside' t c := by
  rcases hSimple with ⟨p, hWalk, hNodup, hInside⟩
  exact ⟨p, hWalk, hNodup,
    fun x hx hNe => hMono x (hInside x hx hNe)⟩

/- An edge out of the set extends a simple walk in it. -/
theorem SimpleWithin.snoc
    {inside : ι → Prop}
    (hSimple : SimpleWithin edge s inside u c)
    (hSource : inside s)
    (hu : inside u)
    (hv : ¬ inside v)
    (hEdge : edge u v w) :
    SimpleWithin edge s inside v (c + w) := by
  rcases hSimple with ⟨p, hWalk, hNodup, hInside⟩
  have hAll : ∀ x ∈ s :: p, inside x := by
    intro x hx
    rcases List.mem_cons.mp hx with rfl | hx
    · exact hSource
    · by_cases hxu : x = u
      · exact hxu ▸ hu
      · exact hInside x hx hxu
  refine ⟨p ++ [v], hWalk.snoc hEdge, ?_, ?_⟩
  · rw [← List.cons_append]
    apply List.nodup_append.mpr
    refine ⟨hNodup, List.nodup_singleton v, ?_⟩
    intro x hx y hy hxy
    cases List.mem_singleton.mp hy
    exact hv (hxy ▸ hAll x hx)
  · intro x hx hNe
    rcases List.mem_append.mp hx with hOld | hNew
    · exact hAll x (List.mem_cons_of_mem s hOld)
    · exact absurd (List.mem_singleton.mp hNew) hNe

end ShortestPaths

------------------------------------------------------------
-- Labels
------------------------------------------------------------

namespace ShortestPaths

variable {ι κ : Type*}

/- The cost and the first hops a table gives to nodes. -/
abbrev Labels (ι κ : Type*) :=
  ι → Option (κ × List ι)

variable [LinearOrder κ]

/- A walk to `t` of cost `c` by `h` is no news to the table. -/
def Labels.Covers
    (label : Labels ι κ)
    (t : ι)
    (c : κ)
    (h : ι) : Prop :=
  ∃ c' hops, label t = some (c', hops) ∧
    (c' < c ∨ c' = c ∧ h ∈ hops)

variable {label : Labels ι κ}
variable {t h : ι} {c : κ}

theorem Labels.Covers.le
    (hCovers : label.Covers t c h)
    {c' : κ}
    {hops : List ι}
    (hLabel : label t = some (c', hops)) :
    c' ≤ c := by
  rcases hCovers with ⟨c₁, hops₁, hLabel₁, hBound⟩
  rw [hLabel] at hLabel₁
  cases hLabel₁
  rcases hBound with hLess | ⟨hEq, _⟩
  · exact hLess.le
  · exact hEq.le

theorem Labels.Covers.of_less
    (hCovers : label.Covers t c h)
    {c' : κ}
    (hLess : c < c')
    (h' : ι) :
    label.Covers t c' h' := by
  rcases hCovers with ⟨c₁, hops₁, hLabel₁, hBound⟩
  refine ⟨c₁, hops₁, hLabel₁, Or.inl ?_⟩
  rcases hBound with hLt | ⟨hEq, _⟩
  · exact hLt.trans hLess
  · exact hEq.trans_lt hLess

variable [AddCommMonoid κ]

/- Every label belongs to walks, by each of its first hops. -/
structure Labels.Sound
    (label : Labels ι κ)
    (edge : ι → ι → κ → Prop)
    (s : ι) : Prop where
  source : ∃ hops, label s = some (0, hops)
  nonempty :
    ∀ t c hops, label t = some (c, hops) → hops ≠ []
  walk :
    ∀ t c hops, label t = some (c, hops) →
      ∃ p, Walk edge s p t c
  hop :
    ∀ t c hops, label t = some (c, hops) → t ≠ s →
      ∀ h ∈ hops, FirstHop edge s t c h

/- The first hop to `v` by an edge from `u` with hop `h`. -/
def viaHop
    [DecidableEq ι]
    (s u v h : ι) : ι :=
  if u = s then v else h

/- Every edge from a node of the table is covered by it. -/
def Labels.Closed
    [DecidableEq ι]
    (label : Labels ι κ)
    (edge : ι → ι → κ → Prop)
    (s : ι) : Prop :=
  ∀ u c hops, label u = some (c, hops) →
    ∀ v w, edge u v w → ∀ h ∈ hops,
      label.Covers v (c + w) (viaHop s u v h)

variable {edge : ι → ι → κ → Prop}
variable {s : ι} {p : List ι}

variable [IsOrderedCancelAddMonoid κ]

theorem Walk.pos
    (hPos : ∀ u v w, edge u v w → 0 < w)
    (hWalk : Walk edge s p t c)
    (hNe : p ≠ []) :
    0 < c := by
  induction hWalk with
  | nil => exact absurd rfl hNe
  | @snoc p u v c w hBefore hEdge ih =>
      have hw := hPos u v w hEdge
      by_cases hNil : p = []
      · subst hNil
        rw [hBefore.of_nil.2, zero_add]
        exact hw
      · exact add_pos (ih hNil) hw

variable [DecidableEq ι]
variable (hSound : label.Sound edge s)
variable (hClosed : label.Closed edge s)
variable (hPos : ∀ u v w, edge u v w → 0 < w)

include hSound hClosed hPos

/- A sound and closed table covers every walk. -/
theorem Labels.covers_walk
    (hWalk : Walk edge s (h :: p) t c) :
    label.Covers t c h := by
  generalize hList : h :: p = q at hWalk
  induction hWalk generalizing p with
  | nil => cases hList
  | @snoc q u v c w hBefore hEdge ih =>
      cases q with
      | nil =>
          -- The walk is one edge, and starts with its end.
          rcases hBefore.of_nil with ⟨rfl, rfl⟩
          cases hList
          rcases hSound.source with ⟨hops, hLabel⟩
          rcases List.exists_mem_of_ne_nil hops
            (hSound.nonempty u 0 hops hLabel) with ⟨h₀, hh₀⟩
          have hCovers :=
            hClosed u 0 hops hLabel h w hEdge h₀ hh₀
          unfold viaHop at hCovers
          rw [if_pos rfl] at hCovers
          exact hCovers
      | cons x q =>
          cases hList
          have hCovers := ih rfl
          rcases hCovers with ⟨cu, hops, hu, hBound⟩
          rcases hBound with hLess | ⟨rfl, hh⟩
          · rcases List.exists_mem_of_ne_nil hops
              (hSound.nonempty u cu hops hu) with ⟨h₀, hh₀⟩
            have hEdgeCovers :=
              hClosed u cu hops hu v w hEdge h₀ hh₀
            apply hEdgeCovers.of_less
            exact add_lt_add_left hLess w
          · -- A walk back to the source costs too much.
            have hNe : u ≠ s := by
              rintro rfl
              rcases hSound.source with ⟨hops', hLabel⟩
              rw [hu] at hLabel
              cases hLabel
              exact absurd rfl
                (hBefore.pos hPos (List.cons_ne_nil _ _)).ne
            have hEdgeCovers :=
              hClosed u cu hops hu v w hEdge h hh
            unfold viaHop at hEdgeCovers
            rw [if_neg hNe] at hEdgeCovers
            exact hEdgeCovers

theorem Labels.le_of_walk
    (hWalk : Walk edge s p t c) :
    ∃ c' hops, label t = some (c', hops) ∧ c' ≤ c := by
  cases p with
  | nil =>
      rcases hWalk.of_nil with ⟨rfl, rfl⟩
      rcases hSound.source with ⟨hops, hLabel⟩
      exact ⟨0, hops, hLabel, le_rfl⟩
  | cons h p =>
      have hCovers :=
        label.covers_walk hSound hClosed hPos hWalk
      have hCopy := hCovers
      rcases hCopy with ⟨c', hops, hLabel, _⟩
      exact ⟨c', hops, hLabel, hCovers.le hLabel⟩

theorem Labels.reachable_iff :
    (label t).isSome ↔ Reachable edge s t := by
  rw [Option.isSome_iff_exists]
  constructor
  · rintro ⟨⟨c, hops⟩, hLabel⟩
    rcases hSound.walk t c hops hLabel with ⟨p, hWalk⟩
    exact ⟨p, c, hWalk⟩
  · rintro ⟨p, c, hWalk⟩
    rcases label.le_of_walk hSound hClosed hPos hWalk with
      ⟨c', hops, hLabel, _⟩
    exact ⟨(c', hops), hLabel⟩

theorem Labels.leastCost
    {hops : List ι}
    (hLabel : label t = some (c, hops)) :
    LeastCost edge s t c := by
  refine ⟨hSound.walk t c hops hLabel, ?_⟩
  intro p c' hWalk
  rcases label.le_of_walk hSound hClosed hPos hWalk with
    ⟨c₁, hops₁, hLabel₁, hLe⟩
  rw [hLabel] at hLabel₁
  cases hLabel₁
  exact hLe

theorem Labels.mem_hops_iff
    {hops : List ι}
    (hLabel : label t = some (c, hops))
    (hNe : t ≠ s) :
    h ∈ hops ↔ FirstHop edge s t c h := by
  constructor
  · exact hSound.hop t c hops hLabel hNe h
  · rintro ⟨p, hWalk⟩
    have hCovers :=
      label.covers_walk hSound hClosed hPos hWalk
    rcases hCovers with ⟨c', hops', hLabel', hBound⟩
    rw [hLabel] at hLabel'
    cases hLabel'
    rcases hBound with hLess | ⟨_, hMem⟩
    · exact absurd hLess (lt_irrefl c)
    · exact hMem

end ShortestPaths
