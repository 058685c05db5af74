import Mathlib.Logic.Relation
import Ns2.Dsr.PathArray

/-
  Paths and the length of their arrays.

  No sequence of operations makes a path longer than its
  array. Appending a path that does not fit writes one id
  behind the array before it stops.

  Main declarations:
    * `PathArray.Within`, `PathArray.Call`

  Correctness is proven by:
    * `PathArray.appendPath_spec`
    * `PathArray.path_capacity_iff`
-/

------------------------------------------------------------
-- Appending
------------------------------------------------------------

namespace Ns2

namespace Dsr

namespace PathArray

/- The length that a path may have. -/
def Within (p : PathArray) : Prop :=
  0 ≤ p.len ∧ p.len ≤ MAX_SR_LEN

/- The places that a path has cells for. -/
def Inside (writes : List Int) : Prop :=
  ∀ i ∈ writes, 0 ≤ i ∧ i < MAX_SR_LEN

variable {p q s : PathArray}
variable {id : ID}

theorem Within.length_ids
    (hWithin : p.Within) :
    (p.ids.length : Int) = p.len ∧
      p.ids.length ≤ MAX_SR_LEN := by
  rw [PathArray.length_ids]
  have hLow := hWithin.1
  have hHigh := hWithin.2
  omega

theorem ids_update
    (hLen : 0 ≤ p.len) :
    ids
        { p with
          path := Function.update p.path p.len id
          len := p.len + 1 } = p.ids ++ [id] := by
  have hNext : (p.len + 1).toNat = p.len.toNat + 1 := by omega
  have hLast : ((p.len.toNat : Nat) : Int) = p.len := by omega
  unfold ids
  dsimp only
  rw [hNext, List.range_succ, List.map_append, List.map_singleton,
    hLast, Function.update_self]
  refine congrArg (· ++ [id]) (List.map_congr_left fun k hk => ?_)
  have hBelow := List.mem_range.mp hk
  exact Function.update_of_ne (by omega) _ _

/- Writing behind the path leaves its ids. -/
theorem ids_write_end :
    ids { p with path := Function.update p.path p.len id } =
      p.ids := by
  refine List.map_congr_left fun k hk => ?_
  have hBelow : k < p.len.toNat := List.mem_range.mp hk
  exact Function.update_of_ne (by omega) _ _

/-
  As many ids as fit are appended; each is written behind the
  path, and so is the first that does not fit.
-/
theorem appendIds_spec
    (rest : List ID)
    (hWithin : p.Within) :
    (p.appendIds rest).1.ids =
        (p.ids ++ rest).take MAX_SR_LEN ∧
      (p.appendIds rest).1.Within ∧
      (Inside (p.appendIds rest).2 ↔
        p.len + rest.length ≤ MAX_SR_LEN) := by
  have hLength := hWithin.length_ids
  have hLow := hWithin.1
  have hHigh := hWithin.2
  induction rest generalizing p with
  | nil =>
      rw [appendIds, List.append_nil,
        List.take_of_length_le hLength.2]
      refine ⟨rfl, hWithin, iff_of_true nofun ?_⟩
      simpa using hHigh
  | cons id rest ih =>
      rw [appendIds]
      by_cases hFull : p.len + 1 > (MAX_SR_LEN : Int)
      · have hTop : p.len = (MAX_SR_LEN : Int) := by omega
        have hBack : p.len + 1 - 1 = p.len := by omega
        rw [if_pos hFull]
        dsimp only
        rw [hBack, List.take_append_of_le_length (by omega),
          List.take_of_length_le hLength.2]
        refine ⟨ids_write_end, hWithin, iff_of_false ?_ ?_⟩
        · intro hInside
          have hAt := hInside p.len List.mem_cons_self
          omega
        · rw [List.length_cons]
          omega
      · have hNext : Within
            { p with
              path := Function.update p.path p.len id
              len := p.len + 1 } := by
          constructor
          · change 0 ≤ p.len + 1
            omega
          · change p.len + 1 ≤ (MAX_SR_LEN : Int)
            omega
        rw [if_neg hFull]
        rcases ih hNext hNext.length_ids hNext.1 hNext.2 with
          ⟨hIds, hKeeps, hRest⟩
        rw [ids_update hLow, List.append_assoc] at hIds
        refine ⟨hIds, hKeeps, ?_⟩
        have hCount : p.len + ((id :: rest).length : Int) =
            p.len + 1 + rest.length := by
          rw [List.length_cons]
          omega
        rw [hCount]
        refine Iff.trans ?_ hRest
        constructor
        · exact fun hAll i hi =>
            hAll i (List.mem_cons_of_mem _ hi)
        · intro hAll i hi
          rcases List.mem_cons.mp hi with rfl | hi
          · omega
          · exact hAll i hi

theorem appendPath_spec
    (hp : p.Within)
    (hq : q.Within) :
    (p.appendPath q).1.ids =
        (p.ids ++ q.ids).take MAX_SR_LEN ∧
      (p.appendPath q).1.Within ∧
      (Inside (p.appendPath q).2 ↔
        p.len + q.len ≤ MAX_SR_LEN) := by
  rw [← hq.length_ids.1]
  exact appendIds_spec q.ids hp

end PathArray

end Dsr

end Ns2

------------------------------------------------------------
-- Sequences of Operations
------------------------------------------------------------

namespace Ns2

namespace Dsr

namespace PathArray

inductive Call where
| appendPath (q : PathArray)
| appendToPath (id : ID)
| removeSection (start stop : Int)
| reverseInPlace
| CopyIntoPath (source : PathArray) (start stop : Int)

/- What the operations assert, and what their callers keep. -/
def Legal (p : PathArray) : Call → Prop
| .appendPath q => q.Within
| .appendToPath _ => p.len < MAX_SR_LEN
| .removeSection start stop =>
    0 ≤ start ∧ start ≤ stop ∧ stop ≤ p.len
| .reverseInPlace => True
| .CopyIntoPath source start stop =>
    source.Within ∧ 0 ≤ start ∧ stop < source.len

def perform (p : PathArray) : Call → PathArray
| .appendPath q => (p.appendPath q).1
| .appendToPath id => p.appendToPath id
| .removeSection start stop => p.removeSection start stop
| .reverseInPlace => p.reverseInPlace
| .CopyIntoPath source start stop =>
    p.CopyIntoPath source start stop

def Step (p s : PathArray) : Prop :=
  ∃ call, p.Legal call ∧ s = p.perform call

variable {p s : PathArray}

theorem Within.removeSection
    {start stop : Int}
    (hWithin : p.Within)
    (hStart : 0 ≤ start)
    (hStop : stop ≤ p.len) :
    (p.removeSection start stop).Within := by
  have hHigh := hWithin.2
  unfold PathArray.removeSection
  by_cases hNone : stop ≤ start
  · rw [if_pos hNone]
    exact hWithin
  · rw [if_neg hNone]
    constructor
    · change 0 ≤ start + ((p.len - stop).toNat : Int)
      omega
    · change start + ((p.len - stop).toNat : Int) ≤
        (MAX_SR_LEN : Int)
      omega

theorem Within.reverseInPlace
    (hWithin : p.Within) : p.reverseInPlace.Within := by
  unfold PathArray.reverseInPlace
  split
  · exact hWithin
  · exact hWithin

theorem Within.step
    (hWithin : p.Within)
    (hStep : Step p s) : s.Within := by
  rcases hStep with ⟨call, hLegal, rfl⟩
  have hLow := hWithin.1
  have hHigh := hWithin.2
  cases call with
  | appendPath q => exact (appendPath_spec hWithin hLegal).2.1
  | appendToPath id =>
      have hRoom : p.len < (MAX_SR_LEN : Int) := hLegal
      constructor
      · change 0 ≤ p.len + 1
        omega
      · change p.len + 1 ≤ (MAX_SR_LEN : Int)
        omega
  | removeSection start stop =>
      exact hWithin.removeSection hLegal.1 hLegal.2.2
  | reverseInPlace => exact hWithin.reverseInPlace
  | CopyIntoPath source start stop =>
      rcases hLegal with ⟨⟨-, hSource⟩, hStart, hStop⟩
      constructor
      · exact hLow.trans (le_max_left _ _)
      · refine max_le hHigh ?_
        omega

theorem Within.run
    (hWithin : p.Within)
    (hRun : Relation.ReflTransGen Step p s) : s.Within := by
  induction hRun with
  | refl => exact hWithin
  | tail _ hStep ih => exact ih.step hStep

/-
  Appending writes into the array only, and leaves as much of
  both paths as fits, when the paths fit; every sequence of
  operations leaves a path that fits.
-/
theorem path_capacity_iff
    (p q : PathArray)
    (hp : p.Within)
    (hq : q.Within) :
    (Inside (p.appendPath q).2 ∧
        (p.appendPath q).1.ids =
          (p.ids ++ q.ids).take MAX_SR_LEN ∧
        (p.appendPath q).1.Within ↔
      p.len + q.len ≤ MAX_SR_LEN) ∧
    ∀ s, Relation.ReflTransGen Step p s → s.Within := by
  rcases appendPath_spec hp hq with ⟨hIds, hKeeps, hInside⟩
  refine ⟨?_, fun s hRun => hp.run hRun⟩
  rw [hInside]
  exact and_iff_left ⟨hIds, hKeeps⟩

/- A path of sixteen hosts, and one of a single host. -/
def fullPath : PathArray :=
  ⟨fun i => .new i.toNat .IP, 16, 0, .new 0 .IP⟩

def shortPath : PathArray :=
  ⟨fun i => .new i.toNat .IP, 1, 0, .new 0 .IP⟩

theorem path_capacity_short :
    ∃ p : PathArray, p.len = 12 ∧ p.Within ∧
      Inside (p.appendPath shortPath).2 ∧
      (p.appendPath shortPath).1.ids =
        (p.ids ++ shortPath.ids).take MAX_SR_LEN := by
  have hp : Within { fullPath with len := 12 } :=
    ⟨by decide, by decide⟩
  have hq : shortPath.Within := ⟨by decide, by decide⟩
  have hBoth :=
    (path_capacity_iff { fullPath with len := 12 } shortPath
      hp hq).1.mpr (by decide)
  exact ⟨_, rfl, hp, hBoth.1, hBoth.2.1⟩

theorem appendPath_outside :
    fullPath.Within ∧ shortPath.Within ∧
      (fullPath.appendPath shortPath).2 = [16] ∧
      ¬ Inside (fullPath.appendPath shortPath).2 := by
  have hWrites :
      (fullPath.appendPath shortPath).2 = [16] := by
    decide
  refine ⟨⟨by decide, by decide⟩, ⟨by decide, by decide⟩,
    hWrites, ?_⟩
  rw [hWrites]
  intro hInside
  exact absurd (hInside 16 List.mem_cons_self).2 (by decide)

end PathArray

end Dsr

end Ns2
