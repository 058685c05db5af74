import Mathlib.Logic.Function.Basic
import Ns2.Dsr.Path

/-
  Paths as they are stored.

  The cells of a path are numbered from zero on; the array has
  `MAX_SR_LEN` of them, and a cell outside of it stands for
  memory of something else. Sections are removed by copying
  the cells behind them one by one.

  Main declarations:
    * `PathArray`, `PathArray.ids`
    * `PathArray.appendPath`, `PathArray.removeSection`
    * `PathArray.reverseInPlace`, `PathArray.CopyIntoPath`
    * `PathArray.compressPath`
-/

------------------------------------------------------------
-- Arrays
------------------------------------------------------------

namespace Ns2

namespace Dsr

structure PathArray where
  path : Int → ID
  len : Int
  cur_index : Int
  path_owner : ID

namespace PathArray

/- The ids of a path, in order. -/
def ids (p : PathArray) : List ID :=
  (List.range p.len.toNat).map fun k : Nat => p.path k

def hosts (p : PathArray) : List Host :=
  p.ids.map ID.toHost

/- Copy some cells, the first of them first. -/
def shift
    (path : Int → ID)
    (source target : Int)
    (count : Nat) : Int → ID :=
  (List.range count).foldl
    (fun path (k : Nat) =>
      Function.update path (target + k) (path (source + k)))
    path

/- The array, and the places that were written to. -/
def appendIds
    (p : PathArray) : List ID → PathArray × List Int
| [] => (p, [])
| id :: rest =>
    let next :=
      { p with
        path := Function.update p.path p.len id
        len := p.len + 1 }
    if next.len > (MAX_SR_LEN : Int) then
      ({ next with len := next.len - 1 }, [p.len])
    else
      let result := next.appendIds rest
      (result.1, p.len :: result.2)

def appendPath (p q : PathArray) : PathArray × List Int :=
  p.appendIds q.ids

def appendToPath (p : PathArray) (id : ID) : PathArray :=
  { p with
    path := Function.update p.path p.len id
    len := p.len + 1 }

def removeSection
    (p : PathArray)
    (start stop : Int) : PathArray :=
  if stop ≤ start then p
  else
    { p with
      cur_index :=
        if p.cur_index > start then
          p.cur_index - (stop - start)
        else p.cur_index
      path := shift p.path stop start (p.len - stop).toNat
      len := start + (p.len - stop).toNat }

/- The pairs of cells up to the middle are swapped. -/
def reverseInPlace (p : PathArray) : PathArray :=
  if p.len = 0 then p
  else
    { p with
      path :=
        (List.range (p.len.toNat / 2)).foldl
          (fun path (k : Nat) =>
            Function.update
              (Function.update path k (path (p.len - 1 - k)))
              (p.len - 1 - k) (path k))
          p.path
      cur_index := p.len - 1 - p.cur_index }

/- Either owner that is met first, from the end of the path. -/
def newOwner (old other : ID) : List ID → ID
| [] => old
| id :: rest =>
    if id.toHost = old.toHost then old
    else if id.toHost = other.toHost then other
    else newOwner old other rest

/- The longer of both lengths is kept. -/
def CopyIntoPath
    (target source : PathArray)
    (start stop : Int) : PathArray :=
  let copied :=
    { target with
      path :=
        (List.range (stop - start + 1).toNat).foldl
          (fun path (k : Nat) =>
            Function.update path k (source.path (start + k)))
          target.path
      len := max target.len (stop - start + 1) }
  { copied with
    path_owner :=
      newOwner target.path_owner source.path_owner
        copied.ids.reverse }

/- Look for the host at `fp` from behind, down to `fp`. -/
def lastEqual (p : PathArray) (fp : Int) : Nat → Option Int
| 0 => none
| n + 1 =>
    let bp := fp + (n + 1)
    if (p.path fp).toHost = (p.path bp).toHost then some bp
    else p.lastEqual fp n

/- Remove a double back to the host at `fp`. -/
def removeBack (p : PathArray) (fp : Int) : PathArray :=
  match p.lastEqual fp (p.len - 1 - fp).toNat with
  | none => p
  | some bp =>
      { p with
        path := shift p.path bp fp (p.len - bp).toNat
        len := fp + (p.len - bp).toNat }

theorem lastEqual_bounds
    {p : PathArray}
    {fp bp : Int}
    {n : Nat}
    (hFound : p.lastEqual fp n = some bp) :
    fp < bp ∧ bp ≤ fp + n := by
  induction n with
  | zero => exact absurd hFound nofun
  | succ n ih =>
      rw [lastEqual] at hFound
      by_cases hSame : (p.path fp).toHost =
          (p.path (fp + (n + 1))).toHost
      · rw [if_pos hSame] at hFound
        have hHere := Option.some.inj hFound
        omega
      · rw [if_neg hSame] at hFound
        have hBounds := ih hFound
        omega

theorem removeBack_len_le
    (p : PathArray)
    (fp : Int) : (p.removeBack fp).len ≤ p.len := by
  unfold removeBack
  split
  · exact le_rfl
  · next bp hFound =>
      have hBounds := lastEqual_bounds hFound
      dsimp only
      omega

/- Walk the forward pointer to the end of the path. -/
def compressFrom (p : PathArray) (fp : Int) : PathArray :=
  if fp < p.len then (p.removeBack fp).compressFrom (fp + 1)
  else p
termination_by (p.len - fp).toNat
decreasing_by
  have hLess := p.removeBack_len_le fp
  omega

def compressPath (p : PathArray) : PathArray :=
  p.compressFrom 0

end PathArray

end Dsr

end Ns2

------------------------------------------------------------
-- Cells and Ids
------------------------------------------------------------

namespace Ns2

namespace Dsr

namespace PathArray

variable {p q : PathArray}
variable {path : Int → ID}

theorem length_ids : p.ids.length = p.len.toNat := by
  rw [ids, List.length_map, List.length_range]

theorem ids_getElem?
    (k : Nat) :
    p.ids[k]? =
      if k < p.len.toNat then some (p.path k) else none := by
  by_cases hIn : k < p.len.toNat
  · rw [if_pos hIn, ids, List.getElem?_map,
      List.getElem?_range hIn]
    rfl
  · rw [if_neg hIn]
    refine List.getElem?_eq_none ?_
    rw [length_ids]
    exact Nat.le_of_not_lt hIn

/- Copying towards the front reads no cell written before. -/
theorem shift_apply
    {source target : Int}
    {count : Nat}
    (hFront : target ≤ source)
    (i : Int) :
    shift path source target count i =
      if target ≤ i ∧ i < target + count then
        path (source + (i - target))
      else path i := by
  induction count generalizing i with
  | zero =>
      have hNone : ¬ (target ≤ i ∧ i < target + (0 : Nat)) := by
        omega
      rw [if_neg hNone]
      rfl
  | succ count ih =>
      have hStep :
          shift path source target (count + 1) =
            Function.update (shift path source target count)
              (target + count)
              (shift path source target count
                (source + count)) := by
        unfold shift
        rw [List.range_succ, List.foldl_append]
        rfl
      rw [hStep]
      by_cases hHere : i = target + count
      · subst hHere
        have hIn : target ≤ target + (count : Int) ∧
            target + (count : Int) <
              target + (count + 1 : Nat) := by
          omega
        have hOld : ¬ (target ≤ source + (count : Int) ∧
            source + (count : Int) < target + count) := by
          omega
        rw [Function.update_self, ih, if_neg hOld, if_pos hIn]
        congr 1
        omega
      · rw [Function.update_of_ne hHere, ih]
        have hSame : (target ≤ i ∧ i < target + (count : Int)) ↔
            (target ≤ i ∧ i < target + (count + 1 : Nat)) := by
          omega
        exact if_congr hSame rfl rfl

/- The ids between `start` and `stop` are gone. -/
theorem ids_shift
    {start stop : Int}
    (hStart : 0 ≤ start)
    (hStop : start ≤ stop)
    (hEnd : stop ≤ p.len) :
    ids
        { p with
          path := shift p.path stop start (p.len - stop).toNat
          len := start + (p.len - stop).toNat } =
      p.ids.take start.toNat ++ p.ids.drop stop.toNat := by
  apply List.ext_getElem?
  intro k
  have hMin : min start.toNat p.len.toNat = start.toNat := by
    omega
  rw [ids_getElem?, List.getElem?_append, List.length_take,
    length_ids, hMin, List.getElem?_drop, List.getElem?_take,
    ids_getElem?, ids_getElem?]
  dsimp only
  rw [shift_apply hStop]
  by_cases hFront : k < start.toNat
  · have hAll : k < (start + (p.len - stop).toNat).toNat := by
      omega
    have hOld : ¬ (start ≤ (k : Int) ∧
        (k : Int) < start + (p.len - stop).toNat) := by
      omega
    have hIn : k < p.len.toNat := by omega
    rw [if_pos hAll, if_neg hOld, if_pos hFront, if_pos hFront,
      if_pos hIn]
  · rw [if_neg hFront]
    by_cases hBack : k < (start + (p.len - stop).toNat).toNat
    · have hNew : start ≤ (k : Int) ∧
          (k : Int) < start + (p.len - stop).toNat := by
        omega
      have hIn : stop.toNat + (k - start.toNat) <
          p.len.toNat := by
        omega
      have hCell : stop + ((k : Int) - start) =
          (stop.toNat + (k - start.toNat) : Nat) := by
        omega
      rw [if_pos hBack, if_pos hNew, if_pos hIn, hCell]
    · have hOut : ¬ stop.toNat + (k - start.toNat) <
          p.len.toNat := by
        omega
      rw [if_neg hBack, if_neg hOut]

end PathArray

end Dsr

end Ns2
