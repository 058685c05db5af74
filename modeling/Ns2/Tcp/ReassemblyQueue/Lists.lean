import Ns2.Lib.IntervalList
import Ns2.Tcp.ReassemblyQueue.Operations

/-
  The lists of the reassembly queue.

  The queue and the stack hold the same nodes, each once, and
  the nodes given back are apart from them.

  Main declarations:
    * `ReassemblyQueue.Shape`
    * `ReassemblyQueue.Shape.remove`
    * `ReassemblyQueue.Shape.link`
    * `ReassemblyQueue.blocks`
-/

------------------------------------------------------------
-- Shape
------------------------------------------------------------

namespace Ns2

namespace ReassemblyQueue

open LinkedList

/-
  The nodes `xs` of the queue, `ys` of the stack, and `fs`
  given back.
-/
structure Shape
    (rq : ReassemblyQueue)
    (xs ys fs : List Nat) : Prop where
  fifo : rq.fifo.Lists xs
  lifo : rq.lifo.Lists ys
  perm : ys.Perm xs
  free : Seg rq.fifo.next rq.freelist fs none
  free_nodup : fs.Nodup
  free_apart : ∀ i ∈ fs, i ∉ xs
  bounded : ∀ i, i ∈ xs ∨ i ∈ fs → i < rq.fresh

variable {rq rq' : ReassemblyQueue}
variable {as bs xs ys fs : List Nat} {x : Nat}

theorem shape_new
    (rcvNxt : Int) :
    Shape (new rcvNxt) [] [] [] := by
  constructor
  case fifo => exact Links.lists_empty
  case lifo => exact Links.lists_empty
  case perm => exact List.Perm.refl []
  case free => rfl
  case free_nodup => exact List.nodup_nil
  case free_apart =>
    intro i hi
    cases hi
  case bounded =>
    intro i hi
    simp at hi

/- The fields of the segments do not matter. -/
theorem Shape.congr
    (hShape : Shape rq xs ys fs)
    (hFifo : rq'.fifo = rq.fifo)
    (hLifo : rq'.lifo = rq.lifo)
    (hFree : rq'.freelist = rq.freelist)
    (hFresh : rq'.fresh = rq.fresh) :
    Shape rq' xs ys fs := by
  constructor
  case fifo => rw [hFifo]; exact hShape.fifo
  case lifo => rw [hLifo]; exact hShape.lifo
  case perm => exact hShape.perm
  case free => rw [hFifo, hFree]; exact hShape.free
  case free_nodup => exact hShape.free_nodup
  case free_apart => exact hShape.free_apart
  case bounded => rw [hFresh]; exact hShape.bounded

/- The walks over the queue have enough fuel. -/
theorem Shape.length_lt_fuel
    (hShape : Shape rq xs ys fs) :
    xs.length < rq.fuel := by
  have hSub : xs ⊆ List.range rq.fresh := by
    intro i hi
    exact List.mem_range.mpr (hShape.bounded i (Or.inl hi))
  have hLe := (hShape.fifo.nodup.subperm hSub).length_le
  rw [List.length_range] at hLe
  unfold fuel
  omega

theorem Shape.empty_iff
    (hShape : Shape rq xs ys fs) :
    rq.empty ↔ xs = [] := by
  unfold empty
  rw [hShape.fifo.first_eq]
  exact List.head?_eq_none_iff

/- The order of the two removals does not matter. -/
theorem fremove_sremove
    (rq : ReassemblyQueue)
    (x : Nat) :
    (rq.sremove x).fremove x = (rq.fremove x).sremove x :=
  rfl

/- Taking a node off both lists. -/
theorem Shape.remove
    (hShape : Shape rq (as ++ x :: bs) ys fs) :
    Shape ((rq.fremove x).sremove x) (as ++ bs) (ys.erase x)
      fs := by
  have hx : x ∈ ys := hShape.perm.mem_iff.mpr (by simp)
  rcases List.append_of_mem hx with ⟨cs, ds, rfl⟩
  have hErase : (cs ++ x :: ds).erase x = cs ++ ds := by
    have hNodup := List.nodup_middle.mp hShape.lifo.nodup
    have hOff := (List.nodup_cons.mp hNodup).1
    rw [List.erase_append_right _
      (fun hIn => hOff (List.mem_append_left ds hIn)),
      List.erase_cons_head]
  rw [hErase]
  constructor
  case fifo => exact hShape.fifo.unlink
  case lifo => exact hShape.lifo.unlink
  case perm =>
    apply List.Perm.cons_inv (a := x)
    exact List.perm_middle.symm.trans
      (hShape.perm.trans List.perm_middle)
  case free =>
    apply hShape.free.congr
    intro y hy
    change (rq.fifo.unlink x).next y = rq.fifo.next y
    unfold Links.unlink
    rw [Links.setPrev_next]
    apply Links.setNext_next_of_ne
    rw [hShape.fifo.prev_eq]
    apply Links.getLast?_ne_of_not_mem
    intro hIn
    exact hShape.free_apart y hy (List.mem_append_left _ hIn)
  case free_nodup => exact hShape.free_nodup
  case free_apart =>
    intro i hi hIn
    apply hShape.free_apart i hi
    simp only [List.mem_append, List.mem_cons] at hIn ⊢
    tauto
  case bounded =>
    intro i hi
    apply hShape.bounded i
    simp only [List.mem_append, List.mem_cons] at hi ⊢
    tauto

/- Giving a node back. -/
theorem Shape.delete
    (hShape : Shape rq xs ys fs)
    (hOff : x ∉ xs)
    (hUsed : x ∉ fs)
    (hOld : x < rq.fresh) :
    Shape (rq.deleteseginfo x) xs ys (x :: fs) := by
  have hNext : ∀ y, y ≠ x →
      (rq.deleteseginfo x).fifo.next y = rq.fifo.next y := by
    intro y hy
    exact Function.update_of_ne hy _ _
  constructor
  case fifo =>
    apply hShape.fifo.congr
    · rfl
    · rfl
    · intro y hy
      apply hNext
      rintro rfl
      exact hOff hy
    · intro y _
      rfl
  case lifo => exact hShape.lifo
  case perm => exact hShape.perm
  case free =>
    refine ⟨rfl, ?_⟩
    have hHere : (rq.deleteseginfo x).fifo.next x =
        rq.freelist := Function.update_self x _ _
    rw [hHere]
    apply hShape.free.congr
    intro y hy
    apply hNext
    rintro rfl
    exact hUsed hy
  case free_nodup =>
    exact List.nodup_cons.mpr ⟨hUsed, hShape.free_nodup⟩
  case free_apart =>
    intro i hi
    rcases List.mem_cons.mp hi with rfl | hi
    · exact hOff
    · exact hShape.free_apart i hi
  case bounded =>
    intro i hi
    simp only [List.mem_cons] at hi
    rcases hi with hi | rfl | hi
    · exact hShape.bounded i (Or.inl hi)
    · exact hOld
    · exact hShape.bounded i (Or.inr hi)

/- Taking a node off both lists and giving it back. -/
theorem Shape.remove_delete
    (hShape : Shape rq (as ++ x :: bs) ys fs) :
    Shape (((rq.fremove x).sremove x).deleteseginfo x)
      (as ++ bs) (ys.erase x) (x :: fs) := by
  apply hShape.remove.delete
  · exact (List.nodup_cons.mp
      (List.nodup_middle.mp hShape.fifo.nodup)).1
  · intro hIn
    exact hShape.free_apart x hIn (by simp)
  · exact hShape.bounded x (by simp)

/- A node to use is on none of the lists. -/
theorem Shape.newseginfo
    (hShape : Shape rq xs ys fs) :
    ∃ n fresh freelist fs',
      rq.newseginfo =
        (n, { rq with freelist := freelist, fresh := fresh }) ∧
      Shape { rq with freelist := freelist, fresh := fresh }
        xs ys fs' ∧
      n ∉ xs ∧ n ∉ fs' ∧ n < fresh := by
  unfold ReassemblyQueue.newseginfo
  rcases fs with _ | ⟨s, fs⟩
  · have hNone : rq.freelist = none := hShape.free
    refine ⟨rq.fresh, rq.fresh + 1, none, [], ?_, ?_, ?_,
      by simp, by omega⟩
    · rw [hNone]
    · constructor
      case fifo => exact hShape.fifo
      case lifo => exact hShape.lifo
      case perm => exact hShape.perm
      case free => rfl
      case free_nodup => exact List.nodup_nil
      case free_apart =>
        intro i hi
        cases hi
      case bounded =>
        intro i hi
        exact (hShape.bounded i hi).trans (Nat.lt_succ_self _)
    · intro hIn
      exact absurd (hShape.bounded _ (Or.inl hIn))
        (lt_irrefl _)
  · have hSome : rq.freelist = some s := hShape.free.1
    have hNodup := List.nodup_cons.mp hShape.free_nodup
    refine ⟨s, rq.fresh, rq.fifo.next s, fs, ?_, ?_, ?_,
      hNodup.1, ?_⟩
    · rw [hSome]
    · constructor
      case fifo => exact hShape.fifo
      case lifo => exact hShape.lifo
      case perm => exact hShape.perm
      case free => exact hShape.free.2
      case free_nodup => exact hNodup.2
      case free_apart =>
        intro i hi
        exact hShape.free_apart i (List.mem_cons_of_mem s hi)
      case bounded =>
        intro i hi
        apply hShape.bounded i
        exact hi.imp_right (List.mem_cons_of_mem s)
    · exact hShape.free_apart s List.mem_cons_self
    · exact hShape.bounded s (Or.inr List.mem_cons_self)

/- Putting a node on both lists. -/
theorem Shape.link
    (hShape : Shape rq (as ++ bs) ys fs)
    (hOff : x ∉ as ++ bs)
    (hUsed : x ∉ fs)
    (hOld : x < rq.fresh)
    (hFifo : rq'.fifo =
      rq.fifo.insert as.getLast? x bs.head?)
    (hLifo : rq'.lifo = rq.lifo.insert none x rq.lifo.first)
    (hFree : rq'.freelist = rq.freelist)
    (hFresh : rq'.fresh = rq.fresh) :
    Shape rq' (as ++ x :: bs) (x :: ys) fs := by
  constructor
  case fifo =>
    rw [hFifo]
    exact hShape.fifo.insert hOff
  case lifo =>
    rw [hLifo, hShape.lifo.first_eq]
    have hLists : rq.lifo.Lists ([] ++ ys) := hShape.lifo
    apply hLists.insert
    intro hIn
    exact hOff (hShape.perm.mem_iff.mp hIn)
  case perm =>
    exact (hShape.perm.cons x).trans List.perm_middle.symm
  case free =>
    rw [hFifo, hFree]
    apply hShape.free.congr
    intro y hy
    unfold Links.insert
    rw [Links.setPrev_next, Links.setNext_next_of_ne]
    · apply Function.update_of_ne
      rintro rfl
      exact hUsed hy
    · apply Links.getLast?_ne_of_not_mem
      intro hIn
      exact hShape.free_apart y hy
        (List.mem_append_left _ hIn)
  case free_nodup => exact hShape.free_nodup
  case free_apart =>
    intro i hi hIn
    rcases List.mem_cons.mp
        (List.perm_middle.mem_iff.mp hIn) with rfl | hIn
    · exact hUsed hi
    · exact hShape.free_apart i hi hIn
  case bounded =>
    rw [hFresh]
    intro i hi
    rcases hi with hIn | hi
    · rcases List.mem_cons.mp
          (List.perm_middle.mem_iff.mp hIn) with rfl | hIn
      · exact hOld
      · exact hShape.bounded i (Or.inl hIn)
    · exact hShape.bounded i (Or.inr hi)

end ReassemblyQueue

end Ns2

------------------------------------------------------------
-- Walks over the Lists
------------------------------------------------------------

namespace Ns2

namespace ReassemblyQueue

open LinkedList

/- The nodes of the queue, from the head on. -/
def order (rq : ReassemblyQueue) : List Nat :=
  walk rq.fifo.next rq.fuel rq.fifo.first

/- The nodes of the stack, from the top on. -/
def stack (rq : ReassemblyQueue) : List Nat :=
  walk rq.lifo.next rq.fuel rq.lifo.first

variable {rq : ReassemblyQueue} {xs ys fs : List Nat}

theorem Shape.order_eq
    (hShape : Shape rq xs ys fs) :
    rq.order = xs := by
  unfold order
  rw [hShape.fifo.forward.walk_take,
    List.take_of_length_le hShape.length_lt_fuel.le]

theorem Shape.stack_eq
    (hShape : Shape rq xs ys fs) :
    rq.stack = ys := by
  have hLength := hShape.perm.length_eq
  have hFuel := hShape.length_lt_fuel
  unfold stack
  rw [hShape.lifo.forward.walk_take,
    List.take_of_length_le (by omega)]

end ReassemblyQueue

end Ns2

------------------------------------------------------------
-- Blocks
------------------------------------------------------------

namespace Ns2

namespace ReassemblyQueue

open IntervalList

/- The numbers of a segment. -/
def interval
    (rq : ReassemblyQueue)
    (x : Nat) : Int × Int :=
  ((rq.seg x).startseq, (rq.seg x).endseq)

/- The numbers of several segments. -/
def blocks
    (rq : ReassemblyQueue)
    (xs : List Nat) : List (Int × Int) :=
  xs.map rq.interval

variable {rq rq' : ReassemblyQueue}
variable {as bs xs : List Nat} {x : Nat}

@[simp]
theorem blocks_nil : rq.blocks [] = [] :=
  rfl

@[simp]
theorem blocks_cons :
    rq.blocks (x :: xs) = rq.interval x :: rq.blocks xs :=
  rfl

@[simp]
theorem blocks_append :
    rq.blocks (as ++ bs) = rq.blocks as ++ rq.blocks bs :=
  List.map_append

theorem mem_blocks
    (hx : x ∈ xs) :
    rq.interval x ∈ rq.blocks xs :=
  List.mem_map_of_mem hx

theorem blocks_congr
    (hSame : ∀ i ∈ xs, rq'.interval i = rq.interval i) :
    rq'.blocks xs = rq.blocks xs :=
  List.map_congr_left hSame

theorem modify_seg
    {f : Seginfo → Seginfo} :
    (rq.modify x f).seg x = f (rq.seg x) :=
  Function.update_self x _ _

theorem modify_seg_of_ne
    {f : Seginfo → Seginfo}
    {i : Nat}
    (hNe : i ≠ x) :
    (rq.modify x f).seg i = rq.seg i :=
  Function.update_of_ne hNe _ _

@[simp]
theorem advance_seg
    {a b : Int} :
    (rq.advance a b).seg = rq.seg := by
  unfold advance
  split <;> rfl

@[simp]
theorem advance_total
    {a b : Int} :
    (rq.advance a b).total = rq.total := by
  unfold advance
  split <;> rfl

theorem advance_rcvNxt
    {a b : Int} :
    (rq.advance a b).rcvNxt =
      if a ≤ rq.rcvNxt then b else rq.rcvNxt := by
  unfold advance
  split <;> rfl

theorem advance_flags
    {a b : Int} :
    (rq.seg x).pflags = ((rq.advance a b).seg x).pflags := by
  rw [advance_seg]

/- The point moves over the block `x`. -/
theorem advance_point :
    let d := rq.advance (rq.seg x).startseq (rq.seg x).endseq
    d.rcvNxt =
      if (d.seg x).startseq ≤ rq.rcvNxt then
        (d.seg x).endseq
      else rq.rcvNxt := by
  intro d
  rw [advance_seg]
  exact advance_rcvNxt

theorem Shape.advance
    {xs ys fs : List Nat}
    {a b : Int}
    (hShape : Shape rq xs ys fs) :
    Shape (rq.advance a b) xs ys fs := by
  unfold ReassemblyQueue.advance
  split
  · apply hShape.congr <;> rfl
  · exact hShape

/-
  The queue `rq'` holds block `x` with the numbers from `lo`
  to `hi` between the blocks that were there before.
-/
structure Between
    (rq rq' : ReassemblyQueue)
    (as : List Nat)
    (x : Nat)
    (bs ys fs : List Nat)
    (lo hi : Int) : Prop where
  shape : Shape rq' (as ++ x :: bs) ys fs
  here : rq'.interval x = (lo, hi)
  others : ∀ i ∈ as ++ bs, rq'.interval i = rq.interval i

theorem Between.blocks_eq
    {ys fs : List Nat}
    {lo hi : Int}
    (hBetween : Between rq rq' as x bs ys fs lo hi) :
    rq'.blocks (as ++ x :: bs) =
      rq.blocks as ++ (lo, hi) :: rq.blocks bs := by
  rw [blocks_append, blocks_cons, hBetween.here]
  congr 1
  · exact blocks_congr fun i hi =>
      hBetween.others i (List.mem_append_left bs hi)
  · congr 1
    exact blocks_congr fun i hi =>
      hBetween.others i (List.mem_append_right as hi)

/- One field change in a queue that is otherwise the same. -/
theorem Shape.modify_between
    {ys fs : List Nat}
    {f : Seginfo → Seginfo}
    {lo hi : Int}
    (hShape : Shape rq (as ++ x :: bs) ys fs)
    (hLo : (f (rq.seg x)).startseq = lo)
    (hHi : (f (rq.seg x)).endseq = hi) :
    Between rq (rq.modify x f) as x bs ys fs lo hi := by
  constructor
  case shape => apply hShape.congr <;> rfl
  case here =>
    unfold interval
    rw [modify_seg, hLo, hHi]
  case others =>
    intro i hi
    unfold interval
    rw [modify_seg_of_ne]
    rintro rfl
    exact (List.nodup_cons.mp
      (List.nodup_middle.mp hShape.fifo.nodup)).1 hi

end ReassemblyQueue

end Ns2
