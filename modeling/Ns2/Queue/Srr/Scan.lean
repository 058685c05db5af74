import Ns2.Queue.Srr.Sequence

/-
  One step of the scan.

  The columns a call looks at are those that the sequence
  names next.  All but the last of them are empty, and what
  was ahead of the scan before the call, together with these
  columns, is the queue of the node that the call comes to
  and what is ahead of the scan then.

  Main declarations:
    * `SRR.Ready`, `SRR.Found`, `SRR.Ready.advance`
    * `SRR.ahead`, `SRR.Steps`, `SRR.getNextNode_steps`
-/

------------------------------------------------------------
-- Looking for a Column
------------------------------------------------------------

namespace Ns2

namespace SRR

/- The pointer is at a column, and there is a node. -/
structure Ready
    (maxOrder : Nat)
    (s : SRR) : Prop where
  reads : s.wss.Reads maxOrder s.order
  node : ∃ i, i < s.order ∧ s.wm i ≠ []

/- What `again` found: columns in turn, the last not empty. -/
structure Found
    (maxOrder : Nat)
    (s : SRR)
    (cols : List Nat)
    (s' : SRR) : Prop where
  named : cols =
    Ruler.round (WSS.columns s.order) s.wss.ptr cols.length
  wss : s'.wss.Reads maxOrder s.order ∧
    s'.wss.ptr = (s.wss.ptr + cols.length) %
      (WSS.columns s.order).length
  rest : s' = { s with wss := s'.wss, pwmCurr := s'.pwmCurr }
  node : ∃ before c q behind,
    cols = before ++ [c] ∧ (∀ i ∈ before, s.wm i = []) ∧
      s.wm c = q :: behind ∧ s'.pwmCurr = some ⟨q, c⟩

variable {maxOrder : Nat} {s : SRR}

/- One turn of the loop, from the column at the pointer. -/
theorem again_succ
    (hReads : s.wss.Reads maxOrder s.order)
    (fuel : Nat) :
    ∃ c, (WSS.columns s.order)[s.wss.ptr]? = some c ∧
      (s.wm c = [] →
        again s (fuel + 1) =
          (again { s with wss := s.wss.inc_ptr s.order }
            fuel).map fun r => (c :: r.1, r.2)) ∧
      ∀ q behind, s.wm c = q :: behind →
        again s (fuel + 1) =
          some ([c],
            { s with
              wss := s.wss.inc_ptr s.order
              pwmCurr := some ⟨q, c⟩ }) := by
  rcases hReads.get with ⟨t, hGet, _, hLe, hColumn⟩
  have hFits : ¬s.order < t := not_lt.mpr hLe
  refine ⟨s.order - t, hColumn, ?_, ?_⟩
  · intro hEmpty
    rw [again, hGet, Option.bind_some, if_neg hFits]
    simp only [hEmpty]
  · intro q behind hNode
    rw [again, hGet, Option.bind_some, if_neg hFits]
    simp only [hNode]

/- The loop finds the next column with a node, or all that
it looked at were empty. -/
theorem again_spec
    (hReads : s.wss.Reads maxOrder s.order)
    (fuel : Nat) :
    (again s fuel = none ∧
        ∀ i ∈ Ruler.round (WSS.columns s.order) s.wss.ptr
          fuel, s.wm i = []) ∨
      ∃ cols s', again s fuel = some (cols, s') ∧
        cols.length ≤ fuel ∧ Found maxOrder s cols s' := by
  induction fuel generalizing s with
  | zero =>
      exact .inl ⟨rfl, fun i hi => absurd hi List.not_mem_nil⟩
  | succ fuel ih =>
      have hInc := hReads.inc_ptr
      have hPtr := hReads.ptr_lt_length
      rcases again_succ hReads fuel with
        ⟨c, hColumn, hSkip, hStop⟩
      cases hNodes : s.wm c with
      | cons q behind =>
          refine .inr ⟨_, _, hStop q behind hNodes, ?_, ?_⟩
          · exact Nat.succ_le_succ (Nat.zero_le fuel)
          constructor
          case named =>
            rw [List.length_singleton, Ruler.round, hColumn]
            rfl
          case wss => exact ⟨hInc.2, hInc.1⟩
          case rest => rfl
          case node =>
            exact ⟨[], c, q, behind, rfl,
              fun i hi => absurd hi List.not_mem_nil, hNodes,
              rfl⟩
      | nil =>
          have hAgain := hSkip hNodes
          rcases @ih { s with wss := s.wss.inc_ptr s.order }
              hInc.2 with
            ⟨hNone, hEmpty⟩ | ⟨cols, s', hSome, hLength, hFound⟩
          · refine .inl ⟨?_, ?_⟩
            · rw [hAgain, hNone]
              rfl
            · intro i hi
              rw [Ruler.round, hColumn, ← hInc.1,
                List.mem_append] at hi
              rcases hi with hHere | hLater
              · rw [List.mem_singleton.mp hHere]
                exact hNodes
              · exact hEmpty i hLater
          · refine .inr ⟨c :: cols, s', ?_, ?_, ?_⟩
            · rw [hAgain, hSome]
              rfl
            · exact Nat.succ_le_succ hLength
            constructor
            case named =>
              rw [List.length_cons, Ruler.round, hColumn,
                ← hInc.1]
              exact congrArg (c :: ·) hFound.named
            case wss =>
              refine ⟨hFound.wss.1, hFound.wss.2.trans ?_⟩
              show ((s.wss.inc_ptr s.order).ptr +
                cols.length) % (WSS.columns s.order).length = _
              rw [hInc.1, Nat.mod_add_mod, List.length_cons]
              congr 1
              omega
            case rest => exact hFound.rest
            case node =>
              rcases hFound.node with
                ⟨before, c', q, behind, hCols, hEmpty, hNode,
                  hCurr⟩
              refine ⟨c :: before, c', q, behind, ?_, ?_, hNode,
                hCurr⟩
              · rw [hCols]
                rfl
              · intro i hi
                rcases List.mem_cons.mp hi with rfl | hOther
                · exact hNodes
                · exact hEmpty i hOther

/- A round names every column, so that the loop ends. -/
theorem Ready.advance
    (hReady : Ready maxOrder s) :
    ∃ cols s', s.advance = some (cols, s') ∧
      cols.length ≤ (WSS.columns s.order).length ∧
      Found maxOrder s cols s' := by
  rcases again_spec hReady.reads (2 ^ s.order - 1) with
    ⟨_, hEmpty⟩ | ⟨cols, s', hSome, hLength, hFound⟩
  · rcases hReady.node with ⟨i, hLt, hNode⟩
    have hCount := WSS.count_columns hLt
    have hMem : i ∈ WSS.columns s.order := by
      refine List.count_pos_iff.mp ?_
      rw [hCount]
      exact Nat.two_pow_pos i
    rw [← WSS.length_columns] at hEmpty
    have hPerm := Ruler.round_perm (WSS.columns s.order)
      s.wss.ptr hReady.reads.ptr_lt_length
    exact absurd (hEmpty i (hPerm.mem_iff.mpr hMem)) hNode
  · rw [WSS.length_columns]
    exact ⟨cols, s', hSome, hLength, hFound⟩

end SRR

end Ns2

------------------------------------------------------------
-- The Next Node
------------------------------------------------------------

namespace Ns2

namespace SRR

variable {maxOrder : Nat} {s : SRR}

/- The queues still ahead in the column being scanned. -/
def ahead (s : SRR) : List Nat :=
  s.pwmCurr.elim [] fun n => behind n.queueid (s.wm n.weight)

theorem behind_head
    (q : Nat)
    (column : List Nat) :
    behind q (q :: column) = column := by
  simp [behind]

theorem behind_skip
    {c q : Nat}
    (hNe : c ≠ q)
    (column : List Nat) :
    behind q (c :: column) = behind q column := by
  simp [behind, hNe]

theorem mem_of_mem_behind
    {q x : Nat}
    {column : List Nat}
    (hMem : x ∈ behind q column) :
    x ∈ column :=
  (List.dropWhile_sublist _).subset (List.mem_of_mem_tail hMem)

theorem not_mem_behind
    {q : Nat}
    {column : List Nat}
    (hNodup : column.Nodup) :
    q ∉ behind q column := by
  induction column with
  | nil => exact List.not_mem_nil
  | cons c column ih =>
      rw [List.nodup_cons] at hNodup
      by_cases hHere : c = q
      · subst hHere
        rw [behind_head]
        exact hNodup.1
      · rw [behind_skip hHere]
        exact ih hNodup.2

/- Behind the queue behind another one. -/
theorem behind_next
    {q q' : Nat}
    {column rest : List Nat}
    (hNodup : column.Nodup)
    (hBehind : behind q column = q' :: rest) :
    behind q' column = rest := by
  induction column with
  | nil => cases hBehind
  | cons c column ih =>
      rw [List.nodup_cons] at hNodup
      by_cases hHere : c = q
      · subst hHere
        rw [behind_head] at hBehind
        subst hBehind
        have hNe : c ≠ q' := by
          rintro rfl
          exact hNodup.1 List.mem_cons_self
        rw [behind_skip hNe, behind_head]
      · rw [behind_skip hHere] at hBehind
        have hMem : q' ∈ column := by
          apply mem_of_mem_behind (q := q)
          rw [hBehind]
          exact List.mem_cons_self
        have hNe : c ≠ q' := fun h => hNodup.1 (h ▸ hMem)
        rw [behind_skip hNe]
        exact ih hNodup.2 hBehind

/- What one call does, while nothing else happens. -/
structure Steps
    (maxOrder : Nat)
    (s : SRR)
    (n : WmNode)
    (s' : SRR) : Prop where
  queues : s.ahead ++ s.looked.flatMap s.wm =
    n.queueid :: s'.ahead
  named : s.looked = Ruler.round (WSS.columns s.order)
    s.wss.ptr s.looked.length
  wss : s'.wss.Reads maxOrder s.order ∧
    s'.wss.ptr = (s.wss.ptr + s.looked.length) %
      (WSS.columns s.order).length
  rest : s' = { s with wss := s'.wss, pwmCurr := s'.pwmCurr }
  curr : s'.pwmCurr = some n ∧ n.queueid ∈ s.wm n.weight
  /- Columns are looked at when nothing is ahead. -/
  looked : s.looked ≠ [] → s.ahead = [] ∧
    ∃ before c, s.looked = before ++ [c] ∧
      (∀ i ∈ before, s.wm i = []) ∧
      s.looked.length ≤ (WSS.columns s.order).length

theorem getNextNode_steps
    (hReady : Ready maxOrder s)
    (hNodup : ∀ i, (s.wm i).Nodup)
    (hBytes : s.bytecnt ≠ 0)
    (hTop : s.currMaxColumn ≠ -1)
    {n₀ : WmNode}
    (hCurr : s.pwmCurr = some n₀) :
    ∃ n s', s.getNextNode = some (some n, s') ∧
      Steps maxOrder s n s' := by
  have hAhead : s.ahead = behind n₀.queueid (s.wm n₀.weight) := by
    rw [ahead, hCurr]
    rfl
  cases hNext : behind n₀.queueid (s.wm n₀.weight) with
  | cons q rest =>
      have hSome : s.next n₀ = some q := by
        rw [next, hNext]
        rfl
      have hLooked : s.looked = [] := by
        rw [SRR.looked, if_neg hBytes, hCurr, Option.bind_some,
          hSome]
      refine ⟨⟨q, n₀.weight⟩,
        { s with pwmCurr := some ⟨q, n₀.weight⟩ }, ?_, ?_⟩
      · rw [getNextNode, if_neg hBytes, hCurr,
          Option.bind_some, hSome]
      have hPtr := hReady.reads.ptr_lt_length
      constructor
      case queues =>
        rw [hLooked, hAhead, hNext, List.flatMap_nil,
          List.append_nil]
        exact congrArg (q :: ·)
          (behind_next (hNodup n₀.weight) hNext).symm
      case named =>
        rw [hLooked]
        rfl
      case wss =>
        rw [hLooked]
        exact ⟨hReady.reads, (Nat.mod_eq_of_lt hPtr).symm⟩
      case rest => rfl
      case curr =>
        refine ⟨rfl, mem_of_mem_behind (q := n₀.queueid) ?_⟩
        show q ∈ behind n₀.queueid (s.wm n₀.weight)
        rw [hNext]
        exact List.mem_cons_self
      case looked => exact fun h => absurd hLooked h
  | nil =>
      have hNone : s.next n₀ = none := by
        rw [next, hNext]
        rfl
      rcases hReady.advance with
        ⟨cols, s', hAdvance, hLength, hFound⟩
      rcases hFound.node with
        ⟨before, c, q, rest, hCols, hEmpty, hNode, hCurr'⟩
      have hLooked : s.looked = cols := by
        rw [SRR.looked, if_neg hBytes, hCurr, Option.bind_some,
          hNone]
        simp only [hAdvance]
        rfl
      refine ⟨⟨q, c⟩, s', ?_, ?_⟩
      · rw [getNextNode, if_neg hBytes, hCurr,
          Option.bind_some, hNone]
        simp only [if_neg hTop, hAdvance, Option.map_some,
          hCurr']
      have hWm : s'.wm = s.wm := by
        rw [hFound.rest]
      constructor
      case queues =>
        have hBefore : before.flatMap s.wm = [] :=
          List.flatMap_eq_nil_iff.mpr hEmpty
        rw [hLooked, hAhead, hNext, hCols, List.flatMap_append,
          hBefore, List.flatMap_singleton, hNode, ahead, hCurr',
          Option.elim_some, hWm, hNode, behind_head]
        rfl
      case named =>
        rw [hLooked]
        exact hFound.named
      case wss =>
        rw [hLooked]
        exact hFound.wss
      case rest => exact hFound.rest
      case curr =>
        refine ⟨hCurr', ?_⟩
        show q ∈ s.wm c
        rw [hNode]
        exact List.mem_cons_self
      case looked =>
        intro _
        rw [hLooked]
        exact ⟨hAhead.trans hNext, before, c, hCols, hEmpty,
          hLength⟩

end SRR

end Ns2
