import Mathlib.Algebra.BigOperators.Group.List.Lemmas
import Mathlib.Algebra.BigOperators.Group.Finset.Basic
import Ns2.Lib.PartialRun
import Ns2.Queue.Srr.Matrix

/-
  A round of the weight spread sequence.

  While the pointer goes round once, each column is scanned
  as often as its nodes are worth, so that a queue is visited
  as often as its weight says, up to what is ahead of the
  scan in its column before and after the round.

  Main declarations:
    * `SRR.act`, `SRR.Allowed`, `SRR.matrix_run`
    * `SRR.scan`, `SRR.Matrix.scan`
    * `SRR.OnceRound`, `SRR.round_visits_weights`
-/

------------------------------------------------------------
-- Runs
------------------------------------------------------------

namespace Ns2

namespace SRR

/- What happens to the matrix, and to what it depends on. -/
inductive Event where
| activate (q weight : Nat)
| leave (q : Nat)
| next
| count (bytecnt : Int)
| widen (maxColumn : Nat)

/- A queue and the weights of its active queues. -/
abbrev Weighted : Type := SRR × (Nat → Nat)

def act
    (w : Weighted) :
    Event → Option Weighted
| .activate q weight =>
    (w.1.add_to_WM q weight).map fun s =>
      (s, Function.update w.2 q weight)
| .leave q =>
    (w.1.del_from_WM q).map fun s =>
      (s, Function.update w.2 q 0)
| .next => w.1.getNextNode.map fun r => (r.2, w.2)
| .count bytecnt => some ({ w.1 with bytecnt := bytecnt }, w.2)
| .widen maxColumn =>
    some ({ w.1 with maxColumn := maxColumn }, w.2)

/- Only idle queues become active and active ones idle, and
the highest column only grows, within the sequence. -/
def Allowed
    (maxOrder : Nat)
    (w : Weighted) :
    Event → Prop
| .activate q _ => w.2 q = 0
| .leave q => w.2 q ≠ 0
| .widen maxColumn =>
    w.1.maxColumn ≤ maxColumn ∧ maxColumn < maxOrder
| _ => True

variable {maxOrder : Nat}

theorem matrix_act
    {w w' : Weighted}
    {e : Event}
    (hMatrix : Matrix maxOrder w.2 w.1)
    (hAllowed : Allowed maxOrder w e)
    (hAct : act w e = some w') :
    Matrix maxOrder w'.2 w'.1 := by
  cases e with
  | activate q weight =>
      rcases Option.map_eq_some_iff.mp hAct with
        ⟨s, hCall, rfl⟩
      have hPos : weight ≠ 0 := by
        intro hZero
        rw [add_to_WM, if_pos hZero] at hCall
        cases hCall
      have hFits : weight < 2 ^ (w.1.maxColumn + 1) := by
        by_contra hBig
        have hPow := Nat.two_pow_pos (w.1.maxColumn + 1)
        rw [add_to_WM, if_neg hPos,
          if_pos (by omega)] at hCall
        cases hCall
      rcases hMatrix.add_to_WM hAllowed hPos hFits with
        ⟨s', hCall', hMatrix'⟩
      cases hCall.symm.trans hCall'
      exact hMatrix'
  | leave q =>
      rcases Option.map_eq_some_iff.mp hAct with
        ⟨s, hCall, rfl⟩
      rcases hMatrix.del_from_WM hAllowed with
        ⟨s', hCall', hMatrix'⟩
      cases hCall.symm.trans hCall'
      exact hMatrix'
  | next =>
      rcases Option.map_eq_some_iff.mp hAct with
        ⟨r, hCall, rfl⟩
      by_cases hBytes : w.1.bytecnt = 0
      · rw [getNextNode, if_pos hBytes] at hCall
        cases hCall
        exact hMatrix
      · have hBounds := hMatrix.bounds
        by_cases hBusy : 0 ≤ w.1.currMaxColumn
        · rcases hMatrix.getNextNode hBusy hBytes with
            ⟨n, s', hCall', _, hMatrix'⟩
          cases hCall.symm.trans hCall'
          exact hMatrix'
        · have hIdle := hMatrix.idle (by omega)
          rw [getNextNode, if_neg hBytes, hIdle.2.1] at hCall
          cases hCall
  | count bytecnt =>
      cases hAct
      exact { hMatrix with }
  | widen maxColumn =>
      cases hAct
      have hBounds := hMatrix.bounds
      have hWider := hAllowed.1
      exact
        { hMatrix with
          room := hAllowed.2
          bounds := by
            show -1 ≤ w.1.currMaxColumn ∧
              w.1.currMaxColumn ≤ (maxColumn : Int)
            omega }

theorem matrix_run
    (hOrder : 0 < maxOrder)
    {events : List Event}
    (hAllowed : PartialRun.Throughout act (Allowed maxOrder)
      (new maxOrder, fun _ => 0) events)
    {w : Weighted}
    (hRun : PartialRun.run act (new maxOrder, fun _ => 0)
      events = some w) :
    Matrix maxOrder w.2 w.1 :=
  PartialRun.invariant_if
    (P := fun w => Matrix maxOrder w.2 w.1)
    (fun _ _ _ hMatrix hGood hAct =>
      matrix_act hMatrix hGood hAct)
    (matrix_new hOrder) hRun hAllowed

end SRR

end Ns2

------------------------------------------------------------
-- Stretches of Calls
------------------------------------------------------------

namespace Ns2

namespace SRR

/- Calls with nothing in between: the queues visited, and
the columns looked at. -/
def scan : Nat → SRR → Option (List Nat × List Nat × SRR)
| 0, s => some ([], [], s)
| n + 1, s =>
    s.getNextNode.bind fun r =>
      (scan n r.2).map fun t =>
        ((r.1.map WmNode.queueid).toList ++ t.1,
          s.looked ++ t.2.1, t.2.2)

/- How far the pointer goes during `n` calls. -/
def turned
    (n : Nat)
    (s : SRR) : Nat :=
  ((scan n s).map fun t => t.2.1.length).getD 0

/- The pointer has gone round, or the next call takes it
past its place, over empty columns. -/
def OnceRound
    (n : Nat)
    (s : SRR) : Prop :=
  s.turned n ≤ 2 ^ s.order - 1 ∧
    (s.turned n = 2 ^ s.order - 1 ∨
      2 ^ s.order - 1 < s.turned (n + 1))

variable {maxOrder : Nat} {weights : Nat → Nat} {s : SRR}

/- What a stretch of calls does. -/
structure Scanned
    (maxOrder : Nat)
    (weights : Nat → Nat)
    (s : SRR)
    (visits cols : List Nat)
    (s' : SRR) : Prop where
  queues : s.ahead ++ cols.flatMap s.wm = visits ++ s'.ahead
  named : cols = Ruler.round (WSS.columns s.order)
    s.wss.ptr cols.length
  ptr : s'.wss.ptr = (s.wss.ptr + cols.length) %
    (WSS.columns s.order).length
  rest : s' = { s with wss := s'.wss, pwmCurr := s'.pwmCurr }
  matrix : Matrix maxOrder weights s'

theorem Matrix.scan
    (hMatrix : Matrix maxOrder weights s)
    (hBusy : 0 ≤ s.currMaxColumn)
    (hBytes : s.bytecnt ≠ 0)
    (n : Nat) :
    ∃ visits cols s', SRR.scan n s = some (visits, cols, s') ∧
      Scanned maxOrder weights s visits cols s' := by
  have hPtr := (hMatrix.ready hBusy).reads.ptr_lt_length
  induction n generalizing s with
  | zero =>
      refine ⟨[], [], s, rfl, ?_⟩
      constructor
      case queues => exact List.append_nil _
      case named => rfl
      case ptr => exact (Nat.mod_eq_of_lt hPtr).symm
      case rest => rfl
      case matrix => exact hMatrix
  | succ n ih =>
      rcases hMatrix.getNextNode hBusy hBytes with
        ⟨m, s₁, hCall, hSteps, hMatrix₁⟩
      have hBusy₁ : 0 ≤ s₁.currMaxColumn := by
        rw [hSteps.rest]
        exact hBusy
      have hBytes₁ : s₁.bytecnt ≠ 0 := by
        rw [hSteps.rest]
        exact hBytes
      have hWm : s₁.wm = s.wm := by rw [hSteps.rest]
      have hOrder : s₁.order = s.order := by
        rw [hSteps.rest]
        rfl
      rcases ih hMatrix₁ hBusy₁ hBytes₁
          (hMatrix₁.ready hBusy₁).reads.ptr_lt_length with
        ⟨visits, cols, s', hScan, hScanned⟩
      refine ⟨m.queueid :: visits, s.looked ++ cols, s', ?_, ?_⟩
      · rw [SRR.scan, hCall, Option.bind_some, hScan]
        rfl
      have hQueues := hScanned.queues
      have hNamed := hScanned.named
      have hPtr' := hScanned.ptr
      rw [hWm] at hQueues
      rw [hOrder, hSteps.wss.2] at hNamed hPtr'
      constructor
      case queues =>
        rw [List.flatMap_append, ← List.append_assoc,
          hSteps.queues, List.cons_append, hQueues]
        rfl
      case named =>
        rw [List.length_append, Ruler.round_add _ _ _ _ hPtr,
          ← hSteps.named, ← hNamed]
      case ptr =>
        rw [hPtr', Nat.mod_add_mod, List.length_append,
          Nat.add_assoc]
      case rest =>
        have hRest := hScanned.rest
        rw [hSteps.rest] at hRest
        exact hRest
      case matrix => exact hScanned.matrix

end SRR

end Ns2

------------------------------------------------------------
-- Rounds
------------------------------------------------------------

namespace Ns2

namespace SRR

variable {maxOrder : Nat} {weights : Nat → Nat} {s : SRR}

/- The nodes of a queue in the columns that a round names
are as many as its weight. -/
theorem Matrix.count_round
    (hMatrix : Matrix maxOrder weights s)
    {cols : List Nat}
    (hPerm : cols.Perm (WSS.columns s.order))
    (q : Nat) :
    (cols.flatMap s.wm).count q = weights q := by
  have hNodes : ∀ i, (s.wm i).count q =
      if (weights q).testBit i then 1 else 0 := by
    intro i
    by_cases hBit : (weights q).testBit i
    · rw [if_pos hBit]
      exact List.count_eq_one_of_mem (hMatrix.nodup i)
        ((hMatrix.bits i q).mpr hBit)
    · rw [if_neg hBit]
      exact List.count_eq_zero.mpr fun h =>
        hBit ((hMatrix.bits i q).mp h)
  have hRange : (WSS.columns s.order).toFinset ⊆
      Finset.range s.order := fun i hi =>
    Finset.mem_range.mpr
      (WSS.columns_lt (List.mem_toFinset.mp hi))
  calc (cols.flatMap s.wm).count q
      = (cols.map fun i => (s.wm i).count q).sum :=
        List.count_flatMap
    _ = ((WSS.columns s.order).map
          fun i => (s.wm i).count q).sum :=
        (hPerm.map _).sum_eq
    _ = ∑ i ∈ (WSS.columns s.order).toFinset,
          (WSS.columns s.order).count i *
            (s.wm i).count q := by
        rw [Finset.sum_list_map_count]
        rfl
    _ = ∑ i ∈ Finset.range s.order,
          (WSS.columns s.order).count i *
            (s.wm i).count q := by
        refine Finset.sum_subset hRange fun i _ hi => ?_
        rw [List.mem_toFinset] at hi
        rw [List.count_eq_zero.mpr hi, Nat.zero_mul]
    _ = ∑ i ∈ Finset.range s.order,
          2 ^ i * (if (weights q).testBit i then 1 else 0) := by
        refine Finset.sum_congr rfl fun i hi => ?_
        rw [WSS.count_columns (Finset.mem_range.mp hi),
          hNodes i]
    _ = weights q := Ruler.sum_digits (hMatrix.weight_lt q)

/- One more call at the end of a stretch. -/
theorem scan_concat
    {n : Nat}
    {visits cols : List Nat}
    {s' s₁ : SRR}
    {m : WmNode}
    (hScan : SRR.scan n s = some (visits, cols, s'))
    (hCall : s'.getNextNode = some (some m, s₁)) :
    SRR.scan (n + 1) s =
      some (visits ++ [m.queueid], cols ++ s'.looked, s₁) := by
  induction n generalizing s visits cols with
  | zero =>
      cases hScan
      rw [SRR.scan, hCall, Option.bind_some, SRR.scan,
        Option.map_some]
      show some ([m.queueid], s'.looked ++ [], s₁) = _
      rw [List.append_nil]
      rfl
  | succ n ih =>
      rw [SRR.scan] at hScan
      rcases Option.bind_eq_some_iff.mp hScan with
        ⟨r, hFirst, hMore⟩
      rcases Option.map_eq_some_iff.mp hMore with
        ⟨t, hRest, hEq⟩
      cases hEq
      have hLonger := ih hRest
      rw [SRR.scan, hFirst, Option.bind_some, hLonger,
        Option.map_some, List.append_assoc, List.append_assoc]

/- After a round the columns looked at are those of the whole
cycle, up to empty ones. -/
theorem Matrix.once_round
    (hMatrix : Matrix maxOrder weights s)
    (hBusy : 0 ≤ s.currMaxColumn)
    (hBytes : s.bytecnt ≠ 0)
    {n : Nat}
    {visits cols : List Nat}
    {s' : SRR}
    (hScan : SRR.scan n s = some (visits, cols, s'))
    (hScanned : Scanned maxOrder weights s visits cols s')
    (hRound : OnceRound n s) :
    ∃ more, (∀ i ∈ more, s.wm i = []) ∧
      (cols ++ more).Perm (WSS.columns s.order) := by
  have hPtr := (hMatrix.ready hBusy).reads.ptr_lt_length
  have hTurned : s.turned n = cols.length := by
    rw [turned, hScan]
    rfl
  have hCycle := Ruler.round_perm (WSS.columns s.order)
    s.wss.ptr hPtr
  rcases hRound with ⟨hLe, hEnd | hPast⟩
  · rw [hTurned, ← WSS.length_columns] at hEnd
    refine ⟨[], fun i hi => absurd hi List.not_mem_nil, ?_⟩
    rw [List.append_nil, hScanned.named, hEnd]
    exact hCycle
  · -- the next call looks past the end of the round
    have hWm : s'.wm = s.wm := by rw [hScanned.rest]
    have hOrder : s'.order = s.order := by
      rw [hScanned.rest]
      rfl
    have hBusy' : 0 ≤ s'.currMaxColumn := by
      rw [hScanned.rest]
      exact hBusy
    have hBytes' : s'.bytecnt ≠ 0 := by
      rw [hScanned.rest]
      exact hBytes
    rcases hScanned.matrix.getNextNode hBusy' hBytes' with
      ⟨m, s₁, hCall, hSteps, _⟩
    have hTurned' : s.turned (n + 1) =
        cols.length + s'.looked.length := by
      rw [turned, scan_concat hScan hCall]
      exact List.length_append
    rw [hTurned, ← WSS.length_columns] at hLe
    rw [hTurned', ← WSS.length_columns] at hPast
    have hSome : s'.looked ≠ [] := by
      intro hNone
      rw [hNone, List.length_nil] at hPast
      omega
    rcases (hSteps.looked hSome).2 with
      ⟨before, c, hLooked, hEmpty, _⟩
    have hNamed := hSteps.named
    rw [hOrder, hScanned.ptr] at hNamed
    have hPtr' : (s.wss.ptr + cols.length) %
        (WSS.columns s.order).length <
          (WSS.columns s.order).length :=
      Nat.mod_lt _ (by omega)
    have hMore := Ruler.take_round (WSS.columns s.order)
      (m := (WSS.columns s.order).length - cols.length)
      (n := s'.looked.length) hPtr' (by omega)
    rw [← hNamed] at hMore
    refine ⟨s'.looked.take
      ((WSS.columns s.order).length - cols.length), ?_, ?_⟩
    · intro i hi
      rw [← hWm]
      refine hEmpty i ?_
      have hLength := congrArg List.length hLooked
      rw [List.length_append, List.length_singleton]
        at hLength
      rw [hLooked, List.take_append_of_le_length (by omega)]
        at hi
      exact List.mem_of_mem_take hi
    · have hWhole : (WSS.columns s.order).length =
          cols.length +
            ((WSS.columns s.order).length - cols.length) := by
        omega
      rw [hWhole, Ruler.round_add _ _ _ _ hPtr,
        ← hScanned.named, ← hMore] at hCycle
      exact hCycle

/-
  The value `t` is `2 ^ (k - t)` times among the first
  `2 ^ k - 1` entries of the sequence.  In every state of a
  run with an active queue, a stretch of calls in which the
  pointer goes round once scans each column with a node as
  often as its nodes are worth, and visits a queue as often as
  its weight says, once more if the queue was ahead in the
  column being scanned and once less if it still is.
-/
theorem round_visits_weights (maxOrder : Nat) :
    (∀ k t, 1 ≤ t → t ≤ k → k ≤ maxOrder →
      ((WSS.init maxOrder).pwss.take (2 ^ k - 1)).count t =
        2 ^ (k - t)) ∧
    ∀ events s weights, 0 < maxOrder →
      PartialRun.Throughout act (Allowed maxOrder)
        (new maxOrder, fun _ => 0) events →
      PartialRun.run act (new maxOrder, fun _ => 0) events =
        some (s, weights) →
      0 ≤ s.currMaxColumn → s.bytecnt ≠ 0 →
      ∀ n, ∃ visits cols s',
        SRR.scan n s = some (visits, cols, s') ∧
        (OnceRound n s →
          (∀ i, s.wm i ≠ [] → cols.count i = 2 ^ i) ∧
          (∀ q, visits.count q + s'.ahead.count q =
            weights q + s.ahead.count q) ∧
          (s'.ahead = s.ahead →
            ∀ q, visits.count q = weights q)) := by
  constructor
  · intro k t hPos hLe hOrder
    rw [WSS.init_pwss, Ruler.take_ruler hOrder]
    exact Ruler.count_ruler hPos hLe
  intro events s weights hOrder hAllowed hRun hBusy hBytes n
  have hMatrix : Matrix maxOrder weights s :=
    matrix_run hOrder hAllowed hRun
  rcases hMatrix.scan hBusy hBytes n with
    ⟨visits, cols, s', hScan, hScanned⟩
  refine ⟨visits, cols, s', hScan, fun hRound => ?_⟩
  rcases hMatrix.once_round hBusy hBytes hScan hScanned hRound
    with ⟨more, hEmpty, hPerm⟩
  have hCount : ∀ q, visits.count q + s'.ahead.count q =
      weights q + s.ahead.count q := by
    intro q
    have hMore : more.flatMap s.wm = [] :=
      List.flatMap_eq_nil_iff.mpr hEmpty
    have hWeight := hMatrix.count_round hPerm q
    have hQueues := congrArg (List.count q) hScanned.queues
    rw [List.flatMap_append, hMore, List.append_nil] at hWeight
    rw [List.count_append, List.count_append, hWeight]
      at hQueues
    omega
  refine ⟨?_, hCount, fun hSame q => ?_⟩
  · intro i hNode
    have hFits := hMatrix.fits i hNode
    have hEq := hMatrix.order_eq
    have hNot : more.count i = 0 :=
      List.count_eq_zero.mpr fun h => hNode (hEmpty i h)
    have hAll := hPerm.count_eq i
    rw [List.count_append, hNot, Nat.add_zero,
      WSS.count_columns (by omega)] at hAll
    exact hAll
  · have hq := hCount q
    rw [hSame] at hq
    omega

theorem init_one : WSS.init 1 = ⟨0, [1]⟩ := by
  have hPwss := WSS.init_pwss 1
  have hPtr : (WSS.init 1).ptr = 0 := rfl
  generalize WSS.init 1 = w at hPwss hPtr
  cases w
  simp only at hPwss hPtr
  rw [hPwss, hPtr]
  rfl

/- Two queues of weight 1 that share the only column. -/
def twoQueues : List Event :=
  [.activate 0 1, .activate 1 1, .count 8]

def started : SRR where
  bytecnt := 8
  wss := ⟨0, [1]⟩
  wm := Function.update (Function.update (fun _ => []) 0 [0]) 0
    [1, 0]
  pwmCurr := some ⟨0, 0⟩
  wmEmptyFlag := false
  maxColumn := 0
  currMaxColumn := 0

theorem run_twoQueues :
    PartialRun.run act (new 1, fun _ => 0) twoQueues =
      some (started,
        Function.update (Function.update (fun _ => 0) 0 1)
          1 1) := by
  rw [new, init_one]
  rfl

theorem allowed_twoQueues :
    PartialRun.Throughout act (Allowed 1)
      (new 1, fun _ => 0) twoQueues := by
  rw [new, init_one]
  refine PartialRun.throughout_cons rfl fun s₁ h₁ => ?_
  cases h₁
  refine PartialRun.throughout_cons rfl fun s₂ h₂ => ?_
  cases h₂
  refine PartialRun.throughout_cons trivial fun s₃ _ => ?_
  exact PartialRun.throughout_nil s₃

theorem once_round_twoQueues :
    OnceRound 1 started ∧ OnceRound 2 started := by
  unfold OnceRound
  decide

/- Two calls come back to where they began. -/
theorem round_visits_weights_two :
    ∃ visits cols s',
      scan 2 started = some (visits, cols, s') ∧
        ∀ q, visits.count q =
          Function.update (Function.update (fun _ => 0) 0 1)
            1 1 q := by
  rcases (round_visits_weights 1).2 twoQueues started _
      Nat.one_pos allowed_twoQueues run_twoQueues
      (by decide) (by decide) 2 with
    ⟨visits, cols, s', hScan, hRound⟩
  have hWhole := (hRound once_round_twoQueues.2).2.2
  refine ⟨visits, cols, s', hScan, hWhole ?_⟩
  cases hScan
  rfl

/- The pointer goes round in one call, which visits only the
first of two queues in the only column. -/
theorem round_misses_queue :
    ∃ weights visits cols s',
      PartialRun.run act (new 1, fun _ => 0) twoQueues =
          some (started, weights) ∧
        scan 1 started = some (visits, cols, s') ∧
        cols.length = 2 ^ started.order - 1 ∧
        s'.wss.ptr = started.wss.ptr ∧
        weights 0 = 1 ∧ visits.count 0 = 0 :=
  ⟨_, _, _, _, run_twoQueues, rfl, rfl, rfl, rfl, rfl⟩

end SRR

end Ns2
