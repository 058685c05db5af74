import Mathlib.Data.List.Perm.Basic
import Ns2.Queue.Srr.Scan

/-
  The weight matrix of the active queues.

  Each active queue has a node in exactly the columns of the
  binary digits of its weight.  The highest column in use is
  known, the pointer fits the order this gives, and while
  there are nodes one of them is being scanned.  Activating,
  leaving and scanning keep this.

  Main declarations:
    * `SRR.Matrix`, `SRR.matrix_new`
    * `SRR.Matrix.add_to_WM`, `SRR.Matrix.del_from_WM`
    * `SRR.Matrix.getNextNode`
-/

------------------------------------------------------------
-- Invariant
------------------------------------------------------------

namespace Ns2

namespace SRR

/- The weights of the active queues; idle ones have none. -/
structure Matrix
    (maxOrder : Nat)
    (weights : Nat → Nat)
    (s : SRR) : Prop where
  pwss : s.wss.pwss = Ruler.ruler maxOrder
  room : s.maxColumn < maxOrder
  bits : ∀ i q, q ∈ s.wm i ↔ (weights q).testBit i = true
  nodup : ∀ i, (s.wm i).Nodup
  fits : ∀ i, s.wm i ≠ [] → (i : Int) ≤ s.currMaxColumn
  top : 0 ≤ s.currMaxColumn →
    s.wm s.currMaxColumn.toNat ≠ []
  bounds : -1 ≤ s.currMaxColumn ∧
    s.currMaxColumn ≤ s.maxColumn
  idle : s.currMaxColumn = -1 →
    s.wmEmptyFlag = true ∧ s.pwmCurr = none ∧ s.wss.ptr = 0
  busy : 0 ≤ s.currMaxColumn →
    s.wmEmptyFlag = false ∧ s.wss.ptr + 1 < 2 ^ s.order ∧
      ∃ n, s.pwmCurr = some n ∧ n.queueid ∈ s.wm n.weight

variable {maxOrder : Nat} {weights : Nat → Nat} {s : SRR}

theorem matrix_new
    (hOrder : 0 < maxOrder) :
    Matrix maxOrder (fun _ => 0) (new maxOrder) where
  pwss := WSS.init_pwss maxOrder
  room := hOrder
  bits := fun i q => by simp [new]
  nodup := fun _ => List.nodup_nil
  fits := fun _ h => absurd rfl h
  top := fun h => absurd h (Int.negSucc_not_nonneg 0).mp
  bounds := ⟨le_rfl, (by decide : (-1 : Int) ≤ (0 : Nat))⟩
  idle := fun _ => ⟨rfl, rfl, rfl⟩
  busy := fun h => absurd h (Int.negSucc_not_nonneg 0).mp

theorem Matrix.order_eq
    (hMatrix : Matrix maxOrder weights s) :
    (s.order : Int) = s.currMaxColumn + 1 := by
  have hBounds := hMatrix.bounds
  rw [order]
  omega

/- With a node in the matrix the loop can run. -/
theorem Matrix.ready
    (hMatrix : Matrix maxOrder weights s)
    (hBusy : 0 ≤ s.currMaxColumn) :
    Ready maxOrder s where
  reads := by
    have hOrder := hMatrix.order_eq
    have hBounds := hMatrix.bounds
    have hRoom := hMatrix.room
    exact ⟨hMatrix.pwss, by omega, (hMatrix.busy hBusy).2.1⟩
  node := by
    have hOrder := hMatrix.order_eq
    exact ⟨s.currMaxColumn.toNat, by omega, hMatrix.top hBusy⟩

/- Moving the scan within the matrix. -/
theorem Matrix.move
    (hMatrix : Matrix maxOrder weights s)
    (hBusy : 0 ≤ s.currMaxColumn)
    {s' : SRR}
    (hRest : s' =
      { s with wss := s'.wss, pwmCurr := s'.pwmCurr })
    (hReads : s'.wss.Reads maxOrder s.order)
    {n : WmNode}
    (hCurr : s'.pwmCurr = some n)
    (hNode : n.queueid ∈ s.wm n.weight) :
    Matrix maxOrder weights s' := by
  rw [hRest]
  exact
    { hMatrix with
      pwss := hReads.pwss
      idle := fun h => by
        have h : s.currMaxColumn = -1 := h
        omega
      busy := fun _ =>
        ⟨(hMatrix.busy hBusy).1, hReads.ptr_lt, n, hCurr,
          hNode⟩ }

/- An active queue has a node. -/
theorem Matrix.busy_of_active
    (hMatrix : Matrix maxOrder weights s)
    {q : Nat}
    (hActive : weights q ≠ 0) :
    0 ≤ s.currMaxColumn := by
  rcases Nat.exists_testBit_of_ne_zero hActive with ⟨i, hBit⟩
  have hMem := (hMatrix.bits i q).mpr hBit
  have hFits := hMatrix.fits i
    (List.ne_nil_of_mem hMem)
  omega

/- The weights fit below the highest column. -/
theorem Matrix.weight_lt
    (hMatrix : Matrix maxOrder weights s)
    (q : Nat) :
    weights q < 2 ^ s.order := by
  refine Nat.lt_pow_two_of_testBit _ fun i hLe => ?_
  by_contra hBit
  have hBit : (weights q).testBit i = true :=
    Bool.eq_true_of_not_eq_false hBit
  have hFits := hMatrix.fits i
    (List.ne_nil_of_mem ((hMatrix.bits i q).mpr hBit))
  have hOrder := hMatrix.order_eq
  omega

/- A call for the next node keeps the matrix. -/
theorem Matrix.getNextNode
    (hMatrix : Matrix maxOrder weights s)
    (hBusy : 0 ≤ s.currMaxColumn)
    (hBytes : s.bytecnt ≠ 0) :
    ∃ n s', s.getNextNode = some (some n, s') ∧
      Steps maxOrder s n s' ∧ Matrix maxOrder weights s' := by
  rcases (hMatrix.busy hBusy).2.2 with ⟨n₀, hCurr, _⟩
  rcases getNextNode_steps (hMatrix.ready hBusy) hMatrix.nodup
      hBytes (by omega) hCurr with
    ⟨n, s', hCall, hSteps⟩
  exact ⟨n, s', hCall, hSteps, hMatrix.move hBusy hSteps.rest
    hSteps.wss.1 hSteps.curr.1 hSteps.curr.2⟩

end SRR

end Ns2

------------------------------------------------------------
-- Activation
------------------------------------------------------------

namespace Ns2

namespace SRR

variable {maxOrder : Nat} {weights : Nat → Nat} {s : SRR}

theorem linkBefore_perm
    (p q : Nat)
    (column : List Nat) :
    (linkBefore p q column).Perm (q :: column) := by
  have hSplit : column.takeWhile (· ≠ p) ++
      column.dropWhile (· ≠ p) = column :=
    List.takeWhile_append_dropWhile
  exact List.perm_middle.trans
    (List.Perm.of_eq (congrArg (q :: ·) hSplit))

/- What linking nodes for `q` into some columns does. -/
structure Linked
    (q : Nat)
    (cols : List Nat)
    (s s' : SRR) : Prop where
  here : ∀ i ∈ cols, (s'.wm i).Perm (q :: s.wm i)
  other : ∀ i, i ∉ cols → s'.wm i = s.wm i
  kept : s'.wss = s.wss ∧ s'.maxColumn = s.maxColumn
  low : s.currMaxColumn ≤ s'.currMaxColumn
  high : ∀ i ∈ cols, (i : Int) ≤ s'.currMaxColumn
  reached : s'.currMaxColumn = s.currMaxColumn ∨
    ∃ i ∈ cols, s'.currMaxColumn = i
  flag : s'.wmEmptyFlag = (s.wmEmptyFlag && cols.isEmpty)
  curr : ∀ n, s.pwmCurr = some n → s'.pwmCurr = some n
  first : s.pwmCurr = none → s.wmEmptyFlag = true →
    cols ≠ [] → ∃ i ∈ cols, s'.pwmCurr = some ⟨q, i⟩

theorem linked_one
    (q i : Nat)
    (s : SRR) :
    Linked q [i] s (addNode q s i) := by
  constructor
  case here =>
    intro j hj
    rw [List.mem_singleton.mp hj, addNode]
    dsimp only
    rw [Function.update_self]
    have hEnd : (s.wm i ++ [q]).Perm (q :: s.wm i) :=
      List.perm_append_singleton q _
    cases s.pwmCurr with
    | none => exact hEnd
    | some n =>
        dsimp only
        split
        · exact linkBefore_perm _ _ _
        · exact hEnd
  case other =>
    intro j hj
    exact Function.update_of_ne
      (fun h => hj (List.mem_singleton.mpr h)) _ _
  case kept => exact ⟨rfl, rfl⟩
  case low =>
    rw [addNode]
    dsimp only
    split <;> omega
  case high =>
    intro j hj
    rw [List.mem_singleton.mp hj, addNode]
    dsimp only
    split <;> omega
  case reached =>
    rw [addNode]
    dsimp only
    split
    · exact .inr ⟨i, List.mem_singleton_self i, rfl⟩
    · exact .inl rfl
  case flag => exact (Bool.and_false _).symm
  case curr =>
    intro n hCurr
    have hNot : ¬(s.wmEmptyFlag = true ∧ s.pwmCurr = none) := by
      rw [hCurr]
      exact fun h => Option.some_ne_none n h.2
    exact (if_neg hNot).trans hCurr
  case first =>
    intro hNone hFlag _
    exact ⟨i, List.mem_singleton_self i, if_pos ⟨hFlag, hNone⟩⟩

theorem linked_nil
    (q : Nat)
    (s : SRR) :
    Linked q [] s s where
  here := fun _ h => absurd h List.not_mem_nil
  other := fun _ _ => rfl
  kept := ⟨rfl, rfl⟩
  low := le_rfl
  high := fun _ h => absurd h List.not_mem_nil
  reached := .inl rfl
  flag := (Bool.and_true _).symm
  curr := fun _ h => h
  first := fun _ _ h => absurd rfl h

theorem Linked.cons
    {q i : Nat}
    {cols : List Nat}
    {s s₁ s₂ : SRR}
    (hFresh : i ∉ cols)
    (hOne : Linked q [i] s s₁)
    (hMore : Linked q cols s₁ s₂) :
    Linked q (i :: cols) s s₂ := by
  have hOther : ∀ j, j ≠ i → s₁.wm j = s.wm j := fun j hj =>
    hOne.other j (fun h => hj (List.mem_singleton.mp h))
  constructor
  case here =>
    intro j hj
    rcases List.mem_cons.mp hj with rfl | hj
    · rw [hMore.other j hFresh]
      exact hOne.here j (List.mem_singleton_self j)
    · have hNe : j ≠ i := fun h => hFresh (h ▸ hj)
      rw [← hOther j hNe]
      exact hMore.here j hj
  case other =>
    intro j hj
    rw [List.mem_cons, not_or] at hj
    rw [hMore.other j hj.2, hOther j hj.1]
  case kept =>
    exact ⟨hMore.kept.1.trans hOne.kept.1,
      hMore.kept.2.trans hOne.kept.2⟩
  case low => exact hOne.low.trans hMore.low
  case high =>
    intro j hj
    rcases List.mem_cons.mp hj with rfl | hj
    · exact (hOne.high j (List.mem_singleton_self j)).trans
        hMore.low
    · exact hMore.high j hj
  case reached =>
    rcases hMore.reached with hSame | ⟨j, hj, hTop⟩
    · rcases hOne.reached with hSame' | ⟨j, hj, hTop⟩
      · exact .inl (hSame.trans hSame')
      · rw [List.mem_singleton.mp hj] at hTop
        exact .inr ⟨i, List.mem_cons_self, hSame.trans hTop⟩
    · exact .inr ⟨j, List.mem_cons_of_mem i hj, hTop⟩
  case flag =>
    rw [hMore.flag, hOne.flag]
    simp
  case curr =>
    exact fun n hCurr => hMore.curr n (hOne.curr n hCurr)
  case first =>
    intro hNone hFlag _
    rcases hOne.first hNone hFlag (List.cons_ne_nil _ _) with
      ⟨j, hj, hCurr⟩
    rw [List.mem_singleton.mp hj] at hCurr
    exact ⟨i, List.mem_cons_self, hMore.curr _ hCurr⟩

theorem linked_foldl
    (q : Nat)
    {cols : List Nat}
    (hNodup : cols.Nodup)
    (s : SRR) :
    Linked q cols s (cols.foldl (addNode q) s) := by
  induction cols generalizing s with
  | nil => exact linked_nil q s
  | cons i cols ih =>
      rw [List.nodup_cons] at hNodup
      exact (linked_one q i s).cons hNodup.1 (ih hNodup.2 _)

/- The columns of the digits of a weight. -/
def digits
    (maxColumn weight : Nat) : List Nat :=
  (List.range (maxColumn + 1)).reverse.filter weight.testBit

theorem nodup_digits
    (maxColumn weight : Nat) :
    (digits maxColumn weight).Nodup :=
  ((List.nodup_reverse.mpr List.nodup_range).filter _)

theorem mem_digits
    {maxColumn weight : Nat}
    (hFits : weight < 2 ^ (maxColumn + 1))
    (i : Nat) :
    i ∈ digits maxColumn weight ↔
      weight.testBit i = true := by
  rw [digits, List.mem_filter, List.mem_reverse,
    List.mem_range]
  refine ⟨fun h => h.2, fun hBit => ⟨?_, hBit⟩⟩
  by_contra hNot
  have hSmall : weight < 2 ^ i :=
    hFits.trans_le (Nat.pow_le_pow_right (by omega) (by omega))
  rw [Nat.testBit_lt_two_pow hSmall] at hBit
  exact Bool.noConfusion hBit

/- What making the sequence fit longer does. -/
theorem stretchPtr_spec
    (s : SRR)
    (old_colno : Int) :
    s.stretchPtr old_colno =
        { s with wss := (s.stretchPtr old_colno).wss } ∧
      (s.stretchPtr old_colno).wss.pwss = s.wss.pwss ∧
      (s.stretchPtr old_colno).wss.ptr =
        if old_colno < s.currMaxColumn ∧ 0 ≤ old_colno then
          (s.wss.ptr + 1) *
            2 ^ (s.currMaxColumn - old_colno).toNat - 1
        else s.wss.ptr := by
  unfold stretchPtr
  split
  · exact ⟨rfl, rfl, rfl⟩
  · exact ⟨rfl, rfl, rfl⟩

/- The place in the sequence stays one of the sequence. -/
theorem stretched_lt
    {ptr d e : Nat}
    (hPtr : ptr + 1 < 2 ^ d) :
    (ptr + 1) * 2 ^ e - 1 + 1 < 2 ^ (d + e) := by
  have hPos := Nat.two_pow_pos e
  have hProd : (ptr + 1) * 2 ^ e < 2 ^ d * 2 ^ e :=
    Nat.mul_lt_mul_of_pos_right hPtr hPos
  have hOne : 0 < (ptr + 1) * 2 ^ e :=
    Nat.mul_pos (Nat.succ_pos ptr) hPos
  rw [Nat.pow_add]
  omega

/- An idle queue becomes active. -/
theorem Matrix.add_to_WM
    (hMatrix : Matrix maxOrder weights s)
    {q weight : Nat}
    (hIdle : weights q = 0)
    (hPos : weight ≠ 0)
    (hFits : weight < 2 ^ (s.maxColumn + 1)) :
    ∃ s', s.add_to_WM q weight = some s' ∧
      Matrix maxOrder (Function.update weights q weight)
        s' := by
  have hMem := mem_digits hFits
  have hLinked := linked_foldl q
    (nodup_digits s.maxColumn weight) s
  have hCall : s.add_to_WM q weight =
      some ((s.addRow q weight).stretchPtr
        s.currMaxColumn) := by
    rw [SRR.add_to_WM, if_neg hPos, if_neg (by omega)]
  refine ⟨_, hCall, ?_⟩
  have hRow : s.addRow q weight =
      (digits s.maxColumn weight).foldl (addNode q) s := rfl
  rw [hRow]
  have hSome : digits s.maxColumn weight ≠ [] := by
    rcases Nat.exists_testBit_of_ne_zero hPos with ⟨i, hBit⟩
    exact List.ne_nil_of_mem ((hMem i).mpr hBit)
  generalize digits s.maxColumn weight = cols
    at hMem hLinked hSome
  generalize cols.foldl (addNode q) s = s₁ at hLinked
  have hNone : ∀ i, q ∉ s.wm i := by
    intro i hi
    have hBit := (hMatrix.bits i q).mp hi
    rw [hIdle, Nat.zero_testBit] at hBit
    exact Bool.noConfusion hBit
  have hBits : ∀ i x, x ∈ s₁.wm i ↔
      (Function.update weights q weight x).testBit i =
        true := by
    intro i x
    by_cases hX : x = q
    · subst hX
      rw [Function.update_self, ← hMem i]
      by_cases hi : i ∈ cols
      · exact iff_of_true
          ((hLinked.here i hi).mem_iff.mpr
            List.mem_cons_self) hi
      · rw [hLinked.other i hi]
        exact iff_of_false (hNone i) hi
    · rw [Function.update_of_ne hX, ← hMatrix.bits i x]
      by_cases hi : i ∈ cols
      · rw [(hLinked.here i hi).mem_iff, List.mem_cons]
        exact or_iff_right hX
      · rw [hLinked.other i hi]
  have hOld := hMatrix.bounds
  have hLow := hLinked.low
  have hTopBound : s₁.currMaxColumn ≤ s.maxColumn := by
    rcases hLinked.reached with hSame | ⟨i, hi, hTop⟩
    · omega
    · have hBit := (hMem i).mp hi
      by_contra hNot
      have hSmall : weight < 2 ^ i := hFits.trans_le
        (Nat.pow_le_pow_right (by omega) (by omega))
      rw [Nat.testBit_lt_two_pow hSmall] at hBit
      exact Bool.noConfusion hBit
  rcases List.exists_mem_of_ne_nil cols hSome with ⟨i₀, hi₀⟩
  have hBusy : 0 ≤ s₁.currMaxColumn := by
    have := hLinked.high i₀ hi₀
    omega
  rcases stretchPtr_spec s₁ s.currMaxColumn with
    ⟨hRest, hPwss, hPtr⟩
  rw [hRest]
  generalize (s₁.stretchPtr s.currMaxColumn).wss = wss
    at hPwss hPtr
  constructor
  case pwss =>
    exact hPwss.trans (hLinked.kept.1 ▸ hMatrix.pwss)
  case room =>
    show s₁.maxColumn < maxOrder
    rw [hLinked.kept.2]
    exact hMatrix.room
  case bits => exact hBits
  case nodup =>
    intro i
    by_cases hi : i ∈ cols
    · exact (hLinked.here i hi).nodup_iff.mpr
        (List.nodup_cons.mpr ⟨hNone i, hMatrix.nodup i⟩)
    · have hSame := hLinked.other i hi
      show (s₁.wm i).Nodup
      rw [hSame]
      exact hMatrix.nodup i
  case fits =>
    intro i hNode
    by_cases hi : i ∈ cols
    · exact hLinked.high i hi
    · have hNode : s₁.wm i ≠ [] := hNode
      rw [hLinked.other i hi] at hNode
      exact (hMatrix.fits i hNode).trans hLow
  case top =>
    intro _
    show s₁.wm s₁.currMaxColumn.toNat ≠ []
    rcases hLinked.reached with hSame | ⟨i, hi, hTop⟩
    · rw [hSame]
      by_cases hi : s.currMaxColumn.toNat ∈ cols
      · exact List.ne_nil_of_mem
          ((hLinked.here _ hi).mem_iff.mpr List.mem_cons_self)
      · rw [hLinked.other _ hi]
        exact hMatrix.top (hSame ▸ hBusy)
    · rw [hTop, Int.toNat_natCast]
      exact List.ne_nil_of_mem
        ((hLinked.here i hi).mem_iff.mpr List.mem_cons_self)
  case bounds =>
    show -1 ≤ s₁.currMaxColumn ∧
      s₁.currMaxColumn ≤ s₁.maxColumn
    rw [hLinked.kept.2]
    omega
  case idle =>
    intro h
    have h : s₁.currMaxColumn = -1 := h
    omega
  case busy =>
    intro _
    refine ⟨?_, ?_, ?_⟩
    · show s₁.wmEmptyFlag = false
      rw [hLinked.flag, List.isEmpty_eq_false_iff.mpr hSome,
        Bool.and_false]
    · show wss.ptr + 1 < 2 ^ (s₁.currMaxColumn + 1).toNat
      rw [hPtr, hLinked.kept.1]
      by_cases hWas : 0 ≤ s.currMaxColumn
      · have hFit := (hMatrix.busy hWas).2.1
        by_cases hGrew : s.currMaxColumn < s₁.currMaxColumn
        · rw [if_pos ⟨hGrew, hWas⟩]
          have hOrder : (s₁.currMaxColumn + 1).toNat =
              s.order +
                (s₁.currMaxColumn - s.currMaxColumn).toNat := by
            rw [order]
            omega
          rw [hOrder]
          exact stretched_lt hFit
        · have hSame : s₁.currMaxColumn = s.currMaxColumn := by
            omega
          rw [if_neg (fun h => hGrew h.1), hSame]
          exact hFit
      · have hNew : s.currMaxColumn = -1 := by omega
        rw [if_neg (fun h => hWas h.2),
          (hMatrix.idle hNew).2.2]
        have hOne : (2 : Nat) ^ 1 ≤
            2 ^ (s₁.currMaxColumn + 1).toNat :=
          Nat.pow_le_pow_right (by omega) (by omega)
        omega
    · by_cases hWas : 0 ≤ s.currMaxColumn
      · rcases (hMatrix.busy hWas).2.2 with ⟨n, hCurr, hNode⟩
        refine ⟨n, hLinked.curr n hCurr, ?_⟩
        by_cases hi : n.weight ∈ cols
        · exact (hLinked.here _ hi).mem_iff.mpr
            (List.mem_cons_of_mem q hNode)
        · show n.queueid ∈ s₁.wm n.weight
          rw [hLinked.other _ hi]
          exact hNode
      · have hNew := hMatrix.idle (by omega)
        rcases hLinked.first hNew.2.1 hNew.1 hSome with
          ⟨i, hi, hCurr⟩
        exact ⟨⟨q, i⟩, hCurr, (hLinked.here i hi).mem_iff.mpr
          List.mem_cons_self⟩

end SRR

end Ns2

------------------------------------------------------------
-- Leaving
------------------------------------------------------------

namespace Ns2

namespace SRR

variable {maxOrder : Nat} {weights : Nat → Nat} {s : SRR}

/- The highest column with a node, if there is one. -/
theorem topColumn_spec
    (s : SRR)
    (n : Nat) :
    (s.topColumn n = none ∧ ∀ i, i < n → s.wm i = []) ∨
      ∃ i, s.topColumn n = some i ∧ i < n ∧ s.wm i ≠ [] ∧
        ∀ j, i < j → j < n → s.wm j = [] := by
  induction n with
  | zero => exact .inl ⟨rfl, fun i hi => absurd hi (by omega)⟩
  | succ n ih =>
      by_cases hNode : s.wm n ≠ []
      · refine .inr ⟨n, if_pos hNode, by omega, hNode, ?_⟩
        exact fun j hLow hHigh => absurd hLow (by omega)
      · have hEmpty := not_not.mp hNode
        have hStep : s.topColumn (n + 1) = s.topColumn n :=
          if_neg hNode
        rw [hStep]
        rcases ih with ⟨hNone, hAll⟩ | ⟨i, hTop, hLt, hi, hAll⟩
        · refine .inl ⟨hNone, fun i hi => ?_⟩
          rcases Nat.lt_succ_iff_lt_or_eq.mp hi with hLt | rfl
          · exact hAll i hLt
          · exact hEmpty
        · refine .inr ⟨i, hTop, by omega, hi, ?_⟩
          intro j hLow hHigh
          rcases Nat.lt_succ_iff_lt_or_eq.mp hHigh with
            hLt | rfl
          · exact hAll j hLow hLt
          · exact hEmpty

theorem Matrix.without_bits
    (hMatrix : Matrix maxOrder weights s)
    (q : Nat)
    (i x : Nat) :
    x ∈ (s.wm i).erase q ↔
      (Function.update weights q 0 x).testBit i = true := by
  rw [(hMatrix.nodup i).mem_erase_iff, hMatrix.bits]
  by_cases hX : x = q
  · subst hX
    rw [Function.update_self, Nat.zero_testBit]
    exact iff_of_false (fun h => h.1 rfl) Bool.noConfusion
  · rw [Function.update_of_ne hX]
    exact and_iff_right hX

/- The scan stays at a node that is left, if it does. -/
theorem Matrix.without_curr
    (hMatrix : Matrix maxOrder weights s)
    {q : Nat}
    {n n' : WmNode}
    (hNode : n.queueid ∈ s.wm n.weight)
    (hCurr : (s.without q n).pwmCurr = some n') :
    n'.queueid ∈ (s.without q n).wm n'.weight := by
  rw [without] at hCurr
  show n'.queueid ∈ (s.wm n'.weight).erase q
  dsimp only at hCurr
  by_cases hHere : n.queueid = q
  · rw [if_pos hHere] at hCurr
    rcases Option.map_eq_some_iff.mp hCurr with
      ⟨x, hNext, rfl⟩
    have hBehind : x ∈ behind n.queueid (s.wm n.weight) :=
      List.mem_of_head? hNext
    have hNe : x ≠ q := by
      rintro rfl
      rw [hHere] at hBehind
      exact not_mem_behind (hMatrix.nodup n.weight) hBehind
    exact ((hMatrix.nodup n.weight).mem_erase_iff).mpr
      ⟨hNe, mem_of_mem_behind hBehind⟩
  · rw [if_neg hHere] at hCurr
    cases hCurr
    exact ((hMatrix.nodup n.weight).mem_erase_iff).mpr
      ⟨hHere, hNode⟩

theorem shrinkPtr_spec
    (s : SRR)
    (old_colno : Int) :
    s.shrinkPtr old_colno =
        { s with wss := (s.shrinkPtr old_colno).wss } ∧
      (s.shrinkPtr old_colno).wss.pwss = s.wss.pwss := by
  unfold shrinkPtr
  split
  · exact ⟨rfl, rfl⟩
  · exact ⟨rfl, rfl⟩

/- The place in the sequence is one of the shorter one. -/
theorem shrinkPtr_lt
    {old_colno : Int}
    (hTop : 0 ≤ s.currMaxColumn)
    (hOld : s.currMaxColumn ≤ old_colno)
    (hPtr : s.wss.ptr + 1 < 2 ^ (old_colno + 1).toNat) :
    (s.shrinkPtr old_colno).wss.ptr + 1 < 2 ^ s.order := by
  have hOne : (2 : Nat) ^ 1 ≤ 2 ^ s.order :=
    Nat.pow_le_pow_right (by omega) (by rw [order]; omega)
  unfold shrinkPtr
  by_cases hLess : s.currMaxColumn < old_colno
  · rw [if_pos hLess]
    have hExp : (old_colno + 1).toNat = s.order +
        (old_colno - s.currMaxColumn).toNat := by
      rw [order]
      omega
    rw [hExp, Nat.pow_add] at hPtr
    have hMul := Nat.two_pow_pos
      (old_colno - s.currMaxColumn).toNat
    generalize 2 ^ (old_colno - s.currMaxColumn).toNat = mul
      at hPtr hMul
    have hDiv : (s.wss.ptr + 1) / mul < 2 ^ s.order :=
      Nat.div_lt_of_lt_mul (by rw [Nat.mul_comm]; exact hPtr)
    show (if (s.wss.ptr + 1) % mul ≠ 0 then
        if 2 ^ s.order - 1 < (s.wss.ptr + 1) / mul + 1 then 1
        else (s.wss.ptr + 1) / mul + 1
      else (s.wss.ptr + 1) / mul) - 1 + 1 < 2 ^ s.order
    by_cases hRest : (s.wss.ptr + 1) % mul ≠ 0
    · rw [if_pos hRest]
      split <;> omega
    · have hDvd := Nat.dvd_of_mod_eq_zero (not_not.mp hRest)
      have hPos := Nat.div_pos
        (Nat.le_of_dvd (Nat.succ_pos _) hDvd) hMul
      rw [if_neg hRest]
      omega
  · have hSame : s.currMaxColumn = old_colno := by omega
    rw [if_neg hLess, order, hSame]
    exact hPtr

/- An active queue becomes idle. -/
theorem Matrix.del_from_WM
    (hMatrix : Matrix maxOrder weights s)
    {q : Nat}
    (hActive : weights q ≠ 0) :
    ∃ s', s.del_from_WM q = some s' ∧
      Matrix maxOrder (Function.update weights q 0) s' := by
  have hBusy := hMatrix.busy_of_active hActive
  have hOrder := hMatrix.order_eq
  rcases hMatrix.busy hBusy with ⟨hFlag, hPtr, n, hCurr, hNode⟩
  have hBits := hMatrix.without_bits q
  have hNodup : ∀ i, ((s.wm i).erase q).Nodup := fun i =>
    (hMatrix.nodup i).erase q
  have hAbove : ∀ i, s.order ≤ i → (s.wm i).erase q = [] := by
    intro i hLe
    by_contra hSome
    have hFits := hMatrix.fits i fun h => hSome (by rw [h]; rfl)
    omega
  have hBounds := hMatrix.bounds
  rw [SRR.del_from_WM, hCurr, Option.bind_some]
  rcases topColumn_spec (s.without q n) s.order with
    ⟨hNone, hAll⟩ | ⟨i, hTop, hLt, hi, hAll⟩
  · refine ⟨(s.without q n).vacate, ?_, ?_⟩
    · show ((s.without q n).topColumn s.order).elim _ _ = _
      rw [hNone]
      rfl
    have hEmpty : ∀ i, (s.wm i).erase q = [] := by
      intro i
      by_cases hLt : i < s.order
      · exact hAll i hLt
      · exact hAbove i (not_lt.mp hLt)
    constructor
    case pwss => exact hMatrix.pwss
    case room => exact hMatrix.room
    case bits => exact hBits
    case nodup => exact hNodup
    case fits => exact fun i h => absurd (hEmpty i) h
    case top =>
      exact fun h => absurd h (Int.negSucc_not_nonneg 0).mp
    case bounds =>
      refine ⟨le_rfl, ?_⟩
      show (-1 : Int) ≤ s.maxColumn
      omega
    case idle => exact fun _ => ⟨rfl, rfl, rfl⟩
    case busy =>
      exact fun h => absurd h (Int.negSucc_not_nonneg 0).mp
  · -- the highest column that is left is now the top
    have hMatrix' : ∀ (wss : WSS) (n' : WmNode),
        wss.Reads maxOrder (i + 1) →
        n'.queueid ∈ (s.wm n'.weight).erase q →
        Matrix maxOrder (Function.update weights q 0)
          { s.without q n with
            currMaxColumn := i
            wss := wss
            pwmCurr := some n' } := by
      intro wss n' hReads hNode'
      constructor
      case pwss => exact hReads.pwss
      case room => exact hMatrix.room
      case bits => exact hBits
      case nodup => exact hNodup
      case fits =>
        intro j hj
        show (j : Int) ≤ i
        by_contra hNot
        rcases Nat.lt_or_ge j s.order with hIn | hOut
        · exact hj (hAll j (by omega) hIn)
        · exact hj (hAbove j hOut)
      case top => exact fun _ => hi
      case bounds =>
        show -1 ≤ (i : Int) ∧ (i : Int) ≤ s.maxColumn
        omega
      case idle =>
        intro h
        have h : (i : Int) = -1 := h
        omega
      case busy =>
        intro _
        exact ⟨hFlag, hReads.ptr_lt, n', rfl, hNode'⟩
    let s₁ : SRR := { s.without q n with currMaxColumn := i }
    have hSpec := shrinkPtr_spec s₁ s.currMaxColumn
    have hReads : (s₁.shrinkPtr s.currMaxColumn).wss.Reads
        maxOrder (i + 1) := by
      have hRoom := hMatrix.room
      refine ⟨hSpec.2.trans hMatrix.pwss, by omega, ?_⟩
      exact shrinkPtr_lt (s := s₁) (Int.natCast_nonneg i)
        (by show (i : Int) ≤ s.currMaxColumn; omega) hPtr
    have hCall : ((s.without q n).topColumn s.order).elim
        (some (s.without q n).vacate)
        (s.without q n).relocate =
        if (s₁.shrinkPtr s.currMaxColumn).pwmCurr = none then
          (s₁.shrinkPtr s.currMaxColumn).advance.map Prod.snd
        else some (s₁.shrinkPtr s.currMaxColumn) := by
      rw [hTop]
      rfl
    have hRest := hSpec.1
    generalize s₁.shrinkPtr s.currMaxColumn = s₂
      at hReads hCall hRest
    cases hCurr₂ : (s.without q n).pwmCurr with
    | some n' =>
        have hSame : s₂.pwmCurr = some n' := by
          rw [hRest]
          exact hCurr₂
        refine ⟨s₂, hCall.trans ?_, ?_⟩
        · rw [hSame]
          exact if_neg (Option.some_ne_none n')
        · have hKept : s₂ = { s.without q n with
              currMaxColumn := i
              wss := s₂.wss
              pwmCurr := some n' } := by
            rw [← hCurr₂]
            exact hRest
          rw [hKept]
          exact hMatrix' s₂.wss n' hReads
            (hMatrix.without_curr hNode hCurr₂)
    | none =>
        have hSame : s₂.pwmCurr = none := by
          rw [hRest]
          exact hCurr₂
        have hOrder₂ : s₂.order = i + 1 := by
          rw [hRest]
          show ((i : Int) + 1).toNat = i + 1
          omega
        have hWm : s₂.wm = fun j => (s.wm j).erase q := by
          rw [hRest]
          rfl
        have hReady : Ready maxOrder s₂ := by
          refine ⟨hOrder₂.symm ▸ hReads, i, by omega, ?_⟩
          rw [hWm]
          exact hi
        rcases hReady.advance with ⟨cols, s₃, hAdv, _, hFound⟩
        rcases hFound.node with
          ⟨_, c, x, rest, _, _, hCol, hCurr₃⟩
        refine ⟨s₃, hCall.trans ?_, ?_⟩
        · rw [if_pos hSame, hAdv]
          rfl
        · have hKept : s₃ = { s.without q n with
              currMaxColumn := i
              wss := s₃.wss
              pwmCurr := some ⟨x, c⟩ } := by
            have hRest₃ := hFound.rest
            rw [hCurr₃, hRest] at hRest₃
            exact hRest₃
          rw [hKept]
          refine hMatrix' s₃.wss ⟨x, c⟩
            (hOrder₂ ▸ hFound.wss.1) ?_
          rw [hWm] at hCol
          have hCol : (s.wm c).erase q = x :: rest := hCol
          show x ∈ (s.wm c).erase q
          rw [hCol]
          exact List.mem_cons_self

end SRR

end Ns2
