import Mathlib.Data.List.DropRight
import Mathlib.Data.List.Infix
import Mathlib.Tactic.Common

/-
  Walks without their loops.

  From the first element on, everything up to its last
  occurrence is erased; the rest is treated in the same way.

  Main declarations:
    * `eraseLoops`
    * `eraseLoops_nodup`, `eraseLoops_step`
    * `eraseLoops_head`, `eraseLoops_last`
-/

------------------------------------------------------------
-- Behind the Last Occurrence
------------------------------------------------------------

namespace Ns2

variable {α : Type}
variable [DecidableEq α]
variable {x : α}
variable {l : List α}

/- All of the list, if `x` does not occur in it. -/
def behindLast (x : α) (l : List α) : List α :=
  l.rtakeWhile (· ≠ x)

theorem behindLast_suffix : behindLast x l <:+ l :=
  List.rtakeWhile_suffix _ _

theorem not_mem_behindLast : x ∉ behindLast x l := by
  intro hMem
  have hOther := List.mem_rtakeWhile_imp hMem
  exact absurd rfl (of_decide_eq_true hOther)

theorem behindLast_eq
    (hMem : x ∉ l) : behindLast x l = l := by
  refine List.rtakeWhile_eq_self_iff.mpr fun y hy => ?_
  exact decide_eq_true fun hSame => hMem (hSame ▸ hy)

/- What is behind an `x` with no other `x` behind it. -/
theorem behindLast_append
    {front back : List α}
    (hBack : x ∉ back) :
    behindLast x (front ++ x :: back) = back := by
  induction back using List.reverseRecOn with
  | nil =>
      exact List.rtakeWhile_concat_neg _ _ _
        (by simp)
  | append_singleton back y ih =>
      have hParts := List.mem_append.not.mp hBack
      rw [not_or, List.mem_singleton] at hParts
      have hOther : decide (y ≠ x) = true :=
        decide_eq_true fun h => hParts.2 h.symm
      rw [← List.cons_append, ← List.append_assoc,
        behindLast,
        List.rtakeWhile_concat_pos (· ≠ x) _ y hOther]
      exact congrArg (· ++ [y]) (ih hParts.1)

omit [DecidableEq α] in
theorem last_split
    (hMem : x ∈ l) :
    ∃ front back, l = front ++ x :: back ∧ x ∉ back := by
  rcases List.eq_append_cons_of_mem
      (List.mem_reverse.mpr hMem) with
    ⟨back, front, hSplit, hBack⟩
  refine ⟨front.reverse, back.reverse, ?_, ?_⟩
  · rw [← List.reverse_reverse l, hSplit]
    simp
  · rwa [List.mem_reverse]

/- An `x` in front of it is one of the list before. -/
theorem cons_behindLast_suffix :
    x :: behindLast x l <:+ x :: l := by
  by_cases hMem : x ∈ l
  · rcases last_split hMem with ⟨front, back, rfl, hBack⟩
    rw [behindLast_append hBack]
    exact List.suffix_append (x :: front) (x :: back)
  · rw [behindLast_eq hMem]

/- Walk to the end, erasing loops. -/
def eraseLoops : List α → List α
| [] => []
| x :: l => x :: eraseLoops (behindLast x l)
termination_by l => l.length
decreasing_by
  exact Nat.lt_succ_of_le behindLast_suffix.length_le

theorem eraseLoops_sublist
    (l : List α) : (eraseLoops l).Sublist l := by
  fun_induction eraseLoops l with
  | case1 => exact List.Sublist.refl _
  | case2 x l ih =>
      exact (ih.trans behindLast_suffix.sublist).cons_cons x

theorem eraseLoops_nodup
    (l : List α) : (eraseLoops l).Nodup := by
  fun_induction eraseLoops l with
  | case1 => exact List.nodup_nil
  | case2 x l ih =>
      refine List.nodup_cons.mpr ⟨fun hMem => ?_, ih⟩
      exact not_mem_behindLast
        ((eraseLoops_sublist _).subset hMem)

theorem eraseLoops_head
    (l : List α) : (eraseLoops l).head? = l.head? := by
  cases l with
  | nil => rw [eraseLoops]
  | cons x l => rw [eraseLoops]; rfl

theorem eraseLoops_last
    (l : List α) :
    (eraseLoops l).getLast? = l.getLast? := by
  fun_induction eraseLoops l with
  | case1 => rfl
  | case2 x l ih =>
      rcases cons_behindLast_suffix (x := x) (l := l) with
        ⟨front, hSplit⟩
      rw [← hSplit, List.getLast?_append_of_ne_nil front
        (List.cons_ne_nil x _)]
      cases hRest : behindLast x l with
      | nil => rw [eraseLoops]
      | cons y rest =>
          rw [hRest] at ih
          have hHead := eraseLoops_head (y :: rest)
          cases hErased : eraseLoops (y :: rest) with
          | nil =>
              rw [hErased] at hHead
              exact absurd hHead nofun
          | cons z tail =>
              rw [hErased] at ih
              rw [List.getLast?_cons_cons,
                List.getLast?_cons_cons, ih]

/- Each step is one of the walk. -/
theorem eraseLoops_step
    {a b : α}
    (hStep : [a, b] <:+: eraseLoops l) : [a, b] <:+: l := by
  fun_induction eraseLoops l with
  | case1 => exact hStep
  | case2 x l ih =>
      refine List.IsInfix.trans ?_
        cons_behindLast_suffix.isInfix
      rcases List.infix_cons_iff.mp hStep with hHere | hLater
      · rcases List.cons_prefix_cons.mp hHere with
          ⟨rfl, hNext⟩
        have hHead := eraseLoops_head (behindLast a l)
        rcases hNext with ⟨tail, hTail⟩
        rw [← hTail] at hHead
        cases hRest : behindLast a l with
        | nil =>
            rw [hRest] at hHead
            exact absurd hHead nofun
        | cons y rest =>
            rw [hRest] at hHead
            cases hHead
            exact (List.prefix_append [a, b] rest).isInfix
      · exact (ih hLater).trans
          (List.suffix_cons x _).isInfix

end Ns2
