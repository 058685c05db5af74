import Mathlib.Data.List.Induction

/-
  Runs of partial actions.

  An action takes a state to the next one, or is not enabled
  in it.  A run is a list of actions that are all enabled,
  one after the other.

  Main declarations:
    * `PartialRun.run`
    * `PartialRun.run_append`
    * `PartialRun.invariant`, `PartialRun.invariant_if`
    * `PartialRun.invariant_while`, `PartialRun.progress`
    * `PartialRun.Throughout`, `PartialRun.check`
    * `PartialRun.outputs`, `PartialRun.forall_outputs_iff`
-/

------------------------------------------------------------
-- Runs
------------------------------------------------------------

namespace Ns2

namespace PartialRun

variable {σ α : Type}

/- The state after a list of actions, if all are enabled. -/
def run
    (act : σ → α → Option σ)
    (s : σ) :
    List α → Option σ
| [] => some s
| a :: actions => (act s a).bind (run act · actions)

theorem run_append
    (act : σ → α → Option σ)
    (s : σ)
    (actions more : List α) :
    run act s (actions ++ more) =
      (run act s actions).bind (run act · more) := by
  induction actions generalizing s with
  | nil => rfl
  | cons a actions ih =>
      simp only [List.cons_append, run]
      cases act s a with
      | none => rfl
      | some s' => exact ih s'

/- What every action keeps holds after every run. -/
theorem invariant
    {act : σ → α → Option σ}
    {P : σ → Prop}
    (hStep : ∀ s a s', P s → act s a = some s' → P s')
    {s s' : σ}
    {actions : List α}
    (hs : P s)
    (hRun : run act s actions = some s') :
    P s' := by
  induction actions generalizing s with
  | nil =>
      cases hRun
      exact hs
  | cons a actions ih =>
      simp only [run] at hRun
      cases hAct : act s a with
      | none =>
          rw [hAct] at hRun
          cases hRun
      | some s₁ =>
          rw [hAct] at hRun
          exact ih (hStep s a s₁ hs hAct) hRun

/- What good actions keep holds after a run of good actions. -/
theorem invariant_if
    {act : σ → α → Option σ}
    {P : σ → Prop}
    {Good : σ → α → Prop}
    (hStep : ∀ s a s', P s → Good s a →
      act s a = some s' → P s')
    {s s' : σ}
    {actions : List α}
    (hs : P s)
    (hRun : run act s actions = some s')
    (hGood : ∀ before a after s₁,
      actions = before ++ a :: after →
      run act s before = some s₁ → Good s₁ a) :
    P s' := by
  induction actions generalizing s with
  | nil =>
      cases hRun
      exact hs
  | cons a actions ih =>
      rcases Option.bind_eq_some_iff.mp hRun with
        ⟨s₁, hAct, hRest⟩
      have hNow : Good s a := hGood [] a actions s rfl rfl
      apply ih (hStep s a s₁ hs hNow hAct) hRest
      intro before b after s₂ hEq hBefore
      apply hGood (a :: before) b after s₂
      · rw [hEq]
        rfl
      · simp only [run, hAct]
        exact hBefore

/-
  What every action keeps while a condition holds is kept by
  a run throughout which it holds.
-/
theorem invariant_while
    {act : σ → α → Option σ}
    {P C : σ → Prop}
    (hStep : ∀ s a s', P s → C s → C s' →
      act s a = some s' → P s')
    {s s' : σ}
    {actions : List α}
    (hs : P s)
    (hRun : run act s actions = some s')
    (hThroughout : ∀ before after s₁,
      actions = before ++ after →
      run act s before = some s₁ → C s₁) :
    P s' := by
  apply @invariant_if _ _ act P
    (fun s a => C s ∧ ∀ s', act s a = some s' → C s')
    ?_ _ _ _ hs hRun
  · intro before a after s₁ hEq hBefore
    refine ⟨hThroughout before _ s₁ hEq hBefore, ?_⟩
    intro s₂ hAct
    apply hThroughout (before ++ [a]) after s₂
    · rw [hEq, List.append_assoc]
      rfl
    · rw [run_append, hBefore]
      simp only [Option.bind_some, run, hAct]
  · intro s a s' hP hC hAct
    exact hStep s a s' hP hC.1 (hC.2 s' hAct) hAct

/-
  Where every good action is enabled and keeps what holds of
  the run so far, good actions make up a run.
-/
theorem progress
    {act : σ → α → Option σ}
    {P : List α → σ → Prop}
    {Good : List α → σ → α → Prop}
    (hStep : ∀ before s a, P before s → Good before s a →
      ∃ s', act s a = some s' ∧ P (before ++ [a]) s')
    {s : σ}
    {actions : List α}
    (hs : P [] s)
    (hGood : ∀ before a after s₁,
      actions = before ++ a :: after →
      run act s before = some s₁ → Good before s₁ a) :
    ∃ s', run act s actions = some s' ∧ P actions s' := by
  induction actions using List.reverseRecOn with
  | nil => exact ⟨s, rfl, hs⟩
  | append_singleton before a ih =>
      have hBefore : ∀ before' b after s₁,
          before = before' ++ b :: after →
          run act s before' = some s₁ → Good before' s₁ b := by
        intro before' b after s₁ hEq hRun
        apply hGood before' b (after ++ [a]) s₁ _ hRun
        rw [hEq, List.append_assoc]
        rfl
      rcases ih hBefore with ⟨s₁, hRun, hP⟩
      have hNow : Good before s₁ a :=
        hGood before a [] s₁ rfl hRun
      rcases hStep before s₁ a hP hNow with ⟨s', hAct, hP'⟩
      refine ⟨s', ?_, hP'⟩
      rw [run_append, hRun]
      simp only [Option.bind_some, run, hAct]

/- Every action of a list meets a condition when it is taken. -/
def Throughout
    (act : σ → α → Option σ)
    (Good : σ → α → Prop)
    (s : σ)
    (actions : List α) : Prop :=
  ∀ before a after s₁,
    actions = before ++ a :: after →
    run act s before = some s₁ → Good s₁ a

theorem throughout_nil
    {act : σ → α → Option σ}
    {Good : σ → α → Prop}
    (s : σ) :
    Throughout act Good s [] := by
  intro before a after s₁ hEq
  cases before <;> cases hEq

theorem throughout_cons
    {act : σ → α → Option σ}
    {Good : σ → α → Prop}
    {s : σ}
    {a : α}
    {actions : List α}
    (hFirst : Good s a)
    (hRest : ∀ s', act s a = some s' →
      Throughout act Good s' actions) :
    Throughout act Good s (a :: actions) := by
  intro before b after s₁ hEq hRun
  cases before with
  | nil =>
      cases hEq
      cases hRun
      exact hFirst
  | cons first before =>
      rw [List.cons_append, List.cons.injEq] at hEq
      rcases Option.bind_eq_some_iff.mp hRun with
        ⟨s', hAct, hBefore⟩
      rw [← hEq.1] at hAct
      exact hRest s' hAct before b after s₁ hEq.2 hBefore

/- Take the actions and check each before it is taken. -/
def check
    (act : σ → α → Option σ)
    (Good : σ → α → Prop)
    [∀ s a, Decidable (Good s a)]
    (s : σ) :
    List α → Bool
| [] => true
| a :: actions =>
    decide (Good s a) &&
      (act s a).all fun s' => check act Good s' actions

theorem throughout_of_check
    {act : σ → α → Option σ}
    {Good : σ → α → Prop}
    [∀ s a, Decidable (Good s a)]
    {s : σ}
    {actions : List α}
    (hCheck : check act Good s actions = true) :
    Throughout act Good s actions := by
  induction actions generalizing s with
  | nil => exact throughout_nil s
  | cons a actions ih =>
      rw [check, Bool.and_eq_true, decide_eq_true_eq] at hCheck
      refine throughout_cons hCheck.1 fun s' hAct => ih ?_
      have hRest := hCheck.2
      rw [hAct] at hRest
      exact hRest

theorem throughout_append_left
    {act : σ → α → Option σ}
    {Good : σ → α → Prop}
    {s : σ}
    {actions more : List α}
    (hAll : Throughout act Good s (actions ++ more)) :
    Throughout act Good s actions := by
  intro before a after s₁ hEq hRun
  apply hAll before a (after ++ more) s₁ ?_ hRun
  rw [hEq, List.append_assoc, List.cons_append]

theorem throughout_concat
    {act : σ → α → Option σ}
    {Good : σ → α → Prop}
    {s s₁ : σ}
    {actions : List α}
    {a : α}
    (hRun : run act s actions = some s₁) :
    Throughout act Good s (actions ++ [a]) ↔
      Throughout act Good s actions ∧ Good s₁ a := by
  constructor
  · intro hAll
    exact ⟨throughout_append_left hAll,
      hAll actions a [] s₁ rfl hRun⟩
  · rintro ⟨hAll, hLast⟩ before b after s₂ hEq hBefore
    rcases List.eq_nil_or_concat after with
      rfl | ⟨after, c, rfl⟩
    · have hSame := List.append_inj' hEq rfl
      rw [← hSame.1, hRun] at hBefore
      cases hBefore
      cases hSame.2
      exact hLast
    · rw [List.concat_eq_append, ← List.cons_append,
        ← List.append_assoc] at hEq
      have hSame := List.append_inj' hEq rfl
      exact hAll before b after s₂ hSame.1 hBefore

/- What the enabled actions of a list put out. -/
def outputs
    {β : Type}
    (act : σ → α → Option σ)
    (out : σ → α → List β)
    (s : σ) :
    List α → List β
| [] => []
| a :: actions =>
    match act s a with
    | none => []
    | some s' => out s a ++ outputs act out s' actions

theorem outputs_concat
    {β : Type}
    {act : σ → α → Option σ}
    {out : σ → α → List β}
    {s s₁ s₂ : σ}
    {actions : List α}
    {a : α}
    (hRun : run act s actions = some s₁)
    (hAct : act s₁ a = some s₂) :
    outputs act out s (actions ++ [a]) =
      outputs act out s actions ++ out s₁ a := by
  induction actions generalizing s with
  | nil =>
      cases hRun
      simp only [List.nil_append, outputs, hAct, List.append_nil]
  | cons first actions ih =>
      rcases Option.bind_eq_some_iff.mp hRun with
        ⟨s', hFirst, hRest⟩
      simp only [List.cons_append, outputs, hFirst]
      rw [ih hRest, List.append_assoc]

/-
  When each step puts out what is wanted exactly if it is a
  good one, and good steps keep the invariant, a run puts out
  what is wanted exactly if all its steps are good.
-/
theorem forall_outputs_iff
    {β : Type}
    {act : σ → α → Option σ}
    {out : σ → α → List β}
    {Inv : σ → Prop}
    {Good : σ → α → Prop}
    {Wanted : β → Prop}
    (hOut : ∀ s a s', Inv s → act s a = some s' →
      ((∀ b ∈ out s a, Wanted b) ↔ Good s a))
    (hStep : ∀ s a s', Inv s → act s a = some s' →
      Good s a → Inv s')
    {s : σ}
    (hs : Inv s)
    (actions : List α) :
    (∀ b ∈ outputs act out s actions, Wanted b) ↔
      ∀ before a after s₁ s₂,
        actions = before ++ a :: after →
        run act s before = some s₁ →
        act s₁ a = some s₂ → Good s₁ a := by
  induction actions generalizing s with
  | nil =>
      constructor
      · intro _ before a after s₁ s₂ hEq
        simp at hEq
      · intro _ b hb
        cases hb
  | cons a₀ actions ih =>
      cases hAct : act s a₀ with
      | none =>
          simp only [outputs, hAct]
          constructor
          · intro _ before a after s₁ s₂ hEq hRun hAct'
            exfalso
            cases before with
            | nil =>
                rw [List.nil_append, List.cons.injEq] at hEq
                cases hRun
                rw [← hEq.1, hAct] at hAct'
                cases hAct'
            | cons a' before =>
                rw [List.cons_append, List.cons.injEq] at hEq
                rw [run, ← hEq.1, hAct] at hRun
                cases hRun
          · intro _ b hb
            cases hb
      | some s' =>
          simp only [outputs, hAct, List.forall_mem_append]
          rw [hOut s a₀ s' hs hAct]
          constructor
          · rintro ⟨hGood, hRest⟩ before a after s₁ s₂
              hEq hRun hAct'
            have hs' := hStep s a₀ s' hs hAct hGood
            cases before with
            | nil =>
                rw [List.nil_append, List.cons.injEq] at hEq
                cases hRun
                rw [← hEq.1]
                exact hGood
            | cons a' before =>
                rw [List.cons_append, List.cons.injEq] at hEq
                rw [run, ← hEq.1, hAct] at hRun
                exact (ih hs').mp hRest before a after s₁ s₂
                  hEq.2 hRun hAct'
          · intro hAll
            have hGood : Good s a₀ :=
              hAll [] a₀ actions s s' rfl rfl hAct
            have hs' := hStep s a₀ s' hs hAct hGood
            refine ⟨hGood, (ih hs').mpr ?_⟩
            intro before a after s₁ s₂ hEq hRun hAct'
            apply hAll (a₀ :: before) a after s₁ s₂ ?_ ?_ hAct'
            · rw [hEq, List.cons_append]
            · rw [run, hAct]
              exact hRun

end PartialRun

end Ns2
