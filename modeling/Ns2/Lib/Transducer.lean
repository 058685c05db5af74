import Mathlib.Tactic.Common

/-
  Runs of actions that give answers.

  An action takes a state to the next one and gives an
  answer, or it is not enabled.

  Main declarations:
    * `Transducer.run`, `Transducer.answers`
    * `Transducer.invariant`
-/

------------------------------------------------------------
-- Runs
------------------------------------------------------------

namespace Ns2

namespace Transducer

variable {σ τ α β : Type}

/- The last state and all the answers, if all actions are
enabled. -/
def run
    (act : σ → α → Option (σ × β))
    (s : σ) :
    List α → Option (σ × List β)
| [] => some (s, [])
| a :: actions =>
    (act s a).bind fun r =>
      (run act r.1 actions).map fun last =>
        (last.1, r.2 :: last.2)

def answers
    (act : σ → α → Option (σ × β))
    (s : σ)
    (actions : List α) : Option (List β) :=
  (run act s actions).map Prod.snd

/- The first action of a run and what comes after it. -/
theorem run_cons_eq_some
    {act : σ → α → Option (σ × β)}
    {s s' : σ}
    {a : α}
    {actions : List α}
    {bs : List β}
    (hRun : run act s (a :: actions) = some (s', bs)) :
    ∃ s₁ b rest,
      act s a = some (s₁, b) ∧
        run act s₁ actions = some (s', rest) ∧
        bs = b :: rest := by
  rcases Option.bind_eq_some_iff.mp hRun with
    ⟨⟨s₁, b⟩, hAct, hRest⟩
  rcases Option.map_eq_some_iff.mp hRest with
    ⟨⟨s₂, rest⟩, hRun', hEq⟩
  cases hEq
  exact ⟨s₁, b, rest, hAct, hRun', rfl⟩

/- What every action keeps holds after every run. -/
theorem invariant
    {act : σ → α → Option (σ × β)}
    {P : σ → Prop}
    (hStep : ∀ s a s' b, P s → act s a = some (s', b) → P s')
    {s s' : σ}
    {actions : List α}
    {bs : List β}
    (hs : P s)
    (hRun : run act s actions = some (s', bs)) :
    P s' := by
  induction actions generalizing s bs with
  | nil =>
      cases hRun
      exact hs
  | cons a actions ih =>
      rcases run_cons_eq_some hRun with
        ⟨s₁, b, rest, hAct, hRest, -⟩
      exact ih (hStep s a s₁ b hs hAct) hRest

end Transducer

end Ns2
