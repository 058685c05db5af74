import Mathlib.Init

/-
  Rules for calls that may fail.

  A call is described by what holds of its result where it
  comes to its end, and by what holds of the fault where it
  does not.

  Main declarations:
    * `Fallible.Ensures`
    * `Fallible.Ensures.bind`, `Fallible.Ensures.ite`
    * `Fallible.Ensures.foldlM`
-/

------------------------------------------------------------
-- Results and faults
------------------------------------------------------------

namespace Ns2

namespace Fallible

variable {ε α β : Type}

structure Ensures
    (x : Except ε α)
    (Q : α → Prop)
    (E : ε → Prop) : Prop where
  ok : ∀ a, x = .ok a → Q a
  error : ∀ e, x = .error e → E e

namespace Ensures

variable {x : Except ε α}
variable {Q Q' : α → Prop}
variable {E E' : ε → Prop}

theorem of_ok
    {a : α}
    (hQ : Q a) :
    Ensures (.ok a : Except ε α) Q E := by
  constructor
  case ok =>
    rintro b ⟨⟩
    exact hQ
  case error =>
    rintro e ⟨⟩

theorem of_error
    {e : ε}
    (hE : E e) :
    Ensures (.error e : Except ε α) Q E := by
  constructor
  case ok =>
    rintro b ⟨⟩
  case error =>
    rintro e' ⟨⟩
    exact hE

theorem bind
    {f : α → Except ε β}
    {R : β → Prop}
    (hX : Ensures x Q E)
    (hF : ∀ a, Q a → Ensures (f a) R E) :
    Ensures (x >>= f) R E := by
  cases x with
  | error e => exact of_error (hX.error e rfl)
  | ok a => exact hF a (hX.ok a rfl)

theorem mono
    (hX : Ensures x Q E)
    (hQ : ∀ a, Q a → Q' a)
    (hE : ∀ e, E e → E' e) :
    Ensures x Q' E' :=
  ⟨fun a hOk => hQ a (hX.ok a hOk),
    fun e hError => hE e (hX.error e hError)⟩

theorem ite
    {p : Prop}
    [Decidable p]
    {y : Except ε α}
    (hThen : p → Ensures x Q E)
    (hElse : ¬ p → Ensures y Q E) :
    Ensures (if p then x else y) Q E := by
  by_cases hP : p
  · rw [if_pos hP]
    exact hThen hP
  · rw [if_neg hP]
    exact hElse hP

/- What every step of a loop keeps holds at its end. -/
theorem foldlM
    {σ : Type}
    {I : σ → Prop}
    {f : σ → α → Except ε σ}
    (xs : List α)
    (hStep : ∀ a ∈ xs, ∀ s, I s → Ensures (f s a) I E)
    {s : σ}
    (hs : I s) :
    Ensures (xs.foldlM f s) I E := by
  induction xs generalizing s with
  | nil => exact of_ok hs
  | cons a xs ih =>
      rw [List.foldlM_cons]
      refine (hStep a (List.mem_cons_self ..) s hs).bind ?_
      exact fun s' hs' => ih
        (fun b hB => hStep b (List.mem_cons_of_mem _ hB)) hs'

end Ensures

end Fallible

end Ns2
