import Mathlib.Tactic.Common

/-
  Objects that are referred to.

  Each live object is referred to from exactly one place, and
  nothing else is.  An object that comes to life is attached to
  a place that is free, and one that is given up is released
  from its place.

  Main declarations:
    * `Referenced`
    * `Referenced.attach`
    * `Referenced.release`
-/

------------------------------------------------------------
-- References
------------------------------------------------------------

namespace Ns2

variable {ι κ : Type}

/- `ref` is where the objects that are `Live` are found. -/
structure Referenced
    (Live : ι → Prop)
    (ref : κ → Option ι) : Prop where
  found : ∀ e, Live e → ∃ d, ref d = some e
  live : ∀ d e, ref d = some e → Live e
  one : ∀ d d' e, ref d = some e → ref d' = some e → d = d'

namespace Referenced

variable {Live Live' : ι → Prop}
variable {ref ref' : κ → Option ι}
variable {d : κ}
variable {e : ι}

theorem existsUnique
    (hRef : Referenced Live ref)
    (he : Live e) :
    ∃! d, ref d = some e := by
  rcases hRef.found e he with ⟨d, hd⟩
  exact ⟨d, hd, fun d' hd' => hRef.one d' d e hd' hd⟩

theorem congr
    (hRef : Referenced Live ref)
    (hLive : ∀ x, Live' x ↔ Live x)
    (hSame : ∀ d', ref' d' = ref d') :
    Referenced Live' ref' := by
  have hRef' : ref' = ref := funext hSame
  have hLive' : Live' = Live := funext fun x => propext (hLive x)
  rw [hRef', hLive']
  exact hRef

/- An object comes to life and is put where there was none. -/
theorem attach
    [DecidableEq κ]
    (hRef : Referenced Live ref)
    (hFree : ref d = none)
    (hNew : ¬Live e)
    (hLive : ∀ x, Live' x ↔ Live x ∨ x = e)
    (hPut : ∀ d', ref' d' = if d' = d then some e else ref d') :
    Referenced Live' ref' := by
  constructor
  case found =>
    intro x hx
    rcases (hLive x).mp hx with hOld | rfl
    · rcases hRef.found x hOld with ⟨d', hd'⟩
      have hNe : d' ≠ d := by
        intro hSame
        rw [hSame, hFree] at hd'
        cases hd'
      exact ⟨d', by rw [hPut, if_neg hNe, hd']⟩
    · exact ⟨d, by rw [hPut, if_pos rfl]⟩
  case live =>
    intro d' x hd'
    rw [hPut] at hd'
    split at hd'
    · cases hd'
      exact (hLive e).mpr (Or.inr rfl)
    · exact (hLive x).mpr (Or.inl (hRef.live d' x hd'))
  case one =>
    intro d₁ d₂ x h₁ h₂
    rw [hPut] at h₁ h₂
    split at h₁
    next hSame₁ =>
      cases h₁
      split at h₂
      next hSame₂ => exact hSame₁.trans hSame₂.symm
      next => exact absurd (hRef.live d₂ e h₂) hNew
    next =>
      split at h₂
      next =>
        cases h₂
        exact absurd (hRef.live d₁ e h₁) hNew
      next => exact hRef.one d₁ d₂ x h₁ h₂

/- An object is given up, and the places that had it are free. -/
theorem release
    [DecidableEq ι]
    (hRef : Referenced Live ref)
    (hLive : ∀ x, Live' x ↔ Live x ∧ x ≠ e)
    (hFree : ∀ d', ref' d' =
      if ref d' = some e then none else ref d') :
    Referenced Live' ref' := by
  have hStays : ∀ d' x, ref' d' = some x ↔
      ref d' = some x ∧ x ≠ e := by
    intro d' x
    rw [hFree]
    split
    next hGone =>
      rw [hGone]
      constructor
      · intro hNone
        cases hNone
      · intro ⟨hSome, hNe⟩
        exact absurd (Option.some.inj hSome).symm hNe
    next hKept =>
      constructor
      · intro hSome
        refine ⟨hSome, ?_⟩
        rintro rfl
        exact hKept hSome
      · exact And.left
  constructor
  case found =>
    intro x hx
    rcases (hLive x).mp hx with ⟨hOld, hNe⟩
    rcases hRef.found x hOld with ⟨d', hd'⟩
    exact ⟨d', (hStays d' x).mpr ⟨hd', hNe⟩⟩
  case live =>
    intro d' x hd'
    rcases (hStays d' x).mp hd' with ⟨hOld, hNe⟩
    exact (hLive x).mpr ⟨hRef.live d' x hOld, hNe⟩
  case one =>
    intro d₁ d₂ x h₁ h₂
    exact hRef.one d₁ d₂ x ((hStays d₁ x).mp h₁).1
      ((hStays d₂ x).mp h₂).1

/- It is given up where it is found. -/
theorem release_at
    [DecidableEq ι]
    [DecidableEq κ]
    (hRef : Referenced Live ref)
    (hThere : ref d = some e)
    (hLive : ∀ x, Live' x ↔ Live x ∧ x ≠ e)
    (hFree : ∀ d', ref' d' = if d' = d then none else ref d') :
    Referenced Live' ref' := by
  apply hRef.release hLive
  intro d'
  rw [hFree]
  by_cases hSame : d' = d
  · rw [if_pos hSame, hSame, if_pos hThere]
  · rw [if_neg hSame, if_neg]
    exact fun hAlso => hSame (hRef.one d' d e hAlso hThere)

end Referenced

end Ns2
