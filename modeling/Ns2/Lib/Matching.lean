import Mathlib.Data.Multiset.ZeroCons
import Mathlib.Tactic.Common

/-
  Lists whose elements answer to each other.

  Two lists of one length in which each element has a partner
  in the other list agree as multisets, as soon as no element
  of one of them is repeated.

  Main declarations:
    * `Covers`
    * `Partial`
    * `Covers.rel`
    * `covers_of_rel`
-/

------------------------------------------------------------
-- Covering
------------------------------------------------------------

namespace Ns2

variable {α : Type}
variable {R : α → α → Prop}
variable {xs ys front back : List α}
variable {x y : α}

/- Each element has a partner in the other list. -/
def Covers
    (R : α → α → Prop)
    (xs ys : List α) : Prop :=
  ∀ x ∈ xs, ∃ y ∈ ys, R x y

/- A partial equivalence; an element may differ from itself. -/
structure Partial (R : α → α → Prop) : Prop where
  symm : ∀ x y, R x y → R y x
  trans : ∀ x y z, R x y → R y z → R x z

theorem covers_nil : Covers R [] ys := by
  intro x hMem
  cases hMem

theorem covers_cons :
    Covers R (x :: xs) ys ↔
      (∃ y ∈ ys, R x y) ∧ Covers R xs ys :=
  List.forall_mem_cons

/- A partner that no other element needs can go. -/
theorem Covers.remove
    (hPartial : Partial R)
    (hCovers : Covers R xs (front ++ y :: back))
    (hPartner : R x y)
    (hApart : ∀ z ∈ xs, ¬ R x z) :
    Covers R xs (front ++ back) := by
  intro z hMem
  rcases hCovers z hMem with
    ⟨w, hw, hRel⟩
  rcases List.mem_append.mp hw with
    hFront | hBack
  · exact ⟨w, List.mem_append.mpr (Or.inl hFront), hRel⟩
  · rcases List.mem_cons.mp hBack with
      hSame | hBack
    · subst hSame
      have hBoth : R x z :=
        hPartial.trans _ _ _ hPartner
          (hPartial.symm _ _ hRel)
      exact absurd hBoth (hApart z hMem)
    · exact ⟨w, List.mem_append.mpr (Or.inr hBack), hRel⟩

/- Distinct elements with partners use up the other list. -/
theorem Covers.rel
    (hPartial : Partial R)
    (hApart : xs.Pairwise fun x y => ¬ R x y)
    (hLength : xs.length = ys.length)
    (hCovers : Covers R xs ys) :
    Multiset.Rel R (xs : Multiset α) (ys : Multiset α) := by
  induction xs generalizing ys with
  | nil =>
      have hEmpty : ys = [] := by
        simpa using hLength.symm
      rw [hEmpty]
      exact Multiset.Rel.zero
  | cons x rest ih =>
      rcases covers_cons.mp hCovers with
        ⟨⟨y, hMem, hPartner⟩, hRest⟩
      rcases List.append_of_mem hMem with
        ⟨front, back, hSplit⟩
      subst hSplit
      rcases List.pairwise_cons.mp hApart with
        ⟨hFirst, hLater⟩
      have hTail :
          Multiset.Rel R (rest : Multiset α)
            ((front ++ back : List α) : Multiset α) :=
        ih hLater (by simp at hLength ⊢; omega)
          (hRest.remove hPartial hPartner hFirst)
      have hMiddle :
          ((front ++ y :: back : List α) : Multiset α) =
            y ::ₘ ((front ++ back : List α) : Multiset α) :=
        Multiset.coe_eq_coe.mpr List.perm_middle
      rw [hMiddle, ← Multiset.cons_coe]
      exact hTail.cons hPartner

/- Lists that agree as multisets cover each other. -/
theorem covers_of_rel
    (hRel :
      Multiset.Rel R (xs : Multiset α) (ys : Multiset α)) :
    Covers R xs ys := by
  intro x hMem
  have hMem : x ∈ (xs : Multiset α) := hMem
  rcases Multiset.exists_mem_of_rel_of_mem hRel hMem with
    ⟨y, hy, hPartner⟩
  exact ⟨y, hy, hPartner⟩

theorem length_eq_of_rel
    (hRel :
      Multiset.Rel R (xs : Multiset α) (ys : Multiset α)) :
    xs.length = ys.length := by
  simpa using Multiset.card_eq_card_of_rel hRel

/- The converse relation goes the other way round. -/
theorem rel_swap
    (hPartial : Partial R)
    (hRel :
      Multiset.Rel R (xs : Multiset α) (ys : Multiset α)) :
    Multiset.Rel R (ys : Multiset α) (xs : Multiset α) := by
  have hFlip := Multiset.rel_flip.mpr hRel
  exact hFlip.mono fun a _ b _ hab =>
    hPartial.symm _ _ hab

end Ns2
