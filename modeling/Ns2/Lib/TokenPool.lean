import Mathlib.Data.List.Nodup
import Mathlib.Tactic.Basic

/-
  Tokens that are owned by one party at a time.

  A pool keeps the tokens that are free, makes a new one when
  there is none, and records the calls.  A component that is
  given a token conserves tokens if it releases that token
  once, passes on or releases what it acquires, and never
  releases a free token.

  Main declarations:
    * `Pool`, `Pool.acquire`, `Pool.handOver`, `Pool.release`
    * `Pool.Valid`
    * `Pool.Conserves`
-/

------------------------------------------------------------
-- Pools
------------------------------------------------------------

namespace Ns2

namespace TokenPool

/-
  A call on a token.  `releaseAgain` is the release of a token
  that is free already.
-/
inductive Call where
| acquire (k : Nat)
| handOver (k : Nat)
| release (k : Nat)
| releaseAgain (k : Nat)
deriving DecidableEq, Repr

/-
  The free tokens, the number of tokens made so far, and the
  calls since the record was cleared.
-/
structure Pool where
  free : List Nat
  supply : Nat
  calls : List Call
deriving DecidableEq, Repr

namespace Pool

def empty : Pool := ⟨[], 0, []⟩

def clear (p : Pool) : Pool :=
  { p with calls := [] }

/- Take the free token at the front, or make a new one. -/
def acquire (p : Pool) : Nat × Pool :=
  match p.free with
  | [] => (p.supply,
      { p with
        supply := p.supply + 1
        calls := p.calls ++ [.acquire p.supply] })
  | k :: ks => (k,
      { p with
        free := ks
        calls := p.calls ++ [.acquire k] })

def handOver
    (k : Nat)
    (p : Pool) : Pool :=
  { p with calls := p.calls ++ [.handOver k] }

/- A free token stays where it is. -/
def release
    (k : Nat)
    (p : Pool) : Pool :=
  if k ∈ p.free then
    { p with calls := p.calls ++ [.releaseAgain k] }
  else
    { p with
      free := k :: p.free
      calls := p.calls ++ [.release k] }

/- Acquire a token and pass it on. -/
def sent (p : Pool) : Pool :=
  p.acquire.2.handOver p.acquire.1

/- The tokens that the recorded calls passed on. -/
def handed (p : Pool) : List Nat :=
  p.calls.filterMap fun c =>
    match c with
    | .handOver k => some k
    | _ => none

/-
  The tokens that are `used` are not free, and all tokens were
  made by the pool.
-/
structure Valid
    (p : Pool)
    (used : List Nat) : Prop where
  nodup : (p.free ++ used).Nodup
  made : ∀ k ∈ p.free ++ used, k < p.supply

/-
  The component that was given `k` has conserved tokens by
  these calls.
-/
structure Conserves
    (k : Nat)
    (calls : List Call) : Prop where
  released : calls.count (.release k) = 1
  kept : calls.count (.handOver k) = 0
  fresh : ∀ j, calls.count (.acquire j) ≤ 1
  passed : ∀ j, .acquire j ∈ calls →
    calls.count (.handOver j) + calls.count (.release j) = 1
  never : ∀ j, .releaseAgain j ∉ calls

end Pool

end TokenPool

end Ns2

------------------------------------------------------------
-- Valid Pools
------------------------------------------------------------

namespace Ns2

namespace TokenPool

namespace Pool

theorem Valid.not_free
    {p : Pool}
    {used : List Nat}
    (hp : p.Valid used)
    {k : Nat}
    (hk : k ∈ used) :
    k ∉ p.free := by
  intro hFree
  exact (List.nodup_append.mp hp.nodup).2.2 k hFree k hk rfl

theorem Valid.perm
    {p : Pool}
    {used used' : List Nat}
    (hp : p.Valid used)
    (hPerm : used.Perm used') :
    p.Valid used' := by
  constructor
  case nodup =>
    exact (hPerm.append_left p.free).nodup_iff.mp hp.nodup
  case made =>
    intro k hk
    exact hp.made k
      ((hPerm.append_left p.free).mem_iff.mpr hk)

/- A token that is not used any more may be forgotten. -/
theorem Valid.of_cons
    {p : Pool}
    {used : List Nat}
    {k : Nat}
    (hp : p.Valid (k :: used)) :
    p.Valid used := by
  have hSub : (p.free ++ used).Sublist
      (p.free ++ k :: used) :=
    (List.Sublist.refl p.free).append
      (List.sublist_cons_self k used)
  exact ⟨hp.nodup.sublist hSub,
    fun j hj => hp.made j (hSub.subset hj)⟩

/- The acquired token is used from now on. -/
theorem Valid.acquire
    {p : Pool}
    {used : List Nat}
    (hp : p.Valid used) :
    p.acquire.2.Valid (p.acquire.1 :: used) := by
  have hNodup := hp.nodup
  have hMade := hp.made
  unfold Pool.acquire
  cases hFree : p.free with
  | nil =>
      rw [hFree, List.nil_append] at hNodup hMade
      constructor
      case nodup =>
        dsimp only
        rw [List.nil_append, List.nodup_cons]
        refine ⟨?_, hNodup⟩
        intro hMem
        exact Nat.lt_irrefl _ (hMade _ hMem)
      case made =>
        dsimp only
        rw [List.nil_append]
        intro k hk
        rcases List.mem_cons.mp hk with rfl | hUsed
        · exact Nat.lt_succ_self _
        · exact Nat.lt_succ_of_lt (hMade k hUsed)
  | cons j ks =>
      rw [hFree] at hNodup hMade
      have hPerm : (j :: ks ++ used).Perm
          (ks ++ j :: used) :=
        List.perm_middle.symm
      exact ⟨hPerm.nodup_iff.mp hNodup,
        fun k hk => hMade k (hPerm.mem_iff.mpr hk)⟩

theorem Valid.release
    {p : Pool}
    {used : List Nat}
    {k : Nat}
    (hp : p.Valid (k :: used)) :
    (p.release k).Valid used := by
  have hNot := hp.not_free (List.mem_cons_self)
  have hPerm : (p.free ++ k :: used).Perm
      (k :: p.free ++ used) :=
    List.perm_middle
  unfold Pool.release
  rw [if_neg hNot]
  exact ⟨hPerm.nodup_iff.mp hp.nodup,
    fun j hj => hp.made j (hPerm.mem_iff.mpr hj)⟩

theorem Valid.handOver
    {p : Pool}
    {used : List Nat}
    (hp : p.Valid used)
    (k : Nat) :
    (p.handOver k).Valid used :=
  ⟨hp.nodup, hp.made⟩

/- An acquired token is none of those in use. -/
theorem Valid.acquire_not_mem
    {p : Pool}
    {used : List Nat}
    (hp : p.Valid used) :
    p.acquire.1 ∉ used := by
  have hNodup := (List.nodup_append.mp hp.acquire.nodup).2.1
  exact (List.nodup_cons.mp hNodup).1

theorem Valid.acquire_ne
    {p : Pool}
    {used : List Nat}
    {k : Nat}
    (hp : p.Valid (k :: used)) :
    p.acquire.1 ≠ k := by
  intro hEq
  exact hp.acquire_not_mem (hEq ▸ List.mem_cons_self)

end Pool

end TokenPool

end Ns2

------------------------------------------------------------
-- Calls
------------------------------------------------------------

namespace Ns2

namespace TokenPool

namespace Pool

theorem acquire_calls (p : Pool) :
    p.acquire.2.calls =
      p.calls ++ [.acquire p.acquire.1] := by
  unfold acquire
  cases p.free with
  | nil => rfl
  | cons k ks => rfl

theorem release_calls
    {p : Pool}
    {k : Nat}
    (hk : k ∉ p.free) :
    (p.release k).calls = p.calls ++ [.release k] := by
  unfold release
  rw [if_neg hk]

/- The second of two releases is recorded as such. -/
theorem release_release
    {p : Pool}
    {k : Nat}
    (hk : k ∉ p.free) :
    (p.release k).release k =
      { p.release k with
        calls := p.calls ++ [.release k, .releaseAgain k] } := by
  have hMem : k ∈ (p.release k).free := by
    unfold release
    rw [if_neg hk]
    exact List.mem_cons_self
  rw [release, if_pos hMem, release_calls hk,
    List.append_assoc]
  rfl

theorem conserves_release (k : Nat) :
    Conserves k [.release k] := by
  constructor
  case released => simp
  case kept => simp
  case fresh => simp
  case passed => simp
  case never => simp

/- A reply to a token that is released at the end. -/
theorem conserves_reply
    {j k : Nat}
    (hNe : j ≠ k) :
    Conserves k [.acquire j, .handOver j, .release k] := by
  constructor
  case released => simp
  case kept => simp [hNe]
  case fresh =>
    intro i
    by_cases hi : j = i
    · simp [hi]
    · simp [hi]
  case passed =>
    intro i hi
    have hEq : i = j := by simpa using hi
    subst hEq
    simp [hNe.symm]
  case never => simp

/- A token that is acquired and forgotten. -/
theorem not_conserves_leak
    {j k : Nat}
    (hNe : j ≠ k) :
    ¬ Conserves k [.acquire j, .release k] := by
  intro hConserves
  have hPassed := hConserves.passed j List.mem_cons_self
  simp [hNe.symm] at hPassed

theorem not_conserves_again (k : Nat) :
    ¬ Conserves k [.release k, .releaseAgain k] := by
  intro hConserves
  exact hConserves.never k (by simp)

end Pool

end TokenPool

end Ns2

------------------------------------------------------------
-- Receptions
------------------------------------------------------------

namespace Ns2

namespace TokenPool

namespace Pool

variable {p : Pool}
variable {used : List Nat}
variable {k : Nat}

/- The given token is released, and nothing else happens. -/
theorem Valid.end_release
    (hp : p.Valid (k :: used))
    (hCalls : p.calls = []) :
    Conserves k (p.release k).calls ∧
      (p.release k).Valid (used ++ (p.release k).handed) := by
  have hNot := hp.not_free List.mem_cons_self
  have hEq : (p.release k).calls = [.release k] := by
    rw [release_calls hNot, hCalls]
    rfl
  have hHanded : (p.release k).handed = [] := by
    unfold handed
    rw [hEq]
    rfl
  rw [hHanded, List.append_nil, hEq]
  exact ⟨conserves_release k, hp.release⟩

/- A reply is passed on before. -/
theorem Valid.end_reply
    (hp : p.Valid (k :: used))
    (hCalls : p.calls = []) :
    Conserves k (p.sent.release k).calls ∧
      (p.sent.release k).Valid
        (used ++ (p.sent.release k).handed) := by
  have hSent : p.sent.Valid (k :: p.acquire.1 :: used) :=
    (hp.acquire.handOver p.acquire.1).perm
      (List.Perm.swap _ _ _)
  have hNot := hSent.not_free List.mem_cons_self
  have hEq : (p.sent.release k).calls =
      [.acquire p.acquire.1, .handOver p.acquire.1,
        .release k] := by
    rw [release_calls hNot]
    unfold sent Pool.handOver
    dsimp only
    rw [acquire_calls, hCalls]
    rfl
  have hHanded :
      (p.sent.release k).handed = [p.acquire.1] := by
    unfold handed
    rw [hEq]
    rfl
  rw [hHanded, hEq]
  refine ⟨conserves_reply hp.acquire_ne, ?_⟩
  exact hSent.release.perm
    (List.perm_append_singleton p.acquire.1 used).symm

/- A token is acquired and forgotten. -/
theorem Valid.end_leak
    (hp : p.Valid (k :: used))
    (hCalls : p.calls = []) :
    ¬ Conserves k (p.acquire.2.release k).calls ∧
      (p.acquire.2.release k).Valid
        (used ++ (p.acquire.2.release k).handed) := by
  have hAcquire : p.acquire.2.Valid
      (k :: p.acquire.1 :: used) :=
    hp.acquire.perm (List.Perm.swap _ _ _)
  have hNot := hAcquire.not_free List.mem_cons_self
  have hEq : (p.acquire.2.release k).calls =
      [.acquire p.acquire.1, .release k] := by
    rw [release_calls hNot, acquire_calls, hCalls]
    rfl
  have hHanded : (p.acquire.2.release k).handed = [] := by
    unfold handed
    rw [hEq]
    rfl
  rw [hHanded, hEq, List.append_nil]
  exact ⟨not_conserves_leak hp.acquire_ne,
    hAcquire.release.of_cons⟩

/- The given token is released twice. -/
theorem Valid.end_again
    (hp : p.Valid (k :: used))
    (hCalls : p.calls = []) :
    ¬ Conserves k ((p.release k).release k).calls ∧
      ((p.release k).release k).Valid
        (used ++ ((p.release k).release k).handed) := by
  have hNot := hp.not_free List.mem_cons_self
  have hEq : ((p.release k).release k).calls =
      [.release k, .releaseAgain k] := by
    rw [release_release hNot, hCalls]
    rfl
  have hHanded : ((p.release k).release k).handed = [] := by
    unfold handed
    rw [hEq]
    rfl
  rw [hHanded, hEq, List.append_nil, release_release hNot]
  exact ⟨not_conserves_again k, hp.release.nodup,
    hp.release.made⟩

end Pool

end TokenPool

end Ns2
