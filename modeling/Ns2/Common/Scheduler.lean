import Mathlib.Order.Lattice
import Mathlib.Tactic.Common

/-
  Events and the queue interface of the event schedulers.

  A scheduler supplies four virtual calls: `insert`,
  `cancel`, `head` and `deque`.  An outer `none` stands for
  a run that aborts or fails an assertion.  `step` is one
  call of a client that stamps each new event with the next
  unique id, as `Scheduler::schedule` does before `insert`.

  Main declarations:
    * `Event`, `Scheduler`, `SchedOp`
    * `Scheduler.step`, `Scheduler.run`
    * `Scheduler.Simulates.run`
-/

------------------------------------------------------------
-- Events
------------------------------------------------------------

namespace Ns2

/- A queued event: its due time and its unique id. -/
structure Event (T : Type) where
  time : T
  uid : Int
deriving DecidableEq, Repr

/- The virtual calls of a scheduler with states `σ`. -/
structure Scheduler (T σ : Type) where
  insert : σ → Event T → Option σ
  cancel : σ → Event T → Option σ
  head : σ → Option (Option (Event T) × σ)
  deque : σ → Option (Option (Event T) × σ)

/-
  The calls of a scheduler's client.  The id counter is
  shared by all schedulers; a `schedule` call carries the
  number of ids taken elsewhere since the last call.
-/
inductive SchedOp (T : Type) where
| schedule : Nat → T → SchedOp T
| cancel : Event T → SchedOp T
| head : SchedOp T
| deque : SchedOp T
deriving DecidableEq, Repr

namespace Scheduler

variable {T σ τ : Type}

/-
  One client call.  The state pairs the next unique id with
  the scheduler; `head` and `deque` answer an event or none.
-/
def step
    (S : Scheduler T σ)
    (w : Int × σ) :
    SchedOp T → Option ((Int × σ) × Option (Event T))
| .schedule taken t =>
    (S.insert w.2 ⟨t, w.1 + taken⟩).map
      (fun s => ((w.1 + taken + 1, s), none))
| .cancel e =>
    (S.cancel w.2 e).map (fun s => ((w.1, s), none))
| .head =>
    (S.head w.2).map (fun r => ((w.1, r.2), r.1))
| .deque =>
    (S.deque w.2).map (fun r => ((w.1, r.2), r.1))

/- The state and the answers of a sequence of calls. -/
def run
    (S : Scheduler T σ)
    (w : Int × σ) :
    List (SchedOp T) →
      Option ((Int × σ) × List (Option (Event T)))
| [] => some (w, [])
| op :: ops =>
    (S.step w op).bind fun r =>
      (run S r.1 ops).map fun rs => (rs.1, r.2 :: rs.2)

end Scheduler

end Ns2

------------------------------------------------------------
-- Simulation
------------------------------------------------------------

namespace Ns2

namespace Scheduler

variable {T σ τ : Type}

/-
  Scheduler `C` simulates `A` through a relation indexed by
  the next unique id: each call that `A` completes is
  completed by `C` with the same answer.  Only times that
  satisfy `Ok` are scheduled.
-/
structure Simulates
    (A : Scheduler T σ)
    (C : Scheduler T τ)
    (Ok : T → Prop)
    (R : Int → σ → τ → Prop) : Prop where
  insert : ∀ {uid uid' a c t a'}, R uid a c →
    uid ≤ uid' → Ok t →
      A.insert a ⟨t, uid'⟩ = some a' →
        ∃ c', C.insert c ⟨t, uid'⟩ = some c' ∧
          R (uid' + 1) a' c'
  cancel : ∀ {uid a c e a'}, R uid a c →
    A.cancel a e = some a' →
      ∃ c', C.cancel c e = some c' ∧ R uid a' c'
  head : ∀ {uid a c r}, R uid a c →
    A.head a = some r →
      ∃ c', C.head c = some (r.1, c') ∧ R uid r.2 c'
  deque : ∀ {uid a c r}, R uid a c →
    A.deque a = some r →
      ∃ c', C.deque c = some (r.1, c') ∧ R uid r.2 c'

variable {A : Scheduler T σ} {C : Scheduler T τ}
variable {Ok : T → Prop} {R : Int → σ → τ → Prop}

/- One call of the client is simulated. -/
theorem Simulates.step
    (hSim : Simulates A C Ok R)
    {uid : Int} {a : σ} {c : τ}
    (hRel : R uid a c)
    {op : SchedOp T}
    (hOk : ∀ k t, op = .schedule k t → Ok t)
    {r : (Int × σ) × Option (Event T)}
    (hStep : A.step (uid, a) op = some r) :
    ∃ c', C.step (uid, c) op = some ((r.1.1, c'), r.2) ∧
      R r.1.1 r.1.2 c' := by
  cases op with
  | schedule taken t =>
      rcases Option.map_eq_some_iff.mp hStep with
        ⟨a', hCall, rfl⟩
      have hUid : uid ≤ uid + taken := by omega
      rcases hSim.insert hRel hUid (hOk taken t rfl)
          hCall with
        ⟨c', hCall', hRel'⟩
      refine ⟨c', ?_, hRel'⟩
      simp [Scheduler.step, hCall']
  | cancel e =>
      rcases Option.map_eq_some_iff.mp hStep with
        ⟨a', hCall, rfl⟩
      rcases hSim.cancel hRel hCall with
        ⟨c', hCall', hRel'⟩
      refine ⟨c', ?_, hRel'⟩
      simp [Scheduler.step, hCall']
  | head =>
      rcases Option.map_eq_some_iff.mp hStep with
        ⟨r', hCall, rfl⟩
      rcases hSim.head hRel hCall with
        ⟨c', hCall', hRel'⟩
      refine ⟨c', ?_, hRel'⟩
      simp [Scheduler.step, hCall']
  | deque =>
      rcases Option.map_eq_some_iff.mp hStep with
        ⟨r', hCall, rfl⟩
      rcases hSim.deque hRel hCall with
        ⟨c', hCall', hRel'⟩
      refine ⟨c', ?_, hRel'⟩
      simp [Scheduler.step, hCall']

/- A sequence of calls is simulated, answer by answer. -/
theorem Simulates.run
    (hSim : Simulates A C Ok R)
    {uid : Int} {a : σ} {c : τ}
    (hRel : R uid a c)
    {ops : List (SchedOp T)}
    (hOk : ∀ k t, .schedule k t ∈ ops → Ok t)
    {r : (Int × σ) × List (Option (Event T))}
    (hRun : A.run (uid, a) ops = some r) :
    ∃ c', C.run (uid, c) ops = some ((r.1.1, c'), r.2) ∧
      R r.1.1 r.1.2 c' := by
  induction ops generalizing uid a c r with
  | nil =>
      cases hRun
      exact ⟨c, rfl, hRel⟩
  | cons op ops ih =>
      rcases Option.bind_eq_some_iff.mp hRun with
        ⟨r₁, hStep, hTail⟩
      rcases Option.map_eq_some_iff.mp hTail with
        ⟨r₂, hRest, rfl⟩
      rcases hSim.step hRel
          (fun k t hEq => hOk k t (by simp [hEq])) hStep with
        ⟨c₁, hStep', hRel₁⟩
      rcases ih hRel₁
          (fun k t hMem => hOk k t (by simp [hMem]))
          hRest with
        ⟨c₂, hRest', hRel₂⟩
      refine ⟨c₂, ?_, hRel₂⟩
      simp [Scheduler.run, hStep', hRest']

end Scheduler

end Ns2
