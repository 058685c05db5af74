import Mathlib.Tactic.IntervalCases
import Ns2.Apps.Rfid.Network

/-
  The rounds that estimate the number of tags.

  A round is a number of slots that all tags draw afresh.
  The reader counts idle slots, successes and collisions, and
  decides about `Q` at the end of the round.

  Main declarations:
    * `Reader.estCounted`, `Reader.start_est_eq`
    * `Reader.LowersTooFar`, `Reader.EstInv`
    * `World.sent`
    * `World.estimation_q_legal_iff`
-/

------------------------------------------------------------
-- The End of a Slot
------------------------------------------------------------

namespace Ns2

namespace Rfid

namespace Reader

/- The reader after it has counted the slot that ended. -/
def estCounted (r : Reader) : Reader :=
  { r with
    slotEstCounter := r.slotEstCounter + 1
    idle := if r.counter = 0 then r.idle + 1 else r.idle
    success :=
      if r.counter = 1 then r.success + 1 else r.success
    collisions :=
      if 1 < r.counter then r.collisions + 1
      else r.collisions
    estCounter := r.estCounter + 1 }

/- The end of a slot that does not end the round, or does. -/
def estNext (r : Reader) : Reader × List Packet :=
  if r.estCounter = r.estConstant + 1 then r.estDecide
  else r.estimateNext

theorem estNext_last
    {r : Reader}
    (hLast : r.estCounter = r.estConstant) :
    r.estCounted.estNext = r.estCounted.estDecide :=
  if_pos (show r.estCounter + 1 = r.estConstant + 1 by omega)

theorem estNext_more
    {r : Reader}
    (hMore : r.estCounter ≠ r.estConstant) :
    r.estCounted.estNext = r.estCounted.estimateNext :=
  if_neg (show ¬ r.estCounter + 1 = r.estConstant + 1 by omega)

theorem start_est_eq
    (r : Reader) :
    r.start_est =
      (r.estCounted.estNext.1,
        (if r.counter = 1 then [r.send_query_reply] else []) ++
          r.estCounted.estNext.2) := by
  unfold start_est estNext estCounted
  by_cases hZero : r.counter = 0
  · simp only [hZero]
    rfl
  · by_cases hOne : r.counter = 1
    · simp only [hOne]
      rfl
    · by_cases hMany : 1 < r.counter
      · simp only [if_neg hZero, if_neg hOne, if_pos hMany]
      · simp only [if_neg hZero, if_neg hOne, if_neg hMany]

end Reader

end Rfid

end Ns2

------------------------------------------------------------
-- Legal Values of Q
------------------------------------------------------------

namespace Ns2

namespace Rfid

/- A value of `Qfp` that rounds to a value of `Q`. -/
structure LegalQfp (q : Rat) : Prop where
  low : -(1 / 2) < q
  high : q ≤ 15

/- `Q` is a value of the standard. -/
structure LegalQ (q : Int) : Prop where
  low : 0 ≤ q
  high : q ≤ 15

theorem cround_le_fifteen
    {q : Rat}
    (hq : q ≤ 15) :
    cround q ≤ 15 := by
  by_cases hNonneg : 0 ≤ q
  · apply cround_le hNonneg
    exact_mod_cast hq
  · unfold cround
    rw [if_neg hNonneg]
    have hFloor : 0 ≤ (-q + 1 / 2).floor := by
      rw [Rat.le_floor_iff]
      push_cast
      linarith
    omega

theorem cround_nonneg_iff
    {q : Rat} :
    0 ≤ cround q ↔ -(1 / 2) < q := by
  by_cases hNonneg : 0 ≤ q
  · constructor
    · intro _
      linarith
    · intro _
      apply le_cround (le_refl 0)
      exact_mod_cast hNonneg
  · unfold cround
    rw [if_neg hNonneg]
    constructor
    · intro hRound
      have hFloor : (-q + 1 / 2).floor < 1 := by omega
      rw [Rat.floor_lt_iff] at hFloor
      push_cast at hFloor
      linarith
    · intro hLow
      have hFloor : (-q + 1 / 2).floor < 1 := by
        rw [Rat.floor_lt_iff]
        push_cast
        linarith
      omega

theorem legalQ_cround_iff
    {q : Rat}
    (hq : q ≤ 15) :
    LegalQ (cround q) ↔ -(1 / 2) < q := by
  constructor
  · intro hLegal
    exact cround_nonneg_iff.mp hLegal.low
  · intro hLow
    exact ⟨cround_nonneg_iff.mpr hLow, cround_le_fifteen hq⟩

theorem LegalQfp.legalQ
    {q : Rat}
    (hq : LegalQfp q) :
    LegalQ (cround q) :=
  (legalQ_cround_iff hq.high).mpr hq.low

/- The range of the draws of `updateSlot` is not empty. -/
theorem LegalQ.range_nonempty
    {q : Int}
    (hq : LegalQ q) :
    0 ≤ pow2 q - 1 := by
  rcases hq with ⟨hLow, hHigh⟩
  interval_cases q <;> decide +kernel

end Rfid

end Ns2

------------------------------------------------------------
-- The End of a Round
------------------------------------------------------------

namespace Ns2

namespace Rfid

/- What a round says about `Q`: too big, too small, or fine. -/
inductive Verdict where
| lower
| raise
| keep
deriving DecidableEq, Repr

namespace Reader

def estVerdict (r : Reader) : Verdict :=
  if r.idle = r.estConstant then .lower
  else if r.collisions = r.estConstant then .raise
  else .keep

/- `Qfp` after `update_Q`. -/
def movedQfp
    (r : Reader) :
    Verdict → Rat
| .lower => r.Qfp - r.c
| .raise => if 15 < r.Qfp + r.c then 4 else r.Qfp + r.c
| .keep => r.Qfp

/- What the reader keeps during an estimation. -/
structure SameEstimation (r r' : Reader) : Prop where
  id : r'.id = r.id
  service : r'.service = r.service
  operation : r'.operation = r.operation
  colTimer : r'.colTimer = r.colTimer
  c : r'.c = r.c
  estConstant : r'.estConstant = r.estConstant

/- A new round at the value `q`. -/
structure Restarted
    (r r' : Reader)
    (q : Rat) : Prop where
  same : r.SameEstimation r'
  Qfp : r'.Qfp = q
  qValue : r'.qValue = cround q
  counter : r'.counter = 0
  idle : r'.idle = 0
  success : r'.success = 0
  collisions : r'.collisions = 0
  estCounter : r'.estCounter = 1
  rsTimer : r'.rsTimer = true

/-
  The decision at the end of a round.  A value that a round
  keeps is tried again, and then the session is finished or
  the value is the start of new rounds.
-/
inductive Decided (r r' : Reader) :
    Verdict → List Packet → Prop
| move
    (v : Verdict)
    (hKeep : v ≠ .keep)
    (hFirst : r.rebuttal = 0)
    (hRestart : r.Restarted r' (r.movedQfp v))
    (hRebuttal : r'.rebuttal = 0) :
    Decided r r' v [r'.send_query_estimate]
| again
    (hFirst : r.rebuttal = 0)
    (hRestart : r.Restarted r' r.Qfp)
    (hFinal : r'.finalQ = r.Qfp)
    (hRebuttal : r'.rebuttal = 1) :
    Decided r r' .keep [r'.send_query_estimate]
| back
    (v : Verdict)
    (hSecond : r.rebuttal ≠ 0)
    (hMoved : r.finalQ ≠ r.movedQfp v)
    (hRestart : r.Restarted r' r.finalQ)
    (hRebuttal : r'.rebuttal = 0) :
    Decided r r' v [r'.send_query_estimate]
| finish
    (v : Verdict)
    (r₁ : Reader)
    (hSecond : r.rebuttal ≠ 0)
    (hSame : r.finalQ = r.movedQfp v)
    (hQfp : r₁.Qfp = r.movedQfp v)
    (hColTimer : r₁.colTimer = r.colTimer)
    (hRsTimer : r₁.rsTimer = r.rsTimer)
    (hNext : r' =
      (r₁.finish_start IP_BROADCAST r.estMethod).1) :
    Decided r r' v
      (r₁.finish_start IP_BROADCAST r.estMethod).2

/- The second of two rounds: finish, or go back. -/
theorem decided_check_rebuttal
    {r : Reader}
    {v : Verdict}
    {soma : Int}
    (hSecond : r.rebuttal ≠ 0)
    (hMoved : (r.update_Q soma).Qfp = r.movedQfp v) :
    r.Decided (r.update_Q soma).check_rebuttal.1 v
      (r.update_Q soma).check_rebuttal.2 := by
  unfold check_rebuttal
  by_cases hSame : r.finalQ = r.movedQfp v
  · have hEq : (r.update_Q soma).finalQ =
        (r.update_Q soma).Qfp := hSame.trans hMoved.symm
    rw [if_pos hEq]
    exact .finish v (r.update_Q soma).reset_est hSecond hSame
      hMoved rfl rfl rfl
  · have hNe : (r.update_Q soma).finalQ ≠
        (r.update_Q soma).Qfp :=
      fun hEq => hSame (hEq.trans hMoved)
    rw [if_neg hNe]
    apply Decided.back v hSecond hSame
    case hRestart =>
      exact ⟨⟨rfl, rfl, rfl, rfl, rfl, rfl⟩, rfl, rfl, rfl,
        rfl, rfl, rfl, rfl, rfl⟩
    case hRebuttal => rfl

/- The same when `Qfp` does not move first. -/
theorem decided_keep
    {r : Reader}
    (hSecond : r.rebuttal ≠ 0) :
    r.Decided r.check_rebuttal.1 .keep r.check_rebuttal.2 := by
  unfold check_rebuttal
  by_cases hSame : r.finalQ = r.Qfp
  · rw [if_pos hSame]
    exact .finish .keep r.reset_est hSecond hSame rfl rfl rfl
      rfl
  · rw [if_neg hSame]
    apply Decided.back .keep hSecond hSame
    case hRestart =>
      exact ⟨⟨rfl, rfl, rfl, rfl, rfl, rfl⟩, rfl, rfl, rfl,
        rfl, rfl, rfl, rfl, rfl⟩
    case hRebuttal => rfl

theorem decided_estDecide
    {r : Reader}
    (hIdle : r.idle ≤ r.estConstant)
    (hCollisions : r.collisions ≤ r.estConstant) :
    r.Decided r.estDecide.1 r.estVerdict r.estDecide.2 := by
  unfold estDecide estVerdict
  by_cases hLower : r.idle = r.estConstant
  · rw [if_pos hLower, if_pos hLower]
    by_cases hFirst : r.rebuttal = 0
    · rw [if_pos hFirst]
      apply Decided.move .lower (by simp) hFirst
      case hRestart =>
        exact ⟨⟨rfl, rfl, rfl, rfl, rfl, rfl⟩, rfl, rfl, rfl,
          rfl, rfl, rfl, rfl, rfl⟩
      case hRebuttal => exact hFirst
    · rw [if_neg hFirst]
      exact decided_check_rebuttal hFirst rfl
  · rw [if_neg hLower, if_neg hLower]
    by_cases hRaise : r.collisions = r.estConstant
    · rw [if_pos hRaise, if_pos hRaise]
      by_cases hFirst : r.rebuttal = 0
      · rw [if_pos hFirst]
        apply Decided.move .raise (by simp) hFirst
        case hRestart =>
          exact ⟨⟨rfl, rfl, rfl, rfl, rfl, rfl⟩, rfl, rfl,
            rfl, rfl, rfl, rfl, rfl, rfl⟩
        case hRebuttal => exact hFirst
      · rw [if_neg hFirst]
        exact decided_check_rebuttal hFirst rfl
    · have hNeither : r.collisions < r.estConstant ∧
          r.idle < r.estConstant := by omega
      rw [if_neg hRaise, if_neg hRaise, if_pos hNeither]
      by_cases hFirst : r.rebuttal = 0
      · rw [if_pos hFirst]
        apply Decided.again hFirst
        case hRestart =>
          exact ⟨⟨rfl, rfl, rfl, rfl, rfl, rfl⟩, rfl, rfl,
            rfl, rfl, rfl, rfl, rfl, rfl⟩
        case hFinal => rfl
        case hRebuttal =>
          show r.rebuttal + 1 = 1
          omega
      · rw [if_neg hFirst]
        exact decided_keep hFirst

end Reader

end Rfid

end Ns2

------------------------------------------------------------
-- The Values of Q
------------------------------------------------------------

namespace Ns2

namespace Rfid

namespace Reader

/-
  The slot that ends makes the round idle in every slot, the
  round is no repetition, and the value that is lowered is
  too small: the defect that no lower bound stops.
-/
structure LowersTooFar (r : Reader) : Prop where
  operation : r.operation = 1 ∨ r.operation = 3
  first : r.rebuttal = 0
  last : r.estCounter = r.estConstant
  idle : r.counter = 0 ∧ r.idle + 1 = r.estConstant
  Qfp : r.Qfp - r.c ≤ -(1 / 2)

/- The counts of a round that is going on. -/
structure RoundCounts (r : Reader) : Prop where
  idle_lt : r.idle < r.estCounter
  collisions_lt : r.collisions < r.estCounter
  estCounter_le : r.estCounter ≤ r.estConstant

/- A session that estimates, at legal values of `Q`. -/
structure EstInv (r : Reader) : Prop where
  operation : r.operation = 1 ∨ r.operation = 3
  colTimer : r.colTimer = false
  c_pos : 0 < r.c
  Qfp : LegalQfp r.Qfp
  qValue : r.qValue = cround r.Qfp
  finalQ : r.rebuttal ≠ 0 → LegalQfp r.finalQ
  round : r.RoundCounts
  estConstant : 1 ≤ r.estConstant

theorem RoundCounts.estCounted_le
    {r : Reader}
    (hRound : r.RoundCounts) :
    r.estCounted.idle ≤ r.estCounter ∧
      r.estCounted.collisions ≤ r.estCounter := by
  have := hRound.idle_lt
  have := hRound.collisions_lt
  unfold estCounted
  constructor
  · dsimp only
    split_ifs <;> omega
  · dsimp only
    split_ifs <;> omega

theorem RoundCounts.idle_eq_iff
    {r : Reader}
    (hRound : r.RoundCounts)
    (hLast : r.estCounter = r.estConstant) :
    r.estCounted.idle = r.estConstant ↔
      r.counter = 0 ∧ r.idle + 1 = r.estConstant := by
  have := hRound.idle_lt
  unfold estCounted
  dsimp only
  split_ifs with hZero
  · simp [hZero]
  · constructor
    · intro hEq
      omega
    · rintro ⟨hEq, _⟩
      exact absurd hEq hZero

/- The state a new round leaves the session in. -/
theorem EstInv.of_restarted
    {r r' : Reader}
    (hInv : r.EstInv)
    {q : Rat}
    (hRestart : r.estCounted.Restarted r' q)
    (hq : LegalQfp q)
    (hFinal : r'.rebuttal ≠ 0 → LegalQfp r'.finalQ) :
    r'.EstInv := by
  have hConstant := hRestart.same.estConstant
  have hOperation := hRestart.same.operation
  have hC := hRestart.same.c
  have hEst := hInv.estConstant
  have hCounter := hRestart.estCounter
  constructor
  case operation =>
    rw [hOperation]
    exact hInv.operation
  case colTimer =>
    exact hRestart.same.colTimer.trans hInv.colTimer
  case c_pos =>
    rw [hC]
    exact hInv.c_pos
  case Qfp =>
    rw [hRestart.Qfp]
    exact hq
  case qValue =>
    rw [hRestart.Qfp]
    exact hRestart.qValue
  case finalQ => exact hFinal
  case round =>
    constructor
    case idle_lt =>
      rw [hRestart.idle, hCounter]
      decide
    case collisions_lt =>
      rw [hRestart.collisions, hCounter]
      decide
    case estCounter_le =>
      rw [hCounter, hConstant]
      exact hEst
  case estConstant =>
    rw [hConstant]
    exact hEst

/- The value after a raise is legal. -/
theorem EstInv.movedQfp_raise
    {r : Reader}
    (hInv : r.EstInv) :
    LegalQfp (r.movedQfp .raise) := by
  have := hInv.c_pos
  have := hInv.Qfp.low
  simp only [movedQfp]
  split_ifs with hHigh
  · exact ⟨by norm_num, by norm_num⟩
  · exact ⟨by linarith, by linarith⟩

/- Each broadcast of the estimation carries a legal `Q`. -/
def LegalOut (out : List Packet) : Prop :=
  ∀ p ∈ out, p.command = .RC_EST → LegalQ p.qValue

theorem legalOut_estimate
    (r : Reader) :
    LegalOut [r.send_query_estimate] ↔ LegalQ r.qValue := by
  constructor
  · intro hAll
    exact hAll _ (List.mem_singleton_self _) rfl
  · intro hLegal p hp _
    rw [List.mem_singleton.mp hp]
    exact hLegal

/- A query reply is no broadcast. -/
theorem legalOut_append_reply
    (r : Reader)
    (out : List Packet) :
    LegalOut ((if r.counter = 1 then [r.send_query_reply]
      else []) ++ out) ↔ LegalOut out := by
  constructor
  · intro hAll p hp
    exact hAll p (List.mem_append_right _ hp)
  · intro hAll p hp hCommand
    rcases List.mem_append.mp hp with hReply | hOut
    · split_ifs at hReply
      · rw [List.mem_singleton.mp hReply] at hCommand
        simp [send_query_reply, header] at hCommand
      · cases hReply
    · exact hAll p hOut hCommand

theorem legalOut_finish_start
    (r : Reader)
    (dest method : Int) :
    LegalOut (r.finish_start dest method).2 := by
  intro p hp hCommand
  unfold finish_start at hp
  split_ifs at hp
  · rw [List.mem_singleton.mp hp] at hCommand
    simp [finish, header] at hCommand
  · rw [List.mem_singleton.mp hp] at hCommand
    simp [query, header] at hCommand
  · cases hp

/- The session goes on or its timers stay as they are. -/
theorem finish_start_phase
    (r : Reader)
    (dest method : Int) :
    (r.finish_start dest method).1.operation = 4 ∨
      (r.finish_start dest method).1.rsTimer = r.rsTimer ∧
        (r.finish_start dest method).1.colTimer =
          r.colTimer := by
  unfold finish_start
  split_ifs
  · exact Or.inr ⟨rfl, rfl⟩
  · exact Or.inl rfl
  · exact Or.inr ⟨rfl, rfl⟩

/- No round is going on any more. -/
def Finished (r : Reader) : Prop :=
  r.operation = 4 ∨ r.rsTimer = false ∧ r.colTimer = false

theorem estVerdict_eq_lower_iff
    (r : Reader) :
    r.estVerdict = .lower ↔ r.idle = r.estConstant := by
  unfold estVerdict
  split_ifs with hIdle hCollisions
  · simp [hIdle]
  · simp [hIdle]
  · simp [hIdle]

/- The first of two rounds moves the value, or keeps it. -/
theorem EstInv.decide_move
    {r r' : Reader}
    (hInv : r.EstInv)
    (hLast : r.estCounter = r.estConstant)
    {v : Verdict}
    (hVerdict : r.estCounted.estVerdict = v)
    (hKeep : v ≠ .keep)
    (hFirst : r.rebuttal = 0)
    (hRestart : r.estCounted.Restarted r'
      (r.estCounted.movedQfp v))
    (hRebuttal : r'.rebuttal = 0) :
    (LegalOut [r'.send_query_estimate] ↔ ¬ r.LowersTooFar) ∧
      (¬ r.LowersTooFar → r'.EstInv ∨ r'.Finished) := by
  have hFinal : r'.rebuttal ≠ 0 → LegalQfp r'.finalQ :=
    fun h => absurd hRebuttal h
  have hIdle := (estVerdict_eq_lower_iff r.estCounted).trans
    (hInv.round.idle_eq_iff hLast)
  rw [legalOut_estimate, hRestart.qValue]
  rw [hVerdict] at hIdle
  have hLow := hInv.Qfp.low
  have hHigh := hInv.Qfp.high
  have hC := hInv.c_pos
  cases v with
  | lower =>
      have hq : r.Qfp - r.c ≤ 15 := by linarith
      have hLegal := legalQ_cround_iff hq
      have hIff : -(1 / 2) < r.Qfp - r.c ↔
          ¬ r.LowersTooFar := by
        rw [← not_le, not_iff_not]
        constructor
        · intro hFar
          exact ⟨hInv.operation, hFirst, hLast, hIdle.mp rfl,
            hFar⟩
        · exact fun h => h.Qfp
      refine ⟨hLegal.trans hIff, fun hNot => Or.inl ?_⟩
      exact hInv.of_restarted hRestart
        ⟨hIff.mpr hNot, hq⟩ hFinal
  | raise =>
      have hNot : ¬ r.LowersTooFar := fun h =>
        absurd (hIdle.mpr h.idle) (by simp)
      have hq : LegalQfp (r.estCounted.movedQfp .raise) :=
        hInv.movedQfp_raise
      refine ⟨⟨fun _ => hNot, fun _ => hq.legalQ⟩,
        fun _ => Or.inl ?_⟩
      exact hInv.of_restarted hRestart hq hFinal
  | keep => exact absurd rfl hKeep

/- A restart at a legal value, when no value is lowered. -/
theorem EstInv.decide_restart
    {r r' : Reader}
    (hInv : r.EstInv)
    {q : Rat}
    (hNot : ¬ r.LowersTooFar)
    (hRestart : r.estCounted.Restarted r' q)
    (hq : LegalQfp q)
    (hFinal : r'.rebuttal ≠ 0 → LegalQfp r'.finalQ) :
    (LegalOut [r'.send_query_estimate] ↔ ¬ r.LowersTooFar) ∧
      (¬ r.LowersTooFar → r'.EstInv ∨ r'.Finished) := by
  rw [legalOut_estimate, hRestart.qValue]
  refine ⟨⟨fun _ => hNot, fun _ => hq.legalQ⟩,
    fun _ => Or.inl ?_⟩
  exact hInv.of_restarted hRestart hq hFinal

/- The end of a round. -/
theorem EstInv.decide
    {r : Reader}
    (hInv : r.EstInv)
    (hTimer : r.rsTimer = false)
    (hLast : r.estCounter = r.estConstant) :
    (LegalOut r.estCounted.estDecide.2 ↔ ¬ r.LowersTooFar) ∧
      (¬ r.LowersTooFar →
        r.estCounted.estDecide.1.EstInv ∨
          r.estCounted.estDecide.1.Finished) := by
  rcases hInv.round.estCounted_le with ⟨hIdle, hCollisions⟩
  have hLe := hInv.round.estCounter_le
  have hKept := (estVerdict_eq_lower_iff r.estCounted).trans
    (hInv.round.idle_eq_iff hLast)
  have hDecided := @decided_estDecide r.estCounted
    (hIdle.trans hLe) (hCollisions.trans hLe)
  generalize r.estCounted.estDecide.2 = out at hDecided ⊢
  generalize r.estCounted.estDecide.1 = r' at hDecided ⊢
  generalize hVerdict : r.estCounted.estVerdict = v
    at hDecided hKept
  cases hDecided with
  | move v hKeep hFirst hRestart hRebuttal =>
      exact hInv.decide_move hLast hVerdict hKeep hFirst
        hRestart hRebuttal
  | again hFirst hRestart hFinalQ hRebuttal =>
      apply hInv.decide_restart _ hRestart hInv.Qfp
      · intro _
        rw [hFinalQ]
        exact hInv.Qfp
      · intro h
        exact absurd (hKept.mpr h.idle) (by simp)
  | back v hSecond hMoved hRestart hRebuttal =>
      apply hInv.decide_restart _ hRestart
        (hInv.finalQ hSecond)
      · exact fun h => absurd hRebuttal h
      · exact fun h => hSecond h.first
  | finish v r₁ hSecond hSame hQfp hCol hRs hNext =>
      refine ⟨⟨fun _ h => hSecond h.first, fun _ => ?_⟩,
        fun _ => Or.inr ?_⟩
      · exact legalOut_finish_start _ _ _
      · rw [hNext]
        rcases finish_start_phase r₁ IP_BROADCAST
            r.estCounted.estMethod with hFour | ⟨hR, hC⟩
        · exact Or.inl hFour
        · refine Or.inr ⟨?_, ?_⟩
          · exact hR.trans (hRs.trans hTimer)
          · exact hC.trans (hCol.trans hInv.colTimer)

/- The end of a slot that does not end the round. -/
theorem EstInv.continue
    {r : Reader}
    (hInv : r.EstInv)
    (hMore : r.estCounter ≠ r.estConstant) :
    LegalOut r.estCounted.estimateNext.2 ∧
      r.estCounted.estimateNext.1.EstInv := by
  rcases hInv.round.estCounted_le with ⟨hIdle, hCollisions⟩
  have hLe := hInv.round.estCounter_le
  constructor
  · apply (legalOut_estimate r.estCounted).mpr
    show LegalQ r.qValue
    rw [hInv.qValue]
    exact hInv.Qfp.legalQ
  · refine ⟨hInv.operation, hInv.colTimer, hInv.c_pos,
      hInv.Qfp, hInv.qValue, hInv.finalQ, ?_,
      hInv.estConstant⟩
    constructor
    case idle_lt => exact Int.lt_add_one_of_le hIdle
    case collisions_lt =>
      exact Int.lt_add_one_of_le hCollisions
    case estCounter_le =>
      show r.estCounter + 1 ≤ r.estConstant
      omega

/- The expired timer has no part in the invariant. -/
theorem EstInv.clear_timer
    {r : Reader}
    (hInv : r.EstInv) :
    { r with rsTimer := false }.EstInv := by
  constructor
  case operation => exact hInv.operation
  case colTimer => exact hInv.colTimer
  case c_pos => exact hInv.c_pos
  case Qfp => exact hInv.Qfp
  case qValue => exact hInv.qValue
  case finalQ => exact hInv.finalQ
  case round =>
    exact ⟨hInv.round.idle_lt, hInv.round.collisions_lt,
      hInv.round.estCounter_le⟩
  case estConstant => exact hInv.estConstant

theorem expireRs_estimation
    {r : Reader}
    (hOperation : r.operation = 1 ∨ r.operation = 3)
    (eomlee : Int → Int → Int → Int) :
    r.expireRs eomlee =
      { r with rsTimer := false }.start_est := by
  unfold Reader.expireRs
  dsimp only
  rw [if_neg (by omega), if_pos hOperation]

/-
  The end of a slot of the estimation: the broadcasts carry a
  legal `Q` exactly if it is not lowered too far, and then
  the session goes on at legal values or is finished.
-/
theorem EstInv.expireRs
    {r : Reader}
    (hInv : r.EstInv)
    (eomlee : Int → Int → Int → Int) :
    (LegalOut (r.expireRs eomlee).2 ↔ ¬ r.LowersTooFar) ∧
      (¬ r.LowersTooFar →
        (r.expireRs eomlee).1.EstInv ∨
          (r.expireRs eomlee).1.Finished) := by
  have hInv₀ := hInv.clear_timer
  have hTooFar : r.LowersTooFar ↔
      { r with rsTimer := false }.LowersTooFar := by
    constructor
    · intro h
      exact ⟨h.operation, h.first, h.last, h.idle, h.Qfp⟩
    · intro h
      exact ⟨h.operation, h.first, h.last, h.idle, h.Qfp⟩
  rw [expireRs_estimation hInv.operation, start_est_eq, hTooFar]
  generalize hr₀ : { r with rsTimer := false } = r₀ at hInv₀ ⊢
  have hTimer : r₀.rsTimer = false := by
    subst hr₀
    rfl
  dsimp only
  rw [legalOut_append_reply]
  by_cases hLast : r₀.estCounter = r₀.estConstant
  · rw [estNext_last hLast]
    exact hInv₀.decide hTimer hLast
  · rw [estNext_more hLast]
    rcases hInv₀.continue hLast with ⟨hOut, hNext⟩
    exact ⟨⟨fun _ h => hLast h.last, fun _ => hOut⟩,
      fun _ => Or.inl hNext⟩

end Reader

end Rfid

end Ns2

------------------------------------------------------------
-- After the Estimation
------------------------------------------------------------

namespace Ns2

namespace Rfid

namespace Reader

theorem legalOut_append
    {out out' : List Packet}
    (hOut : LegalOut out)
    (hOut' : LegalOut out') :
    LegalOut (out ++ out') := by
  intro p hp
  rcases List.mem_append.mp hp with hMem | hMem
  · exact hOut p hMem
  · exact hOut' p hMem

theorem legalOut_query
    (r : Reader)
    {command : Command}
    (hCommand : command ≠ .RC_EST)
    (slotNumber rep : Int) :
    LegalOut [r.query command slotNumber rep] := by
  intro p hp hEst
  rw [List.mem_singleton.mp hp] at hEst
  exact absurd hEst hCommand

theorem legalOut_nil : LegalOut [] := by
  intro p hp
  cases hp

theorem legalOut_slotReply
    (r : Reader) :
    LegalOut r.slotReply := by
  unfold slotReply
  split_ifs
  · intro p hp hEst
    rw [List.mem_singleton.mp hp] at hEst
    simp [send_query_reply, header] at hEst
  · exact legalOut_nil

/- The slots of a frame send no broadcast of the estimation. -/
theorem legalOut_start_estimationDFSA
    (r : Reader) :
    LegalOut r.start_estimationDFSA.2 ∧
      r.start_estimationDFSA.1.operation = r.operation := by
  have hReplies := legalOut_slotReply
    { r with
      slotCounter := r.slotCounter + 1
      uniqCounter := r.uniqCounter + 1 }
  have hCount : ∀ r₁ : Reader,
      r₁.countSlot.operation = r₁.operation := by
    intro r₁
    unfold countSlot
    split_ifs <;> rfl
  unfold start_estimationDFSA
  dsimp only
  split_ifs
  · refine ⟨?_, hCount _⟩
    apply legalOut_append
    · apply legalOut_append hReplies
      exact legalOut_query _ (by simp) _ _
    · exact legalOut_query _ (by simp) _ _
  · refine ⟨?_, hCount _⟩
    apply legalOut_append hReplies
    exact legalOut_query _ (by simp) _ _
  · refine ⟨?_, hCount _⟩
    apply legalOut_append hReplies
    exact legalOut_query _ (by simp) _ _
  · exact ⟨hReplies, hCount _⟩

theorem legalOut_startFrame
    (r : Reader)
    (size rep : Int) :
    LegalOut (r.startFrame size rep).2 ∧
      (r.startFrame size rep).1.operation = r.operation := by
  unfold startFrame
  split_ifs
  · exact ⟨legalOut_query _ (by simp) _ _, rfl⟩
  · exact ⟨legalOut_query _ (by simp) _ _, rfl⟩

theorem legalOut_calculate_next_Q
    (eomlee : Int → Int → Int → Int)
    (r : Reader)
    (col suc method rep : Int) :
    LegalOut (r.calculate_next_Q eomlee col suc method rep).2 ∧
      (r.calculate_next_Q eomlee col suc method
        rep).1.operation = r.operation := by
  unfold calculate_next_Q
  split_ifs
  · cases r.frameSize eomlee col suc method rep with
    | none => exact ⟨legalOut_nil, rfl⟩
    | some size => exact legalOut_startFrame r size rep
  · exact ⟨legalOut_query _ (by simp) _ _, rfl⟩
  · exact ⟨legalOut_nil, rfl⟩

theorem legalOut_resolve_collisions
    (eomlee : Int → Int → Int → Int)
    (r : Reader) :
    LegalOut (r.resolve_collisions eomlee).2 ∧
      (r.resolve_collisions eomlee).1.operation =
        r.operation := by
  have hReplies := legalOut_slotReply
    { r with
      slotCounter := r.slotCounter + 1
      subSlotNumber := r.subSlotNumber + 1 }
  have hCount : ∀ r₁ : Reader,
      r₁.countSlot.operation = r₁.operation := by
    intro r₁
    unfold countSlot
    split_ifs <;> rfl
  unfold resolve_collisions
  dsimp only
  split_ifs
  · refine ⟨?_, hCount _⟩
    apply legalOut_append hReplies
    exact legalOut_query _ (by simp) _ _
  · rcases legalOut_calculate_next_Q eomlee
        { ({ r with
            slotCounter := r.slotCounter + 1
            subSlotNumber :=
              r.subSlotNumber + 1 }.countSlot.endFrame) with
          subSlotNumber := 1 } _ _ _ _ with ⟨hOut, hNext⟩
    refine ⟨legalOut_append hReplies hOut, ?_⟩
    exact hNext.trans (hCount _)

/- The packets that a reader hears change little of it. -/
theorem recv_frame
    (r : Reader)
    (p : Packet) :
    LegalOut (r.recv p).2 ∧
      ∃ tagEPC tagIP rng16 counter, (r.recv p).1 =
        { r with
          tagEPC := tagEPC
          tagIP := tagIP
          rng16 := rng16
          counter := counter } := by
  unfold recv
  by_cases hOwn : p.tipo = .tr ∧ p.id = r.id
  · rw [if_pos hOwn]
    cases p.service with
    | tracking =>
        refine ⟨?_, r.tagEPC, r.tagIP, r.rng16, r.counter,
          rfl⟩
        dsimp only
        split_ifs
        · intro q hq hEst
          rw [List.mem_singleton.mp hq] at hEst
          simp [trackingAck, Packet.alloc] at hEst
        · exact legalOut_nil
    | standard => exact ⟨legalOut_nil, _, _, _, _, rfl⟩
    | ebtsa => exact ⟨legalOut_nil, _, _, _, _, rfl⟩
    | edfsa => exact ⟨legalOut_nil, _, _, _, _, rfl⟩
    | noservice => exact ⟨legalOut_nil, _, _, _, _, rfl⟩
  · rw [if_neg hOwn]
    exact ⟨legalOut_nil, _, _, _, _, rfl⟩

end Reader

end Rfid

end Ns2

------------------------------------------------------------
-- The Broadcasts of a Session
------------------------------------------------------------

namespace Ns2

namespace Rfid

namespace World

variable {n : Nat}

/- The packets the reader sends in one action. -/
def posted
    (eomlee : Int → Int → Int → Int)
    (w : World n) :
    Action n → List Packet
| .expireRs => (w.reader.expireRs eomlee).2
| .expireCol => (w.reader.expireCol eomlee).2
| .receive _ _ _ => []
| .answer k =>
    match w.up[k]? with
    | some p => (w.reader.recv p).2
    | none => []

/- The packets the reader sends in a run. -/
def sent
    (eomlee : Int → Int → Int → Int)
    (ordered : Packet → Bool)
    (w : World n)
    (actions : List (Action n)) : List Packet :=
  PartialRun.outputs (act eomlee ordered) (posted eomlee) w
    actions

/- The slots of a session that has ended its estimation. -/
theorem finished_act
    {eomlee : Int → Int → Int → Int}
    {ordered : Packet → Bool}
    {w w' : World n}
    {a : Action n}
    (hFinished : w.reader.Finished)
    (hAct : w.act eomlee ordered a = some w') :
    Reader.LegalOut (w.posted eomlee a) ∧
      w'.reader.Finished := by
  cases a with
  | expireRs =>
      simp only [World.act, Option.ite_none_right_eq_some,
        Option.some.injEq] at hAct
      rcases hAct with ⟨⟨hPending, _⟩, rfl⟩
      rcases hFinished with hFour | ⟨hOff, _⟩
      · have hExpire : w.reader.expireRs eomlee =
            { w.reader with
              rsTimer := false }.start_estimationDFSA := by
          unfold Reader.expireRs
          dsimp only
          rw [if_neg (by omega), if_neg (by omega),
            if_neg (by omega), if_pos hFour]
        rcases Reader.legalOut_start_estimationDFSA
            { w.reader with rsTimer := false } with
          ⟨hOut, hOperation⟩
        rw [← hExpire] at hOut hOperation
        exact ⟨hOut, Or.inl (hOperation.trans hFour)⟩
      · rw [hPending] at hOff
        cases hOff
  | expireCol =>
      simp only [World.act, Option.ite_none_right_eq_some,
        Option.some.injEq] at hAct
      rcases hAct with ⟨⟨hPending, _⟩, rfl⟩
      rcases hFinished with hFour | ⟨_, hOff⟩
      · rcases Reader.legalOut_resolve_collisions eomlee
            { w.reader with colTimer := false } with
          ⟨hOut, hOperation⟩
        exact ⟨hOut, Or.inl (hOperation.trans hFour)⟩
      · rw [hPending] at hOff
        cases hOff
  | receive i k u =>
      simp only [World.act, Option.bind_eq_some_iff,
        Option.ite_none_right_eq_some,
        Option.some.injEq] at hAct
      rcases hAct with ⟨p, _, _, rfl⟩
      exact ⟨Reader.legalOut_nil, hFinished⟩
  | answer k =>
      simp only [World.act, Option.map_eq_some_iff] at hAct
      rcases hAct with ⟨p, hGet, rfl⟩
      rcases w.reader.recv_frame p with
        ⟨hOut, tagEPC, tagIP, rng16, counter, hEq⟩
      simp only [posted, hGet]
      refine ⟨hOut, ?_⟩
      show Reader.Finished (w.reader.recv p).1
      rw [hEq]
      exact hFinished

/- The session estimates at legal values, or has ended. -/
def LegalPhase (w : World n) : Prop :=
  w.reader.EstInv ∨ w.reader.Finished

/- An action of the session keeps `Q` legal, or lowers it. -/
theorem LegalPhase.act
    {eomlee : Int → Int → Int → Int}
    {ordered : Packet → Bool}
    {w w' : World n}
    {a : Action n}
    (hPhase : w.LegalPhase)
    (hAct : w.act eomlee ordered a = some w') :
    (Reader.LegalOut (w.posted eomlee a) ↔
        (a = .expireRs → ¬ w.reader.LowersTooFar)) ∧
      ((a = .expireRs → ¬ w.reader.LowersTooFar) →
        w'.LegalPhase) := by
  rcases hPhase with hInv | hFinished
  · cases a with
    | expireRs =>
        simp only [World.act, Option.ite_none_right_eq_some,
          Option.some.injEq] at hAct
        rcases hAct with ⟨_, rfl⟩
        simp only [true_implies, posted]
        exact hInv.expireRs eomlee
    | expireCol =>
        simp only [World.act, Option.ite_none_right_eq_some,
          Option.some.injEq] at hAct
        rcases hAct with ⟨⟨hPending, _⟩, rfl⟩
        rw [hInv.colTimer] at hPending
        cases hPending
    | receive i k u =>
        simp only [World.act, Option.bind_eq_some_iff,
          Option.ite_none_right_eq_some,
          Option.some.injEq] at hAct
        rcases hAct with ⟨p, _, _, rfl⟩
        simp only [reduceCtorEq, false_implies, iff_true,
          posted]
        exact ⟨Reader.legalOut_nil, fun _ => Or.inl hInv⟩
    | answer k =>
        simp only [World.act, Option.map_eq_some_iff] at hAct
        rcases hAct with ⟨p, hGet, rfl⟩
        simp only [reduceCtorEq, false_implies, iff_true,
          posted, hGet]
        rcases w.reader.recv_frame p with
          ⟨hOut, tagEPC, tagIP, rng16, counter, hEq⟩
        refine ⟨hOut, fun _ => Or.inl ?_⟩
        show Reader.EstInv (w.reader.recv p).1
        rw [hEq]
        constructor
        case operation => exact hInv.operation
        case colTimer => exact hInv.colTimer
        case c_pos => exact hInv.c_pos
        case Qfp => exact hInv.Qfp
        case qValue => exact hInv.qValue
        case finalQ => exact hInv.finalQ
        case round =>
          exact ⟨hInv.round.idle_lt, hInv.round.collisions_lt,
            hInv.round.estCounter_le⟩
        case estConstant => exact hInv.estConstant
  · rcases finished_act hFinished hAct with ⟨hOut, hNext⟩
    have hNot : a = .expireRs → ¬ w.reader.LowersTooFar := by
      rintro rfl hFar
      simp only [World.act,
        Option.ite_none_right_eq_some] at hAct
      rcases hFinished with hFour | ⟨hOff, _⟩
      · rcases hFar.operation with h | h <;> omega
      · exact absurd (hAct.1.1.symm.trans hOff) (by simp)
    exact ⟨⟨fun _ => hNot, fun _ => hOut⟩,
      fun _ => Or.inr hNext⟩

/-
  In every session of the estimation each broadcast carries a
  legal `Q`, and so a range of slots that is not empty,
  exactly if no slot that ends lowers `Q` too far.
-/
theorem estimation_q_legal_iff
    (eomlee : Int → Int → Int → Int)
    (ordered : Packet → Bool)
    (r : Reader)
    (tags : Fin n → Tag)
    (next : Reader × List Packet)
    (hStart : next = r.standard_with_estimation ∨
      next = r.estimation_dfsa_query)
    (hNonneg : 0 ≤ r.Qfp)
    (hLe : r.Qfp ≤ 15)
    (hQ : r.qValue = cround r.Qfp)
    (hc : 0 < r.c)
    (hConstant : 1 ≤ r.estConstant)
    (hTimer : r.colTimer = false)
    (actions : List (Action n)) :
    (∀ p ∈ next.2 ++ (World.start next tags).sent
        eomlee ordered actions,
      p.command = .RC_EST →
        LegalQ p.qValue ∧ 0 ≤ pow2 p.qValue - 1) ↔
    ∀ before a after v v',
      actions = before ++ a :: after →
      (World.start next tags).run eomlee ordered before =
        some v →
      v.act eomlee ordered a = some v' →
      a = .expireRs → ¬ v.reader.LowersTooFar := by
  have hLegal : LegalQfp r.Qfp :=
    ⟨by linarith, hLe⟩
  have hRound : ∀ r' : Reader, r'.idle = 0 →
      r'.collisions = 0 → r'.estCounter = 1 →
      1 ≤ r'.estConstant → r'.RoundCounts := by
    intro r' hIdle hCollisions hCounter hConstant
    exact ⟨by omega, by omega, by omega⟩
  have hPhase : (World.start next tags).LegalPhase := by
    apply Or.inl
    rcases hStart with rfl | rfl
    · exact ⟨Or.inl rfl, hTimer, hc, hLegal, hQ,
        fun h => absurd rfl h,
        hRound _ rfl rfl rfl hConstant, hConstant⟩
    · exact ⟨Or.inr rfl, hTimer, hc, hLegal, hQ,
        fun h => absurd rfl h,
        hRound _ rfl rfl rfl hConstant, hConstant⟩
  have hFirst : Reader.LegalOut next.2 := by
    have hLegalQ : LegalQ r.qValue := by
      rw [hQ]
      exact hLegal.legalQ
    rcases hStart with rfl | rfl
    · exact (Reader.legalOut_estimate _).mpr hLegalQ
    · exact (Reader.legalOut_estimate _).mpr hLegalQ
  have hSent := PartialRun.forall_outputs_iff
    (fun w a w' hw hAct => (@LegalPhase.act n eomlee ordered
      w w' a hw hAct).1)
    (fun w a w' hw hAct => (@LegalPhase.act n eomlee ordered
      w w' a hw hAct).2) hPhase actions
  apply Iff.trans _ hSent
  constructor
  · intro hAll p hp hCommand
    exact (hAll p (List.mem_append_right _ hp) hCommand).1
  · intro hAll p hp hCommand
    have hValue : LegalQ p.qValue := by
      rcases List.mem_append.mp hp with hMem | hMem
      · exact hFirst p hMem hCommand
      · exact hAll p hMem hCommand
    exact ⟨hValue, hValue.range_nonempty⟩

/- With no tags `Q` goes from 4 to 3 after one slot. -/
theorem estimation_q_legal_iff_no_tags :
    ∃ sent,
      sent = ({ Reader.new 0 with
          service := .ebtsa
          c := 1
          estConstant := 1 } :
            Reader).standard_with_estimation.2 ++
        (World.start ({ Reader.new 0 with
          service := .ebtsa
          c := 1
          estConstant := 1 } :
            Reader).standard_with_estimation
          (fun _ : Fin 0 => Tag.new 0 0)).sent
            (fun _ _ _ => 0) (fun _ => false) [.expireRs] ∧
      ∀ p ∈ sent, p.command = .RC_EST →
        LegalQ p.qValue ∧ 0 ≤ pow2 p.qValue - 1 := by
  refine ⟨_, rfl, ?_⟩
  apply (estimation_q_legal_iff (fun _ _ _ => 0)
    (fun _ => false) _ _ _ (Or.inl rfl) (by decide +kernel)
    (by decide +kernel) (by decide +kernel)
    (by decide +kernel) (by decide) rfl _).mpr
  intro before a after v v' hEq hRun hAct hExpire hFar
  cases before with
  | nil =>
      cases hRun
      exact absurd hFar.Qfp (by decide +kernel)
  | cons a' before => simp at hEq

/-
  With no tags a round at `Q = 0` is idle in every slot, and
  the next broadcast asks for slots at `Q = -1`.
-/
theorem estimation_lowers_below_zero :
    ((World.start ({ Reader.new 0 with
        service := .ebtsa
        qValue := 0
        Qfp := 0
        c := 1
        estConstant := 1 } : Reader).standard_with_estimation
      (fun _ : Fin 0 => Tag.new 0 0)).sent
        (fun _ _ _ => 0) (fun _ => false)
        [.expireRs]).map (fun p => (p.command, p.qValue)) =
      [(.RC_EST, -1)] := by
  decide +kernel

end World

end Rfid

end Ns2
