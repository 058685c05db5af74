import Ns2.Apps.Rfid.Estimation

/-
  What the rounds of the estimation count.

  The reader clears its reply counter at the end of a round
  and not of a slot, so that it counts a slot by the replies
  of the round up to its end.  The counts are right exactly
  for the rounds in which each slot after the first one with
  a reply has a collision.

  Main declarations:
    * `cleanRound`, `sums`, `counts_iff`
    * `Observed`, `Observed.act`
    * `Observed.RoundInv`
    * `Observed.estimation_rounds`
-/

------------------------------------------------------------
-- Numbers of Replies
------------------------------------------------------------

namespace Ns2

namespace Rfid

/-
  After the first slot with a reply all slots of the round
  have a collision.
-/
def cleanRound : List Nat → Bool
| [] => true
| k :: ks =>
    (decide (k = 0) || ks.all (fun k => decide (2 ≤ k))) &&
      cleanRound ks

/- What a round with these numbers of replies says. -/
def roundVerdict (ks : List Nat) : Verdict :=
  if ks.all (fun k => decide (k = 0)) then .lower
  else if ks.all (fun k => decide (2 ≤ k)) then .raise
  else .keep

/- The replies up to the end of each slot, from `s` on. -/
def sums (s : Nat) : List Nat → List Nat
| [] => []
| k :: ks => (s + k) :: sums (s + k) ks

theorem length_sums
    (s : Nat)
    (ks : List Nat) :
    (sums s ks).length = ks.length := by
  induction ks generalizing s with
  | nil => rfl
  | cons k ks ih =>
      simp only [sums, List.length_cons]
      rw [ih]

theorem sums_append
    (s : Nat)
    (ks : List Nat)
    (k : Nat) :
    sums s (ks ++ [k]) = sums s ks ++ [s + ks.sum + k] := by
  induction ks generalizing s with
  | nil => simp [sums]
  | cons k' ks ih =>
      simp only [List.cons_append, sums, List.sum_cons]
      rw [ih]
      simp [add_assoc]

theorem le_of_mem_sums
    {s : Nat}
    {ks : List Nat}
    {k : Nat}
    (hk : k ∈ sums s ks) :
    s ≤ k := by
  induction ks generalizing s with
  | nil => cases hk
  | cons k' ks ih =>
      simp only [sums] at hk
      rcases List.mem_cons.mp hk with hEq | hMem
      · omega
      · have := ih hMem
        omega

/- No slot is counted below the replies before it. -/
theorem count_sums_of_lt
    {s k : Nat}
    (hk : k < s)
    (ks : List Nat) :
    (sums s ks).count k = 0 := by
  rw [List.count_eq_zero]
  intro hMem
  have := le_of_mem_sums hMem
  omega

/- The slots are idle, successes or collisions. -/
theorem length_eq_counts
    (ks : List Nat) :
    ks.length = ks.count 0 + ks.count 1 +
      ks.countP (fun k => decide (2 ≤ k)) := by
  induction ks with
  | nil => rfl
  | cons k ks ih =>
      rw [List.length_cons, List.count_cons, List.count_cons,
        List.countP_cons, ih]
      rcases k with _ | _ | k
      · simp
        omega
      · simp
        omega
      · simp
        omega

theorem all_collisions_iff
    (ks : List Nat) :
    ks.all (fun k => decide (2 ≤ k)) = true ↔
      ks.count 0 = 0 ∧ ks.count 1 = 0 := by
  simp only [List.all_eq_true, decide_eq_true_eq,
    List.count_eq_zero]
  constructor
  · intro hAll
    constructor
    · intro hMem
      have := hAll 0 hMem
      omega
    · intro hMem
      have := hAll 1 hMem
      omega
  · rintro ⟨hZero, hOne⟩ k hk
    have : k ≠ 0 := fun h => hZero (h ▸ hk)
    have : k ≠ 1 := fun h => hOne (h ▸ hk)
    omega

theorem cleanRound_of_all
    {ks : List Nat}
    (hAll : ks.all (fun k => decide (2 ≤ k)) = true) :
    cleanRound ks = true := by
  induction ks with
  | nil => rfl
  | cons k ks ih =>
      simp only [List.all_cons, Bool.and_eq_true] at hAll
      simp only [cleanRound, Bool.and_eq_true,
        Bool.or_eq_true]
      exact ⟨Or.inr hAll.2, ih hAll.2⟩

/- No success is counted once two tags have replied. -/
theorem count_one_sums
    {k : Nat}
    (hk : 1 ≤ k)
    {ks : List Nat}
    (hIdle : ks.count 0 = 0) :
    (sums k ks).count 1 = 0 := by
  cases ks with
  | nil => rfl
  | cons k' ks =>
      have hPos : k' ≠ 0 := by
        rintro rfl
        simp at hIdle
      rw [List.count_eq_zero]
      intro hMem
      simp only [sums] at hMem
      rcases List.mem_cons.mp hMem with hEq | hMem'
      · omega
      · have := le_of_mem_sums hMem'
        omega

/- After a reply the counts tell whether all slots collide. -/
theorem counts_after_reply
    {k : Nat}
    (hk : 1 ≤ k)
    (ks : List Nat) :
    ((sums 0 (k :: ks)).count 0 = (k :: ks).count 0 ∧
      (sums 0 (k :: ks)).count 1 = (k :: ks).count 1) ↔
    ks.all (fun k => decide (2 ≤ k)) = true := by
  have hZero : (sums k ks).count 0 = 0 :=
    count_sums_of_lt hk ks
  have hNe : (k == 0) = false := by
    simp
    omega
  rw [all_collisions_iff]
  simp only [sums, zero_add, List.count_cons, hZero, hNe]
  constructor
  · rintro ⟨hIdle, hOne⟩
    have hIdle' : ks.count 0 = 0 := by simpa using hIdle.symm
    have hSums := count_one_sums hk hIdle'
    exact ⟨hIdle', by omega⟩
  · rintro ⟨hIdle, hOne⟩
    rw [count_one_sums hk hIdle, hIdle, hOne]
    exact ⟨rfl, rfl⟩

/- The counts of a round are right exactly if it is clean. -/
theorem counts_iff
    (ks : List Nat) :
    ((sums 0 ks).count 0 = ks.count 0 ∧
      (sums 0 ks).count 1 = ks.count 1 ∧
      (sums 0 ks).countP (fun k => decide (2 ≤ k)) =
        ks.countP (fun k => decide (2 ≤ k))) ↔
    cleanRound ks = true := by
  have hTwo : ((sums 0 ks).count 0 = ks.count 0 ∧
      (sums 0 ks).count 1 = ks.count 1) ↔
      cleanRound ks = true := by
    induction ks with
    | nil => simp [sums, cleanRound]
    | cons k ks ih =>
        by_cases hk : k = 0
        · subst hk
          simp only [cleanRound, sums, List.count_cons]
          simpa using ih
        · have hPos : 1 ≤ k := by omega
          rw [counts_after_reply hPos]
          simp only [cleanRound, hk, decide_false,
            Bool.false_or, Bool.and_eq_true]
          constructor
          · intro hAll
            exact ⟨hAll, cleanRound_of_all hAll⟩
          · exact fun h => h.1
  have hLength := length_eq_counts ks
  have hLength' := length_eq_counts (sums 0 ks)
  rw [length_sums] at hLength'
  rw [← hTwo]
  constructor
  · rintro ⟨hIdle, hOne, _⟩
    exact ⟨hIdle, hOne⟩
  · rintro ⟨hIdle, hOne⟩
    exact ⟨hIdle, hOne, by omega⟩

end Rfid

end Ns2

------------------------------------------------------------
-- Observed Sessions
------------------------------------------------------------

namespace Ns2

namespace Rfid

/-
  A session and what an observer of its slots knows: the
  numbers of tags that replied in the slots of the current
  round, the value of `Qfp` and the numbers of the last
  round, and whether all rounds that ended were clean.
-/
structure Observed (n : Nat) where
  world : World n
  round : List Nat
  last : Option (Rat × List Nat)
  clean : Bool

namespace Observed

variable {n : Nat}

/- A session after its start command. -/
def start
    (next : Reader × List Packet)
    (tags : Fin n → Tag) : Observed n :=
  ⟨World.start next tags, [], none, true⟩

/- The round with the slot that is going on. -/
def counts (o : Observed n) : List Nat :=
  o.round ++ [o.world.replied.length]

/- The end of a slot, which may be the last of its round. -/
def endSlot
    (o : Observed n)
    (w : World n) : Observed n :=
  if (o.counts.length : Int) = o.world.reader.estConstant then
    ⟨w, [], some (o.world.reader.Qfp, o.counts),
      o.clean && cleanRound o.counts⟩
  else ⟨w, o.counts, o.last, o.clean⟩

/- One action of the session. -/
def act
    (eomlee : Int → Int → Int → Int)
    (ordered : Packet → Bool)
    (o : Observed n)
    (a : Action n) : Option (Observed n) :=
  (o.world.act eomlee ordered a).map fun w =>
    match a with
    | .expireRs => o.endSlot w
    | _ => { o with world := w }

/- A sequence of actions. -/
def run
    (eomlee : Int → Int → Int → Int)
    (ordered : Packet → Bool)
    (o : Observed n)
    (actions : List (Action n)) : Option (Observed n) :=
  PartialRun.run (act eomlee ordered) o actions

end Observed

end Rfid

end Ns2

------------------------------------------------------------
-- Replies of the Tags
------------------------------------------------------------

namespace Ns2

namespace Rfid

namespace Packet

/- A broadcast of the estimation. -/
def isEst (p : Packet) : Bool :=
  decide (p.command = .RC_EST)

/- A packet of the estimation in flight to a tag. -/
structure InEstimation
    (p : Packet)
    (r : Reader) : Prop where
  tipo : p.tipo = .rt
  service : p.service = .ebtsa
  id : p.id = r.id
  command : p.command = .RC_EST ∨ p.command = .RC_QUERYREPLY

/- A reply of the estimation in flight to the reader. -/
structure EstReply
    (p : Packet)
    (r : Reader) : Prop where
  tipo : p.tipo = .tr
  service : p.service = .ebtsa
  id : p.id = r.id
  command : p.command = .TR_EST_REPLY

end Packet

namespace Tag

/- A tag answers a broadcast at most once, and nothing else. -/
theorem recv_estimation
    {p : Packet}
    {r : Reader}
    (hPacket : p.InEstimation r)
    (t : Tag)
    (u : Rat) :
    (t.recv p u).2 = [] ∨
      p.isEst = true ∧
        ∃ q, q.EstReply r ∧ (t.recv p u).2 = [q] := by
  simp only [recv, hPacket.tipo, hPacket.service,
    recvEstimation]
  by_cases hEst : p.command = .RC_EST
  · rw [if_pos hEst]
    split_ifs
    · refine Or.inr ⟨decide_eq_true hEst, _, ?_, rfl⟩
      exact ⟨rfl, hPacket.service, hPacket.id, rfl⟩
    · exact Or.inl rfl
  · rw [if_neg hEst]
    split_ifs
    · exact Or.inl rfl
    · exact Or.inl rfl

end Tag

namespace Reader

theorem recv_estReply
    {r : Reader}
    {p : Packet}
    (hReply : p.EstReply r) :
    r.recv p =
      ({ r.hear p with counter := r.counter + 1 }, []) := by
  simp only [recv, hReply.tipo, hReply.id, hReply.service,
    hReply.command, and_self, if_true]

end Reader

end Rfid

end Ns2

------------------------------------------------------------
-- The Invariant of a Round
------------------------------------------------------------

namespace Ns2

namespace Rfid

namespace Observed

variable {n : Nat}

/-
  In a session that estimates, the reply counter is the
  number of replies in the whole round so far, and the counts
  of the reader are those of these sums.
-/
structure RoundInv (o : Observed n) : Prop where
  operation :
    o.world.reader.operation = 1 ∨
      o.world.reader.operation = 3
  service : o.world.reader.service = .ebtsa
  colTimer : o.world.reader.colTimer = false
  estCounter :
    o.world.reader.estCounter = o.round.length + 1
  estCounter_le :
    o.world.reader.estCounter ≤ o.world.reader.estConstant
  idle : o.world.reader.idle = (sums 0 o.round).count 0
  success :
    o.world.reader.success = (sums 0 o.round).count 1
  collisions : o.world.reader.collisions =
    (sums 0 o.round).countP (fun k => decide (2 ≤ k))
  count : o.world.reader.counter + o.world.up.length =
    o.round.sum + o.world.replied.length
  packets : ∀ i, ∀ p ∈ o.world.down i,
    p.InEstimation o.world.reader
  once : ∀ i,
    (o.world.down i).countP Packet.isEst ≤ 1
  nodup : o.world.replied.Nodup
  received : ∀ i ∈ o.world.replied,
    (o.world.down i).countP Packet.isEst = 0
  replies : ∀ p ∈ o.world.up, p.EstReply o.world.reader
  finalQ : o.world.reader.rebuttal ≠ 0 →
    o.world.reader.finalQ = o.world.reader.Qfp
  history : 0 < o.world.reader.c → o.world.reader.c ≤ 11 →
    o.clean = true →
    (o.world.reader.rebuttal ≠ 0 ↔
      ∃ ks, o.last = some (o.world.reader.Qfp, ks) ∧
        roundVerdict ks = .keep)

/- A tag receives a packet, and may reply. -/
theorem RoundInv.receive
    {o : Observed n}
    (hInv : o.RoundInv)
    {i : Fin n}
    {before after : List Packet}
    {p : Packet}
    (hDown : o.world.down i = before ++ p :: after)
    (u : Rat) :
    { o with
      world := o.world.receive i p (before ++ after) u
    }.RoundInv := by
  have hMem : p ∈ o.world.down i := by
    rw [hDown]
    simp
  have hPacket := hInv.packets i p hMem
  have hCount : (before ++ after).countP Packet.isEst +
      (if p.isEst = true then 1 else 0) =
        (o.world.down i).countP Packet.isEst := by
    rw [hDown, List.countP_append, List.countP_append,
      List.countP_cons]
    omega
  have hOnce := hInv.once i
  -- A broadcast that is received was the only one.
  have hLess : (before ++ after).countP Packet.isEst ≤
      (o.world.down i).countP Packet.isEst := by
    omega
  have hCases :
      ((o.world.tags i).recv p u).2 = [] ∧
        (o.world.receive i p (before ++ after) u).replied =
          o.world.replied ∨
      (before ++ after).countP Packet.isEst = 0 ∧
        i ∉ o.world.replied ∧
        (∃ q, q.EstReply o.world.reader ∧
          ((o.world.tags i).recv p u).2 = [q]) ∧
        (o.world.receive i p (before ++ after) u).replied =
          o.world.replied ++ [i] := by
    rcases Tag.recv_estimation hPacket (o.world.tags i) u with
      hOut | ⟨hEst, q, hReply, hOut⟩
    · exact Or.inl
        ⟨hOut, World.receive_replied_of_silent hOut _⟩
    · rw [if_pos hEst] at hCount
      refine Or.inr ⟨by omega, ?_, ⟨q, hReply, hOut⟩,
        World.receive_replied_of_reply hOut _⟩
      intro hReplied
      have := hInv.received i hReplied
      omega
  constructor
  case operation => exact hInv.operation
  case service => exact hInv.service
  case colTimer => exact hInv.colTimer
  case estCounter => exact hInv.estCounter
  case estCounter_le => exact hInv.estCounter_le
  case idle => exact hInv.idle
  case success => exact hInv.success
  case collisions => exact hInv.collisions
  case count =>
    have hOld := hInv.count
    dsimp only
    rw [World.receive_reader, World.receive_up,
      List.length_append]
    rcases hCases with
      ⟨hOut, hReplied⟩ | ⟨_, _, ⟨q, _, hOut⟩, hReplied⟩
    · rw [hOut, hReplied]
      simpa using hOld
    · rw [hOut, hReplied, List.length_append]
      simp only [List.length_singleton]
      omega
  case packets =>
    intro j q hq
    by_cases hji : j = i
    · subst hji
      dsimp only at hq
      rw [World.receive_down_self] at hq
      apply hInv.packets j
      rw [hDown]
      rcases List.mem_append.mp hq with hBefore | hAfter
      · exact List.mem_append_left _ hBefore
      · exact List.mem_append_right _
          (List.mem_cons_of_mem _ hAfter)
    · dsimp only at hq
      rw [World.receive_down_ne _ hji] at hq
      exact hInv.packets j q hq
  case once =>
    intro j
    dsimp only
    by_cases hji : j = i
    · subst hji
      rw [World.receive_down_self]
      exact hLess.trans hOnce
    · rw [World.receive_down_ne _ hji]
      exact hInv.once j
  case nodup =>
    dsimp only
    rcases hCases with ⟨_, hReplied⟩ | ⟨_, hNot, _, hReplied⟩
    · rw [hReplied]
      exact hInv.nodup
    · rw [hReplied, List.nodup_append]
      refine ⟨hInv.nodup, by simp, ?_⟩
      intro j hj k hk hEq
      cases List.mem_singleton.mp hk
      exact hNot (hEq ▸ hj)
  case received =>
    intro j hj
    dsimp only at hj ⊢
    by_cases hji : j = i
    · subst hji
      rw [World.receive_down_self]
      rcases hCases with ⟨_, hReplied⟩ | ⟨hZero, _⟩
      · rw [hReplied] at hj
        have := hInv.received j hj
        omega
      · exact hZero
    · rw [World.receive_down_ne _ hji]
      rcases hCases with ⟨_, hReplied⟩ | ⟨_, _, _, hReplied⟩
      · rw [hReplied] at hj
        exact hInv.received j hj
      · rw [hReplied] at hj
        rcases List.mem_append.mp hj with hOld | hNew
        · exact hInv.received j hOld
        · exact absurd (List.mem_singleton.mp hNew) hji
  case replies =>
    intro q hq
    dsimp only at hq
    rw [World.receive_up] at hq
    rcases List.mem_append.mp hq with hOld | hNew
    · exact hInv.replies q hOld
    · rcases hCases with
        ⟨hOut, _⟩ | ⟨_, _, ⟨q', hReply, hOut⟩, _⟩
      · rw [hOut] at hNew
        cases hNew
      · rw [hOut] at hNew
        rw [List.mem_singleton.mp hNew]
        exact hReply
  case finalQ => exact hInv.finalQ
  case history => exact hInv.history

/- The reader counts a reply. -/
theorem RoundInv.answer
    {o : Observed n}
    (hInv : o.RoundInv)
    {before after : List Packet}
    {p : Packet}
    (hUp : o.world.up = before ++ p :: after) :
    { o with
      world := o.world.answer p (before ++ after)
    }.RoundInv := by
  have hRest : ∀ q ∈ before ++ after, q ∈ o.world.up := by
    intro q hq
    rw [hUp]
    rcases List.mem_append.mp hq with hBefore | hAfter
    · exact List.mem_append_left _ hBefore
    · exact List.mem_append_right _
        (List.mem_cons_of_mem _ hAfter)
  have hReply : p.EstReply o.world.reader := by
    apply hInv.replies
    rw [hUp]
    simp
  rw [World.answer_eq (Reader.recv_estReply hReply)]
  constructor
  case operation => exact hInv.operation
  case service => exact hInv.service
  case colTimer => exact hInv.colTimer
  case estCounter => exact hInv.estCounter
  case estCounter_le => exact hInv.estCounter_le
  case idle => exact hInv.idle
  case success => exact hInv.success
  case collisions => exact hInv.collisions
  case count =>
    have hOld := hInv.count
    rw [hUp, List.length_append, List.length_cons] at hOld
    dsimp only
    rw [List.length_append]
    push_cast at hOld ⊢
    omega
  case packets =>
    intro i q hq
    have hOld := hInv.packets i q hq
    exact ⟨hOld.tipo, hOld.service, hOld.id, hOld.command⟩
  case once => exact hInv.once
  case nodup => exact hInv.nodup
  case received => exact hInv.received
  case replies =>
    intro q hq
    have hOld := hInv.replies q (hRest q hq)
    exact ⟨hOld.tipo, hOld.service, hOld.id, hOld.command⟩
  case finalQ => exact hInv.finalQ
  case history => exact hInv.history

/- What the reader counts when the slot ends. -/
theorem RoundInv.estCounted
    {o : Observed n}
    (hInv : o.RoundInv)
    (hUp : o.world.up = []) :
    o.world.reader.estCounted.idle =
        (sums 0 o.counts).count 0 ∧
      o.world.reader.estCounted.success =
        (sums 0 o.counts).count 1 ∧
      o.world.reader.estCounted.collisions =
        (sums 0 o.counts).countP (fun k => decide (2 ≤ k)) := by
  have hCounter : o.world.reader.counter =
      ((o.round.sum + o.world.replied.length : Nat) : Int) := by
    have hCount := hInv.count
    rw [hUp] at hCount
    push_cast
    simpa using hCount
  unfold counts Reader.estCounted
  rw [sums_append, zero_add, List.count_append,
    List.count_append, List.countP_append]
  dsimp only
  rw [hInv.idle, hInv.success, hInv.collisions, hCounter]
  generalize o.round.sum + o.world.replied.length = s
  simp only [List.count_singleton, List.countP_singleton]
  refine ⟨?_, ?_, ?_⟩
  · by_cases hs : s = 0
    · simp [hs]
    · simp [hs]
  · by_cases hs : s = 1
    · simp [hs]
    · have : ¬ (s : Int) = 1 := by omega
      simp [hs, this]
  · by_cases hs : 2 ≤ s
    · have : 1 < (s : Int) := by omega
      simp [hs, this]
    · have : ¬ 1 < (s : Int) := by omega
      simp [hs, this]

end Observed

end Rfid

end Ns2

------------------------------------------------------------
-- The End of a Slot
------------------------------------------------------------

namespace Ns2

namespace Rfid

namespace Observed

variable {n : Nat}

/- A round of clean slots says what its replies say. -/
theorem RoundInv.estVerdict_eq
    {o : Observed n}
    (hInv : o.RoundInv)
    (hUp : o.world.up = [])
    (hLast : (o.counts.length : Int) =
      o.world.reader.estConstant)
    (hClean : cleanRound o.counts = true) :
    o.world.reader.estCounted.estVerdict =
      roundVerdict o.counts := by
  rcases hInv.estCounted hUp with ⟨hIdle, _, hCollisions⟩
  rcases (counts_iff o.counts).mpr hClean with
    ⟨hZero, _, hMany⟩
  have hConstant : o.world.reader.estCounted.estConstant =
      o.counts.length := hLast.symm
  have hLower : o.world.reader.estCounted.idle =
      o.world.reader.estCounted.estConstant ↔
      o.counts.all (fun k => decide (k = 0)) = true := by
    rw [hIdle, hZero, hConstant, Int.natCast_inj,
      List.count_eq_length, List.all_eq_true]
    constructor
    · intro hAll k hk
      exact decide_eq_true (hAll k hk).symm
    · intro hAll k hk
      exact (of_decide_eq_true (hAll k hk)).symm
  have hRaise : o.world.reader.estCounted.collisions =
      o.world.reader.estCounted.estConstant ↔
      o.counts.all (fun k => decide (2 ≤ k)) = true := by
    rw [hCollisions, hMany, hConstant, Int.natCast_inj,
      List.countP_eq_length, List.all_eq_true]
  unfold Reader.estVerdict roundVerdict
  simp only [hLower, hRaise]

/- The state after the end of a slot that is not the last. -/
theorem RoundInv.of_slot
    {o o' : Observed n}
    (hInv : o.RoundInv)
    (hSame : o.world.reader.SameEstimation o'.world.reader)
    (hUp : o'.world.up = [])
    (hReplied : o'.world.replied = [])
    {replies : List Packet}
    (hReplies : replies = [] ∨
      ∃ r : Reader, replies = [r.send_query_reply] ∧
        r.id = o.world.reader.id ∧
        r.service = o.world.reader.service)
    (hDown : ∀ i, o'.world.down i =
      (replies ++ [o'.world.reader.send_query_estimate]).filter
        (·.reaches (o.world.tags i)))
    (hEst : o'.world.reader.estCounter =
      o'.round.length + 1)
    (hLe : o'.world.reader.estCounter ≤
      o'.world.reader.estConstant)
    (hIdle : o'.world.reader.idle =
      (sums 0 o'.round).count 0)
    (hSuccess : o'.world.reader.success =
      (sums 0 o'.round).count 1)
    (hCollisions : o'.world.reader.collisions =
      (sums 0 o'.round).countP (fun k => decide (2 ≤ k)))
    (hCount : o'.world.reader.counter = o'.round.sum)
    (hFinal : o'.world.reader.rebuttal ≠ 0 →
      o'.world.reader.finalQ = o'.world.reader.Qfp)
    (hHistory : 0 < o'.world.reader.c →
      o'.world.reader.c ≤ 11 → o'.clean = true →
      (o'.world.reader.rebuttal ≠ 0 ↔
        ∃ ks, o'.last = some (o'.world.reader.Qfp, ks) ∧
          roundVerdict ks = .keep)) :
    o'.RoundInv := by
  have hService := hSame.service.trans hInv.service
  have hPacket : ∀ p ∈
      replies ++ [o'.world.reader.send_query_estimate],
      p.InEstimation o'.world.reader := by
    intro p hp
    rcases List.mem_append.mp hp with hReply | hNew
    · rcases hReplies with rfl | ⟨r, rfl, hId, hOld⟩
      · cases hReply
      · rw [List.mem_singleton.mp hReply]
        exact ⟨rfl, hOld.trans hInv.service,
          hId.trans hSame.id.symm, Or.inr rfl⟩
    · rw [List.mem_singleton.mp hNew]
      exact ⟨rfl, hService, rfl, Or.inl rfl⟩
  constructor
  case operation =>
    rw [hSame.operation]
    exact hInv.operation
  case service => exact hService
  case colTimer => exact hSame.colTimer.trans hInv.colTimer
  case estCounter => exact hEst
  case estCounter_le => exact hLe
  case idle => exact hIdle
  case success => exact hSuccess
  case collisions => exact hCollisions
  case count =>
    rw [hCount, hUp, hReplied]
    simp
  case packets =>
    intro i p hp
    rw [hDown i] at hp
    exact hPacket p (List.mem_filter.mp hp).1
  case once =>
    intro i
    rw [hDown i]
    have hOne : (replies ++
        [o'.world.reader.send_query_estimate]).countP
          Packet.isEst = 1 := by
      rcases hReplies with rfl | ⟨r, rfl, _, _⟩
      · rfl
      · rfl
    rw [← hOne]
    exact List.Sublist.countP_le List.filter_sublist
  case nodup =>
    rw [hReplied]
    exact List.nodup_nil
  case received =>
    rw [hReplied]
    intro i hi
    cases hi
  case replies =>
    rw [hUp]
    intro p hp
    cases hp
  case finalQ => exact hFinal
  case history => exact hHistory

/- The last value is confirmed exactly by a kept round. -/
theorem RoundInv.history_of_decided
    {o : Observed n}
    (hInv : o.RoundInv)
    (hUp : o.world.up = [])
    (hLast : (o.counts.length : Int) =
      o.world.reader.estConstant)
    {r' : Reader}
    {v : Verdict}
    (hVerdict : o.world.reader.estCounted.estVerdict = v)
    (hKept : r'.rebuttal ≠ 0 ↔ v = .keep)
    (hQfp : r'.rebuttal ≠ 0 → r'.Qfp = o.world.reader.Qfp)
    (hClean : (o.clean && cleanRound o.counts) = true) :
    r'.rebuttal ≠ 0 ↔
      ∃ ks, some (o.world.reader.Qfp, o.counts) =
          some (r'.Qfp, ks) ∧ roundVerdict ks = .keep := by
  rw [Bool.and_eq_true] at hClean
  have hEq := hInv.estVerdict_eq hUp hLast hClean.2
  constructor
  · intro hRebuttal
    refine ⟨o.counts, ?_, ?_⟩
    · rw [hQfp hRebuttal]
    · rw [← hEq, hVerdict]
      exact hKept.mp hRebuttal
  · rintro ⟨ks, hSome, hKeep⟩
    simp only [Option.some.injEq, Prod.mk.injEq] at hSome
    rw [← hSome.2, ← hEq, hVerdict] at hKeep
    exact hKept.mpr hKeep

/- The replies of the reader before its broadcast. -/
theorem reply_cases
    {r r₀ : Reader}
    (hId : r₀.id = r.id)
    (hService : r₀.service = r.service) :
    (if r₀.counter = 1 then [r₀.send_query_reply] else []) =
        [] ∨
      ∃ r₁ : Reader,
        (if r₀.counter = 1 then [r₀.send_query_reply]
          else []) = [r₁.send_query_reply] ∧
        r₁.id = r.id ∧ r₁.service = r.service := by
  split_ifs
  · exact Or.inr ⟨r₀, rfl, hId, hService⟩
  · exact Or.inl rfl

/- The round goes on with its next slot. -/
theorem RoundInv.of_more
    {o : Observed n}
    (hInv : o.RoundInv)
    (hOld : o.world.up = [])
    (hMore : o.world.reader.estCounter ≠
      o.world.reader.estConstant)
    {r₀ : Reader}
    (hr₀ : r₀ = { o.world.reader with rsTimer := false })
    {w' : World n}
    (hReader : w'.reader = r₀.estCounted.estimateNext.1)
    (hUp : w'.up = [])
    (hReplied : w'.replied = [])
    (hDown : ∀ i, w'.down i =
      ((if r₀.counter = 1 then [r₀.send_query_reply]
          else []) ++ [w'.reader.send_query_estimate]).filter
        (·.reaches (o.world.tags i))) :
    (⟨w', o.counts, o.last, o.clean⟩ :
      Observed n).RoundInv := by
  rcases hInv.estCounted hOld with
    ⟨hIdle, hSuccess, hCollisions⟩
  have hEst := hInv.estCounter
  have hLe := hInv.estCounter_le
  have hCount := hInv.count
  subst hr₀
  have hReplies := @reply_cases o.world.reader
    { o.world.reader with rsTimer := false } rfl rfl
  apply hInv.of_slot _ hUp hReplied hReplies hDown
  case hEst =>
    rw [hReader]
    show o.world.reader.estCounter + 1 = _
    rw [hEst]
    simp [counts]
  case hLe =>
    rw [hReader]
    show o.world.reader.estCounter + 1 ≤
      o.world.reader.estConstant
    omega
  case hIdle =>
    rw [hReader]
    exact hIdle
  case hSuccess =>
    rw [hReader]
    exact hSuccess
  case hCollisions =>
    rw [hReader]
    exact hCollisions
  case hCount =>
    rw [hReader]
    show o.world.reader.counter = _
    rw [hOld] at hCount
    simpa [counts] using hCount
  case hFinal =>
    rw [hReader]
    exact hInv.finalQ
  case hHistory =>
    rw [hReader]
    exact hInv.history
  · rw [hReader]
    exact ⟨rfl, rfl, rfl, rfl, rfl, rfl⟩

/- A new round begins. -/
theorem RoundInv.of_restart
    {o : Observed n}
    (hInv : o.RoundInv)
    (hConstant : 1 ≤ o.world.reader.estConstant)
    {r₀ : Reader}
    (hr₀ : r₀ = { o.world.reader with rsTimer := false })
    {w' : World n}
    {q : Rat}
    (hRestart : r₀.estCounted.Restarted w'.reader q)
    (hUp : w'.up = [])
    (hReplied : w'.replied = [])
    (hDown : ∀ i, w'.down i =
      ((if r₀.counter = 1 then [r₀.send_query_reply]
          else []) ++ [w'.reader.send_query_estimate]).filter
        (·.reaches (o.world.tags i)))
    {last : Option (Rat × List Nat)}
    {clean : Bool}
    (hFinal : w'.reader.rebuttal ≠ 0 →
      w'.reader.finalQ = w'.reader.Qfp)
    (hHistory : 0 < o.world.reader.c →
      o.world.reader.c ≤ 11 → clean = true →
      (w'.reader.rebuttal ≠ 0 ↔
        ∃ ks, last = some (w'.reader.Qfp, ks) ∧
          roundVerdict ks = .keep)) :
    (⟨w', [], last, clean⟩ : Observed n).RoundInv := by
  subst hr₀
  have hReplies := @reply_cases o.world.reader
    { o.world.reader with rsTimer := false } rfl rfl
  have hSame : o.world.reader.SameEstimation w'.reader :=
    ⟨hRestart.same.id, hRestart.same.service,
      hRestart.same.operation, hRestart.same.colTimer,
      hRestart.same.c, hRestart.same.estConstant⟩
  apply hInv.of_slot hSame hUp hReplied hReplies hDown
  case hEst => exact hRestart.estCounter
  case hLe =>
    rw [hRestart.estCounter, hSame.estConstant]
    exact hConstant
  case hIdle => exact hRestart.idle
  case hSuccess => exact hRestart.success
  case hCollisions => exact hRestart.collisions
  case hCount => exact hRestart.counter
  case hFinal => exact hFinal
  case hHistory =>
    rw [hSame.c]
    exact hHistory

/- The decision at the end of a round. -/
theorem RoundInv.of_decided
    {o : Observed n}
    (hInv : o.RoundInv)
    (hOld : o.world.up = [])
    (hLast : o.world.reader.estCounter =
      o.world.reader.estConstant)
    (hRound : (o.counts.length : Int) =
      o.world.reader.estConstant)
    {r₀ : Reader}
    (hr₀ : r₀ = { o.world.reader with rsTimer := false })
    {w' : World n}
    {out : List Packet}
    (hDecided : r₀.estCounted.Decided w'.reader
      r₀.estCounted.estVerdict out)
    (hUp : w'.up = [])
    (hReplied : w'.replied = [])
    (hDown : ∀ i, w'.down i =
      ((if r₀.counter = 1 then [r₀.send_query_reply]
          else []) ++ out).filter
        (·.reaches (o.world.tags i))) :
    (⟨w', [], some (o.world.reader.Qfp, o.counts),
        o.clean && cleanRound o.counts⟩ :
      Observed n).RoundInv ∨ w'.reader.Finished := by
  have hConstant : 1 ≤ o.world.reader.estConstant := by
    rw [← hLast, hInv.estCounter]
    omega
  have hVerdict : r₀.estCounted.estVerdict =
      o.world.reader.estCounted.estVerdict := by
    subst hr₀
    rfl
  have hQfp : r₀.Qfp = o.world.reader.Qfp := by
    subst hr₀
    rfl
  rw [hVerdict] at hDecided
  generalize hv : o.world.reader.estCounted.estVerdict = v
    at hDecided
  cases hDecided with
  | move v hKeep hFirst hRestart hRebuttal =>
      apply Or.inl
      apply hInv.of_restart hConstant hr₀ hRestart hUp
        hReplied hDown
      · exact fun h => absurd hRebuttal h
      · intro _ _ hClean
        apply hInv.history_of_decided hOld hRound hv _ _ hClean
        · simp [hRebuttal, hKeep]
        · exact fun h => absurd hRebuttal h
  | again hFirst hRestart hFinal hRebuttal =>
      have hEq := hRestart.Qfp.trans hQfp
      apply Or.inl
      apply hInv.of_restart hConstant hr₀ hRestart hUp
        hReplied hDown
      · exact fun _ => hFinal.trans hRestart.Qfp.symm
      · intro _ _ hClean
        apply hInv.history_of_decided hOld hRound hv _ _ hClean
        · simp [hRebuttal]
        · exact fun _ => hEq
  | back v hSecond hMoved hRestart hRebuttal =>
      have hFinal : r₀.finalQ = r₀.Qfp := by
        subst hr₀
        exact hInv.finalQ hSecond
      apply Or.inl
      apply hInv.of_restart hConstant hr₀ hRestart hUp
        hReplied hDown
      · exact fun h => absurd hRebuttal h
      · intro _ _ hClean
        apply hInv.history_of_decided hOld hRound hv _ _ hClean
        · constructor
          · exact fun h => absurd hRebuttal h
          · rintro rfl
            exact absurd hFinal hMoved
        · exact fun h => absurd hRebuttal h
  | finish v r₁ hSecond hSame hMoved hCol hRs hNext =>
      apply Or.inr
      rw [hNext]
      rcases Reader.finish_start_phase r₁ IP_BROADCAST
          r₀.estCounted.estMethod with hFour | ⟨hR, hC⟩
      · exact Or.inl hFour
      · refine Or.inr ⟨?_, ?_⟩
        · rw [hR, hRs, hr₀]
          rfl
        · rw [hC, hCol, hr₀]
          exact hInv.colTimer

theorem RoundInv.length_counts
    {o : Observed n}
    (hInv : o.RoundInv) :
    (o.counts.length : Int) = o.world.reader.estCounter := by
  rw [hInv.estCounter]
  simp [counts]

/- The counts that decide do not exceed the round. -/
theorem RoundInv.estCounted_le
    {o : Observed n}
    (hInv : o.RoundInv)
    (hUp : o.world.up = []) :
    o.world.reader.estCounted.idle ≤
        o.world.reader.estConstant ∧
      o.world.reader.estCounted.collisions ≤
        o.world.reader.estConstant := by
  rcases hInv.estCounted hUp with ⟨hIdle, _, hCollisions⟩
  have hLength := length_eq_counts (sums 0 o.counts)
  have hCounts := hInv.length_counts
  have hLe := hInv.estCounter_le
  rw [length_sums] at hLength
  rw [hIdle, hCollisions]
  omega

/- The end of a slot of the estimation. -/
theorem RoundInv.expireRs
    {o : Observed n}
    (hInv : o.RoundInv)
    (eomlee : Int → Int → Int → Int)
    (hQuiet : o.world.Quiet) :
    (o.endSlot (o.world.expireRs eomlee)).RoundInv ∨
      (o.endSlot
        (o.world.expireRs eomlee)).world.reader.Finished := by
  have hDown : ∀ i, (o.world.expireRs eomlee).down i =
      (o.world.reader.expireRs eomlee).2.filter
        (·.reaches (o.world.tags i)) := by
    intro i
    simp only [World.expireRs, World.post, hQuiet.down i,
      List.nil_append]
  have hReader : (o.world.expireRs eomlee).reader =
      (o.world.reader.expireRs eomlee).1 := rfl
  have hUp : (o.world.expireRs eomlee).up = [] := hQuiet.up
  have hReplied : (o.world.expireRs eomlee).replied = [] := rfl
  have hLength := hInv.length_counts
  rcases hInv.estCounted_le hQuiet.up with ⟨hIdle, hCollisions⟩
  rw [Reader.expireRs_estimation hInv.operation,
    Reader.start_est_eq] at hDown hReader
  unfold endSlot
  by_cases hLast : o.world.reader.estCounter =
      o.world.reader.estConstant
  · have hRound := hLength.trans hLast
    have hNext : ({ o.world.reader with
        rsTimer := false } : Reader).estCounted.estNext =
        ({ o.world.reader with
          rsTimer := false } : Reader).estCounted.estDecide :=
      Reader.estNext_last hLast
    rw [if_pos hRound]
    rw [hNext] at hDown hReader
    have hDecided := @Reader.decided_estDecide
      ({ o.world.reader with
        rsTimer := false } : Reader).estCounted hIdle
      hCollisions
    rw [← hReader] at hDecided
    exact hInv.of_decided hQuiet.up hLast hRound rfl hDecided
      hUp hReplied hDown
  · have hNext : ({ o.world.reader with
        rsTimer := false } : Reader).estCounted.estNext =
        ({ o.world.reader with
          rsTimer := false } : Reader).estCounted.estimateNext :=
      Reader.estNext_more hLast
    have hShort : ¬ (o.counts.length : Int) =
        o.world.reader.estConstant :=
      fun h => hLast (hLength.symm.trans h)
    rw [if_neg hShort]
    rw [hNext] at hDown hReader
    apply Or.inl
    apply hInv.of_more hQuiet.up hLast rfl hReader hUp hReplied
    intro i
    rw [hDown i, hReader]
    rfl

end Observed

end Rfid

end Ns2

------------------------------------------------------------
-- Whole Sessions
------------------------------------------------------------

namespace Ns2

namespace Rfid

namespace Reader

theorem finish_start_no_est
    (r : Reader)
    (dest method : Int) :
    ∀ p ∈ (r.finish_start dest method).2,
      p.command ≠ .RC_EST := by
  intro p hp
  unfold finish_start at hp
  split_ifs at hp
  · rw [List.mem_singleton.mp hp]
    simp [finish, header]
  · rw [List.mem_singleton.mp hp]
    simp [query, header]
  · cases hp

theorem finish_start_Qfp
    (r : Reader)
    (dest method : Int) :
    (r.finish_start dest method).1.Qfp = r.Qfp := by
  unfold finish_start
  split_ifs <;> rfl

/-
  A decision by a round that moves the value at its first
  try, and goes back or finishes at the second one.
-/
theorem Decided.outcome
    {r r' : Reader}
    {v : Verdict}
    {out : List Packet}
    (hDecided : r.Decided r' v out)
    (hFinal : r.rebuttal ≠ 0 → r.finalQ = r.Qfp)
    (hc : 0 < r.c)
    (hc' : r.c ≤ 11) :
    r'.Qfp = (if r.rebuttal = 0 then r.movedQfp v
      else r.Qfp) ∧
    ((∀ p ∈ out, p.command ≠ .RC_EST) ↔
      v = .keep ∧ r.rebuttal ≠ 0) := by
  -- A value that moves is another one.
  have hMoves : r.movedQfp v = r.Qfp → v = .keep := by
    intro hEq
    cases v with
    | lower =>
        simp only [movedQfp] at hEq
        linarith
    | raise =>
        simp only [movedQfp] at hEq
        split_ifs at hEq
        · linarith
        · linarith
    | keep => rfl
  have hSends : ¬ ∀ p ∈ [r'.send_query_estimate],
      p.command ≠ .RC_EST :=
    fun h => h _ (List.mem_singleton_self _) rfl
  cases hDecided with
  | move v hKeep hFirst hRestart hRebuttal =>
      rw [if_pos hFirst]
      refine ⟨hRestart.Qfp, fun h => absurd h hSends, ?_⟩
      exact fun h => absurd h.1 hKeep
  | again hFirst hRestart hFinal hRebuttal =>
      rw [if_pos hFirst]
      refine ⟨hRestart.Qfp, fun h => absurd h hSends, ?_⟩
      exact fun h => absurd hFirst h.2
  | back v hSecond hMoved hRestart hRebuttal =>
      have hEq := hFinal hSecond
      rw [if_neg hSecond]
      refine ⟨hRestart.Qfp.trans hEq,
        fun h => absurd h hSends, ?_⟩
      rintro ⟨rfl, _⟩
      exact absurd hEq hMoved
  | finish v r₁ hSecond hSame hQfp hCol hRs hNext =>
      have hEq := hFinal hSecond
      rw [if_neg hSecond]
      refine ⟨?_, fun _ => ?_, fun _ => ?_⟩
      · rw [hNext, finish_start_Qfp, hQfp, ← hSame, hEq]
      · exact ⟨hMoves (hSame.symm.trans hEq), hSecond⟩
      · exact finish_start_no_est _ _ _

end Reader

namespace Observed

variable {n : Nat}

/- A session goes through its rounds, or has ended them. -/
def RoundPhase (o : Observed n) : Prop :=
  o.RoundInv ∨ o.world.reader.Finished

theorem RoundPhase.act
    {eomlee : Int → Int → Int → Int}
    {ordered : Packet → Bool}
    {o o' : Observed n}
    {a : Action n}
    (hPhase : o.RoundPhase)
    (hAct : o.act eomlee ordered a = some o') :
    o'.RoundPhase := by
  rcases Option.map_eq_some_iff.mp hAct with ⟨w, hw, hEq⟩
  rcases hPhase with hInv | hFinished
  · have hStep := World.step_of_act hw
    cases a with
    | expireRs =>
        simp only [World.act, Option.ite_none_right_eq_some,
          Option.some.injEq] at hw
        rcases hw with ⟨⟨_, hQuiet⟩, rfl⟩
        rw [← hEq]
        exact hInv.expireRs eomlee
          ((World.quiet_iff o.world).mp hQuiet)
    | expireCol =>
        simp only [World.act, Option.ite_none_right_eq_some,
          Option.some.injEq] at hw
        rcases hw with ⟨⟨hPending, _⟩, _⟩
        rw [hInv.colTimer] at hPending
        cases hPending
    | receive i k u =>
        simp only [World.act, Option.bind_eq_some_iff,
          Option.ite_none_right_eq_some,
          Option.some.injEq] at hw
        rcases hw with ⟨p, hGet, _, rfl⟩
        rcases World.split_at_index hGet with ⟨hDown, hErase⟩
        rw [hErase] at hEq
        rw [← hEq]
        exact Or.inl (hInv.receive hDown u)
    | answer k =>
        simp only [World.act, Option.map_eq_some_iff] at hw
        rcases hw with ⟨p, hGet, rfl⟩
        rcases World.split_at_index hGet with ⟨hUp, hErase⟩
        rw [hErase] at hEq
        rw [← hEq]
        exact Or.inl (hInv.answer hUp)
  · have hNext := (World.finished_act hFinished hw).2
    apply Or.inr
    cases a with
    | expireRs =>
        rw [← hEq]
        unfold endSlot
        dsimp only
        split_ifs
        · exact hNext
        · exact hNext
    | expireCol =>
        rw [← hEq]
        exact hNext
    | receive i k u =>
        rw [← hEq]
        exact hNext
    | answer k =>
        rw [← hEq]
        exact hNext

/- The start command broadcasts one query. -/
theorem RoundInv.start
    {r : Reader}
    {tags : Fin n → Tag}
    {next : Reader × List Packet}
    (hStart : next = r.standard_with_estimation ∨
      next = r.estimation_dfsa_query)
    (hService : r.service = .ebtsa)
    (hCounter : r.counter = 0)
    (hConstant : 1 ≤ r.estConstant)
    (hTimer : r.colTimer = false) :
    (Observed.start next tags).RoundInv := by
  have hOut : next.2 = [next.1.send_query_estimate] := by
    rcases hStart with rfl | rfl
    · rfl
    · rfl
  have hEbtsa : next.1.service = .ebtsa := by
    rcases hStart with rfl | rfl
    · exact hService
    · exact hService
  have hDown : ∀ i, (Observed.start next tags).world.down i =
      [next.1.send_query_estimate].filter
        (·.reaches (tags i)) := by
    intro i
    rw [← hOut]
    rfl
  constructor
  case operation =>
    rcases hStart with rfl | rfl
    · exact Or.inl rfl
    · exact Or.inr rfl
  case service => exact hEbtsa
  case colTimer =>
    rcases hStart with rfl | rfl
    · exact hTimer
    · exact hTimer
  case estCounter =>
    rcases hStart with rfl | rfl
    · rfl
    · rfl
  case estCounter_le =>
    rcases hStart with rfl | rfl
    · exact hConstant
    · exact hConstant
  case idle =>
    rcases hStart with rfl | rfl
    · rfl
    · rfl
  case success =>
    rcases hStart with rfl | rfl
    · rfl
    · rfl
  case collisions =>
    rcases hStart with rfl | rfl
    · rfl
    · rfl
  case count =>
    have hZero : next.1.counter = 0 := by
      rcases hStart with rfl | rfl
      · exact hCounter
      · exact hCounter
    show next.1.counter + 0 = 0
    rw [hZero]
    rfl
  case packets =>
    intro i p hp
    rw [hDown] at hp
    rw [List.mem_singleton.mp (List.mem_filter.mp hp).1]
    exact ⟨rfl, hEbtsa, rfl, Or.inl rfl⟩
  case once =>
    intro i
    rw [hDown]
    apply Nat.le_trans List.countP_le_length
    exact List.length_filter_le _ _
  case nodup => exact List.nodup_nil
  case received =>
    intro i hi
    cases hi
  case replies =>
    intro p hp
    cases hp
  case finalQ =>
    rcases hStart with rfl | rfl
    · exact fun h => absurd rfl h
    · exact fun h => absurd rfl h
  case history =>
    intro _ _ _
    constructor
    · rcases hStart with rfl | rfl
      · exact fun h => absurd rfl h
      · exact fun h => absurd rfl h
    · rintro ⟨ks, hNone, _⟩
      cases hNone

end Observed

end Rfid

end Ns2
