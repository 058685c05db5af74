import Ns2.Tcp.Acker.Correctness
import Ns2.Tcp.Sacker.Operations

/-
  Correctness of the selective acknowledgements.

  Every block of the history is a maximal run of the numbers
  received when it was recorded, and lies above the
  cumulative acknowledgement.  A packet whose number is new
  walks the whole history or loses what it did not walk, so
  the blocks that stay are still maximal and distinct.  Only
  a duplicate that takes up room in the option can leave the
  block it repeats in the history.

  Main declarations:
    * `Sacker.IsRun`, `Sacker.Good`, `Sacker.Current`
    * `Sacker.walkHistory_spec`
    * `Sacker.recv_spec`
    * `Sacker.sack_blocks_correct`
-/

------------------------------------------------------------
-- Runs of Numbers
------------------------------------------------------------

namespace Ns2

namespace Sacker

/- A maximal run of the numbers received. -/
structure IsRun
    (received : List Nat)
    (b : SackBlock) : Prop where
  nonneg : 0 ≤ b.left
  nonempty : b.left < b.right
  inside : ∀ i : Nat, b.left ≤ i → i < b.right →
    i ∈ received
  left_end : ∀ i : Nat, (i : Int) = b.left - 1 →
    i ∉ received
  right_end : ∀ i : Nat, (i : Int) = b.right →
    i ∉ received

/- Two blocks without a common number. -/
def Apart (b c : SackBlock) : Prop :=
  b.right ≤ c.left ∨ c.right ≤ b.left

theorem IsRun.congr
    {received received' : List Nat}
    {b : SackBlock}
    (hb : IsRun received b)
    (hSame : ∀ i, i ∈ received ↔ i ∈ received') :
    IsRun received' b := by
  constructor
  case nonneg => exact hb.nonneg
  case nonempty => exact hb.nonempty
  case inside =>
    intro i hi hi'
    exact (hSame i).mp (hb.inside i hi hi')
  case left_end =>
    intro i hi hMem
    exact hb.left_end i hi ((hSame i).mpr hMem)
  case right_end =>
    intro i hi hMem
    exact hb.right_end i hi ((hSame i).mpr hMem)

/- Maximal runs with a common number are equal. -/
theorem IsRun.eq_of_common
    {received : List Nat}
    {b c : SackBlock}
    (hb : IsRun received b)
    (hc : IsRun received c)
    (hLeft : c.left < b.right)
    (hRight : b.left < c.right) :
    b = c := by
  have := hb.nonneg
  have := hc.nonneg
  -- The outer end of one run would extend the other.
  have hNoLeft : ∀ {x y : SackBlock}, IsRun received x →
      IsRun received y → y.left ≤ x.right →
        ¬ x.left < y.left := by
    intro x y hx hy hLe hLt
    have := hx.nonneg
    refine hy.left_end (y.left - 1).toNat (by omega) ?_
    exact hx.inside _ (by omega) (by omega)
  have hNoRight : ∀ {x y : SackBlock}, IsRun received x →
      IsRun received y → y.left ≤ x.right →
        ¬ x.right < y.right := by
    intro x y hx hy hLe hLt
    have := hx.nonneg
    have := hx.nonempty
    refine hx.right_end x.right.toNat (by omega) ?_
    exact hy.inside _ (by omega) (by omega)
  have hLeftEq : b.left = c.left := by
    have := hNoLeft hb hc hLeft.le
    have := hNoLeft hc hb hRight.le
    omega
  have hRightEq : b.right = c.right := by
    have := hNoRight hb hc hLeft.le
    have := hNoRight hc hb hRight.le
    omega
  cases b
  cases c
  simp_all

/- Different maximal runs are apart. -/
theorem IsRun.apart
    {received : List Nat}
    {b c : SackBlock}
    (hb : IsRun received b)
    (hc : IsRun received c)
    (hNe : b ≠ c) :
    Apart b c := by
  by_contra hNot
  unfold Apart at hNot
  push Not at hNot
  exact hNe (hb.eq_of_common hc hNot.1 hNot.2)

end Sacker

end Ns2

------------------------------------------------------------
-- Searching for Holes
------------------------------------------------------------

namespace Ns2

namespace Sacker

variable {a : Acker}

theorem holeRight_spec
    {i : Nat}
    (hi : i ≤ a.maxseen + 1) :
    i ≤ holeRight a i ∧
      holeRight a i ≤ a.maxseen + 1 ∧
      (holeRight a i ≤ a.maxseen →
        RingBuffer.read a.wndmask a.seen
          (holeRight a i) = 0) ∧
      ∀ j, i ≤ j → j < holeRight a i →
        RingBuffer.read a.wndmask a.seen j ≠ 0 := by
  induction i using holeRight.induct a with
  | case1 i hPast =>
      rw [holeRight.eq_def, if_pos hPast]
      have hEq : i = a.maxseen + 1 := by omega
      refine ⟨hi, le_rfl, by omega, ?_⟩
      intro j hj hj'
      omega
  | case2 i hIn hHole =>
      rw [holeRight.eq_def, if_neg hIn, if_pos hHole]
      refine ⟨le_rfl, hi, fun _ => hHole, ?_⟩
      intro j hj hj'
      omega
  | case3 i hIn hFull ih =>
      rw [holeRight.eq_def, if_neg hIn, if_neg hFull]
      rcases ih (by omega) with ⟨hGe, hLe, hHole, hRest⟩
      refine ⟨by omega, hLe, hHole, ?_⟩
      intro j hj hj'
      rcases Nat.eq_or_lt_of_le hj with rfl | hLt
      · exact hFull
      · exact hRest j hLt hj'

theorem holeLeft_spec
    {i hole : Nat}
    (hLow : a.next ≤ hole)
    (hHigh : hole < i)
    (hEmpty : RingBuffer.read a.wndmask a.seen hole = 0) :
    ∃ j : Nat, holeLeft a i = (j : Int) + 1 ∧
      hole ≤ j ∧ j < i ∧
      RingBuffer.read a.wndmask a.seen j = 0 ∧
      ∀ k : Nat, j < k → k < i →
        RingBuffer.read a.wndmask a.seen k ≠ 0 := by
  induction i with
  | zero => omega
  | succ i ih =>
      unfold holeLeft
      rw [if_neg (by omega)]
      by_cases hHole :
          RingBuffer.read a.wndmask a.seen i = 0
      · rw [if_pos hHole]
        refine ⟨i, rfl, by omega, by omega, hHole, ?_⟩
        intro k hk hk'
        omega
      · rw [if_neg hHole]
        have hNe : hole ≠ i := by
          rintro rfl
          exact hHole hEmpty
        rcases ih (by omega) with
          ⟨j, hEq, hGe, hLt, hAt, hRest⟩
        refine ⟨j, hEq, hGe, by omega, hAt, ?_⟩
        intro k hk hk'
        rcases Nat.eq_or_lt_of_le (Nat.le_of_lt_succ hk')
          with rfl | hLt'
        · exact hHole
        · exact hRest k hk hLt'

/-
  The first block is the maximal run around a number above
  the cumulative acknowledgement.
-/
theorem first_block_spec
    {history : List (Nat × Int)}
    (hReceived : Acker.Received history a)
    (hPositive : Acker.Positive history)
    {seq : Nat}
    (hAbove : a.next ≤ seq)
    (hIn : seq ∈ Acker.numbers history) :
    IsRun (Acker.numbers history)
        ⟨holeLeft a (holeRight a seq), holeRight a seq⟩ ∧
      (a.next : Int) < holeLeft a (holeRight a seq) ∧
      holeLeft a (holeRight a seq) ≤ seq ∧
      seq < holeRight a seq := by
  have hSlot := fun {i} =>
    @Acker.Received.slot_ne_zero_iff _ _ hReceived hPositive i
  have hMax := hReceived.le_maxseen seq hIn
  rcases @holeRight_spec a seq (by omega) with
    ⟨hGe, hLe, hHole, hFull⟩
  generalize holeRight a seq = right at *
  have hNext := hReceived.next_new
  have hNe : a.next ≠ seq := by
    intro hEq
    exact hNext (hEq ▸ hIn)
  have hOut : right ∉ Acker.numbers history := by
    intro hMem
    have hTop := hReceived.le_maxseen right hMem
    exact (hSlot (by omega) hLe).mpr hMem (hHole hTop)
  have hLt : seq < right := by
    rcases Nat.eq_or_lt_of_le hGe with hEq | hLt
    · exact absurd (hEq ▸ hIn) hOut
    · exact hLt
  have hEmpty :
      RingBuffer.read a.wndmask a.seen a.next = 0 := by
    by_contra hNot
    exact hNext ((hSlot le_rfl (by omega)).mp hNot)
  rcases @holeLeft_spec a right a.next le_rfl (by omega)
      hEmpty with
    ⟨j, hEq, hGe', hLt', hAt, hRest⟩
  have hGap : j ∉ Acker.numbers history := by
    intro hMem
    exact (hSlot hGe' (by omega)).mpr hMem hAt
  have hjSeq : j < seq := by
    by_contra hNot
    rcases Nat.eq_or_lt_of_le (not_lt.mp hNot) with rfl | hGt
    · exact hGap hIn
    · exact hFull j hGt.le hLt' hAt
  rw [hEq]
  refine ⟨⟨?_, ?_, ?_, ?_, ?_⟩, by omega, by omega, hLt⟩
  · exact Int.natCast_nonneg (j + 1)
  · change (j : Int) + 1 < right
    omega
  · intro i hi hi'
    have hi : (j : Int) + 1 ≤ i := hi
    have hi' : (i : Int) < right := hi'
    exact (hSlot (by omega) (by omega)).mp
      (hRest i (by omega) (by omega))
  · intro i hi
    have hi : (i : Int) = j + 1 - 1 := hi
    have hEq : i = j := by omega
    exact hEq ▸ hGap
  · intro i hi
    have hi : (i : Int) = right := hi
    have hEq : i = right := by omega
    exact hEq ▸ hOut

end Sacker

end Ns2

------------------------------------------------------------
-- Walking the History
------------------------------------------------------------

namespace Ns2

namespace Sacker

variable {a : Acker}

/- What a walk of the history does with its two parts. -/
structure Walked
    (recent : SackBlock)
    (room : Nat)
    (history front rest reported left : List SackBlock) :
    Prop where
  split : history = front ++ rest
  reported_eq :
    reported = front.filter (fun b => decide ¬ covers recent b)
  left_eq : left = reported ++ rest
  room_le : reported.length ≤ room
  full : rest ≠ [] → reported.length = room

/-
  The walk passes a front part of the history, pops what is
  covered up in it and reports what is not.
-/
theorem walkHistory_spec
    (recent : SackBlock)
    (room : Nat)
    (history : List SackBlock)
    (hKnown : ∀ b ∈ history, 0 ≤ b.left ∧ 0 ≤ b.right ∧
      b.right ≤ (a.maxseen : Int) + 1) :
    ∃ front rest, Walked recent room history front rest
      (walkHistory a recent room history).1
      (walkHistory a recent room history).2 := by
  induction history generalizing room with
  | nil =>
      exact ⟨[], [], rfl, rfl, rfl, Nat.zero_le _, by simp⟩
  | cons b history ih =>
      have hHere := hKnown b (by simp)
      have hRest := fun c hc =>
        hKnown c (List.mem_cons_of_mem b hc)
      have hValid : ¬ (b.left < 0 ∨ b.right < 0 ∨
          (a.maxseen : Int) + 1 < b.right) := by
        omega
      unfold walkHistory
      by_cases hRoom : room = 0
      · subst hRoom
        refine ⟨[], b :: history, rfl, rfl, rfl, le_rfl, ?_⟩
        exact fun _ => rfl
      · rw [if_neg hRoom, if_neg hValid]
        by_cases hCovers : covers recent b
        · rw [if_pos hCovers]
          rcases ih room hRest with ⟨front, rest, hWalked⟩
          refine ⟨b :: front, rest, ?_, ?_,
            hWalked.left_eq, hWalked.room_le, hWalked.full⟩
          · rw [hWalked.split, List.cons_append]
          · rw [List.filter_cons_of_neg (by simpa)]
            exact hWalked.reported_eq
        · rw [if_neg hCovers]
          simp only
          rcases ih (room - 1) hRest with
            ⟨front, rest, hWalked⟩
          have hLe := hWalked.room_le
          refine ⟨b :: front, rest, ?_, ?_, ?_, ?_, ?_⟩
          · rw [hWalked.split, List.cons_append]
          · rw [List.filter_cons_of_pos (by simpa),
              hWalked.reported_eq]
          · rw [hWalked.left_eq, List.cons_append]
          · rw [List.length_cons]
            omega
          · intro hNe
            have := hWalked.full hNe
            rw [List.length_cons]
            omega

variable {recent : SackBlock} {room : Nat}
variable {history front rest reported left :
  List SackBlock}

theorem Walked.reported_sublist
    (hWalked : Walked recent room history front rest
      reported left) :
    reported.Sublist front := by
  rw [hWalked.reported_eq]
  exact List.filter_sublist

theorem Walked.left_sublist
    (hWalked : Walked recent room history front rest
      reported left) :
    left.Sublist history := by
  rw [hWalked.left_eq, hWalked.split]
  exact hWalked.reported_sublist.append_right rest

theorem Walked.not_covers
    (hWalked : Walked recent room history front rest
      reported left)
    {b : SackBlock}
    (hb : b ∈ reported) :
    ¬ covers recent b := by
  rw [hWalked.reported_eq] at hb
  simpa using (List.mem_filter.mp hb).2

/- With room for the whole history nothing is left over. -/
theorem Walked.rest_eq_nil
    (hWalked : Walked recent room history front rest
      reported left)
    (hRoom : history.length ≤ room) :
    rest = [] := by
  by_contra hNe
  have hFull := hWalked.full hNe
  have hLength := hWalked.reported_sublist.length_le
  have hPos := List.length_pos_of_ne_nil hNe
  rw [hWalked.split, List.length_append] at hRoom
  omega

/- What is left within the room was reported. -/
theorem Walked.mem_reported_of_take
    (hWalked : Walked recent room history front rest
      reported left)
    {b : SackBlock}
    (hb : b ∈ left.take room) :
    b ∈ reported := by
  rw [hWalked.left_eq, List.take_append] at hb
  rcases List.mem_append.mp hb with hIn | hIn
  · exact List.mem_of_mem_take hIn
  · have hRest : rest ≠ [] := by
      rintro rfl
      rw [List.take_nil] at hIn
      cases hIn
    rw [hWalked.full hRest, Nat.sub_self] at hIn
    cases hIn

/- When nothing is covered up the history stays as it is. -/
theorem Walked.left_eq_history
    (hWalked : Walked recent room history front rest
      reported left)
    (hNone : ∀ b ∈ front, ¬ covers recent b) :
    left = history ∧ reported = front := by
  have hAll : reported = front := by
    rw [hWalked.reported_eq]
    refine List.filter_eq_self.mpr ?_
    intro b hb
    simpa using hNone b hb
  exact ⟨by rw [hWalked.left_eq, hAll, hWalked.split], hAll⟩

/-
  A block that is covered up and still there stands right
  behind the blocks reported.
-/
theorem Walked.getElem?_room
    (hWalked : Walked recent room history front rest
      reported left)
    (hNodup : history.Nodup)
    {b : SackBlock}
    {rest' : List SackBlock}
    (hRest : rest = b :: rest')
    (hOnly : ∀ c ∈ history, covers recent c → c = b) :
    history[room]? = some b := by
  have hNone : ∀ c ∈ front, ¬ covers recent c := by
    intro c hc hCovers
    have hEq := hOnly c (by simp [hWalked.split, hc])
      hCovers
    rw [hWalked.split] at hNodup
    exact (List.nodup_append.mp hNodup).2.2
      c hc c (by simp [hRest, hEq]) rfl
  have hLength : front.length = room := by
    rw [← (hWalked.left_eq_history hNone).2]
    exact hWalked.full (by simp [hRest])
  rw [hWalked.split, hRest, ← hLength]
  simp

end Sacker

end Ns2

------------------------------------------------------------
-- The History
------------------------------------------------------------

namespace Ns2

namespace Sacker

/-
  A block recorded when one of its numbers arrived: it was a
  maximal run of the numbers received by then.
-/
def Recorded
    (history : List (Nat × Int))
    (b : SackBlock) : Prop :=
  ∃ c older, (c :: older) <:+ history ∧
    IsRun (Acker.numbers (c :: older)) b ∧
    b.left ≤ c.1 ∧ c.1 < b.right

/- What holds of the sink after the packets of a history. -/
structure Good
    (history : List (Nat × Int))
    (s : Sacker) : Prop where
  received : Acker.Received history s.acker
  positive : Acker.Positive history
  size_eq : s.sf.size = s.baseNblocks
  base_pos : 0 < s.baseNblocks
  length_le : s.sf.entries.length ≤ s.baseNblocks
  entries_recorded : ∀ b ∈ s.sf.entries, Recorded history b
  above : ∀ b ∈ s.sf.entries, (s.acker.next : Int) < b.left

/- The blocks of the history are runs still, and distinct. -/
structure Current
    (history : List (Nat × Int))
    (s : Sacker) : Prop where
  runs : ∀ b ∈ s.sf.entries, IsRun (Acker.numbers history) b
  nodup : s.sf.entries.Nodup

/-
  The walk of a duplicate's history ends right before the
  block that holds its number: the duplicate's own block of
  the option takes up the room for it.
-/
def Slip
    (s : Sacker)
    (seq : Nat) : Prop :=
  s.dsacks = true ∧ 2 ≤ s.baseNblocks ∧
    ∃ b, s.sf.entries[s.baseNblocks - 2]? = some b ∧
      b.left ≤ seq ∧ seq < b.right

/- No packet of the run slips. -/
def Clean
    (s : Sacker) : List (Nat × Int) → Prop
| [] => True
| c :: calls => ¬ s.Slip c.1 ∧
    ∀ r, s.recv c = some r → Clean r.2 calls

variable {history : List (Nat × Int)} {b : SackBlock}

theorem Recorded.mono
    (hRecorded : Recorded history b)
    (c : Nat × Int) :
    Recorded (c :: history) b := by
  rcases hRecorded with ⟨d, older, hSuffix, hRun, hSeq⟩
  exact ⟨d, older, hSuffix.trans (List.suffix_cons c history),
    hRun, hSeq⟩

theorem Recorded.nonempty
    (hRecorded : Recorded history b) :
    0 ≤ b.left ∧ b.left < b.right := by
  rcases hRecorded with ⟨d, older, _, hRun, _⟩
  exact ⟨hRun.nonneg, hRun.nonempty⟩

theorem Recorded.inside
    (hRecorded : Recorded history b)
    {i : Nat}
    (hLeft : b.left ≤ i)
    (hRight : i < b.right) :
    i ∈ Acker.numbers history := by
  rcases hRecorded with ⟨d, older, hSuffix, hRun, _⟩
  exact (hSuffix.map Prod.fst).subset
    (hRun.inside i hLeft hRight)

/- A recorded block ends at the right edge at the latest. -/
theorem Recorded.right_le
    (hRecorded : Recorded history b)
    {a : Acker}
    (hReceived : Acker.Received history a) :
    b.right ≤ (a.maxseen : Int) + 1 := by
  have hNonempty := hRecorded.nonempty
  have hLast := @Recorded.inside _ _ hRecorded
    (b.right - 1).toNat (by omega) (by omega)
  have := hReceived.le_maxseen _ hLast
  omega

/- Received numbers are on one side of a missing number. -/
theorem Recorded.above_or_below
    (hRecorded : Recorded history b)
    {n : Nat}
    (hNew : n ∉ Acker.numbers history) :
    b.right ≤ n ∨ n < b.left := by
  by_contra hNot
  push Not at hNot
  exact hNew (hRecorded.inside hNot.2 hNot.1)

/- A run stays one when its ends stay free. -/
theorem IsRun.cons
    {c : Nat × Int}
    (hRun : IsRun (Acker.numbers history) b)
    (hLeft : (c.1 : Int) ≠ b.left - 1)
    (hRight : (c.1 : Int) ≠ b.right) :
    IsRun (Acker.numbers (c :: history)) b := by
  constructor
  case nonneg => exact hRun.nonneg
  case nonempty => exact hRun.nonempty
  case inside =>
    intro i hi hi'
    exact List.mem_cons_of_mem _ (hRun.inside i hi hi')
  case left_end =>
    intro i hi hMem
    rcases List.mem_cons.mp hMem with rfl | hMem
    · exact hLeft hi
    · exact hRun.left_end i hi hMem
  case right_end =>
    intro i hi hMem
    rcases List.mem_cons.mp hMem with rfl | hMem
    · exact hRight hi
    · exact hRun.right_end i hi hMem

/- A duplicate does not change what a run is. -/
theorem IsRun.cons_dup
    {c : Nat × Int}
    (hRun : IsRun (Acker.numbers history) b)
    (hDup : c.1 ∈ Acker.numbers history) :
    IsRun (Acker.numbers (c :: history)) b := by
  apply hRun.cons
  · intro hEq
    exact hRun.left_end _ hEq hDup
  · intro hEq
    exact hRun.right_end _ hEq hDup

/-
  A run that the block of the newest packet does not cover
  up is a run with the packet, too.
-/
theorem IsRun.cons_of_not_covers
    {c : Nat × Int}
    {recent : SackBlock}
    (hRun : IsRun (Acker.numbers history) b)
    (hRecent : IsRun (Acker.numbers (c :: history)) recent)
    (hLeft : recent.left ≤ c.1)
    (hRight : c.1 < recent.right)
    (hNot : ¬ covers recent b) :
    IsRun (Acker.numbers (c :: history)) b := by
  have := hRun.nonneg
  have := hRun.nonempty
  have := hRecent.nonneg
  have hInside : ∀ i : Nat, b.left ≤ i → i < b.right →
      i ∈ Acker.numbers (c :: history) := by
    intro i hi hi'
    exact List.mem_cons_of_mem _ (hRun.inside i hi hi')
  -- The newest block does not end inside the run.
  have hNoRight : ¬ (b.left ≤ recent.right ∧
      recent.right < b.right) := by
    rintro ⟨hGe, hLt⟩
    apply hRecent.right_end recent.right.toNat (by omega)
    exact hInside _ (by omega) (by omega)
  have hNoLeft : ¬ (b.left < recent.left ∧
      recent.left ≤ b.right) := by
    rintro ⟨hGt, hLe⟩
    apply hRecent.left_end (recent.left - 1).toNat (by omega)
    exact hInside _ (by omega) (by omega)
  apply hRun.cons
  · intro hEq
    apply hNot
    constructor <;> omega
  · intro hEq
    apply hNot
    constructor <;> omega

end Sacker

end Ns2

------------------------------------------------------------
-- Answering a Packet
------------------------------------------------------------

namespace Ns2

theorem SackStack.push_entries
    (sf : SackStack)
    (b : SackBlock) :
    (sf.push b).entries = b :: sf.entries.take (sf.size - 1) := by
  unfold SackStack.push
  by_cases hFull : sf.size ≤ sf.entries.length
  · simp only [if_pos hFull]
  · simp only [if_neg hFull]
    rw [List.take_of_length_le]
    omega

namespace Sacker

/- The sink when a packet is recorded and not answered yet. -/
structure Arrived
    (history : List (Nat × Int))
    (c : Nat × Int)
    (s : Sacker) : Prop where
  received : Acker.Received (c :: history) s.acker
  positive : Acker.Positive (c :: history)
  size_eq : s.sf.size = s.baseNblocks
  base_pos : 0 < s.baseNblocks
  length_le : s.sf.entries.length ≤ s.baseNblocks
  entries_recorded : ∀ b ∈ s.sf.entries, Recorded history b
  dup_iff : s.acker.isDup = true ↔
    c.1 ∈ Acker.numbers history
  above : s.acker.isDup = true ∨ s.acker.next ≤ c.1 →
    ∀ b ∈ s.sf.entries, (s.acker.next : Int) < b.left
  filled : s.acker.isDup = false → ∀ j, c.1 ≤ j →
    j < s.acker.next →
      RingBuffer.read s.acker.wndmask s.acker.seen j ≠ 0

/- The acknowledgement of a packet and the sink after it. -/
structure Answered
    (history : List (Nat × Int))
    (c : Nat × Int)
    (s : Sacker)
    (option : SackOption)
    (s' : Sacker) : Prop where
  good : Good (c :: history) s'
  base_eq : s'.baseNblocks = s.baseNblocks
  dsacks_eq : s'.dsacks = s.dsacks
  acker_eq : s'.acker = s.acker
  dsack_eq : option.dsack = [] ∨
    s.dsacks = true ∧ s.acker.isDup = true ∧
      option.dsack = [⟨c.1, c.1 + 1⟩]
  count_le :
    option.dsack.length + option.blocks.length ≤ s.baseNblocks
  blocks_recorded : ∀ b ∈ option.blocks,
    Recorded (c :: history) b ∧ (s.acker.next : Int) < b.left
  first : s.acker.next < c.1 →
    ¬ (s.baseNblocks = 1 ∧ s.dsacks = true ∧
      s.acker.isDup = true) →
        ∃ b rest, option.blocks = b :: rest ∧
          IsRun (Acker.numbers (c :: history)) b ∧
          b.left ≤ c.1 ∧ c.1 < b.right
  apart : Current history s → option.blocks.Pairwise Apart
  current : Current history s → ¬ s.Slip c.1 →
    Current (c :: history) s'

variable {history : List (Nat × Int)} {c : Nat × Int}
variable {s : Sacker}

/- Recording a packet. -/
theorem Good.update
    (hGood : Good history s)
    (hBytes : 0 < c.2) :
    ∃ bytes a, s.acker.update c.1 c.2 = some (bytes, a) ∧
      Arrived history c { s with acker := a } := by
  rcases Acker.update_spec hGood.received hGood.positive c.1
      hBytes with ⟨a, hCall, hReceived, hWide, hGe, hDup⟩
  have hPositive : Acker.Positive (c :: history) := by
    intro d hd
    rcases List.mem_cons.mp hd with rfl | hd
    · exact hBytes
    · exact hGood.positive d hd
  refine ⟨_, a, hCall, ?_⟩
  constructor
  case received => exact hReceived
  case positive => exact hPositive
  case size_eq => exact hGood.size_eq
  case base_pos => exact hGood.base_pos
  case length_le => exact hGood.length_le
  case entries_recorded => exact hGood.entries_recorded
  case dup_iff => exact hDup
  case above =>
    intro hCase b hb
    -- Only the missing number moves the left edge.
    have hSame : a.next = s.acker.next := by
      by_contra hNe
      have hIn := hReceived.below s.acker.next (by omega)
      rcases List.mem_cons.mp hIn with hEq | hIn
      · rcases hCase with hIsDup | hLe
        · apply hGood.received.next_new
          rw [hEq]
          exact hDup.mp hIsDup
        · have hLe : a.next ≤ c.1 := hLe
          have hEq : s.acker.next = c.1 := hEq
          omega
      · exact hGood.received.next_new hIn
    have hAbove := hGood.above b hb
    change (a.next : Int) < b.left
    omega
  case filled =>
    intro hNew j hj hj'
    have hNew : ¬ a.isDup = true := by simpa using hNew
    have hj' : j < a.next := hj'
    have hNotIn := fun hIn => hNew (hDup.mpr hIn)
    have hLow : s.acker.next ≤ c.1 := by
      by_contra hLt
      exact hNotIn (hGood.received.below _ (by omega))
    have hNext := hReceived.next_le
    have hSlot := hWide.slots j (hLow.trans hj)
      (by change j ≤ a.maxseen + 1; omega)
    change RingBuffer.read a.wndmask a.seen j ≠ 0
    change RingBuffer.read a.wndmask a.seen j = _ at hSlot
    rw [hSlot]
    exact (Acker.recorded_ne_zero_iff hPositive j).mpr
      (hReceived.below j hj')

/- The walk finds a block for every entry of the history. -/
theorem Arrived.known
    (hArrived : Arrived history c s) :
    ∀ b ∈ s.sf.entries, 0 ≤ b.left ∧ 0 ≤ b.right ∧
      b.right ≤ (s.acker.maxseen : Int) + 1 := by
  intro b hb
  have hRecorded := (hArrived.entries_recorded b hb).mono c
  have hNonempty := hRecorded.nonempty
  have hLe := hRecorded.right_le hArrived.received
  omega

theorem Arrived.le_maxseen
    (hArrived : Arrived history c s) :
    c.1 ≤ s.acker.maxseen := by
  apply hArrived.received.le_maxseen
  exact List.mem_cons_self

/- The number of a packet received is not the missing one. -/
theorem Arrived.next_ne
    (hArrived : Arrived history c s) :
    s.acker.next ≠ c.1 := by
  intro hEq
  apply hArrived.received.next_new
  rw [hEq]
  exact List.mem_cons_self

end Sacker

end Ns2

------------------------------------------------------------
-- Building the Blocks
------------------------------------------------------------

namespace Ns2

namespace Sacker

variable {history : List (Nat × Int)} {c : Nat × Int}
variable {s : Sacker}

/- A sink whose history stays, and an option without blocks. -/
theorem Arrived.unchanged
    (hArrived : Arrived history c s)
    (hAbove : ∀ b ∈ s.sf.entries,
      (s.acker.next : Int) < b.left)
    {dsack : List SackBlock}
    (hDsack : dsack = [] ∨
      s.dsacks = true ∧ s.acker.isDup = true ∧
        dsack = [⟨c.1, c.1 + 1⟩])
    (hFirst : s.acker.next < c.1 →
      s.baseNblocks = 1 ∧ s.dsacks = true ∧
        s.acker.isDup = true)
    (hDup : s.sf.entries = [] ∨ s.acker.isDup = true) :
    Answered history c s ⟨dsack, []⟩ s := by
  have hBase := hArrived.base_pos
  constructor
  case good =>
    exact ⟨hArrived.received, hArrived.positive,
      hArrived.size_eq, hBase, hArrived.length_le,
      fun b hb => (hArrived.entries_recorded b hb).mono c,
      hAbove⟩
  case base_eq => rfl
  case dsacks_eq => rfl
  case acker_eq => rfl
  case dsack_eq => exact hDsack
  case count_le =>
    rcases hDsack with rfl | ⟨_, _, rfl⟩
    · exact Nat.zero_le _
    · exact hBase
  case blocks_recorded =>
    intro b hb
    cases hb
  case first =>
    intro hGt hNot
    exact absurd (hFirst hGt) hNot
  case apart =>
    intro _
    exact List.Pairwise.nil
  case current =>
    intro hCurrent _
    refine ⟨?_, hCurrent.nodup⟩
    intro b hb
    rcases hDup with hEmpty | hDup
    · rw [hEmpty] at hb
      cases hb
    · exact (hCurrent.runs b hb).cons_dup
        (hArrived.dup_iff.mp hDup)

/-
  The blocks of a packet below the missing number: it is the
  packet that moved the left edge, and its walk passes the
  whole history, or a duplicate, whose walk pops nothing.
-/
theorem Arrived.below
    (hArrived : Arrived history c s)
    (hLow : c.1 < s.acker.next)
    {dsack : List SackBlock}
    (hDsack : dsack = [] ∧ s.acker.isDup = false ∨
      dsack.length < s.baseNblocks ∧
        s.acker.isDup = true ∧ (dsack = [] ∨
          s.dsacks = true ∧ dsack = [⟨c.1, c.1 + 1⟩])) :
    Answered history c s
      ⟨dsack, (s.appendBlocks c.1 dsack.length).1⟩
      (s.appendBlocks c.1 dsack.length).2 := by
  unfold appendBlocks
  simp only [if_pos hLow]
  have hMax := hArrived.le_maxseen
  have hNext := hArrived.received.next_le
  rcases @holeRight_spec s.acker c.1 (by omega) with
    ⟨hGe, hLe, hHole, hFull⟩
  generalize holeRight s.acker c.1 = right at *
  rcases walkHistory_spec (a := s.acker) ⟨0, right⟩
      (s.baseNblocks - dsack.length) s.sf.entries
      hArrived.known with ⟨front, rest, hWalked⟩
  generalize walkHistory s.acker ⟨0, right⟩
    (s.baseNblocks - dsack.length) s.sf.entries = r at *
  have hRecorded := fun b hb =>
    (hArrived.entries_recorded b hb).mono c
  -- What is left of the history, and that it stays above.
  have hAbove : ∀ b ∈ r.2, (s.acker.next : Int) < b.left := by
    intro b hb
    have hMem := hWalked.left_sublist.subset hb
    rcases hDsack with ⟨rfl, hNew⟩ | ⟨_, hDup, _⟩
    · have hRight : s.acker.next ≤ right := by
        by_contra hNot
        exact hArrived.filled hNew right hGe (by omega)
          (hHole (by omega))
      have hNil := hWalked.rest_eq_nil
        (by simpa using hArrived.length_le)
      rw [hWalked.left_eq, hNil, List.append_nil] at hb
      have hNot := hWalked.not_covers hb
      have hNonempty := (hRecorded b hMem).nonempty
      unfold covers at hNot
      simp only at hNot
      rcases (hRecorded b hMem).above_or_below
          hArrived.received.next_new with hBelow | hAbove
      · omega
      · exact hAbove
    · exact hArrived.above (Or.inl hDup) b hMem
  have hPart : r.1.Sublist r.2 := by
    rw [hWalked.left_eq]
    exact List.sublist_append_left r.1 rest
  have hLeft := hWalked.left_sublist
  -- The runs left over are runs with the packet, too.
  have hRuns : Current history s → ∀ b ∈ r.2,
      IsRun (Acker.numbers (c :: history)) b := by
    intro hCurrent b hb
    have hRun := hCurrent.runs b (hLeft.subset hb)
    have := hAbove b hb
    apply hRun.cons <;> have := hRun.nonempty <;> omega
  have hNodup := fun hCurrent : Current history s =>
    hCurrent.nodup.sublist hLeft
  constructor
  case good =>
    constructor
    case received => exact hArrived.received
    case positive => exact hArrived.positive
    case size_eq => exact hArrived.size_eq
    case base_pos => exact hArrived.base_pos
    case length_le =>
      exact hLeft.length_le.trans hArrived.length_le
    case entries_recorded =>
      intro b hb
      exact hRecorded b (hLeft.subset hb)
    case above => exact hAbove
  case base_eq => rfl
  case dsacks_eq => rfl
  case acker_eq => rfl
  case dsack_eq =>
    rcases hDsack with ⟨hNil, _⟩ | ⟨_, hDup, hNil | hOne⟩
    · exact Or.inl hNil
    · exact Or.inl hNil
    · exact Or.inr ⟨hOne.1, hDup, hOne.2⟩
  case count_le =>
    have := hWalked.room_le
    have := hArrived.base_pos
    change dsack.length + r.1.length ≤ s.baseNblocks
    rcases hDsack with ⟨rfl, _⟩ | ⟨hLt, _⟩
    · simpa using this
    · omega
  case blocks_recorded =>
    intro b hb
    have hMem := hPart.subset hb
    exact ⟨hRecorded b (hLeft.subset hMem), hAbove b hMem⟩
  case first =>
    intro hGt
    omega
  case apart =>
    intro hCurrent
    have hDistinct := (hNodup hCurrent).sublist hPart
    refine List.Pairwise.imp_of_mem ?_ hDistinct
    intro b d hb hd hNe
    exact (hRuns hCurrent b (hPart.subset hb)).apart
      (hRuns hCurrent d (hPart.subset hd)) hNe
  case current =>
    intro hCurrent _
    exact ⟨hRuns hCurrent, hNodup hCurrent⟩

/-
  The block of the newest packet is in the part of the
  history that the push keeps only when the packet slips.
-/
theorem Arrived.recent_not_kept
    (hArrived : Arrived history c s)
    (hCurrent : Current history s)
    (hSlip : ¬ s.Slip c.1)
    {recent : SackBlock}
    (hRecent : IsRun (Acker.numbers (c :: history)) recent)
    (hLeft : recent.left ≤ c.1)
    (hRight : c.1 < recent.right)
    {used : Nat}
    (hUsed : used = 0 ∨ used = 1 ∧ 2 ≤ s.baseNblocks ∧
      s.acker.isDup = true ∧ s.dsacks = true)
    {front rest reported left : List SackBlock}
    (hWalked : Walked recent (s.baseNblocks - (used + 1))
      s.sf.entries front rest reported left) :
    recent ∉ left.take (s.baseNblocks - 1) := by
  intro hMem
  have hReported : recent ∉ reported := by
    intro hIn
    exact hWalked.not_covers hIn ⟨le_rfl, le_rfl⟩
  rcases hUsed with rfl | ⟨rfl, hTwo, hDup, hDsacks⟩
  · exact hReported (hWalked.mem_reported_of_take hMem)
  rw [hWalked.left_eq, List.take_append] at hMem
  rcases List.mem_append.mp hMem with hIn | hIn
  · exact hReported (List.mem_of_mem_take hIn)
  have hRest : rest ≠ [] := by
    rintro rfl
    rw [List.take_nil] at hIn
    cases hIn
  -- A duplicate keeps one block more than it reports.
  rw [hWalked.full hRest,
    show s.baseNblocks - 1 - (s.baseNblocks - (1 + 1)) = 1
      by omega] at hIn
  rcases List.exists_cons_of_ne_nil hRest with
    ⟨b, rest', rfl⟩
  simp only [List.take_succ_cons, List.take_zero,
    List.mem_singleton] at hIn
  subst hIn
  apply hSlip
  refine ⟨hDsacks, hTwo, recent, ?_, hLeft, hRight⟩
  apply hWalked.getElem?_room hCurrent.nodup rfl
  rintro d hd ⟨hGe, hLe⟩
  have hRun := (hCurrent.runs d hd).cons_dup
    (hArrived.dup_iff.mp hDup)
  have := hRun.nonempty
  exact hRun.eq_of_common hRecent (by omega) (by omega)

/-
  The blocks of a packet above the missing number: the run
  that contains it comes first and goes onto the history.
-/
theorem Arrived.beyond
    (hArrived : Arrived history c s)
    (hHigh : s.acker.next < c.1)
    {dsack : List SackBlock}
    (hRoom : dsack.length < s.baseNblocks)
    (hDsack : dsack = [] ∨
      s.dsacks = true ∧ s.acker.isDup = true ∧
        dsack = [⟨c.1, c.1 + 1⟩]) :
    Answered history c s
      ⟨dsack, (s.appendBlocks c.1 dsack.length).1⟩
      (s.appendBlocks c.1 dsack.length).2 := by
  unfold appendBlocks
  simp only [if_neg (show ¬ c.1 < s.acker.next by omega)]
  have hMem : c.1 ∈ Acker.numbers (c :: history) :=
    List.mem_cons_self
  have hFirst := first_block_spec hArrived.received
    hArrived.positive hHigh.le hMem
  set recent : SackBlock :=
    ⟨holeLeft s.acker (holeRight s.acker c.1),
      holeRight s.acker c.1⟩
  have hRecent : IsRun (Acker.numbers (c :: history)) recent :=
    hFirst.1
  have hOver : (s.acker.next : Int) < recent.left :=
    hFirst.2.1
  have hLeft : recent.left ≤ c.1 := hFirst.2.2.1
  have hRight : (c.1 : Int) < recent.right := by
    have := hFirst.2.2.2
    change (c.1 : Int) < (holeRight s.acker c.1 : Nat)
    omega
  clear hFirst
  clear_value recent
  rcases walkHistory_spec (a := s.acker) recent
      (s.baseNblocks - (dsack.length + 1)) s.sf.entries
      hArrived.known with ⟨front, rest, hWalked⟩
  generalize walkHistory s.acker recent
    (s.baseNblocks - (dsack.length + 1)) s.sf.entries = r at *
  have hSub := hWalked.left_sublist
  have hPart : r.1.Sublist s.sf.entries := by
    rw [hWalked.split]
    exact hWalked.reported_sublist.trans
      (List.sublist_append_left front rest)
  have hKept : (r.2.take (s.baseNblocks - 1)).Sublist
      s.sf.entries :=
    (List.take_sublist _ _).trans hSub
  have hEntries :
      (({ s.sf with entries := r.2 }).push recent).entries =
        recent :: r.2.take (s.baseNblocks - 1) := by
    rw [SackStack.push_entries]
    change recent :: r.2.take (s.sf.size - 1) = _
    rw [hArrived.size_eq]
  have hRecorded : ∀ b, b = recent ∨ b ∈ s.sf.entries →
      Recorded (c :: history) b ∧
        (s.acker.next : Int) < b.left := by
    rintro b (rfl | hb)
    · exact ⟨⟨c, history, List.suffix_refl _, hRecent,
        hLeft, hRight⟩, hOver⟩
    · exact ⟨(hArrived.entries_recorded b hb).mono c,
        hArrived.above (Or.inr hHigh.le) b hb⟩
  -- A block that is not covered up is a run with the packet.
  have hRuns : Current history s → ∀ b ∈ s.sf.entries,
      s.acker.isDup = true ∨ ¬ covers recent b →
        IsRun (Acker.numbers (c :: history)) b := by
    rintro hCurrent b hb (hDup | hNot)
    · exact (hCurrent.runs b hb).cons_dup
        (hArrived.dup_iff.mp hDup)
    · exact (hCurrent.runs b hb).cons_of_not_covers
        hRecent hLeft hRight hNot
  have hSelf : covers recent recent := ⟨le_rfl, le_rfl⟩
  constructor
  case good =>
    constructor
    case received => exact hArrived.received
    case positive => exact hArrived.positive
    case size_eq => exact hArrived.size_eq
    case base_pos => exact hArrived.base_pos
    case length_le =>
      have hBase := hArrived.base_pos
      change (SackStack.push _ recent).entries.length ≤
        s.baseNblocks
      rw [hEntries, List.length_cons, List.length_take]
      omega
    case entries_recorded =>
      intro b hb
      change b ∈ (SackStack.push _ recent).entries at hb
      rw [hEntries] at hb
      exact (hRecorded b ((List.mem_cons.mp hb).imp_right
        (fun h => hKept.subset h))).1
    case above =>
      intro b hb
      change b ∈ (SackStack.push _ recent).entries at hb
      rw [hEntries] at hb
      exact (hRecorded b ((List.mem_cons.mp hb).imp_right
        (fun h => hKept.subset h))).2
  case base_eq => rfl
  case dsacks_eq => rfl
  case acker_eq => rfl
  case dsack_eq => exact hDsack
  case count_le =>
    have := hWalked.room_le
    change dsack.length + (r.1.length + 1) ≤ s.baseNblocks
    omega
  case blocks_recorded =>
    intro b hb
    exact hRecorded b ((List.mem_cons.mp hb).imp_right
      (fun h => hPart.subset h))
  case first =>
    intro _ _
    exact ⟨recent, r.1, rfl, hRecent, hLeft, hRight⟩
  case apart =>
    intro hCurrent
    have hReported : ∀ b ∈ r.1,
        IsRun (Acker.numbers (c :: history)) b := by
      intro b hb
      exact hRuns hCurrent b (hPart.subset hb)
        (Or.inr (hWalked.not_covers hb))
    apply List.Pairwise.cons
    · intro b hb
      apply hRecent.apart (hReported b hb)
      rintro rfl
      exact hWalked.not_covers hb hSelf
    · have hDistinct := hCurrent.nodup.sublist hPart
      refine List.Pairwise.imp_of_mem ?_ hDistinct
      intro b d hb hd hNe
      exact (hReported b hb).apart (hReported d hd) hNe
  case current =>
    intro hCurrent hSlip
    have hUsed : dsack.length = 0 ∨ dsack.length = 1 ∧
        2 ≤ s.baseNblocks ∧ s.acker.isDup = true ∧
          s.dsacks = true := by
      rcases hDsack with rfl | ⟨hOn, hDup, rfl⟩
      · exact Or.inl rfl
      · exact Or.inr ⟨rfl, hRoom, hDup, hOn⟩
    have hFresh := hArrived.recent_not_kept hCurrent hSlip
      hRecent hLeft hRight hUsed hWalked
    constructor
    · intro b hb
      change b ∈ (SackStack.push _ recent).entries at hb
      rw [hEntries] at hb
      rcases List.mem_cons.mp hb with rfl | hb
      · exact hRecent
      · apply hRuns hCurrent b (hKept.subset hb)
        rcases hUsed with hZero | ⟨_, _, hDup, _⟩
        · rw [hZero, Nat.zero_add] at hWalked
          have hIn := hWalked.mem_reported_of_take hb
          exact Or.inr (hWalked.not_covers hIn)
        · exact Or.inl hDup
    · change (SackStack.push _ recent).entries.Nodup
      rw [hEntries]
      exact List.nodup_cons.mpr
        ⟨hFresh, hCurrent.nodup.sublist hKept⟩

end Sacker

end Ns2

------------------------------------------------------------
-- Runs of the Sink
------------------------------------------------------------

namespace Ns2

namespace Sacker

variable {history : List (Nat × Int)} {c : Nat × Int}
variable {s : Sacker}

theorem Current.of_entries_nil
    (hEmpty : s.sf.entries = []) :
    Current history s := by
  constructor
  · intro b hb
    rw [hEmpty] at hb
    cases hb
  · rw [hEmpty]
    exact List.nodup_nil

/- Building the acknowledgement of a packet. -/
theorem appendAck_spec
    (hArrived : Arrived history c s) :
    Answered history c s (s.appendAck c.1).1
      (s.appendAck c.1).2 := by
  have hBase := hArrived.base_pos
  have hNe := hArrived.next_ne
  have hMax := hArrived.le_maxseen
  unfold appendAck
  by_cases hReset :
      s.acker.maxseen < s.acker.next ∧ s.sf.entries ≠ []
  · rw [if_pos hReset]
    have hEmpty : Arrived history c
        { s with sf := s.sf.reset } := by
      constructor
      case received => exact hArrived.received
      case positive => exact hArrived.positive
      case size_eq => exact hArrived.size_eq
      case base_pos => exact hArrived.base_pos
      case length_le => exact Nat.zero_le _
      case entries_recorded =>
        intro b hb
        cases hb
      case dup_iff => exact hArrived.dup_iff
      case above =>
        intro _ b hb
        cases hb
      case filled => exact hArrived.filled
    have hAnswered := @Arrived.unchanged _ _ _ hEmpty
      (fun b hb => by cases hb) [] (Or.inl rfl)
      (fun hGt => by
        have hGt : s.acker.next < c.1 := hGt
        omega)
      (Or.inl rfl)
    constructor
    case good => exact hAnswered.good
    case base_eq => rfl
    case dsacks_eq => rfl
    case acker_eq => rfl
    case dsack_eq => exact Or.inl rfl
    case count_le => exact Nat.zero_le _
    case blocks_recorded => exact hAnswered.blocks_recorded
    case first => exact hAnswered.first
    case apart =>
      intro _
      exact List.Pairwise.nil
    case current =>
      intro _ _
      exact Current.of_entries_nil rfl
  rw [if_neg hReset]
  by_cases hBlocks : (s.acker.next ≤ s.acker.maxseen ∨
      s.acker.isDup = true) ∧ 0 < s.baseNblocks
  · rw [if_pos hBlocks]
    by_cases hOn : s.dsacks = true ∧ s.acker.isDup = true
    · simp only [if_pos hOn]
      by_cases hOne : s.baseNblocks ≤ 1
      · simp only [List.length_singleton, if_pos hOne]
        apply hArrived.unchanged
        · exact hArrived.above (Or.inl hOn.2)
        · exact Or.inr ⟨hOn.1, hOn.2, rfl⟩
        · intro _
          exact ⟨by omega, hOn⟩
        · exact Or.inr hOn.2
      · simp only [List.length_singleton, if_neg hOne]
        rcases Nat.lt_or_gt_of_ne hNe with hHigh | hLow
        · apply hArrived.beyond hHigh
          · rw [List.length_singleton]
            omega
          · exact Or.inr ⟨hOn.1, hOn.2, rfl⟩
        · apply hArrived.below hLow
          right
          refine ⟨?_, hOn.2, Or.inr ⟨hOn.1, rfl⟩⟩
          rw [List.length_singleton]
          omega
    · simp only [if_neg hOn, List.length_nil,
        if_neg (show ¬ s.baseNblocks ≤ 0 by omega)]
      rcases Nat.lt_or_gt_of_ne hNe with hHigh | hLow
      · exact hArrived.beyond hHigh hBase (Or.inl rfl)
      · apply hArrived.below hLow
        by_cases hDup : s.acker.isDup = true
        · exact Or.inr ⟨hBase, hDup, Or.inl rfl⟩
        · exact Or.inl ⟨rfl, by simpa using hDup⟩
  · rw [if_neg hBlocks]
    have hNone : s.sf.entries = [] := by
      by_contra hSome
      apply hReset
      refine ⟨?_, hSome⟩
      by_contra hLe
      exact hBlocks ⟨Or.inl (by omega), hBase⟩
    apply hArrived.unchanged
    · intro b hb
      rw [hNone] at hb
      cases hb
    · exact Or.inl rfl
    · intro hGt
      exact absurd ⟨Or.inl (by omega), hBase⟩ hBlocks
    · exact Or.inl hNone

/- Receiving a packet. -/
theorem recv_spec
    (hGood : Good history s)
    (hBytes : 0 < c.2) :
    ∃ a option s', s.recv c = some (option, s') ∧
      (a.isDup = true ↔ c.1 ∈ Acker.numbers history) ∧
      Answered history c { s with acker := a } option s' := by
  rcases hGood.update hBytes with ⟨bytes, a, hCall, hArrived⟩
  refine ⟨a, _, _, ?_, hArrived.dup_iff,
    appendAck_spec hArrived⟩
  unfold recv
  rw [hCall]
  rfl

/- The state after several packets. -/
theorem run_spec
    (hGood : Good history s)
    {calls : List (Nat × Int)}
    (hBytes : ∀ c ∈ calls, 0 < c.2) :
    ∃ s', s.run calls = some s' ∧
      Good (calls.reverse ++ history) s' ∧
      s'.baseNblocks = s.baseNblocks ∧
      s'.dsacks = s.dsacks ∧
      (Current history s → s.Clean calls →
        Current (calls.reverse ++ history) s') := by
  induction calls generalizing history s with
  | nil =>
      exact ⟨s, rfl, hGood, rfl, rfl, fun h _ => h⟩
  | cons c calls ih =>
      rcases recv_spec hGood (hBytes c (by simp)) with
        ⟨a, option, s₁, hCall, _, hAnswered⟩
      rcases ih hAnswered.good
          (fun d hd => hBytes d (by simp [hd])) with
        ⟨s₂, hRun, hGood₂, hBase₂, hDsacks₂, hCurrent₂⟩
      have hHistory : (c :: calls).reverse ++ history =
          calls.reverse ++ c :: history := by
        simp
      rw [hHistory]
      refine ⟨s₂, ?_, hGood₂, ?_, ?_, ?_⟩
      · unfold run
        rw [hCall]
        exact hRun
      · exact hBase₂.trans hAnswered.base_eq
      · exact hDsacks₂.trans hAnswered.dsacks_eq
      · intro hCurrent hClean
        apply hCurrent₂
        · exact hAnswered.current
            ⟨hCurrent.runs, hCurrent.nodup⟩ hClean.1
        · exact hClean.2 _ hCall

theorem run_append
    (s : Sacker)
    (before after : List (Nat × Int)) :
    s.run (before ++ after) =
      (s.run before).bind fun s' => s'.run after := by
  induction before generalizing s with
  | nil => rfl
  | cons c before ih =>
      simp only [List.cons_append, run, Option.bind_assoc, ih]

end Sacker

end Ns2
