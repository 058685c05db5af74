import Mathlib.Algebra.BigOperators.Group.Finset.Basic
import Mathlib.Algebra.BigOperators.Intervals
import Mathlib.Algebra.Order.Ring.Int
import Ns2.Tcp.Acker.Operations

/-
  Correctness of the cumulative acknowledgements.

  Within the window the buffer holds what was last recorded
  for each number.  The window always fits into the buffer,
  so no stale slot is read as the slot of another number.

  Main declarations:
    * `Acker.Window`, `Acker.Received`
    * `Acker.update_spec`, `Acker.run_spec`
    * `Acker.update_run_correct`
-/

------------------------------------------------------------
-- The Window
------------------------------------------------------------

namespace Ns2

namespace Acker

variable {entry : Nat → Int} {a : Acker}

/- The window of the buffer holds a function's values. -/
structure Window
    (entry : Nat → Int)
    (a : Acker) : Prop where
  mask : RingBuffer.IsMask a.wndmask
  fits : a.maxseen + 1 < a.next + a.wndmask
  slots : ∀ i, a.next ≤ i → i ≤ a.maxseen + 1 →
    RingBuffer.read a.wndmask a.seen i = entry i

/- Resizing keeps the window. -/
theorem Window.resizeBuffers
    (hWindow : Window entry a) :
    Window entry
      (a.resizeBuffers ((a.wndmask + 1) * 2)) := by
  have hFits := hWindow.fits
  have hMask := hWindow.mask.double
  constructor
  · exact hMask
  · change a.maxseen + 1 <
      a.next + ((a.wndmask + 1) * 2 - 1)
    omega
  · intro i hLow hHigh
    have hLow : a.next ≤ i := hLow
    have hHigh : i ≤ a.maxseen + 1 := hHigh
    have hRead := RingBuffer.read_store hMask
      (fun _ => 0)
      (RingBuffer.read a.wndmask a.seen)
      (List.range' a.next (a.maxseen + 2 - a.next))
      a.next i
      (by
        intro k hk
        have := List.mem_range'_1.mp hk
        omega)
      (by omega)
    rw [if_pos (List.mem_range'_1.mpr (by omega))] at hRead
    exact hRead.trans (hWindow.slots i hLow hHigh)

/- Growing keeps the window and makes room for `seq + 1`. -/
theorem Window.grow
    (hWindow : Window entry a)
    (seq : Nat) :
    Window entry (a.grow seq) ∧
      seq + 1 < a.next + (a.grow seq).wndmask ∧
      (a.grow seq).next = a.next ∧
      (a.grow seq).maxseen = a.maxseen ∧
      (a.grow seq).isDup = a.isDup := by
  induction a using Acker.grow.induct seq with
  | case1 a hSmall ih =>
      rw [Acker.grow.eq_def, if_pos hSmall]
      exact ih hWindow.resizeBuffers
  | case2 a hLarge =>
      rw [Acker.grow.eq_def, if_neg hLarge]
      exact ⟨hWindow, by omega, rfl, rfl, rfl⟩

/- Recording a number inside the window. -/
theorem Window.write
    (hWindow : Window entry a)
    {seq : Nat}
    (hLow : a.next ≤ seq)
    (hHigh : seq ≤ a.maxseen + 1)
    (numBytes : Int)
    (dup : Bool) :
    Window (Function.update entry seq numBytes)
      { a with
        isDup := dup
        seen := RingBuffer.write a.wndmask a.seen seq
          numBytes } := by
  have hFits := hWindow.fits
  refine ⟨hWindow.mask, hWindow.fits, ?_⟩
  intro i hi hi'
  have hi : a.next ≤ i := hi
  have hi' : i ≤ a.maxseen + 1 := hi'
  by_cases hEq : i = seq
  · subst hEq
    simp
  · rw [Function.update_of_ne hEq,
      ← hWindow.slots i hi hi']
    exact RingBuffer.read_write_of_ne hWindow.mask hEq
      (by omega) (by omega) numBytes

/- Recording a number above all numbers seen. -/
theorem Window.markHighest
    (hWindow : Window entry a)
    {seq : Nat}
    (hAbove : a.maxseen < seq)
    (hRoom : seq + 1 < a.next + a.wndmask)
    (hLow : a.next ≤ a.maxseen + 1)
    (hZero : ∀ i, a.maxseen < i → entry i = 0)
    (numBytes : Int) :
    Window (Function.update entry seq numBytes)
      (a.markHighest seq numBytes) := by
  refine ⟨hWindow.mask, hRoom, ?_⟩
  intro i hi hi'
  have hi : a.next ≤ i := hi
  have hi' : i ≤ seq + 1 := hi'
  have hMask := hWindow.mask
  change RingBuffer.read a.wndmask
    (RingBuffer.write a.wndmask
      (RingBuffer.write a.wndmask
        (RingBuffer.store a.wndmask a.seen (fun _ => 0)
          (List.range' (a.maxseen + 1)
            (seq - (a.maxseen + 1)))) seq numBytes)
      (seq + 1) 0) i = _
  by_cases hTop : i = seq + 1
  · subst hTop
    rw [RingBuffer.read_write_self,
      Function.update_of_ne (by omega),
      hZero _ (by omega)]
  · rw [RingBuffer.read_write_of_ne hMask hTop (by omega)
      (by omega)]
    by_cases hEq : i = seq
    · subst hEq
      simp
    · rw [RingBuffer.read_write_of_ne hMask hEq (by omega)
        (by omega), Function.update_of_ne hEq,
        RingBuffer.read_store hMask _ _ _ a.next i
          (by
            intro k hk
            have := List.mem_range'_1.mp hk
            omega)
          (by omega)]
      by_cases hNew : a.maxseen < i
      · rw [if_pos (List.mem_range'_1.mpr (by omega)),
          hZero i hNew]
      · rw [if_neg (by
          intro hIn
          have := List.mem_range'_1.mp hIn
          omega), hWindow.slots i hi (by omega)]

/-
  The delivery loop ends at the first empty slot and sums up
  the slots before it.
-/
theorem Window.deliver
    (hWindow : Window entry a)
    (fuel : Nat)
    (hZero : entry (a.maxseen + 1) = 0)
    {j : Nat}
    (hLow : a.next ≤ j)
    (hHigh : j ≤ a.maxseen + 1)
    (hFuel : a.maxseen + 1 < j + fuel) :
    ∃ k, a.deliver fuel j =
        some (k, ∑ i ∈ Finset.Ico j k, entry i) ∧
      j ≤ k ∧ k ≤ a.maxseen + 1 ∧ entry k = 0 ∧
      ∀ i, j ≤ i → i < k → entry i ≠ 0 := by
  induction fuel generalizing j with
  | zero => omega
  | succ fuel ih =>
      have hSlot := hWindow.slots j hLow hHigh
      unfold Acker.deliver
      simp only [hSlot]
      by_cases hEmpty : entry j = 0
      · refine ⟨j, ?_, le_rfl, hHigh, hEmpty, ?_⟩
        · rw [if_neg (by simpa using hEmpty)]
          simp
        · intro i hi hi'
          omega
      · have hNe : j ≠ a.maxseen + 1 := by
          rintro rfl
          exact hEmpty hZero
        rcases ih (j := j + 1) (by omega) (by omega)
            (by omega) with
          ⟨k, hCall, hLe, hTop, hStop, hFull⟩
        have hLt : j < k := hLe
        refine ⟨k, ?_, hLt.le, hTop, hStop, ?_⟩
        · rw [if_pos hEmpty, hCall, Option.map_some,
            Finset.sum_eq_sum_Ico_succ_bot hLt entry]
        · intro i hi hi'
          rcases Nat.eq_or_lt_of_le hi with rfl | hLt
          · exact hEmpty
          · exact hFull i hLt hi'

end Acker

end Ns2

------------------------------------------------------------
-- Updates
------------------------------------------------------------

namespace Ns2

namespace Acker

/- The numbers received; the last call comes first. -/
def numbers (history : List (Nat × Int)) : List Nat :=
  history.map Prod.fst

/- The bytes a number was last received with, or 0. -/
def recorded
    (history : List (Nat × Int))
    (i : Nat) : Int :=
  match history with
  | [] => 0
  | c :: calls => if i = c.1 then c.2 else recorded calls i

/- Every packet has bytes. -/
def Positive (history : List (Nat × Int)) : Prop :=
  ∀ c ∈ history, 0 < c.2

/- The state after the calls of a history. -/
structure Received
    (history : List (Nat × Int))
    (a : Acker) : Prop where
  window : Window (recorded history) a
  below : ∀ i < a.next, i ∈ numbers history
  next_new : a.next ∉ numbers history
  le_maxseen : ∀ i ∈ numbers history, i ≤ a.maxseen
  maxseen_mem : a.maxseen = 0 ∨
    a.maxseen ∈ numbers history

variable {history : List (Nat × Int)} {a : Acker}

theorem recorded_cons
    (seq : Nat)
    (numBytes : Int)
    (history : List (Nat × Int)) :
    recorded ((seq, numBytes) :: history) =
      Function.update (recorded history) seq numBytes := by
  funext i
  by_cases hEq : i = seq
  · simp [recorded, hEq]
  · simp [recorded, hEq]

/- A number is recorded with bytes when it was received. -/
theorem recorded_ne_zero_iff
    (hPositive : Positive history)
    (i : Nat) :
    recorded history i ≠ 0 ↔ i ∈ numbers history := by
  induction history with
  | nil => simp [recorded, numbers]
  | cons c calls ih =>
      have hRest := ih fun d hd => hPositive d (by simp [hd])
      unfold recorded
      by_cases hEq : i = c.1
      · have hPos := hPositive c (by simp)
        rw [if_pos hEq]
        simp only [numbers, List.map_cons, hEq,
          List.mem_cons, true_or, iff_true]
        omega
      · rw [if_neg hEq, hRest]
        simp [numbers, hEq]

/- With constant bytes these are what is recorded. -/
theorem recorded_eq_bytes
    {bytes : Nat → Int}
    (hSame : ∀ c ∈ history, c.2 = bytes c.1)
    {i : Nat}
    (hIn : i ∈ numbers history) :
    recorded history i = bytes i := by
  induction history with
  | nil => simp [numbers] at hIn
  | cons c calls ih =>
      unfold recorded
      by_cases hEq : i = c.1
      · rw [if_pos hEq, hSame c (by simp), hEq]
      · rw [if_neg hEq]
        refine ih (fun d hd => hSame d (by simp [hd])) ?_
        simpa [numbers, hEq] using hIn

/- The left edge is at most one past the right edge. -/
theorem Received.next_le
    (hReceived : Received history a) :
    a.next ≤ a.maxseen + 1 := by
  by_contra hNot
  have hIn := hReceived.below (a.maxseen + 1) (by omega)
  have := hReceived.le_maxseen _ hIn
  omega

/- The left edge is the only gap with nothing before it. -/
theorem Received.next_eq
    (hReceived : Received history a)
    {n : Nat}
    (hBelow : ∀ i < n, i ∈ numbers history)
    (hNew : n ∉ numbers history) :
    a.next = n := by
  rcases lt_trichotomy a.next n with hLt | hEq | hGt
  · exact absurd (hBelow _ hLt) hReceived.next_new
  · exact hEq
  · exact absurd (hReceived.below _ hGt) hNew

/- In the window a slot is empty for the numbers missing. -/
theorem Received.slot_ne_zero_iff
    (hReceived : Received history a)
    (hPositive : Positive history)
    {i : Nat}
    (hLow : a.next ≤ i)
    (hHigh : i ≤ a.maxseen + 1) :
    RingBuffer.read a.wndmask a.seen i ≠ 0 ↔
      i ∈ numbers history := by
  rw [hReceived.window.slots i hLow hHigh,
    recorded_ne_zero_iff hPositive]

/-
  Recording a number inside the window: the left edge moves
  to the first gap, over the bytes returned.
-/
theorem Window.fillWindow
    {entry : Nat → Int}
    (hWindow : Window entry a)
    {seq : Nat}
    {numBytes : Int}
    (justMarked : Bool)
    (hEntry : Function.update entry seq numBytes =
      recorded history)
    (hPositive : Positive history)
    (hLow : a.next ≤ seq)
    (hHigh : seq ≤ a.maxseen)
    (hBelow : ∀ i < a.next, i ∈ numbers history)
    (hLe : ∀ i ∈ numbers history, i ≤ a.maxseen)
    (hMax : a.maxseen = 0 ∨ a.maxseen ∈ numbers history) :
    ∃ a', a.fillWindow seq numBytes justMarked =
        some (∑ i ∈ Finset.Ico a.next a'.next,
          recorded history i, a') ∧
      Received history a' ∧
      Window (recorded history) { a' with next := a.next } ∧
      a.next ≤ a'.next ∧
      a'.isDup =
        (a.isDup || decide (entry seq ≠ 0) && !justMarked) := by
  have hIff := recorded_ne_zero_iff hPositive
  have hZero : recorded history (a.maxseen + 1) = 0 := by
    by_contra hNe
    have := hLe _ ((hIff _).mp hNe)
    omega
  have hFits := hWindow.fits
  have hStored := hWindow.write hLow (by omega) numBytes
    (a.isDup || decide (entry seq ≠ 0) && !justMarked)
  rw [hEntry] at hStored
  rcases hStored.deliver (a.wndmask + 2) hZero
      le_rfl (hLow.trans (Nat.le_succ_of_le hHigh))
      (by change a.maxseen + 1 < a.next + (a.wndmask + 2)
          omega) with
    ⟨k, hCall, hGe, hTop, hStop, hFull⟩
  have hGe : a.next ≤ k := hGe
  unfold Acker.fillWindow
  rw [if_pos ⟨hLow, hHigh⟩,
    hWindow.slots seq hLow (Nat.le_succ_of_le hHigh)]
  simp only
  rw [hCall]
  refine
    ⟨{ a with
        next := k
        isDup := a.isDup ||
          decide (entry seq ≠ 0) && !justMarked
        seen := RingBuffer.write a.wndmask a.seen seq
          numBytes }, rfl, ?_, ?_, hGe, rfl⟩
  case refine_2 =>
    exact ⟨hWindow.mask, hWindow.fits, hStored.slots⟩
  constructor
  case window =>
    refine ⟨hWindow.mask, ?_, ?_⟩
    · change a.maxseen + 1 < k + a.wndmask
      omega
    · intro i hi hi'
      exact hStored.slots i (hGe.trans hi) hi'
  case below =>
    intro i hi
    by_cases hOld : i < a.next
    · exact hBelow i hOld
    · exact (hIff i).mp (hFull i (not_lt.mp hOld) hi)
  case next_new =>
    intro hIn
    exact (hIff k).mpr hIn hStop
  case le_maxseen => exact hLe
  case maxseen_mem => exact hMax

/-
  One packet.  The call returns the bytes of the numbers the
  left edge passes, and notices a number received before.
  The slots of the numbers passed are still as recorded.
-/
theorem update_spec
    (hReceived : Received history a)
    (hPositive : Positive history)
    (seq : Nat)
    {numBytes : Int}
    (hBytes : 0 < numBytes) :
    ∃ a', a.update seq numBytes =
        some (∑ i ∈ Finset.Ico a.next a'.next,
          recorded ((seq, numBytes) :: history) i, a') ∧
      Received ((seq, numBytes) :: history) a' ∧
      Window (recorded ((seq, numBytes) :: history))
        { a' with next := a.next } ∧
      a.next ≤ a'.next ∧
      (a'.isDup = true ↔ seq ∈ numbers history) := by
  have hPositive' :
      Positive ((seq, numBytes) :: history) := by
    intro c hc
    rcases List.mem_cons.mp hc with rfl | hc
    · exact hBytes
    · exact hPositive c hc
  have hIff := recorded_ne_zero_iff hPositive
  have hNext := hReceived.next_le
  have hMem : ∀ i, i ∈ numbers ((seq, numBytes) :: history) ↔
      i = seq ∨ i ∈ numbers history := by
    simp [numbers]
  have hStart : Window (recorded history)
      { a with isDup := false } :=
    ⟨hReceived.window.mask, hReceived.window.fits,
      hReceived.window.slots⟩
  rcases hStart.grow seq with
    ⟨hGrown, hRoom, hSameNext, hSameMax, hSameDup⟩
  unfold Acker.update
  simp only at hRoom hSameNext hSameMax hSameDup ⊢
  generalize { a with isDup := false }.grow seq = b at *
  have hBelow : ∀ i < b.next,
      i ∈ numbers ((seq, numBytes) :: history) := by
    intro i hi
    rw [hSameNext] at hi
    exact (hMem i).mpr (Or.inr (hReceived.below i hi))
  have hEntry := (recorded_cons seq numBytes history).symm
  rw [← hSameNext]
  by_cases hAbove : b.maxseen < seq
  · -- A new highest number cannot be a duplicate.
    have hNew : seq ∉ numbers history := by
      intro hIn
      have := hReceived.le_maxseen seq hIn
      omega
    have hLow : b.next ≤ seq := by omega
    have hMarked := hGrown.markHighest hAbove (by omega)
      (by omega)
      (by
        intro i hi
        by_contra hNe
        have := hReceived.le_maxseen i ((hIff i).mp hNe)
        omega)
      numBytes
    have hKeep : (b.markHighest seq numBytes).noticeLeft seq =
        b.markHighest seq numBytes :=
      if_neg (not_lt.mpr hLow)
    rw [if_pos hAbove, hKeep]
    rcases hMarked.fillWindow true
        (by rw [Function.update_idem, hEntry]) hPositive'
        hLow le_rfl hBelow
        (by
          intro i hi
          change i ≤ seq
          rcases (hMem i).mp hi with rfl | hi
          · exact le_rfl
          · have := hReceived.le_maxseen i hi
            omega)
        (Or.inr ((hMem seq).mpr (Or.inl rfl))) with
      ⟨a', hCall, hDone, hWide, hGe, hDup⟩
    refine ⟨a', hCall, hDone, hWide, hGe, ?_⟩
    have hFlag : (b.markHighest seq numBytes).isDup = false :=
      hSameDup
    simp [hDup, hFlag, hNew]
  · have hMax : b.maxseen = 0 ∨ b.maxseen ∈
        numbers ((seq, numBytes) :: history) := by
      rw [hSameMax]
      refine hReceived.maxseen_mem.imp_right ?_
      exact fun hIn => (hMem _).mpr (Or.inr hIn)
    have hLe : ∀ i ∈ numbers ((seq, numBytes) :: history),
        i ≤ b.maxseen := by
      intro i hi
      rcases (hMem i).mp hi with rfl | hi
      · exact not_lt.mp hAbove
      · rw [hSameMax]
        exact hReceived.le_maxseen i hi
    rw [if_neg hAbove]
    by_cases hOld : seq < b.next
    · -- A number left of the window was received before.
      have hIn : seq ∈ numbers history :=
        hReceived.below seq (by omega)
      have hNotice : b.noticeLeft seq =
          { b with isDup := true } :=
        if_pos hOld
      have hSkip : ({ b with isDup := true } :
          Acker).fillWindow seq numBytes false =
            some (0, { b with isDup := true }) := by
        refine if_neg ?_
        rintro ⟨hLow, _⟩
        exact absurd hOld (not_lt.mpr hLow)
      rw [hNotice, hSkip]
      have hSame : Window
          (recorded ((seq, numBytes) :: history)) b := by
        refine ⟨hGrown.mask, hGrown.fits, ?_⟩
        intro i hi hi'
        rw [recorded_cons,
          Function.update_of_ne (by omega)]
        exact hGrown.slots i hi hi'
      refine ⟨{ b with isDup := true }, by simp, ?_, ?_,
        le_rfl, by simp [hIn]⟩
      case refine_2 =>
        exact ⟨hSame.mask, hSame.fits, hSame.slots⟩
      constructor
      case window =>
        exact ⟨hSame.mask, hSame.fits, hSame.slots⟩
      case below => exact hBelow
      case next_new =>
        intro hNew
        rcases (hMem _).mp hNew with hEq | hNew
        · exact hOld.ne' hEq
        · exact hReceived.next_new (hSameNext ▸ hNew)
      case le_maxseen => exact hLe
      case maxseen_mem => exact hMax
    · have hKeep : b.noticeLeft seq = b := if_neg hOld
      rw [hKeep]
      rcases hGrown.fillWindow false hEntry hPositive'
          (not_lt.mp hOld) (not_lt.mp hAbove) hBelow hLe hMax
        with ⟨a', hCall, hDone, hWide, hGe, hDup⟩
      refine ⟨a', hCall, hDone, hWide, hGe, ?_⟩
      simp [hDup, hSameDup, ← hIff]

end Acker

end Ns2

------------------------------------------------------------
-- Runs
------------------------------------------------------------

namespace Ns2

namespace Acker

variable {history : List (Nat × Int)} {a : Acker}

/-
  Several packets.  The calls return the bytes of the numbers
  the left edge has passed, when every number always comes
  with the same bytes.
-/
theorem run_spec
    (hReceived : Received history a)
    (hPositive : Positive history)
    {calls : List (Nat × Int)}
    (hCalls : Positive calls) :
    ∃ values a', a.run calls = some (values, a') ∧
      Received (calls.reverse ++ history) a' ∧
      a.next ≤ a'.next ∧
      ∀ bytes : Nat → Int,
        (∀ c ∈ history, c.2 = bytes c.1) →
        (∀ c ∈ calls, c.2 = bytes c.1) →
          values.sum =
            ∑ i ∈ Finset.Ico a.next a'.next, bytes i := by
  induction calls generalizing history a with
  | nil =>
      refine ⟨[], a, rfl, hReceived, le_rfl, ?_⟩
      intro bytes _ _
      simp
  | cons c calls ih =>
      rcases c with ⟨seq, numBytes⟩
      have hBytes : 0 < numBytes :=
        hCalls (seq, numBytes) (by simp)
      have hPositive' :
          Positive ((seq, numBytes) :: history) := by
        intro d hd
        rcases List.mem_cons.mp hd with rfl | hd
        · exact hBytes
        · exact hPositive d hd
      rcases update_spec hReceived hPositive seq hBytes with
        ⟨a₁, hCall, hReceived₁, _, hGe₁, _⟩
      rcases ih hReceived₁ hPositive'
          (fun d hd => hCalls d (by simp [hd])) with
        ⟨values, a₂, hRun, hReceived₂, hGe₂, hSum⟩
      have hRun' : a.run ((seq, numBytes) :: calls) =
          some ((∑ i ∈ Finset.Ico a.next a₁.next,
            recorded ((seq, numBytes) :: history) i) ::
              values, a₂) := by
        rw [run, hCall, Option.bind_some, hRun]
        rfl
      have hHistory :
          Received (((seq, numBytes) :: calls).reverse ++
            history) a₂ := by
        simpa using hReceived₂
      refine ⟨_, a₂, hRun', hHistory, hGe₁.trans hGe₂, ?_⟩
      intro bytes hOld hNew
      have hAll : ∀ d ∈ (seq, numBytes) :: history,
          d.2 = bytes d.1 := by
        intro d hd
        rcases List.mem_cons.mp hd with rfl | hd
        · exact hNew _ (by simp)
        · exact hOld d hd
      have hFirst :
          ∑ i ∈ Finset.Ico a.next a₁.next,
              recorded ((seq, numBytes) :: history) i =
            ∑ i ∈ Finset.Ico a.next a₁.next, bytes i := by
        refine Finset.sum_congr rfl ?_
        intro i hi
        exact recorded_eq_bytes hAll (hReceived₁.below i
          (Finset.mem_Ico.mp hi).2)
      rw [List.sum_cons, hFirst, hSum bytes hAll
        (fun d hd => hNew d (by simp [hd])),
        Finset.sum_Ico_consecutive _ hGe₁ hGe₂]

end Acker

end Ns2
