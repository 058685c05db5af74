import Ns2.Tcp.ScoreBoardRH.Operations

/-
  The rate-halving scoreboard never has acknowledged data
  sent again, as long as no cumulative acknowledgement jumps
  over the whole scoreboard together with new blocks.

  Main declarations:
    * `ScoreBoardRH.Window`, `ScoreBoardRH.Keeps`
    * `ScoreBoardRH.Allowed`, `ScoreBoardRH.Good`

  Correctness is proven by:
    * `ScoreBoardRH.Keeps.updateScoreBoard`
    * `ScoreBoardRH.retransmits_unacknowledged`
-/

------------------------------------------------------------
-- Entries
------------------------------------------------------------

namespace Ns2

namespace ScoreBoardRH

variable {sb : ScoreBoardRH}
variable {i j n : Int}
variable {node : ScoreBoardRHNode}

@[simp] theorem get_set_self :
    (sb.set i node).get i = node :=
  CircularArray.read_write_self i node

theorem get_set_of_ne
    (hNe : j ≠ i)
    (hij : i < j + SBSIZE)
    (hji : j < i + SBSIZE) :
    (sb.set i node).get j = sb.get j :=
  CircularArray.read_write_of_ne hNe hij hji node

theorem get_of_slot
    (hSlot : i % SBSIZE = j % SBSIZE) :
    sb.get i = sb.get j := by
  unfold get CircularArray.read
  rw [hSlot]

/- The entry of a number, which may be in a block. -/
structure EntryOk
    (node : ScoreBoardRHNode)
    (n : Int)
    (covered : Prop) : Prop where
  seq_no : node.seq_no = n
  ack_flag : node.ack_flag = false
  sack_flag : covered → node.sack_flag = true

/-
  Entries for all numbers from `low` to `high`.  When there
  are none, the last one is still in the array.
-/
structure Window
    (low high : Int)
    (Covered : Int → Prop)
    (sb : ScoreBoardRH) : Prop where
  first : sb.first = low % SBSIZE
  nonneg : 0 ≤ low
  length : sb.length = high + 1 - low
  ordered : low ≤ high + 1
  fits : high + 2 < low + SBSIZE
  last : (sb.get high).seq_no = high
  entries : ∀ n, low ≤ n → n ≤ high →
    EntryOk (sb.get n) n (Covered n)
  above : ∀ n, high < n → ¬ Covered n

variable {low high : Int}
variable {Covered Covered' : Int → Prop}

theorem Window.get_first
    (hWindow : Window low high Covered sb) :
    sb.get sb.first = sb.get low := by
  apply get_of_slot
  rw [hWindow.first]
  exact Int.emod_emod_of_dvd low (Int.dvd_refl SBSIZE)

theorem Window.firstSeq
    (hWindow : Window low high Covered sb)
    (hLe : low ≤ high) :
    sb.firstSeq = low := by
  unfold ScoreBoardRH.firstSeq
  rw [hWindow.get_first]
  exact (hWindow.entries low le_rfl hLe).seq_no

theorem Window.lastSeq
    (hWindow : Window low high Covered sb) :
    sb.lastSeq = high := by
  have hSlot :
      (sb.first + sb.length + SBSIZE - 1) % SBSIZE =
        high % SBSIZE := by
    rw [hWindow.first, hWindow.length]
    unfold SBSIZE
    omega
  unfold ScoreBoardRH.lastSeq
  rw [get_of_slot hSlot]
  exact hWindow.last

/- An entry is replaced by another one of its number. -/
theorem Window.set
    (hWindow : Window low high Covered sb)
    (hLow : low ≤ n)
    (hHigh : n ≤ high)
    (hOk : EntryOk node n (Covered n)) :
    Window low high Covered (sb.set n node) := by
  have hFits := hWindow.fits
  constructor
  case first => exact hWindow.first
  case nonneg => exact hWindow.nonneg
  case length => exact hWindow.length
  case ordered => exact hWindow.ordered
  case fits => exact hFits
  case last =>
    by_cases hn : high = n
    · subst hn
      rw [get_set_self]
      exact hOk.seq_no
    · rw [get_set_of_ne hn (by omega) (by omega)]
      exact hWindow.last
  case entries =>
    intro k hkLow hkHigh
    by_cases hk : k = n
    · subst hk
      rw [get_set_self]
      exact hOk
    · rw [get_set_of_ne hk (by omega) (by omega)]
      exact hWindow.entries k hkLow hkHigh
  case above => exact hWindow.above

/- What is in blocks may become less, or more by one entry. -/
theorem Window.cover
    (hWindow : Window low high Covered sb)
    (hEntries : ∀ n, low ≤ n → n ≤ high → Covered' n →
      Covered n ∨ (sb.get n).sack_flag = true)
    (hAbove : ∀ n, high < n → ¬ Covered' n) :
    Window low high Covered' sb := by
  constructor
  case first => exact hWindow.first
  case nonneg => exact hWindow.nonneg
  case length => exact hWindow.length
  case ordered => exact hWindow.ordered
  case fits => exact hWindow.fits
  case last => exact hWindow.last
  case entries =>
    intro n hLow hHigh
    have hOk := hWindow.entries n hLow hHigh
    refine ⟨hOk.seq_no, hOk.ack_flag, fun hCovered => ?_⟩
    exact (hEntries n hLow hHigh hCovered).elim
      hOk.sack_flag id
  case above => exact hAbove

/- A loop over entries keeps what each of its rounds keeps. -/
theorem Window.foldl
    {σ : Type}
    {board : σ → ScoreBoardRH}
    {f : σ → Int → σ}
    {s : σ}
    {bound : Int}
    (hWindow : Window low high Covered (board s))
    (hRound : ∀ s n, low ≤ n → n ≤ high →
      Window low high Covered (board s) →
        Window low high Covered (board (f s n)))
    (hBound : bound ≤ high + 1) :
    Window low high Covered
      (board ((Int.range low bound).foldl f s)) := by
  refine List.foldlRecOn
    (motive := fun s => Window low high Covered (board s))
    _ f hWindow ?_
  intro s₁ hWindow₁ n hn
  have hRange := Int.mem_range_iff.mp hn
  exact hRound s₁ n hRange.1 (by omega) hWindow₁

end ScoreBoardRH

end Ns2

------------------------------------------------------------
-- The left edge
------------------------------------------------------------

namespace Ns2

namespace ScoreBoardRH

variable {p : Progress}
variable {sb : ScoreBoardRH}
variable {low high last_ack rh_id n : Int}
variable {Covered : Int → Prop}
variable {node : ScoreBoardRHNode}

theorem settle_eq :
    ∃ b decr, (settle rh_id p n node) =
      ⟨{ p.sb.set n
          { node with
            retran := false
            snd_nxt := if node.retran then 0 else node.snd_nxt }
          with retran_sacked := b }, decr, p.sack_max⟩ := by
  unfold settle
  cases hRetran : node.retran with
  | true =>
      rw [if_pos rfl]
      exact ⟨_, _, rfl⟩
  | false =>
      refine ⟨p.sb.retran_sacked, p.retran_decr, ?_⟩
      rw [if_neg Bool.false_ne_true]
      cases node
      cases hRetran
      rfl

theorem Window.settle
    (hWindow : Window low high Covered p.sb)
    (hLow : low ≤ n)
    (hHigh : n ≤ high)
    (hOk : EntryOk node n (Covered n)) :
    Window low high Covered (settle rh_id p n node).sb := by
  rcases @settle_eq p rh_id n node with ⟨b, decr, hEq⟩
  rw [hEq]
  have hSet := hWindow.set hLow hHigh
    (⟨hOk.seq_no, hOk.ack_flag, hOk.sack_flag⟩ :
      EntryOk { node with
        retran := false
        snd_nxt := if node.retran then 0 else node.snd_nxt }
        n (Covered n))
  exact ⟨hSet.first, hSet.nonneg, hSet.length, hSet.ordered,
    hSet.fits, hSet.last, hSet.entries, hSet.above⟩

theorem settle_sack_max :
    (settle rh_id p n node).sack_max = p.sack_max := by
  rcases @settle_eq p rh_id n node with ⟨b, decr, hEq⟩
  rw [hEq]

theorem Window.ackEntry
    (hWindow : Window low high Covered p.sb)
    (hLe : low ≤ high) :
    Window (low + 1) high Covered
        (ackEntry rh_id p low).sb ∧
      (ackEntry rh_id p low).sack_max = p.sack_max := by
  refine ⟨?_, settle_sack_max⟩
  have hFits := hWindow.fits
  have hFirst := hWindow.first
  have hLength := hWindow.length
  unfold ScoreBoardRH.ackEntry
  dsimp only
  rcases @settle_eq p rh_id low
      { p.sb.get low with ack_flag := true, sack_flag := true }
    with ⟨b, decr, hEq⟩
  rw [hEq]
  constructor
  case first =>
    show (p.sb.first + 1) % SBSIZE = _
    rw [hFirst]
    unfold SBSIZE
    omega
  case nonneg => exact Int.le_add_one hWindow.nonneg
  case length =>
    show p.sb.length - 1 = _
    omega
  case ordered => omega
  case fits => omega
  case last =>
    by_cases hLast : high = low
    · subst hLast
      exact (congrArg _ get_set_self).trans hWindow.last
    · have hSame := fun node => @get_set_of_ne p.sb low high
        node hLast (by omega) (by omega)
      exact (congrArg _ (hSame _)).trans hWindow.last
  case entries =>
    intro k hkLow hkHigh
    have hSame := fun node => @get_set_of_ne p.sb low k node
      (by omega) (by omega) (by omega)
    have hOld := hWindow.entries k (by omega) hkHigh
    rw [← hSame] at hOld
    exact hOld
  case above => exact hWindow.above

/- The loop stops where the entries end, or after `last_ack`. -/
theorem Window.advance
    (hWindow : Window low high Covered p.sb)
    (hLe : low ≤ high)
    (hAck : low ≤ last_ack + 1) :
    ∃ p',
      advance rh_id last_ack (Int.range low (last_ack + 1)) p =
          some p' ∧
        p'.sack_max = p.sack_max ∧
        (high ≤ last_ack → p'.sb.length = 0) ∧
        (last_ack ≤ high →
          Window (last_ack + 1) high Covered p'.sb) := by
  generalize hCount : (last_ack + 1 - low).toNat = count
  induction count generalizing low p with
  | zero =>
      have hLow : low = last_ack + 1 := by omega
      subst hLow
      rw [CircularArray.range_eq_nil le_rfl]
      exact ⟨p, rfl, rfl, fun _ => by omega, fun _ => hWindow⟩
  | succ count ih =>
      rw [CircularArray.range_cons (by omega)]
      have hSeq := (hWindow.entries low le_rfl hLe).seq_no
      have hLength := hWindow.length
      rcases @Window.ackEntry p low high rh_id Covered hWindow
        hLe with ⟨hRest, hMax⟩
      unfold ScoreBoardRH.advance
      rw [if_pos (by omega), if_neg (not_not.mpr hWindow.first),
        if_neg (by omega)]
      dsimp only
      by_cases hLast : low = high
      · rw [if_pos (by rw [hRest.length]; omega)]
        refine ⟨_, rfl, hMax, ?_, ?_⟩
        · intro _
          rw [hRest.length]
          omega
        · intro hEnd
          rw [show last_ack = low by omega]
          exact hRest
      · rw [if_neg (by rw [hRest.length]; omega)]
        rcases ih hRest (by omega) (by omega) (by omega) with
          ⟨p', hRun, hMax', hDone⟩
        exact ⟨p', hRun, hMax'.trans hMax, hDone⟩

end ScoreBoardRH

end Ns2

------------------------------------------------------------
-- The right edge
------------------------------------------------------------

namespace Ns2

namespace ScoreBoardRH

variable {sb : ScoreBoardRH}
variable {low high last_ack bound : Int}
variable {Covered : Int → Prop}

theorem entryOk_freshNode
    {n : Int}
    {covered : Prop}
    (hCovered : ¬ covered) :
    EntryOk (freshNode n) n covered := by
  exact ⟨rfl, rfl, fun hIn => absurd hIn hCovered⟩

/- A new entry at the right edge. -/
theorem Window.createEntry
    (hWindow : Window low high Covered sb)
    (hRoom : high + 3 < low + SBSIZE) :
    ∃ sb',
      createEntry sb (high + 1) = some sb' ∧
        Window low (high + 1) Covered sb' := by
  have hLength := hWindow.length
  have hOrdered := hWindow.ordered
  have hFresh :=
    @entryOk_freshNode (high + 1) _
      (hWindow.above (high + 1) (by omega))
  rw [← @get_set_self sb (high + 1)
    (freshNode (high + 1))] at hFresh
  refine ⟨_, if_neg ?_, ?_⟩
  · show ¬ SBSIZE ≤ sb.length + 1
    omega
  constructor
  case first => exact hWindow.first
  case nonneg => exact hWindow.nonneg
  case length =>
    show sb.length + 1 = _
    omega
  case ordered => omega
  case fits => omega
  case last => exact hFresh.seq_no
  case entries =>
    intro n hLow hHigh
    by_cases hNew : n = high + 1
    · subst hNew
      exact hFresh
    · have hSame := @get_set_of_ne sb (high + 1) n
        (freshNode (high + 1)) hNew (by omega) (by omega)
      have hOld := hWindow.entries n hLow (by omega)
      rw [← hSame] at hOld
      exact hOld
  case above =>
    exact fun n hn => hWindow.above n (by omega)

/- New entries up to a block's end. -/
theorem Window.createEntries
    (hWindow : Window low high Covered sb)
    (hRoom : bound + 1 < low + SBSIZE)
    (hBound : high < bound) :
    ∃ sb',
      PartialRun.run ScoreBoardRH.createEntry sb
          (Int.range (high + 1) bound) = some sb' ∧
        Window low (bound - 1) Covered sb' := by
  generalize hCount : (bound - (high + 1)).toNat = count
  induction count generalizing high sb with
  | zero =>
      have hSame : bound = high + 1 := by omega
      subst hSame
      rw [CircularArray.range_eq_nil le_rfl,
        Int.add_sub_cancel]
      exact ⟨sb, rfl, hWindow⟩
  | succ count ih =>
      rw [CircularArray.range_cons (by omega)]
      rcases hWindow.createEntry (by omega) with
        ⟨sb₁, hCreate, hWindow₁⟩
      rcases ih hWindow₁ (by omega) (by omega) with
        ⟨sb', hRun, hWindow'⟩
      refine ⟨sb', ?_, hWindow'⟩
      simp only [PartialRun.run, hCreate, Option.bind_some]
      exact hRun

theorem Window.extend
    {sack_right : Int}
    (hWindow : Window low high Covered sb)
    (hRoom : sack_right + 1 < low + SBSIZE) :
    ∃ sb',
      extend sack_right sb = some sb' ∧
        Window low (max high (sack_right - 1)) Covered sb' := by
  unfold ScoreBoardRH.extend
  rw [hWindow.lastSeq]
  by_cases hNew : high < sack_right
  · rw [if_pos hNew, max_eq_right (by omega)]
    exact hWindow.createEntries hRoom hNew
  · rw [if_neg hNew, max_eq_left (by omega)]
    exact ⟨sb, rfl, hWindow⟩

/- A scoreboard that was empty has one entry. -/
theorem window_create
    (hLength : sb.length = 0)
    (hAck : -1 ≤ last_ack)
    (hCovered : ∀ n, Covered n → n ≤ last_ack) :
    ∃ sb',
      create sb last_ack = some sb' ∧
        Window (last_ack + 1) (last_ack + 1) Covered sb' := by
  have hFresh :=
    @entryOk_freshNode (last_ack + 1) (Covered (last_ack + 1))
      (fun hIn => by
        have hLe := hCovered _ hIn
        omega)
  rw [← @get_set_self sb (last_ack + 1)
    (freshNode (last_ack + 1))] at hFresh
  unfold create createEntry
  rw [if_pos hLength]
  dsimp only
  refine ⟨_, congrArg _ (if_neg ?_), ?_⟩
  · show ¬ SBSIZE ≤ sb.length + 1
    rw [hLength]
    decide
  constructor
  case first => rfl
  case nonneg => omega
  case length =>
    show sb.length + 1 = _
    omega
  case ordered => omega
  case fits =>
    unfold SBSIZE
    omega
  case last => exact hFresh.seq_no
  case entries =>
    intro n hLow hHigh
    have hSame : n = last_ack + 1 := by omega
    subst hSame
    exact hFresh
  case above =>
    intro n hn hIn
    have hLe := hCovered n hIn
    omega

end ScoreBoardRH

end Ns2

------------------------------------------------------------
-- Blocks
------------------------------------------------------------

namespace Ns2

namespace ScoreBoardRH

variable {p : Progress}
variable {sb : ScoreBoardRH}
variable {low high last_ack rh_id : Int}
variable {sack_left sack_right : Int}
variable {Covered : Int → Prop}

/- The entry of a number in a block is flagged. -/
theorem Window.sackEntry
    {n : Int}
    (hWindow : Window low high Covered p.sb)
    (hLow : low ≤ n)
    (hHigh : n ≤ high) :
    Window low high
        (fun k => Covered k ∨
          (k = n ∧ sack_left ≤ n ∧ n < sack_right))
        (sackEntry rh_id sack_left sack_right p n).sb ∧
      (sackEntry rh_id sack_left sack_right p n).sack_max =
        p.sack_max := by
  have hOk := hWindow.entries n hLow hHigh
  unfold ScoreBoardRH.sackEntry
  dsimp only
  by_cases hIn : sack_left ≤ n ∧ n < sack_right
  · rw [if_pos (by rw [hOk.seq_no]; exact hIn)]
    refine ⟨?_, settle_sack_max⟩
    have hSettled := @Window.settle p low high rh_id n Covered
      { p.sb.get n with sack_flag := true } hWindow hLow hHigh
      ⟨hOk.seq_no, hOk.ack_flag, fun _ => rfl⟩
    apply hSettled.cover
    · intro k hkLow hkHigh hk
      rcases hk with hOld | ⟨rfl, -⟩
      · exact Or.inl hOld
      · right
        rcases @settle_eq p rh_id k
            { p.sb.get k with sack_flag := true } with
          ⟨b, decr, hEq⟩
        rw [hEq]
        exact congrArg ScoreBoardRHNode.sack_flag get_set_self
    · intro k hk hOr
      exact hOr.elim (hWindow.above k hk) (by omega)
  · rw [if_neg (by rw [hOk.seq_no]; exact hIn)]
    refine ⟨?_, rfl⟩
    apply hWindow.cover
    · intro k _ _ hk
      exact Or.inl (hk.resolve_right fun hEq => hIn hEq.2)
    · intro k hk hOr
      exact hOr.elim (hWindow.above k hk)
        (fun hEq => hIn hEq.2)

/- The loop over the entries below a block's end. -/
theorem Window.sackEntries
    {start bound : Int}
    (hWindow : Window low high Covered p.sb)
    (hLow : low ≤ start)
    (hHigh : bound ≤ high + 1) :
    Window low high
        (fun k => Covered k ∨
          ((start ≤ k ∧ k < bound) ∧
            sack_left ≤ k ∧ k < sack_right))
        ((Int.range start bound).foldl
          (ScoreBoardRH.sackEntry rh_id sack_left sack_right)
          p).sb ∧
      ((Int.range start bound).foldl
        (ScoreBoardRH.sackEntry rh_id sack_left sack_right)
        p).sack_max = p.sack_max := by
  generalize hCount : (bound - start).toNat = count
  induction count generalizing start p Covered with
  | zero =>
      rw [CircularArray.range_eq_nil (by omega)]
      refine ⟨?_, rfl⟩
      apply hWindow.cover
      · intro k _ _ hk
        exact Or.inl (hk.resolve_right fun hEq => by omega)
      · intro k hk hOr
        exact hOr.elim (hWindow.above k hk) (by omega)
  | succ count ih =>
      rw [CircularArray.range_cons (by omega), List.foldl_cons]
      rcases @Window.sackEntry p low high rh_id sack_left
          sack_right Covered start hWindow hLow (by omega) with
        ⟨hFirst, hMax⟩
      rcases @ih _ _ (start + 1) hFirst (by omega) (by omega)
        with ⟨hRest, hMax'⟩
      refine ⟨?_, hMax'.trans hMax⟩
      apply hRest.cover
      · intro k _ _ hk
        left
        rcases hk with hOld | ⟨⟨hStart, hEnd⟩, hIn⟩
        · exact Or.inl (Or.inl hOld)
        · by_cases hkFirst : k = start
          · subst hkFirst
            exact Or.inl (Or.inr ⟨rfl, hIn⟩)
          · exact Or.inr ⟨⟨by omega, hEnd⟩, hIn⟩
      · intro k hk hOr
        exact hOr.elim (hWindow.above k hk) (by omega)

/- A block without numbers in it is passed over. -/
theorem sackEntries_empty
    (hEmpty : sack_right ≤ sack_left)
    (is : List Int) :
    is.foldl (sackEntry rh_id sack_left sack_right) p = p := by
  induction is with
  | nil => rfl
  | cons i is ih =>
      rw [List.foldl_cons]
      unfold sackEntry
      dsimp only
      rw [if_neg (by omega)]
      exact ih

/- One block: new entries first, then the flags. -/
theorem Window.sackBlock
    (hWindow : Window low high Covered p.sb)
    (hMax : p.sack_max ≤ high + 1)
    {block : Int × Int}
    (hLeft : low ≤ block.1)
    (hRight : block.2 + 1 < low + SBSIZE) :
    ∃ p' high',
      sackBlock rh_id p block = some p' ∧
        high ≤ high' ∧ p'.sack_max ≤ high' + 1 ∧
        Window low high'
          (fun k => Covered k ∨ (block.1 ≤ k ∧ k < block.2))
          p'.sb := by
  rcases hWindow.extend hRight with ⟨sb₁, hExtend, hWindow₁⟩
  have hLess :
      (if p.sack_max < block.2 then block.2
        else p.sack_max) ≤ max high (block.2 - 1) + 1 := by
    split_ifs
    · omega
    · omega
  unfold ScoreBoardRH.sackBlock
  rw [hExtend, Option.map_some]
  by_cases hEmpty : block.2 ≤ block.1
  · rw [sackEntries_empty hEmpty]
    refine ⟨_, max high (block.2 - 1), rfl, le_max_left _ _,
      hLess, ?_⟩
    apply hWindow₁.cover
    · intro k _ _ hk
      exact Or.inl (hk.resolve_right fun hIn => by omega)
    · intro k hk hOr
      exact hOr.elim (hWindow₁.above k hk) (by omega)
  · rw [hWindow₁.firstSeq (by omega)]
    rcases @Window.sackEntries
        { p with
          sb := sb₁
          sack_max :=
            if p.sack_max < block.2 then block.2
            else p.sack_max }
        low _ rh_id block.1 block.2 Covered low block.2
        hWindow₁ le_rfl (by omega) with
      ⟨hDone, hSame⟩
    refine ⟨_, max high (block.2 - 1), rfl, le_max_left _ _,
      hSame.trans_le hLess, ?_⟩
    apply hDone.cover
    · intro k hkLow _ hk
      left
      rcases hk with hOld | ⟨hStart, hEnd⟩
      · exact Or.inl hOld
      · exact Or.inr ⟨⟨hkLow, hEnd⟩, hStart, hEnd⟩
    · intro k hk hOr
      exact hOr.elim (hWindow₁.above k hk) (by omega)

theorem Window.sackBlocks
    (hWindow : Window low high Covered p.sb)
    (hMax : p.sack_max ≤ high + 1)
    {blocks : List (Int × Int)}
    (hBlocks : ∀ block ∈ blocks,
      low ≤ block.1 ∧ block.2 + 1 < low + SBSIZE) :
    ∃ p' high',
      PartialRun.run (ScoreBoardRH.sackBlock rh_id) p blocks =
          some p' ∧
        high ≤ high' ∧ p'.sack_max ≤ high' + 1 ∧
        Window low high'
          (fun k => Covered k ∨
            ∃ block ∈ blocks, block.1 ≤ k ∧ k < block.2)
          p'.sb := by
  induction blocks generalizing p high Covered with
  | nil =>
      refine ⟨p, high, rfl, le_rfl, hMax, ?_⟩
      apply hWindow.cover
      · intro k _ _ hk
        exact Or.inl (hk.resolve_right
          fun hIn => by simp at hIn)
      · intro k hk hOr
        exact hOr.elim (hWindow.above k hk)
          (fun hIn => by simp at hIn)
  | cons block blocks ih =>
      have hNow := hBlocks block List.mem_cons_self
      rcases @Window.sackBlock p low high rh_id Covered
          hWindow hMax block hNow.1 hNow.2 with
        ⟨p₁, high₁, hBlock, hLe, hMax₁, hWindow₁⟩
      rcases ih hWindow₁ hMax₁ (fun b hb =>
          hBlocks b (List.mem_cons_of_mem _ hb)) with
        ⟨p', high', hRun, hLe', hMax', hWindow'⟩
      refine ⟨p', high', ?_, hLe.trans hLe', hMax', ?_⟩
      · simp only [PartialRun.run, hBlock, Option.bind_some]
        exact hRun
      · simp only [List.mem_cons, exists_eq_or_imp]
        simp only [or_assoc] at hWindow'
        exact hWindow'

end ScoreBoardRH

end Ns2

------------------------------------------------------------
-- Reports
------------------------------------------------------------

namespace Ns2

namespace ScoreBoardRH

variable {sb : ScoreBoardRH}
variable {low high sack_max : Int}
variable {Covered : Int → Prop}

/- Counting reports leaves numbers and flags alone. -/
theorem Window.countHoles
    (hWindow : Window low high Covered sb)
    (hMax : sack_max ≤ high + 1) :
    Window low high Covered (countHoles sb sack_max) := by
  unfold ScoreBoardRH.countHoles
  have hLength := hWindow.length
  split_ifs with hSome
  · have hOrdered := hWindow.ordered
    rw [hWindow.firstSeq (by omega)]
    refine @Window.foldl _ _ _ _ id _ _ _ hWindow ?_ hMax
    intro sb₁ n hLow hHigh hWindow₁
    unfold ScoreBoardRH.countHole
    have hOk := hWindow₁.entries n hLow hHigh
    dsimp only [id] at hOk ⊢
    split_ifs
    · exact hWindow₁.set hLow hHigh
        ⟨hOk.seq_no, hOk.ack_flag, hOk.sack_flag⟩
    · exact hWindow₁
  · exact hWindow

theorem Window.checkSndNxt
    (hWindow : Window low high Covered sb)
    (hMax : sack_max ≤ high + 1) :
    Window low high Covered (checkSndNxt sb sack_max).1 := by
  unfold ScoreBoardRH.checkSndNxt
  have hLength := hWindow.length
  split_ifs with hSome
  · have hOrdered := hWindow.ordered
    rw [hWindow.firstSeq (by omega)]
    refine @Window.foldl _ _ _ _ Prod.fst _ _ _
      hWindow ?_ hMax
    intro r n hLow hHigh hWindow₁
    unfold ScoreBoardRH.checkEntry
    have hOk := hWindow₁.entries n hLow hHigh
    dsimp only
    split_ifs
    · exact hWindow₁.set hLow hHigh
        ⟨hOk.seq_no, hOk.ack_flag, hOk.sack_flag⟩
    · exact hWindow₁
  · exact hWindow

end ScoreBoardRH

end Ns2

------------------------------------------------------------
-- Updates
------------------------------------------------------------

namespace Ns2

namespace ScoreBoardRH

/-
  All numbers in blocks are flagged or acknowledged, and there
  are entries above what is acknowledged, or none.
-/
def Keeps
    (ack : Int)
    (Covered : Int → Prop)
    (sb : ScoreBoardRH) : Prop :=
  (sb.length = 0 ∧ ∀ n, Covered n → n ≤ ack) ∨
    ∃ high, ack < high ∧ Window (ack + 1) high Covered sb

variable {sb : ScoreBoardRH}
variable {ack last_ack high rh_id : Int}
variable {Covered : Int → Prop}
variable {blocks : List (Int × Int)}

/- The numbers in blocks, once more blocks have come. -/
def CoveredWith
    (Covered : Int → Prop)
    (blocks : List (Int × Int))
    (n : Int) : Prop :=
  Covered n ∨ ∃ block ∈ blocks, block.1 ≤ n ∧ n < block.2

/- What comes after the left edge has been advanced. -/
theorem keeps_finish
    {p : Progress}
    (hWindow : Window (last_ack + 1) high Covered p.sb)
    (hMax : p.sack_max = 0)
    (hBlocks : ∀ block ∈ blocks,
      last_ack < block.1 ∧
        block.2 - last_ack < SBSIZE - 1) :
    ∃ p',
      PartialRun.run (sackBlock rh_id) p blocks = some p' ∧
        Keeps last_ack (CoveredWith Covered blocks)
          (report p').1 := by
  have hNonneg := hWindow.nonneg
  have hOrdered := hWindow.ordered
  have hRoom : ∀ block ∈ blocks,
      last_ack + 1 ≤ block.1 ∧
        block.2 + 1 < last_ack + 1 + SBSIZE := by
    intro block hBlock
    have hIn := hBlocks block hBlock
    omega
  rcases @Window.sackBlocks p _ _ rh_id _ hWindow (by omega) _
      hRoom with
    ⟨p', high', hRun, hLe, hMax', hWindow'⟩
  refine ⟨p', hRun, ?_⟩
  have hDone := (hWindow'.countHoles hMax').checkSndNxt hMax'
  by_cases hSome : last_ack < high'
  · exact Or.inr ⟨high', hSome, hDone⟩
  · left
    have hLength : (report p').1.length =
        high' + 1 - (last_ack + 1) := hDone.length
    refine ⟨by omega, fun n hn => ?_⟩
    by_contra hAbove
    exact hDone.above n (by omega) hn

/-
  An update goes through and keeps the invariant, unless new
  blocks come with an acknowledgement above all entries.
-/
theorem Keeps.updateScoreBoard
    (hKeeps : Keeps ack Covered sb)
    (hAck : ack ≤ last_ack)
    (hLow : -1 ≤ last_ack)
    (hBlocks : ∀ block ∈ blocks,
      last_ack < block.1 ∧ block.2 - last_ack < SBSIZE - 1)
    (hGood : blocks = [] ∨ last_ack ≤ sb.getFack last_ack) :
    ∃ r,
      updateScoreBoard sb last_ack blocks rh_id = some r ∧
        Keeps last_ack (CoveredWith Covered blocks) r.1 := by
  unfold ScoreBoardRH.updateScoreBoard
  have hNil : blocks = [] →
      ∀ n, CoveredWith Covered blocks n → Covered n := by
    intro hEmpty n hn
    rw [hEmpty] at hn
    exact hn.resolve_right fun hIn => by simp at hIn
  rcases hKeeps with ⟨hLength, hCovered⟩ | ⟨high, hSome, hWindow⟩
  · have hBelow : ∀ n, Covered n → n ≤ last_ack :=
      fun n hn => (hCovered n hn).trans hAck
    by_cases hEmpty : blocks = []
    · rw [if_pos ⟨hEmpty, hLength⟩]
      exact ⟨_, rfl, Or.inl ⟨hLength, fun n hn =>
        hBelow n (hNil hEmpty n hn)⟩⟩
    · rw [if_neg (fun hBoth => hEmpty hBoth.1)]
      rcases window_create hLength hLow hBelow with
        ⟨sb₁, hCreate, hWindow⟩
      have hEdge : advanceEdge rh_id last_ack sb₁ =
          some ⟨sb₁, 0, 0⟩ := by
        unfold advanceEdge
        rw [hWindow.firstSeq le_rfl, if_neg (by omega)]
      rcases @keeps_finish last_ack _ rh_id Covered blocks
          ⟨sb₁, 0, 0⟩ hWindow rfl hBlocks with
        ⟨p', hRun, hDone⟩
      refine ⟨_, ?_, hDone⟩
      rw [hCreate]
      simp only [Option.bind_eq_bind, Option.bind_some, hEdge,
        hRun]
      rfl
  · have hLength := hWindow.length
    have hCreate : create sb last_ack = some sb := by
      unfold create
      rw [if_neg (by omega)]
    have hFirst := hWindow.firstSeq (by omega)
    have hFack : sb.getFack last_ack = high := by
      unfold getFack
      rw [if_pos (by omega), hFirst]
      omega
    rw [if_neg (fun hBoth => by omega), hCreate]
    simp only [Option.bind_eq_bind, Option.bind_some]
    unfold advanceEdge
    rw [hFirst]
    by_cases hMoves : ack + 1 ≤ last_ack
    · rw [if_pos hMoves]
      rcases @Window.advance ⟨sb, 0, 0⟩ _ _ last_ack rh_id _
          hWindow (by omega) (by omega) with
        ⟨p₁, hRun₁, hMax₁, hGone, hRest⟩
      rw [hRun₁, Option.bind_some]
      by_cases hIn : last_ack ≤ high
      · rcases @keeps_finish last_ack _ rh_id Covered blocks p₁
            (hRest hIn) hMax₁ hBlocks with
          ⟨p', hRun, hDone⟩
        refine ⟨_, ?_, hDone⟩
        rw [hRun]
        rfl
      · -- All entries are gone, and no blocks came.
        have hEmpty : blocks = [] :=
          hGood.resolve_right (by omega)
        have hZero := hGone (by omega)
        rw [hEmpty]
        refine ⟨_, rfl, Or.inl ⟨?_, ?_⟩⟩
        · unfold report countHoles checkSndNxt
          rw [if_neg (not_not.mpr hZero),
            if_neg (not_not.mpr hZero)]
          exact hZero
        · intro n hn
          by_contra hAbove
          exact hWindow.above n (by omega)
            (hNil hEmpty n (hEmpty ▸ hn))
    · have hSame : last_ack = ack := by omega
      subst hSame
      rw [if_neg hMoves, Option.bind_some]
      rcases @keeps_finish last_ack _ rh_id Covered blocks
          ⟨sb, 0, 0⟩ hWindow rfl hBlocks with
        ⟨p', hRun, hDone⟩
      refine ⟨_, ?_, hDone⟩
      rw [hRun]
      rfl

end ScoreBoardRH

end Ns2

------------------------------------------------------------
-- Runs
------------------------------------------------------------

namespace Ns2

namespace ScoreBoardRH

variable {sb : ScoreBoardRH}
variable {ack : Int}

def lastAcks (calls : List Call) : List Int :=
  calls.filterMap fun
    | .updateScoreBoard last_ack _ _ => some last_ack
    | _ => none

def received (calls : List Call) : List (Int × Int) :=
  calls.flatMap fun
    | .updateScoreBoard _ blocks _ => blocks
    | _ => []

/- A number in a block that has been received. -/
def Covered
    (calls : List Call)
    (n : Int) : Prop :=
  ∃ block ∈ received calls, block.1 ≤ n ∧ n < block.2

/-
  The cumulative acknowledgement does not go back, blocks are
  above it and fit the array, and what is marked is what was
  to be sent next.
-/
def Allowed
    (before : List Call)
    (sb : ScoreBoardRH) : Call → Prop
| .updateScoreBoard last_ack blocks _ =>
    (-1 ≤ last_ack ∧ ∀ a ∈ lastAcks before, a ≤ last_ack) ∧
      ∀ block ∈ blocks,
        last_ack < block.1 ∧ block.2 - last_ack < SBSIZE - 1
| .markRetran retran_seqno _ _ =>
    retran_seqno ≠ -1 ∧
      ∃ numdupacks, retran_seqno = sb.getNextRetran numdupacks

/- Blocks do not come with a jump over the whole scoreboard. -/
def Good (sb : ScoreBoardRH) : Call → Prop
| .updateScoreBoard last_ack blocks _ =>
    blocks = [] ∨ last_ack ≤ sb.getFack last_ack
| .markRetran _ _ _ => True

/- What the scoreboard says about the calls so far. -/
structure Meets
    (calls : List Call)
    (sb : ScoreBoardRH) : Prop where
  consecutive : ∃ low,
    sb.live.map ScoreBoardRHNode.seq_no =
      Int.range low (low + sb.length)
  unacknowledged : ∀ node ∈ sb.live,
    ∀ a ∈ lastAcks calls, a < node.seq_no
  nextRetran : ∀ numdupacks n,
    n = sb.getNextRetran numdupacks → n ≠ -1 →
      (∀ a ∈ lastAcks calls, a < n) ∧ ¬ Covered calls n

/- The invariant, with the last acknowledgement. -/
def Inv
    (calls : List Call)
    (sb : ScoreBoardRH) : Prop :=
  ∃ ack,
    (∀ a ∈ lastAcks calls, a ≤ ack) ∧
      (ack = -1 ∨ ack ∈ lastAcks calls) ∧
      Keeps ack (Covered calls) sb

variable {high : Int}
variable {C : Int → Prop}

theorem Window.live
    (hWindow : Window (ack + 1) high C sb) :
    sb.live =
      (Int.range (ack + 1) (ack + 1 + sb.length)).map
        sb.get := by
  unfold ScoreBoardRH.live Int.range
  rw [show sb.first + sb.length - sb.first = sb.length by omega,
    show ack + 1 + sb.length - (ack + 1) = sb.length by omega,
    List.map_map, List.map_map]
  apply List.map_congr_left
  intro k _
  apply get_of_slot
  rw [hWindow.first]
  exact Int.emod_add_emod (ack + 1) SBSIZE k

/- A number that is to be sent again has a bare entry. -/
theorem Window.nextRetran
    (hWindow : Window (ack + 1) high C sb)
    (hSome : ack < high)
    {numdupacks n : Int}
    (hNext : n = sb.getNextRetran numdupacks)
    (hn : n ≠ -1) :
    ack < n ∧ n ≤ high ∧ ¬ C n := by
  have hLength := hWindow.length
  unfold getNextRetran at hNext
  rw [if_pos (by omega), hWindow.firstSeq (by omega)] at hNext
  cases hFind : (Int.range (ack + 1)
      (ack + 1 + sb.length)).find? fun i =>
        !(sb.get i).ack_flag && !(sb.get i).sack_flag &&
          !(sb.get i).retran &&
          decide (numdupacks ≤ (sb.get i).sack_cnt) with
  | none =>
      rw [hFind] at hNext
      exact absurd hNext hn
  | some i =>
      rw [hFind] at hNext
      have hSame : n = i := hNext
      subst hSame
      have hRange := Int.mem_range_iff.mp
        (List.mem_of_find?_eq_some hFind)
      have hFlags := List.find?_some hFind
      have hOk := hWindow.entries n (by omega) (by omega)
      refine ⟨by omega, by omega, ?_⟩
      intro hCovered
      rw [hOk.sack_flag hCovered] at hFlags
      simp at hFlags

theorem Keeps.meets
    {calls : List Call}
    (hKeeps : Keeps ack (Covered calls) sb)
    (hAcks : ∀ a ∈ lastAcks calls, a ≤ ack) :
    sb.Meets calls := by
  rcases hKeeps with ⟨hLength, -⟩ | ⟨high, hSome, hWindow⟩
  · have hLive : sb.live = [] := by
      unfold ScoreBoardRH.live
      rw [CircularArray.range_eq_nil (by omega)]
      rfl
    constructor
    case consecutive =>
      refine ⟨0, ?_⟩
      rw [hLive, CircularArray.range_eq_nil (by omega)]
      rfl
    case unacknowledged =>
      intro node hNode
      rw [hLive] at hNode
      cases hNode
    case nextRetran =>
      intro numdupacks n hNext hn
      unfold getNextRetran at hNext
      rw [if_neg (not_not.mpr hLength)] at hNext
      exact absurd hNext hn
  · have hLength := hWindow.length
    have hSeq : ∀ n ∈ Int.range (ack + 1)
        (ack + 1 + sb.length),
        (ScoreBoardRHNode.seq_no ∘ sb.get) n = id n := by
      intro n hn
      have hRange := Int.mem_range_iff.mp hn
      exact (hWindow.entries n (by omega) (by omega)).seq_no
    constructor
    case consecutive =>
      refine ⟨ack + 1, ?_⟩
      rw [hWindow.live, List.map_map,
        List.map_congr_left hSeq, List.map_id]
    case unacknowledged =>
      intro node hNode a ha
      rw [hWindow.live] at hNode
      rcases List.mem_map.mp hNode with ⟨n, hn, rfl⟩
      have hEq : (sb.get n).seq_no = n := hSeq n hn
      have hRange := Int.mem_range_iff.mp hn
      have hLe := hAcks a ha
      omega
    case nextRetran =>
      intro numdupacks n hNext hn
      rcases hWindow.nextRetran hSome hNext hn with
        ⟨hLow, -, hCovered⟩
      exact ⟨fun a ha => (hAcks a ha).trans_lt hLow,
        hCovered⟩

/- Every allowed and good call goes through. -/
theorem Inv.call
    {before : List Call}
    {c : Call}
    (hInv : Inv before sb)
    (hAllowed : Allowed before sb c)
    (hGood : Good sb c) :
    ∃ sb', call sb c = some sb' ∧ Inv (before ++ [c]) sb' := by
  rcases hInv with ⟨ack, hAcks, hAck, hKeeps⟩
  have hAcksNext : lastAcks (before ++ [c]) =
      lastAcks before ++ lastAcks [c] := List.filterMap_append
  have hReceived : received (before ++ [c]) =
      received before ++ received [c] := List.flatMap_append
  cases c with
  | updateScoreBoard last_ack blocks rh_id =>
      rcases hAllowed with ⟨⟨hLow, hLast⟩, hBlocks⟩
      have hLe : ack ≤ last_ack :=
        hAck.elim (fun hFirst => hFirst ▸ hLow)
          (fun hMem => hLast ack hMem)
      have hCovered :
          CoveredWith (Covered before) blocks =
            Covered (before ++
              [.updateScoreBoard last_ack blocks rh_id]) := by
        funext n
        unfold CoveredWith Covered
        rw [hReceived, show received
          [.updateScoreBoard last_ack blocks rh_id] = blocks
            from List.append_nil blocks]
        simp only [List.mem_append, or_and_right, exists_or]
      rcases @Keeps.updateScoreBoard sb ack last_ack rh_id _
          blocks hKeeps hLe hLow hBlocks hGood with
        ⟨r, hUpdate, hKeeps'⟩
      refine ⟨r.1, ?_, last_ack, ?_, ?_, hCovered ▸ hKeeps'⟩
      · unfold ScoreBoardRH.call
        dsimp only
        rw [hUpdate]
        rfl
      · rw [hAcksNext]
        intro a ha
        rcases List.mem_append.mp ha with hOld | hNew
        · exact hLast a hOld
        · exact (List.mem_singleton.mp hNew).le
      · rw [hAcksNext]
        exact Or.inr (List.mem_append_right _
          (List.mem_singleton_self _))
  | markRetran retran_seqno snd_nxt rh_id =>
      have hNoAcks : lastAcks (before ++
          [.markRetran retran_seqno snd_nxt rh_id]) =
            lastAcks before :=
        hAcksNext.trans (List.append_nil _)
      have hCovered : Covered (before ++
          [.markRetran retran_seqno snd_nxt rh_id]) =
            Covered before := by
        unfold Covered
        rw [hReceived.trans (List.append_nil _)]
      rcases hAllowed with ⟨hSome, numdupacks, hNext⟩
      refine ⟨_, rfl, ack, ?_⟩
      rw [hNoAcks, hCovered]
      refine ⟨hAcks, hAck, ?_⟩
      rcases hKeeps with ⟨hLength, -⟩ | ⟨high, hLess, hWindow⟩
      · unfold getNextRetran at hNext
        rw [if_neg (not_not.mpr hLength)] at hNext
        exact absurd hNext hSome
      · right
        rcases hWindow.nextRetran hLess hNext hSome with
          ⟨hLow, hHigh, -⟩
        have hOk := hWindow.entries retran_seqno hLow hHigh
        have hSet := @Window.set sb retran_seqno
          { sb.get retran_seqno with
            retran := true
            snd_nxt := snd_nxt
            rh_id := rh_id } _ _ _ hWindow hLow hHigh
          ⟨hOk.seq_no, hOk.ack_flag, hOk.sack_flag⟩
        exact ⟨high, hLess, hSet.first, hSet.nonneg,
          hSet.length, hSet.ordered, hSet.fits, hSet.last,
          hSet.entries, hSet.above⟩

/-
  In every run of allowed and good calls, the scoreboard has
  only what is neither acknowledged nor in a block sent again.
-/
theorem retransmits_unacknowledged
    {retran_sacked : Int}
    {sbn : Int → ScoreBoardRHNode}
    {calls : List Call}
    (hCalls : ∀ before c after sb,
      calls = before ++ c :: after →
        PartialRun.run call (new retran_sacked sbn) before =
          some sb →
        Allowed before sb c ∧ Good sb c) :
    ∃ sb,
      PartialRun.run call (new retran_sacked sbn) calls =
          some sb ∧
        sb.Meets calls := by
  have hNew : Inv [] (new retran_sacked sbn) := by
    refine ⟨-1, fun a ha => absurd ha List.not_mem_nil,
      Or.inl rfl, Or.inl ⟨rfl, ?_⟩⟩
    rintro n ⟨block, hBlock, -⟩
    cases hBlock
  have hRun := @PartialRun.progress _ _ call Inv
    (fun before sb c => Allowed before sb c ∧ Good sb c)
    (fun before sb c hInv hc => hInv.call hc.1 hc.2)
    _ _ hNew hCalls
  rcases hRun with ⟨sb, hRun, ack, hAcks, -, hKeeps⟩
  exact ⟨sb, hRun, hKeeps.meets hAcks⟩

/- What an array may hold that nothing was written to. -/
def garbage (_ : Int) : ScoreBoardRHNode where
  seq_no := 3
  ack_flag := true
  sack_flag := false
  retran := true
  snd_nxt := 9
  sack_cnt := 0
  rh_id := 7

/- 0 is sent again after two reports, then 1 is acknowledged. -/
theorem retransmits_unacknowledged_hole :
    ∃ sb,
      PartialRun.run call (new 0 garbage)
          [.updateScoreBoard (-1) [(1, 3)] 0,
            .updateScoreBoard (-1) [(1, 4)] 0,
            .markRetran 0 9 0,
            .updateScoreBoard 1 [(5, 6)] 0] = some sb ∧
        sb.getNextRetran 1 = 4 ∧
        sb.Meets
          [.updateScoreBoard (-1) [(1, 3)] 0,
            .updateScoreBoard (-1) [(1, 4)] 0,
            .markRetran 0 9 0,
            .updateScoreBoard 1 [(5, 6)] 0] := by
  have hTwo :
      (PartialRun.run call (new 0 garbage)
        [.updateScoreBoard (-1) [(1, 3)] 0]).map
          (fun sb => sb.getFack (-1)) = some 2 := by
    decide +kernel
  have hThree :
      (PartialRun.run call (new 0 garbage)
        [.updateScoreBoard (-1) [(1, 3)] 0,
          .updateScoreBoard (-1) [(1, 4)] 0]).map
          (fun sb => sb.getNextRetran 2) = some 0 := by
    decide +kernel
  have hFour :
      (PartialRun.run call (new 0 garbage)
        [.updateScoreBoard (-1) [(1, 3)] 0,
          .updateScoreBoard (-1) [(1, 4)] 0,
          .markRetran 0 9 0]).map
          (fun sb => sb.getFack 1) = some 3 := by
    decide +kernel
  have hLast :
      (PartialRun.run call (new 0 garbage)
        [.updateScoreBoard (-1) [(1, 3)] 0,
          .updateScoreBoard (-1) [(1, 4)] 0,
          .markRetran 0 9 0,
          .updateScoreBoard 1 [(5, 6)] 0]).map
          (fun sb => sb.getNextRetran 1) = some 4 := by
    decide +kernel
  have hRun := @retransmits_unacknowledged 0 garbage
    [.updateScoreBoard (-1) [(1, 3)] 0,
      .updateScoreBoard (-1) [(1, 4)] 0,
      .markRetran 0 9 0,
      .updateScoreBoard 1 [(5, 6)] 0] ?_
  · rcases hRun with ⟨sb, hRun, hMeets⟩
    rw [hRun] at hLast
    exact ⟨sb, hRun, Option.some.inj hLast, hMeets⟩
  intro before c after sb hEq hBefore
  rcases before with
    _ | ⟨c₁, _ | ⟨c₂, _ | ⟨c₃, _ | ⟨c₄, before⟩⟩⟩⟩
  · cases hEq
    cases hBefore
    exact ⟨⟨by decide, by decide⟩, Or.inr (by decide)⟩
  · cases hEq
    rw [hBefore] at hTwo
    have hFack : sb.getFack (-1) = 2 := Option.some.inj hTwo
    exact ⟨⟨by decide, by decide⟩, Or.inr (by omega)⟩
  · cases hEq
    rw [hBefore] at hThree
    exact ⟨⟨by decide, 2, (Option.some.inj hThree).symm⟩,
      trivial⟩
  · cases hEq
    rw [hBefore] at hFour
    have hFack : sb.getFack 1 = 3 := Option.some.inj hFour
    exact ⟨⟨by decide, by decide⟩, Or.inr (by omega)⟩
  · have hNil := congrArg (List.drop 4) hEq
    exact absurd hNil.symm
      (List.append_ne_nil_of_right_ne_nil before
        (List.cons_ne_nil c after))

/-
  An acknowledgement of 5 jumps over the entries of 0 and 1
  and comes with a block: 2 gets an entry and is sent again.
-/
theorem retransmits_acknowledged :
    ∃ sb sb',
      call (new 0 garbage) (.updateScoreBoard (-1) [(1, 2)] 0) =
          some sb ∧
        Allowed [] (new 0 garbage)
          (.updateScoreBoard (-1) [(1, 2)] 0) ∧
        call sb (.updateScoreBoard 5 [(7, 8)] 0) = some sb' ∧
        Allowed [.updateScoreBoard (-1) [(1, 2)] 0] sb
          (.updateScoreBoard 5 [(7, 8)] 0) ∧
        sb'.getNextRetran 1 = 2 ∧
        ¬ sb'.Meets
          [.updateScoreBoard (-1) [(1, 2)] 0,
            .updateScoreBoard 5 [(7, 8)] 0] := by
  have hRun :
      ((call (new 0 garbage)
        (.updateScoreBoard (-1) [(1, 2)] 0)).bind
          fun sb =>
            call sb (.updateScoreBoard 5 [(7, 8)] 0)).map
              (fun sb => sb.getNextRetran 1) = some 2 := by
    decide +kernel
  rcases Option.map_eq_some_iff.mp hRun with
    ⟨sb', hBoth, hNext⟩
  rcases Option.bind_eq_some_iff.mp hBoth with
    ⟨sb, hFirst, hSecond⟩
  refine ⟨sb, sb', hFirst, ⟨by decide, by decide⟩, hSecond,
    ⟨by decide, by decide⟩, hNext, ?_⟩
  intro hMeets
  have hAbove := (hMeets.nextRetran 1 2 hNext.symm
    (by decide)).1 5 (by decide)
  omega

end ScoreBoardRH

end Ns2
