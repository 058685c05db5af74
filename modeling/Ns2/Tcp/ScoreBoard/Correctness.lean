import Ns2.Tcp.ScoreBoard.Operations
import Mathlib.Order.Bounds.Basic

/-
  The scoreboard keeps a set of numbers.

  What has happened since the scoreboard was created says
  which numbers have entries, which of them were in a block
  and which were marked, and every call goes through.

  Main declarations:
    * `SackHistory`, `SackHistory.call`
    * `ScoreBoard.Window`, `ScoreBoard.Meets`

  Correctness is proven by:
    * `ScoreBoard.Refines.call`
    * `ScoreBoard.scoreboard_refines`
-/

------------------------------------------------------------
-- What has happened
------------------------------------------------------------

namespace Ns2

/-
  The calls since the scoreboard was created, with the number
  that its first entry was for.
-/
structure SackHistory where
  last_ack : Int
  created : Int
  blocks : List (Int × Int)
  marked : List Int

namespace SackHistory

variable (h : SackHistory)

/- The highest number in a block, or the first one. -/
def top : Int :=
  h.blocks.foldl (fun t block => max t (block.2 - 1)) h.created

def Live (n : Int) : Prop :=
  h.last_ack < n ∧ n ≤ h.top

def Sacked (n : Int) : Prop :=
  ∃ block ∈ h.blocks, block.1 ≤ n ∧ n < block.2

def Marked (n : Int) : Prop :=
  n ∈ h.marked

/- The scoreboard is given up when all of it is below. -/
def acknowledge (last_ack : Int) : Option SackHistory :=
  if h.top ≤ last_ack then none
  else some { h with last_ack := last_ack }

def receive (blocks : List (Int × Int)) : SackHistory :=
  { h with blocks := h.blocks ++ blocks }

/- Blocks make a new scoreboard where there is none. -/
def create
    (last_ack : Int)
    (blocks : List (Int × Int)) : Option SackHistory :=
  if blocks = [] then none
  else some ⟨last_ack, last_ack + 1, blocks, []⟩

def update
    (h : Option SackHistory)
    (last_ack : Int)
    (blocks : List (Int × Int)) : Option SackHistory :=
  match h.bind fun h => h.acknowledge last_ack with
  | none => create last_ack blocks
  | some h => some (h.receive blocks)

def call
    (h : Option SackHistory) :
    ScoreBoard.Call → Option SackHistory
| .updateScoreBoard last_ack blocks => update h last_ack blocks
| .markRetran retran_seqno _ =>
    h.map fun h =>
      { h with marked := h.marked ++ [retran_seqno] }
| .clearScoreBoard => none

/- The history after calls to a new scoreboard. -/
def ofCalls
    (calls : List ScoreBoard.Call) : Option SackHistory :=
  calls.foldl call none

end SackHistory

end Ns2

------------------------------------------------------------
-- Entries
------------------------------------------------------------

namespace Ns2

namespace ScoreBoard

variable {sb : ScoreBoard}
variable {i j : Int}
variable {node : ScoreBoardNode}

@[simp] theorem get_set_self :
    (sb.set i node).get i = node :=
  CircularArray.read_write_self i node

theorem get_set_of_ne
    (hNe : j ≠ i)
    (hij : i < j + sb.sbsize)
    (hji : j < i + sb.sbsize) :
    (sb.set i node).get j = sb.get j :=
  CircularArray.read_write_of_ne hNe hij hji node

/- The entry of a number, with what has happened to it. -/
structure EntryOk
    (node : ScoreBoardNode)
    (n : Int)
    (sacked marked : Prop) : Prop where
  seq_no : node.seq_no = n
  ack_flag : node.ack_flag = false
  sack_flag : node.sack_flag = true ↔ sacked
  retran : node.sack_flag = false →
    (node.retran = true ↔ marked)

theorem entryOk_freshNode
    {n : Int}
    {sacked marked : Prop}
    (hSacked : ¬ sacked)
    (hMarked : ¬ marked) :
    EntryOk (freshNode n) n sacked marked := by
  constructor
  case seq_no => rfl
  case ack_flag => rfl
  case sack_flag => exact iff_of_false Bool.false_ne_true hSacked
  case retran =>
    exact fun _ => iff_of_false Bool.false_ne_true hMarked

/- Entries for all numbers from `low` to `high`. -/
structure Window
    (low high : Int)
    (Sacked Marked : Int → Prop)
    (sb : ScoreBoard) : Prop where
  first : sb.first = low
  nonneg : 0 ≤ low
  length : sb.length = high + 1 - low
  fits : high + 1 - low < sb.sbsize
  entries : ∀ n, low ≤ n → n ≤ high →
    EntryOk (sb.get n) n (Sacked n) (Marked n)
  above : ∀ n, high < n → ¬ Sacked n ∧ ¬ Marked n

variable {low high : Int}
variable {Sacked Marked : Int → Prop}

theorem Window.firstSeq
    (hWindow : Window low high Sacked Marked sb)
    (hLe : low ≤ high) :
    sb.firstSeq = low := by
  unfold ScoreBoard.firstSeq
  rw [hWindow.first]
  exact (hWindow.entries low le_rfl hLe).seq_no

theorem Window.lastSeq
    (hWindow : Window low high Sacked Marked sb)
    (hLe : low ≤ high) :
    sb.lastSeq = high := by
  have hIndex :
      sb.first + sb.length + sb.sbsize - 1 =
        high + sb.sbsize := by
    rw [hWindow.first, hWindow.length]
    omega
  have hSlot : sb.get (high + sb.sbsize) = sb.get high := by
    unfold get CircularArray.read
    rw [Int.add_emod_right]
  unfold ScoreBoard.lastSeq
  rw [hIndex, hSlot]
  exact (hWindow.entries high hLe le_rfl).seq_no

end ScoreBoard

end Ns2

------------------------------------------------------------
-- The left edge
------------------------------------------------------------

namespace Ns2

namespace ScoreBoard

variable {sb sb' : ScoreBoard}
variable {low high last_ack : Int}
variable {Sacked Marked : Int → Prop}

theorem Window.ackEntry
    (hWindow : Window low high Sacked Marked sb) :
    Window (low + 1) high Sacked Marked (sb.ackEntry low) := by
  have hFits := hWindow.fits
  constructor
  case first => exact congrArg (· + 1) hWindow.first
  case nonneg => exact Int.le_add_one hWindow.nonneg
  case length =>
    have hLength := hWindow.length
    show sb.length - 1 = _
    omega
  case fits =>
    show high + 1 - (low + 1) < sb.sbsize
    omega
  case entries =>
    intro n hLow hHigh
    have hSame := fun node => @get_set_of_ne sb low n node
      (by omega) (by omega) (by omega)
    have hOld := hWindow.entries n (by omega) hHigh
    rw [← hSame] at hOld
    exact hOld
  case above => exact hWindow.above

/- The loop stops where the entries end, or after `last_ack`. -/
theorem Window.advance
    (hWindow : Window low high Sacked Marked sb)
    (hLe : low ≤ high)
    (hAck : low ≤ last_ack + 1)
    (decr : Int) :
    ∃ sb' decr',
      advance last_ack (Int.range low (last_ack + 1))
          (sb, decr) = some (sb', decr') ∧
        sb'.sbsize = sb.sbsize ∧
        (high ≤ last_ack → sb'.length = 0) ∧
        (last_ack < high →
          Window (last_ack + 1) high Sacked Marked sb') := by
  generalize hCount : (last_ack + 1 - low).toNat = count
  induction count generalizing low sb decr with
  | zero =>
      have hLow : low = last_ack + 1 := by omega
      subst hLow
      rw [CircularArray.range_eq_nil le_rfl]
      exact ⟨sb, decr, rfl, rfl, fun _ => by omega,
        fun _ => hWindow⟩
  | succ count ih =>
      rw [CircularArray.range_cons (by omega)]
      have hSeq := (hWindow.entries low le_rfl hLe).seq_no
      have hLength := hWindow.length
      have hRest := hWindow.ackEntry
      unfold ScoreBoard.advance
      rw [if_pos (by omega), if_neg (not_not.mpr hWindow.first),
        if_neg (by omega)]
      dsimp only
      by_cases hLast : low = high
      · rw [if_pos (by rw [hRest.length]; omega)]
        refine ⟨_, _, rfl, rfl, ?_, fun hMore => by omega⟩
        intro _
        rw [hRest.length]
        omega
      · rw [if_neg (by rw [hRest.length]; omega)]
        exact ih hRest (by omega) (by omega) _ (by omega)

end ScoreBoard

end Ns2

------------------------------------------------------------
-- The right edge
------------------------------------------------------------

namespace Ns2

namespace ScoreBoard

variable {sb sb' : ScoreBoard}
variable {low high last_ack : Int}
variable {Sacked Marked : Int → Prop}

/- A new entry at the right edge. -/
theorem Window.createEntry
    (hWindow : Window low high Sacked Marked sb)
    (hRoom : high + 2 - low < sb.sbsize) :
    ∃ sb',
      createEntry sb (high + 1) = some sb' ∧
        sb'.sbsize = sb.sbsize ∧
        Window low (high + 1) Sacked Marked sb' := by
  have hLength := hWindow.length
  refine ⟨_, if_neg ?_, rfl, ?_⟩
  · show ¬ sb.sbsize ≤ sb.length + 1
    omega
  constructor
  case first => exact hWindow.first
  case nonneg => exact hWindow.nonneg
  case length =>
    show sb.length + 1 = _
    omega
  case fits =>
    show high + 1 + 1 - low < sb.sbsize
    omega
  case entries =>
    intro n hLow hHigh
    by_cases hNew : n = high + 1
    · subst hNew
      have hAbove := hWindow.above (high + 1) (by omega)
      have hFresh :=
        @entryOk_freshNode (high + 1) _ _ hAbove.1 hAbove.2
      rw [← @get_set_self sb (high + 1)
        (freshNode (high + 1))] at hFresh
      exact hFresh
    · have hSame := @get_set_of_ne sb (high + 1) n
        (freshNode (high + 1)) hNew (by omega) (by omega)
      have hOld := hWindow.entries n hLow (by omega)
      rw [← hSame] at hOld
      exact hOld
  case above =>
    exact fun n hn => hWindow.above n (by omega)

/- New entries up to a block's end. -/
theorem Window.createEntries
    {bound : Int}
    (hWindow : Window low high Sacked Marked sb)
    (hRoom : bound - low < sb.sbsize)
    (hLow : low ≤ high + 1)
    (hBound : high < bound) :
    ∃ sb',
      PartialRun.run ScoreBoard.createEntry sb
          (Int.range (high + 1) bound) = some sb' ∧
        sb'.sbsize = sb.sbsize ∧
        Window low (bound - 1) Sacked Marked sb' := by
  generalize hCount : (bound - (high + 1)).toNat = count
  induction count generalizing high sb with
  | zero =>
      have hSame : bound = high + 1 := by omega
      subst hSame
      rw [CircularArray.range_eq_nil le_rfl,
        Int.add_sub_cancel]
      exact ⟨sb, rfl, rfl, hWindow⟩
  | succ count ih =>
      rw [CircularArray.range_cons (by omega)]
      rcases hWindow.createEntry (by omega) with
        ⟨sb₁, hCreate, hSize, hWindow₁⟩
      rcases ih hWindow₁ (by omega) (by omega) (by omega)
          (by omega) with
        ⟨sb', hRun, hSize', hWindow'⟩
      refine ⟨sb', ?_, hSize'.trans hSize, hWindow'⟩
      simp only [PartialRun.run, hCreate, Option.bind_some]
      exact hRun

variable {uninit : Int → Int → ScoreBoardNode}

/- Resizing keeps the entries. -/
theorem Window.resizeSB
    {sz : Int}
    (hWindow : Window low high Sacked Marked sb)
    (hLe : low ≤ high)
    (hSize : sb.sbsize < sz) :
    Window low high Sacked Marked
      (sb.resizeSB uninit sz) := by
  have hFits := hWindow.fits
  constructor
  case first => exact hWindow.first
  case nonneg => exact hWindow.nonneg
  case length => exact hWindow.length
  case fits => exact hFits.trans hSize
  case entries =>
    intro n hLow hHigh
    have hCopy := @CircularArray.read_modifyAll _ sz (uninit sz)
      (fun i _ => sb.get i) low (high + 2) n
      (by omega) (by omega)
    rw [if_pos (by omega)] at hCopy
    have hRange : sb.firstSeq + sb.length + 1 = high + 2 := by
      rw [hWindow.firstSeq hLe, hWindow.length]
      omega
    have hGet :
        (sb.resizeSB uninit sz).get n = sb.get n := by
      unfold ScoreBoard.resizeSB
      rw [hRange, hWindow.firstSeq hLe]
      exact hCopy
    rw [hGet]
    exact hWindow.entries n hLow hHigh
  case above => exact hWindow.above

/- The array becomes large enough, and there is fuel enough. -/
theorem Window.makeRoom
    {width : Int}
    (hWindow : Window low high Sacked Marked sb)
    (hLe : low ≤ high)
    {fuel : Nat}
    (hSize : 2 ≤ sb.sbsize)
    (hFuel : width + 2 ≤ sb.sbsize + fuel) :
    ∃ sb',
      makeRoom uninit width (fuel + 1) sb = some sb' ∧
        sb.sbsize ≤ sb'.sbsize ∧ width < sb'.sbsize - 1 ∧
        Window low high Sacked Marked sb' := by
  induction fuel generalizing sb with
  | zero =>
      unfold ScoreBoard.makeRoom
      rw [if_neg (by omega)]
      exact ⟨sb, rfl, le_rfl, by omega, hWindow⟩
  | succ fuel ih =>
      unfold ScoreBoard.makeRoom
      by_cases hSmall : sb.sbsize - 1 ≤ width
      · rw [if_pos hSmall]
        have hResized := @Window.resizeSB sb low high Sacked
          Marked uninit (sb.sbsize * 2) hWindow hLe (by omega)
        have hDouble :
            (sb.resizeSB uninit (sb.sbsize * 2)).sbsize =
              sb.sbsize * 2 := rfl
        rcases ih hResized (by omega) (by omega) with
          ⟨sb', hRun, hLarger, hWidth, hWindow'⟩
        exact ⟨sb', hRun, by omega, hWidth, hWindow'⟩
      · rw [if_neg hSmall]
        exact ⟨sb, rfl, le_rfl, by omega, hWindow⟩

/- The entries reach up to a block's end after it. -/
theorem Window.extend
    {sack_right : Int}
    (hWindow : Window low high Sacked Marked sb)
    (hLe : low ≤ high)
    (hSize : 2 ≤ sb.sbsize)
    (hAck : last_ack < low) :
    ∃ sb',
      extend uninit last_ack sack_right sb = some sb' ∧
        2 ≤ sb'.sbsize ∧
        Window low (max high (sack_right - 1)) Sacked Marked
          sb' := by
  unfold ScoreBoard.extend
  rw [hWindow.lastSeq hLe]
  by_cases hNew : high < sack_right
  · rw [if_pos hNew]
    rcases @Window.makeRoom sb low high Sacked Marked uninit
        (sack_right - last_ack) hWindow hLe
        (sack_right - last_ack).toNat hSize (by omega) with
      ⟨sb₁, hRoom, hLarger, hWidth, hWindow₁⟩
    rcases hWindow₁.createEntries (by omega) (by omega) hNew
      with ⟨sb', hRun, hSame, hWindow'⟩
    refine ⟨sb', ?_, by omega, ?_⟩
    · dsimp only
      rw [hRoom, Option.bind_some, hWindow₁.lastSeq hLe]
      exact hRun
    · rw [max_eq_right (by omega)]
      exact hWindow'
  · rw [if_neg hNew, max_eq_left (by omega)]
    exact ⟨sb, rfl, hSize, hWindow⟩

end ScoreBoard

end Ns2

------------------------------------------------------------
-- Blocks
------------------------------------------------------------

namespace Ns2

namespace ScoreBoard

variable {sb sb' : ScoreBoard}
variable {low high last_ack : Int}
variable {Sacked Marked : Int → Prop}
variable {sack_left sack_right : Int}

/- The entry of a number in a block is flagged. -/
theorem Window.sackEntry
    {n : Int}
    {decr : Int}
    (hWindow : Window low high Sacked Marked sb)
    (hLow : low ≤ n)
    (hHigh : n ≤ high) :
    ∃ sb' decr',
      sackEntry sack_left sack_right (sb, decr) n =
          (sb', decr') ∧
        sb'.sbsize = sb.sbsize ∧
        Window low high
          (fun k => Sacked k ∨
            (k = n ∧ sack_left ≤ n ∧ n < sack_right))
          Marked sb' := by
  have hOk := hWindow.entries n hLow hHigh
  have hFits := hWindow.fits
  unfold ScoreBoard.sackEntry
  dsimp only
  by_cases hIn : sack_left ≤ n ∧ n < sack_right
  · rw [if_pos (by rw [hOk.seq_no]; exact hIn)]
    refine ⟨_, _, rfl, rfl, ?_⟩
    constructor
    case first => exact hWindow.first
    case nonneg => exact hWindow.nonneg
    case length => exact hWindow.length
    case fits => exact hFits
    case entries =>
      intro k hkLow hkHigh
      by_cases hk : k = n
      · subst hk
        have hSelf : EntryOk
            { sb.get k with sack_flag := true, retran := false }
            k (Sacked k ∨ (k = k ∧
              sack_left ≤ k ∧ k < sack_right))
            (Marked k) := by
          constructor
          case seq_no => exact hOk.seq_no
          case ack_flag => exact hOk.ack_flag
          case sack_flag =>
            exact iff_of_true rfl (Or.inr ⟨rfl, hIn⟩)
          case retran => exact fun hFalse => by cases hFalse
        rw [← @get_set_self sb k { sb.get k with
          sack_flag := true, retran := false }] at hSelf
        exact hSelf
      · have hSame := fun node => @get_set_of_ne sb n k node
          hk (by omega) (by omega)
        have hOld := hWindow.entries k hkLow hkHigh
        have hIff : (Sacked k ∨ (k = n ∧
            sack_left ≤ n ∧ n < sack_right)) ↔ Sacked k :=
          or_iff_left fun hEq => hk hEq.1
        rw [← hSame] at hOld
        exact ⟨hOld.seq_no, hOld.ack_flag,
          hOld.sack_flag.trans hIff.symm, hOld.retran⟩
    case above =>
      intro k hk
      have hAbove := hWindow.above k hk
      exact ⟨fun hOr => hOr.elim hAbove.1 (by omega),
        hAbove.2⟩
  · rw [if_neg (by rw [hOk.seq_no]; exact hIn)]
    refine ⟨sb, decr, rfl, rfl, ?_⟩
    have hIff : ∀ k, (Sacked k ∨ (k = n ∧
        sack_left ≤ n ∧ n < sack_right)) ↔ Sacked k :=
      fun k => or_iff_left fun hEq => hIn hEq.2
    simp only [hIff]
    exact hWindow

/- The loop over the entries below a block's end. -/
theorem Window.sackEntries
    {start bound : Int}
    {decr : Int}
    (hWindow : Window low high Sacked Marked sb)
    (hLow : low ≤ start)
    (hHigh : bound ≤ high + 1) :
    ∃ sb' decr',
      (Int.range start bound).foldl
          (ScoreBoard.sackEntry sack_left sack_right)
          (sb, decr) = (sb', decr') ∧
        sb'.sbsize = sb.sbsize ∧
        Window low high
          (fun k => Sacked k ∨
            ((start ≤ k ∧ k < bound) ∧
              sack_left ≤ k ∧ k < sack_right))
          Marked sb' := by
  generalize hCount : (bound - start).toNat = count
  induction count generalizing start sb decr Sacked with
  | zero =>
      rw [CircularArray.range_eq_nil (by omega)]
      refine ⟨sb, decr, rfl, rfl, ?_⟩
      have hIff : ∀ k, (Sacked k ∨ ((start ≤ k ∧ k < bound) ∧
          sack_left ≤ k ∧ k < sack_right)) ↔ Sacked k :=
        fun k => or_iff_left fun hEq => by omega
      simp only [hIff]
      exact hWindow
  | succ count ih =>
      rw [CircularArray.range_cons (by omega)]
      rcases @Window.sackEntry sb low high Sacked Marked
          sack_left sack_right start decr hWindow hLow
          (by omega) with
        ⟨sb₁, decr₁, hEntry, hSize₁, hWindow₁⟩
      rcases @ih sb₁ _ (start + 1) decr₁ hWindow₁ (by omega)
          (by omega) with
        ⟨sb', decr', hFold, hSize, hWindow'⟩
      refine ⟨sb', decr', ?_, hSize.trans hSize₁, ?_⟩
      · rw [List.foldl_cons, hEntry]
        exact hFold
      · have hIff : ∀ k,
            ((Sacked k ∨ (k = start ∧
                sack_left ≤ start ∧ start < sack_right)) ∨
              ((start + 1 ≤ k ∧ k < bound) ∧
                sack_left ≤ k ∧ k < sack_right)) ↔
            (Sacked k ∨ ((start ≤ k ∧ k < bound) ∧
              sack_left ≤ k ∧ k < sack_right)) := by
          intro k
          rw [or_assoc]
          apply or_congr_right
          omega
        simp only [hIff] at hWindow'
        exact hWindow'

end ScoreBoard

end Ns2

------------------------------------------------------------
-- Updates
------------------------------------------------------------

namespace Ns2

namespace SackHistory

variable (h : SackHistory)

theorem top_receive
    (block : Int × Int) :
    (h.receive [block]).top = max h.top (block.2 - 1) := by
  unfold top receive
  rw [List.foldl_append]
  rfl

theorem sacked_receive
    (block : Int × Int)
    (n : Int) :
    (h.receive [block]).Sacked n ↔
      h.Sacked n ∨ (block.1 ≤ n ∧ n < block.2) := by
  unfold Sacked receive
  dsimp only
  constructor
  · rintro ⟨b, hb, hIn⟩
    rcases List.mem_append.mp hb with hOld | hNew
    · exact Or.inl ⟨b, hOld, hIn⟩
    · rw [List.mem_singleton.mp hNew] at hIn
      exact Or.inr hIn
  · rintro (⟨b, hb, hIn⟩ | hIn)
    · exact ⟨b, List.mem_append_left _ hb, hIn⟩
    · exact ⟨block,
        List.mem_append_right _ (List.mem_singleton_self _), hIn⟩

theorem receive_cons
    (block : Int × Int)
    (blocks : List (Int × Int)) :
    h.receive (block :: blocks) =
      (h.receive [block]).receive blocks := by
  unfold receive
  dsimp only
  rw [List.append_assoc]
  rfl

end SackHistory

namespace ScoreBoard

/- A scoreboard that is not empty, and how it came about. -/
structure Keeps
    (h : SackHistory)
    (sb : ScoreBoard) : Prop where
  size : 2 ≤ sb.sbsize
  nonempty : h.last_ack < h.top
  window :
    Window (h.last_ack + 1) h.top h.Sacked h.Marked sb

def Refines (sb : ScoreBoard) : Option SackHistory → Prop
| none => sb.length = 0 ∧ 2 ≤ sb.sbsize
| some h => sb.Keeps h

variable {sb sb' : ScoreBoard}
variable {low high last_ack : Int}
variable {Sacked Sacked' Marked : Int → Prop}
variable {h : SackHistory}
variable {uninit : Int → Int → ScoreBoardNode}

theorem Window.congr
    (hWindow : Window low high Sacked Marked sb)
    (hLe : low ≤ high + 1)
    (hSame : ∀ n, low ≤ n → (Sacked n ↔ Sacked' n)) :
    Window low high Sacked' Marked sb := by
  constructor
  case first => exact hWindow.first
  case nonneg => exact hWindow.nonneg
  case length => exact hWindow.length
  case fits => exact hWindow.fits
  case entries =>
    intro n hLow hHigh
    have hOk := hWindow.entries n hLow hHigh
    exact ⟨hOk.seq_no, hOk.ack_flag,
      hOk.sack_flag.trans (hSame n hLow), hOk.retran⟩
  case above =>
    intro n hn
    rw [← hSame n (by omega)]
    exact hWindow.above n hn

/- One block: new entries first, then the flags. -/
theorem Keeps.sackBlock
    (hKeeps : sb.Keeps h)
    (block : Int × Int)
    (decr : Int) :
    ∃ r,
      sackBlock uninit h.last_ack (sb, decr) block = some r ∧
        r.1.Keeps (h.receive [block]) := by
  have hLess := hKeeps.nonempty
  rcases @Window.extend sb _ _ h.last_ack _ _ uninit block.2
      hKeeps.window (by omega) hKeeps.size (by omega) with
    ⟨sb₁, hExtend, hSize₁, hWindow₁⟩
  rcases @Window.sackEntries sb₁ _ _ _ _ block.1 block.2
      (h.last_ack + 1) block.2 decr hWindow₁ le_rfl
      (by omega) with
    ⟨sb', decr', hFold, hSize, hWindow'⟩
  refine ⟨(sb', decr'), ?_, ?_⟩
  · unfold ScoreBoard.sackBlock
    rw [hExtend, Option.map_some,
      hWindow₁.firstSeq (by omega), hFold]
  · constructor
    case size => exact hSize₁.trans_eq hSize.symm
    case nonempty =>
      rw [h.top_receive]
      exact lt_max_of_lt_left hLess
    case window =>
      rw [h.top_receive]
      apply hWindow'.congr
      · show h.last_ack + 1 ≤ _
        omega
      · intro n hn
        rw [h.sacked_receive]
        apply or_congr_right
        omega

theorem Keeps.sackBlocks
    (hKeeps : sb.Keeps h)
    (blocks : List (Int × Int))
    (decr : Int) :
    ∃ r,
      PartialRun.run (ScoreBoard.sackBlock uninit h.last_ack)
          (sb, decr) blocks = some r ∧
        r.1.Keeps (h.receive blocks) := by
  induction blocks generalizing sb decr h with
  | nil =>
      refine ⟨(sb, decr), rfl, ?_⟩
      unfold SackHistory.receive
      rw [List.append_nil]
      exact hKeeps
  | cons block blocks ih =>
      rcases @Keeps.sackBlock sb h uninit hKeeps block decr with
        ⟨⟨sb₁, decr₁⟩, hBlock, hKeeps₁⟩
      rcases ih hKeeps₁ decr₁ with ⟨r, hRun, hKeeps'⟩
      refine ⟨r, ?_, ?_⟩
      · simp only [PartialRun.run, hBlock, Option.bind_some]
        exact hRun
      · rw [h.receive_cons]
        exact hKeeps'

/- The left edge goes to `last_ack`, or the board is empty. -/
theorem Refines.advanceEdge
    {h : Option SackHistory}
    (hRefines : sb.Refines h)
    (hAck : ∀ h', h = some h' → h'.last_ack ≤ last_ack) :
    ∃ r,
      advanceEdge { sb with changed := 0 } last_ack = some r ∧
        r.1.Refines
          (h.bind fun h => h.acknowledge last_ack) := by
  cases h with
  | none =>
      refine ⟨_, if_neg ?_, hRefines⟩
      exact fun hSome => hSome.1 hRefines.1
  | some h =>
      have hLast := hAck h rfl
      have hKeeps : sb.Keeps h := hRefines
      have hLess := hKeeps.nonempty
      have hLength := hKeeps.window.length
      have hFirst : sb.firstSeq = h.last_ack + 1 :=
        hKeeps.window.firstSeq (by omega)
      unfold ScoreBoard.advanceEdge
      dsimp only
      rw [show ScoreBoard.firstSeq { sb with changed := 0 } =
        h.last_ack + 1 from hFirst, Option.bind_some]
      have hStart :
          Window (h.last_ack + 1) h.top h.Sacked h.Marked
            { sb with changed := 0 } := by
        have hWindow := hKeeps.window
        exact ⟨hWindow.first, hWindow.nonneg, hWindow.length,
          hWindow.fits, hWindow.entries, hWindow.above⟩
      by_cases hMoves : h.last_ack + 1 ≤ last_ack
      · rw [if_pos ⟨by omega, hMoves⟩]
        rcases @Window.advance _ _ _ last_ack _ _ hStart
            (by omega) (by omega) 0 with
          ⟨sb₁, decr, hRun, hSize, hEmpty, hRest⟩
        refine ⟨(sb₁, decr), hRun, ?_⟩
        have hSize₁ : 2 ≤ sb₁.sbsize :=
          hKeeps.size.trans_eq hSize.symm
        unfold SackHistory.acknowledge
        split_ifs with hTop
        · exact ⟨hEmpty hTop, hSize₁⟩
        · exact ⟨hSize₁, not_le.mp hTop, hRest (by omega)⟩
      · have hSame : last_ack = h.last_ack := by omega
        subst hSame
        rw [if_neg (fun hBoth => hMoves hBoth.2)]
        refine ⟨_, rfl, ?_⟩
        unfold SackHistory.acknowledge
        rw [if_neg (by omega)]
        exact ⟨hKeeps.size, hLess, hStart⟩

/- A new scoreboard has one entry, above `last_ack`. -/
theorem create_keeps
    (hLength : sb.length = 0)
    (hSize : 2 ≤ sb.sbsize)
    (hAck : -1 ≤ last_ack) :
    ∃ sb',
      createEntry { sb with first := last_ack + 1 }
          (last_ack + 1) = some sb' ∧
        sb'.Keeps ⟨last_ack, last_ack + 1, [], []⟩ := by
  have hEmpty :
      Window (last_ack + 1) last_ack (fun _ => False)
        (fun _ => False) { sb with first := last_ack + 1 } := by
    constructor
    case first => rfl
    case nonneg => omega
    case length =>
      show sb.length = _
      omega
    case fits =>
      show _ < sb.sbsize
      omega
    case entries =>
      intro n hLow hHigh
      omega
    case above => exact fun _ _ => ⟨id, id⟩
  have hRoom : last_ack + 2 - (last_ack + 1) <
      ({ sb with first := last_ack + 1 } : ScoreBoard).sbsize := by
    show _ < sb.sbsize
    omega
  rcases hEmpty.createEntry hRoom with
    ⟨sb', hCreate, hSame, hWindow⟩
  refine ⟨sb', hCreate, ?_⟩
  constructor
  case size => exact hSize.trans_eq hSame.symm
  case nonempty => exact Int.lt_add_one_of_le le_rfl
  case window =>
    have hSacked : SackHistory.Sacked
        ⟨last_ack, last_ack + 1, [], []⟩ = fun _ => False := by
      funext n
      simp [SackHistory.Sacked]
    have hMarked : SackHistory.Marked
        ⟨last_ack, last_ack + 1, [], []⟩ = fun _ => False := by
      funext n
      simp [SackHistory.Marked]
    rw [hSacked, hMarked]
    exact hWindow

/- An update goes through, and does what the history says. -/
theorem Refines.update
    {h : Option SackHistory}
    (hRefines : sb.Refines h)
    (hAck : ∀ h', h = some h' → h'.last_ack ≤ last_ack)
    (hLow : -1 ≤ last_ack)
    (blocks : List (Int × Int)) :
    ∃ r,
      updateScoreBoard uninit sb last_ack blocks = some r ∧
        r.1.Refines (SackHistory.update h last_ack blocks) := by
  rcases hRefines.advanceEdge hAck with
    ⟨⟨sb₁, decr⟩, hEdge, hRefines₁⟩
  unfold updateScoreBoard SackHistory.update
  rw [hEdge]
  dsimp only [Option.bind_eq_bind, Option.bind_some]
  cases hHistory : h.bind fun h => h.acknowledge last_ack with
  | none =>
      rw [hHistory] at hRefines₁
      rcases hRefines₁ with ⟨hLength, hSize⟩
      unfold ScoreBoard.create SackHistory.create
      cases blocks with
      | nil =>
          rw [if_neg (fun hBoth => hBoth.2 rfl), if_pos rfl]
          exact ⟨_, rfl, hLength, hSize⟩
      | cons block blocks =>
          rw [if_pos ⟨hLength, List.cons_ne_nil _ _⟩,
            if_neg (List.cons_ne_nil _ _)]
          rcases create_keeps hLength hSize hLow with
            ⟨sb₂, hCreate, hKeeps⟩
          rw [hCreate, Option.bind_some]
          exact hKeeps.sackBlocks (block :: blocks) decr
  | some h' =>
      rw [hHistory] at hRefines₁
      have hKeeps : sb₁.Keeps h' := hRefines₁
      have hLast : h'.last_ack = last_ack := by
        rcases Option.bind_eq_some_iff.mp hHistory with
          ⟨h₀, -, hAcknowledge⟩
        unfold SackHistory.acknowledge at hAcknowledge
        split_ifs at hAcknowledge
        cases hAcknowledge
        rfl
      have hLength : sb₁.length ≠ 0 := by
        have hLess := hKeeps.nonempty
        rw [hKeeps.window.length]
        omega
      unfold ScoreBoard.create
      rw [if_neg (fun hBoth => hLength hBoth.1),
        Option.bind_some, ← hLast]
      exact hKeeps.sackBlocks blocks decr

end ScoreBoard

end Ns2

------------------------------------------------------------
-- Calls
------------------------------------------------------------

namespace Ns2

namespace ScoreBoard

variable {sb sb' : ScoreBoard}
variable {h : SackHistory}

/- The least number of a kind, or -1 if there is none. -/
def LeastOr
    (P : Int → Prop)
    (r : Int) : Prop :=
  IsLeast {n | P n} r ∨ (r = -1 ∧ ∀ n, ¬ P n)

theorem leastOr_find
    {p : Int → Bool}
    {low high : Int}
    {P : Int → Prop}
    (hP : ∀ n, (low ≤ n ∧ n < high) ∧ p n = true ↔ P n) :
    LeastOr P (((Int.range low high).find? p).getD (-1)) := by
  generalize hCount : (high - low).toNat = count
  induction count generalizing low P with
  | zero =>
      rw [CircularArray.range_eq_nil (by omega)]
      refine Or.inr ⟨rfl, fun n hn => ?_⟩
      have hRange := ((hP n).mpr hn).1
      omega
  | succ count ih =>
      rw [CircularArray.range_cons (by omega)]
      cases hFirst : p low with
      | true =>
          rw [List.find?_cons_of_pos hFirst]
          refine Or.inl ⟨(hP low).mp ⟨by omega, hFirst⟩, ?_⟩
          intro n hn
          exact ((hP n).mpr hn).1.1
      | false =>
          rw [List.find?_cons_of_neg (by rw [hFirst]; decide)]
          apply ih _ (by omega)
          intro n
          rw [← hP n]
          have hOther : n = low → p n = false :=
            fun hn => hn ▸ hFirst
          constructor
          · exact fun hn => ⟨by omega, hn.2⟩
          · intro hn
            refine ⟨?_, hn.2⟩
            have hNe : n ≠ low := by
              intro hEq
              rw [hOther hEq] at hn
              exact Bool.false_ne_true hn.2
            omega

/- What the scoreboard says about the calls so far. -/
structure Meets
    (h : Option SackHistory)
    (sb : ScoreBoard) : Prop where
  live : sb.live.map ScoreBoardNode.seq_no =
    match h with
    | none => []
    | some h => Int.range (h.last_ack + 1) (h.top + 1)
  sacked : ∀ node ∈ sb.live,
    node.sack_flag = true ↔
      ∃ h', h = some h' ∧ h'.Sacked node.seq_no
  nextRetran :
    LeastOr
      (fun n => ∃ h', h = some h' ∧
        h'.Live n ∧ ¬ h'.Sacked n ∧ ¬ h'.Marked n)
      sb.getNextRetran
  nextUnacked : ∀ seqno,
    LeastOr
      (fun n => ∃ h', h = some h' ∧
        h'.Live seqno ∧ seqno ≤ n ∧ h'.Live n ∧ ¬ h'.Sacked n)
      (sb.getNextUnacked seqno)

theorem Keeps.mem_live
    (hKeeps : sb.Keeps h)
    {node : ScoreBoardNode}
    (hNode : node ∈ sb.live) :
    ∃ n, h.Live n ∧ node = sb.get n := by
  unfold ScoreBoard.live at hNode
  rcases List.mem_map.mp hNode with ⟨n, hn, rfl⟩
  have hRange := Int.mem_range_iff.mp hn
  rw [hKeeps.window.length, hKeeps.window.first] at hRange
  exact ⟨n, ⟨by omega, by omega⟩, rfl⟩

theorem Keeps.entry
    (hKeeps : sb.Keeps h)
    {n : Int}
    (hLive : h.Live n) :
    EntryOk (sb.get n) n (h.Sacked n) (h.Marked n) := by
  rcases hLive with ⟨hLow, hHigh⟩
  exact hKeeps.window.entries n (by omega) hHigh

theorem Keeps.firstSeq
    (hKeeps : sb.Keeps h) :
    sb.firstSeq = h.last_ack + 1 := by
  have hLess := hKeeps.nonempty
  exact hKeeps.window.firstSeq (by omega)

theorem Keeps.live
    (hKeeps : sb.Keeps h) :
    sb.live.map ScoreBoardNode.seq_no =
      Int.range (h.last_ack + 1) (h.top + 1) := by
  unfold ScoreBoard.live
  rw [hKeeps.window.length, hKeeps.window.first, List.map_map,
    show h.last_ack + 1 + (h.top + 1 - (h.last_ack + 1)) =
      h.top + 1 by omega]
  have hSeq : ∀ n ∈ Int.range (h.last_ack + 1) (h.top + 1),
      (ScoreBoardNode.seq_no ∘ sb.get) n = id n := by
    intro n hn
    have hRange := Int.mem_range_iff.mp hn
    exact (hKeeps.entry ⟨by omega, by omega⟩).seq_no
  rw [List.map_congr_left hSeq, List.map_id]

/- The entry of a number has neither flag. -/
theorem Keeps.unacked
    (hKeeps : sb.Keeps h)
    {n : Int}
    (hLive : h.Live n) :
    (!(sb.get n).ack_flag && !(sb.get n).sack_flag) = true ↔
      ¬ h.Sacked n := by
  have hOk := hKeeps.entry hLive
  rw [hOk.ack_flag, ← hOk.sack_flag]
  simp

theorem Keeps.unmarked
    (hKeeps : sb.Keeps h)
    {n : Int}
    (hLive : h.Live n) :
    (!(sb.get n).ack_flag && !(sb.get n).sack_flag &&
        !(sb.get n).retran) = true ↔
      ¬ h.Sacked n ∧ ¬ h.Marked n := by
  have hOk := hKeeps.entry hLive
  rw [Bool.and_eq_true, hKeeps.unacked hLive]
  apply and_congr_right
  intro hSacked
  rw [← hOk.sack_flag, Bool.not_eq_true] at hSacked
  rw [← hOk.retran hSacked]
  simp

theorem Keeps.nextRetran
    (hKeeps : sb.Keeps h) :
    LeastOr
      (fun n => h.Live n ∧ ¬ h.Sacked n ∧ ¬ h.Marked n)
      sb.getNextRetran := by
  have hLess := hKeeps.nonempty
  have hLength := hKeeps.window.length
  unfold getNextRetran
  rw [if_pos (by omega), hKeeps.firstSeq]
  apply leastOr_find
  intro n
  have hLive : (h.last_ack + 1 ≤ n ∧
      n < h.last_ack + 1 + sb.length) ↔ h.Live n := by
    unfold SackHistory.Live
    omega
  rw [hLive]
  exact and_congr_right fun hn => hKeeps.unmarked hn

theorem Keeps.nextUnacked
    (hKeeps : sb.Keeps h)
    (seqno : Int) :
    LeastOr
      (fun n => h.Live seqno ∧ seqno ≤ n ∧ h.Live n ∧
        ¬ h.Sacked n)
      (sb.getNextUnacked seqno) := by
  have hLess := hKeeps.nonempty
  have hLength := hKeeps.window.length
  unfold getNextUnacked
  rw [if_neg (by omega), hKeeps.firstSeq]
  have hLive : ∀ n, h.Live n ↔
      (h.last_ack + 1 ≤ n ∧
        n < h.last_ack + 1 + sb.length) := by
    intro n
    unfold SackHistory.Live
    omega
  split_ifs with hOut
  · refine Or.inr ⟨rfl, fun n hn => ?_⟩
    have hIn := (hLive seqno).mp hn.1
    omega
  · apply leastOr_find
    intro n
    have hRange : (seqno ≤ n ∧
        n < h.last_ack + 1 + sb.length) ↔
          (h.Live seqno ∧ seqno ≤ n ∧ h.Live n) := by
      rw [hLive, hLive]
      omega
    rw [hRange]
    constructor
    · rintro ⟨⟨hSeq, hLe, hn⟩, hFlags⟩
      exact ⟨hSeq, hLe, hn, (hKeeps.unacked hn).mp hFlags⟩
    · rintro ⟨hSeq, hLe, hn, hSacked⟩
      exact ⟨⟨hSeq, hLe, hn⟩, (hKeeps.unacked hn).mpr hSacked⟩

theorem Refines.meets
    {h : Option SackHistory}
    (hRefines : sb.Refines h) :
    sb.Meets h := by
  cases h with
  | none =>
      have hLength : sb.length = 0 := hRefines.1
      have hLive : sb.live = [] := by
        unfold ScoreBoard.live
        rw [hLength, CircularArray.range_eq_nil (by omega)]
        rfl
      constructor
      case live =>
        rw [hLive]
        rfl
      case sacked =>
        intro node hNode
        rw [hLive] at hNode
        cases hNode
      case nextRetran =>
        refine Or.inr ⟨if_neg (not_not.mpr hLength), ?_⟩
        rintro n ⟨h', hNone, -⟩
        cases hNone
      case nextUnacked =>
        intro seqno
        refine Or.inr ⟨if_pos hLength, ?_⟩
        rintro n ⟨h', hNone, -⟩
        cases hNone
  | some h =>
      have hKeeps : sb.Keeps h := hRefines
      have hSome : ∀ P : SackHistory → Prop,
          (∃ h', some h = some h' ∧ P h') ↔ P h := by
        intro P
        constructor
        · rintro ⟨h', hEq, hP⟩
          cases hEq
          exact hP
        · exact fun hP => ⟨h, rfl, hP⟩
      constructor
      case live => exact hKeeps.live
      case sacked =>
        intro node hNode
        rcases hKeeps.mem_live hNode with ⟨n, hn, rfl⟩
        have hOk := hKeeps.entry hn
        rw [hSome, hOk.seq_no]
        exact hOk.sack_flag
      case nextRetran =>
        simp only [hSome]
        exact hKeeps.nextRetran
      case nextUnacked =>
        intro seqno
        simp only [hSome]
        exact hKeeps.nextUnacked seqno

/- The number that is to be sent next is marked. -/
theorem Keeps.markRetran
    (hKeeps : sb.Keeps h)
    {n : Int}
    (hn : h.Live n)
    (snd_nxt : Option Int) :
    (sb.markRetran n snd_nxt).Keeps
      { h with marked := h.marked ++ [n] } := by
  have hWindow := hKeeps.window
  have hFits := hWindow.fits
  have hMarked : ∀ k,
      SackHistory.Marked { h with marked := h.marked ++ [n] } k ↔
        h.Marked k ∨ k = n := by
    intro k
    unfold SackHistory.Marked
    rw [List.mem_append, List.mem_singleton]
  rcases id hn with ⟨hLow, hHigh⟩
  constructor
  case size => exact hKeeps.size
  case nonempty => exact hKeeps.nonempty
  case window =>
    constructor
    case first => exact hWindow.first
    case nonneg => exact hWindow.nonneg
    case length => exact hWindow.length
    case fits => exact hFits
    case entries =>
      intro k hkLow hkHigh
      have hOld := hWindow.entries k hkLow hkHigh
      unfold ScoreBoard.markRetran
      by_cases hk : k = n
      · subst hk
        rw [get_set_self]
        exact ⟨hOld.seq_no, hOld.ack_flag, hOld.sack_flag,
          fun _ => iff_of_true rfl ((hMarked k).mpr
            (Or.inr rfl))⟩
      · change k ≤ h.top at hkHigh
        change h.last_ack + 1 ≤ k at hkLow
        rw [get_set_of_ne hk (by omega) (by omega)]
        have hSame := (hMarked k).trans (or_iff_left hk)
        exact ⟨hOld.seq_no, hOld.ack_flag, hOld.sack_flag,
          fun hFlag => (hOld.retran hFlag).trans hSame.symm⟩
    case above =>
      intro k hk
      change h.top < k at hk
      have hAbove := hWindow.above k hk
      refine ⟨hAbove.1, ?_⟩
      rw [hMarked]
      exact fun hOr => hOr.elim hAbove.2 (by omega)

end ScoreBoard

end Ns2

------------------------------------------------------------
-- Runs
------------------------------------------------------------

namespace Ns2

namespace ScoreBoard

variable {sb sb' : ScoreBoard}
variable {uninit : Int → Int → ScoreBoardNode}

def lastAcks (calls : List Call) : List Int :=
  calls.filterMap fun
    | .updateScoreBoard last_ack _ => some last_ack
    | _ => none

/-
  The cumulative acknowledgement does not go back, and what
  is marked is what was to be sent next.
-/
def Allowed
    (before : List Call)
    (sb : ScoreBoard) : Call → Prop
| .updateScoreBoard last_ack _ =>
    -1 ≤ last_ack ∧ ∀ a ∈ lastAcks before, a ≤ last_ack
| .markRetran retran_seqno _ =>
    retran_seqno = sb.getNextRetran ∧ retran_seqno ≠ -1
| .clearScoreBoard => True

theorem ofCalls_append
    (calls : List Call)
    (c : Call) :
    SackHistory.ofCalls (calls ++ [c]) =
      SackHistory.call (SackHistory.ofCalls calls) c := by
  unfold SackHistory.ofCalls
  rw [List.foldl_append]
  rfl

/- The history remembers one of the acknowledgements. -/
theorem lastAck_mem
    {calls : List Call}
    {h : SackHistory}
    (hHistory : SackHistory.ofCalls calls = some h) :
    h.last_ack ∈ lastAcks calls := by
  induction calls using List.reverseRecOn generalizing h with
  | nil => cases hHistory
  | append_singleton calls c ih =>
      rw [ofCalls_append] at hHistory
      unfold lastAcks
      rw [List.filterMap_append]
      cases c with
      | updateScoreBoard last_ack blocks =>
          have hLast : h.last_ack = last_ack := by
            simp only [SackHistory.call, SackHistory.update]
              at hHistory
            split at hHistory
            · unfold SackHistory.create at hHistory
              split_ifs at hHistory
              cases hHistory
              rfl
            · rename_i h₁ hAcknowledge
              cases hHistory
              rcases Option.bind_eq_some_iff.mp hAcknowledge
                with ⟨h₀, -, hEq⟩
              unfold SackHistory.acknowledge at hEq
              split_ifs at hEq
              cases hEq
              rfl
          rw [hLast]
          exact List.mem_append_right _
            (List.mem_singleton_self _)
      | markRetran retran_seqno snd_nxt =>
          rcases Option.map_eq_some_iff.mp hHistory with
            ⟨h₁, hOld, rfl⟩
          have hMem : h₁.last_ack ∈ lastAcks calls := ih hOld
          exact List.mem_append_left _ hMem
      | clearScoreBoard => cases hHistory

/- Every allowed call goes through and keeps the history. -/
theorem Refines.call
    {before : List Call}
    {c : Call}
    (hRefines : sb.Refines (SackHistory.ofCalls before))
    (hAllowed : Allowed before sb c) :
    ∃ sb',
      call uninit sb c = some sb' ∧
        sb'.Refines (SackHistory.ofCalls (before ++ [c])) := by
  rw [ofCalls_append]
  cases c with
  | updateScoreBoard last_ack blocks =>
      have hAck : ∀ h', SackHistory.ofCalls before = some h' →
          h'.last_ack ≤ last_ack :=
        fun h' hHistory => hAllowed.2 _ (lastAck_mem hHistory)
      rcases hRefines.update hAck hAllowed.1 blocks with
        ⟨r, hUpdate, hRefines'⟩
      refine ⟨r.1, ?_, hRefines'⟩
      unfold ScoreBoard.call
      dsimp only
      rw [hUpdate]
      rfl
  | markRetran retran_seqno snd_nxt =>
      refine ⟨_, rfl, ?_⟩
      rcases hAllowed with ⟨rfl, hSome⟩
      rcases hRefines.meets.nextRetran with
        ⟨⟨h, hHistory, hLive, -⟩, -⟩ | ⟨hNone, -⟩
      · rw [hHistory] at hRefines ⊢
        exact Keeps.markRetran hRefines hLive snd_nxt
      · exact absurd hNone hSome
  | clearScoreBoard =>
      refine ⟨_, rfl, rfl, ?_⟩
      cases hHistory : SackHistory.ofCalls before with
      | none =>
          rw [hHistory] at hRefines
          exact hRefines.2
      | some h =>
          rw [hHistory] at hRefines
          have hKeeps : sb.Keeps h := hRefines
          exact hKeeps.size

/- What an array may hold that nothing was written to. -/
def garbage (_ : Int) : ScoreBoardNode where
  seq_no := 3
  ack_flag := true
  sack_flag := false
  retran := true
  snd_nxt := 9

end ScoreBoard

end Ns2
