import Ns2.Tcp.ScoreBoard1.Operations
import Mathlib

/-
  Lists of contiguous blocks.

  The blocks follow each other without gaps, and the counters
  of a scoreboard are the sizes of the blocks in one state.

  Main declarations:
    * `ScoreBoard1.Chain`, `ScoreBoard1.total`
    * `ScoreBoard1.Distinct`
    * `ScoreBoard1.Kept`
    * `ScoreBoard1.Kept.packets_in_flight`
-/

------------------------------------------------------------
-- Chains
------------------------------------------------------------

namespace Ns2

namespace ScoreBoard1

open ScoreBoardNode1

variable {node now next : ScoreBoardNode1}
variable {nodes front rest : List ScoreBoardNode1}
variable {low mid high : Int}
variable {flag : SkbFlag}

/- Blocks from `low` on that end before `high`. -/
def Chain : Int → List ScoreBoardNode1 → Int → Prop
| low, [], high => low = high
| low, node :: rest, high =>
    node.seq = low ∧ node.seq ≤ node.getEnd ∧
      Chain (node.getEnd + 1) rest high

theorem chain_append :
    Chain low (front ++ rest) high ↔
      ∃ mid, Chain low front mid ∧ Chain mid rest high := by
  induction front generalizing low with
  | nil =>
      constructor
      · intro hChain
        exact ⟨low, rfl, hChain⟩
      · rintro ⟨mid, rfl, hChain⟩
        exact hChain
  | cons node front ih =>
      constructor
      · rintro ⟨hSeq, hLe, hChain⟩
        rcases ih.mp hChain with ⟨mid, hFront, hRest⟩
        exact ⟨mid, ⟨hSeq, hLe, hFront⟩, hRest⟩
      · rintro ⟨mid, ⟨hSeq, hLe, hFront⟩, hRest⟩
        exact ⟨hSeq, hLe, ih.mpr ⟨mid, hFront, hRest⟩⟩

theorem Chain.le
    (hChain : Chain low nodes high) :
    low ≤ high := by
  induction nodes generalizing low with
  | nil => exact hChain.le
  | cons node rest ih =>
      rcases hChain with ⟨hSeq, hLe, hChain⟩
      have hRest := ih hChain
      omega

/- All blocks are between the two ends. -/
theorem Chain.between
    (hChain : Chain low nodes high) :
    ∀ node ∈ nodes,
      low ≤ node.seq ∧ node.seq ≤ node.getEnd ∧
        node.getEnd < high := by
  induction nodes generalizing low with
  | nil =>
      intro node hNode
      cases hNode
  | cons node rest ih =>
      rcases hChain with ⟨hSeq, hLe, hChain⟩
      have hHigh := hChain.le
      intro other hOther
      rcases List.mem_cons.mp hOther with rfl | hRest
      · omega
      · have hBetween := ih hChain other hRest
        omega

theorem Chain.getLast
    (hChain : Chain low nodes high)
    (hLast : nodes.getLast? = some node) :
    node.getEnd + 1 = high := by
  rcases List.getLast?_eq_some_iff.mp hLast with
    ⟨front, rfl⟩
  rcases chain_append.mp hChain with
    ⟨mid, -, -, -, hHigh⟩
  exact hHigh

theorem getEnd_of_ne
    (hFlag : node.flag ≠ .SKB_FLAG_RETRANSMITTED) :
    node.getEnd = node.nxt :=
  if_neg hFlag

theorem getEnd_of_eq
    (hFlag : node.flag = .SKB_FLAG_RETRANSMITTED) :
    node.getEnd = node.seq :=
  if_pos hFlag

/- One block takes the place of two in the same state. -/
theorem merge_getEnd
    (hFlag : next.flag ≠ .SKB_FLAG_RETRANSMITTED)
    (hSame : next.flag = node.flag) :
    (node.merge next).getEnd = next.getEnd := by
  rw [getEnd_of_ne hFlag]
  exact if_neg (hSame ▸ hFlag)

theorem Chain.merge
    (hFlag : next.flag ≠ .SKB_FLAG_RETRANSMITTED)
    (hSame : next.flag = node.flag)
    (hChain : Chain low (node :: next :: rest) high) :
    Chain low (node.merge next :: rest) high := by
  rcases hChain with ⟨hSeq, hLe, hNext, hLess, hChain⟩
  refine ⟨hSeq, ?_, ?_⟩
  · rw [merge_getEnd hFlag hSame]
    change node.seq ≤ _
    omega
  · rw [merge_getEnd hFlag hSame]
    exact hChain

end ScoreBoard1

end Ns2

------------------------------------------------------------
-- Sizes
------------------------------------------------------------

namespace Ns2

namespace ScoreBoard1

open ScoreBoardNode1

variable {node now next : ScoreBoardNode1}
variable {nodes front rest : List ScoreBoardNode1}
variable {low mid high : Int}
variable {flag : SkbFlag}

/- How many packets are in blocks with a flag. -/
def total (flag : SkbFlag) : List ScoreBoardNode1 → Int
| [] => 0
| node :: rest =>
    (if node.flag = flag then node.getLength else 0) +
      total flag rest

@[simp] theorem total_append :
    total flag (front ++ rest) =
      total flag front + total flag rest := by
  induction front with
  | nil => exact (Int.zero_add _).symm
  | cons node front ih =>
      rw [List.cons_append, total, total, ih, Int.add_assoc]

theorem getLength_eq :
    node.getLength = node.getEnd + 1 - node.seq := by
  unfold getLength getEnd
  split <;> omega

theorem Chain.total_nonneg
    (hChain : Chain low nodes high) :
    0 ≤ total flag nodes := by
  induction nodes generalizing low with
  | nil => exact le_rfl
  | cons node rest ih =>
      rcases hChain with ⟨-, hLe, hChain⟩
      have hRest := ih hChain
      have hLength := @getLength_eq node
      unfold total
      split <;> omega

theorem total_merge
    (hFlag : next.flag ≠ .SKB_FLAG_RETRANSMITTED)
    (hSame : next.flag = node.flag)
    (hNext : next.seq = node.getEnd + 1) :
    total flag (node.merge next :: rest) =
      total flag (node :: next :: rest) := by
  have hLength : (node.merge next).getLength =
      node.getLength + next.getLength := by
    rw [getLength_eq, getLength_eq, getLength_eq,
      merge_getEnd hFlag hSame]
    change next.getEnd + 1 - node.seq = _
    omega
  have hFlagSame : (node.merge next).flag = node.flag := rfl
  simp only [total]
  rw [hLength, hSame, hFlagSame]
  split <;> omega

/- What is known to have arrived, or to be lost. -/
def Gone
    (nodes : List ScoreBoardNode1)
    (n : Int) : Prop :=
  ∃ node ∈ nodes,
    (node.flag = .SKB_FLAG_SACKED ∨
      node.flag = .SKB_FLAG_LOST) ∧
        node.inside n = true

instance (n : Int) : Decidable (Gone nodes n) :=
  List.decidableBEx _ _

theorem inside_iff :
    node.inside n = true ↔
      node.seq ≤ n ∧ n ≤ node.getEnd := by
  unfold inside getEnd
  split
  · rw [decide_eq_true_iff]
    omega
  · rw [Bool.and_eq_true, decide_eq_true_iff,
      decide_eq_true_iff]

end ScoreBoard1

end Ns2

------------------------------------------------------------
-- Addresses
------------------------------------------------------------

namespace Ns2

namespace ScoreBoard1

variable {fresh : Nat}
variable {used addrs more : List Nat}

/- Different addresses that have been given to nodes. -/
structure Distinct
    (fresh : Nat)
    (addrs : List Nat) : Prop where
  nodup : addrs.Nodup
  old : ∀ addr ∈ addrs, addr < fresh

theorem Distinct.sublist
    (hDistinct : Distinct fresh addrs)
    (hSub : more.Sublist addrs) :
    Distinct fresh more := by
  constructor
  case nodup => exact hDistinct.nodup.sublist hSub
  case old =>
    intro addr hAddr
    exact hDistinct.old addr (hSub.subset hAddr)

theorem Distinct.insert
    (hDistinct : Distinct fresh (used ++ addrs)) :
    Distinct (fresh + 1) (used ++ fresh :: addrs) := by
  have hNew : fresh ∉ used ++ addrs := by
    intro hMem
    exact absurd (hDistinct.old fresh hMem) (lt_irrefl fresh)
  constructor
  case nodup =>
    rw [List.nodup_middle, List.nodup_cons]
    exact ⟨hNew, hDistinct.nodup⟩
  case old =>
    intro addr hAddr
    rcases List.mem_cons.mp
      (List.perm_middle.mem_iff.mp hAddr) with rfl | hOld
    · exact Nat.lt_succ_self _
    · exact (hDistinct.old addr hOld).trans
        (Nat.lt_succ_self fresh)

end ScoreBoard1

end Ns2

------------------------------------------------------------
-- What a scoreboard keeps
------------------------------------------------------------

namespace Ns2

namespace ScoreBoard1

variable {sb : ScoreBoard1}
variable {node : ScoreBoardNode1}
variable {nodes rest : List ScoreBoardNode1}
variable {low mid high n : Int}

/- The state of a scoreboard whose list is `nodes`. -/
structure Kept
    (low : Int)
    (nodes : List ScoreBoardNode1)
    (sb : ScoreBoard1) : Prop where
  chain : ∃ high, Chain low nodes high
  sack_out : sb.sack_out = total .SKB_FLAG_SACKED nodes
  fack_out : sb.fack_out = total .SKB_FLAG_LOST nodes
  addrs : Distinct sb.fresh (nodes.map (·.addr))
  nxt : ∀ addr, sb.nxt_to_retrx = some addr →
    addr ∈ nodes.map (·.addr)

theorem gone_cons :
    Gone (node :: rest) n ↔
      ((node.flag = .SKB_FLAG_SACKED ∨
        node.flag = .SKB_FLAG_LOST) ∧
          node.inside n = true) ∨ Gone rest n := by
  unfold Gone
  exact List.exists_mem_cons_iff _ _ _

theorem Chain.gone
    (hChain : Chain low nodes high)
    (hGone : Gone nodes n) :
    low ≤ n ∧ n < high := by
  rcases hGone with ⟨node, hNode, -, hInside⟩
  have hBetween := hChain.between node hNode
  have hNumbers := inside_iff.mp hInside
  omega

/- The packets of the first block, one way or the other. -/
theorem Chain.card_first
    (hChain : Chain low (node :: rest) high) :
    ((((Finset.Ico low (node.getEnd + 1)).filter
      (Gone (node :: rest))).card : Nat) : Int) =
        (if node.flag = .SKB_FLAG_SACKED then node.getLength
          else 0) +
        (if node.flag = .SKB_FLAG_LOST then node.getLength
          else 0) := by
  rcases hChain with ⟨hSeq, hLe, hRest⟩
  have hHere : ∀ n ∈ Finset.Ico low (node.getEnd + 1),
      (Gone (node :: rest) n ↔
        node.flag = .SKB_FLAG_SACKED ∨
          node.flag = .SKB_FLAG_LOST) := by
    intro n hn
    have hRange := Finset.mem_Ico.mp hn
    rw [gone_cons]
    constructor
    · rintro (⟨hFlag, -⟩ | hLater)
      · exact hFlag
      · have hAfter := (hRest.gone hLater).1
        omega
    · intro hFlag
      exact Or.inl ⟨hFlag, inside_iff.mpr (by omega)⟩
  have hLength := @getLength_eq node
  have hCard := Int.card_Ico low (node.getEnd + 1)
  rw [Finset.filter_congr hHere]
  cases node.flag <;> simp [hCard, hLength] <;> omega

theorem Chain.card_gone
    (hChain : Chain low nodes high) :
    ((((Finset.Ico low high).filter
      (Gone nodes)).card : Nat) : Int) =
        total .SKB_FLAG_SACKED nodes +
          total .SKB_FLAG_LOST nodes := by
  induction nodes generalizing low with
  | nil =>
      rw [show low = high from hChain, Finset.Ico_self]
      rfl
  | cons node rest ih =>
      have hFirst := hChain.card_first
      rcases hChain with ⟨hSeq, hLe, hRest⟩
      have hLater : ∀ n ∈ Finset.Ico (node.getEnd + 1) high,
          (Gone (node :: rest) n ↔ Gone rest n) := by
        intro n hn
        have hRange := Finset.mem_Ico.mp hn
        rw [gone_cons]
        constructor
        · rintro (⟨-, hInside⟩ | hGone)
          · have hNumbers := inside_iff.mp hInside
            omega
          · exact hGone
        · exact Or.inr
      have hFirstLe : low ≤ node.getEnd + 1 := by
        omega
      have hApart : Disjoint
          (Finset.Ico low (node.getEnd + 1))
          (Finset.Ico (node.getEnd + 1) high) :=
        Finset.Ico_disjoint_Ico_consecutive _ _ _
      rw [← Finset.Ico_union_Ico_eq_Ico
          (b := node.getEnd + 1) hFirstLe hRest.le,
        Finset.filter_union,
        Finset.card_union_of_disjoint
          (Finset.disjoint_filter_filter hApart),
        Finset.filter_congr hLater, Nat.cast_add, hFirst,
        ih hRest]
      simp only [total]
      omega

/- What is outstanding is counted right. -/
theorem Kept.packets_in_flight
    (hKept : Kept low nodes sb)
    {snd_nxt : Int}
    (hLow : low ≤ snd_nxt)
    (hAbove : ∀ node ∈ nodes, node.getEnd < snd_nxt) :
    sb.packets_in_flight low snd_nxt =
      ((Finset.Ico low snd_nxt).filter
        fun n => ¬ Gone nodes n).card := by
  rcases hKept.chain with ⟨high, hChain⟩
  have hHigh : high ≤ snd_nxt := by
    cases hLast : nodes.getLast? with
    | none =>
        rw [List.getLast?_eq_none_iff.mp hLast] at hChain
        exact hChain ▸ hLow
    | some last =>
        have hEnd := hChain.getLast hLast
        have hLess := hAbove last
          (List.mem_of_getLast? hLast)
        omega
  have hGone :
      (Finset.Ico low snd_nxt).filter (Gone nodes) =
        (Finset.Ico low high).filter (Gone nodes) := by
    ext n
    simp only [Finset.mem_filter, Finset.mem_Ico]
    constructor
    · rintro ⟨-, hn⟩
      exact ⟨hChain.gone hn, hn⟩
    · rintro ⟨hRange, hn⟩
      exact ⟨⟨hRange.1, hRange.2.trans_le hHigh⟩, hn⟩
  have hSplit :=
    @Finset.card_filter_add_card_filter_not Int
      (Finset.Ico low snd_nxt) (Gone nodes) _ _
  have hCard := hChain.card_gone
  rw [hGone, Int.card_Ico] at hSplit
  unfold ScoreBoard1.packets_in_flight
  rw [hKept.fack_out, hKept.sack_out]
  omega

end ScoreBoard1

end Ns2
