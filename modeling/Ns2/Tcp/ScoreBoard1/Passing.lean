import Ns2.Tcp.ScoreBoard1.Chains

/-
  One pass over the list keeps the blocks contiguous and the
  counters exact, and ends after as many rounds as there are
  packets.

  Main declarations:
    * `ScoreBoard1.Place.Keeps`
    * `ScoreBoard1.Passing`

  Correctness is proven by:
    * `ScoreBoard1.Place.keeps_look`
    * `ScoreBoard1.Passing.traverse`
-/

------------------------------------------------------------
-- Changing a node
------------------------------------------------------------

namespace Ns2

namespace ScoreBoard1

open ScoreBoardNode1

variable {node : ScoreBoardNode1}
variable {rest : List ScoreBoardNode1}
variable {low high seq : Int}
variable {flag : SkbFlag}
variable {addr : Nat}

theorem setFlag_getEnd
    (hFlag : flag ≠ .SKB_FLAG_RETRANSMITTED) :
    (node.setFlag flag).getEnd = node.getEnd :=
  if_neg hFlag

theorem setFlag_getLength
    (hFlag : flag ≠ .SKB_FLAG_RETRANSMITTED) :
    (node.setFlag flag).getLength = node.getLength := by
  rw [getLength_eq, getLength_eq, setFlag_getEnd hFlag]
  rfl

theorem Chain.setFlag
    (hFlag : flag ≠ .SKB_FLAG_RETRANSMITTED)
    (hChain : Chain low (node :: rest) high) :
    Chain low (node.setFlag flag :: rest) high := by
  rcases hChain with ⟨hSeq, hLe, hRest⟩
  refine ⟨hSeq, ?_, ?_⟩
  · rw [setFlag_getEnd hFlag]
    exact hLe
  · rw [setFlag_getEnd hFlag]
    exact hRest

theorem splitFront_getEnd
    (hFlag : node.flag ≠ .SKB_FLAG_RETRANSMITTED) :
    (node.splitFront seq).getEnd = seq - 1 :=
  if_neg hFlag

theorem splitBack_getEnd
    (hFlag : node.flag ≠ .SKB_FLAG_RETRANSMITTED) :
    (node.splitBack addr seq).getEnd = node.getEnd := by
  rw [getEnd_of_ne hFlag]
  exact if_neg hFlag

theorem Chain.split
    (hFlag : node.flag ≠ .SKB_FLAG_RETRANSMITTED)
    (hLow : node.seq < seq)
    (hHigh : seq ≤ node.getEnd)
    (hChain : Chain low (node :: rest) high) :
    Chain low
      (node.splitFront seq :: node.splitBack addr seq :: rest)
      high := by
  rcases hChain with ⟨hSeq, hLe, hRest⟩
  have hBack : (node.splitBack addr seq).seq = seq := rfl
  refine ⟨hSeq, ?_, ?_, ?_, ?_⟩
  · rw [splitFront_getEnd hFlag]
    change node.seq ≤ _
    omega
  · rw [splitFront_getEnd hFlag, hBack]
    omega
  · rw [splitBack_getEnd hFlag, hBack]
    exact hHigh
  · rw [splitBack_getEnd hFlag]
    exact hRest

theorem total_split
    (hFlag : node.flag ≠ .SKB_FLAG_RETRANSMITTED) :
    total flag
        (node.splitFront seq :: node.splitBack addr seq ::
          rest) =
      total flag (node :: rest) := by
  have hFront : (node.splitFront seq).getLength =
      seq - node.seq := by
    rw [getLength_eq, splitFront_getEnd hFlag]
    change _ - node.seq = _
    omega
  have hBack : (node.splitBack addr seq).getLength =
      node.getEnd + 1 - seq := by
    rw [getLength_eq, splitBack_getEnd hFlag]
    rfl
  have hLength := @getLength_eq node
  have hFrontFlag : (node.splitFront seq).flag = node.flag :=
    rfl
  have hBackFlag :
      (node.splitBack addr seq).flag = node.flag := rfl
  simp only [total]
  rw [hFront, hBack, hFrontFlag, hBackFlag]
  split <;> omega

end ScoreBoard1

end Ns2

------------------------------------------------------------
-- Looking at a node
------------------------------------------------------------

namespace Ns2

namespace ScoreBoard1

open ScoreBoardNode1

namespace Place

variable {p q r : Place}

/-
  What does not change when a node is looked at: the packets
  of the list and, up to the totals, the counters.
-/
structure Keeps (p q : Place) : Prop where
  addr : q.now.addr = p.now.addr
  chain : ∀ low high,
    Chain low (p.now :: p.rest) high →
      Chain low (q.now :: q.rest) high
  sack_out :
    q.pass.sb.sack_out - total .SKB_FLAG_SACKED (q.now :: q.rest) =
      p.pass.sb.sack_out -
        total .SKB_FLAG_SACKED (p.now :: p.rest)
  fack_out :
    q.pass.sb.fack_out - total .SKB_FLAG_LOST (q.now :: q.rest) =
      p.pass.sb.fack_out -
        total .SKB_FLAG_LOST (p.now :: p.rest)
  addrs : ∀ used,
    Distinct p.pass.sb.fresh
        (used ++ (p.now :: p.rest).map (·.addr)) →
      Distinct q.pass.sb.fresh
        (used ++ (q.now :: q.rest).map (·.addr))
  fack : q.pass.sb.fack = p.pass.sb.fack

theorem Keeps.refl : p.Keeps p where
  addr := rfl
  chain := fun _ _ hChain => hChain
  sack_out := rfl
  fack_out := rfl
  addrs := fun _ hAddrs => hAddrs
  fack := rfl

theorem Keeps.trans
    (hFirst : p.Keeps q)
    (hSecond : q.Keeps r) :
    p.Keeps r := by
  constructor
  case addr => exact hSecond.addr.trans hFirst.addr
  case chain =>
    intro low high hChain
    exact hSecond.chain low high (hFirst.chain low high hChain)
  case sack_out =>
    exact hSecond.sack_out.trans hFirst.sack_out
  case fack_out =>
    exact hSecond.fack_out.trans hFirst.fack_out
  case addrs =>
    intro used hAddrs
    exact hSecond.addrs used (hFirst.addrs used hAddrs)
  case fack => exact hSecond.fack.trans hFirst.fack

theorem keeps_split
    {seq : Int}
    (hFlag : p.now.flag ≠ .SKB_FLAG_RETRANSMITTED)
    (hLow : p.now.seq < seq)
    (hHigh : seq ≤ p.now.getEnd) :
    p.Keeps (p.split seq) := by
  constructor
  case addr => rfl
  case chain =>
    intro low high hChain
    exact hChain.split hFlag hLow hHigh
  case sack_out =>
    unfold split
    rw [total_split hFlag]
  case fack_out =>
    unfold split
    rw [total_split hFlag]
  case addrs =>
    intro used hAddrs
    have hInsert := @Distinct.insert _ (used ++ [p.now.addr])
      (p.rest.map (·.addr))
      (by
        rw [List.append_assoc]
        exact hAddrs)
    rw [List.append_assoc] at hInsert
    exact hInsert
  case fack => rfl

theorem keeps_setSacked
    (hFlag : p.now.flag ≠ .SKB_FLAG_SACKED) :
    p.Keeps p.setSacked := by
  have hLength : (p.now.setFlag .SKB_FLAG_SACKED).getLength =
      p.now.getLength := setFlag_getLength (by decide)
  have hFlag' : (p.now.setFlag .SKB_FLAG_SACKED).flag =
      .SKB_FLAG_SACKED := rfl
  constructor
  case addr => rfl
  case chain =>
    intro low high hChain
    exact hChain.setFlag (by decide)
  case sack_out =>
    unfold setSacked
    simp only [total]
    rw [hLength, hFlag', if_pos rfl, if_neg hFlag]
    omega
  case fack_out =>
    unfold setSacked
    simp only [total]
    rw [hFlag', if_neg (by decide : ¬ SkbFlag.SKB_FLAG_SACKED =
      SkbFlag.SKB_FLAG_LOST)]
    split <;> omega
  case addrs =>
    intro used hAddrs
    exact hAddrs
  case fack => rfl

theorem remember_now : p.remember.now = p.now := by
  unfold remember
  split <;> rfl

theorem remember_rest : p.remember.rest = p.rest := by
  unfold remember
  split <;> rfl

theorem remember_sb :
    p.remember.pass.sb =
      { p.pass.sb with
        nxt_to_retrx := some
          (p.pass.sb.nxt_to_retrx.getD p.now.addr) } := by
  unfold remember
  cases hNext : p.pass.sb.nxt_to_retrx with
  | none => rfl
  | some addr =>
      dsimp only [Option.getD_some]
      rw [← hNext]

theorem keeps_remember : p.Keeps p.remember := by
  unfold remember
  cases p.pass.sb.nxt_to_retrx with
  | some addr => exact Keeps.refl
  | none =>
      constructor
      case addr => rfl
      case chain => exact fun _ _ hChain => hChain
      case sack_out => rfl
      case fack_out => rfl
      case addrs => exact fun _ hAddrs => hAddrs
      case fack => rfl

theorem keeps_setLost
    (hSacked : p.now.flag ≠ .SKB_FLAG_SACKED)
    (hLost : p.now.flag ≠ .SKB_FLAG_LOST) :
    p.Keeps p.setLost := by
  have hFlag' : (p.now.setFlag .SKB_FLAG_LOST).flag =
      .SKB_FLAG_LOST := rfl
  refine Keeps.trans ?_ keeps_remember
  constructor
  case addr => rfl
  case chain =>
    intro low high hChain
    exact hChain.setFlag (by decide)
  case sack_out =>
    simp only [total]
    rw [hFlag', if_neg (by decide : ¬ SkbFlag.SKB_FLAG_LOST =
      SkbFlag.SKB_FLAG_SACKED), if_neg hSacked]
  case fack_out =>
    simp only [total]
    rw [hFlag', if_pos rfl, if_neg hLost]
    omega
  case addrs =>
    intro used hAddrs
    exact hAddrs
  case fack => rfl

theorem keeps_skip : p.Keeps p.skip where
  addr := rfl
  chain := fun _ _ hChain => hChain
  sack_out := rfl
  fack_out := rfl
  addrs := fun _ hAddrs => hAddrs
  fack := rfl

/- Blocks that are due have packets above the node's start. -/
theorem skip_sacks
    {block : Int × Int}
    {more : List (Int × Int)}
    (hSacks : p.skip.pass.sacks = block :: more) :
    p.now.seq < block.2 := by
  have hHead := List.head?_dropWhile_not
    (fun block => decide (block.2 ≤ p.now.getStart))
    p.pass.sacks
  rw [show p.pass.sacks.dropWhile _ = block :: more from
    hSacks] at hHead
  exact not_le.mp (of_decide_eq_false hHead)

theorem missed_of_nil
    (hSacks : p.pass.sacks = []) :
    p.missed = true := by
  unfold missed
  rw [hSacks]
  rfl

theorem missed_of_lt
    {block : Int × Int}
    {more : List (Int × Int)}
    (hSacks : p.pass.sacks = block :: more)
    (hLess : p.now.getEnd < block.1) :
    p.missed = true := by
  unfold missed
  rw [hSacks]
  exact decide_eq_true hLess

/- A node with a packet of the block is marked, or split. -/
theorem keeps_sack
    (hFlag : p.now.flag ≠ .SKB_FLAG_SACKED) :
    p.Keeps p.sack ∧
      (p.sack.missed = true ∨
        p.sack.now.flag = .SKB_FLAG_SACKED) := by
  have hSkip : p.Keeps p.skip := keeps_skip
  unfold sack
  dsimp only
  cases hSacks : p.skip.pass.sacks with
  | nil => exact ⟨hSkip, Or.inl (missed_of_nil hSacks)⟩
  | cons block more =>
      rcases block with ⟨left, right⟩
      have hRight : p.now.seq < right := skip_sacks hSacks
      dsimp only
      split_ifs with hLeft hStart hEnd
      · have hSplit :
            p.skip.now.flag ≠ .SKB_FLAG_RETRANSMITTED := by
          intro hSame
          rw [getEnd_of_eq hSame] at hLeft
          exact absurd hStart (not_lt.mpr hLeft)
        refine ⟨hSkip.trans (keeps_split hSplit hStart hLeft),
          Or.inl (missed_of_lt hSacks ?_)⟩
        exact (splitFront_getEnd hSplit).trans_lt
          (Int.sub_one_lt_of_le le_rfl)
      · have hSplit :
            p.skip.now.flag ≠ .SKB_FLAG_RETRANSMITTED := by
          intro hSame
          rw [getEnd_of_eq hSame] at hEnd
          exact absurd hRight (not_lt.mpr hEnd)
        exact ⟨(hSkip.trans
          (keeps_split hSplit hRight hEnd)).trans
            (keeps_setSacked hFlag), Or.inr rfl⟩
      · exact ⟨hSkip.trans (keeps_setSacked hFlag),
          Or.inr rfl⟩
      · exact ⟨hSkip, Or.inl
          (missed_of_lt hSacks (not_le.mp hLeft))⟩

theorem sack_nxt :
    p.sack.pass.sb.nxt_to_retrx = p.pass.sb.nxt_to_retrx := by
  unfold sack
  dsimp only
  cases p.skip.pass.sacks with
  | nil => rfl
  | cons block more =>
      dsimp only
      split_ifs <;> rfl

/- Only the first lost node is remembered. -/
structure Remembers (p q : Place) : Prop where
  nxt : q.pass.sb.nxt_to_retrx = p.pass.sb.nxt_to_retrx ∨
    p.pass.sb.nxt_to_retrx = none ∧
      q.pass.sb.nxt_to_retrx = some q.now.addr ∧
        q.now.flag = .SKB_FLAG_LOST
  lost : q.now.flag = .SKB_FLAG_LOST →
    q.pass.sb.nxt_to_retrx ≠ none

theorem remembers_of_ne
    (hLost : p.now.flag ≠ .SKB_FLAG_LOST) :
    p.Remembers p where
  nxt := Or.inl rfl
  lost := fun hSame => absurd hSame hLost

theorem remembers_remember
    (hLost : p.now.flag = .SKB_FLAG_LOST) :
    p.Remembers p.remember := by
  unfold remember
  cases hNext : p.pass.sb.nxt_to_retrx with
  | none =>
      exact ⟨Or.inr ⟨hNext, rfl, hLost⟩,
        fun _ => Option.some_ne_none _⟩
  | some addr =>
      refine ⟨Or.inl rfl, ?_⟩
      intro _
      dsimp only
      rw [hNext]
      exact Option.some_ne_none _

theorem remembers_setLost : p.Remembers p.setLost := by
  have hRemembers := @remembers_remember
    { p with
      now := p.now.setFlag .SKB_FLAG_LOST
      pass := { p.pass with
        sb := { p.pass.sb with
          fack_out := p.pass.sb.fack_out +
            (p.now.setFlag .SKB_FLAG_LOST).getLength }
        flag := p.pass.flag ||| FLAG_DATA_LOST } } rfl
  exact ⟨hRemembers.nxt, hRemembers.lost⟩

theorem keeps_lose
    (dupack_threshold : Int) :
    p.Keeps (p.lose dupack_threshold) ∧
      p.Remembers (p.lose dupack_threshold) := by
  unfold lose
  cases hFlag : p.now.flag with
  | SKB_FLAG_SACKED =>
      refine ⟨Keeps.refl, remembers_of_ne ?_⟩
      rw [hFlag]
      decide
  | SKB_FLAG_LOST =>
      exact ⟨keeps_remember, remembers_remember hFlag⟩
  | SKB_FLAG_RETRANSMITTED =>
      have hSacked : p.now.flag ≠ .SKB_FLAG_SACKED := by
        rw [hFlag]
        decide
      have hLost : p.now.flag ≠ .SKB_FLAG_LOST := by
        rw [hFlag]
        decide
      dsimp only
      split_ifs with hAgain
      · exact ⟨keeps_setLost hSacked hLost, remembers_setLost⟩
      · exact ⟨Keeps.refl, remembers_of_ne hLost⟩
  | SKB_FLAG_INFLIGHT =>
      have hSacked : p.now.flag ≠ .SKB_FLAG_SACKED := by
        rw [hFlag]
        decide
      have hLost : p.now.flag ≠ .SKB_FLAG_LOST := by
        rw [hFlag]
        decide
      have hSplit :
          p.now.flag ≠ .SKB_FLAG_RETRANSMITTED := by
        rw [hFlag]
        decide
      dsimp only
      split_ifs with hSome hPart
      · have hFront := keeps_split hSplit
          (Int.lt_add_one_of_le hSome) hPart
        have hRemembers := @remembers_setLost (p.split
          (p.pass.sb.fack - (dupack_threshold + 1) + 1))
        exact ⟨hFront.trans (keeps_setLost hSacked hLost),
          hRemembers.nxt, hRemembers.lost⟩
      · exact ⟨keeps_setLost hSacked hLost, remembers_setLost⟩
      · exact ⟨Keeps.refl, remembers_of_ne hLost⟩

theorem keeps_look
    (dupack_threshold : Int) :
    p.Keeps (p.look dupack_threshold) ∧
      p.Remembers (p.look dupack_threshold) := by
  unfold look
  by_cases hFlag : p.now.flag = .SKB_FLAG_SACKED
  · rw [if_neg (not_not.mpr hFlag)]
    refine ⟨Keeps.refl, remembers_of_ne ?_⟩
    rw [hFlag]
    decide
  · rw [if_pos hFlag]
    rcases keeps_sack hFlag with ⟨hSack, hCase⟩
    dsimp only
    split_ifs with hMissed
    · rcases @keeps_lose p.sack dupack_threshold with
        ⟨hLose, hRemembers⟩
      have hNext := hRemembers.nxt
      rw [sack_nxt] at hNext
      exact ⟨hSack.trans hLose, hNext, hRemembers.lost⟩
    · refine ⟨hSack, Or.inl sack_nxt, ?_⟩
      intro hLost
      rcases hCase with hMissed' | hSacked
      · exact absurd hMissed' hMissed
      · rw [hLost] at hSacked
        cases hSacked

end Place

end ScoreBoard1

end Ns2

------------------------------------------------------------
-- Passes
------------------------------------------------------------

namespace Ns2

namespace ScoreBoard1

open ScoreBoardNode1

variable {sb : ScoreBoard1}
variable {now : ScoreBoardNode1}
variable {seen rest : List ScoreBoardNode1}
variable {low mid high : Int}

/- The list in a pass, of the nodes seen the last one first. -/
structure Passing
    (low mid high : Int)
    (sb : ScoreBoard1)
    (seen rest : List ScoreBoardNode1) : Prop where
  chain : Chain low seen.reverse mid
  due : Chain mid rest high
  sack_out : sb.sack_out =
    total .SKB_FLAG_SACKED (seen.reverse ++ rest)
  fack_out : sb.fack_out =
    total .SKB_FLAG_LOST (seen.reverse ++ rest)
  addrs : Distinct sb.fresh
    ((seen.reverse ++ rest).map (·.addr))
  nxt : ∀ addr, sb.nxt_to_retrx = some addr →
    addr ∈ seen.map (·.addr)
  lost : sb.nxt_to_retrx = none →
    ∀ node ∈ seen, node.flag ≠ .SKB_FLAG_LOST

/- What is left where a pass ends. -/
theorem Passing.kept
    (hPassing : Passing low mid high sb seen rest)
    (nodes : List ScoreBoardNode1) :
    Kept low (seen.reverse ++ rest)
      { sb with nodes := nodes } := by
  constructor
  case chain =>
    exact ⟨high, chain_append.mpr
      ⟨mid, hPassing.chain, hPassing.due⟩⟩
  case sack_out => exact hPassing.sack_out
  case fack_out => exact hPassing.fack_out
  case addrs => exact hPassing.addrs
  case nxt =>
    intro addr hNext
    rcases List.mem_map.mp (hPassing.nxt addr hNext) with
      ⟨node, hNode, hAddr⟩
    exact List.mem_map.mpr ⟨node, List.mem_append_left _
      (List.mem_reverse.mpr hNode), hAddr⟩

/- The node that was looked at has been seen. -/
theorem Passing.push
    {pass : Pass}
    {q : Place}
    (hPassing :
      Passing low mid high pass.sb seen (now :: rest))
    (hKeeps : Place.Keeps ⟨pass, now, rest⟩ q)
    (hRemembers : Place.Remembers ⟨pass, now, rest⟩ q) :
    Passing low (q.now.getEnd + 1) high q.pass.sb
      (q.now :: seen) q.rest := by
  rcases hKeeps.chain mid high hPassing.due with
    ⟨hSeq, hLe, hRest⟩
  have hList : (q.now :: seen).reverse ++ q.rest =
      seen.reverse ++ (q.now :: q.rest) := by
    rw [List.reverse_cons, List.append_assoc]
    rfl
  constructor
  case chain =>
    rw [List.reverse_cons]
    exact chain_append.mpr
      ⟨mid, hPassing.chain, hSeq, hLe, rfl⟩
  case due => exact hRest
  case sack_out =>
    have hTotal := hPassing.sack_out
    have hSame := hKeeps.sack_out
    rw [total_append] at hTotal
    rw [hList, total_append]
    dsimp only at hSame
    omega
  case fack_out =>
    have hTotal := hPassing.fack_out
    have hSame := hKeeps.fack_out
    rw [total_append] at hTotal
    rw [hList, total_append]
    dsimp only at hSame
    omega
  case addrs =>
    rw [hList, List.map_append]
    exact hKeeps.addrs _ (List.map_append ▸ hPassing.addrs)
  case nxt =>
    intro addr hNext
    rcases hRemembers.nxt with hSame | ⟨-, hSet, -⟩
    · rw [hSame] at hNext
      exact List.mem_cons_of_mem _ (hPassing.nxt addr hNext)
    · rw [hSet] at hNext
      cases hNext
      exact List.mem_cons_self
  case lost =>
    intro hNone node hNode
    rcases List.mem_cons.mp hNode with rfl | hSeen
    · exact fun hSame => hRemembers.lost hSame hNone
    · apply hPassing.lost _ node hSeen
      rcases hRemembers.nxt with hSame | ⟨-, hSet, -⟩
      · exact hSame.symm.trans hNone
      · rw [hSet] at hNone
        cases hNone

/- Nodes are merged unless the second is remembered. -/
theorem Passing.merge
    {prev : ScoreBoardNode1}
    {front : List ScoreBoardNode1}
    (hPassing :
      Passing low mid high sb (now :: prev :: front) rest)
    (hMerge : prev.mergable now)
    (hNext : ∀ addr, sb.nxt_to_retrx = some addr →
      addr ∈ (prev :: front).map (·.addr)) :
    Passing low mid high sb (prev.merge now :: front) rest := by
  have hList : (now :: prev :: front).reverse ++ rest =
      front.reverse ++ (prev :: now :: rest) := by
    simp
  have hMerged : (prev.merge now :: front).reverse ++ rest =
      front.reverse ++ (prev.merge now :: rest) := by
    simp
  have hChain := hPassing.chain
  rw [List.reverse_cons, List.reverse_cons, List.append_assoc]
    at hChain
  rcases chain_append.mp hChain with ⟨start, hFront, hTwo⟩
  have hTotal : ∀ flag,
      total flag (prev.merge now :: rest) =
        total flag (prev :: now :: rest) :=
    fun flag => total_merge hMerge.1 hMerge.2 hTwo.2.2.1
  constructor
  case chain =>
    rw [List.reverse_cons]
    exact chain_append.mpr
      ⟨start, hFront, hTwo.merge hMerge.1 hMerge.2⟩
  case due => exact hPassing.due
  case sack_out =>
    rw [hMerged, total_append, hTotal, ← total_append, ← hList]
    exact hPassing.sack_out
  case fack_out =>
    rw [hMerged, total_append, hTotal, ← total_append, ← hList]
    exact hPassing.fack_out
  case addrs =>
    have hSub : List.Sublist
        ((front.reverse ++ (prev.merge now :: rest)).map
          (·.addr))
        ((front.reverse ++ (prev :: now :: rest)).map
          (·.addr)) := by
      rw [List.map_append, List.map_append]
      apply List.Sublist.append_left
      exact (List.sublist_cons_self _ _).cons_cons _
    rw [hMerged]
    exact (hList ▸ hPassing.addrs).sublist hSub
  case nxt => exact hNext
  case lost =>
    intro hNone node hNode
    have hSeen := hPassing.lost hNone
    rcases List.mem_cons.mp hNode with rfl | hOld
    · exact hSeen prev
        (List.mem_cons_of_mem _ List.mem_cons_self)
    · exact hSeen node (List.mem_cons_of_mem _
        (List.mem_cons_of_mem _ hOld))

theorem Passing.link
    {pass : Pass}
    {q : Place}
    (hPassing :
      Passing low mid high pass.sb seen (now :: rest))
    (hKeeps : Place.Keeps ⟨pass, now, rest⟩ q)
    (hRemembers : Place.Remembers ⟨pass, now, rest⟩ q) :
    Passing low (q.now.getEnd + 1) high q.pass.sb
      (link q.now seen) q.rest := by
  have hPush := hPassing.push hKeeps hRemembers
  cases seen with
  | nil => exact hPush
  | cons prev front =>
      unfold ScoreBoard1.link
      dsimp only
      split_ifs with hMerge
      · apply hPush.merge hMerge
        intro addr hNext
        rcases hRemembers.nxt with
          hSame | ⟨hNone, -, hLost⟩
        · rw [hSame] at hNext
          exact hPassing.nxt addr hNext
        · exact absurd (hMerge.2 ▸ hLost)
            (hPassing.lost hNone prev List.mem_cons_self)
      · exact hPush

theorem Passing.extend
    {last : Int}
    (hPassing : Passing low mid high sb seen [])
    (hLast : mid ≤ last) :
    Passing low mid (last + 1)
      { sb with fresh := sb.fresh + 1 } seen
      [⟨sb.fresh, .SKB_FLAG_INFLIGHT, mid, last, 0⟩] := by
  constructor
  case chain => exact hPassing.chain
  case due => exact ⟨rfl, hLast, rfl⟩
  case sack_out =>
    have hTotal := hPassing.sack_out
    rw [total_append] at hTotal ⊢
    exact hTotal
  case fack_out =>
    have hTotal := hPassing.fack_out
    rw [total_append] at hTotal ⊢
    exact hTotal
  case addrs =>
    have hAddrs := hPassing.addrs
    rw [List.map_append] at hAddrs ⊢
    exact hAddrs.insert
  case nxt => exact hPassing.nxt
  case lost => exact hPassing.lost

/- The end of the nodes that have been seen. -/
theorem Passing.getEnd
    {prev : ScoreBoardNode1}
    {front : List ScoreBoardNode1}
    (hPassing : Passing low mid high sb (prev :: front) rest) :
    prev.getEnd + 1 = mid := by
  apply hPassing.chain.getLast
  rw [List.reverse_cons, List.getLast?_concat]

/- A list that ends too early is extended. -/
theorem Passing.append
    (hPassing : Passing low mid high sb seen rest) :
    ∃ high', high' ≤ max high (sb.fack + 1) ∧
      Passing low mid high' (append sb seen rest).1 seen
        (append sb seen rest).2 := by
  unfold ScoreBoard1.append
  cases seen with
  | nil => exact ⟨high, le_max_left _ _, hPassing⟩
  | cons prev front =>
      cases rest with
      | cons node rest =>
          exact ⟨high, le_max_left _ _, hPassing⟩
      | nil =>
          dsimp only
          split_ifs with hShort
          · have hEnd := hPassing.getEnd
            have hLast : mid ≤ sb.fack := by
              omega
            rw [hEnd]
            exact ⟨sb.fack + 1, le_max_right _ _,
              hPassing.extend hLast⟩
          · exact ⟨high, le_max_left _ _, hPassing⟩

theorem append_fack :
    (append sb seen rest).1.fack = sb.fack := by
  unfold append
  split
  · split <;> rfl
  · rfl

theorem traverse_nil
    {pass : Pass}
    (dupack_threshold : Int)
    (rounds : Nat) :
    traverse dupack_threshold rounds pass seen [] =
      some { pass with
        sb := { pass.sb with nodes := seen.reverse } } := by
  cases rounds <;> rfl

/- There are enough rounds to go through the list. -/
theorem Passing.traverse
    {pass : Pass}
    (dupack_threshold : Int)
    {rounds : Nat}
    (hPassing : Passing low mid high pass.sb seen rest)
    (hRounds : max high (pass.sb.fack + 1) - mid ≤ rounds) :
    ∃ pass',
      traverse dupack_threshold rounds pass seen rest =
          some pass' ∧
        Kept low pass'.sb.nodes pass'.sb := by
  induction rounds generalizing mid high pass seen rest with
  | zero =>
      cases rest with
      | nil =>
          refine ⟨_, traverse_nil dupack_threshold 0, ?_⟩
          have hKept := hPassing.kept seen.reverse
          rw [List.append_nil] at hKept
          exact hKept
      | cons now rest =>
          have hDue := hPassing.due.between now
            List.mem_cons_self
          omega
  | succ rounds ih =>
      cases rest with
      | nil =>
          refine ⟨_, traverse_nil dupack_threshold _, ?_⟩
          have hKept := hPassing.kept seen.reverse
          rw [List.append_nil] at hKept
          exact hKept
      | cons now rest =>
          unfold ScoreBoard1.traverse
          split_ifs with hDone
          · exact ⟨_, rfl, hPassing.kept _⟩
          · rcases @Place.keeps_look ⟨pass, now, rest⟩
              dupack_threshold with ⟨hKeeps, hRemembers⟩
            have hChain := hKeeps.chain mid high hPassing.due
            have hSeq := hChain.1
            have hLe := hChain.2.1
            have hFack := hKeeps.fack
            rcases (hPassing.link hKeeps hRemembers).append with
              ⟨high', hHigh, hNext⟩
            apply ih hNext
            dsimp only
            rw [append_fack]
            dsimp only at hFack
            omega

end ScoreBoard1

end Ns2
