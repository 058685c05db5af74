import Ns2.Lib.PartialRun
import Ns2.Tcp.ScoreBoard1.Passing

/-
  The scoreboard of the Linux TCP sender counts right, as long
  as no reported block that ends with the acknowledgement
  starts a new list.

  Main declarations:
    * `ScoreBoard1.Rightmost`
    * `ScoreBoard1.Allowed`, `ScoreBoard1.Good`
    * `ScoreBoard1.Meets`

  Correctness is proven by:
    * `ScoreBoard1.Kept.updateScoreBoard`
    * `ScoreBoard1.scoreboard_counts`
-/

------------------------------------------------------------
-- Cleaning
------------------------------------------------------------

namespace Ns2

namespace ScoreBoard1

open ScoreBoardNode1

variable {sb : ScoreBoard1}
variable {c : Cleaning}
variable {node : ScoreBoardNode1}
variable {nodes rest : List ScoreBoardNode1}
variable {low high last_ack pkt_num : Int}

theorem shouldClean_of_lt
    (hAbove : last_ack < node.seq) :
    node.shouldClean last_ack = 0 :=
  if_pos hAbove

theorem shouldClean_of_le
    (hSeq : node.seq ≤ last_ack)
    (hEnd : node.getEnd ≤ last_ack) :
    node.shouldClean last_ack = -1 := by
  unfold shouldClean
  rw [if_neg (not_lt.mpr hSeq), if_pos]
  by_cases hFlag : node.flag = .SKB_FLAG_RETRANSMITTED
  · exact Or.inl hFlag
  · exact Or.inr (getEnd_of_ne hFlag ▸ hEnd)

theorem shouldClean_of_between
    (hSeq : node.seq ≤ last_ack)
    (hEnd : last_ack < node.getEnd) :
    node.shouldClean last_ack = last_ack + 1 - node.seq := by
  have hFlag : node.flag ≠ .SKB_FLAG_RETRANSMITTED := by
    intro hSame
    rw [getEnd_of_eq hSame] at hEnd
    exact absurd hSeq (not_le.mpr hEnd)
  unfold shouldClean
  rw [if_neg (not_lt.mpr hSeq), if_neg]
  rintro (hSame | hLe)
  · exact hFlag hSame
  · rw [getEnd_of_ne hFlag] at hEnd
    exact absurd hLe (not_le.mpr hEnd)

/- The counters do not get negative. -/
theorem release_eq
    {flag : SkbFlag}
    (hSacked : flag = .SKB_FLAG_SACKED →
      pkt_num ≤ c.sb.sack_out)
    (hLost : flag = .SKB_FLAG_LOST →
      pkt_num ≤ c.sb.fack_out) :
    c.release flag pkt_num =
      some { c with
        sb := { c.sb with
          sack_out := c.sb.sack_out -
            if flag = .SKB_FLAG_SACKED then pkt_num else 0
          fack_out := c.sb.fack_out -
            if flag = .SKB_FLAG_LOST then pkt_num else 0 } } := by
  unfold Cleaning.release
  cases flag with
  | SKB_FLAG_SACKED =>
      have hLe := hSacked rfl
      dsimp only
      rw [if_neg (by omega)]
      simp
  | SKB_FLAG_LOST =>
      have hLe := hLost rfl
      dsimp only
      rw [if_neg (by omega)]
      simp
  | SKB_FLAG_INFLIGHT => simp
  | SKB_FLAG_RETRANSMITTED => simp

theorem noticeRtx_sb :
    ∃ acked_rtx_id,
      (c.noticeRtx node).sb =
        { c.sb with acked_rtx_id := acked_rtx_id } := by
  unfold Cleaning.noticeRtx
  split_ifs <;> exact ⟨_, rfl⟩

theorem free_sb :
    ∃ acked_rtx_id,
      (c.free node rest).sb =
        { c.sb with
          acked_rtx_id := acked_rtx_id
          nxt_to_retrx :=
            if c.sb.nxt_to_retrx = some node.addr then
              rest.head?.map (·.addr)
            else c.sb.nxt_to_retrx } := by
  rcases @noticeRtx_sb c node with ⟨acked_rtx_id, hNotice⟩
  refine ⟨acked_rtx_id, ?_⟩
  unfold Cleaning.free
  dsimp only
  rw [hNotice]
  dsimp only
  split_ifs
  · rfl
  · exact hNotice

/- The first block is acknowledged. -/
theorem Kept.free
    (hKept : Kept low (node :: rest) c.sb) :
    ∃ c',
      c.release node.flag node.getLength = some c' ∧
        Kept (node.getEnd + 1) rest (c'.free node rest).sb := by
  rcases hKept.chain with ⟨high, hSeq, hLe, hRest⟩
  have hSacked := hKept.sack_out
  have hLost := hKept.fack_out
  have hSackedRest :=
    @Chain.total_nonneg _ _ _ .SKB_FLAG_SACKED hRest
  have hLostRest :=
    @Chain.total_nonneg _ _ _ .SKB_FLAG_LOST hRest
  simp only [total] at hSacked hLost
  refine ⟨_, release_eq ?_ ?_, ?_⟩
  · intro hFlag
    rw [if_pos hFlag] at hSacked
    omega
  · intro hFlag
    rw [if_pos hFlag] at hLost
    omega
  · rcases @free_sb { c with
      sb := { c.sb with
        sack_out := c.sb.sack_out -
          if node.flag = .SKB_FLAG_SACKED then node.getLength
          else 0
        fack_out := c.sb.fack_out -
          if node.flag = .SKB_FLAG_LOST then node.getLength
          else 0 } } node rest with ⟨acked_rtx_id, hFree⟩
    rw [hFree]
    constructor
    case chain => exact ⟨high, hRest⟩
    case sack_out =>
      dsimp only
      omega
    case fack_out =>
      dsimp only
      omega
    case addrs =>
      exact hKept.addrs.sublist (List.sublist_cons_self _ _)
    case nxt =>
      intro addr hNext
      dsimp only at hNext
      split_ifs at hNext with hFirst
      · rcases Option.map_eq_some_iff.mp hNext with
          ⟨head, hHead, hAddr⟩
        exact List.mem_map.mpr
          ⟨head, List.mem_of_head? hHead, hAddr⟩
      · rcases List.mem_cons.mp (hKept.nxt addr hNext) with
          hSame | hLater
        · rw [hSame] at hNext
          exact absurd hNext hFirst
        · exact hLater

/- The first block is acknowledged in part. -/
theorem Kept.shorten
    (hKept : Kept low (node :: rest) c.sb)
    (hSeq : node.seq ≤ last_ack)
    (hEnd : last_ack < node.getEnd) :
    ∃ c',
      c.release node.flag (last_ack + 1 - node.seq) = some c' ∧
        Kept (last_ack + 1)
          ({ node with seq := last_ack + 1 } :: rest) c'.sb := by
  have hFlag : node.flag ≠ .SKB_FLAG_RETRANSMITTED := by
    intro hSame
    rw [getEnd_of_eq hSame] at hEnd
    exact absurd hSeq (not_le.mpr hEnd)
  have hEndSame :
      ({ node with seq := last_ack + 1 } :
        ScoreBoardNode1).getEnd = node.getEnd := by
    rw [getEnd_of_ne hFlag]
    exact if_neg hFlag
  have hLength :
      ({ node with seq := last_ack + 1 } :
        ScoreBoardNode1).getLength =
          node.getEnd + 1 - (last_ack + 1) := by
    rw [getLength_eq, hEndSame]
  have hOldLength := @getLength_eq node
  rcases hKept.chain with ⟨high, -, hLe, hRest⟩
  have hSacked := hKept.sack_out
  have hLost := hKept.fack_out
  have hSackedRest :=
    @Chain.total_nonneg _ _ _ .SKB_FLAG_SACKED hRest
  have hLostRest :=
    @Chain.total_nonneg _ _ _ .SKB_FLAG_LOST hRest
  simp only [total] at hSacked hLost
  refine ⟨_, release_eq ?_ ?_, ?_⟩
  · intro hSame
    rw [if_pos hSame] at hSacked
    omega
  · intro hSame
    rw [if_pos hSame] at hLost
    omega
  · constructor
    case chain =>
      refine ⟨high, rfl, ?_, ?_⟩
      · rw [hEndSame]
        exact hEnd
      · rw [hEndSame]
        exact hRest
    case sack_out =>
      simp only [total]
      rw [hLength]
      split_ifs at hSacked ⊢ <;> omega
    case fack_out =>
      simp only [total]
      rw [hLength]
      split_ifs at hLost ⊢ <;> omega
    case addrs => exact hKept.addrs
    case nxt => exact hKept.nxt

/- Nothing is left where all blocks are acknowledged. -/
theorem Kept.cleanRtxQueue
    (hKept : Kept low nodes c.sb)
    (hLow : low ≤ last_ack + 1) :
    ∃ c',
      cleanRtxQueue last_ack nodes c = some c' ∧
        Kept (last_ack + 1) c'.sb.nodes c'.sb ∧
        (c'.sb.nodes = [] →
          ∀ node ∈ nodes, node.getEnd ≤ last_ack) := by
  induction nodes generalizing low c with
  | nil =>
      refine ⟨_, rfl, ?_, ?_⟩
      · exact ⟨⟨_, rfl⟩, hKept.sack_out, hKept.fack_out,
          hKept.addrs, hKept.nxt⟩
      · intro _ node hNode
        cases hNode
  | cons node rest ih =>
      rcases hKept.chain with ⟨high, hSeq, hLe, hRest⟩
      unfold ScoreBoard1.cleanRtxQueue
      by_cases hAbove : last_ack < node.seq
      · rw [shouldClean_of_lt hAbove, if_pos rfl]
        have hSame : low = last_ack + 1 := by
          omega
        subst hSame
        refine ⟨_, rfl, ?_, ?_⟩
        · exact ⟨hKept.chain, hKept.sack_out, hKept.fack_out,
            hKept.addrs, hKept.nxt⟩
        · intro hNil
          cases hNil
      by_cases hAll : node.getEnd ≤ last_ack
      · rw [shouldClean_of_le (not_lt.mp hAbove) hAll]
        rcases hKept.free with ⟨c', hRelease, hFree⟩
        rcases ih hFree (by omega) with
          ⟨c'', hClean, hKept', hNil⟩
        refine ⟨c'', ?_, hKept', ?_⟩
        · rw [if_neg (by decide)]
          simp only [show ((-1 : Int) < 0) = True by simp,
            if_true]
          rw [hRelease]
          exact hClean
        · intro hEmpty other hOther
          rcases List.mem_cons.mp hOther with rfl | hLater
          · exact hAll
          · exact hNil hEmpty other hLater
      · rw [shouldClean_of_between (not_lt.mp hAbove)
          (not_le.mp hAll)]
        rcases hKept.shorten (not_lt.mp hAbove)
          (not_le.mp hAll) with ⟨c', hRelease, hShort⟩
        have hPos : ¬ last_ack + 1 - node.seq < 0 := by
          omega
        refine ⟨c'.withNodes
          ({ node with seq := last_ack + 1 } :: rest),
          ?_, ?_, ?_⟩
        · rw [if_neg (by omega)]
          simp only [if_neg hPos]
          rw [hRelease]
          rfl
        · exact ⟨hShort.chain, hShort.sack_out,
            hShort.fack_out, hShort.addrs, hShort.nxt⟩
        · intro hNil
          cases hNil

end ScoreBoard1

end Ns2

------------------------------------------------------------
-- Sorted blocks
------------------------------------------------------------

namespace Ns2

namespace ScoreBoard1

variable {last_ack : Int}
variable {blocks : List (Int × Int)}
variable {block : Int × Int}

/-
  The last of the blocks with the greatest left edge, apart
  from those that start below the acknowledgement.
-/
def Rightmost
    (last_ack : Int)
    (blocks : List (Int × Int))
    (block : Int × Int) : Prop :=
  ∃ front back,
    blocks = front ++ block :: back ∧
      last_ack ≤ block.1 ∧
      (∀ b ∈ front, last_ack ≤ b.1 → b.1 ≤ block.1) ∧
      ∀ b ∈ back, last_ack ≤ b.1 → b.1 < block.1

theorem Rightmost.concat
    (hRightmost : Rightmost last_ack blocks block)
    {b : Int × Int}
    (hLess : last_ack ≤ b.1 → b.1 < block.1) :
    Rightmost last_ack (blocks ++ [b]) block := by
  rcases hRightmost with
    ⟨front, back, hBlocks, hDue, hFront, hBack⟩
  refine ⟨front, back ++ [b], ?_, hDue, hFront, ?_⟩
  · rw [hBlocks, List.append_assoc]
    rfl
  · intro other hOther
    rcases List.mem_append.mp hOther with hOld | hNew
    · exact hBack other hOld
    · rw [List.mem_singleton.mp hNew]
      exact hLess

theorem Rightmost.new
    {b : Int × Int}
    (hDue : last_ack ≤ b.1)
    (hLess : ∀ other ∈ blocks,
      last_ack ≤ other.1 → other.1 ≤ b.1) :
    Rightmost last_ack (blocks ++ [b]) b :=
  ⟨blocks, [], rfl, hDue, hLess,
    fun _ hOther => absurd hOther List.not_mem_nil⟩

theorem Rightmost.le
    (hRightmost : Rightmost last_ack blocks block) :
    ∀ b ∈ blocks, last_ack ≤ b.1 → b.1 ≤ block.1 := by
  rcases hRightmost with
    ⟨front, back, rfl, hDue, hFront, hBack⟩
  intro b hb hLe
  rcases List.mem_append.mp hb with hOld | hRest
  · exact hFront b hOld hLe
  · rcases List.mem_cons.mp hRest with rfl | hNew
    · exact le_rfl
    · exact (hBack b hNew hLe).le

/- What the sorted list ends with. -/
theorem getLast_sortSacks :
    match (sortSacks last_ack blocks).getLast? with
    | none => ∀ b ∈ blocks, ¬ last_ack ≤ b.1
    | some block => Rightmost last_ack blocks block := by
  induction blocks using List.reverseRecOn with
  | nil =>
      intro b hb
      cases hb
  | append_singleton blocks b ih =>
      unfold sortSacks at ih ⊢
      rw [List.foldl_append, List.foldl_cons, List.foldl_nil]
      rcases List.eq_nil_or_concat
        (blocks.foldl _ []) with hNil | ⟨front, last, hLast⟩
      · rw [hNil] at ih ⊢
        split_ifs with hDue
        · apply Rightmost.new hDue
          intro other hOther hLe
          exact absurd hLe (ih other hOther)
        · intro other hOther
          rcases List.mem_append.mp hOther with hOld | hNew
          · exact ih other hOld
          · rw [List.mem_singleton.mp hNew]
            exact hDue
      · rw [hLast] at ih ⊢
        rw [List.concat_eq_append, List.getLast?_concat] at ih
        split_ifs with hDue
        · by_cases hLess : b.1 < last.1
          · rw [List.concat_eq_append, List.rtakeWhile_concat,
              if_pos (decide_eq_true hLess),
              ← List.cons_append, ← List.append_assoc,
              List.getLast?_concat]
            exact ih.concat fun _ => hLess
          · rw [List.concat_eq_append, List.rtakeWhile_concat,
              if_neg (by simpa using hLess),
              List.getLast?_concat]
            apply Rightmost.new hDue
            intro other hOther hLe
            exact (ih.le other hOther hLe).trans
              (not_lt.mp hLess)
        · rw [List.concat_eq_append, List.getLast?_concat]
          exact ih.concat fun hLe => absurd hLe hDue

end ScoreBoard1

end Ns2

------------------------------------------------------------
-- Updates
------------------------------------------------------------

namespace Ns2

namespace ScoreBoard1

open ScoreBoardNode1

variable {sb : ScoreBoard1}
variable {node : ScoreBoardNode1}
variable {nodes rest : List ScoreBoardNode1}
variable {low high last_ack : Int}
variable {blocks sacks : List (Int × Int)}
variable {thorough : Bool}

theorem Kept.clearScoreBoard :
    Kept low [] sb.clearScoreBoard where
  chain := ⟨low, rfl⟩
  sack_out := rfl
  fack_out := rfl
  addrs := ⟨List.nodup_nil, fun _ h => absurd h List.not_mem_nil⟩
  nxt := fun _ hNext => by cases hNext

theorem advanceFack_fack
    {block : Int × Int}
    (hLast : sacks.getLast? = some block) :
    (advanceFack sb thorough sacks).1.fack =
      max sb.fack (block.2 - 1) := by
  unfold advanceFack
  rw [hLast]
  dsimp only
  split_ifs with hLess
  · exact (max_eq_right hLess.le).symm
  · exact (max_eq_left (not_lt.mp hLess)).symm

theorem advanceFack_nodes :
    (advanceFack sb thorough sacks).1.nodes = sb.nodes := by
  unfold advanceFack
  split
  · rfl
  · split <;> rfl

theorem Kept.advanceFack
    (hKept : Kept low nodes sb) :
    Kept low nodes (advanceFack sb thorough sacks).1 := by
  unfold ScoreBoard1.advanceFack
  split
  · exact hKept
  · split
    · exact ⟨hKept.chain, hKept.sack_out, hKept.fack_out,
        hKept.addrs, hKept.nxt⟩
    · exact hKept

theorem Kept.create
    (hKept : Kept (last_ack + 1) sb.nodes sb)
    (hFack : sb.nodes = [] → last_ack < sb.fack) :
    Kept (last_ack + 1) (sb.create last_ack).nodes
        (sb.create last_ack) ∧
      (sb.create last_ack).nodes ≠ [] := by
  unfold ScoreBoard1.create
  cases hNodes : sb.nodes with
  | cons node rest =>
      refine ⟨?_, ?_⟩
      · dsimp only
        exact hKept
      · dsimp only
        rw [hNodes]
        exact List.cons_ne_nil _ _
  | nil =>
      rw [hNodes] at hKept
      refine ⟨?_, List.cons_ne_nil _ _⟩
      constructor
      case chain =>
        exact ⟨_, rfl, hFack hNodes, rfl⟩
      case sack_out => exact hKept.sack_out
      case fack_out => exact hKept.fack_out
      case addrs => exact (@Distinct.insert _ [] [] hKept.addrs)
      case nxt =>
        intro addr hNext
        exact absurd (hKept.nxt addr hNext) List.not_mem_nil

/- A pass starts at the first node. -/
theorem Kept.start
    (hKept : Kept low nodes sb) :
    ∃ high,
      Passing low low high { sb with nxt_to_retrx := none } []
        nodes := by
  rcases hKept.chain with ⟨high, hChain⟩
  refine ⟨high, rfl, hChain, hKept.sack_out, hKept.fack_out,
    hKept.addrs, ?_, ?_⟩
  · intro addr hNext
    cases hNext
  · intro _ node hNode
    cases hNode

theorem Chain.rounds
    (hChain : Chain low sb.nodes high)
    (hSome : sb.nodes ≠ []) :
    max high (sb.fack + 1) - low ≤ sb.rounds := by
  unfold ScoreBoard1.rounds
  cases hLast : sb.nodes.getLast? with
  | none => exact absurd (List.getLast?_eq_none_iff.mp hLast) hSome
  | some last =>
      have hEnd := hChain.getLast hLast
      cases hNodes : sb.nodes with
      | nil => exact absurd hNodes hSome
      | cons node rest =>
          rw [hNodes] at hChain
          have hSeq : node.getStart = low := hChain.1
          dsimp only [List.head?_cons]
          omega

/- The list that a pass goes through is there. -/
theorem Kept.created
    (hKept : Kept (last_ack + 1) sb.nodes sb)
    (hFack : sb.nodes = [] → ∃ block,
      sacks.getLast? = some block ∧
        last_ack < max sb.fack (block.2 - 1)) :
    Kept (last_ack + 1)
        ((ScoreBoard1.advanceFack sb thorough
          sacks).1.create last_ack).nodes
        ((ScoreBoard1.advanceFack sb thorough
          sacks).1.create last_ack) ∧
      ((ScoreBoard1.advanceFack sb thorough
        sacks).1.create last_ack).nodes ≠ [] := by
  have hNodes := @advanceFack_nodes sb sacks thorough
  have hAdvanced := @Kept.advanceFack _ _ _ sacks thorough
    hKept
  rw [← hNodes] at hAdvanced
  refine hAdvanced.create fun hNil => ?_
  rw [hNodes] at hNil
  rcases hFack hNil with ⟨block, hLast, hLess⟩
  rw [advanceFack_fack hLast]
  exact hLess

/- The pass of an update, over a list that is there. -/
theorem Kept.pass
    (dupack_threshold : Int)
    (flag : Nat)
    (hKept : Kept (last_ack + 1) sb.nodes sb)
    (hFack : sb.nodes = [] → ∃ block,
      sacks.getLast? = some block ∧
        last_ack < max sb.fack (block.2 - 1)) :
    ∃ pass',
      traverse dupack_threshold
          ((ScoreBoard1.advanceFack sb thorough
            sacks).1.create last_ack).rounds
          ⟨{ (ScoreBoard1.advanceFack sb thorough
                sacks).1.create last_ack with
              nxt_to_retrx := none },
            flag,
            (ScoreBoard1.advanceFack sb thorough sacks).2,
            sacks⟩ []
          ((ScoreBoard1.advanceFack sb thorough
            sacks).1.create last_ack).nodes =
        some pass' ∧
      Kept (last_ack + 1) pass'.sb.nodes pass'.sb := by
  rcases hKept.created hFack with ⟨hCreated, hSome⟩
  rcases hCreated.start with ⟨high, hStart⟩
  exact hStart.traverse dupack_threshold
    (hStart.due.rounds hSome)

/- Every update that does not start an empty block is right. -/
theorem Kept.updateScoreBoard
    (dupack_threshold : Int)
    (hKept : Kept low sb.nodes sb)
    (hLow : low ≤ last_ack + 1)
    (hGood : (∀ node ∈ sb.nodes, node.getEnd ≤ last_ack) →
      ∀ block, Rightmost last_ack blocks block →
        last_ack < 0 ∨ last_ack + 1 < block.2) :
    ∃ r,
      sb.updateScoreBoard last_ack blocks dupack_threshold =
          some r ∧
        Kept (last_ack + 1) r.1.nodes r.1 := by
  rcases @Kept.cleanRtxQueue ⟨sb, false, 0⟩ _ low last_ack
    hKept hLow with ⟨c, hClean, hKept', hEmpty⟩
  unfold ScoreBoard1.updateScoreBoard
  rw [hClean, Option.bind_some]
  by_cases hNil : c.sb.nodes = []
  · simp only [if_pos hNil, true_and]
    split_ifs with hNone hFew
    · exact ⟨_, rfl, Kept.clearScoreBoard⟩
    · exact ⟨_, rfl, Kept.clearScoreBoard⟩
    · have hFar : ∃ block,
          (sortSacks last_ack blocks).getLast? = some block ∧
            last_ack < max 0 (block.2 - 1) := by
        have hRightmost := @getLast_sortSacks last_ack blocks
        cases hLast : (sortSacks last_ack blocks).getLast? with
        | none =>
            exact absurd (List.getLast?_eq_none_iff.mp hLast)
              hFew
        | some block =>
            rw [hLast] at hRightmost
            have hCase := hGood (hEmpty hNil) block hRightmost
            exact ⟨block, rfl, by omega⟩
      rcases @Kept.pass c.sb.clearScoreBoard last_ack
        (sortSacks last_ack blocks) false dupack_threshold
        c.flag Kept.clearScoreBoard (fun _ => hFar) with
        ⟨pass', hPass, hDone⟩
      exact ⟨_, Option.map_eq_some_iff.mpr
        ⟨pass', hPass, rfl⟩, hDone⟩
  · simp only [if_neg hNil]
    split_ifs with hNone hFew
    · exact ⟨_, rfl, hKept'⟩
    · exact ⟨_, rfl, hKept'⟩
    · rcases @Kept.pass c.sb last_ack
        (sortSacks last_ack blocks) c.changed_acked_rtx
        dupack_threshold c.flag hKept'
        (fun hNil' => absurd hNil' hNil) with
        ⟨pass', hPass, hDone⟩
      exact ⟨_, Option.map_eq_some_iff.mpr
        ⟨pass', hPass, rfl⟩, hDone⟩

end ScoreBoard1

end Ns2

------------------------------------------------------------
-- Losses
------------------------------------------------------------

namespace Ns2

namespace ScoreBoard1

open ScoreBoardNode1

variable {sb : ScoreBoard1}
variable {s : Losing}
variable {now : ScoreBoardNode1}
variable {rest : List ScoreBoardNode1}
variable {low mid high snd_una snd_nxt : Int}

/- The scoreboard in a walk. -/
def Losing.board
    (s : Losing)
    (sb : ScoreBoard1) : ScoreBoard1 :=
  { sb with
    fack_out := s.fack_out
    nxt_to_retrx := s.nxt_to_retrx }

/- The invariant of the walk. -/
structure Walking
    (low mid high : Int)
    (sb : ScoreBoard1)
    (s : Losing)
    (rest : List ScoreBoardNode1) : Prop where
  passing : Passing low mid high (s.board sb) s.seen rest
  last_lost : s.last_lost = true → ∃ prev front,
    s.seen = prev :: front ∧ prev.flag = .SKB_FLAG_LOST

/- A node that is lost already does not change. -/
theorem setFlag_self
    (hFlag : now.flag = .SKB_FLAG_LOST) :
    now.setFlag .SKB_FLAG_LOST = now := by
  unfold setFlag
  rw [hFlag, if_neg (by decide), ← hFlag]

/- The first lost node of the walk is remembered. -/
theorem Walking.nxt
    (hWalking : Walking low mid high sb s (now :: rest))
    (hFlag : now.flag ≠ .SKB_FLAG_SACKED) :
    (loseNode s now).nxt_to_retrx =
      some (s.nxt_to_retrx.getD now.addr) := by
  unfold loseNode
  rw [if_pos hFlag]
  dsimp only
  cases hSome : s.nxt_to_retrx with
  | some addr => simp
  | none =>
      rw [if_pos]
      · rfl
      refine ⟨?_, rfl⟩
      by_contra hLast
      rcases hWalking.last_lost (Bool.not_eq_false _ ▸ hLast)
        with ⟨prev, front, hSeen, hLost⟩
      exact hWalking.passing.lost hSome prev
        (hSeen ▸ List.mem_cons_self) hLost

/- What the walk does to one node, but for the merging. -/
theorem Walking.push
    (hWalking : Walking low mid high sb s (now :: rest))
    (hFlag : now.flag ≠ .SKB_FLAG_SACKED) :
    Passing low (now.getEnd + 1) high
      ((loseNode s now).board sb)
      (now.setFlag .SKB_FLAG_LOST :: s.seen) rest := by
  have hPassing : Passing low mid high
      (⟨s.board sb, 0, false, []⟩ : Pass).sb s.seen
      (now :: rest) := hWalking.passing
  have hNext := hWalking.nxt hFlag
  have hEnd : (now.setFlag .SKB_FLAG_LOST).getEnd =
      now.getEnd := setFlag_getEnd (by decide)
  by_cases hLost : now.flag = .SKB_FLAG_LOST
  · have hFack : (loseNode s now).fack_out = s.fack_out := by
      unfold loseNode
      rw [if_pos hFlag]
      exact if_neg (not_not.mpr hLost)
    have hPush := hPassing.push Place.keeps_remember
      (Place.remembers_remember hLost)
    rw [Place.remember_now, Place.remember_rest,
      Place.remember_sb] at hPush
    unfold Losing.board
    rw [setFlag_self hLost, hFack, hNext]
    exact hPush
  · have hLength : (now.setFlag .SKB_FLAG_LOST).getLength =
        now.getEnd - now.getStart + 1 := by
      rw [getLength_eq, hEnd]
      change now.getEnd + 1 - now.seq = _ - now.seq + 1
      omega
    have hFack : (loseNode s now).fack_out =
        s.fack_out +
          (now.setFlag .SKB_FLAG_LOST).getLength := by
      unfold loseNode
      rw [if_pos hFlag, hLength]
      exact if_pos hLost
    have hPush := hPassing.push
      (Place.keeps_setLost hFlag hLost)
      Place.remembers_setLost
    unfold Place.setLost at hPush
    rw [Place.remember_now, Place.remember_rest,
      Place.remember_sb] at hPush
    dsimp only at hPush
    rw [hEnd] at hPush
    unfold Losing.board
    rw [hFack, hNext]
    exact hPush

/- The node is put next to the others. -/
theorem loseNode_first
    (hFlag : now.flag ≠ .SKB_FLAG_SACKED)
    (hLast : s.last_lost = false) :
    (loseNode s now).seen =
      now.setFlag .SKB_FLAG_LOST :: s.seen := by
  unfold loseNode
  rw [if_pos hFlag, hLast]

/- The node is a part of the one before. -/
theorem loseNode_merge
    {prev : ScoreBoardNode1}
    {front : List ScoreBoardNode1}
    (hFlag : now.flag ≠ .SKB_FLAG_SACKED)
    (hLast : s.last_lost = true)
    (hSeen : s.seen = prev :: front) :
    (loseNode s now).seen =
      prev.merge (now.setFlag .SKB_FLAG_LOST) :: front := by
  unfold loseNode
  rw [if_pos hFlag, hLast, hSeen]

/- One node of the walk. -/
theorem Walking.lose
    (hWalking : Walking low mid high sb s (now :: rest)) :
    Walking low (now.getEnd + 1) high sb (loseNode s now)
      rest := by
  by_cases hFlag : now.flag = .SKB_FLAG_SACKED
  · have hLost : now.flag ≠ .SKB_FLAG_LOST := by
      rw [hFlag]
      decide
    have hPush := @Passing.push _ _ _ _ _ _
      ⟨s.board sb, 0, false, []⟩ _ hWalking.passing
      Place.Keeps.refl (Place.remembers_of_ne hLost)
    unfold loseNode
    rw [if_neg (not_not.mpr hFlag)]
    exact ⟨hPush, fun hLast => by cases hLast⟩
  · have hPush := hWalking.push hFlag
    cases hLast : s.last_lost with
    | false =>
        have hSeen := loseNode_first hFlag hLast
        refine ⟨?_, fun _ => ⟨_, _, hSeen, rfl⟩⟩
        rw [hSeen]
        exact hPush
    | true =>
        rcases hWalking.last_lost hLast with
          ⟨prev, front, hFront, hLost⟩
        have hSeen := loseNode_merge hFlag hLast hFront
        refine ⟨?_, fun _ => ⟨_, _, hSeen, hLost⟩⟩
        rw [hSeen]
        rw [hFront] at hPush
        have hAgain : SkbFlag.SKB_FLAG_LOST ≠
            .SKB_FLAG_RETRANSMITTED := by
          decide
        apply hPush.merge ⟨hAgain, hLost.symm⟩
        intro addr hNext
        have hNext' : (loseNode s now).nxt_to_retrx =
            some addr := hNext
        rw [hWalking.nxt hFlag] at hNext'
        cases hSome : s.nxt_to_retrx with
        | none =>
            exact absurd hLost (hWalking.passing.lost hSome prev
              (hFront ▸ List.mem_cons_self))
        | some a =>
            rw [hSome] at hNext'
            cases hNext'
            have hMem := hWalking.passing.nxt a hSome
            rw [hFront] at hMem
            exact hMem

theorem loseNode_seen :
    (loseNode s now).seen ≠ [] := by
  unfold loseNode
  split
  · dsimp only
    split <;> exact List.cons_ne_nil _ _
  · exact List.cons_ne_nil _ _

/- The whole walk. -/
theorem Walking.foldl
    (hWalking : Walking low mid high sb s rest) :
    Walking low high high sb (rest.foldl loseNode s) [] := by
  induction rest generalizing mid s with
  | nil =>
      have hEnd : mid = high := hWalking.passing.due
      rw [← hEnd] at hWalking ⊢
      exact hWalking
  | cons now rest ih => exact ih hWalking.lose

/- The walk starts at the first node. -/
theorem Kept.walk
    (hKept : Kept low rest sb) :
    ∃ high, Walking low low high sb
      ⟨sb.fack_out, none, false, []⟩ rest := by
  rcases hKept.start with ⟨high, hStart⟩
  exact ⟨high, hStart, fun hLast => by cases hLast⟩

/- All that was sent is lost, but for what has arrived. -/
theorem Kept.markLoss
    (hKept : Kept low sb.nodes sb)
    (hLow : sb.nodes = [] → low = snd_una) :
    Kept low (sb.markLoss snd_una snd_nxt).nodes
      (sb.markLoss snd_una snd_nxt) := by
  rcases hKept.walk with ⟨high, hWalk⟩
  have hDone := hWalk.foldl
  unfold ScoreBoard1.markLoss
  dsimp only
  generalize hFold : sb.nodes.foldl loseNode
    ⟨sb.fack_out, none, false, []⟩ = s at hDone
  have hPassing := hDone.passing
  cases hSeen : s.seen with
  | nil =>
      have hNodes : sb.nodes = [] := by
        rcases List.eq_nil_or_concat sb.nodes with
          hNil | ⟨front, last, hLast⟩
        · exact hNil
        · rw [hLast, List.concat_eq_append, List.foldl_append,
            List.foldl_cons, List.foldl_nil] at hFold
          exact absurd (hFold ▸ hSeen) loseNode_seen
      have hSame := hLow hNodes
      subst hSame
      rw [hNodes] at hKept
      dsimp only
      split_ifs with hSent
      · constructor
        case chain =>
          refine ⟨_, rfl, ?_, rfl⟩
          change low ≤ snd_nxt - 1
          omega
        case sack_out => exact hKept.sack_out
        case fack_out =>
          have hFack : sb.fack_out = 0 := hKept.fack_out
          simp only [total]
          rw [if_pos trivial, hFack]
          change 0 + _ = snd_nxt - 1 + 1 - low + 0
          omega
        case addrs => exact @Distinct.insert _ [] [] hKept.addrs
        case nxt =>
          intro addr hNext
          cases hNext
          exact List.mem_singleton_self _
      · dsimp only
        rw [hNodes]
        exact ⟨hKept.chain, hKept.sack_out, hKept.fack_out,
          hKept.addrs, fun _ hNext => by cases hNext⟩
  | cons prev front =>
      dsimp only
      split_ifs with hMore
      · have hEnd : prev.getEnd + 1 = high := by
          rw [hSeen] at hPassing
          exact hPassing.getEnd
        have hLast : high ≤ snd_nxt - 1 := by
          omega
        have hExtended : Walking low high (snd_nxt - 1 + 1)
            { sb with fresh := sb.fresh + 1 } s
            [⟨sb.fresh, .SKB_FLAG_INFLIGHT, high, snd_nxt - 1,
              0⟩] :=
          ⟨hPassing.extend hLast, hDone.last_lost⟩
        rw [hEnd]
        have hAll := hExtended.lose.passing.kept []
        rw [List.append_nil] at hAll
        exact ⟨hAll.chain, hAll.sack_out, hAll.fack_out,
          hAll.addrs, hAll.nxt⟩
      · have hAll := hPassing.kept s.seen.reverse
        rw [List.append_nil, hSeen] at hAll
        exact ⟨hAll.chain, hAll.sack_out, hAll.fack_out,
          hAll.addrs, hAll.nxt⟩

end ScoreBoard1

end Ns2

------------------------------------------------------------
-- Retransmissions
------------------------------------------------------------

namespace Ns2

namespace ScoreBoard1

open ScoreBoardNode1

variable {sb : ScoreBoard1}
variable {node : ScoreBoardNode1}
variable {front rest : List ScoreBoardNode1}
variable {low high seqno snd_nxt : Int}

theorem from_addr_subset
    (addr : Nat) :
    ∀ node ∈ sb.from_addr addr, node ∈ sb.nodes :=
  fun _ hNode => (List.dropWhile_sublist _).subset hNode

theorem Kept.getNextRetran
    (hKept : Kept low sb.nodes sb) :
    Kept low sb.getNextRetran.2.nodes sb.getNextRetran.2 := by
  unfold ScoreBoard1.getNextRetran
  cases hNext : sb.nxt_to_retrx with
  | none => exact hKept
  | some addr =>
      dsimp only
      split
      · exact ⟨hKept.chain, hKept.sack_out, hKept.fack_out,
          hKept.addrs, fun _ hNone => by cases hNone⟩
      next node more hDrop =>
        refine ⟨hKept.chain, hKept.sack_out, hKept.fack_out,
          hKept.addrs, ?_⟩
        intro a hSome
        cases hSome
        have hMem : node ∈ sb.from_addr addr := by
          apply (List.dropWhile_sublist _).subset
          rw [hDrop]
          exact List.mem_cons_self
        exact List.mem_map.mpr
          ⟨node, from_addr_subset addr node hMem, rfl⟩

/- The node that is to be sent again. -/
structure Found
    (sb : ScoreBoard1)
    (front : List ScoreBoardNode1)
    (node : ScoreBoardNode1)
    (rest : List ScoreBoardNode1) : Prop where
  nxt : sb.nxt_to_retrx = some node.addr
  front : sb.nodes.takeWhile
    (fun other => decide (other.addr ≠ node.addr)) = front
  rest : sb.from_addr node.addr = node :: rest
  lost : node.flag = .SKB_FLAG_LOST

theorem Found.nodes
    (hFound : Found sb front node rest) :
    sb.nodes = front ++ node :: rest := by
  rw [← hFound.front, ← hFound.rest]
  exact List.takeWhile_append_dropWhile.symm

theorem getNextRetran_found
    (hNodup : (sb.nodes.map (·.addr)).Nodup)
    (hNext : sb.getNextRetran = (seqno, sb))
    (hSome : seqno ≠ -1) :
    ∃ front node rest,
      Found sb front node rest ∧ node.getStart = seqno := by
  unfold getNextRetran at hNext
  split at hNext
  · exact absurd (congrArg Prod.fst hNext).symm hSome
  next addr hAddr =>
    split at hNext
    · exact absurd (congrArg Prod.fst hNext).symm hSome
    next node more hDrop =>
      have hStart : node.getStart = seqno :=
        congrArg Prod.fst hNext
      have hSame := congrArg (fun r => r.2.nxt_to_retrx) hNext
      dsimp only at hSame
      rw [hAddr] at hSame
      have hNodeAddr : node.addr = addr := Option.some.inj hSame
      have hLost := List.head?_dropWhile_not
        (fun node => decide (node.flag ≠ .SKB_FLAG_LOST))
        (sb.from_addr addr)
      rw [hDrop] at hLost
      have hFlag : node.flag = .SKB_FLAG_LOST :=
        not_not.mp (of_decide_eq_false hLost)
      cases hFrom : sb.from_addr addr with
      | nil =>
          rw [hFrom] at hDrop
          cases hDrop
      | cons head tail =>
          have hHead := List.head?_dropWhile_not
            (fun node => decide (node.addr ≠ addr)) sb.nodes
          rw [show sb.nodes.dropWhile _ = head :: tail from
            hFrom] at hHead
          have hHeadAddr : head.addr = addr :=
            not_not.mp (of_decide_eq_false hHead)
          have hMem : node ∈ head :: tail := by
            rw [← hFrom]
            apply (List.dropWhile_sublist _).subset
            rw [hDrop]
            exact List.mem_cons_self
          have hSub : List.Sublist
              ((head :: tail).map (·.addr))
              (sb.nodes.map (·.addr)) := by
            rw [← hFrom]
            exact (List.dropWhile_sublist _).map _
          have hApart := hNodup.sublist hSub
          rw [List.map_cons, List.nodup_cons] at hApart
          rcases List.mem_cons.mp hMem with rfl | hTail
          · refine ⟨_, node, tail, ⟨?_, rfl, ?_, hFlag⟩,
              hStart⟩
            · rw [hAddr, hNodeAddr]
            · rw [hNodeAddr]
              exact hFrom
          · exact absurd (List.mem_map.mpr
              ⟨node, hTail, hNodeAddr.trans hHeadAddr.symm⟩)
              hApart.1

theorem getNextRetran_none
    (hNext : sb.nxt_to_retrx = none) :
    sb.getNextRetran = (-1, sb) := by
  unfold getNextRetran
  rw [hNext]

theorem getNextRetran_nil
    {addr : Nat}
    (hNext : sb.nxt_to_retrx = some addr)
    (hDrop : ((sb.from_addr addr).dropWhile fun node =>
      decide (node.flag ≠ .SKB_FLAG_LOST)) = []) :
    sb.getNextRetran =
      (-1, { sb with nxt_to_retrx := none }) := by
  unfold getNextRetran
  rw [hNext]
  dsimp only
  rw [hDrop]

theorem getNextRetran_cons
    {addr : Nat}
    (hNext : sb.nxt_to_retrx = some addr)
    (hDrop : ((sb.from_addr addr).dropWhile fun node =>
      decide (node.flag ≠ .SKB_FLAG_LOST)) = node :: rest) :
    sb.getNextRetran =
      (node.getStart,
        { sb with nxt_to_retrx := some node.addr }) := by
  unfold getNextRetran
  rw [hNext]
  dsimp only
  rw [hDrop]

theorem getNextRetran_nodes :
    sb.getNextRetran.2.nodes = sb.nodes := by
  cases hNext : sb.nxt_to_retrx with
  | none => rw [getNextRetran_none hNext]
  | some addr =>
      cases hDrop : (sb.from_addr addr).dropWhile fun node =>
          decide (node.flag ≠ .SKB_FLAG_LOST) with
      | nil => rw [getNextRetran_nil hNext hDrop]
      | cons node more => rw [getNextRetran_cons hNext hDrop]

/- Asked again, a scoreboard gives the same answer. -/
theorem getNextRetran_again
    (hNodup : (sb.nodes.map (·.addr)).Nodup) :
    sb.getNextRetran.2.getNextRetran = sb.getNextRetran := by
  cases hNext : sb.nxt_to_retrx with
  | none => rw [getNextRetran_none hNext, getNextRetran_none hNext]
  | some addr =>
      cases hDrop : (sb.from_addr addr).dropWhile fun node =>
          decide (node.flag ≠ .SKB_FLAG_LOST) with
      | nil =>
          rw [getNextRetran_nil hNext hDrop,
            getNextRetran_none rfl]
      | cons node more =>
          have hLost := List.head?_dropWhile_not
            (fun node => decide (node.flag ≠ .SKB_FLAG_LOST))
            (sb.from_addr addr)
          rw [hDrop] at hLost
          have hSuffix :
              List.IsSuffix (node :: more) sb.nodes := by
            rw [← hDrop]
            exact (List.dropWhile_suffix _).trans
              (List.dropWhile_suffix _)
          rcases hSuffix with ⟨front, hNodes⟩
          have hFrom : ({ sb with
              nxt_to_retrx := some node.addr } :
                ScoreBoard1).from_addr node.addr =
              node :: more := by
            unfold from_addr
            dsimp only
            rw [← hNodes, List.map_append, List.map_cons,
              List.nodup_middle, List.nodup_cons] at hNodup
            rw [← hNodes, List.dropWhile_append_of_pos]
            · rw [List.dropWhile_cons_of_neg]
              simp
            · intro other hOther
              apply decide_eq_true
              intro hSame
              apply hNodup.1
              rw [← hSame]
              exact List.mem_append_left _
                (List.mem_map_of_mem hOther)
          rw [getNextRetran_cons hNext hDrop]
          rw [@getNextRetran_cons _ node more node.addr rfl]
          rw [hFrom, List.dropWhile_cons_of_neg]
          rw [hLost]
          decide

/- The rest of a block follows the packet that is sent. -/
theorem Chain.markNode
    (snd_nxt : Int)
    (hLost : node.flag = .SKB_FLAG_LOST)
    (hChain : Chain low (node :: rest) high) :
    Chain low (sb.markNode snd_nxt node ++ rest) high := by
  have hFlag : node.flag ≠ .SKB_FLAG_RETRANSMITTED := by
    rw [hLost]
    decide
  have hEnd := getEnd_of_ne hFlag
  rcases hChain with ⟨hSeq, hLe, hRest⟩
  unfold ScoreBoard1.markNode
  split_ifs with hMore
  · refine ⟨hSeq, le_rfl, rfl, ?_, ?_⟩
    · rw [splitBack_getEnd hFlag, hEnd]
      exact hMore
    · rw [splitBack_getEnd hFlag]
      exact hRest
  · have hOnly : node.getEnd = node.seq := by
      omega
    rw [hOnly] at hRest
    exact ⟨hSeq, le_rfl, hRest⟩

theorem total_markNode
    {flag : SkbFlag}
    (hFlag : flag ≠ .SKB_FLAG_RETRANSMITTED)
    (hLost : node.flag = .SKB_FLAG_LOST)
    (hLe : node.seq ≤ node.getEnd) :
    total flag (sb.markNode snd_nxt node ++ rest) =
      total flag (node :: rest) -
        if flag = .SKB_FLAG_LOST then 1 else 0 := by
  have hNode : node.flag ≠ .SKB_FLAG_RETRANSMITTED := by
    rw [hLost]
    decide
  have hEnd := getEnd_of_ne hNode
  have hLength := @getLength_eq node
  unfold markNode
  split_ifs with hMore hSame hSame
  · have hBack :
        (node.splitBack sb.fresh (node.seq + 1)).getLength =
          node.getLength - 1 := by
      rw [getLength_eq, splitBack_getEnd hNode]
      change _ - (node.seq + 1) = _
      omega
    have hBackFlag :
        (node.splitBack sb.fresh (node.seq + 1)).flag =
          .SKB_FLAG_LOST := hLost
    simp only [List.cons_append, List.nil_append, total]
    rw [if_neg hFlag.symm, hBackFlag, hBack, hLost,
      if_pos hSame.symm, if_pos hSame.symm]
    omega
  · have hBackFlag :
        (node.splitBack sb.fresh (node.seq + 1)).flag =
          .SKB_FLAG_LOST := hLost
    simp only [List.cons_append, List.nil_append, total]
    rw [if_neg hFlag.symm, hBackFlag, hLost,
      if_neg (Ne.symm hSame), if_neg (Ne.symm hSame)]
    omega
  · simp only [List.cons_append, List.nil_append, total]
    rw [if_neg hFlag.symm, hLost, if_pos hSame.symm]
    omega
  · simp only [List.cons_append, List.nil_append, total]
    rw [if_neg hFlag.symm, hLost, if_neg (Ne.symm hSame)]
    omega

theorem Distinct.markNode
    {used : List Nat}
    (snd_nxt : Int)
    (hDistinct : Distinct sb.fresh
      (used ++ (node :: rest).map (·.addr))) :
    Distinct (sb.fresh + 1)
      (used ++ (sb.markNode snd_nxt node ++ rest).map
        (·.addr)) := by
  unfold ScoreBoard1.markNode
  split_ifs
  · have hInsert := @Distinct.insert _ (used ++ [node.addr])
      (rest.map (·.addr))
      (by
        rw [List.append_assoc]
        exact hDistinct)
    rw [List.append_assoc] at hInsert
    exact hInsert
  · exact ⟨hDistinct.nodup, fun addr hAddr =>
      (hDistinct.old addr hAddr).trans (Nat.lt_succ_self _)⟩

/- One packet of a lost block is on its way again. -/
theorem Kept.markRetran
    (snd_nxt : Int)
    (hKept : Kept low sb.nodes sb)
    (hFound : Found sb front node rest) :
    ∃ sb',
      sb.markRetran node.getStart snd_nxt = some sb' ∧
        Kept low sb'.nodes sb' := by
  rw [hFound.nodes] at hKept
  rcases hKept.chain with ⟨high, hChain⟩
  rcases chain_append.mp hChain with ⟨mid, hFront, hRest⟩
  have hLe : node.seq ≤ node.getEnd := hRest.2.1
  have hLength := @getLength_eq node
  have hInside : node.inside node.getStart = true :=
    inside_iff.mpr ⟨le_rfl, hLe⟩
  have hSack := hKept.sack_out
  have hFack := hKept.fack_out
  have hFrontLost :=
    @Chain.total_nonneg _ _ _ .SKB_FLAG_LOST hFront
  have hRestLost :=
    @Chain.total_nonneg _ _ _ .SKB_FLAG_LOST hRest.2.2
  rw [total_append] at hSack hFack
  have hSome : ¬ sb.fack_out - 1 < 0 := by
    rw [total, if_pos hFound.lost] at hFack
    omega
  unfold ScoreBoard1.markRetran
  rw [hFound.nxt]
  dsimp only
  rw [hFound.rest]
  dsimp only
  rw [if_neg (by simp [hInside]), if_neg hSome]
  refine ⟨_, rfl, ?_⟩
  dsimp only
  rw [hFound.front]
  constructor
  case chain =>
    exact ⟨high, chain_append.mpr
      ⟨mid, hFront, hRest.markNode snd_nxt hFound.lost⟩⟩
  case sack_out =>
    rw [total_append,
      total_markNode (by decide) hFound.lost hLe,
      if_neg (by decide), Int.sub_zero]
    exact hSack
  case fack_out =>
    rw [total_append,
      total_markNode (by decide) hFound.lost hLe, if_pos rfl]
    dsimp only
    omega
  case addrs =>
    have hAddrs := hKept.addrs
    rw [List.map_append] at hAddrs ⊢
    exact hAddrs.markNode snd_nxt
  case nxt =>
    intro addr hNext
    cases hNext
    rw [List.map_append]
    apply List.mem_append_right
    unfold markNode
    split_ifs <;> exact List.mem_cons_self

end ScoreBoard1

end Ns2

------------------------------------------------------------
-- Runs
------------------------------------------------------------

namespace Ns2

namespace ScoreBoard1

open ScoreBoardNode1

variable {sb : ScoreBoard1}
variable {low high : Int}

def lastAcks (calls : List Call) : List Int :=
  calls.filterMap fun
    | .updateScoreBoard last_ack _ _ => some last_ack
    | .markLoss last_ack _ => some last_ack
    | _ => none

/-
  The cumulative acknowledgement does not go back, what is
  marked has just been returned, and what is lost starts after
  the last acknowledgement.
-/
def Allowed
    (before : List Call)
    (sb : ScoreBoard1) : Call → Prop
| .updateScoreBoard last_ack _ _ =>
    ∀ a ∈ lastAcks before, a ≤ last_ack
| .markRetran retran_seqno _ =>
    retran_seqno ≠ -1 ∧ sb.getNextRetran = (retran_seqno, sb)
| .markLoss last_ack _ =>
    (∀ a ∈ lastAcks before, a ≤ last_ack) ∧
      (sb.nodes ≠ [] →
        (lastAcks before).getLast? = some last_ack)
| .getNextRetran => True
| .clearScoreBoard => True

/-
  When all blocks are acknowledged, the last block that was
  reported goes past the next packet.
-/
def Good (sb : ScoreBoard1) : Call → Prop
| .updateScoreBoard last_ack blocks _ =>
    (∀ node ∈ sb.nodes, node.getEnd ≤ last_ack) →
      ∀ block, Rightmost last_ack blocks block →
        last_ack < 0 ∨ last_ack + 1 < block.2
| _ => True

/- What a scoreboard says after some calls. -/
structure Meets
    (calls : List Call)
    (sb : ScoreBoard1) : Prop where
  contiguous : ∃ low high, Chain low sb.nodes high
  above : ∀ node ∈ sb.nodes, ∀ a ∈ lastAcks calls,
    a < node.getStart
  sack_out : sb.sack_out = total .SKB_FLAG_SACKED sb.nodes
  fack_out : sb.fack_out = total .SKB_FLAG_LOST sb.nodes
  in_flight : ∀ last_ack snd_nxt,
    (lastAcks calls).getLast? = some last_ack →
    last_ack < snd_nxt →
    (∀ node ∈ sb.nodes, node.getEnd < snd_nxt) →
      sb.packets_in_flight (last_ack + 1) snd_nxt =
        ((Finset.Ico (last_ack + 1) snd_nxt).filter
          fun n => ¬ Gone sb.nodes n).card
  distinct : (sb.nodes.map (·.addr)).Nodup
  nxt : ∀ addr, sb.nxt_to_retrx = some addr →
    ∃ node ∈ sb.nodes, node.addr = addr

/- The invariant, with the last acknowledgement. -/
def Inv
    (calls : List Call)
    (sb : ScoreBoard1) : Prop :=
  ∃ ack,
    Kept (ack + 1) sb.nodes sb ∧
      (∀ a ∈ lastAcks calls, a ≤ ack) ∧
      (∀ a, (lastAcks calls).getLast? = some a → a = ack) ∧
      (lastAcks calls = [] → sb.nodes = [])

theorem Inv.meets
    {calls : List Call}
    (hInv : Inv calls sb) :
    sb.Meets calls := by
  rcases hInv with ⟨ack, hKept, hAcks, hLast, -⟩
  rcases hKept.chain with ⟨high, hChain⟩
  constructor
  case contiguous => exact ⟨ack + 1, high, hChain⟩
  case above =>
    intro node hNode a ha
    have hBetween := hChain.between node hNode
    have hLe := hAcks a ha
    change a < node.seq
    omega
  case sack_out => exact hKept.sack_out
  case fack_out => exact hKept.fack_out
  case in_flight =>
    intro last_ack snd_nxt hSome hLess hAbove
    have hSame := hLast last_ack hSome
    subst hSame
    exact hKept.packets_in_flight hLess hAbove
  case distinct => exact hKept.addrs.nodup
  case nxt =>
    intro addr hNext
    exact List.mem_map.mp (hKept.nxt addr hNext)

theorem Kept.of_nil
    (hKept : Kept low sb.nodes sb)
    (hNil : sb.nodes = []) :
    Kept high sb.nodes sb := by
  refine ⟨⟨high, ?_⟩, hKept.sack_out, hKept.fack_out,
    hKept.addrs, hKept.nxt⟩
  rw [hNil]
  exact rfl

/- No block starts after the next acknowledgement. -/
theorem Inv.kept
    {calls : List Call}
    (hInv : Inv calls sb)
    {last_ack : Int}
    (hAll : ∀ a ∈ lastAcks calls, a ≤ last_ack) :
    ∃ low, low ≤ last_ack + 1 ∧ Kept low sb.nodes sb := by
  rcases hInv with ⟨ack, hKept, -, hLast, hNone⟩
  cases hSome : (lastAcks calls).getLast? with
  | none =>
      have hNil := hNone (List.getLast?_eq_none_iff.mp hSome)
      exact ⟨last_ack + 1, le_rfl, hKept.of_nil hNil⟩
  | some a =>
      have hSame := hLast a hSome
      have hLe := hAll a (List.mem_of_getLast? hSome)
      exact ⟨ack + 1, by omega, hKept⟩

/- A call with an acknowledgement. -/
theorem Inv.acknowledge
    {before : List Call}
    {c : Call}
    {last_ack : Int}
    (hKept : Kept (last_ack + 1) sb.nodes sb)
    (hAll : ∀ a ∈ lastAcks before, a ≤ last_ack)
    (hCall : lastAcks [c] = [last_ack]) :
    Inv (before ++ [c]) sb := by
  have hAcks : lastAcks (before ++ [c]) =
      lastAcks before ++ [last_ack] := by
    rw [← hCall]
    exact List.filterMap_append
  refine ⟨last_ack, hKept, ?_, ?_, ?_⟩
  · intro a ha
    rw [hAcks] at ha
    rcases List.mem_append.mp ha with hOld | hNew
    · exact hAll a hOld
    · exact (List.mem_singleton.mp hNew).le
  · intro a ha
    rw [hAcks, List.getLast?_concat] at ha
    exact (Option.some.inj ha).symm
  · intro hNil
    rw [hAcks] at hNil
    exact absurd hNil
      (List.append_ne_nil_of_right_ne_nil _
        (List.cons_ne_nil _ _))

/- Every allowed and good call goes through. -/
theorem Inv.call
    {before : List Call}
    {c : Call}
    (hInv : Inv before sb)
    (hAllowed : Allowed before sb c)
    (hGood : Good sb c) :
    ∃ sb', call sb c = some sb' ∧ Inv (before ++ [c]) sb' := by
  have hSame : lastAcks [c] = [] →
      lastAcks (before ++ [c]) = lastAcks before := by
    intro hNone
    have hAppend : lastAcks (before ++ [c]) =
        lastAcks before ++ lastAcks [c] :=
      List.filterMap_append
    rw [hAppend, hNone, List.append_nil]
  cases c with
  | updateScoreBoard last_ack blocks dupack_threshold =>
      rcases hInv.kept hAllowed with ⟨low, hLow, hKept⟩
      rcases hKept.updateScoreBoard dupack_threshold hLow hGood
        with ⟨r, hUpdate, hKept'⟩
      refine ⟨r.1, ?_, Inv.acknowledge hKept' hAllowed rfl⟩
      unfold ScoreBoard1.call
      dsimp only
      rw [hUpdate]
      rfl
  | markLoss last_ack snd_nxt =>
      refine ⟨_, rfl, Inv.acknowledge ?_ hAllowed.1 rfl⟩
      rcases hInv with ⟨ack, hKept, -, hLast, -⟩
      by_cases hNil : sb.nodes = []
      · exact (hKept.of_nil hNil).markLoss fun _ => rfl
      · have hAck := hLast last_ack (hAllowed.2 hNil)
        subst hAck
        exact hKept.markLoss fun _ => rfl
  | getNextRetran =>
      rcases hInv with ⟨ack, hKept, hAcks, hLast, hNone⟩
      refine ⟨_, rfl, ack, hKept.getNextRetran, ?_⟩
      rw [hSame rfl, getNextRetran_nodes]
      exact ⟨hAcks, hLast, hNone⟩
  | markRetran retran_seqno snd_nxt =>
      rcases hInv with ⟨ack, hKept, hAcks, hLast, hNone⟩
      rcases getNextRetran_found hKept.addrs.nodup hAllowed.2
        hAllowed.1 with ⟨front, node, rest, hFound, hStart⟩
      rcases hKept.markRetran snd_nxt hFound with
        ⟨sb', hMark, hKept'⟩
      rw [hStart] at hMark
      refine ⟨sb', hMark, ack, hKept', ?_⟩
      rw [hSame rfl]
      refine ⟨hAcks, hLast, ?_⟩
      intro hNil
      have hNodes := hFound.nodes
      rw [hNone hNil] at hNodes
      exact absurd hNodes.symm
        (List.append_ne_nil_of_right_ne_nil front
          (List.cons_ne_nil node rest))
  | clearScoreBoard =>
      rcases hInv with ⟨ack, -, hAcks, hLast, -⟩
      refine ⟨_, rfl, ack, Kept.clearScoreBoard, ?_⟩
      rw [hSame rfl]
      exact ⟨hAcks, hLast, fun _ => rfl⟩

theorem inv_new : Inv [] new := by
  refine ⟨0, ⟨⟨_, rfl⟩, rfl, rfl, ⟨List.nodup_nil, ?_⟩, ?_⟩,
    ?_, ?_, fun _ => rfl⟩
  · intro addr hAddr
    cases hAddr
  · intro addr hNext
    cases hNext
  · intro a ha
    cases ha
  · intro a ha
    cases ha

/-
  In every run of allowed and good calls, no assertion fails
  and the scoreboard counts what is outstanding right.
-/
theorem scoreboard_counts
    {calls : List Call}
    (hCalls : ∀ before c after sb,
      calls = before ++ c :: after →
        PartialRun.run call new before = some sb →
        Allowed before sb c ∧ Good sb c) :
    ∃ sb,
      PartialRun.run call new calls = some sb ∧
        sb.Meets calls := by
  rcases @PartialRun.progress _ _ call Inv
    (fun before sb c => Allowed before sb c ∧ Good sb c)
    (fun before sb c hInv hc => hInv.call hc.1 hc.2)
    _ _ inv_new hCalls with ⟨sb, hRun, hInv⟩
  exact ⟨sb, hRun, hInv.meets⟩

/-
  0 and 1 get lost, 0 is sent again, and after a timeout it is
  lost with what comes after the blocks.
-/
theorem scoreboard_counts_losses :
    ∃ sb,
      PartialRun.run call new
          [.updateScoreBoard (-1) [(2, 4)] 3,
            .updateScoreBoard (-1) [(2, 8)] 3,
            .getNextRetran, .markRetran 0 10,
            .markLoss (-1) 10] = some sb ∧
        sb.sack_out = 6 ∧ sb.fack_out = 4 ∧
        sb.Meets
          [.updateScoreBoard (-1) [(2, 4)] 3,
            .updateScoreBoard (-1) [(2, 8)] 3,
            .getNextRetran, .markRetran 0 10,
            .markLoss (-1) 10] := by
  have hNext :
      (PartialRun.run call new
        [.updateScoreBoard (-1) [(2, 4)] 3,
          .updateScoreBoard (-1) [(2, 8)] 3,
          .getNextRetran]).map
            (fun sb => decide (sb.getNextRetran = (0, sb))) =
        some true := by
    decide +kernel
  have hCounts :
      (PartialRun.run call new
        [.updateScoreBoard (-1) [(2, 4)] 3,
          .updateScoreBoard (-1) [(2, 8)] 3,
          .getNextRetran, .markRetran 0 10,
          .markLoss (-1) 10]).map
            (fun sb => (sb.sack_out, sb.fack_out)) =
        some (6, 4) := by
    decide +kernel
  have hRun := @scoreboard_counts
    [.updateScoreBoard (-1) [(2, 4)] 3,
      .updateScoreBoard (-1) [(2, 8)] 3,
      .getNextRetran, .markRetran 0 10, .markLoss (-1) 10] ?_
  · rcases hRun with ⟨sb, hRun, hMeets⟩
    rw [hRun] at hCounts
    have hBoth := Option.some.inj hCounts
    exact ⟨sb, hRun, congrArg Prod.fst hBoth,
      congrArg Prod.snd hBoth, hMeets⟩
  intro before c after sb hEq hBefore
  rcases before with
    _ | ⟨c₁, _ | ⟨c₂, _ | ⟨c₃, _ | ⟨c₄, _ | ⟨c₅, before⟩⟩⟩⟩⟩
  · cases hEq
    refine ⟨?_, fun _ _ _ => Or.inl (by decide)⟩
    change ∀ a ∈ lastAcks [], a ≤ -1
    decide
  · cases hEq
    refine ⟨?_, fun _ _ _ => Or.inl (by decide)⟩
    change ∀ a ∈ lastAcks
      [.updateScoreBoard (-1) [(2, 4)] 3], a ≤ -1
    decide
  · cases hEq
    exact ⟨trivial, trivial⟩
  · cases hEq
    rw [hBefore] at hNext
    exact ⟨⟨by decide,
      of_decide_eq_true (Option.some.inj hNext)⟩, trivial⟩
  · cases hEq
    exact ⟨⟨by decide, fun _ => by decide⟩, trivial⟩
  · have hNil := congrArg (List.drop 5) hEq
    exact absurd hNil.symm
      (List.append_ne_nil_of_right_ne_nil before
        (List.cons_ne_nil c after))

/-
  1 is acknowledged and reported once more.  The block is not
  filtered, and an empty list gets the block from 2 to 1.
-/
theorem scoreboard_creates_empty_block :
    ∃ sb,
      call new (.updateScoreBoard 1 [(1, 2)] 3) = some sb ∧
        Allowed [] new (.updateScoreBoard 1 [(1, 2)] 3) ∧
        sb.nodes = [⟨0, .SKB_FLAG_INFLIGHT, 2, 1, 0⟩] ∧
        ¬ sb.Meets [.updateScoreBoard 1 [(1, 2)] 3] := by
  have hNodes :
      (call new (.updateScoreBoard 1 [(1, 2)] 3)).map nodes =
        some [⟨0, .SKB_FLAG_INFLIGHT, 2, 1, 0⟩] := by
    decide +kernel
  rcases Option.map_eq_some_iff.mp hNodes with
    ⟨sb, hCall, hSame⟩
  refine ⟨sb, hCall,
    fun a ha => absurd ha List.not_mem_nil, hSame, ?_⟩
  intro hMeets
  rcases hMeets.contiguous with ⟨low, high, hChain⟩
  rw [hSame] at hChain
  exact absurd hChain.2.1 (by decide)

end ScoreBoard1

end Ns2
