import Ns2.Tcp.ScoreBoard1.Correctness

/-
  The packet that is to be sent again.

  The first lost node is remembered, so that it need not be
  searched for.  An update forgets it and goes through the
  list; unless the pass is thorough it stops where all blocks
  have been dealt with, and what is lost behind that place is
  only remembered if something before it is.

  Main declarations:
    * `ScoreBoard1.Noted`, `ScoreBoard1.Finds`
    * `ScoreBoard1.Reaches`

  Correctness is proven by:
    * `ScoreBoard1.Noted.getNextRetran`
    * `ScoreBoard1.Looking.look`
    * `ScoreBoard1.losses_remembered`
-/

------------------------------------------------------------
-- The node that is remembered
------------------------------------------------------------

namespace Ns2

namespace ScoreBoard1

open ScoreBoardNode1

variable {sb : ScoreBoard1}
variable {nxt : Option Nat}
variable {node node' : ScoreBoardNode1}
variable {nodes front rest : List ScoreBoardNode1}
variable {addr : Nat}

/- Nothing before the node at the address is lost. -/
def Noted (nxt : Option Nat) : List ScoreBoardNode1 → Prop
| [] => True
| node :: rest =>
    nxt = some node.addr ∨
      node.flag ≠ .SKB_FLAG_LOST ∧ Noted nxt rest

theorem noted_of_ne
    (hNone : ∀ node ∈ nodes, node.flag ≠ .SKB_FLAG_LOST) :
    Noted nxt nodes := by
  induction nodes with
  | nil => trivial
  | cons node rest ih =>
      have hFirst := hNone node List.mem_cons_self
      refine Or.inr ⟨hFirst, ih fun other hOther => ?_⟩
      exact hNone other (List.mem_cons_of_mem _ hOther)

theorem Noted.ne
    (hNoted : Noted nxt nodes)
    (hNot : ∀ node ∈ nodes, nxt ≠ some node.addr) :
    ∀ node ∈ nodes, node.flag ≠ .SKB_FLAG_LOST := by
  induction nodes with
  | nil =>
      intro node hNode
      cases hNode
  | cons first rest ih =>
      intro node hNode
      have hLater := hNoted.resolve_left
        (hNot first List.mem_cons_self)
      rcases List.mem_cons.mp hNode with rfl | hRest
      · exact hLater.1
      · exact ih hLater.2 (fun other hOther =>
          hNot other (List.mem_cons_of_mem _ hOther)) node hRest

theorem Noted.append
    (hFront : Noted nxt front)
    (hRest : Noted nxt rest) :
    Noted nxt (front ++ rest) := by
  induction front with
  | nil => exact hRest
  | cons node front ih =>
      rcases hFront with hHere | ⟨hNot, hLater⟩
      · exact Or.inl hHere
      · exact Or.inr ⟨hNot, ih hLater⟩

/- What comes after the node does not matter. -/
theorem Noted.append_of_mem
    (hFront : Noted (some addr) front)
    (hMem : addr ∈ front.map (·.addr)) :
    Noted (some addr) (front ++ rest) := by
  induction front with
  | nil => cases hMem
  | cons node front ih =>
      rcases hFront with hHere | ⟨hNot, hLater⟩
      · exact Or.inl hHere
      · rcases List.mem_cons.mp hMem with rfl | hOther
        · exact Or.inl rfl
        · exact Or.inr ⟨hNot, ih hLater hOther⟩

theorem Noted.left
    (hNoted : Noted nxt (front ++ rest)) :
    Noted nxt front := by
  induction front with
  | nil => trivial
  | cons node front ih =>
      rcases hNoted with hHere | ⟨hNot, hLater⟩
      · exact Or.inl hHere
      · exact Or.inr ⟨hNot, ih hLater⟩

/- A node may be replaced by one that looks the same. -/
theorem Noted.replace
    (hNoted : Noted nxt (front ++ node :: rest))
    (hAddr : node'.addr = node.addr)
    (hFlag : node'.flag = node.flag) :
    Noted nxt (front ++ node' :: rest) := by
  induction front with
  | nil =>
      rcases hNoted with hHere | ⟨hNot, hLater⟩
      · exact Or.inl (hHere.trans (congrArg some hAddr.symm))
      · exact Or.inr ⟨hFlag ▸ hNot, hLater⟩
  | cons first front ih =>
      rcases hNoted with hHere | ⟨hNot, hLater⟩
      · exact Or.inl hHere
      · exact Or.inr ⟨hNot, ih hLater⟩

/- The search may start at the node that is remembered. -/
theorem Noted.dropWhile
    (hNoted : Noted (some addr) nodes) :
    ((nodes.dropWhile fun node =>
        decide (node.addr ≠ addr)).dropWhile fun node =>
          decide (node.flag ≠ .SKB_FLAG_LOST)) =
      nodes.dropWhile fun node =>
        decide (node.flag ≠ .SKB_FLAG_LOST) := by
  induction nodes with
  | nil => rfl
  | cons node rest ih =>
      by_cases hHere : node.addr = addr
      · rw [List.dropWhile_cons_of_neg (by simpa using hHere)]
      · have hLater := hNoted.resolve_left fun hSame =>
          hHere (Option.some.inj hSame).symm
        rw [List.dropWhile_cons_of_pos (by simpa using hHere),
          List.dropWhile_cons_of_pos (by simpa using hLater.1)]
        exact ih hLater.2

/- The first lost node, if there is one. -/
def firstLost
    (nodes : List ScoreBoardNode1) : Option ScoreBoardNode1 :=
  nodes.find? fun node => decide (node.flag = .SKB_FLAG_LOST)

theorem firstLost_eq :
    firstLost nodes =
      (nodes.dropWhile fun node =>
        decide (node.flag ≠ .SKB_FLAG_LOST)).head? := by
  unfold firstLost
  induction nodes with
  | nil => rfl
  | cons node rest ih =>
      by_cases hLost : node.flag = .SKB_FLAG_LOST
      · rw [List.find?_cons_of_pos (by simpa using hLost),
          List.dropWhile_cons_of_neg (by simpa using hLost)]
        rfl
      · rw [List.find?_cons_of_neg (by simpa using hLost),
          List.dropWhile_cons_of_pos (by simpa using hLost)]
        exact ih

theorem firstLost_none
    (hNone : ∀ node ∈ nodes, node.flag ≠ .SKB_FLAG_LOST) :
    firstLost nodes = none := by
  apply List.find?_eq_none.mpr
  intro node hNode
  simpa using hNone node hNode

/- A search finds the first lost node and remembers it. -/
theorem Noted.getNextRetran
    (hNoted : Noted sb.nxt_to_retrx sb.nodes) :
    sb.getNextRetran.1 =
        (firstLost sb.nodes).elim (-1) getStart ∧
      Noted sb.getNextRetran.2.nxt_to_retrx sb.nodes := by
  cases hNext : sb.nxt_to_retrx with
  | none =>
      rw [hNext] at hNoted
      have hNone := hNoted.ne fun _ _ hSome => by cases hSome
      rw [getNextRetran_none hNext, firstLost_none hNone]
      exact ⟨rfl, noted_of_ne hNone⟩
  | some addr =>
      rw [hNext] at hNoted
      have hDrop := hNoted.dropWhile
      rw [firstLost_eq]
      cases hLost : sb.nodes.dropWhile fun node =>
          decide (node.flag ≠ .SKB_FLAG_LOST) with
      | nil =>
          rw [hLost] at hDrop
          rw [getNextRetran_nil hNext hDrop]
          refine ⟨rfl, noted_of_ne fun node hNode => ?_⟩
          have hAll := List.dropWhile_eq_nil_iff.mp hLost
          simpa using hAll node hNode
      | cons node rest =>
          rw [hLost] at hDrop
          rw [getNextRetran_cons hNext hDrop]
          refine ⟨rfl, ?_⟩
          rw [← @List.takeWhile_append_dropWhile _
            (fun node => decide (node.flag ≠ .SKB_FLAG_LOST))
            sb.nodes, hLost]
          refine (noted_of_ne fun other hOther => ?_).append
            (Or.inl rfl)
          simpa using List.mem_takeWhile_imp hOther

end ScoreBoard1

end Ns2

------------------------------------------------------------
-- Cleaning
------------------------------------------------------------

namespace Ns2

namespace ScoreBoard1

open ScoreBoardNode1

variable {c c' : Cleaning}
variable {node : ScoreBoardNode1}
variable {nodes rest : List ScoreBoardNode1}
variable {low high last_ack pkt_num : Int}

/- Only the counters change. -/
theorem release_sb
    {flag : SkbFlag}
    (hRelease : c.release flag pkt_num = some c') :
    c'.sb.nxt_to_retrx = c.sb.nxt_to_retrx ∧
      c'.sb.acked_rtx_id = c.sb.acked_rtx_id ∧
      c'.sb.fack = c.sb.fack ∧
      c'.changed_acked_rtx = c.changed_acked_rtx := by
  unfold Cleaning.release at hRelease
  cases flag with
  | SKB_FLAG_SACKED =>
      dsimp only at hRelease
      split at hRelease
      · cases hRelease
      · cases hRelease
        exact ⟨rfl, rfl, rfl, rfl⟩
  | SKB_FLAG_LOST =>
      dsimp only at hRelease
      split at hRelease
      · cases hRelease
      · cases hRelease
        exact ⟨rfl, rfl, rfl, rfl⟩
  | SKB_FLAG_INFLIGHT =>
      cases hRelease
      exact ⟨rfl, rfl, rfl, rfl⟩
  | SKB_FLAG_RETRANSMITTED =>
      cases hRelease
      exact ⟨rfl, rfl, rfl, rfl⟩

/- The retransmission that a node is for has arrived. -/
def Newer
    (acked_rtx_id : Int)
    (node : ScoreBoardNode1) : Prop :=
  node.flag = .SKB_FLAG_RETRANSMITTED ∧
    acked_rtx_id < node.retran

theorem free_spec :
    (c.free node rest).sb.fack = c.sb.fack ∧
      (c.free node rest).sb.nxt_to_retrx =
        (if c.sb.nxt_to_retrx = some node.addr then
          rest.head?.map (·.addr)
        else c.sb.nxt_to_retrx) ∧
      (c.changed_acked_rtx = true ∨
          Newer c.sb.acked_rtx_id node →
        (c.free node rest).changed_acked_rtx = true) ∧
      (¬Newer c.sb.acked_rtx_id node →
        (c.free node rest).changed_acked_rtx =
            c.changed_acked_rtx ∧
          (c.free node rest).sb.acked_rtx_id =
            c.sb.acked_rtx_id) := by
  unfold Cleaning.free Cleaning.noticeRtx Newer
  split_ifs with hFlag hNewer <;> simp_all [not_lt.mpr]

/- An acknowledgement within a block makes it shorter. -/
def trim
    (last_ack : Int) :
    List ScoreBoardNode1 → List ScoreBoardNode1
| [] => []
| node :: rest =>
    (if node.seq ≤ last_ack then
      { node with seq := last_ack + 1 }
    else node) :: rest

/- What an acknowledgement leaves. -/
structure Cleaned
    (last_ack : Int)
    (gone kept : List ScoreBoardNode1)
    (c c' : Cleaning) : Prop where
  past : ∀ node ∈ gone, node.getEnd ≤ last_ack
  due : ∀ node ∈ kept, last_ack < node.getEnd
  nodes : c'.sb.nodes = trim last_ack kept
  fack : c'.sb.fack = c.sb.fack
  newer : c.changed_acked_rtx = true ∨
      (∃ node ∈ gone, Newer c.sb.acked_rtx_id node) →
    c'.changed_acked_rtx = true
  same : (∀ node ∈ gone, ¬Newer c.sb.acked_rtx_id node) →
    c'.changed_acked_rtx = c.changed_acked_rtx ∧
      c'.sb.acked_rtx_id = c.sb.acked_rtx_id
  noted : Noted c.sb.nxt_to_retrx (gone ++ kept) →
    Noted c'.sb.nxt_to_retrx c'.sb.nodes

/- The first node is freed and what is left is cleaned. -/
theorem Cleaned.free
    {gone kept : List ScoreBoardNode1}
    {c₁ : Cleaning}
    (hEnd : node.getEnd ≤ last_ack)
    (hRelease : c.release node.flag pkt_num = some c₁)
    (hCleaned :
      Cleaned last_ack gone kept (c₁.free node (gone ++ kept))
        c') :
    Cleaned last_ack (node :: gone) kept c c' := by
  rcases release_sb hRelease with ⟨hNext, hAcked, hFack, hChanged⟩
  rcases @free_spec c₁ node (gone ++ kept) with
    ⟨hFreeFack, hFreeNext, hFreeNewer, hFreeSame⟩
  rw [hAcked, hChanged] at hFreeNewer hFreeSame
  constructor
  case past =>
      intro other hOther
      rcases List.mem_cons.mp hOther with rfl | hLater
      · exact hEnd
      · exact hCleaned.past other hLater
  case due => exact hCleaned.due
  case nodes => exact hCleaned.nodes
  case fack => exact hCleaned.fack.trans (hFreeFack.trans hFack)
  case newer =>
      intro hSome
      apply hCleaned.newer
      by_cases hNewer : Newer c.sb.acked_rtx_id node
      · exact Or.inl (hFreeNewer (Or.inr hNewer))
      · rcases hSome with hAlready | ⟨other, hOther, hOtherNewer⟩
        · exact Or.inl (hFreeNewer (Or.inl hAlready))
        · rcases List.mem_cons.mp hOther with rfl | hLater
          · exact absurd hOtherNewer hNewer
          · refine Or.inr ⟨other, hLater, ?_⟩
            rw [(hFreeSame hNewer).2]
            exact hOtherNewer
  case same =>
      intro hNone
      have hFirst := hFreeSame (hNone node List.mem_cons_self)
      have hLater := hCleaned.same fun other hOther => by
        rw [hFirst.2]
        exact hNone other (List.mem_cons_of_mem _ hOther)
      exact ⟨hLater.1.trans hFirst.1, hLater.2.trans hFirst.2⟩
  case noted =>
      intro hNoted
      apply hCleaned.noted
      rw [hFreeNext, hNext]
      split_ifs with hHere
      · cases gone ++ kept with
        | nil => trivial
        | cons head tail => exact Or.inl rfl
      · exact (hNoted.resolve_left hHere).2

theorem cleanRtxQueue_spec
    (hChain : Chain low nodes high)
    (hClean : cleanRtxQueue last_ack nodes c = some c') :
    ∃ gone kept, nodes = gone ++ kept ∧
      Cleaned last_ack gone kept c c' := by
  induction nodes generalizing low c with
  | nil =>
      cases hClean
      refine ⟨[], [], rfl, ?_⟩
      constructor
      case past => exact fun _ hMem => absurd hMem List.not_mem_nil
      case due => exact fun _ hMem => absurd hMem List.not_mem_nil
      case nodes => rfl
      case fack => rfl
      case newer =>
          rintro (hAlready | ⟨node, hNode, -⟩)
          · exact hAlready
          · cases hNode
      case same => exact fun _ => ⟨rfl, rfl⟩
      case noted => exact fun _ => trivial
  | cons node rest ih =>
      have hBetween := hChain.between
      rcases hChain with ⟨hSeq, hLe, hRest⟩
      unfold cleanRtxQueue at hClean
      by_cases hAbove : last_ack < node.seq
      · rw [shouldClean_of_lt hAbove, if_pos rfl] at hClean
        cases hClean
        refine ⟨[], node :: rest, rfl, ?_⟩
        constructor
        case past =>
            exact fun _ hMem => absurd hMem List.not_mem_nil
        case due =>
            intro other hOther
            have hIn := hBetween other hOther
            omega
        case nodes =>
            dsimp only [trim]
            rw [if_neg (not_le.mpr hAbove)]
            rfl
        case fack => rfl
        case newer =>
            rintro (hAlready | ⟨other, hOther, -⟩)
            · exact hAlready
            · cases hOther
        case same => exact fun _ => ⟨rfl, rfl⟩
        case noted => exact fun hNoted => hNoted
      by_cases hAll : node.getEnd ≤ last_ack
      · rw [shouldClean_of_le (not_lt.mp hAbove) hAll,
          if_neg (by decide)] at hClean
        rcases Option.bind_eq_some_iff.mp hClean with
          ⟨c₁, hRelease, hMore⟩
        rw [if_pos (by decide)] at hMore
        rcases ih hRest hMore with
          ⟨gone, kept, hSplit, hCleaned⟩
        subst hSplit
        exact ⟨node :: gone, kept, rfl,
          hCleaned.free hAll hRelease⟩
      · rw [shouldClean_of_between (not_lt.mp hAbove)
          (not_le.mp hAll), if_neg (by omega)] at hClean
        rcases Option.bind_eq_some_iff.mp hClean with
          ⟨c₁, hRelease, hMore⟩
        rcases release_sb hRelease with
          ⟨hNext, hAcked, hFack, hChanged⟩
        rw [if_neg (by omega)] at hMore
        cases hMore
        refine ⟨[], node :: rest, rfl, ?_⟩
        constructor
        case past =>
            exact fun _ hMem => absurd hMem List.not_mem_nil
        case due =>
            intro other hOther
            rcases List.mem_cons.mp hOther with rfl | hLater
            · exact not_le.mp hAll
            · have hIn := hRest.between other hLater
              omega
        case nodes =>
            dsimp only [trim]
            rw [if_pos (not_lt.mp hAbove)]
            rfl
        case fack => exact hFack
        case newer =>
            rintro (hAlready | ⟨other, hOther, -⟩)
            · exact hChanged.trans hAlready
            · cases hOther
        case same => exact fun _ => ⟨hChanged, hAcked⟩
        case noted =>
            intro hNoted
            change Noted c₁.sb.nxt_to_retrx _
            rw [hNext]
            exact @Noted.replace _ node _ [] rest hNoted rfl rfl

end ScoreBoard1

end Ns2

------------------------------------------------------------
-- Looking at a node
------------------------------------------------------------

namespace Ns2

namespace ScoreBoard1

open ScoreBoardNode1

/- A packet that one of the blocks reports. -/
def Covered
    (sacks : List (Int × Int))
    (n : Int) : Prop :=
  ∃ block ∈ sacks, block.1 ≤ n ∧ n < block.2

/- A packet that is lost, or is found to be lost now. -/
def Doomed
    (dupack_threshold : Int)
    (sb : ScoreBoard1)
    (node : ScoreBoardNode1)
    (n : Int) : Prop :=
  node.inside n = true ∧
    (node.flag = .SKB_FLAG_LOST ∨
      node.flag = .SKB_FLAG_INFLIGHT ∧
        n ≤ sb.fack - (dupack_threshold + 1) ∨
      node.flag = .SKB_FLAG_RETRANSMITTED ∧
        (node.nxt ≤ sb.fack ∨
          node.retran + dupack_threshold + 1 <
            sb.acked_rtx_id))

theorem Doomed.congr
    {dupack_threshold n : Int}
    {sb sb' : ScoreBoard1}
    {node node' : ScoreBoardNode1}
    (hDoomed : Doomed dupack_threshold sb node n)
    (hInside : node'.inside n = true)
    (hFlag : node'.flag = node.flag)
    (hSame : node.flag = .SKB_FLAG_RETRANSMITTED →
      node'.nxt = node.nxt ∧ node'.retran = node.retran)
    (hFack : sb'.fack = sb.fack)
    (hAcked : sb'.acked_rtx_id = sb.acked_rtx_id) :
    Doomed dupack_threshold sb' node' n := by
  refine ⟨hInside, ?_⟩
  rw [hFlag, hFack, hAcked]
  rcases hDoomed.2 with hLost | hFlight | ⟨hAgain, hOld⟩
  · exact Or.inl hLost
  · exact Or.inr (Or.inl hFlight)
  · rw [(hSame hAgain).1, (hSame hAgain).2]
    exact Or.inr (Or.inr ⟨hAgain, hOld⟩)

namespace Place

variable {p q : Place}
variable {dupack_threshold : Int}

/- A part of a node that has been cut off. -/
structure Part (node piece : ScoreBoardNode1) : Prop where
  flag : piece.flag = node.flag
  again : node.flag ≠ .SKB_FLAG_RETRANSMITTED
  start : node.seq < piece.seq
  finish : piece.nxt ≤ node.nxt

theorem Part.getEnd
    {node piece : ScoreBoardNode1}
    (hPart : Part node piece) :
    piece.getEnd ≤ node.getEnd := by
  rw [getEnd_of_ne hPart.again,
    getEnd_of_ne (hPart.flag ▸ hPart.again)]
  exact hPart.finish

theorem Part.inside
    {node piece : ScoreBoardNode1}
    {n : Int}
    (hPart : Part node piece)
    (hInside : piece.inside n = true) :
    node.seq < n ∧ node.inside n = true := by
  have hStart := hPart.start
  have hEnd := hPart.getEnd
  rw [inside_iff] at hInside ⊢
  omega

/-
  What is known after a node has been looked at: the blocks
  that are left, and what has been cut off or found.
-/
structure Looked
    (dupack_threshold : Int)
    (p q : Place) : Prop where
  sacks : q.pass.sacks = p.skip.pass.sacks
  thorough : p.pass.thorough = true → q.pass.thorough = true
  acked : q.pass.thorough = true ∨
    q.pass.sb.acked_rtx_id = p.pass.sb.acked_rtx_id
  rest : ∃ pieces, q.rest = pieces ++ p.rest ∧
    ∀ piece ∈ pieces, Part p.now piece
  again : p.now.flag = .SKB_FLAG_RETRANSMITTED →
    p.pass.sacks.Pairwise (fun a b => a.1 ≤ b.1) →
      Covered p.pass.sacks p.now.seq →
        q.pass.thorough = true
  found : ∀ n, Doomed dupack_threshold p.pass.sb p.now n →
    ¬Covered p.pass.sacks n →
      q.pass.sb.nxt_to_retrx ≠ none ∨
        q.pass.sacks ≠ [] ∧ ∃ piece,
          q.rest = piece :: p.rest ∧ Part p.now piece ∧
            piece.inside n = true

theorem remember_ne :
    p.remember.pass.sb.nxt_to_retrx ≠ none := by
  rw [remember_sb]
  exact Option.some_ne_none _

/- A node that is to be given up is remembered. -/
theorem lose_found
    (hLost : p.now.flag = .SKB_FLAG_LOST ∨
      p.now.flag = .SKB_FLAG_INFLIGHT ∧
        p.now.getStart ≤
          p.pass.sb.fack - (dupack_threshold + 1) ∨
      p.now.flag = .SKB_FLAG_RETRANSMITTED ∧
        (p.now.nxt ≤ p.pass.sb.fack ∨
          p.now.retran + dupack_threshold + 1 <
            p.pass.sb.acked_rtx_id)) :
    (p.lose dupack_threshold).pass.sb.nxt_to_retrx ≠ none := by
  unfold lose
  rcases hLost with hFlag | ⟨hFlag, hStart⟩ | ⟨hFlag, hAgain⟩
  · rw [hFlag]
    exact remember_ne
  · rw [hFlag]
    dsimp only
    rw [if_pos hStart]
    split
    · exact remember_ne
    · exact remember_ne
  · rw [hFlag]
    dsimp only
    rw [if_pos hAgain]
    exact remember_ne

/- The blocks stay, and at most one piece is cut off. -/
theorem lose_spec :
    (p.lose dupack_threshold).pass.sacks = p.pass.sacks ∧
      (p.lose dupack_threshold).pass.thorough =
        p.pass.thorough ∧
      (p.lose dupack_threshold).pass.sb.acked_rtx_id =
        p.pass.sb.acked_rtx_id ∧
      ∃ pieces,
        (p.lose dupack_threshold).rest = pieces ++ p.rest ∧
          ∀ piece ∈ pieces, Part p.now piece := by
  have hNone : ∀ piece ∈ ([] : List ScoreBoardNode1),
      Part p.now piece :=
    fun _ hPiece => absurd hPiece List.not_mem_nil
  have hRemember : ∀ p : Place,
      p.remember.pass.sacks = p.pass.sacks ∧
        p.remember.pass.thorough = p.pass.thorough := by
    intro p
    unfold remember
    split
    · exact ⟨rfl, rfl⟩
    · exact ⟨rfl, rfl⟩
  have hSetLost : ∀ p : Place,
      p.setLost.pass.sacks = p.pass.sacks ∧
        p.setLost.pass.thorough = p.pass.thorough ∧
        p.setLost.pass.sb.acked_rtx_id =
          p.pass.sb.acked_rtx_id ∧
        p.setLost.rest = p.rest := by
    intro p
    unfold setLost
    dsimp only
    rw [remember_sb, remember_rest, (hRemember _).1,
      (hRemember _).2]
    exact ⟨rfl, rfl, rfl, rfl⟩
  unfold lose
  cases hFlag : p.now.flag with
  | SKB_FLAG_SACKED => exact ⟨rfl, rfl, rfl, [], rfl, hNone⟩
  | SKB_FLAG_LOST =>
      dsimp only
      rw [remember_sb, remember_rest, (hRemember _).1,
        (hRemember _).2]
      exact ⟨rfl, rfl, rfl, [], rfl, hNone⟩
  | SKB_FLAG_RETRANSMITTED =>
      dsimp only
      split
      · rcases hSetLost p with ⟨hSacks, hThorough, hAcked, hRest⟩
        exact ⟨hSacks, hThorough, hAcked, [], hRest, hNone⟩
      · exact ⟨rfl, rfl, rfl, [], rfl, hNone⟩
  | SKB_FLAG_INFLIGHT =>
      dsimp only
      split_ifs with hStart hEnd
      · rcases hSetLost (p.split (p.pass.sb.fack -
            (dupack_threshold + 1) + 1)) with
          ⟨hSacks, hThorough, hAcked, hRest⟩
        refine ⟨hSacks, hThorough, hAcked, [_], hRest, ?_⟩
        intro piece hPiece
        rw [List.mem_singleton.mp hPiece]
        constructor
        case flag => rfl
        case again =>
            rw [hFlag]
            decide
        case start => exact Int.lt_add_one_of_le hStart
        case finish => exact le_rfl
      · rcases hSetLost p with ⟨hSacks, hThorough, hAcked, hRest⟩
        exact ⟨hSacks, hThorough, hAcked, [], hRest, hNone⟩
      · exact ⟨rfl, rfl, rfl, [], rfl, hNone⟩

/- A block that reports a packet of the node is still due. -/
theorem skip_mem
    {block : Int × Int}
    (hBlock : block ∈ p.pass.sacks)
    (hAbove : p.now.seq < block.2) :
    block ∈ p.skip.pass.sacks := by
  have hSplit := @List.takeWhile_append_dropWhile _
    (fun block => decide (block.2 ≤ p.now.getStart))
    p.pass.sacks
  rw [← hSplit] at hBlock
  rcases List.mem_append.mp hBlock with hDone | hDue
  · have hBelow := List.mem_takeWhile_imp hDone
    exact absurd hAbove (not_lt.mpr (of_decide_eq_true hBelow))
  · exact hDue

theorem skip_covered
    {n : Int}
    (hCovered : Covered p.pass.sacks n)
    (hAbove : p.now.seq ≤ n) :
    Covered p.skip.pass.sacks n := by
  rcases hCovered with ⟨block, hBlock, hLow, hHigh⟩
  exact ⟨block, skip_mem hBlock (hAbove.trans_lt hHigh),
    hLow, hHigh⟩

/- Looking at a node that no block is due for. -/
theorem looked_lose
    {p₀ : Place}
    (hSacks : p₀.pass.sacks = p.skip.pass.sacks)
    (hSame : p₀.pass.thorough = p.pass.thorough ∧
      p₀.pass.sb.acked_rtx_id = p.pass.sb.acked_rtx_id ∧
      p₀.pass.sb.fack = p.pass.sb.fack)
    (hNow : p₀.now.flag = p.now.flag ∧
      p₀.now.seq = p.now.seq ∧ p₀.now.retran = p.now.retran ∧
      p₀.now.nxt ≤ p.now.nxt ∧
      (p.now.flag = .SKB_FLAG_RETRANSMITTED →
        p₀.now.nxt = p.now.nxt))
    (hRest : ∃ pieces, p₀.rest = pieces ++ p.rest ∧
      ∀ piece ∈ pieces, Part p.now piece)
    (hMissed : ∀ block more,
      p.skip.pass.sacks = block :: more → p.now.seq < block.1) :
    Looked dupack_threshold p (p₀.lose dupack_threshold) := by
  rcases @lose_spec p₀ dupack_threshold with
    ⟨hSacks', hThorough', hAcked', pieces', hRest', hParts'⟩
  rcases hNow with ⟨hFlag, hSeq, hRetran, hNxt, hNxtSame⟩
  constructor
  case sacks => exact hSacks'.trans hSacks
  case thorough =>
      intro hThorough
      rw [hThorough', hSame.1]
      exact hThorough
  case acked => exact Or.inr (hAcked'.trans hSame.2.1)
  case rest =>
      rcases hRest with ⟨pieces, hRest, hParts⟩
      refine ⟨pieces' ++ pieces, ?_, ?_⟩
      · rw [hRest', hRest, List.append_assoc]
      · intro piece hPiece
        rcases List.mem_append.mp hPiece with hNew | hOld
        · have hPart := hParts' piece hNew
          constructor
          case flag => exact hPart.flag.trans hFlag
          case again => exact hFlag ▸ hPart.again
          case start => exact hSeq ▸ hPart.start
          case finish => exact hPart.finish.trans hNxt
        · exact hParts piece hOld
  case again =>
      intro _ hSorted hCovered
      rcases skip_covered hCovered le_rfl with
        ⟨block, hBlock, hLow, _⟩
      have hSorted' : p.skip.pass.sacks.Pairwise
          (fun a b => a.1 ≤ b.1) :=
        hSorted.sublist (List.dropWhile_sublist _)
      cases hDue : p.skip.pass.sacks with
      | nil =>
          rw [hDue] at hBlock
          cases hBlock
      | cons first more =>
          have hLess := hMissed first more hDue
          rw [hDue] at hBlock hSorted'
          rcases List.mem_cons.mp hBlock with rfl | hLater
          · exact absurd hLow (not_le.mpr hLess)
          · have hLe := List.rel_of_pairwise_cons hSorted' hLater
            omega
  case found =>
      rintro n ⟨hInside, hCase⟩ _
      refine Or.inl (lose_found ?_)
      rw [hFlag, hRetran, hSame.2.1, hSame.2.2]
      rcases hCase with
        hLost | ⟨hFlight, hLe⟩ | ⟨hAgain, hOld⟩
      · exact Or.inl hLost
      · refine Or.inr (Or.inl ⟨hFlight, ?_⟩)
        have hBetween := inside_iff.mp hInside
        change p₀.now.seq ≤ _
        rw [hSeq]
        exact hBetween.1.trans hLe
      · refine Or.inr (Or.inr ⟨hAgain, ?_⟩)
        rw [hNxtSame hAgain]
        exact hOld

/- What is done to a node by the block that is due. -/
theorem sack_nil
    (hSacks : p.skip.pass.sacks = []) :
    p.sack = p.skip := by
  unfold sack
  dsimp only
  rw [hSacks]

theorem sack_cons
    {left right : Int}
    {more : List (Int × Int)}
    (hSacks : p.skip.pass.sacks = (left, right) :: more) :
    p.sack =
      if left ≤ p.now.getEnd then
        if p.now.getStart < left then p.skip.split left
        else if right ≤ p.now.getEnd then
          (p.skip.split right).setSacked
        else p.skip.setSacked
      else p.skip := by
  unfold sack
  dsimp only
  rw [hSacks]
  rfl

theorem lose_sacked
    (hFlag : p.now.flag = .SKB_FLAG_SACKED) :
    p.lose dupack_threshold = p := by
  unfold lose
  rw [hFlag]

/- A node that a block reports from its start on. -/
theorem looked_sacked
    {left right : Int}
    {more : List (Int × Int)}
    (hSacks : p.skip.pass.sacks = (left, right) :: more)
    (hLeft : left ≤ p.now.seq) :
    Looked dupack_threshold p
      (if right ≤ p.now.getEnd then
        (p.skip.split right).setSacked
      else p.skip.setSacked) := by
  have hRight : p.now.seq < right := skip_sacks hSacks
  have hThorough :
      (p.pass.thorough ||
        decide (p.now.flag = .SKB_FLAG_RETRANSMITTED)) = true ∨
      p.now.flag ≠ .SKB_FLAG_RETRANSMITTED := by
    by_cases hAgain : p.now.flag = .SKB_FLAG_RETRANSMITTED
    · rw [decide_eq_true hAgain, Bool.or_true]
      exact Or.inl rfl
    · exact Or.inr hAgain
  split_ifs with hPart
  · have hAgain : p.now.flag ≠ .SKB_FLAG_RETRANSMITTED := by
      intro hSame
      rw [getEnd_of_eq hSame] at hPart
      exact absurd hRight (not_lt.mpr hPart)
    have hPiece : Part p.now
        (p.now.splitBack p.pass.sb.fresh right) :=
      ⟨rfl, hAgain, hRight, le_rfl⟩
    constructor
    case sacks => rfl
    case thorough =>
        intro hAlready
        change (p.pass.thorough || _) = true
        rw [hAlready, Bool.true_or]
    case acked =>
        refine Or.inr ?_
        change (if decide (p.now.flag = _) = true then _ else _) = _
        rw [if_neg (by simpa using hAgain)]
        rfl
    case rest =>
        refine ⟨[_], rfl, fun piece hMem => ?_⟩
        rw [List.mem_singleton.mp hMem]
        exact hPiece
    case again => exact fun hSame => absurd hSame hAgain
    case found =>
        rintro n ⟨hInside, _⟩ hNot
        have hBetween := inside_iff.mp hInside
        have hAbove : right ≤ n := by
          by_contra hBelow
          refine hNot ⟨(left, right), ?_,
            hLeft.trans hBetween.1, not_le.mp hBelow⟩
          apply (List.dropWhile_sublist _).subset
          rw [show p.pass.sacks.dropWhile _ = _ from hSacks]
          exact List.mem_cons_self
        refine Or.inr ⟨?_, _, rfl, hPiece, ?_⟩
        · rw [show (p.skip.split right).setSacked.pass.sacks = _
            from hSacks]
          exact List.cons_ne_nil _ _
        · exact inside_iff.mpr ⟨hAbove,
            hBetween.2.trans (splitBack_getEnd hAgain).ge⟩
  · constructor
    case sacks => rfl
    case thorough =>
        intro hAlready
        change (p.pass.thorough || _) = true
        rw [hAlready, Bool.true_or]
    case acked =>
        rcases hThorough with hThorough | hAgain
        · exact Or.inl hThorough
        · refine Or.inr ?_
          change (if decide (p.now.flag = _) = true then _
            else _) = _
          rw [if_neg (by simpa using hAgain)]
          rfl
    case rest =>
        exact ⟨[], rfl, fun _ hMem => absurd hMem List.not_mem_nil⟩
    case again =>
        intro hSame _ _
        exact hThorough.resolve_right fun hNot => hNot hSame
    case found =>
        rintro n ⟨hInside, _⟩ hNot
        have hBetween := inside_iff.mp hInside
        refine absurd ⟨(left, right), ?_,
          hLeft.trans hBetween.1,
          hBetween.2.trans_lt (not_le.mp hPart)⟩ hNot
        apply (List.dropWhile_sublist _).subset
        rw [show p.pass.sacks.dropWhile _ = _ from hSacks]
        exact List.mem_cons_self

theorem looked_look
    (hFlag : p.now.flag ≠ .SKB_FLAG_SACKED)
    (hLe : p.now.seq ≤ p.now.getEnd) :
    Looked dupack_threshold p (p.look dupack_threshold) := by
  have hNothing : ∃ pieces, p.skip.rest = pieces ++ p.rest ∧
      ∀ piece ∈ pieces, Part p.now piece :=
    ⟨[], rfl, fun _ hMem => absurd hMem List.not_mem_nil⟩
  unfold look
  rw [if_pos hFlag]
  dsimp only
  cases hSacks : p.skip.pass.sacks with
  | nil =>
      rw [sack_nil hSacks, if_pos (missed_of_nil hSacks)]
      exact looked_lose rfl ⟨rfl, rfl, rfl⟩
        ⟨rfl, rfl, rfl, le_rfl, fun _ => rfl⟩ hNothing
        fun _ _ hDue => by
          rw [hSacks] at hDue
          cases hDue
  | cons block more =>
      rcases block with ⟨left, right⟩
      rw [sack_cons hSacks]
      by_cases hLeft : left ≤ p.now.getEnd
      · rw [if_pos hLeft]
        by_cases hStart : p.now.getStart < left
        · rw [if_pos hStart]
          have hAgain : p.now.flag ≠ .SKB_FLAG_RETRANSMITTED := by
            intro hSame
            rw [getEnd_of_eq hSame] at hLeft
            exact absurd hStart (not_lt.mpr hLeft)
          have hMissed : (p.skip.split left).missed = true := by
            refine missed_of_lt hSacks ?_
            exact (splitFront_getEnd hAgain).trans_lt
              (Int.sub_one_lt_of_le le_rfl)
          have hNxt := getEnd_of_ne hAgain
          rw [if_pos hMissed]
          refine looked_lose rfl ⟨rfl, rfl, rfl⟩
            ⟨rfl, rfl, rfl, ?_, fun hSame => absurd hSame hAgain⟩
            ⟨[_], rfl, fun piece hMem => ?_⟩ ?_
          · change left - 1 ≤ p.now.nxt
            omega
          · rw [List.mem_singleton.mp hMem]
            exact ⟨rfl, hAgain, hStart, le_rfl⟩
          · intro _ _ hDue
            rw [hSacks] at hDue
            cases hDue
            exact hStart
        · rw [if_neg hStart]
          have hSacked := @looked_sacked p dupack_threshold left
            right more hSacks (not_lt.mp hStart)
          have hSame : ∀ q : Place,
              q.now.flag = .SKB_FLAG_SACKED →
                (if q.missed = true then q.lose dupack_threshold
                  else q) = q := by
            intro q hq
            rw [lose_sacked hq, ite_self]
          rw [hSame _ (by split <;> rfl)]
          exact hSacked
      · rw [if_neg hLeft,
          if_pos (missed_of_lt hSacks (not_le.mp hLeft))]
        exact looked_lose rfl ⟨rfl, rfl, rfl⟩
          ⟨rfl, rfl, rfl, le_rfl, fun _ => rfl⟩ hNothing
          fun _ _ hDue => by
            rw [hSacks] at hDue
            cases hDue
            exact hLe.trans_lt (not_le.mp hLeft)

end Place

end ScoreBoard1

end Ns2

------------------------------------------------------------
-- Going through the list
------------------------------------------------------------

namespace Ns2

namespace ScoreBoard1

open ScoreBoardNode1

variable {dupack_threshold : Int}
variable {pass pass' : Pass}
variable {sb : ScoreBoard1}
variable {now : ScoreBoardNode1}
variable {seen rest front : List ScoreBoardNode1}
variable {sacks : List (Int × Int)}
variable {low mid high : Int}

/- Some block is still due after these nodes. -/
def Passes
    (sacks : List (Int × Int))
    (front : List ScoreBoardNode1) : Prop :=
  sacks ≠ [] ∧
    ∀ node ∈ front, node.flag ≠ .SKB_FLAG_SACKED →
      ∃ block ∈ sacks, node.getEnd < block.2

/- A pass comes to a lost packet that is not reported. -/
def Finds
    (dupack_threshold : Int)
    (sb : ScoreBoard1)
    (sacks : List (Int × Int))
    (nodes : List ScoreBoardNode1) : Prop :=
  ∃ front node back n, nodes = front ++ node :: back ∧
    Passes sacks front ∧ Doomed dupack_threshold sb node n ∧
      ¬Covered sacks n

/- Why a pass does not forget what is lost in its rest. -/
inductive Looking
    (dupack_threshold : Int)
    (pass : Pass)
    (rest : List ScoreBoardNode1) : Prop
| thorough (hThorough : pass.thorough = true)
| noted (hNoted : pass.sb.nxt_to_retrx ≠ none)
| covered (hCovered : ∀ node ∈ rest,
    node.flag = .SKB_FLAG_LOST → ∀ n, node.inside n = true →
      Covered pass.sacks n)
| again (hAgain : ∃ node ∈ rest,
    node.flag = .SKB_FLAG_RETRANSMITTED ∧
      Covered pass.sacks node.seq)
| finds (hFinds :
    Finds dupack_threshold pass.sb pass.sacks rest)

theorem Passes.tail
    (hPasses : Passes sacks (now :: front)) :
    Passes sacks front :=
  ⟨hPasses.1, fun node hNode =>
    hPasses.2 node (List.mem_cons_of_mem _ hNode)⟩

/- A node that is reported is passed over. -/
theorem Looking.skip
    (hLooking : Looking dupack_threshold pass (now :: rest))
    (hFlag : now.flag = .SKB_FLAG_SACKED) :
    Looking dupack_threshold pass rest := by
  cases hLooking with
  | thorough hThorough => exact .thorough hThorough
  | noted hNoted => exact .noted hNoted
  | covered hCovered =>
      exact .covered fun node hNode =>
        hCovered node (List.mem_cons_of_mem _ hNode)
  | again hAgain =>
      rcases hAgain with ⟨node, hNode, hSame, hCovered⟩
      rcases List.mem_cons.mp hNode with rfl | hRest
      · rw [hFlag] at hSame
        cases hSame
      · exact .again ⟨node, hRest, hSame, hCovered⟩
  | finds hFinds =>
      rcases hFinds with
        ⟨front, node, back, n, hSplit, hPasses, hDoomed, hNot⟩
      cases front with
      | nil =>
          cases hSplit
          have hCase := hDoomed.2
          rw [hFlag] at hCase
          rcases hCase with hNo | ⟨hNo, _⟩ | ⟨hNo, _⟩
          · cases hNo
          · cases hNo
          · cases hNo
      | cons first front =>
          cases hSplit
          exact .finds ⟨front, node, back, n, rfl, hPasses.tail,
            hDoomed, hNot⟩

/- What is needed of the later nodes is kept at a node. -/
theorem Looking.looked
    {q : Place}
    (hLooking : Looking dupack_threshold pass (now :: rest))
    (hFlag : now.flag ≠ .SKB_FLAG_SACKED)
    (hLe : now.seq ≤ now.getEnd)
    (hChain : Chain (now.getEnd + 1) rest high)
    (hSorted : pass.sacks.Pairwise fun a b => a.1 ≤ b.1)
    (hFack : q.pass.sb.fack = pass.sb.fack)
    (hNext : pass.sb.nxt_to_retrx ≠ none →
      q.pass.sb.nxt_to_retrx ≠ none)
    (hLooked : Place.Looked dupack_threshold ⟨pass, now, rest⟩
      q) :
    Looking dupack_threshold q.pass q.rest := by
  rcases hLooked.rest with ⟨pieces, hRest, hPieces⟩
  have hLater : ∀ node ∈ rest, ∀ n, node.inside n = true →
      now.seq ≤ n := by
    intro node hNode n hInside
    have hBetween := hChain.between node hNode
    have hIn := inside_iff.mp hInside
    omega
  have hStill : ∀ n, now.seq ≤ n → Covered pass.sacks n →
      Covered q.pass.sacks n := by
    intro n hAbove hCovered
    rw [hLooked.sacks]
    exact Place.skip_covered hCovered hAbove
  have hFewer : ∀ n, Covered q.pass.sacks n →
      Covered pass.sacks n := by
    rintro n ⟨block, hBlock, hIn⟩
    refine ⟨block, ?_, hIn⟩
    rw [hLooked.sacks] at hBlock
    exact (List.dropWhile_sublist _).subset hBlock
  cases hLooking with
  | thorough hThorough => exact .thorough (hLooked.thorough hThorough)
  | noted hNoted => exact .noted (hNext hNoted)
  | covered hCovered =>
      refine .covered fun node hNode hLost n hInside => ?_
      rw [hRest] at hNode
      rcases List.mem_append.mp hNode with hPiece | hOld
      · have hPart := hPieces node hPiece
        have hIn := hPart.inside hInside
        refine hStill n hIn.1.le ?_
        exact hCovered now List.mem_cons_self
          (hPart.flag.symm.trans hLost) n hIn.2
      · refine hStill n (hLater node hOld n hInside) ?_
        exact hCovered node (List.mem_cons_of_mem _ hOld) hLost n
          hInside
  | again hAgain =>
      rcases hAgain with ⟨node, hNode, hSame, hCovered⟩
      rcases List.mem_cons.mp hNode with rfl | hOld
      · exact .thorough (hLooked.again hSame hSorted hCovered)
      · refine .again ⟨node, ?_, hSame, hStill _ ?_ hCovered⟩
        · rw [hRest]
          exact List.mem_append_right _ hOld
        · apply hLater node hOld
          exact inside_iff.mpr
            ⟨le_rfl, (hChain.between node hOld).2.1⟩
  | finds hFinds =>
      rcases hFinds with
        ⟨front, node, back, n, hSplit, hPasses, hDoomed, hNot⟩
      have hNot' : ¬Covered q.pass.sacks n :=
        fun hCovered => hNot (hFewer n hCovered)
      rcases hLooked.acked with hThorough | hAcked
      · exact .thorough hThorough
      cases front with
      | nil =>
          cases hSplit
          rcases hLooked.found n hDoomed hNot with
            hNoted | ⟨hSome, piece, hCut, hPart, hInside⟩
          · exact .noted hNoted
          · refine .finds ⟨[], piece, rest, n, hCut,
              ⟨hSome, fun _ hMem => absurd hMem List.not_mem_nil⟩,
              hDoomed.congr hInside hPart.flag
                (fun hAgain => absurd hAgain hPart.again) hFack
                hAcked, hNot'⟩
      | cons first front =>
          cases hSplit
          rcases hPasses.2 now List.mem_cons_self hFlag with
            ⟨block, hBlock, hEnd⟩
          have hDue : block ∈ q.pass.sacks := by
            rw [hLooked.sacks]
            exact Place.skip_mem hBlock (hLe.trans_lt hEnd)
          refine .finds ⟨pieces ++ front, node, back, n, ?_,
            ⟨List.ne_nil_of_mem hDue, ?_⟩,
            hDoomed.congr hDoomed.1 rfl (fun _ => ⟨rfl, rfl⟩)
              hFack hAcked, hNot'⟩
          · exact hRest.trans (List.append_assoc _ _ _).symm
          · intro other hOther hSacked
            rcases List.mem_append.mp hOther with hPiece | hOld
            · exact ⟨block, hDue,
                (hPieces other hPiece).getEnd.trans_lt hEnd⟩
            · rcases hPasses.2 other
                (List.mem_cons_of_mem _ hOld) hSacked with
                ⟨block', hBlock', hEnd'⟩
              refine ⟨block', ?_, hEnd'⟩
              have hBetween := hChain.between other
                (List.mem_append_left _ hOld)
              rw [hLooked.sacks]
              exact Place.skip_mem hBlock'
                (show now.seq < block'.2 by omega)

theorem Looking.look
    (hLooking : Looking dupack_threshold pass (now :: rest))
    (hChain : Chain mid (now :: rest) high)
    (hSorted : pass.sacks.Pairwise fun a b => a.1 ≤ b.1) :
    Looking dupack_threshold
        (Place.look ⟨pass, now, rest⟩ dupack_threshold).pass
        (Place.look ⟨pass, now, rest⟩ dupack_threshold).rest ∧
      (Place.look ⟨pass, now, rest⟩
        dupack_threshold).pass.sacks.Pairwise
          fun a b => a.1 ≤ b.1 := by
  by_cases hFlag : now.flag = .SKB_FLAG_SACKED
  · have hSame :
        Place.look ⟨pass, now, rest⟩ dupack_threshold =
          ⟨pass, now, rest⟩ :=
      if_neg (not_not.mpr hFlag)
    rw [hSame]
    exact ⟨hLooking.skip hFlag, hSorted⟩
  · rcases hChain with ⟨_, hLe, hRest⟩
    have hLooked := @Place.looked_look ⟨pass, now, rest⟩
      dupack_threshold hFlag hLe
    rcases @Place.keeps_look ⟨pass, now, rest⟩ dupack_threshold
      with ⟨hKeeps, hRemembers⟩
    have hNext : pass.sb.nxt_to_retrx ≠ none →
        (Place.look ⟨pass, now, rest⟩
          dupack_threshold).pass.sb.nxt_to_retrx ≠ none := by
      intro hSome
      rcases hRemembers.nxt with hSame | ⟨hNone, _⟩
      · rw [hSame]
        exact hSome
      · exact absurd hNone hSome
    refine ⟨hLooking.looked hFlag hLe hRest hSorted hKeeps.fack
      hNext hLooked, ?_⟩
    rw [hLooked.sacks]
    exact hSorted.sublist (List.dropWhile_sublist _)

/- What is lost is remembered when it is linked. -/
theorem Noted.link
    {q : Place}
    (hNoted : Noted pass.sb.nxt_to_retrx seen.reverse)
    (hSeen : ∀ addr, pass.sb.nxt_to_retrx = some addr →
      addr ∈ seen.map (·.addr))
    (hRemembers : Place.Remembers ⟨pass, now, rest⟩ q) :
    Noted q.pass.sb.nxt_to_retrx (link q.now seen).reverse := by
  have hPush : Noted q.pass.sb.nxt_to_retrx
      (seen.reverse ++ [q.now]) := by
    rcases hRemembers.nxt with hSame | ⟨hNone, hSet, _⟩
    · rw [hSame]
      cases hNext : pass.sb.nxt_to_retrx with
      | none =>
          rw [hNext] at hNoted hSame
          refine hNoted.append (Or.inr ⟨?_, trivial⟩)
          exact fun hLost => hRemembers.lost hLost hSame
      | some addr =>
          rw [hNext] at hNoted
          apply hNoted.append_of_mem
          rw [List.map_reverse, List.mem_reverse]
          exact hSeen addr hNext
    · rw [show pass.sb.nxt_to_retrx = none from hNone] at hNoted
      rw [hSet]
      refine (noted_of_ne ?_).append (Or.inl rfl)
      exact hNoted.ne fun _ _ hNo => by cases hNo
  cases seen with
  | nil => exact hPush
  | cons prev front =>
      unfold ScoreBoard1.link
      dsimp only
      split_ifs with hMerge
      · rw [List.reverse_cons] at hPush ⊢
        have hTwo := hPush.left
        exact hTwo.replace rfl rfl
      · rw [List.reverse_cons]
        exact hPush

/- A node at the end of the list has not been lost. -/
theorem Looking.append
    {q : Pass}
    (hLooking : Looking dupack_threshold q rest) :
    Looking dupack_threshold
      { q with sb := (append q.sb seen rest).1 }
      (append q.sb seen rest).2 := by
  unfold ScoreBoard1.append
  cases seen with
  | nil => exact hLooking
  | cons prev front =>
      cases rest with
      | cons node rest => exact hLooking
      | nil =>
          dsimp only
          split_ifs
          · refine .covered fun node hNode hLost => ?_
            rw [List.mem_singleton.mp hNode] at hLost
            cases hLost
          · exact hLooking

theorem append_nxt :
    (append sb seen rest).1.nxt_to_retrx = sb.nxt_to_retrx := by
  unfold ScoreBoard1.append
  split
  · split <;> rfl
  · rfl

/- Where a pass stops, what is lost is remembered. -/
theorem Noted.stop
    (hNoted : Noted pass.sb.nxt_to_retrx seen.reverse)
    (hSeen : ∀ addr, pass.sb.nxt_to_retrx = some addr →
      addr ∈ seen.map (·.addr))
    (hChain : Chain mid rest high)
    (hLooking : Looking dupack_threshold pass rest)
    (hDone : pass.sacks = [] ∧ pass.thorough = false) :
    Noted pass.sb.nxt_to_retrx (seen.reverse ++ rest) := by
  have hNothing : ∀ n, ¬Covered pass.sacks n := by
    rintro n ⟨block, hBlock, _⟩
    rw [hDone.1] at hBlock
    cases hBlock
  cases hLooking with
  | thorough hThorough =>
      rw [hDone.2] at hThorough
      cases hThorough
  | noted hSome =>
      cases hNext : pass.sb.nxt_to_retrx with
      | none => exact absurd hNext hSome
      | some addr =>
          rw [hNext] at hNoted
          apply hNoted.append_of_mem
          rw [List.map_reverse, List.mem_reverse]
          exact hSeen addr hNext
  | covered hCovered =>
      refine hNoted.append (noted_of_ne fun node hNode hLost => ?_)
      have hBetween := hChain.between node hNode
      exact hNothing node.seq (hCovered node hNode hLost node.seq
        (inside_iff.mpr ⟨le_rfl, hBetween.2.1⟩))
  | again hAgain =>
      rcases hAgain with ⟨node, _, _, hCovered⟩
      exact absurd hCovered (hNothing node.seq)
  | finds hFinds =>
      rcases hFinds with ⟨_, _, _, _, _, hPasses, _⟩
      exact absurd hDone.1 hPasses.1

/- A whole pass, by induction on its rounds. -/
theorem Passing.noted
    {rounds : Nat}
    (hDone : ScoreBoard1.traverse dupack_threshold rounds pass
        seen rest = some pass')
    (hPassing : Passing low mid high pass.sb seen rest)
    (hNoted : Noted pass.sb.nxt_to_retrx seen.reverse)
    (hSorted : pass.sacks.Pairwise fun a b => a.1 ≤ b.1)
    (hLooking : Looking dupack_threshold pass rest) :
    Noted pass'.sb.nxt_to_retrx pass'.sb.nodes := by
  induction rounds generalizing mid high pass seen rest with
  | zero =>
      cases rest with
      | nil =>
          cases hDone
          exact hNoted
      | cons now rest =>
          unfold ScoreBoard1.traverse at hDone
          split_ifs at hDone with hStop
          cases hDone
          exact hNoted.stop hPassing.nxt hPassing.due hLooking
            hStop
  | succ rounds ih =>
      cases rest with
      | nil =>
          cases hDone
          exact hNoted
      | cons now rest =>
          unfold ScoreBoard1.traverse at hDone
          split_ifs at hDone with hStop
          · cases hDone
            exact hNoted.stop hPassing.nxt hPassing.due hLooking
              hStop
          · rcases @Place.keeps_look ⟨pass, now, rest⟩
              dupack_threshold with ⟨hKeeps, hRemembers⟩
            rcases hLooking.look hPassing.due hSorted with
              ⟨hLooking', hSorted'⟩
            rcases (hPassing.link hKeeps hRemembers).append with
              ⟨high', _, hNext⟩
            have hLinked := hNoted.link hPassing.nxt hRemembers
            rw [← @append_nxt _ _ (Place.look ⟨pass, now, rest⟩
              dupack_threshold).rest] at hLinked
            exact ih hDone hNext hLinked hSorted'
              hLooking'.append

end ScoreBoard1

end Ns2

------------------------------------------------------------
-- Updates
------------------------------------------------------------

namespace Ns2

namespace ScoreBoard1

open ScoreBoardNode1

variable {sb : ScoreBoard1}
variable {c : Cleaning}
variable {last_ack dupack_threshold : Int}
variable {blocks sacks sorted : List (Int × Int)}
variable {block : Int × Int}
variable {gone kept front : List ScoreBoardNode1}
variable {thorough : Bool}
variable {low n : Int}

/- The blocks that are not duplicate reports. -/
def accepted
    (last_ack : Int)
    (blocks : List (Int × Int)) : List (Int × Int) :=
  blocks.filter fun block => decide (last_ack ≤ block.1)

/- Blocks stay sorted when one is put in its place. -/
theorem sorted_insert
    (hSorted : sorted.Pairwise fun a b => a.1 ≤ b.1) :
    (sorted.rdropWhile (fun b => decide (block.1 < b.1)) ++
        block ::
          sorted.rtakeWhile
            fun b => decide (block.1 < b.1)).Pairwise
        (fun a b => a.1 ≤ b.1) ∧
      ∀ b, b ∈ sorted.rdropWhile
            (fun b => decide (block.1 < b.1)) ++
          block ::
            sorted.rtakeWhile (fun b => decide (block.1 < b.1)) ↔
        b ∈ sorted ∨ b = block := by
  induction sorted using List.reverseRecOn with
  | nil =>
      refine ⟨List.pairwise_singleton _ _, fun b => ?_⟩
      simp
  | append_singleton sorted last ih =>
      rw [List.pairwise_append] at hSorted
      rcases ih hSorted.1 with ⟨hInserted, hMem⟩
      let p : Int × Int → Bool :=
        fun b => decide (block.1 < b.1)
      have hBefore : ∀ b ∈ sorted, b.1 ≤ last.1 :=
        fun b hb => hSorted.2.2 b hb last
          (List.mem_singleton_self last)
      by_cases hLess : block.1 < last.1
      · have hPos : p last = true :=
          decide_eq_true hLess
        rw [List.rdropWhile_concat_pos p _ _ hPos,
          List.rtakeWhile_concat_pos p _ _ hPos,
          ← List.cons_append, ← List.append_assoc]
        constructor
        · rw [List.pairwise_append]
          refine ⟨hInserted, List.pairwise_singleton _ _, ?_⟩
          intro a ha b hb
          rw [List.mem_singleton.mp hb]
          rcases (hMem a).mp ha with hOld | rfl
          · exact hBefore a hOld
          · exact hLess.le
        · intro b
          rw [List.mem_append, hMem, List.mem_append]
          tauto
      · have hNeg : ¬p last = true := by
          simpa [p] using hLess
        rw [List.rdropWhile_concat_neg p _ _ hNeg,
          List.rtakeWhile_concat_neg p _ _ hNeg]
        constructor
        · rw [List.pairwise_append, List.pairwise_append]
          refine ⟨⟨hSorted.1, hSorted.2.1, hSorted.2.2⟩,
            List.pairwise_singleton _ _, ?_⟩
          intro a ha b hb
          rw [List.mem_singleton.mp hb]
          rcases List.mem_append.mp ha with hOld | hLast
          · exact (hBefore a hOld).trans (not_lt.mp hLess)
          · rw [List.mem_singleton.mp hLast]
            exact not_lt.mp hLess
        · intro b
          rw [List.mem_append, List.mem_singleton]

theorem sortSacks_spec :
    (sortSacks last_ack blocks).Pairwise
        (fun a b => a.1 ≤ b.1) ∧
      ∀ b, b ∈ sortSacks last_ack blocks ↔
        b ∈ accepted last_ack blocks := by
  induction blocks using List.reverseRecOn with
  | nil => exact ⟨List.Pairwise.nil, fun b => Iff.rfl⟩
  | append_singleton blocks block ih =>
      unfold sortSacks accepted at ih ⊢
      rw [List.foldl_append, List.foldl_cons, List.foldl_nil,
        List.filter_append]
      by_cases hDue : last_ack ≤ block.1
      · rw [if_pos hDue, List.filter_cons_of_pos
          (by simpa using hDue), List.filter_nil]
        rcases @sorted_insert _ block ih.1 with
          ⟨hInserted, hMem⟩
        refine ⟨hInserted, fun b => ?_⟩
        rw [hMem, ih.2, List.mem_append, List.mem_singleton]
      · rw [if_neg hDue, List.filter_cons_of_neg
          (by simpa using hDue), List.filter_nil,
          List.append_nil]
        exact ih

theorem covered_sortSacks :
    Covered (sortSacks last_ack blocks) n ↔
      Covered (accepted last_ack blocks) n := by
  unfold Covered
  simp only [sortSacks_spec.2]

/- Either `fack` advances or nothing changes. -/
theorem advanceFack_cases :
    (advanceFack sb thorough sacks).2 = true ∨
      advanceFack sb thorough sacks = (sb, thorough) ∧
        thorough = false := by
  unfold advanceFack
  cases thorough with
  | true =>
      left
      split
      · rfl
      · split <;> rfl
  | false =>
      split
      · exact Or.inr ⟨rfl, rfl⟩
      · split
        · exact Or.inl rfl
        · exact Or.inr ⟨rfl, rfl⟩

/- Why an update does not forget what is lost. -/
inductive Reaches
    (sb : ScoreBoard1)
    (last_ack : Int)
    (blocks : List (Int × Int))
    (dupack_threshold : Int) : Prop
| nothing (hNothing : accepted last_ack blocks = [])
| covered (hCovered : ∀ node ∈ sb.nodes,
    node.flag = .SKB_FLAG_LOST → ∀ n, last_ack < n →
      node.inside n = true →
        Covered (accepted last_ack blocks) n)
| newer (hNewer : ∃ node ∈ sb.nodes,
    node.getEnd ≤ last_ack ∧ Newer sb.acked_rtx_id node)
| advances (hAdvances : ∀ block,
    Rightmost last_ack blocks block → sb.fack < block.2 - 1)
| again (hAgain : ∃ node ∈ sb.nodes,
    node.flag = .SKB_FLAG_RETRANSMITTED ∧
      last_ack < node.seq ∧
        Covered (accepted last_ack blocks) node.seq)
| finds (hFinds : ∃ front node back n,
    sb.nodes = front ++ node :: back ∧ last_ack < n ∧
      Doomed dupack_threshold sb node n ∧
      ¬Covered (accepted last_ack blocks) n ∧
      ∀ other ∈ front, other.flag ≠ .SKB_FLAG_SACKED →
        last_ack < other.getEnd →
          ∃ block ∈ accepted last_ack blocks,
            other.getEnd < block.2)

/- The first node that is left, with what it keeps. -/
theorem trim_cons
    {first : ScoreBoardNode1}
    {rest : List ScoreBoardNode1}
    (hEnd : last_ack < first.getEnd) :
    ∃ first', trim last_ack (first :: rest) = first' :: rest ∧
      first'.flag = first.flag ∧ first'.nxt = first.nxt ∧
      first'.retran = first.retran ∧
      first'.getEnd = first.getEnd ∧
      first.seq ≤ first'.seq ∧
      (first.seq ≤ last_ack → first'.seq = last_ack + 1) ∧
      (last_ack < first.seq → first' = first) := by
  dsimp only [trim]
  by_cases hSeq : first.seq ≤ last_ack
  · rw [if_pos hSeq]
    have hAgain : first.flag ≠ .SKB_FLAG_RETRANSMITTED := by
      intro hSame
      rw [getEnd_of_eq hSame] at hEnd
      omega
    refine ⟨_, rfl, rfl, rfl, rfl, ?_, ?_, fun _ => rfl, ?_⟩
    · rw [getEnd_of_ne hAgain]
      exact if_neg hAgain
    · dsimp only
      omega
    · intro hAbove
      omega
  · rw [if_neg hSeq]
    exact ⟨first, rfl, rfl, rfl, rfl, rfl, le_rfl,
      fun hLe => absurd hLe hSeq, fun _ => rfl⟩

/- A node that is left is a part of one that was there. -/
theorem mem_trim
    {node : ScoreBoardNode1}
    (hDue : ∀ node ∈ kept, last_ack < node.getEnd)
    (hNode : node ∈ trim last_ack kept) :
    ∃ old ∈ kept, node.flag = old.flag ∧
      ∀ n, node.inside n = true → old.inside n = true := by
  cases kept with
  | nil => cases hNode
  | cons first rest =>
      rcases @trim_cons last_ack first rest
        (hDue first List.mem_cons_self) with
        ⟨first', hTrim, hFlag, _, _, hEnd, hSeq, _⟩
      rw [hTrim] at hNode
      rcases List.mem_cons.mp hNode with rfl | hOld
      · refine ⟨first, List.mem_cons_self, hFlag, ?_⟩
        intro n hInside
        rw [inside_iff, hEnd] at hInside
        exact inside_iff.mpr ⟨hSeq.trans hInside.1, hInside.2⟩
      · exact ⟨node, List.mem_cons_of_mem _ hOld, rfl,
          fun _ hInside => hInside⟩

end ScoreBoard1

end Ns2

------------------------------------------------------------
-- What an update remembers
------------------------------------------------------------

namespace Ns2

namespace ScoreBoard1

open ScoreBoardNode1

variable {sb : ScoreBoard1}
variable {c : Cleaning}
variable {last_ack dupack_threshold : Int}
variable {blocks sacks : List (Int × Int)}
variable {gone kept : List ScoreBoardNode1}
variable {pass' : Pass}
variable {thorough : Bool}
variable {low : Int}

theorem create_nodes
    (hSome : sb.nodes ≠ []) :
    sb.create last_ack = sb := by
  unfold create
  cases hNodes : sb.nodes with
  | nil => exact absurd hNodes hSome
  | cons node rest => rfl

theorem create_flag
    (hNil : sb.nodes = []) :
    ∀ node ∈ (sb.create last_ack).nodes,
      node.flag = .SKB_FLAG_INFLIGHT := by
  unfold create
  rw [hNil]
  intro node hNode
  rw [List.mem_singleton.mp hNode]

/- A block that is not acknowledged is left. -/
theorem mem_kept
    {c' : Cleaning}
    {node : ScoreBoardNode1}
    (hCleaned : Cleaned last_ack gone kept c c')
    (hNode : node ∈ gone ++ kept)
    (hAbove : last_ack < node.getEnd) :
    node ∈ kept := by
  rcases List.mem_append.mp hNode with hGone | hKept
  · have hEnd := hCleaned.past node hGone
    omega
  · exact hKept

/- A node that is left splits the list after the others. -/
theorem kept_split
    {c' : Cleaning}
    {node : ScoreBoardNode1}
    {front back : List ScoreBoardNode1}
    (hCleaned : Cleaned last_ack gone kept c c')
    (hSplit : gone ++ kept = front ++ node :: back)
    (hAbove : last_ack < node.getEnd) :
    ∃ later, front = gone ++ later ∧
      kept = later ++ node :: back := by
  rcases List.append_eq_append_iff.mp hSplit with
    ⟨later, hFront, hKept⟩ | ⟨more, hGone, hRest⟩
  · exact ⟨later, hFront, hKept⟩
  · cases more with
    | nil =>
        refine ⟨[], ?_, hRest.symm⟩
        rw [hGone, List.append_nil, List.append_nil]
    | cons first more =>
        cases hRest
        have hEnd := hCleaned.past node (by
          rw [hGone]
          exact List.mem_append_right _ List.mem_cons_self)
        omega

/- The reasons hold when the cleaning is done. -/
theorem Reaches.looking
    {c' : Cleaning}
    {flag : Nat}
    (hNodes : sb.nodes = gone ++ kept)
    (hCleaned : Cleaned last_ack gone kept ⟨sb, false, 0⟩ c')
    (hChain : ∃ high, Chain (last_ack + 1) c'.sb.nodes high)
    (hPass : ¬(c'.changed_acked_rtx = false ∧
      sortSacks last_ack blocks = []))
    (hReaches : Reaches sb last_ack blocks dupack_threshold) :
    Looking dupack_threshold
      ⟨{ (advanceFack c'.sb c'.changed_acked_rtx
            (sortSacks last_ack blocks)).1 with
          nxt_to_retrx := none },
        flag,
        (advanceFack c'.sb c'.changed_acked_rtx
          (sortSacks last_ack blocks)).2,
        sortSacks last_ack blocks⟩
      (advanceFack c'.sb c'.changed_acked_rtx
        (sortSacks last_ack blocks)).1.nodes := by
  rcases @advanceFack_cases c'.sb (sortSacks last_ack blocks)
    c'.changed_acked_rtx with hThorough | ⟨hSame, hSlow⟩
  · exact .thorough hThorough
  rw [hSame]
  have hSome : sortSacks last_ack blocks ≠ [] :=
    fun hNil => hPass ⟨hSlow, hNil⟩
  have hOld : ∀ node ∈ gone, ¬Newer sb.acked_rtx_id node := by
    intro node hNode hNewer
    have hChanged := hCleaned.newer
      (Or.inr ⟨node, hNode, hNewer⟩)
    rw [hSlow] at hChanged
    cases hChanged
  rcases hChain with ⟨high, hChain⟩
  cases hReaches with
  | nothing hNothing =>
      refine absurd (List.eq_nil_iff_forall_not_mem.mpr ?_) hSome
      intro b hb
      rw [sortSacks_spec.2, hNothing] at hb
      cases hb
  | covered hCovered =>
      refine .covered fun node hNode hLost n hInside => ?_
      have hBetween := hChain.between node hNode
      have hIn := inside_iff.mp hInside
      rw [hCleaned.nodes] at hNode
      rcases mem_trim hCleaned.due hNode with
        ⟨old, hMem, hFlag, hPart⟩
      refine covered_sortSacks.mpr (hCovered old ?_
        (hFlag.symm.trans hLost) n (by omega) (hPart n hInside))
      rw [hNodes]
      exact List.mem_append_right _ hMem
  | newer hNewer =>
      rcases hNewer with ⟨node, hNode, hEnd, hNewer⟩
      rw [hNodes] at hNode
      rcases List.mem_append.mp hNode with hGone | hKept
      · exact absurd hNewer (hOld node hGone)
      · have hDue := hCleaned.due node hKept
        omega
  | advances hAdvances =>
      have hRightmost := @getLast_sortSacks last_ack blocks
      cases hLast : (sortSacks last_ack blocks).getLast? with
      | none =>
          exact absurd (List.getLast?_eq_none_iff.mp hLast) hSome
      | some block =>
          rw [hLast] at hRightmost
          have hLess := hAdvances block hRightmost
          have hFack := congrArg (fun r => r.1.fack) hSame
          dsimp only at hFack
          rw [advanceFack_fack hLast, hCleaned.fack] at hFack
          dsimp only at hFack
          omega
  | again hAgain =>
      rcases hAgain with ⟨node, hNode, hFlag, hAbove, hCovered⟩
      rw [hNodes] at hNode
      have hKept := mem_kept hCleaned hNode
        (getEnd_of_eq hFlag ▸ hAbove)
      refine .again ⟨node, ?_, hFlag,
        covered_sortSacks.mpr hCovered⟩
      rw [hCleaned.nodes]
      cases kept with
      | nil => cases hKept
      | cons first rest =>
          rcases @trim_cons last_ack first rest
            (hCleaned.due first List.mem_cons_self) with
            ⟨first', hTrim, _, _, _, _, _, _, hWhole⟩
          rw [hTrim]
          rcases List.mem_cons.mp hKept with rfl | hRest
          · rw [hWhole hAbove]
            exact List.mem_cons_self
          · exact List.mem_cons_of_mem _ hRest
  | finds hFinds =>
      rcases hFinds with
        ⟨front, node, back, n, hSplit, hAbove, hDoomed, hNot,
          hFront⟩
      have hIn := inside_iff.mp hDoomed.1
      have hAcked := (hCleaned.same hOld).2
      have hFack := hCleaned.fack
      have hNot' :
          ¬Covered (sortSacks last_ack blocks) n :=
        fun hCovered => hNot (covered_sortSacks.mp hCovered)
      rcases kept_split hCleaned (hNodes.symm.trans hSplit)
        (show last_ack < node.getEnd by omega) with
        ⟨later, rfl, rfl⟩
      cases later with
      | nil =>
          rcases @trim_cons last_ack node back
            (hCleaned.due node List.mem_cons_self) with
            ⟨node', hTrim, hFlag, hNxt, hRetran, hEnd, _, hCut,
              hWhole⟩
          have hInside : node'.inside n = true := by
            rw [inside_iff, hEnd]
            refine ⟨?_, hIn.2⟩
            rcases le_or_gt node.seq last_ack with hLe | hLt
            · rw [hCut hLe]
              exact hAbove
            · rw [hWhole hLt]
              exact hIn.1
          refine .finds ⟨[], node', back, n, ?_, ⟨hSome, ?_⟩,
            hDoomed.congr hInside hFlag
              (fun _ => ⟨hNxt, hRetran⟩) hFack hAcked, hNot'⟩
          · rw [hCleaned.nodes]
            exact hTrim
          · exact fun _ hMem => absurd hMem List.not_mem_nil
      | cons first later =>
          rcases @trim_cons last_ack first (later ++ node :: back)
            (hCleaned.due first List.mem_cons_self) with
            ⟨first', hTrim, hFlag, _, _, hEnd, _⟩
          refine .finds ⟨first' :: later, node, back, n, ?_,
            ⟨hSome, ?_⟩, hDoomed.congr hDoomed.1 rfl
              (fun _ => ⟨rfl, rfl⟩) hFack hAcked, hNot'⟩
          · rw [hCleaned.nodes]
            exact hTrim
          · intro other hOther hSacked
            have hOld' : ∃ old ∈ first :: later,
                other.flag = old.flag ∧
                  other.getEnd = old.getEnd := by
              rcases List.mem_cons.mp hOther with rfl | hLater
              · exact ⟨first, List.mem_cons_self, hFlag, hEnd⟩
              · exact ⟨other, List.mem_cons_of_mem _ hLater, rfl,
                  rfl⟩
            rcases hOld' with ⟨old, hMem, hSameFlag, hSameEnd⟩
            rcases hFront old (List.mem_append_right _ hMem)
              (hSameFlag ▸ hSacked)
              (hCleaned.due old (List.mem_append_left _ hMem))
              with ⟨block, hBlock, hLess⟩
            exact ⟨block, (sortSacks_spec.2 block).mpr hBlock,
              hSameEnd ▸ hLess⟩

end ScoreBoard1

end Ns2

------------------------------------------------------------
-- Calls
------------------------------------------------------------

namespace Ns2

namespace ScoreBoard1

open ScoreBoardNode1

variable {sb : ScoreBoard1}
variable {s : Losing}
variable {now : ScoreBoardNode1}
variable {rest : List ScoreBoardNode1}
variable {last_ack dupack_threshold : Int}
variable {blocks : List (Int × Int)}
variable {low mid high snd_una snd_nxt : Int}

/- An update that reaches what is lost remembers it. -/
theorem Kept.update_noted
    {r : ScoreBoard1 × Nat}
    (hKept : Kept low sb.nodes sb)
    (hLow : low ≤ last_ack + 1)
    (hGood : (∀ node ∈ sb.nodes, node.getEnd ≤ last_ack) →
      ∀ block, Rightmost last_ack blocks block →
        last_ack < 0 ∨ last_ack + 1 < block.2)
    (hNoted : Noted sb.nxt_to_retrx sb.nodes)
    (hReaches : Reaches sb last_ack blocks dupack_threshold)
    (hUpdate : sb.updateScoreBoard last_ack blocks
      dupack_threshold = some r) :
    Noted r.1.nxt_to_retrx r.1.nodes := by
  rcases @Kept.cleanRtxQueue ⟨sb, false, 0⟩ _ low last_ack
    hKept hLow with ⟨c, hClean, hKept', hEmpty⟩
  rcases hKept.chain with ⟨high, hChain⟩
  rcases cleanRtxQueue_spec hChain hClean with
    ⟨gone, kept, hNodes, hCleaned⟩
  have hNoted' : Noted c.sb.nxt_to_retrx c.sb.nodes := by
    apply hCleaned.noted
    rw [← hNodes]
    exact hNoted
  unfold ScoreBoard1.updateScoreBoard at hUpdate
  rw [hClean, Option.bind_some] at hUpdate
  by_cases hNil : c.sb.nodes = []
  · simp only [if_pos hNil, true_and] at hUpdate
    split_ifs at hUpdate with hNone hFew
    · cases hUpdate
      trivial
    · cases hUpdate
      trivial
    · rcases Option.map_eq_some_iff.mp hUpdate with
        ⟨pass', hPass, rfl⟩
      have hFar : ∃ block,
          (sortSacks last_ack blocks).getLast? = some block ∧
            last_ack < max 0 (block.2 - 1) := by
        have hRightmost := @getLast_sortSacks last_ack blocks
        cases hLast : (sortSacks last_ack blocks).getLast? with
        | none =>
            exact absurd (List.getLast?_eq_none_iff.mp hLast)
              hFew
        | some block =>
            rw [hLast] at hRightmost
            have hCase := hGood (hEmpty hNil) block hRightmost
            exact ⟨block, rfl, by omega⟩
      rcases @Kept.created c.sb.clearScoreBoard last_ack
        (sortSacks last_ack blocks) false Kept.clearScoreBoard
        (fun _ => hFar) with ⟨hCreated, _⟩
      rcases hCreated.start with ⟨_, hStart⟩
      refine Passing.noted hPass hStart trivial
        sortSacks_spec.1 (.covered fun node hNode hLost => ?_)
      have hFlag := create_flag (advanceFack_nodes.trans rfl) node
        hNode
      rw [hFlag] at hLost
      cases hLost
  · simp only [if_neg hNil] at hUpdate
    split_ifs at hUpdate with hNone hFew
    · cases hUpdate
      exact hNoted'
    · cases hUpdate
      exact hNoted'
    · rcases Option.map_eq_some_iff.mp hUpdate with
        ⟨pass', hPass, rfl⟩
      rcases @Kept.created c.sb last_ack
        (sortSacks last_ack blocks) c.changed_acked_rtx hKept'
        (fun hNil' => absurd hNil' hNil) with ⟨hCreated, _⟩
      rcases hCreated.start with ⟨_, hStart⟩
      have hSame : (ScoreBoard1.advanceFack c.sb
          c.changed_acked_rtx (sortSacks last_ack
            blocks)).1.create last_ack =
          (ScoreBoard1.advanceFack c.sb c.changed_acked_rtx
            (sortSacks last_ack blocks)).1 := by
        apply create_nodes
        rw [advanceFack_nodes]
        exact hNil
      have hLooking := @Reaches.looking sb last_ack
        dupack_threshold blocks gone kept c c.flag hNodes hCleaned
        hKept'.chain hFew hReaches
      refine Passing.noted hPass hStart trivial
        sortSacks_spec.1 ?_
      rw [hSame]
      exact hLooking

/- One node of the walk of `MarkLoss`. -/
theorem Walking.noted
    (hWalking : Walking low mid high sb s (now :: rest))
    (hNoted : Noted s.nxt_to_retrx s.seen.reverse) :
    Noted (loseNode s now).nxt_to_retrx
      (loseNode s now).seen.reverse := by
  have hSeen : ∀ addr, s.nxt_to_retrx = some addr →
      addr ∈ s.seen.reverse.map (·.addr) := by
    intro addr hNext
    rw [List.map_reverse, List.mem_reverse]
    exact hWalking.passing.nxt addr hNext
  by_cases hFlag : now.flag = .SKB_FLAG_SACKED
  · have hLost : now.flag ≠ .SKB_FLAG_LOST := by
      rw [hFlag]
      decide
    unfold loseNode
    rw [if_neg (not_not.mpr hFlag)]
    dsimp only
    rw [List.reverse_cons]
    exact hNoted.append (Or.inr ⟨hLost, trivial⟩)
  · have hNext := hWalking.nxt hFlag
    have hPush : ∀ front node, s.seen.reverse = front →
        node.addr = s.nxt_to_retrx.getD now.addr ∨
          s.nxt_to_retrx ≠ none →
        Noted (some (s.nxt_to_retrx.getD now.addr))
          (front ++ [node]) := by
      intro front node hFront hNode
      subst hFront
      cases hSome : s.nxt_to_retrx with
      | none =>
          rw [hSome] at hNoted hNode
          refine (noted_of_ne ?_).append (Or.inl ?_)
          · exact hNoted.ne fun _ _ hNo => by cases hNo
          · exact congrArg some (hNode.resolve_right
              (not_not.mpr rfl)).symm
      | some addr =>
          rw [hSome] at hNoted
          exact hNoted.append_of_mem (hSeen addr hSome)
    rw [hNext]
    cases hLast : s.last_lost with
    | false =>
        rw [loseNode_first hFlag hLast, List.reverse_cons]
        apply hPush _ _ rfl
        cases hSome : s.nxt_to_retrx with
        | none => exact Or.inl rfl
        | some addr => exact Or.inr (Option.some_ne_none _)
    | true =>
        rcases hWalking.last_lost hLast with
          ⟨prev, front, hFront, hLost⟩
        rw [loseNode_merge hFlag hLast hFront, List.reverse_cons]
        rw [hFront, List.reverse_cons] at hNoted
        cases hSome : s.nxt_to_retrx with
        | none =>
            exact absurd hLost (hWalking.passing.lost hSome prev
              (hFront ▸ List.mem_cons_self))
        | some addr =>
            rw [hSome] at hNoted
            exact hNoted.replace rfl rfl

theorem Walking.foldl_noted
    (hWalking : Walking low mid high sb s rest)
    (hNoted : Noted s.nxt_to_retrx s.seen.reverse) :
    Noted (rest.foldl loseNode s).nxt_to_retrx
      (rest.foldl loseNode s).seen.reverse := by
  induction rest generalizing mid s with
  | nil => exact hNoted
  | cons now rest ih =>
      exact ih hWalking.lose (hWalking.noted hNoted)

/- The first packet that may be lost is remembered. -/
theorem Kept.markLoss_noted
    (hKept : Kept low sb.nodes sb) :
    Noted (sb.markLoss snd_una snd_nxt).nxt_to_retrx
      (sb.markLoss snd_una snd_nxt).nodes := by
  rcases hKept.walk with ⟨high, hWalk⟩
  have hDone := hWalk.foldl
  have hNoted := hWalk.foldl_noted trivial
  unfold ScoreBoard1.markLoss
  dsimp only
  generalize hFold : sb.nodes.foldl loseNode
    ⟨sb.fack_out, none, false, []⟩ = s at hDone hNoted
  cases hSeen : s.seen with
  | nil =>
      dsimp only
      have hNodes : sb.nodes = [] := by
        rcases List.eq_nil_or_concat sb.nodes with
          hNil | ⟨front, last, hLast⟩
        · exact hNil
        · rw [hLast, List.concat_eq_append, List.foldl_append,
            List.foldl_cons, List.foldl_nil] at hFold
          exact absurd (hFold ▸ hSeen) loseNode_seen
      split_ifs
      · exact Or.inl rfl
      · dsimp only
        rw [hNodes]
        trivial
  | cons prev front =>
      dsimp only
      have hEnd : prev.getEnd + 1 = high := by
        have hPassing := hDone.passing
        rw [hSeen] at hPassing
        exact hPassing.getEnd
      split_ifs with hMore
      · have hLast : high ≤ snd_nxt - 1 := by
          omega
        have hExtended : Walking low high (snd_nxt - 1 + 1)
            { sb with fresh := sb.fresh + 1 } s
            [⟨sb.fresh, .SKB_FLAG_INFLIGHT, high, snd_nxt - 1,
              0⟩] :=
          ⟨hDone.passing.extend hLast, hDone.last_lost⟩
        rw [hEnd]
        exact hExtended.noted hNoted
      · rw [← hSeen]
        exact hNoted

/- A retransmission leaves what is lost behind it. -/
theorem Noted.markRetran
    {retran_seqno : Int}
    {sb' : ScoreBoard1}
    (hNoted : Noted sb.nxt_to_retrx sb.nodes)
    (hMark : sb.markRetran retran_seqno snd_nxt = some sb') :
    Noted sb'.nxt_to_retrx sb'.nodes := by
  unfold ScoreBoard1.markRetran at hMark
  cases hNext : sb.nxt_to_retrx with
  | none =>
      rw [hNext] at hMark
      cases hMark
  | some addr =>
      rw [hNext] at hMark hNoted
      dsimp only at hMark
      cases hFrom : sb.from_addr addr with
      | nil =>
          rw [hFrom] at hMark
          cases hMark
      | cons node rest =>
          rw [hFrom] at hMark
          dsimp only at hMark
          split_ifs at hMark
          cases hMark
          dsimp only
          have hAddr : node.addr = addr := by
            have hHead := List.head?_dropWhile_not
              (fun node => decide (node.addr ≠ addr)) sb.nodes
            rw [show sb.nodes.dropWhile _ = node :: rest from
              hFrom] at hHead
            exact not_not.mp (of_decide_eq_false hHead)
          have hFront : Noted (some addr) (sb.nodes.takeWhile
              fun node => decide (node.addr ≠ addr)) := by
            rw [← @List.takeWhile_append_dropWhile _
              (fun node => decide (node.addr ≠ addr)) sb.nodes]
              at hNoted
            exact hNoted.left
          refine hFront.append ?_
          unfold ScoreBoard1.markNode
          split
          · exact Or.inl (congrArg some hAddr.symm)
          · exact Or.inl (congrArg some hAddr.symm)

end ScoreBoard1

end Ns2

------------------------------------------------------------
-- Runs
------------------------------------------------------------

namespace Ns2

namespace ScoreBoard1

open ScoreBoardNode1

variable {sb sb' : ScoreBoard1}
variable {before calls : List Call}
variable {c : Call}

/- An update of the call reaches what is lost. -/
def ReachesLosses (sb : ScoreBoard1) : Call → Prop
| .updateScoreBoard last_ack blocks dupack_threshold =>
    Reaches sb last_ack blocks dupack_threshold
| _ => True

/- What every such call keeps. -/
theorem Noted.call
    (hNoted : Noted sb.nxt_to_retrx sb.nodes)
    (hInv : Inv before sb)
    (hAllowed : Allowed before sb c)
    (hGood : Good sb c)
    (hReaches : ReachesLosses sb c)
    (hCall : call sb c = some sb') :
    Noted sb'.nxt_to_retrx sb'.nodes := by
  cases c with
  | updateScoreBoard last_ack blocks dupack_threshold =>
      rcases hInv.kept hAllowed with ⟨low, hLow, hKept⟩
      rcases Option.map_eq_some_iff.mp hCall with
        ⟨r, hUpdate, rfl⟩
      exact hKept.update_noted hLow hGood hNoted hReaches hUpdate
  | getNextRetran =>
      cases hCall
      rw [getNextRetran_nodes]
      exact hNoted.getNextRetran.2
  | markRetran retran_seqno snd_nxt =>
      exact hNoted.markRetran hCall
  | markLoss last_ack snd_nxt =>
      cases hCall
      rcases hInv with ⟨ack, hKept, _⟩
      exact hKept.markLoss_noted
  | clearScoreBoard =>
      cases hCall
      trivial

/-
  In every run whose updates reach what is lost, the first
  lost block is the one to be sent again, and nothing is lost
  where there is no packet to be sent again.
-/
theorem losses_remembered
    (hCalls : ∀ before c after sb,
      calls = before ++ c :: after →
        PartialRun.run call new before = some sb →
        Allowed before sb c ∧ Good sb c ∧ ReachesLosses sb c) :
    ∃ sb,
      PartialRun.run call new calls = some sb ∧
        sb.getNextRetran.1 =
          (firstLost sb.nodes).elim (-1) getStart ∧
        ((∀ a ∈ lastAcks calls, -1 ≤ a) →
          sb.getNextRetran.1 = -1 →
            ∀ node ∈ sb.nodes, node.flag ≠ .SKB_FLAG_LOST) := by
  have hNew : Inv [] new ∧ Noted new.nxt_to_retrx new.nodes :=
    ⟨inv_new, trivial⟩
  rcases @PartialRun.progress _ _ call
    (fun before sb =>
      Inv before sb ∧ Noted sb.nxt_to_retrx sb.nodes)
    (fun before sb c =>
      Allowed before sb c ∧ Good sb c ∧ ReachesLosses sb c)
    (fun before sb c hState hc => by
      rcases hState.1.call hc.1 hc.2.1 with ⟨sb', hCall, hInv⟩
      exact ⟨sb', hCall, hInv, hState.2.call hState.1 hc.1
        hc.2.1 hc.2.2 hCall⟩)
    _ _ hNew hCalls with ⟨sb, hRun, hInv, hNoted⟩
  have hFirst := hNoted.getNextRetran.1
  refine ⟨sb, hRun, hFirst, fun hAcks hNone => ?_⟩
  rw [hFirst] at hNone
  cases hLost : firstLost sb.nodes with
  | none =>
      intro node hNode
      simpa using List.find?_eq_none.mp hLost node hNode
  | some node =>
      rw [hLost] at hNone
      have hNode : node ∈ sb.nodes := List.mem_of_find?_eq_some hLost
      have hSome : lastAcks calls ≠ [] := by
        intro hNil
        rcases hInv with ⟨_, _, _, _, hEmpty⟩
        rw [hEmpty hNil] at hNode
        cases hNode
      rcases List.exists_mem_of_ne_nil _ hSome with ⟨a, ha⟩
      have hAbove := hInv.meets.above node hNode a ha
      have hLeast := hAcks a ha
      change node.getStart = -1 at hNone
      omega

/-
  0 and 2 get lost, 0 is sent again, and an old report of 1
  comes in: the pass reaches 2.
-/
theorem losses_remembered_late :
    ∃ sb,
      PartialRun.run call new
          [.updateScoreBoard (-1) [(1, 2), (8, 9)] 3,
            .getNextRetran, .markRetran 0 20,
            .updateScoreBoard (-1) [(1, 2)] 3] = some sb ∧
        sb.getNextRetran.1 = 2 ∧
        sb.getNextRetran.1 =
          (firstLost sb.nodes).elim (-1) getStart := by
  have hNext :
      (PartialRun.run call new
        [.updateScoreBoard (-1) [(1, 2), (8, 9)] 3,
          .getNextRetran]).map
            (fun sb => decide (sb.getNextRetran = (0, sb))) =
        some true := by
    decide +kernel
  have hNodes :
      (PartialRun.run call new
        [.updateScoreBoard (-1) [(1, 2), (8, 9)] 3,
          .getNextRetran, .markRetran 0 20]).map nodes =
        some
          [⟨0, .SKB_FLAG_RETRANSMITTED, 0, 20, 0⟩,
            ⟨1, .SKB_FLAG_SACKED, 1, 1, 0⟩,
            ⟨2, .SKB_FLAG_LOST, 2, 4, 0⟩,
            ⟨4, .SKB_FLAG_INFLIGHT, 5, 7, 0⟩,
            ⟨3, .SKB_FLAG_SACKED, 8, 8, 0⟩] := by
    decide +kernel
  have hTwo :
      (PartialRun.run call new
        [.updateScoreBoard (-1) [(1, 2), (8, 9)] 3,
          .getNextRetran, .markRetran 0 20,
          .updateScoreBoard (-1) [(1, 2)] 3]).map
            (fun sb => sb.getNextRetran.1) = some 2 := by
    decide +kernel
  have hResult := @losses_remembered
    [.updateScoreBoard (-1) [(1, 2), (8, 9)] 3,
      .getNextRetran, .markRetran 0 20,
      .updateScoreBoard (-1) [(1, 2)] 3] ?_
  · rcases hResult with ⟨sb, hRun, hFirst, _⟩
    rw [hRun] at hTwo
    exact ⟨sb, hRun, Option.some.inj hTwo, hFirst⟩
  intro before c after sb hEq hBefore
  rcases before with
    _ | ⟨c₁, _ | ⟨c₂, _ | ⟨c₃, _ | ⟨c₄, before⟩⟩⟩⟩
  · cases hEq
    cases hBefore
    refine ⟨?_, fun _ _ _ => Or.inl (by decide), ?_⟩
    · change ∀ a ∈ lastAcks [], a ≤ -1
      decide
    · exact .covered fun node hNode => by cases hNode
  · cases hEq
    exact ⟨trivial, trivial, trivial⟩
  · cases hEq
    rw [hBefore] at hNext
    exact ⟨⟨by decide,
      of_decide_eq_true (Option.some.inj hNext)⟩, trivial,
      trivial⟩
  · cases hEq
    rw [hBefore] at hNodes
    refine ⟨?_, fun _ _ _ => Or.inl (by decide), ?_⟩
    · change ∀ a ∈ lastAcks
        [.updateScoreBoard (-1) [(1, 2), (8, 9)] 3,
          .getNextRetran, .markRetran 0 20], a ≤ -1
      decide
    · refine .finds ⟨[⟨0, .SKB_FLAG_RETRANSMITTED, 0, 20, 0⟩,
        ⟨1, .SKB_FLAG_SACKED, 1, 1, 0⟩], _, _, 2,
        Option.some.inj hNodes, by decide,
        ⟨by decide, Or.inl rfl⟩, ?_, ?_⟩
      · rintro ⟨block, hBlock, hIn⟩
        rw [List.mem_singleton.mp hBlock] at hIn
        exact absurd hIn.2 (by decide)
      · intro other hOther _ _
        refine ⟨(1, 2), by decide, ?_⟩
        fin_cases hOther
        · decide
        · decide
  · have hNil := congrArg (List.drop 4) hEq
    exact absurd hNil.symm
      (List.append_ne_nil_of_right_ne_nil before
        (List.cons_ne_nil c after))

/-
  0 and 2 are sent again and an old report of 1 comes in: the
  pass stops at 2, and 3, which is lost, is forgotten.
-/
theorem loss_forgotten :
    ¬∀ (calls : List Call) (sb : ScoreBoard1),
      (∀ before c after sb₁, calls = before ++ c :: after →
        PartialRun.run call new before = some sb₁ →
          Allowed before sb₁ c ∧ Good sb₁ c) →
        PartialRun.run call new calls = some sb →
          sb.getNextRetran.1 =
            (firstLost sb.nodes).elim (-1) getStart := by
  intro hAll
  have hFirst :
      (PartialRun.run call new
        [.updateScoreBoard (-1) [(1, 2), (8, 9)] 3,
          .getNextRetran]).map
            (fun sb => decide (sb.getNextRetran = (0, sb))) =
        some true := by
    decide +kernel
  have hSecond :
      (PartialRun.run call new
        [.updateScoreBoard (-1) [(1, 2), (8, 9)] 3,
          .getNextRetran, .markRetran 0 20,
          .getNextRetran]).map
            (fun sb => decide (sb.getNextRetran = (2, sb))) =
        some true := by
    decide +kernel
  have hEnd :
      (PartialRun.run call new
        [.updateScoreBoard (-1) [(1, 2), (8, 9)] 3,
          .getNextRetran, .markRetran 0 20, .getNextRetran,
          .markRetran 2 20,
          .updateScoreBoard (-1) [(1, 2)] 3]).map
            (fun sb => (sb.getNextRetran.1,
              (firstLost sb.nodes).elim (-1) getStart)) =
        some (-1, 3) := by
    decide +kernel
  rcases Option.map_eq_some_iff.mp hEnd with ⟨sb, hRun, hBoth⟩
  have hSame := hAll _ sb ?_ hRun
  · have hNone : sb.getNextRetran.1 = -1 :=
      congrArg Prod.fst hBoth
    have hLost : (firstLost sb.nodes).elim (-1) getStart = 3 :=
      congrArg Prod.snd hBoth
    rw [hNone, hLost] at hSame
    exact absurd hSame (by decide)
  intro before c after sb₁ hEq hBefore
  rcases before with
    _ | ⟨c₁, _ | ⟨c₂, _ | ⟨c₃, _ | ⟨c₄, _ | ⟨c₅, _ |
      ⟨c₆, before⟩⟩⟩⟩⟩⟩
  · cases hEq
    refine ⟨?_, fun _ _ _ => Or.inl (by decide)⟩
    change ∀ a ∈ lastAcks [], a ≤ -1
    decide
  · cases hEq
    exact ⟨trivial, trivial⟩
  · cases hEq
    rw [hBefore] at hFirst
    exact ⟨⟨by decide,
      of_decide_eq_true (Option.some.inj hFirst)⟩, trivial⟩
  · cases hEq
    exact ⟨trivial, trivial⟩
  · cases hEq
    rw [hBefore] at hSecond
    exact ⟨⟨by decide,
      of_decide_eq_true (Option.some.inj hSecond)⟩, trivial⟩
  · cases hEq
    refine ⟨?_, fun _ _ _ => Or.inl (by decide)⟩
    change ∀ a ∈ lastAcks
      [.updateScoreBoard (-1) [(1, 2), (8, 9)] 3,
        .getNextRetran, .markRetran 0 20, .getNextRetran,
        .markRetran 2 20], a ≤ -1
    decide
  · have hNil := congrArg (List.drop 6) hEq
    exact absurd hNil.symm
      (List.append_ne_nil_of_right_ne_nil before
        (List.cons_ne_nil c after))

end ScoreBoard1

end Ns2
