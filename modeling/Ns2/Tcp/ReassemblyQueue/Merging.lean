import Ns2.Tcp.ReassemblyQueue.Landing

/-
  Linking a block of the reassembly queue.

  A new block is linked between the blocks that end before it
  and those that start behind it, and joined to those it
  touches.

  Main declarations:
    * `ReassemblyQueue.Holds`
    * `ReassemblyQueue.Holds.link_spec`
-/

------------------------------------------------------------
-- Joining Blocks
------------------------------------------------------------

namespace Ns2

namespace ReassemblyQueue

variable {rq rq' : ReassemblyQueue}
variable {as bs ys fs : List Nat} {x y p n q : Nat}
variable {lo hi : Int}

theorem Between.delete
    (hBetween : Between rq rq' as x bs ys fs lo hi)
    (hOff : y ∉ as ++ x :: bs)
    (hUsed : y ∉ fs)
    (hOld : y < rq'.fresh) :
    Between rq (rq'.deleteseginfo y) as x bs ys (y :: fs)
      lo hi :=
  ⟨hBetween.shape.delete hOff hUsed hOld, hBetween.here,
    hBetween.others⟩

theorem Between.advance
    (hBetween : Between rq rq' as x bs ys fs lo hi)
    (a b : Int) :
    Between rq (rq'.advance a b) as x bs ys fs lo hi := by
  constructor
  case shape => exact hBetween.shape.advance
  case here =>
    unfold interval
    rw [advance_seg]
    exact hBetween.here
  case others =>
    unfold interval
    rw [advance_seg]
    exact hBetween.others

/- Only the other blocks of the queue before count. -/
theorem Between.rebase
    {rq₁ : ReassemblyQueue}
    (hBetween : Between rq₁ rq' as x bs ys fs lo hi)
    (hSame : ∀ i ∈ as ++ bs,
      rq₁.interval i = rq.interval i) :
    Between rq rq' as x bs ys fs lo hi := by
  constructor
  case shape => exact hBetween.shape
  case here => exact hBetween.here
  case others =>
    intro i hi
    rw [hBetween.others i hi, hSame i hi]

/- A node of the queue is in use. -/
theorem Shape.used
    (hShape : Shape rq (as ++ x :: bs) ys fs) :
    x ∉ as ++ bs ∧ x ∉ fs ∧ x < rq.fresh := by
  refine ⟨?_, ?_, ?_⟩
  · exact (List.nodup_cons.mp
      (List.nodup_middle.mp hShape.fifo.nodup)).1
  · intro hIn
    exact hShape.free_apart x hIn (by simp)
  · exact hShape.bounded x (by simp)

theorem joinLeft_seg :
    (rq.joinLeft p n).2.seg = Function.update rq.seg p
      { rq.seg p with
        endseq := (rq.seg n).endseq
        pflags := (rq.seg p).pflags ||| (rq.seg n).pflags
        cnt := (rq.seg p).cnt + (rq.seg n).cnt } :=
  advance_seg

theorem joinRight_seg :
    (rq.joinRight n q).2.seg = Function.update rq.seg q
      { rq.seg q with
        startseq := (rq.seg n).startseq
        pflags := (rq.seg q).pflags ||| (rq.seg n).pflags
        cnt := (rq.seg q).cnt + (rq.seg n).cnt } :=
  advance_seg

theorem bridge_seg :
    (rq.bridge p n q).2.seg = Function.update rq.seg p
      { rq.seg p with
        endseq := (rq.seg q).endseq
        cnt := (rq.seg p).cnt +
          ((rq.seg n).cnt + (rq.seg q).cnt)
        pflags := (rq.seg p).pflags |||
          (rq.seg n).pflags } :=
  advance_seg

theorem joinLeft_between
    (hShape : Shape rq (as ++ p :: n :: bs) ys fs) :
    (rq.joinLeft p n).2.total = rq.total ∧
      ∃ fs', Between rq (rq.joinLeft p n).2 as p bs
        (ys.erase n) fs' (rq.seg p).startseq
        (rq.seg n).endseq := by
  have hList : as ++ p :: n :: bs = (as ++ [p]) ++ n :: bs := by
    simp
  rw [hList] at hShape
  rcases hShape.used with ⟨hOff, hUsed, hOld⟩
  have hRemoved := hShape.remove
  have hBack : (as ++ [p]) ++ bs = as ++ p :: bs := by simp
  rw [hBack] at hRemoved hOff
  unfold joinLeft
  constructor
  · exact advance_total
  · refine ⟨n :: fs, ?_⟩
    apply Between.advance
    apply Between.delete
    · apply Between.rebase
      · apply hRemoved.modify_between <;> rfl
      · intro _ _
        rfl
    · exact hOff
    · exact hUsed
    · exact hOld

theorem joinRight_between
    (hShape : Shape rq (as ++ n :: q :: bs) ys fs) :
    (rq.joinRight n q).2.total = rq.total ∧
      ∃ fs', Between rq (rq.joinRight n q).2 as q bs
        (ys.erase n) fs' (rq.seg n).startseq
        (rq.seg q).endseq := by
  rcases hShape.used with ⟨hOff, hUsed, hOld⟩
  have hRemoved := hShape.remove
  unfold joinRight
  constructor
  · exact advance_total
  · refine ⟨n :: fs, ?_⟩
    apply Between.advance
    apply Between.delete
    · apply Between.rebase
      · apply hRemoved.modify_between <;> rfl
      · intro _ _
        rfl
    · exact hOff
    · exact hUsed
    · exact hOld

theorem bridge_between
    (hShape : Shape rq (as ++ p :: n :: q :: bs) ys fs) :
    (rq.bridge p n q).2.total = rq.total ∧
      ∃ fs', Between rq (rq.bridge p n q).2 as p bs
        ((ys.erase n).erase q) fs' (rq.seg p).startseq
        (rq.seg q).endseq := by
  have hList : as ++ p :: n :: q :: bs =
      (as ++ [p]) ++ n :: q :: bs := by
    simp
  rw [hList] at hShape
  rcases hShape.used with ⟨hOff, hUsed, hOld⟩
  have hFirst := hShape.remove
  rcases hFirst.used with ⟨hOff', hUsed', hOld'⟩
  have hSecond := hFirst.remove
  have hBack : (as ++ [p]) ++ bs = as ++ p :: bs := by simp
  have hNe : q ≠ n := by
    rintro rfl
    exact hOff (by simp)
  have hOff₂ : n ∉ as ++ p :: bs := by
    intro hIn
    apply hOff
    simp only [List.mem_append, List.mem_cons] at hIn ⊢
    tauto
  rw [hBack] at hSecond hOff'
  unfold bridge
  constructor
  · exact advance_total
  · refine ⟨q :: n :: fs, ?_⟩
    apply Between.advance
    apply Between.delete
    · apply Between.delete
      · apply Between.rebase
        · apply hSecond.modify_between <;> rfl
        · intro _ _
          rfl
      · exact hOff₂
      · exact hUsed
      · exact hOld
    · exact hOff'
    · intro hIn
      rcases List.mem_cons.mp hIn with rfl | hIn
      · exact hNe rfl
      · exact hUsed' hIn
    · exact hOld'

end ReassemblyQueue

end Ns2

------------------------------------------------------------
-- Replacing Blocks
------------------------------------------------------------

namespace Ns2

namespace ReassemblyQueue

open IntervalList

/- The queue holds the numbers `covered`. -/
structure Holds
    (rq : ReassemblyQueue)
    (xs ys fs : List Nat)
    (covered : Finset Int) : Prop where
  shape : Shape rq xs ys fs
  normal : Normal (rq.blocks xs)
  total_eq : rq.total = IntervalList.total (rq.blocks xs)
  cover_eq : cover (rq.blocks xs) = covered

variable {rq rq' : ReassemblyQueue}
variable {as bs ys ys' fs fs' : List Nat} {x : Nat}
variable {lo hi start endseq : Int} {covered : Finset Int}

/- One block in the place of the blocks `mid`. -/
theorem Between.holds
    (mid : List Nat)
    (hHolds : Holds rq (as ++ (mid ++ bs)) ys fs covered)
    (hBetween : Between rq rq' as x bs ys' fs' lo hi)
    (hLt : lo < hi)
    (hFront : ∀ a ∈ as, (rq.interval a).2 < lo)
    (hBack : ∀ b ∈ bs, hi < (rq.interval b).1)
    (hTotal : rq'.total = rq.total + (hi - lo) -
      IntervalList.total (rq.blocks mid))
    (hCover : ∀ i, lo ≤ i ∧ i < hi ↔
      i ∈ cover (rq.blocks mid) ∨ start ≤ i ∧ i < endseq) :
    Holds rq' (as ++ x :: bs) ys' fs'
      (covered ∪ values start endseq) := by
  have hNormal := hHolds.normal
  have hOld := hHolds.total_eq
  have hCovered := hHolds.cover_eq
  simp only [blocks_append] at hNormal hOld hCovered
  constructor
  case shape => exact hBetween.shape
  case normal =>
    rw [hBetween.blocks_eq]
    apply hNormal.replace hLt
    · intro a ha
      rcases List.mem_map.mp ha with ⟨i, hi, rfl⟩
      exact hFront i hi
    · intro b hb
      rcases List.mem_map.mp hb with ⟨i, hi, rfl⟩
      exact hBack i hi
  case total_eq =>
    rw [hBetween.blocks_eq, hTotal, hOld]
    simp only [total_append, total_cons]
    omega
  case cover_eq =>
    rw [hBetween.blocks_eq, ← hCovered]
    ext i
    have hHere := hCover i
    simp only [mem_cover_append, mem_cover_cons,
      Finset.mem_union, mem_values, hHere]
    constructor
    · rintro (hIn | (hIn | hIn) | hIn) <;> simp [hIn]
    · rintro ((hIn | hIn | hIn) | hIn) <;> simp [hIn]

/- Linking a block, up to the blocks it touches. -/
theorem Shape.link_eq
    (hShape : Shape rq (as ++ bs) ys fs)
    (s : Seginfo)
    (needmerge : Bool) :
    ∃ n rq₁ fs',
      Between rq rq₁ as n bs (n :: ys) fs'
        s.startseq s.endseq ∧
      n ∉ as ++ bs ∧
      rq₁.seg = Function.update rq.seg n s ∧
      rq₁.rcvNxt = rq.rcvNxt ∧
      rq₁.total = rq.total + (s.endseq - s.startseq) ∧
      rq.link as.getLast? bs.head? s needmerge =
        if needmerge = true then
          rq₁.coalesce as.getLast? n bs.head?
        else some (s.pflags,
          rq₁.advance s.startseq s.endseq) := by
  rcases hShape.newseginfo with
    ⟨n, fresh, freelist, fs', hNew, hReady, hOff, hUsed,
      hOld⟩
  unfold ReassemblyQueue.link
  rw [hNew]
  refine ⟨n, _, fs', ?_, hOff, ?_, ?_, ?_, rfl⟩
  · constructor
    case shape =>
      apply hReady.link hOff hUsed hOld <;> rfl
    case here =>
      unfold interval
      change ((Function.update rq.seg n s n).startseq,
        (Function.update rq.seg n s n).endseq) = _
      rw [Function.update_self]
    case others =>
      intro i hi
      unfold interval
      change ((Function.update rq.seg n s i).startseq,
        (Function.update rq.seg n s i).endseq) = _
      rw [Function.update_of_ne]
      rintro rfl
      exact hOff hi
  · rfl
  · rfl
  · rfl

end ReassemblyQueue

end Ns2

------------------------------------------------------------
-- Linking a Block
------------------------------------------------------------

namespace Ns2

namespace ReassemblyQueue

open IntervalList

variable {rq rq' : ReassemblyQueue}
variable {as bs ys ys' fs fs' : List Nat}
variable {start endseq : Int} {covered : Finset Int}

theorem coalesce_left
    {p n : Nat}
    {q : Option Nat}
    (hLeft : (rq.seg p).endseq = (rq.seg n).startseq)
    (hRight : ∀ y, q = some y →
      (rq.seg n).endseq ≠ (rq.seg y).startseq) :
    rq.coalesce (some p) n q = some (rq.joinLeft p n) := by
  cases q with
  | none => simp [coalesce, hLeft]
  | some y => simp [coalesce, hLeft, hRight y rfl]

theorem coalesce_right
    {n q : Nat}
    {p : Option Nat}
    (hLeft : ∀ y, p = some y →
      (rq.seg y).endseq ≠ (rq.seg n).startseq)
    (hRight : (rq.seg n).endseq = (rq.seg q).startseq) :
    rq.coalesce p n (some q) = some (rq.joinRight n q) := by
  cases p with
  | none => simp [coalesce, hRight]
  | some y => simp [coalesce, hRight, hLeft y rfl]

theorem coalesce_both
    {p n q : Nat}
    (hLeft : (rq.seg p).endseq = (rq.seg n).startseq)
    (hRight : (rq.seg n).endseq = (rq.seg q).startseq) :
    rq.coalesce (some p) n (some q) =
      some (rq.bridge p n q) := by
  simp [coalesce, hLeft, hRight]

theorem normal_gap
    {xs : List Nat}
    {a b : Nat}
    (hNormal : Normal (rq.blocks (as ++ xs)))
    (ha : a ∈ as)
    (hb : b ∈ xs) :
    (rq.interval a).2 < (rq.interval b).1 := by
  rw [blocks_append] at hNormal
  exact (normal_append.mp hNormal).2.2 _ (mem_blocks ha)
    _ (mem_blocks hb)

theorem normal_pos
    {xs : List Nat}
    (hNormal : Normal (rq.blocks xs))
    (hx : x ∈ xs) :
    (rq.interval x).1 < (rq.interval x).2 :=
  hNormal.nonempty _ (mem_blocks hx)

/- The blocks end where the last one ends, or before. -/
theorem ends_le_last
    {x : Nat}
    (hNormal : Normal (rq.blocks (as ++ [x]))) :
    ∀ a ∈ as ++ [x],
      (rq.interval a).2 ≤ (rq.interval x).2 := by
  intro a ha
  rcases List.mem_append.mp ha with hIn | hIn
  · have hGap := normal_gap hNormal hIn List.mem_cons_self
    have hPos := normal_pos hNormal (x := x) (by simp)
    omega
  · cases List.mem_singleton.mp hIn
    exact le_rfl

/- The blocks start where the first one starts, or behind. -/
theorem head_le_starts
    {x : Nat}
    (hNormal : Normal (rq.blocks (x :: bs))) :
    ∀ b ∈ x :: bs,
      (rq.interval x).1 ≤ (rq.interval b).1 := by
  intro b hb
  rcases List.mem_cons.mp hb with rfl | hIn
  · exact le_rfl
  · have hList : Normal (rq.blocks ([x] ++ bs)) := hNormal
    have hGap := normal_gap hList List.mem_cons_self hIn
    have hPos := normal_pos hNormal (x := x) (by simp)
    omega

/- Only the last block can end where a new one starts. -/
theorem ends_before
    {v : Int}
    (hNormal : Normal (rq.blocks (as ++ bs)))
    (hLow : ∀ a ∈ as, (rq.interval a).2 ≤ v)
    (hLast : ∀ p, as.getLast? = some p →
      (rq.interval p).2 ≠ v) :
    ∀ a ∈ as, (rq.interval a).2 < v := by
  intro a ha
  rcases List.eq_nil_or_concat as with rfl | ⟨as, p, rfl⟩
  · cases ha
  rw [List.concat_eq_append] at hNormal hLow hLast ha
  have hEnd := hLow p (by simp)
  have hNe := hLast p (by simp)
  rcases List.mem_append.mp ha with hIn | hIn
  · have hFar := hLow a ha
    rw [List.append_assoc] at hNormal
    have hGap := normal_gap hNormal hIn
      (List.mem_append_left bs (List.mem_singleton_self p))
    have hPos := normal_pos hNormal (x := p) (by simp)
    omega
  · cases List.mem_singleton.mp hIn
    omega

/- Only the first block can start where a new one ends. -/
theorem starts_behind
    {v : Int}
    (hNormal : Normal (rq.blocks (as ++ bs)))
    (hHigh : ∀ b ∈ bs, v ≤ (rq.interval b).1)
    (hHead : ∀ q, bs.head? = some q →
      (rq.interval q).1 ≠ v) :
    ∀ b ∈ bs, v < (rq.interval b).1 := by
  intro b hb
  rcases bs with _ | ⟨q, bs⟩
  · cases hb
  have hStart := hHigh q (by simp)
  have hNe := hHead q rfl
  rcases List.mem_cons.mp hb with rfl | hIn
  · omega
  · have hList : as ++ q :: bs = (as ++ [q]) ++ bs := by simp
    rw [hList] at hNormal
    have hGap := normal_gap hNormal (a := q) (by simp) hIn
    have hPos := normal_pos hNormal (x := q) (by simp)
    omega

theorem apart_of_gap
    (hNormal : Normal (rq.blocks (as ++ bs)))
    (hLt : start < endseq)
    (hLow : ∀ a ∈ as, (rq.interval a).2 ≤ start)
    (hHigh : ∀ b ∈ bs, endseq ≤ (rq.interval b).1) :
    Apart rq (as ++ bs) start endseq := by
  constructor
  case lt => exact hLt
  case pos =>
    intro i hi
    exact normal_pos hNormal hi
  case sides =>
    intro i hi
    rcases List.mem_append.mp hi with hIn | hIn
    · exact Or.inl (hLow i hIn)
    · exact Or.inr (hHigh i hIn)

/- The first of the blocks a segment meets. -/
theorem meets_first
    {x : Nat}
    (hNormal : Normal (rq.blocks (as ++ x :: bs)))
    (hFront : ∀ a ∈ as, (rq.interval a).2 < start) :
    ∀ i ∈ as ++ x :: bs, Meets rq start endseq i →
      (rq.interval x).1 ≤ (rq.interval i).1 := by
  intro i hi hMeets
  rcases List.mem_append.mp hi with hIn | hIn
  · have hFar := hFront i hIn
    unfold Meets at hMeets
    omega
  · rcases List.mem_cons.mp hIn with rfl | hIn
    · exact le_rfl
    · have hList : as ++ x :: bs = (as ++ [x]) ++ bs := by simp
      rw [hList] at hNormal
      have hGap := normal_gap hNormal (a := x) (by simp) hIn
      have hPos := normal_pos hNormal (x := x) (by simp)
      omega

/- The new block joins the one before it. -/
theorem Between.joinLeft
    {n p : Nat}
    (hHolds : Holds rq (as ++ p :: bs) ys fs covered)
    (hNew : Between rq rq' (as ++ [p]) n bs ys' fs'
      start endseq)
    (hTotal : rq'.total = rq.total + (endseq - start))
    (hLt : start < endseq)
    (hp : (rq.interval p).2 = start)
    (hBack : ∀ b ∈ bs, endseq < (rq.interval b).1) :
    ∃ fs₁, Holds (rq'.joinLeft p n).2 (as ++ p :: bs)
      (ys'.erase n) fs₁ (covered ∪ values start endseq) := by
  have hShape : Shape rq' (as ++ p :: n :: bs) ys' fs' := by
    simpa using hNew.shape
  have hOld : rq'.interval p = rq.interval p :=
    hNew.others p (by simp)
  have hPos := normal_pos hHolds.normal (x := p) (by simp)
  rcases joinLeft_between hShape with
    ⟨hKept, fs₁, hBetween⟩
  have hStart : (rq'.seg p).startseq = (rq.interval p).1 :=
    congrArg Prod.fst hOld
  have hEnd : (rq'.seg n).endseq = endseq :=
    congrArg Prod.snd hNew.here
  rw [hStart, hEnd] at hBetween
  refine ⟨fs₁, ?_⟩
  apply Between.holds [p] hHolds
  · apply hBetween.rebase
    intro i hi
    apply hNew.others
    simp only [List.mem_append] at hi ⊢
    tauto
  · omega
  · intro a ha
    exact normal_gap hHolds.normal ha List.mem_cons_self
  · exact hBack
  · rw [hKept, hTotal]
    simp only [blocks_cons, blocks_nil, total_cons,
      total_nil]
    omega
  · intro i
    simp only [blocks_cons, blocks_nil, mem_cover_cons,
      cover_nil, Finset.notMem_empty, or_false]
    omega

/- The new block joins the one behind it. -/
theorem Between.joinRight
    {n q : Nat}
    (hHolds : Holds rq (as ++ q :: bs) ys fs covered)
    (hNew : Between rq rq' as n (q :: bs) ys' fs'
      start endseq)
    (hTotal : rq'.total = rq.total + (endseq - start))
    (hLt : start < endseq)
    (hq : (rq.interval q).1 = endseq)
    (hFront : ∀ a ∈ as, (rq.interval a).2 < start) :
    ∃ fs₁, Holds (rq'.joinRight n q).2 (as ++ q :: bs)
      (ys'.erase n) fs₁ (covered ∪ values start endseq) := by
  have hOld : rq'.interval q = rq.interval q :=
    hNew.others q (by simp)
  have hPos := normal_pos hHolds.normal (x := q) (by simp)
  rcases joinRight_between hNew.shape with
    ⟨hKept, fs₁, hBetween⟩
  have hStart : (rq'.seg n).startseq = start :=
    congrArg Prod.fst hNew.here
  have hEnd : (rq'.seg q).endseq = (rq.interval q).2 :=
    congrArg Prod.snd hOld
  rw [hStart, hEnd] at hBetween
  refine ⟨fs₁, ?_⟩
  apply Between.holds [q] hHolds
  · apply hBetween.rebase
    intro i hi
    apply hNew.others
    simp only [List.mem_append, List.mem_cons] at hi ⊢
    tauto
  · omega
  · exact hFront
  · intro b hb
    have hList : as ++ q :: bs = (as ++ [q]) ++ bs := by simp
    have hNormal := hHolds.normal
    rw [hList] at hNormal
    exact normal_gap hNormal (by simp) hb
  · rw [hKept, hTotal]
    simp only [blocks_cons, blocks_nil, total_cons,
      total_nil]
    omega
  · intro i
    simp only [blocks_cons, blocks_nil, mem_cover_cons,
      cover_nil, Finset.notMem_empty, or_false]
    omega

/- The new block fills the hole between two blocks. -/
theorem Between.bridge
    {n p q : Nat}
    (hHolds : Holds rq (as ++ p :: q :: bs) ys fs covered)
    (hNew : Between rq rq' (as ++ [p]) n (q :: bs) ys' fs'
      start endseq)
    (hTotal : rq'.total = rq.total + (endseq - start))
    (hLt : start < endseq)
    (hp : (rq.interval p).2 = start)
    (hq : (rq.interval q).1 = endseq) :
    ∃ fs₁, Holds (rq'.bridge p n q).2 (as ++ p :: bs)
      ((ys'.erase n).erase q) fs₁
      (covered ∪ values start endseq) := by
  have hShape : Shape rq' (as ++ p :: n :: q :: bs)
      ys' fs' := by
    simpa using hNew.shape
  have hOldP : rq'.interval p = rq.interval p :=
    hNew.others p (by simp)
  have hOldQ : rq'.interval q = rq.interval q :=
    hNew.others q (by simp)
  have hPosP := normal_pos hHolds.normal (x := p) (by simp)
  have hPosQ := normal_pos hHolds.normal (x := q) (by simp)
  rcases bridge_between hShape with
    ⟨hKept, fs₁, hBetween⟩
  have hStart : (rq'.seg p).startseq = (rq.interval p).1 :=
    congrArg Prod.fst hOldP
  have hEnd : (rq'.seg q).endseq = (rq.interval q).2 :=
    congrArg Prod.snd hOldQ
  rw [hStart, hEnd] at hBetween
  refine ⟨fs₁, ?_⟩
  apply Between.holds [p, q] hHolds
  · apply hBetween.rebase
    intro i hi
    apply hNew.others
    simp only [List.mem_append, List.mem_cons] at hi ⊢
    tauto
  · omega
  · intro a ha
    exact normal_gap hHolds.normal ha List.mem_cons_self
  · intro b hb
    have hList : as ++ p :: q :: bs = (as ++ [p, q]) ++ bs := by
      simp
    have hNormal := hHolds.normal
    rw [hList] at hNormal
    exact normal_gap hNormal (by simp) hb
  · rw [hKept, hTotal]
    simp only [blocks_cons, blocks_nil, total_cons,
      total_nil]
    omega
  · intro i
    simp only [blocks_cons, blocks_nil, mem_cover_cons,
      cover_nil, Finset.notMem_empty, or_false]
    omega

/- The segment lands in a block whose fields change. -/
theorem Apart.landed_join
    {d : ReassemblyQueue}
    {xs xs' zs : List Nat}
    {s v : Seginfo}
    {n x ret : Nat}
    (hApart : Apart rq xs s.startseq s.endseq)
    (hNew : rq'.seg = Function.update rq.seg n s)
    (hOff : n ∉ xs)
    (hOld : x ∈ xs)
    (hMeets : Meets rq s.startseq s.endseq x)
    (hFirst : ∀ i ∈ xs, Meets rq s.startseq s.endseq i →
      (rq.interval x).1 ≤ (rq.interval i).1)
    (hSeg : d.seg = Function.update rq'.seg x v)
    (hFlags : v.pflags =
      (rq'.seg x).pflags ||| (rq'.seg n).pflags)
    (hLow : v.startseq ≤ s.startseq)
    (hHigh : s.endseq ≤ v.endseq)
    (hMem : x ∈ xs')
    (hSub : ∀ i ∈ xs', i ∈ xs)
    (hStack : zs.Sublist ys)
    (hRet : ret = (d.seg x).pflags)
    (hPoint : d.rcvNxt =
      if (d.seg x).startseq ≤ rq.rcvNxt then
        (d.seg x).endseq
      else rq.rcvNxt) :
    Landed rq d xs ys xs' zs s.startseq s.endseq s.pflags
      ret x := by
  have hNe : x ≠ n := by
    rintro rfl
    exact hOff hOld
  have hHere : d.seg x = v := by
    rw [hSeg, Function.update_self]
  have hValue : v.pflags =
      (rq.seg x).pflags ||| s.pflags := by
    rw [hFlags, hNew, Function.update_self,
      Function.update_of_ne hNe]
  rw [hRet, hHere, hValue]
  apply hApart.landed_kept hOld hMeets hFirst hMem
  · unfold interval
    rw [hHere]
    exact hLow
  · unfold interval
    rw [hHere]
    exact hHigh
  · rw [hHere, hValue]
  · intro i hi hOther
    refine ⟨hSub i hi, ?_⟩
    rw [hSeg, Function.update_of_ne hOther, hNew]
    apply Function.update_of_ne
    rintro rfl
    exact hOff (hSub i hi)
  · exact hStack
  · exact hPoint

/-
  Linking a block between the blocks that end before it and
  those that start behind it, joined to those it touches.
-/
theorem Holds.link_spec
    (hHolds : Holds rq (as ++ bs) ys fs covered)
    (s : Seginfo)
    (needmerge : Bool)
    (hLt : s.startseq < s.endseq)
    (hLow : ∀ a ∈ as, (rq.interval a).2 ≤ s.startseq)
    (hHigh : ∀ b ∈ bs, s.endseq ≤ (rq.interval b).1)
    (hMerge : needmerge = true ↔
      (∃ p, as.getLast? = some p ∧
        (rq.interval p).2 = s.startseq) ∨
      ∃ q, bs.head? = some q ∧
        (rq.interval q).1 = s.endseq) :
    ∃ r xs' ys' fs' x,
      rq.link as.getLast? bs.head? s needmerge = some r ∧
      Holds r.2 xs' ys' fs'
        (covered ∪ values s.startseq s.endseq) ∧
      Landed rq r.2 (as ++ bs) ys xs' ys' s.startseq
        s.endseq s.pflags r.1 x := by
  rcases hHolds.shape.link_eq s needmerge with
    ⟨n, rq₁, fs₁, hNew, hOff, hSeg, hPoint, hTotal, hEq⟩
  have hNormal := hHolds.normal
  have hApart := apart_of_gap hNormal hLt hLow hHigh
  have hStart : (rq₁.seg n).startseq = s.startseq :=
    congrArg Prod.fst hNew.here
  have hEnd : (rq₁.seg n).endseq = s.endseq :=
    congrArg Prod.snd hNew.here
  have hSegEnd : ∀ i ∈ as ++ bs,
      (rq₁.seg i).endseq = (rq.interval i).2 := by
    intro i hi
    exact congrArg Prod.snd (hNew.others i hi)
  have hSegStart : ∀ i ∈ as ++ bs,
      (rq₁.seg i).startseq = (rq.interval i).1 := by
    intro i hi
    exact congrArg Prod.fst (hNew.others i hi)
  rw [hEq]
  by_cases hLeft : ∃ p, as.getLast? = some p ∧
      (rq.interval p).2 = s.startseq
  · rw [if_pos (hMerge.mpr (Or.inl hLeft))]
    rcases hLeft with ⟨p, hLast, hp⟩
    rw [hLast]
    rcases List.getLast?_eq_some_iff.mp hLast with
      ⟨as', rfl⟩
    have hTouch : (rq₁.seg p).endseq =
        (rq₁.seg n).startseq := by
      rw [hStart, hSegEnd p (by simp), hp]
    have hPos := hApart.pos p (by simp)
    have hLowP : (rq₁.seg p).startseq ≤ s.startseq := by
      rw [hSegStart p (by simp)]
      omega
    have hMeets : Meets rq s.startseq s.endseq p := by
      unfold Meets
      omega
    rw [List.append_assoc] at hHolds hApart hOff ⊢
    have hFront : ∀ a ∈ as',
        (rq.interval a).2 < s.startseq := by
      intro a ha
      have hGap := normal_gap hHolds.normal ha
        (List.mem_append_left bs (List.mem_singleton_self p))
      omega
    by_cases hRight : ∃ q, bs.head? = some q ∧
        (rq.interval q).1 = s.endseq
    · rcases hRight with ⟨q, hHead, hq⟩
      rcases List.head?_eq_some_iff.mp hHead with ⟨bs', rfl⟩
      have hPosQ := hApart.pos q (by simp)
      rcases Between.bridge hHolds hNew hTotal hLt hp hq with
        ⟨fs', hDone⟩
      refine ⟨_, _, _, fs', p, ?_, hDone, ?_⟩
      · apply coalesce_both hTouch
        rw [hEnd, hSegStart q (by simp), hq]
      · apply hApart.landed_join hSeg hOff (by simp) hMeets
          (meets_first hHolds.normal hFront) bridge_seg rfl
          hLowP
        · change s.endseq ≤ (rq₁.seg q).endseq
          rw [hSegEnd q (by simp)]
          omega
        · simp
        · intro i hi
          simp only [List.mem_append, List.mem_cons] at hi ⊢
          tauto
        · rw [List.erase_cons_head]
          exact List.erase_sublist
        · exact advance_flags
        · rw [← hPoint]
          exact advance_point
    · have hBack := starts_behind hNormal hHigh
        (fun q hHead hq => hRight ⟨q, hHead, hq⟩)
      rcases Between.joinLeft hHolds hNew hTotal hLt hp
          hBack with ⟨fs', hDone⟩
      refine ⟨_, _, _, fs', p, ?_, hDone, ?_⟩
      · apply coalesce_left hTouch
        intro q hHead hq
        have hMem := List.mem_of_head? hHead
        have := hBack q hMem
        rw [hEnd, hSegStart q (by simp [hMem])] at hq
        omega
      · apply hApart.landed_join hSeg hOff (by simp) hMeets
          (meets_first hHolds.normal hFront) joinLeft_seg rfl
          hLowP
        · exact hEnd.ge
        · simp
        · exact fun i hi => hi
        · rw [List.erase_cons_head]
        · exact advance_flags
        · rw [← hPoint]
          exact advance_point
  · have hFront := ends_before hNormal hLow
      (fun p hLast hp => hLeft ⟨p, hLast, hp⟩)
    by_cases hRight : ∃ q, bs.head? = some q ∧
        (rq.interval q).1 = s.endseq
    · rw [if_pos (hMerge.mpr (Or.inr hRight))]
      rcases hRight with ⟨q, hHead, hq⟩
      rw [hHead]
      rcases List.head?_eq_some_iff.mp hHead with ⟨bs', rfl⟩
      have hPosQ := hApart.pos q (by simp)
      rcases Between.joinRight hHolds hNew hTotal hLt hq
          hFront with ⟨fs', hDone⟩
      refine ⟨_, _, _, fs', q, ?_, hDone, ?_⟩
      · apply coalesce_right
        · intro p hLast hp
          have hMem := List.mem_of_getLast? hLast
          have := hFront p hMem
          rw [hStart, hSegEnd p (by simp [hMem])] at hp
          omega
        · rw [hEnd, hSegStart q (by simp), hq]
      · apply hApart.landed_join hSeg hOff (by simp) _
          (meets_first hHolds.normal hFront) joinRight_seg rfl
          hStart.le
        · change s.endseq ≤ (rq₁.seg q).endseq
          rw [hSegEnd q (by simp)]
          omega
        · simp
        · exact fun i hi => hi
        · rw [List.erase_cons_head]
        · exact advance_flags
        · rw [← hPoint]
          exact advance_point
        · unfold Meets
          omega
    · rw [if_neg (fun h => (hMerge.mp h).elim hLeft hRight)]
      have hBack := starts_behind hNormal hHigh
        (fun q hHead hq => hRight ⟨q, hHead, hq⟩)
      refine ⟨_, as ++ n :: bs, n :: ys, fs₁, n, rfl, ?_, ?_⟩
      · apply Between.holds [] hHolds
          (hNew.advance _ _) hLt hFront hBack
        · rw [advance_total, hTotal]
          simp
        · intro i
          simp
      · apply hApart.landed_created
        · intro i hi hMeets
          unfold Meets at hMeets
          rcases List.mem_append.mp hi with hIn | hIn
          · have hFar := hFront i hIn
            omega
          · have hFar := hBack i hIn
            omega
        · simp
        · exact (hNew.advance _ _).here
        · rw [advance_seg, hSeg, Function.update_self]
        · intro i hi hOther
          constructor
          · simp only [List.mem_append, List.mem_cons] at hi ⊢
            tauto
          · rw [advance_seg, hSeg,
              Function.update_of_ne hOther]
        · rfl
        · rw [advance_rcvNxt, hPoint]

end ReassemblyQueue

end Ns2
