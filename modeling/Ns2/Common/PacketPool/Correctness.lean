import Ns2.Common.PacketPool.Operations
import Ns2.Lib.LinkedList
import Ns2.Lib.PartialRun

/-
  Packets are free exactly while nobody holds them.

  Every packet that was made either has holders, and counts
  them, or is in the free list. Each call moves at most the
  packet that it is about.

  Main declarations:
    * `Holding.Kept`
    * `Holding.call_kept`
    * `Holding.Safe`
    * `Holding.packets_safe`
-/

------------------------------------------------------------
-- Writing a Packet
------------------------------------------------------------

namespace Ns2

namespace PacketPool

variable {ω δ ρ : Type}
variable {pool : PacketPool ω δ ρ}
variable {pkt : PooledPacket ω δ ρ}
variable {p x : Nat}

@[simp] theorem write_packet_self :
    (pool.write p pkt).packet p = pkt :=
  Function.update_self _ _ _

@[simp] theorem write_packet_else
    (hx : x ≠ p) :
    (pool.write p pkt).packet x = pool.packet x :=
  Function.update_of_ne hx _ _

@[simp] theorem write_made :
    (pool.write p pkt).made = pool.made :=
  rfl

@[simp] theorem write_free :
    (pool.write p pkt).free_ = pool.free_ :=
  rfl

theorem write_next :
    (pool.write p pkt).next =
      Function.update pool.next p pkt.next_ := by
  funext x
  by_cases hx : x = p
  · subst hx
    rw [Function.update_self, next, write_packet_self]
  · rw [Function.update_of_ne hx, next, write_packet_else hx]
    rfl

end PacketPool

end Ns2

------------------------------------------------------------
-- Holders and the Free List
------------------------------------------------------------

namespace Ns2

namespace Holding

open LinkedList

variable {ω δ ρ : Type}

/- A packet without holders. -/
structure Idle (pkt : PooledPacket ω δ ρ) : Prop where
  flag : pkt.fflag_ = false
  data : pkt.data_ = none
  count : pkt.ref_count_ = 0

/- A packet with this number of holders. -/
structure Held
    (pkt : PooledPacket ω δ ρ)
    (n : Nat) : Prop where
  flag : pkt.fflag_ = true
  count : pkt.ref_count_ + 1 = n
  uid : pkt.uid_ ≤ 0

/- The packets in the free list, and what holds of each. -/
structure Kept
    (h : Holding ω δ ρ)
    (list : List Nat) : Prop where
  seg : Seg h.pool.next h.pool.free_ list none
  nodup : list.Nodup
  mem : ∀ p, p ∈ list ↔ p < h.pool.made ∧ h.holders p = 0
  idle : ∀ p ∈ list, Idle (h.pool.packet p)
  held : ∀ p, 0 < h.holders p →
    p < h.pool.made ∧ Held (h.pool.packet p) (h.holders p)

variable {h : Holding ω δ ρ}
variable {list : List Nat}
variable {pkt : PooledPacket ω δ ρ}
variable {p : Nat}

theorem Kept.not_mem
    (hKept : Kept h list)
    (hHeld : 0 < h.holders p) : p ∉ list := by
  intro hMem
  have hNone := ((hKept.mem p).mp hMem).2
  omega

/- A holder writes its packet, the count as it was. -/
theorem Kept.write
    (hKept : Kept h list)
    (hHolder : 0 < h.holders p)
    (hHeld : Held pkt (h.holders p)) :
    Kept { h with pool := h.pool.write p pkt } list := by
  have hNot := hKept.not_mem hHolder
  constructor
  case seg =>
    rw [PacketPool.write_next]
    exact hKept.seg.update hNot
  case nodup => exact hKept.nodup
  case mem => exact hKept.mem
  case idle =>
    intro x hx
    have hNe : x ≠ p := by
      rintro rfl
      exact hNot hx
    rw [PacketPool.write_packet_else hNe]
    exact hKept.idle x hx
  case held =>
    intro x hx
    refine ⟨(hKept.held x hx).1, ?_⟩
    by_cases hSame : x = p
    · subst hSame
      rw [PacketPool.write_packet_self]
      exact hHeld
    · rw [PacketPool.write_packet_else hSame]
      exact (hKept.held x hx).2

/- A packet that was free, or new, gets its first holder. -/
structure Taken
    (h : Holding ω δ ρ)
    (pkt : PooledPacket ω δ ρ)
    (pool : PacketPool ω δ ρ)
    (p : Nat) : Prop where
  packet : ∀ x, pool.packet x =
    (h.pool.write p pkt).packet x
  held : Held pkt 1
  fresh : h.holders p = 0
  below : p < pool.made
  made : ∀ x, x < pool.made ↔ x < h.pool.made ∨ x = p

theorem Kept.take
    {rest : List Nat}
    {pool : PacketPool ω δ ρ}
    (hKept : Kept h list)
    (hTaken : Taken h pkt pool p)
    (hRest : rest = list.erase p)
    (hSeg : Seg h.pool.next pool.free_ rest none) :
    Kept (h.hold (pool, p)) rest := by
  have hNodup : rest.Nodup := by
    rw [hRest]
    exact hKept.nodup.erase p
  have hMem : ∀ x, x ∈ rest ↔ x ≠ p ∧ x ∈ list := by
    intro x
    rw [hRest]
    exact hKept.nodup.mem_erase_iff
  have hCount :
      ∀ x, x ≠ p →
        (h.hold (pool, p)).holders x = h.holders x :=
    fun x hx => Function.update_of_ne hx _ _
  have hOne : (h.hold (pool, p)).holders p = 1 := by
    change Function.update h.holders p (h.holders p + 1) p = 1
    rw [Function.update_self, hTaken.fresh]
  have hPacket :
      ∀ x, x ≠ p → pool.packet x = h.pool.packet x := by
    intro x hx
    rw [hTaken.packet x, PacketPool.write_packet_else hx]
  have hHere : pool.packet p = pkt := by
    rw [hTaken.packet p, PacketPool.write_packet_self]
  constructor
  case seg =>
    apply hSeg.congr
    intro x hx
    have hNe := ((hMem x).mp hx).1
    exact congrArg PooledPacket.next_ (hPacket x hNe)
  case nodup => exact hNodup
  case mem =>
    intro x
    rw [hMem x, hKept.mem x]
    by_cases hx : x = p
    · subst hx
      simp [hOne]
    · rw [hCount x hx]
      have hMade := hTaken.made x
      change _ ↔ x < pool.made ∧ _
      rw [hMade]
      simp [hx]
  case idle =>
    intro x hx
    rcases (hMem x).mp hx with
      ⟨hNe, hOld⟩
    rw [show (h.hold (pool, p)).pool.packet x = _
      from hPacket x hNe]
    exact hKept.idle x hOld
  case held =>
    intro x hx
    by_cases hSame : x = p
    · subst hSame
      refine ⟨hTaken.below, ?_⟩
      rw [hOne, show (h.hold (pool, x)).pool.packet x = _
        from hHere]
      exact hTaken.held
    · rw [hCount x hSame] at hx ⊢
      rcases hKept.held x hx with
        ⟨hOld, hHeld⟩
      refine ⟨(hTaken.made x).mpr (Or.inl hOld), ?_⟩
      rw [show (h.hold (pool, p)).pool.packet x = _
        from hPacket x hSame]
      exact hHeld

end Holding

end Ns2

------------------------------------------------------------
-- Handing Out Packets
------------------------------------------------------------

namespace Ns2

namespace Holding

open LinkedList

variable {ω δ ρ : Type}
variable {zeros : ω}
variable {copyData : δ → δ}
variable {packetData : Int → δ}
variable {h : Holding ω δ ρ}
variable {list : List Nat}
variable {pkt : PooledPacket ω δ ρ}
variable {p : Nat}

/- Nothing of what the packet was before is left. -/
structure Blank
    (zeros : ω)
    (pkt : PooledPacket ω δ ρ) : Prop where
  count : pkt.ref_count_ = 0
  data : pkt.data_ = none
  bits : pkt.bits_ = ⟨-2, -2, DOWN, zeros⟩

theorem prepare_blank
    (hCount : pkt.ref_count_ = 0)
    (hData : pkt.data_ = none) :
    Blank zeros (pkt.prepare zeros) :=
  ⟨hCount, hData, rfl⟩

theorem prepare_held
    (hCount : pkt.ref_count_ = 0)
    (hUid : pkt.uid_ = 0) :
    Held (pkt.prepare zeros) 1 := by
  constructor
  case flag => rfl
  case count =>
    change pkt.ref_count_ + 1 = 1
    rw [hCount]
    rfl
  case uid => exact hUid.le

/- A packet of the free list, or a new one. -/
theorem Kept.alloc
    (zeros : ω)
    (hKept : Kept h list) :
    ∃ pool p pkt, h.pool.alloc zeros = some (pool, p) ∧
      Taken h pkt pool p ∧ Blank zeros pkt ∧
      pool.packet p = pkt ∧
      Kept (h.hold (pool, p)) (list.erase p) := by
  cases hList : list with
  | nil =>
      have hFree : h.pool.free_ = none := by
        have hSeg := hKept.seg
        rw [hList] at hSeg
        exact hSeg
      have hFresh : h.holders h.pool.made = 0 := by
        by_contra hSome
        have hBelow :=
          (hKept.held _ (Nat.pos_of_ne_zero hSome)).1
        omega
      have hTaken :
          Taken h
            ((h.pool.packet h.pool.made).new.prepare zeros)
            (h.pool.make zeros).1 h.pool.made := by
        constructor
        case packet => exact fun x => rfl
        case held => exact prepare_held rfl rfl
        case fresh => exact hFresh
        case below => exact Nat.lt_succ_self h.pool.made
        case made =>
          intro x
          change x < h.pool.made + 1 ↔ _
          omega
      refine ⟨(h.pool.make zeros).1, h.pool.made, _, ?_,
        hTaken, prepare_blank rfl rfl, ?_, ?_⟩
      · unfold PacketPool.alloc
        rw [hFree]
        rfl
      · exact PacketPool.write_packet_self
      · exact hKept.take hTaken (by rw [hList]) hFree
  | cons first rest =>
      have hSeg := hKept.seg
      rw [hList] at hSeg
      rcases hSeg with
        ⟨hFree, hRest⟩
      have hMem : first ∈ list := by
        rw [hList]
        exact List.mem_cons_self
      have hIdle := hKept.idle first hMem
      rcases (hKept.mem first).mp hMem with
        ⟨hBelow, hFresh⟩
      have hTaken :
          Taken h
            (PooledPacket.prepare zeros
              { h.pool.packet first with
                uid_ := 0, time_ := 0 })
            { h.pool.write first
                (PooledPacket.prepare zeros
                  { h.pool.packet first with
                    uid_ := 0, time_ := 0 }) with
              free_ := h.pool.next first }
            first := by
        constructor
        case packet => exact fun x => rfl
        case held => exact prepare_held hIdle.count rfl
        case fresh => exact hFresh
        case below => exact hBelow
        case made =>
          intro x
          change x < h.pool.made ↔ _
          refine ⟨Or.inl, ?_⟩
          rintro (hOld | hSame)
          · exact hOld
          · rw [hSame]
            exact hBelow
      refine ⟨_, first, _, ?_, hTaken,
        prepare_blank hIdle.count hIdle.data, ?_, ?_⟩
      · unfold PacketPool.alloc
        rw [hFree]
        exact if_pos ⟨hIdle.flag, hIdle.data⟩
      · exact PacketPool.write_packet_self
      · have hErase : (first :: rest).erase first = rest :=
          List.erase_cons_head _ _
        rw [hErase]
        refine hKept.take hTaken ?_ hRest
        rw [hList, hErase]

/- The first holder writes the packet it was given. -/
theorem Kept.write_new
    {pool : PacketPool ω δ ρ}
    {rest : List Nat}
    (hKept : Kept (h.hold (pool, p)) rest)
    (hFresh : h.holders p = 0)
    (hHeld : Held pkt 1) :
    Kept (h.hold (pool.write p pkt, p)) rest := by
  have hOne : (h.hold (pool, p)).holders p = 1 := by
    change Function.update h.holders p (h.holders p + 1) p = 1
    rw [Function.update_self, hFresh]
  exact hKept.write (by omega) (by rw [hOne]; exact hHeld)

/- What a call does to the free list. -/
def Moves
    (h : Holding ω δ ρ)
    (c : PacketCall ω δ ρ)
    (list list' : List Nat) : Prop :=
  ∀ x, x ∈ list' ∧ x ∉ list ↔
    c = .free x ∧ h.holders x = 1

theorem moves_of_subset
    {c : PacketCall ω δ ρ}
    {list' : List Nat}
    (hCall : ∀ x, c = .free x → h.holders x ≠ 1)
    (hSubset : list' ⊆ list) :
    Moves h c list list' := by
  intro x
  constructor
  · rintro ⟨hMem, hNot⟩
    exact absurd (hSubset hMem) hNot
  · rintro ⟨hFree, hOne⟩
    exact absurd hOne (hCall x hFree)

theorem Kept.call_alloc
    (hKept : Kept h list) :
    ∃ h' list',
      call zeros copyData packetData h .alloc = some h' ∧
      Kept h' list' ∧ Moves h .alloc list list' := by
  rcases hKept.alloc zeros with
    ⟨pool, p, pkt, hAlloc, _, _, _, hHold⟩
  refine ⟨_, _, ?_, hHold,
    moves_of_subset nofun (List.erase_subset)⟩
  rw [call, hAlloc]
  rfl

theorem Kept.call_allocN
    {n : Int}
    (hKept : Kept h list) :
    ∃ h' list',
      call zeros copyData packetData h (.allocN n) =
        some h' ∧
      Kept h' list' ∧ Moves h (.allocN n) list list' := by
  rcases hKept.alloc zeros with
    ⟨pool, p, pkt, hAlloc, hTaken, hBlank, hHere, hHold⟩
  have hMoves :
      Moves h (.allocN n) list (list.erase p) :=
    moves_of_subset nofun (List.erase_subset)
  by_cases hPos : n > 0
  · have hData : (pool.packet p).data_ = none := by
      rw [hHere]
      exact hBlank.data
    refine ⟨h.hold
        (pool.write p
          { pool.packet p with data_ := packetData n }, p),
      _, ?_, ?_, hMoves⟩
    · simp only [call, PacketPool.allocN, hAlloc, Option.bind_some,
        if_pos hPos, PacketPool.allocdata, if_pos hData,
        Option.map_some]
    · apply hHold.write_new hTaken.fresh
      rw [hHere]
      exact ⟨hTaken.held.flag, hTaken.held.count,
        hTaken.held.uid⟩
  · refine ⟨h.hold (pool, p), _, ?_, hHold, hMoves⟩
    simp only [call, PacketPool.allocN, hAlloc, Option.bind_some,
      if_neg hPos, Option.map_some]

theorem Kept.call_copy
    {src : Nat}
    (hKept : Kept h list) :
    ∃ h' list',
      call zeros copyData packetData h (.copy src) =
        some h' ∧
      Kept h' list' ∧ Moves h (.copy src) list list' := by
  rcases hKept.alloc zeros with
    ⟨pool, p, pkt, hAlloc, hTaken, _, hHere, hHold⟩
  refine ⟨h.hold
      (pool.write p
        (PooledPacket.copied copyData (pool.packet src)
          (pool.packet p)), p),
    list.erase p, ?_, ?_,
    moves_of_subset nofun (List.erase_subset)⟩
  · rw [call, PacketPool.copy, hAlloc]
    rfl
  · apply hHold.write_new hTaken.fresh
    rw [hHere]
    exact ⟨hTaken.held.flag, hTaken.held.count,
      hTaken.held.uid⟩

theorem Kept.call_refcopy
    (hKept : Kept h list)
    (hHolder : 0 < h.holders p) :
    ∃ h' list',
      call zeros copyData packetData h (.refcopy p) =
        some h' ∧
      Kept h' list' ∧ Moves h (.refcopy p) list list' := by
  refine ⟨_, list, rfl, ?_,
    moves_of_subset nofun (List.Subset.refl list)⟩
  rcases hKept.held p hHolder with
    ⟨hBelow, hHeld⟩
  have hNot := hKept.not_mem hHolder
  have hElse :
      ∀ x, x ≠ p →
        (h.hold (h.pool.refcopy p, p)).holders x =
          h.holders x :=
    fun x hx => Function.update_of_ne hx _ _
  have hHere :
      (h.hold (h.pool.refcopy p, p)).holders p =
        h.holders p + 1 :=
    Function.update_self _ _ _
  constructor
  case seg =>
    change Seg (h.pool.write p _).next _ _ _
    rw [PacketPool.write_next]
    exact hKept.seg.update hNot
  case nodup => exact hKept.nodup
  case mem =>
    intro x
    by_cases hx : x = p
    · subst hx
      rw [hHere]
      constructor
      · exact fun hMem => absurd hMem hNot
      · exact fun hZero => absurd hZero.2 (Nat.succ_ne_zero _)
    · rw [hElse x hx]
      exact hKept.mem x
  case idle =>
    intro x hx
    have hNe : x ≠ p := by
      rintro rfl
      exact hNot hx
    change Idle ((h.pool.write p _).packet x)
    rw [PacketPool.write_packet_else hNe]
    exact hKept.idle x hx
  case held =>
    intro x hx
    by_cases hSame : x = p
    · subst hSame
      refine ⟨hBelow, ?_⟩
      rw [hHere]
      change Held ((h.pool.write x _).packet x) _
      rw [PacketPool.write_packet_self]
      refine ⟨hHeld.flag, ?_, hHeld.uid⟩
      have hCount := hHeld.count
      push_cast
      omega
    · rw [hElse x hSame] at hx ⊢
      refine ⟨(hKept.held x hx).1, ?_⟩
      change Held ((h.pool.write p _).packet x) _
      rw [PacketPool.write_packet_else hSame]
      exact (hKept.held x hx).2

/- The last holder puts the packet before the free ones. -/
theorem Kept.call_free_last
    (hKept : Kept h list)
    (hHolder : h.holders p = 1) :
    ∃ h',
      call zeros copyData packetData h (.free p) = some h' ∧
      Kept h' (p :: list) ∧
      Moves h (.free p) list (p :: list) := by
  rcases hKept.held p (by omega) with
    ⟨hBelow, hHeld⟩
  have hNot := hKept.not_mem (p := p) (by omega)
  have hCount : (h.pool.packet p).ref_count_ = 0 := by
    have hCount := hHeld.count
    omega
  have hElse :
      ∀ x, x ≠ p →
        Function.update h.holders p (h.holders p - 1) x =
          h.holders x :=
    fun x hx => Function.update_of_ne hx _ _
  have hHere :
      Function.update h.holders p (h.holders p - 1) p = 0 := by
    rw [Function.update_self, hHolder]
  refine ⟨⟨{ h.pool.write p
        ((h.pool.packet p).freed zeros h.pool.free_) with
      free_ := some p },
    Function.update h.holders p (h.holders p - 1)⟩,
    ?_, ?_, ?_⟩
  · rw [call, PacketPool.free]
    simp only [hHeld.flag, hCount, if_pos hHeld.uid, if_true]
    rfl
  · constructor
    case seg =>
      change Seg (h.pool.write p _).next _ _ _
      rw [PacketPool.write_next]
      exact hKept.seg.cons hNot
    case nodup => exact List.nodup_cons.mpr ⟨hNot, hKept.nodup⟩
    case mem =>
      intro x
      by_cases hx : x = p
      · subst hx
        exact iff_of_true List.mem_cons_self ⟨hBelow, hHere⟩
      · change x ∈ p :: list ↔ x < h.pool.made ∧
          Function.update h.holders p _ x = 0
        rw [hElse x hx, ← hKept.mem x]
        simp [hx]
    case idle =>
      intro x hx
      change Idle ((h.pool.write p _).packet x)
      by_cases hSame : x = p
      · subst hSame
        rw [PacketPool.write_packet_self]
        exact ⟨rfl, rfl, hCount⟩
      · rw [PacketPool.write_packet_else hSame]
        exact hKept.idle x ((List.mem_cons.mp hx).resolve_left
          hSame)
    case held =>
      intro x hx
      change 0 < Function.update h.holders p _ x at hx
      change _ ∧ Held ((h.pool.write p _).packet x)
        (Function.update h.holders p _ x)
      have hNe : x ≠ p := by
        rintro rfl
        rw [hHere] at hx
        exact absurd hx (Nat.lt_irrefl 0)
      rw [hElse x hNe] at hx ⊢
      rw [PacketPool.write_packet_else hNe]
      exact hKept.held x hx
  · intro x
    by_cases hx : x = p
    · subst hx
      exact iff_of_true ⟨List.mem_cons_self, hNot⟩
        ⟨rfl, hHolder⟩
    · constructor
      · rintro ⟨hMem, hOut⟩
        exact absurd ((List.mem_cons.mp hMem).resolve_left hx)
          hOut
      · rintro ⟨hFree, _⟩
        cases hFree
        exact absurd rfl hx

/- The call of another holder only counts. -/
theorem Kept.call_free_other
    (hKept : Kept h list)
    (hHolder : 1 < h.holders p) :
    ∃ h',
      call zeros copyData packetData h (.free p) = some h' ∧
      Kept h' list ∧ Moves h (.free p) list list := by
  rcases hKept.held p (by omega) with
    ⟨hBelow, hHeld⟩
  have hNot := hKept.not_mem (p := p) (by omega)
  have hCount := hHeld.count
  have hSome : (h.pool.packet p).ref_count_ ≠ 0 := by
    omega
  have hElse :
      ∀ x, x ≠ p →
        Function.update h.holders p (h.holders p - 1) x =
          h.holders x :=
    fun x hx => Function.update_of_ne hx _ _
  have hHere :
      Function.update h.holders p (h.holders p - 1) p =
        h.holders p - 1 :=
    Function.update_self _ _ _
  refine ⟨⟨h.pool.write p
      { h.pool.packet p with
        ref_count_ := (h.pool.packet p).ref_count_ - 1 },
    Function.update h.holders p (h.holders p - 1)⟩, ?_, ?_, ?_⟩
  · rw [call, PacketPool.free]
    simp only [hHeld.flag, if_true, if_neg hSome]
    rfl
  · constructor
    case seg =>
      change Seg (h.pool.write p _).next _ _ _
      rw [PacketPool.write_next]
      exact hKept.seg.update hNot
    case nodup => exact hKept.nodup
    case mem =>
      intro x
      change _ ↔ x < h.pool.made ∧
        Function.update h.holders p _ x = 0
      by_cases hx : x = p
      · subst hx
        rw [hHere]
        constructor
        · exact fun hMem => absurd hMem hNot
        · rintro ⟨_, hZero⟩
          omega
      · rw [hElse x hx]
        exact hKept.mem x
    case idle =>
      intro x hx
      have hNe : x ≠ p := by
        rintro rfl
        exact hNot hx
      change Idle ((h.pool.write p _).packet x)
      rw [PacketPool.write_packet_else hNe]
      exact hKept.idle x hx
    case held =>
      intro x hx
      change 0 < Function.update h.holders p _ x at hx
      change _ ∧ Held ((h.pool.write p _).packet x)
        (Function.update h.holders p _ x)
      by_cases hSame : x = p
      · subst hSame
        rw [hHere, PacketPool.write_packet_self]
        refine ⟨hBelow, hHeld.flag, ?_, hHeld.uid⟩
        change _ - 1 + 1 = ((h.holders x - 1 : Nat) : Int)
        omega
      · rw [hElse x hSame] at hx ⊢
        rw [PacketPool.write_packet_else hSame]
        exact hKept.held x hx
  · apply moves_of_subset ?_ (List.Subset.refl list)
    intro x hx
    cases hx
    omega

/- Each call that is allowed succeeds and keeps the pool. -/
theorem Kept.call
    {c : PacketCall ω δ ρ}
    (hKept : Kept h list)
    (hAllowed : h.Allowed c) :
    ∃ h' list',
      Holding.call zeros copyData packetData h c = some h' ∧
      Kept h' list' ∧ Moves h c list list' := by
  cases c with
  | alloc => exact hKept.call_alloc
  | allocN n => exact hKept.call_allocN
  | copy src => exact hKept.call_copy
  | refcopy p => exact hKept.call_refcopy hAllowed
  | free p =>
      have hHolder : 0 < h.holders p := hAllowed
      by_cases hLast : h.holders p = 1
      · rcases hKept.call_free_last hLast with
          ⟨h', hCall, hNext⟩
        exact ⟨h', _, hCall, hNext⟩
      · have hMore : 1 < h.holders p := by omega
        rcases hKept.call_free_other hMore with
          ⟨h', hCall, hNext⟩
        exact ⟨h', _, hCall, hNext⟩
  | use p bits_ data_ next_ uid_ txinfo_ =>
      rcases hAllowed with
        ⟨hHolder, hUid⟩
      have hHeld := (hKept.held p hHolder).2
      exact ⟨_, list, rfl,
        hKept.write hHolder ⟨hHeld.flag, hHeld.count, hUid⟩,
        moves_of_subset nofun (List.Subset.refl list)⟩

end Holding

end Ns2

------------------------------------------------------------
-- Safety of the PacketPool
------------------------------------------------------------

namespace Ns2

namespace Holding

open LinkedList

variable {ω δ ρ : Type}

/- The free list leads through the packet. -/
def OnFree
    (h : Holding ω δ ρ)
    (p : Nat) : Prop :=
  ∃ list, Seg h.pool.next h.pool.free_ list none ∧ p ∈ list

/- What holds of the pool between two calls. -/
structure Safe
    (zeros : ω)
    (copyData : δ → δ)
    (packetData : Int → δ)
    (h : Holding ω δ ρ) : Prop where
  free : ∃ list,
    Seg h.pool.next h.pool.free_ list none ∧ list.Nodup ∧
      ∀ p ∈ list, h.holders p = 0
  calls : ∀ c, h.Allowed c →
    ∃ h', call zeros copyData packetData h c = some h'
  alloc : ∀ pool p, h.pool.alloc zeros = some (pool, p) →
    h.holders p = 0 ∧
      (pool.packet p).ref_count_ = 0 ∧
      (pool.packet p).data_ = none ∧
      (pool.packet p).bits_ = ⟨-2, -2, DOWN, zeros⟩
  enters : ∀ c h', h.Allowed c →
    call zeros copyData packetData h c = some h' →
    ∀ p, (OnFree h' p ∧ ¬ OnFree h p) ↔
      c = .free p ∧ h.holders p = 1

variable {h : Holding ω δ ρ}
variable {list : List Nat}

theorem Kept.onFree_iff
    (hKept : Kept h list)
    {p : Nat} : OnFree h p ↔ p ∈ list := by
  constructor
  · rintro ⟨other, hSeg, hMem⟩
    rwa [hKept.seg.unique hSeg]
  · exact fun hMem => ⟨list, hKept.seg, hMem⟩

theorem Kept.safe
    (zeros : ω)
    (copyData : δ → δ)
    (packetData : Int → δ)
    (hKept : Kept h list) :
    Safe zeros copyData packetData h := by
  constructor
  case free =>
    exact ⟨list, hKept.seg, hKept.nodup,
      fun p hMem => ((hKept.mem p).mp hMem).2⟩
  case calls =>
    intro c hAllowed
    rcases hKept.call hAllowed with
      ⟨h', _, hCall, _⟩
    exact ⟨h', hCall⟩
  case alloc =>
    intro pool p hAlloc
    rcases hKept.alloc zeros with
      ⟨pool', p', pkt, hAlloc', hTaken, hBlank, hHere, _⟩
    rw [hAlloc] at hAlloc'
    cases hAlloc'
    rw [hHere]
    exact ⟨hTaken.fresh, hBlank.count, hBlank.data,
      hBlank.bits⟩
  case enters =>
    intro c h' hAllowed hCall p
    rcases @Kept.call _ _ _ zeros copyData packetData _ _ _
        hKept hAllowed with
      ⟨h'', list', hCall', hKept', hMoves⟩
    rw [hCall] at hCall'
    cases hCall'
    rw [hKept.onFree_iff, hKept'.onFree_iff]
    exact hMoves p

/- Holders of packets and free packets are kept apart. -/
theorem packets_safe
    (zeros : ω)
    (copyData : δ → δ)
    (packetData : Int → δ)
    (packet : Nat → PooledPacket ω δ ρ)
    (calls : List (PacketCall ω δ ρ))
    (hCalls :
      PartialRun.Throughout (call zeros copyData packetData)
        Allowed (start packet) calls) :
    ∃ h,
      PartialRun.run (call zeros copyData packetData)
          (start packet) calls =
        some h ∧
      Safe zeros copyData packetData h := by
  have hStart : Kept (start packet) [] := by
    constructor
    case seg => rfl
    case nodup => exact List.nodup_nil
    case mem =>
      intro p
      exact iff_of_false nofun (fun hMade => nomatch hMade.1)
    case idle => exact nofun
    case held =>
      intro p hHolder
      exact absurd hHolder (Nat.lt_irrefl 0)
  have hStep :
      ∀ (_ : List (PacketCall ω δ ρ)) (h : Holding ω δ ρ)
        (c : PacketCall ω δ ρ),
        (∃ list, Kept h list) → Allowed h c →
        ∃ h', call zeros copyData packetData h c = some h' ∧
          ∃ list, Kept h' list := by
    rintro _ h c ⟨list, hKept⟩ hAllowed
    rcases hKept.call hAllowed with
      ⟨h', list', hCall, hNext, _⟩
    exact ⟨h', hCall, list', hNext⟩
  rcases @PartialRun.progress _ _
      (call zeros copyData packetData)
      (fun _ h => ∃ list, Kept h list)
      (fun _ h c => Allowed h c) hStep _ calls
      ⟨[], hStart⟩ hCalls with
    ⟨h, hRun, list, hKept⟩
  exact ⟨h, hRun, hKept.safe zeros copyData packetData⟩

/- Packets with numbers for their data; memory is filled. -/
def junk (_ : Nat) : PooledPacket Nat Nat Nat :=
  ⟨⟨7, 7, 7, 7⟩, some 7, true, 7, some 7, 7, 7, 7⟩

def sharedCalls : List (PacketCall Nat Nat Nat) :=
  [.alloc, .refcopy 0, .use 0 ⟨1, 2, 1, 9⟩ (some 5) none 0 3,
    .copy 0, .free 0, .free 0, .alloc]

theorem packets_safe_shared :
    ∃ h,
      PartialRun.run (call 0 id Int.toNat) (start junk)
          sharedCalls =
        some h ∧
      Safe 0 id Int.toNat h := by
  apply packets_safe
  refine PartialRun.throughout_cons trivial ?_
  intro h hCall
  cases Option.some.inj hCall
  refine PartialRun.throughout_cons Nat.one_pos ?_
  intro h hCall
  cases Option.some.inj hCall
  refine PartialRun.throughout_cons
    ⟨Nat.two_pos, le_rfl⟩ ?_
  intro h hCall
  cases Option.some.inj hCall
  refine PartialRun.throughout_cons Nat.two_pos ?_
  intro h hCall
  cases Option.some.inj hCall
  refine PartialRun.throughout_cons Nat.two_pos ?_
  intro h hCall
  cases Option.some.inj hCall
  refine PartialRun.throughout_cons Nat.one_pos ?_
  intro h hCall
  cases Option.some.inj hCall
  refine PartialRun.throughout_cons trivial ?_
  exact fun _ _ => PartialRun.throughout_nil _

end Holding

end Ns2
