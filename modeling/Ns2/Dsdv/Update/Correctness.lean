import Ns2.Dsdv.Update.Operations

/-
  What is read from an update.

  The routes that an update takes are read from its packet, in
  order, while there are at most 255 of them: the packet has
  one byte for their number.  A full update also counts the
  entries before it renews the own entry, and so needs that
  entry to have been counted.

  Main declarations:
    * `readUpdate_writeAdverts`
    * `Agent.RoundTrips`
    * `Agent.update_round_trip`
-/

------------------------------------------------------------
-- Words and Routes
------------------------------------------------------------

namespace Ns2

namespace Dsdv

/- The value of a word of four bytes. -/
theorem readWord_toNat (b₀ b₁ b₂ b₃ : Byte) :
    (readWord [b₀, b₁, b₂, b₃]).toNat =
      ((b₀.toNat * 256 + b₁.toNat) * 256 + b₂.toNat) * 256 +
        b₃.toNat := by
  have hStep : ∀ (x : BitVec 32) (b : Byte),
      x.toNat < 2 ^ 24 →
        (x <<< 8 ||| b.setWidth 32).toNat =
          x.toNat * 256 + b.toNat := by
    intro x b hx
    have hb := b.isLt
    rw [BitVec.toNat_or, BitVec.toNat_shiftLeft,
      BitVec.toNat_setWidth, Nat.mod_eq_of_lt (by omega : _ < 2 ^ 32),
      Nat.shiftLeft_eq, Nat.mod_eq_of_lt (by omega),
      ← Nat.shiftLeft_eq, ← Nat.shiftLeft_add_eq_or_of_lt hb,
      Nat.shiftLeft_eq]
  have h₀ := b₀.isLt
  have h₁ := b₁.isLt
  have h₂ := b₂.isLt
  have h₃ := b₃.isLt
  have s₀ := hStep 0 b₀ (by decide)
  have s₁ := hStep _ b₁ (by rw [s₀]; simp; omega)
  have s₂ := hStep _ b₂ (by rw [s₁, s₀]; simp; omega)
  have s₃ := hStep _ b₃ (by rw [s₂, s₁, s₀]; simp; omega)
  unfold readWord
  simp only [List.foldl_cons, List.foldl_nil]
  rw [s₃, s₂, s₁, s₀]
  simp

/- A word is read back, as far as it has 32 bits. -/
theorem readWord_wordBytes (x : Int) :
    ((readWord (wordBytes x)).toNat : Int) = x % 2 ^ 32 := by
  unfold wordBytes
  rw [readWord_toNat]
  simp only [BitVec.toNat_ofInt, Int.shiftRight_eq_div_pow]
  omega

/- What a packet has room for. -/
structure Advert.Fits (r : Advert) : Prop where
  dst_ge : -2 ^ 31 ≤ r.dst
  dst_lt : r.dst < 2 ^ 31
  metric_le : r.metric ≤ BIG
  seqnum_lt : r.seqnum < 2 ^ 32

@[simp] theorem bytes_length (r : Advert) :
    r.bytes.length = 9 := by
  rfl

/- A route that fits is read back. -/
theorem ofBytes_bytes
    {r : Advert}
    (hr : r.Fits) :
    Advert.ofBytes r.bytes = r := by
  have hDst := readWord_wordBytes r.dst
  have hSeq := readWord_wordBytes r.seqnum
  have hMetric := hr.metric_le
  have hGe := hr.dst_ge
  have hLt := hr.dst_lt
  have hSeqLt := hr.seqnum_lt
  have hTake : r.bytes.take 4 = wordBytes r.dst := by rfl
  have hDrop : r.bytes.drop 5 = wordBytes r.seqnum := by rfl
  have hAt : r.bytes.getD 4 0 = .ofNat 8 r.metric := by rfl
  unfold Advert.ofBytes
  rw [hTake, hDrop, hAt, BitVec.toInt_eq_toNat_cond]
  unfold BIG at hMetric
  cases r with
  | mk dst metric seqnum =>
      simp only [Advert.mk.injEq]
      refine ⟨?_, ?_, ?_⟩
      · split <;> simp only at * <;> omega
      · rw [BitVec.toNat_ofNat]
        exact Nat.mod_eq_of_lt (by simp only at hMetric; omega)
      · simp only at hSeq hSeqLt
        omega

end Dsdv

end Ns2

------------------------------------------------------------
-- Writing and Reading
------------------------------------------------------------

namespace Ns2

namespace Dsdv

/- Bytes that take the place of as many others. -/
theorem poke_append
    (pre old post bytes : List Byte)
    (hLength : old.length = bytes.length) :
    poke (pre ++ old ++ post) pre.length bytes =
      some (pre ++ bytes ++ post) := by
  have hDrop :
      (pre ++ old ++ post).drop (pre.length + bytes.length) =
        post := by
    rw [← hLength, ← List.length_append, List.drop_left]
  unfold poke
  rw [if_pos (by simp only [List.length_append]; omega), hDrop,
    List.append_assoc pre old post, List.take_left]

theorem poke_outside
    {data bytes : List Byte}
    {walk : Nat}
    (hOut : data.length < walk + bytes.length) :
    poke data walk bytes = none :=
  if_neg (by omega)

theorem peek_append (pre mid post : List Byte) :
    peek (pre ++ mid ++ post) pre.length mid.length =
      some mid := by
  unfold peek
  rw [if_pos (by simp only [List.length_append]; omega),
    List.append_assoc, List.drop_left, List.take_left]

/- All the bytes of the routes. -/
def allBytes (routes : List Advert) : List Byte :=
  routes.flatMap Advert.bytes

@[simp] theorem allBytes_length (routes : List Advert) :
    (allBytes routes).length = routes.length * 9 := by
  induction routes with
  | nil => rfl
  | cons r rs ih =>
      have hCons : allBytes (r :: rs) = r.bytes ++ allBytes rs :=
        rfl
      rw [hCons, List.length_append, ih, bytes_length,
        List.length_cons]
      omega

/- Where the routes fill the data they are all written. -/
theorem writeAdverts_spec
    {routes : List Advert}
    (pre : List Byte)
    {old : List Byte}
    (hLength : old.length = routes.length * 9) :
    writeAdverts (pre ++ old) pre.length routes =
      some (pre ++ allBytes routes) := by
  induction routes generalizing pre old with
  | nil =>
      have hNil : old = [] := List.length_eq_zero_iff.mp hLength
      rw [hNil]
      rfl
  | cons r rs ih =>
      rw [List.length_cons] at hLength
      have hSplit : old = old.take 9 ++ old.drop 9 :=
        (List.take_append_drop 9 old).symm
      have hPoke := poke_append pre (old.take 9) (old.drop 9)
        r.bytes
        (by rw [List.length_take, bytes_length]; omega)
      rw [List.append_assoc, ← hSplit] at hPoke
      have hDrop : (old.drop 9).length = rs.length * 9 := by
        rw [List.length_drop]
        omega
      have hRest := ih (pre ++ r.bytes) hDrop
      rw [List.length_append, bytes_length] at hRest
      simp only [writeAdverts, hPoke, Option.bind_eq_bind,
        Option.bind_some, hRest]
      rw [List.append_assoc]
      rfl

/- Where there are more of them one is written outside. -/
theorem writeAdverts_outside
    {routes : List Advert}
    {data : List Byte}
    {walk : Nat}
    (hOut : data.length < walk + routes.length * 9)
    (hIn : walk ≤ data.length) :
    writeAdverts data walk routes = none := by
  induction routes generalizing data walk with
  | nil => simp at hOut; omega
  | cons r rs ih =>
      rw [List.length_cons] at hOut
      simp only [writeAdverts, Option.bind_eq_bind]
      rcases Nat.lt_or_ge data.length (walk + 9)
        with hNow | hLater
      · rw [poke_outside (by rw [bytes_length]; exact hNow)]
        rfl
      · have hPoke :
            poke data walk r.bytes =
              some (data.take walk ++ r.bytes ++
                data.drop (walk + 9)) :=
          if_pos (by rw [bytes_length]; exact hLater)
        rw [hPoke, Option.bind_some]
        apply ih
        · simp
          omega
        · simp
          omega

/- The loop reads as many routes as it was told. -/
theorem readAdverts_spec
    {routes : List Advert}
    (hFits : ∀ r ∈ routes, r.Fits)
    {n : Nat}
    (hn : n ≤ routes.length)
    (pre : List Byte) :
    readAdverts (pre ++ allBytes routes) n pre.length =
      some (routes.take n) := by
  induction n generalizing routes pre with
  | zero => rfl
  | succ n ih =>
      cases routes with
      | nil => simp at hn
      | cons r rs =>
          have hCons :
              allBytes (r :: rs) = r.bytes ++ allBytes rs :=
            rfl
          have hPeek :
              peek (pre ++ r.bytes ++ allBytes rs) pre.length 9 =
                some r.bytes :=
            peek_append pre r.bytes (allBytes rs)
          have hRest := ih
            (fun r' hr' => hFits r' (List.mem_cons_of_mem r hr'))
            (by simpa using hn) (pre ++ r.bytes)
          rw [List.length_append, bytes_length] at hRest
          rw [hCons, ← List.append_assoc]
          simp only [readAdverts, hPeek, hRest,
            Option.bind_eq_bind, Option.bind_some]
          rw [ofBytes_bytes (hFits r (by simp))]
          rfl

/- Of many routes those are read that a byte can count. -/
theorem readUpdate_writeAdverts
    {routes : List Advert}
    (hFits : ∀ r ∈ routes, r.Fits) :
    readUpdate ([.ofNat 8 routes.length] ++ allBytes routes) =
      some (routes.take (routes.length % 256)) := by
  have hCount :
      peek ([.ofNat 8 routes.length] ++ allBytes routes) 0 1 =
        some [BitVec.ofNat 8 routes.length] :=
    peek_append [] [.ofNat 8 routes.length] (allBytes routes)
  have hByte :
      ([BitVec.ofNat 8 routes.length].getD 0 0).toNat =
        routes.length % 256 :=
    BitVec.toNat_ofNat routes.length 8
  unfold readUpdate
  rw [hCount]
  simp only [Option.bind_eq_bind, Option.bind_some]
  rw [hByte]
  exact readAdverts_spec hFits (Nat.mod_le _ _)
    [.ofNat 8 routes.length]

end Dsdv

end Ns2

------------------------------------------------------------
-- Counting
------------------------------------------------------------

namespace Ns2

namespace Dsdv

namespace Agent

variable (a : Agent)
variable (limit : Nat)
variable (periodic : Bool)
variable (now : Rat)

/- The number of routes that may be advertised. -/
def advertiseable : Nat :=
  a.table_.entries.countP fun e =>
    decide (e.2.advertise_ok_at ≤ now)

/- The own entry is there, and may be advertised. -/
def OwnCounted : Prop :=
  ∃ e,
    a.table_.getEntry a.myaddr_ = some e ∧
      e.advertise_ok_at ≤ now

instance : Decidable (a.OwnCounted now) :=
  decidable_of_iff
    ((a.table_.getEntry a.myaddr_).any fun e =>
      decide (e.advertise_ok_at ≤ now)) (by
    simp [OwnCounted, Option.any_eq_true])

/- What goes out is what the first pass counted. -/
theorem count_full :
    a.rtblSz - a.unadvertiseable now = a.advertiseable now := by
  have hSplit := List.length_eq_countP_add_countP
    (fun e : Int × RtableEnt =>
      decide (e.2.advertise_ok_at ≤ now))
    (l := a.table_.entries)
  have hNot :
      a.unadvertiseable now =
        a.table_.entries.countP fun e =>
          decide ¬(decide (e.2.advertise_ok_at ≤ now) = true) := by
    unfold unadvertiseable
    congr 1
    funext e
    simp
  rw [hNot]
  unfold rtblSz advertiseable
  omega

/- What the second pass of a full update takes. -/
theorem selected_full :
    (a.table_.selected true now).length =
      a.advertiseable now := by
  unfold RoutingTable.selected advertiseable
  rw [List.length_map, ← List.countP_eq_length_filter]
  congr 1
  funext e
  unfold RtableEnt.included
  by_cases hLess : now < e.2.advertise_ok_at
  · simp [hLess]
  · simp [hLess, not_lt.mp hLess]

theorem selected_triggered :
    (a.table_.selected false now).length =
      a.changeCount now := by
  unfold RoutingTable.selected changeCount
  rw [List.length_map, ← List.countP_eq_length_filter]
  rfl

/-
  Renewing the own entry adds what the first pass did not
  count of it, if the clock is past zero.
-/
theorem advertiseable_renewed :
    (a.renewed limit now).advertiseable now +
        (if a.OwnCounted now then 1 else 0) =
      a.advertiseable now + if 0 ≤ now then 1 else 0 := by
  have hOwn :
      (ownEntry a.myaddr_ ((a.seqno_ + 2) % limit) now).advertise_ok_at =
        0 := by
    rfl
  unfold advertiseable renewed RoutingTable.addEntry
  simp only
  cases hFind : a.table_.find a.myaddr_ with
  | none =>
      have hNot : ¬a.OwnCounted now := by
        rintro ⟨e, hGet, _⟩
        rw [RoutingTable.getEntry, hFind] at hGet
        cases hGet
      rw [a.table_.countP_set_of_none hFind, if_neg hNot]
      simp only [hOwn, decide_eq_true_eq, Nat.add_zero]
  | some e =>
      have hIff :
          a.OwnCounted now ↔ e.advertise_ok_at ≤ now := by
        unfold OwnCounted RoutingTable.getEntry
        rw [hFind]
        simp
      have hSet := a.table_.countP_set_of_some
        (a := ownEntry a.myaddr_ ((a.seqno_ + 2) % limit) now)
        (p := fun e => decide (e.2.advertise_ok_at ≤ now))
        hFind
      simp only [hOwn, decide_eq_true_eq] at hSet
      rw [← hSet]
      simp only [hIff]

end Agent

end Dsdv

end Ns2

------------------------------------------------------------
-- Round Trips
------------------------------------------------------------

namespace Ns2

namespace Dsdv

namespace Agent

/- Addresses and sequence numbers have 32 bits. -/
structure Fits (a : Agent) : Prop where
  myaddr_ge : -2 ^ 31 ≤ a.myaddr_
  myaddr_lt : a.myaddr_ < 2 ^ 31
  entries :
    ∀ e ∈ a.table_.entries, (e.2.toAdvert e.1).Fits

/- The routes that an update takes. -/
def taken
    (limit : Nat)
    (a : Agent)
    (periodic : Bool)
    (now : Rat) : List Advert :=
  (a.prepare limit periodic now).2.table_.selected
    (a.full periodic now) now

/- What is read from the packet, which may not be there. -/
def received (packet : Option (List Byte)) :
    Option (List Advert) :=
  packet.elim (some []) readUpdate

/-
  The update is made, whatever its data held before, and what
  is read from it are the routes that it took.
-/
def RoundTrips
    (limit : Nat)
    (a : Agent)
    (periodic : Bool)
    (now : Rat) : Prop :=
  ∀ fresh, ∃ m,
    a.makeUpdate fresh limit periodic now = some m ∧
      received m.packet = some (a.taken limit periodic now)

variable {a : Agent}
variable {limit : Nat}
variable {periodic : Bool}
variable {now : Rat}

theorem fits_of_mem_selected
    {t : RoutingTable}
    {full : Bool}
    (hEntries : ∀ e ∈ t.entries, (e.2.toAdvert e.1).Fits) :
    ∀ r ∈ t.selected full now, r.Fits := by
  intro r hr
  rcases List.mem_map.mp hr with ⟨e, he, rfl⟩
  exact hEntries e (List.mem_filter.mp he).1

/- The own entry fits as well. -/
theorem fits_taken
    (hFits : a.Fits)
    (hPos : 0 < limit)
    (hLimit : limit ≤ 2 ^ 32) :
    ∀ r ∈ a.taken limit periodic now, r.Fits := by
  apply fits_of_mem_selected
  unfold prepare
  split
  · intro e he
    have hMod : (a.seqno_ + 2) % limit < limit :=
      Nat.mod_lt _ hPos
    have hFind := (SortedMap.mem_entries_iff _).mp he
    change (a.table_.addEntry a.myaddr_ _).getEntry e.1 =
      some e.2 at hFind
    rw [RoutingTable.getEntry_addEntry] at hFind
    by_cases hOwn : e.1 = a.myaddr_
    · rw [if_pos hOwn] at hFind
      rw [← Option.some.inj hFind, hOwn]
      constructor
      case dst_ge => exact hFits.myaddr_ge
      case dst_lt => exact hFits.myaddr_lt
      case metric_le => exact Nat.zero_le _
      case seqnum_lt => exact lt_of_lt_of_le hMod hLimit
    · rw [if_neg hOwn] at hFind
      exact hFits.entries e
        ((SortedMap.mem_entries_iff _).mpr hFind)
  · exact hFits.entries

/- The data of an update, filled with the routes it takes. -/
theorem write_spec
    {n : Nat}
    {routes : List Advert}
    (fresh : Nat → Byte)
    (hLength : routes.length = n) :
    ∃ data,
      poke ((List.range (n * 9 + 1)).map fresh) 0
          [.ofNat 8 n] = some data ∧
        writeAdverts data 1 routes =
          some ([.ofNat 8 n] ++ allBytes routes) := by
  have hCons :
      (List.range (n * 9 + 1)).map fresh =
        [fresh 0] ++
          (List.range (n * 9)).map (fresh ∘ Nat.succ) := by
    rw [List.range_succ_eq_map]
    simp
  refine ⟨[.ofNat 8 n] ++
    (List.range (n * 9)).map (fresh ∘ Nat.succ), ?_, ?_⟩
  · rw [hCons]
    exact poke_append [] _ _ _ rfl
  · exact writeAdverts_spec [.ofNat 8 n] (by simp [hLength])

/- A packet is read as what it was made from. -/
theorem makeUpdate_eq
    (hTaken : ∀ r ∈ a.taken limit periodic now, r.Fits)
    (fresh : Nat → Byte) :
    (a.makeUpdate fresh limit periodic now).map
        (fun m => (m.agent, m.packet.map readUpdate)) =
      (a.update limit periodic now).map
        fun r => (r.1, r.2.map some) := by
  unfold taken at hTaken
  unfold makeUpdate update
  generalize a.prepare limit periodic now = prepared
    at hTaken ⊢
  generalize a.full periodic now = full at hTaken ⊢
  rcases prepared with ⟨n, b⟩
  simp only at hTaken ⊢
  by_cases hZero : n = 0
  · rw [if_pos hZero, if_pos hZero]
    rfl
  · rw [if_neg hZero, if_neg hZero]
    by_cases hLength : (b.table_.selected full now).length = n
    · rcases write_spec fresh hLength
        with ⟨data, hPoke, hWrite⟩
      have hRead := readUpdate_writeAdverts hTaken
      rw [hLength] at hRead
      simp only [hPoke, hWrite, hLength, if_true,
        Option.bind_eq_bind, Option.bind_some, Option.map_some,
        hRead]
    · simp only [hLength, if_false]
      cases poke ((List.range (n * 9 + 1)).map fresh) 0
        [.ofNat 8 n] with
      | none => rfl
      | some data =>
          simp only [Option.bind_eq_bind, Option.bind_some]
          cases writeAdverts data 1
            (b.table_.selected full now) with
          | none => rfl
          | some data => rfl

/- So it is enough to look at the routes. -/
theorem roundTrips_iff_update
    (hTaken : ∀ r ∈ a.taken limit periodic now, r.Fits) :
    a.RoundTrips limit periodic now ↔
      ∃ r, a.update limit periodic now = some r ∧
        r.2.getD [] = a.taken limit periodic now := by
  have hEq := makeUpdate_eq hTaken
  constructor
  · intro hAll
    rcases hAll fun _ => 0 with ⟨m, hMade, hGot⟩
    have hMap := hEq fun _ => 0
    rw [hMade] at hMap
    rcases Option.map_eq_some_iff.mp hMap.symm
      with ⟨r, hUpdate, hSame⟩
    refine ⟨r, hUpdate, ?_⟩
    have hPacket := congrArg Prod.snd hSame
    cases hRoutes : r.2 with
    | none =>
        rw [hRoutes] at hPacket
        have hNone := Option.map_eq_none_iff.mp hPacket.symm
        rw [received, hNone] at hGot
        exact Option.some.inj hGot
    | some routes =>
        rw [hRoutes] at hPacket
        rcases Option.map_eq_some_iff.mp hPacket.symm
          with ⟨data, hData, hRoutes'⟩
        rw [received, hData] at hGot
        exact Option.some.inj (hRoutes'.symm.trans hGot)
  · rintro ⟨r, hUpdate, hTake⟩ fresh
    have hMap := hEq fresh
    rw [hUpdate] at hMap
    rcases Option.map_eq_some_iff.mp hMap
      with ⟨m, hMade, hSame⟩
    refine ⟨m, hMade, ?_⟩
    have hPacket := congrArg Prod.snd hSame
    rw [← hTake]
    cases hData : m.packet with
    | none =>
        rw [hData] at hPacket
        have hNone := Option.map_eq_none_iff.mp hPacket.symm
        rw [hNone]
        rfl
    | some data =>
        rw [hData] at hPacket
        rcases Option.map_eq_some_iff.mp hPacket.symm
          with ⟨routes, hRoutes, hRoutes'⟩
        rw [hRoutes]
        exact hRoutes'.symm

/- All comes back if the count is right and has one byte. -/
theorem roundTrips_iff_count
    (hTaken : ∀ r ∈ a.taken limit periodic now, r.Fits) :
    a.RoundTrips limit periodic now ↔
      (a.taken limit periodic now).length =
          (a.prepare limit periodic now).1 ∧
        (a.prepare limit periodic now).1 ≤ 255 := by
  rw [roundTrips_iff_update hTaken]
  unfold update taken
  generalize a.prepare limit periodic now = prepared
  generalize a.full periodic now = full
  rcases prepared with ⟨n, b⟩
  generalize hRoutes : b.table_.selected full now = routes
  simp only [hRoutes]
  by_cases hZero : n = 0
  · simp only [hZero, if_true, Nat.zero_le, and_true]
    constructor
    · rintro ⟨r, hMade, hTake⟩
      cases hMade
      rw [← hTake]
      rfl
    · intro hLength
      exact ⟨_, rfl, (List.length_eq_zero_iff.mp hLength).symm⟩
  · simp only [hZero, if_false]
    constructor
    · rintro ⟨r, hMade, hTake⟩
      by_cases hLength : routes.length = n
      · rw [if_pos hLength] at hMade
        cases hMade
        have hSame := congrArg List.length hTake
        simp only [Option.getD_some, List.length_take] at hSame
        omega
      · rw [if_neg hLength] at hMade
        cases hMade
    · rintro ⟨hLength, hByte⟩
      rw [if_pos hLength]
      refine ⟨_, rfl, ?_⟩
      rw [Nat.mod_eq_of_lt (by omega), ← hLength]
      exact List.take_length

/-
  The routes of an update come back exactly when a byte counts
  them and, for a full one, the own entry was counted.
-/
theorem update_round_trip
    (a : Agent)
    (periodic : Bool)
    (now : Rat)
    (hFits : a.Fits) :
    a.RoundTrips (2 ^ 32) periodic now ↔
      if a.full periodic now = true then
        a.advertiseable now ≤ 255 ∧
          (a.OwnCounted now ↔ 0 ≤ now)
      else a.changeCount now ≤ 255 := by
  have hTaken : ∀ r ∈ a.taken (2 ^ 32) periodic now, r.Fits :=
    fits_taken hFits (by simp) (Nat.le_refl _)
  rw [roundTrips_iff_count hTaken]
  unfold taken prepare
  by_cases hFull : a.full periodic now = true
  · simp only [hFull, if_true]
    have hSum := a.advertiseable_renewed (2 ^ 32) now
    rw [selected_full, count_full]
    generalize (a.renewed (2 ^ 32) now).advertiseable now = m
      at hSum ⊢
    by_cases hOwn : a.OwnCounted now
    · by_cases hNow : 0 ≤ now
      · simp only [hOwn, hNow, if_true, iff_self, and_true]
          at hSum ⊢
        omega
      · simp only [hOwn, hNow, if_true, if_false, iff_false,
          not_true_eq_false, and_false] at hSum ⊢
        omega
    · by_cases hNow : 0 ≤ now
      · simp only [hOwn, hNow, if_true, if_false, iff_true,
          and_false, iff_false] at hSum ⊢
        omega
      · simp only [hOwn, hNow, if_false, iff_self, and_true]
          at hSum ⊢
        omega
  · have hNot := Bool.eq_false_iff.mpr hFull
    simp only [hNot]
    rw [if_neg Bool.false_ne_true, if_neg Bool.false_ne_true,
      selected_triggered]
    simp only [true_and]

/- A node that has just started, and its first full update. -/
theorem update_round_trip_first :
    ∃ a : Agent,
      a.table_.entries = [(7, ownEntry 7 0 0)] ∧
        a.RoundTrips (2 ^ 32) true 1 := by
  refine ⟨⟨7, 2, ⟨[(7, ownEntry 7 0 0)],
    List.pairwise_singleton _ _⟩⟩, rfl, ?_⟩
  refine (update_round_trip _ true 1 ?_).mpr ?_
  · constructor
    case myaddr_ge => decide
    case myaddr_lt => decide
    case entries =>
      intro e he
      rw [List.mem_singleton.mp he]
      exact ⟨by decide, by decide, by decide, by decide⟩
  · decide +kernel

/- A node that has a route to each of 255 others. -/
def crowded : Agent where
  myaddr_ := 0
  seqno_ := 2
  table_ :=
    { entries := (List.range 256).map fun i : Nat =>
        (Int.ofNat i,
          { RtableEnt.bzero with
            hop := Int.ofNat i
            metric := if i = 0 then 0 else 1 })
      sorted := by
        apply List.Pairwise.map _ _ List.pairwise_lt_range
        exact fun i j hLess => Int.ofNat_lt.mpr hLess }

/- A byte counts none of 256 routes. -/
theorem update_loses_many :
    ¬∀ (a : Agent) (periodic : Bool) (now : Rat),
      a.Fits → a.RoundTrips (2 ^ 32) periodic now := by
  intro hAll
  have hFits : crowded.Fits := by
    constructor
    case myaddr_ge => decide
    case myaddr_lt => decide
    case entries =>
      intro e he
      rcases List.mem_map.mp he with ⟨i, hi, rfl⟩
      have hLess := List.mem_range.mp hi
      constructor
      case dst_ge =>
        change -2 ^ 31 ≤ (i : Int)
        omega
      case dst_lt =>
        change (i : Int) < 2 ^ 31
        omega
      case metric_le =>
        change (if i = 0 then 0 else 1) ≤ BIG
        split <;> decide
      case seqnum_lt => exact Nat.two_pow_pos 32
  have hMany : crowded.advertiseable 0 = 256 := by
    unfold advertiseable crowded
    rw [List.countP_map]
    exact (List.countP_eq_length.mpr fun i _ => rfl).trans
      List.length_range
  have hCount := (roundTrips_iff_count
    (fits_taken hFits (by simp) (Nat.le_refl _))).mp
      (hAll crowded true 0 hFits)
  have hFull : crowded.full true 0 = true := by rfl
  have hByte := hCount.2
  unfold prepare at hByte
  rw [if_pos hFull, count_full, hMany] at hByte
  omega

end Agent

end Dsdv

end Ns2
