import Mathlib.Data.Prod.Lex
import Ns2.Dsdv.Routing.Tables
import Ns2.Lib.Climbing
import Ns2.Lib.PartialRun

/-
  Routes in a network.

  Every address has a node, of which a run may leave any alone.
  An update that was sent may reach any node, at any time, any
  number of times or never.  Updates are sent, packets arrive,
  timeouts expire and links are lost in any order.  Followed
  from node to node the routes to a destination have no loop,
  as long as no route is put back that was not taken.

  Main declarations:
    * `Network`, `Happening`, `Network.happen`
    * `Network.Sound`, `Network.Careful`
    * `Network.loop_free`
-/

------------------------------------------------------------
-- Networks
------------------------------------------------------------

namespace Ns2

namespace Dsdv

structure Network where
  agents : Int → Agent
  -- the updates that were sent, and by whom
  sent : List (Int × List Advert)

/- What happens at a node `i`. -/
inductive Happening where
  -- an update is sent
  | update (i : Int) (periodic : Bool) (now : Rat)
  -- an update arrives, and `steps` packets may be sent
  | deliver
      (i src : Int)
      (routes : List Advert)
      (now : Rat)
      (steps : Nat)
  -- a packet is originated, or to be forwarded
  | packet (i : Int) (p : DataPacket) (now : Rat)
  -- a neighbor was not heard from
  | timeout (i nbr : Int) (now : Rat)
  -- a packet could not be sent on
  | lostLink
      (i next_hop : Int)
      (p : DataPacket)
      (now : Rat)

namespace Network

/- Nodes that have started, each at its own time. -/
def start (at_ : Int → Rat) : Network where
  agents := fun i => .startUp i (at_ i)
  sent := []

def setTable
    (N : Network)
    (i : Int)
    (t : RoutingTable) : Network :=
  { N with
    agents := Function.update N.agents i
      { N.agents i with table_ := t } }

/- What becomes of the network, where that can happen. -/
def happen
    (cfg : Config)
    (N : Network) : Happening → Option Network
  | .update i periodic now => do
      let (a, packet) ← (N.agents i).update 0 periodic now
      return {
        agents := Function.update N.agents i a
        sent := packet.toList.map (Prod.mk i) ++ N.sent }
  | .deliver i src routes now steps =>
      if src ≠ i ∧ (src, routes) ∈ N.sent then do
        let t ← (N.agents i).table_.processUpdate
          cfg i src now steps routes
        return N.setTable i t
      else none
  | .packet i p now =>
      some (N.setTable i
        ((N.agents i).table_.recv cfg i now p))
  | .timeout i nbr now =>
      if ∃ e ∈ (N.agents i).table_.getEntry nbr,
          e.timeout_event = true then
        some (N.setTable i
          ((N.agents i).table_.helperCallback nbr now))
      else none
  | .lostLink i next_hop p now =>
      some (N.setTable i
        ((N.agents i).table_.lostLink cfg i next_hop now p))

/- From `i`, packets for another node `d` are sent to `j`. -/
def Follows
    (N : Network)
    (d i j : Int) : Prop :=
  i ≠ d ∧ (N.agents i).table_.nextHop d = some j

/-
  Where an update arrives at a node that keeps packets for one
  of the destinations it lists, its route is the better one.
-/
def Careful
    (N : Network) : Happening → Prop
  | .deliver i _ routes _ _ =>
      ∀ r ∈ routes, r.dst ≠ i →
        Accepted (N.agents i).table_ r
  | _ => True

instance
    (N : Network)
    (h : Happening) :
    Decidable (N.Careful h) := by
  cases h
  all_goals
    unfold Careful
    infer_instance

end Network

end Dsdv

end Ns2

------------------------------------------------------------
-- What Holds Throughout
------------------------------------------------------------

namespace Ns2

namespace Dsdv

namespace Network

/-
  What an update says of other nodes, its sender still knows,
  and a route over several hops is known better at the next.
-/
structure Sound (N : Network) : Prop where
  addr : ∀ i, (N.agents i).myaddr_ = i
  queued : ∀ i, Queued (N.agents i).table_
  listed :
    ∀ u ∈ N.sent, (u.2.map (·.dst)).Nodup
  said :
    ∀ u ∈ N.sent, ∀ r ∈ u.2, r.dst ≠ u.1 →
      ∃ e, (N.agents u.1).table_.getEntry r.dst = some e ∧
        e.Ahead r.seqnum r.metric
  next :
    ∀ i d e, d ≠ i →
      (N.agents i).table_.getEntry d = some e →
      e.metric ≠ BIG → 1 < e.metric → e.hop ≠ d →
        ∃ e', (N.agents e.hop).table_.getEntry d = some e' ∧
          e'.Ahead e.seqnum (e.metric - 1)

theorem sound_start (at_ : Int → Rat) :
    (start at_).Sound := by
  have hGet : ∀ i d e,
      ((start at_).agents i).table_.getEntry d = some e →
        d = i ∧ e.q = none := by
    intro i d e hGet
    change (RoutingTable.addEntry .new i _).getEntry d =
      some e at hGet
    rw [RoutingTable.getEntry_addEntry] at hGet
    by_cases hEq : d = i
    · rw [if_pos hEq] at hGet
      cases hGet
      exact ⟨hEq, rfl⟩
    · rw [if_neg hEq] at hGet
      cases hGet
  constructor
  case addr => exact fun _ => rfl
  case queued =>
    intro i d e hEntry p hp
    rw [(hGet i d e hEntry).2] at hp
    exact absurd hp List.not_mem_nil
  case listed =>
    exact fun u hu => absurd hu List.not_mem_nil
  case said =>
    exact fun u hu => absurd hu List.not_mem_nil
  case next =>
    intro i d e hOther hEntry
    exact absurd (hGet i d e hEntry).1 hOther

/- A node changes, and says nothing. -/
theorem Sound.advance
    {N : Network}
    {i : Int}
    {a : Agent}
    {Learned : Int → RtableEnt → Prop}
    (hN : N.Sound)
    (hAddr : a.myaddr_ = i)
    (hStep :
      Advances i Learned (N.agents i).table_ a.table_)
    (hLearned :
      ∀ d e, d ≠ i → Learned d e → 1 < e.metric →
        e.hop ≠ d → e.hop ≠ i ∧
          ∃ e', (N.agents e.hop).table_.getEntry d = some e' ∧
            e'.Ahead e.seqnum (e.metric - 1)) :
    Sound { N with agents := Function.update N.agents i a } := by
  -- what was known of another node is known as well
  have hKnown : ∀ j d e seqnum metric, d ≠ j →
      (N.agents j).table_.getEntry d = some e →
      e.Ahead seqnum metric →
        ∃ e',
          (Function.update N.agents i a j).table_.getEntry d =
            some e' ∧ e'.Ahead seqnum metric := by
    intro j d e seqnum metric hOther hGet hAhead
    by_cases hj : j = i
    · subst hj
      rw [Function.update_self]
      rcases hStep.ahead d hOther e hGet
        with ⟨e', hGet', hAhead'⟩
      exact ⟨e', hGet', hAhead.trans hAhead'⟩
    · rw [Function.update_of_ne hj]
      exact ⟨e, hGet, hAhead⟩
  constructor
  case addr =>
    intro j
    by_cases hj : j = i
    · subst hj
      simp only [Function.update_self]
      exact hAddr
    · simp only [Function.update_of_ne hj]
      exact hN.addr j
  case queued =>
    intro j
    by_cases hj : j = i
    · subst hj
      simp only [Function.update_self]
      exact hStep.queued (hN.queued j)
    · simp only [Function.update_of_ne hj]
      exact hN.queued j
  case listed => exact hN.listed
  case said =>
    intro u hu r hr hOther
    rcases hN.said u hu r hr hOther with ⟨e, hGet, hAhead⟩
    exact hKnown u.1 r.dst e _ _ hOther hGet hAhead
  case next =>
    intro j d e hOther hGet hMetric hFar hHop
    have hBefore :
        (∃ e₀, (N.agents j).table_.getEntry d = some e₀ ∧
            SameRoute e₀ e) ∨
          j = i ∧ Learned d e := by
      by_cases hj : j = i
      · subst hj
        simp only [Function.update_self] at hGet
        exact (hStep.origin d hOther e hGet hMetric).imp_right
          fun h => ⟨rfl, h⟩
      · simp only [Function.update_of_ne hj] at hGet
        exact Or.inl ⟨e, hGet, .refl e⟩
    rcases hBefore with ⟨e₀, hGet₀, hSame⟩ | ⟨hj, hNew⟩
    · rcases hN.next j d e₀ hOther hGet₀
          (hSame.metric ▸ hMetric) (hSame.metric ▸ hFar)
          (hSame.hop ▸ hHop)
        with ⟨e', hGet', hAhead'⟩
      rw [← hSame.metric, ← hSame.seqnum] at hAhead'
      rw [← hSame.hop] at hGet'
      exact hKnown e.hop d e' _ _ hHop.symm hGet' hAhead'
    · subst hj
      rcases hLearned d e hOther hNew hFar hHop
        with ⟨hElse, e', hGet', hAhead'⟩
      exact hKnown e.hop d e' _ _ hHop.symm hGet' hAhead'

/- An update is sent that says what the node knows. -/
theorem Sound.send
    {N : Network}
    {i : Int}
    {routes : List Advert}
    (hN : N.Sound)
    (hNodup : (routes.map (·.dst)).Nodup)
    (hKnown :
      ∀ r ∈ routes, r.dst ≠ i →
        ∃ e, (N.agents i).table_.getEntry r.dst = some e ∧
          e.Ahead r.seqnum r.metric) :
    Sound { N with sent := (i, routes) :: N.sent } := by
  constructor
  case addr => exact hN.addr
  case queued => exact hN.queued
  case listed =>
    intro u hu
    rcases List.mem_cons.mp hu with rfl | hOld
    · exact hNodup
    · exact hN.listed u hOld
  case said =>
    intro u hu
    rcases List.mem_cons.mp hu with rfl | hOld
    · exact hKnown
    · exact hN.said u hOld
  case next => exact hN.next

end Network

end Dsdv

end Ns2

------------------------------------------------------------
-- Steps
------------------------------------------------------------

namespace Ns2

namespace Dsdv

/- The routes of an update are those of the table. -/
theorem mem_selected
    {t : RoutingTable}
    {full : Bool}
    {now : Rat}
    {r : Advert}
    (hr : r ∈ t.selected full now) :
    ∃ e, t.getEntry r.dst = some e ∧
      e.metric = r.metric ∧ e.seqnum = r.seqnum := by
  rcases List.mem_map.mp hr with ⟨e, he, rfl⟩
  have hEntry := (List.mem_filter.mp he).1
  exact ⟨e.2, (SortedMap.mem_entries_iff _).mp hEntry, rfl, rfl⟩

theorem nodup_selected
    (t : RoutingTable)
    (full : Bool)
    (now : Rat) :
    ((t.selected full now).map (·.dst)).Nodup := by
  unfold RoutingTable.selected
  rw [List.map_map]
  apply List.Pairwise.map (R := fun x y => x.1 < y.1)
  · exact fun x y hLess => ne_of_lt hLess
  · exact t.sorted.sublist List.filter_sublist

/- What an update does to a node, and what it says. -/
theorem update_spec
    {a b : Agent}
    {limit : Nat}
    {periodic : Bool}
    {now : Rat}
    {packet : Option (List Advert)}
    (hUpdate :
      a.update limit periodic now = some (b, packet)) :
    b.myaddr_ = a.myaddr_ ∧
      Advances a.myaddr_ Nothing a.table_ b.table_ ∧
      ∀ routes ∈ packet,
        (routes.map (·.dst)).Nodup ∧
          ∀ r ∈ routes, ∃ e,
            b.table_.getEntry r.dst = some e ∧
              e.Ahead r.seqnum r.metric := by
  have hPrepare :
      (a.prepare limit periodic now).2.myaddr_ = a.myaddr_ ∧
        Advances a.myaddr_ Nothing a.table_
          (a.prepare limit periodic now).2.table_ := by
    unfold Agent.prepare
    split
    · refine ⟨rfl, advances_addEntry ?_ ?_ ?_⟩
      · exact fun hNe => absurd rfl hNe
      · exact fun hNe => absurd rfl hNe
      · exact fun _ p hp => absurd hp List.not_mem_nil
    · exact ⟨rfl, .refl⟩
  unfold Agent.update at hUpdate
  generalize a.prepare limit periodic now = prepared
    at hPrepare hUpdate
  rcases prepared with ⟨n, a'⟩
  simp only at hPrepare hUpdate
  split at hUpdate
  · cases hUpdate
    exact ⟨hPrepare.1, hPrepare.2, by simp⟩
  · split at hUpdate
    · cases hUpdate
      have hFlags :
          Advances a.myaddr_ Nothing a'.table_
            (a'.table_.advertise (a.full periodic now) now) :=
        advertise_advances
      refine ⟨hPrepare.1, hPrepare.2.trans hFlags
        fun _ _ _ hFalse _ => hFalse, ?_⟩
      intro routes hRoutes
      cases hRoutes
      constructor
      · exact (nodup_selected _ _ _).sublist
          ((List.take_sublist _ _).map _)
      · intro r hr
        rcases mem_selected (List.mem_of_mem_take hr)
          with ⟨e, hGet, hMetric, hSeqnum⟩
        rw [← hMetric, ← hSeqnum]
        refine ⟨if e.included (a.full periodic now) now then
            e.advertised (a.full periodic now) else e, ?_, ?_⟩
        · change RoutingTable.getEntry (a'.table_.advertise _ _)
            r.dst = _
          rw [RoutingTable.advertise,
            RoutingTable.getEntry_mapValues, hGet]
          rfl
        · split
          · exact Or.inr ⟨rfl, Nat.le_refl _⟩
          · exact e.ahead_self
    · cases hUpdate

namespace Network

variable {cfg : Config}

/- What happens carefully keeps the network sound. -/
theorem sound_step
    (N : Network)
    (h : Happening)
    (N' : Network)
    (hN : N.Sound)
    (hCareful : N.Careful h)
    (hHappen : happen cfg N h = some N') :
    N'.Sound := by
  have hSilent : ∀ (i : Int) (t : RoutingTable),
      Advances i Nothing (N.agents i).table_ t →
        (N.setTable i t).Sound :=
    fun i t hStep =>
      hN.advance (hN.addr i) hStep
        fun _ _ _ hFalse => hFalse.elim
  cases h with
  | update i periodic now =>
      rcases Option.bind_eq_some_iff.mp hHappen
        with ⟨⟨a, packet⟩, hUpdate, hNext⟩
      rcases update_spec hUpdate with ⟨hAddr, hStep, hSaid⟩
      rw [hN.addr i] at hAddr hStep
      have hMoved :=
        hN.advance hAddr hStep fun _ _ _ hFalse => hFalse.elim
      cases packet with
      | none =>
          cases hNext
          exact hMoved
      | some routes =>
          cases hNext
          rcases hSaid routes rfl with ⟨hNodup, hKnown⟩
          refine hMoved.send hNodup fun r hr _ => ?_
          simp only [Function.update_self]
          exact hKnown r hr
  | deliver i src routes now steps =>
      simp only [happen] at hHappen
      split at hHappen
      · rename_i hSent
        rcases Option.bind_eq_some_iff.mp hHappen
          with ⟨t, hProcess, hNext⟩
        cases hNext
        have hStep := processUpdate_advances
          (hN.listed _ hSent.2) (hN.queued i) hCareful hProcess
        refine hN.advance (hN.addr i) hStep ?_
        intro d e hOther hTold hFar hHop
        rcases hTold with hNear | ⟨r, hr, hd, hFrom, hMetric,
          hSeqnum⟩
        · omega
        · subst hd
          rw [hFrom] at hHop ⊢
          rcases hN.said _ hSent.2 r hr hHop.symm
            with ⟨e', hGet', hAhead'⟩
          refine ⟨hSent.1, e', hGet', ?_⟩
          rw [hSeqnum, hMetric]
          exact hAhead'
      · cases hHappen
  | packet i p now =>
      cases hHappen
      exact hSilent i _ recv_advances
  | timeout i nbr now =>
      simp only [happen] at hHappen
      split at hHappen
      · cases hHappen
        exact hSilent i _ helperCallback_advances
      · cases hHappen
  | lostLink i next_hop p now =>
      cases hHappen
      exact hSilent i _ lostLink_advances

/- How far ahead a node is. -/
def rank
    (N : Network)
    (d i : Int) : Nat ×ₗ Int :=
  ((N.agents i).table_.getEntry d).elim (toLex (0, 0))
    fun e => toLex (e.seqnum, -(e.metric : Int))

/- The next node is ahead, where packets go on from there. -/
theorem Sound.climbs
    {N : Network}
    (hN : N.Sound)
    (d i j k : Int)
    (hFirst : N.Follows d i j)
    (hNext : N.Follows d j k) :
    N.rank d i < N.rank d j := by
  rcases Option.bind_eq_some_iff.mp hFirst.2
    with ⟨e, hGet, hHop⟩
  by_cases hBig : e.metric = BIG
  · rw [if_pos hBig] at hHop
    cases hHop
  · rw [if_neg hBig] at hHop
    by_cases hFar : 1 < e.metric
    · rw [if_pos hFar] at hHop
      have hj : e.hop = j := Option.some.inj hHop
      rcases hN.next i d e hFirst.1.symm hGet hBig hFar
          (hj ▸ hNext.1)
        with ⟨e', hGet', hAhead⟩
      rw [hj] at hGet'
      unfold rank
      rw [hGet, hGet']
      simp only [Option.elim_some, Prod.Lex.toLex_lt_toLex]
      rcases hAhead with hFresh | ⟨hEqual, hLess⟩
      · exact Or.inl hFresh
      · exact Or.inr ⟨hEqual, by omega⟩
    · rw [if_neg hFar] at hHop
      exact absurd (Option.some.inj hHop).symm hNext.1

/-
  In a run in which updates arrive carefully, packets that go
  from node to node never come back to a node.
-/
theorem loop_free
    (cfg : Config)
    (at_ : Int → Rat)
    (happenings : List Happening)
    (N : Network)
    (hRun :
      PartialRun.run (happen cfg) (start at_) happenings =
        some N)
    (hCareful :
      PartialRun.Throughout (happen cfg) Careful (start at_)
        happenings)
    (d i : Int) :
    ¬Relation.TransGen (N.Follows d) i i := by
  have hN : N.Sound :=
    PartialRun.invariant_if sound_step (sound_start at_) hRun
      hCareful
  exact Climbing.no_cycle (hN.climbs d) i

/-
  Node 0 is heard by node 1, which loses the link to it while
  it has a packet from node 2 for node 0.
-/
def lostPacket : List Happening :=
  [.update 0 true 1,
    .deliver 1 0 [⟨0, 0, 4⟩] 1 1,
    .update 1 true 14,
    .deliver 2 1 [⟨0, 1, 4⟩, ⟨1, 0, 4⟩] 14 1,
    .packet 2 ⟨2, 0, 0, 0⟩ 20,
    .packet 1 ⟨2, 0, 32, 1⟩ 20,
    .lostLink 1 0 ⟨2, 0, 31, 1⟩ 20,
    .update 2 true 27]

/- Then node 1 hears the route of node 2, which is its own. -/
def staleRoute : Happening :=
  .deliver 1 2 [⟨0, 2, 4⟩, ⟨1, 1, 4⟩, ⟨2, 0, 4⟩] 27 40

theorem loop_free_lost :
    ∃ N,
      PartialRun.run (happen ⟨7 / 8, 6⟩) (start fun _ => 0)
          lostPacket = some N ∧
        (N.agents 2).table_.nextHop 0 = some 1 ∧
        ∀ d i, ¬Relation.TransGen (N.Follows d) i i := by
  have hSome :
      (PartialRun.run (happen ⟨7 / 8, 6⟩) (start fun _ => 0)
          lostPacket).map
        (fun N => (N.agents 2).table_.nextHop 0) =
          some (some 1) := by
    decide +kernel
  rcases Option.map_eq_some_iff.mp hSome with ⟨N, hRun, hHop⟩
  exact ⟨N, hRun, hHop, loop_free _ _ _ N hRun
    (PartialRun.throughout_of_check (by decide +kernel))⟩

/- Nodes 1 and 2 send packets for node 0 to each other. -/
theorem loop_of_stale :
    ¬∀ (cfg : Config) (at_ : Int → Rat)
        (happenings : List Happening) (N : Network),
      PartialRun.run (happen cfg) (start at_) happenings =
        some N →
      ∀ d i, ¬Relation.TransGen (N.Follows d) i i := by
  intro hAll
  have hSome :
      (PartialRun.run (happen ⟨7 / 8, 6⟩) (start fun _ => 0)
          (lostPacket ++ [staleRoute])).map
        (fun N =>
          ((N.agents 1).table_.nextHop 0,
            (N.agents 2).table_.nextHop 0)) =
          some (some 2, some 1) := by
    decide +kernel
  rcases Option.map_eq_some_iff.mp hSome with ⟨N, hRun, hHops⟩
  have hThere : N.Follows 0 1 2 :=
    ⟨by decide, congrArg Prod.fst hHops⟩
  have hBack : N.Follows 0 2 1 :=
    ⟨by decide, congrArg Prod.snd hHops⟩
  exact hAll _ _ _ N hRun 0 1
    ((Relation.TransGen.single hThere).tail hBack)

end Network

end Dsdv

end Ns2