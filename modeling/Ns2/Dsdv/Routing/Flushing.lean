import Ns2.Dsdv.Routing.Tables

/-
  Packets that an update sends on.

  The packets that are buffered for a destination are handed
  back when an update brings a route to it.  An update that is
  not believed hands them back as well, while the table has no
  route still, and each of them joins the queue it came from.

  Main declarations:
    * `RoutingTable.handOver`, `RoutingTable.handUpdate`
    * `Tidy`, `Reach`

  Correctness is proven by:
    * `handUpdate_eq`
    * `Reach.tidy`
-/

------------------------------------------------------------
-- Handing Packets Back
------------------------------------------------------------

namespace Ns2

namespace Dsdv

/- A packet that `recv` gets, and what the table says then. -/
structure Handed where
  dst : Int
  packet : DataPacket
  metric : Nat
deriving DecidableEq

/- The same as `flush`, with the packets that are received. -/
def RoutingTable.handOver
    (cfg : Config)
    (myaddr : Int)
    (now : Rat)
    (dst : Int) :
    Nat → RoutingTable → Option (RoutingTable × List Handed)
| 0, _ => none
| steps + 1, t =>
    match t.getEntry dst with
    | none => some (t, [])
    | some e =>
        match e.q with
        | some (p :: rest) => do
            let (t', hs) ← handOver cfg myaddr now dst steps
              ((t.addEntry dst { e with q := some rest }).recv
                cfg myaddr now p)
            return (t', ⟨dst, p, e.metric⟩ :: hs)
        | _ => some (t, [])

def RoutingTable.handAdvert
    (cfg : Config)
    (myaddr src : Int)
    (now : Rat)
    (steps : Nat)
    (t : RoutingTable)
    (r : Advert) : Option (RoutingTable × List Handed) :=
  if r.dst = myaddr then some (t, [])
  else do
    let rte := learn cfg src now (t.getEntry r.dst) r
    let (t, rte) ← t.judge now r.dst rte
    if rte.q ≠ none ∧ rte.metric ≠ BIG then
      let (t, hs) ← t.handOver cfg myaddr now r.dst steps
      let t ← t.updateRoute r.dst { rte with q := none }
      return (t, hs)
    else return (t, [])

def RoutingTable.handAdverts
    (cfg : Config)
    (myaddr src : Int)
    (now : Rat)
    (steps : Nat) :
    RoutingTable → List Advert →
      Option (RoutingTable × List Handed)
| t, [] => some (t, [])
| t, r :: routes => do
    let (t, hs) ← t.handAdvert cfg myaddr src now steps r
    let (t, hs') ← handAdverts cfg myaddr src now steps t routes
    return (t, hs ++ hs')

def RoutingTable.handUpdate
    (cfg : Config)
    (myaddr src : Int)
    (now : Rat)
    (steps : Nat)
    (t : RoutingTable)
    (routes : List Advert) :
    Option (RoutingTable × List Handed) := do
  let (t, hs) ← t.handAdverts cfg myaddr src now steps routes
  return (t.hear cfg src now, hs)

variable {cfg : Config}
variable {own src dst : Int}
variable {now : Rat}
variable {steps : Nat}
variable {t t' : RoutingTable}
variable {r : Advert}

theorem handOver_eq :
    (t.handOver cfg own now dst steps).map Prod.fst =
      t.flush cfg own now dst steps := by
  induction steps generalizing t with
  | zero => rfl
  | succ steps ih =>
      unfold RoutingTable.handOver RoutingTable.flush
      cases t.getEntry dst with
      | none => rfl
      | some e =>
          dsimp only
          cases e.q with
          | none => rfl
          | some q =>
              cases q with
              | nil => rfl
              | cons p rest =>
                  dsimp only
                  rw [← ih]
                  cases RoutingTable.handOver cfg own now dst
                    steps _ <;> rfl

theorem handAdvert_eq :
    (t.handAdvert cfg own src now steps r).map Prod.fst =
      t.processAdvert cfg own src now steps r := by
  unfold RoutingTable.handAdvert RoutingTable.processAdvert
  split
  · rfl
  · dsimp only
    cases t.judge now r.dst
      (learn cfg src now (t.getEntry r.dst) r) with
    | none => rfl
    | some x =>
        rcases x with ⟨t₁, rte⟩
        simp only [Option.bind_eq_bind, Option.bind_some]
        split
        · rw [← handOver_eq]
          cases t₁.handOver cfg own now r.dst steps with
          | none => rfl
          | some y =>
              simp only [Option.bind_some, Option.map_some]
              cases y.1.updateRoute r.dst { rte with q := none }
                <;> rfl
        · rfl

theorem handAdverts_eq
    {routes : List Advert} :
    (t.handAdverts cfg own src now steps routes).map Prod.fst =
      routes.foldlM
        (RoutingTable.processAdvert cfg own src now steps)
        t := by
  induction routes generalizing t with
  | nil => rfl
  | cons r routes ih =>
      rw [List.foldlM_cons, ← handAdvert_eq,
        RoutingTable.handAdverts]
      cases t.handAdvert cfg own src now steps r with
      | none => rfl
      | some x =>
          simp only [Option.bind_eq_bind, Option.bind_some,
            Option.map_some]
          rw [← ih]
          cases x.1.handAdverts cfg own src now steps routes
            <;> rfl

/- The table is the same as that after `processUpdate`. -/
theorem handUpdate_eq
    {routes : List Advert} :
    (t.handUpdate cfg own src now steps routes).map Prod.fst =
      t.processUpdate cfg own src now steps routes := by
  unfold RoutingTable.handUpdate RoutingTable.processUpdate
  rw [← handAdverts_eq]
  cases t.handAdverts cfg own src now steps routes <;> rfl

end Dsdv

end Ns2

------------------------------------------------------------
-- Reachable Tables
------------------------------------------------------------

namespace Ns2

namespace Dsdv

/- Packets are buffered where there is no route, a few. -/
structure TidyEnt (e : RtableEnt) : Prop where
  metric_le : e.metric ≤ BIG
  q_none : e.metric ≠ BIG → e.q = none
  q_nonempty : e.q ≠ some []
  q_length : (e.q.getD []).length ≤ MAX_QUEUE_LENGTH

structure Tidy
    (own : Int)
    (t : RoutingTable) : Prop where
  queued : Queued t
  entries : ∀ d ≠ own, ∀ e, t.getEntry d = some e → TidyEnt e

/- The tables of a node, whatever comes to it. -/
inductive Reach
    (cfg : Config)
    (own : Int) : RoutingTable → Prop where
| new : Reach cfg own .new
| own
    {t : RoutingTable}
    (seqno : Nat)
    (now : Rat)
    (advert_metric : Bool)
    (ht : Reach cfg own t) :
    Reach cfg own
      (t.addEntry own
        { ownEntry own seqno now with
          advert_metric := advert_metric })
| advertise
    {t : RoutingTable}
    (full : Bool)
    (now : Rat)
    (ht : Reach cfg own t) :
    Reach cfg own (t.advertise full now)
| recv
    {t : RoutingTable}
    (p : DataPacket)
    (now : Rat)
    (ht : Reach cfg own t) :
    Reach cfg own (t.recv cfg own now p)
| update
    {t t' : RoutingTable}
    (src : Int)
    (routes : List Advert)
    (now : Rat)
    (steps : Nat)
    (ht : Reach cfg own t)
    (hUpdate :
      t.processUpdate cfg own src now steps routes = some t') :
    Reach cfg own t'
| timeout
    {t : RoutingTable}
    (nbr : Int)
    (now : Rat)
    (ht : Reach cfg own t) :
    Reach cfg own (t.helperCallback nbr now)
| lostLink
    {t : RoutingTable}
    (next_hop : Int)
    (p : DataPacket)
    (now : Rat)
    (ht : Reach cfg own t) :
    Reach cfg own (t.lostLink cfg own next_hop now p)

variable {cfg : Config}
variable {own src dst nbr : Int}
variable {now : Rat}
variable {steps : Nat}
variable {t t' : RoutingTable}
variable {p : DataPacket}

theorem Tidy.addEntry
    {ent : RtableEnt}
    (hTidy : Tidy own t)
    (hQueued : QueuedFor dst ent)
    (hEnt : dst ≠ own → TidyEnt ent) :
    Tidy own (t.addEntry dst ent) := by
  constructor
  case queued =>
    intro d e hGet
    rw [RoutingTable.getEntry_addEntry] at hGet
    by_cases hSame : d = dst
    · subst hSame
      rw [if_pos rfl] at hGet
      cases hGet
      exact hQueued
    · rw [if_neg hSame] at hGet
      exact hTidy.queued d e hGet
  case entries =>
    intro d hd e hGet
    rw [RoutingTable.getEntry_addEntry] at hGet
    by_cases hSame : d = dst
    · subst hSame
      rw [if_pos rfl] at hGet
      cases hGet
      exact hEnt hd
    · rw [if_neg hSame] at hGet
      exact hTidy.entries d hd e hGet

/- Entries keep their packets, and routes only get lost. -/
theorem Tidy.mapValues
    {f : Int → RtableEnt → RtableEnt}
    (hTidy : Tidy own t)
    (hq : ∀ d e, (f d e).q = e.q)
    (hMetric : ∀ d e,
      (f d e).metric = e.metric ∨ (f d e).metric = BIG) :
    Tidy own (t.mapValues f) := by
  constructor
  case queued =>
    intro d e' hGet
    rw [RoutingTable.getEntry_mapValues] at hGet
    rcases Option.map_eq_some_iff.mp hGet with ⟨e, hOld, rfl⟩
    unfold QueuedFor
    rw [hq]
    exact hTidy.queued d e hOld
  case entries =>
    intro d hd e' hGet
    rw [RoutingTable.getEntry_mapValues] at hGet
    rcases Option.map_eq_some_iff.mp hGet with ⟨e, hOld, rfl⟩
    have hEnt := hTidy.entries d hd e hOld
    constructor
    case metric_le =>
      rcases hMetric d e with hSame | hBig
      · exact hSame.trans_le hEnt.metric_le
      · exact hBig.le
    case q_none =>
      intro hRoute
      rw [hq]
      rcases hMetric d e with hSame | hBig
      · exact hEnt.q_none (hSame ▸ hRoute)
      · exact absurd hBig hRoute
    case q_nonempty =>
      rw [hq]
      exact hEnt.q_nonempty
    case q_length =>
      rw [hq]
      exact hEnt.q_length

theorem enque_length (q : List DataPacket) :
    (enque q p).length ≤ MAX_QUEUE_LENGTH := by
  unfold enque
  rw [List.length_drop]
  omega

theorem enque_nonempty (q : List DataPacket) :
    enque q p ≠ [] := by
  intro hNil
  have hLength := congrArg List.length hNil
  unfold enque MAX_QUEUE_LENGTH at hLength
  rw [List.length_drop, List.length_append] at hLength
  simp only [List.length_cons, List.length_nil] at hLength
  omega

theorem forwardPacket_tidy
    (hTidy : Tidy own t) :
    Tidy own (t.forwardPacket cfg now p) := by
  unfold RoutingTable.forwardPacket
  cases hGet : t.getEntry p.daddr with
  | some e =>
      dsimp only
      split
      · exact hTidy
      next hBig =>
        refine hTidy.addEntry
          (queuedFor_enque (hTidy.queued _ e hGet))
          fun hd => ?_
        have hEnt := hTidy.entries _ hd e hGet
        exact ⟨hEnt.metric_le, fun hRoute => absurd hRoute hBig,
          fun hNil => enque_nonempty _ (Option.some.inj hNil),
          enque_length _⟩
  | none =>
      refine hTidy.addEntry ?_ fun _ => ?_
      · intro p' hp'
        rw [List.mem_singleton.mp hp']
      · exact ⟨le_rfl, fun hRoute => absurd rfl hRoute,
          by simp, by simp [MAX_QUEUE_LENGTH]⟩

theorem recv_tidy
    (hTidy : Tidy own t) :
    Tidy own (t.recv cfg own now p) := by
  unfold RoutingTable.recv
  split
  · exact hTidy
  · split
    · exact hTidy
    · exact forwardPacket_tidy hTidy

theorem markBroken_q (e : RtableEnt) :
    (e.markBroken nbr now).q = e.q := by
  unfold RtableEnt.markBroken
  split <;> rfl

theorem markBroken_metric (e : RtableEnt) :
    (e.markBroken nbr now).metric = e.metric ∨
      (e.markBroken nbr now).metric = BIG := by
  unfold RtableEnt.markBroken
  split
  · exact Or.inr rfl
  · exact Or.inl rfl

theorem helperCallback_tidy
    (hTidy : Tidy own t) :
    Tidy own (t.helperCallback nbr now) := by
  have hMarked :
      Tidy own (t.mapValues fun _ e => e.markBroken nbr now) :=
    hTidy.mapValues (fun _ => markBroken_q)
      fun _ => markBroken_metric
  unfold RoutingTable.helperCallback
  dsimp only
  split
  · exact hMarked
  next prte hGet =>
    refine hMarked.addEntry (hMarked.queued _ prte hGet)
      fun hd => ?_
    have hEnt := hMarked.entries _ hd prte hGet
    exact ⟨hEnt.metric_le, hEnt.q_none, hEnt.q_nonempty,
      hEnt.q_length⟩

theorem lostLink_tidy
    (hTidy : Tidy own t) :
    Tidy own (t.lostLink cfg own nbr now p) := by
  unfold RoutingTable.lostLink
  split
  · exact hTidy
  · dsimp only
    split
    · exact recv_tidy (helperCallback_tidy hTidy)
    · exact recv_tidy hTidy

theorem advertise_tidy
    {full : Bool}
    (hTidy : Tidy own t) :
    Tidy own (t.advertise full now) := by
  refine hTidy.mapValues (fun _ e => ?_) fun _ e => ?_
  · split <;> rfl
  · left
    split <;> rfl

theorem hear_tidy
    (hTidy : Tidy own t) :
    Tidy own (t.hear cfg src now) := by
  unfold RoutingTable.hear
  cases hGet : t.getEntry src with
  | some prte =>
      refine hTidy.addEntry (hTidy.queued _ prte hGet)
        fun hd => ?_
      have hEnt := hTidy.entries _ hd prte hGet
      exact ⟨hEnt.metric_le, hEnt.q_none, hEnt.q_nonempty,
        hEnt.q_length⟩
  | none =>
      refine hTidy.addEntry
        (fun _ hp => absurd hp List.not_mem_nil) fun _ => ?_
      exact ⟨show (1 : Nat) ≤ 250 by decide, fun _ => rfl,
        by simp [RtableEnt.bzero], Nat.zero_le _⟩

theorem tidy_new : Tidy own .new := by
  constructor
  case queued =>
    intro d e hGet
    cases hGet
  case entries =>
    intro d _ e hGet
    cases hGet

end Dsdv

end Ns2

------------------------------------------------------------
-- Judging a Route
------------------------------------------------------------

namespace Ns2

namespace Dsdv

variable {now : Rat}
variable {dst : Int}
variable {t : RoutingTable}
variable {e rte : RtableEnt}

theorem updateRoute_some
    (hMetric : rte.metric ≤ BIG) :
    t.updateRoute dst rte = some (t.addEntry dst rte) :=
  if_pos hMetric

theorem updateRoute_none
    (hMetric : ¬rte.metric ≤ BIG) :
    t.updateRoute dst rte = none :=
  if_neg hMetric

theorem updateRoute_le
    {t' : RoutingTable}
    (hUpdate : t.updateRoute dst rte = some t') :
    rte.metric ≤ BIG := by
  by_contra hMetric
  rw [updateRoute_none hMetric] at hUpdate
  cases hUpdate

/- A better route is written, if its metric is one. -/
theorem judge_better
    (t : RoutingTable)
    (now : Rat)
    (dst : Int)
    (rte : RtableEnt)
    (hBetter : ∀ e, t.getEntry dst = some e → Better rte e) :
    ∃ rte', SameRoute rte rte' ∧ rte'.q = rte.q ∧
      t.judge now dst rte =
        (t.updateRoute dst rte').map fun t' => (t', rte') := by
  unfold RoutingTable.judge
  cases hGet : t.getEntry dst with
  | none =>
      refine ⟨if rte.metric < BIG then
          { rte with advert_metric := true }
        else rte, ?_, ?_, ?_⟩
      · split <;> exact ⟨rfl, rfl, rfl⟩
      · split <;> rfl
      · dsimp only
        cases t.updateRoute dst _ <;> rfl
  | some prte =>
      dsimp only
      rcases hBetter prte hGet with hFresh | ⟨hEqual, hLess⟩
      · rw [if_neg (by omega), if_pos hFresh]
        refine ⟨{ rte with
          advert_seqnum := true
          advert_metric := decide
            (rte.metric ≠ prte.last_advertised_metric) },
          ⟨rfl, rfl, rfl⟩, rfl, ?_⟩
        cases t.updateRoute dst _ <;> rfl
      · rw [if_pos hEqual, if_pos hLess]
        refine ⟨{ rte with
          advert_metric := decide
            (rte.metric ≠ prte.last_advertised_metric) },
          ⟨rfl, rfl, rfl⟩, rfl, ?_⟩
        cases t.updateRoute dst _ <;> rfl

/- No other route is, and the packets stay buffered. -/
theorem judge_worse
    (now : Rat)
    (rte : RtableEnt)
    (hGet : t.getEntry dst = some e)
    (hWorse : ¬Better rte e) :
    ∃ t', t.judge now dst rte = some (t', rte) ∧
      (∀ d ≠ dst, t'.getEntry d = t.getEntry d) ∧
        ∃ e', t'.getEntry dst = some e' ∧ SameRoute e e' ∧
          e'.q = e.q := by
  unfold Better at hWorse
  unfold RoutingTable.judge
  rw [hGet]
  dsimp only
  have hStay :
      (∀ d ≠ dst, t.getEntry d = t.getEntry d) ∧
        ∃ e', t.getEntry dst = some e' ∧ SameRoute e e' ∧
          e'.q = e.q :=
    ⟨fun _ _ => rfl, e, hGet, .refl e, rfl⟩
  by_cases hEqual : e.seqnum = rte.seqnum
  · rw [if_pos hEqual, if_neg (by omega)]
    exact ⟨t, rfl, hStay⟩
  · rw [if_neg hEqual, if_neg (by omega)]
    split
    · exact ⟨_, rfl, fun d hd => t.getEntry_addEntry_ne hd, _,
        t.getEntry_addEntry_self, ⟨rfl, rfl, rfl⟩, rfl⟩
    · exact ⟨t, rfl, hStay⟩

end Dsdv

end Ns2

------------------------------------------------------------
-- Updates Keep a Table Tidy
------------------------------------------------------------

namespace Ns2

namespace Dsdv

variable {cfg : Config}
variable {own src dst : Int}
variable {now : Rat}
variable {steps : Nat}
variable {t t' t₁ : RoutingTable}
variable {r : Advert}
variable {e e' : RtableEnt}

/- Another route may be written over packets that wait. -/
theorem TidyEnt.rewrite
    (hEnt : TidyEnt e)
    (hq : e'.q = e.q)
    (hMetric : e'.metric ≤ BIG)
    (hWait : e'.q ≠ none → e'.metric = BIG) :
    TidyEnt e' := by
  constructor
  case metric_le => exact hMetric
  case q_none =>
    intro hRoute
    by_contra hSome
    exact hRoute (hWait hSome)
  case q_nonempty =>
    rw [hq]
    exact hEnt.q_nonempty
  case q_length =>
    rw [hq]
    exact hEnt.q_length

theorem TidyEnt.big
    (hEnt : TidyEnt e)
    (hSome : e.q ≠ none) :
    e.metric = BIG := by
  by_contra hRoute
  exact hSome (hEnt.q_none hRoute)

theorem Tidy.of_frame
    {e' : RtableEnt}
    (hTidy : Tidy own t)
    (hFrame : ∀ d ≠ dst, t'.getEntry d = t.getEntry d)
    (hGet : t'.getEntry dst = some e')
    (hQueued : QueuedFor dst e')
    (hEnt : dst ≠ own → TidyEnt e') :
    Tidy own t' := by
  constructor
  case queued =>
    intro d e hGet'
    by_cases hSame : d = dst
    · subst hSame
      rw [hGet] at hGet'
      cases hGet'
      exact hQueued
    · rw [hFrame d hSame] at hGet'
      exact hTidy.queued d e hGet'
  case entries =>
    intro d hd e hGet'
    by_cases hSame : d = dst
    · subst hSame
      rw [hGet] at hGet'
      cases hGet'
      exact hEnt hd
    · rw [hFrame d hSame] at hGet'
      exact hTidy.entries d hd e hGet'

/- Packets that were sent leave an entry without a queue. -/
theorem flush_tidy
    {rte : RtableEnt}
    (hQueued : Queued t)
    (hTidy : Tidy own t')
    (hFrame : ∀ d ≠ dst, t.getEntry d = t'.getEntry d)
    (hFlush :
      ((t.flush cfg own now dst steps).bind fun t₂ =>
        t₂.updateRoute dst { rte with q := none }) = some t₁) :
    Tidy own t₁ := by
  rcases Option.bind_eq_some_iff.mp hFlush with
    ⟨t₂, hFlush, hUpdate⟩
  have hFlushed := flush_keeps hQueued hFlush
  have hMetric := updateRoute_le hUpdate
  rw [updateRoute_eq hUpdate]
  refine hTidy.of_frame (fun d hd => ?_)
    t₂.getEntry_addEntry_self ?_ fun _ => ?_
  · exact (t₂.getEntry_addEntry_ne hd).trans
      ((hFlushed.frame d hd).trans (hFrame d hd))
  · exact fun _ hp => absurd hp List.not_mem_nil
  · exact ⟨hMetric, fun _ => rfl, by simp, Nat.zero_le _⟩

/- An update that is worked off leaves the table tidy. -/
theorem processAdvert_tidy
    (hTidy : Tidy own t)
    (hProcess :
      t.processAdvert cfg own src now steps r = some t') :
    Tidy own t' := by
  unfold RoutingTable.processAdvert at hProcess
  split at hProcess
  · cases hProcess
    exact hTidy
  next hOther =>
  generalize hLearn : learn cfg src now (t.getEntry r.dst) r =
    rte at hProcess
  have hKept : rte.q = (t.getEntry r.dst).bind (·.q) := by
    rw [← hLearn]
    exact learn_q _
  rcases Option.bind_eq_some_iff.mp hProcess with
    ⟨⟨t₁, rte₁⟩, hJudge, hRest⟩
  dsimp only at hRest
  by_cases hBetter : ∀ e, t.getEntry r.dst = some e → Better rte e
  · -- the route is written, and the packets stay with it
    rcases judge_better t now r.dst rte hBetter with
      ⟨rte₂, _, hq, hWritten⟩
    rw [hWritten] at hJudge
    rcases Option.map_eq_some_iff.mp hJudge with
      ⟨t₂, hUpdate, hPair⟩
    cases hPair
    have hTable := updateRoute_eq hUpdate
    have hFrame : ∀ d ≠ r.dst, t₁.getEntry d = t.getEntry d := by
      intro d hd
      rw [hTable]
      exact t.getEntry_addEntry_ne hd
    have hHere : t₁.getEntry r.dst = some rte₁ := by
      rw [hTable]
      exact t.getEntry_addEntry_self
    have hFor : QueuedFor r.dst rte₁ := by
      intro p hp
      rw [hq, hKept] at hp
      cases hGet : t.getEntry r.dst with
      | none =>
          rw [hGet] at hp
          exact absurd hp List.not_mem_nil
      | some e =>
          rw [hGet] at hp
          exact hTidy.queued r.dst e hGet p hp
    split at hRest
    · refine flush_tidy ?_ hTidy hFrame hRest
      intro d e hGet
      by_cases hSame : d = r.dst
      · rw [hSame, hHere] at hGet
        cases hGet
        rw [hSame]
        exact hFor
      · rw [hFrame d hSame] at hGet
        exact hTidy.queued d e hGet
    next hWait =>
      cases hRest
      refine hTidy.of_frame hFrame hHere hFor fun _ => ?_
      have hBig : rte₁.q ≠ none → rte₁.metric = BIG := by
        intro hSome
        by_contra hRoute
        exact hWait ⟨hSome, hRoute⟩
      cases hGet : t.getEntry r.dst with
      | none =>
          rw [hGet] at hKept
          have hNone : rte₁.q = none := hq.trans hKept
          exact ⟨updateRoute_le hUpdate, fun _ => hNone,
            by simp [hNone], by simp [hNone]⟩
      | some e =>
          rw [hGet] at hKept
          exact (hTidy.entries r.dst hOther e hGet).rewrite
            (hq.trans hKept) (updateRoute_le hUpdate) hBig
  · -- the entry stays, unless the packets leave
    simp only [not_forall] at hBetter
    rcases hBetter with ⟨e, hGet, hWorse⟩
    rcases judge_worse now rte hGet hWorse with
      ⟨t₂, hStays, hFrame, e', hGet', hSame, hq⟩
    rw [hStays] at hJudge
    cases hJudge
    have hEnt := hTidy.entries r.dst hOther e hGet
    have hTidy' : Tidy own t₁ := by
      refine hTidy.of_frame hFrame hGet' ?_ fun _ => ?_
      · unfold QueuedFor
        rw [hq]
        exact hTidy.queued r.dst e hGet
      · refine hEnt.rewrite hq
          (hSame.metric.trans_le hEnt.metric_le) fun hSome => ?_
        rw [hSame.metric]
        exact hEnt.big (hq ▸ hSome)
    split at hRest
    · exact flush_tidy hTidy'.queued hTidy hFrame hRest
    · cases hRest
      exact hTidy'

theorem processUpdate_tidy
    {routes : List Advert}
    (hTidy : Tidy own t)
    (hProcess :
      t.processUpdate cfg own src now steps routes = some t') :
    Tidy own t' := by
  rcases Option.bind_eq_some_iff.mp hProcess with
    ⟨t₁, hRoutes, hHear⟩
  cases hHear
  apply hear_tidy
  clear hProcess
  induction routes generalizing t with
  | nil =>
      cases hRoutes
      exact hTidy
  | cons r routes ih =>
      rcases Option.bind_eq_some_iff.mp hRoutes with
        ⟨t₂, hFirst, hRest⟩
      exact ih (processAdvert_tidy hTidy hFirst) hRest

theorem Reach.tidy
    (hReach : Reach cfg own t) :
    Tidy own t := by
  induction hReach with
  | new => exact tidy_new
  | own seqno now advert_metric _ ih =>
      exact ih.addEntry (fun _ hp => absurd hp List.not_mem_nil)
        fun hOther => absurd rfl hOther
  | advertise full now _ ih => exact advertise_tidy ih
  | recv p now _ ih => exact recv_tidy ih
  | update src routes now steps _ hUpdate ih =>
      exact processUpdate_tidy ih hUpdate
  | timeout nbr now _ ih => exact helperCallback_tidy ih
  | lostLink next_hop p now _ ih => exact lostLink_tidy ih

end Dsdv

end Ns2
