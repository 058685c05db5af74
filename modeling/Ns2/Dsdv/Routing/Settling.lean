import Ns2.Dsdv.Routing.Flushing

/-
  What an update settles.

  Routes change for better ones of the update, and packets that
  are buffered leave along them.  A route that is not believed
  is not to be used, yet one that could be makes the packets
  leave where there is no route: a packet of the node itself
  comes back for ever.

  Main declarations:
    * `Brings`, `Settles`
    * `Held`, `Sits`, `heldAfter`

  Correctness is proven by:
    * `handAdvert_sits`, `sits_of_handAdvert`
    * `update_settles_iff`
-/

------------------------------------------------------------
-- What an Update Has to Do
------------------------------------------------------------

namespace Ns2

namespace Dsdv

/- The metric of a route, one hop further. -/
def told (r : Advert) : Nat :=
  if r.metric ≠ BIG then r.metric + 1 else r.metric

/- The entry has the route that is told. -/
structure Brings
    (src : Int)
    (r : Advert)
    (e : RtableEnt) : Prop where
  hop : e.hop = src
  metric : e.metric = told r
  seqnum : e.seqnum = r.seqnum

/- The packets that are buffered for a destination. -/
def buffered
    (t : RoutingTable)
    (d : Int) : List DataPacket :=
  ((t.getEntry d).bind (·.q)).getD []

def handedFor
    (d : Int)
    (hs : List Handed) : List DataPacket :=
  (hs.filter fun h => decide (h.dst = d)).map Handed.packet

/-
  Routes change for better ones of the update alone.  Packets
  are handed back where there is a route, each of them once,
  and those that are not stay buffered.
-/
structure Settles
    (own src : Int)
    (routes : List Advert)
    (t t' : RoutingTable)
    (hs : List Handed) : Prop where
  routes : ∀ d e, t.getEntry d = some e →
    ∃ e', t'.getEntry d = some e' ∧
      (SameRoute e e' ∨
        d ≠ own ∧ Better e' e ∧
          ∃ r ∈ routes, r.dst = d ∧ Brings src r e')
  handed : ∀ h ∈ hs, h.metric ≠ BIG
  kept : ∀ d, handedFor d hs ++ buffered t' d = buffered t d

/- What an entry says of its route, and if it has packets. -/
structure Held where
  seqnum : Nat
  metric : Nat
  kept : Bool
deriving DecidableEq

def held
    (t : RoutingTable)
    (d : Int) : Option Held :=
  (t.getEntry d).map fun e => ⟨e.seqnum, e.metric, e.q.isSome⟩

namespace Held

def Improves
    (h : Held)
    (r : Advert) : Prop :=
  h.seqnum < r.seqnum ∨
    h.seqnum = r.seqnum ∧ told r < h.metric

instance
    (h : Held)
    (r : Advert) :
    Decidable (h.Improves r) :=
  inferInstanceAs (Decidable (_ ∨ _))

/- What an entry says after a route was told. -/
def hear : Option Held → Advert → Option Held
| none, r => some ⟨r.seqnum, told r, false⟩
| some h, r =>
    if h.Improves r then
      some ⟨r.seqnum, told r, h.kept && decide (told r = BIG)⟩
    else some h

end Held

/-
  A route that is taken has a metric.  One that is not offers
  no way for packets that are buffered.
-/
def Sits : Option Held → Advert → Prop
| none, r => told r ≤ BIG
| some h, r =>
    if h.Improves r then told r ≤ BIG
    else h.kept = false ∨ told r = BIG

instance
    (h : Option Held)
    (r : Advert) :
    Decidable (Sits h r) := by
  cases h <;> unfold Sits <;> infer_instance

/- What the entry for `d` says after some routes of an update. -/
def heldAfter
    (t : RoutingTable)
    (routes : List Advert)
    (d : Int) : Option Held :=
  (routes.filter fun r => decide (r.dst = d)).foldl Held.hear
    (held t d)

variable {own src : Int}
variable {routes : List Advert}
variable {t t' t'' : RoutingTable}
variable {hs hs' : List Handed}

theorem Better.trans
    {e e' e'' : RtableEnt}
    (hFirst : Better e' e)
    (hNext : Better e'' e') :
    Better e'' e := by
  unfold Better at *
  omega

theorem Better.same
    {e e' e'' : RtableEnt}
    (hBetter : Better e' e)
    (hSame : SameRoute e' e'') :
    Better e'' e := by
  unfold Better at *
  rw [hSame.seqnum, hSame.metric]
  exact hBetter

theorem Better.of_same
    {e e' e'' : RtableEnt}
    (hSame : SameRoute e e')
    (hBetter : Better e'' e') :
    Better e'' e := by
  unfold Better at *
  rw [← hSame.seqnum, ← hSame.metric]
  exact hBetter

theorem Brings.same
    {r : Advert}
    {e e' : RtableEnt}
    (hBrings : Brings src r e)
    (hSame : SameRoute e e') :
    Brings src r e' :=
  ⟨hSame.hop.trans hBrings.hop,
    hSame.metric.trans hBrings.metric,
    hSame.seqnum.trans hBrings.seqnum⟩

theorem Settles.refl : Settles own src routes t t [] := by
  constructor
  case routes =>
    exact fun d e hGet => ⟨e, hGet, Or.inl (.refl e)⟩
  case handed =>
    intro h hh
    cases hh
  case kept => exact fun d => rfl

theorem Settles.trans
    (hFirst : Settles own src routes t t' hs)
    (hNext : Settles own src routes t' t'' hs') :
    Settles own src routes t t'' (hs ++ hs') := by
  constructor
  case routes =>
    intro d e hGet
    rcases hFirst.routes d e hGet with ⟨e', hGet', hRoute⟩
    rcases hNext.routes d e' hGet' with ⟨e'', hGet'', hRoute'⟩
    refine ⟨e'', hGet'', ?_⟩
    rcases hRoute' with hSame' | ⟨hOther, hBetter', hBrings'⟩
    · rcases hRoute with hSame | ⟨hOther, hBetter, r, hr, hd, hB⟩
      · exact Or.inl (hSame.trans hSame')
      · exact Or.inr ⟨hOther, hBetter.same hSame', r, hr, hd,
          hB.same hSame'⟩
    · rcases hRoute with hSame | ⟨_, hBetter, _⟩
      · exact Or.inr ⟨hOther, .of_same hSame hBetter', hBrings'⟩
      · exact Or.inr ⟨hOther, hBetter.trans hBetter', hBrings'⟩
  case handed =>
    intro h hh
    rcases List.mem_append.mp hh with hOld | hNew
    · exact hFirst.handed h hOld
    · exact hNext.handed h hNew
  case kept =>
    intro d
    unfold handedFor
    rw [List.filter_append, List.map_append, List.append_assoc]
    exact (congrArg _ (hNext.kept d)).trans (hFirst.kept d)

theorem Settles.mono
    {routes' : List Advert}
    (hSettles : Settles own src routes t t' hs)
    (hMore : routes ⊆ routes') :
    Settles own src routes' t t' hs := by
  constructor
  case routes =>
    intro d e hGet
    rcases hSettles.routes d e hGet with ⟨e', hGet', hRoute⟩
    refine ⟨e', hGet', hRoute.imp_right ?_⟩
    intro ⟨hOther, hBetter, r, hr, hRest⟩
    exact ⟨hOther, hBetter, r, hMore hr, hRest⟩
  case handed => exact hSettles.handed
  case kept => exact hSettles.kept

/- Hearing of a neighbor changes no route and no packets. -/
theorem hear_settles
    (cfg : Config)
    (now : Rat) :
    Settles own src routes t (t.hear cfg src now) [] := by
  unfold RoutingTable.hear
  cases hGet : t.getEntry src with
  | some prte =>
      constructor
      case routes =>
        intro d e hGet'
        by_cases hSame : d = src
        · subst hSame
          rw [hGet] at hGet'
          cases hGet'
          exact ⟨_, t.getEntry_addEntry_self,
            Or.inl ⟨rfl, rfl, rfl⟩⟩
        · exact ⟨e, (t.getEntry_addEntry_ne hSame).trans hGet',
            Or.inl (.refl e)⟩
      case handed =>
        intro h hh
        cases hh
      case kept =>
        intro d
        change buffered _ d = buffered t d
        unfold buffered
        rw [RoutingTable.getEntry_addEntry]
        split
        next hSame =>
          rw [hSame, hGet]
          rfl
        · rfl
  | none =>
      constructor
      case routes =>
        intro d e hGet'
        have hNe : d ≠ src := by
          intro hSame
          rw [hSame, hGet] at hGet'
          cases hGet'
        exact ⟨e, (t.getEntry_addEntry_ne hNe).trans hGet',
          Or.inl (.refl e)⟩
      case handed =>
        intro h hh
        cases hh
      case kept =>
        intro d
        change buffered _ d = buffered t d
        unfold buffered
        rw [RoutingTable.getEntry_addEntry]
        split
        next hSame =>
          rw [hSame, hGet]
          rfl
        · rfl

end Dsdv

end Ns2

------------------------------------------------------------
-- One Route of an Update
------------------------------------------------------------

namespace Ns2

namespace Dsdv

variable {cfg : Config}
variable {own src dst : Int}
variable {now : Rat}
variable {steps : Nat}
variable {t t' : RoutingTable}
variable {r : Advert}
variable {hs : List Handed}

/- Where there is a route a packet leaves the table alone. -/
theorem recv_routed
    {p : DataPacket}
    {e : RtableEnt}
    (hGet : t.getEntry p.daddr = some e)
    (hRoute : e.metric ≠ BIG) :
    t.recv cfg own now p = t := by
  unfold RoutingTable.recv
  cases hAccept : p.accept own with
  | none => rfl
  | some p' =>
      have hSame := accept_daddr hAccept
      dsimp only
      split
      · rfl
      · unfold RoutingTable.forwardPacket
        rw [hSame, hGet]
        exact if_pos hRoute

/- Then each packet is handed back once. -/
theorem handOver_routed
    (cfg : Config)
    (own : Int)
    (now : Rat)
    {e : RtableEnt}
    {q : List DataPacket}
    (hGet : t.getEntry dst = some e)
    (hRoute : e.metric ≠ BIG)
    (hq : e.q = some q)
    (hFor : ∀ p ∈ q, p.daddr = dst)
    (hSteps : q.length < steps) :
    ∃ t',
      t.handOver cfg own now dst steps =
        some (t', q.map fun p => ⟨dst, p, e.metric⟩) ∧
      ∀ d ≠ dst, t'.getEntry d = t.getEntry d := by
  induction q generalizing t e steps with
  | nil =>
      cases steps with
      | zero => exact absurd hSteps (Nat.not_lt_zero _)
      | succ steps =>
          refine ⟨t, ?_, fun _ _ => rfl⟩
          simp [RoutingTable.handOver, hGet, hq]
  | cons p rest ih =>
      cases steps with
      | zero => exact absurd hSteps (Nat.not_lt_zero _)
      | succ steps =>
          have hTaken :
              (t.addEntry dst
                { e with q := some rest }).getEntry dst =
                  some { e with q := some rest } :=
            t.getEntry_addEntry_self
          have hDaddr := hFor p List.mem_cons_self
          have hRecv :
              (t.addEntry dst { e with q := some rest }).recv
                  cfg own now p =
                t.addEntry dst { e with q := some rest } :=
            recv_routed (e := { e with q := some rest })
              (by rw [hDaddr]; exact hTaken) hRoute
          rcases ih hTaken hRoute rfl
              (fun p' hp' => hFor p' (List.mem_cons_of_mem _ hp'))
              (Nat.lt_of_succ_lt_succ hSteps) with
            ⟨t', hOver, hFrame⟩
          refine ⟨t', ?_, fun d hd => ?_⟩
          · simp only [RoutingTable.handOver, hGet, hq, hRecv,
              hOver]
            rfl
          · exact (hFrame d hd).trans
              (t.getEntry_addEntry_ne hd)

/- Otherwise the first is handed back without a route. -/
theorem handOver_first
    {e : RtableEnt}
    {p : DataPacket}
    {rest : List DataPacket}
    (hGet : t.getEntry dst = some e)
    (hq : e.q = some (p :: rest))
    (hOver :
      t.handOver cfg own now dst steps = some (t', hs)) :
    ⟨dst, p, e.metric⟩ ∈ hs := by
  cases steps with
  | zero => cases hOver
  | succ steps =>
      simp only [RoutingTable.handOver, hGet, hq] at hOver
      rcases Option.bind_eq_some_iff.mp hOver with
        ⟨⟨t₁, hs₁⟩, _, hPair⟩
      cases hPair
      exact List.mem_cons_self

/- What one route of an update does to the table. -/
structure Taken
    (own src : Int)
    (r : Advert)
    (t t' : RoutingTable)
    (hs : List Handed) : Prop where
  settles : Settles own src [r] t t' hs
  frame : ∀ d ≠ r.dst, t'.getEntry d = t.getEntry d
  heard : held t' r.dst = Held.hear (held t r.dst) r

/- Only the entry for one destination and its packets matter. -/
theorem settles_of_frame
    (hFrame : ∀ d ≠ r.dst, t'.getEntry d = t.getEntry d)
    (hRoute : ∀ e, t.getEntry r.dst = some e →
      ∃ e', t'.getEntry r.dst = some e' ∧
        (SameRoute e e' ∨
          r.dst ≠ own ∧ Better e' e ∧ Brings src r e'))
    (hHanded : ∀ h ∈ hs, h.dst = r.dst ∧ h.metric ≠ BIG)
    (hKept : hs.map Handed.packet ++ buffered t' r.dst =
      buffered t r.dst) :
    Settles own src [r] t t' hs := by
  constructor
  case routes =>
    intro d e hGet
    by_cases hSame : d = r.dst
    · subst hSame
      rcases hRoute e hGet with ⟨e', hGet', hChange⟩
      refine ⟨e', hGet', hChange.imp_right ?_⟩
      intro ⟨hOther, hBetter, hBrings⟩
      exact ⟨hOther, hBetter, r, List.mem_singleton_self r, rfl,
        hBrings⟩
    · exact ⟨e, (hFrame d hSame).trans hGet, Or.inl (.refl e)⟩
  case handed => exact fun h hh => (hHanded h hh).2
  case kept =>
    intro d
    unfold handedFor
    by_cases hSame : d = r.dst
    · subst hSame
      rw [List.filter_eq_self.mpr fun h hh =>
        decide_eq_true (hHanded h hh).1]
      exact hKept
    · have hNone :
          hs.filter (fun h => decide (h.dst = d)) = [] := by
        rw [List.filter_eq_nil_iff]
        intro h hh hDst
        exact hSame ((of_decide_eq_true hDst).symm.trans
          (hHanded h hh).1)
      rw [hNone]
      unfold buffered
      rw [hFrame d hSame]
      rfl

/- A route to a destination that was not in the table. -/
theorem handAdvert_new
    (cfg : Config)
    (now : Rat)
    (steps : Nat)
    (hOther : r.dst ≠ own)
    (hGet : t.getEntry r.dst = none)
    (hMetric : told r ≤ BIG) :
    ∃ t' hs,
      t.handAdvert cfg own src now steps r = some (t', hs) ∧
        Taken own src r t t' hs := by
  rcases judge_better t now r.dst
      (learn cfg src now none r)
      (fun e h => by rw [hGet] at h; cases h) with
    ⟨rte, hSame, hq, hJudge⟩
  have hLe : rte.metric ≤ BIG := hSame.metric.trans_le hMetric
  have hNone : rte.q = none := hq
  rw [updateRoute_some hLe] at hJudge
  have hHere :
      (t.addEntry r.dst rte).getEntry r.dst = some rte :=
    t.getEntry_addEntry_self
  have hFrame : ∀ d ≠ r.dst,
      (t.addEntry r.dst rte).getEntry d = t.getEntry d :=
    fun d hd => t.getEntry_addEntry_ne hd
  refine ⟨t.addEntry r.dst rte, [], ?_, ?_⟩
  · rw [RoutingTable.handAdvert, if_neg hOther, hGet]
    dsimp only
    rw [hJudge]
    simp [hNone]
  constructor
  case settles =>
    apply settles_of_frame hFrame
    · intro e h
      rw [hGet] at h
      cases h
    · intro h hh
      cases hh
    · simp [buffered, hGet, hHere, hNone]
  case frame => exact hFrame
  case heard =>
    have hSeqnum : rte.seqnum = r.seqnum := hSame.seqnum
    have hTold : rte.metric = told r := hSame.metric
    simp [held, hGet, hHere, Held.hear, hSeqnum, hTold, hNone]

/- A route that is not better, and offers nothing. -/
theorem handAdvert_worse
    (cfg : Config)
    (now : Rat)
    (steps : Nat)
    {e : RtableEnt}
    (hOther : r.dst ≠ own)
    (hGet : t.getEntry r.dst = some e)
    (hWorse :
      ¬Held.Improves ⟨e.seqnum, e.metric, e.q.isSome⟩ r)
    (hSits : e.q = none ∨ told r = BIG) :
    ∃ t' hs,
      t.handAdvert cfg own src now steps r = some (t', hs) ∧
        Taken own src r t t' hs := by
  rcases judge_worse now (learn cfg src now (some e) r)
      hGet hWorse with
    ⟨t', hJudge, hFrame, e', hGet', hSame, hq⟩
  have hNone :
      ¬((learn cfg src now (some e) r).q ≠ none ∧
        (learn cfg src now (some e) r).metric ≠ BIG) := by
    intro ⟨hSome, hRoute⟩
    rcases hSits with hEmpty | hBig
    · exact hSome hEmpty
    · exact hRoute hBig
  refine ⟨t', [], ?_, ?_⟩
  · rw [RoutingTable.handAdvert, if_neg hOther, hGet]
    dsimp only
    rw [hJudge]
    exact if_neg hNone
  constructor
  case settles =>
    apply settles_of_frame hFrame
    · intro e₁ h
      rw [hGet] at h
      cases h
      exact ⟨e', hGet', Or.inl hSame⟩
    · intro h hh
      cases hh
    · simp [buffered, hGet, hGet', hq]
  case frame => exact hFrame
  case heard =>
    simp only [held, hGet, hGet', Option.map_some, Held.hear,
      if_neg hWorse, hSame.seqnum, hSame.metric, hq]

/- A better route, along which the packets leave. -/
theorem handAdvert_better
    (cfg : Config)
    (now : Rat)
    {e : RtableEnt}
    (hOther : r.dst ≠ own)
    (hTidy : Tidy own t)
    (hGet : t.getEntry r.dst = some e)
    (hBetter :
      Held.Improves ⟨e.seqnum, e.metric, e.q.isSome⟩ r)
    (hMetric : told r ≤ BIG)
    (hSteps : MAX_QUEUE_LENGTH < steps) :
    ∃ t' hs,
      t.handAdvert cfg own src now steps r = some (t', hs) ∧
        Taken own src r t t' hs := by
  have hEnt := hTidy.entries r.dst hOther e hGet
  have hFor := hTidy.queued r.dst e hGet
  rcases judge_better t now r.dst
      (learn cfg src now (some e) r)
      (fun e' h => by
        rw [hGet] at h
        cases h
        exact hBetter) with
    ⟨rte, hSame, hq, hJudge⟩
  have hLe : rte.metric ≤ BIG := hSame.metric.trans_le hMetric
  change rte.q = e.q at hq
  have hBrings : Brings src r rte :=
    ⟨hSame.hop, hSame.metric, hSame.seqnum⟩
  have hBetter' : Better rte e := by
    unfold Better
    rw [hBrings.seqnum, hBrings.metric]
    exact hBetter
  rw [updateRoute_some hLe] at hJudge
  have hHere :
      (t.addEntry r.dst rte).getEntry r.dst = some rte :=
    t.getEntry_addEntry_self
  by_cases hFlush : rte.q ≠ none ∧ rte.metric ≠ BIG
  · -- the queue is emptied, as there is a route now
    rcases Option.ne_none_iff_exists'.mp hFlush.1 with ⟨q, hSome⟩
    have hAll : ∀ p ∈ q, p.daddr = r.dst := by
      intro p hp
      apply hFor p
      rw [← hq, hSome]
      exact hp
    have hLength : q.length < steps := by
      have hShort := hEnt.q_length
      rw [← hq, hSome] at hShort
      exact lt_of_le_of_lt hShort hSteps
    rcases handOver_routed cfg own now hHere hFlush.2 hSome hAll hLength with
      ⟨t₁, hOver, hFrame₁⟩
    have hFrame : ∀ d ≠ r.dst,
        (t₁.addEntry r.dst { rte with q := none }).getEntry d =
          t.getEntry d :=
      fun d hd => (t₁.getEntry_addEntry_ne hd).trans
        ((hFrame₁ d hd).trans (t.getEntry_addEntry_ne hd))
    have hLast :
        (t₁.addEntry r.dst { rte with q := none }).getEntry
            r.dst = some { rte with q := none } :=
      t₁.getEntry_addEntry_self
    refine ⟨t₁.addEntry r.dst { rte with q := none },
      q.map fun p => ⟨r.dst, p, rte.metric⟩, ?_, ?_⟩
    · rw [RoutingTable.handAdvert, if_neg hOther, hGet]
      dsimp only
      rw [hJudge]
      have hWrite :
          t₁.updateRoute r.dst { rte with q := none } =
            some (t₁.addEntry r.dst { rte with q := none }) :=
        if_pos hLe
      simp only [Option.map_some, Option.bind_eq_bind,
        Option.bind_some]
      rw [if_pos hFlush, hOver, Option.bind_some]
      dsimp only
      rw [hWrite]
      rfl
    constructor
    case settles =>
      apply settles_of_frame hFrame
      · intro e₁ h
        rw [hGet] at h
        cases h
        exact ⟨_, hLast, Or.inr ⟨hOther, hBetter',
          hBrings.same ⟨rfl, rfl, rfl⟩⟩⟩
      · intro h hh
        rcases List.mem_map.mp hh with ⟨p, _, rfl⟩
        exact ⟨rfl, hFlush.2⟩
      · have hQueue : e.q = some q := hq.symm.trans hSome
        simp [buffered, hGet, hLast, hQueue, Function.comp_def]
    case frame => exact hFrame
    case heard =>
      have hRoute : told r ≠ BIG := hBrings.metric ▸ hFlush.2
      have hLeft :
          held (t₁.addEntry r.dst { rte with q := none }) r.dst =
            some ⟨rte.seqnum, rte.metric, false⟩ := by
        rw [held, hLast]
        rfl
      rw [hLeft, hBrings.seqnum, hBrings.metric]
      simp only [held, hGet, Option.map_some, Held.hear,
        if_pos hBetter, decide_eq_false hRoute, Bool.and_false]
  · have hFrame : ∀ d ≠ r.dst,
        (t.addEntry r.dst rte).getEntry d = t.getEntry d :=
      fun d hd => t.getEntry_addEntry_ne hd
    refine ⟨t.addEntry r.dst rte, [], ?_, ?_⟩
    · rw [RoutingTable.handAdvert, if_neg hOther, hGet]
      dsimp only
      rw [hJudge]
      exact if_neg hFlush
    constructor
    case settles =>
      apply settles_of_frame hFrame
      · intro e₁ h
        rw [hGet] at h
        cases h
        exact ⟨rte, hHere,
          Or.inr ⟨hOther, hBetter', hBrings⟩⟩
      · intro h hh
        cases hh
      · simp [buffered, hGet, hHere, hq]
    case frame => exact hFrame
    case heard =>
      have hKept :
          rte.q.isSome =
            (e.q.isSome && decide (told r = BIG)) := by
        rw [← hq, ← hBrings.metric]
        cases hQueue : rte.q with
        | none => rfl
        | some q =>
            have hBig : rte.metric = BIG := by
              by_contra hRoute
              exact hFlush ⟨by rw [hQueue]; simp, hRoute⟩
            simp [hBig]
      simp only [held, hGet, hHere, Option.map_some, Held.hear,
        if_pos hBetter, hBrings.seqnum, hBrings.metric, hKept]

/- An update that sits is worked off. -/
theorem handAdvert_sits
    (cfg : Config)
    (src : Int)
    (now : Rat)
    (hOther : r.dst ≠ own)
    (hTidy : Tidy own t)
    (hSits : Sits (held t r.dst) r)
    (hSteps : MAX_QUEUE_LENGTH < steps) :
    ∃ t' hs,
      t.handAdvert cfg own src now steps r = some (t', hs) ∧
        Taken own src r t t' hs := by
  cases hGet : t.getEntry r.dst with
  | none =>
      rw [held, hGet] at hSits
      exact handAdvert_new cfg now steps hOther hGet hSits
  | some e =>
      rw [held, hGet] at hSits
      simp only [Option.map_some, Sits] at hSits
      split at hSits
      next hBetter =>
        exact handAdvert_better cfg now hOther hTidy hGet hBetter
          hSits hSteps
      next hWorse =>
        exact handAdvert_worse cfg now steps hOther hGet hWorse
          (hSits.imp_left fun hEmpty => by simpa using hEmpty)

/- And one whose packets all have a route sits. -/
theorem sits_of_handAdvert
    (hOther : r.dst ≠ own)
    (hTidy : Tidy own t)
    (hAdvert :
      t.handAdvert cfg own src now steps r = some (t', hs))
    (hRouted : ∀ h ∈ hs, h.metric ≠ BIG) :
    Sits (held t r.dst) r := by
  rw [RoutingTable.handAdvert, if_neg hOther] at hAdvert
  rcases Option.bind_eq_some_iff.mp hAdvert with
    ⟨⟨t₁, rte₁⟩, hJudge, hRest⟩
  dsimp only at hRest
  cases hGet : t.getEntry r.dst with
  | none =>
      rw [hGet] at hJudge
      rcases judge_better t now r.dst
          (learn cfg src now none r)
          (fun e h => by rw [hGet] at h; cases h) with
        ⟨rte, hSame, _, hWritten⟩
      rw [hWritten] at hJudge
      rcases Option.map_eq_some_iff.mp hJudge with
        ⟨t₂, hUpdate, _⟩
      have hMetric : rte.metric = told r := hSame.metric
      rw [held, hGet]
      change told r ≤ BIG
      exact hMetric ▸ updateRoute_le hUpdate
  | some e =>
      rw [hGet] at hJudge
      rw [held, hGet]
      simp only [Option.map_some, Sits]
      by_cases hBetter :
          Held.Improves ⟨e.seqnum, e.metric, e.q.isSome⟩ r
      · rw [if_pos hBetter]
        rcases judge_better t now r.dst
            (learn cfg src now (some e) r)
            (fun e' h => by
              rw [hGet] at h
              cases h
              exact hBetter) with
          ⟨rte, hSame, _, hWritten⟩
        rw [hWritten] at hJudge
        rcases Option.map_eq_some_iff.mp hJudge with
          ⟨t₂, hUpdate, _⟩
        have hMetric : rte.metric = told r := hSame.metric
        exact hMetric ▸ updateRoute_le hUpdate
      · rw [if_neg hBetter]
        rcases judge_worse now
            (learn cfg src now (some e) r) hGet hBetter with
          ⟨t₂, hStays, _, e', hGet', hSame, hq⟩
        rw [hStays] at hJudge
        cases hJudge
        cases hQueue : e.q with
        | none => exact Or.inl rfl
        | some q =>
            right
            by_contra hRoute
            -- the first packet finds that there is no route
            have hEnt := hTidy.entries r.dst hOther e hGet
            rw [if_pos ⟨show e.q ≠ none by simp [hQueue],
              hRoute⟩] at hRest
            rcases Option.bind_eq_some_iff.mp hRest with
              ⟨⟨t₃, hs₃⟩, hOver, hWrite⟩
            rcases Option.bind_eq_some_iff.mp hWrite with
              ⟨t₄, _, hPair⟩
            cases hPair
            cases q with
            | nil => exact hEnt.q_nonempty hQueue
            | cons p rest =>
                have hFirst := handOver_first hGet'
                  (hq.trans hQueue) hOver
                apply hRouted _ hFirst
                exact hSame.metric.trans
                  (hEnt.big (by simp [hQueue]))

end Dsdv

end Ns2

------------------------------------------------------------
-- Whole Updates
------------------------------------------------------------

namespace Ns2

namespace Dsdv

variable {cfg : Config}
variable {own src dst : Int}
variable {now : Rat}
variable {steps : Nat}
variable {t t' : RoutingTable}
variable {r : Advert}
variable {routes : List Advert}
variable {hs : List Handed}

/- More steps than were needed are no harm. -/
theorem handOver_mono
    {more : Nat}
    {x : RoutingTable × List Handed}
    (hOver : t.handOver cfg own now dst steps = some x)
    (hMore : steps ≤ more) :
    t.handOver cfg own now dst more = some x := by
  induction steps generalizing t x more with
  | zero => cases hOver
  | succ steps ih =>
      cases more with
      | zero => exact absurd hMore (Nat.not_succ_le_zero _)
      | succ more =>
          unfold RoutingTable.handOver at hOver ⊢
          cases hGet : t.getEntry dst with
          | none =>
              rw [hGet] at hOver
              exact hOver
          | some e =>
              rw [hGet] at hOver
              dsimp only at hOver ⊢
              split at hOver
              next p rest hq =>
                rcases Option.bind_eq_some_iff.mp hOver with
                  ⟨y, hNext, hPair⟩
                have hNext' := ih hNext (Nat.le_of_succ_le_succ hMore)
                rw [hNext']
                exact hPair
              next hNone => exact hOver

theorem handAdvert_mono
    {more : Nat}
    {x : RoutingTable × List Handed}
    (hAdvert : t.handAdvert cfg own src now steps r = some x)
    (hMore : steps ≤ more) :
    t.handAdvert cfg own src now more r = some x := by
  unfold RoutingTable.handAdvert at hAdvert ⊢
  by_cases hOwn : r.dst = own
  · rw [if_pos hOwn] at hAdvert ⊢
    exact hAdvert
  · rw [if_neg hOwn] at hAdvert ⊢
    rcases Option.bind_eq_some_iff.mp hAdvert with
      ⟨⟨t₁, rte⟩, hJudge, hRest⟩
    dsimp only at hJudge hRest ⊢
    rw [hJudge]
    dsimp only [Option.bind_eq_bind, Option.bind_some]
    split at hRest
    next hSend =>
      rcases Option.bind_eq_some_iff.mp hRest with
        ⟨y, hOver, hWrite⟩
      rw [if_pos hSend, handOver_mono hOver hMore]
      exact hWrite
    next hWait =>
      rw [if_neg hWait]
      exact hRest

theorem handAdverts_mono
    {more : Nat}
    {x : RoutingTable × List Handed}
    (hAdverts :
      t.handAdverts cfg own src now steps routes = some x)
    (hMore : steps ≤ more) :
    t.handAdverts cfg own src now more routes = some x := by
  induction routes generalizing t x with
  | nil => exact hAdverts
  | cons r routes ih =>
      rcases Option.bind_eq_some_iff.mp hAdverts with
        ⟨⟨t₁, hs₁⟩, hFirst, hRest⟩
      rcases Option.bind_eq_some_iff.mp hRest with
        ⟨⟨t₂, hs₂⟩, hLater, hPair⟩
      rw [RoutingTable.handAdverts,
        handAdvert_mono hFirst hMore]
      dsimp only [Option.bind_eq_bind, Option.bind_some]
      rw [ih hLater]
      exact hPair

/- Each route sits, after those of the update before it. -/
def SitAll
    (own : Int)
    (t : RoutingTable)
    (routes : List Advert) : Prop :=
  ∀ pre r post, routes = pre ++ r :: post →
    r.dst ≠ own → Sits (heldAfter t pre r.dst) r

/- What the entries say is heard from a route of an update. -/
def Heard
    (own : Int)
    (r : Advert)
    (t t' : RoutingTable) : Prop :=
  ∀ d ≠ own, held t' d =
    if r.dst = d then Held.hear (held t d) r else held t d

theorem Taken.heard_all
    (hTaken : Taken own src r t t' hs) :
    Heard own r t t' := by
  intro d _
  split
  next hSame =>
    rw [← hSame]
    exact hTaken.heard
  next hOther =>
    unfold held
    rw [hTaken.frame d (Ne.symm hOther)]

theorem heard_own
    (hOwn : r.dst = own) :
    Heard own r t t := by
  intro d hd
  rw [if_neg]
  intro hSame
  exact hd (hSame.symm.trans hOwn)

theorem Heard.heldAfter
    {d : Int}
    {pre : List Advert}
    (hHeard : Heard own r t t')
    (hd : d ≠ own) :
    heldAfter t (r :: pre) d = heldAfter t' pre d := by
  unfold Dsdv.heldAfter
  rw [hHeard d hd]
  by_cases hSame : r.dst = d
  · simp [hSame]
  · simp [hSame]

theorem sitAll_cons
    (hHeard : Heard own r t t') :
    SitAll own t (r :: routes) ↔
      (r.dst ≠ own → Sits (held t r.dst) r) ∧
        SitAll own t' routes := by
  constructor
  · intro hAll
    constructor
    · exact hAll [] r routes rfl
    · intro pre r' post hSplit hOther
      rw [← hHeard.heldAfter hOther]
      exact hAll (r :: pre) r' post
        (congrArg (List.cons r) hSplit) hOther
  · intro ⟨hFirst, hRest⟩ pre r' post hSplit hOther
    cases pre with
    | nil =>
        cases hSplit
        exact hFirst hOther
    | cons r'' pre =>
        rw [List.cons_append, List.cons.injEq] at hSplit
        rcases hSplit with ⟨rfl, hSplit⟩
        rw [hHeard.heldAfter hOther]
        exact hRest pre r' post hSplit hOther

theorem handAdvert_own
    (hOwn : r.dst = own) :
    t.handAdvert cfg own src now steps r = some (t, []) :=
  if_pos hOwn

theorem handAdvert_tidy
    (hTidy : Tidy own t)
    (hAdvert :
      t.handAdvert cfg own src now steps r = some (t', hs)) :
    Tidy own t' := by
  apply processAdvert_tidy (r := r) hTidy
  rw [← handAdvert_eq, hAdvert]
  rfl

/- An update whose routes sit is worked off and settles. -/
theorem SitAll.settles
    (cfg : Config)
    (src : Int)
    (now : Rat)
    (hTidy : Tidy own t)
    (hAll : SitAll own t routes)
    (hSteps : MAX_QUEUE_LENGTH < steps) :
    ∃ t' hs,
      t.handAdverts cfg own src now steps routes =
          some (t', hs) ∧
        Settles own src routes t t' hs := by
  induction routes generalizing t with
  | nil => exact ⟨t, [], rfl, .refl⟩
  | cons r routes ih =>
      have hFirst : ∃ t₁ hs₁,
          t.handAdvert cfg own src now steps r =
              some (t₁, hs₁) ∧
            Settles own src [r] t t₁ hs₁ ∧
              Heard own r t t₁ := by
        by_cases hOwn : r.dst = own
        · exact ⟨t, [], handAdvert_own hOwn, .refl,
            heard_own hOwn⟩
        · rcases handAdvert_sits cfg src now hOwn hTidy
              (hAll [] r routes rfl hOwn) hSteps with
            ⟨t₁, hs₁, hAdvert, hTaken⟩
          exact ⟨t₁, hs₁, hAdvert, hTaken.settles,
            hTaken.heard_all⟩
      rcases hFirst with ⟨t₁, hs₁, hAdvert, hSettles, hHeard⟩
      rcases ih (handAdvert_tidy hTidy hAdvert)
          ((sitAll_cons hHeard).mp hAll).2 with
        ⟨t₂, hs₂, hAdverts, hSettles'⟩
      refine ⟨t₂, hs₁ ++ hs₂, ?_, ?_⟩
      · rw [RoutingTable.handAdverts, hAdvert]
        dsimp only [Option.bind_eq_bind, Option.bind_some]
        rw [hAdverts]
        rfl
      · exact (hSettles.mono (by simp)).trans
          (hSettles'.mono (by simp))

theorem sitAll_of_handAdverts
    (hTidy : Tidy own t)
    (hSteps : MAX_QUEUE_LENGTH < steps)
    (hAdverts :
      t.handAdverts cfg own src now steps routes =
        some (t', hs))
    (hRouted : ∀ h ∈ hs, h.metric ≠ BIG) :
    SitAll own t routes := by
  induction routes generalizing t t' hs with
  | nil =>
      intro pre r post hSplit
      simp at hSplit
  | cons r routes ih =>
      rcases Option.bind_eq_some_iff.mp hAdverts with
        ⟨⟨t₁, hs₁⟩, hFirst, hRest⟩
      rcases Option.bind_eq_some_iff.mp hRest with
        ⟨⟨t₂, hs₂⟩, hLater, hPair⟩
      cases hPair
      have hAfter := ih (handAdvert_tidy hTidy hFirst) hLater
        fun h hh => hRouted h (List.mem_append_right _ hh)
      by_cases hOwn : r.dst = own
      · rw [handAdvert_own hOwn] at hFirst
        cases hFirst
        exact (sitAll_cons (heard_own hOwn)).mpr
          ⟨fun hOther => absurd hOwn hOther, hAfter⟩
      · have hSits := sits_of_handAdvert hOwn hTidy hFirst
          fun h hh => hRouted h (List.mem_append_left _ hh)
        rcases handAdvert_sits cfg src now hOwn hTidy
            hSits hSteps with
          ⟨t₃, hs₃, hAdvert, hTaken⟩
        rw [hFirst] at hAdvert
        cases hAdvert
        exact (sitAll_cons hTaken.heard_all).mpr
          ⟨fun _ => hSits, hAfter⟩

/-
  An update is worked off as it should be if and only if each
  route that is taken has a metric, and each that is not offers
  no way for packets that are buffered.
-/
theorem update_settles_iff
    (hReach : Reach cfg own t) :
    (∃ steps t' hs,
        t.handUpdate cfg own src now steps routes =
            some (t', hs) ∧
          Settles own src routes t t' hs) ↔
      SitAll own t routes := by
  constructor
  · intro ⟨steps, t', hs, hUpdate, hSettles⟩
    rcases Option.bind_eq_some_iff.mp hUpdate with
      ⟨⟨t₁, hs₁⟩, hAdverts, hPair⟩
    cases hPair
    have hLonger := handAdverts_mono hAdverts
      (Nat.le_add_right steps (MAX_QUEUE_LENGTH + 1))
    exact sitAll_of_handAdverts hReach.tidy (by omega) hLonger
      hSettles.handed
  · intro hAll
    rcases hAll.settles cfg src now hReach.tidy
        (Nat.lt_succ_self MAX_QUEUE_LENGTH) with
      ⟨t₁, hs, hAdverts, hSettles⟩
    refine ⟨MAX_QUEUE_LENGTH + 1, t₁.hear cfg src now, hs, ?_, ?_⟩
    · unfold RoutingTable.handUpdate
      rw [hAdverts]
      rfl
    · have hBoth := hSettles.trans
        (hear_settles cfg now)
      rw [List.append_nil] at hBoth
      exact hBoth

/- A packet for node 3, which node 1 sends. -/
def ownPacket : DataPacket := ⟨1, 3, 32, 0⟩

/- There is a route to node 3, and the packet leaves. -/
theorem update_settles_waiting :
    ∃ steps t' hs,
      (RoutingTable.recv ⟨7 / 8, 6⟩ 1 0 .new
          ownPacket).handUpdate ⟨7 / 8, 6⟩ 1 2 1 steps
            [⟨3, 1, 4⟩] = some (t', hs) ∧
        Settles 1 2 [⟨3, 1, 4⟩]
          (RoutingTable.recv ⟨7 / 8, 6⟩ 1 0 .new ownPacket)
          t' hs := by
  refine (update_settles_iff (.recv ownPacket 0 .new)).mpr ?_
  intro pre r post hSplit _
  rcases List.singleton_eq_append_iff.mp hSplit with
    ⟨rfl, hRest⟩ | ⟨_, hNone⟩
  · cases hRest
    decide +kernel
  · cases hNone

/-
  An own packet gets a new time to live, and joins the queue
  again for as long as there is no route.
-/
theorem handOver_loops
    {e : RtableEnt}
    {p : DataPacket}
    {rest : List DataPacket}
    (hGet : t.getEntry dst = some e)
    (hBig : e.metric = BIG)
    (hq : e.q = some (p :: rest))
    (hOwn : ∀ p' ∈ p :: rest,
      p'.saddr = own ∧ p'.num_forwards = 0 ∧ p'.daddr = dst)
    (hDst : dst ≠ IP_BROADCAST) :
    t.handOver cfg own now dst steps = none := by
  induction steps generalizing t e p rest with
  | zero => rfl
  | succ steps ih =>
      rcases hOwn p List.mem_cons_self with
        ⟨hSaddr, hForwards, hDaddr⟩
      have hTaken :
          (t.addEntry dst
            { e with q := some rest }).getEntry dst =
              some { e with q := some rest } :=
        t.getEntry_addEntry_self
      have hRecv :
          (t.addEntry dst { e with q := some rest }).recv
              cfg own now p =
            (t.addEntry dst { e with q := some rest }).addEntry
              dst { e with
                q := some (enque rest
                  { p with ttl := IP_DEF_TTL }) } := by
        unfold RoutingTable.recv DataPacket.accept
        rw [if_pos ⟨hSaddr, hForwards⟩]
        dsimp only
        rw [hDaddr, if_neg hDst]
        unfold RoutingTable.forwardPacket
        dsimp only
        rw [hTaken]
        exact if_neg (not_not.mpr hBig)
      simp only [RoutingTable.handOver, hGet, hq, hRecv]
      cases hQueue :
          enque rest { p with ttl := IP_DEF_TTL } with
      | nil => exact absurd hQueue (enque_nonempty rest)
      | cons p₁ rest₁ =>
          have hAgain :
              ((t.addEntry dst
                { e with q := some rest }).addEntry dst
                  { e with q := some (p₁ :: rest₁) }).getEntry
                    dst = some { e with q := some (p₁ :: rest₁) } :=
            RoutingTable.getEntry_addEntry_self _
          have hOwn₁ : ∀ p' ∈ p₁ :: rest₁,
              p'.saddr = own ∧ p'.num_forwards = 0 ∧
                p'.daddr = dst := by
            intro p' hp'
            rw [← hQueue] at hp'
            rcases mem_enque hp' with hOld | hNew
            · exact hOwn p' (List.mem_cons_of_mem _ hOld)
            · rw [hNew]
              exact ⟨hSaddr, hForwards, hDaddr⟩
          rw [ih hAgain hBig rfl hOwn₁]
          rfl

/- So an update that is not believed is never worked off. -/
theorem handAdvert_loops
    {e : RtableEnt}
    {p : DataPacket}
    {rest : List DataPacket}
    (hOther : r.dst ≠ own)
    (hGet : t.getEntry r.dst = some e)
    (hBig : e.metric = BIG)
    (hq : e.q = some (p :: rest))
    (hOwn : ∀ p' ∈ p :: rest,
      p'.saddr = own ∧ p'.num_forwards = 0 ∧ p'.daddr = r.dst)
    (hDst : r.dst ≠ IP_BROADCAST)
    (hWorse :
      ¬Held.Improves ⟨e.seqnum, e.metric, e.q.isSome⟩ r)
    (hRoute : told r ≠ BIG) :
    t.handAdvert cfg own src now steps r = none := by
  rcases judge_worse now (learn cfg src now (some e) r)
      hGet hWorse with
    ⟨t', hJudge, _, e', hGet', hSame, hq'⟩
  have hSend :
      (learn cfg src now (some e) r).q ≠ none ∧
        (learn cfg src now (some e) r).metric ≠ BIG :=
    ⟨show e.q ≠ none by simp [hq], hRoute⟩
  rw [RoutingTable.handAdvert, if_neg hOther, hGet]
  dsimp only
  rw [hJudge]
  dsimp only [Option.bind_eq_bind, Option.bind_some]
  rw [if_pos hSend,
    handOver_loops hGet' (hSame.metric.trans hBig)
      (hq'.trans hq) hOwn hDst]
  rfl

/-
  Node 2 tells of node 3 and is lost.  A packet for node 3 then
  waits, and node 4 tells of the route that was through node 2.
-/
theorem update_never_ends :
    ∃ cfg own src now t routes,
      Reach cfg own t ∧ src ≠ own ∧
        ∀ steps,
          t.handUpdate cfg own src now steps routes =
            none := by
  have hRun :
      (RoutingTable.processUpdate ⟨7 / 8, 6⟩ 1 2 0 6 .new
          [⟨3, 1, 4⟩]).map (fun t =>
        (((t.helperCallback 2 1).recv ⟨7 / 8, 6⟩ 1 2
            ownPacket).getEntry 3).map fun e =>
          (e.seqnum, e.metric, e.q)) =
        some (some (5, 250, some [ownPacket])) := by
    decide +kernel
  rcases Option.map_eq_some_iff.mp hRun with
    ⟨t, hUpdate, hEntry⟩
  rcases Option.map_eq_some_iff.mp hEntry with ⟨e, hGet, hThere⟩
  rcases Prod.mk.inj hThere with ⟨hSeqnum, hOthers⟩
  rcases Prod.mk.inj hOthers with ⟨hMetric, hq⟩
  refine ⟨_, 1, 4, 3, _, [⟨3, 2, 4⟩],
    .recv ownPacket 2
      (.timeout 2 1 (.update 2 [⟨3, 1, 4⟩] 0 6 .new hUpdate)),
    by decide, fun steps => ?_⟩
  have hLoops :
      RoutingTable.handAdvert ⟨7 / 8, 6⟩ 1 4 3 steps
        ((t.helperCallback 2 1).recv ⟨7 / 8, 6⟩ 1 2 ownPacket)
        ⟨3, 2, 4⟩ = none :=
    handAdvert_loops (by decide) hGet hMetric hq
      (by simp [ownPacket]) (by decide)
      (by rw [hSeqnum, hMetric, hq]; decide) (by decide)
  unfold RoutingTable.handUpdate RoutingTable.handAdverts
  rw [hLoops]
  rfl

end Dsdv

end Ns2
