import Ns2.Dsdv.Routing.Operations

/-
  How a routing table changes.

  The route to a destination gets a larger sequence number, or
  keeps it and gets no longer.  A route that was not there
  before is one that a neighbor told of, or leads to a neighbor.
  This holds of an update only where no route is put back that
  was not taken: at the end of each destination the packets
  that were kept are sent, and the route of the update is
  written even if an older or a longer one.

  Main declarations:
    * `RtableEnt.Ahead`, `SameRoute`
    * `Queued`, `Advances`
    * `Accepted`
    * `processUpdate_advances`
-/

------------------------------------------------------------
-- Routes
------------------------------------------------------------

namespace Ns2

namespace Dsdv

/- An entry is as good as a route with these numbers. -/
def RtableEnt.Ahead
    (e : RtableEnt)
    (seqnum metric : Nat) : Prop :=
  seqnum < e.seqnum ∨ seqnum = e.seqnum ∧ e.metric ≤ metric

structure SameRoute (e e' : RtableEnt) : Prop where
  hop : e'.hop = e.hop
  metric : e'.metric = e.metric
  seqnum : e'.seqnum = e.seqnum

theorem RtableEnt.Ahead.trans
    {e e' : RtableEnt}
    {seqnum metric : Nat}
    (hFirst : e.Ahead seqnum metric)
    (hNext : e'.Ahead e.seqnum e.metric) :
    e'.Ahead seqnum metric := by
  unfold RtableEnt.Ahead at *
  omega

theorem RtableEnt.ahead_self (e : RtableEnt) :
    e.Ahead e.seqnum e.metric :=
  Or.inr ⟨rfl, Nat.le_refl _⟩

theorem SameRoute.refl (e : RtableEnt) :
    SameRoute e e :=
  ⟨rfl, rfl, rfl⟩

theorem SameRoute.trans
    {e₁ e₂ e₃ : RtableEnt}
    (hFirst : SameRoute e₁ e₂)
    (hNext : SameRoute e₂ e₃) :
    SameRoute e₁ e₃ :=
  ⟨hNext.hop.trans hFirst.hop,
    hNext.metric.trans hFirst.metric,
    hNext.seqnum.trans hFirst.seqnum⟩

theorem SameRoute.ahead
    {e e' : RtableEnt}
    (hSame : SameRoute e e') :
    e'.Ahead e.seqnum e.metric :=
  Or.inr ⟨hSame.seqnum.symm, Nat.le_of_eq hSame.metric⟩

/- Packets are kept with the entry for their destination. -/
def QueuedFor
    (dst : Int)
    (e : RtableEnt) : Prop :=
  ∀ p ∈ e.q.getD [], p.daddr = dst

def Queued (t : RoutingTable) : Prop :=
  ∀ dst e, t.getEntry dst = some e → QueuedFor dst e

/-
  From `t` to `t'` the routes to all but `own` do not fall
  behind, and those that are new are `Learned`.
-/
structure Advances
    (own : Int)
    (Learned : Int → RtableEnt → Prop)
    (t t' : RoutingTable) : Prop where
  ahead :
    ∀ d ≠ own, ∀ e, t.getEntry d = some e →
      ∃ e', t'.getEntry d = some e' ∧
        e'.Ahead e.seqnum e.metric
  origin :
    ∀ d ≠ own, ∀ e', t'.getEntry d = some e' →
      e'.metric ≠ BIG →
        (∃ e, t.getEntry d = some e ∧ SameRoute e e') ∨
          Learned d e'
  queued : Queued t → Queued t'

variable {own : Int}
variable {Learned : Int → RtableEnt → Prop}
variable {t t' t'' : RoutingTable}

theorem Advances.refl : Advances own Learned t t := by
  constructor
  case ahead =>
    exact fun d _ e hGet => ⟨e, hGet, e.ahead_self⟩
  case origin =>
    exact fun d _ e hGet _ => Or.inl ⟨e, hGet, .refl e⟩
  case queued => exact id

theorem Advances.trans
    (hFirst : Advances own Learned t t')
    (hNext : Advances own Learned t' t'')
    (hRoute : ∀ d e e', Learned d e → SameRoute e e' →
      Learned d e') :
    Advances own Learned t t'' := by
  constructor
  case ahead =>
    intro d hd e hGet
    rcases hFirst.ahead d hd e hGet with ⟨e₁, hGet₁, hAhead₁⟩
    rcases hNext.ahead d hd e₁ hGet₁ with ⟨e₂, hGet₂, hAhead₂⟩
    exact ⟨e₂, hGet₂, hAhead₁.trans hAhead₂⟩
  case origin =>
    intro d hd e'' hGet'' hRoute''
    rcases hNext.origin d hd e'' hGet'' hRoute''
      with ⟨e', hGet', hSame'⟩ | hLearned
    · have hMetric : e'.metric ≠ BIG := by
        rw [← hSame'.metric]
        exact hRoute''
      rcases hFirst.origin d hd e' hGet' hMetric
        with ⟨e, hGet, hSame⟩ | hLearned
      · exact Or.inl ⟨e, hGet, hSame.trans hSame'⟩
      · exact Or.inr (hRoute d e' e'' hLearned hSame')
    · exact Or.inr hLearned
  case queued => exact fun h => hNext.queued (hFirst.queued h)

/- More may be learned. -/
theorem Advances.mono
    {Learned' : Int → RtableEnt → Prop}
    (hMore : ∀ d e, Learned d e → Learned' d e)
    (hStep : Advances own Learned t t') :
    Advances own Learned' t t' :=
  ⟨hStep.ahead,
    fun d hd e' hGet hMetric =>
      (hStep.origin d hd e' hGet hMetric).imp_right
        (hMore d e'),
    hStep.queued⟩

/- What an entry that is added has to be. -/
theorem advances_addEntry
    {dst : Int}
    {ent : RtableEnt}
    (hAhead : dst ≠ own → ∀ e, t.getEntry dst = some e →
      ent.Ahead e.seqnum e.metric)
    (hOrigin : dst ≠ own → ent.metric ≠ BIG →
      (∃ e, t.getEntry dst = some e ∧ SameRoute e ent) ∨
        Learned dst ent)
    (hQueued : Queued t → QueuedFor dst ent) :
    Advances own Learned t (t.addEntry dst ent) := by
  constructor
  case ahead =>
    intro d hd e hGet
    rw [RoutingTable.getEntry_addEntry]
    by_cases hEq : d = dst
    · subst hEq
      exact ⟨ent, if_pos rfl, hAhead hd e hGet⟩
    · exact ⟨e, by rw [if_neg hEq, hGet], e.ahead_self⟩
  case origin =>
    intro d hd e' hGet hMetric
    rw [RoutingTable.getEntry_addEntry] at hGet
    by_cases hEq : d = dst
    · subst hEq
      rw [if_pos rfl] at hGet
      cases hGet
      exact hOrigin hd hMetric
    · rw [if_neg hEq] at hGet
      exact Or.inl ⟨e', hGet, .refl e'⟩
  case queued =>
    intro hOld d e' hGet
    rw [RoutingTable.getEntry_addEntry] at hGet
    by_cases hEq : d = dst
    · subst hEq
      rw [if_pos rfl] at hGet
      cases hGet
      exact hQueued hOld
    · rw [if_neg hEq] at hGet
      exact hOld d e' hGet

/- An entry of the same route may replace one. -/
theorem advances_sameRoute
    {dst : Int}
    {e ent : RtableEnt}
    (hGet : t.getEntry dst = some e)
    (hSame : SameRoute e ent)
    (hQueued : QueuedFor dst e → QueuedFor dst ent) :
    Advances own Learned t (t.addEntry dst ent) := by
  apply advances_addEntry
  · intro _ e' hGet'
    rw [hGet] at hGet'
    cases hGet'
    exact hSame.ahead
  · exact fun _ _ => Or.inl ⟨e, hGet, hSame⟩
  · exact fun hOld => hQueued (hOld dst e hGet)

end Dsdv

end Ns2

------------------------------------------------------------
-- Data Packets
------------------------------------------------------------

namespace Ns2

namespace Dsdv

variable {t t' t'' : RoutingTable}
variable {dst : Int}

/- Only the entry for `dst` changes, and not its route. -/
structure KeepsRoute
    (dst : Int)
    (t t' : RoutingTable) : Prop where
  frame : ∀ d ≠ dst, t'.getEntry d = t.getEntry d
  same :
    ∀ e, t.getEntry dst = some e →
      ∃ e', t'.getEntry dst = some e' ∧ SameRoute e e'
  queued : Queued t → Queued t'

theorem KeepsRoute.refl : KeepsRoute dst t t :=
  ⟨fun _ _ => rfl, fun e hGet => ⟨e, hGet, .refl e⟩, id⟩

theorem KeepsRoute.trans
    (hFirst : KeepsRoute dst t t')
    (hNext : KeepsRoute dst t' t'') :
    KeepsRoute dst t t'' := by
  constructor
  case frame =>
    exact fun d hd => (hNext.frame d hd).trans (hFirst.frame d hd)
  case same =>
    intro e hGet
    rcases hFirst.same e hGet with ⟨e', hGet', hSame'⟩
    rcases hNext.same e' hGet' with ⟨e'', hGet'', hSame''⟩
    exact ⟨e'', hGet'', hSame'.trans hSame''⟩
  case queued => exact fun h => hNext.queued (hFirst.queued h)

/- An entry that was there is replaced. -/
theorem keepsRoute_addEntry
    {e ent : RtableEnt}
    (hGet : t.getEntry dst = some e)
    (hSame : SameRoute e ent)
    (hQueued : QueuedFor dst e → QueuedFor dst ent) :
    KeepsRoute dst t (t.addEntry dst ent) := by
  constructor
  case frame =>
    exact fun d hd => t.getEntry_addEntry_ne hd
  case same =>
    intro e' hGet'
    rw [hGet] at hGet'
    cases hGet'
    exact ⟨ent, t.getEntry_addEntry_self, hSame⟩
  case queued =>
    have hStep :
        Advances dst (fun _ _ => True) t (t.addEntry dst ent) :=
      advances_sameRoute hGet hSame hQueued
    exact hStep.queued

theorem KeepsRoute.advances
    {own : Int}
    {Learned : Int → RtableEnt → Prop}
    {e : RtableEnt}
    (hGet : t.getEntry dst = some e)
    (hKeeps : KeepsRoute dst t t') :
    Advances own Learned t t' := by
  rcases hKeeps.same e hGet with ⟨e', hGet', hSame⟩
  constructor
  case ahead =>
    intro d _ e₁ hGet₁
    by_cases hEq : d = dst
    · subst hEq
      rw [hGet] at hGet₁
      cases hGet₁
      exact ⟨e', hGet', hSame.ahead⟩
    · exact ⟨e₁, by rw [hKeeps.frame d hEq, hGet₁],
        e₁.ahead_self⟩
  case origin =>
    intro d _ e₁ hGet₁ _
    by_cases hEq : d = dst
    · subst hEq
      rw [hGet'] at hGet₁
      cases hGet₁
      exact Or.inl ⟨e, hGet, hSame⟩
    · rw [hKeeps.frame d hEq] at hGet₁
      exact Or.inl ⟨e₁, hGet₁, .refl e₁⟩
  case queued => exact hKeeps.queued

theorem mem_enque
    {q : List DataPacket}
    {p p' : DataPacket}
    (hp : p' ∈ enque q p) :
    p' ∈ q ∨ p' = p := by
  have hAll := List.mem_of_mem_drop hp
  rcases List.mem_append.mp hAll with hOld | hNew
  · exact Or.inl hOld
  · exact Or.inr (List.mem_singleton.mp hNew)

variable {cfg : Config}
variable {now : Rat}
variable {p : DataPacket}

theorem queuedFor_enque
    {e : RtableEnt}
    (hQueued : QueuedFor p.daddr e) :
    QueuedFor p.daddr
      { e with q := some (enque (e.q.getD []) p) } := by
  intro p' hp'
  rcases mem_enque hp' with hOld | hNew
  · exact hQueued p' hOld
  · rw [hNew]

/- A packet changes nothing but the queue. -/
theorem forwardPacket_keeps
    {e : RtableEnt}
    (hGet : t.getEntry p.daddr = some e) :
    KeepsRoute p.daddr t (t.forwardPacket cfg now p) := by
  unfold RoutingTable.forwardPacket
  rw [hGet]
  simp only
  split
  · exact .refl
  · exact keepsRoute_addEntry hGet ⟨rfl, rfl, rfl⟩
      queuedFor_enque

theorem forwardPacket_advances
    {own : Int}
    {Learned : Int → RtableEnt → Prop} :
    Advances own Learned t (t.forwardPacket cfg now p) := by
  cases hGet : t.getEntry p.daddr with
  | some e =>
      exact (forwardPacket_keeps hGet).advances hGet
  | none =>
      unfold RoutingTable.forwardPacket
      rw [hGet]
      apply advances_addEntry
      · intro _ e hGet'
        rw [hGet] at hGet'
        cases hGet'
      · intro _ hMetric
        exact absurd rfl hMetric
      · intro _ p' hp'
        rw [List.mem_singleton.mp hp']

theorem accept_daddr
    {myaddr : Int}
    {p' : DataPacket}
    (hAccept : p.accept myaddr = some p') :
    p'.daddr = p.daddr := by
  unfold DataPacket.accept at hAccept
  split at hAccept
  · cases hAccept
    rfl
  · split at hAccept
    · cases hAccept
    · split at hAccept <;> cases hAccept
      rfl

theorem recv_keeps
    {myaddr : Int}
    {e : RtableEnt}
    (hGet : t.getEntry p.daddr = some e) :
    KeepsRoute p.daddr t (t.recv cfg myaddr now p) := by
  unfold RoutingTable.recv
  cases hAccept : p.accept myaddr with
  | none => exact .refl
  | some p' =>
      have hSame := accept_daddr hAccept
      simp only
      split
      · exact .refl
      · rw [← hSame] at hGet ⊢
        exact forwardPacket_keeps hGet

theorem recv_advances
    {myaddr own : Int}
    {Learned : Int → RtableEnt → Prop} :
    Advances own Learned t (t.recv cfg myaddr now p) := by
  unfold RoutingTable.recv
  cases p.accept myaddr with
  | none => exact .refl
  | some p' =>
      simp only
      split
      · exact .refl
      · exact forwardPacket_advances

/- Sending the packets of a queue keeps the route. -/
theorem flush_keeps
    {myaddr : Int}
    {steps : Nat}
    (hQueued : Queued t)
    (hFlush : t.flush cfg myaddr now dst steps = some t') :
    KeepsRoute dst t t' := by
  induction steps generalizing t with
  | zero => cases hFlush
  | succ steps ih =>
      unfold RoutingTable.flush at hFlush
      cases hGet : t.getEntry dst with
      | none =>
          rw [hGet] at hFlush
          cases hFlush
          exact .refl
      | some e =>
          rw [hGet] at hFlush
          simp only at hFlush
          cases hq : e.q with
          | none =>
              rw [hq] at hFlush
              cases hFlush
              exact .refl
          | some q =>
              rw [hq] at hFlush
              cases q with
              | nil =>
                  cases hFlush
                  exact .refl
              | cons p rest =>
                  have hFor := hQueued dst e hGet
                  unfold QueuedFor at hFor
                  rw [hq] at hFor
                  have hDaddr : p.daddr = dst :=
                    hFor p List.mem_cons_self
                  have hTaken :
                      KeepsRoute dst t
                        (t.addEntry dst
                          { e with q := some rest }) :=
                    keepsRoute_addEntry hGet ⟨rfl, rfl, rfl⟩
                      fun _ p' hp' =>
                        hFor p' (List.mem_cons_of_mem p hp')
                  have hGet' :
                      (t.addEntry dst
                          { e with q := some rest }).getEntry
                        p.daddr = some { e with q := some rest } := by
                    rw [hDaddr]
                    exact t.getEntry_addEntry_self
                  have hRecv :
                      KeepsRoute p.daddr
                        (t.addEntry dst { e with q := some rest })
                        ((t.addEntry dst
                          { e with q := some rest }).recv
                            cfg myaddr now p) :=
                    recv_keeps hGet'
                  rw [hDaddr] at hRecv
                  have hBoth := hTaken.trans hRecv
                  exact hBoth.trans
                    (ih (hBoth.queued hQueued) hFlush)

end Dsdv

end Ns2

------------------------------------------------------------
-- Updates
------------------------------------------------------------

namespace Ns2

namespace Dsdv

variable {cfg : Config}
variable {now : Rat}
variable {t t' : RoutingTable}
variable {src own : Int}
variable {r : Advert}

/- The route that an update told of. -/
def Told
    (src : Int)
    (r : Advert)
    (d : Int)
    (e : RtableEnt) : Prop :=
  d = r.dst ∧ e.hop = src ∧ e.metric = r.metric + 1 ∧
    e.seqnum = r.seqnum

/- Where packets are kept, a route that is told is better. -/
def Accepted
    (t : RoutingTable)
    (r : Advert) : Prop :=
  ∀ e ∈ t.getEntry r.dst, e.q ≠ none →
    r.metric ≠ BIG → r.metric + 1 ≠ BIG →
      e.seqnum < r.seqnum ∨
        e.seqnum = r.seqnum ∧ r.metric + 1 < e.metric

instance
    (t : RoutingTable)
    (r : Advert) :
    Decidable (Accepted t r) :=
  inferInstanceAs (Decidable
    (∀ e ∈ t.getEntry r.dst, e.q ≠ none →
      r.metric ≠ BIG → r.metric + 1 ≠ BIG →
        e.seqnum < r.seqnum ∨
          e.seqnum = r.seqnum ∧ r.metric + 1 < e.metric))

theorem learn_metric
    (prte : Option RtableEnt)
    (hMetric : (learn cfg src now prte r).metric ≠ BIG) :
    r.metric ≠ BIG ∧
      (learn cfg src now prte r).metric = r.metric + 1 := by
  unfold learn at hMetric ⊢
  by_cases hBig : r.metric = BIG
  · rw [if_neg (not_not.mpr hBig)] at hMetric
    exact absurd hBig hMetric
  · exact ⟨hBig, if_pos hBig⟩

theorem learn_q
    (prte : Option RtableEnt) :
    (learn cfg src now prte r).q = prte.bind (·.q) := by
  cases prte <;> rfl

theorem updateRoute_eq
    {dst : Int}
    {rte : RtableEnt}
    (hUpdate : t.updateRoute dst rte = some t') :
    t' = t.addEntry dst rte := by
  unfold RoutingTable.updateRoute at hUpdate
  split at hUpdate
  · exact (Option.some.inj hUpdate).symm
  · cases hUpdate

/- A route is better than that of an entry. -/
def Better (rte e : RtableEnt) : Prop :=
  e.seqnum < rte.seqnum ∨
    e.seqnum = rte.seqnum ∧ rte.metric < e.metric

theorem Better.ahead
    {rte e : RtableEnt}
    (hBetter : Better rte e) :
    rte.Ahead e.seqnum e.metric :=
  hBetter.imp_right fun h => ⟨h.1, h.2.le⟩

/- The route is taken, or the old one stays. -/
theorem judge_spec
    {dst : Int}
    {rte rte' : RtableEnt}
    (hJudge : t.judge now dst rte = some (t', rte')) :
    SameRoute rte rte' ∧ rte'.q = rte.q ∧
      (t' = t.addEntry dst rte' ∧
          (∀ e, t.getEntry dst = some e → Better rte e) ∨
        ∃ e,
          t.getEntry dst = some e ∧ ¬Better rte e ∧
            KeepsRoute dst t t') := by
  unfold RoutingTable.judge at hJudge
  cases hGet : t.getEntry dst with
  | none =>
      rw [hGet] at hJudge
      rcases Option.bind_eq_some_iff.mp hJudge
        with ⟨t₁, hUpdate, hPair⟩
      have hTable := updateRoute_eq hUpdate
      cases hPair
      refine ⟨?_, ?_, Or.inl ⟨hTable, by simp⟩⟩
      · split <;> exact ⟨rfl, rfl, rfl⟩
      · split <;> rfl
  | some prte =>
      rw [hGet] at hJudge
      simp only at hJudge
      by_cases hEqual : prte.seqnum = rte.seqnum
      · rw [if_pos hEqual] at hJudge
        by_cases hLess : rte.metric < prte.metric
        · rw [if_pos hLess] at hJudge
          rcases Option.bind_eq_some_iff.mp hJudge
            with ⟨t₁, hUpdate, hPair⟩
          have hTable := updateRoute_eq hUpdate
          cases hPair
          refine ⟨⟨rfl, rfl, rfl⟩, rfl,
            Or.inl ⟨hTable, ?_⟩⟩
          intro e he
          cases he
          exact Or.inr ⟨hEqual, hLess⟩
        · rw [if_neg hLess] at hJudge
          cases hJudge
          refine ⟨.refl _, rfl, Or.inr ⟨prte, rfl, ?_, .refl⟩⟩
          unfold Better
          omega
      · rw [if_neg hEqual] at hJudge
        by_cases hFresh : prte.seqnum < rte.seqnum
        · rw [if_pos hFresh] at hJudge
          rcases Option.bind_eq_some_iff.mp hJudge
            with ⟨t₁, hUpdate, hPair⟩
          have hTable := updateRoute_eq hUpdate
          cases hPair
          refine ⟨⟨rfl, rfl, rfl⟩, rfl,
            Or.inl ⟨hTable, ?_⟩⟩
          intro e he
          cases he
          exact Or.inl hFresh
        · rw [if_neg hFresh] at hJudge
          have hNot : ¬Better rte prte := by
            unfold Better
            omega
          split at hJudge
          · cases hJudge
            exact ⟨.refl _, rfl, Or.inr ⟨prte, rfl, hNot,
              keepsRoute_addEntry hGet ⟨rfl, rfl, rfl⟩ id⟩⟩
          · cases hJudge
            exact ⟨.refl _, rfl,
              Or.inr ⟨prte, rfl, hNot, .refl⟩⟩

/- One destination of an update. -/
theorem processAdvert_spec
    {steps : Nat}
    (hOther : r.dst ≠ own)
    (hQueued : Queued t)
    (hAccepted : Accepted t r)
    (hProcess :
      t.processAdvert cfg own src now steps r = some t') :
    Advances own (Told src r) t t' ∧
      ∀ d ≠ r.dst, t'.getEntry d = t.getEntry d := by
  unfold RoutingTable.processAdvert at hProcess
  rw [if_neg hOther] at hProcess
  generalize hLearn : learn cfg src now (t.getEntry r.dst) r =
    rte at hProcess
  have hHop : rte.hop = src := by rw [← hLearn]; rfl
  have hSeqnum : rte.seqnum = r.seqnum := by rw [← hLearn]; rfl
  have hMetric :
      rte.metric ≠ BIG →
        r.metric ≠ BIG ∧ rte.metric = r.metric + 1 := by
    rw [← hLearn]
    exact learn_metric _
  have hKept : rte.q = (t.getEntry r.dst).bind (·.q) := by
    rw [← hLearn]
    exact learn_q _
  rcases Option.bind_eq_some_iff.mp hProcess
    with ⟨⟨t₁, rte₁⟩, hJudge, hRest⟩
  simp only at hRest
  rcases judge_spec hJudge with ⟨hSame, hq, hTaken | hIgnored⟩
  · rcases hTaken with ⟨hTable, hBetter⟩
    have hStep :
        Advances own (Told src r) t t₁ ∧
          ∀ d ≠ r.dst, t₁.getEntry d = t.getEntry d := by
      rw [hTable]
      refine ⟨advances_addEntry ?_ ?_ ?_,
        fun d hd => t.getEntry_addEntry_ne hd⟩
      · intro _ e hGet
        exact (hBetter e hGet).ahead.trans hSame.ahead
      · intro _ hBig
        rw [hSame.metric] at hBig
        exact Or.inr ⟨rfl, hSame.hop.trans hHop,
          hSame.metric.trans (hMetric hBig).2,
          hSame.seqnum.trans hSeqnum⟩
      · intro hOld p hp
        rw [hq, hKept] at hp
        cases hGet : t.getEntry r.dst with
        | none =>
            rw [hGet] at hp
            simp at hp
        | some e =>
            rw [hGet] at hp
            exact hOld r.dst e hGet p hp
    split at hRest
    · rcases Option.bind_eq_some_iff.mp hRest
        with ⟨t₂, hFlush, hUpdate⟩
      have hFlushed :=
        flush_keeps (hStep.1.queued hQueued) hFlush
      have hGet₁ : t₁.getEntry r.dst = some rte₁ := by
        rw [hTable]
        exact t.getEntry_addEntry_self
      rcases hFlushed.same rte₁ hGet₁ with ⟨e₂, hGet₂, hSame₂⟩
      have hWritten :
          KeepsRoute r.dst t₂
            (t₂.addEntry r.dst { rte₁ with q := none }) :=
        keepsRoute_addEntry hGet₂
          ⟨hSame₂.hop.symm, hSame₂.metric.symm,
            hSame₂.seqnum.symm⟩
          fun _ p hp => absurd hp List.not_mem_nil
      have hBoth := hFlushed.trans hWritten
      rw [← updateRoute_eq hUpdate] at hBoth
      refine ⟨hStep.1.trans (hBoth.advances hGet₁) ?_, ?_⟩
      · rintro d e e' ⟨hd, hHop', hMetric', hSeqnum'⟩ hSame'
        exact ⟨hd, hSame'.hop.trans hHop',
          hSame'.metric.trans hMetric',
          hSame'.seqnum.trans hSeqnum'⟩
      · intro d hd
        exact (hBoth.frame d hd).trans (hStep.2 d hd)
    · cases hRest
      exact hStep
  · rcases hIgnored with ⟨e, hGet, hNot, hKeeps⟩
    -- nothing is written back, as what was kept asks for better
    have hNone : ¬(rte₁.q ≠ none ∧ rte₁.metric ≠ BIG) := by
      rintro ⟨hSome, hBig⟩
      rw [hq, hKept, hGet] at hSome
      rw [hSame.metric] at hBig
      have hReal := hMetric hBig
      rw [hReal.2] at hBig
      have hGood := hAccepted e hGet hSome hReal.1 hBig
      rw [← hSeqnum, ← hReal.2] at hGood
      exact hNot hGood
    rw [if_neg hNone] at hRest
    cases hRest
    exact ⟨hKeeps.advances hGet, hKeeps.frame⟩

/- The routes that are learned from an update. -/
def ToldBy
    (src : Int)
    (routes : List Advert)
    (d : Int)
    (e : RtableEnt) : Prop :=
  e.metric ≤ 1 ∨ ∃ r ∈ routes, Told src r d e

theorem ToldBy.sameRoute
    {routes : List Advert}
    {d : Int}
    {e e' : RtableEnt}
    (hTold : ToldBy src routes d e)
    (hSame : SameRoute e e') :
    ToldBy src routes d e' := by
  rcases hTold with hNear | ⟨r, hr, hd, hHop, hMetric, hSeqnum⟩
  · exact Or.inl (hSame.metric.trans_le hNear)
  · exact Or.inr ⟨r, hr, hd, hSame.hop.trans hHop,
      hSame.metric.trans hMetric, hSame.seqnum.trans hSeqnum⟩

/- Every destination of an update, each listed once. -/
theorem processAdverts_advances
    {steps : Nat}
    {routes : List Advert}
    (hNodup : (routes.map (·.dst)).Nodup)
    (hQueued : Queued t)
    (hAccepted :
      ∀ r ∈ routes, r.dst ≠ own → Accepted t r)
    (hProcess :
      routes.foldlM
        (RoutingTable.processAdvert cfg own src now steps) t =
          some t') :
    Advances own (ToldBy src routes) t t' := by
  induction routes generalizing t with
  | nil =>
      cases hProcess
      exact .refl
  | cons r rs ih =>
      rcases List.nodup_cons.mp hNodup with ⟨hNew, hRest⟩
      rcases Option.bind_eq_some_iff.mp hProcess
        with ⟨t₁, hFirst, hProcess⟩
      have hStep :
          Advances own (ToldBy src (r :: rs)) t t₁ ∧
            ∀ d ≠ r.dst, t₁.getEntry d = t.getEntry d := by
        by_cases hOwn : r.dst = own
        · rw [RoutingTable.processAdvert, if_pos hOwn] at hFirst
          cases hFirst
          exact ⟨.refl, fun _ _ => rfl⟩
        · rcases processAdvert_spec hOwn hQueued
              (hAccepted r List.mem_cons_self hOwn) hFirst
            with ⟨hAdvances, hFrame⟩
          exact ⟨hAdvances.mono fun d e hTold =>
            Or.inr ⟨r, List.mem_cons_self, hTold⟩, hFrame⟩
      have hAccepted₁ :
          ∀ r' ∈ rs, r'.dst ≠ own → Accepted t₁ r' := by
        intro r' hr' hOther e hGet
        have hNe : r'.dst ≠ r.dst := fun hEq =>
          hNew (List.mem_map.mpr ⟨r', hr', hEq⟩)
        rw [hStep.2 r'.dst hNe] at hGet
        exact hAccepted r' (List.mem_cons_of_mem r hr') hOther
          e hGet
      have hLater := ih hRest (hStep.1.queued hQueued)
        hAccepted₁ hProcess
      refine hStep.1.trans (hLater.mono ?_)
        fun d e e' hTold hSame => hTold.sameRoute hSame
      rintro d e (hNear | ⟨r', hr', hTold⟩)
      · exact Or.inl hNear
      · exact Or.inr ⟨r', List.mem_cons_of_mem r hr', hTold⟩

theorem hear_advances
    {routes : List Advert} :
    Advances own (ToldBy src routes) t (t.hear cfg src now) := by
  unfold RoutingTable.hear
  cases hGet : t.getEntry src with
  | some prte =>
      exact advances_sameRoute hGet ⟨rfl, rfl, rfl⟩ id
  | none =>
      apply advances_addEntry
      · intro _ e hGet'
        rw [hGet] at hGet'
        cases hGet'
      · exact fun _ _ => Or.inr (Or.inl (Nat.le_refl 1))
      · exact fun _ p hp => absurd hp List.not_mem_nil

theorem processUpdate_advances
    {steps : Nat}
    {routes : List Advert}
    (hNodup : (routes.map (·.dst)).Nodup)
    (hQueued : Queued t)
    (hAccepted :
      ∀ r ∈ routes, r.dst ≠ own → Accepted t r)
    (hProcess :
      t.processUpdate cfg own src now steps routes = some t') :
    Advances own (ToldBy src routes) t t' := by
  rcases Option.bind_eq_some_iff.mp hProcess
    with ⟨t₁, hRoutes, hHear⟩
  cases hHear
  exact (processAdverts_advances hNodup hQueued hAccepted
    hRoutes).trans hear_advances
      fun d e e' hTold hSame => hTold.sameRoute hSame

end Dsdv

end Ns2

------------------------------------------------------------
-- Timeouts and Own Updates
------------------------------------------------------------

namespace Ns2

namespace Dsdv

variable {cfg : Config}
variable {now : Rat}
variable {t : RoutingTable}
variable {own nbr : Int}

/- Nothing is learned. -/
def Nothing (_ : Int) (_ : RtableEnt) : Prop := False

/- All the entries change, each to one that is as good. -/
theorem advances_mapValues
    {f : Int → RtableEnt → RtableEnt}
    (hAhead : ∀ d e, (f d e).Ahead e.seqnum e.metric)
    (hSame : ∀ d e, (f d e).metric ≠ BIG → SameRoute e (f d e))
    (hq : ∀ d e, (f d e).q = e.q) :
    Advances own Nothing t (t.mapValues f) := by
  constructor
  case ahead =>
    intro d _ e hGet
    refine ⟨f d e, ?_, hAhead d e⟩
    rw [RoutingTable.getEntry_mapValues, hGet]
    rfl
  case origin =>
    intro d _ e' hGet hMetric
    rw [RoutingTable.getEntry_mapValues] at hGet
    rcases Option.map_eq_some_iff.mp hGet with ⟨e, hOld, rfl⟩
    exact Or.inl ⟨e, hOld, hSame d e hMetric⟩
  case queued =>
    intro hOld d e' hGet
    rw [RoutingTable.getEntry_mapValues] at hGet
    rcases Option.map_eq_some_iff.mp hGet with ⟨e, hBefore, rfl⟩
    unfold QueuedFor
    rw [hq]
    exact hOld d e hBefore

theorem markBroken_ahead (e : RtableEnt) :
    (e.markBroken nbr now).Ahead e.seqnum e.metric := by
  unfold RtableEnt.markBroken
  split
  · exact Or.inl (Nat.lt_succ_self _)
  · exact e.ahead_self

theorem markBroken_sameRoute
    {e : RtableEnt}
    (hMetric : (e.markBroken nbr now).metric ≠ BIG) :
    SameRoute e (e.markBroken nbr now) := by
  unfold RtableEnt.markBroken at hMetric ⊢
  split at hMetric
  · exact absurd rfl hMetric
  · rename_i hNot
    rw [if_neg hNot]
    exact .refl e

theorem helperCallback_advances :
    Advances own Nothing t (t.helperCallback nbr now) := by
  have hMarked :
      Advances own Nothing t
        (t.mapValues fun _ e => e.markBroken nbr now) := by
    apply advances_mapValues
    · exact fun _ e => markBroken_ahead e
    · exact fun _ _ hMetric => markBroken_sameRoute hMetric
    · intro _ e
      unfold RtableEnt.markBroken
      split <;> rfl
  unfold RoutingTable.helperCallback
  simp only
  split
  · exact hMarked
  · rename_i prte hGet
    exact hMarked.trans
      (advances_sameRoute hGet ⟨rfl, rfl, rfl⟩ id)
      fun _ _ _ hFalse _ => hFalse

theorem lostLink_advances
    {p : DataPacket} :
    Advances own Nothing t (t.lostLink cfg own nbr now p) := by
  unfold RoutingTable.lostLink
  split
  · exact .refl
  · simp only
    split
    · exact helperCallback_advances.trans recv_advances
        fun _ _ _ hFalse _ => hFalse
    · exact recv_advances

theorem advertise_advances
    {full : Bool} :
    Advances own Nothing t (t.advertise full now) := by
  have hSame : ∀ e : RtableEnt,
      SameRoute e
          (if e.included full now then e.advertised full
            else e) ∧
        (if e.included full now then e.advertised full
          else e).q = e.q := by
    intro e
    split
    · exact ⟨⟨rfl, rfl, rfl⟩, rfl⟩
    · exact ⟨.refl e, rfl⟩
  apply advances_mapValues
  · exact fun _ e => (hSame e).1.ahead
  · exact fun _ e _ => (hSame e).1
  · exact fun _ e => (hSame e).2

end Dsdv

end Ns2
