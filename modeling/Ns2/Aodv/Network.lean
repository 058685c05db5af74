import Ns2.Aodv.Handlers

/-
  Sequence numbers in a network of AODV nodes.

  Every address has a node, of which a run may leave any alone.
  A message that was sent may arrive at any node, at any time,
  any number of times or never.  A number that a node gives
  itself is even; a node that loses a route makes its number
  odd, and so at most one larger than the number the owner has
  given itself.

  Main declarations:
    * `AodvNetwork`, `AodvNetwork.Step`
    * `Aodv.Told`, `Aodv.Kept`, `Aodv.Disciplined`
    * `AodvNetwork.seqno_discipline`
-/

------------------------------------------------------------
-- Networks
------------------------------------------------------------

namespace Ns2

structure AodvNetwork where
  nodes : nsaddr_t → Aodv
  time : ℚ

namespace AodvNetwork

/- Nodes that have not done anything. -/
def Initial (net : AodvNetwork) : Prop :=
  ∀ i, ∃ here_addr next ts,
    net.nodes i = Aodv.new i here_addr next ts

/- A message that some node has sent. -/
def Sent
    (net : AodvNetwork)
    (p : AodvPacket) : Prop :=
  ∃ i, AodvAction.send p ∈ (net.nodes i).out

/-
  A message of the protocol arrives as it was sent; the lower
  layers may change other fields of the packet.
-/
def Arrives
    (net : AodvNetwork) : Aodv.Event → Prop
| .recv p => p.isAodv = true →
    ∃ q, net.Sent q ∧ q.ptype = p.ptype ∧
      q.saddr = p.saddr ∧ q.daddr = p.daddr
| _ => True

/- What may happen at the node `i` at a time. -/
structure Enabled
    (net : AodvNetwork)
    (i : nsaddr_t)
    (now : ℚ)
    (e : Aodv.Event) : Prop where
  later : net.time ≤ now
  fresh : (net.nodes i).Fresh e
  pending : (net.nodes i).Pending e
  arrives : net.Arrives e

inductive Step (net : AodvNetwork) : AodvNetwork → Prop where
| step
    (i : nsaddr_t)
    (now : ℚ)
    (e : Aodv.Event)
    (n : Aodv)
    (hEnabled : net.Enabled i now e)
    (hStep : (net.nodes i).step now e = .ok n) :
    Step net ⟨Function.update net.nodes i n, now⟩

abbrev Reaches : AodvNetwork → AodvNetwork → Prop :=
  Relation.ReflTransGen Step

/- The number that the node has given itself. -/
def own
    (net : AodvNetwork)
    (i : nsaddr_t) : Nat :=
  (net.nodes i).seqno

end AodvNetwork

end Ns2

------------------------------------------------------------
-- The Numbers of a Node
------------------------------------------------------------

namespace Ns2

namespace Aodv

variable {own own' : nsaddr_t → Nat}
variable {now : ℚ} {c : Cause}
variable {n s : Aodv} {rt rt' : AodvRtEntry}
variable {d : nsaddr_t} {k : Nat}

/- A number with which a route may be used. -/
def Usable
    (own : nsaddr_t → Nat)
    (d : nsaddr_t)
    (k : Nat) : Prop :=
  k % 2 = 0 ∧ k ≤ own d

/- What a message says about sequence numbers. -/
def Told
    (own : nsaddr_t → Nat) : AodvHeader → Prop
| .RREQ rq => Usable own rq.rq_src rq.rq_src_seqno ∧
    rq.rq_dst_seqno ≤ own rq.rq_dst + 1
| .RREP rp => Usable own rp.rp_dst rp.rp_dst_seqno
| .RERR re => ∀ dest ∈ re.listed, dest.2 ≤ own dest.1 + 1
| .HELLO _ => True

/- A route that is up, or to be repaired, has a usable number. -/
structure Kept
    (own : nsaddr_t → Nat)
    (rt : AodvRtEntry) : Prop where
  bound : rt.rt_seqno ≤ own rt.rt_dst + 1
  usable : rt.rt_flags = .RTF_UP ∨ rt.rt_hops ≠ INFINITY2 →
    Usable own rt.rt_dst rt.rt_seqno

/- The message that an event is about. -/
def Cause.Told
    (own : nsaddr_t → Nat) : Cause → Prop
| .request rq _ => Aodv.Told own (.RREQ rq)
| .reply rp _ => Aodv.Told own (.RREP rp)
| .error re _ => Aodv.Told own (.RERR re)
| _ => True

structure Disciplined
    (own : nsaddr_t → Nat)
    (n : Aodv) : Prop where
  even : n.seqno % 2 = 0
  entries : ∀ rt ∈ n.rtable.entries, Kept own rt
  out : ∀ p ah, AodvAction.send p ∈ n.out →
    p.ptype = .PT_AODV ah → Told own ah

theorem Usable.mono
    (hUsable : Usable own d k)
    (hLe : own d ≤ own' d) :
    Usable own' d k :=
  ⟨hUsable.1, hUsable.2.trans hLe⟩

theorem Told.mono
    {ah : AodvHeader}
    (hTold : Told own ah)
    (hLe : ∀ d, own d ≤ own' d) :
    Told own' ah := by
  cases ah with
  | RREQ rq =>
      refine ⟨hTold.1.mono (hLe _), hTold.2.trans ?_⟩
      exact Nat.add_le_add_right (hLe _) 1
  | RREP rp => exact Usable.mono hTold (hLe _)
  | RERR re =>
      intro dest hDest
      exact (hTold dest hDest).trans
        (Nat.add_le_add_right (hLe _) 1)
  | HELLO rh => trivial

theorem Kept.mono
    (hKept : Kept own rt)
    (hLe : ∀ d, own d ≤ own' d) :
    Kept own' rt :=
  ⟨hKept.bound.trans (Nat.add_le_add_right (hLe _) 1),
    fun hUp => (hKept.usable hUp).mono (hLe _)⟩

theorem Cause.Told.mono
    (hTold : c.Told own)
    (hLe : ∀ d, own d ≤ own' d) :
    c.Told own' := by
  cases c with
  | request rq p =>
      exact @Aodv.Told.mono own own' (.RREQ rq) hTold hLe
  | reply rp p =>
      exact @Aodv.Told.mono own own' (.RREP rp) hTold hLe
  | error re saddr =>
      exact @Aodv.Told.mono own own' (.RERR re) hTold hLe
  | _ => trivial

theorem Disciplined.mono
    (hDisciplined : Disciplined own n)
    (hLe : ∀ d, own d ≤ own' d) :
    Disciplined own' n := by
  constructor
  case even => exact hDisciplined.even
  case entries =>
    intro rt hMem
    exact (hDisciplined.entries rt hMem).mono hLe
  case out =>
    intro p ah hSend hType
    exact (hDisciplined.out p ah hSend hType).mono hLe

theorem Kept.congr
    (hKept : Kept own rt)
    (hSame : SameRoute rt rt') :
    Kept own rt' := by
  constructor
  case bound =>
    rw [hSame.rt_seqno, hSame.rt_dst]
    exact hKept.bound
  case usable =>
    rw [hSame.rt_flags, hSame.rt_hops, hSame.rt_seqno,
      hSame.rt_dst]
    exact hKept.usable

/- The route that a message offers has a usable number. -/
theorem Offers.kept
    {index : nsaddr_t}
    (hOffers : Offers c index rt)
    (hTold : c.Told own) :
    Kept own rt := by
  have hUsable : Usable own rt.rt_dst rt.rt_seqno := by
    cases hOffers with
    | request rq p rt index hOther hDst hSeqno hHops hNext hUp =>
        rw [hDst, hSeqno]
        exact hTold.1
    | reply rp p rt index hDst hSeqno hHops hNext hUp =>
        rw [hDst, hSeqno]
        exact hTold
  exact ⟨hUsable.2.trans (Nat.le_succ _), fun _ => hUsable⟩

/- A route that is lost gets a number that is not too large. -/
theorem Loses.bound
    (hLoses : Loses c rt k)
    (hKept : Kept own rt)
    (hTold : c.Told own) :
    k ≤ own rt.rt_dst + 1 ∧ rt.rt_seqno ≤ k := by
  cases hLoses with
  | purge rt hUp hHops hOdd =>
      have hLe := (hKept.usable (Or.inl hUp)).2
      omega
  | lost ids rt hUp hHops hNext hEven =>
      have hLe := (hKept.usable (Or.inl hUp)).2
      omega
  | error re saddr rt seqno hUp hHops hNext hListed hOld hEven =>
      exact ⟨hTold _ hListed, hOld⟩
  | timer p rt hDst hUp => exact ⟨hKept.bound, le_rfl⟩

/- The route that was lost is down. -/
theorem Loses.kept
    (hLoses : Loses c rt k)
    (hKept : Kept own rt)
    (hTold : c.Told own) :
    Kept own (AodvRtEntry.rt_down { rt with rt_seqno := k }) := by
  have hBound := (hLoses.bound hKept hTold).1
  by_cases hDown : rt.rt_flags = .RTF_DOWN
  · -- Only the repair timer meets a route that is down.
    have hSame : k = rt.rt_seqno := by
      cases hLoses with
      | timer p rt hDst hUp => rfl
      | purge rt hUp _ _ => rw [hUp] at hDown; cases hDown
      | lost ids rt hUp _ _ _ => rw [hUp] at hDown; cases hDown
      | error re saddr rt seqno hUp _ _ _ _ _ =>
          rw [hUp] at hDown
          cases hDown
    subst hSame
    unfold AodvRtEntry.rt_down
    rw [if_pos hDown]
    exact hKept
  · unfold AodvRtEntry.rt_down
    rw [if_neg hDown]
    refine ⟨hBound, ?_⟩
    rintro (hUp | hHops)
    · cases hUp
    · exact absurd rfl hHops

/- What a node says follows from what it keeps. -/
theorem Makes.told
    {p : AodvPacket}
    {ah : AodvHeader}
    (hMakes : Makes n c p)
    (hDisciplined : Disciplined own n)
    (hOwn : own n.index = n.seqno)
    (hTold : c.Told own)
    (hType : p.ptype = .PT_AODV ah) :
    Told own ah := by
  have hSelf : Usable own n.index n.seqno :=
    ⟨hDisciplined.even, hOwn.ge⟩
  cases hMakes with
  | request c rt rq ttl hMem hFlags hCount hDst hDstSeqno hSrc
      hSrcSeqno =>
      cases hType
      refine ⟨?_, ?_⟩
      · rw [hSrc, hSrcSeqno]
        exact hSelf
      · rw [hDst, hDstSeqno]
        exact (hDisciplined.entries rt hMem).bound
  | relayRequest rq p hSrc hDst hStale =>
      cases hType
      refine ⟨hTold.1, ?_⟩
      cases hLookup : n.rtable.rt_lookup rq.rq_dst with
      | none => exact hTold.2
      | some rt =>
          have hKept := hDisciplined.entries rt
            (AodvRtable.rt_lookup_mem hLookup)
          have hBound := hKept.bound
          rw [AodvRtable.rt_lookup_dst hLookup] at hBound
          exact max_le hBound hTold.2
  | replyOwn rq p rt rp hSrc hDst hMem hBack hCount hRpDst hSeqno
      hEven hRpSrc =>
      cases hType
      change Usable own rp.rp_dst rp.rp_dst_seqno
      rw [hRpDst, hSeqno]
      exact hSelf
  | replyCached rq p rt rt0 rp hSrc hDst hMem hThere hHops hFresh
      hMem0 hBack hCount hRpDst hSeqno hRpSrc =>
      cases hType
      change Usable own rp.rp_dst rp.rp_dst_seqno
      rw [hRpDst, hSeqno]
      exact (hDisciplined.entries rt hMem).usable (Or.inr hHops)
  | relayReply rp rp' p rt rt0 hOther hMem hOffer hMem0 hBack
      hUp0 hCount hRpDst hSeqno hRpSrc =>
      cases hType
      change Usable own rp'.rp_dst rp'.rp_dst_seqno
      rw [hRpDst, hSeqno]
      exact hTold
  | error c re hLists =>
      cases hType
      intro dest hDest
      rcases hLists dest hDest with ⟨rt, hMem, hDst, hSeqno, _⟩
      rw [← hDst, ← hSeqno]
      exact (hDisciplined.entries rt hMem).bound
  | hello c rh =>
      cases hType
      trivial

/- The numbers that the table stores have not become smaller. -/
def Grows (n s : Aodv) : Prop :=
  ∀ rt ∈ n.rtable.entries, ∃ rt' ∈ s.rtable.entries,
    rt'.rt_dst = rt.rt_dst ∧ rt.rt_seqno ≤ rt'.rt_seqno

theorem Grows.refl (n : Aodv) : Grows n n :=
  fun rt hMem => ⟨rt, hMem, rfl, le_rfl⟩

theorem Grows.trans
    {m : Aodv}
    (hFirst : Grows n s)
    (hThen : Grows s m) :
    Grows n m := by
  intro rt hMem
  rcases hFirst rt hMem with ⟨rt', hMem', hDst, hLe⟩
  rcases hThen rt' hMem' with ⟨rt'', hMem'', hDst', hLe'⟩
  exact ⟨rt'', hMem'', hDst'.trans hDst, hLe.trans hLe'⟩

theorem grows_store
    (hMem : rt ∈ n.rtable.entries)
    (hDst : rt'.rt_dst = rt.rt_dst)
    (hLe : rt.rt_seqno ≤ rt'.rt_seqno) :
    Grows n (n.store rt') := by
  intro e hE
  by_cases hSame : e.rt_dst = rt'.rt_dst
  · have hEq : e = rt := entry_unique hMem hE (hSame.trans hDst)
    subst hEq
    exact ⟨rt', (AodvRtable.mem_store hMem hDst).mpr (Or.inl rfl),
      hDst, hLe⟩
  · exact ⟨e, (AodvRtable.mem_store hMem hDst).mpr
      (Or.inr ⟨hE, hSame⟩), rfl, le_rfl⟩

theorem Disciplined.store
    (hDisciplined : Disciplined own n)
    (hMem : rt ∈ n.rtable.entries)
    (hDst : rt'.rt_dst = rt.rt_dst)
    (hKept : Kept own rt') :
    Disciplined own (n.store rt') := by
  constructor
  case even => exact hDisciplined.even
  case entries =>
    intro e hE
    rcases (AodvRtable.mem_store hMem hDst).mp hE with
      rfl | ⟨hOld, _⟩
    · exact hKept
    · exact hDisciplined.entries e hOld
  case out => exact hDisciplined.out

/- A new entry has the number 0. -/
theorem ensure_cases
    (n : Aodv)
    (dst : nsaddr_t) :
    n.ensure dst = n ∨
      (n.ensure dst).rtable.entries =
          .new dst :: n.rtable.entries ∧
        (n.ensure dst).seqno = n.seqno ∧
        (n.ensure dst).index = n.index ∧
        (n.ensure dst).out = n.out := by
  unfold ensure
  cases hLookup : n.rtable.rt_lookup dst with
  | some rt => exact Or.inl rfl
  | none =>
      right
      refine ⟨?_, rfl, rfl, rfl⟩
      simp only [AodvRtable.rt_add]
      rw [dif_pos hLookup]

theorem kept_new
    (own : nsaddr_t → Nat)
    (dst : nsaddr_t) :
    Kept own (.new dst) := by
  refine ⟨Nat.zero_le _, ?_⟩
  rintro (hUp | hHops)
  · cases hUp
  · exact absurd rfl hHops

/- The message that is sent follows from the rest. -/
theorem Disciplined.emit
    {a : AodvAction}
    (hDisciplined : Disciplined own n)
    (hSay : ∀ p ah, a = .send p → p.ptype = .PT_AODV ah →
      Told own ah) :
    Disciplined own (n.emit a) := by
  constructor
  case even => exact hDisciplined.even
  case entries => exact hDisciplined.entries
  case out =>
    intro p ah hSend hType
    rcases List.mem_append.mp hSend with hOld | hNew
    · exact hDisciplined.out p ah hOld hType
    · exact hSay p ah (List.mem_singleton.mp hNew).symm hType

/- A step that leaves the node's own number alone. -/
theorem Disciplined.quiet
    {out : List AodvAction}
    (hDisciplined : Disciplined own n)
    (hEntries : s.rtable = n.rtable)
    (hSeqno : s.seqno = n.seqno)
    (hOut : s.out = n.out ++ out)
    (hQuiet : ∀ p, AodvAction.send p ∉ out) :
    Disciplined own s := by
  constructor
  case even =>
    rw [hSeqno]
    exact hDisciplined.even
  case entries =>
    rw [hEntries]
    exact hDisciplined.entries
  case out =>
    intro p ah hSend hType
    rw [hOut] at hSend
    rcases List.mem_append.mp hSend with hOld | hNew
    · exact hDisciplined.out p ah hOld hType
    · exact absurd hNew (hQuiet p)

theorem self_le_answer
    (seqno dst_seqno : Nat) :
    seqno ≤ answerSeqno seqno dst_seqno := by
  unfold answerSeqno
  simp only
  split <;> omega

theorem Does.seqno_le
    (hDoes : Does now c n s) :
    n.seqno ≤ s.seqno := by
  cases hDoes with
  | ensure dst =>
      rcases ensure_cases n dst with hSame | ⟨_, hSeqno, _⟩
      · rw [hSame]
      · exact hSeqno.ge
  | advance hEven => exact Nat.le_add_right _ _
  | answer rq p hCause hDst => exact self_le_answer _ _
  | _ => exact le_rfl

theorem Does.grows
    (hDisciplined : Disciplined own n)
    (hTold : c.Told own)
    (hDoes : Does now c n s) :
    Grows n s := by
  cases hDoes with
  | ensure dst =>
      rcases ensure_cases n dst with hSame | ⟨hEntries, _⟩
      · rw [hSame]
        exact .refl n
      · intro rt hMem
        refine ⟨rt, ?_, rfl, le_rfl⟩
        rw [hEntries]
        exact List.mem_cons_of_mem _ hMem
  | touch rt rt' hMem hSame =>
      exact grows_store hMem hSame.rt_dst hSame.rt_seqno.ge
  | update rt rt' hMem hDst hOffers hFresher =>
      apply grows_store hMem hDst
      rcases hFresher with hNewer | ⟨hSame, _⟩
      · exact hNewer.le
      · exact hSame.ge
  | lose rt rt' seqno hMem hLoses hDown =>
      have hKept := hDisciplined.entries rt hMem
      apply grows_store hMem
      · rw [hDown.rt_dst, AodvRtEntry.rt_down_dst]
      · rw [hDown.rt_seqno, AodvRtEntry.rt_down_seqno]
        exact (hLoses.bound hKept hTold).2
  | repair rt p hCause hMem hDst =>
      exact grows_store hMem rfl le_rfl
  | _ => exact .refl n

/- Every small step keeps to the discipline. -/
theorem Disciplined.does
    (hDisciplined : Disciplined own n)
    (hOwn : own n.index = n.seqno)
    (hTold : c.Told own)
    (hDoes : Does now c n s) :
    Disciplined (Function.update own n.index s.seqno) s := by
  have hSame : Function.update own n.index n.seqno = own := by
    rw [← hOwn]
    exact Function.update_eq_self n.index own
  have hMore : ∀ d, own d ≤
      Function.update own n.index s.seqno d := by
    intro d
    by_cases hHere : d = n.index
    · rw [hHere, Function.update_self, hOwn]
      exact hDoes.seqno_le
    · rw [Function.update_of_ne hHere]
  cases hDoes with
  | act a hQuiet =>
      rw [show (n.emit a).seqno = n.seqno from rfl, hSame]
      apply hDisciplined.emit
      rintro p ah rfl hType
      exact absurd (by
        change p.isAodv = true
        rw [AodvPacket.isAodv, hType]) hQuiet
  | send p hMakes =>
      rw [show (n.emit (.send p)).seqno = n.seqno from rfl,
        hSame]
      apply hDisciplined.emit
      rintro q ah ⟨⟩ hType
      exact hMakes.told hDisciplined hOwn hTold hType
  | aside bid nbhead bihead =>
      rw [hSame]
      exact hDisciplined.quiet rfl rfl (List.append_nil _).symm
        (fun p hp => by cases hp)
  | advance hEven =>
      have hNext := hDisciplined.mono hMore
      exact ⟨hEven, hNext.entries, hNext.out⟩
  | answer rq p hCause hDst =>
      have hNext := hDisciplined.mono hMore
      exact ⟨answerSeqno_even _ _, hNext.entries, hNext.out⟩
  | enque p r hUid hData hNew hEnque =>
      rw [hSame]
      refine hDisciplined.quiet rfl rfl rfl ?_
      intro q hq
      rcases List.mem_map.mp hq with ⟨x, _, hx⟩
      cases hx
  | deque dst r hDeque =>
      rw [hSame]
      exact hDisciplined.quiet rfl rfl (List.append_nil _).symm
        (fun p hp => by cases hp)
  | ensure dst =>
      rcases ensure_cases n dst with hNo |
        ⟨hEntries, hSeqno, _, hOut⟩
      · rw [hNo, hSame]
        exact hDisciplined
      · rw [hSeqno, hSame]
        constructor
        case even =>
          rw [hSeqno]
          exact hDisciplined.even
        case entries =>
          rw [hEntries]
          intro rt hMem
          rcases List.mem_cons.mp hMem with rfl | hOld
          · exact kept_new own dst
          · exact hDisciplined.entries rt hOld
        case out =>
          rw [hOut]
          exact hDisciplined.out
  | touch rt rt' hMem hRoute =>
      rw [show (n.store rt').seqno = n.seqno from rfl, hSame]
      exact hDisciplined.store hMem hRoute.rt_dst
        ((hDisciplined.entries rt hMem).congr hRoute)
  | update rt rt' hMem hDst hOffers hFresher =>
      rw [show (n.store rt').seqno = n.seqno from rfl, hSame]
      exact hDisciplined.store hMem hDst (hOffers.kept hTold)
  | lose rt rt' seqno hMem hLoses hDown =>
      rw [show (n.store rt').seqno = n.seqno from rfl, hSame]
      have hKept := hDisciplined.entries rt hMem
      apply hDisciplined.store hMem
      · rw [hDown.rt_dst, AodvRtEntry.rt_down_dst]
      · exact (hLoses.kept hKept hTold).congr hDown
  | repair rt p hCause hMem hDst =>
      have hKept := hDisciplined.entries rt hMem
      change Disciplined (Function.update own n.index n.seqno) _
      rw [hSame]
      apply hDisciplined.store hMem
      · rfl
      · refine ⟨hKept.bound, ?_⟩
        rintro (hUp | hHops)
        · cases hUp
        · exact hKept.usable (Or.inr hHops)

end Aodv

end Ns2

------------------------------------------------------------
-- The Numbers in the Network
------------------------------------------------------------

namespace Ns2

namespace AodvNetwork

open Aodv (Usable Told Kept Disciplined Grows)

variable {net net' : AodvNetwork}
variable {i : nsaddr_t} {now : ℚ}
variable {e : Aodv.Event} {n s : Aodv}

structure Orderly (net : AodvNetwork) : Prop where
  index : ∀ i, (net.nodes i).index = i
  sound : ∀ i, (net.nodes i).Sound
  disciplined : ∀ i, Disciplined net.own (net.nodes i)

theorem own_update :
    own ⟨Function.update net.nodes i n, now⟩ =
      Function.update net.own i n.seqno := by
  funext d
  change (Function.update net.nodes i n d).seqno = _
  by_cases hHere : d = i
  · rw [hHere, Function.update_self, Function.update_self]
  · rw [Function.update_of_ne hHere, Function.update_of_ne hHere]
    rfl

theorem orderly_initial
    (hInitial : net.Initial) :
    Orderly net := by
  constructor
  case index =>
    intro i
    rcases hInitial i with ⟨here_addr, next, ts, hNew⟩
    rw [hNew]
    rfl
  case sound =>
    intro i
    rcases hInitial i with ⟨here_addr, next, ts, hNew⟩
    rw [hNew]
    exact Aodv.new_sound i here_addr next ts
  case disciplined =>
    intro i
    rcases hInitial i with ⟨here_addr, next, ts, hNew⟩
    rw [hNew]
    constructor
    case even => exact Nat.mod_self 2
    case entries =>
      rintro rt ⟨⟩
    case out =>
      rintro p ah ⟨⟩

/- A message that arrives is told by what its sender kept. -/
theorem Orderly.told
    (hOrderly : Orderly net)
    (hArrives : net.Arrives e) :
    (Aodv.cause now (net.nodes i) e).Told net.own := by
  cases e with
  | recv p =>
      cases hType : p.ptype with
      | DATA => simp [Aodv.cause, hType, Aodv.Cause.Told]
      | OTHER => simp [Aodv.cause, hType, Aodv.Cause.Told]
      | PT_AODV ah =>
          have hAodv : p.isAodv = true := by
            rw [AodvPacket.isAodv, hType]
          rcases hArrives hAodv with ⟨q, ⟨j, hSent⟩, hSame, _⟩
          have hTold := (hOrderly.disciplined j).out q ah hSent
            (hSame.trans hType)
          unfold Aodv.cause
          simp only [hType]
          cases ah with
          | RREQ rq => exact hTold
          | RREP rp => exact hTold
          | RERR re => exact hTold
          | HELLO rh => trivial
  | rt_ll_failed p =>
      unfold Aodv.cause
      simp only
      split
      · split <;> trivial
      · trivial
  | _ => trivial

/- The node on the way through an event. -/
theorem Orderly.node_reaches
    {c : Aodv.Cause}
    (hOrderly : Orderly net)
    (hTold : c.Told net.own)
    (hReach : Aodv.Reaches now c (net.nodes i) s) :
    s.index = i ∧ net.own i ≤ s.seqno ∧
      Disciplined (Function.update net.own i s.seqno) s ∧
      Grows (net.nodes i) s := by
  induction hReach with
  | refl =>
      refine ⟨hOrderly.index i, le_rfl, ?_, .refl _⟩
      rw [show (net.nodes i).seqno = net.own i from rfl,
        Function.update_eq_self]
      exact hOrderly.disciplined i
  | tail _ hDoes ih =>
      rcases ih with ⟨hIndex, hLe, hDisciplined, hGrows⟩
      rename_i m m' _
      have hMore : ∀ d, net.own d ≤
          Function.update net.own i m.seqno d := by
        intro d
        by_cases hHere : d = i
        · rw [hHere, Function.update_self]
          exact hLe
        · rw [Function.update_of_ne hHere]
      have hStill := hTold.mono hMore
      have hOwn : Function.update net.own i m.seqno m.index =
          m.seqno := by
        rw [hIndex, Function.update_self]
      have hNext := hDisciplined.does hOwn hStill hDoes
      rw [hIndex, Function.update_idem] at hNext
      exact ⟨hDoes.index.trans hIndex,
        hLe.trans hDoes.seqno_le, hNext,
        hGrows.trans (hDoes.grows hDisciplined hStill)⟩

/- What one event leaves. -/
theorem Orderly.step
    (hOrderly : Orderly net)
    (hStep : Step net net') :
    Orderly net' ∧ (∀ i, net.own i ≤ net'.own i) ∧
      ∀ i, Grows (net.nodes i) (net'.nodes i) := by
  cases hStep with
  | step i now e n hEnabled hOk =>
      have hAccounted : Aodv.Accounted now
          (Aodv.cause now (net.nodes i) e)
          (net.nodes i) ((net.nodes i).step now e) :=
        Aodv.step_accounted e (hOrderly.sound i) hEnabled.fresh
      have hReach := hAccounted.ok n hOk
      rcases hOrderly.node_reaches
          (hOrderly.told hEnabled.arrives) hReach with
        ⟨hIndex, hLe, hDisciplined, hGrows⟩
      have hMore : ∀ d, net.own d ≤
          Function.update net.own i n.seqno d := by
        intro d
        by_cases hHere : d = i
        · rw [hHere, Function.update_self]
          exact hLe
        · rw [Function.update_of_ne hHere]
      refine ⟨?_, ?_, ?_⟩
      · constructor
        case index =>
          intro j
          change (Function.update net.nodes i n j).index = j
          by_cases hHere : j = i
          · rw [hHere, Function.update_self]
            exact hIndex
          · rw [Function.update_of_ne hHere]
            exact hOrderly.index j
        case sound =>
          intro j
          change (Function.update net.nodes i n j).Sound
          by_cases hHere : j = i
          · rw [hHere, Function.update_self]
            exact (hOrderly.sound i).reaches hReach
          · rw [Function.update_of_ne hHere]
            exact hOrderly.sound j
        case disciplined =>
          intro j
          rw [own_update]
          change Disciplined _ (Function.update net.nodes i n j)
          by_cases hHere : j = i
          · rw [hHere, Function.update_self]
            exact hDisciplined
          · rw [Function.update_of_ne hHere]
            exact (hOrderly.disciplined j).mono hMore
      · rw [own_update]
        exact hMore
      · intro j
        change Grows _ (Function.update net.nodes i n j)
        by_cases hHere : j = i
        · rw [hHere, Function.update_self]
          exact hGrows
        · rw [Function.update_of_ne hHere]
          exact .refl _

theorem Orderly.reaches
    (hOrderly : Orderly net)
    (hReach : Reaches net net') :
    Orderly net' ∧ (∀ i, net.own i ≤ net'.own i) ∧
      ∀ i, Grows (net.nodes i) (net'.nodes i) := by
  induction hReach with
  | refl =>
      exact ⟨hOrderly, fun _ => le_rfl, fun _ => .refl _⟩
  | tail _ hStep ih =>
      rcases ih with ⟨hNow, hLe, hGrows⟩
      rcases hNow.step hStep with ⟨hNext, hLe', hGrows'⟩
      exact ⟨hNext, fun i => (hLe i).trans (hLe' i),
        fun i => (hGrows i).trans (hGrows' i)⟩

/- An event does not fail on the parity of a number. -/
theorem Orderly.parity
    (hOrderly : Orderly net)
    (hEnabled : net.Enabled i now e) :
    (net.nodes i).step now e ≠ .error .parity := by
  intro hError
  have hAccounted : Aodv.Accounted now
      (Aodv.cause now (net.nodes i) e)
      (net.nodes i) ((net.nodes i).step now e) :=
    Aodv.step_accounted e (hOrderly.sound i) hEnabled.fresh
  rcases hAccounted.error _ hError with ⟨s, hReach, hBroken⟩
  rcases hOrderly.node_reaches
      (hOrderly.told hEnabled.arrives) hReach with
    ⟨_, _, hDisciplined, _⟩
  rcases hBroken with hOdd | ⟨rt, hMem, hUp, hOdd⟩
  · exact hOdd hDisciplined.even
  · exact hOdd
      ((hDisciplined.entries rt hMem).usable (Or.inl hUp)).1

/-
  In every run, a node's own number is even and never
  decreases; the numbers in its table never decrease; a route
  that is up has an even number that its destination has given
  itself or passed; whatever is stored or was sent about a
  destination is at most its number plus one; and no assertion
  on a parity fails.
-/
theorem seqno_discipline
    (hInitial : net.Initial)
    (hReach : Reaches net net') :
    (∀ i, net'.own i % 2 = 0) ∧
    (∀ i, ∀ rt ∈ (net'.nodes i).rtable.entries,
      rt.rt_seqno ≤ net'.own rt.rt_dst + 1 ∧
      (rt.rt_flags = .RTF_UP → rt.rt_seqno % 2 = 0 ∧
        rt.rt_seqno ≤ net'.own rt.rt_dst)) ∧
    (∀ p ah, net'.Sent p → p.ptype = .PT_AODV ah →
      Told net'.own ah) ∧
    (∀ later, Reaches net' later → ∀ i,
      net'.own i ≤ later.own i ∧
      Grows (net'.nodes i) (later.nodes i)) ∧
    ∀ i now e, net'.Enabled i now e →
      (net'.nodes i).step now e ≠ .error .parity := by
  have hOrderly := ((orderly_initial hInitial).reaches hReach).1
  refine ⟨fun i => (hOrderly.disciplined i).even, ?_, ?_, ?_,
    fun i now e hEnabled => hOrderly.parity hEnabled⟩
  · intro i rt hMem
    have hKept := (hOrderly.disciplined i).entries rt hMem
    exact ⟨hKept.bound, fun hUp => hKept.usable (Or.inl hUp)⟩
  · rintro p ah ⟨i, hSent⟩ hType
    exact (hOrderly.disciplined i).out p ah hSent hType
  · intro later hLater i
    have hNext := hOrderly.reaches hLater
    exact ⟨hNext.2.1 i, hNext.2.2 i⟩

/- Nodes with empty tables, at the time 0. -/
def silent : AodvNetwork where
  nodes := fun i => Aodv.new i i (fun _ => none) (fun _ => 0)
  time := 0

/- A node says hello. -/
def greeted : AodvNetwork where
  nodes := Function.update silent.nodes 0
    (silent.nodes 0).sendHello
  time := 0

theorem seqno_discipline_hello :
    ∃ net', Reaches silent net' ∧ (net'.nodes 0).out ≠ [] ∧
      ∀ i, net'.own i % 2 = 0 := by
  have hReach : Reaches silent greeted := by
    apply Relation.ReflTransGen.single
    exact .step 0 0 .sendHello _
      ⟨le_rfl, trivial, trivial, trivial⟩ rfl
  refine ⟨greeted, hReach, ?_,
    (seqno_discipline (fun i => ⟨i, _, _, rfl⟩) hReach).1⟩
  change (Function.update silent.nodes 0
    (silent.nodes 0).sendHello 0).out ≠ []
  rw [Function.update_self]
  exact List.cons_ne_nil _ _

end AodvNetwork

end Ns2
