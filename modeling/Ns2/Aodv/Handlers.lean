import Ns2.Aodv.Steps

/-
  Every handler of an AODV node is a sequence of small steps.

  Main declarations:
    * `Aodv.Keeps`, `Aodv.Fresh`
    * `Aodv.Run`

  Correctness is proven by:
    * `Aodv.drain_ensures`
    * `Aodv.step_accounted`
    * `Aodv.Run.invariant`
-/

------------------------------------------------------------
-- Sequences of steps
------------------------------------------------------------

namespace Ns2

namespace Aodv

open Fallible

variable {now : ℚ}
variable {c : Cause}
variable {n s : Aodv}
variable {p : AodvPacket}
variable {dst id : nsaddr_t}
variable {rt : AodvRtEntry}

theorem Accounted.done : Accounted now c n (.ok n) :=
  .of_ok .refl

/- What happens after the first steps is accounted for. -/
theorem Accounted.after
    {x : Except Fault Aodv}
    (hReach : Reaches now c n s)
    (hX : Accounted now c s x) :
    Accounted now c n x := by
  refine Ensures.mono hX (fun _ => hReach.trans) ?_
  rintro fault ⟨s', hReach', hBroken⟩
  exact ⟨s', hReach.trans hReach', hBroken⟩

theorem Accounted.step
    {x : Except Fault Aodv}
    (hDoes : Does now c n s)
    (hX : Accounted now c s x) :
    Accounted now c n x :=
  hX.after (.single hDoes)

theorem Accounted.one
    (hDoes : Does now c n s) :
    Accounted now c n (.ok s) :=
  .of_ok (.single hDoes)

theorem Accounted.fault
    {fault : Fault}
    (hBroken : Broken c n fault) :
    Accounted now c n (.error fault) :=
  .of_error ⟨n, .refl, hBroken⟩

theorem Accounted.bind
    {x : Except Fault Aodv}
    {f : Aodv → Except Fault Aodv}
    (hX : Accounted now c n x)
    (hF : ∀ s, Reaches now c n s → Accounted now c s (f s)) :
    Accounted now c n (x >>= f) :=
  Ensures.bind hX fun s hReach => (hF s hReach).after hReach

theorem Accounted.ite
    {q : Prop}
    [Decidable q]
    {x y : Except Fault Aodv}
    (hThen : q → Accounted now c n x)
    (hElse : ¬ q → Accounted now c n y) :
    Accounted now c n (if q then x else y) :=
  Ensures.ite hThen hElse

theorem check_ensures
    {α : Type}
    {Q : α → Prop}
    {E : Fault → Prop}
    {fault : Fault}
    {q : Prop}
    [Decidable q]
    {f : Unit → Except Fault α}
    (hBroken : ¬ q → E fault)
    (hF : q → Ensures (f ()) Q E) :
    Ensures (Aodv.check fault q >>= f) Q E := by
  unfold Aodv.check
  by_cases hQ : q
  · rw [if_pos hQ]
    exact hF hQ
  · rw [if_neg hQ]
    exact .of_error (hBroken hQ)

theorem entry_ensures
    {α : Type}
    {Q : α → Prop}
    {E : Fault → Prop}
    {f : AodvRtEntry → Except Fault α}
    (hMiss : E .lookup)
    (hF : ∀ rt, rt ∈ n.rtable.entries → rt.rt_dst = dst →
      Ensures (f rt) Q E) :
    Ensures (n.entry dst >>= f) Q E := by
  unfold Aodv.entry
  cases hLookup : n.rtable.rt_lookup dst with
  | none => exact .of_error hMiss
  | some rt =>
      exact hF rt (AodvRtable.rt_lookup_mem hLookup)
        (AodvRtable.rt_lookup_dst hLookup)

theorem Accounted.check
    {fault : Fault}
    {q : Prop}
    [Decidable q]
    {f : Unit → Except Fault Aodv}
    (hBroken : ¬ q → Broken c n fault)
    (hF : q → Accounted now c n (f ())) :
    Accounted now c n (Aodv.check fault q >>= f) :=
  check_ensures (fun hQ => ⟨n, .refl, hBroken hQ⟩) hF

theorem Accounted.entry
    {f : AodvRtEntry → Except Fault Aodv}
    (hF : ∀ rt, rt ∈ n.rtable.entries → rt.rt_dst = dst →
      Accounted now c n (f rt)) :
    Accounted now c n (n.entry dst >>= f) :=
  entry_ensures ⟨n, .refl, trivial⟩ hF

/- The routes of a node are also those of the other one. -/
structure Keeps (n s : Aodv) : Prop where
  index : s.index = n.index
  routes : ∀ rt ∈ n.rtable.entries,
    ∃ rt' ∈ s.rtable.entries, SameRoute rt rt'

theorem SameRoute.refl (rt : AodvRtEntry) : SameRoute rt rt :=
  ⟨rfl, rfl, rfl, rfl, rfl⟩

theorem SameRoute.trans
    {rt₁ rt₂ rt₃ : AodvRtEntry}
    (hFirst : SameRoute rt₁ rt₂)
    (hNext : SameRoute rt₂ rt₃) :
    SameRoute rt₁ rt₃ :=
  ⟨hNext.rt_dst.trans hFirst.rt_dst,
    hNext.rt_seqno.trans hFirst.rt_seqno,
    hNext.rt_hops.trans hFirst.rt_hops,
    hNext.rt_flags.trans hFirst.rt_flags,
    hNext.rt_nexthop.trans hFirst.rt_nexthop⟩

theorem Keeps.refl (n : Aodv) : Keeps n n :=
  ⟨rfl, fun rt hMem => ⟨rt, hMem, .refl rt⟩⟩

theorem Keeps.trans
    {n₁ n₂ n₃ : Aodv}
    (hFirst : Keeps n₁ n₂)
    (hNext : Keeps n₂ n₃) :
    Keeps n₁ n₃ := by
  refine ⟨hNext.index.trans hFirst.index, fun rt hMem => ?_⟩
  rcases hFirst.routes rt hMem with ⟨rt₂, hMem₂, hSame⟩
  rcases hNext.routes rt₂ hMem₂ with ⟨rt₃, hMem₃, hSame'⟩
  exact ⟨rt₃, hMem₃, hSame.trans hSame'⟩

theorem Keeps.of_eq
    (hIndex : s.index = n.index)
    (hTable : s.rtable = n.rtable) :
    Keeps n s :=
  ⟨hIndex, fun rt hMem => ⟨rt, hTable ▸ hMem, .refl rt⟩⟩

theorem Keeps.touch
    {rt' : AodvRtEntry}
    (hMem : rt ∈ n.rtable.entries)
    (hSame : SameRoute rt rt') :
    Keeps n (n.store rt') := by
  refine ⟨rfl, fun e hE => ?_⟩
  by_cases hDst : e.rt_dst = rt'.rt_dst
  · rw [entry_unique hMem hE (hDst.trans hSame.rt_dst)]
    exact ⟨rt', (AodvRtable.mem_store hMem hSame.rt_dst).mpr
      (Or.inl rfl), hSame⟩
  · exact ⟨e, (AodvRtable.mem_store hMem hSame.rt_dst).mpr
      (Or.inr ⟨hE, hDst⟩), .refl e⟩

------------------------------------------------------------
-- Forwarding
------------------------------------------------------------

theorem quiet_drop : ¬ Speaks (.drop p) :=
  id

theorem quiet_send
    (hData : p.isAodv = false) :
    ¬ Speaks (.send p) := by
  change ¬ p.isAodv = true
  rw [hData]
  exact Bool.false_ne_true

/- The node of a packet that leaves along a route. -/
def sentAlong
    (now : ℚ)
    (rt : AodvRtEntry)
    (p : AodvPacket)
    (n : Aodv) : Aodv :=
  (n.store { rt with
    rt_expire := now + ACTIVE_ROUTE_TIMEOUT }).emit
      (.send { p with next_hop_ := rt.rt_nexthop, up := false })

theorem forward_route
    (hMem : rt ∈ n.rtable.entries)
    (hUp : rt.rt_flags = .RTF_UP) :
    Ensures (n.forward now (some rt.rt_dst) p)
      (fun s => (∃ a, ¬ Speaks a ∧ s = n.emit a) ∨
        s = n.sentAlong now rt p)
      (fun fault => fault = .lookup) := by
  unfold forward
  refine .ite (fun _ => ?_) fun _ => .ite (fun _ => ?_) fun _ => ?_
  · exact .of_ok (Or.inl ⟨_, quiet_drop, rfl⟩)
  · exact .of_ok (Or.inl ⟨_, id, rfl⟩)
  · refine entry_ensures rfl fun e hE hDst => ?_
    rw [entry_unique hMem hE hDst]
    refine check_ensures (fun hNot => absurd hUp hNot) fun _ => ?_
    exact check_ensures (fun _ => rfl) fun _ => .of_ok (Or.inr rfl)

theorem forward_none :
    Ensures (n.forward now none p)
      (fun s => (∃ a, ¬ Speaks a ∧ s = n.emit a) ∨
        s = n.emit (.send { p with up := false }))
      (fun fault => fault = .lookup) := by
  unfold forward
  refine .ite (fun _ => ?_) fun _ => .ite (fun _ => ?_) fun _ => ?_
  · exact .of_ok (Or.inl ⟨_, quiet_drop, rfl⟩)
  · exact .of_ok (Or.inl ⟨_, id, rfl⟩)
  · exact check_ensures (fun _ => rfl) fun _ => .of_ok (Or.inr rfl)

theorem touch_expire (time : ℚ) :
    SameRoute rt { rt with rt_expire := time } :=
  ⟨rfl, rfl, rfl, rfl, rfl⟩

/- A data packet leaves along a route that is up. -/
theorem forward_data
    (hMem : rt ∈ n.rtable.entries)
    (hUp : rt.rt_flags = .RTF_UP)
    (hData : p.isAodv = false) :
    Ensures (n.forward now (some rt.rt_dst) p)
      (fun s => Reaches now c n s ∧ Keeps n s)
      (fun fault => ∃ s, Reaches now c n s ∧
        Broken c s fault) := by
  refine (forward_route hMem hUp).mono ?_ ?_
  · rintro s (⟨a, hQuiet, rfl⟩ | rfl)
    · exact ⟨.single (.act n a hQuiet), .of_eq rfl rfl⟩
    · have hSame := @touch_expire rt
        (now + ACTIVE_ROUTE_TIMEOUT)
      refine ⟨?_, ?_⟩
      · exact (Relation.ReflTransGen.single
          (.touch n rt _ hMem hSame)).tail
            (.act _ _ (quiet_send hData))
      · exact (Keeps.touch hMem hSame).trans (.of_eq rfl rfl)
  · rintro fault rfl
    exact ⟨n, .refl, trivial⟩

/- What holds of every state of a loop over buffered packets. -/
theorem drain_ensures
    {I : Aodv → Prop}
    {E : Fault → Prop}
    {body : AodvPacket → Aodv → Except Fault Aodv}
    (hStuck : E .rqueue)
    (hSound : ∀ s, I s → s.Sound)
    (hDeque : ∀ s r, I s →
      s.rqueue.dequeDst AodvPacket.daddr now dst = some r →
        I { s with rqueue := r.queue })
    (hBody : ∀ s p, I s → p.isAodv = false →
      Ensures (body p s) I E)
    (hI : I n) :
    Ensures (n.drain now dst body) I E := by
  unfold drain
  generalize n.rqueue.len.toNat + 1 = fuel
  induction fuel generalizing n with
  | zero => exact .of_error hStuck
  | succ fuel ih =>
      unfold drainLoop
      split
      · exact .of_error hStuck
      · next r hFound =>
          have hNext := hDeque n r hI hFound
          split
          · exact .of_ok hNext
          · next p ps hReturned =>
              rcases (hSound n hI).deque hFound with
                ⟨_, -, -, -, -, hData⟩
              rw [hReturned] at hData
              refine (hBody _ p hNext
                (hData p (List.mem_cons_self ..))).bind ?_
              exact fun s hs => ih hs

/- The table stays as it is while packets are dropped. -/
theorem drain_drop
    (hSound : n.Sound) :
    Ensures (n.drain now dst fun p n => .ok (n.emit (.drop p)))
      (fun s => Reaches now c n s ∧ s.rtable = n.rtable)
      (fun fault => ∃ s, Reaches now c n s ∧
        Broken c s fault) := by
  refine drain_ensures ⟨n, .refl, trivial⟩ ?_ ?_ ?_ ⟨.refl, rfl⟩
  · exact fun s hs => hSound.reaches hs.1
  · exact fun s r hs hDeque =>
      ⟨hs.1.tail (.deque s dst r hDeque), hs.2⟩
  · exact fun s p hs _ =>
      .of_ok ⟨hs.1.tail (.act s _ quiet_drop), hs.2⟩

theorem drain_drop_accounted
    (hSound : n.Sound) :
    Accounted now c n
      (n.drain now dst fun p n => .ok (n.emit (.drop p))) :=
  Ensures.mono (drain_drop hSound) (fun _ hs => hs.1)
    fun _ hFault => hFault

------------------------------------------------------------
-- Requests and errors
------------------------------------------------------------

theorem sendRequest_accounted
    (hSound : n.Sound) :
    Accounted now c n (n.sendRequest now dst) := by
  refine Accounted.entry fun rt hMem hDst => ?_
  subst hDst
  refine Accounted.ite (fun hUp => ?_) fun hFlags => ?_
  · refine Accounted.check (fun hHops => ?_) fun _ => .done
    exact ⟨rt, hMem, Or.inl ⟨hUp, not_not.mp hHops⟩⟩
  refine Accounted.ite (fun _ => .done) fun _ =>
    Accounted.ite (fun _ => ?_) fun _ => ?_
  · have hSame : SameRoute rt { rt with
        rt_req_timeout := now + MAX_RREQ_TIMEOUT
        rt_req_cnt := 0 } := ⟨rfl, rfl, rfl, rfl, rfl⟩
    have hStep := @Does.touch now c n rt _ hMem
      hSame
    exact Accounted.step hStep
      (drain_drop_accounted (hSound.does hStep))
  · have hSame : SameRoute rt (requested now rt) :=
      ⟨rfl, rfl, rfl, rfl, rfl⟩
    refine Accounted.step (.touch n rt _ hMem hSame) ?_
    have hMem' : requested now rt ∈
        (n.store (requested now rt)).rtable.entries :=
      (AodvRtable.mem_store hMem hSame.rt_dst).mpr (Or.inl rfl)
    generalize n.store (requested now rt) = m at hMem' ⊢
    refine Accounted.step (.aside m (m.bid + 1) m.nbhead m.bihead) ?_
    refine Accounted.check (fun hOdd => ?_) fun hEven => ?_
    · refine Or.inl fun hSeqno => hOdd ?_
      dsimp only at hSeqno ⊢
      omega
    · refine Accounted.step (.advance _ hEven) (.one (.send _ _ ?_))
      exact .request c (requested now rt) _ _ hMem' hFlags rfl rfl
        rfl rfl rfl

theorem sendError_accounted
    {re : HdrAodvError}
    (hLists : n.Lists re) :
    Accounted now c n (.ok (n.sendError re)) :=
  .one (.send n _ (.error c re hLists))

------------------------------------------------------------
-- Lost links
------------------------------------------------------------

/- The error that is put together lists what is down. -/
def Collects
    (now : ℚ)
    (c : Cause)
    (n : Aodv)
    (x : Aodv × HdrAodvError) : Prop :=
  Reaches now c n x.1 ∧ x.1.Lists x.2

theorem lists_alloc : n.Lists .alloc := by
  intro dest hIn
  rw [HdrAodvError.listed_alloc] at hIn
  cases hIn

/- A route that is written leaves those that are down. -/
theorem Lists.store
    {re : HdrAodvError}
    {rt' : AodvRtEntry}
    (hLists : n.Lists re)
    (hMem : rt ∈ n.rtable.entries)
    (hDst : rt'.rt_dst = rt.rt_dst)
    (hDown : rt.rt_flags = .RTF_DOWN → SameRoute rt rt') :
    (n.store rt').Lists re := by
  intro dest hIn
  rcases hLists dest hIn with ⟨e, hE, hThere, hSeqno, hFlags⟩
  by_cases hSame : e.rt_dst = rt'.rt_dst
  · have hUnique := entry_unique hMem hE (hSame.trans hDst)
    subst hUnique
    have hRoute := hDown hFlags
    exact ⟨rt', (AodvRtable.mem_store hMem hDst).mpr (Or.inl rfl),
      hDst.trans hThere, hRoute.rt_seqno.trans hSeqno,
      hRoute.rt_flags.trans hFlags⟩
  · exact ⟨e, (AodvRtable.mem_store hMem hDst).mpr
      (Or.inr ⟨hE, hSame⟩), hThere, hSeqno, hFlags⟩

theorem Lists.put
    {re re' : HdrAodvError}
    (hLists : n.Lists re)
    (hMem : rt ∈ n.rtable.entries)
    (hDown : rt.rt_flags = .RTF_DOWN)
    (hListed : re'.listed =
      re.listed ++ [(rt.rt_dst, rt.rt_seqno)]) :
    n.Lists re' := by
  intro dest hIn
  rw [hListed] at hIn
  rcases List.mem_append.mp hIn with hOld | hNew
  · exact hLists dest hOld
  · rw [List.mem_singleton.mp hNew]
    exact ⟨rt, hMem, rfl, rfl, hDown⟩

theorem put_ensures
    {α : Type}
    {Q : α → Prop}
    {E : Fault → Prop}
    {re : HdrAodvError}
    {seqno : Nat}
    {f : HdrAodvError → Except Fault α}
    (hFull : E .bounds)
    (hF : ∀ re', re'.listed = re.listed ++ [(dst, seqno)] →
      Ensures (f re') Q E) :
    Ensures (re.put dst seqno >>= f) Q E := by
  by_cases hRoom : re.DestCount < AODV_MAX_ERRORS
  · rcases @HdrAodvError.listed_put re dst seqno hRoom with
      ⟨re', hPut, hListed⟩
    rw [hPut]
    exact hF re' hListed
  · rw [HdrAodvError.put_full hRoom]
    exact .of_error hFull

theorem rt_down_flags (rt : AodvRtEntry) :
    rt.rt_down.rt_flags = .RTF_DOWN := by
  unfold AodvRtEntry.rt_down
  split
  · next hDown => exact hDown
  · rfl

theorem failEntry_ensures
    {ids : List nsaddr_t}
    {x : Aodv × HdrAodvError}
    (hId : id ∈ ids)
    (hX : Collects now (.lost ids) n x) :
    Ensures (failEntry id x dst)
      (Collects now (.lost ids) n)
      (fun fault => ∃ s, Reaches now (.lost ids) n s ∧
        Broken (.lost ids) s fault) := by
  rcases hX with ⟨hReach, hLists⟩
  refine entry_ensures ⟨x.1, hReach, trivial⟩
    fun rt hMem hDst => .ite ?_ ?_
  · rintro ⟨hHops, hNext⟩
    have hIn : rt.rt_nexthop ∈ ids := hNext ▸ hId
    refine check_ensures (fun hNot => ?_) fun hUp => ?_
    · exact ⟨x.1, hReach, rt, hMem,
        Or.inr ⟨hHops, hNot, .lost ids rt hIn⟩⟩
    refine check_ensures (fun hOdd => ?_) fun hEven => ?_
    · exact ⟨x.1, hReach, Or.inr ⟨rt, hMem, hUp, hOdd⟩⟩
    refine put_ensures ⟨x.1, hReach, trivial⟩ fun re' hListed =>
      .of_ok ?_
    have hLoses := Loses.lost ids rt hUp hHops hIn hEven
    have hDown : SameRoute
        (AodvRtEntry.rt_down
          { rt with rt_seqno := rt.rt_seqno + 1 })
        ((AodvRtEntry.rt_down
          { rt with rt_seqno := rt.rt_seqno + 1 }).pc_delete id) :=
      ⟨rfl, rfl, rfl, rfl, rfl⟩
    have hSame : ((AodvRtEntry.rt_down
        { rt with rt_seqno := rt.rt_seqno + 1 }).pc_delete
          id).rt_dst = rt.rt_dst :=
      AodvRtEntry.rt_down_dst _
    have hSeqno : ((AodvRtEntry.rt_down
        { rt with rt_seqno := rt.rt_seqno + 1 }).pc_delete
          id).rt_seqno = rt.rt_seqno + 1 :=
      AodvRtEntry.rt_down_seqno _
    have hRest := hLists.store hMem hSame fun hAlso =>
      absurd (hUp.symm.trans hAlso) RouteFlags.noConfusion
    refine ⟨hReach.tail (.lose x.1 rt _ _ hMem hLoses hDown), ?_⟩
    refine hRest.put ((AodvRtable.mem_store hMem hSame).mpr
      (Or.inl rfl)) (rt_down_flags _) ?_
    rw [hListed, hSame, hSeqno]
  · intro _
    have hSame : SameRoute rt (rt.pc_delete id) :=
      ⟨rfl, rfl, rfl, rfl, rfl⟩
    exact .of_ok ⟨hReach.tail (.touch x.1 rt _ hMem hSame),
      hLists.store hMem rfl fun _ => hSame⟩

/- The error goes out if it lists a destination. -/
theorem collected_accounted
    {x : Aodv × HdrAodvError}
    (hX : Collects now c n x) :
    Accounted now c n
      (if 0 < x.2.DestCount then .ok (x.1.sendError x.2)
      else .ok x.1) :=
  Accounted.after hX.1 (Accounted.ite
    (fun _ => sendError_accounted hX.2) fun _ => .done)

theorem handle_link_failure_accounted
    {ids : List nsaddr_t}
    (hId : id ∈ ids) :
    Accounted now (.lost ids) n (n.handle_link_failure id) := by
  refine Ensures.bind (Ensures.foldlM n.rtable.dsts ?_
    (I := Collects now (.lost ids) n) ⟨.refl, lists_alloc⟩) ?_
  · exact fun dst _ x hX => failEntry_ensures hId hX
  · exact fun x hX => collected_accounted hX

theorem nb_delete_accounted
    {ids : List nsaddr_t}
    (hId : id ∈ ids) :
    Accounted now (.lost ids) n (n.nb_delete id) := by
  refine Accounted.check (fun hOdd => ?_) fun hEven => ?_
  · refine Or.inl fun hSeqno => hOdd ?_
    dsimp only
    omega
  · refine Accounted.step (.advance n hEven) ?_
    exact Accounted.step (.aside _ _ _ _)
      (handle_link_failure_accounted hId)

theorem nb_purge_accounted :
    Accounted now (cause now n .nb_purge) n (n.nb_purge now) := by
  refine Ensures.foldlM n.nbhead ?_ .refl
  intro nb hMem s hs
  refine Accounted.after hs (Accounted.ite (fun hOld => ?_)
    fun _ => .done)
  apply nb_delete_accounted
  apply List.mem_map_of_mem
  exact List.mem_filter.mpr ⟨hMem, decide_eq_true hOld⟩

theorem enque_accounted
    (hUid : c.uid = some p.uid_)
    (hData : p.isAodv = false)
    (hNew : ∀ x ∈ n.rqueue.packets, x.uid_ ≠ p.uid_) :
    Accounted now c n (n.enque now p) := by
  unfold enque
  split
  · exact Accounted.fault trivial
  · next r hEnque =>
      exact Accounted.one (.enque n p r hUid hData hNew hEnque)

theorem local_rt_repair_accounted
    (hSound : n.Sound)
    (hData : p.isAodv = false)
    (hNew : ∀ x ∈ n.rqueue.packets, x.uid_ ≠ p.uid_) :
    Accounted now (.repair p) n
      (n.local_rt_repair now p.daddr p) := by
  refine Accounted.bind (Accounted.bind
    (enque_accounted rfl hData hNew) fun s hs => ?_) fun s hs => ?_
  · refine Accounted.entry fun rt hMem hDst => ?_
    have hStep := @Does.repair now _ s rt p rfl hMem hDst
    exact Accounted.step hStep
      (sendRequest_accounted ((hSound.reaches hs).does hStep))
  · exact Accounted.entry fun rt hMem hDst => .one (.act s _ id)

theorem rt_ll_failed_accounted
    (hSound : n.Sound)
    (hNew : ∀ x ∈ n.rqueue.packets, x.uid_ ≠ p.uid_) :
    Accounted now (cause now n (.rt_ll_failed p)) n
      (n.rt_ll_failed now p) := by
  unfold rt_ll_failed cause
  refine Accounted.ite (fun _ => .one (.act n _ quiet_drop))
    fun hData => ?_
  push Not at hData
  dsimp only
  cases n.rtable.rt_lookup p.daddr with
  | none => exact .one (.act n _ quiet_drop)
  | some rt =>
      dsimp only
      by_cases hNear : (rt.rt_hops : Int) < p.num_forwards
      · rw [if_pos hNear, if_pos hNear]
        refine local_rt_repair_accounted hSound ?_ hNew
        unfold AodvPacket.isAodv
        rw [hData.1]
      · rw [if_neg hNear, if_neg hNear]
        refine Accounted.step (.act n (.drop p) quiet_drop) ?_
        exact Accounted.step (.act _ (.filter p.next_hop_) id)
          (nb_delete_accounted (List.mem_singleton_self _))

theorem LocalRepairTimer_handle_accounted :
    Accounted now (.timer p) n
      (.ok (n.LocalRepairTimer_handle p)) := by
  unfold LocalRepairTimer_handle
  cases hLookup : n.rtable.rt_lookup p.daddr with
  | none => exact .done
  | some rt =>
      dsimp only
      split
      · next hFlags =>
          exact .one (.lose n rt _ _
            (AodvRtable.rt_lookup_mem hLookup)
            (.timer p rt (AodvRtable.rt_lookup_dst hLookup) hFlags)
            (.refl _))
      · exact .done

------------------------------------------------------------
-- Routes
------------------------------------------------------------

theorem forward_data_accounted
    (hMem : rt ∈ n.rtable.entries)
    (hDst : rt.rt_dst = dst)
    (hUp : rt.rt_flags = .RTF_UP)
    (hData : p.isAodv = false) :
    Accounted now c n (n.forward now (some dst) p) := by
  subst hDst
  exact Ensures.mono (forward_data hMem hUp hData)
    (fun _ hs => hs.1) fun _ hFault => hFault

theorem rt_resolve_accounted
    (hSound : n.Sound)
    (hUid : c.uid = some p.uid_)
    (hData : p.isAodv = false)
    (hNew : ∀ x ∈ n.rqueue.packets, x.uid_ ≠ p.uid_) :
    Accounted now c n (n.rt_resolve now p) := by
  have hEnsure := @Does.ensure now c n p.daddr
  have hSound' := hSound.does hEnsure
  rw [← @ensure_rqueue _ p.daddr] at hNew
  refine Accounted.step hEnsure ?_
  unfold rt_resolve
  dsimp only
  generalize n.ensure p.daddr = m at hSound' hNew ⊢
  refine Accounted.entry fun rt hMem hDst => ?_
  refine Accounted.ite (fun hUp => ?_) fun hNotUp => ?_
  · refine Accounted.check (fun hHops => ?_) fun _ =>
      forward_data_accounted hMem hDst hUp hData
    exact ⟨rt, hMem, Or.inl ⟨hUp, not_not.mp hHops⟩⟩
  refine Accounted.ite (fun _ => ?_) fun _ => ?_
  · refine Accounted.bind (enque_accounted hUid hData hNew)
      fun s hs => ?_
    exact sendRequest_accounted (hSound'.reaches hs)
  refine Accounted.ite (fun _ => ?_) fun hNotRepair => ?_
  · exact enque_accounted hUid hData hNew
  · refine Accounted.check (fun hNotDown => ?_) fun hDown => ?_
    · cases hFlags : rt.rt_flags with
      | RTF_DOWN => exact absurd hFlags hNotDown
      | RTF_UP => exact absurd hFlags hNotUp
      | RTF_IN_REPAIR => exact absurd hFlags hNotRepair
    · refine put_ensures ⟨m, .refl, trivial⟩ fun re' hListed => ?_
      have hLists := lists_alloc.put hMem hDown hListed
      refine Accounted.step (.send m _ (.error c re' hLists)) ?_
      exact Accounted.one (.act _ (.drop p) quiet_drop)

/- Buffered packets leave along a route that is up. -/
theorem drain_route
    {body : AodvPacket → Aodv → Except Fault Aodv}
    (hSound : n.Sound)
    (hMem : rt ∈ n.rtable.entries)
    (hBody : ∀ s p rt', Reaches now c n s →
      rt' ∈ s.rtable.entries → SameRoute rt rt' →
        p.isAodv = false →
          Ensures (body p s)
            (fun s' => Reaches now c s s' ∧ Keeps s s')
            (fun fault => ∃ s', Reaches now c s s' ∧
              Broken c s' fault)) :
    Ensures (n.drain now dst body)
      (fun s => Reaches now c n s ∧ Keeps n s)
      (fun fault => ∃ s, Reaches now c n s ∧
        Broken c s fault) := by
  refine drain_ensures ⟨n, .refl, trivial⟩ ?_ ?_ ?_
    ⟨.refl, .refl n⟩
  · exact fun s hs => hSound.reaches hs.1
  · exact fun s r hs hDeque =>
      ⟨hs.1.tail (.deque s dst r hDeque),
        hs.2.trans (.of_eq rfl rfl)⟩
  · rintro s p ⟨hReach, hKeeps⟩ hData
    rcases hKeeps.routes rt hMem with ⟨rt', hMem', hSame⟩
    refine (hBody s p rt' hReach hMem' hSame hData).mono ?_ ?_
    · exact fun s' hs' =>
        ⟨hReach.trans hs'.1, hKeeps.trans hs'.2⟩
    · rintro fault ⟨s', hReach', hBroken⟩
      exact ⟨s', hReach.trans hReach', hBroken⟩

theorem purgeEntry_accounted
    (hSound : n.Sound) :
    Accounted now .purge n (purgeEntry now n dst) := by
  refine Accounted.entry fun rt hMem hDst => ?_
  subst hDst
  refine Accounted.ite ?_ fun _ => Accounted.ite (fun hUp => ?_)
    fun hNotUp => ?_
  · rintro ⟨hUp, -⟩
    refine Accounted.check (fun hHops => ?_) fun hHops => ?_
    · exact ⟨rt, hMem, Or.inl ⟨hUp, not_not.mp hHops⟩⟩
    refine Ensures.bind (drain_drop hSound) ?_
    rintro s ⟨hReach, hTable⟩
    have hMem' : rt ∈ s.rtable.entries := hTable ▸ hMem
    refine Accounted.after hReach (Accounted.check ?_ fun hOdd => ?_)
    · refine fun hNot => Or.inr ⟨rt, hMem', hUp, fun hEven => ?_⟩
      apply hNot
      dsimp only
      omega
    · exact Accounted.one (.lose s rt _ _ hMem'
        (.purge rt hUp hHops hOdd) (.refl _))
  · refine Accounted.check (fun hHops => ?_) fun _ => ?_
    · exact ⟨rt, hMem, Or.inl ⟨hUp, not_not.mp hHops⟩⟩
    refine Ensures.mono (drain_route hSound hMem ?_)
      (fun _ hs => hs.1) fun _ hFault => hFault
    intro s p rt' _ hMem' hSame hData
    rw [← hSame.rt_dst]
    exact forward_data hMem' (hSame.rt_flags.trans hUp) hData
  · unfold find
    split
    · exact Accounted.fault trivial
    · exact Accounted.ite (fun _ => sendRequest_accounted hSound)
        fun _ => .done

theorem rt_purge_accounted
    (hSound : n.Sound) :
    Accounted now .purge n (n.rt_purge now) :=
  Ensures.foldlM n.rtable.dsts
    (fun _ _ _ hs => Accounted.after hs
      (purgeEntry_accounted (hSound.reaches hs))) .refl

------------------------------------------------------------
-- Received requests
------------------------------------------------------------

variable {rq : HdrAodvRequest}
variable {rp : HdrAodvReply}

theorem ensure_index :
    (n.ensure dst).index = n.index := by
  unfold ensure
  split <;> rfl

theorem Does.index
    (hDoes : Does now c n s) :
    s.index = n.index := by
  cases hDoes with
  | ensure dst => exact ensure_index
  | _ => rfl

theorem reaches_index
    (hReach : Reaches now c n s) :
    s.index = n.index := by
  induction hReach with
  | refl => rfl
  | tail _ hDoes ih => exact hDoes.index.trans ih

theorem offers_reversed
    {saddr index : nsaddr_t}
    (hSaddr : p.saddr = saddr)
    (hOther : rq.rq_src ≠ index)
    (hDst : rt.rt_dst = rq.rq_src) :
    Offers (.request rq p) index (reversed now saddr rq rt) := by
  subst hSaddr
  unfold reversed AodvRtEntry.rt_update
  dsimp only
  split
  · exact .request rq p _ index hOther hDst rfl rfl rfl rfl
  · exact .request rq p _ index hOther hDst rfl rfl rfl rfl

theorem Offers.up
    {index : nsaddr_t}
    (hOffers : Offers c index rt) :
    rt.rt_flags = .RTF_UP := by
  cases hOffers with
  | request rq p _ _ hOther hDst hSeqno hHops hNext hUp =>
      exact hUp
  | reply rp p _ _ hDst hSeqno hHops hNext hUp => exact hUp

theorem Offers.same
    {index : nsaddr_t}
    {rt' : AodvRtEntry}
    (hOffers : Offers c index rt)
    (hSame : SameRoute rt rt') :
    Offers c index rt' := by
  rcases hSame with ⟨hDst', hSeqno', hHops', hFlags', hNext'⟩
  cases hOffers with
  | request rq p _ _ hOther hDst hSeqno hHops hNext hUp =>
      exact .request rq p rt' _ hOther (hDst'.trans hDst)
        (hSeqno'.trans hSeqno) (hHops'.trans hHops)
        (hNext'.trans hNext) (hFlags'.trans hUp)
  | reply rp p _ _ hDst hSeqno hHops hNext hUp =>
      exact .reply rp p rt' _ (hDst'.trans hDst)
        (hSeqno'.trans hSeqno) (hHops'.trans hHops)
        (hNext'.trans hNext) (hFlags'.trans hUp)

theorem forwardReverse_ensures
    (hMem : rt ∈ n.rtable.entries)
    (hDst : rt.rt_dst = dst)
    (hData : p.isAodv = false) :
    Ensures (forwardReverse now dst p n)
      (fun s => Reaches now c n s ∧ Keeps n s)
      (fun fault => ∃ s, Reaches now c n s ∧
        Broken c s fault) := by
  subst hDst
  refine entry_ensures ⟨n, .refl, trivial⟩ fun e hE hSame => ?_
  rw [entry_unique hMem hE hSame]
  refine .ite (fun hUp => ?_) fun _ => .of_ok ⟨.refl, .refl n⟩
  refine check_ensures (fun hHops => ?_) fun _ =>
    forward_data hMem hUp hData
  exact ⟨n, .refl, rt, hMem, Or.inl ⟨hUp, not_not.mp hHops⟩⟩

theorem recvReverse_accounted
    (hSound : n.Sound)
    (hOther : rq.rq_src ≠ n.index) :
    Accounted now (.request rq p) n
      (n.recvReverse now p.saddr rq) := by
  have hEnsure := @Does.ensure now (.request rq p) n
    rq.rq_src
  have hSound' := hSound.does hEnsure
  rw [← @ensure_index _ rq.rq_src] at hOther
  refine Accounted.step hEnsure ?_
  unfold recvReverse
  dsimp only
  generalize n.ensure rq.rq_src = m at hSound' hOther ⊢
  refine Accounted.entry fun rt0 hMem hDst => ?_
  refine Accounted.ite (fun hFresh => ?_) fun _ => ?_
  · have hOffers := @offers_reversed now p
      { rt0 with
        rt_expire := max rt0.rt_expire (now + REV_ROUTE_LIFE) }
      rq p.saddr m.index rfl hOther hDst
    generalize reversed now p.saddr rq
      { rt0 with
        rt_expire := max rt0.rt_expire (now + REV_ROUTE_LIFE) } =
      rt' at hOffers ⊢
    have hThere : rt'.rt_dst = rq.rq_src ∧
        rt'.rt_seqno = rq.rq_src_seqno ∧
          rt'.rt_hops = rq.rq_hop_count := by
      cases hOffers with
      | request _ _ _ _ _ hDst' hSeqno' hHops' _ _ =>
          exact ⟨hDst', hSeqno', hHops'⟩
    have hSame := hThere.1.trans hDst.symm
    have hFresher : Fresher rt0 rt' := by
      unfold Fresher
      rw [hThere.2.1, hThere.2.2]
      exact hFresh
    have hStep := @Does.update now _ m rt0 rt' hMem hSame
      hOffers hFresher
    have hMem' : rt' ∈ (m.store rt').rtable.entries :=
      (AodvRtable.mem_store hMem hSame).mpr (Or.inl rfl)
    refine Accounted.step hStep (Accounted.check
      (fun hNotUp => absurd hOffers.up hNotUp) fun _ => ?_)
    refine Ensures.mono
      (drain_route (hSound'.does hStep) hMem' ?_)
      (fun _ hs => hs.1) fun _ hFault => hFault
    intro s q rt'' _ hMem'' hSame'' hData
    exact forwardReverse_ensures hMem''
      (hSame''.rt_dst.trans hThere.1) hData
  · exact Accounted.one (.touch m rt0 _ hMem
      ⟨rfl, rfl, rfl, rfl, rfl⟩)

theorem touch_precursor (id : nsaddr_t) :
    SameRoute rt (rt.pc_insert id) := by
  unfold AodvRtEntry.pc_insert
  split <;> exact ⟨rfl, rfl, rfl, rfl, rfl⟩

theorem answerSeqno_even (seqno dst_seqno : Nat) :
    answerSeqno seqno dst_seqno % 2 = 0 := by
  unfold answerSeqno
  dsimp only
  split <;> omega

theorem recvAnswer_accounted
    (hOther : rq.rq_src ≠ n.index)
    (hElse : rq.rq_dst ≠ n.index)
    (hMem : rt ∈ n.rtable.entries)
    (hDst : rt.rt_dst = rq.rq_dst)
    (hHops : rt.rt_hops ≠ INFINITY2)
    (hFresh : rq.rq_dst_seqno ≤ rt.rt_seqno) :
    Accounted now (.request rq p) n
      (n.recvAnswer now rt rq) := by
  refine Accounted.check (fun hNot => absurd hDst.symm hNot)
    fun _ => ?_
  unfold sendReply
  rw [bind_assoc]
  refine Accounted.entry fun rt0 hMem0 hBack => ?_
  have hMakes := Makes.replyCached rq p rt rt0
    { rp_hop_count := (rt.rt_hops + 1) % 256
      rp_dst := rq.rq_dst
      rp_dst_seqno := rt.rt_seqno
      rp_src := n.index
      rp_lifetime := u_int32_t (rt.rt_expire - now)
      rp_timestamp := rq.rq_timestamp }
    hOther hElse hMem hDst hHops hFresh hMem0 hBack rfl hDst.symm
    rfl rfl
  refine Accounted.step (.send n _ hMakes) ?_
  refine Accounted.entry fun rt1 hMem1 _ => ?_
  refine Accounted.step (.touch _ rt _ hMem
    (touch_precursor rt1.rt_nexthop)) ?_
  refine Accounted.entry fun rt2 hMem2 _ => ?_
  exact Accounted.one (.touch _ rt2 _ hMem2
    (touch_precursor rt.rt_nexthop))

theorem relayed_accounted
    (hOther : rq.rq_src ≠ n.index)
    (hElse : rq.rq_dst ≠ n.index)
    (hStale : ∀ rt, n.rtable.rt_lookup rq.rq_dst = some rt →
      rt.rt_hops = INFINITY2 ∨ rt.rt_seqno < rq.rq_dst_seqno) :
    Accounted now (.request rq p) n
      (n.forward now none (relayed n.index
        (n.rtable.rt_lookup rq.rq_dst) rq p)) := by
  refine Ensures.mono forward_none ?_ ?_
  · rintro s (⟨a, hQuiet, rfl⟩ | rfl)
    · exact .single (.act n a hQuiet)
    · exact .single (.send n _
        (.relayRequest rq p hOther hElse hStale))
  · rintro fault rfl
    exact ⟨n, .refl, trivial⟩

theorem recvForward_accounted
    (hOther : rq.rq_src ≠ n.index) :
    Accounted now (.request rq p) n
      (n.recvForward now rq p) := by
  unfold recvForward
  refine Accounted.ite (fun hHere => ?_) fun hElse => ?_
  · refine Accounted.step (.answer n rq p rfl hHere) ?_
    refine Accounted.entry fun rt hMem hBack => ?_
    exact Accounted.one (.send _ _ (.replyOwn rq p rt _ hOther
      hHere hMem hBack rfl rfl rfl (answerSeqno_even _ _) rfl))
  · have hRelay := @relayed_accounted now n p rq hOther hElse
    cases hLookup : n.rtable.rt_lookup rq.rq_dst with
    | none =>
        rw [hLookup] at hRelay
        refine hRelay ?_
        rintro rt ⟨⟩
    | some rt =>
        rw [hLookup] at hRelay
        refine Accounted.ite ?_ fun hStale => hRelay ?_
        · rintro ⟨hHops, hFresh⟩
          exact recvAnswer_accounted hOther hElse
            (AodvRtable.rt_lookup_mem hLookup)
            (AodvRtable.rt_lookup_dst hLookup) hHops hFresh
        · rintro rt' ⟨⟩
          rw [not_and_or, not_not, not_le] at hStale
          exact hStale

theorem recvRequest_accounted
    (hSound : n.Sound) :
    Accounted now (.request rq p) n
      (n.recvRequest now rq p) := by
  unfold recvRequest
  refine Accounted.ite (fun _ => .done) fun hOther =>
    Accounted.ite (fun _ => .done) fun _ => ?_
  have hStep := @Does.aside now (.request rq p) n
    n.bid n.nbhead
    (⟨rq.rq_src, rq.rq_bcast_id, now + BCAST_ID_SAVE⟩ :: n.bihead)
  refine Accounted.step hStep (Accounted.bind
    (recvReverse_accounted (hSound.does hStep) hOther)
    fun s hs => ?_)
  refine recvForward_accounted ?_
  rw [reaches_index hs]
  exact hOther

------------------------------------------------------------
-- Received replies
------------------------------------------------------------

theorem forwardReplied_ensures
    (hMem : rt ∈ n.rtable.entries)
    (hDst : rt.rt_dst = dst)
    (hUp : rt.rt_flags = .RTF_UP)
    (hData : p.isAodv = false) :
    Ensures (forwardReplied now dst p n)
      (fun s => Reaches now c n s ∧ Keeps n s)
      (fun fault => ∃ s, Reaches now c n s ∧
        Broken c s fault) := by
  subst hDst
  refine entry_ensures ⟨n, .refl, trivial⟩ fun e hE hSame => ?_
  rw [entry_unique hMem hE hSame]
  refine .ite (fun _ => ?_) fun _ => .of_ok ⟨.refl, .refl n⟩
  exact check_ensures (fun hNot => absurd hUp hNot) fun _ =>
    forward_data hMem hUp hData

theorem recvRelay_accounted
    (hElse : p.daddr ≠ n.index)
    (hMem : rt ∈ n.rtable.entries)
    (hOffers : Offers (.reply rp p) n.index rt) :
    Accounted now (.reply rp p) n (n.recvRelay now rp p) := by
  unfold recvRelay
  cases hLookup : n.rtable.rt_lookup p.daddr with
  | none => exact .one (.act n _ quiet_drop)
  | some rt0 =>
      have hMem0 := AodvRtable.rt_lookup_mem hLookup
      have hBack := AodvRtable.rt_lookup_dst hLookup
      refine Accounted.ite (fun hHops => ?_) fun _ =>
        .one (.act n _ quiet_drop)
      refine Accounted.check (fun hNotUp => ?_) fun hUp => ?_
      · exact ⟨rt0, hMem0, Or.inr ⟨hHops, hNotUp,
          .reply rp p rt0 rt hElse hBack hMem hOffers⟩⟩
      have hForward := @forward_route now n
        { p with
          ptype := .PT_AODV (.RREP
            { rp with
              rp_hop_count := (rp.rp_hop_count + 1) % 256
              rp_src := n.index }) } rt0 hMem0 hUp
      rw [hBack] at hForward
      refine Accounted.bind (Ensures.mono hForward ?_ ?_)
        fun s _ => ?_
      · rintro s (⟨a, hQuiet, rfl⟩ | rfl)
        · exact .single (.act n a hQuiet)
        · have hSame := @touch_expire rt0
            (now + ACTIVE_ROUTE_TIMEOUT)
          rcases (Keeps.touch hMem0 hSame).routes rt hMem with
            ⟨rt', hMem', hSame'⟩
          refine .tail (.single (.touch n rt0 _ hMem0 hSame)) ?_
          exact .send _ _ (.relayReply rp _ p rt'
            { rt0 with rt_expire := now + ACTIVE_ROUTE_TIMEOUT }
            hElse hMem' (hOffers.same hSame')
            ((AodvRtable.mem_store hMem0 hSame.rt_dst).mpr
              (Or.inl rfl)) hBack hUp rfl rfl rfl rfl)
      · rintro fault rfl
        exact ⟨n, .refl, trivial⟩
      · exact Accounted.entry fun rt' hMem' _ =>
          .one (.touch s rt' _ hMem' (touch_precursor _))

theorem offers_replied
    (index : nsaddr_t)
    (hDst : rt.rt_dst = rp.rp_dst) :
    Offers (.reply rp p) index
      (if p.daddr = index then timed now rp (replied now rp rt)
      else replied now rp rt) := by
  split
  · exact .reply rp p _ index hDst rfl rfl rfl rfl
  · exact .reply rp p _ index hDst rfl rfl rfl rfl

theorem recvReply_accounted
    (hSound : n.Sound) :
    Accounted now (.reply rp p) n (n.recvReply now rp p) := by
  have hEnsure := @Does.ensure now (.reply rp p) n
    rp.rp_dst
  have hSound' := hSound.does hEnsure
  refine Accounted.step hEnsure ?_
  unfold recvReply
  dsimp only
  generalize n.ensure rp.rp_dst = m at hSound' ⊢
  refine Accounted.entry fun rt hMem hDst => ?_
  refine Accounted.ite (fun hFresh => ?_) fun _ => .done
  have hOffers := @offers_replied now p rt rp m.index hDst
  generalize (if p.daddr = m.index then
    timed now rp (replied now rp rt) else replied now rp rt) =
      rt' at hOffers ⊢
  have hThere : rt'.rt_dst = rp.rp_dst ∧
      rt'.rt_seqno = rp.rp_dst_seqno ∧
        rt'.rt_hops = rp.rp_hop_count := by
    cases hOffers with
    | reply _ _ _ _ hDst' hSeqno' hHops' _ _ =>
        exact ⟨hDst', hSeqno', hHops'⟩
  have hSame := hThere.1.trans hDst.symm
  have hFresher : Fresher rt rt' := by
    unfold Fresher
    rw [hThere.2.1, hThere.2.2]
    exact hFresh.imp_right fun h => ⟨h.1.symm, h.2⟩
  have hStep := @Does.update now _ m rt rt' hMem hSame
    hOffers hFresher
  have hMem' : rt' ∈ (m.store rt').rtable.entries :=
    (AodvRtable.mem_store hMem hSame).mpr (Or.inl rfl)
  refine Accounted.step hStep (Ensures.bind
    (drain_route (hSound'.does hStep) hMem' ?_) ?_)
  · intro s q rt'' _ hMem'' hSame'' hData
    exact forwardReplied_ensures hMem''
      (hSame''.rt_dst.trans hThere.1)
      (hSame''.rt_flags.trans hOffers.up) hData
  · rintro s ⟨hReach, hKeeps⟩
    refine Accounted.after hReach (Accounted.ite (fun _ => .done)
      fun hElse => ?_)
    rcases hKeeps.routes rt' hMem' with ⟨rt₂, hMem₂, hSame₂⟩
    refine recvRelay_accounted hElse hMem₂ ?_
    rw [hKeeps.index]
    exact hOffers.same hSame₂

------------------------------------------------------------
-- Received errors
------------------------------------------------------------

theorem errorEntry_ensures
    {re : HdrAodvError}
    {saddr : nsaddr_t}
    {dest : nsaddr_t × Nat}
    {x : Aodv × HdrAodvError}
    (hDest : dest ∈ re.listed)
    (hX : Collects now (.error re saddr) n x) :
    Ensures (errorEntry saddr x dest)
      (Collects now (.error re saddr) n)
      (fun fault => ∃ s, Reaches now (.error re saddr) n s ∧
        Broken (.error re saddr) s fault) := by
  rcases hX with ⟨hReach, hLists⟩
  unfold errorEntry
  cases hLookup : x.1.rtable.rt_lookup dest.1 with
  | none => exact .of_ok ⟨hReach, hLists⟩
  | some rt =>
      have hMem := AodvRtable.rt_lookup_mem hLookup
      have hDst := AodvRtable.rt_lookup_dst hLookup
      have hListed : (rt.rt_dst, dest.2) ∈ re.listed := by
        rw [hDst]
        exact hDest
      refine .ite ?_ fun _ => .of_ok ⟨hReach, hLists⟩
      rintro ⟨⟨hHops, hNext⟩, hOld⟩
      refine check_ensures (fun hNot => ?_) fun hUp => ?_
      · exact ⟨x.1, hReach, rt, hMem, Or.inr ⟨hHops, hNot,
          .error re saddr rt dest.2 hListed hNext hOld⟩⟩
      refine check_ensures (fun hOdd => ?_) fun hEven => ?_
      · exact ⟨x.1, hReach, Or.inr ⟨rt, hMem, hUp, hOdd⟩⟩
      have hLoses := Loses.error re saddr rt dest.2 hUp hHops
        hNext hListed hOld hEven
      have hStep := @Does.lose now _ x.1 rt _ _ hMem hLoses
        (.refl _)
      have hSame := AodvRtEntry.rt_down_dst
        { rt with rt_seqno := dest.2 }
      have hMem' := (AodvRtable.mem_store (e := AodvRtEntry.rt_down
        { rt with rt_seqno := dest.2 }) hMem hSame).mpr
          (Or.inl rfl)
      have hRest := hLists.store hMem hSame fun hAlso =>
        absurd (hUp.symm.trans hAlso) RouteFlags.noConfusion
      have hFlags := rt_down_flags { rt with rt_seqno := dest.2 }
      dsimp only
      generalize AodvRtEntry.rt_down { rt with rt_seqno := dest.2 }
        = down at hStep hMem' hRest hFlags ⊢
      have hReach' := (hReach.tail hStep).tail
        (.act _ (.filter saddr) id)
      refine .ite (fun _ => ?_) fun _ => .of_ok ⟨hReach', hRest⟩
      refine put_ensures ⟨_, hReach', trivial⟩
        fun re' hListed' => .of_ok ?_
      have hClear : SameRoute down down.pc_clear :=
        ⟨rfl, rfl, rfl, rfl, rfl⟩
      exact ⟨hReach'.tail (.touch _ down _ hMem' hClear),
        (hRest.put hMem' hFlags hListed').store hMem' rfl
          fun _ => hClear⟩

theorem recvError_accounted
    {re : HdrAodvError}
    {saddr : nsaddr_t} :
    Accounted now (.error re saddr) n (n.recvError saddr re) := by
  refine Ensures.bind (Ensures.foldlM re.listed ?_
    (I := Collects now (.error re saddr) n)
    ⟨.refl, lists_alloc⟩) ?_
  · exact fun dest hDest x hX => errorEntry_ensures hDest hX
  · exact fun x hX => collected_accounted hX

------------------------------------------------------------
-- Events
------------------------------------------------------------

theorem recvHello_accounted
    {rh : HdrAodvReply} :
    Accounted now c n (n.recvHello now rh) := by
  unfold recvHello
  refine Accounted.ite (fun _ => .one (.aside n _ _ _)) fun _ => ?_
  refine Accounted.step (.aside n n.bid
    (⟨rh.rp_dst, now + 3 / 2 * ALLOWED_HELLO_LOSS *
      HELLO_INTERVAL⟩ :: n.nbhead) n.bihead) ?_
  refine Accounted.check (fun hOdd => ?_) fun hEven =>
    .one (.advance _ hEven)
  refine Or.inl fun hSeqno => hOdd ?_
  dsimp only at hSeqno ⊢
  omega

/- The packet that comes in is not stored already. -/
def Fresh
    (n : Aodv) : Event → Prop
| .recv p => p.isAodv = false →
    ∀ x ∈ n.rqueue.packets, x.uid_ ≠ p.uid_
| .rt_ll_failed p => ∀ x ∈ n.rqueue.packets, x.uid_ ≠ p.uid_
| _ => True

theorem arrived_uid (p : AodvPacket) :
    (n.arrived p).uid_ = p.uid_ := by
  unfold arrived
  split
  · split <;> rfl
  · rfl

theorem arrived_data
    (hData : p.isAodv = false) :
    (n.arrived p).isAodv = false := by
  unfold arrived
  split
  · split <;> exact hData
  · exact hData

theorem recvData_accounted
    (hSound : n.Sound)
    (hData : p.isAodv = false)
    (hNew : ∀ x ∈ n.rqueue.packets, x.uid_ ≠ p.uid_) :
    Accounted now (.data p) n
      (if p.saddr = n.index ∧ p.num_forwards ≠ 0 then
        .ok (n.emit (.drop p))
      else if p.saddr ≠ n.index ∧ p.ttl_ - 1 = 0 then
        .ok (n.emit (.drop p))
      else if p.daddr ≠ IP_BROADCAST then
        n.rt_resolve now (n.arrived p)
      else n.forward now none (n.arrived p)) := by
  refine Accounted.ite (fun _ => .one (.act n _ quiet_drop))
    fun _ => Accounted.ite
      (fun _ => .one (.act n _ quiet_drop)) fun _ => ?_
  refine Accounted.ite (fun _ => ?_) fun _ => ?_
  · refine rt_resolve_accounted hSound ?_ (arrived_data hData) ?_
    · exact congrArg some (arrived_uid p).symm
    · rw [arrived_uid]
      exact hNew
  · refine Ensures.mono forward_none ?_ ?_
    · rintro s (⟨a, hQuiet, rfl⟩ | rfl)
      · exact .single (.act n a hQuiet)
      · exact .single (.act n _
          (quiet_send (arrived_data hData)))
    · rintro fault rfl
      exact ⟨n, .refl, trivial⟩

theorem recv_accounted
    (hSound : n.Sound)
    (hFresh : n.Fresh (.recv p)) :
    Accounted now (cause now n (.recv p)) n (n.recv now p) := by
  have hHere := @recvData_accounted now n p hSound
  unfold recv
  cases hType : p.ptype with
  | DATA =>
      have hData : p.isAodv = false := by
        rw [AodvPacket.isAodv, hType]
      have hCause : cause now n (.recv p) = .data p := by
        simp only [cause, hType]
      rw [hCause]
      exact hHere hData (hFresh hData)
  | OTHER =>
      have hData : p.isAodv = false := by
        rw [AodvPacket.isAodv, hType]
      have hCause : cause now n (.recv p) = .data p := by
        simp only [cause, hType]
      rw [hCause]
      exact hHere hData (hFresh hData)
  | PT_AODV ah =>
      unfold cause
      dsimp only
      rw [hType]
      cases ah with
      | RREQ rq => exact recvRequest_accounted hSound
      | RREP rp => exact recvReply_accounted hSound
      | RERR re => exact recvError_accounted
      | HELLO rh => exact recvHello_accounted

/- Every event is a sequence of steps, or fails on its way. -/
theorem step_accounted
    (e : Event)
    (hSound : n.Sound)
    (hFresh : n.Fresh e) :
    Accounted now (cause now n e) n (n.step now e) := by
  cases e with
  | recv p => exact recv_accounted hSound hFresh
  | rt_ll_failed p => exact rt_ll_failed_accounted hSound hFresh
  | rt_purge => exact rt_purge_accounted hSound
  | nb_purge => exact nb_purge_accounted
  | id_purge => exact .one (.aside n _ _ _)
  | sendHello => exact .one (.send n _ (.hello .other _))
  | repair p => exact LocalRepairTimer_handle_accounted

------------------------------------------------------------
-- Runs
------------------------------------------------------------

/- A repair timer fires with a packet that was scheduled. -/
def Pending
    (n : Aodv) : Event → Prop
| .repair p => ∃ delay, AodvAction.schedule delay p ∈ n.out
| _ => True

/- The states of a node, with the time of the last event. -/
inductive Run : ℚ → Aodv → Prop where
| new
    (id here_addr : nsaddr_t)
    (next : AodvPacket → Option AodvPacket)
    (ts : AodvPacket → ℚ) :
    Run 0 (new id here_addr next ts)
| step
    {time now : ℚ}
    {n n' : Aodv}
    (e : Event)
    (hRun : Run time n)
    (hNow : time ≤ now)
    (hFresh : n.Fresh e)
    (hPending : n.Pending e)
    (hStep : n.step now e = .ok n') :
    Run now n'

theorem new_sound
    (id here_addr : nsaddr_t)
    (next : AodvPacket → Option AodvPacket)
    (ts : AodvPacket → ℚ) :
    (new id here_addr next ts).Sound := by
  refine ⟨[], ⟨List.nodup_nil, rfl, rfl, rfl⟩, rfl, ?_, ?_⟩
  · change (0 : Int) ≤ 64
    decide
  · intro x hx
    cases hx

theorem Run.sound
    {time : ℚ}
    (hRun : Run time n) :
    n.Sound := by
  induction hRun with
  | new id here_addr next ts => exact new_sound id here_addr next ts
  | step e _ _ hFresh _ hStep ih =>
      exact ih.reaches ((step_accounted e ih hFresh).ok _ hStep)

/- What every small step keeps holds after every run. -/
theorem Run.invariant
    {time : ℚ}
    {I : Aodv → Prop}
    (hNew : ∀ id here_addr next ts,
      I (Aodv.new id here_addr next ts))
    (hDoes : ∀ now c n s, I n → Does now c n s → I s)
    (hRun : Run time n) :
    I n := by
  induction hRun with
  | new id here_addr next ts => exact hNew id here_addr next ts
  | step e hRun _ hFresh _ hStep ih =>
      have hReach := (step_accounted e hRun.sound hFresh).ok _ hStep
      clear hStep hFresh
      induction hReach with
      | refl => exact ih
      | tail _ hNext ih' => exact hDoes _ _ _ _ ih' hNext

theorem Run.seqno_even
    {time : ℚ}
    (hRun : Run time n) :
    n.seqno % 2 = 0 := by
  refine hRun.invariant (I := fun n => n.seqno % 2 = 0)
    (fun _ _ _ _ => Nat.mod_self 2) ?_
  intro now c n s hEven hDoes
  cases hDoes with
  | advance hNext => exact hNext
  | answer rq p hCause hDst => exact answerSeqno_even _ _
  | ensure dst =>
      unfold ensure
      split <;> exact hEven
  | _ => exact hEven

end Aodv

end Ns2
