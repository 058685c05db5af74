import Ns2.Aodv.Handlers

/-
  Local repair of a route.

  The packet that could not be delivered is buffered before the
  new request is sent, and copied for the repair timer after
  it.  A request that comes after too many others empties the
  buffer.

  Main declarations:
    * `Aodv.Exhausted`, `Aodv.Repairs`

  Correctness is proven by:
    * `Aodv.drain_drop_all`
    * `Aodv.repair_owns_iff`
-/

------------------------------------------------------------
-- Buffers that are emptied
------------------------------------------------------------

namespace Ns2

namespace Aodv

variable {now : ℚ}
variable {n s : Aodv}
variable {p : AodvPacket}
variable {dst : nsaddr_t}
variable {rt : AodvRtEntry}

/- A packet is taken out, or there is none that is wanted. -/
theorem dequeDst_cases
    {q : AodvRqueue AodvPacket ℚ}
    {xs : List AodvPacket}
    (hHolds : q.Holds xs)
    (hFits : (xs.length : Int) ≤ q.limit) :
    ∃ r ys, q.dequeDst AodvPacket.daddr now dst = some r ∧
      r.queue.Holds ys ∧ r.queue.limit = q.limit ∧
        (ys.length : Int) ≤ q.limit ∧
          ((r.returned = [] ∧ ∀ y ∈ ys, y.daddr ≠ dst) ∨
            ∃ x, r.returned = [x] ∧ ys.length < xs.length) := by
  rcases @AodvRqueue.Holds.dequeDst _ _ _ _ _ _ _ _ now
    AodvPacket.daddr dst hHolds hFits with
    ⟨r, ys, hDeque, hBuffers, hReturned⟩
  refine ⟨r, ys, hDeque, hBuffers.holds, hBuffers.limit,
    hBuffers.fits, ?_⟩
  have hKept := hBuffers.kept
  rw [List.append_nil] at hKept
  generalize hZs : (xs.filter fun p => !q.aged now p) = zs
    at hKept hReturned
  have hLess : zs.length ≤ xs.length := by
    rw [← hZs]
    exact List.length_filter_le _ xs
  cases hFind : zs.find? fun p => decide (p.daddr = dst) with
  | none =>
      rw [hFind] at hReturned
      left
      refine ⟨hReturned, fun y hy hDst => ?_⟩
      have hIn : y ∈ zs := hKept.mem_iff.mpr
        (List.mem_append_left _ (List.mem_append_left _ hy))
      exact List.find?_eq_none.mp hFind y hIn (decide_eq_true hDst)
  | some x =>
      rw [hFind] at hReturned
      right
      refine ⟨x, hReturned, ?_⟩
      have hLength := hKept.length_eq
      rw [hReturned, List.length_append, List.length_append]
        at hLength
      change _ = ys.length + 1 + _ at hLength
      omega

theorem drainLoop_drop
    (fuel : Nat)
    {xs : List AodvPacket}
    (hHolds : n.rqueue.Holds xs)
    (hFits : (xs.length : Int) ≤ n.rqueue.limit)
    (hFuel : xs.length < fuel) :
    ∃ s ys, drainLoop now dst
        (fun p n => .ok (n.emit (.drop p))) fuel n = .ok s ∧
      s.rqueue.Holds ys ∧ ∀ y ∈ ys, y.daddr ≠ dst := by
  induction fuel generalizing n xs with
  | zero => omega
  | succ fuel ih =>
      rcases dequeDst_cases hHolds hFits with
        ⟨r, ys, hDeque, hHolds', hLimit, hFits', hCases⟩
      unfold drainLoop
      rw [hDeque]
      rcases hCases with ⟨hNone, hAll⟩ | ⟨x, hSome, hShorter⟩
      · refine ⟨{ n with rqueue := r.queue }, ys, ?_, hHolds',
          hAll⟩
        dsimp only
        rw [hNone]
      · dsimp only
        rw [hSome]
        exact @ih (({ n with rqueue := r.queue } : Aodv).emit
          (.drop x)) ys hHolds' (hLimit ▸ hFits') (by omega)

/- No packet for the destination stays in the buffer. -/
theorem drain_drop_all
    (hSound : n.Sound) :
    ∃ s, (n.drain now dst fun p n => .ok (n.emit (.drop p))) =
        .ok s ∧
      ∀ y ∈ s.rqueue.packets, y.daddr ≠ dst := by
  rcases hSound with ⟨xs, hHolds, -, hFits, -⟩
  rcases @drainLoop_drop now n dst (n.rqueue.len.toNat + 1) xs
    hHolds hFits (by
      rw [hHolds.toNat_len]
      omega) with
    ⟨s, ys, hDrain, hHolds', hAll⟩
  refine ⟨s, hDrain, ?_⟩
  rw [hHolds'.packets_eq]
  exact hAll

------------------------------------------------------------
-- Repairs
------------------------------------------------------------

/- The packet is given to a local repair of its route. -/
structure Repairs
    (n : Aodv)
    (p : AodvPacket)
    (rt : AodvRtEntry) : Prop where
  data : p.ptype = .DATA
  unicast : p.daddr ≠ IP_BROADCAST
  route : n.rtable.rt_lookup p.daddr = some rt
  near : (rt.rt_hops : Int) < p.num_forwards

/- A request would be one too many, and waits no longer. -/
def Exhausted
    (now : ℚ)
    (rt : AodvRtEntry) : Prop :=
  rt.rt_req_timeout ≤ now ∧ RREQ_RETRIES < rt.rt_req_cnt

theorem Repairs.failed
    (hRepairs : n.Repairs p rt) :
    n.rt_ll_failed now p = n.local_rt_repair now p.daddr p := by
  unfold rt_ll_failed
  rw [if_neg (by
      rw [not_or, not_not]
      exact ⟨hRepairs.data, hRepairs.unicast⟩),
    hRepairs.route]
  exact if_pos hRepairs.near

/- The buffer when the request goes out. -/
theorem enque_buffered
    (hSound : n.Sound)
    (hData : p.isAodv = false)
    (hNew : ∀ x ∈ n.rqueue.packets, x.uid_ ≠ p.uid_) :
    ∃ s, n.enque now p = .ok s ∧ s.Sound ∧
      p ∈ s.rqueue.packets ∧ s.rtable = n.rtable ∧
        s.seqno = n.seqno := by
  have hSound' := hSound
  rcases hSound with ⟨xs, hHolds, hLimit, hFits, -⟩
  have hNotIn : p ∉ xs := by
    rw [hHolds.packets_eq] at hNew
    exact fun hIn => hNew p hIn rfl
  rcases @AodvRqueue.Holds.enque _ _ _ _ _ _ _ _ now hHolds
    (hLimit ▸ (by decide)) hFits hNotIn with
    ⟨r, _, hEnque, -⟩
  rcases hSound'.enque hData hNew hEnque with
    ⟨ys, hHolds', hIn, hRest⟩
  unfold enque
  rw [hEnque]
  refine ⟨_, rfl, ⟨ys, hHolds', hRest⟩, ?_, rfl, rfl⟩
  dsimp only
  rw [hHolds'.packets_eq]
  exact hIn

/- The request leaves the buffer alone unless it is too late. -/
theorem sendRequest_owns
    (hSound : n.Sound)
    (hEven : n.seqno % 2 = 0)
    (hMem : rt ∈ n.rtable.entries)
    (hDst : rt.rt_dst = p.daddr)
    (hFlags : rt.rt_flags ≠ .RTF_UP)
    (hIn : p ∈ n.rqueue.packets) :
    ∃ s, n.sendRequest now p.daddr = .ok s ∧
      (p ∈ s.rqueue.packets ↔ ¬ Exhausted now rt) := by
  unfold sendRequest Exhausted
  rw [← hDst, entry_bind hMem, if_neg hFlags]
  by_cases hWait : now < rt.rt_req_timeout
  · rw [if_pos hWait]
    refine ⟨n, rfl, iff_of_true hIn fun hLate => ?_⟩
    exact absurd hLate.1 (not_le.mpr hWait)
  rw [if_neg hWait]
  by_cases hRetries : RREQ_RETRIES < rt.rt_req_cnt
  · rw [if_pos hRetries]
    rcases @drain_drop_all now (n.store
      { rt with
        rt_req_timeout := now + MAX_RREQ_TIMEOUT
        rt_req_cnt := 0 }) rt.rt_dst hSound with
      ⟨s, hDrain, hAll⟩
    refine ⟨s, hDrain, iff_of_false (fun hIn' => ?_)
      (not_not.mpr ⟨not_lt.mp hWait, hRetries⟩)⟩
    exact hAll p hIn' hDst.symm
  · rw [if_neg hRetries]
    have hParity : (n.seqno + 2) % 2 = 0 := by omega
    exact ⟨_, check_bind hParity, iff_of_true hIn fun hLate =>
      hRetries hLate.2⟩

theorem repairRequested_owns
    (hSound : n.Sound)
    (hEven : n.seqno % 2 = 0)
    (hFresh : n.Fresh (.rt_ll_failed p))
    (hRepairs : n.Repairs p rt) :
    ∃ s, n.repairRequested now p.daddr p = .ok s ∧
      (p ∈ s.rqueue.packets ↔ ¬ Exhausted now rt) := by
  have hData : p.isAodv = false := by
    rw [AodvPacket.isAodv, hRepairs.data]
  rcases @enque_buffered now n p hSound hData hFresh with
    ⟨m, hEnque, hSound', hIn, hTable, hSeqno⟩
  have hMem : rt ∈ m.rtable.entries := by
    rw [hTable]
    exact AodvRtable.rt_lookup_mem hRepairs.route
  have hDst := AodvRtable.rt_lookup_dst hRepairs.route
  rw [← hSeqno] at hEven
  have hStart : n.repairRequested now p.daddr p =
      (m.store { rt with rt_flags := .RTF_IN_REPAIR }).sendRequest
        now p.daddr := by
    unfold repairRequested
    rw [hEnque, ← hDst]
    exact entry_bind hMem
  have hMem' : { rt with rt_flags := .RTF_IN_REPAIR } ∈
      (m.store
        { rt with rt_flags := .RTF_IN_REPAIR }).rtable.entries :=
    (@AodvRtable.mem_store _ { rt with rt_flags := .RTF_IN_REPAIR }
      rt _ hMem rfl).mpr (Or.inl rfl)
  rw [hStart]
  exact @sendRequest_owns now _ p
    { rt with rt_flags := .RTF_IN_REPAIR } hSound' hEven hMem' hDst
    (fun hUp => RouteFlags.noConfusion hUp) hIn

/-
  When the packet is copied for the repair timer, it is still
  in the buffer if and only if the request was not one too many.
-/
theorem repair_owns_iff
    {time now : ℚ}
    {n : Aodv}
    {p : AodvPacket}
    {rt : AodvRtEntry}
    (hRun : Run time n)
    (hFresh : n.Fresh (.rt_ll_failed p))
    (hRepairs : n.Repairs p rt) :
    ∃ s, n.repairRequested now p.daddr p = .ok s ∧
      (p ∈ s.rqueue.packets ↔ ¬ Exhausted now rt) :=
  repairRequested_owns hRun.sound hRun.seqno_even hFresh hRepairs

------------------------------------------------------------
-- A repair that fails five times
------------------------------------------------------------

/- The state after an event that comes to its end. -/
def after
    (now : ℚ)
    (n : Aodv)
    (e : Event) : Aodv :=
  match n.step now e with
  | .ok s => s
  | .error _ => n

theorem Run.after
    {time : ℚ}
    (e : Event)
    (hRun : Run time n)
    (hNow : time ≤ now)
    (hFresh : n.Fresh e)
    (hPending : n.Pending e)
    (hOk : (n.step now e).isOk = true) :
    Run now (n.after now e) := by
  cases hStep : n.step now e with
  | error fault =>
      rw [hStep] at hOk
      cases hOk
  | ok s =>
      have hAfter : n.after now e = s := by
        rw [Aodv.after, hStep]
      rw [hAfter]
      exact .step e hRun hNow hFresh hPending hStep

/- Neighbor 7 offers a route to node 9. -/
def offer : AodvPacket where
  uid_ := 0
  ptype := .PT_AODV (.RREP
    { rp_hop_count := 3
      rp_dst := 9
      rp_dst_seqno := 4
      rp_src := 7
      rp_lifetime := 10
      rp_timestamp := 99 })
  saddr := 9
  daddr := 5
  ttl_ := 30
  num_forwards := 0
  up := true
  next_hop_ := 1

/- Packets for node 9 that could not be delivered. -/
def stray (uid : Nat) : AodvPacket where
  uid_ := uid
  ptype := .DATA
  saddr := 2
  daddr := 9
  ttl_ := 20
  num_forwards := 4
  up := false
  next_hop_ := 7

def offered : Aodv :=
  (new 1 1 (fun _ => none) (fun _ => 0)).after 100 (.recv offer)

def failedOnce : Aodv :=
  offered.after 100 (.rt_ll_failed (stray 1))

def failedTwice : Aodv :=
  failedOnce.after 102 (.rt_ll_failed (stray 2))

def failedThrice : Aodv :=
  failedTwice.after 106 (.rt_ll_failed (stray 3))

def failedFourTimes : Aodv :=
  failedThrice.after 112 (.rt_ll_failed (stray 4))

theorem offered_run : Run 100 offered :=
  Run.after (.recv offer) (.new 1 1 _ _) (by decide +kernel)
    (fun hData => absurd hData (by decide)) trivial
    (by decide +kernel)

theorem Run.failed
    {time : ℚ}
    {uid : Nat}
    (hRun : Run time n)
    (hNow : time ≤ now)
    (hNew : ∀ x ∈ n.rqueue.packets, x.uid_ ≠ uid)
    (hOk : (n.step now (.rt_ll_failed (stray uid))).isOk = true) :
    Run now (n.after now (.rt_ll_failed (stray uid))) :=
  hRun.after _ hNow hNew trivial hOk

theorem failedOnce_run : Run 100 failedOnce :=
  offered_run.failed (by decide +kernel) (by decide +kernel)
    (by decide +kernel)

theorem failedTwice_run : Run 102 failedTwice :=
  failedOnce_run.failed (by decide +kernel) (by decide +kernel)
    (by decide +kernel)

theorem failedThrice_run : Run 106 failedThrice :=
  failedTwice_run.failed (by decide +kernel) (by decide +kernel)
    (by decide +kernel)

theorem failedFourTimes_run : Run 112 failedFourTimes :=
  failedThrice_run.failed (by decide +kernel) (by decide +kernel)
    (by decide +kernel)

theorem Repairs.stray
    {uid : Nat}
    (hRoute : n.rtable.rt_lookup 9 = some rt)
    (hHops : rt.rt_hops < 4) :
    n.Repairs (stray uid) rt :=
  ⟨rfl, (show (9 : Int) ≠ -1 by decide), hRoute,
    Int.ofNat_lt.mpr hHops⟩

/- The fifth failure comes when the buffer is emptied. -/
theorem purged_before_copy :
    ∃ (n : Aodv) (rt : AodvRtEntry),
      Run 112 n ∧ n.Fresh (.rt_ll_failed (stray 5)) ∧
        n.Repairs (stray 5) rt ∧
          ∃ s, n.repairRequested 120 9 (stray 5) = .ok s ∧
            stray 5 ∉ s.rqueue.packets := by
  have hRoute : (failedFourTimes.rtable.rt_lookup 9).any
      (fun rt => rt.rt_hops < 4 ∧ rt.rt_req_timeout ≤ 120 ∧
        RREQ_RETRIES < rt.rt_req_cnt) = true := by
    decide +kernel
  rcases (Option.any_eq_true _ _).mp hRoute with
    ⟨rt, hLookup, hLate⟩
  have hLate := of_decide_eq_true hLate
  have hFresh : failedFourTimes.Fresh
      (.rt_ll_failed (stray 5)) := by
    change ∀ x ∈ failedFourTimes.rqueue.packets, x.uid_ ≠ 5
    decide +kernel
  have hRepairs : failedFourTimes.Repairs (stray 5) rt :=
    .stray hLookup hLate.1
  rcases @repairRequested_owns 120 _ _ _
    failedFourTimes_run.sound failedFourTimes_run.seqno_even
    hFresh hRepairs with ⟨s, hOk, hOwns⟩
  exact ⟨_, rt, failedFourTimes_run, hFresh, hRepairs, s, hOk,
    fun hIn => hOwns.mp hIn hLate.2⟩

theorem repair_owns_first :
    ∃ rt s, offered.Repairs (stray 1) rt ∧
      offered.repairRequested 100 9 (stray 1) = .ok s ∧
        (stray 1 ∈ s.rqueue.packets ↔ ¬ Exhausted 100 rt) := by
  have hRoute : (offered.rtable.rt_lookup 9).any
      (fun rt => rt.rt_hops < 4) = true := by
    decide +kernel
  rcases (Option.any_eq_true _ _).mp hRoute with
    ⟨rt, hLookup, hNear⟩
  have hRepairs : offered.Repairs (stray 1) rt :=
    .stray hLookup (of_decide_eq_true hNear)
  rcases @repair_owns_iff _ 100 _ _ _ offered_run
    (by
      change ∀ x ∈ offered.rqueue.packets, x.uid_ ≠ 1
      decide +kernel) hRepairs with ⟨s, hOk, hOwns⟩
  exact ⟨_, s, hRepairs, hOk, hOwns⟩

end Aodv

end Ns2
