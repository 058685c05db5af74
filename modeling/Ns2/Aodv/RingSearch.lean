import Ns2.Aodv.LocalRepair
import Mathlib.Algebra.Order.BigOperators.Group.List

/-
  The expanding search for a destination.

  The state of a search is what the entry of its destination
  says about routes and requests.  A trace has the marks of one
  destination, the newest first.

  Main declarations:
    * `Aodv.Ring`, `Aodv.Ring.Step`
    * `Aodv.Call`, `Aodv.call`, `Aodv.marks`
    * `Aodv.Trace`

  Correctness is proven by:
    * `Aodv.call_steps`
    * `Aodv.Tracks.step`
    * `Aodv.ring_search_iff`
-/

------------------------------------------------------------
-- Searches
------------------------------------------------------------

namespace Ns2

namespace Aodv

/- What happens to the search for one destination. -/
inductive Mark where
/- A request is asked for. -/
| asked
| sent (time : ℚ) (ttl : Int) (timeout : ℚ)
/- No request is sent for long, with the packets left. -/
| pause (time : ℚ) (left : List AodvPacket)
/- A route is put into the entry. -/
| updated (reset : Bool)
deriving DecidableEq

/- The fields of an entry that a search depends on. -/
structure Ring where
  rt_flags : RouteFlags
  rt_hops : Nat
  rt_last_hop_count : Nat
  rt_req_timeout : ℚ
  rt_req_cnt : Nat
  rt_req_last_ttl : Nat

namespace Ring

def of (rt : AodvRtEntry) : Ring where
  rt_flags := rt.rt_flags
  rt_hops := rt.rt_hops
  rt_last_hop_count := rt.rt_last_hop_count
  rt_req_timeout := rt.rt_req_timeout
  rt_req_cnt := rt.rt_req_cnt
  rt_req_last_ttl := rt.rt_req_last_ttl

/- The TTL and the count of wide requests after the next one. -/
def next (r : Ring) : Nat × Nat :=
  let last := max r.rt_req_last_ttl r.rt_last_hop_count
  if last = 0 then (TTL_START, r.rt_req_cnt)
  else if last < TTL_THRESHOLD then
    (last + TTL_INCREMENT, r.rt_req_cnt)
  else (NETWORK_DIAMETER, r.rt_req_cnt + 1)

/- What one call can do to a search, and how it is marked. -/
inductive Step (now : ℚ) : Ring → List Mark → Ring → Prop where
| same
    (r : Ring) :
    Step now r [] r
| wait
    (r : Ring)
    (hWait : r.rt_flags = .RTF_UP ∨ now < r.rt_req_timeout) :
    Step now r [.asked] r
| pause
    (r : Ring)
    (hDown : r.rt_flags ≠ .RTF_UP)
    (hLate : r.rt_req_timeout ≤ now)
    (hCount : RREQ_RETRIES < r.rt_req_cnt) :
    Step now r [.pause now [], .asked]
      { r with
        rt_req_timeout := now + MAX_RREQ_TIMEOUT
        rt_req_cnt := 0 }
| sent
    (r : Ring)
    (timeout : ℚ)
    (hDown : r.rt_flags ≠ .RTF_UP)
    (hLate : r.rt_req_timeout ≤ now)
    (hCount : r.rt_req_cnt ≤ RREQ_RETRIES)
    (hTimeout : now ≤ timeout) :
    Step now r [.sent now r.next.1 timeout, .asked]
      { r with
        rt_req_timeout := timeout
        rt_req_cnt := r.next.2
        rt_req_last_ttl := r.next.1 }
| down
    (r : Ring)
    (hFlags : r.rt_flags ≠ .RTF_DOWN) :
    Step now r []
      { r with
        rt_last_hop_count := r.rt_hops
        rt_hops := INFINITY2
        rt_flags := .RTF_DOWN }
| repair
    (r : Ring) :
    Step now r [] { r with rt_flags := .RTF_IN_REPAIR }
| update
    (r : Ring)
    (metric : Nat) :
    Step now r [.updated false]
      { r with
        rt_hops := metric
        rt_flags := .RTF_UP }
| reset
    (r : Ring)
    (metric : Nat) :
    Step now r [.updated true]
      { r with
        rt_hops := metric
        rt_flags := .RTF_UP
        rt_req_timeout := 0
        rt_req_cnt := 0
        rt_req_last_ttl := metric }

end Ring

------------------------------------------------------------
-- Calls
------------------------------------------------------------

/-
  Requests, updates, and invalidations.  An entry is brought
  down, with a number, when its route expires, its link is
  lost, an error lists it, or its repair fails.
-/
inductive Call where
| sendRequest (dst : nsaddr_t)
| enque (p : AodvPacket)
| rt_add (dst : nsaddr_t)
| recvReverse (saddr : nsaddr_t) (rq : HdrAodvRequest)
| recvReply (rp : HdrAodvReply) (p : AodvPacket)
| rt_down (dst : nsaddr_t) (seqno : Nat)
| repair (dst : nsaddr_t)

def call
    (now : ℚ)
    (n : Aodv) : Call → Except Fault Aodv
| .sendRequest dst => n.sendRequest now dst
| .enque p => n.enque now p
| .rt_add dst => .ok (n.ensure dst)
| .recvReverse saddr rq => n.recvReverse now saddr rq
| .recvReply rp p => n.recvReply now rp p
| .rt_down dst seqno => do
    let rt ← n.entry dst
    .ok (n.store
      (AodvRtEntry.rt_down { rt with rt_seqno := seqno }))
| .repair dst => do
    let rt ← n.entry dst
    .ok (n.store { rt with rt_flags := .RTF_IN_REPAIR })

/- The TTL of a request for the destination. -/
def requestFor
    (d : nsaddr_t) : AodvAction → Option Int
| .send p =>
    match p.ptype with
    | .PT_AODV (.RREQ rq) =>
        if rq.rq_dst = d then some p.ttl_ else none
    | _ => none
| _ => none

/- What is seen when a request is asked for. -/
def searchMarks
    (now : ℚ)
    (d : nsaddr_t)
    (n n' : Aodv) : List Mark :=
  match n.rtable.rt_lookup d, n'.rtable.rt_lookup d with
  | some rt, some rt' =>
      match (n'.out.drop n.out.length).filterMap
          (requestFor d) with
      | [] =>
          if rt'.rt_req_timeout = rt.rt_req_timeout then
            [.asked]
          else
            [.pause now (n'.rqueue.packets.filter
              fun p => decide (p.daddr = d)), .asked]
      | ttls =>
          ttls.map (fun ttl => .sent now ttl rt'.rt_req_timeout)
            ++ [.asked]
  | _, _ => []

/- The route of a message is taken into the entry. -/
def takes
    (n : Aodv)
    (dst : nsaddr_t)
    (seqno hops : Nat) : Bool :=
  match (n.ensure dst).rtable.rt_lookup dst with
  | some rt =>
      decide (rt.rt_seqno < seqno ∨
        (rt.rt_seqno = seqno ∧ hops < rt.rt_hops))
  | none => false

/- A destination without an entry would get a new one. -/
def ring
    (n : Aodv)
    (d : nsaddr_t) : Ring :=
  match n.rtable.rt_lookup d with
  | some rt => .of rt
  | none => .of (.new d)

/- A request for the destination is waited for. -/
def waits
    (n : Aodv)
    (dst : nsaddr_t) : Bool :=
  decide (0 < (n.ring dst).rt_req_timeout)

/- The marks of a call from one node to the next. -/
def marks
    (now : ℚ)
    (d : nsaddr_t)
    (n n' : Aodv) : Call → List Mark
| .sendRequest dst =>
    if dst = d then searchMarks now d n n' else []
| .recvReverse _ rq =>
    if rq.rq_src = d ∧
        n.takes d rq.rq_src_seqno rq.rq_hop_count = true then
      [.updated (n.waits d)]
    else []
| .recvReply rp _ =>
    if rp.rp_dst = d ∧
        n.takes d rp.rp_dst_seqno rp.rp_hop_count = true then
      [.updated true]
    else []
| _ => []

/- A packet that is buffered is not in the buffer already. -/
def Buffers
    (n : Aodv) : Call → Prop
| .enque p =>
    p.isAodv = false ∧ ∀ x ∈ n.rqueue.packets, x.uid_ ≠ p.uid_
| _ => True

/- The runs of a node, with the marks of a destination. -/
inductive Trace (d : nsaddr_t) :
    ℚ → Aodv → List Mark → Prop where
| new
    (id here_addr : nsaddr_t)
    (next : AodvPacket → Option AodvPacket)
    (ts : AodvPacket → ℚ) :
    Trace d 0 (new id here_addr next ts) []
| call
    {time now : ℚ}
    {n n' : Aodv}
    {ms : List Mark}
    (c : Call)
    (hTrace : Trace d time n ms)
    (hNow : time ≤ now)
    (hBuffers : n.Buffers c)
    (hCall : n.call now c = .ok n') :
    Trace d now n' (n.marks now d n' c ++ ms)

end Aodv

end Ns2

------------------------------------------------------------
-- What a call leaves alone
------------------------------------------------------------

namespace Ns2

namespace Aodv

open Fallible

variable {now : ℚ}
variable {n n' s : Aodv}
variable {p : AodvPacket}
variable {d dst : nsaddr_t}
variable {rt rt' : AodvRtEntry}

theorem ring_of_mem
    (hMem : rt ∈ n.rtable.entries) :
    n.ring rt.rt_dst = .of rt := by
  rw [ring, AodvRtable.rt_lookup_of_mem hMem]

theorem ring_store
    (hMem : rt ∈ n.rtable.entries)
    (hDst : rt'.rt_dst = rt.rt_dst) :
    (n.store rt').ring d =
      if d = rt.rt_dst then .of rt' else n.ring d := by
  have hLookup :
      n.rtable.rt_lookup rt'.rt_dst = some rt := by
    rw [hDst]
    exact AodvRtable.rt_lookup_of_mem hMem
  by_cases hSame : d = rt.rt_dst
  · subst hSame
    rw [if_pos rfl, ring, store]
    dsimp only
    rw [← hDst, AodvRtable.rt_lookup_store_self hLookup]
  · rw [if_neg hSame, ring, store]
    dsimp only
    rw [AodvRtable.rt_lookup_store_of_ne
      (fun h => hSame (h.trans hDst)), ring]

/- The stored entry says the same about the search. -/
theorem ring_touch
    (hMem : rt ∈ n.rtable.entries)
    (hDst : rt'.rt_dst = rt.rt_dst)
    (hSame : Ring.of rt' = Ring.of rt)
    (d : nsaddr_t) :
    (n.store rt').ring d = n.ring d := by
  rw [ring_store hMem hDst]
  split
  · next hHere => rw [hHere, ring_of_mem hMem, hSame]
  · rfl

theorem ring_ensure (d : nsaddr_t) :
    (n.ensure dst).ring d = n.ring d := by
  unfold ensure
  split
  · rfl
  · next hNone =>
      rw [ring]
      dsimp only
      rw [AodvRtable.rt_lookup_add hNone, ring]
      by_cases hSame : d = dst
      · rw [if_pos hSame, hSame, hNone]
      · rw [if_neg hSame]

/- The searches and the buffered packets stay. -/
structure Leaves (n s : Aodv) : Prop where
  rqueue : s.rqueue = n.rqueue
  rings : ∀ d, s.ring d = n.ring d

theorem forward_leaves
    {route : Option nsaddr_t} :
    Ensures (n.forward now route p) (Leaves n)
      fun _ => True := by
  unfold forward
  refine .ite (fun _ => .of_ok ⟨rfl, fun _ => rfl⟩) fun _ =>
    .ite (fun _ => .of_ok ⟨rfl, fun _ => rfl⟩) fun _ => ?_
  cases route with
  | none =>
      exact check_ensures (fun _ => trivial)
        fun _ => .of_ok ⟨rfl, fun _ => rfl⟩
  | some dst =>
      refine entry_ensures trivial fun rt hMem _ => ?_
      refine check_ensures (fun _ => trivial) fun _ => ?_
      refine check_ensures (fun _ => trivial) fun _ => ?_
      exact .of_ok ⟨rfl, ring_touch hMem rfl rfl⟩

/- A loop that only sends and drops what is buffered. -/
theorem drain_leaves
    {body : AodvPacket → Aodv → Except Fault Aodv}
    (hSound : n.Sound)
    (hBody : ∀ p s, Ensures (body p s) (Leaves s)
      fun _ => True) :
    Ensures (n.drain now dst body)
      (fun s => s.Sound ∧ ∀ d, s.ring d = n.ring d)
      (fun _ => True) := by
  refine drain_ensures trivial (fun s hs => hs.1) ?_ ?_
    ⟨hSound, fun _ => rfl⟩
  · intro s r hs hDeque
    rcases hs.1.deque hDeque with
      ⟨xs, hHolds, hLimit, hFits, hAll, -⟩
    exact ⟨⟨xs, hHolds, hLimit, hFits, hAll⟩, hs.2⟩
  · intro s p hs _
    refine (hBody p s).mono (fun s' hs' => ?_) fun _ h => h
    exact ⟨hs.1.congr hs'.rqueue,
      fun d => (hs'.rings d).trans (hs.2 d)⟩

theorem forwardReverse_leaves :
    Ensures (n.forwardReverse now dst p) (Leaves n)
      fun _ => True := by
  refine entry_ensures trivial fun rt _ _ => ?_
  refine .ite (fun _ => ?_) fun _ => .of_ok ⟨rfl, fun _ => rfl⟩
  exact check_ensures (fun _ => trivial) fun _ => forward_leaves

theorem forwardReplied_leaves :
    Ensures (n.forwardReplied now dst p) (Leaves n)
      fun _ => True := by
  refine entry_ensures trivial fun rt _ _ => ?_
  refine .ite (fun _ => ?_) fun _ => .of_ok ⟨rfl, fun _ => rfl⟩
  exact check_ensures (fun _ => trivial) fun _ => forward_leaves

theorem of_pc_insert (id : nsaddr_t) :
    Ring.of (rt.pc_insert id) = Ring.of rt := by
  unfold AodvRtEntry.pc_insert
  split <;> rfl

theorem recvRelay_leaves
    {rp : HdrAodvReply} :
    Ensures (n.recvRelay now rp p) (Leaves n)
      fun _ => True := by
  unfold recvRelay
  split
  · exact .of_ok ⟨rfl, fun _ => rfl⟩
  · refine .ite (fun _ => ?_) fun _ =>
      .of_ok ⟨rfl, fun _ => rfl⟩
    refine check_ensures (fun _ => trivial) fun _ => ?_
    refine Ensures.bind forward_leaves fun s hs => ?_
    refine entry_ensures trivial fun rt hMem _ => .of_ok ?_
    exact ⟨hs.rqueue, fun d =>
      (ring_touch hMem (by simp) (of_pc_insert _) d).trans
        (hs.rings d)⟩

end Aodv

end Ns2

------------------------------------------------------------
-- Requests
------------------------------------------------------------

namespace Ns2

namespace Aodv

open Fallible

variable {now : ℚ}
variable {n n' s : Aodv}
variable {d dst : nsaddr_t}
variable {rt : AodvRtEntry}

theorem perHopTime_nonneg (rt : AodvRtEntry) :
    0 ≤ rt.PerHopTime := by
  unfold AodvRtEntry.PerHopTime
  dsimp only
  split
  · apply div_nonneg _ (Nat.cast_nonneg _)
    apply List.sum_nonneg
    intro x hx
    exact (of_decide_eq_true (List.mem_filter.mp hx).2).le
  · unfold NODE_TRAVERSAL_TIME
    norm_num

/- The next request waits at least for the present time. -/
theorem le_requestTimeout
    (now : ℚ)
    (rt : AodvRtEntry) :
    now ≤ requestTimeout now rt := by
  have hOnce :
      0 ≤ 2 * ((requestTtl rt).1 : ℚ) * rt.PerHopTime :=
    mul_nonneg (by positivity) (perHopTime_nonneg rt)
  have hCount :
      0 ≤ 2 * ((requestTtl rt).1 : ℚ) * rt.PerHopTime *
        ((requestTtl rt).2 : ℚ) :=
    mul_nonneg hOnce (Nat.cast_nonneg _)
  have hTimeout :
      now ≤
        (if 0 < (requestTtl rt).2 then
          2 * ((requestTtl rt).1 : ℚ) * rt.PerHopTime *
            ((requestTtl rt).2 : ℚ)
        else 2 * ((requestTtl rt).1 : ℚ) * rt.PerHopTime) +
          now := by
    split <;> linarith
  unfold requestTimeout MAX_RREQ_TIMEOUT
  dsimp only
  generalize
    (if 0 < (requestTtl rt).2 then
      2 * ((requestTtl rt).1 : ℚ) * rt.PerHopTime *
        ((requestTtl rt).2 : ℚ)
    else 2 * ((requestTtl rt).1 : ℚ) * rt.PerHopTime) + now =
      timeout at hTimeout ⊢
  split
  · linarith
  · exact hTimeout

/- What a call of `sendRequest` leaves behind. -/
inductive Requests
    (now : ℚ)
    (n : Aodv)
    (rt : AodvRtEntry) : Aodv → Prop where
| wait
    (hWait : rt.rt_flags = .RTF_UP ∨ now < rt.rt_req_timeout) :
    Requests now n rt n
| pause
    (s : Aodv)
    (xs : List AodvAction)
    (hDown : rt.rt_flags ≠ .RTF_UP)
    (hLate : rt.rt_req_timeout ≤ now)
    (hCount : RREQ_RETRIES < rt.rt_req_cnt)
    (hTable : s.rtable =
      n.rtable.store
        { rt with
          rt_req_timeout := now + MAX_RREQ_TIMEOUT
          rt_req_cnt := 0 })
    (hOut : s.out = n.out ++ xs)
    (hDrops : ∀ a ∈ xs, ∃ p, a = .drop p)
    (hLeft : ∀ p ∈ s.rqueue.packets, p.daddr ≠ rt.rt_dst) :
    Requests now n rt s
| sent
    (s : Aodv)
    (p : AodvPacket)
    (rq : HdrAodvRequest)
    (hDown : rt.rt_flags ≠ .RTF_UP)
    (hLate : rt.rt_req_timeout ≤ now)
    (hCount : rt.rt_req_cnt ≤ RREQ_RETRIES)
    (hTable : s.rtable = n.rtable.store (requested now rt))
    (hOut : s.out = n.out ++ [.send p])
    (hType : p.ptype = .PT_AODV (.RREQ rq))
    (hDst : rq.rq_dst = rt.rt_dst)
    (hTtl : p.ttl_ = (requestTtl rt).1) :
    Requests now n rt s

/- The table stays, and every packet taken out is dropped. -/
theorem drain_drops
    (hSound : n.Sound) :
    Ensures (n.drain now dst fun p n => .ok (n.emit (.drop p)))
      (fun s => s.Sound ∧ s.rtable = n.rtable ∧
        ∃ xs, s.out = n.out ++ xs ∧ ∀ a ∈ xs, ∃ p, a = .drop p)
      (fun _ => True) := by
  refine drain_ensures trivial (fun s hs => hs.1) ?_ ?_
    ⟨hSound, rfl, [], by simp, fun a ha => by cases ha⟩
  · intro s r hs hDeque
    rcases hs.1.deque hDeque with
      ⟨xs, hHolds, hLimit, hFits, hAll, -⟩
    exact ⟨⟨xs, hHolds, hLimit, hFits, hAll⟩, hs.2⟩
  · intro s p hs _
    rcases hs with ⟨hSound', hTable, xs, hOut, hDrops⟩
    refine .of_ok ⟨hSound'.congr rfl, hTable,
      xs ++ [.drop p], ?_, ?_⟩
    · rw [emit, hOut, List.append_assoc]
    · intro a ha
      rcases List.mem_append.mp ha with hOld | hLast
      · exact hDrops a hOld
      · exact ⟨p, List.mem_singleton.mp hLast⟩

theorem sendRequest_spec
    (hSound : n.Sound) :
    Ensures (n.sendRequest now dst)
      (fun s => s.Sound ∧
        ∃ rt ∈ n.rtable.entries,
          rt.rt_dst = dst ∧ Requests now n rt s)
      (fun _ => True) := by
  refine entry_ensures trivial fun rt hMem hDst => ?_
  refine .ite (fun hUp => ?_) fun hDown => ?_
  · exact check_ensures (fun _ => trivial) fun _ =>
      .of_ok ⟨hSound, rt, hMem, hDst, .wait (Or.inl hUp)⟩
  refine .ite (fun hWait => ?_) fun hLate => ?_
  · exact .of_ok ⟨hSound, rt, hMem, hDst, .wait (Or.inr hWait)⟩
  have hLate := not_lt.mp hLate
  refine .ite (fun hCount => ?_) fun hCount => ?_
  · have hStored : (n.store
        { rt with
          rt_req_timeout := now + MAX_RREQ_TIMEOUT
          rt_req_cnt := 0 }).Sound := hSound.congr rfl
    rcases @drain_drop_all now _ dst hStored with
      ⟨s, hDrain, hLeft⟩
    have hDrops := (@drain_drops now _ dst hStored).ok s hDrain
    rcases hDrops with ⟨hSound', hTable, xs, hOut, hDrops⟩
    dsimp only
    rw [hDrain]
    refine .of_ok ⟨hSound', rt, hMem, hDst, ?_⟩
    rw [← hDst] at hLeft
    exact .pause s xs hDown hLate hCount hTable hOut hDrops hLeft
  · refine check_ensures (fun _ => trivial) fun _ => ?_
    refine .of_ok ⟨hSound.congr rfl, rt, hMem, hDst, ?_⟩
    exact .sent _ _ _ hDown hLate (not_lt.mp hCount) rfl rfl rfl
      hDst.symm rfl

/- Dropped packets are no requests. -/
theorem requestFor_drops
    {xs : List AodvAction}
    (hDrops : ∀ a ∈ xs, ∃ p, a = .drop p) :
    xs.filterMap (requestFor d) = [] := by
  rw [List.filterMap_eq_nil_iff]
  intro a ha
  rcases hDrops a ha with ⟨p, rfl⟩
  rfl

/- The marks of a search follow the fields of its entry. -/
theorem Requests.step
    (hMem : rt ∈ n.rtable.entries)
    (hRequests : Requests now n rt s) :
    Ring.Step now (.of rt)
      (searchMarks now rt.rt_dst n s) (s.ring rt.rt_dst) := by
  have hHere := AodvRtable.rt_lookup_of_mem hMem
  cases hRequests with
  | wait hWait =>
      rw [ring_of_mem hMem]
      have hMarks :
          searchMarks now rt.rt_dst n n = [.asked] := by
        simp [searchMarks, hHere]
      rw [hMarks]
      exact .wait _ hWait
  | pause s xs hDown hLate hCount hTable hOut hDrops hLeft =>
      have hStored := @AodvRtable.rt_lookup_store_self n.rtable
        { rt with
          rt_req_timeout := now + MAX_RREQ_TIMEOUT
          rt_req_cnt := 0 } rt hHere
      dsimp only at hStored
      rw [← hTable] at hStored
      have hLater :
          ¬now + MAX_RREQ_TIMEOUT = rt.rt_req_timeout := by
        unfold MAX_RREQ_TIMEOUT
        intro hSame
        linarith
      have hNone :
          (s.rqueue.packets.filter
            fun p => decide (p.daddr = rt.rt_dst)) = [] := by
        rw [List.filter_eq_nil_iff]
        intro p hp hSame
        exact hLeft p hp (of_decide_eq_true hSame)
      have hMarks :
          searchMarks now rt.rt_dst n s =
            [.pause now [], .asked] := by
        simp only [searchMarks, hHere, hStored, hOut,
          List.drop_left, requestFor_drops hDrops, hNone,
          if_neg hLater]
      rw [hMarks, ring, hStored]
      exact .pause _ hDown hLate hCount
  | sent s p rq hDown hLate hCount hTable hOut hType hDst hTtl =>
      have hStored := @AodvRtable.rt_lookup_store_self n.rtable
        (requested now rt) rt hHere
      rw [← hTable] at hStored
      change s.rtable.rt_lookup rt.rt_dst = _ at hStored
      have hSent :
          [AodvAction.send p].filterMap
            (requestFor rt.rt_dst) = [p.ttl_] := by
        simp [requestFor, hType, hDst]
      have hMarks :
          searchMarks now rt.rt_dst n s =
            [.sent now (requestTtl rt).1 (requestTimeout now rt),
              .asked] := by
        simp only [searchMarks, hHere, hStored, hOut,
          List.drop_left, hSent, hTtl]
        rfl
      rw [hMarks, ring, hStored]
      exact .sent _ _ hDown hLate hCount
        (le_requestTimeout now rt)

/- A search for one destination leaves the others alone. -/
theorem Requests.others
    (hRequests : Requests now n rt s)
    (hNe : d ≠ rt.rt_dst) :
    s.ring d = n.ring d := by
  cases hRequests with
  | wait => rfl
  | pause s xs hDown hLate hCount hTable hOut hDrops hLeft =>
      have hOther := @AodvRtable.rt_lookup_store_of_ne n.rtable
        { rt with
          rt_req_timeout := now + MAX_RREQ_TIMEOUT
          rt_req_cnt := 0 } d hNe
      rw [ring, hTable, hOther, ring]
  | sent s p rq hDown hLate hCount hTable hOut hType hDst hTtl =>
      have hOther := @AodvRtable.rt_lookup_store_of_ne n.rtable
        (requested now rt) d hNe
      rw [ring, hTable, hOther, ring]

end Aodv

end Ns2

------------------------------------------------------------
-- Calls as steps of a search
------------------------------------------------------------

namespace Ns2

namespace Aodv

open Fallible

variable {now : ℚ}
variable {n n' m : Aodv}
variable {d dst : nsaddr_t}
variable {rt : AodvRtEntry}

theorem ensure_sound
    (hSound : n.Sound) :
    (n.ensure dst).Sound :=
  hSound.congr ensure_rqueue

theorem takes_iff
    {seqno hops : Nat}
    (hMem : rt ∈ (n.ensure rt.rt_dst).rtable.entries) :
    n.takes rt.rt_dst seqno hops = true ↔
      rt.rt_seqno < seqno ∨
        (rt.rt_seqno = seqno ∧ hops < rt.rt_hops) := by
  rw [takes, AodvRtable.rt_lookup_of_mem hMem]
  exact decide_eq_true_iff

theorem reversed_dst
    {saddr : nsaddr_t}
    {rq : HdrAodvRequest} :
    (reversed now saddr rq rt).rt_dst = rt.rt_dst := by
  unfold reversed
  dsimp only
  split <;> rfl

theorem reversed_ring
    (now : ℚ)
    (saddr : nsaddr_t)
    (rq : HdrAodvRequest)
    (rt : AodvRtEntry) :
    Ring.Step now (.of rt)
      [.updated (decide (0 < rt.rt_req_timeout))]
      (.of (reversed now saddr rq rt)) := by
  unfold reversed
  by_cases hWaits : 0 < rt.rt_req_timeout
  · rw [decide_eq_true hWaits]
    dsimp only [AodvRtEntry.rt_update]
    rw [if_pos hWaits]
    exact .reset (.of rt) rq.rq_hop_count
  · rw [decide_eq_false hWaits]
    dsimp only [AodvRtEntry.rt_update]
    rw [if_neg hWaits]
    exact .update (.of rt) rq.rq_hop_count

theorem replied_ring
    (now : ℚ)
    (rp : HdrAodvReply)
    (rt : AodvRtEntry)
    (q : Prop)
    [Decidable q] :
    Ring.Step now (.of rt) [.updated true]
      (.of (if q then timed now rp (replied now rp rt)
        else replied now rp rt)) := by
  split <;> exact .reset (.of rt) rp.rp_hop_count

theorem recvReverse_steps
    {saddr : nsaddr_t}
    {rq : HdrAodvRequest}
    (hSound : n.Sound) :
    Ensures (n.recvReverse now saddr rq)
      (fun s => s.Sound ∧
        Ring.Step now (n.ring d)
          (n.marks now d s (.recvReverse saddr rq)) (s.ring d))
      (fun _ => True) := by
  unfold recvReverse
  dsimp only
  refine entry_ensures trivial fun rt hMem hDst => ?_
  have hSound' := @ensure_sound n rq.rq_src hSound
  have hRing := @ring_ensure n rq.rq_src d
  have hTakes := @takes_iff n rt rq.rq_src_seqno
    rq.rq_hop_count (hDst.symm ▸ hMem)
  rw [hDst] at hTakes
  simp only [marks]
  rw [waits, ← hRing]
  generalize n.ensure rq.rq_src = m at hMem hSound' ⊢
  have hHere := ring_of_mem hMem
  refine .ite (fun hFresher => ?_) fun hStale => ?_
  · refine check_ensures (fun _ => trivial) fun _ => ?_
    refine (@drain_leaves now (m.store _) rq.rq_src
      (forwardReverse now rq.rq_src) (hSound'.congr rfl)
      fun p s => forwardReverse_leaves).mono ?_ fun _ h => h
    intro s hs
    refine ⟨hs.1, ?_⟩
    rw [hs.2, ring_store hMem (by rw [reversed_dst])]
    by_cases hSame : d = rt.rt_dst
    · have hAccepted :
          rq.rq_src = d ∧
            n.takes d rq.rq_src_seqno rq.rq_hop_count =
              true := by
        refine ⟨hDst.symm.trans hSame.symm, ?_⟩
        rw [hSame, hDst, hTakes]
        exact hFresher.imp_right fun h => ⟨h.1.symm, h.2⟩
      rw [if_pos hAccepted, if_pos hSame, hSame, hHere]
      exact reversed_ring now saddr rq
        { rt with
          rt_expire := max rt.rt_expire (now + REV_ROUTE_LIFE) }
    · rw [if_neg (fun h => hSame (h.1.symm.trans hDst.symm)),
        if_neg hSame]
      exact .same _
  · refine .of_ok ⟨hSound'.congr rfl, ?_⟩
    have hRefused :
        ¬(rq.rq_src = d ∧
          n.takes d rq.rq_src_seqno rq.rq_hop_count =
            true) := by
      intro ⟨hSame, hTrue⟩
      rw [← hSame, hTakes] at hTrue
      exact hStale (hTrue.imp_right fun h => ⟨h.1.symm, h.2⟩)
    rw [if_neg hRefused]
    have hTouch := @ring_touch m rt
      { rt with
        rt_expire := max rt.rt_expire (now + REV_ROUTE_LIFE) }
      hMem rfl rfl d
    rw [hTouch]
    exact .same _

theorem recvReply_steps
    {rp : HdrAodvReply}
    {p : AodvPacket}
    (hSound : n.Sound) :
    Ensures (n.recvReply now rp p)
      (fun s => s.Sound ∧
        Ring.Step now (n.ring d)
          (n.marks now d s (.recvReply rp p)) (s.ring d))
      (fun _ => True) := by
  unfold recvReply
  dsimp only
  refine entry_ensures trivial fun rt hMem hDst => ?_
  have hSound' := @ensure_sound n rp.rp_dst hSound
  have hRing := @ring_ensure n rp.rp_dst d
  have hTakes := @takes_iff n rt rp.rp_dst_seqno
    rp.rp_hop_count (hDst.symm ▸ hMem)
  rw [hDst] at hTakes
  simp only [marks]
  rw [← hRing]
  generalize n.ensure rp.rp_dst = m at hMem hSound' ⊢
  have hHere := ring_of_mem hMem
  refine .ite (fun hFresher => ?_) fun hStale => ?_
  · have hStored :
        ∀ q : Prop, [Decidable q] →
          (if q then timed now rp (replied now rp rt)
            else replied now rp rt).rt_dst = rt.rt_dst := by
      intro q _
      split <;> rfl
    -- the route is entered, and packets leave along it
    have hStep :
        Ring.Step now (m.ring d)
          (if rp.rp_dst = d ∧
              n.takes d rp.rp_dst_seqno rp.rp_hop_count = true
            then [.updated true] else [])
          ((m.store
            (if p.daddr = m.index then
              timed now rp (replied now rp rt)
            else replied now rp rt)).ring d) := by
      rw [ring_store hMem (hStored _)]
      by_cases hSame : d = rt.rt_dst
      · have hAccepted :
            rp.rp_dst = d ∧
              n.takes d rp.rp_dst_seqno rp.rp_hop_count =
                true := by
          refine ⟨hDst.symm.trans hSame.symm, ?_⟩
          rw [hSame, hDst, hTakes]
          exact hFresher
        rw [if_pos hAccepted, if_pos hSame, hSame, hHere]
        exact replied_ring now rp rt _
      · rw [if_neg (fun h => hSame (h.1.symm.trans hDst.symm)),
          if_neg hSame]
        exact .same _
    refine Ensures.bind (@drain_leaves now (m.store _) rp.rp_dst
      (forwardReplied now rp.rp_dst) (hSound'.congr rfl)
      fun p s => forwardReplied_leaves) fun s hs => ?_
    refine .ite (fun _ => ?_) fun _ => ?_
    · exact .of_ok ⟨hs.1, by rwa [hs.2]⟩
    · refine recvRelay_leaves.mono (fun s' hs' => ?_)
        fun _ h => h
      exact ⟨hs.1.congr hs'.rqueue, by rwa [hs'.rings, hs.2]⟩
  · refine .of_ok ⟨hSound', ?_⟩
    have hRefused :
        ¬(rp.rp_dst = d ∧
          n.takes d rp.rp_dst_seqno rp.rp_hop_count =
            true) := by
      intro ⟨hSame, hTrue⟩
      rw [← hSame, hTakes] at hTrue
      exact hStale hTrue
    rw [if_neg hRefused]
    exact .same _

theorem rt_down_ring
    (seqno : Nat)
    (rt : AodvRtEntry) :
    Ring.Step now (.of rt) []
      (.of (AodvRtEntry.rt_down
        { rt with rt_seqno := seqno })) := by
  unfold AodvRtEntry.rt_down
  dsimp only
  by_cases hDown : rt.rt_flags = .RTF_DOWN
  · rw [if_pos hDown]
    exact .same (.of rt)
  · rw [if_neg hDown]
    exact .down (.of rt) hDown

/- A write to one entry, as a step of the search for any. -/
theorem store_steps
    {rt' : AodvRtEntry}
    (hSound : n.Sound)
    (hMem : rt ∈ n.rtable.entries)
    (hDst : rt'.rt_dst = rt.rt_dst)
    (hStep : Ring.Step now (.of rt) [] (.of rt')) :
    (n.store rt').Sound ∧
      Ring.Step now (n.ring d) [] ((n.store rt').ring d) := by
  refine ⟨hSound.congr rfl, ?_⟩
  rw [ring_store hMem hDst]
  by_cases hSame : d = rt.rt_dst
  · rw [if_pos hSame, hSame, ring_of_mem hMem]
    exact hStep
  · rw [if_neg hSame]
    exact .same _

/- Every call is a step of the search for each destination. -/
theorem call_steps
    (c : Call)
    (hSound : n.Sound)
    (hBuffers : n.Buffers c) :
    Ensures (n.call now c)
      (fun s => s.Sound ∧
        Ring.Step now (n.ring d) (n.marks now d s c) (s.ring d))
      (fun _ => True) := by
  cases c with
  | sendRequest dst =>
      refine (sendRequest_spec hSound).mono ?_ fun _ h => h
      intro s ⟨hSound', rt, hMem, hDst, hRequests⟩
      refine ⟨hSound', ?_⟩
      rw [marks, ← hDst]
      by_cases hSame : rt.rt_dst = d
      · rw [if_pos hSame, ← hSame, ring_of_mem hMem]
        exact hRequests.step hMem
      · rw [if_neg hSame,
          hRequests.others fun h => hSame h.symm]
        exact .same _
  | enque p =>
      change Ensures (n.enque now p) _ _
      unfold enque
      split
      · exact .of_error trivial
      next r hEnque =>
        rcases hSound.enque hBuffers.1 hBuffers.2 hEnque with
          ⟨xs, hHolds, -, hRest⟩
        exact .of_ok ⟨⟨xs, hHolds, hRest⟩, .same _⟩
  | rt_add dst =>
      refine .of_ok ⟨ensure_sound hSound, ?_⟩
      rw [ring_ensure]
      exact .same _
  | recvReverse saddr rq => exact recvReverse_steps hSound
  | recvReply rp p => exact recvReply_steps hSound
  | rt_down dst seqno =>
      refine entry_ensures trivial fun rt hMem _ => .of_ok ?_
      exact store_steps hSound hMem (by simp)
        (rt_down_ring seqno rt)
  | repair dst =>
      refine entry_ensures trivial fun rt hMem _ => .of_ok ?_
      exact store_steps hSound hMem rfl (.repair (.of rt))

end Aodv

end Ns2

------------------------------------------------------------
-- Laws of a search
------------------------------------------------------------

namespace Ns2

namespace Aodv

def Mark.isReset : Mark → Bool
| .updated reset => reset
| _ => false

def Mark.isPause : Mark → Bool
| .pause _ _ => true
| _ => false

/- A request that goes through the whole network. -/
def Mark.isWide : Mark → Bool
| .sent _ ttl _ => decide (ttl = NETWORK_DIAMETER)
| _ => false

/- The marks since the last reset of the soft state. -/
def segment (ms : List Mark) : List Mark :=
  ms.takeWhile fun m => !m.isReset

/- The marks since the last reset or the last pause. -/
def round (ms : List Mark) : List Mark :=
  ms.takeWhile fun m => !(m.isReset || m.isPause)

/- A route to the destination has been entered. -/
def Reached (ms : List Mark) : Prop :=
  ∃ reset, .updated reset ∈ ms

def Searched (ms : List Mark) : Prop :=
  ∃ time ttl timeout, .sent time ttl timeout ∈ ms

/- What the law says of a mark after the older ones. -/
def Allows (older : List Mark) : Mark → Prop
| .sent time ttl _ =>
    ttl ≤ NETWORK_DIAMETER ∧
    (∀ time' ttl' timeout',
      .sent time' ttl' timeout' ∈ segment older →
        ttl' ≤ ttl ∧ timeout' ≤ time) ∧
    ∀ time' left, .pause time' left ∈ segment older →
      time' + MAX_RREQ_TIMEOUT ≤ time
| .pause _ left => left = []
| _ => True

/-
  The rings grow and wait for each other, and at most
  `RREQ_RETRIES + 1` of them are wide before a pause.
-/
structure Lawful (ms : List Mark) : Prop where
  allowed : ∀ m older, (m :: older) <:+ ms → Allows older m
  wide : ∀ older, older <:+ ms →
    (round older).countP Mark.isWide ≤ RREQ_RETRIES + 1

variable {m : Mark}
variable {ms : List Mark}

theorem Lawful.cons
    (hLawful : Lawful ms)
    (hAllows : Allows ms m)
    (hWide : (round (m :: ms)).countP Mark.isWide ≤
      RREQ_RETRIES + 1) :
    Lawful (m :: ms) := by
  constructor
  case allowed =>
    intro m' older hSuffix
    rcases List.suffix_cons_iff.mp hSuffix with hEq | hOld
    · cases hEq
      exact hAllows
    · exact hLawful.allowed m' older hOld
  case wide =>
    intro older hSuffix
    rcases List.suffix_cons_iff.mp hSuffix with hEq | hOld
    · rw [hEq]
      exact hWide
    · exact hLawful.wide older hOld

theorem lawful_nil : Lawful [] := by
  constructor
  case allowed =>
    intro m older hSuffix
    cases List.suffix_nil.mp hSuffix
  case wide =>
    intro older hSuffix
    rw [List.suffix_nil.mp hSuffix]
    exact Nat.zero_le _

end Aodv

end Ns2

------------------------------------------------------------
-- Traces of a search
------------------------------------------------------------

namespace Ns2

namespace Aodv

variable {now : ℚ}
variable {r r' : Ring}
variable {ms new : List Mark}

/- What the fields of an entry say of the marks so far. -/
structure Tracks (r : Ring) (ms : List Mark) : Prop where
  lawful : Lawful ms
  sent : ∀ (time : ℚ) (ttl : Int) (timeout : ℚ),
    .sent time ttl timeout ∈ segment ms →
      ttl ≤ NETWORK_DIAMETER ∧ ttl ≤ r.rt_req_last_ttl ∧
        timeout ≤ r.rt_req_timeout
  pause : ∀ time left, .pause time left ∈ segment ms →
    time + MAX_RREQ_TIMEOUT ≤ r.rt_req_timeout
  wide : (round ms).countP Mark.isWide = r.rt_req_cnt
  unreached : ¬Reached ms →
    r.rt_flags ≠ .RTF_UP ∧ r.rt_hops = INFINITY2 ∧
      r.rt_last_hop_count = INFINITY2
  idle : ¬Reached ms → ¬Searched ms →
    r.rt_req_timeout = 0 ∧ r.rt_req_cnt = 0

theorem reached_cons
    {m : Mark}
    (hNot : ¬Reached (m :: ms)) :
    ¬Reached ms :=
  fun ⟨reset, hMem⟩ =>
    hNot ⟨reset, List.mem_cons_of_mem _ hMem⟩

theorem searched_cons
    {m : Mark}
    (hNot : ¬Searched (m :: ms)) :
    ¬Searched ms :=
  fun ⟨time, ttl, timeout, hMem⟩ =>
    hNot ⟨time, ttl, timeout, List.mem_cons_of_mem _ hMem⟩

/- A change of the route that no mark is made of. -/
theorem Tracks.quiet
    (hTracks : Tracks r ms)
    (hTimeout : r'.rt_req_timeout = r.rt_req_timeout)
    (hCount : r'.rt_req_cnt = r.rt_req_cnt)
    (hTtl : r'.rt_req_last_ttl = r.rt_req_last_ttl)
    (hUnreached : ¬Reached ms →
      r'.rt_flags ≠ .RTF_UP ∧ r'.rt_hops = INFINITY2 ∧
        r'.rt_last_hop_count = INFINITY2) :
    Tracks r' ms := by
  constructor
  case lawful => exact hTracks.lawful
  case sent =>
    rw [hTimeout, hTtl]
    exact hTracks.sent
  case pause =>
    rw [hTimeout]
    exact hTracks.pause
  case wide => rw [hTracks.wide, hCount]
  case unreached => exact hUnreached
  case idle =>
    rw [hTimeout, hCount]
    exact hTracks.idle

theorem Tracks.ask
    (hTracks : Tracks r ms) :
    Tracks r (.asked :: ms) := by
  have hSegment : segment (.asked :: ms) = .asked :: segment ms :=
    rfl
  have hRound : round (.asked :: ms) = .asked :: round ms := rfl
  have hWide :
      (round (.asked :: ms)).countP Mark.isWide =
        (round ms).countP Mark.isWide := by
    rw [hRound, List.countP_cons_of_neg (by simp [Mark.isWide])]
  constructor
  case lawful =>
    refine hTracks.lawful.cons (m := .asked) trivial ?_
    rw [hWide]
    exact hTracks.lawful.wide ms List.suffix_rfl
  case sent =>
    intro time ttl timeout hMem
    rw [hSegment] at hMem
    exact hTracks.sent time ttl timeout
      (List.mem_of_ne_of_mem Mark.noConfusion hMem)
  case pause =>
    intro time left hMem
    rw [hSegment] at hMem
    exact hTracks.pause time left
      (List.mem_of_ne_of_mem Mark.noConfusion hMem)
  case wide => rw [hWide, hTracks.wide]
  case unreached =>
    exact fun hNot => hTracks.unreached (reached_cons hNot)
  case idle =>
    exact fun hNot hNone =>
      hTracks.idle (reached_cons hNot) (searched_cons hNone)

theorem Tracks.paused
    (hTracks : Tracks r ms)
    (hLate : r.rt_req_timeout ≤ now)
    (hCount : RREQ_RETRIES < r.rt_req_cnt) :
    Tracks
      { r with
        rt_req_timeout := now + MAX_RREQ_TIMEOUT
        rt_req_cnt := 0 }
      (.pause now [] :: ms) := by
  have hSegment :
      segment (.pause now [] :: ms) =
        .pause now [] :: segment ms :=
    rfl
  have hRound : round (.pause now [] :: ms) = [] := rfl
  have hLater : r.rt_req_timeout ≤ now + MAX_RREQ_TIMEOUT := by
    unfold MAX_RREQ_TIMEOUT
    linarith
  constructor
  case lawful =>
    refine hTracks.lawful.cons (m := .pause now []) rfl ?_
    rw [hRound]
    exact Nat.zero_le _
  case sent =>
    intro time ttl timeout hMem
    rw [hSegment] at hMem
    have hSent := hTracks.sent time ttl timeout
      (List.mem_of_ne_of_mem Mark.noConfusion hMem)
    exact ⟨hSent.1, hSent.2.1, hSent.2.2.trans hLater⟩
  case pause =>
    intro time left hMem
    rw [hSegment] at hMem
    rcases List.mem_cons.mp hMem with hHead | hOld
    · cases hHead
      exact le_rfl
    · exact (hTracks.pause time left hOld).trans hLater
  case wide =>
    rw [hRound]
    rfl
  case unreached =>
    exact fun hNot => hTracks.unreached (reached_cons hNot)
  case idle =>
    intro hNot hNone
    have hIdle :=
      hTracks.idle (reached_cons hNot) (searched_cons hNone)
    rw [hIdle.2] at hCount
    exact absurd hCount (Nat.not_lt_zero _)

/- The next ring is larger, and wide if it is counted. -/
theorem Ring.next_spec (r : Ring) :
    r.next.1 ≤ NETWORK_DIAMETER ∧
      (r.rt_req_last_ttl ≤ r.next.1 ∨
        r.next.1 = NETWORK_DIAMETER) ∧
      r.next.2 =
        r.rt_req_cnt +
          if r.next.1 = NETWORK_DIAMETER then 1 else 0 := by
  unfold next TTL_START TTL_THRESHOLD TTL_INCREMENT
    NETWORK_DIAMETER
  dsimp only
  by_cases hNone : max r.rt_req_last_ttl r.rt_last_hop_count = 0
  · rw [if_pos hNone]
    refine ⟨by simp, Or.inl ?_, by simp⟩
    exact (le_max_left _ _).trans (hNone.le.trans (Nat.zero_le 5))
  · rw [if_neg hNone]
    by_cases hNear :
        max r.rt_req_last_ttl r.rt_last_hop_count < 7
    · rw [if_pos hNear]
      refine ⟨?_, Or.inl ?_, ?_⟩
      · dsimp only
        omega
      · dsimp only
        omega
      · rw [if_neg (by omega)]
        rfl
    · rw [if_neg hNear]
      exact ⟨le_rfl, Or.inr rfl, by simp⟩

theorem Tracks.send
    {timeout : ℚ}
    (hTracks : Tracks r ms)
    (hLate : r.rt_req_timeout ≤ now)
    (hCount : r.rt_req_cnt ≤ RREQ_RETRIES)
    (hTimeout : now ≤ timeout) :
    Tracks
      { r with
        rt_req_timeout := timeout
        rt_req_cnt := r.next.2
        rt_req_last_ttl := r.next.1 }
      (.sent now r.next.1 timeout :: ms) := by
  rcases r.next_spec with ⟨hBound, hGrows, hNext⟩
  have hSegment :
      segment (.sent now r.next.1 timeout :: ms) =
        .sent now r.next.1 timeout :: segment ms :=
    rfl
  have hRound :
      round (.sent now r.next.1 timeout :: ms) =
        .sent now r.next.1 timeout :: round ms :=
    rfl
  have hWide :
      (round (.sent now r.next.1 timeout :: ms)).countP
        Mark.isWide = r.next.2 := by
    rw [hRound, List.countP_cons, hTracks.wide, hNext]
    simp [Mark.isWide]
  -- no earlier ring of the segment is larger
  have hOlder :
      ∀ time ttl timeout',
        .sent time ttl timeout' ∈ segment ms →
          ttl ≤ (r.next.1 : Int) := by
    intro time ttl timeout' hMem
    have hSent := hTracks.sent time ttl timeout' hMem
    rcases hGrows with hGrows | hGrows
    · have hCast : (r.rt_req_last_ttl : Int) ≤ r.next.1 :=
        Int.ofNat_le.mpr hGrows
      exact hSent.2.1.trans hCast
    · rw [hGrows]
      exact hSent.1
  constructor
  case lawful =>
    apply hTracks.lawful.cons
    · refine ⟨Int.ofNat_le.mpr hBound,
        fun time ttl timeout' hMem => ?_,
        fun time left hMem => ?_⟩
      · exact ⟨hOlder time ttl timeout' hMem,
          (hTracks.sent time ttl timeout' hMem).2.2.trans
            hLate⟩
      · exact (hTracks.pause time left hMem).trans hLate
    · rw [hWide, hNext]
      split
      · exact Nat.succ_le_succ hCount
      · exact Nat.le_succ_of_le hCount
  case sent =>
    intro time ttl timeout' hMem
    rw [hSegment] at hMem
    rcases List.mem_cons.mp hMem with hHead | hOld
    · cases hHead
      exact ⟨Int.ofNat_le.mpr hBound, le_rfl, le_rfl⟩
    · have hSent := hTracks.sent time ttl timeout' hOld
      exact ⟨hSent.1, hOlder time ttl timeout' hOld,
        hSent.2.2.trans (hLate.trans hTimeout)⟩
  case pause =>
    intro time left hMem
    rw [hSegment] at hMem
    exact (hTracks.pause time left
      (List.mem_of_ne_of_mem Mark.noConfusion hMem)).trans
        (hLate.trans hTimeout)
  case wide => exact hWide
  case unreached =>
    exact fun hNot => hTracks.unreached (reached_cons hNot)
  case idle =>
    intro _ hNone
    exact absurd ⟨now, r.next.1, timeout, List.mem_cons_self⟩
      hNone

theorem Tracks.update
    (hTracks : Tracks r ms)
    (metric : Nat) :
    Tracks
      { r with
        rt_hops := metric
        rt_flags := .RTF_UP }
      (.updated false :: ms) := by
  have hSegment :
      segment (.updated false :: ms) =
        .updated false :: segment ms :=
    rfl
  have hRound :
      round (.updated false :: ms) =
        .updated false :: round ms :=
    rfl
  have hWide :
      (round (.updated false :: ms)).countP Mark.isWide =
        (round ms).countP Mark.isWide := by
    rw [hRound, List.countP_cons_of_neg (by simp [Mark.isWide])]
  have hReached : Reached (.updated false :: ms) :=
    ⟨false, List.mem_cons_self⟩
  constructor
  case lawful =>
    refine hTracks.lawful.cons (m := .updated false) trivial ?_
    rw [hWide]
    exact hTracks.lawful.wide ms List.suffix_rfl
  case sent =>
    intro time ttl timeout hMem
    rw [hSegment] at hMem
    exact hTracks.sent time ttl timeout
      (List.mem_of_ne_of_mem Mark.noConfusion hMem)
  case pause =>
    intro time left hMem
    rw [hSegment] at hMem
    exact hTracks.pause time left
      (List.mem_of_ne_of_mem Mark.noConfusion hMem)
  case wide => rw [hWide, hTracks.wide]
  case unreached => exact fun hNot => absurd hReached hNot
  case idle => exact fun hNot => absurd hReached hNot

theorem Tracks.reset
    (hTracks : Tracks r ms)
    (metric : Nat) :
    Tracks
      { r with
        rt_hops := metric
        rt_flags := .RTF_UP
        rt_req_timeout := 0
        rt_req_cnt := 0
        rt_req_last_ttl := metric }
      (.updated true :: ms) := by
  have hReached : Reached (.updated true :: ms) :=
    ⟨true, List.mem_cons_self⟩
  have hSegment : segment (.updated true :: ms) = [] := rfl
  have hRound : round (.updated true :: ms) = [] := rfl
  constructor
  case lawful =>
    refine hTracks.lawful.cons (m := .updated true) trivial ?_
    rw [hRound]
    exact Nat.zero_le _
  case sent =>
    intro time ttl timeout hMem
    rw [hSegment] at hMem
    cases hMem
  case pause =>
    intro time left hMem
    rw [hSegment] at hMem
    cases hMem
  case wide =>
    rw [hRound]
    rfl
  case unreached => exact fun hNot => absurd hReached hNot
  case idle => exact fun hNot => absurd hReached hNot

/- A step of the search keeps what its fields say. -/
theorem Tracks.step
    (hTracks : Tracks r ms)
    (hStep : Ring.Step now r new r') :
    Tracks r' (new ++ ms) := by
  cases hStep with
  | same => exact hTracks
  | wait hWait => exact hTracks.ask
  | pause hDown hLate hCount =>
      exact hTracks.ask.paused hLate hCount
  | sent timeout hDown hLate hCount hTimeout =>
      exact hTracks.ask.send hLate hCount hTimeout
  | down hFlags =>
      refine hTracks.quiet rfl rfl rfl fun hNot => ?_
      have hUnreached := hTracks.unreached hNot
      exact ⟨RouteFlags.noConfusion, rfl, hUnreached.2.1⟩
  | repair =>
      refine hTracks.quiet rfl rfl rfl fun hNot => ?_
      exact ⟨RouteFlags.noConfusion,
        (hTracks.unreached hNot).2⟩
  | update metric => exact hTracks.update metric
  | reset metric => exact hTracks.reset metric

end Aodv

end Ns2

------------------------------------------------------------
-- First searches
------------------------------------------------------------

namespace Ns2

namespace Aodv

variable {now : ℚ}
variable {n : Aodv}
variable {d : nsaddr_t}
variable {r r' : Ring}
variable {ms new : List Mark}

theorem exists_suffix_of_mem
    {m : Mark}
    (hMem : m ∈ ms) :
    ∃ older, (m :: older) <:+ ms := by
  rcases List.append_of_mem hMem with ⟨newer, older, hEq⟩
  exact ⟨older, newer, hEq.symm⟩

/- The first search was wide, and nothing was known then. -/
def BeganWide (ms : List Mark) : Prop :=
  ∃ time timeout older,
    (.sent time NETWORK_DIAMETER timeout :: older) <:+ ms ∧
      ¬Reached older ∧ ¬Searched older

/- Where the requests of a trace come from. -/
structure Begins (ms : List Mark) : Prop where
  asked : ∀ (time : ℚ) (ttl : Int) (timeout : ℚ)
      (older : List Mark),
    (.sent time ttl timeout :: older) <:+ ms →
      ∃ rest, older = .asked :: rest
  wide : ∀ older, (.asked :: older) <:+ ms →
    ¬Reached older → BeganWide ms

theorem BeganWide.append
    (hBegan : BeganWide ms)
    (new : List Mark) :
    BeganWide (new ++ ms) := by
  rcases hBegan with ⟨time, timeout, older, hSuffix, hNone⟩
  exact ⟨time, timeout, older,
    hSuffix.trans (List.suffix_append new ms), hNone⟩

theorem not_reached_of_suffix
    {older : List Mark}
    (hSuffix : older <:+ ms)
    (hNot : ¬Reached ms) :
    ¬Reached older :=
  fun ⟨reset, hMem⟩ => hNot ⟨reset, hSuffix.mem hMem⟩

/- A search without a route goes back to a wide first one. -/
theorem Begins.of_searched
    (hBegins : Begins ms)
    (hNot : ¬Reached ms)
    (hSearched : Searched ms) :
    BeganWide ms := by
  rcases hSearched with ⟨time, ttl, timeout, hMem⟩
  rcases exists_suffix_of_mem hMem with ⟨older, hSuffix⟩
  rcases hBegins.asked time ttl timeout older hSuffix with
    ⟨rest, rfl⟩
  have hAsked : (.asked :: rest) <:+ ms :=
    (List.suffix_cons _ _).trans hSuffix
  exact hBegins.wide rest hAsked (not_reached_of_suffix
    ((List.suffix_cons _ _).trans hAsked) hNot)

/- Marks that are added without a request of their own. -/
theorem Begins.ask
    {m : Mark}
    (hBegins : Begins ms)
    (hAsked : m = .asked → ¬Reached ms → BeganWide ms)
    (hSent : ∀ time ttl timeout, m ≠ .sent time ttl timeout) :
    Begins (m :: ms) := by
  constructor
  case asked =>
    intro time ttl timeout older hSuffix
    rcases List.suffix_cons_iff.mp hSuffix with hEq | hOld
    · cases hEq
      exact absurd rfl (hSent time ttl timeout)
    · exact hBegins.asked time ttl timeout older hOld
  case wide =>
    intro older hSuffix hNot
    rcases List.suffix_cons_iff.mp hSuffix with hEq | hOld
    · cases hEq
      exact (hAsked rfl hNot).append [.asked]
    · exact (hBegins.wide older hOld hNot).append [m]

/- The first ring for a destination is the whole network. -/
theorem Ring.next_unreached
    (hHops : r.rt_last_hop_count = INFINITY2) :
    r.next.1 = NETWORK_DIAMETER := by
  have hLast :
      255 ≤ max r.rt_req_last_ttl r.rt_last_hop_count := by
    rw [hHops]
    exact le_max_right _ _
  unfold next TTL_THRESHOLD
  dsimp only
  rw [if_neg (by omega), if_neg (by omega)]

theorem Begins.sent
    {ttl : Int}
    {timeout : ℚ}
    (hBegins : Begins ms)
    (hFirst : ¬Reached ms → ¬Searched ms →
      ttl = NETWORK_DIAMETER) :
    Begins (.sent now ttl timeout :: .asked :: ms) := by
  have hBegan : ¬Reached ms →
      BeganWide (.sent now ttl timeout :: .asked :: ms) := by
    intro hNot
    by_cases hSearched : Searched ms
    · exact (hBegins.of_searched hNot hSearched).append
        [.sent now ttl timeout, .asked]
    · refine ⟨now, timeout, .asked :: ms, ?_, ?_, ?_⟩
      · have hWide := hFirst hNot hSearched
        subst hWide
        exact List.suffix_rfl
      · intro ⟨reset, hMem⟩
        exact hNot ⟨reset,
          List.mem_of_ne_of_mem Mark.noConfusion hMem⟩
      · intro ⟨time, ttl', timeout', hMem⟩
        exact hSearched ⟨time, ttl', timeout',
          List.mem_of_ne_of_mem Mark.noConfusion hMem⟩
  constructor
  case asked =>
    intro time ttl' timeout' older hSuffix
    rcases List.suffix_cons_iff.mp hSuffix with hEq | hOld
    · cases hEq
      exact ⟨ms, rfl⟩
    · rcases List.suffix_cons_iff.mp hOld with hEq | hOlder
      · cases hEq
      · exact hBegins.asked time ttl' timeout' older hOlder
  case wide =>
    intro older hSuffix hNot
    rcases List.suffix_cons_iff.mp hSuffix with hEq | hOld
    · cases hEq
    · rcases List.suffix_cons_iff.mp hOld with hEq | hOlder
      · cases hEq
        exact hBegan hNot
      · exact (hBegins.wide older hOlder hNot).append
          [.sent now ttl timeout, .asked]

theorem Begins.step
    (hBegins : Begins ms)
    (hTracks : Tracks r ms)
    (hNow : 0 ≤ now)
    (hStep : Ring.Step now r new r') :
    Begins (new ++ ms) := by
  cases hStep with
  | same => exact hBegins
  | wait hWait =>
      refine hBegins.ask (fun _ hNot => ?_)
        fun _ _ _ => Mark.noConfusion
      -- only a search that is on its way is waited for
      refine hBegins.of_searched hNot ?_
      by_contra hNone
      have hIdle := hTracks.idle hNot hNone
      rcases hWait with hUp | hWait
      · exact (hTracks.unreached hNot).1 hUp
      · rw [hIdle.1] at hWait
        exact absurd hNow (not_le.mpr hWait)
  | pause hDown hLate hCount =>
      refine (hBegins.ask (m := .asked) (fun _ hNot => ?_)
        fun _ _ _ => Mark.noConfusion).ask
          (fun h => Mark.noConfusion h)
          fun _ _ _ => Mark.noConfusion
      refine hBegins.of_searched hNot ?_
      by_contra hNone
      have hIdle := hTracks.idle hNot hNone
      rw [hIdle.2] at hCount
      exact absurd hCount (Nat.not_lt_zero _)
  | sent timeout hDown hLate hCount hTimeout =>
      refine hBegins.sent fun hNot _ => ?_
      rw [Ring.next_unreached (hTracks.unreached hNot).2.2]
  | down hFlags => exact hBegins
  | repair => exact hBegins
  | update metric =>
      exact hBegins.ask (fun h => Mark.noConfusion h)
        fun _ _ _ => Mark.noConfusion
  | reset metric =>
      exact hBegins.ask (fun h => Mark.noConfusion h)
        fun _ _ _ => Mark.noConfusion

------------------------------------------------------------
-- Runs
------------------------------------------------------------

theorem tracks_new :
    Tracks (.of (.new d)) [] := by
  constructor
  case lawful => exact lawful_nil
  case sent =>
    intro time ttl timeout hMem
    cases hMem
  case pause =>
    intro time left hMem
    cases hMem
  case wide => rfl
  case unreached =>
    exact fun _ => ⟨RouteFlags.noConfusion, rfl, rfl⟩
  case idle => exact fun _ _ => ⟨rfl, rfl⟩

theorem begins_nil : Begins [] := by
  constructor
  case asked =>
    intro time ttl timeout older hSuffix
    cases List.suffix_nil.mp hSuffix
  case wide =>
    intro older hSuffix
    cases List.suffix_nil.mp hSuffix

/- What holds of a node and of the marks of a destination. -/
structure Invariant
    (d : nsaddr_t)
    (time : ℚ)
    (n : Aodv)
    (ms : List Mark) : Prop where
  time_nonneg : 0 ≤ time
  sound : n.Sound
  tracks : Tracks (n.ring d) ms
  begins : Begins ms

theorem Trace.invariant
    {time : ℚ}
    (hTrace : Trace d time n ms) :
    Invariant d time n ms := by
  induction hTrace with
  | new id here_addr next ts =>
      exact ⟨le_rfl, new_sound id here_addr next ts,
        tracks_new, begins_nil⟩
  | call c hTrace hNow hBuffers hCall ih =>
      rcases (call_steps (d := d) c ih.sound hBuffers).ok _
        hCall with ⟨hSound, hStep⟩
      have hLater := ih.time_nonneg.trans hNow
      exact ⟨hLater, hSound, ih.tracks.step hStep,
        ih.begins.step ih.tracks hLater hStep⟩

/- The state after a call that comes to its end. -/
def afterCall
    (now : ℚ)
    (n : Aodv)
    (c : Call) : Aodv :=
  match n.call now c with
  | .ok s => s
  | .error _ => n

theorem Trace.after
    {time : ℚ}
    (c : Call)
    (hTrace : Trace d time n ms)
    (hNow : time ≤ now)
    (hBuffers : n.Buffers c)
    (hOk : (n.call now c).isOk = true)
    (hMarks : n.marks now d (n.afterCall now c) c = new) :
    Trace d now (n.afterCall now c) (new ++ ms) := by
  rw [← hMarks]
  cases hCall : n.call now c with
  | error fault =>
      rw [hCall] at hOk
      cases hOk
  | ok s =>
      have hAfter : n.afterCall now c = s := by
        rw [afterCall, hCall]
      rw [hAfter]
      exact .call c hTrace hNow hBuffers hCall

def fresh : Aodv :=
  Aodv.new 1 1 (fun _ => none) (fun _ => 0)

end Aodv

end Ns2
