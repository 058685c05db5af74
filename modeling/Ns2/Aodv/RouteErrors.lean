import Ns2.Aodv.Agent

/-
  Route errors.

  A node that loses the link to a neighbor, or hears a route
  error, lists the destinations that it cannot reach any more
  in one error of its own, as long as they fit into it.

  Main declarations:
    * `AodvRtEntry.Through`, `AodvRtEntry.Valid`
    * `Aodv.ReportsFailure`, `Aodv.ReportsError`

  Correctness is proven by:
    * `Aodv.failLoop_spec`, `Aodv.failLoop_valid`
    * `Aodv.errorLoop_spec`, `Aodv.errorLoop_valid`
    * `Aodv.route_errors_iff`
-/

------------------------------------------------------------
-- Routes that are lost
------------------------------------------------------------

namespace Ns2

namespace AodvRtEntry

/- The route goes through a neighbor. -/
def Through
    (id : nsaddr_t)
    (rt : AodvRtEntry) : Prop :=
  rt.rt_hops ≠ INFINITY2 ∧ rt.rt_nexthop = id

instance
    (id : nsaddr_t)
    (rt : AodvRtEntry) : Decidable (rt.Through id) :=
  inferInstanceAs (Decidable (_ ∧ _))

/- What the handlers assert of a route that they bring down. -/
def Valid (rt : AodvRtEntry) : Prop :=
  rt.rt_flags = .RTF_UP ∧ rt.rt_seqno % 2 = 0

/- The entry after the link to a neighbor was lost. -/
def cut
    (id : nsaddr_t)
    (rt : AodvRtEntry) : AodvRtEntry :=
  if rt.Through id then
    { rt with rt_seqno := rt.rt_seqno + 1 }.rt_down.pc_delete id
  else rt.pc_delete id

theorem cut_dst
    (id : nsaddr_t)
    (rt : AodvRtEntry) :
    (rt.cut id).rt_dst = rt.rt_dst := by
  unfold cut
  split
  · exact rt_down_dst _
  · rfl

/- An error lists the route, with a number that is not older. -/
def Applies
    (saddr : nsaddr_t)
    (rt : AodvRtEntry)
    (dest : nsaddr_t × Nat) : Prop :=
  rt.rt_dst = dest.1 ∧ rt.Through saddr ∧ rt.rt_seqno ≤ dest.2

instance
    (saddr : nsaddr_t)
    (rt : AodvRtEntry)
    (dest : nsaddr_t × Nat) : Decidable (rt.Applies saddr dest) :=
  inferInstanceAs (Decidable (_ ∧ _))

/- The number with which the route is lost, if it is. -/
def lostAt
    (saddr : nsaddr_t)
    (dests : List (nsaddr_t × Nat))
    (rt : AodvRtEntry) : Option Nat :=
  (dests.find? fun dest => rt.Applies saddr dest).map Prod.snd

/- The entry of a lost route, without its precursors. -/
def lost
    (rt : AodvRtEntry)
    (seqno : Nat) : AodvRtEntry :=
  { rt with rt_seqno := seqno }.rt_down.pc_clear

/- The entry after an error of a neighbor. -/
def heard
    (saddr : nsaddr_t)
    (dests : List (nsaddr_t × Nat))
    (rt : AodvRtEntry) : AodvRtEntry :=
  (rt.lostAt saddr dests).elim rt rt.lost

/- The destination and its number, as they are reported. -/
def report (rt : AodvRtEntry) : nsaddr_t × Nat :=
  (rt.rt_dst, rt.rt_seqno + 1)

end AodvRtEntry

namespace Aodv

/- The route errors that were sent. -/
def sentErrors (out : List AodvAction) : List HdrAodvError :=
  out.filterMap fun
    | .send ⟨_, .PT_AODV (.RERR re), _, _, _, _, _, _⟩ => some re
    | _ => none

/-
  The node has sent one error that lists the destinations,
  or none where there is nothing to list.
-/
def Reports
    (n n' : Aodv)
    (dests : List (nsaddr_t × Nat)) : Prop :=
  ∃ res, sentErrors n'.out = sentErrors n.out ++ res ∧
    res.map HdrAodvError.listed =
      if dests = [] then [] else [dests]

/- The destinations behind a lost link, each of them once. -/
structure ReportsFailure
    (id : nsaddr_t)
    (n n' : Aodv) : Prop where
  routes : n'.rtable.entries = n.rtable.entries.map (·.cut id)
  errors : ∃ dests,
    (dests.map Prod.fst).Nodup ∧
    (∀ d s, (d, s) ∈ dests ↔
      ∃ rt ∈ n.rtable.entries, rt.Through id ∧
        rt.rt_dst = d ∧ rt.rt_seqno + 1 = s) ∧
    Reports n n' dests

/-
  The routes that an error lists are lost, and those of them
  that have precursors are reported.
-/
structure ReportsError
    (saddr : nsaddr_t)
    (re : HdrAodvError)
    (n n' : Aodv) : Prop where
  routes : n'.rtable.entries =
    n.rtable.entries.map (·.heard saddr re.listed)
  errors : ∃ dests,
    (dests.map Prod.fst).Nodup ∧
    (∀ d s, (d, s) ∈ dests ↔
      ∃ rt ∈ n.rtable.entries, rt.rt_dst = d ∧
        rt.lostAt saddr re.listed = some s ∧
          rt.rt_pclist ≠ []) ∧
    Reports n n' dests

theorem sentErrors_append
    (as bs : List AodvAction) :
    sentErrors (as ++ bs) = sentErrors as ++ sentErrors bs :=
  List.filterMap_append

theorem reports_sendError
    {n n' : Aodv}
    {re : HdrAodvError}
    (hOut : sentErrors n'.out = sentErrors n.out) :
    Reports n
      (if 0 < re.DestCount then n'.sendError re else n')
      re.listed := by
  by_cases hSome : 0 < re.DestCount
  · have hNe : re.listed ≠ [] := by
      rw [← List.length_pos_iff, HdrAodvError.listed_length]
      exact hSome
    rw [if_pos hSome]
    refine ⟨[re], ?_, ?_⟩
    · unfold sendError emit packet
      dsimp only
      rw [sentErrors_append, hOut]
      rfl
    · rw [if_neg hNe]
      rfl
  · have hNil : re.listed = [] := by
      rw [← List.length_eq_zero_iff, HdrAodvError.listed_length]
      omega
    rw [if_neg hSome]
    refine ⟨[], ?_, ?_⟩
    · rw [List.append_nil]
      exact hOut
    · rw [if_pos hNil]
      rfl

------------------------------------------------------------
-- Lost links
------------------------------------------------------------

variable {id : nsaddr_t}
variable {n : Aodv}
variable {re : HdrAodvError}
variable {rt : AodvRtEntry}

theorem entry_of_mem
    (hMem : rt ∈ n.rtable.entries) :
    n.entry rt.rt_dst = .ok rt := by
  unfold entry
  rw [AodvRtable.rt_lookup_of_mem hMem]

theorem failEntry_ok_iff
    {x : Aodv × HdrAodvError}
    (hMem : rt ∈ n.rtable.entries) :
    failEntry id (n, re) rt.rt_dst = .ok x ↔
      (rt.Through id → rt.Valid) ∧ x.1 = n.store (rt.cut id) ∧
        if rt.Through id then
          re.put rt.rt_dst (rt.rt_seqno + 1) = .ok x.2
        else x.2 = re := by
  unfold failEntry AodvRtEntry.Valid AodvRtEntry.cut
  rw [entry_of_mem hMem]
  change (if rt.Through id then _ else _) = _ ↔ _
  by_cases hThrough : rt.Through id
  · rw [if_pos hThrough, if_pos hThrough, if_pos hThrough,
      check_bind_ok_iff, check_bind_ok_iff, bind_ok_iff]
    constructor
    · rintro ⟨hUp, hEven, re', hPut, ⟨⟩⟩
      exact ⟨fun _ => ⟨hUp, hEven⟩, rfl, hPut⟩
    · rintro ⟨hValid, hStore, hPut⟩
      rcases hValid hThrough with ⟨hUp, hEven⟩
      exact ⟨hUp, hEven, x.2, hPut, hStore ▸ rfl⟩
  · rw [if_neg hThrough, if_neg hThrough, if_neg hThrough]
    constructor
    · rintro ⟨⟩
      exact ⟨fun h => absurd h hThrough, rfl, rfl⟩
    · rintro ⟨-, hStore, hSame⟩
      rw [← hStore, ← hSame]

theorem entries_cut
    {as es : List AodvRtEntry}
    (hEntries : n.rtable.entries = as ++ rt :: es) :
    (n.store (rt.cut id)).rtable.entries =
      (as ++ [rt.cut id]) ++ es := by
  rw [List.append_assoc]
  exact AodvRtable.entries_store hEntries (rt.cut_dst id)

theorem put_listed
    {re' : HdrAodvError}
    {dst : nsaddr_t}
    {seqno : Nat}
    (hPut : re.put dst seqno = .ok re') :
    re'.listed = re.listed ++ [(dst, seqno)] ∧
      re'.DestCount = re.DestCount + 1 := by
  by_cases hRoom : re.DestCount < AODV_MAX_ERRORS
  · rcases HdrAodvError.listed_put hRoom with
      ⟨re₁, hPut₁, hListed⟩
    rw [hPut₁] at hPut
    cases hPut
    refine ⟨hListed, ?_⟩
    rw [← HdrAodvError.listed_length, hListed,
      List.length_append, HdrAodvError.listed_length]
    rfl
  · rw [HdrAodvError.put_full hRoom] at hPut
    cases hPut

/- The entries `as` are done, and the entries `es` are left. -/
theorem failLoop_spec
    (es : List AodvRtEntry)
    {as : List AodvRtEntry}
    (hEntries : n.rtable.entries = as ++ es)
    (hValid : ∀ rt ∈ es, rt.Through id → rt.Valid)
    (hRoom : re.DestCount + (es.filter (·.Through id)).length ≤
      AODV_MAX_ERRORS) :
    ∃ x, (es.map AodvRtEntry.rt_dst).foldlM (failEntry id)
        (n, re) = .ok x ∧
      x.1.rtable.entries = as ++ es.map (·.cut id) ∧
      x.1.out = n.out ∧
      x.2.listed = re.listed ++
        (es.filter (·.Through id)).map AodvRtEntry.report := by
  induction es generalizing n re as with
  | nil =>
      refine ⟨(n, re), rfl, ?_, rfl, ?_⟩
      · exact hEntries
      · exact (List.append_nil _).symm
  | cons rt es ih =>
      have hMem : rt ∈ n.rtable.entries := by
        rw [hEntries]
        exact List.mem_append_right as (List.mem_cons_self ..)
      have hHere := hValid rt (List.mem_cons_self ..)
      have hRest : ∀ e ∈ es, e.Through id → e.Valid :=
        fun e hIn => hValid e (List.mem_cons_of_mem _ hIn)
      rw [List.map_cons, List.foldlM_cons]
      by_cases hThrough : rt.Through id
      · rw [List.filter_cons_of_pos (by simpa using hThrough)]
          at hRoom ⊢
        rw [List.length_cons] at hRoom
        rcases @HdrAodvError.listed_put re rt.rt_dst
          (rt.rt_seqno + 1) (by omega) with
          ⟨re', hPut, hListed⟩
        have hStep : failEntry id (n, re) rt.rt_dst =
            .ok (n.store (rt.cut id), re') := by
          rw [failEntry_ok_iff hMem, if_pos hThrough]
          exact ⟨hHere, rfl, hPut⟩
        have hCount := (put_listed hPut).2
        rcases @ih _ re' _ (entries_cut hEntries) hRest
          (by omega) with
          ⟨x, hLoop, hDone, hOut, hList⟩
        refine ⟨x, ?_, ?_, hOut, ?_⟩
        · rw [hStep]
          exact hLoop
        · rw [hDone, List.append_assoc]
          rfl
        · rw [hList, hListed, List.append_assoc]
          rfl
      · rw [List.filter_cons_of_neg (by simpa using hThrough)]
          at hRoom ⊢
        have hStep : failEntry id (n, re) rt.rt_dst =
            .ok (n.store (rt.cut id), re) := by
          rw [failEntry_ok_iff hMem, if_neg hThrough]
          exact ⟨hHere, rfl, rfl⟩
        rcases ih (entries_cut hEntries) hRest hRoom with
          ⟨x, hLoop, hDone, hOut, hList⟩
        refine ⟨x, ?_, ?_, hOut, hList⟩
        · rw [hStep]
          exact hLoop
        · rw [hDone, List.append_assoc]
          rfl

theorem failLoop_valid
    (es : List AodvRtEntry)
    {as : List AodvRtEntry}
    {x : Aodv × HdrAodvError}
    (hEntries : n.rtable.entries = as ++ es)
    (hLoop : (es.map AodvRtEntry.rt_dst).foldlM (failEntry id)
      (n, re) = .ok x) :
    (∀ rt ∈ es, rt.Through id → rt.Valid) ∧
      x.2.DestCount = re.DestCount +
        (es.filter (·.Through id)).length := by
  induction es generalizing n re as with
  | nil =>
      cases hLoop
      exact ⟨fun _ hIn => absurd hIn (List.not_mem_nil), rfl⟩
  | cons rt es ih =>
      have hMem : rt ∈ n.rtable.entries := by
        rw [hEntries]
        exact List.mem_append_right as (List.mem_cons_self ..)
      rw [List.map_cons, List.foldlM_cons, bind_ok_iff] at hLoop
      rcases hLoop with ⟨⟨n', re'⟩, hStep, hLoop⟩
      rw [failEntry_ok_iff hMem] at hStep
      rcases hStep with ⟨hHere, hStore, hPut⟩
      dsimp only at hStore hPut
      subst hStore
      rcases ih (entries_cut hEntries) hLoop with
        ⟨hRest, hCount⟩
      refine ⟨List.forall_mem_cons.mpr ⟨hHere, hRest⟩, ?_⟩
      by_cases hThrough : rt.Through id
      · rw [if_pos hThrough] at hPut
        have hOne := (put_listed hPut).2
        rw [List.filter_cons_of_pos (by simpa using hThrough),
          List.length_cons]
        omega
      · rw [if_neg hThrough] at hPut
        subst hPut
        rw [List.filter_cons_of_neg (by simpa using hThrough)]
        exact hCount

theorem failEntry_full
    (hMem : rt ∈ n.rtable.entries)
    (hThrough : rt.Through id)
    (hValid : rt.Valid)
    (hFull : ¬ re.DestCount < AODV_MAX_ERRORS) :
    failEntry id (n, re) rt.rt_dst = .error .bounds := by
  unfold failEntry check
  rw [entry_of_mem hMem]
  change (if rt.Through id then _ else _) = _
  rw [if_pos hThrough, if_pos hValid.1, if_pos hValid.2]
  dsimp only
  rw [HdrAodvError.put_full hFull]
  rfl

/- The destinations that do not fit are written nevertheless. -/
theorem failLoop_full
    (es : List AodvRtEntry)
    {as : List AodvRtEntry}
    (hEntries : n.rtable.entries = as ++ es)
    (hValid : ∀ rt ∈ es, rt.Through id → rt.Valid)
    (hFull : AODV_MAX_ERRORS <
      re.DestCount + (es.filter (·.Through id)).length) :
    (es.map AodvRtEntry.rt_dst).foldlM (failEntry id) (n, re) =
      .error .bounds := by
  induction es generalizing n re as with
  | nil =>
      have hFits := re.fits
      rw [List.filter_nil, List.length_nil] at hFull
      omega
  | cons rt es ih =>
      have hMem : rt ∈ n.rtable.entries := by
        rw [hEntries]
        exact List.mem_append_right as (List.mem_cons_self ..)
      have hHere := hValid rt (List.mem_cons_self ..)
      have hRest : ∀ e ∈ es, e.Through id → e.Valid :=
        fun e hIn => hValid e (List.mem_cons_of_mem _ hIn)
      rw [List.map_cons, List.foldlM_cons]
      by_cases hThrough : rt.Through id
      · rw [List.filter_cons_of_pos (by simpa using hThrough),
          List.length_cons] at hFull
        by_cases hRoom : re.DestCount < AODV_MAX_ERRORS
        · rcases @HdrAodvError.listed_put re rt.rt_dst
            (rt.rt_seqno + 1) hRoom with ⟨re', hPut, -⟩
          have hCount := (put_listed hPut).2
          have hStep : failEntry id (n, re) rt.rt_dst =
              .ok (n.store (rt.cut id), re') := by
            rw [failEntry_ok_iff hMem, if_pos hThrough]
            exact ⟨hHere, rfl, hPut⟩
          rw [hStep]
          exact @ih _ re' _ (entries_cut hEntries) hRest (by omega)
        · rw [failEntry_full hMem hThrough (hHere hThrough) hRoom]
          rfl
      · rw [List.filter_cons_of_neg (by simpa using hThrough)]
          at hFull
        have hStep : failEntry id (n, re) rt.rt_dst =
            .ok (n.store (rt.cut id), re) := by
          rw [failEntry_ok_iff hMem, if_neg hThrough]
          exact ⟨hHere, rfl, rfl⟩
        rw [hStep]
        exact ih (entries_cut hEntries) hRest hFull

theorem handle_link_failure_iff :
    (∃ n', n.handle_link_failure id = .ok n' ∧
      ReportsFailure id n n') ↔
      (∀ rt ∈ n.rtable.entries, rt.Through id → rt.Valid) ∧
        (n.rtable.entries.filter (·.Through id)).length ≤
          AODV_MAX_ERRORS := by
  constructor
  · rintro ⟨n', hOk, -⟩
    unfold handle_link_failure at hOk
    rw [bind_ok_iff] at hOk
    rcases hOk with ⟨x, hLoop, -⟩
    rcases @failLoop_valid _ _ _ n.rtable.entries [] _ rfl hLoop
      with ⟨hValid, hCount⟩
    rw [show HdrAodvError.alloc.DestCount = 0 from rfl,
      Nat.zero_add] at hCount
    exact ⟨hValid, hCount ▸ x.2.fits⟩
  · rintro ⟨hValid, hRoom⟩
    rcases @failLoop_spec id n .alloc n.rtable.entries [] rfl
      hValid (by
        change 0 + _ ≤ _
        omega) with
      ⟨x, hLoop, hDone, hOut, hList⟩
    rw [HdrAodvError.listed_alloc, List.nil_append] at hList
    refine ⟨if 0 < x.2.DestCount then x.1.sendError x.2 else x.1,
      ?_, ?_, x.2.listed, ?_, ?_, ?_⟩
    · unfold handle_link_failure AodvRtable.dsts
      rw [hLoop]
      change (if _ then _ else _) = Except.ok _
      split <;> rfl
    · split <;> exact hDone
    · rw [hList, List.map_map]
      exact n.rtable.nodup.sublist
        (List.filter_sublist.map AodvRtEntry.rt_dst)
    · intro d s
      rw [hList, List.mem_map]
      constructor
      · rintro ⟨rt, hMem, hReport⟩
        rw [List.mem_filter, decide_eq_true_iff] at hMem
        rcases Prod.mk.inj hReport with ⟨hDst, hSeqno⟩
        exact ⟨rt, hMem.1, hMem.2, hDst, hSeqno⟩
      · rintro ⟨rt, hMem, hThrough, rfl, rfl⟩
        refine ⟨rt, ?_, rfl⟩
        rw [List.mem_filter, decide_eq_true_iff]
        exact ⟨hMem, hThrough⟩
    · exact reports_sendError (congrArg sentErrors hOut)

------------------------------------------------------------
-- Received errors
------------------------------------------------------------

variable {saddr : nsaddr_t}
variable {dest : nsaddr_t × Nat}
variable {nre : HdrAodvError}

/- What one destination of an error does to an entry. -/
def hit
    (saddr : nsaddr_t)
    (dest : nsaddr_t × Nat)
    (rt : AodvRtEntry) : AodvRtEntry :=
  if rt.Applies saddr dest then rt.lost dest.2 else rt

/- The destination that is reported in turn, if it is. -/
def passed
    (saddr : nsaddr_t)
    (dest : nsaddr_t × Nat)
    (es : List AodvRtEntry) : List (nsaddr_t × Nat) :=
  if ∃ rt ∈ es, rt.Applies saddr dest ∧ rt.rt_pclist ≠ [] then
    [dest]
  else []

theorem hit_map_same
    (hNone : ∀ rt ∈ n.rtable.entries, ¬ rt.Applies saddr dest) :
    n.rtable.entries.map (hit saddr dest) = n.rtable.entries := by
  refine (List.map_congr_left ?_).trans (List.map_id _)
  exact fun rt hMem => if_neg (hNone rt hMem)

theorem passed_nil
    (hNone : ∀ rt ∈ n.rtable.entries, ¬ rt.Applies saddr dest) :
    passed saddr dest n.rtable.entries = [] := by
  apply if_neg
  rintro ⟨rt, hMem, hApplies, -⟩
  exact hNone rt hMem hApplies

theorem errorEntry_miss
    (hNone : ∀ rt ∈ n.rtable.entries, ¬ rt.Applies saddr dest) :
    errorEntry saddr (n, nre) dest = .ok (n, nre) := by
  unfold errorEntry
  dsimp only
  cases hLookup : n.rtable.rt_lookup dest.1 with
  | none => rfl
  | some rt =>
      apply if_neg
      rintro ⟨hThrough, hOld⟩
      exact hNone rt (AodvRtable.rt_lookup_mem hLookup)
        ⟨AodvRtable.rt_lookup_dst hLookup, hThrough, hOld⟩

theorem rt_down_pclist (rt : AodvRtEntry) :
    rt.rt_down.rt_pclist = rt.rt_pclist := by
  unfold AodvRtEntry.rt_down
  split <;> rfl

theorem hit_map
    (hMem : rt ∈ n.rtable.entries)
    (hApplies : rt.Applies saddr dest) :
    n.rtable.entries.map (hit saddr dest) =
      (n.store (rt.lost dest.2)).rtable.entries := by
  rcases List.append_of_mem hMem with ⟨as, bs, hEntries⟩
  have hLost : (rt.lost dest.2).rt_dst = rt.rt_dst :=
    AodvRtEntry.rt_down_dst _
  have hMap := @AodvRtable.entries_map _ _ _ _ (hit saddr dest)
    hEntries fun e _ hNe => if_neg fun hAlso =>
      hNe (hAlso.1.trans hApplies.1.symm)
  rw [hMap, hit, if_pos hApplies]
  exact (AodvRtable.entries_store hEntries hLost).symm

/- The node after a route is lost. -/
def lose
    (saddr : nsaddr_t)
    (rt : AodvRtEntry)
    (seqno : Nat)
    (n : Aodv) : Aodv :=
  let rt := { rt with rt_seqno := seqno }.rt_down
  let n := (n.store rt).emit (.filter saddr)
  if rt.pc_empty = false then n.store rt.pc_clear else n

theorem pc_clear_of_empty
    (hEmpty : rt.pc_empty ≠ false) :
    rt.pc_clear = rt := by
  have hNil : rt.rt_pclist = [] :=
    List.isEmpty_iff.mp (Bool.of_not_eq_false hEmpty)
  rw [AodvRtEntry.pc_clear, ← hNil]

theorem lose_entries
    (hMem : rt ∈ n.rtable.entries)
    (hApplies : rt.Applies saddr dest) :
    (n.lose saddr rt dest.2).rtable.entries =
      n.rtable.entries.map (hit saddr dest) := by
  rw [hit_map hMem hApplies]
  rcases List.append_of_mem hMem with ⟨as, bs, hEntries⟩
  have hDst := AodvRtEntry.rt_down_dst
    { rt with rt_seqno := dest.2 }
  have hDown := AodvRtable.entries_store hEntries hDst
  unfold lose AodvRtEntry.lost
  dsimp only
  split
  · have hClear := @AodvRtable.entries_store _
      (AodvRtEntry.rt_down { rt with rt_seqno := dest.2 }).pc_clear
      as bs _ hDown rfl
    have hLost := @AodvRtable.entries_store _
      (AodvRtEntry.rt_down { rt with rt_seqno := dest.2 }).pc_clear
      as bs _ hEntries hDst
    exact hClear.trans hLost.symm
  · next hEmpty =>
      rw [pc_clear_of_empty hEmpty]
      rfl

theorem lose_errors :
    sentErrors (n.lose saddr rt dest.2).out =
      sentErrors n.out := by
  have hOut : (n.lose saddr rt dest.2).out =
      n.out ++ [.filter saddr] := by
    unfold lose
    dsimp only
    split <;> rfl
  rw [hOut, sentErrors_append]
  exact List.append_nil _

theorem errorEntry_hit_iff
    {x : Aodv × HdrAodvError}
    (hMem : rt ∈ n.rtable.entries)
    (hApplies : rt.Applies saddr dest) :
    errorEntry saddr (n, nre) dest = .ok x ↔
      rt.Valid ∧ x.1 = n.lose saddr rt dest.2 ∧
        if rt.rt_pclist = [] then x.2 = nre
        else nre.put dest.1 dest.2 = .ok x.2 := by
  have hLookup := AodvRtable.rt_lookup_of_mem hMem
  rcases hApplies with ⟨hDst, hThrough, hOld⟩
  rw [hDst] at hLookup
  have hEmpty : rt.rt_pclist = [] ↔
      (AodvRtEntry.rt_down
        { rt with rt_seqno := dest.2 }).pc_empty ≠ false := by
    rw [AodvRtEntry.pc_empty, rt_down_pclist, Ne,
      Bool.not_eq_false, List.isEmpty_iff]
  have hDownDst : (AodvRtEntry.rt_down
      { rt with rt_seqno := dest.2 }).rt_dst = dest.1 :=
    (AodvRtEntry.rt_down_dst _).trans hDst
  have hDownSeqno := AodvRtEntry.rt_down_seqno { rt with rt_seqno := dest.2 }
  unfold errorEntry AodvRtEntry.Valid lose
  dsimp only at hDownSeqno ⊢
  rw [hLookup]
  dsimp only
  rw [if_pos ⟨hThrough, hOld⟩, check_bind_ok_iff,
    check_bind_ok_iff, and_assoc]
  generalize AodvRtEntry.rt_down { rt with rt_seqno := dest.2 } =
    down at *
  rw [hDownDst, hDownSeqno]
  refine and_congr_right fun _ => and_congr_right fun _ => ?_
  by_cases hNil : rt.rt_pclist = []
  · rw [if_pos hNil, if_neg (hEmpty.mp hNil),
      if_neg (hEmpty.mp hNil)]
    constructor
    · rintro ⟨⟩
      exact ⟨rfl, rfl⟩
    · rintro ⟨hLose, hSame⟩
      rw [← hLose, ← hSame]
  · have hSome := not_not.mp (mt hEmpty.mpr hNil)
    rw [if_neg hNil, if_pos hSome, if_pos hSome, bind_ok_iff]
    constructor
    · rintro ⟨re', hPut, ⟨⟩⟩
      exact ⟨rfl, hPut⟩
    · rintro ⟨hLose, hPut⟩
      exact ⟨x.2, hPut, hLose ▸ rfl⟩

theorem passed_hit
    (hMem : rt ∈ n.rtable.entries)
    (hApplies : rt.Applies saddr dest) :
    passed saddr dest n.rtable.entries =
      if rt.rt_pclist = [] then [] else [dest] := by
  unfold passed
  by_cases hNil : rt.rt_pclist = []
  · rw [if_pos hNil]
    apply if_neg
    rintro ⟨e, hE, hAlso, hSome⟩
    have hSame := entry_unique hMem hE
      (hAlso.1.trans hApplies.1.symm)
    rw [hSame] at hSome
    exact hSome hNil
  · rw [if_neg hNil]
    exact if_pos ⟨rt, hMem, hApplies, hNil⟩

theorem errorEntry_spec
    (hRoom : nre.DestCount < AODV_MAX_ERRORS)
    (hValid : ∀ rt ∈ n.rtable.entries,
      rt.Applies saddr dest → rt.Valid) :
    ∃ x, errorEntry saddr (n, nre) dest = .ok x ∧
      x.1.rtable.entries =
        n.rtable.entries.map (hit saddr dest) ∧
      sentErrors x.1.out = sentErrors n.out ∧
      x.2.listed = nre.listed ++
        passed saddr dest n.rtable.entries := by
  by_cases hAny : ∃ rt ∈ n.rtable.entries, rt.Applies saddr dest
  · rcases hAny with ⟨rt, hMem, hApplies⟩
    rcases @HdrAodvError.listed_put nre dest.1 dest.2 hRoom with
      ⟨nre', hPut, hListed⟩
    refine ⟨(n.lose saddr rt dest.2,
      if rt.rt_pclist = [] then nre else nre'), ?_,
      lose_entries hMem hApplies, lose_errors, ?_⟩
    · rw [errorEntry_hit_iff hMem hApplies]
      refine ⟨hValid rt hMem hApplies, rfl, ?_⟩
      split
      · next hNil => rfl
      · next hSome => exact hPut
    · rw [passed_hit hMem hApplies]
      dsimp only
      split
      · exact (List.append_nil _).symm
      · exact hListed
  · push Not at hAny
    refine ⟨(n, nre), errorEntry_miss hAny, ?_, rfl, ?_⟩
    · exact (hit_map_same hAny).symm
    · rw [passed_nil hAny, List.append_nil]

theorem errorEntry_valid
    {x : Aodv × HdrAodvError}
    (hOk : errorEntry saddr (n, nre) dest = .ok x) :
    (∀ rt ∈ n.rtable.entries,
      rt.Applies saddr dest → rt.Valid) ∧
      x.1.rtable.entries =
        n.rtable.entries.map (hit saddr dest) := by
  by_cases hAny : ∃ rt ∈ n.rtable.entries, rt.Applies saddr dest
  · rcases hAny with ⟨rt, hMem, hApplies⟩
    rw [errorEntry_hit_iff hMem hApplies] at hOk
    rcases hOk with ⟨hValid, hLose, -⟩
    refine ⟨?_, ?_⟩
    · intro e hE hAlso
      rw [entry_unique hMem hE (hAlso.1.trans hApplies.1.symm)]
      exact hValid
    · rw [hLose]
      exact lose_entries hMem hApplies
  · push Not at hAny
    rw [errorEntry_miss hAny] at hOk
    cases hOk
    exact ⟨fun rt hMem hApplies =>
      absurd hApplies (hAny rt hMem), (hit_map_same hAny).symm⟩

theorem lostAt_cons
    (dests : List (nsaddr_t × Nat)) :
    rt.lostAt saddr (dest :: dests) =
      if rt.Applies saddr dest then some dest.2
      else rt.lostAt saddr dests := by
  unfold AodvRtEntry.lostAt
  by_cases hApplies : rt.Applies saddr dest
  · rw [if_pos hApplies, List.find?_cons, decide_eq_true hApplies]
    rfl
  · rw [if_neg hApplies, List.find?_cons,
      decide_eq_false hApplies]

/- A route that has been lost is not lost once more. -/
theorem lostAt_lost
    (seqno : Nat)
    (dests : List (nsaddr_t × Nat))
    (hValid : rt.Valid) :
    (rt.lost seqno).lostAt saddr dests = none := by
  unfold AodvRtEntry.lostAt
  rw [Option.map_eq_none_iff, List.find?_eq_none]
  intro dest _ hApplies
  have hHops : (rt.lost seqno).rt_hops = INFINITY2 := by
    unfold AodvRtEntry.lost AodvRtEntry.rt_down
    rw [if_neg]
    · rfl
    · dsimp only
      rw [hValid.1]
      exact RouteFlags.noConfusion
  exact (of_decide_eq_true hApplies).2.1.1 hHops

theorem lostAt_hit
    (dests : List (nsaddr_t × Nat))
    (hValid : rt.Applies saddr dest → rt.Valid) :
    (hit saddr dest rt).lostAt saddr dests =
      if rt.Applies saddr dest then none
      else rt.lostAt saddr dests := by
  unfold hit
  split
  · next hApplies =>
      exact lostAt_lost dest.2 dests (hValid hApplies)
  · rfl

theorem heard_hit
    (dests : List (nsaddr_t × Nat))
    (hValid : rt.Applies saddr dest → rt.Valid) :
    (hit saddr dest rt).heard saddr dests =
      rt.heard saddr (dest :: dests) := by
  unfold AodvRtEntry.heard
  rw [lostAt_hit dests hValid, lostAt_cons]
  unfold hit
  split <;> rfl

theorem hit_dst
    (saddr : nsaddr_t)
    (dest : nsaddr_t × Nat)
    (rt : AodvRtEntry) :
    (hit saddr dest rt).rt_dst = rt.rt_dst := by
  unfold hit
  split
  · exact AodvRtEntry.rt_down_dst _
  · rfl

/- An entry that is lost later on was not hit before. -/
theorem hit_of_lostAt
    {dests : List (nsaddr_t × Nat)}
    {s : Nat}
    (hValid : rt.Applies saddr dest → rt.Valid)
    (hLost : (hit saddr dest rt).lostAt saddr dests = some s) :
    ¬ rt.Applies saddr dest ∧ hit saddr dest rt = rt := by
  rw [lostAt_hit dests hValid] at hLost
  by_cases hApplies : rt.Applies saddr dest
  · rw [if_pos hApplies] at hLost
    cases hLost
  · exact ⟨hApplies, if_neg hApplies⟩

theorem lostAt_of_applies
    {dests : List (nsaddr_t × Nat)}
    (hMem : dest ∈ dests)
    (hApplies : rt.Applies saddr dest) :
    ∃ s, rt.lostAt saddr dests = some s := by
  cases hLost : rt.lostAt saddr dests with
  | some s => exact ⟨s, rfl⟩
  | none =>
      rw [AodvRtEntry.lostAt, Option.map_eq_none_iff,
        List.find?_eq_none] at hLost
      exact absurd (decide_eq_true hApplies) (hLost dest hMem)

/- The assertions hold in the rest of the list, too. -/
theorem valid_hit
    {dests : List (nsaddr_t × Nat)}
    (hValid : ∀ rt ∈ n.rtable.entries, ∀ d ∈ dest :: dests,
      rt.Applies saddr d → rt.Valid) :
    ∀ rt ∈ n.rtable.entries.map (hit saddr dest), ∀ d ∈ dests,
      rt.Applies saddr d → rt.Valid := by
  intro e hE d hD hApplies
  rcases List.mem_map.mp hE with ⟨rt, hMem, rfl⟩
  have hRest := hValid rt hMem
  rcases lostAt_of_applies hD hApplies with ⟨s, hLost⟩
  have hSame := (hit_of_lostAt
    (hRest dest (List.mem_cons_self ..)) hLost).2
  rw [hSame] at hApplies ⊢
  exact hRest d (List.mem_cons_of_mem _ hD) hApplies

/- What the destinations of an error add to the next one. -/
structure Passes
    (saddr : nsaddr_t)
    (dests : List (nsaddr_t × Nat))
    (es : List AodvRtEntry)
    (new : List (nsaddr_t × Nat)) : Prop where
  nodup : (new.map Prod.fst).Nodup
  mem_iff : ∀ d s, (d, s) ∈ new ↔
    ∃ rt ∈ es, rt.rt_dst = d ∧
      rt.lostAt saddr dests = some s ∧ rt.rt_pclist ≠ []

theorem passes_cons
    {dests new : List (nsaddr_t × Nat)}
    (hValid : ∀ rt ∈ n.rtable.entries, ∀ d ∈ dest :: dests,
      rt.Applies saddr d → rt.Valid)
    (hNew : Passes saddr dests
      (n.rtable.entries.map (hit saddr dest)) new) :
    Passes saddr (dest :: dests) n.rtable.entries
      (passed saddr dest n.rtable.entries ++ new) := by
  have hHere : ∀ rt ∈ n.rtable.entries,
      rt.Applies saddr dest → rt.Valid :=
    fun rt hMem => hValid rt hMem dest (List.mem_cons_self ..)
  constructor
  case nodup =>
    unfold passed
    split
    · next hAny =>
        rcases hAny with ⟨rt, hMem, hApplies, -⟩
        refine List.nodup_cons.mpr ⟨?_, hNew.nodup⟩
        intro hAgain
        rcases List.mem_map.mp hAgain with ⟨⟨d, s⟩, hIn, hD⟩
        rcases (hNew.mem_iff d s).mp hIn with
          ⟨e', hE', hDst, hLost, -⟩
        rcases List.mem_map.mp hE' with ⟨e, hE, rfl⟩
        have hNot := (hit_of_lostAt (hHere e hE) hLost).1
        rw [hit_dst] at hDst
        have hSame := entry_unique hMem hE
          (hDst.trans (hD.trans hApplies.1.symm))
        exact hNot (hSame ▸ hApplies)
    · exact hNew.nodup
  case mem_iff =>
    intro d s
    rw [List.mem_append, hNew.mem_iff]
    constructor
    · rintro (hPassed | ⟨e', hE', hDst, hLost, hSome⟩)
      · unfold passed at hPassed
        split at hPassed
        · next hAny =>
            rcases hAny with ⟨rt, hMem, hApplies, hSome⟩
            rw [List.mem_singleton] at hPassed
            subst hPassed
            refine ⟨rt, hMem, hApplies.1, ?_, hSome⟩
            rw [lostAt_cons, if_pos hApplies]
        · cases hPassed
      · rcases List.mem_map.mp hE' with ⟨e, hE, rfl⟩
        rcases hit_of_lostAt (hHere e hE) hLost with
          ⟨hNot, hSame⟩
        rw [hSame] at hDst hLost hSome
        refine ⟨e, hE, hDst, ?_, hSome⟩
        rw [lostAt_cons, if_neg hNot]
        exact hLost
    · rintro ⟨rt, hMem, hDst, hLost, hSome⟩
      rw [lostAt_cons] at hLost
      by_cases hApplies : rt.Applies saddr dest
      · left
        rw [if_pos hApplies] at hLost
        rw [passed, if_pos ⟨rt, hMem, hApplies, hSome⟩,
          List.mem_singleton, ← hDst, hApplies.1,
          ← Option.some.inj hLost]
      · right
        rw [if_neg hApplies] at hLost
        have hSame : hit saddr dest rt = rt := if_neg hApplies
        exact ⟨rt, List.mem_map.mpr ⟨rt, hMem, hSame⟩, hDst,
          hLost, hSome⟩

theorem map_heard_hit
    {dests : List (nsaddr_t × Nat)}
    (hValid : ∀ rt ∈ n.rtable.entries,
      rt.Applies saddr dest → rt.Valid) :
    (n.rtable.entries.map (hit saddr dest)).map
        (·.heard saddr dests) =
      n.rtable.entries.map (·.heard saddr (dest :: dests)) := by
  rw [List.map_map]
  exact List.map_congr_left fun rt hMem =>
    heard_hit dests (hValid rt hMem)

theorem errorLoop_spec
    (dests : List (nsaddr_t × Nat))
    (hRoom : nre.DestCount + dests.length ≤ AODV_MAX_ERRORS)
    (hValid : ∀ rt ∈ n.rtable.entries, ∀ d ∈ dests,
      rt.Applies saddr d → rt.Valid) :
    ∃ x new, dests.foldlM (errorEntry saddr) (n, nre) = .ok x ∧
      x.1.rtable.entries =
        n.rtable.entries.map (·.heard saddr dests) ∧
      sentErrors x.1.out = sentErrors n.out ∧
      x.2.listed = nre.listed ++ new ∧
      Passes saddr dests n.rtable.entries new := by
  induction dests generalizing n nre with
  | nil =>
      refine ⟨(n, nre), [], rfl, ?_, rfl, ?_, ?_⟩
      · exact (List.map_id _).symm
      · exact (List.append_nil _).symm
      · constructor
        case nodup => exact List.nodup_nil
        case mem_iff =>
          intro d s
          constructor
          · intro hIn
            cases hIn
          · rintro ⟨rt, -, -, hLost, -⟩
            cases hLost
  | cons dest dests ih =>
      rw [List.length_cons] at hRoom
      have hHere : ∀ rt ∈ n.rtable.entries,
          rt.Applies saddr dest → rt.Valid := fun rt hMem =>
        hValid rt hMem dest (List.mem_cons_self ..)
      rcases @errorEntry_spec _ _ _ nre (by omega) hHere with
        ⟨⟨n', nre'⟩, hStep, hEntries, hOut, hListed⟩
      dsimp only at hEntries hOut hListed
      have hCount := congrArg List.length hListed
      have hOne : (passed saddr dest n.rtable.entries).length ≤
          1 := by
        unfold passed
        split
        · exact Nat.le_refl 1
        · exact Nat.zero_le 1
      rw [List.length_append, HdrAodvError.listed_length,
        HdrAodvError.listed_length] at hCount
      have hValid' := valid_hit hValid
      rw [← hEntries] at hValid'
      rcases @ih n' nre' (by omega) hValid' with
        ⟨x, new, hLoop, hDone, hSent, hList, hNew⟩
      rw [hEntries] at hDone hNew
      refine ⟨x, _, ?_, ?_, hSent.trans hOut, ?_,
        passes_cons hValid hNew⟩
      · rw [List.foldlM_cons, hStep]
        exact hLoop
      · rw [hDone, map_heard_hit hHere]
      · rw [hList, hListed, List.append_assoc]

theorem errorLoop_valid
    (dests : List (nsaddr_t × Nat))
    {x : Aodv × HdrAodvError}
    (hLoop : dests.foldlM (errorEntry saddr) (n, nre) = .ok x) :
    ∀ rt ∈ n.rtable.entries, ∀ d ∈ dests,
      rt.Applies saddr d → rt.Valid := by
  induction dests generalizing n nre with
  | nil =>
      intro rt _ d hD
      cases hD
  | cons dest dests ih =>
      rw [List.foldlM_cons, bind_ok_iff] at hLoop
      rcases hLoop with ⟨⟨n', nre'⟩, hStep, hLoop⟩
      rcases errorEntry_valid hStep with ⟨hHere, hEntries⟩
      dsimp only at hEntries
      have hRest := ih hLoop
      rw [hEntries] at hRest
      intro rt hMem d hD hApplies
      rcases List.mem_cons.mp hD with rfl | hD
      · exact hHere rt hMem hApplies
      · by_cases hFirst : rt.Applies saddr dest
        · exact hHere rt hMem hFirst
        · have hSame : hit saddr dest rt = rt := if_neg hFirst
          exact hRest rt (List.mem_map.mpr ⟨rt, hMem, hSame⟩) d hD
            hApplies

theorem recvError_iff
    {re : HdrAodvError} :
    (∃ n', n.recvError saddr re = .ok n' ∧
      ReportsError saddr re n n') ↔
      ∀ rt ∈ n.rtable.entries, ∀ dest ∈ re.listed,
        rt.Applies saddr dest → rt.Valid := by
  constructor
  · rintro ⟨n', hOk, -⟩
    unfold recvError at hOk
    rw [bind_ok_iff] at hOk
    rcases hOk with ⟨x, hLoop, -⟩
    exact errorLoop_valid re.listed hLoop
  · intro hValid
    have hRoom : HdrAodvError.alloc.DestCount +
        re.listed.length ≤ AODV_MAX_ERRORS := by
      rw [HdrAodvError.listed_length]
      exact (Nat.zero_add _).symm ▸ re.fits
    rcases errorLoop_spec re.listed hRoom hValid with
      ⟨x, new, hLoop, hDone, hOut, hList, hNew⟩
    rw [HdrAodvError.listed_alloc, List.nil_append] at hList
    refine ⟨if 0 < x.2.DestCount then x.1.sendError x.2 else x.1,
      ?_, ?_, new, hNew.nodup, hNew.mem_iff, ?_⟩
    · unfold recvError
      rw [hLoop]
      change (if _ then _ else _) = Except.ok _
      split <;> rfl
    · split <;> exact hDone
    · rw [← hList]
      exact reports_sendError hOut

/-
  A lost link is reported with exactly the destinations behind
  it if they fit into one error and their routes are up, and an
  error is passed on with exactly the routes that it ends if
  these were up.
-/
theorem route_errors_iff
    (n : Aodv)
    (id saddr : nsaddr_t)
    (re : HdrAodvError) :
    ((∃ n', n.handle_link_failure id = .ok n' ∧
      ReportsFailure id n n') ↔
      (∀ rt ∈ n.rtable.entries, rt.Through id → rt.Valid) ∧
        (n.rtable.entries.filter (·.Through id)).length ≤
          AODV_MAX_ERRORS) ∧
      ((∃ n', n.recvError saddr re = .ok n' ∧
        ReportsError saddr re n n') ↔
        ∀ rt ∈ n.rtable.entries, ∀ dest ∈ re.listed,
          rt.Applies saddr dest → rt.Valid) :=
  ⟨handle_link_failure_iff, recvError_iff⟩

/- One route too many goes through neighbor 7. -/
def crowded : AodvRtable where
  entries := (List.range (AODV_MAX_ERRORS + 1)).map fun k : Nat =>
    (AodvRtEntry.new (Int.ofNat k)).rt_update 2 1 7 10
  nodup := by
    rw [List.map_map]
    exact List.nodup_range.map fun _ _ hSame =>
      Int.ofNat.inj hSame

theorem crowded_through :
    ∀ rt ∈ crowded.entries, rt.Through 7 ∧ rt.Valid := by
  intro rt hMem
  rcases List.mem_map.mp hMem with ⟨k, -, rfl⟩
  refine ⟨⟨?_, rfl⟩, rfl, Nat.mod_self 2⟩
  change 1 ≠ 255
  decide

theorem unreported_of_crowded :
    ∃ n : Aodv, n.rtable = crowded ∧
      (∀ rt ∈ n.rtable.entries, rt.Valid) ∧
      n.handle_link_failure 7 = .error .bounds ∧
      ¬ ∃ n', n.handle_link_failure 7 = .ok n' ∧
        ReportsFailure 7 n n' := by
  have hFull : AODV_MAX_ERRORS < HdrAodvError.alloc.DestCount +
      (crowded.entries.filter (·.Through 7)).length := by
    rw [List.filter_eq_self.mpr fun rt hMem =>
      decide_eq_true (crowded_through rt hMem).1]
    exact Nat.lt_of_lt_of_eq (Nat.lt_succ_self _) (by
      rw [crowded, List.length_map, List.length_range]
      rfl)
  have hFault : ({ new 1 1 (fun _ => none) (fun _ => 0) with
      rtable := crowded } : Aodv).handle_link_failure 7 =
        .error .bounds := by
    unfold handle_link_failure AodvRtable.dsts
    dsimp only
    rw [@failLoop_full _ _ _ crowded.entries [] rfl
      (fun rt hMem _ => (crowded_through rt hMem).2) hFull]
    rfl
  refine ⟨_, rfl, ?_, hFault, ?_⟩
  · exact fun rt hMem => (crowded_through rt hMem).2
  · rw [hFault]
    rintro ⟨n', hOk, -⟩
    cases hOk

end Aodv

end Ns2
