import Mathlib.Data.List.Nodup
import Mathlib.Data.Rat.Floor

/-
  The routing table of an AODV node, and its packets.

  A table has one entry for a destination, so that the
  destination names the entry as a pointer does.  Sequence
  numbers are natural numbers of any size, and times are
  rational numbers.  The list of neighbors of an entry is never
  filled and is left out.

  Main declarations:
    * `AodvRtEntry`, `AodvRtEntry.rt_down`
    * `AodvRtable`, `AodvRtable.rt_lookup`, `AodvRtable.store`
    * `HdrAodvError`, `HdrAodvError.put`
    * `AodvPacket`
-/

------------------------------------------------------------
-- Entries
------------------------------------------------------------

namespace Ns2

abbrev nsaddr_t := Int

def IP_BROADCAST : nsaddr_t := -1

def INFINITY2 : Nat := 0xff

abbrev MAX_HISTORY : Nat := 3

def NODE_TRAVERSAL_TIME : ℚ := 3 / 100

inductive RouteFlags where
| RTF_DOWN
| RTF_UP
| RTF_IN_REPAIR
deriving DecidableEq, Repr

structure AodvRtEntry where
  rt_dst : nsaddr_t
  rt_seqno : Nat
  rt_hops : Nat
  rt_last_hop_count : Nat
  rt_nexthop : nsaddr_t
  rt_pclist : List nsaddr_t
  rt_expire : ℚ
  rt_flags : RouteFlags
  rt_req_timeout : ℚ
  rt_req_cnt : Nat
  rt_disc_latency : Vector ℚ MAX_HISTORY
  hist_indx : Fin MAX_HISTORY
  rt_req_last_ttl : Nat
deriving DecidableEq

namespace AodvRtEntry

def new (id : nsaddr_t) : AodvRtEntry where
  rt_dst := id
  rt_seqno := 0
  rt_hops := INFINITY2
  rt_last_hop_count := INFINITY2
  rt_nexthop := 0
  rt_pclist := []
  rt_expire := 0
  rt_flags := .RTF_DOWN
  rt_req_timeout := 0
  rt_req_cnt := 0
  rt_disc_latency := Vector.replicate MAX_HISTORY 0
  hist_indx := ⟨0, by decide⟩
  rt_req_last_ttl := 0

def pc_insert
    (id : nsaddr_t)
    (rt : AodvRtEntry) : AodvRtEntry :=
  if id ∈ rt.rt_pclist then rt
  else { rt with rt_pclist := id :: rt.rt_pclist }

/- Delete one precursor. -/
def pc_delete
    (id : nsaddr_t)
    (rt : AodvRtEntry) : AodvRtEntry :=
  { rt with rt_pclist := rt.rt_pclist.erase id }

/- Delete all the precursors. -/
def pc_clear (rt : AodvRtEntry) : AodvRtEntry :=
  { rt with rt_pclist := [] }

def pc_empty (rt : AodvRtEntry) : Bool :=
  rt.rt_pclist.isEmpty

def rt_update
    (seqnum metric : Nat)
    (nexthop : nsaddr_t)
    (expire_time : ℚ)
    (rt : AodvRtEntry) : AodvRtEntry :=
  { rt with
    rt_seqno := seqnum
    rt_hops := metric
    rt_flags := .RTF_UP
    rt_nexthop := nexthop
    rt_expire := expire_time }

/- A route is not brought down more than once. -/
def rt_down (rt : AodvRtEntry) : AodvRtEntry :=
  if rt.rt_flags = .RTF_DOWN then rt
  else
    { rt with
      rt_last_hop_count := rt.rt_hops
      rt_hops := INFINITY2
      rt_flags := .RTF_DOWN
      rt_nexthop := 0
      rt_expire := 0 }

/- The mean of the positive latencies. -/
def PerHopTime (rt : AodvRtEntry) : ℚ :=
  let known :=
    rt.rt_disc_latency.toList.filter fun latency => 0 < latency
  if 0 < known.length then known.sum / known.length
  else NODE_TRAVERSAL_TIME

@[simp] theorem pc_insert_dst
    (id : nsaddr_t)
    (rt : AodvRtEntry) :
    (rt.pc_insert id).rt_dst = rt.rt_dst := by
  unfold pc_insert
  split <;> rfl

theorem rt_down_seqno (rt : AodvRtEntry) :
    rt.rt_down.rt_seqno = rt.rt_seqno := by
  unfold rt_down
  split <;> rfl

@[simp] theorem rt_down_dst (rt : AodvRtEntry) :
    rt.rt_down.rt_dst = rt.rt_dst := by
  unfold rt_down
  split <;> rfl

end AodvRtEntry

end Ns2

------------------------------------------------------------
-- Tables
------------------------------------------------------------

namespace Ns2

structure AodvRtable where
  entries : List AodvRtEntry
  nodup : (entries.map AodvRtEntry.rt_dst).Nodup
deriving DecidableEq

namespace AodvRtable

variable {t : AodvRtable}
variable {rt : AodvRtEntry}
variable {id d : nsaddr_t}

def empty : AodvRtable :=
  ⟨[], List.nodup_nil⟩

/- The entries in their order, each by its destination. -/
def dsts (t : AodvRtable) : List nsaddr_t :=
  t.entries.map AodvRtEntry.rt_dst

def rt_lookup
    (t : AodvRtable)
    (id : nsaddr_t) : Option AodvRtEntry :=
  t.entries.find? fun rt => decide (rt.rt_dst = id)

theorem rt_lookup_eq_none :
    t.rt_lookup id = none ↔ id ∉ t.dsts := by
  simp only [rt_lookup, dsts, List.find?_eq_none,
    decide_eq_true_eq, List.mem_map, not_exists, not_and]

/- The new entry is asserted to be the first for its node. -/
def rt_add
    (t : AodvRtable)
    (id : nsaddr_t) : AodvRtable :=
  if hNew : t.rt_lookup id = none then
    ⟨.new id :: t.entries,
      List.nodup_cons.mpr ⟨rt_lookup_eq_none.mp hNew, t.nodup⟩⟩
  else t

/- Write an entry back to where it is stored. -/
def replace
    (rt e : AodvRtEntry) : AodvRtEntry :=
  if e.rt_dst = rt.rt_dst then rt else e

theorem replace_dst
    (rt e : AodvRtEntry) :
    (replace rt e).rt_dst = e.rt_dst := by
  unfold replace
  split
  · next hSame => exact hSame.symm
  · rfl

theorem map_replace_dst
    (rt : AodvRtEntry)
    (es : List AodvRtEntry) :
    (es.map (replace rt)).map AodvRtEntry.rt_dst =
      es.map AodvRtEntry.rt_dst := by
  rw [List.map_map]
  exact List.map_congr_left fun e _ => replace_dst rt e

def store
    (t : AodvRtable)
    (rt : AodvRtEntry) : AodvRtable :=
  ⟨t.entries.map (replace rt),
    (map_replace_dst rt t.entries).symm ▸ t.nodup⟩

@[simp] theorem dsts_store :
    (t.store rt).dsts = t.dsts :=
  map_replace_dst rt t.entries

theorem rt_lookup_dst
    (hLookup : t.rt_lookup id = some rt) :
    rt.rt_dst = id := by
  have hHere := List.find?_some hLookup
  exact of_decide_eq_true hHere

theorem rt_lookup_mem
    (hLookup : t.rt_lookup id = some rt) :
    rt ∈ t.entries :=
  List.mem_of_find?_eq_some hLookup

/- An entry of the table is found by its destination. -/
theorem rt_lookup_of_mem
    (hMem : rt ∈ t.entries) :
    t.rt_lookup rt.rt_dst = some rt := by
  rcases t with ⟨es, hNodup⟩
  unfold rt_lookup
  dsimp only at hMem ⊢
  induction es with
  | nil => cases hMem
  | cons e es ih =>
      rw [List.map_cons, List.nodup_cons] at hNodup
      rcases List.mem_cons.mp hMem with rfl | hMem
      · exact List.find?_cons_of_pos (decide_eq_true rfl)
      · have hNe : e.rt_dst ≠ rt.rt_dst := by
          intro hSame
          apply hNodup.1
          rw [hSame]
          exact List.mem_map_of_mem hMem
        rw [List.find?_cons_of_neg (by simpa using hNe)]
        exact ih hNodup.2 hMem

theorem mem_iff_rt_lookup :
    rt ∈ t.entries ↔ t.rt_lookup rt.rt_dst = some rt :=
  ⟨rt_lookup_of_mem, rt_lookup_mem⟩

theorem rt_lookup_store :
    (t.store rt).rt_lookup d =
      (t.rt_lookup d).map (replace rt) := by
  unfold rt_lookup store
  dsimp only
  rw [List.find?_map]
  congr 2
  funext e
  exact congrArg (fun x => decide (x = d)) (replace_dst rt e)

theorem rt_lookup_store_of_ne
    (hNe : d ≠ rt.rt_dst) :
    (t.store rt).rt_lookup d = t.rt_lookup d := by
  rw [rt_lookup_store]
  cases hLookup : t.rt_lookup d with
  | none => rfl
  | some e =>
      have hDst := rt_lookup_dst hLookup
      rw [Option.map_some, replace,
        if_neg (fun hSame => hNe (hDst.symm.trans hSame))]

/- A change of one entry. -/
theorem entries_map
    {as bs : List AodvRtEntry}
    {old : AodvRtEntry}
    {f : AodvRtEntry → AodvRtEntry}
    (hEntries : t.entries = as ++ old :: bs)
    (hOthers : ∀ e ∈ t.entries, e.rt_dst ≠ old.rt_dst →
      f e = e) :
    t.entries.map f = as ++ f old :: bs := by
  have hNodup := t.nodup
  rw [hEntries, List.map_append, List.map_cons,
    List.nodup_middle, List.nodup_cons, List.mem_append,
    not_or] at hNodup
  have hSame : ∀ es : List AodvRtEntry, es ⊆ t.entries →
      old.rt_dst ∉ es.map AodvRtEntry.rt_dst →
        es.map f = es := by
    intro es hSub hNotIn
    refine (List.map_congr_left ?_).trans (List.map_id es)
    intro e hMem
    apply hOthers e (hSub hMem)
    intro hDst
    apply hNotIn
    rw [← hDst]
    exact List.mem_map_of_mem hMem
  have hAs : as ⊆ t.entries := by
    rw [hEntries]
    exact List.subset_append_left as _
  have hBs : bs ⊆ t.entries := by
    rw [hEntries]
    exact fun e hMem =>
      List.mem_append_right as (List.mem_cons_of_mem _ hMem)
  calc t.entries.map f
    _ = as.map f ++ f old :: bs.map f := by
        rw [hEntries, List.map_append, List.map_cons]
    _ = as ++ f old :: bs := by
        rw [hSame as hAs hNodup.1.1, hSame bs hBs hNodup.1.2]

/- Only the entry that was stored before is written. -/
theorem entries_store
    {as bs : List AodvRtEntry}
    {old : AodvRtEntry}
    (hEntries : t.entries = as ++ old :: bs)
    (hSame : rt.rt_dst = old.rt_dst) :
    (t.store rt).entries = as ++ rt :: bs := by
  have hMap := @entries_map t as bs old (replace rt) hEntries
    fun e _ hNe => if_neg (hSame ▸ hNe)
  rw [replace, if_pos hSame.symm] at hMap
  exact hMap

theorem rt_lookup_store_self
    {old : AodvRtEntry}
    (hLookup : t.rt_lookup rt.rt_dst = some old) :
    (t.store rt).rt_lookup rt.rt_dst = some rt := by
  rw [rt_lookup_store, hLookup, Option.map_some, replace,
    if_pos (rt_lookup_dst hLookup)]

theorem mem_store
    {old e : AodvRtEntry}
    (hMem : old ∈ t.entries)
    (hDst : rt.rt_dst = old.rt_dst) :
    e ∈ (t.store rt).entries ↔
      e = rt ∨ e ∈ t.entries ∧ e.rt_dst ≠ rt.rt_dst := by
  rw [mem_iff_rt_lookup]
  by_cases hSame : e.rt_dst = rt.rt_dst
  · have hLookup : t.rt_lookup rt.rt_dst = some old := by
      rw [hDst]
      exact rt_lookup_of_mem hMem
    rw [hSame, rt_lookup_store_self hLookup]
    constructor
    · exact fun hSome => Or.inl (Option.some.inj hSome).symm
    · rintro (rfl | ⟨-, hNe⟩)
      · rfl
      · exact absurd rfl hNe
  · rw [rt_lookup_store_of_ne hSame, ← mem_iff_rt_lookup]
    constructor
    · exact fun hIn => Or.inr ⟨hIn, hSame⟩
    · rintro (rfl | ⟨hIn, -⟩)
      · exact absurd rfl hSame
      · exact hIn

theorem rt_lookup_add
    (hNew : t.rt_lookup id = none) :
    (t.rt_add id).rt_lookup d =
      if d = id then some (.new id) else t.rt_lookup d := by
  unfold rt_add
  rw [dif_pos hNew]
  unfold rt_lookup
  dsimp only
  by_cases hSame : d = id
  · rw [if_pos hSame, List.find?_cons_of_pos]
    exact decide_eq_true hSame.symm
  · rw [if_neg hSame, List.find?_cons_of_neg]
    intro hHere
    exact hSame (of_decide_eq_true hHere).symm

end AodvRtable

end Ns2

------------------------------------------------------------
-- Packets
------------------------------------------------------------

namespace Ns2

def AODV_MAX_ERRORS : Nat := 100

structure HdrAodvRequest where
  rq_hop_count : Nat
  rq_bcast_id : Nat
  rq_dst : nsaddr_t
  rq_dst_seqno : Nat
  rq_src : nsaddr_t
  rq_src_seqno : Nat
  rq_timestamp : ℚ
deriving DecidableEq

structure HdrAodvReply where
  rp_hop_count : Nat
  rp_dst : nsaddr_t
  rp_dst_seqno : Nat
  rp_src : nsaddr_t
  rp_lifetime : ℚ
  rp_timestamp : ℚ
deriving DecidableEq

/-
  The arrays have room for `AODV_MAX_ERRORS` destinations, and
  the count never goes further, as the entry behind the last
  one cannot be written.
-/
structure HdrAodvError where
  DestCount : Nat
  unreachable_dst : Vector nsaddr_t AODV_MAX_ERRORS
  unreachable_dst_seqno : Vector Nat AODV_MAX_ERRORS
  fits : DestCount ≤ AODV_MAX_ERRORS
deriving DecidableEq

/- Why a call does not come to its end. -/
inductive Fault where
/- An assertion on `rt_flags` or `rt_hops`. -/
| flags
/- An assertion on the parity of a sequence number. -/
| parity
/- An assertion that an entry or a packet is there. -/
| lookup
/- The queue of packets fails. -/
| rqueue
/- An array is written behind its end. -/
| bounds
deriving DecidableEq, Repr

namespace HdrAodvError

variable {re re' : HdrAodvError}
variable {dst : nsaddr_t}
variable {seqno : Nat}

def alloc : HdrAodvError where
  DestCount := 0
  unreachable_dst := Vector.replicate AODV_MAX_ERRORS 0
  unreachable_dst_seqno := Vector.replicate AODV_MAX_ERRORS 0
  fits := Nat.zero_le _

/- Write a destination to the entry `DestCount`. -/
def put
    (dst : nsaddr_t)
    (seqno : Nat)
    (re : HdrAodvError) : Except Fault HdrAodvError :=
  if hRoom : re.DestCount < AODV_MAX_ERRORS then
    .ok
      { DestCount := re.DestCount + 1
        unreachable_dst :=
          re.unreachable_dst.set re.DestCount dst hRoom
        unreachable_dst_seqno :=
          re.unreachable_dst_seqno.set re.DestCount seqno hRoom
        fits := hRoom }
  else .error .bounds

/- The destinations that are listed, with their numbers. -/
def listed
    (re : HdrAodvError) : List (nsaddr_t × Nat) :=
  (re.unreachable_dst.toList.zip
    re.unreachable_dst_seqno.toList).take re.DestCount

@[simp] theorem listed_alloc : alloc.listed = [] :=
  List.take_zero

theorem listed_length :
    re.listed.length = re.DestCount := by
  have hFits := re.fits
  simp [listed, hFits]

theorem listed_getElem
    {i : Nat}
    (hListed : i < re.listed.length)
    (hRoom : i < AODV_MAX_ERRORS) :
    re.listed[i] =
      (re.unreachable_dst[i], re.unreachable_dst_seqno[i]) := by
  simp only [listed, List.getElem_take, List.getElem_zip,
    Vector.getElem_toList]

theorem listed_put
    (hRoom : re.DestCount < AODV_MAX_ERRORS) :
    ∃ re', re.put dst seqno = .ok re' ∧
      re'.listed = re.listed ++ [(dst, seqno)] := by
  refine ⟨_, dif_pos hRoom, ?_⟩
  apply List.ext_getElem
  · rw [listed_length, List.length_append, listed_length]
    rfl
  · intro i hNew hOld
    have hBound : i < re.DestCount + 1 := by
      rw [listed_length] at hNew
      exact hNew
    rw [listed_getElem hNew (by omega)]
    by_cases hLast : re.DestCount = i
    · subst hLast
      simp [listed_length]
    · have hOld' : i < re.listed.length := by
        rw [listed_length]
        omega
      rw [List.getElem_append_left hOld',
        listed_getElem hOld' (by omega)]
      simp [hLast]

theorem put_full
    (hFull : ¬ re.DestCount < AODV_MAX_ERRORS) :
    re.put dst seqno = .error .bounds :=
  dif_neg hFull

end HdrAodvError

inductive AodvHeader where
| RREQ (rq : HdrAodvRequest)
| RREP (rp : HdrAodvReply)
| RERR (re : HdrAodvError)
| HELLO (rh : HdrAodvReply)
deriving DecidableEq

/- The packets that `DATA_PACKET` accepts, the others. -/
inductive AodvPacketType where
| DATA
| OTHER
| PT_AODV (ah : AodvHeader)
deriving DecidableEq

/- The packets that a node makes itself have no `uid_`. -/
structure AodvPacket where
  uid_ : Nat
  ptype : AodvPacketType
  saddr : nsaddr_t
  daddr : nsaddr_t
  ttl_ : Int
  num_forwards : Int
  up : Bool
  next_hop_ : nsaddr_t
deriving DecidableEq

def AodvPacket.isAodv (p : AodvPacket) : Bool :=
  match p.ptype with
  | .PT_AODV _ => true
  | _ => false

end Ns2
