import Mathlib.Data.Finset.Card
import Mathlib.Data.Finset.Dedup
import Ns2.Dsr.RequestTable.Operations
import Ns2.Lib.BoundedMap

/-
  What a request table remembers.

  As long as the insertions without a MAC id meet slots of
  their own, the slots, read from the pointer on, are unused
  ones and then the latest ids in the order they came, with
  one entry each.  With fewer ids than slots nothing is ever
  forgotten.

  Main declarations:
    * `RequestTable.recent`, `RequestTable.Holds`
    * `RequestTable.Holds.call`, `RequestTable.holds_run`
    * `RequestTable.table_remembers`
-/

------------------------------------------------------------
-- The Latest Ids
------------------------------------------------------------

namespace Ns2

namespace Dsr

namespace RequestTable

/- An id that names a host. -/
def Valid (id : Host) : Prop :=
  id.type ≠ .NONE

/- The MAC id that a call looks for. -/
def Call.MAC_id : Call → Host
| insertNet _ _ => invalid_addr
| insert id _ => id
| getEntry id => id

/- What a call makes of the entry of its id. -/
def Call.revise : Call → Entry → Entry
| insertNet _ n => renumber invalid_addr n
| insert id n => renumber id n
| getEntry _ => fun e => e

/- The entry that a call makes for an id without one. -/
def Call.fresh
    (rt_rq_period : Rat) :
    Call → Entry
| insertNet id n =>
    .create rt_rq_period id invalid_addr n
| insert id n => .create rt_rq_period id id n
| getEntry id =>
    .create rt_rq_period id invalid_addr 0

/- The entries of the latest ids, the oldest first. -/
def recent
    (rt_rq_period : Rat)
    (size : Nat)
    (calls : List Call) : List Entry :=
  calls.foldl
    (fun es c =>
      BoundedMap.touch Entry.net_id size c.id c.revise
        (c.fresh rt_rq_period) es)
    []

/- The number of an id after a call, from the one before. -/
def Call.number : Call → Int → Int
| insertNet _ n, _ => n
| insert _ n, _ => n
| getEntry _, n => n

/- The number that the last insertion gave an id, or 0. -/
def lastInsert
    (id : Host)
    (calls : List Call) : Int :=
  calls.foldl
    (fun n c => if id = c.id then c.number n else n)
    0

/- The distinct ids in some calls. -/
def ids (calls : List Call) : Finset Host :=
  (calls.map Call.id).toFinset

/- An insertion without a MAC id meets a slot of its id. -/
def OwnsFirst
    (t : RequestTable) :
    Call → Prop
| .insertNet id _ =>
    ∀ e ∈ t.table[t.find id invalid_addr]?, e.net_id = id
| _ => True

instance
    (t : RequestTable) :
    DecidablePred (OwnsFirst t)
| .insertNet id _ =>
    inferInstanceAs (Decidable
      (∀ e ∈ t.table[t.find id invalid_addr]?, e.net_id = id))
| .insert _ _ => inferInstanceAs (Decidable True)
| .getEntry _ => inferInstanceAs (Decidable True)

@[simp]
theorem revise_net_id
    (c : Call)
    (e : Entry) :
    (c.revise e).net_id = e.net_id := by
  cases c <;> rfl

@[simp]
theorem fresh_net_id
    (rt_rq_period : Rat)
    (c : Call) :
    (c.fresh rt_rq_period).net_id = c.id := by
  cases c <;> rfl

theorem recent_concat
    (rt_rq_period : Rat)
    (size : Nat)
    (calls : List Call)
    (c : Call) :
    recent rt_rq_period size (calls ++ [c]) =
      BoundedMap.touch Entry.net_id size c.id c.revise
        (c.fresh rt_rq_period)
        (recent rt_rq_period size calls) := by
  rw [recent, List.foldl_append]
  rfl

theorem ids_concat
    (calls : List Call)
    (c : Call) :
    ids (calls ++ [c]) = Insert.insert c.id (ids calls) := by
  ext id
  simp only [ids, List.map_append, List.map_cons,
    List.map_nil, List.mem_toFinset, List.mem_append,
    List.mem_singleton, Finset.mem_insert]
  exact or_comm

theorem card_ids_le
    (calls : List Call)
    (c : Call) :
    (ids calls).card ≤ (ids (calls ++ [c])).card := by
  rw [ids_concat]
  exact Finset.card_le_card (Finset.subset_insert _ _)

variable (rt_rq_period : Rat) (size : Nat)

theorem nodup_recent (calls : List Call) :
    ((recent rt_rq_period size calls).map
      Entry.net_id).Nodup := by
  induction calls using List.reverseRecOn with
  | nil => exact List.nodup_nil
  | append_singleton calls c ih =>
      rw [recent_concat]
      exact BoundedMap.nodup_touch (revise_net_id c)
        (fresh_net_id rt_rq_period c) ih

theorem recent_subset
    (calls : List Call)
    {id : Host}
    (hMem : id ∈
      (recent rt_rq_period size calls).map Entry.net_id) :
    id ∈ ids calls := by
  induction calls using List.reverseRecOn with
  | nil => exact absurd hMem List.not_mem_nil
  | append_singleton calls c ih =>
      rw [recent_concat] at hMem
      rw [ids_concat, Finset.mem_insert]
      exact (BoundedMap.mem_touch (revise_net_id c)
        (fresh_net_id rt_rq_period c) hMem).imp_right ih

/- There are no more entries than ids. -/
theorem length_recent (calls : List Call) :
    (recent rt_rq_period size calls).length ≤
      (ids calls).card := by
  have hNodup := nodup_recent rt_rq_period size calls
  rw [← List.length_map (f := Entry.net_id),
    ← List.toFinset_card_of_nodup hNodup]
  refine Finset.card_le_card fun id hId => ?_
  exact recent_subset rt_rq_period size calls
    (List.mem_toFinset.mp hId)

variable {size}

/- With room for all ids, one id's entry changes. -/
theorem lookup_recent_concat
    {calls : List Call}
    {c : Call}
    (hFew : (ids (calls ++ [c])).card < size)
    (id : Host) :
    BoundedMap.lookup Entry.net_id id
        (recent rt_rq_period size (calls ++ [c])) =
      if id = c.id then
        some (((BoundedMap.lookup Entry.net_id c.id
          (recent rt_rq_period size calls)).map
            c.revise).getD (c.fresh rt_rq_period))
      else
        BoundedMap.lookup Entry.net_id id
          (recent rt_rq_period size calls) := by
  have hLength := length_recent rt_rq_period size calls
  have hCard := card_ids_le calls c
  rw [recent_concat]
  exact BoundedMap.lookup_touch (revise_net_id c)
    (fresh_net_id rt_rq_period c) (.inr (by omega)) id

/- Every id that came is there. -/
theorem mem_recent
    {calls : List Call}
    (hFew : (ids calls).card < size)
    {id : Host}
    (hId : id ∈ ids calls) :
    id ∈
      (recent rt_rq_period size calls).map Entry.net_id := by
  induction calls using List.reverseRecOn with
  | nil => exact absurd hId (Finset.notMem_empty id)
  | append_singleton calls c ih =>
      have hStep := lookup_recent_concat rt_rq_period hFew id
      rw [ids_concat, Finset.mem_insert] at hId
      by_contra hNot
      rw [BoundedMap.lookup_eq_none.mpr hNot] at hStep
      by_cases hEq : id = c.id
      · rw [if_pos hEq] at hStep
        cases hStep
      · rw [if_neg hEq] at hStep
        exact BoundedMap.lookup_eq_none.mp hStep.symm
          (ih ((card_ids_le calls c).trans_lt hFew)
            (hId.resolve_left hEq))

/- The number in an entry is the one last inserted. -/
theorem number_recent
    {calls : List Call}
    (hFew : (ids calls).card < size)
    (id : Host) :
    ((BoundedMap.lookup Entry.net_id id
        (recent rt_rq_period size calls)).map
          Entry.req_num).getD 0 =
      lastInsert id calls := by
  induction calls using List.reverseRecOn with
  | nil => rfl
  | append_singleton calls c ih =>
      have ih := ih ((card_ids_le calls c).trans_lt hFew)
      rw [lookup_recent_concat rt_rq_period hFew, lastInsert,
        List.foldl_append, ← lastInsert, List.foldl_cons,
        List.foldl_nil]
      by_cases hEq : id = c.id
      · subst hEq
        rw [if_pos rfl, if_pos rfl]
        cases hOld : BoundedMap.lookup Entry.net_id c.id
            (recent rt_rq_period size calls) with
        | none =>
            rw [hOld] at ih
            cases c with
            | insertNet => rfl
            | insert => rfl
            | getEntry => exact ih
        | some e =>
            rw [hOld] at ih
            cases c with
            | insertNet => rfl
            | insert => rfl
            | getEntry => exact ih
      · rw [if_neg hEq, if_neg hEq]
        exact ih

end RequestTable

end Dsr

end Ns2

------------------------------------------------------------
-- Slots
------------------------------------------------------------

namespace Ns2

namespace Dsr

namespace RequestTable

/- The slots from the pointer on: unused ones, then these. -/
structure Holds
    (t : RequestTable)
    (es : List Entry) : Prop where
  layout : ∃ us, (∀ u ∈ us, Entry.Unused u) ∧
    t.table.rotate t.ptr = us ++ es
  named : ∀ e ∈ es, Valid e.net_id ∧
    (e.MAC_id = invalid_addr ∨ e.MAC_id = e.net_id)
  nodup : (es.map Entry.net_id).Nodup

variable {t : RequestTable} {es : List Entry}

theorem Holds.mem_table
    (hHolds : Holds t es)
    {e : Entry} :
    e ∈ t.table ↔
      e ∈ hHolds.layout.choose ∨ e ∈ es := by
  rw [← List.mem_append, ← hHolds.layout.choose_spec.2,
    List.mem_rotate]

/- A slot is unused or holds one of the entries. -/
theorem Holds.unused_or_mem
    (hHolds : Holds t es)
    {e : Entry}
    (hMem : e ∈ t.table) :
    e.Unused ∨ e ∈ es :=
  (hHolds.mem_table.mp hMem).imp_left
    (hHolds.layout.choose_spec.1 e)

theorem Holds.mem_of_named
    (hHolds : Holds t es)
    {e : Entry}
    (hMem : e ∈ t.table)
    (hValid : Valid e.net_id) :
    e ∈ es :=
  (hHolds.unused_or_mem hMem).resolve_left fun h =>
    hValid h.1

/- An id has as many slots as entries. -/
theorem Holds.countP_eq
    (hHolds : Holds t es)
    {id : Host}
    (hValid : Valid id) :
    t.table.countP (fun e => e.net_id = id) =
      (es.map Entry.net_id).count id := by
  rcases hHolds.layout with ⟨us, hUnused, hLayout⟩
  have hNone : us.countP (fun e => e.net_id = id) = 0 := by
    refine List.countP_eq_zero.mpr fun u hU hEq => hValid ?_
    rw [← of_decide_eq_true hEq]
    exact (hUnused u hU).1
  rw [← (List.rotate_perm t.table t.ptr).countP_eq, hLayout,
    List.countP_append, hNone, Nat.zero_add, List.count,
    List.countP_map]
  refine List.countP_congr fun e _ => ?_
  simp

theorem Holds.countP_le
    (hHolds : Holds t es)
    {id : Host}
    (hValid : Valid id) :
    t.table.countP (fun e => e.net_id = id) ≤ 1 := by
  rw [hHolds.countP_eq hValid]
  exact List.nodup_iff_count_le_one.mp hHolds.nodup id

/- An id's entries are in the slots that name it. -/
theorem Holds.mem_iff
    (hHolds : Holds t es)
    {id : Host}
    (hValid : Valid id) :
    id ∈ es.map Entry.net_id ↔
      ∃ e ∈ t.table, e.net_id = id := by
  constructor
  · intro hMem
    rcases List.mem_map.mp hMem with ⟨e, hE, hId⟩
    exact ⟨e, hHolds.mem_table.mpr (.inr hE), hId⟩
  · rintro ⟨e, hE, rfl⟩
    exact List.mem_map_of_mem (hHolds.mem_of_named hE hValid)

/- The slot that a lookup finds has one of the ids. -/
theorem find_matches
    {net_id MAC_id : Host}
    {e : Entry}
    (hSlot :
      t.table[t.find net_id MAC_id]? = some e) :
    e.net_id = net_id ∨ e.MAC_id = MAC_id := by
  rcases List.getElem?_eq_some_iff.mp hSlot with ⟨hLt, rfl⟩
  exact of_decide_eq_true (List.findIdx_getElem (w := hLt))

/- A lookup that finds nothing has looked at every slot. -/
theorem find_none
    {net_id MAC_id : Host}
    (hNone : ¬t.find net_id MAC_id < t.size)
    {e : Entry}
    (hMem : e ∈ t.table) :
    e.net_id ≠ net_id := by
  intro hEq
  exact hNone (List.findIdx_lt_length_of_exists
    ⟨e, hMem, decide_eq_true (.inl hEq)⟩)

/- The slot found for a call is one of its id. -/
theorem Holds.find_owns
    (hHolds : Holds t es)
    {c : Call}
    (hValid : Valid c.id)
    (hOwns : OwnsFirst t c)
    {e : Entry}
    (hSlot : t.table[t.find c.id c.MAC_id]? = some e) :
    e.net_id = c.id := by
  have hBoth : c.MAC_id = c.id → e.net_id = c.id := by
    intro hMac
    rw [hMac] at hSlot
    refine (find_matches hSlot).elim (fun h => h) fun h => ?_
    rcases hHolds.unused_or_mem (List.mem_of_getElem? hSlot)
      with hUnused | hMem
    · exact absurd (h ▸ hUnused.2) hValid
    · rcases (hHolds.named e hMem).2 with hInvalid | hSame
      · exact absurd (congrArg Host.type (h.symm.trans hInvalid))
          hValid
      · exact hSame.symm.trans h
  cases c with
  | insertNet id n => exact hOwns e hSlot
  | insert id n => exact hBoth rfl
  | getEntry id => exact hBoth rfl

/- A call changes the slot it found, or takes a new one. -/
theorem call_eq
    (rt_rq_period : Rat)
    (t : RequestTable)
    (c : Call) :
    t.call rt_rq_period c =
      if t.find c.id c.MAC_id < t.size then
        t.write (t.find c.id c.MAC_id) c.revise
      else t.add (c.fresh rt_rq_period) := by
  cases c with
  | insertNet id n => rfl
  | insert id n => rfl
  | getEntry id =>
      have hSame : ∀ i, t.write i (fun e => e) = t := by
        intro i
        have hTable := List.modify_id i t.table
        rcases t with ⟨table, ptr, hPtr⟩
        exact RequestTable.mk.injEq .. ▸ ⟨hTable, rfl⟩
      show (t.getEntry rt_rq_period id).2 =
        if t.find id id < t.size then
          t.write (t.find id id) (fun e => e)
        else t.add (.create rt_rq_period id invalid_addr 0)
      rw [getEntry, apply_ite Prod.snd, hSame]

end RequestTable

end Dsr

end Ns2

------------------------------------------------------------
-- One Call
------------------------------------------------------------

namespace Ns2

namespace Dsr

namespace RequestTable

variable {t : RequestTable} {es : List Entry}

/- A revised entry still has the shared MAC id or its own. -/
theorem revise_named
    {c : Call}
    {e : Entry}
    (hId : e.net_id = c.id)
    (hMac : e.MAC_id = invalid_addr ∨ e.MAC_id = e.net_id) :
    (c.revise e).MAC_id = invalid_addr ∨
      (c.revise e).MAC_id = e.net_id := by
  cases c with
  | insertNet id n =>
      show (if e.MAC_id = invalid_addr then invalid_addr
        else e.MAC_id) = invalid_addr ∨ _
      split
      · exact .inl rfl
      · exact hMac.imp_right fun h => (if_neg ‹_›).trans h
  | insert id n =>
      refine .inr ?_
      show (if e.MAC_id = invalid_addr then id
        else e.MAC_id) = e.net_id
      split
      · exact hId.symm
      · exact hMac.resolve_left ‹_›
  | getEntry id => exact hMac

theorem fresh_named
    (rt_rq_period : Rat)
    (c : Call) :
    (c.fresh rt_rq_period).MAC_id = invalid_addr ∨
      (c.fresh rt_rq_period).MAC_id = c.id := by
  cases c with
  | insertNet => exact .inl rfl
  | insert => exact .inr rfl
  | getEntry => exact .inl rfl

/- Revising the slot of an id revises its entry. -/
theorem Holds.write
    (hHolds : Holds t es)
    {c : Call}
    (hValid : Valid c.id)
    {i : Nat}
    {e : Entry}
    (hSlot : t.table[i]? = some e)
    (hId : e.net_id = c.id) :
    Holds (t.write i c.revise)
      (BoundedMap.update Entry.net_id c.id c.revise es) := by
  have hTable : (t.write i c.revise).table =
      BoundedMap.update Entry.net_id c.id c.revise
        t.table := by
    refine BoundedMap.modify_eq_update fun j e' hJ => ?_
    constructor
    · intro hKey
      exact BoundedMap.slot_unique (hHolds.countP_le hValid)
        hJ hSlot hKey hId
    · rintro rfl
      rw [hSlot] at hJ
      exact Option.some.inj hJ ▸ hId
  constructor
  case layout =>
    rcases hHolds.layout with ⟨us, hUnused, hLayout⟩
    refine ⟨us, hUnused, ?_⟩
    have hSame : BoundedMap.update Entry.net_id c.id c.revise
        us = us := by
      refine (List.map_congr_left fun u hU => ?_).trans
        (List.map_id us)
      have hOther : u.net_id ≠ c.id := fun hEq =>
        hValid (hEq ▸ (hUnused u hU).1)
      exact if_neg hOther
    rw [hTable, RequestTable.write, BoundedMap.rotate_update, hLayout,
      BoundedMap.update, List.map_append, ← BoundedMap.update,
      ← BoundedMap.update, hSame]
  case named =>
    intro x hX
    rcases List.mem_map.mp hX with ⟨y, hY, rfl⟩
    have hNamed := hHolds.named y hY
    by_cases hKey : y.net_id = c.id
    · rw [if_pos hKey, revise_net_id]
      exact ⟨hNamed.1, revise_named hKey hNamed.2⟩
    · rw [if_neg hKey]
      exact hNamed
  case nodup =>
    rw [BoundedMap.map_update (revise_net_id c)]
    exact hHolds.nodup

/- Taking the next slot drops the oldest if all are used. -/
theorem Holds.add
    (hHolds : Holds t es)
    {entry : Entry}
    (hValid : Valid entry.net_id)
    (hMac : entry.MAC_id = invalid_addr ∨
      entry.MAC_id = entry.net_id)
    (hNew : entry.net_id ∉ es.map Entry.net_id) :
    Holds (t.add entry)
      ((if es.length < t.size then es else es.tail) ++
        [entry]) := by
  have hSub : ∀ x ∈ (if es.length < t.size then es
      else es.tail), x ∈ es := by
    intro x hX
    split at hX
    · exact hX
    · exact List.mem_of_mem_tail hX
  constructor
  case layout =>
    rcases hHolds.layout with ⟨us, hUnused, hLayout⟩
    have hLength := congrArg List.length hLayout
    rw [List.length_rotate, List.length_append] at hLength
    have hRotate := BoundedMap.rotate_set t.ptr_lt entry
    rw [hLayout] at hRotate
    cases us with
    | nil =>
        have hFull : ¬es.length < t.size := by
          rw [size, hLength, List.length_nil, Nat.zero_add]
          exact Nat.lt_irrefl _
        rw [if_neg hFull]
        exact ⟨[], hUnused, hRotate⟩
    | cons u us =>
        have hRoom : es.length < t.size := by
          rw [size, hLength, List.length_cons]
          omega
        rw [if_pos hRoom]
        refine ⟨us,
          fun x hX => hUnused x (List.mem_cons_of_mem u hX), ?_⟩
        rw [← List.append_assoc]
        exact hRotate
  case named =>
    intro x hX
    rcases List.mem_append.mp hX with hOld | hAdded
    · exact hHolds.named x (hSub x hOld)
    · rw [List.mem_singleton.mp hAdded]
      exact ⟨hValid, hMac⟩
  case nodup =>
    have hTouch : ((BoundedMap.touch Entry.net_id t.size
        entry.net_id (fun e => e) entry es).map
          Entry.net_id).Nodup :=
      BoundedMap.nodup_touch (fun _ => rfl) rfl hHolds.nodup
    rw [BoundedMap.touch, if_neg hNew] at hTouch
    exact hTouch

theorem size_call
    (rt_rq_period : Rat)
    (t : RequestTable)
    (c : Call) :
    (t.call rt_rq_period c).size = t.size := by
  rw [call_eq]
  split
  · exact List.length_modify _ _ _
  · exact List.length_set

/- A call touches the entry of its id. -/
theorem Holds.call
    (rt_rq_period : Rat)
    (hHolds : Holds t es)
    {c : Call}
    (hValid : Valid c.id)
    (hOwns : OwnsFirst t c) :
    Holds (t.call rt_rq_period c)
      (BoundedMap.touch Entry.net_id t.size c.id c.revise
        (c.fresh rt_rq_period) es) := by
  rw [call_eq, BoundedMap.touch]
  by_cases hFound : t.find c.id c.MAC_id < t.size
  · have hSlot := List.getElem?_eq_getElem hFound
    have hId := hHolds.find_owns hValid hOwns hSlot
    have hMem : c.id ∈ es.map Entry.net_id :=
      (hHolds.mem_iff hValid).mpr
        ⟨_, List.getElem_mem hFound, hId⟩
    rw [if_pos hFound, if_pos hMem]
    exact hHolds.write hValid hSlot hId
  · have hNew : c.id ∉ es.map Entry.net_id := by
      intro hMem
      rcases (hHolds.mem_iff hValid).mp hMem with
        ⟨e, hE, hId⟩
      exact find_none hFound hE hId
    rw [if_neg hFound, if_neg hNew]
    have hFresh := fresh_net_id rt_rq_period c
    exact hHolds.add (hFresh ▸ hValid)
      (hFresh ▸ fresh_named rt_rq_period c) (hFresh ▸ hNew)

/- A slot of another id stays unless it is the oldest. -/
theorem Holds.call_keeps
    (rt_rq_period : Rat)
    (hHolds : Holds t es)
    {c : Call}
    (hValid : Valid c.id)
    (hOwns : OwnsFirst t c)
    {i : Nat}
    {e : Entry}
    (hSlot : t.table[i]? = some e)
    (hNamed : Valid e.net_id)
    (hOther : e.net_id ≠ c.id) :
    (t.call rt_rq_period c).table[i]? = some e ∨
      es.length = t.size ∧ es.head? = some e := by
  rw [call_eq]
  by_cases hFound : t.find c.id c.MAC_id < t.size
  · refine .inl ?_
    have hId := hHolds.find_owns hValid hOwns
      (List.getElem?_eq_getElem hFound)
    have hNe : t.find c.id c.MAC_id ≠ i := by
      rintro rfl
      rw [List.getElem?_eq_getElem hFound] at hSlot
      exact hOther (Option.some.inj hSlot ▸ hId)
    rw [if_pos hFound]
    exact (List.getElem?_modify_ne _ _ hNe).trans hSlot
  · rw [if_neg hFound]
    by_cases hPtr : t.ptr = i
    · subst hPtr
      refine .inr ?_
      rcases hHolds.layout with ⟨us, hUnused, hLayout⟩
      have hHead := BoundedMap.head?_rotate t.ptr_lt
      have hLength := congrArg List.length hLayout
      rw [List.length_rotate, List.length_append] at hLength
      rw [hLayout, hSlot] at hHead
      cases us with
      | nil => exact ⟨by rw [size, hLength]; simp, hHead⟩
      | cons u us =>
          have hEq : u = e := Option.some.inj hHead
          exact absurd
            (hEq ▸ (hUnused u List.mem_cons_self).1) hNamed
    · refine .inl ?_
      rw [RequestTable.add, List.getElem?_set_ne hPtr]
      exact hSlot

end RequestTable

end Dsr

end Ns2

------------------------------------------------------------
-- Runs
------------------------------------------------------------

namespace Ns2

namespace Dsr

namespace RequestTable

variable {t : RequestTable} {es : List Entry}

theorem holds_new
    {slots : List Entry}
    (hSize : 0 < slots.length)
    (hUnused : ∀ u ∈ slots, Entry.Unused u) :
    Holds (new slots hSize) [] where
  layout := ⟨slots, hUnused,
    (List.rotate_zero slots).trans (List.append_nil slots).symm⟩
  named := fun _ hE => absurd hE List.not_mem_nil
  nodup := List.nodup_nil

theorem run_concat
    (rt_rq_period : Rat)
    (t : RequestTable)
    (calls : List Call)
    (c : Call) :
    t.run rt_rq_period (calls ++ [c]) =
      (t.run rt_rq_period calls).call rt_rq_period c := by
  rw [run, List.foldl_append]
  rfl

theorem size_run
    (rt_rq_period : Rat)
    (t : RequestTable)
    (calls : List Call) :
    (t.run rt_rq_period calls).size = t.size := by
  induction calls using List.reverseRecOn with
  | nil => rfl
  | append_singleton calls c ih =>
      rw [run_concat, size_call, ih]

/- At each step of the run the slots met are the id's own. -/
def OwnsAll
    (rt_rq_period : Rat)
    (t : RequestTable) :
    List Call → Prop
| [] => True
| c :: calls =>
    OwnsFirst t c ∧
      OwnsAll rt_rq_period (t.call rt_rq_period c) calls

theorem ownsAll_concat
    (rt_rq_period : Rat)
    (t : RequestTable)
    (calls : List Call)
    (c : Call) :
    OwnsAll rt_rq_period t (calls ++ [c]) ↔
      OwnsAll rt_rq_period t calls ∧
        OwnsFirst (t.run rt_rq_period calls) c := by
  induction calls generalizing t with
  | nil => exact and_comm
  | cons x calls ih =>
      show _ ∧ OwnsAll _ _ (calls ++ [c]) ↔ (_ ∧ _) ∧ _
      rw [ih, and_assoc]
      rfl

theorem holds_run
    (rt_rq_period : Rat)
    {calls : List Call}
    (hHolds : Holds t [])
    (hValid : ∀ c ∈ calls, Valid c.id)
    (hOwns : OwnsAll rt_rq_period t calls) :
    Holds (t.run rt_rq_period calls)
      (recent rt_rq_period t.size calls) := by
  induction calls using List.reverseRecOn with
  | nil => exact hHolds
  | append_singleton calls c ih =>
      rcases (ownsAll_concat _ t calls c).mp hOwns with
        ⟨hEarlier, hFirst⟩
      have hBefore := ih
        (fun x hX => hValid x (List.mem_append_left _ hX))
        hEarlier
      have hStep := hBefore.call rt_rq_period
        (hValid c (List.mem_append_right _
          (List.mem_singleton_self c)))
        hFirst
      rw [size_run] at hStep
      rw [run_concat, recent_concat]
      exact hStep

/- The table answers from the entry of the id. -/
theorem Holds.get_eq
    (hHolds : Holds t es)
    {id : Host}
    (hValid : Valid id) :
    t.get id =
      ((BoundedMap.lookup Entry.net_id id es).map
        Entry.req_num).getD 0 := by
  unfold get
  by_cases hFound : t.find id id < t.table.length
  · have hSlot := List.getElem?_eq_getElem hFound
    have hId : t.table[t.find id id].net_id = id :=
      hHolds.find_owns (c := .getEntry id) hValid trivial hSlot
    have hMem : id ∈ es.map Entry.net_id :=
      (hHolds.mem_iff hValid).mpr
        ⟨_, List.getElem_mem hFound, hId⟩
    have hSome : BoundedMap.lookup Entry.net_id id es ≠
        none := fun h => BoundedMap.lookup_eq_none.mp h hMem
    rcases Option.ne_none_iff_exists'.mp hSome with ⟨e, he⟩
    have hE : e ∈ t.table :=
      hHolds.mem_table.mpr (.inr (List.mem_of_find?_eq_some he))
    have hKey : e.net_id = id :=
      of_decide_eq_true (List.find?_some
        (p := fun e : Entry => e.net_id = id) he)
    rcases List.getElem?_of_mem hE with ⟨j, hJ⟩
    have hEq := BoundedMap.slot_unique
      (hHolds.countP_le hValid) hJ hSlot hKey hId
    subst hEq
    rw [dif_pos hFound, he]
    rw [hSlot] at hJ
    exact congrArg Entry.req_num (Option.some.inj hJ)
  · have hNew : id ∉ es.map Entry.net_id := by
      intro hMem
      rcases (hHolds.mem_iff hValid).mp hMem with ⟨e, hE, hId⟩
      exact find_none hFound hE hId
    rw [dif_neg hFound, BoundedMap.lookup_eq_none.mpr hNew]
    rfl

/- What a table knows after some calls. -/
structure Remembers
    (rt_rq_period : Rat)
    (calls : List Call)
    (t : RequestTable) : Prop where
  layout : ∃ us, (∀ u ∈ us, Entry.Unused u) ∧
    t.table.rotate t.ptr =
      us ++ recent rt_rq_period t.size calls
  get : (ids calls).card < t.size → ∀ id, Valid id →
    t.get id = lastInsert id calls
  one : (ids calls).card < t.size → ∀ id ∈ ids calls,
    t.table.countP (fun e => e.net_id = id) = 1
  others : (ids calls).card < t.size →
    ∀ c, Valid c.id → OwnsFirst t c →
      ∀ (i : Nat) e, t.table[i]? = some e →
        Valid e.net_id → e.net_id ≠ c.id →
          (t.call rt_rq_period c).table[i]? = some e
  oldest : ∀ c, Valid c.id → OwnsFirst t c →
    ∀ (i : Nat) e, t.table[i]? = some e → Valid e.net_id →
      e.net_id ≠ c.id →
        (t.call rt_rq_period c).table[i]? = some e ∨
          (recent rt_rq_period t.size calls).length =
              t.size ∧
            (recent rt_rq_period t.size calls).head? = some e

/- Where no insertion without a MAC id meets a slot of some
other id, the table is a map that only forgets the oldest. -/
theorem table_remembers
    (rt_rq_period : Rat)
    (slots : List Entry)
    (hSize : 0 < slots.length)
    (hUnused : ∀ u ∈ slots, Entry.Unused u)
    (calls : List Call)
    (hValid : ∀ c ∈ calls, Valid c.id)
    (hOwns : OwnsAll rt_rq_period (new slots hSize) calls) :
    Remembers rt_rq_period calls
      ((new slots hSize).run rt_rq_period calls) := by
  have hHolds := holds_run rt_rq_period
    (holds_new hSize hUnused) hValid hOwns
  rw [← size_run rt_rq_period _ calls] at hHolds
  generalize (new slots hSize).run rt_rq_period calls = t
    at hHolds
  have hLength := length_recent rt_rq_period t.size calls
  constructor
  case layout => exact hHolds.layout
  case get =>
    intro hFew id hId
    rw [hHolds.get_eq hId]
    exact number_recent rt_rq_period hFew id
  case one =>
    intro hFew id hId
    have hNamed : Valid id := by
      rcases List.mem_map.mp (List.mem_toFinset.mp hId) with
        ⟨c, hC, rfl⟩
      exact hValid c hC
    rw [hHolds.countP_eq hNamed]
    exact List.count_eq_one_of_mem hHolds.nodup
      (mem_recent rt_rq_period hFew hId)
  case others =>
    intro hFew c hC hFirst i e hSlot hNamed hOther
    refine (hHolds.call_keeps rt_rq_period hC hFirst hSlot
      hNamed hOther).resolve_right fun hFull => ?_
    omega
  case oldest =>
    intro c hC hFirst i e hSlot hNamed hOther
    exact hHolds.call_keeps rt_rq_period hC hFirst hSlot
      hNamed hOther

/- A node in a network of few. -/
def node (addr : Nat) : Host :=
  ⟨addr, .IP⟩

/- A slot that no call has written yet. -/
def blank : Entry :=
  ⟨⟨0, .NONE⟩, ⟨0, .NONE⟩, 0, 0, 0, 0⟩

theorem table_remembers_three :
    ∃ hSize : 0 < [blank, blank].length,
      Remembers (1 / 2)
        [.insertNet (node 1) 5, .insert (node 2) 7,
          .getEntry (node 3)]
        ((new [blank, blank] hSize).run (1 / 2)
          [.insertNet (node 1) 5, .insert (node 2) 7,
            .getEntry (node 3)]) :=
  ⟨by decide, table_remembers (1 / 2) [blank, blank]
    (by decide) (by decide) _ (by unfold Valid; decide)
    ⟨by decide, trivial, trivial, trivial⟩⟩

/- A number for one node that another node's entry took. -/
theorem insertNet_strays :
    ∃ hSize : 0 < [blank, blank, blank].length,
      (ids [.getEntry (node 1), .insertNet (node 2) 5]).card
          < 3 ∧
        lastInsert (node 2)
          [.getEntry (node 1), .insertNet (node 2) 5] = 5 ∧
        ((new [blank, blank, blank] hSize).run (1 / 2)
          [.getEntry (node 1), .insertNet (node 2) 5]).get
            (node 2) = 0 ∧
        lastInsert (node 1)
          [.getEntry (node 1), .insertNet (node 2) 5] = 0 ∧
        ((new [blank, blank, blank] hSize).run (1 / 2)
          [.getEntry (node 1), .insertNet (node 2) 5]).get
            (node 1) = 5 :=
  ⟨by decide, by decide, by decide, by decide, by decide,
    by decide⟩

end RequestTable

end Dsr

end Ns2
