import Mathlib.Algebra.Order.Ring.Int
import Ns2.Queue.Fq.Operations

/-
  The hand-off between the upstream queues, the fair queue
  and its downstream.

  A flow without a head-of-line packet has an empty upstream
  queue that is not blocked, and while the fair queue is not
  blocked no flow has one.  So `FQ::deque` finds all packets in
  its own slots, and when it resumes an upstream queue, either
  that queue is empty or the fair queue is blocked: `FQ::recv`
  then does not call `FQ::deque` again.

  Main declarations:
    * `FlowState.Sound`
    * `FQ.deque_spec`
    * `FQ.Orderly`, `FQ.Orderly.act`
    * `FQ.hand_off_safe`
-/

------------------------------------------------------------
-- One Flow
------------------------------------------------------------

namespace Ns2

variable {τ α : Type}

/- The packets of a flow that wait to be sent. -/
def FlowState.waiting
    (f : FlowState τ α) : List (FlowPacket α) :=
  f.hol.toList ++ (f.q.map UpstreamQueue.packets).getD []

/-
  Flow `i` with the packets `out` sent and all packets
  `arrived`.
-/
structure FlowState.Sound
    (i : Nat)
    (f : FlowState τ α)
    (out arrived : List (FlowPacket α)) : Prop where
  free : f.hol = none → ∀ q, f.q = some q →
    q.packets = [] ∧ q.blocked = false
  held : ∀ p, f.hol = some p → p.flowid = i ∧
    f.handler = some i ∧ ∃ q, f.q = some q ∧ q.blocked = true
  own : ∀ q, f.q = some q → ∀ p ∈ q.packets, p.flowid = i
  order : arrived = out ++ f.waiting

namespace FQ

variable {s : FQ τ α}
variable {i j : Nat} {f g : FlowState τ α}
variable {q : UpstreamQueue α}

@[simp]
theorem setFlow_fs : (s.setFlow i f).fs i = f := by
  simp [setFlow]

theorem setFlow_fs_of_ne
    (hNe : j ≠ i) :
    (s.setFlow i f).fs j = s.fs j := by
  simp [setFlow, hNe]

@[simp]
theorem setFlow_setFlow :
    (s.setFlow i f).setFlow i g = s.setFlow i g := by
  unfold setFlow
  simp only [Function.update_idem]

@[simp]
theorem setQueue_eq :
    s.setQueue i q = s.setFlow i { s.fs i with q := some q } :=
  rfl

@[simp]
theorem setFlow_blocked :
    (s.setFlow i f).blocked = s.blocked :=
  rfl

end FQ

end Ns2

------------------------------------------------------------
-- The Loops of the Fair Queue
------------------------------------------------------------

namespace Ns2

namespace FQ

variable {τ α : Type}
variable {s : FQ τ α} {times : FinishTimes τ}
variable {out arrived : Nat → List (FlowPacket α)}

/- Flows without a head-of-line packet have none to take. -/
theorem updateFlow_eq
    {i n : Nat}
    (hSound : (s.fs i).Sound i (out i) (arrived i)) :
    ∃ m, updateFlow (n, s) i = (m, s) := by
  unfold updateFlow
  simp only
  cases hq : (s.fs i).q with
  | none => exact ⟨n, rfl⟩
  | some q =>
      cases hHol : (s.fs i).hol with
      | some p => exact ⟨n + 1, rfl⟩
      | none =>
          simp only
          rw [(hSound.free hHol q hq).1]
          exact ⟨n, rfl⟩

theorem update_eq
    (hSound : ∀ i, (s.fs i).Sound i (out i) (arrived i)) :
    ∃ n, s.update = (n, s) := by
  have hLoop : ∀ (l : List Nat) n,
      ∃ m, l.foldl updateFlow (n, s) = (m, s) := by
    intro l
    induction l with
    | nil => exact fun n => ⟨n, rfl⟩
    | cons i l ih =>
        intro n
        rcases updateFlow_eq (n := n) (hSound i) with ⟨m, hm⟩
        rw [List.foldl_cons, hm]
        exact ih m
  exact hLoop s.flows 0

/- The flow chosen has a head-of-line packet. -/
theorem hol_of_target
    {nactive i : Nat}
    {best : τ}
    (hTarget : s.target times nactive = some (i, best)) :
    (s.fs i).hol ≠ none := by
  have hLoop : ∀ (l : List Nat) (acc : Option (Nat × τ)),
      (∀ b ∈ acc, (s.fs b.1).hol ≠ none) →
      ∀ b ∈ l.foldl (better times s nactive) acc,
        (s.fs b.1).hol ≠ none := by
    intro l
    induction l with
    | nil => exact fun acc hAcc => hAcc
    | cons j l ih =>
        intro acc hAcc
        rw [List.foldl_cons]
        apply ih
        intro b hb
        unfold better at hb
        by_cases hHol : (s.fs j).hol = none
        · rw [if_pos hHol] at hb
          exact hAcc b hb
        · rw [if_neg hHol] at hb
          cases acc with
          | none =>
              cases hb
              exact hHol
          | some first =>
              simp only at hb
              split at hb
              · cases hb
                exact hHol
              · cases hb
                exact hAcc b rfl
  exact hLoop s.flows none (fun b hb => by cases hb) _ hTarget

/- Some flow is chosen, if one has a head-of-line packet. -/
theorem hol_of_no_target
    {nactive : Nat}
    (hTarget : s.target times nactive = none) :
    ∀ i ∈ s.flows, (s.fs i).hol = none := by
  have hLoop : ∀ (l : List Nat) (acc : Option (Nat × τ)),
      l.foldl (better times s nactive) acc = none →
      acc = none ∧ ∀ i ∈ l, (s.fs i).hol = none := by
    intro l
    induction l with
    | nil =>
        intro acc hAcc
        exact ⟨hAcc, fun i hi => by cases hi⟩
    | cons j l ih =>
        intro acc hAcc
        rw [List.foldl_cons] at hAcc
        rcases ih _ hAcc with ⟨hNext, hRest⟩
        unfold better at hNext
        by_cases hHol : (s.fs j).hol = none
        · rw [if_pos hHol] at hNext
          refine ⟨hNext, ?_⟩
          intro i hi
          rcases List.mem_cons.mp hi with rfl | hi
          · exact hHol
          · exact hRest i hi
        · rw [if_neg hHol] at hNext
          cases acc with
          | none => cases hNext
          | some a =>
              simp only at hNext
              split at hNext <;> cases hNext
  exact (hLoop s.flows none hTarget).2

end FQ

end Ns2

------------------------------------------------------------
-- Sending
------------------------------------------------------------

namespace Ns2

namespace FQ

variable {τ α : Type}
variable {s : FQ τ α} {times : FinishTimes τ}
variable {now : τ} {fuel i : Nat}
variable {p : FlowPacket α}
variable {out arrived : Nat → List (FlowPacket α)}

/- A head-of-line packet in a slot that is free. -/
theorem recvWith_eq
    {call : FQ τ α → Option (Option (FlowPacket α) × FQ τ α)}
    {handler : Nat}
    (hFlow : p.flowid < MAXFLOW)
    (hFree : (s.fs p.flowid).hol = none)
    (hBlocked : s.blocked = true) :
    ∃ finishTime,
      recvWith times call now s p handler = some
        (s.setFlow p.flowid
          { q := (s.fs p.flowid).q
            hol := some p
            finishTime := finishTime
            delta := times.delta p.size
            handler := some handler }) := by
  unfold recvWith
  simp only
  rw [if_neg (by
    rintro (hBig | hHol)
    · omega
    · exact hHol hFree), setFlow_blocked, if_pos hBlocked]
  exact ⟨_, rfl⟩

/-
  `FQ::deque` finds nothing, or takes the head-of-line packet
  of one flow, whose queue has then given its next one.
-/
theorem deque_spec
    (hSound : ∀ i, (s.fs i).Sound i (out i) (arrived i))
    (hInstalled : ∀ i, (s.fs i).q.isSome = true →
      i ∈ s.flows ∧ i < MAXFLOW)
    (hCalm : s.blocked = true ∨
      ∀ i q, (s.fs i).q = some q → q.packets = []) :
    (deque times (fuel + 1) now s = some (none, s) ∧
      ∀ i, (s.fs i).hol = none) ∨
    ∃ p f,
      deque times (fuel + 1) now s =
        some (some p, s.setFlow p.flowid f) ∧
      (s.fs p.flowid).q.isSome = true ∧
      f.Sound p.flowid (out p.flowid ++ [p])
        (arrived p.flowid) := by
  rcases update_eq hSound with ⟨n, hUpdate⟩
  unfold deque
  simp only [hUpdate]
  cases hTarget : s.target times n with
  | none =>
      refine Or.inl ⟨rfl, ?_⟩
      intro i
      by_contra hHol
      rcases Option.ne_none_iff_exists'.mp hHol with ⟨p, hp⟩
      rcases ((hSound i).held p hp).2.2 with ⟨q, hq, _⟩
      have hIn := (hInstalled i (by rw [hq]; rfl)).1
      exact hHol (hol_of_no_target hTarget i hIn)
  | some b =>
      rcases b with ⟨i, best⟩
      rcases Option.ne_none_iff_exists'.mp
          (hol_of_target hTarget) with ⟨p, hp⟩
      rcases (hSound i).held p hp with
        ⟨rfl, hHandler, q, hq, hBlocked⟩
      have hOrder := (hSound p.flowid).order
      have hOwn := (hSound p.flowid).own q hq
      have hIn : (s.fs p.flowid).q.isSome = true := by
        rw [hq]
        rfl
      have hWaiting : arrived p.flowid =
          out p.flowid ++ (p :: q.packets) := by
        rw [hOrder]
        unfold FlowState.waiting
        rw [hp, hq]
        rfl
      right
      simp only [hHandler, Option.bind_some, resumeUpstream,
        setFlow_fs, hq, hp, setQueue_eq, setFlow_setFlow]
      cases hPackets : q.packets with
      | nil =>
          -- The upstream queue is empty and is unblocked.
          refine ⟨p, _, rfl, hIn, ?_⟩
          constructor
          case free =>
            rintro _ q' ⟨⟩
            exact ⟨rfl, rfl⟩
          case held =>
            rintro p' ⟨⟩
          case own =>
            rintro q' ⟨⟩ p' hp'
            cases hp'
          case order =>
            rw [hWaiting, hPackets]
            simp [FlowState.waiting]
      | cons p' packets =>
          have hBusy : s.blocked = true := by
            rcases hCalm with hBusy | hEmpty
            · exact hBusy
            · rw [hEmpty _ q hq] at hPackets
              cases hPackets
          rw [hPackets] at hOwn
          have hFlow := hOwn p' List.mem_cons_self
          -- The next packet takes the slot just left.
          rcases @recvWith_eq τ α (s.setFlow p.flowid
              { q := some { q with packets := packets }
                hol := none
                finishTime := best
                delta := (s.fs p.flowid).delta
                handler := some p.flowid })
              times now p' (deque times fuel now) p.flowid
              (hFlow ▸ (hInstalled _ hIn).2)
              (by rw [hFlow, setFlow_fs])
              hBusy with ⟨finishTime, hRecv⟩
          rw [hFlow, setFlow_fs, setFlow_setFlow] at hRecv
          simp only
          rw [hRecv, Option.map_some]
          refine ⟨p, _, rfl, hIn, ?_⟩
          constructor
          case free =>
            rintro ⟨⟩
          case held =>
            rintro p'' ⟨⟩
            exact ⟨hFlow, rfl, _, rfl, hBlocked⟩
          case own =>
            rintro q' ⟨⟩ p'' hp''
            exact hOwn p'' (List.mem_cons_of_mem p' hp'')
          case order =>
            rw [hWaiting, hPackets]
            simp [FlowState.waiting]

end FQ

end Ns2

------------------------------------------------------------
-- Runs
------------------------------------------------------------

namespace Ns2

namespace FQ

open PartialRun (Throughout)

variable {τ α : Type}
variable {s : FQ τ α} {times : FinishTimes τ}
variable {fuel : Nat}

/- The packets of a flow in a list. -/
def ofFlow
    (i : Nat)
    (packets : List (FlowPacket α)) : List (FlowPacket α) :=
  packets.filter fun p => p.flowid = i

/- The packets that the upstream queues have stored. -/
def stored (events : List (Event τ α)) : List (FlowPacket α) :=
  events.filterMap fun
    | .arrive _ p true => some p
    | _ => none

/- What holds between two events. -/
structure Orderly
    (events : List (Event τ α))
    (s : FQ τ α) : Prop where
  sound : ∀ i, (s.fs i).Sound i (ofFlow i s.sent)
    (ofFlow i (stored events))
  installed : ∀ i, (s.fs i).q.isSome = true →
    i ∈ s.flows ∧ i < MAXFLOW
  idle : s.blocked = false →
    s.outstanding = 0 ∧ ∀ i, (s.fs i).hol = none
  single : s.outstanding ≤ 1
  peak : s.peak ≤ 1

theorem ofFlow_concat
    {i : Nat}
    {packets : List (FlowPacket α)}
    {p : FlowPacket α} :
    ofFlow i (packets ++ [p]) =
      ofFlow i packets ++ if p.flowid = i then [p] else [] := by
  unfold ofFlow
  rw [List.filter_append]
  by_cases hFlow : p.flowid = i
  · simp [hFlow]
  · simp [hFlow]

/-
  The packet that the fair queue takes goes to the downstream
  that has none.
-/
theorem Orderly.send
    {events : List (Event τ α)}
    {f : FlowState τ α}
    {p : FlowPacket α}
    (hSound : ∀ i, i ≠ p.flowid →
      (s.fs i).Sound i (ofFlow i s.sent)
        (ofFlow i (stored events)))
    (hInstalled : ∀ i, (s.fs i).q.isSome = true →
      i ∈ s.flows ∧ i < MAXFLOW)
    (hIn : (s.fs p.flowid).q.isSome = true)
    (hNext : f.Sound p.flowid (ofFlow p.flowid s.sent ++ [p])
      (ofFlow p.flowid (stored events)))
    (hBlocked : s.blocked = true)
    (hNone : s.outstanding = 0)
    (hPeak : s.peak ≤ 1) :
    Orderly events ((s.setFlow p.flowid f).send p) := by
  constructor
  case sound =>
    intro i
    change ((s.setFlow p.flowid f).fs i).Sound i
      (ofFlow i (s.sent ++ [p])) _
    rw [ofFlow_concat]
    by_cases hFlow : i = p.flowid
    · rw [hFlow, setFlow_fs, if_pos rfl]
      exact hNext
    · rw [setFlow_fs_of_ne hFlow, if_neg (Ne.symm hFlow),
        List.append_nil]
      exact hSound i hFlow
  case installed =>
    intro i hi
    change ((s.setFlow p.flowid f).fs i).q.isSome = true at hi
    by_cases hFlow : i = p.flowid
    · rw [hFlow]
      exact hInstalled _ hIn
    · rw [setFlow_fs_of_ne hFlow] at hi
      exact hInstalled i hi
  case idle =>
    intro hIdle
    change s.blocked = false at hIdle
    rw [hBlocked] at hIdle
    cases hIdle
  case single =>
    change s.outstanding + 1 ≤ 1
    omega
  case peak =>
    change max s.peak (s.outstanding + 1) ≤ 1
    omega

/- The downstream is done with its packet. -/
theorem Orderly.resume
    {events : List (Event τ α)}
    {now : τ}
    (hOrderly : Orderly events s)
    (hBusy : 0 < s.outstanding) :
    ∃ s', s.act times (fuel + 1) (.resume now) = some s' ∧
      Orderly (events ++ [.resume now]) s' := by
  have hBlocked : s.blocked = true := by
    by_contra hNot
    have hIdle := hOrderly.idle (Bool.eq_false_iff.mpr hNot)
    omega
  have hStored : stored (events ++ [.resume now]) =
      stored events := by
    simp [stored]
  have hSingle := hOrderly.single
  have hNone : s.outstanding - 1 = 0 := by omega
  unfold act FQ.resume
  simp only [hNone]
  rcases @deque_spec τ α { s with outstanding := 0 } times now
      fuel (fun i => ofFlow i s.sent)
      (fun i => ofFlow i (stored events)) hOrderly.sound
      hOrderly.installed (Or.inl hBlocked) with
    ⟨hDeque, hFree⟩ | ⟨p, f, hDeque, hIn, hNext⟩
  · rw [hDeque, Option.map_some]
    refine ⟨_, rfl, ?_⟩
    constructor
    case sound =>
      rw [hStored]
      exact hOrderly.sound
    case installed => exact hOrderly.installed
    case idle =>
      intro _
      exact ⟨rfl, hFree⟩
    case single => exact Nat.zero_le 1
    case peak => exact hOrderly.peak
  · rw [hDeque, Option.map_some]
    refine ⟨_, rfl, ?_⟩
    apply Orderly.send
    case hSound =>
      intro i _
      rw [hStored]
      exact hOrderly.sound i
    case hInstalled => exact hOrderly.installed
    case hIn => exact hIn
    case hNext =>
      rw [hStored]
      exact hNext
    case hBlocked => exact hBlocked
    case hNone => rfl
    case hPeak => exact hOrderly.peak

/- One flow is replaced by a sound one. -/
theorem Orderly.replace
    {events events' : List (Event τ α)}
    {i : Nat}
    {f : FlowState τ α}
    (hOrderly : Orderly events s)
    (hIn : (s.fs i).q.isSome = true)
    (hOthers : ∀ j, j ≠ i →
      ofFlow j (stored events') = ofFlow j (stored events))
    (hNext : f.Sound i (ofFlow i s.sent)
      (ofFlow i (stored events')))
    (hIdle : s.blocked = false → f.hol = none) :
    Orderly events' (s.setFlow i f) := by
  constructor
  case sound =>
    intro j
    change ((s.setFlow i f).fs j).Sound j (ofFlow j s.sent) _
    by_cases hFlow : j = i
    · rw [hFlow, setFlow_fs]
      exact hNext
    · rw [setFlow_fs_of_ne hFlow, hOthers j hFlow]
      exact hOrderly.sound j
  case installed =>
    intro j hj
    by_cases hFlow : j = i
    · rw [hFlow]
      exact hOrderly.installed i hIn
    · rw [setFlow_fs_of_ne hFlow] at hj
      exact hOrderly.installed j hj
  case idle =>
    intro hNot
    refine ⟨(hOrderly.idle hNot).1, ?_⟩
    intro j
    by_cases hFlow : j = i
    · rw [hFlow, setFlow_fs]
      exact hIdle hNot
    · rw [setFlow_fs_of_ne hFlow]
      exact (hOrderly.idle hNot).2 j
  case single => exact hOrderly.single
  case peak => exact hOrderly.peak

theorem stored_arrive
    {events : List (Event τ α)}
    {now : τ}
    {p : FlowPacket α}
    {b : Bool} :
    stored (events ++ [.arrive now p b]) =
      stored events ++ if b then [p] else [] := by
  unfold stored
  rw [List.filterMap_append]
  cases b <;> rfl

theorem ofFlow_arrive
    {events : List (Event τ α)}
    {now : τ}
    {p : FlowPacket α}
    {b : Bool}
    {i : Nat}
    (hNe : i ≠ p.flowid) :
    ofFlow i (stored (events ++ [.arrive now p b])) =
      ofFlow i (stored events) := by
  rw [stored_arrive]
  cases b with
  | false => simp
  | true => simp [ofFlow_concat, Ne.symm hNe]

/- A packet joins a queue that waits for the fair queue. -/
theorem Orderly.arrive_waiting
    {events : List (Event τ α)}
    {now : τ}
    {p : FlowPacket α}
    {b : Bool}
    {q : UpstreamQueue α}
    (hOrderly : Orderly events s)
    (hq : (s.fs p.flowid).q = some q)
    (hBlocked : q.blocked = true) :
    Orderly (events ++ [.arrive now p b])
      (s.setQueue p.flowid
        { q with
          packets :=
            if b then q.packets ++ [p] else q.packets }) := by
  have hSound := hOrderly.sound p.flowid
  have hHol : (s.fs p.flowid).hol ≠ none := by
    intro hNone
    rw [(hSound.free hNone q hq).2] at hBlocked
    cases hBlocked
  apply hOrderly.replace (by rw [hq]; rfl)
    (fun j hNe => ofFlow_arrive hNe)
  · constructor
    case free =>
      intro hNone
      exact absurd hNone hHol
    case held =>
      intro p' hp'
      rcases hSound.held p' hp' with ⟨hFlow, hHandler, _⟩
      exact ⟨hFlow, hHandler, _, rfl, hBlocked⟩
    case own =>
      rintro q' ⟨⟩ p' hp'
      have hOwn := hSound.own q hq
      cases b with
      | false => exact hOwn p' hp'
      | true =>
          rcases List.mem_append.mp hp' with hOld | hNew
          · exact hOwn p' hOld
          · rw [List.mem_singleton.mp hNew]
    case order =>
      have hOrder := hSound.order
      unfold FlowState.waiting at hOrder ⊢
      rw [hq] at hOrder
      rw [stored_arrive]
      cases b with
      | false => simpa using hOrder
      | true =>
          rw [if_pos rfl, ofFlow_concat, if_pos rfl, hOrder]
          simp
  · intro hIdle
    exact absurd ((hOrderly.idle hIdle).2 _) hHol

/- A packet goes through a queue that does not wait. -/
theorem Orderly.arrive_free
    {events : List (Event τ α)}
    {now : τ}
    {p : FlowPacket α}
    {q : UpstreamQueue α}
    (hOrderly : Orderly events s)
    (hq : (s.fs p.flowid).q = some q)
    (hHol : (s.fs p.flowid).hol = none) :
    ∃ s', recv times (fuel + 1) now
        (s.setQueue p.flowid ⟨[], true⟩) p p.flowid = some s' ∧
      Orderly (events ++ [.arrive now p true]) s' := by
  have hIn : (s.fs p.flowid).q.isSome = true := by
    rw [hq]
    rfl
  have hSmall := (hOrderly.installed _ hIn).2
  have hOrder := (hOrderly.sound p.flowid).order
  have hEmpty := ((hOrderly.sound p.flowid).free hHol q hq).1
  unfold FlowState.waiting at hOrder
  rw [hHol, hq, Option.map_some, hEmpty] at hOrder
  unfold recv recvWith
  simp only [setQueue_eq, setFlow_fs, hHol, ne_eq,
    not_true_eq_false, or_false, setFlow_setFlow,
    setFlow_blocked]
  rw [if_neg (Nat.not_le.mpr hSmall)]
  generalize (if times.less (s.fs p.flowid).finishTime now then
    now else (s.fs p.flowid).finishTime) = finishTime
  have hNext : FlowState.Sound p.flowid
      { q := some ⟨[], true⟩
        hol := some p
        finishTime := finishTime
        delta := times.delta p.size
        handler := some p.flowid }
      (ofFlow p.flowid s.sent)
      (ofFlow p.flowid
        (stored (events ++ [.arrive now p true]))) := by
    constructor
    case free =>
      rintro ⟨⟩
    case held =>
      rintro p' ⟨⟩
      exact ⟨rfl, rfl, _, rfl, rfl⟩
    case own =>
      rintro q' ⟨⟩ p' hp'
      cases hp'
    case order =>
      rw [stored_arrive, if_pos rfl, ofFlow_concat, if_pos rfl,
        hOrder]
      simp [FlowState.waiting]
  by_cases hBlocked : s.blocked = true
  · rw [if_pos hBlocked]
    refine ⟨_, rfl, hOrderly.replace hIn
      (fun j hNe => ofFlow_arrive hNe) hNext ?_⟩
    intro hIdle
    rw [hBlocked] at hIdle
    cases hIdle
  · rw [if_neg hBlocked]
    have hIdle := hOrderly.idle (Bool.eq_false_iff.mpr hBlocked)
    generalize hf : FlowState.mk (some ⟨[], true⟩) (some p)
      finishTime (times.delta p.size) (some p.flowid) = f
      at hNext ⊢
    have hSound : ∀ i, ((s.setFlow p.flowid f).fs i).Sound i
        (ofFlow i s.sent)
        (ofFlow i
          (stored (events ++ [.arrive now p true]))) := by
      intro i
      by_cases hFlow : i = p.flowid
      · rw [hFlow, setFlow_fs]
        exact hNext
      · rw [setFlow_fs_of_ne hFlow, ofFlow_arrive hFlow]
        exact hOrderly.sound i
    have hInstalled : ∀ i,
        ((s.setFlow p.flowid f).fs i).q.isSome = true →
        i ∈ s.flows ∧ i < MAXFLOW := by
      intro i hi
      by_cases hFlow : i = p.flowid
      · rw [hFlow]
        exact hOrderly.installed _ hIn
      · rw [setFlow_fs_of_ne hFlow] at hi
        exact hOrderly.installed i hi
    -- All upstream queues are empty, also the one of `p`.
    have hCalm : ∀ i q', ((s.setFlow p.flowid f).fs i).q =
        some q' → q'.packets = [] := by
      intro i q' hq'
      by_cases hFlow : i = p.flowid
      · rw [hFlow, setFlow_fs, ← hf] at hq'
        cases hq'
        rfl
      · rw [setFlow_fs_of_ne hFlow] at hq'
        exact ((hOrderly.sound i).free (hIdle.2 i) q' hq').1
    rcases @deque_spec τ α (s.setFlow p.flowid f) times now fuel
        _ _ hSound hInstalled (Or.inr hCalm) with
      ⟨_, hFree⟩ | ⟨p', f', hDeque, hIn', hNext'⟩
    · have hNone := hFree p.flowid
      rw [setFlow_fs, ← hf] at hNone
      cases hNone
    · rw [hDeque, Option.map_some]
      refine ⟨_, rfl, ?_⟩
      apply @Orderly.send τ α
        { s.setFlow p.flowid f with blocked := true }
      case hSound =>
        intro i _
        exact hSound i
      case hInstalled => exact hInstalled
      case hIn => exact hIn'
      case hNext => exact hNext'
      case hBlocked => rfl
      case hNone => exact hIdle.1
      case hPeak => exact hOrderly.peak

theorem Orderly.arrive
    {events : List (Event τ α)}
    {now : τ}
    {p : FlowPacket α}
    {b : Bool}
    (hOrderly : Orderly events s)
    (hIn : (s.fs p.flowid).q.isSome = true) :
    ∃ s', s.act times (fuel + 1) (.arrive now p b) = some s' ∧
      Orderly (events ++ [.arrive now p b]) s' := by
  rcases Option.isSome_iff_exists.mp hIn with ⟨q, hq⟩
  unfold act recvUpstream
  simp only
  rw [hq, Option.bind_some]
  by_cases hBlocked : q.blocked = true
  · rw [if_pos hBlocked]
    exact ⟨_, rfl, hOrderly.arrive_waiting hq hBlocked⟩
  · rw [if_neg hBlocked]
    have hSound := hOrderly.sound p.flowid
    have hHol : (s.fs p.flowid).hol = none := by
      by_contra hSome
      rcases Option.ne_none_iff_exists'.mp hSome with ⟨p', hp'⟩
      rcases (hSound.held p' hp').2.2 with ⟨q', hq', hBusy⟩
      rw [hq] at hq'
      cases hq'
      exact hBlocked hBusy
    have hEmpty := (hSound.free hHol q hq).1
    rw [hEmpty]
    cases b with
    | true => exact hOrderly.arrive_free hq hHol
    | false =>
        simp only [Bool.false_eq_true, if_false]
        refine ⟨_, rfl, ?_⟩
        apply hOrderly.replace hIn
          (fun j hNe => ofFlow_arrive hNe)
        · rw [stored_arrive, if_neg Bool.false_ne_true,
            List.append_nil]
          constructor
          case free =>
            rintro _ q' ⟨⟩
            exact ⟨rfl, Bool.eq_false_iff.mpr hBlocked⟩
          case held =>
            intro p' hp'
            rw [show (s.fs p.flowid).hol = some p' from hp']
              at hHol
            cases hHol
          case own =>
            rintro q' ⟨⟩ p' hp'
            cases hp'
          case order =>
            have hOrder := hSound.order
            unfold FlowState.waiting at hOrder ⊢
            rw [hq, Option.map_some, hEmpty] at hOrder
            exact hOrder
        · intro _
          exact hHol

theorem Orderly.act
    {events : List (Event τ α)}
    {e : Event τ α}
    (hOrderly : Orderly events s)
    (hEnabled : e.Enabled s) :
    ∃ s', s.act times (fuel + 1) e = some s' ∧
      Orderly (events ++ [e]) s' := by
  cases e with
  | arrive now p b => exact hOrderly.arrive hEnabled
  | resume now => exact hOrderly.resume hEnabled

/- Queues are installed before the first packet. -/
def setUp
    (times : FinishTimes τ)
    (unblock_on_resume : Bool)
    (flows : List Nat) : FQ τ α :=
  flows.foldl install (new times unblock_on_resume)

theorem mem_flows
    {i : Nat} :
    i ∈ s.flows ↔ (i : Int) ≤ s.maxflow := by
  unfold flows
  rw [List.mem_range]
  omega

theorem install_eq
    {i : Nat} :
    s.install i =
      { s.setQueue i ⟨[], false⟩ with
        maxflow := max s.maxflow i } := by
  unfold install
  by_cases hLt : s.maxflow < i
  · have hMax : max s.maxflow i = i := max_eq_right hLt.le
    rw [hMax]
    exact if_pos hLt
  · have hMax : max s.maxflow i = s.maxflow :=
      max_eq_left (not_lt.mp hLt)
    rw [hMax]
    exact if_neg hLt

/- A new upstream queue is empty. -/
theorem Orderly.install
    {i : Nat}
    (hOrderly : Orderly [] s)
    (hSent : s.sent = [])
    (hHol : ∀ j, (s.fs j).hol = none)
    (hSmall : i < MAXFLOW) :
    Orderly [] (s.install i) := by
  rw [install_eq]
  constructor
  case sound =>
    intro j
    change ((s.setQueue i ⟨[], false⟩).fs j).Sound j
      (ofFlow j s.sent) _
    rw [hSent, setQueue_eq]
    by_cases hFlow : j = i
    · rw [hFlow, setFlow_fs]
      constructor
      case free =>
        rintro _ q ⟨⟩
        exact ⟨rfl, rfl⟩
      case held =>
        intro p hp
        have hNone := hHol i
        rw [show (s.fs i).hol = some p from hp] at hNone
        cases hNone
      case own =>
        rintro q ⟨⟩ p hp
        cases hp
      case order =>
        unfold FlowState.waiting
        rw [show FlowState.hol { s.fs i with
          q := some ⟨[], false⟩ } = none from hHol i]
        rfl
    · rw [setFlow_fs_of_ne hFlow]
      have hSound := hOrderly.sound j
      rw [hSent] at hSound
      exact hSound
  case installed =>
    intro j hj
    change ((s.setQueue i ⟨[], false⟩).fs j).q.isSome = true at hj
    rw [mem_flows]
    change (j : Int) ≤ max s.maxflow i ∧ _
    by_cases hFlow : j = i
    · rw [hFlow]
      exact ⟨le_max_right _ _, hSmall⟩
    · rw [setQueue_eq, setFlow_fs_of_ne hFlow] at hj
      have hOld := hOrderly.installed j hj
      rw [mem_flows] at hOld
      exact ⟨hOld.1.trans (le_max_left _ _), hOld.2⟩
  case idle =>
    intro hIdle
    refine ⟨(hOrderly.idle hIdle).1, ?_⟩
    intro j
    change ((s.setQueue i ⟨[], false⟩).fs j).hol = none
    by_cases hFlow : j = i
    · rw [hFlow, setQueue_eq, setFlow_fs]
      exact hHol i
    · rw [setQueue_eq, setFlow_fs_of_ne hFlow]
      exact hHol j
  case single => exact hOrderly.single
  case peak => exact hOrderly.peak

theorem orderly_setUp
    {unblock : Bool}
    {flows : List Nat}
    (hFlows : ∀ i ∈ flows, i < MAXFLOW) :
    Orderly [] (setUp times unblock flows : FQ τ α) := by
  have hLoop : ∀ (l : List Nat) (s : FQ τ α),
      (∀ i ∈ l, i < MAXFLOW) → Orderly [] s → s.sent = [] →
      (∀ j, (s.fs j).hol = none) →
      Orderly [] (l.foldl FQ.install s) := by
    intro l
    induction l with
    | nil => exact fun s _ hs _ _ => hs
    | cons i l ih =>
        intro s hl hs hSent hHol
        rw [List.foldl_cons]
        apply ih _ (fun j hj => hl j (List.mem_cons_of_mem i hj))
          (hs.install hSent hHol (hl i List.mem_cons_self))
        · rw [install_eq]
          exact hSent
        · intro j
          rw [install_eq]
          change ((s.setQueue i ⟨[], false⟩).fs j).hol = none
          by_cases hFlow : j = i
          · rw [hFlow, setQueue_eq, setFlow_fs]
            exact hHol i
          · rw [setQueue_eq, setFlow_fs_of_ne hFlow]
            exact hHol j
  apply hLoop flows _ hFlows
  · constructor
    case sound =>
      intro i
      constructor
      case free =>
        rintro _ q ⟨⟩
      case held =>
        rintro p ⟨⟩
      case own =>
        rintro q ⟨⟩
      case order => rfl
    case installed =>
      rintro i ⟨⟩
    case idle => exact fun _ => ⟨rfl, fun _ => rfl⟩
    case single => exact Nat.zero_le 1
    case peak => exact Nat.zero_le 1
  · rfl
  · exact fun _ => rfl

/-
  No run aborts, and a call is never nested in another one.
  The downstream has at most one packet at any time.  Between
  the events a flow without a head-of-line packet has an empty
  queue that is not blocked, and the packets of a flow are
  those sent, in order, and then those that wait.
-/
theorem hand_off_safe
    (times : FinishTimes τ)
    (unblock_on_resume : Bool)
    (fuel : Nat)
    (flows : List Nat)
    (events : List (Event τ α))
    (hFlows : ∀ i ∈ flows, i < MAXFLOW)
    (hEnabled : Throughout (act times (fuel + 1))
      (fun s e => e.Enabled s)
      (setUp times unblock_on_resume flows) events) :
    ∃ s, PartialRun.run (act times (fuel + 1))
        (setUp times unblock_on_resume flows) events = some s ∧
      s.peak ≤ 1 ∧ s.outstanding ≤ 1 ∧
      ∀ i,
        ((s.fs i).hol = none → ∀ q, (s.fs i).q = some q →
          q.packets = [] ∧ q.blocked = false) ∧
        ofFlow i (stored events) =
          ofFlow i s.sent ++ (s.fs i).waiting := by
  rcases @PartialRun.progress _ _ (act times (fuel + 1))
      Orderly (fun _ s e => e.Enabled s)
      (fun before s e hOrderly hNow => hOrderly.act hNow)
      _ events (orderly_setUp hFlows) hEnabled with
    ⟨s, hRun, hOrderly⟩
  refine ⟨s, hRun, hOrderly.peak, hOrderly.single, ?_⟩
  intro i
  exact ⟨(hOrderly.sound i).free, (hOrderly.sound i).order⟩

def natTimes : FinishTimes Nat where
  zero := 0
  less := fun a b => decide (a < b)
  delta := Int.toNat
  finish := fun a d n => a + d * n

/- Two flows share the downstream. -/
theorem hand_off_safe_shared :
    ∃ s, PartialRun.run (act natTimes 1)
        (setUp natTimes true [0, 1])
        [.arrive 0 ⟨0, 1000, ()⟩ true,
          .arrive 1 ⟨1, 40, ()⟩ true,
          .arrive 2 ⟨0, 500, ()⟩ true,
          .arrive 3 ⟨0, 60, ()⟩ true,
          .resume 4, .resume 5, .resume 6, .resume 7] =
      some s ∧ s.peak ≤ 1 :=
  (hand_off_safe natTimes true 0 [0, 1]
    [.arrive 0 ⟨0, 1000, ()⟩ true,
      .arrive 1 ⟨1, 40, ()⟩ true,
      .arrive 2 ⟨0, 500, ()⟩ true,
      .arrive 3 ⟨0, 60, ()⟩ true,
      .resume 4, .resume 5, .resume 6, .resume 7]
    (by decide) (PartialRun.throughout_of_check rfl)).imp
    fun _ h => ⟨h.1, h.2.1⟩

end FQ

end Ns2
