import Mathlib.Data.List.OfFn
import Ns2.Lib.Transducer
import Ns2.Queue.Drr.Structure
import Ns2.Queue.Sfq

/-
  A new number of buckets for an idle queue.

  The queues create their buckets when they are first called.
  The command for a number of buckets deletes the buckets
  that there are, and they must hold no packets.

  Main declarations:
    * `Buckets.which`
    * `SFQObject`, `SFQObject.clear`, `SFQObject.setBuckets`
    * `DRRObject`, `DRRObject.clear`, `DRRObject.setBuckets`
    * `buckets_like_new`
-/

------------------------------------------------------------
-- Calls
------------------------------------------------------------

namespace Ns2

inductive QueueCall (α : Type) where
| enque (pkt : α)
| deque
deriving DecidableEq, Repr

/- The packets that a call drops, and the one it returns. -/
structure QueueAnswer (α : Type) where
  dropped : List α
  sent : Option α
deriving DecidableEq, Repr

namespace Buckets

/- The index `hash % n`, if it is one of the array. -/
def which
    (n : Nat)
    (hash : Int) : Option (Fin n) :=
  if h : 0 ≤ hash.tmod n ∧ hash.tmod n < n then
    some ⟨(hash.tmod n).toNat, by omega⟩
  else none

end Buckets

end Ns2

------------------------------------------------------------
-- Stochastic Fair Queueing
------------------------------------------------------------

namespace Ns2

/- The queue with its settings.  What the buckets go with is
set anew when they are created. -/
structure SFQObject (α : Type) where
  maxqueue_ : Int
  buckets_ : Nat
  bucket : Option (SFQ buckets_ α)

namespace SFQObject

variable {α : Type}

def new
    (maxqueue_ : Int)
    (buckets_ : Nat) : SFQObject α :=
  ⟨maxqueue_, buckets_, none⟩

/- The buckets, which are created if there are none.  The
fair share is a quotient by their number. -/
def initsfq
    (s : SFQObject α) : Option (SFQ s.buckets_ α) :=
  match s.bucket with
  | some q => some q
  | none =>
      if s.buckets_ = 0 then none
      else some (SFQ.initsfq s.maxqueue_)

def enque
    (hash : α → Int)
    (s : SFQObject α)
    (pkt : α) : Option (SFQObject α × QueueAnswer α) := do
  let q ← s.initsfq
  let which ← Buckets.which s.buckets_ (hash pkt)
  let r ← q.enque which pkt
  return (⟨s.maxqueue_, s.buckets_, some r.1⟩,
    ⟨r.2.toList, none⟩)

def deque
    (s : SFQObject α) :
    Option (SFQObject α × QueueAnswer α) := do
  let q ← s.initsfq
  let r ← q.deque
  return (⟨s.maxqueue_, s.buckets_, some r.1⟩, ⟨[], r.2⟩)

def call
    (hash : α → Int)
    (s : SFQObject α) :
    QueueCall α → Option (SFQObject α × QueueAnswer α)
| .enque pkt => s.enque hash pkt
| .deque => s.deque

/-
  Look at the buckets from `q` on.  The program exits at one
  with packets, and reads what is behind the array after the
  last one.  The loop does not count `i` down.
-/
def clearLoop
    (i : Nat) :
    List (PacketSFQ α) → Option Unit
| [] => if i = 0 then some () else none
| q :: qs =>
    if i = 0 then some ()
    else if q.pkts ≠ 0 then none
    else clearLoop i qs

/- The buckets are deleted if the loop ends. -/
def clear (s : SFQObject α) : Option Unit :=
  match s.bucket with
  | none => some ()
  | some q => clearLoop s.buckets_ (List.ofFn q.bucket)

/- The command for a number of buckets. -/
def setBuckets
    (s : SFQObject α)
    (n : Nat) : Option (SFQObject α) :=
  s.clear.map fun _ => ⟨s.maxqueue_, n, none⟩

/- No bucket holds a packet. -/
def Empty (s : SFQObject α) : Prop :=
  ∀ q, s.bucket = some q → ∀ i, q.stored i = []

end SFQObject

end Ns2

------------------------------------------------------------
-- Deficit Round Robin
------------------------------------------------------------

namespace Ns2

/- The array of buckets and what goes with it.  When it is
deleted the counters stay, and `curr` may point into it. -/
inductive DRRArray (n : Nat) (α : Type) where
| deleted (curr : Bool) (bytecnt pktcnt flwcnt : Int)
| created (queue : DRR n α)

/- The queue with its settings. -/
structure DRRObject (α : Type) where
  blimit_ : Int
  quantum_ : Int
  buckets_ : Nat
  drr : DRRArray buckets_ α

namespace DRRObject

variable {α : Type}

def new
    (blimit_ quantum_ : Int)
    (buckets_ : Nat) : DRRObject α :=
  ⟨blimit_, quantum_, buckets_, .deleted false 0 0 0⟩

/- The buckets, which are created if there are none.  A call
that creates them follows `curr` at once. -/
def array
    (d : DRRObject α) : Option (DRR d.buckets_ α) :=
  match d.drr with
  | .created q => some q
  | .deleted curr bytecnt pktcnt flwcnt =>
      if curr then none
      else
        some { DRR.new d.blimit_ d.quantum_ with
          bytecnt := bytecnt
          pktcnt := pktcnt
          flwcnt := flwcnt }

variable (size : α → Int)

def enque
    (hash : α → Int)
    (d : DRRObject α)
    (pkt : α) : Option (DRRObject α × QueueAnswer α) := do
  let q ← d.array
  let which ← Buckets.which d.buckets_ (hash pkt)
  let r ← q.enque size which pkt
  return (⟨d.blimit_, d.quantum_, d.buckets_, .created r.1⟩,
    ⟨r.2.map Prod.snd, none⟩)

/- Without buckets there is nothing to follow. -/
def deque
    (d : DRRObject α) :
    Option (DRRObject α × QueueAnswer α) :=
  match d.drr with
  | .created q =>
      (q.deque size).map fun r =>
        (⟨d.blimit_, d.quantum_, d.buckets_, .created r.1⟩,
          ⟨[], r.2⟩)
  | .deleted _ bytecnt _ _ =>
      if bytecnt = 0 then some (d, ⟨[], none⟩) else none

def call
    (hash : α → Int)
    (d : DRRObject α) :
    QueueCall α → Option (DRRObject α × QueueAnswer α)
| .enque pkt => d.enque size hash pkt
| .deque => d.deque size

/- Look at `i` buckets; the program exits at one with
packets. -/
def clearLoop :
    Nat → List (PacketDRR α) → Option Unit
| 0, _ => some ()
| _ + 1, [] => none
| i + 1, q :: qs =>
    if q.pkts ≠ 0 then none else clearLoop i qs

/- The buckets are deleted if the loop ends. -/
def clear (d : DRRObject α) : Option Unit :=
  match d.drr with
  | .deleted .. => some ()
  | .created q => clearLoop d.buckets_ (List.ofFn q.drr)

/- The command for a number of buckets. -/
def setBuckets
    (d : DRRObject α)
    (n : Nat) : Option (DRRObject α) :=
  d.clear.map fun _ =>
    match d.drr with
    | .deleted curr bytecnt pktcnt flwcnt =>
        ⟨d.blimit_, d.quantum_, n,
          .deleted curr bytecnt pktcnt flwcnt⟩
    | .created q =>
        ⟨d.blimit_, d.quantum_, n,
          .deleted q.curr.isSome q.bytecnt q.pktcnt q.flwcnt⟩

/- No bucket holds a packet. -/
def Empty (d : DRRObject α) : Prop :=
  ∀ q, d.drr = .created q → ∀ i, q.stored i = []

end DRRObject

end Ns2

------------------------------------------------------------
-- Clearing
------------------------------------------------------------

namespace Ns2

namespace SFQObject

variable {α : Type}
variable {hash : α → Int}

/- The loop of a queue with buckets never ends. -/
theorem clearLoop_eq_none
    {i : Nat}
    (hi : i ≠ 0)
    (qs : List (PacketSFQ α)) :
    clearLoop i qs = none := by
  induction qs with
  | nil => exact if_neg hi
  | cons q qs ih =>
      unfold clearLoop
      rw [if_neg hi, ih]
      split_ifs <;> rfl

/- The buckets are there. -/
def Created (s : SFQObject α) : Prop :=
  s.buckets_ ≠ 0 ∧ s.bucket.isSome = true

theorem initsfq_pos
    {s : SFQObject α}
    {q : SFQ s.buckets_ α}
    (hFresh : s.bucket = none ∨ s.Created)
    (hInit : s.initsfq = some q) :
    s.buckets_ ≠ 0 := by
  rcases hFresh with hNone | hCreated
  · unfold initsfq at hInit
    rw [hNone] at hInit
    dsimp only at hInit
    split_ifs at hInit with hZero
    exact hZero
  · exact hCreated.1

/- Every call creates the buckets. -/
theorem created_of_call
    {s s' : SFQObject α}
    {c : QueueCall α}
    {a : QueueAnswer α}
    (hFresh : s.bucket = none ∨ s.Created)
    (hCall : s.call hash c = some (s', a)) :
    s'.Created := by
  cases c with
  | enque pkt =>
      rcases Option.bind_eq_some_iff.mp hCall with
        ⟨q, hInit, hRest⟩
      have hPos := initsfq_pos hFresh hInit
      rcases Option.bind_eq_some_iff.mp hRest with
        ⟨which, -, hEnque⟩
      rcases Option.bind_eq_some_iff.mp hEnque with
        ⟨r, -, hEq⟩
      cases hEq
      exact ⟨hPos, rfl⟩
  | deque =>
      rcases Option.bind_eq_some_iff.mp hCall with
        ⟨q, hInit, hDeque⟩
      have hPos := initsfq_pos hFresh hInit
      rcases Option.bind_eq_some_iff.mp hDeque with
        ⟨r, -, hEq⟩
      cases hEq
      exact ⟨hPos, rfl⟩

/- So the command ends only before the first call. -/
theorem setBuckets_isSome_iff
    {maxqueue_ : Int}
    {m : Nat}
    {calls : List (QueueCall α)}
    {s : SFQObject α}
    {out : List (QueueAnswer α)}
    (hRun : Transducer.run (call hash) (new maxqueue_ m) calls =
      some (s, out))
    (n : Nat) :
    (∃ s', s.setBuckets n = some s') ↔ calls = [] := by
  cases calls with
  | nil =>
      cases hRun
      exact iff_of_true ⟨_, rfl⟩ rfl
  | cons c calls =>
      rcases Transducer.run_cons_eq_some hRun with
        ⟨s₁, a, rest, hCall, hRest, -⟩
      have hCreated : s.Created := by
        apply Transducer.invariant ?_
          (created_of_call (Or.inl rfl) hCall) hRest
        intro t b t' a' hT hCall'
        exact created_of_call (Or.inr hT) hCall'
      apply iff_of_false
      · rintro ⟨s', hSet⟩
        rcases Option.map_eq_some_iff.mp hSet with ⟨_, hClear, -⟩
        rcases Option.isSome_iff_exists.mp hCreated.2 with
          ⟨q, hQ⟩
        unfold clear at hClear
        rw [hQ] at hClear
        dsimp only at hClear
        rw [clearLoop_eq_none hCreated.1] at hClear
        cases hClear
      · exact List.cons_ne_nil c calls

end SFQObject

namespace DRRObject

variable {α : Type}
variable {size : α → Int}
variable {hash : α → Int}

/- The loop looks at each bucket once. -/
theorem clearLoop_length
    {qs : List (PacketDRR α)}
    (hEmpty : ∀ q ∈ qs, q.pkts = 0) :
    clearLoop qs.length qs = some () := by
  induction qs with
  | nil => rfl
  | cons q qs ih =>
      rw [List.length_cons, clearLoop,
        if_neg (not_not.mpr (hEmpty q List.mem_cons_self))]
      exact ih fun p hp => hEmpty p (List.mem_cons_of_mem q hp)

/- The settings stay, and the ring and the counters are
right as long as there are buckets. -/
structure Kept
    (size : α → Int)
    (blimit quantum : Int)
    (m : Nat)
    (d : DRRObject α) : Prop where
  blimit : d.blimit_ = blimit
  quantum : d.quantum_ = quantum
  buckets : d.buckets_ = m
  deleted : ∀ curr bytecnt pktcnt flwcnt,
    d.drr = .deleted curr bytecnt pktcnt flwcnt →
      curr = false ∧ bytecnt = 0 ∧ pktcnt = 0 ∧ flwcnt = 0
  created : ∀ q, d.drr = .created q →
    ∃ order, q.Sound size order

variable {blimit quantum : Int} {m : Nat}

theorem kept_new :
    (new blimit quantum m : DRRObject α).Kept size blimit
      quantum m := by
  constructor
  case blimit => rfl
  case quantum => rfl
  case buckets => rfl
  case deleted =>
    intro curr bytecnt pktcnt flwcnt hDrr
    cases hDrr
    exact ⟨rfl, rfl, rfl, rfl⟩
  case created =>
    intro q hDrr
    cases hDrr

theorem Kept.array
    {d : DRRObject α}
    (hKept : d.Kept size blimit quantum m)
    {q : DRR d.buckets_ α}
    (hArray : d.array = some q) :
    ∃ order, q.Sound size order := by
  unfold DRRObject.array at hArray
  split at hArray
  case h_1 p hDrr =>
    cases hArray
    exact hKept.created _ hDrr
  case h_2 curr bytecnt pktcnt flwcnt hDrr =>
    rcases hKept.deleted _ _ _ _ hDrr with
      ⟨rfl, rfl, rfl, rfl⟩
    cases hArray
    exact ⟨[], (DRR.inv_new d.blimit_ d.quantum_).sound⟩

/- The object after a call that left its buckets sound. -/
theorem Kept.of_sound
    {d : DRRObject α}
    (hKept : d.Kept size blimit quantum m)
    {q : DRR d.buckets_ α}
    (hSound : ∃ order, q.Sound size order) :
    Kept size blimit quantum m
      ⟨d.blimit_, d.quantum_, d.buckets_, .created q⟩ := by
  constructor
  case blimit => exact hKept.blimit
  case quantum => exact hKept.quantum
  case buckets => exact hKept.buckets
  case deleted =>
    intro curr bytecnt pktcnt flwcnt hDrr
    cases hDrr
  case created =>
    intro p hDrr
    cases hDrr
    exact hSound

theorem Kept.call
    {d d' : DRRObject α}
    (hKept : d.Kept size blimit quantum m)
    {c : QueueCall α}
    {a : QueueAnswer α}
    (hCall : d.call size hash c = some (d', a)) :
    d'.Kept size blimit quantum m := by
  cases c with
  | enque pkt =>
      rcases Option.bind_eq_some_iff.mp hCall with
        ⟨q, hArray, hRest⟩
      rcases Option.bind_eq_some_iff.mp hRest with
        ⟨which, -, hEnque⟩
      rcases Option.bind_eq_some_iff.mp hEnque with
        ⟨r, hR, hEq⟩
      cases hEq
      rcases hKept.array hArray with ⟨order, hSound⟩
      exact hKept.of_sound (hSound.enque hR)
  | deque =>
      change d.deque size = _ at hCall
      unfold DRRObject.deque at hCall
      split at hCall
      case h_1 q hDrr =>
        rcases Option.map_eq_some_iff.mp hCall with
          ⟨r, hR, hEq⟩
        cases hEq
        rcases hKept.created q hDrr with ⟨order, hSound⟩
        exact hKept.of_sound (hSound.deque hR)
      case h_2 =>
        split_ifs at hCall
        cases hCall
        exact hKept

/- The command makes an idle queue a new one. -/
theorem Kept.setBuckets
    {d : DRRObject α}
    (hKept : d.Kept size blimit quantum m)
    (hEmpty : d.Empty)
    (n : Nat) :
    d.setBuckets n = some (new blimit quantum n) := by
  have hBlimit := hKept.blimit
  have hQuantum := hKept.quantum
  unfold DRRObject.setBuckets DRRObject.clear
  cases hDrr : d.drr with
  | deleted curr bytecnt pktcnt flwcnt =>
      rcases hKept.deleted _ _ _ _ hDrr with
        ⟨rfl, rfl, rfl, rfl⟩
      dsimp only [Option.map_some]
      rw [hBlimit, hQuantum]
      rfl
  | created q =>
      rcases hKept.created q hDrr with ⟨order, hSound⟩
      rcases hSound.drained (hEmpty q hDrr) with
        ⟨hCurr, hBytecnt, hPktcnt, hFlwcnt, hPkts⟩
      have hLoop :
          clearLoop d.buckets_ (List.ofFn q.drr) = some () := by
        have hLength := List.length_ofFn (f := q.drr)
        nth_rewrite 1 [← hLength]
        apply clearLoop_length
        intro p hp
        rcases List.mem_ofFn.mp hp with ⟨i, rfl⟩
        exact hPkts i
      dsimp only
      rw [hLoop, Option.map_some, hCurr, hBytecnt, hPktcnt,
        hFlwcnt, hBlimit, hQuantum]
      rfl

end DRRObject

end Ns2

------------------------------------------------------------
-- Like a New Queue
------------------------------------------------------------

namespace Ns2

/-
  When a new number of buckets makes an idle queue like a new
  one.

  Deficit round robin always becomes like a new queue, since
  nothing is left of the old buckets but counters that are
  zero.  Stochastic fair queueing becomes one only if it was
  never called: once it has buckets, the command does not
  come to an end.
-/
theorem buckets_like_new
    {α : Type}
    (hash size : α → Int)
    (calls : List (QueueCall α))
    (maxqueue blimit quantum : Int)
    (m n : Nat) :
    (∀ (s : SFQObject α) out,
      Transducer.run (SFQObject.call hash) (.new maxqueue m)
        calls = some (s, out) →
      s.Empty →
      ((∃ s', s.setBuckets n = some s' ∧
        ∀ further,
          Transducer.answers (SFQObject.call hash) s'
            further =
          Transducer.answers (SFQObject.call hash)
            (.new maxqueue n) further) ↔ calls = [])) ∧
    (∀ (d : DRRObject α) out,
      Transducer.run (DRRObject.call size hash)
        (.new blimit quantum m) calls = some (d, out) →
      d.Empty →
      ∃ d', d.setBuckets n = some d' ∧
        ∀ further,
          Transducer.answers (DRRObject.call size hash) d'
            further =
          Transducer.answers (DRRObject.call size hash)
            (.new blimit quantum n) further) := by
  constructor
  · intro s out hRun _
    constructor
    · rintro ⟨s', hSet, -⟩
      exact (SFQObject.setBuckets_isSome_iff hRun n).mp
        ⟨s', hSet⟩
    · rintro rfl
      cases hRun
      exact ⟨_, rfl, fun _ => rfl⟩
  · intro d out hRun hEmpty
    have hKept : d.Kept size blimit quantum m :=
      Transducer.invariant
        (fun _ _ _ _ hKept hCall => hKept.call hCall)
        DRRObject.kept_new hRun
    exact ⟨_, hKept.setBuckets hEmpty n, fun _ => rfl⟩

/- Both queues with 16 buckets, before and after a packet. -/
theorem buckets_like_new_sixteen :
    (∃ s' : SFQObject Nat,
      (SFQObject.new 40 16).setBuckets 8 = some s') ∧
    ∃ (d : DRRObject Nat) (out : List (QueueAnswer Nat)),
      Transducer.run
        (DRRObject.call (fun _ => 100) fun p : Nat => (p : Int))
        (.new 25000 250 16) [.enque 3, .deque] =
          some (d, out) ∧
      ∃ d', d.setBuckets 8 = some d' := by
  constructor
  · rcases ((buckets_like_new (fun p : Nat => (p : Int))
        (fun _ => 100) [] 40 25000 250 16 8).1 _ _ rfl
        (fun q hq => by cases hq)).mpr rfl with ⟨s', hSet, -⟩
    exact ⟨s', hSet⟩
  · refine ⟨_, _, rfl, ?_⟩
    have hLike := (buckets_like_new (fun p : Nat => (p : Int))
      (fun _ => 100) [.enque 3, .deque] 40 25000 250 16 8).2
      _ _ rfl
    apply (hLike ?_).imp
    · exact fun _ hSet => hSet.1
    · intro q hq i
      cases hq
      revert i
      decide

/- The queue with 16 buckets after one packet came and went,
and the command for 8 buckets. -/
theorem sfq_buckets_stuck :
    ∃ (s : SFQObject Nat) (out : List (QueueAnswer Nat)),
      Transducer.run (SFQObject.call fun p : Nat => (p : Int))
        (.new 40 16) [.enque 3, .deque] = some (s, out) ∧
      s.Empty ∧
      ¬ ∃ s', s.setBuckets 8 = some s' := by
  refine ⟨_, _, rfl, ?_, ?_⟩
  · intro q hq i
    cases hq
    revert i
    decide
  · intro hSet
    have hNil := (SFQObject.setBuckets_isSome_iff
      (show Transducer.run
        (SFQObject.call fun p : Nat => (p : Int))
        (.new 40 16) [.enque 3, .deque] = some (_, _)
        from rfl) 8).mp hSet
    cases hNil

end Ns2
