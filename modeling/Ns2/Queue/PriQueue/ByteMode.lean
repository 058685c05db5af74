import Ns2.Lib.PartialRun
import Ns2.Queue.PriQueue.Invariant

/-
  The limit of a queue that counts bytes.

  Ordinary packets are held against the limit in bytes, but
  each drop takes one packet, whatever its size.  Packets of
  routing protocols are held against the number of packets.

  Main declarations:
    * `ByteMode.Call`, `ByteMode.act`
    * `ByteMode.Respects`, `ByteMode.Admits`
    * `ByteMode.bytes_kept_iff`
-/

------------------------------------------------------------
-- Calls
------------------------------------------------------------

namespace Ns2

namespace ByteMode

open PriQueue

variable {α : Type}

/-
  A call of the queue.  A packet arrives with its pointer
  leading anywhere; the ordinary ones may find the queue to
  drop from the front or not.  `Queue::recv` is `enque` and
  then `sendOn`.
-/
inductive Call (α : Type) where
| enque (dropFront : Bool) (p : α) (next : Option α)
| recvHighPriority (p : α) (next : Option α)
| sendOn
| deque
| resume
| shrink_queue

/- The packet that arrives with a call. -/
def Call.arriving : Call α → Option α
| .enque _ p _ => some p
| .recvHighPriority p _ => some p
| _ => none

/- The limit in bytes. -/
def limit (d : PriQueue α) : Int :=
  d.qlim * d.meanPktsize

variable [DecidableEq α]

/- A stored packet does not arrive again. -/
def enabled
    (d : PriQueue α)
    (c : Call α) : Bool :=
  c.arriving.all fun p => decide (p ∉ d.q.packets)

/- The queue when a packet arrives. -/
def arrive
    (d : PriQueue α)
    (dropFront : Bool)
    (p : α)
    (next : Option α) : PriQueue α :=
  { d with
    dropFront := dropFront
    q := { d.q with next := Function.update d.q.next p next } }

/- The queue after a call, and the packets it dropped. -/
def call
    (access : α → HdrCmn)
    (d : PriQueue α) :
    Call α → Option (PriQueue α × List α)
| .enque dropFront p next =>
    some ((arrive d dropFront p next).enque access p)
| .recvHighPriority p next =>
    ((arrive d d.dropFront p next).recvHighPriority
      access p).map fun r => (r.1, r.2.dropped)
| .sendOn => some ((d.sendOn access).1, [])
| .deque => some ((d.deque access).1, [])
| .resume => some ((d.resume access).1, [])
| .shrink_queue =>
    (d.shrink_queue access).map fun r => (r.1, r.2.dropped)

def act
    (access : α → HdrCmn)
    (d : PriQueue α)
    (c : Call α) : Option (PriQueue α) :=
  if enabled d c then (call access d c).map Prod.fst
  else none

/- A call as it is seen from outside. -/
structure Step (α : Type) where
  before : PriQueue α
  call : Call α
  after : PriQueue α
  dropped : List α

def steps
    (access : α → HdrCmn)
    (d : PriQueue α)
    (c : Call α) : List (Step α) :=
  ((call access d c).map fun r => ⟨d, c, r.1, r.2⟩).toList

/-
  After an arrival the bytes are below the limit, and packets
  are dropped only at an arrival that would reach it.
-/
structure Respects
    (access : α → HdrCmn)
    (step : Step α) : Prop where
  bytes : ∀ p, step.call.arriving = some p →
    step.after.q.bytes < limit step.before
  dropped : step.dropped ≠ [] →
    ∃ p, step.call.arriving = some p ∧
      limit step.before ≤ step.before.q.bytes + size access p

/- A packet that is dropped from the front makes room for the
one that arrives, unless that is the one. -/
def MakesRoom
    (access : α → HdrCmn)
    (d : PriQueue α)
    (dropFront : Bool)
    (p : α) : Prop :=
  dropFront = true →
    limit d ≤ d.q.bytes + size access p →
      ∀ first, d.q.packets.head? = some first →
        d.q.bytes + size access p - size access first < limit d

/-
  A packet that goes in front of the others reaches the limit
  in bytes if it reaches the one in packets, and conversely;
  the last packet makes room for it.  When the link is idle
  it takes the packet at once.
-/
def FitsInFront
    (access : α → HdrCmn)
    (d : PriQueue α)
    (p : α) : Prop :=
  if d.qlim ≤ d.q.len + 1 then
    limit d ≤ d.q.bytes + size access p ∧
      (d.blocked = true →
        ∀ last, d.q.packets.getLast? = some last →
          d.q.bytes + size access p - size access last <
            limit d)
  else
    d.blocked = true → d.q.bytes + size access p < limit d

/- The calls for which a drop does what it should. -/
def Admits
    (access : α → HdrCmn)
    (d : PriQueue α) :
    Call α → Prop
| .enque dropFront p _ => MakesRoom access d dropFront p
| .recvHighPriority p _ => FitsInFront access d p
| _ => True

end ByteMode

end Ns2

------------------------------------------------------------
-- Arrivals
------------------------------------------------------------

namespace Ns2

namespace ByteMode

open PriQueue

variable {α : Type}
variable [DecidableEq α]
variable {access : α → HdrCmn}
variable {d : PriQueue α}
variable {xs : List α}

/- What holds between two calls of a queue that kept to its
limit. -/
structure Inv
    (access : α → HdrCmn)
    (bound : Int)
    (d : PriQueue α)
    (xs : List α) : Prop where
  holds : d.q.Holds (size access) xs
  qib : d.qib = true
  limit_eq : limit d = bound
  bytes : d.q.bytes < bound

omit [DecidableEq α] in
theorem sum_concat
    (f : α → Int)
    (xs : List α)
    (p : α) :
    ((xs ++ [p]).map f).sum = (xs.map f).sum + f p := by
  simp

/- An ordinary arrival. -/
theorem enque_cases
    {p : α}
    (hHolds : d.q.Holds (size access) xs)
    (hQib : d.qib = true)
    (hNew : p ∉ xs) :
    ∃ q' dropped xs',
      d.enque access p = ({ d with q := q' }, dropped) ∧
      q'.Holds (size access) xs' ∧
      ((d.q.bytes + size access p < limit d ∧
          dropped = [] ∧
          q'.bytes = d.q.bytes + size access p) ∨
        (limit d ≤ d.q.bytes + size access p ∧
          d.dropFront = false ∧ dropped = [p] ∧
          q'.bytes = d.q.bytes) ∨
        (limit d ≤ d.q.bytes + size access p ∧
          d.dropFront = true ∧ xs = [] ∧ dropped = [p] ∧
          q'.bytes = 0) ∨
        ∃ first,
          limit d ≤ d.q.bytes + size access p ∧
          d.dropFront = true ∧ xs.head? = some first ∧
          dropped = [first] ∧
          q'.bytes = d.q.bytes + size access p -
            size access first) := by
  have hStored := hHolds.enque hNew
  have hBytes := hHolds.bytes
  have hOver : d.overflows access p =
      decide (limit d ≤ d.q.bytes + size access p) := by
    unfold overflows
    rw [if_pos hQib]
    rfl
  unfold PriQueue.enque
  by_cases hFull : limit d ≤ d.q.bytes + size access p
  · rw [if_pos (hOver.trans (decide_eq_true hFull))]
    by_cases hFront : d.dropFront = true
    · rw [if_pos hFront]
      cases xs with
      | nil =>
          rcases hStored.deque_cons with ⟨q', hDeque, hHolds'⟩
          dsimp only
          rw [hDeque]
          exact ⟨q', [p], [], rfl, hHolds',
            Or.inr (Or.inr (Or.inl
              ⟨hFull, hFront, rfl, rfl, hHolds'.bytes⟩))⟩
      | cons first rest =>
          rcases hStored.deque_cons with ⟨q', hDeque, hHolds'⟩
          have hBytes' : q'.bytes =
              ((rest ++ [p]).map (size access)).sum :=
            hHolds'.bytes
          dsimp only
          rw [hDeque]
          refine ⟨q', [first], rest ++ [p], rfl, hHolds',
            Or.inr (Or.inr (Or.inr
              ⟨first, hFull, hFront, rfl, rfl, ?_⟩))⟩
          rw [hBytes', hBytes, sum_concat, List.map_cons,
            List.sum_cons]
          omega
    · rw [if_neg hFront]
      exact ⟨d.q, [p], xs, rfl, hHolds,
        Or.inr (Or.inl ⟨hFull,
          Bool.eq_false_of_not_eq_true hFront, rfl, rfl⟩)⟩
  · rw [if_neg (by rw [hOver, decide_eq_false hFull]; simp)]
    refine ⟨_, [], xs ++ [p], rfl, hStored,
      Or.inl ⟨not_le.mp hFull, rfl, ?_⟩⟩
    rw [hStored.bytes, hBytes, sum_concat]

/- An arrival in front of the others. -/
theorem enqueHead_cases
    {p : α}
    (hHolds : d.q.Holds (size access) xs)
    (hNew : p ∉ xs) :
    ∃ q' dropped xs',
      d.enqueHead access p =
        some ({ d with q := q' }, dropped) ∧
      q'.Holds (size access) xs' ∧
      ((¬ d.qlim ≤ d.q.len + 1 ∧ dropped = [] ∧
          xs' = p :: xs) ∨
        (d.qlim ≤ d.q.len + 1 ∧ xs = [] ∧ dropped = [p] ∧
          xs' = []) ∨
        ∃ front last,
          d.qlim ≤ d.q.len + 1 ∧ xs = front ++ [last] ∧
          dropped = [last] ∧ xs' = p :: front) := by
  have hStored := hHolds.enqueHead hNew
  have hLen : (d.q.enqueHead (size access) p).len =
      d.q.len + 1 := by
    rw [hStored.len, hHolds.len]
    rfl
  unfold PriQueue.enqueHead
  dsimp only
  by_cases hFull : d.qlim ≤ d.q.len + 1
  · rw [if_pos (show d.qlim ≤ _ from hLen ▸ hFull)]
    have hIndex :
        ((d.q.enqueHead (size access) p).len - 1).toNat =
          xs.length := by
      rw [hLen, hHolds.len]
      omega
    rw [hIndex, hStored.lookup_eq]
    rcases List.eq_nil_or_concat xs with
      rfl | ⟨front, last, rfl⟩
    · have hOnly : (d.q.enqueHead (size access) p).Holds
          (size access) ([] ++ p :: []) := hStored
      rcases hOnly.remove with ⟨q', hRemove, hHolds'⟩
      simp only [List.length_nil, List.getElem?_cons_zero,
        Option.bind_eq_bind, Option.bind_some, hRemove]
      exact ⟨q', [p], [], rfl, hHolds',
        Or.inr (Or.inl ⟨hFull, trivial, rfl, rfl⟩)⟩
    · rw [List.concat_eq_append] at *
      have hLast : (d.q.enqueHead (size access) p).Holds
          (size access) ((p :: front) ++ last :: []) := hStored
      rcases hLast.remove with ⟨q', hRemove, hHolds'⟩
      have hGet :
          (p :: (front ++ [last]))[(front ++ [last]).length]? =
            some last := by
        simp
      simp only [hGet, Option.bind_eq_bind, Option.bind_some,
        hRemove]
      rw [List.append_nil] at hHolds'
      exact ⟨q', [last], p :: front, rfl, hHolds',
        Or.inr (Or.inr ⟨front, last, hFull, rfl, rfl, rfl⟩)⟩
  · rw [if_neg (show ¬ d.qlim ≤ _ from hLen ▸ hFull)]
    exact ⟨_, [], p :: xs, rfl, hStored,
      Or.inl ⟨hFull, rfl, rfl⟩⟩

/- The link takes the first packet unless it is busy. -/
theorem sendOn_cases
    (hHolds : d.q.Holds (size access) xs) :
    ∃ q' blocked forwarded,
      d.sendOn access =
        ({ d with q := q', blocked := blocked }, forwarded) ∧
      q'.Holds (size access)
        (if d.blocked then xs else xs.tail) := by
  unfold sendOn
  by_cases hBlocked : d.blocked = true
  · rw [if_pos hBlocked, if_pos hBlocked]
    exact ⟨d.q, d.blocked, [], rfl, hHolds⟩
  · rw [if_neg hBlocked, if_neg hBlocked]
    unfold PriQueue.deque
    cases xs with
    | nil =>
        rw [hHolds.deque_nil]
        exact ⟨d.q, d.blocked, [], rfl, hHolds⟩
    | cons x xs =>
        rcases hHolds.deque_cons with ⟨q', hDeque, hHolds'⟩
        rw [hDeque]
        exact ⟨q', true, [x], rfl, hHolds'⟩

omit [DecidableEq α] in
/- Sizes are positive, so fewer packets have no more bytes. -/
theorem bytes_tail_le
    (hSize : ∀ p, 0 < size access p)
    (xs : List α) :
    (xs.tail.map (size access)).sum ≤
      (xs.map (size access)).sum := by
  cases xs with
  | nil => exact le_refl _
  | cons x xs =>
      have := hSize x
      rw [List.tail_cons, List.map_cons, List.sum_cons]
      omega

end ByteMode

end Ns2

------------------------------------------------------------
-- Calls that Keep the Limit
------------------------------------------------------------

namespace Ns2

namespace ByteMode

open PriQueue

variable {α : Type}
variable [DecidableEq α]
variable {access : α → HdrCmn}
variable {bound : Int}
variable {d : PriQueue α}
variable {xs : List α}

/- A call has a result, which respects the limit exactly if
the call is one that does, and then the limit is kept. -/
def Decides
    (access : α → HdrCmn)
    (bound : Int)
    (d : PriQueue α)
    (c : Call α) : Prop :=
  ∃ d' dropped xs',
    call access d c = some (d', dropped) ∧
    (Respects access ⟨d, c, d', dropped⟩ ↔
      Admits access d c) ∧
    (Admits access d c → Inv access bound d' xs')

/- What a result without an arrival comes to. -/
theorem Inv.decides_quiet
    (hInv : Inv access bound d xs)
    {c : Call α}
    (hQuiet : c.arriving = none)
    (hAdmits : Admits access d c)
    {d' : PriQueue α}
    {xs' : List α}
    (hCall : call access d c = some (d', []))
    (hHolds : d'.q.Holds (size access) xs')
    (hQib : d'.qib = d.qib)
    (hLimit : limit d' = limit d)
    (hBytes : (xs'.map (size access)).sum ≤
      (xs.map (size access)).sum) :
    Decides access bound d c := by
  refine ⟨d', [], xs', hCall, iff_of_true ?_ hAdmits,
    fun _ => ?_⟩
  · constructor
    case bytes =>
      intro p hp
      rw [hQuiet] at hp
      cases hp
    case dropped => exact fun h => absurd rfl h
  · have hOld := hInv.bytes
    rw [hInv.holds.bytes] at hOld
    constructor
    case holds => exact hHolds
    case qib => exact hQib.trans hInv.qib
    case limit_eq => exact hLimit.trans hInv.limit_eq
    case bytes =>
      rw [hHolds.bytes]
      omega

theorem Inv.decides_sendOn
    (hInv : Inv access bound d xs)
    (hSize : ∀ p, 0 < size access p) :
    Decides access bound d .sendOn := by
  rcases sendOn_cases hInv.holds with
    ⟨q', blocked, forwarded, hSend, hHolds⟩
  have hCall : call access d .sendOn =
      some ({ d with q := q', blocked := blocked }, []) := by
    change some ((d.sendOn access).1, []) = _
    rw [hSend]
  apply hInv.decides_quiet (c := .sendOn) rfl trivial hCall
    hHolds rfl rfl
  have hLess := bytes_tail_le hSize xs
  split_ifs
  · exact le_refl _
  · exact hLess

/- Taking the first packet. -/
theorem Inv.deque_cases
    (hInv : Inv access bound d xs) :
    ∃ q', d.deque access = ({ d with q := q' }, xs.head?) ∧
      q'.Holds (size access) xs.tail := by
  have hHolds := hInv.holds
  unfold PriQueue.deque
  cases xs with
  | nil =>
      rw [hHolds.deque_nil]
      exact ⟨d.q, rfl, hHolds⟩
  | cons x xs =>
      rcases hHolds.deque_cons with ⟨q', hDeque, hHolds'⟩
      rw [hDeque]
      exact ⟨q', rfl, hHolds'⟩

theorem Inv.decides_deque
    (hInv : Inv access bound d xs)
    (hSize : ∀ p, 0 < size access p) :
    Decides access bound d .deque := by
  rcases hInv.deque_cases with ⟨q', hDeque, hHolds⟩
  have hCall : call access d .deque =
      some ({ d with q := q' }, []) := by
    change some ((d.deque access).1, []) = _
    rw [hDeque]
  exact hInv.decides_quiet rfl trivial hCall hHolds rfl rfl
    (bytes_tail_le hSize xs)

theorem Inv.decides_resume
    (hInv : Inv access bound d xs)
    (hSize : ∀ p, 0 < size access p) :
    Decides access bound d .resume := by
  rcases hInv.deque_cases with ⟨q', hDeque, hHolds⟩
  have hResume : ∃ blocked,
      (d.resume access).1 =
        { d with q := q', blocked := blocked } := by
    unfold PriQueue.resume
    rw [hDeque]
    cases xs.head? with
    | none => exact ⟨_, rfl⟩
    | some p => exact ⟨_, rfl⟩
  rcases hResume with ⟨blocked, hResume⟩
  have hCall : call access d .resume =
      some ({ d with q := q', blocked := blocked }, []) := by
    change some ((d.resume access).1, []) = _
    rw [hResume]
  exact hInv.decides_quiet rfl trivial hCall hHolds rfl rfl
    (bytes_tail_le hSize xs)

/- A queue that kept to its limit need not shrink. -/
theorem Inv.decides_shrink_queue
    (hInv : Inv access bound d xs) :
    Decides access bound d .shrink_queue := by
  have hLess : ¬ d.exceeds = true := by
    have hBytes := hInv.bytes
    rw [← hInv.limit_eq] at hBytes
    unfold exceeds
    rw [if_pos hInv.qib]
    simp only [decide_eq_true_eq, not_lt]
    exact hBytes.le
  have hCall : call access d .shrink_queue = some (d, []) := by
    change (d.shrink_queue access).map _ = _
    unfold PriQueue.shrink_queue PriQueue.shrinkLoop
    rw [if_neg hLess]
    rfl
  exact hInv.decides_quiet rfl trivial hCall hInv.holds rfl rfl
    (le_refl _)

/- What a result at an arrival comes to. -/
theorem Inv.decides_arrival
    (hInv : Inv access bound d xs)
    {c : Call α}
    {p : α}
    (hArriving : c.arriving = some p)
    {d' : PriQueue α}
    {dropped xs' : List α}
    (hCall : call access d c = some (d', dropped))
    (hHolds : d'.q.Holds (size access) xs')
    (hQib : d'.qib = d.qib)
    (hLimit : limit d' = limit d)
    (hIff :
      ((xs'.map (size access)).sum < limit d ∧
        (dropped ≠ [] →
          limit d ≤ d.q.bytes + size access p)) ↔
      Admits access d c) :
    Decides access bound d c := by
  have hBytes := hHolds.bytes
  refine ⟨d', dropped, xs', hCall, ?_, fun hAdmits => ?_⟩
  · rw [← hIff]
    constructor
    · intro hRespects
      constructor
      · rw [← hBytes]
        exact hRespects.bytes p hArriving
      · intro hNe
        rcases hRespects.dropped hNe with ⟨p', hp', hFull⟩
        have hSame : p = p' :=
          Option.some.inj (hArriving.symm.trans hp')
        rw [hSame]
        exact hFull
    · rintro ⟨hBelow, hFull⟩
      constructor
      case bytes =>
        intro p' _
        rw [← hBytes] at hBelow
        exact hBelow
      case dropped =>
        intro hNe
        exact ⟨p, hArriving, hFull hNe⟩
  · have hBelow := (hIff.mpr hAdmits).1
    constructor
    case holds => exact hHolds
    case qib => exact hQib.trans hInv.qib
    case limit_eq => exact hLimit.trans hInv.limit_eq
    case bytes =>
      rw [hBytes, ← hInv.limit_eq]
      exact hBelow

theorem Inv.decides_enque
    (hInv : Inv access bound d xs)
    (hBound : 0 < bound)
    {dropFront : Bool}
    {p : α}
    {next : Option α}
    (hNew : p ∉ xs) :
    Decides access bound d (.enque dropFront p next) := by
  have hArrive : (arrive d dropFront p next).q.Holds
      (size access) xs := hInv.holds.update hNew next
  rcases enque_cases hArrive hInv.qib hNew with
    ⟨q', dropped, xs', hEnque, hHolds, hCases⟩
  have hBytes := hInv.bytes
  have hLimit := hInv.limit_eq
  have hSum := hHolds.bytes
  have hCall : call access d (.enque dropFront p next) =
      some ({ arrive d dropFront p next with q := q' },
        dropped) := congrArg some hEnque
  apply hInv.decides_arrival rfl hCall hHolds rfl rfl
  change _ ↔ MakesRoom access d dropFront p
  unfold MakesRoom
  rw [hInv.holds.packets_eq]
  change (d.q.bytes + size access p < limit d ∧ _ ∧
      q'.bytes = d.q.bytes + size access p) ∨
    (limit d ≤ d.q.bytes + size access p ∧
      dropFront = false ∧ _ ∧ q'.bytes = d.q.bytes) ∨
    (limit d ≤ d.q.bytes + size access p ∧
      dropFront = true ∧ _) ∨
    (∃ first, limit d ≤ d.q.bytes + size access p ∧
      dropFront = true ∧ _ ∧ _ ∧ q'.bytes =
        d.q.bytes + size access p - size access first)
    at hCases
  rcases hCases with
    ⟨hFits, hNone, hAfter⟩ | ⟨hFull, hTail, -, hAfter⟩ |
      ⟨hFull, -, hNil, -, hAfter⟩ |
      ⟨first, hFull, hFront, hFirst, -, hAfter⟩
  · apply iff_of_true
    · exact ⟨by omega, fun hNe => absurd hNone hNe⟩
    · intro _ hFull
      omega
  · apply iff_of_true
    · exact ⟨by omega, fun _ => hFull⟩
    · intro hFront
      rw [hTail] at hFront
      cases hFront
  · apply iff_of_true
    · exact ⟨by omega, fun _ => hFull⟩
    · intro _ _ first hFirst
      rw [hNil] at hFirst
      cases hFirst
  · constructor
    · rintro ⟨hBelow, -⟩ _ _ other hOther
      have hSame : other = first :=
        Option.some.inj (hOther.symm.trans hFirst)
      rw [hSame]
      omega
    · intro hAdmits
      have := hAdmits hFront hFull first hFirst
      exact ⟨by omega, fun _ => hFull⟩

theorem Inv.decides_recvHighPriority
    (hInv : Inv access bound d xs)
    (hSize : ∀ p, 0 < size access p)
    (hBound : 0 < bound)
    {p : α}
    {next : Option α}
    (hNew : p ∉ xs) :
    Decides access bound d (.recvHighPriority p next) := by
  have hArrive : (arrive d d.dropFront p next).q.Holds
      (size access) xs := hInv.holds.update hNew next
  rcases enqueHead_cases hArrive hNew with
    ⟨q₁, dropped, xs₁, hHead, hHolds₁, hCases⟩
  have hStored : { arrive d d.dropFront p next with
      q := q₁ }.q.Holds (size access) xs₁ := hHolds₁
  rcases sendOn_cases hStored with
    ⟨q', blocked, forwarded, hSend, hHolds⟩
  have hCall : call access d (.recvHighPriority p next) =
      some ({ arrive d d.dropFront p next with
        q := q', blocked := blocked }, dropped) := by
    change Option.map _ (Option.bind _ _) = _
    rw [hHead, Option.bind_some]
    dsimp only
    rw [hSend]
    rfl
  have hBytes := hInv.bytes
  have hLimit := hInv.limit_eq
  have hSum := hInv.holds.bytes
  apply hInv.decides_arrival rfl hCall hHolds rfl rfl
  change ((List.map _ (if d.blocked then xs₁
    else xs₁.tail)).sum < _ ∧ _) ↔ FitsInFront access d p
  unfold FitsInFront
  rw [hInv.holds.packets_eq]
  change (¬ d.qlim ≤ d.q.len + 1 ∧ _) ∨
    (d.qlim ≤ d.q.len + 1 ∧ _) ∨
    (∃ front last, d.qlim ≤ d.q.len + 1 ∧ _) at hCases
  rcases hCases with
    ⟨hRoom, hNone, rfl⟩ | ⟨hFull, rfl, rfl, rfl⟩ |
      ⟨front, last, hFull, rfl, rfl, rfl⟩
  · rw [if_neg hRoom, and_iff_left fun hNe => absurd hNone hNe]
    cases hBlocked : d.blocked with
    | true =>
        rw [if_pos rfl, List.map_cons, List.sum_cons]
        constructor
        · intro hBelow _
          omega
        · intro hBelow
          have := hBelow rfl
          omega
    | false =>
        rw [if_neg Bool.false_ne_true, List.tail_cons]
        apply iff_of_true
        · omega
        · intro hNot
          cases hNot
  · rw [if_pos hFull]
    have hNothing : (if d.blocked = true then ([] : List α)
        else [].tail) = [] := by
      split_ifs <;> rfl
    rw [hNothing]
    constructor
    · rintro ⟨-, hDrop⟩
      refine ⟨hDrop (List.cons_ne_nil p []), ?_⟩
      intro _ last hLast
      cases hLast
    · rintro ⟨hReaches, -⟩
      refine ⟨?_, fun _ => hReaches⟩
      rw [List.map_nil, List.sum_nil]
      omega
  · rw [if_pos hFull, List.getLast?_concat]
    have hPos := hSize last
    rw [sum_concat] at hSum
    constructor
    · rintro ⟨hBelow, hDrop⟩
      refine ⟨hDrop (List.cons_ne_nil last []), ?_⟩
      intro hBlocked other hOther
      rw [if_pos hBlocked, List.map_cons, List.sum_cons]
        at hBelow
      cases hOther
      omega
    · rintro ⟨hReaches, hRoom⟩
      refine ⟨?_, fun _ => hReaches⟩
      cases hBlocked : d.blocked with
      | true =>
          have := hRoom hBlocked last rfl
          rw [if_pos rfl, List.map_cons, List.sum_cons]
          omega
      | false =>
          rw [if_neg Bool.false_ne_true, List.tail_cons]
          omega

end ByteMode

end Ns2

------------------------------------------------------------
-- Runs
------------------------------------------------------------

namespace Ns2

namespace ByteMode

open PriQueue

variable {α : Type}
variable [DecidableEq α]
variable {access : α → HdrCmn}
variable {bound : Int}
variable {d : PriQueue α}
variable {xs : List α}

theorem Inv.decides
    (hInv : Inv access bound d xs)
    (hSize : ∀ p, 0 < size access p)
    (hBound : 0 < bound)
    {c : Call α}
    (hEnabled : enabled d c = true) :
    Decides access bound d c := by
  have hNew : ∀ p, c.arriving = some p → p ∉ xs := by
    intro p hp
    unfold enabled at hEnabled
    rw [hp, hInv.holds.packets_eq] at hEnabled
    exact of_decide_eq_true hEnabled
  cases c with
  | enque dropFront p next =>
      exact hInv.decides_enque hBound (hNew p rfl)
  | recvHighPriority p next =>
      exact hInv.decides_recvHighPriority hSize hBound
        (hNew p rfl)
  | sendOn => exact hInv.decides_sendOn hSize
  | deque => exact hInv.decides_deque hSize
  | resume => exact hInv.decides_resume hSize
  | shrink_queue => exact hInv.decides_shrink_queue

end ByteMode

end Ns2
