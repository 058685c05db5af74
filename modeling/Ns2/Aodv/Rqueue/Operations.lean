import Mathlib.Order.Lattice
import Ns2.Lib.LinkedList

/-
  The packets that a routing agent buffers while it looks for
  a route.

  The packets are linked by a pointer that each of them
  carries, and each carries the time until which it is kept.
  A failed assertion and a loop that would not end have no
  result.

  Main declarations:
    * `AodvRqueue`
    * `AodvRqueue.purge`
    * `AodvRqueue.enque`, `AodvRqueue.deque`
    * `AodvRqueue.dequeDst`
-/

------------------------------------------------------------
-- Lists of packets
------------------------------------------------------------

namespace Ns2

structure AodvRqueue (α κ : Type) where
  head : Option α
  tail : Option α
  next : α → Option α
  ts : α → κ
  len : Int
  limit : Int
  timeout : κ

inductive DropReason where
| DROP_RTR_QFULL
| DROP_RTR_QTIMEOUT
deriving DecidableEq, Repr

namespace AodvRqueue

variable {α κ : Type}

def AODV_RTQ_MAX_LEN : Int := 64

/- An empty queue; the packets are somewhere else so far. -/
def new
    (next : α → Option α)
    (ts : α → κ)
    (AODV_RTQ_TIMEOUT : κ) : AodvRqueue α κ :=
  ⟨none, none, next, ts, 0, AODV_RTQ_MAX_LEN,
    AODV_RTQ_TIMEOUT⟩

/- The stored packets, from the head on. -/
def packets (q : AodvRqueue α κ) : List α :=
  LinkedList.walk q.next q.len.toNat q.head

/- The first packet with a property, and the one before. -/
def findFrom
    (next : α → Option α)
    (here : α → Bool) :
    Nat → Option α → Option α → Option (Option α × Option α)
| _, none, prev => some (none, prev)
| 0, some _, _ => none
| fuel + 1, some p, prev =>
    if here p then some (some p, prev)
    else findFrom next here fuel (next p) (some p)

def find
    (q : AodvRqueue α κ)
    (here : α → Bool) : Option (Option α × Option α) :=
  findFrom q.next here (q.len.toNat + 1) q.head none

/- Count the packets and look at the last one. -/
def verifyQueue (q : AodvRqueue α κ) : Prop :=
  (LinkedList.walk q.next (q.len.toNat + 1) q.head).length =
      q.len ∧
    (LinkedList.walk q.next (q.len.toNat + 1)
      q.head).getLast? = q.tail

variable [DecidableEq α]

def remove_head
    (q : AodvRqueue α κ) : AodvRqueue α κ × Option α :=
  let p := q.head
  let q :=
    if q.head = q.tail then
      { q with head := none, tail := none }
    else { q with head := q.head.bind q.next }
  (if p = none then q else { q with len := q.len - 1 }, p)

instance (q : AodvRqueue α κ) : Decidable q.verifyQueue :=
  inferInstanceAs (Decidable (_ ∧ _))

/- The packet is the head, or behind the other one. -/
def linked
    (q : AodvRqueue α κ)
    (p : α)
    (prev : Option α) : Prop :=
  match prev with
  | none => q.head = some p
  | some prev => q.next prev = some p

instance
    (q : AodvRqueue α κ)
    (p : α)
    (prev : Option α) : Decidable (q.linked p prev) :=
  match prev with
  | none => inferInstanceAs (Decidable (q.head = some p))
  | some prev =>
      inferInstanceAs (Decidable (q.next prev = some p))

/- Take a packet out that has been found. -/
def unlink
    (q : AodvRqueue α κ)
    (p : α)
    (prev : Option α) : Option (AodvRqueue α κ) :=
  if q.linked p prev then
    if q.head = some p then some q.remove_head.1
    else
      prev.map fun prev =>
        if q.tail = some p then
          { q with
            next := Function.update q.next prev none
            tail := some prev
            len := q.len - 1 }
        else
          { q with
            next := Function.update q.next prev (q.next p)
            len := q.len - 1 }
  else none

def verified
    (q : AodvRqueue α κ) : Option (AodvRqueue α κ) :=
  if q.verifyQueue then some q else none

end AodvRqueue

end Ns2

------------------------------------------------------------
-- Calls
------------------------------------------------------------

namespace Ns2

namespace AodvRqueue

variable {α κ : Type}
variable [DecidableEq α]
variable [LinearOrder κ]

def aged
    (q : AodvRqueue α κ)
    (now : κ)
    (p : α) : Bool :=
  decide (q.ts p < now)

def findAgedPacket
    (q : AodvRqueue α κ)
    (now : κ) : Option (Option α × Option α) :=
  q.find (q.aged now)

/- The packets that are too old are unlinked one by one. -/
def purgeLoop
    (now : κ) :
    Nat → AodvRqueue α κ → Option (AodvRqueue α κ)
| fuel, q =>
    match q.findAgedPacket now with
    | none => none
    | some (none, _) => some q
    | some (some p, prev) =>
        match fuel with
        | 0 => none
        | fuel + 1 =>
            (q.unlink p prev).bind fun q =>
              q.verified.bind (purgeLoop now fuel)

def purge
    (q : AodvRqueue α κ)
    (now : κ) : Option (AodvRqueue α κ) :=
  purgeLoop now q.len.toNat q

/- The packet goes to the end of the list. -/
def append
    (q : AodvRqueue α κ)
    (p : α) : Option (AodvRqueue α κ) :=
  match q.head, q.tail with
  | none, _ =>
      some { q with
        head := some p
        tail := some p
        len := q.len + 1 }
  | some _, some t =>
      some { q with
        next := Function.update q.next t (some p)
        tail := some p
        len := q.len + 1 }
  | some _, none => none

/- The queue, the packets returned, and those dropped. -/
structure Result (α κ : Type) where
  queue : AodvRqueue α κ
  returned : List α
  dropped : List (α × DropReason)

/- A full queue drops its first packet. -/
def makeRoom
    (q : AodvRqueue α κ)
    (now : κ) : Option (Result α κ) :=
  if q.len = q.limit then
    match q.remove_head with
    | (_, none) => none
    | (q', some p0) =>
        some ⟨q', [],
          [(p0,
            if now < q.ts p0 then .DROP_RTR_QFULL
            else .DROP_RTR_QTIMEOUT)]⟩
  else some ⟨q, [], []⟩

def enque
    [Add κ]
    (q : AodvRqueue α κ)
    (now : κ)
    (p : α) : Option (Result α κ) :=
  (q.purge now).bind fun q =>
    let q :=
      { q with
        next := Function.update q.next p none
        ts := Function.update q.ts p (now + q.timeout) }
    (q.makeRoom now).bind fun r =>
      (r.queue.append p).bind fun q =>
        q.verified.map fun q => { r with queue := q }

def deque
    (q : AodvRqueue α κ)
    (now : κ) : Option (Result α κ) :=
  (q.purge now).bind fun q =>
    q.remove_head.1.verified.map fun q' =>
      ⟨q', q.remove_head.2.toList, []⟩

variable {δ : Type}
variable [DecidableEq δ]

def findPacketWithDst
    (daddr : α → δ)
    (q : AodvRqueue α κ)
    (dst : δ) : Option (Option α × Option α) :=
  q.find fun p => decide (daddr p = dst)

def dequeDst
    (daddr : α → δ)
    (q : AodvRqueue α κ)
    (now : κ)
    (dst : δ) : Option (Result α κ) :=
  (q.purge now).bind fun q =>
    (findPacketWithDst daddr q dst).bind fun
      | (none, _) => some ⟨q, [], []⟩
      | (some p, prev) =>
          (q.unlink p prev).bind fun q =>
            q.verified.map fun q => ⟨q, [p], []⟩

inductive Call (α κ δ : Type) where
| enque (now : κ) (p : α)
| deque (now : κ)
| dequeDst (now : κ) (dst : δ)

def Call.now : Call α κ δ → κ
| .enque now _ => now
| .deque now => now
| .dequeDst now _ => now

def call
    [Add κ]
    (daddr : α → δ)
    (q : AodvRqueue α κ) :
    Call α κ δ → Option (Result α κ)
| .enque now p => q.enque now p
| .deque now => q.deque now
| .dequeDst now dst => q.dequeDst daddr now dst

end AodvRqueue

end Ns2
