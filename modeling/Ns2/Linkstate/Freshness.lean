import Mathlib.Algebra.Order.Ring.Nat
import Ns2.Linkstate.Messages

/-
  Freshness of the messages of an origin.

  The center numbers its messages by odd words of 32 bits
  and begins again after the last one.  The messages that it
  issues reach a node late, in any order and any number of
  times, and its history tells which of them are new.

  Main declarations:
    * `LsMessageHistory.isNewMessage_iff`
    * `Delivery`, `Delivery.Reaches`
    * `Delivery.Fresh`, `Delivery.Careful`
    * `Delivery.accepts_only_newer`
-/

------------------------------------------------------------
-- Two Messages
------------------------------------------------------------

namespace Ns2

namespace LsMessageHistory

/- What makes a message new, given the last one. -/
theorem isNewMessage_iff
    {history : LsMessageHistory}
    {msg : LsMessage}
    {seq : Nat}
    (hFind : history.find msg.originNodeId = some seq) :
    (isNewMessage history msg).1 = true ↔
      seq < msg.sequenceNumber ∨
        LS_WRAPAROUND_THRESHOLD <
          subU32 seq msg.sequenceNumber := by
  unfold isNewMessage
  rw [hFind]
  dsimp only
  split_ifs with hNew
  · exact iff_of_true rfl hNew
  · exact iff_of_false not_false hNew

/- A message that is not new is forgotten. -/
theorem isNewMessage_old
    {history : LsMessageHistory}
    {msg : LsMessage}
    (hOld : (isNewMessage history msg).1 = false) :
    (isNewMessage history msg).2 = history := by
  unfold isNewMessage at hOld ⊢
  cases hFind : history.find msg.originNodeId with
  | none =>
      rw [hFind] at hOld
      cases hOld
  | some seq =>
      rw [hFind] at hOld
      dsimp only at hOld ⊢
      split_ifs at hOld ⊢
      rfl

/- Two messages are each new after the other when their
numbers are further apart than the threshold. -/
theorem new_both_ways
    {h₁ h₂ : LsMessageHistory}
    {x y : LsMessage}
    (hX : x.sequenceNumber < 2 ^ 32)
    (hY : y.sequenceNumber < 2 ^ 32)
    (hOrigin : x.originNodeId = y.originNodeId)
    (h₁X : h₁.find x.originNodeId = some x.sequenceNumber)
    (h₂Y : h₂.find y.originNodeId = some y.sequenceNumber) :
    ((isNewMessage h₁ y).1 = true ∧
        (isNewMessage h₂ x).1 = true) ↔
      x.sequenceNumber + 2 ^ 30 < y.sequenceNumber ∨
        y.sequenceNumber + 2 ^ 30 < x.sequenceNumber := by
  rw [hOrigin] at h₁X
  rw [← hOrigin] at h₂Y
  rw [isNewMessage_iff h₁X, isNewMessage_iff h₂Y]
  unfold LS_WRAPAROUND_THRESHOLD subU32
  omega

end LsMessageHistory

end Ns2

------------------------------------------------------------
-- Numbers
------------------------------------------------------------

namespace Ns2

namespace LsMessageCenter

/- The number of the message that is `k` issues away. -/
def idAt (start k : Nat) : Nat :=
  (start + 2 * k) % 4294967296

theorem idAt_zero
    {start : Nat}
    (hWord : start < 2 ^ 32) :
    idAt start 0 = start :=
  Nat.mod_eq_of_lt hWord

/- Odd numbers pass by the one that is skipped. -/
theorem nextId_idAt
    {start : Nat}
    (hOdd : start % 2 = 1)
    (k : Nat) :
    nextId (idAt start k) = idAt start (k + 1) := by
  unfold nextId idAt addU32 LS_INVALID_MESSAGE_ID
  dsimp only
  split_ifs <;> omega

/- The centers that can be brought about. -/
theorem Reachable.word
    {c : LsMessageCenter}
    (hReach : c.Reachable) :
    c.current_lsa_id < 2 ^ 32 := by
  induction hReach with
  | new max_size =>
      change 0 + 1 < 2 ^ 32
      omega
  | @newMessage c c' nodeId type msg hBefore hNew ih =>
      by_cases hType : type = .LS_MSG_LSA ∨ type = .LS_MSG_TPM
      · rw [(newMessage_lsa hType hNew).2.1]
        unfold nextId addU32 LS_INVALID_MESSAGE_ID
        dsimp only
        split_ifs <;> omega
      · rw [(newMessage_other hType hNew).2.2.1]
        exact ih
  | fill _ msg ih =>
      rw [fill_lsa_id]
      exact ih
  | deleteMessage _ msgId ih => exact ih

/- A wrap between two messages lies before any that follow
them closely. -/
theorem idAt_lt_of_wrap
    {start k m l : Nat}
    (hWrap : idAt start m < idAt start k)
    (hKM : k < m)
    (hML : m ≤ l)
    (hNear : l < k + 2 ^ 29) :
    idAt start l < idAt start k := by
  unfold idAt at *
  omega

/- The distance of numbers is twice that of the messages. -/
theorem idAt_sub
    {start k l : Nat}
    (hKL : k ≤ l)
    (hNear : l < k + 2 ^ 29) :
    subU32 (idAt start l) (idAt start k) = 2 * (l - k) := by
  unfold idAt subU32 at *
  omega

end LsMessageCenter

end Ns2

------------------------------------------------------------
-- Delivery
------------------------------------------------------------

namespace Ns2

/- A message that arrived, by the issue it is a copy of. -/
structure Arrival where
  origin : Int
  issue : Nat
  number : Nat
  accepted : Bool
deriving DecidableEq, Repr

/-
  The center, the messages that it issued, the history of a
  node, and what arrived at the node, the latest first.
-/
structure Delivery where
  center : LsMessageCenter
  sent : List LsMessage
  history : LsMessageHistory
  log : List Arrival

namespace Delivery

def start (center : LsMessageCenter) : Delivery where
  center := center
  sent := []
  history := .new
  log := []

/- The node looks a message up in its history. -/
def receive
    (s : Delivery)
    (k : Nat)
    (msg : LsMessage) : Delivery :=
  let r := s.history.isNewMessage msg
  { s with
    history := r.2
    log :=
      { origin := msg.originNodeId
        issue := k
        number := msg.sequenceNumber
        accepted := r.1 } :: s.log }

/-
  What can be reached from a center.  A copy of a message may
  arrive as long as fewer than 2^29 were issued since.
-/
inductive Reaches
    (center : LsMessageCenter) : Delivery → Prop
| start :
    Reaches center (start center)
| issue
    {s : Delivery}
    {c : LsMessageCenter}
    {nodeId : Int}
    {type : LsMessageType}
    {msg : LsMessage}
    (hReach : Reaches center s)
    (hType : type = .LS_MSG_LSA ∨ type = .LS_MSG_TPM)
    (hNew : s.center.newMessage nodeId type = some (c, msg)) :
    Reaches center
      { s with center := c, sent := s.sent ++ [msg] }
| arrive
    {s : Delivery}
    {k : Nat}
    {msg copy : LsMessage}
    (hReach : Reaches center s)
    (hSent : s.sent[k]? = some msg)
    (hDelay : s.sent.length - 1 - k < 2 ^ 29)
    (hOrigin : copy.originNodeId = msg.originNodeId)
    (hNumber : copy.sequenceNumber = msg.sequenceNumber) :
    Reaches center (s.receive k copy)

/- Whatever is accepted was issued after all that had been
accepted from its origin. -/
def Fresh (log : List Arrival) : Prop :=
  log.Pairwise fun later earlier =>
    later.accepted = true → earlier.accepted = true →
      earlier.origin = later.origin →
        earlier.issue < later.issue

/- Nothing from before the numbers began again arrives after
something issued since was accepted from its origin. -/
def Careful (log : List Arrival) : Prop :=
  log.Pairwise fun later earlier =>
    earlier.accepted = true →
      earlier.origin = later.origin →
        later.issue < earlier.issue →
          later.number ≤ earlier.number

/- The last arrival that was accepted from an origin. -/
def latest
    (origin : Int)
    (log : List Arrival) : Option Arrival :=
  log.find? fun x =>
    x.accepted && decide (x.origin = origin)

variable {center : LsMessageCenter}
variable {s : Delivery}
variable {log : List Arrival}

/- What the history and the log know of the messages. -/
structure Tracks
    (center : LsMessageCenter)
    (s : Delivery) : Prop where
  next :
    s.center.current_lsa_id =
      LsMessageCenter.idAt center.current_lsa_id s.sent.length
  sent : ∀ k msg, s.sent[k]? = some msg →
    msg.sequenceNumber =
      LsMessageCenter.idAt center.current_lsa_id k
  logged : ∀ x ∈ s.log, x.issue < s.sent.length ∧
    x.number =
      LsMessageCenter.idAt center.current_lsa_id x.issue
  stored : ∀ o, s.history.find o =
    (latest o s.log).map Arrival.number

theorem Tracks.start
    (hWord : center.current_lsa_id < 2 ^ 32) :
    Tracks center (start center) := by
  constructor
  case next => exact (LsMessageCenter.idAt_zero hWord).symm
  case sent =>
    intro k msg hSent
    cases hSent
  case logged =>
    intro x hx
    cases hx
  case stored =>
    intro o
    rfl

theorem Tracks.issue
    {c : LsMessageCenter}
    {nodeId : Int}
    {type : LsMessageType}
    {msg : LsMessage}
    (hTracks : Tracks center s)
    (hOdd : center.current_lsa_id % 2 = 1)
    (hType : type = .LS_MSG_LSA ∨ type = .LS_MSG_TPM)
    (hNew : s.center.newMessage nodeId type = some (c, msg)) :
    Tracks center
      { s with center := c, sent := s.sent ++ [msg] } := by
  rcases LsMessageCenter.newMessage_lsa hType hNew with
    ⟨hMsg, hNext, -⟩
  constructor
  case next =>
    rw [hNext, hTracks.next,
      LsMessageCenter.nextId_idAt hOdd, List.length_append,
      List.length_singleton]
  case sent =>
    intro k m hSent
    rcases Nat.lt_trichotomy k s.sent.length with
      hOld | hLast | hNone
    · rw [List.getElem?_append_left hOld] at hSent
      exact hTracks.sent k m hSent
    · rw [hLast, List.getElem?_concat_length] at hSent
      rw [← Option.some.inj hSent, hMsg, hLast]
      exact hTracks.next
    · rw [List.getElem?_eq_none (by
        rw [List.length_append, List.length_singleton]
        omega)] at hSent
      cases hSent
  case logged =>
    intro x hx
    rcases hTracks.logged x hx with ⟨hLt, hNumber⟩
    refine ⟨?_, hNumber⟩
    rw [List.length_append]
    omega
  case stored => exact hTracks.stored

/- Only what is accepted becomes the latest of its origin. -/
theorem latest_cons
    (o : Int)
    (x : Arrival) :
    latest o (x :: log) =
      if x.accepted = true ∧ x.origin = o then some x
      else latest o log := by
  unfold latest
  rw [List.find?_cons]
  cases x.accepted with
  | false => simp
  | true =>
      by_cases hOrigin : x.origin = o
      · simp [hOrigin]
      · simp [hOrigin]

theorem Tracks.receive
    {k : Nat}
    {msg copy : LsMessage}
    (hTracks : Tracks center s)
    (hSent : s.sent[k]? = some msg)
    (hNumber : copy.sequenceNumber = msg.sequenceNumber) :
    Tracks center (s.receive k copy) := by
  constructor
  case next => exact hTracks.next
  case sent => exact hTracks.sent
  case logged =>
    intro x hx
    rcases List.mem_cons.mp hx with rfl | hOld
    · refine ⟨(List.getElem?_eq_some_iff.mp hSent).1, ?_⟩
      exact hNumber.trans (hTracks.sent k msg hSent)
    · exact hTracks.logged x hOld
  case stored =>
    intro o
    change (s.history.isNewMessage copy).2.find o =
      (latest o (_ :: s.log)).map Arrival.number
    rw [latest_cons]
    dsimp only
    cases hNew : (s.history.isNewMessage copy).1 with
    | false =>
        rw [LsMessageHistory.isNewMessage_old hNew,
          if_neg (fun h => Bool.false_ne_true h.1)]
        exact hTracks.stored o
    | true =>
        rcases LsMessageHistory.find_isNewMessage hNew with
          ⟨hSelf, hOther⟩
        by_cases hOrigin : copy.originNodeId = o
        · rw [if_pos ⟨rfl, hOrigin⟩, ← hOrigin, hSelf]
          rfl
        · rw [if_neg (fun h => hOrigin h.2),
            hOther o (Ne.symm hOrigin)]
          exact hTracks.stored o

end Delivery

end Ns2

------------------------------------------------------------
-- Order of Acceptance
------------------------------------------------------------

namespace Ns2

namespace Delivery

open LsMessageCenter

variable {center : LsMessageCenter}
variable {s : Delivery}
variable {log : List Arrival}

/- In a fresh log the latest of an origin was issued last. -/
theorem Fresh.latest
    (hFresh : Fresh log)
    {y : Arrival}
    (hMem : y ∈ log)
    (hAccepted : y.accepted = true) :
    ∃ l ∈ log, latest y.origin log = some l ∧
      y.issue ≤ l.issue := by
  induction log with
  | nil => cases hMem
  | cons x log ih =>
      rcases List.pairwise_cons.mp hFresh with ⟨hX, hRest⟩
      rw [latest_cons]
      split_ifs with hLatest
      · refine ⟨x, List.mem_cons_self, rfl, ?_⟩
        rcases List.mem_cons.mp hMem with rfl | hOld
        · exact Nat.le_refl _
        · exact Nat.le_of_lt
            (hX y hOld hLatest.1 hAccepted hLatest.2.symm)
      · rcases List.mem_cons.mp hMem with rfl | hOld
        · exact absurd ⟨hAccepted, rfl⟩ hLatest
        · rcases ih hRest hOld with ⟨l, hL, hFind, hLe⟩
          exact ⟨l, List.mem_cons_of_mem x hL, hFind, hLe⟩

/- What an arrival is held against, when something of its
origin was accepted that was not issued before it. -/
theorem Tracks.held
    (hTracks : Tracks center s)
    (hFresh : Fresh s.log)
    {k : Nat}
    {msg copy : LsMessage}
    (hSent : s.sent[k]? = some msg)
    (hDelay : s.sent.length - 1 - k < 2 ^ 29)
    (hNumber : copy.sequenceNumber = msg.sequenceNumber)
    {y : Arrival}
    (hMem : y ∈ s.log)
    (hAccepted : y.accepted = true)
    (hOrigin : y.origin = copy.originNodeId) :
    ∃ l ∈ s.log,
      l.accepted = true ∧ l.origin = copy.originNodeId ∧
      y.issue ≤ l.issue ∧ l.issue < k + 2 ^ 29 ∧
      s.history.find copy.originNodeId = some l.number ∧
      l.number = idAt center.current_lsa_id l.issue ∧
      y.number = idAt center.current_lsa_id y.issue ∧
      copy.sequenceNumber =
        idAt center.current_lsa_id k := by
  rcases hFresh.latest hMem hAccepted with
    ⟨l, hL, hLatest, hIssue⟩
  have hFound := List.find?_some hLatest
  rw [Bool.and_eq_true, decide_eq_true_iff] at hFound
  rcases hTracks.logged l hL with ⟨hLast, hLNumber⟩
  have hStored := hTracks.stored copy.originNodeId
  rw [← hOrigin, hLatest] at hStored
  refine ⟨l, hL, hFound.1, hFound.2.trans hOrigin, hIssue,
    by omega, ?_, hLNumber, (hTracks.logged y hMem).2,
    hNumber.trans (hTracks.sent k msg hSent)⟩
  rw [← hOrigin]
  exact hStored

/-
  One arrival after a fresh log.  What was accepted last was
  issued within the delay that an arrival can have, so the
  second test never holds against it without a wrap, and the
  first one always does after a wrap.
-/
theorem Tracks.receive_fresh_iff
    (hTracks : Tracks center s)
    (hFresh : Fresh s.log)
    {k : Nat}
    {msg copy : LsMessage}
    (hSent : s.sent[k]? = some msg)
    (hDelay : s.sent.length - 1 - k < 2 ^ 29)
    (hNumber : copy.sequenceNumber = msg.sequenceNumber) :
    ((s.history.isNewMessage copy).1 = true →
        ∀ y ∈ s.log, y.accepted = true →
          y.origin = copy.originNodeId → y.issue < k) ↔
      ∀ y ∈ s.log, y.accepted = true →
        y.origin = copy.originNodeId → k < y.issue →
          copy.sequenceNumber ≤ y.number := by
  constructor
  · intro hOrder y hMem hAccepted hOrigin hLater
    rcases hTracks.held hFresh hSent hDelay hNumber hMem
        hAccepted hOrigin with
      ⟨l, hL, -, -, hIssue, hNear, hStored, hLNumber,
        hYNumber, hCopy⟩
    by_contra hLess
    rw [hCopy, hYNumber, not_le] at hLess
    have hNew : (s.history.isNewMessage copy).1 = true := by
      rw [LsMessageHistory.isNewMessage_iff hStored, hCopy,
        hLNumber]
      exact Or.inl
        (idAt_lt_of_wrap hLess hLater hIssue hNear)
    have := hOrder hNew y hMem hAccepted hOrigin
    omega
  · intro hCareful hNew y hMem hAccepted hOrigin
    by_contra hNotBefore
    rcases hTracks.held hFresh hSent hDelay hNumber hMem
        hAccepted hOrigin with
      ⟨l, hL, hLAccepted, hLOrigin, hIssue, hNear, hStored,
        hLNumber, -, hCopy⟩
    have hDistance :
        subU32 (idAt center.current_lsa_id l.issue)
          (idAt center.current_lsa_id k) =
            2 * (l.issue - k) :=
      idAt_sub (by omega) hNear
    rw [LsMessageHistory.isNewMessage_iff hStored] at hNew
    have hLess : l.number < copy.sequenceNumber := by
      rcases hNew with hFirst | hSecond
      · exact hFirst
      · rw [hCopy, hLNumber, hDistance] at hSecond
        unfold LS_WRAPAROUND_THRESHOLD at hSecond
        omega
    rcases Nat.lt_or_ge k l.issue with hLater | hSame
    · have := hCareful l hL hLAccepted hLOrigin hLater
      omega
    · have hIs : l.issue = k := by omega
      rw [hCopy, hLNumber, hIs] at hLess
      omega

theorem Reaches.tracks
    (hOdd : center.current_lsa_id % 2 = 1)
    (hWord : center.current_lsa_id < 2 ^ 32)
    (hReach : Reaches center s) :
    Tracks center s := by
  induction hReach with
  | start => exact Tracks.start hWord
  | issue _ hType hNew ih => exact ih.issue hOdd hType hNew
  | arrive _ hSent _ _ hNumber ih =>
      exact ih.receive hSent hNumber

theorem Reaches.fresh_iff
    (hOdd : center.current_lsa_id % 2 = 1)
    (hWord : center.current_lsa_id < 2 ^ 32)
    (hReach : Reaches center s) :
    Fresh s.log ↔ Careful s.log := by
  induction hReach with
  | start => exact iff_of_true List.Pairwise.nil List.Pairwise.nil
  | issue _ _ _ ih => exact ih
  | @arrive s k msg copy hBefore hSent hDelay _ hNumber ih =>
      have hTracks := hBefore.tracks hOdd hWord
      unfold Fresh Careful at ih ⊢
      change List.Pairwise _ (_ :: s.log) ↔
        List.Pairwise _ (_ :: s.log)
      rw [List.pairwise_cons, List.pairwise_cons, ← ih]
      apply and_congr_left
      intro hFresh
      have hArrival := hTracks.receive_fresh_iff hFresh hSent
        hDelay hNumber
      constructor
      · intro hOrder
        exact hArrival.mp
          fun hNew y hMem => hOrder y hMem hNew
      · intro hCareful y hMem hNew
        exact hArrival.mpr hCareful hNew y hMem

end Delivery

end Ns2

------------------------------------------------------------
-- Wrapping Around
------------------------------------------------------------

namespace Ns2

namespace LsMessageCenter

/- A center that keeps one message at a time. -/
structure Single (c : LsMessageCenter) : Prop where
  size : c.max_size = 1
  stored : c.lsa_messages.entries.length ≤ 1

theorem Single.new : (LsMessageCenter.new 1).Single := by
  constructor
  case size => rfl
  case stored => exact Nat.zero_le 1

/- It makes room for each new message. -/
theorem Single.newMessage
    {c : LsMessageCenter}
    (hSingle : c.Single)
    (nodeId : Int) :
    ∃ c' msg,
      c.newMessage nodeId .LS_MSG_LSA = some (c', msg) ∧
        c'.Single ∧
        c'.current_lsa_id = nextId c.current_lsa_id := by
  have hEmpty : (recycle 1 c.lsa_messages).entries = [] := by
    unfold recycle
    split
    case h_1 hNil => exact hNil
    case h_2 e rest hEntries =>
      have hStored := hSingle.stored
      rw [hEntries, List.length_cons] at hStored
      have hRest : rest = [] :=
        List.eq_nil_of_length_eq_zero (by omega)
      subst hRest
      rw [if_pos (show 1 ≤ [e].length from Nat.le_refl 1)]
      change SortedEntries.erase e.1 c.lsa_messages.entries = []
      rw [hEntries]
      simp [SortedEntries.erase]
  have hNone (id : Nat) :
      (recycle 1 c.lsa_messages).find id = none := by
    unfold SortedMap.find
    rw [hEmpty]
    rfl
  have hStore (msg : LsMessage) :
      store (recycle 1 c.lsa_messages) msg =
        some ((recycle 1 c.lsa_messages).insert
          msg.messageId msg) := by
    unfold store
    rw [hNone]
  have hNew :
      c.newMessage nodeId .LS_MSG_LSA =
        some ({ c with
          current_lsa_id := nextId c.current_lsa_id
          max_size := 1
          lsa_messages :=
            (recycle 1 c.lsa_messages).insert c.current_lsa_id
              (.new c.current_lsa_id nodeId .LS_MSG_LSA) },
          .new c.current_lsa_id nodeId .LS_MSG_LSA) := by
    unfold LsMessageCenter.newMessage
    rw [hSingle.size, if_neg Nat.one_ne_zero,
      if_pos (Or.inl rfl)]
    dsimp only
    rw [hStore]
    rfl
  refine ⟨_, _, hNew, ?_, rfl⟩
  constructor
  case size => rfl
  case stored =>
    change (SortedEntries.insert _ _
      (recycle 1 c.lsa_messages).entries).length ≤ 1
    rw [hEmpty]
    exact Nat.le_refl 1

/- So it comes to any odd number. -/
theorem reaches_id
    (n : Nat) :
    ∃ c, Reachable c ∧ c.Single ∧
      c.current_lsa_id = idAt 1 n := by
  induction n with
  | zero =>
      exact ⟨new 1, .new 1, .new, rfl⟩
  | succ n ih =>
      rcases ih with ⟨c, hReach, hSingle, hId⟩
      rcases hSingle.newMessage 0 with
        ⟨c', msg, hNew, hSingle', hId'⟩
      refine ⟨c', .newMessage hReach hNew, hSingle', ?_⟩
      rw [hId', hId, nextId_idAt rfl]

end LsMessageCenter

namespace Delivery

/-
  When a node takes only newer messages for new.

  Of two messages at most one is new after the other unless
  their numbers are further apart than the threshold.  In a
  run, only newer messages are accepted exactly when nothing
  from before the numbers began again arrives after something
  issued since was accepted.
-/
theorem accepts_only_newer
    {center : LsMessageCenter}
    (hCenter : center.Reachable) :
    (∀ (h₁ h₂ : LsMessageHistory) (x y : LsMessage),
      x.sequenceNumber < 2 ^ 32 →
      y.sequenceNumber < 2 ^ 32 →
      x.originNodeId = y.originNodeId →
      h₁.find x.originNodeId = some x.sequenceNumber →
      h₂.find y.originNodeId = some y.sequenceNumber →
      (¬ ((h₁.isNewMessage y).1 = true ∧
          (h₂.isNewMessage x).1 = true) ↔
        y.sequenceNumber ≤ x.sequenceNumber + 2 ^ 30 ∧
          x.sequenceNumber ≤ y.sequenceNumber + 2 ^ 30)) ∧
    ∀ s, Reaches center s →
      (Fresh s.log ↔ Careful s.log) := by
  constructor
  · intro h₁ h₂ x y hX hY hOrigin h₁X h₂Y
    rw [LsMessageHistory.new_both_ways hX hY hOrigin h₁X h₂Y,
      not_or, not_lt, not_lt]
  · intro s hReach
    exact hReach.fresh_iff hCenter.parity.lsa hCenter.word

/- A first message arrives at a node. -/
theorem accepts_only_newer_first :
    ∃ c msg s,
      (LsMessageCenter.new 1).newMessage 0 .LS_MSG_LSA =
        some (c, msg) ∧
      Reaches (LsMessageCenter.new 1) s ∧
      s.log = [⟨0, 0, 1, true⟩] ∧
      (Fresh s.log ↔ Careful s.log) := by
  rcases LsMessageCenter.Single.new.newMessage 0 with
    ⟨c, msg, hNew, -, -⟩
  have hMsg := (LsMessageCenter.newMessage_lsa
    (Or.inl rfl) hNew).1
  subst hMsg
  have hReach : Reaches (LsMessageCenter.new 1)
      (Delivery.receive _ 0 _) :=
    .arrive (.issue .start (Or.inl rfl) hNew) (k := 0) rfl
      (show 1 - 1 - 0 < 2 ^ 29 by decide) rfl rfl
  exact ⟨c, _, _, hNew, hReach, rfl,
    (accepts_only_newer (.new 1)).2 _ hReach⟩

/-
  Two messages that are each new after the other, and a run
  in which a message from before the numbers began again
  comes once more and is accepted again.
-/
theorem accepts_older :
    (∃ (h₁ h₂ : LsMessageHistory) (x y : LsMessage),
      x = .new 1 0 .LS_MSG_LSA ∧
      y = .new 1073741827 0 .LS_MSG_LSA ∧
      h₁.find 0 = some 1 ∧ h₂.find 0 = some 1073741827 ∧
      (h₁.isNewMessage y).1 = true ∧
      (h₂.isNewMessage x).1 = true) ∧
    ∃ center s,
      center.Reachable ∧
      center.current_lsa_id = 4294967295 ∧
      Reaches center s ∧
      s.log = [⟨0, 0, 4294967295, true⟩, ⟨0, 1, 1, true⟩,
        ⟨0, 0, 4294967295, true⟩] ∧
      ¬ Fresh s.log := by
  constructor
  · exact ⟨LsMessageHistory.isNewMessage .new
        (.new 1 0 .LS_MSG_LSA) |>.2,
      LsMessageHistory.isNewMessage .new
        (.new 1073741827 0 .LS_MSG_LSA) |>.2,
      _, _, rfl, rfl, rfl, rfl, rfl, rfl⟩
  · rcases LsMessageCenter.reaches_id 2147483647 with
      ⟨center, hCenter, hSingle, hId⟩
    change center.current_lsa_id = 4294967295 at hId
    rcases hSingle.newMessage 0 with
      ⟨c₁, m₀, hNew₀, hSingle₁, hId₁⟩
    rcases hSingle₁.newMessage 0 with
      ⟨c₂, m₁, hNew₁, -, -⟩
    have hM₀ := (LsMessageCenter.newMessage_lsa
      (Or.inl rfl) hNew₀).1
    have hM₁ := (LsMessageCenter.newMessage_lsa
      (Or.inl rfl) hNew₁).1
    rw [hId] at hM₀ hId₁
    rw [hId₁] at hM₁
    subst hM₀ hM₁
    have hSent : Reaches center
        { Delivery.start center with
          center := c₂, sent := [] ++ [_] ++ [_] } :=
      .issue (.issue .start (Or.inl rfl) hNew₀)
        (Or.inl rfl) hNew₁
    have hNear : 2 - 1 - 0 < 2 ^ 29 := by decide
    have hReach : Reaches center
        (((Delivery.receive _ 0 _).receive 1 _).receive 0 _) :=
      .arrive
        (.arrive
          (.arrive hSent (k := 0) rfl hNear rfl rfl)
          (k := 1) rfl (Nat.zero_lt_succ _) rfl rfl)
        (k := 0) rfl hNear rfl rfl
    refine ⟨center, _, hCenter, hId, hReach, rfl, ?_⟩
    intro hFresh
    have hOrder := (List.pairwise_cons.mp hFresh).1
      ⟨0, 1, 1, true⟩ (List.mem_cons_self) rfl rfl rfl
    exact absurd hOrder (Nat.not_lt_zero 1)

end Delivery

end Ns2
