import Ns2.Linkstate.Operations

/-
  Messages of the link state protocol.

  All nodes share one message center.  Advertisements and
  topology maps get odd ids from it, acknowledgements even
  ones.  A full storage makes room by erasing the message of
  the least id.

  Main declarations:
    * `LsLink`, `LsMessage`
    * `LsMessageCenter.newMessage`
    * `LsMessageCenter.Reachable`
    * `LsMessageHistory.isNewMessage`
-/

------------------------------------------------------------
-- Messages
------------------------------------------------------------

namespace Ns2

def LS_INVALID_MESSAGE_ID : Nat := 0
def LS_WRAPAROUND_THRESHOLD : Nat := 1073741824

/- The sum of two unsigned numbers of 32 bits. -/
def addU32 (a b : Nat) : Nat :=
  (a + b) % 4294967296

/- Their difference. -/
def subU32 (a b : Nat) : Nat :=
  (a + (4294967296 - b)) % 4294967296

inductive LsMessageType where
| LS_MSG_INVALID
| LS_MSG_LSA
| LS_MSG_TPM
| LS_MSG_LSAACK
| LS_MSG_TPMACK
| LS_MSG_LSM
deriving DecidableEq, Repr

/- A link state with the number of its advertisement. -/
structure LsLink extends LsLinkState where
  sequenceNumber : Nat
deriving DecidableEq, Repr

/-
  What a message points to.  A topology map is the database
  of a node itself, not a copy, so it is known by the node.
-/
inductive LsContent where
| null
| lsl (links : List LsLink)
| topo (nodeId : Int)
deriving DecidableEq, Repr

structure LsMessage where
  type : LsMessageType
  messageId : Nat
  sequenceNumber : Nat
  originNodeId : Int
  content : LsContent
deriving DecidableEq, Repr

/- A fresh message has its id for its sequence number. -/
def LsMessage.new
    (id : Nat)
    (nodeId : Int)
    (type : LsMessageType) : LsMessage where
  type := type
  messageId := id
  sequenceNumber := id
  originNodeId := nodeId
  content := .null

end Ns2

------------------------------------------------------------
-- Message center
------------------------------------------------------------

namespace Ns2

structure LsMessageCenter where
  current_lsa_id : Nat
  current_other_id : Nat
  max_size : Nat
  lsa_messages : SortedMap Nat LsMessage
  other_messages : SortedMap Nat LsMessage

namespace LsMessageCenter

variable (c : LsMessageCenter)

def new (max_size : Nat) : LsMessageCenter where
  current_lsa_id := LS_INVALID_MESSAGE_ID + 1
  current_other_id := LS_INVALID_MESSAGE_ID + 2
  max_size := max_size
  lsa_messages := .new
  other_messages := .new

def isLSA (msgId : Nat) : Bool :=
  decide (msgId % 2 = 1)

def retrieveMessage (msgId : Nat) : Option LsMessage :=
  if isLSA msgId then c.lsa_messages.find msgId
  else c.other_messages.find msgId

def nextId (currentId : Nat) : Nat :=
  let id := addU32 currentId 2
  if id = LS_INVALID_MESSAGE_ID then addU32 id 2 else id

def recycle
    (max_size : Nat)
    (storage : SortedMap Nat LsMessage) :
    SortedMap Nat LsMessage :=
  match storage.entries with
  | [] => storage
  | e :: rest =>
      if max_size ≤ (e :: rest).length then storage.erase e.1
      else storage

/- Nothing where the id is in use already. -/
def store
    (storage : SortedMap Nat LsMessage)
    (msg : LsMessage) : Option (SortedMap Nat LsMessage) :=
  match storage.find msg.messageId with
  | none => some (storage.insert msg.messageId msg)
  | some _ => none

def newMessage
    (nodeId : Int)
    (type : LsMessageType) :
    Option (LsMessageCenter × LsMessage) :=
  let max_size := if c.max_size = 0 then 300 else c.max_size
  if type = .LS_MSG_LSA ∨ type = .LS_MSG_TPM then
    let msg := LsMessage.new c.current_lsa_id nodeId type
    (store (recycle max_size c.lsa_messages) msg).map
      fun lsa_messages =>
        ({ c with
            current_lsa_id := nextId c.current_lsa_id
            max_size := max_size
            lsa_messages := lsa_messages }, msg)
  else
    let msg := LsMessage.new c.current_other_id nodeId type
    (store (recycle max_size c.other_messages) msg).map
      fun other_messages =>
        ({ c with
            current_other_id := nextId c.current_other_id
            max_size := max_size
            other_messages := other_messages }, msg)

/- Fill in a message that was just made, where it is stored. -/
def fill (msg : LsMessage) : LsMessageCenter :=
  if isLSA msg.messageId then
    { c with
      lsa_messages :=
        c.lsa_messages.modify msg.messageId fun _ => msg }
  else
    { c with
      other_messages :=
        c.other_messages.modify msg.messageId fun _ => msg }

def deleteMessage (msgId : Nat) : LsMessageCenter :=
  { c with other_messages := c.other_messages.erase msgId }

/- The centers that the nodes can bring about. -/
inductive Reachable : LsMessageCenter → Prop
| new
    (max_size : Nat) :
    Reachable (new max_size)
| newMessage
    {c c' : LsMessageCenter}
    {nodeId : Int}
    {type : LsMessageType}
    {msg : LsMessage}
    (hReach : Reachable c)
    (hNew : c.newMessage nodeId type = some (c', msg)) :
    Reachable c'
| fill
    {c : LsMessageCenter}
    (hReach : Reachable c)
    (msg : LsMessage) :
    Reachable (c.fill msg)
| deleteMessage
    {c : LsMessageCenter}
    (hReach : Reachable c)
    (msgId : Nat) :
    Reachable (c.deleteMessage msgId)

end LsMessageCenter

end Ns2

------------------------------------------------------------
-- Fresh messages
------------------------------------------------------------

namespace Ns2

namespace LsMessageCenter

variable {c c' : LsMessageCenter}
variable {nodeId : Int}
variable {type : LsMessageType}
variable {msg : LsMessage}

/- What a new message and the center with it look like. -/
theorem newMessage_lsa
    (hType : type = .LS_MSG_LSA ∨ type = .LS_MSG_TPM)
    (hNew : c.newMessage nodeId type = some (c', msg)) :
    msg = LsMessage.new c.current_lsa_id nodeId type ∧
      c'.current_lsa_id = nextId c.current_lsa_id ∧
      c'.current_other_id = c.current_other_id ∧
      c'.other_messages = c.other_messages ∧
      ∃ max_size,
        store (recycle max_size c.lsa_messages) msg =
          some c'.lsa_messages := by
  unfold newMessage at hNew
  rw [if_pos hType] at hNew
  rcases Option.map_eq_some_iff.mp hNew with
    ⟨lsa_messages, hStore, hEq⟩
  cases hEq
  exact ⟨rfl, rfl, rfl, rfl, _, hStore⟩

theorem newMessage_other
    (hType : ¬ (type = .LS_MSG_LSA ∨ type = .LS_MSG_TPM))
    (hNew : c.newMessage nodeId type = some (c', msg)) :
    msg = LsMessage.new c.current_other_id nodeId type ∧
      c'.current_other_id = nextId c.current_other_id ∧
      c'.current_lsa_id = c.current_lsa_id ∧
      c'.lsa_messages = c.lsa_messages ∧
      ∃ max_size,
        store (recycle max_size c.other_messages) msg =
          some c'.other_messages := by
  unfold newMessage at hNew
  rw [if_neg hType] at hNew
  rcases Option.map_eq_some_iff.mp hNew with
    ⟨other_messages, hStore, hEq⟩
  cases hEq
  exact ⟨rfl, rfl, rfl, rfl, _, hStore⟩

@[simp] theorem fill_lsa_id :
    (c.fill msg).current_lsa_id = c.current_lsa_id := by
  unfold fill
  split_ifs
  · rfl
  · rfl

theorem nextId_mod_two
    (id : Nat) :
    nextId id % 2 = id % 2 := by
  unfold nextId addU32 LS_INVALID_MESSAGE_ID
  dsimp only
  split_ifs
  · omega
  · omega

@[simp] theorem fill_other_id :
    (c.fill msg).current_other_id = c.current_other_id := by
  unfold fill
  split_ifs
  · rfl
  · rfl

/- Advertisements and maps get odd ids, other messages even. -/
structure Parity (c : LsMessageCenter) : Prop where
  lsa : c.current_lsa_id % 2 = 1
  other : c.current_other_id % 2 = 0

theorem parity_new
    (max_size : Nat) :
    (new max_size).Parity := by
  constructor
  case lsa => exact Nat.mod_eq_of_lt Nat.one_lt_two
  case other => exact Nat.mod_self 2

theorem Parity.newMessage
    (hParity : c.Parity)
    (hNew : c.newMessage nodeId type = some (c', msg)) :
    c'.Parity := by
  by_cases hType : type = .LS_MSG_LSA ∨ type = .LS_MSG_TPM
  · rcases newMessage_lsa hType hNew with
      ⟨-, hLsa, hOther, -⟩
    constructor
    case lsa =>
      rw [hLsa, nextId_mod_two]
      exact hParity.lsa
    case other =>
      rw [hOther]
      exact hParity.other
  · rcases newMessage_other hType hNew with
      ⟨-, hOther, hLsa, -⟩
    constructor
    case lsa =>
      rw [hLsa]
      exact hParity.lsa
    case other =>
      rw [hOther, nextId_mod_two]
      exact hParity.other

theorem Parity.fill
    (hParity : c.Parity)
    (msg : LsMessage) :
    (c.fill msg).Parity := by
  constructor
  case lsa =>
    rw [fill_lsa_id]
    exact hParity.lsa
  case other =>
    rw [fill_other_id]
    exact hParity.other

theorem Reachable.parity
    (hReach : c.Reachable) :
    c.Parity := by
  induction hReach with
  | new max_size => exact parity_new max_size
  | newMessage _ hNew ih => exact ih.newMessage hNew
  | fill _ msg ih => exact ih.fill msg
  | deleteMessage _ msgId ih => exact ⟨ih.lsa, ih.other⟩

theorem store_find
    {storage storage' : SortedMap Nat LsMessage}
    (hStore : store storage msg = some storage') :
    storage'.find msg.messageId = some msg ∧
      ∀ id, id ≠ msg.messageId →
        storage'.find id = storage.find id := by
  unfold store at hStore
  split at hStore
  case h_1 hNone =>
    cases hStore
    exact ⟨storage.find_insert_self hNone,
      fun id hNe => storage.find_insert_ne hNe⟩
  case h_2 => cases hStore

/- Making room only takes messages away. -/
theorem find_of_recycle
    {max_size id : Nat}
    {storage : SortedMap Nat LsMessage}
    (hFind : (recycle max_size storage).find id = some msg) :
    storage.find id = some msg := by
  unfold recycle at hFind
  split at hFind
  · exact hFind
  · rename_i e rest hEntries
    split_ifs at hFind
    · by_cases hId : id = e.1
      · rw [hId, SortedMap.find_erase_self] at hFind
        cases hFind
      · rw [SortedMap.find_erase_ne _ hId] at hFind
        exact hFind
    · exact hFind

/- A storage with a new message that was filled in. -/
theorem find_stored
    {max_size id : Nat}
    {storage storage' : SortedMap Nat LsMessage}
    {fresh found : LsMessage}
    (hStore :
      store (recycle max_size storage) fresh = some storage')
    (hId : msg.messageId = fresh.messageId)
    (hFind :
      (storage'.modify msg.messageId fun _ => msg).find id =
        some found) :
    (id = fresh.messageId ∧ found = msg) ∨
      storage.find id = some found := by
  rw [hId] at hFind
  by_cases hNew : id = fresh.messageId
  · subst hNew
    rw [SortedMap.find_modify_self, (store_find hStore).1]
      at hFind
    exact Or.inl ⟨rfl, (Option.some.inj hFind).symm⟩
  · rw [SortedMap.find_modify_ne _ hNew,
      (store_find hStore).2 id hNew] at hFind
    exact Or.inr (find_of_recycle hFind)

theorem fill_odd
    (hOdd : msg.messageId % 2 = 1) :
    c.fill msg =
      { c with
        lsa_messages :=
          c.lsa_messages.modify msg.messageId
            fun _ => msg } := by
  exact if_pos (decide_eq_true hOdd)

theorem fill_even
    (hEven : msg.messageId % 2 = 0) :
    c.fill msg =
      { c with
        other_messages :=
          c.other_messages.modify msg.messageId
            fun _ => msg } := by
  unfold fill isLSA
  rw [hEven]
  rfl

theorem retrieveMessage_odd
    {id : Nat}
    (hOdd : id % 2 = 1) :
    c.retrieveMessage id = c.lsa_messages.find id := by
  exact if_pos (decide_eq_true hOdd)

theorem retrieveMessage_even
    {id : Nat}
    (hEven : id % 2 = 0) :
    c.retrieveMessage id = c.other_messages.find id := by
  unfold retrieveMessage isLSA
  rw [hEven]
  rfl

end LsMessageCenter

end Ns2

------------------------------------------------------------
-- History
------------------------------------------------------------

namespace Ns2

/- The latest sequence number seen of each origin. -/
abbrev LsMessageHistory := SortedMap Int Nat

namespace LsMessageHistory

/- The history remembers a message that is new. -/
def isNewMessage
    (history : LsMessageHistory)
    (msg : LsMessage) : Bool × LsMessageHistory :=
  match history.find msg.originNodeId with
  | some seq =>
      if seq < msg.sequenceNumber ∨
          LS_WRAPAROUND_THRESHOLD <
            subU32 seq msg.sequenceNumber then
        (true, history.modify msg.originNodeId
          fun _ => msg.sequenceNumber)
      else (false, history)
  | none =>
      (true, history.insert msg.originNodeId
        msg.sequenceNumber)

/- A message that is new takes the place of its origin. -/
theorem find_isNewMessage
    {history : LsMessageHistory}
    {msg : LsMessage}
    (hNew : (isNewMessage history msg).1 = true) :
    (isNewMessage history msg).2.find msg.originNodeId =
        some msg.sequenceNumber ∧
      ∀ o, o ≠ msg.originNodeId →
        (isNewMessage history msg).2.find o =
          history.find o := by
  unfold isNewMessage at hNew ⊢
  cases hFind : history.find msg.originNodeId with
  | none =>
      exact ⟨SortedMap.find_insert_self _ hFind,
        fun o ho => SortedMap.find_insert_ne _ ho⟩
  | some seq =>
      rw [hFind] at hNew
      dsimp only at hNew ⊢
      split_ifs at hNew ⊢
      refine ⟨?_, fun o ho => SortedMap.find_modify_ne _ ho⟩
      rw [SortedMap.find_modify_self, hFind]
      rfl

end LsMessageHistory

end Ns2
