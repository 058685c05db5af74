import Ns2.Apps.Rfid.Reader
import Ns2.Lib.PartialRun

/-
  A reader and its tags, with the packets in flight.

  A packet of the reader waits at every tag it is addressed
  to, and a reply of a tag waits for the reader, until it is
  received.  Packets are received in any order, except that
  a channel may keep some packets of the reader behind the
  query replies that were sent before them.  A slot ends when
  a timer expires with no packet in flight.  The last fields
  of the state record the history that no agent sees.

  Main declarations:
    * `World`, `World.start`, `World.act`, `World.run`
    * `World.Step`, `World.run_invariant`
    * `World.Tally`
-/

------------------------------------------------------------
-- World
------------------------------------------------------------

namespace Ns2

namespace Rfid

/- Whether the tag is an addressee of the packet. -/
def Packet.reaches
    (p : Packet)
    (t : Tag) : Bool :=
  decide (p.daddr = IP_BROADCAST) || decide (p.daddr = t.addr)

/-
  `down i` are the packets in flight to tag `i` in sending
  order, and `up` the replies in flight.  `entered` are the
  tags that got acknowledged, in order.  `replied` are those
  that sent a reply in this slot, `polled` in the last one,
  and `mainPolled` in the last one that `rsTimer` ended.
-/
structure World (n : Nat) where
  reader : Reader
  tags : Fin n → Tag
  down : Fin n → List Packet
  up : List Packet
  entered : List (Fin n)
  replied : List (Fin n)
  polled : List (Fin n)
  mainPolled : List (Fin n)

/-
  The end of a slot by one of the timers, the reception of
  the `k`th packet in flight to a tag, and the reception of
  the `k`th reply in flight.
-/
inductive Action (n : Nat) where
| expireRs
| expireCol
| receive (i : Fin n) (k : Nat) (u : Rat)
| answer (k : Nat)
deriving DecidableEq, Repr

namespace World

variable {n : Nat}

/- The reader has moved and its packets are in flight. -/
def post
    (w : World n)
    (next : Reader × List Packet) : World n :=
  { w with
    reader := next.1
    down := fun i =>
      w.down i ++ next.2.filter (·.reaches (w.tags i)) }

/- A session after its start command. -/
def start
    (next : Reader × List Packet)
    (tags : Fin n → Tag) : World n :=
  post ⟨next.1, tags, fun _ => [], [], [], [], [], []⟩ next

/- No packet is in flight. -/
def quiet (w : World n) : Bool :=
  (List.finRange n).all (fun i => (w.down i).isEmpty) &&
    w.up.isEmpty

def expireRs
    (eomlee : Int → Int → Int → Int)
    (w : World n) : World n :=
  { w.post (w.reader.expireRs eomlee) with
    replied := []
    polled := w.replied
    mainPolled := w.replied }

def expireCol
    (eomlee : Int → Int → Int → Int)
    (w : World n) : World n :=
  { w.post (w.reader.expireCol eomlee) with
    replied := []
    polled := w.replied }

/- Tag `i` receives `p` and `rest` stays in flight to it. -/
def receive
    (w : World n)
    (i : Fin n)
    (p : Packet)
    (rest : List Packet)
    (u : Rat) : World n :=
  let next := (w.tags i).recv p u
  { w with
    tags := fun j => if j = i then next.1 else w.tags j
    down := fun j => if j = i then rest else w.down j
    up := w.up ++ next.2
    entered :=
      if (w.tags i).state ≠ .T_ACKNOWLEDGED ∧
          next.1.state = .T_ACKNOWLEDGED then
        w.entered ++ [i]
      else w.entered
    replied :=
      if next.2.isEmpty then w.replied
      else w.replied ++ [i] }

/- The reader receives `p`. -/
def answer
    (w : World n)
    (p : Packet)
    (rest : List Packet) : World n :=
  { w with up := rest }.post (w.reader.recv p)

/-
  One action.  An ordered packet is not received before a
  query reply that was sent before it.
-/
def act
    (eomlee : Int → Int → Int → Int)
    (ordered : Packet → Bool)
    (w : World n) :
    Action n → Option (World n)
| .expireRs =>
    if w.reader.rsTimer ∧ w.quiet then
      some (w.expireRs eomlee)
    else none
| .expireCol =>
    if w.reader.colTimer ∧ w.quiet then
      some (w.expireCol eomlee)
    else none
| .receive i k u =>
    (w.down i)[k]?.bind fun p =>
      if (0 ≤ u ∧ u ≤ 1) ∧ ¬ (ordered p ∧
          ((w.down i).take k).any Packet.isQueryReply) then
        some (w.receive i p ((w.down i).eraseIdx k) u)
      else none
| .answer k =>
    w.up[k]?.map fun p => w.answer p (w.up.eraseIdx k)

/- A sequence of actions. -/
def run
    (eomlee : Int → Int → Int → Int)
    (ordered : Packet → Bool)
    (w : World n)
    (actions : List (Action n)) : Option (World n) :=
  PartialRun.run (act eomlee ordered) w actions

end World

end Rfid

end Ns2

------------------------------------------------------------
-- Steps
------------------------------------------------------------

namespace Ns2

namespace Rfid

namespace World

variable {n : Nat}

/- No packet is in flight. -/
structure Quiet (w : World n) : Prop where
  down : ∀ i, w.down i = []
  up : w.up = []

theorem quiet_iff
    (w : World n) :
    w.quiet = true ↔ w.Quiet := by
  simp only [quiet, Bool.and_eq_true, List.all_eq_true,
    List.mem_finRange, true_implies, List.isEmpty_iff]
  constructor
  · rintro ⟨hDown, hUp⟩
    exact ⟨hDown, hUp⟩
  · rintro ⟨hDown, hUp⟩
    exact ⟨hDown, hUp⟩

/- What an action can do. -/
inductive Step
    (eomlee : Int → Int → Int → Int)
    (ordered : Packet → Bool)
    (w : World n) : World n → Prop
| expireRs
    (hPending : w.reader.rsTimer = true)
    (hQuiet : w.Quiet) :
    Step eomlee ordered w (w.expireRs eomlee)
| expireCol
    (hPending : w.reader.colTimer = true)
    (hQuiet : w.Quiet) :
    Step eomlee ordered w (w.expireCol eomlee)
| receive
    (i : Fin n)
    (before after : List Packet)
    (p : Packet)
    (u : Rat)
    (hDown : w.down i = before ++ p :: after)
    (hOrder : ordered p = true →
      ∀ q ∈ before, q.isQueryReply = false)
    (hu : 0 ≤ u)
    (hu' : u ≤ 1) :
    Step eomlee ordered w (w.receive i p (before ++ after) u)
| answer
    (before after : List Packet)
    (p : Packet)
    (hUp : w.up = before ++ p :: after) :
    Step eomlee ordered w (w.answer p (before ++ after))

/- A list around one of its elements. -/
theorem split_at_index
    {α : Type}
    {xs : List α}
    {k : Nat}
    {x : α}
    (hGet : xs[k]? = some x) :
    xs = xs.take k ++ x :: xs.drop (k + 1) ∧
      xs.eraseIdx k = xs.take k ++ xs.drop (k + 1) := by
  rcases List.getElem?_eq_some_iff.mp hGet with ⟨hk, rfl⟩
  constructor
  · rw [← List.drop_eq_getElem_cons hk, List.take_append_drop]
  · exact List.eraseIdx_eq_take_drop_succ xs k

theorem step_of_act
    {eomlee : Int → Int → Int → Int}
    {ordered : Packet → Bool}
    {w w' : World n}
    {a : Action n}
    (hAct : w.act eomlee ordered a = some w') :
    Step eomlee ordered w w' := by
  cases a with
  | expireRs =>
      simp only [act, Option.ite_none_right_eq_some,
        Option.some.injEq] at hAct
      rcases hAct with ⟨⟨hPending, hQuiet⟩, rfl⟩
      exact .expireRs hPending ((quiet_iff w).mp hQuiet)
  | expireCol =>
      simp only [act, Option.ite_none_right_eq_some,
        Option.some.injEq] at hAct
      rcases hAct with ⟨⟨hPending, hQuiet⟩, rfl⟩
      exact .expireCol hPending ((quiet_iff w).mp hQuiet)
  | receive i k u =>
      simp only [act, Option.bind_eq_some_iff,
        Option.ite_none_right_eq_some,
        Option.some.injEq] at hAct
      rcases hAct with ⟨p, hGet, ⟨⟨hu, hu'⟩, hOrder⟩, rfl⟩
      rcases split_at_index hGet with ⟨hDown, hErase⟩
      rw [hErase]
      apply Step.receive i _ _ p u hDown ?_ hu hu'
      intro hOrdered q hq
      by_contra hReply
      apply hOrder
      refine ⟨hOrdered, List.any_eq_true.mpr ⟨q, hq, ?_⟩⟩
      simpa using hReply
  | answer k =>
      simp only [act, Option.map_eq_some_iff] at hAct
      rcases hAct with ⟨p, hGet, rfl⟩
      rcases split_at_index hGet with ⟨hUp, hErase⟩
      rw [hErase]
      exact .answer _ _ p hUp

/- What every step keeps holds after every run. -/
theorem run_invariant
    {eomlee : Int → Int → Int → Int}
    {ordered : Packet → Bool}
    {P : World n → Prop}
    (hStep : ∀ w w', P w → Step eomlee ordered w w' → P w')
    {w w' : World n}
    {actions : List (Action n)}
    (hw : P w)
    (hRun : w.run eomlee ordered actions = some w') :
    P w' := by
  apply PartialRun.invariant ?_ hw hRun
  intro w a w' hw hAct
  exact hStep w w' hw (step_of_act hAct)

end World

end Rfid

end Ns2

------------------------------------------------------------
-- State after a Step
------------------------------------------------------------

namespace Ns2

namespace Rfid

namespace World

variable {n : Nat}

@[simp] theorem receive_tags_self
    (w : World n)
    (i : Fin n)
    (p : Packet)
    (rest : List Packet)
    (u : Rat) :
    (w.receive i p rest u).tags i =
      ((w.tags i).recv p u).1 :=
  if_pos rfl

theorem receive_tags_ne
    (w : World n)
    {i j : Fin n}
    (hj : j ≠ i)
    (p : Packet)
    (rest : List Packet)
    (u : Rat) :
    (w.receive i p rest u).tags j = w.tags j :=
  if_neg hj

@[simp] theorem receive_down_self
    (w : World n)
    (i : Fin n)
    (p : Packet)
    (rest : List Packet)
    (u : Rat) :
    (w.receive i p rest u).down i = rest :=
  if_pos rfl

theorem receive_down_ne
    (w : World n)
    {i j : Fin n}
    (hj : j ≠ i)
    (p : Packet)
    (rest : List Packet)
    (u : Rat) :
    (w.receive i p rest u).down j = w.down j :=
  if_neg hj

@[simp] theorem receive_reader
    (w : World n)
    (i : Fin n)
    (p : Packet)
    (rest : List Packet)
    (u : Rat) :
    (w.receive i p rest u).reader = w.reader :=
  rfl

@[simp] theorem receive_up
    (w : World n)
    (i : Fin n)
    (p : Packet)
    (rest : List Packet)
    (u : Rat) :
    (w.receive i p rest u).up =
      w.up ++ ((w.tags i).recv p u).2 :=
  rfl

theorem receive_replied_of_silent
    {w : World n}
    {i : Fin n}
    {p : Packet}
    {u : Rat}
    (hOut : ((w.tags i).recv p u).2 = [])
    (rest : List Packet) :
    (w.receive i p rest u).replied = w.replied :=
  if_pos (List.isEmpty_iff.mpr hOut)

theorem receive_replied_of_reply
    {w : World n}
    {i : Fin n}
    {p q : Packet}
    {u : Rat}
    (hOut : ((w.tags i).recv p u).2 = [q])
    (rest : List Packet) :
    (w.receive i p rest u).replied = w.replied ++ [i] :=
  if_neg (by simp [hOut])

/- A packet that no reader answers only changes the reader. -/
theorem answer_eq
    {w : World n}
    {p : Packet}
    {r : Reader}
    (hRecv : w.reader.recv p = (r, []))
    (rest : List Packet) :
    w.answer p rest = { w with reader := r, up := rest } := by
  simp only [answer, post, hRecv, List.filter_nil,
    List.append_nil]

end World

end Rfid

end Ns2

------------------------------------------------------------
-- Acknowledged Tags
------------------------------------------------------------

namespace Ns2

namespace Rfid

namespace World

variable {n : Nat}

/-
  The success counter counts each tag that got acknowledged
  once, and the `target` of the query reply in flight.
-/
structure Tally
    (w : World n)
    (target : Option (Fin n)) : Prop where
  nodup : w.entered.Nodup
  acknowledged : ∀ i ∈ w.entered,
    (w.tags i).state = .T_ACKNOWLEDGED
  pending : ∀ i,
    (w.down i).countP Packet.isQueryReply =
      if target = some i then 1 else 0
  waiting : ∀ i, target = some i →
    (w.tags i).state ≠ .T_ACKNOWLEDGED
  success : w.reader.success =
    w.entered.length + target.toList.length

/- A tag with a query reply in flight is the target. -/
theorem Tally.target_of_mem
    {w : World n}
    {target : Option (Fin n)}
    (hTally : w.Tally target)
    {i : Fin n}
    {p : Packet}
    (hMem : p ∈ w.down i)
    (hReply : p.isQueryReply = true) :
    target = some i := by
  by_contra hNe
  have hPending := hTally.pending i
  rw [if_neg hNe, List.countP_eq_zero] at hPending
  exact hPending p hMem hReply

theorem Tally.not_entered
    {w : World n}
    {target : Option (Fin n)}
    (hTally : w.Tally target)
    {i : Fin n}
    (hState : (w.tags i).state ≠ .T_ACKNOWLEDGED) :
    i ∉ w.entered :=
  fun hMem => hState (hTally.acknowledged i hMem)

/- The target receives its query reply. -/
theorem Tally.receive_reply
    {w : World n}
    {target : Option (Fin n)}
    (hTally : w.Tally target)
    {i : Fin n}
    {before after : List Packet}
    {p : Packet}
    (hDown : w.down i = before ++ p :: after)
    (hReply : p.isQueryReply = true)
    {u : Rat}
    (hState : ((w.tags i).recv p u).1.state =
      .T_ACKNOWLEDGED) :
    (w.receive i p (before ++ after) u).Tally none := by
  have hMem : p ∈ w.down i := by
    rw [hDown]
    simp
  have hTarget := hTally.target_of_mem hMem hReply
  have hWaiting := hTally.waiting i hTarget
  have hEntered :
      (w.receive i p (before ++ after) u).entered =
        w.entered ++ [i] :=
    if_pos ⟨hWaiting, hState⟩
  constructor
  case nodup =>
    rw [hEntered, List.nodup_append]
    refine ⟨hTally.nodup, by simp, ?_⟩
    intro j hj k hk hEq
    cases List.mem_singleton.mp hk
    subst hEq
    exact hTally.not_entered hWaiting hj
  case acknowledged =>
    intro j hj
    by_cases hji : j = i
    · subst hji
      rw [receive_tags_self]
      exact hState
    · rw [receive_tags_ne w hji]
      rw [hEntered] at hj
      apply hTally.acknowledged
      simpa [hji] using hj
  case pending =>
    intro j
    have hPending := hTally.pending j
    by_cases hji : j = i
    · subst hji
      rw [hDown, if_pos hTarget, List.countP_append,
        List.countP_cons, if_pos hReply] at hPending
      rw [receive_down_self, List.countP_append,
        if_neg (by simp)]
      omega
    · rw [receive_down_ne w hji, hPending, hTarget]
      simp [Ne.symm hji]
  case waiting =>
    intro j hj
    cases hj
  case success =>
    rw [receive_reader, hEntered, hTally.success, hTarget]
    simp

/- A reception that does not acknowledge the tag. -/
theorem Tally.receive_other
    {w : World n}
    {target : Option (Fin n)}
    (hTally : w.Tally target)
    {i : Fin n}
    {before after : List Packet}
    {p : Packet}
    (hDown : w.down i = before ++ p :: after)
    (hReply : p.isQueryReply = false)
    {u : Rat}
    (hKeep : i ∈ w.entered →
      ((w.tags i).recv p u).1.state = .T_ACKNOWLEDGED)
    (hState : (w.tags i).state ≠ .T_ACKNOWLEDGED →
      ((w.tags i).recv p u).1.state ≠ .T_ACKNOWLEDGED) :
    (w.receive i p (before ++ after) u).Tally target := by
  have hEntered :
      (w.receive i p (before ++ after) u).entered =
        w.entered :=
    if_neg fun h => hState h.1 h.2
  constructor
  case nodup =>
    rw [hEntered]
    exact hTally.nodup
  case acknowledged =>
    intro j hj
    rw [hEntered] at hj
    by_cases hji : j = i
    · subst hji
      rw [receive_tags_self]
      exact hKeep hj
    · rw [receive_tags_ne w hji]
      exact hTally.acknowledged j hj
  case pending =>
    intro j
    have hPending := hTally.pending j
    by_cases hji : j = i
    · subst hji
      rw [hDown] at hPending
      rw [receive_down_self, ← hPending]
      simp [hReply]
    · rw [receive_down_ne w hji]
      exact hPending
  case waiting =>
    intro j hj
    have hWaiting := hTally.waiting j hj
    by_cases hji : j = i
    · subst hji
      rw [receive_tags_self]
      exact hState hWaiting
    · rw [receive_tags_ne w hji]
      exact hWaiting
  case success =>
    rw [receive_reader, hEntered]
    exact hTally.success

/- The reader hears a reply and does not count a success. -/
theorem Tally.answer
    {w : World n}
    {target : Option (Fin n)}
    (hTally : w.Tally target)
    {p : Packet}
    {r : Reader}
    (hRecv : w.reader.recv p = (r, []))
    (hSuccess : r.success = w.reader.success)
    (rest : List Packet) :
    (w.answer p rest).Tally target := by
  rw [answer_eq hRecv]
  constructor
  case nodup => exact hTally.nodup
  case acknowledged => exact hTally.acknowledged
  case pending => exact hTally.pending
  case waiting => exact hTally.waiting
  case success => exact hSuccess.trans hTally.success

/- No query reply is in flight when nothing is. -/
theorem Tally.target_of_quiet
    {w : World n}
    {target : Option (Fin n)}
    (hTally : w.Tally target)
    (hDown : ∀ i, w.down i = []) :
    target = none := by
  cases target with
  | none => rfl
  | some i =>
      have hPending := hTally.pending i
      rw [hDown i] at hPending
      simp at hPending

/-
  The end of a slot: the new state `w'` has the tags of `w`,
  and a query reply in flight is counted.
-/
theorem Tally.end_slot
    {w w' : World n}
    {target : Option (Fin n)}
    (hTally : w.Tally target)
    (hDown : ∀ i, w.down i = [])
    {target' : Option (Fin n)}
    (hTags : w'.tags = w.tags)
    (hEntered : w'.entered = w.entered)
    (hPending : ∀ i,
      (w'.down i).countP Packet.isQueryReply =
        if target' = some i then 1 else 0)
    (hWaiting : ∀ i, target' = some i →
      (w.tags i).state ≠ .T_ACKNOWLEDGED)
    (hSuccess : w'.reader.success =
      w.reader.success + target'.toList.length) :
    w'.Tally target' := by
  have hTarget := hTally.target_of_quiet hDown
  subst hTarget
  constructor
  case nodup =>
    rw [hEntered]
    exact hTally.nodup
  case acknowledged =>
    rw [hEntered, hTags]
    exact hTally.acknowledged
  case pending => exact hPending
  case waiting =>
    rw [hTags]
    exact hWaiting
  case success =>
    rw [hSuccess, hTally.success, hEntered]
    simp

end World

end Rfid

end Ns2
