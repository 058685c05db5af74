import Ns2.Routing.Adjacency

/-
  Links inserted and removed one after another, into a matrix
  that starts empty and grows.

  The costs are those written last. The entries are, too, when
  the matrix does not grow any more after the last entry of a
  pair has been given; `RouteLogic::check` copies no entries.

  Main declarations:
    * `RouteLogic.Op`, `RouteLogic.run`
    * `RouteLogic.lastCost`, `RouteLogic.lastEntry`

  Correctness is proven by:
    * `RouteLogic.run_faithful_iff`
-/

------------------------------------------------------------
-- Operations
------------------------------------------------------------

namespace Ns2

namespace RouteLogic

variable {ε : Type}

/- A null pointer for an entry is `none`. -/
inductive Op (ε : Type) where
| insert (src dst : Nat) (cost : Rat)
| insertEntry
    (src dst : Nat)
    (cost : Rat)
    (entry_ : Option ε)
| reset (src dst : Nat)

/-
  `check`, with the number of new cells computed in an `int`.
-/
def checked
    (r : RouteLogic ε)
    (n : Nat) : Option (RouteLogic ε) :=
  if n < r.size_ then some r
  else if r.grown n * r.grown n < 2 ^ 31 then
    some (r.check n)
  else none

def write
    (r : RouteLogic ε)
    (src dst : Nat)
    (change : adj_entry ε → adj_entry ε) : RouteLogic ε :=
  { r with
    adj_ :=
      Function.update r.adj_ (INDEX src dst r.size_)
        (change (r.adj_ (INDEX src dst r.size_))) }

/- Resetting asserts that both numbers are in the matrix. -/
def perform
    (r : RouteLogic ε) : Op ε → Option (RouteLogic ε)
  | .insert src dst cost => do
      let r ← r.checked src
      let r ← r.checked dst
      return r.write src dst fun old =>
        { old with cost := cost }
  | .insertEntry src dst cost entry_ => do
      let r ← r.checked src
      let r ← r.checked dst
      return r.write src dst fun _ => ⟨cost, entry_⟩
  | .reset src dst =>
      if src < r.size_ ∧ dst < r.size_ then
        some (r.reset src dst)
      else none

def run
    (r : RouteLogic ε)
    (ops : List (Op ε)) : Option (RouteLogic ε) :=
  ops.foldlM perform r

/- No matrix has been allocated yet. -/
def empty : RouteLogic ε :=
  ⟨fun _ => ⟨INFINITY, none⟩, fun _ => ⟨0, none⟩, 0⟩

/- What the matrix holds; nothing outside of it. -/
def cell
    (r : RouteLogic ε)
    (i j : Nat) : adj_entry ε :=
  if i < r.size_ ∧ j < r.size_ then
    r.adj_ (INDEX i j r.size_)
  else ⟨INFINITY, none⟩

end RouteLogic

end Ns2

------------------------------------------------------------
-- What Is Written Last
------------------------------------------------------------

namespace Ns2

namespace RouteLogic

variable {ε : Type}

namespace Op

/- The pair that is written to. -/
def pair : Op ε → Nat × Nat
  | .insert src dst _ => (src, dst)
  | .insertEntry src dst _ _ => (src, dst)
  | .reset src dst => (src, dst)

def cost : Op ε → Rat
  | .insert _ _ cost => cost
  | .insertEntry _ _ cost _ => cost
  | .reset _ _ => INFINITY

/- The entry that an operation gives to a pair, if any. -/
def gives (i j : Nat) : Op ε → Option (Option ε)
  | .insertEntry src dst _ entry_ =>
      if (i, j) = (src, dst) then some entry_ else none
  | _ => none

/- The numbers that the matrix has to be large enough for. -/
def nodes : Op ε → List Nat
  | .insert src dst _ => [src, dst]
  | .insertEntry src dst _ _ => [src, dst]
  | .reset _ _ => []

/- The numbers that have to be in the matrix already. -/
def inside : Op ε → List Nat
  | .reset src dst => [src, dst]
  | _ => []

end Op

def lastCost (i j : Nat) (ops : List (Op ε)) : Rat :=
  ops.foldl
    (fun last op =>
      if op.pair = (i, j) then op.cost else last)
    INFINITY

def lastEntry (i j : Nat) (ops : List (Op ε)) : Option ε :=
  ops.foldl (fun last op => (op.gives i j).getD last) none

def Faithful
    (r : RouteLogic ε)
    (ops : List (Op ε)) : Prop :=
  ∀ i j, r.cell i j = ⟨lastCost i j ops, lastEntry i j ops⟩

/- The size of the matrix after node numbers were checked. -/
def sizeFor (size n : Nat) : Nat :=
  if n < size then size
  else doubled n (if size = 0 then 16 else size)

def sizeAfter (ops : List (Op ε)) : Nat :=
  (ops.flatMap Op.nodes).foldl sizeFor 0

/- No number makes the matrix too large for an `int`. -/
def Countable (ops : List (Op ε)) : Prop :=
  ∀ op ∈ ops, ∀ n ∈ op.nodes, n < 2 ^ 15

/- Links are removed between known nodes only. -/
def ResetsInside (ops : List (Op ε)) : Prop :=
  ∀ pre op post, ops = pre ++ op :: post →
    ∀ n ∈ op.inside, n < sizeAfter pre

/-
  Once a pair has got the last of its entries, no node number
  is beyond the matrix.
-/
def Settled (ops : List (Op ε)) : Prop :=
  ∀ pre op post i j e,
    ops = pre ++ op :: post →
    op.gives i j = some (some e) →
    (∀ later ∈ post, later.gives i j = none) →
    ∀ later ∈ post, ∀ n ∈ later.nodes,
      n < sizeAfter (pre ++ [op])

end RouteLogic

end Ns2

------------------------------------------------------------
-- Growing
------------------------------------------------------------

namespace Ns2

namespace RouteLogic

variable {ε : Type}
variable {r s : RouteLogic ε}
variable {op : Op ε}
variable {ops : List (Op ε)}
variable {n i j src dst : Nat}

theorem check_size :
    (r.check n).size_ = sizeFor r.size_ n := by
  unfold sizeFor
  by_cases hEnough : n < r.size_
  · rw [check_enough hEnough, if_pos hEnough]
  · rw [check_size_grown hEnough, if_neg hEnough]
    rfl

/- Sizes are powers of two that an `int` can square. -/
def Sized (r : RouteLogic ε) : Prop :=
  r.size_ = 0 ∨ ∃ k, k ≤ 15 ∧ r.size_ = 2 ^ k

theorem doubled_pow
    {m k : Nat}
    (hPow : m = 2 ^ k) :
    ∃ l, doubled n m = 2 ^ l ∧
      (n < 2 ^ 15 → k ≤ 15 → l ≤ 15) := by
  induction m using doubled.induct n generalizing k with
  | case1 m hMore ih =>
      rw [doubled, if_pos hMore]
      have hTwice : 2 * m = 2 ^ (k + 1) := by
        rw [hPow, Nat.pow_succ]
        omega
      rcases ih hTwice with ⟨l, hEq, hSmall⟩
      refine ⟨l, hEq, fun hn hk => hSmall hn ?_⟩
      have hBelow : 2 ^ k < 2 ^ 15 := by omega
      exact (Nat.pow_lt_pow_iff_right (by decide)).mp hBelow
  | case2 m hEnough =>
      rw [doubled, if_neg hEnough]
      exact ⟨k, hPow, fun _ hk => hk⟩

theorem Sized.grown
    (hSized : r.Sized) :
    ∃ l, r.grown n = 2 ^ l ∧ (n < 2 ^ 15 → l ≤ 15) := by
  have hStart : ∃ k, k ≤ 15 ∧
      (if r.size_ = 0 then 16 else r.size_) = 2 ^ k := by
    rcases hSized with hZero | ⟨k, hk, hSize⟩
    · exact ⟨4, by decide, if_pos hZero⟩
    · refine ⟨k, hk, ?_⟩
      rw [if_neg (hSize ▸ (Nat.two_pow_pos k).ne'), hSize]
  rcases hStart with ⟨k, hk, hSize⟩
  rcases doubled_pow (n := n) hSize with ⟨l, hEq, hSmall⟩
  exact ⟨l, hEq, fun hn => hSmall hn hk⟩

theorem Sized.check
    (hSized : r.Sized)
    (hn : n < 2 ^ 15) : (r.check n).Sized := by
  by_cases hEnough : n < r.size_
  · rw [check_enough hEnough]
    exact hSized
  · rcases hSized.grown (n := n) with ⟨l, hEq, hSmall⟩
    exact Or.inr
      ⟨l, hSmall hn, (check_size_grown hEnough).trans hEq⟩

/- The number of cells fits for numbers below 2^15. -/
theorem Sized.checked_iff
    (hSized : r.Sized) :
    r.checked n = some s ↔ n < 2 ^ 15 ∧ s = r.check n := by
  unfold checked
  by_cases hEnough : n < r.size_
  · have hn : n < 2 ^ 15 := by
      rcases hSized with hZero | ⟨k, hk, hSize⟩
      · omega
      · have hTop : 2 ^ k ≤ 2 ^ 15 :=
          Nat.pow_le_pow_right (by decide) hk
        omega
    rw [if_pos hEnough, check_enough hEnough, Option.some_inj]
    exact ⟨fun h => ⟨hn, h.symm⟩, fun h => h.2.symm⟩
  · rw [if_neg hEnough]
    rcases hSized.grown (n := n) with ⟨l, hEq, hSmall⟩
    have hAbove : n < 2 ^ l := hEq ▸ grown_spec.1
    have hFits : r.grown n * r.grown n < 2 ^ 31 ↔
        n < 2 ^ 15 := by
      rw [hEq, ← Nat.pow_add,
        Nat.pow_lt_pow_iff_right (by decide)]
      constructor
      · intro hl
        have hTop : 2 ^ l ≤ 2 ^ 15 :=
          Nat.pow_le_pow_right (by decide) (by omega)
        omega
      · intro hn
        have hl := hSmall hn
        omega
    by_cases hn : n < 2 ^ 15
    · rw [if_pos (hFits.mpr hn), Option.some_inj]
      exact ⟨fun h => ⟨hn, h.symm⟩, fun h => h.2.symm⟩
    · rw [if_neg (fun h => hn (hFits.mp h))]
      exact ⟨nofun, fun h => absurd h.1 hn⟩

/- A larger matrix holds the costs, and no entries. -/
theorem cell_check :
    (r.check n).cell i j =
      ⟨(r.cell i j).cost,
        if n < r.size_ then (r.cell i j).entry else none⟩ := by
  by_cases hEnough : n < r.size_
  · rw [check_enough hEnough, if_pos hEnough]
  · rw [if_neg hEnough]
    have hGrown := (grown_spec (r := r) (n := n)).2
    unfold cell
    rw [check_size_grown hEnough]
    by_cases hInside : i < r.grown n ∧ j < r.grown n
    · have hAdj := check_adj (i := i) hEnough hInside.2
      unfold ADJ ADJ_ENTRY at hAdj
      rw [check_size_grown hEnough] at hAdj
      have hCost := hAdj.1.trans
        (apply_ite adj_entry.cost
          (i < r.size_ ∧ j < r.size_)
          (r.adj_ (INDEX i j r.size_)) ⟨INFINITY, none⟩).symm
      rw [if_pos hInside]
      exact congrArg₂ adj_entry.mk hCost hAdj.2
    · have hOutside : ¬ (i < r.size_ ∧ j < r.size_) := by
        omega
      rw [if_neg hInside, if_neg hOutside]

end RouteLogic

end Ns2

------------------------------------------------------------
-- One Operation
------------------------------------------------------------

namespace Ns2

namespace RouteLogic

variable {ε : Type}
variable {r s : RouteLogic ε}
variable {op : Op ε}
variable {n i j src dst : Nat}

/- What an operation makes of the cell of its pair. -/
def Op.change : Op ε → adj_entry ε → adj_entry ε
  | .insert _ _ cost, old => { old with cost := cost }
  | .insertEntry _ _ cost entry_, _ => ⟨cost, entry_⟩
  | .reset _ _, old => { old with cost := INFINITY }

def after
    (r : RouteLogic ε)
    (op : Op ε) : RouteLogic ε :=
  (op.nodes.foldl check r).write op.pair.1 op.pair.2
    op.change

theorem Sized.perform_iff
    (hSized : r.Sized) :
    r.perform op = some s ↔
      (∀ n ∈ op.nodes, n < 2 ^ 15) ∧
        (∀ n ∈ op.inside, n < r.size_) ∧ s = r.after op := by
  have hTwo : ∀ (src dst : Nat) change,
      ((r.checked src).bind fun r =>
          (r.checked dst).bind fun r =>
            some (r.write src dst change)) = some s ↔
        (src < 2 ^ 15 ∧ dst < 2 ^ 15) ∧
          s = ((r.check src).check dst).write src dst
            change := by
    intro src dst change
    constructor
    · intro hPerform
      rcases Option.bind_eq_some_iff.mp hPerform with
        ⟨a, hFirst, hRest⟩
      rcases Option.bind_eq_some_iff.mp hRest with
        ⟨b, hSecond, hWrite⟩
      rcases hSized.checked_iff.mp hFirst with ⟨hSrc, rfl⟩
      rcases (hSized.check hSrc).checked_iff.mp hSecond with
        ⟨hDst, rfl⟩
      exact ⟨⟨hSrc, hDst⟩, (Option.some.inj hWrite).symm⟩
    · intro hPerform
      rcases hPerform with ⟨⟨hSrc, hDst⟩, rfl⟩
      rw [hSized.checked_iff.mpr ⟨hSrc, rfl⟩, Option.bind_some,
        (hSized.check hSrc).checked_iff.mpr ⟨hDst, rfl⟩]
      rfl
  cases op with
  | insert src dst cost =>
      refine
        (hTwo src dst (Op.insert src dst cost).change).trans ?_
      simp [Op.nodes, Op.inside, Op.pair, after]
  | insertEntry src dst cost entry_ =>
      refine
        (hTwo src dst
          (Op.insertEntry src dst cost entry_).change).trans ?_
      simp [Op.nodes, Op.inside, Op.pair, after]
  | reset src dst =>
      have hReset : r.reset src dst = r.after (.reset src dst) :=
        rfl
      have hBoth :
          (∀ n ∈ (Op.reset src dst : Op ε).inside,
            n < r.size_) ↔ src < r.size_ ∧ dst < r.size_ := by
        rw [Op.inside, List.forall_mem_cons,
          List.forall_mem_singleton]
      rw [hBoth, ← hReset]
      by_cases hInside : src < r.size_ ∧ dst < r.size_
      · have hPerform : r.perform (.reset src dst) =
            some (r.reset src dst) :=
          if_pos hInside
        rw [hPerform, Option.some_inj]
        exact ⟨fun h => ⟨nofun, hInside, h.symm⟩,
          fun h => h.2.2.symm⟩
      · have hPerform : r.perform (.reset src dst) = none :=
          if_neg hInside
        rw [hPerform]
        exact ⟨nofun, fun h => absurd h.2.1 hInside⟩

theorem foldl_check_size
    (ns : List Nat) :
    (ns.foldl check r).size_ = ns.foldl sizeFor r.size_ := by
  induction ns generalizing r with
  | nil => rfl
  | cons n ns ih =>
      rw [List.foldl_cons, ih, check_size]
      rfl

theorem le_sizeFor {size : Nat} :
    size ≤ sizeFor size n ∧ n < sizeFor size n := by
  unfold sizeFor
  by_cases hEnough : n < size
  · rw [if_pos hEnough]
    exact ⟨le_rfl, hEnough⟩
  · rw [if_neg hEnough]
    by_cases hZero : size = 0
    · rw [if_pos hZero]
      have hSpec := @doubled_spec n 16 (by decide)
      omega
    · rw [if_neg hZero]
      have hSpec :=
        doubled_spec (n := n) (Nat.pos_of_ne_zero hZero)
      omega

/- The sizes only grow, and cover the numbers checked. -/
theorem le_foldl_sizeFor
    {size : Nat}
    (ns : List Nat) :
    size ≤ ns.foldl sizeFor size ∧
      ∀ n ∈ ns, n < ns.foldl sizeFor size := by
  induction ns generalizing size with
  | nil => exact ⟨le_rfl, by simp⟩
  | cons m ns ih =>
      have hFirst := @le_sizeFor m size
      rcases @ih (sizeFor size m) with ⟨hLe, hRest⟩
      refine ⟨hFirst.1.trans hLe, fun n hn => ?_⟩
      rcases List.mem_cons.mp hn with rfl | hn
      · exact hFirst.2.trans_le hLe
      · exact hRest n hn

theorem cell_foldl_check
    (ns : List Nat) :
    (ns.foldl check r).cell i j =
      ⟨(r.cell i j).cost,
        if ∀ n ∈ ns, n < r.size_ then (r.cell i j).entry
        else none⟩ := by
  induction ns generalizing r with
  | nil => simp
  | cons n ns ih =>
      rw [List.foldl_cons, ih, cell_check]
      by_cases hEnough : n < r.size_
      · simp [hEnough, check_enough hEnough]
      · simp [hEnough]

theorem cell_write
    {change : adj_entry ε → adj_entry ε}
    (hSrc : src < r.size_)
    (hDst : dst < r.size_) :
    (r.write src dst change).cell i j =
      if (src, dst) = (i, j) then change (r.cell i j)
      else r.cell i j := by
  by_cases hPair : (src, dst) = (i, j)
  · rw [if_pos hPair]
    cases hPair
    unfold cell write
    rw [if_pos ⟨hSrc, hDst⟩, if_pos ⟨hSrc, hDst⟩]
    exact Function.update_self _ _ _
  · rw [if_neg hPair]
    unfold cell write
    by_cases hInside : i < r.size_ ∧ j < r.size_
    · rw [if_pos hInside, if_pos hInside]
      apply Function.update_of_ne
      intro hIndex
      have hRow := INDEX_row hInside.2 hDst hIndex
      rw [hRow] at hIndex hPair
      exact hPair (by rw [INDEX_inj hIndex])
    · rw [if_neg hInside, if_neg hInside]

/- The effect of an operation on every cell. -/
theorem cell_after
    (hInside : ∀ n ∈ op.inside, n < r.size_) :
    (r.after op).cell i j =
      ⟨if op.pair = (i, j) then op.cost else (r.cell i j).cost,
        (op.gives i j).getD
          (if ∀ n ∈ op.nodes, n < r.size_ then
            (r.cell i j).entry else none)⟩ := by
  have hCovers := @le_foldl_sizeFor r.size_ op.nodes
  have hPair : op.pair.1 < (op.nodes.foldl check r).size_ ∧
      op.pair.2 < (op.nodes.foldl check r).size_ := by
    rw [foldl_check_size]
    cases op with
    | insert src dst cost =>
        exact ⟨hCovers.2 src (by simp [Op.nodes]),
          hCovers.2 dst (by simp [Op.nodes])⟩
    | insertEntry src dst cost entry_ =>
        exact ⟨hCovers.2 src (by simp [Op.nodes]),
          hCovers.2 dst (by simp [Op.nodes])⟩
    | reset src dst =>
        exact ⟨hInside src (by simp [Op.inside]),
          hInside dst (by simp [Op.inside])⟩
  unfold after
  rw [cell_write hPair.1 hPair.2, cell_foldl_check]
  by_cases hHere : op.pair = (i, j)
  · rw [if_pos hHere, if_pos hHere]
    cases op <;> cases hHere <;> simp [Op.change, Op.gives, Op.cost]
  · rw [if_neg hHere, if_neg hHere]
    have hNone : op.gives i j = none := by
      cases op with
      | insert src dst cost => rfl
      | insertEntry src dst cost entry_ =>
          exact if_neg (fun hSame => hHere hSame.symm)
      | reset src dst => rfl
    rw [hNone]
    rfl

theorem after_size :
    (r.after op).size_ = op.nodes.foldl sizeFor r.size_ :=
  foldl_check_size op.nodes

theorem foldl_sizeFor_enough
    {size : Nat}
    {ns : List Nat}
    (hEnough : ∀ n ∈ ns, n < size) :
    ns.foldl sizeFor size = size := by
  induction ns with
  | nil => rfl
  | cons n ns ih =>
      rcases List.forall_mem_cons.mp hEnough with ⟨hn, hns⟩
      have hFirst : sizeFor size n = size := if_pos hn
      rw [List.foldl_cons, hFirst, ih hns]

theorem Sized.after
    (hSized : r.Sized)
    (hNodes : ∀ n ∈ op.nodes, n < 2 ^ 15) :
    (r.after op).Sized := by
  have hFold : ∀ (ns : List Nat) (r : RouteLogic ε),
      r.Sized → (∀ n ∈ ns, n < 2 ^ 15) →
        (ns.foldl RouteLogic.check r).Sized := by
    intro ns
    induction ns with
    | nil => exact fun r hr _ => hr
    | cons n ns ih =>
        exact fun r hr hAll => ih _
          (hr.check (hAll n List.mem_cons_self))
          (fun m hm => hAll m (List.mem_cons_of_mem _ hm))
  exact hFold op.nodes r hSized hNodes

end RouteLogic

end Ns2

------------------------------------------------------------
-- Runs
------------------------------------------------------------

namespace Ns2

namespace RouteLogic

variable {ε : Type}
variable {r s : RouteLogic ε}
variable {op : Op ε}
variable {ops pre post : List (Op ε)}
variable {i j : Nat}

theorem run_cons :
    r.run (op :: ops) =
      (r.perform op).bind fun s => s.run ops :=
  rfl

theorem run_append :
    r.run (pre ++ post) =
      (r.run pre).bind fun s => s.run post :=
  List.foldlM_append

/- When a run from any matrix goes through. -/
theorem Sized.run_iff
    (hSized : r.Sized) :
    r.run ops = some s ↔
      Countable ops ∧
        (∀ pre op post, ops = pre ++ op :: post →
          ∀ n ∈ op.inside,
            n < (pre.flatMap Op.nodes).foldl sizeFor
              r.size_) ∧
        s = ops.foldl RouteLogic.after r := by
  induction ops generalizing r with
  | nil =>
      constructor
      · intro hRun
        exact ⟨nofun, by simp, (Option.some.inj hRun).symm⟩
      · rintro ⟨-, -, rfl⟩
        rfl
  | cons op ops ih =>
      rw [run_cons]
      constructor
      · intro hRun
        rcases Option.bind_eq_some_iff.mp hRun with
          ⟨t, hFirst, hRest⟩
        rcases hSized.perform_iff.mp hFirst with
          ⟨hNodes, hInside, rfl⟩
        rcases (ih (hSized.after hNodes)).mp hRest with
          ⟨hCount, hResets, rfl⟩
        refine ⟨List.forall_mem_cons.mpr ⟨hNodes, hCount⟩,
          ?_, rfl⟩
        intro pre op' post hSplit
        rcases List.cons_eq_append_iff.mp hSplit with
          ⟨rfl, hHere⟩ | ⟨pre', rfl, hLater⟩
        · cases hHere
          exact hInside
        · rw [List.flatMap_cons, List.foldl_append,
            ← after_size]
          exact hResets pre' op' post hLater
      · rintro ⟨hCount, hResets, rfl⟩
        rcases List.forall_mem_cons.mp hCount with
          ⟨hNodes, hRest⟩
        have hInside := hResets [] op ops rfl
        rw [hSized.perform_iff.mpr ⟨hNodes, hInside, rfl⟩,
          Option.bind_some,
          ih (hSized.after hNodes)]
        refine ⟨hRest, fun pre op' post hSplit => ?_, rfl⟩
        have hLater :=
          hResets (op :: pre) op' post (by rw [hSplit]; rfl)
        rw [List.flatMap_cons, List.foldl_append,
          ← after_size] at hLater
        exact hLater

theorem Sized.run_step
    (hSized : r.Sized)
    (hRun : r.run (op :: ops) = some s) :
    ∃ t, t.Sized ∧ t.run ops = some s ∧ t = r.after op ∧
      ∀ n ∈ op.inside, n < r.size_ := by
  rcases Option.bind_eq_some_iff.mp hRun with
    ⟨t, hFirst, hRest⟩
  rcases hSized.perform_iff.mp hFirst with
    ⟨hNodes, hInside, hAfter⟩
  exact ⟨t, hAfter ▸ hSized.after hNodes, hRest, hAfter,
    hInside⟩

theorem Sized.run
    (hSized : r.Sized)
    (hRun : r.run ops = some s) : s.Sized := by
  induction ops generalizing r with
  | nil => exact Option.some.inj hRun ▸ hSized
  | cons op ops ih =>
      rcases hSized.run_step hRun with
        ⟨t, hNext, hRest, -, -⟩
      exact ih hNext hRest

theorem Sized.run_cost
    (hSized : r.Sized)
    (hRun : r.run ops = some s) :
    (s.cell i j).cost =
      ops.foldl
        (fun last op =>
          if op.pair = (i, j) then op.cost else last)
        (r.cell i j).cost := by
  induction ops generalizing r with
  | nil =>
      rw [← Option.some.inj hRun]
      rfl
  | cons op ops ih =>
      rcases hSized.run_step hRun with
        ⟨t, hNext, hRest, rfl, hInside⟩
      rw [ih hNext hRest, cell_after hInside]
      rfl

/-
  While no operation gives an entry to a pair, the pair keeps
  its entry just when the matrix does not grow.
-/
theorem Sized.run_entry
    (hSized : r.Sized)
    (hRun : r.run ops = some s)
    (hNone : ∀ op ∈ ops, op.gives i j = none) :
    (s.cell i j).entry =
      if ∀ op ∈ ops, ∀ n ∈ op.nodes, n < r.size_ then
        (r.cell i j).entry
      else none := by
  induction ops generalizing r with
  | nil =>
      rw [← Option.some.inj hRun]
      simp
  | cons op ops ih =>
      rcases List.forall_mem_cons.mp hNone with
        ⟨hHere, hLater⟩
      rcases hSized.run_step hRun with
        ⟨t, hNext, hRest, rfl, hInside⟩
      rw [ih hNext hRest hLater, cell_after hInside, hHere,
        Option.getD_none]
      by_cases hEnough : ∀ n ∈ op.nodes, n < r.size_
      · have hSame : (r.after op).size_ = r.size_ :=
          after_size.trans (foldl_sizeFor_enough hEnough)
        have hAll :
            (∀ op' ∈ op :: ops, ∀ n ∈ op'.nodes, n < r.size_) ↔
              ∀ op' ∈ ops, ∀ n ∈ op'.nodes, n < r.size_ := by
          rw [List.forall_mem_cons]
          exact and_iff_right hEnough
        rw [hSame, if_pos hEnough, if_congr hAll rfl rfl]
      · rw [if_neg hEnough, ite_self]
        exact (if_neg fun hAll =>
          hEnough (hAll op List.mem_cons_self)).symm

/- Some operation is the last to give a pair an entry. -/
theorem last_gives
    (i j : Nat)
    (ops : List (Op ε)) :
    (∀ op ∈ ops, op.gives i j = none) ∨
      ∃ pre op post e,
        ops = pre ++ op :: post ∧ op.gives i j = some e ∧
          ∀ later ∈ post, later.gives i j = none := by
  induction ops with
  | nil => exact Or.inl nofun
  | cons op ops ih =>
      rcases ih with hNone | ⟨pre, op', post, e, rfl, hSplit⟩
      · cases hHere : op.gives i j with
        | none =>
            exact Or.inl
              (List.forall_mem_cons.mpr ⟨hHere, hNone⟩)
        | some e =>
            exact Or.inr ⟨[], op, ops, e, rfl, hHere, hNone⟩
      · exact Or.inr
          ⟨op :: pre, op', post, e, rfl, hSplit⟩

theorem lastEntry_append
    (hNone : ∀ op ∈ post, op.gives i j = none) :
    lastEntry i j (pre ++ post) = lastEntry i j pre := by
  unfold lastEntry
  rw [List.foldl_append]
  generalize pre.foldl _ none = last
  induction post with
  | nil => rfl
  | cons op post ih =>
      rcases List.forall_mem_cons.mp hNone with
        ⟨hHere, hLater⟩
      rw [List.foldl_cons, hHere]
      exact ih hLater

theorem lastEntry_gives
    {e : Option ε}
    (hGives : op.gives i j = some e) :
    lastEntry i j (pre ++ [op]) = e := by
  unfold lastEntry
  rw [List.foldl_append, List.foldl_cons, hGives]
  rfl

theorem empty_sized : (empty : RouteLogic ε).Sized :=
  Or.inl rfl

theorem foldl_after_size
    (r : RouteLogic ε)
    (ops : List (Op ε)) :
    (ops.foldl after r).size_ =
      (ops.flatMap Op.nodes).foldl sizeFor r.size_ := by
  induction ops generalizing r with
  | nil => rfl
  | cons op ops ih =>
      rw [List.foldl_cons, ih, after_size, List.flatMap_cons,
        List.foldl_append]

theorem run_empty_iff :
    empty.run ops = some s ↔
      Countable ops ∧ ResetsInside ops ∧
        s = ops.foldl after empty :=
  empty_sized.run_iff

theorem cell_empty :
    (empty : RouteLogic ε).cell i j = ⟨INFINITY, none⟩ :=
  ite_self _

theorem run_lastCost
    (hRun : empty.run ops = some s) :
    (s.cell i j).cost = lastCost i j ops := by
  rw [empty_sized.run_cost hRun, cell_empty]
  rfl

/- The entry after the last operation that gives one. -/
theorem run_gives
    {e : Option ε}
    (hRun : empty.run (pre ++ op :: post) = some s)
    (hGives : op.gives i j = some e)
    (hNone : ∀ later ∈ post, later.gives i j = none) :
    (s.cell i j).entry =
      if ∀ later ∈ post, ∀ n ∈ later.nodes,
          n < sizeAfter (pre ++ [op])
      then e
      else none := by
  rw [run_append] at hRun
  rcases Option.bind_eq_some_iff.mp hRun with
    ⟨t, hPre, hRest⟩
  have hSized := empty_sized.run hPre
  rcases run_empty_iff.mp hPre with ⟨-, -, rfl⟩
  rcases hSized.run_step hRest with
    ⟨u, hNext, hPost, rfl, hInside⟩
  have hSize : ((pre.foldl after empty).after op).size_ =
      sizeAfter (pre ++ [op]) := by
    have hFold := foldl_after_size (empty : RouteLogic ε)
      (pre ++ [op])
    rw [List.foldl_append] at hFold
    exact hFold
  rw [hNext.run_entry hPost hNone, hSize, cell_after hInside,
    hGives]
  rfl

/-
  Which sequences leave every pair with the cost and the
  entry it was given last.
-/
theorem run_faithful_iff
    (ops : List (Op ε)) :
    (∃ r, empty.run ops = some r ∧ r.Faithful ops) ↔
      Countable ops ∧ ResetsInside ops ∧ Settled ops := by
  constructor
  · rintro ⟨r, hRun, hFaithful⟩
    rcases run_empty_iff.mp hRun with ⟨hCount, hResets, -⟩
    refine ⟨hCount, hResets, ?_⟩
    intro pre op post i j e hSplit hGives hNone
    have hEntry := congrArg adj_entry.entry (hFaithful i j)
    rw [hSplit] at hRun
    rw [run_gives hRun hGives hNone, hSplit,
      List.append_cons pre op post, lastEntry_append hNone,
      lastEntry_gives hGives] at hEntry
    by_contra hGrows
    rw [if_neg hGrows] at hEntry
    exact absurd hEntry nofun
  · rintro ⟨hCount, hResets, hSettled⟩
    have hEnds : ∃ s, empty.run ops = some s :=
      ⟨_, run_empty_iff.mpr ⟨hCount, hResets, rfl⟩⟩
    rcases hEnds with ⟨s, hRun⟩
    refine ⟨s, hRun, fun i j => ?_⟩
    have hEntry : (s.cell i j).entry = lastEntry i j ops := by
      rcases last_gives i j ops with
        hNone | ⟨pre, op, post, e, hSplit, hGives, hNone⟩
      · have hNever := @lastEntry_append ε [] ops i j hNone
        rw [empty_sized.run_entry hRun hNone, cell_empty,
          ite_self]
        exact hNever.symm
      · rw [hSplit] at hRun
        rw [hSplit, run_gives hRun hGives hNone,
          List.append_cons pre op post, lastEntry_append hNone,
          lastEntry_gives hGives]
        cases e with
        | none => exact ite_self _
        | some e =>
            exact if_pos
              (hSettled pre op post i j e hSplit hGives hNone)
    exact congrArg₂ adj_entry.mk (run_lastCost hRun) hEntry

/- The first link loses its entry when node sixteen comes. -/
theorem run_loses_entry :
    ∃ (ops : List (Op Nat)) (r : RouteLogic Nat),
      ops = [.insertEntry 0 1 1 (some 7), .insert 16 0 1] ∧
        empty.run ops = some r ∧
        (r.cell 0 1).entry = none ∧
        lastEntry 0 1 ops = some 7 ∧
        ¬ r.Faithful ops := by
  let op : Op Nat := .insertEntry 0 1 1 (some 7)
  let post : List (Op Nat) := [.insert 16 0 1]
  have hCount : Countable (op :: post) := by
    simp [Countable, Op.nodes, op, post]
  have hResets : ResetsInside (op :: post) := by
    intro pre op' rest hSplit n hn
    have hMem : op' ∈ op :: post := by
      rw [hSplit]
      simp
    rcases List.mem_pair.mp hMem with rfl | rfl <;>
      exact absurd hn List.not_mem_nil
  have hEnds : ∃ r, empty.run (op :: post) = some r :=
    ⟨_, run_empty_iff.mpr ⟨hCount, hResets, rfl⟩⟩
  rcases hEnds with ⟨r, hRun⟩
  have hGrows : ¬ ∀ later ∈ post, ∀ n ∈ later.nodes,
      n < sizeAfter ([] ++ [op]) := by
    have hSize : sizeAfter ([] ++ [op]) = 16 := by
      simp [sizeAfter, sizeFor, Op.nodes, doubled, op]
    rw [hSize]
    intro hAll
    exact absurd
      (hAll (.insert 16 0 1) (List.mem_singleton.mpr rfl) 16
        List.mem_cons_self)
      (by decide)
  have hLost : (r.cell 0 1).entry = none := by
    have hLast : ∀ later ∈ post, later.gives 0 1 = none := by
      intro later hLater
      rw [List.mem_singleton.mp hLater]
      rfl
    have hGives : op.gives 0 1 = some (some 7) := rfl
    rw [← List.nil_append (op :: post)] at hRun
    rw [run_gives hRun hGives hLast, if_neg hGrows]
  refine ⟨op :: post, r, rfl, hRun, hLost, rfl, ?_⟩
  intro hFaithful
  rw [hFaithful 0 1] at hLost
  exact absurd hLost (by decide)

end RouteLogic

end Ns2
