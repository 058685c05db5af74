import Ns2.Routealgo.Lookup
import Mathlib.Data.List.Perm.Subperm

/-
  The compressed lookup against the plain one.

  The analysis finds the default and the range of non-defaults
  of every table.  The indices stored for that range are read
  back whole where `unsigned long` has 32 bits.  Where it has
  64, only their lowest bit is read back, which is the index
  itself for the two least neighbors alone.

  Main declarations:
    * `uses`, `IsDefault`, `Stored`, `rank`
    * `population_spec`, `bestDefault_spec`, `nonDefaults_spec`
    * `BMLookup.lookup_spec`
    * `lookups_agree_iff`
-/

------------------------------------------------------------
-- Next Hops in Use
------------------------------------------------------------

namespace Ns2

namespace Routealgo

/- How many targets but the owner have a next hop. -/
def uses
    (r : List Nat)
    (o v : Nat) : Nat :=
  (List.range r.length).countP
    fun i => decide (i ≠ o) && decide (entry r i = v)

/- The least of the next hops used most. -/
def IsDefault
    (r : List Nat)
    (o d : Nat) : Prop :=
  (∀ v, uses r o v ≤ uses r o d) ∧
    ∀ v, v < d → uses r o v < uses r o d

def NonDefault
    (r : List Nat)
    (o d i : Nat) : Prop :=
  i < r.length ∧ i ≠ o ∧ entry r i ≠ d

/- The target lies between two with another next hop. -/
def Stored
    (r : List Nat)
    (o d t : Nat) : Prop :=
  (∃ i, i ≤ t ∧ NonDefault r o d i) ∧
    ∃ i, t ≤ i ∧ NonDefault r o d i

/- How many next hops in use are less. -/
def rank
    (r : List Nat)
    (o v : Nat) : Nat :=
  (List.range v).countP fun u => decide (uses r o u ≠ 0)

/- A table whose targets have next hops, of which two differ. -/
structure Routes
    (r : List Nat)
    (o : Nat) : Prop where
  owner : o < r.length
  owner_none : entry r o = NODE_NONE
  nodes : ∀ t, t < r.length → t ≠ o → entry r t < r.length
  two :
    ∃ s t,
      s < r.length ∧ s ≠ o ∧ t < r.length ∧ t ≠ o ∧
        entry r s ≠ entry r t

variable {r : List Nat}
variable {o : Nat}

theorem uses_pos
    {t : Nat}
    (ht : t < r.length)
    (hOther : t ≠ o) :
    uses r o (entry r t) ≠ 0 := by
  have hPos : 0 < uses r o (entry r t) := by
    rw [uses, List.countP_pos_iff]
    exact ⟨t, List.mem_range.mpr ht, by simp [hOther]⟩
  omega

theorem exists_of_uses
    {v : Nat}
    (hv : uses r o v ≠ 0) :
    ∃ t, t < r.length ∧ t ≠ o ∧ entry r t = v := by
  have hPos : 0 < uses r o v := Nat.pos_of_ne_zero hv
  rw [uses, List.countP_pos_iff] at hPos
  rcases hPos with ⟨t, ht, hUse⟩
  rw [Bool.and_eq_true, decide_eq_true_eq,
    decide_eq_true_eq] at hUse
  exact ⟨t, List.mem_range.mp ht, hUse.1, hUse.2⟩

/- Only nodes are next hops in use. -/
theorem Routes.lt_of_uses
    (hr : Routes r o)
    {v : Nat}
    (hv : uses r o v ≠ 0) :
    v < r.length := by
  rcases exists_of_uses hv with ⟨t, ht, hOther, hEq⟩
  rw [← hEq]
  exact hr.nodes t ht hOther

end Routealgo

end Ns2

------------------------------------------------------------
-- Analysis
------------------------------------------------------------

namespace Ns2

namespace Routealgo

variable {r : List Nat}
variable {o : Nat}

/- Counts over the first `n` targets. -/
private theorem countHops_spec
    (hr : Routes r o)
    {n : Nat}
    (hn : n ≤ r.length) :
    ((List.range n).foldl (countHop r o)
        (List.replicate r.length 0)).length = r.length ∧
      ∀ v, v < r.length →
        entry ((List.range n).foldl (countHop r o)
            (List.replicate r.length 0)) v =
          (List.range n).countP
            fun i =>
              decide (i ≠ o) && decide (entry r i = v) := by
  induction n with
  | zero =>
      refine ⟨by simp, fun v hv => ?_⟩
      simp [entry, List.getD_eq_getElem?_getD, hv]
  | succ n ih =>
      rcases ih (by omega) with ⟨hLength, hCounts⟩
      rw [List.range_succ, List.foldl_append]
      simp only [List.foldl_cons, List.foldl_nil, countHop]
      by_cases hOwner : n = o
      · rw [if_neg (by simpa using hOwner)]
        refine ⟨hLength, fun v hv => ?_⟩
        rw [hCounts v hv, List.countP_append]
        simp [hOwner]
      · rw [if_pos hOwner]
        refine ⟨by rw [List.length_modify, hLength],
          fun v hv => ?_⟩
        have hHop := hr.nodes n (by omega) hOwner
        have hOld := hCounts v hv
        rw [List.countP_append, ← hOld]
        simp only [entry, List.getD_eq_getElem?_getD,
          List.getElem?_modify]
        by_cases hSame : entry r n = v
        · simp only [entry,
            List.getD_eq_getElem?_getD] at hSame
          simp [hSame, hOwner, hLength, hv]
        · simp only [entry,
            List.getD_eq_getElem?_getD] at hSame
          simp [hSame]

theorem population_spec
    (hr : Routes r o) :
    (population r o).length = r.length ∧
      ∀ v, v < r.length →
        entry (population r o) v = uses r o v :=
  countHops_spec hr le_rfl

/- The best of the first `n` counts, and those not zero. -/
private theorem tryDefaults_spec
    {p : List Nat}
    {n : Nat}
    (hPos : 0 < n)
    (hn : n ≤ NODE_NONE) :
    let s := (List.range n).foldl (tryDefault p) (NODE_NONE, 0)
    s.1 < n ∧
      (∀ i, i < n → entry p i ≤ entry p s.1) ∧
      (∀ i, i < s.1 → entry p i < entry p s.1) ∧
      s.2 =
        (List.range n).countP fun i => decide (entry p i ≠ 0) := by
  induction n with
  | zero => omega
  | succ n ih =>
      intro s
      have hStep :
          s =
            tryDefault p
              ((List.range n).foldl (tryDefault p)
                (NODE_NONE, 0)) n := by
        simp only [s, List.range_succ, List.foldl_append,
          List.foldl_cons, List.foldl_nil]
      have hCount :
          (List.range (n + 1)).countP
              (fun i => decide (entry p i ≠ 0)) =
            (List.range n).countP
                (fun i => decide (entry p i ≠ 0)) +
              if entry p n ≠ 0 then 1 else 0 := by
        rw [List.range_succ, List.countP_append]
        simp [List.countP_cons]
      rcases Nat.eq_zero_or_pos n with rfl | hOld
      · rw [hCount, hStep]
        refine ⟨by simp [tryDefault], fun i hi => ?_,
          fun i hi => ?_, ?_⟩
        · have hZero : i = 0 := by omega
          simp [tryDefault, hZero]
        · simp [tryDefault] at hi
        · simp [tryDefault]
      · rcases ih hOld (by omega) with
          ⟨hLt, hMost, hLeast, hNonzero⟩
        have hSome :
            ((List.range n).foldl (tryDefault p)
              (NODE_NONE, 0)).1 ≠ NODE_NONE := by
          omega
        rw [hCount, hStep, ← hNonzero]
        generalize (List.range n).foldl (tryDefault p)
          (NODE_NONE, 0) = q at hLt hMost hLeast hSome
        unfold tryDefault
        by_cases hMore : entry p q.1 < entry p n
        · rw [if_pos (Or.inr hMore)]
          refine ⟨by omega, fun i hi => ?_, fun i hi => ?_, ?_⟩
          · rcases Nat.lt_succ_iff_lt_or_eq.mp hi with hi | hi
            · exact (hMost i hi).trans hMore.le
            · rw [hi]
          · exact (hMost i hi).trans_lt hMore
          · dsimp only
            split <;> rfl
        · rw [if_neg (by simp [hSome, hMore])]
          refine ⟨by omega, fun i hi => ?_, hLeast, ?_⟩
          · rcases Nat.lt_succ_iff_lt_or_eq.mp hi with hi | hi
            · exact hMost i hi
            · rw [hi]
              exact Nat.le_of_not_lt hMore
          · dsimp only
            split <;> rfl

theorem bestDefault_spec
    (hr : Routes r o)
    (hFits : r.length < 2 ^ 32) :
    IsDefault r o (bestDefault (population r o)).1 ∧
      (bestDefault (population r o)).1 < r.length ∧
      (bestDefault (population r o)).2 =
        (BMLookup.neighbors (population r o)).length := by
  rcases population_spec hr with ⟨hLength, hCounts⟩
  have hOwner := hr.owner
  have hSpec :=
    tryDefaults_spec (p := population r o) (n := r.length)
      (by omega) (by unfold NODE_NONE; omega)
  rw [← hLength] at hSpec
  change _ < _ ∧ _ at hSpec
  rcases hSpec with ⟨hLt, hMost, hLeast, hNonzero⟩
  change (bestDefault (population r o)).1 < _ at hLt
  rw [hLength] at hLt
  refine ⟨⟨fun v => ?_, fun v hv => ?_⟩, hLt, ?_⟩
  · rcases Nat.eq_zero_or_pos (uses r o v) with hZero | hPos
    · rw [hZero]
      exact Nat.zero_le _
    · have hv := hr.lt_of_uses (Nat.ne_of_gt hPos)
      rw [← hCounts v hv, ← hCounts _ hLt]
      exact hMost v (by rw [hLength]; exact hv)
  · rw [← hCounts v (hv.trans hLt), ← hCounts _ hLt]
    exact hLeast v hv
  · rw [BMLookup.neighbors, ← List.countP_eq_length_filter]
    exact hNonzero

end Routealgo

end Ns2

------------------------------------------------------------
-- Range of Non-Defaults
------------------------------------------------------------

namespace Ns2

namespace Routealgo

variable {r : List Nat}
variable {o d : Nat}

/- The first and the last non-default of the first `n`. -/
private theorem tryRanges_spec
    {n : Nat}
    (hn : n ≤ NODE_NONE) :
    let s := (List.range n).foldl (tryRange r o d)
      (NODE_NONE, NODE_NONE)
    (s = (NODE_NONE, NODE_NONE) ∧
        ∀ i, i < n → i ≠ o → entry r i = d) ∨
      (s.1 < n ∧ (s.1 ≠ o ∧ entry r s.1 ≠ d) ∧
        s.2 < n ∧ (s.2 ≠ o ∧ entry r s.2 ≠ d) ∧
        ∀ i, i < n → i ≠ o → entry r i ≠ d →
          s.1 ≤ i ∧ i ≤ s.2) := by
  induction n with
  | zero => exact Or.inl ⟨rfl, fun i hi => by omega⟩
  | succ n ih =>
      intro s
      have hStep :
          s =
            tryRange r o d
              ((List.range n).foldl (tryRange r o d)
                (NODE_NONE, NODE_NONE)) n := by
        simp only [s, List.range_succ, List.foldl_append,
          List.foldl_cons, List.foldl_nil]
      have hOld := ih (by omega)
      dsimp only at hOld
      rw [hStep]
      generalize (List.range n).foldl (tryRange r o d)
        (NODE_NONE, NODE_NONE) = q at hOld
      unfold tryRange
      by_cases hOther : n ≠ o ∧ entry r n ≠ d
      · rw [if_pos hOther.1, if_pos hOther.2]
        rcases hOld with ⟨rfl, hNone⟩ | hSome
        · rw [if_pos ⟨hOther.2, rfl⟩]
          refine Or.inr ⟨by simp, hOther, by simp, hOther,
            fun i hi hOwner hHop => ?_⟩
          have hLast : i = n := by
            by_contra hNe
            exact hHop (hNone i (by omega) hOwner)
          simp [hLast]
        · rcases hSome with ⟨hFirst, hAt, hLast, -, hRange⟩
          rw [if_neg (by omega)]
          dsimp only
          refine Or.inr ⟨by omega, hAt, by simp, hOther,
            fun i hi hOwner hHop => ?_⟩
          rcases Nat.lt_succ_iff_lt_or_eq.mp hi with hLt | hEq
          · exact ⟨(hRange i hLt hOwner hHop).1, by omega⟩
          · exact ⟨by omega, by omega⟩
      · have hSame :
            (if n ≠ o then
              let f :=
                if entry r n ≠ d ∧ q.1 = NODE_NONE then n
                else q.1
              let l := if entry r n ≠ d then n else q.2
              (f, l)
            else q) = q := by
          by_cases hOwner : n = o
          · simp [hOwner]
          · have hHop : entry r n = d := by
              by_contra hNe
              exact hOther ⟨hOwner, hNe⟩
            simp [hHop]
        rw [hSame]
        have hNew : n ≠ o → entry r n = d := by
          intro hOwner
          by_contra hNe
          exact hOther ⟨hOwner, hNe⟩
        rcases hOld with ⟨hEq, hNone⟩ | hSome
        · refine Or.inl ⟨hEq, fun i hi hOwner => ?_⟩
          rcases Nat.lt_succ_iff_lt_or_eq.mp hi with hi | hi
          · exact hNone i hi hOwner
          · subst hi
            exact hNew hOwner
        · rcases hSome with
            ⟨hFirst, hAt, hLast, hAt', hRange⟩
          refine Or.inr ⟨by omega, hAt, by omega, hAt',
            fun i hi hOwner hHop => ?_⟩
          rcases Nat.lt_succ_iff_lt_or_eq.mp hi with hi | hi
          · exact hRange i hi hOwner hHop
          · subst hi
            exact absurd (hNew hOwner) hHop

/- Whatever the default, some target has another next hop. -/
theorem Routes.nonDefault
    (hr : Routes r o)
    (d : Nat) :
    ∃ i, NonDefault r o d i := by
  rcases hr.two with ⟨s, t, hs, hsOwner, ht, htOwner, hNe⟩
  by_cases hDefault : entry r s = d
  · exact ⟨t, ht, htOwner, fun h => hNe (hDefault.trans h.symm)⟩
  · exact ⟨s, hs, hsOwner, hDefault⟩

theorem nonDefaults_spec
    (hr : Routes r o)
    (hFits : r.length < 2 ^ 32)
    (d : Nat) :
    (nonDefaults r o d).2 < r.length ∧
      (nonDefaults r o d).1 ≤ (nonDefaults r o d).2 ∧
      ∀ t,
        Stored r o d t ↔
          (nonDefaults r o d).1 ≤ t ∧
            t ≤ (nonDefaults r o d).2 := by
  rcases hr.nonDefault d with ⟨i, hi, hOwner, hHop⟩
  have hSpec :=
    tryRanges_spec (r := r) (o := o) (d := d) (n := r.length)
      (by unfold NODE_NONE; omega)
  rcases hSpec with ⟨-, hNone⟩ | hSome
  · exact absurd (hNone i hi hOwner) hHop
  · change
      (nonDefaults r o d).1 < _ ∧ _ ∧
        (nonDefaults r o d).2 < _ ∧ _ at hSome
    rcases hSome with ⟨hFirst, hAt, hLast, hAt', hRange⟩
    have hBetween := hRange i hi hOwner hHop
    refine ⟨hLast, hBetween.1.trans hBetween.2, fun t => ?_⟩
    constructor
    · intro ⟨⟨j, hj, hND⟩, ⟨k, hk, hND'⟩⟩
      exact
        ⟨(hRange j hND.1 hND.2.1 hND.2.2).1.trans hj,
          hk.trans (hRange k hND'.1 hND'.2.1 hND'.2.2).2⟩
    · intro ⟨hLow, hHigh⟩
      exact ⟨⟨_, hLow, hFirst, hAt⟩, ⟨_, hHigh, hLast, hAt'⟩⟩

/- A target that is not stored has the default. -/
theorem eq_default_of_not_stored
    {t : Nat}
    (ht : t < r.length)
    (hOther : t ≠ o)
    (hNot : ¬Stored r o d t) :
    entry r t = d := by
  by_contra hNe
  exact hNot ⟨⟨t, le_rfl, ht, hOther, hNe⟩,
    ⟨t, le_rfl, ht, hOther, hNe⟩⟩

end Routealgo

end Ns2

------------------------------------------------------------
-- Neighbors
------------------------------------------------------------

namespace Ns2

namespace Routealgo

namespace BMLookup

variable {r p : List Nat}
variable {o : Nat}

theorem mem_neighbors
    (hr : Routes r o)
    {v : Nat} :
    v ∈ neighbors (population r o) ↔ uses r o v ≠ 0 := by
  rcases population_spec hr with ⟨hLength, hCounts⟩
  rw [neighbors, List.mem_filter, List.mem_range, hLength,
    decide_eq_true_eq]
  constructor
  · intro ⟨hv, hUse⟩
    rwa [hCounts v hv] at hUse
  · intro hUse
    have hv := hr.lt_of_uses hUse
    exact ⟨hv, by rwa [hCounts v hv]⟩

theorem neighbors_nodup :
    (neighbors p).Nodup :=
  List.nodup_range.filter _

theorem neighbors_length_le :
    (neighbors p).length ≤ p.length :=
  (List.length_filter_le _ _).trans (by simp)

/- The place of a number among those below that pass a test. -/
private theorem idxOf_filter_range
    {q : Nat → Bool}
    {n v : Nat}
    (hv : v < n)
    (hq : q v = true) :
    ((List.range n).filter q).idxOf v =
      (List.range v).countP q := by
  induction n with
  | zero => omega
  | succ n ih =>
      rw [List.range_succ, List.filter_append,
        List.idxOf_append]
      rcases Nat.lt_succ_iff_lt_or_eq.mp hv with hLt | rfl
      · rw [if_pos (List.mem_filter.mpr
          ⟨List.mem_range.mpr hLt, hq⟩)]
        exact ih hLt
      · rw [if_neg (by simp)]
        simp [hq, List.countP_eq_length_filter]

/- The index of a neighbor is the number of lesser ones. -/
theorem idxOf_neighbors
    (hr : Routes r o)
    {v : Nat}
    (hv : uses r o v ≠ 0) :
    (neighbors (population r o)).idxOf v = rank r o v := by
  rcases population_spec hr with ⟨hLength, hCounts⟩
  have hLt := hr.lt_of_uses hv
  rw [neighbors, hLength, idxOf_filter_range hLt, rank]
  · apply List.countP_congr
    intro u hu
    rw [hCounts u ((List.mem_range.mp hu).trans hLt)]
  · rw [decide_eq_true_eq, hCounts v hLt]
    exact hv

theorem two_le_neighbors
    (hr : Routes r o) :
    2 ≤ (neighbors (population r o)).length := by
  rcases hr.two with ⟨s, t, hs, hsOwner, ht, htOwner, hNe⟩
  have hs' := (mem_neighbors hr).mpr (uses_pos hs hsOwner)
  have ht' := (mem_neighbors hr).mpr (uses_pos ht htOwner)
  have hPair :
      [entry r s, entry r t].Subperm
        (neighbors (population r o)) :=
    List.subperm_of_subset (by simp [hNe])
      (by simp [List.cons_subset, hs', ht'])
  exact hPair.length_le

end BMLookup

end Routealgo

end Ns2

------------------------------------------------------------
-- Analyzed Tables
------------------------------------------------------------

namespace Ns2

namespace Routealgo

variable {r : List Nat}
variable {o : Nat}

structure Analyzed
    (r : List Nat)
    (o : Nat)
    (a : Analysis) : Prop where
  counts : a.p = population r o
  default : IsDefault r o a.d
  ordered : a.f ≤ a.l
  last_lt : a.l < r.length
  range : ∀ t, Stored r o a.d t ↔ a.f ≤ t ∧ t ≤ a.l

theorem analyze_spec
    (hr : Routes r o)
    (hFits : r.length < 2 ^ 32) :
    ∃ a, analyze r o = some a ∧ Analyzed r o a := by
  rcases bestDefault_spec hr hFits with
    ⟨hDefault, hLt, hNonzero⟩
  have hTwo := BMLookup.two_le_neighbors hr
  rcases nonDefaults_spec hr hFits
      (bestDefault (population r o)).1 with
    ⟨hLast, hOrdered, hRange⟩
  have hZero : ¬(bestDefault (population r o)).2 = 0 := by
    omega
  have hOne : ¬(bestDefault (population r o)).2 = 1 := by
    omega
  refine ⟨⟨population r o, (bestDefault (population r o)).1,
    entry (population r o) (bestDefault (population r o)).1,
    (nonDefaults r o (bestDefault (population r o)).1).1,
    (nonDefaults r o (bestDefault (population r o)).1).2⟩,
    ?_, ?_⟩
  · rw [analyze, if_pos hFits]
    dsimp only
    rw [if_neg hZero, if_neg hOne]
  constructor
  case counts => rfl
  case default => exact hDefault
  case ordered => exact hOrdered
  case last_lt => exact hLast
  case range => exact hRange

theorem analyze_none
    (hLong : ¬r.length < 2 ^ 32) :
    analyze r o = none := by
  rw [analyze, if_neg hLong]

theorem IsDefault.unique
    {d e : Nat}
    (hd : IsDefault r o d)
    (he : IsDefault r o e) :
    d = e := by
  rcases Nat.lt_trichotomy d e with hLt | hEq | hGt
  · exact absurd (he.2 d hLt) (Nat.not_lt.mpr (hd.1 e))
  · exact hEq
  · exact absurd (hd.2 e hGt) (Nat.not_lt.mpr (he.1 d))

end Routealgo

end Ns2

------------------------------------------------------------
-- Bitmap Lookup
------------------------------------------------------------

namespace Ns2

namespace Routealgo

namespace BMLookup

variable {W : Nat}
variable {r : List Nat}
variable {o : Nat}
variable {a : Analysis}

theorem lastSet_range
    {f : Nat → Option (BitVec W)}
    {g : Nat → BitVec W}
    {c k : Nat} :
    BitMap.lastSet f ((List.range c).map fun k => (k, g k)) k =
      if k < c then some (g k) else f k := by
  unfold BitMap.lastSet
  induction c with
  | zero => rfl
  | succ c ih =>
      rw [List.range_succ, List.map_append, List.foldl_append]
      simp only [List.map_cons, List.map_nil, List.foldl_cons,
        List.foldl_nil, Function.update_apply, ih]
      by_cases hLast : k = c
      · simp [hLast]
      · have hLt : k < c + 1 ↔ k < c := by omega
        simp [hLast, hLt]

/- Every index fits in an entry, that of the owner as well. -/
theorem index_fits
    (hr : Routes r o)
    (hW : W = 32 ∨ W = 64)
    (hFits : r.length < 2 ^ 32)
    (f k : Nat) :
    (BitVec.ofNat W (index (neighbors (population r o)) r f
        k)).toNat =
        index (neighbors (population r o)) r f k ∧
      index (neighbors (population r o)) r f k <
        2 ^ BitMap.findBPE
          (neighbors (population r o)).length := by
  have hLength := (population_spec hr).1
  have hLe := neighbors_length_le (p := population r o)
  have hIndex :
      index (neighbors (population r o)) r f k ≤
        (neighbors (population r o)).length :=
    List.idxOf_le_length
  have hBits := BitMap.findBPE_spec
    (n := (neighbors (population r o)).length) (by omega)
  have hWord : (2 : Nat) ^ 32 ≤ 2 ^ W :=
    Nat.pow_le_pow_right (by omega) (by omega)
  refine ⟨?_, lt_of_le_of_lt hIndex hBits.1⟩
  rw [BitVec.toNat_ofNat]
  exact Nat.mod_eq_of_lt (by omega)

theorem newBitMap_sound
    (hr : Routes r o)
    (hFits : r.length < 2 ^ 32)
    (f l : Nat) :
    (newBitMap W (neighbors (population r o)) f l).Sound ∧
      2 ≤ (newBitMap W (neighbors (population r o)) f l).m_BPE := by
  have hLength := (population_spec hr).1
  have hLe := neighbors_length_le (p := population r o)
  have hTwo := two_le_neighbors hr
  have hBits := BitMap.findBPE_spec
    (n := (neighbors (population r o)).length) (by omega)
  have hBPE :
      2 ≤ BitMap.findBPE
        (neighbors (population r o)).length := by
    by_contra hSmall
    have hPow :
        2 ^ BitMap.findBPE
          (neighbors (population r o)).length ≤ 2 ^ 1 :=
      Nat.pow_le_pow_right (by omega) (by omega)
    omega
  exact ⟨BitMap.create_sound (by omega) hBits.2, hBPE⟩

/- Looking up a stored target reads its index back. -/
theorem lookup_spec
    (hr : Routes r o)
    (hW : W = 32 ∨ W = 64)
    (hFits : r.length < 2 ^ 32)
    (ha : Analyzed r o a) :
    ∃ b,
      (create W).populate r a.p a.d a.f a.l = some b ∧
      ∀ t,
        (¬Stored r o a.d t → b.lookup t = some a.d) ∧
        (Stored r o a.d t →
          b.lookup t =
            (neighbors (population r o))[
              (neighbors (population r o)).idxOf (entry r t) %
                2 ^ BitMap.covered W (BitMap.findBPE
                  (neighbors (population r o)).length)]?) := by
  have hLength := (population_spec hr).1
  rcases newBitMap_sound (W := W) hr hFits a.f a.l with
    ⟨hSound, -⟩
  -- what the loop sets, as one history
  have hInRange :
      (newBitMap W (neighbors (population r o))
        a.f a.l).InRange
        ((List.range (a.l - a.f + 1)).map fun k =>
          (k, BitVec.ofNat W
            (index (neighbors (population r o)) r a.f k))) := by
    intro s hs
    rcases List.mem_map.mp hs with ⟨k, hk, rfl⟩
    have hIndex := index_fits (W := W) hr hW hFits a.f k
    exact ⟨List.mem_range.mp hk, by
      rw [hIndex.1]
      exact hIndex.2⟩
  rcases BitMap.setAll_spec hW hSound hInRange
      BitMap.agrees_none with
    ⟨m, hAll, hSound', hSize, hBits, hAgrees⟩
  rw [BitMap.setAll, List.foldlM_map] at hAll
  refine ⟨_, by
    rw [populate, ha.counts, if_pos (by omega)]
    simp only [create, List.nil_append]
    rw [hAll]
    rfl, fun t => ?_⟩
  rw [ha.range]
  constructor
  · intro hNot
    unfold lookup
    dsimp only
    by_cases hLow : t < a.f
    · rw [if_pos hLow]
    · rw [if_neg hLow, if_pos (by omega)]
  · rintro ⟨hLow, hHigh⟩
    have hLast := lastSet_range (W := W) (f := fun _ => none)
      (g := fun k => BitVec.ofNat W
        (index (neighbors (population r o)) r a.f k))
      (c := a.l - a.f + 1) (k := t - a.f)
    rw [if_pos (by omega)] at hLast
    have hIn : t - a.f < m.m_Size := by
      rw [hSize]
      change t - a.f < a.l - a.f + 1
      omega
    rcases hAgrees.get hW hSound' hIn hLast with
      ⟨x, hGet, hx⟩
    rw [(index_fits hr hW hFits a.f (t - a.f)).1, hBits,
      index, Nat.add_sub_cancel' hLow] at hx
    unfold lookup
    dsimp only
    rw [if_neg (by omega), if_neg (by omega), hGet]
    simp only [Option.bind_eq_bind, Option.bind_some, hx]
    rfl

end BMLookup

end Routealgo

end Ns2

------------------------------------------------------------
-- Agreement
------------------------------------------------------------

namespace Ns2

namespace Routealgo

variable {W : Nat}
variable {r : List Nat}
variable {o : Nat}

/- Both lookups give every target its next hop. -/
def LookupsAgree
    (W : Nat)
    (r : List Nat)
    (o : Nat) : Prop :=
  ∃ a b c,
    analyze r o = some a ∧
    (BMLookup.create W).populate r a.p a.d a.f a.l = some b ∧
    NHLookup.create.populate r = some c ∧
    ∀ t, t < r.length → t ≠ o →
      b.lookup t = some (c.lookup t) ∧ c.lookup t = entry r t

/- The bitmap for the table keeps whatever is set in it. -/
def BitMapKeeps
    (W : Nat)
    (r : List Nat)
    (o : Nat) : Prop :=
  ∃ a,
    analyze r o = some a ∧
    (BMLookup.newBitMap W (BMLookup.neighbors a.p)
      a.f a.l).Keeps

/- No stored target has a next hop past the second least. -/
def LowRanks
    (r : List Nat)
    (o : Nat) : Prop :=
  ∀ d t, IsDefault r o d → t < r.length → t ≠ o →
    Stored r o d t → rank r o (entry r t) ≤ 1

/- An index that is cut reads the same if it was not cut. -/
private theorem getElem?_idxOf_mod
    {xs : List Nat}
    {v n : Nat}
    (hNodup : xs.Nodup)
    (hMem : v ∈ xs) :
    xs[xs.idxOf v % n]? = some v ↔
      xs.idxOf v % n = xs.idxOf v := by
  constructor
  · intro hGet
    rcases List.getElem?_eq_some_iff.mp hGet with ⟨hLt, hEq⟩
    have hIndex := hNodup.idxOf_getElem _ hLt
    rwa [hEq, eq_comm] at hIndex
  · intro hEq
    rw [hEq]
    exact List.getElem?_idxOf hMem

theorem NHLookup.lookup_spec
    (hFits : r.length < 2 ^ 32) :
    ∃ c,
      NHLookup.create.populate r = some c ∧
      ∀ t, t < r.length → c.lookup t = entry r t := by
  refine ⟨⟨r⟩, by rw [populate, if_pos hFits]; rfl,
    fun t ht => ?_⟩
  rw [lookup, if_neg (by dsimp only; omega)]

theorem bitMapKeeps_iff
    (hr : Routes r o)
    (hW : W = 32 ∨ W = 64) :
    BitMapKeeps W r o ↔ r.length < 2 ^ 32 ∧ W = 32 := by
  by_cases hFits : r.length < 2 ^ 32
  · rcases analyze_spec hr hFits with ⟨a, hAnalyze, ha⟩
    rcases BMLookup.newBitMap_sound (W := W) hr hFits
        a.f a.l with
      ⟨hSound, hTwo⟩
    have hKeeps :=
      BitMap.keeps_iff hW hSound (Nat.succ_pos _) hTwo
    rw [← hKeeps]
    constructor
    · intro ⟨a', hAnalyze', hAll⟩
      cases hAnalyze.symm.trans hAnalyze'
      rw [ha.counts] at hAll
      exact ⟨hFits, hAll⟩
    · intro ⟨_, hAll⟩
      exact ⟨a, hAnalyze, by rwa [ha.counts]⟩
  · constructor
    · intro ⟨a, hAnalyze, _⟩
      rw [analyze_none hFits] at hAnalyze
      cases hAnalyze
    · intro ⟨hLt, _⟩
      exact absurd hLt hFits

/- What the bits of an index that are read back are enough for. -/
private theorem low_iff
    (hr : Routes r o)
    (hW : W = 32 ∨ W = 64)
    (hFits : r.length < 2 ^ 32)
    {t : Nat}
    (ht : t < r.length)
    (hOther : t ≠ o) :
    (BMLookup.neighbors (population r o))[
        (BMLookup.neighbors (population r o)).idxOf
            (entry r t) %
          2 ^ BitMap.covered W (BitMap.findBPE
            (BMLookup.neighbors (population r o)).length)]? =
      some (entry r t) ↔
    W = 32 ∨ rank r o (entry r t) ≤ 1 := by
  have hUse := uses_pos ht hOther
  have hMem := (BMLookup.mem_neighbors hr).mpr hUse
  rw [getElem?_idxOf_mod BMLookup.neighbors_nodup hMem,
    BMLookup.idxOf_neighbors hr hUse, BitMap.covered]
  by_cases hNarrow : W = 32
  · have hIndex :=
      (BMLookup.index_fits hr hW hFits 0 t).2
    rw [BMLookup.index, Nat.zero_add,
      BMLookup.idxOf_neighbors hr hUse] at hIndex
    rw [if_pos hNarrow, Nat.mod_eq_of_lt hIndex]
    simp [hNarrow]
  · rw [if_neg hNarrow]
    simp only [hNarrow, false_or]
    omega

theorem lookupsAgree_iff
    (hr : Routes r o)
    (hW : W = 32 ∨ W = 64) :
    LookupsAgree W r o ↔
      r.length < 2 ^ 32 ∧ (W = 32 ∨ LowRanks r o) := by
  by_cases hFits : r.length < 2 ^ 32
  · rcases analyze_spec hr hFits with ⟨a, hAnalyze, ha⟩
    rcases BMLookup.lookup_spec hr hW hFits ha with
      ⟨b, hPopulate, hLookup⟩
    rcases NHLookup.lookup_spec hFits with ⟨c, hCopy, hPlain⟩
    constructor
    · intro ⟨a', b', c', hAnalyze', hPopulate', hCopy', hAll⟩
      cases hAnalyze.symm.trans hAnalyze'
      cases hPopulate.symm.trans hPopulate'
      cases hCopy.symm.trans hCopy'
      refine ⟨hFits, ?_⟩
      by_cases hNarrow : W = 32
      · exact Or.inl hNarrow
      refine Or.inr fun d t hd ht hOther hStored => ?_
      rw [hd.unique ha.default] at hStored
      have hRight := (hAll t ht hOther).1
      rw [(hLookup t).2 hStored, hPlain t ht] at hRight
      exact ((low_iff hr hW hFits ht hOther).mp
        hRight).resolve_left hNarrow
    · intro ⟨_, hLow⟩
      refine ⟨a, b, c, hAnalyze, hPopulate, hCopy,
        fun t ht hOther => ⟨?_, hPlain t ht⟩⟩
      rw [hPlain t ht]
      by_cases hStored : Stored r o a.d t
      · rw [(hLookup t).2 hStored]
        apply (low_iff hr hW hFits ht hOther).mpr
        exact hLow.imp_right
          fun h => h a.d t ha.default ht hOther hStored
      · rw [(hLookup t).1 hStored,
          eq_default_of_not_stored ht hOther hStored]
  · constructor
    · intro ⟨a, b, c, hAnalyze, _⟩
      rw [analyze_none hFits] at hAnalyze
      cases hAnalyze
    · intro ⟨hLt, _⟩
      exact absurd hLt hFits

/- When the lookups agree and the bitmap keeps its entries. -/
theorem lookup_faithful_iff
    (hr : Routes r o)
    (hW : W = 32 ∨ W = 64) :
    (LookupsAgree W r o ∧ BitMapKeeps W r o ↔
        r.length < 2 ^ 32 ∧ W = 32) ∧
      (LookupsAgree W r o ↔
        r.length < 2 ^ 32 ∧ (W = 32 ∨ LowRanks r o)) := by
  refine ⟨?_, lookupsAgree_iff hr hW⟩
  rw [lookupsAgree_iff hr hW, bitMapKeeps_iff hr hW]
  constructor
  · intro ⟨_, hKeeps⟩
    exact hKeeps
  · intro ⟨hFits, hNarrow⟩
    exact ⟨⟨hFits, Or.inl hNarrow⟩, hFits, hNarrow⟩

/- A node with three neighbors. -/
private theorem routes_three :
    Routes [NODE_NONE, 1, 1, 2, 3] 0 := by
  constructor
  case owner => decide
  case owner_none => decide
  case nodes => decide
  case two => exact ⟨1, 3, by decide⟩

/- The last of the three is lost. -/
theorem lookup_loses_neighbor :
    Routes [NODE_NONE, 1, 1, 2, 3] 0 ∧
      ¬LookupsAgree 64 [NODE_NONE, 1, 1, 2, 3] 0 := by
  constructor
  · exact routes_three
  · intro ⟨a, b, c, hAnalyze, hPopulate, hCopy, hAll⟩
    have hFound :
        analyze [NODE_NONE, 1, 1, 2, 3] 0 =
          some ⟨[0, 2, 1, 1, 0], 1, 2, 3, 4⟩ := by
      decide
    cases hFound.symm.trans hAnalyze
    have hMap :
        (BMLookup.create 64).populate [NODE_NONE, 1, 1, 2, 3]
            [0, 2, 1, 1, 0] 1 3 4 =
          some ⟨1, 3, 4, [1, 2, 3],
            some ⟨2, 2, 1, 16, .value 9⟩⟩ := by
      decide
    cases hMap.symm.trans hPopulate
    cases hCopy
    have hWrong := (hAll 4 (by decide) (by decide)).1
    revert hWrong
    decide

theorem lookup_faithful_three :
    LookupsAgree 32 [NODE_NONE, 1, 1, 2, 3] 0 ∧
      BitMapKeeps 32 [NODE_NONE, 1, 1, 2, 3] 0 := by
  exact
    (lookup_faithful_iff routes_three (Or.inl rfl)).1.mpr
      ⟨by decide, rfl⟩

end Routealgo

end Ns2
