import Ns2.Dsr.PathArray
import Ns2.Lib.LoopErasure

/-
  Compressed paths.

  Compressing a path erases the loops of the walk over its
  hosts, so no host is repeated and every step is one that the
  path had.

  Correctness is proven by:
    * `PathArray.compressPath_hosts`
    * `PathArray.compressPath_sound`
-/

------------------------------------------------------------
-- One Double Back
------------------------------------------------------------

namespace Ns2

namespace Dsr

namespace PathArray

variable {p : PathArray}
variable {fp : Int}

theorem length_hosts : p.hosts.length = p.len.toNat := by
  rw [hosts, List.length_map, length_ids]

theorem hosts_getElem?
    {i : Int}
    (hStart : 0 ≤ i)
    (hEnd : i < p.len) :
    p.hosts[i.toNat]? = some (p.path i).toHost := by
  have hIn : i.toNat < p.len.toNat := by omega
  have hCell : ((i.toNat : Nat) : Int) = i := by omega
  rw [hosts, List.getElem?_map, ids_getElem?, if_pos hIn, hCell]
  rfl

/- What the scan says about the cells down to `fp`. -/
theorem lastEqual_spec
    (n : Nat) :
    (∀ i, fp < i → i ≤ fp + n →
      (p.path fp).toHost = (p.path i).toHost →
        ∃ bp, p.lastEqual fp n = some bp ∧ i ≤ bp) ∧
    ∀ bp, p.lastEqual fp n = some bp →
      (p.path fp).toHost = (p.path bp).toHost := by
  induction n with
  | zero =>
      refine ⟨fun i hAbove hBelow => ?_, nofun⟩
      omega
  | succ n ih =>
      rw [lastEqual]
      by_cases hSame : (p.path fp).toHost =
          (p.path (fp + (n + 1))).toHost
      · rw [if_pos hSame]
        constructor
        · intro i _ hBelow _
          refine ⟨_, rfl, ?_⟩
          push_cast at hBelow
          exact hBelow
        · intro bp hFound
          rw [← Option.some.inj hFound]
          exact hSame
      · rw [if_neg hSame]
        refine ⟨fun i hAbove hBelow hHere => ?_, ih.2⟩
        have hOther : i ≠ fp + (n + 1) := by
          rintro rfl
          exact hSame hHere
        refine ih.1 i hAbove ?_ hHere
        push_cast at hBelow
        omega

section

variable {front rest : List Host}
variable {x : Host}

theorem len_around
    (hHosts : p.hosts = front ++ x :: rest) :
    p.len = front.length + 1 + rest.length := by
  have hLength := congrArg List.length hHosts
  rw [length_hosts, List.length_append, List.length_cons]
    at hLength
  omega

theorem host_at
    (hLength : fp = front.length)
    (hHosts : p.hosts = front ++ x :: rest) :
    (p.path fp).toHost = x := by
  have hLen := len_around hHosts
  have hCell := hosts_getElem? (p := p) (i := fp) (by omega)
    (by omega)
  have hPlace : fp.toNat = front.length := by omega
  rw [hHosts, hPlace, List.getElem?_append_right le_rfl,
    Nat.sub_self, List.getElem?_cons_zero] at hCell
  exact (Option.some.inj hCell).symm

theorem host_behind
    {k : Nat}
    (hLength : fp = front.length)
    (hHosts : p.hosts = front ++ x :: rest)
    (hIn : k < rest.length) :
    rest[k]? = some (p.path (fp + 1 + k)).toHost := by
  have hLen := len_around hHosts
  have hCell := hosts_getElem? (p := p) (i := fp + 1 + k)
    (by omega) (by omega)
  have hPlace : (fp + 1 + k).toNat = front.length + (k + 1) := by
    omega
  rw [hHosts, hPlace, List.getElem?_append_right (by omega),
    Nat.add_sub_cancel_left, List.getElem?_cons_succ] at hCell
  exact hCell

/-
  Around the forward pointer: the hosts before it stay, the
  one at it too, and the rest is what was behind its last
  occurrence.
-/
theorem removeBack_hosts
    (hLength : fp = front.length)
    (hHosts : p.hosts = front ++ x :: rest) :
    (p.removeBack fp).hosts =
      front ++ x :: behindLast x rest := by
  have hLen := len_around hHosts
  have hx := host_at hLength hHosts
  have hCount : (p.len - 1 - fp).toNat = rest.length := by
    omega
  rcases @lastEqual_spec p fp rest.length with
    ⟨hFinds, hSame⟩
  unfold removeBack
  rw [hCount]
  cases hLast : p.lastEqual fp rest.length with
  | none =>
      have hFresh : x ∉ rest := by
        intro hMem
        rcases List.mem_iff_getElem?.mp hMem with ⟨k, hk⟩
        have hIn := (List.getElem?_eq_some_iff.mp hk).1
        have hHere := host_behind hLength hHosts hIn
        rw [hk] at hHere
        rcases hFinds (fp + 1 + k) (by omega) (by omega)
            (hx.trans (Option.some.inj hHere)) with
          ⟨bp, hFound, -⟩
        rw [hLast] at hFound
        exact absurd hFound nofun
      rw [behindLast_eq hFresh]
      exact hHosts
  | some bp =>
      have hBounds := lastEqual_bounds hLast
      have hHere := hx.symm.trans (hSame bp hLast)
      rcases Int.eq_ofNat_of_zero_le
          (a := bp - fp - 1) (by omega) with ⟨k, hk⟩
      have hIn : k < rest.length := by omega
      have hPlace : fp + 1 + (k : Int) = bp := by omega
      have hAt : rest[k]? = some x := by
        rw [host_behind hLength hHosts hIn, hPlace, hHere]
      have hFresh : x ∉ rest.drop (k + 1) := by
        intro hMem
        rcases List.mem_iff_getElem?.mp hMem with ⟨m, hm⟩
        rw [List.getElem?_drop] at hm
        have hMore := (List.getElem?_eq_some_iff.mp hm).1
        have hLater := host_behind hLength hHosts hMore
        rw [hm] at hLater
        rcases hFinds (fp + 1 + (k + 1 + m : Nat)) (by omega)
            (by omega)
            (hx.trans (Option.some.inj hLater)) with
          ⟨bp', hFound, hBehind⟩
        rw [hLast] at hFound
        have hOnly := Option.some.inj hFound
        omega
      have hDrop : rest.drop k = x :: rest.drop (k + 1) := by
        rw [List.drop_eq_getElem_cons hIn]
        exact congrArg (· :: _)
          ((List.getElem?_eq_some_iff.mp hAt).2)
      have hRest : rest = rest.take k ++ x :: rest.drop (k + 1) := by
        rw [← hDrop, List.take_append_drop]
      have hBehind : behindLast x rest = rest.drop (k + 1) := by
        rw [hRest, behindLast_append hFresh, ← hRest]
      have hIds := @ids_shift p fp bp (by omega) (by omega)
        (by omega)
      have hFront : fp.toNat = front.length := by omega
      have hBack : bp.toNat = front.length + (k + 1) := by
        omega
      rw [hBehind, ← hDrop]
      refine (congrArg (List.map ID.toHost) hIds).trans ?_
      rw [List.map_append, List.map_take, List.map_drop]
      change p.hosts.take _ ++ p.hosts.drop _ = _
      rw [hHosts, hFront, hBack, List.take_left,
        List.drop_append, List.drop_eq_nil_of_le (by omega),
        List.nil_append, Nat.add_sub_cancel_left,
        List.drop_succ_cons]

end

/- From the forward pointer on, all loops are erased. -/
theorem compressFrom_hosts
    {front rest : List Host}
    (hLength : fp = front.length)
    (hHosts : p.hosts = front ++ rest) :
    (p.compressFrom fp).hosts = front ++ eraseLoops rest := by
  fun_induction compressFrom p fp generalizing front rest with
  | case1 p fp hMore ih =>
      cases rest with
      | nil =>
          have hLen := congrArg List.length hHosts
          rw [length_hosts, List.append_nil] at hLen
          omega
      | cons x rest =>
          have hNext := removeBack_hosts hLength hHosts
          rw [List.append_cons] at hNext
          rw [ih (by simp [hLength]) hNext, eraseLoops,
            ← List.append_cons]
  | case2 p fp hEnd =>
      have hLen := congrArg List.length hHosts
      rw [length_hosts, List.length_append] at hLen
      have hNone : rest = [] :=
        List.eq_nil_of_length_eq_zero (by omega)
      rw [hHosts, hNone, eraseLoops]

theorem compressPath_hosts
    (p : PathArray) :
    p.compressPath.hosts = eraseLoops p.hosts :=
  compressFrom_hosts rfl (List.nil_append p.hosts).symm

/-
  A compressed path leads from the same first to the same last
  host, over steps of the path, and repeats no host.
-/
theorem compressPath_sound
    (p : PathArray) :
    p.compressPath.hosts.Nodup ∧
      p.compressPath.hosts.head? = p.hosts.head? ∧
      p.compressPath.hosts.getLast? = p.hosts.getLast? ∧
      ∀ a b, [a, b] <:+: p.compressPath.hosts →
        [a, b] <:+: p.hosts := by
  rw [compressPath_hosts]
  exact ⟨eraseLoops_nodup _, eraseLoops_head _,
    eraseLoops_last _, fun _ _ => eraseLoops_step⟩

end PathArray

end Dsr

end Ns2
