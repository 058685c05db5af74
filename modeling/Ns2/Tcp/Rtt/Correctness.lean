import Ns2.Tcp.Rtt.Operations

/-
  The range of the estimates.

  An estimate that is not cut off stays between the smallest
  and the largest sample, and so does the time-out between a
  tick and its limit.  A difference to the estimate that does
  not fit into a `short` may move the estimate the other way.

  Main declarations:
    * `RttParams.Usual`
    * `Rtt.Fits`, `samples`

  Correctness is proven by:
    * `Rtt.update_within`, `Rtt.backoff_regular`
    * `rtt_bounds`
-/

------------------------------------------------------------
-- The Time-out
------------------------------------------------------------

namespace Ns2

namespace Tcp

/- The parameters that the bounds are for. -/
structure RttParams.Usual (c : RttParams) : Prop where
  srtt_bits : c.T_SRTT_BITS = 3
  rttvar_bits : c.T_RTTVAR_BITS = 2
  rttvar_exp : c.rttvar_exp_ = 2
  srtt_init : c.srtt_init_ = 0
  rttvar_init : c.rttvar_init_ = 0
  rtxcur_init : 0 < c.rtxcur_init_
  tick_pos : 0 < c.tcp_tick_
  minrto : c.tcp_tick_ ≤ c.minrto_
  maxrto_ge : 2 * c.tcp_tick_ ≤ c.maxrto_
  maxrto_le : c.maxrto_ ≤ 2 ^ 30 * c.tcp_tick_

namespace Rtt

variable {c : RttParams}
variable {s s' : Rtt}

/- The factor is a power of two that an `int` can hold. -/
structure Regular (s : Rtt) : Prop where
  power : ∃ k : Nat, k ≤ 30 ∧ s.t_backoff_ = 2 ^ k
  use_rtt : s.use_rtt_ = false

theorem Regular.one_le
    (hRegular : s.Regular) :
    (1 : Rat) ≤ s.t_backoff_ := by
  rcases hRegular.power with ⟨k, _, hk⟩
  have hOne : (1 : Int) ≤ 2 ^ k := one_le_pow₀ (by norm_num)
  rw [hk]
  exact_mod_cast hOne

/- The time-out is at least a tick for each backoff. -/
theorem le_rawTimeout
    (hUsual : c.Usual)
    (hRegular : s.Regular) :
    c.tcp_tick_ ≤ s.rawTimeout c ∧
      (c.rfc2988_ = true →
        c.tcp_tick_ * s.t_backoff_ ≤ s.rawTimeout c) := by
  have hOne := hRegular.one_le
  have hTick := hUsual.tick_pos
  have hMin := hUsual.minrto
  have hFactor : c.tcp_tick_ ≤ c.tcp_tick_ * s.t_backoff_ :=
    le_mul_of_one_le_right hTick.le hOne
  unfold rawTimeout
  split_ifs with hRfc hLow hLess
  · have hMore : c.tcp_tick_ * s.t_backoff_ ≤
        c.minrto_ * s.t_backoff_ :=
      mul_le_mul_of_nonneg_right hMin (by linarith)
    exact ⟨hFactor.trans hMore, fun _ => hMore⟩
  · have hHigh : c.minrto_ ≤ s.t_rtxcur_ := by
      by_contra hNot
      exact hLow ⟨not_le.mp hNot, hRegular.use_rtt⟩
    have hMore : c.tcp_tick_ * s.t_backoff_ ≤
        s.t_rtxcur_ * s.t_backoff_ :=
      mul_le_mul_of_nonneg_right (hMin.trans hHigh) (by linarith)
    exact ⟨hFactor.trans hMore, fun _ => hMore⟩
  · exact ⟨hMin, fun hRfc' => absurd hRfc' hRfc⟩
  · exact ⟨hMin.trans (not_lt.mp hLess),
      fun hRfc' => absurd hRfc' hRfc⟩

/- There is always a time-out, and it is within its limits. -/
theorem timeout_within
    (hUsual : c.Usual)
    (hRegular : s.Regular) :
    ∃ t, s.timeout c = some (t, s) ∧
      c.tcp_tick_ ≤ t ∧ t ≤ c.maxrto_ ∧
        (c.rfc2988_ = true → t < c.maxrto_ →
          c.tcp_tick_ * s.t_backoff_ ≤ t) := by
  have hTick := hUsual.tick_pos
  have hMax := hUsual.maxrto_ge
  have hRaw := le_rawTimeout hUsual hRegular
  have hSame : { s with use_rtt_ := false } = s := by
    rw [← hRegular.use_rtt]
  unfold timeout
  rw [hSame]
  by_cases hCut : c.maxrto_ < s.rawTimeout c
  · rw [if_pos hCut]
    dsimp only
    rw [if_neg (not_lt.mpr hMax)]
    refine ⟨c.maxrto_, rfl, by linarith, le_rfl, ?_⟩
    exact fun _ hLess => absurd hLess (lt_irrefl _)
  · rw [if_neg hCut]
    dsimp only
    by_cases hShort : s.rawTimeout c < 2 * c.tcp_tick_
    · have hNot :
          ¬(s.use_rtt_ = true ∧
            s.rawTimeout c < c.tcp_tick_) := by
        rw [hRegular.use_rtt]
        simp
      rw [if_pos hShort, if_neg (by linarith), if_neg hNot]
      refine ⟨2 * c.tcp_tick_, rfl, by linarith, hMax, ?_⟩
      exact fun hRfc _ => (hRaw.2 hRfc).trans hShort.le
    · rw [if_neg hShort]
      exact ⟨s.rawTimeout c, rfl, hRaw.1, not_lt.mp hCut,
        fun hRfc _ => hRaw.2 hRfc⟩

theorem init_regular : (init c).Regular :=
  ⟨⟨0, by omega, rfl⟩, rfl⟩

theorem update_regular
    {now tao : Rat}
    (hRegular : s.Regular) :
    (s.update c now tao).Regular :=
  ⟨hRegular.power, hRegular.use_rtt⟩

/- The factor is doubled only where it can be. -/
theorem doubles_regular
    (hUsual : c.Usual)
    (hRegular : s.Regular) :
    ∃ more, s.doubles c = some (more, s) ∧
      (more = true → ∃ k : Nat, k < 30 ∧
        s.t_backoff_ = 2 ^ k) := by
  rcases hRegular.power with ⟨k, hk, hPower⟩
  unfold doubles
  by_cases hSmall : s.t_backoff_ < 64
  · rw [if_pos hSmall]
    refine ⟨true, rfl, fun _ => ⟨k, ?_, hPower⟩⟩
    rw [hPower] at hSmall
    by_contra hNot
    have hMore : (2 : Int) ^ 6 ≤ 2 ^ k :=
      pow_le_pow_right₀ (by norm_num) (by omega)
    omega
  · rw [if_neg hSmall]
    by_cases hRfc : c.rfc2988_ = true
    · rw [if_pos hRfc]
      rcases timeout_within hUsual hRegular with
        ⟨t, hTimeout, _, _, hFactor⟩
      rw [hTimeout]
      refine ⟨decide (t < c.maxrto_), rfl, fun hLess => ?_⟩
      have hLess := of_decide_eq_true hLess
      refine ⟨k, ?_, hPower⟩
      have hBelow : c.tcp_tick_ * s.t_backoff_ <
          2 ^ 30 * c.tcp_tick_ :=
        lt_of_le_of_lt (hFactor hRfc hLess)
          (lt_of_lt_of_le hLess hUsual.maxrto_le)
      rw [mul_comm] at hBelow
      have hCancel := lt_of_mul_lt_mul_right hBelow
        hUsual.tick_pos.le
      rw [hPower] at hCancel
      have hPowers : (2 : Int) ^ k < 2 ^ 30 := by
        exact_mod_cast hCancel
      exact (pow_lt_pow_iff_right₀ (by norm_num)).mp hPowers
    · rw [if_neg hRfc]
      exact ⟨false, rfl, fun hNo => by cases hNo⟩

theorem clobber_regular
    (hRegular : s.Regular) :
    (s.clobber c).Regular := by
  unfold clobber
  split
  · exact ⟨hRegular.power, hRegular.use_rtt⟩
  · exact hRegular

/- The estimates are kept, or the smoothed time is zero. -/
theorem clobber_srtt :
    (s.clobber c).t_srtt_ = 0 ∨ s.clobber c = s := by
  unfold clobber
  split
  · exact Or.inl rfl
  · exact Or.inr rfl

theorem backoff_regular
    (hUsual : c.Usual)
    (hRegular : s.Regular) :
    ∃ s', s.backoff c = some s' ∧ s'.Regular ∧
      (s'.t_srtt_ = 0 ∨
        s'.t_srtt_ = s.t_srtt_ ∧
          s'.t_rttvar_ = s.t_rttvar_) := by
  rcases doubles_regular hUsual hRegular with
    ⟨more, hDoubles, hRoom⟩
  unfold backoff
  rw [hDoubles]
  cases more with
  | false =>
      refine ⟨s.clobber c, rfl, clobber_regular hRegular, ?_⟩
      refine clobber_srtt.imp_right fun hSame => ?_
      rw [hSame]
      exact ⟨rfl, rfl⟩
  | true =>
      rcases hRoom rfl with ⟨k, hk, hPower⟩
      have hMore : (2 : Int) ^ k * 2 = 2 ^ (k + 1) :=
        (pow_succ 2 k).symm
      have hLe : (2 : Int) ^ (k + 1) ≤ 2 ^ 30 :=
        pow_le_pow_right₀ (by norm_num) hk
      have hOne : (1 : Int) ≤ 2 ^ (k + 1) :=
        one_le_pow₀ (by norm_num)
      have hDoubled :
          toInt (s.t_backoff_ * 2) = 2 ^ (k + 1) := by
        rw [hPower, hMore]
        exact toInt_of_lt (by omega) (by omega)
      have hNext :
          ({ s with t_backoff_ := toInt (s.t_backoff_ * 2) }
            : Rtt).Regular :=
        ⟨⟨k + 1, hk, hDoubled⟩, hRegular.use_rtt⟩
      refine ⟨_, rfl, clobber_regular hNext, ?_⟩
      refine clobber_srtt.imp_right fun hSame => ?_
      have hSrtt := congrArg t_srtt_ hSame
      have hRttvar := congrArg t_rttvar_ hSame
      exact ⟨hSrtt, hRttvar⟩

end Rtt

end Tcp

end Ns2

------------------------------------------------------------
-- The Estimates
------------------------------------------------------------

namespace Ns2

namespace Tcp

namespace Rtt

variable {c : RttParams}
variable {s s' : Rtt}
variable {now tao : Rat}
variable {a b m : Int}

/- The differences that are kept in a `short` fit into it. -/
def Fits
    (c : RttParams)
    (s : Rtt) : RttCall → Prop
| .update now tao =>
    s.t_srtt_ ≠ 0 →
      let d := measure c now tao - s.t_srtt_ >>> c.T_SRTT_BITS
      |d| ≤ 32767 ∧
        s.t_rttvar_ >>> c.T_RTTVAR_BITS - |d| ≤ 32768
| .backoff => True

instance
    (c : RttParams)
    (s : Rtt)
    (call : RttCall) :
    Decidable (s.Fits c call) :=
  match call with
  | .update _ _ =>
      inferInstanceAs (Decidable (s.t_srtt_ ≠ 0 → _ ∧ _))
  | .backoff => .isTrue trivial

/- The estimates are within the range of the samples. -/
structure Within
    (a b : Int)
    (s : Rtt) : Prop where
  srtt_ge : 8 * a ≤ s.t_srtt_
  srtt_le : s.t_srtt_ ≤ 8 * b + 7
  rttvar_ge : 1 ≤ s.t_rttvar_
  rttvar_le : s.t_rttvar_ ≤ 5 * b + 3

theorem Within.mono
    {a' b' : Int}
    (hWithin : Within a b s)
    (ha : a' ≤ a)
    (hb : b ≤ b') :
    Within a' b' s := by
  rcases hWithin with ⟨hLow, hHigh, hOne, hDeviation⟩
  exact ⟨by omega, by omega, hOne, by omega⟩

theorem Within.congr
    (hWithin : Within a b s)
    (hSrtt : s'.t_srtt_ = s.t_srtt_)
    (hRttvar : s'.t_rttvar_ = s.t_rttvar_) :
    Within a b s' := by
  constructor
  case srtt_ge => exact hSrtt ▸ hWithin.srtt_ge
  case srtt_le => exact hSrtt ▸ hWithin.srtt_le
  case rttvar_ge => exact hRttvar ▸ hWithin.rttvar_ge
  case rttvar_le => exact hRttvar ▸ hWithin.rttvar_le

theorem one_le_measure :
    1 ≤ measure c now tao := by
  unfold measure
  dsimp only
  split <;> split <;> omega

theorem accumulate_eq
    {x d : Int}
    (hLow : 1 ≤ x + d)
    (hHigh : x + d < 2147483648) :
    accumulate x d = x + d := by
  unfold accumulate
  rw [toInt_of_lt (by omega) hHigh, if_neg (by omega)]

/- The first sample, and one after the estimate was given up. -/
theorem estimate_first
    (hUsual : c.Usual)
    (hZero : s.t_srtt_ = 0)
    (hLow : 1 ≤ m)
    (hHigh : m ≤ 2 ^ 20) :
    s.estimate c m = (m * 8, m * 2) := by
  unfold estimate
  rw [if_neg (not_not.mpr hZero), hUsual.srtt_bits,
    hUsual.rttvar_bits]
  rw [toInt_of_lt (by omega) (by omega),
    toInt_of_lt (by omega) (by omega)]
  rfl

/- A sample moves the estimate by an eighth of the difference. -/
theorem estimate_next
    (hUsual : c.Usual)
    (hSome : s.t_srtt_ ≠ 0)
    (hFits : |m - s.t_srtt_ / 8| ≤ 32767 ∧
      s.t_rttvar_ / 4 - |m - s.t_srtt_ / 8| ≤ 32768)
    (hRange : 0 < s.t_srtt_ ∧ s.t_srtt_ < 2 ^ 24)
    (hDeviation : 0 < s.t_rttvar_ ∧ s.t_rttvar_ < 2 ^ 24)
    (hLow : 1 ≤ m) :
    s.estimate c m =
      (s.t_srtt_ + (m - s.t_srtt_ / 8),
        s.t_rttvar_ + (|m - s.t_srtt_ / 8| - s.t_rttvar_ / 4)) := by
  rcases abs_le.mp hFits.1 with ⟨hBelow, hAbove⟩
  have hNonneg := abs_nonneg (m - s.t_srtt_ / 8)
  have hDelta : s.delta c m = m - s.t_srtt_ / 8 := by
    unfold delta
    rw [hUsual.srtt_bits, Int.shiftRight_eq_div_pow]
    exact toShort_of_lt (by omega) (by omega)
  have hAbs :
      (if m - s.t_srtt_ / 8 < 0 then
          toShort (-(m - s.t_srtt_ / 8))
        else m - s.t_srtt_ / 8) = |m - s.t_srtt_ / 8| := by
    split
    next hNeg =>
      rw [abs_of_neg hNeg]
      exact toShort_of_lt (by omega) (by omega)
    next hPos => exact (abs_of_nonneg (not_lt.mp hPos)).symm
  have hMoved :
      s.deviation c (s.delta c m) =
        |m - s.t_srtt_ / 8| - s.t_rttvar_ / 4 := by
    unfold deviation
    rw [hDelta, hAbs, hUsual.rttvar_bits,
      Int.shiftRight_eq_div_pow]
    apply toShort_of_lt
    · have hSecond := hFits.2
      norm_num
      omega
    · norm_num
      omega
  unfold estimate
  rw [if_pos hSome, hMoved, hDelta,
    accumulate_eq (by omega) (by omega),
    accumulate_eq (by omega) (by omega)]

/- A mean of numbers in a range is in the range. -/
theorem update_within
    (hUsual : c.Usual)
    (ha : 1 ≤ a)
    (hb : b ≤ 2 ^ 20)
    (hSample : a ≤ measure c now tao ∧ measure c now tao ≤ b)
    (hBefore : s.t_srtt_ = 0 ∨ Within a b s)
    (hFits : s.Fits c (.update now tao)) :
    Within a b (s.update c now tao) := by
  generalize hMeasure : measure c now tao = m at hSample
  have hSrtt :
      (s.update c now tao).t_srtt_ = (s.estimate c m).1 := by
    unfold update
    rw [hMeasure]
  have hRttvar :
      (s.update c now tao).t_rttvar_ = (s.estimate c m).2 := by
    unfold update
    rw [hMeasure]
  by_cases hZero : s.t_srtt_ = 0
  · rw [estimate_first hUsual hZero (by omega) (by omega)]
      at hSrtt hRttvar
    constructor
    case srtt_ge => omega
    case srtt_le => omega
    case rttvar_ge => omega
    case rttvar_le => omega
  · rcases hBefore.resolve_left hZero with
      ⟨hLow, hHigh, hOne, hDeviation⟩
    have hNow := hFits hZero
    dsimp only at hNow
    rw [hMeasure, hUsual.srtt_bits, hUsual.rttvar_bits,
      Int.shiftRight_eq_div_pow, Int.shiftRight_eq_div_pow] at hNow
    have hMean : |m - s.t_srtt_ / 8| ≤ b - a := by
      rw [abs_le]
      constructor <;> omega
    have hNonneg := abs_nonneg (m - s.t_srtt_ / 8)
    rw [estimate_next hUsual hZero hNow (by omega) (by omega)
      (by omega)] at hSrtt hRttvar
    constructor
    case srtt_ge => omega
    case srtt_le => omega
    case rttvar_ge => omega
    case rttvar_le => omega

end Rtt

end Tcp

end Ns2

------------------------------------------------------------
-- Runs
------------------------------------------------------------

namespace Ns2

namespace Tcp

open Rtt

/- The samples of the calls, in ticks. -/
def samples
    (c : RttParams)
    (calls : List RttCall) : List Int :=
  calls.filterMap fun call =>
    match call with
    | .update now tao => some (measure c now tao)
    | .backoff => none

variable {c : RttParams}
variable {s : Rtt}
variable {calls : List RttCall}
variable {a b : Int}

theorem samples_append
    (calls more : List RttCall) :
    samples c (calls ++ more) =
      samples c calls ++ samples c more :=
  List.filterMap_append

theorem mem_samples
    {now tao : Rat}
    (hCall : .update now tao ∈ calls) :
    measure c now tao ∈ samples c calls :=
  List.mem_filterMap.mpr ⟨_, hCall, rfl⟩

/- No call takes the exit, whatever the samples are. -/
theorem run_regular
    (hUsual : c.Usual)
    (calls : List RttCall) :
    ∃ s, PartialRun.run (act c) (init c) calls = some s ∧
      s.Regular := by
  refine @PartialRun.progress _ _ (act c)
    (fun _ s => s.Regular) (fun _ _ _ => True) ?_ _ _
    init_regular fun _ _ _ _ _ _ => trivial
  intro _ s call hRegular _
  cases call with
  | update now tao => exact ⟨_, rfl, update_regular hRegular⟩
  | backoff =>
      rcases backoff_regular hUsual hRegular with
        ⟨s', hBackoff, hRegular', _⟩
      exact ⟨s', hBackoff, hRegular'⟩

theorem init_srtt
    (hUsual : c.Usual) :
    (init c).t_srtt_ = 0 := by
  unfold init
  dsimp only
  rw [hUsual.srtt_init]
  simp [truncate, toInt]

/- Where no difference is cut off the estimates are in range. -/
theorem run_within
    (hUsual : c.Usual)
    (ha : 1 ≤ a)
    (hb : b ≤ 2 ^ 20)
    (hSamples : ∀ m ∈ samples c calls, a ≤ m ∧ m ≤ b)
    (hFits : PartialRun.Throughout (act c) (Fits c) (init c)
      calls)
    (hRun : PartialRun.run (act c) (init c) calls = some s) :
    s.Regular ∧ (s.t_srtt_ = 0 ∨ Within a b s) := by
  have hGood : ∀ before call after s₁,
      calls = before ++ call :: after →
        PartialRun.run (act c) (init c) before = some s₁ →
          s₁.Fits c call ∧
            ∀ m ∈ samples c [call], a ≤ m ∧ m ≤ b := by
    intro before call after s₁ hSplit hBefore
    refine ⟨hFits before call after s₁ hSplit hBefore, ?_⟩
    intro m hm
    apply hSamples m
    rw [hSplit, ← List.singleton_append, samples_append,
      samples_append]
    exact List.mem_append_right _ (List.mem_append_left _ hm)
  have hStep : ∀ (_ : List RttCall) (s : Rtt) (call : RttCall),
      s.Regular ∧ (s.t_srtt_ = 0 ∨ Within a b s) →
        (s.Fits c call ∧
          ∀ m ∈ samples c [call], a ≤ m ∧ m ≤ b) →
        ∃ s', s.act c call = some s' ∧ s'.Regular ∧
          (s'.t_srtt_ = 0 ∨ Within a b s') := by
    intro _ s call hState hCall
    cases call with
    | update now tao =>
        have hSample := hCall.2 _
          (mem_samples (List.mem_singleton_self _))
        exact ⟨_, rfl, update_regular hState.1, Or.inr
          (update_within hUsual ha hb hSample hState.2 hCall.1)⟩
    | backoff =>
        rcases backoff_regular hUsual hState.1 with
          ⟨s', hBackoff, hRegular', hKept⟩
        refine ⟨s', hBackoff, hRegular', ?_⟩
        rcases hKept with hZero | ⟨hSrtt, hRttvar⟩
        · exact Or.inl hZero
        · rcases hState.2 with hZero | hWithin
          · exact Or.inl (hSrtt.trans hZero)
          · exact Or.inr (hWithin.congr hSrtt hRttvar)
  rcases @PartialRun.progress _ _ (act c)
      (fun _ s => s.Regular ∧ (s.t_srtt_ = 0 ∨ Within a b s))
      (fun _ s call => s.Fits c call ∧
        ∀ m ∈ samples c [call], a ≤ m ∧ m ≤ b)
      (fun before s call => hStep before s call) _ _
      ⟨init_regular, Or.inl (init_srtt hUsual)⟩ hGood with
    ⟨s', hRun', hResult⟩
  rw [hRun] at hRun'
  cases hRun'
  exact hResult

/-
  The factor stays a power of two and the time-out within its
  limits.  If no difference is cut off, the estimates after
  each sample are within the range of the samples so far.
-/
theorem rtt_bounds
    (hUsual : c.Usual)
    (hSamples : ∀ m ∈ samples c calls, m ≤ 2 ^ 20) :
    ∃ s, PartialRun.run (act c) (init c) calls = some s ∧
      (∃ k : Nat, s.t_backoff_ = 2 ^ k) ∧
      (∃ t s', s.timeout c = some (t, s') ∧
        c.tcp_tick_ ≤ t ∧ t ≤ c.maxrto_) ∧
      (PartialRun.Throughout (act c) (Fits c) (init c) calls →
        ∀ before now tao,
          calls = before ++ [.update now tao] →
            ∀ a b, (∀ m ∈ samples c calls, a ≤ m ∧ m ≤ b) →
              Within a b s) := by
  rcases run_regular hUsual calls with ⟨s, hRun, hRegular⟩
  rcases timeout_within hUsual hRegular with
    ⟨t, hTimeout, hTick, hMax, _⟩
  rcases hRegular.power with ⟨k, _, hPower⟩
  refine ⟨s, hRun, ⟨k, hPower⟩, ⟨t, s, hTimeout, hTick, hMax⟩, ?_⟩
  intro hFits before now tao hLast a b hRange
  have hOne : ∀ m ∈ samples c calls, 1 ≤ m := by
    intro m hm
    rcases List.mem_filterMap.mp hm with ⟨call, _, hCall⟩
    cases call with
    | update now' tao' =>
        cases hCall
        exact one_le_measure
    | backoff => cases hCall
  have hAll : ∀ m ∈ samples c calls,
      max a 1 ≤ m ∧ m ≤ min b (2 ^ 20) := by
    intro m hm
    exact ⟨max_le (hRange m hm).1 (hOne m hm),
      le_min (hRange m hm).2 (hSamples m hm)⟩
  have hThere : Within (max a 1) (min b (2 ^ 20)) s := by
    subst hLast
    rw [PartialRun.run_append] at hRun
    rcases Option.bind_eq_some_iff.mp hRun with
      ⟨s₁, hBefore, hUpdate⟩
    have hFits' := (PartialRun.throughout_concat hBefore).mp hFits
    have hRange' : ∀ m ∈ samples c before,
        max a 1 ≤ m ∧ m ≤ min b (2 ^ 20) := by
      intro m hm
      apply hAll m
      rw [samples_append]
      exact List.mem_append_left _ hm
    have hState := run_within hUsual (le_max_right a 1)
      (min_le_right b _) hRange' hFits'.1 hBefore
    have hSample := hAll _ (mem_samples (List.mem_append_right
      before (List.mem_singleton_self (RttCall.update now tao))))
    cases hUpdate
    exact update_within hUsual (le_max_right a 1)
      (min_le_right b _) hSample hState.2 hFits'.2
  exact hThere.mono (le_max_left a 1) (min_le_left b _)

/- Parameters as they are by default, with a tick of 1/100. -/
def usualParams : RttParams :=
  ⟨3, 2, 2, 0, 0, 3, 1 / 100, 1 / 5, 60, 0, true, true⟩

theorem usualParams_usual : usualParams.Usual := by
  constructor <;> norm_num [usualParams]

/- A sample, enough backoffs to give the estimate up, another. -/
theorem rtt_bounds_backoff :
    ∃ s,
      PartialRun.run (act usualParams) (init usualParams)
          [.update 0 (1 / 2), .update 0 (3 / 4), .backoff,
            .backoff, .backoff, .backoff, .update 0 1] =
        some s ∧
      (∃ k : Nat, s.t_backoff_ = 2 ^ k) ∧
      (∃ t s', s.timeout usualParams = some (t, s') ∧
        usualParams.tcp_tick_ ≤ t ∧ t ≤ usualParams.maxrto_) ∧
      Within 50 100 s := by
  rcases @rtt_bounds usualParams
      [.update 0 (1 / 2), .update 0 (3 / 4), .backoff,
        .backoff, .backoff, .backoff, .update 0 1]
      usualParams_usual (by decide +kernel) with
    ⟨s, hRun, hPower, hTimeout, hWithin⟩
  refine ⟨s, hRun, hPower, hTimeout, ?_⟩
  exact hWithin
    (PartialRun.throughout_of_check (by decide +kernel))
    [.update 0 (1 / 2), .update 0 (3 / 4), .backoff, .backoff,
      .backoff, .backoff] 0 1 rfl 50 100 (by decide +kernel)

/-
  After a sample of one tick, one of 32769 ticks moves the
  estimate down: their difference is -32768 in a `short`.
-/
theorem rtt_wraps :
    ¬∀ (calls : List RttCall) (s : Rtt),
      (∀ m ∈ samples usualParams calls, 1 ≤ m ∧ m ≤ 2 ^ 20) →
        PartialRun.run (act usualParams) (init usualParams)
            calls = some s →
          ∀ before now tao,
            calls = before ++ [.update now tao] →
              ∀ a b,
                (∀ m ∈ samples usualParams calls,
                  a ≤ m ∧ m ≤ b) → Within a b s := by
  intro hAll
  have hWithin := hAll
    [.update 0 (1 / 100), .update 0 (32769 / 100)] _
    (by decide +kernel) rfl [.update 0 (1 / 100)] 0
    (32769 / 100) rfl 1 32769 (by decide +kernel)
  have hLow := hWithin.srtt_ge
  revert hLow
  decide +kernel

end Tcp

end Ns2
