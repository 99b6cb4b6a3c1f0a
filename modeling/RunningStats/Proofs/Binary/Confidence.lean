import RunningStats.Proofs.Binary.Spread

/-!
# Intervals that contain their estimate

A confidence interval reaches to either side of the mean as far as the quantile times the standard
error. In the 64-bit format the quantile is asked for at `0.5 + level / 2`, rounded: at the largest
level below one this is one, where the quantile is infinite. Infinity is a margin like any other,
unless the standard error is zero; then the margin is no number, and neither are the bounds.

* `Interval.contains_symmetric`: around a finite estimate, a margin that is an amount leaves the
  estimate within the bounds, however it is rounded and also where it overflows.
* `upperProbability_lt_one`: at every other level the probability stays below one.
* **`Summary.session_interval_contains`**: in every session with finite moments, the interval that
  is answered contains its estimate, but for the largest level and a standard error of zero;
  `Summary.session_interval_empty` has such a session.
-/

namespace RunningStats

open RoundedScalar BinaryScalar

/-! ## Symmetric intervals -/

namespace Interval

variable {α ω : Type} [Scalar α] [BinaryScalar α] {estimate margin : α} (level : ω)

/-- **A margin that is an amount** leaves the estimate within the bounds. -/
theorem contains_symmetric (hf : Scalar.isFinite estimate) (hm : IsAmount margin) :
    (symmetric estimate margin level).contains estimate = true := by
  rw [contains, Bool.and_eq_true, decide_eq_true_iff, decide_eq_true_iff]
  exact ⟨hm.sub_le hf, hm.le_add hf⟩

/-- A margin that is no number leaves nothing within the bounds. -/
theorem not_contains_symmetric (hm : NotANumber margin) (x : α) :
    (symmetric estimate margin level).contains x = false := by
  have hupper : ¬ x ≤ estimate + margin := not_le_notANumber x (add_notANumber estimate hm)
  rw [contains, Bool.and_eq_false_iff]
  exact .inr (decide_eq_false hupper)

end Interval

namespace Summary

variable {quantile : UInt64 → Float → Float} {level : Float}

/-! ## Levels -/

/-- The numbers that the ends of the range of levels lead to. -/
theorem toRat_ends :
    toRat (0.5 : Float) = 1 / 2 ∧ toRat (0.4999999999999999 : Float) = 1 / 2 - 1 / 2 ^ 53 ∧
      toRat (0.9999999999999999 : Float) = 1 - 1 / 2 ^ 53 := by
  decide +kernel

theorem toRat_level (h0 : 0 < level) (h1 : level < 1) :
    Scalar.isFinite level ∧ 0 < toRat level ∧ toRat level < 1 := by
  have hf : Scalar.isFinite level := finite_of_between h0 h1
  rw [lt_iff_toRat (isFinite_of_isZero isZero_zero) hf, toRat_zero] at h0
  rw [lt_iff_toRat hf isFinite_one, toRat_one] at h1
  exact ⟨hf, h0, h1⟩

theorem nearest_half {x : Float} (hf : Scalar.isFinite x) :
    Nearest (toRat x / 2) (x / Scalar.ofCount 2) := by
  have htwo : toRat (Scalar.ofCount 2 : Float) = 2 := toRat_ofCount (n := 2) (by decide)
  have hzero : ¬ Scalar.isZero (Scalar.ofCount 2 : Float) := fun hz => by
    rw [isZero_iff_toRat (finite_ofCount 2), htwo] at hz
    exact two_ne_zero hz
  rw [← htwo]
  exact nearest_div hf (finite_ofCount 2) hzero

/-- The probability that belongs to a level, between a half and what bounds half of the level. -/
theorem toRat_upperProbability_le {y z : Float} (hf : Scalar.isFinite level)
    (h0 : 0 ≤ toRat level) (hle : toRat level ≤ 2 * toRat y) (hz : 1 / 2 + toRat y ≤ toRat z) :
    Scalar.isFinite (upperProbability level) ∧ 1 / 2 ≤ toRat (upperProbability level) ∧
      toRat (upperProbability level) ≤ toRat z := by
  obtain ⟨hhalf, -⟩ := toRat_ends
  obtain ⟨hfl, hlow, hhigh⟩ := (nearest_half hf).between (x := 0) (y := y)
    (by rw [toRat_zero]; linarith) (by linarith)
  have hone : toRat (Scalar.ofCount 1 : Float) = 1 := toRat_one
  have hconst : Nearest (toRat (0.5 : Float)) (Scalar.ofCount 1 / Scalar.ofCount 2 : Float) := by
    rw [hhalf, ← hone]
    exact nearest_half (finite_ofCount 1)
  obtain ⟨hfc, hc⟩ := hconst.exact
  rw [toRat_zero] at hlow
  have h := (nearest_add hfc hfl).between (x := 0.5) (y := z) (by linarith) (by linarith)
  rwa [hhalf] at h

/-- Between zero and one the largest level is one part in `2 ^ 53` short of one, and the next one
two parts. -/
theorem toRat_le_of_ne_largest (h0 : 0 < level) (h1 : level < 1)
    (hne : level ≠ 0.9999999999999999) : toRat level ≤ 1 - 2 / 2 ^ 53 := by
  obtain ⟨hf, -, hone⟩ := toRat_level h0 h1
  by_cases hhalf : toRat level < 1 / 2
  · linarith
  obtain ⟨n, hn⟩ : Binary.Step (-53) (toRat level) := (representable level).step_of_le fun _ => by
    have hprec : (2 : ℚ) ^ 53 * 2 ^ (-53 : ℤ) = 1 := by norm_num
    rw [abs_of_pos (by linarith), show (spec Float).mantissaBits = 53 from rfl, hprec]
    linarith
  have hscale : (2 : ℚ) ^ (-53 : ℤ) = 1 / 2 ^ 53 := by norm_num
  rw [hscale] at hn
  have hlt : n < 2 ^ 53 := by
    have : (n : ℚ) < 2 ^ 53 := by linarith
    exact_mod_cast this
  have hlast : n ≠ 2 ^ 53 - 1 := by
    rintro rfl
    obtain ⟨-, -, hlargest⟩ := toRat_ends
    have hnz : toRat (0.9999999999999999 : Float) ≠ 0 := by
      rw [hlargest]
      norm_num
    refine hne (eq_of_toRat hf (finite_of_toRat hnz) ?_ hnz)
    rw [hn, hlargest]
    norm_num
  have hle : (n : ℚ) ≤ 2 ^ 53 - 2 := by
    have : n ≤ 2 ^ 53 - 2 := by omega
    exact_mod_cast this
  rw [hn]
  linarith

/-- The probability for a level between zero and one lies between a half and one. -/
theorem upperProbability_mem (h0 : 0 < level) (h1 : level < 1) :
    0.5 ≤ upperProbability level ∧ upperProbability level ≤ 1 := by
  obtain ⟨hf, hzero, hone⟩ := toRat_level h0 h1
  obtain ⟨hhalf, -⟩ := toRat_ends
  have hfh : Scalar.isFinite (0.5 : Float) := finite_of_toRat (by rw [hhalf]; norm_num)
  obtain ⟨hfp, hlow, hhigh⟩ := toRat_upperProbability_le (y := 0.5) (z := 1) hf hzero.le
    (by rw [hhalf]; linarith) (by rw [hhalf, toRat_one]; norm_num)
  exact ⟨(le_iff_toRat hfh hfp).mpr (by rwa [hhalf]), (le_iff_toRat hfp isFinite_one).mpr hhigh⟩

/-- **Only the largest level is rounded to certainty.** -/
theorem upperProbability_lt_one (h0 : 0 < level) (h1 : level < 1)
    (hne : level ≠ 0.9999999999999999) : upperProbability level < 1 := by
  obtain ⟨hf, hzero, -⟩ := toRat_level h0 h1
  obtain ⟨-, hy, hz⟩ := toRat_ends
  have hle := toRat_le_of_ne_largest h0 h1 hne
  obtain ⟨hfp, -, hhigh⟩ := toRat_upperProbability_le (y := 0.4999999999999999)
    (z := 0.9999999999999999) hf hzero.le (by rw [hy]; linarith) (by rw [hy, hz]; linarith)
  refine (lt_iff_toRat hfp isFinite_one).mpr ?_
  rw [hz] at hhigh
  rw [toRat_one]
  linarith

theorem upperProbability_largest : upperProbability (0.9999999999999999 : Float) = 1 := by
  decide +kernel

/-! ## Margins -/

theorem one_div_zero : 0 ≤ (1 / 0 : Float) ∧ Scalar.isFinite (1 / 0 : Float) = false := by
  decide +kernel

section Quantile

variable {n : UInt64} {e : Float}
  (hnumber : ∀ n p, n ≠ 0 → 0.5 ≤ p → p < 1 →
    Scalar.isFinite (quantile n p) ∧ 0 ≤ quantile n p)
  (hone : ∀ n, n ≠ 0 → quantile n 1 = 1 / 0) (hn : n ≠ 0)
include hone hn

/-- A margin is no number where certainty meets a standard error of zero. -/
theorem notANumber_margin (he : Scalar.isZero e) :
    NotANumber (quantile n (upperProbability 0.9999999999999999) * e) := by
  rw [upperProbability_largest, hone n hn]
  exact mul_zero_of_not_finite one_div_zero.2 he

include hnumber

/-- **Every other margin is an amount.** -/
theorem isAmount_margin (h0 : 0 < level) (h1 : level < 1) (hf : Scalar.isFinite e)
    (he : IsAmount e) (hne : ¬ (level = 0.9999999999999999 ∧ Scalar.isZero e)) :
    IsAmount (quantile n (upperProbability level) * e) := by
  by_cases hl : level = 0.9999999999999999
  · rw [hl, upperProbability_largest, hone n hn]
    exact (isAmount_of_nonneg one_div_zero.1).mul he hf fun hz => hne ⟨hl, hz⟩
  · obtain ⟨hfq, hq⟩ := hnumber n _ hn (upperProbability_mem h0 h1).1
      (upperProbability_lt_one h0 h1 hl)
    exact (isAmount_of_nonneg hq).mul_of_finite he hfq hf

end Quantile

/-! ## Sessions -/

/-- **Confidence intervals contain their estimate**, in every session with finite moments and at
every level between zero and one, but for one case: at the largest level below one, with a standard
error of zero. The quantile is an amount short of certainty and infinite at it. -/
theorem session_interval_contains (quantile : UInt64 → Float → Float)
    (hnumber : ∀ n p, n ≠ 0 → 0.5 ≤ p → p < 1 →
      Scalar.isFinite (quantile n p) ∧ 0 ≤ quantile n p)
    (hone : ∀ n, n ≠ 0 → quantile n 1 = 1 / 0)
    (cs : List (String × Command Float)) (name : String) (level : Float)
    (i : Interval Float Float) :
    let s := session cs name
    s.moments.AllFinite → s.meanIntervalWith quantile level = .ok i →
    (i.contains i.estimate = true ↔ ¬ (level = 0.9999999999999999 ∧
      ∃ e, (s.standardError : Except (Fault Float) Float) = .ok e ∧ Scalar.isZero e)) := by
  intro s hm h
  have hl : 0 < level ∧ level < 1 := by
    by_contra hl
    rw [meanIntervalWith, if_pos hl] at h
    cases h
  rw [meanIntervalWith, if_neg (not_not_intro hl)] at h
  obtain ⟨e, he, h⟩ := of_bind_ok h
  obtain ⟨-, -, herror⟩ := session_spread_finite (ω := Float) (by decide) cs name hm
  obtain ⟨hf, hamount⟩ := herror e he
  have hn := sub_one_ne_zero_of_standardError he
  obtain rfl := Except.ok.inj h
  by_cases hzero : level = 0.9999999999999999 ∧ Scalar.isZero e
  · refine iff_of_false ?_ (not_not_intro ⟨hzero.1, e, he, hzero.2⟩)
    rw [Bool.not_eq_true, hzero.1]
    exact Interval.not_contains_symmetric _ (notANumber_margin hone hn hzero.2) _
  · refine iff_of_true (Interval.contains_symmetric _ hm.2.1
      (isAmount_margin hnumber hone hn hl.1 hl.2 hf hamount hzero)) ?_
    rintro ⟨hlevel, e', he', hz⟩
    obtain rfl := Except.ok.inj (he.symm.trans he')
    exact hzero ⟨hlevel, hz⟩

/-- Two observations leave one degree of freedom, for which the quantile of three quarters is one;
and two observations of one value, at the largest level. -/
theorem session_interval_contains_float :
    let quantile : UInt64 → Float → Float := fun _ p => if p < 1 then 1 else 1 / 0
    let spread : List (String × Command Float) := [("a", .addValues [1, 2])]
    let constant : List (String × Command Float) := [("a", .addValues [1, 1])]
    (∀ n p, n ≠ 0 → 0.5 ≤ p → p < 1 → Scalar.isFinite (quantile n p) ∧ 0 ≤ quantile n p) ∧
      (∀ n, n ≠ 0 → quantile n 1 = 1 / 0) ∧
      (session spread "a").moments.AllFinite ∧ (session constant "a").moments.AllFinite ∧
      (∃ i, (session spread "a").meanIntervalWith quantile 0.5 = .ok i ∧
        i.contains i.estimate = true) ∧
      ∃ i, (session constant "a").meanIntervalWith quantile 0.9999999999999999 = .ok i ∧
        i.contains i.estimate = false := by
  intro quantile spread constant
  have hnumber : ∀ n p, n ≠ 0 → 0.5 ≤ p → p < 1 →
      Scalar.isFinite (quantile n p) ∧ 0 ≤ quantile n p := fun n p _ _ hp => by
    show Scalar.isFinite (if p < 1 then (1 : Float) else 1 / 0) ∧
      0 ≤ (if p < 1 then (1 : Float) else 1 / 0)
    rw [if_pos hp]
    exact ⟨by decide +kernel, by decide +kernel⟩
  have hone : ∀ n, n ≠ 0 → quantile n 1 = 1 / 0 := fun n _ => if_neg (by decide +kernel)
  have hspread : (session spread "a").moments.AllFinite := by decide +kernel
  have hconstant : (session constant "a").moments.AllFinite := by decide +kernel
  have hs : (session spread "a").meanIntervalWith quantile 0.5 = .ok _ :=
    meanIntervalWith_ok (x := 0.5) (by decide +kernel) (by decide +kernel)
  have hc : (session constant "a").meanIntervalWith quantile 0.9999999999999999 = .ok _ :=
    meanIntervalWith_ok (x := 0) (by decide +kernel) (by decide +kernel)
  refine ⟨hnumber, hone, hspread, hconstant, ⟨_, hs, ?_⟩, ⟨_, hc, ?_⟩⟩
  · refine (session_interval_contains quantile hnumber hone spread "a" 0.5 _ hspread hs).mpr ?_
    exact fun h => absurd h.1 (by decide +kernel)
  · rw [← Bool.not_eq_true, session_interval_contains quantile hnumber hone constant "a"
      0.9999999999999999 _ hconstant hc, not_not]
    exact ⟨rfl, 0, by decide +kernel, by decide +kernel⟩

/-- An interval is answered around an estimate, but its bounds are no numbers and do not hold it. -/
def AnsweredWithoutBounds (estimate : Float)
    (answer : Except (Fault Float) (Interval Float Float)) : Prop :=
  ∃ i, answer = .ok i ∧ i.estimate = estimate ∧ Scalar.undefined i.lower ∧
    Scalar.undefined i.upper ∧ i.contains i.estimate = false

/-- Two observations of one value, at the largest level: whatever the quantile is elsewhere, if it
is infinite at certainty, then the interval does not hold the mean that it is given for. The
computed quantile is such a one. -/
theorem session_interval_empty :
    let cs : List (String × Command Float) := [("a", .addValues [1, 1])]
    let level : Float := 0.9999999999999999
    0 < level ∧ level < 1 ∧ (session cs "a").moments.AllFinite ∧
      (∀ quantile : UInt64 → Float → Float, quantile 1 1 = 1 / 0 →
        AnsweredWithoutBounds 1 ((session cs "a").meanIntervalWith quantile level)) ∧
      AnsweredWithoutBounds 1 ((session cs "a").meanInterval level) := by
  intro cs level
  have hl : 0 < level ∧ level < 1 := by decide +kernel
  have hvariance : ((session cs "a").variance : Except (Fault Float) Float) = .ok 0 := by
    decide +kernel
  have hdegrees : (session cs "a").samples - 1 = 1 := by decide +kernel
  have hevery (quantile : UInt64 → Float → Float) (hone : quantile 1 1 = 1 / 0) :
      AnsweredWithoutBounds 1 ((session cs "a").meanIntervalWith quantile level) := by
    have hi : (session cs "a").meanIntervalWith quantile level = .ok _ :=
      meanIntervalWith_ok hl hvariance
    rw [hdegrees, upperProbability_largest, hone] at hi
    exact ⟨_, hi, by decide +kernel⟩
  exact ⟨hl.1, hl.2, by decide +kernel, hevery, hevery StudentT.quantile (by decide +kernel)⟩

end Summary

end RunningStats
