import RunningStats.Proofs.Exact.Guarded

/-!
# Confidence intervals are centred and nested

A confidence interval is asked for at a level, and answered from the variance: beside the level
itself only the guards of the variance can refuse it. Its margin is the quantile at the level times
the standard error, of which neither is negative. So the interval holds the mean in its middle, and
grows with the quantile, hence with the level.

* `of_meanIntervalWith`: the interval that is answered, from the variance and the quantile;
* `Interval.contains_symmetric_mono`: of two intervals around one mean, the one with the larger
  margin holds the other;
* `mean_intervals`: the intervals of every session, with any quantile that is not negative and does
  not decrease above the median.
-/

namespace RunningStats

/-! ## Symmetric intervals -/

namespace Interval

variable {mean margin margin' level level' x : ℝ}

theorem contains_symmetric_iff :
    (symmetric mean margin level).contains x = true ↔ mean - margin ≤ x ∧ x ≤ mean + margin := by
  rw [contains, Bool.and_eq_true, decide_eq_true_iff, decide_eq_true_iff]
  rfl

/-- An interval with no smaller margin holds what another around the same mean does. -/
theorem contains_symmetric_mono (h : margin ≤ margin')
    (hx : (symmetric mean margin level).contains x = true) :
    (symmetric mean margin' level').contains x = true := by
  obtain ⟨hlo, hhi⟩ := contains_symmetric_iff.mp hx
  exact contains_symmetric_iff.mpr ⟨by linarith, by linarith⟩

end Interval

namespace Summary

variable {quantile : UInt64 → ℝ → ℝ} {s : Summary ℝ} {level : ℝ} {i : Interval ℝ ℝ}

/-! ## Margins -/

theorem upperProbability_real (level : ℝ) : upperProbability level = 1 / 2 + level / 2 := by
  simp [upperProbability]

/-- How far an interval reaches to either side, for a variance. -/
noncomputable def marginOf (quantile : UInt64 → ℝ → ℝ) (s : Summary ℝ) (v level : ℝ) : ℝ :=
  quantile (s.samples - 1) (1 / 2 + level / 2) * √(v / s.samples.toNat)

theorem of_meanIntervalWith (hl : 0 < level ∧ level < 1)
    (h : s.meanIntervalWith quantile level = .ok i) :
    ∃ v, (s.variance : Except (Fault ℝ) ℝ) = .ok v ∧ s.samples - 1 ≠ 0 ∧
      i = .symmetric s.moments.mean (marginOf quantile s v level) level := by
  rw [meanIntervalWith_eq hl] at h
  cases hv : (s.variance : Except (Fault ℝ) ℝ) with
  | error e =>
    rw [hv] at h
    cases h
  | ok v =>
    have herror : (s.standardError : Except (Fault ℝ) ℝ) =
        .ok (Scalar.sqrt (v / Scalar.ofCount s.samples)) := by
      rw [standardError, hv]
      rfl
    rw [hv] at h
    refine ⟨v, rfl, sub_one_ne_zero_of_standardError herror, ?_⟩
    rw [← Except.ok.inj h, upperProbability_real]
    rfl

section Quantile

variable (hnonneg : ∀ n p, n ≠ 0 → 1 / 2 ≤ p → p < 1 → 0 ≤ quantile n p)
  (hmono : ∀ n p q, n ≠ 0 → 1 / 2 ≤ p → p ≤ q → q < 1 → quantile n p ≤ quantile n q)
  (hn : s.samples - 1 ≠ 0) (v : ℝ)

include hnonneg hn in
theorem marginOf_nonneg (h0 : 0 < level) (h1 : level < 1) : 0 ≤ marginOf quantile s v level :=
  mul_nonneg (hnonneg _ _ hn (by linarith) (by linarith)) (Real.sqrt_nonneg _)

include hmono hn in
theorem marginOf_mono {level' : ℝ} (h0 : 0 < level) (hle : level ≤ level') (h1 : level' < 1) :
    marginOf quantile s v level ≤ marginOf quantile s v level' :=
  mul_le_mul_of_nonneg_right (hmono _ _ _ hn (by linarith) (by linarith) (by linarith))
    (Real.sqrt_nonneg _)

end Quantile

/-! ## Sessions -/

/-- **Confidence intervals are centred and nested.** At a level that does not lie between zero and
one, undefined ones included, there is none, whatever was observed and whatever the scalars. Over
the reals, with a quantile that is not negative and does not decrease above the median, there is
one for a session at every other level unless the variance has a fault, which is then that of the
interval. The mean is in its middle, at a distance from both bounds that is the quantile times the
standard error and not negative. Of two levels the larger has the larger interval. -/
theorem mean_intervals :
    (∀ {α ω : Type} [Scalar α] [Scalar ω] [Wide α ω] (quantile : UInt64 → ω → ω) (s : Summary α)
      (level : ω), s.meanIntervalWith quantile level = .error (.invalidConfidence level) ↔
        ¬(0 < level ∧ level < 1)) ∧
    ∀ quantile : UInt64 → ℝ → ℝ,
      (∀ n p, n ≠ 0 → 1 / 2 ≤ p → p < 1 → 0 ≤ quantile n p) →
      (∀ n p q, n ≠ 0 → 1 / 2 ≤ p → p ≤ q → q < 1 → quantile n p ≤ quantile n q) →
      ∀ (cs : List (String × Command ℝ)) (name : String), (held cs name).card < 2 ^ 64 →
      let s := session cs name
      let variance : Except (Fault ℝ) ℝ := s.variance
      let standardError : Except (Fault ℝ) ℝ := s.standardError
      let mean : Except (Fault ℝ) ℝ := s.mean
      let interval (level : ℝ) := s.meanIntervalWith quantile level
      (∀ level, 0 < level → level < 1 →
        (∀ e, interval level = .error e ↔ variance = .error e) ∧
        ∀ i, interval level = .ok i → ∃ v error margin,
          variance = .ok v ∧ standardError = .ok error ∧ error ^ 2 = v / (held cs name).card ∧
          margin = quantile (s.samples - 1) (1 / 2 + level / 2) * error ∧ 0 ≤ margin ∧
          mean = .ok i.estimate ∧ i.upper - i.estimate = margin ∧ i.estimate - i.lower = margin ∧
          i.contains i.estimate = true) ∧
      ∀ l l', 0 < l → l ≤ l' → l' < 1 → ∀ i i', interval l = .ok i → interval l' = .ok i' →
        ∀ x, i.contains x = true → i'.contains x = true := by
  refine ⟨fun _ _ _ => meanIntervalWith_eq_invalidConfidence_iff,
    fun quantile hnonneg hmono cs name hc => ?_⟩
  intro s variance standardError mean interval
  have h : ClosedForm s (held cs name) := closedForm_tracks.run cs name hc
  refine ⟨fun level h0 h1 => ⟨meanIntervalWith_eq_error_iff ⟨h0, h1⟩, fun i hi => ?_⟩,
    fun l l' h0 hle h1 i i' hi hi' x hx => ?_⟩
  · obtain ⟨v, hv, hn, rfl⟩ := of_meanIntervalWith ⟨h0, h1⟩ hi
    have hmargin : 0 ≤ marginOf quantile s v level := marginOf_nonneg hnonneg hn v h0 h1
    have hv0 : 0 ≤ v := by
      obtain ⟨-, -, hv⟩ := of_variance hv
      rw [← hv]
      exact h.variance_nonneg
    have hsq : √(v / s.samples.toNat) ^ 2 = v / (held cs name).card := by
      rw [Real.sq_sqrt (div_nonneg hv0 (Nat.cast_nonneg _)), h.samples]
    have herror : standardError = .ok √(v / s.samples.toNat) := by
      show Summary.standardError s = _
      rw [Summary.standardError, hv]
      rfl
    refine ⟨v, _, _, hv, herror, hsq, rfl, hmargin, mean_ok_of_variance hv, ?_, ?_, ?_⟩
    · exact add_sub_cancel_left _ _
    · exact sub_sub_cancel _ _
    · exact Interval.contains_symmetric_iff.mpr
        ⟨sub_le_self _ hmargin, le_add_of_nonneg_right hmargin⟩
  · obtain ⟨v, hv, hn, rfl⟩ := of_meanIntervalWith ⟨h0, hle.trans_lt h1⟩ hi
    obtain ⟨v', hv', -, rfl⟩ := of_meanIntervalWith ⟨h0.trans_le hle, h1⟩ hi'
    have hvv : v = v' := Except.ok.inj (hv.symm.trans hv')
    rw [← hvv]
    exact Interval.contains_symmetric_mono (marginOf_mono hmono hn v h0 hle h1) hx

/-- Three real numbers, with the quantile for two degrees of freedom: the lower end of the interval
at one half lies in that at four fifths. At no level has the empty summary an interval, and for an
undefined one that is the fault. -/
theorem mean_intervals_real :
    let cs : List (String × Command ℝ) := [("a", .addValues [0, 2]), ("a", .add ⟨1, 1⟩)]
    let quantile : UInt64 → ℝ → ℝ := fun _ p => (2 * p - 1) / √(2 * p * (1 - p))
    let undefined : Float := 0 / 0
    (∀ n p, n ≠ 0 → 1 / 2 ≤ p → p < 1 → 0 ≤ quantile n p) ∧
      (∀ n p q, n ≠ 0 → 1 / 2 ≤ p → p ≤ q → q < 1 → quantile n p ≤ quantile n q) ∧
      (held cs "a").card < 2 ^ 64 ∧
      (empty : Summary Float).meanIntervalWith StudentT.quantile undefined =
        .error (.invalidConfidence undefined) ∧
      ∃ i i', (session cs "a").meanIntervalWith quantile (1 / 2) = .ok i ∧
        (session cs "a").meanIntervalWith quantile (4 / 5) = .ok i' ∧
        i.contains i.estimate = true ∧ i.contains i.lower = true ∧ i'.contains i.lower = true := by
  intro cs quantile undefined
  have hnonneg : ∀ n p, n ≠ 0 → 1 / 2 ≤ p → p < 1 → 0 ≤ quantile n p := fun _ p _ hp _ =>
    div_nonneg (by linarith) (Real.sqrt_nonneg _)
  have hmono : ∀ n p q, n ≠ 0 → 1 / 2 ≤ p → p ≤ q → q < 1 → quantile n p ≤ quantile n q := by
    intro _ p q _ hp hpq hq
    have hpos : 0 < 2 * q * (1 - q) := mul_pos (by linarith) (by linarith)
    have hle : 2 * q * (1 - q) ≤ 2 * p * (1 - p) := by
      have h : 0 ≤ (q - p) * (q + p - 1) := mul_nonneg (by linarith) (by linarith)
      linarith
    exact div_le_div₀ (by linarith) (by linarith) (Real.sqrt_pos.mpr hpos) (Real.sqrt_le_sqrt hle)
  have hheld : held cs "a" = {⟨0, 1⟩, ⟨2, 1⟩, ⟨1, 1⟩} := by
    have hone : (0 : ℝ) ≤ 1 := zero_le_one
    have hvalid (x w : ℝ) : (⟨x, w⟩ : Observation ℝ).Valid ↔ (0 : ℝ) ≤ w :=
      ⟨fun h => h.2.1, fun h => ⟨rfl, h, rfl⟩⟩
    simp [cs, held, holdAll, Command.holding, taken, Registers.set, Observation.unit, hvalid, hone]
    rfl
  have hc : (held cs "a").card < 2 ^ 64 := by
    rw [hheld]
    decide
  have h : ClosedForm (session cs "a") (held cs "a") := closedForm_tracks.run cs "a" hc
  have hok (level : ℝ) (hl : 0 < level ∧ level < 1) :
      ∃ i, (session cs "a").meanIntervalWith quantile level = .ok i := by
    have h2 : 2 ≤ (session cs "a").samples := by
      rw [h.samples_eq, hheld]
      decide
    have hz : ¬ Scalar.isZero (session cs "a").moments.weight := by
      rw [ExactScalar.isZero_iff, h.moments, hheld]
      norm_num [Moments.totalWeight]
    exact ⟨_, meanIntervalWith_ok hl (variance_ok h2 hz)⟩
  obtain ⟨hlevel, hsession⟩ := mean_intervals
  obtain ⟨hcentred, hnested⟩ := hsession quantile hnonneg hmono cs "a" hc
  obtain ⟨i, hi⟩ := hok (1 / 2) (by norm_num)
  obtain ⟨i', hi'⟩ := hok (4 / 5) (by norm_num)
  obtain ⟨-, -, margin, -, -, -, -, h0, -, hupper, hlower, hmean⟩ :=
    (hcentred (1 / 2) (by norm_num) (by norm_num)).2 i hi
  have hend : i.contains i.lower = true := by
    simp only [Interval.contains, Bool.and_eq_true, decide_eq_true_iff]
    exact ⟨le_rfl, by linarith⟩
  exact ⟨hnonneg, hmono, hc, (hlevel _ _ _).mpr (by decide +kernel), i, i', hi, hi', hmean, hend,
    hnested (1 / 2) (4 / 5) (by norm_num) (by norm_num) (by norm_num) i i' hi hi' _ hend⟩

end Summary

end RunningStats
