import RunningStats.Proofs.Exact.Checked
import RunningStats.Proofs.Answers
import RunningStats.Sample.Estimators
import RunningStats.Summary.Confidence

/-!
# The guards are sufficient

In exact arithmetic nothing divides by zero or takes the root of a negative number. Sessions and
samples run here over `Checked` scalars, in which such an operation fails and takes with it all
that is computed from it, so what is to be shown is that nothing ever fails. The guards of a query
(enough observations, some weight, some spread) stand apart from the divisions that they protect;
what joins them is that the state of a summary is `Sound`: no weight, sum of squares or sum below
zero is negative. So a divisor that was found not to be zero is positive, and so is every power and
every root of it.

* `checked_keeps`: one observation and one merge leave numbers in a sound state;
* `answers_number`, `meanIntervalWith_number`: each query of such a state answers numbers;
* `estimate_number`: so does each estimator of any sample;
* `guards_suffice`: all of this over the reals, for every session and every sample.
-/

namespace RunningStats

open Checked

section Map

variable {α β ω υ : Type}

/-- Every number of a summary replaced. -/
def Summary.map (f : α → β) (s : Summary α) : Summary β where
  samples := s.samples
  min := f s.min
  max := f s.max
  moments := s.moments.map f
  downsideSamples := s.downsideSamples
  downsideWeight := s.downsideWeight.map f
  downsideSquares := s.downsideSquares.map f

/-- Every number of an interval replaced. -/
def Interval.map (f : α → β) (g : ω → υ) (i : Interval α ω) : Interval β υ :=
  ⟨f i.lower, f i.upper, f i.estimate, g i.confidence⟩

/-- The answers to all queries for one number. -/
def Summary.answers [Scalar α] (s : Summary α) : List (Except (Fault ω) α) :=
  [s.minimum, s.maximum, s.mean, s.variance, s.standardDeviation, s.standardError, s.skewness,
    s.kurtosis, s.downsideVariance, s.downsideDeviation]

end Map

variable {K : Type} [ExactScalar K]

/-! ## Sound states -/

namespace CompensatedSum

/-- A total that is not negative, with no excess. -/
def NonNegative (s : CompensatedSum K) : Prop := ∃ x, 0 ≤ x ∧ s = exactly x

theorem NonNegative.add {s : CompensatedSum K} (h : s.NonNegative) {x : K} (hx : 0 ≤ x) :
    (s.add x).NonNegative := by
  obtain ⟨y, hy, rfl⟩ := h
  exact ⟨y + x, add_nonneg hy hx, exactly_add y x⟩

theorem NonNegative.merge {s t : CompensatedSum K} (hs : s.NonNegative) (ht : t.NonNegative) :
    (s.merge t).NonNegative := by
  obtain ⟨x, hx, rfl⟩ := hs
  obtain ⟨y, hy, rfl⟩ := ht
  exact ⟨x + y, add_nonneg hx hy, exactly_merge x y⟩

theorem NonNegative.sum {s : CompensatedSum K} (h : s.NonNegative) : 0 ≤ s.sum := by
  obtain ⟨x, hx, rfl⟩ := h
  exact hx

end CompensatedSum

namespace Summary

/-- No weight, no sum of squares and no sum below zero is negative. -/
structure Sound (s : Summary K) : Prop where
  moments : s.moments.Sound
  downsideWeight : s.downsideWeight.NonNegative
  downsideSquares : s.downsideSquares.NonNegative

variable {s t : Summary K} {o : Observation K}

theorem sound_empty : (empty : Summary K).Sound :=
  ⟨Moments.sound_empty, ⟨0, le_rfl, rfl⟩, ⟨0, le_rfl, rfl⟩⟩

theorem sound_point (ho : o.Valid) : (Moments.point o.value o.weight).Sound := ⟨ho.2.1, le_rfl⟩

theorem Sound.commit (hs : s.Sound) (ho : o.Valid) : (s.commit o).Sound := by
  refine ⟨hs.moments.merge (sound_point ho), ?_, ?_⟩
  · show (if o.value < 0 then s.downsideWeight.add o.weight else s.downsideWeight).NonNegative
    split
    · exact hs.downsideWeight.add ho.2.1
    · exact hs.downsideWeight
  · show (if o.value < 0 then s.downsideSquares.add (o.weight * o.value * o.value)
      else s.downsideSquares).NonNegative
    split
    · rw [mul_assoc]
      exact hs.downsideSquares.add (mul_nonneg ho.2.1 (mul_self_nonneg _))
    · exact hs.downsideSquares

theorem Sound.merge (hs : s.Sound) (ht : t.Sound) : (s.merge t).Sound := by
  unfold Summary.merge
  split
  · exact hs
  · exact ⟨hs.moments.merge ht.moments, hs.downsideWeight.merge ht.downsideWeight,
      hs.downsideSquares.merge ht.downsideSquares⟩

theorem commit_number (hs : s.Sound) (ho : o.Valid) :
    (s.map number).commit (o.map number) = (s.commit o).map number := by
  have hbelow : (number o.value < (0 : Checked K)) ↔ o.value < 0 := Iff.rfl
  apply Summary.ext
  · rfl
  · show (if s.samples = 0 then number o.value else _) = number (if s.samples = 0 then _ else _)
    rw [apply_ite number, ← least_number]
    rfl
  · show (if s.samples = 0 then number o.value else _) = number (if s.samples = 0 then _ else _)
    rw [apply_ite number, ← greatest_number]
    rfl
  · exact Moments.merge_number hs.moments (sound_point ho)
  · exact if_congr hbelow rfl rfl
  · show _ = CompensatedSum.map number (if o.value < 0 then _ else _)
    rw [apply_ite (CompensatedSum.map number)]
    exact if_congr hbelow rfl rfl
  · show _ = CompensatedSum.map number (if o.value < 0 then _ else _)
    rw [apply_ite (CompensatedSum.map number)]
    exact if_congr hbelow rfl rfl

theorem merge_number (hs : s.Sound) (ht : t.Sound) :
    (s.map number).merge (t.map number) = (s.merge t).map number := by
  have hempty : (t.map number).samples = t.samples := rfl
  unfold Summary.merge
  rw [hempty]
  by_cases h0 : t.samples = 0
  · rw [if_pos h0, if_pos h0]
  · rw [if_neg h0, if_neg h0]
    apply Summary.ext
    · rfl
    · show (if s.samples = 0 then number t.min else _) = number (if s.samples = 0 then _ else _)
      rw [apply_ite number, ← least_number]
      rfl
    · show (if s.samples = 0 then number t.max else _) = number (if s.samples = 0 then _ else _)
      rw [apply_ite number, ← greatest_number]
      rfl
    · exact Moments.merge_number hs.moments ht.moments
    · rfl
    · rfl
    · rfl

/-- **One observation and one merge do not fail.** What has failed already is not finite, and is
refused. -/
theorem checked_keeps :
    Keeps fun (s : Summary (Checked K)) _ => ∃ t : Summary K, t.Sound ∧ s = t.map number where
  empty := ⟨empty, sound_empty, rfl⟩
  commit := by
    rintro _ _ o ⟨t, ht, rfl⟩ ho
    obtain ⟨p, hp, rfl⟩ := ho.exists_number
    exact ⟨t.commit p, ht.commit hp, commit_number ht hp⟩
  merge := by
    rintro _ _ _ _ ⟨t, ht, rfl⟩ ⟨u, hu, rfl⟩
    exact ⟨t.merge u, ht.merge hu, merge_number ht hu⟩

/-! ## Queries -/

section Queries

variable {ω : Type} (hs : s.Sound)

theorem mean_number : ((s.map number).mean : Except (Fault ω) (Checked K)) = s.mean.map number :=
  guard_map fun _ => rfl

theorem downsideVariance_number :
    ((s.map number).downsideVariance : Except (Fault ω) (Checked K)) =
      s.downsideVariance.map number := by
  have hsamples : (s.map number).downsideSamples = s.downsideSamples := rfl
  have hweight : (s.map number).downsideWeight.sum = number s.downsideWeight.sum := rfl
  have hsquares : (s.map number).downsideSquares.sum = number s.downsideSquares.sum := rfl
  refine guard_map fun _ => ?_
  simp only [hsamples, hweight, hsquares, isZero_number]
  by_cases h2 : s.downsideSamples < 2
  · rw [if_pos h2, if_pos h2]
    rfl
  · rw [if_neg h2, if_neg h2]
    by_cases hz : Scalar.isZero s.downsideWeight.sum
    · rw [if_pos hz, if_pos hz]
      rfl
    · rw [if_neg hz, if_neg hz]
      have hw := ExactScalar.ne_zero_of_not_isZero hz
      have hn : 2 ≤ s.downsideSamples.toNat := UInt64.le_iff_toNat_le.mp (UInt64.not_lt.mp h2)
      have h1 : (s.downsideSamples.toNat : K) - 1 ≠ 0 := by
        exact_mod_cast (Moments.count_sub_pos (K := K) (k := 1) (by omega)).ne'
      refine congrArg Except.ok ?_
      rw [ofCount_eq, one_eq, number_div hw, number_mul, number_sub, number_div h1,
        ExactScalar.ofCount_eq_natCast]

include hs

theorem variance_number :
    ((s.map number).variance : Except (Fault ω) (Checked K)) = s.variance.map number := by
  refine guard_map fun hg => ?_
  obtain ⟨-, h2, hz⟩ := of_requireMoments hg
  exact congrArg Except.ok (Moments.variance_number (hs.moments.weight_pos hz)
    (UInt64.le_iff_toNat_le.mp h2))

theorem variance_nonneg {v : K} (h : (s.variance : Except (Fault ω) K) = .ok v) : 0 ≤ v := by
  obtain ⟨-, -, rfl⟩ := of_variance h
  exact Moments.variance_nonneg _ _ hs.moments.weight hs.moments.m2

theorem standardDeviation_number :
    ((s.map number).standardDeviation : Except (Fault ω) (Checked K)) =
      s.standardDeviation.map number := by
  unfold standardDeviation
  rw [variance_number hs]
  exact map_bind_map fun v hv => congrArg Except.ok (number_sqrt (variance_nonneg hs hv))

theorem standardError_number :
    ((s.map number).standardError : Except (Fault ω) (Checked K)) =
      s.standardError.map number := by
  unfold standardError
  rw [variance_number hs]
  refine map_bind_map fun v hv => congrArg Except.ok ?_
  obtain ⟨h2, -, -⟩ := of_variance hv
  have hn : 2 ≤ s.samples.toNat := UInt64.le_iff_toNat_le.mp h2
  have hpos : (0 : K) < s.samples.toNat := Nat.cast_pos.mpr (by omega)
  have hsamples : (s.map number).samples = s.samples := rfl
  rw [hsamples, ofCount_eq, number_div hpos.ne',
    number_sqrt (div_nonneg (variance_nonneg hs hv) hpos.le), ExactScalar.ofCount_eq_natCast]

theorem kurtosis_number :
    ((s.map number).kurtosis : Except (Fault ω) (Checked K)) = s.kurtosis.map number := by
  refine guard_map fun hg => guard_map fun hspread => congrArg Except.ok ?_
  obtain ⟨-, h4, hz⟩ := of_requireMoments hg
  exact Moments.kurtosis_number (hs.moments.weight_pos hz)
    (hs.moments.m2_pos (of_requireSpread hspread)) (UInt64.le_iff_toNat_le.mp h4)

theorem downsideVariance_nonneg {v : K}
    (h : (s.downsideVariance : Except (Fault ω) K) = .ok v) : 0 ≤ v := by
  obtain ⟨h2, -, rfl⟩ := of_downsideVariance h
  have hn : 2 ≤ s.downsideSamples.toNat := UInt64.le_iff_toNat_le.mp h2
  have h1 : (0 : K) ≤ s.downsideSamples.toNat - 1 := by
    exact_mod_cast (Moments.count_sub_pos (K := K) (k := 1) (by omega)).le
  rw [ExactScalar.ofCount_eq_natCast]
  exact div_nonneg (mul_nonneg (div_nonneg hs.downsideSquares.sum hs.downsideWeight.sum)
    (Nat.cast_nonneg _)) h1

theorem downsideDeviation_number :
    ((s.map number).downsideDeviation : Except (Fault ω) (Checked K)) =
      s.downsideDeviation.map number := by
  unfold downsideDeviation
  rw [downsideVariance_number]
  exact map_bind_map fun v hv => congrArg Except.ok (number_sqrt (downsideVariance_nonneg hs hv))

variable (hroot : ∀ v : K, 0 < v → Scalar.sqrt v ≠ 0)
include hroot

theorem skewness_number :
    ((s.map number).skewness : Except (Fault ω) (Checked K)) = s.skewness.map number := by
  refine guard_map fun hg => guard_map fun hspread => congrArg Except.ok ?_
  obtain ⟨-, h3, hz⟩ := of_requireMoments hg
  exact Moments.skewness_number (hs.moments.weight_pos hz)
    (hs.moments.m2_pos (of_requireSpread hspread)) hroot (UInt64.le_iff_toNat_le.mp h3)

/-- **No query of a sound state fails.** -/
theorem answers_number :
    ((s.map number).answers : List (Except (Fault ω) (Checked K))) =
      s.answers.map (Except.map number) := by
  have hmin : ((s.map number).minimum : Except (Fault ω) (Checked K)) = s.minimum.map number :=
    guard_map fun _ => rfl
  have hmax : ((s.map number).maximum : Except (Fault ω) (Checked K)) = s.maximum.map number :=
    guard_map fun _ => rfl
  unfold answers
  rw [hmin, hmax, mean_number, variance_number hs, standardDeviation_number hs,
    standardError_number hs, skewness_number hs hroot, kurtosis_number hs,
    downsideVariance_number, downsideDeviation_number hs]
  rfl

end Queries

/-! ## The interval for the mean -/

theorem upperProbability_number (l : K) :
    upperProbability (number l) = number (1 / 2 + l / 2) := by
  have hone : (Scalar.ofCount 1 : Checked K) = number 1 := by simp
  have htwo : (Scalar.ofCount 2 : Checked K) = number 2 := by simp
  rw [upperProbability, hone, htwo, number_div two_ne_zero, number_div two_ne_zero, number_add]

/-- The quantile is asked for with at least one degree of freedom, and for a probability between
zero and one. -/
theorem meanIntervalWith_number (hs : s.Sound) {quantile : UInt64 → Checked K → Checked K}
    (hq : ∀ n p, n ≠ 0 → 0 < p → p < 1 → ∃ t, quantile n (number p) = number t)
    (level : Checked K) :
    ∃ r : Except (Fault (Checked K)) (Interval K K),
      (s.map number).meanIntervalWith quantile level = r.map (Interval.map number number) := by
  unfold meanIntervalWith
  by_cases hl : 0 < level ∧ level < 1
  · rw [if_neg (not_not_intro hl), standardError_number hs]
    cases level with
    | failed => exact hl.1.elim
    | number l =>
      have hl0 : 0 < l := hl.1
      have hl1 : l < 1 := hl.2
      rw [upperProbability_number]
      cases he : (s.standardError : Except (Fault (Checked K)) K) with
      | error e => exact ⟨.error e, rfl⟩
      | ok v =>
        obtain ⟨t, ht⟩ := hq (s.samples - 1) (1 / 2 + l / 2)
          (sub_one_ne_zero_of_standardError he) (by linarith) (by linarith)
        refine ⟨.ok (.symmetric s.moments.mean (t * v) l), ?_⟩
        show Except.ok (Interval.symmetric (number s.moments.mean)
          (quantile (s.samples - 1) (number (1 / 2 + l / 2)) * number v) (number l)) = _
        rw [ht]
        rfl
  · rw [if_pos hl]
    exact ⟨.error (.invalidConfidence level), rfl⟩

end Summary

/-! ## Samples -/

namespace Sample

variable (s : Sample (Checked K))

/-- What is read off the moments of a sample does not fail, if it does not for sound moments of
positive weight, of as many observations as were asked for. -/
theorem read_number (required : UInt64) {β γ : Type} {φ : γ → β}
    {f : Moments (Checked K) → Except (Fault (Checked K)) β}
    {g : Moments K → Except (Fault (Checked K)) γ}
    (h : ∀ m : Moments K, m.Sound → 0 < m.weight → required.toNat ≤ s.count.toNat →
      0 < s.count.toNat → f (m.map number) = (g m).map φ) :
    ∃ r : Except (Fault (Checked K)) γ, (s.moments required >>= f) = r.map φ := by
  unfold moments
  rw [Observation.checkAll_eq]
  cases hf : Observation.firstInvalid s.observations with
  | some o => exact ⟨.error o.fault, rfl⟩
  | none =>
    obtain ⟨ps, hps, hos⟩ :=
      Observation.exists_numbers (Observation.firstInvalid_eq_none_iff.mp hf)
    have hsound := Moments.sound_ofObservations fun p hp => (hps p hp).2.1
    cases hr : (Fault.requireSamples required s.count : Except (Fault (Checked K)) Unit) with
    | error e => exact ⟨.error e, rfl⟩
    | ok u =>
      obtain ⟨h0, hle⟩ := Fault.of_requireSamples hr
      have hpos : 0 < s.count.toNat := Nat.pos_of_ne_zero fun h => h0 (UInt64.toNat_inj.mp h)
      -- what was accepted are numbers, and so the weight that the next guard tests is one
      rw [hos, Moments.ofObservations_number]
      by_cases hz : Scalar.isZero (Moments.ofObservations ps).weight
      · refine ⟨.error .zeroWeightSum, ?_⟩
        show ((if Scalar.isZero (Moments.ofObservations ps).weight then _ else _) >>= f) = _
        rw [if_pos hz]
        rfl
      · refine ⟨g (Moments.ofObservations ps), ?_⟩
        show ((if Scalar.isZero (Moments.ofObservations ps).weight then _ else _) >>= f) = _
        rw [if_neg hz]
        exact h _ hsound (hsound.weight_pos hz) (UInt64.le_iff_toNat_le.mp hle) hpos

/-- **The moments of a sample do not fail**, all five of them. -/
theorem moments_number (required : UInt64) :
    ∃ r : Except (Fault (Checked K)) (Moments K),
      s.moments required = r.map (Moments.map number) := by
  obtain ⟨r, hr⟩ := s.read_number required (f := .ok) (g := .ok) fun _ _ _ _ _ => rfl
  exact ⟨r, (bind_pure (s.moments required)).symm.trans hr⟩

/-- What is read off the moments of a sample that has some spread. -/
theorem spread_number (required : UInt64) {f : Moments (Checked K) → Checked K} {g : Moments K → K}
    (h : ∀ m : Moments K, 0 < m.weight → 0 < m.m2 → required.toNat ≤ s.count.toNat →
      f (m.map number) = number (g m)) :
    ∃ r : Except (Fault (Checked K)) K,
      (do return f (← s.spreadMoments required)) = r.map number := by
  rw [spreadMoments]
  simp only [bind_assoc, pure_bind]
  exact s.read_number required (g := fun m => do Summary.requireSpread m; return g m)
    fun m hm hw hn _ => guard_map fun hspread =>
      congrArg Except.ok (h m hw (hm.m2_pos (Summary.of_requireSpread hspread)) hn)

/-- The root of a variance over the count. -/
theorem standardError_number {v : K} (hv : 0 ≤ v) (hn : 0 < s.count.toNat) :
    Scalar.sqrt (number v / Scalar.ofCount s.count) =
      number (Scalar.sqrt (v / Scalar.ofCount s.count)) := by
  have hpos : (0 : K) < s.count.toNat := Nat.cast_pos.mpr hn
  rw [ofCount_eq, number_div hpos.ne', number_sqrt (div_nonneg hv hpos.le),
    ExactScalar.ofCount_eq_natCast]

/-- **No estimator fails.** -/
theorem estimate_number (hroot : ∀ v : K, 0 < v → Scalar.sqrt v ≠ 0) (e : Estimator) :
    ∃ r : Except (Fault (Checked K)) K, s.estimate e = r.map number := by
  cases e with
  | mean => exact s.read_number 1 (g := fun m => .ok m.mean) fun _ _ _ _ _ => rfl
  | variance form =>
    cases form with
    | corrected =>
      exact s.read_number 2 (g := fun m => .ok (m.variance s.count)) fun m _ hw hn _ =>
        congrArg Except.ok (Moments.variance_number hw hn)
    | plugIn =>
      exact s.read_number 1 (g := fun m => .ok m.populationVariance) fun m _ hw _ _ =>
        congrArg Except.ok (Moments.populationVariance_number hw)
  | skewness form =>
    cases form with
    | corrected =>
      exact s.spread_number 3 (g := fun m => m.skewness s.count) fun _ hw h2 hn =>
        Moments.skewness_number hw h2 hroot hn
    | plugIn =>
      exact s.spread_number 2 (g := Moments.populationSkewness) fun _ hw h2 _ =>
        Moments.populationSkewness_number hw h2 hroot
  | kurtosis form =>
    cases form with
    | corrected =>
      exact s.spread_number 4 (g := fun m => m.kurtosis s.count) fun _ hw h2 hn =>
        Moments.kurtosis_number hw h2 hn
    | plugIn =>
      exact s.spread_number 2 (g := Moments.populationKurtosis) fun _ hw h2 _ =>
        Moments.populationKurtosis_number hw h2
  | standardError form =>
    cases form with
    | corrected =>
      rw [estimate, variance]
      simp only [bind_assoc, pure_bind]
      exact s.read_number 2
        (g := fun m => .ok (Scalar.sqrt (m.variance s.count / Scalar.ofCount s.count)))
        fun m hm hw hn hpos => by
          rw [Moments.variance_number hw hn]
          exact congrArg Except.ok
            (s.standardError_number (Moments.variance_nonneg _ _ hm.weight hm.m2) hpos)
    | plugIn =>
      rw [estimate, variance]
      simp only [bind_assoc, pure_bind]
      exact s.read_number 1
        (g := fun m => .ok (Scalar.sqrt (m.populationVariance / Scalar.ofCount s.count)))
        fun m hm hw _ hpos => by
          rw [Moments.populationVariance_number hw]
          exact congrArg Except.ok (s.standardError_number (div_nonneg hm.m2 hm.weight) hpos)

/-- Nor does the running summary of a sample. -/
theorem accumulate_number :
    ∃ r : Except (Fault (Checked K)) (Summary K), s.accumulate = r.map (Summary.map number) := by
  have hempty : (Summary.empty : Summary (Checked K)) = Summary.empty.map number := rfl
  obtain ⟨t, ht, u, -, rfl⟩ | ⟨e, he, -⟩ :=
    Summary.checked_keeps.addAll (H := 0) ⟨_, Summary.sound_empty, rfl⟩ s.observations
  · exact ⟨.ok u, by rw [accumulate, hempty, Summary.Ingestion.result, ht]; rfl⟩
  · exact ⟨.error e, by rw [accumulate, hempty, Summary.Ingestion.result, he]; rfl⟩

end Sample

/-! ## Every session and every sample -/

namespace Summary

/-- **The guards suffice.** Over real numbers that notice a division by zero or the root of a
negative number, nothing fails: after every session the summary under every name is one of numbers,
each query answers what it answers for these, with a fault or a number, and the interval for the
mean at any level is one of numbers, whatever quantile it is made with that is a number for at
least one degree of freedom and a probability between zero and one. So it is for the moments and
every estimator of every sample, and for its running summary. -/
theorem guards_suffice :
    (∀ (cs : List (String × Command (Checked ℝ))) (name : String),
      ∃ s : Summary ℝ, session cs name = s.map number ∧
        ((session cs name).answers : List (Except (Fault (Checked ℝ)) (Checked ℝ))) =
          s.answers.map (Except.map number) ∧
        ∀ quantile : UInt64 → Checked ℝ → Checked ℝ,
          (∀ n p, n ≠ 0 → 0 < p → p < 1 → ∃ t, quantile n (number p) = number t) →
          ∀ level, ∃ r : Except (Fault (Checked ℝ)) (Interval ℝ ℝ),
            (session cs name).meanIntervalWith quantile level =
              r.map (Interval.map number number)) ∧
    (∀ (s : Sample (Checked ℝ)) (required : UInt64),
      ∃ r : Except (Fault (Checked ℝ)) (Moments ℝ),
        s.moments required = r.map (Moments.map number)) ∧
    (∀ (s : Sample (Checked ℝ)) (e : Estimator),
      ∃ r : Except (Fault (Checked ℝ)) ℝ, s.estimate e = r.map number) ∧
    (∀ s : Sample (Checked ℝ),
      ∃ r : Except (Fault (Checked ℝ)) (Summary ℝ), s.accumulate = r.map (Summary.map number)) := by
  have hroot : ∀ v : ℝ, 0 < v → Scalar.sqrt v ≠ 0 := fun v hv => (Real.sqrt_pos.mpr hv).ne'
  refine ⟨fun cs name => ?_, fun s required => s.moments_number required,
    fun s e => s.estimate_number hroot e, fun s => s.accumulate_number⟩
  obtain ⟨s, hs, h⟩ := checked_keeps.run cs name
  rw [h]
  exact ⟨s, rfl, answers_number hs hroot, fun _ hq level => meanIntervalWith_number hs hq level⟩

/-- One observation without weight, one refused and two merged, and an interval made with the
quantile for two degrees of freedom, which fails for none. Without the guards there is failure: the
empty summary has no variance. -/
theorem guards_suffice_real :
    let cs : List (String × Command (Checked ℝ)) :=
      [("a", .add ⟨number 3, number 0⟩), ("a", .add ⟨failed, number 1⟩),
        ("b", .addWeighted [number (-1), number 4] [number 2, number 1]), ("a", .merge "b")]
    let quantile : UInt64 → Checked ℝ → Checked ℝ := fun n =>
      lift fun p => if n = 0 then failed else number ((2 * p - 1) / √(2 * p * (1 - p)))
    (∀ n p, n ≠ 0 → 0 < p → p < 1 → ∃ t, quantile n (number p) = number t) ∧
      (∃ r : Except (Fault (Checked ℝ)) (Interval ℝ ℝ),
        (session cs "a").meanIntervalWith quantile (number (1 / 2)) =
          r.map (Interval.map number number)) ∧
      quantile 0 (number (3 / 4)) = failed ∧
      (Moments.empty : Moments (Checked ℝ)).populationVariance = failed := by
  intro cs quantile
  have hq : ∀ n p, n ≠ 0 → 0 < p → p < 1 → ∃ t, quantile n (number p) = number t :=
    fun n p hn _ _ => ⟨_, if_neg hn⟩
  have hnone : quantile 0 (number (3 / 4)) = failed := by simp [quantile, lift]
  obtain ⟨s, -, -, hinterval⟩ := guards_suffice.1 cs "a"
  exact ⟨hq, hinterval quantile hq (number (1 / 2)), hnone, div_number_zero _⟩

end Summary

end RunningStats
