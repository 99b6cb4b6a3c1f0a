import Mathlib.Data.Sign.Basic
import RunningStats.Proofs.Exact.Batch
import RunningStats.Proofs.Exact.Queries
import RunningStats.Proofs.Answers

/-!
# Change of units

Values may be measured from another origin and in another unit, negative ones included, and weights
in another unit. A deviation from the mean does not see the origin, so its powers are scaled by
powers of the unit, and the moments in closed form change by `Moments.rescale`
(`ofMultiset_rescale`). The estimators are quotients of such moments, in which the unit of the
weights cancels and that of the values leaves one power, up to its sign. No guard sees a change: a
count is the same, and a weight or a sum of squares is zero after it just where it was before.

* `Summary.Rescaled`, `Sample.moments_rescale`: two summaries, and the moments of two samples, that
  differ by a change of units;
* `change_of_units`: what becomes of every query after every session, and of every estimator of
  every sample, the fault being the same where there is one.
-/

namespace RunningStats

variable {K : Type} [ExactScalar K]

/-- The same observation in other units. -/
def Observation.rescale (a c k : K) (o : Observation K) : Observation K :=
  ⟨a * o.value + c, k * o.weight⟩

variable {a c k : K}

/-! ## Moments -/

namespace Moments

/-- The moments in other units. -/
def rescale (a c k : K) (m : Moments K) : Moments K where
  weight := k * m.weight
  mean := a * m.mean + c
  m2 := k * a ^ 2 * m.m2
  m3 := k * a ^ 3 * m.m3
  m4 := k * a ^ 4 * m.m4

/-- A change of origin does not change deviations, and one of unit scales their powers. -/
theorem about_rescale (j : ℕ) (x : K) (H : Multiset (Observation K)) :
    about j (a * x + c) (H.map (Observation.rescale a c k)) = k * a ^ j * about j x H := by
  unfold about
  rw [Multiset.map_map, ← Multiset.sum_map_mul_left]
  refine congrArg Multiset.sum (Multiset.map_congr rfl fun o _ => ?_)
  show k * o.weight * (a * o.value + c - (a * x + c)) ^ j = _
  rw [add_sub_add_right_eq_sub, ← mul_sub, mul_pow]
  ring

theorem totalWeight_rescale (H : Multiset (Observation K)) :
    totalWeight (H.map (Observation.rescale a c k)) = k * totalWeight H := by
  rw [← about_zero (a * 0 + c), about_rescale, about_zero, pow_zero, mul_one]

section ClosedForm

variable {H : Multiset (Observation K)} (hk : k ≠ 0) (hW : totalWeight H ≠ 0)
include hk hW

theorem center_rescale : center (H.map (Observation.rescale a c k)) = a * center H + c := by
  refine center_eq_of_balanced ?_ ?_
  · rw [totalWeight_rescale]
    exact mul_ne_zero hk hW
  · rw [about_rescale, about_one_center hW, mul_zero]

/-- **The moments in other units** are those of the observations in other units, if there is
weight; without it the mean is zero in any units. -/
theorem ofMultiset_rescale :
    ofMultiset (H.map (Observation.rescale a c k)) = (ofMultiset H).rescale a c k := by
  rw [ofMultiset, center_rescale hk hW, totalWeight_rescale, about_rescale, about_rescale,
    about_rescale]
  rfl

end ClosedForm

/-! ## Estimators -/

section Estimators

variable {m : Moments K} (hk : k ≠ 0)
include hk

/-- The unit of the weights cancels from a moment over the weight. -/
theorem rescale_div (b x w : K) : k * b * x / (k * w) = b * (x / w) := by
  rw [mul_assoc, mul_div_mul_left _ _ hk, mul_div_assoc]

theorem populationVariance_rescale :
    (m.rescale a c k).populationVariance = a ^ 2 * m.populationVariance :=
  rescale_div hk _ _ _

theorem variance_rescale (n : UInt64) : (m.rescale a c k).variance n = a ^ 2 * m.variance n := by
  rw [variance_eq, variance_eq, ← mul_assoc]
  exact congrArg (· * _) (rescale_div hk _ _ _)

theorem m3_div_rescale :
    (m.rescale a c k).m3 / (m.rescale a c k).weight = a ^ 3 * (m.m3 / m.weight) :=
  rescale_div hk _ _ _

theorem m4_div_rescale :
    (m.rescale a c k).m4 / (m.rescale a c k).weight = a ^ 4 * (m.m4 / m.weight) :=
  rescale_div hk _ _ _

variable (ha : a ≠ 0)
include ha

theorem populationKurtosis_rescale :
    (m.rescale a c k).populationKurtosis = m.populationKurtosis := by
  have hv : a ^ 2 * m.populationVariance * (a ^ 2 * m.populationVariance) =
      a ^ 4 * (m.populationVariance * m.populationVariance) := by ring
  unfold populationKurtosis
  dsimp only
  rw [populationVariance_rescale hk, m4_div_rescale hk, hv, mul_div_mul_left _ _ (pow_ne_zero 4 ha)]

theorem kurtosis_rescale (n : UInt64) : (m.rescale a c k).kurtosis n = m.kurtosis n := by
  have hv : (a ^ 2 * m.variance n) ^ 2 = a ^ 4 * m.variance n ^ 2 := by ring
  rw [kurtosis_eq, kurtosis_eq, variance_rescale hk, m4_div_rescale hk, hv, mul_left_comm,
    mul_div_mul_left _ _ (pow_ne_zero 4 ha)]

end Estimators

/-! ## Roots -/

section Roots

variable {a c k : ℝ} {m : Moments ℝ}

/-- A root is not negative, so it picks up the absolute value of the unit. -/
theorem sqrt_rescale (v : ℝ) : Scalar.sqrt (a ^ 2 * v) = |a| * Scalar.sqrt v := by
  show √(a ^ 2 * v) = |a| * √v
  rw [Real.sqrt_mul (sq_nonneg a), Real.sqrt_sq_eq_abs]

/-- Of the cube of the unit over that of its absolute value, the sign is left. -/
theorem cube_div_rescale (ha : a ≠ 0) (x y : ℝ) :
    a ^ 3 * x / (|a| ^ 3 * y) = SignType.sign a * (x / y) := by
  have hcube : a ^ 3 * x = |a| ^ 3 * (SignType.sign a * x) := by
    have hsign : |a| * SignType.sign a = a := abs_mul_sign a
    calc a ^ 3 * x = |a| ^ 2 * a * x := by rw [sq_abs, ← pow_succ]
      _ = |a| ^ 2 * (|a| * SignType.sign a) * x := by rw [hsign]
      _ = |a| ^ 3 * (SignType.sign a * x) := by ring
  rw [hcube, mul_div_mul_left _ _ (pow_ne_zero 3 (abs_ne_zero.mpr ha)), mul_div_assoc]

variable (hk : k ≠ 0) (ha : a ≠ 0)
include hk ha

theorem populationSkewness_rescale :
    (m.rescale a c k).populationSkewness = SignType.sign a * m.populationSkewness := by
  have hv : a ^ 2 * m.populationVariance * (|a| * Scalar.sqrt m.populationVariance) =
      |a| ^ 3 * (m.populationVariance * Scalar.sqrt m.populationVariance) := by
    rw [← sq_abs]
    ring
  unfold populationSkewness
  dsimp only
  rw [populationVariance_rescale hk, sqrt_rescale, m3_div_rescale hk, hv, cube_div_rescale ha]

theorem skewness_rescale (n : UInt64) :
    (m.rescale a c k).skewness n = SignType.sign a * m.skewness n := by
  rw [skewness_eq, skewness_eq, variance_rescale hk, sqrt_rescale, m3_div_rescale hk, mul_pow,
    mul_left_comm, cube_div_rescale ha]

end Roots

/-! ## Guards -/

theorem isZero_mul {b : K} (hb : b ≠ 0) (x : K) : Scalar.isZero (b * x) = Scalar.isZero x := by
  rw [Bool.eq_iff_iff, ExactScalar.isZero_iff, ExactScalar.isZero_iff, mul_eq_zero]
  exact or_iff_right hb

end Moments

variable {ω : Type}

theorem Summary.requireSpread_rescale (hk : k ≠ 0) (ha : a ≠ 0) (m : Moments K) :
    (requireSpread (m.rescale a c k) : Except (Fault ω) Unit) = requireSpread m := by
  have hz : Scalar.isZero (m.rescale a c k).m2 = Scalar.isZero m.m2 :=
    Moments.isZero_mul (mul_ne_zero hk (pow_ne_zero 2 ha)) _
  rw [requireSpread, requireSpread, hz]

/-! ## Summaries -/

namespace Summary

/-- The second summary holds as many observations as the first, with the moments of the first in
other units. Without weight the mean is zero in any units, so nothing is said of it then. -/
structure Rescaled (a c k : K) (s t : Summary K) : Prop where
  samples : t.samples = s.samples
  weight : t.moments.weight = k * s.moments.weight
  moments : s.moments.weight ≠ 0 → t.moments = s.moments.rescale a c k

/-- Observations in other units leave a summary in other units. -/
theorem ClosedForm.rescaled {s t : Summary K} {H : Multiset (Observation K)} (hk : k ≠ 0)
    (hs : ClosedForm s H) (ht : ClosedForm t (H.map (Observation.rescale a c k))) :
    Rescaled a c k s t := by
  refine ⟨?_, ?_, fun hW => ?_⟩
  · rw [hs.toDescribes.samples_eq, ht.toDescribes.samples_eq, Multiset.card_map]
  · rw [hs.moments, ht.moments]
    exact Moments.totalWeight_rescale H
  · rw [hs.moments] at hW
    rw [hs.moments, ht.moments, Moments.ofMultiset_rescale hk hW]

namespace Rescaled

section Queries

variable {β γ : Type} {s t : Summary K} {ψ : β → γ} (h : Rescaled a c k s t) (hk : k ≠ 0)
include h hk

/-- A query passes the same guards in any units, and then reads moments in the units it is asked
in. -/
theorem query (required : UInt64) {f : Moments K → Except (Fault ω) γ}
    {g : Moments K → Except (Fault ω) β}
    (hread : f (s.moments.rescale a c k) = (g s.moments).map ψ) :
    (do t.requireMoments required; f t.moments) =
      (do s.requireMoments required; g s.moments).map ψ := by
  have hguard : (t.requireMoments required : Except (Fault ω) Unit) = s.requireMoments required := by
    unfold requireMoments
    rw [h.samples, h.weight, Moments.isZero_mul hk]
  rw [hguard]
  refine guard_map fun hg => ?_
  obtain ⟨-, -, hz⟩ := of_requireMoments hg
  rw [h.moments (ExactScalar.ne_zero_of_not_isZero hz), hread]

theorem mean : (t.mean : Except (Fault ω) K) = s.mean.map fun x => a * x + c :=
  h.query hk 1 (f := fun m => .ok m.mean) (g := fun m => .ok m.mean) rfl

theorem variance : (t.variance : Except (Fault ω) K) = s.variance.map fun x => a ^ 2 * x := by
  unfold Summary.variance
  rw [h.samples]
  exact h.query hk 2 (f := fun m => .ok (m.variance s.samples))
    (g := fun m => .ok (m.variance s.samples)) (congrArg Except.ok (Moments.variance_rescale hk _))

theorem kurtosis (ha : a ≠ 0) : (t.kurtosis : Except (Fault ω) K) = s.kurtosis := by
  refine Eq.trans ?_ (congrFun Except.map_id s.kurtosis)
  unfold Summary.kurtosis
  rw [h.samples]
  refine h.query hk 4 (f := fun m => do requireSpread m; return m.kurtosis s.samples)
    (g := fun m => do requireSpread m; return m.kurtosis s.samples) ?_
  rw [requireSpread_rescale hk ha, Moments.kurtosis_rescale hk ha]
  exact guard_map fun _ => rfl

end Queries

section Roots

variable {a c k : ℝ} {s t : Summary ℝ} (h : Rescaled a c k s t) (hk : k ≠ 0)
include h hk

theorem standardDeviation :
    (t.standardDeviation : Except (Fault ω) ℝ) = s.standardDeviation.map fun x => |a| * x := by
  unfold Summary.standardDeviation
  rw [h.variance hk]
  exact map_bind_map fun v _ => congrArg Except.ok (Moments.sqrt_rescale v)

theorem standardError :
    (t.standardError : Except (Fault ω) ℝ) = s.standardError.map fun x => |a| * x := by
  unfold Summary.standardError
  rw [h.variance hk, h.samples]
  refine map_bind_map fun v _ => congrArg Except.ok ?_
  rw [mul_div_assoc, Moments.sqrt_rescale]

theorem skewness (ha : a ≠ 0) :
    (t.skewness : Except (Fault ω) ℝ) = s.skewness.map fun x => (SignType.sign a : ℝ) * x := by
  unfold Summary.skewness
  rw [h.samples]
  refine h.query hk 3 (f := fun m => do requireSpread m; return m.skewness s.samples)
    (g := fun m => do requireSpread m; return m.skewness s.samples) ?_
  rw [requireSpread_rescale hk ha, Moments.skewness_rescale hk ha]
  exact guard_map fun _ => rfl

end Roots

end Rescaled

end Summary

/-! ## Samples -/

/-- The value of an estimator in other units. -/
noncomputable def Estimator.rescale (a c : ℝ) : Estimator → ℝ → ℝ
  | mean, x => a * x + c
  | variance _, x => a ^ 2 * x
  | skewness _, x => SignType.sign a * x
  | kurtosis _, x => x
  | standardError _, x => |a| * x

theorem Observation.valid_real {o : Observation ℝ} : o.Valid ↔ 0 ≤ o.weight :=
  ⟨fun h => h.2.1, fun h => ⟨rfl, h, rfl⟩⟩

namespace Sample

variable {a c k : ℝ} {s t : Sample ℝ} [Wide ℝ ω] (hk : 0 < k)
  (hnn : ∀ o ∈ s.observations, 0 ≤ o.weight)
  (hst : (t.observations : Multiset (Observation ℝ)) =
    (s.observations : Multiset (Observation ℝ)).map (Observation.rescale a c k))
include hst

theorem count_rescale : t.count = s.count := by
  have hlength : t.observations.length = s.observations.length := by
    simpa using congrArg Multiset.card hst
  rw [count, count, size, size, hlength]

include hk hnn

theorem moments_rescale (required : UInt64) :
    (t.moments required : Except (Fault ω) (Moments ℝ)) =
      (s.moments required).map (Moments.rescale a c k) := by
  have hvalid : ∀ o ∈ s.observations, o.Valid := fun o ho => Observation.valid_real.mpr (hnn o ho)
  have hvalid' : ∀ o ∈ t.observations, o.Valid := fun o ho => by
    obtain ⟨p, hp, rfl⟩ : ∃ p ∈ s.observations, p.rescale a c k = o := by
      have hmem : o ∈ (t.observations : Multiset (Observation ℝ)) := ho
      rw [hst] at hmem
      exact Multiset.mem_map.mp hmem
    exact Observation.valid_real.mpr (mul_nonneg hk.le (hnn p hp))
  rw [moments_of_valid hvalid, moments_of_valid hvalid', count_rescale hst, hst,
    Moments.totalWeight_rescale]
  refine guard_map fun _ => ?_
  -- without weight both samples are refused, and with it the closed forms can be compared
  by_cases hW : Moments.totalWeight (s.observations : Multiset (Observation ℝ)) = 0
  · rw [if_pos hW, hW, mul_zero, if_pos rfl]
    rfl
  · rw [if_neg hW, if_neg (mul_ne_zero hk.ne' hW), Moments.ofMultiset_rescale hk.ne' hW]
    rfl

theorem variance_rescale (form : Form) :
    (t.variance form : Except (Fault ω) ℝ) = (s.variance form).map fun x => a ^ 2 * x := by
  cases form with
  | corrected =>
    rw [variance, variance, moments_rescale hk hnn hst, count_rescale hst]
    exact map_bind_map fun m _ => congrArg Except.ok (Moments.variance_rescale hk.ne' _)
  | plugIn =>
    rw [variance, variance, moments_rescale hk hnn hst]
    exact map_bind_map fun m _ => congrArg Except.ok (Moments.populationVariance_rescale hk.ne')

variable (ha : a ≠ 0)
include ha

theorem spreadMoments_rescale (required : UInt64) :
    (t.spreadMoments required : Except (Fault ω) (Moments ℝ)) =
      (s.spreadMoments required).map (Moments.rescale a c k) := by
  rw [spreadMoments, spreadMoments, moments_rescale hk hnn hst]
  refine map_bind_map fun m _ => ?_
  rw [Summary.requireSpread_rescale hk.ne' ha]
  exact guard_map fun _ => rfl

/-- **An estimator in other units** has the same fault, or its value in these units. -/
theorem estimate_rescale (e : Estimator) :
    (t.estimate e : Except (Fault ω) ℝ) = (s.estimate e).map (e.rescale a c) := by
  have hspread := fun required =>
    spreadMoments_rescale (ω := ω) hk hnn hst ha required
  have hcount := count_rescale hst
  cases e with
  | mean =>
    rw [estimate, estimate, moments_rescale hk hnn hst]
    exact map_bind_map fun m _ => rfl
  | variance form => exact variance_rescale hk hnn hst form
  | skewness form =>
    cases form with
    | corrected =>
      rw [estimate, estimate, hspread, hcount]
      exact map_bind_map fun m _ => congrArg Except.ok (Moments.skewness_rescale hk.ne' ha _)
    | plugIn =>
      rw [estimate, estimate, hspread]
      exact map_bind_map fun m _ => congrArg Except.ok (Moments.populationSkewness_rescale hk.ne' ha)
  | kurtosis form =>
    cases form with
    | corrected =>
      rw [estimate, estimate, hspread, hcount]
      exact map_bind_map fun m _ => congrArg Except.ok (Moments.kurtosis_rescale hk.ne' ha _)
    | plugIn =>
      rw [estimate, estimate, hspread]
      exact map_bind_map fun m _ => congrArg Except.ok (Moments.populationKurtosis_rescale hk.ne' ha)
  | standardError form =>
    rw [estimate, estimate, variance_rescale hk hnn hst, hcount]
    refine map_bind_map fun v _ => congrArg Except.ok ?_
    rw [mul_div_assoc, Moments.sqrt_rescale]
    rfl

end Sample

/-! ## Every session and every sample -/

/-- **A change of units** of the values, by any factor but zero and from any origin, and of the
weights, by any positive factor. A session that comes to hold the observations of another in other
units, in whatever order and merged in whatever way, answers every query in these units, or with
the same fault, as long as the count does not wrap; so do all estimators of a sample. -/
theorem change_of_units {a c k : ℝ} (ha : a ≠ 0) (hk : 0 < k) {ω : Type} [Wide ℝ ω] :
    (∀ (cs cs' : List (String × Summary.Command ℝ)) (name name' : String),
      (Summary.held cs name).card < 2 ^ 64 →
      Summary.held cs' name' = (Summary.held cs name).map (Observation.rescale a c k) →
      let s := Summary.session cs name
      let t := Summary.session cs' name'
      t.weightSum = k * s.weightSum ∧
      (t.mean : Except (Fault ω) ℝ) = s.mean.map (fun x => a * x + c) ∧
      (t.variance : Except (Fault ω) ℝ) = s.variance.map (fun x => a ^ 2 * x) ∧
      (t.standardDeviation : Except (Fault ω) ℝ) = s.standardDeviation.map (fun x => |a| * x) ∧
      (t.standardError : Except (Fault ω) ℝ) = s.standardError.map (fun x => |a| * x) ∧
      (t.skewness : Except (Fault ω) ℝ) = s.skewness.map (fun x => (SignType.sign a : ℝ) * x) ∧
      (t.kurtosis : Except (Fault ω) ℝ) = s.kurtosis) ∧
    (∀ s t : Sample ℝ, (∀ o ∈ s.observations, 0 ≤ o.weight) →
      (t.observations : Multiset (Observation ℝ)) =
        (s.observations : Multiset (Observation ℝ)).map (Observation.rescale a c k) →
      ∀ e : Estimator,
        (t.estimate e : Except (Fault ω) ℝ) = (s.estimate e).map (e.rescale a c)) := by
  refine ⟨fun cs cs' name name' hc hh => ?_, fun s t hnn hst e =>
    Sample.estimate_rescale hk hnn hst ha e⟩
  have hs := Summary.closedForm_tracks.run cs name hc
  have ht := Summary.closedForm_tracks.run cs' name' (by rwa [hh, Multiset.card_map])
  rw [hh] at ht
  have h := hs.rescaled hk.ne' ht
  have hk := hk.ne'
  exact ⟨h.weight, h.mean hk, h.variance hk, h.standardDeviation hk, h.standardError hk,
    h.skewness hk ha, h.kurtosis hk ha⟩

/-- Values reflected, scaled and moved, in other commands and in another order. -/
theorem change_of_units_real :
    let cs : List (String × Summary.Command ℝ) := [("a", .addWeighted [3, 0, 1] [0, 1, 2])]
    let cs' : List (String × Summary.Command ℝ) :=
      [("b", .add ⟨-5, 0⟩), ("a", .add ⟨1, 3⟩), ("b", .add ⟨-1, 6⟩), ("a", .merge "b")]
    let s : Sample ℝ := ⟨[⟨3, 0⟩, ⟨0, 1⟩, ⟨1, 2⟩]⟩
    let t : Sample ℝ := ⟨[⟨-1, 6⟩, ⟨1, 3⟩, ⟨-5, 0⟩]⟩
    ((-2 : ℝ) ≠ 0 ∧ (0 : ℝ) < 3) ∧ (Summary.held cs "a").card < 2 ^ 64 ∧
      Summary.held cs' "a" = (Summary.held cs "a").map (Observation.rescale (-2) 1 3) ∧
      (∀ o ∈ s.observations, 0 ≤ o.weight) ∧
      (t.observations : Multiset (Observation ℝ)) =
        (s.observations : Multiset (Observation ℝ)).map (Observation.rescale (-2) 1 3) ∧
      ((Summary.session cs' "a").mean : Except (Fault ℝ) ℝ) =
        (Summary.session cs "a").mean.map (fun x => -2 * x + 1) ∧
      (t.estimate (.skewness .plugIn) : Except (Fault ℝ) ℝ) =
        (s.estimate (.skewness .plugIn)).map (fun x => -x) := by
  intro cs cs' s t
  have hneg : (-2 : ℝ) ≠ 0 := by norm_num
  have hheld : Summary.held cs "a" = {⟨3, 0⟩, ⟨0, 1⟩, ⟨1, 2⟩} := by
    simp [cs, Summary.held, Summary.holdAll, Summary.Command.holding, Summary.taken,
      Registers.set, Observation.zip, Observation.valid_real]
    rfl
  have hheld' : Summary.held cs' "a" = {⟨-5, 0⟩, ⟨1, 3⟩, ⟨-1, 6⟩} := by
    simp [cs', Summary.held, Summary.holdAll, Summary.Command.holding, Summary.taken,
      Registers.set, Observation.valid_real]
  have hrescale : ({⟨3, 0⟩, ⟨0, 1⟩, ⟨1, 2⟩} : Multiset (Observation ℝ)).map
      (Observation.rescale (-2) 1 3) = {⟨-5, 0⟩, ⟨1, 3⟩, ⟨-1, 6⟩} := by
    norm_num [Observation.rescale]
  have hc : (Summary.held cs "a").card < 2 ^ 64 := by
    rw [hheld]
    decide
  have hh : Summary.held cs' "a" = (Summary.held cs "a").map (Observation.rescale (-2) 1 3) := by
    rw [hheld, hheld', hrescale]
  have hnn : ∀ o ∈ s.observations, 0 ≤ o.weight := by simp [s]
  have hst : (t.observations : Multiset (Observation ℝ)) =
      (s.observations : Multiset (Observation ℝ)).map (Observation.rescale (-2) 1 3) := by
    have hreverse := Multiset.coe_reverse ([⟨-5, 0⟩, ⟨1, 3⟩, ⟨-1, 6⟩] : List (Observation ℝ))
    exact hreverse.trans hrescale.symm
  obtain ⟨hstream, hbatch⟩ := change_of_units (a := -2) (c := 1) hneg three_pos (ω := ℝ)
  obtain ⟨-, hmean, -⟩ := hstream cs cs' "a" "a" hc hh
  refine ⟨⟨hneg, three_pos⟩, hc, hh, hnn, hst, hmean, (hbatch s t hnn hst _).trans ?_⟩
  congr 1
  funext x
  simp [Estimator.rescale]

end RunningStats
