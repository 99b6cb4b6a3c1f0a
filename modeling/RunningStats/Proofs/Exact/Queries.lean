import RunningStats.Proofs.Exact.Stream
import RunningStats.Summary.Queries

/-!
# What a query answers

In exact arithmetic the answer to a query is a function of the multiset of observations held. The
faults come in a fixed order, each of them decided by the observations: nothing is held
(`ifCounted`), too little is held, all that is held is without weight (`ifWeighted`), or all that
has weight has one value (`ifSpread`). Otherwise the answer is the value of the documented formula.

* `about_two_eq_zero_iff`: the square deviations sum to zero just where the values of positive
  weight coincide, so the last fault is decided by the values too;
* `query_outcomes`: the answers of all eight queries, after every session, with the square root of
  the reals.
-/

namespace RunningStats

open Moments

variable {K : Type} [ExactScalar K]

/-! ## Spread -/

/-- All values of positive weight are equal. -/
def Flat (H : Multiset (Observation K)) : Prop :=
  ∀ o ∈ H, ∀ p ∈ H, 0 < o.weight → 0 < p.weight → o.value = p.value

instance (H : Multiset (Observation K)) : Decidable (Flat H) :=
  inferInstanceAs (Decidable (∀ o ∈ H, ∀ p ∈ H, _))

namespace Moments

variable {H : Multiset (Observation K)}

theorem about_two_nonneg (hnn : ∀ o ∈ H, 0 ≤ o.weight) (c : K) : 0 ≤ about 2 c H :=
  Multiset.sum_nonneg (Multiset.forall_mem_map_iff.mpr fun o ho =>
    mul_nonneg (hnn o ho) (sq_nonneg _))

/-- Where there is no spread, all weight lies on the mean. -/
theorem value_eq_center (hnn : ∀ o ∈ H, 0 ≤ o.weight) (h0 : about 2 (center H) H = 0) :
    ∀ o ∈ H, o.weight ≠ 0 → o.value = center H := by
  -- no term is negative, so each of them is zero
  have hterm : ∀ o ∈ H, o.weight * (o.value - center H) ^ 2 = 0 :=
    Multiset.forall_mem_map_iff.mp (Multiset.all_zero_of_le_zero_le_of_sum_eq_zero
      (Multiset.forall_mem_map_iff.mpr fun o ho => mul_nonneg (hnn o ho) (sq_nonneg _)) h0)
  intro o ho hw
  have hsq : (o.value - center H) ^ 2 = 0 := (mul_eq_zero.mp (hterm o ho)).resolve_left hw
  exact sub_eq_zero.mp (pow_eq_zero_iff two_ne_zero |>.mp hsq)

/-- **The spread is zero just where the values of positive weight coincide.** -/
theorem about_two_eq_zero_iff (hnn : ∀ o ∈ H, 0 ≤ o.weight) (hW : totalWeight H ≠ 0) :
    about 2 (center H) H = 0 ↔ Flat H := by
  constructor
  · intro h0 o ho p hp how hpw
    rw [value_eq_center hnn h0 o ho how.ne', value_eq_center hnn h0 p hp hpw.ne']
  · intro hflat
    obtain ⟨o, ho, how⟩ : ∃ o ∈ H, o.weight ≠ 0 := by
      by_contra hn
      exact hW ((totalWeight_eq_zero_iff hnn).mpr fun o ho =>
        not_not.mp fun hw => hn ⟨o, ho, hw⟩)
    have hpos : ∀ p ∈ H, p.weight ≠ 0 → 0 < p.weight := fun p hp hw => (hnn p hp).lt_of_ne' hw
    have h := ofMultiset_eq_concentrated hW fun p hp hpw =>
      hflat p hp o ho (hpos p hp hpw) (hpos o ho how)
    exact congrArg Moments.m2 h

/-! ## Values -/

theorem center_eq_div (H : Multiset (Observation K)) :
    center H = (H.map fun o => o.weight * o.value).sum / totalWeight H := by
  unfold center
  split
  · rename_i h0
    rw [h0, div_zero]
  · rfl

variable (m : Moments K) (n : UInt64)

theorem variance_eq : m.variance n = m.m2 / m.weight * (n.toNat / (n.toNat - 1)) := by
  unfold variance populationVariance
  rw [ExactScalar.ofCount_eq_natCast, mul_div_assoc]

/-- The variance is not negative, even where there are too few observations to ask for it. -/
theorem variance_nonneg (hw : 0 ≤ m.weight) (h2 : 0 ≤ m.m2) : 0 ≤ m.variance n := by
  have hcount : (0 : K) ≤ n.toNat / (n.toNat - 1) := by
    rcases Nat.eq_zero_or_pos n.toNat with h0 | hpos
    · rw [h0, Nat.cast_zero, zero_div]
    · have h1 : (1 : K) ≤ n.toNat := by exact_mod_cast hpos
      exact div_nonneg (zero_le_one.trans h1) (sub_nonneg.mpr h1)
  rw [variance_eq]
  exact mul_nonneg (div_nonneg h2 hw) hcount

theorem skewness_eq : m.skewness n = (n.toNat : K) ^ 2 / ((n.toNat - 1) * (n.toNat - 2)) *
    (m.m3 / m.weight) / Scalar.sqrt (m.variance n) ^ 3 := by
  unfold skewness
  rw [ExactScalar.ofCount_eq_natCast]
  ring_nf

theorem kurtosis_eq : m.kurtosis n =
    (n.toNat : K) ^ 2 * (n.toNat + 1) / ((n.toNat - 1) * (n.toNat - 2) * (n.toNat - 3)) *
      (m.m4 / m.weight) / m.variance n ^ 2 -
      3 * (n.toNat - 1) ^ 2 / ((n.toNat - 2) * (n.toNat - 3)) := by
  have h3 : (Scalar.ofCount 3 : K) = 3 := by simp
  unfold kurtosis
  rw [ExactScalar.ofCount_eq_natCast n, h3]
  ring_nf

end Moments

/-! ## Faults, in order -/

section Answers

variable {ω β : Type}

/-- The answer to a query that asks for `required` observations. -/
def ifCounted (H : Multiset (Observation K)) (required : UInt64) (answer : Except (Fault ω) β) :
    Except (Fault ω) β :=
  if H.card = 0 then .error .empty
  else if H.card < required.toNat then
    .error (.insufficientSamples required (UInt64.ofNat H.card))
  else answer

/-- The answer to a query that asks for observations, then for some weight. -/
def ifWeighted (H : Multiset (Observation K)) (required : UInt64) (answer : Except (Fault ω) β) :
    Except (Fault ω) β :=
  ifCounted H required (if ∀ o ∈ H, o.weight = 0 then .error .zeroWeightSum else answer)

/-- The answer to a query that asks for observations, then for some weight, then for some
spread. -/
def ifSpread (H : Multiset (Observation K)) (required : UInt64) (answer : Except (Fault ω) β) :
    Except (Fault ω) β :=
  ifWeighted H required (if Flat H then .error .zeroVariance else answer)

/-- A test that fails with one fault, decided by another condition of the same truth. -/
theorem guard_bind {p q : Prop} [Decidable p] [Decidable q] (hpq : p ↔ q) (e : Fault ω)
    (r : Except (Fault ω) β) :
    (do (if p then .error e else .ok () : Except (Fault ω) Unit); r) =
      if q then .error e else r := by
  by_cases hp : p
  · rw [if_pos hp, if_pos (hpq.mp hp)]
    rfl
  · rw [if_neg hp, if_neg fun hq => hp (hpq.mpr hq)]
    rfl

end Answers

namespace Summary

variable {ω β : Type} {s : Summary K} {H : Multiset (Observation K)}

theorem Describes.samples_eq (h : Describes s H) : s.samples = UInt64.ofNat H.card := by
  rw [← h.samples, UInt64.ofNat_toNat]

namespace ClosedForm

variable (h : ClosedForm s H) (required : UInt64)
include h

theorem ofCount_samples : (Scalar.ofCount s.samples : K) = H.card := by
  rw [ExactScalar.ofCount_eq_natCast, h.samples]

theorem requireSamples_eq (r : Except (Fault ω) β) :
    (do Fault.requireSamples required s.samples; r) = ifCounted H required r := by
  unfold Fault.requireSamples ifCounted
  by_cases h0 : H.card = 0
  · have hs : s.samples = 0 := h.samples_eq_zero_iff.mpr (Multiset.card_eq_zero.mp h0)
    rw [if_pos h0, if_pos hs]
    rfl
  · have hs : s.samples ≠ 0 := fun hs => h0 (by rw [h.samples_eq_zero_iff.mp hs]; rfl)
    have hlt : s.samples < required ↔ H.card < required.toNat := by
      rw [UInt64.lt_iff_toNat_lt, h.samples]
    rw [if_neg h0, if_neg hs, ← h.samples_eq]
    exact guard_bind hlt _ r

theorem requireMoments_eq (r : Except (Fault ω) β) :
    (do s.requireMoments required; r) = ifWeighted H required r := by
  have hW : (Scalar.isZero s.moments.weight = true) ↔ ∀ o ∈ H, o.weight = 0 := by
    rw [ExactScalar.isZero_iff, h.moments, weight_ofMultiset]
    exact totalWeight_eq_zero_iff h.weight_nonneg
  unfold requireMoments ifWeighted
  rw [← h.requireSamples_eq, bind_assoc]
  congr 1
  funext _
  exact guard_bind hW _ r

theorem requireSpread_eq (r : Except (Fault ω) β) :
    (do s.requireMoments required; requireSpread s.moments; r) = ifSpread H required r := by
  rw [h.requireMoments_eq]
  unfold ifSpread ifWeighted
  by_cases hw : ∀ o ∈ H, o.weight = 0
  · rw [if_pos hw, if_pos hw]
  · have hm2 : (Scalar.isZero s.moments.m2 = true) ↔ Flat H := by
      rw [ExactScalar.isZero_iff, h.moments]
      exact about_two_eq_zero_iff h.weight_nonneg fun h0 =>
        hw ((totalWeight_eq_zero_iff h.weight_nonneg).mp h0)
    rw [if_neg hw, if_neg hw]
    exact congrArg _ (guard_bind hm2 _ r)

end ClosedForm

/-- The variance of what is held is not negative, whatever its number. -/
theorem ClosedForm.variance_nonneg {s : Summary K} {H : Multiset (Observation K)}
    (h : ClosedForm s H) : 0 ≤ s.moments.variance s.samples := by
  rw [h.moments]
  exact Moments.variance_nonneg _ _ (totalWeight_nonneg h.weight_nonneg)
    (about_two_nonneg h.weight_nonneg _)

/-! ## Sessions -/

/-- **The answers of all queries**, after every session: which fault, if any, is decided by the
observations held alone, and where there is none the answer is the value of the formula. -/
theorem query_outcomes {ω : Type} [Wide ℝ ω] (cs : List (String × Command ℝ)) (name : String)
    (hc : (held cs name).card < 2 ^ 64) :
    let s := session cs name
    let H := held cs name
    let n : ℝ := H.card
    let W := (H.map fun o => o.weight).sum
    let mean := (H.map fun o => o.weight * o.value).sum / W
    let M (j : ℕ) := (H.map fun o => o.weight * (o.value - mean) ^ j).sum
    let variance := M 2 / W * (n / (n - 1))
    let deviation := √variance
    ((s.minimum : Except (Fault ω) ℝ) = ifCounted H 1 (.ok s.min) ∧
      (H ≠ 0 → IsLeast {x | ∃ o ∈ H, o.value = x} s.min)) ∧
    ((s.maximum : Except (Fault ω) ℝ) = ifCounted H 1 (.ok s.max) ∧
      (H ≠ 0 → IsGreatest {x | ∃ o ∈ H, o.value = x} s.max)) ∧
    (s.mean : Except (Fault ω) ℝ) = ifWeighted H 1 (.ok mean) ∧
    (s.variance : Except (Fault ω) ℝ) = ifWeighted H 2 (.ok variance) ∧
    (s.standardDeviation : Except (Fault ω) ℝ) = ifWeighted H 2 (.ok deviation) ∧
    (s.standardError : Except (Fault ω) ℝ) = ifWeighted H 2 (.ok √(variance / n)) ∧
    (s.skewness : Except (Fault ω) ℝ) = ifSpread H 3
      (.ok (n ^ 2 / ((n - 1) * (n - 2)) * (M 3 / W) / deviation ^ 3)) ∧
    (s.kurtosis : Except (Fault ω) ℝ) = ifSpread H 4
      (.ok (n ^ 2 * (n + 1) / ((n - 1) * (n - 2) * (n - 3)) * (M 4 / W) / deviation ^ 4 -
        3 * (n - 1) ^ 2 / ((n - 2) * (n - 3)))) := by
  intro s H n W mean M variance deviation
  have h : ClosedForm s H := closedForm_tracks.run cs name hc
  have hn : (s.samples.toNat : ℝ) = n := by rw [h.samples]
  have hcount : (Scalar.ofCount s.samples : ℝ) = n := h.ofCount_samples
  have hmean : center H = mean := center_eq_div H
  have hM (j : ℕ) : about j (center H) H = M j := by rw [hmean]; rfl
  have hvariance : s.moments.variance s.samples = variance := by
    rw [variance_eq, hn, h.moments]
    show about 2 (center H) H / totalWeight H * _ = _
    rw [hM]
    rfl
  have hdeviation : Scalar.sqrt (s.moments.variance s.samples) = deviation := by
    rw [hvariance]
    rfl
  refine ⟨⟨?_, fun h0 => ?_⟩, ⟨?_, fun h0 => ?_⟩, ?_, ?_, ?_, ?_, ?_, ?_⟩
  · exact h.requireSamples_eq 1 _
  · obtain ⟨hmem, hle⟩ := h.lower h0
    exact ⟨hmem, fun x ⟨o, ho, hx⟩ => hx ▸ hle o ho⟩
  · exact h.requireSamples_eq 1 _
  · obtain ⟨hmem, hle⟩ := h.upper h0
    exact ⟨hmem, fun x ⟨o, ho, hx⟩ => hx ▸ hle o ho⟩
  · rw [← hmean, ← h.requireMoments_eq, Summary.mean, h.moments]
    rfl
  · rw [← hvariance]
    exact h.requireMoments_eq 2 _
  · rw [← hdeviation, ← h.requireMoments_eq, standardDeviation, Summary.variance]
    simp only [bind_assoc, pure_bind]
    rfl
  · rw [← hvariance, ← hcount, ← h.requireMoments_eq, standardError, Summary.variance]
    simp only [bind_assoc, pure_bind]
    rfl
  · have hvalue : s.moments.skewness s.samples =
        n ^ 2 / ((n - 1) * (n - 2)) * (M 3 / W) / deviation ^ 3 := by
      rw [skewness_eq, hdeviation, hn, ← hM, h.moments]
      rfl
    rw [← hvalue]
    exact h.requireSpread_eq 3 _
  · have hfourth : deviation ^ 4 = s.moments.variance s.samples ^ 2 := by
      rw [← hdeviation]
      show √_ ^ (2 * 2) = _
      rw [pow_mul, Real.sq_sqrt h.variance_nonneg]
    have hvalue : s.moments.kurtosis s.samples =
        n ^ 2 * (n + 1) / ((n - 1) * (n - 2) * (n - 3)) * (M 4 / W) / deviation ^ 4 -
          3 * (n - 1) ^ 2 / ((n - 2) * (n - 3)) := by
      rw [kurtosis_eq, ← hfourth, hn, ← hM, h.moments]
      rfl
    rw [← hvalue]
    exact h.requireSpread_eq 4 _

/-- Real numbers, of which the largest has no weight: there is a variance, but too little for the
kurtosis. -/
theorem query_outcomes_real :
    let cs : List (String × Command ℝ) :=
      [("b", .addValue 3), ("a", .add ⟨1, 1⟩), ("a", .add ⟨0, -1⟩), ("a", .merge "b"),
        ("a", .add ⟨8, 0⟩)]
    (held cs "a").card < 2 ^ 64 ∧
      ((session cs "a").variance : Except (Fault ℝ) ℝ) = .ok (3 / 2) ∧
      ((session cs "a").kurtosis : Except (Fault ℝ) ℝ) = .error (.insufficientSamples 4 3) := by
  intro cs
  have hvalid (x w : ℝ) : (⟨x, w⟩ : Observation ℝ).Valid ↔ (0 : ℝ) ≤ w :=
    ⟨fun h => h.2.1, fun h => ⟨rfl, h, rfl⟩⟩
  have hneg : ¬ (0 : ℝ) ≤ -1 := by norm_num
  have hheld : held cs "a" = {⟨1, 1⟩, ⟨3, 1⟩, ⟨8, 0⟩} := by
    simp [cs, held, holdAll, Command.holding, taken, Registers.set, Observation.unit, hvalid, hneg]
  have hc : (held cs "a").card < 2 ^ 64 := by
    rw [hheld]
    decide
  obtain ⟨-, -, -, hvariance, -, -, -, hkurtosis⟩ := query_outcomes cs "a" hc
  refine ⟨hc, hvariance.trans ?_, hkurtosis.trans ?_⟩
  · rw [hheld]
    simp [ifWeighted, ifCounted]
    norm_num
  · rw [hheld]
    simp [ifSpread, ifWeighted, ifCounted]

end Summary

end RunningStats
