import Mathlib.Algebra.BigOperators.Fin
import RunningStats.Proofs.Exact.Queries
import RunningStats.Proofs.Exact.TwoPass

/-!
# Location and spread lie within the range

In exact arithmetic the mean of a summary lies between its extrema, and so near to one of them that
little spread is left: the distances of a value from the two ends of the range have a product that
is not negative, and the weighted sum of these products is `(hi - mean) * (mean - lo) * W - m2`
(`sum_ends`). The extrema are kept by comparisons and the moments by the formulas of a merge; what
ties them together is the multiset of observations that both describe.

* `m2_le_ends`: the variance is at most `(hi - mean) * (mean - lo)`, for any range that holds the
  values of positive weight, so observations without weight may widen it;
* `session_range`: the same at the end of every session, for the extrema that it reports, and what
  follows for the variance that it reports.
-/

namespace RunningStats

variable {K : Type} [ExactScalar K]

namespace Moments

variable {H : Multiset (Observation K)}

/-! ## Sums of polynomials of the deviations -/

/-- A polynomial of the deviations has the same polynomial of the power sums for its weighted
sum. -/
theorem sum_poly (n : ℕ) (a : Fin n → K) (c : K) (H : Multiset (Observation K)) :
    (H.map fun o => o.weight * ∑ i, a i * (o.value - c) ^ (i : ℕ)).sum =
      ∑ i, a i * about i c H := by
  induction H using Multiset.induction with
  | empty => simp
  | cons o H ih =>
    rw [Multiset.map_cons, Multiset.sum_cons, ih, Finset.mul_sum, ← Finset.sum_add_distrib]
    refine Finset.sum_congr rfl fun i _ => ?_
    rw [about_cons]
    ring

/-! ## A range that holds the values -/

/-- The weighted products of the distances from two ends sum to what the spread leaves of the
product of the mean's own distances. -/
theorem sum_ends (lo hi : K) (hW : totalWeight H ≠ 0) :
    (H.map fun o => o.weight * ((hi - o.value) * (o.value - lo))).sum =
      (hi - center H) * (center H - lo) * totalWeight H - (ofMultiset H).m2 := by
  have h := sum_poly 3
    ![(hi - center H) * (center H - lo), hi + lo - 2 * center H, -1] (center H) H
  simp only [Fin.sum_univ_three, Fin.val_zero, Fin.val_one, Fin.val_two, Matrix.cons_val_zero,
    Matrix.cons_val_one, Matrix.cons_val, about_zero, about_one_center hW] at h
  calc (H.map fun o => o.weight * ((hi - o.value) * (o.value - lo))).sum
      = (H.map fun o => o.weight * ((hi - center H) * (center H - lo) * (o.value - center H) ^ 0 +
          (hi + lo - 2 * center H) * (o.value - center H) ^ 1 +
          -1 * (o.value - center H) ^ 2)).sum := by
        congr 2
        funext o
        ring
    _ = _ := by
        rw [h, ofMultiset]
        ring

variable {lo hi : K} (hnn : ∀ o ∈ H, 0 ≤ o.weight) (hW : totalWeight H ≠ 0)
  (hb : ∀ o ∈ H, 0 < o.weight → lo ≤ o.value ∧ o.value ≤ hi)
include hnn hW hb

/-- **The second moment is bounded by the distances of the mean** from the ends of a range. -/
theorem m2_le_ends :
    (ofMultiset H).m2 ≤ (hi - center H) * (center H - lo) * totalWeight H := by
  have hsum : 0 ≤ (H.map fun o => o.weight * ((hi - o.value) * (o.value - lo))).sum := by
    refine Multiset.sum_nonneg (Multiset.forall_mem_map_iff.mpr fun o ho => ?_)
    rcases (hnn o ho).eq_or_lt with hw | hw
    · rw [← hw, zero_mul]
    · obtain ⟨hlo, hhi⟩ := hb o ho hw
      exact mul_nonneg hw.le (mul_nonneg (sub_nonneg.mpr hhi) (sub_nonneg.mpr hlo))
  rw [sum_ends lo hi hW] at hsum
  exact sub_nonneg.mp hsum

theorem populationVariance_le_ends :
    (ofMultiset H).populationVariance ≤ (hi - center H) * (center H - lo) := by
  unfold populationVariance
  rw [weight_ofMultiset, div_le_iff₀ (totalWeight_pos hnn hW)]
  exact m2_le_ends hnn hW hb

/-- The variance is at most that of two equal weights at the ends. -/
theorem populationVariance_le_range :
    (ofMultiset H).populationVariance ≤ (hi - lo) ^ 2 / 4 := by
  have hsq : (hi - center H) * (center H - lo) ≤ (hi - lo) ^ 2 / 4 := by
    have h : 0 ≤ (hi + lo - 2 * center H) ^ 2 := sq_nonneg _
    linarith
  exact (populationVariance_le_ends hnn hW hb).trans hsq

end Moments

/-! ## Sessions -/

namespace Summary

open Moments

variable {ω β : Type} {H : Multiset (Observation K)}

omit [ExactScalar K] in
/-- Where something is held and it is enough, a query that counts has an answer. -/
theorem ifCounted_of_le {required : UInt64} (h0 : H ≠ 0) (hn : required.toNat ≤ H.card)
    (answer : Except (Fault ω) β) : ifCounted H required answer = answer := by
  rw [ifCounted, if_neg (mt Multiset.card_eq_zero.mp h0), if_neg (by omega)]

/-- Where there is some weight as well, so has one that averages. -/
theorem ifWeighted_of_weight {required : UInt64} (hW : totalWeight H ≠ 0)
    (hn : required.toNat ≤ H.card) (answer : Except (Fault ω) β) :
    ifWeighted H required answer = answer := by
  have h0 : H ≠ 0 := fun h0 => hW (by rw [h0]; rfl)
  have hsome : ¬ ∀ o ∈ H, o.weight = 0 := fun h =>
    hW (Multiset.sum_eq_zero (Multiset.forall_mem_map_iff.mpr h))
  rw [ifWeighted, ifCounted_of_le h0 hn, if_neg hsome]

/-- What is answered is the value. -/
theorem ifWeighted_eq_ok {required : UInt64} {x v : β}
    (h : (ifWeighted H required (.ok x) : Except (Fault ω) β) = .ok v) : x = v := by
  unfold ifWeighted ifCounted at h
  split_ifs at h
  exact Except.ok.inj h

/-- **Location and spread of a session** lie within the range that it reports. -/
theorem session_range [Wide K ω] (cs : List (String × Command K)) (name : String)
    (hc : (held cs name).card < 2 ^ 64) :
    let s := session cs name
    let n : K := (held cs name).card
    0 < s.weightSum →
    ∃ lo hi mean : K, (s.minimum : Except (Fault ω) K) = .ok lo ∧
      (s.maximum : Except (Fault ω) K) = .ok hi ∧ (s.mean : Except (Fault ω) K) = .ok mean ∧
      lo ≤ mean ∧ mean ≤ hi ∧
      s.moments.m2 / s.weightSum ≤ (hi - mean) * (mean - lo) ∧
      s.moments.populationVariance ≤ (hi - lo) ^ 2 / 4 ∧
      (2 ≤ s.samples → ∃ v, (s.variance : Except (Fault ω) K) = .ok v) ∧
      ∀ v, (s.variance : Except (Fault ω) K) = .ok v → v ≤ n / (n - 1) * ((hi - lo) ^ 2 / 4) := by
  intro s n hpos
  have h : ClosedForm s (held cs name) := closedForm_tracks.run cs name hc
  have hweight : s.weightSum = totalWeight (held cs name) := congrArg Moments.weight h.moments
  have hmean : s.moments.mean = center (held cs name) := congrArg Moments.mean h.moments
  have hW : totalWeight (held cs name) ≠ 0 := hweight ▸ hpos.ne'
  have hne : held cs name ≠ 0 := fun h0 => hW (by rw [h0]; rfl)
  have hone : (1 : UInt64).toNat ≤ (held cs name).card := Multiset.card_pos.mpr hne
  have hb : ∀ o ∈ held cs name, 0 < o.weight → s.min ≤ o.value ∧ o.value ≤ s.max :=
    fun o ho _ => ⟨(h.lower hne).2 o ho, (h.upper hne).2 o ho⟩
  have hspread : s.moments.populationVariance ≤ (s.max - s.min) ^ 2 / 4 := by
    rw [h.moments]
    exact populationVariance_le_range h.weight_nonneg hW hb
  have hvariance : (s.variance : Except (Fault ω) K) =
      ifWeighted (held cs name) 2 (.ok (s.moments.variance s.samples)) := h.requireMoments_eq 2 _
  refine ⟨s.min, s.max, s.moments.mean, ?_, ?_, ?_, ?_, ?_, ?_, hspread, fun hn => ?_,
    fun v hv => ?_⟩
  · exact (h.requireSamples_eq 1 _).trans (ifCounted_of_le hne hone _)
  · exact (h.requireSamples_eq 1 _).trans (ifCounted_of_le hne hone _)
  · exact (h.requireMoments_eq 1 _).trans (ifWeighted_of_weight hW hone _)
  · rw [hmean]
    exact le_center h.weight_nonneg hW fun o ho hw => (hb o ho hw).1
  · rw [hmean]
    exact center_le h.weight_nonneg hW fun o ho hw => (hb o ho hw).2
  · rw [hmean, hweight, h.moments]
    exact populationVariance_le_ends h.weight_nonneg hW hb
  · rw [UInt64.le_iff_toNat_le, h.samples] at hn
    exact ⟨_, hvariance.trans (ifWeighted_of_weight hW hn _)⟩
  · have hn : (s.samples.toNat : K) = n := by rw [h.samples]
    have hfactor : 0 ≤ n / (n - 1) := by
      have h1 : 1 ≤ n := Nat.one_le_cast.mpr hone
      exact div_nonneg (zero_le_one.trans h1) (sub_nonneg.mpr h1)
    rw [← ifWeighted_eq_ok (hvariance.symm.trans hv), variance_eq, hn, mul_comm (n / (n - 1))]
    exact mul_le_mul_of_nonneg_right hspread hfactor

/-- Rationals with an outlier without weight, from two summaries, one of them empty when the other
is merged into it. -/
theorem session_range_rat :
    let cs : List (String × Command ℚ) :=
      [("b", .addWeighted [1, 4] [3, 1]), ("b", .add ⟨-6, 0⟩), ("a", .merge "b"),
        ("a", .addValue 2)]
    let s := session cs "a"
    (held cs "a").card < 2 ^ 64 ∧ 0 < s.weightSum ∧ 2 ≤ s.samples ∧
      ∃ lo hi mean : ℚ, (s.minimum : Except (Fault ℚ) ℚ) = .ok lo ∧
        (s.maximum : Except (Fault ℚ) ℚ) = .ok hi ∧ (s.mean : Except (Fault ℚ) ℚ) = .ok mean ∧
        lo ≤ mean ∧ mean ≤ hi ∧ s.moments.populationVariance ≤ (hi - lo) ^ 2 / 4 ∧
        ∃ v, (s.variance : Except (Fault ℚ) ℚ) = .ok v ∧ v ≤ (hi - lo) ^ 2 / 3 := by
  intro cs s
  have hc : (held cs "a").card < 2 ^ 64 := by decide +kernel
  have hpos : 0 < s.weightSum := by decide +kernel
  have hn : 2 ≤ s.samples := by decide +kernel
  have hcard : (held cs "a").card = 4 := by decide +kernel
  obtain ⟨lo, hi, mean, hlo, hhi, hmean, h1, h2, -, h3, hsome, hle⟩ :=
    session_range (ω := ℚ) cs "a" hc hpos
  obtain ⟨v, hv⟩ := hsome hn
  have hv' := hle v hv
  rw [hcard] at hv'
  norm_num at hv'
  exact ⟨hc, hpos, hn, lo, hi, mean, hlo, hhi, hmean, h1, h2, h3, v, hv, hv'⟩

end Summary

end RunningStats
