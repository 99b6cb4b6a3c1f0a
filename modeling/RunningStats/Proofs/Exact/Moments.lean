import Mathlib.Algebra.Order.BigOperators.Group.Multiset
import Mathlib.Data.Nat.Choose.Sum
import Mathlib.Tactic.FieldSimp
import Mathlib.Tactic.Linarith
import RunningStats.Proofs.Exact.Sum

/-!
# Central moments in closed form

`ofMultiset H` are the moments of a multiset of observations by definition: the sum of the
weights, the weighted mean, and the weighted sums of powers of the deviations from it. All of
these are sums `about k c H`, and a change of the centre is the binomial theorem under the sum
(`about_shift`). The first power about the mean sums to zero, which turns the shift of two sets to
their common mean into the formulas of `combine`.

* `merge_ofMultiset`: merging is the closed form of both multisets together;
* `observeAll_ofMultiset`: so observations taken in one at a time leave the closed form.

Weights must not be negative: only then does a weight sum of zero mean that there is no weight.
-/

namespace RunningStats.Moments

variable {K : Type} [ExactScalar K] {H G : Multiset (Observation K)}

/-! ## Sums of powers of deviations -/

/-- The weighted sum of the `k`-th powers of the deviations from `c`. -/
def about (k : ℕ) (c : K) (H : Multiset (Observation K)) : K :=
  (H.map fun o => o.weight * (o.value - c) ^ k).sum

@[simp] theorem about_nil (k : ℕ) (c : K) : about k c 0 = 0 := rfl

@[simp] theorem about_cons (k : ℕ) (c : K) (o : Observation K) (H : Multiset (Observation K)) :
    about k c (o ::ₘ H) = o.weight * (o.value - c) ^ k + about k c H := by
  unfold about
  rw [Multiset.map_cons, Multiset.sum_cons]

@[simp] theorem about_add (k : ℕ) (c : K) (H G : Multiset (Observation K)) :
    about k c (H + G) = about k c H + about k c G := by
  unfold about
  rw [Multiset.map_add, Multiset.sum_add]

/-- **A change of centre** is the binomial theorem under the sum. -/
theorem about_shift (k : ℕ) (c d : K) (H : Multiset (Observation K)) :
    about k c H = ∑ i ∈ Finset.range (k + 1), about i d H * (d - c) ^ (k - i) * k.choose i := by
  induction H using Multiset.induction with
  | empty => simp
  | cons o H ih =>
    have hx : o.value - c = (o.value - d) + (d - c) := by ring
    rw [about_cons, ih, hx, add_pow, Finset.mul_sum, ← Finset.sum_add_distrib]
    refine Finset.sum_congr rfl fun i _ => ?_
    rw [about_cons]
    ring

/-- Where all weight lies on one value, there is no deviation from it. -/
theorem about_eq_zero {k : ℕ} (hk : k ≠ 0) {c : K}
    (h : ∀ o ∈ H, o.weight ≠ 0 → o.value = c) : about k c H = 0 := by
  refine Multiset.sum_eq_zero (Multiset.forall_mem_map_iff.mpr fun o ho => ?_)
  by_cases hw : o.weight = 0
  · rw [hw, zero_mul]
  · rw [h o ho hw, sub_self, zero_pow hk, mul_zero]

/-! ## Weight and mean -/

/-- The sum of the weights. -/
def totalWeight (H : Multiset (Observation K)) : K := (H.map fun o => o.weight).sum

/-- The weighted mean, zero if there is no weight. -/
def center (H : Multiset (Observation K)) : K :=
  if totalWeight H = 0 then 0 else (H.map fun o => o.weight * o.value).sum / totalWeight H

theorem about_zero (c : K) (H : Multiset (Observation K)) : about 0 c H = totalWeight H := by
  simp [about, totalWeight]

theorem about_one (c : K) (H : Multiset (Observation K)) :
    about 1 c H = (H.map fun o => o.weight * o.value).sum - c * totalWeight H := by
  induction H using Multiset.induction with
  | empty => simp [totalWeight]
  | cons o H ih =>
    rw [about_cons, ih, totalWeight, totalWeight, Multiset.map_cons, Multiset.sum_cons,
      Multiset.map_cons, Multiset.sum_cons]
    ring

@[simp] theorem totalWeight_add (H G : Multiset (Observation K)) :
    totalWeight (H + G) = totalWeight H + totalWeight G := by
  rw [← about_zero 0, about_add, about_zero, about_zero]

theorem totalWeight_nonneg (h : ∀ o ∈ H, 0 ≤ o.weight) : 0 ≤ totalWeight H :=
  Multiset.sum_nonneg (Multiset.forall_mem_map_iff.mpr h)

theorem totalWeight_pos (h : ∀ o ∈ H, 0 ≤ o.weight) (hW : totalWeight H ≠ 0) :
    0 < totalWeight H := (totalWeight_nonneg h).lt_of_ne' hW

/-- Weights that are not negative sum to zero only if all of them are zero. -/
theorem totalWeight_eq_zero_iff (h : ∀ o ∈ H, 0 ≤ o.weight) :
    totalWeight H = 0 ↔ ∀ o ∈ H, o.weight = 0 := by
  constructor
  · intro h0 o ho
    have hle : o.weight ≤ totalWeight H :=
      Multiset.single_le_sum (Multiset.forall_mem_map_iff.mpr h) _ (Multiset.mem_map_of_mem _ ho)
    exact le_antisymm (h0 ▸ hle) (h o ho)
  · intro h0
    exact Multiset.sum_eq_zero (Multiset.forall_mem_map_iff.mpr h0)

theorem center_mul_totalWeight (hW : totalWeight H ≠ 0) :
    center H * totalWeight H = (H.map fun o => o.weight * o.value).sum := by
  rw [center, if_neg hW, div_mul_cancel₀ _ hW]

/-- **The deviations from the mean balance.** -/
theorem about_one_center (hW : totalWeight H ≠ 0) : about 1 (center H) H = 0 := by
  rw [about_one, center_mul_totalWeight hW, sub_self]

/-- The mean is the only centre from which the deviations balance. -/
theorem center_eq_of_balanced {c : K} (hW : totalWeight H ≠ 0) (hc : about 1 c H = 0) :
    center H = c := by
  rw [about_one, sub_eq_zero] at hc
  rw [center, if_neg hW, hc, mul_div_cancel_right₀ _ hW]

/-! ## The closed form -/

/-- The moments of a multiset of observations, by definition. -/
def ofMultiset (H : Multiset (Observation K)) : Moments K where
  weight := totalWeight H
  mean := center H
  m2 := about 2 (center H) H
  m3 := about 3 (center H) H
  m4 := about 4 (center H) H

@[simp] theorem weight_ofMultiset (H : Multiset (Observation K)) :
    (ofMultiset H).weight = totalWeight H := rfl

@[simp] theorem mean_ofMultiset (H : Multiset (Observation K)) :
    (ofMultiset H).mean = center H := rfl

/-- Where all weight lies on one value, that is the mean and there is no deviation. -/
theorem ofMultiset_eq_concentrated {c : K} (hW : totalWeight H ≠ 0)
    (h : ∀ o ∈ H, o.weight ≠ 0 → o.value = c) :
    ofMultiset H = concentrated (totalWeight H) c := by
  have hc : center H = c := center_eq_of_balanced hW (about_eq_zero one_ne_zero h)
  have hk (k : ℕ) (hk : k ≠ 0) : about k (center H) H = 0 := about_eq_zero hk (hc.symm ▸ h)
  rw [ofMultiset, hk 2 two_ne_zero, hk 3 three_ne_zero, hk 4 four_ne_zero, hc]
  rfl

theorem ofMultiset_singleton {o : Observation K} (ho : o.weight ≠ 0) :
    ofMultiset {o} = point o.value o.weight := by
  have hW : totalWeight {o} = o.weight := by simp [totalWeight]
  have h : ofMultiset {o} = concentrated (totalWeight {o}) o.value := by
    refine ofMultiset_eq_concentrated (hW ▸ ho) fun p hp _ => ?_
    rw [Multiset.mem_singleton.mp hp]
  rw [h, hW]
  rfl

/-- The closed form depends on the sums of powers of deviations only. -/
theorem ofMultiset_congr (h : ∀ k c, about k c H = about k c G) : ofMultiset H = ofMultiset G := by
  have hW : totalWeight H = totalWeight G := by rw [← about_zero 0, h, about_zero]
  have hc : center H = center G := by
    have hsum := h 1 0
    rw [about_one, about_one, zero_mul, zero_mul, sub_zero, sub_zero] at hsum
    rw [center, center, hW, hsum]
  rw [ofMultiset, ofMultiset, hW, hc, h, h, h]

/-- Observations without weight add nothing. -/
theorem ofMultiset_add_weightless (h : ∀ o ∈ G, o.weight = 0) :
    ofMultiset (H + G) = ofMultiset H := by
  refine ofMultiset_congr fun k c => ?_
  rw [about_add, add_eq_left]
  refine Multiset.sum_eq_zero (Multiset.forall_mem_map_iff.mpr fun o ho => ?_)
  rw [h o ho, zero_mul]

@[simp] theorem ofMultiset_zero : (ofMultiset 0 : Moments K) = empty := by
  simp [ofMultiset, center, totalWeight, empty, concentrated]

/-! ## Merging -/

section Shift

variable (c : K) (hW : totalWeight H ≠ 0)
include hW

theorem about_two : about 2 c H = (ofMultiset H).m2 + (center H - c) ^ 2 * totalWeight H := by
  rw [about_shift 2 c (center H)]
  simp [Finset.sum_range_succ, about_zero, about_one_center hW, ofMultiset]
  ring

theorem about_three : about 3 c H = (ofMultiset H).m3 + 3 * (center H - c) * (ofMultiset H).m2 +
    (center H - c) ^ 3 * totalWeight H := by
  rw [about_shift 3 c (center H)]
  simp [Finset.sum_range_succ, about_zero, about_one_center hW, ofMultiset]
  ring

theorem about_four : about 4 c H = (ofMultiset H).m4 + 4 * (center H - c) * (ofMultiset H).m3 +
    6 * (center H - c) ^ 2 * (ofMultiset H).m2 + (center H - c) ^ 4 * totalWeight H := by
  rw [about_shift 4 c (center H)]
  simp [Finset.sum_range_succ, about_zero, about_one_center hW, ofMultiset,
    show Nat.choose 4 2 = 6 from rfl]
  ring

end Shift

/-- **The formulas of `combine`** are those of the union, moved from either mean to the common
one. -/
theorem combine_ofMultiset (hH : totalWeight H ≠ 0) (hG : totalWeight G ≠ 0)
    (hW : totalWeight H + totalWeight G ≠ 0) :
    (ofMultiset H).combine (ofMultiset G) = ofMultiset (H + G) := by
  have h3 : (Scalar.ofCount 3 : K) = 3 := by simp
  have h4 : (Scalar.ofCount 4 : K) = 4 := by simp
  have h6 : (Scalar.ofCount 6 : K) = 6 := by simp
  have hc : center (H + G) = center H + (center G - center H) * totalWeight G /
      (totalWeight H + totalWeight G) := by
    refine center_eq_of_balanced (by rwa [totalWeight_add]) ?_
    rw [about_add, about_one, about_one, ← center_mul_totalWeight hH, ← center_mul_totalWeight hG]
    field_simp
    ring
  -- the two means as seen from the common one
  have hcH : center H - center (H + G) = -((center G - center H) * totalWeight G /
      (totalWeight H + totalWeight G)) := by rw [hc]; ring
  have hcG : center G - center (H + G) = (center G - center H) * totalWeight H /
      (totalWeight H + totalWeight G) := by
    rw [hc]
    field_simp
    ring
  rw [ofMultiset.eq_1 (H + G), about_add, about_add, about_add, about_two _ hH, about_two _ hG,
    about_three _ hH, about_three _ hG, about_four _ hH, about_four _ hG, hcH, hcG, hc,
    totalWeight_add]
  unfold combine
  rw [h3, h4, h6]
  simp only [weight_ofMultiset, mean_ofMultiset]
  congr 1
  · field_simp
    ring
  · field_simp
    ring
  · field_simp
    ring

/-- **Merging is the closed form of both multisets together.** The shortcuts of `merge` are taken
for a multiset without weight, which adds nothing. -/
theorem merge_ofMultiset (hH : ∀ o ∈ H, 0 ≤ o.weight) (hG : ∀ o ∈ G, 0 ≤ o.weight) :
    (ofMultiset H).merge (ofMultiset G) = ofMultiset (H + G) := by
  unfold merge
  simp only [weight_ofMultiset, ExactScalar.isZero_iff]
  by_cases hG0 : totalWeight G = 0
  · rw [if_pos hG0, ofMultiset_add_weightless ((totalWeight_eq_zero_iff hG).mp hG0)]
  · rw [if_neg hG0]
    by_cases hH0 : totalWeight H = 0
    · rw [if_pos hH0, add_comm,
        ofMultiset_add_weightless ((totalWeight_eq_zero_iff hH).mp hH0)]
    · rw [if_neg hH0]
      exact combine_ofMultiset hH0 hG0
        (add_pos (totalWeight_pos hH hH0) (totalWeight_pos hG hG0)).ne'

/-- One observation more. A point without weight keeps its value as a mean, but is not merged. -/
theorem observe_ofMultiset (hH : ∀ o ∈ H, 0 ≤ o.weight) {o : Observation K} (ho : 0 ≤ o.weight) :
    (ofMultiset H).observe o.value o.weight = ofMultiset (o ::ₘ H) := by
  have hcons : o ::ₘ H = H + {o} := by rw [add_comm, Multiset.singleton_add]
  have hone : ∀ p ∈ ({o} : Multiset (Observation K)), 0 ≤ p.weight := fun p hp => by
    rwa [Multiset.mem_singleton.mp hp]
  rw [hcons]
  by_cases hw : o.weight = 0
  · have hp : Scalar.isZero (point o.value o.weight).weight = true :=
      (ExactScalar.isZero_iff _).mpr hw
    rw [observe, merge, if_pos hp, ofMultiset_add_weightless fun p hp => by
      rwa [Multiset.mem_singleton.mp hp]]
  · rw [observe, ← ofMultiset_singleton hw, merge_ofMultiset hH hone]

/-- **Observations taken in one at a time** leave the closed form. -/
theorem observeAll_ofMultiset : ∀ (os : List (Observation K)) {H : Multiset (Observation K)},
    (∀ o ∈ H, 0 ≤ o.weight) → (∀ o ∈ os, 0 ≤ o.weight) →
    (ofMultiset H).observeAll os = ofMultiset (H + (os : Multiset (Observation K)))
  | [], H, _, _ => by
    rw [Multiset.coe_nil, add_zero]
    rfl
  | o :: os, H, hH, hos => by
    have ho : 0 ≤ o.weight := hos o List.mem_cons_self
    have hH' : ∀ p ∈ o ::ₘ H, 0 ≤ p.weight := fun p hp => by
      rcases Multiset.mem_cons.mp hp with rfl | hp
      · exact ho
      · exact hH p hp
    have ih := observeAll_ofMultiset os hH' fun p hp => hos p (List.mem_cons_of_mem o hp)
    rw [Multiset.cons_add, ← Multiset.add_cons, Multiset.cons_coe] at ih
    rw [← ih, ← observe_ofMultiset hH ho]
    rfl

end RunningStats.Moments
