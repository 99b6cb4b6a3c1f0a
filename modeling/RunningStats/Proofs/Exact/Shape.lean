import RunningStats.Proofs.Exact.Range

/-!
# Moments are those of a distribution

In exact arithmetic there are observations behind moments that were `Built` by observing, by
merging or in two passes, and the moments are theirs in closed form (`Built.exists_ofMultiset`). A
quadratic polynomial of the deviations has a square that is nowhere negative, so neither is its
weighted sum, which is a quadratic form in the coefficients with the moments for its entries
(`quadratic_nonneg`). Each inequality between the moments is that form at a well chosen polynomial.

* `sq_m2_le`, `weight_mul_sq_m3_le`: the two inequalities that hold of the moments of any
  distribution;
* `distribution_shape`: both for moments however built, and what they say of the plug-in skewness
  and kurtosis.
-/

namespace RunningStats.Moments

variable {K : Type} [ExactScalar K]

/-! ## Inequalities between moments -/

section Inequalities

variable {H : Multiset (Observation K)} (hnn : ∀ o ∈ H, 0 ≤ o.weight)
include hnn

theorem eq_zero_of_m2 (h0 : (ofMultiset H).m2 = 0) :
    (ofMultiset H).m3 = 0 ∧ (ofMultiset H).m4 = 0 :=
  ⟨about_eq_zero three_ne_zero (value_eq_center hnn h0),
    about_eq_zero four_ne_zero (value_eq_center hnn h0)⟩

variable (hW : totalWeight H ≠ 0)
include hW

/-- **The square of a quadratic polynomial of the deviations** has no negative weighted sum. -/
theorem quadratic_nonneg (a b c : K) :
    0 ≤ a ^ 2 * totalWeight H + (b ^ 2 + 2 * a * c) * (ofMultiset H).m2 +
      2 * b * c * (ofMultiset H).m3 + c ^ 2 * (ofMultiset H).m4 := by
  have h := sum_poly 5 ![a ^ 2, 2 * a * b, b ^ 2 + 2 * a * c, 2 * b * c, c ^ 2] (center H) H
  simp only [Fin.sum_univ_five, Fin.coe_ofNat_eq_mod, Nat.reduceMod, Matrix.cons_val, about_zero,
    about_one_center hW, mul_zero, add_zero] at h
  have hsquare : 0 ≤ (H.map fun o => o.weight *
      (a + b * (o.value - center H) + c * (o.value - center H) ^ 2) ^ 2).sum :=
    Multiset.sum_nonneg (Multiset.forall_mem_map_iff.mpr fun o ho =>
      mul_nonneg (hnn o ho) (sq_nonneg _))
  refine hsquare.trans_eq (Eq.trans ?_ h)
  congr 2
  funext o
  ring

theorem m4_nonneg : 0 ≤ (ofMultiset H).m4 := by
  have h := quadratic_nonneg hnn hW 0 0 1
  linarith

/-- The fourth moment is at least that of the mean square deviation. -/
theorem sq_m2_le : (ofMultiset H).m2 ^ 2 ≤ totalWeight H * (ofMultiset H).m4 := by
  have h := quadratic_nonneg hnn hW (-(ofMultiset H).m2) 0 (totalWeight H)
  have hpos : 0 < totalWeight H := totalWeight_pos hnn hW
  refine sub_nonneg.mp (nonneg_of_mul_nonneg_right (a := totalWeight H) ?_ hpos)
  linarith

/-- The third moment leaves room for itself between the second and the fourth. -/
theorem weight_mul_sq_m3_le :
    totalWeight H * (ofMultiset H).m3 ^ 2 ≤
      (ofMultiset H).m2 * (totalWeight H * (ofMultiset H).m4 - (ofMultiset H).m2 ^ 2) := by
  have hpos : 0 < totalWeight H := totalWeight_pos hnn hW
  rcases (about_two_nonneg hnn (center H)).eq_or_lt with h0 | h2
  · have h0 : (ofMultiset H).m2 = 0 := h0.symm
    obtain ⟨h3, -⟩ := eq_zero_of_m2 hnn h0
    rw [h0, h3]
    simp
  · have h2 : 0 < (ofMultiset H).m2 := h2
    have h := quadratic_nonneg hnn hW (-(ofMultiset H).m2 ^ 2)
      (-(totalWeight H * (ofMultiset H).m3)) (totalWeight H * (ofMultiset H).m2)
    refine sub_nonneg.mp (nonneg_of_mul_nonneg_right (a := totalWeight H * (ofMultiset H).m2) ?_
      (mul_pos hpos h2))
    linarith

end Inequalities

/-! ## Moments however built -/

/-- Moments built from nothing by observing and merging, or in two passes, with weights that are
not negative. -/
inductive Built : Moments K → Prop where
  | empty : Built empty
  | observe {m : Moments K} {weight : K} (value : K) :
    Built m → 0 ≤ weight → Built (m.observe value weight)
  | merge {a b : Moments K} : Built a → Built b → Built (a.merge b)
  | twoPass {os : List (Observation K)} : (∀ o ∈ os, 0 ≤ o.weight) → Built (ofObservations os)

/-- **Behind moments however built there are observations.** -/
theorem Built.exists_ofMultiset {m : Moments K} (h : Built m) :
    ∃ H : Multiset (Observation K), (∀ o ∈ H, 0 ≤ o.weight) ∧ m = ofMultiset H := by
  induction h with
  | empty => exact ⟨0, fun o ho => absurd ho (Multiset.notMem_zero o), ofMultiset_zero.symm⟩
  | @observe m weight value _ hw ih =>
    obtain ⟨H, hH, rfl⟩ := ih
    refine ⟨⟨value, weight⟩ ::ₘ H, fun o ho => ?_, observe_ofMultiset hH (o := ⟨value, weight⟩) hw⟩
    rcases Multiset.mem_cons.mp ho with rfl | ho
    · exact hw
    · exact hH o ho
  | merge _ _ iha ihb =>
    obtain ⟨H, hH, rfl⟩ := iha
    obtain ⟨G, hG, rfl⟩ := ihb
    exact ⟨H + G, fun o ho => (Multiset.mem_add.mp ho).elim (hH o) (hG o),
      merge_ofMultiset hH hG⟩
  | twoPass hos => exact ⟨_, hos, ofObservations_eq_ofMultiset hos⟩

/-- Between the plug-in forms the inequality has no moments in it. -/
theorem sq_populationSkewness_le {m : Moments K} (hW : 0 < m.weight) (h2 : 0 < m.m2)
    (hroot : Scalar.sqrt m.populationVariance * Scalar.sqrt m.populationVariance =
      m.populationVariance)
    (h : m.weight * m.m3 ^ 2 ≤ m.m2 * (m.weight * m.m4 - m.m2 ^ 2)) :
    m.populationSkewness ^ 2 - 2 ≤ m.populationKurtosis := by
  have h3 : (Scalar.ofCount 3 : K) = 3 := by simp
  have hv : 0 < m.populationVariance := div_pos h2 hW
  have hskew : m.populationSkewness ^ 2 = m.weight * m.m3 ^ 2 / m.m2 ^ 3 := by
    have hcube : (m.populationVariance * Scalar.sqrt m.populationVariance) ^ 2 =
        m.populationVariance ^ 3 := by
      rw [mul_pow, sq (Scalar.sqrt _), hroot]
      ring
    unfold populationSkewness
    rw [div_pow, hcube, populationVariance]
    field_simp
  have hkurt : m.populationKurtosis = m.weight * m.m4 / m.m2 ^ 2 - 3 := by
    unfold populationKurtosis
    rw [h3, populationVariance]
    field_simp
  have hroom : m.weight * m.m3 ^ 2 / m.m2 ^ 3 ≤ m.weight * m.m4 / m.m2 ^ 2 - 1 := by
    have hcleared : (m.weight * m.m4 / m.m2 ^ 2 - 1) * m.m2 ^ 3 =
        m.m2 * (m.weight * m.m4 - m.m2 ^ 2) := by field_simp
    rwa [div_le_iff₀ (pow_pos h2 3), hcleared]
  rw [hskew, hkurt]
  linarith

/-- **The stored moments are those of some distribution**, however they were built. -/
theorem distribution_shape {m : Moments K} (h : Built m) (hW : 0 < m.weight) :
    0 ≤ m.m2 ∧ 0 ≤ m.m4 ∧ m.m2 ^ 2 ≤ m.weight * m.m4 ∧
    m.weight * m.m3 ^ 2 ≤ m.m2 * (m.weight * m.m4 - m.m2 ^ 2) ∧
    (m.m2 ≠ 0 → Scalar.sqrt m.populationVariance * Scalar.sqrt m.populationVariance =
        m.populationVariance → m.populationSkewness ^ 2 - 2 ≤ m.populationKurtosis) ∧
    (m.m2 = 0 → m.m3 = 0 ∧ m.m4 = 0) := by
  obtain ⟨H, hnn, rfl⟩ := h.exists_ofMultiset
  have h2 : 0 ≤ (ofMultiset H).m2 := about_two_nonneg hnn (center H)
  have hskew := weight_mul_sq_m3_le hnn hW.ne'
  exact ⟨h2, m4_nonneg hnn hW.ne', sq_m2_le hnn hW.ne', hskew,
    fun hne hroot => sq_populationSkewness_le hW (h2.lt_of_ne' hne) hroot hskew,
    eq_zero_of_m2 hnn⟩

/-- Real moments of two values, merged and observed in different order, with one more observation
that has no weight: the inequality between skewness and kurtosis is tight for them. -/
theorem distribution_shape_real :
    let m : Moments ℝ := ((empty.observe 5 1).merge (empty.observe 0 4)).observe 7 0
    Built m ∧ 0 < m.weight ∧ m.m2 ≠ 0 ∧ m.m2 ^ 2 ≤ m.weight * m.m4 ∧
      m.populationSkewness ^ 2 - 2 ≤ m.populationKurtosis := by
  intro m
  have hbuilt : Built m := .observe 7 (.merge (.observe 5 .empty zero_le_one)
    (.observe 0 .empty zero_le_four)) le_rfl
  have hm : m = ⟨5, 1, 20, 60, 260⟩ := by
    norm_num [m, observe, merge, combine, point, concentrated, empty]
  have hW : 0 < m.weight := by
    rw [hm]
    norm_num
  have h2 : m.m2 ≠ 0 := by
    rw [hm]
    norm_num
  obtain ⟨hm2, -, hm4, -, hshape, -⟩ := distribution_shape hbuilt hW
  exact ⟨hbuilt, hW, h2, hm4, hshape h2 (Real.mul_self_sqrt (div_nonneg hm2 hW.le))⟩

end RunningStats.Moments
