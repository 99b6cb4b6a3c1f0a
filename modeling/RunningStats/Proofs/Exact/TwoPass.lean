import RunningStats.Proofs.Exact.Moments

/-!
# Two passes and one pass give the same moments

In exact arithmetic the moments found in two passes are the closed form `ofMultiset`, which the
one-pass recurrence leaves as well. Each shortcut of the two passes agrees with it:

* a weight sum of zero is that of no weight at all (`ofMultiset_eq_empty`);
* where the smallest and the largest value of positive weight coincide, all weight lies on one
  value (`ofMultiset_eq_concentrated`);
* the mean lies between these two, so holding it there changes nothing (`le_center`, `center_le`);
* where there is weight, the range of the values of positive weight is not empty.

`ofObservations_eq_ofMultiset` puts these together, and `ofObservations_eq_observeAll` compares the
two algorithms.
-/

namespace RunningStats.Moments

variable {K : Type} [ExactScalar K]

/-! ## The range of the values -/

theorem extent_fold (xs : List K) : ∀ r : K × K,
    let e := xs.foldl (fun r x => (Scalar.least r.1 x, Scalar.greatest r.2 x)) r
    (e.1 ≤ r.1 ∧ r.2 ≤ e.2) ∧ ∀ x ∈ xs, e.1 ≤ x ∧ x ≤ e.2 := by
  induction xs with
  | nil => exact fun r => ⟨⟨le_refl _, le_refl _⟩, fun x hx => absurd hx List.not_mem_nil⟩
  | cons y ys ih =>
    intro r
    have ih := ih (Scalar.least r.1 y, Scalar.greatest r.2 y)
    simp only [List.foldl_cons, ExactScalar.least_eq_min, ExactScalar.greatest_eq_max] at ih ⊢
    obtain ⟨⟨hlo, hhi⟩, hall⟩ := ih
    refine ⟨⟨hlo.trans (min_le_left _ _), (le_max_left _ _).trans hhi⟩, fun x hx => ?_⟩
    rcases List.mem_cons.mp hx with rfl | hx
    · exact ⟨hlo.trans (min_le_right _ _), (le_max_right _ _).trans hhi⟩
    · exact hall x hx

/-- Every value lies within the extent. -/
theorem extent_bounds {xs : List K} {lo hi : K} (h : extent xs = some (lo, hi)) :
    ∀ x ∈ xs, lo ≤ x ∧ x ≤ hi := by
  cases xs with
  | nil => cases h
  | cons y ys =>
    obtain ⟨⟨hlo, hhi⟩, hall⟩ := extent_fold ys (y, y)
    rw [Option.some.inj h] at hlo hhi hall
    intro x hx
    rcases List.mem_cons.mp hx with rfl | hx
    · exact ⟨hlo, hhi⟩
    · exact hall x hx

theorem extent_eq_none_iff {xs : List K} : extent xs = none ↔ xs = [] := by
  cases xs <;> simp [extent]

theorem mem_weighty {os : List (Observation K)} {o : Observation K} (ho : o ∈ os)
    (hw : 0 < o.weight) : o.value ∈ weighty os := by
  refine List.mem_map.mpr ⟨o, List.mem_filter.mpr ⟨ho, ?_⟩, rfl⟩
  simp [hw]

/-! ## The mean lies within the range -/

section Bounds

variable {H : Multiset (Observation K)} {c : K} (hnn : ∀ o ∈ H, 0 ≤ o.weight)
include hnn

/-- A term that is no larger where there is weight has no larger weighted sum. -/
theorem weighted_sum_mono {f g : Observation K → K} (hfg : ∀ o ∈ H, 0 < o.weight → f o ≤ g o) :
    (H.map fun o => o.weight * f o).sum ≤ (H.map fun o => o.weight * g o).sum := by
  refine Multiset.sum_map_le_sum_map _ _ fun o ho => ?_
  rcases (hnn o ho).eq_or_lt with hw | hw
  · rw [← hw, zero_mul, zero_mul]
  · exact mul_le_mul_of_nonneg_left (hfg o ho hw) hw.le

variable (hW : totalWeight H ≠ 0)
include hW

theorem le_center (hc : ∀ o ∈ H, 0 < o.weight → c ≤ o.value) : c ≤ center H := by
  have hsum := weighted_sum_mono hnn hc
  rw [Multiset.sum_map_mul_right, ← center_mul_totalWeight hW, mul_comm] at hsum
  exact le_of_mul_le_mul_right hsum (totalWeight_pos hnn hW)

theorem center_le (hc : ∀ o ∈ H, 0 < o.weight → o.value ≤ c) : center H ≤ c := by
  have hsum := weighted_sum_mono hnn hc
  rw [Multiset.sum_map_mul_right, ← center_mul_totalWeight hW, mul_comm _ c] at hsum
  exact le_of_mul_le_mul_right hsum (totalWeight_pos hnn hW)

end Bounds

/-! ## Two passes -/

theorem ofMultiset_eq_empty {H : Multiset (Observation K)} (hnn : ∀ o ∈ H, 0 ≤ o.weight)
    (hW : totalWeight H = 0) : ofMultiset H = empty := by
  have h : ∀ o ∈ H, o.weight = 0 := (totalWeight_eq_zero_iff hnn).mp hW
  rw [← ofMultiset_zero, ← zero_add H, ofMultiset_add_weightless h]

theorem around_center (os : List (Observation K)) :
    around (totalWeight ↑os) (center ↑os) os = ofMultiset ↑os := by
  unfold around ofMultiset about
  rw [total_eq_sum, total_eq_sum, total_eq_sum]
  congr 4 <;> funext o <;> ring

/-- **The moments in two passes are the closed form.** -/
theorem ofObservations_eq_ofMultiset {os : List (Observation K)} (hnn : ∀ o ∈ os, 0 ≤ o.weight) :
    ofObservations os = ofMultiset ↑os := by
  have hW : total os (·.weight) = totalWeight ↑os := total_eq_sum os _
  unfold ofObservations
  simp only [hW, ExactScalar.isZero_iff]
  by_cases h0 : totalWeight (os : Multiset (Observation K)) = 0
  · rw [if_pos h0, ofMultiset_eq_empty hnn h0, h0]
    rfl
  · rw [if_neg h0]
    have hmean : total os (fun o => o.weight * o.value) / totalWeight ↑os = center ↑os := by
      rw [total_eq_sum, center, if_neg h0]
    cases he : extent (weighty os) with
    | none =>
      -- without a value of positive weight there would be no weight
      have hnone : weighty os = [] := extent_eq_none_iff.mp he
      refine absurd ((totalWeight_eq_zero_iff hnn).mpr fun o ho => ?_) h0
      by_contra hw
      have hmem : o.value ∈ weighty os := mem_weighty ho ((hnn o ho).lt_of_ne' hw)
      rw [hnone] at hmem
      exact List.not_mem_nil hmem
    | some e =>
      obtain ⟨lo, hi⟩ := e
      have hb : ∀ o ∈ (os : Multiset (Observation K)), 0 < o.weight → lo ≤ o.value ∧ o.value ≤ hi :=
        fun o ho hw => extent_bounds he o.value (mem_weighty ho hw)
      by_cases hle : hi ≤ lo
      · show (if hi ≤ lo then _ else _) = _
        rw [if_pos hle, ofMultiset_eq_concentrated h0 fun o ho hw => ?_]
        obtain ⟨h1, h2⟩ := hb o ho ((hnn o ho).lt_of_ne' hw)
        exact le_antisymm (h2.trans hle) h1
      · have hlo := le_center hnn h0 fun o ho hw => (hb o ho hw).1
        have hhi := center_le hnn h0 fun o ho hw => (hb o ho hw).2
        show (if hi ≤ lo then _ else _) = _
        rw [if_neg hle, hmean, ExactScalar.greatest_eq_max, max_eq_left hlo,
          ExactScalar.least_eq_min, min_eq_left hhi, around_center]

/-- Two passes find what one pass leaves. -/
theorem ofObservations_eq_observeAll {os : List (Observation K)} (hnn : ∀ o ∈ os, 0 ≤ o.weight) :
    ofObservations os = empty.observeAll os := by
  have hone : (ofMultiset 0).observeAll os = ofMultiset (0 + ↑os) :=
    observeAll_ofMultiset os (fun _ ho => absurd ho (Multiset.notMem_zero _)) hnn
  rw [ofObservations_eq_ofMultiset hnn, ← ofMultiset_zero, hone, zero_add]

end RunningStats.Moments
