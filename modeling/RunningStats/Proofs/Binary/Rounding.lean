import RunningStats.Proofs.Binary.Fields

/-!
# Sums are not rounded to zero

Every finite number of a format is a multiple of the smallest one, so a sum that is not zero is at
least as large as that and is not rounded to zero (`fits_roundWithAccuracy`). An exact sum of zero
is the zero above. Hence no sum is the zero below whose first term is not (`fits_add`). A difference
is a sum with the negation (`sub_eq_add`).
-/

namespace RunningStats.Binary

open Float.Model (UnpackedFloat)
open Float.Model.UnpackedFloat

variable {S : Float.Model.Format}

/-! ## Rounding -/

theorem mantissa_shiftRight (em : ExtendedMantissa) (k : ℕ) :
    (em >>> k).mantissa = em.mantissa / 2 ^ k := by
  show (k.repeat ExtendedMantissa.shiftRightOne em).mantissa = _
  induction k with
  | zero => simp [Nat.repeat]
  | succ k ih =>
    show (ExtendedMantissa.shiftRightOne _).mantissa = _
    rw [ExtendedMantissa.shiftRightOne, ih, Nat.div_div_eq_div_mul, pow_succ]

theorem mantissa_ofMantissaAndAccuracy (m : ℕ) (a : Accuracy) :
    (ExtendedMantissa.ofMantissaAndAccuracy m a).mantissa = m := by
  rcases a with _ | o
  · rfl
  · cases o <;> rfl

theorem le_roundedMantissa (em : ExtendedMantissa) : em.mantissa ≤ em.roundedMantissa := by
  unfold ExtendedMantissa.roundedMantissa
  rcases em.accuracy with _ | o
  · exact le_refl _
  · cases o <;> simp [Accuracy.roundToNearestEven]

/-- A shift to the target exponent keeps some of the mantissa, and no more than fits. -/
theorem shift_bounds {m : ℕ} {e : ℤ} (hm : 0 < m) (he : S.minExponent ≤ e) (a : Accuracy) :
    let r := shiftToTargetExponent S m e a
    0 < r.1.mantissa ∧ r.1.mantissa < 2 ^ S.mantissaBits ∧ S.minExponent ≤ r.2 := by
  intro r
  have hr : r.1.mantissa =
      m / 2 ^ (S.targetExponent (Float.Model.totalExponent m e) - e).toNat := by
    show (_ >>> _ : ExtendedMantissa).mantissa = _
    rw [mantissa_shiftRight, mantissa_ofMantissaAndAccuracy]
  have hexp : S.minExponent ≤ r.2 := he.trans (le_add_of_nonneg_right (Int.natCast_nonneg _))
  have hlow : 2 ^ m.log2 ≤ m := Nat.log2_self_le hm.ne'
  have hhigh : m < 2 ^ (m.log2 + 1) := Nat.lt_log2_self
  rw [hr]
  unfold Float.Model.Format.targetExponent Float.Model.totalExponent
  by_cases hL : S.mantissaBits ≤ m.log2 + 1
  · obtain ⟨k, hk⟩ := Nat.exists_eq_add_of_le hL
    have hshift : (max ((m.log2 : ℤ) + 1 + e - S.mantissaBits) S.minExponent - e).toNat = k := by
      omega
    rw [hshift]
    rw [hk, pow_add] at hhigh
    refine ⟨Nat.div_pos ?_ (Nat.two_pow_pos _), ?_, hexp⟩
    · exact (Nat.pow_le_pow_right (by decide)
        (by unfold Float.Model.Format.mantissaBits at hk; omega)).trans hlow
    · exact (Nat.div_lt_iff_lt_mul (Nat.two_pow_pos _)).mpr hhigh
  · have hshift : (max ((m.log2 : ℤ) + 1 + e - S.mantissaBits) S.minExponent - e).toNat = 0 := by
      omega
    rw [hshift, pow_zero, Nat.div_one]
    exact ⟨hm, hhigh.trans_le (Nat.pow_le_pow_right (by decide) (by omega)), hexp⟩

/-- **What is at least as large as the smallest number is not rounded to zero**, and what it is
rounded to fits. -/
theorem fits_roundWithAccuracy (s : Sign) {m : ℕ} {e : ℤ} (hm : 0 < m) (he : S.minExponent ≤ e)
    (a : Accuracy) (s' : Sign) :
    Fits S (roundWithAccuracy S s m e a) ∧ roundWithAccuracy S s m e a ≠ .zero s' := by
  obtain ⟨hpos, -, hexp⟩ := shift_bounds (S := S) hm he a
  have hrounded := hpos.trans_le (le_roundedMantissa (shiftToTargetExponent S m e a).1)
  obtain ⟨hpos', hlt', hexp'⟩ := shift_bounds (S := S) hrounded hexp .exact
  unfold roundWithAccuracy
  dsimp only
  rw [dif_neg hpos'.ne']
  exact ⟨⟨hlt', hexp'⟩, fun h => by cases h⟩

theorem fits_round (s : Sign) {m : ℕ} {e : ℤ} (hm : 0 < m) (he : S.minExponent ≤ e) (s' : Sign) :
    Fits S (round S s m e) ∧ round S s m e ≠ .zero s' := by
  unfold Float.Model.UnpackedFloat.round decreaseExponent
  refine fits_roundWithAccuracy s ?_ ?_ .exact s'
  · rw [Nat.shiftLeft_eq]
    exact Nat.mul_pos hm (Nat.two_pow_pos _)
  · have : S.minExponent ≤ S.targetExponent (Float.Model.totalExponent m e) := le_max_right _ _
    omega

/-- An integer times a power of two is rounded to the zero below in no case. -/
theorem fits_normalize (m : ℤ) {e : ℤ} (he : S.minExponent ≤ e) :
    Fits S (UnpackedFloat.normalize S m e .positive) ∧
      UnpackedFloat.normalize S m e .positive ≠ .zero .negative := by
  unfold UnpackedFloat.normalize
  rcases lt_trichotomy m 0 with h | h | h
  · rw [show compare m 0 = .lt from compare_lt_iff_lt.mpr h]
    exact fits_round .negative (by omega) he .negative
  · rw [show compare m 0 = .eq from compare_eq_iff_eq.mpr h]
    exact ⟨trivial, fun h => by cases h⟩
  · rw [show compare m 0 = .gt from compare_gt_iff_gt.mpr h]
    exact fits_round .positive (by omega) he .negative

/-! ## Sums -/

theorem sign_neg_neg (s : Sign) : - -s = s := by
  cases s <;> rfl

theorem apply_neg (s : Sign) (n : ℤ) : (-s).apply n = -s.apply n := by
  cases s
  · exact (neg_neg n).symm
  · rfl

/-- **A difference is the sum with the negation.** -/
theorem sub_eq_add (u v : UnpackedFloat) : sub S u v = add S u v.neg := by
  cases u with
  | notANumber => rfl
  | infinity s => cases v <;> rfl
  | zero s => cases v <;> rfl
  | finite s m e hm =>
    cases v with
    | notANumber => rfl
    | infinity s' => rfl
    | zero s' => rfl
    | finite s' m' e' hm' =>
      unfold sub add neg
      dsimp only
      rw [apply_neg, Int.sub_eq_add_neg]

/-- **The sum of two that fit fits**, and it is the zero below only if the first is. -/
theorem fits_add {u v : UnpackedFloat} (hu : Fits S u) (hv : Fits S v) :
    Fits S (add S u v) ∧ (add S u v = .zero .negative → u = .zero .negative) := by
  cases u with
  | notANumber => exact ⟨trivial, fun h => by cases h⟩
  | infinity s =>
    cases v with
    | infinity s' =>
      rw [show add S (.infinity s) (.infinity s') =
        if s == s' then .infinity s else .notANumber from rfl]
      split <;> exact ⟨trivial, fun h => by cases h⟩
    | _ => exact ⟨trivial, fun h => by cases h⟩
  | zero s =>
    cases v with
    | notANumber => exact ⟨trivial, fun h => by cases h⟩
    | infinity s' => exact ⟨trivial, fun h => by cases h⟩
    | zero s' =>
      rw [show add S (.zero s) (.zero s') = if s == s' then .zero s else .zero .positive from rfl]
      split
      · exact ⟨trivial, id⟩
      · exact ⟨trivial, fun h => by cases h⟩
    | finite s' m' e' hm' => exact ⟨hv, fun h => by cases h⟩
  | finite s m e hm =>
    cases v with
    | notANumber => exact ⟨trivial, fun h => by cases h⟩
    | infinity s' => exact ⟨trivial, fun h => by cases h⟩
    | zero s' => exact ⟨hu, id⟩
    | finite s' m' e' hm' =>
      obtain ⟨hfit, hne⟩ := fits_normalize (S := S) _ (le_min hu.2 hv.2)
      exact ⟨hfit, fun h => absurd h hne⟩

end RunningStats.Binary
