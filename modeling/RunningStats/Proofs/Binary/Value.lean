import RunningStats.Proofs.Binary.Nearest
import RunningStats.Proofs.Binary.Order
import RunningStats.Proofs.Binary.Rounding

/-!
# What unpacked floats stand for

`value` is the rational number of a finite float. A float is `Canonical` if its significand fills
the precision, or its exponent is the smallest; what unpacks from a pattern is, and so is whatever
rounding returns.

* `Reads`: shifting a mantissa keeps in its two residual bits where the exact one lies, and rounding
  takes it to the nearest integer, the even one of two (`Reads.abs_rounded_sub_le`,
  `Reads.even_of_tie`).
* `roundWithAccuracy_eq`: rounding shifts, rounds, and shifts a carry out again.
* **`roundsTo_roundWithAccuracy`**: what it returns is what the mantissa reads, rounded in the sense
  of `Rounds`, ties going to the even significand.
-/

namespace RunningStats.Binary

open Float.Model (UnpackedFloat totalExponent)
open Float.Model.UnpackedFloat

variable {S : Float.Model.Format} {u v : UnpackedFloat}

/-! ## Values -/

/-- The unit of a sign. -/
def unit : Sign → ℚ
  | .negative => -1
  | .positive => 1

theorem abs_unit (s : Sign) : |unit s| = 1 := by
  cases s <;> simp [unit]

theorem unit_mul (s s' : Sign) : unit (s * s') = unit s * unit s' := by
  cases s <;> cases s' <;> decide +kernel

theorem unit_div (s s' : Sign) : unit (s / s') = unit s / unit s' := by
  cases s <;> cases s' <;> decide +kernel

theorem cast_apply (s : Sign) (n : ℕ) : ((s.apply n : ℤ) : ℚ) = unit s * n := by
  cases s <;> simp [Sign.apply, unit]

/-- The number that a finite float stands for. -/
def value : UnpackedFloat → ℚ
  | .finite s m e _ => unit s * (m * 2 ^ e)
  | _ => 0

/-- The significand fills the precision, or the exponent is the smallest. -/
def Canonical (S : Float.Model.Format) : UnpackedFloat → Prop
  | .finite _ m e _ => m < 2 ^ S.mantissaBits ∧ S.minExponent ≤ e ∧
      (S.minExponent < e → 2 ^ S.mantissaBitsWithoutImplicit ≤ m)
  | _ => True

theorem abs_value_finite (s : Sign) {m : ℕ} (e : ℤ) (hm : 0 < m) :
    |value (.finite s m e hm)| = m * 2 ^ e := by
  rw [value, abs_mul, abs_unit, one_mul, abs_of_nonneg]
  exact mul_nonneg (Nat.cast_nonneg m) (two_zpow_pos e).le

theorem unit_neg (s : Sign) : unit (-s) = -unit s := by
  cases s <;> rfl

theorem value_neg (u : UnpackedFloat) : value u.neg = -value u := by
  cases u with
  | finite s m e hm => rw [neg, value, value, unit_neg, neg_mul]
  | _ => exact neg_zero.symm

theorem value_eq_zero_iff (hu : u.isFinite) : value u = 0 ↔ ∃ s, u = .zero s := by
  cases u with
  | notANumber => cases hu
  | infinity s => cases hu
  | zero s => exact iff_of_true rfl ⟨s, rfl⟩
  | finite s m e hm =>
    refine iff_of_false (fun h => ?_) fun ⟨s', h⟩ => by cases h
    have hpos : (0 : ℚ) < m * 2 ^ e := mul_pos (by exact_mod_cast hm) (two_zpow_pos e)
    rw [← abs_value_finite s e hm, h, abs_zero] at hpos
    exact lt_irrefl _ hpos

theorem pow_mantissaBits (S : Float.Model.Format) :
    2 ^ S.mantissaBits = 2 * 2 ^ S.mantissaBitsWithoutImplicit := by
  rw [Float.Model.Format.mantissaBits, pow_add, pow_one]

theorem canonical_unpack (b : BitVec S.numBits) : Canonical S (unpack S b) := by
  have hfits := fits_unpack b
  rw [unpack_eq_assemble] at hfits ⊢
  unfold assemble at hfits ⊢
  by_cases htop : unpackExponent b = -1#_
  · rw [if_pos htop]
    split <;> trivial
  · rw [if_neg htop] at hfits ⊢
    by_cases hzero : unpackExponent b = 0#_
    · rw [if_pos hzero] at hfits ⊢
      by_cases hm : unpackMantissa b = 0#_
      · rw [dif_pos hm]
        trivial
      · rw [dif_neg hm] at hfits ⊢
        exact ⟨hfits.1, hfits.2, fun h => absurd h (lt_irrefl _)⟩
    · rw [if_neg hzero] at hfits ⊢
      exact ⟨hfits.1, hfits.2, fun _ => Nat.le_add_right _ _⟩

/-- A canonical float is its own rounding. -/
theorem Canonical.rounds_self (h : Canonical S u) : Rounds S (value u) (value u) := by
  cases u with
  | finite s m e hm =>
    obtain ⟨hlt, he, hlow⟩ := h
    refine ⟨s.apply m, e, ?_, he, ?_, ?_, fun hmin => ?_⟩
    · have habs : |s.apply (m : ℤ)| = m := by cases s <;> simp [Sign.apply]
      rw [habs]
      exact_mod_cast hlt.le
    · rw [cast_apply, value, mul_assoc]
    · rw [sub_self, abs_zero]
      exact (half_pos (two_zpow_pos e)).le
    · rw [abs_value_finite, two_pow_precision, mul_assoc]
      have hm' : (2 : ℚ) ^ S.mantissaBitsWithoutImplicit ≤ m := by exact_mod_cast hlow hmin
      gcongr
  | _ =>
    refine ⟨0, S.minExponent, by simp, le_refl _, by simp [value], ?_,
      fun h => absurd h (lt_irrefl _)⟩
    simpa using (half_pos (two_zpow_pos S.minExponent)).le

/-- A float that a number is rounded to, before it is packed; ties go to the even significand. -/
structure RoundsTo (S : Float.Model.Format) (q : ℚ) (u : UnpackedFloat) : Prop where
  finite : u.isFinite
  canonical : Canonical S u
  rounds : Rounds S q (value u)
  ties : Ties q (value u)

theorem Canonical.roundsTo_self (h : Canonical S u) (hu : u.isFinite) :
    RoundsTo S (value u) u := ⟨hu, h, h.rounds_self, .refl _⟩

theorem roundsTo_zero (S : Float.Model.Format) (s : Sign) : RoundsTo S 0 (.zero s) :=
  Canonical.roundsTo_self (u := .zero s) trivial rfl

/-! ## Rounding a mantissa -/

/-- Where the exact mantissa lies, read from the two residual bits. -/
def Reads (em : ExtendedMantissa) (y : ℚ) : Prop :=
  match em.roundBit, em.stickyBit with
  | false, false => y = em.mantissa
  | false, true => em.mantissa < y ∧ y < em.mantissa + 1 / 2
  | true, false => y = em.mantissa + 1 / 2
  | true, true => em.mantissa + 1 / 2 < y ∧ y < em.mantissa + 1

namespace Reads

variable {em : ExtendedMantissa} {y : ℚ}

theorem le (h : Reads em y) : (em.mantissa : ℚ) ≤ y := by
  obtain ⟨m, r, t⟩ := em
  cases r <;> cases t <;> simp only [Reads] at h ⊢
  · exact h.ge
  · exact h.1.le
  · linarith
  · linarith [h.1]

theorem shiftRightOne (h : Reads em y) : Reads em.shiftRightOne (y / 2) := by
  obtain ⟨m, r, t⟩ := em
  have hm : ((m % 2 : ℕ) : ℚ) + 2 * ((m / 2 : ℕ) : ℚ) = m := by
    exact_mod_cast Nat.mod_add_div m 2
  rcases Nat.mod_two_eq_zero_or_one m with h0 | h1
  · rw [h0] at hm
    cases r <;> cases t <;> simp [Reads, ExtendedMantissa.shiftRightOne, h0] at h hm ⊢
    · linarith
    all_goals constructor <;> linarith
  · rw [h1] at hm
    cases r <;> cases t <;> simp [Reads, ExtendedMantissa.shiftRightOne, h1] at h hm ⊢
    · linarith
    all_goals constructor <;> linarith

theorem shiftRight (h : Reads em y) (k : ℕ) : Reads (em >>> k) (y / 2 ^ k) := by
  show Reads (k.repeat ExtendedMantissa.shiftRightOne em) _
  induction k with
  | zero => simpa [Nat.repeat] using h
  | succ k ih =>
    rw [Nat.repeat, pow_succ, ← div_div]
    exact ih.shiftRightOne

/-- Rounding goes to an integer half a unit away at most. -/
theorem abs_rounded_sub_le (h : Reads em y) : |(em.roundedMantissa : ℚ) - y| ≤ 1 / 2 := by
  obtain ⟨m, r, t⟩ := em
  have hmod : ((m % 2 : ℕ) : ℚ) = 0 ∨ ((m % 2 : ℕ) : ℚ) = 1 := by
    rcases Nat.mod_two_eq_zero_or_one m with h | h <;> simp [h]
  rw [abs_le]
  cases r <;> cases t <;>
    simp only [Reads, ExtendedMantissa.roundedMantissa, ExtendedMantissa.accuracy,
      Accuracy.roundToNearestEven] at h ⊢
  · constructor <;> linarith
  · constructor <;> linarith
  · push_cast at hmod ⊢
    rcases hmod with hmod | hmod <;> rw [hmod] <;> constructor <;> linarith
  · push_cast
    constructor <;> linarith

/-- Half a unit away the integer is even. -/
theorem even_of_tie (h : Reads em y) (htie : |(em.roundedMantissa : ℚ) - y| = 1 / 2) :
    Even em.roundedMantissa := by
  obtain ⟨m, r, t⟩ := em
  cases r <;> cases t <;>
    simp only [Reads, ExtendedMantissa.roundedMantissa, ExtendedMantissa.accuracy,
      Accuracy.roundToNearestEven] at h htie ⊢
  · rw [h, sub_self, abs_zero] at htie
    norm_num at htie
  · rw [abs_of_nonpos (by linarith)] at htie
    linarith
  · rw [Nat.even_iff]
    omega
  · push_cast at htie
    rw [abs_of_nonneg (by linarith)] at htie
    linarith

end Reads

theorem roundedMantissa_le (em : ExtendedMantissa) : em.roundedMantissa ≤ em.mantissa + 1 := by
  obtain ⟨m, r, t⟩ := em
  cases r <;> cases t <;>
    simp [ExtendedMantissa.roundedMantissa, ExtendedMantissa.accuracy,
      Accuracy.roundToNearestEven]
  omega

theorem reads_exact (m : ℕ) : Reads (.ofMantissaAndAccuracy m .exact) m := rfl

/-- A mantissa that fits is left where it is. -/
theorem shift_of_lt {m : ℕ} {e : ℤ} (hm : m < 2 ^ S.mantissaBits) (he : S.minExponent ≤ e) :
    shiftToTargetExponent S m e .exact = (⟨m, false, false⟩, e) := by
  have hlog : m.log2 + 1 ≤ S.mantissaBits := by
    rcases Nat.eq_zero_or_pos m with rfl | hpos
    · simp [Float.Model.Format.mantissaBits]
    · exact (Nat.log2_lt hpos.ne').mpr hm
  have hk : (S.targetExponent (totalExponent m e) - e).toNat = 0 := by
    unfold Float.Model.Format.targetExponent totalExponent
    omega
  simp [shiftToTargetExponent, shiftToExponent, hk, HShiftRight.hShiftRight, Nat.repeat,
    ExtendedMantissa.ofMantissaAndAccuracy]

/-- A carry into the place above the precision is shifted out. -/
theorem shift_carry {e : ℤ} (he : S.minExponent ≤ e) :
    shiftToTargetExponent S (2 ^ S.mantissaBits) e .exact =
      (⟨2 ^ S.mantissaBitsWithoutImplicit, false, false⟩, e + 1) := by
  have hk : (S.targetExponent (totalExponent (2 ^ S.mantissaBits) e) - e).toNat = 1 := by
    unfold Float.Model.Format.targetExponent totalExponent
    rw [Nat.log2_two_pow]
    omega
  have hone (em : ExtendedMantissa) : em >>> 1 = em.shiftRightOne := rfl
  unfold shiftToTargetExponent shiftToExponent
  dsimp only
  rw [hk, hone, Nat.cast_one]
  simp [ExtendedMantissa.ofMantissaAndAccuracy, ExtendedMantissa.shiftRightOne, pow_mantissaBits]

section

variable (S) (s : Sign) {m : ℕ} {e : ℤ} (a : Accuracy)

/-- The first of the two shifts of rounding. -/
theorem shift_eq (he : e ≤ S.targetExponent (totalExponent m e)) :
    shiftToTargetExponent S m e a =
      (ExtendedMantissa.ofMantissaAndAccuracy m a >>>
        (S.targetExponent (totalExponent m e) - e).toNat,
        S.targetExponent (totalExponent m e)) := by
  have hsum : e + ((S.targetExponent (totalExponent m e) - e).toNat : ℤ) =
      S.targetExponent (totalExponent m e) := by omega
  unfold shiftToTargetExponent shiftToExponent
  dsimp only
  rw [hsum]

theorem shift_rounded_le (he : e ≤ S.targetExponent (totalExponent m e)) :
    (shiftToTargetExponent S m e a).1.roundedMantissa ≤ 2 ^ S.mantissaBits := by
  refine (roundedMantissa_le _).trans ?_
  rw [shift_eq S a he, mantissa_shiftRight, mantissa_ofMantissaAndAccuracy, Nat.succ_le_iff,
    Nat.div_lt_iff_lt_mul (Nat.two_pow_pos _), ← pow_add]
  refine Nat.lt_log2_self.trans_le (Nat.pow_le_pow_right (by decide) ?_)
  unfold Float.Model.Format.targetExponent totalExponent
  omega

/-- **Rounding** shifts, rounds and shifts a carry out. -/
theorem roundWithAccuracy_eq (he : e ≤ S.targetExponent (totalExponent m e)) :
    roundWithAccuracy S s m e a =
      let M := (shiftToTargetExponent S m e a).1.roundedMantissa
      let t := S.targetExponent (totalExponent m e)
      if h : M = 0 then .zero s
      else if M < 2 ^ S.mantissaBits then .finite s M t (Nat.pos_of_ne_zero h)
      else .finite s (2 ^ S.mantissaBitsWithoutImplicit) (t + 1) (Nat.two_pow_pos _) := by
  have hmin : S.minExponent ≤ S.targetExponent (totalExponent m e) := le_max_right _ _
  have hle := shift_rounded_le S a he
  have ht : (shiftToTargetExponent S m e a).2 = S.targetExponent (totalExponent m e) := by
    rw [shift_eq S a he]
  unfold roundWithAccuracy
  dsimp only
  rw [ht]
  generalize (shiftToTargetExponent S m e a).1.roundedMantissa = M at hle ⊢
  rcases hle.lt_or_eq with hlt | rfl
  · rw [shift_of_lt hlt hmin]
    simp only [hlt, if_true]
  · rw [shift_carry hmin]
    simp

/-- Where the smallest exponent leaves room, the target one makes the mantissa fill the
precision. -/
theorem target_eq (he : e ≤ S.targetExponent (totalExponent m e))
    (h : S.minExponent < S.targetExponent (totalExponent m e)) :
    m ≠ 0 ∧ S.targetExponent (totalExponent m e) + S.mantissaBits = m.log2 + 1 + e := by
  unfold Float.Model.Format.targetExponent totalExponent at h he ⊢
  refine ⟨?_, by omega⟩
  rintro rfl
  rw [Nat.log2_zero] at h he
  have := S.hm
  unfold Float.Model.Format.mantissaBits at h he
  omega

theorem value_roundWithAccuracy (he : e ≤ S.targetExponent (totalExponent m e)) :
    value (roundWithAccuracy S s m e a) =
      unit s * ((shiftToTargetExponent S m e a).1.roundedMantissa *
        2 ^ S.targetExponent (totalExponent m e)) := by
  have hle := shift_rounded_le S a he
  rw [roundWithAccuracy_eq S s a he]
  dsimp only
  generalize (shiftToTargetExponent S m e a).1.roundedMantissa = M at hle ⊢
  split
  · rename_i h0
    simp [value, h0]
  · split
    · rfl
    · have hM : M = 2 ^ S.mantissaBits := by omega
      rw [value, hM, pow_mantissaBits, two_zpow_add]
      push_cast
      ring

/-- **What rounding returns is canonical.** -/
theorem canonical_roundWithAccuracy (he : e ≤ S.targetExponent (totalExponent m e)) :
    Canonical S (roundWithAccuracy S s m e a) := by
  have hmin : S.minExponent ≤ S.targetExponent (totalExponent m e) := le_max_right _ _
  rw [roundWithAccuracy_eq S s a he]
  dsimp only
  split
  · trivial
  · split
    · rename_i hlt
      refine ⟨hlt, hmin, fun h => (le_roundedMantissa _).trans' ?_⟩
      obtain ⟨hm0, hsum⟩ := target_eq S he h
      rw [shift_eq S a he, mantissa_shiftRight, mantissa_ofMantissaAndAccuracy,
        Nat.le_div_iff_mul_le (Nat.two_pow_pos _), ← pow_add]
      refine (Nat.pow_le_pow_right (by decide) ?_).trans (Nat.log2_self_le hm0)
      unfold Float.Model.Format.mantissaBits at hsum
      omega
    · refine ⟨?_, hmin.trans (Int.le_add_one (le_refl _)), fun _ => le_refl _⟩
      rw [pow_mantissaBits]
      have := Nat.two_pow_pos S.mantissaBitsWithoutImplicit
      omega

/-- What rounding returns, in units of the exponent that it rounds to: the integer next to a
mantissa, off by as much as that is from where the mantissa reads. -/
theorem exists_rounded {y : ℚ} (hy : Reads (.ofMantissaAndAccuracy m a) y)
    (he : e ≤ S.targetExponent (totalExponent m e)) :
    ∃ (em : ExtendedMantissa) (x : ℚ), Reads em x ∧ em.roundedMantissa ≤ 2 ^ S.mantissaBits ∧
      value (roundWithAccuracy S s m e a) =
        unit s * (em.roundedMantissa * 2 ^ S.targetExponent (totalExponent m e)) ∧
      |value (roundWithAccuracy S s m e a) - unit s * (y * 2 ^ e)| =
        |(em.roundedMantissa : ℚ) - x| * 2 ^ S.targetExponent (totalExponent m e) := by
  have hread := hy.shiftRight (S.targetExponent (totalExponent m e) - e).toNat
  have hle := shift_rounded_le S a he
  have hvalue := value_roundWithAccuracy S s a he
  have hscale : (2 : ℚ) ^ (S.targetExponent (totalExponent m e) - e).toNat * 2 ^ e =
      2 ^ S.targetExponent (totalExponent m e) := by
    rw [← zpow_natCast, ← two_zpow_add, Int.toNat_of_nonneg (by omega), sub_add_cancel]
  rw [shift_eq S a he] at hle hvalue
  refine ⟨_, _, hread, hle, hvalue, ?_⟩
  rw [hvalue, ← mul_sub, abs_mul, abs_unit, one_mul]
  dsimp only
  generalize (S.targetExponent (totalExponent m e) - e).toNat = k at hscale ⊢
  generalize S.targetExponent (totalExponent m e) = t at hscale ⊢
  have hpos : (2 : ℚ) ^ k ≠ 0 := by positivity
  rw [← abs_of_pos (two_zpow_pos t), ← abs_mul, abs_of_pos (two_zpow_pos t), ← hscale]
  congr 1
  field_simp

/-- Ties go to the even significand. -/
theorem ties_roundWithAccuracy {y : ℚ} (hy : Reads (.ofMantissaAndAccuracy m a) y)
    (he : e ≤ S.targetExponent (totalExponent m e)) :
    Ties (unit s * (y * 2 ^ e)) (value (roundWithAccuracy S s m e a)) := fun f hf => by
  obtain ⟨em, x, hread, -, hvalue, herror⟩ := exists_rounded S s a hy he
  rw [herror] at hf
  rw [hvalue]
  generalize S.targetExponent (totalExponent m e) = t at hf ⊢
  have hpos := two_zpow_pos t
  have hsign : ∀ {g}, Step g ((em.roundedMantissa : ℚ) * 2 ^ t) →
      Step g (unit s * (em.roundedMantissa * 2 ^ t)) := fun h => by
    cases s
    · simpa [unit] using h.neg
    · simpa [unit] using h
  refine hsign ?_
  rcases lt_trichotomy f t with hlt | rfl | hgt
  · exact Step.of_le ⟨em.roundedMantissa, by push_cast; rfl⟩ hlt
  · have htie : |(em.roundedMantissa : ℚ) - x| = 1 / 2 :=
      mul_right_cancel₀ hpos.ne' (hf.trans (by ring))
    obtain ⟨n, hn⟩ := hread.even_of_tie htie
    exact ⟨n, by rw [hn, zpow_add_one₀ (by norm_num)]; push_cast; ring⟩
  · have hmore : (2 : ℚ) ^ t < 2 ^ f := zpow_lt_zpow_right₀ (by norm_num) hgt
    have := mul_le_mul_of_nonneg_right hread.abs_rounded_sub_le hpos.le
    linarith

/-- **What rounding returns is the nearest** to what the mantissa reads. -/
theorem roundsTo_roundWithAccuracy {y : ℚ} (hy : Reads (.ofMantissaAndAccuracy m a) y)
    (he : e ≤ S.targetExponent (totalExponent m e)) :
    RoundsTo S (unit s * (y * 2 ^ e)) (roundWithAccuracy S s m e a) := by
  have hfinite : (roundWithAccuracy S s m e a).isFinite := by
    unfold roundWithAccuracy
    dsimp only
    split <;> rfl
  refine ⟨hfinite, canonical_roundWithAccuracy S s a he, ?_, ties_roundWithAccuracy S s a hy he⟩
  obtain ⟨em, x, hread, hle, hvalue, herror⟩ := exists_rounded S s a hy he
  have hmin : S.minExponent ≤ S.targetExponent (totalExponent m e) := le_max_right _ _
  have hfull := target_eq S he
  have hlow : (m : ℚ) ≤ y := by
    rw [← mantissa_ofMantissaAndAccuracy m a]
    exact hy.le
  generalize S.targetExponent (totalExponent m e) = t at hmin hfull hvalue herror
  refine ⟨s.apply em.roundedMantissa, t, ?_, hmin, ?_, ?_, fun hlt => ?_⟩
  · have habs : |s.apply (em.roundedMantissa : ℤ)| = em.roundedMantissa := by
      cases s <;> simp [Sign.apply]
    rw [habs]
    exact_mod_cast hle
  · rw [hvalue, cast_apply, mul_assoc]
  · rw [herror]
    have := mul_le_mul_of_nonneg_right hread.abs_rounded_sub_le (two_zpow_pos t).le
    linarith
  · obtain ⟨hm0, hsum⟩ := hfull hlt
    have hpow : (2 : ℚ) ^ S.mantissaBits * 2 ^ t = 2 * (2 ^ m.log2 * 2 ^ e) := by
      rw [← zpow_natCast, ← two_zpow_add, add_comm, hsum, two_zpow_add, zpow_add_one₀ (by simp),
        zpow_natCast]
      ring
    have hlog : (2 : ℚ) ^ m.log2 ≤ m := by exact_mod_cast Nat.log2_self_le hm0
    have hy0 : 0 ≤ y * 2 ^ e :=
      mul_nonneg ((Nat.cast_nonneg m).trans hlow) (two_zpow_pos e).le
    rw [hpow, abs_mul, abs_unit, one_mul, abs_of_nonneg hy0]
    have := hlog.trans hlow
    gcongr

end

end RunningStats.Binary
