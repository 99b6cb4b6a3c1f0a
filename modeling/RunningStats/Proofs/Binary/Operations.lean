import RunningStats.Proofs.Binary.Arithmetic
import RunningStats.Proofs.Binary.Value

/-!
# The operations round exact results

Sums, products, quotients and counts of canonical floats are canonical, and their values are the
exact ones rounded (`roundsTo_add`, `roundsTo_mul`, `roundsTo_div`, `roundsTo_ofNat`). For a
quotient the dividend is shifted until the integer quotient fills the precision; the remainder tells
where the exact quotient lies (`reads_div`). A root is irrational as a rule, but nothing is lost by
rounding a rational number in its place (`exists_roundsTo_sqrt`). Packing loses nothing below
`limit` and makes infinite what it does not keep (`unpack_pack`). Canonical floats compare like
their values (`le_iff_value`).
-/

namespace RunningStats.Binary

open Float.Model (UnpackedFloat totalExponent)
open Float.Model.UnpackedFloat

variable {S : Float.Model.Format} {u v : UnpackedFloat}

/-! ## Sums -/

theorem log2_shiftLeft {m : ℕ} (hm : m ≠ 0) (k : ℕ) : (m <<< k).log2 = m.log2 + k := by
  have hpow : m <<< k = m * 2 ^ k := Nat.shiftLeft_eq m k
  have h0 : m * 2 ^ k ≠ 0 := mul_ne_zero hm (Nat.two_pow_pos k).ne'
  rw [hpow, Nat.log2_eq_iff h0, pow_add, add_right_comm, pow_add]
  exact ⟨Nat.mul_le_mul_right _ (Nat.log2_self_le hm),
    Nat.mul_lt_mul_of_pos_right Nat.lt_log2_self (Nat.two_pow_pos k)⟩

/-- Lowering the exponent leaves the number as it is. -/
theorem shiftLeft_mul (m k : ℕ) (e : ℤ) :
    ((m <<< k : ℕ) : ℚ) * 2 ^ (e - k) = m * 2 ^ e := by
  have hsplit : (2 : ℚ) ^ e = 2 ^ k * 2 ^ (e - k) := by
    rw [← zpow_natCast, ← two_zpow_add, add_sub_cancel]
  rw [Nat.shiftLeft_eq, hsplit]
  push_cast
  ring

theorem roundsTo_round (s : Sign) {m : ℕ} (hm : 0 < m) (e : ℤ) :
    RoundsTo S (unit s * (m * 2 ^ e)) (round S s m e) := by
  unfold Float.Model.UnpackedFloat.round decreaseExponent
  dsimp only
  generalize hk : (e - S.targetExponent (totalExponent m e)).toNat = k
  have htotal : totalExponent (m <<< k) (e - k) = totalExponent m e := by
    unfold totalExponent
    rw [log2_shiftLeft hm.ne']
    push_cast
    ring
  have htarget : e - k ≤ S.targetExponent (totalExponent (m <<< k) (e - k)) := by
    rw [htotal]
    omega
  rw [← shiftLeft_mul m k e]
  exact roundsTo_roundWithAccuracy S s .exact (reads_exact _) htarget

theorem roundsTo_normalize (n : ℤ) (e : ℤ) (zero : Sign) :
    RoundsTo S (n * 2 ^ e) (UnpackedFloat.normalize S n e zero) := by
  unfold UnpackedFloat.normalize
  rcases lt_trichotomy n 0 with h | rfl | h
  · rw [show compare n 0 = .lt from compare_lt_iff_lt.mpr h]
    have hr := roundsTo_round (S := S) .negative (m := (-n).toNat) (by omega) e
    have hn : ((-n).toNat : ℚ) = -n := by
      exact_mod_cast (show ((-n).toNat : ℤ) = -n by omega)
    rwa [hn, unit, neg_mul, neg_mul, one_mul, neg_neg] at hr
  · rw [show compare (0 : ℤ) 0 = .eq from compare_eq_iff_eq.mpr rfl, Int.cast_zero,
      Rat.zero_mul]
    exact roundsTo_zero S zero
  · rw [show compare n 0 = .gt from compare_gt_iff_gt.mpr h]
    have hr := roundsTo_round (S := S) .positive (m := n.toNat) (by omega) e
    have hn : (n.toNat : ℚ) = n := by exact_mod_cast (show (n.toNat : ℤ) = n by omega)
    rwa [hn, unit, one_mul] at hr

/-- **The sum** of two finite floats. -/
theorem roundsTo_add (hu : u.isFinite) (hv : v.isFinite) (hcu : Canonical S u)
    (hcv : Canonical S v) : RoundsTo S (value u + value v) (add S u v) := by
  cases u with
  | notANumber => cases hu
  | infinity s => cases hu
  | zero s =>
    cases v with
    | notANumber => cases hv
    | infinity s' => cases hv
    | zero s' =>
      obtain ⟨r, hr⟩ := zero_add_zero (S := S) s s'
      rw [hr, show value (.zero s) + value (.zero s') = 0 from Rat.add_zero 0]
      exact roundsTo_zero S r
    | finite s' m' e' hm' =>
      rw [show value (.zero s) = 0 from rfl, Rat.zero_add]
      exact hcv.roundsTo_self hv
  | finite s m e hm =>
    cases v with
    | notANumber => cases hv
    | infinity s' => cases hv
    | zero s' =>
      rw [show value (.zero s') = 0 from rfl, Rat.add_zero]
      exact hcu.roundsTo_self hu
    | finite s' m' e' hm' =>
      unfold add decreaseExponent
      dsimp only
      have hl : min e e' = e - ((e - min e e').toNat : ℤ) := by omega
      have hr : min e e' = e' - ((e' - min e e').toNat : ℤ) := by omega
      have hlv : ((m <<< (e - min e e').toNat : ℕ) : ℚ) * 2 ^ min e e' = m * 2 ^ e := by
        conv_lhs => arg 2; rw [hl]
        exact shiftLeft_mul _ _ _
      have hrv : ((m' <<< (e' - min e e').toNat : ℕ) : ℚ) * 2 ^ min e e' = m' * 2 ^ e' := by
        conv_lhs => arg 2; rw [hr]
        exact shiftLeft_mul _ _ _
      have hsum := roundsTo_normalize (S := S)
        (s.apply (m <<< (e - min e e').toNat : ℕ) + s'.apply (m' <<< (e' - min e e').toNat : ℕ))
        (min e e') .positive
      rw [Int.cast_add, cast_apply, cast_apply, add_mul, mul_assoc, mul_assoc, hlv, hrv] at hsum
      exact hsum

/-! ## Products -/

/-- **The product** of two finite floats. -/
theorem roundsTo_mul (hS : S.minExponent ≤ 0) (hu : u.isFinite) (hv : v.isFinite)
    (hcu : Canonical S u) (hcv : Canonical S v) :
    RoundsTo S (value u * value v) (mul S u v) := by
  cases u with
  | notANumber => cases hu
  | infinity s => cases hu
  | zero s =>
    obtain ⟨r, hr⟩ := zero_mul (S := S) s hv
    rw [hr, show value (.zero s) = 0 from rfl, Rat.zero_mul]
    exact roundsTo_zero S r
  | finite s m e hm =>
    cases v with
    | notANumber => cases hv
    | infinity s' => cases hv
    | zero s' =>
      rw [show value (.zero s') = 0 from rfl, Rat.mul_zero]
      exact roundsTo_zero S _
    | finite s' m' e' hm' =>
      obtain ⟨-, he, hfull⟩ := hcu
      obtain ⟨-, he', hfull'⟩ := hcv
      -- a factor that fills the precision makes the product fill it
      have htarget : e + e' ≤ S.targetExponent (totalExponent (m * m') (e + e')) := by
        unfold Float.Model.Format.targetExponent totalExponent Float.Model.Format.mantissaBits
        by_cases hsub : e + e' ≤ S.minExponent
        · exact hsub.trans (le_max_right _ _)
        · have hle : 2 ^ S.mantissaBitsWithoutImplicit ≤ m * m' := by
            by_cases h : S.minExponent < e
            · exact (hfull h).trans (Nat.le_mul_of_pos_right m hm')
            · exact (hfull' (by omega)).trans (Nat.le_mul_of_pos_left m' hm)
          have hlog := (Nat.le_log2 (mul_pos hm hm').ne').mpr hle
          omega
      have hr := roundsTo_roundWithAccuracy S (s * s') .exact (reads_exact (m * m')) htarget
      have hvalue : unit (s * s') * ((m * m' : ℕ) * 2 ^ (e + e')) =
          value (.finite s m e hm) * value (.finite s' m' e' hm') := by
        rw [value, value, unit_mul, two_zpow_add]
        push_cast
        ring
      rwa [hvalue] at hr

/-! ## Quotients -/

/-- The quotient lies where the remainder tells. -/
theorem reads_div (n : ℕ) {d : ℕ} (hd : 0 < d) :
    Reads (.ofMantissaAndAccuracy (n / d) (accuracyOfFraction (n % d) d)) (n / d) := by
  have hpos : (0 : ℚ) < d := by exact_mod_cast hd
  have hdiv : (n : ℚ) = d * (n / d : ℕ) + (n % d : ℕ) := by
    exact_mod_cast (Nat.div_add_mod n d).symm
  have hlt : ((n % d : ℕ) : ℚ) < d := by exact_mod_cast Nat.mod_lt n hd
  have hy : (n : ℚ) / d = (n / d : ℕ) + (n % d : ℕ) / d := by
    conv_lhs => rw [hdiv, add_div, mul_div_cancel_left₀ _ hpos.ne']
  rw [hy]
  unfold accuracyOfFraction
  by_cases h0 : n % d = 0
  · rw [if_pos h0, h0]
    simp [Reads, ExtendedMantissa.ofMantissaAndAccuracy]
  · have hr : (0 : ℚ) < (n % d : ℕ) := by exact_mod_cast Nat.pos_of_ne_zero h0
    have hq : (0 : ℚ) < (n % d : ℕ) / d := div_pos hr hpos
    have hq1 : ((n % d : ℕ) : ℚ) / d < 1 := (div_lt_one hpos).mpr hlt
    rw [if_neg h0]
    rcases lt_trichotomy (2 * (n % d)) d with h | h | h
    · have hhalf : ((n % d : ℕ) : ℚ) / d < 1 / 2 := by
        rw [div_lt_div_iff₀ hpos (by norm_num)]
        exact_mod_cast (by omega : n % d * 2 < 1 * d)
      rw [compare_lt_iff_lt.mpr h]
      exact ⟨by simp [ExtendedMantissa.ofMantissaAndAccuracy, hq],
        by simpa [ExtendedMantissa.ofMantissaAndAccuracy] using hhalf⟩
    · have hhalf : ((n % d : ℕ) : ℚ) / d = 1 / 2 := by
        rw [div_eq_div_iff hpos.ne' (by norm_num)]
        exact_mod_cast (by omega : n % d * 2 = 1 * d)
      rw [compare_eq_iff_eq.mpr h, hhalf]
      rfl
    · have hhalf : 1 / 2 < ((n % d : ℕ) : ℚ) / d := by
        rw [div_lt_div_iff₀ (by norm_num) hpos]
        exact_mod_cast (by omega : 1 * d < n % d * 2)
      rw [compare_gt_iff_gt.mpr h]
      exact ⟨by simpa [ExtendedMantissa.ofMantissaAndAccuracy] using hhalf,
        by simp [ExtendedMantissa.ofMantissaAndAccuracy, hq1]⟩

/-- A dividend that is shifted far enough makes the quotient fill the precision. -/
theorem le_log2_div {n m m' k : ℕ} (hm : m ≠ 0) (hm' : 0 < m')
    (h : n + m'.log2 + 1 ≤ m.log2 + k) : n ≤ ((m <<< k) / m').log2 := by
  have hle : 2 ^ n ≤ (m <<< k) / m' := by
    rw [Nat.le_div_iff_mul_le hm', Nat.shiftLeft_eq]
    calc 2 ^ n * m' ≤ 2 ^ n * 2 ^ (m'.log2 + 1) := Nat.mul_le_mul_left _ Nat.lt_log2_self.le
      _ = 2 ^ (n + m'.log2 + 1) := by rw [← pow_add, add_assoc]
      _ ≤ 2 ^ (m.log2 + k) := Nat.pow_le_pow_right (by decide) h
      _ = 2 ^ m.log2 * 2 ^ k := pow_add _ _ _
      _ ≤ m * 2 ^ k := Nat.mul_le_mul_right _ (Nat.log2_self_le hm)
  have hpos : (m <<< k) / m' ≠ 0 := ((Nat.two_pow_pos n).trans_le hle).ne'
  exact (Nat.le_log2 hpos).mpr hle

/-- **The quotient** of two finite floats, the divisor not zero. -/
theorem roundsTo_div (hu : u.isFinite) (hv : v.isFinite) (hzero : ∀ s, v ≠ .zero s) :
    RoundsTo S (value u / value v) (div S u v) := by
  cases v with
  | notANumber => cases hv
  | infinity s' => cases hv
  | zero s' => exact absurd rfl (hzero s')
  | finite s' m' e' hm' =>
    cases u with
    | notANumber => cases hu
    | infinity s => cases hu
    | zero s =>
      rw [show value (.zero s) = 0 from rfl, zero_div]
      exact roundsTo_zero S _
    | finite s m e hm =>
      unfold div divCore
      dsimp only
      generalize ht : min (e - e') (S.targetExponent (totalExponent m e - totalExponent m' e')) = t
      generalize hk : (e - e' - t).toNat = k
      have hkt : e - e' = t + k := by omega
      -- the dividend is shifted until the quotient fills the precision
      have htarget : t ≤ S.targetExponent (totalExponent ((m <<< k) / m') t) := by
        unfold Float.Model.Format.targetExponent totalExponent at ht ⊢
        by_cases hsub : t ≤ S.minExponent
        · exact hsub.trans (le_max_right _ _)
        · unfold Float.Model.Format.mantissaBits at ht ⊢
          have hlog : S.mantissaBitsWithoutImplicit ≤ ((m <<< k) / m').log2 :=
            le_log2_div hm.ne' hm' (by omega)
          omega
      have hr := roundsTo_roundWithAccuracy S (s / s') _ (reads_div (m <<< k) hm') htarget
      have hvalue : unit (s / s') * (((m <<< k : ℕ) : ℚ) / m' * 2 ^ t) =
          value (.finite s m e hm) / value (.finite s' m' e' hm') := by
        have hm0 : (m' : ℚ) ≠ 0 := by exact_mod_cast hm'.ne'
        have hunit : unit s' ≠ 0 := by cases s' <;> norm_num [unit]
        have hpow := (two_zpow_pos e').ne'
        have he : e = t + k + e' := by omega
        rw [value, value, unit_div, Nat.shiftLeft_eq, he, two_zpow_add, two_zpow_add, zpow_natCast]
        push_cast
        field_simp
      rwa [hvalue] at hr

/-! ## Roots -/

theorem log2_sqrt {n : ℕ} (hn : n ≠ 0) : n.sqrt.log2 = n.log2 / 2 := by
  have hpos : n.sqrt ≠ 0 := (Nat.sqrt_pos.mpr (Nat.pos_of_ne_zero hn)).ne'
  refine (Nat.log2_eq_iff hpos).mpr ⟨?_, ?_⟩
  · rw [Nat.le_sqrt, ← pow_add]
    exact (Nat.pow_le_pow_right (by decide) (by omega)).trans (Nat.log2_self_le hn)
  · rw [Nat.sqrt_lt, ← pow_add]
    exact Nat.lt_log2_self.trans_le (Nat.pow_le_pow_right (by decide) (by omega))

/-- The remainder of an integer root tells on which side of the next half the root lies; so does a
number whose square is no larger. -/
theorem exists_reads_sqrt (n : ℕ) :
    ∃ y : ℚ, y ^ 2 ≤ n ∧ Reads (.ofMantissaAndAccuracy n.sqrt
      (if n - n.sqrt * n.sqrt = 0 then .exact
        else .inexact (if n - n.sqrt * n.sqrt ≤ n.sqrt then .lt else .gt))) y := by
  obtain ⟨d, hd⟩ := Nat.exists_eq_add_of_le (Nat.sqrt_le n)
  have hle := Nat.sqrt_le_add n
  generalize n.sqrt = r at hd hle ⊢
  have hdr : d ≤ 2 * r := by omega
  rw [show n - r * r = d by omega]
  have hpos : (0 : ℚ) < 2 * r + 1 := by positivity
  refine ⟨r + d / (2 * r + 1), ?_, ?_⟩
  · have hd' : (d : ℚ) ≤ 2 * r := by exact_mod_cast hdr
    have hshare : (d : ℚ) / (2 * r + 1) ≤ 1 := (div_le_one hpos).mpr (by linarith)
    have hmul : (d : ℚ) / (2 * r + 1) * (2 * r + 1) = d := div_mul_cancel₀ _ hpos.ne'
    have hd0 : (0 : ℚ) ≤ d / (2 * r + 1) := by positivity
    rw [hd]
    push_cast
    nlinarith
  · by_cases h0 : d = 0
    · simp [Reads, h0, ExtendedMantissa.ofMantissaAndAccuracy]
    have hd0 : (0 : ℚ) < d / (2 * r + 1) := div_pos (by exact_mod_cast Nat.pos_of_ne_zero h0) hpos
    rw [if_neg h0]
    by_cases hlow : d ≤ r
    · rw [if_pos hlow]
      refine ⟨by simpa [ExtendedMantissa.ofMantissaAndAccuracy] using hd0, ?_⟩
      have hhalf : (d : ℚ) / (2 * r + 1) < 1 / 2 := by
        rw [div_lt_div_iff₀ hpos (by norm_num)]
        exact_mod_cast (by omega : d * 2 < 1 * (2 * r + 1))
      simpa [ExtendedMantissa.ofMantissaAndAccuracy] using hhalf
    · rw [if_neg hlow]
      have hhalf : 1 / 2 < (d : ℚ) / (2 * r + 1) := by
        rw [div_lt_div_iff₀ (by norm_num) hpos]
        exact_mod_cast (by omega : 1 * (2 * r + 1) < d * 2)
      refine ⟨by simpa [ExtendedMantissa.ofMantissaAndAccuracy] using hhalf, ?_⟩
      have hone : (d : ℚ) / (2 * r + 1) < 1 :=
        (div_lt_one hpos).mpr (by exact_mod_cast Nat.lt_succ_of_le hdr)
      simpa [ExtendedMantissa.ofMantissaAndAccuracy] using hone

/-- **The root** of a positive float is rounded from a number whose square is no larger than it. -/
theorem exists_roundsTo_sqrt {m : ℕ} (hm : 0 < m) (e : ℤ) :
    ∃ q, 0 ≤ q ∧ q ^ 2 ≤ value (.finite .positive m e hm) ∧
      RoundsTo S q (sqrt S (.finite .positive m e hm)) := by
  unfold sqrt sqrtCore
  dsimp only
  generalize ht : min (e.ediv 2) (S.targetExponent ((totalExponent m e + 1).ediv 2)) = t
  generalize hk : (e - 2 * t).toNat = k
  have hediv : e.ediv 2 = e / 2 := rfl
  have hke : e = 2 * t + k := by omega
  have hn0 : m <<< k ≠ 0 := by
    rw [Nat.shiftLeft_eq]
    exact (Nat.mul_pos hm (Nat.two_pow_pos k)).ne'
  -- shifting by an even exponent halves the place of the first digit
  have htotal : totalExponent (m <<< k).sqrt t = (totalExponent m e + 1).ediv 2 := by
    have hdiv : (totalExponent m e + 1).ediv 2 = (totalExponent m e + 1) / 2 := rfl
    rw [hdiv]
    unfold totalExponent
    rw [log2_sqrt hn0, log2_shiftLeft hm.ne']
    omega
  have htarget : t ≤ S.targetExponent (totalExponent (m <<< k).sqrt t) := by
    rw [htotal]
    omega
  obtain ⟨y, hy2, hy⟩ := exists_reads_sqrt (m <<< k)
  have hy0 : 0 ≤ y := (Nat.cast_nonneg _).trans hy.le
  refine ⟨y * 2 ^ t, mul_nonneg hy0 (two_zpow_pos t).le, ?_, ?_⟩
  · have hpow : (2 : ℚ) ^ e = 2 ^ k * (2 ^ t) ^ 2 := by
      rw [hke, two_zpow_add, two_mul, two_zpow_add, zpow_natCast]
      ring
    rw [value, unit, one_mul, mul_pow, hpow, ← mul_assoc]
    rw [Nat.shiftLeft_eq] at hy2
    push_cast at hy2
    gcongr
  · have hr := roundsTo_roundWithAccuracy S .positive _ hy htarget
    rwa [unit, one_mul] at hr

/-! ## Counts -/

theorem roundsTo_ofNat (n : ℕ) : RoundsTo S n (ofNat S n) := by
  have h := roundsTo_normalize (S := S) n 0 .positive
  rwa [zpow_zero, mul_one, Int.cast_natCast] at h

/-! ## Packing -/

/-- A larger exponent outweighs the significand. -/
theorem mul_two_zpow_lt {m m' : ℕ} {e e' : ℤ} (hm : m < 2 ^ S.mantissaBits)
    (hm' : 2 ^ S.mantissaBitsWithoutImplicit ≤ m') (he : e < e') :
    (m : ℚ) * 2 ^ e < m' * 2 ^ e' := by
  have hlt : (m : ℚ) < 2 * 2 ^ S.mantissaBitsWithoutImplicit := by
    rw [pow_mantissaBits] at hm
    exact_mod_cast hm
  have hle : (2 : ℚ) ^ S.mantissaBitsWithoutImplicit ≤ m' := by exact_mod_cast hm'
  calc (m : ℚ) * 2 ^ e < 2 * 2 ^ S.mantissaBitsWithoutImplicit * 2 ^ e :=
        mul_lt_mul_of_pos_right hlt (two_zpow_pos e)
    _ = 2 ^ S.mantissaBitsWithoutImplicit * 2 ^ (e + 1) := by
        rw [zpow_add_one₀ (by norm_num)]
        ring
    _ ≤ m' * 2 ^ e' := by
        have := two_zpow_le (Int.add_one_le_of_lt he)
        gcongr

/-- The power of two above every finite number of a format. -/
def limit (S : Float.Model.Format) : ℚ := 2 ^ 2 ^ (S.exponentBits - 1)

/-- The limit is the smallest full significand at the exponent that has no field. -/
theorem limit_eq (hS : 1 < S.exponentBits) :
    limit S = 2 ^ S.mantissaBitsWithoutImplicit *
      2 ^ (2 ^ S.exponentBits - 1 - exponentShift S : ℤ) := by
  have hbias : S.exponentBias + 1 = 2 ^ (S.exponentBits - 1) := by
    have := Nat.two_pow_pos (S.exponentBits - 1)
    unfold Float.Model.Format.exponentBias
    omega
  have hpow : (2 : ℤ) ^ S.exponentBits = 2 * 2 ^ (S.exponentBits - 1) := by
    rw [← pow_succ', Nat.sub_add_cancel hS.le]
  have hbias' : (S.exponentBias : ℤ) + 1 = 2 ^ (S.exponentBits - 1) := by exact_mod_cast hbias
  have hexp : (S.mantissaBitsWithoutImplicit : ℤ) + (2 ^ S.exponentBits - 1 - exponentShift S) =
      ((2 ^ (S.exponentBits - 1) : ℕ) : ℤ) := by
    rw [exponentShift, hpow]
    push_cast
    omega
  rw [← zpow_natCast, ← two_zpow_add, hexp, zpow_natCast, limit]

/-- The first exponent that has no field is not the smallest one. -/
theorem minExponent_lt (hS : 1 < S.exponentBits) :
    S.minExponent < 2 ^ S.exponentBits - 1 - exponentShift S := by
  have hfour : (2 : ℤ) ^ 2 ≤ 2 ^ S.exponentBits := pow_le_pow_right₀ (by norm_num) hS
  rw [minExponent_eq]
  omega

theorem minExponent_nonpos (hS : 1 < S.exponentBits) : S.minExponent ≤ 0 := by
  have hpow : (2 : ℤ) ^ 1 ≤ 2 ^ (S.exponentBits - 1) :=
    pow_le_pow_right₀ (by norm_num) (by omega)
  unfold Float.Model.Format.minExponent Float.Model.Format.mantissaBits
  omega

/-- Half the limit and three quarters of it are numbers of the format. -/
theorem representable_limit (hS : 1 < S.exponentBits) :
    0 < limit S ∧ Representable S (limit S / 2) ∧ Representable S (3 / 4 * limit S) := by
  have hpow : 2 ≤ 2 ^ (S.exponentBits - 1) :=
    calc 2 = 2 ^ 1 := rfl
      _ ≤ 2 ^ (S.exponentBits - 1) := Nat.pow_le_pow_right (by decide) (by omega)
  have hmin := minExponent_nonpos hS
  have hfour : 4 ≤ 2 ^ S.mantissaBits := by exact_mod_cast four_le_precision S
  obtain ⟨k, hk⟩ := Nat.exists_eq_add_of_le hpow
  have hlimit : limit S = 4 * 2 ^ (k : ℤ) := by
    rw [limit, hk, pow_add, zpow_natCast]
    norm_num
  have hhalf : limit S / 2 = (2 : ℕ) * 2 ^ (k : ℤ) := by
    rw [hlimit]
    push_cast
    ring
  have hmost : 3 / 4 * limit S = (3 : ℕ) * 2 ^ (k : ℤ) := by
    rw [hlimit]
    push_cast
    ring
  refine ⟨?_, ?_, ?_⟩
  · rw [hlimit]
    exact mul_pos (by norm_num) (two_zpow_pos _)
  · rw [hhalf]
    exact .natCast_mul (by omega) (by omega)
  · rw [hmost]
    exact .natCast_mul (by omega) (by omega)

/-- What is kept when it is packed. -/
theorem unpack_pack_of_lt {s : Sign} {m : ℕ} {e : ℤ} (hm : 0 < m)
    (hc : Canonical S (.finite s m e hm))
    (he : (e + S.exponentBias + S.mantissaBitsWithoutImplicit).toNat + 1 < 2 ^ S.exponentBits) :
    unpack S (pack S (.finite s m e hm)) = .finite s m e hm := by
  obtain ⟨hlt, hmin, hfull⟩ := hc
  rw [minExponent_eq, exponentShift] at hmin hfull
  have hlog : m.log2 + 1 = S.mantissaBits ↔ 2 ^ S.mantissaBitsWithoutImplicit ≤ m := by
    rw [← Nat.le_log2 hm.ne', Float.Model.Format.mantissaBits]
    have := (Nat.log2_lt hm.ne').mpr hlt
    unfold Float.Model.Format.mantissaBits at this
    omega
  rw [pow_mantissaBits] at hlt
  rw [pack, if_neg (by omega)]
  by_cases hnormal : 2 ^ S.mantissaBitsWithoutImplicit ≤ m
  · have hfield : (BitVec.ofNat S.exponentBits
        (e + S.exponentBias + S.mantissaBitsWithoutImplicit).toNat).toNat =
        (e + S.exponentBias + S.mantissaBitsWithoutImplicit).toNat := by
      rw [BitVec.toNat_ofNat, Nat.mod_eq_of_lt (by omega)]
    have htop : BitVec.ofNat S.exponentBits
        (e + S.exponentBias + S.mantissaBitsWithoutImplicit).toNat ≠ -1#_ := fun h => by
      have h := congrArg BitVec.toNat h
      rw [hfield, BitVec.neg_one_eq_allOnes, BitVec.toNat_allOnes] at h
      omega
    have hzero : BitVec.ofNat S.exponentBits
        (e + S.exponentBias + S.mantissaBitsWithoutImplicit).toNat ≠ 0#_ := fun h => by
      have h := congrArg BitVec.toNat h
      rw [hfield, BitVec.toNat_zero] at h
      omega
    have hmant : 2 ^ S.mantissaBitsWithoutImplicit +
        (BitVec.ofNat S.mantissaBitsWithoutImplicit m).toNat = m := by
      rw [BitVec.toNat_ofNat, Nat.mod_eq_sub_mod hnormal, Nat.mod_eq_of_lt (by omega)]
      omega
    rw [if_pos (hlog.mpr hnormal), unpack_packComponents, assemble, if_neg htop, if_neg hzero]
    congr 1
    rw [hfield, exponentShift]
    omega
  · have hmant : (BitVec.ofNat S.mantissaBitsWithoutImplicit m).toNat = m := by
      rw [BitVec.toNat_ofNat, Nat.mod_eq_of_lt (by omega)]
    have hne : BitVec.ofNat S.mantissaBitsWithoutImplicit m ≠ 0#_ := fun h => by
      have h := congrArg BitVec.toNat h
      rw [hmant, BitVec.toNat_zero] at h
      omega
    have htop : (0#S.exponentBits) ≠ -1#_ := fun h => by
      have h := congrArg BitVec.toNat h
      rw [BitVec.neg_one_eq_allOnes, BitVec.toNat_allOnes, BitVec.toNat_zero] at h
      omega
    rw [if_neg (mt hlog.mp hnormal), unpack_packComponents, assemble, if_neg htop, if_pos rfl,
      dif_neg hne]
    congr 1
    rw [minExponent_eq, exponentShift]
    by_contra hgt
    exact hnormal (hfull (by omega))

/-- **Packing** keeps what is canonical, unless it is too large and becomes infinite. -/
theorem unpack_pack (hS : 1 < S.exponentBits) (hc : Canonical S u) :
    unpack S (pack S u) = u ∨
      ∃ s m e hm, u = .finite s m e hm ∧ unpack S (pack S u) = .infinity s ∧
        limit S ≤ |value u| := by
  cases u with
  | notANumber => exact .inl unpack_packedNaN
  | infinity s => exact .inl (unpack_packedInfinity S s)
  | zero s => exact .inl unpack_packedZero
  | finite s m e hm =>
    by_cases he : 2 ^ S.exponentBits ≤
        (e + S.exponentBias + S.mantissaBitsWithoutImplicit).toNat + 1
    · refine .inr ⟨s, m, e, hm, rfl, ?_, ?_⟩
      · rw [pack, if_pos he, unpack_packedInfinity]
      · have hcast : ((2 ^ S.exponentBits : ℕ) : ℤ) = 2 ^ S.exponentBits := by push_cast; rfl
        have hmin := minExponent_lt hS
        have hexp : 2 ^ S.exponentBits - 1 - exponentShift S ≤ e := by
          have := hc.2.1
          rw [minExponent_eq] at this
          unfold exponentShift at this ⊢
          omega
        have hfull : (2 : ℚ) ^ S.mantissaBitsWithoutImplicit ≤ m := by
          exact_mod_cast hc.2.2 (hmin.trans_le hexp)
        rw [abs_value_finite, limit_eq hS]
        have := two_zpow_le hexp
        gcongr
    · exact .inl (unpack_pack_of_lt hm hc (by omega))

/-- What unpacks from a pattern lies below the limit. -/
theorem abs_value_lt_limit (hS : 1 < S.exponentBits) (b : BitVec S.numBits) :
    |value (unpack S b)| < limit S := by
  have hlimit : 0 < limit S := by
    unfold limit
    positivity
  have hcanonical := canonical_unpack b
  have hfield : ∀ s m e hm, unpack S b = .finite s m e hm →
      e < 2 ^ S.exponentBits - 1 - exponentShift S := fun s m e hm h => by
    have hmin := minExponent_lt hS
    have hlt : ((unpackExponent b).toNat : ℤ) < 2 ^ S.exponentBits := by
      exact_mod_cast (unpackExponent b).isLt
    rw [unpack_eq_assemble, assemble] at h
    split at h
    · split at h <;> cases h
    · rename_i htop
      split at h
      · split at h
        · cases h
        · cases h
          exact hmin
      · cases h
        have hne : (unpackExponent b).toNat ≠ 2 ^ S.exponentBits - 1 := fun h => htop (by
          rw [← BitVec.toNat_inj, h, BitVec.neg_one_eq_allOnes, BitVec.toNat_allOnes])
        have hcast : ((2 ^ S.exponentBits : ℕ) : ℤ) = 2 ^ S.exponentBits := by push_cast; rfl
        omega
  generalize unpack S b = u at hcanonical hfield
  cases u with
  | finite s m e hm =>
    rw [abs_value_finite, limit_eq hS]
    have hpow : (2 : ℚ) ^ S.mantissaBitsWithoutImplicit =
        (2 ^ S.mantissaBitsWithoutImplicit : ℕ) := by push_cast; rfl
    rw [hpow]
    exact mul_two_zpow_lt hcanonical.1 (le_refl _) (hfield s m e hm rfl)
  | _ => simpa [value] using hlimit

/-! ## Comparison -/

/-- Exponents first, then significands. -/
theorem lt_of_lex {m m' : ℕ} {e e' : ℤ} (hm : m < 2 ^ S.mantissaBits) (hmin : S.minExponent ≤ e)
    (hm' : S.minExponent < e' → 2 ^ S.mantissaBitsWithoutImplicit ≤ m')
    (h : e < e' ∨ e = e' ∧ m < m') : (m : ℚ) * 2 ^ e < m' * 2 ^ e' := by
  rcases h with he | ⟨rfl, h⟩
  · exact mul_two_zpow_lt hm (hm' (by omega)) he
  · exact mul_lt_mul_of_pos_right (by exact_mod_cast h) (two_zpow_pos e)

theorem value_lt_of_rank (hcu : Canonical S u) (hcv : Canonical S v) (hu : u.isFinite)
    (hv : v.isFinite) (h : rank u < rank v) : value u < value v := by
  have hpos (m : ℕ) (e : ℤ) (hm : 0 < m) : (0 : ℚ) < m * 2 ^ e :=
    mul_pos (by exact_mod_cast hm) (two_zpow_pos e)
  cases u with
  | notANumber => cases hu
  | infinity s => cases hu
  | zero s =>
    cases v with
    | notANumber => cases hv
    | infinity s' => cases hv
    | zero s' => exact absurd h (lt_irrefl _)
    | finite s' m' e' hm' =>
      cases s' with
      | negative => exact absurd h (lt_of_sign (by decide) _ _).not_gt
      | positive => simpa [value, unit] using hpos m' e' hm'
  | finite s m e hm =>
    cases v with
    | notANumber => cases hv
    | infinity s' => cases hv
    | zero s' =>
      cases s with
      | negative => simpa [value, unit] using hpos m e hm
      | positive => exact absurd h (lt_of_sign (by decide) _ _).not_gt
    | finite s' m' e' hm' =>
      have hp := hpos m e hm
      have hp' := hpos m' e' hm'
      cases s <;> cases s' <;> simp only [value, unit, neg_mul, one_mul]
      · simp only [rank, Prod.Lex.toLex_lt_toLex, lt_irrefl, false_or, true_and, neg_lt_neg_iff,
          neg_inj, Nat.cast_lt] at h
        exact neg_lt_neg (lt_of_lex hcv.1 hcv.2.1 hcu.2.2 (by simpa [eq_comm] using h))
      · linarith
      · exact absurd h (lt_of_sign (by decide) _ _).not_gt
      · simp only [rank, Prod.Lex.toLex_lt_toLex, lt_irrefl, false_or, true_and,
          Nat.cast_lt] at h
        exact lt_of_lex hcu.1 hcu.2.1 hcv.2.2 h

theorem value_eq_of_rank (hu : u.isFinite) (hv : v.isFinite) (h : rank u = rank v) :
    value u = value v := by
  cases u with
  | notANumber => cases hu
  | infinity s => cases hu
  | zero s =>
    cases v with
    | notANumber => cases hv
    | infinity s' => cases hv
    | zero s' => rfl
    | finite s' m' e' hm' => cases s' <;> simp [rank] at h
  | finite s m e hm =>
    cases v with
    | notANumber => cases hv
    | infinity s' => cases hv
    | zero s' => cases s <;> simp [rank] at h
    | finite s' m' e' hm' =>
      cases s <;> cases s' <;> simp [rank] at h <;> obtain ⟨rfl, rfl⟩ := h <;> rfl

/-- **Canonical floats compare like their values.** -/
theorem le_iff_value (hcu : Canonical S u) (hcv : Canonical S v) (hu : u.isFinite)
    (hv : v.isFinite) : u.le v ↔ value u ≤ value v := by
  rw [le_iff_rank hu hv]
  rcases lt_trichotomy (rank u) (rank v) with h | h | h
  · exact iff_of_true h.le (value_lt_of_rank hcu hcv hu hv h).le
  · exact iff_of_true h.le (value_eq_of_rank hu hv h).le
  · exact iff_of_false h.not_ge (value_lt_of_rank hcv hcu hv hu h).not_ge

theorem lt_iff_value (hcu : Canonical S u) (hcv : Canonical S v) (hu : u.isFinite)
    (hv : v.isFinite) : u.lt v ↔ value u < value v := by
  rw [lt_iff_rank hu hv, ← not_le, ← not_le, ← le_iff_rank hv hu, le_iff_value hcv hcu hv hu]

/-- Canonical floats of one value are equal, the two zeros apart. -/
theorem eq_of_value (hcu : Canonical S u) (hcv : Canonical S v) (hu : u.isFinite)
    (hv : v.isFinite) (h : value u = value v) (h0 : value v ≠ 0) : u = v := by
  have hrank : rank u = rank v := by
    rcases lt_trichotomy (rank u) (rank v) with hlt | heq | hgt
    · exact absurd h (value_lt_of_rank hcu hcv hu hv hlt).ne
    · exact heq
    · exact absurd h (value_lt_of_rank hcv hcu hv hu hgt).ne'
  have hnz : value u ≠ 0 := h ▸ h0
  cases u with
  | finite s m e hm =>
    cases v with
    | finite s' m' e' hm' =>
      cases s <;> cases s' <;> simp [rank] at hrank <;> obtain ⟨rfl, rfl⟩ := hrank <;> rfl
    | _ => exact absurd rfl h0
  | _ => exact absurd rfl hnz

end RunningStats.Binary
