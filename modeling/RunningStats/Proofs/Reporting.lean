import RunningStats.Interval.Report
import RunningStats.Proofs.Binary.Datum

/-!
# What the report of an interval keeps

The report of an interval writes the estimate and the half width with one number of decimals, which
the decimal magnitude of the half width decides: down to the second significant digit of the half
width, and none from ten on. It is judged here by the texts alone: what they spell, and how far that
is from the numbers of the interval.

* `writes_fixed`: what is written of a number is within half a unit of the last decimal.
* `half_unit_le`: that many decimals are enough for a twentieth of the half width.
* **`report_keeps_two_digits`**: the report of every interval whose half width is positive and
  finite; all other intervals are written in full, and no magnitude is asked for.

The magnitude is taken to be exact. The one that `report` uses is that of a logarithm rounded to the
64-bit format, which just below a power of ten is one more.
-/

namespace RunningStats

open RoundedScalar BinaryScalar
open Binary (Datum)

namespace Decimal

/-- A text spells a number with a given count of decimals. -/
def Writes (places : ℕ) (q : ℚ) (text : String) : Prop :=
  ∃ negative n, Numeral places negative n text ∧
    q = (if negative then -1 else 1) * (n / 10 ^ places)

/-- What is written reads back as the number that it spells. -/
theorem Writes.read {places : ℕ} {q : ℚ} {text : String} (h : Writes places q text) :
    ∃ negative n, Literal.read text.toList = .ok (.finite negative n (-places)) ∧
      q = (if negative then -1 else 1) * (n * 10 ^ (-places : ℤ)) := by
  obtain ⟨negative, n, hnumeral, rfl⟩ := h
  refine ⟨negative, n, hnumeral.read, ?_⟩
  rw [zpow_neg, zpow_natCast, div_eq_mul_inv]

/-- **What is written of a number** is within half a unit of the last decimal. -/
theorem writes_fixed (places : ℕ) {d : Datum} (hd : d.isFinite) :
    ∃ q, Writes places q (fixed places d) ∧ |q - d.value| ≤ 1 / 2 / 10 ^ places := by
  cases d with
  | nan => cases hd
  | infinite negative => cases hd
  | finite negative m e =>
    refine ⟨_, ⟨negative, _, numeral_fixed places negative m e, rfl⟩, ?_⟩
    have hclose := abs_fixed_sub_le places m e
    rw [Datum.value, ← mul_sub, abs_mul]
    cases negative <;> simpa using hclose

end Decimal

namespace Interval

/-! ## The number of decimals -/

section

variable {h : ℚ} {k : ℤ}

/-- There is one power of ten that a number reaches without reaching the next. -/
theorem magnitude_unique {j : ℤ} (hk : (10 : ℚ) ^ k ≤ h ∧ h < 10 ^ (k + 1))
    (hj : (10 : ℚ) ^ j ≤ h ∧ h < 10 ^ (j + 1)) : j = k := by
  have hten : (1 : ℚ) < 10 := by norm_num
  have h1 := (zpow_lt_zpow_iff_right₀ hten).mp (hj.1.trans_lt hk.2)
  have h2 := (zpow_lt_zpow_iff_right₀ hten).mp (hk.1.trans_lt hj.2)
  omega

variable (hk : (10 : ℚ) ^ k ≤ h ∧ h < 10 ^ (k + 1))
include hk

/-- From ten on, there are no decimals. -/
theorem reportPlaces_eq_zero (hten : 10 ≤ h) : reportPlaces k = 0 := by
  have hlt : (10 : ℚ) ^ (1 : ℤ) < 10 ^ (k + 1) := by
    rw [zpow_one]
    exact hten.trans_lt hk.2
  have := (zpow_lt_zpow_iff_right₀ (by norm_num : (1 : ℚ) < 10)).mp hlt
  unfold reportPlaces
  omega

/-- Below ten, the last decimal is that of the second digit. -/
theorem natCast_reportPlaces (hten : h < 10) : (reportPlaces k : ℤ) = 1 - k := by
  have hlt : (10 : ℚ) ^ k < 10 ^ (1 : ℤ) := by
    rw [zpow_one]
    exact hk.1.trans_lt hten
  have := (zpow_lt_zpow_iff_right₀ (by norm_num : (1 : ℚ) < 10)).mp hlt
  unfold reportPlaces
  omega

/-- **The number of decimals below ten** is the only one that puts the second digit last. -/
theorem reportPlaces_unique (hten : h < 10) (d : ℕ) :
    ((10 : ℚ) ^ (1 - d : ℤ) ≤ h ∧ h < 10 ^ (2 - d : ℤ)) ↔ d = reportPlaces k := by
  have hplaces := natCast_reportPlaces hk hten
  constructor
  · intro hd
    have := magnitude_unique hk (j := 1 - d) ⟨hd.1, by convert hd.2 using 2; ring⟩
    omega
  · rintro rfl
    rw [hplaces]
    exact ⟨by convert hk.1 using 2; ring, by convert hk.2 using 2; ring⟩

/-- **Half a unit of the last decimal** is no more than a twentieth of the number. -/
theorem half_unit_le : 1 / 2 / 10 ^ reportPlaces k ≤ h / 20 := by
  by_cases hten : h < 10
  · rw [← zpow_natCast, natCast_reportPlaces hk hten, zpow_sub₀ (by norm_num), zpow_one]
    have hpow : (0 : ℚ) < 10 ^ k := by positivity
    have hunit : (1 : ℚ) / 2 / (10 / 10 ^ k) = 10 ^ k / 20 := by
      field_simp
      norm_num
    rw [hunit]
    linarith [hk.1]
  · rw [not_lt] at hten
    rw [reportPlaces_eq_zero hk hten, pow_zero]
    linarith

end

/-! ## Reports -/

variable {α : Type} [Scalar α] [Patterned α] [Wide α Float]

/-- The text of a report: an estimate and a half width, and the level in percent. -/
def line (i : Interval α Float) (estimate half : String) : String :=
  estimate ++ " ± " ++ half ++ " (" ++ Decimal.text (percent i.confidence) ++ "%)"

/-- A half width with a positive datum is written to the places that its magnitude asks for. -/
theorem reportWith_of_datum {i : Interval α Float} {m : ℕ} {e : ℤ}
    (h : Patterned.datum (widen i.halfWidth) = .finite false (m + 1) e) (f : ℕ → ℕ → ℤ) :
    let places := reportPlaces (f (Binary.ratio (m + 1) e).1 (Binary.ratio (m + 1) e).2)
    i.reportWith f = i.line (Decimal.fixed places (Patterned.datum (widen i.estimate)))
      (Decimal.fixed places (.finite false (m + 1) e)) := by
  unfold reportWith
  rw [h]
  rfl

/-- Any other half width is written in full. -/
theorem reportWith_of_other {i : Interval α Float}
    (h : ∀ m e, Patterned.datum (widen i.halfWidth) ≠ .finite false (m + 1) e) (f : ℕ → ℕ → ℤ) :
    i.reportWith f = i.line (Decimal.text i.estimate) (Decimal.text i.halfWidth) := by
  unfold reportWith
  split
  · exact absurd ‹_› (h _ _)
  · rfl

variable [BinaryScalar α] [Widening α]

omit [Patterned α] in
/-- The datum of a half width is positive just where the half width is. -/
theorem exists_datum_iff (x : α) :
    (∃ m e, Patterned.datum (widen x : Float) = .finite false (m + 1) e) ↔
      Scalar.isFinite x ∧ 0 < x := by
  have hpos (hf : Scalar.isFinite x) : 0 < x ↔ 0 < toRat (widen x : Float) := by
    rw [lt_iff_toRat (isFinite_of_isZero isZero_zero) hf, toRat_zero, Widening.toRat_widen]
  constructor
  · rintro ⟨m, e, h⟩
    obtain ⟨hf, h0⟩ := pos_of_datum h
    rw [Widening.isFinite_widen] at hf
    exact ⟨hf, (hpos hf).mpr h0⟩
  · rintro ⟨hf, h0⟩
    obtain ⟨m, e, h, -⟩ := exists_datum_of_pos ((Widening.isFinite_widen x).trans hf)
      ((hpos hf).mp h0)
    exact ⟨m, e, h⟩

/-- **The report keeps two significant digits of the half width.** If the half width is a finite
positive number `h`, then the estimate and the half width are written with one number of decimals:
none from ten on, and below ten the one number with which the last decimal is the second digit of
`h`. What is written of the half width is off by half a unit of the last decimal and by a twentieth
of `h` at most, and so is not zero; what is written of an estimate that is finite is off by half a
unit at most. If the half width is zero, negative, infinite or no number, then both are written in
full, whatever the magnitude is taken to be. -/
theorem report_keeps_two_digits {magnitude : ℕ → ℕ → ℤ} (hm : Decimal.ExactMagnitude magnitude)
    (i : Interval α Float) :
    let h := toRat i.halfWidth
    (Scalar.isFinite i.halfWidth ∧ 0 < i.halfWidth → ∃ places estimate half,
      i.reportWith magnitude = i.line estimate half ∧
      (10 ≤ h → places = 0) ∧
      (h < 10 → ∀ d : ℕ, ((10 : ℚ) ^ (1 - d : ℤ) ≤ h ∧ h < 10 ^ (2 - d : ℤ)) ↔ d = places) ∧
      (∃ q, Decimal.Writes places q half ∧ |q - h| ≤ 1 / 2 / 10 ^ places ∧ |q - h| ≤ h / 20 ∧
        q ≠ 0) ∧
      (Scalar.isFinite i.estimate → ∃ q, Decimal.Writes places q estimate ∧
        |q - toRat i.estimate| ≤ 1 / 2 / 10 ^ places)) ∧
    (¬ (Scalar.isFinite i.halfWidth ∧ 0 < i.halfWidth) → ∀ f : ℕ → ℕ → ℤ,
      i.reportWith f = i.line (Decimal.text i.estimate) (Decimal.text i.halfWidth)) := by
  intro h
  constructor
  · intro hpos
    obtain ⟨m, e, hdatum⟩ := (exists_datum_iff i.halfWidth).mpr hpos
    have hvalue : (Datum.finite false (m + 1) e).value = h := by
      rw [← hdatum, value_datum, Widening.toRat_widen]
    have hratio : ((Binary.ratio (m + 1) e).1 : ℚ) / (Binary.ratio (m + 1) e).2 = h := by
      rw [Binary.ratio_eq, ← hvalue, Datum.value, if_neg Bool.false_ne_true, one_mul]
    have hbounds := hm.bounds (Binary.ratio_num_pos m.succ_pos e) (Binary.ratio_den_pos (m + 1) e)
    rw [hratio] at hbounds
    obtain ⟨q, hwrites, hclose⟩ := Decimal.writes_fixed
      (reportPlaces (magnitude (Binary.ratio (m + 1) e).1 (Binary.ratio (m + 1) e).2))
      (d := .finite false (m + 1) e) rfl
    rw [hvalue] at hclose
    have htwentieth := hclose.trans (half_unit_le hbounds)
    refine ⟨_, _, _, reportWith_of_datum hdatum magnitude, reportPlaces_eq_zero hbounds,
      reportPlaces_unique hbounds, ⟨q, hwrites, hclose, htwentieth, ?_⟩, fun hfe => ?_⟩
    · rintro rfl
      have h0 : 0 < h := (lt_iff_toRat (isFinite_of_isZero isZero_zero) hpos.1).mp hpos.2
        |>.trans_eq' toRat_zero
      rw [zero_sub, abs_neg, abs_of_pos h0] at htwentieth
      linarith
    · obtain ⟨r, hr, hrclose⟩ := Decimal.writes_fixed
        (reportPlaces (magnitude (Binary.ratio (m + 1) e).1 (Binary.ratio (m + 1) e).2))
        (d := Patterned.datum (widen i.estimate : Float))
        (by rwa [isFinite_datum, Widening.isFinite_widen])
      rw [value_datum, Widening.toRat_widen] at hrclose
      exact ⟨r, hr, hrclose⟩
  · intro hn f
    exact reportWith_of_other (fun m e hd => hn ((exists_datum_iff _).mp ⟨m, e, hd⟩)) f

/-- A half width that rounds up to a new digit, and one of zero, for which no magnitude is asked. -/
theorem report_keeps_two_digits_carry :
    let i : Interval Float Float := .symmetric 4.25 0.0996 0.95
    let point : Interval Float Float := .symmetric 4.25 0 0.95
    (Scalar.isFinite i.halfWidth ∧ 0 < i.halfWidth) ∧
      i.reportWith Decimal.magnitude = "4.250 ± 0.100 (95%)" ∧
      (∃ places estimate half, i.reportWith Decimal.magnitude = i.line estimate half ∧
        (∃ q, Decimal.Writes places q half ∧ |q - toRat i.halfWidth| ≤ toRat i.halfWidth / 20) ∧
        ∃ q, Decimal.Writes places q estimate ∧ |q - toRat i.estimate| ≤ 1 / 2 / 10 ^ places) ∧
      point.reportWith (fun _ _ => -1000) = point.line "4.25" "0" := by
  intro i point
  have hpos : Scalar.isFinite i.halfWidth ∧ 0 < i.halfWidth := by decide +kernel
  have hzero : ¬ (Scalar.isFinite point.halfWidth ∧ 0 < point.halfWidth) := by decide +kernel
  obtain ⟨places, estimate, half, hreport, -, -, ⟨q, hq, -, hclose, -⟩, hestimate⟩ :=
    (report_keeps_two_digits Decimal.exactMagnitude_magnitude i).1 hpos
  have hpoint :=
    (report_keeps_two_digits Decimal.exactMagnitude_magnitude point).2 hzero fun _ _ => -1000
  refine ⟨hpos, by decide +kernel, ⟨places, estimate, half, hreport, ⟨q, hq, hclose⟩,
    hestimate (by decide +kernel)⟩, hpoint.trans ?_⟩
  decide +kernel

end Interval

end RunningStats
