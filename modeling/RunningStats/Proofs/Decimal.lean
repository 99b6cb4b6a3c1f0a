import Mathlib
import RunningStats.Decimal.Fixed
import RunningStats.Decimal.Literal

/-!
# Decimals that are written

A numeral with a fixed number of places is the decimal nearest to what it is made from, and it reads
back as that decimal.

* `abs_roundHalfEven_sub_le`: a quotient that is rounded to an integer is off by half at most, and
  so `abs_roundPlaces_sub_le`, in units of the last place.
* `Numeral`: how a number with a given count of decimals is written. What `fixed` writes is one
  (`numeral_fixed`), and a numeral reads back with its sign and places (`Numeral.read`).
* `ExactMagnitude`: the integer part of the common logarithm, which `magnitude` is
  (`exactMagnitude_magnitude`).
-/

namespace RunningStats

open Binary (Datum ratio roundHalfEven)

/-! ## Rounded quotients -/

namespace Binary

/-- A rounded quotient, times the divisor, is off by half the divisor at most. -/
theorem two_mul_abs_roundHalfEven_sub_le (num : ℕ) {den : ℕ} (h : 0 < den) :
    2 * |(roundHalfEven num den : ℤ) * den - num| ≤ den := by
  have hsplit : (num : ℤ) = den * (num / den : ℕ) + (num % den : ℕ) := by
    exact_mod_cast (Nat.div_add_mod num den).symm
  have hmod : num % den < den := Nat.mod_lt num h
  have hdown : ((num / den : ℕ) : ℤ) * den - num = -((num % den : ℕ) : ℤ) := by
    rw [hsplit]
    ring
  have hup : ((num / den + 1 : ℕ) : ℤ) * den - num = den - (num % den : ℕ) := by
    rw [Nat.cast_add, add_mul, Nat.cast_one, one_mul]
    linarith
  unfold roundHalfEven
  dsimp only
  split
  · rw [hdown, abs_neg, Nat.abs_cast]
    omega
  · split
    · rw [hup, abs_of_nonneg (by omega)]
      omega
    · split
      · rw [hdown, abs_neg, Nat.abs_cast]
        omega
      · rw [hup, abs_of_nonneg (by omega)]
        omega

/-- **A rounded quotient** is off by half at most. -/
theorem abs_roundHalfEven_sub_le (num : ℕ) {den : ℕ} (h : 0 < den) :
    |(roundHalfEven num den : ℚ) - num / den| ≤ 1 / 2 := by
  have hpos : (0 : ℚ) < den := by exact_mod_cast h
  have hint : (2 : ℚ) * |(roundHalfEven num den : ℚ) * den - num| ≤ den := by
    exact_mod_cast two_mul_abs_roundHalfEven_sub_le num h
  have hdiv : (roundHalfEven num den : ℚ) - num / den =
      ((roundHalfEven num den : ℚ) * den - num) / den := by
    field_simp
  rw [hdiv, abs_div, abs_of_pos hpos, div_le_div_iff₀ hpos two_pos]
  linarith

theorem ratio_den_pos (m : ℕ) (e : ℤ) : 0 < (ratio m e).2 := by
  simp [ratio, scale2]

theorem ratio_num_pos {m : ℕ} (hm : 0 < m) (e : ℤ) : 0 < (ratio m e).1 :=
  Nat.mul_pos hm (Nat.two_pow_pos _)

/-- A magnitude as a ratio. -/
theorem ratio_eq (m : ℕ) (e : ℤ) : ((ratio m e).1 : ℚ) / (ratio m e).2 = m * 2 ^ e := by
  obtain ⟨k, rfl | rfl⟩ := e.eq_nat_or_neg
  · simp [ratio, scale2]
  · simp [ratio, scale2, div_eq_mul_inv]

end Binary

namespace Decimal

/-- A number rounded to a multiple of the unit in its last place is off by half of that unit. -/
theorem abs_roundPlaces_sub_le (num : ℕ) {den : ℕ} (h : 0 < den) (places : ℕ) :
    |(roundPlaces num den places : ℚ) / 10 ^ places - num / den| ≤ 1 / 2 / 10 ^ places := by
  have hpos : (0 : ℚ) < 10 ^ places := by positivity
  have hround := Binary.abs_roundHalfEven_sub_le (num * 10 ^ places) h
  have hscale : (roundPlaces num den places : ℚ) / 10 ^ places - num / den =
      ((roundPlaces num den places : ℚ) - (num * 10 ^ places : ℕ) / den) / 10 ^ places := by
    push_cast
    field_simp
  rw [hscale, abs_div, abs_of_pos hpos]
  exact div_le_div_of_nonneg_right hround hpos.le

/-! ## Numerals -/

/-- Digits before and behind a point that spell `n`, in units of the last of `places` decimals. -/
structure Spelled (places n : ℕ) (whole fraction : List Char) : Prop where
  whole_ne : whole ≠ []
  digits : ∀ c ∈ whole ++ fraction, c.isDigit
  length : fraction.length = places
  value : Literal.digitsAfter 0 (whole ++ fraction) = n

/-- A minus sign or none, digits, and behind a point as many digits as there are decimals; without
any, there is no point. -/
def Numeral (places : ℕ) (negative : Bool) (n : ℕ) (text : String) : Prop :=
  ∃ whole fraction, Spelled places n whole fraction ∧
    text.toList = (if negative then ['-'] else []) ++
      (whole ++ if places = 0 then [] else '.' :: fraction)

section

variable {places n : ℕ} {negative : Bool} {text : String} {whole fraction : List Char}

theorem digitsAfter_append (k : ℕ) (cs ds : List Char) :
    Literal.digitsAfter k (cs ++ ds) = Literal.digitsAfter (Literal.digitsAfter k cs) ds :=
  List.foldl_append ..

theorem not_isDigit_point : Char.isDigit '.' = false := by decide

/-- What is spelled is read up to the point and behind it. -/
theorem Spelled.number? (h : Spelled places n whole fraction) :
    Literal.number? negative (whole ++ if places = 0 then [] else '.' :: fraction) =
      some (.finite negative n (-places)) := by
  obtain ⟨hne, hdigits, hlen, hvalue⟩ := h
  rw [digitsAfter_append] at hvalue
  have hwhole : ∀ c ∈ whole, c.isDigit := fun c hc => hdigits c (List.mem_append_left _ hc)
  have hfraction : ∀ c ∈ fraction, c.isDigit := fun c hc => hdigits c (List.mem_append_right _ hc)
  by_cases h0 : places = 0
  · have hnil : fraction = [] := List.length_eq_zero_iff.mp (hlen.trans h0)
    subst hnil
    simp [Literal.number?, h0, List.takeWhile_eq_self_iff.mpr hwhole,
      List.dropWhile_eq_nil_iff.mpr hwhole, hne, Literal.exponent?, hvalue]
  · have htake : (whole ++ '.' :: fraction).takeWhile Char.isDigit = whole := by
      simp [List.takeWhile_append_of_pos hwhole, not_isDigit_point]
    have hdrop : (whole ++ '.' :: fraction).dropWhile Char.isDigit = '.' :: fraction := by
      simp [List.dropWhile_append_of_pos hwhole, not_isDigit_point]
    simp [Literal.number?, h0, htake, hdrop, List.takeWhile_eq_self_iff.mpr hfraction,
      List.dropWhile_eq_nil_iff.mpr hfraction, hne, Literal.exponent?, hvalue, hlen]

/-- A digit is no sign. -/
theorem splitSign_of_isDigit {c : Char} (h : c.isDigit) (cs : List Char) :
    Literal.splitSign (c :: cs) = (false, c :: cs) := by
  unfold Literal.splitSign
  split
  · rename_i heq
    cases heq
    cases h
  · rename_i heq
    cases heq
    cases h
  · rfl

/-- **A numeral reads back**: the digits with their sign, and the unit of the last place. -/
theorem Numeral.read (h : Numeral places negative n text) :
    Literal.read text.toList = .ok (.finite negative n (-places)) := by
  obtain ⟨whole, fraction, hspelled, htext⟩ := h
  obtain ⟨c, cs, rfl⟩ := List.exists_cons_of_ne_nil hspelled.whole_ne
  have hdigit : c.isDigit := hspelled.digits c (by simp)
  have hnumber : Literal.number? negative _ = _ := hspelled.number?
  rw [htext]
  cases negative with
  | true =>
    simp only [Literal.read, if_true, List.cons_append, List.nil_append, reduceCtorEq, if_false,
      Literal.splitSign] at hnumber ⊢
    rw [hnumber]
    rfl
  | false =>
    simp only [Literal.read, Bool.false_eq_true, if_false, List.cons_append, List.nil_append,
      reduceCtorEq, splitSign_of_isDigit hdigit] at hnumber ⊢
    rw [hnumber]
    rfl

end

/-! ## What is written -/

theorem toList_digits (n : ℕ) : (digits n).toList = Nat.toDigits 10 n := by
  simp [digits]

theorem digitsAfter_toDigits (k n : ℕ) :
    Literal.digitsAfter 0 (List.replicate k '0' ++ Nat.toDigits 10 n) = n := by
  show Nat.ofDigitChars 10 _ 0 = n
  rw [Nat.ofDigitChars_append, Nat.ofDigitChars_replicate_zero, mul_zero,
    Nat.ofDigitChars_ten_toDigits]

theorem isDigit_of_mem_padded {k n : ℕ} {c : Char}
    (h : c ∈ List.replicate k '0' ++ Nat.toDigits 10 n) : c.isDigit := by
  rcases List.mem_append.mp h with h | h
  · rw [List.eq_of_mem_replicate h]
    rfl
  · exact Nat.isDigit_of_mem_toDigits (by decide) (by decide) h

/-- The digits of a number, zeros in front, so that one is left before the point. -/
def padded (n places : ℕ) : List Char :=
  List.replicate (places + 1 - (Nat.toDigits 10 n).length) '0' ++ Nat.toDigits 10 n

theorem lt_length_padded (n places : ℕ) : places < (padded n places).length := by
  rw [padded, List.length_append, List.length_replicate]
  omega

/-- The digits before the point, the point, and those behind it. -/
theorem toList_withPlaces (n : ℕ) {places : ℕ} (h : places ≠ 0) :
    (withPlaces n places).toList = (padded n places).take ((padded n places).length - places) ++
      '.' :: (padded n places).drop ((padded n places).length - places) := by
  have htext : (zeros (places + 1 - (digits n).length) ++ digits n).toList = padded n places := by
    simp [zeros, toList_digits, padded, ← String.length_toList]
  rw [withPlaces, if_neg h, ← htext, String.length_toList]
  show ((String.take _ _).copy ++ "." ++ (String.drop _ _).copy).toList = _
  rw [String.toList_append, String.toList_append, String.toList_copy_take,
    String.toList_copy_drop, List.append_assoc]
  rfl

/-- **Digits that are cut for a point** spell their number in units of the last place. -/
theorem numeral_withPlaces (places : ℕ) (negative : Bool) (n : ℕ) :
    Numeral places negative n (sign negative ++ withPlaces n places) := by
  have hsign : (sign negative).toList = if negative then ['-'] else [] := by
    cases negative <;> rfl
  by_cases h0 : places = 0
  · refine ⟨Nat.toDigits 10 n, [], ⟨Nat.toDigits_ne_nil, ?_, h0.symm, ?_⟩, ?_⟩
    · intro c hc
      exact isDigit_of_mem_padded (k := 0) (by simpa using hc)
    · simpa using digitsAfter_toDigits 0 n
    · simp [withPlaces, h0, hsign, toList_digits]
  · have hlong := lt_length_padded n places
    have hjoin := List.take_append_drop ((padded n places).length - places) (padded n places)
    refine ⟨_, _, ⟨?_, ?_, ?_, ?_⟩, by
      rw [String.toList_append, hsign, toList_withPlaces n h0, if_neg h0]⟩
    · intro h
      have := congrArg List.length h
      rw [List.length_take, List.length_nil] at this
      omega
    · rw [hjoin]
      exact fun c hc => isDigit_of_mem_padded hc
    · rw [List.length_drop]
      omega
    · rw [hjoin]
      exact digitsAfter_toDigits _ n

/-- **What `fixed` writes of a finite number** is a numeral with that many decimals. -/
theorem numeral_fixed (places : ℕ) (negative : Bool) (m : ℕ) (e : ℤ) :
    Numeral places negative (roundPlaces (ratio m e).1 (ratio m e).2 places)
      (fixed places (.finite negative m e)) :=
  numeral_withPlaces places negative _

/-- **A finite number that `fixed` writes** is off by half a unit of the last decimal at most. -/
theorem abs_fixed_sub_le (places m : ℕ) (e : ℤ) :
    |(roundPlaces (ratio m e).1 (ratio m e).2 places : ℚ) / 10 ^ places - m * 2 ^ e| ≤
      1 / 2 / 10 ^ places := by
  rw [← Binary.ratio_eq]
  exact abs_roundPlaces_sub_le _ (Binary.ratio_den_pos m e) places

/-! ## Magnitudes -/

/-- How many digits a number has. -/
theorem length_spec (n : ℕ) : n < 10 ^ length n ∧ (n ≠ 0 → 10 ^ length n ≤ 10 * n) := by
  induction n using length.induct with
  | case1 n h =>
    rw [length, if_pos h]
    omega
  | case2 n h ih =>
    rw [length, if_neg h, pow_succ]
    omega

theorem one_le_length (n : ℕ) : 1 ≤ length n := by
  rw [length]
  split <;> omega

/-- The integer part of the common logarithm of every positive ratio. -/
def ExactMagnitude (magnitude : ℕ → ℕ → ℤ) : Prop :=
  ∀ num den : ℕ, 0 < num → 0 < den → magnitude num den = ⌊Real.logb 10 ((num : ℝ) / den)⌋

/-- The integer part of a common logarithm, by the powers of ten to either side. -/
theorem floor_logb_eq_iff {num den : ℕ} (hn : 0 < num) (hd : 0 < den) {k : ℤ} :
    ⌊Real.logb 10 ((num : ℝ) / den)⌋ = k ↔
      (10 : ℚ) ^ k ≤ num / den ∧ (num : ℚ) / den < 10 ^ (k + 1) := by
  have hpos : (0 : ℝ) < num / den := by positivity
  have hcast : (k : ℝ) + 1 = ((k + 1 : ℤ) : ℝ) := by push_cast; rfl
  rw [Int.floor_eq_iff, Real.le_logb_iff_rpow_le (by norm_num) hpos, hcast,
    Real.logb_lt_iff_lt_rpow (by norm_num) hpos, Real.rpow_intCast, Real.rpow_intCast,
    ← Rat.cast_le (K := ℝ), ← Rat.cast_lt (K := ℝ)]
  push_cast
  rfl

/-- The power of ten that a positive ratio reaches, and the next one, which it does not. -/
theorem ExactMagnitude.bounds {f : ℕ → ℕ → ℤ} (hf : ExactMagnitude f) {num den : ℕ}
    (hn : 0 < num) (hd : 0 < den) :
    (10 : ℚ) ^ f num den ≤ num / den ∧ (num : ℚ) / den < 10 ^ (f num den + 1) :=
  (floor_logb_eq_iff hn hd).mp (hf num den hn hd).symm

/-- **The magnitude** of a ratio is the integer part of its common logarithm. -/
theorem exactMagnitude_magnitude : ExactMagnitude magnitude := by
  intro num den hn hd
  have hnq : (0 : ℚ) < num := by exact_mod_cast hn
  have hdq : (0 : ℚ) < den := by exact_mod_cast hd
  refine ((floor_logb_eq_iff hn hd).mpr ?_).symm
  rw [magnitude, le_div_iff₀ hdq, div_lt_iff₀ hdq]
  split
  · rename_i hle
    obtain ⟨hlt, hge⟩ := length_spec (num / den)
    have hge := hge (Nat.div_pos hle hd).ne'
    obtain ⟨k, hk⟩ := Nat.exists_eq_add_of_le' (one_le_length (num / den))
    rw [hk, pow_succ'] at hge
    rw [hk] at hlt ⊢
    have hlow : 10 ^ k * den ≤ num := (Nat.le_div_iff_mul_le hd).mp (by omega)
    have hhigh : num < 10 ^ (k + 1) * den := (Nat.div_lt_iff_lt_mul hd).mp hlt
    constructor
    · rw [show ((k + 1 : ℕ) : ℤ) - 1 = (k : ℕ) by push_cast; ring, zpow_natCast]
      exact_mod_cast hlow
    · rw [show ((k + 1 : ℕ) : ℤ) - 1 + 1 = ((k + 1 : ℕ) : ℤ) by ring, zpow_natCast]
      exact_mod_cast hhigh
  · rename_i hlt
    obtain ⟨hlt', hge⟩ := length_spec ((den - 1) / num)
    have hge := hge (Nat.div_pos (by omega) hn).ne'
    obtain ⟨k, hk⟩ := Nat.exists_eq_add_of_le' (one_le_length ((den - 1) / num))
    rw [hk, pow_succ'] at hge
    rw [hk] at hlt' ⊢
    have hlow : 10 ^ k * num ≤ den - 1 := (Nat.le_div_iff_mul_le hn).mp (by omega)
    have hhigh : den - 1 < 10 ^ (k + 1) * num := (Nat.div_lt_iff_lt_mul hn).mp hlt'
    constructor
    · rw [zpow_neg, zpow_natCast, inv_mul_le_iff₀ (by positivity)]
      exact_mod_cast (show den ≤ 10 ^ (k + 1) * num by omega)
    · rw [show -((k + 1 : ℕ) : ℤ) + 1 = -(k : ℕ) by push_cast; ring, zpow_neg, zpow_natCast,
        lt_inv_mul_iff₀ (by positivity)]
      exact_mod_cast (show 10 ^ k * num < den by omega)

end Decimal

end RunningStats
