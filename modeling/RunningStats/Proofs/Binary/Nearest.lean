import Mathlib

/-!
# Rounding to a format, on the rational numbers

`Rounds S q r` says that `r` is a number of the format `S` next to `q`: an integer times a power of
two, off by half a unit of its last place at most, where only the smallest exponent may leave the
significand short. Which of two equally near numbers is taken is left open; what holds only of the
even one asks for `Ties q r`.

* No number of the format is nearer (`Rounds.nearest`), so rounding moves no value past one
  (`Rounds.le`, `Rounds.ge`): bounds by such numbers survive it, and such numbers are left as they
  are (`Rounds.eq`).
* What is not among the smallest numbers is off by one part in `2 ^ p` at most, with `p` the
  precision (`Rounds.error`, `Rounds.error_le`); so is every sum of numbers of the format, however
  small (`Rounds.error_of_step`).
* Nothing is more than doubled (`Rounds.le_double`), and a number of the format that bounds a value
  still does when a term is added that is small against it (`Rounds.absorbed`).
* Where a sum is no more than a power of two times another, so is what it is rounded to, if ties go
  to the even number (`Rounds.scaled_le`).
-/

namespace RunningStats.Binary

variable {S : Float.Model.Format} {q r b : ℚ}

/-! ## Powers of two -/

theorem two_zpow_pos (e : ℤ) : (0 : ℚ) < 2 ^ e := zpow_pos (by norm_num) e

theorem two_zpow_le {e f : ℤ} (h : e ≤ f) : (2 : ℚ) ^ e ≤ 2 ^ f :=
  zpow_le_zpow_right₀ (by norm_num) h

theorem two_zpow_add (e f : ℤ) : (2 : ℚ) ^ (e + f) = 2 ^ e * 2 ^ f :=
  zpow_add₀ (by norm_num) e f

theorem two_pow_precision (S : Float.Model.Format) :
    (2 : ℚ) ^ S.mantissaBits = 2 * 2 ^ S.mantissaBitsWithoutImplicit := by
  rw [Float.Model.Format.mantissaBits, pow_add, pow_one]

theorem four_le_precision (S : Float.Model.Format) : (4 : ℚ) ≤ 2 ^ S.mantissaBits :=
  calc (4 : ℚ) = 2 ^ 2 := by norm_num
    _ ≤ 2 ^ S.mantissaBits := pow_le_pow_right₀ (by norm_num) (by
      have := S.hm
      unfold Float.Model.Format.mantissaBits
      omega)

/-! ## Numbers of a format -/

/-- The integer multiples of a power of two. -/
def Step (e : ℤ) (q : ℚ) : Prop := ∃ n : ℤ, q = n * 2 ^ e

theorem Step.of_le {e f : ℤ} (h : Step f q) (hef : e ≤ f) : Step e q := by
  obtain ⟨n, rfl⟩ := h
  refine ⟨n * 2 ^ (f - e).toNat, ?_⟩
  have hf : (2 : ℚ) ^ f = 2 ^ (f - e).toNat * 2 ^ e := by
    rw [← zpow_natCast, ← two_zpow_add, Int.toNat_of_nonneg (by omega), sub_add_cancel]
  rw [hf]
  push_cast
  ring

theorem Step.neg {e : ℤ} (h : Step e q) : Step e (-q) := by
  obtain ⟨n, rfl⟩ := h
  exact ⟨-n, by push_cast; ring⟩

theorem Step.add {e : ℤ} (hq : Step e q) (hr : Step e r) : Step e (q + r) := by
  obtain ⟨n, rfl⟩ := hq
  obtain ⟨k, rfl⟩ := hr
  exact ⟨n + k, by push_cast; ring⟩

theorem Step.sub {e : ℤ} (hq : Step e q) (hr : Step e r) : Step e (q - r) := by
  rw [sub_eq_add_neg]
  exact hq.add hr.neg

/-- Two multiples less than one step apart are equal. -/
theorem Step.eq_of_abs_lt {e : ℤ} (hq : Step e q) (hr : Step e r) (h : |r - q| < 2 ^ e) :
    r = q := by
  obtain ⟨n, rfl⟩ := hq
  obtain ⟨k, rfl⟩ := hr
  have hfactor : (k : ℚ) * 2 ^ e - n * 2 ^ e = ((k - n : ℤ) : ℚ) * 2 ^ e := by
    push_cast
    ring
  rw [hfactor, abs_mul, abs_of_pos (two_zpow_pos e), ← Int.cast_abs] at h
  have hlt : |k - n| < 1 := by
    have h1 := lt_of_mul_lt_mul_right (h.trans_eq (one_mul _).symm) (two_zpow_pos e).le
    exact_mod_cast h1
  rw [Int.abs_lt_one_iff, sub_eq_zero] at hlt
  rw [hlt]

/-- A number of the format, its exponent not bounded above. -/
def Representable (S : Float.Model.Format) (q : ℚ) : Prop :=
  ∃ n e : ℤ, |n| ≤ 2 ^ S.mantissaBits ∧ S.minExponent ≤ e ∧ q = n * 2 ^ e

namespace Representable

theorem neg (h : Representable S q) : Representable S (-q) := by
  obtain ⟨n, e, hn, he, rfl⟩ := h
  exact ⟨-n, e, by rwa [abs_neg], he, by push_cast; ring⟩

theorem abs (h : Representable S q) : Representable S |q| := by
  rcases abs_choice q with hq | hq <;> rw [hq]
  · exact h
  · exact h.neg

theorem step (h : Representable S q) : Step S.minExponent q := by
  obtain ⟨n, e, -, he, rfl⟩ := h
  exact Step.of_le ⟨n, rfl⟩ he

/-- An integer that fits the precision, times a power of two. -/
theorem natCast_mul {n : ℕ} (hn : n ≤ 2 ^ S.mantissaBits) {e : ℤ} (he : S.minExponent ≤ e) :
    Representable S (n * 2 ^ e) :=
  ⟨n, e, by rw [Nat.abs_cast]; exact_mod_cast hn, he, by push_cast; rfl⟩

theorem two_zpow {e : ℤ} (he : S.minExponent ≤ e) : Representable S (2 ^ e) := by
  simpa using natCast_mul (S := S) (n := 1) Nat.one_le_two_pow he

theorem zero (S : Float.Model.Format) : Representable S 0 := by
  simpa using natCast_mul (S := S) (n := 0) (Nat.zero_le _) (le_refl S.minExponent)

/-- Numbers of the format that are large take large steps. -/
theorem step_of_le (h : Representable S q) {e : ℤ}
    (hq : S.minExponent < e → 2 ^ S.mantissaBits * 2 ^ e ≤ 2 * |q|) : Step e q := by
  obtain ⟨n, f, hn, hf, rfl⟩ := h
  by_cases hef : e ≤ f
  · exact Step.of_le ⟨n, rfl⟩ hef
  -- the significand is the power of two that carries to the next exponent
  have hq := hq (by omega)
  have hn' : |(n : ℚ)| ≤ 2 ^ S.mantissaBits := by exact_mod_cast hn
  have hpos := two_zpow_pos f
  have h2 : 2 * (2 : ℚ) ^ f ≤ 2 ^ e := by
    rw [← zpow_one_add₀ (by norm_num)]
    exact two_zpow_le (by omega)
  rw [abs_mul, abs_of_pos hpos] at hq
  have hp := four_le_precision S
  have hfull : |(n : ℚ)| = 2 ^ S.mantissaBits := by
    refine le_antisymm hn' (le_of_mul_le_mul_right ?_ hpos)
    have := mul_le_mul_of_nonneg_left h2 (show (0 : ℚ) ≤ 2 ^ S.mantissaBits by linarith)
    linarith
  have he : (2 : ℚ) ^ e = 2 * 2 ^ f := by
    refine le_antisymm (le_of_mul_le_mul_left ?_ (show (0 : ℚ) < 2 ^ S.mantissaBits by linarith)) h2
    rw [hfull] at hq
    linarith
  have hstep : Step e (|(n : ℚ)| * 2 ^ f) :=
    ⟨2 ^ S.mantissaBitsWithoutImplicit, by
      rw [hfull, two_pow_precision, he]
      push_cast
      ring⟩
  rcases abs_choice (n : ℚ) with h | h <;> rw [h] at hstep
  · exact hstep
  · simpa using hstep.neg

end Representable

/-! ## Rounding -/

/-- `r` is a number of the format next to `q`. -/
def Rounds (S : Float.Model.Format) (q r : ℚ) : Prop :=
  ∃ n e : ℤ, |n| ≤ 2 ^ S.mantissaBits ∧ S.minExponent ≤ e ∧ r = n * 2 ^ e ∧ |r - q| ≤ 2 ^ e / 2 ∧
    (S.minExponent < e → 2 ^ S.mantissaBits * 2 ^ e ≤ 2 * |q|)

namespace Rounds

theorem representable (h : Rounds S q r) : Representable S r := by
  obtain ⟨n, e, hn, he, hr, -, -⟩ := h
  exact ⟨n, e, hn, he, hr⟩

theorem neg (h : Rounds S q r) : Rounds S (-q) (-r) := by
  obtain ⟨n, e, hn, he, hr, herr, hlow⟩ := h
  refine ⟨-n, e, by rwa [abs_neg], he, by rw [hr]; push_cast; ring, ?_, by rwa [abs_neg]⟩
  rwa [← neg_sub', abs_neg]

/-- **No number of the format is nearer.** -/
theorem nearest (h : Rounds S q r) (hb : Representable S b) : |r - q| ≤ |b - q| := by
  obtain ⟨n, e, hn, he, hr, herr, hlow⟩ := h
  have hpos := two_zpow_pos e
  -- among the multiples of the last place none is nearer
  have key : ∀ g : ℚ, Step e g → |r - q| ≤ |g - q| := fun g hg => by
    by_contra hlt
    rw [not_le] at hlt
    have hdist : |r - g| < 2 ^ e := by
      calc |r - g| = |(r - q) - (g - q)| := by ring_nf
        _ ≤ |r - q| + |g - q| := abs_sub _ _
        _ < 2 ^ e := by linarith
    rw [hg.eq_of_abs_lt ⟨n, hr⟩ hdist] at hlt
    exact lt_irrefl _ hlt
  by_cases hlarge : S.minExponent < e → 2 ^ S.mantissaBits * 2 ^ e ≤ 2 * |b|
  · exact key b (hb.step_of_le hlarge)
  · -- `b` is no larger than the smallest full significand, which lies between it and `q`
    push Not at hlarge
    obtain ⟨hmin, hb2⟩ := hlarge
    have hlow := hlow hmin
    have hstep : Step e (2 ^ S.mantissaBitsWithoutImplicit * 2 ^ e) :=
      ⟨2 ^ S.mantissaBitsWithoutImplicit, by push_cast; ring⟩
    rw [two_pow_precision] at hlow hb2
    obtain ⟨hbl, hbu⟩ := abs_le.mp
      (show |b| ≤ 2 ^ S.mantissaBitsWithoutImplicit * 2 ^ e by linarith)
    rcases le_total 0 q with hq | hq
    · rw [abs_of_nonneg hq] at hlow
      refine (key _ hstep).trans ?_
      rw [abs_of_nonpos (by linarith), abs_of_nonpos (by linarith)]
      linarith
    · rw [abs_of_nonpos hq] at hlow
      refine (key _ hstep.neg).trans ?_
      rw [abs_of_nonneg (by linarith), abs_of_nonneg (by linarith)]
      linarith

/-- **No value is rounded past a number of the format.** -/
theorem le (h : Rounds S q r) (hb : Representable S b) (hqb : q ≤ b) : r ≤ b := by
  have hnear := h.nearest hb
  rw [abs_of_nonneg (sub_nonneg.mpr hqb)] at hnear
  linarith [le_abs_self (r - q)]

theorem ge (h : Rounds S q r) (hb : Representable S b) (hbq : b ≤ q) : b ≤ r :=
  neg_le_neg_iff.mp (h.neg.le hb.neg (neg_le_neg hbq))

/-- Numbers of the format are left as they are. -/
theorem eq (h : Rounds S q r) (hq : Representable S q) : r = q :=
  le_antisymm (h.le hq (le_refl q)) (h.ge hq (le_refl q))

theorem bound (h : Rounds S q r) (hb : Representable S b) (hqb : |q| ≤ b) : |r| ≤ b := by
  rw [abs_le] at hqb ⊢
  exact ⟨h.ge hb.neg hqb.1, h.le hb hqb.2⟩

theorem nonneg (h : Rounds S q r) (hq : 0 ≤ q) : 0 ≤ r := h.ge (.zero S) hq

/-- What is off by more than one part in `2 ^ p` is off by half the smallest number at most. -/
theorem error (h : Rounds S q r) :
    2 ^ S.mantissaBits * |r - q| ≤ |q| ∨
      Step S.minExponent r ∧ |r - q| ≤ 2 ^ S.minExponent / 2 := by
  obtain ⟨n, e, hn, he, hr, herr, hlow⟩ := h
  rcases he.eq_or_lt with he | he
  · refine .inr ⟨⟨n, by rw [hr, he]⟩, by rwa [he]⟩
  · refine .inl ?_
    have hlow := hlow he
    have hmul : (2 : ℚ) ^ S.mantissaBits * |r - q| ≤ 2 ^ S.mantissaBits * (2 ^ e / 2) := by
      gcongr
    linarith

/-- A bound that is not among the smallest numbers bounds the error too. -/
theorem error_le (h : Rounds S q r) (hq : |q| ≤ b)
    (hb : 2 ^ S.mantissaBits * 2 ^ S.minExponent ≤ b) : 2 ^ S.mantissaBits * |r - q| ≤ b := by
  rcases h.error with h | ⟨-, h⟩
  · exact h.trans hq
  · have hpos : (0 : ℚ) < 2 ^ S.mantissaBits := by positivity
    have := mul_le_mul_of_nonneg_left h hpos.le
    have := mul_pos hpos (two_zpow_pos S.minExponent)
    linarith

/-- **The relative error** of a multiple of the smallest number, such as a sum. -/
theorem error_of_step (h : Rounds S q r) (hq : Step S.minExponent q) :
    2 ^ S.mantissaBits * |r - q| ≤ |q| := by
  rcases h.error with h | ⟨hr, h⟩
  · exact h
  · have hpos := two_zpow_pos S.minExponent
    rw [hq.eq_of_abs_lt hr (by linarith), sub_self, abs_zero, mul_zero]
    exact abs_nonneg q

theorem abs_le_double (h : Rounds S q r) : |r| ≤ 2 * |q| := by
  have hnear := h.nearest (.zero S)
  rw [zero_sub, abs_neg] at hnear
  linarith [abs_sub_abs_le_abs_sub r q]

theorem le_double (h : Rounds S q r) (hq : 0 ≤ q) : r ≤ 2 * q := by
  have := h.abs_le_double
  rw [abs_of_nonneg hq] at this
  exact (le_abs_self r).trans this

/-- **A small term is taken up** by a number of the format that bounds the rest. -/
theorem absorbed {x t : ℚ} (h : Rounds S (x + t) r) (hb : Representable S b) (hx : x ≤ b)
    (ht : 4 * 2 ^ S.mantissaBits * t ≤ b) : r ≤ b := by
  by_cases hqb : x + t ≤ b
  · exact h.le hb hqb
  by_contra hgt
  rw [not_le] at hqb hgt
  have hp : (0 : ℚ) < 2 ^ S.mantissaBits := by positivity
  have ht0 : 0 < t := by linarith
  have hb0 : 0 < b := (by positivity : 0 < 4 * 2 ^ S.mantissaBits * t).trans_le ht
  have hnear := h.nearest hb
  rw [abs_of_nonpos (by linarith : b - (x + t) ≤ 0)] at hnear
  have hclose : r - b ≤ 2 * t := by linarith [le_abs_self (r - (x + t))]
  -- the step that numbers of the size of the bound take
  obtain ⟨e, hle, hlt⟩ := exists_mem_Ico_zpow (show 0 < 2 * b / 2 ^ S.mantissaBits by positivity)
    (show (1 : ℚ) < 2 by norm_num)
  rw [le_div_iff₀ hp] at hle
  rw [div_lt_iff₀ hp, zpow_add_one₀ (by norm_num)] at hlt
  have hbstep : Step e b := hb.step_of_le fun _ => by
    rw [abs_of_pos hb0]
    linarith
  have hrstep : Step e r := h.representable.step_of_le fun _ => by
    rw [abs_of_pos (hb0.trans hgt)]
    linarith
  refine hgt.ne' (hbstep.eq_of_abs_lt hrstep ?_)
  rw [abs_of_pos (sub_pos.mpr hgt)]
  refine hclose.trans_lt (lt_of_mul_lt_mul_left ?_ hp.le)
  linarith

end Rounds

/-! ## Ties -/

/-- What is off by half a unit is even in that unit. -/
def Ties (q r : ℚ) : Prop := ∀ e : ℤ, |r - q| = 2 ^ e / 2 → Step (e + 1) r

theorem Ties.refl (q : ℚ) : Ties q q := fun e h => by
  have := two_zpow_pos e
  rw [sub_self, abs_zero] at h
  linarith

theorem Step.mul_pow {e : ℤ} (h : Step e q) (c : ℕ) : Step (e + c) (2 ^ c * q) := by
  obtain ⟨n, rfl⟩ := h
  exact ⟨n, by rw [two_zpow_add, zpow_natCast]; ring⟩

theorem Representable.mul_pow (h : Representable S q) (c : ℕ) : Representable S (2 ^ c * q) := by
  obtain ⟨n, e, hn, he, rfl⟩ := h
  exact ⟨n, e + c, hn, by omega, by rw [two_zpow_add, zpow_natCast]; ring⟩

/-- A sum that is rounded down is not among the smallest numbers, where sums are exact: its result
is a multiple of its last place with a full significand. -/
theorem Rounds.exists_step_of_lt (h : Rounds S q r) (hq : Step S.minExponent q) (hq0 : 0 ≤ q)
    (hrq : r < q) :
    ∃ e, Step e r ∧ 2 ^ S.mantissaBits * 2 ^ e ≤ 2 * r ∧ q - r ≤ 2 ^ e / 2 := by
  obtain ⟨n, e, -, he, hr, herr, hlow⟩ := id h
  have hpos := two_zpow_pos e
  have hstep : Step e r := ⟨n, hr⟩
  have hmin : S.minExponent < e := by
    refine he.lt_of_ne fun he => hrq.ne ?_
    exact (he ▸ hq).eq_of_abs_lt hstep (by linarith)
  have hlow := hlow hmin
  have hcarry : Representable S (2 ^ S.mantissaBitsWithoutImplicit * 2 ^ e) := by
    have hn : 2 ^ S.mantissaBitsWithoutImplicit ≤ 2 ^ S.mantissaBits :=
      Nat.pow_le_pow_right (by decide) (Nat.le_add_left _ _)
    exact_mod_cast Representable.natCast_mul hn he
  rw [abs_of_nonneg hq0, two_pow_precision] at hlow
  rw [abs_of_nonpos (by linarith)] at herr
  refine ⟨e, hstep, ?_, by linarith⟩
  rw [two_pow_precision]
  linarith [h.ge hcarry (by linarith)]

/-- **Rounding a sum commutes with doubling it**, if ties go to the even number: what is no more
than a power of two times the sum is rounded to no more than that times the rounded sum. -/
theorem Rounds.scaled_le {q' r' : ℚ} {c : ℕ} (h : Rounds S q r) (ht : Ties q r)
    (hq : Step S.minExponent q) (hq0 : 0 ≤ q) (h' : Rounds S q' r') (ht' : Ties q' r')
    (hle : q' ≤ 2 ^ c * q) : r' ≤ 2 ^ c * r := by
  have hrep : Representable S (2 ^ c * r) := h.representable.mul_pow c
  by_contra hgt
  have hlt : 2 ^ c * r < q' := not_le.mp fun hq' => hgt (h'.le hrep hq')
  rw [not_le] at hgt
  have hc : (0 : ℚ) < 2 ^ c := by positivity
  have hrq : r < q := lt_of_mul_lt_mul_left (hlt.trans_le hle) hc.le
  obtain ⟨e, hstep, hfull, herr⟩ := h.exists_step_of_lt hq hq0 hrq
  have hscale : (2 : ℚ) ^ (e + c) = 2 ^ c * 2 ^ e := by rw [two_zpow_add, zpow_natCast, mul_comm]
  have hr0 : 0 ≤ 2 ^ c * r := mul_nonneg hc.le (h.nonneg hq0)
  have hrstep : Step (e + c) r' := h'.representable.step_of_le fun _ => by
    rw [abs_of_pos (hr0.trans_lt hgt), hscale]
    linarith [mul_le_mul_of_nonneg_left hfull hc.le]
  have hgap : 2 ^ (e + c) ≤ r' - 2 ^ c * r := by
    by_contra hclose
    rw [not_le, ← abs_of_pos (sub_pos.mpr hgt)] at hclose
    exact hgt.ne' ((hstep.mul_pow c).eq_of_abs_lt hrstep hclose)
  have hnear : r' - q' ≤ q' - 2 ^ c * r := by
    have hnear := h'.nearest hrep
    rw [abs_of_nonpos (by linarith : 2 ^ c * r - q' ≤ 0)] at hnear
    linarith [le_abs_self (r' - q')]
  have hhalf : 2 ^ c * (q - r) ≤ 2 ^ (e + c) / 2 := by
    rw [hscale]
    linarith [mul_le_mul_of_nonneg_left herr hc.le]
  -- nothing is left between these bounds: both are ties, but the numbers are one step apart
  have htie : |r - q| = 2 ^ e / 2 := by
    rw [abs_of_nonpos (by linarith)]
    refine mul_left_cancel₀ hc.ne' ?_
    rw [hscale] at hgap hhalf
    linarith
  have htie' : |r' - q'| = 2 ^ (e + c) / 2 := by
    rw [abs_of_nonneg (by linarith)]
    linarith
  have heven : Step (e + c + 1) (2 ^ c * r) := by
    have := (ht e htie).mul_pow c
    rwa [add_right_comm] at this
  refine hgt.ne' (heven.eq_of_abs_lt (ht' _ htie') ?_)
  have := two_zpow_pos (e + c)
  rw [abs_of_pos (sub_pos.mpr hgt), zpow_add_one₀ (by norm_num)]
  linarith

end RunningStats.Binary
