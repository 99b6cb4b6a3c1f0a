import RunningStats.Proofs.Binary.Location

/-!
# Compensated sums of amounts

A rounded compensated sum of terms that are not below zero, and what becomes of it in merges, where
also the compensation of the other sum is added, which has either sign.

* `CompensatedSum.Steady`: the sum is not below zero and its compensation a few last places of it,
  as long as it is finite. Additions and merges keep this whatever the size of the terms
  (`Steady.add`, `Steady.merge`), though one of the sums may overflow at any time.
* `CompensatedSum.Capped e k`: the sum is finite, steady and at most `k` units of `2 ^ e`, and so is
  what it represents. A term of one unit adds three to the bound, a merge five to the bounds of its
  operands (`Capped.add`, `Capped.merge`); a merge into the empty sum must not add any, as there may
  be any number of these, and does not, as it makes no error at all (`Binary.compensation_exact`,
  `Capped.empty_merge`).
* **`Summary.SumsBelow.tracks`**: both for the sums that a summary keeps of the values below zero,
  in every session, with eight units for each observation.
-/

namespace RunningStats

open Binary (Rounds Representable Step limit)
open RoundedScalar BinaryScalar

/-! ## One addition, on the rational numbers -/

namespace Binary

variable {S : Float.Model.Format}

/-- A bound of a multiple bounds the value too. -/
theorem coarse_error {n e b : ℚ} (hn : 256 ≤ n) (h : n * |e| ≤ b) : 256 * |e| ≤ b :=
  (mul_le_mul_of_nonneg_right hn (abs_nonneg e)).trans h

/-- A sum `s`, its compensation a few last places of it, takes in a term that is not far below zero:
what is added, the term less the compensation, is no larger than the new sum. -/
theorem abs_term_le {n s c x y : ℚ} (hn : 256 ≤ n) (hy : n * |y - (x - c)| ≤ |x - c|) (hs : 0 ≤ s)
    (hc : n * |c| ≤ 4 * s) (hx : -(8 * s) ≤ n * x) :
    |y| ≤ s + y ∧ (0 ≤ x → 255 * x ≤ 256 * (s + y)) := by
  have hc1 := coarse_error hn hc
  have hx1 : -(8 * s) ≤ 256 * x := by
    rcases le_total 0 x with h | h
    · linarith
    · exact hx.trans (mul_le_mul_of_nonpos_right hn h)
  have hy1 := coarse_error hn hy
  have hcl := neg_abs_le c
  have hcu := le_abs_self c
  have hyl := neg_abs_le (y - (x - c))
  have hylow : -s ≤ 16 * y ∧ (0 ≤ x → 255 * x ≤ 256 * (s + y)) := by
    rcases le_total 0 (x - c) with h | h
    · rw [abs_of_nonneg h] at hy1
      exact ⟨by linarith, fun _ => by linarith⟩
    · rw [abs_of_nonpos h] at hy1
      exact ⟨by linarith, fun _ => by linarith⟩
  refine ⟨abs_le.mpr ⟨?_, ?_⟩, hylow.2⟩ <;> linarith

/-- The new sum is not much smaller than the exact one, and what the two subtractions leave of its
rounding is a few last places of it. -/
theorem abs_residue_le {n s y t d : ℚ} (hn : 256 ≤ n) (hy : |y| ≤ s + y)
    (ht : n * |t - (s + y)| ≤ |s + y|) (hd : n * |d - (t - s)| ≤ |t - s|) :
    255 * (s + y) ≤ 256 * t ∧ n * |d - y| ≤ 7 / 2 * t := by
  have hz : 0 ≤ s + y := (abs_nonneg y).trans hy
  rw [abs_of_nonneg hz] at ht
  have ht1 := coarse_error hn ht
  have htl := neg_abs_le (t - (s + y))
  have hts : |t - s| ≤ 2 * (s + y) := by
    have h := abs_add_le (t - (s + y)) y
    rw [show t - (s + y) + y = t - s by ring] at h
    linarith
  refine ⟨by linarith, ?_⟩
  have h := abs_add_le (d - (t - s)) (t - (s + y))
  rw [show d - (t - s) + (t - (s + y)) = d - y by ring] at h
  have := mul_le_mul_of_nonneg_left h (show 0 ≤ n by linarith)
  linarith

/-- The compensation after the step. -/
theorem abs_compensation_le {n t d c : ℚ} (hn : 256 ≤ n) (hd : n * |d| ≤ 7 / 2 * t)
    (hc : n * |c - d| ≤ |d|) : n * |c| ≤ 4 * t := by
  have h := abs_add_le (c - d) d
  rw [sub_add_cancel] at h
  have hmul := mul_le_mul_of_nonneg_left h (show 0 ≤ n by linarith)
  have hd1 := coarse_error hn hd
  linarith [abs_nonneg d]

/-- The difference of two numbers of the format that are no more than twice each other is one. -/
theorem representable_sub {a b : ℚ} (ha : Rounds S a a) (hb : Rounds S b b) (h0 : 0 ≤ a)
    (hab : a ≤ 2 * b) (hba : b ≤ 2 * a) : Representable S (a - b) := by
  -- the smaller one has the smaller step, and the difference is no larger than it
  have key {x y : ℚ} (hx : Rounds S x x) (hy : Rounds S y y) (hx0 : 0 ≤ x) (hxy : x ≤ y)
      (hyx : y ≤ 2 * x) : Representable S (y - x) := by
    obtain ⟨n, e, hn, he, hxe, -, hlow⟩ := hx
    rw [abs_of_nonneg hx0] at hlow
    have hstep : Step e y := hy.representable.step_of_le fun h => by
      rw [abs_of_nonneg (hx0.trans hxy)]
      linarith [hlow h]
    obtain ⟨k, hk⟩ := hstep.sub ⟨n, hxe⟩
    refine ⟨k, e, ?_, he, hk⟩
    have hle : |(k : ℚ)| * 2 ^ e ≤ |(n : ℚ)| * 2 ^ e := by
      rw [← abs_of_pos (two_zpow_pos e), ← abs_mul, ← abs_mul, ← hk, ← hxe,
        abs_of_nonneg hx0, abs_of_nonneg (sub_nonneg.mpr hxy)]
      linarith
    have hkn := le_of_mul_le_mul_right hle (two_zpow_pos e)
    exact (by exact_mod_cast hkn : |k| ≤ |n|).trans hn
  rcases le_total a b with h | h
  · have := (key ha hb h0 h hba).neg
    rwa [neg_sub] at this
  · exact key hb ha (by linarith) h hab

/-- **The rounding of a sum is recovered without error** if the second term is small. -/
theorem compensation_exact {s y t d c : ℚ} (hs : Rounds S s s) (hy : Rounds S y y)
    (ht : Rounds S t t) (hsum : Rounds S (s + y) t) (hd : Rounds S (t - s) d)
    (hc : Rounds S (d - y) c) (hsmall : 4 * |y| ≤ s) : c = t - s - y := by
  have hp := four_le_precision S
  have h0 : 0 ≤ s := (mul_nonneg (by norm_num) (abs_nonneg y)).trans hsmall
  obtain ⟨hyl, hyu⟩ := abs_le.mp (show |y| ≤ s / 4 by linarith)
  have hty : |y| ≤ t := hsum.ge hy.representable.abs (by linarith [abs_nonneg y])
  have hts : t ≤ 2 * s ∧ s ≤ 2 * t := by
    have herr := hsum.error_of_step (hs.representable.step.add hy.representable.step)
    rw [abs_of_nonneg (show 0 ≤ s + y by linarith)] at herr
    have hcoarse := (mul_le_mul_of_nonneg_right hp (abs_nonneg (t - (s + y)))).trans herr
    obtain ⟨hl, hu⟩ := abs_le.mp (show |t - (s + y)| ≤ (s + y) / 4 by linarith)
    constructor <;> linarith
  -- the first subtraction is exact
  have hdt : d = t - s :=
    hd.eq (representable_sub ht hs (by linarith [hty, abs_nonneg y]) hts.1 hts.2)
  rw [hdt] at hc
  -- so is the second: the error is a multiple of the last place of the term, and no larger than it
  refine hc.eq ?_
  obtain ⟨n, e, hn, he, hye, -, hlow⟩ := hy
  have hstep {b : ℚ} (hb : Representable S b) (hyb : |y| ≤ |b|) : Step e b :=
    hb.step_of_le fun h => by linarith [hlow h]
  have herr : Step e (t - s - y) :=
    ((hstep ht.representable (by rwa [abs_of_nonneg ((abs_nonneg y).trans hty)])).sub
      (hstep hs.representable (by rw [abs_of_nonneg h0]; linarith [abs_nonneg y]))).sub ⟨n, hye⟩
  obtain ⟨k, hk⟩ := herr
  refine ⟨k, e, ?_, he, hk⟩
  have hnear := hsum.nearest hs.representable
  have hle : |(k : ℚ)| * 2 ^ e ≤ |(n : ℚ)| * 2 ^ e := by
    rw [← abs_of_pos (two_zpow_pos e), ← abs_mul, ← abs_mul, ← hk, ← hye]
    rwa [show t - (s + y) = t - s - y by ring, show s - (s + y) = -y by ring, abs_neg] at hnear
  have hkn := le_of_mul_le_mul_right hle (two_zpow_pos e)
  exact (by exact_mod_cast hkn : |k| ≤ |n|).trans hn

end Binary

/-! ## Sums that stay steady -/

namespace CompensatedSum

variable {α : Type} [Scalar α] [BinaryScalar α] {s t : CompensatedSum α} {x : α}

/-- As long as the sum is finite it is not below zero, and the compensation is finite too and a few
last places of it. -/
def Steady (s : CompensatedSum α) : Prop :=
  Scalar.isFinite s.sum → 0 ≤ toRat s.sum ∧ Scalar.isFinite s.compensation ∧
    2 ^ (spec α).mantissaBits * |toRat s.compensation| ≤ 4 * toRat s.sum

theorem steady_empty : Steady (empty : CompensatedSum α) := fun h => by
  have hz : toRat (empty : CompensatedSum α).compensation = 0 := toRat_zero
  rw [hz, show toRat (empty : CompensatedSum α).sum = 0 from toRat_zero]
  exact ⟨le_refl _, h, by simp⟩

/-- What an addition goes through, where the new sum is finite. -/
theorem rounds_of_add (h : Scalar.isFinite (s.add x).sum) :
    Scalar.isFinite s.sum ∧ Scalar.isFinite x ∧ Scalar.isFinite (x - s.compensation) ∧
      Rounds (spec α) (toRat x - toRat s.compensation) (toRat (x - s.compensation)) ∧
      Rounds (spec α) (toRat s.sum + toRat (x - s.compensation)) (toRat (s.add x).sum) := by
  obtain ⟨hs, hy⟩ := finite_of_add h
  obtain ⟨hx, hc⟩ := finite_of_sub hy
  exact ⟨hs, hx, hy, (nearest_sub hx hc).rounds hy, (nearest_add hs hy).rounds h⟩

/-- **An addition keeps the sum steady**, and the new sum is not much smaller than the term. -/
theorem Steady.add (hs : Steady s) (hx : Scalar.isFinite s.sum → Scalar.isFinite x →
    -(8 * toRat s.sum) ≤ 2 ^ (spec α).mantissaBits * toRat x) :
    Steady (s.add x) ∧
      (Scalar.isFinite (s.add x).sum → 0 ≤ toRat x → toRat x ≤ 2 * toRat (s.add x).sum) := by
  have key : Scalar.isFinite (s.add x).sum → (0 ≤ toRat (s.add x).sum ∧
      Scalar.isFinite (s.add x).compensation ∧ 2 ^ (spec α).mantissaBits *
        |toRat (s.add x).compensation| ≤ 4 * toRat (s.add x).sum) ∧
      (0 ≤ toRat x → toRat x ≤ 2 * toRat (s.add x).sum) := fun h => by
    obtain ⟨hfs, hfx, hfy, hy, ht⟩ := rounds_of_add h
    obtain ⟨h0, hfc, hc⟩ := hs hfs
    have hp := two_pow_le_precision (α := α)
    have hys := (representable (x - s.compensation)).step
    have hss := (representable s.sum).step
    have hts := (representable (s.add x).sum).step
    obtain ⟨hyz, hxz⟩ := Binary.abs_term_le hp
      (hy.error_of_step ((representable x).step.sub (representable s.compensation).step))
      h0 hc (hx hfs hfx)
    have ht0 : 0 ≤ toRat (s.add x).sum := ht.nonneg ((abs_nonneg _).trans hyz)
    -- both subtractions stay within the sums
    obtain ⟨hfd, -, -⟩ := (nearest_sub h hfs).between (x := -s.sum) (y := (s.add x).sum)
      (by rw [toRat_neg]; linarith) (by linarith)
    have hd := (nearest_sub h hfs).rounds hfd
    obtain ⟨htz, hres⟩ := Binary.abs_residue_le hp hyz (ht.error_of_step (hss.add hys))
      (hd.error_of_step (hts.sub hss))
    have hres1 := Binary.coarse_error hp hres
    obtain ⟨hrl, hru⟩ := abs_le.mp (show |toRat ((s.add x).sum - s.sum) -
      toRat (x - s.compensation)| ≤ toRat (s.add x).sum by linarith)
    obtain ⟨hfc', -, -⟩ := (nearest_sub hfd hfy).between (x := -(s.add x).sum)
      (y := (s.add x).sum) (by rwa [toRat_neg]) hru
    have hc' := ((nearest_sub hfd hfy).rounds hfc').error_of_step
      ((representable ((s.add x).sum - s.sum)).step.sub hys)
    exact ⟨⟨ht0, hfc', Binary.abs_compensation_le hp hres hc'⟩, fun hx0 => by
      linarith [hxz hx0]⟩
  exact ⟨fun h => (key h).1, fun h => (key h).2⟩

/-- **A merge keeps the sum steady.** -/
theorem Steady.merge (hs : Steady s) (ht : Steady t) : Steady (s.merge t) := by
  have hp := two_pow_le_precision (α := α)
  obtain ⟨hadd, hle⟩ := hs.add (x := t.sum) fun hfs hft => by
    have h0 := (ht hft).1
    have hpos := mul_nonneg (show (0 : ℚ) ≤ 2 ^ (spec α).mantissaBits by linarith) h0
    linarith [(hs hfs).1]
  refine (hadd.add fun hf hfc => ?_).1
  -- the compensation taken over is a few last places of a sum that is in the new one
  obtain ⟨-, hft, -, -, -⟩ := rounds_of_add hf
  obtain ⟨h0, -, hc⟩ := ht hft
  rw [toRat_neg]
  have := hle hf h0
  have habs := mul_le_mul_of_nonneg_left (le_abs_self (toRat t.compensation))
    (show (0 : ℚ) ≤ 2 ^ (spec α).mantissaBits by linarith)
  linarith

/-! ## Sums that stay below a bound -/

/-- The compensation is one unit at most, if the precision holds some more units than the sum. -/
theorem Steady.abs_compensation_le {e k : ℕ} (h : Steady s) (hf : Scalar.isFinite s.sum)
    (hs : toRat s.sum ≤ k * 2 ^ e) (hk : 4 * k ≤ 2 ^ (spec α).mantissaBits) :
    |toRat s.compensation| ≤ 2 ^ e := by
  obtain ⟨-, -, hc⟩ := h hf
  have hk' : (4 * k : ℚ) ≤ 2 ^ (spec α).mantissaBits := by exact_mod_cast hk
  have hp := two_pow_le_precision (α := α)
  refine le_of_mul_le_mul_left (hc.trans ?_) (show (0 : ℚ) < 2 ^ (spec α).mantissaBits by linarith)
  calc 4 * toRat s.sum ≤ 4 * k * 2 ^ e := by linarith
    _ ≤ 2 ^ (spec α).mantissaBits * 2 ^ e := by gcongr

/-- A finite, steady sum of at most `k` units of `2 ^ e`, less its compensation or not. -/
structure Capped (e k : ℕ) (s : CompensatedSum α) : Prop where
  finite : Scalar.isFinite s.sum
  steady : Steady s
  sum_le : toRat s.sum ≤ k * 2 ^ e
  total_le : toRat s.sum - toRat s.compensation ≤ k * 2 ^ e

theorem capped_empty (e k : ℕ) : Capped e k (empty : CompensatedSum α) := by
  have hs : toRat (empty : CompensatedSum α).sum = 0 := toRat_zero
  have hc : toRat (empty : CompensatedSum α).compensation = 0 := toRat_zero
  have hk : (0 : ℚ) ≤ k * 2 ^ e := by positivity
  exact ⟨isFinite_of_isZero isZero_zero, steady_empty, by rwa [hs], by rwa [hs, hc, sub_zero]⟩

namespace Capped

variable {e k l : ℕ}

theorem mono (h : Capped e k s) (hkl : k ≤ l) : Capped e l s := by
  have hle : (k : ℚ) * 2 ^ e ≤ l * 2 ^ e := by gcongr
  exact ⟨h.finite, h.steady, h.sum_le.trans hle, h.total_le.trans hle⟩

/-- **A term adds its own bound**, and two units for the compensations. -/
theorem add (h : Capped e k s) (hx : Scalar.isFinite x) (hxl : |toRat x| ≤ l * 2 ^ e)
    (hlow : -(8 * toRat s.sum) ≤ 2 ^ (spec α).mantissaBits * toRat x)
    (hk : 4 * (k + l + 2) ≤ 2 ^ (spec α).mantissaBits)
    (hlimit : ((k + l + 2 : ℕ) : ℚ) * 2 ^ e < limit (spec α)) : Capped e (k + l + 2) (s.add x) := by
  obtain ⟨h0, hfc, -⟩ := h.steady h.finite
  have hsum := h.sum_le
  have hc := h.steady.abs_compensation_le h.finite hsum (by omega)
  have hu : (0 : ℚ) < 2 ^ e := by positivity
  have hbelow {j : ℕ} (hj : j ≤ k + l + 2) : (j : ℚ) * 2 ^ e < limit (spec α) :=
    lt_of_le_of_lt (by gcongr) hlimit
  have hrep {j : ℕ} (hj : j ≤ k + l + 2) := representable_mul_pow α (show j ≤ _ by omega) e
  have hxc : |toRat x - toRat s.compensation| ≤ ((l + 1 : ℕ) : ℚ) * 2 ^ e := by
    push_cast
    linarith [abs_sub (toRat x) (toRat s.compensation)]
  have hfy := (nearest_sub hx hfc).finite (hrep (by omega)) (hbelow (by omega)) hxc
  have hy := ((nearest_sub hx hfc).rounds hfy).bound (hrep (by omega)) hxc
  have hst : |toRat s.sum + toRat (x - s.compensation)| ≤ ((k + l + 1 : ℕ) : ℚ) * 2 ^ e := by
    push_cast at hy ⊢
    linarith [abs_add_le (toRat s.sum) (toRat (x - s.compensation)), abs_of_nonneg h0]
  have hft : Scalar.isFinite (s.add x).sum :=
    (nearest_add h.finite hfy).finite (hrep (by omega)) (hbelow (by omega)) hst
  have hsteady := (h.steady.add (x := x) fun _ _ => hlow).1
  have ht : toRat (s.add x).sum ≤ ((k + l + 1 : ℕ) : ℚ) * 2 ^ e :=
    (le_abs_self _).trans (((nearest_add h.finite hfy).rounds hft).bound (hrep (by omega)) hst)
  have hle : ((k + l + 1 : ℕ) : ℚ) * 2 ^ e ≤ ((k + l + 2 : ℕ) : ℚ) * 2 ^ e := by
    gcongr
    omega
  refine ⟨hft, hsteady, ht.trans hle, ?_⟩
  -- the compensation is within the unit that the bound leaves
  have hc' := hsteady.abs_compensation_le hft ht (by omega)
  push_cast at ht ⊢
  linarith [neg_abs_le (toRat (s.add x).compensation)]

/-- **A merge adds the bounds**, and some units for the compensations. -/
theorem merge (hs : Capped e k s) (ht : Capped e l t)
    (hk : 4 * (k + l + 5) ≤ 2 ^ (spec α).mantissaBits)
    (hlimit : ((k + l + 5 : ℕ) : ℚ) * 2 ^ e < limit (spec α)) :
    Capped e (k + l + 5) (s.merge t) := by
  have hp := two_pow_le_precision (α := α)
  obtain ⟨hs0, -, -⟩ := hs.steady hs.finite
  obtain ⟨ht0, hfc, hc⟩ := ht.steady ht.finite
  have hlimit' : ((k + l + 2 : ℕ) : ℚ) * 2 ^ e < limit (spec α) :=
    lt_of_le_of_lt (by gcongr; omega) hlimit
  have hlow : -(8 * toRat s.sum) ≤ 2 ^ (spec α).mantissaBits * toRat t.sum := by
    have := mul_nonneg (show (0 : ℚ) ≤ 2 ^ (spec α).mantissaBits by linarith) ht0
    linarith
  have hadd := hs.add (x := t.sum) (l := l) ht.finite (by rw [abs_of_nonneg ht0]; exact ht.sum_le)
    hlow (by omega) hlimit'
  have hle := (hs.steady.add (x := t.sum) fun _ _ => hlow).2 hadd.finite ht0
  have hone := ht.steady.abs_compensation_le ht.finite ht.sum_le (by omega)
  refine hadd.add (x := -t.compensation) (l := 1) (isFinite_neg.mpr hfc) ?_ ?_ (by omega)
    (by push_cast at hlimit ⊢; linarith)
  · rw [toRat_neg, abs_neg]
    simpa using hone
  · rw [toRat_neg]
    have := mul_le_mul_of_nonneg_left (le_abs_self (toRat t.compensation))
      (show (0 : ℚ) ≤ 2 ^ (spec α).mantissaBits by linarith)
    linarith

end Capped

/-- What is added to the empty sum is the sum, and nothing is pending. -/
theorem empty_add (hx : Scalar.isFinite x) :
    Scalar.isFinite ((empty : CompensatedSum α).add x).sum ∧
      toRat ((empty : CompensatedSum α).add x).sum = toRat x ∧
      Scalar.isFinite ((empty : CompensatedSum α).add x).compensation ∧
      toRat ((empty : CompensatedSum α).add x).compensation = 0 := by
  have hz : Scalar.isFinite (0 : α) := isFinite_of_isZero isZero_zero
  have hy := nearest_sub hx hz
  rw [toRat_zero, sub_zero] at hy
  obtain ⟨hfy, hy⟩ := hy.exact
  have ht := nearest_add hz hfy
  rw [toRat_zero, zero_add, hy] at ht
  obtain ⟨hft, ht⟩ := ht.exact
  have hd := nearest_sub hft hz
  rw [toRat_zero, sub_zero, ht] at hd
  obtain ⟨hfd, hd⟩ := hd.exact
  have hc := nearest_sub hfd hfy
  rw [hd, hy, sub_self, ← toRat_zero (α := α)] at hc
  obtain ⟨hfc, hc⟩ := hc.exact
  exact ⟨hft, ht, hfc, hc.trans toRat_zero⟩

/-- **Merging into the empty sum** keeps the bound: what is pending is small against the sum, so
taking it in and recovering it makes no error. -/
theorem Capped.empty_merge {e k : ℕ} (h : Capped e k t)
    (hk : 4 * k ≤ 2 ^ (spec α).mantissaBits) (hlimit : (k : ℚ) * 2 ^ e < limit (spec α)) :
    Capped e k (empty.merge t) := by
  have hp := two_pow_le_precision (α := α)
  obtain ⟨h0, hfc, hc⟩ := h.steady h.finite
  obtain ⟨hf1, hs1, hfc1, hc1⟩ := empty_add h.finite
  have hsmall := Binary.coarse_error hp hc
  have hsteady : Steady ((empty : CompensatedSum α).merge t) := steady_empty.merge h.steady
  have hyn := nearest_sub (isFinite_neg.mpr hfc) hfc1
  rw [hc1, sub_zero] at hyn
  obtain ⟨hfy, hy⟩ := hyn.exact
  rw [toRat_neg] at hy
  have htn := nearest_add hf1 hfy
  rw [hs1, hy, ← sub_eq_add_neg] at htn
  have hrep := representable_mul_pow α (show k ≤ _ by omega) e
  have hpos : 0 ≤ toRat t.sum - toRat t.compensation := by
    linarith [le_abs_self (toRat t.compensation)]
  have hft := htn.finite hrep hlimit (by rw [abs_of_nonneg hpos]; exact h.total_le)
  have ht := htn.rounds hft
  refine ⟨hft, hsteady, ht.le hrep h.total_le, ?_⟩
  obtain ⟨-, hfc', -⟩ := hsteady hft
  obtain ⟨hfd, -⟩ := finite_of_sub hfc'
  have hexact := Binary.compensation_exact (rounds_self _) (rounds_self _) (rounds_self _)
    ((nearest_add hf1 hfy).rounds hft) ((nearest_sub hft hf1).rounds hfd)
    ((nearest_sub hfd hfy).rounds hfc') (by rw [hy, hs1, abs_neg]; linarith)
  have hc' : toRat ((empty : CompensatedSum α).merge t).compensation =
      toRat ((empty : CompensatedSum α).merge t).sum - toRat t.sum + toRat t.compensation := by
    rw [hy, hs1, sub_neg_eq_add] at hexact
    exact hexact
  rw [hc']
  linarith [h.total_le]

end CompensatedSum

/-! ## The sums below zero of a session -/

namespace Summary

open CompensatedSum

variable {α : Type} [Scalar α] [BinaryScalar α] {s t : Summary α} {o : Observation α}
  {H K : Multiset (Observation α)} {total : Summary α → CompensatedSum α}
  {term : Observation α → α} {e : ℕ}

/-- A compensated sum, kept by summaries, of a term of the observations below zero that is not
below zero itself. -/
structure SumsBelow (total : Summary α → CompensatedSum α) (term : Observation α → α) : Prop where
  empty : total empty = .empty
  commit : ∀ s o, total (s.commit o) = if o.value < 0 then (total s).add (term o) else total s
  merge : ∀ s t, t.samples ≠ 0 → total (s.merge t) = (total s).merge (total t)
  nonneg : ∀ o, o.Valid → o.value < 0 → Scalar.isFinite (term o) → 0 ≤ toRat (term o)

theorem sumsBelow_weight : SumsBelow (α := α) (·.downsideWeight) (·.weight) where
  empty := rfl
  commit _ _ := rfl
  merge s t h := by
    show (s.merge t).downsideWeight = _
    rw [Summary.merge, if_neg h]
  nonneg _ ho _ _ := (toRat_nonneg_iff ho.1).mp ho.2.1

theorem sumsBelow_squares :
    SumsBelow (α := α) (·.downsideSquares) fun o => o.weight * o.value * o.value where
  empty := rfl
  commit _ _ := rfl
  merge s t h := by
    show (s.merge t).downsideSquares = _
    rw [Summary.merge, if_neg h]
  nonneg o ho hneg hf := by
    obtain ⟨hwv, hv⟩ := finite_of_mul hf
    obtain ⟨hw, -⟩ := finite_of_mul hwv
    have hz : Scalar.isFinite (0 : α) := isFinite_of_isZero isZero_zero
    rw [lt_iff_toRat hv hz, toRat_zero] at hneg
    have h0 := (toRat_nonneg_iff ho.1).mp ho.2.1
    have hle : toRat (o.weight * o.value) ≤ 0 :=
      ((nearest_mul hw hv).rounds hwv).le (.zero _) (mul_nonpos_of_nonneg_of_nonpos h0 hneg.le)
    exact ((nearest_mul hwv hv).rounds hf).nonneg (mul_nonneg_of_nonpos_of_nonpos hle hneg.le)

namespace SumsBelow

variable (h : SumsBelow total term)
include h

theorem steady_commit (hs : Steady (total s)) (ho : o.Valid) : Steady (total (s.commit o)) := by
  rw [h.commit]
  split
  · rename_i hneg
    refine (hs.add fun hfs hft => ?_).1
    have hp := two_pow_le_precision (α := α)
    have hpos := mul_nonneg (show (0 : ℚ) ≤ 2 ^ (spec α).mantissaBits by linarith)
      (h.nonneg o ho hneg hft)
    linarith [(hs hfs).1]
  · exact hs

theorem steady_merge (hs : Steady (total s)) (ht : Steady (total t)) :
    Steady (total (s.merge t)) := by
  by_cases h0 : t.samples = 0
  · rw [Summary.merge, if_pos h0]
    exact hs
  · rw [h.merge s t h0]
    exact hs.merge ht

/-- A term of one unit at most adds eight to the bound. -/
theorem capped_commit (hs : Capped e (8 * H.card - 5) (total s)) (ho : o.Valid)
    (hterm : o.value < 0 → Scalar.isFinite (term o) ∧ toRat (term o) ≤ 2 ^ e)
    (hp : 32 * (H.card + 1) ≤ 2 ^ (spec α).mantissaBits)
    (hlimit : ((8 * (H.card + 1) : ℕ) : ℚ) * 2 ^ e < limit (spec α)) :
    Capped e (8 * (o ::ₘ H).card - 5) (total (s.commit o)) := by
  rw [h.commit, Multiset.card_cons]
  split
  · rename_i hneg
    obtain ⟨hft, hle⟩ := hterm hneg
    have h0 := h.nonneg o ho hneg hft
    obtain ⟨hs0, -⟩ := hs.steady hs.finite
    have hmul := mul_nonneg (show (0 : ℚ) ≤ 2 ^ (spec α).mantissaBits by positivity) h0
    refine (hs.add (l := 1) hft ?_ (by linarith) (by omega) ?_).mono (by omega)
    · rw [abs_of_nonneg h0]
      simpa using hle
    · refine lt_of_le_of_lt ?_ hlimit
      gcongr
      omega
  · exact hs.mono (by omega)

theorem capped_merge (hds : Describes s H) (hdt : Describes t K)
    (hs : Capped e (8 * H.card - 5) (total s)) (ht : Capped e (8 * K.card - 5) (total t))
    (hp : 32 * (H + K).card ≤ 2 ^ (spec α).mantissaBits)
    (hlimit : ((8 * (H + K).card : ℕ) : ℚ) * 2 ^ e < limit (spec α)) :
    Capped e (8 * (H + K).card - 5) (total (s.merge t)) := by
  have hbelow {j : ℕ} (hj : j ≤ 8 * (H + K).card) : (j : ℚ) * 2 ^ e < limit (spec α) :=
    lt_of_le_of_lt (by gcongr) hlimit
  have hcard : (H + K).card = H.card + K.card := Multiset.card_add H K
  by_cases hK : K = 0
  · rw [Summary.merge, if_pos (hdt.samples_eq_zero_iff.mpr hK), hK, add_zero]
    exact hs
  · have hKpos : 0 < K.card := Multiset.card_pos.mpr hK
    rw [h.merge s t fun h0 => hK (hdt.samples_eq_zero_iff.mp h0)]
    by_cases hH : H = 0
    · rw [hds.fresh hH, h.empty, hH, zero_add]
      exact ht.empty_merge (by omega) (hbelow (by omega))
    · have hHpos : 0 < H.card := Multiset.card_pos.mpr hH
      exact (hs.merge ht (by omega) (hbelow (by omega))).mono (by omega)

/-- **The sum stays steady, and below eight units for each observation**, in every session. -/
theorem tracks (e : ℕ) : Tracks fun s H => Describes s H ∧ Steady (total s) ∧
    ((∀ o ∈ H, o.value < 0 → Scalar.isFinite (term o) ∧ toRat (term o) ≤ 2 ^ e) →
      32 * H.card ≤ 2 ^ (spec α).mantissaBits →
      ((8 * H.card : ℕ) : ℚ) * 2 ^ e < limit (spec α) →
      Capped e (8 * H.card - 5) (total s)) where
  empty := by
    refine ⟨describes_tracks.empty, ?_, fun _ _ _ => ?_⟩ <;> rw [h.empty]
    · exact steady_empty
    · exact capped_empty e _
  commit {s H o} hs ho hc := by
    refine ⟨hs.1.commit ho hc, h.steady_commit hs.2.1 ho, fun hterms hp hlimit => ?_⟩
    rw [Multiset.card_cons] at hp hlimit
    refine h.capped_commit (hs.2.2 (fun o' ho' => hterms o' (Multiset.mem_cons_of_mem ho'))
      (by omega) (lt_of_le_of_lt ?_ hlimit)) ho (hterms o (Multiset.mem_cons_self o H)) hp hlimit
    gcongr
    omega
  merge {s t H K} hs ht hc := by
    refine ⟨hs.1.merge ht.1 hc, h.steady_merge hs.2.1 ht.2.1, fun hterms hp hlimit => ?_⟩
    have hcard : (H + K).card = H.card + K.card := Multiset.card_add H K
    have hbelow {j : ℕ} (hj : j ≤ (H + K).card) :
        ((8 * j : ℕ) : ℚ) * 2 ^ e < limit (spec α) := lt_of_le_of_lt (by gcongr) hlimit
    exact h.capped_merge hs.1 ht.1
      (hs.2.2 (fun o ho => hterms o (Multiset.mem_add.mpr (.inl ho))) (by omega)
        (hbelow (by omega)))
      (ht.2.2 (fun o ho => hterms o (Multiset.mem_add.mpr (.inr ho))) (by omega)
        (hbelow (by omega))) hp hlimit

end SumsBelow

end Summary

end RunningStats
