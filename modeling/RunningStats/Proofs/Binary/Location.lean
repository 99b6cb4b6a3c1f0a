import RunningStats.Proofs.Answers
import RunningStats.Proofs.Binary.Numbers
import RunningStats.Proofs.Extremes

/-!
# The rounded mean stays within the range

A merge moves the mean `a` to `a + (b - a) * wb / (wa + wb)`, in rounded arithmetic: the difference,
the product, the whole weight, the quotient and the sum are each rounded. The sum stays between two
numbers if its exact value does, so all depends on the quotient not being larger than the difference
(`Binary.Moves.quotient_le`). It is not as long as the first part of the weight, which it leaves
out, is no smaller than what the roundings before it may have added.

* `combined_mean`: one merge, for weights that are not small against each other and a difference
  that is neither too large nor, times a weight, among the smallest numbers.
* `combined_mean_near`: where the difference is as small as that, the mean moves little. It stays
  within a range whose ends are not among the smallest numbers themselves (`Binary.Coarse`).
* `Moments.Located.merge`, `Summary.located_tracks`: every merge, and so every session.
* **`Summary.session_mean_within`**: the mean lies between the extrema of the session. Without its
  conditions it need not, as `Summary.session_mean_escapes` shows.

`Summary.tracks_moments` says in general that what merges of moments keep, sessions keep.
-/

namespace RunningStats

open Binary (Rounds Representable Step limit)
open RoundedScalar BinaryScalar

/-! ## The step of a merge, on the rational numbers -/

namespace Binary

variable {S : Float.Model.Format} {q r : ℚ}

/-- What a relative error of one part in `t` adds to a share of `δ`, the whole `w` being no more
than `t / 16` times a part `wa` of it. -/
theorem le_of_relative {t δ x w wa : ℚ} (ht : 0 < t) (hδ : 0 ≤ δ) (herr : t * |r - q| ≤ |q|)
    (hq : 0 ≤ q) (hqx : q ≤ δ * x) (hxw : x ≤ w) (hscale : 16 * w ≤ t * wa) :
    r ≤ δ * (x + wa / 16) := by
  rw [abs_of_nonneg hq] at herr
  have hr := mul_le_mul_of_nonneg_left (le_abs_self (r - q)) ht.le
  refine le_of_mul_le_mul_left ?_ ht
  calc t * r ≤ t * q + q := by linarith
    _ ≤ t * (δ * x) + δ * w := by
      have := hqx.trans (mul_le_mul_of_nonneg_left hxw hδ)
      gcongr
    _ ≤ t * (δ * x) + δ * (t * wa / 16) := by
      have : w ≤ t * wa / 16 := by linarith
      gcongr
    _ = t * (δ * (x + wa / 16)) := by ring

/-- The second part of the weight, less a share of the first one. -/
theorem second_weight_le {t w wa wb : ℚ} (ht : 4 ≤ t) (hw : t * |w - (wa + wb)| ≤ |wa + wb|)
    (ha : 0 ≤ wa) (hb : 0 ≤ wb) (hscale : 16 * w ≤ t * wa) : wb ≤ w - 7 / 8 * wa := by
  have htpos : 0 < t := by linarith
  have hle := le_abs_self (wa + wb - w)
  rw [abs_sub_comm, abs_of_nonneg (show 0 ≤ wa + wb by linarith)] at hw
  have hmul := mul_le_mul_of_nonneg_left hle htpos.le
  have htwice : 2 * (wa + wb - w) ≤ t * (wa + wb - w) ∨ wa + wb - w ≤ 0 := by
    rcases le_total 0 (wa + wb - w) with h | h
    · exact .inl (mul_le_mul_of_nonneg_right (by linarith) h)
    · exact .inr h
  have hsum : wa + wb ≤ 2 * w := by rcases htwice with h | h <;> linarith
  have hrest : t * (wa + wb - w) ≤ t * (wa / 8) := by linarith
  have := le_of_mul_le_mul_left hrest htpos
  linarith

/-- What a merge makes of the difference `δ` of two means before it divides: `δ` is rounded to `d`,
and `d * wb` to `P`. The first weight is not small against the rounded whole `w`, which leaves out
no more than an eighth of it. -/
structure Moves (S : Float.Model.Format) (wa wb w δ d P : ℚ) : Prop where
  step : Step S.minExponent δ
  difference : Rounds S δ d
  product : Rounds S (d * wb) P
  first : 0 ≤ wa
  second : 0 ≤ wb
  whole : 0 < w
  rest : wb ≤ w - 7 / 8 * wa
  scale : 16 * w ≤ 2 ^ S.mantissaBits * wa

namespace Moves

variable {wa wb w δ d P Q : ℚ} (h : Moves S wa wb w δ d P)
include h

theorem neg : Moves S wa wb w (-δ) (-d) (-P) where
  step := h.step.neg
  difference := h.difference.neg
  product := neg_mul d wb ▸ h.product.neg
  first := h.first
  second := h.second
  whole := h.whole
  rest := h.rest
  scale := h.scale

/-- **A rounded weighted difference** is no larger than a share of the difference, but for what is
lost among the smallest numbers. Both roundings go into a share of the first part of the weight. -/
theorem product_le (h0 : 0 ≤ δ) :
    0 ≤ P ∧ P ≤ δ * (w - 3 / 4 * wa) + 2 ^ S.minExponent / 2 := by
  have htpos : (0 : ℚ) < 2 ^ S.mantissaBits := by positivity
  have hu := two_zpow_pos S.minExponent
  have hmul0 : 0 ≤ d * wb := mul_nonneg (h.difference.nonneg h0) h.second
  have hδwa : 0 ≤ δ * wa := mul_nonneg h0 h.first
  have hδwb : δ * wb ≤ δ * (w - 7 / 8 * wa) := mul_le_mul_of_nonneg_left h.rest h0
  refine ⟨h.product.nonneg hmul0, ?_⟩
  have hprod : d * wb ≤ δ * (wb + wa / 16) := by
    refine le_of_relative htpos h0 (q := δ * wb) ?_ (mul_nonneg h0 h.second) (le_refl _)
      (by linarith [h.rest, h.first]) h.scale
    rw [← sub_mul, abs_mul, abs_mul, ← mul_assoc]
    exact mul_le_mul_of_nonneg_right (h.difference.error_of_step h.step) (abs_nonneg wb)
  rcases h.product.error with herr | ⟨-, herr⟩
  · have := le_of_relative htpos h0 herr hmul0 hprod (by linarith [h.rest, h.first]) h.scale
    linarith
  · linarith [le_abs_self (P - d * wb)]

/-- The same for differences of either sign, against the whole weight. -/
theorem abs_product_le : |P| ≤ |δ| * w + 2 ^ S.minExponent / 2 := by
  have key {δ d P : ℚ} (h : Moves S wa wb w δ d P) (h0 : 0 ≤ δ) :
      |P| ≤ |δ| * w + 2 ^ S.minExponent / 2 := by
    obtain ⟨hP0, hle⟩ := h.product_le h0
    rw [abs_of_nonneg hP0, abs_of_nonneg h0]
    linarith [mul_nonneg h0 h.first]
  rcases le_total 0 δ with h0 | h0
  · exact key h h0
  · rw [← abs_neg P, ← abs_neg δ]
    exact key h.neg (neg_nonneg.mpr h0)

variable (hQ : Rounds S (P / w) Q)
include hQ

/-- The third rounding is taken up by the first part of the weight as well, or is one among the
smallest numbers. -/
theorem quotient_mul_le (h0 : 0 ≤ δ) : 0 ≤ Q ∧
    (Q * w ≤ δ * (w - 11 / 16 * wa) + 5 / 8 * 2 ^ S.minExponent ∨
      Q * w ≤ δ * (w - 3 / 4 * wa) + 2 ^ S.minExponent / 2 + 2 ^ S.minExponent / 2 * w) := by
  obtain ⟨hP0, hPle⟩ := h.product_le h0
  have hw0 := h.whole
  have hcancel : P / w * w = P := div_mul_cancel₀ P hw0.ne'
  refine ⟨hQ.nonneg (div_nonneg hP0 hw0.le), ?_⟩
  rcases hQ.error with herr | ⟨-, herr⟩
  · refine .inl (le_of_mul_le_mul_left ?_ (show (0 : ℚ) < 2 ^ S.mantissaBits by positivity))
    have hexcess : 2 ^ S.mantissaBits * (Q * w - P) ≤ P := by
      rw [abs_of_nonneg (div_nonneg hP0 hw0.le)] at herr
      have hle := mul_le_mul_of_nonneg_right
        ((mul_le_mul_of_nonneg_left (le_abs_self (Q - P / w)) (by positivity)).trans herr) hw0.le
      rwa [mul_assoc, sub_mul, hcancel] at hle
    have hpart : δ * (16 * w) ≤ δ * (2 ^ S.mantissaBits * wa) :=
      mul_le_mul_of_nonneg_left h.scale h0
    have hu : 4 * 2 ^ S.minExponent ≤ (2 : ℚ) ^ S.mantissaBits * 2 ^ S.minExponent :=
      mul_le_mul_of_nonneg_right (four_le_precision S) (two_zpow_pos _).le
    have hscaled := mul_le_mul_of_nonneg_left hPle
      (show (0 : ℚ) ≤ 2 ^ S.mantissaBits by positivity)
    linarith [mul_nonneg h0 h.first]
  · have hle := mul_le_mul_of_nonneg_right ((le_abs_self (Q - P / w)).trans herr) hw0.le
    rw [sub_mul, hcancel] at hle
    exact .inr (by linarith)

/-- **What moves a mean stays within the difference.** A part of the weight that is not small
against the whole leaves room for three roundings, unless the smallest numbers are large against
what is moved and against the whole. -/
theorem quotient_le (hkeep : δ = 0 ∨ 2 ^ S.minExponent ≤ |δ| * wa ∨ 1 ≤ w) (h0 : 0 ≤ δ) :
    0 ≤ Q ∧ Q ≤ δ := by
  obtain ⟨hQ0, hQle⟩ := h.quotient_mul_le hQ h0
  refine ⟨hQ0, ?_⟩
  have hu := two_zpow_pos S.minExponent
  rcases h0.eq_or_lt with rfl | hδ
  · have hd : d = 0 := h.difference.eq (.zero S)
    have hP : P = 0 := Rounds.eq (by simpa [hd] using h.product) (.zero S)
    exact (Rounds.eq (by simpa [hP] using hQ) (.zero S)).le
  -- both are multiples of the smallest number, and there is less than one between them
  suffices hlt : Q < δ + 2 ^ S.minExponent by
    by_contra hgt
    rw [not_le] at hgt
    have := h.step.eq_of_abs_lt hQ.representable.step (by
      rw [abs_of_pos (sub_pos.mpr hgt)]
      linarith)
    linarith
  have hwa : 0 < wa := by
    have := h.scale
    by_contra hwa
    rw [le_antisymm (not_lt.mp hwa) h.first] at this
    linarith [h.whole]
  have hmoved := mul_pos hδ hwa
  refine lt_of_mul_lt_mul_right ?_ h.whole.le
  rw [abs_of_pos hδ] at hkeep
  rcases hkeep.resolve_left hδ.ne' with hlarge | hone
  · have := mul_pos hu h.whole
    rcases hQle with hQle | hQle <;> linarith
  · have := le_mul_of_one_le_right hu.le hone
    rcases hQle with hQle | hQle <;> linarith

/-- In any case it is not much more. -/
theorem abs_quotient_le :
    |Q| ≤ |δ| + 2 ^ S.minExponent + 2 ^ S.minExponent / w := by
  have key {δ d P Q : ℚ} (h : Moves S wa wb w δ d P) (hQ : Rounds S (P / w) Q) (h0 : 0 ≤ δ) :
      |Q| ≤ |δ| + 2 ^ S.minExponent + 2 ^ S.minExponent / w := by
    obtain ⟨hQ0, hQle⟩ := h.quotient_mul_le hQ h0
    have hu := two_zpow_pos S.minExponent
    have hmoved := mul_nonneg h0 h.first
    rw [abs_of_nonneg hQ0, abs_of_nonneg h0]
    refine le_of_mul_le_mul_right ?_ h.whole
    rw [add_mul, div_mul_cancel₀ _ h.whole.ne']
    have := mul_pos hu h.whole
    rcases hQle with hQle | hQle <;> linarith
  rcases le_total 0 δ with h0 | h0
  · exact key h hQ h0
  · rw [← abs_neg Q, ← abs_neg δ]
    exact key h.neg (neg_div w P ▸ hQ.neg) (neg_nonneg.mpr h0)

end Moves

/-- No difference gets lost among the smallest numbers, or it does no harm: two weights that count
make one together; or the range keeps away from zero, so that no difference in it is so small, times
a weight that counts; or it reaches to either side of zero, and such differences are well inside. -/
def Coarse (S : Float.Model.Format) (lo hi least : ℚ) : Prop :=
  1 ≤ 2 * least ∨ 2 ^ S.mantissaBits * 2 ^ S.minExponent ≤ least * lo ∨
    2 ^ S.mantissaBits * 2 ^ S.minExponent ≤ least * -hi ∨
    4 * (2 ^ S.mantissaBits * 2 ^ S.minExponent) ≤ least * -lo ∧
      4 * (2 ^ S.mantissaBits * 2 ^ S.minExponent) ≤ least * hi

instance (S : Float.Model.Format) (lo hi least : ℚ) : Decidable (Coarse S lo hi least) :=
  inferInstanceAs (Decidable (_ ∨ _))

/-- Numbers of the format away from zero have a last place in common that is not among the smallest
numbers, times a weight that counts. -/
theorem exists_step_of_le_abs {least b x y : ℚ} (hpos : 0 < least)
    (hb : 2 ^ S.mantissaBits * 2 ^ S.minExponent ≤ least * b) (hx : Representable S x)
    (hy : Representable S y) (hbx : b ≤ |x|) (hby : b ≤ |y|) :
    ∃ e, Step e x ∧ Step e y ∧ 2 ^ S.minExponent ≤ 2 ^ e * least := by
  have hp : (0 : ℚ) < 2 ^ S.mantissaBits := by positivity
  have hb0 : 0 < b := pos_of_mul_pos_right
    ((mul_pos hp (two_zpow_pos _)).trans_le hb) hpos.le
  obtain ⟨e, hle, hlt⟩ := exists_mem_Ico_zpow (show 0 < 2 * b / 2 ^ S.mantissaBits by positivity)
    (show (1 : ℚ) < 2 by norm_num)
  rw [le_div_iff₀ hp] at hle
  rw [div_lt_iff₀ hp, zpow_add_one₀ (by norm_num)] at hlt
  refine ⟨e, hx.step_of_le fun _ => by linarith, hy.step_of_le fun _ => by linarith, ?_⟩
  refine le_of_mul_le_mul_left (hb.trans ?_) hp
  calc least * b ≤ least * (2 ^ e * 2 ^ S.mantissaBits) :=
        mul_le_mul_of_nonneg_left (by linarith) hpos.le
    _ = 2 ^ S.mantissaBits * (2 ^ e * least) := by ring

/-- Then their difference is none, or not small against the smallest number. -/
theorem smallest_le_of_le_abs {least b x y w : ℚ} (hpos : 0 < least)
    (hb : 2 ^ S.mantissaBits * 2 ^ S.minExponent ≤ least * b) (hx : Representable S x)
    (hy : Representable S y) (hbx : b ≤ |x|) (hby : b ≤ |y|) (hw : least ≤ w) :
    y - x = 0 ∨ 2 ^ S.minExponent ≤ |y - x| * w := by
  obtain ⟨e, hsx, hsy, he⟩ := exists_step_of_le_abs hpos hb hx hy hbx hby
  by_cases hlt : |y - x| < 2 ^ e
  · exact .inl (sub_eq_zero.mpr (hsx.eq_of_abs_lt hsy hlt))
  · refine .inr (he.trans ?_)
    rw [not_lt] at hlt
    exact mul_le_mul hlt hw hpos.le (abs_nonneg _)

/-- A difference that is small against the smallest number stands well inside the range. -/
theorem Coarse.cases {lo hi least x y w : ℚ} (h : Coarse S lo hi least) (hpos : 0 < least)
    (hx : Representable S x) (hy : Representable S y) (hlx : lo ≤ x) (hxh : x ≤ hi) (hly : lo ≤ y)
    (hyh : y ≤ hi) (hw : least ≤ w) :
    (y - x = 0 ∨ 2 ^ S.minExponent ≤ |y - x| * w ∨ 1 ≤ 2 * least) ∨
      ∃ r, |x| + (|y - x| + 2 ^ S.minExponent + 2 ^ S.minExponent / least) ≤ r ∧
        2 * r ≤ -lo ∧ 2 * r ≤ hi := by
  rcases h with h | h | h | ⟨hlo, hhi⟩
  · exact .inl (.inr (.inr h))
  · exact .inl ((smallest_le_of_le_abs hpos h hx hy (hlx.trans (le_abs_self x))
      (hly.trans (le_abs_self y)) hw).imp_right .inl)
  · exact .inl ((smallest_le_of_le_abs hpos h hx hy ((neg_le_neg hxh).trans (neg_le_abs x))
      ((neg_le_neg hyh).trans (neg_le_abs y)) hw).imp_right .inl)
  by_cases hkeep : y - x = 0 ∨ 2 ^ S.minExponent ≤ |y - x| * w ∨ 1 ≤ 2 * least
  · exact .inl hkeep
  -- one of the two is near zero, and so both are
  simp only [not_or, not_le] at hkeep
  obtain ⟨hne, hsmall, hhalf⟩ := hkeep
  have hu := two_zpow_pos S.minExponent
  have hdiff : least * |y - x| < 2 ^ S.minExponent := by
    rw [mul_comm]
    exact (mul_le_mul_of_nonneg_left hw (abs_nonneg _)).trans_lt hsmall
  have hnear : least * |x| < 2 ^ S.mantissaBits * 2 ^ S.minExponent + 2 ^ S.minExponent := by
    by_contra hfar
    rw [not_lt] at hfar
    have hyx : |x| ≤ |y| + |y - x| := by
      have := abs_sub_abs_le_abs_sub x y
      rw [abs_sub_comm] at this
      linarith
    have hy' := mul_le_mul_of_nonneg_left hyx hpos.le
    rw [mul_add] at hy'
    have hb : 2 ^ S.mantissaBits * 2 ^ S.minExponent ≤ least * min |x| |y| := by
      rw [mul_min_of_nonneg _ _ hpos.le]
      exact le_min (by linarith) (by linarith)
    rcases smallest_le_of_le_abs hpos hb hx hy (min_le_left _ _) (min_le_right _ _) hw with h | h
    · exact hne h
    · linarith
  have hK : 4 * 2 ^ S.minExponent ≤ (2 : ℚ) ^ S.mantissaBits * 2 ^ S.minExponent :=
    mul_le_mul_of_nonneg_right (four_le_precision S) hu.le
  have hsum : least * (|x| + (|y - x| + 2 ^ S.minExponent + 2 ^ S.minExponent / least)) ≤
      2 * (2 ^ S.mantissaBits * 2 ^ S.minExponent) := by
    have hone : least * 2 ^ S.minExponent ≤ 1 / 2 * 2 ^ S.minExponent :=
      mul_le_mul_of_nonneg_right (by linarith) hu.le
    rw [mul_add, mul_add, mul_add, mul_div_cancel₀ _ hpos.ne']
    linarith
  refine .inr ⟨_, le_refl _, le_of_mul_le_mul_left ?_ hpos, le_of_mul_le_mul_left ?_ hpos⟩ <;>
    linarith

end Binary

/-! ## The step of a merge -/

section

variable {α : Type} [Scalar α] [BinaryScalar α]

/-- What is added to amounts does not make the sum smaller. -/
theorem toRat_le_add {x y : α} (hy : NotBelow y) (h : Scalar.isFinite (x + y)) :
    toRat x ≤ toRat (x + y) := by
  obtain ⟨hx, hy'⟩ := finite_of_add h
  rw [notBelow_iff hy'] at hy
  exact ((nearest_add hx hy').rounds h).ge (representable x) (by linarith)

theorem toRat_le_add' {x y : α} (hx : NotBelow x) (h : Scalar.isFinite (x + y)) :
    toRat y ≤ toRat (x + y) := by
  obtain ⟨hx', hy⟩ := finite_of_add h
  rw [notBelow_iff hx'] at hx
  exact ((nearest_add hx' hy).rounds h).ge (representable y) (by linarith)

section Combined

variable {a b wa wb : α} (ha : Scalar.isFinite a) (hd : Scalar.isFinite (b - a))
  (hp : Scalar.isFinite ((b - a) * wb)) (hw : Scalar.isFinite (wa + wb)) (h1 : 0 < toRat wa)
  (h0 : 0 ≤ toRat wb) (hscale : 16 * toRat (wa + wb) ≤ 2 ^ (spec α).mantissaBits * toRat wa)
include ha hd hp hw h1 h0 hscale

/-- The roundings of a merge before its quotient. -/
theorem moves_combined : Binary.Moves (spec α) (toRat wa) (toRat wb) (toRat (wa + wb))
    (toRat b - toRat a) (toRat (b - a)) (toRat ((b - a) * wb)) := by
  obtain ⟨hb, -⟩ := finite_of_sub hd
  obtain ⟨hwa, hwb⟩ := finite_of_add hw
  have hrw := ((nearest_add hwa hwb).rounds hw).error_of_step
    ((representable wa).step.add (representable wb).step)
  exact
    { step := (representable b).step.sub (representable a).step
      difference := (nearest_sub hb ha).rounds hd
      product := (nearest_mul hd hwb).rounds hp
      first := h1.le
      second := h0
      whole := h1.trans_le (toRat_le_add ((notBelow_iff hwb).mpr h0) hw)
      rest := Binary.second_weight_le (Binary.four_le_precision _) hrw h1.le h0 hscale
      scale := hscale }

variable (hwide : 2 * |toRat b - toRat a| ≤ limit (spec α))
include hwide

/-- The quotient is finite: the smallest number over a weight is no more than one. -/
theorem rounds_quotient : Scalar.isFinite ((b - a) * wb / (wa + wb)) ∧
    Rounds (spec α) (toRat ((b - a) * wb) / toRat (wa + wb))
      (toRat ((b - a) * wb / (wa + wb))) := by
  have h := moves_combined ha hd hp hw h1 h0 hscale
  have hpos := h.whole
  have hnq := nearest_div hp hw fun hz => hpos.ne' ((isZero_iff_toRat hw).mp hz)
  have hq : Scalar.isFinite ((b - a) * wb / (wa + wb)) := by
    obtain ⟨-, -, hrep⟩ := Binary.representable_limit (S := spec α) one_lt
    have hlimit := two_pow_lt_limit (α := α)
    refine hnq.finite hrep (by linarith) ?_
    have hu : 2 ^ (spec α).minExponent ≤ toRat (wa + wb) := by
      by_contra hlt
      rw [not_le] at hlt
      refine hpos.ne' ((Representable.zero _).step.eq_of_abs_lt (representable _).step ?_)
      rwa [sub_zero, abs_of_pos hpos]
    rw [abs_div, abs_of_pos hpos, div_le_iff₀ hpos]
    have hone : 2 ^ (spec α).minExponent / 2 ≤ 1 / 2 * toRat (wa + wb) := by linarith
    have hlarge : (|toRat b - toRat a| + 1 / 2) * toRat (wa + wb) ≤
        3 / 4 * limit (spec α) * toRat (wa + wb) :=
      mul_le_mul_of_nonneg_right (by linarith) hpos.le
    linarith [h.abs_product_le]
  exact ⟨hq, hnq.rounds hq⟩

/-- **The mean of two parts lies between their means**, if neither their difference nor its product
with the second weight is too large, the first part is not small against the whole, and the smallest
number is small against the difference times the first weight, or the whole at least one. -/
theorem combined_mean {lo hi : ℚ}
    (hkeep : toRat b - toRat a = 0 ∨
      2 ^ (spec α).minExponent ≤ |toRat b - toRat a| * toRat wa ∨ 1 ≤ toRat (wa + wb))
    (hla : lo ≤ toRat a) (hah : toRat a ≤ hi) (hlb : lo ≤ toRat b) (hbh : toRat b ≤ hi) :
    Scalar.isFinite (a + (b - a) * wb / (wa + wb)) ∧
      lo ≤ toRat (a + (b - a) * wb / (wa + wb)) ∧
      toRat (a + (b - a) * wb / (wa + wb)) ≤ hi := by
  have h := moves_combined ha hd hp hw h1 h0 hscale
  obtain ⟨hq, hrq⟩ := rounds_quotient ha hd hp hw h1 h0 hscale hwide
  have hsum := nearest_add ha hq
  rcases le_total (toRat a) (toRat b) with hab | hab
  · obtain ⟨hlow, hhigh⟩ := h.quotient_le hrq hkeep (by linarith)
    obtain ⟨hfinite, hge, hle⟩ := hsum.between (x := a) (y := b) (by linarith) (by linarith)
    exact ⟨hfinite, hla.trans hge, hle.trans hbh⟩
  · -- the same for the differences turned round
    have hrq' := hrq.neg
    rw [← neg_div] at hrq'
    obtain ⟨hlow, hhigh⟩ := h.neg.quotient_le hrq' (by rwa [neg_eq_zero, abs_neg]) (by linarith)
    obtain ⟨hfinite, hge, hle⟩ := hsum.between (x := b) (y := a) (by linarith) (by linarith)
    exact ⟨hfinite, hlb.trans hge, hle.trans hah⟩

/-- In any case it is not far from them. -/
theorem combined_mean_near {least r : ℚ} (hleast : 0 < least) (hweight : least ≤ toRat (wa + wb))
    (hr : |toRat a| + (|toRat b - toRat a| + 2 ^ (spec α).minExponent +
      2 ^ (spec α).minExponent / least) ≤ r) (hlimit : 2 * r ≤ limit (spec α)) :
    Scalar.isFinite (a + (b - a) * wb / (wa + wb)) ∧
      |toRat (a + (b - a) * wb / (wa + wb))| ≤ 2 * r := by
  have h := moves_combined ha hd hp hw h1 h0 hscale
  obtain ⟨hq, hrq⟩ := rounds_quotient ha hd hp hw h1 h0 hscale hwide
  have hquotient : 2 ^ (spec α).minExponent / toRat (wa + wb) ≤
      2 ^ (spec α).minExponent / least :=
    div_le_div_of_nonneg_left (Binary.two_zpow_pos _).le hleast hweight
  have hexact : |toRat a + toRat ((b - a) * wb / (wa + wb))| ≤ r := by
    linarith [abs_add_le (toRat a) (toRat ((b - a) * wb / (wa + wb))), h.abs_quotient_le hrq]
  obtain ⟨-, hrep, -⟩ := Binary.representable_limit (S := spec α) one_lt
  have hsum := nearest_add ha hq
  have hfinite := hsum.finite hrep (by linarith [two_pow_lt_limit (α := α)]) (by linarith)
  exact ⟨hfinite, ((hsum.rounds hfinite).abs_le_double).trans (by linarith)⟩

end Combined

end

namespace Moments

variable {α : Type} [Scalar α] [BinaryScalar α] {a b : Moments α} {lo hi least total : ℚ}

omit [BinaryScalar α] in
/-- What a merge does to the weights, and whether it combines its operands. -/
theorem merge_cases (a b : Moments α) :
    Scalar.isZero b.weight ∧ a.merge b = a ∨
      Scalar.isZero a.weight ∧ a.merge b = b ∨
      ¬ Scalar.isZero a.weight ∧ ¬ Scalar.isZero b.weight ∧ a.merge b = combine a b := by
  unfold merge
  by_cases hb : Scalar.isZero b.weight
  · exact .inl ⟨hb, if_pos hb⟩
  · rw [if_neg hb]
    by_cases ha : Scalar.isZero a.weight
    · exact .inr (.inl ⟨ha, if_pos ha⟩)
    · exact .inr (.inr ⟨ha, hb, if_neg ha⟩)

theorem isAmount_merge (ha : IsAmount a.weight) (hb : IsAmount b.weight) :
    IsAmount (a.merge b).weight := by
  rcases merge_cases a b with ⟨-, h⟩ | ⟨-, h⟩ | ⟨-, -, h⟩ <;> rw [h]
  · exact ha
  · exact hb
  · exact ha.add hb

/-- **Neither part weighs more than the whole.** -/
theorem weight_le_merge (ha : IsAmount a.weight) (hb : IsAmount b.weight)
    (h : Scalar.isFinite (a.merge b).weight) :
    (Scalar.isFinite a.weight ∧ toRat a.weight ≤ toRat (a.merge b).weight) ∧
      (Scalar.isFinite b.weight ∧ toRat b.weight ≤ toRat (a.merge b).weight) := by
  rcases merge_cases a b with ⟨hz, he⟩ | ⟨hz, he⟩ | ⟨-, -, he⟩ <;> rw [he] at h ⊢
  · have hf := isFinite_of_isZero hz
    rw [(isZero_iff_toRat hf).mp hz]
    exact ⟨⟨h, le_refl _⟩, hf, ha.toRat_nonneg h⟩
  · have hf := isFinite_of_isZero hz
    rw [(isZero_iff_toRat hf).mp hz]
    exact ⟨⟨hf, hb.toRat_nonneg h⟩, h, le_refl _⟩
  · obtain ⟨hfa, hfb⟩ := finite_of_add (x := a.weight) (y := b.weight) h
    exact ⟨⟨hfa, toRat_le_add hb.notBelow h⟩, hfb, toRat_le_add' ha.notBelow h⟩

/-! ## The mean of a set of moments -/

/-- The weights and values for which rounding leaves means where they belong: no weight that counts
is small against the total, the range and the range times the total weight stay within half the
limit, and no difference gets lost among the smallest numbers. -/
structure Scale (S : Float.Model.Format) (lo hi least total : ℚ) : Prop where
  pos : 0 < least
  fine : 16 * total ≤ 2 ^ S.mantissaBits * least
  width : 2 * (hi - lo) ≤ limit S
  span : 2 * ((hi - lo) * total) ≤ limit S
  coarse : Binary.Coarse S lo hi least

/-- No weight, or enough of it and the mean within a range. -/
def Located (lo hi least : ℚ) (m : Moments α) : Prop :=
  Scalar.isZero m.weight ∨
    least ≤ toRat m.weight ∧ Scalar.isFinite m.mean ∧ lo ≤ toRat m.mean ∧ toRat m.mean ≤ hi

/-- Differences within the range, and what weights make of them, are finite. -/
theorem Scale.finite_difference (h : Scale (spec α) lo hi least total) {x y w : α}
    (hx : Scalar.isFinite x) (hy : Scalar.isFinite y) (hw : Scalar.isFinite w)
    (hxy : |toRat y - toRat x| ≤ hi - lo) (hw0 : 0 ≤ toRat w) (hwt : toRat w ≤ total) :
    Scalar.isFinite (y - x) ∧ Scalar.isFinite ((y - x) * w) := by
  obtain ⟨hpos, hrep⟩ := Binary.representable_limit (S := spec α) one_lt
  have h0 : 0 ≤ hi - lo := (abs_nonneg _).trans hxy
  have hd : Scalar.isFinite (y - x) :=
    (nearest_sub hy hx).finite hrep.1 (by linarith) (hxy.trans (by linarith [h.width]))
  refine ⟨hd, (nearest_mul hd hw).finite hrep.2 (by linarith) ?_⟩
  have herr := ((nearest_sub hy hx).rounds hd).error_of_step
    ((representable y).step.sub (representable x).step)
  have htwice : 2 * |toRat (y - x) - (toRat y - toRat x)| ≤ |toRat y - toRat x| :=
    (mul_le_mul_of_nonneg_right ((by norm_num : (2 : ℚ) ≤ 4).trans
      (Binary.four_le_precision _)) (abs_nonneg _)).trans herr
  have hdle : |toRat (y - x)| ≤ 3 / 2 * (hi - lo) := by
    have := abs_sub_abs_le_abs_sub (toRat (y - x)) (toRat y - toRat x)
    linarith
  rw [abs_mul, abs_of_nonneg hw0]
  calc |toRat (y - x)| * toRat w ≤ 3 / 2 * (hi - lo) * total := by gcongr
    _ ≤ 3 / 4 * limit (spec α) := by linarith [h.span]

/-- **A merge keeps the mean within the range.** -/
theorem Located.merge (h : Scale (spec α) lo hi least total) (ha : Located lo hi least a)
    (hb : Located lo hi least b) (hwa : IsAmount a.weight) (hwb : IsAmount b.weight)
    (hf : Scalar.isFinite (a.merge b).weight) (ht : toRat (a.merge b).weight ≤ total) :
    Located lo hi least (a.merge b) := by
  obtain ⟨⟨hfa, hlea⟩, hfb, hleb⟩ := weight_le_merge hwa hwb hf
  rcases merge_cases a b with ⟨-, he⟩ | ⟨-, he⟩ | ⟨hza, hzb, he⟩ <;> rw [he] at hf ht hlea hleb ⊢
  · exact ha
  · exact hb
  · obtain ⟨ha1, hma, hla, hha⟩ := ha.resolve_left hza
    obtain ⟨hb1, hmb, hlb, hhb⟩ := hb.resolve_left hzb
    have hdist : |toRat b.mean - toRat a.mean| ≤ hi - lo := by
      rw [abs_le]
      constructor <;> linarith
    have hb0 := h.pos.trans_le hb1
    obtain ⟨hd, hp⟩ := h.finite_difference hma hmb hfb hdist hb0.le (hleb.trans ht)
    have ha0 := h.pos.trans_le ha1
    have hfine : 16 * toRat (a.weight + b.weight) ≤
        2 ^ (spec α).mantissaBits * toRat a.weight :=
      calc 16 * toRat (a.weight + b.weight) ≤ 16 * total := by
            have : toRat (a.weight + b.weight) ≤ total := ht
            linarith
        _ ≤ 2 ^ (spec α).mantissaBits * least := h.fine
        _ ≤ 2 ^ (spec α).mantissaBits * toRat a.weight := by gcongr
    have hwide : 2 * |toRat b.mean - toRat a.mean| ≤ limit (spec α) := by linarith [h.width]
    refine .inr ⟨ha1.trans hlea, ?_⟩
    rcases h.coarse.cases h.pos (representable a.mean) (representable b.mean) hla hha hlb hhb ha1
      with hkeep | ⟨r, hr, hlo, hhi⟩
    · refine combined_mean hma hd hp hf ha0 hb0.le hfine hwide
        (hkeep.imp_right (Or.imp_right fun hhalf => ?_)) hla hha hlb hhb
      exact toRat_one (α := α) ▸ ((nearest_add hfa hfb).rounds hf).ge (representable 1)
        (by rw [toRat_one]; linarith)
    · obtain ⟨hfinite, hnear⟩ := combined_mean_near hma hd hp hf ha0 hb0.le hfine hwide h.pos
        (ha1.trans hlea) hr (by linarith [h.width])
      rw [abs_le] at hnear
      exact ⟨hfinite, (le_neg_of_le_neg hlo).trans hnear.1, hnear.2.trans hhi⟩

end Moments

/-! ## Sessions -/

namespace Summary

variable {α : Type} [Scalar α]

/-- **What merges of moments keep, sessions keep**: an observation is taken in as a set of its
own. -/
theorem tracks_moments [OrderedScalar α] {P : Moments α → Multiset (Observation α) → Prop}
    (hempty : P Moments.empty 0)
    (hpoint : ∀ {o : Observation α}, o.Valid → P (.point o.value o.weight) {o})
    (hmerge : ∀ {a b : Moments α} {H K : Multiset (Observation α)}, P a H → P b K →
      P (a.merge b) (H + K)) :
    Tracks fun s H => Describes s H ∧ P s.moments H where
  empty := ⟨describes_tracks.empty, hempty⟩
  commit {s H o} h ho hc := by
    refine ⟨h.1.commit ho hc, ?_⟩
    rw [← Multiset.singleton_add, add_comm]
    exact hmerge h.2 (hpoint ho)
  merge {s t H K} hs ht hc := by
    refine ⟨hs.1.merge ht.1 hc, ?_⟩
    by_cases hK : K = 0
    · have hm : s.merge t = s := if_pos (ht.1.samples_eq_zero_iff.mpr hK)
      rw [hm, hK, add_zero]
      exact hs.2
    · have hm : t.samples ≠ 0 := fun h0 => hK (ht.1.samples_eq_zero_iff.mp h0)
      rw [Summary.merge, if_neg hm]
      exact hmerge hs.2 ht.2

variable [BinaryScalar α] {lo hi least total : ℚ}

/-- Each observation that carries weight carries enough of it and lies within a range. -/
def Weighty (lo hi least : ℚ) (H : Multiset (Observation α)) : Prop :=
  ∀ o ∈ H, Scalar.isZero o.weight ∨
    least ≤ toRat o.weight ∧ lo ≤ toRat o.value ∧ toRat o.value ≤ hi

theorem isAmount_of_valid {o : Observation α} (ho : o.Valid) : IsAmount o.weight :=
  isAmount_of_finite ho.1 ((toRat_nonneg_iff ho.1).mp ho.2.1)

/-- The means of the observations under a name lie within every range that holds them. -/
theorem located_tracks (h : Moments.Scale (spec α) lo hi least total) :
    Tracks fun (s : Summary α) H => Describes s H ∧ IsAmount s.moments.weight ∧
      (Weighty lo hi least H → Scalar.isFinite s.moments.weight →
        toRat s.moments.weight ≤ total → s.moments.Located lo hi least) := by
  refine tracks_moments (P := fun m H => IsAmount m.weight ∧ (Weighty lo hi least H →
    Scalar.isFinite m.weight → toRat m.weight ≤ total → m.Located lo hi least)) ?_ ?_ ?_
  · exact ⟨isAmount_zero, fun _ _ _ => .inl isZero_zero⟩
  · intro o ho
    refine ⟨isAmount_of_valid ho, fun hH _ _ => ?_⟩
    rcases hH o (Multiset.mem_singleton_self o) with hz | ⟨hw, hl, hh⟩
    · exact .inl hz
    · exact .inr ⟨hw, ho.2.2, hl, hh⟩
  · rintro a b H K ⟨hwa, ha⟩ ⟨hwb, hb⟩
    refine ⟨Moments.isAmount_merge hwa hwb, fun hHK hf ht => ?_⟩
    obtain ⟨⟨hfa, hlea⟩, hfb, hleb⟩ := Moments.weight_le_merge hwa hwb hf
    exact (ha (fun o ho => hHK o (Multiset.mem_add.mpr (.inl ho))) hfa (hlea.trans ht)).merge h
      (hb (fun o ho => hHK o (Multiset.mem_add.mpr (.inr ho))) hfb (hleb.trans ht)) hwa hwb hf ht

variable {ω : Type} [Wide α ω]

/-- **The rounded mean stays within every range** that holds the values and is neither too large nor
too near zero. An extremum that is zero itself takes a range that reaches a little further. -/
theorem session_mean_between (h : Moments.Scale (spec α) lo hi least total)
    (cs : List (String × Command α)) (name : String) (hc : (held cs name).card < 2 ^ 64)
    (hweighty : Weighty lo hi least (held cs name))
    (hfinite : Scalar.isFinite (session cs name).weightSum)
    (htotal : toRat (session cs name).weightSum ≤ total) {m : α}
    (hm : ((session cs name).mean : Except (Fault ω) α) = .ok m) :
    Scalar.isFinite m ∧ lo ≤ toRat m ∧ toRat m ≤ hi := by
  obtain ⟨-, -, hlocated⟩ := (located_tracks h).run cs name hc
  obtain ⟨-, hz, rfl⟩ := of_mean hm
  exact ((hlocated hweighty hfinite htotal).resolve_left hz).2

/-- **The rounded mean stays within the range.** Let the observations under a name carry no weight
or at least `least` each, and no more than `2 ^ p / 16` times that together, let the range and the
range times the sum of the weights stay within half the limit of the format, and let no weight that
counts be below one half, or both extrema, times such a weight, not be among the smallest numbers.
Then the mean, where there is one, is finite and lies between the minimum and the maximum. -/
theorem session_mean_within (cs : List (String × Command α)) (name : String) (least : ℚ)
    (hc : (held cs name).card < 2 ^ 64) (hleast : 0 < least)
    (hweights : ∀ o ∈ held cs name, Scalar.isZero o.weight ∨ least ≤ toRat o.weight) :
    let s := session cs name
    Scalar.isFinite s.weightSum →
    16 * toRat s.weightSum ≤ 2 ^ (spec α).mantissaBits * least →
    2 * (toRat s.max - toRat s.min) ≤ limit (spec α) →
    2 * ((toRat s.max - toRat s.min) * toRat s.weightSum) ≤ limit (spec α) →
    Binary.Coarse (spec α) (toRat s.min) (toRat s.max) least →
    ∀ m, (s.mean : Except (Fault ω) α) = .ok m →
      Scalar.isFinite m ∧ ∃ lo hi, (s.minimum : Except (Fault ω) α) = .ok lo ∧
        (s.maximum : Except (Fault ω) α) = .ok hi ∧ lo ≤ m ∧ m ≤ hi := by
  intro s hfinite hfine hwidth hspan hcoarse m hm
  have hd : Describes s (held cs name) := describes_tracks.run cs name hc
  have hs : s.samples ≠ 0 := (of_mean hm).1
  have hne : held cs name ≠ 0 := fun h0 => hs (hd.samples_eq_zero_iff.mpr h0)
  have hl := hd.lower hne
  have hu := hd.upper hne
  have hmin := hl.finite hd.valid
  have hmax := hu.finite hd.valid
  have hweighty : Weighty (toRat s.min) (toRat s.max) least (held cs name) := fun o ho =>
    (hweights o ho).imp id fun hw => ⟨hw,
      (le_iff_toRat hmin (hd.valid o ho).2.2).mp (hl.2 o ho),
      (le_iff_toRat (hd.valid o ho).2.2 hmax).mp (hu.2 o ho)⟩
  obtain ⟨hf, hlow, hhigh⟩ := session_mean_between ⟨hleast, hfine, hwidth, hspan, hcoarse⟩ cs name
    hc hweighty hfinite (le_refl _) hm
  exact ⟨hf, s.min, s.max, minimum_ok hs, maximum_ok hs, (le_iff_toRat hmin hf).mpr hlow,
    (le_iff_toRat hf hmax).mpr hhigh⟩

/-- Weights from a quarter up on values of either sign, one value without any, and a merge into
itself. -/
theorem session_mean_within_float :
    let cs : List (String × Command Float) :=
      [("a", .addWeighted [149.5, -50, 0.1] [0.3, 4.5, 1e3]), ("b", .add ⟨1e300, 0⟩),
        ("b", .addWeighted [7e-300] [0.5]), ("a", .merge "b"), ("a", .merge "a")]
    (held cs "a").card < 2 ^ 64 ∧
      ∃ m lo hi, ((session cs "a").mean : Except (Fault Float) Float) = .ok m ∧
        ((session cs "a").minimum : Except (Fault Float) Float) = .ok lo ∧
        ((session cs "a").maximum : Except (Fault Float) Float) = .ok hi ∧ lo ≤ m ∧ m ≤ hi := by
  intro cs
  have hc : (held cs "a").card < 2 ^ 64 := by decide +kernel
  obtain ⟨-, lo, hi, hlo, hhi, h1, h2⟩ := session_mean_within (ω := Float) cs "a" (1 / 4) hc
    (by norm_num) (by decide +kernel) (by decide +kernel) (by decide +kernel) (by decide +kernel)
    (by decide +kernel) (by decide +kernel) (session cs "a").moments.mean (by decide +kernel)
  exact ⟨hc, _, lo, hi, by decide +kernel, hlo, hhi, h1, h2⟩

/-- A heavy second value takes the mean beyond it, the difference having been rounded up; and the
difference of two large values has no finite mean. -/
theorem session_mean_escapes :
    let heavy : List (String × Command Float) :=
      [("a", .addWeighted [-1e16, 3] [1, 1267650600228229401496703205376])]
    let wide : List (String × Command Float) := [("a", .addValues [1e308, -1e308])]
    ((session heavy "a").mean : Except (Fault Float) Float) = .ok 4 ∧
      ((session heavy "a").maximum : Except (Fault Float) Float) = .ok 3 ∧
      ∃ m, ((session wide "a").mean : Except (Fault Float) Float) = .ok m ∧
        Scalar.isFinite m = false := by
  intro heavy wide
  exact ⟨by decide +kernel, by decide +kernel, (session wide "a").moments.mean,
    by decide +kernel, by decide +kernel⟩

end Summary

end RunningStats
