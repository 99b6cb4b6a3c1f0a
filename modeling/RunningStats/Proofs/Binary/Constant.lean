import RunningStats.Proofs.Binary.Extent
import RunningStats.Proofs.Binary.Spread
import RunningStats.Proofs.Counting

/-!
# Constant data have no spread

Where all values of positive weight are one number, both passes find that number and no spread, with
nothing left over from rounding, however small or uneven the weights are.

A merge takes the difference of two equal means, which is a zero, and multiplies and divides it by
weights. The term of the mean and that of the second moment divide by the whole weight, which is
not zero, so they are zeros (`Moments.Single.combine`). The terms of the higher moments divide by
powers of the weight, which may have vanished, and may be no numbers; nothing reads them where there
is no spread. Two passes do not come to that: the extent of the values is one number.

* `Moments.Concentrates.merge`: merges keep the weight, the mean and the second moment of constant
  data.
* **`Summary.constant_data`**: what both ways answer of constant data.

Equality is that of the format: of the two zeros each equals the other, and the mean of zeros may be
either.
-/

namespace RunningStats

open RoundedScalar BinaryScalar

variable {α : Type} [Scalar α] [BinaryScalar α]

/-! ## Equal numbers and zeros -/

section

variable {x y z w : α}

/-- Finite scalars are equal just where they stand for one number. -/
theorem beq_iff_toRat (hx : Scalar.isFinite x) (hy : Scalar.isFinite y) :
    x == y ↔ toRat x = toRat y := by
  have hzero {x : α} {s : Float.Model.UnpackedFloat.Sign} (h : number x = .zero s) :
      toRat x = 0 := (isZero_iff_toRat (isFinite_of_isZero (isZero_iff.mpr ⟨s, h⟩))).mp
    (isZero_iff.mpr ⟨s, h⟩)
  rw [beq_eq]
  show (number x).beq (number y) ↔ _
  rw [Float.Model.UnpackedFloat.beq_iff_ne_notANumber_and_eq]
  constructor
  · rintro ⟨-, -, h | h | h⟩
    · rw [number_injective h]
    · rw [hzero h.1, hzero h.2]
    · rw [hzero h.1, hzero h.2]
  · intro h
    refine ⟨not_notANumber_of_finite hx, not_notANumber_of_finite hy, ?_⟩
    by_cases h0 : toRat y = 0
    · obtain ⟨s, hs⟩ := isZero_iff.mp ((isZero_iff_toRat hx).mpr (h.trans h0))
      obtain ⟨t, ht⟩ := isZero_iff.mp ((isZero_iff_toRat hy).mpr h0)
      rw [hs, ht]
      cases s <;> cases t <;> simp
    · exact .inl (congrArg number (eq_of_toRat hx hy h h0))

/-- What equals a finite scalar is finite. -/
theorem finite_of_beq (hx : Scalar.isFinite x) (h : x == y) : Scalar.isFinite y := by
  rw [beq_eq] at h
  obtain ⟨-, -, h | h | h⟩ := Float.Model.UnpackedFloat.beq_iff_ne_notANumber_and_eq _ _ |>.mp h
  · rwa [← number_injective h]
  · exact isFinite_of_isZero (isZero_iff.mpr ⟨_, h.2⟩)
  · exact isFinite_of_isZero (isZero_iff.mpr ⟨_, h.2⟩)

/-- The difference of equal numbers is a zero. -/
theorem isZero_sub (hx : Scalar.isFinite x) (hy : Scalar.isFinite y) (h : toRat x = toRat y) :
    Scalar.isZero (x - y) := by
  have hnear := nearest_sub hx hy
  rw [h, sub_self, ← toRat_zero (α := α)] at hnear
  obtain ⟨hf, h0⟩ := hnear.exact
  exact (isZero_iff_toRat hf).mpr (h0.trans toRat_zero)

/-- A zero that is divided by anything finite but a zero is one. -/
theorem isZero_div (hz : Scalar.isZero z) (hw : Scalar.isFinite w) (hw0 : ¬ Scalar.isZero w) :
    Scalar.isZero (z / w) := by
  have hf := isFinite_of_isZero hz
  have hnear := nearest_div hf hw hw0
  rw [(isZero_iff_toRat hf).mp hz, zero_div, ← toRat_zero (α := α)] at hnear
  obtain ⟨hf, h0⟩ := hnear.exact
  exact (isZero_iff_toRat hf).mpr (h0.trans toRat_zero)

/-- A zero added to a finite scalar leaves its number. -/
theorem toRat_add_of_isZero (hx : Scalar.isFinite x) (hz : Scalar.isZero z) :
    Scalar.isFinite (x + z) ∧ toRat (x + z) = toRat x := by
  have hf := isFinite_of_isZero hz
  have hnear := nearest_add hx hf
  rw [(isZero_iff_toRat hf).mp hz, add_zero] at hnear
  exact hnear.exact

/-- What a positive number unpacks to. -/
theorem number_of_pos (hy : 0 < toRat y) : ∃ m e hm, number y = .finite .positive m e hm := by
  have hf := finite_of_toRat hy.ne'
  obtain ⟨hnot, hdef⟩ := isAmount_iff_number.mp (isAmount_of_finite hf hy.le)
  have hzero := number_ne_zero fun h => hy.ne' ((isZero_iff_toRat hf).mp h)
  rw [isFinite_eq_number] at hf
  cases hn : number y with
  | notANumber => exact absurd hn hdef
  | infinity s => rw [hn] at hf; cases hf
  | zero s => exact absurd hn (hzero s)
  | finite s m e hm =>
    rw [hn] at hnot
    rw [show s = .positive from hnot]
    exact ⟨m, e, hm, rfl⟩

/-- Zero times a positive number, or divided by one, is that same zero. -/
theorem zero_mul_of_pos (hy : 0 < toRat y) : 0 * y = 0 := by
  obtain ⟨m, e, hm, hn⟩ := number_of_pos hy
  refine number_injective ?_
  rw [number_mul, number_zero, hn]
  exact Float.Model.UnpackedFloat.unpack_packedZero

@[inherit_doc zero_mul_of_pos]
theorem zero_div_of_pos (hy : 0 < toRat y) : 0 / y = 0 := by
  obtain ⟨m, e, hm, hn⟩ := number_of_pos hy
  refine number_injective ?_
  rw [number_div, number_zero, hn]
  exact Float.Model.UnpackedFloat.unpack_packedZero

end

/-! ## Moments in one pass -/

namespace Moments

variable {a b m : Moments α} {q : ℚ} {H K : Multiset (Observation α)}

/-- The mean is `q` and there is no spread. -/
structure Single (q : ℚ) (m : Moments α) : Prop where
  finite : Scalar.isFinite m.mean
  mean : toRat m.mean = q
  m2 : m.m2 = 0

/-- **Two parts without spread and with one mean** make a whole without spread and with that mean,
if the weight of the whole is finite. -/
theorem Single.combine (ha : Single q a) (hb : Single q b) (hwa : IsAmount a.weight)
    (hwb : IsAmount b.weight) (hza : ¬ Scalar.isZero a.weight)
    (hw : Scalar.isFinite (a.weight + b.weight)) : Single q (combine a b) := by
  obtain ⟨hfa, hfb⟩ := finite_of_add hw
  have hw0 : ¬ Scalar.isZero (a.weight + b.weight) := hwa.add_not_isZero hwb hza
  have hd : Scalar.isZero (b.mean - a.mean) :=
    isZero_sub hb.finite ha.finite (hb.mean.trans ha.mean.symm)
  have hd2 := isZero_mul hd (isFinite_of_isZero hd)
  have hmean := toRat_add_of_isZero ha.finite (isZero_div (isZero_mul hd hfb) hw hw0)
  refine ⟨hmean.1, hmean.2.trans ha.mean, ?_⟩
  show a.m2 + b.m2 + (b.mean - a.mean) * (b.mean - a.mean) * a.weight * b.weight /
    (a.weight + b.weight) = 0
  rw [ha.m2, hb.m2, add_zero_of_isZero not_negativeZero_zero isZero_zero]
  exact add_zero_of_isZero not_negativeZero_zero
    (isZero_div (isZero_mul (isZero_mul hd2 hfa) hfb) hw hw0)

/-- What moments keep of the observations behind them: that some have weight, and, until the weight
overflows, the one value of these. -/
structure Concentrates (q : ℚ) (m : Moments α) (H : Multiset (Observation α)) : Prop where
  weight : IsAmount m.weight
  weighted : (∃ o ∈ H, 0 < o.weight) → ¬ Scalar.isZero m.weight
  single : (∀ o ∈ H, 0 < o.weight → toRat o.value = q) → Scalar.isFinite m.weight →
    ¬ Scalar.isZero m.weight → Single q m

namespace Concentrates

theorem empty : Concentrates q (.empty : Moments α) 0 where
  weight := isAmount_zero
  weighted h := absurd h (by simp)
  single _ _ h := absurd isZero_zero h

theorem point {o : Observation α} (ho : o.Valid) :
    Concentrates q (.point o.value o.weight) {o} where
  weight := Summary.isAmount_of_valid ho
  weighted h := by
    obtain ⟨p, hp, hpos⟩ := h
    rw [Multiset.mem_singleton.mp hp] at hpos
    exact (weight_pos_iff ho).mp hpos
  single h _ hz := ⟨ho.2.2, h o (Multiset.mem_singleton_self o) ((weight_pos_iff ho).mpr hz), rfl⟩

theorem merge (ha : Concentrates q a H) (hb : Concentrates q b K) :
    Concentrates q (a.merge b) (H + K) where
  weight := isAmount_merge ha.weight hb.weight
  weighted h := by
    have hparts : ¬ Scalar.isZero a.weight ∨ ¬ Scalar.isZero b.weight := by
      obtain ⟨o, ho, hpos⟩ := h
      exact (Multiset.mem_add.mp ho).imp (fun ho => ha.weighted ⟨o, ho, hpos⟩)
        fun ho => hb.weighted ⟨o, ho, hpos⟩
    rcases merge_cases a b with ⟨hz, he⟩ | ⟨hz, he⟩ | ⟨hza, -, he⟩ <;> rw [he]
    · exact hparts.resolve_right (not_not_intro hz)
    · exact hparts.resolve_left (not_not_intro hz)
    · exact ha.weight.add_not_isZero hb.weight hza
  single h hf hz := by
    have hH := ha.single fun o ho => h o (Multiset.mem_add.mpr (.inl ho))
    have hK := hb.single fun o ho => h o (Multiset.mem_add.mpr (.inr ho))
    rcases merge_cases a b with ⟨-, he⟩ | ⟨-, he⟩ | ⟨hza, hzb, he⟩ <;> rw [he] at hf hz ⊢
    · exact hH hf hz
    · exact hK hf hz
    · obtain ⟨hfa, hfb⟩ := finite_of_add (x := a.weight) (y := b.weight) hf
      exact (hH hfa hza).combine (hK hfb hzb) ha.weight hb.weight hza hf

end Concentrates

/-- The variance without spread is zero. -/
theorem Single.variance {n : UInt64} (h : Single q m) (hw : IsAmount m.weight)
    (hf : Scalar.isFinite m.weight) (hz : ¬ Scalar.isZero m.weight) (hn : 2 ≤ n) :
    m.variance n = 0 := by
  have hpos : 0 < toRat m.weight :=
    (hw.toRat_nonneg hf).lt_of_ne fun h => hz ((isZero_iff_toRat hf).mpr h.symm)
  have hcount := (atLeast_ofCount (α := α) (e := 0)
    (UInt64.le_iff_toNat_le.mp (UInt64.le_trans (by decide : (1 : UInt64) ≤ 2) hn))).pos
  have hpred := (atLeast_ofCount_pred (α := α) hn).pos
  show m.m2 / m.weight * Scalar.ofCount n / (Scalar.ofCount n - 1) = 0
  rw [h.m2, zero_div_of_pos hpos, zero_mul_of_pos hcount, zero_div_of_pos hpred]

/-! ## Moments in two passes -/

/-- **Two passes over constant data** find that value and no spread, whatever became of the weight
sum. -/
theorem ofObservations_of_constant {os : List (Observation α)} (hos : ∀ o ∈ os, o.Valid)
    (hw : ∃ o ∈ os, 0 < o.weight) (h : ∀ o ∈ os, 0 < o.weight → toRat o.value = q) :
    Single q (ofObservations os) := by
  have hmem {x : α} := mem_weighty_iff (fun o ho => (hos o ho).2.2) (x := x)
  obtain ⟨lo, hi, he, hlo, hhi, hall⟩ := exists_extent hos hw
  have hvalue {x : α} (hx : x ∈ weighty os) : toRat x = q := by
    obtain ⟨o, ho, hpos, rfl⟩ := hmem.mp hx
    exact h o ho hpos
  have hle : hi ≤ lo := (le_iff_toRat (hall hi hhi).1 (hall lo hlo).1).mpr
    (by rw [hvalue hhi, hvalue hlo])
  rw [ofObservations_of_flat ((not_isZero_weight_iff hos).mpr hw) he hle]
  exact ⟨(hall lo hlo).1, hvalue hlo, rfl⟩

end Moments

/-! ## Answers -/

section

variable {ω : Type} {q : ℚ}

/-- A spread that is asked for where there is none. -/
theorem Summary.requireSpread_of_single {m : Moments α} (h : m.Single q) :
    (Summary.requireSpread m : Except (Fault ω) Unit) = .error .zeroVariance :=
  if_pos (by rw [h.m2]; exact isZero_zero)

/-- **A summary of constant data** answers its value, a variance of zero, and no more. -/
theorem Summary.answers_of_single {s : Summary α} (h : s.moments.Single q)
    (hw : IsAmount s.moments.weight) (hf : Scalar.isFinite s.moments.weight)
    (hz : ¬ Scalar.isZero s.moments.weight) (h4 : 4 ≤ s.samples) :
    (s.mean : Except (Fault ω) α) = .ok s.moments.mean ∧
      (s.variance : Except (Fault ω) α) = .ok 0 ∧
      (s.skewness : Except (Fault ω) α) = .error .zeroVariance ∧
      (s.kurtosis : Except (Fault ω) α) = .error .zeroVariance := by
  have hguard {required : UInt64} (hr : required ≤ 4) :
      (s.requireMoments required : Except (Fault ω) Unit) = .ok () := by
    have h0 : s.samples ≠ 0 := fun h0 => by
      rw [h0] at h4
      exact absurd h4 (by decide)
    rw [requireMoments, Fault.requireSamples_ok h0 (UInt64.le_trans hr h4)]
    exact if_neg hz
  refine ⟨?_, ?_, ?_, ?_⟩
  · rw [mean, hguard (by decide)]
    rfl
  · rw [variance_ok (UInt64.le_trans (by decide) h4) hz,
      h.variance hw hf hz (UInt64.le_trans (by decide) h4)]
  · rw [skewness, hguard (by decide), requireSpread_of_single h]
    rfl
  · rw [kurtosis, hguard (by decide), requireSpread_of_single h]
    rfl

variable [Wide α ω]

/-- **A sample of constant data** answers its value, and neither shape in either form. -/
theorem Sample.answers_of_single {s : Sample α} (hvalid : ∀ o ∈ s.observations, o.Valid)
    (h : (Moments.ofObservations s.observations).Single q)
    (hz : ¬ Scalar.isZero (Moments.ofObservations s.observations).weight) (h4 : 4 ≤ s.count) :
    s.estimate .mean = (.ok (Moments.ofObservations s.observations).mean : Except (Fault ω) α) ∧
      ∀ form, s.estimate (.skewness form) = (.error .zeroVariance : Except (Fault ω) α) ∧
        s.estimate (.kurtosis form) = (.error .zeroVariance : Except (Fault ω) α) := by
  have hmoments {required : UInt64} (hr : required ≤ 4) :
      (s.moments required : Except (Fault ω) (Moments α)) =
        .ok (Moments.ofObservations s.observations) := by
    have h0 : s.count ≠ 0 := fun h0 => by
      rw [h0] at h4
      exact absurd h4 (by decide)
    exact moments_ok hvalid h0 (UInt64.le_trans hr h4) hz
  have hspread {required : UInt64} (hr : required ≤ 4) :
      (s.spreadMoments required : Except (Fault ω) (Moments α)) = .error .zeroVariance := by
    rw [spreadMoments, hmoments hr]
    show (do Summary.requireSpread _; return _) = _
    rw [Summary.requireSpread_of_single h]
    rfl
  constructor
  · rw [estimate, hmoments (by decide)]
    rfl
  · intro form
    cases form <;> constructor <;> rw [estimate, hspread (by decide)] <;> rfl

end

namespace Summary

variable {ω : Type} [Wide α ω]

/-- **Constant data have exactly zero spread on both paths**, in either float format: four
observations or more, all valid and not all without weight, of which those with weight have values
equal to `x`. Under every name of a session that holds these observations, brought and merged in
whatever way, with a finite sum of the weights, the mean equals `x`, the variance is zero, and
skewness and kurtosis fail for lack of variance. The batch estimators of the list do the same,
whatever the sum of the weights. -/
theorem constant_data (x : α) (os : List (Observation α)) (hvalid : ∀ o ∈ os, o.Valid)
    (h4 : 4 ≤ os.length) (hn : os.length < 2 ^ 64) (hweight : ∃ o ∈ os, 0 < o.weight)
    (hconstant : ∀ o ∈ os, 0 < o.weight → o.value == x) :
    (∀ (cs : List (String × Command α)) (name : String), held cs name = os →
      Scalar.isFinite (session cs name).weightSum →
      (∃ m, ((session cs name).mean : Except (Fault ω) α) = .ok m ∧ m == x) ∧
        ((session cs name).variance : Except (Fault ω) α) = .ok 0 ∧
        ((session cs name).skewness : Except (Fault ω) α) = .error .zeroVariance ∧
        ((session cs name).kurtosis : Except (Fault ω) α) = .error .zeroVariance) ∧
      (∃ m, (Sample.mk os).estimate .mean = (.ok m : Except (Fault ω) α) ∧ m == x) ∧
      ∀ form,
        (Sample.mk os).estimate (.skewness form) = (.error .zeroVariance : Except (Fault ω) α) ∧
        (Sample.mk os).estimate (.kurtosis form) = (.error .zeroVariance : Except (Fault ω) α) := by
  have hx : Scalar.isFinite x := by
    obtain ⟨o, ho, hpos⟩ := hweight
    exact finite_of_beq (hvalid o ho).2.2 (hconstant o ho hpos)
  have hvalues : ∀ o ∈ os, 0 < o.weight → toRat o.value = toRat x := fun o ho hpos =>
    (beq_iff_toRat (hvalid o ho).2.2 hx).mp (hconstant o ho hpos)
  have hcount : 4 ≤ UInt64.ofNat os.length := by
    rw [UInt64.le_iff_toNat_le, UInt64.toNat_ofNat_of_lt' hn]
    exact h4
  have hequal {m : Moments α} (hm : m.Single (toRat x)) : m.mean == x :=
    (beq_iff_toRat hm.finite hx).mpr hm.mean
  constructor
  · intro cs name hheld hfinite
    have hcard : (held cs name).card < 2 ^ 64 := by rwa [hheld]
    obtain ⟨-, hkept⟩ := (tracks_moments (P := Moments.Concentrates (toRat x)) .empty .point
      .merge).run cs name hcard
    rw [hheld] at hkept
    have hz := hkept.weighted hweight
    have hsingle := hkept.single hvalues hfinite hz
    have hsamples : 4 ≤ (session cs name).samples := by
      rw [samples_keeps.run cs name, hheld]
      exact hcount
    obtain ⟨hmean, hrest⟩ := answers_of_single (ω := ω) hsingle hkept.weight hfinite hz hsamples
    exact ⟨⟨_, hmean, hequal hsingle⟩, hrest⟩
  · have hsingle := Moments.ofObservations_of_constant hvalid hweight hvalues
    have hz := (Moments.not_isZero_weight_iff hvalid).mpr hweight
    rw [← Moments.weight_ofObservations] at hz
    obtain ⟨hmean, hrest⟩ :=
      Sample.answers_of_single (ω := ω) (s := ⟨os⟩) hvalid hsingle hz hcount
    exact ⟨⟨_, hmean, hequal hsingle⟩, hrest⟩

/-- Weights whose squares vanish, and two values without weight, ingested in two parts and
merged. -/
theorem constant_data_float :
    let os : List (Observation Float) :=
      [⟨0.1, 5e-324⟩, ⟨1e300, 0⟩, ⟨0.1, 1e-310⟩, ⟨-7, 0⟩, ⟨0.1, 3e-320⟩]
    let cs : List (String × Command Float) :=
      [("a", .addWeighted [-7, 0.1] [0, 1e-310]),
        ("b", .addWeighted [0.1, 1e300, 0.1] [3e-320, 0, 5e-324]), ("b", .merge "a")]
    held cs "b" = os ∧
      (∃ m, ((session cs "b").mean : Except (Fault Float) Float) = .ok m ∧ m == 0.1) ∧
      ((session cs "b").variance : Except (Fault Float) Float) = .ok 0 ∧
      ((session cs "b").skewness : Except (Fault Float) Float) = .error .zeroVariance ∧
      (Sample.mk os).estimate (.kurtosis .plugIn) =
        (.error .zeroVariance : Except (Fault Float) Float) := by
  intro os cs
  have hheld : held cs "b" = os := by decide +kernel
  obtain ⟨hstream, -, hbatch⟩ := constant_data (ω := Float) 0.1 os (by decide +kernel)
    (by decide) (by decide) (by decide +kernel) (by decide +kernel)
  obtain ⟨hmean, hvariance, hskewness, -⟩ := hstream cs "b" hheld (by decide +kernel)
  exact ⟨hheld, hmean, hvariance, hskewness, (hbatch .plugIn).2⟩

end Summary

end RunningStats
