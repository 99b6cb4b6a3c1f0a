import RunningStats.Proofs.Exact.Units

/-!
# Corrections for the size of a sample

The corrected estimators do not call the plug-in ones: they read the moments afresh, take powers of
a variance that is corrected already, and have a factor of their own in front. Over the reals all
of this is a correction of the plug-in value that depends on the number of observations alone. The
power of `n / (n - 1)` under the root of the variance leaves `√(n * (n - 1))` for the skewness, and
its square cancels in the kurtosis, whose shift becomes part of an affine map.

* `variance_eq_population`, `skewness_eq_population`, `kurtosis_eq_population`: the corrections,
  for any moments, also where they divide by a spread of zero;
* `Sample.moments_enough`: the number of observations asked for does not matter once it is there,
  so both forms pass the same guards;
* `Sample.forms_related`: both together, for every sample.
-/

namespace RunningStats

/-! ## Moments -/

namespace Moments

variable (m : Moments ℝ) {n : UInt64}

theorem variance_eq_population :
    m.variance n = n.toNat / (n.toNat - 1) * m.populationVariance := by
  rw [variance_eq, mul_comm, populationVariance]

/-- A root is zero where there is none, so its cube can be taken apart anywhere. -/
theorem sqrt_pow_three (v : ℝ) : √v ^ 3 = v * √v := by
  rcases le_total 0 v with hv | hv
  · rw [pow_succ, Real.sq_sqrt hv]
  · rw [Real.sqrt_eq_zero_of_nonpos hv, mul_zero, zero_pow three_ne_zero]

/-- The cube of the corrected deviation, over that of the plug-in one. -/
theorem cube_deviation (hn : 3 ≤ n.toNat) :
    Scalar.sqrt (m.variance n) ^ 3 =
      (n.toNat : ℝ) ^ 2 / ((n.toNat - 1) * √(n.toNat * (n.toNat - 1))) *
        (m.populationVariance * Scalar.sqrt m.populationVariance) := by
  have hc : (3 : ℝ) ≤ n.toNat := by exact_mod_cast hn
  have h0 : (0 : ℝ) < n.toNat := by linarith
  have h1 : (0 : ℝ) < n.toNat - 1 := by linarith
  have hratio : (n.toNat : ℝ) / (n.toNat - 1) * √(n.toNat / (n.toNat - 1)) =
      (n.toNat : ℝ) ^ 2 / ((n.toNat - 1) * √(n.toNat * (n.toNat - 1))) := by
    have hroot : √((n.toNat : ℝ) / (n.toNat - 1)) * √(n.toNat * (n.toNat - 1)) = n.toNat := by
      rw [← Real.sqrt_mul (div_pos h0 h1).le, mul_comm, mul_assoc, mul_div_cancel₀ _ h1.ne',
        Real.sqrt_mul_self h0.le]
    have hpos : 0 < √((n.toNat : ℝ) * (n.toNat - 1)) := Real.sqrt_pos.mpr (mul_pos h0 h1)
    rw [eq_div_iff (mul_pos h1 hpos).ne']
    calc (n.toNat : ℝ) / (n.toNat - 1) * √(n.toNat / (n.toNat - 1)) *
          ((n.toNat - 1) * √(n.toNat * (n.toNat - 1)))
        = n.toNat / (n.toNat - 1) * (n.toNat - 1) *
          (√(n.toNat / (n.toNat - 1)) * √(n.toNat * (n.toNat - 1))) := by ring
      _ = (n.toNat : ℝ) ^ 2 := by rw [hroot, div_mul_cancel₀ _ h1.ne', sq]
  show √(m.variance n) ^ 3 = _ * (m.populationVariance * √m.populationVariance)
  rw [variance_eq_population, Real.sqrt_mul (div_pos h0 h1).le, mul_pow, sqrt_pow_three,
    sqrt_pow_three, hratio]

/-- **The correction of the skewness.** -/
theorem skewness_eq_population (hn : 3 ≤ n.toNat) :
    m.skewness n =
      √(n.toNat * (n.toNat - 1)) / (n.toNat - 2) * m.populationSkewness := by
  have hc : (3 : ℝ) ≤ n.toNat := by exact_mod_cast hn
  have h0 : (0 : ℝ) < n.toNat := by linarith
  have h1 : (0 : ℝ) < n.toNat - 1 := by linarith
  have h2 : (0 : ℝ) < n.toNat - 2 := by linarith
  have hroot : 0 < √((n.toNat : ℝ) * (n.toNat - 1)) := Real.sqrt_pos.mpr (mul_pos h0 h1)
  have hfactor : (n.toNat : ℝ) ^ 2 / ((n.toNat - 1) * (n.toNat - 2)) /
      ((n.toNat : ℝ) ^ 2 / ((n.toNat - 1) * √(n.toNat * (n.toNat - 1)))) =
      √(n.toNat * (n.toNat - 1)) / (n.toNat - 2) := by
    field_simp
  rw [skewness_eq, cube_deviation m hn, mul_div_mul_comm, hfactor]
  rfl

/-- **The correction of the kurtosis.** -/
theorem kurtosis_eq_population (hn : 4 ≤ n.toNat) :
    m.kurtosis n = (n.toNat - 1) / ((n.toNat - 2) * (n.toNat - 3)) *
      ((n.toNat + 1) * m.populationKurtosis + 6) := by
  have hc : (4 : ℝ) ≤ n.toNat := by exact_mod_cast hn
  have h0 : (0 : ℝ) < n.toNat := by linarith
  have h1 : (0 : ℝ) < n.toNat - 1 := by linarith
  have h2 : (0 : ℝ) < n.toNat - 2 := by linarith
  have h3 : (0 : ℝ) < n.toNat - 3 := by linarith
  have hthree : (Scalar.ofCount 3 : ℝ) = 3 := by simp
  have hfactor : (n.toNat : ℝ) ^ 2 * (n.toNat + 1) /
      ((n.toNat - 1) * (n.toNat - 2) * (n.toNat - 3)) / (n.toNat / (n.toNat - 1)) ^ 2 =
      (n.toNat - 1) * (n.toNat + 1) / ((n.toNat - 2) * (n.toNat - 3)) := by
    field_simp
  rw [kurtosis_eq, variance_eq_population, mul_pow, mul_div_mul_comm, hfactor, populationKurtosis,
    hthree, ← sq]
  field_simp
  ring

end Moments

/-! ## Samples -/

namespace Sample

section Forms

variable {ω : Type} [Wide ℝ ω] {s : Sample ℝ} {required asked : UInt64}

/-- A sample gives the same moments, or the same fault, whatever was asked of it, as long as it was
something and it is there. -/
theorem moments_enough (h0 : required ≠ 0) (hr : required ≤ asked) (ha : asked ≤ s.count) :
    (s.moments asked : Except (Fault ω) (Moments ℝ)) = s.moments required := by
  have hle : required ≤ s.count := UInt64.le_trans hr ha
  have hcount : s.count ≠ 0 := fun hc =>
    h0 (UInt64.le_antisymm (hc ▸ hle) UInt64.zero_le)
  rw [moments, moments, Fault.requireSamples_ok hcount ha, Fault.requireSamples_ok hcount hle]

theorem spreadMoments_enough (h0 : required ≠ 0) (hr : required ≤ asked) (ha : asked ≤ s.count) :
    (s.spreadMoments asked : Except (Fault ω) (Moments ℝ)) = s.spreadMoments required := by
  rw [spreadMoments, spreadMoments, moments_enough h0 hr ha]

theorem le_count_of_moments {m : Moments ℝ}
    (h : (s.moments required : Except (Fault ω) (Moments ℝ)) = .ok m) : required ≤ s.count := by
  obtain ⟨_, -, h⟩ := of_bind_ok h
  obtain ⟨_, hr, -⟩ := of_bind_ok h
  exact (Fault.of_requireSamples hr).2

theorem le_count_of_spreadMoments {m : Moments ℝ}
    (h : (s.spreadMoments required : Except (Fault ω) (Moments ℝ)) = .ok m) :
    required ≤ s.count := by
  obtain ⟨_, hm, -⟩ := of_bind_ok h
  exact le_count_of_moments hm

omit [Wide ℝ ω] in
/-- What is read off the same moments in two ways. -/
theorem read_map {x : Except (Fault ω) (Moments ℝ)} {f g : Moments ℝ → ℝ} {correct : ℝ → ℝ}
    (h : ∀ m, f m = correct (g m)) :
    (do return f (← x)) = (do return g (← x) : Except (Fault ω) ℝ).map correct := by
  cases x with
  | error e => rfl
  | ok m => exact congrArg Except.ok (h m)

omit [Wide ℝ ω] in
/-- A value that is read off another one. -/
theorem value_of_map {x y : Except (Fault ω) ℝ} {correct : ℝ → ℝ} {c p : ℝ}
    (h : x = y.map correct) (hx : x = .ok c) (hy : y = .ok p) : c = correct p := by
  rw [hx, hy] at h
  exact Except.ok.inj h

theorem variance_forms (h2 : 2 ≤ s.count) :
    (s.estimate (.variance .corrected) : Except (Fault ω) ℝ) =
      (s.estimate (.variance .plugIn)).map fun p : ℝ =>
        s.count.toNat / (s.count.toNat - 1) * p := by
  have hm : (s.moments 2 : Except (Fault ω) (Moments ℝ)) = s.moments 1 :=
    moments_enough (by decide) (by decide) h2
  rw [estimate, estimate, variance, variance, hm]
  exact read_map fun m => m.variance_eq_population

theorem skewness_forms (h3 : 3 ≤ s.count) :
    (s.estimate (.skewness .corrected) : Except (Fault ω) ℝ) =
      (s.estimate (.skewness .plugIn)).map fun p : ℝ =>
        √(s.count.toNat * (s.count.toNat - 1)) / (s.count.toNat - 2) * p := by
  have hm : (s.spreadMoments 3 : Except (Fault ω) (Moments ℝ)) = s.spreadMoments 2 :=
    spreadMoments_enough (by decide) (by decide) h3
  rw [estimate, estimate, hm]
  exact read_map fun m => m.skewness_eq_population (UInt64.le_iff_toNat_le.mp h3)

theorem kurtosis_forms (h4 : 4 ≤ s.count) :
    (s.estimate (.kurtosis .corrected) : Except (Fault ω) ℝ) =
      (s.estimate (.kurtosis .plugIn)).map fun p : ℝ =>
        (s.count.toNat - 1) / ((s.count.toNat - 2) * (s.count.toNat - 3)) *
          ((s.count.toNat + 1) * p + 6) := by
  have hm : (s.spreadMoments 4 : Except (Fault ω) (Moments ℝ)) = s.spreadMoments 2 :=
    spreadMoments_enough (by decide) (by decide) h4
  rw [estimate, estimate, hm]
  exact read_map fun m => m.kurtosis_eq_population (UInt64.le_iff_toNat_le.mp h4)

/-- **Corrected and plug-in estimators are related by the textbook corrections.** Where both forms
have a value for a sample, the corrected one is the correction of the other; and from as many
observations on as the corrected form asks for, two, three or four, both forms have a value or both
have the same fault. -/
theorem forms_related (s : Sample ℝ) :
    let n : ℝ := s.count.toNat
    let variance (form : Form) : Except (Fault ω) ℝ := s.estimate (.variance form)
    let skewness (form : Form) : Except (Fault ω) ℝ := s.estimate (.skewness form)
    let kurtosis (form : Form) : Except (Fault ω) ℝ := s.estimate (.kurtosis form)
    let ofVariance (p : ℝ) := n / (n - 1) * p
    let ofSkewness (p : ℝ) := √(n * (n - 1)) / (n - 2) * p
    let ofKurtosis (p : ℝ) := (n - 1) / ((n - 2) * (n - 3)) * ((n + 1) * p + 6)
    (s.size < 2 ^ 64 → n = s.size) ∧
    (∀ c p, variance .corrected = .ok c → variance .plugIn = .ok p → c = ofVariance p) ∧
    (∀ c p, skewness .corrected = .ok c → skewness .plugIn = .ok p → c = ofSkewness p) ∧
    (∀ c p, kurtosis .corrected = .ok c → kurtosis .plugIn = .ok p → c = ofKurtosis p) ∧
    (2 ≤ s.count → variance .corrected = (variance .plugIn).map ofVariance) ∧
    (3 ≤ s.count → skewness .corrected = (skewness .plugIn).map ofSkewness) ∧
    (4 ≤ s.count → kurtosis .corrected = (kurtosis .plugIn).map ofKurtosis) := by
  intro n variance skewness kurtosis ofVariance ofSkewness ofKurtosis
  refine ⟨fun hsize => ?_, fun c p hc hp => ?_, fun c p hc hp => ?_, fun c p hc hp => ?_,
    variance_forms, skewness_forms, kurtosis_forms⟩
  · show ((UInt64.ofNat s.size).toNat : ℝ) = s.size
    rw [UInt64.toNat_ofNat_of_lt' hsize]
  -- a corrected value comes with enough observations
  · obtain ⟨m, hm, -⟩ := of_bind_ok hc
    exact value_of_map (variance_forms (le_count_of_moments hm)) hc hp
  · obtain ⟨m, hm, -⟩ := of_bind_ok hc
    exact value_of_map (skewness_forms (le_count_of_spreadMoments hm)) hc hp
  · obtain ⟨m, hm, -⟩ := of_bind_ok hc
    exact value_of_map (kurtosis_forms (le_count_of_spreadMoments hm)) hc hp

end Forms

/-- Four real numbers, one of them without weight, which counts nevertheless. -/
theorem forms_related_real :
    let s : Sample ℝ := ⟨[⟨1, 1⟩, ⟨-1, 1⟩, ⟨0, 2⟩, ⟨7, 0⟩]⟩
    s.size < 2 ^ 64 ∧ 4 ≤ s.count ∧
      s.estimate (.variance .plugIn) = .ok (1 / 2) ∧
      s.estimate (.variance .corrected) = .ok (2 / 3) ∧
      s.estimate (.kurtosis .plugIn) = .ok (-1) ∧
      s.estimate (.kurtosis .corrected) = .ok (3 / 2) := by
  intro s
  have hsize : s.size < 2 ^ 64 := by decide
  have hcount : 4 ≤ s.count := by decide
  have hmoments (required : UInt64) (hr : required ≤ s.count) :
      s.moments required = .ok ⟨4, 0, 2, 0, 2⟩ := by
    have hvalid : ∀ o ∈ s.observations, o.Valid := by simp [s, Observation.valid_real]
    have h : Moments.ofMultiset (s.observations : Multiset (Observation ℝ)) =
        ⟨4, 0, 2, 0, 2⟩ := by
      norm_num [s, Moments.ofMultiset, Moments.totalWeight, Moments.center, Moments.about]
    have hW : Moments.totalWeight (s.observations : Multiset (Observation ℝ)) = 4 :=
      congrArg Moments.weight h
    rw [moments_of_valid hvalid, Fault.requireSamples_ok (by decide) hr, hW, h,
      if_neg four_ne_zero]
    rfl
  have hspread (required : UInt64) (hr : required ≤ s.count) :
      s.spreadMoments required = .ok ⟨4, 0, 2, 0, 2⟩ := by
    have hm2 : ¬ Scalar.isZero (2 : ℝ) := by simp
    rw [spreadMoments, hmoments required hr]
    show (do Summary.requireSpread _; return _) = _
    rw [Summary.requireSpread, if_neg hm2]
    rfl
  have hvariance : s.estimate (.variance .plugIn) = .ok (1 / 2) := by
    rw [estimate, variance, hmoments 1 (by decide)]
    refine congrArg Except.ok ?_
    norm_num [Moments.populationVariance]
  have hkurtosis : s.estimate (.kurtosis .plugIn) = .ok (-1) := by
    rw [estimate, hspread 2 (by decide)]
    refine congrArg Except.ok ?_
    have h3 : (Scalar.ofCount 3 : ℝ) = 3 := by simp
    rw [Moments.populationKurtosis, h3]
    norm_num [Moments.populationVariance]
  obtain ⟨hn, -, -, -, hv, -, hk⟩ := s.forms_related
  have hn : (s.count.toNat : ℝ) = 4 := (hn hsize).trans (by norm_num [s, size])
  rw [hn] at hv hk
  refine ⟨hsize, hcount, hvariance, (hv (by decide)).trans ?_, hkurtosis, (hk hcount).trans ?_⟩
  · refine (congrArg (Except.map _) hvariance).trans (congrArg Except.ok ?_)
    norm_num
  · refine (congrArg (Except.map _) hkurtosis).trans (congrArg Except.ok ?_)
    norm_num

end Sample

end RunningStats
