import RunningStats.Summary.Confidence

/-!
# What an answer tells of a summary

A query that answers has passed its guards: there were enough observations, some weight and, where
it asks for one, a spread that is not zero. The lemmas below read this off an answer, for scalars of
any kind; `map_bind_map` and `guard_map` carry a change of the numbers through the same guards.

A confidence interval is answered from the variance, at a level between zero and one
(`meanIntervalWith_eq`); any other level is refused whatever was observed.
-/

namespace RunningStats

variable {α ω β : Type} [Scalar α] {s : Summary α} {required : UInt64} {v : β}

/-- A guard that was passed. -/
theorem of_bind_ok {γ ε : Type} {x : Except ε γ} {f : γ → Except ε β}
    (h : x >>= f = .ok v) : ∃ a, x = .ok a ∧ f a = .ok v := by
  cases x with
  | error e => cases h
  | ok a => exact ⟨a, rfl, h⟩

section Map

variable {ε γ δ γ' δ' : Type} {φ : γ → γ'} {ψ : δ → δ'}

/-- A result made from that of another step is replaced where every value of the step is. -/
theorem map_bind_map {x : Except ε γ} {f : γ' → Except ε δ'} {g : γ → Except ε δ}
    (h : ∀ c, x = .ok c → f (φ c) = (g c).map ψ) : (x.map φ >>= f) = (x >>= g).map ψ := by
  cases x with
  | error e => rfl
  | ok c => exact h c rfl

theorem guard_map {x : Except ε Unit} {f : Except ε δ'} {g : Except ε δ}
    (h : x = .ok () → f = g.map ψ) : (do x; f) = (do x; g).map ψ := by
  cases x with
  | error e => rfl
  | ok u => exact h rfl

end Map

theorem Fault.of_requireSamples {available : UInt64} {u : Unit}
    (h : (Fault.requireSamples required available : Except (Fault ω) Unit) = .ok u) :
    available ≠ 0 ∧ required ≤ available := by
  unfold Fault.requireSamples at h
  split at h
  · cases h
  · rename_i h0
    split at h
    · cases h
    · rename_i hlt
      exact ⟨h0, UInt64.not_lt.mp hlt⟩

theorem Fault.requireSamples_ok {available : UInt64} (h : available ≠ 0)
    (hle : required ≤ available) :
    (Fault.requireSamples required available : Except (Fault ω) Unit) = .ok () := by
  rw [Fault.requireSamples, if_neg h, if_neg (UInt64.not_lt.mpr hle)]

theorem Fault.requireSamples_one {available : UInt64} (h : available ≠ 0) :
    (Fault.requireSamples 1 available : Except (Fault ω) Unit) = .ok () :=
  requireSamples_ok h (UInt64.le_iff_toNat_le.mpr
    (Nat.pos_of_ne_zero fun h0 => h (UInt64.toNat_inj.mp h0)))

namespace Summary

theorem of_requireMoments {u : Unit}
    (h : (s.requireMoments required : Except (Fault ω) Unit) = .ok u) :
    s.samples ≠ 0 ∧ required ≤ s.samples ∧ ¬ Scalar.isZero s.moments.weight := by
  obtain ⟨a, ha, h⟩ := of_bind_ok h
  obtain ⟨h0, hle⟩ := Fault.of_requireSamples ha
  split at h
  · cases h
  · rename_i hz
    exact ⟨h0, hle, hz⟩

theorem of_requireSpread {m : Moments α} {u : Unit}
    (h : (requireSpread m : Except (Fault ω) Unit) = .ok u) : ¬ Scalar.isZero m.m2 := by
  unfold requireSpread at h
  split at h
  · cases h
  · assumption

variable {x : α}

theorem of_mean (h : (s.mean : Except (Fault ω) α) = .ok x) :
    s.samples ≠ 0 ∧ ¬ Scalar.isZero s.moments.weight ∧ s.moments.mean = x := by
  obtain ⟨u, hu, h⟩ := of_bind_ok h
  obtain ⟨h0, -, hz⟩ := of_requireMoments hu
  exact ⟨h0, hz, Except.ok.inj h⟩

theorem of_variance (h : (s.variance : Except (Fault ω) α) = .ok x) :
    2 ≤ s.samples ∧ ¬ Scalar.isZero s.moments.weight ∧ s.moments.variance s.samples = x := by
  obtain ⟨u, hu, h⟩ := of_bind_ok h
  obtain ⟨-, h2, hz⟩ := of_requireMoments hu
  exact ⟨h2, hz, Except.ok.inj h⟩

theorem of_standardDeviation (h : (s.standardDeviation : Except (Fault ω) α) = .ok x) :
    ∃ v, (s.variance : Except (Fault ω) α) = .ok v ∧ Scalar.sqrt v = x := by
  obtain ⟨v, hv, h⟩ := of_bind_ok h
  exact ⟨v, hv, Except.ok.inj h⟩

theorem of_standardError (h : (s.standardError : Except (Fault ω) α) = .ok x) :
    ∃ v, (s.variance : Except (Fault ω) α) = .ok v ∧
      Scalar.sqrt (v / Scalar.ofCount s.samples) = x := by
  obtain ⟨v, hv, h⟩ := of_bind_ok h
  exact ⟨v, hv, Except.ok.inj h⟩

/-- A standard error comes with at least one degree of freedom. -/
theorem sub_one_ne_zero_of_standardError (h : (s.standardError : Except (Fault ω) α) = .ok x) :
    s.samples - 1 ≠ 0 := by
  obtain ⟨v, hv, -⟩ := of_standardError h
  obtain ⟨h2, -, -⟩ := of_variance hv
  intro h0
  rw [← UInt64.sub_add_cancel s.samples 1, h0] at h2
  exact absurd h2 (by decide)

theorem of_skewness (h : (s.skewness : Except (Fault ω) α) = .ok x) :
    3 ≤ s.samples ∧ ¬ Scalar.isZero s.moments.weight ∧ s.moments.skewness s.samples = x := by
  obtain ⟨u, hu, h⟩ := of_bind_ok h
  obtain ⟨-, h3, hz⟩ := of_requireMoments hu
  obtain ⟨u', -, h⟩ := of_bind_ok h
  exact ⟨h3, hz, Except.ok.inj h⟩

theorem of_kurtosis (h : (s.kurtosis : Except (Fault ω) α) = .ok x) :
    4 ≤ s.samples ∧ ¬ Scalar.isZero s.moments.weight ∧ s.moments.kurtosis s.samples = x := by
  obtain ⟨u, hu, h⟩ := of_bind_ok h
  obtain ⟨-, h4, hz⟩ := of_requireMoments hu
  obtain ⟨u', -, h⟩ := of_bind_ok h
  exact ⟨h4, hz, Except.ok.inj h⟩

theorem of_downsideVariance (h : (s.downsideVariance : Except (Fault ω) α) = .ok x) :
    2 ≤ s.downsideSamples ∧ ¬ Scalar.isZero s.downsideWeight.sum ∧
      s.downsideSquares.sum / s.downsideWeight.sum * Scalar.ofCount s.downsideSamples /
        (Scalar.ofCount s.downsideSamples - 1) = x := by
  obtain ⟨u, -, h⟩ := of_bind_ok h
  split at h
  · cases h
  · rename_i h2
    dsimp only at h
    split at h
    · cases h
    · rename_i hz
      exact ⟨UInt64.not_lt.mp h2, hz, Except.ok.inj h⟩

theorem of_downsideDeviation (h : (s.downsideDeviation : Except (Fault ω) α) = .ok x) :
    ∃ v, (s.downsideVariance : Except (Fault ω) α) = .ok v ∧ Scalar.sqrt v = x := by
  obtain ⟨v, hv, h⟩ := of_bind_ok h
  exact ⟨v, hv, Except.ok.inj h⟩

/-- The variance answers what the moments make of it. -/
theorem variance_ok (h2 : 2 ≤ s.samples) (hz : ¬ Scalar.isZero s.moments.weight) :
    (s.variance : Except (Fault ω) α) = .ok (s.moments.variance s.samples) := by
  have h0 : s.samples ≠ 0 := fun h0 => by
    rw [h0] at h2
    exact absurd h2 (by decide)
  rw [variance, requireMoments, Fault.requireSamples_ok h0 h2, if_neg hz]
  rfl

/-- Where there is a variance, there is a mean. -/
theorem mean_ok_of_variance (h : (s.variance : Except (Fault ω) α) = .ok x) :
    (s.mean : Except (Fault ω) α) = .ok s.moments.mean := by
  obtain ⟨u, hu, -⟩ := of_bind_ok h
  obtain ⟨h0, -, hz⟩ := of_requireMoments hu
  rw [mean, requireMoments, Fault.requireSamples_one h0, if_neg hz]
  rfl

omit [Scalar α] in
theorem minimum_ok (h : s.samples ≠ 0) : (s.minimum : Except (Fault ω) α) = .ok s.min := by
  rw [minimum, Fault.requireSamples_one h]
  rfl

omit [Scalar α] in
theorem maximum_ok (h : s.samples ≠ 0) : (s.maximum : Except (Fault ω) α) = .ok s.max := by
  rw [maximum, Fault.requireSamples_one h]
  rfl

/-! ## Intervals -/

/-- The guards of the variance do not look at a level. -/
theorem variance_ne_invalidConfidence (level : ω) :
    (s.variance : Except (Fault ω) α) ≠ .error (.invalidConfidence level) := by
  unfold variance requireMoments Fault.requireSamples
  split
  · exact nofun
  · split
    · exact nofun
    · split <;> exact nofun

section Intervals

variable [Scalar ω] [Wide α ω] {quantile : UInt64 → ω → ω} {level : ω}

/-- At a level between zero and one, the interval is made from the variance, or has its fault. -/
theorem meanIntervalWith_eq (hl : 0 < level ∧ level < 1) :
    s.meanIntervalWith quantile level = s.variance.map fun v =>
      Interval.symmetric s.moments.mean
        (narrow (quantile (s.samples - 1) (upperProbability level)) *
          Scalar.sqrt (v / Scalar.ofCount s.samples)) level := by
  rw [meanIntervalWith, if_neg (not_not_intro hl), standardError]
  cases (s.variance : Except (Fault ω) α) <;> rfl

/-- Where there is a variance, there is an interval. -/
theorem meanIntervalWith_ok (hl : 0 < level ∧ level < 1)
    (h : (s.variance : Except (Fault ω) α) = .ok x) :
    s.meanIntervalWith quantile level = .ok (Interval.symmetric s.moments.mean
      (narrow (quantile (s.samples - 1) (upperProbability level)) *
        Scalar.sqrt (x / Scalar.ofCount s.samples)) level) := by
  rw [meanIntervalWith_eq hl, h]
  rfl

/-- Between zero and one, the faults are those of the variance. -/
theorem meanIntervalWith_eq_error_iff (hl : 0 < level ∧ level < 1) (e : Fault ω) :
    s.meanIntervalWith quantile level = .error e ↔ s.variance = .error e := by
  rw [meanIntervalWith_eq hl]
  cases (s.variance : Except (Fault ω) α) with
  | error e' =>
    exact ⟨fun h => congrArg _ (Except.error.inj h), fun h => congrArg _ (Except.error.inj h)⟩
  | ok v => exact ⟨nofun, nofun⟩

/-- **A level is refused just where it does not lie between zero and one.** -/
theorem meanIntervalWith_eq_invalidConfidence_iff :
    s.meanIntervalWith quantile level = .error (.invalidConfidence level) ↔
      ¬(0 < level ∧ level < 1) := by
  constructor
  · intro h hl
    exact variance_ne_invalidConfidence level ((meanIntervalWith_eq_error_iff hl _).mp h)
  · intro hl
    rw [meanIntervalWith, if_pos hl]

end Intervals

end Summary

end RunningStats
