import RunningStats.Proofs.Exact.TwoPass
import RunningStats.Proofs.Ingestion
import RunningStats.Sample.Estimators

/-!
# Batch estimators and streaming queries agree

An estimator corrected for the size of the sample and the query of the same statistic on the
running summary make the same checks in the same order, on moments that in exact arithmetic are
the same. `accumulate_cases` says it for the moments: either both refuse the same observation, or
the summary holds the count of the sample and the moments that the estimators ask for.

* `batch_eq_streaming`: so all five estimators give the result of the query, value or fault.

Nothing is asked of the sample: it may be empty, without weight, or hold observations that are
refused. The square root is that of the scalar type, over the reals the real one.
-/

namespace RunningStats

/-! ## What a stream of observations leaves -/

namespace Summary

variable {α : Type} [Scalar α]

theorem moments_foldl_commit (os : List (Observation α)) (s : Summary α) :
    (os.foldl commit s).moments = s.moments.observeAll os := by
  induction os generalizing s with
  | nil => rfl
  | cons o os ih =>
    rw [List.foldl_cons, ih]
    rfl

/-- Counts go on past `2 ^ 64` from zero, for a stream as for the size of a sample. -/
theorem samples_foldl_commit (os : List (Observation α)) (s : Summary α) :
    (os.foldl commit s).samples = s.samples + UInt64.ofNat os.length := by
  induction os generalizing s with
  | nil => exact (UInt64.add_zero _).symm
  | cons o os ih =>
    rw [List.foldl_cons, ih, List.length_cons, UInt64.ofNat_add, UInt64.add_comm (UInt64.ofNat _)]
    exact UInt64.add_assoc _ _ _

end Summary

namespace Sample

variable {K ω : Type} [ExactScalar K] [Wide K ω]

/-- **The moments of a sample are those of its stream**, with the same faults. -/
theorem accumulate_cases (s : Sample K) :
    (∃ e, s.accumulate = .error e ∧ ∀ required, s.moments required = .error e) ∨
      ∃ t, s.accumulate = .ok t ∧ t.samples = s.count ∧ ∀ required,
        s.moments required = (do t.requireMoments required; return t.moments) := by
  have hacc := Summary.result_addAll s.observations Summary.empty
  unfold moments
  rw [Observation.checkAll_eq]
  cases hf : Observation.firstInvalid s.observations with
  | some o =>
    rw [hf] at hacc
    exact .inl ⟨_, hacc, fun _ => rfl⟩
  | none =>
    rw [hf] at hacc
    have hvalid := Observation.firstInvalid_eq_none_iff.mp hf
    have hnn : ∀ o ∈ s.observations, 0 ≤ o.weight := fun o ho => (hvalid o ho).2.1
    have hsamples : (s.observations.foldl Summary.commit Summary.empty).samples = s.count := by
      rw [Summary.samples_foldl_commit]
      exact UInt64.zero_add _
    have hmoments : (s.observations.foldl Summary.commit Summary.empty).moments =
        Moments.ofObservations s.observations := by
      rw [Summary.moments_foldl_commit, Moments.ofObservations_eq_observeAll hnn]
      rfl
    refine .inr ⟨_, hacc, hsamples, fun required => ?_⟩
    unfold Summary.requireMoments
    rw [hsamples, hmoments]
    cases Fault.requireSamples (ω := ω) required s.count with
    | error e => rfl
    | ok u =>
      show (if _ then _ else _) = (if _ then _ else _) >>= _
      split <;> rfl

/-- The moments of a valid sample are the closed form, once there are enough observations and some
weight. -/
theorem moments_of_valid {s : Sample K} (h : ∀ o ∈ s.observations, o.Valid) (required : UInt64) :
    s.moments required = (do
      Fault.requireSamples required s.count
      if Moments.totalWeight (s.observations : Multiset (Observation K)) = 0 then
        .error .zeroWeightSum
      else .ok (Moments.ofMultiset s.observations)) := by
  unfold moments
  rw [Observation.checkAll_eq, Observation.firstInvalid_eq_none_iff.mpr h,
    Moments.ofObservations_eq_ofMultiset fun o ho => (h o ho).2.1]
  simp only [Moments.weight_ofMultiset, ExactScalar.isZero_iff]
  rfl

/-- What is read off the moments of a sample is what a query reads off its stream. -/
theorem read_moments_eq (s : Sample K) (required : UInt64)
    (read : Moments K → UInt64 → Except (Fault ω) K) :
    (do let m ← s.moments required; read m s.count) =
      (do let t ← s.accumulate; t.requireMoments required; read t.moments t.samples) := by
  obtain ⟨e, hacc, hm⟩ | ⟨t, hacc, hcount, hm⟩ := s.accumulate_cases
  · rw [hacc, hm]
    rfl
  · rw [hacc, hm, ← hcount]
    show _ = (do t.requireMoments required; read t.moments t.samples)
    cases t.requireMoments (ω := ω) required <;> rfl

/-- **Batch and stream agree.** Each estimator in its corrected form has the result of the query
on the running summary of the sample, the value or the fault; underneath, two passes over any
observations whose weights are not negative find the moments that one pass leaves. -/
theorem batch_eq_streaming (s : Sample K) :
    s.estimate .mean = (do (← s.accumulate).mean) ∧
    s.estimate (.variance .corrected) = (do (← s.accumulate).variance) ∧
    s.estimate (.skewness .corrected) = (do (← s.accumulate).skewness) ∧
    s.estimate (.kurtosis .corrected) = (do (← s.accumulate).kurtosis) ∧
    s.estimate (.standardError .corrected) = (do (← s.accumulate).standardError) ∧
    ∀ os : List (Observation K), (∀ o ∈ os, 0 ≤ o.weight) →
      Moments.ofObservations os = Moments.empty.observeAll os := by
  refine ⟨?_, ?_, ?_, ?_, ?_, fun os => Moments.ofObservations_eq_observeAll⟩
  · exact s.read_moments_eq 1 fun m _ => .ok m.mean
  · exact s.read_moments_eq 2 fun m n => .ok (m.variance n)
  · rw [estimate, spreadMoments]
    simp only [bind_assoc, pure_bind]
    exact s.read_moments_eq 3 fun m n => do Summary.requireSpread m; return m.skewness n
  · rw [estimate, spreadMoments]
    simp only [bind_assoc, pure_bind]
    exact s.read_moments_eq 4 fun m n => do Summary.requireSpread m; return m.kurtosis n
  · have hread := s.read_moments_eq 2 fun m n => .ok (Scalar.sqrt (m.variance n / Scalar.ofCount n))
    rw [estimate, variance]
    unfold Summary.standardError Summary.variance
    simp only [bind_assoc, pure_bind]
    exact hread

/-- Real numbers, one of them without weight. -/
theorem batch_eq_streaming_real :
    let os : List (Observation ℝ) := [⟨2, 1⟩, ⟨-1, 0⟩, ⟨4, 3⟩]
    let s : Sample ℝ := ⟨os⟩
    (∀ o ∈ os, 0 ≤ o.weight) ∧ Moments.ofObservations os = Moments.empty.observeAll os ∧
      s.estimate (.standardError .corrected) = (do (← s.accumulate).standardError) := by
  intro os s
  have hnn : ∀ o ∈ os, 0 ≤ o.weight := by simp [os]
  obtain ⟨-, -, -, -, herror, hmoments⟩ := s.batch_eq_streaming
  exact ⟨hnn, hmoments os hnn, herror⟩

end Sample

end RunningStats
