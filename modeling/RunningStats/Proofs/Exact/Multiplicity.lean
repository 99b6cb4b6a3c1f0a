import RunningStats.Proofs.Exact.Batch
import RunningStats.Proofs.Answers

/-!
# A weight is a multiplicity

An observation may be cut into pieces of the same value whose weights sum to its own. `CutInto`
relates the observations to the pieces, as multisets, so that pieces may stand anywhere and equal
observations may be cut in different ways; an observation without weight may be cut into no piece at
all. Every weighted sum is the same over the pieces (`CutInto.about_eq`), and the moments in closed
form are made of such sums, so they do not change either.

* `CutInto.units`: where the weights are integers, the pieces may be as many observations of weight
  one;
* `weights_are_multiplicities`: one pass and two passes leave the same moments for the observations
  and for the pieces, and the estimators that do not use the size of the sample agree on both.
-/

namespace RunningStats

variable {K : Type} [ExactScalar K]

/-- The second multiset holds the first, each of its observations cut into pieces of its value, of
which none has a negative weight. -/
inductive CutInto : Multiset (Observation K) → Multiset (Observation K) → Prop where
  | zero : CutInto 0 0
  | cons {H G : Multiset (Observation K)} {o : Observation K} {weights : Multiset K} :
    (∀ w ∈ weights, 0 ≤ w) → weights.sum = o.weight → CutInto H G →
    CutInto (o ::ₘ H) (weights.map (Observation.mk o.value) + G)

namespace CutInto

variable {H G : Multiset (Observation K)}

/-- **Pieces have the same weighted sums** as what they were cut from. -/
theorem about_eq (h : CutInto H G) (k : ℕ) (c : K) :
    Moments.about k c G = Moments.about k c H := by
  induction h with
  | zero => rfl
  | @cons H G o weights _ hsum _ ih =>
    have hpieces : Moments.about k c (weights.map (Observation.mk o.value)) =
        o.weight * (o.value - c) ^ k := by
      rw [Moments.about, Multiset.map_map]
      show (weights.map fun w => w * (o.value - c) ^ k).sum = _
      rw [Multiset.sum_map_mul_right, Multiset.map_id', hsum]
    rw [Moments.about_add, Moments.about_cons, hpieces, ih]

/-- What can be cut into pieces has no negative weight, and neither has a piece. -/
theorem weight_nonneg (h : CutInto H G) :
    (∀ o ∈ H, 0 ≤ o.weight) ∧ ∀ p ∈ G, 0 ≤ p.weight := by
  induction h with
  | zero => exact ⟨fun o ho => absurd ho (Multiset.notMem_zero o),
      fun p hp => absurd hp (Multiset.notMem_zero p)⟩
  | @cons H G o weights hw hsum _ ih =>
    obtain ⟨ihH, ihG⟩ := ih
    refine ⟨fun p hp => ?_, fun p hp => ?_⟩
    · rcases Multiset.mem_cons.mp hp with rfl | hp
      · exact hsum ▸ Multiset.sum_nonneg hw
      · exact ihH p hp
    · rcases Multiset.mem_add.mp hp with hp | hp
      · obtain ⟨w, hwm, rfl⟩ := Multiset.mem_map.mp hp
        exact hw w hwm
      · exact ihG p hp

theorem ofMultiset_eq (h : CutInto H G) : Moments.ofMultiset G = Moments.ofMultiset H :=
  Moments.ofMultiset_congr h.about_eq

/-- An integer weight may be cut into that many observations of weight one. -/
theorem units (xs : Multiset (K × ℕ)) :
    CutInto (xs.map fun x => (⟨x.1, x.2⟩ : Observation K))
      (xs.bind fun x => Multiset.replicate x.2 (Observation.unit x.1)) := by
  induction xs using Multiset.induction with
  | empty => exact .zero
  | cons x xs ih =>
    have hcut : CutInto ((⟨x.1, x.2⟩ : Observation K) ::ₘ _)
        ((Multiset.replicate x.2 (1 : K)).map (Observation.mk x.1) + _) :=
      ih.cons (fun w hw => (Multiset.eq_of_mem_replicate hw).symm ▸ zero_le_one)
        (by rw [Multiset.sum_replicate, nsmul_eq_mul, mul_one])
    rw [Multiset.map_replicate] at hcut
    rw [Multiset.map_cons, Multiset.cons_bind]
    exact hcut

end CutInto

/-! ## Samples -/

namespace Sample

variable {ω : Type} [Wide K ω] {s t : Sample K}
  (h : CutInto (s.observations : Multiset (Observation K)) t.observations)
  (hfinite : ∀ x : K, Scalar.isFinite x)
include h hfinite

/-- The moments of the pieces are those of the sample, if neither is too small. -/
theorem moments_cutInto {required : UInt64} (hr : required ≠ 0) (hs : required ≤ s.count)
    (ht : required ≤ t.count) :
    (t.moments required : Except (Fault ω) (Moments K)) = s.moments required := by
  have hpos {n : UInt64} (hn : required ≤ n) : n ≠ 0 := fun h0 =>
    hr (UInt64.le_antisymm (h0 ▸ hn) (UInt64.zero_le))
  obtain ⟨hsnn, htnn⟩ := h.weight_nonneg
  have hsvalid : ∀ o ∈ s.observations, o.Valid := fun o ho => ⟨hfinite _, hsnn o ho, hfinite _⟩
  have htvalid : ∀ o ∈ t.observations, o.Valid := fun o ho => ⟨hfinite _, htnn o ho, hfinite _⟩
  have hW := congrArg Moments.weight h.ofMultiset_eq
  rw [moments_of_valid hsvalid, moments_of_valid htvalid, Fault.requireSamples_ok (hpos hs) hs,
    Fault.requireSamples_ok (hpos ht) ht, h.ofMultiset_eq]
  simp only [Moments.weight_ofMultiset] at hW
  rw [hW]

end Sample

/-- **A weight is a multiplicity.** Observations and the pieces that they are cut into, of weights
that are not negative, leave the same five moments in one pass and in two. Where every number counts
as finite, the estimators of a population give the same result for both, value or fault, if there
are as many observations and as many pieces as they need. -/
theorem weights_are_multiplicities {ω : Type} [Wide K ω] {s t : Sample K}
    (h : CutInto (s.observations : Multiset (Observation K)) t.observations) :
    Moments.empty.observeAll t.observations = Moments.empty.observeAll s.observations ∧
    Moments.ofObservations t.observations = Moments.ofObservations s.observations ∧
    ((∀ x : K, Scalar.isFinite x) →
      (1 ≤ s.count → 1 ≤ t.count →
        (t.estimate .mean : Except (Fault ω) K) = s.estimate .mean ∧
        (t.estimate (.variance .plugIn) : Except (Fault ω) K) = s.estimate (.variance .plugIn)) ∧
      (2 ≤ s.count → 2 ≤ t.count →
        (t.estimate (.skewness .plugIn) : Except (Fault ω) K) = s.estimate (.skewness .plugIn) ∧
        (t.estimate (.kurtosis .plugIn) : Except (Fault ω) K) =
          s.estimate (.kurtosis .plugIn))) := by
  obtain ⟨hs, ht⟩ := h.weight_nonneg
  have htwo : Moments.ofObservations t.observations = Moments.ofObservations s.observations := by
    rw [Moments.ofObservations_eq_ofMultiset ht, Moments.ofObservations_eq_ofMultiset hs,
      h.ofMultiset_eq]
  refine ⟨?_, htwo, fun hfinite => ⟨fun hs ht => ?_, fun hs ht => ?_⟩⟩
  · rw [← Moments.ofObservations_eq_observeAll ht, ← Moments.ofObservations_eq_observeAll hs, htwo]
  · have hm := Sample.moments_cutInto (ω := ω) h hfinite (by decide) hs ht
    constructor
    · rw [Sample.estimate, Sample.estimate, hm]
    · rw [Sample.estimate, Sample.estimate, Sample.variance, Sample.variance, hm]
  · have hm := Sample.moments_cutInto (ω := ω) h hfinite (by decide) hs ht
    constructor
    · rw [Sample.estimate, Sample.estimate, Sample.spreadMoments, Sample.spreadMoments, hm]
    · rw [Sample.estimate, Sample.estimate, Sample.spreadMoments, Sample.spreadMoments, hm]

/-- Integer weights, one of them zero, against as many observations of weight one, in another
order. -/
theorem weights_are_multiplicities_rat :
    let s : Sample ℚ := ⟨[⟨5, 3⟩, ⟨-2, 1⟩, ⟨7, 0⟩]⟩
    let t : Sample ℚ := .unweighted [5, -2, 5, 5]
    CutInto (s.observations : Multiset (Observation ℚ)) t.observations ∧
      (∀ x : ℚ, Scalar.isFinite x) ∧ 2 ≤ s.count ∧ 2 ≤ t.count ∧
      Moments.empty.observeAll t.observations = Moments.empty.observeAll s.observations ∧
      (t.estimate (.kurtosis .plugIn) : Except (Fault ℚ) ℚ) = s.estimate (.kurtosis .plugIn) := by
  intro s t
  have hcut : CutInto (s.observations : Multiset (Observation ℚ)) t.observations := by
    have hunits : (t.observations : Multiset (Observation ℚ)) =
        ({(5, 3), (-2, 1), (7, 0)} : Multiset (ℚ × ℕ)).bind fun x =>
          Multiset.replicate x.2 (Observation.unit x.1) := by decide +kernel
    rw [hunits]
    exact CutInto.units {(5, 3), (-2, 1), (7, 0)}
  have hfinite : ∀ x : ℚ, Scalar.isFinite x := fun _ => rfl
  have hs : 2 ≤ s.count := by decide
  have ht : 2 ≤ t.count := by decide
  obtain ⟨hone, -, hestimates⟩ := weights_are_multiplicities (ω := ℚ) hcut
  exact ⟨hcut, hfinite, hs, ht, hone, ((hestimates hfinite).2 hs ht).2⟩

end RunningStats
