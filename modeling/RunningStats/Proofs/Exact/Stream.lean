import RunningStats.Proofs.Exact.Moments
import RunningStats.Proofs.Extremes

/-!
# Streaming statistics in closed form

In exact arithmetic a summary is a function of the multiset of observations it holds. `ClosedForm`
adds the moments and the two sums below zero to the counts and extrema of `Describes`, and like
these it survives every observation and every merge (`closedForm_tracks`).

* `ClosedForm.unique`: it leaves no freedom, as two summaries of one multiset are equal;
* `session_closed_form`: the summaries of every session are in closed form, whatever the order of
  commands and however the observations were split among the names that were merged.
-/

namespace RunningStats.Summary

variable {K : Type} [ExactScalar K]

/-! ## Sums below zero -/

/-- The sum of a term over the observations below zero. -/
def sumBelow (term : Observation K → K) (H : Multiset (Observation K)) : K :=
  ((H.filter fun o => o.value < 0).map term).sum

@[simp] theorem sumBelow_add (term : Observation K → K) (H G : Multiset (Observation K)) :
    sumBelow term (H + G) = sumBelow term H + sumBelow term G := by
  unfold sumBelow
  rw [Multiset.filter_add, Multiset.map_add, Multiset.sum_add]

/-- What one observation adds to an exact sum below zero. -/
theorem add_sumBelow (term : Observation K → K) (o : Observation K)
    (H : Multiset (Observation K)) :
    (if o.value < 0 then (CompensatedSum.exactly (sumBelow term H)).add (term o)
      else CompensatedSum.exactly (sumBelow term H)) =
      CompensatedSum.exactly (sumBelow term (o ::ₘ H)) := by
  unfold sumBelow
  by_cases h : o.value < 0
  · rw [if_pos h, CompensatedSum.exactly_add, Multiset.filter_cons_of_pos H h, Multiset.map_cons,
      Multiset.sum_cons, add_comm]
  · rw [if_neg h, Multiset.filter_cons_of_neg H h]

/-! ## The closed form of a summary -/

/-- A weighted square, as the sum below zero takes it. -/
def weightedSquare (o : Observation K) : K := o.weight * o.value ^ 2

/-- Every field of a summary is the statistic of the observations held that it stands for. -/
structure ClosedForm (s : Summary K) (H : Multiset (Observation K)) : Prop
    extends Describes s H where
  moments : s.moments = Moments.ofMultiset H
  downsideWeight : s.downsideWeight = .exactly (sumBelow (·.weight) H)
  downsideSquares : s.downsideSquares = .exactly (sumBelow weightedSquare H)

theorem Describes.weight_nonneg {s : Summary K} {H : Multiset (Observation K)}
    (h : Describes s H) : ∀ o ∈ H, 0 ≤ o.weight := fun o ho => (h.valid o ho).2.1

namespace ClosedForm

variable {s t : Summary K} {H G : Multiset (Observation K)}

theorem commit (h : ClosedForm s H) {o : Observation K} (ho : o.Valid)
    (hc : H.card + 1 < 2 ^ 64) : ClosedForm (s.commit o) (o ::ₘ H) := by
  refine ⟨h.toDescribes.commit ho hc, ?_, ?_, ?_⟩
  · show s.moments.observe o.value o.weight = _
    rw [h.moments, Moments.observe_ofMultiset h.toDescribes.weight_nonneg ho.2.1]
  · show (if o.value < 0 then s.downsideWeight.add o.weight else s.downsideWeight) = _
    rw [h.downsideWeight]
    exact add_sumBelow (·.weight) o H
  · have hsq : o.weight * o.value * o.value = weightedSquare o := by
      unfold weightedSquare
      ring
    show (if o.value < 0 then s.downsideSquares.add (o.weight * o.value * o.value)
      else s.downsideSquares) = _
    rw [h.downsideSquares, hsq]
    exact add_sumBelow weightedSquare o H

theorem merge (hs : ClosedForm s H) (ht : ClosedForm t G) (hc : H.card + G.card < 2 ^ 64) :
    ClosedForm (s.merge t) (H + G) := by
  have hd : Describes (s.merge t) (H + G) := hs.toDescribes.merge ht.toDescribes hc
  by_cases hG : G = 0
  · have hm : s.merge t = s := if_pos (ht.samples_eq_zero_iff.mpr hG)
    rw [hm, hG, add_zero]
    exact hs
  · have hm : t.samples ≠ 0 := fun h0 => hG (ht.samples_eq_zero_iff.mp h0)
    unfold Summary.merge at hd ⊢
    rw [if_neg hm] at hd ⊢
    refine ⟨hd, ?_, ?_, ?_⟩
    · show s.moments.merge t.moments = _
      rw [hs.moments, ht.moments, Moments.merge_ofMultiset hs.toDescribes.weight_nonneg
        ht.toDescribes.weight_nonneg]
    · show s.downsideWeight.merge t.downsideWeight = _
      rw [hs.downsideWeight, ht.downsideWeight, CompensatedSum.exactly_merge, sumBelow_add]
    · show s.downsideSquares.merge t.downsideSquares = _
      rw [hs.downsideSquares, ht.downsideSquares, CompensatedSum.exactly_merge, sumBelow_add]

/-- **Two summaries of the same observations are equal.** -/
theorem unique (hs : ClosedForm s H) (ht : ClosedForm t H) : s = t := by
  by_cases hH : H = 0
  · rw [hs.fresh hH, ht.fresh hH]
  · have hsamples : s.samples = t.samples := by
      rw [← UInt64.toNat_inj, hs.samples, ht.samples]
    have hmin : s.min = t.min := by
      obtain ⟨⟨o, ho, hov⟩, hsl⟩ := hs.lower hH
      obtain ⟨⟨p, hp, hpv⟩, htl⟩ := ht.lower hH
      exact le_antisymm (hpv ▸ hsl p hp) (hov ▸ htl o ho)
    have hmax : s.max = t.max := by
      obtain ⟨⟨o, ho, hov⟩, hsu⟩ := hs.upper hH
      obtain ⟨⟨p, hp, hpv⟩, htu⟩ := ht.upper hH
      exact le_antisymm (hov ▸ htu o ho) (hpv ▸ hsu p hp)
    have hdown : s.downsideSamples = t.downsideSamples := by
      rw [← UInt64.toNat_inj, hs.downside, ht.downside]
    have hmoments : s.moments = t.moments := by rw [hs.moments, ht.moments]
    have hweight : s.downsideWeight = t.downsideWeight := by
      rw [hs.downsideWeight, ht.downsideWeight]
    have hsquares : s.downsideSquares = t.downsideSquares := by
      rw [hs.downsideSquares, ht.downsideSquares]
    exact Summary.ext hsamples hmin hmax hmoments hdown hweight hsquares

end ClosedForm

/-! ## Sessions -/

theorem closedForm_tracks : Tracks (ClosedForm (K := K)) where
  empty := ⟨describes_tracks.empty, Moments.ofMultiset_zero.symm, rfl, rfl⟩
  commit h ho hc := h.commit ho hc
  merge hs ht hc := hs.merge ht hc

variable {ω : Type} [Wide K ω]

/-- **Streaming statistics in closed form.** The moments and the sums below zero under a name are
those of the observations it holds, and any other session that comes to hold the same ones under
some name ends with the same summary. -/
theorem session_closed_form (cs : List (String × Command K)) (name : String)
    (hc : (held cs name).card < 2 ^ 64) :
    let s := session cs name
    let H := held cs name
    let W := (H.map fun o => o.weight).sum
    let mean := if W = 0 then 0 else (H.map fun o => o.weight * o.value).sum / W
    let below := H.filter fun o => o.value < 0
    s.moments.weight = W ∧
    s.moments.mean = mean ∧
    s.moments.m2 = (H.map fun o => o.weight * (o.value - mean) ^ 2).sum ∧
    s.moments.m3 = (H.map fun o => o.weight * (o.value - mean) ^ 3).sum ∧
    s.moments.m4 = (H.map fun o => o.weight * (o.value - mean) ^ 4).sum ∧
    s.downsideWeight = ⟨(below.map fun o => o.weight).sum, 0⟩ ∧
    s.downsideSquares = ⟨(below.map fun o => o.weight * o.value ^ 2).sum, 0⟩ ∧
    ∀ (cs' : List (String × Command K)) (name' : String), held cs' name' = H →
      session cs' name' = s := by
  have h : ClosedForm (session cs name) (held cs name) := closedForm_tracks.run cs name hc
  refine ⟨congrArg Moments.weight h.moments, congrArg Moments.mean h.moments,
    congrArg Moments.m2 h.moments, congrArg Moments.m3 h.moments, congrArg Moments.m4 h.moments,
    h.downsideWeight, h.downsideSquares, fun cs' name' hh => ?_⟩
  have h' : ClosedForm (session cs' name') (held cs' name') :=
    closedForm_tracks.run cs' name' (by rwa [hh])
  rw [hh] at h'
  exact h'.unique h

/-- Two sessions over the same rationals, one of them with a refused observation, a reset and a
merge the other way round. -/
theorem session_closed_form_rat :
    let cs : List (String × Command ℚ) :=
      [("a", .addWeighted [-2, 3] [1, 2]), ("b", .add ⟨5, 0⟩), ("b", .addValue 4),
        ("a", .merge "b"), ("a", .merge "a")]
    let cs' : List (String × Command ℚ) :=
      [("a", .addValue 7), ("a", .reset), ("a", .addWeighted [-2, 3] [1, 2]),
        ("b", .addValues [4]), ("b", .add ⟨9, -1⟩), ("b", .add ⟨5, 0⟩),
        ("c", .copy "b"), ("c", .merge "a"), ("b", .merge "c"), ("b", .merge "a")]
    (held cs "a").card < 2 ^ 64 ∧ held cs' "b" = held cs "a" ∧
      session cs' "b" = session cs "a" ∧ (session cs "a").moments.mean = 2 ∧
      (session cs "a").downsideSquares = ⟨8, 0⟩ := by
  intro cs cs'
  have hc : (held cs "a").card < 2 ^ 64 := by decide +kernel
  have hh : held cs' "b" = held cs "a" := by
    decide +kernel
  obtain ⟨-, hmean, -, -, -, -, hsq, hall⟩ := session_closed_form cs "a" hc
  refine ⟨hc, hh, hall cs' "b" hh, hmean.trans ?_, hsq.trans ?_⟩
  · decide +kernel
  · decide +kernel

end RunningStats.Summary
