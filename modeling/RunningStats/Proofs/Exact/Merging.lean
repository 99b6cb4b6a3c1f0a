import RunningStats.Proofs.Exact.Sum
import RunningStats.Proofs.Extremes

/-!
# Merging is a commutative monoid

In exact arithmetic merging is associative and commutative, with the empty state as identity, on
every state that may be stored and restored: no state need come from data.

The formulas of `combine` are long, but they only move the origin of the deviations. Taken about
zero, the weighted sums of powers of the values simply add up. `powerSums` reads these sums off a
state, `powerSums_merge` says that merging adds them, and `powerSums_injective` that they determine
the state; so every law of merging is one of addition.

* `Moments.merge_comm`, `Moments.merge_assoc`: the laws for moments;
* `Summary.merge_monoid`: the same with the counts, extrema and sums below zero of a summary.
-/

namespace RunningStats

variable {K : Type} [ExactScalar K]

namespace Moments

variable {a b c : Moments K}

/-! ## Power sums -/

/-- Empty, or of positive weight. -/
def Proper (m : Moments K) : Prop := m = empty ∨ 0 < m.weight

/-- The weighted sums of the powers of the values themselves, from the zeroth to the fourth. -/
def powerSums (m : Moments K) : K × K × K × K × K :=
  (m.weight,
    m.weight * m.mean,
    m.m2 + m.weight * m.mean ^ 2,
    m.m3 + 3 * m.mean * m.m2 + m.weight * m.mean ^ 3,
    m.m4 + 4 * m.mean * m.m3 + 6 * m.mean ^ 2 * m.m2 + m.weight * m.mean ^ 4)

@[simp] theorem powerSums_empty : powerSums (empty : Moments K) = 0 := by
  simp [powerSums, empty, concentrated]

theorem proper_empty : (empty : Moments K).Proper := .inl rfl

theorem Proper.eq_empty (h : a.Proper) (h0 : a.weight = 0) : a = empty :=
  h.resolve_right fun hpos => hpos.ne' h0

/-- What `combine` computes about the common mean is a sum about zero. -/
theorem powerSums_combine (h : a.weight + b.weight ≠ 0) :
    powerSums (combine a b) = powerSums a + powerSums b := by
  have h3 : (Scalar.ofCount 3 : K) = 3 := by simp
  have h4 : (Scalar.ofCount 4 : K) = 4 := by simp
  have h6 : (Scalar.ofCount 6 : K) = 6 := by simp
  unfold powerSums combine
  simp only [h3, h4, h6, Prod.mk_add_mk, Prod.mk.injEq, true_and]
  refine ⟨?_, ?_, ?_, ?_⟩ <;> field_simp <;> ring

theorem merge_empty (a : Moments K) : a.merge empty = a :=
  if_pos ((ExactScalar.isZero_iff _).mpr rfl)

theorem Proper.empty_merge (ha : a.Proper) : empty.merge a = a := by
  have h0 : Scalar.isZero (empty : Moments K).weight := (ExactScalar.isZero_iff _).mpr rfl
  unfold merge
  rw [if_pos h0]
  split
  · rename_i hw
    exact (ha.eq_empty ((ExactScalar.isZero_iff _).mp hw)).symm
  · rfl

/-- Two states of positive weight are merged by the formulas. -/
theorem merge_of_pos (ha : 0 < a.weight) (hb : 0 < b.weight) : a.merge b = combine a b := by
  unfold merge
  rw [if_neg (by simpa using hb.ne'), if_neg (by simpa using ha.ne')]

/-- **Merging adds the power sums.** -/
theorem powerSums_merge (ha : a.Proper) (hb : b.Proper) :
    powerSums (a.merge b) = powerSums a + powerSums b := by
  rcases hb with rfl | hb
  · rw [merge_empty, powerSums_empty, add_zero]
  · rcases ha with rfl | ha
    · rw [Proper.empty_merge (.inr hb), powerSums_empty, zero_add]
    · rw [merge_of_pos ha hb, powerSums_combine (add_pos ha hb).ne']

theorem Proper.merge (ha : a.Proper) (hb : b.Proper) : (a.merge b).Proper := by
  rcases hb with rfl | hb
  · rwa [merge_empty]
  · rcases ha with rfl | ha
    · rw [Proper.empty_merge (.inr hb)]
      exact .inr hb
    · rw [merge_of_pos ha hb]
      exact .inr (add_pos ha hb)

/-- **The power sums determine the state.** Where there is weight they give the mean, and with it
one moment after the other. -/
theorem powerSums_injective (ha : a.Proper) (hb : b.Proper) (h : powerSums a = powerSums b) :
    a = b := by
  obtain ⟨wa, ma, a2, a3, a4⟩ := a
  obtain ⟨wb, mb, b2, b3, b4⟩ := b
  simp only [powerSums, Prod.mk.injEq] at h
  obtain ⟨rfl, h1, h2, h3, h4⟩ := h
  by_cases hw : wa = 0
  · rw [ha.eq_empty hw, hb.eq_empty hw]
  · obtain rfl : ma = mb := mul_left_cancel₀ hw h1
    obtain rfl : a2 = b2 := add_right_cancel h2
    obtain rfl : a3 = b3 := by simpa using h3
    obtain rfl : a4 = b4 := by simpa using h4
    rfl

/-! ## The laws for moments -/

theorem merge_comm (ha : a.Proper) (hb : b.Proper) : a.merge b = b.merge a := by
  refine powerSums_injective (ha.merge hb) (hb.merge ha) ?_
  rw [powerSums_merge ha hb, powerSums_merge hb ha, add_comm]

theorem merge_assoc (ha : a.Proper) (hb : b.Proper) (hc : c.Proper) :
    (a.merge b).merge c = a.merge (b.merge c) := by
  refine powerSums_injective ((ha.merge hb).merge hc) (ha.merge (hb.merge hc)) ?_
  rw [powerSums_merge (ha.merge hb) hc, powerSums_merge ha hb, powerSums_merge ha (hb.merge hc),
    powerSums_merge hb hc, add_assoc]

end Moments

/-! ## The laws for summaries -/

namespace Summary

variable {s t u : Summary K}

/-- The empty summary, or one with observations, proper moments, any extrema and any sums below
zero in which no compensation is pending. -/
structure Proper (s : Summary K) : Prop where
  fresh : s.samples = 0 → s = empty
  moments : s.moments.Proper
  downsideWeight : s.downsideWeight = .exactly s.downsideWeight.sum
  downsideSquares : s.downsideSquares = .exactly s.downsideSquares.sum

theorem proper_empty : (empty : Summary K).Proper :=
  ⟨fun _ => rfl, Moments.proper_empty, rfl, rfl⟩

theorem merge_empty (s : Summary K) : s.merge empty = s := if_pos rfl

/-- What merging leaves where both sides hold observations. -/
theorem Proper.merge_eq (hs : s.Proper) (ht : t.Proper) (hs0 : s.samples ≠ 0)
    (ht0 : t.samples ≠ 0) : s.merge t =
      { samples := s.samples + t.samples
        min := Min.min s.min t.min
        max := Max.max s.max t.max
        moments := s.moments.merge t.moments
        downsideSamples := s.downsideSamples + t.downsideSamples
        downsideWeight := .exactly (s.downsideWeight.sum + t.downsideWeight.sum)
        downsideSquares := .exactly (s.downsideSquares.sum + t.downsideSquares.sum) } := by
  unfold Summary.merge
  rw [if_neg ht0, hs.downsideWeight, ht.downsideWeight, hs.downsideSquares, ht.downsideSquares]
  simp [hs0]

theorem Proper.empty_merge (ht : t.Proper) : empty.merge t = t := by
  by_cases ht0 : t.samples = 0
  · rw [ht.fresh ht0, merge_empty]
  · unfold Summary.merge
    rw [if_neg ht0, ht.downsideWeight, ht.downsideSquares]
    apply Summary.ext
    · exact UInt64.zero_add _
    · rfl
    · rfl
    · exact ht.moments.empty_merge
    · exact UInt64.zero_add _
    · show CompensatedSum.empty.merge _ = _
      rw [CompensatedSum.empty_eq_exactly, CompensatedSum.exactly_merge, zero_add]
      exact ht.downsideWeight.symm
    · show CompensatedSum.empty.merge _ = _
      rw [CompensatedSum.empty_eq_exactly, CompensatedSum.exactly_merge, zero_add]
      exact ht.downsideSquares.symm

/-- As long as the count does not wrap, a merge of summaries of which one holds something holds
something. -/
theorem add_samples_ne_zero {m n : UInt64} (hm : m ≠ 0) (h : m.toNat + n.toNat < 2 ^ 64) :
    m + n ≠ 0 := by
  intro h0
  have hsum : (m + n).toNat = 0 := by rw [h0]; rfl
  rw [toNat_add_of_lt h] at hsum
  exact hm (UInt64.toNat_inj.mp (by rw [Nat.eq_zero_of_add_eq_zero_right hsum]; rfl))

theorem Proper.merge (hs : s.Proper) (ht : t.Proper)
    (hc : s.samples.toNat + t.samples.toNat < 2 ^ 64) : (s.merge t).Proper := by
  by_cases ht0 : t.samples = 0
  · rwa [ht.fresh ht0, merge_empty]
  · by_cases hs0 : s.samples = 0
    · rwa [hs.fresh hs0, ht.empty_merge]
    · rw [hs.merge_eq ht hs0 ht0]
      exact ⟨fun h0 => absurd h0 (add_samples_ne_zero hs0 hc), hs.moments.merge ht.moments, rfl,
        rfl⟩

theorem Proper.merge_comm (hs : s.Proper) (ht : t.Proper) : s.merge t = t.merge s := by
  by_cases ht0 : t.samples = 0
  · rw [ht.fresh ht0, merge_empty, hs.empty_merge]
  · by_cases hs0 : s.samples = 0
    · rw [hs.fresh hs0, merge_empty, ht.empty_merge]
    · rw [hs.merge_eq ht hs0 ht0, ht.merge_eq hs ht0 hs0, UInt64.add_comm, min_comm, max_comm,
        Moments.merge_comm hs.moments ht.moments, UInt64.add_comm s.downsideSamples,
        add_comm s.downsideWeight.sum, add_comm s.downsideSquares.sum]

theorem Proper.merge_assoc (hs : s.Proper) (ht : t.Proper) (hu : u.Proper)
    (hc : s.samples.toNat + t.samples.toNat + u.samples.toNat < 2 ^ 64) :
    (s.merge t).merge u = s.merge (t.merge u) := by
  by_cases hu0 : u.samples = 0
  · rw [hu.fresh hu0, merge_empty, merge_empty]
  · by_cases ht0 : t.samples = 0
    · rw [ht.fresh ht0, merge_empty, hu.empty_merge]
    · have htu : (t.merge u).Proper := ht.merge hu (by omega)
      by_cases hs0 : s.samples = 0
      · rw [hs.fresh hs0, ht.empty_merge, htu.empty_merge]
      · have hst : (s.merge t).Proper := hs.merge ht (by omega)
        have hst0 : s.samples + t.samples ≠ 0 := add_samples_ne_zero hs0 (by omega)
        have htu0 : t.samples + u.samples ≠ 0 := add_samples_ne_zero ht0 (by omega)
        have hst' := hs.merge_eq ht hs0 ht0
        have htu' := ht.merge_eq hu ht0 hu0
        rw [hst.merge_eq hu (by rwa [hst']) hu0, hs.merge_eq htu hs0 (by rwa [htu']), hst', htu',
          UInt64.add_assoc s.samples, UInt64.add_assoc s.downsideSamples]
        simp only [CompensatedSum.sum_exactly, min_assoc, max_assoc, add_assoc,
          Moments.merge_assoc hs.moments ht.moments hu.moments]

/-- **Merging is a commutative monoid**, with the empty state as identity: on all moments that are
empty or of positive weight, and on all summaries that are empty or hold observations with such
moments, as long as their counts do not wrap. -/
theorem merge_monoid :
    (∀ a b c : Moments K, a.Proper → b.Proper → c.Proper →
      (a.merge b).Proper ∧ a.merge b = b.merge a ∧
      (a.merge b).merge c = a.merge (b.merge c) ∧
      a.merge .empty = a ∧ Moments.empty.merge a = a) ∧
    (∀ s t u : Summary K, s.Proper → t.Proper → u.Proper →
      s.samples.toNat + t.samples.toNat + u.samples.toNat < 2 ^ 64 →
      (s.merge t).Proper ∧ s.merge t = t.merge s ∧
      (s.merge t).merge u = s.merge (t.merge u) ∧
      s.merge empty = s ∧ empty.merge s = s) := by
  refine ⟨fun a b c ha hb hc => ?_, fun s t u hs ht hu hc => ?_⟩
  · exact ⟨ha.merge hb, Moments.merge_comm ha hb, Moments.merge_assoc ha hb hc, a.merge_empty,
      ha.empty_merge⟩
  · exact ⟨hs.merge ht (by omega), hs.merge_comm ht, hs.merge_assoc ht hu hc, s.merge_empty,
      hs.empty_merge⟩

/-- States that no data has: a negative square sum, a minimum above the maximum, more values below
zero than values. -/
theorem merge_monoid_rat :
    let a : Moments ℚ := ⟨2, 1, -3, 5, 7⟩
    let b : Moments ℚ := ⟨1 / 2, -4, 0, 1, -1⟩
    let s : Summary ℚ := ⟨3, 9, -9, a, 5, ⟨-1, 0⟩, ⟨2, 0⟩⟩
    let t : Summary ℚ := ⟨1, -2, 6, b, 0, ⟨0, 0⟩, ⟨4, 0⟩⟩
    a.Proper ∧ b.Proper ∧ (a.merge b).merge a = a.merge (b.merge a) ∧
      s.Proper ∧ t.Proper ∧ s.samples.toNat + t.samples.toNat + s.samples.toNat < 2 ^ 64 ∧
      s.merge t = t.merge s ∧ (s.merge t).merge s = s.merge (t.merge s) := by
  intro a b s t
  have ha : a.Proper := .inr (by norm_num [a])
  have hb : b.Proper := .inr (by norm_num [b])
  have hs : s.Proper := ⟨fun h => absurd h (by decide), ha, rfl, rfl⟩
  have ht : t.Proper := ⟨fun h => absurd h (by decide), hb, rfl, rfl⟩
  have hc : s.samples.toNat + t.samples.toNat + s.samples.toNat < 2 ^ 64 := by decide
  obtain ⟨hmoments, hsummaries⟩ := merge_monoid (K := ℚ)
  obtain ⟨-, -, hassoc, -⟩ := hmoments a b a ha hb ha
  obtain ⟨-, hcomm, hassoc', -⟩ := hsummaries s t s hs ht hs hc
  exact ⟨ha, hb, hassoc, hs, ht, hc, hcomm, hassoc'⟩

end Summary

end RunningStats
