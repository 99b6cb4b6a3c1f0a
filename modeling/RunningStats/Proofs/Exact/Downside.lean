import RunningStats.Proofs.Exact.Range
import RunningStats.Proofs.Answers

/-!
# Downside risk

What lies below zero is kept apart from the moments, by a counter and two compensated sums, and
asked for with guards of its own. In exact arithmetic the answer is a function of the observations
below zero and of whether anything is held at all: those above zero, and the order of the merges,
leave no trace in it.

* `below_squares_pos`, `below_squares_le`: the weighted squares sum to more than zero, and to no
  more than the square of the smallest value allows;
* `ClosedForm.downsideVariance_eq`: the faults in their order, and the value;
* `session_downside`: all of this at the end of every session.
-/

namespace RunningStats.Summary

open Moments

variable {K : Type} [ExactScalar K] {ω : Type} {H G : Multiset (Observation K)}

/-! ## Observations below zero -/

/-- The observations below zero. -/
def below (H : Multiset (Observation K)) : Multiset (Observation K) :=
  H.filter fun o => o.value < 0

theorem mem_below {o : Observation K} : o ∈ below H ↔ o ∈ H ∧ o.value < 0 := Multiset.mem_filter

theorem sumBelow_congr (h : below H = below G) (term : Observation K → K) :
    sumBelow term H = sumBelow term G := congrArg (fun B => (Multiset.map term B).sum) h

/-- The mean square of the observations below zero, corrected for their number. -/
def meanSquareBelow (H : Multiset (Observation K)) : K :=
  sumBelow weightedSquare H / sumBelow (·.weight) H *
    ((below H).card / ((below H).card - 1))

/-- The answer to a query about the observations below zero. -/
def ifBelow {β : Type} (H : Multiset (Observation K)) (answer : Except (Fault ω) β) :
    Except (Fault ω) β :=
  if H.card = 0 then .error .empty
  else if (below H).card < 2 then .error (.insufficientSamples 2 (UInt64.ofNat (below H).card))
  else if ∀ o ∈ below H, o.weight = 0 then .error .zeroWeightSum
  else answer

theorem ifBelow_congr {β : Type} (h : below H = below G) (hH : H ≠ 0) (hG : G ≠ 0)
    (answer : Except (Fault ω) β) : ifBelow H answer = ifBelow G answer := by
  rw [ifBelow, ifBelow, if_neg (mt Multiset.card_eq_zero.mp hH),
    if_neg (mt Multiset.card_eq_zero.mp hG), h]

/-- What is answered is the value, of two observations below zero or more, and some weight. -/
theorem of_ifBelow {β : Type} {x v : β}
    (h : (ifBelow H (.ok x) : Except (Fault ω) β) = .ok v) :
    2 ≤ (below H).card ∧ (¬ ∀ o ∈ below H, o.weight = 0) ∧ x = v := by
  unfold ifBelow at h
  split_ifs at h with h0 h2 hw
  exact ⟨not_lt.mp h2, hw, Except.ok.inj h⟩

section Bounds

variable (hnn : ∀ o ∈ H, 0 ≤ o.weight)
include hnn

theorem weight_nonneg_below : ∀ o ∈ below H, 0 ≤ o.weight := fun o ho =>
  hnn o (mem_below.mp ho).1

theorem below_weight_eq_zero_iff :
    sumBelow (·.weight) H = 0 ↔ ∀ o ∈ below H, o.weight = 0 :=
  totalWeight_eq_zero_iff (weight_nonneg_below hnn)

theorem below_weight_pos (hw : ¬ ∀ o ∈ below H, o.weight = 0) : 0 < sumBelow (·.weight) H :=
  totalWeight_pos (weight_nonneg_below hnn) (mt (below_weight_eq_zero_iff hnn).mp hw)

theorem below_squares_pos (hw : ¬ ∀ o ∈ below H, o.weight = 0) :
    0 < sumBelow weightedSquare H := by
  have hterm : ∀ o ∈ below H, 0 ≤ weightedSquare o := fun o ho =>
    mul_nonneg (weight_nonneg_below hnn o ho) (sq_nonneg _)
  push Not at hw
  obtain ⟨o, ho, hwo⟩ := hw
  have hpos : 0 < weightedSquare o :=
    mul_pos ((weight_nonneg_below hnn o ho).lt_of_ne' hwo) (sq_pos_of_neg (mem_below.mp ho).2)
  exact hpos.trans_le (Multiset.single_le_sum (Multiset.forall_mem_map_iff.mpr hterm) _
    (Multiset.mem_map_of_mem _ ho))

theorem below_squares_le {lo : K} (hlo : ∀ o ∈ H, lo ≤ o.value) :
    sumBelow weightedSquare H ≤ lo ^ 2 * sumBelow (·.weight) H := by
  have hsq : ∀ o ∈ below H, 0 < o.weight → o.value ^ 2 ≤ lo ^ 2 := fun o ho _ => by
    obtain ⟨hmem, hneg⟩ := mem_below.mp ho
    exact sq_le_sq.mpr (abs_le_abs_of_nonpos hneg.le (hlo o hmem))
  have h := weighted_sum_mono (weight_nonneg_below hnn) hsq
  rwa [Multiset.sum_map_mul_right, mul_comm _ (lo ^ 2)] at h

/-- The corrected mean square of some weight is positive, and at most that of the smallest value. -/
theorem meanSquareBelow_bounds (h2 : 2 ≤ (below H).card) (hw : ¬ ∀ o ∈ below H, o.weight = 0)
    {lo : K} (hlo : ∀ o ∈ H, lo ≤ o.value) :
    0 < meanSquareBelow H ∧
      meanSquareBelow H ≤ lo ^ 2 * ((below H).card / ((below H).card - 1)) := by
  have hn : (2 : K) ≤ (below H).card := by exact_mod_cast h2
  have hfactor : (0 : K) < (below H).card / ((below H).card - 1) :=
    div_pos (by linarith) (by linarith)
  have hW : 0 < sumBelow (·.weight) H := below_weight_pos hnn hw
  constructor
  · exact mul_pos (div_pos (below_squares_pos hnn hw) hW) hfactor
  · exact mul_le_mul_of_nonneg_right ((div_le_iff₀ hW).mpr (below_squares_le hnn hlo)) hfactor.le

end Bounds

/-! ## The query -/

/-- The guards of the downside variance, decided by what is held. -/
theorem ClosedForm.downsideVariance_eq {s : Summary K} (h : ClosedForm s H) :
    (s.downsideVariance : Except (Fault ω) K) = ifBelow H (.ok (meanSquareBelow H)) := by
  have hn : s.downsideSamples.toNat = (below H).card := by
    rw [h.downside, Multiset.countP_eq_card_filter]
    rfl
  have hsamples : s.downsideSamples = UInt64.ofNat (below H).card := by
    rw [← hn, UInt64.ofNat_toNat]
  have hweight : s.downsideWeight.sum = sumBelow (·.weight) H := by
    rw [h.downsideWeight, CompensatedSum.sum_exactly]
  have hsquares : s.downsideSquares.sum = sumBelow weightedSquare H := by
    rw [h.downsideSquares, CompensatedSum.sum_exactly]
  have hfew : s.downsideSamples < 2 ↔ (below H).card < 2 := by
    rw [UInt64.lt_iff_toNat_lt, hn]
    rfl
  have hzero : (Scalar.isZero (sumBelow (·.weight) H) = true) ↔ ∀ o ∈ below H, o.weight = 0 := by
    rw [ExactScalar.isZero_iff]
    exact below_weight_eq_zero_iff h.weight_nonneg
  unfold downsideVariance ifBelow
  rw [h.requireSamples_eq, ifCounted]
  by_cases h0 : H.card = 0
  · rw [if_pos h0, if_pos h0]
  · have hone : ¬ H.card < (1 : UInt64).toNat := Nat.not_lt.mpr (Nat.one_le_iff_ne_zero.mpr h0)
    rw [if_neg h0, if_neg h0, if_neg hone]
    refine if_congr hfew (by rw [hsamples]) ?_
    rw [hweight, hsquares]
    refine if_congr hzero rfl (congrArg Except.ok ?_)
    rw [ExactScalar.ofCount_eq_natCast, hn, mul_div_assoc, meanSquareBelow]

/-! ## Sessions -/

variable [Wide K ω]

/-- **Downside risk of a session.** Which fault the downside variance has, if any, is decided by
what is held: nothing, fewer than two observations below zero, or no weight on these. Otherwise it
is their weighted mean square with the correction for their number, which is positive, and at most
what it would be if all of them were the minimum. The downside deviation is its root. Any other
session that comes to hold the same observations below zero agrees on both, whatever else it holds,
as long as both hold something. -/
theorem session_downside (cs : List (String × Command K)) (name : String)
    (hc : (held cs name).card < 2 ^ 64) :
    let s := session cs name
    let H := held cs name
    let n := (below H).card
    let W := ((below H).map fun o => o.weight).sum
    let Q := ((below H).map fun o => o.weight * o.value ^ 2).sum
    let factor : K := n / (n - 1)
    (s.downsideVariance : Except (Fault ω) K) =
      (if H.card = 0 then .error .empty
        else if n < 2 then .error (.insufficientSamples 2 (UInt64.ofNat n))
        else if ∀ o ∈ below H, o.weight = 0 then .error .zeroWeightSum
        else .ok (Q / W * factor)) ∧
    (∀ v, (s.downsideVariance : Except (Fault ω) K) = .ok v →
      0 < v ∧ ∃ lo, (s.minimum : Except (Fault ω) K) = .ok lo ∧ v ≤ lo ^ 2 * factor) ∧
    (s.downsideDeviation : Except (Fault ω) K) = s.downsideVariance.map Scalar.sqrt ∧
    ∀ (cs' : List (String × Command K)) (name' : String), (held cs' name').card < 2 ^ 64 →
      below (held cs' name') = below H → held cs' name' ≠ 0 → H ≠ 0 →
      ((session cs' name').downsideVariance : Except (Fault ω) K) = s.downsideVariance ∧
      ((session cs' name').downsideDeviation : Except (Fault ω) K) = s.downsideDeviation := by
  intro s H n W Q factor
  have h : ClosedForm s H := closedForm_tracks.run cs name hc
  have hvariance : (s.downsideVariance : Except (Fault ω) K) =
      ifBelow H (.ok (meanSquareBelow H)) := h.downsideVariance_eq
  have hdeviation (t : Summary K) : (t.downsideDeviation : Except (Fault ω) K) =
      t.downsideVariance.map Scalar.sqrt := by
    unfold downsideDeviation
    cases (t.downsideVariance : Except (Fault ω) K) <;> rfl
  refine ⟨hvariance, fun v hv => ?_, hdeviation s, fun cs' name' hc' hbelow h0' h0 => ?_⟩
  · obtain ⟨h2, hw, rfl⟩ := of_ifBelow (hvariance.symm.trans hv)
    obtain ⟨o, ho⟩ : ∃ o, o ∈ below H := Multiset.card_pos_iff_exists_mem.mp (by omega)
    have hne : H ≠ 0 := fun h0 => Multiset.notMem_zero o (h0 ▸ (mem_below.mp ho).1)
    obtain ⟨hpos, hle⟩ := meanSquareBelow_bounds h.weight_nonneg h2 hw (h.lower hne).2
    exact ⟨hpos, s.min, minimum_ok (mt h.samples_eq_zero_iff.mp hne), hle⟩
  · have h' : ClosedForm (session cs' name') (held cs' name') :=
      closedForm_tracks.run cs' name' hc'
    have hmean : meanSquareBelow (held cs' name') = meanSquareBelow H := by
      rw [meanSquareBelow, meanSquareBelow, sumBelow_congr hbelow, sumBelow_congr hbelow, hbelow]
    have hsame : ((session cs' name').downsideVariance : Except (Fault ω) K) =
        s.downsideVariance := by
      rw [h'.downsideVariance_eq, hvariance, hmean, ifBelow_congr hbelow h0' h0]
    exact ⟨hsame, by rw [hdeviation, hdeviation, hsame]⟩

/-- Rationals of which two are below zero and one of these has no weight, against the same two
taken in the other order and merged with a larger value. -/
theorem session_downside_rat :
    let cs : List (String × Command ℚ) :=
      [("b", .addWeighted [-2, 5] [3, 1]), ("a", .add ⟨-6, 0⟩), ("a", .merge "b")]
    let cs' : List (String × Command ℚ) :=
      [("a", .addWeighted [-2, 40] [3, 0]), ("a", .add ⟨-1, -1⟩), ("c", .add ⟨-6, 0⟩),
        ("c", .merge "b"), ("c", .merge "a")]
    (held cs "a").card < 2 ^ 64 ∧ (held cs' "c").card < 2 ^ 64 ∧
      below (held cs' "c") = below (held cs "a") ∧ held cs' "c" ≠ 0 ∧ held cs "a" ≠ 0 ∧
      ((session cs "a").downsideVariance : Except (Fault ℚ) ℚ) = .ok 8 ∧
      (∃ lo, ((session cs "a").minimum : Except (Fault ℚ) ℚ) = .ok lo ∧ 8 ≤ lo ^ 2 * 2) ∧
      ((session cs' "c").downsideVariance : Except (Fault ℚ) ℚ) = .ok 8 := by
  intro cs cs'
  have hc : (held cs "a").card < 2 ^ 64 := by decide +kernel
  have hc' : (held cs' "c").card < 2 ^ 64 := by decide +kernel
  have hbelow : below (held cs' "c") = below (held cs "a") := by decide +kernel
  have h0 : held cs "a" ≠ 0 := by decide +kernel
  have h0' : held cs' "c" ≠ 0 := by decide +kernel
  have hn : (below (held cs "a")).card = 2 := by decide +kernel
  obtain ⟨hvalue, hbound, -, hsame⟩ := session_downside (ω := ℚ) cs "a" hc
  have hv : ((session cs "a").downsideVariance : Except (Fault ℚ) ℚ) = .ok 8 :=
    hvalue.trans (by decide +kernel)
  obtain ⟨-, lo, hlo, hle⟩ := hbound 8 hv
  rw [hn] at hle
  norm_num at hle
  exact ⟨hc, hc', hbelow, h0', h0, hv, ⟨lo, hlo, hle⟩, (hsame cs' "c" hc' hbelow h0' h0).1.trans hv⟩

end RunningStats.Summary
