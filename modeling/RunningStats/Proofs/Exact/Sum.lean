import Mathlib.Algebra.BigOperators.Group.Multiset.Basic
import Mathlib.Tactic.Ring
import RunningStats.Moments.TwoPass
import RunningStats.Proofs.Exact.Scalar

/-!
# Exact sums need no compensation

Without rounding, a compensated sum that starts with no excess never gets one: it is the plain sum
of its terms, and two of them merge by addition.
-/

namespace RunningStats

variable {K : Type} [ExactScalar K]

namespace CompensatedSum

/-- A total in which rounding left no excess. -/
def exactly (x : K) : CompensatedSum K := ⟨x, 0⟩

theorem empty_eq_exactly : (empty : CompensatedSum K) = exactly 0 := rfl

@[simp] theorem sum_exactly (x : K) : (exactly x).sum = x := rfl

/-- One addition takes any excess back. -/
theorem add_eq (s : CompensatedSum K) (x : K) :
    s.add x = exactly (s.sum - s.compensation + x) := by
  have hs : s.sum + (x - s.compensation) = s.sum - s.compensation + x := by ring
  have hc : s.sum + (x - s.compensation) - s.sum - (x - s.compensation) = 0 := by ring
  unfold add exactly
  dsimp only
  rw [hc, hs]

@[simp] theorem exactly_add (x y : K) : (exactly x).add y = exactly (x + y) := by
  rw [add_eq]
  show exactly (x - 0 + y) = _
  rw [sub_zero]

@[simp] theorem exactly_merge (x y : K) : (exactly x).merge (exactly y) = exactly (x + y) := by
  unfold merge
  show ((exactly x).add y).add (-0) = _
  rw [exactly_add, exactly_add, neg_zero, add_zero]

theorem exactly_addAll (xs : List K) : ∀ x : K, (exactly x).addAll xs = exactly (x + xs.sum) := by
  unfold addAll
  induction xs with
  | nil =>
    intro x
    rw [List.sum_nil, add_zero]
    rfl
  | cons y ys ih =>
    intro x
    rw [List.foldl_cons, exactly_add, ih, List.sum_cons, add_assoc]

theorem ofList_eq_exactly (xs : List K) : ofList xs = exactly xs.sum := by
  rw [ofList, empty_eq_exactly, exactly_addAll, zero_add]

end CompensatedSum

/-- A compensated total is the sum of the term over the observations as a multiset. -/
theorem Moments.total_eq_sum (os : List (Observation K)) (term : Observation K → K) :
    Moments.total os term = ((os : Multiset (Observation K)).map term).sum := by
  rw [Moments.total, CompensatedSum.ofList_eq_exactly, CompensatedSum.sum_exactly,
    Multiset.map_coe, Multiset.sum_coe]

end RunningStats
