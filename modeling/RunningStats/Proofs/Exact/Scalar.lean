import Mathlib.Algebra.Order.Field.Basic
import Mathlib.Analysis.Real.Sqrt
import Mathlib.Data.Rat.Sqrt
import RunningStats.Proofs.Order

/-!
# Exact scalars

An `ExactScalar` is a linearly ordered field whose scalar operations are its own: what can be said
of a statistic without mentioning rounding is said over it. Only the square root, the bound at
infinity and the values that pass for finite are left open, so a theorem over every exact scalar
holds for any choice of them. The reals, with the real square root, and the rationals are exact.
-/

namespace RunningStats

/-- A linearly ordered field, with its own operations and order and with exact counts. -/
class ExactScalar (K : Type) extends Field K, LinearOrder K, IsStrictOrderedRing K, Scalar K where
  beq_iff : ∀ x y : K, toBEq.beq x y = true ↔ x = y
  ofCount_eq : ∀ n : UInt64, toScalar.ofCount n = (n.toNat : K)

noncomputable instance : ExactScalar ℝ where
  __ := (inferInstance : Field ℝ)
  __ := (inferInstance : LinearOrder ℝ)
  __ := (inferInstance : IsStrictOrderedRing ℝ)
  beq x y := decide (x = y)
  decLt := inferInstance
  decLe := inferInstance
  sqrt := Real.sqrt
  isFinite _ := true
  infinity := 0
  ofCount n := (n.toNat : ℝ)
  beq_iff x y := by simp
  ofCount_eq _ := rfl

instance : ExactScalar ℚ where
  __ := (inferInstance : Field ℚ)
  __ := (inferInstance : LinearOrder ℚ)
  __ := (inferInstance : IsStrictOrderedRing ℚ)
  beq x y := decide (x = y)
  decLt := inferInstance
  decLe := inferInstance
  sqrt := Rat.sqrt
  isFinite _ := true
  infinity := 0
  ofCount n := (n.toNat : ℚ)
  beq_iff x y := by simp
  ofCount_eq _ := rfl

namespace ExactScalar

variable {K : Type} [ExactScalar K]

/-- An exact type is as wide as itself. -/
instance : Wide K K := ⟨id, id⟩

@[simp] theorem undefined_eq_false (x : K) : Scalar.undefined x = false := by
  have h : (x == x) = true := (beq_iff x x).mpr rfl
  rw [Scalar.undefined, h]
  rfl

@[simp] theorem isZero_iff (x : K) : Scalar.isZero x = true ↔ x = 0 := beq_iff x 0

/-- What a guard against zero lets pass. -/
theorem ne_zero_of_not_isZero {x : K} (h : ¬ Scalar.isZero x) : x ≠ 0 :=
  mt (isZero_iff x).mpr h

@[simp] theorem ofCount_eq_natCast (n : UInt64) : (Scalar.ofCount n : K) = (n.toNat : K) :=
  ofCount_eq n

@[simp] theorem least_eq_min (x y : K) : Scalar.least x y = min x y := by
  simp only [Scalar.least, undefined_eq_false, Bool.false_eq_true, if_false]
  split
  · rename_i h
    exact (min_eq_right h.le).symm
  · rename_i h
    exact (min_eq_left (not_lt.mp h)).symm

@[simp] theorem greatest_eq_max (x y : K) : Scalar.greatest x y = max x y := by
  simp only [Scalar.greatest, undefined_eq_false, Bool.false_eq_true, if_false]
  split
  · rename_i h
    exact (max_eq_right h.le).symm
  · rename_i h
    exact (max_eq_left (not_lt.mp h)).symm

instance : OrderedScalar K where
  defined _ := undefined_eq_false _
  total _ _ := le_total _ _
  trans _ _ _ h h' := h.trans h'
  not_lt _ _ := not_lt

end ExactScalar

end RunningStats
