import RunningStats.Binary.Native
import RunningStats.Proofs.Binary.Rounding

/-!
# Arithmetic that rounds in a format

A `RoundedScalar` has the valid patterns of a format for its values, and each operation on them
unpacks, computes and packs. What one of its values stands for is its `number`, and a value is
determined by that (`number_injective`). Both native formats are of this kind.

The laws below are what rounding leaves of the arithmetic of zeros:

* a zero of either sign that is added changes nothing but the zero below
  (`add_zero_of_isZero`, `zero_add_of_isZero`), and no sum is the zero below whose first term is not
  (`add_ne_negativeZero`);
* a finite number less itself is zero (`sub_self_of_finite`), and of what is not finite no sum is
  finite (`add_of_not_finite`);
* zero times a finite number is zero (`isZero_mul`).
-/

namespace RunningStats

open Float.Model (UnpackedFloat)
open Float.Model.UnpackedFloat

/-! ## Zeros among unpacked floats -/

namespace Binary

variable {S : Float.Model.Format} {u v : UnpackedFloat}

theorem add_zero (hu : u ≠ .zero .negative) (s : Sign) : add S u (.zero s) = u := by
  cases u with
  | zero s' =>
    cases s' with
    | negative => exact absurd rfl hu
    | positive => cases s <;> rfl
  | _ => rfl

theorem zero_add (s : Sign) (hu : ∀ s', u ≠ .zero s') : add S (.zero s) u = u := by
  cases u with
  | zero s' => exact absurd rfl (hu s')
  | _ => rfl

theorem zero_add_zero (s s' : Sign) : ∃ r, add S (.zero s) (.zero s') = .zero r := by
  cases s <;> cases s' <;> exact ⟨_, rfl⟩

theorem add_neg_self (hu : u.isFinite) : add S u u.neg = .zero .positive := by
  cases u with
  | notANumber => cases hu
  | infinity s => cases hu
  | zero s => cases s <;> rfl
  | finite s m e hm =>
    unfold neg add
    dsimp only
    rw [apply_neg, Int.add_right_neg]
    rfl

theorem add_neg_self_of_not_finite (hu : u.isFinite = false) : add S u u.neg = .notANumber := by
  cases u with
  | notANumber => rfl
  | infinity s => cases s <;> rfl
  | zero s => cases hu
  | finite s m e hm => cases hu

theorem add_of_not_finite (hu : u.isFinite = false) (v : UnpackedFloat) :
    add S u v = u ∨ add S u v = .notANumber := by
  cases u with
  | notANumber => exact .inr rfl
  | infinity s =>
    cases v with
    | infinity s' =>
      by_cases h : s == s'
      · exact .inl (if_pos h)
      · exact .inr (if_neg h)
    | notANumber => exact .inr rfl
    | _ => exact .inl rfl
  | zero s => cases hu
  | finite s m e hm => cases hu

theorem add_notANumber : add S u .notANumber = .notANumber := by
  cases u <;> rfl

theorem zero_mul (s : Sign) (hv : v.isFinite) : ∃ r, mul S (.zero s) v = .zero r := by
  cases v with
  | notANumber => cases hv
  | infinity s' => cases hv
  | _ => exact ⟨_, rfl⟩

theorem zero_mul_of_not_finite (s : Sign) (hv : v.isFinite = false) :
    mul S (.zero s) v = .notANumber := by
  cases v with
  | zero s' => cases hv
  | finite s' m e hm => cases hv
  | _ => rfl

theorem mul_zero_of_not_finite (hu : u.isFinite = false) (s : Sign) :
    mul S u (.zero s) = .notANumber := by
  cases u with
  | zero s' => cases hu
  | finite s' m e hm => cases hu
  | _ => rfl

theorem mul_self_of_not_finite (hu : u.isFinite = false) :
    mul S u u = .notANumber ∨ ∃ s, mul S u u = .infinity s := by
  cases u with
  | notANumber => exact .inl rfl
  | infinity s => exact .inr ⟨_, rfl⟩
  | zero s => cases hu
  | finite s m e hm => cases hu

theorem beq_zero_iff : u.beq (.zero .positive) ↔ ∃ s, u = .zero s := by
  rw [beq_iff_ne_notANumber_and_eq]
  constructor
  · rintro ⟨-, -, h | h | h⟩
    · exact ⟨_, h⟩
    · exact ⟨_, h.1⟩
    · exact ⟨_, h.1⟩
  · rintro ⟨s, rfl⟩
    cases s <;> simp

end Binary

/-! ## Scalars that round -/

/-- A scalar type that computes by packing what the operations on unpacked floats give. -/
class RoundedScalar (α : Type) [Scalar α] where
  /-- The format. -/
  spec : Float.Model.Format
  one_lt : 1 < spec.exponentBits
  /-- The pattern of a value. -/
  bits : α → BitVec spec.numBits
  valid : ∀ x, spec.Valid (bits x)
  bits_injective : Function.Injective bits
  bits_zero : bits 0 = pack spec (.zero .positive)
  bits_neg : ∀ x, bits (-x) = pack spec (unpack spec (bits x)).neg
  bits_add : ∀ x y,
    bits (x + y) = pack spec (add spec (unpack spec (bits x)) (unpack spec (bits y)))
  bits_sub : ∀ x y,
    bits (x - y) = pack spec (sub spec (unpack spec (bits x)) (unpack spec (bits y)))
  bits_mul : ∀ x y,
    bits (x * y) = pack spec (mul spec (unpack spec (bits x)) (unpack spec (bits y)))
  isFinite_eq : ∀ x, Scalar.isFinite x = (unpack spec (bits x)).isFinite
  beq_eq : ∀ x y : α, (x == y) = (unpack spec (bits x)).beq (unpack spec (bits y))
  le_iff : ∀ x y : α, x ≤ y ↔ (unpack spec (bits x)).le (unpack spec (bits y))
  lt_iff : ∀ x y : α, x < y ↔ (unpack spec (bits x)).lt (unpack spec (bits y))

instance : RoundedScalar Float where
  spec := Float.Model.Format.binary64
  one_lt := by decide
  bits x := x.toModel.toBits.toBitVec
  valid x := x.toModel.valid
  bits_injective := by
    rintro ⟨⟨⟨b⟩, hb⟩⟩ ⟨⟨⟨c⟩, hc⟩⟩ rfl
    rfl
  bits_zero := by decide +kernel
  bits_neg _ := rfl
  bits_add _ _ := rfl
  bits_sub _ _ := rfl
  bits_mul _ _ := rfl
  isFinite_eq _ := rfl
  beq_eq _ _ := rfl
  le_iff _ _ := decide_eq_true_iff
  lt_iff _ _ := decide_eq_true_iff

instance : RoundedScalar Float32 where
  spec := Float.Model.Format.binary32
  one_lt := by decide
  bits x := x.toModel.toBits.toBitVec
  valid x := x.toModel.valid
  bits_injective := by
    rintro ⟨⟨⟨b⟩, hb⟩⟩ ⟨⟨⟨c⟩, hc⟩⟩ rfl
    rfl
  bits_zero := by decide +kernel
  bits_neg _ := rfl
  bits_add _ _ := rfl
  bits_sub _ _ := rfl
  bits_mul _ _ := rfl
  isFinite_eq _ := rfl
  beq_eq _ _ := rfl
  le_iff _ _ := decide_eq_true_iff
  lt_iff _ _ := decide_eq_true_iff

namespace RoundedScalar

variable {α : Type} [Scalar α] [RoundedScalar α] {x y z : α}

/-- What a value stands for. -/
def number (x : α) : UnpackedFloat := unpack (spec α) (bits x)

/-- The zero below. -/
def NegativeZero (x : α) : Prop := number x = .zero .negative

/-- No number at all. -/
def NotANumber (x : α) : Prop := number x = .notANumber

theorem bits_eq (x : α) : bits x = pack (spec α) (number x) :=
  (pack_unpack_of_valid (valid x) one_lt).symm

theorem number_injective (h : number x = number y) : x = y :=
  bits_injective ((unpack_inj_of_valid (valid x) (valid y) one_lt).mp h)

theorem NotANumber.eq (hx : NotANumber x) (hy : NotANumber y) : x = y :=
  number_injective (hx.trans hy.symm)

theorem fits_number (x : α) : Binary.Fits (spec α) (number x) := Binary.fits_unpack _

theorem number_zero : number (0 : α) = .zero .positive := by
  rw [number, bits_zero]
  exact unpack_packedZero

theorem number_neg (x : α) : number (-x) = (number x).neg := by
  rw [number, bits_neg, Binary.unpack_pack_neg one_lt]
  rfl

theorem number_add (x y : α) :
    number (x + y) = unpack (spec α) (pack (spec α) (add (spec α) (number x) (number y))) := by
  rw [number, bits_add]
  rfl

theorem number_mul (x y : α) :
    number (x * y) = unpack (spec α) (pack (spec α) (mul (spec α) (number x) (number y))) := by
  rw [number, bits_mul]
  rfl

/-- A sum that is a value before it is packed is that value. -/
theorem add_eq (h : add (spec α) (number x) (number y) = number z) : x + y = z :=
  bits_injective (by rw [bits_add, bits_eq z, ← h]; rfl)

theorem notANumber_add (h : add (spec α) (number x) (number y) = .notANumber) :
    NotANumber (x + y) := by
  rw [NotANumber, number_add, h]
  exact unpack_packedNaN

theorem sub_eq_add (x y : α) : x - y = x + -y := by
  refine bits_injective ?_
  rw [bits_sub, Binary.sub_eq_add, bits_add]
  show pack _ (add _ (number x) (number y).neg) = pack _ (add _ (number x) (number (-y)))
  rw [number_neg]

protected theorem neg_neg (x : α) : - -x = x := by
  refine number_injective ?_
  rw [number_neg, number_neg]
  cases number x <;> simp [neg, Binary.sign_neg_neg]

theorem isZero_iff : Scalar.isZero x ↔ ∃ s, number x = .zero s := by
  have h : number (0 : α) = .zero .positive := number_zero
  rw [Scalar.isZero, beq_eq]
  show (number x).beq (number 0) ↔ _
  rw [h]
  exact Binary.beq_zero_iff

theorem isFinite_eq_number (x : α) : Scalar.isFinite x = (number x).isFinite := isFinite_eq x

theorem isZero_zero : Scalar.isZero (0 : α) := isZero_iff.mpr ⟨_, number_zero⟩

theorem isZero_neg : Scalar.isZero (-x) ↔ Scalar.isZero x := by
  rw [isZero_iff, isZero_iff, number_neg]
  constructor
  · rintro ⟨s, h⟩
    refine ⟨-s, ?_⟩
    rw [← number_neg] at h
    rw [← RoundedScalar.neg_neg x, number_neg, h]
    rfl
  · rintro ⟨s, h⟩
    exact ⟨-s, by rw [h]; rfl⟩

theorem isFinite_of_isZero (hz : Scalar.isZero z) : Scalar.isFinite z := by
  obtain ⟨s, hs⟩ := isZero_iff.mp hz
  rw [isFinite_eq_number, hs]
  rfl

theorem nonneg_of_isZero (hz : Scalar.isZero z) : 0 ≤ z := by
  obtain ⟨s, hs⟩ := isZero_iff.mp hz
  rw [le_iff]
  show (number 0).le (number z)
  rw [number_zero, hs]
  rfl

theorem not_pos_of_isZero (hz : Scalar.isZero z) : ¬ 0 < z := by
  obtain ⟨s, hs⟩ := isZero_iff.mp hz
  rw [lt_iff]
  show ¬ (number 0).lt (number z)
  rw [number_zero, hs]
  exact Bool.false_ne_true

/-! ## Sums -/

theorem add_zero_of_isZero (hx : ¬ NegativeZero x) (hz : Scalar.isZero z) : x + z = x := by
  obtain ⟨s, hs⟩ := isZero_iff.mp hz
  refine add_eq ?_
  rw [hs]
  exact Binary.add_zero hx s

theorem zero_add_of_isZero (hz : Scalar.isZero z) (hx : ¬ Scalar.isZero x) : z + x = x := by
  obtain ⟨s, hs⟩ := isZero_iff.mp hz
  refine add_eq ?_
  rw [hs]
  exact Binary.zero_add s fun s' h => hx (isZero_iff.mpr ⟨s', h⟩)

theorem isZero_add (hx : Scalar.isZero x) (hy : Scalar.isZero y) : Scalar.isZero (x + y) := by
  obtain ⟨s, hs⟩ := isZero_iff.mp hx
  obtain ⟨s', hs'⟩ := isZero_iff.mp hy
  obtain ⟨r, hr⟩ := Binary.zero_add_zero (S := spec α) s s'
  refine isZero_iff.mpr ⟨r, ?_⟩
  rw [number_add, hs, hs', hr]
  exact unpack_packedZero

/-- **No sum is the zero below** whose first term is not. -/
theorem add_ne_negativeZero (hx : ¬ NegativeZero x) (y : α) : ¬ NegativeZero (x + y) := by
  obtain ⟨hfit, hzero⟩ := Binary.fits_add (fits_number x) (fits_number y)
  intro h
  rw [NegativeZero, number_add] at h
  obtain ⟨s, hs⟩ := Binary.eq_zero_of_unpack_pack hfit h
  rw [hs, pack, unpack_packedZero] at h
  exact hx (hzero (hs.trans h))

theorem sub_ne_negativeZero (hx : ¬ NegativeZero x) (y : α) : ¬ NegativeZero (x - y) := by
  rw [sub_eq_add]
  exact add_ne_negativeZero hx _

theorem not_negativeZero_zero : ¬ NegativeZero (0 : α) := by
  rw [NegativeZero, number_zero]
  exact fun h => by cases h

/-- The zero that is not the one below. -/
theorem eq_zero (hx : Scalar.isZero x) (hn : ¬ NegativeZero x) : x = 0 := by
  obtain ⟨s, hs⟩ := isZero_iff.mp hx
  cases s with
  | negative => exact absurd hs hn
  | positive => exact number_injective (hs.trans number_zero.symm)

theorem sub_self_of_finite (hx : Scalar.isFinite x) : x - x = 0 := by
  rw [isFinite_eq_number] at hx
  rw [sub_eq_add]
  refine add_eq ?_
  rw [number_neg, number_zero]
  exact Binary.add_neg_self hx

theorem sub_self_of_not_finite (hx : Scalar.isFinite x = false) : NotANumber (x - x) := by
  rw [isFinite_eq_number] at hx
  rw [sub_eq_add]
  refine notANumber_add ?_
  rw [number_neg]
  exact Binary.add_neg_self_of_not_finite hx

/-- **No sum is finite** whose first term is not. -/
theorem add_of_not_finite (hx : Scalar.isFinite x = false) (y : α) :
    x + y = x ∨ NotANumber (x + y) := by
  rw [isFinite_eq_number] at hx
  rcases Binary.add_of_not_finite hx (number y) with h | h
  · exact .inl (add_eq h)
  · exact .inr (notANumber_add h)

theorem NotANumber.add (hx : NotANumber x) (y : α) : NotANumber (x + y) := by
  refine notANumber_add ?_
  rw [hx]
  rfl

theorem sub_of_not_finite (hx : Scalar.isFinite x = false) (y : α) :
    x - y = x ∨ NotANumber (x - y) := by
  rw [sub_eq_add]
  exact add_of_not_finite hx _

theorem NotANumber.sub (hx : NotANumber x) (y : α) : NotANumber (x - y) := by
  rw [sub_eq_add]
  exact hx.add _

theorem add_notANumber (x : α) (hy : NotANumber y) : NotANumber (x + y) := by
  refine notANumber_add ?_
  rw [hy]
  exact Binary.add_notANumber

theorem sub_notANumber (x : α) (hy : NotANumber y) : NotANumber (x - y) := by
  rw [sub_eq_add]
  refine add_notANumber x ?_
  rw [NotANumber, number_neg, hy]
  rfl

/-- Zero less what is left of taking `x` from a zero is `x` again. -/
theorem zero_sub_zero_sub (hz : Scalar.isZero z) (hx : ¬ NegativeZero x) : 0 - (z - x) = x := by
  rw [sub_eq_add, sub_eq_add]
  by_cases h : Scalar.isZero x
  · have hsum := isZero_neg.mpr (isZero_add hz (isZero_neg.mpr h))
    rw [add_zero_of_isZero not_negativeZero_zero hsum, eq_zero h hx]
  · rw [zero_add_of_isZero hz (mt isZero_neg.mp h), RoundedScalar.neg_neg,
      zero_add_of_isZero isZero_zero h]

/-! ## Products -/

theorem isZero_mul (hz : Scalar.isZero z) (hx : Scalar.isFinite x) : Scalar.isZero (z * x) := by
  obtain ⟨s, hs⟩ := isZero_iff.mp hz
  rw [isFinite_eq_number] at hx
  obtain ⟨r, hr⟩ := Binary.zero_mul (S := spec α) s hx
  refine isZero_iff.mpr ⟨r, ?_⟩
  rw [number_mul, hs, hr]
  exact unpack_packedZero

theorem notANumber_mul (h : mul (spec α) (number x) (number y) = .notANumber) :
    NotANumber (x * y) := by
  rw [NotANumber, number_mul, h]
  exact unpack_packedNaN

/-- Zero does not make a product finite. -/
theorem zero_mul_of_not_finite (hz : Scalar.isZero z) (hx : Scalar.isFinite x = false) :
    NotANumber (z * x) := by
  obtain ⟨s, hs⟩ := isZero_iff.mp hz
  rw [isFinite_eq_number] at hx
  refine notANumber_mul ?_
  rw [hs]
  exact Binary.zero_mul_of_not_finite s hx

theorem mul_zero_of_not_finite (hx : Scalar.isFinite x = false) (hz : Scalar.isZero z) :
    NotANumber (x * z) := by
  obtain ⟨s, hs⟩ := isZero_iff.mp hz
  rw [isFinite_eq_number] at hx
  refine notANumber_mul ?_
  rw [hs]
  exact Binary.mul_zero_of_not_finite hx s

/-- A square is finite only of a finite number. -/
theorem finite_of_mul_self (h : Scalar.isFinite (x * x)) : Scalar.isFinite x := by
  by_contra hx
  rw [isFinite_eq_number, Bool.not_eq_true] at hx
  rw [isFinite_eq_number, number_mul] at h
  rcases Binary.mul_self_of_not_finite (S := spec α) hx with hm | ⟨s, hm⟩
  · rw [hm, pack, unpack_packedNaN] at h
    exact Bool.false_ne_true h
  · rw [hm, pack, Binary.unpack_packedInfinity] at h
    exact Bool.false_ne_true h

end RoundedScalar

end RunningStats
