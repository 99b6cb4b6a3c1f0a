import RunningStats.Proofs.Binary.Sign

/-!
# The numbers of a binary scalar type

A `BinaryScalar` rounds in every operation, its format reaching beyond every count; both native
formats are of this kind. `toRat` is the number that a finite scalar stands for, and `Nearest q z`
says that `z` is `q` rounded: to a number of the format, or to an infinity beyond its limit.

* `nearest_add`, `nearest_sub`, `nearest_mul`, `nearest_div`, `nearest_ofCount`: each operation on
  finite scalars rounds its exact result.
* `Nearest.rounds`, `Nearest.ties`, `Nearest.finite`: a finite result is the nearest number, the
  even one of two, and a result that some number of the format bounds is finite.
* `Nearest.le`, `Nearest.ge`: rounding goes past no scalar, not even where it overflows.
* `NotANumber`, `NotBelow`: which results are no number, and which may lie below zero, also where an
  operand is infinite. What is neither is an `IsAmount`.
-/

namespace RunningStats

open Float.Model (UnpackedFloat)
open Float.Model.UnpackedFloat
open Binary (Representable Rounds RoundsTo Ties NotNegative value limit)

/-- A scalar type that rounds in every operation. -/
class BinaryScalar (α : Type) [Scalar α] extends RoundedScalar α where
  /-- No count reaches the limit of the format. -/
  reach : 8 ≤ spec.exponentBits
  precise : 8 ≤ spec.mantissaBits
  one_eq : (1 : α) = Scalar.ofCount 1
  bits_div : ∀ x y,
    bits (x / y) = pack spec (div spec (unpack spec (bits x)) (unpack spec (bits y)))
  bits_sqrt : ∀ x, bits (Scalar.sqrt x) = pack spec (sqrt spec (unpack spec (bits x)))
  bits_ofCount : ∀ n, bits (Scalar.ofCount n) = pack spec (ofNat spec n.toNat)

instance : BinaryScalar Float where
  reach := by decide
  precise := by decide
  one_eq := by decide +kernel
  bits_div _ _ := rfl
  bits_sqrt _ := rfl
  bits_ofCount _ := rfl

instance : BinaryScalar Float32 where
  reach := by decide
  precise := by decide
  one_eq := by decide +kernel
  bits_div _ _ := rfl
  bits_sqrt _ := rfl
  bits_ofCount _ := rfl

namespace RoundedScalar

variable {α : Type} [Scalar α] [RoundedScalar α] {x y z : α} {q b : ℚ}

instance : OrderedScalar α :=
  Binary.ordered_of_unpack (fun x => unpack (spec α) (bits x)) isFinite_eq le_iff lt_iff beq_eq

/-- The number that a finite scalar stands for. -/
def toRat (x : α) : ℚ := value (number x)

theorem canonical_number (x : α) : Binary.Canonical (spec α) (number x) :=
  Binary.canonical_unpack _

theorem rounds_self (x : α) : Rounds (spec α) (toRat x) (toRat x) :=
  (canonical_number x).rounds_self

theorem representable (x : α) : Representable (spec α) (toRat x) :=
  (rounds_self x).representable

theorem abs_toRat_lt_limit (x : α) : |toRat x| < limit (spec α) :=
  Binary.abs_value_lt_limit one_lt _

theorem minExponent_nonpos : (spec α).minExponent ≤ 0 := Binary.minExponent_nonpos one_lt

variable (α) in
/-- Counts of some power of two that is a whole number. -/
theorem representable_mul_pow {k : ℕ} (hk : k ≤ 2 ^ (spec α).mantissaBits) (e : ℕ) :
    Representable (spec α) (k * 2 ^ e) := by
  rw [← zpow_natCast]
  exact .natCast_mul hk (minExponent_nonpos.trans (Int.natCast_nonneg e))

variable (α) in
theorem representable_natCast {k : ℕ} (hk : k ≤ 2 ^ (spec α).mantissaBits) :
    Representable (spec α) k := by
  simpa using representable_mul_pow α hk 0

/-! ## Comparison -/

theorem le_iff_toRat (hx : Scalar.isFinite x) (hy : Scalar.isFinite y) :
    x ≤ y ↔ toRat x ≤ toRat y := by
  rw [isFinite_eq_number] at hx hy
  rw [le_iff]
  exact Binary.le_iff_value (canonical_number x) (canonical_number y) hx hy

theorem lt_iff_toRat (hx : Scalar.isFinite x) (hy : Scalar.isFinite y) :
    x < y ↔ toRat x < toRat y := by
  rw [isFinite_eq_number] at hx hy
  rw [lt_iff]
  exact Binary.lt_iff_value (canonical_number x) (canonical_number y) hx hy

/-- The infinities lie on either side of the finite scalars. -/
theorem le_of_number_eq_infinity (hx : number x = .infinity .negative) (hy : Scalar.isFinite y) :
    x ≤ y := by
  rw [isFinite_eq_number] at hy
  rw [le_iff]
  show (number x).le (number y)
  rw [hx]
  cases hn : number y <;> rw [hn] at hy <;> first | rfl | cases hy

@[inherit_doc le_of_number_eq_infinity]
theorem ge_of_number_eq_infinity (hx : number x = .infinity .positive) (hy : Scalar.isFinite y) :
    y ≤ x := by
  rw [isFinite_eq_number] at hy
  rw [le_iff]
  show (number y).le (number x)
  rw [hx]
  cases hn : number y <;> rw [hn] at hy <;> first | rfl | cases hy

/-- What lies strictly between two scalars is finite. -/
theorem finite_of_between (hx : x < z) (hy : z < y) : Scalar.isFinite z := by
  rw [lt_iff] at hx hy
  change (number x).lt (number z) at hx
  change (number z).lt (number y) at hy
  rw [isFinite_eq_number]
  cases hn : number z with
  | notANumber => rw [hn] at hy; cases hy
  | infinity s =>
    rw [hn] at hx hy
    cases s with
    | positive => cases hm : number y with
      | infinity s => rw [hm] at hy; cases s <;> cases hy
      | _ => rw [hm] at hy; cases hy
    | negative => cases hm : number x with
      | infinity s => rw [hm] at hx; cases s <;> cases hx
      | _ => rw [hm] at hx; cases hx
  | _ => rfl

/-- What is no number has no place in the order. -/
theorem not_le_notANumber (x : α) (hy : NotANumber y) : ¬ x ≤ y := by
  rw [le_iff]
  show ¬ (number x).le (number y)
  rw [hy]
  cases number x <;> exact Bool.false_ne_true

/-- **A scalar that is not zero is determined by its number.** -/
theorem eq_of_toRat (hx : Scalar.isFinite x) (hy : Scalar.isFinite y) (h : toRat x = toRat y)
    (h0 : toRat y ≠ 0) : x = y := by
  rw [isFinite_eq_number] at hx hy
  exact number_injective (Binary.eq_of_value (canonical_number x) (canonical_number y) hx hy h h0)

theorem toRat_zero : toRat (0 : α) = 0 := by
  rw [toRat, number_zero]
  rfl

theorem toRat_neg (x : α) : toRat (-x) = -toRat x := by
  rw [toRat, number_neg, Binary.value_neg, toRat]

theorem isFinite_neg : Scalar.isFinite (-x) ↔ Scalar.isFinite x := by
  rw [isFinite_eq_number, isFinite_eq_number, number_neg]
  cases number x <;> exact Iff.rfl

theorem isZero_iff_toRat (hx : Scalar.isFinite x) : Scalar.isZero x ↔ toRat x = 0 := by
  rw [isFinite_eq_number] at hx
  rw [isZero_iff, toRat, Binary.value_eq_zero_iff hx]

/-! ## Rounded results -/

/-- `z` is `q` rounded, or infinite where that is too large. -/
def Nearest (q : ℚ) (z : α) : Prop :=
  ∃ u, RoundsTo (spec α) q u ∧ number z = unpack (spec α) (pack (spec α) u)

theorem Nearest.roundsTo (h : Nearest q z) (hz : Scalar.isFinite z) :
    RoundsTo (spec α) q (number z) := by
  obtain ⟨u, hu, hn⟩ := h
  rw [isFinite_eq_number, hn] at hz
  rw [hn]
  rcases Binary.unpack_pack one_lt hu.canonical with he | ⟨s, m, e, hm, -, he, -⟩
  · rw [he]
    exact hu
  · rw [he] at hz
    cases hz

theorem Nearest.rounds (h : Nearest q z) (hz : Scalar.isFinite z) :
    Rounds (spec α) q (toRat z) := (h.roundsTo hz).rounds

theorem Nearest.ties (h : Nearest q z) (hz : Scalar.isFinite z) : Ties q (toRat z) :=
  (h.roundsTo hz).ties

/-- What a number is rounded to is a number. -/
theorem Nearest.defined (h : Nearest q z) : ¬ NotANumber z := by
  obtain ⟨u, hu, hn⟩ := h
  rw [NotANumber, hn]
  exact Binary.unpack_pack_ne_notANumber (Binary.ne_notANumber_of_finite hu.finite)

/-- What is rounded to no finite number is rounded to the infinity on its own side. -/
theorem Nearest.infinite (h : Nearest q z) (hz : ¬ Scalar.isFinite z) :
    (number z = .infinity .positive ∧ ∀ y : α, toRat y < q) ∨
      (number z = .infinity .negative ∧ ∀ y : α, q < toRat y) := by
  obtain ⟨u, hu, hn⟩ := h
  rw [isFinite_eq_number, hn] at hz
  rcases Binary.unpack_pack one_lt hu.canonical with he | ⟨s, m, e, hm, rfl, he, hl⟩
  · rw [he] at hz
    exact absurd hu.finite hz
  rw [Binary.abs_value_finite] at hl
  rw [he] at hn
  cases s with
  | positive =>
    refine .inl ⟨hn, fun y => ?_⟩
    by_contra hq
    have hle := hu.rounds.le (representable y) (not_lt.mp hq)
    rw [value, Binary.unit, one_mul] at hle
    linarith [le_abs_self (toRat y), abs_toRat_lt_limit y]
  | negative =>
    refine .inr ⟨hn, fun y => ?_⟩
    by_contra hq
    have hle := hu.rounds.ge (representable y) (not_lt.mp hq)
    rw [value, Binary.unit, neg_mul, one_mul] at hle
    linarith [neg_abs_le (toRat y), abs_toRat_lt_limit y]

/-- What is rounded to a finite number lies below the limit. -/
theorem Nearest.abs_lt_limit (h : Nearest q z) (hz : Scalar.isFinite z) :
    |q| < limit (spec α) := by
  have hlimit : Representable (spec α) (limit (spec α)) := by
    have := representable_mul_pow α (k := 1) Nat.one_le_two_pow (2 ^ ((spec α).exponentBits - 1))
    rwa [Nat.cast_one, one_mul] at this
  have habs := abs_lt.mp (abs_toRat_lt_limit z)
  rw [abs_lt]
  constructor <;> by_contra hge <;> rw [not_lt] at hge
  · linarith [(h.rounds hz).le hlimit.neg hge]
  · linarith [(h.rounds hz).ge hlimit hge]

/-- **Rounding goes past no scalar**, also where it overflows. -/
theorem Nearest.le (h : Nearest q z) (hy : Scalar.isFinite y) (hq : q ≤ toRat y) : z ≤ y := by
  by_cases hz : Scalar.isFinite z
  · exact (le_iff_toRat hz hy).mpr ((h.rounds hz).le (representable y) hq)
  rcases h.infinite hz with ⟨-, hlt⟩ | ⟨hn, -⟩
  · exact absurd hq (hlt y).not_ge
  · exact le_of_number_eq_infinity hn hy

theorem Nearest.ge (h : Nearest q z) (hy : Scalar.isFinite y) (hq : toRat y ≤ q) : y ≤ z := by
  by_cases hz : Scalar.isFinite z
  · exact (le_iff_toRat hy hz).mpr ((h.rounds hz).ge (representable y) hq)
  rcases h.infinite hz with ⟨hn, -⟩ | ⟨-, hlt⟩
  · exact ge_of_number_eq_infinity hn hy
  · exact absurd hq (hlt y).not_ge

/-- **What a number of the format bounds is finite.** -/
theorem Nearest.finite (h : Nearest q z) (hb : Representable (spec α) b)
    (hlimit : b < limit (spec α)) (hq : |q| ≤ b) : Scalar.isFinite z := by
  obtain ⟨u, hu, hn⟩ := h
  rw [isFinite_eq_number, hn]
  rcases Binary.unpack_pack one_lt hu.canonical with he | ⟨s, m, e, hm, -, -, hl⟩
  · rw [he]
    exact hu.finite
  · exact absurd (hl.trans (hu.rounds.bound hb hq)) hlimit.not_ge

/-- **What lies between two scalars stays between them**, and is finite. -/
theorem Nearest.between (h : Nearest q z) (hx : toRat x ≤ q) (hy : q ≤ toRat y) :
    Scalar.isFinite z ∧ toRat x ≤ toRat z ∧ toRat z ≤ toRat y := by
  have hfinite : Scalar.isFinite z := by
    rcases le_total |toRat x| |toRat y| with hxy | hxy
    · exact h.finite (representable y).abs (abs_toRat_lt_limit y)
        (abs_le.mpr ⟨by linarith [(abs_le.mp hxy).1], hy.trans (le_abs_self _)⟩)
    · exact h.finite (representable x).abs (abs_toRat_lt_limit x)
        (abs_le.mpr ⟨(neg_abs_le _).trans hx, by linarith [(abs_le.mp hxy).2]⟩)
  have hr := h.rounds hfinite
  exact ⟨hfinite, hr.ge (representable x) hx, hr.le (representable y) hy⟩

/-- The number of a scalar is not rounded. -/
theorem Nearest.exact (h : Nearest (toRat x) z) : Scalar.isFinite z ∧ toRat z = toRat x := by
  obtain ⟨hf, hl, hu⟩ := h.between (le_refl (toRat x)) (le_refl (toRat x))
  exact ⟨hf, le_antisymm hu hl⟩

theorem nearest_add (hx : Scalar.isFinite x) (hy : Scalar.isFinite y) :
    Nearest (toRat x + toRat y) (x + y) := by
  rw [isFinite_eq_number] at hx hy
  exact ⟨_, Binary.roundsTo_add hx hy (canonical_number x) (canonical_number y), number_add x y⟩

theorem nearest_sub (hx : Scalar.isFinite x) (hy : Scalar.isFinite y) :
    Nearest (toRat x - toRat y) (x - y) := by
  rw [sub_eq_add x y, sub_eq_add_neg, ← toRat_neg]
  exact nearest_add hx (isFinite_neg.mpr hy)

theorem nearest_mul (hx : Scalar.isFinite x) (hy : Scalar.isFinite y) :
    Nearest (toRat x * toRat y) (x * y) := by
  rw [isFinite_eq_number] at hx hy
  exact ⟨_, Binary.roundsTo_mul minExponent_nonpos hx hy (canonical_number x) (canonical_number y),
    number_mul x y⟩

/-! ## Undefined results and results below zero -/

/-- Not below zero, unless it is no number. -/
def NotBelow (x : α) : Prop := NotNegative (number x)

theorem undefined_iff : Scalar.undefined x ↔ NotANumber x := by
  have hself : (x == x) = true ↔ number x ≠ .notANumber := by
    rw [beq_eq]
    show (number x).beq (number x) = true ↔ _
    rw [beq_iff_ne_notANumber_and_eq]
    exact ⟨fun h => h.1, fun h => ⟨h, h, .inl rfl⟩⟩
  rw [Scalar.undefined, Bool.not_eq_true', ← Bool.not_eq_true, hself, not_not, NotANumber]

theorem not_notANumber_of_finite (hx : Scalar.isFinite x) : ¬ NotANumber x := by
  rw [isFinite_eq_number] at hx
  exact Binary.ne_notANumber_of_finite hx

theorem notBelow_iff (hx : Scalar.isFinite x) : NotBelow x ↔ 0 ≤ toRat x := by
  rw [isFinite_eq_number] at hx
  exact Binary.notNegative_iff hx

theorem toRat_nonneg_iff (hx : Scalar.isFinite x) : 0 ≤ x ↔ 0 ≤ toRat x := by
  rw [le_iff_toRat (isFinite_of_isZero isZero_zero) hx, toRat_zero]

theorem finite_of_add (h : Scalar.isFinite (x + y)) : Scalar.isFinite x ∧ Scalar.isFinite y := by
  rw [isFinite_eq_number, number_add] at h
  rw [isFinite_eq_number, isFinite_eq_number]
  exact Binary.finite_of_add (Binary.finite_of_unpack_pack h)

theorem finite_of_sub (h : Scalar.isFinite (x - y)) : Scalar.isFinite x ∧ Scalar.isFinite y := by
  rw [sub_eq_add] at h
  exact ⟨(finite_of_add h).1, isFinite_neg.mp (finite_of_add h).2⟩

theorem finite_of_mul (h : Scalar.isFinite (x * y)) : Scalar.isFinite x ∧ Scalar.isFinite y := by
  rw [isFinite_eq_number, number_mul] at h
  rw [isFinite_eq_number, isFinite_eq_number]
  exact Binary.finite_of_mul (Binary.finite_of_unpack_pack h)

theorem NotBelow.add (hx : NotBelow x) (hy : NotBelow y) : NotBelow (x + y) := by
  rw [NotBelow, number_add]
  exact (NotNegative.add hx hy (canonical_number x) (canonical_number y)).unpack_pack

theorem NotBelow.mul (hx : NotBelow x) (hy : NotBelow y) : NotBelow (x * y) := by
  rw [NotBelow, number_mul]
  exact (NotNegative.mul minExponent_nonpos hx hy (canonical_number x)
    (canonical_number y)).unpack_pack

theorem notBelow_mul_self (x : α) : NotBelow (x * x) := by
  rw [NotBelow, number_mul]
  exact (NotNegative.mul_self minExponent_nonpos (canonical_number x)).unpack_pack

theorem not_notANumber_add (hx : NotBelow x) (hy : NotBelow y) (hx' : ¬ NotANumber x)
    (hy' : ¬ NotANumber y) : ¬ NotANumber (x + y) := by
  rw [NotANumber, number_add]
  exact Binary.unpack_pack_ne_notANumber (Binary.add_ne_notANumber hx hy hx' hy')

theorem not_notANumber_sub (hx : ¬ NotANumber x) (hy : Scalar.isFinite y) :
    ¬ NotANumber (x - y) := by
  rw [sub_eq_add, NotANumber, number_add]
  rw [← isFinite_neg, isFinite_eq_number] at hy
  exact Binary.unpack_pack_ne_notANumber (Binary.add_ne_notANumber_of_finite hx hy)

/-- Not a zero, as the unpacked number has it. -/
theorem number_ne_zero (hx : ¬ Scalar.isZero x) (s : Sign) : number x ≠ .zero s :=
  fun h => hx (isZero_iff.mpr ⟨s, h⟩)

theorem not_notANumber_mul (hx : ¬ NotANumber x) (hy : Scalar.isFinite y)
    (hzero : ¬ Scalar.isZero y) : ¬ NotANumber (x * y) := by
  rw [NotANumber, number_mul]
  rw [isFinite_eq_number] at hy
  exact Binary.unpack_pack_ne_notANumber
    (Binary.mul_ne_notANumber hx hy (number_ne_zero hzero))

theorem not_notANumber_mul_of_not_finite (hx : ¬ NotANumber x) (hy : ¬ NotANumber y)
    (hfx : ¬ Scalar.isFinite x) (hfy : ¬ Scalar.isFinite y) : ¬ NotANumber (x * y) := by
  rw [NotANumber, number_mul]
  rw [isFinite_eq_number] at hfx hfy
  exact Binary.unpack_pack_ne_notANumber (Binary.mul_ne_notANumber_of_not_finite hx hy hfx hfy)

theorem not_notANumber_mul_self (hx : ¬ NotANumber x) : ¬ NotANumber (x * x) := by
  by_cases hf : Scalar.isFinite x
  · by_cases hz : Scalar.isZero x
    · exact not_notANumber_of_finite (isFinite_of_isZero (isZero_mul hz hf))
    · exact not_notANumber_mul hx hf hz
  · exact not_notANumber_mul_of_not_finite hx hx hf hf

/-- A cube that is not zero is a number, if its root is. -/
theorem not_notANumber_cube (hx : ¬ NotANumber x) (hzero : ¬ Scalar.isZero (x * x * x)) :
    ¬ NotANumber (x * x * x) := by
  by_cases hf : Scalar.isFinite x
  · exact not_notANumber_mul (not_notANumber_mul_self hx) hf fun hz =>
      hzero (isZero_mul (isZero_mul hz hf) hf)
  · exact not_notANumber_mul_of_not_finite (not_notANumber_mul_self hx) hx
      (fun h => hf (finite_of_mul h).1) hf

end RoundedScalar

/-! ## Quotients, roots and counts -/

namespace BinaryScalar

open RoundedScalar

variable {α : Type} [Scalar α] [BinaryScalar α] {x y : α}

theorem number_div (x y : α) :
    number (x / y) = unpack (RoundedScalar.spec α) (pack (RoundedScalar.spec α)
      (div (RoundedScalar.spec α) (number x) (number y))) := by
  rw [number, bits_div]
  rfl

theorem number_sqrt (x : α) :
    number (Scalar.sqrt x) = unpack (RoundedScalar.spec α) (pack (RoundedScalar.spec α)
      (sqrt (RoundedScalar.spec α) (number x))) := by
  rw [number, bits_sqrt]
  rfl

theorem nearest_div (hx : Scalar.isFinite x) (hy : Scalar.isFinite y)
    (hzero : ¬ Scalar.isZero y) : Nearest (toRat x / toRat y) (x / y) := by
  rw [isFinite_eq_number] at hx hy
  exact ⟨_, Binary.roundsTo_div hx hy (number_ne_zero hzero), number_div x y⟩

theorem finite_of_div (h : Scalar.isFinite (x / y)) : Scalar.isFinite x := by
  rw [isFinite_eq_number, number_div] at h
  rw [isFinite_eq_number]
  exact Binary.finite_of_div (Binary.finite_of_unpack_pack h)

theorem notBelow_div (hx : NotBelow x) (hy : NotBelow y) (hzero : ¬ Scalar.isZero y) :
    NotBelow (x / y) := by
  rw [NotBelow, number_div]
  exact (NotNegative.div (S := RoundedScalar.spec α) hx hy (number_ne_zero hzero)).unpack_pack

theorem notBelow_sqrt (hx : NotBelow x) : NotBelow (Scalar.sqrt x) := by
  rw [NotBelow, number_sqrt]
  exact (NotNegative.sqrt (S := RoundedScalar.spec α) hx).unpack_pack

theorem not_notANumber_div (hx : ¬ NotANumber x) (hy : Scalar.isFinite y)
    (hzero : ¬ Scalar.isZero y) : ¬ NotANumber (x / y) := by
  rw [NotANumber, number_div]
  rw [isFinite_eq_number] at hy
  exact Binary.unpack_pack_ne_notANumber
    (Binary.div_ne_notANumber hx hy (number_ne_zero hzero))

theorem not_notANumber_finite_div (hx : Scalar.isFinite x) (hy : ¬ NotANumber y)
    (hzero : ¬ Scalar.isZero y) : ¬ NotANumber (x / y) := by
  rw [NotANumber, number_div]
  rw [isFinite_eq_number] at hx
  exact Binary.unpack_pack_ne_notANumber
    (Binary.finite_div_ne_notANumber hx hy (number_ne_zero hzero))

theorem not_notANumber_sqrt (hx : NotBelow x) (hx' : ¬ NotANumber x) :
    ¬ NotANumber (Scalar.sqrt x) := by
  rw [NotANumber, number_sqrt]
  exact Binary.unpack_pack_ne_notANumber (Binary.sqrt_ne_notANumber hx hx')

/-! ## Counts -/

theorem nearest_ofCount (n : UInt64) : Nearest (n.toNat : ℚ) (Scalar.ofCount n : α) := by
  refine ⟨_, Binary.roundsTo_ofNat n.toNat, ?_⟩
  rw [number, bits_ofCount]

theorem two_pow_le_precision : (256 : ℚ) ≤ 2 ^ (RoundedScalar.spec α).mantissaBits :=
  calc (256 : ℚ) = 2 ^ 8 := by norm_num
    _ ≤ 2 ^ (RoundedScalar.spec α).mantissaBits := pow_le_pow_right₀ (by norm_num) precise

theorem two_pow_lt_limit : (2 : ℚ) ^ 64 < limit (RoundedScalar.spec α) := by
  have hreach : 64 < 2 ^ ((RoundedScalar.spec α).exponentBits - 1) :=
    calc 64 < 2 ^ 7 := by norm_num
      _ ≤ 2 ^ ((RoundedScalar.spec α).exponentBits - 1) :=
        Nat.pow_le_pow_right (by decide) (by have := reach (α := α); omega)
  exact pow_lt_pow_right₀ (by norm_num) hreach

theorem finite_ofCount (n : UInt64) : Scalar.isFinite (Scalar.ofCount n : α) := by
  have hb : Representable (RoundedScalar.spec α) ((2 : ℚ) ^ (64 : ℤ)) :=
    .two_zpow (minExponent_nonpos.trans (by norm_num))
  have hn : (n.toNat : ℚ) ≤ 2 ^ 64 := by exact_mod_cast n.toNat_lt.le
  refine (nearest_ofCount n).finite hb two_pow_lt_limit ?_
  rwa [Nat.abs_cast]

/-- Counts that fit the precision are not rounded. -/
theorem toRat_ofCount {n : UInt64} (hn : n.toNat ≤ 2 ^ (RoundedScalar.spec α).mantissaBits) :
    toRat (Scalar.ofCount n : α) = n.toNat :=
  ((nearest_ofCount n).rounds (finite_ofCount n)).eq (representable_natCast α hn)

theorem toRat_one : toRat (1 : α) = 1 := by
  rw [one_eq, toRat_ofCount]
  · rfl
  · exact Nat.one_le_two_pow

theorem isFinite_one : Scalar.isFinite (1 : α) := by
  rw [one_eq]
  exact finite_ofCount 1

/-- What is a number other than zero is finite. -/
theorem finite_of_toRat (h : toRat x ≠ 0) : Scalar.isFinite x := by
  rw [isFinite_eq_number]
  rw [toRat] at h
  cases hn : number x with
  | notANumber => rw [hn] at h; exact absurd rfl h
  | infinity s => rw [hn] at h; exact absurd rfl h
  | _ => rfl

/-- The root of a finite scalar that is not below zero is finite. -/
theorem finite_sqrt (hx : Scalar.isFinite x) (h0 : NotBelow x) :
    Scalar.isFinite (Scalar.sqrt x) := by
  rw [isFinite_eq_number] at hx
  cases hn : number x with
  | notANumber => rw [hn] at hx; cases hx
  | infinity s => rw [hn] at hx; cases hx
  | zero s =>
    rw [isFinite_eq_number, number_sqrt, hn]
    show (unpack _ (pack _ (.zero s))).isFinite
    rw [pack, unpack_packedZero]
    rfl
  | finite s m e hm =>
    have hs : s = .positive := by rwa [NotBelow, hn] at h0
    subst hs
    obtain ⟨q, hq0, hq2, hr⟩ := Binary.exists_roundsTo_sqrt (S := RoundedScalar.spec α) hm e
    have hnear : Nearest q (Scalar.sqrt x) := ⟨_, hr, by rw [number_sqrt, hn]⟩
    rw [← hn] at hq2
    change q ^ 2 ≤ toRat x at hq2
    -- the root lies between zero and the larger of one and the number itself
    rcases le_total q 1 with h1 | h1
    · exact (hnear.between (x := 0) (y := 1) (by rwa [toRat_zero]) (by rwa [toRat_one])).1
    · exact (hnear.between (x := 0) (y := x) (by rwa [toRat_zero])
        ((le_self_pow₀ h1 two_ne_zero).trans hq2)).1

end BinaryScalar

/-! ## Amounts -/

section

open RoundedScalar BinaryScalar

variable {α : Type} [Scalar α] [BinaryScalar α] {x y : α}

/-- A number, perhaps infinite, that is not below zero. -/
structure IsAmount (x : α) : Prop where
  notBelow : NotBelow x
  defined : ¬ NotANumber x

theorem isAmount_of_finite (hf : Scalar.isFinite x) (h0 : 0 ≤ toRat x) : IsAmount x :=
  ⟨(notBelow_iff hf).mpr h0, not_notANumber_of_finite hf⟩

theorem isAmount_iff_number : IsAmount x ↔ NotNegative (number x) ∧ number x ≠ .notANumber :=
  ⟨fun h => ⟨h.notBelow, h.defined⟩, fun h => ⟨h.1, h.2⟩⟩

/-- Only amounts compare with zero from above. -/
theorem isAmount_of_nonneg (h : 0 ≤ x) : IsAmount x := by
  rw [le_iff] at h
  change (number (0 : α)).le (number x) at h
  rw [number_zero] at h
  rw [isAmount_iff_number]
  cases hn : number x with
  | notANumber => rw [hn] at h; cases h
  | infinity s => cases s <;> rw [hn] at h <;> first | exact ⟨rfl, nofun⟩ | cases h
  | zero s => exact ⟨trivial, nofun⟩
  | finite s m e hm => cases s <;> rw [hn] at h <;> first | exact ⟨rfl, nofun⟩ | cases h

theorem isAmount_zero : IsAmount (0 : α) :=
  isAmount_of_finite (isFinite_of_isZero isZero_zero) toRat_zero.ge

namespace IsAmount

theorem toRat_nonneg (hx : IsAmount x) (hf : Scalar.isFinite x) : 0 ≤ toRat x :=
  (notBelow_iff hf).mp hx.notBelow

theorem add (hx : IsAmount x) (hy : IsAmount y) : IsAmount (x + y) :=
  ⟨hx.notBelow.add hy.notBelow, not_notANumber_add hx.notBelow hy.notBelow hx.defined hy.defined⟩

theorem mul (hx : IsAmount x) (hy : IsAmount y) (hf : Scalar.isFinite y)
    (hzero : ¬ Scalar.isZero y) : IsAmount (x * y) :=
  ⟨hx.notBelow.mul hy.notBelow, not_notANumber_mul hx.defined hf hzero⟩

theorem div (hx : IsAmount x) (hy : IsAmount y) (hf : Scalar.isFinite x ∨ Scalar.isFinite y)
    (hzero : ¬ Scalar.isZero y) : IsAmount (x / y) :=
  ⟨notBelow_div hx.notBelow hy.notBelow hzero, hf.elim
    (fun hf => not_notANumber_finite_div hf hy.defined hzero)
    (fun hf => not_notANumber_div hx.defined hf hzero)⟩

theorem sqrt (hx : IsAmount x) : IsAmount (Scalar.sqrt x) :=
  ⟨notBelow_sqrt hx.notBelow, not_notANumber_sqrt hx.notBelow hx.defined⟩

theorem mul_of_finite (hx : IsAmount x) (hy : IsAmount y) (hfx : Scalar.isFinite x)
    (hfy : Scalar.isFinite y) : IsAmount (x * y) :=
  ⟨hx.notBelow.mul hy.notBelow, (nearest_mul hfx hfy).defined⟩

/-- An amount that is not finite is infinite. -/
theorem number_eq (hx : IsAmount x) (hf : ¬ Scalar.isFinite x) :
    number x = .infinity .positive := by
  obtain ⟨hnot, hdef⟩ := hx
  rw [isFinite_eq_number] at hf
  rw [NotBelow] at hnot
  rw [NotANumber] at hdef
  cases hn : number x with
  | notANumber => exact absurd hn hdef
  | infinity s => rw [hn] at hnot; rw [show s = .positive from hnot]
  | zero s => rw [hn] at hf; exact absurd rfl hf
  | finite s m e hm => rw [hn] at hf; exact absurd rfl hf

/-- **Adding an amount leads nowhere below**, taking one away nowhere above. -/
theorem le_add (hx : IsAmount x) (hy : Scalar.isFinite y) : y ≤ y + x := by
  by_cases hf : Scalar.isFinite x
  · exact (nearest_add hy hf).ge hy (by linarith [hx.toRat_nonneg hf])
  · refine ge_of_number_eq_infinity ?_ hy
    rw [isFinite_eq_number] at hy
    rw [number_add, hx.number_eq hf, Binary.add_infinity hy, pack, Binary.unpack_packedInfinity]

@[inherit_doc le_add]
theorem sub_le (hx : IsAmount x) (hy : Scalar.isFinite y) : y - x ≤ y := by
  by_cases hf : Scalar.isFinite x
  · exact (nearest_sub hy hf).le hy (by linarith [hx.toRat_nonneg hf])
  · refine le_of_number_eq_infinity ?_ hy
    rw [isFinite_eq_number] at hy
    rw [sub_eq_add, number_add, number_neg, hx.number_eq hf, neg, Binary.add_infinity hy, pack,
      Binary.unpack_packedInfinity]
    rfl

end IsAmount

end

end RunningStats
