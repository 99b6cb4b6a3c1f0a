import RunningStats.Scalar

/-!
# Finite values are ordered in a line

`OrderedScalar` is what exact and floating point numbers have in common: a finite value equals
itself, and any two of them compare. An infinite value or one that differs from itself may
compare as it likes. On finite values `least` and `greatest` are the extrema of that order, each
one of its two operands (`picks_least`, `picks_greatest`); operands that are equal without being
the same, such as zeros of both signs, are not told apart.
-/

namespace RunningStats

/-- The finite values of a scalar type equal themselves and are ordered in a line. -/
class OrderedScalar (α : Type) [Scalar α] : Prop where
  defined : ∀ {x : α}, Scalar.isFinite x → Scalar.undefined x = false
  total : ∀ {x y : α}, Scalar.isFinite x → Scalar.isFinite y → x ≤ y ∨ y ≤ x
  trans : ∀ {x y z : α}, Scalar.isFinite x → Scalar.isFinite y → Scalar.isFinite z →
    x ≤ y → y ≤ z → x ≤ z
  not_lt : ∀ {x y : α}, Scalar.isFinite x → Scalar.isFinite y → (¬ x < y ↔ y ≤ x)

namespace OrderedScalar

variable {α : Type} [Scalar α]

/-- `f` picks, of two finite values, one that is related to both. -/
structure Picks (r : α → α → Prop) (f : α → α → α) : Prop where
  refl : ∀ {x}, Scalar.isFinite x → r x x
  trans : ∀ {x y z}, Scalar.isFinite x → Scalar.isFinite y → Scalar.isFinite z →
    r x y → r y z → r x z
  either : ∀ {x y}, Scalar.isFinite x → Scalar.isFinite y → f x y = x ∨ f x y = y
  left : ∀ {x y}, Scalar.isFinite x → Scalar.isFinite y → r (f x y) x
  right : ∀ {x y}, Scalar.isFinite x → Scalar.isFinite y → r (f x y) y

/-- A test that says which of two values is related to the other picks it. -/
theorem Picks.of_test {r : α → α → Prop} {f : α → α → α}
    (hrefl : ∀ {x}, Scalar.isFinite x → r x x)
    (htrans : ∀ {x y z}, Scalar.isFinite x → Scalar.isFinite y → Scalar.isFinite z →
      r x y → r y z → r x z)
    (test : α → α → Prop) [∀ x y, Decidable (test x y)]
    (hf : ∀ {x y}, Scalar.isFinite x → Scalar.isFinite y → f x y = if test x y then y else x)
    (hpos : ∀ {x y}, Scalar.isFinite x → Scalar.isFinite y → test x y → r y x)
    (hneg : ∀ {x y}, Scalar.isFinite x → Scalar.isFinite y → ¬ test x y → r x y) :
    Picks r f where
  refl := hrefl
  trans := htrans
  either {x y} hx hy := by
    rw [hf hx hy]
    by_cases h : test x y
    · exact .inr (if_pos h)
    · exact .inl (if_neg h)
  left {x y} hx hy := by
    rw [hf hx hy]
    by_cases h : test x y
    · rw [if_pos h]
      exact hpos hx hy h
    · rw [if_neg h]
      exact hrefl hx
  right {x y} hx hy := by
    rw [hf hx hy]
    by_cases h : test x y
    · rw [if_pos h]
      exact hrefl hy
    · rw [if_neg h]
      exact hneg hx hy h

variable [OrderedScalar α] {x y : α}

theorem refl (hx : Scalar.isFinite x) : x ≤ x := (total hx hx).elim id id

theorem le_of_lt (hx : Scalar.isFinite x) (hy : Scalar.isFinite y) (h : x < y) : x ≤ y := by
  rcases total hx hy with hxy | hyx
  · exact hxy
  · exact absurd h ((not_lt hx hy).mpr hyx)

theorem least_eq (hx : Scalar.isFinite x) (hy : Scalar.isFinite y) :
    Scalar.least x y = if y < x then y else x := by
  simp [Scalar.least, defined hx, defined hy]

theorem greatest_eq (hx : Scalar.isFinite x) (hy : Scalar.isFinite y) :
    Scalar.greatest x y = if x < y then y else x := by
  simp [Scalar.greatest, defined hx, defined hy]

theorem picks_least : Picks (fun x y : α => x ≤ y) Scalar.least :=
  .of_test refl trans (fun x y => y < x) least_eq (fun hx hy h => le_of_lt hy hx h)
    fun hx hy h => (not_lt hy hx).mp h

theorem picks_greatest : Picks (fun x y : α => y ≤ x) Scalar.greatest :=
  .of_test refl (fun hx hy hz hxy hyz => trans hz hy hx hyz hxy) (fun x y => x < y) greatest_eq
    (fun hx hy h => le_of_lt hx hy h) fun hx hy h => (not_lt hx hy).mp h

end OrderedScalar

end RunningStats
