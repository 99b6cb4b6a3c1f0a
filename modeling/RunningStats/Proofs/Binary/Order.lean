import Mathlib.Data.Int.Order.Basic
import Mathlib.Data.Prod.Lex
import Mathlib.Order.Compare
import RunningStats.Binary.Native
import RunningStats.Proofs.Order

/-!
# Floating point numbers are ordered scalars

An unpacked finite float has a `rank`: its sign, then its exponent, then its significand, the
last two reversed below zero. The two zeros have one rank. Comparison of finite floats is the
comparison of their ranks in the lexicographic order (`compare_rank`), so both native formats are
`OrderedScalar`s. Nothing here depends on significands being normalized: of numbers that are not,
the order may be a wrong one, but it is still a line.
-/

namespace RunningStats.Binary

open Float.Model (UnpackedFloat)

/-- The place of a finite float in the order of numbers. -/
def rank : UnpackedFloat → ℤ ×ₗ ℤ ×ₗ ℤ
  | .finite .positive m e _ => toLex (1, toLex (e, (m : ℤ)))
  | .finite .negative m e _ => toLex (-1, toLex (-e, -(m : ℤ)))
  | _ => toLex (0, toLex (0, 0))

theorem compares_lex {x x' y y' : ℤ} (s : ℤ) {o p : Ordering} (ho : o.Compares x x')
    (hp : p.Compares y y') :
    (o.then p).Compares (toLex (s, toLex (x, y))) (toLex (s, toLex (x', y'))) := by
  cases o <;> cases p <;> simp_all [Prod.Lex.toLex_lt_toLex]

theorem compares_neg {x y : ℤ} {o : Ordering} (h : o.Compares x y) : o.swap.Compares (-x) (-y) := by
  cases o <;> simpa using h

theorem compares_natCast {m n : ℕ} {o : Ordering} (h : o.Compares m n) :
    o.Compares (m : ℤ) (n : ℤ) := by
  cases o <;> simp_all

/-- Where the signs differ, nothing else is looked at. -/
theorem lt_of_sign {s s' : ℤ} (h : s < s') (p q : ℤ ×ₗ ℤ) : toLex (s, p) < toLex (s', q) :=
  Prod.Lex.toLex_lt_toLex.mpr (.inl h)

/-- **Finite floats compare like their ranks.** -/
theorem compare_rank {a b : UnpackedFloat} (ha : a.isFinite) (hb : b.isFinite) :
    ∃ o, a.compare b = some o ∧ o.Compares (rank a) (rank b) := by
  cases a with
  | infinity s => cases ha
  | notANumber => cases ha
  | zero s =>
    cases b with
    | infinity s' => cases hb
    | notANumber => cases hb
    | zero s' => exact ⟨.eq, rfl, rfl⟩
    | finite s' m' e' hm' =>
      cases s' with
      | negative => exact ⟨.gt, rfl, lt_of_sign (by decide) _ _⟩
      | positive => exact ⟨.lt, rfl, lt_of_sign (by decide) _ _⟩
  | finite s m e hm =>
    cases b with
    | infinity s' => cases hb
    | notANumber => cases hb
    | zero s' =>
      cases s with
      | negative => exact ⟨.lt, rfl, lt_of_sign (by decide) _ _⟩
      | positive => exact ⟨.gt, rfl, lt_of_sign (by decide) _ _⟩
    | finite s' m' e' hm' =>
      have he : (compare e e').Compares e e' := (compare_iff e e').mp rfl
      have hm : (compare m m').Compares (m : ℤ) m' :=
        compares_natCast ((compare_iff m m').mp rfl)
      cases s <;> cases s'
      · refine ⟨_, rfl, ?_⟩
        rw [Ordering.swap_then]
        exact compares_lex (-1) (compares_neg he) (compares_neg hm)
      · exact ⟨.lt, rfl, lt_of_sign (by decide) _ _⟩
      · exact ⟨.gt, rfl, lt_of_sign (by decide) _ _⟩
      · exact ⟨_, rfl, compares_lex 1 he hm⟩

theorem le_iff_rank {a b : UnpackedFloat} (ha : a.isFinite) (hb : b.isFinite) :
    a.le b ↔ rank a ≤ rank b := by
  obtain ⟨o, ho, hr⟩ := compare_rank ha hb
  rw [UnpackedFloat.le, ho, ← hr.ne_gt]
  cases o <;> simp

theorem lt_iff_rank {a b : UnpackedFloat} (ha : a.isFinite) (hb : b.isFinite) :
    a.lt b ↔ rank a < rank b := by
  obtain ⟨o, ho, hr⟩ := compare_rank ha hb
  rw [UnpackedFloat.lt, ho, ← hr.eq_lt]
  simp

theorem beq_self {a : UnpackedFloat} (ha : a.isFinite) : a.beq a := by
  obtain ⟨o, ho, hr⟩ := compare_rank ha ha
  show (a.compare a == some .eq) = true
  rw [ho, hr.eq_eq.mpr rfl]
  rfl

/-- A scalar type that is compared through its unpacked values is ordered. -/
theorem ordered_of_unpack {α : Type} [Scalar α] (u : α → UnpackedFloat)
    (finite : ∀ x, Scalar.isFinite x = (u x).isFinite) (le : ∀ x y : α, x ≤ y ↔ (u x).le (u y))
    (lt : ∀ x y : α, x < y ↔ (u x).lt (u y)) (beq : ∀ x y : α, (x == y) = (u x).beq (u y)) :
    OrderedScalar α where
  defined {x} hx := by
    rw [finite] at hx
    rw [Scalar.undefined, beq, beq_self hx]
    rfl
  total {x y} hx hy := by
    rw [finite] at hx hy
    rw [le, le, le_iff_rank hx hy, le_iff_rank hy hx]
    exact le_total _ _
  trans {x y z} hx hy hz hxy hyz := by
    rw [finite] at hx hy hz
    rw [le, le_iff_rank hx hy] at hxy
    rw [le, le_iff_rank hy hz] at hyz
    rw [le, le_iff_rank hx hz]
    exact hxy.trans hyz
  not_lt {x y} hx hy := by
    rw [finite] at hx hy
    rw [lt, le, lt_iff_rank hx hy, le_iff_rank hy hx, not_lt]

instance : OrderedScalar Float :=
  ordered_of_unpack (fun x => x.toModel.unpack) (fun _ => rfl)
    (fun _ _ => decide_eq_true_iff) (fun _ _ => decide_eq_true_iff) (fun _ _ => rfl)

instance : OrderedScalar Float32 :=
  ordered_of_unpack (fun x => x.toModel.unpack) (fun _ => rfl)
    (fun _ _ => decide_eq_true_iff) (fun _ _ => decide_eq_true_iff) (fun _ _ => rfl)

end RunningStats.Binary
