import RunningStats.Proofs.Binary.Operations

/-!
# Signs and undefined results

What is left of the operations where a result may be too large for its format: which of them can
return no number at all, and whether a result may lie below zero.

* An infinite operand is passed on by sums and products, and an infinite dividend by quotients
  (`finite_of_add`, `finite_of_mul`, `finite_of_div`).
* From numbers that are not below zero come such numbers (`NotNegative.add`, `.mul`, `.div`,
  `.sqrt`, `.pack`), and the square of anything is one.
* No number at all comes of a sum only if an infinity meets another of the other sign, of a product
  if it meets a zero, of a quotient if two of a kind meet, and of a root below zero.
-/

namespace RunningStats.Binary

open Float.Model (UnpackedFloat)
open Float.Model.UnpackedFloat

variable {S : Float.Model.Format} {u v : UnpackedFloat}

/-! ## Finite results -/

theorem add_infinity (hu : u.isFinite) (s : Sign) : add S u (.infinity s) = .infinity s := by
  cases u <;> first | rfl | cases hu

/-- What is not finite passes through a sum. -/
theorem add_of_not_both_finite (h : ¬ (u.isFinite ∧ v.isFinite)) :
    (add S u v = u ∧ u.isFinite = false) ∨ (add S u v = v ∧ v.isFinite = false) ∨
      add S u v = .notANumber := by
  by_cases hu : u.isFinite
  · have hv : v.isFinite = false := Bool.eq_false_iff.mpr fun hv => h ⟨hu, hv⟩
    refine .inr ?_
    cases v with
    | notANumber => exact .inr add_notANumber
    | infinity s => exact .inl ⟨add_infinity hu s, rfl⟩
    | zero s => cases hv
    | finite s m e hm => cases hv
  · have hu : u.isFinite = false := Bool.eq_false_iff.mpr hu
    rcases add_of_not_finite (S := S) hu v with h | h
    · exact .inl ⟨h, hu⟩
    · exact .inr (.inr h)

theorem finite_of_add (h : (add S u v).isFinite) : u.isFinite ∧ v.isFinite := by
  by_contra hn
  rcases add_of_not_both_finite (S := S) hn with ⟨he, hf⟩ | ⟨he, hf⟩ | he <;> rw [he] at h
  · exact Bool.false_ne_true (hf.symm.trans h)
  · exact Bool.false_ne_true (hf.symm.trans h)
  · cases h

theorem finite_of_mul (h : (mul S u v).isFinite) : u.isFinite ∧ v.isFinite := by
  cases u <;> cases v <;> first | exact ⟨rfl, rfl⟩ | cases h

/-- What is not finite is not divided down to a finite number. -/
theorem finite_of_div (h : (div S u v).isFinite) : u.isFinite := by
  cases u with
  | notANumber => cases v <;> cases h
  | infinity s => cases v <;> cases h
  | _ => rfl

/-- Packing makes nothing finite. -/
theorem finite_of_unpack_pack (h : (unpack S (pack S u)).isFinite) : u.isFinite := by
  cases u with
  | notANumber => rw [pack, unpack_packedNaN] at h; cases h
  | infinity s => rw [pack, unpack_packedInfinity] at h; cases h
  | _ => rfl

/-! ## Results not below zero -/

/-- Not below zero, unless it is no number: a zero of either sign counts. -/
def NotNegative : UnpackedFloat → Prop
  | .infinity s => s = .positive
  | .finite s _ _ _ => s = .positive
  | _ => True

theorem notNegative_iff (hu : u.isFinite) : NotNegative u ↔ 0 ≤ value u := by
  cases u with
  | notANumber => cases hu
  | infinity s => cases hu
  | zero s => exact iff_of_true trivial (le_refl _)
  | finite s m e hm =>
    have hpos : (0 : ℚ) < m * 2 ^ e := mul_pos (by exact_mod_cast hm) (two_zpow_pos e)
    cases s with
    | positive => exact iff_of_true rfl (by simpa [value, unit] using hpos.le)
    | negative =>
      refine iff_of_false (fun h => by cases h) ?_
      simpa [value, unit] using hpos

theorem RoundsTo.notNegative {q : ℚ} (h : RoundsTo S q u) (hq : 0 ≤ q) : NotNegative u :=
  (notNegative_iff h.finite).mpr (h.rounds.nonneg hq)

namespace NotNegative

theorem add (hu : NotNegative u) (hv : NotNegative v) (hcu : Canonical S u)
    (hcv : Canonical S v) : NotNegative (UnpackedFloat.add S u v) := by
  by_cases h : u.isFinite ∧ v.isFinite
  · obtain ⟨hfu, hfv⟩ := h
    rw [notNegative_iff hfu] at hu
    rw [notNegative_iff hfv] at hv
    exact (roundsTo_add hfu hfv hcu hcv).notNegative (add_nonneg hu hv)
  · rcases add_of_not_both_finite (S := S) h with ⟨he, -⟩ | ⟨he, -⟩ | he <;> rw [he]
    · exact hu
    · exact hv
    · trivial

theorem mul (hS : S.minExponent ≤ 0) (hu : NotNegative u) (hv : NotNegative v)
    (hcu : Canonical S u) (hcv : Canonical S v) : NotNegative (UnpackedFloat.mul S u v) := by
  by_cases h : u.isFinite ∧ v.isFinite
  · obtain ⟨hfu, hfv⟩ := h
    rw [notNegative_iff hfu] at hu
    rw [notNegative_iff hfv] at hv
    exact (roundsTo_mul hS hfu hfv hcu hcv).notNegative (mul_nonneg hu hv)
  · cases u <;> cases v <;> first | trivial | exact absurd ⟨rfl, rfl⟩ h | (cases hu; cases hv; rfl)

theorem mul_self (hS : S.minExponent ≤ 0) (hcu : Canonical S u) :
    NotNegative (UnpackedFloat.mul S u u) := by
  cases u with
  | infinity s => cases s <;> rfl
  | finite s m e hm =>
    exact (roundsTo_mul hS (u := .finite s m e hm) rfl rfl hcu hcu).notNegative
      (mul_self_nonneg _)
  | _ => trivial

theorem div (hu : NotNegative u) (hv : NotNegative v) (hzero : ∀ s, v ≠ .zero s) :
    NotNegative (UnpackedFloat.div S u v) := by
  by_cases h : u.isFinite ∧ v.isFinite
  · obtain ⟨hfu, hfv⟩ := h
    rw [notNegative_iff hfu] at hu
    rw [notNegative_iff hfv] at hv
    exact (roundsTo_div hfu hfv hzero).notNegative (div_nonneg hu hv)
  · cases v with
    | zero s => exact absurd rfl (hzero s)
    | _ => cases u <;> first | trivial | exact absurd ⟨rfl, rfl⟩ h | (cases hu; cases hv; rfl)

theorem sqrt (hu : NotNegative u) : NotNegative (UnpackedFloat.sqrt S u) := by
  cases u with
  | infinity s => cases hu; rfl
  | finite s m e hm =>
    cases hu
    unfold UnpackedFloat.sqrt roundWithAccuracy
    dsimp only
    split
    · trivial
    · rfl
  | _ => trivial

theorem assemble_positive (e : BitVec S.exponentBits)
    (m : BitVec S.mantissaBitsWithoutImplicit) : NotNegative (assemble .positive e m) := by
  unfold assemble
  split
  · split
    · rfl
    · trivial
  · split
    · split
      · trivial
      · rfl
    · rfl

/-- Packing leaves on its side what is not below zero. -/
theorem unpack_pack (hu : NotNegative u) : NotNegative (unpack S (pack S u)) := by
  cases u with
  | notANumber => rw [pack, unpack_packedNaN]; trivial
  | infinity s => rwa [pack, unpack_packedInfinity]
  | zero s => rw [pack, unpack_packedZero]; trivial
  | finite s m e hm =>
    cases hu
    rw [pack]
    split
    · rw [unpack_packedInfinity]; rfl
    · split <;> rw [unpack_packComponents] <;> exact assemble_positive _ _

end NotNegative

/-! ## Undefined results -/

theorem ne_notANumber_of_finite (h : u.isFinite) : u ≠ .notANumber := by
  rintro rfl
  cases h

theorem assemble_ne_notANumber (s : Sign) {e : BitVec S.exponentBits} (he : e ≠ -1#_)
    (m : BitVec S.mantissaBitsWithoutImplicit) : assemble s e m ≠ .notANumber := by
  unfold assemble
  rw [if_neg he]
  split
  · split <;> exact fun h => by cases h
  · exact fun h => by cases h

/-- **A number is packed as one.** -/
theorem unpack_pack_ne_notANumber (hu : u ≠ .notANumber) :
    unpack S (pack S u) ≠ .notANumber := by
  have htop (n : ℕ) (hn : n + 1 < 2 ^ S.exponentBits) : BitVec.ofNat S.exponentBits n ≠ -1#_ :=
    fun h => by
      have h := congrArg BitVec.toNat h
      rw [BitVec.toNat_ofNat, Nat.mod_eq_of_lt (by omega), BitVec.neg_one_eq_allOnes,
        BitVec.toNat_allOnes] at h
      omega
  cases u with
  | notANumber => exact absurd rfl hu
  | infinity s => rw [pack, unpack_packedInfinity]; exact fun h => by cases h
  | zero s => rw [pack, unpack_packedZero]; exact fun h => by cases h
  | finite s m e hm =>
    have htwo : 2 ≤ 2 ^ S.exponentBits :=
      Nat.pow_le_pow_right (show 0 < 2 by decide) (show 1 ≤ S.exponentBits from S.he)
    rw [pack]
    split
    · rw [unpack_packedInfinity]; exact fun h => by cases h
    · split <;> rw [unpack_packComponents] <;>
        exact assemble_ne_notANumber s (htop _ (by omega)) _

/-- Infinities of one sign do not cancel. -/
theorem add_ne_notANumber (hu : NotNegative u) (hv : NotNegative v) (hu' : u ≠ .notANumber)
    (hv' : v ≠ .notANumber) : add S u v ≠ .notANumber := by
  cases u with
  | notANumber => exact absurd rfl hu'
  | infinity s =>
    cases v with
    | notANumber => exact absurd rfl hv'
    | infinity s' => cases hu; cases hv; exact fun h => by cases h
    | _ => exact fun h => by cases h
  | zero s =>
    cases v with
    | notANumber => exact absurd rfl hv'
    | zero s' => cases s <;> cases s' <;> exact fun h => by cases h
    | _ => exact fun h => by cases h
  | finite s m e hm =>
    cases v with
    | notANumber => exact absurd rfl hv'
    | finite s' m' e' hm' => exact ne_notANumber_of_finite (roundsTo_normalize _ _ _).finite
    | _ => exact fun h => by cases h

theorem add_ne_notANumber_of_finite (hu : u ≠ .notANumber) (hv : v.isFinite) :
    add S u v ≠ .notANumber := by
  cases v with
  | notANumber => cases hv
  | infinity s => cases hv
  | zero s' =>
    cases u with
    | notANumber => exact absurd rfl hu
    | zero s => cases s <;> cases s' <;> exact fun h => by cases h
    | _ => exact fun h => by cases h
  | finite s' m' e' hm' =>
    cases u with
    | notANumber => exact absurd rfl hu
    | finite s m e hm => exact ne_notANumber_of_finite (roundsTo_normalize _ _ _).finite
    | _ => exact fun h => by cases h

theorem mul_ne_notANumber (hu : u ≠ .notANumber) (hv : v.isFinite) (hzero : ∀ s, v ≠ .zero s) :
    mul S u v ≠ .notANumber := by
  cases v with
  | notANumber => cases hv
  | infinity s => cases hv
  | zero s => exact absurd rfl (hzero s)
  | finite s' m' e' hm' =>
    cases u with
    | notANumber => exact absurd rfl hu
    | finite s m e hm =>
      unfold mul roundWithAccuracy
      dsimp only
      split <;> exact fun h => by cases h
    | _ => exact fun h => by cases h

theorem mul_ne_notANumber_of_not_finite (hu : u ≠ .notANumber) (hv : v ≠ .notANumber)
    (hfu : ¬ u.isFinite) (hfv : ¬ v.isFinite) : mul S u v ≠ .notANumber := by
  cases u with
  | notANumber => exact absurd rfl hu
  | infinity s =>
    cases v with
    | notANumber => exact absurd rfl hv
    | infinity s' => exact fun h => by cases h
    | _ => exact absurd rfl hfv
  | _ => exact absurd rfl hfu

theorem div_ne_notANumber (hu : u ≠ .notANumber) (hv : v.isFinite) (hzero : ∀ s, v ≠ .zero s) :
    div S u v ≠ .notANumber := by
  cases v with
  | notANumber => cases hv
  | infinity s => cases hv
  | zero s => exact absurd rfl (hzero s)
  | finite s' m' e' hm' =>
    cases u with
    | notANumber => exact absurd rfl hu
    | finite s m e hm =>
      exact ne_notANumber_of_finite (roundsTo_div (S := S) (u := .finite s m e hm)
        (v := .finite s' m' e' hm') rfl rfl hzero).finite
    | _ => exact fun h => by cases h

/-- A finite dividend never meets its own kind. -/
theorem finite_div_ne_notANumber (hu : u.isFinite) (hv : v ≠ .notANumber)
    (hzero : ∀ s, v ≠ .zero s) : div S u v ≠ .notANumber := by
  by_cases hf : v.isFinite
  · exact div_ne_notANumber (ne_notANumber_of_finite hu) hf hzero
  · cases v with
    | notANumber => exact absurd rfl hv
    | infinity s => cases u <;> first | (cases hu; done) | exact fun h => by cases h
    | _ => exact absurd rfl hf

theorem sqrt_ne_notANumber (hu : NotNegative u) (hu' : u ≠ .notANumber) :
    sqrt S u ≠ .notANumber := by
  cases u with
  | notANumber => exact absurd rfl hu'
  | infinity s => cases hu; exact fun h => by cases h
  | zero s => exact fun h => by cases h
  | finite s m e hm =>
    cases hu
    unfold sqrt roundWithAccuracy
    dsimp only
    split <;> exact fun h => by cases h

end RunningStats.Binary
