import Mathlib

/-!
# The fields of a binary float

The bit pattern of a float is a sign, an exponent and a mantissa, and `assemble` says what the
three stand for; unpacking a pattern is reading its fields off (`unpack_eq_assemble`). What unpacks
from a pattern, or its negation, survives being packed (`unpack_pack_neg`), and of all that fits a
format only a zero is packed as one (`eq_zero_of_unpack_pack`).
-/

namespace RunningStats.Binary

open Float.Model (UnpackedFloat)
open Float.Model.UnpackedFloat

variable {S : Float.Model.Format}

/-- The integer that the exponent field exceeds the exponent by. -/
def exponentShift (S : Float.Model.Format) : ℤ := S.exponentBias + S.mantissaBitsWithoutImplicit

theorem minExponent_eq (S : Float.Model.Format) : S.minExponent = 1 - exponentShift S := by
  have hpos : 0 < 2 ^ (S.exponentBits - 1) := Nat.two_pow_pos _
  have hbias : S.exponentBias + 1 = 2 ^ (S.exponentBits - 1) := by
    unfold Float.Model.Format.exponentBias
    omega
  have hbias' : ((S.exponentBias + 1 : ℕ) : ℤ) = 2 ^ (S.exponentBits - 1) := by
    rw [hbias]
    push_cast
    rfl
  unfold Float.Model.Format.minExponent Float.Model.Format.mantissaBits exponentShift
  push_cast at hbias' ⊢
  omega

/-- What a sign, an exponent field and a mantissa field stand for. -/
def assemble (s : Sign) (e : BitVec S.exponentBits) (m : BitVec S.mantissaBitsWithoutImplicit) :
    UnpackedFloat :=
  if e = -1#_ then
    if m = 0#_ then .infinity s else .notANumber
  else if e = 0#_ then
    if h : m = 0#_ then .zero s
    else .finite s m.toNat S.minExponent (by simpa [BitVec.toNat_pos, BitVec.pos_iff_ne_zero])
  else .finite s (2 ^ S.mantissaBitsWithoutImplicit + m.toNat) (e.toNat - exponentShift S)
    (Nat.add_pos_left (Nat.two_pow_pos _) _)

/-! ## Unpacking -/

theorem toNat_implicit {w : ℕ} (m : BitVec w) : (1#1 ++ m).toNat = 2 ^ w + m.toNat := by
  rw [BitVec.toNat_append, ← Nat.shiftLeft_add_eq_or_of_lt m.isLt]
  simp [Nat.shiftLeft_eq]

theorem unpack_eq_assemble (b : BitVec S.numBits) :
    unpack S b = assemble (Sign.ofBitVec (unpackSign b)) (unpackExponent b) (unpackMantissa b) := by
  unfold unpack assemble
  dsimp only
  split
  · rfl
  · split
    · rename_i h0
      by_cases h : unpackMantissa b = 0#_
      · rw [dif_pos h, dif_pos h]
      · rw [dif_neg h, dif_neg h]
        congr 1
        rw [h0, minExponent_eq, BitVec.toNat_zero, exponentShift]
        push_cast
        ring
    · congr 1
      exact toNat_implicit _

/-- Fields that are packed are what unpacking reads off. -/
theorem unpack_packComponents (s : Sign) (e : BitVec S.exponentBits)
    (m : BitVec S.mantissaBitsWithoutImplicit) :
    unpack S (packComponents S s e m) = assemble s e m := by
  rw [unpack_eq_assemble, unpackSign_packComponents, unpackExponent_packComponents,
    unpackMantissa_packComponents, Sign.ofBitVec_toBitVec]

theorem neg_assemble (s : Sign) (e : BitVec S.exponentBits)
    (m : BitVec S.mantissaBitsWithoutImplicit) : (assemble s e m).neg = assemble (-s) e m := by
  unfold assemble
  split
  · split <;> rfl
  · split
    · split <;> rfl
    · rfl

/-! ## Packing -/

/-- What unpacks from a pattern survives being packed, whichever pattern of no number it was. -/
theorem unpack_pack_unpack (hS : 1 < S.exponentBits) (b : BitVec S.numBits) :
    unpack S (pack S (unpack S b)) = unpack S b := by
  rw [pack_unpack b hS]
  split
  · rename_i h
    obtain ⟨he, hm⟩ : unpackExponent b = -1#_ ∧ unpackMantissa b ≠ 0#_ := of_decide_eq_true h
    rw [unpack_packedNaN, unpack_eq_assemble, assemble, if_pos he, if_neg hm]
  · rfl

/-- **Negation survives being packed.** -/
theorem unpack_pack_neg (hS : 1 < S.exponentBits) (b : BitVec S.numBits) :
    unpack S (pack S (unpack S b).neg) = (unpack S b).neg := by
  rw [unpack_eq_assemble b, neg_assemble, ← unpack_packComponents, unpack_pack_unpack hS]

/-- What a format can hold: the mantissa of a finite number fits, and its exponent is not too
small. -/
def Fits (S : Float.Model.Format) : UnpackedFloat → Prop
  | .finite _ m e _ => m < 2 ^ S.mantissaBits ∧ S.minExponent ≤ e
  | _ => True

theorem fits_assemble (s : Sign) (e : BitVec S.exponentBits)
    (m : BitVec S.mantissaBitsWithoutImplicit) : Fits S (assemble s e m) := by
  have hm := m.isLt
  have hpow : 2 ^ S.mantissaBits =
      2 ^ S.mantissaBitsWithoutImplicit + 2 ^ S.mantissaBitsWithoutImplicit := by
    rw [Float.Model.Format.mantissaBits, pow_add, pow_one, two_mul]
  unfold assemble
  by_cases he : e = -1#_
  · rw [if_pos he]
    split <;> trivial
  · rw [if_neg he]
    by_cases he0 : e = 0#_
    · rw [if_pos he0]
      split
      · trivial
      · exact ⟨by omega, le_refl _⟩
    · have hpos : e.toNat ≠ 0 := fun h0 => he0 (BitVec.toNat_inj.mp h0)
      rw [if_neg he0]
      refine ⟨by omega, ?_⟩
      rw [minExponent_eq]
      omega

theorem fits_unpack (b : BitVec S.numBits) : Fits S (unpack S b) := by
  rw [unpack_eq_assemble]
  exact fits_assemble _ _ _

/-! ## Zeros and infinities -/

theorem unpack_packedInfinity (S : Float.Model.Format) (s : Sign) :
    unpack S (packedInfinity S s) = .infinity s := by
  show unpack S (packComponents S s (-1#_) 0#_) = _
  rw [unpack_packComponents, assemble, if_pos rfl, if_pos rfl]

theorem assemble_ne_zero {e : BitVec S.exponentBits} {m : BitVec S.mantissaBitsWithoutImplicit}
    (h : e = 0#_ → m ≠ 0#_) (s s' : Sign) : assemble s e m ≠ .zero s' := by
  unfold assemble
  split
  · split <;> exact fun h => by cases h
  · split
    · rename_i he0
      rw [dif_neg (h he0)]
      exact fun h => by cases h
    · exact fun h => by cases h

/-- **Only a zero is packed as one.** -/
theorem eq_zero_of_unpack_pack {u : UnpackedFloat} (hu : Fits S u) {s : Sign}
    (h : unpack S (pack S u) = .zero s) : ∃ s', u = .zero s' := by
  cases u with
  | notANumber => rw [pack, unpack_packedNaN] at h; cases h
  | infinity s' => rw [pack, unpack_packedInfinity] at h; cases h
  | zero s' => exact ⟨s', rfl⟩
  | finite s' m e hm =>
    exfalso
    obtain ⟨hfit, he⟩ := hu
    rw [pack] at h
    split at h
    · -- too large for the format
      rw [unpack_packedInfinity] at h
      cases h
    · rename_i hlarge
      rw [minExponent_eq, exponentShift] at he
      split at h
      · rw [unpack_packComponents] at h
        refine assemble_ne_zero (fun h0 => ?_) s' s h
        have h0 := congrArg BitVec.toNat h0
        rw [BitVec.toNat_ofNat, Nat.mod_eq_of_lt (by omega), BitVec.toNat_zero] at h0
        omega
      · rename_i hlog
        rw [unpack_packComponents] at h
        refine assemble_ne_zero (fun _ hm0 => ?_) s' s h
        have hm0 := congrArg BitVec.toNat hm0
        have hlt : m < 2 ^ S.mantissaBitsWithoutImplicit := by
          have := (Nat.log2_lt hm.ne').mpr hfit
          rw [← Nat.log2_lt hm.ne']
          unfold Float.Model.Format.mantissaBits at this hlog
          omega
        rw [BitVec.toNat_ofNat, Nat.mod_eq_of_lt hlt, BitVec.toNat_zero] at hm0
        omega

end RunningStats.Binary
