import RunningStats.Proofs.Binary.Numbers
import RunningStats.Proofs.Decimal

/-!
# What a pattern stands for

The bit pattern of a native scalar is read in two ways: unpacked, by the arithmetic, and decoded to
a datum, by what prints and converts it. Both read the same number.

* `decode_eq`: decoding is unpacking, written as a datum, if both formats have the same widths.
* `Format.Holds.decode_nearest`: a number of a format is the nearest one to itself, so encoding and
  decoding lose nothing.
* **`Widening`**: a 32-bit scalar stands for the same number in the 64-bit format.
-/

namespace RunningStats

open Float.Model (UnpackedFloat)
open Float.Model.UnpackedFloat

namespace Binary

/-! ## Decoding is unpacking -/

/-- One format, described by its precision or by the bits that are stored. -/
structure Matches (f : Format) (S : Float.Model.Format) : Prop where
  precision : f.precision = S.mantissaBits
  exponentBits : f.exponentBits = S.exponentBits

/-- Whether a sign is a minus. -/
def isMinus : Sign → Bool
  | .negative => true
  | .positive => false

/-- An unpacked float as a datum. -/
def datumOf (S : Float.Model.Format) : UnpackedFloat → Datum
  | .notANumber => .nan
  | .infinity s => .infinite (isMinus s)
  | .zero s => .finite (isMinus s) 0 S.minExponent
  | .finite s m e _ => .finite (isMinus s) m e

section

variable {f : Format} {S : Float.Model.Format}

theorem Matches.fractionBits (h : Matches f S) :
    f.fractionBits = S.mantissaBitsWithoutImplicit := by
  rw [Format.fractionBits, h.precision, Float.Model.Format.mantissaBits, Nat.add_sub_cancel_left]

theorem Matches.minExponent (h : Matches f S) : f.minExponent = S.minExponent := by
  rw [Format.minExponent, h.precision, h.exponentBits]
  rfl

theorem toNat_unpackMantissa (b : BitVec S.numBits) :
    (unpackMantissa b).toNat = b.toNat % 2 ^ S.mantissaBitsWithoutImplicit := by
  have hm := S.hm
  rw [unpackMantissa, BitVec.toNat_cast, BitVec.extractLsb_toNat, Nat.shiftRight_zero]
  congr 2
  omega

theorem toNat_unpackExponent (b : BitVec S.numBits) :
    (unpackExponent b).toNat =
      b.toNat / 2 ^ S.mantissaBitsWithoutImplicit % 2 ^ S.exponentBits := by
  have he := S.he
  rw [unpackExponent, BitVec.toNat_cast, BitVec.extractLsb_toNat, Nat.shiftRight_eq_div_pow]
  congr 2
  omega

theorem toNat_unpackSign (b : BitVec S.numBits) :
    (unpackSign b).toNat = b.toNat / 2 ^ (S.mantissaBitsWithoutImplicit + S.exponentBits) % 2 := by
  rw [unpackSign, BitVec.toNat_cast, BitVec.extractLsb_toNat, Nat.shiftRight_eq_div_pow]
  simp

theorem isMinus_ofBitVec (s : BitVec 1) : isMinus (Sign.ofBitVec s) = (s.toNat == 1) := by
  revert s
  decide

/-- **A pattern decodes to what it unpacks to.** -/
theorem decode_eq (h : Matches f S) (b : BitVec S.numBits) :
    f.decode b.toNat = datumOf S (unpack S b) := by
  have hones : ∀ e : BitVec S.exponentBits, e = -1#_ ↔ e.toNat = 2 ^ S.exponentBits - 1 := by
    intro e
    rw [← BitVec.toNat_inj, BitVec.neg_one_eq_allOnes, BitVec.toNat_allOnes]
  have hzero : ∀ {w : ℕ} (v : BitVec w), v = 0#_ ↔ v.toNat = 0 := by
    intro w v
    rw [← BitVec.toNat_inj, BitVec.toNat_zero]
  rw [unpack_eq_assemble, assemble, Format.decode, Format.signBit, h.fractionBits, h.exponentBits,
    h.minExponent, ← toNat_unpackMantissa, ← toNat_unpackExponent, ← toNat_unpackSign,
    ← isMinus_ofBitVec]
  by_cases htop : unpackExponent b = -1#_
  · rw [if_pos ((hones _).mp htop), if_pos htop]
    by_cases hm : unpackMantissa b = 0#_
    · rw [if_pos ((hzero _).mp hm), if_pos hm]
      rfl
    · rw [if_neg (mt (hzero _).mpr hm), if_neg hm]
      rfl
  · rw [if_neg (mt (hones _).mpr htop), if_neg htop]
    by_cases he : unpackExponent b = 0#_
    · rw [if_pos ((hzero _).mp he), if_pos he]
      by_cases hm : unpackMantissa b = 0#_
      · rw [dif_pos hm, (hzero _).mp hm]
        rfl
      · rw [dif_neg hm]
        rfl
    · rw [if_neg (mt (hzero _).mpr he), if_neg he, minExponent_eq]
      show Datum.finite _ _ _ = Datum.finite _ _ _
      congr 1
      ring

/-- The number that a datum stands for. -/
def Datum.value : Datum → ℚ
  | .finite negative m e => (if negative then -1 else 1) * (m * 2 ^ e)
  | _ => 0

/-- Whether a datum is a number. -/
def Datum.isFinite : Datum → Bool
  | .finite .. => true
  | _ => false

theorem value_datumOf (u : UnpackedFloat) : (datumOf S u).value = Binary.value u := by
  cases u with
  | notANumber => rfl
  | infinity s => rfl
  | zero s => simp [datumOf, Datum.value, Binary.value]
  | finite s m e hm => cases s <;> rfl

theorem isFinite_datumOf (u : UnpackedFloat) : (datumOf S u).isFinite = u.isFinite := by
  cases u <;> rfl

end

/-! ## Encoding the numbers of a format -/

section

variable {f : Format} {m : ℕ} {e : ℤ} {num den : ℕ}

theorem log_eq {q : ℚ} {k : ℤ} (hlow : 2 ^ k ≤ q) (hhigh : q < 2 ^ (k + 1)) : Int.log 2 q = k := by
  have hq : 0 < q := (two_zpow_pos k).trans_le hlow
  have h1 : k ≤ Int.log 2 q := (Int.zpow_le_iff_le_log (by decide) hq).mp (by exact_mod_cast hlow)
  have h2 : Int.log 2 q < k + 1 :=
    (Int.lt_zpow_iff_log_lt (by decide) hq).mp (by exact_mod_cast hhigh)
  omega

theorem scale2_pos (hd : 0 < den) (num : ℕ) (k : ℤ) : 0 < (scale2 num den k).2 :=
  Nat.mul_pos hd (Nat.two_pow_pos _)

theorem scale2_eq (num den : ℕ) (k : ℤ) :
    ((scale2 num den k).1 : ℚ) / (scale2 num den k).2 = num / den * 2 ^ k := by
  obtain ⟨n, rfl | rfl⟩ := k.eq_nat_or_neg
  · simp [scale2]
    ring
  · simp [scale2]
    ring

/-- **The unit of the nearest number**, from the power of two that the ratio reaches. -/
theorem Format.unitExponent_eq (f : Format) (hn : 0 < num) (hd : 0 < den) :
    f.unitExponent num den =
      max f.minExponent (Int.log 2 ((num : ℚ) / den) - f.fractionBits) := by
  set k : ℤ := num.log2 - den.log2 with hk
  have hdq : (0 : ℚ) < den := by exact_mod_cast hd
  have hn1 : (2 : ℚ) ^ num.log2 ≤ num := by exact_mod_cast Nat.log2_self_le hn.ne'
  have hn2 : (num : ℚ) < 2 ^ (num.log2 + 1) := by exact_mod_cast Nat.lt_log2_self
  have hd1 : (2 : ℚ) ^ den.log2 ≤ den := by exact_mod_cast Nat.log2_self_le hd.ne'
  have hd2 : (den : ℚ) < 2 ^ (den.log2 + 1) := by exact_mod_cast Nat.lt_log2_self
  have hlow : (2 : ℚ) ^ (k - 1) ≤ num / den := by
    rw [le_div_iff₀ hdq]
    calc (2 : ℚ) ^ (k - 1) * den ≤ 2 ^ (k - 1) * 2 ^ ((den.log2 : ℤ) + 1) := by
          refine mul_le_mul_of_nonneg_left ?_ (two_zpow_pos _).le
          exact_mod_cast hd2.le
      _ = 2 ^ num.log2 := by
          rw [← two_zpow_add, hk, ← zpow_natCast]
          congr 1
          ring
      _ ≤ num := hn1
  have hhigh : (num : ℚ) / den < 2 ^ (k + 1) := by
    rw [div_lt_iff₀ hdq]
    calc (num : ℚ) < 2 ^ (num.log2 + 1) := hn2
      _ = 2 ^ (k + 1) * 2 ^ den.log2 := by
          rw [← zpow_natCast, ← zpow_natCast, ← two_zpow_add, hk]
          congr 1
          push_cast
          ring
      _ ≤ 2 ^ (k + 1) * den := mul_le_mul_of_nonneg_left hd1 (two_zpow_pos _).le
  have htop : (scale2 num den (-k)).2 ≤ (scale2 num den (-k)).1 ↔ (2 : ℚ) ^ k ≤ num / den := by
    have hpos : (0 : ℚ) < (scale2 num den (-k)).2 := by exact_mod_cast scale2_pos hd num (-k)
    have hone := one_le_div₀ (a := ((scale2 num den (-k)).1 : ℚ)) hpos
    rw [scale2_eq, zpow_neg, le_mul_inv_iff₀ (two_zpow_pos k), one_mul] at hone
    rw [hone]
    exact Nat.cast_le.symm
  rw [Format.unitExponent, ← hk]
  by_cases h : (2 : ℚ) ^ k ≤ num / den
  · rw [if_pos (htop.mpr h), log_eq h hhigh]
  · rw [if_neg (mt htop.mp h), log_eq hlow (by rw [sub_add_cancel]; exact not_le.mp h)]

/-- The positive numbers of a format: the significand fills the precision, or its exponent is the
smallest one, and the exponent field is not the last one. -/
structure Format.Holds (f : Format) (m : ℕ) (e : ℤ) : Prop where
  pos : 0 < m
  lt : m < 2 ^ (f.fractionBits + 1)
  min_le : f.minExponent ≤ e
  lt_max : e - f.minExponent + 2 < 2 ^ f.exponentBits
  normal : f.minExponent < e → 2 ^ f.fractionBits ≤ m

/-- A significand that does not fill the precision is doubled until it does, or until its exponent
is the smallest. -/
theorem Format.exists_holds (f : Format) : ∀ (k m : ℕ) {e : ℤ}, e = f.minExponent + k → 0 < m →
    m < 2 ^ (f.fractionBits + 1) → e - f.minExponent + 2 < 2 ^ f.exponentBits →
    ∃ m' e', f.Holds m' e' ∧ (m' : ℚ) * 2 ^ e' = m * 2 ^ e
  | 0, m, e, he, h0, hlt, hmax =>
    ⟨m, e, ⟨h0, hlt, by omega, hmax, fun h => absurd h (by omega)⟩, rfl⟩
  | k + 1, m, e, he, h0, hlt, hmax => by
    by_cases hfull : 2 ^ f.fractionBits ≤ m
    · exact ⟨m, e, ⟨h0, hlt, by omega, hmax, fun _ => hfull⟩, rfl⟩
    · have hdouble : 2 * m < 2 ^ (f.fractionBits + 1) := by rw [pow_succ]; omega
      obtain ⟨m', e', hholds, heq⟩ := f.exists_holds k (2 * m) (e := e - 1)
        (by push_cast at he ⊢; omega) (by omega) hdouble (by omega)
      refine ⟨m', e', hholds, heq.trans ?_⟩
      rw [zpow_sub_one₀ (by norm_num)]
      push_cast
      ring

/-- The unit of a number of the format is its own exponent. -/
theorem Format.Holds.max_log (h : f.Holds m e) :
    max f.minExponent (Int.log 2 ((m : ℚ) * 2 ^ e) - f.fractionBits) = e := by
  obtain ⟨hpos, hlt, hmin, -, hnormal⟩ := h
  have hm : (m : ℚ) * 2 ^ e < 2 ^ (e + f.fractionBits + 1) := by
    rw [add_assoc, two_zpow_add, mul_comm]
    exact mul_lt_mul_of_pos_left (by exact_mod_cast hlt) (two_zpow_pos e)
  have hq : (0 : ℚ) < m * 2 ^ e := mul_pos (by exact_mod_cast hpos) (two_zpow_pos e)
  have hlog : Int.log 2 ((m : ℚ) * 2 ^ e) < e + f.fractionBits + 1 :=
    (Int.lt_zpow_iff_log_lt (by decide) hq).mp (by exact_mod_cast hm)
  rcases hmin.lt_or_eq with hmin | rfl
  · have hfull : (2 : ℚ) ^ (e + f.fractionBits) ≤ m * 2 ^ e := by
      rw [two_zpow_add, mul_comm]
      exact mul_le_mul_of_nonneg_right (by exact_mod_cast hnormal hmin) (two_zpow_pos e).le
    rw [log_eq hfull hm, add_sub_cancel_right]
    exact max_eq_right hmin.le
  · exact max_eq_left (by omega)

theorem roundHalfEven_of_eq (hd : 0 < den) (h : (num : ℚ) / den = m) :
    roundHalfEven num den = m := by
  have hnum : num = m * den := by
    rw [div_eq_iff (by exact_mod_cast hd.ne')] at h
    exact_mod_cast h
  subst hnum
  simp [roundHalfEven, Nat.mul_div_cancel _ hd, hd]

/-- **A number of the format is rounded to itself.** -/
theorem Format.Holds.rounded (h : f.Holds m e) (hn : 0 < num) (hd : 0 < den)
    (hq : (num : ℚ) / den = m * 2 ^ e) : f.rounded num den = (m, e) := by
  have hunit : f.unitExponent num den = e := by
    rw [f.unitExponent_eq hn hd, hq, h.max_log]
  have hround : ((scale2 num den (-e)).1 : ℚ) / (scale2 num den (-e)).2 = m := by
    rw [scale2_eq, hq, mul_assoc, ← two_zpow_add, add_neg_cancel, zpow_zero, mul_one]
  rw [Format.rounded, hunit]
  exact Prod.ext (roundHalfEven_of_eq (scale2_pos hd num (-e)) hround) rfl

/-! ## Decoding what was encoded -/

/-- **The fields of a pattern** are read off one by one. -/
theorem Format.decode_signed (f : Format) (negative : Bool) {field fraction : ℕ}
    (hfield : field < 2 ^ f.exponentBits) (hfraction : fraction < 2 ^ f.fractionBits) :
    f.decode (f.signed negative (field * 2 ^ f.fractionBits + fraction)) =
      if field = 2 ^ f.exponentBits - 1 then
        if fraction = 0 then .infinite negative else .nan
      else if field = 0 then .finite negative fraction f.minExponent
      else .finite negative (2 ^ f.fractionBits + fraction) (f.minExponent + field - 1) := by
  have hF : 0 < 2 ^ f.fractionBits := Nat.two_pow_pos _
  have hpattern : f.signed negative (field * 2 ^ f.fractionBits + fraction) =
      2 ^ f.fractionBits * (2 ^ f.exponentBits * negative.toNat + field) + fraction := by
    cases negative <;> simp [signed, signBit, pow_add] <;> ring
  have hhigh : (2 ^ f.fractionBits * (2 ^ f.exponentBits * negative.toNat + field) + fraction) /
      2 ^ f.fractionBits = 2 ^ f.exponentBits * negative.toNat + field := by
    rw [Nat.mul_add_div hF, Nat.div_eq_of_lt hfraction, Nat.add_zero]
  have hsign : (2 ^ f.exponentBits * negative.toNat + field) / 2 ^ f.exponentBits % 2 =
      negative.toNat := by
    rw [Nat.mul_add_div (Nat.two_pow_pos _), Nat.div_eq_of_lt hfield, Nat.add_zero]
    cases negative <;> rfl
  have hminus : (negative.toNat == 1) = negative := by cases negative <;> rfl
  rw [hpattern, Format.decode, signBit, pow_add, ← Nat.div_div_eq_div_mul, hhigh, hsign, hminus,
    Nat.mul_add_mod, Nat.mod_eq_of_lt hfield, Nat.mul_add_mod, Nat.mod_eq_of_lt hfraction]

theorem Format.nearest_lt (f : Format) (negative : Bool) (num den : ℕ) :
    f.nearest negative num den < 2 * f.signBit := by
  have hsign : 0 < f.signBit := Nat.two_pow_pos _
  have hinf : f.infinity < f.signBit := by
    rw [infinity, signBit, pow_add, mul_comm]
    exact Nat.mul_lt_mul_of_pos_left (Nat.sub_lt (Nat.two_pow_pos _) one_pos) (Nat.two_pow_pos _)
  unfold nearest
  split
  · cases negative <;> simp [signed] <;> omega
  · cases negative <;> simp only [signed, if_true, Bool.false_eq_true, if_false] <;> omega

/-- **A number of the format survives being encoded.** -/
theorem Format.Holds.decode_nearest (h : f.Holds m e) (negative : Bool) (hn : 0 < num)
    (hd : 0 < den) (hq : (num : ℚ) / den = m * 2 ^ e) :
    f.decode (f.nearest negative num den) = .finite negative m e := by
  have hround := h.rounded hn hd hq
  obtain ⟨hpos, hlt, hmin, hmax, hnormal⟩ := h
  obtain ⟨k, hk⟩ := Int.eq_ofNat_of_zero_le (sub_nonneg.mpr hmin)
  have hfield : k + 2 < 2 ^ f.exponentBits := by
    have : ((k + 2 : ℕ) : ℤ) < (2 ^ f.exponentBits : ℕ) := by push_cast; omega
    exact_mod_cast this
  rw [nearest, if_neg hn.ne', hround]
  dsimp only
  rw [hk, Int.toNat_natCast, infinity]
  by_cases hfull : 2 ^ f.fractionBits ≤ m
  · have hpattern : k * 2 ^ f.fractionBits + m =
        (k + 1) * 2 ^ f.fractionBits + (m - 2 ^ f.fractionBits) := by
      rw [add_mul, one_mul]
      omega
    have hfraction : m - 2 ^ f.fractionBits < 2 ^ f.fractionBits := by
      rw [pow_succ] at hlt
      omega
    have hbelow : k * 2 ^ f.fractionBits + m ≤ (2 ^ f.exponentBits - 1) * 2 ^ f.fractionBits :=
      calc k * 2 ^ f.fractionBits + m ≤ (k + 2) * 2 ^ f.fractionBits := by
            rw [pow_succ] at hlt
            rw [add_mul]
            omega
        _ ≤ (2 ^ f.exponentBits - 1) * 2 ^ f.fractionBits := Nat.mul_le_mul_right _ (by omega)
    rw [min_eq_right hbelow, hpattern, decode_signed f negative (by omega) hfraction,
      if_neg (by omega), if_neg (by omega)]
    congr 1
    · omega
    · push_cast
      omega
  · have hzero : k = 0 := by
      by_contra h0
      exact hfull (hnormal (by omega))
    subst hzero
    have hbelow : 0 * 2 ^ f.fractionBits + m ≤ (2 ^ f.exponentBits - 1) * 2 ^ f.fractionBits :=
      calc 0 * 2 ^ f.fractionBits + m ≤ 1 * 2 ^ f.fractionBits := by omega
        _ ≤ (2 ^ f.exponentBits - 1) * 2 ^ f.fractionBits := Nat.mul_le_mul_right _ (by omega)
    rw [min_eq_right hbelow, decode_signed f negative (Nat.two_pow_pos _) (not_le.mp hfull),
      if_neg (by omega), if_pos rfl]
    congr 1
    omega

/-- **Encoding keeps the number** of a datum that the format has the precision and the range for. -/
theorem Format.value_decode_encode (f : Format) (negative : Bool)
    (hlt : m < 2 ^ (f.fractionBits + 1)) (hmin : f.minExponent ≤ e) (hmax : e - f.minExponent + 2 < 2 ^ f.exponentBits) :
    (f.decode (f.encode (.finite negative m e))).isFinite ∧
      (f.decode (f.encode (.finite negative m e))).value = (Datum.finite negative m e).value := by
  have hd := ratio_den_pos m e
  have hq := ratio_eq m e
  rw [encode]
  rcases m.eq_zero_or_pos with rfl | hpos
  · have hzero : (ratio 0 e).1 = 0 := by simp [ratio, scale2]
    have hwide : 0 ≠ 2 ^ f.exponentBits - 1 := by
      have : (2 : ℤ) < (2 ^ f.exponentBits : ℕ) := by push_cast; omega
      omega
    have hdecode := f.decode_signed negative (Nat.two_pow_pos _ : 0 < 2 ^ f.exponentBits)
      (Nat.two_pow_pos _ : 0 < 2 ^ f.fractionBits)
    rw [if_neg hwide, if_pos rfl, Nat.zero_mul, Nat.add_zero] at hdecode
    rw [nearest, if_pos hzero, hdecode]
    exact ⟨rfl, by simp [Datum.value]⟩
  · have hn := ratio_num_pos hpos e
    obtain ⟨m', e', hholds, heq⟩ := f.exists_holds (e - f.minExponent).toNat m (e := e) (by omega)
      hpos hlt hmax
    rw [hholds.decode_nearest negative hn hd (hq.trans heq.symm)]
    exact ⟨rfl, by rw [Datum.value, Datum.value, heq]⟩

end

end Binary

/-! ## Scalars and their data -/

open RoundedScalar Patterned
open Binary (Datum Matches datumOf)

/-- A scalar type whose patterns are those that its arithmetic unpacks. -/
class NativeScalar (α : Type) [Scalar α] [RoundedScalar α] [Patterned α] : Prop where
  layout : Matches (format α) (spec α)
  toPattern_eq : ∀ x : α, toPattern x = (bits x).toNat
  bits_ofPattern : ∀ n : ℕ,
    bits (ofPattern n : α) = pack (spec α) (unpack (spec α) (BitVec.ofNat _ n))

instance : NativeScalar Float where
  layout := ⟨rfl, rfl⟩
  toPattern_eq _ := rfl
  bits_ofPattern _ := rfl

instance : NativeScalar Float32 where
  layout := ⟨rfl, rfl⟩
  toPattern_eq _ := rfl
  bits_ofPattern _ := rfl

section

variable {α : Type} [Scalar α] [RoundedScalar α] [Patterned α] [NativeScalar α]

theorem datum_eq (x : α) : datum x = datumOf (spec α) (number x) := by
  rw [datum, NativeScalar.toPattern_eq, Binary.decode_eq NativeScalar.layout]
  rfl

/-- The datum of a finite scalar is a number, and the same one. -/
theorem isFinite_datum (x : α) : (datum x).isFinite = Scalar.isFinite x := by
  rw [datum_eq, Binary.isFinite_datumOf, isFinite_eq_number]

@[inherit_doc isFinite_datum]
theorem value_datum (x : α) : (datum x).value = toRat x := by
  rw [datum_eq, Binary.value_datumOf, toRat]

/-- The value of a pattern stands for what the pattern does. -/
theorem datum_ofPattern {n : ℕ} (hn : n < 2 ^ (spec α).numBits) :
    datum (ofPattern n : α) = (format α).decode n := by
  rw [datum_eq, number, NativeScalar.bits_ofPattern, Binary.unpack_pack_unpack one_lt,
    ← Binary.decode_eq NativeScalar.layout, BitVec.toNat_ofNat, Nat.mod_eq_of_lt hn]

/-- **The datum of a positive number**: no sign, and a significand that is not zero. -/
theorem exists_datum_of_pos {x : α} (hf : Scalar.isFinite x) (h : 0 < toRat x) :
    ∃ m e, datum x = .finite false (m + 1) e ∧ toRat x = (m + 1 : ℕ) * 2 ^ e := by
  rw [← isFinite_datum] at hf
  rw [← value_datum] at h ⊢
  cases hd : datum x with
  | nan => rw [hd] at hf; cases hf
  | infinite negative => rw [hd] at hf; cases hf
  | finite negative m e =>
    rw [hd, Datum.value] at h
    cases negative with
    | true =>
      have : (0 : ℚ) ≤ m * 2 ^ e := by positivity
      rw [if_pos rfl] at h
      linarith
    | false =>
      cases m with
      | zero => simp at h
      | succ m => exact ⟨m, e, rfl, by simp [Datum.value]⟩

/-- Only a positive number has such a datum. -/
theorem pos_of_datum {x : α} {m : ℕ} {e : ℤ} (h : datum x = .finite false (m + 1) e) :
    Scalar.isFinite x ∧ 0 < toRat x := by
  rw [← isFinite_datum, ← value_datum, h, Datum.value]
  refine ⟨rfl, ?_⟩
  simp only [Bool.false_eq_true, if_false, one_mul]
  positivity

end

/-! ## Widening -/

/-- Conversion to the wide format loses nothing. -/
class Widening (α : Type) [Scalar α] [RoundedScalar α] [Wide α Float] : Prop where
  isFinite_widen : ∀ x : α, Scalar.isFinite (widen x : Float) = Scalar.isFinite x
  toRat_widen : ∀ x : α, toRat (widen x : Float) = toRat x

instance : Widening Float where
  isFinite_widen _ := rfl
  toRat_widen _ := rfl

/-- The significand of a 32-bit number, and its exponent. -/
theorem datum_bounds {x : Float32} {negative : Bool} {m : ℕ} {e : ℤ}
    (h : datum x = .finite negative m e) : m < 2 ^ 24 ∧ -149 ≤ e ∧ e < 128 := by
  have hcanonical := canonical_number x
  have hlimit := abs_toRat_lt_limit x
  rw [datum_eq] at h
  rw [toRat] at hlimit
  cases hn : number x with
  | notANumber => rw [hn] at h; cases h
  | infinity s => rw [hn] at h; cases h
  | zero s =>
    rw [hn] at h
    cases h
    decide
  | finite s n k hpos =>
    rw [hn] at h hcanonical hlimit
    cases h
    rw [Binary.abs_value_finite] at hlimit
    obtain ⟨hlt, hmin, -⟩ := hcanonical
    have hone : (1 : ℚ) ≤ m := by exact_mod_cast hpos
    have hpow : (2 : ℚ) ^ e < 2 ^ (128 : ℤ) := by
      refine lt_of_le_of_lt ?_ hlimit
      exact le_mul_of_one_le_left (Binary.two_zpow_pos e).le hone
    exact ⟨hlt, hmin, (zpow_lt_zpow_iff_right₀ (by norm_num)).mp hpow⟩

/-- **What a 32-bit scalar is widened to** is the decoded encoding of its datum. -/
theorem datum_widen (x : Float32) :
    datum (widen x : Float) = Binary.binary64.decode (Binary.binary64.encode (datum x)) := by
  have hlt : Binary.binary64.encode (datum x) < 2 ^ 64 := by
    cases datum x with
    | nan => decide
    | infinite negative => cases negative <;> decide
    | finite negative m e => exact Binary.Format.nearest_lt ..
  exact datum_ofPattern hlt

/-- Either a number that the wide format holds, or no number there either. -/
theorem datum_widen_cases (x : Float32) :
    (datum (widen x : Float)).isFinite = (datum x).isFinite ∧
      (datum (widen x : Float)).value = (datum x).value := by
  rw [datum_widen]
  cases h : datum x with
  | nan => decide +kernel
  | infinite negative => cases negative <;> decide +kernel
  | finite negative m e =>
    obtain ⟨hlt, hmin, hmax⟩ := datum_bounds h
    have hwide : Binary.binary64.minExponent = -1074 := by decide
    have hfield : (2 : ℤ) ^ Binary.binary64.exponentBits = 2048 := by decide
    exact Binary.binary64.value_decode_encode negative (hlt.trans (by decide))
      (by omega) (by omega)

instance : Widening Float32 where
  isFinite_widen x := by
    rw [← isFinite_datum, ← isFinite_datum, (datum_widen_cases x).1]
  toRat_widen x := by
    rw [← value_datum, ← value_datum, (datum_widen_cases x).2]

end RunningStats
