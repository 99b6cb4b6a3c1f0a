import RunningStats.Proofs.Binary.Location

/-!
# How large rounded moments grow

Magnitudes in units of powers of two, which rounding leaves alone: a number of the format that
bounds an exact result bounds the rounded one too, so bounds add and multiply as if nothing had been
rounded.

* `UpTo k e x`: `x` is finite and no more than `k` units of `2 ^ e`. `AtLeast f w`: `w` is finite
  and no less than `2 ^ f`. `Room α k e`: the format has a number as large as `k` such units.
* `Operands`: what a merge computes from, and what each of its terms can come to.
* `Tame n k l r j m`: the moments of up to `j + 1` observations, values up to `2 ^ r` and weights
  from `2 ^ -l` to `2 ^ k`. **`Tame.combine`**: a merge of two such sets makes one of the joint
  size, if the format has the room that `Spacious` asks for.

The mean is no sum and needs its own argument: it stays a weighted mean but for a few roundings
(`Binary.abs_mean_le`), and each merge may add as much as these.
-/

namespace RunningStats

open Binary (Rounds Representable Step limit)
open RoundedScalar BinaryScalar

/-! ## Means drift, on the rational numbers -/

namespace Binary

variable {S : Float.Model.Format}

/-- **The quotient that moves a mean** is a share of the difference but for three roundings, each
of them one part in `2 ^ p` of the largest values. -/
theorem abs_quotient_sub_le {δ d P Q w wb K : ℚ} (hn : 256 ≤ (2 : ℚ) ^ S.mantissaBits)
    (hδ : Step S.minExponent δ) (hd : Rounds S δ d) (hP : Rounds S (d * wb) P)
    (hQ : Rounds S (P / w) Q) (hK : |δ| ≤ 2 * K) (hb : 0 < wb) (hw : wb ≤ w)
    (hsmall : 2 ^ S.mantissaBits * 2 ^ S.minExponent ≤ K)
    (hsmall' : 2 ^ S.mantissaBits * 2 ^ S.minExponent ≤ K * wb) :
    2 ^ S.mantissaBits * |Q - δ * (wb / w)| ≤ 8 * K := by
  have hderr := hd.error_of_step hδ
  have hw0 : 0 < w := hb.trans_le hw
  have hK0 : 0 ≤ K := by linarith [abs_nonneg δ]
  have hpos : (0 : ℚ) < 2 ^ S.mantissaBits := by linarith
  have hshare : wb / w ≤ 1 := (div_le_one hw0).mpr hw
  have hcoarse {e c : ℚ} (h : 2 ^ S.mantissaBits * |e| ≤ c) : 256 * |e| ≤ c :=
    (mul_le_mul_of_nonneg_right hn (abs_nonneg e)).trans h
  -- the difference, the product over the whole weight, and the quotient
  have hd3 : |d| ≤ 5 / 2 * K := by
    have := hcoarse hderr
    have := abs_sub_abs_le_abs_sub d δ
    linarith
  have hPerr : 2 ^ S.mantissaBits * |P - d * wb| ≤ 5 / 2 * K * wb := by
    refine hP.error_le ?_ (hsmall'.trans (by gcongr; linarith))
    rw [abs_mul, abs_of_pos hb]
    gcongr
  have hPw : 2 ^ S.mantissaBits * |P / w - d * (wb / w)| ≤ 5 / 2 * K := by
    rw [show P / w - d * (wb / w) = (P - d * wb) / w by ring, abs_div, abs_of_pos hw0,
      ← mul_div_assoc, div_le_iff₀ hw0]
    exact hPerr.trans (mul_le_mul_of_nonneg_left hw (by linarith))
  have hshare_pos : 0 < wb / w := div_pos hb hw0
  have hQerr : 2 ^ S.mantissaBits * |Q - P / w| ≤ 3 * K := by
    refine hQ.error_le ?_ (hsmall.trans (by linarith))
    have hdw : |d * (wb / w)| ≤ 5 / 2 * K := by
      rw [abs_mul, abs_of_pos hshare_pos]
      exact (mul_le_of_le_one_right (abs_nonneg d) hshare).trans hd3
    have := hcoarse hPw
    have := abs_sub_abs_le_abs_sub (P / w) (d * (wb / w))
    linarith
  have hdδ : 2 ^ S.mantissaBits * |d * (wb / w) - δ * (wb / w)| ≤ 2 * K := by
    rw [← sub_mul, abs_mul, abs_of_pos hshare_pos, ← mul_assoc]
    exact (mul_le_of_le_one_right (by positivity) hshare).trans (hderr.trans hK)
  have htri : |Q - δ * (wb / w)| ≤
      |Q - P / w| + |P / w - d * (wb / w)| + |d * (wb / w) - δ * (wb / w)| := by
    have h := abs_add_three (Q - P / w) (P / w - d * (wb / w)) (d * (wb / w) - δ * (wb / w))
    rwa [show Q - P / w + (P / w - d * (wb / w)) + (d * (wb / w) - δ * (wb / w)) =
      Q - δ * (wb / w) by ring] at h
  have := mul_le_mul_of_nonneg_left htri hpos.le
  linarith

/-- **A weighted mean drifts by a few last places** of the largest values. -/
theorem abs_mean_le {a b t Q m M K : ℚ} (hn : 256 ≤ (2 : ℚ) ^ S.mantissaBits) (ha : |a| ≤ M)
    (hb : |b| ≤ M) (hMK : M ≤ K) (ht : 0 ≤ t) (ht1 : t ≤ 1)
    (hQ : 2 ^ S.mantissaBits * |Q - (b - a) * t| ≤ 8 * K) (hm : Rounds S (a + Q) m)
    (hstep : Step S.minExponent (a + Q)) :
    2 ^ S.mantissaBits * |m| ≤ 2 ^ S.mantissaBits * M + 10 * K := by
  have hpos : (0 : ℚ) < 2 ^ S.mantissaBits := by linarith
  have hmean : |a + (b - a) * t| ≤ M := by
    rw [abs_le] at ha hb ⊢
    rw [show a + (b - a) * t = (1 - t) * a + t * b by ring]
    constructor <;> nlinarith
  have hsum : 2 ^ S.mantissaBits * |a + Q| ≤ 2 ^ S.mantissaBits * M + 8 * K := by
    have h := abs_add_le (a + (b - a) * t) (Q - (b - a) * t)
    rw [show a + (b - a) * t + (Q - (b - a) * t) = a + Q by ring] at h
    have := mul_le_mul_of_nonneg_left h hpos.le
    have := mul_le_mul_of_nonneg_left hmean hpos.le
    linarith
  have hdouble : |a + Q| ≤ 2 * K := by
    have hK0 : 0 ≤ K := (abs_nonneg a).trans (ha.trans hMK)
    refine le_of_mul_le_mul_left ?_ hpos
    have := mul_le_mul_of_nonneg_left hMK hpos.le
    have := mul_le_mul_of_nonneg_right hn hK0
    linarith
  have herr := hm.error_of_step hstep
  have h := abs_sub_abs_le_abs_sub m (a + Q)
  have := mul_le_mul_of_nonneg_left h hpos.le
  linarith

/-- A drift is no more than one part in `N`, if the precision holds some more. -/
theorem le_of_drift {P N R s m : ℚ} (hN : 0 < N) (hR : 0 ≤ R) (hP : 20 * N ≤ P)
    (h : P * m ≤ P * ((N + s) * R / N) + 20 * R) : N * m ≤ (N + s + 1) * R := by
  refine le_of_mul_le_mul_left ?_ (show 0 < P by linarith)
  calc P * (N * m) = N * (P * m) := by ring
    _ ≤ N * (P * ((N + s) * R / N) + 20 * R) := mul_le_mul_of_nonneg_left h hN.le
    _ = P * ((N + s) * R) + 20 * N * R := by field_simp
    _ ≤ P * ((N + s) * R) + P * R := by gcongr
    _ = P * ((N + s + 1) * R) := by ring

end Binary

variable {α : Type} [Scalar α] [BinaryScalar α]

/-! ## Bounds that survive rounding -/

/-- A finite scalar of at most `k` units of `2 ^ e`. -/
def UpTo (k e : ℕ) (x : α) : Prop := Scalar.isFinite x ∧ |toRat x| ≤ k * 2 ^ e

/-- A finite scalar of at least `2 ^ f`. -/
def AtLeast (f : ℤ) (x : α) : Prop := Scalar.isFinite x ∧ 2 ^ f ≤ toRat x

variable (α) in
/-- The format has a number as large as `k` units of `2 ^ e`. -/
def Room (k e : ℕ) : Prop := k ≤ 2 ^ (spec α).mantissaBits ∧ (k : ℚ) * 2 ^ e < limit (spec α)

theorem room_one {e : ℕ} (he : e < 2 ^ ((spec α).exponentBits - 1)) : Room α 1 e := by
  refine ⟨Nat.one_le_two_pow, ?_⟩
  rw [Nat.cast_one, one_mul]
  exact pow_lt_pow_right₀ (by norm_num) he

namespace UpTo

variable {k l e f : ℕ} {x y w : α} {q : ℚ}

theorem of_nearest (h : Nearest q x) (hq : |q| ≤ k * 2 ^ e) (hr : Room α k e) : UpTo k e x := by
  have hrep := representable_mul_pow α hr.1 e
  have hf := h.finite hrep hr.2 hq
  exact ⟨hf, (h.rounds hf).bound hrep hq⟩

theorem raise (h : UpTo k e x) (hef : e ≤ f) : UpTo k f x :=
  ⟨h.1, h.2.trans (by gcongr; norm_num)⟩

/-- A number of units below a power of two. -/
theorem pow (h : UpTo k e x) (hk : k ≤ 2 ^ f) : UpTo 1 (f + e) x := by
  refine ⟨h.1, h.2.trans ?_⟩
  have hk' : (k : ℚ) ≤ 2 ^ f := by exact_mod_cast hk
  rw [Nat.cast_one, one_mul, pow_add]
  gcongr

theorem add (hx : UpTo k e x) (hy : UpTo l e y) (hr : Room α (k + l) e) :
    UpTo (k + l) e (x + y) := by
  refine of_nearest (nearest_add hx.1 hy.1) ((abs_add_le _ _).trans ?_) hr
  push_cast
  linarith [hx.2, hy.2]

theorem sub (hx : UpTo k e x) (hy : UpTo l e y) (hr : Room α (k + l) e) :
    UpTo (k + l) e (x - y) := by
  refine of_nearest (nearest_sub hx.1 hy.1) ((abs_sub _ _).trans ?_) hr
  push_cast
  linarith [hx.2, hy.2]

theorem mul (hx : UpTo 1 e x) (hy : UpTo k f y) (hr : Room α k (e + f)) :
    UpTo k (e + f) (x * y) := by
  refine of_nearest (nearest_mul hx.1 hy.1) ?_ hr
  have hx' := hx.2
  rw [Nat.cast_one, one_mul] at hx'
  calc |toRat x * toRat y| = |toRat x| * |toRat y| := abs_mul _ _
    _ ≤ 2 ^ e * (k * 2 ^ f) := mul_le_mul hx' hy.2 (abs_nonneg _) (by positivity)
    _ = k * 2 ^ (e + f) := by rw [pow_add]; ring

end UpTo

namespace AtLeast

variable {f g : ℤ} {x y : α}

theorem pos (h : AtLeast f x) : 0 < toRat x := (Binary.two_zpow_pos f).trans_le h.2

theorem not_isZero (h : AtLeast f x) : ¬ Scalar.isZero x := fun hz =>
  h.pos.ne' ((isZero_iff_toRat h.1).mp hz)

theorem isAmount (h : AtLeast f x) : IsAmount x := isAmount_of_finite h.1 h.pos.le

theorem mul (hx : AtLeast f x) (hy : AtLeast g y) (hf : Scalar.isFinite (x * y))
    (hmin : (spec α).minExponent ≤ f + g) : AtLeast (f + g) (x * y) := by
  refine ⟨hf, ((nearest_mul hx.1 hy.1).rounds hf).ge (.two_zpow hmin) ?_⟩
  rw [Binary.two_zpow_add]
  exact mul_le_mul hx.2 hy.2 (Binary.two_zpow_pos g).le hx.pos.le

end AtLeast

/-- A quotient has as many units of a power of two that makes up for the divisor. -/
theorem UpTo.div {k e g : ℕ} {f : ℤ} {x w : α} (hx : UpTo k e x) (hw : AtLeast f w)
    (he : (e : ℤ) ≤ g + f) (hr : Room α k g) : UpTo k g (x / w) := by
  refine of_nearest (nearest_div hx.1 hw.1 hw.not_isZero) ?_ hr
  rw [abs_div, abs_of_pos hw.pos, div_le_iff₀ hw.pos]
  calc |toRat x| ≤ k * 2 ^ e := hx.2
    _ ≤ k * (2 ^ g * 2 ^ f) := by
      rw [← zpow_natCast, ← zpow_natCast, ← Binary.two_zpow_add]
      gcongr
      norm_num
    _ = k * 2 ^ g * 2 ^ f := (mul_assoc _ _ _).symm
    _ ≤ k * 2 ^ g * toRat w := by
      have := hw.2
      gcongr

theorem upTo_ofCount {n : UInt64} {e : ℕ} (hn : n.toNat ≤ 2 ^ e) (hr : Room α 1 e) :
    UpTo 1 e (Scalar.ofCount n : α) := by
  refine .of_nearest (nearest_ofCount n) ?_ hr
  rw [Nat.abs_cast, Nat.cast_one, one_mul]
  exact_mod_cast hn

namespace Moments

/-! ## The terms of a merge -/

/-- The precision and the exponents that the moments of values up to `2 ^ r` need, their weights
`2 ^ -l` at least and `2 ^ c` together. -/
structure Spacious (S : Float.Model.Format) (c l r : ℕ) : Prop where
  precision : c + 6 ≤ S.mantissaBits
  exponent : 4 * r + 7 * c + 4 * l + 23 ≤ 2 ^ (S.exponentBits - 1)

namespace Spacious

variable {c l r : ℕ} (h : Spacious (spec α) c l r)
include h

/-- Counts of so many bits are not rounded. -/
theorem count_le {n : ℕ} (hn : n ≤ c + 6) : 2 ^ n ≤ 2 ^ (spec α).mantissaBits :=
  Nat.pow_le_pow_right (by decide) (hn.trans h.precision)

theorem room {a k e : ℕ} (hk : k ≤ 2 ^ a) (ha : a ≤ c + 6)
    (he : a + e ≤ 4 * r + 7 * c + 4 * l + 22) : Room α k e := by
  refine ⟨hk.trans (h.count_le ha), ?_⟩
  have hk' : (k : ℚ) ≤ 2 ^ a := by exact_mod_cast hk
  calc (k : ℚ) * 2 ^ e ≤ 2 ^ a * 2 ^ e := by gcongr
    _ = 2 ^ (a + e) := (pow_add _ _ _).symm
    _ < limit (spec α) := pow_lt_pow_right₀ (by norm_num) (by have := h.exponent; omega)

/-- The power of two itself. -/
theorem one {e : ℕ} (he : e ≤ 4 * r + 7 * c + 4 * l + 22) : Room α 1 e :=
  h.room (a := 0) (by simp) (by omega) (by omega)

theorem minExponent_le {i : ℕ} (hi : i ≤ 4 * l + 20) : (spec α).minExponent ≤ -(i : ℤ) := by
  have hexp : ((4 * r + 7 * c + 4 * l + 23 : ℕ) : ℤ) ≤ 2 ^ ((spec α).exponentBits - 1) := by
    exact_mod_cast h.exponent
  unfold Float.Model.Format.minExponent
  push_cast at hexp
  omega

/-- Rounding is fine against the largest values, and these against the smallest numbers. -/
theorem smallest_le {i : ℕ} (hi : i ≤ l) : (2 : ℚ) ^ (spec α).mantissaBits *
    2 ^ (spec α).minExponent ≤ 2 ^ (r + 1) * 2 ^ (-i : ℤ) := by
  rw [← zpow_natCast, ← zpow_natCast, ← Binary.two_zpow_add, ← Binary.two_zpow_add]
  refine Binary.two_zpow_le ?_
  have hexp : ((4 * r + 7 * c + 4 * l + 23 : ℕ) : ℤ) ≤ 2 ^ ((spec α).exponentBits - 1) := by
    exact_mod_cast h.exponent
  unfold Float.Model.Format.minExponent
  push_cast at hexp ⊢
  omega

end Spacious

/-- The difference of the means, the weights and the whole weight in a merge. -/
structure Operands (c l r : ℕ) (d wa wb w : α) : Prop where
  difference : UpTo 1 (r + 2) d
  left : UpTo 1 c wa
  right : UpTo 1 c wb
  whole : UpTo 1 c w
  least : AtLeast (-l) w

namespace Operands

variable {c l r ja jb : ℕ} {d wa wb w x y : α} (o : Operands c l r d wa wb w)
  (h : Spacious (spec α) c l r)
include o h

theorem difference_sq : UpTo 1 (2 * r + 4) (d * d) :=
  (o.difference.mul o.difference (h.one (by omega))).raise (by omega)

theorem whole_sq : UpTo 1 (c + c) (w * w) ∧ AtLeast (-l + -l) (w * w) := by
  have hww := o.whole.mul o.whole (h.one (by omega))
  exact ⟨hww, o.least.mul o.least hww.1 ((h.minExponent_le (i := l + l) (by omega)).trans
    (by omega))⟩

theorem whole_cube : AtLeast (-l + -l + -l) (w * w * w) := by
  obtain ⟨hww, hleast⟩ := o.whole_sq h
  have hwww := hww.mul o.whole (h.one (by omega))
  exact hleast.mul o.least hwww.1 ((h.minExponent_le (i := l + l + l) (by omega)).trans
    (by omega))

/-- The term of the second moment. -/
theorem second : UpTo 1 (2 * r + 2 * c + l + 4) (d * d * wa * wb / w) :=
  (((o.difference_sq h).mul o.left (h.one (by omega))).mul o.right (h.one (by omega))).div o.least
    (by omega) (h.one (by omega))

/-- The term of the third moment. -/
theorem third : UpTo 1 (3 * r + 4 * c + 2 * l + 8)
    (d * d * d * wa * wb * (wa - wb) / (w * w)) := by
  have hsub := (o.left.sub o.right (h.room (a := 1) (by simp) (by omega) (by omega))).pow (f := 1)
    (by simp)
  exact (((((o.difference_sq h).mul o.difference (h.one (by omega))).mul o.left
    (h.one (by omega))).mul o.right (h.one (by omega))).mul hsub (h.one (by omega))).div
    (o.whole_sq h).2 (by omega) (h.one (by omega))

/-- Moments of each part, weighed by the other: their difference. -/
theorem crossed {a e : ℕ} (hx : UpTo jb e x) (hy : UpTo ja e y) (hj : jb + ja ≤ 2 ^ a)
    (ha : a ≤ c + 1) (he : e + c + a ≤ 4 * r + 7 * c + 4 * l + 22) :
    UpTo 1 (a + (c + e)) (wa * x - wb * y) := by
  have hroom {j : ℕ} (hle : j ≤ jb + ja) : Room α j (c + e) :=
    h.room (hle.trans hj) (by omega) (by omega)
  exact ((o.left.mul hx (hroom (by omega))).sub (o.right.mul hy (hroom (by omega)))
    (hroom (le_refl _))).pow hj

/-- The term of the third moment that the second ones make. -/
theorem third_of_second (hx : UpTo jb (2 * r + 2 * c + l + 4) x)
    (hy : UpTo ja (2 * r + 2 * c + l + 4) y) (hj : jb + ja ≤ 2 ^ c) :
    UpTo 1 (3 * r + 4 * c + 2 * l + 8) (Scalar.ofCount 3 * d * (wa * x - wb * y) / w) := by
  have hthree : UpTo 1 2 (Scalar.ofCount 3 : α) := upTo_ofCount (by decide) (h.one (by omega))
  exact ((hthree.mul o.difference (h.one (by omega))).mul
    (o.crossed h hx hy hj (by omega) (by omega)) (h.one (by omega))).div o.least
    (by omega) (h.one (by omega))

/-- The term of the fourth moment. -/
theorem fourth : UpTo 1 (4 * r + 6 * c + 3 * l + 13)
    (d * d * (d * d) * wa * wb * (wa * wa - wa * wb + wb * wb) / (w * w * w)) := by
  have hd2 := o.difference_sq h
  have hroom {j : ℕ} (hj : j ≤ 4) : Room α j (c + c) :=
    h.room (a := 2) hj (by omega) (by omega)
  have hweights := (((o.left.mul o.left (hroom (by omega))).sub
    (o.left.mul o.right (hroom (by omega))) (hroom (by omega))).add
    (o.right.mul o.right (hroom (by omega))) (hroom (by omega))).pow (f := 2) (by decide)
  exact ((((hd2.mul hd2 (h.one (by omega))).mul o.left (h.one (by omega))).mul o.right
    (h.one (by omega))).mul hweights (h.one (by omega))).div (o.whole_cube h)
    (by omega) (h.one (by omega))

/-- The term of the fourth moment that the second ones make. -/
theorem fourth_of_second (hx : UpTo jb (2 * r + 2 * c + l + 4) x)
    (hy : UpTo ja (2 * r + 2 * c + l + 4) y) (hj : jb + ja ≤ 2 ^ c) :
    UpTo 1 (4 * r + 6 * c + 3 * l + 13)
      (Scalar.ofCount 6 * (d * d) * (wa * wa * x + wb * wb * y) / (w * w)) := by
  have hsix : UpTo 1 3 (Scalar.ofCount 6 : α) := upTo_ofCount (by decide) (h.one (by omega))
  have hroom {j : ℕ} (hle : j ≤ jb + ja) : Room α j (c + c + (2 * r + 2 * c + l + 4)) :=
    h.room (hle.trans hj) (by omega) (by omega)
  have hsum := (((o.left.mul o.left (h.one (by omega))).mul hx (hroom (by omega))).add
    ((o.right.mul o.right (h.one (by omega))).mul hy (hroom (by omega))) (hroom (le_refl _))).pow hj
  exact ((hsix.mul (o.difference_sq h) (h.one (by omega))).mul hsum (h.one (by omega))).div
    (o.whole_sq h).2 (by omega) (h.one (by omega))

/-- The term of the fourth moment that the third ones make. -/
theorem fourth_of_third (hx : UpTo (2 * jb) (3 * r + 4 * c + 2 * l + 8) x)
    (hy : UpTo (2 * ja) (3 * r + 4 * c + 2 * l + 8) y) (hj : jb + ja ≤ 2 ^ c) :
    UpTo 1 (4 * r + 6 * c + 3 * l + 13) (Scalar.ofCount 4 * d * (wa * x - wb * y) / w) := by
  have hfour : UpTo 1 2 (Scalar.ofCount 4 : α) := upTo_ofCount (by decide) (h.one (by omega))
  have hcross := o.crossed h (a := c + 1) hx hy (by rw [pow_succ]; omega) (by omega) (by omega)
  exact ((hfour.mul o.difference (h.one (by omega))).mul hcross (h.one (by omega))).div o.least
    (by omega) (h.one (by omega))

end Operands

/-! ## Moments of so many observations -/

/-- The moments of `j + 1` observations at most, of `2 ^ n` in all: the weights lie between
`2 ^ -l` and `2 ^ k`, the values are no larger than `2 ^ r`, and the mean has drifted `j` times. -/
structure Tame (n k l r j : ℕ) (m : Moments α) : Prop where
  weight : UpTo (j + 1) k m.weight
  least : AtLeast (-l) m.weight
  mean_finite : Scalar.isFinite m.mean
  mean : 2 ^ n * |toRat m.mean| ≤ (2 ^ n + j) * 2 ^ r
  m2 : UpTo j (2 * r + 2 * (n + k) + l + 4) m.m2
  m3 : UpTo (2 * j) (3 * r + 4 * (n + k) + 2 * l + 8) m.m3
  m4 : UpTo (3 * j) (4 * r + 6 * (n + k) + 3 * l + 13) m.m4

namespace Tame

variable {n k l r i j : ℕ} {a b : Moments α}

/-- However often the mean has drifted, it is no larger than twice the values. -/
theorem abs_mean_le {s : ℕ} (h : Tame n k l r j a) (hj : j ≤ s) (hs : s ≤ 2 ^ n) :
    |toRat a.mean| ≤ (2 ^ n + s) * 2 ^ r / 2 ^ n ∧
      (2 ^ n + s : ℚ) * 2 ^ r / 2 ^ n ≤ 2 ^ (r + 1) := by
  have hs' : (s : ℚ) ≤ 2 ^ n := by exact_mod_cast hs
  have hpos : (0 : ℚ) < 2 ^ n := by positivity
  rw [le_div_iff₀ hpos, div_le_iff₀ hpos, mul_comm]
  refine ⟨h.mean.trans (by gcongr), ?_⟩
  calc (2 ^ n + s : ℚ) * 2 ^ r ≤ (2 ^ n + 2 ^ n) * 2 ^ r := by gcongr
    _ = 2 ^ (r + 1) * 2 ^ n := by rw [pow_succ]; ring

theorem mean_upTo (h : Tame n k l r j a) (hj : j ≤ 2 ^ n) : UpTo 1 (r + 1) a.mean := by
  obtain ⟨hle, hle'⟩ := h.abs_mean_le (le_refl j) hj
  exact ⟨h.mean_finite, by simpa using hle.trans hle'⟩

theorem weight_upTo (h : Tame n k l r j a) (hj : j + 1 ≤ 2 ^ n) : UpTo 1 (n + k) a.weight :=
  h.weight.pow hj

variable (h : Spacious (spec α) (n + k) l r) (ha : Tame n k l r i a) (hb : Tame n k l r j b)
  (hij : i + j + 2 ≤ 2 ^ n)
include h ha hb hij

theorem weight_add : UpTo (i + j + 2) k (a.weight + b.weight) ∧
    AtLeast (-l) (a.weight + b.weight) := by
  have hw := ha.weight.add hb.weight (h.room (a := n) (by omega) (by omega) (by omega))
  have hle := toRat_le_add hb.least.isAmount.notBelow hw.1
  refine ⟨?_, hw.1, ha.least.2.trans hle⟩
  rwa [show i + j + 2 = i + 1 + (j + 1) by omega]

theorem operands : Operands (n + k) l r (b.mean - a.mean) a.weight b.weight
    (a.weight + b.weight) where
  difference := by
    have hd := (hb.mean_upTo (by omega)).sub (ha.mean_upTo (by omega))
      (h.room (a := 1) (by simp) (by omega) (by omega))
    exact (hd.pow (f := 1) (by simp)).raise (by omega)
  left := ha.weight_upTo (by omega)
  right := hb.weight_upTo (by omega)
  whole := (weight_add h ha hb hij).1.pow hij
  least := (weight_add h ha hb hij).2

/-- The mean of a merge, one drift further. -/
theorem mean_combine : Scalar.isFinite (Moments.combine a b).mean ∧
    2 ^ n * |toRat (Moments.combine a b).mean| ≤ (2 ^ n + ((i + j + 1 : ℕ) : ℚ)) * 2 ^ r := by
  have o := operands h ha hb hij
  have hprod := o.difference.mul o.right (h.one (by omega))
  have hquot := hprod.div (g := r + 2 + (n + k) + l) o.least (by omega) (h.one (by omega))
  have hsum := ((ha.mean_upTo (by omega)).raise (by omega)).add hquot
    (h.room (a := 1) (by simp) (by omega) (by omega))
  refine ⟨hsum.1, ?_⟩
  have hpos : (0 : ℚ) < 2 ^ n := by positivity
  have hle := toRat_le_add' ha.least.isAmount.notBelow o.whole.1
  obtain ⟨hMa, hMK⟩ := ha.abs_mean_le (s := i + j) (by omega) (by omega)
  obtain ⟨hMb, -⟩ := hb.abs_mean_le (s := i + j) (by omega) (by omega)
  have hδ : |toRat b.mean - toRat a.mean| ≤ 2 * 2 ^ (r + 1) := by
    have := abs_sub (toRat b.mean) (toRat a.mean)
    linarith [hMa.trans hMK, hMb.trans hMK]
  have hd := nearest_sub hb.mean_finite ha.mean_finite
  have hQ := Binary.abs_quotient_sub_le two_pow_le_precision
    ((representable b.mean).step.sub (representable a.mean).step) (hd.rounds o.difference.1)
    ((nearest_mul o.difference.1 o.right.1).rounds hprod.1)
    ((nearest_div hprod.1 o.whole.1 o.least.not_isZero).rounds hquot.1) hδ hb.least.pos hle
    (by simpa using h.smallest_le (Nat.zero_le l))
    ((h.smallest_le (le_refl l)).trans (by have := hb.least.2; gcongr))
  have hmean := Binary.abs_mean_le two_pow_le_precision hMa hMb hMK
    (div_nonneg hb.least.pos.le o.least.pos.le) ((div_le_one o.least.pos).mpr hle) hQ
    ((nearest_add ha.mean_finite hquot.1).rounds hsum.1)
    ((representable a.mean).step.add (representable _).step)
  have hdrift : 20 * (2 : ℚ) ^ n ≤ 2 ^ (spec α).mantissaBits :=
    calc 20 * (2 : ℚ) ^ n ≤ 2 ^ 5 * 2 ^ n := by gcongr; norm_num
      _ = 2 ^ (5 + n) := (pow_add _ _ _).symm
      _ ≤ 2 ^ (spec α).mantissaBits := by exact_mod_cast h.count_le (n := 5 + n) (by omega)
  rw [Nat.cast_succ, ← add_assoc]
  refine Binary.le_of_drift hpos (by positivity) hdrift (hmean.trans_eq ?_)
  rw [pow_succ]
  ring

/-- **A merge combines such moments.** -/
theorem combine : Tame n k l r (i + j + 1) (Moments.combine a b) := by
  have o := operands h ha hb hij
  have hn : 2 ^ n ≤ 2 ^ (n + k) := Nat.pow_le_pow_right (by decide) (by omega)
  have hroom {t e : ℕ} (ht : t ≤ 3 * (i + j + 1)) (he : e ≤ 4 * r + 6 * (n + k) + 3 * l + 13) :
      Room α t e := by
    refine h.room (a := n + 2) (ht.trans ?_) (by omega) (by omega)
    rw [pow_add]
    omega
  exact {
    weight := (weight_add h ha hb hij).1
    least := (weight_add h ha hb hij).2
    mean_finite := (mean_combine h ha hb hij).1
    mean := (mean_combine h ha hb hij).2
    m2 := (ha.m2.add hb.m2 (hroom (by omega) (by omega))).add (o.second h)
      (hroom (by omega) (by omega))
    m3 := by
      have := (((ha.m3.add hb.m3 (hroom (by omega) (by omega))).add (o.third h)
        (hroom (by omega) (by omega))).add (o.third_of_second h hb.m2 ha.m2 (by omega))
        (hroom (by omega) (by omega)))
      rwa [show 2 * i + 2 * j + 1 + 1 = 2 * (i + j + 1) by omega] at this
    m4 := by
      have := ((((ha.m4.add hb.m4 (hroom (by omega) (by omega))).add (o.fourth h)
        (hroom (by omega) (by omega))).add (o.fourth_of_second h hb.m2 ha.m2 (by omega))
        (hroom (by omega) (by omega))).add (o.fourth_of_third h hb.m3 ha.m3 (by omega))
        (hroom (by omega) (by omega)))
      rwa [show 3 * i + 3 * j + 1 + 1 + 1 = 3 * (i + j + 1) by omega] at this }

end Tame

end Moments

end RunningStats
