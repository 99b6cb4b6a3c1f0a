import RunningStats.Proofs.Binary.Compensation
import RunningStats.Proofs.Binary.Growth

/-!
# Answers that are numbers

When a query of a session whose observations were all accepted may answer with something that is
no number.

* At any scale: weights add up to an amount and the second moment never falls below zero
  (`Moments.notBelow_m2_merge`, `Summary.amounts_tracks`), so what is made of the variance is a
  number unless the second moment has overflowed (`Summary.spread_defined`), and what is made of the
  sums below zero unless one of them has (`Summary.downside_defined`).
* Within bounds (`Summary.Within`): no moment overflows (`Summary.tame_tracks`), the corrections for
  the number of observations are small (`Moments.upTo_skewness_correction`,
  `Moments.upTo_kurtosis_corrections`), and the skewness and the kurtosis are numbers as long as
  the powers of the spread that they divide by are not zero (`Moments.skewness_defined`,
  `Moments.kurtosis_defined`). The guard of these queries asks for a second moment that is not
  zero; its square and the cube of its root may still vanish.
* **`Summary.session_answers_defined`** says all of this of sessions;
  `Summary.session_answers_undefined` has sessions outside these conditions.
-/

namespace RunningStats

open Binary (Rounds Representable Step limit)
open RoundedScalar BinaryScalar

variable {α : Type} [Scalar α] [BinaryScalar α]

/-! ## Counts -/

section Counts

variable {n : UInt64} {x w : α} {i e : ℕ}

theorem atLeast_ofCount (hn : 2 ^ e ≤ n.toNat) : AtLeast e (Scalar.ofCount n : α) := by
  refine ⟨finite_ofCount n, ((nearest_ofCount n).rounds (finite_ofCount n)).ge
    (.two_zpow (minExponent_nonpos.trans (Int.natCast_nonneg e))) ?_⟩
  rw [zpow_natCast]
  exact_mod_cast hn

/-- A count of at least two, less one, is at least one, whether it has been rounded or not. -/
theorem atLeast_ofCount_pred (hn : 2 ≤ n) : AtLeast 0 (Scalar.ofCount n - 1 : α) := by
  obtain ⟨hf, h2⟩ := atLeast_ofCount (α := α) (e := 1) (UInt64.le_iff_toNat_le.mp hn)
  have hnear := nearest_sub hf isFinite_one
  have h2 : 2 ≤ toRat (Scalar.ofCount n : α) := by simpa using h2
  obtain ⟨hf', hge, -⟩ := hnear.between (x := 1) (y := Scalar.ofCount n)
    (by rw [toRat_one]; linarith) (by rw [toRat_one]; linarith)
  rw [toRat_one] at hge
  exact ⟨hf', by simpa using hge⟩

/-- **A corrected quotient** of a finite amount by an amount that is not zero is an amount. -/
theorem isAmount_corrected (hx : IsAmount x) (hf : Scalar.isFinite x) (hw : IsAmount w)
    (hzero : ¬ Scalar.isZero w) (hn : 2 ≤ n) :
    IsAmount (x / w * Scalar.ofCount n / (Scalar.ofCount n - 1)) := by
  have hcount := atLeast_ofCount (α := α) (e := 1) (UInt64.le_iff_toNat_le.mp hn)
  have hpred := atLeast_ofCount_pred (α := α) hn
  exact ((hx.div hw (.inl hf) hzero).mul hcount.isAmount hcount.1 hcount.not_isZero).div
    hpred.isAmount (.inr hpred.1) hpred.not_isZero

variable (α) in
theorem upTo_one (e : ℕ) : UpTo 1 e (1 : α) := by
  refine ⟨isFinite_one, ?_⟩
  rw [toRat_one, abs_one, Nat.cast_one, one_mul]
  exact one_le_pow₀ (by norm_num)

/-- A scalar that is a count. -/
structure IsCount (i : ℕ) (x : α) : Prop where
  finite : Scalar.isFinite x
  toRat_eq : toRat x = i

theorem isCount_ofCount (hn : n.toNat ≤ 2 ^ (spec α).mantissaBits) :
    IsCount n.toNat (Scalar.ofCount n : α) :=
  ⟨finite_ofCount n, toRat_ofCount hn⟩

namespace IsCount

theorem pred (h : IsCount (i + 1) x) (hi : i ≤ 2 ^ (spec α).mantissaBits) :
    IsCount i (x - 1) := by
  have hnear := nearest_sub h.finite isFinite_one
  rw [h.toRat_eq, toRat_one, Nat.cast_succ, add_sub_cancel_right] at hnear
  have hf : Scalar.isFinite (x - 1) :=
    (hnear.between (x := 0) (y := x) (by rw [toRat_zero]; positivity)
      (by rw [h.toRat_eq]; push_cast; linarith)).1
  exact ⟨hf, (hnear.rounds hf).eq (representable_natCast α hi)⟩

theorem upTo (h : IsCount i x) (hi : i ≤ 2 ^ e) : UpTo 1 e x := by
  refine ⟨h.finite, ?_⟩
  rw [h.toRat_eq, Nat.abs_cast, Nat.cast_one, one_mul]
  exact_mod_cast hi

theorem atLeast (h : IsCount i x) (hi : 2 ^ e ≤ i) : AtLeast e x := by
  refine ⟨h.finite, ?_⟩
  rw [h.toRat_eq, zpow_natCast]
  exact_mod_cast hi

end IsCount

end Counts

/-- A sum is not zero if one of its terms is not. -/
theorem IsAmount.add_not_isZero {x y : α} (hx : IsAmount x) (hy : IsAmount y)
    (hzero : ¬ Scalar.isZero x) : ¬ Scalar.isZero (x + y) := fun hz => by
  have hf := isFinite_of_isZero hz
  obtain ⟨hfx, -⟩ := finite_of_add hf
  have hle := toRat_le_add hy.notBelow hf
  rw [(isZero_iff_toRat hf).mp hz] at hle
  exact hzero ((isZero_iff_toRat hfx).mpr (le_antisymm hle (hx.toRat_nonneg hfx)))

namespace Moments

/-! ## Second moments of any data -/

variable {a b m : Moments α}

/-- **A merge does not take the second moment below zero**, though it may leave no number. -/
theorem notBelow_m2_merge (ha : NotBelow a.m2) (hb : NotBelow b.m2) (hwa : IsAmount a.weight)
    (hwb : IsAmount b.weight) : NotBelow (a.merge b).m2 := by
  rcases merge_cases a b with ⟨-, h⟩ | ⟨-, h⟩ | ⟨hza, -, h⟩ <;> rw [h]
  · exact ha
  · exact hb
  · have hd := notBelow_mul_self (b.mean - a.mean)
    exact (ha.add hb).add (notBelow_div ((hd.mul hwa.notBelow).mul hwb.notBelow)
      (hwa.add hwb).notBelow (hwa.add_not_isZero hwb hza))

/-! ## Corrected estimators of bounded data -/

section

variable {n k l r j i : ℕ} {N : UInt64}

/-- The power of two just below a count. -/
theorem exists_pow_le_lt (i : ℕ) : ∃ e, 2 ^ e ≤ i + 1 ∧ i + 1 < 2 ^ (e + 1) :=
  ⟨Nat.log 2 (i + 1), Nat.pow_log_le_self 2 (by omega), Nat.lt_pow_succ_log_self (by norm_num) _⟩

variable (h : Spacious (spec α) (n + k) l r)
include h

/-- The correction of the skewness is small. -/
theorem upTo_skewness_correction {x : α} (hx : IsCount (i + 3) x) (hi : i + 3 ≤ 2 ^ n) :
    UpTo 1 4 (x * x / ((x - 1) * (x - 1 - 1))) := by
  have hn := h.count_le (n := n) (by omega)
  obtain ⟨e, hle, hlt⟩ := exists_pow_le_lt i
  have hen : e ≤ n := (Nat.pow_le_pow_iff_right (by decide)).mp (hle.trans (by omega))
  have hx1 := hx.pred (i := i + 2) (by omega)
  have hx2 := hx1.pred (i := i + 1) (by omega)
  have hpow : 2 ^ (e + 2) = 2 * 2 ^ (e + 1) := pow_succ' 2 (e + 1)
  have hux := hx.upTo (e := e + 2) (by omega)
  have hprod := (hx1.upTo (e := e + 2) (by omega)).mul (hx2.upTo (e := e + 2) (by omega))
    (h.one (by omega))
  have hleast := (hx1.atLeast (e := e) (by omega)).mul (hx2.atLeast (e := e) (by omega)) hprod.1
    (minExponent_nonpos.trans (by omega))
  exact (hux.mul hux (h.one (by omega))).div hleast (by omega) (h.one (by omega))

/-- The corrections of the kurtosis are small. -/
theorem upTo_kurtosis_corrections {x : α} (hx : IsCount (i + 4) x) (hi : i + 4 ≤ 2 ^ n) :
    UpTo 1 7 (x * x * (x + 1) / ((x - 1) * (x - 1 - 1) * (x - 1 - 1 - 1))) ∧
      Scalar.isFinite (Scalar.ofCount 3 * (x - 1) * (x - 1) /
        ((x - 1 - 1) * (x - 1 - 1 - 1))) := by
  have hn := h.count_le (n := n) (by omega)
  obtain ⟨e, hle, hlt⟩ := exists_pow_le_lt i
  have hen : e ≤ n := (Nat.pow_le_pow_iff_right (by decide)).mp (hle.trans (by omega))
  have hmin {t : ℤ} (ht : 0 ≤ t) : (spec α).minExponent ≤ t := minExponent_nonpos.trans ht
  have hx1 := hx.pred (i := i + 3) (by omega)
  have hx2 := hx1.pred (i := i + 2) (by omega)
  have hx3 := hx2.pred (i := i + 1) (by omega)
  have hpow : 2 ^ (e + 2) = 2 * 2 ^ (e + 1) := pow_succ' 2 (e + 1)
  have hux := hx.upTo (e := e + 2) (by omega)
  have hu1 := hx1.upTo (e := e + 2) (by omega)
  have hu2 := hx2.upTo (e := e + 2) (by omega)
  have hu3 := hx3.upTo (e := e + 2) (by omega)
  have hsucc : UpTo 1 (1 + (e + 2)) (x + 1) :=
    (hux.add (upTo_one α (e + 2)) (h.room (a := 1) (by simp) (by omega) (by omega))).pow (by simp)
  have h12 := hu1.mul hu2 (h.one (by omega))
  have h23 := hu2.mul hu3 (h.one (by omega))
  have h123 := h12.mul hu3 (h.one (by omega))
  have hl3 := hx3.atLeast (e := e) (by omega)
  have hl12 := (hx1.atLeast (e := e) (by omega)).mul (hx2.atLeast (e := e) (by omega)) h12.1
    (hmin (by omega))
  have hthree : UpTo 1 2 (Scalar.ofCount 3 : α) := upTo_ofCount (by decide) (h.one (by omega))
  have hshift : UpTo 1 6 (Scalar.ofCount 3 * (x - 1) * (x - 1) /
      ((x - 1 - 1) * (x - 1 - 1 - 1))) :=
    ((hthree.mul hu1 (h.one (by omega))).mul hu1 (h.one (by omega))).div
      ((hx2.atLeast (e := e) (by omega)).mul hl3 h23.1 (hmin (by omega))) (by omega)
      (h.one (by omega))
  exact ⟨((hux.mul hux (h.one (by omega))).mul hsucc (h.one (by omega))).div
    (hl12.mul hl3 h123.1 (hmin (by omega))) (by omega) (h.one (by omega)), hshift.1⟩

variable (hm : Tame n k l r j m) (hj : j + 1 ≤ 2 ^ n) (hN : N.toNat ≤ 2 ^ n)
include hm hj hN

/-- **The skewness is a number** unless its divisor is zero. -/
theorem skewness_defined (h3 : 3 ≤ N) (hv : IsAmount (m.variance N))
    (hzero : ¬ Scalar.isZero (Scalar.sqrt (m.variance N) * Scalar.sqrt (m.variance N) *
      Scalar.sqrt (m.variance N))) : ¬ NotANumber (m.skewness N) := by
  have hp := h.count_le (n := n) (by omega)
  obtain ⟨i, hi⟩ := Nat.exists_eq_add_of_le' (UInt64.le_iff_toNat_le.mp h3)
  change N.toNat = i + 3 at hi
  have hcount := isCount_ofCount (α := α) (hN.trans hp)
  rw [hi] at hcount
  have hroom : Room α (2 * j) (3 * r + 4 * (n + k) + 3 * l + 8) :=
    h.room (a := n + 1) (by rw [pow_succ]; omega) (by omega) (by omega)
  have hroom' : Room α (2 * j) (4 + (3 * r + 4 * (n + k) + 3 * l + 8)) :=
    h.room (a := n + 1) (by rw [pow_succ]; omega) (by omega) (by omega)
  have hnum := (upTo_skewness_correction h hcount (by omega)).mul
    (hm.m3.div hm.least (by omega) hroom) hroom'
  exact not_notANumber_finite_div hnum.1 (not_notANumber_cube hv.sqrt.defined hzero) hzero

/-- **The kurtosis is a number** unless its divisor is zero. -/
theorem kurtosis_defined (h4 : 4 ≤ N) (hv : IsAmount (m.variance N))
    (hzero : ¬ Scalar.isZero (m.variance N * m.variance N)) :
    ¬ NotANumber (m.kurtosis N) := by
  have hp := h.count_le (n := n) (by omega)
  obtain ⟨i, hi⟩ := Nat.exists_eq_add_of_le' (UInt64.le_iff_toNat_le.mp h4)
  change N.toNat = i + 4 at hi
  have hcount := isCount_ofCount (α := α) (hN.trans hp)
  rw [hi] at hcount
  have hroom {e : ℕ} (he : e ≤ 4 * r + 6 * (n + k) + 4 * l + 20) : Room α (3 * j) e :=
    h.room (a := n + 2) (by rw [pow_add]; omega) (by omega) (by omega)
  obtain ⟨hscale, hshift⟩ := upTo_kurtosis_corrections h hcount (by omega)
  have hnum := hscale.mul (hm.m4.div (g := 4 * r + 6 * (n + k) + 4 * l + 13) hm.least (by omega)
    (hroom (by omega))) (hroom (by omega))
  exact not_notANumber_sub (not_notANumber_finite_div hnum.1
    (not_notANumber_mul_self hv.defined) hzero) hshift

end

end Moments

/-! ## Sessions -/

namespace Summary

variable {n k l r : ℕ} {H K : Multiset (Observation α)} {s : Summary α} {v : α}

/-- The values are no larger than `2 ^ r` where they carry weight, and the weights that count lie
between `2 ^ -l` and `2 ^ k`. -/
def Within (k l r : ℕ) (H : Multiset (Observation α)) : Prop :=
  ∀ o ∈ H, Scalar.isZero o.weight ∨
    2 ^ (-l : ℤ) ≤ toRat o.weight ∧ toRat o.weight ≤ 2 ^ k ∧ |toRat o.value| ≤ 2 ^ r

instance : Decidable (Within k l r H) := inferInstanceAs (Decidable (∀ o ∈ H, _))

/-- The moments of one observation within the bounds. -/
theorem tame_point {o : Observation α} (ho : o.Valid) (hl : 2 ^ (-l : ℤ) ≤ toRat o.weight)
    (hk : toRat o.weight ≤ 2 ^ k) (hr : |toRat o.value| ≤ 2 ^ r) :
    Moments.Tame n k l r 0 (.point o.value o.weight) := by
  have h0 : 0 ≤ toRat o.weight := (Binary.two_zpow_pos _).le.trans hl
  have hzero (e : ℕ) : UpTo 0 e (0 : α) :=
    ⟨isFinite_of_isZero isZero_zero, by rw [toRat_zero]; simp⟩
  exact {
    weight := ⟨ho.1, by
      show |toRat o.weight| ≤ _
      rw [abs_of_nonneg h0]
      simpa using hk⟩
    least := ⟨ho.1, hl⟩
    mean_finite := ho.2.2
    mean := by
      show 2 ^ n * |toRat o.value| ≤ _
      rw [Nat.cast_zero, add_zero]
      gcongr
    m2 := hzero _
    m3 := hzero _
    m4 := hzero _ }

/-- The weight under a name is an amount, and the second moment not below zero. -/
theorem amounts_tracks : Tracks fun (s : Summary α) H => Describes s H ∧
    IsAmount s.moments.weight ∧ NotBelow s.moments.m2 := by
  have hzero : NotBelow (0 : α) := isAmount_zero.notBelow
  exact tracks_moments (P := fun m _ => IsAmount m.weight ∧ NotBelow m.m2)
    ⟨isAmount_zero, hzero⟩ (fun ho => ⟨isAmount_of_valid ho, hzero⟩)
    fun ha hb => ⟨Moments.isAmount_merge ha.1 hb.1,
      Moments.notBelow_m2_merge ha.2 hb.2 ha.1 hb.1⟩

/-- **The moments of bounded data** stay within their bounds. -/
theorem tame_tracks (h : Moments.Spacious (spec α) (n + k) l r) :
    Tracks fun (s : Summary α) H => Describes s H ∧ (Within k l r H → H.card ≤ 2 ^ n →
      Scalar.isZero s.moments.weight ∨
        ∃ j, j + 1 ≤ H.card ∧ Moments.Tame n k l r j s.moments) := by
  refine tracks_moments (P := fun m H => Within k l r H → H.card ≤ 2 ^ n →
    Scalar.isZero m.weight ∨ ∃ j, j + 1 ≤ H.card ∧ Moments.Tame n k l r j m) ?_ ?_ ?_
  · exact fun _ _ => .inl isZero_zero
  · intro o ho hH _
    rcases hH o (Multiset.mem_singleton_self o) with hz | ⟨hl, hk, hr⟩
    · exact .inl hz
    · exact .inr ⟨0, le_of_eq (Multiset.card_singleton o).symm, tame_point ho hl hk hr⟩
  · intro a b H K ha hb hHK hc
    have hcard : (H + K).card = H.card + K.card := Multiset.card_add H K
    have ha := ha (fun o ho => hHK o (Multiset.mem_add.mpr (.inl ho))) (by omega)
    have hb := hb (fun o ho => hHK o (Multiset.mem_add.mpr (.inr ho))) (by omega)
    rcases Moments.merge_cases a b with ⟨-, he⟩ | ⟨-, he⟩ | ⟨hza, hzb, he⟩ <;> rw [he]
    · exact ha.imp id fun ⟨j, hj, hm⟩ => ⟨j, by omega, hm⟩
    · exact hb.imp id fun ⟨j, hj, hm⟩ => ⟨j, by omega, hm⟩
    · obtain ⟨i, hi, ha⟩ := ha.resolve_left hza
      obtain ⟨j, hj, hb⟩ := hb.resolve_left hzb
      exact .inr ⟨i + j + 1, by omega, Moments.Tame.combine h ha hb (by omega)⟩

/-- A sum of terms below zero that are no larger than `2 ^ e` is finite. -/
theorem SumsBelow.finite {total : Summary α → CompensatedSum α} {term : Observation α → α} {e : ℕ}
    (h : SumsBelow total term) (hroom : Moments.Spacious (spec α) (n + k) l r) (he : e ≤ k + 2 * r)
    {ω : Type} [Wide α ω] (cs : List (String × Command α)) (name : String)
    (hc : (held cs name).card < 2 ^ 64) (hn : (held cs name).card ≤ 2 ^ n)
    (hterm : ∀ o ∈ held cs name, o.value < 0 → UpTo 1 e (term o)) :
    Scalar.isFinite (total (session cs name)).sum := by
  obtain ⟨-, -, hcapped⟩ := (h.tracks e).run cs name hc
  have hr : Room α (8 * (held cs name).card) e :=
    hroom.room (a := n + 3) (by rw [pow_add]; omega) (by omega) (by omega)
  refine (hcapped (fun o ho hneg => ?_) ?_ hr.2).finite
  · obtain ⟨hf, hle⟩ := hterm o ho hneg
    exact ⟨hf, (le_abs_self _).trans (by simpa using hle)⟩
  · calc 32 * (held cs name).card ≤ 2 ^ (5 + n) := by rw [pow_add]; omega
      _ ≤ 2 ^ (spec α).mantissaBits := hroom.count_le (by omega)

/-- What an observation within the bounds adds to the sums below zero. -/
theorem Within.terms (hH : Within k l r H) (hroom : Moments.Spacious (spec α) (n + k) l r)
    {o : Observation α} (ho : o.Valid) (hm : o ∈ H) :
    UpTo 1 k o.weight ∧ UpTo 1 (k + 2 * r) (o.weight * o.value * o.value) := by
  have hzero {x : α} (hx : Scalar.isZero x) (e : ℕ) : UpTo 1 e x := by
    have hf := isFinite_of_isZero hx
    exact ⟨hf, by rw [(isZero_iff_toRat hf).mp hx, abs_zero]; positivity⟩
  rcases hH o hm with hz | ⟨hl, hk, hr⟩
  · exact ⟨hzero hz k, hzero (isZero_mul (isZero_mul hz ho.2.2) ho.2.2) _⟩
  · have hw : UpTo 1 k o.weight := by
      refine ⟨ho.1, ?_⟩
      rw [abs_of_pos ((Binary.two_zpow_pos _).trans_le hl)]
      simpa using hk
    have hv : UpTo 1 r o.value := ⟨ho.2.2, by simpa using hr⟩
    exact ⟨hw, ((hw.mul hv (hroom.one (by omega))).mul hv (hroom.one (by omega))).raise (by omega)⟩

/-! ## Answers -/

variable {ω : Type}

/-- Where there is an answer, it is a number. -/
def Defined (q : Except (Fault ω) α) : Prop := ∀ x, q = .ok x → Scalar.undefined x = false

theorem defined_of {q : Except (Fault ω) α} (h : ∀ x, q = .ok x → ¬ NotANumber x) : Defined q :=
  fun x hx => Bool.eq_false_iff.mpr fun hu => h x hx (undefined_iff.mp hu)

theorem isAmount_variance (hw : IsAmount s.moments.weight) (hm : NotBelow s.moments.m2)
    (hf : ¬ Scalar.isZero s.moments.weight → Scalar.isFinite s.moments.m2)
    (h : (s.variance : Except (Fault ω) α) = .ok v) : IsAmount v := by
  obtain ⟨h2, hz, rfl⟩ := of_variance h
  exact isAmount_corrected ⟨hm, not_notANumber_of_finite (hf hz)⟩ (hf hz) hw hz h2

/-- What is made of the variance is a number, if the second moment has not overflowed. -/
theorem spread_defined (hw : IsAmount s.moments.weight) (hm : NotBelow s.moments.m2)
    (hf : ¬ Scalar.isZero s.moments.weight → Scalar.isFinite s.moments.m2) :
    Defined (s.variance : Except (Fault ω) α) ∧
      Defined (s.standardDeviation : Except (Fault ω) α) ∧
      Defined (s.standardError : Except (Fault ω) α) := by
  have hv {v : α} (h : (s.variance : Except (Fault ω) α) = .ok v) : IsAmount v :=
    isAmount_variance hw hm hf h
  refine ⟨defined_of fun x hx => (hv hx).defined, defined_of fun x hx => ?_,
    defined_of fun x hx => ?_⟩
  · obtain ⟨v, h, rfl⟩ := of_standardDeviation hx
    exact (hv h).sqrt.defined
  · obtain ⟨v, h, rfl⟩ := of_standardError hx
    have hcount := atLeast_ofCount (α := α) (e := 1)
      (UInt64.le_iff_toNat_le.mp (of_variance h).1)
    exact ((hv h).div hcount.isAmount (.inr hcount.1) hcount.not_isZero).sqrt.defined

/-- The downside variance is a number, if neither of its sums has overflowed. -/
theorem downside_defined (hw : s.downsideWeight.Steady) (hq : s.downsideSquares.Steady)
    (hfw : Scalar.isFinite s.downsideWeight.sum) (hfq : Scalar.isFinite s.downsideSquares.sum) :
    Defined (s.downsideVariance : Except (Fault ω) α) ∧
      Defined (s.downsideDeviation : Except (Fault ω) α) := by
  have hv {v : α} (h : (s.downsideVariance : Except (Fault ω) α) = .ok v) : IsAmount v := by
    obtain ⟨h2, hz, rfl⟩ := of_downsideVariance h
    exact isAmount_corrected (isAmount_of_finite hfq (hq hfq).1) hfq
      (isAmount_of_finite hfw (hw hfw).1) hz h2
  refine ⟨defined_of fun x hx => (hv hx).defined, defined_of fun x hx => ?_⟩
  obtain ⟨v, h, rfl⟩ := of_downsideDeviation hx
  exact (hv h).sqrt.defined

section

variable {j : ℕ} (h : Moments.Spacious (spec α) (n + k) l r)
  (hm : Moments.Tame n k l r j s.moments) (hj : j + 1 ≤ 2 ^ n) (hN : s.samples.toNat ≤ 2 ^ n)
  (hv : ∀ v, (s.variance : Except (Fault ω) α) = .ok v → IsAmount v)
include h hm hj hN hv

theorem skewness_defined (hzero : ∀ sd, (s.standardDeviation : Except (Fault ω) α) = .ok sd →
    ¬ Scalar.isZero (sd * sd * sd)) : Defined (s.skewness : Except (Fault ω) α) :=
  defined_of fun x hx => by
    obtain ⟨h3, hz, rfl⟩ := of_skewness hx
    have hvar := variance_ok (ω := ω) (UInt64.le_trans (by decide) h3) hz
    exact Moments.skewness_defined h hm hj hN h3 (hv _ hvar)
      (hzero _ (by rw [standardDeviation, hvar]; rfl))

theorem kurtosis_defined (hzero : ∀ v, (s.variance : Except (Fault ω) α) = .ok v →
    ¬ Scalar.isZero (v * v)) : Defined (s.kurtosis : Except (Fault ω) α) :=
  defined_of fun x hx => by
    obtain ⟨h4, hz, rfl⟩ := of_kurtosis hx
    have hvar := variance_ok (ω := ω) (UInt64.le_trans (by decide) h4) hz
    exact Moments.kurtosis_defined h hm hj hN h4 (hv _ hvar) (hzero _ hvar)

end

variable [Wide α ω]

/-- **Answers are numbers.** The sum of the weights always is one. The variance, its root and the
standard error are, unless the second moment has overflowed; those of the values below zero are,
unless one of their sums has. Of data for which the format has the room, all nine are numbers, the
skewness and the kurtosis unless the power of the spread that they divide by is zero. -/
theorem session_answers_defined (cs : List (String × Command α)) (name : String)
    (hc : (held cs name).card < 2 ^ 64) :
    let s := session cs name
    Scalar.undefined s.weightSum = false ∧
    (Scalar.isFinite s.moments.m2 → Defined (s.variance : Except (Fault ω) α) ∧
      Defined (s.standardDeviation : Except (Fault ω) α) ∧
      Defined (s.standardError : Except (Fault ω) α)) ∧
    (Scalar.isFinite s.downsideWeight.sum → Scalar.isFinite s.downsideSquares.sum →
      Defined (s.downsideVariance : Except (Fault ω) α) ∧
      Defined (s.downsideDeviation : Except (Fault ω) α)) ∧
    ∀ n k l r, Moments.Spacious (spec α) (n + k) l r → (held cs name).card ≤ 2 ^ n →
      Within k l r (held cs name) →
      Defined (s.mean : Except (Fault ω) α) ∧
      Defined (s.variance : Except (Fault ω) α) ∧
      Defined (s.standardDeviation : Except (Fault ω) α) ∧
      Defined (s.standardError : Except (Fault ω) α) ∧
      Defined (s.downsideVariance : Except (Fault ω) α) ∧
      Defined (s.downsideDeviation : Except (Fault ω) α) ∧
      ((∀ sd, (s.standardDeviation : Except (Fault ω) α) = .ok sd →
        ¬ Scalar.isZero (sd * sd * sd)) → Defined (s.skewness : Except (Fault ω) α)) ∧
      ((∀ v, (s.variance : Except (Fault ω) α) = .ok v → ¬ Scalar.isZero (v * v)) →
        Defined (s.kurtosis : Except (Fault ω) α)) := by
  intro s
  obtain ⟨hd, hw, hm⟩ := amounts_tracks.run cs name hc
  obtain ⟨-, hsw, -⟩ := (sumsBelow_weight.tracks 0).run cs name hc
  obtain ⟨-, hsq, -⟩ := (sumsBelow_squares.tracks 0).run cs name hc
  refine ⟨Bool.eq_false_iff.mpr fun hu => hw.defined (undefined_iff.mp hu),
    fun hf => spread_defined hw hm fun _ => hf, fun hfw hfq => downside_defined hsw hsq hfw hfq,
    fun n k l r hroom hn hH => ?_⟩
  have hterms {o : Observation α} (ho : o ∈ held cs name) := hH.terms hroom (hd.valid o ho) ho
  have hfw := sumsBelow_weight.finite hroom (by omega) cs name hc hn fun o ho _ => (hterms ho).1
  have hfq := sumsBelow_squares.finite hroom (le_refl _) cs name hc hn
    fun o ho _ => (hterms ho).2
  -- without any weight none of the moments is asked for
  have htame (hz : ¬ Scalar.isZero s.moments.weight) :=
    (((tame_tracks hroom).run cs name hc).2 hH hn).resolve_left hz
  have hf (hz : ¬ Scalar.isZero s.moments.weight) : Scalar.isFinite s.moments.m2 := by
    obtain ⟨j, -, ht⟩ := htame hz
    exact ht.m2.1
  have hv (v : α) (h : (s.variance : Except (Fault ω) α) = .ok v) : IsAmount v :=
    isAmount_variance hw hm hf h
  have hN : s.samples.toNat ≤ 2 ^ n := hd.samples.trans_le hn
  obtain ⟨h1, h2, h3⟩ := spread_defined (ω := ω) hw hm hf
  obtain ⟨h4, h5⟩ := downside_defined (ω := ω) hsw hsq hfw hfq
  refine ⟨defined_of fun x hx => ?_, h1, h2, h3, h4, h5, fun hzero => ?_, fun hzero => ?_⟩
  · obtain ⟨-, hz, rfl⟩ := of_mean hx
    obtain ⟨j, -, ht⟩ := htame hz
    exact not_notANumber_of_finite ht.mean_finite
  · intro x hx
    obtain ⟨j, hj, ht⟩ := htame (of_skewness hx).2.1
    exact skewness_defined hroom ht (hj.trans hn) hN hv hzero x hx
  · intro x hx
    obtain ⟨j, hj, ht⟩ := htame (of_kurtosis hx).2.1
    exact kurtosis_defined hroom ht (hj.trans hn) hN hv hzero x hx

/-- Five observations with weights from a half to a thousand, one of them outside the bounds but
without weight. -/
theorem session_answers_defined_float :
    let cs : List (String × Command Float) :=
      [("a", .addWeighted [-3, 0.1, -1e6] [0.5, 4.5, 1e3]), ("b", .add ⟨1e300, 0⟩),
        ("b", .addValue 7), ("b", .merge "a")]
    let s := session cs "b"
    (held cs "b").card < 2 ^ 64 ∧ Moments.Spacious (spec Float) (3 + 10) 1 20 ∧
      (∃ x, (s.downsideVariance : Except (Fault Float) Float) = .ok x ∧
        Scalar.undefined x = false) ∧
      (∃ x, (s.skewness : Except (Fault Float) Float) = .ok x ∧ Scalar.undefined x = false) ∧
      ∃ x, (s.kurtosis : Except (Fault Float) Float) = .ok x ∧ Scalar.undefined x = false := by
  intro cs s
  have hc : (held cs "b").card < 2 ^ 64 := by decide +kernel
  have hroom : Moments.Spacious (spec Float) (3 + 10) 1 20 := ⟨by decide, by decide⟩
  obtain ⟨-, -, -, hall⟩ := session_answers_defined (ω := Float) cs "b" hc
  obtain ⟨-, -, -, -, hdown, -, hskew, hkurt⟩ := hall 3 10 1 20 hroom (by decide +kernel)
    (by decide +kernel)
  have hd : (s.downsideVariance : Except (Fault Float) Float) =
      .ok (s.downsideSquares.sum / s.downsideWeight.sum * Scalar.ofCount s.downsideSamples /
        (Scalar.ofCount s.downsideSamples - 1)) := by decide +kernel
  have hs : (s.skewness : Except (Fault Float) Float) = .ok (s.moments.skewness s.samples) := by
    decide +kernel
  have hk : (s.kurtosis : Except (Fault Float) Float) = .ok (s.moments.kurtosis s.samples) := by
    decide +kernel
  refine ⟨hc, hroom, ⟨_, hd, hdown _ hd⟩, ⟨_, hs, hskew (fun sd h => ?_) _ hs⟩,
    ⟨_, hk, hkurt (fun v h => ?_) _ hk⟩⟩
  · obtain ⟨v, hv, rfl⟩ := of_standardDeviation h
    obtain ⟨-, -, rfl⟩ := of_variance hv
    decide +kernel
  · obtain ⟨-, -, rfl⟩ := of_variance h
    decide +kernel

/-- Small weights make the fourth moment no number, a small spread leaves the kurtosis a zero to
divide by, the difference of large values overflows, and so does the square of a large one. -/
theorem session_answers_undefined :
    let light : List (String × Command Float) :=
      [("a", .addWeighted [1, 2, 3, 4] [1e-121, 1e-121, 1e-121, 1e-121])]
    let narrow : List (String × Command Float) :=
      [("a", .addValues [1e-100, 2e-100, 3e-100, 4e-100])]
    let wide : List (String × Command Float) := [("a", .addValues [1e308, -1e308, 1e308])]
    let deep : List (String × Command Float) := [("a", .addValues [-1e200, -1e200])]
    (∃ x, ((session light "a").kurtosis : Except (Fault Float) Float) = .ok x ∧
        Scalar.undefined x) ∧
      (∃ x, ((session narrow "a").kurtosis : Except (Fault Float) Float) = .ok x ∧
        Scalar.undefined x) ∧
      (∃ x, ((session wide "a").mean : Except (Fault Float) Float) = .ok x ∧
        Scalar.undefined x) ∧
      ∃ x, ((session deep "a").downsideVariance : Except (Fault Float) Float) = .ok x ∧
        Scalar.undefined x := by
  intro light narrow wide deep
  exact ⟨⟨(session light "a").moments.kurtosis 4, by decide +kernel, by decide +kernel⟩,
    ⟨(session narrow "a").moments.kurtosis 4, by decide +kernel, by decide +kernel⟩,
    ⟨(session wide "a").moments.mean, by decide +kernel, by decide +kernel⟩,
    ⟨(session deep "a").downsideSquares.sum / 2 * 2 / 1, by decide +kernel, by decide +kernel⟩⟩

end Summary

end RunningStats
