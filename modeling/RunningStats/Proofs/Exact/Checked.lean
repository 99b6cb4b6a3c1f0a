import RunningStats.Proofs.Exact.Merging
import RunningStats.Proofs.Exact.Queries
import RunningStats.Proofs.Exact.TwoPass
import RunningStats.Moments.Estimators

/-!
# Scalars that notice an undefined operation

In a field a division by zero has a value, and so has the root of a negative number over the
reals, so neither can be told from the result. A `Checked` scalar is a number or `failed`. A
division by zero and the root of a negative number fail, and so does every operation on an operand
that has failed; what has failed is not finite, is not zero and compares with nothing. As every
statistic is written over an arbitrary scalar type, it runs over this one as it stands, and where
its results are numbers no operation that they depend on was undefined.

Numbers go through every operation unchanged as long as its divisors are not zero and its
radicands not negative. The lemmas below say so for sums, moments and estimators, each with what it
asks of the moments in the place of its guards.

* `operation_failed`: what has failed stays failed, on either side of an operation;
* `Moments.merge_number`, `Moments.ofObservations_number`: moments are built without failing where
  no weight is negative;
* `Moments.skewness_number`, `Moments.kurtosis_number`: the estimators, where there is spread.
-/

namespace RunningStats

/-- A number, or the result of an operation that has none. -/
inductive Checked (K : Type) where
  | number (x : K)
  | failed

namespace Checked

variable {K : Type}

/-- An operation on numbers, which fails if its operand has. -/
def lift (f : K → Checked K) : Checked K → Checked K
  | number x => f x
  | failed => failed

/-- An operation on two numbers, which fails if either operand has. -/
def lift₂ (f : K → K → Checked K) : Checked K → Checked K → Checked K
  | number x, number y => f x y
  | _, _ => failed

/-- A relation between numbers, which holds of nothing that has failed. -/
def Related (r : K → K → Prop) : Checked K → Checked K → Prop
  | number x, number y => r x y
  | _, _ => False

instance (r : K → K → Prop) [DecidableRel r] : DecidableRel (Related r)
  | number x, number y => inferInstanceAs (Decidable (r x y))
  | number _, failed => isFalse id
  | failed, _ => isFalse id

variable [ExactScalar K]

/-- Equality of numbers. What has failed equals itself, so that it does not pass for an undefined
operand, which would be passed over for the other one. -/
def eq : Checked K → Checked K → Bool
  | number x, number y => x == y
  | failed, failed => true
  | _, _ => false

instance : Scalar (Checked K) where
  zero := number 0
  one := number 1
  add := lift₂ fun x y => number (x + y)
  sub := lift₂ fun x y => number (x - y)
  mul := lift₂ fun x y => number (x * y)
  div := lift₂ fun x y => if y = 0 then failed else number (x / y)
  neg := lift fun x => number (-x)
  lt := Related fun x y => x < y
  le := Related fun x y => x ≤ y
  beq := eq
  decLt := inferInstanceAs (DecidableRel (Related _))
  decLe := inferInstanceAs (DecidableRel (Related _))
  sqrt := lift fun x => if x < 0 then failed else number (Scalar.sqrt x)
  isFinite
    | number x => Scalar.isFinite x
    | failed => false
  infinity := number Scalar.infinity
  ofCount n := number (Scalar.ofCount n)

/-- A checked type is as wide as itself. -/
instance : Wide (Checked K) (Checked K) := ⟨id, id⟩

/-! ## What fails -/

theorem div_number_zero (x : Checked K) : x / number 0 = failed := by
  cases x with
  | number x => exact if_pos rfl
  | failed => rfl

theorem sqrt_of_neg {x : K} (h : x < 0) : Scalar.sqrt (number x) = failed := if_pos h

/-- **No operation undoes a failure**, on either side. -/
theorem operation_failed (x : Checked K) :
    (x + failed = failed ∧ failed + x = failed) ∧ (x - failed = failed ∧ failed - x = failed) ∧
    (x * failed = failed ∧ failed * x = failed) ∧ (x / failed = failed ∧ failed / x = failed) ∧
    -(failed : Checked K) = failed ∧ Scalar.sqrt (failed : Checked K) = failed := by
  cases x <;> exact ⟨⟨rfl, rfl⟩, ⟨rfl, rfl⟩, ⟨rfl, rfl⟩, ⟨rfl, rfl⟩, rfl, rfl⟩

/-! ## Operations on numbers -/

variable {x y : K}

theorem one_eq : (1 : Checked K) = number 1 := rfl

@[simp] theorem number_add : number x + number y = number (x + y) := rfl

@[simp] theorem number_sub : number x - number y = number (x - y) := rfl

@[simp] theorem number_mul : number x * number y = number (x * y) := rfl

theorem number_div (h : y ≠ 0) : number x / number y = number (x / y) := if_neg h

theorem number_sqrt (h : 0 ≤ x) : Scalar.sqrt (number x) = number (Scalar.sqrt x) :=
  if_neg (not_lt.mpr h)

@[simp] theorem ofCount_eq (n : UInt64) : (Scalar.ofCount n : Checked K) = number (n.toNat : K) :=
  congrArg number (ExactScalar.ofCount_eq n)

@[simp] theorem number_le : number x ≤ number y ↔ x ≤ y := Iff.rfl

@[simp] theorem isZero_number : Scalar.isZero (number x) = Scalar.isZero x := rfl

@[simp] theorem least_number : Scalar.least (number x) (number y) = number (Scalar.least x y) := by
  unfold Scalar.least
  rw [apply_ite number, apply_ite number, apply_ite number]
  rfl

@[simp] theorem greatest_number :
    Scalar.greatest (number x) (number y) = number (Scalar.greatest x y) := by
  unfold Scalar.greatest
  rw [apply_ite number, apply_ite number, apply_ite number]
  rfl

end Checked

open Checked

/-! ## Records of numbers -/

section Map

variable {α β : Type} (f : α → β)

/-- Every field of an observation replaced. -/
def Observation.map (o : Observation α) : Observation β := ⟨f o.value, f o.weight⟩

/-- Both fields of a sum replaced. -/
def CompensatedSum.map (s : CompensatedSum α) : CompensatedSum β := ⟨f s.sum, f s.compensation⟩

/-- Every field of moments replaced. -/
def Moments.map (m : Moments α) : Moments β := ⟨f m.weight, f m.mean, f m.m2, f m.m3, f m.m4⟩

end Map

variable {K : Type} [ExactScalar K]

/-- Only numbers are accepted. -/
theorem Observation.Valid.exists_number {o : Observation (Checked K)} (h : o.Valid) :
    ∃ p : Observation K, p.Valid ∧ o = p.map number := by
  obtain ⟨value, weight⟩ := o
  cases value with
  | failed => exact absurd h.2.2 Bool.false_ne_true
  | number x =>
    cases weight with
    | failed => exact absurd h.1 Bool.false_ne_true
    | number w => exact ⟨⟨x, w⟩, h, rfl⟩

theorem Observation.exists_numbers {os : List (Observation (Checked K))}
    (h : ∀ o ∈ os, o.Valid) :
    ∃ ps : List (Observation K), (∀ p ∈ ps, p.Valid) ∧ os = ps.map (Observation.map number) := by
  induction os with
  | nil => exact ⟨[], fun _ hp => absurd hp List.not_mem_nil, rfl⟩
  | cons o os ih =>
    obtain ⟨p, hp, rfl⟩ := (h o List.mem_cons_self).exists_number
    obtain ⟨ps, hps, rfl⟩ := ih fun o ho => h o (List.mem_cons_of_mem _ ho)
    exact ⟨p :: ps, List.forall_mem_cons.mpr ⟨hp, hps⟩, rfl⟩

namespace CompensatedSum

theorem addAll_number (xs : List K) (s : CompensatedSum K) :
    (s.map number).addAll (xs.map number) = (s.addAll xs).map number := by
  induction xs generalizing s with
  | nil => rfl
  | cons x xs ih => exact ih (s.add x)

end CompensatedSum

namespace Moments

variable {m a b : Moments K}

/-! ## Merging -/

/-- Neither the weight nor the sum of squares is negative. -/
structure Sound (m : Moments K) : Prop where
  weight : 0 ≤ m.weight
  m2 : 0 ≤ m.m2

theorem sound_empty : (empty : Moments K).Sound := ⟨le_rfl, le_rfl⟩

theorem Sound.weight_pos (h : m.Sound) (hz : ¬ Scalar.isZero m.weight) : 0 < m.weight :=
  h.weight.lt_of_ne' (ExactScalar.ne_zero_of_not_isZero hz)

theorem Sound.m2_pos (h : m.Sound) (hz : ¬ Scalar.isZero m.m2) : 0 < m.m2 :=
  h.m2.lt_of_ne' (ExactScalar.ne_zero_of_not_isZero hz)

theorem Sound.merge (ha : a.Sound) (hb : b.Sound) : (a.merge b).Sound := by
  unfold Moments.merge
  split
  · exact ha
  · split
    · exact hb
    · have hwa := ha.weight
      have hwb := hb.weight
      have ha2 := ha.m2
      have hb2 := hb.m2
      have hd := mul_self_nonneg (b.mean - a.mean)
      constructor
      · exact add_nonneg hwa hwb
      · exact add_nonneg (add_nonneg ha2 hb2)
          (div_nonneg (mul_nonneg (mul_nonneg hd hwa) hwb) (add_nonneg hwa hwb))

theorem combine_number (h : a.weight + b.weight ≠ 0) :
    (a.map number).combine (b.map number) = (a.combine b).map number := by
  have h2 := mul_ne_zero h h
  unfold combine Moments.map
  simp only [ofCount_eq, number_add, number_sub, number_mul, number_div h, number_div h2,
    number_div (mul_ne_zero h2 h), ExactScalar.ofCount_eq_natCast]

/-- **Moments merge without failing**, as two weights that are not zero, and not negative, have a
sum that is not zero. -/
theorem merge_number (ha : a.Sound) (hb : b.Sound) :
    (a.map number).merge (b.map number) = (a.merge b).map number := by
  have hza : Scalar.isZero (a.map number).weight = Scalar.isZero a.weight := rfl
  have hzb : Scalar.isZero (b.map number).weight = Scalar.isZero b.weight := rfl
  unfold Moments.merge
  rw [hza, hzb]
  by_cases hb0 : Scalar.isZero b.weight
  · rw [if_pos hb0, if_pos hb0]
  · rw [if_neg hb0, if_neg hb0]
    by_cases ha0 : Scalar.isZero a.weight
    · rw [if_pos ha0, if_pos ha0]
    · rw [if_neg ha0, if_neg ha0]
      exact combine_number (add_pos (ha.weight_pos ha0) (hb.weight_pos hb0)).ne'

/-! ## Two passes -/

theorem total_number {term : Observation K → K} {term' : Observation (Checked K) → Checked K}
    (h : ∀ o, term' (o.map number) = number (term o)) (os : List (Observation K)) :
    total (os.map (Observation.map number)) term' = number (total os term) := by
  have hterms : (os.map (Observation.map number)).map term' = (os.map term).map number := by
    rw [List.map_map, List.map_map]
    exact List.map_congr_left fun o _ => h o
  unfold total CompensatedSum.ofList
  rw [hterms]
  exact congrArg CompensatedSum.sum (CompensatedSum.addAll_number _ CompensatedSum.empty)

theorem weighty_number (os : List (Observation K)) :
    weighty (os.map (Observation.map number)) = (weighty os).map number := by
  unfold weighty
  rw [List.filter_map, List.map_map, List.map_map]
  rfl

theorem extent_number (xs : List K) :
    extent (xs.map number) = (extent xs).map (Prod.map number number) := by
  cases xs with
  | nil => rfl
  | cons x xs =>
    have hfold : ∀ r : K × K,
        (xs.map number).foldl (fun r x => (Scalar.least r.1 x, Scalar.greatest r.2 x))
          (Prod.map number number r) =
        Prod.map number number
          (xs.foldl (fun r x => (Scalar.least r.1 x, Scalar.greatest r.2 x)) r) := by
      induction xs with
      | nil => exact fun _ => rfl
      | cons y ys ih =>
        intro r
        rw [List.map_cons, List.foldl_cons, List.foldl_cons, ← ih]
        simp only [Prod.map_fst, Prod.map_snd, least_number, greatest_number, Prod.map_apply]
    exact congrArg some (hfold (x, x))

theorem around_number (weight mean : K) (os : List (Observation K)) :
    around (number weight) (number mean) (os.map (Observation.map number)) =
      (around weight mean os).map number := by
  unfold around Moments.map
  congr 1 <;> exact total_number (fun _ => rfl) os

/-- **Two passes do not fail**, whatever the observations: the weighted sum is divided only by a
weight that was found not to be zero. -/
theorem ofObservations_number (os : List (Observation K)) :
    ofObservations (os.map (Observation.map number)) = (ofObservations os).map number := by
  have hweight : total (os.map (Observation.map number)) (·.weight) =
      number (total os (·.weight)) := total_number (fun _ => rfl) os
  have hsum : total (os.map (Observation.map number)) (fun o => o.weight * o.value) =
      number (total os fun o => o.weight * o.value) := total_number (fun _ => rfl) os
  unfold ofObservations
  simp only [hweight, hsum, weighty_number, extent_number, isZero_number]
  by_cases h0 : Scalar.isZero (total os (·.weight))
  · rw [if_pos h0, if_pos h0]
    rfl
  · rw [if_neg h0, if_neg h0]
    have hne : total os (·.weight) ≠ 0 := ExactScalar.ne_zero_of_not_isZero h0
    cases extent (weighty os) with
    | none => rfl
    | some r =>
      obtain ⟨lo, hi⟩ := r
      simp only [Option.map_some, Prod.map_apply, number_le, number_div hne, greatest_number,
        least_number, around_number]
      by_cases hle : hi ≤ lo
      · rw [if_pos hle, if_pos hle]
        rfl
      · rw [if_neg hle, if_neg hle]

theorem sound_ofObservations {os : List (Observation K)} (hnn : ∀ o ∈ os, 0 ≤ o.weight) :
    (ofObservations os).Sound := by
  rw [ofObservations_eq_ofMultiset hnn]
  have hw : 0 ≤ totalWeight (os : Multiset (Observation K)) := totalWeight_nonneg hnn
  have h2 : 0 ≤ about 2 (center (os : Multiset (Observation K))) os := about_two_nonneg hnn _
  exact ⟨hw, h2⟩

/-! ## Estimators -/

/-- The divisors that count observations less than there are, are positive. -/
theorem count_sub_pos {k : ℕ} {n : UInt64} (h : k < n.toNat) : (0 : K) < n.toNat - k :=
  sub_pos.mpr (Nat.cast_lt.mpr h)

theorem variance_pos (hw : 0 < m.weight) (h2 : 0 < m.m2) {n : UInt64} (hn : 1 < n.toNat) :
    0 < m.variance n := by
  have h1 : (0 : K) < n.toNat - 1 := by exact_mod_cast count_sub_pos (K := K) hn
  rw [variance_eq]
  exact mul_pos (div_pos h2 hw) (div_pos (Nat.cast_pos.mpr (by omega)) h1)

section Estimators

variable (hw : 0 < m.weight)
include hw

theorem populationVariance_number :
    (m.map number).populationVariance = number m.populationVariance := number_div hw.ne'

theorem variance_number {n : UInt64} (hn : 1 < n.toNat) :
    (m.map number).variance n = number (m.variance n) := by
  have h1 : (n.toNat : K) - 1 ≠ 0 := by exact_mod_cast (count_sub_pos (K := K) hn).ne'
  unfold variance
  simp only [populationVariance_number hw, ofCount_eq, one_eq, number_mul, number_sub,
    number_div h1, ExactScalar.ofCount_eq_natCast]

variable (h2 : 0 < m.m2)
include h2

theorem populationKurtosis_number :
    (m.map number).populationKurtosis = number m.populationKurtosis := by
  have hv : 0 < m.populationVariance := div_pos h2 hw
  have h4 : (m.map number).m4 / (m.map number).weight = number (m.m4 / m.weight) :=
    number_div hw.ne'
  unfold populationKurtosis
  simp only [populationVariance_number hw, h4, number_mul, number_sub, ofCount_eq,
    number_div (mul_pos hv hv).ne', ExactScalar.ofCount_eq_natCast]

theorem kurtosis_number {n : UInt64} (hn : 3 < n.toNat) :
    (m.map number).kurtosis n = number (m.kurtosis n) := by
  have hv := variance_pos hw h2 (n := n) (by omega)
  have h4 : (m.map number).m4 / (m.map number).weight = number (m.m4 / m.weight) :=
    number_div hw.ne'
  have h1 : (0 : K) < n.toNat - 1 := by exact_mod_cast count_sub_pos (K := K) (k := 1) (by omega)
  have h2 : (0 : K) < n.toNat - 1 - 1 := by
    rw [sub_sub, one_add_one_eq_two]
    exact_mod_cast count_sub_pos (K := K) (k := 2) (by omega)
  have h3 : (0 : K) < n.toNat - 1 - 1 - 1 := by
    rw [sub_sub, sub_sub, show (1 : K) + (1 + 1) = (3 : ℕ) by norm_num]
    exact count_sub_pos hn
  unfold kurtosis
  simp only [variance_number hw (n := n) (by omega), h4, ofCount_eq, one_eq, number_add,
    number_sub, number_mul, number_div (mul_pos (mul_pos h1 h2) h3).ne',
    number_div (mul_pos h2 h3).ne', number_div (mul_pos hv hv).ne',
    ExactScalar.ofCount_eq_natCast]

variable (hroot : ∀ v : K, 0 < v → Scalar.sqrt v ≠ 0)
include hroot

theorem populationSkewness_number :
    (m.map number).populationSkewness = number m.populationSkewness := by
  have hv : 0 < m.populationVariance := div_pos h2 hw
  have h3 : (m.map number).m3 / (m.map number).weight = number (m.m3 / m.weight) :=
    number_div hw.ne'
  unfold populationSkewness
  simp only [populationVariance_number hw, h3, number_sqrt hv.le, number_mul,
    number_div (mul_ne_zero hv.ne' (hroot _ hv))]

theorem skewness_number {n : UInt64} (hn : 2 < n.toNat) :
    (m.map number).skewness n = number (m.skewness n) := by
  have hv := variance_pos hw h2 (n := n) (by omega)
  have hsd := hroot _ hv
  have h3 : (m.map number).m3 / (m.map number).weight = number (m.m3 / m.weight) :=
    number_div hw.ne'
  have h1 : (0 : K) < n.toNat - 1 := by exact_mod_cast count_sub_pos (K := K) (k := 1) (by omega)
  have h2 : (0 : K) < n.toNat - 1 - 1 := by
    rw [sub_sub, one_add_one_eq_two]
    exact_mod_cast count_sub_pos (K := K) (k := 2) hn
  unfold skewness
  simp only [variance_number hw (n := n) (by omega), number_sqrt hv.le, h3, ofCount_eq, one_eq,
    number_sub, number_mul, number_div (mul_pos h1 h2).ne',
    number_div (mul_ne_zero (mul_ne_zero hsd hsd) hsd), ExactScalar.ofCount_eq_natCast]

end Estimators

end Moments

end RunningStats
