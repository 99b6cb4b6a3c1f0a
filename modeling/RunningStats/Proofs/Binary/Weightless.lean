import RunningStats.Proofs.Binary.Arithmetic
import RunningStats.Proofs.Ingestion
import RunningStats.Sample.Estimators

/-!
# Observations without weight

What an observation of weight zero does to the moments, in arithmetic that rounds. One pass skips
it. Two passes do not: they add its terms, all of which ought to be zeros, to compensated sums.
There are two ways in which that moves a field:

* a zero that is added takes back the pending excess, so the total becomes `sum - compensation`
  (`sum_add_of_isZero`), which is the total only if the sum is `Settled`;
* far from the mean the square of the deviation is not finite, and zero times that is not a
  number (`notANumber_m2`).

Where neither is the case, the observation is `Inert`, and any number of such observations put in
anywhere leave every field as it is (`weightless_insertion`).
-/

namespace RunningStats

open RoundedScalar

variable {α : Type} [Scalar α]

/-! ## Compensated sums -/

namespace CompensatedSum

/-- The excess is too small to change the total. -/
def Settled (s : CompensatedSum α) : Prop := s.sum - s.compensation = s.sum

instance [DecidableEq α] (s : CompensatedSum α) : Decidable s.Settled :=
  inferInstanceAs (Decidable (_ = _))

theorem ofList_concat (xs : List α) (x : α) : ofList (xs ++ [x]) = (ofList xs).add x :=
  List.foldl_concat ..

variable [RoundedScalar α] {s : CompensatedSum α} {z : α}

/-- What holds of a compensated sum of any terms: neither part is the zero below, and a total that
has overflowed leaves no finite excess. -/
structure Regular (s : CompensatedSum α) : Prop where
  sum_ne : ¬ NegativeZero s.sum
  compensation_ne : ¬ NegativeZero s.compensation
  overflow : Scalar.isFinite s.sum = false → s.compensation = s.sum ∨ NotANumber s.compensation

theorem regular_empty : Regular (empty : CompensatedSum α) where
  sum_ne := not_negativeZero_zero
  compensation_ne := not_negativeZero_zero
  overflow h := by
    have hzero : Scalar.isFinite (0 : α) := isFinite_of_isZero isZero_zero
    exact absurd (h.symm.trans hzero) Bool.false_ne_true

theorem Regular.add (hs : s.Regular) (x : α) : (s.add x).Regular where
  sum_ne := add_ne_negativeZero hs.sum_ne _
  compensation_ne :=
    sub_ne_negativeZero (sub_ne_negativeZero (add_ne_negativeZero hs.sum_ne _) _) _
  overflow h := by
    have hcomp : (s.add x).compensation = (s.add x).sum - s.sum - (x - s.compensation) := rfl
    rw [hcomp]
    rcases sub_of_not_finite h s.sum with h1 | h1
    · rw [h1]
      exact sub_of_not_finite h _
    · exact .inr (h1.sub _)

theorem Regular.addAll (xs : List α) : ∀ {s : CompensatedSum α}, s.Regular →
    (s.addAll xs).Regular := by
  induction xs with
  | nil => exact fun hs => hs
  | cons x xs ih => exact fun hs => ih (hs.add x)

theorem regular_ofList (xs : List α) : (ofList xs).Regular := regular_empty.addAll xs

/-- **A zero takes the pending excess back.** -/
theorem Regular.sum_add_of_isZero (hs : s.Regular) (hz : Scalar.isZero z) :
    (s.add z).sum = s.sum - s.compensation := by
  show s.sum + (z - s.compensation) = _
  rw [sub_eq_add, sub_eq_add]
  by_cases hc : Scalar.isZero s.compensation
  · have hneg := isZero_neg.mpr hc
    rw [add_zero_of_isZero hs.sum_ne (isZero_add hz hneg), add_zero_of_isZero hs.sum_ne hneg]
  · rw [zero_add_of_isZero hz (mt isZero_neg.mp hc)]

/-- **A zero changes nothing** if the sum is settled, and only then. -/
theorem Regular.add_of_isZero (hs : s.Regular) (hz : Scalar.isZero z) :
    s.add z = s ↔ s.Settled := by
  have hsum := hs.sum_add_of_isZero hz
  constructor
  · intro h
    rw [h] at hsum
    exact hsum.symm
  · intro hset
    have hcomp : (s.add z).sum - s.sum - (z - s.compensation) = s.compensation := by
      rw [hsum, hset]
      by_cases hfin : Scalar.isFinite s.sum
      · rw [sub_self_of_finite hfin, zero_sub_zero_sub hz hs.compensation_ne]
      · rw [Bool.not_eq_true] at hfin
        -- a settled total that is not finite is no number, and neither is its excess
        have hnan : NotANumber s.sum := by
          rw [← hset]
          rcases hs.overflow hfin with h | h
          · rw [h]
            exact sub_self_of_not_finite hfin
          · exact sub_notANumber _ h
        have hexcess : NotANumber s.compensation := (hs.overflow hfin).elim (fun h => h ▸ hnan) id
        exact ((hnan.sub _).sub _).eq hexcess
    show CompensatedSum.mk (s.add z).sum ((s.add z).sum - s.sum - (z - s.compensation)) = s
    rw [hcomp, hsum, hset]

/-- A term that is no number leaves none. -/
theorem notANumber_addAll (xs : List α) : ∀ {s : CompensatedSum α},
    (NotANumber s.sum ∨ ∃ x ∈ xs, NotANumber x) → NotANumber (s.addAll xs).sum := by
  induction xs with
  | nil =>
    rintro s (h | ⟨x, hx, -⟩)
    · exact h
    · exact absurd hx List.not_mem_nil
  | cons y ys ih =>
    rintro s (h | ⟨x, hx, hn⟩)
    · exact ih (.inl (h.add _))
    · rcases List.mem_cons.mp hx with rfl | hx
      · exact ih (.inl (add_notANumber _ (hn.sub _)))
      · exact ih (.inr ⟨x, hx, hn⟩)

end CompensatedSum

/-! ## Insertions -/

/-- `Inserted P before os os'`: with `before` in front of both, `os'` is `os` with elements put in,
and `P` holds of each of these and what of the shorter list stands before it. -/
inductive Inserted {β : Type} (P : List β → β → Prop) : List β → List β → List β → Prop
  | done (before : List β) : Inserted P before [] []
  | keep {before os os' : List β} (o : β) :
      Inserted P (before ++ [o]) os os' → Inserted P before (o :: os) (o :: os')
  | insert {before os os' : List β} (z : β) :
      P before z → Inserted P before os os' → Inserted P before os (z :: os')

namespace Inserted

section

variable {β : Type} {P : List β → β → Prop} {before os os' : List β}

theorem length_le (h : Inserted P before os os') : os.length ≤ os'.length := by
  induction h with
  | done => exact le_refl _
  | keep o _ ih => exact Nat.succ_le_succ ih
  | insert z _ _ ih => exact ih.trans (Nat.le_succ _)

theorem filter_eq (h : Inserted P before os os') {p : β → Bool}
    (hp : ∀ b z, P b z → p z = false) : os'.filter p = os.filter p := by
  induction h with
  | done => rfl
  | keep o _ ih =>
    cases ho : p o
    · rw [List.filter_cons_of_neg (by simp [ho]), List.filter_cons_of_neg (by simp [ho]), ih]
    · rw [List.filter_cons_of_pos ho, List.filter_cons_of_pos ho, ih]
  | insert z hz _ ih => rw [List.filter_cons_of_neg (by simp [hp _ z hz]), ih]

theorem find?_eq (h : Inserted P before os os') {p : β → Bool}
    (hp : ∀ b z, P b z → p z = false) : os'.find? p = os.find? p := by
  rw [← List.head?_filter, ← List.head?_filter, h.filter_eq hp]

end

variable [RoundedScalar α]

/-- **Zeros put in where the sum is settled** leave a compensated sum of terms as it is. -/
theorem ofList_eq {P : List (Observation α) → Observation α → Prop}
    {before os os' : List (Observation α)} (h : Inserted P before os os')
    {term : Observation α → α} (hP : ∀ b z, P b z → Scalar.isZero (term z) ∧
      (CompensatedSum.ofList (b.map term)).Settled) :
    (CompensatedSum.ofList (before.map term)).addAll (os'.map term) =
      (CompensatedSum.ofList (before.map term)).addAll (os.map term) := by
  induction h with
  | done => rfl
  | @keep before os os' o _ ih =>
    rw [List.map_append, List.map_singleton, CompensatedSum.ofList_concat] at ih
    exact ih
  | @insert before os os' z hz _ ih =>
    obtain ⟨hzero, hset⟩ := hP before z hz
    rw [List.map_cons]
    show ((CompensatedSum.ofList (before.map term)).add (term z)).addAll _ = _
    rw [((CompensatedSum.regular_ofList _).add_of_isZero hzero).mpr hset]
    exact ih

theorem total_eq {P : List (Observation α) → Observation α → Prop}
    {os os' : List (Observation α)} (h : Inserted P [] os os') {term : Observation α → α}
    (hP : ∀ b z, P b z → Scalar.isZero (term z) ∧
      (CompensatedSum.ofList (b.map term)).Settled) :
    Moments.total os' term = Moments.total os term :=
  congrArg CompensatedSum.sum (h.ofList_eq hP)

end Inserted

/-! ## Moments -/

namespace Moments

/-- The terms of the sums of the powers of the deviations. -/
def square (mean : α) (o : Observation α) : α :=
  o.weight * ((o.value - mean) * (o.value - mean))

@[inherit_doc square]
def cube (mean : α) (o : Observation α) : α := square mean o * (o.value - mean)

@[inherit_doc square]
def fourth (mean : α) (o : Observation α) : α :=
  square mean o * ((o.value - mean) * (o.value - mean))

theorem around_eq (weight mean : α) (os : List (Observation α)) :
    around weight mean os =
      ⟨weight, mean, total os (square mean), total os (cube mean), total os (fourth mean)⟩ := rfl

/-- Some values of positive weight differ. -/
def Spread (os : List (Observation α)) : Prop :=
  ∃ lo hi, extent (weighty os) = some (lo, hi) ∧ ¬ hi ≤ lo

/-- Not so far from the mean that the square overflows, and put in where neither the sum of the
weighted values nor those of the powers of the deviations change when a zero is added. -/
structure InertAbout (mean : α) (before : List (Observation α)) (z : Observation α) : Prop where
  deviation : Scalar.isFinite ((z.value - mean) * (z.value - mean))
  values : (CompensatedSum.ofList (before.map fun o => o.weight * o.value)).Settled
  squares : (CompensatedSum.ofList (before.map (square mean))).Settled
  cubes : (CompensatedSum.ofList (before.map (cube mean))).Settled
  fourths : (CompensatedSum.ofList (before.map (fourth mean))).Settled

/-- **An observation without weight that moves nothing** when it is put into `os` after `before`.
Only the weights are summed where there is no spread. -/
structure Inert (os before : List (Observation α)) (z : Observation α) : Prop where
  weightless : Scalar.isZero z.weight
  finite : Scalar.isFinite z.value
  weights : (CompensatedSum.ofList (before.map (·.weight))).Settled
  about : Spread os → InertAbout (ofObservations os).mean before z

variable {os os' : List (Observation α)}

theorem ofObservations_of_spread {lo hi : α} (h0 : ¬ Scalar.isZero (total os (·.weight)))
    (he : extent (weighty os) = some (lo, hi)) (hle : ¬ hi ≤ lo) :
    ofObservations os = around (total os (·.weight)) (Scalar.least (Scalar.greatest
      (total os (fun o => o.weight * o.value) / total os (·.weight)) lo) hi) os := by
  unfold ofObservations
  rw [if_neg h0, he]
  exact if_neg hle

variable [RoundedScalar α]

theorem weighty_inserted (h : Inserted (Inert os) [] os os') : weighty os' = weighty os := by
  unfold weighty
  rw [h.filter_eq fun b z hz => ?_]
  have hpos : ¬ 0 < z.weight := not_pos_of_isZero hz.weightless
  simp [hpos]

/-- The sums of the powers of the deviations, with all terms of what was put in being zeros. -/
theorem around_inserted (h : Inserted (Inert os) [] os os') (hspread : Spread os) (weight : α) :
    around weight (ofObservations os).mean os' = around weight (ofObservations os).mean os := by
  have hsquare : ∀ b z, Inert os b z → Scalar.isZero (square (ofObservations os).mean z) :=
    fun b z hz => isZero_mul hz.weightless (hz.about hspread).deviation
  rw [around_eq, around_eq, h.total_eq fun b z hz => ?_, h.total_eq fun b z hz => ?_,
    h.total_eq fun b z hz => ?_]
  · exact ⟨isZero_mul (hsquare b z hz) (hz.about hspread).deviation,
      (hz.about hspread).fourths⟩
  · exact ⟨isZero_mul (hsquare b z hz) (finite_of_mul_self (hz.about hspread).deviation),
      (hz.about hspread).cubes⟩
  · exact ⟨hsquare b z hz, (hz.about hspread).squares⟩

/-- **Inert observations put in leave the moments as they are.** -/
theorem ofObservations_inserted (h : Inserted (Inert os) [] os os') :
    ofObservations os' = ofObservations os := by
  have hweight : total os' (·.weight) = total os (·.weight) :=
    h.total_eq fun b z hz => ⟨hz.weightless, hz.weights⟩
  unfold ofObservations
  rw [hweight, weighty_inserted h]
  by_cases h0 : Scalar.isZero (total os (·.weight))
  · rw [if_pos h0, if_pos h0]
  · rw [if_neg h0, if_neg h0]
    cases he : extent (weighty os) with
    | none => rfl
    | some e =>
      obtain ⟨lo, hi⟩ := e
      show (if hi ≤ lo then _ else _) = (if hi ≤ lo then _ else _)
      by_cases hle : hi ≤ lo
      · rw [if_pos hle, if_pos hle]
      · have hspread : Spread os := ⟨lo, hi, he, hle⟩
        have hvalue : total os' (fun o => o.weight * o.value) =
            total os fun o => o.weight * o.value :=
          h.total_eq fun b z hz => ⟨isZero_mul hz.weightless hz.finite, (hz.about hspread).values⟩
        have hmoved := around_inserted h hspread (total os (·.weight))
        rw [ofObservations_of_spread h0 he hle] at hmoved
        rw [if_neg hle, if_neg hle, hvalue]
        exact hmoved

/-! ### How the moments are moved -/

/-- The weight after one more observation without weight: what was pending is taken back. -/
theorem weight_append_weightless (os : List (Observation α)) {z : Observation α}
    (hz : Scalar.isZero z.weight) :
    total (os ++ [z]) (·.weight) =
      (CompensatedSum.ofList (os.map (·.weight))).sum -
        (CompensatedSum.ofList (os.map (·.weight))).compensation := by
  rw [total, List.map_append, List.map_singleton, CompensatedSum.ofList_concat]
  exact (CompensatedSum.regular_ofList _).sum_add_of_isZero hz

/-- **An outlier of weight zero leaves no second moment** where the square of its deviation
overflows. -/
theorem notANumber_m2 (h0 : ¬ Scalar.isZero (total os (·.weight))) (hspread : Spread os)
    {z : Observation α} (hz : z ∈ os) (hzero : Scalar.isZero z.weight)
    (hfar : Scalar.isFinite ((z.value - (ofObservations os).mean) *
      (z.value - (ofObservations os).mean)) = false) : NotANumber (ofObservations os).m2 := by
  have hterm : NotANumber (square (ofObservations os).mean z) := zero_mul_of_not_finite hzero hfar
  obtain ⟨lo, hi, he, hle⟩ := hspread
  rw [ofObservations_of_spread h0 he hle] at hterm ⊢
  exact CompensatedSum.notANumber_addAll _ (.inr ⟨_, List.mem_map_of_mem hz, hterm⟩)

end Moments

/-! ## Estimators -/

theorem Fault.requireSamples_of_le {ω : Type} {required : UInt64} {n : ℕ}
    (hpos : 0 < required.toNat) (hle : required.toNat ≤ n) (hn : n < 2 ^ 64) :
    (Fault.requireSamples required (UInt64.ofNat n) : Except (Fault ω) Unit) = .ok () := by
  have hcount : (UInt64.ofNat n).toNat = n := UInt64.toNat_ofNat_of_lt' hn
  have hzero : UInt64.ofNat n ≠ 0 := by
    intro h
    rw [h, UInt64.toNat_zero] at hcount
    omega
  have hlt : ¬ UInt64.ofNat n < required := by
    rw [UInt64.lt_iff_toNat_lt, hcount]
    omega
  rw [requireSamples, if_neg hzero, if_neg hlt]

section

variable {ω : Type} [Wide α ω] [RoundedScalar α] {os os' : List (Observation α)}

/-- What was put in passes the checks. -/
theorem Observation.firstInvalid_inserted (h : Inserted (Moments.Inert os) [] os os') :
    firstInvalid os' = firstInvalid os := by
  refine h.find?_eq fun b z hz => ?_
  have hvalid : z.Valid :=
    ⟨isFinite_of_isZero hz.weightless, nonneg_of_isZero hz.weightless, hz.finite⟩
  simp [hvalid]

/-- The moments that an estimator asks for, where there are enough observations without those put
in. -/
theorem Sample.moments_inserted (h : Inserted (Moments.Inert os) [] os os') (required : UInt64)
    (hpos : 0 < required.toNat) (hle : required.toNat ≤ os.length) (hn : os'.length < 2 ^ 64) :
    (Sample.mk os').moments required = ((Sample.mk os).moments required :
      Except (Fault ω) (Moments α)) := by
  have hlen := h.length_le
  have hfew : Fault.requireSamples required (Sample.mk os).count =
      (.ok () : Except (Fault ω) Unit) :=
    Fault.requireSamples_of_le hpos hle (hlen.trans_lt hn)
  have hmany : Fault.requireSamples required (Sample.mk os').count =
      (.ok () : Except (Fault ω) Unit) :=
    Fault.requireSamples_of_le hpos (hle.trans hlen) hn
  unfold Sample.moments
  rw [Observation.checkAll_eq, Observation.checkAll_eq, Observation.firstInvalid_inserted h, hfew,
    hmany, Moments.ofObservations_inserted h]

namespace Moments

/-- **Observations without weight move nothing where they are inert**, in either float format. One
pass skips every observation of weight zero. In two passes any number of inert observations,
put in anywhere, leave each field of the moments as it is, so the estimators in their plug-in
form give the same value or fault, if there are enough observations without them. -/
theorem weightless_insertion :
    (∀ (m : Moments α) (value weight : α), Scalar.isZero weight → m.observe value weight = m) ∧
    ∀ os os' : List (Observation α), Inserted (Inert os) [] os os' →
      ofObservations os' = ofObservations os ∧
      (os'.length < 2 ^ 64 →
        (1 ≤ os.length → ∀ e : Estimator, e = .mean ∨ e = .variance .plugIn →
          (Sample.mk os').estimate e = ((Sample.mk os).estimate e : Except (Fault ω) α)) ∧
        (2 ≤ os.length → ∀ e : Estimator, e = .skewness .plugIn ∨ e = .kurtosis .plugIn →
          (Sample.mk os').estimate e = ((Sample.mk os).estimate e : Except (Fault ω) α))) := by
  refine ⟨fun m value weight hw => if_pos hw, fun os os' h => ⟨ofObservations_inserted h,
    fun hn => ⟨fun hlen e he => ?_, fun hlen e he => ?_⟩⟩⟩
  · have hone := Sample.moments_inserted (ω := ω) h 1 (by decide) hlen hn
    rcases he with rfl | rfl
    · rw [Sample.estimate, Sample.estimate, hone]
    · rw [Sample.estimate, Sample.estimate, Sample.variance, Sample.variance, hone]
  · have htwo := Sample.moments_inserted (ω := ω) h 2 (by decide) hlen hn
    have hspread : (Sample.mk os').spreadMoments 2 = (Sample.mk os).spreadMoments 2 := by
      rw [Sample.spreadMoments, Sample.spreadMoments, htwo]
    rcases he with rfl | rfl
    · rw [Sample.estimate, Sample.estimate, hspread]
    · rw [Sample.estimate, Sample.estimate, hspread]

/-- An outlier put in between two values, and one more, its weight the zero below, after them, where
an excess of the weights is pending. -/
theorem weightless_insertion_outlier :
    let os : List (Observation Float) := [⟨1, 0.1⟩, ⟨2, 0.2⟩]
    let os' : List (Observation Float) := [⟨1, 0.1⟩, ⟨1e100, 0⟩, ⟨2, 0.2⟩, ⟨5, -0⟩]
    Inserted (Inert os) [] os os' ∧ os'.length < 2 ^ 64 ∧ 2 ≤ os.length ∧
      ofObservations os' = ofObservations os ∧
      (Sample.mk os').estimate (.variance .plugIn) =
        ((Sample.mk os).estimate (.variance .plugIn) : Except (Fault Float) Float) ∧
      (Sample.mk os').estimate (.kurtosis .plugIn) =
        ((Sample.mk os).estimate (.kurtosis .plugIn) : Except (Fault Float) Float) ∧
      (ofObservations os).observe 1e200 0 = ofObservations os := by
  intro os os'
  have hinner : Inert os [⟨1, 0.1⟩] ⟨1e100, 0⟩ := by
    refine ⟨by decide +kernel, by decide +kernel, by decide +kernel, fun _ => ?_⟩
    constructor <;> decide +kernel
  have hlast : Inert os [⟨1, 0.1⟩, ⟨2, 0.2⟩] ⟨5, -0⟩ := by
    refine ⟨by decide +kernel, by decide +kernel, by decide +kernel, fun _ => ?_⟩
    constructor <;> decide +kernel
  have h : Inserted (Inert os) [] os os' :=
    .keep _ (.insert _ hinner (.keep _ (.insert _ hlast (.done _))))
  have hn : os'.length < 2 ^ 64 := by decide
  have hlen : 2 ≤ os.length := by decide
  obtain ⟨hobserve, hinserted⟩ := weightless_insertion (α := Float) (ω := Float)
  obtain ⟨hfields, hestimates⟩ := hinserted os os' h
  obtain ⟨hone, htwo⟩ := hestimates hn
  exact ⟨h, hn, hlen, hfields, hone (Nat.le_of_succ_le hlen) _ (.inr rfl), htwo hlen _ (.inr rfl),
    hobserve _ _ _ (by decide +kernel)⟩

/-- Every field is finite. -/
def AllFinite (m : Moments α) : Prop :=
  Scalar.isFinite m.weight ∧ Scalar.isFinite m.mean ∧ Scalar.isFinite m.m2 ∧
    Scalar.isFinite m.m3 ∧ Scalar.isFinite m.m4

instance (m : Moments α) : Decidable m.AllFinite :=
  inferInstanceAs (Decidable (_ ∧ _ ∧ _ ∧ _ ∧ _))

/-- Finite fields are moved by what is not inert: the second moment by an outlier whose deviation
has no finite square, and the sum of the weights where an excess is pending. -/
theorem weightless_insertion_moves :
    let near : List (Observation Float) := [⟨1, 1⟩, ⟨2, 1⟩]
    let far : Observation Float := ⟨1e200, 0⟩
    let heavy : List (Observation Float) := [⟨1, 1⟩, ⟨2, 9007199254740994⟩]
    let light : Observation Float := ⟨3, 0⟩
    (∀ o ∈ far :: light :: near ++ heavy, o.Valid) ∧
      (ofObservations near).AllFinite ∧ (ofObservations heavy).AllFinite ∧
      (ofObservations (near ++ [far])).m2 ≠ (ofObservations near).m2 ∧
      (ofObservations (near ++ [far])).populationVariance ≠
        (ofObservations near).populationVariance ∧
      (ofObservations (heavy ++ [light])).weight ≠ (ofObservations heavy).weight := by
  decide +kernel

end Moments

end

end RunningStats
