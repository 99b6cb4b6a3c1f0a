import RunningStats.Proofs.Answers
import RunningStats.Proofs.Binary.Compensation
import RunningStats.Proofs.Binary.Weightless

/-!
# The batch mean stays within the data

The two passes hold the mean between the smallest and the largest value of positive weight. The
quotient that they hold there may be anything: its sums may have overflowed, and a compensated sum
that has overflowed once is no number from then on.

* `OrderedScalar.Picks.foldl`: what `least` or `greatest` picks of a list of finite values is one of
  them, so the extent of a list has its ends in the list (`Moments.extent_ends`).
* `held_between`: whatever is held between two finite values is finite and lies between them.
* `CompensatedSum.isZero_ofList_iff`: a compensated sum of weights is zero only where every weight
  is, so a weight sum that is not leaves a value to hold the mean at.
* **`Sample.mean_within_data`**: the mean of a sample, wherever there is one, is finite and within
  the values of positive weight; and there is one as soon as the sample is valid and has weight.
-/

namespace RunningStats

open RoundedScalar BinaryScalar

/-! ## Extents -/

section Extents

variable {α : Type} [Scalar α] [OrderedScalar α]

omit [OrderedScalar α] in
/-- **What is picked of a list** is one of its values, or the one that it starts from, and related
to all of them. -/
theorem OrderedScalar.Picks.foldl {r : α → α → Prop} {f : α → α → α} (hf : Picks r f) :
    ∀ {xs : List α} {m : α}, Scalar.isFinite m → (∀ x ∈ xs, Scalar.isFinite x) →
      xs.foldl f m ∈ m :: xs ∧ ∀ x ∈ m :: xs, r (xs.foldl f m) x
  | [], m, hm, _ => by simpa using hf.refl hm
  | y :: ys, m, hm, hxs => by
    have hy : Scalar.isFinite y := hxs y List.mem_cons_self
    have hpick : Scalar.isFinite (f m y) := by rcases hf.either hm hy with h | h <;> rwa [h]
    obtain ⟨hmem, hall⟩ := foldl hf hpick fun x hx => hxs x (List.mem_cons_of_mem y hx)
    have hfinite : Scalar.isFinite (ys.foldl f (f m y)) := by
      rcases List.mem_cons.mp hmem with h | h
      · rwa [h]
      · exact hxs _ (List.mem_cons_of_mem y h)
    have hfirst := hall (f m y) List.mem_cons_self
    rw [List.foldl_cons]
    constructor
    · rcases List.mem_cons.mp hmem with h | h
      · rcases hf.either hm hy with he | he <;> rw [h, he] <;> simp
      · exact List.mem_cons_of_mem m (List.mem_cons_of_mem y h)
    · intro x hx
      rcases List.mem_cons.mp hx with rfl | hx
      · exact hf.trans hfinite hpick hm hfirst (hf.left hm hy)
      rcases List.mem_cons.mp hx with rfl | hx
      · exact hf.trans hfinite hpick hy hfirst (hf.right hm hy)
      · exact hall x (List.mem_cons_of_mem _ hx)

namespace Moments

omit [OrderedScalar α] in
/-- Both ends of an extent are found at once. -/
theorem extent_cons (x : α) (xs : List α) :
    extent (x :: xs) = some (xs.foldl Scalar.least x, xs.foldl Scalar.greatest x) := by
  have hfold : ∀ (ys : List α) (a b : α),
      ys.foldl (fun r y => (Scalar.least r.1 y, Scalar.greatest r.2 y)) (a, b) =
        (ys.foldl Scalar.least a, ys.foldl Scalar.greatest b) := by
    intro ys
    induction ys with
    | nil => exact fun a b => rfl
    | cons y ys ih => exact fun a b => ih _ _
  rw [extent, hfold]

/-- **The ends of an extent** are values of the list, with all others between them. -/
theorem extent_ends {xs : List α} {lo hi : α} (hxs : ∀ x ∈ xs, Scalar.isFinite x)
    (h : extent xs = some (lo, hi)) :
    lo ∈ xs ∧ hi ∈ xs ∧ ∀ x ∈ xs, lo ≤ x ∧ x ≤ hi := by
  cases xs with
  | nil => cases h
  | cons y ys =>
    rw [extent_cons] at h
    obtain ⟨rfl, rfl⟩ := Prod.mk.inj (Option.some.inj h)
    have hy : Scalar.isFinite y := hxs y List.mem_cons_self
    have hys : ∀ x ∈ ys, Scalar.isFinite x := fun x hx => hxs x (List.mem_cons_of_mem y hx)
    obtain ⟨hlo, hle⟩ := OrderedScalar.picks_least.foldl hy hys
    obtain ⟨hhi, hge⟩ := OrderedScalar.picks_greatest.foldl hy hys
    exact ⟨hlo, hhi, fun x hx => ⟨hle x hx, hge x hx⟩⟩

/-- The values of positive weight, in a list of finite ones. -/
theorem mem_weighty_iff {os : List (Observation α)} (hos : ∀ o ∈ os, Scalar.isFinite o.value)
    {x : α} : x ∈ weighty os ↔ ∃ o ∈ os, 0 < o.weight ∧ o.value = x := by
  rw [weighty, List.mem_map]
  constructor
  · rintro ⟨o, ho, hx⟩
    obtain ⟨ho, hw⟩ := List.mem_filter.mp ho
    rw [Bool.and_eq_true, decide_eq_true_iff] at hw
    exact ⟨o, ho, hw.1, hx⟩
  · rintro ⟨o, ho, hw, hx⟩
    have hdefined := OrderedScalar.defined (hos o ho)
    exact ⟨o, List.mem_filter.mpr ⟨ho, by simp [hw, hdefined]⟩, hx⟩

end Moments

end Extents

/-! ## Values held between two others -/

section Held

variable {α : Type} [Scalar α] [RoundedScalar α] {x y lo hi : α}

/-- An infinity below is strictly below every finite scalar. -/
theorem lt_of_number_eq_infinity (hx : number x = .infinity .negative) (hy : Scalar.isFinite y) :
    x < y := by
  rw [isFinite_eq_number] at hy
  rw [lt_iff]
  show (number x).lt (number y)
  rw [hx]
  cases hn : number y <;> rw [hn] at hy <;> first | rfl | cases hy

@[inherit_doc lt_of_number_eq_infinity]
theorem gt_of_number_eq_infinity (hx : number x = .infinity .positive) (hy : Scalar.isFinite y) :
    y < x := by
  rw [isFinite_eq_number] at hy
  rw [lt_iff]
  show (number y).lt (number x)
  rw [hx]
  cases hn : number y <;> rw [hn] at hy <;> first | rfl | cases hy

/-- No number at all, finite, or one of the infinities. -/
theorem number_cases (x : α) : NotANumber x ∨ Scalar.isFinite x ∨
    number x = .infinity .negative ∨ number x = .infinity .positive := by
  rw [isFinite_eq_number, NotANumber]
  cases number x with
  | notANumber => exact .inl rfl
  | infinity s => cases s <;> simp
  | _ => exact .inr (.inl rfl)

/-- What is raised to a finite value is finite and no smaller, or infinite. -/
theorem greatest_cases (x : α) (hlo : Scalar.isFinite lo) :
    (Scalar.isFinite (Scalar.greatest x lo) ∧ lo ≤ Scalar.greatest x lo) ∨
      number (Scalar.greatest x lo) = .infinity .positive := by
  have hdefined := OrderedScalar.defined hlo
  have hrefl := OrderedScalar.refl hlo
  rcases number_cases x with h | h | h | h
  · rw [Scalar.greatest, if_pos (undefined_iff.mpr h)]
    exact .inl ⟨hlo, hrefl⟩
  · have hpicks := OrderedScalar.picks_greatest (α := α)
    refine .inl ⟨?_, hpicks.right h hlo⟩
    rcases hpicks.either h hlo with he | he <;> rwa [he]
  · have hnot : ¬ Scalar.undefined x := by
      rw [undefined_iff, NotANumber, h]
      simp
    rw [Scalar.greatest, if_neg hnot, if_neg (Bool.eq_false_iff.mp hdefined),
      if_pos (lt_of_number_eq_infinity h hlo)]
    exact .inl ⟨hlo, hrefl⟩
  · have hnot : ¬ Scalar.undefined x := by
      rw [undefined_iff, NotANumber, h]
      simp
    have hlt : ¬ x < lo := by
      rw [lt_iff]
      show ¬ (number x).lt (number lo)
      rw [h]
      cases number lo with
      | infinity s => cases s <;> exact Bool.false_ne_true
      | _ => exact Bool.false_ne_true
    rw [Scalar.greatest, if_neg hnot, if_neg (Bool.eq_false_iff.mp hdefined), if_neg hlt]
    exact .inr h

/-- **What is held between two finite values** lies between them, be it infinite or no number. -/
theorem held_between (x : α) (hlo : Scalar.isFinite lo) (hhi : Scalar.isFinite hi) (h : lo ≤ hi) :
    Scalar.isFinite (Scalar.least (Scalar.greatest x lo) hi) ∧
      lo ≤ Scalar.least (Scalar.greatest x lo) hi ∧
      Scalar.least (Scalar.greatest x lo) hi ≤ hi := by
  rcases greatest_cases x hlo with ⟨hg, hle⟩ | hg
  · have hpicks := OrderedScalar.picks_least (α := α)
    have hright := hpicks.right hg hhi
    rcases hpicks.either hg hhi with he | he <;> rw [he] at hright ⊢
    · exact ⟨hg, hle, hright⟩
    · exact ⟨hhi, h, hright⟩
  · have hnot : ¬ Scalar.undefined (Scalar.greatest x lo) := by
      rw [undefined_iff, NotANumber, hg]
      simp
    rw [Scalar.least, if_neg hnot, if_neg (Bool.eq_false_iff.mp (OrderedScalar.defined hhi)),
      if_pos (gt_of_number_eq_infinity hg hhi)]
    exact ⟨hhi, h, OrderedScalar.refl hhi⟩

end Held

/-! ## Sums of weights -/

namespace CompensatedSum

variable {α : Type} [Scalar α] [BinaryScalar α] {s : CompensatedSum α} {x : α}

/-- Zeros add up to zero. -/
theorem isZero_addAll (xs : List α) : ∀ {s : CompensatedSum α}, Scalar.isZero s.sum →
    Scalar.isZero s.compensation → (∀ x ∈ xs, Scalar.isZero x) →
    Scalar.isZero (s.addAll xs).sum := by
  have hsub {y z : α} (hy : Scalar.isZero y) (hz : Scalar.isZero z) : Scalar.isZero (y - z) := by
    rw [sub_eq_add]
    exact isZero_add hy (isZero_neg.mpr hz)
  induction xs with
  | nil => exact fun hs _ _ => hs
  | cons x xs ih =>
    intro s hs hc hxs
    have hy := hsub (hxs x List.mem_cons_self) hc
    have ht : Scalar.isZero (s.add x).sum := isZero_add hs hy
    exact ih ht (hsub (hsub ht hs) hy) fun z hz => hxs z (List.mem_cons_of_mem x hz)

/-- An amount leaves a sum steady. -/
theorem Steady.add_amount (hs : Steady s) (hx : 0 ≤ toRat x) : Steady (s.add x) := by
  refine (hs.add fun hfs _ => ?_).1
  have := mul_nonneg (show (0 : ℚ) ≤ 2 ^ (spec α).mantissaBits by positivity) hx
  linarith [(hs hfs).1]

/-- **A sum that is not zero does not return to zero** when an amount is added, and an amount that
is not zero leaves none. -/
theorem Steady.not_isZero_add (hs : Steady s) (hx : 0 ≤ toRat x)
    (h : ¬ Scalar.isZero s.sum ∨ ¬ Scalar.isZero x) : ¬ Scalar.isZero (s.add x).sum := by
  intro hz
  have hft := isFinite_of_isZero hz
  have ht0 : toRat (s.add x).sum = 0 := (isZero_iff_toRat hft).mp hz
  obtain ⟨hfs, hfx, hfy, hy, ht⟩ := rounds_of_add hft
  obtain ⟨h0, -, hc⟩ := hs hfs
  have hp := two_pow_le_precision (α := α)
  have hlow : -(8 * toRat s.sum) ≤ 2 ^ (spec α).mantissaBits * toRat x := by
    have := mul_nonneg (show (0 : ℚ) ≤ 2 ^ (spec α).mantissaBits by positivity) hx
    linarith
  rw [isZero_iff_toRat hfs, isZero_iff_toRat hfx] at h
  rcases h with h | h
  · -- what is added is no larger than the new sum, which is off by a small part of itself
    obtain ⟨hyz, -⟩ := Binary.abs_term_le hp
      (hy.error_of_step ((representable x).step.sub (representable s.compensation).step)) h0 hc hlow
    have hz0 : 0 ≤ toRat s.sum + toRat (x - s.compensation) := (abs_nonneg _).trans hyz
    have herr := Binary.coarse_error hp (ht.error_of_step
      ((representable s.sum).step.add (representable (x - s.compensation)).step))
    rw [ht0, zero_sub, abs_neg, abs_of_nonneg hz0] at herr
    have hy0 := abs_nonneg (toRat (x - s.compensation))
    have hyl := neg_abs_le (toRat (x - s.compensation))
    exact h (le_antisymm (by linarith) h0)
  · have hle := (hs.add (x := x) fun _ _ => hlow).2 hft hx
    exact h (le_antisymm (by linarith) hx)

theorem Steady.not_isZero_addAll (xs : List α) : ∀ {s : CompensatedSum α}, Steady s →
    (∀ x ∈ xs, 0 ≤ toRat x) → (¬ Scalar.isZero s.sum ∨ ∃ x ∈ xs, ¬ Scalar.isZero x) →
    ¬ Scalar.isZero (s.addAll xs).sum := by
  induction xs with
  | nil => exact fun _ _ h => h.resolve_right fun ⟨_, hx, _⟩ => absurd hx List.not_mem_nil
  | cons x xs ih =>
    intro s hs hxs h
    have hx := hxs x List.mem_cons_self
    refine ih (hs.add_amount hx) (fun z hz => hxs z (List.mem_cons_of_mem x hz)) ?_
    rcases h with h | ⟨z, hz, hn⟩
    · exact .inl (hs.not_isZero_add hx (.inl h))
    · rcases List.mem_cons.mp hz with rfl | hz
      · exact .inl (hs.not_isZero_add hx (.inr hn))
      · exact .inr ⟨z, hz, hn⟩

/-- **A sum of amounts is zero where every one of them is**, and only there. -/
theorem isZero_ofList_iff {xs : List α} (hxs : ∀ x ∈ xs, 0 ≤ toRat x) :
    Scalar.isZero (ofList xs).sum ↔ ∀ x ∈ xs, Scalar.isZero x := by
  constructor
  · intro h
    by_contra hn
    push Not at hn
    exact steady_empty.not_isZero_addAll xs hxs (.inr hn) h
  · exact isZero_addAll xs isZero_zero isZero_zero

end CompensatedSum

/-! ## The mean of a sample -/

namespace Moments

variable {α : Type} [Scalar α] [BinaryScalar α] {os : List (Observation α)}

/-- A valid weight is zero or positive. -/
theorem weight_pos_iff {o : Observation α} (ho : o.Valid) :
    0 < o.weight ↔ ¬ Scalar.isZero o.weight := by
  have h0 := (toRat_nonneg_iff ho.1).mp ho.2.1
  rw [isZero_iff_toRat ho.1, lt_iff_toRat (isFinite_of_isZero isZero_zero) ho.1, toRat_zero]
  exact ⟨ne_of_gt, fun h => lt_of_le_of_ne h0 (Ne.symm h)⟩

/-- **The weight sum of valid observations** is not zero where one of them has a positive weight. -/
theorem not_isZero_weight_iff (hos : ∀ o ∈ os, o.Valid) :
    ¬ Scalar.isZero (total os (·.weight)) ↔ ∃ o ∈ os, 0 < o.weight := by
  have hnn : ∀ w ∈ os.map (·.weight), 0 ≤ toRat w := by
    rintro w hw
    obtain ⟨o, ho, rfl⟩ := List.mem_map.mp hw
    exact (toRat_nonneg_iff (hos o ho).1).mp (hos o ho).2.1
  rw [total, CompensatedSum.isZero_ofList_iff hnn, List.forall_mem_map]
  push Not
  exact exists_congr fun o => and_congr_right fun ho => (weight_pos_iff (hos o ho)).symm

/-- Where there is some weight, the values that carry it have an extent. -/
theorem exists_extent (hos : ∀ o ∈ os, o.Valid) (hw : ∃ o ∈ os, 0 < o.weight) :
    ∃ lo hi, extent (weighty os) = some (lo, hi) ∧ lo ∈ weighty os ∧ hi ∈ weighty os ∧
      ∀ x ∈ weighty os, Scalar.isFinite x ∧ lo ≤ x ∧ x ≤ hi := by
  have hmem {x : α} := mem_weighty_iff (fun o ho => (hos o ho).2.2) (x := x)
  have hfinite : ∀ x ∈ weighty os, Scalar.isFinite x := fun x hx => by
    obtain ⟨o, ho, -, rfl⟩ := hmem.mp hx
    exact (hos o ho).2.2
  obtain ⟨o, ho, hpos⟩ := hw
  cases hxs : weighty os with
  | nil =>
    have := hmem.mpr ⟨o, ho, hpos, rfl⟩
    rw [hxs] at this
    exact absurd this List.not_mem_nil
  | cons x xs =>
    rw [hxs] at hfinite
    obtain ⟨hlo, hhi, hall⟩ := extent_ends hfinite (extent_cons x xs)
    exact ⟨_, _, extent_cons x xs, hlo, hhi, fun y hy => ⟨hfinite y hy, hall y hy⟩⟩

theorem weight_ofObservations {α : Type} [Scalar α] (os : List (Observation α)) :
    (ofObservations os).weight = total os (·.weight) := by
  unfold ofObservations
  dsimp only
  split
  · rfl
  · split
    · rfl
    · split <;> rfl

/-- Where the extent is one value, all weight lies there. -/
theorem ofObservations_of_flat {α : Type} [Scalar α] {os : List (Observation α)} {lo hi : α}
    (hw : ¬ Scalar.isZero (total os (·.weight))) (he : extent (weighty os) = some (lo, hi))
    (hle : hi ≤ lo) : ofObservations os = concentrated (total os (·.weight)) lo := by
  unfold ofObservations
  rw [if_neg hw, he]
  exact if_pos hle

/-- **The mean of two passes** is finite and lies within the extent of the values of positive
weight, whatever became of the sums. -/
theorem mean_ofObservations {lo hi : α} (hw : ¬ Scalar.isZero (total os (·.weight)))
    (he : extent (weighty os) = some (lo, hi)) (hlo : Scalar.isFinite lo)
    (hhi : Scalar.isFinite hi) (hle : lo ≤ hi) :
    Scalar.isFinite (ofObservations os).mean ∧ lo ≤ (ofObservations os).mean ∧
      (ofObservations os).mean ≤ hi := by
  by_cases hflat : hi ≤ lo
  · rw [ofObservations_of_flat hw he hflat]
    exact ⟨hlo, OrderedScalar.refl hlo, hle⟩
  · rw [ofObservations_of_spread hw he hflat]
    exact held_between _ hlo hhi hle

end Moments

namespace Sample

section

variable {α ω : Type} [Scalar α] [Wide α ω] {s : Sample α} {required : UInt64}

/-- Moments are answered for enough valid observations of some weight. -/
theorem of_moments {m : Moments α}
    (h : (s.moments required : Except (Fault ω) (Moments α)) = .ok m) :
    (∀ o ∈ s.observations, o.Valid) ∧ s.count ≠ 0 ∧ required ≤ s.count ∧
      ¬ Scalar.isZero (Moments.ofObservations s.observations).weight ∧
      Moments.ofObservations s.observations = m := by
  obtain ⟨_, hvalid, h⟩ := of_bind_ok h
  obtain ⟨_, hr, h⟩ := of_bind_ok h
  obtain ⟨h0, hle⟩ := Fault.of_requireSamples hr
  rw [Observation.checkAll_eq] at hvalid
  cases hf : Observation.firstInvalid s.observations with
  | some o =>
    rw [hf] at hvalid
    cases hvalid
  | none =>
    dsimp only at h
    split at h
    · cases h
    · exact ⟨Observation.firstInvalid_eq_none_iff.mp hf, h0, hle, ‹_›, Except.ok.inj h⟩

theorem moments_ok (hvalid : ∀ o ∈ s.observations, o.Valid) (h0 : s.count ≠ 0)
    (hle : required ≤ s.count)
    (hw : ¬ Scalar.isZero (Moments.ofObservations s.observations).weight) :
    (s.moments required : Except (Fault ω) (Moments α)) =
      .ok (Moments.ofObservations s.observations) := by
  rw [moments, Observation.checkAll_eq, Observation.firstInvalid_eq_none_iff.mpr hvalid,
    Fault.requireSamples_ok h0 hle]
  exact if_neg hw

end

variable {α ω : Type} [Scalar α] [BinaryScalar α] [Wide α ω]

/-- **The batch mean never leaves the data**, in either float format: the mean of a sample, wherever
there is one, is finite and lies between two of the values of positive weight that are the smallest
and the largest of these, whatever became of the sums on the way. A valid sample has a mean as soon
as one of its weights is positive. -/
theorem mean_within_data (s : Sample α) :
    (∀ m : α, (s.estimate .mean : Except (Fault ω) α) = .ok m → Scalar.isFinite m ∧
      ∃ least ∈ s.observations, ∃ greatest ∈ s.observations,
        0 < least.weight ∧ 0 < greatest.weight ∧
        (∀ o ∈ s.observations, 0 < o.weight → least.value ≤ o.value ∧ o.value ≤ greatest.value) ∧
        least.value ≤ m ∧ m ≤ greatest.value) ∧
    ((∀ o ∈ s.observations, o.Valid) → (∃ o ∈ s.observations, 0 < o.weight) → s.count ≠ 0 →
      ∃ m : α, (s.estimate .mean : Except (Fault ω) α) = .ok m) := by
  constructor
  · intro m h
    obtain ⟨_, hm, h⟩ := of_bind_ok h
    obtain ⟨hvalid, -, -, hw, rfl⟩ := of_moments hm
    cases h
    rw [Moments.weight_ofObservations] at hw
    have hmem {x : α} := Moments.mem_weighty_iff (fun o ho => (hvalid o ho).2.2) (x := x)
    obtain ⟨lo, hi, he, hlo, hhi, hall⟩ :=
      Moments.exists_extent hvalid ((Moments.not_isZero_weight_iff hvalid).mp hw)
    obtain ⟨hfinite, hle, hge⟩ := Moments.mean_ofObservations hw he (hall lo hlo).1 (hall hi hhi).1
      (hall hi hhi).2.1
    obtain ⟨least, hleast, hlpos, rfl⟩ := hmem.mp hlo
    obtain ⟨greatest, hgreatest, hgpos, rfl⟩ := hmem.mp hhi
    exact ⟨hfinite, least, hleast, greatest, hgreatest, hlpos, hgpos,
      fun o ho hpos => (hall o.value (hmem.mpr ⟨o, ho, hpos, rfl⟩)).2, hle, hge⟩
  · intro hvalid hpos h0
    have hw := (Moments.not_isZero_weight_iff hvalid).mpr hpos
    rw [← Moments.weight_ofObservations] at hw
    have hone : 1 ≤ s.count := UInt64.le_iff_toNat_le.mpr
      (Nat.pos_of_ne_zero fun hc => h0 (UInt64.toNat_inj.mp hc))
    exact ⟨_, by rw [estimate, moments_ok hvalid h0 hone hw]; rfl⟩

/-- Huge weights on values near the ends of the range: the sum of the weighted values is no number,
and the mean is held at the smaller value; the value below both has no weight. -/
theorem mean_within_data_overflow :
    let s : Sample Float := ⟨[⟨1e308, 1e308⟩, ⟨-1e308, 1e308⟩, ⟨-1.5e308, 0⟩, ⟨1e308, 1⟩]⟩
    Moments.total s.observations (fun o => o.weight * o.value) =
        (Scalar.infinity - Scalar.infinity : Float) ∧
      (∀ o ∈ s.observations, o.Valid) ∧ (∃ o ∈ s.observations, 0 < o.weight) ∧ s.count ≠ 0 ∧
      ∃ m : Float, (s.estimate .mean : Except (Fault Float) Float) = .ok m ∧
        Scalar.isFinite m ∧ m = -1e308 := by
  intro s
  have hmean : (s.estimate .mean : Except (Fault Float) Float) = .ok (-1e308) := by decide +kernel
  have hvalid : ∀ o ∈ s.observations, o.Valid := by decide +kernel
  have hpos : ∃ o ∈ s.observations, 0 < o.weight := by decide +kernel
  have h0 : s.count ≠ 0 := by decide +kernel
  obtain ⟨hwithin, hanswers⟩ := mean_within_data (ω := Float) s
  obtain ⟨m, hm⟩ := hanswers hvalid hpos h0
  have heq : m = -1e308 := Except.ok.inj (hm.symm.trans hmean)
  exact ⟨by decide +kernel, hvalid, hpos, h0, m, hm, (hwithin m hm).1, heq⟩

end Sample

end RunningStats
